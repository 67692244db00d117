/-
Commands of clients (`libsysutils/src/FrameworkListener.cpp`).

A client writes commands that end with a zero to a stream socket.  `onDataAvailable` reads what
there is into a buffer of its own and dispatches the strings that it finds there; what is behind
the last zero is forgotten when the call returns.

* `Read` — what one `read` gives, and what else is in the buffer;
* `feed` — the strings that end in a list of bytes, and the string that is left open;
* `dispatched_eq_iff` — the commands are dispatched as they were sent if and only if no read ends
  inside a command.
-/
import Mathlib.Tactic

open List

namespace FrameworkListener

/-! ### The listener -/

/-- The size of the buffer that a read fills. -/
def cmdBufSize : ℕ := 1024

/-- The string at a pointer, as `dispatchCommand` reads it. -/
def stringAt (p : List UInt8) : List UInt8 := p.takeWhile (· ≠ 0)

/-- The loop of `onDataAvailable`, with `n` more bytes from `i` on: the strings for which
`dispatchCommand` is called. -/
def dispatchLoop (buffer : List UInt8) : ℕ → ℕ → ℕ → List (List UInt8)
  | _, _, 0 => []
  | offset, i, n + 1 =>
    if buffer[i]? = some 0 then
      stringAt (buffer.drop offset) :: dispatchLoop buffer (i + 1) (i + 1) n
    else dispatchLoop buffer offset (i + 1) n

/-- `onDataAvailable`: what `read` gives (nothing if it fails), and what is behind it in the
buffer.  The result is returned with the dispatched strings. -/
def onDataAvailable (data : Option (List UInt8)) (rest : List UInt8) : Bool × List (List UInt8) :=
  match data with
  | none => (false, [])
  | some bytes =>
    if bytes.length = 0 then (false, [])
    else (true, dispatchLoop (bytes ++ rest) 0 0 bytes.length)

/-- A read that gives something. -/
structure Read where
  bytes : List UInt8
  rest : List UInt8
  ne_nil : bytes ≠ []
  size : bytes.length + rest.length = cmdBufSize

/-- What is dispatched in the calls for these reads. -/
def dispatched (reads : List Read) : List (List UInt8) :=
  reads.flatMap fun r => (onDataAvailable (some r.bytes) r.rest).2

/-- What a client writes. -/
def stream (commands : List (List UInt8)) : List UInt8 := commands.flatMap (· ++ [0])

/-! ### Strings in a stream -/

variable {commands : List (List UInt8)}

/-- The strings that end in `bs`, the first of which has begun with `cur`, and the open string. -/
def feed : List UInt8 → List UInt8 → List (List UInt8) × List UInt8
  | cur, [] => ([], cur)
  | cur, b :: bs =>
    if b = 0 then (cur :: (feed [] bs).1, (feed [] bs).2) else feed (cur ++ [b]) bs

theorem feed_append (cur x y : List UInt8) :
    feed cur (x ++ y) =
      ((feed cur x).1 ++ (feed (feed cur x).2 y).1, (feed (feed cur x).2 y).2) := by
  induction x generalizing cur with
  | nil => rfl
  | cons b x ih =>
    rw [cons_append, feed, feed]
    split
    · rw [ih]
      rfl
    · exact ih _

theorem feed_command {c : List UInt8} (hc : 0 ∉ c) (cur bs : List UInt8) :
    feed cur (c ++ 0 :: bs) = ((cur ++ c) :: (feed [] bs).1, (feed [] bs).2) := by
  induction c generalizing cur with
  | nil => rw [nil_append, feed, if_pos rfl, append_nil]
  | cons b c ih =>
    rw [mem_cons, not_or] at hc
    obtain ⟨hb, hc⟩ := hc
    rw [cons_append, feed, if_neg (Ne.symm hb), ih hc, append_assoc,
      singleton_append]

theorem feed_stream (h : ∀ c ∈ commands, 0 ∉ c) :
    feed [] (stream commands) = (commands, []) := by
  induction commands with
  | nil => rfl
  | cons c cs ih =>
    obtain ⟨hc, hcs⟩ := forall_mem_cons.mp h
    rw [stream, flatMap_cons, append_assoc, singleton_append, feed_command hc,
      ← stream, ih hcs, nil_append]

/-- Every byte is in a string that ends, or in the one that is left open. -/
theorem length_feed (cur bs : List UInt8) :
    (stream (feed cur bs).1).length + (feed cur bs).2.length = cur.length + bs.length := by
  induction bs generalizing cur with
  | nil => simp [feed, stream]
  | cons b bs ih =>
    rw [feed]
    split
    · have := ih []
      simp only [stream, flatMap_cons, length_append, length_cons,
        length_nil] at this ⊢
      omega
    · rw [ih, length_append, length_cons, length_cons, length_nil]
      omega

theorem feed_closed {bs : List UInt8} (hne : bs ≠ []) (cur : List UInt8) :
    (feed cur bs).2 = [] ↔ bs.getLast? = some 0 := by
  obtain ⟨bs, b, rfl⟩ := eq_nil_or_concat bs |>.resolve_left hne
  rw [concat_eq_append, feed_append, getLast?_concat, Option.some_inj, feed]
  split
  · simp [feed, *]
  · simp [feed, *]

/-! ### What is dispatched -/

variable {reads : List Read}

/-- The loop finds the strings that end in what was read. -/
theorem dispatchLoop_eq {cur : List UInt8} (hcur : 0 ∉ cur) (done bs rest : List UInt8) :
    dispatchLoop (done ++ (cur ++ (bs ++ rest))) done.length (done.length + cur.length)
      bs.length = (feed cur bs).1 := by
  induction bs generalizing done cur with
  | nil => rfl
  | cons b bs ih =>
    have hget : (done ++ (cur ++ (b :: bs ++ rest)))[done.length + cur.length]? = some b := by
      rw [getElem?_append_right (by omega), getElem?_append_right (by omega)]
      simp
    rw [length_cons, dispatchLoop, hget, feed]
    by_cases hb : b = 0
    · subst hb
      rw [if_pos rfl, if_pos rfl, drop_left]
      congr 1
      · -- the string at `offset` ends here
        rw [stringAt, cons_append, takeWhile_append_of_pos]
        · simp
        · intro c hc
          exact decide_eq_true fun h0 => hcur (h0 ▸ hc)
      · have := ih not_mem_nil (done ++ (cur ++ [0]))
        simpa [Nat.add_assoc] using this
    · rw [if_neg fun h => hb (Option.some_inj.mp h), if_neg hb]
      have hcur' : 0 ∉ cur ++ [b] := by
        rw [mem_append, mem_singleton, not_or]
        exact ⟨hcur, Ne.symm hb⟩
      have := ih hcur' done
      simpa [Nat.add_assoc] using this

theorem onDataAvailable_eq (r : Read) :
    onDataAvailable (some r.bytes) r.rest = (true, (feed [] r.bytes).1) := by
  have hloop := dispatchLoop_eq not_mem_nil [] r.bytes r.rest
  rw [onDataAvailable, if_neg fun h => r.ne_nil (eq_nil_of_length_eq_zero h)]
  exact congrArg _ hloop

/-- The bytes of what is dispatched, and those that are forgotten. -/
theorem length_dispatched (reads : List Read) :
    (stream (dispatched reads)).length + (reads.map fun r => (feed [] r.bytes).2.length).sum =
      (reads.flatMap Read.bytes).length := by
  induction reads with
  | nil => rfl
  | cons r reads ih =>
    have hr := length_feed [] r.bytes
    simp only [dispatched, stream, onDataAvailable_eq, flatMap_cons, flatMap_append,
      length_append, map_cons, sum_cons, length_nil] at ih hr ⊢
    omega

theorem dispatched_of_closed (h : ∀ r ∈ reads, (feed [] r.bytes).2 = []) :
    dispatched reads = (feed [] (reads.flatMap Read.bytes)).1 := by
  induction reads with
  | nil => rfl
  | cons r reads ih =>
    obtain ⟨hr, hrs⟩ := forall_mem_cons.mp h
    rw [flatMap_cons, feed_append, hr, ← ih hrs, dispatched, flatMap_cons,
      onDataAvailable_eq]
    rfl

/-- **Commands are dispatched as they were sent** if and only if every read ends where a command
ends. -/
theorem dispatched_eq_iff (hcommands : ∀ c ∈ commands, 0 ∉ c ∧ c.length < cmdBufSize)
    (hstream : reads.flatMap Read.bytes = stream commands) :
    dispatched reads = commands ↔ ∀ r ∈ reads, r.bytes.getLast? = some 0 := by
  have hclosed : (∀ r ∈ reads, r.bytes.getLast? = some 0) ↔
      ∀ r ∈ reads, (feed [] r.bytes).2 = [] :=
    forall₂_congr fun r _ => (feed_closed r.ne_nil []).symm
  rw [hclosed]
  constructor
  · intro heq r hr
    -- the strings take all bytes, so that none is forgotten
    have hlen := length_dispatched reads
    rw [heq, ← hstream] at hlen
    have hsum : (reads.map fun r => (feed [] r.bytes).2.length).sum = 0 := by omega
    exact eq_nil_of_length_eq_zero
      (sum_eq_zero_iff.mp hsum _ (mem_map_of_mem hr))
  · intro h
    rw [dispatched_of_closed h, hstream, feed_stream fun c hc => (hcommands c hc).1]

/-- A read into a buffer that was zero. -/
def Read.fresh (bytes : List UInt8) (hne : bytes ≠ []) (hle : bytes.length ≤ cmdBufSize) : Read :=
  ⟨bytes, List.replicate (cmdBufSize - bytes.length) 0, hne, by simp; omega⟩

/-- Three commands in two reads. -/
theorem dispatched_eq_iff_three :
    dispatched [.fresh [104, 105, 0, 111, 107, 0] (by decide) (by decide),
      .fresh [98, 121, 101, 0] (by decide) (by decide)] =
        [[104, 105], [111, 107], [98, 121, 101]] :=
  (dispatched_eq_iff (by decide) rfl).mpr (by decide)

/-- The command `hi` in two reads. -/
def twoReads : List Read :=
  [.fresh [104] (by decide) (by decide), .fresh [105, 0] (by decide) (by decide)]

/-- **A command in two reads** is dispatched without its beginning. -/
theorem dispatched_twoReads :
    twoReads.flatMap Read.bytes = stream [[104, 105]] ∧ dispatched twoReads = [[105]] := by
  decide

end FrameworkListener
