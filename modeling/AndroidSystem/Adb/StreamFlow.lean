/-
Streams of `adb` are ordered, complete and flow controlled (`adb/sockets.c`, `adb/adb.c`).

`streams_flow` and `bytes_conserved` hold for every run in which numbers do not run out.

`foreign_data` is a run in which they do.  A program opens a stream, and then opens and loses
streams until `local_socket_next_id` has wrapped; the socket of the next stream has the number of
the first, and `find_local_socket` finds the first for both.
-/
import AndroidSystem.Adb.StreamInvariant

open CInt Runs Option

namespace Adb

open Program
open Auth (Bytes)

namespace Pair

/-- **Streams flow** in every run in which each new socket has a number: a direction has at most one
packet of data that is not answered, and what comes out of it is the first part of what went in, in
order and unchanged. -/
theorem streams_flow (es : List Event) (h : Along step Room init es) {s : Pair}
    (hr : run step init es = some s) : s.Flows :=
  (run_invariant (fun hinv hroom hstep => Inv.step hinv _ hroom hstep) init_inv h hr).flows

/-- A stream with data in both directions; the first packet is written in two parts. -/
def sampleRun : List Event :=
  [.connect true true (Auth.bytes "shell:"), .deliver true ⟨true, []⟩,
    .deliver false ⟨true, [.wrote 4]⟩, .file true 1 false true [] [.got [1, 2, 3]],
    .deliver true ⟨true, [.wrote 2]⟩, .file false 1 true true [.wrote 1] [.got [7]],
    .deliver false ⟨true, []⟩, .deliver false ⟨true, [.wrote 1]⟩]

theorem streams_flow_sampleRun : ∃ s, run step init sampleRun = some s ∧ s.Flows ∧
    (s.sock false 1).written = [1, 2, 3] ∧ (s.sock true 1).written = [7] := by
  refine ⟨(run step init sampleRun).get (by decide), (some_get _).symm, ?_, ?_, ?_⟩
  · exact streams_flow sampleRun (by decide) (some_get _).symm
  · decide
  · decide

/-- **No byte is lost**: what is under way is between the two sockets of one stream, and what one of
them has read is written at the other, in the backlog there or under way, in this order. -/
theorem bytes_conserved (es : List Event) (h : Along step Room init es) {s : Pair}
    (hr : run step init es = some s) (x : Bool) :
    (∀ i j, .okay i j ∈ s.chan x → s.Link x i j) ∧
      (∀ i j d, .wrte i j d ∈ s.chan x → s.Link x i j) ∧
      (∀ a b b', s.Link x a b → s.Link x a b' → b = b') ∧
      ∀ a b, s.Link x a b → s.Alive x a → s.Alive (!x) b →
        Carries (s.sock x a) (s.sock (!x) b) (wrtes a b (s.chan x)) (okays b a (s.chan (!x))) :=
  have hs := run_invariant (fun hinv hroom hstep => Inv.step hinv _ hroom hstep) init_inv h hr
  ⟨hs.okay x, hs.wrte x, hs.unique x, hs.flow x⟩

theorem bytes_conserved_sampleRun : ∃ s, run step init (sampleRun.take 4) = some s ∧
    s.Link true 1 1 ∧
    Carries (s.sock true 1) (s.sock false 1) (wrtes 1 1 (s.chan true)) (okays 1 1 (s.chan false)) :=
  have h := bytes_conserved (sampleRun.take 4) (by decide) (some_get (by decide)).symm true
  ⟨_, (some_get _).symm, h.2.1 1 1 [1, 2, 3] (by decide), h.2.2.2 1 1 (by decide) (by decide)
    (by decide)⟩

/-! ### A number that is given out again -/

/-- A value for each program. -/
def both {α : Type} (a b : α) (x : Bool) : α := cond x a b

section
variable {α : Type} (a b c : α)

@[simp] theorem both_true : both a b true = a := rfl

@[simp] theorem both_false : both a b false = b := rfl

@[simp] theorem update_both_true : Function.update (both a b) true c = both c b := by
  funext x
  cases x <;> rfl

@[simp] theorem update_both_false : Function.update (both a b) false c = both a c := by
  funext x
  cases x <;> rfl

end

/-- One program opened a stream, and has given out the numbers below `n`. -/
def idle (f g : ℕ → Socket Unit) (n : ℕ) : Pair where
  prog := both ⟨f, [1], [], n, fun _ => true, fun _ => .device⟩
    ⟨g, [1], [], 2, fun _ => true, fun _ => .device⟩
  chan := both [] []
  opens := both [] []
  streams := [(true, 1, 1)]

/-- A stream that the other program refuses. -/
def refused : List Event :=
  [.connect true false [], .deliver true ⟨false, []⟩, .deliver false ⟨false, []⟩]

theorem run_refused (f g : ℕ → Socket Unit) {n : ℕ} (hn : u32 n ≠ 1) :
    run step (idle f g n) refused =
      some (idle (Function.update f n { Socket.new with transport := some () }) g (n + 1)) := by
  have hne : 1 ≠ n := fun h1 => hn (by rw [← h1]; rfl)
  have hone : u32 1 = 1 := rfl
  simp [refused, run, step, connect, deliver, idle, act, pop, record, install,
    handleStream, findLocalSocket, close, notifyClose,
    closeOne, Socket.new, hn.symm, hone, hne]

/-- Any number of streams may be refused while the first one is there. -/
theorem run_refuseds (f g : ℕ → Socket Unit) {n : ℕ} (hn : 2 ≤ n) : ∀ k, n + k ≤ 2 ^ 32 + 1 →
    ∃ f', f' 1 = f 1 ∧ run step (idle f g n) (List.replicate k refused).flatten =
      some (idle f' g (n + k)) := by
  intro k
  induction k generalizing f n with
  | zero => exact fun _ => ⟨f, rfl, rfl⟩
  | succ k ih =>
    intro hk
    have hfirst : u32 n ≠ 1 := by
      rw [u32]
      omega
    obtain ⟨f', hf', hrun⟩ := ih (Function.update f n { Socket.new with transport := some () })
      (n := n + 1) (Nat.le_succ_of_le hn) (by omega)
    refine ⟨f', hf'.trans (Function.update_of_ne (by omega) ..), ?_⟩
    rw [List.replicate_succ, List.flatten_cons, run_append, run_refused f g hfirst,
      bind_some, hrun, Nat.add_right_comm, Nat.add_assoc]

/-- The first stream. -/
def first : List Event :=
  [.connect true false [], .deliver true ⟨true, []⟩, .deliver false ⟨true, []⟩]

/-- The socket at either end of the first stream. -/
def firstSocket (transport : Option Unit) : Socket Unit :=
  { (Socket.new : Socket Unit) with
    transport := transport, peer := some (.remote 1 ()), reading := true }

theorem run_first : ∃ f g, f 1 = firstSocket (some ()) ∧ g 1 = firstSocket none ∧
    run step init first = some (idle f g 2) := by
  refine ⟨Function.update (fun _ => Socket.new) 1 (firstSocket (some ())),
    Function.update (fun _ => Socket.new) 1 (firstSocket none), rfl, rfl, ?_⟩
  have hinit : init = ⟨both ⟨fun _ => Socket.new, [], [], 1, fun _ => true, fun _ => .device⟩
      ⟨fun _ => Socket.new, [], [], 1, fun _ => true, fun _ => .device⟩,
      both [] [], both [] [], []⟩ := by
    rw [init]
    congr <;> funext x <;> cases x <;> rfl
  have hone : u32 1 = 1 := rfl
  simp [hinit, first, run, step, connect, deliver, idle, act, pop, record, install,
    handleStream, findLocalSocket, ready, update, Socket.new, hone,
    firstSocket]

/-- The second stream whose socket has the number of the first. -/
def second : List Event :=
  [.connect true false [], .deliver true ⟨true, []⟩, .deliver false ⟨true, []⟩,
    .file false 2 false true [] [.got [7]], .deliver false ⟨true, [.wrote 1]⟩]

theorem run_second {f g : ℕ → Socket Unit} {n : ℕ} (hf : f 1 = firstSocket (some ()))
    (hg : g 1 = firstSocket none) (hn : u32 n = 1) (hne : 1 ≠ n) :
    ∃ s, run step (idle f g n) second = some s ∧ (true, 1, 1) ∈ s.streams ∧ s.Alive true 1 ∧
      s.Alive false 1 ∧ (s.sock true 1).written = [7] ∧ (s.sock false 1).taken = [] := by
  have hone : u32 1 = 1 := rfl
  have htwo : u32 2 = 2 := rfl
  simp [second, run, step, connect, deliver, file, idle, act, pop, record, install,
    handleStream, findLocalSocket, ready, update, eventFunc,
    eventRead, readAll, maxPayload, enqueue, writeAll, Socket.new,
    firstSocket, Alive, Pair.sock, hone, htwo, hn, hne, hf, hg]

/-- Between the first stream and the second, all other numbers are given out. -/
def wrapRun : List Event := first ++ (List.replicate (2 ^ 32 - 1) refused).flatten ++ second

/-- **What the first stream writes is not what was read for it**: the second stream sends to the
number of its socket, which is that of the first. -/
theorem foreign_data : ∃ s, run step init wrapRun = some s ∧ ¬ s.Flows ∧
    (s.sock true 1).written = [7] ∧ (s.sock false 1).taken = [] := by
  obtain ⟨f, g, hf, hg, hfirst⟩ := run_first
  obtain ⟨f', hf', hrefused⟩ := run_refuseds f g (Nat.le_refl 2) (2 ^ 32 - 1) (by omega)
  obtain ⟨s, hsecond, hstream, hnear, hfar, hwritten, htaken⟩ :=
    run_second (n := 2 + (2 ^ 32 - 1)) (hf'.trans hf) hg rfl (by omega)
  refine ⟨s, ?_, fun hflows => ?_, hwritten, htaken⟩
  · rw [wrapRun, run_append, run_append, hfirst, bind_some, hrefused, bind_some,
      hsecond]
  · have hbytes : (s.sock true 1).written <+: (s.sock false 1).taken :=
      (hflows _ hstream hnear hfar).2.2
    rw [hwritten, htaken] at hbytes
    exact absurd hbytes (by decide)

end Pair

end Adb
