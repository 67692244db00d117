/-
Byte-addressed memory and buffers.

A `Mem` gives every address a byte.  Everything a C program does to raw memory
is one of two operations:

* `Mem.slice m o n` — read the `n` bytes from `o` on;
* `Mem.blit m o bs` — write the bytes `bs` at `o`.

`memmove` is a slice followed by a blit, a 32-bit load or store is a slice or a
blit of four little-endian bytes (`Mem.word`).  The rules below say what a slice
sees of a blit: all of it, none of it, or a part of it.

A `Buffer` is the window of `len` bytes that a program owns at address `addr`,
with the memory as seen from its start.  `Buffer.load` and `Buffer.store` are
the checked accesses: one that leaves the window is a `Fault`.  `Buffer.Frame`
says that a program wrote nowhere but in a given range.
-/
import AndroidSystem.LittleEndian

/-- A memory: every address holds a byte. -/
abbrev Mem := ℕ → UInt8

namespace Mem

open List

/-- The `n` bytes from `o` on. -/
def slice (m : Mem) (o n : ℕ) : List UInt8 := (List.range n).map fun i => m (o + i)

/-- The memory after `bs` was written at `o`. -/
def blit (m : Mem) (o : ℕ) (bs : List UInt8) : Mem :=
  fun a => if a < o then m a else bs.getD (a - o) (m a)

/-- The 32-bit little-endian word at `o`. -/
def word (m : Mem) (o : ℕ) : ℕ := leNat (m.slice o 4)

variable {m m' : Mem} {o o' n k : ℕ} {bs : List UInt8}

@[simp] theorem length_slice (m : Mem) (o n : ℕ) : (m.slice o n).length = n := by
  rw [slice, List.length_map, List.length_range]

@[simp] theorem slice_zero (m : Mem) (o : ℕ) : m.slice o 0 = [] := rfl

theorem getElem_slice (i : ℕ) (h : i < (m.slice o n).length) : (m.slice o n)[i] = m (o + i) := by
  simp [slice]

theorem slice_add (m : Mem) (o a b : ℕ) :
    m.slice o (a + b) = m.slice o a ++ m.slice (o + a) b := by
  rw [slice, slice, slice, range_add, map_append, map_map]
  simp only [Function.comp_def, Nat.add_assoc]

theorem slice_congr (h : ∀ i, i < n → m' (o' + i) = m (o + i)) : m'.slice o' n = m.slice o n :=
  map_congr_left fun i hi => h i (mem_range.mp hi)

theorem eq_of_slice_eq (h : m'.slice o' n = m.slice o n) (hk : k < n) :
    m' (o' + k) = m (o + k) := by
  have hk' : k < (m'.slice o' n).length := by rw [length_slice]; exact hk
  have heq := getElem_of_eq h hk'
  rwa [getElem_slice, getElem_slice] at heq

theorem drop_slice (m : Mem) (o n k : ℕ) : (m.slice o n).drop k = m.slice (o + k) (n - k) := by
  apply ext_getElem
  · simp
  · intro i h₁ h₂
    rw [getElem_drop, getElem_slice, getElem_slice, Nat.add_assoc]

theorem take_slice (m : Mem) (o : ℕ) (h : k ≤ n) : (m.slice o n).take k = m.slice o k := by
  obtain ⟨r, rfl⟩ := Nat.exists_eq_add_of_le h
  rw [slice_add, take_left' (length_slice m o k)]

/-! ### What a slice sees of a blit -/

theorem blit_of_lt {a : ℕ} (h : a < o) : m.blit o bs a = m a := if_pos h

theorem blit_of_ge {a : ℕ} (h : o + bs.length ≤ a) : m.blit o bs a = m a := by
  have hn : bs.length ≤ a - o := by omega
  simp [blit, show ¬ a < o by omega, hn]

theorem blit_of_mem {a : ℕ} (h : a < bs.length) : m.blit o bs (o + a) = bs[a] := by
  simp [blit, h]

/-- A write elsewhere is not seen. -/
theorem slice_blit_of_disjoint (h : o' + n ≤ o ∨ o + bs.length ≤ o') :
    (m.blit o bs).slice o' n = m.slice o' n := by
  apply slice_congr
  intro i hi
  rcases h with h | h
  · exact blit_of_lt (by omega)
  · exact blit_of_ge (by omega)

/-- A slice inside a write sees the bytes written. -/
theorem slice_blit_of_within (h : k + n ≤ bs.length) :
    (m.blit o bs).slice (o + k) n = (bs.drop k).take n := by
  apply ext_getElem
  · rw [length_slice, length_take, length_drop]
    omega
  · intro i h₁ h₂
    rw [length_slice] at h₁
    rw [getElem_slice, Nat.add_assoc, blit_of_mem (by omega), getElem_take, getElem_drop]

theorem slice_blit_self (m : Mem) (o : ℕ) (bs : List UInt8) :
    (m.blit o bs).slice o bs.length = bs := by
  have h := @slice_blit_of_within m o bs.length 0 bs (by omega)
  rwa [Nat.add_zero, drop_zero, take_length] at h

/-- A slice inside a copy sees the source of the copy. -/
theorem slice_blit_slice {N : ℕ} (h : k + n ≤ N) :
    (m.blit o (m'.slice o' N)).slice (o + k) n = m'.slice (o' + k) n := by
  rw [slice_blit_of_within (by rw [length_slice]; exact h), drop_slice, take_slice _ _ (by omega)]

/-- Moving the bytes behind a gap of `k` bytes down over it. -/
theorem slice_blit_close (h : o' + k ≤ n) :
    (m.blit (o + o') (m.slice (o + o' + k) (n - o' - k))).slice o (n - k) =
      (m.slice o n).take o' ++ (m.slice o n).drop (o' + k) := by
  have hsplit : n - k = o' + (n - o' - k) := by omega
  have hmoved := @slice_blit_slice m m (o + o') (o + o' + k) (n - o' - k) 0 (n - o' - k) (by omega)
  rw [Nat.add_zero, Nat.add_zero] at hmoved
  rw [hsplit, slice_add, slice_blit_of_disjoint (by omega), hmoved, take_slice _ _ (by omega),
    drop_slice, Nat.add_assoc, Nat.sub_sub]

/-! ### Words -/

theorem word_lt (m : Mem) (o : ℕ) : m.word o < 2 ^ 32 := by
  have h := leNat_lt (m.slice o 4)
  rwa [length_slice] at h

theorem word_blit_of_disjoint (h : o' + 4 ≤ o ∨ o + bs.length ≤ o') :
    (m.blit o bs).word o' = m.word o' := by
  rw [word, slice_blit_of_disjoint h, word]

theorem word_blit_self (m : Mem) (o v : ℕ) : (m.blit o (leBytes 4 v)).word o = v % 2 ^ 32 := by
  have h := slice_blit_self m o (leBytes 4 v)
  rw [length_leBytes] at h
  rw [word, h, leNat_leBytes]
  norm_num

end Mem

/-- What stops a program that touches memory. -/
inductive Mem.Fault
  | outOfBounds
  | nullDeref
  deriving DecidableEq, Repr

/-- A run that has its first result goes on with it.  The proof is kept from `dsimp`, so that the
kernel does not evaluate what follows. -/
theorem Mem.ok_bind {α β : Type} (a : α) (f : α → Except Mem.Fault β) :
    (Except.ok a >>= f) = f a := (rfl)

/-- The `len` bytes at address `addr`, with the memory as seen from `addr`. -/
structure Buffer where
  addr : ℕ
  len : ℕ
  mem : Mem

namespace Buffer

open Mem (Fault)

variable {b : Buffer} {o n : ℕ} {bs : List UInt8}

/-- The access to `n` bytes at `o` stays in the buffer; an access to no bytes always does. -/
def Inside (b : Buffer) (o n : ℕ) : Prop := n = 0 ∨ o + n ≤ b.len

instance (b : Buffer) (o n : ℕ) : Decidable (b.Inside o n) :=
  inferInstanceAs (Decidable (_ ∨ _))

/-- The buffer after `bs` was written at `o`. -/
def put (b : Buffer) (o : ℕ) (bs : List UInt8) : Buffer := { b with mem := b.mem.blit o bs }

/-- Bytes from inside the buffer. -/
def load (b : Buffer) (o n : ℕ) : Except Fault (List UInt8) :=
  if b.Inside o n then .ok (b.mem.slice o n) else .error .outOfBounds

/-- Bytes to inside the buffer. -/
def store (b : Buffer) (o : ℕ) (bs : List UInt8) : Except Fault Buffer :=
  if b.Inside o bs.length then .ok (b.put o bs) else .error .outOfBounds

/-- A little-endian word from inside the buffer. -/
def load32 (b : Buffer) (o : ℕ) : Except Fault ℕ := leNat <$> b.load o 4

/-- A little-endian word to inside the buffer. -/
def store32 (b : Buffer) (o v : ℕ) : Except Fault Buffer := b.store o (leBytes 4 v)

@[simp] theorem put_len (b : Buffer) (o : ℕ) (bs : List UInt8) : (b.put o bs).len = b.len := rfl

theorem put_mem (b : Buffer) (o : ℕ) (bs : List UInt8) :
    (b.put o bs).mem = b.mem.blit o bs := rfl

theorem load_of_inside (h : b.Inside o n) : b.load o n = .ok (b.mem.slice o n) := if_pos h

theorem store_of_inside (h : b.Inside o bs.length) : b.store o bs = .ok (b.put o bs) := if_pos h

theorem load32_of_le (h : o + 4 ≤ b.len) : b.load32 o = .ok (b.mem.word o) := by
  rw [load32, load_of_inside (Or.inr h)]
  rfl

theorem store32_of_le (h : o + 4 ≤ b.len) (v : ℕ) :
    b.store32 o v = .ok (b.put o (leBytes 4 v)) :=
  store_of_inside (Or.inr (by rw [length_leBytes]; exact h))

/-! ### Frames -/

/-- `b'` differs from `b` at most in the bytes from `lo` up to `hi`. -/
structure Frame (lo hi : ℕ) (b b' : Buffer) : Prop where
  addr : b'.addr = b.addr
  len : b'.len = b.len
  same : ∀ a, a < lo ∨ hi ≤ a → b'.mem a = b.mem a

namespace Frame

variable {lo hi lo' hi' : ℕ} {b b' b'' : Buffer}

theorem refl (lo hi : ℕ) (b : Buffer) : Frame lo hi b b := ⟨rfl, rfl, fun _ _ => rfl⟩

theorem put (hlo : lo ≤ o) (hhi : o + bs.length ≤ hi) : Frame lo hi b (b.put o bs) := by
  refine ⟨rfl, rfl, ?_⟩
  rintro a (ha | ha)
  · exact Mem.blit_of_lt (by omega)
  · exact Mem.blit_of_ge (by omega)

variable (h : Frame lo hi b b')
include h

theorem trans (h' : Frame lo hi b' b'') : Frame lo hi b b'' :=
  ⟨h'.addr.trans h.addr, h'.len.trans h.len, fun a ha => (h'.same a ha).trans (h.same a ha)⟩

theorem mono (hlo : lo' ≤ lo) (hhi : hi ≤ hi') : Frame lo' hi' b b' :=
  ⟨h.addr, h.len, fun a ha => h.same a (by omega)⟩

theorem slice (hd : o + n ≤ lo ∨ hi ≤ o) :
    b'.mem.slice o n = b.mem.slice o n :=
  Mem.slice_congr fun i _ => h.same (o + i) (by omega)

theorem word (hd : o + 4 ≤ lo ∨ hi ≤ o) : b'.mem.word o = b.mem.word o := by
  rw [Mem.word, h.slice hd, Mem.word]

end Frame

end Buffer
