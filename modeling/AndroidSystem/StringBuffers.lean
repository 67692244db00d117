/-
What the functions of strings do to buffers.

* `Buffer k others h a cells` — the buffer at `a` holds `cells` and nothing else, and besides
  the string that owns it the pointers are `others`;
* `Filled` — moreover it has no other owner;
* `terminated l` — the cells of a string with the units `l`.

For each function there is a specification: from a buffer with `terminated l` it comes to
one with the new units, and no other owner notices (`Agree`).  The characters that it is
given must be readable by others than the string itself; if they are in its own
unshared buffer and the buffer is resized, they are gone (`memcpy_freed`).
-/
import AndroidSystem.Strings

open CInt CountedHeap SharedBuffer List

namespace Strings

variable {k : Kind} {others : List (Option ℕ)} {h h' : Memory} {a a' m n : ℕ}
  {cells : List (Option ℕ)} {l xs : List ℕ} {src : Source (Option ℕ)}

/-- The cells of a string: its units and a zero. -/
def terminated (l : List ℕ) : List (Option ℕ) := l.map some ++ [some 0]

@[simp] theorem length_terminated (l : List ℕ) : (terminated l).length = l.length + 1 := by
  simp [terminated]

/-- The buffer at `a` holds `cells`, and they fill it. -/
def Cells (k : Kind) (h : Memory) (a : ℕ) (cells : List (Option ℕ)) : Prop :=
  ∃ b, h.get a = some b ∧ b.cells = cells ∧ b.size = cells.length * k.unitSize ∧
    headerSize + b.size < 2 ^ 32

/-- The buffer of a string; the other pointers are `others`. -/
structure Buffer (k : Kind) (others : List (Option ℕ)) (h : Memory) (a : ℕ)
    (cells : List (Option ℕ)) : Prop where
  cells : Cells k h a cells
  counted : Counted h (some a :: others)
  failing : h.failing = []

/-- The buffer of a string that does not share it. -/
structure Filled (k : Kind) (others : List (Option ℕ)) (h : Memory) (a : ℕ)
    (cells : List (Option ℕ)) : Prop extends Buffer k others h a cells where
  refs : ∀ b, h.get a = some b → b.refs = 1

variable {b : Block (Option ℕ)}

theorem Buffer.filled (hb : Buffer k others h a cells) (hget : h.get a = some b)
    (h1 : b.refs = 1) : Filled k others h a cells :=
  ⟨hb, fun _ hb' => Option.mem_unique hget hb' ▸ h1⟩

theorem unitSize_pos (k : Kind) : 0 < k.unitSize := by cases k <;> decide

theorem Cells.agree {ptrs : List (Option ℕ)} (hc : Cells k h a cells) (hag : Agree h h' ptrs)
    (hmem : some a ∈ ptrs) : Cells k h' a cells := by
  obtain ⟨b, hb, hcells, hsize, hlt⟩ := hc
  obtain ⟨b', hb', hs', hc'⟩ := hag a hmem b hb
  exact ⟨b', hb', hc'.trans hcells, hs'.trans hsize, hs' ▸ hlt⟩

theorem Cells.fits (hc : Cells k h a cells) (hb : h.get a = some b) :
    Fits (layout k) b := by
  obtain ⟨b₀, hb₀, hcells, hsize, hlt⟩ := hc
  obtain rfl := Option.mem_unique hb₀ hb
  refine ⟨?_, hlt⟩
  rw [hcells, hsize]
  exact (Nat.mul_div_cancel _ (unitSize_pos k)).symm

theorem Cells.size_eq (hc : Cells k h a (terminated l)) : size k h a = .ok l.length := by
  obtain ⟨b, hb, -, hsize, -⟩ := hc
  rw [size, Heap.deref_eq hb, ok_bind, hsize, Nat.mul_div_cancel _ (unitSize_pos k),
    length_terminated, Nat.add_sub_cancel]

/-- A function comes to a string with the units `l`, and no other owner notices. -/
abbrev Becomes (k : Kind) (others : List (Option ℕ)) (h : Memory)
    (result : Except Stop (Memory × ℕ × ℤ)) (l : List ℕ) : Prop :=
  ∃ h' a', result = .ok (h', a', 0) ∧ Buffer k others h' a' (terminated l) ∧ Agree h h' others

theorem Filled.of_sole (hs : Sole others h a b) (hf : h.failing = []) (hcells : b.cells = cells)
    (hsize : b.size = cells.length * k.unitSize) (hlt : headerSize + b.size < 2 ^ 32) :
    Filled k others h a cells :=
  Buffer.filled ⟨⟨b, hs.get, hcells, hsize, hlt⟩, hs.counted, hf⟩ hs.get hs.refs

/-! ### Writing -/

variable {i : ℕ} {ys : List (Option ℕ)}

section

variable (hb : Filled k others h a cells)
include hb

/-- A store leaves the sizes of blocks as they are. -/
theorem Filled.store (i : ℕ) (ys : List (Option ℕ))
    (hle : i + ys.length ≤ cells.length) :
    ∃ h', h.store a i ys = .ok h' ∧ Filled k others h' a (overwrite cells i ys) ∧
      Agree h h' others := by
  obtain ⟨b, hget, hcells, hsize, hlt⟩ := hb.cells
  have hsole : Sole others h a b := ⟨hget, hb.refs b hget, hb.counted⟩
  have hle' : i + ys.length ≤ b.cells.length := by rwa [hcells]
  obtain ⟨hs', hag⟩ := hsole.write (show ({ b with cells := overwrite b.cells i ys } :
    Block (Option ℕ)).refs = 1 from hsole.refs)
  refine ⟨_, Heap.store_eq hget hle', .of_sole hs' hb.failing ?_ ?_ hlt, hag⟩
  · rw [hcells]
  · rw [length_overwrite hle]
    exact hsize

theorem Filled.memmove (hread : n ≠ 0 → src.read h n = .ok ys)
    (hlen : ys.length = n) (hle : i + n ≤ cells.length) :
    ∃ h', memmove h a i src n = .ok h' ∧ Filled k others h' a (overwrite cells i ys) ∧
      Agree h h' others := by
  cases n with
  | zero =>
    obtain rfl := eq_nil_of_length_eq_zero hlen
    exact ⟨h, rfl, by rwa [overwrite_nil], Agree.refl h others⟩
  | succ n =>
    obtain ⟨h', hstore, hb', hag⟩ := hb.store i ys (hlen ▸ hle)
    refine ⟨h', ?_, hb', hag⟩
    simp only [CountedHeap.memmove, hread (Nat.succ_ne_zero n), ok_bind, hstore]

theorem Filled.memcpy (hr : n = 0 ∨ Readable others h n ys src)
    (hlen : ys.length = n) (hle : i + n ≤ cells.length) :
    ∃ h', memcpy h a i src n = .ok h' ∧ Filled k others h' a (overwrite cells i ys) ∧
      Agree h h' others := by
  cases n with
  | zero =>
    obtain rfl := eq_nil_of_length_eq_zero hlen
    exact ⟨h, memcpy_zero h a i src, by rwa [overwrite_nil], Agree.refl h others⟩
  | succ n =>
    replace hr := hr.resolve_left (Nat.succ_ne_zero n)
    obtain ⟨h', hstore, hb', hag⟩ := hb.store i ys (hlen ▸ hle)
    refine ⟨h', ?_, hb', hag⟩
    have hread := hr.read
    cases src with
    | outside items => simp only [CountedHeap.memcpy, hread, ok_bind, hstore]
    | inside a' i' =>
      -- what others can read is not in this buffer
      have hne : a' ≠ a := by
        rintro rfl
        obtain ⟨b, hget, -⟩ := hb.cells
        exact hb.counted.notMem hget (hb.refs b hget) hr.1
      simp only [CountedHeap.memcpy, hread, ok_bind, hstore]
      rw [if_neg fun hov => hne hov.1]

end

theorem memcpy_freed {q : ℕ} (hn : n ≠ 0) (hfree : h.get a' = none) :
    memcpy h a i (.inside a' q) n = .error .undefined := by
  obtain ⟨n, rfl⟩ := Nat.exists_eq_succ_of_ne_zero hn
  simp only [memcpy, Source.read, Heap.load, Heap.deref, hfree]
  split <;> rfl

theorem memmove_get_none (hmove : memmove h a i src n = .ok h') (hfree : h.get a' = none) :
    h'.get a' = none := by
  cases n with
  | zero =>
    cases hmove
    exact hfree
  | succ n =>
    obtain ⟨ys, -, hstore⟩ := bind_eq_ok hmove
    obtain ⟨b, hderef, hstore⟩ := bind_eq_ok hstore
    have hne : a ≠ a' := by
      rintro rfl
      rw [Heap.deref, hfree] at hderef
      cases hderef
    split at hstore
    · cases hstore
      rwa [Heap.get_put_of_ne hne]
    · cases hstore

theorem memmove_freed {q : ℕ} (hn : n ≠ 0) (hfree : h.get a' = none) :
    memmove h a i (.inside a' q) n = .error .undefined := by
  obtain ⟨n, rfl⟩ := Nat.exists_eq_succ_of_ne_zero hn
  simp only [memmove, Source.read, Heap.load, Heap.deref, hfree]
  rfl

/-! ### Resizing -/

/-- Cells after a change of size: what fits, and fresh ones. -/
def fitted (cells : List (Option ℕ)) (n : ℕ) : List (Option ℕ) :=
  cells.take n ++ List.replicate (n - cells.length) none

@[simp] theorem length_fitted (cells : List (Option ℕ)) (n : ℕ) : (fitted cells n).length = n := by
  simp [fitted]
  omega

theorem cells_resized (hcells : b.cells = cells) (hsize : b.size = cells.length * k.unitSize) :
    (resized (layout k) b (n * k.unitSize)).cells = fitted cells n := by
  have hmin : min (n * k.unitSize) b.size / k.unitSize = min n cells.length := by
    rw [hsize, Nat.mul_min_mul_right, Nat.mul_div_cancel _ (unitSize_pos k)]
  have htake : cells.take (min n cells.length) = cells.take n :=
    take_eq_take_iff.mpr (by omega)
  have hfresh : n - min n cells.length = n - cells.length := by omega
  simp only [resized, layout, hmin, hcells, Nat.mul_div_cancel _ (unitSize_pos k), fitted, htake,
    hfresh]

/-- **`editResize`** of the buffer of a string. -/
theorem Buffer.resize (hb : Buffer k others h a cells) (hlt : headerSize + m < 2 ^ 32)
    (hm : m = n * k.unitSize) :
    ∃ h' a', editResize (layout k) h a (u32 m) = .ok (h', some a') ∧
      Filled k others h' a' (fitted cells n) ∧ Agree h h' others ∧
      ∀ b, h.get a = some b → b.refs = 1 →
        if n = cells.length then h' = h ∧ a' = a else h'.get a = none := by
  subst hm
  obtain ⟨b, hget, hcells, hsize, hlt'⟩ := hb.cells
  obtain ⟨h', a', hedit, hsole, hag, hf, hown⟩ :=
    editResize_spec hb.counted hget (hb.cells.fits hget) hb.failing hlt
  rw [u32_of_lt (by omega)]
  refine ⟨h', a', hedit, .of_sole hsole hf (cells_resized hcells hsize) ?_ hlt, hag,
    fun b' hb' h1 => ?_⟩
  · rw [length_fitted]
    rfl
  · obtain rfl := Option.mem_unique hget hb'
    have hiff : b.size = n * k.unitSize ↔ n = cells.length := by
      rw [hsize, Nat.mul_left_inj (unitSize_pos k).ne', eq_comm]
    have := hown h1
    simpa only [hiff] using this

/-! ### Lists of cells -/

variable {r : List (Option ℕ)}

theorem overwrite_right (p r ys : List (Option ℕ)) (i : ℕ) :
    overwrite (p ++ r) (p.length + i) ys = p ++ overwrite r i ys := by
  simp only [overwrite, take_length_add_append, Nat.add_assoc, drop_length_add_append,
    append_assoc]

theorem overwrite_all (hlen : r.length = ys.length) :
    overwrite r 0 ys = ys := by
  simp [overwrite, drop_of_length_le hlen.le]

/-- Cells that are written behind `p`, and then a zero. -/
theorem overwrite_zero {p : List (Option ℕ)} (hi : i = p.length)
    (hlen : r.length = ys.length + 1) :
    overwrite (overwrite (p ++ r) i ys) (i + ys.length) [some 0] = p ++ (ys ++ [some 0]) := by
  subst hi
  have hdrop : (r.drop ys.length).length = 1 := by simp [hlen]
  have h₁ := overwrite_right p r ys 0
  rw [Nat.add_zero] at h₁
  rw [h₁, overwrite_right]
  congr 1
  have hw : overwrite r 0 ys = ys ++ r.drop ys.length := by simp [overwrite]
  have h₂ := overwrite_right ys (r.drop ys.length) [some 0] 0
  rw [Nat.add_zero] at h₂
  rw [hw, h₂, overwrite_all hdrop]

theorem fitted_of_le (hle : cells.length ≤ n) :
    fitted cells n = cells ++ replicate (n - cells.length) none := by
  rw [fitted, take_of_length_le hle]

/-- A longer buffer for a string: behind its units there is room for `m` more and a zero. -/
theorem fitted_terminated (l : List ℕ) (m : ℕ) :
    fitted (terminated l) (l.length + m + 1) =
      l.map some ++ (some 0 :: replicate m none) := by
  have hfresh : l.length + m + 1 - (l.length + 1) = m := by omega
  rw [fitted_of_le (by simp), length_terminated, terminated, append_assoc, hfresh]
  rfl

theorem terminated_split (l : List ℕ) (n : ℕ) :
    terminated l = (l.take n).map some ++ terminated (l.drop n) := by
  rw [terminated, terminated, ← append_assoc, ← map_append, take_append_drop]

theorem drop_terminated (hn : n ≤ l.length) : (terminated l).drop n = terminated (l.drop n) := by
  rw [terminated_split l n, drop_left' (by simpa using hn)]

theorem terminated_append (l xs : List ℕ) :
    terminated (l ++ xs) = l.map some ++ (xs.map some ++ [some 0]) := by
  simp [terminated]

/-! ### Whole buffers -/

/-- Behind the units that were written comes the zero. -/
theorem Filled.store_zero (hlen : r.length = xs.length + 1)
    (hb : Filled k others h a (overwrite (l.map some ++ r) l.length (xs.map some))) :
    ∃ h', h.store a (l.length + xs.length) [some 0] = .ok h' ∧
      Filled k others h' a (terminated (l ++ xs)) ∧ Agree h h' others := by
  obtain ⟨h', hstore, hb', hag⟩ := hb.store (l.length + xs.length) [some 0]
    (by rw [length_overwrite] <;> simp [hlen])
  have hw := @overwrite_zero l.length (xs.map some) r (l.map some) (by simp) (by simpa using hlen)
  rw [length_map] at hw
  rw [hw, ← terminated_append] at hb'
  exact ⟨h', hstore, hb', hag⟩

/-- A buffer is filled with units. -/
theorem Filled.fill (hb : Filled k others h a cells) (hlen : cells.length = xs.length + 1)
    (hread : xs.length ≠ 0 → src.read h xs.length = .ok (xs.map some)) :
    ∃ h₁ h₂, CountedHeap.memmove h a 0 src xs.length = .ok h₁ ∧
      h₁.store a xs.length [some 0] = .ok h₂ ∧ Filled k others h₂ a (terminated xs) ∧
      Agree h h₂ others := by
  obtain ⟨h₁, hmove, hb₁, hag₁⟩ := hb.memmove (i := 0) hread (by simp) (by omega)
  obtain ⟨h₂, hstore, hb₂, hag₂⟩ := Filled.store_zero (l := []) hlen hb₁
  rw [length_nil, Nat.zero_add] at hstore
  exact ⟨h₁, h₂, hmove, hstore, hb₂, hag₁.trans hag₂⟩

/-- A buffer grows, and units are copied behind those of the string. -/
theorem Buffer.extend (hb : Buffer k others h a (terminated l))
    (hr : Readable others h xs.length (xs.map some) src)
    (hlt : headerSize + m < 2 ^ 32) (hm : m = (l.length + xs.length + 1) * k.unitSize) :
    ∃ h₁ a' h₂ h₃, editResize (layout k) h a (u32 m) = .ok (h₁, some a') ∧
      memcpy h₁ a' l.length src xs.length = .ok h₂ ∧
      h₂.store a' (l.length + xs.length) [some 0] = .ok h₃ ∧
      Buffer k others h₃ a' (terminated (l ++ xs)) ∧ Agree h h₃ others := by
  obtain ⟨h₁, a', hedit, hb₁, hag₁, -⟩ := hb.resize hlt hm
  rw [fitted_terminated] at hb₁
  obtain ⟨h₂, hcopy, hb₂, hag₂⟩ := hb₁.memcpy (i := l.length) (Or.inr (hr.agree hag₁)) (by simp)
    (by simp)
  obtain ⟨h₃, hstore, hb₃, hag₃⟩ := hb₂.store_zero (by simp)
  exact ⟨h₁, a', h₂, h₃, hedit, hcopy, hstore, hb₃.toBuffer, (hag₁.trans hag₂).trans hag₃⟩

/-- The own buffer of a string is gone when it is resized. -/
theorem Filled.resize (hb : Filled k others h a cells) (hne : n ≠ cells.length)
    (hlt : headerSize + m < 2 ^ 32) (hm : m = n * k.unitSize) :
    ∃ h' a', editResize (layout k) h a (u32 m) = .ok (h', some a') ∧
      Filled k others h' a' (fitted cells n) ∧ h'.get a = none := by
  obtain ⟨b, hget, -⟩ := hb.cells
  obtain ⟨h', a', hedit, hb', -, hown⟩ := hb.toBuffer.resize hlt hm
  have hfree := hown b hget (hb.refs b hget)
  rw [if_neg hne] at hfree
  exact ⟨h', a', hedit, hb', hfree⟩

/-- Nothing is left of an empty string, and nothing is added by one; these come first. -/
theorem Buffer.becomes {first rest : Except Stop (Memory × ℕ × ℤ)} {ys : List ℕ}
    (hb : Buffer k others h a (terminated l)) (hfirst : l = [] → Becomes k others h first ys)
    (hnone : xs = [] → ys = l)
    (hrest : l.length ≠ 0 → xs.length ≠ 0 → Becomes k others h rest ys) :
    Becomes k others h (if l.length = 0 then first else if xs.length = 0 then .ok (h, a, 0)
      else rest) ys := by
  split_ifs with hl hx
  · exact hfirst (eq_nil_of_length_eq_zero hl)
  · rw [hnone (eq_nil_of_length_eq_zero hx)]
    exact ⟨h, a, rfl, hb, Agree.refl h others⟩
  · exact hrest hl hx

/-- A string gives up its buffer for one that has other owners already. -/
theorem setToString_spec {other : ℕ} {cells' : List (Option ℕ)} (hb : Buffer k others h a cells)
    (hmem : some other ∈ some a :: others) (hother : Cells k h other cells') :
    ∃ h', setToString h a other = .ok (h', other, 0) ∧ Buffer k others h' other cells' ∧
      Agree h h' others := by
  obtain ⟨h₁, hacq, hc₁, hag₁, hf₁⟩ := acquire_eq hb.counted hmem
  have hc₁' := hc₁.perm (List.Perm.swap _ _ _)
  obtain ⟨b₁, hb₁⟩ := hc₁'.alive mem_cons_self
  obtain ⟨h₂, hrel, hc₂, hag₂, hf₂, -⟩ := release_eq hc₁' hb₁
  refine ⟨h₂, ?_, ⟨?_, hc₂, hf₂.trans (hf₁.trans hb.failing)⟩, hag₁.tail.trans hag₂.tail⟩
  · simp only [setToString, hacq, ok_bind, hrel]
  · exact (hother.agree hag₁ hmem).agree hag₂ mem_cons_self

/-- A string gives up its buffer for the one of empty strings. -/
theorem Buffer.empty {empty : ℕ} (hb : Buffer k others h a cells) (hmem : some empty ∈ others)
    (hempty : Cells k h empty (terminated [])) :
    ∃ h₁ r h₂, release h a false = .ok (h₁, r) ∧ getEmptyString h₁ empty = .ok (h₂, empty) ∧
      Buffer k others h₂ empty (terminated []) ∧ Agree h h₂ others := by
  obtain ⟨b, hget, -⟩ := hb.cells
  obtain ⟨h₁, hrel, hc₁, hag₁, hf₁, -⟩ := release_eq hb.counted hget
  obtain ⟨h₂, hacq, hc₂, hag₂, hf₂⟩ := acquire_eq hc₁ hmem
  have hag := hag₁.trans hag₂
  refine ⟨h₁, _, h₂, hrel, ?_, ⟨hempty.agree hag hmem, hc₂, hf₂.trans (hf₁.trans hb.failing)⟩, hag⟩
  simp only [getEmptyString, hacq, ok_bind]

end Strings

open Strings

/-! ### Functions of String8 -/

namespace String8

variable {others : List (Option ℕ)} {h h' : Memory} {a empty n : ℕ} {l xs : List ℕ}
  {src : Source (Option ℕ)}

theorem allocFromUTF8_spec {ptrs : List (Option ℕ)} (hc : Counted h ptrs) (hf : h.failing = [])
    (hmem : some empty ∈ ptrs) (hempty : Cells .string8 h empty (terminated []))
    (hr : Readable ptrs h xs.length (xs.map some) src)
    (hlt : headerSize + (xs.length + 1) < 2 ^ 32) :
    ∃ h' a', allocFromUTF8 h empty src xs.length = .ok (h', some a') ∧
      Buffer .string8 ptrs h' a' (terminated xs) ∧ Agree h h' ptrs := by
  by_cases hpos : 0 < xs.length
  · have hu : u32 (xs.length + 1) = xs.length + 1 := u32_of_lt (by omega)
    have hag₁ := Agree.new h (blank (layout .string8) (xs.length + 1)) ptrs
    have hb₁ : Filled .string8 ptrs (h.new (blank (layout .string8) (xs.length + 1))) h.fresh
        (replicate (xs.length + 1) none) := by
      refine .of_sole (Sole.new hc rfl) hf ?_ ?_ hlt
      · simp [blank, layout, Kind.unitSize]
      · simp [blank, Kind.unitSize]
    obtain ⟨h₂, hcopy, hb₂, hag₂⟩ :=
      hb₁.memcpy (i := 0) (Or.inr (hr.agree hag₁)) (by simp) (by simp)
    obtain ⟨h₃, hstore, hb₃, hag₃⟩ := Filled.store_zero (l := []) (by simp) hb₂
    rw [length_nil, Nat.zero_add] at hstore
    refine ⟨h₃, h.fresh, ?_, hb₃.toBuffer, (hag₁.trans hag₂).trans hag₃⟩
    simp only [allocFromUTF8, if_pos hpos, hu, alloc_eq hf hlt, ok_bind, hcopy, hstore]
  · obtain rfl : xs = [] := eq_nil_of_length_eq_zero (by omega)
    obtain ⟨h₁, hacq, hc₁, hag₁, hf₁⟩ := acquire_eq hc hmem
    refine ⟨h₁, empty, ?_, ⟨hempty.agree hag₁ hmem, hc₁, hf₁.trans hf⟩, hag₁⟩
    simp only [allocFromUTF8, if_neg hpos, getEmptyString, hacq, ok_bind]

theorem setTo_spec {cells : List (Option ℕ)} (hb : Buffer .string8 others h a cells)
    (hmem : some empty ∈ others) (hempty : Cells .string8 h empty (terminated []))
    (hr : Readable (some a :: others) h xs.length (xs.map some) src)
    (hlt : headerSize + (xs.length + 1) < 2 ^ 32) :
    Becomes .string8 others h (setTo h empty a src xs.length) xs := by
  obtain ⟨h₁, a₁, halloc, hb₁, hag₁⟩ := allocFromUTF8_spec hb.counted hb.failing
    (mem_cons_of_mem _ hmem) hempty hr hlt
  have hc₁ := hb₁.counted.perm (List.Perm.swap _ _ _)
  obtain ⟨b₁, hget₁⟩ := hc₁.alive mem_cons_self
  obtain ⟨h₂, hrel, hc₂, hag₂, hf₂, -⟩ := release_eq hc₁ hget₁
  refine ⟨h₂, a₁, ?_, ⟨hb₁.cells.agree hag₂ mem_cons_self, hc₂, hf₂.trans hb₁.failing⟩,
    hag₁.tail.trans hag₂.tail⟩
  simp only [setTo, halloc, ok_bind, hrel]

variable (hb : Buffer .string8 others h a (terminated l))
  (hlt : headerSize + (l.length + xs.length + 1) < 2 ^ 32)

include hb hlt in
theorem realAppend_spec (hr : Readable others h xs.length (xs.map some) src) :
    Becomes .string8 others h (realAppend h a src xs.length) (l ++ xs) := by
  obtain ⟨h₁, a₁, h₂, h₃, hedit, hcopy, hstore, hb₃, hag⟩ := hb.extend hr hlt (Nat.mul_one _).symm
  refine ⟨h₃, a₁, ?_, hb₃, hag⟩
  simp only [realAppend, hb.cells.size_eq, ok_bind, hedit, hcopy, hstore]

/-- Characters of the string itself are gone before they are copied. -/
theorem realAppend_own {q : ℕ} (hb : Filled .string8 others h a (terminated l)) (hn : n ≠ 0)
    (hlt : headerSize + (l.length + n + 1) < 2 ^ 32) :
    realAppend h a (.inside a q) n = .error .undefined := by
  obtain ⟨h₁, a₁, hedit, -, hfree⟩ := hb.resize (by simpa using hn) hlt (Nat.mul_one _).symm
  simp only [realAppend, hb.cells.size_eq, ok_bind, hedit, memcpy_freed hn hfree]
  rfl

include hb hlt in
theorem append_spec {other : ℕ} (hmem : some other ∈ some a :: others)
    (hother : Cells .string8 h other (terminated xs))
    (hr : l = [] ∨ xs = [] ∨ some other ∈ others) :
    Becomes .string8 others h (append h a other) (l ++ xs) := by
  simp only [append, hb.cells.size_eq, hother.size_eq, ok_bind]
  refine hb.becomes (fun hl => ?_) (fun hx => by rw [hx, append_nil]) fun hl hx => ?_
  · obtain ⟨h', hset, hb', hag⟩ := setToString_spec hb hmem hother
    exact ⟨h', other, hset, hl ▸ hb', hag⟩
  replace hr := (hr.resolve_left (mt (congrArg length) hl)).resolve_left (mt (congrArg length) hx)
  have hread : Readable others h xs.length (xs.map some) (.inside other 0) := by
    obtain ⟨b, hget, hcells, -⟩ := hother
    exact ⟨hr, b, hget, by simp [hcells], by simp [hcells, terminated]⟩
  exact realAppend_spec hb hlt hread

theorem append_own (hb : Filled .string8 others h a (terminated l)) (hl : l.length ≠ 0)
    (hlt : headerSize + (l.length + l.length + 1) < 2 ^ 32) :
    append h a a = .error .undefined := by
  simp only [append, hb.cells.size_eq, ok_bind, if_neg hl, realAppend_own hb hl hlt]

include hb hlt in
theorem appendChars_spec (hmem : some empty ∈ others)
    (hempty : Cells .string8 h empty (terminated []))
    (hall : Readable (some a :: others) h xs.length (xs.map some) src)
    (hr : xs.length = 0 ∨ Readable others h xs.length (xs.map some) src) :
    Becomes .string8 others h (appendChars h empty a src xs.length) (l ++ xs) := by
  simp only [appendChars, hb.cells.size_eq, ok_bind]
  refine hb.becomes (fun hl => ?_) (fun hx => by rw [hx, append_nil]) fun _ hx => ?_
  · rw [hl, nil_append]
    exact setTo_spec hb hmem hempty hall (by omega)
  · exact realAppend_spec hb hlt (hr.resolve_left hx)

theorem appendChars_own {q : ℕ} (hb : Filled .string8 others h a (terminated l))
    (hl : l.length ≠ 0) (hn : n ≠ 0) (hlt : headerSize + (l.length + n + 1) < 2 ^ 32) :
    appendChars h empty a (.inside a q) n = .error .undefined := by
  simp only [appendChars, hb.cells.size_eq, ok_bind, if_neg hl, if_neg hn,
    realAppend_own hb hn hlt]

end String8

/-! ### Functions of String16 -/

namespace String16

variable {others : List (Option ℕ)} {h h' : Memory} {a empty n : ℕ} {l xs : List ℕ}
  {cells : List (Option ℕ)} {src : Source (Option ℕ)}

theorem setTo_spec (hb : Buffer .string16 others h a cells)
    (hr : xs.length = 0 ∨ Readable others h xs.length (xs.map some) src)
    (hlt : headerSize + (xs.length + 1) * 2 < 2 ^ 32) :
    Becomes .string16 others h (setTo h a src xs.length) xs := by
  obtain ⟨h₁, a₁, hedit, hb₁, hag₁, -⟩ := hb.resize hlt rfl
  have hread : xs.length ≠ 0 → src.read h₁ xs.length = .ok (xs.map some) := fun hne =>
    ((hr.resolve_left hne).agree hag₁).read
  obtain ⟨h₂, h₃, hmove, hstore, hb₃, hag₂⟩ := hb₁.fill (by simp) hread
  refine ⟨h₃, a₁, ?_, hb₃.toBuffer, hag₁.trans hag₂⟩
  simp only [setTo, hedit, ok_bind, hmove, hstore]

/-- All characters of the string itself: nothing is resized, and they are copied onto themselves. -/
theorem setTo_self (hb : Filled .string16 others h a (terminated l)) :
    Becomes .string16 others h (setTo h a (.inside a 0) l.length) l := by
  obtain ⟨b, hget, hcells, hsize, hlt⟩ := hb.cells
  rw [hsize, length_terminated, Kind.unitSize] at hlt
  obtain ⟨h₁, a₁, hedit, hb₁, -, hown⟩ := hb.toBuffer.resize hlt rfl
  have hsame := hown b hget (hb.refs b hget)
  rw [if_pos (by simp)] at hsame
  obtain ⟨rfl, rfl⟩ := hsame
  have hfit : fitted (terminated l) (l.length + 1) = terminated l := by simp [fitted]
  rw [hfit] at hb₁
  have hread : l.length ≠ 0 → (Source.inside a₁ 0).read h₁ l.length = .ok (l.map some) := by
    intro _
    rw [Source.read, Heap.load_eq hget (by simp [hcells]), hcells]
    simp [terminated]
  obtain ⟨h₂, h₃, hmove, hstore, hb₃, hag⟩ := hb₁.fill (by simp) hread
  refine ⟨h₃, a₁, ?_, hb₃.toBuffer, hag⟩
  simp only [setTo, hedit, ok_bind, hmove, hstore]

variable {q : ℕ}

/-- Some characters of the string itself are gone before they are copied. -/
theorem setTo_own (hb : Filled .string16 others h a (terminated l)) (hn : n ≠ 0)
    (hne : n ≠ l.length) (hlt : headerSize + (n + 1) * 2 < 2 ^ 32) :
    setTo h a (.inside a q) n = .error .undefined := by
  obtain ⟨h₁, a₁, hedit, -, hfree⟩ := hb.resize (by simpa using hne) hlt rfl
  simp only [setTo, hedit, ok_bind, memmove_freed hn hfree]
  rfl

variable (hb : Buffer .string16 others h a (terminated l))
  (hr : xs.length = 0 ∨ Readable others h xs.length (xs.map some) src)
  (hlt : headerSize + (l.length + xs.length + 1) * 2 < 2 ^ 32)

include hb hlt in
theorem append_spec {other : ℕ} (hmem : some other ∈ some a :: others)
    (hother : Cells .string16 h other (terminated xs))
    (hr : l = [] ∨ xs = [] ∨ some other ∈ others) :
    Becomes .string16 others h (append h a other) (l ++ xs) := by
  simp only [append, hb.cells.size_eq, hother.size_eq, ok_bind]
  refine hb.becomes (fun hl => ?_) (fun hx => by rw [hx, append_nil]) fun hl hx => ?_
  · obtain ⟨h', hset, hb', hag⟩ := setToString_spec hb hmem hother
    exact ⟨h', other, hset, hl ▸ hb', hag⟩
  replace hr := (hr.resolve_left (mt (congrArg length) hl)).resolve_left (mt (congrArg length) hx)
  obtain ⟨h₁, a₁, hedit, hb₁, hag₁, -⟩ := hb.resize hlt rfl
  rw [fitted_terminated] at hb₁
  have hread : Readable others h (xs.length + 1) (terminated xs) (.inside other 0) := by
    obtain ⟨b, hget, hcells, -⟩ := hother
    exact ⟨hr, b, hget, by simp [hcells], by simp [hcells]⟩
  obtain ⟨h₂, hcopy, hb₂, hag₂⟩ := hb₁.memcpy (i := l.length) (Or.inr (hread.agree hag₁))
    (by simp) (by simp)
  refine ⟨h₂, a₁, ?_, ?_, hag₁.trans hag₂⟩
  · simp only [hedit, ok_bind, hcopy]
  · have hw := overwrite_right (l.map some) (some 0 :: replicate xs.length none)
      (terminated xs) 0
    rw [length_map, Nat.add_zero, overwrite_all (by simp)] at hw
    rw [hw, terminated, ← terminated_append] at hb₂
    exact hb₂.toBuffer

theorem append_own (hb : Filled .string16 others h a (terminated l)) (hl : l.length ≠ 0)
    (hlt : headerSize + (l.length + l.length + 1) * 2 < 2 ^ 32) :
    append h a a = .error .undefined := by
  obtain ⟨h₁, a₁, hedit, -, hfree⟩ := hb.resize (by simpa using hl) hlt rfl
  simp only [append, hb.cells.size_eq, ok_bind, if_neg hl, hedit,
    memcpy_freed (Nat.succ_ne_zero l.length) hfree]
  rfl

include hb hr hlt in
theorem appendChars_spec :
    Becomes .string16 others h (appendChars h a src xs.length) (l ++ xs) := by
  simp only [appendChars, hb.cells.size_eq, ok_bind]
  refine hb.becomes (fun hl => ?_) (fun hx => by simp [hx]) fun hl hx => ?_
  · have := setTo_spec hb hr (by omega)
    simpa [hl] using this
  obtain ⟨h₁, a₁, h₂, h₃, hedit, hcopy, hstore, hb₃, hag⟩ := hb.extend (hr.resolve_left hx) hlt rfl
  refine ⟨h₃, a₁, ?_, hb₃, hag⟩
  simp only [hedit, ok_bind, hcopy, hstore]

theorem appendChars_own (hb : Filled .string16 others h a (terminated l)) (hl : l.length ≠ 0)
    (hn : n ≠ 0) (hlt : headerSize + (l.length + n + 1) * 2 < 2 ^ 32) :
    appendChars h a (.inside a q) n = .error .undefined := by
  obtain ⟨h₁, a₁, hedit, hb₁, hfree⟩ := hb.resize (by simpa using hn) hlt rfl
  simp only [appendChars, hb.cells.size_eq, ok_bind, if_neg hl, if_neg hn, hedit,
    memcpy_freed hn hfree]
  rfl

variable {r : List (Option ℕ)}

theorem read_behind {p : ℕ} (hc : Cells .string16 h a (l.map some ++ r)) (hp : p ≤ l.length) :
    (Source.inside a p).read h (l.length - p) = .ok ((l.drop p).map some) := by
  obtain ⟨b, hget, hcells, -⟩ := hc
  rw [Source.read, Heap.load_eq hget (by rw [hcells]; simp; omega), hcells,
    drop_append_of_le_length (by simpa using hp), take_append_of_le_length (by simp),
    map_drop]
  simp

/-- Between two parts of a string: the second part has moved up by `m`. -/
theorem overwrite_middle {p ys zs : List (Option ℕ)}
    (hlen : r.length = ys.length + zs.length + 1) :
    overwrite (overwrite (overwrite (p ++ r) (p.length + ys.length) zs) p.length ys)
      (p.length + zs.length + ys.length) [some 0] = p ++ (ys ++ (zs ++ [some 0])) := by
  have htake : (r.take ys.length).length = ys.length := by simp; omega
  have hend : (r.drop (ys.length + zs.length)).length = 1 := by simp; omega
  generalize hs : r.drop (ys.length + zs.length) = s at hend
  -- the three writes, each relative to what is before it
  have h₁ : overwrite r ys.length zs = r.take ys.length ++ (zs ++ s) := by
    rw [overwrite, hs]
  have h₂ : overwrite (r.take ys.length ++ (zs ++ s)) 0 ys = ys ++ (zs ++ s) := by
    simp only [overwrite, take_zero, nil_append, Nat.zero_add]
    rw [drop_left' htake]
  have h₃ : overwrite (ys ++ (zs ++ s)) (zs.length + ys.length) [some 0] =
      ys ++ (zs ++ [some 0]) := by
    rw [Nat.add_comm zs.length, overwrite_right]
    have := overwrite_right zs s [some 0] 0
    rw [Nat.add_zero] at this
    rw [this, overwrite_all hend]
  have h₄ := overwrite_right p (r.take ys.length ++ (zs ++ s)) ys 0
  rw [Nat.add_zero] at h₄
  rw [overwrite_right, h₁, h₄, h₂, Nat.add_assoc, overwrite_right, h₃]

include hb hr hlt in
theorem insert_spec {pos : ℕ} :
    Becomes .string16 others h (insert h a pos src xs.length) (l.take pos ++ xs ++ l.drop pos) := by
  simp only [insert, hb.cells.size_eq, ok_bind]
  refine hb.becomes (fun hl => ?_) (fun hx => by simp [hx]) fun hl hx => ?_
  · have := setTo_spec hb hr (by omega)
    simpa [hl] using this
  obtain ⟨p, hp, hple, htake, hdrop⟩ : ∃ p, (if l.length < pos then l.length else pos) = p ∧
      p ≤ l.length ∧ l.take pos = l.take p ∧ l.drop pos = l.drop p := by
    by_cases hpos : l.length < pos
    · exact ⟨l.length, if_pos hpos, le_rfl, by simp [take_of_length_le hpos.le],
        by simp [drop_of_length_le hpos.le]⟩
    · exact ⟨pos, if_neg hpos, not_lt.mp hpos, rfl, rfl⟩
  obtain ⟨h₁, a₁, hedit, hb₁, hag₁, -⟩ := hb.resize hlt rfl
  rw [fitted_terminated] at hb₁
  have hplen : ((l.take p).map some).length = p := by simpa using hple
  have hdlen : ((l.drop p).map some).length = l.length - p := by simp
  have hw := @overwrite_middle
    ((l.drop p).map some ++ (some 0 :: replicate xs.length none)) ((l.take p).map some)
    (xs.map some) ((l.drop p).map some) (by simp; omega)
  rw [← append_assoc, ← map_append, take_append_drop, hplen, hdlen, length_map,
    Nat.add_sub_cancel' hple] at hw
  -- the units behind the place move up
  obtain ⟨h₂, cells, hcells, hmove, hb₂, hag₂⟩ : ∃ h₂ cells,
      overwrite (l.map some ++ (some 0 :: replicate xs.length none)) (p + xs.length)
        ((l.drop p).map some) = cells ∧
      (∀ k : Memory → Except Stop (Memory × ℕ × ℤ), (if p < l.length then
        memmove h₁ a₁ (p + xs.length) (.inside a₁ p) (l.length - p) >>= k else k h₁) = k h₂) ∧
      Filled .string16 others h₂ a₁ cells ∧ Agree h₁ h₂ others := by
    by_cases hlt' : p < l.length
    · obtain ⟨h₂, hmove, h⟩ := hb₁.memmove (i := p + xs.length)
        (fun _ => read_behind hb₁.cells hple) hdlen (by simp; omega)
      exact ⟨h₂, _, rfl, fun k => by rw [if_pos hlt', hmove, ok_bind], h⟩
    · obtain rfl : p = l.length := by omega
      refine ⟨h₁, _, rfl, fun k => if_neg hlt', ?_, Agree.refl h₁ others⟩
      simpa using hb₁
  rw [hcells] at hw
  have hlen₂ : cells.length = l.length + xs.length + 1 := by
    rw [← hcells, length_overwrite (by simp; omega)]
    simp
    omega
  obtain ⟨h₃, hcopy, hb₃, hag₃⟩ := hb₂.memcpy (i := p)
    (Or.inr (((hr.resolve_left hx).agree hag₁).agree hag₂)) (by simp) (by omega)
  obtain ⟨h₄, hstore, hb₄, hag₄⟩ := hb₃.store (l.length + xs.length) [some 0]
    (by rw [length_overwrite (by rw [hlen₂, length_map]; omega), hlen₂]; simp)
  refine ⟨h₄, a₁, ?_, ?_, ((hag₁.trans hag₂).trans hag₃).trans hag₄⟩
  · simp only [hedit, ok_bind, hp, hmove, hcopy, hstore]
  · rw [hw] at hb₄
    rw [htake, hdrop]
    simpa [terminated] using hb₄.toBuffer

theorem insert_own {pos : ℕ} (hb : Filled .string16 others h a (terminated l))
    (hl : l.length ≠ 0) (hn : n ≠ 0) (hlt : headerSize + (l.length + n + 1) * 2 < 2 ^ 32) :
    insert h a pos (.inside a q) n = .error .undefined := by
  obtain ⟨h₁, a₁, hedit, hb₁, hfree⟩ := hb.resize (by simpa using hn) hlt rfl
  rw [fitted_terminated] at hb₁
  simp only [insert, hb.cells.size_eq, ok_bind, if_neg hl, if_neg hn, hedit]
  generalize hp : (if l.length < pos then l.length else pos) = p
  by_cases hlt' : p < l.length
  · obtain ⟨h₂, hmove, hb₂, -⟩ := hb₁.memmove (i := p + n)
      (fun _ => read_behind hb₁.cells hlt'.le) (by simp) (by simp; omega)
    simp only [if_pos hlt', hmove, ok_bind, memcpy_freed hn (memmove_get_none hmove hfree)]
    rfl
  · simp only [if_neg hlt', memcpy_freed hn hfree]
    rfl

/-- The loops replace every unit for which `p` holds. -/
theorem replaceLoop_spec {p : ℕ → Bool} {f : ℕ → ℕ} {done rest : List ℕ} {edit : Bool}
    (hb : Buffer .string16 others h a (terminated (done ++ rest)))
    (he : edit = true → Filled .string16 others h a (terminated (done ++ rest))) :
    Becomes .string16 others h (replaceLoop p f h a edit done.length rest.length)
      (done ++ rest.map fun v => if p v then f v else v) := by
  induction rest generalizing h a edit done with
  | nil => exact ⟨h, a, rfl, hb, Agree.refl h others⟩
  | cons v rest ih =>
    have hcells : terminated (done ++ v :: rest) =
        done.map some ++ (some v :: terminated rest) := by simp [terminated]
    have hload : h.load a done.length 1 = .ok [some v] := by
      obtain ⟨b, hget, hbc, -⟩ := hb.cells
      rw [Heap.load_eq hget (by rw [hbc]; simp), hbc, hcells, drop_left' (by simp)]
      rfl
    have hnext : ∀ w, done ++ w :: rest = (done ++ [w]) ++ rest := fun w => by simp
    by_cases hp : p v = true
    · -- before the first unit that is replaced, the buffer is made the string's own
      obtain ⟨h₁, a₁, hedit, hb₁, hag₁⟩ : ∃ h₁ a₁,
          (∀ k : Memory × Option ℕ → Except Stop (Memory × ℕ × ℤ), (if edit then k (h, some a)
            else SharedBuffer.edit (layout .string16) h a >>= k) = k (h₁, some a₁)) ∧
          Filled .string16 others h₁ a₁ (terminated (done ++ v :: rest)) ∧
          Agree h h₁ others := by
        by_cases hed : edit = true
        · exact ⟨h, a, fun k => if_pos hed, he hed, Agree.refl h others⟩
        · obtain ⟨b, hget, hbc, hsize, hlt⟩ := hb.cells
          obtain ⟨h₁, a₁, b₁, hedit, hs₁, hsize₁, hcells₁, hag₁, hf₁⟩ :=
            edit_spec hb.counted hget (hb.cells.fits hget) hb.failing
          exact ⟨h₁, a₁, fun k => by rw [if_neg hed, hedit, ok_bind], .of_sole hs₁ hf₁
            (hcells₁.trans hbc) (hsize₁.trans hsize) (hsize₁ ▸ hlt), hag₁⟩
      obtain ⟨h₂, hstore, hb₂, hag₂⟩ := hb₁.store done.length [some (f v)] (by simp)
      have hw : overwrite (terminated (done ++ v :: rest)) done.length [some (f v)] =
          terminated (done ++ [f v] ++ rest) := by
        have := overwrite_right (done.map some) (some v :: terminated rest) [some (f v)] 0
        rw [length_map, Nat.add_zero] at this
        rw [hcells, this]
        simp [overwrite, terminated]
      rw [hw] at hb₂
      obtain ⟨h₃, a₃, hloop, hb₃, hag₃⟩ := ih hb₂.toBuffer fun (_ : true = true) => hb₂
      rw [length_append, length_singleton] at hloop
      refine ⟨h₃, a₃, ?_, by simpa [hp] using hb₃, (hag₁.trans hag₂).trans hag₃⟩
      simp only [replaceLoop, length_cons, hload, ok_bind, if_pos hp]
      exact (hedit _).trans (by simp only [hstore, ok_bind, hloop])
    · rw [hnext v] at hb he
      obtain ⟨h₃, a₃, hloop, hb₃, hag₃⟩ := ih hb he
      rw [length_append, length_singleton] at hloop
      refine ⟨h₃, a₃, ?_, by simpa [hp] using hb₃, hag₃⟩
      simp only [replaceLoop, length_cons, hload, ok_bind, if_neg hp, hloop]

include hb in
theorem makeLower_spec :
    Becomes .string16 others h (makeLower h a)
      (l.map fun v => if isUpper v then tolower v else v) := by
  obtain ⟨h', a', hloop, hb', hag⟩ := @replaceLoop_spec _ _ _ isUpper tolower [] l false hb
    (fun h => by cases h)
  refine ⟨h', a', ?_, hb', hag⟩
  simp only [makeLower, hb.cells.size_eq, ok_bind]
  exact hloop

include hb in
theorem replaceAll_spec (x y : ℕ) :
    Becomes .string16 others h (replaceAll h a x y) (l.map fun v => if v == x then y else v) := by
  obtain ⟨h', a', hloop, hb', hag⟩ := @replaceLoop_spec _ _ _ (· == x) (fun _ => y) [] l false hb
    (fun h => by cases h)
  refine ⟨h', a', ?_, hb', hag⟩
  simp only [replaceAll, hb.cells.size_eq, ok_bind]
  exact hloop

theorem cutOff_spec (hb : Buffer .string16 others h a (xs.map some ++ r)) (hr : r ≠ []) :
    Becomes .string16 others h (cutOff h a xs.length) xs := by
  have hpos : 0 < r.length := length_pos_of_ne_nil hr
  have hlt : headerSize + (xs.length + 1) * 2 < 2 ^ 32 := by
    obtain ⟨b, -, -, hsize, hlt⟩ := hb.cells
    rw [hsize, length_append, length_map, Kind.unitSize] at hlt
    omega
  obtain ⟨h₁, a₁, hedit, hb₁, hag₁, -⟩ := hb.resize hlt rfl
  obtain ⟨h₂, hstore, hb₂, hag₂⟩ := hb₁.store xs.length [some 0] (by simp)
  refine ⟨h₂, a₁, ?_, ?_, hag₁.trans hag₂⟩
  · simp only [cutOff, hedit, ok_bind, hstore]
  · obtain ⟨z, r, rfl⟩ := exists_cons_of_ne_nil hr
    have hfit : fitted (xs.map some ++ z :: r) (xs.length + 1) = xs.map some ++ [z] := by
      simp [fitted, take_append]
    have hone : overwrite [z] 0 [some 0] = [some 0] := overwrite_all rfl
    have hw := overwrite_right (xs.map some) [z] [some 0] 0
    rw [length_map, Nat.add_zero, hone] at hw
    rw [hfit, hw] at hb₂
    exact hb₂.toBuffer

variable {begin len : ℕ}

/-- How many units `remove` and `setTo` keep. -/
theorem clamped (hsum : begin + len < 2 ^ 32) (hb : begin < l.length) :
    (if l.length < u32 (begin + len) then l.length - begin else len) =
      ((l.drop begin).take len).length := by
  rw [u32_of_lt hsum, length_take, length_drop]
  split <;> omega

theorem range_eq (hxs : (l.drop begin).take len = xs) : xs = (l.drop begin).take xs.length := by
  rw [← hxs, length_take, length_drop, take_eq_take_iff]
  simp

include hb in
theorem remove_spec (hmem : some empty ∈ others)
    (hempty : Cells .string16 h empty (terminated [])) (hsum : begin + len < 2 ^ 32) :
    Becomes .string16 others h (remove h empty a len begin) ((l.drop begin).take len) := by
  have hsize := hb.cells.size_eq
  by_cases hbegin : l.length ≤ begin
  · obtain ⟨h₁, r, h₂, hrel, hget, hb₂, hag⟩ := hb.empty hmem hempty
    rw [drop_of_length_le hbegin, take_nil]
    refine ⟨h₂, empty, ?_, hb₂, hag⟩
    simp only [remove, hsize, ok_bind, if_pos hbegin, hrel, hget]
  rw [not_le] at hbegin
  have hlen := clamped hsum hbegin
  generalize hxs : (l.drop begin).take len = xs at hlen ⊢
  have hxlen : xs.length ≤ l.length - begin := by
    rw [← hxs, length_take, length_drop]
    omega
  have hxtake := range_eq hxs
  simp only [remove, hsize, ok_bind, if_neg (not_le.mpr hbegin), hlen]
  by_cases hall : begin = 0 ∧ xs.length = l.length
  · rw [if_pos hall]
    refine ⟨h, a, rfl, ?_, Agree.refl h others⟩
    rw [hxtake, hall.1, hall.2, drop_zero, take_length]
    exact hb
  rw [if_neg hall]
  by_cases hpos : 0 < begin
  · rw [if_pos hpos]
    obtain ⟨b, hget, hcells, hbsize, hlt⟩ := hb.cells
    rw [hbsize, length_terminated, Kind.unitSize] at hlt
    obtain ⟨h₁, a₁, hedit, hb₁, hag₁, -⟩ := hb.resize hlt rfl
    have hfit : fitted (terminated l) (l.length + 1) = terminated l := by simp [fitted]
    rw [hfit] at hb₁
    -- the units from `begin` on and the zero move to the front
    have hread : (Source.inside a₁ begin).read h₁ (l.length - begin + 1) =
        .ok (terminated (l.drop begin)) := by
      obtain ⟨b₁, hget₁, hcells₁, -⟩ := hb₁.cells
      rw [Source.read, Heap.load_eq hget₁ (by rw [hcells₁, length_terminated]; omega), hcells₁,
        drop_terminated hbegin.le, take_of_length_le (by simp)]
    obtain ⟨h₂, hmove, hb₂, hag₂⟩ := hb₁.memmove (i := 0) (fun _ => hread) (by simp)
      (by rw [length_terminated]; omega)
    have hw : overwrite (terminated l) 0 (terminated (l.drop begin)) =
        xs.map some ++ (terminated ((l.drop begin).drop xs.length) ++
          (terminated l).drop (terminated (l.drop begin)).length) := by
      rw [← append_assoc, hxtake, length_take_of_le (by simpa using hxlen),
        ← terminated_split]
      simp [overwrite]
    rw [hw] at hb₂
    obtain ⟨h₃, a₃, hcut, hb₃, hag₃⟩ := cutOff_spec hb₂.toBuffer (by simp [terminated])
    refine ⟨h₃, a₃, ?_, hb₃, (hag₁.trans hag₂).trans hag₃⟩
    simp only [hedit, ok_bind, hmove, hcut]
  · obtain rfl : begin = 0 := by omega
    rw [if_neg hpos]
    rw [drop_zero] at hxtake
    rw [terminated_split l xs.length, ← hxtake] at hb
    exact cutOff_spec hb (by simp [terminated])

theorem setToRange_spec {other : ℕ} {same : Bool} (hb : Buffer .string16 others h a cells)
    (hmem : some empty ∈ others) (hempty : Cells .string16 h empty (terminated []))
    (hother : some other ∈ some a :: others) (hcells : Cells .string16 h other (terminated l))
    (hsum : begin + len < 2 ^ 32)
    (hsame : same = false ∧ some other ∈ others ∨ l.length ≤ begin ∨ begin = 0 ∧ l.length ≤ len) :
    Becomes .string16 others h (setToRange h empty a other same len begin)
      ((l.drop begin).take len) := by
  have hsize := hcells.size_eq
  by_cases hbegin : l.length ≤ begin
  · obtain ⟨h₁, r, h₂, hrel, hget, hb₂, hag⟩ := hb.empty hmem hempty
    rw [drop_of_length_le hbegin, take_nil]
    refine ⟨h₂, empty, ?_, hb₂, hag⟩
    simp only [setToRange, hsize, ok_bind, if_pos hbegin, hrel, hget]
  have hlen := clamped hsum (not_le.mp hbegin)
  generalize hxs : (l.drop begin).take len = xs at hlen ⊢
  simp only [setToRange, hsize, ok_bind, if_neg hbegin, hlen]
  by_cases hall : begin = 0 ∧ xs.length = l.length
  · rw [if_pos hall]
    obtain ⟨rfl, hlen'⟩ := hall
    have hxl : xs = l := by
      rw [drop_zero] at hxs
      rw [← hxs, length_take] at hlen'
      rw [← hxs, take_of_length_le (by omega)]
    subst hxl
    obtain ⟨h', hset, hb', hag⟩ := setToString_spec hb hother hcells
    exact ⟨h', other, hset, hb', hag⟩
  rw [if_neg hall]
  obtain ⟨rfl, hother'⟩ : same = false ∧ some other ∈ others := by
    rcases hsame with hs | hs | ⟨hs₁, hs₂⟩
    · exact hs
    · exact absurd hs hbegin
    · refine absurd ⟨hs₁, ?_⟩ hall
      rw [← hxs, hs₁, drop_zero, length_take]
      omega
  simp only [Bool.false_eq_true, if_false]
  obtain ⟨b, hget, hbc, hbsize, hlt⟩ := hcells
  have hxlen : begin + xs.length ≤ l.length := by
    rw [← hxs, length_take, length_drop]
    omega
  have hxtake := range_eq hxs
  rw [hbsize, length_terminated, Kind.unitSize] at hlt
  refine setTo_spec hb (Or.inr ⟨hother', b, hget, ?_, ?_⟩) (by omega)
  · rw [hbc, length_terminated]
    omega
  · rw [hbc, drop_terminated (by omega), terminated_split _ xs.length, ← hxtake,
      take_left' (by simp)]

include hb in
/-- A part of the string itself: the program gives up. -/
theorem setToRange_own (hsum : begin + len < 2 ^ 32) (hbegin : begin < l.length)
    (hpart : ¬ (begin = 0 ∧ l.length ≤ len)) :
    setToRange h empty a a true len begin = .error .fatal := by
  have hall : ¬ (begin = 0 ∧ ((l.drop begin).take len).length = l.length) := by
    rintro ⟨rfl, hlen⟩
    rw [drop_zero, length_take] at hlen
    exact hpart ⟨rfl, by omega⟩
  simp only [setToRange, hb.cells.size_eq, ok_bind, if_neg (not_le.mpr hbegin),
    clamped hsum hbegin, if_neg hall, if_true]

end String16
