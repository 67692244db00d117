/-
Shared buffers.

A `SharedBuffer` is a header with a reference count and a size, and the data behind it.
Strings, vectors and hash tables keep their contents in one and share it until one of
them changes: `edit`, `editResize` and `attemptEdit` give a buffer that may be written.

The data is a list of cells of `cellSize` bytes each; a cell of fresh memory is `raw`.
After `realloc` a pointer to the old buffer is of no use, whether the buffer moved or
not: the model always moves it.  `malloc` and `realloc` fail when the heap says so.
-/
import AndroidSystem.CInt
import AndroidSystem.CountedHeap

open CInt CountedHeap List

namespace SharedBuffer

open Heap

/-- The cells of a buffer: their size in bytes, and what fresh memory holds. -/
structure Layout (β : Type) where
  cellSize : ℕ
  raw : β

variable {β : Type} (L : Layout β)

/-- `sizeof(SharedBuffer)`. -/
def headerSize : ℕ := 16

/-- A buffer of `size` bytes of fresh memory. -/
def blank (size : ℕ) : Block β := ⟨1, size, List.replicate (size / L.cellSize) L.raw⟩

/-- A buffer of `newSize` bytes that starts with what fits of another one. -/
def resized (b : Block β) (newSize : ℕ) : Block β :=
  let kept := min newSize b.size / L.cellSize
  ⟨1, newSize, b.cells.take kept ++ List.replicate (newSize / L.cellSize - kept) L.raw⟩

/-- `malloc` or `realloc`, of a size that includes the header.  If the size has wrapped around, the
header is written outside of the memory. -/
def request (h : Heap β) (b : Block β) : Except Stop (Heap β × Option ℕ) :=
  if 2 ^ 32 ≤ headerSize + b.size then .error .undefined
  else
    let fails := h.failing.headD false
    let h := { h with failing := h.failing.tail }
    if fails then .ok (h, none) else .ok (h.new b, some h.fresh)

/-- `SharedBuffer::alloc` -/
def alloc (h : Heap β) (size : ℕ) : Except Stop (Heap β × Option ℕ) := request h (blank L size)

/-- `SharedBuffer::dealloc` -/
def dealloc (h : Heap β) (released : ℕ) : Except Stop (Heap β × ℤ) := do
  let b ← h.deref released
  if b.refs ≠ 0 then .ok (h, -1) else .ok (h.put released none, 0)

/-- `acquire` -/
def acquire (h : Heap β) (a : ℕ) : Except Stop (Heap β) := do
  let b ← h.deref a
  .ok (h.put a (some { b with refs := b.refs + 1 }))

/-- Gives back the previous count as well. -/
def release (h : Heap β) (a : ℕ) (keepStorage : Bool) : Except Stop (Heap β × ℕ) := do
  let b ← h.deref a
  if b.refs = 1 then
    if keepStorage then .ok (h.put a (some { b with refs := 0 }), 1) else .ok (h.put a none, 1)
  else .ok (h.put a (some { b with refs := b.refs - 1 }), b.refs)

/-- `edit`: the buffer itself for its only owner, otherwise a copy. -/
def edit (h : Heap β) (a : ℕ) : Except Stop (Heap β × Option ℕ) := do
  let b ← h.deref a
  if b.refs = 1 then .ok (h, some a)
  else
    match ← request h (resized L b b.size) with
    | (h, none) => .ok (h, none)
    | (h, some sb) => do
      let (h, _) ← release h a false
      .ok (h, some sb)

/-- `editResize` -/
def editResize (h : Heap β) (a : ℕ) (newSize : ℕ) : Except Stop (Heap β × Option ℕ) := do
  let b ← h.deref a
  if b.refs = 1 ∧ b.size = newSize then .ok (h, some a)
  else
    let (h, buf) ← if b.refs = 1 then request h (resized L b newSize) else .ok (h, none)
    match buf with
    | some buf => .ok (h.put a none, some buf)
    | none =>
      -- the buffer is shared, or `realloc` has failed
      match ← request h (resized L b newSize) with
      | (h, none) => .ok (h, none)
      | (h, some sb) => do
        let (h, _) ← release h a false
        .ok (h, some sb)

/-- `attemptEdit` -/
def attemptEdit (h : Heap β) (a : ℕ) : Except Stop (Option ℕ) := do
  let b ← h.deref a
  .ok (if b.refs = 1 then some a else none)

/-! ### What they do -/

variable {L}

/-- The cells of a buffer fill its size, and its size does not wrap around. -/
structure Fits (L : Layout β) (b : Block β) : Prop where
  length : b.cells.length = b.size / L.cellSize
  size : headerSize + b.size < 2 ^ 32

variable {h : Heap β} {a size newSize : ℕ} {b : Block β} {others : List (Option ℕ)}

theorem fits_blank (hs : headerSize + size < 2 ^ 32) : Fits L (blank L size) :=
  ⟨length_replicate, hs⟩

theorem fits_resized (hb : Fits L b) (hs : headerSize + newSize < 2 ^ 32) :
    Fits L (resized L b newSize) := by
  refine ⟨?_, hs⟩
  have h₁ : min newSize b.size / L.cellSize ≤ newSize / L.cellSize :=
    Nat.div_le_div_right (Nat.min_le_left _ _)
  have h₂ : min newSize b.size / L.cellSize ≤ b.cells.length :=
    hb.length ▸ Nat.div_le_div_right (Nat.min_le_right _ _)
  simp only [resized, length_append, length_take, length_replicate]
  omega

theorem cells_resized_self (hb : Fits L b) : (resized L b b.size).cells = b.cells := by
  simp only [resized, min_self, Nat.sub_self, replicate_zero, append_nil]
  exact take_of_length_le hb.length.le

theorem resized_self (hb : Fits L b) (h1 : b.refs = 1) : resized L b b.size = b := by
  calc resized L b b.size = ⟨1, b.size, (resized L b b.size).cells⟩ := rfl
    _ = ⟨b.refs, b.size, b.cells⟩ := by rw [cells_resized_self hb, h1]

theorem request_eq (hf : h.failing = []) (hs : headerSize + b.size < 2 ^ 32) :
    request h b = .ok (h.new b, some h.fresh) := by
  obtain ⟨blocks, failing⟩ := h
  subst hf
  rw [request, if_neg (not_le.mpr hs)]
  rfl

theorem alloc_eq (hf : h.failing = []) (hs : headerSize + size < 2 ^ 32) :
    alloc L h size = .ok (h.new (blank L size), some h.fresh) :=
  request_eq hf hs

/-- A new owner comes. -/
theorem acquire_eq {ptrs : List (Option ℕ)} (hc : Counted h ptrs) (hmem : some a ∈ ptrs) :
    ∃ h', acquire h a = .ok h' ∧ Counted h' (some a :: ptrs) ∧ Agree h h' ptrs ∧
      h'.failing = h.failing := by
  obtain ⟨b, hb⟩ := hc.alive hmem
  refine ⟨_, ?_, hc.acquire hb, Agree.recount hb _ ptrs, rfl⟩
  simp only [acquire, deref_eq hb, ok_bind]

/-- An owner goes: the others do not notice, and the block is gone if there are none. -/
theorem release_eq (hc : Counted h (some a :: others)) (hb : h.get a = some b) :
    ∃ h', release h a false = .ok (h', b.refs) ∧ Counted h' others ∧ Agree h h' others ∧
      h'.failing = h.failing ∧ (∀ a', a' ≠ a → h'.get a' = h.get a') ∧
      (b.refs = 1 → h'.get a = none) := by
  simp only [release, deref_eq hb, ok_bind]
  by_cases h1 : b.refs = 1
  · exact ⟨_, by rw [if_pos h1, h1]; rfl, hc.free hb h1, Agree.put (hc.notMem hb h1) _, rfl,
      fun _ hne => get_put_of_ne (Ne.symm hne) _, fun _ => get_put_self hb _⟩
  · exact ⟨_, by rw [if_neg h1], hc.release hb h1, Agree.recount hb _ _, rfl,
      fun _ hne => get_put_of_ne (Ne.symm hne) _, fun h1' => absurd h1' h1⟩

/-- A new buffer takes the place of one that loses an owner. -/
theorem copy_release (b' : Block β) (hc : Counted h (some a :: others)) (hb : h.get a = some b)
    (h1 : b'.refs = 1) :
    ∃ h', release (h.new b') a false = .ok (h', b.refs) ∧ Sole others h' h.fresh b' ∧
      Agree h h' others ∧ h'.failing = h.failing := by
  have hnew : Sole (some a :: others) (h.new b') h.fresh b' := Sole.new hc h1
  have hb' : (h.new b').get a = some b := by
    rw [get_new_of_ne (ne_fresh hb), hb]
  obtain ⟨h', hrel, hc', hag, hf, hrest, -⟩ :=
    release_eq (hnew.counted.perm (List.Perm.swap _ _ _)) hb'
  refine ⟨h', hrel, ⟨?_, h1, hc'⟩, (Agree.new h b' others).trans hag.tail, hf⟩
  exact (hrest _ (Ne.symm (ne_fresh hb))).trans hnew.get

variable (hc : Counted h (some a :: others)) (hb : h.get a = some b) (hfits : Fits L b)
  (hf : h.failing = [])

include hc hb hfits hf in
/-- **`editResize`** gives a buffer of the new size with no other owner, that starts with what fits
of the old one.  The old buffer is gone if it was not shared. -/
theorem editResize_spec (hs : headerSize + newSize < 2 ^ 32) :
    ∃ h' a', editResize L h a newSize = .ok (h', some a') ∧
      Sole others h' a' (resized L b newSize) ∧ Agree h h' others ∧ h'.failing = [] ∧
      (b.refs = 1 → if b.size = newSize then h' = h ∧ a' = a else h'.get a = none) := by
  simp only [editResize, deref_eq hb, ok_bind]
  by_cases h1 : b.refs = 1
  · by_cases heq : b.size = newSize
    · -- nothing to do
      refine ⟨h, a, by rw [if_pos ⟨h1, heq⟩], ?_, Agree.refl h _, hf, fun _ => ?_⟩
      · rw [← heq, resized_self hfits h1]
        exact ⟨hb, h1, hc⟩
      · rw [if_pos heq]
        exact ⟨rfl, rfl⟩
    · -- `realloc`
      have hne : a ≠ h.fresh := ne_fresh hb
      have hb' : (h.new (resized L b newSize)).get a = some b := by
        rw [get_new_of_ne hne, hb]
      refine ⟨(h.new (resized L b newSize)).put a none, h.fresh, ?_, ?_, ?_, hf, fun _ => ?_⟩
      · rw [if_neg fun h' => heq h'.2, if_pos h1, request_eq hf hs]
        rfl
      · refine ⟨?_, rfl, ?_⟩
        · rw [get_put_of_ne hne, get_new_self]
        · exact ((hc.new rfl).perm (List.Perm.swap _ _ _)).free hb' h1
      · exact (Agree.new h _ others).trans (Agree.put (hc.notMem hb h1) _)
      · rw [if_neg heq]
        exact get_put_self hb' _
  · obtain ⟨h', hrel, hsole, hag, hf'⟩ := copy_release (resized L b newSize) hc hb rfl
    refine ⟨h', h.fresh, ?_, hsole, hag, hf'.trans hf, fun h1' => absurd h1' h1⟩
    rw [if_neg fun h' => h1 h'.1, if_neg h1]
    simp only [ok_bind, request_eq (b := resized L b newSize) hf hs, hrel]

include hc hb hfits hf in
/-- **`edit`** gives a buffer with the same cells and no other owner. -/
theorem edit_spec :
    ∃ h' a' b', edit L h a = .ok (h', some a') ∧ Sole others h' a' b' ∧ b'.size = b.size ∧
      b'.cells = b.cells ∧ Agree h h' others ∧ h'.failing = [] := by
  simp only [edit, deref_eq hb, ok_bind]
  by_cases h1 : b.refs = 1
  · exact ⟨h, a, b, by rw [if_pos h1], ⟨hb, h1, hc⟩, rfl, rfl, Agree.refl h _, hf⟩
  · obtain ⟨h', hrel, hsole, hag, hf'⟩ := copy_release (resized L b b.size) hc hb rfl
    refine ⟨h', h.fresh, _, ?_, hsole, rfl, cells_resized_self hfits, hag, hf'.trans hf⟩
    rw [if_neg h1, request_eq (b := resized L b b.size) hf hfits.size]
    simp only [ok_bind, hrel]

/-! ### Owned buffers -/

/-- The buffer at `a` has no other owner, and its cells are `cells`. -/
structure Owned (L : Layout β) (others : List (Option ℕ)) (h : Heap β) (a : ℕ) (cells : List β) :
    Prop where
  sole : ∃ b, Sole others h a b ∧ Fits L b ∧ b.cells = cells
  failing : h.failing = []

namespace Owned

variable {cells cells' xs : List β} {i n : ℕ} {src : Source β}

/-- The cells of an owned buffer may be written. -/
theorem put {l : List β} (ho : Owned L others h a cells) (hb : h.get a = some b)
    (hlen : l.length = cells.length) :
    Owned L others (h.put a (some { b with cells := l })) a l ∧
      Agree h (h.put a (some { b with cells := l })) others := by
  obtain ⟨⟨b₀, hs, hfits, hcells⟩, hf⟩ := ho
  obtain rfl : b₀ = b := Option.mem_unique hs.get hb
  have h1 : ({ b₀ with cells := l } : Block β).refs = 1 := hs.refs
  obtain ⟨hs', hag⟩ := hs.write h1
  refine ⟨⟨⟨_, hs', ⟨?_, hfits.size⟩, rfl⟩, hf⟩, hag⟩
  rw [hlen, ← hcells]
  exact hfits.length

theorem store (ho : Owned L others h a cells) (hle : i + xs.length ≤ cells.length) :
    ∃ h', h.store a i xs = .ok h' ∧ Owned L others h' a (overwrite cells i xs) ∧
      Agree h h' others := by
  obtain ⟨b, hs, -, hcells⟩ := ho.sole
  have hle' : i + xs.length ≤ b.cells.length := by rwa [hcells]
  refine ⟨_, store_eq hs.get hle', ?_⟩
  rw [hcells]
  exact ho.put hs.get (length_overwrite hle)

/-- Fresh memory is owned. -/
theorem alloc {ptrs : List (Option ℕ)} (hpos : 0 < L.cellSize) (hc : Counted h ptrs)
    (hf : h.failing = []) (hn : headerSize + n * L.cellSize < 2 ^ 32) :
    ∃ h' a', alloc L h (n * L.cellSize) = .ok (h', some a') ∧
      Owned L ptrs h' a' (replicate n L.raw) ∧ Agree h h' ptrs := by
  refine ⟨_, _, alloc_eq hf hn, ⟨⟨_, Sole.new hc rfl, fits_blank hn, ?_⟩, hf⟩, Agree.new h _ ptrs⟩
  exact congrArg (replicate · L.raw) (Nat.mul_div_cancel n hpos)

/-- Cells are copied to an owned buffer. -/
theorem memcpy (ho : Owned L others h a cells) (hr : Readable others h n xs src)
    (hle : i + n ≤ cells.length) :
    ∃ h', memcpy h a i src n = .ok h' ∧ Owned L others h' a (overwrite cells i xs) ∧
      Agree h h' others := by
  have hlen := hr.length
  cases n with
  | zero =>
    obtain rfl : xs = [] := eq_nil_of_length_eq_zero hlen
    exact ⟨h, memcpy_zero h a i src, by rwa [overwrite_nil], Agree.refl h others⟩
  | succ n =>
    rw [← hlen] at hle
    obtain ⟨h', hstore, ho', hag⟩ := ho.store hle
    refine ⟨h', ?_, ho', hag⟩
    have hread := hr.read
    cases src with
    | outside items => simp only [CountedHeap.memcpy, hread, ok_bind, hstore]
    | inside a' i' =>
      obtain ⟨b, hs, -, -⟩ := ho.sole
      have hne : a' ≠ a := fun heq => hs.counted.notMem hs.get hs.refs (heq ▸ hr.1)
      simp only [CountedHeap.memcpy, hread, ok_bind, hstore]
      rw [if_neg fun hov => hne hov.1]

end Owned

end SharedBuffer
