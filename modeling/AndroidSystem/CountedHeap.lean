/-
Heaps of reference-counted blocks.

A `Heap` is a list of blocks; a block that was freed leaves a hole, so that an address
is never used again and a dangling pointer is recognised.  A `Block` has a reference
count, a recorded size and a list of cells.

The owners of blocks are a list of pointers (`Option ℕ`, `none` for a null pointer):

* `Counted h ptrs` — every count is the number of pointers in `ptrs` to its block, and
  the blocks that exist are those with a pointer to them;
* `Agree h h' ptrs` — from `h` to `h'`, no block with a pointer in `ptrs` has changed but
  for its count;
* `Sole others h a b` — block `b` at `a` is counted once, and all other pointers are
  `others`: it may be written without anybody noticing (`Sole.write`).

A program that edits one of many owners is verified against these: it starts from
`Counted h (p :: others)` and ends in `Counted h' (p' :: others)` and `Agree h h' others`.
-/
import Mathlib.Tactic

open List

namespace CountedHeap

/-- How a program ends early: it gives up, or it does something that has no meaning. -/
inductive Stop
  | fatal | undefined
  deriving DecidableEq, Repr

theorem ok_bind {α γ : Type} (x : α) (f : α → Except Stop γ) : (Except.ok x >>= f) = f x := (rfl)

/-- A block: its reference count, the size it was asked for, and its cells. -/
structure Block (β : Type) where
  refs : ℕ
  size : ℕ
  cells : List β
  deriving DecidableEq, Repr

/-- The blocks by their addresses, and whether the next allocations are going to fail. -/
structure Heap (β : Type) where
  blocks : List (Option (Block β))
  failing : List Bool
  deriving DecidableEq, Repr

variable {β : Type} {h h' h'' : Heap β} {a a' : ℕ} {b b' : Block β}

namespace Heap

/-- The block at an address. -/
def get (h : Heap β) (a : ℕ) : Option (Block β) := h.blocks[a]?.join

/-- The address of the next block. -/
def fresh (h : Heap β) : ℕ := h.blocks.length

/-- Replaces a block, or frees it. -/
def put (h : Heap β) (a : ℕ) (b : Option (Block β)) : Heap β :=
  { h with blocks := h.blocks.set a b }

/-- A new block, at the fresh address. -/
def new (h : Heap β) (b : Block β) : Heap β := { h with blocks := h.blocks ++ [some b] }

/-- The block that a pointer is to. -/
def deref (h : Heap β) (a : ℕ) : Except Stop (Block β) :=
  match h.get a with
  | some b => .ok b
  | none => .error .undefined

theorem lt_of_get (hb : h.get a = some b) : a < h.fresh := by
  by_contra hle
  rw [get, getElem?_eq_none (not_lt.mp hle)] at hb
  cases hb

theorem ne_fresh (hb : h.get a = some b) : a ≠ h.fresh := (lt_of_get hb).ne

theorem get_put_self (hb : h.get a = some b) (b' : Option (Block β)) : (h.put a b').get a = b' := by
  have hlt : a < h.blocks.length := lt_of_get hb
  rw [get, put, getElem?_set_self hlt]
  rfl

theorem get_put_of_ne (hne : a ≠ a') (b' : Option (Block β)) : (h.put a b').get a' = h.get a' := by
  rw [get, put, getElem?_set_ne hne]
  rfl

theorem put_put (h : Heap β) (a : ℕ) (b b' : Option (Block β)) :
    (h.put a b).put a b' = h.put a b' := by
  simp [put]

theorem get_new_self (h : Heap β) (b : Block β) : (h.new b).get h.fresh = some b := by
  rw [get, new, fresh, getElem?_append_right le_rfl]
  simp

theorem get_new_of_ne (hne : a ≠ h.fresh) (b : Block β) : (h.new b).get a = h.get a := by
  rw [get, get, new]
  rcases lt_or_gt_of_ne hne with hlt | hgt
  · rw [getElem?_append_left hlt]
  · have hle : (h.blocks ++ [some b]).length ≤ a := by
      rw [length_append]
      exact hgt
    rw [getElem?_eq_none hle, getElem?_eq_none (le_of_lt hgt)]

theorem deref_eq (hb : h.get a = some b) : h.deref a = .ok b := by rw [deref, hb]

end Heap

/-! ### Cells -/

/-- A list of cells with `xs` in place of those from `i` on. -/
def overwrite (l : List β) (i : ℕ) (xs : List β) : List β :=
  l.take i ++ (xs ++ l.drop (i + xs.length))

theorem length_overwrite {l xs : List β} {i : ℕ} (hle : i + xs.length ≤ l.length) :
    (overwrite l i xs).length = l.length := by
  simp only [overwrite, length_append, length_take, length_drop]
  omega

@[simp] theorem overwrite_nil (l : List β) (i : ℕ) : overwrite l i [] = l := by
  simp [overwrite]

theorem overwrite_singleton {l : List β} {i : ℕ} (hi : i < l.length) (x : β) :
    overwrite l i [x] = l.set i x := by
  rw [set_eq_take_append_cons_drop, if_pos hi]
  rfl

/-- Writing over a part of a list. -/
theorem overwrite_append (p q r xs : List β) (hlen : xs.length = q.length) :
    overwrite (p ++ (q ++ r)) p.length xs = p ++ (xs ++ r) := by
  have hdrop : (p ++ (q ++ r)).drop (p.length + xs.length) = r := by
    rw [hlen, ← append_assoc, ← length_append, drop_left]
  rw [overwrite, take_left, hdrop]

namespace Heap

/-- The `n` cells from cell `i` of a block on. -/
def load (h : Heap β) (a i n : ℕ) : Except Stop (List β) := do
  let b ← h.deref a
  if i + n ≤ b.cells.length then .ok ((b.cells.drop i).take n) else .error .undefined

/-- Writes `xs` to a block, from cell `i` on. -/
def store (h : Heap β) (a i : ℕ) (xs : List β) : Except Stop (Heap β) := do
  let b ← h.deref a
  if i + xs.length ≤ b.cells.length then
    .ok (h.put a (some { b with cells := overwrite b.cells i xs }))
  else .error .undefined

theorem load_eq {i n : ℕ} (hb : h.get a = some b) (hle : i + n ≤ b.cells.length) :
    h.load a i n = .ok ((b.cells.drop i).take n) := by
  rw [load, deref_eq hb, ok_bind, if_pos hle]

theorem store_eq {i : ℕ} {xs : List β} (hb : h.get a = some b)
    (hle : i + xs.length ≤ b.cells.length) :
    h.store a i xs = .ok (h.put a (some { b with cells := overwrite b.cells i xs })) := by
  rw [store, deref_eq hb, ok_bind, if_pos hle]

end Heap

/-! ### Counted blocks -/

/-- Every count is the number of pointers to the block, and a block exists if there is one. -/
structure Counted (h : Heap β) (ptrs : List (Option ℕ)) : Prop where
  alive : ∀ {a}, some a ∈ ptrs → ∃ b, h.get a = some b
  owned : ∀ {a b}, h.get a = some b → some a ∈ ptrs
  refs : ∀ {a b}, h.get a = some b → b.refs = ptrs.count (some a)

namespace Counted

variable {ptrs ptrs' others : List (Option ℕ)}

theorem empty (failing : List Bool) : Counted (⟨[], failing⟩ : Heap β) [] :=
  ⟨by simp, by simp [Heap.get], by simp [Heap.get]⟩

theorem perm (hc : Counted h ptrs) (hp : ptrs.Perm ptrs') : Counted h ptrs' :=
  ⟨fun ha => hc.alive (hp.mem_iff.mpr ha), fun hb => hp.mem_iff.mp (hc.owned hb), fun hb => by
    rw [hc.refs hb, hp.count_eq]⟩

theorem null_iff : Counted h (none :: ptrs) ↔ Counted h ptrs := by
  constructor <;> intro hc <;> constructor
  · exact fun ha => hc.alive (mem_cons_of_mem _ ha)
  · exact fun hb => (mem_cons.mp (hc.owned hb)).resolve_left (by simp)
  · intro a b hb
    rw [hc.refs hb, count_cons_of_ne (by simp)]
  · exact fun ha => hc.alive ((mem_cons.mp ha).resolve_left (by simp))
  · exact fun hb => mem_cons_of_mem _ (hc.owned hb)
  · intro a b hb
    rw [hc.refs hb, count_cons_of_ne (by simp)]

/-- A block that is counted once has no other owner. -/
theorem notMem (hc : Counted h (some a :: others)) (hb : h.get a = some b) (h1 : b.refs = 1) :
    some a ∉ others := by
  have hcount := hc.refs hb
  rw [h1, count_cons_self] at hcount
  exact count_eq_zero.mp (by omega)

/-- A block with more than one owner has one among the others. -/
theorem mem_of_shared (hc : Counted h (some a :: others)) (hb : h.get a = some b)
    (h1 : b.refs ≠ 1) : some a ∈ others := by
  have hrefs := hc.refs hb
  rw [count_cons_self] at hrefs
  exact count_pos_iff.mp (by omega)

theorem new (hc : Counted h ptrs) (h1 : b.refs = 1) :
    Counted (h.new b) (some h.fresh :: ptrs) := by
  have hfresh : some h.fresh ∉ ptrs := fun hm => by
    obtain ⟨b₀, hb₀⟩ := hc.alive hm
    exact Heap.ne_fresh hb₀ rfl
  refine ⟨fun {a} ha => ?_, fun {a b₀} hb₀ => ?_, fun {a b₀} hb₀ => ?_⟩ <;>
    by_cases hne : a = h.fresh
  · exact ⟨b, hne ▸ Heap.get_new_self h b⟩
  · rw [Heap.get_new_of_ne hne]
    exact hc.alive ((mem_cons.mp ha).resolve_left (by simpa using hne))
  · exact hne ▸ mem_cons_self
  · rw [Heap.get_new_of_ne hne] at hb₀
    exact mem_cons_of_mem _ (hc.owned hb₀)
  · subst hne
    rw [Heap.get_new_self, Option.some_inj] at hb₀
    rw [← hb₀, h1, count_cons_self, count_eq_zero.mpr hfresh]
  · rw [Heap.get_new_of_ne hne] at hb₀
    rw [hc.refs hb₀, count_cons_of_ne (by simpa using fun h' => hne h'.symm)]

/-- A block is replaced by one that is counted right. -/
theorem put (hc : Counted h ptrs) (hb : h.get a = some b) (hmem : some a ∈ ptrs')
    (hcount : b'.refs = ptrs'.count (some a))
    (hsame : ∀ a', a' ≠ a → ptrs'.count (some a') = ptrs.count (some a')) :
    Counted (h.put a (some b')) ptrs' := by
  have hiff : ∀ a', a' ≠ a → (some a' ∈ ptrs' ↔ some a' ∈ ptrs) := fun a' hne => by
    rw [← count_pos_iff, hsame a' hne, count_pos_iff]
  refine ⟨fun {a'} ha => ?_, fun {a' b₀} hb₀ => ?_, fun {a' b₀} hb₀ => ?_⟩ <;> by_cases hne : a' = a
  · subst hne
    exact ⟨b', Heap.get_put_self hb _⟩
  · rw [Heap.get_put_of_ne (Ne.symm hne)]
    exact hc.alive ((hiff a' hne).mp ha)
  · exact hne ▸ hmem
  · rw [Heap.get_put_of_ne (Ne.symm hne)] at hb₀
    exact (hiff a' hne).mpr (hc.owned hb₀)
  · subst hne
    rw [Heap.get_put_self hb, Option.some_inj] at hb₀
    rw [← hb₀, hcount]
  · rw [Heap.get_put_of_ne (Ne.symm hne)] at hb₀
    rw [hc.refs hb₀, hsame a' hne]

theorem acquire (hc : Counted h ptrs) (hb : h.get a = some b) :
    Counted (h.put a (some { b with refs := b.refs + 1 })) (some a :: ptrs) := by
  refine hc.put hb mem_cons_self ?_ fun a' hne => ?_
  · rw [count_cons_self, ← hc.refs hb]
  · exact count_cons_of_ne (by simpa using Ne.symm hne)

theorem release (hc : Counted h (some a :: others)) (hb : h.get a = some b) (h1 : b.refs ≠ 1) :
    Counted (h.put a (some { b with refs := b.refs - 1 })) others := by
  have hcount := hc.refs hb
  rw [count_cons_self] at hcount
  refine hc.put hb ?_ ?_ fun a' hne => ?_
  · exact count_pos_iff.mp (by omega)
  · change b.refs - 1 = _
    omega
  · exact (count_cons_of_ne (by simpa using Ne.symm hne)).symm

theorem free (hc : Counted h (some a :: others)) (hb : h.get a = some b) (h1 : b.refs = 1) :
    Counted (h.put a none) others := by
  have hnot := hc.notMem hb h1
  refine ⟨fun {a'} ha => ?_, fun {a' b₀} hb₀ => ?_, fun {a' b₀} hb₀ => ?_⟩ <;>
    have hne : a ≠ a' := fun heq => ?_
  · rw [Heap.get_put_of_ne hne]
    exact hc.alive (mem_cons_of_mem _ ha)
  · exact hnot (heq ▸ ha)
  · rw [Heap.get_put_of_ne hne] at hb₀
    exact (mem_cons.mp (hc.owned hb₀)).resolve_left (by simpa using Ne.symm hne)
  · subst heq
    rw [Heap.get_put_self hb] at hb₀
    cases hb₀
  · rw [Heap.get_put_of_ne hne] at hb₀
    rw [hc.refs hb₀, count_cons_of_ne (by simpa using hne)]
  · subst heq
    rw [Heap.get_put_self hb] at hb₀
    cases hb₀

end Counted

/-! ### What other owners see -/

/-- Blocks with a pointer in `ptrs` keep their size and their cells. -/
def Agree (h h' : Heap β) (ptrs : List (Option ℕ)) : Prop :=
  ∀ a, some a ∈ ptrs → ∀ b, h.get a = some b →
    ∃ b', h'.get a = some b' ∧ b'.size = b.size ∧ b'.cells = b.cells

namespace Agree

variable {ptrs ptrs' : List (Option ℕ)}

theorem refl (h : Heap β) (ptrs : List (Option ℕ)) : Agree h h ptrs :=
  fun _ _ b hb => ⟨b, hb, rfl, rfl⟩

theorem trans (h₁ : Agree h h' ptrs) (h₂ : Agree h' h'' ptrs) : Agree h h'' ptrs := by
  intro a ha b hb
  obtain ⟨b', hb', hs', hc'⟩ := h₁ a ha b hb
  obtain ⟨b'', hb'', hs'', hc''⟩ := h₂ a ha b' hb'
  exact ⟨b'', hb'', hs''.trans hs', hc''.trans hc'⟩

theorem mono (hag : Agree h h' ptrs) (hsub : ∀ p ∈ ptrs', p ∈ ptrs) : Agree h h' ptrs' :=
  fun a ha => hag a (hsub _ ha)

theorem tail {p : Option ℕ} (hag : Agree h h' (p :: ptrs)) : Agree h h' ptrs :=
  hag.mono fun _ hp => mem_cons_of_mem _ hp

theorem new (h : Heap β) (b : Block β) (ptrs : List (Option ℕ)) : Agree h (h.new b) ptrs :=
  fun _ _ b₀ hb₀ => ⟨b₀, (Heap.get_new_of_ne (Heap.ne_fresh hb₀) b).trans hb₀, rfl, rfl⟩

/-- Only the count of a block changes. -/
theorem recount (hb : h.get a = some b) (n : ℕ) (ptrs : List (Option ℕ)) :
    Agree h (h.put a (some { b with refs := n })) ptrs := by
  intro a' _ b₀ hb₀
  by_cases hne : a = a'
  · subst hne
    obtain rfl : b = b₀ := Option.mem_unique hb hb₀
    exact ⟨_, Heap.get_put_self hb _, rfl, rfl⟩
  · exact ⟨b₀, (Heap.get_put_of_ne hne _).trans hb₀, rfl, rfl⟩

/-- A block changes that nobody in `ptrs` has a pointer to. -/
theorem put (hnot : some a ∉ ptrs) (b' : Option (Block β)) : Agree h (h.put a b') ptrs := by
  intro a' ha' b₀ hb₀
  have hne : a ≠ a' := fun heq => hnot (heq ▸ ha')
  exact ⟨b₀, (Heap.get_put_of_ne hne _).trans hb₀, rfl, rfl⟩

end Agree

/-! ### Sole owners -/

/-- The block at `a` has one owner; all other pointers are `others`. -/
structure Sole (others : List (Option ℕ)) (h : Heap β) (a : ℕ) (b : Block β) : Prop where
  get : h.get a = some b
  refs : b.refs = 1
  counted : Counted h (some a :: others)

namespace Sole

variable {others : List (Option ℕ)}

theorem new (hc : Counted h others) (h1 : b.refs = 1) : Sole others (h.new b) h.fresh b :=
  ⟨Heap.get_new_self h b, h1, hc.new h1⟩

/-- A sole owner writes as it likes. -/
theorem write (hs : Sole others h a b) (h1 : b'.refs = 1) :
    Sole others (h.put a (some b')) a b' ∧ Agree h (h.put a (some b')) others := by
  refine ⟨⟨Heap.get_put_self hs.get _, h1, ?_⟩, Agree.put (hs.counted.notMem hs.get hs.refs) _⟩
  refine hs.counted.put hs.get mem_cons_self ?_ fun _ _ => rfl
  rw [h1, ← hs.refs]
  exact hs.counted.refs hs.get

end Sole

/-! ### Reading and copying -/

/-- Where cells are read from: outside of all blocks, or in one. -/
inductive Source (β : Type)
  | outside (items : List β)
  | inside (a i : ℕ)

/-- The first `n` cells. -/
def Source.read (h : Heap β) (n : ℕ) : Source β → Except Stop (List β)
  | outside items => if n ≤ items.length then .ok (items.take n) else .error .undefined
  | inside a i => h.load a i n

/-- `memcpy` to cell `i` of a block; it may not be used on ranges that overlap. -/
def memcpy (h : Heap β) (a i : ℕ) (src : Source β) (num : ℕ) : Except Stop (Heap β) :=
  match num, src with
  | 0, _ => .ok h
  | num, .outside items => do h.store a i (← (Source.outside items).read h num)
  | num, .inside a' i' =>
    if a' = a ∧ i' < i + num ∧ i < i' + num then .error .undefined
    else do h.store a i (← (Source.inside a' i').read h num)

/-- `memmove` to cell `i` of a block. -/
def memmove (h : Heap β) (a i : ℕ) (src : Source β) (num : ℕ) : Except Stop (Heap β) :=
  match num with
  | 0 => .ok h
  | num => do h.store a i (← src.read h num)

theorem memcpy_zero (h : Heap β) (a i : ℕ) (src : Source β) : memcpy h a i src 0 = .ok h := by
  rw [memcpy]

/-- Source `src` has the cells `xs`, `n` of them, and not in a block without other owners. -/
def Readable (ptrs : List (Option ℕ)) (h : Heap β) (n : ℕ) (xs : List β) : Source β → Prop
  | .outside items => n ≤ items.length ∧ xs = items.take n
  | .inside a i => some a ∈ ptrs ∧
      ∃ b, h.get a = some b ∧ i + n ≤ b.cells.length ∧ xs = (b.cells.drop i).take n

namespace Readable

variable {ptrs : List (Option ℕ)} {n : ℕ} {xs : List β} {src : Source β}

variable (hr : Readable ptrs h n xs src)
include hr

theorem agree (hag : Agree h h' ptrs) :
    Readable ptrs h' n xs src := by
  cases src with
  | outside items => exact hr
  | inside a i =>
    obtain ⟨hmem, b, hb, hle, hxs⟩ := hr
    obtain ⟨b', hb', -, hcells⟩ := hag a hmem b hb
    exact ⟨hmem, b', hb', hcells ▸ hle, hcells ▸ hxs⟩

theorem length : xs.length = n := by
  cases src with
  | outside items =>
    obtain ⟨hle, rfl⟩ := hr
    simpa using hle
  | inside a i =>
    obtain ⟨-, b, -, hle, rfl⟩ := hr
    simp
    omega

theorem read : src.read h n = .ok xs := by
  cases src with
  | outside items =>
    obtain ⟨hle, rfl⟩ := hr
    rw [Source.read, if_pos hle]
  | inside a i =>
    obtain ⟨-, b, hb, hle, rfl⟩ := hr
    exact Heap.load_eq hb hle

end Readable

/-! ### Families of owners -/

section Family

variable {V : Type} (ptr : V → Option ℕ) {vs : List V} {i : ℕ} {v : V}

/-- The pointers of all owners, one of them in front. -/
theorem map_perm (hi : vs[i]? = some v) :
    (vs.map ptr).Perm (ptr v :: (vs.eraseIdx i).map ptr) := by
  obtain ⟨hlt, rfl⟩ := List.getElem?_eq_some_iff.mp hi
  exact ((getElem_cons_eraseIdx_perm hlt).symm.map ptr)

theorem map_set_perm (hi : vs[i]? = some v) (v' : V) :
    ((vs.set i v').map ptr).Perm (ptr v' :: (vs.eraseIdx i).map ptr) := by
  obtain ⟨hlt, -⟩ := List.getElem?_eq_some_iff.mp hi
  have hlt' : i < (vs.set i v').length := by simpa using hlt
  have hp := (getElem_cons_eraseIdx_perm hlt').symm.map ptr
  rwa [getElem_set_self, eraseIdx_set_eq] at hp

/-- Another owner is among the others. -/
theorem mem_eraseIdx {j : ℕ} {w : V} (hj : vs[j]? = some w) (hne : j ≠ i) :
    ptr w ∈ (vs.eraseIdx i).map ptr :=
  mem_map_of_mem (mem_eraseIdx_iff_getElem?.mpr ⟨j, hne, hj⟩)

variable {X : Type} {P : V → Prop} {f f' : V → X} {v' : V}

/-- One owner changes, and the others are and show what they were. -/
theorem family_set (hi : vs[i]? = some v) (hv' : P v')
    (hother : ∀ w ∈ vs.eraseIdx i, P w ∧ f' w = f w) :
    (∀ w ∈ vs.set i v', P w) ∧ (vs.set i v').map f' = (vs.map f).set i (f' v') := by
  obtain ⟨hlt, -⟩ := List.getElem?_eq_some_iff.mp hi
  rw [eraseIdx_eq_take_drop_succ] at hother
  refine ⟨fun w hw => ?_, ?_⟩
  · rw [set_eq_take_append_cons_drop, if_pos hlt] at hw
    rcases mem_append.mp hw with hw | hw
    · exact (hother w (mem_append_left _ hw)).1
    · rcases mem_cons.mp hw with rfl | hw
      · exact hv'
      · exact (hother w (mem_append_right _ hw)).1
  · rw [set_eq_take_append_cons_drop, set_eq_take_append_cons_drop, length_map, if_pos hlt,
      if_pos hlt, map_append, map_cons, map_take, map_drop, ← map_take, ← map_drop, ← map_take,
      ← map_drop, map_congr_left fun w hw => (hother w (mem_append_left _ hw)).2,
      map_congr_left fun w hw => (hother w (mem_append_right _ hw)).2]

theorem family_append (hv' : P v') (hold : ∀ w ∈ vs, P w ∧ f' w = f w) :
    (∀ w ∈ vs ++ [v'], P w) ∧ (vs ++ [v']).map f' = vs.map f ++ [f' v'] := by
  refine ⟨forall_mem_append.mpr ⟨fun w hw => (hold w hw).1, forall_mem_singleton.mpr hv'⟩, ?_⟩
  · rw [map_append, map_congr_left fun w hw => (hold w hw).2]
    rfl

end Family

end CountedHeap
