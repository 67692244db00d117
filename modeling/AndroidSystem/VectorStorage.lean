/-
What the functions of `VectorImpl` do to one vector.

`Holds T others h v l` says that vector `v` has the items `l` in heap `h`, whose other
owners are `others`.  A function that edits `v` goes through a buffer with no other owner
(`Owned`), the cells of which are the items and a tail of spare cells:

* `editArrayImpl_spec` and `reallocate_spec` get such a buffer, without a change to `others`;
* `forwardLoop_eq` and `backwardLoop_eq` say where items go that are moved within it;
* `grow_spec` and `shrink_spec` put the ways of `_grow` and of `_shrink` together.
-/
import AndroidSystem.VectorImpl

open CInt CountedHeap SharedBuffer List

namespace VectorImpl

open Heap

variable {α : Type} {T : ItemType α}

/-! ### Moving items -/

/-- The cells that moved items leave behind keep their items if nothing is destroyed. -/
def keepsSource (T : ItemType α) : Bool := memmoves T || T.trivialDtor

/-- An item moves up. -/
theorem moveItem_up (p m r : List (Option α)) (x y : Option α) :
    moveItem T (p ++ (x :: (m ++ (y :: r)))) (p.length + (m.length + 1)) p.length =
      p ++ ((if T.trivialDtor then x else none) :: (m ++ (x :: r))) := by
  have hget : (p ++ (x :: (m ++ (y :: r)))).getD p.length none = x := by
    simp [getD_eq_getElem?_getD]
  have hset : (p ++ (x :: (m ++ (y :: r)))).set (p.length + (m.length + 1)) x =
      p ++ (x :: (m ++ (x :: r))) := by
    simp
  rw [moveItem, hget, hset]
  split_ifs
  · rfl
  · simp

/-- An item moves down. -/
theorem moveItem_down (p m r : List (Option α)) (x y : Option α) :
    moveItem T (p ++ (y :: (m ++ (x :: r)))) p.length (p.length + (m.length + 1)) =
      p ++ (x :: (m ++ ((if T.trivialDtor then x else none) :: r))) := by
  have hget : (p ++ (y :: (m ++ (x :: r)))).getD (p.length + (m.length + 1)) none = x := by
    simp [getD_eq_getElem?_getD]
  have hset : (p ++ (y :: (m ++ (x :: r)))).set p.length x = p ++ (x :: (m ++ (x :: r))) := by
    simp
  rw [moveItem, hget, hset]
  split_ifs
  · rfl
  · simp

theorem moveItem_self (hT : T.trivialDtor = true) (cells : List (Option α)) (d : ℕ) :
    moveItem T cells d d = cells := by
  rw [moveItem, if_pos hT]
  by_cases hd : d < cells.length
  · simp [getD_eq_getElem?_getD, hd]
  · exact set_eq_of_length_le (not_lt.mp hd)

/-- Items are moved up by `move_forward_type`: the last one goes first, so that none is overwritten
before it is moved. -/
theorem forwardLoop_eq (p q g r : List (Option α)) (hT : g ≠ [] ∨ T.trivialDtor = true) :
    ∃ gap, forwardLoop T (p ++ (q ++ (g ++ r))) (p.length + g.length) p.length q.length =
        p ++ (gap ++ (q ++ r)) ∧ gap.length = g.length ∧
      (T.trivialDtor = true → gap = (q ++ g).take g.length) := by
  induction q using reverseRecOn generalizing g r with
  | nil =>
    exact ⟨g, rfl, rfl, fun _ => by simp⟩
  | append_singleton q x ih =>
    rw [length_append, length_singleton, forwardLoop]
    rcases eq_nil_or_concat g with rfl | ⟨g, y, rfl⟩
    · have hdtor := hT.resolve_left fun h => h rfl
      obtain ⟨gap, heq, hlen, hgap⟩ := ih [] (x :: r) (Or.inr hdtor)
      rw [length_nil, Nat.add_zero, moveItem_self hdtor]
      refine ⟨gap, ?_, hlen, fun _ => ?_⟩
      · simpa using heq
      · exact eq_nil_of_length_eq_zero hlen
    · -- the cell that `x` leaves behind joins the gap
      set c := if T.trivialDtor then x else none with hc
      obtain ⟨gap, heq, hlen, hgap⟩ := ih (c :: g) (x :: r) (Or.inl (by simp))
      have hmove : moveItem T (p ++ (q ++ [x] ++ (g.concat y ++ r)))
          (p.length + (g.concat y).length + q.length) (p.length + q.length) =
          p ++ (q ++ (c :: g ++ (x :: r))) := by
        have h := moveItem_up (T := T) (p ++ q) g r x y
        rw [length_append] at h
        simp only [append_assoc, concat_eq_append, cons_append,
          length_append, length_singleton] at h ⊢
        rw [← h]
        congr 1
        omega
      rw [hmove]
      refine ⟨gap, ?_, ?_, fun hdtor => ?_⟩
      · simpa using heq
      · simpa using hlen
      · have hle : (x :: g).length ≤ (q ++ x :: g).length := by simp
        calc gap = (q ++ x :: g).take (x :: g).length := by rw [hgap hdtor, hc, if_pos hdtor]
          _ = (q ++ x :: g ++ [y]).take (x :: g).length :=
            (take_append_of_le_length hle).symm
          _ = (q ++ [x] ++ g.concat y).take (g.concat y).length := by simp

/-- Items are moved down by `move_backward_type`, the first one first. -/
theorem backwardLoop_eq (p g q r : List (Option α)) (hT : g ≠ [] ∨ T.trivialDtor = true) :
    ∃ gap, backwardLoop T (p ++ (g ++ (q ++ r))) p.length (p.length + g.length) q.length =
        p ++ (q ++ (gap ++ r)) ∧ gap.length = g.length := by
  induction q generalizing p g with
  | nil => exact ⟨g, rfl, rfl⟩
  | cons x q ih =>
    rw [length_cons, backwardLoop]
    cases g with
    | nil =>
      have hdtor := hT.resolve_left fun h => h rfl
      obtain ⟨gap, heq, hlen⟩ := ih (p ++ [x]) [] (Or.inr hdtor)
      rw [length_nil, Nat.add_zero, moveItem_self hdtor]
      refine ⟨gap, ?_, hlen⟩
      simpa using heq
    | cons y g =>
      -- the cell that `x` leaves behind joins the gap
      set c := if T.trivialDtor then x else none
      obtain ⟨gap, heq, hlen⟩ := ih (p ++ [x]) (g ++ [c]) (Or.inl (by simp))
      have hmove : moveItem T (p ++ (y :: g ++ (x :: q ++ r))) p.length
          (p.length + (y :: g).length) = p ++ [x] ++ (g ++ [c] ++ (q ++ r)) := by
        have h := moveItem_down (T := T) p g (q ++ r) x y
        simpa using h
      rw [hmove]
      refine ⟨gap, ?_, by simpa using hlen⟩
      have hd : p.length + 1 = (p ++ [x]).length := by simp
      have hs : p.length + (y :: g).length + 1 = (p ++ [x]).length + (g ++ [c]).length := by
        simp
        omega
      rw [hd, hs, heq]
      simp

/-- Items that are moved up leave a gap. -/
theorem moved_up (p q g r : List (Option α)) (hT : g ≠ [] ∨ keepsSource T = true) :
    ∃ gap, (if memmoves T then
          memmove (p ++ (q ++ (g ++ r))) (p.length + g.length) p.length q.length
        else forwardLoop T (p ++ (q ++ (g ++ r))) (p.length + g.length) p.length q.length) =
        p ++ (gap ++ (q ++ r)) ∧ gap.length = g.length ∧
      (keepsSource T = true → gap = (q ++ g).take g.length) := by
  rw [keepsSource, Bool.or_eq_true] at hT ⊢
  by_cases hm : memmoves T = true
  · rw [if_pos hm]
    refine ⟨(q ++ g).take g.length, ?_, by simp, fun _ => rfl⟩
    have hread : ((p ++ (q ++ (g ++ r))).drop p.length).take q.length = q := by simp
    have hsplit : p ++ (q ++ (g ++ r)) =
        (p ++ (q ++ g).take g.length) ++ ((q ++ g).drop g.length ++ r) := by
      rw [append_assoc, ← append_assoc (take _ _), take_append_drop]
      simp
    have hlen : (p ++ (q ++ g).take g.length).length = p.length + g.length := by simp
    rw [memmove, hread, hsplit, ← hlen, overwrite_append _ _ _ _ (by simp), append_assoc]
  · rw [if_neg hm]
    have hT' : g ≠ [] ∨ T.trivialDtor = true := hT.imp_right fun h => h.resolve_left hm
    obtain ⟨gap, heq, hlen, hgap⟩ := forwardLoop_eq p q g r hT'
    exact ⟨gap, heq, hlen, fun h => hgap (h.resolve_left hm)⟩

/-- Items that are moved down leave a gap behind them. -/
theorem moved_down (p g q r : List (Option α)) (hT : g ≠ [] ∨ keepsSource T = true) :
    ∃ gap, (if memmoves T then
          memmove (p ++ (g ++ (q ++ r))) p.length (p.length + g.length) q.length
        else backwardLoop T (p ++ (g ++ (q ++ r))) p.length (p.length + g.length) q.length) =
        p ++ (q ++ (gap ++ r)) ∧ gap.length = g.length := by
  rw [keepsSource, Bool.or_eq_true] at hT
  by_cases hm : memmoves T = true
  · rw [if_pos hm]
    refine ⟨(g ++ q).drop q.length, ?_, by simp⟩
    have hread : ((p ++ (g ++ (q ++ r))).drop (p.length + g.length)).take q.length = q := by
      rw [← drop_drop]
      simp
    have hsplit : p ++ (g ++ (q ++ r)) =
        p ++ ((g ++ q).take q.length ++ ((g ++ q).drop q.length ++ r)) := by
      rw [← append_assoc (take _ _), take_append_drop]
      simp
    rw [memmove, hread, hsplit, overwrite_append _ _ _ _ (by simp)]
  · rw [if_neg hm]
    exact backwardLoop_eq p g q r (hT.imp_right fun h => h.resolve_left hm)

/-! ### Items of a vector -/

variable {tail : List (Option α)} {n : ℕ}

/-- Vector `v` has the items `l`; the other owners of buffers are `others`. -/
inductive Holds (T : ItemType α) (others : List (Option ℕ)) (h : Heap (Option α)) :
    VectorImpl → List (Option α) → Prop
  | empty (hc : Counted h others) (hf : h.failing = []) : Holds T others h ⟨none, 0⟩ []
  | stored {a : ℕ} {b : Block (Option α)} {l : List (Option α)} (tail : List (Option α))
      (hb : h.get a = some b) (hc : Counted h (some a :: others)) (hf : h.failing = [])
      (hfits : Fits (layout T) b) (hcells : b.cells = l ++ tail) :
      Holds T others h ⟨some a, l.length⟩ l

/-- The buffer at `a` has no other owner, and its cells are `cells`. -/
abbrev Owned (T : ItemType α) (others : List (Option ℕ)) (h : Heap (Option α)) (a : ℕ)
    (cells : List (Option α)) : Prop :=
  SharedBuffer.Owned (layout T) others h a cells

variable {others : List (Option ℕ)} {h : Heap (Option α)} {v : VectorImpl} {l : List (Option α)}
  {a : ℕ} {cells : List (Option α)}

theorem Owned.holds (ho : Owned T others h a (l ++ tail)) :
    Holds T others h ⟨some a, l.length⟩ l := by
  obtain ⟨⟨b, hs, hfits, hcells⟩, hf⟩ := ho
  exact .stored tail hs.get hs.counted hf hfits hcells

/-- Fresh memory is owned. -/
theorem alloc_owned {ptrs : List (Option ℕ)} (hc : Counted h ptrs) (hf : h.failing = [])
    (hn : headerSize + n * T.itemSize < 2 ^ 32) :
    ∃ h' a', alloc (layout T) h (u32 (n * T.itemSize)) = .ok (h', some a') ∧
      Owned T ptrs h' a' (replicate n none) ∧ Agree h h' ptrs := by
  have hu : u32 (n * T.itemSize) = n * T.itemSize := u32_of_lt (by omega)
  rw [hu]
  exact SharedBuffer.Owned.alloc T.itemSize_pos hc hf hn

/-! ### Giving up and getting storage -/

variable {b : Block (Option α)}

/-- An owner goes. -/
theorem releaseStorage_spec (hc : Counted h (v.mStorage :: others))
    (hv : ∀ a b, v.mStorage = some a → h.get a = some b → v.mCount ≤ b.cells.length) :
    ∃ h', releaseStorage T h v = .ok h' ∧ Counted h' others ∧ Agree h h' others ∧
      h'.failing = h.failing ∧ ∀ a', v.mStorage ≠ some a' → h'.get a' = h.get a' := by
  obtain ⟨mStorage, mCount⟩ := v
  cases mStorage with
  | none => exact ⟨h, rfl, Counted.null_iff.mp hc, Agree.refl h others, rfl, fun _ _ => rfl⟩
  | some a =>
    obtain ⟨b, hb⟩ := hc.alive mem_cons_self
    have hrest : ∀ (o : Option (Block (Option α))) a', some a ≠ some a' →
        (h.put a o).get a' = h.get a' := fun o a' hne =>
      get_put_of_ne (fun heq => hne (congrArg some heq)) o
    by_cases h1 : b.refs = 1
    · refine ⟨h.put a none, ?_, hc.free hb h1, Agree.put (hc.notMem hb h1) _, rfl, hrest none⟩
      have hle := hv a b rfl hb
      have hb' : (h.put a (some { b with refs := 0 })).get a = some { b with refs := 0 } :=
        get_put_self hb _
      simp only [releaseStorage, release, deref_eq hb, ok_bind, if_pos h1, if_true]
      by_cases hT : T.trivialDtor = true
      · simp only [doDestroy, if_pos hT, ok_bind, dealloc, deref_eq hb', ne_eq,
          not_true_eq_false, if_false, put_put]
      · have hstore : (h.put a (some { b with refs := 0 })).store a 0
            (replicate mCount none) = .ok _ := store_eq hb' (by simpa using hle)
        simp only [doDestroy, if_neg hT, hstore, ok_bind, dealloc, put_put,
          deref_eq (get_put_self hb _), ne_eq, not_true_eq_false, if_false]
    · refine ⟨_, ?_, hc.release hb h1, Agree.recount hb _ _, rfl, hrest _⟩
      simp only [releaseStorage, release, deref_eq hb, ok_bind, if_neg h1]

/-- The old storage is given up for an owned buffer. -/
theorem Owned.release (ho : Owned T (v.mStorage :: others) h a cells)
    (hv : ∀ a b, v.mStorage = some a → h.get a = some b → v.mCount ≤ b.cells.length) :
    ∃ h', releaseStorage T h v = .ok h' ∧ Owned T others h' a cells ∧ Agree h h' others := by
  obtain ⟨⟨b, hs, hfits, hcells⟩, hf⟩ := ho
  obtain ⟨h', hrel, hc', hag, hf', hget⟩ :=
    releaseStorage_spec (T := T) (hs.counted.perm (List.Perm.swap _ _ _)) hv
  have hne : v.mStorage ≠ some a := fun heq =>
    hs.counted.notMem hs.get hs.refs (heq ▸ mem_cons_self)
  refine ⟨h', hrel, ⟨⟨b, ⟨(hget a hne).trans hs.get, hs.refs, hc'⟩, hfits, hcells⟩, ?_⟩, hag.tail⟩
  exact hf'.trans hf

/-- The capacity of a vector, as a number. -/
def cap (T : ItemType α) (h : Heap (Option α)) (v : VectorImpl) : ℕ :=
  match capacity T h v with
  | .ok n => n
  | .error _ => 0

theorem capacity_eq (hb : h.get a = some b) (hfits : Fits (layout T) b) :
    capacity T h ⟨some a, n⟩ = .ok b.cells.length := by
  simp only [capacity, deref_eq hb, ok_bind, hfits.length, layout]

theorem cap_eq (hb : h.get a = some b) (hfits : Fits (layout T) b) :
    cap T h ⟨some a, n⟩ = b.cells.length := by
  rw [cap, capacity_eq hb hfits]

theorem fits_length (hfits : Fits (layout T) b) :
    headerSize + b.cells.length * T.itemSize < 2 ^ 32 := by
  have h₁ := hfits.size
  have h₂ : b.cells.length * T.itemSize ≤ b.size := by
    rw [hfits.length]
    exact Nat.div_mul_le_self b.size T.itemSize
  omega

theorem length_lt (hfits : Fits (layout T) b) :
    b.cells.length < 2 ^ 32 := by
  have h₁ := fits_length hfits
  have h₂ : b.cells.length ≤ b.cells.length * T.itemSize :=
    Nat.le_mul_of_pos_right _ T.itemSize_pos
  omega

/-- **`editArrayImpl`** makes the vector the only owner of its storage. -/
theorem editArrayImpl_spec (hb : h.get a = some b) (hc : Counted h (some a :: others))
    (hf : h.failing = []) (hfits : Fits (layout T) b) (hcells : b.cells = l ++ tail) :
    ∃ h' a' tail', editArrayImpl T h ⟨some a, l.length⟩ = .ok (h', ⟨some a', l.length⟩) ∧
      Owned T others h' a' (l ++ tail') ∧ tail'.length = tail.length ∧ Agree h h' others ∧
      (b.refs = 1 → h' = h ∧ a' = a ∧ tail' = tail) := by
  simp only [editArrayImpl, attemptEdit, deref_eq hb, ok_bind]
  by_cases h1 : b.refs = 1
  · simp only [if_pos h1]
    exact ⟨h, a, tail, rfl, ⟨⟨b, ⟨hb, h1, hc⟩, hfits, hcells⟩, hf⟩, rfl, Agree.refl h others,
      fun _ => ⟨rfl, rfl, rfl⟩⟩
  · obtain ⟨h₁, a', halloc, ho₁, hag₁⟩ := alloc_owned (T := T) hc hf (fits_length hfits)
    have hr : Readable (some a :: others) h l.length l (.inside a 0) :=
      ⟨mem_cons_self, b, hb, by simp [hcells], by simp [hcells]⟩
    obtain ⟨h₂, hcopy, ho₂, hag₂⟩ := ho₁.memcpy (i := 0) (hr.agree hag₁) (by simp [hcells])
    have hcount : ∀ a₀ b₀, (⟨some a, l.length⟩ : VectorImpl).mStorage = some a₀ →
        h₂.get a₀ = some b₀ → l.length ≤ b₀.cells.length := by
      rintro a₀ b₀ ⟨⟩ hb₀
      obtain ⟨b₂, hb₂, -, hcells₂⟩ := (hag₁.trans hag₂) a mem_cons_self b hb
      obtain rfl : b₂ = b₀ := Option.mem_unique hb₂ hb₀
      rw [hcells₂, hcells]
      simp
    obtain ⟨h₃, hrel, ho₃, hag₃⟩ := Owned.release (v := ⟨some a, l.length⟩) ho₂ hcount
    refine ⟨h₃, a', replicate tail.length none, ?_, ?_, by simp,
      ((hag₁.trans hag₂).tail.trans hag₃), fun h1' => absurd h1' h1⟩
    · simp only [if_neg h1, capacity_eq hb hfits, ok_bind, halloc, hcopy, hrel]
    · have hover : overwrite (replicate b.cells.length none) 0 l =
          l ++ replicate tail.length none := by
        simp [overwrite, hcells]
      rwa [hover] at ho₃

section

variable (hv : Holds T others h v l)

include hv

theorem Holds.mCount_le (ha : v.mStorage = some a) (hb : h.get a = some b)
    : v.mCount ≤ b.cells.length := by
  cases hv with
  | empty hc hf => cases ha
  | stored tail hb' hc hf hfits hcells =>
    cases ha
    obtain rfl := Option.mem_unique hb' hb
    simp [hcells]

theorem Holds.counted : Counted h (v.mStorage :: others) := by
  cases hv with
  | empty hc hf => exact Counted.null_iff.mpr hc
  | stored tail hb hc hf hfits hcells => exact hc

theorem Holds.failing : h.failing = [] := by
  cases hv with
  | empty hc hf => exact hf
  | stored tail hb hc hf hfits hcells => exact hf

theorem Holds.mCount : v.mCount = l.length := by
  cases hv with
  | empty hc hf => rfl
  | stored tail hb hc hf hfits hcells => rfl

theorem Holds.length_lt : l.length < 2 ^ 32 := by
  cases hv with
  | empty hc hf => norm_num
  | stored tail hb hc hf hfits hcells =>
    have := VectorImpl.length_lt hfits
    rw [hcells, length_append] at this
    omega

theorem Holds.readable {i : ℕ} (hle : i + n ≤ l.length) :
    Readable (v.mStorage :: others) h n ((l.drop i).take n) (source v i) := by
  cases hv with
  | empty hc hf =>
    have hn : n = 0 := by
      rw [length_nil] at hle
      omega
    subst hn
    exact ⟨le_rfl, by simp⟩
  | stored tail hb hc hf hfits hcells =>
    refine ⟨mem_cons_self, _, hb, ?_, ?_⟩
    · rw [hcells, length_append]
      omega
    · rw [hcells, drop_append_of_le_length (by omega), take_append_of_le_length]
      rw [length_drop]
      omega

/-- **A new buffer** with two runs of the items. -/
theorem reallocate_spec (newCapacity head dest rest count : ℕ)
    (hn : headerSize + newCapacity * T.itemSize < 2 ^ 32) (hhead : head ≤ l.length)
    (hrest : rest + count ≤ l.length) (hle : head ≤ dest) (hdest : dest + count ≤ newCapacity) :
    ∃ h' a', reallocate T h v newCapacity head dest rest count =
        .ok (h', ⟨some a', v.mCount⟩) ∧
      Owned T others h' a' (l.take head ++ (replicate (dest - head) none ++
        ((l.drop rest).take count ++ replicate (newCapacity - dest - count) none))) ∧
      Agree h h' others := by
  obtain ⟨h₁, a', halloc, ho₁, hag₁⟩ := alloc_owned (T := T) hv.counted hv.failing hn
  have hr₁ := (hv.readable (i := 0) (n := head) (by omega)).agree hag₁
  obtain ⟨h₂, hcopy₂, ho₂, hag₂⟩ := ho₁.memcpy (i := 0) hr₁ (by simp; omega)
  have hr₂ := (hv.readable hrest).agree (hag₁.trans hag₂)
  obtain ⟨h₃, hcopy₃, ho₃, hag₃⟩ := ho₂.memcpy (i := dest) hr₂ (by
    rw [length_overwrite (by simp; omega), length_replicate]
    exact hdest)
  have hag := (hag₁.trans hag₂).trans hag₃
  obtain ⟨h₄, hrel, ho₄, hag₄⟩ := Owned.release (v := v) ho₃ fun a₀ b₀ ha₀ hb₀ => by
    obtain ⟨b, hb⟩ := hv.counted.alive (a := a₀) (ha₀ ▸ mem_cons_self)
    obtain ⟨b', hb', -, hcells'⟩ := hag a₀ (ha₀ ▸ mem_cons_self) b hb
    obtain rfl := Option.mem_unique hb' hb₀
    rw [hcells']
    exact hv.mCount_le ha₀ hb
  refine ⟨h₄, a', ?_, ?_, hag.tail.trans hag₄⟩
  · simp only [reallocate, halloc, ok_bind, hcopy₂, hcopy₃, hrel]
  · have h₁ : overwrite (replicate newCapacity none) 0 ((l.drop 0).take head) =
        l.take head ++ replicate (newCapacity - head) none := by
      simp [overwrite, Nat.min_eq_left hhead]
    have h₂ : l.take head ++ replicate (newCapacity - head) none =
        (l.take head ++ replicate (dest - head) none) ++
          (replicate count none ++ replicate (newCapacity - dest - count) none) := by
      rw [append_assoc, replicate_append_replicate, replicate_append_replicate]
      congr 2
      omega
    have hlen : dest = (l.take head ++ replicate (dest - head) (none : Option α)).length := by
      simp
      omega
    rw [h₁, h₂] at ho₄
    rw [show overwrite _ dest _ = _ from hlen ▸ overwrite_append _ _ _ _ (by simp; omega)] at ho₄
    rwa [append_assoc] at ho₄

end

/-! ### Growing and shrinking -/

variable {amount pos : ℕ}

/-- The sizes that `_grow` computes fit a `size_t`. -/
def GrowFits (T : ItemType α) (h : Heap (Option α)) (v : VectorImpl) (amount : ℕ) : Prop :=
  v.mCount + amount < 2 ^ 32 ∧
    (cap T h v < v.mCount + amount → (v.mCount + amount) * 3 + 1 < 2 ^ 32 ∧
      headerSize + max kMinVectorCapacity (((v.mCount + amount) * 3 + 1) / 2) * T.itemSize < 2 ^ 32)

/-- The sizes that `_shrink` computes fit a `size_t`. -/
def ShrinkFits (T : ItemType α) (h : Heap (Option α)) (v : VectorImpl) (amount : ℕ) : Prop :=
  (v.mCount - amount) * 3 < 2 ^ 32 ∧
    ((v.mCount - amount) * 3 < cap T h v →
      headerSize + max kMinVectorCapacity ((v.mCount - amount) * 2) * T.itemSize < 2 ^ 32)

/-- Items are moved within an owned buffer. -/
theorem Owned.doMove (ho : Owned T others h a cells)
    (loop : List (Option α) → ℕ → ℕ → ℕ → List (Option α)) (d s n : ℕ) {cells' : List (Option α)}
    (hs : s + n ≤ cells.length)
    (hd : d + n ≤ cells.length)
    (hmove : (if memmoves T then memmove cells d s n else loop cells d s n) = cells')
    (hlen : cells'.length = cells.length) :
    ∃ h', doMove T loop h a d s n = .ok h' ∧ Owned T others h' a cells' ∧ Agree h h' others := by
  obtain ⟨b, hsole, -, hcells⟩ := ho.sole
  refine ⟨_, ?_, ho.put hsole.get hlen⟩
  rw [VectorImpl.doMove, deref_eq hsole.get, ok_bind, hcells, if_pos ⟨hs, hd⟩]
  simp only [hmove]

/-- The place for the new items, if there is one. -/
theorem itemLocation_eq (ho : Owned T others h a cells) (n pos : ℕ) :
    itemLocation T h ⟨some a, n⟩ pos =
      .ok (if pos < cells.length then some (a, pos) else none) := by
  obtain ⟨b, hs, hfits, hcells⟩ := ho.sole
  simp only [itemLocation, capacity_eq hs.get hfits, ok_bind, hcells]
  split_ifs <;> rfl

theorem length_grown {gap : List (Option α)} (hpos : pos ≤ l.length) (hgap : gap.length = amount) :
    (l.take pos ++ (gap ++ (l.drop pos ++ tail))).length = l.length + amount + tail.length := by
  simp only [length_append, length_take, length_drop, hgap]
  omega

/-- Items are destroyed in an owned buffer. -/
theorem Owned.doDestroy {p m r : List (Option α)} (ho : Owned T others h a (p ++ (m ++ r))) :
    ∃ h' m', doDestroy T h a p.length m.length = .ok h' ∧
      Owned T others h' a (p ++ (m' ++ r)) ∧ m'.length = m.length ∧ Agree h h' others := by
  by_cases hT : T.trivialDtor = true
  · exact ⟨h, m, by rw [VectorImpl.doDestroy, if_pos hT], ho, rfl, Agree.refl h others⟩
  · have hle : p.length + (replicate m.length (none : Option α)).length ≤
        (p ++ (m ++ r)).length := by simp
    obtain ⟨h', hstore, ho', hag⟩ := ho.store hle
    rw [overwrite_append _ _ _ _ (by simp)] at ho'
    exact ⟨h', _, by rw [VectorImpl.doDestroy, if_neg hT, hstore], ho', by simp, hag⟩

section

variable (hb : h.get a = some b) (hc : Counted h (some a :: others)) (hf : h.failing = [])
  (hfits : Fits (layout T) b) (hcells : b.cells = l ++ tail)

include hb hc hf hfits hcells

/-- **The same buffer, resized.** -/
theorem resizeStorage_spec {newCapacity : ℕ}
    (hn : headerSize + newCapacity * T.itemSize < 2 ^ 32) (n : ℕ) :
    ∃ h' a', resizeStorage T h ⟨some a, n⟩ a newCapacity = .ok (h', ⟨some a', n⟩) ∧
      Agree h h' others ∧
      (l.length ≤ newCapacity → ∃ tail',
        Owned T others h' a' (l ++ tail') ∧ l.length + tail'.length = newCapacity) ∧
      (newCapacity ≤ l.length → Owned T others h' a' (l.take newCapacity)) := by
  have hu : u32 (newCapacity * T.itemSize) = newCapacity * T.itemSize := u32_of_lt (by omega)
  obtain ⟨h', a', hedit, hs, hag, hf', -⟩ := editResize_spec hc hb hfits hf hn
  have hfits' : Fits (layout T) (resized (layout T) b (newCapacity * T.itemSize)) :=
    fits_resized hfits hn
  have hpos := T.itemSize_pos
  have hdiv : newCapacity * T.itemSize / T.itemSize = newCapacity := Nat.mul_div_cancel _ hpos
  -- as many of the old cells as fit
  have hkept : min (newCapacity * T.itemSize) b.size / T.itemSize =
      min newCapacity (l.length + tail.length) := by
    have hlen := hfits.length
    rw [hcells, length_append] at hlen
    rw [hlen, layout]
    rcases le_total (newCapacity * T.itemSize) b.size with hle | hle
    · rw [Nat.min_eq_left hle, hdiv, Nat.min_eq_left]
      exact (Nat.le_div_iff_mul_le hpos).mpr hle
    · rw [Nat.min_eq_right hle, Nat.min_eq_right]
      exact (Nat.div_le_div_right hle).trans hdiv.le
  have hcells' : (resized (layout T) b (newCapacity * T.itemSize)).cells =
      (l ++ tail).take newCapacity ++
        replicate (newCapacity - min newCapacity (l.length + tail.length)) none := by
    simp only [resized, layout, hkept, hdiv, hcells]
    congr 1
    rw [← length_append, take_eq_take_iff]
    simp
  refine ⟨h', a', ?_, hag, fun hle => ?_, fun hle => ?_⟩
  · simp only [resizeStorage, hu, hedit, ok_bind]
  · refine ⟨tail.take (newCapacity - l.length) ++
      replicate (newCapacity - min newCapacity (l.length + tail.length)) none,
      ⟨⟨_, hs, hfits', ?_⟩, hf'⟩, ?_⟩
    · rw [hcells', take_append, take_of_length_le hle, append_assoc]
    · simp
      omega
  · refine ⟨⟨_, hs, hfits', ?_⟩, hf'⟩
    rw [hcells', take_append_of_le_length hle, Nat.min_eq_left (by omega)]
    simp

/-- `_grow`, when the items do not fit into the buffer. -/
theorem grow_beyond (hpos : pos ≤ l.length)
    (hgrow : GrowFits T h ⟨some a, l.length⟩ amount) (hcap : b.cells.length < l.length + amount) :
    ∃ h' a' gap tail', grow T h ⟨some a, l.length⟩ pos amount =
        .ok (h', ⟨some a', l.length + amount⟩,
          if pos < l.length + amount + tail'.length then some (a', pos) else none) ∧
      Owned T others h' a' (l.take pos ++ (gap ++ (l.drop pos ++ tail'))) ∧
      gap.length = amount ∧ Agree h h' others := by
  simp only [GrowFits, cap_eq hb hfits] at hgrow
  obtain ⟨hsum, hbig⟩ := hgrow
  have hu : u32 (l.length + amount) = l.length + amount := u32_of_lt hsum
  obtain ⟨h3, hnew⟩ := hbig hcap
  have hu3 : u32 (u32 ((l.length + amount) * 3) + 1) = (l.length + amount) * 3 + 1 := by
    rw [u32_of_lt (show (l.length + amount) * 3 < 2 ^ 32 by omega), u32_of_lt h3]
  set newCapacity := max kMinVectorCapacity (((l.length + amount) * 3 + 1) / 2) with hN
  by_cases hT : l.length = pos ∧ T.trivialCopy ∧ T.trivialDtor
  · -- the same buffer, with spare cells behind the items
    obtain ⟨h', a', hres, hag, hown, -⟩ :=
      resizeStorage_spec hb hc hf hfits hcells hnew l.length
    obtain ⟨tail', ho, hlen⟩ := hown (by omega)
    have hsplit : l ++ tail' =
        l.take pos ++ (tail'.take amount ++ (l.drop pos ++ tail'.drop amount)) := by
      rw [← hT.1, take_length, drop_length, nil_append, take_append_drop]
    rw [hsplit] at ho
    have hgap : (tail'.take amount).length = amount := by
      simp
      omega
    refine ⟨h', a', tail'.take amount, tail'.drop amount, ?_, ho, hgap, hag⟩
    simp only [grow, hu, capacity_eq hb hfits, ok_bind, if_pos hcap, hu3, ← hN, if_pos hT, hres,
      itemLocation_eq ho, length_grown hpos hgap]
  · -- a new buffer
    have hv : Holds T others h ⟨some a, l.length⟩ l := .stored tail hb hc hf hfits hcells
    obtain ⟨h', a', hreal, ho, hag⟩ := reallocate_spec hv newCapacity pos (pos + amount)
      pos (l.length - pos) hnew hpos (by omega) (by omega) (by omega)
    have hgap : (replicate (pos + amount - pos) (none : Option α)).length = amount := by simp
    have hdrop : (l.drop pos).take (l.length - pos) = l.drop pos :=
      take_of_length_le (by simp)
    rw [hdrop] at ho
    refine ⟨h', a', _, _, ?_, ho, hgap, hag⟩
    simp only [grow, hu, capacity_eq hb hfits, ok_bind, if_pos hcap, hu3, ← hN, if_neg hT,
      hreal, itemLocation_eq ho, length_grown hpos hgap]

/-- **`_grow`** makes room for new items.  In place, the gap holds what the moved items left
behind. -/
theorem grow_spec (hpos : pos ≤ l.length)
    (hgrow : GrowFits T h ⟨some a, l.length⟩ amount)
    (hzero : amount ≠ 0 ∨ pos = l.length ∨ keepsSource T = true) :
    ∃ h' a' gap tail', grow T h ⟨some a, l.length⟩ pos amount =
        .ok (h', ⟨some a', l.length + amount⟩,
          if pos < l.length + amount + tail'.length then some (a', pos) else none) ∧
      Owned T others h' a' (l.take pos ++ (gap ++ (l.drop pos ++ tail'))) ∧
      gap.length = amount ∧ Agree h h' others ∧
      (b.refs = 1 → l.length + amount ≤ b.cells.length → a' = a ∧
        (pos = l.length ∨ keepsSource T = true → gap = (l.drop pos ++ tail).take amount)) := by
  have hu : u32 (l.length + amount) = l.length + amount := u32_of_lt hgrow.1
  by_cases hcap : b.cells.length < l.length + amount
  · obtain ⟨h', a', gap, tail', hrun, ho, hgap, hag⟩ :=
      grow_beyond hb hc hf hfits hcells hpos hgrow hcap
    exact ⟨h', a', gap, tail', hrun, ho, hgap, hag, fun _ hle => absurd hcap hle.not_gt⟩
  · -- in place
    obtain ⟨h₁, a', tail₁, hedit, ho₁, hlen₁, hag₁, hsame⟩ :=
      editArrayImpl_spec hb hc hf hfits hcells
    have hroom : amount ≤ tail₁.length := by
      rw [hcells, length_append] at hcap
      omega
    have hgap₁ : (tail₁.take amount).length = amount := by
      simp
      omega
    by_cases hend : pos = l.length
    · have hsplit : l ++ tail₁ =
          l.take pos ++ (tail₁.take amount ++ (l.drop pos ++ tail₁.drop amount)) := by
        rw [hend, take_length, drop_length, nil_append, take_append_drop]
      rw [hsplit] at ho₁
      refine ⟨h₁, a', tail₁.take amount, tail₁.drop amount, ?_, ho₁, hgap₁, hag₁, ?_⟩
      · simp only [grow, hu, capacity_eq hb hfits, ok_bind, if_neg hcap, hedit, hend, ne_eq,
          not_true_eq_false, if_false]
        simp only [← hend, itemLocation_eq ho₁, length_grown hpos hgap₁, ok_bind]
      · intro h1 _
        obtain ⟨-, rfl, rfl⟩ := hsame h1
        exact ⟨rfl, fun _ => by rw [hend, drop_length, nil_append]⟩
    · have hT : tail₁.take amount ≠ [] ∨ keepsSource T = true := by
        rcases hzero with h0 | h0 | h0
        · refine Or.inl fun hnil => h0 ?_
          rw [← hgap₁, hnil, length_nil]
        · exact absurd h0 hend
        · exact Or.inr h0
      have hp : (l.take pos).length = pos := by simpa using hpos
      have hq : (l.drop pos).length = l.length - pos := length_drop
      have hsplit : l ++ tail₁ =
          l.take pos ++ (l.drop pos ++ (tail₁.take amount ++ tail₁.drop amount)) := by
        rw [take_append_drop, ← append_assoc, take_append_drop]
      obtain ⟨gap, hmove, hgap, hstale⟩ :=
        moved_up (l.take pos) (l.drop pos) (tail₁.take amount) (tail₁.drop amount) hT
      rw [hp, hq, hgap₁] at hmove
      rw [hgap₁] at hgap
      rw [hsplit] at ho₁
      obtain ⟨h₂, hdo, ho₂, hag₂⟩ := ho₁.doMove (forwardLoop T) (pos + amount) pos
        (l.length - pos) (by simp; omega) (by simp; omega) hmove (by simp; omega)
      refine ⟨h₂, a', gap, tail₁.drop amount, ?_, ho₂, hgap, hag₁.trans hag₂, ?_⟩
      · simp only [grow, hu, capacity_eq hb hfits, ok_bind, if_neg hcap, hedit, ne_eq, hend,
          not_false_eq_true, if_true, doMoveForward, hdo, itemLocation_eq ho₂,
          length_grown hpos hgap]
      · intro h1 _
        obtain ⟨-, rfl, rfl⟩ := hsame h1
        refine ⟨rfl, fun hk => ?_⟩
        rw [hstale (hk.resolve_left hend), hgap₁, take_append, take_append,
          take_take, Nat.min_eq_left (Nat.sub_le _ _)]

/-- **`_shrink`** removes items. -/
theorem shrink_spec (hpos : pos + amount ≤ l.length)
    (hshrink : ShrinkFits T h ⟨some a, l.length⟩ amount)
    (hzero : amount ≠ 0 ∨ pos = l.length ∨ keepsSource T = true ∨
      (l.length - amount) * 3 < b.cells.length) :
    ∃ h' a' tail', shrink T h ⟨some a, l.length⟩ pos amount =
        .ok (h', ⟨some a', l.length - amount⟩) ∧
      Owned T others h' a' (l.take pos ++ l.drop (pos + amount) ++ tail') ∧
      Agree h h' others := by
  have hlen : l.length < 2 ^ 32 := by
    have := length_lt hfits
    rw [hcells, length_append] at this
    omega
  simp only [ShrinkFits, cap_eq hb hfits] at hshrink
  obtain ⟨h3, hbig⟩ := hshrink
  generalize hn : l.length - amount = n at *
  have hsub : usub l.length amount = n := (usub_of_le (by omega) hlen).trans hn
  have hu3 : u32 (n * 3) = n * 3 := u32_of_lt h3
  have hu2 : u32 (n * 2) = n * 2 := u32_of_lt (by omega)
  have hsum : u32 (pos + amount) = pos + amount := u32_of_lt (by omega)
  have hrest : usub n pos = n - pos := usub_of_le (by omega) (by omega)
  by_cases hcap : n * 3 < b.cells.length
  · have hnew := hbig hcap
    set newCapacity := max kMinVectorCapacity (n * 2) with hN
    by_cases hT : pos = n ∧ T.trivialCopy ∧ T.trivialDtor
    · -- the last items go with the end of the buffer
      have hcells' : b.cells = l.take pos ++ (l.drop pos ++ tail) := by
        rw [hcells, ← append_assoc, take_append_drop]
      have hp : (l.take pos).length = pos := by
        simp
        omega
      obtain ⟨h', a', hres, hag, hown, -⟩ :=
        resizeStorage_spec hb hc hf hfits hcells' hnew l.length
      obtain ⟨tail', ho, -⟩ := hown (by omega)
      refine ⟨h', a', tail', ?_, ?_, hag⟩
      · simp only [shrink, hsub, hu3, hu2, capacity_eq hb hfits, ok_bind, if_pos hcap, ← hN,
          if_pos hT, hres]
      · rwa [drop_of_length_le (show l.length ≤ pos + amount by omega), append_nil]
    · have hv : Holds T others h ⟨some a, l.length⟩ l := .stored tail hb hc hf hfits hcells
      obtain ⟨h', a', hreal, ho, hag⟩ := reallocate_spec hv newCapacity pos pos (pos + amount)
        (n - pos) hnew (by omega) (by omega) le_rfl (by omega)
      have hdrop : (l.drop (pos + amount)).take (n - pos) = l.drop (pos + amount) :=
        take_of_length_le (by simp; omega)
      rw [hdrop, Nat.sub_self, replicate_zero, nil_append, ← append_assoc] at ho
      refine ⟨h', a', _, ?_, ho, hag⟩
      simp only [shrink, hsub, hu3, hu2, hsum, hrest, capacity_eq hb hfits, ok_bind, if_pos hcap,
        ← hN, if_neg hT, hreal]
  · -- in place
    obtain ⟨h₁, a', tail₁, hedit, ho₁, -, hag₁, -⟩ := editArrayImpl_spec hb hc hf hfits hcells
    have hp : (l.take pos).length = pos := by
      simp
      omega
    have hg : ((l.drop pos).take amount).length = amount := by
      simp
      omega
    have hq : (l.drop (pos + amount)).length = n - pos := by
      simp
      omega
    have hsplit : l ++ tail₁ =
        l.take pos ++ ((l.drop pos).take amount ++ (l.drop (pos + amount) ++ tail₁)) := by
      rw [← append_assoc (take amount _), ← drop_drop, take_append_drop,
        ← append_assoc, take_append_drop]
    rw [hsplit] at ho₁
    obtain ⟨h₂, g, hdestroy, ho₂, hlen₂, hag₂⟩ := ho₁.doDestroy
    rw [hp, hg] at hdestroy
    rw [hg] at hlen₂
    by_cases hend : pos = n
    · have hnil : l.drop (pos + amount) = [] := drop_of_length_le (by omega)
      refine ⟨h₂, a', g ++ tail₁, ?_, ?_, hag₁.trans hag₂⟩
      · simp only [shrink, hsub, hu3, capacity_eq hb hfits, ok_bind, if_neg hcap, hedit, hend,
          ne_eq, not_true_eq_false, if_false]
        simp only [← hend, hdestroy, ok_bind]
      · rw [hnil, nil_append] at ho₂
        rwa [hnil, append_nil]
    · have hT : g ≠ [] ∨ keepsSource T = true := by
        rcases hzero with h0 | h0 | h0 | h0
        · refine Or.inl fun hnil => h0 ?_
          rw [← hlen₂, hnil, length_nil]
        · exact absurd (show pos = n by omega) hend
        · exact Or.inr h0
        · exact absurd h0 hcap
      obtain ⟨gap, hmove, hgap⟩ := moved_down (l.take pos) g (l.drop (pos + amount)) tail₁ hT
      rw [hp, hq, hlen₂] at hmove
      obtain ⟨h₃, hdo, ho₃, hag₃⟩ := ho₂.doMove (backwardLoop T) pos (pos + amount)
        (n - pos) (by simp; omega) (by simp; omega) hmove (by simp; omega)
      refine ⟨h₃, a', gap ++ tail₁, ?_, ?_, (hag₁.trans hag₂).trans hag₃⟩
      · simp only [shrink, hsub, hu3, hsum, hrest, capacity_eq hb hfits, ok_bind, if_neg hcap,
          hedit, hdestroy, ne_eq, hend, not_false_eq_true, if_true, doMoveBackward, hdo]
      · rwa [append_assoc]

end

end VectorImpl
