/-
What calls do to the items of a vector.

Each function of the interface of `VectorImpl` does to the items what a plain list operation
does, without a change to what other owners of buffers see.  The list operations are
`insertList`, `removeList`, `List.set`, `List.take` and `sortList`; the theorems are
`insertArrayAt_holds`, `insertAt_holds`, `replaceAt_holds`, `removeItemsAt_holds`,
`resize_holds`, `setCapacity_holds`, `clear_holds` and `sort_holds`.

They say under which conditions: sizes must fit, no items may be inserted or removed
"none at a time" where items would be moved onto themselves, and a prototype must not be
moved or freed before it is copied (`ItemReadable`).
-/
import AndroidSystem.VectorStorage
import Mathlib.Data.List.DropRight
import Mathlib.Data.List.Sort

open CInt CountedHeap SharedBuffer List

namespace VectorImpl

variable {α : Type} {T : ItemType α} {others : List (Option ℕ)} {h : Heap (Option α)}
  {v : VectorImpl} {l : List (Option α)}

/-! ### Plain lists -/

/-- `xs` inserted at `index`; nothing changes if that is past the end. -/
def insertList {β : Type} (l : List β) (index : ℕ) (xs : List β) : List β :=
  if index ≤ l.length then l.take index ++ (xs ++ l.drop index) else l

/-- `count` items removed at `index`, if there are as many. -/
def removeList {β : Type} (l : List β) (index count : ℕ) : List β :=
  if index + count ≤ l.length then l.take index ++ l.drop (index + count) else l

/-- `x` put behind the last item that is not greater. -/
def insertSorted {β : Type} (cmp : β → β → ℤ) (l : List β) (x : β) : List β :=
  l.rdropWhile (fun y => 0 < cmp y x) ++ x :: l.rtakeWhile (fun y => 0 < cmp y x)

/-- Insertion sort, which is stable. -/
def sortList {β : Type} (cmp : β → β → ℤ) (l : List β) : List β := l.foldl (insertSorted cmp) []

/-! ### Insertion -/

variable {gap : List (Option α)} {numItems : ℕ} {pos a : ℕ} {xs : List (Option α)} {x : Option α}
  {n index : ℕ} {src : Source (Option α)} {tail : List (Option α)}

/-- The ways `_grow` ends: there is a gap for the new items, or there are none and no place. -/
theorem grow_holds {amount : ℕ} (hv : Holds T others h v l) (hpos : pos ≤ l.length)
    (hgrow : GrowFits T h v amount) (hzero : amount ≠ 0 ∨ l.length ≤ pos ∨ keepsSource T = true) :
    ∃ h' v' loc, grow T h v pos amount = .ok (h', v', loc) ∧ Agree h h' others ∧
      ((amount = 0 ∧ loc = none ∧ Holds T others h' v' l) ∨
        ∃ a' gap tail', loc = some (a', pos) ∧ v' = ⟨some a', l.length + amount⟩ ∧
          Owned T others h' a' (l.take pos ++ (gap ++ (l.drop pos ++ tail'))) ∧
          gap.length = amount) := by
  cases hv with
  | empty hc hf =>
    obtain rfl : pos = 0 := by simpa using hpos
    have hv : Holds T others h ⟨none, 0⟩ [] := .empty hc hf
    rcases Nat.eq_zero_or_pos amount with rfl | hamount
    · exact ⟨h, ⟨none, 0⟩, none, rfl, Agree.refl h others, Or.inl ⟨rfl, rfl, hv⟩⟩
    · obtain ⟨hsum, hbig⟩ := hgrow
      have hcap : cap T h ⟨none, 0⟩ = 0 := rfl
      simp only [hcap, Nat.zero_add] at hsum hbig
      obtain ⟨h3, hnew⟩ := hbig hamount
      have hu : u32 (0 + amount) = amount := by rw [Nat.zero_add, u32_of_lt hsum]
      have hu3 : u32 (u32 (amount * 3) + 1) = amount * 3 + 1 := by
        rw [u32_of_lt (show amount * 3 < 2 ^ 32 by omega), u32_of_lt h3]
      obtain ⟨h', a', hreal, ho, hag⟩ := reallocate_spec hv
        (max kMinVectorCapacity ((amount * 3 + 1) / 2)) 0 (0 + amount) 0 (0 - 0) hnew
        (Nat.zero_le _) (Nat.zero_le _) (Nat.zero_le _) (by omega)
      have hloc : itemLocation T h' ⟨some a', amount⟩ 0 = .ok (some (a', 0)) := by
        rw [itemLocation_eq ho, if_pos (by simp; omega)]
      refine ⟨h', ⟨some a', amount⟩, some (a', 0), ?_, hag,
        Or.inr ⟨a', _, _, rfl, by simp, ho, by simp⟩⟩
      simp only [grow, capacity, ok_bind, hu, if_pos hamount, hu3, hreal, hloc]
  | stored tail hb hc hf hfits hcells =>
    obtain ⟨h', a', gap, tail', hg, ho, hgap, hag, -⟩ :=
      grow_spec hb hc hf hfits hcells hpos hgrow
        (hzero.imp_right (Or.imp_left fun hle => le_antisymm hpos hle))
    refine ⟨h', _, _, hg, hag, ?_⟩
    split_ifs with hroom
    · exact Or.inr ⟨a', gap, tail', rfl, rfl, ho, hgap⟩
    · -- no room at all, so nothing was inserted
      have h0 : amount = 0 := by omega
      subst h0
      obtain rfl : gap = [] := eq_nil_of_length_eq_zero hgap
      rw [nil_append, ← append_assoc, take_append_drop] at ho
      exact Or.inl ⟨rfl, rfl, ho.holds⟩

section

variable (hpos : pos ≤ l.length)
include hpos

theorem insertList_eq (xs tail : List (Option α)) :
    l.take pos ++ (xs ++ (l.drop pos ++ tail)) = insertList l pos xs ++ tail := by
  rw [insertList, if_pos hpos]
  simp

/-- Writing over the gap. -/
theorem overwrite_gap (hlen : xs.length = gap.length)
    (tail : List (Option α)) :
    overwrite (l.take pos ++ (gap ++ (l.drop pos ++ tail))) pos xs =
      insertList l pos xs ++ tail := by
  have hp : (l.take pos).length = pos := by simpa using hpos
  have heq := overwrite_append (l.take pos) gap (l.drop pos ++ tail) xs hlen
  rw [hp] at heq
  rw [heq, insertList_eq hpos]

/-- A buffer with the new items in it. -/
theorem Owned.inserted
    (ho : Owned T others h a (insertList l pos xs ++ tail)) (hlen : xs.length = n) :
    Holds T others h ⟨some a, l.length + n⟩ (insertList l pos xs) := by
  have hcount : (insertList l pos xs).length = l.length + n := by
    rw [insertList, if_pos hpos]
    simp [hlen]
    omega
  exact hcount ▸ ho.holds

/-- What is written to the gap is inserted. -/
theorem Owned.fill
    (ho : Owned T others h a (l.take pos ++ (gap ++ (l.drop pos ++ tail))))
    (hlen : xs.length = gap.length) :
    ∃ h', h.store a pos xs = .ok h' ∧ Agree h h' others ∧
      Holds T others h' ⟨some a, l.length + gap.length⟩ (insertList l pos xs) := by
  have hle : pos + xs.length ≤ (l.take pos ++ (gap ++ (l.drop pos ++ tail))).length := by
    rw [length_grown hpos rfl, hlen]
    omega
  obtain ⟨h', hstore, ho', hag⟩ := ho.store hle
  rw [overwrite_gap hpos hlen] at ho'
  exact ⟨h', hstore, hag, Owned.inserted hpos ho' hlen⟩

end

theorem insertList_nil (l : List (Option α)) (index : ℕ) : insertList l index [] = l := by
  rw [insertList]
  split_ifs <;> simp

theorem Holds.not_count_lt (hv : Holds T others h v l) (hn : n ≤ l.length) :
    ¬ v.mCount < n := by
  rw [hv.mCount]
  omega

theorem Holds.count_lt (hv : Holds T others h v l) (hn : ¬ n ≤ l.length) :
    v.mCount < n := by
  rw [hv.mCount]
  omega

/-- **`insertArrayAt`** inserts the items of an array that is not in the vector. -/
theorem insertArrayAt_holds {array : Source (Option α)} {length : ℕ} (hv : Holds T others h v l)
    (hr : Readable others h length xs array) (hgrow : index ≤ l.length → GrowFits T h v length)
    (hzero : length ≠ 0 ∨ l.length ≤ index ∨ keepsSource T = true) :
    ∃ h' v' r, insertArrayAt T h v array index length = .ok (h', v', r) ∧
      Holds T others h' v' (insertList l index xs) ∧ Agree h h' others := by
  by_cases hpos : index ≤ l.length
  · have hnlt := hv.not_count_lt hpos
    obtain ⟨h₁, v₁, loc, hg, hag, hend⟩ := grow_holds hv hpos (hgrow hpos) hzero
    rcases hend with ⟨rfl, rfl, hv₁⟩ | ⟨a, gap, tail, rfl, rfl, ho, hgap⟩
    · obtain rfl : xs = [] := eq_nil_of_length_eq_zero hr.length
      rw [insertList_nil]
      refine ⟨h₁, v₁, noMemory, ?_, hv₁, hag⟩
      simp only [insertArrayAt, if_neg hnlt, hg, ok_bind]
    · subst hgap
      have hle : index + gap.length ≤
          (l.take index ++ (gap ++ (l.drop index ++ tail))).length := by
        rw [length_grown hpos rfl]
        omega
      obtain ⟨h₂, hcopy, ho₂, hag₂⟩ := ho.memcpy (hr.agree hag) hle
      rw [overwrite_gap hpos hr.length] at ho₂
      refine ⟨h₂, ⟨some a, l.length + gap.length⟩, index, ?_, ?_, hag.trans hag₂⟩
      · simp only [insertArrayAt, if_neg hnlt, hg, ok_bind, hcopy]
      · exact Owned.inserted hpos ho₂ hr.length
  · have hlt := hv.count_lt hpos
    refine ⟨h, v, badIndex, ?_, ?_, Agree.refl h others⟩
    · rw [insertArrayAt, if_pos hlt]
    · rwa [insertList, if_neg hpos]

/-- An item can be read where it will be looked for: it is not in the vector, or in a part of it
that stays where it is. -/
def ItemReadable (T : ItemType α) (others : List (Option ℕ)) (h : Heap (Option α)) (v : VectorImpl)
    (index numItems : ℕ) (x : Option α) (src : Source (Option α)) : Prop :=
  Readable others h 1 [x] src ∨
    ∃ a k b, src = .inside a k ∧ v.mStorage = some a ∧ h.get a = some b ∧ b.refs = 1 ∧
      k < v.mCount ∧ b.cells[k]? = some x ∧
      (numItems = 0 ∨ (v.mCount + numItems ≤ b.cells.length ∧
        (k < index ∨ (keepsSource T = true ∧ k < index + numItems))))

theorem doSplat_eq {i : ℕ} (hn : n ≠ 0) (hread : src.read h 1 = .ok [x]) :
    doSplat h a i src n = h.store a i (replicate n x) := by
  cases n with
  | zero => exact absurd rfl hn
  | succ n => simp only [doSplat, hread, ok_bind, headD_cons]

theorem read_one {k : ℕ} {b : Block (Option α)} (hb : h.get a = some b)
    (hx : b.cells[k]? = some x) : (Source.inside a k).read h 1 = .ok [x] := by
  obtain ⟨hlt, rfl⟩ := List.getElem?_eq_some_iff.mp hx
  rw [Source.read, Heap.load_eq hb (by omega), take_one_drop_eq_of_lt_length hlt]
  rfl

/-- The item is still there when there is room for its copies. -/
theorem ItemReadable.read_grown (hr : ItemReadable T others h v index numItems x src)
    (hv : Holds T others h v l) (hpos : index ≤ l.length) (hgrow : GrowFits T h v numItems)
    (hn : numItems ≠ 0) :
    ∃ h' a gap tail, grow T h v index numItems =
        .ok (h', ⟨some a, l.length + numItems⟩, some (a, index)) ∧ Agree h h' others ∧
      Owned T others h' a (l.take index ++ (gap ++ (l.drop index ++ tail))) ∧
      gap.length = numItems ∧ src.read h' 1 = .ok [x] := by
  rcases hr with hr | ⟨a, k, b, rfl, ha, hb, h1, hk, hx, hkeep⟩
  · obtain ⟨h', v', loc, hg, hag, hend⟩ := grow_holds hv hpos hgrow (Or.inl hn)
    rcases hend with ⟨h0, -⟩ | ⟨a, gap, tail, rfl, rfl, ho, hgap⟩
    · exact absurd h0 hn
    · exact ⟨h', a, gap, tail, hg, hag, ho, hgap, (hr.agree hag).read⟩
  · obtain ⟨hroom, hk'⟩ := hkeep.resolve_left hn
    cases hv with
    | empty hc hf => cases ha
    | @stored a₀ b₀ l tail hb₀ hc hf hfits hcells =>
      cases ha
      obtain rfl : b₀ = b := Option.mem_unique hb₀ hb
      change k < l.length at hk
      change l.length + numItems ≤ b₀.cells.length at hroom
      have hxl : l[k]? = some x := by
        rwa [hcells, getElem?_append_left hk] at hx
      obtain ⟨h', a', gap, tail', hg, ho, hgap, hag, hsame⟩ :=
        grow_spec hb hc hf hfits hcells hpos hgrow (Or.inl hn)
      obtain ⟨rfl, hstale⟩ := hsame h1 hroom
      refine ⟨h', a', gap, tail', ?_, hag, ho, hgap, ?_⟩
      · rw [hg, if_pos (by omega)]
      · obtain ⟨b', hs', -, hcells'⟩ := ho.sole
        have hp : (l.take index).length = index := by simpa using hpos
        -- before the gap items stay; in the gap they are left behind
        have hget : b'.cells[k]? = some x := by
          rw [hcells']
          by_cases hlt : k < index
          · rw [getElem?_append_left (by omega), getElem?_take_of_lt hlt, hxl]
          · obtain ⟨hks, hlt'⟩ := hk'.resolve_left hlt
            rw [getElem?_append_right (by omega), hp,
              getElem?_append_left (by omega), hstale (Or.inr hks),
              getElem?_take_of_lt (by omega), getElem?_append_left (by simp; omega),
              getElem?_drop, Nat.add_sub_cancel' (by omega), hxl]
        exact read_one hs'.get hget

/-- **`insertAt`** inserts copies of an item. -/
theorem insertAt_holds (hv : Holds T others h v l)
    (hr : index ≤ l.length → ItemReadable T others h v index numItems x src)
    (hgrow : index ≤ l.length → GrowFits T h v numItems)
    (hzero : numItems ≠ 0 ∨ l.length ≤ index ∨ keepsSource T = true) :
    ∃ h' v' r, insertAt T h v (some src) index numItems = .ok (h', v', r) ∧
      Holds T others h' v' (insertList l index (replicate numItems x)) ∧
      Agree h h' others ∧ (index ≤ l.length → numItems ≠ 0 → r = index) := by
  by_cases hpos : index ≤ l.length
  · have hnlt := hv.not_count_lt hpos
    by_cases hn : numItems = 0
    · subst hn
      obtain ⟨h₁, v₁, loc, hg, hag, hend⟩ := grow_holds hv hpos (hgrow hpos) hzero
      rw [replicate_zero, insertList_nil]
      rcases hend with ⟨-, rfl, hv₁⟩ | ⟨a, gap, tail, rfl, rfl, ho, hgap⟩
      · refine ⟨h₁, v₁, noMemory, ?_, hv₁, hag, fun _ h0 => absurd rfl h0⟩
        simp only [insertAt, if_neg hnlt, hg, ok_bind]
      · obtain rfl : gap = [] := eq_nil_of_length_eq_zero hgap
        refine ⟨h₁, ⟨some a, l.length + 0⟩, index, ?_, ?_, hag, fun _ _ => rfl⟩
        · simp only [insertAt, if_neg hnlt, hg, ok_bind, doSplat]
        · rw [insertList_eq hpos, insertList_nil] at ho
          exact ho.holds
    · obtain ⟨h₁, a, gap, tail, hg, hag, ho, hgap, hread⟩ :=
        (hr hpos).read_grown hv hpos (hgrow hpos) hn
      obtain ⟨h₂, hstore, hag₂, hv₂⟩ :=
        ho.fill hpos (show (replicate numItems x).length = gap.length by simp [hgap])
      refine ⟨h₂, _, index, ?_, hgap ▸ hv₂, hag.trans hag₂, fun _ _ => rfl⟩
      simp only [insertAt, if_neg hnlt, hg, ok_bind, doSplat_eq hn hread, hstore]
  · have hlt := hv.count_lt hpos
    refine ⟨h, v, badIndex, ?_, ?_, Agree.refl h others, fun h => absurd h hpos⟩
    · rw [insertAt, if_pos hlt]
    · rwa [insertList, if_neg hpos]

/-- Items that are made without a prototype. -/
def Constructed (T : ItemType α) (n : ℕ) (xs : List (Option α)) : Prop :=
  xs.length = n ∧ (T.trivialCtor = false → xs = List.replicate n (some T.initial))

/-- **`insertAt`** without a prototype. -/
theorem insertAt_constructs (index numItems : ℕ) (hv : Holds T others h v l)
    (hgrow : index ≤ l.length → GrowFits T h v numItems)
    (hzero : numItems ≠ 0 ∨ l.length ≤ index ∨ keepsSource T = true) :
    ∃ h' v' r xs, insertAt T h v none index numItems = .ok (h', v', r) ∧
      Constructed T numItems xs ∧ Holds T others h' v' (insertList l index xs) ∧
      Agree h h' others := by
  by_cases hpos : index ≤ l.length
  · have hnlt := hv.not_count_lt hpos
    obtain ⟨h₁, v₁, loc, hg, hag, hend⟩ := grow_holds hv hpos (hgrow hpos) hzero
    rcases hend with ⟨rfl, rfl, hv₁⟩ | ⟨a, gap, tail, rfl, rfl, ho, hgap⟩
    · refine ⟨h₁, v₁, noMemory, [], ?_, ⟨rfl, fun _ => rfl⟩,
        (insertList_nil l index).symm ▸ hv₁, hag⟩
      simp only [insertAt, if_neg hnlt, hg, ok_bind]
    · by_cases hT : T.trivialCtor = true
      · rw [insertList_eq hpos] at ho
        refine ⟨h₁, ⟨some a, l.length + numItems⟩, index, gap, ?_,
          ⟨hgap, fun hf => by rw [hT] at hf; cases hf⟩, ho.inserted hpos hgap, hag⟩
        simp only [insertAt, if_neg hnlt, hg, ok_bind, doConstruct, if_pos hT]
      · obtain ⟨h₂, hstore, hag₂, hv₂⟩ := ho.fill hpos
          (show (replicate numItems (some T.initial)).length = gap.length by simp [hgap])
        refine ⟨h₂, _, index, _, ?_, ⟨by simp, fun _ => rfl⟩, hgap ▸ hv₂, hag.trans hag₂⟩
        simp only [insertAt, if_neg hnlt, hg, ok_bind, doConstruct, if_neg hT, hstore]
  · have hlt := hv.count_lt hpos
    refine ⟨h, v, badIndex, replicate numItems (some T.initial), ?_,
      ⟨by simp, fun _ => rfl⟩, ?_, Agree.refl h others⟩
    · rw [insertAt, if_pos hlt]
    · rwa [insertList, if_neg hpos]

/-! ### Storage alone

Items may be lost on the way, but not the cells they are in. -/

section Cells

variable {cells : List (Option α)}

theorem length_moveItem (d s : ℕ) : (moveItem T cells d s).length = cells.length := by
  rw [moveItem]
  split <;> simp

theorem length_forwardLoop (d s n : ℕ) : (forwardLoop T cells d s n).length = cells.length := by
  induction n generalizing cells with
  | zero => rfl
  | succ n ih => rw [forwardLoop, ih, length_moveItem]

theorem length_backwardLoop (d s n : ℕ) : (backwardLoop T cells d s n).length = cells.length := by
  induction n generalizing cells d s with
  | zero => rfl
  | succ n ih => rw [backwardLoop, ih, length_moveItem]

theorem holds_take (ho : Owned T others h a cells) (hn : n ≤ cells.length) :
    Holds T others h ⟨some a, n⟩ (cells.take n) := by
  rw [← take_append_drop n cells] at ho
  have hv := ho.holds
  rwa [length_take, min_eq_left hn] at hv

/-- A move within a buffer, whatever it does to the items. -/
theorem Owned.moves (ho : Owned T others h a cells)
    (loop : List (Option α) → ℕ → ℕ → ℕ → List (Option α)) (d s n : ℕ)
    (hloop : (loop cells d s n).length = cells.length) (hs : s + n ≤ cells.length)
    (hd : d + n ≤ cells.length) :
    ∃ h' cells', VectorImpl.doMove T loop h a d s n = .ok h' ∧ Owned T others h' a cells' ∧
      cells'.length = cells.length ∧ Agree h h' others := by
  have hlen : (if memmoves T then memmove cells d s n else loop cells d s n).length =
      cells.length := by
    split
    · exact length_overwrite (by simp; omega)
    · exact hloop
  obtain ⟨h', hmove, ho', hag⟩ := ho.doMove loop d s n hs hd rfl hlen
  exact ⟨h', _, hmove, ho', hlen, hag⟩

/-- `_grow` by nothing moves the items from `pos` on onto themselves. -/
theorem grow_zero (hv : Holds T others h v l) (hpos : pos < l.length) :
    ∃ h' a cells, grow T h v pos 0 = .ok (h', ⟨some a, l.length⟩, some (a, pos)) ∧
      Owned T others h' a cells ∧ l.length ≤ cells.length ∧ Agree h h' others := by
  cases hv with
  | empty hc hf => cases hpos
  | @stored a b l tail hb hc hf hfits hcells =>
    have hlen : l.length ≤ b.cells.length := by simp [hcells]
    have hu : u32 (l.length + 0) = l.length := u32_of_lt (hlen.trans_lt (length_lt hfits))
    obtain ⟨h₁, a', tail₁, hedit, ho₁, -, hag₁, -⟩ := editArrayImpl_spec hb hc hf hfits hcells
    obtain ⟨h₂, cells, hmove, ho₂, hlen₂, hag₂⟩ := ho₁.moves (forwardLoop T) (pos + 0) pos
      (l.length - pos) (length_forwardLoop _ _ _) (by simp; omega) (by simp; omega)
    rw [length_append] at hlen₂
    refine ⟨h₂, a', cells, ?_, ho₂, by omega, hag₁.trans hag₂⟩
    simp only [grow, hu, capacity_eq hb hfits, ok_bind, if_neg (not_lt.mpr hlen), hedit, ne_eq,
      hpos.ne, not_false_eq_true, if_true, doMoveForward, hmove, itemLocation_eq ho₂,
      if_pos (show pos < cells.length by omega)]

/-- **The cells that `_grow` gives**, whatever is in them. -/
theorem grow_owned {amount : ℕ} (hv : Holds T others h v l) (hpos : pos ≤ l.length)
    (hgrow : GrowFits T h v amount) :
    ∃ h' v' loc, grow T h v pos amount = .ok (h', v', loc) ∧ Agree h h' others ∧
      ((loc = none ∧ Holds T others h' v' l) ∨
        ∃ a' cells, loc = some (a', pos) ∧ v' = ⟨some a', l.length + amount⟩ ∧
          Owned T others h' a' cells ∧ l.length + amount ≤ cells.length) := by
  by_cases hzero : amount ≠ 0 ∨ l.length ≤ pos ∨ keepsSource T = true
  · obtain ⟨h', v', loc, hg, hag, hend⟩ := grow_holds hv hpos hgrow hzero
    refine ⟨h', v', loc, hg, hag, ?_⟩
    rcases hend with ⟨-, hloc, hv'⟩ | ⟨a', gap, tail, hloc, hv', ho, hgap⟩
    · exact Or.inl ⟨hloc, hv'⟩
    · refine Or.inr ⟨a', _, hloc, hv', ho, ?_⟩
      rw [length_grown hpos hgap]
      omega
  · push Not at hzero
    obtain ⟨rfl, hlt, -⟩ := hzero
    obtain ⟨h', a', cells, hg, ho, hle, hag⟩ := grow_zero hv hlt
    exact ⟨h', _, _, hg, hag, Or.inr ⟨a', cells, rfl, rfl, ho, hle⟩⟩

/-- The call comes to an end, and the vector has cells for its items. -/
def Stores (T : ItemType α) (others : List (Option ℕ)) (h : Heap (Option α))
    (result : Except Stop (Heap (Option α) × VectorImpl × ℤ)) : Prop :=
  ∃ h' v' r l', result = .ok (h', v', r) ∧ Holds T others h' v' l' ∧ Agree h h' others

theorem insertArrayAt_stores {array : Source (Option α)} {length : ℕ} (hv : Holds T others h v l)
    (hr : Readable others h length xs array) (hgrow : index ≤ l.length → GrowFits T h v length) :
    Stores T others h (insertArrayAt T h v array index length) := by
  by_cases hpos : index ≤ l.length
  · have hnlt := hv.not_count_lt hpos
    obtain ⟨h₁, v₁, loc, hg, hag, hend⟩ := grow_owned hv hpos (hgrow hpos)
    simp only [insertArrayAt, if_neg hnlt, hg, ok_bind]
    rcases hend with ⟨rfl, hv₁⟩ | ⟨a, cells, rfl, rfl, ho, hle⟩
    · exact ⟨h₁, v₁, noMemory, l, rfl, hv₁, hag⟩
    · have hfit : index + length ≤ cells.length := by omega
      obtain ⟨h₂, hcopy, ho₂, hag₂⟩ := ho.memcpy (hr.agree hag) hfit
      refine ⟨h₂, ⟨some a, l.length + length⟩, index, _, by simp only [hcopy, ok_bind],
        holds_take ho₂ ?_, hag.trans hag₂⟩
      rwa [length_overwrite (by rw [hr.length]; exact hfit)]
  · exact ⟨h, v, badIndex, l, if_pos (hv.count_lt hpos), hv, Agree.refl h others⟩

/-- A prototype can be read when there is room for its copies, whatever it is by then. -/
def ItemThere (others : List (Option ℕ)) (h : Heap (Option α)) (v : VectorImpl) (numItems : ℕ)
    (src : Source (Option α)) : Prop :=
  (∃ x, Readable others h 1 [x] src) ∨
    ∃ a k b, src = .inside a k ∧ v.mStorage = some a ∧ h.get a = some b ∧ b.refs = 1 ∧
      k < v.mCount ∧ v.mCount + numItems ≤ b.cells.length

theorem ItemThere.grow (hr : ItemThere others h v numItems src) (hv : Holds T others h v l)
    (hpos : index ≤ l.length) (hgrow : GrowFits T h v numItems) (hn : numItems ≠ 0) :
    ∃ h' a cells x, VectorImpl.grow T h v index numItems =
        .ok (h', ⟨some a, l.length + numItems⟩, some (a, index)) ∧ Agree h h' others ∧
      Owned T others h' a cells ∧ l.length + numItems ≤ cells.length ∧
      src.read h' 1 = .ok [x] := by
  rcases hr with ⟨x, hr⟩ | ⟨a, k, b, rfl, ha, hb, h1, hk, hroom⟩
  · obtain ⟨h', a, gap, tail, hg, hag, ho, hgap, hread⟩ :=
      ItemReadable.read_grown (T := T) (Or.inl hr) hv hpos hgrow hn
    refine ⟨h', a, _, x, hg, hag, ho, ?_, hread⟩
    rw [length_grown hpos hgap]
    omega
  · cases hv with
    | empty hc hf => cases ha
    | @stored a₀ b₀ l tail hb₀ hc hf hfits hcells =>
      cases ha
      obtain rfl : b₀ = b := Option.mem_unique hb₀ hb
      change k < l.length at hk
      obtain ⟨h', a', gap, tail', hg, ho, hgap, hag, hsame⟩ :=
        grow_spec hb hc hf hfits hcells hpos hgrow (Or.inl hn)
      obtain ⟨rfl, -⟩ := hsame h1 hroom
      have hlen : (l.take index ++ (gap ++ (l.drop index ++ tail'))).length =
          l.length + numItems + tail'.length := length_grown hpos hgap
      obtain ⟨b', hs', -, hcells'⟩ := ho.sole
      have hlt : k < b'.cells.length := by
        rw [hcells', hlen]
        omega
      exact ⟨h', a', _, b'.cells[k], by rw [hg, if_pos (by omega)], hag, ho, by omega,
        read_one hs'.get (getElem?_eq_getElem hlt)⟩

theorem insertAt_stores (hv : Holds T others h v l)
    (hr : index ≤ l.length → numItems ≠ 0 → ItemThere others h v numItems src)
    (hgrow : index ≤ l.length → GrowFits T h v numItems) :
    Stores T others h (insertAt T h v (some src) index numItems) := by
  by_cases hpos : index ≤ l.length
  · have hnlt := hv.not_count_lt hpos
    by_cases hn : numItems = 0
    · subst hn
      obtain ⟨h₁, v₁, loc, hg, hag, hend⟩ := grow_owned hv hpos (hgrow hpos)
      simp only [insertAt, if_neg hnlt, hg, ok_bind]
      rcases hend with ⟨rfl, hv₁⟩ | ⟨a, cells, rfl, rfl, ho, hle⟩
      · exact ⟨h₁, v₁, noMemory, l, rfl, hv₁, hag⟩
      · exact ⟨h₁, _, index, _, rfl, holds_take ho hle, hag⟩
    · obtain ⟨h₁, a, cells, x, hg, hag, ho, hle, hread⟩ :=
        (hr hpos hn).grow hv hpos (hgrow hpos) hn
      have hfit : index + (replicate numItems x).length ≤ cells.length := by
        rw [length_replicate]
        omega
      obtain ⟨h₂, hstore, ho₂, hag₂⟩ := ho.store hfit
      refine ⟨h₂, ⟨some a, l.length + numItems⟩, index, _, ?_, holds_take ho₂ ?_,
        hag.trans hag₂⟩
      · simp only [insertAt, if_neg hnlt, hg, ok_bind, doSplat_eq hn hread, hstore]
      · rwa [length_overwrite hfit]
  · exact ⟨h, v, badIndex, l, if_pos (hv.count_lt hpos), hv, Agree.refl h others⟩

theorem insertAt_none_stores (hv : Holds T others h v l)
    (hgrow : index ≤ l.length → GrowFits T h v numItems) :
    Stores T others h (insertAt T h v none index numItems) := by
  by_cases hpos : index ≤ l.length
  · have hnlt := hv.not_count_lt hpos
    obtain ⟨h₁, v₁, loc, hg, hag, hend⟩ := grow_owned hv hpos (hgrow hpos)
    simp only [insertAt, if_neg hnlt, hg, ok_bind]
    rcases hend with ⟨rfl, hv₁⟩ | ⟨a, cells, rfl, rfl, ho, hle⟩
    · exact ⟨h₁, v₁, noMemory, l, rfl, hv₁, hag⟩
    · by_cases hT : T.trivialCtor = true
      · exact ⟨h₁, _, index, _, by simp only [doConstruct, if_pos hT, ok_bind], holds_take ho hle,
          hag⟩
      · have hfit : index + (replicate numItems (some T.initial)).length ≤ cells.length := by
          rw [length_replicate]
          omega
        obtain ⟨h₂, hstore, ho₂, hag₂⟩ := ho.store hfit
        refine ⟨h₂, ⟨some a, l.length + numItems⟩, index, _,
          by simp only [doConstruct, if_neg hT, hstore, ok_bind], holds_take ho₂ ?_,
          hag.trans hag₂⟩
        rwa [length_overwrite hfit]
  · exact ⟨h, v, badIndex, l, if_pos (hv.count_lt hpos), hv, Agree.refl h others⟩

end Cells

/-! ### Removal and capacity -/

/-- **`_shrink`**, with or without storage. -/
theorem shrink_holds (pos amount : ℕ) (hv : Holds T others h v l) (hpos : pos + amount ≤ l.length)
    (hfits : ShrinkFits T h v amount)
    (hzero : amount ≠ 0 ∨ pos = l.length ∨ keepsSource T = true ∨
      (l.length - amount) * 3 < cap T h v) :
    ∃ h' v', shrink T h v pos amount = .ok (h', v') ∧
      Holds T others h' v' (l.take pos ++ l.drop (pos + amount)) ∧ Agree h h' others := by
  cases hv with
  | empty hc hf =>
    refine ⟨h, ⟨none, 0⟩, rfl, ?_, Agree.refl h others⟩
    rw [take_nil, drop_nil]
    exact .empty hc hf
  | stored tail hb hc hf hfit hcells =>
    rw [cap_eq hb hfit] at hzero
    obtain ⟨h', a', tail', hs, ho, hag⟩ := shrink_spec hb hc hf hfit hcells hpos hfits hzero
    refine ⟨h', _, hs, ?_, hag⟩
    have hcount : (l.take pos ++ l.drop (pos + amount)).length = l.length - amount := by
      simp
      omega
    exact hcount ▸ ho.holds

theorem removeItemsAt_holds (index count : ℕ) (hv : Holds T others h v l)
    (hsum : index + count < 2 ^ 32) (hfits : index + count ≤ l.length → ShrinkFits T h v count)
    (hzero : count ≠ 0 ∨ l.length ≤ index ∨ keepsSource T = true ∨ l.length * 3 < cap T h v) :
    ∃ h' v' r, removeItemsAt T h v index count = .ok (h', v', r) ∧
      Holds T others h' v' (removeList l index count) ∧ Agree h h' others := by
  have hu : u32 (index + count) = index + count := u32_of_lt hsum
  by_cases hle : index + count ≤ l.length
  · have hnlt := hv.not_count_lt hle
    have hzero' : count ≠ 0 ∨ index = l.length ∨ keepsSource T = true ∨
        (l.length - count) * 3 < cap T h v := by
      refine hzero.imp_right (Or.imp (fun hle' => le_antisymm (by omega) hle') (Or.imp_right ?_))
      omega
    obtain ⟨h', v', hs, hv', hag⟩ := shrink_holds index count hv hle (hfits hle) hzero'
    refine ⟨h', v', index, ?_, ?_, hag⟩
    · simp only [removeItemsAt, hu, if_neg hnlt, hs, ok_bind]
    · rwa [removeList, if_pos hle]
  · have hlt := hv.count_lt hle
    refine ⟨h, v, badValue, ?_, ?_, Agree.refl h others⟩
    · rw [removeItemsAt, hu, if_pos hlt]
    · rwa [removeList, if_neg hle]

/-- `_shrink` by nothing, in place, moves the items from `pos` on onto themselves. -/
theorem shrink_zero (hv : Holds T others h v l) (hpos : pos < l.length)
    (hfits : ShrinkFits T h v 0) (hcap : ¬ l.length * 3 < cap T h v) :
    ∃ h' v' l', shrink T h v pos 0 = .ok (h', v') ∧ Holds T others h' v' l' ∧
      Agree h h' others := by
  cases hv with
  | empty hc hf => cases hpos
  | @stored a b l tail hb hc hf hfit hcells =>
    have hlt : l.length < 2 ^ 32 := by
      have := length_lt hfit
      rw [hcells, length_append] at this
      omega
    have h3 : l.length * 3 < 2 ^ 32 := hfits.1
    rw [cap_eq hb hfit] at hcap
    obtain ⟨h₁, a', tail₁, hedit, ho₁, -, hag₁, -⟩ := editArrayImpl_spec hb hc hf hfit hcells
    have hsplit : l ++ tail₁ = l.take pos ++ ([] ++ (l.drop pos ++ tail₁)) := by
      rw [nil_append, ← append_assoc, take_append_drop]
    have hp : (l.take pos).length = pos := by
      simp
      omega
    rw [hsplit] at ho₁
    obtain ⟨h₂, m, hdestroy, ho₂, hm, hag₂⟩ := ho₁.doDestroy
    rw [hp] at hdestroy
    obtain rfl : m = [] := eq_nil_of_length_eq_zero hm
    rw [← hsplit] at ho₂
    obtain ⟨h₃, cells, hmove, ho₃, hlen₃, hag₃⟩ := ho₂.moves (backwardLoop T) pos pos
      (l.length - pos) (length_backwardLoop _ _ _) (by simp; omega)
      (by simp; omega)
    rw [length_append] at hlen₃
    refine ⟨h₃, ⟨some a', l.length⟩, _, ?_, holds_take ho₃ (by omega),
      (hag₁.trans hag₂).trans hag₃⟩
    have hsub : usub l.length 0 = l.length := usub_of_le (Nat.zero_le _) hlt
    have hrest : usub l.length pos = l.length - pos := usub_of_le hpos.le hlt
    simp only [shrink, hsub, u32_of_lt h3, capacity_eq hb hfit, ok_bind, if_neg hcap, hedit,
      length_nil] at hdestroy ⊢
    simp only [hdestroy, ok_bind, ne_eq, hpos.ne, not_false_eq_true, if_true, doMoveBackward,
      Nat.add_zero, u32_of_lt (hpos.trans hlt), hrest, hmove]

theorem removeItemsAt_stores (index count : ℕ) (hv : Holds T others h v l)
    (hsum : index + count < 2 ^ 32)
    (hfits : index + count ≤ l.length → ShrinkFits T h v count) :
    Stores T others h (removeItemsAt T h v index count) := by
  by_cases hzero : count ≠ 0 ∨ l.length ≤ index ∨ keepsSource T = true ∨
      l.length * 3 < cap T h v
  · obtain ⟨h', v', r, hrem, hv', hag⟩ := removeItemsAt_holds index count hv hsum hfits hzero
    exact ⟨h', v', r, _, hrem, hv', hag⟩
  · push Not at hzero
    obtain ⟨rfl, hlt, -, hcap⟩ := hzero
    obtain ⟨h', v', l', hs, hv', hag⟩ := shrink_zero hv hlt (hfits (by omega)) (not_lt.mpr hcap)
    refine ⟨h', v', index, l', ?_, hv', hag⟩
    rw [removeItemsAt, u32_of_lt hsum, if_neg (hv.not_count_lt (by omega)), hs]
    rfl

theorem clear_holds (hv : Holds T others h v l) (hfits : ShrinkFits T h v v.mCount) :
    ∃ h' v', clear T h v = .ok (h', v') ∧ Holds T others h' v' [] ∧ Agree h h' others := by
  have hcount := hv.mCount
  have hzero : v.mCount ≠ 0 ∨ 0 = l.length ∨ keepsSource T = true ∨
      (l.length - v.mCount) * 3 < cap T h v := by
    omega
  obtain ⟨h', v', hs, hv', hag⟩ := shrink_holds 0 v.mCount hv (by omega) hfits hzero
  refine ⟨h', v', hs, ?_, hag⟩
  rwa [take_zero, nil_append, Nat.zero_add, hcount, drop_length] at hv'

/-- The sizes that `resize` computes fit a `size_t`. -/
def ResizeFits (T : ItemType α) (h : Heap (Option α)) (v : VectorImpl) (size : ℕ) : Prop :=
  (v.mCount < size → GrowFits T h v (size - v.mCount)) ∧
    (size < v.mCount → ShrinkFits T h v (v.mCount - size))

/-- **`resize`** cuts items off, or constructs new ones at the end. -/
theorem resize_holds {size : ℕ} (hv : Holds T others h v l) (hfits : ResizeFits T h v size) :
    ∃ h' v' r xs, resize T h v size = .ok (h', v', r) ∧ Constructed T (size - l.length) xs ∧
      Holds T others h' v' (l.take size ++ xs) ∧ Agree h h' others := by
  have hcount := hv.mCount
  have hlen := hv.length_lt
  obtain ⟨hgrow, hshrink⟩ := hfits
  rcases lt_trichotomy v.mCount size with hlt | heq | hgt
  · obtain ⟨h', v', r, xs, hi, hxs, hv', hag⟩ :=
      insertAt_constructs v.mCount (size - v.mCount) hv (fun _ => hgrow hlt) (Or.inl (by omega))
    refine ⟨h', v', if r < 0 then r else size, xs, ?_, hcount ▸ hxs, ?_, hag⟩
    · simp only [resize, if_pos hlt, hi, ok_bind]
    · rw [insertList, if_pos hcount.le, hcount, take_length, drop_length,
        append_nil] at hv'
      rwa [take_of_length_le (by omega)]
  · refine ⟨h, v, size, [], ?_, ⟨by simp; omega, fun _ => by simp [← heq, hcount]⟩, ?_,
      Agree.refl h others⟩
    · simp only [resize, if_neg (show ¬ v.mCount < size by omega),
        if_neg (show ¬ size < v.mCount by omega), ok_bind]
      rfl
    · rwa [take_of_length_le (by omega), append_nil]
  · obtain ⟨h', v', r, hr, hv', hag⟩ := removeItemsAt_holds size (v.mCount - size) hv
      (by omega) (fun _ => hshrink hgt) (Or.inl (by omega))
    refine ⟨h', v', if r < 0 then r else size, [], ?_, ⟨by simp; omega, fun _ => ?_⟩, ?_, hag⟩
    · simp only [resize, if_neg (show ¬ v.mCount < size by omega), if_pos hgt, hr, ok_bind]
    · rw [show size - l.length = 0 by omega]
      rfl
    · rw [removeList, if_pos (by omega), drop_of_length_le (by omega)] at hv'
      exact hv'

/-- The size that `setCapacity` computes, if it comes to that, fits its type. -/
def CapacityFits (T : ItemType α) (v : VectorImpl) (newCapacity : ℕ) : Prop :=
  0 < s32 (newCapacity - v.mCount) → headerSize + newCapacity * T.itemSize < 2 ^ 32

/-- **`setCapacity`** changes no item. -/
theorem setCapacity_holds {newCapacity : ℕ} (hv : Holds T others h v l)
    (hfits : CapacityFits T v newCapacity) (hneg : v.mCount ≤ newCapacity + 2 ^ 31) :
    ∃ h' v' r, setCapacity T h v newCapacity = .ok (h', v', r) ∧
      Holds T others h' v' l ∧ Agree h h' others := by
  have hcap : ∃ n, capacity T h v = .ok n := by
    cases hv with
    | empty hc hf => exact ⟨0, rfl⟩
    | stored tail hb hc hf hfit hcells => exact ⟨_, capacity_eq hb hfit⟩
  obtain ⟨n, hcap⟩ := hcap
  by_cases hs : s32 (newCapacity - v.mCount) ≤ 0
  · refine ⟨h, v, n, ?_, hv, Agree.refl h others⟩
    simp only [setCapacity, hcap, ok_bind, if_pos hs]
  · have hlt : v.mCount < newCapacity := by
      by_contra hle
      refine hs ?_
      rw [s32_of_range (by omega) (by omega)]
      omega
    have hbig := hfits (not_le.mp hs)
    have hcount := hv.mCount
    obtain ⟨h', a', hreal, ho, hag⟩ := reallocate_spec hv newCapacity v.mCount v.mCount v.mCount 0
      hbig hcount.le hcount.le le_rfl (by omega)
    refine ⟨h', ⟨some a', v.mCount⟩, newCapacity, ?_, ?_, hag⟩
    · obtain ⟨h₁, a₁, halloc, -, -⟩ :=
        alloc_owned (T := T) hv.counted hv.failing hbig
      simp only [reallocate, halloc, ok_bind, memcpy_zero] at hreal
      obtain ⟨h₂, hcopy, hreal⟩ := bind_eq_ok hreal
      obtain ⟨h₃, hrel, hreal⟩ := bind_eq_ok hreal
      cases hreal
      simp only [setCapacity, hcap, ok_bind, if_neg hs, halloc, hcopy, hrel]
    · rw [hcount, take_length] at ho
      exact hcount ▸ ho.holds

/-! ### Replacement -/

variable {y : Option α}

/-- An item can be read as long as the storage of the vector is not changed. -/
def PrototypeReadable (others : List (Option ℕ)) (h : Heap (Option α)) (v : VectorImpl)
    (x : Option α) (src : Source (Option α)) : Prop :=
  Readable others h 1 [x] src ∨
    ∃ a k b, src = .inside a k ∧ v.mStorage = some a ∧ h.get a = some b ∧ b.refs = 1 ∧
      k < v.mCount ∧ b.cells[k]? = some x

/-- An owned buffer gets another item. -/
theorem Owned.replaced (ho : Owned T others h a (l.set index y ++ tail)) (hx : index < l.length) :
    ∃ h', h.store a index [x] = .ok h' ∧ Owned T others h' a (l.set index x ++ tail) ∧
      Agree h h' others := by
  have hle : index + [x].length ≤ (l.set index y ++ tail).length := by
    simp
    omega
  obtain ⟨h', hstore, ho', hag⟩ := ho.store hle
  refine ⟨h', hstore, ?_, hag⟩
  have hover : overwrite (l.set index y ++ tail) index [x] = l.set index x ++ tail := by
    rw [overwrite_singleton (by simp; omega), set_append_left _ _ (by simpa using hx),
      set_set]
  rwa [hover] at ho'

/-- An item of an owned buffer is destroyed. -/
theorem Owned.destroyed (ho : Owned T others h a (l.set index y ++ tail)) (hx : index < l.length) :
    ∃ h' y', VectorImpl.doDestroy T h a index 1 = .ok h' ∧
      Owned T others h' a (l.set index y' ++ tail) ∧ Agree h h' others := by
  by_cases hT : T.trivialDtor = true
  · exact ⟨h, y, by rw [VectorImpl.doDestroy, if_pos hT], ho, Agree.refl h others⟩
  · obtain ⟨h', hstore, ho', hag⟩ := ho.replaced (x := none) hx
    exact ⟨h', none, by rw [VectorImpl.doDestroy, if_neg hT]; exact hstore, ho', hag⟩

/-- The storage before an item is replaced. -/
theorem replaceAt_start (hv : Holds T others h v l) (hx : index < l.length) :
    ∃ a b h₁ a₁ tail h₂ y, v = ⟨some a, l.length⟩ ∧ h.get a = some b ∧ index < b.cells.length ∧
      capacity T h v = .ok b.cells.length ∧ editArrayImpl T h v = .ok (h₁, ⟨some a₁, l.length⟩) ∧
      Owned T others h₁ a₁ (l ++ tail) ∧ Agree h h₁ others ∧
      VectorImpl.doDestroy T h₁ a₁ index 1 = .ok h₂ ∧
      Owned T others h₂ a₁ (l.set index y ++ tail) ∧ Agree h₁ h₂ others ∧
      (b.refs = 1 → h₁ = h ∧ a₁ = a) := by
  cases hv with
  | empty hc hf => exact absurd hx (Nat.not_lt_zero _)
  | @stored a b l tail hb hc hf hfits hcells =>
    obtain ⟨h₁, a₁, tail₁, hedit, ho₁, -, hag₁, hsame⟩ :=
      editArrayImpl_spec hb hc hf hfits hcells
    have hself : l.set index l[index] ++ tail₁ = l ++ tail₁ := by rw [set_getElem_self]
    obtain ⟨h₂, y, hd, ho₂, hag₂⟩ := Owned.destroyed (hself ▸ ho₁) hx
    refine ⟨a, b, h₁, a₁, tail₁, h₂, y, rfl, hb, ?_, capacity_eq hb hfits, hedit, ho₁, hag₁, hd,
      ho₂, hag₂, fun h1 => ⟨(hsame h1).1, (hsame h1).2.1⟩⟩
    rw [hcells, length_append]
    omega

/-- **`replaceAt`** replaces an item, also by another one of the vector. -/
theorem replaceAt_holds (hv : Holds T others h v l) (hr : PrototypeReadable others h v x src) :
    ∃ h' v' r, replaceAt T h v (some src) index = .ok (h', v', r) ∧
      Holds T others h' v' (l.set index x) ∧ Agree h h' others ∧
      (index < l.length → r = index) := by
  by_cases hx : index < l.length
  · obtain ⟨a, b, h₁, a₁, tail, h₂, y, rfl, hb, hroom, hcap, hedit, ho₁, hag₁, hd, ho₂, hag₂,
      hsame⟩ := replaceAt_start hv hx
    have hnle : ¬ l.length ≤ index := not_le.mpr hx
    obtain ⟨h₃, hstore, ho₃, hag₃⟩ := ho₂.replaced (x := x) hx
    have hv₃ : Holds T others h₃ ⟨some a₁, l.length⟩ (l.set index x) := by
      simpa using ho₃.holds
    have hag := (hag₁.trans hag₂).trans hag₃
    rcases hr with hr | ⟨a₀, k, b₀, rfl, ha₀, hb₀, h1, hk, hxk⟩
    · -- the prototype is not in the vector
      have hread := (hr.agree (hag₁.trans hag₂)).read
      refine ⟨h₃, _, index, ?_, hv₃, hag, fun _ => rfl⟩
      cases src with
      | outside items =>
        simp only [replaceAt, if_neg hnle, hcap, ok_bind, if_pos hroom, hedit, hd]
        simp only [memcpy, hread, ok_bind, hstore]
      | inside a' k =>
        obtain ⟨b₁, hs₁, -, -⟩ := ho₁.sole
        have hne : a' ≠ a₁ := fun heq => hs₁.counted.notMem hs₁.get hs₁.refs (heq ▸ hr.1)
        simp only [replaceAt, if_neg hnle, hcap, ok_bind, if_pos hroom, hedit, hd,
          if_neg fun h' : a' = a₁ ∧ k = index => hne h'.1]
        simp only [memcpy, if_neg fun h' : a' = a₁ ∧ k < index + 1 ∧ index < k + 1 => hne h'.1,
          hread, ok_bind, hstore]
    · -- it is an item of the vector
      cases ha₀
      obtain rfl : b = b₀ := Option.mem_unique hb hb₀
      obtain ⟨rfl, rfl⟩ := hsame h1
      change k < l.length at hk
      have hxl : l[k]? = some x := by
        obtain ⟨b₁, hs₁, -, hcells₁⟩ := ho₁.sole
        obtain rfl : b₁ = b := Option.mem_unique hs₁.get hb
        rwa [hcells₁, getElem?_append_left hk] at hxk
      by_cases hki : k = index
      · subst hki
        refine ⟨h₁, ⟨some a₁, l.length⟩, k, ?_, ?_, Agree.refl h₁ others, fun _ => rfl⟩
        · simp only [replaceAt, if_neg hnle, hcap, ok_bind, if_pos hroom, hedit, and_self, if_true]
        · have hself : l.set k x = l := by
            obtain ⟨hlt, rfl⟩ := List.getElem?_eq_some_iff.mp hxl
            exact set_getElem_self hlt
          rw [hself]
          exact ho₁.holds
      · have hread : (Source.inside a₁ k).read h₂ 1 = .ok [x] := by
          obtain ⟨b₂, hs₂, -, hcells₂⟩ := ho₂.sole
          have hget : b₂.cells[k]? = some x := by
            rw [hcells₂, getElem?_append_left (by simpa using hk),
              getElem?_set_ne (Ne.symm hki), hxl]
          exact read_one hs₂.get hget
        refine ⟨h₃, _, index, ?_, hv₃, hag, fun _ => rfl⟩
        have hno : ¬ (k < index + 1 ∧ index < k + 1) := by omega
        simp only [replaceAt, if_neg hnle, hcap, ok_bind, if_pos hroom, hedit, hd, true_and,
          if_neg hki, memcpy, if_neg hno, hread, hstore]
  · refine ⟨h, v, badIndex, ?_, ?_, Agree.refl h others, fun h => absurd h hx⟩
    · rw [replaceAt, if_pos (by rw [hv.mCount]; omega)]
    · rwa [set_eq_of_length_le (by omega)]

/-- **`replaceAt`** without a prototype. -/
theorem replaceAt_constructs (hv : Holds T others h v l) :
    ∃ h' v' r x, replaceAt T h v none index = .ok (h', v', r) ∧ Constructed T 1 [x] ∧
      Holds T others h' v' (l.set index x) ∧ Agree h h' others := by
  by_cases hx : index < l.length
  · obtain ⟨a, b, h₁, a₁, tail, h₂, y, rfl, -, hroom, hcap, hedit, -, hag₁, hd, ho₂, hag₂, -⟩ :=
      replaceAt_start hv hx
    have hnle : ¬ l.length ≤ index := not_le.mpr hx
    by_cases hT : T.trivialCtor = true
    · refine ⟨h₂, ⟨some a₁, l.length⟩, index, y, ?_,
        ⟨rfl, fun hf => by rw [hT] at hf; cases hf⟩, ?_, hag₁.trans hag₂⟩
      · simp only [replaceAt, if_neg hnle, hcap, ok_bind, if_pos hroom, hedit, hd, doConstruct,
          if_pos hT]
      · simpa using ho₂.holds
    · obtain ⟨h₃, hstore, ho₃, hag₃⟩ := ho₂.replaced (x := some T.initial) hx
      refine ⟨h₃, ⟨some a₁, l.length⟩, index, some T.initial, ?_, ⟨rfl, fun _ => rfl⟩, ?_,
        (hag₁.trans hag₂).trans hag₃⟩
      · simp only [replaceAt, if_neg hnle, hcap, ok_bind, if_pos hroom, hedit, hd, doConstruct,
          if_neg hT, replicate_one, hstore]
      · simpa using ho₃.holds
  · refine ⟨h, v, badIndex, some T.initial, ?_, ⟨rfl, fun _ => rfl⟩, ?_, Agree.refl h others⟩
    · rw [replaceAt, if_pos (by rw [hv.mCount]; omega)]
    · rwa [set_eq_of_length_le (by omega)]

/-! ### Sorting -/

section Sorting

variable {β : Type} {cmp : β → β → ℤ} {z : β}

theorem insertSorted_concat_of_lt {x : β} (hz : 0 < cmp z x) (p : List β) :
    insertSorted cmp (p ++ [z]) x = insertSorted cmp p x ++ [z] := by
  simp [insertSorted, hz]

theorem insertSorted_concat_of_not_lt {x : β} (hz : ¬ 0 < cmp z x) (p : List β) :
    insertSorted cmp (p ++ [z]) x = p ++ [z] ++ [x] := by
  simp [insertSorted, hz]

/-- The inner loop inserts `x`: the items that are greater have moved up by one. -/
theorem sortInner_eq (d x z : β) (p : List β) (hz : 0 < cmp z x) (y : β) (r : List β) :
    sortInner cmp x d p.length (p ++ z :: y :: r) = insertSorted cmp (p ++ [z]) x ++ r := by
  rw [insertSorted_concat_of_lt hz]
  induction p using reverseRecOn generalizing z y r with
  | nil => rfl
  | append_singleton p w ih =>
    have hlen : (p ++ [w]).length = p.length + 1 := by simp
    have hget : (p ++ [w] ++ z :: y :: r).getD (p.length + 1) d = z := by
      simp [getD_eq_getElem?_getD]
    have hset : (p ++ [w] ++ z :: y :: r).set (p.length + 2) z = p ++ w :: z :: z :: r := by
      simp
    have hget' : (p ++ w :: z :: z :: r).getD p.length d = w := by
      simp [getD_eq_getElem?_getD]
    rw [hlen, sortInner, hget, hset, hget']
    by_cases hw : 0 < cmp w x
    · rw [if_pos hw, ih w hw, insertSorted_concat_of_lt hw]
      simp
    · rw [if_neg hw, insertSorted_concat_of_not_lt hw]
      simp

theorem insertSorted_eq (cmp : β → β → ℤ) (l : List β) (x : β) :
    insertSorted cmp l x = (l.reverse.orderedInsert (fun x y => ¬ 0 < cmp y x) x).reverse := by
  rw [orderedInsert_eq_take_drop, insertSorted, rdropWhile, rtakeWhile]
  simp

theorem length_insertSorted (cmp : β → β → ℤ) (l : List β) (x : β) :
    (insertSorted cmp l x).length = l.length + 1 := by
  rw [insertSorted_eq, length_reverse, orderedInsert_length, length_reverse]

theorem sortList_concat (cmp : β → β → ℤ) (l : List β) (x : β) :
    sortList cmp (l ++ [x]) = insertSorted cmp (sortList cmp l) x := by
  rw [sortList, foldl_append]
  rfl

/-- The items are sorted from the last to the first, with all comparisons the other way. -/
theorem sortList_eq (cmp : β → β → ℤ) (l : List β) :
    sortList cmp l = (l.reverse.insertionSort fun x y => ¬ 0 < cmp y x).reverse := by
  induction l using reverseRecOn with
  | nil => rfl
  | append_singleton l x ih =>
    rw [sortList_concat, ih, insertSorted_eq, reverse_reverse, reverse_concat, insertionSort_cons]

theorem length_sortList (cmp : β → β → ℤ) (l : List β) : (sortList cmp l).length = l.length := by
  rw [sortList_eq, length_reverse, length_insertionSort, length_reverse]

end Sorting

theorem allocTemp_eq (hf : h.failing = []) : allocTemp h = (h, true) := by
  obtain ⟨blocks, failing⟩ := h
  subst hf
  rfl

variable {i : ℕ}

/-- Two neighbouring items are read. -/
theorem Holds.load_two {p r : List (Option α)} {z x : Option α}
    (hv : Holds T others h v (p ++ z :: x :: r)) (hi : p.length + 1 = i)
    (hn : (p ++ z :: x :: r).length = n) :
    ∃ a, v = ⟨some a, n⟩ ∧ h.load a (i - 1) 2 = .ok [z, x] := by
  subst hi hn
  generalize hl : p ++ z :: x :: r = l at hv
  cases hv with
  | empty hc hf => simp at hl
  | @stored a b l tail hb hc hf hfits hcells =>
    subst hl
    refine ⟨a, rfl, ?_⟩
    rw [Heap.load_eq hb (by rw [hcells]; simp), hcells]
    simp

/-- A vector with items gets storage of its own. -/
theorem Holds.edit {a : ℕ} (hv : Holds T others h ⟨some a, n⟩ l) :
    ∃ h' a' tail, editArrayImpl T h ⟨some a, n⟩ = .ok (h', ⟨some a', n⟩) ∧
      Owned T others h' a' (l ++ tail) ∧ Agree h h' others := by
  cases hv with
  | stored tail hb hc hf hfits hcells =>
    obtain ⟨h', a', tail', hed, ho, -, hag, -⟩ := editArrayImpl_spec hb hc hf hfits hcells
    exact ⟨h', a', tail', hed, ho, hag⟩

variable {cmp : Option α → Option α → ℤ}

/-- The outer loop: the first `i` items are sorted, the others are as they were. -/
theorem sortLoop_holds {l : List (Option α)} {edit : Bool} (hi : 1 ≤ i) (hn : i + n = l.length)
    (hv : Holds T others h v (sortList cmp (l.take i) ++ l.drop i))
    (hedit : edit = true → ∃ a tail, v = ⟨some a, l.length⟩ ∧
      Owned T others h a (sortList cmp (l.take i) ++ l.drop i ++ tail)) :
    ∃ h' v', sortLoop T cmp h v edit i n = .ok (h', v', 0) ∧
      Holds T others h' v' (sortList cmp l) ∧ Agree h h' others := by
  induction n generalizing h v edit i with
  | zero =>
    refine ⟨h, v, rfl, ?_, Agree.refl h others⟩
    rwa [take_of_length_le (by omega), drop_of_length_le (by omega),
      append_nil] at hv
  | succ n ih =>
    have hlt : i < l.length := by omega
    have hslen : (sortList cmp (l.take i)).length = i := by
      rw [length_sortList, length_take]
      omega
    -- the sorted part ends with `z`, and `x` is next
    obtain ⟨p, z, hpz⟩ : ∃ p z, sortList cmp (l.take i) = p ++ [z] := by
      rcases eq_nil_or_concat (sortList cmp (l.take i)) with hnil | ⟨p, z, hpz⟩
      · rw [hnil, length_nil] at hslen
        omega
      · exact ⟨p, z, by rw [hpz, concat_eq_append]⟩
    have hplen : p.length + 1 = i := by
      rw [hpz] at hslen
      simpa using hslen
    set x := l[i] with hx
    have hdrop : l.drop i = x :: l.drop (i + 1) := drop_eq_getElem_cons hlt
    have htake : l.take (i + 1) = l.take i ++ [x] := take_succ_eq_append_getElem hlt
    have hnext : sortList cmp (l.take (i + 1)) = insertSorted cmp (p ++ [z]) x := by
      rw [htake, sortList_concat, hpz]
    have hnow : sortList cmp (l.take i) ++ l.drop i = p ++ z :: x :: l.drop (i + 1) := by
      rw [hpz, hdrop]
      simp
    rw [hnow] at hv hedit
    obtain ⟨a, rfl, hload⟩ : ∃ a, v = ⟨some a, l.length⟩ ∧ h.load a (i - 1) 2 = .ok [z, x] :=
      hv.load_two (by omega) (by simp; omega)
    by_cases hgt : 0 < cmp z x
    · -- `x` goes to its place, in a buffer that may be written
      obtain ⟨h₁, a₁, tail, hed, ho, hag⟩ : ∃ h₁ a₁ tail,
          (if edit then Except.ok (h, ⟨some a, l.length⟩)
            else editArrayImpl T h ⟨some a, l.length⟩) = .ok (h₁, ⟨some a₁, l.length⟩) ∧
          Owned T others h₁ a₁ (p ++ z :: x :: l.drop (i + 1) ++ tail) ∧ Agree h h₁ others := by
        cases edit with
        | true =>
          obtain ⟨a', tail, hva, ho⟩ := hedit rfl
          cases hva
          exact ⟨h, a, tail, rfl, ho, Agree.refl h others⟩
        | false =>
          obtain ⟨h₁, a₁, tail, hed, ho, hag⟩ := hv.edit
          exact ⟨h₁, a₁, tail, hed, ho, hag⟩
      obtain ⟨b, hs, hfits, hcells⟩ := ho.sole
      have hgetD : b.cells.getD i none = x := by
        rw [hcells, ← hplen]
        simp [getD_eq_getElem?_getD]
      have hinner : sortInner cmp x none (i - 1) b.cells =
          insertSorted cmp (p ++ [z]) x ++ l.drop (i + 1) ++ tail := by
        rw [hcells, ← hplen, Nat.add_sub_cancel, append_assoc]
        exact (sortInner_eq none x z p hgt x _).trans (append_assoc _ _ _).symm
      have hlen₂ : (insertSorted cmp (p ++ [z]) x ++ l.drop (i + 1) ++ tail).length =
          (p ++ z :: x :: l.drop (i + 1) ++ tail).length := by
        simp [length_insertSorted]
        omega
      obtain ⟨ho₂, hag₂⟩ := ho.put hs.get hlen₂
      rw [← hnext] at ho₂ hinner hag₂
      have hcount : (sortList cmp (l.take (i + 1)) ++ l.drop (i + 1)).length = l.length := by
        rw [length_append, length_sortList, ← length_append, take_append_drop]
      obtain ⟨h₃, v₃, hloop, hv₃, hag₃⟩ := ih (show 1 ≤ i + 1 by omega) (by omega)
        (hcount ▸ Owned.holds ho₂) fun (_ : true = true) => ⟨a₁, tail, rfl, ho₂⟩
      refine ⟨h₃, v₃, ?_, hv₃, (hag.trans hag₂).trans hag₃⟩
      cases edit with
      | true =>
        cases hed
        simp only [sortLoop, hload, ok_bind, getD_cons_zero, getD_cons_succ, if_pos hgt,
          if_true, Bool.not_true, Bool.false_eq_true, if_false, Heap.deref_eq hs.get, hgetD, hinner,
          hloop]
      | false =>
        simp only [Bool.false_eq_true, if_false] at hed
        simp only [sortLoop, hload, ok_bind, getD_cons_zero, getD_cons_succ, if_pos hgt,
          Bool.false_eq_true, if_false, hed, allocTemp_eq ho.failing, Bool.not_true,
          Heap.deref_eq hs.get, hgetD, hinner, hloop]
    · -- `x` is in its place
      have hsame : p ++ z :: x :: l.drop (i + 1) =
          sortList cmp (l.take (i + 1)) ++ l.drop (i + 1) := by
        rw [hnext, insertSorted_concat_of_not_lt hgt]
        simp
      rw [hsame] at hv hedit
      obtain ⟨h₃, v₃, hloop, hv₃, hag₃⟩ := ih (by omega) (by omega) hv hedit
      refine ⟨h₃, v₃, ?_, hv₃, hag₃⟩
      simp only [sortLoop, hload, ok_bind, getD_cons_zero, getD_cons_succ, if_neg hgt,
        hloop]

/-- **`sort`** sorts. -/
theorem sort_holds (hv : Holds T others h v l) (hcount : v.mCount < 2 ^ 31) :
    ∃ h' v', sort T h v cmp = .ok (h', v', 0) ∧ Holds T others h' v' (sortList cmp l) ∧
      Agree h h' others := by
  have hs : s32 v.mCount = v.mCount := s32_of_range (by omega) (by omega)
  have hlen := hv.mCount
  by_cases h1 : 1 < l.length
  · have hone : sortList cmp (l.take 1) ++ l.drop 1 = l := by
      obtain ⟨x, r, rfl⟩ := exists_cons_of_length_pos (show 0 < l.length by omega)
      rfl
    have hv' := hv
    rw [← hone] at hv'
    have hn : 1 + (l.length - 1) = l.length := by omega
    obtain ⟨h', v', hloop, hv₁, hag⟩ := sortLoop_holds le_rfl hn hv'
      fun (hf : false = true) => by cases hf
    refine ⟨h', v', ?_, hv₁, hag⟩
    rw [sort, hs, if_pos (by omega), hlen, hloop]
  · have hsame : sortList cmp l = l := by
      match l, h1 with
      | [], _ => rfl
      | [x], _ => rfl
      | _ :: _ :: _, h1 => simp at h1
    refine ⟨h, v, ?_, hsame.symm ▸ hv, Agree.refl h others⟩
    rw [sort, hs, if_neg (by omega)]

end VectorImpl
