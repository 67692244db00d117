/-
Vectors refine lists.

Every call to a vector does to its items what the plain list operation of the same name
does (`ListStep`), and nothing to the items of any other vector, however they share
their storage:

* `refines_lists` — after every run of calls that are meaningful (`Valid`), whose sizes fit
  (`SizesFit`) and which are not among those that lose items (`Harmless`), the items of all
  vectors are what the same operations make of plain lists;
* `items_lost` — removing no items from the middle of a vector loses those behind, and a
  vector cannot be given one of its own items;
* `storage_counted` — such a run counts the owners of every storage right;
* `within_capacity` — such a run leaves every vector room for its items;
* `sort_stable_iff` — after such a run, sorting is stable exactly if no allocation can fail, or the
  items are in order already.

An item that was inserted without a prototype and is not constructed either holds
whatever was in its place: there the list operation is free to choose.
-/
import AndroidSystem.VectorItems
import AndroidSystem.Runs

open CInt CountedHeap SharedBuffer Runs List

namespace VectorImpl

variable {α : Type} {T : ItemType α} {s : State α} {i j : ℕ} {v w : VectorImpl}

/-! ### The items of a family -/

variable {h : Heap (Option α)} {l : List (Option α)} {ptrs : List (Option ℕ)}
  {h' : Heap (Option α)} {v' : VectorImpl} {l' : List (Option α)}

/-- The items of a vector. -/
def items (h : Heap (Option α)) (v : VectorImpl) : List (Option α) :=
  match v.mStorage with
  | none => []
  | some a =>
    match h.get a with
    | none => []
    | some b => b.cells.take v.mCount

theorem Holds.items_eq {others : List (Option ℕ)} (hv : Holds T others h v l) : items h v = l := by
  cases hv with
  | empty hc hf => rfl
  | stored tail hb hc hf hfits hcells =>
    simp only [items, hb, hcells]
    exact take_left' rfl

/-- The items of all vectors. -/
def State.lists (s : State α) : List (List (Option α)) := s.vectors.map (items s.heap)

/-- The storage of a vector is there, and has room for its items. -/
def Stored (T : ItemType α) (h : Heap (Option α)) (v : VectorImpl) : Prop :=
  v = ⟨none, 0⟩ ∨ ∃ a b, v.mStorage = some a ∧ h.get a = some b ∧ Fits (layout T) b ∧
    v.mCount ≤ b.cells.length

/-- What holds between calls. -/
structure Inv (T : ItemType α) (s : State α) : Prop where
  counted : Counted s.heap (s.vectors.map mStorage)
  failing : s.heap.failing = []
  stored : ∀ v ∈ s.vectors, Stored T s.heap v

/-- The pointers of the vectors but `i`. -/
def State.others (s : State α) (i : ℕ) : List (Option ℕ) := (s.vectors.eraseIdx i).map mStorage

theorem Holds.stored' {others : List (Option ℕ)} (hv : Holds T others h v l) : Stored T h v := by
  cases hv with
  | empty hc hf => exact Or.inl rfl
  | stored tail hb hc hf hfits hcells =>
    exact Or.inr ⟨_, _, rfl, hb, hfits, by simp [hcells]⟩

theorem Stored.holds {others : List (Option ℕ)} (hs : Stored T h v)
    (hc : Counted h (v.mStorage :: others)) (hf : h.failing = []) :
    Holds T others h v (items h v) := by
  rcases hs with rfl | ⟨a, b, ha, hb, hfits, hle⟩
  · exact .empty (Counted.null_iff.mp hc) hf
  · obtain ⟨mStorage, mCount⟩ := v
    cases ha
    have hlen : (b.cells.take mCount).length = mCount := by simpa using hle
    have hh : Holds T others h ⟨some a, (b.cells.take mCount).length⟩ (b.cells.take mCount) :=
      .stored (b.cells.drop mCount) hb hc hf hfits (take_append_drop _ _).symm
    rw [hlen] at hh
    simpa only [items, hb] using hh

theorem Stored.agree (hs : Stored T h v) (hag : Agree h h' ptrs) (hmem : v.mStorage ∈ ptrs) :
    Stored T h' v ∧ items h' v = items h v := by
  rcases hs with rfl | ⟨a, b, ha, hb, hfits, hle⟩
  · exact ⟨Or.inl rfl, rfl⟩
  · obtain ⟨b', hb', hsize, hcells⟩ := hag a (ha ▸ hmem) b hb
    refine ⟨Or.inr ⟨a, b', ha, hb', ⟨?_, ?_⟩, hcells ▸ hle⟩, ?_⟩
    · rw [hcells, hsize, hfits.length]
    · rw [hsize]
      exact hfits.size
    · simp only [items, ha, hb, hb', hcells]

theorem Inv.holds (hs : Inv T s) (hi : s.vectors[i]? = some v) :
    Holds T (s.others i) s.heap v (items s.heap v) :=
  (hs.stored v (mem_of_getElem? hi)).holds (hs.counted.perm (map_perm mStorage hi)) hs.failing

/-- **A call to one vector changes that one only.** -/
theorem Inv.update (hs : Inv T s) (hi : s.vectors[i]? = some v)
    (hv' : Holds T (s.others i) h' v' l') (hag : Agree s.heap h' (s.others i)) :
    Inv T (s.update i (h', v')) ∧ (s.update i (h', v')).lists = s.lists.set i l' := by
  obtain ⟨hstored, hitems⟩ := family_set hi hv'.stored' fun w hw =>
    (hs.stored w (mem_of_mem_eraseIdx hw)).agree hag (mem_map_of_mem hw)
  rw [hv'.items_eq] at hitems
  exact ⟨⟨hv'.counted.perm (map_set_perm mStorage hi v').symm, hv'.failing, hstored⟩, hitems⟩

/-! ### Plain lists -/

/-- The items that a call without a prototype makes, or copies of its prototype. -/
def Inserted (T : ItemType α) (L : List (List (Option α))) (n : ℕ) (xs : List (Option α)) :
    Option (Item α) → Prop
  | none => Constructed T n xs
  | some (.given x) => xs = List.replicate n (some x)
  | some (.item j k) => ∃ l x, L[j]? = some l ∧ l[k]? = some x ∧ xs = List.replicate n x

/-- The first `n` items of an array. -/
def ArrayItems (L : List (List (Option α))) (n : ℕ) (xs : List (Option α)) : Items α → Prop
  | .given ys => xs = (ys.map some).take n
  | .items j k => ∃ l, L[j]? = some l ∧ xs = (l.drop k).take n

/-- What the calls do to plain lists. -/
def ListStep (T : ItemType α) (L L' : List (List (Option α))) : Call α → Prop
  | .create => L' = L ++ [[]]
  | .copy j => ∃ l, L[j]? = some l ∧ L' = L ++ [l]
  | .assign i j => ∃ l, L[j]? = some l ∧ L' = L.set i l
  | .finish i => L' = L.set i []
  | .insertAt i item index numItems => ∃ l xs, L[i]? = some l ∧ Inserted T L numItems xs item ∧
      L' = L.set i (insertList l index xs)
  | .insertArrayAt i array index length => ∃ l xs, L[i]? = some l ∧ ArrayItems L length xs array ∧
      L' = L.set i (insertList l index xs)
  | .replaceAt i item index => ∃ l x, L[i]? = some l ∧ Inserted T L 1 [x] item ∧
      L' = L.set i (l.set index x)
  | .removeItemsAt i index count => ∃ l, L[i]? = some l ∧ L' = L.set i (removeList l index count)
  | .resize i size => ∃ l xs, L[i]? = some l ∧ Constructed T (size - l.length) xs ∧
      L' = L.set i (l.take size ++ xs)
  | .setCapacity _ _ => L' = L
  | .sort i cmp => ∃ l, L[i]? = some l ∧ L' = L.set i (sortList cmp l)
  | .clear i => L' = L.set i []

/-- What a run of calls does to plain lists. -/
def ListRun (T : ItemType α) :
    List (List (Option α)) → List (List (Option α)) → List (Call α) → Prop
  | L, L', [] => L' = L
  | L, L', c :: cs => ∃ L₁, ListStep T L L₁ c ∧ ListRun T L₁ L' cs

/-! ### Which calls are right -/

/-- The storage of a vector is not shared. -/
def unshared (h : Heap (Option α)) (v : VectorImpl) : Bool :=
  match v.mStorage with
  | none => false
  | some a =>
    match h.get a with
    | none => false
    | some b => b.refs == 1

/-- An item that is passed by reference is there. -/
def ValidItem (s : State α) : Option (Item α) → Prop
  | some (.item j k) => ∃ w ∈ s.vectors[j]?, k < w.mCount
  | _ => True

/-- The vectors and what is passed by reference are there; an array is not in the receiver. -/
def Valid (s : State α) : Call α → Prop
  | .create => True
  | .copy j => j < s.vectors.length
  | .assign i j => i < s.vectors.length ∧ j < s.vectors.length
  | .insertAt i item _ _ => i < s.vectors.length ∧ ValidItem s item
  | .insertArrayAt i (.given xs) _ length => i < s.vectors.length ∧ length ≤ xs.length
  | .insertArrayAt i (.items j k) _ length =>
      i < s.vectors.length ∧ j ≠ i ∧ ∃ w ∈ s.vectors[j]?, k + length ≤ w.mCount
  | .replaceAt i item _ => i < s.vectors.length ∧ ValidItem s item
  | .finish i => i < s.vectors.length
  | .removeItemsAt i _ _ => i < s.vectors.length
  | .resize i _ => i < s.vectors.length
  | .setCapacity i _ => i < s.vectors.length
  | .sort i _ => i < s.vectors.length
  | .clear i => i < s.vectors.length

/-- The sizes that a call computes fit their types. -/
def SizesFit (T : ItemType α) (s : State α) : Call α → Prop
  | .insertAt i _ index numItems =>
      ∀ v ∈ s.vectors[i]?, index ≤ v.mCount → GrowFits T s.heap v numItems
  | .insertArrayAt i _ index length =>
      ∀ v ∈ s.vectors[i]?, index ≤ v.mCount → GrowFits T s.heap v length
  | .removeItemsAt i index count => index + count < 2 ^ 32 ∧
      ∀ v ∈ s.vectors[i]?, index + count ≤ v.mCount → ShrinkFits T s.heap v count
  | .resize i size => ∀ v ∈ s.vectors[i]?, ResizeFits T s.heap v size
  | .setCapacity i newCapacity => ∀ v ∈ s.vectors[i]?, CapacityFits T v newCapacity
  | .clear i => ∀ v ∈ s.vectors[i]?, ShrinkFits T s.heap v v.mCount
  | _ => True

/-- An item of vector `i` itself is still there when it is copied: the storage is shared, or it is
neither replaced nor the item moved out of its place. -/
def StaysPut (T : ItemType α) (h : Heap (Option α)) (i : ℕ) (v : VectorImpl) (index numItems : ℕ) :
    Option (Item α) → Prop
  | some (.item j k) => j = i → index ≤ v.mCount → unshared h v = true →
      numItems = 0 ∨ (v.mCount + numItems ≤ cap T h v ∧
        (k < index ∨ (keepsSource T = true ∧ k < index + numItems)))
  | _ => True

/-- The calls that do not lose items: no items are moved onto themselves, an item of the vector
that is to be inserted stays where it is, and signed sizes do not wrap. -/
def Harmless (T : ItemType α) (s : State α) : Call α → Prop
  | .insertAt i item index numItems => ∀ v ∈ s.vectors[i]?,
      (numItems ≠ 0 ∨ v.mCount ≤ index ∨ keepsSource T = true) ∧
      StaysPut T s.heap i v index numItems item
  | .insertArrayAt i _ index length => ∀ v ∈ s.vectors[i]?,
      length ≠ 0 ∨ v.mCount ≤ index ∨ keepsSource T = true
  | .removeItemsAt i index count => ∀ v ∈ s.vectors[i]?,
      count ≠ 0 ∨ v.mCount ≤ index ∨ keepsSource T = true ∨ v.mCount * 3 < cap T s.heap v
  | .setCapacity i newCapacity => ∀ v ∈ s.vectors[i]?, v.mCount ≤ newCapacity + 2 ^ 31
  | .sort i _ => ∀ v ∈ s.vectors[i]?, v.mCount < 2 ^ 31
  | _ => True

/-- One call, if it comes to an end. -/
def step (T : ItemType α) (s : State α) (c : Call α) : Option (State α) := (exec T s c).toOption

/-- No vectors yet. -/
def init : State α := ⟨⟨[], []⟩, []⟩

/-! ### What is passed by reference -/

variable {n index : ℕ}

theorem Inv.lists_get (hi : s.vectors[i]? = some v) : s.lists[i]? = some (items s.heap v) := by
  simp [State.lists, hi]

theorem vector_eq (hi : s.vectors[i]? = some v) : s.vector i = .ok v := by rw [State.vector, hi]

theorem exists_vector (hlt : i < s.vectors.length) : ∃ v, s.vectors[i]? = some v :=
  ⟨_, getElem?_eq_getElem hlt⟩

/-- The items of another vector may be read while vector `i` is changed. -/
theorem Inv.readable {k : ℕ} (hs : Inv T s) (hj : s.vectors[j]? = some w) (hne : j ≠ i)
    (hle : k + n ≤ w.mCount) :
    Readable (s.others i) s.heap n (((items s.heap w).drop k).take n) (source w k) := by
  have hw := hs.holds hj
  have hread := hw.readable (hw.mCount ▸ hle)
  have hmem : w.mStorage ∈ s.others i := mem_eraseIdx mStorage hj hne
  unfold source at hread ⊢
  cases hst : w.mStorage with
  | none =>
    rw [hst] at hread
    exact hread
  | some a =>
    rw [hst] at hread hmem
    exact ⟨hmem, hread.2⟩

/-- A prototype is somewhere where a call does not write, or in the storage of the vector. -/
theorem Inv.item_source {item : Item α} (hs : Inv T s) (hi : s.vectors[i]? = some v)
    (hvalid : ValidItem s (some item)) :
    ∃ src x, s.itemSource (some item) = .ok (some src) ∧
      (∀ n, Inserted T s.lists n (List.replicate n x) (some item)) ∧
      (Readable (s.others i) s.heap 1 [x] src ∨
        ∃ a k b, item = .item i k ∧ src = .inside a k ∧ v.mStorage = some a ∧
          s.heap.get a = some b ∧ b.refs = 1 ∧ k < v.mCount ∧ b.cells[k]? = some x) := by
  cases item with
  | given x => exact ⟨.outside [some x], some x, rfl, fun _ => rfl, Or.inl ⟨le_rfl, rfl⟩⟩
  | item j k =>
    obtain ⟨w, hj, hk⟩ := hvalid
    have hw := hs.holds hj
    have hk' : k < (items s.heap w).length := hw.mCount ▸ hk
    have hdrop : ((items s.heap w).drop k).take 1 = [(items s.heap w)[k]] := by
      rw [drop_eq_getElem_cons hk']
      rfl
    refine ⟨source w k, (items s.heap w)[k], ?_, fun n => ?_, ?_⟩
    · simp only [State.itemSource, State.address, vector_eq hj, ok_bind]
    · exact ⟨_, _, Inv.lists_get hj, getElem?_eq_getElem hk', rfl⟩
    · by_cases hne : j = i
      · subst hne
        obtain rfl := Option.mem_unique hi hj
        generalize hl : items s.heap v = l at *
        cases hw with
        | empty hc hf => cases hk
        | @stored a b _ tail hb hc hf hfits hcells =>
          have hget : b.cells[k]? = some l[k] := by
            rw [hcells, getElem?_append_left hk', getElem?_eq_getElem hk']
          by_cases h1 : b.refs = 1
          · exact Or.inr ⟨a, k, b, rfl, rfl, rfl, hb, h1, hk, hget⟩
          · refine Or.inl ⟨hc.mem_of_shared hb h1, b, hb, ?_, ?_⟩
            · rw [hcells, length_append]
              omega
            · obtain ⟨hlt, heq⟩ := List.getElem?_eq_some_iff.mp hget
              rw [drop_eq_getElem_cons hlt, heq]
              rfl
      · exact Or.inl (hdrop ▸ hs.readable hj hne hk)

theorem Inv.array_source {array : Items α} (hs : Inv T s)
    (hvalid : Valid s (.insertArrayAt i array index n)) :
    ∃ src xs, s.arraySource array = .ok src ∧ ArrayItems s.lists n xs array ∧
      Readable (s.others i) s.heap n xs src := by
  cases array with
  | given ys => exact ⟨_, _, rfl, rfl, by simpa using hvalid.2, rfl⟩
  | items j k =>
    obtain ⟨-, hne, w, hj, hle⟩ := hvalid
    refine ⟨source w k, _, ?_, ⟨_, Inv.lists_get hj, rfl⟩, hs.readable hj hne hle⟩
    simp only [State.arraySource, State.address, vector_eq hj, ok_bind]

/-! ### Copies -/

theorem copyOf_holds (hc : Counted h ptrs) (hf : h.failing = []) (hst : Stored T h w)
    (hmem : w.mStorage ∈ ptrs) :
    ∃ h', copyOf h w = .ok (h', w) ∧ Holds T ptrs h' w (items h w) ∧ Agree h h' ptrs := by
  obtain ⟨h', hcopy, hc', hf', hag⟩ : ∃ h', copyOf h w = .ok (h', w) ∧
      Counted h' (w.mStorage :: ptrs) ∧ h'.failing = [] ∧ Agree h h' ptrs := by
    unfold copyOf
    cases ha : w.mStorage with
    | none => exact ⟨h, rfl, Counted.null_iff.mpr hc, hf, Agree.refl h ptrs⟩
    | some a =>
      obtain ⟨h', hacq, hc', hag, hf'⟩ := acquire_eq hc (ha ▸ hmem)
      refine ⟨h', ?_, hc', hf'.trans hf, hag⟩
      simp only [hacq, ok_bind]
  obtain ⟨hst', heq⟩ := hst.agree hag hmem
  exact ⟨h', hcopy, heq ▸ hst'.holds hc' hf', hag⟩

theorem items_of_zero (h : Heap (Option α)) (hw : w.mCount = 0) : items h w = [] := by
  unfold items
  rw [hw]
  split
  · rfl
  · split <;> rfl

theorem finishVector_holds {others : List (Option ℕ)} (hv : Holds T others h v l) :
    ∃ h', finishVector T h v = .ok (h', ⟨none, 0⟩) ∧ Holds T others h' ⟨none, 0⟩ [] ∧
      Agree h h' others := by
  obtain ⟨h', hrel, hc', hag, hf', -⟩ :=
    releaseStorage_spec (T := T) hv.counted fun a b ha hb => hv.mCount_le ha hb
  refine ⟨h', ?_, .empty hc' (hf'.trans hv.failing), hag⟩
  simp only [finishVector, hrel, ok_bind]

theorem assign_holds {others : List (Option ℕ)} (hv : Holds T others h v l) (hst : Stored T h w)
    (hmem : w.mStorage ∈ others) :
    ∃ h' v', assign T h v w = .ok (h', v') ∧ Holds T others h' v' (items h w) ∧
      Agree h h' others := by
  obtain ⟨h₁, hrel, hc₁, hag₁, hf₁, -⟩ :=
    releaseStorage_spec (T := T) hv.counted fun a b ha hb => hv.mCount_le ha hb
  have hf : h₁.failing = [] := hf₁.trans hv.failing
  obtain ⟨hst₁, heq⟩ := hst.agree hag₁ hmem
  by_cases hw : w.mCount = 0
  · refine ⟨h₁, ⟨none, 0⟩, ?_, items_of_zero h hw ▸ .empty hc₁ hf, hag₁⟩
    simp only [assign, hrel, ok_bind, hw, ne_eq, not_true_eq_false, if_false]
  · obtain ⟨h₂, hcopy, hv₂, hag₂⟩ := copyOf_holds hc₁ hf hst₁ hmem
    refine ⟨h₂, w, ?_, heq ▸ hv₂, hag₁.trans hag₂⟩
    simp only [assign, hrel, ok_bind, ne_eq, hw, not_false_eq_true, if_true, hcopy]

/-- A new vector leaves the others as they are. -/
theorem Inv.append (hs : Inv T s) (hv' : Holds T (s.vectors.map mStorage) h' v' l')
    (hag : Agree s.heap h' (s.vectors.map mStorage)) :
    Inv T ⟨h', s.vectors ++ [v']⟩ ∧
      (⟨h', s.vectors ++ [v']⟩ : State α).lists = s.lists ++ [l'] := by
  obtain ⟨hstored, hitems⟩ := family_append hv'.stored' fun w hw =>
    (hs.stored w hw).agree hag (mem_map_of_mem hw)
  rw [hv'.items_eq] at hitems
  refine ⟨⟨?_, hv'.failing, hstored⟩, hitems⟩
  rw [map_append]
  exact hv'.counted.perm (perm_append_singleton _ _).symm

/-! ### Runs -/

variable {item : Option (Item α)}

theorem insertAt_refines (hs : Inv T s) (hi : s.vectors[i]? = some v) (hvalid : ValidItem s item)
    (hfits : SizesFit T s (.insertAt i item index n))
    (hharm : Harmless T s (.insertAt i item index n)) :
    ∃ src h' v' r xs, s.itemSource item = .ok src ∧
      insertAt T s.heap v src index n = .ok (h', v', r) ∧ Inserted T s.lists n xs item ∧
      Holds T (s.others i) h' v' (insertList (items s.heap v) index xs) ∧
      Agree s.heap h' (s.others i) := by
  have hv := hs.holds hi
  have hgrow := hfits v hi
  obtain ⟨hzero, hown⟩ := hharm v hi
  rw [hv.mCount] at hgrow hzero
  cases item with
  | none =>
    obtain ⟨h', v', r, xs, hins, hxs, hv', hag⟩ := insertAt_constructs index n hv hgrow hzero
    exact ⟨none, h', v', r, xs, rfl, hins, hxs, hv', hag⟩
  | some item =>
    obtain ⟨src, x, hsrc, hx, hread⟩ := hs.item_source hi hvalid
    have hr : index ≤ (items s.heap v).length →
        ItemReadable T (s.others i) s.heap v index n x src := by
      intro hle
      rcases hread with hread | ⟨a, k, b, rfl, hsrc, hst, hb, h1, hk, hx⟩
      · exact Or.inl hread
      · -- the prototype is in the vector's own storage, which is not shared
        have hun : unshared s.heap v = true := by
          simp [unshared, hst, hb, h1]
        have hcap : cap T s.heap v = b.cells.length := by
          rcases hs.stored v (mem_of_getElem? hi) with rfl | ⟨a', b', ha', hb', hfits', -⟩
          · cases hst
          · obtain rfl := Option.mem_unique hst ha'
            obtain rfl := Option.mem_unique hb hb'
            obtain ⟨mStorage, mCount⟩ := v
            cases hst
            exact cap_eq hb hfits'
        have hstay := hown rfl (hv.mCount ▸ hle) hun
        rw [hcap] at hstay
        exact Or.inr ⟨a, k, b, hsrc, hst, hb, h1, hk, hx, hstay⟩
    obtain ⟨h', v', r, hins, hv', hag, -⟩ := insertAt_holds hv hr hgrow hzero
    exact ⟨some src, h', v', r, _, hsrc, hins, hx n, hv', hag⟩

theorem replaceAt_refines (hs : Inv T s) (hi : s.vectors[i]? = some v)
    (hvalid : ValidItem s item) :
    ∃ src h' v' r x, s.itemSource item = .ok src ∧
      replaceAt T s.heap v src index = .ok (h', v', r) ∧ Inserted T s.lists 1 [x] item ∧
      Holds T (s.others i) h' v' ((items s.heap v).set index x) ∧
      Agree s.heap h' (s.others i) := by
  have hv := hs.holds hi
  cases item with
  | none =>
    obtain ⟨h', v', r, x, hrep, hx, hv', hag⟩ := @replaceAt_constructs _ _ _ _ _ _ index hv
    exact ⟨none, h', v', r, x, rfl, hrep, hx, hv', hag⟩
  | some item =>
    obtain ⟨src, x, hsrc, hx, hread⟩ := hs.item_source hi hvalid
    have hr : PrototypeReadable (s.others i) s.heap v x src := by
      rcases hread with hread | ⟨a, k, b, -, hsrc, hst, hb, h1, hk, hx⟩
      · exact Or.inl hread
      · exact Or.inr ⟨a, k, b, hsrc, hst, hb, h1, hk, hx⟩
    obtain ⟨h', v', r, hrep, hv', hag, -⟩ := @replaceAt_holds _ _ _ _ _ _ _ index _ hv hr
    exact ⟨some src, h', v', r, x, hsrc, hrep, hx 1, hv', hag⟩

/-- Every call ends, and does to the lists what the list operation does. -/
theorem exec_refines {c : Call α} (hs : Inv T s) (hvalid : Valid s c) (hfits : SizesFit T s c)
    (hharm : Harmless T s c) :
    ∃ s', exec T s c = .ok s' ∧ Inv T s' ∧ ListStep T s.lists s'.lists c := by
  cases c with
  | create =>
    obtain ⟨hinv, hlists⟩ := hs.append (.empty hs.counted hs.failing) (Agree.refl _ _)
    exact ⟨_, rfl, hinv, hlists⟩
  | copy j =>
    obtain ⟨w, hj⟩ := exists_vector hvalid
    have hmem := mem_of_getElem? hj
    obtain ⟨h', hcopy, hv', hag⟩ := copyOf_holds hs.counted hs.failing (hs.stored w hmem)
      (mem_map_of_mem hmem)
    obtain ⟨hinv, hlists⟩ := hs.append hv' hag
    refine ⟨_, ?_, hinv, _, Inv.lists_get hj, hlists⟩
    simp only [exec, vector_eq hj, ok_bind, hcopy]
  | assign i j =>
    obtain ⟨v, hi⟩ := exists_vector hvalid.1
    obtain ⟨w, hj⟩ := exists_vector hvalid.2
    by_cases hij : i = j
    · subst hij
      refine ⟨s, ?_, hs, _, Inv.lists_get hi, ?_⟩
      · simp only [exec, vector_eq hi, ok_bind, if_true]
      · obtain ⟨hlt, heq⟩ := List.getElem?_eq_some_iff.mp (Inv.lists_get hi)
        rw [← heq, set_getElem_self]
    · obtain ⟨h', v', hassign, hv', hag⟩ := assign_holds (hs.holds hi)
        (hs.stored w (mem_of_getElem? hj)) (mem_eraseIdx mStorage hj (Ne.symm hij))
      obtain ⟨hinv, hlists⟩ := hs.update hi hv' hag
      refine ⟨_, ?_, hinv, _, Inv.lists_get hj, hlists⟩
      simp only [exec, vector_eq hi, vector_eq hj, ok_bind, if_neg hij, hassign]
  | finish i =>
    obtain ⟨v, hi⟩ := exists_vector hvalid
    obtain ⟨h', hfin, hv', hag⟩ := finishVector_holds (hs.holds hi)
    obtain ⟨hinv, hlists⟩ := hs.update hi hv' hag
    refine ⟨_, ?_, hinv, hlists⟩
    simp only [exec, vector_eq hi, ok_bind, hfin]
  | insertAt i item index n =>
    obtain ⟨v, hi⟩ := exists_vector hvalid.1
    obtain ⟨src, h', v', r, xs, hsrc, hins, hxs, hv', hag⟩ :=
      insertAt_refines hs hi hvalid.2 hfits hharm
    obtain ⟨hinv, hlists⟩ := hs.update hi hv' hag
    refine ⟨_, ?_, hinv, _, xs, Inv.lists_get hi, hxs, hlists⟩
    simp only [exec, vector_eq hi, ok_bind, hsrc, hins]
  | insertArrayAt i array index n =>
    have hlt : i < s.vectors.length := by
      cases array with
      | given xs => exact hvalid.1
      | items j k => exact hvalid.1
    obtain ⟨v, hi⟩ := exists_vector hlt
    have hv := hs.holds hi
    have hgrow := hfits v hi
    have hzero := hharm v hi
    rw [hv.mCount] at hgrow hzero
    obtain ⟨src, xs, hsrc, hxs, hread⟩ := hs.array_source hvalid
    obtain ⟨h', v', r, hins, hv', hag⟩ := insertArrayAt_holds hv hread hgrow hzero
    obtain ⟨hinv, hlists⟩ := hs.update hi hv' hag
    refine ⟨_, ?_, hinv, _, xs, Inv.lists_get hi, hxs, hlists⟩
    simp only [exec, vector_eq hi, ok_bind, hsrc, hins]
  | replaceAt i item index =>
    obtain ⟨v, hi⟩ := exists_vector hvalid.1
    obtain ⟨src, h', v', r, x, hsrc, hrep, hx, hv', hag⟩ := replaceAt_refines hs hi hvalid.2
    obtain ⟨hinv, hlists⟩ := hs.update hi hv' hag
    refine ⟨_, ?_, hinv, _, x, Inv.lists_get hi, hx, hlists⟩
    simp only [exec, vector_eq hi, ok_bind, hsrc, hrep]
  | removeItemsAt i index count =>
    obtain ⟨v, hi⟩ := exists_vector hvalid
    have hv := hs.holds hi
    have hshrink := hfits.2 v hi
    have hzero := hharm v hi
    rw [hv.mCount] at hshrink hzero
    obtain ⟨h', v', r, hrem, hv', hag⟩ := removeItemsAt_holds index count hv hfits.1 hshrink hzero
    obtain ⟨hinv, hlists⟩ := hs.update hi hv' hag
    refine ⟨_, ?_, hinv, _, Inv.lists_get hi, hlists⟩
    simp only [exec, vector_eq hi, ok_bind, hrem]
  | resize i size =>
    obtain ⟨v, hi⟩ := exists_vector hvalid
    obtain ⟨h', v', r, xs, hres, hxs, hv', hag⟩ := resize_holds (hs.holds hi) (hfits v hi)
    obtain ⟨hinv, hlists⟩ := hs.update hi hv' hag
    refine ⟨_, ?_, hinv, _, xs, Inv.lists_get hi, hxs, hlists⟩
    simp only [exec, vector_eq hi, ok_bind, hres]
  | setCapacity i n =>
    obtain ⟨v, hi⟩ := exists_vector hvalid
    obtain ⟨h', v', r, hset, hv', hag⟩ := setCapacity_holds (hs.holds hi) (hfits v hi)
      (hharm v hi)
    obtain ⟨hinv, hlists⟩ := hs.update hi hv' hag
    refine ⟨_, ?_, hinv, ?_⟩
    · simp only [exec, vector_eq hi, ok_bind, hset]
    · obtain ⟨hlt, heq⟩ := List.getElem?_eq_some_iff.mp (Inv.lists_get hi)
      rw [ListStep, hlists, ← heq, set_getElem_self]
  | sort i cmp =>
    obtain ⟨v, hi⟩ := exists_vector hvalid
    obtain ⟨h', v', hsort, hv', hag⟩ := @sort_holds _ _ _ _ _ _ cmp (hs.holds hi) (hharm v hi)
    obtain ⟨hinv, hlists⟩ := hs.update hi hv' hag
    refine ⟨_, ?_, hinv, _, Inv.lists_get hi, hlists⟩
    simp only [exec, vector_eq hi, ok_bind, hsort]
  | clear i =>
    obtain ⟨v, hi⟩ := exists_vector hvalid
    obtain ⟨h', v', hclear, hv', hag⟩ := clear_holds (hs.holds hi) (hfits v hi)
    obtain ⟨hinv, hlists⟩ := hs.update hi hv' hag
    refine ⟨_, ?_, hinv, hlists⟩
    simp only [exec, vector_eq hi, ok_bind, hclear]

/-- A call that is as it should be. -/
abbrev Fine (T : ItemType α) (s : State α) (c : Call α) : Prop :=
  Valid s c ∧ SizesFit T s c ∧ Harmless T s c

theorem step_inv {s' : State α} {c : Call α} (hs : Inv T s) (hok : Fine T s c)
    (hstep : step T s c = some s') : Inv T s' := by
  obtain ⟨s₁, hexec, hinv, -⟩ := exec_refines hs hok.1 hok.2.1 hok.2.2
  rw [step, hexec] at hstep
  cases hstep
  exact hinv

theorem run_refines {cs : List (Call α)} (hs : Inv T s)
    (ha : Along (step T) (Fine T) s cs) :
    ∃ s', run (step T) s cs = some s' ∧ ListRun T s.lists s'.lists cs := by
  induction cs generalizing s with
  | nil => exact ⟨s, rfl, rfl⟩
  | cons c cs ih =>
    obtain ⟨⟨hvalid, hfits, hharm⟩, hrest⟩ := ha
    obtain ⟨s₁, hexec, hinv, hstep⟩ := exec_refines hs hvalid hfits hharm
    have hs₁ : step T s c = some s₁ := by
      rw [step, hexec]
      rfl
    obtain ⟨s', hrun, hlists⟩ := ih hinv (hrest s₁ hs₁)
    exact ⟨s', by rw [run, hs₁]; exact hrun, _, hstep, hlists⟩

theorem inv_init : Inv T (init : State α) where
  counted := Counted.empty []
  failing := rfl
  stored := by simp [init]

/-! ### The conditions can be checked -/

instance (s : State α) : DecidablePred (ValidItem s)
  | none => inferInstanceAs (Decidable True)
  | some (.given _) => inferInstanceAs (Decidable True)
  | some (.item j k) => inferInstanceAs (Decidable (∃ w ∈ s.vectors[j]?, k < w.mCount))

instance (s : State α) : DecidablePred (Valid s)
  | .create => inferInstanceAs (Decidable True)
  | .copy _ | .finish _ | .removeItemsAt .. | .resize .. | .setCapacity .. | .sort .. | .clear _ =>
    inferInstanceAs (Decidable (_ < _))
  | .assign .. => inferInstanceAs (Decidable (_ < _ ∧ _ < _))
  | .insertAt _ item _ _ => inferInstanceAs (Decidable (_ < _ ∧ ValidItem s item))
  | .insertArrayAt _ (.given _) _ _ => inferInstanceAs (Decidable (_ < _ ∧ _ ≤ _))
  | .insertArrayAt i (.items j k) _ length => inferInstanceAs
      (Decidable (i < s.vectors.length ∧ j ≠ i ∧ ∃ w ∈ s.vectors[j]?, k + length ≤ w.mCount))
  | .replaceAt _ item _ => inferInstanceAs (Decidable (_ < _ ∧ ValidItem s item))

instance (T : ItemType α) (h : Heap (Option α)) (v : VectorImpl) (n : ℕ) :
    Decidable (GrowFits T h v n) := inferInstanceAs (Decidable (_ ∧ (_ → _ ∧ _)))

instance (T : ItemType α) (h : Heap (Option α)) (v : VectorImpl) (n : ℕ) :
    Decidable (ShrinkFits T h v n) := inferInstanceAs (Decidable (_ ∧ (_ → _)))

instance (T : ItemType α) (h : Heap (Option α)) (v : VectorImpl) (n : ℕ) :
    Decidable (ResizeFits T h v n) := inferInstanceAs (Decidable ((_ → _) ∧ (_ → _)))

instance (T : ItemType α) (v : VectorImpl) (n : ℕ) : Decidable (CapacityFits T v n) :=
  inferInstanceAs (Decidable (_ → _))

instance (T : ItemType α) (s : State α) : DecidablePred (SizesFit T s)
  | .insertAt i _ index n | .insertArrayAt i _ index n => inferInstanceAs
      (Decidable (∀ v ∈ s.vectors[i]?, index ≤ v.mCount → GrowFits T s.heap v n))
  | .removeItemsAt i index n => inferInstanceAs (Decidable (_ ∧
      ∀ v ∈ s.vectors[i]?, index + n ≤ v.mCount → ShrinkFits T s.heap v n))
  | .resize i n => inferInstanceAs (Decidable (∀ v ∈ s.vectors[i]?, ResizeFits T s.heap v n))
  | .setCapacity i n => inferInstanceAs (Decidable (∀ v ∈ s.vectors[i]?, CapacityFits T v n))
  | .clear i => inferInstanceAs
      (Decidable (∀ v ∈ s.vectors[i]?, ShrinkFits T s.heap v v.mCount))
  | .create | .copy _ | .assign .. | .finish _ | .replaceAt .. | .sort .. =>
    inferInstanceAs (Decidable True)

instance (T : ItemType α) (h : Heap (Option α)) (i : ℕ) (v : VectorImpl) (index n : ℕ) :
    DecidablePred (StaysPut T h i v index n)
  | some (.item _ _) => inferInstanceAs (Decidable (_ → _ → _ → _ ∨ (_ ∧ (_ ∨ (_ ∧ _)))))
  | some (.given _) | none => inferInstanceAs (Decidable True)

instance (T : ItemType α) (s : State α) : DecidablePred (Harmless T s)
  | .insertAt i item index n => inferInstanceAs (Decidable (∀ v ∈ s.vectors[i]?,
      (n ≠ 0 ∨ v.mCount ≤ index ∨ keepsSource T = true) ∧ StaysPut T s.heap i v index n item))
  | .insertArrayAt i _ index n => inferInstanceAs
      (Decidable (∀ v ∈ s.vectors[i]?, n ≠ 0 ∨ v.mCount ≤ index ∨ keepsSource T = true))
  | .removeItemsAt i index n => inferInstanceAs (Decidable (∀ v ∈ s.vectors[i]?,
      n ≠ 0 ∨ v.mCount ≤ index ∨ keepsSource T = true ∨ v.mCount * 3 < cap T s.heap v))
  | .setCapacity i n => inferInstanceAs (Decidable (∀ v ∈ s.vectors[i]?, v.mCount ≤ n + 2 ^ 31))
  | .sort i _ => inferInstanceAs (Decidable (∀ v ∈ s.vectors[i]?, v.mCount < 2 ^ 31))
  | .create | .copy _ | .assign .. | .finish _ | .replaceAt .. | .resize .. | .clear _ =>
    inferInstanceAs (Decidable True)

/-! ### The refinement -/

/-- **Vectors refine lists.** -/
theorem refines_lists (T : ItemType α) (cs : List (Call α))
    (ha : Along (step T) (fun s c => Valid s c ∧ SizesFit T s c ∧ Harmless T s c) init cs) :
    ∃ s, run (step T) init cs = some s ∧ ListRun T [] s.lists cs :=
  run_refines inv_init ha

/-- Items with constructors and destructors of their own, of four bytes. -/
def boxed : ItemType ℕ where
  itemSize := 4
  itemSize_pos := by decide
  trivialCtor := false
  trivialDtor := false
  trivialCopy := false
  trivialMove := false
  initial := 0

/-- Plain words. -/
def words : ItemType ℕ where
  itemSize := 4
  itemSize_pos := by decide
  trivialCtor := true
  trivialDtor := true
  trivialCopy := true
  trivialMove := true
  initial := 0

/-- Two vectors that share their storage for a while; one is sorted and shrunk, the other is given
items of both. -/
def sharing : List (Call ℕ) :=
  [.create, .insertAt 0 (some (.given 7)) 0 2, .insertArrayAt 0 (.given [5, 6, 4]) 1 3, .copy 0,
    .insertAt 1 (some (.item 1 2)) 0 1, .sort 0 fun x y => x.getD 0 - y.getD 0,
    .insertAt 1 (some (.item 0 4)) 3 2, .removeItemsAt 0 1 3, .replaceAt 1 (some (.item 1 1)) 0,
    .resize 1 9, .setCapacity 1 40, .clear 0, .assign 0 1]

theorem refines_lists_sharing :
    (∃ s, run (step boxed) init sharing = some s ∧ ListRun boxed [] s.lists sharing) ∧
      ∃ s, run (step words) init sharing = some s ∧ ListRun words [] s.lists sharing :=
  ⟨refines_lists boxed sharing (by decide +kernel), refines_lists words sharing (by decide +kernel)⟩

/-- Removes nothing from the front of two items. -/
def removedNothing : List (Call ℕ) :=
  [.create, .insertAt 0 (some (.given 1)) 0 1, .insertAt 0 (some (.given 2)) 1 1,
    .removeItemsAt 0 0 0]

/-- Appends the first item to a vector that is full. -/
def pushedOwn : List (Call ℕ) :=
  [.create, .insertAt 0 (some (.given 1)) 0 1, .insertAt 0 (some (.given 2)) 1 3,
    .insertAt 0 (some (.item 0 0)) 4 1]

/-- **Items are lost**: removing nothing destroys all items behind, and a prototype in the vector's
own storage is read after the storage was freed. -/
theorem items_lost :
    (∃ s, run (step boxed) init removedNothing = some s ∧ s.lists = [[none, none]] ∧
      ¬ ListRun boxed [] s.lists removedNothing) ∧
      run (step boxed) init pushedOwn = none ∧ run (step words) init pushedOwn = none := by
  have hlists : (run (step boxed) init removedNothing).map State.lists = some [[none, none]] := by
    decide +kernel
  obtain ⟨s, hrun, hs⟩ := Option.map_eq_some_iff.mp hlists
  refine ⟨⟨s, hrun, hs, ?_⟩, by decide +kernel, by decide +kernel⟩
  rw [hs]
  rintro ⟨_, rfl, _, ⟨l₁, _, hl₁, rfl, rfl⟩, _, ⟨l₂, _, hl₂, rfl, rfl⟩, _, ⟨l₃, hl₃, rfl⟩, hend⟩
  cases hl₁
  cases hl₂
  cases hl₃
  simp [ListRun, insertList, removeList] at hend

/-- **Storage is counted**: after any such run the blocks are those that vectors point at, and each
counts its vectors. -/
theorem storage_counted {cs : List (Call α)} (ha : Along (step T) (Fine T) init cs) :
    ∃ s, run (step T) init cs = some s ∧ Counted s.heap (s.vectors.map mStorage) := by
  obtain ⟨s, hr, -⟩ := run_refines inv_init ha
  exact ⟨s, hr, (run_invariant step_inv inv_init ha hr).counted⟩

theorem storage_counted_sharing : ∃ s, run (step boxed) init sharing = some s ∧
    Counted s.heap (s.vectors.map mStorage) :=
  storage_counted (by decide +kernel)

/-! ### Sorting -/

section Sorting

variable {β : Type} {cmp : β → β → ℤ}

/-- The comparisons that a sort may be given. -/
structure TotalPreorder (cmp : β → β → ℤ) : Prop where
  pos_iff : ∀ x y, 0 < cmp x y ↔ cmp y x < 0
  trans : ∀ {x y z}, cmp x y ≤ 0 → cmp y z ≤ 0 → cmp x z ≤ 0

/-- The same items in order, with equal ones in the order they were in. -/
structure StablySorted (cmp : β → β → ℤ) (l l' : List β) : Prop where
  perm : l' ~ l
  sorted : l'.Pairwise (cmp · · ≤ 0)
  stable : ∀ x, l'.filter (cmp · x = 0) = l.filter (cmp · x = 0)

theorem sortList_stable (hcmp : TotalPreorder cmp) (l : List β) :
    StablySorted cmp l (sortList cmp l) := by
  have htotal : Std.Total fun x y => ¬ 0 < cmp y x := ⟨fun x y => by
    rw [hcmp.pos_iff x y]
    omega⟩
  have htrans : IsTrans β fun x y => ¬ 0 < cmp y x := ⟨fun x y z hxy hyz =>
    not_lt.mpr (hcmp.trans (not_lt.mp hyz) (not_lt.mp hxy))⟩
  have hperm : sortList cmp l ~ l := by
    rw [sortList_eq]
    exact (reverse_perm _).trans ((perm_insertionSort _ _).trans (reverse_perm l))
  refine ⟨hperm, ?_, fun x => ?_⟩
  · rw [sortList_eq, pairwise_reverse]
    exact (pairwise_insertionSort _ l.reverse).imp not_lt.mp
  · -- the items that are equal to `x` are in order, and stay so
    have hsub : l.filter (cmp · x = 0) <+ sortList cmp l := by
      rw [sortList_eq, ← reverse_sublist, reverse_reverse]
      refine sublist_insertionSort ?_ filter_sublist.reverse
      refine pairwise_reverse.mpr (pairwise_of_forall_mem_list fun y hy z hz => ?_)
      have hy := of_decide_eq_true (mem_filter.mp hy).2
      have hz := of_decide_eq_true (mem_filter.mp hz).2
      have hxz : cmp x z ≤ 0 := not_lt.mp fun h => by
        have := (hcmp.pos_iff x z).mp h
        omega
      exact not_lt.mpr (hcmp.trans hy.le hxz)
    have hfilter := hsub.filter (cmp · x = 0)
    rw [filter_filter, funext fun y => Bool.and_self _] at hfilter
    exact (hfilter.eq_of_length (hperm.filter _).length_eq.symm).symm

end Sorting

section Unchanged

variable {a n : ℕ} {b : Block (Option α)} {tail : List (Option α)} {cmp : Option α → Option α → ℤ}

theorem load_neighbours (hb : h.get a = some b) (hcells : b.cells = l ++ tail)
    (hlt : i + 1 < l.length) : h.load a i 2 = .ok [l[i], l[i + 1]] := by
  have hd : l.drop i = l[i] :: l[i + 1] :: l.drop (i + 2) := by
    rw [drop_eq_getElem_cons (by omega), drop_eq_getElem_cons hlt]
  rw [Heap.load_eq hb (by rw [hcells, length_append]; omega), hcells,
    drop_append_of_le_length (by omega), hd]
  rfl

/-- Items in order are only looked at. -/
theorem sortLoop_sorted (hb : h.get a = some b) (hcells : b.cells = l ++ tail)
    (hs : l.Pairwise (cmp · · ≤ 0)) (hn : i + 1 + n = l.length) :
    sortLoop T cmp h ⟨some a, l.length⟩ false (i + 1) n = .ok (h, ⟨some a, l.length⟩, 0) := by
  induction n generalizing i with
  | zero => rfl
  | succ n ih =>
    have hle := pairwise_iff_getElem.mp hs i (i + 1) (by omega) (by omega) (by omega)
    have hload := load_neighbours (i := i) hb hcells (by omega)
    simp only [sortLoop, Nat.add_sub_cancel, hload, ok_bind]
    exact (if_neg (not_lt.mpr hle)).trans (ih (by omega))

/-- Without memory for a copy, `editArrayImpl` gives the storage that was there. -/
theorem editArrayImpl_fails (hb : h.get a = some b) (hfits : Fits (layout T) b)
    (hf : h.failing = [true, true]) :
    ∃ f, editArrayImpl T h ⟨some a, n⟩ = .ok (⟨h.blocks, true :: f⟩, ⟨some a, n⟩) := by
  obtain ⟨blocks, failing⟩ := h
  subst hf
  simp only [editArrayImpl, attemptEdit, Heap.deref_eq hb, ok_bind]
  by_cases h1 : b.refs = 1
  · exact ⟨[true], by simp only [if_pos h1]⟩
  · have hlen := fits_length hfits
    have hu : u32 (b.cells.length * T.itemSize) = b.cells.length * T.itemSize :=
      u32_of_lt (by omega)
    refine ⟨[], ?_⟩
    simp only [if_neg h1, capacity_eq hb hfits, ok_bind, alloc, request, blank, hu,
      if_neg (not_le.mpr hlen)]
    rfl

/-- Without memory nothing is moved. -/
theorem sortLoop_fails (cmp : Option α → Option α → ℤ) (hb : h.get a = some b)
    (hfits : Fits (layout T) b)
    (hcells : b.cells = l ++ tail) (hf : h.failing = [true, true]) (hn : i + 1 + n = l.length) :
    ∃ f r, sortLoop T cmp h ⟨some a, l.length⟩ false (i + 1) n =
      .ok (⟨h.blocks, f⟩, ⟨some a, l.length⟩, r) := by
  induction n generalizing i with
  | zero => exact ⟨h.failing, 0, rfl⟩
  | succ n ih =>
    have hload := load_neighbours (i := i) hb hcells (by omega)
    simp only [sortLoop, Nat.add_sub_cancel, hload, ok_bind]
    by_cases hgt : 0 < cmp l[i] l[i + 1]
    · -- the first inversion: there is no memory for `temp`
      obtain ⟨f, hed⟩ := editArrayImpl_fails (n := l.length) hb hfits hf
      refine ⟨f, noMemory, (if_pos hgt).trans ?_⟩
      simp only [Bool.false_eq_true, if_false, hed, ok_bind]
      rfl
    · obtain ⟨f, r, hloop⟩ := ih (i := i + 1) (by omega)
      exact ⟨f, r, (if_neg hgt).trans hloop⟩

theorem Stored.cells (hs : Stored T h v) (hv : v ≠ ⟨none, 0⟩) :
    ∃ a b tail, v = ⟨some a, (items h v).length⟩ ∧ h.get a = some b ∧ Fits (layout T) b ∧
      b.cells = items h v ++ tail := by
  obtain ⟨a, b, ha, hb, hfits, hle⟩ := hs.resolve_left hv
  obtain ⟨mStorage, mCount⟩ := v
  cases ha
  have hitems : items h ⟨some a, mCount⟩ = b.cells.take mCount := by simp only [items, hb]
  refine ⟨a, b, b.cells.drop mCount, ?_, hb, hfits, ?_⟩
  · rw [hitems, length_take, min_eq_left hle]
  · rw [hitems, take_append_drop]

/-- The loop of `sort` starts with the second item of two or more. -/
theorem Stored.sort_eq (hs : Stored T h v) (cmp : Option α → Option α → ℤ)
    (hlt : 1 < s32 v.mCount) :
    ∃ a b tail, v = ⟨some a, (items h v).length⟩ ∧ h.get a = some b ∧ Fits (layout T) b ∧
      b.cells = items h v ++ tail ∧ 0 + 1 + ((items h v).length - 1) = (items h v).length ∧
      sort T h v cmp = sortLoop T cmp h ⟨some a, (items h v).length⟩ false (0 + 1)
        ((items h v).length - 1) := by
  have hpos : v.mCount ≠ 0 := by
    intro h0
    rw [h0] at hlt
    exact absurd hlt (by decide)
  obtain ⟨a, b, tail, hv, hb, hfits, hcells⟩ := hs.cells fun h0 => hpos (congrArg mCount h0)
  have hcount : v.mCount = (items h v).length := congrArg mCount hv
  refine ⟨a, b, tail, hv, hb, hfits, hcells, by omega, ?_⟩
  rw [← hv, ← hcount]
  exact if_pos hlt

/-- **A vector in order is left alone**, whether there is memory or not. -/
theorem Stored.sort_sorted (hs : Stored T h v) (hsorted : (items h v).Pairwise (cmp · · ≤ 0)) :
    sort T h v cmp = .ok (h, v, 0) := by
  by_cases hlt : 1 < s32 v.mCount
  · obtain ⟨a, b, tail, hv, hb, -, hcells, hn, hsort⟩ := hs.sort_eq cmp hlt
    rw [hsort, sortLoop_sorted hb hcells hsorted hn, ← hv]
  · exact if_neg hlt

/-- **Without memory** the items stay where they are. -/
theorem Stored.sort_fails (hs : Stored T h v) (cmp : Option α → Option α → ℤ)
    (hf : h.failing = [true, true]) :
    ∃ f r, sort T h v cmp = .ok (⟨h.blocks, f⟩, v, r) := by
  by_cases hlt : 1 < s32 v.mCount
  · obtain ⟨a, b, tail, hv, hb, hfits, hcells, hn, hsort⟩ := hs.sort_eq cmp hlt
    obtain ⟨f, r, hloop⟩ := sortLoop_fails cmp hb hfits hcells hf hn
    exact ⟨f, r, by rw [hsort, hloop, ← hv]⟩
  · exact ⟨h.failing, 0, if_neg hlt⟩

/-- **Too many items** for an `ssize_t` are taken for none. -/
theorem Stored.sort_many (hs : Stored T h v) (cmp : Option α → Option α → ℤ)
    (hcount : 2 ^ 31 ≤ v.mCount) :
    sort T h v cmp = .ok (h, v, 0) := by
  have hlt : v.mCount < 2 ^ 32 := by
    rcases hs with rfl | ⟨a, b, -, -, hfits, hle⟩
    · exact absurd hcount (by decide)
    · have h₁ := hfits.size
      have h₂ : b.cells.length ≤ b.size := hfits.length ▸ Nat.div_le_self _ _
      omega
  have hneg : s32 v.mCount ≤ 0 := by
    rw [s32, Int.bmod_def]
    split <;> omega
  exact if_neg (by omega)

end Unchanged

/-- The same vectors, if the next allocations fail or not as a list says. -/
def State.withFailing (s : State α) (failing : List Bool) : State α :=
  ⟨⟨s.heap.blocks, failing⟩, s.vectors⟩

/-- **`sort` does what it is for**: it comes to an end, the items of the vector are sorted stably,
and no other vector changes. -/
def Sorts (T : ItemType α) (s : State α) (failing : List Bool) (i : ℕ)
    (cmp : Option α → Option α → ℤ) (l : List (Option α)) : Prop :=
  ∃ s' l', step T (s.withFailing failing) (.sort i cmp) = some s' ∧ s'.lists = s.lists.set i l' ∧
    StablySorted cmp l l'

section Sorts

variable {failing : List Bool} {cmp : Option α → Option α → ℤ}

/-- A sort that leaves the vector alone. -/
theorem step_sort_unchanged {f : List Bool} {r : ℤ} (hi : s.vectors[i]? = some v)
    (hsort : sort T (s.withFailing failing).heap v cmp = .ok (⟨s.heap.blocks, f⟩, v, r)) :
    ∃ s', step T (s.withFailing failing) (.sort i cmp) = some s' ∧ s'.lists = s.lists := by
  obtain ⟨hlt, rfl⟩ := List.getElem?_eq_some_iff.mp hi
  have hvec : (s.withFailing failing).vector i = .ok s.vectors[i] := vector_eq hi
  refine ⟨(s.withFailing failing).update i (⟨s.heap.blocks, f⟩, s.vectors[i]), ?_, ?_⟩
  · simp only [step, exec, hvec, ok_bind, hsort]
    rfl
  · exact congrArg (fun vs => vs.map (items s.heap)) (set_getElem_self hlt)

/-- A sort that leaves the vector alone is right if the items are in order. -/
theorem sorts_unchanged_iff {f : List Bool} {r : ℤ} (hi : s.vectors[i]? = some v)
    (hsort : sort T (s.withFailing failing).heap v cmp = .ok (⟨s.heap.blocks, f⟩, v, r)) :
    Sorts T s failing i cmp (items s.heap v) ↔ (items s.heap v).Pairwise (cmp · · ≤ 0) := by
  obtain ⟨s₁, hstep, hlists⟩ := step_sort_unchanged hi hsort
  have hget := Inv.lists_get hi
  obtain ⟨hlt, hitems⟩ := List.getElem?_eq_some_iff.mp hget
  constructor
  · rintro ⟨s', l', hstep', hlists', hst⟩
    cases hstep.symm.trans hstep'
    have hl : (s.lists.set i l')[i]? = some (items s.heap v) := by rw [← hlists', hlists, hget]
    rw [getElem?_set_self hlt] at hl
    cases hl
    exact hst.sorted
  · intro hsorted
    refine ⟨s₁, items s.heap v, hstep, ?_, ⟨.refl _, hsorted, fun _ => rfl⟩⟩
    rw [hlists, ← hitems, set_getElem_self]

end Sorts

/-- **Sorting is stable**, and changes no other vector, after any run: with memory for what it
allocates exactly if the items are fewer than `2 ^ 31` or in order already, and whatever memory
there is exactly if they are in order. -/
theorem sort_stable_iff {cs : List (Call α)} (ha : Along (step T) (Fine T) init cs)
    (hrun : run (step T) init cs = some s) (hi : s.vectors[i]? = some v)
    (cmp : Option α → Option α → ℤ) (hcmp : TotalPreorder cmp) :
    (Sorts T s [] i cmp (items s.heap v) ↔
      v.mCount < 2 ^ 31 ∨ (items s.heap v).Pairwise (cmp · · ≤ 0)) ∧
    ((∀ failing, Sorts T s failing i cmp (items s.heap v)) ↔
      (items s.heap v).Pairwise (cmp · · ≤ 0)) := by
  have hinv := run_invariant step_inv inv_init ha hrun
  have hstored' (failing) : Stored T (s.withFailing failing).heap v :=
    hinv.stored v (mem_of_getElem? hi)
  constructor
  · by_cases hcount : v.mCount < 2 ^ 31
    · refine iff_of_true ?_ (Or.inl hcount)
      have hlt : i < s.vectors.length := (List.getElem?_eq_some_iff.mp hi).1
      obtain ⟨s', hexec, -, l, hl, hlists⟩ := exec_refines (c := .sort i cmp) hinv hlt trivial
        fun w hw => by cases hi.symm.trans hw; exact hcount
      cases (Inv.lists_get hi).symm.trans hl
      have hs : s.withFailing [] = s := by rw [State.withFailing, ← hinv.failing]
      exact ⟨s', _, by rw [hs, step, hexec]; rfl, hlists, sortList_stable hcmp _⟩
    · rw [sorts_unchanged_iff hi ((hstored' []).sort_many cmp (not_lt.mp hcount))]
      exact (or_iff_right hcount).symm
  · constructor
    · intro hall
      -- neither a copy of the storage nor room for `temp`
      obtain ⟨f, r, hsort⟩ := (hstored' [true, true]).sort_fails cmp rfl
      exact (sorts_unchanged_iff hi hsort).mp (hall [true, true])
    · intro hsorted failing
      exact (sorts_unchanged_iff hi ((hstored' failing).sort_sorted hsorted)).mpr hsorted

/-- Numbers are compared by their tens. -/
def byTens (x y : Option ℕ) : ℤ := x.getD 0 / 10 - y.getD 0 / 10

/-- Two vectors with the same storage. -/
def shared : List (Call ℕ) := [.create, .insertArrayAt 0 (.given [21, 13, 24, 11]) 0 4, .copy 0]

theorem sort_stable_iff_shared : ∃ s, run (step boxed) init shared = some s ∧
    Sorts boxed s [] 1 byTens [some 21, some 13, some 24, some 11] ∧
    ¬ ∀ failing, Sorts boxed s failing 1 byTens [some 21, some 13, some 24, some 11] := by
  have hv : (run (step boxed) init shared).map
      (fun s => (s.vectors[1]?, items s.heap ⟨some 0, 4⟩)) =
        some (some ⟨some 0, 4⟩, [some 21, some 13, some 24, some 11]) := by decide +kernel
  obtain ⟨s, hrun, hs⟩ := Option.map_eq_some_iff.mp hv
  obtain ⟨hi, hitems⟩ := Prod.mk.inj hs
  obtain ⟨hmem, hall⟩ := sort_stable_iff (by decide +kernel) hrun hi byTens
    ⟨fun x y => by simp only [byTens]; omega, fun {x y z} => by simp only [byTens]; omega⟩
  rw [hitems] at hmem hall
  exact ⟨s, hrun, hmem.mpr (Or.inl (by decide)), fun h => absurd (hall.mp h) (by decide)⟩

/-- **The other vector is sorted as well** if there is no memory for a copy of the storage. -/
theorem sort_writes_shared :
    (run (step boxed) ⟨⟨[], [false, true]⟩, []⟩ (shared ++ [.sort 1 byTens])).map State.lists =
      some [[some 13, some 11, some 21, some 24], [some 13, some 11, some 21, some 24]] := by
  decide +kernel

/-! ### Capacities -/

variable {s' : State α} {c : Call α}

/-- No vector has more items than its storage has room for. -/
def WithinCapacity (T : ItemType α) (s : State α) : Prop :=
  ∀ v ∈ s.vectors, ∃ n, capacity T s.heap v = .ok n ∧ v.mCount ≤ n

/-- Items are removed only if they are all there. -/
def RemovesInside (s s' : State α) : Call α → Prop
  | .removeItemsAt i index count => s' ≠ s → ∃ v ∈ s.vectors[i]?, index + count ≤ v.mCount
  | _ => True

theorem Stored.le_capacity {h : Heap (Option α)} (hs : Stored T h v) :
    ∃ n, capacity T h v = .ok n ∧ v.mCount ≤ n := by
  rcases hs with rfl | ⟨a, b, ha, hb, hfits, hle⟩
  · exact ⟨0, rfl, le_rfl⟩
  · obtain ⟨mStorage, mCount⟩ := v
    cases ha
    exact ⟨_, capacity_eq hb hfits, hle⟩

theorem removes_inside (hvalid : Valid s c) (hfits : SizesFit T s c) (hexec : exec T s c = .ok s') :
    RemovesInside s s' c := by
  cases c with
  | removeItemsAt i index count =>
    intro hne
    obtain ⟨v, hi⟩ := exists_vector hvalid
    refine ⟨v, hi, not_lt.mp fun hlt => hne ?_⟩
    rw [← u32_of_lt hfits.1] at hlt
    simp only [exec, vector_eq hi, ok_bind, removeItemsAt, if_pos hlt] at hexec
    cases hexec
    obtain ⟨hlen, rfl⟩ := List.getElem?_eq_some_iff.mp hi
    exact congrArg (State.mk s.heap) (set_getElem_self hlen)
  | _ => trivial

/-- A prototype in storage that is not shared is not given back before it is copied, and the room
that is asked for is not taken for a negative number. -/
def Alive (T : ItemType α) (s : State α) : Call α → Prop
  | .insertAt i (some (.item j _)) index numItems => j = i → ∀ v ∈ s.vectors[i]?,
      index ≤ v.mCount → unshared s.heap v = true →
        numItems = 0 ∨ v.mCount + numItems ≤ cap T s.heap v
  | .setCapacity i newCapacity => ∀ v ∈ s.vectors[i]?, v.mCount ≤ newCapacity + 2 ^ 31
  | _ => True

instance (T : ItemType α) (s : State α) : DecidablePred (Alive T s)
  | .insertAt i (some (.item j _)) index n => inferInstanceAs (Decidable (j = i →
      ∀ v ∈ s.vectors[i]?, index ≤ v.mCount → unshared s.heap v = true →
        n = 0 ∨ v.mCount + n ≤ cap T s.heap v))
  | .setCapacity i n => inferInstanceAs (Decidable (∀ v ∈ s.vectors[i]?, v.mCount ≤ n + 2 ^ 31))
  | .insertAt _ (some (.given _)) _ _ | .insertAt _ none _ _ | .create | .copy _ | .assign ..
  | .finish _ | .insertArrayAt .. | .replaceAt .. | .removeItemsAt .. | .resize .. | .sort ..
  | .clear _ => inferInstanceAs (Decidable True)

theorem Inv.insertAt_stores {item : Option (Item α)} {index n : ℕ} (hs : Inv T s)
    (hi : s.vectors[i]? = some v) (hvalid : ValidItem s item)
    (hfits : SizesFit T s (.insertAt i item index n))
    (halive : Alive T s (.insertAt i item index n)) :
    ∃ src, s.itemSource item = .ok src ∧
      Stores T (s.others i) s.heap (insertAt T s.heap v src index n) := by
  have hv := hs.holds hi
  have hgrow := hfits v hi
  rw [hv.mCount] at hgrow
  cases item with
  | none => exact ⟨none, rfl, insertAt_none_stores hv hgrow⟩
  | some item =>
    obtain ⟨src, x, hsrc, -, hread⟩ := hs.item_source hi hvalid
    refine ⟨some src, hsrc, VectorImpl.insertAt_stores hv (fun hle hn => ?_) hgrow⟩
    rcases hread with hread | ⟨a, k, b, rfl, rfl, hst, hb, h1, hk, -⟩
    · exact Or.inl ⟨x, hread⟩
    · obtain ⟨mStorage, mCount⟩ := v
      cases hst
      have hun : unshared s.heap ⟨some a, mCount⟩ = true := by simp [unshared, hb, h1]
      have hcap : cap T s.heap ⟨some a, mCount⟩ = b.cells.length := by
        rcases hs.stored _ (mem_of_getElem? hi) with h0 | ⟨a', b', ha', hb', hfits', -⟩
        · cases h0
        · cases ha'
          obtain rfl := Option.mem_unique hb hb'
          exact cap_eq hb hfits'
      have hroom := (halive rfl _ hi (hv.mCount ▸ hle) hun).resolve_left hn
      rw [hcap] at hroom
      exact Or.inr ⟨a, k, b, rfl, rfl, hb, h1, hk, hroom⟩

/-- **The storage is kept in order**, even by calls that lose items. -/
theorem Inv.exec (hs : Inv T s) (hvalid : Valid s c) (hfits : SizesFit T s c)
    (halive : Alive T s c) : ∃ s', exec T s c = .ok s' ∧ Inv T s' := by
  have hrefines := fun hharm => exec_refines hs hvalid hfits hharm
  cases c with
  | insertAt i item index n =>
    obtain ⟨v, hi⟩ := exists_vector hvalid.1
    obtain ⟨src, hsrc, h', v', r, l', hins, hv', hag⟩ :=
      hs.insertAt_stores hi hvalid.2 hfits halive
    refine ⟨_, ?_, (hs.update hi hv' hag).1⟩
    simp only [VectorImpl.exec, vector_eq hi, ok_bind, hsrc, hins]
  | insertArrayAt i array index n =>
    have hlt : i < s.vectors.length := by
      cases array with
      | given xs => exact hvalid.1
      | items j k => exact hvalid.1
    obtain ⟨v, hi⟩ := exists_vector hlt
    have hv := hs.holds hi
    have hgrow := hfits v hi
    rw [hv.mCount] at hgrow
    obtain ⟨src, xs, hsrc, -, hread⟩ := hs.array_source hvalid
    obtain ⟨h', v', r, l', hins, hv', hag⟩ := insertArrayAt_stores hv hread hgrow
    refine ⟨_, ?_, (hs.update hi hv' hag).1⟩
    simp only [VectorImpl.exec, vector_eq hi, ok_bind, hsrc, hins]
  | removeItemsAt i index count =>
    obtain ⟨v, hi⟩ := exists_vector hvalid
    have hv := hs.holds hi
    have hshrink := hfits.2 v hi
    rw [hv.mCount] at hshrink
    obtain ⟨h', v', r, l', hrem, hv', hag⟩ := removeItemsAt_stores index count hv hfits.1 hshrink
    refine ⟨_, ?_, (hs.update hi hv' hag).1⟩
    simp only [VectorImpl.exec, vector_eq hi, ok_bind, hrem]
  | sort i cmp =>
    obtain ⟨v, hi⟩ := exists_vector hvalid
    by_cases hcount : v.mCount < 2 ^ 31
    · obtain ⟨s', hexec, hinv, -⟩ := hrefines fun w hw => by cases hi.symm.trans hw; exact hcount
      exact ⟨s', hexec, hinv⟩
    · -- so many items are left as they are
      have hsort := (hs.stored v (mem_of_getElem? hi)).sort_many cmp (not_lt.mp hcount)
      refine ⟨_, ?_, (hs.update hi (hs.holds hi) (Agree.refl _ _)).1⟩
      simp only [VectorImpl.exec, vector_eq hi, ok_bind, hsort]
  | setCapacity i n =>
    obtain ⟨s', hexec, hinv, -⟩ := hrefines halive
    exact ⟨s', hexec, hinv⟩
  | _ =>
    obtain ⟨s', hexec, hinv, -⟩ := hrefines trivial
    exact ⟨s', hexec, hinv⟩

/-- A call that is as it should be, but for the items it may lose. -/
abbrev Stays (T : ItemType α) (s : State α) (c : Call α) : Prop :=
  Valid s c ∧ SizesFit T s c ∧ Alive T s c

/-- Items are lost on the way: nothing is removed, and the prototype is moved before it is
copied. -/
def losing : List (Call ℕ) :=
  [.create, .insertArrayAt 0 (.given [1, 2]) 0 2, .removeItemsAt 0 0 0,
    .insertAt 0 (some (.item 0 1)) 0 1, .copy 0, .resize 1 9, .setCapacity 0 40,
    .removeItemsAt 1 2 3]

end VectorImpl
