/-
The lists of children of the nodes of `sdcard` (`sdcard/sdcard.c`).

The children of a node are a linked list: `child` is the first of them, and `next` leads from
one to the next.  `Lists s D kids` says that the nodes of `D` have the lists `kids`, and that these
agree with the links to the parents.

* `lookupChildByName_spec` — the search ends, with a child or with none.
* `unlinkNode_spec` — a node leaves the list of its parent;
* `addNodeToParent_spec` — a node comes to the front of a list.
-/
import AndroidSystem.Linked
import AndroidSystem.Sdcard.Nodes

open CInt List Function

namespace Sdcard

/-- The parts of a node that say where its file is and what it may do. -/
def Node.label (n : Node) : Name × Option Name × Derived := (n.name, n.actualName, n.derived)

namespace Fuse

variable {s s' : Fuse} {D D' : Set ℕ} {kids : ℕ → List ℕ} {held held' : ℕ → ℕ} {a b c p : ℕ}
  {l l₁ l₂ : List ℕ}

/-! ### Reads and writes -/

theorem load_of_mem (h : a ∈ s.live) : s.load a = some (s.nodes a) := if_pos h

theorem bind_of_eq {α β : Type} {x : Option α} {y : α} (h : x = some y) (f : α → Option β) :
    (x >>= f) = f y := by
  rw [h]
  rfl

theorem load_bind {α : Type} (h : a ∈ s.live) (f : Node → Option α) :
    (s.load a >>= f) = f (s.nodes a) := bind_of_eq (load_of_mem h) f

theorem mem_of_load {n : Node} (h : s.load a = some n) : a ∈ s.live ∧ n = s.nodes a := by
  by_cases ha : a ∈ s.live
  · rw [load_of_mem ha] at h
    exact ⟨ha, (Option.some.inj h).symm⟩
  · rw [load, if_neg ha] at h
    cases h

@[simp] theorem store_self (s : Fuse) (a : ℕ) (n : Node) : (s.store a n).nodes a = n := by
  simp only [store, update_self]

theorem store_of_ne (n : Node) (h : b ≠ a) : (s.store a n).nodes b = s.nodes b := by
  simp only [store, update_of_ne h]

@[simp] theorem store_live (s : Fuse) (a : ℕ) (n : Node) : (s.store a n).live = s.live := rfl

theorem store_field {α : Type} (f : Node → α) {n : Node} (h : f n = f (s.nodes a)) (b : ℕ) :
    f ((s.store a n).nodes b) = f (s.nodes b) := by
  by_cases hb : b = a
  · rw [hb, store_self, h]
  · rw [store_of_ne n hb]

theorem mem_free : b ∈ (s.free a).live ↔ b ∈ s.live ∧ b ≠ a := by
  simp [free]

/-! ### Lists of children -/

/-- The links of the lists. -/
def next (s : Fuse) (a : ℕ) : ℕ := (s.nodes a).next

/-- The links to the parents. -/
def parent (s : Fuse) (a : ℕ) : ℕ := (s.nodes a).parent

/-- The lists of the children of the nodes of `D`. -/
structure Lists (s : Fuse) (D : Set ℕ) (kids : ℕ → List ℕ) : Prop where
  live : ∀ a ∈ D, a ∈ s.live
  null : 0 ∉ D
  chain : ∀ a ∈ D, Linked 0 s.next (s.nodes a).child (kids a)
  mem : ∀ a ∈ D, ∀ b ∈ kids a, b ∈ D ∧ s.parent b = a

namespace Lists

variable (h : Lists s D kids)
include h

theorem length_lt (ha : a ∈ D) : (kids a).length < s.bound :=
  Nat.lt_succ_of_le ((h.chain a ha).length_le fun b hb => h.live b (h.mem a ha b hb).1)

theorem nodup (ha : a ∈ D) : (kids a).Nodup := (h.chain a ha).nodup

/-- Only the links of the lists matter. -/
theorem congr (hlive : ∀ a ∈ D, a ∈ s'.live)
    (hchild : ∀ a ∈ D, (s'.nodes a).child = (s.nodes a).child)
    (hlinks : ∀ a ∈ D, ∀ b ∈ kids a, s'.next b = s.next b ∧ s'.parent b = s.parent b) :
    Lists s' D kids where
  live := hlive
  null := h.null
  chain a ha := by
    rw [hchild a ha]
    exact (h.chain a ha).congr fun b hb => (hlinks a ha b hb).1
  mem a ha b hb := ⟨(h.mem a ha b hb).1, (hlinks a ha b hb).2.trans (h.mem a ha b hb).2⟩

theorem diff (hout : ∀ b ∈ D, a ∉ kids b) : Lists s (D \ {a}) kids where
  live b hb := h.live b hb.1
  null hb := h.null hb.1
  chain b hb := h.chain b hb.1
  mem b hb c hc := by
    refine ⟨⟨(h.mem b hb.1 c hc).1, ?_⟩, (h.mem b hb.1 c hc).2⟩
    rintro rfl
    exact hout b hb.1 hc

end Lists

/-! ### Searches in a list -/

/-- The search gives the first node of the list with the name. -/
theorem lookupFrom_spec (name : Name) (h : Linked 0 s.next a l) (hlive : ∀ b ∈ l, b ∈ s.live)
    {fuel : ℕ} (hfuel : l.length < fuel) :
    s.lookupFrom name fuel a =
      some ((l.find? fun b => decide (name = (s.nodes b).name)).getD 0) := by
  induction h generalizing fuel with
  | nil =>
    obtain ⟨fuel, rfl⟩ := Nat.exists_eq_succ_of_ne_zero (Nat.ne_zero_of_lt hfuel)
    rfl
  | @cons a l hne htail ih =>
    obtain ⟨fuel, rfl⟩ := Nat.exists_eq_succ_of_ne_zero (Nat.ne_zero_of_lt hfuel)
    rw [lookupFrom, if_neg hne, load_bind (hlive a mem_cons_self)]
    by_cases hname : name = (s.nodes a).name
    · rw [if_pos hname, find?_cons_of_pos (by simpa using hname), Option.getD_some]
    · rw [if_neg hname, find?_cons_of_neg (by simpa using hname)]
      exact ih (fun b hb => hlive b (mem_cons_of_mem _ hb)) (Nat.lt_of_succ_lt_succ hfuel)

theorem lookupChildByName_spec (h : Lists s D kids) (hp : p ∈ D) (name : Name) :
    ∃ c, s.lookupChildByName p name = some c ∧ (c ≠ 0 → c ∈ kids p) := by
  have hlive : ∀ b ∈ kids p, b ∈ s.live := fun b hb => h.live b (h.mem p hp b hb).1
  refine ⟨((kids p).find? fun b => decide (name = (s.nodes b).name)).getD 0, ?_, ?_⟩
  · rw [lookupChildByName, load_bind (h.live p hp)]
    exact lookupFrom_spec name (h.chain p hp) hlive (h.length_lt hp)
  · intro hc
    cases hfind : (kids p).find? fun b => decide (name = (s.nodes b).name) with
    | none =>
      rw [hfind] at hc
      exact absurd rfl hc
    | some b => exact mem_of_find?_eq_some hfind

/-- The loop finds the node before `b`. -/
theorem before_spec (h : Linked 0 s.next a (l₁ ++ c :: b :: l₂))
    (hlive : ∀ x ∈ l₁ ++ c :: b :: l₂, x ∈ s.live) {fuel : ℕ} (hfuel : l₁.length < fuel) :
    s.before b fuel a = some c := by
  induction l₁ generalizing a fuel with
  | nil =>
    obtain ⟨fuel, rfl⟩ := Nat.exists_eq_succ_of_ne_zero (Nat.ne_zero_of_lt hfuel)
    obtain ⟨rfl, htail⟩ := h.tail
    have hnext : (s.nodes a).next = b := htail.tail.1
    rw [before, load_bind (hlive a mem_cons_self), if_pos hnext]
  | cons d l₁ ih =>
    obtain ⟨fuel, rfl⟩ := Nat.exists_eq_succ_of_ne_zero (Nat.ne_zero_of_lt hfuel)
    obtain ⟨rfl, htail⟩ := h.tail
    -- the next node is one of those before `b`, because no node is there twice
    have hne : (s.nodes a).next ≠ b := by
      intro hnext
      have hnodup := htail.nodup
      change Linked 0 s.next (s.nodes a).next _ at htail
      rw [hnext] at htail
      cases l₁ with
      | nil =>
        obtain ⟨rfl, -⟩ := htail.tail
        exact (nodup_cons.mp hnodup).1 mem_cons_self
      | cons e l₁ =>
        obtain ⟨rfl, -⟩ := htail.tail
        refine (nodup_cons.mp hnodup).1 (mem_append_right _ ?_)
        exact mem_cons_of_mem _ mem_cons_self
    rw [before, load_bind (hlive a mem_cons_self), if_neg hne]
    exact ih htail (fun x hx => hlive x (mem_cons_of_mem _ hx))
      (Nat.lt_of_succ_lt_succ hfuel)

/-! ### Changes of a list -/

/-- Nothing but the links of lists of `D` has changed. -/
structure Relinked (s s' : Fuse) (D : Set ℕ) : Prop where
  live : s'.live = s.live
  outside : ∀ x ∉ D, s'.nodes x = s.nodes x
  parent : ∀ x, s'.parent x = s.parent x
  refcount : ∀ x, (s'.nodes x).refcount = (s.nodes x).refcount
  label : ∀ x, (s'.nodes x).label = (s.nodes x).label

theorem Relinked.store {n : Node} (ha : a ∈ D) (hparent : n.parent = (s.nodes a).parent)
    (hrefcount : n.refcount = (s.nodes a).refcount) (hlabel : n.label = (s.nodes a).label) :
    Relinked s (s.store a n) D where
  live := rfl
  outside _ hx := store_of_ne n fun h => hx (h ▸ ha)
  parent := store_field Node.parent hparent
  refcount := store_field Node.refcount hrefcount
  label := store_field Node.label hlabel

/-- **A node leaves the list of its parent.** -/
theorem unlinkNode_spec (h : Lists s D kids) (hp : p ∈ D) (ha : a ∈ kids p) :
    ∃ s', s.unlinkNode a p (s.nodes a).next = some s' ∧
      Lists s' D (update kids p ((kids p).erase a)) ∧ Relinked s s' D := by
  have hchain := h.chain p hp
  have hnodup := h.nodup hp
  have hlive : ∀ b ∈ kids p, b ∈ s.live := fun b hb => h.live b (h.mem p hp b hb).1
  have hlen := h.length_lt hp
  obtain ⟨l₁, l₂, hl⟩ := append_of_mem ha
  have herase : (kids p).erase a = l₁ ++ l₂ := by
    have hnot : a ∉ l₁ := fun hmem => by
      rw [hl] at hnodup
      exact (nodup_append.mp hnodup).2.2 a hmem a mem_cons_self rfl
    rw [hl, erase_append_right _ hnot, erase_cons_head]
  have hmem : ∀ q ∈ D, ∀ b ∈ update kids p ((kids p).erase a) q,
      b ∈ D ∧ s.parent b = q := by
    intro q hq b hb
    by_cases hqp : q = p
    · subst hqp
      rw [update_self] at hb
      exact h.mem q hq b (mem_of_mem_erase hb)
    · rw [update_of_ne hqp] at hb
      exact h.mem q hq b hb
  rw [unlinkNode, load_bind (h.live p hp)]
  rcases eq_nil_or_concat l₁ with rfl | ⟨k, c, rfl⟩
  · -- the first of the list
    have hfirst : (s.nodes p).child = a ∧ Linked 0 s.next (s.next a) l₂ := by
      rw [hl] at hchain
      exact hchain.tail
    rw [if_pos hfirst.1]
    refine ⟨_, rfl, ?_, Relinked.store hp rfl rfl rfl⟩
    have hnext : ∀ b, (s.store p { s.nodes p with child := (s.nodes a).next }).next b = s.next b :=
      store_field Node.next rfl
    refine ⟨h.live, h.null, fun q hq => ?_, fun q hq b hb => ?_⟩
    · by_cases hqp : q = p
      · subst hqp
        rw [update_self, herase, store_self]
        exact hfirst.2.congr fun b _ => hnext b
      · rw [update_of_ne hqp, store_of_ne _ hqp]
        exact (h.chain q hq).congr fun b _ => hnext b
    · obtain ⟨hbD, hbq⟩ := hmem q hq b hb
      exact ⟨hbD, (store_field Node.parent (by exact rfl) b).trans hbq⟩
  · -- the node `c` is before it
    rw [concat_eq_append, append_assoc, singleton_append] at hl herase
    have hfirst : (s.nodes p).child ≠ a := by
      intro heq
      rw [hl] at hchain hnodup
      rw [heq] at hchain
      cases k with
      | nil =>
        obtain ⟨rfl, -⟩ := hchain.tail
        exact (nodup_cons.mp hnodup).1 mem_cons_self
      | cons e k =>
        obtain ⟨rfl, -⟩ := hchain.tail
        refine (nodup_cons.mp hnodup).1 (mem_append_right _ ?_)
        exact mem_cons_of_mem _ mem_cons_self
    have hc : c ∈ kids p := by
      rw [hl]
      exact mem_append_right _ mem_cons_self
    have hbefore : s.before a s.bound (s.nodes p).child = some c := by
      rw [hl] at hchain hlive hlen
      refine before_spec hchain hlive (lt_of_le_of_lt ?_ hlen)
      rw [length_append]
      exact Nat.le_add_right _ _
    rw [if_neg hfirst, hbefore, Option.bind_eq_bind, Option.bind_some, load_bind (hlive c hc)]
    refine ⟨_, rfl, ?_, Relinked.store (h.mem p hp c hc).1 rfl rfl rfl⟩
    have hnext : (s.store c { s.nodes c with next := (s.nodes a).next }).next =
        update s.next c (s.next a) := by
      funext b
      by_cases hb : b = c
      · subst hb
        rw [update_self, next, store_self]
        rfl
      · rw [update_of_ne hb, next, store_of_ne _ hb]
        rfl
    have hchild := store_field (s := s) Node.child
      (show { s.nodes c with next := (s.nodes a).next }.child = (s.nodes c).child from rfl)
    refine ⟨h.live, h.null, fun q hq => ?_, fun q hq b hb => ?_⟩
    · rw [hchild, hnext]
      by_cases hqp : q = p
      · subst hqp
        rw [update_self, herase]
        rw [hl] at hchain
        exact hchain.unlink
      · rw [update_of_ne hqp]
        refine (h.chain q hq).congr fun b hb => update_of_ne ?_ _ _
        rintro rfl
        exact hqp ((h.mem q hq b hb).2.symm.trans (h.mem p hp b hc).2)
    · obtain ⟨hbD, hbq⟩ := hmem q hq b hb
      exact ⟨hbD, (store_field Node.parent (by exact rfl) b).trans hbq⟩

/-- A reference is taken, and the counter does not wrap. -/
theorem acquireNode_spec (ha : a ∈ s.live) (hroom : (s.nodes a).refcount + 1 < 2 ^ 32) :
    s.acquireNode a =
      some (s.store a { s.nodes a with refcount := (s.nodes a).refcount + 1 }) := by
  rw [acquireNode, load_bind ha, u32_of_lt hroom]

/-- **A node comes to the front of the list of its new parent.** -/
theorem addNodeToParent_spec (h : Lists s D kids) (ha : a ∈ D) (hp : p ∈ D) (hne : a ≠ p)
    (hout : ∀ b ∈ D, a ∉ kids b) (hroom : (s.nodes p).refcount + 1 < 2 ^ 32) :
    ∃ s', s.addNodeToParent a p = some s' ∧
      Lists s' D (update kids p (a :: kids p)) ∧
      s'.live = s.live ∧ (∀ x, s'.parent x = update s.parent a p x) ∧
      (∀ x, (s'.nodes x).refcount =
        update (fun x => (s.nodes x).refcount) p ((s.nodes p).refcount + 1) x) ∧
      ∀ x, (s'.nodes x).label = (s.nodes x).label := by
  have halive := h.live a ha
  have hplive := h.live p hp
  set n₁ : Node := { s.nodes a with parent := p, next := (s.nodes p).child } with hn₁
  set n₂ : Node :=
    { s.nodes p with child := a, refcount := (s.nodes p).refcount + 1 } with hn₂
  have hself : ((s.store a n₁).store p n₂).nodes a = n₁ := by
    rw [store_of_ne _ hne, store_self]
  have hfield : ∀ {α : Type} (f : Node → α), f n₂ = f (s.nodes p) → ∀ x, x ≠ a →
      f (((s.store a n₁).store p n₂).nodes x) = f (s.nodes x) := by
    intro α f hf x hx
    by_cases hxp : x = p
    · rw [hxp, store_self, hf]
    · rw [store_of_ne _ hxp, store_of_ne _ hx]
  refine ⟨(s.store a n₁).store p n₂, ?_, ?_, rfl, fun x => ?_, fun x => ?_, fun x => ?_⟩
  · have hstored : ((s.store a n₁).store p { s.nodes p with child := a }).nodes p =
        { s.nodes p with child := a } := store_self _ _ _
    rw [addNodeToParent, load_bind hplive, load_bind halive]
    change ((s.store a n₁).load p >>= _) = _
    rw [load_bind (s := s.store a n₁) hplive, store_of_ne n₁ hne.symm,
      acquireNode_spec (by exact hplive) (by rw [hstored]; exact hroom), hstored]
    simp only [store, update_idem]
    rfl
  · have hlist : ∀ q ∈ D, Linked 0 ((s.store a n₁).store p n₂).next (s.nodes q).child (kids q) :=
      fun q hq => (h.chain q hq).congr fun b hb =>
        hfield Node.next rfl b fun hba => hout q hq (hba ▸ hb)
    have hmem : ∀ q ∈ D, ∀ b ∈ kids q, b ∈ D ∧ ((s.store a n₁).store p n₂).parent b = q :=
      fun q hq b hb => ⟨(h.mem q hq b hb).1,
        (hfield Node.parent rfl b fun hba => hout q hq (hba ▸ hb)).trans (h.mem q hq b hb).2⟩
    refine ⟨h.live, h.null, fun q hq => ?_, fun q hq => ?_⟩
    · by_cases hqp : q = p
      · subst hqp
        rw [update_self, store_self]
        refine .cons (fun h0 => h.null (h0 ▸ ha)) ?_
        rw [next, hself]
        exact hlist q hq
      · rw [update_of_ne hqp, store_of_ne _ hqp]
        by_cases hqa : q = a
        · subst hqa
          rw [store_self]
          exact hlist q hq
        · rw [store_of_ne _ hqa]
          exact hlist q hq
    · by_cases hqp : q = p
      · subst hqp
        rw [update_self]
        refine forall_mem_cons.mpr ⟨⟨ha, ?_⟩, hmem q hq⟩
        rw [parent, hself]
      · rw [update_of_ne hqp]
        exact hmem q hq
  · by_cases hxa : x = a
    · rw [hxa, update_self, parent, hself]
    · rw [update_of_ne hxa]
      exact hfield Node.parent rfl x hxa
  · by_cases hxp : x = p
    · rw [hxp, store_self, update_self]
    · rw [store_of_ne _ hxp, update_of_ne hxp]
      exact store_field Node.refcount (by exact rfl) x
  · by_cases hxa : x = a
    · rw [hxa, hself]
      rfl
    · exact hfield Node.label rfl x hxa

end Fuse

end Sdcard
