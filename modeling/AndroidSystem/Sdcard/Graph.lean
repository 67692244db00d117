/-
The nodes of `sdcard` form a tree (`sdcard/sdcard.c`).

One counter of a node has the references of the kernel as well as those of the children.
`Graph s D held kids` says that the nodes of `D` are a tree with the root of `struct fuse`, where
`kids` has the lists of children and `held` the references of the kernel, and that no counter
is less than it has to be.

* `releaseWithin_spec` — to release a node keeps the tree, with fewer nodes.  While a node goes up
  to release its parent it is in no list but still allocated: it is left out of `D` then.
* `createNode_spec` — a new node;
* `moveNode_spec` — a node gets another name and another parent.
-/
import AndroidSystem.Sdcard.Lists

open CInt List Function Option

namespace Sdcard

namespace Fuse

variable {s s' : Fuse} {D D' : Set ℕ} {kids : ℕ → List ℕ} {held held' : ℕ → ℕ} {a b c p : ℕ}
  {l : List ℕ}

/-- The references to the root that nobody returns. -/
def rootRefs (a : ℕ) : ℕ := if a = rootId then 2 else 0

/-- **The nodes of `D` are a tree.** -/
structure Graph (s : Fuse) (D : Set ℕ) (held : ℕ → ℕ) (kids : ℕ → List ℕ) : Prop
    extends Lists s D kids where
  root : rootId ∈ D
  rootParent : s.parent rootId = 0
  up : ∀ a ∈ D, a ≠ rootId → s.parent a ∈ D ∧ a ∈ kids (s.parent a)
  tree : ∀ a ∈ D, ∃ l, Linked 0 s.parent a l ∧ ∀ b ∈ l, b ∈ D
  count : ∀ a ∈ D, held a + (kids a).length + rootRefs a ≤ (s.nodes a).refcount
  held : ∀ a, 0 < held a → a ∈ D

namespace Graph

section

variable (h : Graph s D held kids)

include h

theorem ne_root (hp : p ∈ D) (ha : a ∈ kids p) : a ≠ rootId := by
  rintro rfl
  have hparent := (h.mem p hp rootId ha).2
  rw [h.rootParent] at hparent
  exact h.null (hparent ▸ hp)

/-- Only links and counters matter. -/
theorem congr (hlive : ∀ a ∈ D, a ∈ s'.live)
    (hchild : ∀ a ∈ D, (s'.nodes a).child = (s.nodes a).child)
    (hlinks : ∀ a ∈ D, s'.next a = s.next a ∧ s'.parent a = s.parent a)
    (hcount : ∀ a ∈ D, held' a + (kids a).length + rootRefs a ≤ (s'.nodes a).refcount)
    (hheld : ∀ a, 0 < held' a → a ∈ D) : Graph s' D held' kids where
  toLists := h.toLists.congr hlive hchild fun a ha b hb => hlinks b (h.mem a ha b hb).1
  root := h.root
  rootParent := (hlinks rootId h.root).2.trans h.rootParent
  up a ha hne := by
    rw [(hlinks a ha).2]
    exact h.up a ha hne
  tree a ha := by
    obtain ⟨l, hl, hmem⟩ := h.tree a ha
    exact ⟨l, hl.congr fun b hb => (hlinks b (hmem b hb)).2, hmem⟩
  count := hcount
  held := hheld

/-- A write that leaves the links as they are. -/
theorem store {n : Node} (hnext : n.next = (s.nodes a).next) (hchild : n.child = (s.nodes a).child)
    (hparent : n.parent = (s.nodes a).parent)
    (hcount : held a + (kids a).length + rootRefs a ≤ n.refcount) :
    Graph (s.store a n) D held kids := by
  refine h.congr h.live (fun b _ => store_field Node.child hchild b)
    (fun b _ => ⟨store_field Node.next hnext b, store_field Node.parent hparent b⟩) ?_ h.held
  intro b hb
  by_cases hba : b = a
  · subst hba
    rw [store_self]
    exact hcount
  · rw [store_of_ne n hba]
    exact h.count b hb

/-- The kernel has fewer references, or more that were counted before. -/
theorem with_held (ha : a ∈ D) {k : ℕ}
    (hcount : k + (kids a).length + rootRefs a ≤ (s.nodes a).refcount) :
    Graph s D (update held a k) kids := by
  refine h.congr h.live (fun _ _ => rfl) (fun _ _ => ⟨rfl, rfl⟩) ?_ ?_
  · intro b hb
    by_cases hba : b = a
    · subst hba
      rwa [update_self]
    · rw [update_of_ne hba]
      exact h.count b hb
  · intro b hb
    by_cases hba : b = a
    · exact hba ▸ ha
    · rw [update_of_ne hba] at hb
      exact h.held b hb

theorem path (ha : a ∈ D) :
    ∃ l, Linked 0 s.parent a l ∧ (∀ b ∈ l, b ∈ D) ∧ l.length < s.bound := by
  obtain ⟨l, hl, hmem⟩ := h.tree a ha
  exact ⟨l, hl, hmem, Nat.lt_succ_of_le (hl.length_le fun b hb => h.live b (hmem b hb))⟩

theorem parent_ne_null (ha : a ∈ D) (hne : a ≠ rootId) :
    s.parent a ≠ 0 := fun h0 => h.null (h0 ▸ (h.up a ha hne).1)

theorem notMem_erased (hp : s.parent a ∈ D) :
    ∀ q ∈ D, a ∉ update kids (s.parent a) ((kids (s.parent a)).erase a) q := by
  intro q hq
  by_cases hqp : q = s.parent a
  · rw [hqp, update_self]
    exact (h.nodup hp).not_mem_erase
  · rw [update_of_ne hqp]
    exact fun hin => hqp (h.mem q hq a hin).2.symm

/-- A node without children and without references is left out. -/
theorem diff (ha : a ∈ D) (hne : a ≠ rootId) (hkids : kids a = []) (hheld : held a = 0)
    (hlists : Lists s' D (update kids (s.parent a) ((kids (s.parent a)).erase a)))
    (hsame : Relinked s s' D) :
    Graph s' (D \ {a}) held
      (update kids (s.parent a) ((kids (s.parent a)).erase a)) := by
  obtain ⟨hp, hmem⟩ := h.up a ha hne
  -- no node of the tree has `a` for a parent
  have hup : ∀ b ∈ D, b ≠ rootId → s.parent b ≠ a := by
    intro b hb hbroot hba
    have hin := (h.up b hb hbroot).2
    rw [hba, hkids] at hin
    exact absurd hin not_mem_nil
  refine ⟨hlists.diff (h.notMem_erased hp), ⟨h.root, hne.symm⟩,
    (hsame.parent _).trans h.rootParent, ?_, ?_, ?_, ?_⟩
  · intro b hb hbroot
    rw [hsame.parent]
    obtain ⟨hq, hin⟩ := h.up b hb.1 hbroot
    refine ⟨⟨hq, hup b hb.1 hbroot⟩, ?_⟩
    by_cases hqp : s.parent b = s.parent a
    · rw [hqp, update_self]
      rw [hqp] at hin
      exact (mem_erase_of_ne hb.2).mpr hin
    · rw [update_of_ne hqp]
      exact hin
  · intro b hb
    obtain ⟨l, hl, hin⟩ := h.tree b hb.1
    refine ⟨l, hl.congr fun c _ => hsame.parent c, fun c hc => ⟨hin c hc, ?_⟩⟩
    refine hl.forall_mem (P := fun c => c ≠ a) (fun _ => hb.2) (fun c hc _ hnull => ?_) c hc
    exact hup c (hin c hc) fun hroot => hnull (hroot ▸ h.rootParent)
  · intro b hb
    rw [hsame.refcount]
    refine le_trans (Nat.add_le_add_right (Nat.add_le_add_left ?_ _) _) (h.count b hb.1)
    by_cases hbp : b = s.parent a
    · rw [hbp, update_self]
      exact length_erase_le
    · rw [update_of_ne hbp]
  · intro b hb
    refine ⟨h.held b hb, ?_⟩
    rintro rfl
    omega

end

end Graph

/-! ### Release -/

/-- Nodes of `D` have gone, and those of `D'` are left. -/
structure Kept (s : Fuse) (D : Set ℕ) (s' : Fuse) (D' : Set ℕ) : Prop where
  subset : D' ⊆ D
  live : ∀ x, x ∈ s'.live ↔ x ∈ s.live ∧ (x ∈ D → x ∈ D')
  outside : ∀ x ∉ D, s'.nodes x = s.nodes x
  parent : ∀ x ∈ D', s'.parent x = s.parent x
  label : ∀ x ∈ D', (s'.nodes x).label = (s.nodes x).label
  pos : ∀ x ∈ D', 0 < (s.nodes x).refcount → 0 < (s'.nodes x).refcount

theorem Kept.refl (s : Fuse) (D : Set ℕ) : Kept s D s D where
  subset := subset_rfl
  live _ := ⟨fun h => ⟨h, id⟩, fun h => h.1⟩
  outside _ _ := rfl
  parent _ _ := rfl
  label _ _ := rfl
  pos _ _ := id

/-- A write of the counter. -/
theorem Kept.store {n : Node} (ha : a ∈ D) (hparent : n.parent = (s.nodes a).parent)
    (hlabel : n.label = (s.nodes a).label) (hpos : 0 < n.refcount) : Kept s D (s.store a n) D where
  subset := subset_rfl
  live _ := ⟨fun h => ⟨h, id⟩, fun h => h.1⟩
  outside _ hx := store_of_ne n fun h => hx (h ▸ ha)
  parent x _ := store_field Node.parent hparent x
  label x _ := store_field Node.label hlabel x
  pos x _ h := by
    by_cases hx : x = a
    · rwa [hx, store_self]
    · rwa [store_of_ne n hx]

theorem releaseWithin_succ {fuel : ℕ} (ha : a ∈ s.live) (hpos : 0 < (s.nodes a).refcount) :
    releaseWithin (fuel + 1) s a =
      let s₀ := s.store a { s.nodes a with refcount := (s.nodes a).refcount - 1 }
      if (s.nodes a).refcount - 1 = 0 then do
        let s ← removeNodeWith (releaseWithin fuel) s₀ a
        some (s.free a)
      else some s₀ := by
  rw [releaseWithin, load_bind ha, if_pos hpos]

/-- **A node with one reference more than it needs can be released.** -/
theorem releaseWithin_spec {fuel : ℕ} (h : Graph s D held kids) (ha : a ∈ D)
    (hextra : held a + (kids a).length + rootRefs a < (s.nodes a).refcount)
    (hl : Linked 0 s.parent a l) (hfuel : l.length ≤ fuel) :
    ∃ s' D' kids', releaseWithin fuel s a = some s' ∧ Graph s' D' held kids' ∧
      Kept s D s' D' := by
  induction fuel generalizing s D kids a l with
  | zero =>
    obtain ⟨l', rfl⟩ := hl.head fun h0 => h.null (h0 ▸ ha)
    exact absurd hfuel (Nat.not_succ_le_zero _)
  | succ fuel ih =>
    rw [releaseWithin_succ (h.live a ha) (Nat.zero_lt_of_lt hextra)]
    set n₀ : Node := { s.nodes a with refcount := (s.nodes a).refcount - 1 } with hn₀
    have h₀ : Graph (s.store a n₀) D held kids :=
      h.store rfl rfl rfl (show _ ≤ (s.nodes a).refcount - 1 by omega)
    have hparent₀ : ∀ x, (s.store a n₀).parent x = s.parent x := store_field Node.parent rfl
    have hlabel₀ : ∀ x, ((s.store a n₀).nodes x).label = (s.nodes x).label :=
      store_field Node.label rfl
    by_cases hlast : (s.nodes a).refcount - 1 = 0
    · -- the node goes: it has no children, and is not the root
      have hkids : kids a = [] := length_eq_zero_iff.mp (by omega)
      have hheld : held a = 0 := by omega
      have hne : a ≠ rootId := by
        rintro rfl
        simp only [rootRefs, if_true] at hextra
        omega
      obtain ⟨hp, hmem⟩ := h₀.up a ha hne
      obtain ⟨s₁, hunlink, hlists, hsame⟩ := unlinkNode_spec h₀.toLists hp hmem
      have h₁ := h₀.diff ha hne hkids hheld hlists hsame
      set p := (s.store a n₀).parent a with hpdef
      have hpa : p ≠ a := by
        intro hpa
        rw [hpa, hkids] at hmem
        exact absurd hmem not_mem_nil
      obtain ⟨l', rfl⟩ := hl.head fun h0 => h.null (h0 ▸ ha)
      have hpath : Linked 0 s₁.parent p l' := by
        rw [hpdef, hparent₀]
        exact hl.tail.2.congr fun b _ => (hsame.parent b).trans (hparent₀ b)
      have hpcount : held p + (update kids p ((kids p).erase a) p).length +
          rootRefs p < (s₁.nodes p).refcount := by
        rw [hsame.refcount, update_self, length_erase_of_mem hmem]
        have hcount := h₀.count p hp
        have hpos := length_pos_of_mem hmem
        omega
      obtain ⟨s₂, D₂, kids₂, hrelease, h₂, hkept⟩ :=
        ih h₁ ⟨hp, hpa⟩ hpcount hpath (Nat.le_of_succ_le_succ hfuel)
      have ha₂ : a ∈ s₂.live := by
        rw [hkept.live, hsame.live]
        exact ⟨h.live a ha, fun hin => absurd rfl hin.2⟩
      have haD₂ : a ∉ D₂ := fun hin => (hkept.subset hin).2 rfl
      set n₂ : Node := { s₂.nodes a with parent := 0, next := 0 } with hn₂
      have hremove : removeNodeWith (releaseWithin fuel) (s.store a n₀) a =
          some (s₂.store a n₂) := by
        rw [removeNodeWith, load_bind (s := s.store a n₀) (h.live a ha)]
        change (if p ≠ 0 then _ else _) = _
        rw [if_pos (h₀.parent_ne_null ha hne)]
        change (((s.store a n₀).unlinkNode a p ((s.store a n₀).nodes a).next).bind _) = _
        rw [hunlink, bind_some]
        change ((releaseWithin fuel s₁ p).bind _) = _
        rw [hrelease, bind_some, load_bind ha₂]
      have hne₂ : ∀ x ∈ D₂, x ≠ a := fun x hx hxa => haD₂ (hxa ▸ hx)
      have hother : ∀ x ∈ D₂, ((s₂.store a n₂).free a).nodes x = s₂.nodes x := fun x hx =>
        store_of_ne n₂ (hne₂ x hx)
      refine ⟨(s₂.store a n₂).free a, D₂, kids₂, ?_, ?_, ?_⟩
      · simp only [if_pos hlast, hremove, bind_eq_bind, bind_some]
      · refine h₂.congr (fun x hx => mem_free.mpr ⟨h₂.live x hx, hne₂ x hx⟩)
          (fun x hx => congrArg Node.child (hother x hx))
          (fun x hx => ⟨congrArg Node.next (hother x hx), congrArg Node.parent (hother x hx)⟩)
          (fun x hx => ?_) h₂.held
        rw [hother x hx]
        exact h₂.count x hx
      · refine ⟨fun x hx => (hkept.subset hx).1, fun x => ?_, fun x hx => ?_, fun x hx => ?_,
          fun x hx => ?_, fun x hx hpos => ?_⟩
        · rw [mem_free, store_live, hkept.live, hsame.live, store_live]
          constructor
          · rintro ⟨⟨hlive, hin⟩, hxa⟩
            exact ⟨hlive, fun hx => hin ⟨hx, hxa⟩⟩
          · rintro ⟨hlive, hin⟩
            refine ⟨⟨hlive, fun hx => hin hx.1⟩, ?_⟩
            rintro rfl
            exact haD₂ (hin ha)
        · have hxa : x ≠ a := fun hxa => hx (hxa ▸ ha)
          refine (store_of_ne n₂ hxa).trans ?_
          rw [hkept.outside x fun hin => hx hin.1, hsame.outside x hx, store_of_ne n₀ hxa]
        · rw [parent, hother x hx]
          exact (hkept.parent x hx).trans ((hsame.parent x).trans (hparent₀ x))
        · rw [hother x hx, hkept.label x hx, hsame.label x, hlabel₀]
        · rw [hother x hx]
          refine hkept.pos x hx ?_
          rwa [hsame.refcount, store_of_ne n₀ (hne₂ x hx)]
    · refine ⟨s.store a n₀, D, kids, ?_, h₀, Kept.store ha rfl rfl (Nat.pos_of_ne_zero hlast)⟩
      simp only [if_neg hlast]

/-- A node with more than one reference stays. -/
theorem releaseNode_of_lt (ha : a ∈ s.live) (hpos : 1 < (s.nodes a).refcount) :
    s.releaseNode a =
      some (s.store a { s.nodes a with refcount := (s.nodes a).refcount - 1 }) := by
  rw [releaseNode, bound, releaseWithin_succ ha (Nat.zero_lt_of_lt hpos)]
  exact if_neg (by omega)

theorem releaseNode_spec (h : Graph s D held kids) (ha : a ∈ D)
    (hextra : held a + (kids a).length + rootRefs a < (s.nodes a).refcount) :
    ∃ s' D' kids', s.releaseNode a = some s' ∧ Graph s' D' held kids' ∧ Kept s D s' D' := by
  obtain ⟨l, hl, -, hlen⟩ := h.path ha
  exact releaseWithin_spec h ha hextra hl hlen.le

theorem Kept.trans {s'' : Fuse} {D'' : Set ℕ} (h : Kept s D s' D') (h' : Kept s' D' s'' D'') :
    Kept s D s'' D'' where
  subset := h'.subset.trans h.subset
  live x := by
    rw [h'.live, h.live]
    constructor
    · rintro ⟨⟨hlive, hin⟩, hin'⟩
      exact ⟨hlive, fun hx => hin' (hin hx)⟩
    · rintro ⟨hlive, hin⟩
      exact ⟨⟨hlive, fun hx => h'.subset (hin hx)⟩, fun hx => hin (h.subset hx)⟩
  outside x hx := (h'.outside x fun hin => hx (h.subset hin)).trans (h.outside x hx)
  parent x hx := (h'.parent x hx).trans (h.parent x (h'.subset hx))
  label x hx := (h'.label x hx).trans (h.label x (h'.subset hx))
  pos x hx hpos := h'.pos x hx (h.pos x (h'.subset hx) hpos)

/-- **The kernel returns references** that it has. -/
theorem handleForget_spec (n : ℕ) (h : Graph s D held kids) (ha : a ∈ D)
    (hextra : held a + (kids a).length + rootRefs a + n ≤ (s.nodes a).refcount) :
    ∃ s' D' kids', s.handleForget a n = some s' ∧ Graph s' D' held kids' ∧ Kept s D s' D' := by
  induction n generalizing s with
  | zero => exact ⟨s, D, kids, rfl, h, Kept.refl s D⟩
  | succ n ih =>
    rw [handleForget]
    cases n with
    | zero =>
      -- only the last reference can be the last of the node
      obtain ⟨s', D', kids', hrelease, h', hkept⟩ := releaseNode_spec h ha (by omega)
      refine ⟨s', D', kids', ?_, h', hkept⟩
      rw [hrelease]
      rfl
    | succ n =>
      set n₀ : Node := { s.nodes a with refcount := (s.nodes a).refcount - 1 } with hn₀
      have hcount : held a + (kids a).length + rootRefs a + (n + 1) ≤ n₀.refcount := by
        rw [hn₀]
        exact Nat.le_sub_one_of_lt hextra
      have h₀ : Graph (s.store a n₀) D held kids := h.store rfl rfl rfl (by omega)
      obtain ⟨s', D', kids', hforget, h', hkept⟩ := ih h₀ (by rwa [store_self])
      have hkept₀ : Kept s D (s.store a n₀) D := Kept.store ha rfl rfl (by omega)
      refine ⟨s', D', kids', ?_, h', hkept₀.trans hkept⟩
      rw [releaseNode_of_lt (h.live a ha) (by omega)]
      exact hforget

/-! ### New nodes -/

/-- **A new node**, with one reference. -/
theorem createNode_spec (env : Env) (h : Graph s D held kids) (hp : p ∈ D)
    (hroom : (s.nodes p).refcount + 1 < 2 ^ 32) {name actual : Name} {m : Alloc}
    (hm : m.address name actual = some a) (h0 : a ≠ 0) (hroot : a ≠ rootId) (hfresh : a ∉ s.live) :
    ∃ s', s.createNode env p name actual m = some (s', a) ∧
      Graph s' (insert a D) held (update (update kids a []) p (a :: kids p)) ∧
      (s'.nodes a).refcount = 1 ∧ s'.live = a :: s.live ∧
      (∀ x, s'.parent x = update s.parent a p x) ∧
      (s'.nodes a).label =
        (name, keepActual name actual,
          derive env.config env.packages (s.nodes p).derived name) ∧
      (∀ x, x ≠ a → (s'.nodes x).label = (s.nodes x).label) ∧
      ∀ x, x ≠ a → (s.nodes x).refcount ≤ (s'.nodes x).refcount := by
  have haD : a ∉ D := fun hin => hfresh (h.live a hin)
  have hpa : p ≠ a := fun hpa => haD (hpa ▸ hp)
  set n : Node :=
    { refcount := 1
      gen := s.nextGeneration
      derived := derive env.config env.packages (s.nodes p).derived name
      next := 0
      child := 0
      parent := 0
      name := name
      actualName := keepActual name actual } with hn
  set s₁ : Fuse :=
    ⟨update s.nodes a n, a :: s.live, (s.nextGeneration + 1) % 2 ^ 64⟩ with hs₁
  have hself : s₁.nodes a = n := by rw [hs₁]; exact update_self a n s.nodes
  have hother : ∀ x, x ≠ a → s₁.nodes x = s.nodes x := fun x hx => by
    rw [hs₁]
    exact update_of_ne hx n s.nodes
  have hneD : ∀ x ∈ D, x ≠ a := fun x hx hxa => haD (hxa ▸ hx)
  have hlists : Lists s₁ (insert a D) (update kids a []) := by
    refine ⟨fun x hx => ?_, fun hin => ?_, fun x hx => ?_, fun x hx b hb => ?_⟩
    · rcases hx with rfl | hx
      · exact mem_cons_self
      · exact mem_cons_of_mem _ (h.live x hx)
    · rcases hin with h0' | hin
      · exact h0 h0'.symm
      · exact h.null hin
    · rcases hx with rfl | hx
      · rw [update_self, hself]
        exact .nil
      · rw [update_of_ne (hneD x hx), hother x (hneD x hx)]
        refine (h.chain x hx).congr fun b hb => ?_
        rw [next, hother b (hneD b (h.mem x hx b hb).1)]
        rfl
    · rcases hx with rfl | hx
      · rw [update_self] at hb
        exact absurd hb not_mem_nil
      · rw [update_of_ne (hneD x hx)] at hb
        obtain ⟨hbD, hbx⟩ := h.mem x hx b hb
        refine ⟨Or.inr hbD, Eq.trans ?_ hbx⟩
        rw [parent, hother b (hneD b hbD)]
        rfl
  have hout : ∀ b ∈ insert a D, a ∉ update kids a [] b := by
    intro b hb
    rcases hb with rfl | hb
    · rw [update_self]
      exact not_mem_nil
    · rw [update_of_ne (hneD b hb)]
      exact fun hin => haD (h.mem b hb a hin).1
  obtain ⟨s₂, hadd, hlists₂, hlive₂, hparent₂, hcount₂, hlabel₂⟩ :=
    addNodeToParent_spec hlists (Or.inl rfl) (Or.inr hp) hpa.symm hout
      (by rw [hother p hpa]; exact hroom)
  rw [update_of_ne hpa] at hlists₂
  rw [hother p hpa] at hcount₂
  have hparent : ∀ x, s₂.parent x = update s.parent a p x := by
    intro x
    rw [hparent₂]
    by_cases hxa : x = a
    · rw [hxa, update_self, update_self]
    · rw [update_of_ne hxa, update_of_ne hxa, parent, hother x hxa]
      rfl
  have hparentD : ∀ x ∈ D, s₂.parent x = s.parent x := fun x hx => by
    rw [hparent, update_of_ne (hneD x hx)]
  have htree : ∀ b ∈ D, ∃ l, Linked 0 s₂.parent b l ∧ ∀ c ∈ l, c ∈ insert a D := by
    intro b hb
    obtain ⟨l, hl, hin⟩ := h.tree b hb
    exact ⟨l, hl.congr fun c hc => hparentD c (hin c hc), fun c hc => Or.inr (hin c hc)⟩
  refine ⟨s₂, ?_, ⟨hlists₂, Or.inr h.root, ?_, ?_, ?_, ?_, ?_⟩, ?_, hlive₂, hparent, ?_, ?_, ?_⟩
  · rw [createNode, hm]
    change (s.load p >>= _) = _
    rw [load_bind (h.live p hp)]
    change (acquireNode _ a).bind _ = _
    rw [acquireNode_spec (by exact mem_cons_self) (by simp), bind_some]
    simp only [store, update_self, update_idem]
    change (s₁.addNodeToParent a p).bind _ = _
    rw [hadd]
    rfl
  · rw [hparentD rootId h.root, h.rootParent]
  · intro b hb hbroot
    rcases hb with rfl | hb
    · rw [hparent, update_self, update_self]
      exact ⟨Or.inr hp, mem_cons_self⟩
    · obtain ⟨hq, hin⟩ := h.up b hb hbroot
      rw [hparentD b hb]
      refine ⟨Or.inr hq, ?_⟩
      by_cases hqp : s.parent b = p
      · rw [hqp, update_self]
        rw [hqp] at hin
        exact mem_cons_of_mem _ hin
      · rw [update_of_ne hqp, update_of_ne (hneD _ hq)]
        exact hin
  · intro b hb
    rcases hb with rfl | hb
    · obtain ⟨l, hl, hin⟩ := htree p hp
      refine ⟨b :: l, .cons h0 ?_, forall_mem_cons.mpr ⟨Or.inl rfl, hin⟩⟩
      rwa [hparent, update_self]
    · exact htree b hb
  · intro b hb
    rw [hcount₂]
    rcases hb with rfl | hb
    · have hheld : held b = 0 := Nat.eq_zero_of_not_pos fun hpos => haD (h.held b hpos)
      rw [update_of_ne hpa.symm, update_self, update_of_ne hpa.symm,
        hself, hheld, rootRefs, if_neg hroot]
      exact Nat.zero_le _
    · by_cases hbp : b = p
      · subst hbp
        rw [update_self, update_self, length_cons]
        have hcount := h.count b hb
        omega
      · rw [update_of_ne hbp, update_of_ne hbp,
          update_of_ne (hneD b hb), hother b (hneD b hb)]
        exact h.count b hb
  · exact fun b hb => Or.inr (h.held b hb)
  · rw [hcount₂, update_of_ne hpa.symm, hself]
  · rw [hlabel₂, hself]
    rfl
  · intro x hx
    rw [hlabel₂, hother x hx]
  · intro x hx
    rw [hcount₂]
    by_cases hxp : x = p
    · rw [hxp, update_self]
      exact Nat.le_succ _
    · rw [update_of_ne hxp, hother x hx]

/-! ### Moved nodes -/

theorem Graph.parent_ne (h : Graph s D held kids) (ha : a ∈ D) : s.parent a ≠ a := by
  intro heq
  obtain ⟨l, hl, -⟩ := h.tree a ha
  obtain ⟨l', rfl⟩ := hl.head fun h0 => h.null (h0 ▸ ha)
  have htail := hl.tail.2
  rw [heq] at htail
  have hlen := congrArg List.length (hl.unique htail)
  simp at hlen

/-- **A node leaves its parent**, which has other references. -/
theorem removeNodeFromParent_spec (h : Graph s D held kids) (hp : p ∈ D) (hc : c ∈ kids p)
    (hmore : 1 < (s.nodes p).refcount) :
    ∃ s₁, s.removeNodeFromParent c = some s₁ ∧
      Lists s₁ D (update kids p ((kids p).erase c)) ∧ s₁.live = s.live ∧
      (∀ b ∈ D, c ∉ update kids p ((kids p).erase c) b) ∧
      (∀ x, (s₁.nodes x).refcount =
        update (fun x => (s.nodes x).refcount) p ((s.nodes p).refcount - 1) x) ∧
      (∀ x, x ≠ c → s₁.parent x = s.parent x) ∧
      ∀ x, (s₁.nodes x).label = (s.nodes x).label := by
  obtain ⟨hcD, hcp⟩ := h.mem p hp c hc
  have hcroot := h.ne_root hp hc
  have hpc : p ≠ c := fun hpc => h.parent_ne hcD (hcp.trans hpc)
  obtain ⟨s₀, hunlink, hlists, hsame⟩ := unlinkNode_spec h.toLists hp hc
  set kids₁ := update kids p ((kids p).erase c) with hkids₁
  set np : Node := { s₀.nodes p with refcount := (s₀.nodes p).refcount - 1 } with hnp
  set nc : Node := { s₀.nodes c with parent := 0, next := 0 } with hnc
  set s₁ := (s₀.store p np).store c nc with hs₁
  have hlive₁ : s₁.live = s.live := hsame.live
  have hremove : s.removeNodeFromParent c = some s₁ := by
    have hrelease : s₀.releaseNode p = some (s₀.store p np) :=
      releaseNode_of_lt (by rw [hsame.live]; exact h.live p hp)
        (by rw [hsame.refcount]; exact hmore)
    rw [removeNodeFromParent, removeNodeWith, load_bind (h.live c hcD)]
    change (if s.parent c ≠ 0 then _ else _) = _
    rw [if_pos (h.parent_ne_null hcD hcroot)]
    change ((s.unlinkNode c (s.parent c) _).bind _) = _
    rw [hcp, hunlink, bind_some]
    change ((s₀.releaseNode (s.parent c)).bind _) = _
    rw [hcp, hrelease, bind_some]
    rw [load_bind (s := s₀.store p np) (by rw [store_live, hsame.live]; exact h.live c hcD),
      store_of_ne np hpc.symm]
  have hout : ∀ b ∈ D, c ∉ kids₁ b := by
    rw [hkids₁, ← hcp]
    exact h.notMem_erased (hcp ▸ hp)
  have hfield : ∀ {α : Type} (f : Node → α), f np = f (s₀.nodes p) → ∀ x, x ≠ c →
      f (s₁.nodes x) = f (s₀.nodes x) := by
    intro α f hf x hx
    rw [hs₁, store_of_ne nc hx]
    exact store_field f hf x
  have hself : s₁.nodes c = nc := store_self _ _ _
  have hlists₁ : Lists s₁ D kids₁ := by
    refine hlists.congr (fun x hx => by rw [hlive₁]; exact h.live x hx) (fun x _ => ?_) ?_
    · by_cases hxc : x = c
      · rw [hxc, hself]
      · exact hfield Node.child rfl x hxc
    · intro x hx b hb
      have hbc : b ≠ c := fun hbc => hout x hx (hbc ▸ hb)
      exact ⟨hfield Node.next rfl b hbc, hfield Node.parent rfl b hbc⟩
  have hcount₁ : ∀ x, (s₁.nodes x).refcount =
      update (fun x => (s.nodes x).refcount) p ((s.nodes p).refcount - 1) x := by
    intro x
    by_cases hxc : x = c
    · rw [hxc, hself, update_of_ne hpc.symm, hnc]
      exact hsame.refcount c
    · rw [hs₁, store_of_ne nc hxc]
      by_cases hxp : x = p
      · rw [hxp, store_self, update_self, hnp, hsame.refcount]
      · rw [store_of_ne np hxp, update_of_ne hxp, hsame.refcount]
  refine ⟨s₁, hremove, hlists₁, hlive₁, hout, hcount₁, fun x hx => ?_, fun x => ?_⟩
  · exact (hfield Node.parent rfl x hx).trans (hsame.parent x)
  · rw [← hsame.label]
    by_cases hxc : x = c
    · rw [hxc, hself]
      rfl
    · exact hfield Node.label rfl x hxc

variable (h : Graph s D held kids) {q : ℕ} (hq : q ∈ D)
  (hbelow : ∀ l, Linked 0 s.parent q l → c ∉ l)

include h hq hbelow in
theorem Graph.ne_of_not_below : q ≠ c := by
  rintro rfl
  obtain ⟨l, hl, -⟩ := h.tree q hq
  obtain ⟨l', rfl⟩ := hl.head fun h0 => h.null (h0 ▸ hq)
  exact hbelow _ hl mem_cons_self

include h hq hbelow in
/-- **A node moves to another parent** that is not below it. -/
theorem relink_spec (hp : p ∈ D) (hc : c ∈ kids p) (hheld : p = rootId ∨ 0 < held p)
    (hroom : (s.nodes q).refcount + 1 < 2 ^ 32) :
    ∃ s₁ s₂ kids₂, s.removeNodeFromParent c = some s₁ ∧ s₁.addNodeToParent c q = some s₂ ∧
      Graph s₂ D held kids₂ ∧ s₂.live = s.live ∧
      (∀ x, s₂.parent x = update s.parent c q x) ∧
      (∀ x, (s₂.nodes x).label = (s.nodes x).label) ∧
      kids₂ c = kids c ∧ (s₂.nodes c).refcount = (s.nodes c).refcount ∧
      ∀ x, 0 < (s.nodes x).refcount → 0 < (s₂.nodes x).refcount := by
  obtain ⟨hcD, hcp⟩ := h.mem p hp c hc
  have hcroot := h.ne_root hp hc
  have hpc : p ≠ c := fun hpc => h.parent_ne hcD (hcp.trans hpc)
  obtain ⟨lq, hlq, hlqD⟩ := h.tree q hq
  have hqc := h.ne_of_not_below hq hbelow
  -- the old parent has a reference of the kernel, and is not freed
  have hpcount := h.count p hp
  have hpos := length_pos_of_mem hc
  have hpheld : 1 ≤ held p + rootRefs p := by
    rcases hheld with rfl | hheld
    · simp [rootRefs]
    · omega
  set kids₁ := update kids p ((kids p).erase c) with hkids₁
  obtain ⟨s₁, hremove, hlists₁, hlive₁, hout, hcount₁, hparent₁, hlabel₁⟩ :=
    removeNodeFromParent_spec h hp hc (by omega)
  have hqcount : (s₁.nodes q).refcount + 1 < 2 ^ 32 := by
    rw [hcount₁]
    by_cases hqp : q = p
    · subst hqp
      rw [update_self]
      omega
    · rwa [update_of_ne hqp]
  obtain ⟨s₂, hadd, hlists₂, hlive₂, hparent₂, hcount₂, hlabel₂⟩ :=
    addNodeToParent_spec hlists₁ hcD hq hqc.symm hout hqcount
  have hparent : ∀ x, s₂.parent x = update s.parent c q x := by
    intro x
    rw [hparent₂]
    by_cases hxc : x = c
    · rw [hxc, update_self, update_self]
    · rw [update_of_ne hxc, update_of_ne hxc, hparent₁ x hxc]
  have hparent_ne : ∀ x, x ≠ c → s₂.parent x = s.parent x := fun x hx => by
    rw [hparent, update_of_ne hx]
  have hpath : Linked 0 s₂.parent c (c :: lq) := by
    refine .cons (fun h0 => h.null (h0 ▸ hcD)) ?_
    rw [hparent, update_self]
    exact hlq.congr fun x hx => hparent_ne x fun hxc => hbelow lq hlq (hxc ▸ hx)
  refine ⟨s₁, s₂, update kids₁ q (c :: kids₁ q), hremove, hadd,
    ⟨hlists₂, h.root, ?_, ?_, ?_, ?_, h.held⟩, hlive₂.trans hlive₁, hparent, ?_, ?_, ?_, ?_⟩
  · rw [hparent_ne rootId hcroot.symm, h.rootParent]
  · intro b hb hbroot
    by_cases hbc : b = c
    · subst hbc
      rw [hparent, update_self, update_self]
      exact ⟨hq, mem_cons_self⟩
    · obtain ⟨hbp, hin⟩ := h.up b hb hbroot
      rw [hparent_ne b hbc]
      have hin₁ : b ∈ kids₁ (s.parent b) := by
        rw [hkids₁]
        by_cases heq : s.parent b = p
        · rw [heq, update_self]
          rw [heq] at hin
          exact (mem_erase_of_ne hbc).mpr hin
        · rwa [update_of_ne heq]
      refine ⟨hbp, ?_⟩
      by_cases heq : s.parent b = q
      · rw [heq, update_self]
        rw [heq] at hin₁
        exact mem_cons_of_mem _ hin₁
      · rwa [update_of_ne heq]
  · -- a way up that comes to `c` goes on from `q`
    intro b hb
    obtain ⟨l, hl, hlD⟩ := h.tree b hb
    exact hl.reroute hlD hparent_ne hpath (forall_mem_cons.mpr ⟨hcD, hlqD⟩)
  · intro b hb
    have hcount := h.count b hb
    have hle : held b + (kids₁ b).length + rootRefs b ≤ (s₁.nodes b).refcount := by
      rw [hkids₁, hcount₁]
      by_cases hbp : b = p
      · subst hbp
        rw [update_self, update_self, length_erase_of_mem hc]
        omega
      · rwa [update_of_ne hbp, update_of_ne hbp]
    rw [hcount₂]
    by_cases hbq : b = q
    · subst hbq
      rw [update_self, update_self, length_cons]
      omega
    · rwa [update_of_ne hbq, update_of_ne hbq]
  · intro x
    rw [hlabel₂, hlabel₁]
  · rw [update_of_ne hqc.symm, hkids₁, update_of_ne hpc.symm]
  · rw [hcount₂, update_of_ne hqc.symm, hcount₁, update_of_ne hpc.symm]
  · intro x hx
    have hpos₁ : 0 < (s₁.nodes x).refcount := by
      rw [hcount₁]
      by_cases hxp : x = p
      · rw [hxp, update_self]
        omega
      · rwa [update_of_ne hxp]
    rw [hcount₂]
    by_cases hxq : x = q
    · rw [hxq, update_self]
      exact Nat.succ_pos _
    · rwa [update_of_ne hxq]

end Fuse

end Sdcard
