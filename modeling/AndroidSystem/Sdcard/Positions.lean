/-
Derived permissions and the position of a node (`sdcard/sdcard.c`).

A node gets its owner, group and mode when it is made; `handle_rename` gives it another name and
another parent, but leaves them as they are.  `Derives` says that the state of every node is the
one for its position, which is the chain of names that leads to it from the root.

`derived_iff`: this holds all along a run if and only if every rename moves a node to
a place for which it would get the state that it has.
-/
import AndroidSystem.Sdcard.Integrity

open CInt Runs List Function

namespace Sdcard

namespace Fuse

variable {env : Env} {s s' : Fuse} {held : ℕ → ℕ} {a b p : ℕ} {l : List ℕ}

/-- The state of every node is the one for the names that lead to it from the root. -/
def Derives (env : Env) (s : Fuse) : Prop :=
  ∀ a ∈ s.live, a ≠ rootId → ∃ l, Linked 0 s.parent a (l ++ [rootId]) ∧
    (s.nodes a).derived =
      derivePath env.config env.packages (l.map fun b => (s.nodes b).name).reverse

/-- The state of a node is the one for its parent and its name. -/
def DerivedAt (env : Env) (s : Fuse) (a : ℕ) : Prop :=
  (s.nodes a).derived =
    derive env.config env.packages (s.nodes (s.parent a)).derived (s.nodes a).name

theorem derivePath_cons (c : Config) (m : Packages) (x : Name) (names : List Name) :
    derivePath c m (x :: names).reverse = derive c m (derivePath c m names.reverse) x := by
  rw [reverse_cons, derivePath, foldl_append]
  rfl

/-- The chain of names can be followed one name at a time. -/
theorem derives_iff (h : Sound s held)
    (hroot : (s.nodes rootId).derived = rootDerived env.config) :
    Derives env s ↔ ∀ a ∈ s.live, a ≠ rootId → DerivedAt env s a := by
  obtain ⟨⟨kids, hgraph⟩, -⟩ := h
  have hend : ∀ {l : List ℕ}, Linked 0 s.parent rootId (l ++ [rootId]) → l = [] := by
    intro l hl
    cases l with
    | nil => rfl
    | cons b l =>
      obtain ⟨rfl, htail⟩ := hl.tail
      rw [hgraph.rootParent] at htail
      exact absurd htail.eq_nil (by simp)
  constructor
  · intro hall a ha hne
    obtain ⟨l, hl, hderived⟩ := hall a ha hne
    cases l with
    | nil => exact absurd hl.tail.1 hne
    | cons b l =>
      obtain ⟨rfl, htail⟩ := hl.tail
      rw [map_cons, derivePath_cons] at hderived
      -- the chain of the parent is the rest of that of the node
      have hparent : (s.nodes (s.parent a)).derived =
          derivePath env.config env.packages (l.map fun b => (s.nodes b).name).reverse := by
        by_cases hp : s.parent a = rootId
        · rw [hp] at htail
          rw [hp, hend htail, hroot]
          rfl
        · obtain ⟨l', hl', hderived'⟩ := hall _ (hgraph.up a ha hne).1 hp
          rw [hderived', append_cancel_right (hl'.unique htail)]
      rw [DerivedAt, hparent]
      exact hderived
  · intro hat a ha hne
    have hchain : ∀ (l : List ℕ) a, a ∈ s.live → Linked 0 s.parent a (l ++ [rootId]) →
        (s.nodes a).derived =
          derivePath env.config env.packages (l.map fun b => (s.nodes b).name).reverse := by
      intro l
      induction l with
      | nil =>
        intro a _ hl
        obtain ⟨rfl, -⟩ := hl.tail
        exact hroot
      | cons b l ih =>
        intro a ha hl
        obtain ⟨rfl, htail⟩ := hl.tail
        have hne : a ≠ rootId := by
          rintro rfl
          exact absurd (hend hl) (cons_ne_nil _ _)
        have hderived : (s.nodes a).derived = _ := hat a ha hne
        rw [hderived, ih _ (hgraph.up a ha hne).1 htail, map_cons, derivePath_cons]
    obtain ⟨l, hl, hin⟩ := hgraph.tree a ha
    obtain ⟨l', rfl⟩ := hgraph.ends hl hin fun h0 => hgraph.null (h0 ▸ ha)
    exact ⟨l', hl, hchain l' a ha hl⟩

theorem derived_of_label {n n' : Node} (h : n'.label = n.label) :
    n'.name = n.name ∧ n'.derived = n.derived :=
  ⟨congrArg (fun l => l.1) h, congrArg (fun l => l.2.2) h⟩

/-- Only labels and parents matter. -/
theorem DerivedAt.congr (h : DerivedAt env s a) (hparent : s'.parent a = s.parent a)
    (hlabel : (s'.nodes a).label = (s.nodes a).label)
    (hup : (s'.nodes (s.parent a)).derived = (s.nodes (s.parent a)).derived) :
    DerivedAt env s' a := by
  obtain ⟨hname, hderived⟩ := derived_of_label hlabel
  rw [DerivedAt, hparent, hname, hderived, hup]
  exact h

end Fuse

/-! ### Requests -/

/-- A successful rename moves a node to a place for which it would get the state that it has. -/
def KeepsDerived (env : Env) (s : System) (e : Request × World) : Prop :=
  ∀ p q old new, e.1 = .rename p q old new →
    ∀ s', s.fuse.handleFuseRequest env e.2 e.1 = some (s', .success) →
      ∀ c ∈ s.fuse.lookupChildByName p old,
        derive env.config env.packages (s.fuse.nodes q).derived new = (s.fuse.nodes c).derived

/-- The nodes are a tree, and the root has its state. -/
def Rooted (env : Env) (s : System) : Prop :=
  Fuse.Sound s.fuse s.held ∧ (s.fuse.nodes rootId).derived = rootDerived env.config

/-- The state of every node is the one for its parent and its name. -/
def AllDerived (env : Env) (s : System) : Prop :=
  ∀ a ∈ s.fuse.live, a ≠ rootId → s.fuse.DerivedAt env a

theorem Fuse.Sound.root_live {s : Fuse} {held : ℕ → ℕ} (h : s.Sound held) : rootId ∈ s.live := by
  obtain ⟨⟨kids, hgraph⟩, -⟩ := h
  exact hgraph.root

theorem Fuse.Sound.parent_live {s : Fuse} {held : ℕ → ℕ} {a : ℕ} (h : s.Sound held)
    (ha : a ∈ s.live) (hne : a ≠ rootId) : s.parent a ∈ s.live := by
  obtain ⟨⟨kids, hgraph⟩, -⟩ := h
  exact (hgraph.up a ha hne).1

section Steps

variable {env : Env} {s : System} {e : Request × World} {t : Fuse} {reply : Reply}

/-- The root keeps its state. -/
theorem effect_root (h : Fuse.Sound s.fuse s.held) (ht : rootId ∈ t.live)
    (heffect : Fuse.Effect env s.fuse e.2 e.1 t reply) :
    (t.nodes rootId).derived = (s.fuse.nodes rootId).derived := by
  obtain ⟨r, w⟩ := e
  cases heffect with
  | kept hkept _ _ => exact (Fuse.derived_of_label (hkept.label _ ht)).2
  | entered _ _ _ _ hentered _ =>
    cases hentered with
    | noMemory => rfl
    | acquired => exact Fuse.store_field Node.derived (by exact rfl) rootId
    | created _ _ hfresh _ _ _ hother =>
      refine (Fuse.derived_of_label (hother rootId ?_)).2
      rintro rfl
      exact hfresh h.root_live
  | moved _ _ hne _ _ hmoved => exact (Fuse.derived_of_label (hmoved.other _ hne.symm)).2

/-- **A request keeps the states right** if and only if it does not move a node to a place for which
it would get another one. -/
theorem effect_derived (h : Fuse.Sound s.fuse s.held) (hall : AllDerived env s)
    (hheld : ∃ held, Fuse.Sound t held)
    (hhandle : s.fuse.handleFuseRequest env e.2 e.1 = some (t, reply))
    (heffect : Fuse.Effect env s.fuse e.2 e.1 t reply) :
    (∀ a ∈ t.live, a ≠ rootId → t.DerivedAt env a) ↔ KeepsDerived env s e := by
  obtain ⟨held, hsound⟩ := hheld
  have hkeeps : (∀ p q old new, reply = .success → e.1 ≠ .rename p q old new) →
      KeepsDerived env s e := by
    intro hno p q old new hr s' hs'
    rw [hhandle] at hs'
    cases hs'
    exact absurd hr (hno p q old new rfl)
  obtain ⟨r, w⟩ := e
  cases heffect with
  | kept hkept _ hrename =>
    refine iff_of_true (fun a ha hne => ?_) (hkeeps fun p q old new hs => hrename hs p q old new)
    have hup : s.fuse.parent a ∈ t.live := by
      rw [← hkept.parent a ha]
      exact hsound.parent_live ha hne
    exact (hall a (hkept.subset ha) hne).congr (hkept.parent a ha) (hkept.label a ha)
      (Fuse.derived_of_label (hkept.label _ hup)).2
  | @entered _ p name parentPath path actual _ b hr hp hpath hfind hentered ha0 =>
    refine iff_of_true (fun a ha hne => ?_) (hkeeps fun _ _ _ _ hs => Reply.noConfusion hs)
    cases hentered with
    | noMemory => exact absurd rfl ha0
    | acquired _ _ _ =>
      exact (hall a ha hne).congr (Fuse.store_field Node.parent (by exact rfl) a)
        (Fuse.store_field Node.label (by exact rfl) a)
        (Fuse.store_field Node.derived (by exact rfl) _)
    | created _ _ hfresh hlive hparent hlabel hother =>
      by_cases hab : a = b
      · subst hab
        have hpa := hother _ fun hpa => hfresh (hpa ▸ hp)
        rw [Fuse.DerivedAt, hparent, update_self, (Fuse.derived_of_label hpa).2]
        have hname : (t.nodes a).name = _ := congrArg (fun l => l.1) hlabel
        have hderived : (t.nodes a).derived = _ := congrArg (fun l => l.2.2) hlabel
        rw [hname, hderived]
      · rw [hlive] at ha
        have ha := mem_of_ne_of_mem hab ha
        have hup := hother (s.fuse.parent a) fun hpb => hfresh (hpb ▸ h.parent_live ha hne)
        refine (hall a ha hne).congr ?_ (hother a hab) (Fuse.derived_of_label hup).2
        rw [hparent, update_of_ne hab]
  | @moved p q c old new actual _ hc hclive hcroot hq hqc hmoved =>
    have hname : (t.nodes c).name = new := congrArg (fun l => l.1) hmoved.label
    have hderived : (t.nodes c).derived = (s.fuse.nodes c).derived :=
      congrArg (fun l => l.2.2) hmoved.label
    have hsame : ∀ x, (t.nodes x).derived = (s.fuse.nodes x).derived := by
      intro x
      by_cases hxc : x = c
      · rw [hxc, hderived]
      · exact (Fuse.derived_of_label (hmoved.other x hxc)).2
    -- the node that is moved is the only one whose name or parent changes
    have hat : t.DerivedAt env c ↔
        (s.fuse.nodes c).derived =
          derive env.config env.packages (s.fuse.nodes q).derived new := by
      rw [Fuse.DerivedAt, hmoved.parent, update_self, hname, hsame, hsame]
    constructor
    · intro hnew p' q' old' new' hr s' _ c' hc'
      cases hr
      rw [hc] at hc'
      cases hc'
      refine (hat.mp (hnew c ?_ hcroot)).symm
      rw [hmoved.live]
      exact hclive
    · intro hkeep a ha hne
      by_cases hac : a = c
      · rw [hac, hat]
        exact (hkeep p q old new rfl t hhandle c hc).symm
      · rw [hmoved.live] at ha
        refine (hall a ha hne).congr ?_ (hmoved.other a hac) (hsame _)
        rw [hmoved.parent, update_of_ne hac]

theorem step_rooted {s' : System} (h : Rooted env s) (hlegal : Legal s e ∧ Room s e)
    (hstep : step env s e = some s') : Rooted env s' := by
  obtain ⟨⟨t, reply⟩, hhandle, rfl⟩ := Option.map_eq_some_iff.mp hstep
  obtain ⟨heffect, hsound⟩ := Fuse.effect h.1 hlegal.1 hlegal.2 hhandle
  exact ⟨hsound, (effect_root h.1 hsound.root_live heffect).trans h.2⟩

theorem step_derived (h : Rooted env s) (hlegal : Legal s e ∧ Room s e) (hall : AllDerived env s) :
    (∀ s' ∈ step env s e, AllDerived env s') ↔ KeepsDerived env s e := by
  cases hhandle : s.fuse.handleFuseRequest env e.2 e.1 with
  | none =>
    have hstep : step env s e = none := by rw [step, hhandle]; rfl
    refine iff_of_true (fun s' hs' => ?_) fun p q old new _ s' hs' => ?_
    · rw [hstep] at hs'
      cases hs'
    · rw [hhandle] at hs'
      cases hs'
  | some r =>
    obtain ⟨t, reply⟩ := r
    obtain ⟨heffect, hsound⟩ := Fuse.effect h.1 hlegal.1 hlegal.2 hhandle
    have hstep : step env s e = some ⟨t, kernelRefs s.held e.2.written e.1 reply⟩ := by
      rw [step, hhandle]
      rfl
    rw [← effect_derived h.1 hall ⟨_, hsound⟩ hhandle heffect, hstep]
    exact ⟨fun hs => hs _ rfl, fun hs s' hs' => by cases hs'; exact hs⟩

end Steps

theorem fuseInit_rooted (env : Env) : Rooted env (fuseInit env) := ⟨fuseInit_sound env, rfl⟩

/-- **The derived state of every node is the one for its position**, all along a run, if and only if
every rename moves a node to a place for which it would get the state that it has. -/
theorem derived_iff (env : Env) (es : List (Request × World))
    (hruns : Along (step env) (fun s e => Legal s e ∧ Room s e) (fuseInit env) es) :
    Along (step env) (fun s e => ∀ s' ∈ step env s e, s'.fuse.Derives env) (fuseInit env) es ↔
      Along (step env) (KeepsDerived env) (fuseInit env) es := by
  have hinit : AllDerived env (fuseInit env) := fun a ha hne =>
    absurd (mem_singleton.mp ha) hne
  have hstep : ∀ {s : System} {e : Request × World} {s' : System}, Rooted env s →
      Legal s e ∧ Room s e → step env s e = some s' → Rooted env s' := step_rooted
  rw [← along_keeps_iff_of hstep step_derived (fuseInit_rooted env) hinit hruns]
  refine along_iff hstep (fun {s e} hs hc => ?_) (fuseInit_rooted env) hruns
  refine forall₂_congr fun s' hs' => ?_
  have hrooted := hstep hs hc hs'
  exact Fuse.derives_iff hrooted.1 hrooted.2

theorem derived_iff_sampleRun :
    Along (step (sampleEnv .unified)) (fun s e => Legal s e ∧ Room s e)
      (fuseInit (sampleEnv .unified)) sampleRun ∧
    (Along (step (sampleEnv .unified))
        (fun s e => ∀ s' ∈ step (sampleEnv .unified) s e, s'.fuse.Derives (sampleEnv .unified))
        (fuseInit (sampleEnv .unified)) sampleRun ↔
      Along (step (sampleEnv .unified)) (KeepsDerived (sampleEnv .unified))
        (fuseInit (sampleEnv .unified)) sampleRun) :=
  have h : Along (step (sampleEnv .unified)) (fun s e => Legal s e ∧ Room s e)
      (fuseInit (sampleEnv .unified)) sampleRun := by decide +kernel
  ⟨h, derived_iff (sampleEnv .unified) sampleRun h⟩

/-- A directory is made and renamed to `Android`. -/
def renamedRun : List (Request × World) :=
  [(.mkdir 1 (text "tmp"), sampleWorld (some 8)),
    (.rename 1 1 (text "tmp") (text "Android"), sampleWorld none)]

/-- A directory that is renamed to `Android` is not the directory `/Android`. -/
theorem rename_keeps_state :
    Along (step (sampleEnv .unified)) (fun s e => Legal s e ∧ Room s e)
        (fuseInit (sampleEnv .unified)) renamedRun ∧
      ∃ s, run (step (sampleEnv .unified)) (fuseInit (sampleEnv .unified)) renamedRun = some s ∧
        8 ∈ s.fuse.live ∧ s.fuse.parent 8 = rootId ∧ (s.fuse.nodes 8).name = text "Android" ∧
        (s.fuse.nodes 8).derived.perm = .inherit ∧
        (derivePath (sampleEnv .unified).config (sampleEnv .unified).packages
          [text "Android"]).perm = .android ∧ ¬ s.fuse.Derives (sampleEnv .unified) := by
  have hlegal : Along (step (sampleEnv .unified)) (fun s e => Legal s e ∧ Room s e)
      (fuseInit (sampleEnv .unified)) renamedRun := by decide +kernel
  refine ⟨hlegal, ?_⟩
  cases hrun : run (step (sampleEnv .unified)) (fuseInit (sampleEnv .unified)) renamedRun with
  | none => exact absurd hrun (by decide +kernel)
  | some s =>
    have hstate : (run (step (sampleEnv .unified)) (fuseInit (sampleEnv .unified)) renamedRun).map
        (fun s => (s.fuse.live, s.fuse.parent 8, s.fuse.parent 1, (s.fuse.nodes 8).name,
          (s.fuse.nodes 8).derived.perm)) =
        some ([8, 1], 1, 0, text "Android", .inherit) := by decide +kernel
    rw [hrun, Option.map_some, Option.some.injEq] at hstate
    simp only [Prod.mk.injEq] at hstate
    obtain ⟨hlive, hparent, hroot, hname, hperm⟩ := hstate
    have hmem : 8 ∈ s.fuse.live := by simp [hlive]
    refine ⟨s, rfl, hmem, hparent, hname, hperm, by decide +kernel, fun hderives => ?_⟩
    obtain ⟨l, hl, hderived⟩ := hderives 8 hmem (by decide)
    have hchain : Linked 0 s.fuse.parent 8 [8, 1] := by
      refine .cons (by decide) ?_
      rw [hparent]
      refine .cons (by decide) ?_
      rw [hroot]
      exact .nil
    have hl : l = [8] := append_cancel_right (hl.unique hchain)
    rw [hl, map_singleton, hname] at hderived
    have hperm' := congrArg Derived.perm hderived
    rw [hperm] at hperm'
    exact absurd hperm' (by decide +kernel)

end Sdcard
