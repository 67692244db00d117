/-
The tree of nodes of `sdcard` stays a tree (`sdcard/sdcard.c`).

* `Legal` — what the kernel and the allocator promise: a request names nodes to which the kernel has
  references, no node is moved below itself, no more references are returned than were given, and
  new memory is memory that is not in use.
* `Room` — no counter is at its maximum where a reference is taken.  Counters have 32 bits, and
  nothing in the code keeps them from wrapping.
* `Fits` — the paths of the nodes that are named are shorter than `PATH_MAX`.
  `get_node_path_locked` can write past the end of its buffer for longer ones.

`effect` says what a legal request does to a tree of nodes; `integrity` follows for every run.
`refcount_wraps` is a run of legal requests after which a counter is zero, while the kernel has
references.
-/
import AndroidSystem.Runs
import AndroidSystem.Sdcard.Requests

open CInt Runs List Function

namespace Sdcard

open Fuse

/-! ### Legal requests -/

/-- The kernel can name the node. -/
def Holds (s : System) (a : ℕ) : Prop := a = rootId ∨ 0 < s.held a

instance (s : System) (a : ℕ) : Decidable (Holds s a) := inferInstanceAs (Decidable (_ ∨ _))

/-- The nodes from `a` up to the root. -/
def Fuse.ancestors (s : Fuse) : ℕ → ℕ → List ℕ
  | 0, _ => []
  | fuel + 1, a => if a = 0 then [] else a :: ancestors s fuel (s.parent a)

/-- What the kernel promises. -/
def LegalRequest (s : System) : Request → Prop
  | .lookup p _ | .mknod p _ | .mkdir p _ | .unlink p _ | .rmdir p _ => Holds s p
  | .rename p q old _ => Holds s p ∧ Holds s q ∧
    ∀ c ∈ s.fuse.lookupChildByName p old, c ≠ 0 → c ∉ s.fuse.ancestors s.fuse.bound q
  | .forget a n => Holds s a ∧ n ≤ s.held a

instance (s : System) : ∀ r, Decidable (LegalRequest s r)
  | .lookup _ _ | .mknod _ _ | .mkdir _ _ | .unlink _ _ | .rmdir _ _ =>
    inferInstanceAs (Decidable (Holds s _))
  | .rename _ _ _ _ | .forget _ _ => inferInstanceAs (Decidable (_ ∧ _))

/-- What the kernel and the allocator promise. -/
def Legal (s : System) (e : Request × World) : Prop :=
  LegalRequest s e.1 ∧ ∀ a ∈ e.2.alloc.node, a ≠ 0 ∧ a ≠ rootId ∧ a ∉ s.fuse.live

instance (s : System) (e : Request × World) : Decidable (Legal s e) :=
  inferInstanceAs (Decidable (_ ∧ _))

/-- No counter is at its maximum where the request takes a reference. -/
def RoomFor (s : Fuse) : Request → Prop
  | .lookup p name | .mknod p name | .mkdir p name =>
    ∀ c ∈ s.lookupChildByName p name, (s.nodes (if c = 0 then p else c)).refcount + 1 < 2 ^ 32
  | .rename p q old _ =>
    (∀ c ∈ s.lookupChildByName p old, c ≠ 0 → (s.nodes c).refcount + 1 < 2 ^ 32) ∧
      (s.nodes q).refcount + 1 < 2 ^ 32
  | _ => True

instance (s : Fuse) : ∀ r, Decidable (RoomFor s r)
  | .lookup _ _ | .mknod _ _ | .mkdir _ _ =>
    inferInstanceAs (Decidable (∀ c ∈ s.lookupChildByName _ _, _))
  | .rename _ _ _ _ => inferInstanceAs (Decidable (_ ∧ _))
  | .unlink _ _ | .rmdir _ _ | .forget _ _ => inferInstanceAs (Decidable True)

def Room (s : System) (e : Request × World) : Prop := RoomFor s.fuse e.1

instance (s : System) (e : Request × World) : Decidable (Room s e) :=
  inferInstanceAs (Decidable (RoomFor _ _))

/-- The nodes of which a request may want the path. -/
def Fuse.named (s : Fuse) : Request → List ℕ
  | .lookup p _ | .mknod p _ | .mkdir p _ | .unlink p _ | .rmdir p _ => [p]
  | .rename p q old _ => p :: q :: ((s.lookupChildByName p old).toList.filter (· ≠ 0))
  | .forget _ _ => []

/-- The paths of these nodes are shorter than `PATH_MAX`. -/
def Fits (env : Env) (s : System) (e : Request × World) : Prop :=
  ∀ a ∈ s.fuse.named e.1, (join (s.fuse.components env s.fuse.bound a)).length < pathMax

instance (env : Env) (s : System) (e : Request × World) : Decidable (Fits env s e) :=
  inferInstanceAs (Decidable (∀ _ ∈ _, _))

namespace Fuse

variable {env : Env} {s s' : Fuse} {held : ℕ → ℕ} {w : World} {reply : Reply} {a : ℕ} {l : List ℕ}

theorem ancestors_eq (hl : Linked 0 s.parent a l) {fuel : ℕ} (hfuel : l.length ≤ fuel) :
    s.ancestors fuel a = l := by
  induction hl generalizing fuel with
  | nil =>
    cases fuel with
    | zero => rfl
    | succ fuel => rfl
  | @cons a l hne htail ih =>
    obtain ⟨fuel, rfl⟩ := Nat.exists_eq_add_of_le' (Nat.zero_lt_of_lt hfuel)
    change (if a = 0 then [] else a :: s.ancestors fuel (s.parent a)) = _
    rw [if_neg hne, ih (Nat.le_of_succ_le_succ hfuel)]

variable {c q : ℕ}

theorem Sound.not_below (h : Sound s held) (hq : q ∈ s.live) (hc : c ∉ s.ancestors s.bound q) :
    ∀ l, Linked 0 s.parent q l → c ∉ l := by
  intro l hl
  obtain ⟨⟨kids, hgraph⟩, -⟩ := h
  obtain ⟨l', hl', -, hlen⟩ := hgraph.path hq
  rw [hl.unique hl']
  rwa [ancestors_eq hl' hlen.le] at hc

theorem Sound.live_of_holds {s : System} (h : Sound s.fuse s.held) (ha : Holds s a) :
    a ∈ s.fuse.live := by
  obtain ⟨⟨kids, hgraph⟩, -⟩ := h
  rcases ha with rfl | ha
  · exact hgraph.root
  · exact hgraph.held a ha

variable {p : ℕ} {name : Name}

theorem Sound.child (h : Sound s held) (hp : p ∈ s.live)
    (hc : s.lookupChildByName p name = some c) (hne : c ≠ 0) :
    c ∈ s.live ∧ c ≠ rootId ∧ s.parent c = p := by
  obtain ⟨⟨kids, hgraph⟩, -⟩ := h
  obtain ⟨c', hc', hmem⟩ := lookupChildByName_spec hgraph.toLists hp name
  rw [hc] at hc'
  cases hc'
  have hin := hgraph.mem p hp c (hmem hne)
  exact ⟨hin.1, hgraph.ne_root hp (hmem hne), hin.2⟩

/-! ### The effect of a request -/

variable {e : Request × World}

/-- What a legal request does to a tree of nodes. -/
inductive Effect (env : Env) (s : Fuse) (w : World) : Request → Fuse → Reply → Prop
  | kept {r : Request} {s' : Fuse} {reply : Reply}
      (hkept : Kept s {a | a ∈ s.live} s' {a | a ∈ s'.live})
      (hreply : ∀ a g path, reply ≠ .entry a g path)
      (hrename : reply = .success → ∀ p q old new, r ≠ .rename p q old new) :
      Effect env s w r s' reply
  | entered {r : Request} {p : ℕ} {name parentPath path actual : Name} {s' : Fuse} {a : ℕ}
      (hr : r.place = some (p, name)) (hp : p ∈ s.live)
      (hpath : s.nodePath env p = some (some parentPath))
      (hfind : findFileWithin parentPath name true w.dir = some (path, actual))
      (hentered : Entered env s p name actual w.alloc s' a) (ha : a ≠ 0) :
      Effect env s w r s' (.entry a (s'.nodes a).gen path)
  | moved {p q c : ℕ} {old new actual : Name} {s' : Fuse}
      (hc : s.lookupChildByName p old = some c) (hclive : c ∈ s.live) (hne : c ≠ rootId)
      (hq : q ∈ s.live) (hqc : q ≠ c) (hmoved : Moved s s' c q new actual) :
      Effect env s w (.rename p q old new) s' .success

theorem kernelRefs_of_ne {r : Request} (written : Bool) (hr : ∀ a n, r ≠ .forget a n)
    (hreply : ∀ a g path, reply ≠ .entry a g path) : kernelRefs held written r reply = held := by
  cases reply with
  | entry a g path => exact absurd rfl (hreply a g path)
  | noReply | error | success =>
    cases r with
    | forget a n => exact absurd rfl (hr a n)
    | lookup | mknod | mkdir | unlink | rmdir | rename => rfl

theorem Sound.forgets {s : System} (h : Sound s.fuse s.held) {a n : ℕ} (ha : Holds s a)
    (hn : n ≤ s.held a) :
    ∃ s', s.fuse.handleForget a n = some s' ∧
      Kept s.fuse {a | a ∈ s.fuse.live} s' {a | a ∈ s'.live} ∧
      Sound s' (update s.held a (s.held a - n)) := by
  replace ha := h.live_of_holds ha
  obtain ⟨⟨kids, hgraph⟩, hpos⟩ := h
  have hcount := hgraph.count a ha
  obtain ⟨s', D', kids', heq, hgraph', hkept⟩ :=
    handleForget_spec n (hgraph.with_held (k := s.held a - n) ha (by omega)) ha (by
      rw [update_self]
      omega)
  have hsound := hkept.sound hpos hgraph'
  obtain rfl := hkept.live_eq
  exact ⟨s', heq, hkept, hsound⟩

/-- **A legal request keeps the tree.** -/
theorem effect {s : System} {s' : Fuse} (h : Sound s.fuse s.held) (hlegal : Legal s e)
    (hroom : Room s e) (hhandle : s.fuse.handleFuseRequest env e.2 e.1 = some (s', reply)) :
    Effect env s.fuse e.2 e.1 s' reply ∧
      Sound s' (kernelRefs s.held e.2.written e.1 reply) := by
  obtain ⟨r, w⟩ := e
  obtain ⟨hrequest, hfresh⟩ := hlegal
  have hplace : ∀ {p name}, r.place = some (p, name) → p ∈ s.fuse.live ∧
      (∀ a n, r ≠ .forget a n) ∧ ∀ c ∈ s.fuse.lookupChildByName p name,
        (s.fuse.nodes (if c = 0 then p else c)).refcount + 1 < 2 ^ 32 := by
    intro p name hr
    cases r with
    | lookup | mknod | mkdir =>
      cases hr
      exact ⟨h.live_of_holds hrequest, fun _ _ => Request.noConfusion, hroom⟩
    | unlink | rmdir | rename | forget => cases hr
  cases handled hhandle with
  | unchanged hr hreply hrename =>
    rw [kernelRefs_of_ne w.written hr hreply]
    exact ⟨.kept (Kept.refl _ _) hreply hrename, h⟩
  | @noMemory _ p name actual _ hr henter =>
    obtain ⟨hp, hforget, hroom⟩ := hplace hr
    obtain ⟨s₁, a, heq, hentered, hsound, -⟩ :=
      acquireOrCreateChild_spec env h hp name actual hfresh hroom
    rw [henter] at heq
    cases heq
    rw [kernelRefs_of_ne w.written hforget fun _ _ _ => Reply.noConfusion]
    have hsame : s' = s.fuse := by
      generalize h0 : 0 = a at hentered
      cases hentered with
      | noMemory => rfl
      | acquired _ hne _ => exact absurd h0.symm hne
      | created _ hne => exact absurd h0.symm hne
    refine ⟨.kept ?_ (fun _ _ _ => Reply.noConfusion) fun h => Reply.noConfusion h, hsound⟩
    rw [hsame]
    exact Kept.refl _ _
  | @entry _ p name parentPath path actual _ a hr hpath hfind henter ha =>
    obtain ⟨hp, hforget, hroom⟩ := hplace hr
    obtain ⟨s₁, a', heq, hentered, hsound, hspare⟩ :=
      acquireOrCreateChild_spec env h hp name actual hfresh hroom
    rw [henter] at heq
    cases heq
    refine ⟨.entered hr hp hpath hfind hentered ha, ?_⟩
    rw [kernelRefs]
    split
    · exact hsound.hold (hspare ha)
    · exact hsound
  | @forget a n _ hforget =>
    obtain ⟨s₁, heq, hkept, hsound⟩ := h.forgets hrequest.1 hrequest.2
    rw [hforget] at heq
    cases heq
    exact ⟨.kept hkept (fun _ _ _ => Reply.noConfusion) fun h => Reply.noConfusion h, hsound⟩
  | @renameFails p q c old new s₀ _ e hc hne hacquire hrelease =>
    obtain ⟨hp, hq, hbelow⟩ := hrequest
    have hqlive := h.live_of_holds hq
    obtain ⟨s₀', hacquire', ⟨s₁, hrelease', hkept, hsound⟩, -⟩ :=
      move_spec h (h.live_of_holds hp) hc hne hp hqlive (hroom.1 c hc hne) hroom.2
        (h.not_below hqlive (hbelow c hc hne))
    rw [hacquire] at hacquire'
    cases hacquire'
    rw [hrelease] at hrelease'
    cases hrelease'
    exact ⟨.kept hkept (fun _ _ _ => Reply.noConfusion) fun h => Reply.noConfusion h, hsound⟩
  | @renames p q c old new actual s₀ s₁ s₂ s₃ _ hc hne hacquire hname hremove hadd hrelease =>
    obtain ⟨hp, hq, hbelow⟩ := hrequest
    have hqlive := h.live_of_holds hq
    have hnot := h.not_below hqlive (hbelow c hc hne)
    obtain ⟨s₀', hacquire', -, hmove⟩ :=
      move_spec h (h.live_of_holds hp) hc hne hp hqlive (hroom.1 c hc hne) hroom.2 hnot
    rw [hacquire] at hacquire'
    cases hacquire'
    obtain ⟨s₂', s₃', s₄', hremove', hadd', hrelease', hmoved, hsound⟩ :=
      hmove new actual w.alloc s₁ hname
    rw [hremove] at hremove'
    cases hremove'
    rw [hadd] at hadd'
    cases hadd'
    rw [hrelease] at hrelease'
    cases hrelease'
    refine ⟨?_, hsound⟩
    obtain ⟨hclive, hcroot, -⟩ := h.child (h.live_of_holds hp) hc hne
    obtain ⟨⟨kids, hgraph⟩, -⟩ := h
    exact .moved hc hclive hcroot hqlive (hgraph.ne_of_not_below hqlive hnot) hmoved

/-! ### Requests are answered -/

variable {old : Name} {path : Option Name}

theorem nodePath_total (env : Env) (h : Sound s held) (ha : a ∈ s.live)
    (hfits : (join (s.components env s.bound a)).length < pathMax) :
    ∃ path, s.nodePath env a = some path := by
  obtain ⟨⟨kids, hgraph⟩, -⟩ := h
  obtain ⟨l, hl, hlive, hlen⟩ := hgraph.path ha
  have hpath := getNodePath_spec env hl hlive hlen.le (fun h0 => hgraph.null (h0 ▸ ha)) pathMax
  have hshort : ((pathIn (s.components env s.bound a) pathMax).getD []).length < pathMax := by
    cases hp : pathIn (s.components env s.bound a) pathMax with
    | none => exact Nat.succ_pos _
    | some path => rwa [Option.getD_some, (pathIn_eq_some.mp hp).2]
  refine ⟨pathIn (s.components env s.bound a) pathMax, ?_⟩
  rw [nodePath, bind_of_eq hpath, if_pos hshort]

section

variable (hpath : s.nodePath env p = some path) (hp : p ∈ s.live)

include hpath hp

theorem findChild_total (name : Name) (write : Bool) (w : World) :
    ∃ r, s.findChild env p name write w = some r := by
  rw [findChild, bind_of_eq hpath]
  cases path with
  | none => exact ⟨_, rfl⟩
  | some path =>
    dsimp only
    split
    · exact ⟨_, rfl⟩
    · rw [load_bind hp]
      split <;> exact ⟨_, rfl⟩

theorem handleEntry_total
    (henter : ∀ actual, ∃ s' a, s.acquireOrCreateChild env p name actual w.alloc = some (s', a) ∧
      (a ≠ 0 → a ∈ s'.live))
    (write : Bool) (call : Derived → Option Errno) :
    ∃ r, s.handleEntry env p name write call w = some r := by
  obtain ⟨found, hfound⟩ := findChild_total hpath hp name write w
  rw [handleEntry, bind_of_eq hfound]
  cases found with
  | error e => exact ⟨_, rfl⟩
  | ok found =>
    dsimp only
    rw [load_bind hp]
    split
    · exact ⟨_, rfl⟩
    · obtain ⟨s', a, heq, hlive⟩ := henter found.2
      rw [fuseReplyEntry]
      split
      · exact ⟨_, rfl⟩
      · rw [bind_of_eq heq]
        dsimp only
        split
        · exact ⟨_, rfl⟩
        next ha =>
          rw [load_bind (hlive ha)]
          exact ⟨_, rfl⟩

theorem handleRemove_total (name : Name) :
    ∃ r, handleRemove env s p name w = some r := by
  obtain ⟨found, hfound⟩ := findChild_total hpath hp name true w
  rw [handleRemove, bind_of_eq hfound]
  cases found with
  | error e => exact ⟨_, rfl⟩
  | ok found =>
    dsimp only
    split <;> exact ⟨_, rfl⟩

end

theorem findRenamed_total (new : Name) (w : World) (hp : p ∈ s.live) (hq : q ∈ s.live)
    (hc : s.lookupChildByName p old = some c) (hpath : ∃ path, s.nodePath env p = some path)
    (hpath' : ∃ path, s.nodePath env q = some path)
    (hchild : c ≠ 0 → ∃ path, s.nodePath env c = some path) :
    ∃ r, s.findRenamed env p q old new w = some r ∧
      ∀ found, r = .ok found → found.2 = c ∧ c ≠ 0 := by
  have herror : ∀ e (found : Name × ℕ), (.error e : Except Errno (Name × ℕ)) = .ok found →
      found.2 = c ∧ c ≠ 0 := by
    intro e found h
    cases h
  obtain ⟨path, hpath⟩ := hpath
  obtain ⟨path', hpath'⟩ := hpath'
  rw [findRenamed, bind_of_eq hpath, bind_of_eq hpath']
  cases path with
  | none => exact ⟨_, rfl, herror _⟩
  | some path =>
    cases path' with
    | none => exact ⟨_, rfl, herror _⟩
    | some path' =>
      dsimp only
      rw [load_bind hp, load_bind hq]
      split
      · exact ⟨_, rfl, herror _⟩
      split
      · exact ⟨_, rfl, herror _⟩
      rw [bind_of_eq hc]
      split
      · exact ⟨_, rfl, herror _⟩
      next h0 =>
        obtain ⟨path'', hpath''⟩ := hchild h0
        rw [bind_of_eq hpath'']
        cases path'' with
        | none => exact ⟨_, rfl, herror _⟩
        | some path'' =>
          refine ⟨_, rfl, fun found hfound => ?_⟩
          cases hfound
          exact ⟨rfl, h0⟩

theorem handleRename_total {new : Name} {r : Except Errno (Name × ℕ)}
    (hfound : s.findRenamed env p q old new w = some r)
    (hr : ∀ found, r = .ok found → found.2 = c ∧ c ≠ 0)
    (hmove : c ≠ 0 → ∃ s₀, s.acquireNode c = some s₀ ∧ c ∈ s₀.live ∧
      (∃ s', s₀.releaseNode c = some s') ∧
      ∀ (actual : Name) s₁, s₀.renameNode c new actual w.alloc = some (s₁, true) →
        ∃ s₂ s₃ s', s₁.removeNodeFromParent c = some s₂ ∧ s₂.addNodeToParent c q = some s₃ ∧
          s₃.releaseNode c = some s') :
    ∃ r, s.handleRename env p q old new w = some r := by
  rw [handleRename, bind_of_eq hfound]
  cases r with
  | error e => exact ⟨_, rfl⟩
  | ok found =>
    obtain ⟨newPath, c'⟩ := found
    obtain ⟨rfl, hne⟩ : c' = c ∧ c ≠ 0 := hr _ rfl
    obtain ⟨s₀, hacquire, hlive, ⟨s', hrelease⟩, hmoved⟩ := hmove hne
    dsimp only
    rw [bind_of_eq hacquire]
    split
    · rw [bind_of_eq hrelease]
      exact ⟨_, rfl⟩
    next path actual _ =>
      split
      · rw [bind_of_eq hrelease]
        exact ⟨_, rfl⟩
      · rw [moveNode]
        rcases renameNode_spec hlive new actual w.alloc with hname | hname
        · rw [bind_of_eq hname]
          dsimp only
          rw [if_neg Bool.false_ne_true, bind_of_eq hrelease]
          exact ⟨_, rfl⟩
        · obtain ⟨s₂, s₃, s₄, hremove, hadd, hrelease'⟩ := hmoved actual _ hname
          rw [bind_of_eq hname]
          dsimp only
          rw [if_pos rfl, bind_of_eq hremove, bind_of_eq hadd, bind_of_eq hrelease']
          exact ⟨_, rfl⟩

/-- **Every request is answered.** -/
theorem handleFuseRequest_total {s : System} (h : Sound s.fuse s.held) (hlegal : Legal s e)
    (hroom : Room s e) (hfits : Fits env s e) :
    ∃ r, s.fuse.handleFuseRequest env e.2 e.1 = some r := by
  obtain ⟨r, w⟩ := e
  obtain ⟨hrequest, hfresh⟩ := hlegal
  have hpath : ∀ a ∈ s.fuse.named r, a ∈ s.fuse.live → ∃ path, s.fuse.nodePath env a = some path :=
    fun a ha hlive => nodePath_total env h hlive (hfits a ha)
  have hentry : ∀ p name, Holds s p → p ∈ s.fuse.named r → RoomFor s.fuse (.lookup p name) →
      ∀ write call, ∃ r, s.fuse.handleEntry env p name write call w = some r := by
    intro p name hp hin hroom write call
    have hlive := h.live_of_holds hp
    obtain ⟨path, hpath⟩ := hpath p hin hlive
    refine handleEntry_total hpath hlive (fun actual => ?_) write call
    obtain ⟨s', a, heq, -, -, hspare⟩ :=
      acquireOrCreateChild_spec env h hlive name actual hfresh hroom
    exact ⟨s', a, heq, fun ha => (hspare ha).1⟩
  cases r with
  | lookup p name | mknod p name | mkdir p name =>
    simp only [handleFuseRequest, handleLookup, handleMknod, handleMkdir]
    exact hentry p name hrequest mem_cons_self hroom _ _
  | unlink p name | rmdir p name =>
    have hlive := h.live_of_holds hrequest
    obtain ⟨path, hpath⟩ := hpath p mem_cons_self hlive
    exact handleRemove_total hpath hlive name
  | rename p q old new =>
    obtain ⟨hp, hq, hbelow⟩ := hrequest
    have hplive := h.live_of_holds hp
    have hqlive := h.live_of_holds hq
    obtain ⟨⟨kids, hgraph⟩, -⟩ := id h
    obtain ⟨c, hc, -⟩ := lookupChildByName_spec hgraph.toLists hplive old
    have hnamed : c ≠ 0 → c ∈ s.fuse.named (.rename p q old new) := fun hne => by
      simp [named, hc, hne]
    obtain ⟨r, hfound, hr⟩ := findRenamed_total new w hplive hqlive hc
      (hpath p mem_cons_self hplive)
      (hpath q (mem_cons_of_mem _ mem_cons_self) hqlive)
      (fun hne => hpath c (hnamed hne) (h.child hplive hc hne).1)
    refine handleRename_total hfound hr fun hne => ?_
    obtain ⟨s₀, hacquire, ⟨s', hrelease, -⟩, hmove⟩ :=
      move_spec h hplive hc hne hp hqlive (hroom.1 c hc hne) hroom.2
        (h.not_below hqlive (hbelow c hc hne))
    refine ⟨s₀, hacquire, ?_, ⟨s', hrelease⟩, fun actual s₁ hname => ?_⟩
    · rw [acquireNode_spec (h.child hplive hc hne).1 (hroom.1 c hc hne)] at hacquire
      cases hacquire
      exact (h.child hplive hc hne).1
    · obtain ⟨s₂, s₃, s₄, hremove, hadd, hrelease', -⟩ := hmove new actual w.alloc s₁ hname
      exact ⟨s₂, s₃, s₄, hremove, hadd, hrelease'⟩
  | forget a n =>
    obtain ⟨s₁, heq, -⟩ := h.forgets hrequest.1 hrequest.2
    refine ⟨(s₁, .noReply), ?_⟩
    rw [handleFuseRequest, heq]
    rfl

end Fuse

/-! ### Runs -/

variable {s : System}

/-- The children of a node, by its `child` and their `next`. -/
def ChildList (s : Fuse) (p : ℕ) (l : List ℕ) : Prop := Linked 0 s.next (s.nodes p).child l

/-- The node graph is as it should be. -/
structure Integrity (s : System) : Prop where
  /-- The root is there, and the parent links lead to it from every live node. -/
  root : rootId ∈ s.fuse.live
  tree : ∀ a ∈ s.fuse.live, ∃ l, Linked 0 s.fuse.parent a (l ++ [rootId])
  /-- A node is once in the list of its parent, and in no other list. -/
  listed : ∀ a ∈ s.fuse.live, a ≠ rootId → s.fuse.parent a ∈ s.fuse.live ∧
    ∃ l, ChildList s.fuse (s.fuse.parent a) l ∧ l.count a = 1
  once : ∀ p ∈ s.fuse.live, ∀ l, ChildList s.fuse p l → ∀ a ∈ l, s.fuse.parent a = p
  /-- There is a reference for every child and for every reference of the kernel. -/
  counted : ∀ a ∈ s.fuse.live, ∃ l, ChildList s.fuse a l ∧
    s.held a + l.length ≤ (s.fuse.nodes a).refcount
  /-- Neither lists nor the kernel lead to a freed node. -/
  reached : ∀ p ∈ s.fuse.live, ∀ l, ChildList s.fuse p l → ∀ a ∈ l, a ∈ s.fuse.live
  held : ∀ a, 0 < s.held a → a ∈ s.fuse.live

/-- A way up ends with the root. -/
theorem Fuse.Graph.ends {s : Fuse} {D : Set ℕ} {held : ℕ → ℕ} {kids : ℕ → List ℕ} {a : ℕ}
    {l : List ℕ} (h : s.Graph D held kids) (hl : Linked 0 s.parent a l) (hin : ∀ b ∈ l, b ∈ D)
    (ha : a ≠ 0) : ∃ l', l = l' ++ [rootId] := by
  induction hl with
  | nil => exact absurd rfl ha
  | @cons a l hne htail ih =>
    by_cases hroot : a = rootId
    · rw [hroot, h.rootParent] at htail
      exact ⟨[], by rw [htail.eq_nil, hroot, nil_append]⟩
    · obtain ⟨l', rfl⟩ := ih (fun b hb => hin b (mem_cons_of_mem _ hb))
        (h.parent_ne_null (hin a mem_cons_self) hroot)
      exact ⟨a :: l', rfl⟩

theorem Fuse.Sound.intact (h : Sound s.fuse s.held) : Integrity s := by
  obtain ⟨⟨kids, hgraph⟩, -⟩ := h
  have hkids : ∀ p ∈ s.fuse.live, ∀ l, ChildList s.fuse p l → l = kids p :=
    fun p hp l hl => hl.unique (hgraph.chain p hp)
  refine ⟨hgraph.root, fun a ha => ?_, fun a ha hne => ?_, fun p hp l hl a ha => ?_,
    fun a ha => ?_, fun p hp l hl a ha => ?_, hgraph.held⟩
  · obtain ⟨l, hl, hin⟩ := hgraph.tree a ha
    obtain ⟨l', rfl⟩ := hgraph.ends hl hin fun h0 => hgraph.null (h0 ▸ ha)
    exact ⟨l', hl⟩
  · obtain ⟨hp, hmem⟩ := hgraph.up a ha hne
    refine ⟨hp, kids (s.fuse.parent a), hgraph.chain _ hp, ?_⟩
    exact count_eq_one_of_mem (hgraph.nodup hp) hmem
  · rw [hkids p hp l hl] at ha
    exact (hgraph.mem p hp a ha).2
  · refine ⟨kids a, hgraph.chain a ha, ?_⟩
    have hcount := hgraph.count a ha
    omega
  · rw [hkids p hp l hl] at ha
    exact (hgraph.mem p hp a ha).1

theorem fuseInit_sound (env : Env) : Fuse.Sound (fuseInit env).fuse (fuseInit env).held := by
  have hlive : ∀ a, a ∈ (fuseInit env).fuse.live ↔ a = rootId := fun a => mem_singleton
  refine ⟨⟨fun _ => [], ⟨⟨fun a ha => ha, ?_, fun _ _ => .nil, fun _ _ b hb => ?_⟩, ?_, rfl, ?_,
    fun a ha => ?_, fun a ha => ?_, fun a ha => ?_⟩⟩, fun _ _ => Nat.succ_pos _⟩
  · exact fun h => absurd ((hlive 0).mp h) (by decide)
  · exact absurd hb not_mem_nil
  · exact (hlive rootId).mpr rfl
  · exact fun a ha hne => absurd ((hlive a).mp ha) hne
  · obtain rfl := (hlive a).mp ha
    refine ⟨[rootId], .cons (by decide) .nil, fun b hb => ?_⟩
    exact (hlive b).mpr (mem_singleton.mp hb)
  · obtain rfl := (hlive a).mp ha
    exact Nat.le_refl 2
  · exact absurd ha (Nat.lt_irrefl 0)

theorem step_sound {env : Env} {s' : System} {e : Request × World} (h : Fuse.Sound s.fuse s.held)
    (hlegal : Legal s e) (hroom : Room s e) (hstep : step env s e = some s') :
    Fuse.Sound s'.fuse s'.held := by
  obtain ⟨⟨t, reply⟩, hhandle, rfl⟩ := Option.map_eq_some_iff.mp hstep
  exact (Fuse.effect h hlegal hroom hhandle).2

/-- **The node graph keeps its integrity** in every run of legal requests in which no counter
is at its maximum and no path is too long, and every request of such a run is answered. -/
theorem integrity (env : Env) (es : List (Request × World))
    (hruns : Along (step env) (fun s e => Legal s e ∧ Room s e ∧ Fits env s e) (fuseInit env) es) :
    ∃ s, run (step env) (fuseInit env) es = some s ∧ Integrity s := by
  suffices h : ∀ s, Fuse.Sound s.fuse s.held →
      Along (step env) (fun s e => Legal s e ∧ Room s e ∧ Fits env s e) s es →
      ∃ s', run (step env) s es = some s' ∧ Integrity s' from h _ (fuseInit_sound env) hruns
  clear hruns
  intro s hs hruns
  induction es generalizing s with
  | nil => exact ⟨s, rfl, hs.intact⟩
  | cons e es ih =>
    obtain ⟨⟨hlegal, hroom, hfits⟩, hrest⟩ := hruns
    obtain ⟨r, hr⟩ := Fuse.handleFuseRequest_total hs hlegal hroom hfits
    have hstep : step env s e = some ⟨r.1, kernelRefs s.held e.2.written e.1 r.2⟩ := by
      rw [step, hr]
      rfl
    obtain ⟨s', hrun, hs'⟩ := ih _ (step_sound hs hlegal hroom hstep) (hrest _ hstep)
    refine ⟨s', ?_, hs'⟩
    rw [run, hstep]
    exact hrun

/-- A daemon for a directory, without packages. -/
def sampleEnv (mode : DeriveMode) : Env :=
  ⟨⟨mode, true⟩, text "/data/media", Hashmap.create 512, []⟩

/-- All system calls succeed, and the name is there. -/
def sampleWorld (node : Option ℕ) : World :=
  ⟨0, ⟨true, some []⟩, none, true, none, ⟨node, true, true⟩, true⟩

/-- Two directories are made, a file is moved from one into the other, and all is forgotten. -/
def sampleRun : List (Request × World) :=
  [(.mkdir 1 (text "a"), sampleWorld (some 8)), (.mkdir 1 (text "b"), sampleWorld (some 16)),
    (.mknod 8 (text "f"), sampleWorld (some 24)),
    (.rename 8 16 (text "f") (text "g"), sampleWorld none), (.forget 8 1, sampleWorld none),
    (.unlink 16 (text "g"), sampleWorld none), (.forget 16 1, sampleWorld none),
    (.forget 24 1, sampleWorld none)]

theorem integrity_sampleRun :
    Along (step (sampleEnv .none))
      (fun s e => Legal s e ∧ Room s e ∧ Fits (sampleEnv .none) s e) (fuseInit (sampleEnv .none))
      sampleRun ∧
    ∃ s, run (step (sampleEnv .none)) (fuseInit (sampleEnv .none)) sampleRun = some s ∧
      Integrity s :=
  have h : Along (step (sampleEnv .none))
      (fun s e => Legal s e ∧ Room s e ∧ Fits (sampleEnv .none) s e) (fuseInit (sampleEnv .none))
      sampleRun := by decide +kernel
  ⟨h, integrity (sampleEnv .none) sampleRun h⟩

/-! ### A counter wraps -/

variable {n : ℕ}

/-- A file was looked up, the last of the references being the `n`-th one. -/
structure LookedUp (s : System) (n : ℕ) : Prop where
  live : s.fuse.live = [8, 1]
  root : s.fuse.nodes 1 =
    ⟨3, 0, rootDerived ⟨.none, true⟩, 0, 8, 0, text "/data/media", none⟩
  node : ∃ d, s.fuse.nodes 8 = ⟨u32 n, 0, d, 0, 0, 1, text "f", none⟩
  held : s.held 8 = n

def lookupFile (node : Option ℕ) : Request × World := (.lookup 1 (text "f"), sampleWorld node)

theorem lookedUp_step (h : LookedUp s n) :
    (Legal s (lookupFile none) ∧ Fits (sampleEnv .none) s (lookupFile none)) ∧
      ∃ s', step (sampleEnv .none) s (lookupFile none) = some s' ∧ LookedUp s' (n + 1) := by
  obtain ⟨hlive, hroot, ⟨d, hnode⟩, hheld⟩ := h
  have hload₁ : s.fuse.load 1 = some (s.fuse.nodes 1) := load_of_mem (by simp [hlive])
  have hload₈ : s.fuse.load 8 = some (s.fuse.nodes 8) := load_of_mem (by simp [hlive])
  have hbound : s.fuse.bound = 3 := by rw [bound, hlive]; rfl
  have hchild : s.fuse.lookupChildByName 1 (text "f") = some 8 := by
    rw [lookupChildByName, Fuse.bind_of_eq hload₁, hbound, hroot, lookupFrom,
      if_neg (by decide), Fuse.bind_of_eq hload₈, hnode, if_pos rfl]
  have hpath : s.fuse.nodePath (sampleEnv .none) 1 = some (some (text "/data/media")) := by
    rw [Fuse.nodePath, hbound, getNodePath, Fuse.bind_of_eq hload₁, hroot]
    rfl
  have hfound : s.fuse.findChild (sampleEnv .none) 1 (text "f") false (sampleWorld none) =
      some (.ok (text "/data/media/f", text "f")) := by
    rw [Fuse.findChild, Fuse.bind_of_eq hpath]
    change (s.fuse.load 1 >>= _) = _
    rw [Fuse.bind_of_eq hload₁, hroot]
    rfl
  set t := s.fuse.store 8 { s.fuse.nodes 8 with refcount := u32 ((s.fuse.nodes 8).refcount + 1) }
    with ht
  have hacquire : s.fuse.acquireNode 8 = some t := by
    rw [acquireNode, Fuse.bind_of_eq hload₈]
  have hnode' : t.nodes 8 = ⟨u32 (n + 1), 0, d, 0, 0, 1, text "f", none⟩ := by
    rw [ht, store_self, hnode]
    simp [u32]
  have hload' : t.load 8 = some (t.nodes 8) := load_of_mem (by simp [ht, hlive])
  have hhandle : s.fuse.handleFuseRequest (sampleEnv .none) (sampleWorld none)
      (.lookup 1 (text "f")) = some (t, .entry 8 0 (text "/data/media/f")) := by
    rw [Fuse.handleFuseRequest, Fuse.handleLookup, Fuse.handleEntry, Fuse.bind_of_eq hfound]
    dsimp only
    rw [Fuse.bind_of_eq hload₁]
    rw [Fuse.fuseReplyEntry]
    change (s.fuse.acquireOrCreateChild _ _ _ _ _ >>= _) = _
    rw [acquireOrCreateChild, Fuse.bind_of_eq hchild, if_pos (by decide),
      Fuse.bind_of_eq hacquire, Fuse.bind_of_eq rfl]
    dsimp only
    rw [if_neg (by decide), Fuse.bind_of_eq hload', hnode']
  refine ⟨⟨⟨Or.inl rfl, fun a ha => absurd ha (Option.not_mem_none a)⟩, ?_⟩, ?_⟩
  · refine forall_mem_singleton.mpr ?_
    rw [hbound, components_top _ _ fun hup => hup.1 (by rw [parent, hroot]), hroot]
    decide
  · refine ⟨⟨t, update s.held 8 (s.held 8 + 1)⟩, ?_, hlive, ?_, ⟨d, hnode'⟩, ?_⟩
    · rw [step, lookupFile, hhandle]
      rfl
    · rw [ht, store_of_ne _ (by decide), hroot]
    · change update s.held 8 (s.held 8 + 1) 8 = _
      rw [update_self, hheld]

theorem lookedUp_run (k : ℕ) (h : LookedUp s n) :
    Along (step (sampleEnv .none)) (fun s e => Legal s e ∧ Fits (sampleEnv .none) s e) s
        (replicate k (lookupFile none)) ∧
      ∃ s', run (step (sampleEnv .none)) s (replicate k (lookupFile none)) =
        some s' ∧ LookedUp s' (n + k) := by
  induction k generalizing s n with
  | zero => exact ⟨trivial, s, rfl, h⟩
  | succ k ih =>
    obtain ⟨hlegal, s₁, hstep, hs₁⟩ := lookedUp_step h
    obtain ⟨halong, s₂, hrun, hs₂⟩ := ih hs₁
    rw [replicate_succ]
    refine ⟨⟨hlegal, fun s' hs' => ?_⟩, s₂, ?_, ?_⟩
    · rw [hstep] at hs'
      cases hs'
      exact halong
    · rw [run, hstep]
      exact hrun
    · rwa [Nat.add_assoc, Nat.add_comm 1 k] at hs₂

theorem lookups_wrap {k : ℕ} (hk : 1 + k = 2 ^ 32) :
    Along (step (sampleEnv .none)) (fun s e => Legal s e ∧ Fits (sampleEnv .none) s e)
        (fuseInit (sampleEnv .none)) (lookupFile (some 8) :: replicate k (lookupFile none)) ∧
      ∃ s, run (step (sampleEnv .none)) (fuseInit (sampleEnv .none))
          (lookupFile (some 8) :: replicate k (lookupFile none)) = some s ∧
        8 ∈ s.fuse.live ∧ (s.fuse.nodes 8).refcount = 0 ∧ s.held 8 = 2 ^ 32 := by
  have hfirst : ∃ s, step (sampleEnv .none) (fuseInit (sampleEnv .none)) (lookupFile (some 8)) =
      some s ∧ LookedUp s 1 :=
    ⟨_, rfl, rfl, by decide +kernel, ⟨_, rfl⟩, rfl⟩
  obtain ⟨s₁, hstep, hs₁⟩ := hfirst
  obtain ⟨halong, s, hrun, hlive, -, ⟨d, hnode⟩, hheld⟩ := lookedUp_run k hs₁
  rw [hk] at hnode hheld
  refine ⟨⟨by decide +kernel, fun s' hs' => ?_⟩, s, ?_, by simp [hlive], ?_, hheld⟩
  · rw [hstep] at hs'
    cases hs'
    exact halong
  · rw [run, hstep]
    exact hrun
  · rw [hnode]
    exact Nat.mod_self (2 ^ 32)

/-- After `2 ^ 32` lookups of a file the kernel has as many references to its node, which counts
none. -/
theorem refcount_wraps :
    Along (step (sampleEnv .none)) (fun s e => Legal s e ∧ Fits (sampleEnv .none) s e)
        (fuseInit (sampleEnv .none))
        (lookupFile (some 8) :: List.replicate (2 ^ 32 - 1) (lookupFile none)) ∧
      ∃ s, run (step (sampleEnv .none)) (fuseInit (sampleEnv .none))
          (lookupFile (some 8) :: List.replicate (2 ^ 32 - 1) (lookupFile none)) = some s ∧
        8 ∈ s.fuse.live ∧ (s.fuse.nodes 8).refcount = 0 ∧ s.held 8 = 2 ^ 32 ∧ ¬ Integrity s := by
  obtain ⟨halong, s, hrun, hmem, hrefcount, hheld⟩ := @lookups_wrap (2 ^ 32 - 1) (by norm_num)
  refine ⟨halong, s, hrun, hmem, hrefcount, hheld, fun h => ?_⟩
  obtain ⟨l, -, hle⟩ := h.counted 8 hmem
  omega

end Sdcard
