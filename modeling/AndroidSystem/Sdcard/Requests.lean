/-
What requests do to the nodes of `sdcard` (`sdcard/sdcard.c`).

* `Handled`, `handled` — what the code does, step by step, for each kind of request;
* `Sound` — all live nodes are a tree, and each of them has a reference;
* `acquireOrCreateChild_spec` — the node for an entry is a child that was there, or a new one;
* `move_spec` — a node is renamed, or keeps its place.
-/
import AndroidSystem.Sdcard.Graph
import AndroidSystem.Sdcard.Paths

open CInt Function Option

namespace Sdcard

/-! ### What a request can do -/

/-- The directory and the name in requests that are answered with an entry. -/
def Request.place : Request → Option (ℕ × Name)
  | .lookup p name | .mknod p name | .mkdir p name => some (p, name)
  | _ => none

namespace Fuse

/-- What a request does to the nodes. -/
inductive Handled (env : Env) (s : Fuse) (w : World) : Request → Fuse → Reply → Prop
  | unchanged {r : Request} {reply : Reply} (hr : ∀ a n, r ≠ .forget a n)
      (hreply : ∀ a g path, reply ≠ .entry a g path)
      (hrename : reply = .success → ∀ p q old new, r ≠ .rename p q old new) :
      Handled env s w r s reply
  | noMemory {r : Request} {p : ℕ} {name actual : Name} {s' : Fuse}
      (hr : r.place = some (p, name))
      (henter : s.acquireOrCreateChild env p name actual w.alloc = some (s', 0)) :
      Handled env s w r s' (.error .enomem)
  | entry {r : Request} {p : ℕ} {name parentPath path actual : Name} {s' : Fuse} {a : ℕ}
      (hr : r.place = some (p, name)) (hpath : s.nodePath env p = some (some parentPath))
      (hfind : findFileWithin parentPath name true w.dir = some (path, actual))
      (henter : s.acquireOrCreateChild env p name actual w.alloc = some (s', a)) (ha : a ≠ 0) :
      Handled env s w r s' (.entry a (s'.nodes a).gen path)
  | forget {a n : ℕ} {s' : Fuse} (h : s.handleForget a n = some s') :
      Handled env s w (.forget a n) s' .noReply
  | renameFails {p q c : ℕ} {old new : Name} {s₀ s' : Fuse} {e : Errno}
      (hc : s.lookupChildByName p old = some c) (hne : c ≠ 0)
      (hacquire : s.acquireNode c = some s₀) (hrelease : s₀.releaseNode c = some s') :
      Handled env s w (.rename p q old new) s' (.error e)
  | renames {p q c : ℕ} {old new actual : Name} {s₀ s₁ s₂ s₃ s' : Fuse}
      (hc : s.lookupChildByName p old = some c) (hne : c ≠ 0)
      (hacquire : s.acquireNode c = some s₀)
      (hname : s₀.renameNode c new actual w.alloc = some (s₁, true))
      (hremove : s₁.removeNodeFromParent c = some s₂) (hadd : s₂.addNodeToParent c q = some s₃)
      (hrelease : s₃.releaseNode c = some s') :
      Handled env s w (.rename p q old new) s' .success

variable {env : Env} {s s' : Fuse} {w : World} {reply : Reply} {r : Request} {p : ℕ} {name : Name}

theorem Handled.refused (e : Errno) (hr : ∀ a n, r ≠ .forget a n) :
    Handled env s w r s (.error e) :=
  .unchanged hr (fun _ _ _ => Reply.noConfusion) fun h => Reply.noConfusion h

section

variable (hr : r.place = some (p, name))
include hr

theorem place_ne_forget (a n : ℕ) : r ≠ .forget a n := by
  rintro rfl
  cases hr

theorem handled_fuseReplyEntry {parentPath : Name} {found : Name × Name}
    (hpath : s.nodePath env p = some (some parentPath))
    (hfind : findFileWithin parentPath name true w.dir = some found)
    (h : s.fuseReplyEntry env p name found w = some (s', reply)) :
    Handled env s w r s' reply := by
  rw [fuseReplyEntry] at h
  split at h
  · cases h
    exact .refused _ (place_ne_forget hr)
  · obtain ⟨⟨s₁, a⟩, henter, h⟩ := bind_eq_some_iff.mp h
    dsimp only at h
    split at h
    next h0 =>
      cases h
      cases h0
      exact .noMemory hr henter
    next ha =>
      obtain ⟨n, hload, h⟩ := bind_eq_some_iff.mp h
      cases h
      obtain ⟨-, rfl⟩ := mem_of_load hload
      exact .entry hr hpath hfind henter ha

theorem handled_handleEntry {write : Bool} {call : Derived → Option Errno}
    (h : s.handleEntry env p name write call w = some (s', reply)) :
    Handled env s w r s' reply := by
  obtain ⟨result, hfound, h⟩ := bind_eq_some_iff.mp h
  cases result with
  | error e =>
    cases h
    exact .refused _ (place_ne_forget hr)
  | ok found =>
    obtain ⟨n, -, h⟩ := bind_eq_some_iff.mp h
    split at h
    · cases h
      exact .refused _ (place_ne_forget hr)
    · obtain ⟨path, hpath, hfound⟩ := bind_eq_some_iff.mp hfound
      cases path with
      | none => cases hfound
      | some path =>
        dsimp only at hfound
        split at hfound
        · cases hfound
        next found' hfind =>
          obtain ⟨n, -, hfound⟩ := bind_eq_some_iff.mp hfound
          split at hfound
          · cases hfound
            exact handled_fuseReplyEntry hr hpath hfind h
          · cases hfound

end

theorem handled_handleRemove (hr : ∀ a n, r ≠ .forget a n)
    (hrename : ∀ p q old new, r ≠ .rename p q old new)
    (h : handleRemove env s p name w = some (s', reply)) : Handled env s w r s' reply := by
  obtain ⟨result, -, h⟩ := bind_eq_some_iff.mp h
  cases result with
  | error e =>
    cases h
    exact .unchanged hr (fun _ _ _ => Reply.noConfusion) fun _ => hrename
  | ok found =>
    dsimp only at h
    split at h
    all_goals
      cases h
      exact .unchanged hr (fun _ _ _ => Reply.noConfusion) fun _ => hrename

variable {old : Name} {q : ℕ}

theorem handled_handleRename {new : Name}
    (h : s.handleRename env p q old new w = some (s', reply)) :
    Handled env s w (.rename p q old new) s' reply := by
  obtain ⟨result, hfound, h⟩ := bind_eq_some_iff.mp h
  cases result with
  | error e =>
    cases h
    exact .refused _ fun _ _ => Request.noConfusion
  | ok found =>
    obtain ⟨newPath, c⟩ := found
    -- the node that was found is the child with the name
    have hchild : s.lookupChildByName p old = some c ∧ c ≠ 0 := by
      obtain ⟨oldPath, -, hfound⟩ := bind_eq_some_iff.mp hfound
      obtain ⟨newPath', -, hfound⟩ := bind_eq_some_iff.mp hfound
      cases oldPath with
      | none => cases hfound
      | some oldPath =>
        cases newPath' with
        | none => cases hfound
        | some newPath' =>
          obtain ⟨n, -, hfound⟩ := bind_eq_some_iff.mp hfound
          obtain ⟨m, -, hfound⟩ := bind_eq_some_iff.mp hfound
          dsimp only at hfound
          split at hfound
          · cases hfound
          split at hfound
          · cases hfound
          obtain ⟨c', hc', hfound⟩ := bind_eq_some_iff.mp hfound
          split at hfound
          · cases hfound
          next h0 =>
            obtain ⟨path, -, hfound⟩ := bind_eq_some_iff.mp hfound
            cases path with
            | none => cases hfound
            | some path =>
              cases hfound
              exact ⟨hc', h0⟩
    obtain ⟨s₀, hacquire, h⟩ := bind_eq_some_iff.mp h
    dsimp only at h
    split at h
    · obtain ⟨s₁, hrelease, h⟩ := bind_eq_some_iff.mp h
      cases h
      exact .renameFails hchild.1 hchild.2 hacquire hrelease
    next path actual _ =>
      split at h
      · obtain ⟨s₁, hrelease, h⟩ := bind_eq_some_iff.mp h
        cases h
        exact .renameFails hchild.1 hchild.2 hacquire hrelease
      · obtain ⟨⟨s₁, renamed⟩, hname, h⟩ := bind_eq_some_iff.mp h
        cases renamed with
        | true =>
          obtain ⟨s₂, hremove, h⟩ := bind_eq_some_iff.mp h
          obtain ⟨s₃, hadd, h⟩ := bind_eq_some_iff.mp h
          obtain ⟨s₄, hrelease, h⟩ := bind_eq_some_iff.mp h
          cases h
          exact .renames hchild.1 hchild.2 hacquire hname hremove hadd hrelease
        | false =>
          obtain ⟨s₂, hrelease, h⟩ := bind_eq_some_iff.mp h
          cases h
          have hsame : s₁ = s₀ := by
            obtain ⟨n, -, hname⟩ := bind_eq_some_iff.mp hname
            dsimp only at hname
            split_ifs at hname <;> cases hname <;> rfl
          rw [hsame] at hrelease
          exact .renameFails hchild.1 hchild.2 hacquire hrelease

/-- **What a request can do to the nodes.** -/
theorem handled (h : s.handleFuseRequest env w r = some (s', reply)) :
    Handled env s w r s' reply := by
  cases r with
  | lookup p name =>
    rw [handleFuseRequest, handleLookup] at h
    exact handled_handleEntry rfl h
  | mknod p name =>
    rw [handleFuseRequest, handleMknod] at h
    exact handled_handleEntry rfl h
  | mkdir p name =>
    rw [handleFuseRequest, handleMkdir] at h
    exact handled_handleEntry rfl h
  | unlink | rmdir =>
    exact handled_handleRemove (fun _ _ => Request.noConfusion)
      (fun _ _ _ _ => Request.noConfusion) h
  | rename p q old new => exact handled_handleRename h
  | forget a n =>
    obtain ⟨s₁, hforget, heq⟩ := map_eq_some_iff.mp h
    cases heq
    exact .forget hforget

/-! ### The tree of all nodes -/

variable {kids' : ℕ → List ℕ} {D' : Set ℕ}

/-- All live nodes are a tree, and each has a reference. -/
def Sound (s : Fuse) (held : ℕ → ℕ) : Prop :=
  (∃ kids, Graph s {a | a ∈ s.live} held kids) ∧ ∀ a ∈ s.live, 0 < (s.nodes a).refcount

/-- A node has a reference more than it needs. -/
def Spare (s : Fuse) (held : ℕ → ℕ) (a : ℕ) : Prop :=
  a ∈ s.live ∧ ∀ kids, Graph s {a | a ∈ s.live} held kids →
    held a + (kids a).length + rootRefs a < (s.nodes a).refcount

/-- What `acquire_or_create_child_locked` does to the nodes. -/
inductive Entered (env : Env) (s : Fuse) (p : ℕ) (name actual : Name) (m : Alloc) :
    Fuse → ℕ → Prop
  | noMemory (hnone : s.lookupChildByName p name = some 0) : Entered env s p name actual m s 0
  | acquired {c : ℕ} (hc : s.lookupChildByName p name = some c) (hne : c ≠ 0)
      (hparent : s.parent c = p) :
      Entered env s p name actual m
        (s.store c { s.nodes c with refcount := (s.nodes c).refcount + 1 }) c
  | created {a : ℕ} {s' : Fuse} (hnone : s.lookupChildByName p name = some 0)
      (hne : a ≠ 0) (hfresh : a ∉ s.live) (hlive : s'.live = a :: s.live)
      (hparent : ∀ x, s'.parent x = Function.update s.parent a p x)
      (hlabel : (s'.nodes a).label =
        (name, keepActual name actual, derive env.config env.packages (s.nodes p).derived name))
      (hother : ∀ x, x ≠ a → (s'.nodes x).label = (s.nodes x).label) :
      Entered env s p name actual m s' a

variable {held : ℕ → ℕ} {kids : ℕ → List ℕ} {a p : ℕ}

theorem Graph.kids_unique {D : Set ℕ} (h : Graph s D held kids) (h' : Lists s D kids')
    (ha : a ∈ D) : kids' a = kids a :=
  (h'.chain a ha).unique (h.chain a ha)

theorem Graph.spare (h : Graph s {a | a ∈ s.live} held kids) (ha : a ∈ s.live)
    (hcount : held a + (kids a).length + rootRefs a < (s.nodes a).refcount) : Spare s held a :=
  ⟨ha, fun kids' h' => by rwa [h.kids_unique h'.toLists ha]⟩

theorem Kept.live_eq (h : Kept s {a | a ∈ s.live} s' D') :
    D' = {a | a ∈ s'.live} := by
  ext x
  change x ∈ D' ↔ x ∈ s'.live
  rw [h.live]
  exact ⟨fun hx => ⟨h.subset hx, fun _ => hx⟩, fun hx => hx.2 hx.1⟩

theorem Kept.sound (h : Kept s {a | a ∈ s.live} s' D')
    (hpos : ∀ a ∈ s.live, 0 < (s.nodes a).refcount) (hgraph : Graph s' D' held kids') :
    Sound s' held := by
  obtain rfl := h.live_eq
  exact ⟨⟨kids', hgraph⟩, fun a ha => h.pos a ha (hpos a (h.subset ha))⟩

theorem Sound.hold (h : Sound s held) (ha : Spare s held a) :
    Sound s (Function.update held a (held a + 1)) := by
  obtain ⟨⟨kids, hgraph⟩, hpos⟩ := h
  exact ⟨⟨kids, hgraph.with_held ha.1 (by have := ha.2 kids hgraph; omega)⟩, hpos⟩

theorem acquireOrCreateChild_spec (env : Env) (h : Sound s held) (hp : p ∈ s.live)
    (name actual : Name) {m : Alloc} (hfresh : ∀ a ∈ m.node, a ≠ 0 ∧ a ≠ rootId ∧ a ∉ s.live)
    (hroom : ∀ c ∈ s.lookupChildByName p name,
      (s.nodes (if c = 0 then p else c)).refcount + 1 < 2 ^ 32) :
    ∃ s' a, s.acquireOrCreateChild env p name actual m = some (s', a) ∧
      Entered env s p name actual m s' a ∧ Sound s' held ∧ (a ≠ 0 → Spare s' held a) := by
  obtain ⟨⟨kids, hgraph⟩, hpos⟩ := h
  obtain ⟨c, hc, hmem⟩ := lookupChildByName_spec hgraph.toLists hp name
  rw [acquireOrCreateChild, hc, bind_eq_bind, bind_some]
  have hroom := hroom c hc
  by_cases h0 : c = 0
  · -- there is no such node
    subst h0
    rw [if_neg (not_not_intro rfl)]
    cases hm : m.address name actual with
    | none =>
      refine ⟨s, 0, ?_, .noMemory hc, ⟨⟨kids, hgraph⟩, hpos⟩, fun h => absurd rfl h⟩
      rw [createNode, hm]
    | some a =>
      have hnode : m.node = some a := by
        rw [Alloc.address] at hm
        split_ifs at hm
        exact hm
      obtain ⟨ha0, haroot, halive⟩ := hfresh a hnode
      obtain ⟨s', hcreate, hgraph', hcount, hlive, hparent, hlabel, hother, hmono⟩ :=
        createNode_spec env hgraph hp hroom hm ha0 haroot halive
      have hset : insert a {a | a ∈ s.live} = {a | a ∈ s'.live} := by
        ext x
        rw [hlive]
        exact List.mem_cons.symm
      rw [hset] at hgraph'
      have ha' : a ∈ s'.live := by
        rw [hlive]
        exact List.mem_cons_self
      have hpa : a ≠ p := fun h => halive (h ▸ hp)
      have hspare : Spare s' held a := by
        refine hgraph'.spare ha' ?_
        have hheld : held a = 0 := Nat.eq_zero_of_not_pos fun hlt => halive (hgraph.held a hlt)
        rw [hcount, update_of_ne hpa, update_self, hheld, rootRefs,
          if_neg haroot]
        exact Nat.zero_lt_one
      refine ⟨s', a, hcreate, .created hc ha0 halive hlive hparent hlabel hother,
        ⟨⟨_, hgraph'⟩, fun x hx => ?_⟩, fun _ => hspare⟩
      by_cases hxa : x = a
      · rw [hxa, hcount]
        exact Nat.zero_lt_one
      · rw [hlive] at hx
        exact Nat.lt_of_lt_of_le (hpos x (List.mem_of_ne_of_mem hxa hx)) (hmono x hxa)
  · rw [if_neg h0] at hroom
    rw [if_pos h0]
    have hlists := hgraph.mem p hp c (hmem h0)
    rw [acquireNode_spec hlists.1 hroom]
    set n : Node := { s.nodes c with refcount := (s.nodes c).refcount + 1 } with hn
    have hcount := hgraph.count c hlists.1
    have hgraph' : Graph (s.store c n) {a | a ∈ s.live} held kids :=
      hgraph.store rfl rfl rfl (Nat.le_succ_of_le hcount)
    refine ⟨s.store c n, c, rfl, .acquired hc h0 hlists.2, ?_, fun _ => ?_⟩
    · have hkept : Kept s {a | a ∈ s.live} (s.store c n) {a | a ∈ s.live} :=
        Kept.store hlists.1 rfl rfl (Nat.succ_pos _)
      exact hkept.sound hpos hgraph'
    · refine hgraph'.spare hlists.1 ?_
      rw [store_self]
      exact Nat.lt_succ_of_le hcount

/-! ### Rename -/

variable {c : ℕ}

/-- What a successful rename does to the nodes. -/
structure Moved (s s' : Fuse) (c q : ℕ) (new actual : Name) : Prop where
  live : s'.live = s.live
  parent : ∀ x, s'.parent x = Function.update s.parent c q x
  label : (s'.nodes c).label = (new, keepActual new actual, (s.nodes c).derived)
  other : ∀ x, x ≠ c → (s'.nodes x).label = (s.nodes x).label

/-- `rename_node_locked` changes the names, or nothing. -/
theorem renameNode_spec (hc : c ∈ s.live) (new actual : Name) (m : Alloc) :
    s.renameNode c new actual m = some (s, false) ∨
      s.renameNode c new actual m =
        some (s.store c { s.nodes c with name := new, actualName := keepActual new actual },
          true) := by
  rw [renameNode, load_bind hc]
  dsimp only
  split_ifs
  · exact Or.inl rfl
  · exact Or.inl rfl
  · exact Or.inr rfl

/-- **A node is moved** with a reference that was taken before. -/
theorem move_spec (h : Sound s held) (hp : p ∈ s.live) (hc : s.lookupChildByName p old = some c)
    (hne : c ≠ 0) (hhold : p = rootId ∨ 0 < held p) (hq : q ∈ s.live)
    (hroomc : (s.nodes c).refcount + 1 < 2 ^ 32) (hroomq : (s.nodes q).refcount + 1 < 2 ^ 32)
    (hbelow : ∀ l, Linked 0 s.parent q l → c ∉ l) :
    ∃ s₀, s.acquireNode c = some s₀ ∧
      (∃ s', s₀.releaseNode c = some s' ∧ Kept s {a | a ∈ s.live} s' {a | a ∈ s'.live} ∧
        Sound s' held) ∧
      ∀ (new actual : Name) (m : Alloc) s₁, s₀.renameNode c new actual m = some (s₁, true) →
        ∃ s₂ s₃ s', s₁.removeNodeFromParent c = some s₂ ∧ s₂.addNodeToParent c q = some s₃ ∧
          s₃.releaseNode c = some s' ∧ Moved s s' c q new actual ∧ Sound s' held := by
  obtain ⟨⟨kids, hgraph⟩, hpos⟩ := h
  have hmem : c ∈ kids p := by
    obtain ⟨c', hc', hmem⟩ := lookupChildByName_spec hgraph.toLists hp old
    rw [hc] at hc'
    cases hc'
    exact hmem hne
  have hclive := (hgraph.mem p hp c hmem).1
  have hcount := hgraph.count c hclive
  set n₀ : Node := { s.nodes c with refcount := (s.nodes c).refcount + 1 } with hn₀
  have hgraph₀ : Graph (s.store c n₀) {a | a ∈ s.live} held kids :=
    hgraph.store rfl rfl rfl (Nat.le_succ_of_le hcount)
  have hkept₀ : Kept s {a | a ∈ s.live} (s.store c n₀) {a | a ∈ s.live} :=
    Kept.store hclive rfl rfl (Nat.succ_pos _)
  refine ⟨s.store c n₀, acquireNode_spec hclive hroomc, ?_, ?_⟩
  · obtain ⟨s', D', kids', hrelease, hgraph', hkept⟩ :=
      releaseNode_spec hgraph₀ hclive (by rw [store_self]; exact Nat.lt_succ_of_le hcount)
    have hkept' := hkept₀.trans hkept
    obtain rfl := hkept'.live_eq
    exact ⟨s', hrelease, hkept', hkept'.sound hpos hgraph'⟩
  · intro new actual m s₁ hname
    set n₁ : Node := { n₀ with name := new, actualName := keepActual new actual } with hn₁
    have hs₁ : s₁ = s.store c n₁ := by
      rcases renameNode_spec (s := s.store c n₀) (c := c) hclive new actual m with hfail | hdone
      · rw [hname] at hfail
        cases hfail
      · rw [hname, store_self] at hdone
        cases hdone
        simp only [store, update_idem]
        rfl
    subst hs₁
    have hgraph₁ : Graph (s.store c n₁) {a | a ∈ s.live} held kids :=
      hgraph.store rfl rfl rfl (Nat.le_succ_of_le hcount)
    have hparent₁ : ∀ x, (s.store c n₁).parent x = s.parent x := store_field Node.parent rfl
    -- the new parent is another node, because it is not below the node
    have hqc := hgraph.ne_of_not_below hq hbelow
    obtain ⟨s₂, s₃, kids₃, hremove, hadd, hgraph₃, hlive, hparent, hlabel, hkids, hrefs, hpos₃⟩ :=
      relink_spec hgraph₁ hq (fun l hl => hbelow l (hl.congr fun x _ => (hparent₁ x).symm))
        hp hmem hhold (by rwa [store_of_ne n₁ hqc])
    have hrefs : (s₃.nodes c).refcount = (s.nodes c).refcount + 1 := by
      rw [hrefs, store_self]
    have hc₃ : c ∈ s₃.live := by
      rw [hlive]
      exact hclive
    set n₃ : Node := { s₃.nodes c with refcount := (s₃.nodes c).refcount - 1 } with hn₃
    have hcpos := hpos c hclive
    have hlabel₃ : ∀ x, ((s₃.store c n₃).nodes x).label = (s₃.nodes x).label :=
      store_field Node.label rfl
    refine ⟨s₂, s₃, s₃.store c n₃, hremove, hadd, releaseNode_of_lt hc₃ (by omega), ?_, ?_⟩
    · refine ⟨hlive, fun x => ?_, ?_, fun x hx => ?_⟩
      · refine Eq.trans (store_field Node.parent (by exact rfl) x) ((hparent x).trans ?_)
        by_cases hxc : x = c
        · rw [hxc, update_self, update_self]
        · rw [update_of_ne hxc, update_of_ne hxc, hparent₁]
      · rw [hlabel₃, hlabel, store_self]
        rfl
      · rw [hlabel₃, hlabel, store_of_ne n₁ hx]
    · have hset : {a | a ∈ s.live} = {a | a ∈ (s₃.store c n₃).live} := by
        rw [store_live, hlive]
        rfl
      refine ⟨⟨kids₃, ?_⟩, fun x hx => ?_⟩
      · rw [← hset]
        refine hgraph₃.store rfl rfl rfl ?_
        change held c + (kids₃ c).length + rootRefs c ≤ (s₃.nodes c).refcount - 1
        rw [hkids, hrefs]
        exact hcount
      · by_cases hxc : x = c
        · rw [hxc, store_self]
          change 0 < (s₃.nodes c).refcount - 1
          omega
        · rw [store_of_ne n₃ hxc]
          refine hpos₃ x ?_
          rw [store_of_ne n₁ hxc]
          rw [store_live, hlive] at hx
          exact hpos x hx

end Fuse

end Sdcard
