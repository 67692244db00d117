/-
Entry replies of `sdcard` name the file that was found (`sdcard/sdcard.c`).

`fuse_reply_entry` looks for a child with the very name of the request, and makes a node if there is
none.  The path of a node has the actual name that was found when it was made: for a node that is
used again, the file may have another spelling by now.  And `get_node_path_locked` wants a byte
more for every directory on the way than `find_file_within` does.

* `NamesFile` — the node of an entry reply has the path that was found for the reply;
* `NameKept` — the node with this name, if there is one, has the actual name that was found, and
  the longer count of bytes still fits.

`names_file_iff`: the one holds all along a run if and only if the other does.
-/
import AndroidSystem.Sdcard.Integrity

open CInt Runs List

namespace Sdcard

/-! ### The path that is found -/

theorem length_of_icaseEq {a b : Name} (h : icaseEq a b = true) : a.length = b.length := by
  have hlen := congrArg length (icaseEq_iff.mp h)
  rwa [length_map, length_map] at hlen

/-- The actual name is as long as the name, and the path fits into a buffer. -/
theorem findFileWithin_spec {path name found actual : Name} {search : Bool} {dir : Dir}
    (h : findFileWithin path name search dir = some (found, actual)) :
    found = path ++ 47 :: actual ∧ actual.length = name.length ∧
      path.length + name.length + 1 < pathMax := by
  rw [findFileWithin] at h
  split at h
  · cases h
  next hshort =>
    cases h
    refine ⟨rfl, ?_, by omega⟩
    split
    · cases hfind : (dir.entries.getD []).find? fun entry => icaseEq entry name with
      | none => rfl
      | some entry =>
        exact length_of_icaseEq (find?_some (p := fun entry => icaseEq entry name) hfind)
    · rfl

namespace Fuse

variable {env : Env} {s s' : Fuse} {held : ℕ → ℕ} {a p : ℕ}

theorem Sound.getNodePath (env : Env) (h : Sound s held) (ha : a ∈ s.live) :
    s.getNodePath env s.bound a pathMax =
      some (pathIn (s.components env s.bound a) pathMax) := by
  obtain ⟨⟨kids, hgraph⟩, -⟩ := h
  obtain ⟨l, hl, hlive, hlen⟩ := hgraph.path ha
  exact getNodePath_spec env hl hlive hlen.le (fun h0 => hgraph.null (h0 ▸ ha)) pathMax

theorem Sound.nodePath_eq (h : Sound s held) (ha : a ∈ s.live) {path : Name}
    (hpath : s.nodePath env a = some (some path)) : path = join (s.components env s.bound a) := by
  rw [nodePath, bind_of_eq (h.getNodePath env ha)] at hpath
  split at hpath
  · exact (pathIn_eq_some.mp (Option.some.inj hpath)).2
  · cases hpath

/-- **The path of a child** is the one that was found if its name is, and if it fits. -/
theorem child_path_iff (h : Sound s held) (ha : a ∈ s.live) (hup : s.GoesUp a) {cs : List Name}
    (hcs : s.components env s.live.length (s.parent a) = cs) (hne : cs ≠ []) {name actual : Name}
    (hlen : actual.length = name.length) (hshort : name.length < pathMax) :
    s.getNodePath env s.bound a pathMax = some (some (join cs ++ 47 :: actual)) ↔
      component env (s.nodes a) = actual ∧
        fitsIn (cs.map length) (usub pathMax (name.length + 2)) := by
  obtain ⟨d, ds, rfl⟩ := exists_cons_of_ne_nil hne
  rw [h.getNodePath env ha, bound, components_up env s.live.length hup, hcs, Option.some.injEq,
    pathIn_eq_some]
  simp only [map_cons, fitsIn, join]
  constructor
  · rintro ⟨⟨-, hfits⟩, hjoin⟩
    have hname := cons_injective (append_cancel_left hjoin)
    rw [← hname, hlen] at hfits
    exact ⟨hname.symm, hfits⟩
  · rintro ⟨rfl, hfits⟩
    rw [hlen]
    exact ⟨⟨hshort, hfits⟩, rfl⟩

/-- The names above a node do not change with a request for an entry. -/
theorem components_parent (h : Sound s held) (hp : p ∈ s.live) {fuel : ℕ}
    (hfuel : s.live.length ≤ fuel) (hparent : ∀ x ∈ s.live, s'.parent x = s.parent x)
    (hlabel : ∀ x ∈ s.live, (s'.nodes x).label = (s.nodes x).label) :
    s'.components env fuel p = s.components env s.bound p := by
  obtain ⟨⟨kids, hgraph⟩, -⟩ := h
  obtain ⟨l, hl, hlive, hlen⟩ := hgraph.path hp
  exact components_congr env hl (fun b hb => hparent b (hlive b hb))
    (fun b hb => hlabel b (hlive b hb)) hlen.le (Nat.le_trans (Nat.le_of_lt_succ hlen) hfuel)
    fun h0 => hgraph.null (h0 ▸ hp)

theorem getD_keepActual (name actual : Name) : (keepActual name actual).getD name = actual := by
  rw [keepActual]
  split
  next h => exact h
  · rfl

end Fuse

/-! ### Replies -/

/-- The node of an entry reply has the path that was found for the reply, unless it is
grafted. -/
def NamesFile (env : Env) (s : System) (e : Request × World) : Prop :=
  ∀ s' a g path, s.fuse.handleFuseRequest env e.2 e.1 = some (s', .entry a g path) →
    ¬ (s'.nodes a).derived.grafted →
      s'.getNodePath env s'.bound a pathMax = some (some path)

/-- If a request is answered with an entry, the node that has the name already has the actual name
that was found, and the names above it fit into what is left of `PATH_MAX`. -/
def NameKept (env : Env) (s : System) (e : Request × World) : Prop :=
  ∀ s' a g path, s.fuse.handleFuseRequest env e.2 e.1 = some (s', .entry a g path) →
    ¬ (s'.nodes a).derived.grafted →
      ∀ p name parentPath actual, e.1.place = some (p, name) →
        s.fuse.nodePath env p = some (some parentPath) →
        findFileWithin parentPath name true e.2.dir = some (path, actual) →
        (∀ c ∈ s.fuse.lookupChildByName p name, c ≠ 0 →
          (s.fuse.nodes c).actualName.getD (s.fuse.nodes c).name = actual) ∧
        fitsIn ((s.fuse.components env s.fuse.bound p).map List.length)
          (usub pathMax (name.length + 2))

section Steps

variable {env : Env} {s : System} {e : Request × World}

/-- The node of an entry reply. -/
theorem entered_path_iff {held' : ℕ → ℕ} {p a : ℕ} {name parentPath path actual : Name} {m : Alloc}
    {t : Fuse} {dir : Dir} (h : Fuse.Sound s.fuse s.held) (hp : p ∈ s.fuse.live)
    (hpath : s.fuse.nodePath env p = some (some parentPath))
    (hfind : findFileWithin parentPath name true dir = some (path, actual))
    (hentered : Fuse.Entered env s.fuse p name actual m t a) (ha : a ≠ 0)
    (ht : Fuse.Sound t held') (hgrafted : ¬ (t.nodes a).derived.grafted) :
    t.getNodePath env t.bound a pathMax = some (some path) ↔
      (∀ c ∈ s.fuse.lookupChildByName p name, c ≠ 0 →
        (s.fuse.nodes c).actualName.getD (s.fuse.nodes c).name = actual) ∧
      fitsIn ((s.fuse.components env s.fuse.bound p).map length)
        (usub pathMax (name.length + 2)) := by
  obtain ⟨rfl, hlen, hshort⟩ := findFileWithin_spec hfind
  have hp0 : p ≠ 0 := by
    obtain ⟨⟨kids, hgraph⟩, -⟩ := h
    exact fun h0 => hgraph.null (h0 ▸ hp)
  have hcs : s.fuse.components env s.fuse.bound p ≠ [] := Fuse.components_ne_nil env s.fuse _ p
  have hcomponent : Fuse.component env (t.nodes a) = (t.nodes a).actualName.getD (t.nodes a).name :=
    if_neg hgrafted
  rw [h.nodePath_eq hp hpath]
  cases hentered with
  | noMemory => exact absurd rfl ha
  | acquired hc hne hparent =>
    have hlabel : ∀ x ∈ s.fuse.live, (_ : Node).label = (s.fuse.nodes x).label := fun x _ =>
      Fuse.store_field (s := s.fuse) (a := a)
        (n := { s.fuse.nodes a with refcount := (s.fuse.nodes a).refcount + 1 }) Node.label rfl x
    have hparents : ∀ x, (s.fuse.store a
        { s.fuse.nodes a with refcount := (s.fuse.nodes a).refcount + 1 }).parent x =
        s.fuse.parent x := Fuse.store_field Node.parent rfl
    have hlive := (h.child hp hc hne).1
    rw [Fuse.child_path_iff ht hlive ⟨by rw [hparents, hparent]; exact hp0, hgrafted⟩
      (by
        rw [hparents, hparent]
        exact Fuse.components_parent h hp le_rfl (fun x _ => hparents x) hlabel)
      hcs hlen (by omega), hcomponent, Fuse.store_self]
    refine and_congr_left fun _ => ⟨fun heq c hc' _ => ?_, fun hall => hall a hc hne⟩
    rw [hc] at hc'
    cases hc'
    exact heq
  | created hnone _ hfresh hlive hparent hlabel hother =>
    have hpa : t.parent a = p := by rw [hparent, Function.update_self]
    have hne : ∀ x ∈ s.fuse.live, x ≠ a := fun x hx hxa => hfresh (hxa ▸ hx)
    have hname : (t.nodes a).actualName.getD (t.nodes a).name = actual := by
      have hn : (t.nodes a).name = name := congrArg (fun l => l.1) hlabel
      have hactual : (t.nodes a).actualName = Fuse.keepActual name actual :=
        congrArg (fun l => l.2.1) hlabel
      rw [hn, hactual, Fuse.getD_keepActual]
    rw [Fuse.child_path_iff ht (by rw [hlive]; exact mem_cons_self)
      ⟨by rw [hpa]; exact hp0, hgrafted⟩
      (by
        rw [hpa]
        refine Fuse.components_parent h hp ?_ (fun x hx => ?_) fun x hx => hother x (hne x hx)
        · rw [hlive]
          exact Nat.le_succ _
        · rw [hparent, Function.update_of_ne (hne x hx)])
      hcs hlen (by omega), hcomponent]
    refine and_congr_left fun _ => iff_of_true hname fun c hc hc0 => ?_
    rw [hnone] at hc
    cases hc
    exact absurd rfl hc0

theorem step_names (h : Fuse.Sound s.fuse s.held) (hlegal : Legal s e ∧ Room s e) :
    NamesFile env s e ↔ NameKept env s e := by
  refine forall_congr' fun t => forall_congr' fun a => forall_congr' fun g =>
    forall_congr' fun path => forall_congr' fun hhandle => forall_congr' fun hgrafted => ?_
  obtain ⟨heffect, hsound⟩ := Fuse.effect h hlegal.1 hlegal.2 hhandle
  obtain ⟨r, w⟩ := e
  generalize hreply : Reply.entry a g path = reply at heffect
  cases heffect with
  | kept _ hno _ => exact absurd hreply.symm (hno a g path)
  | moved => cases hreply
  | entered hr hp hpath hfind hentered ha =>
    cases hreply
    rw [entered_path_iff h hp hpath hfind hentered ha hsound hgrafted]
    constructor
    · intro hkept p' name' parentPath' actual' hr' hpath' hfind'
      rw [hr] at hr'
      cases hr'
      rw [hpath] at hpath'
      cases hpath'
      rw [hfind] at hfind'
      cases hfind'
      exact hkept
    · intro hkept
      exact hkept _ _ _ _ hr hpath hfind

end Steps

/-- **An entry reply names the file that was found**, all along a run, if and only if every node
that is used again has the actual name that was found and the names above it fit. -/
theorem names_file_iff (env : Env) (es : List (Request × World))
    (hruns : Along (step env) (fun s e => Legal s e ∧ Room s e) (fuseInit env) es) :
    Along (step env) (NamesFile env) (fuseInit env) es ↔
      Along (step env) (NameKept env) (fuseInit env) es := by
  have hstep : ∀ {s : System} {e : Request × World} {s' : System}, Fuse.Sound s.fuse s.held →
      Legal s e ∧ Room s e → step env s e = some s' → Fuse.Sound s'.fuse s'.held :=
    fun hs hc => step_sound hs hc.1 hc.2
  exact along_iff hstep step_names (fuseInit_sound env) hruns

theorem names_file_iff_sampleRun :
    Along (step (sampleEnv .legacy)) (fun s e => Legal s e ∧ Room s e)
      (fuseInit (sampleEnv .legacy)) sampleRun ∧
    (Along (step (sampleEnv .legacy)) (NamesFile (sampleEnv .legacy))
        (fuseInit (sampleEnv .legacy)) sampleRun ↔
      Along (step (sampleEnv .legacy)) (NameKept (sampleEnv .legacy))
        (fuseInit (sampleEnv .legacy)) sampleRun) :=
  have h : Along (step (sampleEnv .legacy)) (fun s e => Legal s e ∧ Room s e)
      (fuseInit (sampleEnv .legacy)) sampleRun := by decide +kernel
  ⟨h, names_file_iff (sampleEnv .legacy) sampleRun h⟩

/-- A directory in which the name is not there, but the given entries are. -/
def worldWith (entries : List Name) (node : Option ℕ) : World :=
  { sampleWorld node with dir := ⟨false, some entries⟩ }

/-- `foo` is looked up and finds `Foo`, which is removed; then `foo` is made. -/
def recreatedRun : List (Request × World) :=
  [(.lookup 1 (text "foo"), worldWith [text "Foo"] (some 8)),
    (.unlink 1 (text "foo"), worldWith [text "Foo"] none)]

/-- The node of the new file has the path of the old one. -/
theorem stale_name :
    Along (step (sampleEnv .none)) (fun s e => Legal s e ∧ Room s e) (fuseInit (sampleEnv .none))
        (recreatedRun ++ [(.mknod 1 (text "foo"), worldWith [] none)]) ∧
      ((run (step (sampleEnv .none)) (fuseInit (sampleEnv .none)) recreatedRun).bind fun s =>
        (s.fuse.handleFuseRequest (sampleEnv .none) (worldWith [] none) (.mknod 1 (text "foo"))).map
          fun r => (r.2, (r.1.nodes 8).derived.grafted,
            r.1.getNodePath (sampleEnv .none) r.1.bound 8 pathMax)) =
      some (.entry 8 0 (text "/data/media/foo"), false, some (some (text "/data/media/Foo"))) := by
  constructor <;> decide +kernel

end Sdcard
