/-
Paths of the nodes of `sdcard` (`sdcard/sdcard.c`).

`get_node_path_locked` goes up from a node and takes the length of each name, and two more bytes,
from the size that it was given.  Seen from outside it is a function of the names on the way up:

* `components` — these names, from the node on; a grafted path is the last of them;
* `pathIn` — what the function makes of them in a buffer of a given size;
* `join` — the path itself;
* `writePath` — the buffer that it is written to.

`getNodePath_spec` says that the function ends for a node from which the root can be reached, and
`pathIn_eq_some` that it gives the path or fails.  Whether it fails depends on lengths only
(`fitsIn`).  What is written stays in the buffer exactly if the size does not wrap on the way up or
the path is short enough (`writePath_inBuffer_iff`); `writePath_past` is a size that wraps.
-/
import AndroidSystem.Memory
import AndroidSystem.Sdcard.Lists

open CInt List Option

namespace Sdcard

/-! ### Paths as lists of names -/

/-- The path with the given names, the last one first. -/
def join : List Name → Name
  | [] => []
  | [c] => c
  | c :: cs => join cs ++ 47 :: c

/-- The path in a buffer of the given size. -/
def pathIn : List Name → ℕ → Option Name
  | [], _ => none
  | [c], bufsize => if bufsize < c.length + 1 then none else some c
  | c :: cs, bufsize =>
    if bufsize < c.length + 1 then none
    else (pathIn cs (usub bufsize (c.length + 2))).map (· ++ 47 :: c)

theorem pathIn_cons (c d : Name) (cs : List Name) (bufsize : ℕ) :
    pathIn (c :: d :: cs) bufsize =
      if bufsize < c.length + 1 then none
      else (pathIn (d :: cs) (usub bufsize (c.length + 2))).map (· ++ 47 :: c) := rfl

/-- No name on the way up finds less room than it needs; `size_t` wraps at zero. -/
def fitsIn : List ℕ → ℕ → Prop
  | [], _ => False
  | [n], bufsize => n < bufsize
  | n :: ns, bufsize => n < bufsize ∧ fitsIn ns (usub bufsize (n + 2))

instance fitsIn.decide : ∀ ns bufsize, Decidable (fitsIn ns bufsize)
  | [], _ => inferInstanceAs (Decidable False)
  | [_], _ => inferInstanceAs (Decidable (_ < _))
  | _ :: n :: ns, bufsize =>
    have := fitsIn.decide (n :: ns)
    inferInstanceAs (Decidable (_ < bufsize ∧ fitsIn (n :: ns) _))

variable {cs : List Name} {bufsize : ℕ} {path : Name}

/-- **The path is right, or it does not fit.** -/
theorem pathIn_eq_some :
    pathIn cs bufsize = some path ↔ fitsIn (cs.map length) bufsize ∧ path = join cs := by
  induction cs generalizing bufsize path with
  | nil => simp [pathIn, fitsIn]
  | cons c cs ih =>
    cases cs with
    | nil =>
      simp only [pathIn, fitsIn, join, map_cons, map_nil]
      split_ifs with h
      · simp only [false_iff, not_and]
        exact fun hlt => absurd hlt (by omega)
      · rw [Option.some.injEq]
        exact ⟨fun heq => ⟨by omega, heq.symm⟩, fun heq => heq.2.symm⟩
    | cons d cs =>
      simp only [pathIn, fitsIn, join, map_cons] at ih ⊢
      split_ifs with h
      · simp only [false_iff, not_and]
        exact fun hlt => absurd hlt.1 (by omega)
      · rw [map_eq_some_iff]
        constructor
        · rintro ⟨path', hpath', rfl⟩
          obtain ⟨hfits, rfl⟩ := ih.mp hpath'
          exact ⟨⟨by omega, hfits⟩, rfl⟩
        · rintro ⟨⟨-, hfits⟩, rfl⟩
          exact ⟨_, ih.mpr ⟨hfits, rfl⟩, rfl⟩

/-! ### The buffer -/

/-- `get_node_path_locked` for the names on the way up, with the buffer: the buffer afterwards and
the length that is returned, or `none` for -1. -/
def writePath (buf : Mem) : List Name → ℕ → Option (Mem × ℕ)
  | [], _ => none
  | [c], bufsize => if bufsize < c.length + 1 then none else some (buf.blit 0 (c ++ [0]), c.length)
  | c :: cs, bufsize =>
    if bufsize < c.length + 1 then none
    else do
      let (buf, pathlen) ← writePath buf cs (usub bufsize (c.length + 2))
      let buf := buf.blit pathlen [47]
      some (buf.blit (pathlen + 1) (c ++ [0]), pathlen + 1 + c.length)

theorem blit_path (buf : Mem) (path c : Name) :
    ((buf.blit 0 (path ++ [0])).blit path.length [47]).blit (path.length + 1) (c ++ [0]) =
      buf.blit 0 (path ++ 47 :: c ++ [0]) := by
  funext i
  simp only [Mem.blit]
  grind

/-- What is written is the path and a NUL. -/
theorem writePath_eq (buf : Mem) (cs : List Name) (bufsize : ℕ) :
    writePath buf cs bufsize =
      (pathIn cs bufsize).map fun path => (buf.blit 0 (path ++ [0]), path.length) := by
  fun_induction pathIn cs bufsize with
  | case1 => rfl
  | case2 c bufsize hlt => exact if_pos hlt
  | case3 c bufsize hle => exact if_neg hle
  | case4 c cs bufsize hne hlt =>
    rw [writePath, if_pos hlt, map_none]
    exact hne
  | case5 c cs bufsize hne hle ih =>
    rw [writePath, if_neg hle, ih]
    · cases pathIn cs (usub bufsize (c.length + 2)) with
      | none => rfl
      | some path => simp [blit_path, Nat.add_comm, Nat.add_left_comm]
    · exact hne

/-- No name with a parent leaves room for its NUL alone, so that two bytes can be taken.  A name
that does not fit ends the way up. -/
def NoWrap : List Name → ℕ → Prop
  | [], _ => True
  | [_], _ => True
  | c :: cs, bufsize =>
    bufsize ≠ c.length + 1 ∧ (c.length + 2 ≤ bufsize → NoWrap cs (bufsize - (c.length + 2)))

theorem NoWrap.length_lt (h : NoWrap cs bufsize) (hsize : bufsize < 2 ^ 32)
    (hpath : pathIn cs bufsize = some path) : path.length < bufsize := by
  fun_induction NoWrap cs bufsize generalizing path with
  | case1 => cases hpath
  | case2 c bufsize =>
    obtain ⟨hle, heq⟩ := ite_none_left_eq_some.mp hpath
    cases heq
    omega
  | case3 c cs bufsize hne ih =>
    rw [pathIn] at hpath
    · obtain ⟨hle, hpath⟩ := ite_none_left_eq_some.mp hpath
      obtain ⟨path', hpath', rfl⟩ := map_eq_some_iff.mp hpath
      obtain ⟨hroom, hrest⟩ := h
      rw [usub_of_le (by omega) hsize] at hpath'
      have hlt := ih (hrest (by omega)) (by omega) hpath'
      rw [length_append, length_cons]
      omega
    · exact hne

/-- The bytes that the names on the way take from the size. -/
def bytesUp (cs : List Name) : ℕ := (cs.map fun c => c.length + 2).sum

theorem bytesUp_cons (c : Name) (cs : List Name) : bytesUp (c :: cs) = c.length + 2 + bytesUp cs :=
  sum_cons

theorem pathIn_of_room (hne : cs ≠ []) (h : bytesUp cs ≤ bufsize + 1) (hsize : bufsize < 2 ^ 32) :
    pathIn cs bufsize = some (join cs) := by
  induction cs generalizing bufsize with
  | nil => exact absurd rfl hne
  | cons c cs ih =>
    rw [bytesUp_cons] at h
    cases cs with
    | nil => exact if_neg (by omega)
    | cons d cs =>
      have hd := bytesUp_cons d cs
      rw [pathIn_cons, if_neg (by omega), usub_of_le (by omega) hsize,
        ih (cons_ne_nil d cs) (by omega) (by omega)]
      rfl

/-- After a wrap there is room for everything that is left. -/
theorem pathIn_of_wrap (h : ¬ NoWrap cs bufsize) (hbytes : bytesUp cs < 2 ^ 32)
    (hsize : bufsize < 2 ^ 32) : pathIn cs bufsize = some (join cs) := by
  fun_induction NoWrap cs bufsize with
  | case1 => exact absurd trivial h
  | case2 => exact absurd trivial h
  | case3 c cs bufsize hne ih =>
    obtain ⟨d, cs, rfl⟩ := exists_cons_of_ne_nil fun hnil => hne hnil
    rw [bytesUp_cons] at hbytes
    have hrest : c.length + 1 ≤ bufsize ∧
        pathIn (d :: cs) (usub bufsize (c.length + 2)) = some (join (d :: cs)) := by
      by_cases hwrap : bufsize = c.length + 1
      · refine ⟨hwrap.ge, pathIn_of_room (cons_ne_nil d cs) ?_ (Nat.mod_lt _ (by norm_num))⟩
        have hmax : usub bufsize (c.length + 2) = 2 ^ 32 - 1 := by
          simp only [usub, u32]
          omega
        omega
      · obtain ⟨hle, hrest⟩ := Classical.not_imp.mp (not_and.mp h hwrap)
        rw [usub_of_le hle hsize]
        exact ⟨by omega, ih hrest (by omega) (by omega)⟩
    rw [pathIn_cons, if_neg (by omega), hrest.2]
    rfl

/-- The result is -1, or a length below the size with the path and a NUL in the buffer and nothing
written behind it. -/
def InBuffer (buf : Mem) (cs : List Name) (bufsize : ℕ) : Prop :=
  writePath buf cs bufsize = none ∨ ∃ buf' n, writePath buf cs bufsize = some (buf', n) ∧
    n < bufsize ∧ buf'.slice 0 (n + 1) = join cs ++ [0] ∧ ∀ i, bufsize ≤ i → buf' i = buf i

theorem inBuffer_of_length_lt (hlt : ∀ path, pathIn cs bufsize = some path → path.length < bufsize)
    (buf : Mem) : InBuffer buf cs bufsize := by
  rw [InBuffer, writePath_eq]
  cases hpath : pathIn cs bufsize with
  | none => exact Or.inl rfl
  | some path =>
    have hlt := hlt path hpath
    have hlen : (path ++ [0]).length = path.length + 1 := length_append
    obtain ⟨-, rfl⟩ := pathIn_eq_some.mp hpath
    refine Or.inr ⟨_, _, rfl, hlt, ?_, fun i hi => Mem.blit_of_ge (by omega)⟩
    rw [← hlen, Mem.slice_blit_self]

/-- **The path stays in its buffer** exactly if no size wraps on the way up, or the whole path is
shorter than the buffer. -/
theorem writePath_inBuffer_iff (hsize : bufsize < 2 ^ 32) (hbytes : bytesUp cs < 2 ^ 32)
    (buf : Mem) : InBuffer buf cs bufsize ↔ NoWrap cs bufsize ∨ (join cs).length < bufsize := by
  constructor
  · intro h
    by_cases hwrap : NoWrap cs bufsize
    · exact Or.inl hwrap
    · have hpath := pathIn_of_wrap hwrap hbytes hsize
      rw [InBuffer, writePath_eq, hpath] at h
      obtain hnone | ⟨buf', n, hsome, hn, -⟩ := h
      · cases hnone
      · cases hsome
        exact Or.inr hn
  · rintro (hwrap | hlt) <;> refine inBuffer_of_length_lt (fun path hpath => ?_) buf
    · exact hwrap.length_lt hsize hpath
    · rwa [(pathIn_eq_some.mp hpath).2]

/-- A path that fits, although the size wraps at its third name. -/
theorem writePath_inBuffer_short :
    InBuffer (fun _ => 0) [text "d", text "c", text "b", text "/"] 8 ∧
      ¬ NoWrap [text "d", text "c", text "b", text "/"] 8 := by
  refine ⟨(writePath_inBuffer_iff (by decide) (by decide) _).mpr (Or.inr (by decide)), ?_⟩
  simp [NoWrap, text]

/-- Room for `a` and its NUL, and none for the parent. -/
theorem writePath_past : (writePath (fun _ => 0) [text "a", text "/data"] 2).map
    (fun r => (r.2, r.1 6)) = some (7, 97) := by
  decide

namespace Fuse

variable {s s' : Fuse} {a : ℕ} {l : List ℕ}

/-- The names on the way up from a node. -/
def components (env : Env) (s : Fuse) : ℕ → ℕ → List Name
  | 0, _ => []
  | fuel + 1, a =>
    let n := s.nodes a
    if n.parent ≠ 0 ∧ ¬ n.derived.grafted then component env n :: components env s fuel n.parent
    else [component env n]

/-- The path goes on with that of the parent. -/
def GoesUp (s : Fuse) (a : ℕ) : Prop := s.parent a ≠ 0 ∧ ¬ (s.nodes a).derived.grafted

instance (s : Fuse) (a : ℕ) : Decidable (s.GoesUp a) := inferInstanceAs (Decidable (_ ∧ _))

variable (env : Env)

theorem components_up (fuel : ℕ) (h : s.GoesUp a) :
    components env s (fuel + 1) a =
      component env (s.nodes a) :: components env s fuel (s.parent a) := if_pos h

theorem components_top (fuel : ℕ) (h : ¬ s.GoesUp a) :
    components env s (fuel + 1) a = [component env (s.nodes a)] := if_neg h

theorem components_ne_nil (s : Fuse) (fuel a : ℕ) :
    components env s (fuel + 1) a ≠ [] := by
  by_cases h : s.GoesUp a
  · rw [components_up env fuel h]
    exact cons_ne_nil _ _
  · rw [components_top env fuel h]
    exact cons_ne_nil _ _

theorem component_congr {n n' : Node} (h : n'.label = n.label) :
    component env n' = component env n := by
  simp only [Node.label, Prod.mk.injEq] at h
  rw [component, component, h.1, h.2.1, h.2.2]

theorem goesUp_congr (hparent : s'.parent a = s.parent a)
    (hlabel : (s'.nodes a).label = (s.nodes a).label) : s'.GoesUp a ↔ s.GoesUp a := by
  have hderived : (s'.nodes a).derived = (s.nodes a).derived := congrArg (fun l => l.2.2) hlabel
  rw [GoesUp, GoesUp, hparent, hderived]

/-- The names depend on the nodes on the way up only, and on no bound that is large enough. -/
theorem components_congr (hl : Linked 0 s.parent a l)
    (hparent : ∀ b ∈ l, s'.parent b = s.parent b)
    (hlabel : ∀ b ∈ l, (s'.nodes b).label = (s.nodes b).label) {fuel fuel' : ℕ}
    (hfuel : l.length ≤ fuel) (hfuel' : l.length ≤ fuel') (ha : a ≠ 0) :
    components env s' fuel' a = components env s fuel a := by
  induction hl generalizing fuel fuel' with
  | nil => exact absurd rfl ha
  | @cons a l hne htail ih =>
    obtain ⟨fuel, rfl⟩ := Nat.exists_eq_add_of_le' (Nat.zero_lt_of_lt hfuel)
    obtain ⟨fuel', rfl⟩ := Nat.exists_eq_add_of_le' (Nat.zero_lt_of_lt hfuel')
    have hp := hparent a mem_cons_self
    have hn := hlabel a mem_cons_self
    by_cases hup : s.GoesUp a
    · rw [components_up env fuel hup, components_up env fuel' ((goesUp_congr hp hn).mpr hup),
        component_congr env hn, hp, ih (fun b hb => hparent b (mem_cons_of_mem _ hb))
        (fun b hb => hlabel b (mem_cons_of_mem _ hb)) (Nat.le_of_succ_le_succ hfuel)
        (Nat.le_of_succ_le_succ hfuel') hup.1]
    · rw [components_top env fuel hup, components_top env fuel' ((goesUp_congr hp hn).not.mpr hup),
        component_congr env hn]

/-- **`get_node_path_locked` ends**, with the path or -1. -/
theorem getNodePath_spec (hl : Linked 0 s.parent a l) (hlive : ∀ b ∈ l, b ∈ s.live)
    {fuel : ℕ} (hfuel : l.length ≤ fuel) (ha : a ≠ 0) (bufsize : ℕ) :
    getNodePath env s fuel a bufsize = some (pathIn (components env s fuel a) bufsize) := by
  induction hl generalizing fuel bufsize with
  | nil => exact absurd rfl ha
  | @cons a l hne htail ih =>
    obtain ⟨fuel, rfl⟩ := Nat.exists_eq_add_of_le' (Nat.zero_lt_of_lt hfuel)
    rw [getNodePath, load_bind (hlive a mem_cons_self)]
    by_cases hup : s.GoesUp a
    · obtain ⟨l', rfl⟩ := htail.head hup.1
      obtain ⟨fuel, rfl⟩ := Nat.exists_eq_add_of_le'
        (Nat.zero_lt_of_lt (Nat.le_of_succ_le_succ hfuel))
      have htail := ih (fun b hb => hlive b (mem_cons_of_mem _ hb))
        (Nat.le_of_succ_le_succ hfuel) hup.1
        (usub bufsize (length (component env (s.nodes a)) + 2))
      obtain ⟨c, cs, hc⟩ :=
        exists_cons_of_ne_nil (components_ne_nil env s fuel (s.parent a))
      rw [components_up env (fuel + 1) hup, hc]
      rw [hc] at htail
      change (if _ then _ else if s.GoesUp a then
        (getNodePath env s (fuel + 1) (s.parent a) _ >>= _) else _) = _
      rw [if_pos hup, htail, pathIn_cons]
      split_ifs <;> rfl
    · rw [components_top env fuel hup, pathIn]
      change (if _ then _ else if s.GoesUp a then _ else _) = _
      rw [if_neg hup]
      split_ifs <;> rfl

end Fuse

end Sdcard
