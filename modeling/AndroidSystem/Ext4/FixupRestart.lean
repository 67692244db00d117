/-
Restarting the superblock phase of `ext4fixup`.

Whatever state a disk is in, a run that completes leaves the superblocks and descriptors
that `finalSuper` and `finalDescs` compute from those it found; the bit that makes the
disk unmountable does not matter.  A crash is therefore harmless if these figures are the
same for the disk it leaves.

* `fixup_final` — a run leaves the final superblocks and descriptors.
* `crash_cases` — the disk after a crash in the superblock phase.
* `Stable` — the new number of inodes per group gives the same groups again, as it does on
  every disk whose inodes fill blocks without a rest (`stable_of_dvd`).
* `restart_iff` — a crash is harmless if and only if it does not come between
  the primary superblock and the primary descriptors.
* `restart_completes` — on such a disk, a run after a crash comes to its end.
-/
import AndroidSystem.Ext4.FixupSuper

open CInt List Function Option

namespace Ext4Fixup

section

variable {δ : Type}

/-! ### Lists of writes -/

variable {ws : List (Write δ)}

@[simp]
theorem after_nil (d : Disk δ) : d.after [] = d := rfl

@[simp]
theorem after_cons (d : Disk δ) (w : Write δ) (ws : List (Write δ)) :
    d.after (w :: ws) = (d.write w).after ws := rfl

@[simp]
theorem after_append (d : Disk δ) (ws ws' : List (Write δ)) :
    d.after (ws ++ ws') = (d.after ws).after ws' := foldl_append

theorem write_super_self (d : Disk δ) (i : ℕ) (sb : SuperBlock) :
    (d.write (.super i sb)).super i = sb := update_self _ _ _

theorem write_descs_self (d : Disk δ) (i : ℕ) (l : List GroupDesc) :
    (d.write (.descs i l)).descs i = l := update_self _ _ _

/-- A part of the disk that none of the writes changes. -/
theorem after_same {β : Type} (f : Disk δ → β) (h : ∀ w ∈ ws, ∀ d, f (d.write w) = f d) :
    ∀ d : Disk δ, f (d.after ws) = f d := by
  induction ws with
  | nil => exact fun _ => rfl
  | cons w ws ih =>
    intro d
    rw [after_cons, ih fun w' hw' => h w' (mem_cons_of_mem _ hw'), h w mem_cons_self]

theorem after_super (i : ℕ) (h : ∀ w ∈ ws, ∀ sb, w ≠ .super i sb) :
    ∀ d : Disk δ, (d.after ws).super i = d.super i := by
  refine after_same (·.super i) fun w hw d => ?_
  cases w with
  | super j sb =>
    have hne : i ≠ j := fun hij => h _ hw sb (hij ▸ rfl)
    exact update_of_ne hne _ _
  | _ => rfl

theorem after_descs (i : ℕ) (h : ∀ w ∈ ws, ∀ l, w ≠ .descs i l) :
    ∀ d : Disk δ, (d.after ws).descs i = d.descs i := by
  refine after_same (·.descs i) fun w hw d => ?_
  cases w with
  | descs j l =>
    have hne : i ≠ j := fun hij => h _ hw l (hij ▸ rfl)
    exact update_of_ne hne _ _
  | _ => rfl

theorem after_state (h : ∀ w ∈ ws, ∀ s, w ≠ .state s) :
    ∀ d : Disk δ, (d.after ws).state = d.state := by
  refine after_same (·.state) fun w hw d => ?_
  cases w with
  | state s => exact absurd rfl (h _ hw s)
  | _ => rfl

/-- The write is neither a superblock nor a descriptor nor the state. -/
def Write.Minor : Write δ → Prop
  | .bitmap _ _ | .dirs _ => True
  | _ => False

theorem after_minor (h : ∀ w ∈ ws, w.Minor) (d : Disk δ) :
    (d.after ws).super = d.super ∧ (d.after ws).descs = d.descs ∧
      (d.after ws).state = d.state := by
  refine ⟨funext fun i => after_super i ?_ d, funext fun i => after_descs i ?_ d,
    after_state ?_ d⟩ <;> rintro w hw _ rfl <;> exact h _ hw

theorem bitmapWrites_minor (old new : ℕ) (l : List GroupDesc) :
    ∀ bitmap, ∀ w ∈ bitmapWrites (δ := δ) old new bitmap l, w.Minor := by
  induction l with
  | nil => exact fun _ _ hw => absurd hw not_mem_nil
  | cons desc l ih =>
    intro bitmap w hw
    simp only [bitmapWrites] at hw
    split at hw
    · rcases mem_cons.mp hw with rfl | hw
      · trivial
      · exact ih _ w hw
    · exact ih _ w hw

/-! ### All copies -/

variable {l : List GroupDesc}

theorem copies_cons (sb : SuperBlock) (l : List GroupDesc) (i : ℕ) (gs : List ℕ) :
    copies (δ := δ) sb l (i :: gs) =
      .super i (copyOf sb i) :: .descs i l :: copies sb l gs := rfl

variable {sb : SuperBlock}

theorem mem_copies {gs : List ℕ} {w : Write δ} (hw : w ∈ copies sb l gs) :
    ∃ i ∈ gs, w = .super i (copyOf sb i) ∨ w = .descs i l := by
  simpa only [copies, mem_flatMap, mem_cons, not_mem_nil, or_false] using hw

theorem written_cons {β : Type*} (f c : ℕ → β) (gs : List ℕ) (i j : ℕ) :
    (if i ∈ gs then c i else Function.update f j (c j) i) = if i ∈ j :: gs then c i else f i := by
  by_cases hi : i ∈ gs
  · rw [if_pos hi, if_pos (mem_cons_of_mem _ hi)]
  · rw [if_neg hi]
    by_cases hij : i = j
    · rw [hij, update_self, if_pos mem_cons_self]
    · rw [update_of_ne hij, if_neg (by simp [hij, hi])]

theorem copies_super (sb : SuperBlock) (l : List GroupDesc) (gs : List ℕ) (i : ℕ) :
    ∀ d : Disk δ,
      (d.after (copies sb l gs)).super i = if i ∈ gs then copyOf sb i else d.super i := by
  induction gs with
  | nil => exact fun _ => rfl
  | cons j gs ih =>
    intro d
    rw [copies_cons, after_cons, after_cons, ih]
    exact written_cons d.super (copyOf sb) gs i j

theorem copies_descs (sb : SuperBlock) (l : List GroupDesc) (gs : List ℕ) (i : ℕ) :
    ∀ d : Disk δ, (d.after (copies sb l gs)).descs i = if i ∈ gs then l else d.descs i := by
  induction gs with
  | nil => exact fun _ => rfl
  | cons j gs ih =>
    intro d
    rw [copies_cons, after_cons, after_cons, ih]
    exact written_cons d.descs (fun _ => l) gs i j

/-! ### What a run leaves -/

variable {d' d : Disk δ} {P : Passes δ} {old : ℕ}

/-- The superblock as it is when the disk is mountable. -/
def SuperBlock.clean (sb : SuperBlock) : SuperBlock := { sb with sDescSize := sb.sDescSize / 2 * 2 }

/-- The two disks differ in directories, bitmaps, and whether they are mountable. -/
structure Kept (d d' : Disk δ) : Prop where
  primary : (d'.super 0).clean = (d.super 0).clean
  backup : ∀ i ≠ 0, d'.super i = d.super i
  descs : d'.descs = d.descs

theorem Kept.refl (d : Disk δ) : Kept d d := ⟨rfl, fun _ _ => rfl, rfl⟩

theorem Kept.trans {d'' : Disk δ} (h : Kept d d') (h' : Kept d' d'') : Kept d d'' :=
  ⟨h'.primary.trans h.primary, fun i hi => (h'.backup i hi).trans (h.backup i hi),
    h'.descs.trans h.descs⟩

theorem Kept.of_minor (h : ∀ w ∈ ws, w.Minor) (d : Disk δ) :
    Kept d (d.after ws) := by
  obtain ⟨hsuper, hdescs, -⟩ := after_minor h d
  exact ⟨by rw [hsuper], fun i _ => by rw [hsuper], hdescs⟩

theorem Kept.fixed (h : Kept d d') : (d'.super 0).fixed = (d.super 0).fixed := by
  have := congrArg SuperBlock.fixed h.primary
  exact this

theorem Kept.inodesPerGroup (h : Kept d d') :
    (d'.super 0).sInodesPerGroup = (d.super 0).sInodesPerGroup := by
  have := congrArg SuperBlock.sInodesPerGroup h.primary
  exact this

theorem setState_super (s : State) (d : Disk δ) :
    (d.after (setState s d)).super = Function.update d.super 0 { d.super 0 with
      sDescSize := if s = .unset then (d.super 0).sDescSize / 2 * 2
        else (d.super 0).sDescSize / 2 * 2 + 1 } := rfl

theorem setState_descs (s : State) (d : Disk δ) : (d.after (setState s d)).descs = d.descs := rfl

theorem Kept.setState (s : State) (d : Disk δ) : Kept d (d.after (setState s d)) where
  primary := by
    rw [setState_super, update_self, SuperBlock.clean, SuperBlock.clean]
    simp only [SuperBlock.mk.injEq, and_true, true_and]
    split <;> omega
  backup i hi := by rw [setState_super, update_of_ne hi]
  descs := rfl

/-- A phase before the last keeps the figures, and hands over to the next. -/
theorem phase_spec {s next : State} {writes : Disk δ → Option (List (Write δ))}
    (h : phase s next writes d = some ws)
    (hminor : ∀ ws', writes d = some ws' → ∀ w ∈ ws', w.Minor) :
    Kept d (d.after ws) ∧ (d.after ws).state = if d.state = s then next else d.state := by
  by_cases hs : d.state = s
  · rw [phase, if_pos hs] at h
    obtain ⟨ws', hws, h⟩ := bind_eq_some_iff.mp h
    obtain rfl := Option.some.inj h
    rw [after_append, if_pos hs]
    exact ⟨(Kept.of_minor (hminor ws' hws) d).trans (Kept.setState next _), rfl⟩
  · rw [phase, if_neg hs] at h
    obtain rfl := Option.some.inj h
    rw [if_neg hs]
    exact ⟨Kept.refl d, rfl⟩

theorem sanityCheck_minor (h : sanityCheck P old l d = some ws) : ∀ w ∈ ws, w.Minor := by
  obtain ⟨-, -, h⟩ := bind_eq_some_iff.mp h
  obtain ⟨-, -, h⟩ := bind_eq_some_iff.mp h
  obtain rfl := Option.some.inj h
  exact fun _ hw => absurd hw not_mem_nil

theorem dirPass_minor {pass : Fixed → ℕ → List GroupDesc → δ → Option (List δ)}
    (h : dirPass pass old l d = some ws) : ∀ w ∈ ws, w.Minor := by
  obtain ⟨blocks, -, h⟩ := bind_eq_some_iff.mp h
  obtain rfl := Option.some.inj h
  intro w hw
  obtain ⟨-, -, rfl⟩ := mem_map.mp hw
  trivial

theorem readExt_eq (h : readExt sb = some old) :
    old = sb.sInodesPerGroup := by
  simp only [readExt] at h
  split_ifs at h
  exact (Option.some.inj h).symm

/-- A run ends with the superblock phase on a disk with the figures it found. -/
theorem fixup_spec (h : fixup P d = some ws) :
    ∃ w w₃, ws = w ++ w₃ ∧ Kept d (d.after w) ∧ (d.state = .updatingSb → w = []) ∧
      (d.after w).state = .updatingSb ∧ readExt (d.super 0) = some (d.super 0).sInodesPerGroup ∧
      phase .updatingSb .unset (updateSuperblocks (d.super 0).sInodesPerGroup (d.descs 0))
        (d.after w) = some w₃ := by
  obtain ⟨old, hread, h⟩ := bind_eq_some_iff.mp h
  obtain rfl := readExt_eq hread
  obtain ⟨w₀, h₀, h⟩ := bind_eq_some_iff.mp h
  obtain ⟨w₁, h₁, h⟩ := bind_eq_some_iff.mp h
  obtain ⟨w₂, h₂, h⟩ := bind_eq_some_iff.mp h
  obtain ⟨w₃, h₃, h⟩ := bind_eq_some_iff.mp h
  obtain rfl := Option.some.inj h
  obtain ⟨hk₀, hs₀⟩ := phase_spec h₀ fun _ => sanityCheck_minor
  obtain ⟨hk₁, hs₁⟩ := phase_spec h₁ fun _ => dirPass_minor
  obtain ⟨hk₂, hs₂⟩ := phase_spec h₂ fun _ => dirPass_minor
  refine ⟨w₀ ++ (w₁ ++ w₂), w₃, by simp only [append_assoc], ?_, ?_, ?_, hread, ?_⟩
  · simpa only [after_append] using (hk₀.trans hk₁).trans hk₂
  · -- nothing is written by phases that are not due
    intro hs
    have hidle : ∀ {p q f w}, .updatingSb ≠ p → phase p q f d = some w → w = [] := by
      intro p q f w hp hw
      rw [phase, if_neg (hs ▸ hp)] at hw
      exact (Option.some.inj hw).symm
    obtain rfl := hidle (by decide) h₀
    obtain rfl := hidle (by decide) h₁
    exact hidle (by decide) h₂
  · simp only [after_append]
    rw [hs₂, hs₁, hs₀]
    cases d.state <;> rfl
  · simpa only [after_append] using h₃

/-- The superblock the phase computes, and the descriptors. -/
def newSuper (sb : SuperBlock) : SuperBlock :=
  updated (sb.fixed.newInodesPerGroup sb.sInodesPerGroup)
    (sb.fixed.numBlockGroups sb.sInodesPerGroup) sb

/-- The descriptors with the free inodes of the new groups. -/
def newDescs (sb : SuperBlock) (l : List GroupDesc) : List GroupDesc :=
  addFree (sb.fixed.numBlockGroups sb.sInodesPerGroup)
    (usub (sb.fixed.newInodesPerGroup sb.sInodesPerGroup) sb.sInodesPerGroup) l

/-- The groups with a copy of the superblock. -/
def groupsOf (sb : SuperBlock) : List ℕ := sb.fixed.superGroups sb.sInodesPerGroup

/-- The superblock phase goes through. -/
def Passing (sb : SuperBlock) (l : List GroupDesc) : Prop :=
  sb.fixed.numBlockGroups sb.sInodesPerGroup ≤ l.length ∧
  (0 < sb.fixed.numBlockGroups sb.sInodesPerGroup →
    ¬ Overruns sb.sInodesPerGroup (sb.fixed.newInodesPerGroup sb.sInodesPerGroup)) ∧
  (newSuper sb).sInodesCount = u32 (sb.fixed.newInodesPerGroup sb.sInodesPerGroup *
    sb.fixed.numBlockGroups sb.sInodesPerGroup) ∧
  sb.fixed.newInodesPerGroup sb.sInodesPerGroup % (sb.fixed.blockSize / sb.fixed.sInodeSize) = 0

/-- The writes of the superblock phase. -/
def phaseWrites (l : List GroupDesc) (d : Disk δ) : List (Write δ) :=
  let sb := d.super 0
  bitmapWrites sb.sInodesPerGroup (sb.fixed.newInodesPerGroup sb.sInodesPerGroup) d.bitmap
    (l.take (sb.fixed.numBlockGroups sb.sInodesPerGroup)) ++
  copies (newSuper sb) (newDescs sb l) (groupsOf sb)

theorem updateSuperblocks_some (h : updateSuperblocks (d.super 0).sInodesPerGroup l d = some ws) :
    Passing (d.super 0) l ∧ ws = phaseWrites l d := by
  simp only [updateSuperblocks] at h
  split_ifs at h with hbounds hcount haligned
  rw [not_or, not_lt, not_and] at hbounds
  exact ⟨⟨hbounds.1, hbounds.2, not_not.mp hcount, not_not.mp haligned⟩, (Option.some.inj h).symm⟩

theorem updateSuperblocks_of_passing (h : Passing (d.super 0) l) :
    updateSuperblocks (d.super 0).sInodesPerGroup l d = some (phaseWrites l d) := by
  obtain ⟨hlen, hbits, hcount, haligned⟩ := h
  rw [newSuper] at hcount
  simp only [updateSuperblocks]
  rw [if_neg (by rw [not_or, not_lt, not_and]; exact ⟨hlen, hbits⟩), if_neg (not_not.mpr hcount),
    if_neg (not_not.mpr haligned)]
  rfl

/-- The primary superblock a run leaves. -/
def finalPrimary (sb : SuperBlock) : SuperBlock :=
  (if 0 ∈ groupsOf sb then copyOf (newSuper sb) 0 else sb).clean

/-- The descriptors a run leaves. -/
def finalDescs (d : Disk δ) (i : ℕ) : List GroupDesc :=
  if i ∈ groupsOf (d.super 0) then newDescs (d.super 0) (d.descs 0) else d.descs i

theorem clean_clean (sb : SuperBlock) : sb.clean.clean = sb.clean := by
  simp only [SuperBlock.clean, SuperBlock.mk.injEq, and_true, true_and]
  omega

theorem finalPrimary_clean (sb : SuperBlock) : finalPrimary sb.clean = finalPrimary sb := by
  have hg : groupsOf sb.clean = groupsOf sb := rfl
  rw [finalPrimary, finalPrimary, hg]
  split_ifs
  · exact clean_clean (copyOf (newSuper sb) 0)
  · exact clean_clean sb

/-- The figures a run leaves do not depend on whether the disk is mountable. -/
theorem Kept.final (h : Kept d d') :
    finalPrimary (d'.super 0) = finalPrimary (d.super 0) ∧ finalDescs d' = finalDescs d ∧
      (Passing (d'.super 0) (d'.descs 0) ↔ Passing (d.super 0) (d.descs 0)) := by
  refine ⟨?_, funext fun i => ?_, ?_⟩
  · rw [← finalPrimary_clean, h.primary, finalPrimary_clean]
  · have hg := congrArg groupsOf h.primary
    have hn := congrArg newDescs h.primary
    change groupsOf (d'.super 0) = groupsOf (d.super 0) at hg
    change newDescs (d'.super 0) = newDescs (d.super 0) at hn
    rw [finalDescs, finalDescs, hg, hn, h.descs]
  · have hp := congrArg Passing h.primary
    change Passing (d'.super 0) = Passing (d.super 0) at hp
    rw [hp, h.descs]

theorem phaseWrites_after (l : List GroupDesc) (d : Disk δ) (i : ℕ) :
    (d.after (phaseWrites l d)).super i =
      (if i ∈ groupsOf (d.super 0) then copyOf (newSuper (d.super 0)) i else d.super i) ∧
    (d.after (phaseWrites l d)).descs i =
      if i ∈ groupsOf (d.super 0) then newDescs (d.super 0) l else d.descs i := by
  rw [phaseWrites, after_append, copies_super, copies_descs]
  obtain ⟨hsuper, hdescs, -⟩ := after_minor (bitmapWrites_minor _ _ _ _) d
  rw [hsuper, hdescs]
  exact ⟨rfl, rfl⟩

theorem phase_final (hs : d.state = .updatingSb)
    (h : phase .updatingSb .unset (updateSuperblocks (d.super 0).sInodesPerGroup l) d = some ws) :
    Passing (d.super 0) l ∧
      ws = phaseWrites l d ++ setState .unset (d.after (phaseWrites l d)) := by
  rw [phase, if_pos hs] at h
  obtain ⟨ws', hws, h⟩ := bind_eq_some_iff.mp h
  obtain ⟨hp, rfl⟩ := updateSuperblocks_some hws
  exact ⟨hp, (Option.some.inj h).symm⟩

/-- **A run that completes leaves the final figures**, whatever state the disk was in. -/
theorem fixup_final (h : fixup P d = some ws) :
    Passing (d.super 0) (d.descs 0) ∧ (d.after ws).super 0 = finalPrimary (d.super 0) ∧
      (d.after ws).descs = finalDescs d := by
  obtain ⟨w, w₃, rfl, hkept, -, hstate, -, hphase⟩ := fixup_spec h
  rw [← hkept.inodesPerGroup, ← hkept.descs] at hphase
  obtain ⟨hp, rfl⟩ := phase_final hstate hphase
  obtain ⟨hprimary, hdescs, hpassing⟩ := hkept.final
  refine ⟨hpassing.mp hp, ?_, ?_⟩
  · rw [after_append, after_append, setState_super, update_self, ← hprimary,
      (phaseWrites_after _ _ 0).1]
    rfl
  · rw [after_append, after_append, setState_descs, ← hdescs]
    exact funext fun i => (phaseWrites_after _ _ i).2

/-- In the state of the superblock phase, nothing is written before it. -/
theorem fixup_updatingSb (hs : d.state = .updatingSb) (h : fixup P d = some ws) :
    ws = phaseWrites (d.descs 0) d ++ setState .unset (d.after (phaseWrites (d.descs 0) d)) ∧
      readExt (d.super 0) = some (d.super 0).sInodesPerGroup := by
  obtain ⟨w, w₃, rfl, -, hw, -, hread, hphase⟩ := fixup_spec h
  rw [hw hs, after_nil] at hphase
  rw [hw hs]
  exact ⟨(phase_final hs hphase).2, hread⟩

/-- A disk in the state of the superblock phase that passes its checks is completed. -/
theorem fixup_of_passing (P : Passes δ) (hs : d.state = .updatingSb)
    (hread : readExt (d.super 0) = some (d.super 0).sInodesPerGroup)
    (hp : Passing (d.super 0) (d.descs 0)) : ∃ ws, fixup P d = some ws := by
  have hskip : ∀ s next writes, s ≠ State.updatingSb → phase s next writes d = some [] :=
    fun s next writes hne => if_neg (by rw [hs]; exact hne.symm)
  have hlast : phase .updatingSb .unset
      (updateSuperblocks (d.super 0).sInodesPerGroup (d.descs 0)) d =
      some (phaseWrites (d.descs 0) d ++
        setState .unset (d.after (phaseWrites (d.descs 0) d))) := by
    rw [phase, if_pos hs, updateSuperblocks_of_passing hp]
    rfl
  refine ⟨phaseWrites (d.descs 0) d ++ setState .unset (d.after (phaseWrites (d.descs 0) d)), ?_⟩
  simp only [fixup, hread, bind_eq_bind, bind_some]
  rw [hskip .unset _ _ (by decide), bind_some, after_nil,
    hskip .markingInums _ _ (by decide),
    bind_some, after_nil, hskip .updatingInums _ _ (by decide), bind_some, after_nil,
    hlast]
  rfl

end

/-! ### The disk after a crash -/

section

variable {δ : Type}

theorem groupsOf_cases (sb : SuperBlock) :
    groupsOf sb = [] ∨ ∃ rest, groupsOf sb = 0 :: rest ∧ 0 ∉ rest := by
  have hz : sb.fixed.hasSuperBlock 0 = true := by
    simp only [Fixed.hasSuperBlock, true_or, if_true, ite_self]
  rw [groupsOf, Fixed.superGroups]
  cases sb.fixed.groups sb.sInodesPerGroup with
  | zero => exact .inl rfl
  | succ n =>
    rw [range_succ_eq_map, filter_cons_of_pos hz]
    refine .inr ⟨_, rfl, fun h => ?_⟩
    obtain ⟨i, -, hi⟩ := mem_map.mp (mem_filter.mp h).1
    exact absurd hi i.succ_ne_zero

/-- What a crash before the write number `k` can leave. -/
inductive Crash (d : Disk δ) (ws : List (Write δ)) (k : ℕ) : Prop
  /-- Neither the primary superblock nor descriptors are written. -/
  | before (h : Kept d (d.after (ws.take k)))
    (hnext : ∀ l, ws[k]? ≠ some (.descs 0 l))
  /-- The primary superblock is written, and no descriptors. -/
  | between (hgroups : 0 ∈ groupsOf (d.super 0))
    (hsuper : (d.after (ws.take k)).super 0 = copyOf (newSuper (d.super 0)) 0)
    (hdescs : (d.after (ws.take k)).descs = d.descs)
    (hnext : ∃ l, ws[k]? = some (.descs 0 l))
  /-- Both are written. -/
  | behind (hgroups : 0 ∈ groupsOf (d.super 0))
    (hsuper : (d.after (ws.take k)).super 0 = copyOf (newSuper (d.super 0)) 0)
    (hdescs : (d.after (ws.take k)).descs 0 = newDescs (d.super 0) (d.descs 0))
    (hothers : ∀ i ∉ groupsOf (d.super 0), (d.after (ws.take k)).descs i = d.descs i)
    (hnext : ∀ l, ws[k]? ≠ some (.descs 0 l))

/-- What is written behind the primary descriptors, up to the last write. -/
theorem behind_primary {l : List GroupDesc} {rest : List ℕ} (hrest : 0 ∉ rest)
    {w : Write δ} (hw : w ∈ copies sb l rest ++ [.state .unset]) :
    (∀ sb', w ≠ .super 0 sb') ∧ ∀ i, i ∉ rest ∨ i = 0 → ∀ l', w ≠ .descs i l' := by
  rcases mem_append.mp hw with hw | hw
  · obtain ⟨j, hj, rfl | rfl⟩ := mem_copies hw
    · refine ⟨fun _ h => ?_, fun _ _ _ => nofun⟩
      obtain ⟨rfl, -⟩ := Write.super.inj h
      exact hrest hj
    · refine ⟨fun _ => nofun, fun i hi _ h => ?_⟩
      obtain ⟨rfl, -⟩ := Write.descs.inj h
      rcases hi with hi | rfl
      · exact hi hj
      · exact hrest hj
  · obtain rfl := mem_singleton.mp hw
    exact ⟨fun _ => nofun, fun _ _ _ => nofun⟩

variable {ws : List (Write δ)} {d : Disk δ} {P : Passes δ}

/-- The writes of a run of the superblock phase, with the last one apart. -/
theorem fixup_writes (hs : d.state = .updatingSb) (h : fixup P d = some ws) :
    ∃ (b : List (Write δ)) (sb : SuperBlock), (∀ w ∈ b, w.Minor) ∧
      ws = b ++ (copies (newSuper (d.super 0)) (newDescs (d.super 0) (d.descs 0))
        (groupsOf (d.super 0)) ++ [.state .unset] ++ [.super 0 sb]) := by
  have hws := (fixup_updatingSb hs h).1
  simp only [phaseWrites, setState, append_assoc] at hws
  exact ⟨_, _, bitmapWrites_minor _ _ _ _,
    hws.trans (congrArg _ (append_assoc _ [_] [_]).symm)⟩

variable {k : ℕ}

section

variable (hs : d.state = .updatingSb) (h : fixup P d = some ws)

include hs h

theorem crash_state (hk : k + 1 < ws.length) :
    (d.after (ws.take k)).state = .updatingSb := by
  obtain ⟨b, last, hminor, hws⟩ := fixup_writes hs h
  rw [append_assoc, ← append_assoc] at hws
  have hlen := congrArg List.length hws
  simp only [length_append, length_singleton] at hlen
  rw [hws, take_append_of_le_length (by rw [length_append]; omega), after_state ?_ d, hs]
  intro w hw s
  rcases mem_append.mp (mem_of_mem_take hw) with hw | hw
  · rintro rfl
    exact hminor _ hw
  · obtain ⟨i, -, rfl | rfl⟩ := mem_copies hw <;> exact nofun

/-- The last write is not one of descriptors. -/
theorem lt_of_next_descs (hk : k < ws.length) {l : List GroupDesc}
    (hnext : ws[k]? = some (.descs 0 l)) :
    k + 1 < ws.length := by
  obtain ⟨b, last, -, hws⟩ := fixup_writes hs h
  by_contra hge
  obtain rfl : k = ws.length - 1 := by omega
  rw [← getLast?_eq_getElem?, hws, ← append_assoc, getLast?_concat] at hnext
  exact absurd (Option.some.inj hnext) nofun

/-- **What a crash in the superblock phase leaves.** -/
theorem crash_cases (hk : k < ws.length) :
    Crash d ws k := by
  obtain ⟨b, last, hminor, hws⟩ := fixup_writes hs h
  set sb := d.super 0 with hsb
  set t : List (Write δ) := copies (newSuper sb) (newDescs sb (d.descs 0)) (groupsOf sb) ++
    [.state .unset]
  by_cases hkb : k < b.length
  · -- inside the bitmaps
    refine .before ?_ fun l hl => ?_
    · rw [hws, take_append_of_le_length hkb.le]
      exact Kept.of_minor (fun w hw => hminor w (mem_of_mem_take hw)) d
    · rw [hws, getElem?_append_left hkb] at hl
      exact hminor _ (mem_of_getElem? hl)
  · obtain ⟨j, rfl⟩ := Nat.exists_eq_add_of_le (not_lt.mp hkb)
    have hj : j ≤ t.length := by
      rw [hws, length_append, length_append, length_singleton] at hk
      omega
    have htake : ws.take (b.length + j) = b ++ t.take j := by
      rw [hws, take_length_add_append, take_append_of_le_length hj]
    have hget : ws[b.length + j]? = (t ++ [.super 0 last])[j]? := by
      rw [hws, getElem?_append_right (Nat.le_add_right _ _), Nat.add_sub_cancel_left]
    have hkept := Kept.of_minor hminor d
    obtain ⟨hbsuper, hbdescs, -⟩ := after_minor hminor d
    rcases groupsOf_cases sb with hg | ⟨rest, hg, hrest⟩
    · -- no superblock is written: only the state is left
      have ht : t = [.state .unset] := by
        show copies _ _ (groupsOf sb) ++ _ = _
        rw [hg]
        rfl
      refine .before ?_ fun l hl => ?_
      · rw [htake, after_append, ht]
        rcases j with _ | j
        · exact hkept
        · rw [take_succ_cons, take_nil]
          exact hkept.trans ⟨rfl, fun _ _ => rfl, rfl⟩
      · rw [hget, ht] at hl
        have := mem_of_getElem? hl
        simp at this
    · have ht : t = .super 0 (copyOf (newSuper sb) 0) :: .descs 0 (newDescs sb (d.descs 0)) ::
          (copies (newSuper sb) (newDescs sb (d.descs 0)) rest ++ [.state .unset]) := by
        show copies _ _ (groupsOf sb) ++ _ = _
        rw [hg, copies_cons]
        rfl
      have hmem : 0 ∈ groupsOf sb := hg ▸ mem_cons_self
      match j with
      | 0 =>
        refine .before ?_ fun l hl => ?_
        · rw [htake, after_append]
          exact hkept
        · rw [hget, ht] at hl
          exact absurd (Option.some.inj hl) nofun
      | 1 =>
        refine .between hmem ?_ ?_ ⟨newDescs sb (d.descs 0), ?_⟩
        · rw [htake, after_append, ht]
          exact write_super_self _ 0 _
        · rw [htake, after_append, ht]
          exact hbdescs
        · rw [hget, ht]
          rfl
      | j + 2 =>
        set r : List (Write δ) := copies (newSuper sb) (newDescs sb (d.descs 0)) rest ++
          [.state .unset]
        have hr : ∀ w ∈ r.take j, w ∈ r := fun w hw => mem_of_mem_take hw
        rw [ht, take_succ_cons, take_succ_cons] at htake
        refine .behind hmem ?_ ?_ (fun i hi => ?_) fun l hl => ?_
        · rw [htake, after_append, after_cons, after_cons,
            after_super 0 fun w hw => (behind_primary hrest (hr w hw)).1]
          exact write_super_self (d.after b) 0 _
        · rw [htake, after_append, after_cons, after_cons,
            after_descs 0 fun w hw => (behind_primary hrest (hr w hw)).2 0 (.inr rfl)]
          exact write_descs_self _ 0 _
        · rw [hg, mem_cons, not_or] at hi
          rw [htake, after_append, after_cons, after_cons,
            after_descs i fun w hw => (behind_primary hrest (hr w hw)).2 i (.inl hi.2)]
          exact (update_of_ne hi.1 _ _).trans (congrFun hbdescs i)
        · rw [hget, ht, cons_append, cons_append, getElem?_cons_succ,
            getElem?_cons_succ] at hl
          rcases mem_append.mp (mem_of_getElem? hl) with hm | hm
          · exact (behind_primary hrest hm).2 0 (.inr rfl) l rfl
          · exact absurd (mem_singleton.mp hm) nofun

end

end

/-! ### Groups -/

theorem align_spec {x y : ℕ} (hy : 0 < y) (hy' : y ≤ 4096) (hx : x < 2 ^ 32) :
    (x ≤ align x y ∧ align x y < x + y) ∨ (2 ^ 32 < x + y ∧ align x y = 0) := by
  by_cases h : x + y - 1 < 2 ^ 32
  · have hdiv := Nat.div_add_mod (x + y - 1) y
    have hmod := Nat.mod_lt (x + y - 1) hy
    rw [align, u32_of_lt h, u32_of_lt (by omega)]
    omega
  · have hwrap : u32 (x + y - 1) / y = 0 := by
      rw [u32, Nat.div_eq_zero_iff]
      omega
    rw [align, hwrap]
    exact .inr ⟨by omega, rfl⟩

theorem align_lt (x y : ℕ) : align x y < 2 ^ 32 := u32_lt _

/-- Unless the loop over the bitmap overruns, the number of inodes per group grows. -/
theorem align_of_not_overruns {x y : ℕ} (hy : 0 < y) (hy' : y ≤ 4096) (hx : x < 2 ^ 32)
    (h : ¬ Overruns x (align x y)) : x ≤ align x y ∧ align x y < x + y := by
  rcases align_spec hy hy' hx with hle | ⟨hwrap, hzero⟩
  · exact hle
  · refine absurd ?_ h
    have hneg : i32 x < 0 := i32_neg (by omega) hx
    rw [hzero]
    exact ⟨hneg, .inl hneg⟩

namespace Fixed

variable (f : Fixed) {x : ℕ}

theorem numBlockGroups_of_drops (hb : 0 < f.sBlocksPerGroup) (h : f.dropsLast x = true) :
    divRoundUp f.allBlocks f.sBlocksPerGroup = f.numBlockGroups x + 1 := by
  simp only [dropsLast, decide_eq_true_eq] at h
  have hlast := h.1
  rw [numBlockGroups, lenBlocks, if_pos (by simpa only [dropsLast, decide_eq_true_eq] using h)]
  have hdiv := Nat.div_add_mod f.allBlocks f.sBlocksPerGroup
  have hlt := Nat.mod_lt f.allBlocks hb
  set q := f.allBlocks / f.sBlocksPerGroup
  set r := f.allBlocks % f.sBlocksPerGroup
  have h₁ : divRoundUp f.allBlocks f.sBlocksPerGroup = q + 1 := by
    rw [divRoundUp, Nat.div_eq_iff hb, Nat.add_mul, Nat.mul_comm q]
    omega
  have h₂ : divRoundUp (f.allBlocks - r) f.sBlocksPerGroup = q := by
    rw [divRoundUp, Nat.div_eq_iff hb, Nat.mul_comm q]
    omega
  rw [h₁, h₂]

theorem numBlockGroups_of_not_drops (h : f.dropsLast x = false) :
    f.numBlockGroups x = divRoundUp f.allBlocks f.sBlocksPerGroup := by
  rw [numBlockGroups, lenBlocks, h]
  rfl

theorem numBlockGroups_pos (hb : 0 < f.sBlocksPerGroup) (h : 0 < f.groups x) :
    0 < f.numBlockGroups x := by
  have hle : f.allGroups ≤ divRoundUp f.allBlocks f.sBlocksPerGroup :=
    (u32_le _).trans (Nat.div_le_div_right (by omega))
  rw [groups] at h
  cases hd : f.dropsLast x with
  | true =>
    have := f.numBlockGroups_of_drops hb hd
    rw [hd, if_pos rfl] at h
    omega
  | false =>
    rw [hd, if_neg Bool.false_ne_true] at h
    rw [f.numBlockGroups_of_not_drops hd]
    omega

/-- The number of groups shows whether the last one is dropped. -/
theorem dropsLast_of_eq {x' : ℕ} (hb : 0 < f.sBlocksPerGroup)
    (h : f.numBlockGroups x = f.numBlockGroups x') : f.dropsLast x = f.dropsLast x' := by
  cases hd : f.dropsLast x <;> cases hd' : f.dropsLast x'
  · rfl
  · have h₁ := f.numBlockGroups_of_not_drops hd
    have h₂ := f.numBlockGroups_of_drops hb hd'
    omega
  · have h₁ := f.numBlockGroups_of_drops hb hd
    have h₂ := f.numBlockGroups_of_not_drops hd'
    omega
  · rfl

theorem numBlockGroups_near (x x' : ℕ) (hb : 0 < f.sBlocksPerGroup) :
    f.numBlockGroups x ≤ f.numBlockGroups x' + 1 := by
  have hx : f.numBlockGroups x ≤ divRoundUp f.allBlocks f.sBlocksPerGroup := by
    cases hd : f.dropsLast x with
    | true => exact (f.numBlockGroups_of_drops hb hd).symm ▸ Nat.le_succ _
    | false => exact (f.numBlockGroups_of_not_drops hd).le
  cases hd : f.dropsLast x' with
  | true => exact f.numBlockGroups_of_drops hb hd ▸ hx
  | false => exact (f.numBlockGroups_of_not_drops hd).symm ▸ hx.trans (Nat.le_succ _)

/-- The new number of inodes per group gives the same groups again. -/
def Stable (old : ℕ) : Prop :=
  f.newInodesPerGroup (f.newInodesPerGroup old) = f.newInodesPerGroup old ∧
    f.dropsLast (f.newInodesPerGroup old) = f.dropsLast old

instance (old : ℕ) : Decidable (f.Stable old) := inferInstanceAs (Decidable (_ ∧ _))

variable {old : ℕ}

theorem Stable.numBlockGroups {f : Fixed} (h : f.Stable old) :
    f.numBlockGroups (f.newInodesPerGroup old) = f.numBlockGroups old := by
  rw [Fixed.numBlockGroups, Fixed.numBlockGroups, lenBlocks, lenBlocks, h.2]

theorem Stable.superGroups {f : Fixed} (h : f.Stable old) :
    f.superGroups (f.newInodesPerGroup old) = f.superGroups old := by
  rw [Fixed.superGroups, Fixed.superGroups, groups, groups, h.2]

/-- The inode table has the same number of blocks if inodes fill blocks without a rest, and the
bits of a group fill no more than a block. -/
theorem stable_of_dvd (hsize : 0 < f.sInodeSize) (hblock : f.blockSize ≤ 4096)
    (hpos : 0 < f.blockSize) (hdvd : f.sInodeSize ∣ f.blockSize) (hold : old ≤ 8 * f.blockSize) :
    f.Stable old := by
  obtain ⟨y, hy⟩ := hdvd
  have hbs : f.blockSize / f.sInodeSize = y := by rw [hy, Nat.mul_div_cancel_left _ hsize]
  have hy₀ : 0 < y := Nat.pos_of_ne_zero fun h => by rw [h, Nat.mul_zero] at hy; omega
  have hy₁ : y ≤ f.blockSize := hbs ▸ Nat.div_le_self _ _
  have hs₁ : f.sInodeSize ≤ f.blockSize := hy ▸ Nat.le_mul_of_pos_right _ hy₀
  -- `q` blocks hold the inodes of a group
  set q := (old + y - 1) / y with hq
  have hdiv := Nat.div_add_mod (old + y - 1) y
  have hmod := Nat.mod_lt (old + y - 1) hy₀
  rw [← hq] at hdiv
  have hkey : ∀ x, x ≤ y * q → y * q < x + y → x ≤ 8 * f.blockSize + y →
      f.newInodesPerGroup x = y * q ∧ f.inodeTableBlocks x = q := by
    intro x hle hlt hx
    have hprod : x * f.sInodeSize ≤ 40960 * 4096 := Nat.mul_le_mul (by omega) (by omega)
    have hceil : (x + y - 1) / y = q := by
      rw [Nat.div_eq_iff hy₀, Nat.mul_comm q]
      omega
    rw [newInodesPerGroup, hbs, align, u32_of_lt (by omega : x + y - 1 < 2 ^ 32), hceil,
      u32_of_lt (by omega), inodeTableBlocks, u32_of_lt (by omega : x * f.sInodeSize < 2 ^ 32),
      u32_of_lt (by omega), Nat.div_eq_iff hpos]
    have h₁ : x * f.sInodeSize ≤ q * f.blockSize := by
      rw [hy, Nat.mul_comm f.sInodeSize y, ← Nat.mul_assoc, Nat.mul_comm q y]
      exact Nat.mul_le_mul_right _ hle
    have h₂ : q * f.blockSize + f.sInodeSize ≤ x * f.sInodeSize + f.blockSize := by
      calc q * f.blockSize + f.sInodeSize = (y * q + 1) * f.sInodeSize := by rw [hy]; ring
        _ ≤ (x + y) * f.sInodeSize := Nat.mul_le_mul_right _ hlt
        _ = x * f.sInodeSize + f.blockSize := by rw [hy]; ring
    omega
  obtain ⟨hnew, htable⟩ := hkey old (by omega) (by omega) (by omega)
  obtain ⟨hnew', htable'⟩ := hkey (y * q) le_rfl (by omega) (by omega)
  exact ⟨by rw [hnew, hnew'], by rw [dropsLast, dropsLast, hnew, htable, htable']⟩

end Fixed

/-! ### Starting again -/

/-- The sum of the inodes determines the number of groups it was computed with. -/
theorem inodes_modEq {a a' n n' : ℕ} (ha : a < 2 ^ 32)
    (h : u32 (u32 (a * n) + u32 (n' * usub a' a)) = u32 (a' * n')) :
    a * n ≡ a * n' [MOD 2 ^ 32] := by
  have hsub : usub a' a + a ≡ a' [MOD 2 ^ 32] := by
    rw [usub, u32_of_lt ha]
    unfold u32 Nat.ModEq
    omega
  have hsum : a * n + n' * usub a' a ≡ a' * n' [MOD 2 ^ 32] := by
    have h' : u32 (a * n) + u32 (n' * usub a' a) ≡ a' * n' [MOD 2 ^ 32] := h
    exact (((Nat.mod_modEq _ _).add (Nat.mod_modEq _ _)).symm).trans h'
  -- both sides get the inodes that the difference takes away
  have hboth : n' * a' + a * n ≡ n' * a' + a * n' [MOD 2 ^ 32] :=
    calc n' * a' + a * n ≡ n' * (usub a' a + a) + a * n [MOD 2 ^ 32] :=
          (hsub.symm.mul_left n').add_right _
      _ = a * n + n' * usub a' a + a * n' := by ring
      _ ≡ a' * n' + a * n' [MOD 2 ^ 32] := hsum.add_right _
      _ = n' * a' + a * n' := by ring
  exact hboth.add_left_cancel'

theorem eq_of_modEq {a n n' : ℕ} (ha : a < 2 ^ 32) (hpos : 0 < a) (hn : n ≤ n' + 1)
    (hn' : n' ≤ n + 1) (h : a * n ≡ a * n' [MOD 2 ^ 32]) : n = n' := by
  -- neighbours would make `a` a multiple of the modulus
  have hstep : ∀ m, ¬ a * (m + 1) ≡ a * m [MOD 2 ^ 32] := fun m hm => by
    rw [Nat.mul_succ] at hm
    have hz : a ≡ 0 [MOD 2 ^ 32] := Nat.ModEq.add_left_cancel' (a * m) hm
    have := (Nat.modEq_zero_iff_dvd.mp hz)
    exact absurd (Nat.le_of_dvd hpos this) (not_le.mpr ha)
  rcases Nat.lt_trichotomy n n' with hlt | heq | hgt
  · obtain rfl : n' = n + 1 := by omega
    exact absurd h.symm (hstep n)
  · exact heq
  · obtain rfl : n = n' + 1 := by omega
    exact absurd h (hstep n')

/-- The primary superblock as the phase writes it. -/
def written (sb : SuperBlock) : SuperBlock := copyOf (newSuper sb) 0

theorem usub_new (f : Fixed) (old : ℕ) :
    usub (f.newInodesPerGroup old) (f.newInodesPerGroup old) = 0 :=
  (usub_of_le le_rfl (align_lt _ _)).trans (Nat.sub_self _)

theorem written_fixed (sb : SuperBlock) : (written sb).fixed = sb.fixed := rfl

theorem written_inodesPerGroup (sb : SuperBlock) :
    (written sb).sInodesPerGroup = sb.fixed.newInodesPerGroup sb.sInodesPerGroup :=
  u32_of_lt (align_lt _ _)

/-- What `read_ext` has checked. -/
structure Sane (sb : SuperBlock) : Prop where
  blocksPerGroup : 0 < sb.fixed.sBlocksPerGroup
  inodeSize : 0 < sb.fixed.sInodeSize
  inodeSize_le : sb.fixed.sInodeSize ≤ sb.fixed.blockSize
  blockSize_le : sb.fixed.blockSize ≤ 4096
  inodesPerGroup : 0 < sb.sInodesPerGroup

theorem sane_of_readExt {old : ℕ} (h : readExt sb = some old) : Sane sb := by
  simp only [readExt] at h
  split_ifs at h with h₁ h₂ h₃ h₄ h₅
  simp only [not_or, not_lt] at h₄
  exact ⟨by omega, by omega, h₄.2.2.2.1, h₄.1, by omega⟩

/-- Another superblock with the same parameters is read as well. -/
theorem readExt_congr {sb' : SuperBlock} {old : ℕ} (h : readExt sb = some old)
    (hfixed : sb'.fixed = sb.fixed) (hdesc : sb'.sDescSize / 2 * 2 = sb.sDescSize / 2 * 2)
    (hpos : 0 < sb'.sInodesPerGroup) : readExt sb' = some sb'.sInodesPerGroup := by
  simp only [readExt] at h ⊢
  split_ifs at h with h₁ h₂ h₃ h₄ h₅
  rw [hfixed, hdesc, if_neg h₁, if_neg h₂, if_neg h₃, if_neg, if_neg h₅]
  simp only [not_or] at h₄ ⊢
  exact ⟨h₄.1, h₄.2.1, h₄.2.2.1, h₄.2.2.2.1, by omega⟩

section

variable {sb : SuperBlock}

theorem Sane.perBlock (h : Sane sb) : 0 < sb.fixed.blockSize / sb.fixed.sInodeSize :=
  Nat.div_pos h.inodeSize_le h.inodeSize

theorem Sane.perBlock_le (h : Sane sb) : sb.fixed.blockSize / sb.fixed.sInodeSize ≤ 4096 :=
  (Nat.div_le_self _ _).trans h.blockSize_le

theorem numBlockGroups_pos_of_mem (hsane : Sane sb) (hg : 0 ∈ groupsOf sb) :
    0 < sb.fixed.numBlockGroups sb.sInodesPerGroup :=
  sb.fixed.numBlockGroups_pos hsane.blocksPerGroup
    (mem_range.mp (mem_filter.mp hg).1)

variable {l : List GroupDesc}

/-- The number of inodes per group grows by less than a block of them. -/
theorem newInodesPerGroup_bounds (hsane : Sane sb) (hg : 0 ∈ groupsOf sb) (hp : Passing sb l) :
    sb.sInodesPerGroup ≤ sb.fixed.newInodesPerGroup sb.sInodesPerGroup ∧
      sb.fixed.newInodesPerGroup sb.sInodesPerGroup < sb.sInodesPerGroup +
        sb.fixed.blockSize / sb.fixed.sInodeSize :=
  align_of_not_overruns hsane.perBlock hsane.perBlock_le sb.inodesPerGroup_lt
    (hp.2.1 (numBlockGroups_pos_of_mem hsane hg))

/-- A superblock that was written passes the checks only if it gives the same groups. -/
theorem stable_of_passing (hsane : Sane sb) (hg : 0 ∈ groupsOf sb) {l' : List GroupDesc}
    (hp : Passing sb l) (hp' : Passing (written sb) l') : sb.fixed.Stable sb.sInodesPerGroup := by
  obtain ⟨-, hbits', hcount', haligned'⟩ := hp'
  have hcount := hp.2.2.1
  have haligned := hp.2.2.2
  obtain ⟨hle, -⟩ := newInodesPerGroup_bounds hsane hg hp
  have hn := numBlockGroups_pos_of_mem hsane hg
  rw [written_fixed, written_inodesPerGroup] at hbits' haligned' hcount'
  set f := sb.fixed
  set new := f.newInodesPerGroup sb.sInodesPerGroup
  have hnew : new < 2 ^ 32 := align_lt _ _
  have hpos : 0 < new := hsane.inodesPerGroup.trans_le hle
  -- the number of groups is the same
  have hsum : u32 (u32 (new * f.numBlockGroups sb.sInodesPerGroup) +
      u32 (f.numBlockGroups new * usub (f.newInodesPerGroup new) new)) =
      u32 (f.newInodesPerGroup new * f.numBlockGroups new) := by
    rw [← hcount, ← hcount']
    show _ = u32 ((newSuper sb).sInodesCount + u32 (f.numBlockGroups (written sb).sInodesPerGroup *
      usub (f.newInodesPerGroup (written sb).sInodesPerGroup) (written sb).sInodesPerGroup))
    rw [written_inodesPerGroup]
  have hgroups : f.numBlockGroups sb.sInodesPerGroup = f.numBlockGroups new :=
    eq_of_modEq hnew hpos (f.numBlockGroups_near _ _ hsane.blocksPerGroup)
      (f.numBlockGroups_near _ _ hsane.blocksPerGroup) (inodes_modEq hnew hsum)
  -- and so is the number of inodes in them
  have hgrows : new ≤ f.newInodesPerGroup new ∧
      f.newInodesPerGroup new < new + f.blockSize / f.sInodeSize :=
    align_of_not_overruns hsane.perBlock hsane.perBlock_le hnew (hbits' (hgroups ▸ hn))
  refine ⟨?_, (f.dropsLast_of_eq hsane.blocksPerGroup hgroups).symm⟩
  show f.newInodesPerGroup new = new
  have h₁ := Nat.dvd_of_mod_eq_zero haligned
  have h₂ := Nat.dvd_of_mod_eq_zero haligned'
  have hdvd := (Nat.dvd_sub h₂ h₁)
  have hzero := Nat.eq_zero_of_dvd_of_lt hdvd (by omega)
  omega

theorem addFree_addFree (n c : ℕ) (l : List GroupDesc) :
    addFree n 0 (addFree n c l) = addFree n c l := by
  refine ext_getElem (by simp only [addFree, length_mapIdx]) fun i h h' => ?_
  simp only [addFree, getElem_mapIdx]
  split_ifs <;> simp only [Nat.add_zero, Nat.mod_mod]

section

variable (hst : sb.fixed.Stable sb.sInodesPerGroup)

include hst

/-- Starting from the superblock that was written, nothing is added any more. -/
theorem newSuper_written :
    newSuper (written sb) = written sb := by
  rw [newSuper, written_inodesPerGroup, written_fixed, hst.1, updated, written_inodesPerGroup,
    usub_new, Nat.mul_zero]
  have hmod : ∀ n, u32 (u32 n + u32 0) = u32 n := fun n => by
    unfold u32
    omega
  simp only [written, copyOf, if_true, newSuper, updated, hmod]

theorem newDescs_written (l : List GroupDesc) :
    newDescs (written sb) l = addFree (sb.fixed.numBlockGroups sb.sInodesPerGroup) 0 l := by
  rw [newDescs, written_inodesPerGroup, written_fixed, hst.1, hst.numBlockGroups, usub_new]

theorem groupsOf_written :
    groupsOf (written sb) = groupsOf sb := by
  rw [groupsOf, written_inodesPerGroup, written_fixed, hst.superGroups]
  rfl

theorem finalPrimary_written (hg : 0 ∈ groupsOf sb) :
    finalPrimary (written sb) = finalPrimary sb := by
  rw [finalPrimary, finalPrimary, groupsOf_written hst, if_pos hg, if_pos hg, newSuper_written hst]
  rfl

theorem passing_written {l' : List GroupDesc} (hp : Passing sb l) (hlen : l'.length = l.length)
    : Passing (written sb) l' := by
  obtain ⟨hle, hbits, hcount, haligned⟩ := hp
  refine ⟨?_, fun _ h => ?_, ?_, ?_⟩
  · rw [written_inodesPerGroup, written_fixed, hst.numBlockGroups, hlen]
    exact hle
  · rw [written_inodesPerGroup, written_fixed, hst.1] at h
    exact absurd h.1 (lt_irrefl _)
  · rw [newSuper_written hst, written_inodesPerGroup, written_fixed, hst.1, hst.numBlockGroups]
    exact hcount
  · rw [written_inodesPerGroup, written_fixed, hst.1]
    exact haligned

end

theorem readExt_written (hread : readExt sb = some sb.sInodesPerGroup) (hg : 0 ∈ groupsOf sb)
    (hp : Passing sb l) :
    readExt (written sb) = some (written sb).sInodesPerGroup := by
  have hsane := sane_of_readExt hread
  refine readExt_congr hread rfl rfl ?_
  rw [written_inodesPerGroup]
  exact hsane.inodesPerGroup.trans_le (newInodesPerGroup_bounds hsane hg hp).1

/-- What is added to the free inodes of the first group shows. -/
theorem addFree_ne {n c : ℕ} (hn : 0 < n) (hlen : n ≤ l.length) (hc : 0 < c) (hc' : c < 2 ^ 16) :
    addFree n 0 l ≠ addFree n c l := by
  intro h
  have hl : 0 < l.length := by omega
  have hget := congrArg (fun l => (l[0]?).map GroupDesc.bgFreeInodesCount) h
  simp only [addFree, getElem?_mapIdx, getElem?_eq_getElem hl, map_some, if_pos hn,
    Option.some.injEq] at hget
  omega

end

/-! ### Crashes -/

section

variable {δ : Type}

/-- After a crash before the write number `k`, a run that completes leaves the primary superblock
and the descriptors of the run that was not interrupted. -/
def SameAfterRestart (P : Passes δ) (d : Disk δ) (ws : List (Write δ)) (k : ℕ) : Prop :=
  ∀ ws', fixup P (d.after (ws.take k)) = some ws' →
    ((d.after (ws.take k)).after ws').super 0 = (d.after ws).super 0 ∧
      ((d.after (ws.take k)).after ws').descs = (d.after ws).descs

/-- The next write is not that of the primary descriptors, or nothing is added to them, or
the superblock that was written before them is refused. -/
def Harmless (d : Disk δ) (ws : List (Write δ)) (k : ℕ) : Prop :=
  (∀ l, ws[k]? ≠ some (.descs 0 l)) ∨
  (d.super 0).fixed.newInodesPerGroup (d.super 0).sInodesPerGroup = (d.super 0).sInodesPerGroup ∨
  ¬ (d.super 0).fixed.Stable (d.super 0).sInodesPerGroup

theorem stable_of_eq {f : Fixed} {old : ℕ} (h : f.newInodesPerGroup old = old) : f.Stable old :=
  ⟨by rw [h, h], by rw [h]⟩

theorem sameAfterRestart_of_final {P : Passes δ} {d : Disk δ} {ws : List (Write δ)} {k : ℕ}
    (h : fixup P d = some ws)
    (hfinal : Passing ((d.after (ws.take k)).super 0) ((d.after (ws.take k)).descs 0) →
      finalPrimary ((d.after (ws.take k)).super 0) = finalPrimary (d.super 0) ∧
        finalDescs (d.after (ws.take k)) = finalDescs d) : SameAfterRestart P d ws k := by
  intro ws' h'
  obtain ⟨-, hprimary, hdescs⟩ := fixup_final h
  obtain ⟨hp, hprimary', hdescs'⟩ := fixup_final h'
  rw [hprimary, hdescs, hprimary', hdescs']
  exact hfinal hp

/-- **The superblock phase can be started again after a crash if and only if the crash does not
come between the primary superblock and its descriptors**, or nothing was to be added. -/
theorem restart_iff (P : Passes δ) (d : Disk δ) (ws : List (Write δ)) (k : ℕ)
    (hs : d.state = .updatingSb) (h : fixup P d = some ws) (hk : k < ws.length) :
    SameAfterRestart P d ws k ↔ Harmless d ws k := by
  obtain ⟨-, hread⟩ := fixup_updatingSb hs h
  have hsane := sane_of_readExt hread
  obtain ⟨hp, hprimary, hdescs⟩ := fixup_final h
  cases crash_cases hs h hk with
  | before hkept hnext =>
    refine iff_of_true (sameAfterRestart_of_final h fun _ => ?_) (.inl hnext)
    obtain ⟨hprimary, hdescs, -⟩ := hkept.final
    exact ⟨hprimary, hdescs⟩
  | behind hg hsuper hdescs₀ hothers hnext =>
    refine iff_of_true (sameAfterRestart_of_final h fun hp' => ?_) (.inl hnext)
    rw [hsuper] at hp' ⊢
    have hst := stable_of_passing hsane hg hp hp'
    refine ⟨finalPrimary_written hst hg, funext fun i => ?_⟩
    rw [finalDescs, finalDescs, hsuper, hdescs₀]
    show (if i ∈ groupsOf (written (d.super 0)) then newDescs (written (d.super 0)) _ else _) = _
    rw [groupsOf_written hst, newDescs_written hst]
    by_cases hi : i ∈ groupsOf (d.super 0)
    · rw [if_pos hi, if_pos hi]
      exact addFree_addFree _ _ _
    · rw [if_neg hi, if_neg hi, hothers i hi]
  | between hg hsuper hdescs₁ hnext =>
    obtain ⟨hle, hlt⟩ := newInodesPerGroup_bounds hsane hg hp
    have hperBlock := hsane.perBlock_le
    change (d.after (ws.take k)).super 0 = written (d.super 0) at hsuper
    constructor
    · -- a run from here completes, and adds nothing
      intro hsame
      refine .inr (or_iff_not_imp_right.mpr fun hst => ?_)
      rw [not_not] at hst
      obtain ⟨l, hl⟩ := hnext
      obtain ⟨ws', h'⟩ := fixup_of_passing P (crash_state hs h (lt_of_next_descs hs h hk hl))
        (by rw [hsuper]; exact readExt_written hread hg hp)
        (by rw [hsuper, hdescs₁]; exact passing_written hst hp rfl)
      have hd := congrFun (hsame ws' h').2 0
      rw [(fixup_final h').2.2, hdescs, finalDescs, finalDescs, hsuper, groupsOf_written hst,
        if_pos hg, if_pos hg, newDescs_written hst, hdescs₁] at hd
      by_contra hne
      refine addFree_ne (numBlockGroups_pos_of_mem hsane hg) hp.1 ?_ ?_ hd
      · rw [usub_of_le hle (align_lt _ _)]
        omega
      · rw [usub_of_le hle (align_lt _ _)]
        omega
    · rintro (hno | heq | hst)
      · obtain ⟨l, hl⟩ := hnext
        exact absurd hl (hno l)
      · have hst := stable_of_eq heq
        refine sameAfterRestart_of_final h fun _ => ?_
        rw [hsuper]
        refine ⟨finalPrimary_written hst hg, funext fun i => ?_⟩
        rw [finalDescs, finalDescs, hsuper, groupsOf_written hst, newDescs_written hst, hdescs₁,
          newDescs, heq, ← heq, usub_new]
      · -- the checks refuse the superblock
        refine sameAfterRestart_of_final h fun hp' => ?_
        rw [hsuper] at hp'
        exact absurd (stable_of_passing hsane hg hp hp') hst

/-- A file system with one group, with eight inodes of which sixteen fit into a block. -/
def small : SuperBlock where
  sInodesCount := 8
  sFreeInodesCount := 5
  sInodesPerGroup := 8
  sDescSize := 33
  sBlockGroupNr := 0
  fixed :=
    { sMagic := 0xEF53, valid := true, sLogBlockSize := 2, sBlocksPerGroup := 32768,
      sInodeSize := 256, sBlocksCount := 32768, sFirstDataBlock := 0, sReservedGdtBlocks := 0,
      sparseSuper := true, recover := false, filetype := true }
  inodesPerGroup_lt := by decide

/-- Its disk, with the directories done. -/
def smallDisk : Disk Unit where
  state := .updatingSb
  super _ := small
  descs _ := [⟨3, 5, []⟩]
  bitmap _ _ := false
  dirs := ()

/-- The passes over directories that need no change. -/
def noPasses : Passes Unit where
  sanity _ _ _ _ := some ()
  mark _ _ _ _ := some []
  update _ _ _ _ := some []

/-- What a run on it writes. -/
def smallWrites : List (Write Unit) :=
  phaseWrites (smallDisk.descs 0) smallDisk ++
    setState .unset (smallDisk.after (phaseWrites (smallDisk.descs 0) smallDisk))

theorem restart_behind_superblock :
    smallDisk.state = .updatingSb ∧ fixup noPasses smallDisk = some smallWrites ∧
      2 < smallWrites.length ∧ SameAfterRestart noPasses smallDisk smallWrites 2 := by
  have hs : smallDisk.state = .updatingSb := rfl
  have h : fixup noPasses smallDisk = some smallWrites := rfl
  have hk : 2 < smallWrites.length := by decide
  refine ⟨hs, h, hk, (restart_iff noPasses smallDisk smallWrites 2 hs h hk).mpr (Or.inl ?_)⟩
  intro l hl
  cases hl

/-- The free inodes are lost if the crash comes after the primary superblock. -/
theorem free_inodes_lost : fixup noPasses smallDisk = some smallWrites ∧
    ¬ SameAfterRestart noPasses smallDisk smallWrites 1 := by
  refine ⟨rfl, fun h => ?_⟩
  have hdescs := congrFun (h _ rfl).2 0
  exact absurd hdescs (by decide)

/-- **A run after a crash before the last two writes completes**, if inodes fill blocks without a
rest and the bits of a group fill no more than a block. -/
theorem restart_completes (P : Passes δ) (d : Disk δ) (ws : List (Write δ)) (k : ℕ)
    (hs : d.state = .updatingSb) (h : fixup P d = some ws) (hk : k + 1 < ws.length)
    (hdvd : (d.super 0).fixed.sInodeSize ∣ (d.super 0).fixed.blockSize)
    (hold : (d.super 0).sInodesPerGroup ≤ 8 * (d.super 0).fixed.blockSize) :
    ∃ ws', fixup P (d.after (ws.take k)) = some ws' := by
  obtain ⟨-, hread⟩ := fixup_updatingSb hs h
  have hsane := sane_of_readExt hread
  have hst := Fixed.stable_of_dvd _ hsane.inodeSize hsane.blockSize_le
    (hsane.inodeSize.trans_le hsane.inodeSize_le) hdvd hold
  obtain ⟨hp, -⟩ := fixup_final h
  have hstate := crash_state hs h hk
  cases crash_cases hs h (by omega : k < ws.length) with
  | before hkept _ =>
    refine fixup_of_passing P hstate ?_ (hkept.final.2.2.mpr hp)
    refine readExt_congr hread hkept.fixed (congrArg SuperBlock.sDescSize hkept.primary) ?_
    rw [hkept.inodesPerGroup]
    exact hsane.inodesPerGroup
  | between hg hsuper hdescs _ =>
    refine fixup_of_passing P hstate ?_ ?_ <;> rw [hsuper]
    · exact readExt_written hread hg hp
    · rw [hdescs]
      exact passing_written hst hp rfl
  | behind hg hsuper hdescs _ _ =>
    refine fixup_of_passing P hstate ?_ ?_ <;> rw [hsuper]
    · exact readExt_written hread hg hp
    · rw [hdescs]
      exact passing_written hst hp (by rw [newDescs, addFree, length_mapIdx])

theorem restart_completes_smallDisk : fixup noPasses smallDisk = some smallWrites ∧
    ∃ ws', fixup noPasses (smallDisk.after (smallWrites.take 1)) = some ws' :=
  ⟨rfl, restart_completes noPasses smallDisk smallWrites 1 rfl rfl (by decide) (by decide)
    (by decide)⟩

end

end Ext4Fixup
