/-
The lifetime of a reference-counted object.

A `Ledger` is what matters of a state of `RefBase`: the counters and the deletions,
and how many references and calls of each kind there are.  `Ledger.Balanced` is the
invariant.  The steps of the machine are a few moves on ledgers, and every move keeps
the balance (`Balanced.incWeak` … `Balanced.unbias`).

* `RefBase.lifetime` — in all runs in which the initial value is not taken off twice,
  the creator comes in time and references are not too many (`Fair`), the object and
  the `weakref_impl` are each deleted once, at the right time, nothing uses the
  `weakref_impl` afterwards, and at rest `mStrong` is the number of strong references;
* `RefBase.unbiased_twice` — a run in which the initial value is taken off twice: by
  the fix-up of an `attemptIncStrong` that overtakes the creator's first `incStrong`,
  and by that `incStrong`.
-/
import AndroidSystem.RefBase

open CInt Runs List Option

namespace RefBase

/-! ### What calls account for -/

/-- The part of `mWeak` that a call accounts for, with the reference it holds on to. -/
def Call.weakShare : Call → ℕ
  | incStrongWeak first => if first then 0 else 1
  | incStrongInc first => if first then 1 else 2
  | incStrongSub first => if first then 1 else 2
  | incStrongFirstRef first => if first then 1 else 2
  | decStrongDec => 1
  | decStrongLast => 1
  | decStrongDelete => 1
  | decStrongDtor => 1
  | incWeakInc holder => if holder = .creator then 0 else 1
  | decWeakDec attempt => if attempt then 2 else 1
  | decWeakTest attempt => if attempt then 1 else 0
  | decWeakDeleteBase attempt => if attempt then 1 else 0
  | decWeakDtor attempt => if attempt then 1 else 0
  | decWeakDeleteImpl attempt => if attempt then 1 else 0
  | attemptWeak => 1
  | _ => 2

/-- The number of strong references that a call accounts for. -/
def Call.strongShare : Call → ℕ
  | incStrongWeak first => if first then 0 else 1
  | incStrongInc first => if first then 0 else 1
  | incStrongSub first => if first then 1 else 2
  | incStrongFirstRef first => if first then 1 else 2
  | decStrongDec => 1
  | incWeakInc holder => if holder = .strong then 1 else 0
  | attemptLast => 1
  | fixLoad => 1
  | fixCas _ => 1
  | _ => 0

/-- The call is going to take off the initial value, if it is still there. -/
def Call.owes : Call → ℕ
  | incStrongSub _ => 1
  | attemptLast => 1
  | fixLoad => 1
  | fixCas _ => 1
  | _ => 0

/-- The call is going to take off the initial value, whether it is still there or not. -/
def Call.subtracts : Call → ℕ
  | incStrongSub _ => 1
  | _ => 0

/-- The call is going to delete the object, having released the last strong reference. -/
def Call.dying : Call → ℕ
  | decStrongLast => 1
  | decStrongDelete => 1
  | _ => 0

/-- The call has just deleted the object, having released the last strong reference. -/
def Call.buries : Call → ℕ
  | decStrongDtor => 1
  | _ => 0

/-- The call has released the last weak reference, and has not looked at `mStrong` yet. -/
def Call.tests : Call → ℕ
  | decWeakTest _ => 1
  | _ => 0

/-- The call is going to delete an object that never had a strong reference. -/
def Call.deletesBase : Call → ℕ
  | decWeakDeleteBase _ => 1
  | _ => 0

/-- The call has just deleted an object that never had a strong reference. -/
def Call.destroys : Call → ℕ
  | decWeakDtor _ => 1
  | _ => 0

/-- The call is going to delete the `weakref_impl`. -/
def Call.deletesImpl : Call → ℕ
  | decWeakDeleteImpl _ => 1
  | _ => 0

/-- The values of `curCount` that the loops are entered with. -/
def Call.CurCount : Call → Prop
  | attemptEasy curCount => 0 < curCount
  | attemptHard curCount => 0 < curCount
  | fixCas curCount => initialStrongValue ≤ curCount
  | _ => True

/-- The sum of a quantity over the calls in progress. -/
def total (f : Call → ℕ) (l : List Call) : ℕ := (l.map f).sum

theorem total_eraseIdx (f : Call → ℕ) {l : List Call} {i : ℕ} {c : Call} (h : l[i]? = some c) :
    total f l = f c + total f (l.eraseIdx i) := by
  have hperm : l.Perm (c :: l.eraseIdx i) := by
    obtain ⟨hi, rfl⟩ := List.getElem?_eq_some_iff.mp h
    exact (List.getElem_cons_eraseIdx_perm hi).symm
  exact (hperm.map f).sum_eq

theorem total_mono {f g : Call → ℕ} (h : ∀ c, f c ≤ g c) (l : List Call) :
    total f l ≤ total g l :=
  sum_le_sum fun c _ => h c

/-! ### Ledgers -/

/-- The counters, the deletions, and how many references and calls of each kind there are. -/
structure Ledger where
  mStrong : ℤ
  mWeak : ℤ
  objectDeleted : ℕ
  implDeleted : ℕ
  hadStrong : Bool
  hadRef : Bool
  strongRefs : ℕ
  weakRefs : ℕ
  owes : ℕ
  subtracts : ℕ
  dying : ℕ
  buries : ℕ
  tests : ℕ
  deletesBase : ℕ
  destroys : ℕ
  deletesImpl : ℕ

/-- The ledger of the counters `m` and the calls `l`. -/
def ledger (m : Shared) (l : List Call) : Ledger where
  mStrong := m.mStrong
  mWeak := m.mWeak
  objectDeleted := m.objectDeleted
  implDeleted := m.implDeleted
  hadStrong := m.hadStrong
  hadRef := m.hadRef
  strongRefs := m.strong + total Call.strongShare l
  weakRefs := m.strong + m.weak + total Call.weakShare l
  owes := total Call.owes l
  subtracts := total Call.subtracts l
  dying := total Call.dying l
  buries := total Call.buries l
  tests := total Call.tests l
  deletesBase := total Call.deletesBase l
  destroys := total Call.destroys l
  deletesImpl := total Call.deletesImpl l

/-- Who is about to delete the `weakref_impl`, or has done so. -/
def Ledger.teardown (L : Ledger) : ℕ :=
  L.tests + L.deletesBase + L.destroys + L.deletesImpl + L.implDeleted

/-- What holds of the kinds of calls in every state. -/
structure Ledger.Related (L : Ledger) : Prop where
  strong_le : L.strongRefs ≤ L.weakRefs
  owes_le : L.owes ≤ L.strongRefs
  subtracts_le : L.subtracts ≤ L.owes

theorem ledger_related (m : Shared) (l : List Call) : (ledger m l).Related := by
  have h₁ : total Call.strongShare l ≤ total Call.weakShare l := total_mono (fun c => by
    cases c <;> simp only [Call.strongShare, Call.weakShare] <;> (try split_ifs) <;> simp_all) l
  have h₂ : total Call.owes l ≤ total Call.strongShare l := total_mono (fun c => by
    cases c <;> simp only [Call.owes, Call.strongShare] <;> (try split_ifs) <;> omega) l
  have h₃ : total Call.subtracts l ≤ total Call.owes l := total_mono (fun c => by
    cases c <;> simp only [Call.owes, Call.subtracts] <;> omega) l
  refine ⟨?_, ?_, h₃⟩ <;> simp only [ledger] <;> omega

/-- The counters count, the initial value is there until a call that owes it takes it off, and the
deletions are due or done exactly when they should be. -/
structure Ledger.Balanced (L : Ledger) : Prop where
  weak : L.mWeak = L.weakRefs
  fewWeak : L.weakRefs < 2 ^ 31
  strong : L.mStrong = L.strongRefs ∨ L.mStrong = initialStrongValue + L.strongRefs
  few : L.strongRefs < 2 ^ 28
  subtracts : L.subtracts ≤ 1
  sub : 0 < L.subtracts → initialStrongValue ≤ L.mStrong
  owed : initialStrongValue ≤ L.mStrong → 0 < L.strongRefs ∨ L.hadStrong = true → 0 < L.owes
  biased : initialStrongValue ≤ L.mStrong →
    L.objectDeleted = L.destroys + L.implDeleted ∧ L.dying = 0 ∧ L.buries = 0
  alive : L.mStrong < initialStrongValue → 0 < L.strongRefs →
    L.objectDeleted = 0 ∧ L.dying = 0 ∧ L.buries = 0
  dead : L.mStrong < initialStrongValue → L.strongRefs = 0 → L.objectDeleted + L.dying = 1
  held : 0 < L.mWeak → L.teardown = 0
  unused : L.hadRef = false →
    L.teardown = 0 ∧ L.mWeak = 0 ∧ initialStrongValue ≤ L.mStrong
  released : L.hadRef = true → L.mWeak = 0 → L.teardown = 1
  base : 0 < L.deletesBase + L.destroys → initialStrongValue ≤ L.mStrong
  impl : 0 < L.deletesImpl → L.mStrong < initialStrongValue

/-! ### Moves

The steps of the machine are these changes of its ledger, or leave it as it is. -/

namespace Ledger

/-- `mWeak` is incremented. -/
def incWeak (L : Ledger) : Ledger :=
  { L with mWeak := L.mWeak + 1, weakRefs := L.weakRefs + 1, hadRef := true }

/-- `mWeak` is decremented, by a call that returns. -/
def decWeak (L : Ledger) : Ledger :=
  { L with mWeak := L.mWeak - 1, weakRefs := L.weakRefs - 1 }

/-- The last weak reference is released. -/
def lastWeak (L : Ledger) : Ledger := { L.decWeak with tests := L.tests + 1 }

/-- `mStrong` is incremented, by a call that returns. -/
def incStrong (L : Ledger) : Ledger :=
  { L with mStrong := L.mStrong + 1, strongRefs := L.strongRefs + 1, hadStrong := true }

/-- `mStrong` is incremented by a call that is going to look for the initial value. -/
def promote (L : Ledger) : Ledger :=
  { L with mStrong := L.mStrong + 1, strongRefs := L.strongRefs + 1, owes := L.owes + 1 }

/-- `mStrong` is incremented by a call that found the initial value. -/
def first (L : Ledger) : Ledger := { L.promote with subtracts := L.subtracts + 1 }

/-- The initial value is taken off by a call that found it. -/
def subtract (L : Ledger) : Ledger :=
  { L with mStrong := L.mStrong - initialStrongValue, owes := L.owes - 1
           subtracts := L.subtracts - 1 }

/-- The initial value is taken off in the fix-up. -/
def unbias (L : Ledger) : Ledger :=
  { L with mStrong := L.mStrong - initialStrongValue, owes := L.owes - 1, hadStrong := true }

/-- A strong reference is handed out, and the initial value is not there. -/
def settle (L : Ledger) : Ledger := { L with owes := L.owes - 1, hadStrong := true }

/-- A strong reference is handed out. -/
def handOut (L : Ledger) : Ledger := { L with hadStrong := true }

/-- `mStrong` is decremented. -/
def decStrong (L : Ledger) : Ledger :=
  { L with mStrong := L.mStrong - 1, strongRefs := L.strongRefs - 1 }

/-- The last strong reference is released. -/
def lastStrong (L : Ledger) : Ledger := { L.decStrong with dying := L.dying + 1 }

/-- The object is deleted, after its last strong reference. -/
def deleteObject (L : Ledger) : Ledger :=
  { L with objectDeleted := L.objectDeleted + 1, dying := L.dying - 1, buries := L.buries + 1 }

/-- `~RefBase` returns, after the last strong reference. -/
def bury (L : Ledger) : Ledger := { L with buries := L.buries - 1 }

/-- There never was a strong reference. -/
def testBase (L : Ledger) : Ledger :=
  { L with tests := L.tests - 1, deletesBase := L.deletesBase + 1 }

/-- There was a strong reference. -/
def testImpl (L : Ledger) : Ledger :=
  { L with tests := L.tests - 1, deletesImpl := L.deletesImpl + 1 }

/-- The object is deleted that never had a strong reference. -/
def deleteBase (L : Ledger) : Ledger :=
  { L with objectDeleted := L.objectDeleted + 1, deletesBase := L.deletesBase - 1
           destroys := L.destroys + 1 }

/-- `~RefBase` deletes the `weakref_impl`. -/
def destroy (L : Ledger) : Ledger :=
  { L with implDeleted := L.implDeleted + 1, destroys := L.destroys - 1 }

/-- `decWeak` deletes the `weakref_impl`. -/
def deleteImpl (L : Ledger) : Ledger :=
  { L with implDeleted := L.implDeleted + 1, deletesImpl := L.deletesImpl - 1 }

namespace Balanced

variable {L : Ledger}

theorem init_eq : initialStrongValue = 2 ^ 28 := rfl

variable (h : L.Balanced)
include h

protected theorem incWeak (hfew : L.weakRefs + 1 < 2 ^ 31)
    (hopen : L.mWeak = 0 → L.hadRef = false) : L.incWeak.Balanced := by
  have hw := h.weak
  have hdown : L.teardown = 0 := by
    by_cases h0 : L.mWeak = 0
    · exact (h.unused (hopen h0)).1
    · exact h.held (by omega)
  exact { h with
    weak := by simp only [Ledger.incWeak]; omega
    fewWeak := hfew
    held := fun _ => hdown
    unused := fun hr => absurd hr (by simp [Ledger.incWeak])
    released := fun _ h0 => by simp only [Ledger.incWeak] at h0; omega }

protected theorem decWeak (hw : 0 < L.weakRefs) (h1 : L.mWeak ≠ 1) :
    L.decWeak.Balanced := by
  have hweak := h.weak
  have hfew := h.fewWeak
  have hdown := h.held (by omega)
  exact { h with
    weak := by simp only [Ledger.decWeak]; omega
    fewWeak := by simp only [Ledger.decWeak]; omega
    held := fun _ => hdown
    unused := fun hr => by have := (h.unused hr).2.1; omega
    released := fun _ h0 => by simp only [Ledger.decWeak] at h0; omega }

protected theorem lastWeak (h1 : L.mWeak = 1) : L.lastWeak.Balanced := by
  have hweak := h.weak
  have hfew := h.fewWeak
  have hdown := h.held (by omega)
  rw [teardown] at hdown
  exact { h with
    weak := by simp only [Ledger.lastWeak, Ledger.decWeak]; omega
    fewWeak := by simp only [Ledger.lastWeak, Ledger.decWeak]; omega
    held := fun h0 => by simp only [Ledger.lastWeak, Ledger.decWeak] at h0; omega
    unused := fun hr => by have := (h.unused hr).2.1; omega
    released := fun _ _ => by simp only [teardown, Ledger.lastWeak, Ledger.decWeak]; omega }

/-- A strong reference more keeps what does not depend on how it was made. -/
theorem mStrong_succ_lt_iff (hpos : 0 < L.mStrong) (hfew : L.strongRefs + 1 < 2 ^ 28) :
    (L.mStrong < initialStrongValue ↔ L.mStrong + 1 < initialStrongValue) ∧
      (L.mStrong < initialStrongValue → 0 < L.strongRefs) := by
  have hs := h.strong
  rw [init_eq] at hs ⊢
  omega

protected theorem promote (hpos : 0 < L.mStrong)
    (hfew : L.strongRefs + 1 < 2 ^ 28) : L.promote.Balanced := by
  obtain ⟨hlt, hrefs⟩ := h.mStrong_succ_lt_iff hpos hfew
  have hs := h.strong
  exact { h with
    strong := by simp only [Ledger.promote]; omega
    few := hfew
    sub := fun hq => not_lt.mp fun hb => not_lt.mpr (h.sub hq) (hlt.mpr hb)
    owed := fun _ _ => Nat.succ_pos _
    biased := fun hb => h.biased (not_lt.mp fun hb' => not_lt.mpr hb (hlt.mp hb'))
    alive := fun hb _ => h.alive (hlt.mpr hb) (hrefs (hlt.mpr hb))
    dead := fun _ h0 => absurd h0 (Nat.succ_ne_zero _)
    unused := fun hr => (h.unused hr).imp_right (And.imp_right fun hb => hb.trans (by
      simp only [Ledger.promote]; omega))
    base := fun hb => (h.base hb).trans (by simp only [Ledger.promote]; omega)
    impl := fun hi => hlt.mp (h.impl hi) }

protected theorem incStrong (hpos : 0 < L.mStrong)
    (hne : L.mStrong ≠ initialStrongValue) (hfew : L.strongRefs + 1 < 2 ^ 28) :
    L.incStrong.Balanced := by
  obtain ⟨hlt, -⟩ := h.mStrong_succ_lt_iff hpos hfew
  have hs := h.strong
  -- the reference is not the first one, so somebody owes the initial value if it is there
  have howed : initialStrongValue ≤ L.mStrong + 1 → 0 < L.owes := fun hb =>
    h.owed (not_lt.mp fun hb' => not_lt.mpr hb (hlt.mp hb')) (Or.inl (by omega))
  exact { h.promote hpos hfew with owed := fun hb _ => howed hb }

section

variable (hr : L.Related)
include hr

protected theorem first (hi : L.mStrong = initialStrongValue)
    (hfew : L.strongRefs + 1 < 2 ^ 28) : L.first.Balanced := by
  have hs := h.strong
  have hf := h.few
  have h₁ := hr.owes_le
  have h₂ := hr.subtracts_le
  rw [init_eq] at hi hs
  exact { h.promote (by omega) hfew with
    subtracts := by simp only [Ledger.first]; omega
    sub := fun _ => by simp only [Ledger.first, Ledger.promote, init_eq]; omega }

/-- Taking off the initial value while it is there. -/
theorem sub_initial_eq (hb : initialStrongValue ≤ L.mStrong)
    (hpos : 0 < L.strongRefs) :
    L.mStrong - initialStrongValue = L.strongRefs ∧ L.objectDeleted = 0 ∧ L.dying = 0 ∧
      L.buries = 0 ∧ L.teardown = 0 ∧ L.hadRef = true := by
  have hs := h.strong
  have hf := h.few
  have hweak := h.weak
  have hle := hr.strong_le
  have hdown := h.held (by omega)
  obtain ⟨h₁, h₂, h₃⟩ := h.biased hb
  have hdown' := hdown
  rw [teardown] at hdown'
  refine ⟨by rw [init_eq] at hs hb ⊢; omega, by omega, h₂, h₃, hdown, ?_⟩
  by_contra hn
  have := (h.unused (Bool.eq_false_of_not_eq_true hn)).2.1
  omega

/-- The initial value comes off, and no call is left that would take it off again. -/
theorem unbiased (hb : initialStrongValue ≤ L.mStrong)
    (hpos : 0 < L.strongRefs) (hadStrong : Bool) :
    Balanced { L with
      mStrong := L.mStrong - initialStrongValue, owes := L.owes - 1, subtracts := 0,
      hadStrong } := by
  obtain ⟨hval, hobj, hdy, hbu, hdown, href⟩ := h.sub_initial_eq hr hb hpos
  have hf := h.few
  have hlt : L.mStrong - initialStrongValue < initialStrongValue := by
    rw [hval, init_eq]
    omega
  exact { h with
    strong := Or.inl hval
    subtracts := Nat.zero_le _
    sub := fun hq => absurd hq (lt_irrefl 0)
    owed := fun hb' => absurd hlt (not_lt.mpr hb')
    biased := fun hb' => absurd hlt (not_lt.mpr hb')
    alive := fun _ _ => ⟨hobj, hdy, hbu⟩
    dead := fun _ h0 => absurd h0 hpos.ne'
    unused := fun hr' => by rw [href] at hr'; cases hr'
    base := fun (hb' : 0 < L.deletesBase + L.destroys) => by rw [teardown] at hdown; omega
    impl := fun _ => hlt }

protected theorem unbias (hb : initialStrongValue ≤ L.mStrong)
    (hpos : 0 < L.strongRefs) (hq : L.subtracts = 0) : L.unbias.Balanced := by
  have hb' := h.unbiased hr hb hpos true
  rwa [← hq] at hb'

protected theorem subtract (hq : 0 < L.subtracts) :
    L.subtract.Balanced := by
  have h₁ := hr.owes_le
  have h₂ := hr.subtracts_le
  have hq' := h.subtracts
  have hb := h.unbiased hr (h.sub hq) (by omega) L.hadStrong
  rwa [show 0 = L.subtracts - 1 by omega] at hb

omit hr in
protected theorem settle (hb : L.mStrong < initialStrongValue) :
    L.settle.Balanced :=
  { h with owed := fun hb' => absurd hb (not_lt.mpr hb') }

omit hr in
protected theorem handOut (hpos : 0 < L.strongRefs) : L.handOut.Balanced :=
  { h with owed := fun hb _ => h.owed hb (Or.inl hpos) }

omit hr in
protected theorem decStrong (hpos : 0 < L.strongRefs) (h1 : L.mStrong ≠ 1) :
    L.decStrong.Balanced := by
  have hs := h.strong
  have hf := h.few
  have hb : initialStrongValue ≤ L.mStrong - 1 ↔ initialStrongValue ≤ L.mStrong := by
    rw [init_eq] at hs ⊢
    omega
  have hlt : L.mStrong - 1 < initialStrongValue → L.mStrong < initialStrongValue :=
    fun h' => not_le.mp fun h'' => not_le.mpr h' (hb.mpr h'')
  exact { h with
    strong := by simp only [Ledger.decStrong]; omega
    few := by simp only [Ledger.decStrong]; omega
    sub := fun hq => hb.mpr (h.sub hq)
    owed := fun hb' _ => h.owed (hb.mp hb') (Or.inl hpos)
    biased := fun hb' => h.biased (hb.mp hb')
    alive := fun hb' _ => h.alive (hlt hb') hpos
    dead := fun hb' h0 => by
      have := hlt hb'
      simp only [Ledger.decStrong] at h0
      rw [init_eq] at hs this
      omega
    unused := fun hr => (h.unused hr).imp_right (And.imp_right hb.mpr)
    base := fun hb' => hb.mpr (h.base hb')
    impl := fun hi => not_le.mp fun h' => not_le.mpr (h.impl hi) (hb.mp h') }

omit hr in
protected theorem lastStrong (h1 : L.mStrong = 1) : L.lastStrong.Balanced := by
  have hs := h.strong
  have hf := h.few
  have hlt : L.mStrong < initialStrongValue := by rw [h1, init_eq]; norm_num
  have hrefs : L.strongRefs = 1 := by
    rw [init_eq] at hs
    omega
  obtain ⟨hobj, hdy, hbu⟩ := h.alive hlt (by omega)
  have hlt' : L.mStrong - 1 < initialStrongValue := by rw [h1, init_eq]; norm_num
  exact { h with
    strong := by simp only [Ledger.lastStrong, Ledger.decStrong]; omega
    few := by simp only [Ledger.lastStrong, Ledger.decStrong]; omega
    sub := fun hq => absurd hlt (not_lt.mpr (h.sub hq))
    owed := fun hb => absurd hlt' (not_lt.mpr hb)
    biased := fun hb => absurd hlt' (not_lt.mpr hb)
    alive := fun _ h0 => by simp only [Ledger.lastStrong, Ledger.decStrong] at h0; omega
    dead := fun _ _ => by simp only [Ledger.lastStrong, Ledger.decStrong]; omega
    unused := fun hr => absurd hlt (not_lt.mpr (h.unused hr).2.2)
    base := fun hb => absurd hlt (not_lt.mpr (h.base hb))
    impl := fun _ => hlt' }

omit hr in
/-- A call that deletes the object finds it without strong references. -/
theorem of_dying (hd : 0 < L.dying + L.buries) :
    L.mStrong < initialStrongValue ∧ (0 < L.dying → L.strongRefs = 0) := by
  refine ⟨not_le.mp fun hb => ?_, fun hd' => ?_⟩
  · obtain ⟨-, h₂, h₃⟩ := h.biased hb
    omega
  · by_contra hne
    by_cases hb : L.mStrong < initialStrongValue
    · have := (h.alive hb (by omega)).2.1
      omega
    · have := (h.biased (not_lt.mp hb)).2.1
      omega

omit hr in
protected theorem deleteObject (hd : 0 < L.dying) : L.deleteObject.Balanced := by
  obtain ⟨hlt, hrefs⟩ := h.of_dying (by omega)
  exact { h with
    biased := fun hb => absurd hlt (not_lt.mpr hb)
    alive := fun _ h0 => absurd (hrefs hd) (Nat.ne_of_gt h0)
    dead := fun hb h0 => by
      have := h.dead hb h0
      simp only [Ledger.deleteObject]
      omega }

omit hr in
protected theorem bury (hd : 0 < L.buries) : L.bury.Balanced := by
  obtain ⟨hlt, -⟩ := h.of_dying (by omega)
  exact { h with
    biased := fun hb => absurd hlt (not_lt.mpr hb)
    alive := fun hb h0 => by
      have := (h.alive hb h0).2.2
      omega }

/-- A call that deletes the `weakref_impl` finds it without references. -/
theorem of_teardown (ht : 0 < L.teardown) :
    L.mWeak = 0 ∧ L.hadRef = true ∧ L.teardown = 1 ∧
      (L.mStrong = 0 ∨ L.mStrong = initialStrongValue) := by
  have hweak := h.weak
  have hs := h.strong
  have hle := hr.strong_le
  have h0 : L.mWeak = 0 := by
    by_contra hne
    have := h.held (by omega)
    omega
  have href : L.hadRef = true := by
    by_contra hn
    have := (h.unused (Bool.eq_false_of_not_eq_true hn)).1
    omega
  refine ⟨h0, href, h.released href h0, ?_⟩
  omega

/-- Moves between the stages of deleting the `weakref_impl`. -/
theorem restage {L' : Ledger} (ht : 0 < L.teardown)
    (hsame : L' = { L with
      objectDeleted := L'.objectDeleted, implDeleted := L'.implDeleted, tests := L'.tests
      deletesBase := L'.deletesBase, destroys := L'.destroys, deletesImpl := L'.deletesImpl })
    (hdown : L'.teardown = L.teardown)
    (hbiased : initialStrongValue ≤ L.mStrong →
      L'.objectDeleted = L'.destroys + L'.implDeleted ∧ L'.deletesImpl = 0)
    (hdead : L.mStrong < initialStrongValue →
      L'.objectDeleted = L.objectDeleted ∧ L'.deletesBase + L'.destroys = 0) :
    L'.Balanced := by
  obtain ⟨h0, href, hone, -⟩ := h.of_teardown hr ht
  -- the other fields of `L'` are those of `L`
  cases L'
  cases hsame
  exact { h with
    biased := fun hb => ⟨(hbiased hb).1, (h.biased hb).2⟩
    alive := fun hb hs => ⟨(hdead hb).1.trans (h.alive hb hs).1, (h.alive hb hs).2⟩
    dead := fun hb hs => by
      rw [(hdead hb).1]
      exact h.dead hb hs
    held := fun hlt => absurd h0 hlt.ne'
    unused := fun hf => absurd (href.symm.trans hf) nofun
    released := fun _ _ => hdown.trans hone
    base := fun hpos => not_lt.mp fun hb => hpos.ne' (hdead hb).2
    impl := fun hpos => not_le.mp fun hb => hpos.ne' (hbiased hb).2 }

theorem testBase (ht : 0 < L.tests)
    (hi : L.mStrong = initialStrongValue) : L.testBase.Balanced := by
  refine h.restage hr (by rw [teardown]; omega) rfl ?_ (fun hb => ?_) fun hd => ?_
  · simp only [teardown, Ledger.testBase]
    omega
  · exact ⟨(h.biased hb).1, by_contra fun hne =>
      not_lt.mpr hb (h.impl (Nat.pos_of_ne_zero hne))⟩
  · exact absurd hi hd.ne

theorem testImpl (ht : 0 < L.tests)
    (hi : L.mStrong ≠ initialStrongValue) : L.testImpl.Balanced := by
  have ht' : 0 < L.teardown := by rw [teardown]; omega
  have h0 : L.mStrong = 0 := (h.of_teardown hr ht').2.2.2.resolve_right hi
  have hlt : L.mStrong < initialStrongValue := by rw [h0, init_eq]; norm_num
  refine h.restage hr ht' rfl ?_ (fun hb => absurd hlt (not_lt.mpr hb)) fun _ => ⟨rfl, ?_⟩
  · simp only [teardown, Ledger.testImpl]
    omega
  · exact by_contra fun hne => not_lt.mpr (h.base (Nat.pos_of_ne_zero hne)) hlt

theorem deleteBase (ht : 0 < L.deletesBase) :
    L.deleteBase.Balanced := by
  have hi := h.base (by omega)
  refine h.restage hr (by rw [teardown]; omega) rfl ?_ (fun hb => ⟨?_, ?_⟩) fun hd =>
    absurd hd (not_lt.mpr hi)
  · simp only [teardown, Ledger.deleteBase]
    omega
  · have := (h.biased hb).1
    simp only [Ledger.deleteBase]
    omega
  · exact by_contra fun hne => not_lt.mpr hb (h.impl (Nat.pos_of_ne_zero hne))

theorem destroy (ht : 0 < L.destroys) :
    L.mStrong = initialStrongValue ∧ L.destroy.Balanced := by
  have hi := h.base (by omega)
  have ht' : 0 < L.teardown := by rw [teardown]; omega
  have heq : L.mStrong = initialStrongValue :=
    (h.of_teardown hr ht').2.2.2.resolve_left fun h0 => by rw [h0, init_eq] at hi; omega
  refine ⟨heq, h.restage hr ht' rfl ?_ (fun hb => ⟨?_, ?_⟩) fun hd => absurd hd (not_lt.mpr hi)⟩
  · simp only [teardown, Ledger.destroy]
    omega
  · have := (h.biased hb).1
    simp only [Ledger.destroy]
    omega
  · exact by_contra fun hne => not_lt.mpr hb (h.impl (Nat.pos_of_ne_zero hne))

theorem deleteImpl (ht : 0 < L.deletesImpl) :
    L.deleteImpl.Balanced := by
  have hi := h.impl ht
  refine h.restage hr (by rw [teardown]; omega) rfl ?_ (fun hb => absurd hi (not_lt.mpr hb))
    fun _ => ⟨rfl, by_contra fun hne => not_lt.mpr (h.base (Nat.pos_of_ne_zero hne)) hi⟩
  simp only [teardown, Ledger.deleteImpl]
  omega

end

theorem pos (hpos : 0 < L.strongRefs) : 0 < L.mStrong := by
  have hs := h.strong
  rw [init_eq] at hs
  omega

theorem range :
    0 ≤ L.mStrong ∧ L.mStrong < 2 ^ 29 ∧ 0 ≤ L.mWeak ∧ L.mWeak < 2 ^ 31 := by
  have h₁ := h.weak
  have h₂ := h.fewWeak
  have h₃ := h.strong
  have h₄ := h.few
  rw [init_eq] at h₃
  omega

end Balanced

end Ledger

/-! ### Steps -/

variable {c : Call}

theorem total_cons (f : Call → ℕ) (c : Call) (l : List Call) :
    total f (c :: l) = f c + total f l := rfl

theorem ledger_eraseIdx (m : Shared) {l : List Call} {i : ℕ} (h : l[i]? = some c) :
    ledger m l = ledger m (c :: l.eraseIdx i) := by
  simp only [ledger, total_cons, ← total_eraseIdx _ h]

/-- The condition under which a call may take its next step. -/
def Call.Fair (L : Ledger) : Call → Prop
  -- the creator comes before the object is gone; references are not too many
  | incStrongWeak first =>
    L.weakRefs + 1 < 2 ^ 31 ∧ (first = true → L.mWeak = 0 → L.hadRef = false)
  | incWeakInc holder =>
    L.weakRefs + 1 < 2 ^ 31 ∧ (holder = .creator → L.mWeak = 0 → L.hadRef = false)
  | attemptWeak => L.weakRefs + 1 < 2 ^ 31
  | incStrongInc first => L.strongRefs + 1 < 2 ^ 28 ∧ (first = true → 0 < L.mStrong)
  | attemptEasy _ => L.strongRefs + 1 < 2 ^ 28
  | attemptHard _ => L.strongRefs + 1 < 2 ^ 28
  -- the fix-up does not take off the initial value when an `incStrong` is about to do so
  | fixCas curCount => L.mStrong = curCount → L.subtracts = 0
  | _ => True

/-- What every step keeps. -/
def Kept (m : Shared) (l : List Call) : Prop := (∀ c ∈ l, c.CurCount) ∧ (ledger m l).Balanced

/-- A step keeps the balance if it is a move that does. -/
theorem Kept.step {m m' : Shared} {c' : Option Call} {r : List Call} {L : Ledger}
    (hk : Kept m (c :: r)) (hcur : ∀ d ∈ c', d.CurCount) (hL : L.Balanced)
    (heq : ledger m' (c'.toList ++ r) = L) : Kept m' (c'.toList ++ r) := by
  refine ⟨fun d hd => ?_, heq ▸ hL⟩
  rcases mem_append.mp hd with hd | hd
  · exact hcur d (mem_toList.mp hd)
  · exact hk.1 d (mem_cons_of_mem _ hd)

attribute [local simp] ledger total_cons Call.weakShare Call.strongShare Call.owes Call.subtracts
  Call.dying Call.buries Call.tests Call.deletesBase Call.destroys Call.deletesImpl
  Call.CurCount Shared.grantStrong Shared.grantWeak Shared.giveUp Shared.promote

section Exec

variable {m : Shared} {r : List Call} {l : List Call}

/-- The counters do not wrap around. -/
theorem Kept.s32 (hk : Kept m l) :
    CInt.s32 (m.mStrong + 1) = m.mStrong + 1 ∧ CInt.s32 (m.mStrong - 1) = m.mStrong - 1 ∧
      CInt.s32 (m.mStrong - initialStrongValue) = m.mStrong - initialStrongValue ∧
      CInt.s32 (m.mWeak - 1) = m.mWeak - 1 := by
  obtain ⟨h₁, h₂, h₃, h₄⟩ := hk.2.range
  simp only [ledger] at h₁ h₂ h₃ h₄
  rw [Ledger.Balanced.init_eq]
  refine ⟨?_, ?_, ?_, ?_⟩ <;> apply s32_of_range <;> omega

theorem Kept.s32_incWeak (hk : Kept m l) (hfew : (ledger m l).weakRefs + 1 < 2 ^ 31) :
    CInt.s32 (m.mWeak + 1) = m.mWeak + 1 := by
  have hw : m.mWeak = (ledger m l).weakRefs := hk.2.weak
  apply s32_of_range <;> omega

/-- A caller that holds a reference finds the `weakref_impl` in use. -/
theorem Kept.inUse (hk : Kept m l) (h : 0 < (ledger m l).weakRefs) (h0 : m.mWeak = 0) :
    m.hadRef = false := by
  have hw : m.mWeak = (ledger m l).weakRefs := hk.2.weak
  omega

/-- **Every fair step keeps the balance.** -/
theorem exec_kept {c : Call} (hk : Kept m (c :: r)) (hf : c.Fair (ledger m (c :: r))) :
    Kept (exec m c).1 ((exec m c).2.toList ++ r) := by
  obtain ⟨hinc, hdec, hsub, hdecWeak⟩ := hk.s32
  have hb := hk.2
  have hr := ledger_related m (c :: r)
  have hcur := hk.1 c mem_cons_self
  cases c with
  | incStrongWeak first =>
    refine hk.step (by simp [exec]) (hb.incWeak hf.1 fun h0 => ?_) ?_
    · cases first with
      | true => exact hf.2 rfl h0
      | false => exact hk.inUse (by simp) h0
    · simp [exec, Ledger.incWeak, hk.s32_incWeak hf.1]
      split_ifs <;> omega
  | incStrongInc first =>
    simp only [exec]
    split_ifs with hc
    · refine hk.step (by simp) (hb.incStrong ?_ hc hf.1) ?_
      · cases first with
        | true => exact hf.2 rfl
        | false => exact hb.pos (by simp)
      · simp [Ledger.incStrong, hinc]
        split_ifs <;> omega
    · refine hk.step (by simp) (hb.first hr (not_not.mp hc) hf.1) ?_
      simp [Ledger.first, Ledger.promote, hinc]
      split_ifs <;> omega
  | incStrongSub first =>
    refine hk.step (by simp [exec]) (hb.subtract hr (by simp)) ?_
    simp [exec, Ledger.subtract, hsub]
  | incStrongFirstRef first =>
    refine hk.step (by simp [exec]) (hb.handOut (by cases first <;> simp)) ?_
    simp [exec, Ledger.handOut]
    omega
  | decStrongDec =>
    simp only [exec]
    split_ifs with hc
    · refine hk.step (by simp) (hb.lastStrong hc) ?_
      simp [Ledger.lastStrong, Ledger.decStrong, hdec]
      omega
    · refine hk.step (by simp) (hb.decStrong (by simp) hc) ?_
      simp [Ledger.decStrong, hdec]
      omega
  | decStrongLast => exact hk.step (by simp [exec]) hb (by simp [exec])
  | decStrongDelete =>
    refine hk.step (by simp [exec]) (hb.deleteObject (by simp)) ?_
    simp [exec, Ledger.deleteObject]
    omega
  | decStrongDtor =>
    have hne := (hb.of_dying (by simp)).1.ne
    refine hk.step (by simp [exec]) (hb.bury (by simp)) ?_
    simp [exec, Ledger.bury, Shared.dtor, show m.mStrong ≠ initialStrongValue from hne]
  | incWeakInc holder =>
    refine hk.step (by simp [exec]) (hb.incWeak hf.1 fun h0 => ?_) ?_
    · cases holder with
      | creator => exact hf.2 rfl h0
      | strong => exact hk.inUse (by simp) h0
      | weak => exact hk.inUse (by simp) h0
    · cases holder <;> simp [exec, Ledger.incWeak, hk.s32_incWeak hf.1] <;> omega
  | decWeakDec attempt =>
    simp only [exec]
    split_ifs with hc
    · refine hk.step (by simp) (hb.decWeak ?_ hc) ?_
      · cases attempt <;> simp
      · simp [Ledger.decWeak, hdecWeak]
        split_ifs <;> omega
    · refine hk.step (by simp) (hb.lastWeak (not_not.mp hc)) ?_
      simp [Ledger.lastWeak, Ledger.decWeak, hdecWeak]
      split_ifs <;> omega
  | decWeakTest attempt =>
    simp only [exec]
    split_ifs with hc
    · refine hk.step (by simp) (hb.testBase hr (by simp) hc) ?_
      simp [Ledger.testBase]
      omega
    · refine hk.step (by simp) (hb.testImpl hr (by simp) hc) ?_
      simp [Ledger.testImpl]
      omega
  | decWeakDeleteBase attempt =>
    refine hk.step (by simp [exec]) (hb.deleteBase hr (by simp)) ?_
    simp [exec, Ledger.deleteBase]
    omega
  | decWeakDtor attempt =>
    obtain ⟨hi, hd⟩ := hb.destroy hr (by simp)
    refine hk.step (by simp [exec]) hd ?_
    simp [exec, Ledger.destroy, Shared.dtor, show m.mStrong = initialStrongValue from hi]
    omega
  | decWeakDeleteImpl attempt =>
    refine hk.step (by simp [exec]) (hb.deleteImpl hr (by simp)) ?_
    simp [exec, Ledger.deleteImpl]
    omega
  | attemptWeak =>
    refine hk.step (by simp [exec]) (hb.incWeak hf fun h0 => ?_) ?_
    · exact hk.inUse (by simp) h0
    · simp [exec, Ledger.incWeak, hk.s32_incWeak hf]
      omega
  | attemptLoad =>
    simp only [exec]
    split_ifs with h₁ h₂
    · exact hk.step (by simpa using h₁.1) hb (by simp)
    · exact hk.step (by simp) hb (by simp)
    · exact hk.step (by simpa using h₂) hb (by simp)
  | attemptEasy curCount =>
    simp only [exec]
    split_ifs with hc
    · subst hc
      refine hk.step (by simp) (hb.promote hcur hf) ?_
      simp [Ledger.promote, hinc]
      omega
    · exact hk.step (by simp) hb (by simp)
  | attemptHard curCount =>
    simp only [exec]
    split_ifs with hc hlt
    · subst hc
      refine hk.step (by simp) (hb.promote hcur hf) ?_
      simp [Ledger.promote, hinc]
      omega
    · subst hc
      refine hk.step (by simp) (hb.promote hcur hf) ?_
      simp [Ledger.promote, hinc]
      omega
    · exact hk.step (by simp) hb (by simp)
  | attemptHardLoad =>
    simp only [exec]
    split_ifs with hc
    · exact hk.step (by simpa using hc) hb (by simp)
    · exact hk.step (by simp) hb (by simp)
  | attemptLast => exact hk.step (by simp [exec]) hb (by simp [exec])
  | fixLoad =>
    simp only [exec]
    split_ifs with hc
    · exact hk.step (by simpa using hc) hb (by simp)
    · refine hk.step (by simp) (hb.settle (not_le.mp hc)) ?_
      simp [Ledger.settle]
      omega
  | fixCas curCount =>
    simp only [exec]
    split_ifs with hc
    · subst hc
      refine hk.step (by simp)
        (hb.unbias hr hcur (by simp) (hf rfl)) ?_
      simp [Ledger.unbias, hsub]
      omega
    · exact hk.step (by simp) hb (by simp)

end Exec

/-! ### Runs -/

variable {s' : State} {c : Call} {m : Shared} {s : State}

/-- The condition under which an event may happen. -/
def Fair (s : State) : Event → Prop
  | .act i => ∀ c ∈ s.calls[i]?, c.Fair (ledger s.shared s.calls)
  | _ => True

instance Call.Fair.decide (L : Ledger) : ∀ c, Decidable (Call.Fair L c)
  | incStrongWeak _ => inferInstanceAs (Decidable (_ ∧ (_ = true → _ = (0 : ℤ) → _ = false)))
  | incWeakInc _ => inferInstanceAs (Decidable (_ ∧ (_ = Holder.creator → _ = (0 : ℤ) → _ = false)))
  | attemptWeak => inferInstanceAs (Decidable (_ < _))
  | incStrongInc _ => inferInstanceAs (Decidable (_ ∧ (_ = true → (0 : ℤ) < _)))
  | attemptEasy _ => inferInstanceAs (Decidable (_ < _))
  | attemptHard _ => inferInstanceAs (Decidable (_ < _))
  | fixCas _ => inferInstanceAs (Decidable ((_ : ℤ) = _ → _ = 0))
  | incStrongSub _ | incStrongFirstRef _ | decStrongDec | decStrongLast | decStrongDelete
  | decStrongDtor | decWeakDec _ | decWeakTest _ | decWeakDeleteBase _ | decWeakDtor _
  | decWeakDeleteImpl _ | attemptLoad | attemptHardLoad | attemptLast | fixLoad => isTrue trivial

instance Fair.decide : ∀ s e, Decidable (Fair s e)
  | s, .act i => inferInstanceAs (Decidable (∀ c ∈ s.calls[i]?, c.Fair (ledger s.shared s.calls)))
  | _, .incStrong | _, .incStrongFirst | _, .decStrong | _, .incWeak _ | _, .decWeak
  | _, .attemptIncStrong => isTrue trivial

/-- A call that starts with what its caller held changes nothing in the ledger. -/
theorem start_kept (hk : Kept s.shared s.calls) (hs' : start s m c = s') (hcur : c.CurCount)
    (heq : ledger m (c :: s.calls) = ledger s.shared s.calls) : Kept s'.shared s'.calls := by
  subst hs'
  refine ⟨fun d hd => ?_, heq ▸ hk.2⟩
  rcases mem_cons.mp hd with rfl | hd
  · exact hcur
  · exact hk.1 d hd

theorem Kept.eraseIdx {l : List Call} {i : ℕ} (hk : Kept m l) (hc : l[i]? = some c) :
    Kept m (c :: l.eraseIdx i) := by
  refine ⟨fun d hd => ?_, ledger_eraseIdx m hc ▸ hk.2⟩
  rcases mem_cons.mp hd with rfl | hd
  · exact hk.1 d (mem_of_getElem? hc)
  · exact hk.1 d (mem_of_mem_eraseIdx hd)

theorem step_kept {e : Event} (hk : Kept s.shared s.calls) (hf : Fair s e)
    (hs : step s e = some s') : Kept s'.shared s'.calls := by
  cases e with
  | act i =>
    simp only [step] at hs
    split at hs
    · cases hs
    · rename_i c hc
      cases hs
      exact exec_kept (hk.eraseIdx hc) (ledger_eraseIdx s.shared hc ▸ hf c hc)
  | incWeak holder =>
    cases holder <;> simp only [step, ite_none_right_eq_some, Option.some.injEq] at hs <;>
      refine start_kept hk hs.2 trivial ?_ <;> simp <;> omega
  | _ =>
    simp only [step, ite_none_right_eq_some, Option.some.injEq] at hs
    refine start_kept hk hs.2 trivial ?_
    simp
    try omega

theorem init_kept : Kept init.shared init.calls := by
  refine ⟨fun c hc => absurd hc not_mem_nil, ?_⟩
  constructor <;> simp [init, total, Ledger.teardown, initialStrongValue]

/-- The number of strong references there are, also in calls that are in progress. -/
def State.strongRefs (s : State) : ℕ := s.shared.strong + total Call.strongShare s.calls

/-- The number of references there are, also in calls that are in progress. -/
def State.weakRefs (s : State) : ℕ :=
  s.shared.strong + s.shared.weak + total Call.weakShare s.calls

namespace Ledger.Balanced

variable {L : Ledger}

variable (h : L.Balanced)
include h

theorem teardown_le : L.teardown ≤ 1 := by
  have hweak := h.weak
  by_cases h0 : L.mWeak = 0
  · by_cases hr : L.hadRef = true
    · exact (h.released hr h0).le
    · have := (h.unused (Bool.eq_false_of_not_eq_true hr)).1
      omega
  · have := h.held (by omega)
    omega

theorem objectDeleted_le : L.objectDeleted ≤ 1 := by
  have ht := h.teardown_le
  rw [teardown] at ht
  by_cases hb : initialStrongValue ≤ L.mStrong
  · have := (h.biased hb).1
    omega
  · rcases Nat.eq_zero_or_pos L.strongRefs with hs | hs
    · have := h.dead (not_le.mp hb) hs
      omega
    · have := (h.alive (not_le.mp hb) hs).1
      omega

theorem implDeleted_eq_zero (hw : 0 < L.weakRefs) : L.implDeleted = 0 := by
  have hweak := h.weak
  have := h.held (by omega)
  rw [teardown] at this
  omega

theorem objectDeleted_eq_zero (hr : L.Related) (hs : 0 < L.strongRefs) :
    L.objectDeleted = 0 := by
  have hweak := h.weak
  have hle := hr.strong_le
  by_cases hb : initialStrongValue ≤ L.mStrong
  · have h₁ := (h.biased hb).1
    have h₂ := h.held (by omega)
    rw [teardown] at h₂
    omega
  · exact (h.alive (not_le.mp hb) hs).1

end Ledger.Balanced

variable {m : Shared}

/-- A call in progress still finds the `weakref_impl`. -/
theorem Kept.impl {c : Call} {r : List Call} (hk : Kept m (c :: r))
    (hf : c.Fair (ledger m (c :: r))) : m.implDeleted = 0 := by
  have hb := hk.2
  have ht := hb.teardown_le
  rw [Ledger.teardown] at ht
  -- the creator may hold nothing, and who deletes the `weakref_impl` has not done so yet
  have hcreator : (m.mWeak = 0 → m.hadRef = false) → m.implDeleted = 0 := by
    intro hopen
    by_cases h0 : m.mWeak = 0
    · have := (hb.unused (hopen h0)).1
      rw [Ledger.teardown] at this
      simp at this
      omega
    · have hweak := hb.weak
      exact hb.implDeleted_eq_zero (by simp only [ledger] at hweak ⊢; omega)
  cases c with
  | incStrongWeak first =>
    cases first with
    | true => exact hcreator (hf.2 rfl)
    | false => exact hb.implDeleted_eq_zero (by simp)
  | incStrongInc first | incStrongSub first | incStrongFirstRef first | decWeakDec first =>
    exact hb.implDeleted_eq_zero (by cases first <;> simp)
  | incWeakInc holder =>
    cases holder with
    | creator => exact hcreator (hf.2 rfl)
    | strong | weak => exact hb.implDeleted_eq_zero (by simp)
  | decWeakTest | decWeakDeleteBase | decWeakDtor | decWeakDeleteImpl => simp at ht; omega
  | _ => exact hb.implDeleted_eq_zero (by simp)

/-- At rest, the counters count the references that are held, and all is deleted that should be. -/
theorem Kept.rest (hk : Kept m []) :
    (m.hadStrong = true → m.mStrong = m.strong) ∧
      (m.hadStrong = true → m.strong = 0 → m.objectDeleted = 1) ∧
      (m.hadRef = true → m.strong = 0 → m.weak = 0 → m.objectDeleted = 1 ∧ m.implDeleted = 1) := by
  have hb := hk.2
  have hs : m.mStrong = m.strong ∨ m.mStrong = initialStrongValue + m.strong := hb.strong
  have hstrong : m.hadStrong = true → m.mStrong = m.strong := by
    intro hhad
    refine hs.resolve_right fun hbias => ?_
    -- nobody is left that would take off the initial value
    have hle : initialStrongValue ≤ m.mStrong := by omega
    exact absurd (hb.owed hle (Or.inr hhad)) (lt_irrefl 0)
  have hlow : m.mStrong < initialStrongValue → m.strong = 0 → m.objectDeleted = 1 :=
    fun hlt h0 => hb.dead hlt h0
  refine ⟨hstrong, fun hhad h0 => hlow ?_ h0, fun href h0 hw => ?_⟩
  · rw [hstrong hhad, Ledger.Balanced.init_eq]
    omega
  · have hweak : m.mWeak = m.strong + m.weak := hb.weak
    have himpl : m.implDeleted = 1 := by
      have := hb.released href (show m.mWeak = 0 by omega)
      simpa [Ledger.teardown, total] using this
    refine ⟨?_, himpl⟩
    by_cases hbias : initialStrongValue ≤ m.mStrong
    · have : m.objectDeleted = 0 + m.implDeleted := (hb.biased hbias).1
      omega
    · exact hlow (not_le.mp hbias) h0

/-- **The lifetime of a reference-counted object.**  After every fair run, the object and the
`weakref_impl` have been deleted at most once, the object not while there is a strong reference,
the `weakref_impl` not while there is a reference or a call that will use it; and when no call is in
progress, `mStrong` is the number of strong references, and all is deleted that has no reference. -/
theorem lifetime {es : List Event} {s : State} (hrun : run step init es = some s)
    (hfair : Along step Fair init es) :
    s.shared.objectDeleted ≤ 1 ∧ s.shared.implDeleted ≤ 1 ∧
      (0 < s.strongRefs → s.shared.objectDeleted = 0) ∧
      (0 < s.weakRefs → s.shared.implDeleted = 0) ∧
      (∀ i < s.calls.length, Fair s (.act i) → s.shared.implDeleted = 0) ∧
      (s.calls = [] →
        (s.shared.hadStrong = true → s.shared.mStrong = s.shared.strong) ∧
        (s.shared.hadStrong = true → s.shared.strong = 0 → s.shared.objectDeleted = 1) ∧
        (s.shared.hadRef = true → s.shared.strong = 0 → s.shared.weak = 0 →
          s.shared.objectDeleted = 1 ∧ s.shared.implDeleted = 1)) := by
  have hk : Kept s.shared s.calls :=
    run_invariant (I := fun s => Kept s.shared s.calls) step_kept init_kept hfair hrun
  have hb := hk.2
  refine ⟨hb.objectDeleted_le, ?_, hb.objectDeleted_eq_zero (ledger_related _ _),
    hb.implDeleted_eq_zero, fun i hi hf => ?_, fun hnil => Kept.rest (hnil ▸ hk)⟩
  · have ht := hb.teardown_le
    exact le_trans (Nat.le_add_left _ _) ht
  · have hc : s.calls[i]? = some s.calls[i] := getElem?_eq_getElem hi
    exact (hk.eraseIdx hc).impl (ledger_eraseIdx s.shared hc ▸ hf _ hc)

/-- The creator hands out a weak reference, which is promoted while its own first `incStrong` is
still in progress, and all references are released. -/
def promotedEarly : List Event :=
  [.incWeak .creator, .act 0, .incStrongFirst, .act 0, .attemptIncStrong, .act 0, .act 0, .act 0,
    .act 1, .act 0, .act 0, .decStrong, .act 0, .act 0, .decStrong, .act 0, .act 0, .act 0,
    .act 0, .act 0, .decWeak, .act 0, .act 0, .act 0]

theorem lifetime_promotedEarly :
    ∃ s, run step init promotedEarly = some s ∧ Along step Fair init promotedEarly ∧
      s.calls = [] ∧ s.shared.objectDeleted = 1 ∧ s.shared.implDeleted = 1 := by
  have hrun : run step init promotedEarly = some
      ⟨⟨0, 0, 1, 1, 0, 0, false, true, true⟩, []⟩ := by decide +kernel
  have hfair : Along step Fair init promotedEarly := by decide +kernel
  have h := lifetime hrun hfair
  exact ⟨_, hrun, hfair, rfl, (h.2.2.2.2.2 rfl).2.2 rfl rfl rfl⟩

/-- The weak reference is promoted after the creator's `incStrong` found the initial value and
before it takes it off. -/
def overtaken : List Event :=
  [.incWeak .creator, .act 0, .incStrongFirst, .act 0, .act 0, .attemptIncStrong, .act 0, .act 0,
    .act 0, .act 0, .act 0, .act 0, .act 0]

/-- Both references are released, and the weak one. -/
def releasedAll : List Event :=
  [.decStrong, .act 0, .act 0, .decStrong, .act 0, .act 0, .decWeak, .act 0, .act 0, .act 0]

/-- The initial value is taken off twice: at rest `mStrong` is not the number of strong
references, and the object is never deleted. -/
theorem unbiased_twice :
    (∃ s, run step init overtaken = some s ∧ s.calls = [] ∧ s.shared.hadStrong = true ∧
      s.shared.strong = 2 ∧ s.shared.mStrong = 2 - initialStrongValue) ∧
    ∃ s, run step init (overtaken ++ releasedAll) = some s ∧ s.calls = [] ∧
      s.shared.strong = 0 ∧ s.shared.weak = 0 ∧ s.shared.objectDeleted = 0 ∧
      s.shared.implDeleted = 1 :=
  ⟨⟨⟨⟨2 - initialStrongValue, 3, 0, 0, 2, 1, false, true, true⟩, []⟩, by decide +kernel⟩,
    ⟨⟨⟨-initialStrongValue, 0, 0, 1, 0, 0, false, true, true⟩, []⟩, by decide +kernel⟩⟩

end RefBase
