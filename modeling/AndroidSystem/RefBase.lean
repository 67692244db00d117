/-
Reference counting in `RefBase`.

An object with the usual lifetime (`OBJECT_LIFETIME_STRONG`) shares its counters
`mStrong` and `mWeak` with a `weakref_impl` that outlives it.  `mStrong` starts at
`INITIAL_STRONG_VALUE`, which the first strong reference takes off again in a step of
its own.

The model has one atomic step of the source at a time.  A `Call` is a call in
progress, with what it does next and the local value `curCount`; the calls of any
number of threads are in progress together, and an `Event` starts a call or takes
the next step of one.  A call holds on to the reference that entitles its caller to
it, so that no other call can give it up in between.  `android_atomic_inc`,
`android_atomic_dec` and `android_atomic_add` return the old value;
`android_atomic_cmpxchg` stores the new one if it finds the expected one.  Debugging
aids are left out.
-/
import AndroidSystem.CInt
import AndroidSystem.Runs

open CInt

namespace RefBase

/-! ### Calls -/

/-- `INITIAL_STRONG_VALUE` -/
def initialStrongValue : ℤ := 2 ^ 28

/-- What entitles a caller to `incWeak`: a strong reference, a weak one, or being the creator. -/
inductive Holder
  | strong | weak | creator
  deriving DecidableEq, Repr

/-- A call in progress, named after what it does next.  For `incStrong`, `first` says that it is the
creator's first one; for the end of `decWeak`, `attempt` says that it belongs to an
`attemptIncStrong` that gives up. -/
inductive Call
  | incStrongWeak (first : Bool)
  | incStrongInc (first : Bool)
  | incStrongSub (first : Bool)
  | incStrongFirstRef (first : Bool)
  | decStrongDec
  | decStrongLast
  | decStrongDelete
  | decStrongDtor
  | incWeakInc (holder : Holder)
  | decWeakDec (attempt : Bool)
  | decWeakTest (attempt : Bool)
  | decWeakDeleteBase (attempt : Bool)
  | decWeakDtor (attempt : Bool)
  | decWeakDeleteImpl (attempt : Bool)
  | attemptWeak
  | attemptLoad
  | attemptEasy (curCount : ℤ)
  | attemptHard (curCount : ℤ)
  | attemptHardLoad
  | attemptLast
  | fixLoad
  | fixCas (curCount : ℤ)
  deriving DecidableEq, Repr

/-- The counters, the deletions so far, and the references that are held outside of calls.
`creator` says that the creator is free to make its first strong reference; `hadStrong` and
`hadRef` record that there has been a strong reference, and any reference. -/
structure Shared where
  mStrong : ℤ
  mWeak : ℤ
  objectDeleted : ℕ
  implDeleted : ℕ
  strong : ℕ
  weak : ℕ
  creator : Bool
  hadStrong : Bool
  hadRef : Bool
  deriving DecidableEq, Repr

/-- A strong reference is handed out; a caller that is not the creator has its own back. -/
def Shared.grantStrong (m : Shared) (first : Bool) : Shared :=
  { m with strong := m.strong + (if first then 1 else 2), hadStrong := true }

/-- A weak reference is handed out, and the caller has back what entitled it. -/
def Shared.grantWeak (m : Shared) : Holder → Shared
  | .strong => { m with weak := m.weak + 1, strong := m.strong + 1 }
  | .weak => { m with weak := m.weak + 2 }
  | .creator => { m with weak := m.weak + 1, creator := true }

/-- The end of a `decWeak`; an `attemptIncStrong` that gave up has its weak reference back. -/
def Shared.giveUp (m : Shared) (attempt : Bool) : Shared :=
  { m with weak := m.weak + (if attempt then 1 else 0) }

/-- An `attemptIncStrong` returns `true`. -/
def Shared.promote (m : Shared) : Shared :=
  { m with weak := m.weak + 1, strong := m.strong + 1, hadStrong := true }

/-- `~RefBase` deletes the `weakref_impl` of an object that never had a strong reference. -/
def Shared.dtor (m : Shared) : Shared :=
  if m.mStrong = initialStrongValue then { m with implDeleted := m.implDeleted + 1 } else m

/-- The next step of a call, and what is left of it. -/
def exec (m : Shared) : Call → Shared × Option Call
  | .incStrongWeak first =>
    ({ m with mWeak := s32 (m.mWeak + 1), hadRef := true }, some (.incStrongInc first))
  | .incStrongInc first =>
    let c := m.mStrong
    let m := { m with mStrong := s32 (m.mStrong + 1) }
    if c ≠ initialStrongValue then (m.grantStrong first, none) else (m, some (.incStrongSub first))
  | .incStrongSub first =>
    ({ m with mStrong := s32 (m.mStrong - initialStrongValue) }, some (.incStrongFirstRef first))
  | .incStrongFirstRef first => (m.grantStrong first, none)
  | .decStrongDec =>
    let c := m.mStrong
    ({ m with mStrong := s32 (m.mStrong - 1) },
      some (if c = 1 then .decStrongLast else .decWeakDec false))
  | .decStrongLast => (m, some .decStrongDelete)
  | .decStrongDelete => ({ m with objectDeleted := m.objectDeleted + 1 }, some .decStrongDtor)
  | .decStrongDtor => (m.dtor, some (.decWeakDec false))
  | .incWeakInc holder =>
    ({ m with mWeak := s32 (m.mWeak + 1), hadRef := true }.grantWeak holder, none)
  | .decWeakDec attempt =>
    let c := m.mWeak
    let m := { m with mWeak := s32 (m.mWeak - 1) }
    if c ≠ 1 then (m.giveUp attempt, none) else (m, some (.decWeakTest attempt))
  | .decWeakTest attempt =>
    -- a first strong reference was never made, or the object is gone
    if m.mStrong = initialStrongValue then (m, some (.decWeakDeleteBase attempt))
    else (m, some (.decWeakDeleteImpl attempt))
  | .decWeakDeleteBase attempt =>
    ({ m with objectDeleted := m.objectDeleted + 1 }, some (.decWeakDtor attempt))
  | .decWeakDtor attempt => (m.dtor.giveUp attempt, none)
  | .decWeakDeleteImpl attempt =>
    ({ m with implDeleted := m.implDeleted + 1 }.giveUp attempt, none)
  | .attemptWeak =>
    ({ m with mWeak := s32 (m.mWeak + 1), hadRef := true }, some .attemptLoad)
  | .attemptLoad =>
    let curCount := m.mStrong
    if 0 < curCount ∧ curCount ≠ initialStrongValue then (m, some (.attemptEasy curCount))
    else if curCount ≤ 0 then (m, some (.decWeakDec true))
    else (m, some (.attemptHard curCount))
  | .attemptEasy curCount =>
    if m.mStrong = curCount then ({ m with mStrong := s32 (curCount + 1) }, some .fixLoad)
    else (m, some .attemptLoad)
  | .attemptHard curCount =>
    if m.mStrong = curCount then
      ({ m with mStrong := s32 (curCount + 1) },
        some (if curCount < initialStrongValue then .attemptLast else .fixLoad))
    else (m, some .attemptHardLoad)
  | .attemptHardLoad =>
    let curCount := m.mStrong
    if 0 < curCount then (m, some (.attemptHard curCount)) else (m, some (.decWeakDec true))
  | .attemptLast => (m, some .fixLoad)
  | .fixLoad =>
    let curCount := m.mStrong
    if initialStrongValue ≤ curCount then (m, some (.fixCas curCount)) else (m.promote, none)
  | .fixCas curCount =>
    if m.mStrong = curCount then
      ({ m with mStrong := s32 (curCount - initialStrongValue) }.promote, none)
    else (m, some .fixLoad)

/-! ### The machine -/

/-- The counters and the calls in progress. -/
structure State where
  shared : Shared
  calls : List Call
  deriving DecidableEq, Repr

/-- A call that starts, or the next step of call `i`. -/
inductive Event
  | incStrong | incStrongFirst | decStrong | incWeak (holder : Holder) | decWeak | attemptIncStrong
  | act (i : ℕ)
  deriving DecidableEq, Repr

/-- The object as `RefBase::RefBase` leaves it. -/
def init : State := ⟨⟨initialStrongValue, 0, 0, 0, 0, 0, true, false, false⟩, []⟩

/-- A call starts.  It takes the reference that entitles its caller to it. -/
def start (s : State) (m : Shared) (c : Call) : State := ⟨m, c :: s.calls⟩

/-- One event, if it is possible. -/
def step (s : State) : Event → Option State
  | .incStrong =>
    if 0 < s.shared.strong then
      some (start s { s.shared with strong := s.shared.strong - 1 } (.incStrongWeak false))
    else none
  | .incStrongFirst =>
    if s.shared.creator then
      some (start s { s.shared with creator := false } (.incStrongWeak true))
    else none
  | .decStrong =>
    if 0 < s.shared.strong then
      some (start s { s.shared with strong := s.shared.strong - 1 } .decStrongDec)
    else none
  | .incWeak .strong =>
    if 0 < s.shared.strong then
      some (start s { s.shared with strong := s.shared.strong - 1 } (.incWeakInc .strong))
    else none
  | .incWeak .weak =>
    if 0 < s.shared.weak then
      some (start s { s.shared with weak := s.shared.weak - 1 } (.incWeakInc .weak))
    else none
  | .incWeak .creator =>
    if s.shared.creator then
      some (start s { s.shared with creator := false } (.incWeakInc .creator))
    else none
  | .decWeak =>
    if 0 < s.shared.weak then
      some (start s { s.shared with weak := s.shared.weak - 1 } (.decWeakDec false))
    else none
  | .attemptIncStrong =>
    if 0 < s.shared.weak then
      some (start s { s.shared with weak := s.shared.weak - 1 } .attemptWeak)
    else none
  | .act i =>
    match s.calls[i]? with
    | none => none
    | some c =>
      let (m, c') := exec s.shared c
      some ⟨m, c'.toList ++ s.calls.eraseIdx i⟩

end RefBase
