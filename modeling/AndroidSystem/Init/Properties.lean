/-
Properties (`init/init_parser.c`, `init/property_service.c`).

`queue_property_triggers` looks for triggers that begin with the name of a property that was set,
`queue_all_property_triggers` looks up the name before the first `=` of each trigger.

* `queueAll_iff` — the second queues what the first queues for all properties one by one, unless a
  trigger asks for an absent property with an empty value or `*`;
* `load_after_eq` — wherever calls are cut off, a persistent property is loaded as it was stored or
  as one of the calls sets it, if `write`, whose result is not looked at, takes whole values.
-/
import Mathlib.Data.List.AList
import Mathlib.Data.List.TakeWhile
import Mathlib.Tactic

namespace Init

open Function List

/-- `PROP_NAME_MAX`. -/
def propNameMax : ℕ := 32

/-- `is_legal_property_name`, with its loop as two conditions. -/
def isLegalPropertyName (name : List Char) : Bool :=
  name.length < propNameMax ∧ name ≠ [] ∧ name.head? ≠ some '.' ∧ name.getLast? ≠ some '.' ∧
    ¬ ['.', '.'] <:+: name ∧ name.all fun c => c.isAlphanum ∨ c ∈ ['.', '_', '-']

/-- The properties that are set, under legal names. -/
structure Store where
  props : AList fun _ : List Char => List Char
  legal : ∀ name, ∀ value ∈ props.lookup name, isLegalPropertyName name

theorem Store.name_of_mem (s : Store) {name value : List Char} (h : value ∈ s.props.lookup name) :
    '=' ∉ name ∧ name.length < propNameMax := by
  have hlegal := s.legal name value h
  simp only [isLegalPropertyName, decide_eq_true_eq] at hlegal
  obtain ⟨hlen, _, _, _, _, hchars⟩ := hlegal
  exact ⟨fun hmem => absurd (all_eq_true.mp hchars _ hmem) (by decide), hlen⟩

variable (s : Store) {α : Type} (nameOf : α → List Char) (actions : List α)

/-- `property_get`, which gives the empty string for an absent name. -/
def Store.propertyGet (name : List Char) : List Char := (s.props.lookup name).getD []

/-- What the name of a trigger on a property begins with. -/
def propertyColon : List Char := ['p', 'r', 'o', 'p', 'e', 'r', 't', 'y', ':']

/-- What is behind `property:` in the name of an action. -/
def test (act : α) : List Char := (nameOf act).drop propertyColon.length

/-- `queue_property_triggers`: the actions it queues. -/
def queuePropertyTriggers (name value : List Char) : List α :=
  actions.filter fun act =>
    propertyColon <+: nameOf act ∧ name <+: test nameOf act ∧
      (test nameOf act)[name.length]? = some '=' ∧
      ((test nameOf act).drop (name.length + 1) = value ∨
        (test nameOf act).drop (name.length + 1) = ['*'])

/-- What is before the first `=`. -/
def propName (act : α) : List Char := (test nameOf act).takeWhile (· ≠ '=')

/-- What is behind it. -/
def wanted (act : α) : List Char := (test nameOf act).drop ((propName nameOf act).length + 1)

/-- `queue_all_property_triggers`: the actions it queues. -/
def queueAllPropertyTriggers : List α :=
  actions.filter fun act =>
    propertyColon <+: nameOf act ∧ '=' ∈ test nameOf act ∧
      (propName nameOf act).length ≤ propNameMax ∧
      (wanted nameOf act = s.propertyGet (propName nameOf act) ∨ wanted nameOf act = ['*'])

/-- The two ways to split a trigger agree for names without `=`. -/
theorem isPrefix_and_iff {name t : List Char} (hname : '=' ∉ name) :
    name <+: t ∧ t[name.length]? = some '=' ↔ '=' ∈ t ∧ t.takeWhile (· ≠ '=') = name := by
  have htake {n r : List Char} (hn : '=' ∉ n) : (n ++ '=' :: r).takeWhile (· ≠ '=') = n := by
    have hne : ∀ c ∈ n, decide (c ≠ '=') := fun c hc => decide_eq_true (ne_of_mem_of_not_mem hc hn)
    rw [takeWhile_append_of_pos hne]
    simp
  constructor
  · rintro ⟨⟨r, rfl⟩, heq⟩
    rw [getElem?_append_right le_rfl, Nat.sub_self] at heq
    obtain ⟨r, rfl⟩ := head?_eq_some_iff.mp (head?_eq_getElem?.trans heq)
    exact ⟨by simp, htake hname⟩
  · rintro ⟨hmem, rfl⟩
    obtain ⟨n, r, rfl, hn⟩ := eq_append_cons_of_mem hmem
    rw [htake hn]
    exact ⟨prefix_append _ _, by simp⟩

/-- An action is queued for one of the properties. -/
theorem exists_queued_iff (act : α) :
    (∃ name, ∃ value ∈ s.props.lookup name,
      act ∈ queuePropertyTriggers nameOf actions name value) ↔
    act ∈ actions ∧ propertyColon <+: nameOf act ∧ '=' ∈ test nameOf act ∧
      ∃ value ∈ s.props.lookup (propName nameOf act),
        wanted nameOf act = value ∨ wanted nameOf act = ['*'] := by
  simp only [queuePropertyTriggers, mem_filter, decide_eq_true_eq]
  constructor
  · rintro ⟨name, value, hv, hact, hcolon, hpre, heq, hval⟩
    obtain ⟨hmem, rfl⟩ := (isPrefix_and_iff (s.name_of_mem hv).1).mp ⟨hpre, heq⟩
    exact ⟨hact, hcolon, hmem, value, hv, hval⟩
  · rintro ⟨hact, hcolon, hmem, value, hv, hval⟩
    obtain ⟨hpre, heq⟩ := (isPrefix_and_iff (s.name_of_mem hv).1).mpr ⟨hmem, rfl⟩
    exact ⟨_, value, hv, hact, hcolon, hpre, heq, hval⟩

/-- All triggers are queued as for the properties one by one exactly if none of them asks for an
absent property with a value that is empty or `*`. -/
theorem queueAll_iff :
    (∀ act, act ∈ queueAllPropertyTriggers s nameOf actions ↔ ∃ name, ∃ value ∈ s.props.lookup name,
      act ∈ queuePropertyTriggers nameOf actions name value) ↔
    ∀ act ∈ actions, propertyColon <+: nameOf act → '=' ∈ test nameOf act →
      (propName nameOf act).length ≤ propNameMax → s.props.lookup (propName nameOf act) = none →
      wanted nameOf act ≠ [] ∧ wanted nameOf act ≠ ['*'] := by
  simp only [exists_queued_iff, queueAllPropertyTriggers, mem_filter, decide_eq_true_eq,
    and_congr_right_iff]
  refine forall_congr' fun act => forall₃_congr fun _ _ _ => ?_
  rw [Store.propertyGet]
  cases hlook : s.props.lookup (propName nameOf act) with
  | none => simp
  | some v =>
    simp [(s.name_of_mem hlook).2.le]

/-- With no property at all `property:a=*` is queued. -/
theorem queueAll_absent : ∃ act ∈ queueAllPropertyTriggers ⟨∅, by simp⟩ id
      [propertyColon ++ ['a', '=', '*']], ¬ ∃ name, ∃ value ∈
      (∅ : AList fun _ : List Char => List Char).lookup name,
        act ∈ queuePropertyTriggers id [propertyColon ++ ['a', '=', '*']] name value :=
  ⟨propertyColon ++ ['a', '=', '*'], by decide, by simp⟩

/-! ### Persistent properties -/

/-- `PROP_VALUE_MAX`. -/
def propValueMax : ℕ := 92

/-- `PERSISTENT_PROPERTY_DIR` holds the properties whose names begin so. -/
def persistDot : List Char := ['p', 'e', 'r', 's', 'i', 's', 't', '.']

/-- `PERSISTENT_PROPERTY_DIR`: the files with the mode, owner and links that the loader wants. -/
abbrev Dir := List Char → Option (List Char)

/-- A call of `property_set`, and what happens in it: if the property area takes the value, what
`mkstemp` puts for the `X`s, how much is written and if the file is renamed. -/
structure Call where
  (name value : List Char)
  noNul : '\x00' ∉ value
  added : Bool
  temp : Option (List Char)
  written : ℕ
  renamed : Bool

/-- `write_persistent_property`: its operations, one after the other. -/
def writePersistentProperty (c : Call) : List (Dir → Dir) :=
  match c.temp with
  | none => []
  | some x =>
    let tempPath := ['.', 't', 'e', 'm', 'p', '.'] ++ x
    [fun d => update d tempPath (some []),
      fun d => update d tempPath (some (c.value.take c.written)),
      fun d => update (if c.renamed then update d c.name (d tempPath) else d) tempPath none]

/-- `property_set`, after the properties were loaded. -/
def propertySet (c : Call) : List (Dir → Dir) :=
  if isLegalPropertyName c.name ∧ c.value.length < propValueMax ∧ c.added ∧
      persistDot <+: c.name then
    writePersistentProperty c
  else []

/-- `load_persistent_properties`: the value it sets for a name. -/
def loadPersistentProperties (d : Dir) (name : List Char) : Option (List Char) :=
  if persistDot <+: name ∧ isLegalPropertyName name then
    (d name).map fun bytes => (bytes.take (propValueMax - 1)).takeWhile (· ≠ '\x00')
  else none

/-- The directory when `k` operations of a call were made. -/
def during (c : Call) (k : ℕ) (d : Dir) : Dir :=
  ((propertySet c).take k).foldl (fun d op => op d) d

/-- The directory when `k` operations of these calls were made. -/
def after : List Call → ℕ → Dir → Dir
  | [], _, d => d
  | c :: calls, k, d => after calls (k - (propertySet c).length) (during c k d)

variable {name : List Char}

/-- In one call the file of a property stays or is replaced. -/
theorem during_eq (hname : persistDot <+: name) (c : Call) (k : ℕ) (d : Dir) :
    during c k d name = d name ∨ c.name = name ∧ c.value.length < propValueMax ∧
      during c k d name = some (c.value.take c.written) := by
  simp only [during, propertySet]
  split_ifs with hset
  · rw [writePersistentProperty]
    cases c.temp with
    | none => simp
    | some x =>
      dsimp only
      generalize ht : ['.', 't', 'e', 'm', 'p', '.'] ++ x = temp
      have hne : name ≠ temp := by
        rintro rfl
        simp [← ht, persistDot] at hname
      -- the cut is before one of the operations or behind the last
      rcases k with _ | _ | _ | k
      · simp
      · simp [hne]
      · simp [hne]
      · cases c.renamed with
        | false => simp [hne]
        | true =>
          by_cases hc : name = c.name
          · simp [hne, hc.symm, hset.2.1]
          · simp [hne, hc]
  · simp

/-- In a sequence of calls that is cut off at any place too. -/
theorem after_eq (hname : persistDot <+: name) (calls : List Call) (k : ℕ) (d : Dir) :
    after calls k d name = d name ∨ ∃ c ∈ calls, c.name = name ∧
      c.value.length < propValueMax ∧ after calls k d name = some (c.value.take c.written) := by
  induction calls generalizing d k with
  | nil => exact Or.inl rfl
  | cons c calls ih =>
    rw [after]
    rcases ih (k - (propertySet c).length) (during c k d) with heq | ⟨c', hc', h⟩
    · rw [heq]
      rcases during_eq hname c k d with heq | ⟨hc, hlt, heq⟩
      · exact Or.inl heq
      · exact Or.inr ⟨c, mem_cons_self, hc, hlt, heq⟩
    · exact Or.inr ⟨c', mem_cons_of_mem _ hc', h⟩

/-- The loader sets the whole of a value that fits and has no NUL. -/
theorem load_eq_some {d : Dir} {f : List Char} (hname : persistDot <+: name)
    (hlegal : isLegalPropertyName name) (hf : d name = some f) (hlen : f.length < propValueMax)
    (hnul : '\x00' ∉ f) : loadPersistentProperties d name = some f := by
  have hwhole : (f.take (propValueMax - 1)).takeWhile (· ≠ '\x00') = f := by
    rw [take_of_length_le (Nat.le_sub_one_of_lt hlen), takeWhile_eq_self_iff]
    exact fun c hc => decide_eq_true (ne_of_mem_of_not_mem hc hnul)
  rw [loadPersistentProperties, if_pos ⟨hname, hlegal⟩, hf, Option.map_some, hwhole]

/-- **Persistent properties survive**: after calls that were cut off at any place the loader sets
what was stored before, or the value of a call, if `write` took whole values. -/
theorem load_after_eq (hname : persistDot <+: name) (hlegal : isLegalPropertyName name)
    (calls : List Call) (k : ℕ) (d : Dir)
    (hwrite : ∀ c ∈ calls, c.name = name → c.value.length ≤ c.written)
    (hold : ∀ f ∈ d name, f.length < propValueMax ∧ '\x00' ∉ f) :
    loadPersistentProperties (after calls k d) name = d name ∨ ∃ c ∈ calls, c.name = name ∧
      loadPersistentProperties (after calls k d) name = some c.value := by
  rcases after_eq hname calls k d with heq | ⟨c, hc, hcname, hlt, heq⟩
  · left
    cases hf : d name with
    | none => rw [loadPersistentProperties, heq, hf, Option.map_none, ite_self]
    | some f => exact load_eq_some hname hlegal (heq.trans hf) (hold f hf).1 (hold f hf).2
  · rw [take_of_length_le (hwrite c hc hcname)] at heq
    exact Or.inr ⟨c, hc, hcname, load_eq_some hname hlegal heq hlt c.noNul⟩

/-- `persist.x` -/
def persistX : List Char := persistDot ++ ['x']

/-- A call that sets it to `ab`. -/
def setAB (written : ℕ) (renamed : Bool) : Call :=
  ⟨persistX, ['a', 'b'], by decide, true, some [], written, renamed⟩

/-- A file is there; one call fails to rename, and the next is cut off before it renames. -/
theorem load_after_eq_crash :
    let d := after [setAB 2 false, setAB 2 true] 5 (update (fun _ => none) persistX (some ['o']))
    loadPersistentProperties d persistX = some ['o'] ∧
      (loadPersistentProperties d persistX = some ['o'] ∨
        ∃ c ∈ [setAB 2 false, setAB 2 true], c.name = persistX ∧
          loadPersistentProperties d persistX = some c.value) :=
  ⟨by decide, load_after_eq (by decide) (by decide) [setAB 2 false, setAB 2 true] 5
    (update (fun _ => none) persistX (some ['o'])) (by decide) (by simp [propValueMax])⟩

/-- One byte of two is written. -/
theorem load_short :
    ['a'] ∈ loadPersistentProperties (after [setAB 1 true] 3 fun _ => none) persistX := by
  decide

end Init
