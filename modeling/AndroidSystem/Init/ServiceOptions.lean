/-
The options of a service (`init/init_parser.c`).

`parse_line_service` is called for each line of a section, and resets the I/O class each time.

* `parseLines_perm_iff` — lines of different keywords may stand in any order exactly if none of
  them is `ioprio`, or there is no other;
* `parseLines_ioprio` — an `ioprio` line with another option behind it loses its class.
-/
import Mathlib.Tactic

namespace Init

/-- The options of a service. -/
inductive Keyword
  | className | console | disabled | ioprio | group | keycodes | oneshot | critical | user
  | seclabel
  deriving DecidableEq

/-- `enum` of the scheduling classes. -/
inductive IoSchedClass
  | none | rt | be | idle
  deriving DecidableEq

/-- The fields of a `struct service` that the options set; the flags are apart. -/
structure Service where
  classname : String
  (console disabled rcDisabled oneshot critical : Bool)
  ioprioClass : IoSchedClass
  ioprioPri : ℤ
  gid : ℕ
  suppGids : List ℕ
  keycodes : List ℤ
  uid : ℕ
  seclabel : Option String

/-- What converts an argument; `strtoul` has base 8. -/
structure Convert where
  (strtoul atoi : String → ℤ)
  decodeUid : String → ℕ

/-- `NR_SVC_SUPP_GIDS` -/
def nrSvcSuppGids : ℕ := 12

/-- A keyword and the arguments behind it. -/
abbrev Line := Keyword × List String

/-- `parse_line_service`.  A wrong number of arguments is reported, and nothing is set. -/
def parseLineService (cv : Convert) (svc : Service) (line : Line) : Service :=
  let svc := { svc with ioprioClass := .none }
  let args := line.2
  match line.1 with
  | .className => { svc with classname := if args.length = 1 then args.headI else svc.classname }
  | .console => { svc with console := true }
  | .disabled => { svc with disabled := true, rcDisabled := true }
  | .ioprio =>
    match args with
    | [ioClass, pri] =>
      let svc := { svc with ioprioPri := cv.strtoul pri }
      if svc.ioprioPri < 0 ∨ 7 < svc.ioprioPri then svc
      else if ioClass = "rt" then { svc with ioprioClass := .rt }
      else if ioClass = "be" then { svc with ioprioClass := .be }
      else if ioClass = "idle" then { svc with ioprioClass := .idle }
      else svc
    | _ => svc
  | .group =>
    let fits := 0 < args.length ∧ args.length ≤ nrSvcSuppGids + 1
    { svc with
      gid := if fits then cv.decodeUid args.headI else svc.gid
      suppGids := if fits then args.tail.map cv.decodeUid else svc.suppGids }
  | .keycodes => { svc with keycodes := if args = [] then svc.keycodes else args.map cv.atoi }
  | .oneshot => { svc with oneshot := true }
  | .critical => { svc with critical := true }
  | .user => { svc with uid := if args.length = 1 then cv.decodeUid args.headI else svc.uid }
  | .seclabel => { svc with seclabel := if args.length = 1 then args.head? else svc.seclabel }

/-- The service after a section. -/
def parseLines (cv : Convert) : Service → List Line → Service := List.foldl (parseLineService cv)

variable (cv : Convert) (svc : Service)

/-- The class that a line leaves behind. -/
def lineClass (line : Line) : IoSchedClass := (parseLineService cv svc line).ioprioClass

/-- A service but for its class. -/
def Service.forget : Service := { svc with ioprioClass := .none }

/-- The line has as many arguments as its option takes, and those of `ioprio` are a priority and a
class. -/
def WellFormed (line : Line) : Prop :=
  match line.1 with
  | .className | .user | .seclabel => line.2.length = 1
  | .console | .disabled | .oneshot | .critical => line.2 = []
  | .ioprio => ∃ ioClass pri, line.2 = [ioClass, pri] ∧ 0 ≤ cv.strtoul pri ∧ cv.strtoul pri ≤ 7 ∧
      ioClass ∈ ["rt", "be", "idle"]
  | .group => 0 < line.2.length ∧ line.2.length ≤ nrSvcSuppGids + 1
  | .keycodes => line.2 ≠ []

/-- The last line is `ioprio`. -/
def IoprioLast (lines : List Line) : Prop := ∃ line ∈ lines.getLast?, line.1 = .ioprio

variable {cv svc} {x y : Line} {lines lines' : List Line}

theorem forget_ioprio (ioClass pri : String) :
    (parseLineService cv svc (.ioprio, [ioClass, pri])).forget =
      { svc.forget with ioprioPri := cv.strtoul pri } := by
  simp only [parseLineService, Service.forget]
  split_ifs <;> rfl

/-- Each option sets fields of its own, but for the class. -/
theorem parseLineService_comm (hne : x.1 ≠ y.1) (hx : WellFormed cv x) (hy : WellFormed cv y) :
    (parseLineService cv (parseLineService cv svc x).forget y).forget =
      (parseLineService cv (parseLineService cv svc y).forget x).forget := by
  obtain ⟨kx, ax⟩ := x
  obtain ⟨ky, ay⟩ := y
  cases kx with
  | ioprio =>
    obtain ⟨ioClass, pri, rfl, -⟩ := hx
    rw [forget_ioprio, forget_ioprio]
    cases ky <;> first | rfl | contradiction
  | _ =>
    cases ky with
    | ioprio =>
      obtain ⟨ioClass, pri, rfl, -⟩ := hy
      rw [forget_ioprio, forget_ioprio]
      rfl
    | _ => first | rfl | contradiction

/-- Lines may stand in any order, but for the class. -/
theorem forget_parseLines_perm (hperm : lines.Perm lines') (honce : (lines.map Prod.fst).Nodup)
    (hwf : ∀ line ∈ lines, WellFormed cv line) :
    (parseLines cv svc lines).forget = (parseLines cv svc lines').forget := by
  have hfold : ∀ lines, (parseLines cv svc lines).forget =
      lines.foldl (fun svc line => (parseLineService cv svc line).forget) svc.forget :=
    fun lines => (List.foldl_hom Service.forget fun _ _ => rfl).symm
  rw [hfold, hfold]
  refine hperm.foldl_eq' (fun x hx y hy svc => ?_) svc.forget
  by_cases hxy : x.1 = y.1
  · rw [List.inj_on_of_nodup_map honce hx hy hxy]
  · exact parseLineService_comm hxy (hwf x hx) (hwf y hy)

theorem lineClass_ne_none (svc : Service) (hwf : WellFormed cv x) :
    lineClass cv svc x ≠ .none ↔ x.1 = .ioprio := by
  obtain ⟨k, args⟩ := x
  cases k with
  | ioprio =>
    obtain ⟨ioClass, pri, rfl, hle, hge, hmem⟩ := hwf
    have hpri : ¬ (cv.strtoul pri < 0 ∨ 7 < cv.strtoul pri) := by omega
    simp only [lineClass, parseLineService, hpri, if_false]
    fin_cases hmem <;> simp
  | _ => simp [lineClass, parseLineService]

theorem lineClass_congr (svc' : Service) : lineClass cv svc x = lineClass cv svc' x := by
  obtain ⟨k, args⟩ := x
  cases k with
  | ioprio =>
    simp only [lineClass, parseLineService]
    split
    · split_ifs <;> rfl
    · rfl
  | _ => rfl

/-- The class is the one of the last line. -/
theorem ioprioClass_parseLines (lines : List Line) (last : Line) :
    (parseLines cv svc (lines ++ [last])).ioprioClass = lineClass cv svc last := by
  rw [parseLines, List.foldl_append]
  exact lineClass_congr svc

theorem eq_of_forget {svc svc' : Service} (h : svc.forget = svc'.forget)
    (hclass : svc.ioprioClass = svc'.ioprioClass) : svc = svc' := by
  obtain ⟨⟩ := svc
  obtain ⟨⟩ := svc'
  simp_all [Service.forget]

theorem ioprioLast_concat : IoprioLast (lines ++ [x]) ↔ x.1 = .ioprio := by
  simp [IoprioLast]

/-- Two orders of the lines give one service exactly if `ioprio` is last in both or in neither. -/
theorem parseLines_eq_iff (hperm : lines.Perm lines') (honce : (lines.map Prod.fst).Nodup)
    (hwf : ∀ line ∈ lines, WellFormed cv line) :
    parseLines cv svc lines = parseLines cv svc lines' ↔
      (IoprioLast lines ↔ IoprioLast lines') := by
  obtain rfl | ⟨l, x, rfl⟩ := lines.eq_nil_or_concat
  · rw [hperm.nil_eq]
    exact iff_of_true rfl Iff.rfl
  obtain rfl | ⟨l', y, rfl⟩ := lines'.eq_nil_or_concat
  · exact absurd hperm.eq_nil (by simp)
  simp only [List.concat_eq_append] at hperm honce hwf ⊢
  have hx : x ∈ l ++ [x] := by simp
  have hy : y ∈ l ++ [x] := hperm.mem_iff.mpr (by simp)
  have hclass : parseLines cv svc (l ++ [x]) = parseLines cv svc (l' ++ [y]) ↔
      lineClass cv svc x = lineClass cv svc y := by
    rw [← ioprioClass_parseLines l, ← ioprioClass_parseLines l']
    exact ⟨congrArg _, eq_of_forget (forget_parseLines_perm hperm honce hwf)⟩
  rw [hclass, ioprioLast_concat, ioprioLast_concat]
  constructor
  · intro h
    rw [← lineClass_ne_none svc (hwf x hx), ← lineClass_ne_none svc (hwf y hy), h]
  · intro h
    by_cases hio : x.1 = .ioprio
    · rw [List.inj_on_of_nodup_map honce hx hy (hio.trans (h.mp hio).symm)]
    · have hnone := (lineClass_ne_none svc (hwf x hx)).not.mpr hio
      have hnone' := (lineClass_ne_none svc (hwf y hy)).not.mpr (h.not.mp hio)
      rw [not_not.mp hnone, not_not.mp hnone']

/-- **Options commute** exactly if there is no `ioprio` line or no other line; two orders agree
exactly if `ioprio` is last in both or in neither. -/
theorem parseLines_perm_iff (cv : Convert) (svc : Service) {lines : List Line}
    (honce : (lines.map Prod.fst).Nodup) (hwf : ∀ line ∈ lines, WellFormed cv line) :
    ((∀ lines', lines.Perm lines' → parseLines cv svc lines = parseLines cv svc lines') ↔
      (∀ line ∈ lines, line.1 ≠ .ioprio) ∨ lines.length ≤ 1) ∧
    ∀ lines', lines.Perm lines' → (parseLines cv svc lines = parseLines cv svc lines' ↔
      (IoprioLast lines ↔ IoprioLast lines')) := by
  refine ⟨⟨fun h => ?_, ?_⟩, fun lines' hperm => parseLines_eq_iff hperm honce hwf⟩
  · -- `ioprio` can be put last, and any other line too
    by_contra hnot
    obtain ⟨hio, hlen⟩ := not_or.mp hnot
    push Not at hio hlen
    obtain ⟨x, hx, hxio⟩ := hio
    obtain ⟨l, l', rfl⟩ := List.append_of_mem hx
    obtain ⟨y, m, hy⟩ := List.exists_cons_of_ne_nil (show l ++ l' ≠ [] by
      intro hnil
      obtain ⟨rfl, rfl⟩ := List.append_eq_nil_iff.mp hnil
      simp at hlen)
    have hmid : (l ++ x :: l').Perm (x :: y :: m) := by
      rw [← hy]
      exact List.perm_middle
    have hlast : (l ++ x :: l').Perm (y :: m ++ [x]) :=
      hmid.trans (List.perm_append_singleton x (y :: m)).symm
    have hfirst : (l ++ x :: l').Perm (x :: m ++ [y]) :=
      hmid.trans ((List.Perm.swap y x m).trans (List.perm_append_singleton y (x :: m)).symm)
    have hxlast := (parseLines_eq_iff hlast honce hwf).mp (h _ hlast)
    have hylast := (parseLines_eq_iff hfirst honce hwf).mp (h _ hfirst)
    have hyio := (ioprioLast_concat.symm.trans (hylast.symm.trans hxlast)).mpr
      (ioprioLast_concat.mpr hxio)
    have hnodup := (hmid.map Prod.fst).nodup_iff.mp honce
    rw [List.map_cons, List.map_cons, hxio, hyio] at hnodup
    simp at hnodup
  · rintro (hio | hlen) lines' hperm
    · refine (parseLines_eq_iff hperm honce hwf).mpr (iff_of_false ?_ ?_)
      · rintro ⟨line, hline, hline'⟩
        exact hio line (List.mem_of_getLast? hline) hline'
      · rintro ⟨line, hline, hline'⟩
        exact hio line (hperm.mem_iff.mpr (List.mem_of_getLast? hline)) hline'
    · cases lines with
      | nil => rw [hperm.nil_eq]
      | cons x l =>
        obtain rfl : l = [] := List.length_eq_zero_iff.mp (by simpa using hlen)
        rw [hperm.singleton_eq]

/-- A section in which every number is 4. -/
def sample : List Line → Service :=
  parseLines ⟨fun _ => 4, fun _ => 4, fun _ => 4⟩
    ⟨"default", false, false, false, false, false, .none, 0, 0, [], [], 0, none⟩

/-- Three lines in two orders, with `ioprio` last in neither. -/
theorem parseLines_perm_three :
    sample [(.ioprio, ["rt", "4"]), (.oneshot, []), (.user, ["root"])] =
      sample [(.user, ["root"]), (.ioprio, ["rt", "4"]), (.oneshot, [])] := by
  refine ((parseLines_perm_iff _ _ (by decide) ?_).2 _ (by decide)).mpr ?_
  · simp [WellFormed]
  · simp [IoprioLast]

theorem parseLines_ioprio :
    (sample [(.ioprio, ["rt", "4"]), (.oneshot, [])]).ioprioClass = .none ∧
      (sample [(.oneshot, []), (.ioprio, ["rt", "4"])]).ioprioClass = .rt := by
  decide

end Init
