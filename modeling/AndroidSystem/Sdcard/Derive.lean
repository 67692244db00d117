/-
Permissions that `sdcard` derives from the position of a file (`sdcard/sdcard.c`).

Each node of the emulated storage gets an owner, a group and a mode when it is made, from its
name and from what its parent got; `perm` says what kind of directory the parent is.  Below
`/Android/data` and `/Android/obb` the owner is the application whose package has that name.

* `derive` is `derive_permissions_locked`; `derivePath` follows a path from the root.
* Names are compared without regard to case (`strcasecmp`), except in the table of
  packages: its comparison ignores case, but its hash function does not, and an entry is found only
  if the hash codes agree.

`same_iff` says for which spellings of a path the derived state can depend on case: those that
differ in the hash code of a name below `/Android/data` or `/Android/obb`.
-/
import Mathlib.Data.List.TakeWhile
import AndroidSystem.CInt
import AndroidSystem.Sdcard.Hashmap

open CInt List

namespace Sdcard

/-- The bytes of a name. -/
abbrev Name := List UInt8

/-! ### Names -/

/-- `tolower`, in the C locale. -/
def toLower (c : UInt8) : UInt8 := if 65 ≤ c ∧ c ≤ 90 then c + 32 else c

/-- `strcasecmp` finds no difference. -/
def icaseEq (a b : Name) : Bool := a.map toLower == b.map toLower

/-- The characters of a name written as text. -/
def text (s : String) : Name := s.toList.map fun c => UInt8.ofNat c.toNat

/-- `isspace`, in the C locale. -/
def isSpace (c : UInt8) : Bool := c = 32 || (9 ≤ c && c ≤ 13)

/-- The digits of `strtoul`. -/
def isDigit (c : UInt8) : Bool := 48 ≤ c && c ≤ 57

/-- The sign of a number, and the rest. -/
def sign : Name → Bool × Name
  | [] => (false, [])
  | c :: s => if c = 45 then (true, s) else if c = 43 then (false, s) else (false, c :: s)

/-- `strtoul(name, NULL, 10)`, for 32 bits. -/
def strtoul (name : Name) : ℕ :=
  let (negative, s) := sign (name.dropWhile isSpace)
  let n := (s.takeWhile isDigit).foldl (fun n c => 10 * n + (c.toNat - 48)) 0
  if 2 ^ 32 ≤ n then 2 ^ 32 - 1 else if negative then usub 0 n else n

/-- The functions of the table of packages: `str_hash` and `str_icase_equals`. -/
def packageKeys : Hashmap.Keys Name := ⟨Hashmap.hashmapHash, icaseEq⟩

/-! ### Permissions -/

/-- `perm_t` -/
inductive Perm
  | inherit | legacyPreRoot | root | android | androidData | androidObb | androidUser
  deriving DecidableEq, Repr

/-- `derive_t` -/
inductive DeriveMode
  | none | legacy | unified
  deriving DecidableEq, Repr

/-- The state of a node that is derived from its position; `grafted` says that the shared OBB
directory is at its place. -/
structure Derived where
  perm : Perm
  userid : ℕ
  uid : ℕ
  gid : ℕ
  mode : ℕ
  grafted : Bool
  deriving DecidableEq, Repr

/-- The parts of `struct fuse` that say how to derive. -/
structure Config where
  derive : DeriveMode
  splitPerms : Bool
  deriving DecidableEq, Repr

/-- The table of packages. -/
abbrev Packages := Hashmap.Table Name ℕ

/-- `multiuser_get_uid` -/
def multiuserGetUid (userId appId : ℕ) : ℕ := u32 (userId * 100000 + appId % 100000)

/-- The root, as `fuse_init` sets it up. -/
def rootDerived (c : Config) : Derived :=
  match c.derive with
  | .none => ⟨.root, 0, 0, 1015, 0o775, false⟩
  | .legacy => ⟨.legacyPreRoot, 0, 0, 1028, 0o771, false⟩
  | .unified => ⟨.root, 0, 0, 1028, 0o771, false⟩

/-- The directories of pictures below a user. -/
def pictureNames : List Name := [text "DCIM", text "Pictures"]

/-- The directories of audio files below a user. -/
def audioNames : List Name :=
  [text "Alarms", text "Movies", text "Music", text "Notifications", text "Podcasts",
    text "Ringtones"]

/-- `derive_permissions_locked`, for a new node. -/
def derive (c : Config) (packages : Packages) (parent : Derived) (name : Name) : Derived :=
  let d : Derived := { parent with perm := .inherit, grafted := false }
  if c.derive = .none then d
  else
    match parent.perm with
    | .inherit => d
    | .legacyPreRoot => { d with perm := .root, userid := strtoul name }
    | .root =>
      let d := { d with mode := 0o770 }
      if icaseEq name (text "Android") then { d with perm := .android, mode := 0o771 }
      else if c.splitPerms then
        if pictureNames.any (icaseEq name) then { d with gid := 1033 }
        else if audioNames.any (icaseEq name) then { d with gid := 1034 }
        else d
      else d
    | .android =>
      if icaseEq name (text "data") then { d with perm := .androidData, mode := 0o771 }
      else if icaseEq name (text "obb") then
        { d with perm := .androidObb, mode := 0o771, grafted := true }
      else if icaseEq name (text "user") then
        { d with perm := .androidUser, gid := 1035, mode := 0o770 }
      else d
    | .androidData | .androidObb =>
      let appid := (Hashmap.get packageKeys name packages).getD 0
      let d := if appid ≠ 0 then { d with uid := multiuserGetUid parent.userid appid } else d
      { d with mode := 0o770 }
    | .androidUser =>
      { d with perm := .root, userid := strtoul name, gid := 1028, mode := 0o771 }

/-- The state of a node that is found by lookups from the root. -/
def derivePath (c : Config) (packages : Packages) (path : List Name) : Derived :=
  path.foldl (derive c packages) (rootDerived c)

/-! ### The package list -/

/-- What `sscanf` can read as a package name: a word. -/
def PackageName (name : Name) : Prop := name ≠ [] ∧ ∀ c ∈ name, ¬ isSpace c ∧ c ≠ 0

instance (name : Name) : Decidable (PackageName name) := inferInstanceAs (Decidable (_ ∧ _))

/-- A line of the package list, with what is used for the table. -/
structure Package where
  name : Name
  appid : ℕ
  word : PackageName name

/-- `read_package_list`, which starts by emptying the table: its buckets remain. -/
def readPackageList (bucketCount : ℕ) (l : List (Package × Hashmap.Memory)) : Packages :=
  l.foldl (fun m p => Hashmap.put packageKeys p.2 p.1.name p.1.appid m)
    (Hashmap.create bucketCount)

/-! ### Letter case -/

variable {b a : Name} {c : Config} {d : Derived}

/-- The paths differ only in the case of letters. -/
def SameButCase (p q : List Name) : Prop := List.Forall₂ (fun a b => icaseEq a b = true) p q

/-- The kind of a node, which does not depend on the packages. -/
def permOf (c : Config) (perm : Perm) (name : Name) : Perm :=
  (derive c (Hashmap.create 1) ⟨perm, 0, 0, 0, 0, false⟩ name).perm

/-- Below `/Android/data` and `/Android/obb`, the names of packages have the same hash codes. -/
def HashesAgree (c : Config) : Perm → List Name → List Name → Prop
  | perm, a :: p, b :: q =>
    (perm = .androidData ∨ perm = .androidObb → PackageName a →
      Hashmap.hashKey packageKeys a = Hashmap.hashKey packageKeys b) ∧
    HashesAgree c (permOf c perm a) p q
  | _, _, _ => True

theorem toLower_cases (c : UInt8) : isSpace (toLower c) = isSpace c ∧
    isDigit (toLower c) = isDigit c ∧ (isDigit c = true → toLower c = c) ∧
    (toLower c = 45 ↔ c = 45) ∧ (toLower c = 43 ↔ c = 43) ∧ (toLower c = 0 ↔ c = 0) := by
  have h : ∀ n : Fin 256, isSpace (toLower (UInt8.ofNat n)) = isSpace (UInt8.ofNat n) ∧
      isDigit (toLower (UInt8.ofNat n)) = isDigit (UInt8.ofNat n) ∧
      (isDigit (UInt8.ofNat n) = true → toLower (UInt8.ofNat n) = UInt8.ofNat n) ∧
      (toLower (UInt8.ofNat n) = 45 ↔ UInt8.ofNat n = 45) ∧
      (toLower (UInt8.ofNat n) = 43 ↔ UInt8.ofNat n = 43) ∧
      (toLower (UInt8.ofNat n) = 0 ↔ UInt8.ofNat n = 0) := by decide +kernel
  have hc := h ⟨c.toNat, c.toNat_lt⟩
  rwa [UInt8.ofNat_toNat] at hc

theorem sign_lower (s : Name) : sign (s.map toLower) = ((sign s).1, (sign s).2.map toLower) := by
  cases s with
  | nil => rfl
  | cons c s =>
    obtain ⟨-, -, -, h45, h43, -⟩ := toLower_cases c
    simp only [sign, map_cons, h45, h43]
    split_ifs <;> rfl

theorem strtoul_lower (name : Name) : strtoul (name.map toLower) = strtoul name := by
  have hspace : isSpace ∘ toLower = isSpace := funext fun c => (toLower_cases c).1
  have hdigit : isDigit ∘ toLower = isDigit := funext fun c => (toLower_cases c).2.1
  have hsame : ∀ s : Name, (s.takeWhile isDigit).map toLower = s.takeWhile isDigit := fun s =>
    (map_congr_left fun c hc =>
      (toLower_cases c).2.2.1 (mem_takeWhile_imp hc)).trans (map_id _)
  simp only [strtoul, dropWhile_map, hspace, sign_lower, takeWhile_map, hdigit, hsame]

theorem icaseEq_iff : icaseEq a b = true ↔ a.map toLower = b.map toLower :=
  beq_iff_eq

section

variable (h : icaseEq a b = true)
include h

theorem icaseEq_congr (x : Name) :
    icaseEq a x = icaseEq b x ∧ icaseEq x a = icaseEq x b := by
  rw [icaseEq_iff] at h
  exact ⟨by rw [icaseEq, h]; rfl, by rw [icaseEq, h]; rfl⟩

theorem strtoul_congr : strtoul a = strtoul b := by
  rw [← strtoul_lower a, icaseEq_iff.mp h, strtoul_lower]

/-- Case changes nothing, except for the table of packages. -/
theorem derive_congr {packages : Packages}
    (hget : d.perm = .androidData ∨ d.perm = .androidObb →
      Hashmap.get packageKeys a packages = Hashmap.get packageKeys b packages) :
    derive c packages d a = derive c packages d b := by
  have hx : icaseEq a = icaseEq b := funext fun x => (icaseEq_congr h x).1
  by_cases hperm : d.perm = .androidData ∨ d.perm = .androidObb
  · rw [derive, derive, hx, strtoul_congr h, hget hperm]
  · rw [derive, derive, hx, strtoul_congr h]
    rw [not_or] at hperm
    obtain ⟨perm, _, _, _, _, _⟩ := d
    cases perm with
    | androidData => exact absurd rfl hperm.1
    | androidObb => exact absurd rfl hperm.2
    | _ => rfl

/-! ### Entries of the table -/

theorem packageName_congr (ha : PackageName a) :
    PackageName b := by
  rw [icaseEq_iff] at h
  refine ⟨?_, fun y hy => ?_⟩
  · rintro rfl
    exact ha.1 (map_eq_nil_iff.mp h)
  · obtain ⟨x, hx, hxy⟩ := mem_map.mp (h ▸ mem_map_of_mem hy)
    obtain ⟨hs, h0⟩ := ha.2 x hx
    obtain ⟨hsx, -, -, -, -, h0x⟩ := toLower_cases x
    obtain ⟨hsy, -, -, -, -, h0y⟩ := toLower_cases y
    rw [← hsy, ← hxy, hsx, Ne, ← h0y, ← hxy, h0x]
    exact ⟨hs, h0⟩

end

theorem readPackageList_words (n : ℕ) (l : List (Package × Hashmap.Memory)) :
    Hashmap.Every PackageName (readPackageList n l) := by
  have hfold : ∀ (l : List (Package × Hashmap.Memory)) (m : Packages),
      Hashmap.Every PackageName m → Hashmap.Every PackageName
        (l.foldl (fun m p => Hashmap.put packageKeys p.2 p.1.name p.1.appid m) m) := by
    intro l
    induction l with
    | nil => exact fun m hm => hm
    | cons p l ih => exact fun m hm => ih _ (Hashmap.put_every hm p.1.word p.2 p.1.appid)
  exact hfold l _ (Hashmap.create_every _ n)

theorem get_of_not_word {n : ℕ} {l : List (Package × Hashmap.Memory)} (ha : ¬ PackageName a) :
    Hashmap.get packageKeys a (readPackageList n l) = none := by
  refine Hashmap.get_eq_none (readPackageList_words n l) fun x hx => ?_
  rw [Bool.eq_false_iff]
  exact fun h => ha (packageName_congr h hx)

/-! ### Paths -/

variable {q p : List Name}

theorem derive_none (h : c.derive = .none) (m : Packages) (d : Derived) (a : Name) :
    derive c m d a = { d with perm := .inherit, grafted := false } := if_pos h

theorem derive_perm (c : Config) (packages : Packages) (d : Derived) (a : Name) :
    (derive c packages d a).perm = permOf c d.perm a := by
  by_cases hn : c.derive = .none
  · rw [permOf, derive_none hn, derive_none hn]
  · obtain ⟨perm, userid, uid, gid, mode, grafted⟩ := d
    rw [permOf, derive, derive, if_neg hn, if_neg hn]
    cases perm with
    | inherit | legacyPreRoot | androidUser => rfl
    | root | android | androidData | androidObb =>
      dsimp only
      split_ifs <;> rfl

/-- Where no packages are looked up, the table does not matter, and the owner is inherited. -/
theorem derive_of_other (h : ¬ (d.perm = .androidData ∨ d.perm = .androidObb)) (m m' : Packages)
    (a : Name) :
    derive c m d a = derive c m' d a ∧ (derive c m d a).uid = d.uid := by
  rw [not_or] at h
  by_cases hn : c.derive = .none
  · rw [derive_none hn, derive_none hn]
    exact ⟨rfl, rfl⟩
  · obtain ⟨perm, userid, uid, gid, mode, grafted⟩ := d
    rw [derive, derive, if_neg hn, if_neg hn]
    cases perm with
    | androidData => exact absurd rfl h.1
    | androidObb => exact absurd rfl h.2
    | inherit | legacyPreRoot | androidUser => exact ⟨rfl, rfl⟩
    | root | android =>
      refine ⟨rfl, ?_⟩
      dsimp only
      split_ifs <;> rfl

theorem permOf_package (c : Config) {perm : Perm} (h : perm = .androidData ∨ perm = .androidObb)
    (a : Name) : permOf c perm a = .inherit := by
  by_cases hn : c.derive = .none
  · rw [permOf, derive_none hn]
  · rw [permOf, derive, if_neg hn]
    rcases h with rfl | rfl <;> dsimp only <;> split_ifs <;> rfl

theorem permOf_inherit (c : Config) (a : Name) : permOf c .inherit a = .inherit := by
  simp only [permOf, derive, ite_self]

theorem hashesAgree_inherit (c : Config) (p q : List Name) : HashesAgree c .inherit p q := by
  induction p generalizing q with
  | nil => cases q <;> trivial
  | cons a p ih =>
    cases q with
    | nil => trivial
    | cons b q =>
      refine ⟨fun h => absurd h (by decide), ?_⟩
      rw [permOf_inherit]
      exact ih q

theorem foldl_uid_inherit (c : Config) (m : Packages) (p : List Name) : ∀ d : Derived,
    d.perm = .inherit → (p.foldl (derive c m) d).uid = d.uid := by
  induction p with
  | nil => exact fun d _ => rfl
  | cons a p ih =>
    intro d hd
    have hno : ¬ (d.perm = .androidData ∨ d.perm = .androidObb) := by rw [hd]; decide
    rw [foldl_cons, ih _ (by rw [derive_perm, hd, permOf_inherit]),
      (derive_of_other hno m m a).2]

/-- Spellings whose hash codes agree get the same state. -/
theorem foldl_of_hashesAgree (c : Config) (n : ℕ) (l : List (Package × Hashmap.Memory))
    (hpq : SameButCase p q) : ∀ d : Derived, HashesAgree c d.perm p q →
    p.foldl (derive c (readPackageList n l)) d = q.foldl (derive c (readPackageList n l)) d := by
  induction hpq with
  | nil => exact fun _ _ => rfl
  | @cons a b p q hab _ ih =>
    rintro d ⟨hhash, hrest⟩
    have hstep : derive c (readPackageList n l) d a = derive c (readPackageList n l) d b := by
      refine derive_congr hab fun hperm => ?_
      by_cases ha : PackageName a
      · exact Hashmap.get_congr (hhash hperm ha) (fun x => (icaseEq_congr hab x).2) _
      · have hb : ¬ PackageName b := fun hb =>
          ha (packageName_congr ((icaseEq_congr hab a).1 ▸ (icaseEq_iff.mpr rfl)) hb)
        rw [get_of_not_word ha, get_of_not_word hb]
    rw [foldl_cons, foldl_cons, hstep]
    refine ih _ ?_
    rw [← hstep, derive_perm]
    exact hrest

/-- The owner of a directory that may be that of a package. -/
theorem derive_uid (hc : c.derive ≠ .none) (h : d.perm = .androidData ∨ d.perm = .androidObb)
    (m : Packages) (a : Name) :
    (derive c m d a).uid = if (Hashmap.get packageKeys a m).getD 0 ≠ 0 then
      multiuserGetUid d.userid ((Hashmap.get packageKeys a m).getD 0) else d.uid := by
  obtain ⟨perm, userid, uid, gid, mode, grafted⟩ := d
  rw [derive, if_neg hc]
  rcases h with h | h <;> cases h <;> dsimp only <;> split_ifs <;> rfl

/-- The list with one package. -/
def onePackage (a : Name) (ha : PackageName a) : Packages :=
  readPackageList 512 [(⟨a, 10001, ha⟩, ⟨true, true⟩)]

/-- Otherwise there is a package that makes a difference. -/
theorem exists_package (c : Config) (hc : c.derive ≠ .none) (hpq : SameButCase p q) :
    ∀ d : Derived, d.uid = 0 → ¬ HashesAgree c d.perm p q →
    ∃ a ha, (p.foldl (derive c (onePackage a ha)) d).uid ≠
      (q.foldl (derive c (onePackage a ha)) d).uid := by
  induction hpq with
  | nil => exact fun _ _ h => absurd trivial h
  | @cons a b p q hab _ ih =>
    intro d hd h
    rw [HashesAgree, not_and_or] at h
    by_cases hperm : d.perm = .androidData ∨ d.perm = .androidObb
    · -- the package is that of the first spelling, and the second one is not found
      have hdone : HashesAgree c (permOf c d.perm a) p q := by
        rw [permOf_package c hperm]
        exact hashesAgree_inherit c p q
      obtain ⟨-, h⟩ := Classical.not_imp.mp (h.resolve_right (not_not.mpr hdone))
      obtain ⟨ha, hne⟩ := Classical.not_imp.mp h
      refine ⟨a, ha, ?_⟩
      have hchild : ∀ x, (derive c (onePackage a ha) d x).perm = .inherit := fun x => by
        rw [derive_perm, permOf_package c hperm]
      rw [foldl_cons, foldl_cons, foldl_uid_inherit c _ p _ (hchild a),
        foldl_uid_inherit c _ q _ (hchild b), derive_uid hc hperm, derive_uid hc hperm]
      have hfound : Hashmap.get packageKeys a (onePackage a ha) = some 10001 :=
        Hashmap.get_put_self (by norm_num) a 10001 ⟨true, true⟩ rfl (icaseEq_iff.mpr rfl)
      have hmissing : Hashmap.get packageKeys b (onePackage a ha) = none :=
        Hashmap.get_put_of_ne (by norm_num) 10001 ⟨true, true⟩ rfl hne
      rw [hfound, hmissing, hd]
      show multiuserGetUid d.userid 10001 ≠ 0
      unfold multiuserGetUid u32
      omega
    · have hrest : ¬ HashesAgree c (permOf c d.perm a) p q :=
        h.resolve_left (not_not.mpr fun hp => absurd hp hperm)
      obtain ⟨hd', huid⟩ := derive_of_other (c := c) hperm (Hashmap.create 1) (Hashmap.create 1) a
      obtain ⟨x, hx, hne⟩ := ih (derive c (Hashmap.create 1) d a) (huid.trans hd)
        (by rw [derive_perm]; exact hrest)
      refine ⟨x, hx, ?_⟩
      rw [foldl_cons, foldl_cons,
        ← derive_congr hab fun h => absurd h hperm,
        (derive_of_other hperm (onePackage x hx) (Hashmap.create 1) a).1]
      exact hne

/-- **Derived permissions do not depend on letter case**, whatever packages there are, if and only
if the spellings of the names of packages have the same hash codes. -/
theorem same_iff (c : Config) (p q : List Name) (h : SameButCase p q) :
    (∀ (k : ℕ) (l : List (Package × Hashmap.Memory)),
      derivePath c (readPackageList (2 ^ k) l) p = derivePath c (readPackageList (2 ^ k) l) q) ↔
      HashesAgree c (rootDerived c).perm p q := by
  constructor
  · intro hsame
    by_contra hne
    have hc : c.derive ≠ .none := by
      intro hc
      have hroot : (rootDerived c).perm = .root := by rw [rootDerived, hc]
      rw [hroot] at hne
      refine hne ?_
      cases h with
      | nil => trivial
      | @cons a b p q _ _ =>
        refine ⟨fun h => absurd h (by decide), ?_⟩
        rw [permOf, derive_none hc]
        exact hashesAgree_inherit c p q
    have huid : (rootDerived c).uid = 0 := by
      rw [rootDerived]
      split <;> rfl
    obtain ⟨a, ha, hdiff⟩ := exists_package c hc h (rootDerived c) huid hne
    exact hdiff (congrArg Derived.uid (hsame 9 [(⟨a, 10001, ha⟩, ⟨true, true⟩)]))
  · intro hagree k l
    exact foldl_of_hashesAgree c (2 ^ k) l h (rootDerived c) hagree

/-- Names that are compared with `strcasecmp`, on both sides of one that is looked up. -/
theorem same_packageCache :
    SameButCase [text "Android", text "data", text "com.example", text "Cache"]
        [text "ANDROID", text "Data", text "com.example", text "cache"] ∧
      ∀ (k : ℕ) (l : List (Package × Hashmap.Memory)),
        derivePath ⟨.unified, true⟩ (readPackageList (2 ^ k) l)
            [text "Android", text "data", text "com.example", text "Cache"] =
          derivePath ⟨.unified, true⟩ (readPackageList (2 ^ k) l)
            [text "ANDROID", text "Data", text "com.example", text "cache"] := by
  have h : SameButCase [text "Android", text "data", text "com.example", text "Cache"]
      [text "ANDROID", text "Data", text "com.example", text "cache"] :=
    .cons (by decide) (.cons (by decide) (.cons (by decide) (.cons (by decide) .nil)))
  refine ⟨h, (same_iff ⟨.unified, true⟩ _ _ h).mpr ?_⟩
  simp only [HashesAgree]
  decide +kernel

/-- The directory of a package in another spelling does not belong to the package. -/
theorem owner_lost : SameButCase [text "Android", text "data", text "com.example"]
      [text "Android", text "data", text "com.Example"] ∧
    (derivePath ⟨.unified, false⟩ (onePackage (text "com.example") (by decide +kernel))
      [text "Android", text "data", text "com.example"]).uid = 10001 ∧
    (derivePath ⟨.unified, false⟩ (onePackage (text "com.example") (by decide +kernel))
      [text "Android", text "data", text "com.Example"]).uid = 0 :=
  ⟨.cons (by decide) (.cons (by decide) (.cons (by decide) .nil)), by decide +kernel,
    by decide +kernel⟩

end Sdcard
