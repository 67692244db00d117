/-
Strings are values.

Whatever strings share their buffers, a call changes the string it is to and no other, and
what it makes of it is a function of the values that the strings had before:

* `apply` — what each call does to plain lists of units;
* `exec_apply`, `exec_own` — a call does this to the strings, unless (`Apart`) it takes
  characters from the string itself, whose buffer is not shared and is resized before
  they are read;
* `values_iff` — a run of calls comes to its end with the right values exactly if none of
  its calls does that.
-/
import AndroidSystem.StringBuffers
import AndroidSystem.Runs

open CInt CountedHeap SharedBuffer Runs List

namespace Strings

open String16

variable {k : Kind} {s : State} {i j a : ℕ} {l xs : List ℕ} {chars : Chars} {len : Length}
  {src : Source (Option ℕ)} {c : Call}

/-! ### Values -/

/-- The units of the string at `a`. -/
def text (h : Memory) (a : ℕ) : List ℕ :=
  match h.get a with
  | none => []
  | some b => b.cells.dropLast.map fun u => u.getD 0

/-- The units of all strings. -/
def State.texts (s : State) : List (List ℕ) := s.strings.map (text s.heap)

/-- The characters that a call is given, by their values. -/
def argument (L : List (List ℕ)) : Chars → Length → List ℕ
  | .given units, .units n => units.take n
  | .given units, .terminated => units.takeWhile (· ≠ 0)
  | .own j q, .units n => ((L.getD j []).drop q).take n
  | .own j q, .terminated => ((L.getD j []).drop q).takeWhile (· ≠ 0)

/-- What the calls do to values. -/
def apply (L : List (List ℕ)) : Call → List (List ℕ)
  | .create => L ++ [[]]
  | .copy j => L ++ [L.getD j []]
  | .assign i j => L.set i (L.getD j [])
  | .setTo i other len => L.set i (argument L other len)
  | .setToRange i j len begin => L.set i (((L.getD j []).drop begin).take len)
  | .append i j => L.set i (L.getD i [] ++ L.getD j [])
  | .appendChars i chrs len => L.set i (L.getD i [] ++ argument L chrs len)
  | .insert i pos chrs len =>
    L.set i ((L.getD i []).take pos ++ argument L chrs len ++ (L.getD i []).drop pos)
  | .makeLower i => L.set i ((L.getD i []).map fun v => if String16.isUpper v then
      String16.tolower v else v)
  | .replaceAll i replaceThis withThis =>
    L.set i ((L.getD i []).map fun v => if v == replaceThis then withThis else v)
  | .remove i len begin => L.set i (((L.getD i []).drop begin).take len)
  | .destroy i => L.eraseIdx i

/-! ### Which calls are right -/

/-- The characters are there: as many as are said, or up to a zero. -/
def ValidChars (s : State) : Chars → Length → Prop
  | .given units, .units n => n ≤ units.length
  | .given units, .terminated => 0 ∈ units
  | .own j q, .units n => j < s.strings.length ∧ q + n ≤ (s.texts.getD j []).length
  | .own j q, .terminated => j < s.strings.length ∧ q ≤ (s.texts.getD j []).length

/-- The strings and the characters are there, and the type has such a function. -/
def Valid (k : Kind) (s : State) (c : Call) : Prop :=
  Offers k c ∧
    match c with
    | .create => True
    | .copy j => j < s.strings.length
    | .assign i j | .append i j | .setToRange i j _ _ =>
      i < s.strings.length ∧ j < s.strings.length
    | .setTo i chrs len | .appendChars i chrs len | .insert i _ chrs len =>
      i < s.strings.length ∧ ValidChars s chrs len
    | .makeLower i | .replaceAll i _ _ | .remove i _ _ | .destroy i => i < s.strings.length

/-- A string of `n` units fits the memory. -/
def UnitsFit (k : Kind) (n : ℕ) : Prop := headerSize + (n + 1) * k.unitSize < 2 ^ 32

/-- The sizes that a call computes fit their types. -/
def SizesFit (k : Kind) (s : State) : Call → Prop
  | .setTo _ chrs len => UnitsFit k (argument s.texts chrs len).length
  | .append i j => UnitsFit k ((s.texts.getD i []).length + (s.texts.getD j []).length)
  | .appendChars i chrs len | .insert i _ chrs len =>
    UnitsFit k ((s.texts.getD i []).length + (argument s.texts chrs len).length)
  | .setToRange _ _ len begin | .remove _ len begin => begin + len < 2 ^ 32
  | _ => True

/-- The buffer of string `i` is not shared. -/
def unshared (s : State) (i : ℕ) : Bool :=
  match s.strings[i]? with
  | none => false
  | some a =>
    match s.heap.get a with
    | none => false
    | some b => b.refs == 1

/-- The characters are in string `i`, whose buffer is not shared. -/
def Inside (s : State) (i : ℕ) : Chars → Prop
  | .given _ => False
  | .own j _ => j = i ∧ unshared s i = true

/-- No characters of a string are read from a buffer that was given up, and no part of a string is
assigned to it. -/
def Apart (k : Kind) (s : State) : Call → Prop
  | .setTo i chrs len => k = .string16 → Inside s i chrs →
      argument s.texts chrs len = [] ∨
        (argument s.texts chrs len).length = (s.texts.getD i []).length
  | .setToRange i j len begin => i = j →
      (s.texts.getD i []).length ≤ begin ∨ begin = 0 ∧ (s.texts.getD i []).length ≤ len
  | .append i j => i = j → unshared s i = true → s.texts.getD i [] = []
  | .appendChars i chrs len | .insert i _ chrs len =>
      Inside s i chrs → argument s.texts chrs len = []
  | _ => True

/-- One call, if it comes to an end. -/
def step (k : Kind) (s : State) (c : Call) : Option State := (exec k s c).toOption

/-! ### The buffers of a family -/

variable {h h' : Memory} {ptrs : List (Option ℕ)} {a' : ℕ}

/-- What holds between calls. -/
structure Inv (k : Kind) (s : State) : Prop where
  counted : Counted s.heap (some s.empty :: s.strings.map some)
  failing : s.heap.failing = []
  empty : Cells k s.heap s.empty (terminated [])
  cells : ∀ a ∈ s.strings, Cells k s.heap a (terminated (text s.heap a))

/-- The pointers but that of string `i`. -/
def State.others (s : State) (i : ℕ) : List (Option ℕ) :=
  some s.empty :: (s.strings.eraseIdx i).map some

theorem Cells.text_eq (hc : Cells k h a (terminated l)) : text h a = l := by
  obtain ⟨b, hb, hcells, -⟩ := hc
  simp only [text, hb, hcells, terminated, dropLast_concat, map_map]
  exact map_id l

theorem Inv.buffer (hs : Inv k s) (hi : s.strings[i]? = some a) :
    Buffer k (s.others i) s.heap a (terminated (text s.heap a)) := by
  refine ⟨hs.cells a (mem_of_getElem? hi), hs.counted.perm ?_, hs.failing⟩
  exact ((map_perm some hi).cons _).trans (List.Perm.swap _ _ _)

theorem texts_get (hi : s.strings[i]? = some a) : s.texts.getD i [] = text s.heap a := by
  simp [State.texts, getD_eq_getElem?_getD, hi]

/-- The strings that a call is not to stay as they are. -/
theorem Inv.agree (hs : Inv k s) (hag : Agree s.heap h' ptrs) (ha : a ∈ s.strings)
    (hmem : some a ∈ ptrs) :
    Cells k h' a (terminated (text h' a)) ∧ text h' a = text s.heap a := by
  have hc := (hs.cells a ha).agree hag hmem
  rw [hc.text_eq]
  exact ⟨hc, rfl⟩

theorem Inv.update {r : ℤ} (hs : Inv k s) (hi : s.strings[i]? = some a)
    (hb : Buffer k (s.others i) h' a' (terminated l)) (hag : Agree s.heap h' (s.others i)) :
    Inv k (s.update i (h', a', r)) ∧ (s.update i (h', a', r)).texts = s.texts.set i l := by
  have htext := hb.cells.text_eq
  obtain ⟨hcells, htexts⟩ := family_set hi (htext.symm ▸ hb.cells) fun w hw =>
    hs.agree hag (mem_of_mem_eraseIdx hw) (mem_cons_of_mem _ (mem_map_of_mem hw))
  rw [htext] at htexts
  refine ⟨⟨hb.counted.perm ?_, hb.failing, hs.empty.agree hag mem_cons_self, hcells⟩, htexts⟩
  exact (List.Perm.swap _ _ _).trans ((map_set_perm some hi a').symm.cons _)

theorem Inv.append (hs : Inv k s)
    (hb : Buffer k (some s.empty :: s.strings.map some) h' a (terminated l))
    (hag : Agree s.heap h' (some s.empty :: s.strings.map some)) :
    Inv k ⟨h', s.empty, s.strings ++ [a]⟩ ∧
      (⟨h', s.empty, s.strings ++ [a]⟩ : State).texts = s.texts ++ [l] := by
  have htext := hb.cells.text_eq
  obtain ⟨hcells, htexts⟩ := family_append (htext.symm ▸ hb.cells) fun w hw =>
    hs.agree hag hw (mem_cons_of_mem _ (mem_map_of_mem hw))
  rw [htext] at htexts
  refine ⟨⟨hb.counted.perm ?_, hb.failing, hs.empty.agree hag mem_cons_self, hcells⟩, htexts⟩
  rw [map_append]
  exact (List.Perm.swap _ _ _).trans ((perm_append_singleton _ _).symm.cons _)

theorem Inv.erase (hs : Inv k s) (hc : Counted h' (s.others i)) (hf : h'.failing = [])
    (hag : Agree s.heap h' (s.others i)) :
    Inv k ⟨h', s.empty, s.strings.eraseIdx i⟩ ∧
      (⟨h', s.empty, s.strings.eraseIdx i⟩ : State).texts = s.texts.eraseIdx i := by
  have hold : ∀ w ∈ s.strings.eraseIdx i, Cells k h' w (terminated (text h' w)) ∧
      text h' w = text s.heap w := fun w hw =>
    hs.agree hag (mem_of_mem_eraseIdx hw) (mem_cons_of_mem _ (mem_map_of_mem hw))
  refine ⟨⟨hc, hf, hs.empty.agree hag mem_cons_self, fun w hw => (hold w hw).1⟩, ?_⟩
  simp only [State.texts, map_congr_left fun w hw => (hold w hw).2, eraseIdx_map]

theorem Inv.init (k : Kind) : Inv k (init k) where
  counted := (Counted.empty []).new rfl
  failing := rfl
  empty := ⟨_, rfl, rfl, by simp [terminated], by cases k <;> decide⟩
  cells := by simp [Strings.init]

/-! ### Characters -/

variable {q : ℕ}

theorem findIdx_terminated (l : List ℕ) :
    (terminated l).findIdx? (· == some 0) = some (l.takeWhile (· ≠ 0)).length := by
  induction l with
  | nil => rfl
  | cons v l ih =>
    rw [terminated] at ih
    by_cases hv : v = 0
    · simp [terminated, hv, findIdx?_cons]
    · simp [terminated, hv, findIdx?_cons, ih]

theorem findIdx_given {l : List ℕ} (h0 : 0 ∈ l) :
    (l.map some).findIdx? (· == some 0) = some (l.takeWhile (· ≠ 0)).length := by
  induction l with
  | nil => cases h0
  | cons v l ih =>
    by_cases hv : v = 0
    · simp [hv, findIdx?_cons]
    · have hmem : 0 ∈ l := (mem_cons.mp h0).resolve_left (Ne.symm hv)
      simp [hv, findIdx?_cons, ih hmem]

/-- As many units as come before a zero. -/
theorem take_takeWhile (l : List ℕ) : l.take (l.takeWhile (· ≠ 0)).length = l.takeWhile (· ≠ 0) :=
  (prefix_iff_eq_take.mp ( takeWhile_prefix _)).symm

theorem string_eq (hi : s.strings[i]? = some a) : s.string i = .ok a := by rw [State.string, hi]

theorem exists_string (hlt : i < s.strings.length) : ∃ a, s.strings[i]? = some a :=
  ⟨_, getElem?_eq_getElem hlt⟩

theorem same_or_other {w : ℕ} (hi : s.strings[i]? = some a) (hj : s.strings[j]? = some w) :
    j = i ∧ w = a ∨ j ≠ i ∧ some w ∈ s.others i := by
  by_cases hne : j = i
  · subst hne
    exact Or.inl ⟨rfl, Option.mem_unique hj hi⟩
  · exact Or.inr ⟨hne, mem_cons_of_mem _ (mem_eraseIdx some hj hne)⟩

theorem mem_strings {w : ℕ} (hi : s.strings[i]? = some a) (hj : s.strings[j]? = some w) :
    some w ∈ some a :: s.others i := by
  rcases same_or_other hi hj with ⟨-, rfl⟩ | ⟨-, hmem⟩
  · exact mem_cons_self
  · exact mem_cons_of_mem _ hmem

/-- Units of a string can be read from its buffer. -/
theorem Cells.readable (hc : Cells k h a (terminated l)) (hmem : some a ∈ ptrs)
    (hle : q + xs.length ≤ l.length) (hxs : xs = (l.drop q).take xs.length) :
    Readable ptrs h xs.length (xs.map some) (.inside a q) := by
  obtain ⟨b, hb, hcells, -⟩ := hc
  refine ⟨hmem, b, hb, by rw [hcells, length_terminated]; omega, ?_⟩
  rw [hcells, drop_terminated (by omega), terminated_split _ xs.length, ← hxs,
    take_left' (by simp)]

section

variable (hs : Inv k s)
include hs

/-- The characters from `q` of string `j` on. -/
theorem Inv.own_chars (hvalid : ValidChars s (.own j q) len) :
    ∃ w, s.strings[j]? = some w ∧ s.source (.own j q) = .ok (.inside w q) ∧
      s.count (.inside w q) len = .ok (argument s.texts (.own j q) len).length ∧
      q + (argument s.texts (.own j q) len).length ≤ (text s.heap w).length ∧
      argument s.texts (.own j q) len =
        ((text s.heap w).drop q).take (argument s.texts (.own j q) len).length := by
  have hlt : j < s.strings.length := by
    cases len with
    | units n => exact hvalid.1
    | terminated => exact hvalid.1
  obtain ⟨w, hj⟩ := exists_string hlt
  have hsrc : s.source (.own j q) = .ok (.inside w q) := by
    simp only [State.source, string_eq hj, ok_bind]
  refine ⟨w, hj, hsrc, ?_⟩
  have htext := texts_get hj
  cases len with
  | units n =>
    have hle : q + n ≤ (text s.heap w).length := htext ▸ hvalid.2
    have hlen : (((text s.heap w).drop q).take n).length = n := by
      rw [length_take, length_drop]
      omega
    simp only [argument, htext, hlen, State.count]
    exact ⟨trivial, hle, trivial⟩
  | terminated =>
    have hle : q ≤ (text s.heap w).length := htext ▸ hvalid.2
    obtain ⟨b, hb, hcells, -⟩ := hs.cells w (mem_of_getElem? hj)
    have hwhile := ( takeWhile_prefix (p := fun v : ℕ => decide (v ≠ 0))
      (l := (text s.heap w).drop q)).length_le
    rw [length_drop] at hwhile
    simp only [argument, htext, State.count, strlen, Heap.deref_eq hb, ok_bind, hcells,
      drop_terminated hle, findIdx_terminated]
    exact ⟨trivial, by omega, (take_takeWhile _).symm⟩

/-- **The characters that a call is given** can be read; if they are not in the buffer of string `i`
alone, they can be read without it. -/
theorem Inv.readable_chars (hi : s.strings[i]? = some a)
    (hvalid : ValidChars s chars len) :
    ∃ src, s.source chars = .ok src ∧
      s.count src len = .ok (argument s.texts chars len).length ∧
      Readable (some a :: s.others i) s.heap (argument s.texts chars len).length
        ((argument s.texts chars len).map some) src ∧
      (¬ Inside s i chars ∧ Readable (s.others i) s.heap (argument s.texts chars len).length
          ((argument s.texts chars len).map some) src ∨
        Inside s i chars ∧ ∃ q b, src = .inside a q ∧ s.heap.get a = some b ∧ b.refs = 1 ∧
          q + (argument s.texts chars len).length ≤ (text s.heap a).length) := by
  cases chars with
  | given units =>
    refine ⟨.outside (units.map some), rfl, ?_⟩
    have hread : ∀ ptrs, Readable ptrs s.heap (argument s.texts (.given units) len).length
        ((argument s.texts (.given units) len).map some) (.outside (units.map some)) := by
      intro ptrs
      cases len with
      | units n => exact ⟨by simp [argument], by simp [argument, map_take]⟩
      | terminated =>
        have hwhile := ( takeWhile_prefix (p := fun v : ℕ => decide (v ≠ 0))
          (l := units)).length_le
        refine ⟨by simpa [argument] using hwhile, ?_⟩
        rw [← map_take, argument, take_takeWhile]
    refine ⟨?_, hread _, Or.inl ⟨id, hread _⟩⟩
    cases len with
    | units n =>
      have hle : n ≤ units.length := hvalid
      simp [State.count, argument, hle]
    | terminated => simp only [State.count, strlen, findIdx_given hvalid, argument]
  | own j q =>
    obtain ⟨w, hj, hsrc, hcount, hle, hxs⟩ := hs.own_chars hvalid
    have hcells := hs.cells w (mem_of_getElem? hj)
    refine ⟨.inside w q, hsrc, hcount, hcells.readable (mem_strings hi hj) hle hxs, ?_⟩
    rcases same_or_other hi hj with ⟨rfl, rfl⟩ | ⟨hne, hmem⟩
    · obtain ⟨b, hb, -⟩ := hcells
      by_cases h1 : b.refs = 1
      · exact Or.inr ⟨⟨rfl, by simp [unshared, hi, hb, h1]⟩, q, b, rfl, hb, h1, hle⟩
      · have hshared := (hs.buffer hi).counted.mem_of_shared hb h1
        refine Or.inl ⟨fun hin => ?_,
          (hs.cells _ (mem_of_getElem? hj)).readable hshared hle hxs⟩
        have := hin.2
        simp [unshared, hi, hb, h1] at this
    · exact Or.inl ⟨fun hin => hne hin.1, hcells.readable hmem hle hxs⟩

/-- Characters of the string itself are given only where there are none. -/
theorem Inv.chars_apart (hi : s.strings[i]? = some a)
    (hvalid : ValidChars s chars len)
    (hapart : Inside s i chars → argument s.texts chars len = []) :
    ∃ src, s.source chars = .ok src ∧
      s.count src len = .ok (argument s.texts chars len).length ∧
      Readable (some a :: s.others i) s.heap (argument s.texts chars len).length
        ((argument s.texts chars len).map some) src ∧
      ((argument s.texts chars len).length = 0 ∨ Readable (s.others i) s.heap
        (argument s.texts chars len).length ((argument s.texts chars len).map some) src) := by
  obtain ⟨src, hsrc, hn, hall, hread⟩ := hs.readable_chars hi hvalid
  refine ⟨src, hsrc, hn, hall, ?_⟩
  rcases hread with ⟨-, hread⟩ | ⟨hin, -⟩
  · exact Or.inr hread
  · exact Or.inl (by rw [hapart hin]; rfl)

/-! ### One call -/

variable {n : ℕ}

omit hs in
/-- `UnitsFit` as the functions of `String8` need it. -/
theorem UnitsFit.bytes (h : UnitsFit .string8 n) : headerSize + (n + 1) < 2 ^ 32 := by
  simpa [UnitsFit, Kind.unitSize] using h

/-- A right call does to the strings what it does to their values. -/
def Applies (k : Kind) (s : State) (c : Call) : Prop :=
  Valid k s c → SizesFit k s c → Apart k s c →
    ∃ s', exec k s c = .ok s' ∧ Inv k s' ∧ s'.texts = apply s.texts c

/-- The string is given back by a call to it. -/
theorem Inv.result (hi : s.strings[i]? = some a)
    (hexec : exec k s c = .ok (s.update i (h', a', 0)))
    (hb : Buffer k (s.others i) h' a' (terminated l)) (hag : Agree s.heap h' (s.others i))
    (happly : apply s.texts c = s.texts.set i l) :
    ∃ s', exec k s c = .ok s' ∧ Inv k s' ∧ s'.texts = apply s.texts c := by
  obtain ⟨hinv, htexts⟩ := hs.update hi hb hag
  exact ⟨_, hexec, hinv, htexts.trans happly.symm⟩

theorem setTo_apply : Applies k s (.setTo i chars len) := by
  rintro ⟨-, hlt, hchars⟩ hfits hapart
  obtain ⟨a, hi⟩ := exists_string hlt
  have hb := hs.buffer hi
  obtain ⟨src, hsrc, hn, hall, hread⟩ := hs.readable_chars hi hchars
  cases k with
  | string8 =>
    obtain ⟨h', a', hset, hb', hag⟩ := String8.setTo_spec hb mem_cons_self hs.empty hall
      (UnitsFit.bytes hfits)
    refine hs.result hi ?_ hb' hag rfl
    simp only [exec, string_eq hi, ok_bind, hsrc, hn, hset]
  | string16 =>
    obtain ⟨h', a', hset, hb', hag⟩ : ∃ h' a', String16.setTo s.heap a src
        (argument s.texts chars len).length = .ok (h', a', 0) ∧
        Buffer .string16 (s.others i) h' a' (terminated (argument s.texts chars len)) ∧
        Agree s.heap h' (s.others i) := by
      rcases hread with ⟨-, hread⟩ | ⟨hin, q, b, rfl, hget, h1, hle⟩
      · exact setTo_spec hb (Or.inr hread) hfits
      · rcases hapart rfl hin with h0 | hlen
        · exact setTo_spec hb (Or.inl (by rw [h0]; rfl)) hfits
        · -- all units of the string, onto themselves
          rw [texts_get hi] at hlen
          obtain rfl : q = 0 := by omega
          obtain ⟨b', hget', -, hxs⟩ := hall.2
          obtain ⟨b₀, hget₀, hcells, -⟩ := hb.cells
          obtain rfl := Option.mem_unique hget₀ hget'
          have hsame : argument s.texts chars len = text s.heap a := by
            apply map_injective_iff.mpr (Option.some_injective ℕ)
            rw [hxs, hcells, hlen, terminated, drop_zero, take_left' (by simp)]
          rw [hsame]
          exact setTo_self (hb.filled hget h1)
    refine hs.result hi ?_ hb' hag rfl
    simp only [exec, string_eq hi, ok_bind, hsrc, hn, hset]

theorem append_apply : Applies k s (.append i j) := by
  rintro ⟨-, hlti, hltj⟩ hfits hapart
  obtain ⟨a, hi⟩ := exists_string hlti
  obtain ⟨w, hj⟩ := exists_string hltj
  have hb := hs.buffer hi
  have hcells := hs.cells w (mem_of_getElem? hj)
  have hti := texts_get hi
  have htj := texts_get hj
  have happly : apply s.texts (.append i j) = s.texts.set i (text s.heap a ++ text s.heap w) := by
    rw [apply, hti, htj]
  rw [SizesFit, hti, htj] at hfits
  have hmem : some w ∈ some a :: s.others i ∧
      (text s.heap a = [] ∨ text s.heap w = [] ∨ some w ∈ s.others i) := by
    refine ⟨mem_strings hi hj, ?_⟩
    rcases same_or_other hi hj with ⟨rfl, rfl⟩ | ⟨-, hother⟩
    · obtain ⟨b, hget, -⟩ := hb.cells
      by_cases h1 : b.refs = 1
      · have hnil := hapart rfl (by simp [unshared, hi, hget, h1])
        exact Or.inl (hti ▸ hnil)
      · exact Or.inr (Or.inr (hb.counted.mem_of_shared hget h1))
    · exact Or.inr (Or.inr hother)
  cases k with
  | string8 =>
    obtain ⟨h', a', happ, hb', hag⟩ := String8.append_spec hb hfits.bytes hmem.1 hcells hmem.2
    refine hs.result hi ?_ hb' hag happly
    simp only [exec, string_eq hi, string_eq hj, ok_bind, happ]
  | string16 =>
    obtain ⟨h', a', happ, hb', hag⟩ := append_spec hb hfits hmem.1 hcells hmem.2
    refine hs.result hi ?_ hb' hag happly
    simp only [exec, string_eq hi, string_eq hj, ok_bind, happ]

theorem appendChars_apply : Applies k s (.appendChars i chars len) := by
  rintro ⟨-, hlt, hchars⟩ hfits hapart
  obtain ⟨a, hi⟩ := exists_string hlt
  have hb := hs.buffer hi
  obtain ⟨src, hsrc, hn, hall, hr⟩ := hs.chars_apart hi hchars hapart
  have hti := texts_get hi
  have happly : apply s.texts (.appendChars i chars len) =
      s.texts.set i (text s.heap a ++ argument s.texts chars len) := by
    rw [apply, hti]
  rw [SizesFit, hti] at hfits
  cases k with
  | string8 =>
    obtain ⟨h', a', happ, hb', hag⟩ := String8.appendChars_spec hb hfits.bytes mem_cons_self
      hs.empty hall hr
    refine hs.result hi ?_ hb' hag happly
    simp only [exec, string_eq hi, ok_bind, hsrc, hn, happ]
  | string16 =>
    obtain ⟨h', a', happ, hb', hag⟩ := appendChars_spec hb hr hfits
    refine hs.result hi ?_ hb' hag happly
    simp only [exec, string_eq hi, ok_bind, hsrc, hn, happ]

omit hs in
theorem insert_apply {pos : ℕ} (hs : Inv .string16 s) :
    Applies .string16 s (.insert i pos chars len) := by
  rintro ⟨-, hlt, hchars⟩ hfits hapart
  obtain ⟨a, hi⟩ := exists_string hlt
  obtain ⟨src, hsrc, hn, -, hr⟩ := hs.chars_apart hi hchars hapart
  have hti := texts_get hi
  have happly : apply s.texts (.insert i pos chars len) = s.texts.set i
      ((text s.heap a).take pos ++ argument s.texts chars len ++ (text s.heap a).drop pos) := by
    rw [apply, hti]
  rw [SizesFit, hti] at hfits
  obtain ⟨h', a', hins, hb', hag⟩ := @String16.insert_spec _ _ _ _ _ _ (hs.buffer hi) hr hfits pos
  refine hs.result hi ?_ hb' hag happly
  simp only [exec, string_eq hi, ok_bind, hsrc, hn, hins]

omit hs in
theorem setToRange_apply {begin : ℕ} (hs : Inv .string16 s) :
    Applies .string16 s (.setToRange i j n begin) := by
  rintro ⟨-, hlti, hltj⟩ hfits hapart
  obtain ⟨a, hi⟩ := exists_string hlti
  obtain ⟨w, hj⟩ := exists_string hltj
  have hcells := hs.cells w (mem_of_getElem? hj)
  have happly : apply s.texts (.setToRange i j n begin) =
      s.texts.set i (((text s.heap w).drop begin).take n) := by
    rw [apply, texts_get hj]
  have hsame : (i == j) = false ∧ some w ∈ s.others i ∨ (text s.heap w).length ≤ begin ∨
      begin = 0 ∧ (text s.heap w).length ≤ n := by
    rcases same_or_other hi hj with ⟨rfl, rfl⟩ | ⟨hne, hother⟩
    · exact Or.inr (texts_get hi ▸ hapart rfl)
    · exact Or.inl ⟨by simpa using Ne.symm hne, hother⟩
  obtain ⟨h', a', hset, hb', hag⟩ := setToRange_spec (hs.buffer hi) mem_cons_self
    hs.empty (mem_strings hi hj) hcells hfits hsame
  refine hs.result hi ?_ hb' hag happly
  simp only [exec, string_eq hi, string_eq hj, ok_bind, hset]

omit hs in
theorem Offers.eq_string16 (h : Offers k c) (hc : ¬ Offers .string8 c) : k = .string16 := by
  cases k with
  | string8 => exact absurd h hc
  | string16 => rfl

/-- **A call does to the strings what it does to their values.** -/
theorem exec_apply : Applies k s c := by
  intro hvalid hfits hapart
  cases c with
  | create =>
    obtain ⟨h', hacq, hc', hag, hf'⟩ := acquire_eq hs.counted mem_cons_self
    obtain ⟨hinv, htexts⟩ := hs.append
      ⟨hs.empty.agree hag mem_cons_self, hc', hf'.trans hs.failing⟩ hag
    refine ⟨_, ?_, hinv, htexts⟩
    simp only [exec, getEmptyString, hacq, ok_bind]
  | copy j =>
    obtain ⟨w, hj⟩ := exists_string hvalid.2
    have hw := mem_of_getElem? hj
    have hmem : some w ∈ some s.empty :: s.strings.map some :=
      mem_cons_of_mem _ (mem_map_of_mem hw)
    obtain ⟨h', hacq, hc', hag, hf'⟩ := acquire_eq hs.counted hmem
    obtain ⟨hinv, htexts⟩ := hs.append
      ⟨(hs.cells w hw).agree hag hmem, hc', hf'.trans hs.failing⟩ hag
    refine ⟨_, ?_, hinv, by rw [htexts, apply, texts_get hj]⟩
    simp only [exec, string_eq hj, hacq, ok_bind]
  | assign i j =>
    obtain ⟨a, hi⟩ := exists_string hvalid.2.1
    obtain ⟨w, hj⟩ := exists_string hvalid.2.2
    obtain ⟨h', hset, hb', hag⟩ := setToString_spec (hs.buffer hi) (mem_strings hi hj)
      (hs.cells w (mem_of_getElem? hj))
    refine hs.result hi ?_ hb' hag (by rw [apply, texts_get hj])
    simp only [exec, string_eq hi, string_eq hj, ok_bind, hset]
  | setTo i chars len => exact setTo_apply hs hvalid hfits hapart
  | append i j => exact append_apply hs hvalid hfits hapart
  | appendChars i chars len => exact appendChars_apply hs hvalid hfits hapart
  | setToRange i j n begin =>
    obtain rfl := hvalid.1.eq_string16 id
    exact setToRange_apply hs hvalid hfits hapart
  | insert i pos chars len =>
    obtain rfl := hvalid.1.eq_string16 id
    exact insert_apply hs hvalid hfits hapart
  | makeLower i =>
    obtain rfl := hvalid.1.eq_string16 id
    obtain ⟨a, hi⟩ := exists_string hvalid.2
    obtain ⟨h', a', hlow, hb', hag⟩ := makeLower_spec (hs.buffer hi)
    refine hs.result hi ?_ hb' hag (by rw [apply, texts_get hi])
    simp only [exec, string_eq hi, ok_bind, hlow]
  | replaceAll i x y =>
    obtain rfl := hvalid.1.eq_string16 id
    obtain ⟨a, hi⟩ := exists_string hvalid.2
    obtain ⟨h', a', hrep, hb', hag⟩ := replaceAll_spec (hs.buffer hi) x y
    refine hs.result hi ?_ hb' hag (by rw [apply, texts_get hi])
    simp only [exec, string_eq hi, ok_bind, hrep]
  | remove i n begin =>
    obtain rfl := hvalid.1.eq_string16 id
    obtain ⟨a, hi⟩ := exists_string hvalid.2
    obtain ⟨h', a', hrem, hb', hag⟩ := remove_spec (hs.buffer hi) mem_cons_self
      hs.empty hfits
    refine hs.result hi ?_ hb' hag (by rw [apply, texts_get hi])
    simp only [exec, string_eq hi, ok_bind, hrem]
  | destroy i =>
    obtain ⟨a, hi⟩ := exists_string hvalid.2
    have hb := hs.buffer hi
    obtain ⟨b, hget, -⟩ := hb.cells
    obtain ⟨h', hrel, hc', hag, hf', -⟩ := release_eq hb.counted hget
    obtain ⟨hinv, htexts⟩ := hs.erase hc' (hf'.trans hs.failing) hag
    refine ⟨_, ?_, hinv, htexts⟩
    simp only [exec, string_eq hi, ok_bind, hrel]

/-- **Characters of the string itself** are gone when they are read. -/
theorem exec_own (hvalid : Valid k s c) (hfits : SizesFit k s c)
    (hown : ¬ Apart k s c) : ∃ e, exec k s c = .error e := by
  cases c with
  | setTo i chars len =>
    simp only [Apart, not_forall, not_or] at hown
    obtain ⟨rfl, hin, hne, hlen⟩ := hown
    obtain ⟨-, hlt, hchars⟩ := hvalid
    obtain ⟨a, hi⟩ := exists_string hlt
    obtain ⟨src, hsrc, hn, -, hread⟩ := hs.readable_chars hi hchars
    rcases hread with ⟨hout, -⟩ | ⟨-, q, b, rfl, hget, h1, hle⟩
    · exact absurd hin hout
    · rw [texts_get hi] at hlen
      have hstop := setTo_own (q := q) ((hs.buffer hi).filled hget h1)
        (by simpa using hne) hlen hfits
      refine ⟨.undefined, ?_⟩
      simp only [exec, string_eq hi, ok_bind, hsrc, hn, hstop]
      rfl
  | setToRange i j n begin =>
    simp only [Apart, not_forall, not_or, not_le] at hown
    obtain ⟨rfl, hbegin, hpart⟩ := hown
    obtain rfl := hvalid.1.eq_string16 id
    obtain ⟨a, hi⟩ := exists_string hvalid.2.1
    rw [texts_get hi] at hbegin hpart
    refine ⟨.fatal, ?_⟩
    simp only [exec, string_eq hi, ok_bind, beq_self_eq_true,
      setToRange_own (hs.buffer hi) hfits hbegin hpart]
    rfl
  | append i j =>
    simp only [Apart, not_forall] at hown
    obtain ⟨rfl, hun, hne⟩ := hown
    obtain ⟨a, hi⟩ := exists_string hvalid.2.1
    have hb := hs.buffer hi
    obtain ⟨b, hget, -⟩ := hb.cells
    have h1 : b.refs = 1 := by simpa [unshared, hi, hget] using hun
    rw [SizesFit, texts_get hi] at hfits
    rw [texts_get hi] at hne
    have hl : (text s.heap a).length ≠ 0 := by simpa using hne
    refine ⟨.undefined, ?_⟩
    cases k with
    | string8 =>
      simp only [exec, string_eq hi, ok_bind, String8.append_own (hb.filled hget h1) hl hfits.bytes]
      rfl
    | string16 =>
      simp only [exec, string_eq hi, ok_bind, append_own (hb.filled hget h1) hl hfits]
      rfl
  | appendChars i chars len =>
    simp only [Apart, not_forall] at hown
    obtain ⟨hin, hne⟩ := hown
    obtain ⟨-, hlt, hchars⟩ := hvalid
    obtain ⟨a, hi⟩ := exists_string hlt
    have hb := hs.buffer hi
    obtain ⟨src, hsrc, hn, -, hread⟩ := hs.readable_chars hi hchars
    rcases hread with ⟨hout, -⟩ | ⟨-, q, b, rfl, hget, h1, hle⟩
    · exact absurd hin hout
    · have hx : (argument s.texts chars len).length ≠ 0 := by simpa using hne
      have hl : (text s.heap a).length ≠ 0 := by omega
      rw [SizesFit, texts_get hi] at hfits
      refine ⟨.undefined, ?_⟩
      cases k with
      | string8 =>
        simp only [exec, string_eq hi, ok_bind, hsrc, hn,
          String8.appendChars_own (hb.filled hget h1) hl hx hfits.bytes]
        rfl
      | string16 =>
        simp only [exec, string_eq hi, ok_bind, hsrc, hn,
          appendChars_own (hb.filled hget h1) hl hx hfits]
        rfl
  | insert i pos chars len =>
    simp only [Apart, not_forall] at hown
    obtain ⟨hin, hne⟩ := hown
    obtain rfl := hvalid.1.eq_string16 id
    obtain ⟨-, hlt, hchars⟩ := hvalid
    obtain ⟨a, hi⟩ := exists_string hlt
    obtain ⟨src, hsrc, hn, -, hread⟩ := hs.readable_chars hi hchars
    rcases hread with ⟨hout, -⟩ | ⟨-, q, b, rfl, hget, h1, hle⟩
    · exact absurd hin hout
    · have hx : (argument s.texts chars len).length ≠ 0 := by simpa using hne
      have hl : (text s.heap a).length ≠ 0 := by omega
      rw [SizesFit, texts_get hi] at hfits
      refine ⟨.undefined, ?_⟩
      simp only [exec, string_eq hi, ok_bind, hsrc, hn,
        insert_own ((hs.buffer hi).filled hget h1) hl hx hfits]
      rfl
  | create => exact absurd trivial hown
  | copy j => exact absurd trivial hown
  | assign i j => exact absurd trivial hown
  | makeLower i => exact absurd trivial hown
  | replaceAll i x y => exact absurd trivial hown
  | remove i n begin => exact absurd trivial hown
  | destroy i => exact absurd trivial hown

/-! ### Runs -/

/-- All strings end with a zero, and with it their buffers. -/
def State.Terminated (s : State) : Prop :=
  ∀ a ∈ s.strings, ∃ b, s.heap.get a = some b ∧ b.cells = terminated (text s.heap a)

theorem run_iff {cs : List Call}
    (hv : Along (step k) (fun s c => Valid k s c ∧ SizesFit k s c) s cs) :
    (∃ s', run (step k) s cs = some s' ∧ s'.texts = cs.foldl apply s.texts ∧ s'.Terminated) ↔
      Along (step k) (Apart k) s cs := by
  induction cs generalizing s with
  | nil =>
    refine iff_of_true ⟨s, rfl, rfl, fun a ha => ?_⟩ trivial
    obtain ⟨b, hb, hcells, -⟩ := hs.cells a ha
    exact ⟨b, hb, hcells⟩
  | cons c cs ih =>
    obtain ⟨⟨hvalid, hfits⟩, hrest⟩ := hv
    rw [Along]
    by_cases hapart : Apart k s c
    · obtain ⟨s₁, hexec, hinv, htexts⟩ := exec_apply hs hvalid hfits hapart
      have hstep : step k s c = some s₁ := by
        rw [step, hexec]
        rfl
      have hiff := ih hinv (hrest s₁ hstep)
      rw [htexts] at hiff
      rw [run, hstep]
      simpa [hapart] using hiff
    · obtain ⟨e, hexec⟩ := exec_own hs hvalid hfits hapart
      have hstep : step k s c = none := by
        rw [step, hexec]
        rfl
      rw [run, hstep]
      simp [hapart]

end

/-! ### The conditions can be checked -/

instance : ∀ k c, Decidable (Offers k c)
  | .string16, _ => isTrue trivial
  | .string8, .setToRange .. | .string8, .insert .. | .string8, .makeLower _
  | .string8, .replaceAll .. | .string8, .remove .. => isFalse id
  | .string8, .create | .string8, .copy _ | .string8, .assign .. | .string8, .setTo ..
  | .string8, .append .. | .string8, .appendChars .. | .string8, .destroy _ => isTrue trivial

instance (s : State) : ∀ chars len, Decidable (ValidChars s chars len)
  | .given units, .units n => inferInstanceAs (Decidable (n ≤ units.length))
  | .given units, .terminated => inferInstanceAs (Decidable (0 ∈ units))
  | .own j q, .units n => inferInstanceAs
      (Decidable (j < s.strings.length ∧ q + n ≤ (s.texts.getD j []).length))
  | .own j q, .terminated => inferInstanceAs
      (Decidable (j < s.strings.length ∧ q ≤ (s.texts.getD j []).length))

instance (k : Kind) (s : State) (c : Call) : Decidable (Valid k s c) :=
  match c with
  | .create => inferInstanceAs (Decidable (_ ∧ True))
  | .copy _ | .makeLower _ | .replaceAll .. | .remove .. | .destroy _ =>
    inferInstanceAs (Decidable (_ ∧ _ < _))
  | .assign .. | .append .. | .setToRange .. => inferInstanceAs (Decidable (_ ∧ _ < _ ∧ _ < _))
  | .setTo _ chars len | .appendChars _ chars len | .insert _ _ chars len =>
    inferInstanceAs (Decidable (_ ∧ _ < _ ∧ ValidChars s chars len))

instance (k : Kind) (n : ℕ) : Decidable (UnitsFit k n) := inferInstanceAs (Decidable (_ < _))

instance (k : Kind) (s : State) (c : Call) : Decidable (SizesFit k s c) :=
  match c with
  | .setTo .. | .append .. | .appendChars .. | .insert .. =>
    inferInstanceAs (Decidable (UnitsFit k _))
  | .setToRange .. | .remove .. => inferInstanceAs (Decidable (_ < _))
  | .create | .copy _ | .assign .. | .makeLower _ | .replaceAll .. | .destroy _ =>
    inferInstanceAs (Decidable True)

instance (s : State) (i : ℕ) : ∀ chars, Decidable (Inside s i chars)
  | .given _ => inferInstanceAs (Decidable False)
  | .own _ _ => inferInstanceAs (Decidable (_ ∧ _))

instance (k : Kind) (s : State) (c : Call) : Decidable (Apart k s c) :=
  match c with
  | .setTo .. => inferInstanceAs (Decidable (_ → _ → _ ∨ _))
  | .setToRange .. => inferInstanceAs (Decidable (_ → _ ∨ _ ∧ _))
  | .append .. => inferInstanceAs (Decidable (_ → _ → _))
  | .appendChars .. | .insert .. => inferInstanceAs (Decidable (_ → _))
  | .create | .copy _ | .assign .. | .makeLower _ | .replaceAll .. | .remove .. | .destroy _ =>
    inferInstanceAs (Decidable True)

/-! ### Strings are values -/

/-- **Strings are values**, exactly as long as no string is given its own characters while its
buffer is its own and changes size. -/
theorem values_iff (k : Kind) (cs : List Call)
    (hv : Along (step k) (fun s c => Valid k s c ∧ SizesFit k s c) (init k) cs) :
    (∃ s, run (step k) (init k) cs = some s ∧ s.texts = cs.foldl apply [] ∧ s.Terminated) ↔
      Along (step k) (Apart k) (init k) cs :=
  run_iff (Inv.init k) hv

/-- "AbcAb" is shared by two strings, of which one is given its own characters, edited and cut. -/
def sharing : List Call :=
  [.create, .setTo 0 (.given [65, 98, 99, 65, 98, 0]) .terminated, .copy 0,
    .insert 0 1 (.own 0 2) (.units 3), .makeLower 0, .appendChars 0 (.own 1 3) .terminated,
    .setToRange 1 0 4 2, .append 0 1, .replaceAll 1 98 7, .remove 0 5 3, .copy 1, .append 1 1,
    .destroy 2]

theorem values_iff_sharing :
    ∃ s, run (step .string16) (init .string16) sharing = some s ∧
      s.texts = [[98, 98, 99, 97, 98], [97, 7, 7, 99, 97, 7, 7, 99]] ∧ s.Terminated := by
  obtain ⟨s, hrun, htexts, hterm⟩ :=
    (values_iff .string16 sharing (by decide +kernel)).mpr (by decide +kernel)
  exact ⟨s, hrun, htexts.trans (by decide), hterm⟩

/-- A string that nothing shares, and its own characters. -/
def ownCharacters (c : Call) : List Call := [.create, .setTo 0 (.given [1, 2, 3]) (.units 3), c]

/-- **Own characters are lost**: appending a string to itself, inserting a part of it into it and
making it a part of itself end in undefined behaviour or in giving up. -/
theorem own_characters_lost :
    (∀ k, Along (step k) (fun s c => Valid k s c ∧ SizesFit k s c) (init k)
        (ownCharacters (.append 0 0)) ∧
      run (step k) (init k) (ownCharacters (.append 0 0)) = none) ∧
    (∀ c ∈ [.insert 0 1 (.own 0 1) (.units 2), .setTo 0 (.own 0 1) (.units 1),
        .setToRange 0 0 1 1, .appendChars 0 (.own 0 2) .terminated],
      Along (step .string16) (fun s c => Valid .string16 s c ∧ SizesFit .string16 s c)
        (init .string16) (ownCharacters c) ∧
      run (step .string16) (init .string16) (ownCharacters c) = none) := by
  constructor
  · intro k
    cases k <;> decide +kernel
  · decide +kernel

end Strings
