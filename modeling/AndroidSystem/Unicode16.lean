/-
The 16-bit string helpers of `Unicode.cpp`.

A string is the list of its units in front of the terminating 0, a counted array the list of its
units; a copy is given as the units that it stores.

* `units16_spec_iff` — `strncpy16` copies exactly the units that survive the conversion to `char`,
  and `strzcmp16` takes arrays for equal, or out of order, exactly where one goes on with a 0 unit
  behind another; that it is antisymmetric and agrees with `strzcmp16_h_n` holds of all arrays.
* `units16_lost` — other units are cut off, and arrays with 0 units are not ordered.
-/
import Mathlib.Tactic

namespace Unicode

open List

/-- The loop of `strcpy16`. -/
def strcpy16 : List UInt16 → List UInt16
  | [] => [0]
  | ch :: src => if ch = 0 then [0] else ch :: strcpy16 src

/-- A unit stored through a variable of type `char`, which may be signed. -/
def viaChar (signed : Bool) (unit : UInt16) : UInt16 :=
  if signed then unit.toUInt8.toInt8.toInt16.toUInt16 else unit.toUInt8.toUInt16

/-- `strncpy16`.  The loop ends at a `char` that is 0, and the 0 behind it is always stored. -/
def strncpy16 (signed : Bool) : List UInt16 → ℕ → List UInt16
  | _, 0 => [0]
  | src, n + 1 =>
    let unit := src.headD 0
    viaChar signed unit ::
      if unit.toUInt8 = 0 then [0] else strncpy16 signed src.tail n

/-- The loop of `strzcmp16` and `strzcmp16_h_n`, `conv` being applied to the units of the second
array. -/
def zcmp (conv : UInt16 → UInt16) : List UInt16 → List UInt16 → ℤ
  | [], [] => 0
  | [], b :: _ => 0 - ((conv b).toNat : ℤ)
  | a :: _, [] => a.toNat - 0
  | a :: s1, b :: s2 =>
    let d : ℤ := a.toNat - (conv b).toNat
    if d ≠ 0 then d else zcmp conv s1 s2

/-- `strzcmp16` -/
def strzcmp16 : List UInt16 → List UInt16 → ℤ := zcmp id

/-- `ntohs` where the bytes are stored low byte first. -/
def ntohs (unit : UInt16) : UInt16 :=
  .ofNat (unit.toNat % 2 ^ 8 * 2 ^ 8 + unit.toNat / 2 ^ 8)

/-- `strzcmp16_h_n` -/
def strzcmp16HN : List UInt16 → List UInt16 → ℤ := zcmp ntohs

theorem toNat_ntohs (unit : UInt16) :
    (ntohs unit).toNat = unit.toNat % 2 ^ 8 * 2 ^ 8 + unit.toNat / 2 ^ 8 := by
  have hlt := unit.toNat_lt
  rw [ntohs, UInt16.toNat_ofNat', Nat.mod_eq_of_lt (by omega)]

theorem ntohs_ntohs (unit : UInt16) : ntohs (ntohs unit) = unit := by
  have hlt := unit.toNat_lt
  apply UInt16.toNat_inj.mp
  rw [toNat_ntohs, toNat_ntohs]
  omega

theorem toUInt8_ne_zero {signed : Bool} {unit : UInt16} (h : viaChar signed unit = unit)
    (h0 : unit ≠ 0) : unit.toUInt8 ≠ 0 := by
  intro hz
  refine h0 (h.symm.trans ?_)
  rw [viaChar, hz]
  cases signed <;> rfl

theorem strcpy16_eq : ∀ {src : List UInt16}, (∀ unit ∈ src, unit ≠ 0) →
    strcpy16 src = src ++ [0]
  | [], _ => rfl
  | ch :: src, h => by
    obtain ⟨hch, hsrc⟩ := forall_mem_cons.mp h
    rw [strcpy16, if_neg hch, strcpy16_eq hsrc, cons_append]

/-- What is stored first is what should be copied, and what `strcpy16` stores if there is room for
all of it. -/
def Copies (signed : Bool) (src : List UInt16) (n : ℕ) : Prop :=
  src.take n ++ [0] <+: strncpy16 signed src n ∧
    (src.length < n → strcpy16 src <+: strncpy16 signed src n)

theorem strncpy16_copies_iff {signed : Bool} : ∀ {src : List UInt16} (n : ℕ),
    (∀ unit ∈ src, unit ≠ 0) →
      (src.take n ++ [0] <+: strncpy16 signed src n ↔
        ∀ unit ∈ src.take n, viaChar signed unit = unit)
  | src, 0, _ => by simp [strncpy16]
  | [], n + 1, _ => by
    have hz : viaChar signed 0 = 0 := by cases signed <;> rfl
    simp [strncpy16, hz]
  | unit :: src, n + 1, h => by
    obtain ⟨h0, hsrc⟩ := forall_mem_cons.mp h
    rw [strncpy16, headD_cons, take_succ_cons, cons_append, cons_prefix_cons, forall_mem_cons,
      tail_cons, eq_comm]
    refine and_congr_right fun hunit => ?_
    rw [if_neg (toUInt8_ne_zero hunit h0), strncpy16_copies_iff n hsrc]

theorem copies_iff_kept {signed : Bool} {src : List UInt16} (n : ℕ) (h : ∀ unit ∈ src, unit ≠ 0) :
    Copies signed src n ↔ ∀ unit ∈ src.take n, viaChar signed unit = unit := by
  rw [Copies, strncpy16_copies_iff n h, and_iff_left_iff_imp]
  intro hunits hn
  have hcopy := (strncpy16_copies_iff n h).mpr hunits
  rwa [take_of_length_le hn.le, ← strcpy16_eq h] at hcopy

theorem strzcmp16_antisymm : ∀ s1 s2 : List UInt16, strzcmp16 s2 s1 = -strzcmp16 s1 s2
  | [], [] => rfl
  | [], b :: _ => by simp [strzcmp16, zcmp]
  | a :: _, [] => by simp [strzcmp16, zcmp]
  | a :: s1, b :: s2 => by
    have ih := strzcmp16_antisymm s1 s2
    simp only [strzcmp16, zcmp, id_eq] at ih ⊢
    split_ifs <;> omega

theorem strzcmp16HN_eq : ∀ s1 s2 : List UInt16, strzcmp16HN s1 (s2.map ntohs) = strzcmp16 s1 s2
  | [], [] | a :: _, [] => rfl
  | [], b :: _ => by simp [strzcmp16, strzcmp16HN, zcmp, ntohs_ntohs]
  | a :: s1, b :: s2 => by
    have ih := strzcmp16HN_eq s1 s2
    simp only [strzcmp16, strzcmp16HN, map_cons, zcmp, ntohs_ntohs, id_eq] at ih ⊢
    rw [ih]

theorem toNat_eq_zero_iff {unit : UInt16} : unit.toNat = 0 ↔ 0 = unit := by
  rw [← UInt16.toNat_inj, UInt16.toNat_zero, eq_comm]

/-- `strzcmp16` is the lexicographic order, but for arrays that go on with a 0 unit. -/
theorem strzcmp16_pos_iff : ∀ {s1 s2 : List UInt16},
    0 < strzcmp16 s1 s2 ↔ s2.map UInt16.toNat < s1.map UInt16.toNat ∧ ¬ s2 ++ [0] <+: s1
  | [], [] => by simp [strzcmp16, zcmp]
  | [], b :: _ => by simp [strzcmp16, zcmp]
  | a :: s1, [] => by simp [strzcmp16, zcmp, Nat.pos_iff_ne_zero, toNat_eq_zero_iff]
  | a :: s1, b :: s2 => by
    have ih := @strzcmp16_pos_iff s1 s2
    simp only [strzcmp16, zcmp, id_eq, map_cons, cons_lt_cons_iff, cons_append, cons_prefix_cons,
      ← UInt16.toNat_inj] at ih ⊢
    by_cases hab : a.toNat = b.toNat
    · simp [hab, ih]
    · rw [if_pos (by omega)]
      omega

theorem strzcmp16_eq_zero_iff : ∀ {s1 s2 : List UInt16},
    strzcmp16 s1 s2 = 0 ↔ s1 = s2 ∨ s1 ++ [0] <+: s2 ∨ s2 ++ [0] <+: s1
  | [], [] => by simp [strzcmp16, zcmp]
  | [], b :: _ => by simp [strzcmp16, zcmp, toNat_eq_zero_iff]
  | a :: _, [] => by simp [strzcmp16, zcmp, toNat_eq_zero_iff]
  | a :: s1, b :: s2 => by
    have ih := @strzcmp16_eq_zero_iff s1 s2
    simp only [strzcmp16, zcmp, id_eq, cons.injEq, cons_append, cons_prefix_cons,
      ← UInt16.toNat_inj] at ih ⊢
    by_cases hab : a.toNat = b.toNat
    · simp [hab, ih]
    · rw [if_pos (by omega)]
      omega

/-- Transitivity fails only for two arrays that go on with a 0 unit behind the middle one. -/
theorem strzcmp16_trans_iff : ∀ s1 s2 s3 : List UInt16,
    (strzcmp16 s1 s2 ≤ 0 → strzcmp16 s2 s3 ≤ 0 → strzcmp16 s1 s3 ≤ 0) ↔
      ¬ (s2 ++ [0] <+: s1 ∧ s2 ++ [0] <+: s3 ∧ 0 < strzcmp16 s1 s3)
  | [], s2, s3 => by
    have h : strzcmp16 [] s3 ≤ 0 := by cases s3 <;> simp [strzcmp16, zcmp]
    simp [h]
  | a :: s1, [], s3 => by
    have hs3 : strzcmp16 [] s3 ≤ 0 := by cases s3 <;> simp [strzcmp16, zcmp]
    have ha : strzcmp16 (a :: s1) [] ≤ 0 ↔ 0 = a := by
      simp [strzcmp16, zcmp, toNat_eq_zero_iff]
    simp only [ha, hs3, nil_append, true_imp_iff, cons_prefix_cons, nil_prefix, and_true, not_and,
      not_lt]
    refine forall_congr' fun h0 => ⟨fun h _ => h, fun h => ?_⟩
    subst h0
    cases s3 with
    | nil => exact ha.mpr rfl
    | cons c s3 =>
      by_cases hc : 0 = c
      · exact h (cons_prefix_cons.mpr ⟨hc, nil_prefix⟩)
      · have hpos := mt toNat_eq_zero_iff.mp hc
        simp only [strzcmp16, zcmp, id_eq, UInt16.toNat_zero]
        rw [if_pos (by omega)]
        omega
  | a :: s1, b :: s2, [] => by
    refine iff_of_true (fun h h' => ?_) (fun h => by simpa using h.2.1)
    simp only [strzcmp16, zcmp, id_eq] at h h' ⊢
    split_ifs at h <;> omega
  | a :: s1, b :: s2, c :: s3 => by
    have ih := strzcmp16_trans_iff s1 s2 s3
    simp only [strzcmp16, zcmp, id_eq, cons_append, cons_prefix_cons, ← UInt16.toNat_inj] at ih ⊢
    by_cases hab : a.toNat = b.toNat
    · by_cases hbc : b.toNat = c.toNat
      · simp [hab, hbc, ih]
      · refine iff_of_true (fun _ h => ?_) (fun h => hbc h.2.1.1)
        rw [if_pos (by omega)] at h ⊢
        omega
    · refine iff_of_true (fun h h' => ?_) (fun h => hab h.1.1.symm)
      split_ifs at h h' ⊢ <;> omega

/-- **The helpers keep units and define an order** exactly in these cases: every unit that is copied
survives the conversion to `char`; arrays that differ do not differ by a 0 unit behind one of them;
and two arrays that go on with a 0 unit behind a third are not in the wrong order. -/
theorem units16_spec_iff (signed : Bool) :
    (∀ (src : List UInt16) (n : ℕ), (∀ unit ∈ src, unit ≠ 0) →
      (Copies signed src n ↔ ∀ unit ∈ src.take n, viaChar signed unit = unit))
    ∧ (∀ s1 s2 : List UInt16, strzcmp16 s2 s1 = -strzcmp16 s1 s2
        ∧ strzcmp16HN s1 (s2.map ntohs) = strzcmp16 s1 s2)
    ∧ (∀ s1 s2 : List UInt16, (strzcmp16 s1 s2 = 0 → s1 = s2) ↔
      ¬ s1 ++ [0] <+: s2 ∧ ¬ s2 ++ [0] <+: s1)
    ∧ ∀ s1 s2 s3 : List UInt16,
      (strzcmp16 s1 s2 ≤ 0 → strzcmp16 s2 s3 ≤ 0 → strzcmp16 s1 s3 ≤ 0) ↔
        ¬ (s2 ++ [0] <+: s1 ∧ s2 ++ [0] <+: s3 ∧
          s3.map UInt16.toNat < s1.map UInt16.toNat ∧ ¬ s3 ++ [0] <+: s1) := by
  refine ⟨fun src n => copies_iff_kept n,
    fun s1 s2 => ⟨strzcmp16_antisymm s1 s2, strzcmp16HN_eq s1 s2⟩, fun s1 s2 => ?_,
    fun s1 s2 s3 => ?_⟩
  · have hlen : ∀ {s s' : List UInt16}, s ++ [0] <+: s' → s ≠ s' := by
      rintro s s' h rfl
      simpa using h.length_le
    rw [strzcmp16_eq_zero_iff, or_imp, and_iff_right id, or_imp, ← not_or]
    refine ⟨fun h => ?_, fun h => ⟨fun h' => absurd (Or.inl h') h, fun h' => absurd (Or.inr h') h⟩⟩
    rintro (h' | h')
    · exact hlen h' (h.1 h')
    · exact hlen h' (h.2 h').symm
  · rw [strzcmp16_trans_iff, strzcmp16_pos_iff]

theorem units16_spec_latin : Copies true [0x61, 0x141] 1 ∧ ¬ Copies true [0x61, 0x141] 2 := by
  have h : ∀ unit ∈ [(0x61 : UInt16), 0x141], unit ≠ 0 :=
    forall_mem_cons.mpr ⟨by decide, forall_mem_singleton.mpr (by decide)⟩
  refine ⟨((units16_spec_iff true).1 _ 1 h).mpr (forall_mem_singleton.mpr (by decide)), ?_⟩
  rw [(units16_spec_iff true).1 _ 2 h]
  intro hall
  exact absurd (hall 0x141 (by simp)) (by decide)

theorem units16_lost :
    strncpy16 true [0x141] 1 = [0x41, 0] ∧ strncpy16 false [0x141] 1 = [0x41, 0]
      ∧ strzcmp16 [] [0] = 0
      ∧ strzcmp16 [0, 1] [] ≤ 0 ∧ strzcmp16 [] [0] ≤ 0 ∧ ¬ strzcmp16 [0, 1] [0] ≤ 0 := by
  decide

end Unicode
