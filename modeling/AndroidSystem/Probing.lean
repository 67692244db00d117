/-
Double hashing over a prime number of places.

From a start, steps of a fixed width modulo a prime visit every place exactly once before
they come back (`place_injective`, `exists_place`).

`prime_of_undivided` is a test for primes of up to some ten digits that evaluates
fast: it tries to divide by the numbers that have no factor 2, 3 or 5, eight at a time.
-/
import Mathlib.Data.Nat.Prime.Basic
import Mathlib.Data.Nat.ModEq
import Mathlib.Data.Fintype.EquivFin
import Mathlib.Tactic

namespace Probing

/-! ### Visiting places -/

/-- Place `k` of the sequence from `start` in steps of `inc`. -/
def place (start inc n k : ℕ) : ℕ := (start + k * inc) % n

variable {start inc n : ℕ}

theorem place_lt (hn : 0 < n) (k : ℕ) : place start inc n k < n := Nat.mod_lt _ hn

theorem place_succ (k : ℕ) : place start inc n (k + 1) = (place start inc n k + inc) % n := by
  rw [place, place, Nat.mod_add_mod, Nat.succ_mul, Nat.add_assoc]

/-- No place is visited twice in `n` steps. -/
theorem place_injective (hn : n.Prime) (hpos : 0 < inc) (hlt : inc < n) {j k : ℕ} (hj : j < n)
    (hk : k < n) (heq : place start inc n j = place start inc n k) : j = k := by
  have hcop : n.gcd inc = 1 := Nat.coprime_of_lt_prime hpos.ne' hlt hn
  have hmod : j * inc ≡ k * inc [MOD n] := Nat.ModEq.add_left_cancel' start heq
  have hmod' : j ≡ k [MOD n] := hmod.cancel_right_of_coprime hcop
  rwa [Nat.ModEq, Nat.mod_eq_of_lt hj, Nat.mod_eq_of_lt hk] at hmod'

/-- Every place is visited in `n` steps. -/
theorem exists_place (hn : n.Prime) (hpos : 0 < inc) (hlt : inc < n) {i : ℕ} (hi : i < n) :
    ∃ k < n, place start inc n k = i := by
  let f : Fin n → Fin n := fun k => ⟨place start inc n k, place_lt hn.pos k⟩
  have hinj : Function.Injective f := fun j k hjk =>
    Fin.ext (place_injective hn hpos hlt j.isLt k.isLt (Fin.mk.inj_iff.mp hjk))
  obtain ⟨k, hk⟩ := Finite.surjective_of_injective hinj ⟨i, hi⟩
  exact ⟨k, k.isLt, Fin.mk.inj_iff.mp hk⟩

/-! ### Primes -/

/-- The remainders, from 7 to 31, of numbers without a factor 2, 3 or 5. -/
def spokes : List ℕ := [7, 11, 13, 17, 19, 23, 29, 31]

/-- The product of the numbers without such a factor from `30 k + 7` to `30 k + 31`. -/
def wheel (k : ℕ) : ℕ := (spokes.map fun r => 30 * k + r).prod

theorem mod_thirty (m : ℕ) (hm : m < 30) (h2 : m % 2 ≠ 0) (h3 : m % 3 ≠ 0) (h5 : m % 5 ≠ 0) :
    m = 1 ∨ m ∈ spokes := by
  interval_cases m <;> simp_all [spokes]

/-- No factor of the wheels up to `k` is one of `n`. -/
def undivided (n : ℕ) : ℕ → Bool
  | 0 => n.gcd (wheel 0) == 1
  | k + 1 => n.gcd (wheel (k + 1)) == 1 && undivided n k

theorem gcd_wheel {k j : ℕ} (h : undivided n k = true) (hj : j ≤ k) : n.gcd (wheel j) = 1 := by
  induction k with
  | zero =>
    obtain rfl : j = 0 := by omega
    simpa [undivided] using h
  | succ k ih =>
    simp only [undivided, Bool.and_eq_true, beq_iff_eq] at h
    rcases Nat.lt_or_ge k j with hlt | hge
    · obtain rfl : j = k + 1 := by omega
      exact h.1
    · exact ih h.2 hge

theorem prime_of_undivided {k : ℕ} (h30 : n.gcd 30 = 1) (hn : 1 < n)
    (hk : n < (30 * k + 37) ^ 2) (h : undivided n k = true) : n.Prime := by
  by_contra hnp
  have hq := Nat.minFac_prime hn.ne'
  have hdvd := Nat.minFac_dvd n
  have hsq := Nat.minFac_sq_le_self (by omega) hnp
  generalize n.minFac = q at hq hdvd hsq
  have hcommon : ∀ d, 1 < d → d ∣ 30 → q % d ≠ 0 := fun d hd hd30 h0 =>
    hd.ne' (Nat.dvd_one.mp (h30 ▸ Nat.dvd_gcd ((Nat.dvd_of_mod_eq_zero h0).trans hdvd) hd30))
  have hlt : q < 30 * k + 37 := lt_of_pow_lt_pow_left₀ 2 (by omega) (hsq.trans_lt hk)
  have h2 := hcommon 2 (by norm_num) (by norm_num)
  have h3 := hcommon 3 (by norm_num) (by norm_num)
  have h5 := hcommon 5 (by norm_num) (by norm_num)
  -- so `q` is in one of the wheels
  obtain ⟨j, r, hr, hj, hqr⟩ : ∃ j r, r ∈ spokes ∧ j ≤ k ∧ q = 30 * j + r := by
    have hq1 := hq.one_lt
    have hmod : q % 30 = 1 ∨ q % 30 ∈ spokes :=
      mod_thirty _ (Nat.mod_lt q (by norm_num)) (by omega) (by omega) (by omega)
    rcases hmod with h1 | hmem
    · exact ⟨q / 30 - 1, 31, by decide, by omega, by omega⟩
    · refine ⟨q / 30, q % 30, hmem, ?_, by omega⟩
      simp only [spokes, List.mem_cons, List.not_mem_nil, or_false] at hmem
      omega
  have hwheel : q ∣ wheel j := hqr ▸ List.dvd_prod (List.mem_map_of_mem hr)
  have hone := Nat.dvd_gcd hdvd hwheel
  rw [gcd_wheel h hj] at hone
  exact hq.one_lt.ne' (Nat.dvd_one.mp hone)

end Probing
