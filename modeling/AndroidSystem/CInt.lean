/-
Fixed-width C integers over `ℕ` and `ℤ`.

The programs compute in `unsigned int`, `int` and `int64_t`.  A value of an
unsigned type is a natural number below `2 ^ 32`; wherever an operation or an
implicit conversion can wrap, the model writes the reduction out:

* `u32 n` — reduction to `unsigned int`;
* `i32 n` — the `int` with the bit pattern of the `unsigned int` `n`;
* `usub a b` — subtraction of `unsigned int`s;
* `toU32 z` — conversion of an `int64_t` to `unsigned int`;
* `s32 z`, `i64 z` — reduction to `int32_t` and `int64_t` (two's complement).

Each reduction comes with the one lemma that removes it when the value fits.  Functions that can
fail return an `Except`, and `bind_eq_ok` is what a call that returns says of its parts.
-/
import Mathlib.Tactic

namespace CInt

/-- Reduction to `unsigned int`. -/
def u32 (n : ℕ) : ℕ := n % 2 ^ 32

/-- Subtraction of `unsigned int`s. -/
def usub (a b : ℕ) : ℕ := u32 (a + (2 ^ 32 - u32 b))

/-- The `int` that has the bit pattern of the `unsigned int` `n`. -/
def i32 (n : ℕ) : ℤ :=
  if u32 n < 2 ^ 31 then (u32 n : ℤ) else (u32 n : ℤ) - 2 ^ 32

/-- Conversion of a signed value to `unsigned int`. -/
def toU32 (z : ℤ) : ℕ := (z % 2 ^ 32).toNat

/-- Reduction to `int32_t`. -/
def s32 (z : ℤ) : ℤ := Int.bmod z (2 ^ 32)

/-- Reduction to `int64_t`. -/
def i64 (z : ℤ) : ℤ := Int.bmod z (2 ^ 64)

variable (n : ℕ)

theorem u32_lt : u32 n < 2 ^ 32 := Nat.mod_lt _ (by norm_num)

theorem u32_of_lt {n : ℕ} (h : n < 2 ^ 32) : u32 n = n := Nat.mod_eq_of_lt h

theorem u32_le : u32 n ≤ n := Nat.mod_le _ _

@[simp] theorem u32_u32 : u32 (u32 n) = u32 n := u32_of_lt (u32_lt n)

theorem usub_of_le {a b : ℕ} (hb : b ≤ a) (ha : a < 2 ^ 32) : usub a b = a - b := by
  have hbu : u32 b = b := u32_of_lt (by omega)
  rw [usub, hbu, u32]
  omega

theorem i32_of_lt {n : ℕ} (h : n < 2 ^ 31) : i32 n = n := by
  have hu : u32 n = n := u32_of_lt (by omega)
  rw [i32, hu, if_pos h]

theorem i32_neg {n : ℕ} (h : 2 ^ 31 ≤ n) (h' : n < 2 ^ 32) : i32 n < 0 := by
  rw [i32, u32_of_lt h', if_neg (by omega)]
  omega

theorem toU32_natCast : toU32 n = u32 n := by
  rw [toU32, u32]
  omega

/-- Narrowing forgets that a number did not fit an `int64_t`. -/
theorem toU32_i64 : toU32 (i64 n) = u32 n := by
  rw [toU32, i64, Int.bmod_def, u32]
  split <;> omega

theorem s32_of_range {z : ℤ} (hlo : -2 ^ 31 ≤ z) (hhi : z < 2 ^ 31) : s32 z = z := by
  rw [s32, Int.bmod_eq_of_le]
  · norm_num
    omega
  · norm_num
    omega

theorem i64_of_range {z : ℤ} (hlo : -2 ^ 63 ≤ z) (hhi : z < 2 ^ 63) : i64 z = z := by
  rw [i64, Int.bmod_eq_of_le]
  · norm_num
    omega
  · norm_num
    omega

theorem i64_sub_i64 {a b : ℕ} (ha : a < 2 ^ 63) (hb : b < 2 ^ 63) :
    i64 (a - i64 b) = (a : ℤ) - b := by
  have hb' : i64 b = b := i64_of_range (by omega) (by omega)
  rw [hb', i64_of_range (by omega) (by omega)]

theorem bind_eq_ok {ε α β : Type} {x : Except ε α} {g : α → Except ε β} {b : β}
    (h : x >>= g = .ok b) : ∃ a, x = .ok a ∧ g a = .ok b := by
  cases x with
  | error e => cases h
  | ok a => exact ⟨a, rfl, h⟩

end CInt
