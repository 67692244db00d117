/-
Lists of intervals read as partial functions.

An `IntervalMap ι β` reads each item `i : ι` as a function on the half-open
interval `[lo i, hi i)`.  A list of items then denotes a partial function
`lookup : ℕ → Option β`: the first item that covers a position decides.

* `lookup_append` — lookup distributes over concatenation, so a piece of the
  list can be replaced by any piece with the same lookup (`lookup_replace`);
* `lookup_eq_of_mem` — in a pairwise disjoint list every covering item decides;
* `lookup_perm` — hence the order of a pairwise disjoint list is irrelevant;
* `sum_length_le` — disjoint intervals below `n` have at most `n` positions.
-/
import Mathlib.Tactic
import Mathlib.Data.List.Pairwise

/-- A reading of items as functions on half-open intervals. -/
structure IntervalMap (ι β : Type*) where
  lo : ι → ℕ
  hi : ι → ℕ
  val : ι → ℕ → β

namespace IntervalMap

open List

variable {ι β : Type*} (M : IntervalMap ι β)

/-- Item `i` covers position `x`. -/
def Covers (i : ι) (x : ℕ) : Prop := M.lo i ≤ x ∧ x < M.hi i

instance (i : ι) (x : ℕ) : Decidable (M.Covers i x) :=
  inferInstanceAs (Decidable (_ ∧ _))

/-- The items `i` and `j` have disjoint intervals. -/
def Apart (i j : ι) : Prop := M.hi i ≤ M.lo j ∨ M.hi j ≤ M.lo i

variable {j i : ι}

theorem Apart.symm (h : M.Apart i j) : M.Apart j i := Or.symm h

variable {x : ℕ}

theorem Apart.not_covers (h : M.Apart i j) (hi : M.Covers i x) :
    ¬ M.Covers j x := by
  rintro ⟨hj1, hj2⟩
  obtain ⟨hi1, hi2⟩ := hi
  rcases h with h | h <;> omega

/-- Two nonempty intervals without a common position are apart. -/
theorem apart_of_no_common (hi : M.lo i < M.hi i) (hj : M.lo j < M.hi j)
    (h : ∀ x, M.Covers i x → ¬ M.Covers j x) : M.Apart i j := by
  by_contra hna
  rw [Apart, not_or, not_le, not_le] at hna
  exact h (max (M.lo i) (M.lo j)) ⟨le_max_left _ _, max_lt hi hna.1⟩
    ⟨le_max_right _ _, max_lt hna.2 hj⟩

/-- The value of the first item of `l` that covers `x`. -/
def lookup (l : List ι) (x : ℕ) : Option β :=
  (l.find? fun i => decide (M.Covers i x)).map fun i => M.val i x

@[simp] theorem lookup_nil (x : ℕ) : M.lookup [] x = none := rfl

theorem lookup_cons (i : ι) (l : List ι) (x : ℕ) :
    M.lookup (i :: l) x = if M.Covers i x then some (M.val i x) else M.lookup l x := by
  by_cases h : M.Covers i x
  · rw [if_pos h, lookup, find?_cons_of_pos (by simpa using h), Option.map_some]
  · rw [if_neg h, lookup, find?_cons_of_neg (by simpa using h), lookup]

theorem lookup_append (l l' : List ι) (x : ℕ) :
    M.lookup (l ++ l') x = (M.lookup l x).or (M.lookup l' x) := by
  induction l with
  | nil => rfl
  | cons i l ih =>
    rw [cons_append, lookup_cons, lookup_cons, ih]
    by_cases h : M.Covers i x
    · rw [if_pos h, if_pos h, Option.some_or]
    · rw [if_neg h, if_neg h]

/-- A middle part of the list may be replaced by one with the same lookup. -/
theorem lookup_replace {m m' : List ι} (h : M.lookup m = M.lookup m') (pre post : List ι) :
    M.lookup (pre ++ m ++ post) = M.lookup (pre ++ m' ++ post) := by
  funext x
  rw [lookup_append, lookup_append, lookup_append, lookup_append, h]

variable {l : List ι}

theorem lookup_eq_none (h : ∀ i ∈ l, ¬ M.Covers i x) :
    M.lookup l x = none := by
  induction l with
  | nil => rfl
  | cons i l ih =>
    rw [lookup_cons, if_neg (h i mem_cons_self)]
    exact ih fun j hj => h j (mem_cons_of_mem i hj)

theorem exists_covers_of_lookup {v : β} (h : M.lookup l x = some v) :
    ∃ i ∈ l, M.Covers i x ∧ M.val i x = v := by
  induction l with
  | nil => exact absurd h (by simp)
  | cons i l ih =>
    rw [lookup_cons] at h
    by_cases hi : M.Covers i x
    · rw [if_pos hi, Option.some_inj] at h
      exact ⟨i, mem_cons_self, hi, h⟩
    · rw [if_neg hi] at h
      obtain ⟨j, hj, hc, hv⟩ := ih h
      exact ⟨j, mem_cons_of_mem i hj, hc, hv⟩

variable (hl : l.Pairwise M.Apart)
include hl

/-- In a pairwise disjoint list, any covering item decides the lookup. -/
theorem lookup_eq_of_mem (hi : i ∈ l) (hx : M.Covers i x) :
    M.lookup l x = some (M.val i x) := by
  induction l with
  | nil => exact absurd hi (by simp)
  | cons j l ih =>
    obtain ⟨hj, hl⟩ := pairwise_cons.mp hl
    rcases mem_cons.mp hi with rfl | hi
    · rw [lookup_cons, if_pos hx]
    · rw [lookup_cons, if_neg ((hj i hi).symm.not_covers M hx)]
      exact ih hl hi

/-- The order of a pairwise disjoint list does not matter. -/
theorem lookup_perm {l' : List ι} (h : l.Perm l') :
    M.lookup l = M.lookup l' := by
  funext x
  have hl' : l'.Pairwise M.Apart := hl.perm h (fun hab => hab.symm)
  cases hx : M.lookup l x with
  | none =>
    cases hx' : M.lookup l' x with
    | none => rfl
    | some v =>
      obtain ⟨i, hi, hc, -⟩ := M.exists_covers_of_lookup hx'
      rw [M.lookup_eq_of_mem hl (h.mem_iff.mpr hi) hc] at hx
      exact absurd hx (by simp)
  | some v =>
    obtain ⟨i, hi, hc, rfl⟩ := M.exists_covers_of_lookup hx
    rw [M.lookup_eq_of_mem hl' (h.mem_iff.mp hi) hc]

/-- Pairwise disjoint intervals below `n` have at most `n` positions in all. -/
theorem sum_length_le {n : ℕ} (hn : ∀ i ∈ l, M.hi i ≤ n) :
    (l.map fun i => M.hi i - M.lo i).sum ≤ n := by
  -- the positions covered by the list, as a finite set
  have hset : ∃ S : Finset ℕ, S.card = (l.map fun i => M.hi i - M.lo i).sum ∧
      ∀ x ∈ S, ∃ i ∈ l, M.Covers i x := by
    clear hn
    induction l with
    | nil => exact ⟨∅, rfl, fun x hx => absurd hx (Finset.notMem_empty x)⟩
    | cons i l ih =>
      obtain ⟨hi, hl⟩ := pairwise_cons.mp hl
      obtain ⟨S, hcard, hS⟩ := ih hl
      have hdisj : Disjoint (Finset.Ico (M.lo i) (M.hi i)) S := by
        rw [Finset.disjoint_left]
        intro x hx hxS
        obtain ⟨j, hj, hjx⟩ := hS x hxS
        exact (hi j hj).not_covers M (Finset.mem_Ico.mp hx) hjx
      refine ⟨Finset.Ico (M.lo i) (M.hi i) ∪ S, ?_, ?_⟩
      · rw [Finset.card_union_of_disjoint hdisj, Nat.card_Ico, hcard, map_cons, sum_cons]
      · intro x hx
        rcases Finset.mem_union.mp hx with hx | hx
        · exact ⟨i, mem_cons_self, Finset.mem_Ico.mp hx⟩
        · obtain ⟨j, hj, hjx⟩ := hS x hx
          exact ⟨j, mem_cons_of_mem i hj, hjx⟩
  obtain ⟨S, hcard, hS⟩ := hset
  have hsub : S ⊆ Finset.range n := by
    intro x hx
    obtain ⟨i, hi, hix⟩ := hS x hx
    exact Finset.mem_range.mpr (lt_of_lt_of_le hix.2 (hn i hi))
  rw [← hcard]
  exact (Finset.card_le_card hsub).trans_eq (Finset.card_range n)

end IntervalMap
