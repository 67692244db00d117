/-
Ranges that tile an area.

A range is a pair of an offset and a length.  `Chain start l stop` says that the
ranges of `l`, in this order, are laid end to end from `start` to `stop`, and
`Tiles l stop` that the ranges of `l`, in some order, are laid end to end from 0 to
`stop`.  That notion is kept by what a packed data area goes through:

* `Tiles.snoc` — a range behind the last one;
* `Tiles.remove` — one range goes and those behind it move down;
* `Tiles.append` — the ranges of another area, moved up behind this one.

From it follow the facts that one reads off a tiling: the ranges stay inside the
area (`Tiles.le`), do not overlap (`Tiles.pairwise`), leave no hole (`Tiles.mem_iff`)
and start at multiples of a number that divides all lengths (`Tiles.dvd`).
-/
import Mathlib.Tactic

namespace Tiling

open List

/-- The ranges are laid end to end from `start` to `stop`. -/
def Chain (start : ℕ) : List (ℕ × ℕ) → ℕ → Prop
  | [], stop => start = stop
  | r :: l, stop => r.1 = start ∧ 0 < r.2 ∧ Chain (r.1 + r.2) l stop

/-- The ranges are laid end to end from 0 to `stop` in some order. -/
def Tiles (l : List (ℕ × ℕ)) (stop : ℕ) : Prop := ∃ l', l'.Perm l ∧ Chain 0 l' stop

/-- Two ranges without a common element. -/
def Apart (r s : ℕ × ℕ) : Prop := r.1 + r.2 ≤ s.1 ∨ s.1 + s.2 ≤ r.1

/-- The range after `n` elements at `o` were taken out. -/
def moveDown (o n : ℕ) (r : ℕ × ℕ) : ℕ × ℕ := if o < r.1 then (r.1 - n, r.2) else r

/-- The range moved up by `n`. -/
def moveUp (n : ℕ) (r : ℕ × ℕ) : ℕ × ℕ := (r.1 + n, r.2)

variable {start stop stop' n : ℕ} {l l' : List (ℕ × ℕ)} {r s : ℕ × ℕ}

theorem moveDown_fst (o n : ℕ) (r : ℕ × ℕ) :
    (moveDown o n r).1 = if o < r.1 then r.1 - n else r.1 := by
  rw [moveDown]
  split <;> rfl

theorem Apart.symm (h : Apart r s) : Apart s r := Or.symm h

/-! ### Chains -/

theorem chain_append :
    Chain start (l ++ l') stop ↔ ∃ mid, Chain start l mid ∧ Chain mid l' stop := by
  induction l generalizing start with
  | nil => simp [Chain]
  | cons r l ih =>
    simp only [cons_append, Chain, ih]
    constructor
    · rintro ⟨h₁, h₂, mid, h₃, h₄⟩
      exact ⟨mid, ⟨h₁, h₂, h₃⟩, h₄⟩
    · rintro ⟨mid, ⟨h₁, h₂, h₃⟩, h₄⟩
      exact ⟨h₁, h₂, mid, h₃, h₄⟩

section

variable (h : Chain start l stop)

include h

theorem Chain.le : start ≤ stop := by
  induction l generalizing start with
  | nil => exact Nat.le_of_eq h
  | cons r l ih =>
    obtain ⟨h₁, -, h₃⟩ := h
    have := ih h₃
    omega

/-- Every range of a chain lies between its ends. -/
theorem Chain.bounds (hr : r ∈ l) :
    start ≤ r.1 ∧ 0 < r.2 ∧ r.1 + r.2 ≤ stop := by
  induction l generalizing start with
  | nil => exact absurd hr not_mem_nil
  | cons s l ih =>
    obtain ⟨h₁, h₂, h₃⟩ := h
    rcases mem_cons.mp hr with rfl | hr
    · exact ⟨Nat.le_of_eq h₁.symm, h₂, h₃.le⟩
    · obtain ⟨hlo, hpos, hhi⟩ := ih h₃ hr
      exact ⟨by omega, hpos, hhi⟩

theorem Chain.pairwise : l.Pairwise Apart := by
  induction l generalizing start with
  | nil => exact .nil
  | cons r l ih =>
    obtain ⟨-, -, h₃⟩ := h
    exact .cons (fun s hs => Or.inl (h₃.bounds hs).1) (ih h₃)

/-- A chain covers what lies between its ends. -/
theorem Chain.exists_mem {x : ℕ} (hlo : start ≤ x) (hhi : x < stop) :
    ∃ r ∈ l, r.1 ≤ x ∧ x < r.1 + r.2 := by
  induction l generalizing start with
  | nil =>
    have heq : start = stop := h
    omega
  | cons r l ih =>
    obtain ⟨h₁, -, h₃⟩ := h
    by_cases hx : x < r.1 + r.2
    · exact ⟨r, mem_cons_self, by omega, hx⟩
    · obtain ⟨s, hs, hin⟩ := ih h₃ (by omega)
      exact ⟨s, mem_cons_of_mem _ hs, hin⟩

theorem Chain.dvd {d : ℕ} (hs : d ∣ start) (hl : ∀ r ∈ l, d ∣ r.2) :
    ∀ r ∈ l, d ∣ r.1 := by
  induction l generalizing start with
  | nil => exact fun r hr => absurd hr not_mem_nil
  | cons r l ih =>
    obtain ⟨h₁, -, h₃⟩ := h
    have hr : d ∣ r.1 := h₁ ▸ hs
    have hnext := ih h₃ (dvd_add hr (hl r mem_cons_self))
      fun s hs => hl s (mem_cons_of_mem _ hs)
    exact forall_mem_cons.mpr ⟨hr, hnext⟩

theorem Chain.map_moveUp (n : ℕ) :
    Chain (start + n) (l.map (moveUp n)) (stop + n) := by
  induction l generalizing start with
  | nil => exact congrArg (· + n) h
  | cons r l ih =>
    obtain ⟨h₁, h₂, h₃⟩ := h
    refine ⟨by rw [moveUp, h₁], h₂, ?_⟩
    have hnext := ih h₃
    have heq : (moveUp n r).1 + (moveUp n r).2 = r.1 + r.2 + n := by simp only [moveUp]; omega
    rwa [heq]

/-- A chain behind a gap, moved down over the gap. -/
theorem Chain.map_moveDown {o : ℕ} (ho : o + n ≤ start) (hn : 0 < n) :
    Chain (start - n) (l.map (moveDown o n)) (stop - n) := by
  induction l generalizing start with
  | nil => exact congrArg (· - n) h
  | cons r l ih =>
    obtain ⟨h₁, h₂, h₃⟩ := h
    have hmove : moveDown o n r = (r.1 - n, r.2) := if_pos (by omega)
    have hnext := ih h₃ (by omega)
    have heq : r.1 - n + r.2 = r.1 + r.2 - n := by omega
    rw [map_cons, hmove]
    exact ⟨congrArg (· - n) h₁, h₂, by rwa [heq]⟩

end

/-! ### Tilings -/

theorem Tiles.nil : Tiles [] 0 := ⟨[], .refl _, rfl⟩

variable (h : Tiles l stop)
include h

theorem Tiles.perm (hp : l.Perm l') : Tiles l' stop := by
  obtain ⟨c, hc, hchain⟩ := h
  exact ⟨c, hc.trans hp, hchain⟩

/-- A range behind the last one. -/
theorem Tiles.snoc (hn : 0 < n) : Tiles (l ++ [(stop, n)]) (stop + n) := by
  obtain ⟨c, hc, hchain⟩ := h
  exact ⟨c ++ [(stop, n)], hc.append_right _, chain_append.mpr ⟨stop, hchain, rfl, hn, rfl⟩⟩

/-- The ranges of another area behind those of this one. -/
theorem Tiles.append (h' : Tiles l' stop') :
    Tiles (l ++ l'.map (moveUp stop)) (stop + stop') := by
  obtain ⟨c, hc, hchain⟩ := h
  obtain ⟨c', hc', hchain'⟩ := h'
  refine ⟨c ++ c'.map (moveUp stop), hc.append (hc'.map _), chain_append.mpr ⟨stop, hchain, ?_⟩⟩
  have hup := hchain'.map_moveUp stop
  rwa [Nat.zero_add, Nat.add_comm stop' stop] at hup

omit h in
/-- One range goes, and those behind it move down. -/
theorem Tiles.remove (h : Tiles (r :: l) stop) :
    Tiles (l.map (moveDown r.1 r.2)) (stop - r.2) := by
  obtain ⟨c, hc, hchain⟩ := h
  obtain ⟨c₁, c₂, rfl⟩ := append_of_mem (hc.mem_iff.mpr mem_cons_self)
  have hrest : (c₁ ++ c₂).Perm l :=
    (perm_cons r).mp (perm_middle.symm.trans hc)
  obtain ⟨mid, hfirst, h₁, h₂, hsecond⟩ := chain_append.mp hchain
  -- what lies before the gap stays where it is
  have hstay : c₁.map (moveDown r.1 r.2) = c₁ := by
    refine (map_congr_left fun s hs => if_neg ?_).trans (map_id c₁)
    have := (hfirst.bounds hs).2
    omega
  refine ⟨(c₁ ++ c₂).map (moveDown r.1 r.2), hrest.map _, ?_⟩
  rw [map_append, hstay]
  refine chain_append.mpr ⟨mid, hfirst, ?_⟩
  have hdown := hsecond.map_moveDown (Nat.le_refl _) h₂
  rw [Nat.add_sub_cancel] at hdown
  exact h₁ ▸ hdown

theorem Tiles.le (hr : r ∈ l) : r.1 + r.2 ≤ stop := by
  obtain ⟨c, hc, hchain⟩ := h
  exact (hchain.bounds (hc.mem_iff.mpr hr)).2.2

theorem Tiles.pairwise : l.Pairwise Apart := by
  obtain ⟨c, hc, hchain⟩ := h
  exact hchain.pairwise.perm hc Apart.symm

omit h in
theorem Tiles.apart (h : Tiles (r :: l) stop) (hs : s ∈ l) : Apart r s :=
  rel_of_pairwise_cons h.pairwise hs

/-- The ranges cover the area and nothing else. -/
theorem Tiles.mem_iff (x : ℕ) :
    x < stop ↔ ∃ r ∈ l, r.1 ≤ x ∧ x < r.1 + r.2 := by
  constructor
  · intro hx
    obtain ⟨c, hc, hchain⟩ := h
    obtain ⟨r, hr, hin⟩ := hchain.exists_mem (Nat.zero_le x) hx
    exact ⟨r, hc.mem_iff.mp hr, hin⟩
  · rintro ⟨r, hr, -, hx⟩
    exact Nat.lt_of_lt_of_le hx (h.le hr)

theorem Tiles.dvd {d : ℕ} (hl : ∀ r ∈ l, d ∣ r.2) : ∀ r ∈ l, d ∣ r.1 := by
  obtain ⟨c, hc, hchain⟩ := h
  intro r hr
  exact hchain.dvd (dvd_zero d) (fun s hs => hl s (hc.mem_iff.mp hs)) r (hc.mem_iff.mpr hr)

end Tiling
