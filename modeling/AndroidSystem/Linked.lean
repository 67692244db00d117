/-
Linked lists in a memory.

Every cell `a` of a memory has a link `next a`; `null` is the address of no cell.
`Linked null next a l` says that the cells that are reached from `a` by following links are
those of `l`, in this order, and that the last one has the link `null`.  Such a list is
determined by its first cell (`Linked.unique`), and it visits no cell twice (`Linked.nodup`).

What programs do to such a list is stated for `next` as a function:

* `Linked.congr`, `Linked.reroute` — links of other cells, or the link of one cell, may change;
* `Linked.unlink` — the cell before `b` gets the link of `b`.
-/
import Mathlib.Tactic

open List Function

/-- The cells of `l` are linked, from `a` to `null`. -/
inductive Linked {α : Type} (null : α) (next : α → α) : α → List α → Prop
  | nil : Linked null next null []
  | cons {a : α} {l : List α} : a ≠ null → Linked null next (next a) l → Linked null next a (a :: l)

namespace Linked

variable {α : Type} {null : α} {next next' : α → α} {a b c : α} {l l₁ l₂ : List α}

theorem eq_nil (h : Linked null next null l) : l = [] := by
  cases h with
  | nil => rfl
  | cons hne _ => exact absurd rfl hne

variable (h : Linked null next a l)
include h

theorem head (ha : a ≠ null) : ∃ l', l = a :: l' := by
  cases h with
  | nil => exact absurd rfl ha
  | cons _ _ => exact ⟨_, rfl⟩

theorem ne_null : ∀ b ∈ l, b ≠ null := by
  induction h with
  | nil => exact fun b hb => absurd hb not_mem_nil
  | cons hne _ ih => exact forall_mem_cons.mpr ⟨hne, ih⟩

omit h in
/-- The list is determined by its first cell. -/
theorem unique (h₁ : Linked null next a l₁) (h₂ : Linked null next a l₂) : l₁ = l₂ := by
  induction h₁ generalizing l₂ with
  | nil => exact h₂.eq_nil.symm
  | cons hne _ ih =>
    cases h₂ with
    | nil => exact absurd rfl hne
    | cons _ htail => rw [ih htail]

/-- Links of other cells do not matter. -/
theorem congr (hsame : ∀ b ∈ l, next' b = next b) :
    Linked null next' a l := by
  induction h with
  | nil => exact .nil
  | cons hne _ ih =>
    refine .cons hne ?_
    rw [hsame _ mem_cons_self]
    exact ih fun b hb => hsame b (mem_cons_of_mem _ hb)

omit h in
/-- From any of its cells on, a list is linked. -/
theorem drop (h : Linked null next a (l₁ ++ b :: l₂)) : Linked null next b (b :: l₂) := by
  induction l₁ generalizing a with
  | nil =>
    cases h with
    | cons hne htail => exact .cons hne htail
  | cons c l₁ ih =>
    cases h with
    | cons _ htail => exact ih htail

omit h in
theorem tail (h : Linked null next a (b :: l)) : a = b ∧ Linked null next (next b) l := by
  cases h with
  | cons _ htail => exact ⟨rfl, htail⟩

/-- A list that ends visits no cell twice: it would go on from the second visit as from the
first. -/
theorem nodup : l.Nodup := by
  induction h with
  | nil => exact nodup_nil
  | @cons a l hne htail ih =>
    refine nodup_cons.mpr ⟨fun hmem => ?_, ih⟩
    obtain ⟨l₁, l₂, rfl⟩ := append_of_mem hmem
    have hlen := congrArg List.length ((Linked.cons hne htail).unique htail.drop)
    simp only [length_cons, length_append] at hlen
    omega

/-- What holds of the first cell and is passed on along links holds of all cells. -/
theorem forall_mem {P : α → Prop} (ha : a ≠ null → P a)
    (hstep : ∀ b ∈ l, P b → next b ≠ null → P (next b)) : ∀ b ∈ l, P b := by
  induction h with
  | nil => exact fun b hb => absurd hb not_mem_nil
  | @cons a l hne htail ih =>
    refine forall_mem_cons.mpr ⟨ha hne, ih (hstep a mem_cons_self (ha hne)) ?_⟩
    exact fun b hb => hstep b (mem_cons_of_mem _ hb)

/-- A list is no longer than a list of all its cells. -/
theorem length_le (hsub : l ⊆ l₁) : l.length ≤ l₁.length :=
  (subperm_of_subset h.nodup hsub).length_le

/-- Where the link of `c` has changed, a list that comes to `c` goes on from there. -/
theorem reroute {P : α → Prop} (hP : ∀ b ∈ l, P b)
    (hsame : ∀ b, b ≠ c → next' b = next b) (hl₁ : Linked null next' c l₁) (hP₁ : ∀ b ∈ l₁, P b) :
    ∃ l₂, Linked null next' a l₂ ∧ ∀ b ∈ l₂, P b := by
  induction h with
  | nil => exact ⟨[], .nil, fun b hb => absurd hb not_mem_nil⟩
  | @cons a l hne _ ih =>
    by_cases hac : a = c
    · exact ⟨l₁, hac ▸ hl₁, hP₁⟩
    · obtain ⟨l₂, hl₂, hP₂⟩ := ih fun b hb => hP b (mem_cons_of_mem _ hb)
      refine ⟨a :: l₂, .cons hne ?_, forall_mem_cons.mpr ⟨hP a mem_cons_self, hP₂⟩⟩
      rwa [hsame a hac]

variable [DecidableEq α]

omit h in
/-- **Unlinking.**  The cell before `b` gets the link of `b`. -/
theorem unlink (h : Linked null next a (l₁ ++ c :: b :: l₂)) :
    Linked null (Function.update next c (next b)) a (l₁ ++ c :: l₂) := by
  have hnodup := h.nodup
  induction l₁ generalizing a with
  | nil =>
    obtain ⟨rfl, hc⟩ := h.tail
    obtain ⟨-, hb⟩ := hc.tail
    refine .cons (h.ne_null _ mem_cons_self) ?_
    rw [update_self]
    refine hb.congr fun x hx => update_of_ne ?_ _ _
    rintro rfl
    exact (nodup_cons.mp hnodup).1 (mem_cons_of_mem _ hx)
  | cons d l₁ ih =>
    obtain ⟨rfl, hd⟩ := h.tail
    have hne : a ≠ c := by
      rintro rfl
      exact (nodup_cons.mp hnodup).1 (mem_append_right _ mem_cons_self)
    refine .cons (h.ne_null _ mem_cons_self) ?_
    rw [update_of_ne hne]
    exact ih hd (nodup_cons.mp hnodup).2

end Linked
