/-
The cursor of a block allocation of an ext4 image.

An allocation has two lists of regions, for the data and for the out-of-band blocks, each with a
cursor: the region `iter` and the offset `partial_iter` in it.

* `advance_shifts_iff` — advancing the cursor shifts the lookup of blocks exactly if it stays in its
  region, and then advances add up.
* `advance_lost` — an advance over the end of a region is lost, since `advance_list_ptr` never
  stores the region that it has reached.
-/
import AndroidSystem.CInt

namespace Ext4

open CInt

/-- A `struct region`: `len` blocks from block number `block` on. -/
structure Region where
  block : ℕ
  len : ℕ

/-- A `struct region_list`, by the regions in front of `iter` and those from there on. -/
structure RegionList where
  passed : List Region
  iter : List Region
  partialIter : ℕ

/-- `struct block_allocation` -/
structure BlockAllocation where
  list : RegionList
  oobList : RegionList

/-- `EXT4_ALLOCATE_FAILED`. -/
def allocateFailed : ℕ := 2 ^ 32 - 1

/-- The loop of `get_block` and `get_oob_block`. -/
def lookup : List Region → ℕ → ℕ
  | [], _ => allocateFailed
  | reg :: rest, block =>
    if block < reg.len then u32 (reg.block + block) else lookup rest (block - reg.len)

/-- `get_block` -/
def getBlock (alloc : BlockAllocation) (block : ℕ) : ℕ :=
  lookup alloc.list.iter (u32 (block + alloc.list.partialIter))

/-- `get_oob_block` -/
def getOobBlock (alloc : BlockAllocation) (block : ℕ) : ℕ :=
  lookup alloc.oobList.iter (u32 (block + alloc.oobList.partialIter))

/-- The loop of `advance_list_ptr`: the new `partial_iter`, and what is returned. -/
def advance : List Region → ℤ → ℕ → ℕ × ℤ
  | [], blocks, offset => (offset, if 0 < blocks then -1 else 0)
  | reg :: rest, blocks, offset =>
    if 0 < blocks then
      if u32 (offset + toU32 blocks) < reg.len then (u32 (offset + toU32 blocks), 0)
      -- `reg` is a local variable: only the offset is written back
      else advance rest (i32 (usub (toU32 blocks) (usub reg.len offset))) 0
    else (offset, 0)

/-- `advance_list_ptr`: the region that is reached is not stored. -/
def advanceListPtr (list : RegionList) (blocks : ℤ) : RegionList × ℤ :=
  let r := advance list.iter blocks list.partialIter
  ({ list with partialIter := r.1 }, r.2)

/-- `advance_blocks` -/
def advanceBlocks (alloc : BlockAllocation) (blocks : ℤ) : BlockAllocation × ℤ :=
  let r := advanceListPtr alloc.list blocks
  ({ alloc with list := r.1 }, r.2)

/-- `advance_oob_blocks` -/
def advanceOobBlocks (alloc : BlockAllocation) (blocks : ℤ) : BlockAllocation × ℤ :=
  let r := advanceListPtr alloc.oobList blocks
  ({ alloc with oobList := r.1 }, r.2)

/-- The number of blocks of a list of regions. -/
def blockCount (regs : List Region) : ℕ := (regs.map Region.len).sum

/-- An advance by `n` from offset `p` ends inside the first region that is not empty, or does not
move at all. -/
def EndsInside (regs : List Region) (p n : ℕ) : Prop :=
  n = 0 ∨ ∃ reg ∈ (regs.dropWhile (·.len = 0)).head?, p + n < reg.len

/-- The regions do not overlap, and there are not more blocks than an `int` can count. -/
structure Distinct (regs : List Region) : Prop where
  apart : regs.Pairwise fun r r' => r.block + r.len ≤ r'.block ∨ r'.block + r'.len ≤ r.block
  block_lt : ∀ r ∈ regs, r.block + r.len < 2 ^ 32
  count_lt : blockCount regs < 2 ^ 31

theorem blockCount_cons (reg : Region) (regs : List Region) :
    blockCount (reg :: regs) = reg.len + blockCount regs := List.sum_cons

theorem endsInside_cons_zero {reg : Region} {regs : List Region} {p n : ℕ} (h : reg.len = 0) :
    EndsInside (reg :: regs) p n ↔ EndsInside regs p n := by
  rw [EndsInside, EndsInside, List.dropWhile_cons_of_pos (by simpa using h)]

theorem endsInside_cons_pos {reg : Region} {regs : List Region} {p n : ℕ} (h : 0 < reg.len) :
    EndsInside (reg :: regs) p n ↔ n = 0 ∨ p + n < reg.len := by
  rw [EndsInside, List.dropWhile_cons_of_neg (by simpa using h.ne')]
  simp

/-- An advance to a block that is there succeeds, and the offset that it leaves is too small unless
it ends inside the first region: what was passed is subtracted from it. -/
theorem advance_spec {regs : List Region} (hcount : blockCount regs < 2 ^ 31) :
    ∀ {n p : ℕ}, p + n ≤ blockCount regs →
      ∃ p', advance regs n p = (p', 0) ∧ p' ≤ p + n ∧ (p' = p + n ↔ EndsInside regs p n) := by
  induction regs with
  | nil =>
    intro n p hle
    obtain ⟨rfl, rfl⟩ : p = 0 ∧ n = 0 := by
      rw [blockCount] at hle
      simpa using hle
    exact ⟨0, rfl, le_rfl, iff_of_true rfl (Or.inl rfl)⟩
  | cons reg regs ih =>
    intro n p hle
    rw [blockCount_cons] at hcount hle
    rcases n.eq_zero_or_pos with rfl | hn
    · exact ⟨p, rfl, le_rfl, iff_of_true rfl (Or.inl rfl)⟩
    have hto : toU32 n = n := by
      rw [toU32_natCast, u32_of_lt (by omega)]
    rw [advance, if_pos (by omega), hto, u32_of_lt (by omega)]
    by_cases hin : p + n < reg.len
    · rw [if_pos hin]
      exact ⟨p + n, rfl, le_rfl,
        iff_of_true rfl ((endsInside_cons_pos (by omega)).mpr (Or.inr hin))⟩
    have hleft : usub n (usub reg.len p) = p + n - reg.len := by
      simp only [usub, u32]
      omega
    rw [if_neg hin, hleft, i32_of_lt (by omega)]
    obtain ⟨p', hadv, hp', hiff⟩ := ih (by omega) (n := p + n - reg.len) (p := 0) (by omega)
    refine ⟨p', hadv, by omega, ?_⟩
    rcases reg.len.eq_zero_or_pos with h0 | hpos
    · rw [h0, Nat.sub_zero, Nat.zero_add] at hiff
      rw [endsInside_cons_zero h0, hiff, EndsInside, EndsInside, Nat.zero_add,
        or_iff_right (by omega), or_iff_right hn.ne']
    · rw [endsInside_cons_pos hpos]
      omega

theorem lookup_mem {regs : List Region} (hd : ∀ r ∈ regs, r.block + r.len < 2 ^ 32) :
    ∀ {i : ℕ}, i < blockCount regs →
      ∃ r ∈ regs, r.block ≤ lookup regs i ∧ lookup regs i < r.block + r.len := by
  induction regs with
  | nil => exact fun h => absurd h (Nat.not_lt_zero _)
  | cons reg regs ih =>
    intro i hi
    rw [blockCount_cons] at hi
    have hreg := hd reg List.mem_cons_self
    rw [lookup]
    split_ifs with h
    · rw [u32_of_lt (by omega)]
      exact ⟨reg, List.mem_cons_self, by omega, by omega⟩
    · obtain ⟨r, hr, hlookup⟩ := ih (fun r hr => hd r (List.mem_cons_of_mem _ hr))
        (i := i - reg.len) (by omega)
      exact ⟨r, List.mem_cons_of_mem _ hr, hlookup⟩

/-- Different positions are different blocks. -/
theorem lookup_inj {regs : List Region} (hd : Distinct regs) :
    ∀ {i j : ℕ}, i < blockCount regs → j < blockCount regs → lookup regs i = lookup regs j →
      i = j := by
  obtain ⟨hapart, hlt, -⟩ := hd
  induction regs with
  | nil => exact fun h => absurd h (Nat.not_lt_zero _)
  | cons reg regs ih =>
    intro i j hi hj heq
    rw [blockCount_cons] at hi hj
    obtain ⟨hreg, hapart⟩ := List.pairwise_cons.mp hapart
    obtain ⟨hregLt, hlt⟩ := List.forall_mem_cons.mp hlt
    rw [lookup, lookup] at heq
    have hother : ∀ k l, k < reg.len → l < blockCount regs →
        u32 (reg.block + k) ≠ lookup regs l := by
      intro k l hk hl
      obtain ⟨r, hr, hle, hgt⟩ := lookup_mem hlt hl
      rw [u32_of_lt (by omega)]
      have := hreg r hr
      omega
    split_ifs at heq with h h' h'
    · rw [u32_of_lt (by omega), u32_of_lt (by omega)] at heq
      omega
    · exact absurd heq (hother i _ h (by omega))
    · exact absurd heq.symm (hother j _ h' (by omega))
    · have := ih hapart hlt (i := i - reg.len) (j := j - reg.len) (by omega) (by omega) heq
      omega

/-- Advances one after the other, and whether all of them return 0. -/
def advanceRun {α : Type} (adv : α → ℤ → α × ℤ) : α → List ℕ → α × Bool
  | a, [] => (a, true)
  | a, n :: ns =>
    let r := adv a n
    let r' := advanceRun adv r.1 ns
    (r'.1, r.2 = 0 && r'.2)

/-- After advances by `ns`, which all return 0, block `k` is what block `ns.sum + k` was, and the
cursor is where one advance by the sum leaves it. -/
def Shifts (adv : BlockAllocation → ℤ → BlockAllocation × ℤ) (get : BlockAllocation → ℕ → ℕ)
    (alloc : BlockAllocation) (ns : List ℕ) (k : ℕ) : Prop :=
  (advanceRun adv alloc ns).2 = true ∧
    get (advanceRun adv alloc ns).1 k = get alloc (ns.sum + k) ∧
    (advanceRun adv alloc ns).1 = (adv alloc (ns.sum : ℕ)).1

variable {list : RegionList} {ns : List ℕ} {k : ℕ}

theorem endsInside_add {regs : List Region} {p n m : ℕ} :
    EndsInside regs p n ∧ EndsInside regs (p + n) m ↔ EndsInside regs p (n + m) := by
  simp only [EndsInside]
  cases (regs.dropWhile (·.len = 0)).head? with
  | none => simp
  | some reg =>
    simp
    omega

theorem advanceRun_spec (ns : List ℕ) (hcount : blockCount list.iter < 2 ^ 31)
    (hle : list.partialIter + ns.sum ≤ blockCount list.iter) :
    ∃ p', advanceRun advanceListPtr list ns = ({ list with partialIter := p' }, true) ∧
      p' ≤ list.partialIter + ns.sum ∧
      (p' = list.partialIter + ns.sum ↔ EndsInside list.iter list.partialIter ns.sum) := by
  induction ns generalizing list with
  | nil => exact ⟨_, rfl, le_rfl, iff_of_true rfl (Or.inl rfl)⟩
  | cons n ns ih =>
    rw [List.sum_cons] at hle ⊢
    obtain ⟨p₁, hadv, hp₁, hiff₁⟩ := advance_spec hcount (n := n) (p := list.partialIter) (by omega)
    obtain ⟨p', hrun, hp', hiff⟩ := @ih { list with partialIter := p₁ } hcount
      (le_trans (by dsimp only; omega) hle)
    refine ⟨p', ?_, by dsimp only at hp'; omega, ?_⟩
    · rw [advanceRun, advanceListPtr, hadv, hrun]
      rfl
    · rw [← endsInside_add, ← hiff₁]
      dsimp only at hp' hiff
      constructor
      · intro h
        obtain rfl : p₁ = list.partialIter + n := by omega
        exact ⟨rfl, hiff.mp (by omega)⟩
      · rintro ⟨rfl, h⟩
        rw [hiff.mpr h, Nat.add_assoc]

/-- The law for one list: the offset that is left decides, since blocks are different. -/
theorem advanceRun_shifts_iff (hd : Distinct list.iter)
    (hk : list.partialIter + (ns.sum + k) < blockCount list.iter) :
    (advanceRun advanceListPtr list ns).2 = true ∧
      (lookup (advanceRun advanceListPtr list ns).1.iter
            (u32 (k + (advanceRun advanceListPtr list ns).1.partialIter)) =
          lookup list.iter (u32 (ns.sum + k + list.partialIter)) ∧
        (advanceRun advanceListPtr list ns).1 = (advanceListPtr list (ns.sum : ℕ)).1) ↔
      EndsInside list.iter list.partialIter ns.sum := by
  have hcount := hd.count_lt
  obtain ⟨p', hrun, hp', hiff⟩ := advanceRun_spec ns hcount (by omega)
  obtain ⟨p₁, hadv, -, hiff₁⟩ := advance_spec hcount (n := ns.sum) (p := list.partialIter)
    (by omega)
  rw [hrun, advanceListPtr, hadv, ← hiff]
  dsimp only
  rw [u32_of_lt (by omega), u32_of_lt (by omega)]
  refine ⟨fun h => ?_, fun h => ⟨rfl, by rw [h]; congr 1; omega, ?_⟩⟩
  · have := lookup_inj hd (by omega) (by omega) h.2.1
    omega
  · rw [h, hiff₁.mpr (hiff.mp h)]

theorem advanceRun_advanceBlocks (alloc : BlockAllocation) :
    advanceRun advanceBlocks alloc ns = ({ alloc with
      list := (advanceRun advanceListPtr alloc.list ns).1 },
      (advanceRun advanceListPtr alloc.list ns).2) := by
  induction ns generalizing alloc with
  | nil => rfl
  | cons n ns ih => rw [advanceRun, ih]; rfl

theorem advanceRun_advanceOobBlocks (alloc : BlockAllocation) :
    advanceRun advanceOobBlocks alloc ns = ({ alloc with
      oobList := (advanceRun advanceListPtr alloc.oobList ns).1 },
      (advanceRun advanceListPtr alloc.oobList ns).2) := by
  induction ns generalizing alloc with
  | nil => rfl
  | cons n ns ih => rw [advanceRun, ih]; rfl

/-- **Advances shift the lookup of blocks** exactly if they end inside the first region from the
cursor on, for the data and for the out-of-band blocks. -/
theorem advance_shifts_iff (alloc : BlockAllocation) (ns : List ℕ) (k : ℕ) :
    (Distinct alloc.list.iter →
      alloc.list.partialIter + (ns.sum + k) < blockCount alloc.list.iter →
      (Shifts advanceBlocks getBlock alloc ns k ↔
        EndsInside alloc.list.iter alloc.list.partialIter ns.sum)) ∧
    (Distinct alloc.oobList.iter →
      alloc.oobList.partialIter + (ns.sum + k) < blockCount alloc.oobList.iter →
      (Shifts advanceOobBlocks getOobBlock alloc ns k ↔
        EndsInside alloc.oobList.iter alloc.oobList.partialIter ns.sum)) := by
  constructor <;> intro hd hk
  · rw [← advanceRun_shifts_iff hd hk, Shifts, advanceRun_advanceBlocks]
    exact and_congr_right' (and_congr_right'
      ⟨congrArg BlockAllocation.list, congrArg fun list => { alloc with list := list }⟩)
  · rw [← advanceRun_shifts_iff hd hk, Shifts, advanceRun_advanceOobBlocks]
    exact and_congr_right' (and_congr_right'
      ⟨congrArg BlockAllocation.oobList, congrArg fun list => { alloc with oobList := list }⟩)

/-- An allocation of two regions of two blocks each. -/
def twoRegions : BlockAllocation :=
  ⟨⟨[], [⟨100, 2⟩, ⟨200, 2⟩], 0⟩, ⟨[], [], 0⟩⟩

theorem twoRegions_distinct : Distinct twoRegions.list.iter where
  apart := by simp [twoRegions]
  block_lt := by simp [twoRegions]
  count_lt := by decide

theorem advance_shifts_iff_twoRegions :
    Shifts advanceBlocks getBlock twoRegions [1, 0] 2 ∧
      ¬ Shifts advanceBlocks getBlock twoRegions [1, 1] 1 := by
  have h := fun ns k => (advance_shifts_iff twoRegions ns k).1 twoRegions_distinct
  refine ⟨(h [1, 0] 2 (by decide)).mpr (Or.inr ⟨_, rfl, by decide⟩), ?_⟩
  rw [h [1, 1] 1 (by decide)]
  simp [EndsInside, twoRegions]

theorem advance_lost :
    getBlock twoRegions 2 = 200 ∧ (advanceBlocks twoRegions 2).2 = 0
      ∧ getBlock (advanceBlocks twoRegions 2).1 0 = 100 := by
  decide

end Ext4
