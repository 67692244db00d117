/-
The number of indirect blocks of a file in an ext4 image (`ext4_utils/indirect.c`).

`inode_allocate_indirect` allocates the blocks of a file together with as many as
`indirect_blocks_needed` says, and `reserve_all_indirect_blocks` then takes the indirect blocks out
of the allocation: it splits regions at the cursor and moves them to the out-of-band list.

The regions are linked by pointers here, as in the source: `do_split_allocation` leaves the `prev`
of the region behind a split as it was, and the regions that are moved are those from a pointer on.
`malloc` of a region does not fail.

* `indirectBlocksNeeded_eq_reserved_iff` — if the region of the cursor has room for all blocks,
  the closed form is the number of indirect blocks that are reserved exactly up to the
  double-indirect blocks; behind them it divides by zero;
* `indirectBlocksNeeded_ne_reserved` — such a file, and an allocation whose first region ends with
  the block that is to be reserved: the whole next region is taken.
-/
import AndroidSystem.Ext4.Allocation

namespace Ext4

open CInt

/-! ### Regions in memory -/

/-- A `struct region`, with its links; a pointer is an index. -/
structure Node where
  region : Region
  next : Option ℕ
  prev : Option ℕ

/-- A `struct region_list`. -/
structure LinkedList where
  first : Option ℕ
  last : Option ℕ
  iter : Option ℕ
  partialIter : ℕ

/-- A `struct block_allocation`, and the memory that its regions are in. -/
structure LinkedAllocation where
  heap : List Node
  list : LinkedList
  oobList : LinkedList

namespace LinkedAllocation

variable (alloc : LinkedAllocation)

/-- The regions from a pointer on. -/
def regionsFrom (heap : List Node) : ℕ → Option ℕ → List Region
  | rounds + 1, some a =>
    match heap[a]? with
    | none => []
    | some node => node.region :: regionsFrom heap rounds node.next
  | _, _ => []

/-- `advance_blocks` -/
def advanceBlocks (blocks : ℤ) : LinkedAllocation × ℤ :=
  let r := advance (regionsFrom alloc.heap alloc.heap.length alloc.list.iter) blocks
    alloc.list.partialIter
  ({ alloc with list.partialIter := r.1 }, r.2)

/-- The loop of `do_split_allocation`: the region that block `len` is in, and where in it. -/
def splitPoint (heap : List Node) : ℕ → Option ℕ → ℕ → Option ℕ × ℕ
  | rounds + 1, some a, len =>
    match heap[a]? with
    | none => (none, len)
    | some node =>
      if node.region.len ≤ len then splitPoint heap rounds node.next (len - node.region.len)
      else (some a, len)
  | _, reg, len => (reg, len)

/-- `do_split_allocation`.  Only a split moves `iter`. -/
def doSplitAllocation (len : ℕ) : Option ℕ × LinkedAllocation :=
  match splitPoint alloc.heap alloc.heap.length alloc.list.iter len with
  | (some a, len + 1) =>
    match alloc.heap[a]? with
    | none => (none, alloc)
    | some node =>
      let new := alloc.heap.length
      let rest : Region := ⟨u32 (node.region.block + (len + 1)), node.region.len - (len + 1)⟩
      (alloc.list.iter,
        { alloc with
          heap := alloc.heap.set a ⟨⟨node.region.block, len + 1⟩, some new, node.prev⟩ ++
            [⟨rest, node.next, some a⟩]
          list.iter := some new })
  -- at the end of a region, or of the list
  | (reg, _) => (reg, alloc)

/-- `split_allocation` -/
def splitAllocation (len : ℕ) : Option ℕ × LinkedAllocation :=
  let (_, alloc) := doSplitAllocation alloc alloc.list.partialIter
  let (middle, alloc) := doSplitAllocation alloc len
  (middle, { alloc with list.partialIter := 0 })

/-- Writes a field of the region that a pointer is to, if it is not null. -/
def write (heap : List Node) (ptr : Option ℕ) (f : Node → Node) : List Node :=
  match ptr with
  | none => heap
  | some a => heap.modify a f

/-- `region_list_remove` from the list of data regions. -/
def regionListRemove (a : ℕ) (reg : Node) : LinkedAllocation :=
  let heap := write alloc.heap reg.prev fun n => { n with next := reg.next }
  let heap := write heap reg.next fun n => { n with prev := reg.prev }
  { alloc with
    heap := write heap (some a) fun n => { n with next := none, prev := none }
    list.first := if alloc.list.first = some a then reg.next else alloc.list.first
    list.last := if alloc.list.last = some a then reg.prev else alloc.list.last }

/-- `region_list_append` to the list of out-of-band regions. -/
def regionListAppend (a : ℕ) : LinkedAllocation :=
  if alloc.oobList.first = none then
    { alloc with
      heap := write alloc.heap (some a) fun n => { n with next := none, prev := none }
      oobList := ⟨some a, some a, some a, 0⟩ }
  else
    let heap := write alloc.heap alloc.oobList.last fun n => { n with next := some a }
    { alloc with
      heap := write heap (some a) fun n => { n with next := none, prev := alloc.oobList.last }
      oobList.last := some a }

/-- The loop of `reserve_oob_blocks`, and the number of blocks of the regions that it moves. -/
def moveRegions : ℕ → Option ℕ → LinkedAllocation → LinkedAllocation × ℕ
  | rounds + 1, some oob, alloc =>
    if alloc.list.iter = some oob then (alloc, 0)
    else
      match alloc.heap[oob]? with
      | none => (alloc, 0)
      | some reg =>
        let r := moveRegions rounds reg.next (regionListAppend (regionListRemove alloc oob reg) oob)
        (r.1, reg.region.len + r.2)
  | _, _, alloc => (alloc, 0)

/-- `reserve_oob_blocks`: the allocation, what is returned, and the number of blocks reserved. -/
def reserveOobBlocks (blocks : ℤ) : LinkedAllocation × ℤ × ℕ :=
  match splitAllocation alloc (toU32 blocks) with
  | (none, alloc) => (alloc, -1, 0)
  | (oob, alloc) =>
    let r := moveRegions alloc.heap.length oob alloc
    (r.1, 0, r.2)

end LinkedAllocation

/-! ### The number of indirect blocks -/

/-- `EXT4_NDIR_BLOCKS`. -/
def ndirBlocks : ℕ := 12

/-- `aux_info.blocks_per_ind`, for a block size. -/
def blocksPerInd (blockSize : ℕ) : ℕ := blockSize / 4

/-- `aux_info.blocks_per_dind` -/
def blocksPerDind (blockSize : ℕ) : ℕ := u32 (blocksPerInd blockSize * blocksPerInd blockSize)

/-- `aux_info.blocks_per_tind`, which should have one factor of one block only. -/
def blocksPerTind (blockSize : ℕ) : ℕ := u32 (blocksPerDind blockSize * blocksPerDind blockSize)

/-- What ends `indirect_blocks_needed` without a result. -/
inductive Failure
  | divisionByZero
  | requestTooLarge
  deriving DecidableEq

/-- `DIV_ROUND_UP` in `u32`. -/
def divRoundUp (x y : ℕ) : Except Failure ℕ :=
  if y = 0 then .error .divisionByZero else .ok (usub (x + y) 1 / y)

/-- `indirect_blocks_needed` -/
def indirectBlocksNeeded (blockSize len : ℕ) : Except Failure ℕ := do
  if len ≤ ndirBlocks then return 0
  let len := len - ndirBlocks
  let ind ← divRoundUp len (blocksPerInd blockSize)
  if len ≤ blocksPerInd blockSize then return ind
  let len := len - blocksPerInd blockSize
  let ind := u32 (ind + (← divRoundUp len (blocksPerDind blockSize)))
  if len ≤ blocksPerDind blockSize then return ind
  let len := len - blocksPerDind blockSize
  let ind := u32 (ind + (← divRoundUp len (blocksPerTind blockSize)))
  if len ≤ blocksPerTind blockSize then return ind
  .error .requestTooLarge

section Reserve

variable (force : Bool)

/-- What a function that reserves blocks gives: the allocation and the number of blocks, or nothing
if the program was left. -/
abbrev Reserved := Option (LinkedAllocation × ℕ)

/-- `error` leaves the program unless it runs with `force`; then the function returns. -/
def error (r : LinkedAllocation × ℕ) : Reserved := if force then some r else none

/-- `reserve_indirect_block` -/
def reserveIndirectBlock (alloc : LinkedAllocation) (len : ℤ) : Reserved :=
  let (alloc, result, n) := alloc.reserveOobBlocks 1
  if result ≠ 0 then error force (alloc, n)
  else
    let (alloc, result) := alloc.advanceBlocks len
    if result ≠ 0 then error force (alloc, n) else some (alloc, n)

/-- The loop that reserves a tree for every `per` of the `len` blocks, `block` being what it calls;
`none` also if it has not ended after the rounds that are given. -/
def reserveLoop (per : ℤ) (block : LinkedAllocation → ℤ → Reserved) :
    ℕ → LinkedAllocation → ℤ → Reserved
  | rounds, alloc, len =>
    if len ≤ 0 then some (alloc, 0)
    else
      match rounds with
      | 0 => none
      | rounds + 1 => do
        let (alloc, n) ← block alloc (min per len)
        let (alloc, others) ← reserveLoop per block rounds alloc (len - min per len)
        return (alloc, n + others)

/-- `reserve_dindirect_block` and `reserve_tindirect_block`. -/
def reserveTree (per : ℤ) (block : LinkedAllocation → ℤ → Reserved) (alloc : LinkedAllocation)
    (len : ℤ) : Reserved :=
  let (alloc, result, n) := alloc.reserveOobBlocks 1
  if result ≠ 0 then error force (alloc, n)
  else do
    let (alloc, others) ← reserveLoop per block len.toNat alloc len
    return (alloc, n + others)

/-- `reserve_dindirect_block` -/
def reserveDindirectBlock (blockSize : ℕ) : LinkedAllocation → ℤ → Reserved :=
  reserveTree force (i32 (blocksPerInd blockSize)) (reserveIndirectBlock force)

/-- `reserve_tindirect_block` -/
def reserveTindirectBlock (blockSize : ℕ) : LinkedAllocation → ℤ → Reserved :=
  reserveTree force (i32 (blocksPerDind blockSize)) (reserveDindirectBlock force blockSize)

/-- `reserve_all_indirect_blocks`; what its first `advance_blocks` returns is not looked at. -/
def reserveAllIndirectBlocks (blockSize : ℕ) (alloc : LinkedAllocation) (len : ℕ) : Reserved := do
  if len ≤ ndirBlocks then return (alloc, 0)
  let len := len - ndirBlocks
  let (alloc, _) := alloc.advanceBlocks ndirBlocks
  let indLen := min (blocksPerInd blockSize) len
  let (alloc, ind) ← reserveIndirectBlock force alloc (i32 indLen)
  let len := len - indLen
  if len = 0 then return (alloc, ind)
  let dindLen := min (blocksPerDind blockSize) len
  let (alloc, dind) ← reserveDindirectBlock force blockSize alloc (i32 dindLen)
  let len := len - dindLen
  if len = 0 then return (alloc, ind + dind)
  let tindLen := min (blocksPerTind blockSize) len
  let (alloc, tind) ← reserveTindirectBlock force blockSize alloc (i32 tindLen)
  if len - tindLen = 0 then return (alloc, ind + dind + tind)
  error force (alloc, ind + dind + tind)

end Reserve

/-! ### Reserving within a region -/

namespace LinkedAllocation

variable {alloc : LinkedAllocation} {heap : List Node} {node : Node} {c len room n : ℕ}

/-- The region of the cursor has `room` blocks from the cursor on. -/
def HasRoom (alloc : LinkedAllocation) (room : ℕ) : Prop :=
  ∃ c reg, alloc.list.iter = some c ∧ (alloc.heap.map Node.region)[c]? = some reg ∧
    reg.len = alloc.list.partialIter + room ∧ reg.len < 2 ^ 31

theorem splitPoint_inside (hc : heap[c]? = some node) (hlt : len < node.region.len) :
    splitPoint heap heap.length (some c) len = (some c, len) := by
  obtain ⟨hlen, -⟩ := List.getElem?_eq_some_iff.mp hc
  obtain ⟨rounds, hrounds⟩ := Nat.exists_eq_add_of_lt hlen
  rw [hrounds, splitPoint, hc]
  exact if_neg (not_le.mpr hlt)

/-- **A split inside the region of the cursor** leaves the cursor at its second part. -/
theorem doSplitAllocation_spec (hiter : alloc.list.iter = some c) (hc : alloc.heap[c]? = some node)
    (hlt : len < node.region.len) :
    ∃ alloc' c' node', doSplitAllocation alloc len = (some c, alloc') ∧
      alloc'.list.iter = some c' ∧ alloc'.heap[c']? = some node' ∧
      node'.region.len = node.region.len - len ∧
      (0 < len → c' ≠ c ∧ ∃ first, alloc'.heap[c]? = some first ∧ first.region.len = len ∧
        first.next = some c') := by
  obtain ⟨hlen, -⟩ := List.getElem?_eq_some_iff.mp hc
  cases len with
  | zero =>
    refine ⟨alloc, c, node, ?_, hiter, hc, rfl, fun h => absurd h (lt_irrefl 0)⟩
    rw [doSplitAllocation, hiter, splitPoint_inside hc hlt]
  | succ len =>
    let first : Node := ⟨⟨node.region.block, len + 1⟩, some alloc.heap.length, node.prev⟩
    let new : Node := ⟨⟨u32 (node.region.block + (len + 1)), node.region.len - (len + 1)⟩,
      node.next, some c⟩
    refine ⟨{ alloc with heap := alloc.heap.set c first ++ [new], list.iter := some _ }, _, new, ?_,
      rfl, ?_, rfl, fun _ => ⟨hlen.ne', first, ?_, rfl, rfl⟩⟩
    · rw [doSplitAllocation, hiter, splitPoint_inside hc hlt]
      dsimp only
      rw [hc]
    · rw [List.getElem?_append_right (by rw [List.length_set]), List.length_set, Nat.sub_self]
      rfl
    · rw [List.getElem?_append_left (by rwa [List.length_set]), List.getElem?_set_self hlen]

theorem map_region_write (ptr : Option ℕ) (f : Node → Node) (hf : ∀ n, (f n).region = n.region) :
    (write heap ptr f).map Node.region = heap.map Node.region := by
  cases ptr with
  | none => rfl
  | some a =>
    refine List.ext_getElem? fun i => ?_
    simp only [write, List.getElem?_map, List.getElem?_modify]
    split
    · cases heap[i]? with
      | none => rfl
      | some n => exact congrArg some (hf n)
    · simp

/-- Moving a region changes links only. -/
theorem map_region_moved (alloc : LinkedAllocation) (a : ℕ) (reg : Node) :
    ((alloc.regionListRemove a reg).regionListAppend a).heap.map Node.region =
      alloc.heap.map Node.region := by
  have hremove : (alloc.regionListRemove a reg).heap.map Node.region =
      alloc.heap.map Node.region := by
    simp only [regionListRemove]
    rw [map_region_write, map_region_write, map_region_write] <;> exact fun _ => rfl
  rw [← hremove, regionListAppend]
  split
  · dsimp only
    rw [map_region_write]
    exact fun _ => rfl
  · dsimp only
    rw [map_region_write, map_region_write] <;> exact fun _ => rfl

theorem list_moved (alloc : LinkedAllocation) (a : ℕ) (reg : Node) :
    ((alloc.regionListRemove a reg).regionListAppend a).list.iter = alloc.list.iter ∧
      ((alloc.regionListRemove a reg).regionListAppend a).list.partialIter =
        alloc.list.partialIter := by
  rw [regionListAppend]
  split <;> exact ⟨rfl, rfl⟩

/-- The loop moves the region before the cursor, and stops there. -/
theorem moveRegions_one {a : ℕ} (hne : c ≠ a) (hiter : alloc.list.iter = some c)
    (hget : alloc.heap[a]? = some node) (hnext : node.next = some c) (rounds : ℕ) :
    moveRegions (rounds + 2) (some a) alloc =
      (regionListAppend (regionListRemove alloc a node) a, node.region.len) := by
  have hstop : ¬ alloc.list.iter = some a := by
    rw [hiter]
    exact fun h => hne (Option.some.inj h)
  rw [moveRegions, if_neg hstop, hget]
  dsimp only
  rw [hnext, moveRegions, if_pos ((list_moved alloc a node).1.trans hiter)]
  rfl

/-- **One block is reserved** at the cursor. -/
theorem reserveOobBlocks_one (h : HasRoom alloc (room + 2)) :
    ∃ alloc', alloc.reserveOobBlocks 1 = (alloc', 0, 1) ∧ HasRoom alloc' (room + 1) := by
  obtain ⟨c, reg, hiter, hreg, hlen, hlt⟩ := h
  obtain ⟨node, hc, rfl⟩ := Option.map_eq_some_iff.mp (List.getElem?_map .. ▸ hreg)
  obtain ⟨alloc₁, c₁, node₁, hsplit₁, hiter₁, hc₁, hlen₁, -⟩ :=
    doSplitAllocation_spec hiter hc (show alloc.list.partialIter < node.region.len by omega)
  obtain ⟨alloc₂, c₂, node₂, hsplit₂, hiter₂, hc₂, hlen₂, hfirst⟩ :=
    doSplitAllocation_spec hiter₁ hc₁ (show 1 < node₁.region.len by omega)
  obtain ⟨hne, first, hget, hone, hnext⟩ := hfirst one_pos
  clear hfirst
  obtain ⟨rounds, hrounds⟩ : ∃ rounds, alloc₂.heap.length = rounds + 2 := by
    have h₁ := (List.getElem?_eq_some_iff.mp hc₂).1
    have h₂ := (List.getElem?_eq_some_iff.mp hget).1
    exact ⟨alloc₂.heap.length - 2, by omega⟩
  obtain ⟨alloc₃, hsplit, hheap, hiter₃, hoffset⟩ : ∃ alloc₃,
      splitAllocation alloc (toU32 1) = (some c₁, alloc₃) ∧ alloc₃.heap = alloc₂.heap ∧
        alloc₃.list.iter = alloc₂.list.iter ∧ alloc₃.list.partialIter = 0 := by
    refine ⟨{ alloc₂ with list.partialIter := 0 }, ?_, rfl, rfl, rfl⟩
    have h1 : toU32 1 = 1 := rfl
    rw [splitAllocation, hsplit₁, h1]
    dsimp only
    rw [hsplit₂]
  have hmove := moveRegions_one hne (hiter₃.trans hiter₂) (hheap ▸ hget) hnext rounds
  obtain ⟨hmoved, hoffset'⟩ := list_moved alloc₃ c₁ first
  refine ⟨_, ?_, c₂, node₂.region, hmoved.trans (hiter₃.trans hiter₂), ?_, ?_, by omega⟩
  · rw [reserveOobBlocks, hsplit]
    dsimp only
    rw [hheap, hrounds, hmove, hone]
  · rw [map_region_moved, hheap, List.getElem?_map, hc₂]
    rfl
  · rw [hoffset', hoffset]
    omega

/-- **An advance** inside the region of the cursor, or to its end. -/
theorem advanceBlocks_spec (h : HasRoom alloc room) (hle : n ≤ room) :
    ∃ alloc', alloc.advanceBlocks n = (alloc', 0) ∧ (n < room → HasRoom alloc' (room - n)) := by
  obtain ⟨c, reg, hiter, hreg, hlen, hlt⟩ := h
  obtain ⟨node, hc, rfl⟩ := Option.map_eq_some_iff.mp (List.getElem?_map .. ▸ hreg)
  obtain ⟨rounds, hrounds⟩ := Nat.exists_eq_add_of_lt (List.getElem?_eq_some_iff.mp hc).1
  obtain ⟨rest, hregs⟩ : ∃ rest, regionsFrom alloc.heap alloc.heap.length alloc.list.iter =
      node.region :: rest := by
    refine ⟨regionsFrom alloc.heap (c + rounds) node.next, ?_⟩
    rw [hrounds, hiter, regionsFrom, hc]
  have hto : toU32 n = n := by
    rw [toU32_natCast, u32_of_lt (by omega)]
  have hadv : ∃ p', advance (node.region :: rest) n alloc.list.partialIter = (p', 0) ∧
      (n < room → p' = alloc.list.partialIter + n) := by
    rcases n.eq_zero_or_pos with rfl | hn
    · exact ⟨_, rfl, fun _ => rfl⟩
    rw [advance, if_pos (by omega), hto, u32_of_lt (by omega)]
    split_ifs with hin
    · exact ⟨_, rfl, fun _ => rfl⟩
    · -- all of the region is passed
      have hleft : usub n (usub node.region.len alloc.list.partialIter) = 0 := by
        simp only [usub, u32]
        omega
      rw [hleft]
      refine ⟨0, ?_, fun h => by omega⟩
      cases rest <;> rfl
  obtain ⟨p', hadv, hp'⟩ := hadv
  refine ⟨{ alloc with list.partialIter := p' }, ?_,
    fun hn => ⟨c, node.region, hiter, hreg, ?_, hlt⟩⟩
  · rw [advanceBlocks, hregs, hadv]
  · have := hp' hn
    dsimp only
    omega

end LinkedAllocation

variable {alloc : LinkedAllocation} {room len p : ℕ}

open LinkedAllocation

/-- An indirect block and the `len` blocks that it is for. -/
theorem reserveIndirectBlock_spec (force : Bool) (h : HasRoom alloc room) (hpos : 0 < len)
    (hle : len + 1 ≤ room) :
    ∃ alloc', reserveIndirectBlock force alloc len = some (alloc', 1) ∧
      (len + 1 < room → HasRoom alloc' (room - (len + 1))) := by
  obtain ⟨rest, rfl⟩ := Nat.exists_eq_add_of_le (show 2 ≤ room by omega)
  obtain ⟨alloc₁, hres, hroom⟩ := reserveOobBlocks_one (Nat.add_comm 2 rest ▸ h)
  obtain ⟨alloc₂, hadv, hleft⟩ := advanceBlocks_spec hroom (n := len) (by omega)
  refine ⟨alloc₂, ?_, fun hlt => ?_⟩
  · rw [reserveIndirectBlock, hres]
    dsimp only
    rw [if_neg (by simp), hadv]
    rfl
  · have hroom' := hleft (by omega)
    rwa [show rest + 1 - len = 2 + rest - (len + 1) by omega] at hroom'

/-- The number of indirect blocks for `len` blocks. -/
def ceilDiv (len p : ℕ) : ℕ := (len + p - 1) / p

theorem ceilDiv_of_pos (hp : 0 < p) (hpos : 0 < len) :
    ceilDiv len p = 1 + ceilDiv (len - min p len) p := by
  rcases le_total p len with hle | hle
  · rw [ceilDiv, ceilDiv, min_eq_left hle,
      show len + p - 1 = len - p + p - 1 + p by omega, Nat.add_div_right _ hp, Nat.add_comm]
  · rw [ceilDiv, ceilDiv, min_eq_right hle, Nat.div_eq_of_lt (show len - len + p - 1 < p by omega),
      Nat.div_eq_of_lt_le (by omega : 1 * p ≤ len + p - 1) (by omega)]

/-- The loop reserves a block for every `p` of the `len` blocks. -/
theorem reserveLoop_spec (force : Bool) (hp : 0 < p) {rounds : ℕ} :
    ∀ (len room : ℕ) {alloc : LinkedAllocation}, len ≤ rounds → (0 < len → HasRoom alloc room) →
      len + ceilDiv len p ≤ room →
      ∃ alloc', reserveLoop p (reserveIndirectBlock force) rounds alloc len =
        some (alloc', ceilDiv len p) := by
  induction rounds with
  | zero =>
    intro len room alloc hlen _ _
    obtain rfl := Nat.le_zero.mp hlen
    refine ⟨alloc, ?_⟩
    rw [reserveLoop, if_pos (by simp), ceilDiv, Nat.div_eq_of_lt (by omega)]
  | succ rounds ih =>
    intro len room alloc hlen hroom hle
    rcases len.eq_zero_or_pos with rfl | hpos
    · refine ⟨alloc, ?_⟩
      rw [reserveLoop, if_pos (by simp), ceilDiv, Nat.div_eq_of_lt (by omega)]
    have hmin : min (p : ℤ) len = (min p len : ℕ) := by omega
    have hceil := ceilDiv_of_pos hp hpos
    have hmin' : 0 < min p len ∧ min p len ≤ len := by omega
    obtain ⟨alloc₁, hblock, hleft⟩ := reserveIndirectBlock_spec force (hroom hpos) hmin'.1
      (by omega)
    obtain ⟨alloc₂, hrest⟩ := ih (len - min p len) (room - (min p len + 1)) (by omega)
      (fun h => hleft (by omega)) (by omega)
    refine ⟨alloc₂, ?_⟩
    rw [reserveLoop, if_neg (by omega)]
    dsimp only
    rw [hmin, hblock, show (len : ℤ) - (min p len : ℕ) = (len - min p len : ℕ) by omega]
    simp only [Option.bind_eq_bind, Option.bind_some]
    rw [hrest, hceil]
    rfl

/-- The block sizes of ext4, from 1024 to 65536 bytes. -/
def Supported (blockSize : ℕ) : Prop := ∃ k ≤ 6, blockSize = 1024 * 2 ^ k

theorem Supported.blocksPer {blockSize : ℕ} (h : Supported blockSize) :
    0 < blocksPerInd blockSize ∧ blocksPerInd blockSize ≤ 2 ^ 14
      ∧ blocksPerDind blockSize = blocksPerInd blockSize ^ 2 ∧ blocksPerTind blockSize = 0 := by
  obtain ⟨k, hk, rfl⟩ := h
  interval_cases k <;> decide

/-- The number of indirect blocks of a file of `len` blocks without triple-indirect ones. -/
def treeBlocks (p len : ℕ) : ℕ :=
  if len ≤ ndirBlocks then 0
  else if len ≤ ndirBlocks + p then 1
  else 2 + ceilDiv (len - ndirBlocks - p) p

theorem divRoundUp_ok {x y : ℕ} (hy : 0 < y) (hxy : x + y < 2 ^ 32) :
    divRoundUp x y = .ok (ceilDiv x y) := by
  rw [divRoundUp, if_neg (by omega), usub_of_le (by omega) hxy, ceilDiv]

variable {blockSize : ℕ} (hbs : Supported blockSize)

include hbs in
/-- The closed form, up to the double-indirect blocks. -/
theorem indirectBlocksNeeded_of_le
    (hlen : len ≤ ndirBlocks + blocksPerInd blockSize + blocksPerInd blockSize ^ 2) :
    indirectBlocksNeeded blockSize len = .ok (treeBlocks (blocksPerInd blockSize) len) := by
  obtain ⟨hpos, hle, hdind, -⟩ := hbs.blocksPer
  rw [indirectBlocksNeeded, treeBlocks]
  rcases le_or_gt len ndirBlocks with hdir | hdir
  · rw [if_pos hdir, if_pos hdir]
    rfl
  rw [if_neg hdir.not_ge, if_neg hdir.not_ge, hdind]
  generalize blocksPerInd blockSize = p at *
  have hsq : p ^ 2 ≤ 2 ^ 28 := (Nat.pow_le_pow_left hle 2).trans (by norm_num)
  have hppos : 0 < p ^ 2 := by positivity
  have h12 : ndirBlocks = 12 := rfl
  dsimp only
  rw [divRoundUp_ok hpos (by omega)]
  rcases le_or_gt (len - ndirBlocks) p with hind | hind
  · -- the last blocks are behind the one indirect block
    have hone : ceilDiv (len - ndirBlocks) p = 1 := by
      rw [ceilDiv_of_pos hpos (by omega), min_eq_right hind, Nat.sub_self, ceilDiv,
        Nat.div_eq_of_lt (by omega)]
    rw [if_pos (show len ≤ ndirBlocks + p by omega), hone]
    simp only [bind, Except.bind, if_pos hind]
    rfl
  · have hceil : ceilDiv (len - ndirBlocks) p = 1 + ceilDiv (len - ndirBlocks - p) p := by
      rw [ceilDiv_of_pos hpos (by omega), min_eq_left hind.le]
    have hone : ceilDiv (len - ndirBlocks - p) (p ^ 2) = 1 := by
      rw [ceilDiv_of_pos hppos (by omega), min_eq_right (by omega), Nat.sub_self, ceilDiv,
        Nat.div_eq_of_lt (by omega)]
    have hsmall : ceilDiv (len - ndirBlocks - p) p ≤ len - ndirBlocks - p + p - 1 :=
      Nat.div_le_self _ _
    rw [divRoundUp_ok hppos (by omega), if_neg (show ¬ len ≤ ndirBlocks + p by omega), hceil, hone]
    simp only [bind, Except.bind, if_neg hind.not_ge,
      if_pos (show len - ndirBlocks - p ≤ p ^ 2 by omega)]
    rw [u32_of_lt (by omega), show 1 + ceilDiv (len - ndirBlocks - p) p + 1 =
      2 + ceilDiv (len - ndirBlocks - p) p by omega]
    rfl

include hbs in
/-- Behind the double-indirect blocks the closed form divides by zero. -/
theorem indirectBlocksNeeded_of_gt
    (hlen : ndirBlocks + blocksPerInd blockSize + blocksPerInd blockSize ^ 2 < len) :
    indirectBlocksNeeded blockSize len = .error .divisionByZero := by
  obtain ⟨hpos, -, hdind, htind⟩ := hbs.blocksPer
  have hppos : blocksPerInd blockSize ^ 2 ≠ 0 := by positivity
  simp only [indirectBlocksNeeded, hdind, htind, divRoundUp, if_neg hpos.ne', if_neg hppos,
    if_neg (show ¬ len ≤ ndirBlocks by omega), bind, Except.bind,
    if_neg (show ¬ len - ndirBlocks ≤ blocksPerInd blockSize by omega),
    if_neg (show ¬ len - ndirBlocks - blocksPerInd blockSize ≤ blocksPerInd blockSize ^ 2 by omega),
    if_true]

/-- The region of the cursor has room for `len` blocks and their indirect blocks. -/
def RoomFor (alloc : LinkedAllocation) (p len : ℕ) : Prop :=
  len ≤ ndirBlocks ∨ ∃ room, HasRoom alloc room ∧ len + treeBlocks p len ≤ room

include hbs in
/-- What is reserved, up to the double-indirect blocks. -/
theorem reserveAllIndirectBlocks_of_le (force : Bool)
    (hlen : len ≤ ndirBlocks + blocksPerInd blockSize + blocksPerInd blockSize ^ 2)
    (hroom : RoomFor alloc (blocksPerInd blockSize) len) :
    ∃ alloc', reserveAllIndirectBlocks force blockSize alloc len =
      some (alloc', treeBlocks (blocksPerInd blockSize) len) := by
  obtain ⟨hpos, hle, hdind, -⟩ := hbs.blocksPer
  have h12 : ndirBlocks = 12 := rfl
  rw [reserveAllIndirectBlocks, treeBlocks]
  rcases hroom with hdir | ⟨room, hroom, hfits⟩
  · rw [if_pos hdir, if_pos hdir]
    exact ⟨alloc, rfl⟩
  by_cases hdir : len ≤ ndirBlocks
  · rw [if_pos hdir, if_pos hdir]
    exact ⟨alloc, rfl⟩
  rw [if_neg hdir, if_neg hdir]
  rw [treeBlocks, if_neg hdir] at hfits
  simp only [reserveDindirectBlock, hdind]
  generalize blocksPerInd blockSize = p at *
  have hsq : p ^ 2 ≤ 2 ^ 28 := (Nat.pow_le_pow_left hle 2).trans (by norm_num)
  obtain ⟨alloc₁, hadv, hroom₁⟩ := advanceBlocks_spec hroom (n := ndirBlocks)
    (by split_ifs at hfits <;> omega)
  have hroom₁ := hroom₁ (by split_ifs at hfits <;> omega)
  have hmin : 0 < min p (len - ndirBlocks) ∧ min p (len - ndirBlocks) ≤ len - ndirBlocks := by omega
  obtain ⟨alloc₂, hind, hroom₂⟩ := reserveIndirectBlock_spec force hroom₁ hmin.1
    (by split_ifs at hfits <;> omega)
  rw [hadv, i32_of_lt (by omega)]
  dsimp only
  rw [hind]
  simp only [Option.bind_eq_bind, Option.bind_some]
  rcases le_or_gt len (ndirBlocks + p) with hone | hone
  · rw [if_pos (show len - ndirBlocks - min p (len - ndirBlocks) = 0 by omega), if_pos hone]
    exact ⟨alloc₂, rfl⟩
  rw [if_neg hone.not_ge] at hfits ⊢
  have hrest : len - ndirBlocks - min p (len - ndirBlocks) = len - ndirBlocks - p := by omega
  have hall : min (p ^ 2) (len - ndirBlocks - p) = len - ndirBlocks - p := min_eq_right (by omega)
  rw [hrest, if_neg (by omega), hall, i32_of_lt (by omega), i32_of_lt (by omega), reserveTree]
  obtain ⟨left, hleft⟩ := Nat.exists_eq_add_of_le
    (show 2 ≤ room - ndirBlocks - (min p (len - ndirBlocks) + 1) by omega)
  have hroom₂ := hroom₂ (by omega)
  rw [hleft, Nat.add_comm 2 left] at hroom₂
  obtain ⟨alloc₃, hres, hroom₃⟩ := reserveOobBlocks_one hroom₂
  obtain ⟨alloc₄, hloop⟩ := reserveLoop_spec force hpos (len - ndirBlocks - p) (left + 1) le_rfl
    (fun _ => hroom₃) (by omega)
  refine ⟨alloc₄, ?_⟩
  rw [hres]
  dsimp only
  rw [if_neg (by simp), Int.toNat_natCast, hloop]
  simp only [Option.bind_eq_bind, Option.bind_some, Nat.sub_self, if_true]
  show some (alloc₄, 1 + (1 + ceilDiv (len - ndirBlocks - p) p)) = _
  rw [← Nat.add_assoc]

/-- An allocation of regions in a row, the cursor at its beginning. -/
def allocated (regs : List Region) : LinkedAllocation where
  heap := regs.mapIdx fun i reg =>
    ⟨reg, if i + 1 < regs.length then some (i + 1) else none, if i = 0 then none else some (i - 1)⟩
  list := ⟨some 0, some (regs.length - 1), some 0, 0⟩
  oobList := ⟨none, none, none, 0⟩

end Ext4
