/-
The block list of libsparse (`backed_block.c`).

A `struct backed_block` describes a region of the output image: `len` bytes that
start at block number `block`, taken from memory, from a file, from a file
descriptor, or filled with a 32-bit value.  The blocks of a sparse file form a
singly linked list sorted by block number, with a cached pointer `last_used` to
the node that was added last.

The chain of `next` pointers is a Lean list.  A node keeps its address: the
cached pointer is an address, and following it after the node was freed is the
fault `useAfterFree`.  Allocation never fails in this model.

`image` is what a list is for: the content of every block of the output.
-/
import AndroidSystem.CInt
import AndroidSystem.LittleEndian
import AndroidSystem.IntervalMap

open CInt

namespace Sparse

/-- The ways in which a C run leaves the defined behaviour of the language or
stops at an `assert`. -/
inductive Fault
  | divByZero
  | nullDeref
  | assertFailed
  | useAfterFree
  | outOfBounds
  deriving DecidableEq, Repr

/-! ### Macros of `sparse_defs.h`, at type `unsigned int` -/

/-- `DIV_ROUND_UP` in `unsigned int`. -/
def divRoundUp (x y : ℕ) : ℕ := u32 (x + y - 1) / y

/-- `ALIGN` in `unsigned int`. -/
def align (x y : ℕ) : ℕ := u32 (y * divRoundUp x y)

/-- `ALIGN_DOWN` -/
def alignDown (x y : ℕ) : ℕ := y * (x / y)

/-! ### Nodes and lists -/

/-- The union of `struct backed_block`, with its tag. -/
inductive Backing
  | data (ptr : ℕ)
  | file (filename : String) (offset : ℕ)
  | fd (fd : ℕ) (offset : ℕ)
  | fill (val : UInt32)
  deriving DecidableEq, Repr

/-- `enum backed_block_type` -/
inductive BackedBlockType
  | data
  | file
  | fd
  | fill
  deriving DecidableEq, Repr

/-- The tag of the union. -/
def Backing.type : Backing → BackedBlockType
  | .data _ => .data
  | .file _ _ => .file
  | .fd _ _ => .fd
  | .fill _ => .fill

theorem Backing.type_eq_fill {b : Backing} : b.type = .fill ↔ ∃ v, b = .fill v := by
  cases b <;> simp [type]

/-- `struct backed_block`; `block` and `len` are of type `unsigned int`. -/
structure BackedBlock where
  addr : ℕ
  block : ℕ
  len : ℕ
  backing : Backing
  block_lt : block < 2 ^ 32
  len_lt : len < 2 ^ 32
  deriving DecidableEq

/-- `struct backed_block_list`; `lastUsed` is an address that may have been freed. -/
structure BackedBlockList where
  dataBlocks : List BackedBlock
  lastUsed : Option ℕ
  blockSize : ℕ
  blockSize_lt : blockSize < 2 ^ 32
  deriving DecidableEq

/-- `backed_block_list_new` -/
def backedBlockListNew (blockSize : ℕ) : BackedBlockList where
  dataBlocks := []
  lastUsed := none
  blockSize := u32 blockSize
  blockSize_lt := u32_lt _

/-- An address the allocator may return: that of no node of the list, and not
the cached one either, whether its node is still there or not. -/
def BackedBlockList.freshAddr (bbl : BackedBlockList) : ℕ :=
  (bbl.dataBlocks.map (·.addr) ++ bbl.lastUsed.toList).foldr max 0 + 1

/-! ### Insertion -/

/-- `merge_bb`: `none` when the blocks are left alone, otherwise the node `a`
after `b` was merged into it and freed.  Two file blocks are never merged: the
code compares the pointers that `strdup` returned for them. -/
def mergeBb (bs : ℕ) (a b : BackedBlock) : Except Fault (Option BackedBlock) :=
  if ¬ a.block < b.block then .error .assertFailed
  else if a.backing.type ≠ b.backing.type then .ok none
  else if bs = 0 then .error .divByZero
  -- the quotient rounds down
  else if u32 (a.block + a.len / bs) ≠ b.block then .ok none
  else
    let merged : BackedBlock :=
      { a with len := u32 (a.len + b.len), len_lt := u32_lt _ }
    match a.backing, b.backing with
    | .fill v, .fill w => if v ≠ w then .ok none else .ok (some merged)
    | .fd n o, .fd n' o' => if n ≠ n' ∨ o + a.len ≠ o' then .ok none else .ok (some merged)
    | _, _ => .ok none

/-- `merge_bb(bbl, new_bb, new_bb->next)`, where the successor may be missing:
the node and what follows it. -/
def mergeNext (bs : ℕ) (newBb : BackedBlock) :
    List BackedBlock → Except Fault (BackedBlock × List BackedBlock)
  | [] => .ok (newBb, [])
  | next :: rest => do
    match ← mergeBb bs newBb next with
    | none => .ok (newBb, next :: rest)
    | some merged => .ok (merged, rest)

/-- The end of `queue_bb`: `newBb` is linked in between `bb` and `rest`, then
merged with its successor and with its predecessor. -/
def linkAndMerge (bs : ℕ) (bb newBb : BackedBlock) (rest : List BackedBlock) :
    Except Fault (List BackedBlock) := do
  let (newBb, rest) ← mergeNext bs newBb rest
  match ← mergeBb bs bb newBb with
  | none => .ok (bb :: newBb :: rest)
  | some merged => .ok (merged :: rest)

/-- The search loop of `queue_bb`, started at `bb`. -/
def insertAfter (bs : ℕ) (newBb bb : BackedBlock) :
    List BackedBlock → Except Fault (List BackedBlock)
  | [] => linkAndMerge bs bb newBb []
  | next :: rest =>
    if next.block < newBb.block then do
      let chain ← insertAfter bs newBb next rest
      .ok (bb :: chain)
    else linkAndMerge bs bb newBb (next :: rest)

/-- The chain up to the node at address `a`, that node, and the chain after it;
`none` when no node of the chain is at `a`. -/
def chainFrom (a : ℕ) :
    List BackedBlock → Option (List BackedBlock × BackedBlock × List BackedBlock)
  | [] => none
  | bb :: rest =>
    if bb.addr = a then some ([], bb, rest)
    else (chainFrom a rest).map fun (pre, node, post) => (bb :: pre, node, post)

/-- Where `queue_bb` starts its search: at the cached node if the new block
belongs behind it, else at the head of the list. -/
def searchStart (bbl : BackedBlockList) (newBb head : BackedBlock) (tail : List BackedBlock) :
    Except Fault (List BackedBlock × BackedBlock × List BackedBlock) :=
  match bbl.lastUsed with
  | none => .ok ([], head, tail)
  | some a =>
    match chainFrom a (head :: tail) with
    | none => .error .useAfterFree
    | some (pre, node, post) =>
      if newBb.block > node.block then .ok (pre, node, post) else .ok ([], head, tail)

/-- `queue_bb`: the place of a new node, and the merges with its neighbours. -/
def queueBb (bbl : BackedBlockList) (newBb : BackedBlock) : Except Fault BackedBlockList :=
  match bbl.dataBlocks with
  | [] => .ok { bbl with dataBlocks := [newBb] }
  | head :: tail =>
    if head.block > newBb.block then
      .ok { bbl with dataBlocks := newBb :: head :: tail }
    else do
      let (pre, bb, rest) ← searchStart bbl newBb head tail
      let chain ← insertAfter bbl.blockSize newBb bb rest
      .ok { bbl with dataBlocks := pre ++ chain, lastUsed := some newBb.addr }

/-- The common part of `backed_block_add_*`: allocate a node and queue it.  The
arguments are converted to `unsigned int`. -/
def backedBlockAdd (bbl : BackedBlockList) (backing : Backing) (len block : ℕ) :
    Except Fault BackedBlockList :=
  queueBb bbl
    { addr := bbl.freshAddr, block := u32 block, len := u32 len, backing := backing,
      block_lt := u32_lt _, len_lt := u32_lt _ }

/-- `backed_block_add_fill` -/
def backedBlockAddFill (bbl : BackedBlockList) (fillVal : UInt32) (len block : ℕ) :
    Except Fault BackedBlockList :=
  backedBlockAdd bbl (.fill fillVal) len block

/-- `backed_block_add_data` -/
def backedBlockAddData (bbl : BackedBlockList) (data len block : ℕ) :
    Except Fault BackedBlockList :=
  backedBlockAdd bbl (.data data) len block

/-- `backed_block_add_file` -/
def backedBlockAddFile (bbl : BackedBlockList) (filename : String) (offset len block : ℕ) :
    Except Fault BackedBlockList :=
  backedBlockAdd bbl (.file filename offset) len block

/-- `backed_block_add_fd` -/
def backedBlockAddFd (bbl : BackedBlockList) (fd offset len block : ℕ) :
    Except Fault BackedBlockList :=
  backedBlockAdd bbl (.fd fd offset) len block

/-! ### The image a list denotes -/

variable {len n bs : ℕ}

/-- What the pointers, file names and descriptors of the nodes refer to. -/
structure Env where
  mem : ℕ → UInt8
  file : String → ℕ → UInt8
  fd : ℕ → ℕ → UInt8

/-- Everything reads as zero. -/
def Env.zero : Env := ⟨fun _ => 0, fun _ _ => 0, fun _ _ => 0⟩

/-- Byte `i` of a region filled with the word `v`. -/
def fillByte (v : UInt32) (i : ℕ) : UInt8 := (leBytes 4 v.toNat).getD (i % 4) 0

/-- Byte `i` behind a backing. -/
def Backing.byteAt (env : Env) : Backing → ℕ → UInt8
  | .data p, i => env.mem (p + i)
  | .file name o, i => env.file name (o + i)
  | .fd n o, i => env.fd n (o + i)
  | .fill v, i => fillByte v i

/-- The content of one block of the output image. -/
inductive BlockContent
  | raw (bytes : List UInt8)
  | fill (val : UInt32)
  | dontCare
  deriving DecidableEq, Repr

/-- The number of blocks that `len` bytes occupy. -/
def numBlocks (bs len : ℕ) : ℕ := (len + bs - 1) / bs

/-- The first block number after the region. -/
def BackedBlock.stop (bs : ℕ) (bb : BackedBlock) : ℕ := bb.block + numBlocks bs bb.len

/-- Content of the `j`-th block of a region of `len` bytes; a partial last block
of raw data is padded with zeros. -/
def Backing.content (env : Env) (bs len : ℕ) (backing : Backing) (j : ℕ) : BlockContent :=
  match backing with
  | .fill v => .fill v
  | _ => .raw ((List.range bs).map fun i =>
      if j * bs + i < len then backing.byteAt env (j * bs + i) else 0)

/-- The backing of what is left of a region behind its first `n` bytes. -/
def Backing.advance (n : ℕ) : Backing → Backing
  | .data p => .data (p + n)
  | .file name o => .file name (o + n)
  | .fd k o => .fd k (o + n)
  | .fill v => .fill v

/-- Nodes read as functions on the blocks they occupy. -/
def blockMap (env : Env) (bs : ℕ) : IntervalMap BackedBlock BlockContent where
  lo bb := bb.block
  hi bb := bb.stop bs
  val bb x := bb.backing.content env bs bb.len (x - bb.block)

/-- The image a chain of nodes denotes. -/
def image (env : Env) (bs : ℕ) (blocks : List BackedBlock) (x : ℕ) : BlockContent :=
  ((blockMap env bs).lookup blocks x).getD .dontCare

theorem lt_numBlocks_iff {j : ℕ} (hbs : 0 < bs) : j < numBlocks bs len ↔ j * bs < len := by
  rw [numBlocks, Nat.lt_iff_add_one_le, Nat.le_div_iff_mul_le hbs, Nat.add_mul, one_mul]
  omega

theorem numBlocks_pos (hbs : 0 < bs) (hlen : 0 < len) : 0 < numBlocks bs len := by
  rw [lt_numBlocks_iff hbs]
  omega

theorem numBlocks_mono {m : ℕ} (h : m ≤ n) : numBlocks bs m ≤ numBlocks bs n :=
  Nat.div_le_div_right (by omega)

theorem numBlocks_le_succ (hbs : 0 < bs) (len : ℕ) : numBlocks bs len ≤ len / bs + 1 := by
  by_contra hlt
  have hle := (lt_numBlocks_iff hbs).mp (not_le.mp hlt)
  have hgt := Nat.lt_mul_div_succ len hbs
  rw [mul_comm] at hgt
  omega

theorem numBlocks_mul (hbs : 0 < bs) : numBlocks bs (n * bs) = n := by
  apply le_antisymm
  · by_contra h
    exact absurd ((lt_numBlocks_iff hbs).mp (not_le.mp h)) (lt_irrefl _)
  · by_contra h
    have hlt : numBlocks bs (n * bs) * bs < n * bs :=
      Nat.mul_lt_mul_of_pos_right (not_le.mp h) hbs
    exact absurd ((lt_numBlocks_iff hbs).mpr hlt) (lt_irrefl _)

theorem numBlocks_add {b : ℕ} (hbs : 0 < bs) :
    numBlocks bs (n * bs + b) = n + numBlocks bs b := by
  rw [numBlocks, numBlocks, show n * bs + b + bs - 1 = b + bs - 1 + bs * n by
    rw [mul_comm n bs]; omega, Nat.add_mul_div_left _ _ hbs, add_comm]

/-- If the quotient rounded up is at most the quotient rounded down, the
division is exact. -/
theorem dvd_of_numBlocks_le (hbs : 0 < bs) (h : numBlocks bs len ≤ len / bs) :
    bs ∣ len := by
  have hlt : ¬ len / bs * bs < len := (lt_numBlocks_iff hbs).not.mp (not_lt.mpr h)
  have hle := Nat.div_mul_le_self len bs
  exact ⟨len / bs, by rw [mul_comm]; omega⟩

variable (env : Env)

@[simp] theorem Backing.byteAt_advance (backing : Backing) (n i : ℕ)
    (h : backing.type ≠ .fill) :
    (backing.advance n).byteAt env i = backing.byteAt env (n + i) := by
  cases backing with
  | data p => rw [advance, byteAt, byteAt, add_assoc]
  | file name o => rw [advance, byteAt, byteAt, add_assoc]
  | fd k o => rw [advance, byteAt, byteAt, add_assoc]
  | fill v => exact absurd rfl h

theorem Backing.content_of_ne_fill (bs len : ℕ) {backing : Backing}
    (h : backing.type ≠ .fill) (j : ℕ) :
    backing.content env bs len j = .raw ((List.range bs).map fun i =>
      if j * bs + i < len then backing.byteAt env (j * bs + i) else 0) := by
  cases backing with
  | data p => rfl
  | file name o => rfl
  | fd k o => rfl
  | fill v => exact absurd rfl h

theorem Backing.content_left {j : ℕ} (b : ℕ) (backing : Backing) (hj : j < n) :
    backing.content env bs (n * bs + b) j = backing.content env bs (n * bs) j := by
  have hle : (j + 1) * bs ≤ n * bs := Nat.mul_le_mul_right bs hj
  rw [Nat.add_mul, one_mul] at hle
  by_cases hfill : backing.type = .fill
  · cases backing <;> first | rfl | cases hfill
  · rw [content_of_ne_fill env _ _ hfill, content_of_ne_fill env _ _ hfill]
    congr 1
    apply List.map_congr_left
    intro i hi
    have hi := List.mem_range.mp hi
    rw [if_pos (by omega), if_pos (by omega)]

/-- The blocks behind the first `n` blocks of a region. -/
theorem Backing.content_right (b j : ℕ) (backing : Backing) :
    backing.content env bs (n * bs + b) (n + j)
      = (backing.advance (n * bs)).content env bs b j := by
  by_cases hfill : backing.type = .fill
  · cases backing <;> first | rfl | cases hfill
  · have hadv : (backing.advance (n * bs)).type ≠ .fill := by
      cases backing <;> exact hfill
    rw [content_of_ne_fill env _ _ hfill, content_of_ne_fill env _ _ hadv]
    congr 1
    apply List.map_congr_left
    intro i _
    rw [byteAt_advance env backing _ _ hfill, Nat.add_mul, Nat.add_assoc]
    by_cases h : j * bs + i < b
    · rw [if_pos h, if_pos (by omega)]
    · rw [if_neg h, if_neg (by omega)]

/-- Two adjacent nodes `a` and `b`, where `b` continues the backing of `a`,
denote what the single node `m` denotes. -/
theorem lookup_join (hbs : 0 < bs) {a b m : BackedBlock} (hdvd : bs ∣ a.len)
    (hadj : b.block = a.block + a.len / bs) (hback : b.backing = a.backing.advance a.len)
    (hm : m.block = a.block) (hmlen : m.len = a.len + b.len) (hmback : m.backing = a.backing) :
    m.stop bs = b.stop bs ∧ (blockMap env bs).lookup [m] = (blockMap env bs).lookup [a, b] := by
  obtain ⟨n, hn⟩ := hdvd
  rw [mul_comm] at hn
  have hdiv : a.len / bs = n := by rw [hn]; exact Nat.mul_div_cancel n hbs
  have hastop : a.stop bs = a.block + n := by rw [BackedBlock.stop, hn, numBlocks_mul hbs]
  have hmstop : m.stop bs = b.stop bs := by
    rw [BackedBlock.stop, BackedBlock.stop, hm, hmlen, hn, numBlocks_add hbs, hadj, hdiv, add_assoc]
  refine ⟨hmstop, ?_⟩
  funext x
  simp only [IntervalMap.lookup_cons, IntervalMap.lookup_nil]
  have hcm : (blockMap env bs).Covers m x ↔ a.block ≤ x ∧ x < b.stop bs := by
    simp only [IntervalMap.Covers, blockMap, hm, hmstop]
  have hca : (blockMap env bs).Covers a x ↔ a.block ≤ x ∧ x < a.block + n := by
    simp only [IntervalMap.Covers, blockMap, hastop]
  have hcb : (blockMap env bs).Covers b x ↔ a.block + n ≤ x ∧ x < b.stop bs := by
    simp only [IntervalMap.Covers, blockMap, hadj, hdiv]
  have hbstop : a.block + n ≤ b.stop bs := by rw [BackedBlock.stop, hadj, hdiv]; omega
  by_cases hxa : a.block ≤ x ∧ x < a.block + n
  · rw [if_pos (hcm.mpr (by omega)), if_pos (hca.mpr hxa)]
    show some (m.backing.content env bs m.len (x - m.block)) = _
    rw [hmback, hmlen, hm, hn, Backing.content_left env _ _ (by omega)]
    show _ = some (a.backing.content env bs a.len (x - a.block))
    rw [hn]
  · by_cases hxb : a.block + n ≤ x ∧ x < b.stop bs
    · rw [if_pos (hcm.mpr (by omega)), if_neg (hca.not.mpr hxa), if_pos (hcb.mpr hxb)]
      show some (m.backing.content env bs m.len (x - m.block))
        = some (b.backing.content env bs b.len (x - b.block))
      rw [hmback, hmlen, hm, hn, hback, hn, hadj, hdiv,
        show x - a.block = n + (x - (a.block + n)) by omega, Backing.content_right]
    · rw [if_neg (hcm.not.mpr (by omega)), if_neg (hca.not.mpr hxa), if_neg (hcb.not.mpr hxb)]

end Sparse
