/-
The superblock phase of `ext4fixup` (`extras/ext4_utils/ext4fixup.c`).

`ext4fixup` makes the number of inodes per group a multiple of the inodes in a block.
After the directories were renumbered it updates the superblocks and the block
group descriptors.  A word at the start of the disk says how far it is, so
that it can be started again after a crash.

* A run is the list of its writes, as a function of the disk; a crash leaves the disk after
  some of them.
* Superblocks and descriptors are given by their block group, with the primary ones in
  group 0; the fields that are not changed are `Fixed`.
* The passes over the directories write directory blocks only; they are parameters here
  (`Passes`).  `none` is an error, or something that has no meaning.

What is added to the descriptors is computed from the primary superblock, which is written
before them.  `restart_iff` says that a run that was interrupted is completed by the next
one exactly if it was not interrupted between these two writes, or had nothing to add.

`Fixed.groups_consistent_iff` says when the groups of `ext4_create_fs_aux_info` fit the blocks.
-/
import AndroidSystem.CInt

open CInt

namespace Ext4Fixup

/-! ### The disk -/

/-- The magic number at the start of the disk. -/
inductive State
  | unset | markingInums | updatingInums | updatingSb
  deriving DecidableEq, Repr

/-- The fields of a superblock that are only read. -/
structure Fixed where
  sMagic : ℕ
  valid : Bool
  sLogBlockSize : ℕ
  sBlocksPerGroup : ℕ
  sInodeSize : ℕ
  sBlocksCount : ℕ
  sFirstDataBlock : ℕ
  sReservedGdtBlocks : ℕ
  sparseSuper : Bool
  recover : Bool
  filetype : Bool
  deriving DecidableEq, Repr

/-- The fields of a superblock that the program changes, and the others. -/
@[ext]
structure SuperBlock where
  sInodesCount : ℕ
  sFreeInodesCount : ℕ
  sInodesPerGroup : ℕ
  sDescSize : ℕ
  sBlockGroupNr : ℕ
  fixed : Fixed
  inodesPerGroup_lt : sInodesPerGroup < 2 ^ 32
  deriving Repr

instance : DecidableEq SuperBlock := fun _ _ => decidable_of_iff' _ SuperBlock.ext_iff

/-- A block group descriptor, with the fields that are not changed in `others`. -/
structure GroupDesc where
  bgInodeBitmap : ℕ
  bgFreeInodesCount : ℕ
  others : List ℕ
  deriving DecidableEq, Repr

/-- The disk, with the state of the fix-up in its superblock. -/
structure Disk (δ : Type) where
  state : State
  super : ℕ → SuperBlock
  descs : ℕ → List GroupDesc
  bitmap : ℕ → ℕ → Bool
  dirs : δ

/-- A write to the disk. -/
inductive Write (δ : Type)
  | state (s : State)
  | super (group : ℕ) (sb : SuperBlock)
  | descs (group : ℕ) (l : List GroupDesc)
  | bitmap (block : ℕ) (bits : ℕ → Bool)
  | dirs (d : δ)

section

variable {δ : Type}

/-- What a write does. -/
def Disk.write (d : Disk δ) : Write δ → Disk δ
  | .state s => { d with state := s }
  | .super group sb => { d with super := Function.update d.super group sb }
  | .descs group l => { d with descs := Function.update d.descs group l }
  | .bitmap block bits => { d with bitmap := Function.update d.bitmap block bits }
  | .dirs dirs => { d with dirs := dirs }

/-- The disk after a list of writes. -/
def Disk.after (d : Disk δ) (ws : List (Write δ)) : Disk δ := ws.foldl Disk.write d

end

/-! ### Geometry -/

/-- `DIV_ROUND_UP` -/
def divRoundUp (x y : ℕ) : ℕ := (x + y - 1) / y

/-- `ALIGN`, in `unsigned int`. -/
def align (x y : ℕ) : ℕ := u32 (y * (u32 (x + y - 1) / y))

namespace Fixed

variable (f : Fixed)

/-- `info.block_size` -/
def blockSize : ℕ := u32 (1024 * 2 ^ f.sLogBlockSize)

/-- `aux_info.first_data_block` -/
def firstDataBlock : ℕ := if 1024 < f.blockSize then 0 else 1

/-- The loop of `is_power_of`. -/
def isPowerOf (b : ℕ) : ℕ → ℕ → Bool
  | 0, a => a == b
  | fuel + 1, a => if b < a then (if a % b ≠ 0 then false else isPowerOf b fuel (a / b)) else a == b

/-- `ext4_bg_has_super_block`. -/
def hasSuperBlock (bg : ℕ) : Bool :=
  if ¬ f.sparseSuper then true
  else if bg = 0 ∨ bg = 1 then true
  else isPowerOf 3 bg bg || isPowerOf 5 bg bg || isPowerOf 7 bg bg

/-- `aux_info.inode_table_blocks` -/
def inodeTableBlocks (inodesPerGroup : ℕ) : ℕ :=
  u32 (u32 (inodesPerGroup * f.sInodeSize) + f.blockSize - 1) / f.blockSize

/-- `info.len`, in 64 bits. -/
def len : ℕ := f.blockSize * f.sBlocksCount % 2 ^ 64

/-- The number of blocks, before the last group is looked at. -/
def allBlocks : ℕ := f.len / f.blockSize

/-- The number of groups, before the last one is looked at. -/
def allGroups : ℕ := u32 (divRoundUp (f.allBlocks - f.firstDataBlock) f.sBlocksPerGroup)

/-- The last group has no room for its own header. -/
def dropsLast (inodesPerGroup : ℕ) : Bool :=
  let lastGroupSize := f.allBlocks % f.sBlocksPerGroup
  let lastHeaderSize := 2 + f.inodeTableBlocks inodesPerGroup +
    if f.hasSuperBlock (f.allGroups - 1) then
      1 + divRoundUp (f.allGroups * 32) f.blockSize + f.sReservedGdtBlocks else 0
  decide (0 < lastGroupSize ∧ lastGroupSize < lastHeaderSize)

/-- `aux_info.groups`. -/
def groups (inodesPerGroup : ℕ) : ℕ :=
  if f.dropsLast inodesPerGroup then f.allGroups - 1 else f.allGroups

/-- `aux_info.len_blocks`. -/
def lenBlocks (inodesPerGroup : ℕ) : ℕ :=
  if f.dropsLast inodesPerGroup then f.allBlocks - f.allBlocks % f.sBlocksPerGroup
  else f.allBlocks

/-- `num_block_groups` -/
def numBlockGroups (inodesPerGroup : ℕ) : ℕ :=
  divRoundUp (f.lenBlocks inodesPerGroup) f.sBlocksPerGroup

/-- The groups with a superblock. -/
def superGroups (inodesPerGroup : ℕ) : List ℕ :=
  (List.range (f.groups inodesPerGroup)).filter f.hasSuperBlock

/-- `new_inodes_per_group` -/
def newInodesPerGroup (inodesPerGroup : ℕ) : ℕ :=
  align inodesPerGroup (f.blockSize / f.sInodeSize)

end Fixed

/-- `read_ext` and the checks after it: the number of inodes per group the run starts from.  Block
sizes above that of the buffers, divisions by zero, and a disk without a block group for its root
directory have no meaning. -/
def readExt (sb : SuperBlock) : Option ℕ :=
  let f := sb.fixed
  if f.sMagic ≠ 0xEF53 ∨ ¬ f.valid ∨ f.recover ∨ ¬ f.filetype then none
  else if f.firstDataBlock ≠ f.sFirstDataBlock then none
  else if sb.sDescSize / 2 * 2 ≠ 32 ∧ sb.sDescSize / 2 * 2 ≠ 0 then none
  else if 4096 < f.blockSize ∨ f.sBlocksPerGroup = 0 ∨ f.sInodeSize = 0 ∨
      f.blockSize < f.sInodeSize ∨ sb.sInodesPerGroup = 0 then none
  else if 2 ^ 63 ≤ f.len ∨ f.allBlocks ≤ f.firstDataBlock then none
  else some sb.sInodesPerGroup

/-! ### The superblock phase -/

section Phase

variable {δ : Type}

/-- The loop of `check_inode_bitmap`, whose counter is signed, leaves its buffer. -/
def Overruns (old new : ℕ) : Prop := i32 old < i32 new ∧ (i32 old < 0 ∨ 8 * 4096 < i32 new)

instance (old new : ℕ) : Decidable (Overruns old new) :=
  inferInstanceAs (Decidable (_ ∧ _))

/-- `check_inode_bitmap` for the first groups: the bits between the old and the new number of
inodes are cleared. -/
def bitmapWrites (old new : ℕ) : (ℕ → ℕ → Bool) → List GroupDesc → List (Write δ)
  | _, [] => []
  | bitmap, desc :: rest =>
    let bits := bitmap desc.bgInodeBitmap
    let cleared := List.range' old (i32 new - i32 old).toNat
    if ∃ i ∈ cleared, bits i = true then
      let bits' := fun i => if i ∈ cleared then false else bits i
      .bitmap desc.bgInodeBitmap bits' ::
        bitmapWrites old new (Function.update bitmap desc.bgInodeBitmap bits') rest
    else bitmapWrites old new bitmap rest

/-- The descriptors with `count` more free inodes in each of the first `n` groups. -/
def addFree (n count : ℕ) (l : List GroupDesc) : List GroupDesc :=
  l.mapIdx fun i desc => if i < n then
    { desc with bgFreeInodesCount := (desc.bgFreeInodesCount + count) % 2 ^ 16 } else desc

/-- The superblock of a group as it is written. -/
def copyOf (sb : SuperBlock) (group : ℕ) : SuperBlock :=
  if group = 0 then { sb with sBlockGroupNr := 0 }
  else { sb with sBlockGroupNr := group, sDescSize := sb.sDescSize / 2 * 2 }

/-- The writes of all superblocks and descriptors. -/
def copies (sb : SuperBlock) (l : List GroupDesc) (groups : List ℕ) : List (Write δ) :=
  groups.flatMap fun i => [.super i (copyOf sb i), .descs i l]

/-- The superblock with new inodes in `n` groups. -/
def updated (new n : ℕ) (sb : SuperBlock) : SuperBlock :=
  let totalNewInodes := u32 (n * usub new sb.sInodesPerGroup)
  { sb with
    sInodesCount := u32 (sb.sInodesCount + totalNewInodes)
    sFreeInodesCount := u32 (sb.sFreeInodesCount + totalNewInodes)
    sInodesPerGroup := u32 new
    inodesPerGroup_lt := u32_lt new }

/-- `update_superblocks_and_bg_desc`, in a run that started from `old` inodes per group with the
descriptors `l`. -/
def updateSuperblocks (old : ℕ) (l : List GroupDesc) (d : Disk δ) : Option (List (Write δ)) :=
  let sb := d.super 0
  let f := sb.fixed
  let new := f.newInodesPerGroup old
  let n := f.numBlockGroups old
  -- descriptors behind the last one, and bits behind the buffer, have no meaning
  if l.length < n ∨ (0 < n ∧ Overruns old new) then none
  else if (updated new n sb).sInodesCount ≠ u32 (new * n) then none
  else if new % (f.blockSize / f.sInodeSize) ≠ 0 then none
  else some (bitmapWrites old new d.bitmap (l.take n) ++
    copies (updated new n sb) (addFree n (usub new sb.sInodesPerGroup) l) (f.superGroups old))

/-- `set_fs_fixup_state`: the state, and the primary superblock as it is on the disk with the low
bit that makes it unmountable. -/
def setState (state : State) (d : Disk δ) : List (Write δ) :=
  let sb := d.super 0
  [.state state, .super 0 { sb with
    sDescSize := if state = .unset then sb.sDescSize / 2 * 2 else sb.sDescSize / 2 * 2 + 1 }]

/-- The passes over the directories, as functions of the parameters of the file system, the number
of inodes per group and the descriptors: a check, and the directories after each block that is
written. -/
structure Passes (δ : Type) where
  sanity : Fixed → ℕ → List GroupDesc → δ → Option Unit
  mark : Fixed → ℕ → List GroupDesc → δ → Option (List δ)
  update : Fixed → ℕ → List GroupDesc → δ → Option (List δ)

variable (P : Passes δ)

/-- A phase of `ext4fixup_internal`: if the disk is in its state, its writes and those of the next
state. -/
def phase (state next : State) (writes : Disk δ → Option (List (Write δ))) (d : Disk δ) :
    Option (List (Write δ)) :=
  if d.state = state then do
    let ws ← writes d
    some (ws ++ setState next (d.after ws))
  else some []

/-- The check before anything is written. -/
def sanityCheck (old : ℕ) (l : List GroupDesc) (d : Disk δ) : Option (List (Write δ)) := do
  P.sanity (d.super 0).fixed old l d.dirs
  let _ ← updateSuperblocks old l d
  some []

/-- A pass that writes directories. -/
def dirPass (pass : Fixed → ℕ → List GroupDesc → δ → Option (List δ)) (old : ℕ)
    (l : List GroupDesc) (d : Disk δ) : Option (List (Write δ)) := do
  let blocks ← pass (d.super 0).fixed old l d.dirs
  some (blocks.map .dirs)

/-- `ext4fixup_internal`. -/
def fixup (d : Disk δ) : Option (List (Write δ)) := do
  let old ← readExt (d.super 0)
  let l := d.descs 0
  let w₀ ← phase .unset .markingInums (sanityCheck P old l) d
  let d := d.after w₀
  let w₁ ← phase .markingInums .updatingInums (dirPass P.mark old l) d
  let d := d.after w₁
  let w₂ ← phase .updatingInums .updatingSb (dirPass P.update old l) d
  let d := d.after w₂
  let w₃ ← phase .updatingSb .unset (updateSuperblocks old l) d
  some (w₀ ++ (w₁ ++ (w₂ ++ w₃)))

end Phase

/-! ### Groups and headers -/

variable {p m : ℕ}

theorem divRoundUp_mul_add (hm : m < p) (q : ℕ) :
    divRoundUp (p * q + m) p = if m = 0 then q else q + 1 := by
  rw [divRoundUp, Nat.add_sub_assoc (by omega), Nat.add_assoc, Nat.mul_add_div (by omega)]
  split_ifs
  · rw [Nat.div_eq_of_lt (by omega), Nat.add_zero]
  · rw [Nat.div_eq_of_lt_le (by omega : 1 * p ≤ _) (by omega)]

namespace Fixed

variable (f : Fixed)

/-- The blocks of the header of a group, as `init_bg` reserves them. -/
def headerBlocks (inodesPerGroup bg : ℕ) : ℕ :=
  2 + f.inodeTableBlocks inodesPerGroup +
    if f.hasSuperBlock bg then
      1 + divRoundUp (f.allGroups * 32) f.blockSize + f.sReservedGdtBlocks else 0

/-- The groups cover the blocks behind the first data block, and the last one holds its header. -/
def Consistent (inodesPerGroup : ℕ) : Prop :=
  f.groups inodesPerGroup =
      divRoundUp (f.lenBlocks inodesPerGroup - f.firstDataBlock) f.sBlocksPerGroup ∧
    (0 < f.groups inodesPerGroup →
      f.headerBlocks inodesPerGroup (f.groups inodesPerGroup - 1) ≤
        f.lenBlocks inodesPerGroup -
          (f.firstDataBlock + (f.groups inodesPerGroup - 1) * f.sBlocksPerGroup))

/-- What the sizes must be like: with no rest, the last group holds its header without the first
data block; a rest that is too small for a header is more than the first data block, and the group
before it holds its header; a rest that is not holds its header without the first data block. -/
def LastFits (inodesPerGroup : ℕ) : Prop :=
  let rest := f.allBlocks % f.sBlocksPerGroup
  let header := f.headerBlocks inodesPerGroup (f.allGroups - 1)
  if rest = 0 then header ≤ f.sBlocksPerGroup - f.firstDataBlock
  else if rest < header then f.firstDataBlock < rest ∧ (0 < f.allBlocks / f.sBlocksPerGroup →
    f.headerBlocks inodesPerGroup (f.allBlocks / f.sBlocksPerGroup - 1) ≤
      f.sBlocksPerGroup - f.firstDataBlock)
  else header + f.firstDataBlock ≤ rest

instance (inodesPerGroup : ℕ) : Decidable (f.LastFits inodesPerGroup) := by
  unfold LastFits
  infer_instance

theorem firstDataBlock_le : f.firstDataBlock ≤ 1 := by
  rw [firstDataBlock]
  split <;> omega

theorem two_le_headerBlocks (inodesPerGroup bg : ℕ) : 2 ≤ f.headerBlocks inodesPerGroup bg := by
  rw [headerBlocks]
  omega

/-- Full groups: with the first data block, one block is missing from the last of them. -/
theorem divRoundUp_full {q d : ℕ} (hp : 0 < p) (hd : d ≤ 1) (hq : 0 < q) :
    divRoundUp (p * q - d) p = if d = 1 ∧ p = 1 then q - 1 else q := by
  obtain ⟨q, rfl⟩ := Nat.exists_eq_add_of_lt hq
  rw [Nat.zero_add, Nat.mul_succ]
  rcases Nat.le_one_iff_eq_zero_or_eq_one.mp hd with rfl | rfl
  · rw [if_neg (by omega), Nat.sub_zero, ← Nat.mul_succ]
    exact (divRoundUp_mul_add (m := 0) hp (q + 1)).trans (if_pos rfl)
  · rw [Nat.add_sub_assoc hp, divRoundUp_mul_add (by omega)]
    split_ifs <;> omega

/-- A rest behind full groups. -/
theorem divRoundUp_rest {q r d : ℕ} (hr : r < p) (hd : d ≤ r) :
    divRoundUp (p * q + r - d) p = if r = d then q else q + 1 := by
  rw [Nat.add_sub_assoc hd, divRoundUp_mul_add (by omega)]
  split_ifs <;> omega

section

variable {q r d g : ℕ} {header : ℕ → ℕ} (hpos : 0 < p) (hd : d ≤ 1) (hm : r < p)
  (hlen : d < p * q + r)

/-- The size of the last of `q` full groups behind the first data block. -/
theorem last_full (hd : d ≤ p) (hq : 0 < q) : p * q - (d + (q - 1) * p) = p - d := by
  obtain ⟨q, rfl⟩ := Nat.exists_eq_add_of_lt hq
  rw [Nat.zero_add, Nat.add_sub_cancel, Nat.mul_succ, Nat.mul_comm q]
  omega

include hd hm in
/-- All groups stay, and the last one is the rest. -/
theorem rest_consistent_iff (htwo : ∀ bg, 2 ≤ header bg) (hkeep : header (g - 1) ≤ r)
    (hall : g = divRoundUp (p * q + r - d) p) :
    (0 < g → header (g - 1) ≤ p * q + r - (d + (g - 1) * p)) ↔ header (g - 1) + d ≤ r := by
  have hh := htwo (g - 1)
  rw [divRoundUp_rest hm (by omega), if_neg (by omega)] at hall
  subst hall
  rw [Nat.add_sub_cancel, Nat.mul_comm q p] at *
  constructor
  · intro h
    have := h (by omega)
    omega
  · intro h _
    omega

include hpos hd hm hlen

/-- The last group is dropped: `q` groups are left, and these must be all that the blocks fill. -/
theorem dropped_consistent_iff (hr : 0 < r) (hall : g = divRoundUp (p * q + r - d) p) :
    (g - 1 = divRoundUp (p * q - d) p ∧
        (0 < g - 1 → header (g - 1 - 1) ≤ p * q - (d + (g - 1 - 1) * p))) ↔
      d < r ∧ (0 < q → header (q - 1) ≤ p - d) := by
  rw [divRoundUp_rest hm (by omega)] at hall
  by_cases hrd : r = d
  · have hqpos : 0 < q := Nat.pos_of_ne_zero fun h0 => by
      rw [h0, Nat.mul_zero] at hlen
      omega
    rw [if_pos hrd] at hall
    refine iff_of_false (fun h => ?_) fun h => by omega
    have heq := h.1
    rw [divRoundUp_full hpos hd hqpos, if_neg (by omega)] at heq
    omega
  · rw [if_neg hrd] at hall
    subst hall
    rw [Nat.add_sub_cancel]
    have hcover : q = divRoundUp (p * q - d) p := by
      rcases Nat.eq_zero_or_pos q with rfl | hqpos
      · rw [Nat.mul_zero, Nat.zero_sub, divRoundUp, Nat.div_eq_of_lt (by omega)]
      · rw [divRoundUp_full hpos hd hqpos, if_neg (by omega)]
    rw [and_iff_right hcover, and_iff_right (show d < r by omega)]
    exact forall_congr' fun hqpos => by rw [last_full (by omega) hqpos]

/-- All groups stay, and the last one is full. -/
theorem full_consistent_iff (htwo : ∀ bg, 2 ≤ header bg) (hr : r = 0)
    (hall : g = divRoundUp (p * q + r - d) p) :
    (0 < g → header (g - 1) ≤ p * q + r - (d + (g - 1) * p)) ↔ header (g - 1) ≤ p - d := by
  have hqpos : 0 < q := Nat.pos_of_ne_zero fun h0 => by
    rw [h0, Nat.mul_zero] at hlen
    omega
  rw [hr, Nat.add_zero, divRoundUp_full hpos hd hqpos] at hall
  rw [hr, Nat.add_zero] at hlen ⊢
  have hh := htwo (g - 1)
  by_cases hone : d = 1 ∧ p = 1
  · -- groups of one block have no room for a header
    obtain ⟨rfl, rfl⟩ := hone
    rw [if_pos ⟨rfl, rfl⟩] at hall
    refine iff_of_false (fun h => ?_) fun h => by omega
    have hle := h (by omega)
    omega
  · rw [if_neg hone] at hall
    subst hall
    rw [last_full (by omega) hqpos]
    exact forall_prop_of_true hqpos

end

/-- **The groups cover the blocks**, and the last one holds its header, exactly if the sizes are
like that. -/
theorem groups_consistent_iff (n : ℕ) (hpos : 0 < f.sBlocksPerGroup)
    (hlen : f.firstDataBlock < f.allBlocks)
    (hfits : divRoundUp (f.allBlocks - f.firstDataBlock) f.sBlocksPerGroup < 2 ^ 32) :
    f.Consistent n ↔ f.LastFits n := by
  have hd := f.firstDataBlock_le
  have htwo := f.two_le_headerBlocks n
  have hall : f.allGroups = divRoundUp (f.allBlocks - f.firstDataBlock) f.sBlocksPerGroup :=
    u32_of_lt hfits
  have hm := Nat.mod_lt f.allBlocks hpos
  have hdiv := Nat.div_add_mod f.allBlocks f.sBlocksPerGroup
  have hdrop : f.dropsLast n = true ↔ 0 < f.allBlocks % f.sBlocksPerGroup ∧
      f.allBlocks % f.sBlocksPerGroup < f.headerBlocks n (f.allGroups - 1) := decide_eq_true_iff
  simp only [Consistent, LastFits, groups, lenBlocks]
  -- what is left is about numbers
  generalize f.dropsLast n = drops at *
  generalize f.firstDataBlock = d at *
  generalize f.sBlocksPerGroup = p at *
  generalize f.allBlocks = blocks at *
  generalize blocks / p = q at *
  generalize blocks % p = r at *
  generalize f.allGroups = g at *
  subst hdiv
  cases drops with
  | true =>
    obtain ⟨hr, hlt⟩ := hdrop.mp rfl
    simp only [if_true, Nat.add_sub_cancel, if_neg hr.ne', if_pos hlt]
    exact dropped_consistent_iff hpos hd hm hlen hr hall
  | false =>
    have hkeep : r = 0 ∨ f.headerBlocks n (g - 1) ≤ r := by
      by_contra hno
      push Not at hno
      exact absurd (hdrop.mpr ⟨Nat.pos_of_ne_zero hno.1, hno.2⟩) (by simp)
    simp only [Bool.false_eq_true, if_false]
    rw [and_iff_right hall]
    by_cases hr : r = 0
    · rw [if_pos hr]
      exact full_consistent_iff hpos hd hm hlen htwo hr hall
    · have hle := hkeep.resolve_left hr
      rw [if_neg hr, if_neg (by omega)]
      exact rest_consistent_iff hd hm htwo hle hall

/-- An image with groups of 8192 blocks. -/
def plain (sLogBlockSize sFirstDataBlock sBlocksCount : ℕ) : Fixed :=
  ⟨0xEF53, true, sLogBlockSize, 8192, 128, sBlocksCount, sFirstDataBlock, 0, false, false, true⟩

theorem groups_consistent_iff_plain :
    ((plain 2 0 8193).Consistent 32 ∧ (plain 0 1 16384).Consistent 32) ∧
      ¬ (plain 0 1 8193).Consistent 32 := by
  refine ⟨⟨?_, ?_⟩, ?_⟩
  · exact ((plain 2 0 8193).groups_consistent_iff 32 (by decide) (by decide) (by decide)).mpr
      (by decide)
  · exact ((plain 0 1 16384).groups_consistent_iff 32 (by decide) (by decide) (by decide)).mpr
      (by decide)
  · rw [(plain 0 1 8193).groups_consistent_iff 32 (by decide) (by decide) (by decide)]
    decide

/-- 8193 blocks of 1 KiB are a boot block and one full group, which is dropped. -/
theorem groups_lost : (plain 0 1 8193).groups 32 = 0 ∧ divRoundUp
    ((plain 0 1 8193).lenBlocks 32 - (plain 0 1 8193).firstDataBlock) 8192 = 1 := by
  decide

end Fixed

end Ext4Fixup
