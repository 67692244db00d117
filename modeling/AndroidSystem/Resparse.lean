/-
Cutting a sparse file into pieces (`sparse_file_resparse`).

Each round takes nodes off the head of the list while the bytes of their chunks
stay within the budget, cuts the node that does not fit, and moves what it took to a
new sparse file; once `out_s` is full the pieces are kept aside and put back.  The
definitions follow the source; a pointer to a node of a list is its position there.

* `moveChunksUpToLen_eq` — one round, as a function of the list (`cutChain`);
* `cutChain_cut` — what a round takes and leaves is the list, or the list with one node cut;
* `cutChain_moved` — every round makes progress;
* `sparseFileResparse_partition` — the pieces, and what is put back, are the image;
* `sparseFileResparse_ends_iff` — the loop ends exactly if the limit leaves room for a block, or for
  each chunk.
-/
import AndroidSystem.SparseFile

open CInt List

namespace Sparse

/-! ### `backed_block.c` -/

/-- `backed_block_split` on the node itself: the node, and the one that is put behind
it, at address `addr`. -/
def splitBb (bs maxLen addr : ℕ) (bb : BackedBlock) : BackedBlock × Option BackedBlock :=
  let maxLen := alignDown maxLen bs
  if h : bb.len ≤ maxLen then (bb, none)
  else
    ({ bb with len := maxLen, len_lt := (not_le.mp h).trans bb.len_lt },
      some { addr := addr, block := u32 (bb.block + maxLen / bs), len := bb.len - maxLen,
             backing := bb.backing.advance maxLen, block_lt := u32_lt _,
             len_lt := (Nat.sub_le _ _).trans_lt bb.len_lt })

/-- The chain after the node at position `i` was split. -/
def splitChain (bs maxLen addr : ℕ) : ℕ → List BackedBlock → List BackedBlock
  | _, [] => []
  | 0, bb :: rest => (splitBb bs maxLen addr bb).1 :: ((splitBb bs maxLen addr bb).2.toList ++ rest)
  | i + 1, bb :: rest => bb :: splitChain bs maxLen addr i rest

/-- `backed_block_split` -/
def backedBlockSplit (bbl : BackedBlockList) (i maxLen addr : ℕ) : BackedBlockList :=
  { bbl with dataBlocks := splitChain bbl.blockSize maxLen addr i bbl.dataBlocks }

/-- The end of `backed_block_list_move`: `seg` is linked in behind the first node whose
successor is missing or lies behind `block`. -/
def linkChain (block : ℕ) (seg : List BackedBlock) : List BackedBlock → List BackedBlock
  | [] => seg
  | [bb] => bb :: seg
  | bb :: next :: rest =>
    if next.block > block then bb :: (seg ++ next :: rest)
    else bb :: linkChain block seg (next :: rest)

/-- `backed_block_list_move`: the two lists afterwards.  `none` for `start` is the head of
the list, and for `last` its end. -/
def backedBlockListMove (source target : BackedBlockList) (start last : Option ℕ) :
    BackedBlockList × BackedBlockList :=
  let i := start.getD 0
  let j := last.getD (source.dataBlocks.length - 1)
  match source.dataBlocks.drop i with
  | [] => (source, target)
  | first :: chain =>
    ({ source with
        dataBlocks := source.dataBlocks.take i ++ source.dataBlocks.drop (j + 1),
        lastUsed := none },
     { target with
        dataBlocks := linkChain first.block ((first :: chain).take (j + 1 - i)) target.dataBlocks,
        lastUsed := none })

/-! ### `sparse.c` -/

/-- `overhead` of `move_chunks_up_to_len`: the header, four chunk headers and a
checksum. -/
def overhead : ℕ := sparseHeaderLen + 4 * chunkHeaderLen + 4

section

variable (env : Env)

/-- The loop of `move_chunks_up_to_len`, at the node in position `i`: the list, with that
node split if it does not fit, the value of `last_bb`, and whether `bb` is a node. -/
def moveLoop (len addr : ℕ) (bbl : BackedBlockList) :
    ℕ → ℤ → Option ℕ → OutputFile ℤ → List BackedBlock →
      Except Fault (BackedBlockList × Option ℕ × Bool)
  | _, _, lastBb, _, [] => .ok (bbl, lastBb, false)
  | i, fileLen, lastBb, out, bb :: rest => do
    let out ← sparseFileWriteBlock env counterOps { out with dev := 0 } bb
    if fileLen + out.dev > len then
      if lastBb = none ∨ (len : ℤ) - fileLen > (len / 8 : ℕ) then
        .ok (backedBlockSplit bbl i (toU32 (len - fileLen)) addr, some i, true)
      else .ok (bbl, lastBb, true)
    else moveLoop len addr bbl (i + 1) (fileLen + out.dev) (some i) out rest

/-- `move_chunks_up_to_len`: the two files, and whether the result is a node.  `addr`
is the address `malloc` returns. -/
def moveChunksUpToLen (source target : SparseFile) (len addr : ℕ) :
    Except Fault (SparseFile × SparseFile × Bool) :=
  let len := u32 (len + (2 ^ 32 - overhead))
  -- the header that is sent to the counter has the number of blocks
  if target.blockSize = 0 then .error .divByZero
  else do
    let out := (outputFileInit counterOps 0 target.blockSize target.len true 0 false).1
    let (bbl, lastBb, bb) ←
      moveLoop env len addr source.backedBlockList 0 0 none out source.blocks
    let (bbl, bbl') := backedBlockListMove bbl target.backedBlockList (some 0) lastBb
    .ok ({ source with backedBlockList := bbl }, { target with backedBlockList := bbl' }, bb)

/-- The variables of `sparse_file_resparse` between two rounds, with the part of `out_s`
that is filled.  `bb` says whether the loop goes on; the addresses from `addr` on are
free. -/
structure Resparse where
  inS : SparseFile
  tmp : SparseFile
  outS : List SparseFile
  c : ℕ
  bb : Bool
  addr : ℕ

/-- The variables in front of the loop. -/
def resparseStart (inS : SparseFile) : Resparse where
  inS := inS
  tmp := sparseFileNew inS.blockSize inS.len
  outS := []
  c := 0
  bb := true
  addr := inS.backedBlockList.freshAddr

/-- One round of the loop of `sparse_file_resparse`. -/
def resparseRound (maxLen outSCount : ℕ) (r : Resparse) : Except Fault Resparse := do
  let s := sparseFileNew r.inS.blockSize r.inS.len
  let (inS, s, bb) ← moveChunksUpToLen env r.inS s maxLen r.addr
  if r.c < outSCount then
    .ok { inS := inS, tmp := r.tmp, outS := r.outS ++ [s], c := r.c + 1, bb := bb,
          addr := r.addr + 1 }
  else
    let (_, bbl) := backedBlockListMove s.backedBlockList r.tmp.backedBlockList none none
    .ok { inS := inS, tmp := { r.tmp with backedBlockList := bbl }, outS := r.outS, c := r.c + 1,
          bb := bb, addr := r.addr + 1 }

/-- At most `n` rounds. -/
def resparseRounds (maxLen outSCount : ℕ) : ℕ → Resparse → Except Fault Resparse
  | 0, r => .ok r
  | n + 1, r =>
    if r.bb then do
      let r ← resparseRound env maxLen outSCount r
      resparseRounds maxLen outSCount n r
    else .ok r

/-- `sparse_file_resparse`: the number it returns, `out_s` and `in_s`; `none` if the loop
takes more than `n` rounds. -/
def sparseFileResparse (inS : SparseFile) (maxLen outSCount n : ℕ) :
    Except Fault (Option (ℕ × List SparseFile × SparseFile)) := do
  let r ← resparseRounds env maxLen outSCount n (resparseStart inS)
  if r.bb then .ok none
  else
    let (_, bbl) := backedBlockListMove r.tmp.backedBlockList r.inS.backedBlockList none none
    .ok (some (r.c, r.outS, { r.inS with backedBlockList := bbl }))

end

/-! ### Counting the bytes of chunks -/

/-- The bytes that are counted for the chunk of `len` bytes of data. -/
def rawBytes (bs len : ℕ) : ℤ :=
  chunkHeaderLen + i32 len + i32 (u32 (align len bs + (2 ^ 32 - len)))

/-- The bytes that are counted for the chunk of a node.  Nothing is written of a file
region that cannot be mapped. -/
def BackedBlock.chunkBytes (bs : ℕ) (bb : BackedBlock) : ℤ :=
  match bb.backing with
  | .fill _ => chunkHeaderLen + 4
  | .data _ => rawBytes bs bb.len
  | .file _ o => if u32 (bb.len + o % 4096) = 0 then 0 else rawBytes bs bb.len
  | .fd _ o => if u32 (bb.len + o % 4096) = 0 then 0 else rawBytes bs bb.len

/-- An output that counts the bytes of a sparse stream. -/
structure Counting (bs : ℕ) (crc : Bool) (out : OutputFile ℤ) : Prop where
  sparse : out.sparse = true
  blockSize : out.blockSize = bs
  useCrc : out.useCrc = crc

section

variable {bs : ℕ} {crc : Bool} {out : OutputFile ℤ}

theorem put_counter (out : OutputFile ℤ) (data : List UInt8) :
    out.put counterOps data = ({ out with dev := out.dev + i32 data.length }, 0) := rfl

/-- A chunk of data on the counter.  The checksum, if there is one, must not run off
the data. -/
theorem Counting.writeDataChunk (h : Counting bs crc out) {data : List UInt8} {n : ℕ}
    (hlen : data.length = n)
    (hcrc : crc = true → 0 ≤ i32 n ∧ 0 ≤ i32 (u32 (align n bs + (2 ^ 32 - n)))) :
    ∃ out' ret, writeDataChunk counterOps out data = .ok (out', ret) ∧ Counting bs crc out' ∧
      out'.dev = out.dev + rawBytes bs n := by
  obtain ⟨hsparse, hsize, huse⟩ := h
  have hhead : ∀ hd : ChunkHeader, i32 hd.encode.length = chunkHeaderLen := fun hd => by
    rw [ChunkHeader.length_encode]
    rfl
  rw [Sparse.writeDataChunk, if_pos hsparse, writeSparseDataChunk, rawBytes]
  simp only [put_counter, lt_irrefl, if_false, hlen, hsize, hhead]
  generalize hz : u32 (align n bs + (2 ^ 32 - n)) = zeroLen at hcrc ⊢
  have hsum : out.dev + chunkHeaderLen + i32 n + i32 zeroLen
      = out.dev + (chunkHeaderLen + i32 n + i32 zeroLen) := by ring
  by_cases h0 : zeroLen = 0
  · -- without padding the last write adds nothing
    have hnone : i32 zeroLen = 0 := by rw [h0]; rfl
    rw [hnone, add_zero] at hsum
    simp only [if_pos h0, lt_irrefl, if_false, huse, hnone, or_false]
    cases crc with
    | false => exact ⟨_, _, rfl, ⟨hsparse, rfl, rfl⟩, hsum⟩
    | true =>
      rw [if_pos rfl, if_neg (not_lt.mpr (hcrc rfl).1)]
      exact ⟨_, _, rfl, ⟨hsparse, rfl, rfl⟩, hsum⟩
  · simp only [if_neg h0, lt_irrefl, if_false, huse, length_replicate]
    cases crc with
    | false => exact ⟨_, _, rfl, ⟨hsparse, rfl, rfl⟩, hsum⟩
    | true =>
      rw [if_pos rfl, if_neg (by have := hcrc rfl; omega)]
      exact ⟨_, _, rfl, ⟨hsparse, rfl, rfl⟩, hsum⟩

/-- A node on the counter. -/
theorem Counting.writeBlock (env : Env) (h : Counting bs crc out) (bb : BackedBlock)
    (hcrc : crc = true → bb.backing.type ≠ .fill →
      0 ≤ i32 bb.len ∧ 0 ≤ i32 (u32 (align bb.len bs + (2 ^ 32 - bb.len)))) :
    ∃ out', sparseFileWriteBlock env counterOps out bb = .ok out' ∧ Counting bs crc out' ∧
      out'.dev = out.dev + bb.chunkBytes bs := by
  have hdata : ∀ file : ℕ → UInt8, bb.backing.type ≠ .fill → ∃ out' ret,
      Sparse.writeDataChunk counterOps out ((List.range bb.len).map file) = .ok (out', ret) ∧
        Counting bs crc out' ∧ out'.dev = out.dev + rawBytes bs bb.len := fun file htype =>
    h.writeDataChunk (by rw [length_map, length_range]) fun hc => hcrc hc htype
  have hfd : ∀ (file : ℕ → UInt8) (o : ℕ), bb.backing.type ≠ .fill → ∃ out' ret,
      writeFdChunk counterOps out bb.len file o = .ok (out', ret) ∧ Counting bs crc out' ∧
        out'.dev = out.dev + if u32 (bb.len + o % 4096) = 0 then 0 else rawBytes bs bb.len := by
    intro file o htype
    rw [writeFdChunk]
    by_cases hmap : u32 (bb.len + o % 4096) = 0
    · rw [if_pos hmap, if_pos hmap]
      exact ⟨out, _, rfl, h, (add_zero _).symm⟩
    · rw [if_neg hmap, if_neg hmap]
      exact hdata _ htype
  rw [sparseFileWriteBlock, BackedBlock.chunkBytes]
  cases hb : bb.backing with
  | data p =>
    obtain ⟨out', ret, hrun, hout⟩ := hdata (fun i => env.mem (p + i)) (by rw [hb]; rintro ⟨⟩)
    exact ⟨out', congrArg (Functor.map Prod.fst) hrun, hout⟩
  | file name o =>
    obtain ⟨out', ret, hrun, hout⟩ := hfd (env.file name) o (by rw [hb]; rintro ⟨⟩)
    exact ⟨out', congrArg (Functor.map Prod.fst) hrun, hout⟩
  | fd n o =>
    obtain ⟨out', ret, hrun, hout⟩ := hfd (env.fd n) o (by rw [hb]; rintro ⟨⟩)
    exact ⟨out', congrArg (Functor.map Prod.fst) hrun, hout⟩
  | fill v =>
    obtain ⟨hsparse, hsize, huse⟩ := h
    have hsum : out.dev + i32 12 + i32 4 = out.dev + (chunkHeaderLen + 4) := by
      rw [add_assoc]
      rfl
    show ∃ out', Except.ok (writeFillChunk counterOps out bb.len v).1 = .ok out' ∧ _
    rw [writeFillChunk, if_pos hsparse, writeSparseFillChunk]
    simp only [put_counter, lt_irrefl, if_false, ChunkHeader.length_encode, length_leBytes, huse]
    cases crc with
    | false => exact ⟨_, rfl, ⟨hsparse, hsize, rfl⟩, hsum⟩
    | true => exact ⟨_, rfl, ⟨hsparse, hsize, rfl⟩, hsum⟩

end

/-! ### One round as a function of the list -/

variable {target source : BackedBlockList}

/-- What a round takes off a list with a budget of `len` bytes, of which `fileLen` are
used up, what it leaves, and whether it stopped at a node. -/
def cutChain (bs len addr : ℕ) :
    Bool → ℤ → List BackedBlock → List BackedBlock × List BackedBlock × Bool
  | _, _, [] => ([], [], false)
  | first, fileLen, bb :: rest =>
    if fileLen + bb.chunkBytes bs > len then
      if first = true ∨ (len : ℤ) - fileLen > (len / 8 : ℕ) then
        let split := splitBb bs (toU32 (len - fileLen)) addr bb
        ([split.1], split.2.toList ++ rest, true)
      else ([], bb :: rest, true)
    else
      let cut := cutChain bs len addr false (fileLen + bb.chunkBytes bs) rest
      (bb :: cut.1, cut.2)

/-- The position of the last of `n` nodes. -/
def lastPos : ℕ → Option ℕ
  | 0 => none
  | n + 1 => some n

theorem splitChain_append (bs maxLen addr : ℕ) (bb : BackedBlock) (rest : List BackedBlock) :
    ∀ pre : List BackedBlock, splitChain bs maxLen addr pre.length (pre ++ bb :: rest)
      = pre ++ ([(splitBb bs maxLen addr bb).1]
        ++ ((splitBb bs maxLen addr bb).2.toList ++ rest)) := by
  intro pre
  induction pre with
  | nil => rfl
  | cons c pre ih =>
    rw [length_cons, cons_append, splitChain, ih]
    rfl

variable (env : Env)

theorem moveLoop_eq (bbl : BackedBlockList) (len addr : ℕ) :
    ∀ (l pre : List BackedBlock) (fileLen : ℤ) (out : OutputFile ℤ), bbl.dataBlocks = pre ++ l →
    Counting bbl.blockSize false out →
    ∀ cut, cut = cutChain bbl.blockSize len addr pre.isEmpty fileLen l →
    moveLoop env len addr bbl pre.length fileLen (lastPos pre.length) out l
      = .ok ({ bbl with dataBlocks := pre ++ (cut.1 ++ cut.2.1) },
          lastPos (pre.length + cut.1.length), cut.2.2) := by
  intro l
  induction l with
  | nil =>
    rintro pre fileLen out hbbl - cut rfl
    have hself : { bbl with dataBlocks := pre ++ ([] ++ []) } = bbl := by
      rw [append_nil, ← hbbl]
    rw [moveLoop, cutChain]
    simp only [hself, length_nil, Nat.add_zero]
  | cons bb rest ih =>
    rintro pre fileLen out hbbl hout cut rfl
    have hfirst : lastPos pre.length = none ↔ pre.isEmpty = true := by
      cases pre with
      | nil => exact ⟨fun _ => rfl, fun _ => rfl⟩
      | cons c pre => exact ⟨fun h => (by cases h), fun h => by cases h⟩
    have hzero : Counting bbl.blockSize false { out with dev := 0 } :=
      ⟨hout.sparse, hout.blockSize, hout.useCrc⟩
    obtain ⟨out', hrun, hout', hdev⟩ := hzero.writeBlock env bb (by rintro ⟨⟩)
    rw [zero_add] at hdev
    rw [moveLoop, hrun, cutChain]
    show (if fileLen + out'.dev > len then _ else _) = _
    rw [hdev]
    by_cases hfull : fileLen + bb.chunkBytes bbl.blockSize > len
    · rw [if_pos hfull, if_pos hfull]
      by_cases hsplit : lastPos pre.length = none ∨ (len : ℤ) - fileLen > (len / 8 : ℕ)
      · rw [if_pos hsplit, if_pos (hsplit.imp_left hfirst.mp), backedBlockSplit, hbbl,
          splitChain_append]
        rfl
      · have hself : { bbl with dataBlocks := pre ++ ([] ++ bb :: rest) } = bbl := by
          rw [nil_append, ← hbbl]
        rw [if_neg hsplit, if_neg fun h => hsplit (h.imp_left hfirst.mpr)]
        simp only [hself, length_nil, Nat.add_zero]
    · rw [if_neg hfull, if_neg hfull]
      have hnext := ih (pre ++ [bb]) (fileLen + bb.chunkBytes bbl.blockSize) out'
        (by rw [hbbl, append_assoc]; rfl) hout' _ rfl
      have hempty : (pre ++ [bb]).isEmpty = false := by simp
      rw [hempty, length_append, length_singleton] at hnext
      rw [show some pre.length = lastPos (pre.length + 1) from rfl, hnext]
      simp only [append_assoc, cons_append, nil_append, length_cons]
      rw [Nat.add_assoc, Nat.add_comm 1]

/-- A round takes at least one node, or a part of it. -/
theorem cutChain_first_ne_nil (bs len addr : ℕ) (fileLen : ℤ) (bb : BackedBlock)
    (rest : List BackedBlock) : (cutChain bs len addr true fileLen (bb :: rest)).1 ≠ [] := by
  rw [cutChain]
  split
  · rw [if_pos (Or.inl rfl)]
    simp
  · simp

variable {l₁ : List BackedBlock} {l₂ : List BackedBlock}

/-- The first nodes of a list are moved to an empty one. -/
theorem backedBlockListMove_prefix
    (hsource : source.dataBlocks = l₁ ++ l₂) (htarget : target.dataBlocks = [])
    (hne : l₁ = [] → l₂ = []) :
    ∀ r, r = backedBlockListMove source target (some 0) (lastPos l₁.length) →
      r.1.dataBlocks = l₂ ∧ r.2.dataBlocks = l₁ ∧
        r.1.blockSize = source.blockSize ∧ r.2.blockSize = target.blockSize := by
  rintro r rfl
  cases l₁ with
  | nil =>
    rw [hne rfl, append_nil] at hsource
    rw [backedBlockListMove, hsource]
    exact ⟨hsource.trans (hne rfl).symm, htarget, rfl, rfl⟩
  | cons first l₁ =>
    rw [backedBlockListMove, hsource]
    refine ⟨?_, ?_, rfl, rfl⟩
    · show (first :: l₁ ++ l₂).take 0 ++ (first :: l₁ ++ l₂).drop (l₁.length + 1) = l₂
      rw [take_zero, nil_append]
      exact drop_left' rfl
    · show linkChain first.block ((first :: l₁ ++ l₂).take (l₁.length + 1 - 0))
        target.dataBlocks = _
      rw [htarget, linkChain]
      exact take_left' rfl

theorem linkChain_append {block : ℕ} (seg : List BackedBlock) : ∀ {l : List BackedBlock},
    (∀ bb ∈ l, bb.block ≤ block) → linkChain block seg l = l ++ seg := by
  intro l
  induction l with
  | nil => exact fun _ => rfl
  | cons bb rest ih =>
    intro h
    cases rest with
    | nil => rfl
    | cons next rest =>
      have hnext := h next (by simp)
      rw [linkChain, if_neg (by omega), ih fun c hc => h c (mem_cons_of_mem bb hc)]
      rfl

/-- All nodes of a list are moved behind those of another. -/
theorem backedBlockListMove_all
    (hord : ∀ a ∈ target.dataBlocks, ∀ b ∈ source.dataBlocks, a.block ≤ b.block) :
    ∀ r, r = backedBlockListMove source target none none →
      r.2.dataBlocks = target.dataBlocks ++ source.dataBlocks ∧
        r.2.blockSize = target.blockSize := by
  rintro r rfl
  cases hsource : source.dataBlocks with
  | nil =>
    rw [backedBlockListMove, hsource, append_nil]
    exact ⟨rfl, rfl⟩
  | cons first chain =>
    rw [backedBlockListMove, hsource]
    refine ⟨?_, rfl⟩
    show linkChain first.block ((first :: chain).take (chain.length + 1 - 0)) _ = _
    rw [take_of_length_le (by simp)]
    exact linkChain_append _ fun bb hbb => hord bb hbb first (by rw [hsource]; simp)

/-- **One round**: `move_chunks_up_to_len` into a new sparse file. -/
theorem moveChunksUpToLen_eq {source target : SparseFile}
    (hbs : 0 < source.blockSize) (hsize : target.blockSize = source.blockSize)
    (hempty : target.blocks = []) (len addr : ℕ) :
    ∀ cut, cut = cutChain source.blockSize (u32 (len + (2 ^ 32 - overhead))) addr true 0
        source.blocks →
    ∃ source' target', moveChunksUpToLen env source target len addr
        = .ok (source', target', cut.2.2) ∧
      source'.blocks = cut.2.1 ∧ target'.blocks = cut.1 ∧
      source'.blockSize = source.blockSize ∧ target'.blockSize = source.blockSize ∧
      source'.len = source.len ∧ target'.len = target.len := by
  intro cut hcut
  have hcount : Counting source.blockSize false
      (outputFileInit counterOps 0 target.blockSize target.len true 0 false).1 :=
    ⟨rfl, hsize, rfl⟩
  have hloop := moveLoop_eq env source.backedBlockList
    (u32 (len + (2 ^ 32 - overhead))) addr source.blocks [] 0 _ rfl hcount cut hcut
  have hne : cut.1 = [] → cut.2.1 = [] := by
    rw [hcut]
    cases source.blocks with
    | nil => exact fun _ => rfl
    | cons bb rest => exact fun h => absurd h (cutChain_first_ne_nil _ _ _ _ _ _)
  rw [nil_append, length_nil, Nat.zero_add] at hloop
  obtain ⟨bbl, hbbl⟩ : ∃ bbl : BackedBlockList,
      bbl = { source.backedBlockList with dataBlocks := cut.1 ++ cut.2.1 } := ⟨_, rfl⟩
  rw [← hbbl] at hloop
  obtain ⟨r, hr⟩ : ∃ r, r = backedBlockListMove bbl target.backedBlockList (some 0)
      (lastPos cut.1.length) := ⟨_, rfl⟩
  obtain ⟨h1, h2, h3, h4⟩ :=
    backedBlockListMove_prefix (show bbl.dataBlocks = _ by rw [hbbl]) hempty hne r hr
  refine ⟨⟨source.len, r.1⟩, ⟨target.len, r.2⟩, ?_, h1, h2, h3.trans (by rw [hbbl]; rfl),
    h4.trans hsize, rfl, rfl⟩
  rw [moveChunksUpToLen, if_neg (by rw [hsize]; exact hbs.ne')]
  show (moveLoop _ _ _ _ _ _ (lastPos 0) _ _ >>= _) = _
  rw [hloop, hr]
  rfl

/-! ### What a round does to the image -/

variable {l' l : List BackedBlock} {a : BackedBlock} {bs : ℕ} {b bb : BackedBlock}

/-- Nodes `a` and `b` are the two parts of `bb`; `a` may be empty. -/
structure Halves (bs : ℕ) (bb a b : BackedBlock) : Prop where
  dvd : bs ∣ a.len
  block_left : a.block = bb.block
  block_right : b.block = bb.block + a.len / bs
  len : bb.len = a.len + b.len
  pos : 0 < b.len
  backing_left : a.backing = bb.backing
  backing_right : b.backing = bb.backing.advance a.len

/-- The nodes are in increasing order and do not overlap; they may be empty.  Their
block numbers do not wrap. -/
structure InOrder (bs : ℕ) (l : List BackedBlock) : Prop where
  ord : l.Pairwise fun a b => a.stop bs ≤ b.block
  stop_le : ∀ bb ∈ l, bb.stop bs ≤ 2 ^ 32

/-- The list `l'` is `l`, or `l` with one node cut into two. -/
inductive Recut (bs : ℕ) : List BackedBlock → List BackedBlock → Prop
  | refl (l : List BackedBlock) : Recut bs l l
  | cut {bb a b : BackedBlock} (h : Halves bs bb a b) (pre post : List BackedBlock) :
      Recut bs (pre ++ bb :: post) (pre ++ a :: b :: post)

theorem Recut.append (h : Recut bs l l') (pre : List BackedBlock) :
    Recut bs (pre ++ l) (pre ++ l') := by
  cases h with
  | refl => exact Recut.refl _
  | cut h p q =>
    rw [← append_assoc, ← append_assoc]
    exact Recut.cut h _ _

theorem splitBb_cases (hbs : 0 < bs) (maxLen addr : ℕ) (hstop : bb.stop bs ≤ 2 ^ 32) :
    (splitBb bs maxLen addr bb = (bb, none) ∧ bb.len ≤ alignDown maxLen bs) ∨
      ∃ a b, splitBb bs maxLen addr bb = (a, some b) ∧ Halves bs bb a b ∧
        a.len = alignDown maxLen bs := by
  rw [splitBb]
  by_cases h : bb.len ≤ alignDown maxLen bs
  · exact Or.inl ⟨dif_pos h, h⟩
  · refine Or.inr ⟨_, _, dif_neg h, ?_, rfl⟩
    rw [not_le] at h
    have hdiv : alignDown maxLen bs / bs = maxLen / bs := Nat.mul_div_cancel_left _ hbs
    have hblock : bb.block + alignDown maxLen bs / bs < 2 ^ 32 := by
      have hlt : maxLen / bs < numBlocks bs bb.len := by
        rw [lt_numBlocks_iff hbs, mul_comm]
        exact h
      rw [BackedBlock.stop] at hstop
      omega
    refine ⟨Nat.dvd_mul_right _ _, rfl, u32_of_lt hblock, ?_, ?_, rfl, rfl⟩
    · show bb.len = alignDown maxLen bs + (bb.len - alignDown maxLen bs)
      omega
    · show 0 < bb.len - alignDown maxLen bs
      omega

/-- A list is taken apart between two nodes or within a node. -/
inductive Cut (bs : ℕ) : List BackedBlock → List BackedBlock → List BackedBlock → Prop
  | between (l₁ l₂ : List BackedBlock) : Cut bs (l₁ ++ l₂) l₁ l₂
  | within {bb a b : BackedBlock} (h : Halves bs bb a b) (pre post : List BackedBlock) :
      Cut bs (pre ++ bb :: post) (pre ++ [a]) (b :: post)

theorem Cut.cons (h : Cut bs l l₁ l₂) (bb : BackedBlock) :
    Cut bs (bb :: l) (bb :: l₁) l₂ := by
  cases h with
  | between => exact .between (bb :: l₁) l₂
  | within h pre post => exact .within h (bb :: pre) post

theorem Cut.recut (h : Cut bs l l₁ l₂) : Recut bs l (l₁ ++ l₂) := by
  cases h with
  | between => exact .refl _
  | within h pre post =>
    rw [append_assoc]
    exact .cut h pre post

section

variable (hbs : 0 < bs)
include hbs

/-- **A round** takes the list apart. -/
theorem cutChain_cut (len addr : ℕ) : ∀ (l : List BackedBlock)
    (first : Bool) (fileLen : ℤ), (∀ bb ∈ l, bb.stop bs ≤ 2 ^ 32) →
    ∀ cut, cut = cutChain bs len addr first fileLen l →
      Cut bs l cut.1 cut.2.1 ∧ (cut.2.2 = false → cut.2.1 = []) := by
  intro l
  induction l with
  | nil =>
    rintro first fileLen - cut rfl
    exact ⟨.between [] [], fun _ => rfl⟩
  | cons bb rest ih =>
    rintro first fileLen hstop cut rfl
    rw [cutChain]
    split
    · split
      · rcases splitBb_cases hbs (toU32 (len - fileLen)) addr (hstop bb mem_cons_self) with
          ⟨hs, -⟩ | ⟨a, b, hs, hhalf, -⟩
        · simp only [hs]
          exact ⟨.between [bb] rest, nofun⟩
        · simp only [hs]
          exact ⟨.within hhalf [] rest, nofun⟩
      · exact ⟨.between [] _, nofun⟩
    · obtain ⟨h1, h2⟩ := ih false (fileLen + bb.chunkBytes bs)
        (fun c hc => hstop c (mem_cons_of_mem bb hc)) _ rfl
      exact ⟨h1.cons bb, h2⟩

theorem Halves.stop_eq (h : Halves bs bb a b) (env : Env) : bb.stop bs = b.stop bs ∧
      (blockMap env bs).lookup [bb] = (blockMap env bs).lookup [a, b] :=
  lookup_join env hbs h.dvd (by rw [h.block_right, h.block_left])
    (by rw [h.backing_right, h.backing_left]) h.block_left.symm h.len h.backing_left.symm

theorem Halves.stop_left (h : Halves bs bb a b) :
    a.stop bs = b.block := by
  obtain ⟨k, hk⟩ := h.dvd
  rw [BackedBlock.stop, h.block_left, h.block_right, hk, mul_comm, numBlocks_mul hbs,
    Nat.mul_div_cancel _ hbs]

/-- Cutting a node keeps the order, the blocks and their contents. -/
theorem Recut.inOrder (h : Recut bs l l') (hl : InOrder bs l) (env : Env) :
    InOrder bs l' ∧ (blockMap env bs).lookup l' = (blockMap env bs).lookup l := by
  cases h with
  | refl => exact ⟨hl, rfl⟩
  | @cut bb a b hhalf pre post =>
    obtain ⟨hstop, hlook⟩ := hhalf.stop_eq hbs env
    have hleft := hhalf.stop_left hbs
    have hle : b.block ≤ b.stop bs := Nat.le_add_right _ _
    obtain ⟨hord, h32⟩ := hl
    obtain ⟨hpre, hbb, hcross⟩ := pairwise_append.mp hord
    obtain ⟨hpost, hrest⟩ := pairwise_cons.mp hbb
    refine ⟨⟨pairwise_append.mpr ⟨hpre, ?_, ?_⟩, ?_⟩, ?_⟩
    · rw [hstop] at hpost
      refine pairwise_cons.mpr ⟨forall_mem_cons.mpr ⟨hleft.le, fun c hc => ?_⟩,
        pairwise_cons.mpr ⟨hpost, hrest⟩⟩
      exact hleft.le.trans (hle.trans (hpost c hc))
    · intro c hc
      obtain ⟨hcb, hcpost⟩ := forall_mem_cons.mp (hcross c hc)
      refine forall_mem_cons.mpr ⟨?_, forall_mem_cons.mpr ⟨?_, hcpost⟩⟩
      · rw [hhalf.block_left]
        exact hcb
      · rw [hhalf.block_right]
        exact hcb.trans (Nat.le_add_right _ _)
    · simp only [forall_mem_append, forall_mem_cons] at h32 ⊢
      refine ⟨h32.1, ?_, ?_, h32.2.2⟩ <;> omega
    · have := (blockMap env bs).lookup_replace hlook pre post
      simpa using this.symm

/-! ### Progress -/

variable {maxLen : ℕ}

/-- An upper bound for the number of rounds that take something off the list. -/
def weight (bs : ℕ) (l : List BackedBlock) : ℕ := (l.map fun bb => numBlocks bs bb.len + 1).sum

theorem Halves.numBlocks_eq (h : Halves bs bb a b) :
    numBlocks bs bb.len = a.len / bs + numBlocks bs b.len := by
  obtain ⟨k, hk⟩ := h.dvd
  rw [h.len, hk, mul_comm, numBlocks_add hbs, Nat.mul_div_cancel _ hbs]

/-- The number of blocks of a list. -/
def blocksIn (bs : ℕ) (l : List BackedBlock) : ℕ := (l.map fun bb => numBlocks bs bb.len).sum

/-- A round can take something off the list: the budget has room for a block, or for the chunk of
every node. -/
def Ample (bs len : ℕ) (l : List BackedBlock) : Prop :=
  bs ≤ len ∨ ∀ bb ∈ l, 0 ≤ bb.chunkBytes bs ∧ bb.chunkBytes bs ≤ len

/-- The first node that a round takes is the first of the list, or a part of it. -/
theorem cutChain_first {len : ℕ} {rest : List BackedBlock} (hample : Ample bs len (bb :: rest))
    (h32 : len < 2 ^ 32) (addr : ℕ) (hstop : bb.stop bs ≤ 2 ^ 32) :
    ∃ c t, (cutChain bs len addr true 0 (bb :: rest)).1 = c :: t ∧ (c = bb ∨ 0 < c.len) := by
  rw [cutChain]
  split
  · rename_i hover
    have hlen : bs ≤ len := hample.resolve_right fun h => by
      have := (h bb mem_cons_self).2
      omega
    rw [if_pos (Or.inl rfl), sub_zero, toU32_natCast, u32_of_lt h32]
    refine ⟨_, _, rfl, ?_⟩
    rcases splitBb_cases hbs len addr hstop with ⟨hs, -⟩ | ⟨a, b, hs, -, halen⟩
    · rw [hs]
      exact Or.inl rfl
    · rw [hs, halen]
      exact Or.inr (Nat.mul_pos hbs (Nat.div_pos hlen hbs))
  · exact ⟨_, _, rfl, Or.inl rfl⟩

/-- What a round does to the nodes that are left; `more` says whether it returned a node. -/
structure Moved (bs : ℕ) (l l' : List BackedBlock) (more : Bool) : Prop where
  lighter : more = true → weight bs l' < weight bs l
  pos : (∀ bb ∈ l, 0 < bb.len) → ∀ bb ∈ l', 0 < bb.len
  fewer : (∀ bb ∈ l, 0 < bb.len) → more = true → blocksIn bs l' < blocksIn bs l

theorem Cut.moved {c : BackedBlock} {t : List BackedBlock}
    (h : Cut bs l l₁ l₂) (hl : l₁ = c :: t) (hc : l.head? = some c ∨ 0 < c.len) (more : Bool) :
    Moved bs l l₂ more := by
  cases h with
  | between =>
    subst hl
    refine ⟨fun _ => ?_, fun hpos x hx => hpos x (mem_append_right _ hx), fun hpos _ => ?_⟩
    · simp only [weight, map_append, map_cons, sum_append, sum_cons]
      omega
    · have := numBlocks_pos hbs (hpos c mem_cons_self)
      simp only [blocksIn, map_append, map_cons, sum_append, sum_cons]
      omega
  | @within bb a b hhalf pre post =>
    have hblocks := hhalf.numBlocks_eq hbs
    -- if the node that is cut is the first, the part of it that is taken is not empty
    have hpart : pre = [] → 0 < a.len / bs := by
      rintro rfl
      cases hl
      refine Nat.div_pos (Nat.le_of_dvd (hc.elim (fun hc => ?_) id) hhalf.dvd) hbs
      cases hc
      have := hhalf.len
      have := hhalf.pos
      omega
    generalize a.len / bs = n at hblocks hpart
    have hless : weight bs (b :: post) < weight bs (pre ++ bb :: post) ∧
        ((∀ x ∈ pre, 0 < x.len) → blocksIn bs (b :: post) < blocksIn bs (pre ++ bb :: post)) := by
      simp only [weight, blocksIn, map_append, map_cons, sum_append, sum_cons]
      cases pre with
      | nil =>
        have := hpart rfl
        simp only [map_nil, sum_nil]
        omega
      | cons x pre =>
        simp only [map_cons, sum_cons]
        refine ⟨by omega, fun hpos => ?_⟩
        have := numBlocks_pos hbs (hpos x mem_cons_self)
        omega
    exact ⟨fun _ => hless.1,
      fun hpos => forall_mem_cons.mpr ⟨hhalf.pos, fun x hx => hpos x (by simp [hx])⟩,
      fun hpos _ => hless.2 fun x hx => hpos x (by simp [hx])⟩

theorem cutChain_moved {len : ℕ} (hample : Ample bs len l) (h32 : len < 2 ^ 32) (addr : ℕ)
    (hstop : ∀ c ∈ l, c.stop bs ≤ 2 ^ 32) : Moved bs l (cutChain bs len addr true 0 l).2.1
      (cutChain bs len addr true 0 l).2.2 := by
  cases l with
  | nil => exact ⟨nofun, id, nofun⟩
  | cons bb rest =>
    obtain ⟨c, t, hfirst, hc⟩ := cutChain_first hbs hample h32 addr (hstop bb mem_cons_self)
    exact (cutChain_cut hbs len addr _ true 0 hstop _ rfl).1.moved hbs hfirst
      (hc.imp_left fun h => congrArg some h.symm) _

end

/-- If not a block is left of the budget, all of a node stays behind an empty one. -/
theorem splitBb_small {room : ℕ} (hroom : room < bs) (addr : ℕ) (bb : BackedBlock) :
    (∀ c ∈ (splitBb bs room addr bb).2, c.chunkBytes bs = bb.chunkBytes bs ∧ c.len = bb.len) ∧
      (0 < bb.len → ∃ c, (splitBb bs room addr bb).2 = some c) := by
  have hdown : alignDown room bs = 0 := by rw [alignDown, Nat.div_eq_of_lt hroom, mul_zero]
  have hadv : bb.backing.advance 0 = bb.backing := by cases bb.backing <;> rfl
  simp only [splitBb, hdown, hadv]
  split_ifs with hlen
  · exact ⟨by simp, fun hpos => absurd hpos (by omega)⟩
  · refine ⟨?_, fun _ => ⟨_, rfl⟩⟩
    rintro c ⟨⟩
    exact ⟨rfl, rfl⟩

/-- What a round leaves when the budget is smaller than a block: nodes that were there, among them
one that does not fit. -/
theorem cutChain_small {len : ℕ} (hlen : len < bs) (h32 : len < 2 ^ 32) (addr : ℕ) :
    ∀ {l : List BackedBlock} (first : Bool) (fileLen : ℤ), 0 ≤ fileLen → fileLen ≤ len →
    (∀ bb ∈ l, 0 ≤ bb.chunkBytes bs) →
    (∀ c ∈ (cutChain bs len addr first fileLen l).2.1,
      ∃ bb ∈ l, c.chunkBytes bs = bb.chunkBytes bs ∧ c.len = bb.len) ∧
    ((∃ bb ∈ l, len < bb.chunkBytes bs ∧ 0 < bb.len) →
      (cutChain bs len addr first fileLen l).2.2 = true ∧
        ∃ c ∈ (cutChain bs len addr first fileLen l).2.1, len < c.chunkBytes bs ∧ 0 < c.len) := by
  intro l
  induction l with
  | nil =>
    intro _ _ _ _ _
    exact ⟨fun c hc => absurd hc not_mem_nil, fun h => absurd h (by simp)⟩
  | cons bb rest ih =>
    intro first fileLen h0 hle hl
    obtain ⟨hbb, hrest⟩ := forall_mem_cons.mp hl
    rw [cutChain]
    split
    · split
      · obtain ⟨room, hroom⟩ : ∃ room : ℕ, (room : ℤ) = len - fileLen :=
          ⟨(len - fileLen).toNat, by omega⟩
        rw [← hroom, toU32_natCast, u32_of_lt (by omega)]
        obtain ⟨hsame, hsome⟩ := splitBb_small (show room < bs by omega) addr bb
        refine ⟨fun c hc => ?_, ?_⟩
        · rcases mem_append.mp hc with hc | hc
          · exact ⟨bb, mem_cons_self, hsame c (Option.mem_toList.mp hc)⟩
          · exact ⟨c, mem_cons_of_mem bb hc, rfl, rfl⟩
        · rintro ⟨x, hx, hover, hpos⟩
          refine ⟨rfl, ?_⟩
          rcases mem_cons.mp hx with rfl | hx
          · obtain ⟨c, hc⟩ := hsome hpos
            obtain ⟨hbytes, hclen⟩ := hsame c hc
            exact ⟨c, mem_append_left _ (Option.mem_toList.mpr hc), by omega, by omega⟩
          · exact ⟨x, mem_append_right _ hx, hover, hpos⟩
      · exact ⟨fun c hc => ⟨c, hc, rfl, rfl⟩, fun h => ⟨rfl, h⟩⟩
    · obtain ⟨hfrom, hbad⟩ := ih false (fileLen + bb.chunkBytes bs) (by omega) (by omega) hrest
      refine ⟨fun c hc => ?_, ?_⟩
      · obtain ⟨x, hx, h⟩ := hfrom c hc
        exact ⟨x, mem_cons_of_mem bb hx, h⟩
      · rintro ⟨x, hx, hover, hpos⟩
        refine hbad ⟨x, (mem_cons.mp hx).resolve_left ?_, hover, hpos⟩
        rintro rfl
        omega

theorem Ample.cutChain {len : ℕ} (h : Ample bs len l) (h32 : len < 2 ^ 32) (addr : ℕ) :
    Ample bs len (cutChain bs len addr true 0 l).2.1 := by
  rcases Nat.lt_or_ge len bs with hlt | hle
  · have hl := h.resolve_left hlt.not_ge
    refine Or.inr fun c hc => ?_
    obtain ⟨bb, hbb, hbytes, -⟩ := (cutChain_small hlt h32 addr true 0 le_rfl (by omega)
      fun bb hbb => (hl bb hbb).1).1 c hc
    rw [hbytes]
    exact hl bb hbb
  · exact Or.inl hle

theorem budget_eq (hmax : overhead ≤ maxLen) (h32 : maxLen < 2 ^ 32) :
    u32 (maxLen + (2 ^ 32 - overhead)) = maxLen - overhead := by
  have hwrap : maxLen + (2 ^ 32 - overhead) = maxLen - overhead + 2 ^ 32 := by
    omega
  rw [hwrap, u32, Nat.add_mod_right, Nat.mod_eq_of_lt (by omega)]

/-! ### The whole run -/

variable {outSCount : ℕ} {s : SparseFile}

/-- The nodes of the pieces, of those that were put aside and of what is left. -/
def Resparse.nodes (r : Resparse) : List BackedBlock :=
  r.outS.flatMap SparseFile.blocks ++ (r.tmp.blocks ++ r.inS.blocks)

/-- What holds after every round that is run on the sparse file `s`. -/
structure Resparse.Inv (env : Env) (s : SparseFile) (outSCount : ℕ) (r : Resparse) : Prop where
  size_in : r.inS.blockSize = s.blockSize
  size_tmp : r.tmp.blockSize = s.blockSize
  size_out : ∀ p ∈ r.outS, p.blockSize = s.blockSize
  filled : r.outS.length = min r.c outSCount
  aside : r.c ≤ outSCount → r.tmp.blocks = []
  inOrder : InOrder s.blockSize r.nodes
  lookup : (blockMap env s.blockSize).lookup r.nodes
    = (blockMap env s.blockSize).lookup s.blocks
  ended : r.bb = false → r.inS.blocks = []

theorem sparseFileNew_blockSize (s : SparseFile) :
    (sparseFileNew s.blockSize s.len).blockSize = s.blockSize :=
  u32_of_lt s.backedBlockList.blockSize_lt

theorem Resparse.Inv.start (h : InOrder s.blockSize s.blocks) (outSCount : ℕ) :
    (resparseStart s).Inv env s outSCount where
  size_in := rfl
  size_tmp := sparseFileNew_blockSize s
  size_out := nofun
  filled := (Nat.zero_min _).symm
  aside _ := rfl
  inOrder := h
  lookup := rfl
  ended := nofun

/-- The budget of a round is ample for what is left. -/
def Resparse.Ample (s : SparseFile) (maxLen : ℕ) (r : Resparse) : Prop :=
  Sparse.Ample s.blockSize (u32 (maxLen + (2 ^ 32 - overhead))) r.inS.blocks

/-- **One round** keeps the image, and takes something off what is left. -/
theorem Resparse.Inv.round (hbs : 0 < s.blockSize) {r : Resparse} (h : r.Inv env s outSCount)
    (hample : r.Ample s maxLen) :
    ∃ r', resparseRound env maxLen outSCount r = .ok r' ∧ r'.Inv env s outSCount ∧
      r'.Ample s maxLen ∧ Moved s.blockSize r.inS.blocks r'.inS.blocks r'.bb := by
  have hstop : ∀ bb ∈ r.inS.blocks, bb.stop s.blockSize ≤ 2 ^ 32 := fun bb hbb =>
    h.inOrder.stop_le bb (by simp [Resparse.nodes, hbb])
  obtain ⟨cut, hcut⟩ : ∃ cut, cut = cutChain s.blockSize (u32 (maxLen + (2 ^ 32 - overhead)))
      r.addr true 0 r.inS.blocks := ⟨_, rfl⟩
  obtain ⟨inS, piece, hrun, hin, hpiece, hsin, hspiece, -, -⟩ :=
    moveChunksUpToLen_eq env (by rw [h.size_in]; exact hbs) (sparseFileNew_blockSize _) rfl maxLen
      r.addr cut (by rw [h.size_in]; exact hcut)
  rw [h.size_in] at hsin hspiece
  obtain ⟨hparts, hended⟩ := cutChain_cut hbs _ r.addr r.inS.blocks true 0 hstop cut hcut
  have hprogress : Moved s.blockSize r.inS.blocks inS.blocks cut.2.2 := by
    rw [hin, hcut]
    exact cutChain_moved hbs hample (u32_lt _) r.addr hstop
  have hample' : Sparse.Ample s.blockSize (u32 (maxLen + (2 ^ 32 - overhead))) inS.blocks := by
    rw [hin, hcut]
    exact Ample.cutChain hample (u32_lt _) r.addr
  -- the nodes in front of what is left stay as they are
  have hnodes := hparts.recut.append (r.outS.flatMap SparseFile.blocks ++ r.tmp.blocks)
  rw [append_assoc] at hnodes
  obtain ⟨hord, hsame⟩ := hnodes.inOrder hbs h.inOrder env
  have hlook := hsame.trans h.lookup
  rw [resparseRound, hrun]
  by_cases hc : r.c < outSCount
  · have haside := h.aside hc.le
    rw [haside, append_nil] at hord hlook
    have heq : (r.outS ++ [piece]).flatMap SparseFile.blocks ++ (r.tmp.blocks ++ inS.blocks)
        = r.outS.flatMap SparseFile.blocks ++ (cut.1 ++ cut.2.1) := by
      rw [haside, hin, ← hpiece]
      simp
    refine ⟨⟨inS, r.tmp, r.outS ++ [piece], r.c + 1, cut.2.2, r.addr + 1⟩, ?_, ?_, hample',
      hprogress⟩
    · exact if_pos hc
    · refine ⟨hsin, h.size_tmp, forall_mem_append.mpr ⟨h.size_out, ?_⟩, ?_, fun _ => haside, ?_, ?_,
        fun hb => ?_⟩
      · exact forall_mem_singleton.mpr hspiece
      · have := h.filled
        rw [length_append, length_singleton]
        show r.outS.length + 1 = min (r.c + 1) outSCount
        omega
      · rw [Resparse.nodes, heq]
        exact hord
      · rw [Resparse.nodes, heq]
        exact hlook
      · exact hin.trans (hended hb)
  · obtain ⟨moved, hmoved⟩ : ∃ moved, moved = backedBlockListMove piece.backedBlockList
        r.tmp.backedBlockList none none := ⟨_, rfl⟩
    obtain ⟨hall, hsall⟩ := backedBlockListMove_all (fun a ha b hb => by
      have hle : a.stop s.blockSize ≤ b.block := by
        have hpw := (pairwise_append.mp hord.ord).2.2
        exact hpw a (mem_append_right _ ha) b
          (mem_append_left _ (by rw [← hpiece]; exact hb))
      exact (Nat.le_add_right _ _).trans hle) moved hmoved
    have heq : r.outS.flatMap SparseFile.blocks ++ (moved.2.dataBlocks ++ inS.blocks)
        = r.outS.flatMap SparseFile.blocks ++ r.tmp.blocks ++ (cut.1 ++ cut.2.1) := by
      rw [hall, hin, ← hpiece]
      simp [SparseFile.blocks]
    refine ⟨⟨inS, ⟨r.tmp.len, moved.2⟩, r.outS, r.c + 1, cut.2.2, r.addr + 1⟩, ?_, ?_, hample',
      hprogress⟩
    · rw [hmoved]
      exact if_neg hc
    · refine ⟨hsin, hsall.trans h.size_tmp, h.size_out, ?_, fun hle => ?_, ?_, ?_, fun hb => ?_⟩
      · have := h.filled
        show r.outS.length = min (r.c + 1) outSCount
        omega
      · have hle' : r.c + 1 ≤ outSCount := hle
        omega
      · rw [Resparse.nodes]
        exact heq ▸ hord
      · rw [Resparse.nodes]
        exact (congrArg _ heq).trans hlook
      · exact hin.trans (hended hb)

/-- **Every run ends**, with nothing left. -/
theorem Resparse.Inv.rounds (hbs : 0 < s.blockSize) :
    ∀ (n : ℕ) {r : Resparse}, r.Inv env s outSCount → r.Ample s maxLen →
    weight s.blockSize r.inS.blocks < n →
    ∃ r', (∀ m, n ≤ m → resparseRounds env maxLen outSCount m r = .ok r') ∧
      r'.Inv env s outSCount ∧ r'.bb = false := by
  intro n
  induction n with
  | zero => exact fun _ _ hw => absurd hw (Nat.not_lt_zero _)
  | succ n ih =>
    intro r h hample hw
    by_cases hbb : r.bb = true
    · obtain ⟨r₁, hround, hr₁, hample₁, hless⟩ := h.round env hbs hample
      have hstep : ∀ m, resparseRounds env maxLen outSCount (m + 1) r
          = resparseRounds env maxLen outSCount m r₁ := by
        intro m
        rw [resparseRounds, if_pos hbb, hround]
        rfl
      by_cases hbb₁ : r₁.bb = true
      · have := hless.lighter hbb₁
        obtain ⟨r', hrun, hr'⟩ := ih hr₁ hample₁ (by omega)
        refine ⟨r', fun m hm => ?_, hr'⟩
        obtain ⟨k, rfl⟩ : ∃ k, m = k + 1 := ⟨m - 1, by omega⟩
        rw [hstep]
        exact hrun k (by omega)
      · refine ⟨r₁, fun m hm => ?_, hr₁, by simpa using hbb₁⟩
        obtain ⟨k, rfl⟩ : ∃ k, m = k + 1 := ⟨m - 1, by omega⟩
        rw [hstep]
        cases k with
        | zero => rfl
        | succ k => rw [resparseRounds, if_neg hbb₁]
    · refine ⟨r, fun m hm => ?_, h, by simpa using hbb⟩
      obtain ⟨k, rfl⟩ : ∃ k, m = k + 1 := ⟨m - 1, by omega⟩
      rw [resparseRounds, if_neg hbb]

theorem sparseFileResparse_of_rounds {env : Env} {n : ℕ} {r : Resparse}
    (hrun : resparseRounds env maxLen outSCount n (resparseStart s) = .ok r) (hbb : r.bb = false) :
    sparseFileResparse env s maxLen outSCount n = .ok (some (r.c, r.outS, ⟨r.inS.len,
      (backedBlockListMove r.tmp.backedBlockList r.inS.backedBlockList none none).2⟩)) := by
  rw [sparseFileResparse, hrun]
  show (if r.bb = true then _ else _) = _
  rw [hbb]
  rfl

/-- **Resparsing partitions the image.**  If a piece has room for a block besides the
overhead, the loop ends, and the pieces in `out_s` followed by what is put back into
`in_s` are in order and denote the image, whatever the size of `out_s`. -/
theorem sparseFileResparse_partition (env : Env) {s : SparseFile} (hbs : 0 < s.blockSize)
    (hs : InOrder s.blockSize s.blocks) {maxLen : ℕ} (hmax : overhead + s.blockSize ≤ maxLen)
    (h32 : maxLen < 2 ^ 32) (outSCount : ℕ) :
    ∃ c outS inS,
      (∀ n, weight s.blockSize s.blocks < n →
        sparseFileResparse env s maxLen outSCount n = .ok (some (c, outS, inS))) ∧
      outS.length = min c outSCount ∧ (∀ p ∈ outS, p.blockSize = s.blockSize) ∧
      inS.blockSize = s.blockSize ∧
      InOrder s.blockSize (outS.flatMap SparseFile.blocks ++ inS.blocks) ∧
      image env s.blockSize (outS.flatMap SparseFile.blocks ++ inS.blocks)
        = image env s.blockSize s.blocks := by
  have hbudget : s.blockSize ≤ u32 (maxLen + (2 ^ 32 - overhead)) := by
    rw [budget_eq (by omega) h32]
    omega
  obtain ⟨r, hrun, hinv, hbb⟩ :=
    (Resparse.Inv.start env hs outSCount).rounds env hbs
      (weight s.blockSize s.blocks + 1) (Or.inl hbudget) (Nat.lt_succ_self _)
  have hleft := hinv.ended hbb
  obtain ⟨back, hback⟩ : ∃ back, back = backedBlockListMove r.tmp.backedBlockList
      r.inS.backedBlockList none none := ⟨_, rfl⟩
  obtain ⟨hall, hsall⟩ := backedBlockListMove_all (fun a ha b _ => by
    rw [show r.inS.backedBlockList.dataBlocks = [] from hleft] at ha
    exact absurd ha (by simp)) back hback
  have hnodes : r.outS.flatMap SparseFile.blocks ++ back.2.dataBlocks = r.nodes := by
    rw [hall, Resparse.nodes, hleft, append_nil,
      show r.inS.backedBlockList.dataBlocks = [] from hleft, nil_append]
    rfl
  refine ⟨r.c, r.outS, ⟨r.inS.len, back.2⟩, fun n hn => ?_, hinv.filled, hinv.size_out,
    hsall.trans hinv.size_in, ?_, ?_⟩
  · rw [sparseFileResparse_of_rounds (hrun n hn) hbb, hback]
  · show InOrder s.blockSize (r.outS.flatMap SparseFile.blocks ++ back.2.dataBlocks)
    rw [hnodes]
    exact hinv.inOrder
  · show image env s.blockSize (r.outS.flatMap SparseFile.blocks ++ back.2.dataBlocks) = _
    rw [hnodes]
    funext x
    rw [image, image, hinv.lookup]

/-- Three blocks of data and a fill, in pieces of at most 92 bytes of which one is kept. -/
theorem sparseFileResparse_data_fill : ∃ s : SparseFile, s.blocks.length = 2 ∧ ∃ c outS inS,
    sparseFileResparse Env.zero s 92 1 8 = .ok (some (c, outS, inS)) ∧
      outS.length = min c 1 ∧
      InOrder s.blockSize (outS.flatMap SparseFile.blocks ++ inS.blocks) ∧
      image Env.zero s.blockSize (outS.flatMap SparseFile.blocks ++ inS.blocks)
        = image Env.zero s.blockSize s.blocks := by
  obtain ⟨c, outS, inS, hrun, hlen, -, -, hord, himg⟩ :=
    sparseFileResparse_partition Env.zero (s := ⟨40, ⟨[⟨1, 1, 12, .data 0, by decide, by decide⟩,
      ⟨2, 5, 8, .fill 7, by decide, by decide⟩], none, 4, by decide⟩⟩) (by decide)
      ⟨by decide, by decide⟩ (show overhead + 4 ≤ 92 by decide) (by decide) 1
  exact ⟨_, by rfl, c, outS, inS, hrun 8 (by decide), hlen, hord, himg⟩

/-! ### Termination -/

theorem Resparse.Inv.after (hbs : 0 < s.blockSize) : ∀ (n : ℕ) {r r' : Resparse},
    r.Inv env s outSCount → r.Ample s maxLen → (∀ bb ∈ r.inS.blocks, 0 < bb.len) →
    resparseRounds env maxLen outSCount n r = .ok r' →
    (r'.Inv env s outSCount ∧ r'.Ample s maxLen) ∧ ∀ bb ∈ r'.inS.blocks, 0 < bb.len := by
  intro n
  induction n with
  | zero =>
    intro r r' h hample hpos hrun
    cases hrun
    exact ⟨⟨h, hample⟩, hpos⟩
  | succ n ih =>
    intro r r' h hample hpos hrun
    rw [resparseRounds] at hrun
    split at hrun
    · obtain ⟨r₁, hround, hinv, hample₁, hmoved⟩ := h.round env hbs hample
      rw [hround] at hrun
      exact ih hinv hample₁ (hmoved.pos hpos) hrun
    · cases hrun
      exact ⟨⟨h, hample⟩, hpos⟩

/-- A node that does not fit a budget smaller than a block is never taken off the list. -/
theorem resparseRounds_stuck {bs : ℕ} (hbs : 0 < bs)
    (hbudget : u32 (maxLen + (2 ^ 32 - overhead)) < bs) (outSCount : ℕ) :
    ∀ (n : ℕ) {r : Resparse}, r.bb = true → r.inS.blockSize = bs →
    (∀ bb ∈ r.inS.blocks, 0 ≤ bb.chunkBytes bs) →
    (∃ bb ∈ r.inS.blocks,
      (u32 (maxLen + (2 ^ 32 - overhead)) : ℤ) < bb.chunkBytes bs ∧ 0 < bb.len) →
    ∃ r', resparseRounds env maxLen outSCount n r = .ok r' ∧ r'.bb = true := by
  intro n
  induction n with
  | zero => exact fun {r} hbb _ _ _ => ⟨r, rfl, hbb⟩
  | succ n ih =>
    intro r hbb hsize hnonneg hbad
    obtain ⟨inS, piece, hrun, hin, -, hsin, -⟩ := moveChunksUpToLen_eq env (by omega)
      (sparseFileNew_blockSize r.inS) rfl maxLen r.addr _ rfl
    rw [hsize] at hrun hin
    obtain ⟨hfrom, hkept⟩ :=
      cutChain_small hbudget (u32_lt _) r.addr true 0 le_rfl (by omega) hnonneg
    obtain ⟨hmore, hleft⟩ := hkept hbad
    have hnonneg' : ∀ c ∈ inS.blocks, 0 ≤ c.chunkBytes bs := by
      intro c hc
      obtain ⟨bb, hbb, hbytes, -⟩ := hfrom c (hin ▸ hc)
      rw [hbytes]
      exact hnonneg bb hbb
    rw [← hin] at hleft
    rw [resparseRounds, if_pos hbb, resparseRound, hsize, hrun, hmore]
    change ∃ r', ((if r.c < outSCount then _ else _) >>= _) = Except.ok r' ∧ _
    split_ifs
    · exact ih rfl (hsin.trans hsize) hnonneg' hleft
    · exact ih rfl (hsin.trans hsize) hnonneg' hleft

/-- **Every round makes progress** exactly if the limit leaves room for a block or for the chunk of
every node: a round that returns a node has taken a block off the list, and the loop ends. -/
theorem sparseFileResparse_ends_iff (env : Env) (hbs : 0 < s.blockSize)
    (hs : InOrder s.blockSize s.blocks)
    (hnodes : ∀ bb ∈ s.blocks, 0 < bb.len ∧ 0 ≤ bb.chunkBytes s.blockSize) (maxLen outSCount : ℕ) :
    ((∃ n result, sparseFileResparse env s maxLen outSCount n = .ok (some result)) ∧
      ∀ n r r', resparseRounds env maxLen outSCount n (resparseStart s) = .ok r →
        resparseRound env maxLen outSCount r = .ok r' → r'.bb = true →
        blocksIn s.blockSize r'.inS.blocks < blocksIn s.blockSize r.inS.blocks) ↔
    s.blockSize ≤ u32 (maxLen + (2 ^ 32 - overhead)) ∨
      ∀ bb ∈ s.blocks, bb.chunkBytes s.blockSize ≤ u32 (maxLen + (2 ^ 32 - overhead)) := by
  constructor
  · rintro ⟨⟨n, result, hend⟩, -⟩
    by_contra hnot
    obtain ⟨hbudget, hbad⟩ := not_or.mp hnot
    push Not at hbudget hbad
    obtain ⟨bb, hbb, hover⟩ := hbad
    obtain ⟨r, hrun, hmore⟩ := resparseRounds_stuck env hbs hbudget outSCount n
      (r := resparseStart s) rfl rfl (fun bb hbb => (hnodes bb hbb).2)
      ⟨bb, hbb, hover, (hnodes bb hbb).1⟩
    rw [sparseFileResparse, hrun] at hend
    cases hend.symm.trans (if_pos hmore)
  · intro hample
    have hstart := Resparse.Inv.start env hs outSCount
    have hample : (resparseStart s).Ample s maxLen :=
      hample.imp_right fun h bb hbb => ⟨(hnodes bb hbb).2, h bb hbb⟩
    refine ⟨?_, fun n r r' hrun hround hbb => ?_⟩
    · obtain ⟨r, hrun, -, hbb⟩ := hstart.rounds env hbs _ hample (Nat.lt_succ_self _)
      exact ⟨_, _, sparseFileResparse_of_rounds (hrun _ le_rfl) hbb⟩
    · obtain ⟨⟨hinv, hample⟩, hleft⟩ :=
        hstart.after env hbs n hample (fun bb hbb => (hnodes bb hbb).1) hrun
      obtain ⟨r₁, hround₁, -, -, hmoved⟩ := hinv.round env hbs hample
      cases hround.symm.trans hround₁
      exact hmoved.fewer hleft hbb

/-- Eight bytes of data. -/
def eightBytes (addr : ℕ) : BackedBlock := ⟨addr, 0, 8, .data 0, by decide, by norm_num⟩

/-- The eight bytes in blocks of four. -/
def twoBlocks : SparseFile := ⟨8, ⟨[eightBytes 1], none, 4, by decide⟩⟩

theorem sparseFileResparse_ends_iff_twoBlocks :
    (∃ n result, sparseFileResparse Env.zero twoBlocks 84 0 n = .ok (some result)) ∧
      ∀ n r r', resparseRounds Env.zero 84 0 n (resparseStart twoBlocks) = .ok r →
        resparseRound Env.zero 84 0 r = .ok r' → r'.bb = true →
        blocksIn 4 r'.inS.blocks < blocksIn 4 r.inS.blocks :=
  (sparseFileResparse_ends_iff Env.zero (s := twoBlocks) (by decide) ⟨by decide, by decide⟩
    (by decide) 84 0).mpr (Or.inl (by decide))

/-- **A loop without end**: two bytes are left for the chunks, and no round takes any. -/
theorem sparseFileResparse_stuck :
    ∃ maxLen, ∀ n, sparseFileResparse Env.zero twoBlocks maxLen 0 n = .ok none := by
  refine ⟨82, fun n => ?_⟩
  obtain ⟨r, hrun, hmore⟩ := resparseRounds_stuck Env.zero (show 0 < 4 by decide)
    (show u32 (82 + (2 ^ 32 - overhead)) < 4 by decide) 0 n
    (r := resparseStart twoBlocks) rfl rfl (by decide) (by decide)
  rw [sparseFileResparse, hrun]
  exact if_pos hmore

end Sparse
