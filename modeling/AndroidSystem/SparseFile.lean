/-
Writing a sparse file (`sparse.c`).

`sparse_file_write` counts the chunks, opens the output, walks over the block
list and emits a skip for every gap, and closes the output.  The definitions
follow the source; the theorems compare them with the list of chunks that the
block list stands for:

* `chunksOf` — one chunk for each node and one for each gap;
* `sparseCountChunks_eq` — the number the header announces;
* `writeBlocks_sink` — the loop of `write_all_blocks` on a byte stream;
* `sparseFileWrite_stream` — the whole stream: header, chunks, checksum.
-/
import AndroidSystem.BackedBlockAdd
import AndroidSystem.OutputFile

open CInt List

namespace Sparse

open BackedBlock OutputFile

/-- `struct sparse_file`.  The block size is kept once, in the block list, and
`verbose` is left out. -/
structure SparseFile where
  len : ℤ
  backedBlockList : BackedBlockList
  deriving DecidableEq

/-- `s->block_size` -/
def SparseFile.blockSize (s : SparseFile) : ℕ := s.backedBlockList.blockSize

/-- The nodes of the block list. -/
def SparseFile.blocks (s : SparseFile) : List BackedBlock := s.backedBlockList.dataBlocks

/-- `sparse_file_new` -/
def sparseFileNew (blockSize : ℕ) (len : ℤ) : SparseFile where
  len := i64 len
  backedBlockList := backedBlockListNew blockSize

/-- `sparse_file_add_fill` -/
def sparseFileAddFill (s : SparseFile) (fillVal : UInt32) (len block : ℕ) :
    Except Fault SparseFile := do
  let bbl ← backedBlockAddFill s.backedBlockList fillVal len block
  .ok { s with backedBlockList := bbl }

/-- `sparse_file_add_fd` -/
def sparseFileAddFd (s : SparseFile) (fd offset len block : ℕ) : Except Fault SparseFile := do
  let bbl ← backedBlockAddFd s.backedBlockList fd offset len block
  .ok { s with backedBlockList := bbl }

/-! ### Writing -/

/-- The loop of `sparse_count_chunks`: the values of `last_block` and `chunks`. -/
def countBlocks (bs : ℕ) : ℕ → ℕ → List BackedBlock → ℕ × ℕ
  | lastBlock, chunks, [] => (lastBlock, chunks)
  | lastBlock, chunks, bb :: rest =>
    let chunks := if bb.block > lastBlock then u32 (chunks + 1) else chunks
    countBlocks bs (u32 (bb.block + divRoundUp bb.len bs)) (u32 (chunks + 1)) rest

/-- `sparse_count_chunks` -/
def sparseCountChunks (s : SparseFile) : Except Fault ℕ :=
  if s.blockSize = 0 then .error .divByZero
  else
    let (lastBlock, chunks) := countBlocks s.blockSize 0 0 s.blocks
    if (lastBlock : ℤ) < (i64 (s.len + s.blockSize - 1)).tdiv s.blockSize then
      .ok (u32 (chunks + 1))
    else .ok chunks

section

variable {σ : Type} (env : Env) (ops : OutputFileOps σ)

/-- `write_file_chunk`: the file is opened and its descriptor used. -/
def writeFileChunk (out : OutputFile σ) (len : ℕ) (file : String) (offset : ℕ) :
    Except Fault (OutputFile σ × ℤ) :=
  writeFdChunk ops out len (env.file file) offset

/-- `sparse_file_write_block`; the codes are ignored. -/
def sparseFileWriteBlock (out : OutputFile σ) (bb : BackedBlock) :
    Except Fault (OutputFile σ) :=
  match bb.backing with
  | .data p =>
    (·.1) <$> writeDataChunk ops out ((List.range bb.len).map fun i => env.mem (p + i))
  | .file name o => (·.1) <$> writeFileChunk env ops out bb.len name o
  | .fd n o => (·.1) <$> writeFdChunk ops out bb.len (env.fd n) o
  | .fill v => .ok (writeFillChunk ops out bb.len v).1

/-- The loop of `write_all_blocks`: the output and the value of `last_block`. -/
def writeBlocks (bs : ℕ) : ℕ → List BackedBlock → OutputFile σ →
    Except Fault (OutputFile σ × ℕ)
  | lastBlock, [], out => .ok (out, lastBlock)
  | lastBlock, bb :: rest, out => do
    let out :=
      if bb.block > lastBlock then
        (writeSkipChunk ops out (i64 (((bb.block - lastBlock) * bs : ℕ) : ℤ))).1
      else out
    let out ← sparseFileWriteBlock env ops out bb
    writeBlocks bs (u32 (bb.block + divRoundUp bb.len bs)) rest out

/-- `write_all_blocks` -/
def writeAllBlocks (s : SparseFile) (out : OutputFile σ) : Except Fault (OutputFile σ) := do
  let (out, lastBlock) ← writeBlocks env ops s.blockSize 0 s.blocks out
  let pad := i64 (s.len - i64 ((lastBlock * s.blockSize : ℕ) : ℤ))
  if pad < 0 then .error .assertFailed
  else if pad > 0 then .ok (writeSkipChunk ops out pad).1
  else .ok out

/-- The common part of `sparse_file_write`, `sparse_file_callback` and
`sparse_file_len`: the state of the device afterwards, and the code. -/
def sparseFileOutput (s : SparseFile) (dev : σ) (sparse crc : Bool) :
    Except Fault (σ × ℤ) := do
  let chunks ← sparseCountChunks s
  let (out, ret) := outputFileInit ops dev s.blockSize s.len sparse chunks crc
  if ret < 0 then .ok (out.dev, -12)
  else
    let out ← writeAllBlocks env ops s out
    .ok ((outputFileClose ops out).dev, 0)

end

/-- `sparse_file_write` to a file, not compressed. -/
def sparseFileWrite (env : Env) (s : SparseFile) (fd : FdFile) (sparse crc : Bool) :
    Except Fault (FdFile × ℤ) :=
  sparseFileOutput env fileOps s fd sparse crc

/-- `sparse_file_len`: what is written to a counter. -/
def sparseFileLen (env : Env) (s : SparseFile) (sparse crc : Bool) : Except Fault ℤ := do
  let (count, ret) ← sparseFileOutput env counterOps s 0 sparse crc
  if ret < 0 then .ok (-1) else .ok count

/-! ### The chunks of a block list -/

variable {bs : ℕ} {bb : BackedBlock}

variable {l : List BackedBlock} {last : ℕ}

/-- The bytes a node refers to. -/
def BackedBlock.bytes (env : Env) (bb : BackedBlock) : List UInt8 :=
  (List.range bb.len).map (bb.backing.byteAt env)

/-- The chunk for a node. -/
def BackedBlock.chunk (env : Env) (bs : ℕ) (bb : BackedBlock) : Chunk :=
  match bb.backing with
  | .fill v => .fill (numBlocks bs bb.len) v
  | _ => .raw (numBlocks bs bb.len) (padBlocks bs (bb.bytes env))

/-- The bytes over which the writer continues its checksum for a node: of a fill
it takes one block only. -/
def BackedBlock.covered (env : Env) (bs : ℕ) (bb : BackedBlock) : List UInt8 :=
  match bb.backing with
  | .fill v => (List.replicate (bs / 4) (leBytes 4 v.toNat)).flatten
  | _ => padBlocks bs (bb.bytes env)

/-- The first block after the list, if its nodes follow `last`. -/
def endBlock (bs : ℕ) : ℕ → List BackedBlock → ℕ
  | last, [] => last
  | _, bb :: rest => endBlock bs (bb.stop bs) rest

/-- A skip over the blocks from `last` to `next`, if there are any. -/
def skipChunk (last next : ℕ) : List Chunk :=
  if last < next then [.dontCare (next - last)] else []

/-- The chunks of the nodes and of the gaps before them. -/
def chunksFrom (env : Env) (bs : ℕ) : ℕ → List BackedBlock → List Chunk
  | _, [] => []
  | last, bb :: rest =>
    skipChunk last bb.block ++ bb.chunk env bs :: chunksFrom env bs (bb.stop bs) rest

/-- The chunks of an image of `len` bytes.  The skip to the end is refused by the
writer if it is not a multiple of the block size. -/
def chunksOf (env : Env) (bs len : ℕ) (l : List BackedBlock) : List Chunk :=
  chunksFrom env bs 0 l ++ if len % bs = 0 then skipChunk (endBlock bs 0 l) (len / bs) else []

/-- The region can be written: rounding its length up does not wrap, and neither
the data nor the padding is longer than an `int`. -/
structure BackedBlock.Fits (bs : ℕ) (bb : BackedBlock) : Prop where
  round : bb.len + bs ≤ 2 ^ 32
  raw : bb.backing.type ≠ .fill → bb.len < 2 ^ 31 ∧
    numBlocks bs bb.len * bs < bb.len + 2 ^ 31 ∧ chunkHeaderLen + numBlocks bs bb.len * bs < 2 ^ 32

/-- A block list behind block `last` whose positions do not wrap. -/
structure Layout (bs last : ℕ) (l : List BackedBlock) : Prop where
  ordered : Ordered bs l
  behind : ∀ bb ∈ l, last ≤ bb.block
  fits : ∀ bb ∈ l, bb.Fits bs
  stop_lt : ∀ bb ∈ l, bb.stop bs < 2 ^ 32 ∧ bb.stop bs * bs < 2 ^ 63

theorem Layout.stop_eq (h : Layout bs last l) (hbb : bb ∈ l) :
    u32 (bb.block + divRoundUp bb.len bs) = bb.stop bs := by
  rw [divRoundUp_eq (h.fits bb hbb).round]
  exact u32_of_lt (h.stop_lt bb hbb).1

theorem Layout.gap_eq (h : Layout bs last l) (hbb : bb ∈ l) :
    i64 (((bb.block - last) * bs : ℕ) : ℤ) = ((bb.block - last) * bs : ℕ) := by
  have hle : (bb.block - last) * bs ≤ bb.stop bs * bs :=
    Nat.mul_le_mul_right _ (by rw [stop]; omega)
  have := (h.stop_lt bb hbb).2
  exact i64_of_range (by omega) (by omega)

theorem Layout.tail (h : Layout bs last (bb :: l)) :
    Layout bs (bb.stop bs) l where
  ordered := ⟨fun c hc => h.ordered.pos c (mem_cons_of_mem bb hc),
    (pairwise_cons.mp h.ordered.ord).2⟩
  behind := (pairwise_cons.mp h.ordered.ord).1
  fits c hc := h.fits c (mem_cons_of_mem bb hc)
  stop_lt c hc := h.stop_lt c (mem_cons_of_mem bb hc)

variable (env : Env)

@[simp] theorem BackedBlock.length_bytes (bb : BackedBlock) :
    (bb.bytes env).length = bb.len := by
  simp [bytes]

theorem BackedBlock.length_padded (hbs : 0 < bs) (bb : BackedBlock) :
    (padBlocks bs (bb.bytes env)).length = numBlocks bs bb.len * bs := by
  rw [length_padBlocks hbs, length_bytes]

theorem BackedBlock.chunkSz_chunk (bs : ℕ) (bb : BackedBlock) :
    (bb.chunk env bs).chunkSz = numBlocks bs bb.len := by
  rw [chunk]
  cases bb.backing <;> rfl

/-! ### The loops -/

theorem countBlocks_eq : ∀ {l : List BackedBlock} {last k : ℕ},
    Layout bs last l → k + (chunksFrom env bs last l).length < 2 ^ 32 →
    countBlocks bs last k l = (endBlock bs last l, k + (chunksFrom env bs last l).length) := by
  intro l
  induction l with
  | nil => exact fun _ _ => rfl
  | cons bb rest ih =>
    intro last k h hk
    have hstop : u32 (bb.block + divRoundUp bb.len bs) = bb.stop bs := by
      rw [divRoundUp_eq (h.fits bb mem_cons_self).round]
      exact u32_of_lt (h.stop_lt bb mem_cons_self).1
    rw [chunksFrom, length_append, length_cons] at hk ⊢
    rw [countBlocks, hstop, endBlock, skipChunk]
    rw [skipChunk] at hk
    by_cases hgap : last < bb.block
    · simp only [if_pos hgap, gt_iff_lt, length_singleton] at hk ⊢
      rw [u32_of_lt (by omega : k + 1 < 2 ^ 32), u32_of_lt (by omega), ih h.tail (by omega)]
      congr 1
      omega
    · simp only [if_neg hgap, gt_iff_lt, length_nil] at hk ⊢
      rw [u32_of_lt (by omega), ih h.tail (by omega)]
      congr 1
      omega

section

variable {σ : Type} {ops : OutputFileOps σ} {feed : List UInt8 → σ}

@[simp] theorem OutputFile.after_after (out : OutputFile σ) (b b' c c' : List UInt8) :
    (out.after feed b c).after feed b' c' = out.after feed b' (c ++ c') := by
  simp only [after]
  by_cases h : out.useCrc = true
  · simp only [h, if_true, sparseCrc32_append]
  · simp only [h]
    rfl

variable {bb : BackedBlock}

/-- A node that is not a fill is written as the data it refers to. -/
theorem sparseFileWriteBlock_raw (env : Env) (ops : OutputFileOps σ) (out : OutputFile σ)
    (hpos : 0 < bb.len) (hlen : bb.len < 2 ^ 31) (htype : bb.backing.type ≠ .fill) :
    sparseFileWriteBlock env ops out bb = (·.1) <$> writeDataChunk ops out (bb.bytes env) := by
  have hmap : ∀ o, u32 (bb.len + o % 4096) ≠ 0 := by
    intro o
    rw [u32_of_lt (by omega)]
    omega
  rw [sparseFileWriteBlock, BackedBlock.bytes]
  cases hb : bb.backing with
  | data p => rfl
  | file name o =>
    show (·.1) <$> writeFdChunk ops out bb.len (env.file name) o = _
    rw [writeFdChunk, if_neg (hmap o)]
    rfl
  | fd n o =>
    show (·.1) <$> writeFdChunk ops out bb.len (env.fd n) o = _
    rw [writeFdChunk, if_neg (hmap o)]
    rfl
  | fill v =>
    rw [hb] at htype
    exact absurd rfl htype

theorem sparseFileWriteBlock_fill (env : Env) (ops : OutputFileOps σ) (out : OutputFile σ)
    {v : UInt32} (hb : bb.backing = .fill v) :
    sparseFileWriteBlock env ops out bb = .ok (writeFillChunk ops out bb.len v).1 := by
  rw [sparseFileWriteBlock, hb]

section

variable (h : Sink ops feed) {out : OutputFile σ} {b : List UInt8} (hdev : out.dev = feed b)
  (hsparse : out.sparse = true) (hbs : 0 < out.blockSize)

include h hdev hsparse hbs

/-- One node written to a sink. -/
theorem sparseFileWriteBlock_sink (env : Env) (hpos : 0 < bb.len) (hfits : bb.Fits out.blockSize) :
    sparseFileWriteBlock env ops out bb
      = .ok (out.after feed (b ++ (bb.chunk env out.blockSize).encode)
          (bb.covered env out.blockSize)) := by
  by_cases htype : bb.backing.type = .fill
  · obtain ⟨v, hv⟩ := Backing.type_eq_fill.mp htype
    rw [sparseFileWriteBlock_fill env ops out hv, BackedBlock.chunk, covered, hv,
      writeFillChunk, if_pos hsparse, writeSparseFillChunk_sink h hdev hbs v hfits.round]
  · obtain ⟨h1, h2, -⟩ := hfits.raw htype
    have hlen := bb.length_bytes env
    have hchunk : bb.chunk env out.blockSize = .raw (numBlocks out.blockSize bb.len)
        (padBlocks out.blockSize (bb.bytes env)) := by
      cases hb : bb.backing <;> simp [BackedBlock.chunk, hb, Backing.type] at htype ⊢
    have hcov : bb.covered env out.blockSize = padBlocks out.blockSize (bb.bytes env) := by
      cases hb : bb.backing <;> simp [covered, hb, Backing.type] at htype ⊢
    rw [sparseFileWriteBlock_raw env ops out hpos h1 htype, hchunk, hcov, writeDataChunk,
      if_pos hsparse, writeSparseDataChunk_sink h hdev hbs (by rw [hlen]; exact hfits.round)
        (by rw [hlen]; exact h1) (by rw [hlen]; exact h2), hlen]
    rfl

/-- A skip over whole blocks written to a sink. -/
theorem writeSkipChunk_sink {n : ℕ} (hn : n < 2 ^ 32) :
    (writeSkipChunk ops out ((n * out.blockSize : ℕ) : ℤ)).1
      = out.after feed (b ++ (Chunk.dontCare n).encode) [] := by
  rw [writeSkipChunk, if_pos hsparse, writeSparseSkipChunk_sink h hdev hbs hn]

end

/-- **The loop of `write_all_blocks`** sends the chunks of the nodes and of the
gaps between them. -/
theorem writeBlocks_sink (h : Sink ops feed) (env : Env) {bs : ℕ} (hbs : 0 < bs) :
    ∀ {l : List BackedBlock} {last : ℕ} {out : OutputFile σ} {b : List UInt8},
    Layout bs last l → out.dev = feed b → out.sparse = true → out.blockSize = bs →
    writeBlocks env ops bs last l out
      = .ok (out.after feed (b ++ (chunksFrom env bs last l).flatMap Chunk.encode)
          (l.flatMap (covered env bs)), endBlock bs last l) := by
  intro l
  induction l with
  | nil =>
    intro last out b _ hdev _ _
    have hout : out = out.after feed b [] := by
      rw [OutputFile.after, ← hdev]
      simp
    rw [writeBlocks, chunksFrom, endBlock, flatMap_nil, flatMap_nil, append_nil,
      ← hout]
  | cons bb rest ih =>
    intro last out b hl hdev hsparse hsize
    subst hsize
    have hfits := hl.fits bb mem_cons_self
    have hstop := hl.stop_eq mem_cons_self
    -- the gap, if there is one
    obtain ⟨out', hgap, hout'⟩ : ∃ out', (if bb.block > last then
        (writeSkipChunk ops out (i64 (((bb.block - last) * out.blockSize : ℕ) : ℤ))).1
        else out) = out' ∧ out' = out.after feed
          (b ++ (skipChunk last bb.block).flatMap Chunk.encode) [] := by
      rw [skipChunk]
      by_cases hg : last < bb.block
      · have hb := bb.block_lt
        refine ⟨_, rfl, ?_⟩
        rw [if_pos hg, if_pos hg, hl.gap_eq mem_cons_self,
          writeSkipChunk_sink h hdev hsparse hbs (by omega)]
        simp
      · refine ⟨_, rfl, ?_⟩
        rw [if_neg hg, if_neg hg, OutputFile.after]
        simp [← hdev]
    have hblock : sparseFileWriteBlock env ops out' bb = .ok (out'.after feed
        (b ++ (skipChunk last bb.block).flatMap Chunk.encode ++ (bb.chunk env _).encode)
        (bb.covered env _)) :=
      sparseFileWriteBlock_sink h (by rw [hout']; rfl) (by rw [hout']; exact hsparse)
        (by rw [hout']; exact hbs) env (hl.ordered.pos bb mem_cons_self)
        (by rw [hout']; exact hfits)
    rw [writeBlocks, hgap, hblock, hstop]
    show writeBlocks env ops out.blockSize (bb.stop out.blockSize) rest _ = _
    rw [hout', after_after]
    rw [ih hl.tail (after_dev _ _ _ _) hsparse rfl]
    rw [after_after, chunksFrom, endBlock]
    simp [append_assoc]

/-! ### The whole stream -/

end

/-- A sparse file of `len` bytes that can be written: its regions are in order,
lie inside, and no position wraps. -/
structure SparseFile.Regular (s : SparseFile) (len : ℕ) : Prop where
  bs_pos : 0 < s.blockSize
  len_eq : s.len = len
  len_lt : len < 2 ^ 63 - 2 ^ 32
  blocks_lt : len / s.blockSize < 2 ^ 32
  layout : Layout s.blockSize 0 s.blocks
  inside : ∀ bb ∈ s.blocks, bb.stop s.blockSize * s.blockSize ≤ len

/-- The number of chunks that `sparse_count_chunks` arrives at. -/
def announcedChunks (env : Env) (bs len : ℕ) (l : List BackedBlock) : ℕ :=
  (chunksFrom env bs 0 l).length + if endBlock bs 0 l < numBlocks bs len then 1 else 0

/-- The stream that is written for a sparse file. -/
def SparseFile.stream (env : Env) (s : SparseFile) (len : ℕ) (crc : Bool) : List UInt8 :=
  (sparseHeader s.blockSize len (announcedChunks env s.blockSize len s.blocks) crc).encode ++
    (chunksOf env s.blockSize len s.blocks).flatMap Chunk.encode ++
    if crc then
      (Chunk.crc32 (sparseCrc32 0
        (s.blocks.flatMap (BackedBlock.covered env s.blockSize)))).encode
    else []

theorem totalSz_append (cs cs' : List Chunk) : totalSz (cs ++ cs') = totalSz cs + totalSz cs' := by
  simp [totalSz]

theorem totalSz_skipChunk (last next : ℕ) : totalSz (skipChunk last next) = next - last := by
  rw [skipChunk]
  by_cases h : last < next
  · rw [if_pos h]
    simp [totalSz, Chunk.chunkSz]
  · rw [if_neg h]
    simp only [totalSz, map_nil, sum_nil]
    omega

variable {bs : ℕ}

theorem last_le_endBlock : ∀ {l : List BackedBlock} {last : ℕ},
    Layout bs last l → last ≤ endBlock bs last l := by
  intro l
  induction l with
  | nil => exact fun _ => le_rfl
  | cons bb rest ih =>
    intro last h
    have h1 := h.behind bb mem_cons_self
    have h2 := ih h.tail
    rw [endBlock]
    rw [stop] at h2
    rw [stop]
    omega

theorem totalSz_chunksFrom : ∀ {l : List BackedBlock} {last : ℕ},
    Layout bs last l → last + totalSz (chunksFrom env bs last l) = endBlock bs last l := by
  intro l
  induction l with
  | nil => exact fun _ => rfl
  | cons bb rest ih =>
    intro last h
    have hb := h.behind bb mem_cons_self
    have ih := ih h.tail
    rw [stop] at ih
    rw [chunksFrom, endBlock, totalSz_append, totalSz_skipChunk, stop, ← ih]
    simp only [totalSz, map_cons, sum_cons, chunkSz_chunk]
    omega

theorem endBlock_le {n : ℕ} : ∀ {l : List BackedBlock} {last : ℕ}, last ≤ n →
    (∀ bb ∈ l, bb.stop bs ≤ n) → endBlock bs last l ≤ n := by
  intro l
  induction l with
  | nil => exact fun h _ => h
  | cons bb rest ih =>
    intro last _ h
    exact ih (h bb mem_cons_self) fun c hc => h c (mem_cons_of_mem bb hc)

theorem stop_le_endBlock : ∀ {l : List BackedBlock} {last : ℕ}, Layout bs last l →
    ∀ bb ∈ l, bb.stop bs ≤ endBlock bs last l := by
  intro l
  induction l with
  | nil => exact fun _ bb hbb => absurd hbb (by simp)
  | cons c rest ih =>
    intro last h bb hbb
    rcases mem_cons.mp hbb with rfl | hbb
    · exact last_le_endBlock h.tail
    · exact ih h.tail bb hbb

theorem chunksFrom_pos (hbs : 0 < bs) : ∀ {l : List BackedBlock} {last : ℕ},
    Layout bs last l → ∀ c ∈ chunksFrom env bs last l, 0 < c.chunkSz := by
  intro l
  induction l with
  | nil => exact fun _ c hc => absurd hc (by simp [chunksFrom])
  | cons bb rest ih =>
    intro last h c hc
    rw [chunksFrom, mem_append, mem_cons] at hc
    rcases hc with hc | rfl | hc
    · rw [skipChunk] at hc
      by_cases hg : last < bb.block
      · rw [if_pos hg, mem_singleton] at hc
        rw [hc]
        show 0 < bb.block - last
        omega
      · rw [if_neg hg] at hc
        exact absurd hc (by simp)
    · rw [chunkSz_chunk]
      exact numBlocks_pos hbs (h.ordered.pos bb mem_cons_self)
    · exact ih h.tail c hc

theorem length_le_totalSz {cs : List Chunk} (h : ∀ c ∈ cs, 0 < c.chunkSz) :
    cs.length ≤ totalSz cs := by
  induction cs with
  | nil => exact le_rfl
  | cons c cs ih =>
    have h1 := h c mem_cons_self
    have h2 := ih fun c' hc' => h c' (mem_cons_of_mem c hc')
    simp only [totalSz, map_cons, sum_cons, length_cons] at h2 ⊢
    omega

namespace SparseFile.Regular

variable {s : SparseFile} {len : ℕ}

theorem endBlock_le (h : s.Regular len) : endBlock s.blockSize 0 s.blocks ≤ len / s.blockSize :=
  Sparse.endBlock_le (Nat.zero_le _) fun bb hbb =>
    (Nat.le_div_iff_mul_le h.bs_pos).mpr (h.inside bb hbb)

theorem length_chunksFrom_le (h : s.Regular len) (env : Env) :
    (chunksFrom env s.blockSize 0 s.blocks).length ≤ len / s.blockSize := by
  have h1 := length_le_totalSz (chunksFrom_pos env h.bs_pos h.layout)
  have h2 := totalSz_chunksFrom env h.layout
  have h3 := h.endBlock_le
  omega

end SparseFile.Regular

variable {s : SparseFile}

theorem sparseCountChunks_ok (hbs : 0 < s.blockSize) :
    ∃ n, sparseCountChunks s = .ok n := by
  rw [sparseCountChunks, if_neg hbs.ne']
  dsimp only
  split
  · exact ⟨_, rfl⟩
  · exact ⟨_, rfl⟩

/-- The chunk count in the header. -/
theorem sparseCountChunks_eq {len : ℕ} (h : s.Regular len)
    (hlt : announcedChunks env s.blockSize len s.blocks < 2 ^ 32) :
    sparseCountChunks s = .ok (announcedChunks env s.blockSize len s.blocks) := by
  have hsz := s.backedBlockList.blockSize_lt
  have hlen := h.len_lt
  have hdiv : (i64 (s.len + s.blockSize - 1)).tdiv s.blockSize
      = ((numBlocks s.blockSize len : ℕ) : ℤ) := by
    have hbs := h.bs_pos
    have hcast : s.len + s.blockSize - 1 = ((len + s.blockSize - 1 : ℕ) : ℤ) := by
      rw [h.len_eq]
      omega
    rw [hcast, i64_of_range (by omega) (by
      change s.blockSize < 2 ^ 32 at hsz
      omega), Int.tdiv_eq_ediv_of_nonneg (by omega), numBlocks]
    rfl
  rw [announcedChunks] at hlt ⊢
  rw [sparseCountChunks, if_neg h.bs_pos.ne',
    countBlocks_eq env h.layout (by rw [Nat.zero_add]; omega), hdiv]
  simp only [Nat.cast_lt, Nat.zero_add]
  by_cases hend : endBlock s.blockSize 0 s.blocks < numBlocks s.blockSize len
  · rw [if_pos hend] at hlt
    rw [if_pos hend, if_pos hend, u32_of_lt hlt]
  · rw [if_neg hend, if_neg hend]
    rfl

section

variable {σ : Type} {ops : OutputFileOps σ} {feed : List UInt8 → σ} {b : List UInt8}
  {out : OutputFile σ}

theorem OutputFile.after_self (hdev : out.dev = feed b) :
    out.after feed b [] = out := by
  rw [after, ← hdev]
  simp

variable {len : ℕ}

/-- The end of `write_all_blocks` on a sink: the skip from block `e` to the end of
an image of `len` bytes. -/
theorem writeSkipChunk_pad (hsink : Sink ops feed) (hdev : out.dev = feed b)
    (hsparse : out.sparse = true) {bs e : ℕ} (hbs : 0 < bs) (hsize : out.blockSize = bs)
    (he : e * bs ≤ len) (hlen : len / bs < 2 ^ 32) :
    (if 0 < len - e * bs then (writeSkipChunk ops out ((len - e * bs : ℕ) : ℤ)).1 else out)
      = out.after feed (b ++ (if len % bs = 0 then skipChunk e (len / bs)
          else []).flatMap Chunk.encode) [] := by
  subst hsize
  obtain ⟨q, hq⟩ : ∃ q, q = len / out.blockSize := ⟨_, rfl⟩
  have hdm : len = q * out.blockSize + len % out.blockSize := by
    rw [hq, mul_comm]
    exact (Nat.div_add_mod len _).symm
  by_cases hdvd : len % out.blockSize = 0
  · have hsub : len - e * out.blockSize = (q - e) * out.blockSize := by
      rw [Nat.sub_mul]
      omega
    rw [if_pos hdvd, skipChunk, ← hq, hsub]
    by_cases hgap : e < q
    · rw [if_pos (Nat.mul_pos (by omega) hbs), if_pos hgap,
        writeSkipChunk_sink hsink hdev hsparse hbs (by omega)]
      simp
    · rw [if_neg (by rw [Nat.sub_eq_zero_of_le (not_lt.mp hgap)]; simp), if_neg hgap,
        flatMap_nil, append_nil, after_self hdev]
  · -- the skip is not a multiple of the block size and is refused
    have hmod : (len - e * out.blockSize) % out.blockSize = len % out.blockSize := by
      conv_rhs => rw [← Nat.sub_add_cancel he, Nat.add_mul_mod_self_right]
    have hgt : 0 < len - e * out.blockSize := by
      by_contra hz
      rw [show len - e * out.blockSize = 0 by omega, Nat.zero_mod] at hmod
      exact hdvd hmod.symm
    have hrefused : ((len - e * out.blockSize : ℕ) : ℤ) % (out.blockSize : ℤ) ≠ 0 := by
      rw [← Int.natCast_mod, hmod]
      exact_mod_cast hdvd
    rw [if_pos hgt, if_neg hdvd, writeSkipChunk, if_pos hsparse, writeSparseSkipChunk,
      if_pos hrefused, flatMap_nil, append_nil, after_self hdev]

variable {s : SparseFile}

/-- `write_all_blocks` on a sink. -/
theorem writeAllBlocks_sink (hsink : Sink ops feed) (env : Env) (h : s.Regular len)
    (hdev : out.dev = feed b) (hsparse : out.sparse = true) (hsize : out.blockSize = s.blockSize) :
    writeAllBlocks env ops s out
      = .ok (out.after feed (b ++ (chunksOf env s.blockSize len s.blocks).flatMap Chunk.encode)
          (s.blocks.flatMap (covered env s.blockSize))) := by
  have hlen := h.len_lt
  have hmul := (Nat.le_div_iff_mul_le h.bs_pos).mp h.endBlock_le
  rw [writeAllBlocks, writeBlocks_sink hsink env h.bs_pos h.layout hdev hsparse hsize, chunksOf]
  generalize endBlock s.blockSize 0 s.blocks = e at hmul ⊢
  have hpad : i64 (s.len - i64 ((e * s.blockSize : ℕ) : ℤ))
      = ((len - e * s.blockSize : ℕ) : ℤ) := by
    rw [h.len_eq, i64_sub_i64 (by omega) (by omega)]
    omega
  simp only [bind, Except.bind, hpad, gt_iff_lt, Nat.cast_pos]
  rw [if_neg (by omega), ← apply_ite Except.ok,
    writeSkipChunk_pad hsink (after_dev _ _ _ _) hsparse h.bs_pos hsize hmul h.blocks_lt]
  simp

/-- **The stream of a sparse file**, on any sink. -/
theorem sparseFileOutput_sink (hsink : Sink ops feed) (env : Env) (h : s.Regular len)
    (hlt : announcedChunks env s.blockSize len s.blocks < 2 ^ 32) (crc : Bool) :
    sparseFileOutput env ops s (feed []) true crc = .ok (feed (s.stream env len crc), 0) := by
  set header := sparseHeader s.blockSize len
    (announcedChunks env s.blockSize len s.blocks) crc with hheader
  have hinit : outputFileInit ops (feed []) s.blockSize s.len true
      (announcedChunks env s.blockSize len s.blocks) crc
      = (⟨feed ([] ++ header.encode), true, 0, crc, s.blockSize, s.len⟩, 0) := by
    rw [outputFileInit, if_pos rfl, h.len_eq,
      hsink.put rfl _ (by rw [SparseHeader.length_encode]; norm_num)]
  simp only [sparseFileOutput, sparseCountChunks_eq env h hlt, bind, Except.bind, hinit,
    lt_irrefl, if_false]
  rw [writeAllBlocks_sink hsink env h rfl rfl rfl]
  simp only [outputFileClose, after_sparse, if_true]
  rw [writeSparseEndChunk_sink hsink (after_dev _ _ _ _), SparseFile.stream,
    nil_append]
  cases crc with
  | false => rfl
  | true => rfl

end

/-- What `sparse_file_write` leaves in an empty file. -/
theorem sparseFileWrite_stream {s : SparseFile} {len : ℕ} (h : s.Regular len)
    (hlt : announcedChunks env s.blockSize len s.blocks < 2 ^ 32) (crc : Bool) :
    sparseFileWrite env s ⟨[], 0⟩ true crc
      = .ok (⟨s.stream env len crc, (s.stream env len crc).length⟩, 0) :=
  sparseFileOutput_sink fileSink env h hlt crc

end Sparse
