/-
Writing chunks (`output_file.c`).

An output file combines two tables of functions.  `OutputFileOps` is the device:
a file that is written at its current position and can be seeked and truncated
(`fileOps`), or a counter of the bytes that would be written (`counterOps`, the
callback `out_counter_write` of `sparse.c`).  The flag `sparse` selects the other
table, `sparse_file_ops` or `normal_file_ops`: whether regions are written as
chunks of the sparse format or in place.

A call that fails returns a negative code and leaves behind what it has written
so far; the callers in `sparse.c` do not look at the code.  Memory, mappings and
complete writes of the lengths asked for are available; a length that is negative
as an `int` is refused by `write`.

A `Sink` is a device that receives a byte stream.  What the sparse writers send
to a sink is `Chunk.encode` of the chunk they write.
-/
import AndroidSystem.SparseCrc32
import AndroidSystem.SparseFormat

open CInt List

namespace Sparse

open Chunk

/-- `struct output_file_ops`: each function returns the new state of the device
and a code that is negative on failure. -/
structure OutputFileOps (σ : Type) where
  skip : σ → ℤ → σ × ℤ
  pad : σ → ℤ → σ × ℤ
  write : σ → List UInt8 → σ × ℤ

/-- `struct output_file`, without the fields that nothing reads (`cur_out_ptr`,
`chunk_cnt`) and without its buffers. -/
structure OutputFile (σ : Type) where
  dev : σ
  sparse : Bool
  crc32 : UInt32
  useCrc : Bool
  blockSize : ℕ
  len : ℤ

/-! ### Devices -/

/-- An open file: its contents and the current position. -/
structure FdFile where
  contents : List UInt8
  pos : ℕ
  deriving DecidableEq, Repr

/-- The contents after `data` was written at `pos`; a gap reads as zeros. -/
def overwrite (contents : List UInt8) (pos : ℕ) (data : List UInt8) : List UInt8 :=
  if data = [] then contents
  else
    (contents ++ List.replicate (pos - contents.length) 0).take pos ++ data ++
      contents.drop (pos + data.length)

/-- `file_write` -/
def fileWrite (f : FdFile) (data : List UInt8) : FdFile × ℤ :=
  if i32 data.length < 0 then (f, -1)
  else ({ contents := overwrite f.contents f.pos data, pos := f.pos + data.length }, 0)

/-- `file_skip` -/
def fileSkip (f : FdFile) (cnt : ℤ) : FdFile × ℤ :=
  if (f.pos : ℤ) + cnt < 0 then (f, -1) else ({ f with pos := ((f.pos : ℤ) + cnt).toNat }, 0)

/-- `file_pad` -/
def filePad (f : FdFile) (len : ℤ) : FdFile × ℤ :=
  if len < 0 then (f, -22)
  else
    ({ f with contents := f.contents.take len.toNat ++
        List.replicate (len.toNat - f.contents.length) 0 }, 0)

/-- `file_ops` -/
def fileOps : OutputFileOps FdFile := ⟨fileSkip, filePad, fileWrite⟩

/-- `callback_file_ops` with `out_counter_write`: the lengths are added up as
`int`s. -/
def counterOps : OutputFileOps ℤ where
  skip count off := (if 0 < off then count + off else count, 0)
  pad count _ := (count, -1)
  write count data := (count + i32 data.length, 0)

/-! ### Chunks of the sparse format -/

section

variable {σ : Type} (ops : OutputFileOps σ)

/-- `out->ops->write`. -/
def OutputFile.put (out : OutputFile σ) (data : List UInt8) : OutputFile σ × ℤ :=
  let (dev, ret) := ops.write out.dev data
  ({ out with dev := dev }, ret)

/-- `write_sparse_skip_chunk`, which takes whole blocks only. -/
def writeSparseSkipChunk (out : OutputFile σ) (skipLen : ℤ) : OutputFile σ × ℤ :=
  if skipLen % out.blockSize ≠ 0 then (out, -1)
  else
    let header : ChunkHeader :=
      { chunkType := chunkTypeDontCare, reserved1 := 0,
        chunkSz := toU32 (skipLen.tdiv out.blockSize), totalSz := chunkHeaderLen }
    let (out, ret) := out.put ops header.encode
    if ret < 0 then (out, -1) else (out, 0)

/-- `write_sparse_fill_chunk`.  The checksum is continued over one block. -/
def writeSparseFillChunk (out : OutputFile σ) (len : ℕ) (fillVal : UInt32) :
    OutputFile σ × ℤ :=
  let rndUpLen := align len out.blockSize
  let header : ChunkHeader :=
    { chunkType := chunkTypeFill, reserved1 := 0, chunkSz := rndUpLen / out.blockSize,
      totalSz := chunkHeaderLen + 4 }
  let (out, ret) := out.put ops header.encode
  if ret < 0 then (out, -1)
  else
    let (out, ret) := out.put ops (leBytes 4 fillVal.toNat)
    if ret < 0 then (out, -1)
    else if out.useCrc then
      let count := out.blockSize / 4
      ({ out with crc32 :=
          (fun crc => sparseCrc32 crc (leBytes 4 fillVal.toNat))^[count] out.crc32 }, 0)
    else (out, 0)

/-- `write_sparse_data_chunk`; `data` are the `len` bytes behind the pointer.  A
checksum over a length that is negative as an `int` runs off the buffer. -/
def writeSparseDataChunk (out : OutputFile σ) (data : List UInt8) :
    Except Fault (OutputFile σ × ℤ) :=
  let rndUpLen := align data.length out.blockSize
  let zeroLen := u32 (rndUpLen + (2 ^ 32 - data.length))
  let header : ChunkHeader :=
    { chunkType := chunkTypeRaw, reserved1 := 0, chunkSz := rndUpLen / out.blockSize,
      totalSz := chunkHeaderLen + rndUpLen }
  let (out, ret) := out.put ops header.encode
  if ret < 0 then .ok (out, -1)
  else
    let (out, ret) := out.put ops data
    if ret < 0 then .ok (out, -1)
    else
      let (out, ret) := if zeroLen = 0 then (out, 0) else out.put ops (List.replicate zeroLen 0)
      if ret < 0 then .ok (out, -1)
      else if out.useCrc then
        if i32 data.length < 0 ∨ i32 zeroLen < 0 then .error .outOfBounds
        else
          .ok ({ out with
            crc32 := sparseCrc32 (sparseCrc32 out.crc32 data) (List.replicate zeroLen 0) }, 0)
      else .ok (out, 0)

/-- `write_sparse_end_chunk` -/
def writeSparseEndChunk (out : OutputFile σ) : OutputFile σ × ℤ :=
  if out.useCrc then
    let header : ChunkHeader :=
      { chunkType := chunkTypeCrc32, reserved1 := 0, chunkSz := 0, totalSz := chunkHeaderLen + 4 }
    let (out, ret) := out.put ops header.encode
    if ret < 0 then (out, ret)
    else
      let (out, _) := out.put ops (leBytes 4 out.crc32.toNat)
      (out, 0)
  else (out, 0)

/-! ### Regions in place -/

/-- `write_normal_data_chunk` -/
def writeNormalDataChunk (out : OutputFile σ) (data : List UInt8) : OutputFile σ × ℤ :=
  let rndUpLen := align data.length out.blockSize
  let (out, ret) := out.put ops data
  if ret < 0 then (out, ret)
  else if rndUpLen > data.length then
    let (dev, ret) := ops.skip out.dev ((rndUpLen - data.length : ℕ) : ℤ)
    ({ out with dev := dev }, ret)
  else (out, ret)

/-- `fill_buf` after it was filled: whole words only, the rest stays zero. -/
def fillBuf (bs : ℕ) (fillVal : UInt32) : List UInt8 :=
  (List.replicate (bs / 4) (leBytes 4 fillVal.toNat)).flatten ++ List.replicate (bs % 4) 0

/-- The loop of `write_normal_fill_chunk`; each round takes at least one byte off
`len`, so that `len` rounds are enough. -/
def writeNormalFillLoop (buf : List UInt8) : ℕ → ℕ → OutputFile σ → OutputFile σ × ℤ
  | 0, _, out => (out, 0)
  | rounds + 1, len, out =>
    if len = 0 then (out, 0)
    else
      let writeLen := min len out.blockSize
      let (out, ret) := out.put ops (buf.take writeLen)
      if ret < 0 then (out, ret) else writeNormalFillLoop buf rounds (len - writeLen) out

/-- `write_normal_fill_chunk` -/
def writeNormalFillChunk (out : OutputFile σ) (len : ℕ) (fillVal : UInt32) :
    OutputFile σ × ℤ :=
  writeNormalFillLoop ops (fillBuf out.blockSize fillVal) len len out

/-- `write_normal_skip_chunk` -/
def writeNormalSkipChunk (out : OutputFile σ) (len : ℤ) : OutputFile σ × ℤ :=
  let (dev, ret) := ops.skip out.dev len
  ({ out with dev := dev }, ret)

/-- `write_normal_end_chunk` -/
def writeNormalEndChunk (out : OutputFile σ) : OutputFile σ × ℤ :=
  let (dev, ret) := ops.pad out.dev out.len
  ({ out with dev := dev }, ret)

/-! ### The table of chunk writers -/

/-- `write_data_chunk` -/
def writeDataChunk (out : OutputFile σ) (data : List UInt8) :
    Except Fault (OutputFile σ × ℤ) :=
  if out.sparse then writeSparseDataChunk ops out data else .ok (writeNormalDataChunk ops out data)

/-- `write_fill_chunk` -/
def writeFillChunk (out : OutputFile σ) (len : ℕ) (fillVal : UInt32) : OutputFile σ × ℤ :=
  if out.sparse then writeSparseFillChunk ops out len fillVal
  else writeNormalFillChunk ops out len fillVal

/-- `write_fd_chunk`: the bytes are mapped in, from the page that `offset` lies
in; `mmap` refuses an empty mapping. -/
def writeFdChunk (out : OutputFile σ) (len : ℕ) (file : ℕ → UInt8) (offset : ℕ) :
    Except Fault (OutputFile σ × ℤ) :=
  let alignedDiff := offset % 4096
  if u32 (len + alignedDiff) = 0 then .ok (out, -22)
  else writeDataChunk ops out ((List.range len).map fun i => file (offset + i))

/-- `write_skip_chunk` -/
def writeSkipChunk (out : OutputFile σ) (len : ℤ) : OutputFile σ × ℤ :=
  if out.sparse then writeSparseSkipChunk ops out len else writeNormalSkipChunk ops out len

/-- `output_file_close`, up to the release of the structure. -/
def outputFileClose (out : OutputFile σ) : OutputFile σ :=
  if out.sparse then (writeSparseEndChunk ops out).1 else (writeNormalEndChunk ops out).1

/-- The header that `output_file_init` writes. -/
def sparseHeader (blockSize : ℕ) (len : ℤ) (chunks : ℕ) (crc : Bool) : SparseHeader where
  magic := sparseHeaderMagic
  majorVersion := 1
  minorVersion := 0
  fileHdrSz := sparseHeaderLen
  chunkHdrSz := chunkHeaderLen
  blkSz := blockSize
  totalBlks := toU32 (len.tdiv blockSize)
  totalChunks := u32 (if crc then chunks + 1 else chunks)
  imageChecksum := 0

/-- `output_file_init`: the header is written in sparse mode. -/
def outputFileInit (dev : σ) (blockSize : ℕ) (len : ℤ) (sparse : Bool) (chunks : ℕ)
    (crc : Bool) : OutputFile σ × ℤ :=
  let out : OutputFile σ :=
    { dev := dev, sparse := sparse, crc32 := 0, useCrc := crc, blockSize := blockSize, len := len }
  if sparse then out.put ops (sparseHeader blockSize len chunks crc).encode else (out, 0)

end

/-! ### What the sparse writers send -/

variable {bs : ℕ}

/-- A device that receives a byte stream: `feed b` is its state after the bytes
`b`. -/
structure Sink {σ : Type} (ops : OutputFileOps σ) (feed : List UInt8 → σ) : Prop where
  write : ∀ b data, data.length < 2 ^ 31 → ops.write (feed b) data = (feed (b ++ data), 0)

theorem overwrite_end (b data : List UInt8) : overwrite b b.length data = b ++ data := by
  rw [overwrite]
  by_cases h : data = []
  · rw [if_pos h, h, append_nil]
  · rw [if_neg h, Nat.sub_self, replicate_zero, append_nil, take_length,
      drop_eq_nil_of_le (by omega), append_nil]

theorem fileSink : Sink fileOps fun b => ⟨b, b.length⟩ where
  write b data h := by
    show fileWrite _ _ = _
    rw [fileWrite, if_neg (by rw [i32_of_lt h]; omega), overwrite_end, length_append]

theorem divRoundUp_eq {len : ℕ} (h : len + bs ≤ 2 ^ 32) :
    divRoundUp len bs = numBlocks bs len := by
  rw [divRoundUp, u32_of_lt (by omega), numBlocks]

theorem align_eq {len : ℕ} (h : len + bs ≤ 2 ^ 32) :
    align len bs = numBlocks bs len * bs := by
  have hle : numBlocks bs len * bs ≤ len + bs - 1 := Nat.div_mul_le_self _ _
  rw [align, divRoundUp_eq h, mul_comm, u32_of_lt (by omega)]

theorem le_numBlocks_mul (hbs : 0 < bs) (len : ℕ) : len ≤ numBlocks bs len * bs := by
  by_contra h
  exact absurd ((lt_numBlocks_iff hbs).mpr (not_le.mp h)) (lt_irrefl _)

/-- Data filled up with zeros to whole blocks. -/
def padBlocks (bs : ℕ) (data : List UInt8) : List UInt8 :=
  data ++ List.replicate (numBlocks bs data.length * bs - data.length) 0

theorem length_padBlocks (hbs : 0 < bs) (data : List UInt8) :
    (padBlocks bs data).length = numBlocks bs data.length * bs := by
  have hle := le_numBlocks_mul hbs data.length
  rw [padBlocks, length_append, length_replicate]
  omega

theorem iterate_sparseCrc32 (w : List UInt8) (n : ℕ) (crc : UInt32) :
    (fun crc => sparseCrc32 crc w)^[n] crc = sparseCrc32 crc (List.replicate n w).flatten := by
  induction n generalizing crc with
  | zero => rw [Function.iterate_zero, replicate_zero, flatten_nil, sparseCrc32_nil]; rfl
  | succ n ih =>
    rw [Function.iterate_succ_apply, ih, replicate_succ, flatten_cons,
      sparseCrc32_append]

section

variable {σ : Type} {ops : OutputFileOps σ} {feed : List UInt8 → σ} {b : List UInt8}
  {out : OutputFile σ}

/-- Writing to a sink appends, and succeeds. -/
theorem Sink.put (h : Sink ops feed) (hdev : out.dev = feed b) (data : List UInt8)
    (hlen : data.length < 2 ^ 31) :
    out.put ops data = ({ out with dev := feed (b ++ data) }, 0) := by
  simp only [OutputFile.put, hdev, h.write b data hlen]

/-- The state of an output file after a chunk: the stream is longer and the
checksum has been continued over `covered`. -/
def OutputFile.after (feed : List UInt8 → σ) (out : OutputFile σ) (b : List UInt8)
    (covered : List UInt8) : OutputFile σ :=
  { out with
    dev := feed b, crc32 := if out.useCrc then sparseCrc32 out.crc32 covered else out.crc32 }

@[simp] theorem OutputFile.after_dev (feed : List UInt8 → σ) (out : OutputFile σ)
    (b c : List UInt8) : (out.after feed b c).dev = feed b := rfl

@[simp] theorem OutputFile.after_sparse (feed : List UInt8 → σ) (out : OutputFile σ)
    (b c : List UInt8) : (out.after feed b c).sparse = out.sparse := rfl

@[simp] theorem OutputFile.after_blockSize (feed : List UInt8 → σ) (out : OutputFile σ)
    (b c : List UInt8) : (out.after feed b c).blockSize = out.blockSize := rfl

section

variable (h : Sink ops feed) (hdev : out.dev = feed b) (hbs : 0 < out.blockSize)

include h hdev hbs

theorem writeSparseSkipChunk_sink {n : ℕ} (hn : n < 2 ^ 32) :
    writeSparseSkipChunk ops out ((n * out.blockSize : ℕ) : ℤ)
      = (out.after feed (b ++ (dontCare n).encode) [], 0) := by
  have hdiv : Int.tdiv ((n * out.blockSize : ℕ) : ℤ) (out.blockSize : ℤ) = n := by
    rw [Nat.cast_mul]
    exact Int.mul_tdiv_cancel _ (by omega)
  have hheader : (⟨chunkTypeDontCare, 0,
      toU32 (Int.tdiv ((n * out.blockSize : ℕ) : ℤ) (out.blockSize : ℤ)), chunkHeaderLen⟩ :
      ChunkHeader) = (dontCare n).header := by
    rw [hdiv, toU32_natCast, u32_of_lt hn]
    rfl
  have hencode : (dontCare n).encode = (dontCare n).header.encode := by
    rw [encode]
    exact append_nil _
  rw [writeSparseSkipChunk, if_neg (by
    rw [Nat.cast_mul, not_not]
    exact Int.mul_emod_left _ _)]
  simp only [hheader]
  rw [h.put hdev _ (by rw [ChunkHeader.length_encode]; norm_num), hencode]
  simp [OutputFile.after]

theorem writeSparseFillChunk_sink {len : ℕ} (v : UInt32) (hlen : len + out.blockSize ≤ 2 ^ 32) :
    writeSparseFillChunk ops out len v
      = (out.after feed (b ++ (fill (numBlocks out.blockSize len) v).encode)
          (List.replicate (out.blockSize / 4) (leBytes 4 v.toNat)).flatten, 0) := by
  have hdiv : align len out.blockSize / out.blockSize = numBlocks out.blockSize len := by
    rw [align_eq hlen, Nat.mul_div_cancel _ hbs]
  rw [writeSparseFillChunk]
  simp only [hdiv]
  rw [h.put hdev _ (by rw [ChunkHeader.length_encode]; norm_num)]
  simp only [lt_irrefl, if_false]
  rw [h.put rfl _ (by rw [length_leBytes]; norm_num), encode, ← append_assoc]
  simp only [lt_irrefl, if_false, iterate_sparseCrc32]
  by_cases hcrc : out.useCrc = true
  · simp only [hcrc, if_true, OutputFile.after]
    rfl
  · simp only [hcrc, OutputFile.after]
    rfl

theorem writeSparseDataChunk_sink {data : List UInt8} (hlen : data.length + out.blockSize ≤ 2 ^ 32)
    (hdata : data.length < 2 ^ 31)
    (hpad : numBlocks out.blockSize data.length * out.blockSize < data.length + 2 ^ 31) :
    writeSparseDataChunk ops out data
      = .ok (out.after feed (b ++ (raw (numBlocks out.blockSize data.length)
          (padBlocks out.blockSize data)).encode) (padBlocks out.blockSize data), 0) := by
  obtain ⟨z, hz⟩ : ∃ z, z = numBlocks out.blockSize data.length * out.blockSize - data.length :=
    ⟨_, rfl⟩
  have hle : data.length ≤ numBlocks out.blockSize data.length * out.blockSize :=
    le_numBlocks_mul hbs _
  have hpayload : padBlocks out.blockSize data = data ++ List.replicate z 0 := by
    rw [padBlocks, hz]
  have hzero : u32 (numBlocks out.blockSize data.length * out.blockSize
      + (2 ^ 32 - data.length)) = z := by
    rw [u32]
    omega
  set c := raw (numBlocks out.blockSize data.length) (padBlocks out.blockSize data) with hc
  have hheader : (⟨chunkTypeRaw, 0, numBlocks out.blockSize data.length,
      chunkHeaderLen + numBlocks out.blockSize data.length * out.blockSize⟩ : ChunkHeader)
      = c.header := by
    rw [← length_padBlocks hbs]
    rfl
  have henc : b ++ c.encode = b ++ c.header.encode ++ data ++ List.replicate z 0 := by
    rw [encode, append_assoc, append_assoc, ← hpayload]
    rfl
  rw [writeSparseDataChunk]
  simp only [align_eq hlen, hzero, Nat.mul_div_cancel _ hbs, hheader]
  rw [h.put hdev _ (by rw [ChunkHeader.length_encode]; norm_num)]
  simp only [lt_irrefl, if_false]
  rw [h.put rfl _ hdata]
  simp only [lt_irrefl, if_false]
  -- whether or not there is padding, the stream now ends with the payload
  have hput : (if z = 0 then
        (({ out with dev := feed (b ++ c.header.encode ++ data) } : OutputFile σ), (0 : ℤ))
      else OutputFile.put ops { out with dev := feed (b ++ c.header.encode ++ data) }
        (List.replicate z 0))
      = ({ out with dev := feed (b ++ c.encode) }, 0) := by
    by_cases hz0 : z = 0
    · rw [if_pos hz0, henc, hz0, replicate_zero, append_nil]
    · rw [if_neg hz0, h.put rfl _ (by rw [length_replicate]; omega), henc]
  have hsmall : ¬ (i32 data.length < 0 ∨ i32 z < 0) := by
    rw [i32_of_lt hdata, i32_of_lt (by omega)]
    omega
  rw [hput]
  simp only [lt_irrefl, if_false, if_neg hsmall]
  by_cases hcrc : out.useCrc = true
  · simp only [hcrc, if_true, OutputFile.after, hpayload, sparseCrc32_append]
  · simp only [hcrc, OutputFile.after]
    rfl

end

theorem writeSparseEndChunk_sink (h : Sink ops feed) (hdev : out.dev = feed b) :
    (writeSparseEndChunk ops out).1.dev
      = feed (b ++ if out.useCrc then (Chunk.crc32 out.crc32).encode else []) := by
  rw [writeSparseEndChunk]
  by_cases hcrc : out.useCrc = true
  · simp only [hcrc, if_true]
    rw [h.put hdev _ (by rw [ChunkHeader.length_encode]; norm_num)]
    simp only [lt_irrefl, if_false]
    rw [h.put rfl _ (by rw [length_leBytes]; norm_num), append_assoc]
    rfl
  · simp only [hcrc]
    simpa using hdev

end

end Sparse
