/-
Reading a sparse stream or a raw image (`sparse_read.c`).

The file is a byte string with a current position.  A function that returns a
negative code stops with `Stop.ret`, a run that leaves the defined behaviour of C
with `Stop.fault`; otherwise the block list, the position and the running
checksum are passed on.  Reading succeeds whenever the bytes are there, seeking
always, and the copy buffer is allocated.

The reader checks little: chunk sizes are compared in `unsigned int`, unknown
chunk types are skipped, and the payload of a raw chunk is seeked over without
looking at the end of the file unless a checksum is wanted.
-/
import AndroidSystem.SparseFile

open CInt

namespace Sparse

/-- Why a function of the reader returns early. -/
inductive Stop
  | fault (f : Fault)
  | ret (code : ℤ)
  deriving DecidableEq, Repr

/-- A fault in a function that has no code to return. -/
def liftFault {α : Type} : Except Fault α → Except Stop α
  | .ok a => .ok a
  | .error f => .error (.fault f)

/-- `-EINVAL`. -/
def einval : ℤ := -22

/-- `COPY_BUF_SIZE` -/
def copyBufSize : ℕ := 1024 * 1024

/-- What the reader of a sparse stream changes: the sparse file, the position in
the input and the running checksum. -/
structure Reader where
  s : SparseFile
  pos : ℕ
  crc32 : UInt32
  deriving DecidableEq

/-- `read_all`: `len` bytes from position `pos`. -/
def readAll (file : List UInt8) (pos len : ℕ) : Except Stop (List UInt8) :=
  if len ≤ file.length - pos then .ok ((file.drop pos).take len)
  else .error (.ret einval)

/-! ### Chunks -/

/-- The loop of `process_raw_chunk`: the checksum over the payload. -/
def rawCrcLoop (file : List UInt8) : ℕ → ℕ → ℕ → UInt32 → Except Stop UInt32
  | 0, _, _, crc => .ok crc
  | rounds + 1, len, pos, crc =>
    if len = 0 then .ok crc
    else do
      let chunk := min len copyBufSize
      let copybuf ← readAll file pos chunk
      rawCrcLoop file rounds (len - chunk) (pos + chunk) (sparseCrc32 crc copybuf)

/-- The loops of `process_fill_chunk` and `process_skip_chunk`: the checksum over
`len` bytes that are taken from the copy buffer again and again. -/
def bufCrcLoop (copybuf : ℕ → UInt8) : ℕ → ℕ → UInt32 → UInt32
  | 0, _, crc => crc
  | rounds + 1, len, crc =>
    if len = 0 then crc
    else
      let chunk := min len copyBufSize
      bufCrcLoop copybuf rounds (len - chunk)
        (sparseCrc32 crc ((List.range chunk).map copybuf))

section

variable (file : List UInt8) (fd : ℕ) (crc : Bool)

/-- `process_raw_chunk` -/
def processRawChunk (chunkSize blocks block : ℕ) (r : Reader) : Except Stop Reader :=
  let len := u32 (blocks * r.s.blockSize)
  if r.s.blockSize = 0 then .error (.fault .divByZero)
  else if chunkSize % r.s.blockSize ≠ 0 then .error (.ret einval)
  else if chunkSize / r.s.blockSize ≠ blocks then .error (.ret einval)
  else do
    let s ← liftFault (sparseFileAddFd r.s fd r.pos len block)
    if crc then
      let crc32 ← rawCrcLoop file len len r.pos r.crc32
      .ok { s := s, pos := r.pos + len, crc32 := crc32 }
    else .ok { r with s := s, pos := r.pos + len }

/-- The checksum of a chunk without data in the stream.  A length that is
negative as an `int64_t` makes the loop read past the copy buffer, or never end. -/
def crcOver (copybuf : ℕ → UInt8) (len : ℤ) (crc32 : UInt32) : Except Stop UInt32 :=
  if crc then
    if len < 0 then .error (.fault .outOfBounds)
    else .ok (bufCrcLoop copybuf len.toNat len.toNat crc32)
  else .ok crc32

/-- `process_fill_chunk` -/
def processFillChunk (chunkSize blocks block : ℕ) (r : Reader) : Except Stop Reader :=
  let len := i64 ((blocks * r.s.blockSize : ℕ) : ℤ)
  if chunkSize ≠ 4 then .error (.ret einval)
  else do
    let word ← readAll file r.pos 4
    let fillVal := UInt32.ofNat (leNat word)
    let s ← liftFault (sparseFileAddFill r.s fillVal (toU32 len) block)
    let crc32 ← crcOver crc (fillByte fillVal) len r.crc32
    .ok { s := s, pos := r.pos + 4, crc32 := crc32 }

/-- `process_skip_chunk` -/
def processSkipChunk (chunkSize blocks : ℕ) (r : Reader) : Except Stop Reader :=
  let len := i64 ((blocks * r.s.blockSize : ℕ) : ℤ)
  if chunkSize ≠ 0 then .error (.ret einval)
  else do
    let crc32 ← crcOver crc (fun _ => 0) len r.crc32
    .ok { r with crc32 := crc32 }

/-- `process_crc32_chunk` -/
def processCrc32Chunk (chunkSize : ℕ) (r : Reader) : Except Stop Reader :=
  if chunkSize ≠ 4 then .error (.ret einval)
  else do
    let word ← readAll file r.pos 4
    if UInt32.ofNat (leNat word) ≠ r.crc32 then .error (.ret einval)
    else .ok { r with pos := r.pos + 4 }

/-- `process_chunk`, with the number it returns: the chunk size as an `int`, and 0
for a checksum or a chunk of unknown type. -/
def processChunk (chunkHdrSz : ℕ) (h : ChunkHeader) (curBlock : ℕ) (r : Reader) :
    Except Stop (Reader × ℤ) :=
  let chunkDataSize := u32 (h.totalSz + (2 ^ 32 - chunkHdrSz))
  if h.chunkType = chunkTypeRaw then do
    let r ← processRawChunk file fd crc chunkDataSize h.chunkSz curBlock r
    .ok (r, i32 h.chunkSz)
  else if h.chunkType = chunkTypeFill then do
    let r ← processFillChunk file crc chunkDataSize h.chunkSz curBlock r
    .ok (r, i32 h.chunkSz)
  else if h.chunkType = chunkTypeDontCare then do
    let r ← processSkipChunk crc chunkDataSize h.chunkSz r
    .ok (r, i32 h.chunkSz)
  else if h.chunkType = chunkTypeCrc32 then
    -- the argument `*crc_ptr`
    if crc then do
      let r ← processCrc32Chunk file chunkDataSize r
      .ok (r, 0)
    else .error (.fault .nullDeref)
  else .ok (r, 0)

/-- One round of the loop of `sparse_file_read_sparse`. -/
def readChunk (chunkHdrSz : ℕ) (curBlock : ℕ) (r : Reader) : Except Stop (Reader × ℕ) := do
  let header ← readAll file r.pos chunkHeaderLen
  let r := { r with pos := r.pos + max chunkHdrSz chunkHeaderLen }
  let (r, ret) ← processChunk file fd crc chunkHdrSz (ChunkHeader.decode header) curBlock r
  if ret < 0 then .error (.ret ret) else .ok (r, u32 (curBlock + ret.toNat))

/-- The loop of `sparse_file_read_sparse`, with the value of `cur_block`. -/
def readChunks (chunkHdrSz : ℕ) : ℕ → ℕ → Reader → Except Stop (Reader × ℕ)
  | 0, curBlock, r => .ok (r, curBlock)
  | n + 1, curBlock, r => do
    let (r, curBlock) ← readChunk file fd crc chunkHdrSz curBlock r
    readChunks chunkHdrSz n curBlock r

/-- The header at the start of the file, with the checks that both
`sparse_file_import` and `sparse_file_read_sparse` make. -/
def readSparseHeader : Except Stop SparseHeader := do
  let bytes ← readAll file 0 sparseHeaderLen
  let h := SparseHeader.decode bytes
  if h.magic ≠ sparseHeaderMagic then .error (.ret einval)
  else if h.majorVersion ≠ 1 then .error (.ret einval)
  else if h.fileHdrSz < sparseHeaderLen then .error (.ret einval)
  else if h.chunkHdrSz < chunkHeaderLen then .error (.ret einval)
  else .ok h

/-- `sparse_file_read_sparse` -/
def sparseFileReadSparse (s : SparseFile) : Except Stop SparseFile := do
  let h ← readSparseHeader file
  let (r, curBlock) ← readChunks file fd crc h.chunkHdrSz h.totalChunks 0
    { s := s, pos := max h.fileHdrSz sparseHeaderLen, crc32 := 0 }
  if h.totalBlks ≠ curBlock then .error (.ret einval) else .ok r.s

/-! ### Raw images -/

/-- The test for a block that is one word repeated. -/
def sparseBlock (bs : ℕ) (buf : List UInt8) : Bool :=
  (List.range' 1 (bs / 4 - 1)).all fun i => field buf 0 4 = field buf (4 * i) 4

/-- The loop of `sparse_file_read_normal`; each round takes at least one byte off
`remain`.  A block of fewer than four bytes has no first word. -/
def readNormalLoop : ℕ → ℕ → ℕ → ℕ → SparseFile → Except Stop SparseFile
  | 0, _, _, _, s => .ok s
  | rounds + 1, remain, offset, block, s =>
    if remain = 0 then .ok s
    else do
      let toRead := min remain s.blockSize
      let buf ← readAll file offset toRead
      if toRead = s.blockSize ∧ s.blockSize < 4 then .error (.fault .outOfBounds)
      else
        let s ←
          if toRead = s.blockSize ∧ sparseBlock s.blockSize buf then
            liftFault (sparseFileAddFill s (UInt32.ofNat (field buf 0 4)) toRead block)
          else liftFault (sparseFileAddFd s fd offset toRead block)
        readNormalLoop rounds (remain - toRead) (offset + toRead) (u32 (block + 1)) s

/-- `sparse_file_read_normal` -/
def sparseFileReadNormal (s : SparseFile) : Except Stop SparseFile :=
  readNormalLoop file fd s.len.toNat s.len.toNat 0 0 s

/-- `sparse_file_read` -/
def sparseFileRead (s : SparseFile) (sparse : Bool) : Except Stop SparseFile :=
  if crc ∧ ¬ sparse then .error (.ret einval)
  else if sparse then sparseFileReadSparse file fd crc s
  else sparseFileReadNormal file fd s

/-- `sparse_file_import`; `none` is `NULL`. -/
def sparseFileImport : Except Fault (Option SparseFile) :=
  match readSparseHeader file with
  | .error (.fault f) => .error f
  | .error (.ret _) => .ok none
  | .ok h =>
    match sparseFileRead file fd crc
      (sparseFileNew h.blkSz ((h.totalBlks * h.blkSz : ℕ) : ℤ)) true with
    | .error (.fault f) => .error f
    | .error (.ret _) => .ok none
    | .ok s => .ok (some s)

end

end Sparse
