/-
The Android sparse image format (`sparse_format.h`).

The first part is the layout of the two headers, as C structures on a
little-endian host: `SparseHeader.encode` and `ChunkHeader.encode` are the bytes
of the structures, `decode` reads them back.

The second part says what a stream means, independently of the writer and of the
reader of libsparse:

* `parseStream` — the chunks of a well-formed stream: known chunk types, sizes
  that agree, complete payloads, and as many blocks as the header announces;
* `chunksImage` — the content of every block that a chunk list describes;
* `expand` — the same as a byte string, with don't-care blocks as zeros.
-/
import AndroidSystem.BackedBlock

open CInt List

namespace Sparse

/-! ### Headers -/

/-- `SPARSE_HEADER_MAGIC`, and the `CHUNK_TYPE_*`. -/
def sparseHeaderMagic : ℕ := 0xed26ff3a
def chunkTypeRaw : ℕ := 0xCAC1
def chunkTypeFill : ℕ := 0xCAC2
def chunkTypeDontCare : ℕ := 0xCAC3
def chunkTypeCrc32 : ℕ := 0xCAC4

/-- `SPARSE_HEADER_LEN` -/
def sparseHeaderLen : ℕ := 28

/-- `CHUNK_HEADER_LEN` -/
def chunkHeaderLen : ℕ := 12

/-- `sparse_header_t`. -/
structure SparseHeader where
  magic : ℕ
  majorVersion : ℕ
  minorVersion : ℕ
  fileHdrSz : ℕ
  chunkHdrSz : ℕ
  blkSz : ℕ
  totalBlks : ℕ
  totalChunks : ℕ
  imageChecksum : ℕ
  deriving DecidableEq, Repr

/-- `chunk_header_t`. -/
structure ChunkHeader where
  chunkType : ℕ
  reserved1 : ℕ
  chunkSz : ℕ
  totalSz : ℕ
  deriving DecidableEq, Repr

/-- The little-endian field of `w` bytes at offset `off`. -/
def field (b : List UInt8) (off w : ℕ) : ℕ := leNat ((b.drop off).take w)

/-- The bytes of a file header. -/
def SparseHeader.encode (h : SparseHeader) : List UInt8 :=
  leBytes 4 h.magic ++ leBytes 2 h.majorVersion ++ leBytes 2 h.minorVersion ++
    leBytes 2 h.fileHdrSz ++ leBytes 2 h.chunkHdrSz ++ leBytes 4 h.blkSz ++
    leBytes 4 h.totalBlks ++ leBytes 4 h.totalChunks ++ leBytes 4 h.imageChecksum

/-- The file header in some bytes. -/
def SparseHeader.decode (b : List UInt8) : SparseHeader where
  magic := field b 0 4
  majorVersion := field b 4 2
  minorVersion := field b 6 2
  fileHdrSz := field b 8 2
  chunkHdrSz := field b 10 2
  blkSz := field b 12 4
  totalBlks := field b 16 4
  totalChunks := field b 20 4
  imageChecksum := field b 24 4

/-- The bytes of a chunk header. -/
def ChunkHeader.encode (h : ChunkHeader) : List UInt8 :=
  leBytes 2 h.chunkType ++ leBytes 2 h.reserved1 ++ leBytes 4 h.chunkSz ++ leBytes 4 h.totalSz

/-- The chunk header in some bytes. -/
def ChunkHeader.decode (b : List UInt8) : ChunkHeader where
  chunkType := field b 0 2
  reserved1 := field b 2 2
  chunkSz := field b 4 4
  totalSz := field b 8 4

theorem field_lt (b : List UInt8) (off w : ℕ) : field b off w < 256 ^ w :=
  lt_of_lt_of_le (leNat_lt _) (Nat.pow_le_pow_right (by norm_num) (by simp))

@[simp] theorem SparseHeader.length_encode (h : SparseHeader) : h.encode.length = 28 := by
  simp [encode]

@[simp] theorem ChunkHeader.length_encode (h : ChunkHeader) : h.encode.length = 12 := by
  simp [encode]

/-- A header whose fields fit their widths is read back as it was written. -/
theorem SparseHeader.decode_encode {h : SparseHeader} (h1 : h.magic < 2 ^ 32)
    (h2 : h.majorVersion < 2 ^ 16) (h3 : h.minorVersion < 2 ^ 16) (h4 : h.fileHdrSz < 2 ^ 16)
    (h5 : h.chunkHdrSz < 2 ^ 16) (h6 : h.blkSz < 2 ^ 32) (h7 : h.totalBlks < 2 ^ 32)
    (h8 : h.totalChunks < 2 ^ 32) (h9 : h.imageChecksum < 2 ^ 32) :
    SparseHeader.decode h.encode = h := by
  cases h
  simp only [decode, encode, field, drop_append, take_append, length_leBytes,
    length_append, SparseHeader.mk.injEq]
  refine ⟨?_, ?_, ?_, ?_, ?_, ?_, ?_, ?_, ?_⟩ <;>
    simp [drop_eq_nil_of_le, take_of_length_le, leNat_leBytes] <;> omega

theorem ChunkHeader.decode_encode {h : ChunkHeader} (h1 : h.chunkType < 2 ^ 16)
    (h2 : h.reserved1 < 2 ^ 16) (h3 : h.chunkSz < 2 ^ 32) (h4 : h.totalSz < 2 ^ 32) :
    ChunkHeader.decode h.encode = h := by
  cases h
  simp only [decode, encode, field, drop_append, take_append, length_leBytes,
    length_append, ChunkHeader.mk.injEq]
  refine ⟨?_, ?_, ?_, ?_⟩ <;>
    simp [drop_eq_nil_of_le, take_of_length_le, leNat_leBytes] <;> omega

/-! ### Chunks -/

/-- A chunk with its payload. -/
inductive Chunk
  | raw (blocks : ℕ) (bytes : List UInt8)
  | fill (blocks : ℕ) (val : UInt32)
  | dontCare (blocks : ℕ)
  | crc32 (val : UInt32)
  deriving DecidableEq, Repr

namespace Chunk

/-- The number of blocks of the image the chunk describes. -/
def chunkSz : Chunk → ℕ
  | raw n _ => n
  | fill n _ => n
  | dontCare n => n
  | crc32 _ => 0

/-- The type of a chunk. -/
def chunkType : Chunk → ℕ
  | raw _ _ => chunkTypeRaw
  | fill _ _ => chunkTypeFill
  | dontCare _ => chunkTypeDontCare
  | crc32 _ => chunkTypeCrc32

/-- What follows the chunk header in the stream. -/
def payload : Chunk → List UInt8
  | raw _ bytes => bytes
  | fill _ v => leBytes 4 v.toNat
  | dontCare _ => []
  | crc32 v => leBytes 4 v.toNat

/-- The header of a chunk. -/
def header (c : Chunk) : ChunkHeader where
  chunkType := c.chunkType
  reserved1 := 0
  chunkSz := c.chunkSz
  totalSz := chunkHeaderLen + c.payload.length

/-- The bytes of a chunk. -/
def encode (c : Chunk) : List UInt8 := c.header.encode ++ c.payload

/-- The sizes of the chunk fit their header fields, and raw data fills its
blocks. -/
structure WellSized (bs : ℕ) (c : Chunk) : Prop where
  sz : c.chunkSz < 2 ^ 32
  total : chunkHeaderLen + c.payload.length < 2 ^ 32
  raw : ∀ n bytes, c = .raw n bytes → bytes.length = n * bs

/-- Content of the `j`-th block of the chunk. -/
def content (bs : ℕ) : Chunk → ℕ → BlockContent
  | raw _ bytes, j => .raw ((bytes.drop (j * bs)).take bs)
  | fill _ v, _ => .fill v
  | _, _ => .dontCare

/-- The chunk as part of the byte image: fill words repeated, don't-care blocks
as zeros. -/
def expand (bs : ℕ) : Chunk → List UInt8
  | raw _ bytes => bytes
  | fill n v => (List.range (n * bs)).map (fillByte v)
  | dontCare n => List.replicate (n * bs) 0
  | crc32 _ => []

end Chunk

/-- The content of every block that a list of chunks describes. -/
def chunksImage (bs : ℕ) : List Chunk → ℕ → BlockContent
  | [], _ => .dontCare
  | c :: cs, x => if x < c.chunkSz then c.content bs x else chunksImage bs cs (x - c.chunkSz)

/-- The byte image that a list of chunks describes. -/
def expand (bs : ℕ) (cs : List Chunk) : List UInt8 := cs.flatMap (Chunk.expand bs)

/-- The number of blocks that a list of chunks describes. -/
def totalSz (cs : List Chunk) : ℕ := (cs.map Chunk.chunkSz).sum

/-! ### Well-formed streams -/

variable {rest : List UInt8} {hdrSz : ℕ} {b : List UInt8} {c : Chunk} {bs : ℕ}

/-- One chunk at the front of `b`, where chunk headers take `hdrSz` bytes. -/
def parseChunk (hdrSz bs : ℕ) (b : List UInt8) : Option (Chunk × List UInt8) :=
  let h := ChunkHeader.decode (b.take chunkHeaderLen)
  let body := b.drop hdrSz
  if b.length < hdrSz then none
  else if h.chunkType = chunkTypeRaw then
    if h.totalSz = hdrSz + h.chunkSz * bs ∧ h.chunkSz * bs ≤ body.length then
      some (.raw h.chunkSz (body.take (h.chunkSz * bs)), body.drop (h.chunkSz * bs))
    else none
  else if h.chunkType = chunkTypeFill then
    if h.totalSz = hdrSz + 4 ∧ 4 ≤ body.length then
      some (.fill h.chunkSz (UInt32.ofNat (leNat (body.take 4))), body.drop 4)
    else none
  else if h.chunkType = chunkTypeDontCare then
    if h.totalSz = hdrSz then some (.dontCare h.chunkSz, body) else none
  else if h.chunkType = chunkTypeCrc32 then
    if h.totalSz = hdrSz + 4 ∧ 4 ≤ body.length then
      some (.crc32 (UInt32.ofNat (leNat (body.take 4))), body.drop 4)
    else none
  else none

/-- The next `n` chunks. -/
def parseChunks (hdrSz bs : ℕ) : ℕ → List UInt8 → Option (List Chunk)
  | 0, _ => some []
  | n + 1, b => do
    let (c, rest) ← parseChunk hdrSz bs b
    let cs ← parseChunks hdrSz bs n rest
    some (c :: cs)

/-- The header and the chunks of a well-formed stream. -/
def parseStream (b : List UInt8) : Option (SparseHeader × List Chunk) :=
  let h := SparseHeader.decode (b.take sparseHeaderLen)
  if sparseHeaderLen ≤ b.length ∧ h.magic = sparseHeaderMagic ∧ h.majorVersion = 1 ∧
      sparseHeaderLen ≤ h.fileHdrSz ∧ chunkHeaderLen ≤ h.chunkHdrSz then do
    let cs ← parseChunks h.chunkHdrSz h.blkSz h.totalChunks (b.drop h.fileHdrSz)
    if totalSz cs = h.totalBlks then some (h, cs) else none
  else none

/-- What a chunk that was parsed says about the bytes. -/
theorem parseChunk_cases (h : parseChunk hdrSz bs b = some (c, rest)) :
    hdrSz ≤ b.length ∧ ∃ hd, hd = ChunkHeader.decode (b.take chunkHeaderLen) ∧
      hd.totalSz < 2 ^ 32 ∧
      ((hd.chunkType = chunkTypeRaw ∧ hd.totalSz = hdrSz + hd.chunkSz * bs ∧
          hd.chunkSz * bs ≤ (b.drop hdrSz).length ∧
          c = .raw hd.chunkSz ((b.drop hdrSz).take (hd.chunkSz * bs)) ∧
          rest = (b.drop hdrSz).drop (hd.chunkSz * bs)) ∨
        (hd.chunkType = chunkTypeFill ∧ hd.totalSz = hdrSz + 4 ∧ 4 ≤ (b.drop hdrSz).length ∧
          c = .fill hd.chunkSz (UInt32.ofNat (leNat ((b.drop hdrSz).take 4))) ∧
          rest = (b.drop hdrSz).drop 4) ∨
        (hd.chunkType = chunkTypeDontCare ∧ hd.totalSz = hdrSz ∧ c = .dontCare hd.chunkSz ∧
          rest = b.drop hdrSz) ∨
        (hd.chunkType = chunkTypeCrc32 ∧ hd.totalSz = hdrSz + 4 ∧ 4 ≤ (b.drop hdrSz).length ∧
          c = .crc32 (UInt32.ofNat (leNat ((b.drop hdrSz).take 4))) ∧
          rest = (b.drop hdrSz).drop 4)) := by
  obtain ⟨hlen, h⟩ := Option.ite_none_left_eq_some.mp h
  refine ⟨not_lt.mp hlen, _, rfl, field_lt _ 8 4, ?_⟩
  split_ifs at h with ht hc ht hc ht hc ht hc
  all_goals cases h
  · exact Or.inl ⟨ht, hc.1, hc.2, rfl, rfl⟩
  · exact Or.inr (Or.inl ⟨ht, hc.1, hc.2, rfl, rfl⟩)
  · exact Or.inr (Or.inr (Or.inl ⟨ht, hc, rfl, rfl⟩))
  · exact Or.inr (Or.inr (Or.inr ⟨ht, hc.1, hc.2, rfl, rfl⟩))

theorem parseChunk_rest (h : parseChunk hdrSz bs b = some (c, rest)) :
    rest = b.drop (hdrSz + c.payload.length) := by
  obtain ⟨-, hd, -, -, hcases⟩ := parseChunk_cases h
  rcases hcases with ⟨-, -, hlen, rfl, rfl⟩ | ⟨-, -, hlen, rfl, rfl⟩ | ⟨-, -, rfl, rfl⟩ |
    ⟨-, -, hlen, rfl, rfl⟩
  · rw [drop_drop, Chunk.payload, length_take, min_eq_left hlen]
  · rw [drop_drop, Chunk.payload, length_leBytes]
  · rfl
  · rw [drop_drop, Chunk.payload, length_leBytes]

theorem parseChunks_succ {n : ℕ} {cs : List Chunk}
    (h : parseChunks hdrSz bs (n + 1) b = some cs) : ∃ c rest cs',
      parseChunk hdrSz bs b = some (c, rest) ∧ parseChunks hdrSz bs n rest = some cs' ∧
        cs = c :: cs' := by
  rw [parseChunks] at h
  obtain ⟨⟨c, rest⟩, hc, h⟩ := Option.bind_eq_some_iff.mp h
  obtain ⟨cs', hcs, h⟩ := Option.bind_eq_some_iff.mp h
  exact ⟨c, rest, cs', hc, hcs, (Option.some_inj.mp h).symm⟩

theorem Chunk.decode_header (h : c.WellSized bs) :
    ChunkHeader.decode c.header.encode = c.header := by
  refine ChunkHeader.decode_encode ?_ (by norm_num [header]) h.sz h.total
  cases c <;> norm_num [header, chunkType, chunkTypeRaw, chunkTypeFill, chunkTypeDontCare,
    chunkTypeCrc32]

theorem parseChunk_encode (h : c.WellSized bs) (rest : List UInt8) :
    parseChunk chunkHeaderLen bs (c.encode ++ rest) = some (c, rest) := by
  have hlen : c.header.encode.length = chunkHeaderLen := ChunkHeader.length_encode _
  have htake : (c.encode ++ rest).take chunkHeaderLen = c.header.encode := by
    rw [Chunk.encode, append_assoc, ← hlen, take_left]
  have hdrop : (c.encode ++ rest).drop chunkHeaderLen = c.payload ++ rest := by
    rw [Chunk.encode, append_assoc, ← hlen, drop_left]
  have hlong : ¬ (c.encode ++ rest).length < chunkHeaderLen := by
    rw [Chunk.encode, length_append, length_append, hlen]
    omega
  -- a word is read back from the payload
  have hword : ∀ v : UInt32, UInt32.ofNat (leNat ((leBytes 4 v.toNat ++ rest).take 4)) = v ∧
      (leBytes 4 v.toNat ++ rest).drop 4 = rest := by
    intro v
    have hv : v.toNat < 256 ^ 4 := v.toNat_lt
    rw [take_left' (length_leBytes 4 _), leNat_leBytes, Nat.mod_eq_of_lt hv, UInt32.ofNat_toNat]
    exact ⟨rfl, drop_left' (length_leBytes 4 _)⟩
  have hroom : ∀ v : UInt32, 4 ≤ (leBytes 4 v.toNat ++ rest).length := by
    intro v
    rw [length_append, length_leBytes]
    omega
  rw [parseChunk]
  simp only [htake, hdrop, if_neg hlong, Chunk.decode_header h]
  rw [show c.header.chunkType = c.chunkType from rfl]
  cases c with
  | raw n bytes =>
    have hb : bytes.length = n * bs := h.raw n bytes rfl
    rw [Chunk.chunkType, if_pos rfl, if_pos ⟨congrArg (chunkHeaderLen + ·) hb, by
        show n * bs ≤ (bytes ++ rest).length
        rw [length_append]
        omega⟩]
    show some (Chunk.raw n ((bytes ++ rest).take (n * bs)), (bytes ++ rest).drop (n * bs)) = _
    rw [← hb, take_left, drop_left]
  | fill n v =>
    rw [Chunk.chunkType, if_neg (by decide), if_pos rfl, if_pos ⟨rfl, hroom v⟩]
    exact congrArg some (Prod.ext (congrArg (Chunk.fill n) (hword v).1) (hword v).2)
  | dontCare n =>
    rw [Chunk.chunkType, if_neg (by decide), if_neg (by decide), if_pos rfl,
      if_pos (show (Chunk.dontCare n).header.totalSz = chunkHeaderLen from rfl)]
    rfl
  | crc32 v =>
    rw [Chunk.chunkType, if_neg (by decide), if_neg (by decide), if_neg (by decide), if_pos rfl,
      if_pos ⟨rfl, hroom v⟩]
    exact congrArg some (Prod.ext (congrArg Chunk.crc32 (hword v).1) (hword v).2)

theorem parseChunks_encode : ∀ {cs : List Chunk}, (∀ c ∈ cs, c.WellSized bs) →
    ∀ rest, parseChunks chunkHeaderLen bs cs.length (cs.flatMap Chunk.encode ++ rest)
      = some cs := by
  intro cs
  induction cs with
  | nil => exact fun _ rest => rfl
  | cons c cs ih =>
    intro h rest
    rw [length_cons, flatMap_cons, append_assoc, parseChunks,
      parseChunk_encode (h c mem_cons_self)]
    show (parseChunks chunkHeaderLen bs cs.length (cs.flatMap Chunk.encode ++ rest)
      >>= fun cs => some (c :: cs)) = _
    rw [ih (fun c' hc' => h c' (mem_cons_of_mem c hc')) rest]
    rfl

end Sparse
