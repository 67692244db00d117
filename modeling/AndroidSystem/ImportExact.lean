/-
What the importer accepts, and what it makes of it.

Without a checksum the importer goes from header to header and checks little on
the way.  Which headers it comes by and which regions it adds can be read off the
file (`headerPositions`, `regionsAt`), whether it accepts it or not.  A file that
it accepts is compared with the format:

* `readChunks_accepted` — what has been checked, and what has been added;
* `parseChunks_iff_wellFormed` — which of the accepted files are well formed;
* `addRegions_ok_increasing` — the regions of an accepted file have increasing
  block numbers;
* `image_eq_chunksImage_iff` — when the block list denotes what the chunks describe;
* `sparseFileImport_exact_iff` — together.
-/
import AndroidSystem.ImportSafety
import AndroidSystem.RoundTrip

open CInt List Option

namespace Sparse

open ChunkHeader

/-! ### The headers of a stream -/

/-- The chunk header at a position. -/
def chunkHeaderAt (file : List UInt8) (pos : ℕ) : ChunkHeader :=
  ChunkHeader.decode ((file.drop pos).take chunkHeaderLen)

/-- How far the reader moves behind a chunk header. -/
def ChunkHeader.payloadSize (bs : ℕ) (h : ChunkHeader) : ℕ :=
  if h.chunkType = chunkTypeRaw then u32 (h.chunkSz * bs)
  else if h.chunkType = chunkTypeFill ∨ h.chunkType = chunkTypeCrc32 then 4
  else 0

/-- How far a chunk moves `cur_block`. -/
def ChunkHeader.blocks (h : ChunkHeader) : ℕ :=
  if h.chunkType = chunkTypeRaw ∨ h.chunkType = chunkTypeFill ∨ h.chunkType = chunkTypeDontCare then
    h.chunkSz
  else 0

section

variable (file : List UInt8) (hdrSz bs : ℕ)

/-- Where the reader looks for the next `n` chunk headers. -/
def headerPositions : ℕ → ℕ → List ℕ
  | 0, _ => []
  | n + 1, pos =>
    pos :: headerPositions n (pos + hdrSz + (chunkHeaderAt file pos).payloadSize bs)

/-- The region that the reader adds for the chunk at `pos`. -/
def regionAt (fd pos cur : ℕ) : Option Region :=
  let h := chunkHeaderAt file pos
  if h.chunkType = chunkTypeRaw then
    some ⟨.fd fd (pos + hdrSz), u32 (h.chunkSz * bs), u32 cur, u32_lt _, u32_lt _⟩
  else if h.chunkType = chunkTypeFill then
    some ⟨.fill (UInt32.ofNat (leNat ((file.drop (pos + hdrSz)).take 4))), u32 (h.chunkSz * bs),
      u32 cur, u32_lt _, u32_lt _⟩
  else none

/-- The regions that the reader adds for the chunks at the positions. -/
def regionsAt (fd : ℕ) : ℕ → List ℕ → List Region
  | _, [] => []
  | cur, pos :: rest => (regionAt file hdrSz bs fd pos cur).toList ++
      regionsAt fd (cur + (chunkHeaderAt file pos).blocks) rest

/-- The bytes that a chunk describes. -/
def describedAt (pos : ℕ) : List UInt8 :=
  let h := chunkHeaderAt file pos
  if h.chunkType = chunkTypeRaw then (file.drop (pos + hdrSz)).take (u32 (h.chunkSz * bs))
  else if h.chunkType = chunkTypeFill then
    (range (h.chunkSz * bs)).map
      (fillByte (UInt32.ofNat (leNat ((file.drop (pos + hdrSz)).take 4))))
  else if h.chunkType = chunkTypeDontCare then replicate (h.chunkSz * bs) 0
  else []

/-- The reader goes past the chunk at `pos`, behind bytes with the checksum `c`: sizes
are checked modulo `2 ^ 32`, and a chunk size must not be negative as an `int`.  Only
if a checksum is wanted, raw data is read, and a checksum is compared. -/
structure Passed (crc : Bool) (c : UInt32) (pos : ℕ) : Prop where
  room : chunkHeaderLen ≤ file.length - pos
  raw : (chunkHeaderAt file pos).chunkType = chunkTypeRaw → bs ≠ 0 ∧
    u32 ((chunkHeaderAt file pos).totalSz + (2 ^ 32 - hdrSz))
      = (chunkHeaderAt file pos).chunkSz * bs ∧
    (crc = true → u32 ((chunkHeaderAt file pos).chunkSz * bs) ≤ file.length - (pos + hdrSz))
  fill : (chunkHeaderAt file pos).chunkType = chunkTypeFill →
    u32 ((chunkHeaderAt file pos).totalSz + (2 ^ 32 - hdrSz)) = 4 ∧
      4 ≤ file.length - (pos + hdrSz)
  skip : (chunkHeaderAt file pos).chunkType = chunkTypeDontCare →
    u32 ((chunkHeaderAt file pos).totalSz + (2 ^ 32 - hdrSz)) = 0
  crc32 : (chunkHeaderAt file pos).chunkType = chunkTypeCrc32 → crc = true ∧
    u32 ((chunkHeaderAt file pos).totalSz + (2 ^ 32 - hdrSz)) = 4 ∧
      4 ≤ file.length - (pos + hdrSz) ∧
      UInt32.ofNat (leNat ((file.drop (pos + hdrSz)).take 4)) = c
  size : (chunkHeaderAt file pos).blocks < 2 ^ 31

/-- The reader goes past all the chunks. -/
def PassedAll (crc : Bool) : UInt32 → List ℕ → Prop
  | _, [] => True
  | c, pos :: rest => Passed file hdrSz bs crc c pos ∧
      PassedAll crc (sparseCrc32 c (describedAt file hdrSz bs pos)) rest

/-- What the reader has checked when it goes past a chunk and no checksum is
wanted: sizes only modulo `2 ^ 32`, and of the types only that it is no checksum. -/
structure Checked (pos : ℕ) : Prop where
  room : chunkHeaderLen ≤ file.length - pos
  raw : (chunkHeaderAt file pos).chunkType = chunkTypeRaw → bs ≠ 0 ∧
    u32 ((chunkHeaderAt file pos).totalSz + (2 ^ 32 - hdrSz))
      = (chunkHeaderAt file pos).chunkSz * bs
  fill : (chunkHeaderAt file pos).chunkType = chunkTypeFill →
    u32 ((chunkHeaderAt file pos).totalSz + (2 ^ 32 - hdrSz)) = 4 ∧
      4 ≤ file.length - (pos + hdrSz)
  skip : (chunkHeaderAt file pos).chunkType = chunkTypeDontCare →
    u32 ((chunkHeaderAt file pos).totalSz + (2 ^ 32 - hdrSz)) = 0
  not_crc32 : (chunkHeaderAt file pos).chunkType ≠ chunkTypeCrc32

/-- What is missing to a chunk of the format: the header is complete and of a known
type, and raw data is in the file, with a size that does not wrap. -/
structure WellFormed (pos : ℕ) : Prop where
  room : pos + hdrSz ≤ file.length
  known : (chunkHeaderAt file pos).chunkType = chunkTypeRaw ∨
    (chunkHeaderAt file pos).chunkType = chunkTypeFill ∨
    (chunkHeaderAt file pos).chunkType = chunkTypeDontCare
  raw : (chunkHeaderAt file pos).chunkType = chunkTypeRaw →
    hdrSz + (chunkHeaderAt file pos).chunkSz * bs < 2 ^ 32 ∧
      pos + hdrSz + (chunkHeaderAt file pos).chunkSz * bs ≤ file.length

instance (pos : ℕ) : Decidable (WellFormed file hdrSz bs pos) :=
  decidable_of_iff (pos + hdrSz ≤ file.length ∧
      ((chunkHeaderAt file pos).chunkType = chunkTypeRaw ∨
        (chunkHeaderAt file pos).chunkType = chunkTypeFill ∨
        (chunkHeaderAt file pos).chunkType = chunkTypeDontCare) ∧
      ((chunkHeaderAt file pos).chunkType = chunkTypeRaw →
        hdrSz + (chunkHeaderAt file pos).chunkSz * bs < 2 ^ 32 ∧
          pos + hdrSz + (chunkHeaderAt file pos).chunkSz * bs ≤ file.length))
    ⟨fun h => ⟨h.1, h.2.1, h.2.2⟩, fun h => ⟨h.room, h.known, h.raw⟩⟩

end

/-! ### An accepted run -/

section

variable {file : List UInt8} {fd hdrSz bs : ℕ}

theorem liftFault_eq_ok {α : Type} {x : Except Fault α} {a : α} (h : liftFault x = .ok a) :
    x = .ok a := by
  cases x with
  | error f => cases h
  | ok b =>
    cases h
    rfl

variable {r' : Reader} {blocks : ℕ} {r : Reader} {dataSize : ℕ} {crc : Bool}

/-- The loop over the payload of a raw chunk that ends has read all of it. -/
theorem rawCrcLoop_room : ∀ {rounds len pos : ℕ} {c c' : UInt32}, len ≤ rounds →
    rawCrcLoop file rounds len pos c = .ok c' → len ≤ file.length - pos := by
  intro rounds
  induction rounds with
  | zero =>
    intro len pos c c' hlen _
    omega
  | succ rounds ih =>
    intro len pos c c' hlen h
    rw [rawCrcLoop] at h
    split at h
    · omega
    rename_i hz
    obtain ⟨bytes, hbytes, h⟩ := bind_eq_ok h
    rw [readAll] at hbytes
    split at hbytes
    swap
    · cases hbytes
    rename_i hroom
    have hpos : 0 < min len copyBufSize := by
      rw [copyBufSize]
      omega
    have := ih (by omega) h
    omega

theorem processRawChunk_accepted {block : ℕ}
    (h : processRawChunk file fd crc dataSize blocks block r = .ok r') :
    r.s.blockSize ≠ 0 ∧ dataSize = blocks * r.s.blockSize ∧
      backedBlockAdd r.s.backedBlockList (.fd fd r.pos) (u32 (blocks * r.s.blockSize)) block
        = .ok r'.s.backedBlockList ∧
      r'.pos = r.pos + u32 (blocks * r.s.blockSize) ∧
      (crc = true → u32 (blocks * r.s.blockSize) ≤ file.length - r.pos ∧
        r'.crc32 = sparseCrc32 r.crc32
          ((file.drop r.pos).take (u32 (blocks * r.s.blockSize)))) := by
  rw [processRawChunk] at h
  split at h
  · cases h
  rename_i hbs
  split at h
  · cases h
  rename_i hmod
  split at h
  · cases h
  rename_i hdiv
  obtain ⟨s, hs, h⟩ := bind_eq_ok h
  obtain ⟨bbl, hbbl, hs⟩ := bind_eq_ok (liftFault_eq_ok hs)
  cases hs
  have hdata : dataSize = blocks * r.s.blockSize := by
    rw [← not_not.mp hdiv, Nat.div_mul_cancel (Nat.dvd_of_mod_eq_zero (not_not.mp hmod))]
  cases crc with
  | false =>
    cases h
    exact ⟨hbs, hdata, hbbl, rfl, by simp⟩
  | true =>
    obtain ⟨c, hc, h⟩ := bind_eq_ok h
    cases h
    have hroom := rawCrcLoop_room le_rfl hc
    rw [rawCrcLoop_eq file _ _ _ _ le_rfl hroom] at hc
    cases hc
    exact ⟨hbs, hdata, hbbl, rfl, fun _ => ⟨hroom, rfl⟩⟩

/-- A checksum that is computed is that of the bytes. -/
theorem crcOver_eq_ok {copybuf : ℕ → UInt8}
    (hper : ∀ i, copybuf (copyBufSize + i) = copybuf i) {m n : ℕ} (hm : m < 2 ^ 32)
    (hn : n < 2 ^ 32) {c c' : UInt32}
    (h : crcOver true copybuf (i64 ((m * n : ℕ) : ℤ)) c = .ok c') :
    c' = sparseCrc32 c ((range (m * n)).map copybuf) := by
  have hlen : m * n < 2 ^ 63 := by
    by_contra hlong
    have hneg := mt (i64_mul_nonneg hm hn).mp hlong
    rw [crcOver, if_pos rfl, if_pos (not_le.mp hneg)] at h
    cases h
  rw [crcOver_eq hper hlen] at h
  cases h
  rfl

theorem processFillChunk_accepted {block : ℕ} (hblocks : blocks < 2 ^ 32)
    (h : processFillChunk file crc dataSize blocks block r = .ok r') :
    dataSize = 4 ∧ 4 ≤ file.length - r.pos ∧
      backedBlockAdd r.s.backedBlockList (.fill (UInt32.ofNat (leNat ((file.drop r.pos).take 4))))
        (u32 (blocks * r.s.blockSize)) block = .ok r'.s.backedBlockList ∧
      r'.pos = r.pos + 4 ∧
      (crc = true → r'.crc32 = sparseCrc32 r.crc32 ((range (blocks * r.s.blockSize)).map
        (fillByte (UInt32.ofNat (leNat ((file.drop r.pos).take 4)))))) := by
  rw [processFillChunk] at h
  split at h
  · cases h
  rename_i hsize
  obtain ⟨word, hword, h⟩ := bind_eq_ok h
  rw [readAll] at hword
  split at hword
  swap
  · cases hword
  rename_i hroom
  cases hword
  obtain ⟨s, hs, h⟩ := bind_eq_ok h
  obtain ⟨bbl, hbbl, hs⟩ := bind_eq_ok (liftFault_eq_ok hs)
  cases hs
  obtain ⟨c, hc, h⟩ := bind_eq_ok h
  cases h
  rw [toU32_i64] at hbbl
  refine ⟨not_not.mp hsize, hroom, hbbl, rfl, fun hcrc => ?_⟩
  rw [hcrc] at hc
  exact crcOver_eq_ok (fillByte_periodic _) hblocks r.s.backedBlockList.blockSize_lt hc

theorem processSkipChunk_accepted (hblocks : blocks < 2 ^ 32)
    (h : processSkipChunk crc dataSize blocks r = .ok r') :
    dataSize = 0 ∧ r'.s = r.s ∧ r'.pos = r.pos ∧
      (crc = true → r'.crc32 = sparseCrc32 r.crc32 (replicate (blocks * r.s.blockSize) 0)) := by
  rw [processSkipChunk] at h
  split at h
  · cases h
  rename_i hsize
  obtain ⟨c, hc, h⟩ := bind_eq_ok h
  cases h
  refine ⟨not_not.mp hsize, rfl, rfl, fun hcrc => ?_⟩
  rw [hcrc] at hc
  have hzero := crcOver_eq_ok (fun _ => rfl) hblocks r.s.backedBlockList.blockSize_lt hc
  rw [map_const', length_range] at hzero
  exact hzero

theorem processCrc32Chunk_accepted (h : processCrc32Chunk file dataSize r = .ok r') :
    dataSize = 4 ∧ 4 ≤ file.length - r.pos ∧
      UInt32.ofNat (leNat ((file.drop r.pos).take 4)) = r.crc32 ∧
      r' = { r with pos := r.pos + 4 } := by
  rw [processCrc32Chunk] at h
  split at h
  · cases h
  rename_i hsize
  obtain ⟨word, hword, h⟩ := bind_eq_ok h
  rw [readAll] at hword
  split at hword
  swap
  · cases hword
  rename_i hroom
  cases hword
  split at h
  · cases h
  rename_i hcrc
  cases h
  exact ⟨not_not.mp hsize, hroom, not_not.mp hcrc, rfl⟩

/-- What one round does that goes on. -/
structure Past (file : List UInt8) (fd : ℕ) (crc : Bool) (hdrSz bs cur : ℕ) (r r' : Reader)
    (cur' : ℕ) : Prop where
  passed : Passed file hdrSz bs crc r.crc32 r.pos
  added : addRegions r.s.backedBlockList (regionAt file hdrSz bs fd r.pos cur).toList
    = .ok r'.s.backedBlockList
  pos : r'.pos = r.pos + hdrSz + (chunkHeaderAt file r.pos).payloadSize bs
  cur : cur' = u32 (cur + (chunkHeaderAt file r.pos).blocks)
  crc32 : crc = true → r'.crc32 = sparseCrc32 r.crc32 (describedAt file hdrSz bs r.pos)

/-- A round that goes on has read a header and processed its chunk. -/
theorem readChunk_eq_ok (hhdr : chunkHeaderLen ≤ hdrSz) {cur cur' : ℕ}
    (h : readChunk file fd crc hdrSz cur r = .ok (r', cur')) :
    chunkHeaderLen ≤ file.length - r.pos ∧ ∃ ret : ℤ, 0 ≤ ret ∧ cur' = u32 (cur + ret.toNat) ∧
      processChunk file fd crc hdrSz (chunkHeaderAt file r.pos) cur
        { r with pos := r.pos + hdrSz } = .ok (r', ret) := by
  obtain ⟨bytes, hbytes, h⟩ := bind_eq_ok h
  have hroom : chunkHeaderLen ≤ file.length - r.pos := by
    by_contra hlt
    rw [readAll, if_neg hlt] at hbytes
    cases hbytes
  rw [readAll, if_pos hroom] at hbytes
  cases hbytes
  obtain ⟨⟨r₁, ret⟩, hchunk, hret⟩ := bind_eq_ok h
  rw [max_eq_left hhdr] at hchunk
  change (if ret < 0 then _ else _) = _ at hret
  split at hret
  · cases hret
  · rename_i hnonneg
    cases hret
    exact ⟨hroom, ret, not_lt.mp hnonneg, rfl, hchunk⟩

/-- A chunk size that is negative as an `int` is refused; any other is added to the block. -/
theorem add_chunkSz {cur sz : ℕ} (hsz : sz < 2 ^ 32) (hnonneg : 0 ≤ i32 sz) :
    sz < 2 ^ 31 ∧ u32 (u32 cur + (i32 sz).toNat) = u32 (cur + sz) := by
  rcases Nat.lt_or_ge sz (2 ^ 31) with hlt | hge
  · refine ⟨hlt, ?_⟩
    rw [(i32_toNat hlt).2]
    simp only [u32]
    omega
  · exact absurd (i32_neg hge hsz) (not_lt.mpr hnonneg)

/-- **One round** that goes on: the chunk has been checked and its region added. -/
theorem readChunk_past (hhdr : chunkHeaderLen ≤ hdrSz) {cur cur' : ℕ}
    (hsize : r.s.blockSize = bs) (h : readChunk file fd crc hdrSz (u32 cur) r = .ok (r', cur')) :
    Past file fd crc hdrSz bs cur r r' cur' := by
  subst hsize
  obtain ⟨hroom, ret, hnonneg, rfl, hchunk⟩ := readChunk_eq_ok hhdr h
  set hd := chunkHeaderAt file r.pos with hhd
  have hsz32 : hd.chunkSz < 2 ^ 32 := field_lt _ 4 4
  rw [processChunk] at hchunk
  by_cases hraw : hd.chunkType = chunkTypeRaw
  · rw [if_pos hraw] at hchunk
    obtain ⟨r₂, hr₂, hchunk⟩ := bind_eq_ok hchunk
    cases hchunk
    obtain ⟨hbs, hdata, hadd, hpos, hcrc⟩ := processRawChunk_accepted hr₂
    have hblocks : hd.blocks = hd.chunkSz := if_pos (Or.inl hraw)
    obtain ⟨hlt, hnext⟩ : _ ∧ u32 (u32 cur + _) = _ := add_chunkSz hsz32 hnonneg
    refine ⟨⟨hroom, fun _ => ⟨hbs, hdata, fun h => (hcrc h).1⟩, fun h => ?_, fun h => ?_,
      fun h => ?_, hblocks ▸ hlt⟩, ?_, ?_, ?_, fun h => ?_⟩
    · rw [← hhd, hraw] at h
      exact absurd h (by decide)
    · rw [← hhd, hraw] at h
      exact absurd h (by decide)
    · rw [← hhd, hraw] at h
      exact absurd h (by decide)
    · rw [regionAt, if_pos hraw, toList_some, addRegions_call, ← backedBlockAdd_u32]
      exact hadd
    · rw [hpos, payloadSize, if_pos hraw]
    · rw [hnext, ← hhd, hblocks]
    · rw [(hcrc h).2, describedAt, if_pos hraw]
  rw [if_neg hraw] at hchunk
  by_cases hfill : hd.chunkType = chunkTypeFill
  · rw [if_pos hfill] at hchunk
    obtain ⟨r₂, hr₂, hchunk⟩ := bind_eq_ok hchunk
    cases hchunk
    obtain ⟨hdata, hword, hadd, hpos, hcrc⟩ := processFillChunk_accepted hsz32 hr₂
    have hblocks : hd.blocks = hd.chunkSz := if_pos (Or.inr (Or.inl hfill))
    obtain ⟨hlt, hnext⟩ : _ ∧ u32 (u32 cur + _) = _ := add_chunkSz hsz32 hnonneg
    refine ⟨⟨hroom, fun h => absurd h hraw, fun _ => ⟨hdata, hword⟩, fun h => ?_, fun h => ?_,
      hblocks ▸ hlt⟩, ?_, ?_, ?_, fun h => ?_⟩
    · rw [← hhd, hfill] at h
      exact absurd h (by decide)
    · rw [← hhd, hfill] at h
      exact absurd h (by decide)
    · rw [regionAt, if_neg hraw, if_pos hfill, toList_some, addRegions_call,
        ← backedBlockAdd_u32]
      exact hadd
    · rw [hpos, payloadSize, if_neg hraw, if_pos (Or.inl hfill)]
    · rw [hnext, ← hhd, hblocks]
    · rw [hcrc h, describedAt, if_neg hraw, if_pos hfill]
  rw [if_neg hfill] at hchunk
  by_cases hskip : hd.chunkType = chunkTypeDontCare
  · rw [if_pos hskip] at hchunk
    obtain ⟨r₂, hr₂, hchunk⟩ := bind_eq_ok hchunk
    cases hchunk
    obtain ⟨hdata, hs, hpos, hcrc⟩ := processSkipChunk_accepted hsz32 hr₂
    have hblocks : hd.blocks = hd.chunkSz := if_pos (Or.inr (Or.inr hskip))
    have htype : hd.chunkType ≠ chunkTypeCrc32 := by
      rw [hskip]
      decide
    obtain ⟨hlt, hnext⟩ : _ ∧ u32 (u32 cur + _) = _ := add_chunkSz hsz32 hnonneg
    refine ⟨⟨hroom, fun h => absurd h hraw, fun h => absurd h hfill, fun _ => hdata,
      fun h => absurd h htype, hblocks ▸ hlt⟩, ?_, ?_, ?_, fun h => ?_⟩
    · rw [regionAt, if_neg hraw, if_neg hfill, hs]
      rfl
    · rw [hpos, payloadSize, if_neg hraw, if_neg (not_or.mpr ⟨hfill, htype⟩)]
      rfl
    · rw [hnext, ← hhd, hblocks]
    · rw [hcrc h, describedAt, if_neg hraw, if_neg hfill, if_pos hskip]
  rw [if_neg hskip] at hchunk
  have hblocks : hd.blocks = 0 := if_neg (by simp [hraw, hfill, hskip])
  by_cases hcrc : hd.chunkType = chunkTypeCrc32
  · rw [if_pos hcrc] at hchunk
    cases crc with
    | false => cases hchunk
    | true =>
      rw [if_pos rfl] at hchunk
      obtain ⟨r₂, hr₂, hchunk⟩ := bind_eq_ok hchunk
      cases hchunk
      obtain ⟨hdata, hword, hc, rfl⟩ := processCrc32Chunk_accepted hr₂
      refine ⟨⟨hroom, fun h => absurd h hraw, fun h => absurd h hfill, fun h => absurd h hskip,
        fun _ => ⟨rfl, hdata, hword, hc⟩, by rw [← hhd, hblocks]; norm_num⟩, ?_, ?_, ?_,
        fun h => ?_⟩
      · rw [regionAt, if_neg hraw, if_neg hfill]
        rfl
      · rw [payloadSize, if_neg hraw, if_pos (Or.inr hcrc)]
      · rw [← hhd, hblocks]
        simp
      · rw [describedAt, if_neg hraw, if_neg hfill, if_neg hskip, sparseCrc32_nil]
  rw [if_neg hcrc] at hchunk
  cases hchunk
  refine ⟨⟨hroom, fun h => absurd h hraw, fun h => absurd h hfill, fun h => absurd h hskip,
    fun h => absurd h hcrc, by rw [← hhd, hblocks]; norm_num⟩, ?_, ?_, ?_, fun h => ?_⟩
  · rw [regionAt, if_neg hraw, if_neg hfill]
    rfl
  · rw [payloadSize, if_neg hraw, if_neg (not_or.mpr ⟨hfill, hcrc⟩)]
    rfl
  · rw [← hhd, hblocks]
    simp
  · rw [describedAt, if_neg hraw, if_neg hfill, if_neg hskip, sparseCrc32_nil]

/-- Without a checksum, what has been passed has been checked. -/
theorem Passed.checked {c : UInt32} {pos : ℕ} (h : Passed file hdrSz bs false c pos) :
    Checked file hdrSz bs pos :=
  ⟨h.room, fun hraw => ⟨(h.raw hraw).1, (h.raw hraw).2.1⟩, h.fill, h.skip,
    fun hcrc => Bool.false_ne_true (h.crc32 hcrc).1⟩

/-- **A run** that goes on: every chunk has been checked and its region added. -/
theorem readChunks_accepted (hhdr : chunkHeaderLen ≤ hdrSz) : ∀ (n : ℕ) {r r' : Reader}
    {cur cur' : ℕ}, r.s.blockSize = bs →
    readChunks file fd false hdrSz n (u32 cur) r = .ok (r', cur') →
    (∀ pos ∈ headerPositions file hdrSz bs n r.pos, Checked file hdrSz bs pos) ∧
      addRegions r.s.backedBlockList
        (regionsAt file hdrSz bs fd cur (headerPositions file hdrSz bs n r.pos))
          = .ok r'.s.backedBlockList ∧
      cur' = u32 (cur + ((headerPositions file hdrSz bs n r.pos).map
        fun pos => (chunkHeaderAt file pos).blocks).sum) := by
  intro n
  induction n with
  | zero =>
    intro r r' cur cur' _ h
    cases h
    exact ⟨fun pos hpos => absurd hpos (by simp [headerPositions]), rfl, rfl⟩
  | succ n ih =>
    intro r r' cur cur' hsize h
    obtain ⟨⟨r₁, cur₁⟩, hround, hrest⟩ := bind_eq_ok h
    obtain ⟨hpassed, hadd, hpos, hcur, -⟩ := readChunk_past hhdr hsize hround
    have hchecked := hpassed.checked
    subst hcur
    obtain ⟨hall, hrun, hlast⟩ := ih ((addRegions_blockSize hadd).trans hsize) hrest
    rw [hpos] at hall hrun hlast
    rw [headerPositions]
    refine ⟨?_, ?_, ?_⟩
    · exact forall_mem_cons.mpr ⟨hchecked, hall⟩
    · rw [regionsAt, addRegions_append, hadd]
      exact hrun
    · rw [hlast, map_cons, sum_cons, add_assoc]

/-! ### Accepted chunks of the format -/

/-- What a checked chunk is as a chunk of the format. -/
structure ParsedAs (file : List UInt8) (hdrSz bs fd pos : ℕ) (c : Chunk) (rest : List UInt8) :
    Prop where
  rest_eq : rest = file.drop (pos + hdrSz + (chunkHeaderAt file pos).payloadSize bs)
  payload : c.payload.length = (chunkHeaderAt file pos).payloadSize bs
  blocks : c.chunkSz = (chunkHeaderAt file pos).blocks
  region : ∀ cur, c.region hdrSz bs fd pos cur = regionAt file hdrSz bs fd pos cur
  raw : ∀ k bytes, c = .raw k bytes → bs ≠ 0
  fill : ∀ k, (∃ v, c = .fill k v) ↔
    (chunkHeaderAt file pos).chunkType = chunkTypeFill ∧ (chunkHeaderAt file pos).chunkSz = k

theorem totalSz_of_dataSize {hdrSz tot p : ℕ} (htot : tot < 2 ^ 32) (hp : hdrSz + p < 2 ^ 32)
    (h : u32 (tot + (2 ^ 32 - hdrSz)) = p) : tot = hdrSz + p := by
  rw [u32] at h
  omega

theorem Checked.parseChunk {pos : ℕ} (h : Checked file hdrSz bs pos)
    (hhdr : hdrSz < 2 ^ 16) (hw : WellFormed file hdrSz bs pos) :
    ∃ c rest, parseChunk hdrSz bs (file.drop pos) = some (c, rest) := by
  have hroom := hw.room
  have htot : (chunkHeaderAt file pos).totalSz < 2 ^ 32 := field_lt _ 8 4
  have hlen : ¬ (file.drop pos).length < hdrSz := by
    rw [length_drop]
    omega
  have hbody : ((file.drop pos).drop hdrSz).length = file.length - (pos + hdrSz) := by
    rw [drop_drop, length_drop]
  have hhd : decode ((file.drop pos).take chunkHeaderLen)
      = chunkHeaderAt file pos := rfl
  simp only [Sparse.parseChunk, hhd]
  rw [if_neg hlen, hbody]
  rcases hw.known with ht | ht | ht
  · obtain ⟨h32, hin⟩ := hw.raw ht
    rw [if_pos ht, if_pos ⟨totalSz_of_dataSize htot h32 (h.raw ht).2, by omega⟩]
    exact ⟨_, _, rfl⟩
  · obtain ⟨hdata, hword⟩ := h.fill ht
    rw [if_neg (by rw [ht]; decide), if_pos ht,
      if_pos ⟨totalSz_of_dataSize htot (by omega) hdata, hword⟩]
    exact ⟨_, _, rfl⟩
  · have htotal : (chunkHeaderAt file pos).totalSz = hdrSz :=
      totalSz_of_dataSize htot (by omega) (h.skip ht)
    rw [if_neg (by rw [ht]; decide), if_neg (by rw [ht]; decide), if_pos ht, if_pos htotal]
    exact ⟨_, _, rfl⟩

theorem Checked.parsedAs {pos : ℕ} (h : Checked file hdrSz bs pos) {c : Chunk} {rest : List UInt8}
    (hparse : Sparse.parseChunk hdrSz bs (file.drop pos) = some (c, rest)) :
    WellFormed file hdrSz bs pos ∧ ParsedAs file hdrSz bs fd pos c rest := by
  obtain ⟨hroom, hd, hhd, htot, hcases⟩ := parseChunk_cases hparse
  change hd = chunkHeaderAt file pos at hhd
  subst hhd
  have hpos : pos ≤ file.length := by
    have := h.room
    norm_num [chunkHeaderLen] at this
    omega
  rw [length_drop] at hroom
  rw [drop_drop, length_drop] at hcases
  rcases hcases with ⟨ht, hs, hlen, rfl, rfl⟩ | ⟨ht, hs, hlen, rfl, rfl⟩ | ⟨ht, hs, rfl, rfl⟩ |
    ⟨ht, -⟩
  · have hsize : (chunkHeaderAt file pos).payloadSize bs
        = (chunkHeaderAt file pos).chunkSz * bs := by
      rw [payloadSize, if_pos ht, u32_of_lt (by omega)]
    refine ⟨⟨by omega, Or.inl ht, fun _ => ⟨by omega, by omega⟩⟩, ?_, ?_, ?_, ?_,
      fun _ _ _ => (h.raw ht).1, ?_⟩
    · rw [hsize, drop_drop]
    · rw [hsize, Chunk.payload, length_take, length_drop, min_eq_left hlen]
    · rw [ChunkHeader.blocks, if_pos (Or.inl ht)]
      rfl
    · intro cur
      rw [regionAt, if_pos ht]
      rfl
    · intro k
      refine ⟨(by rintro ⟨v, hv⟩; cases hv), fun hk => ?_⟩
      rw [ht] at hk
      exact absurd hk.1 (by decide)
  · have hraw : (chunkHeaderAt file pos).chunkType ≠ chunkTypeRaw := by
      rw [ht]
      decide
    have hsize : (chunkHeaderAt file pos).payloadSize bs = 4 := by
      rw [payloadSize, if_neg hraw, if_pos (Or.inl ht)]
    refine ⟨⟨by omega, Or.inr (Or.inl ht), fun h' => absurd h' hraw⟩, ?_, ?_, ?_, ?_,
      fun _ _ hc => (by cases hc), ?_⟩
    · rw [hsize, drop_drop]
    · rw [hsize, Chunk.payload, length_leBytes]
    · rw [ChunkHeader.blocks, if_pos (Or.inr (Or.inl ht))]
      rfl
    · intro cur
      rw [regionAt, if_neg hraw, if_pos ht]
      rfl
    · intro k
      constructor
      · rintro ⟨v, hv⟩
        cases hv
        exact ⟨ht, rfl⟩
      · rintro ⟨-, rfl⟩
        exact ⟨_, rfl⟩
  · have hraw : (chunkHeaderAt file pos).chunkType ≠ chunkTypeRaw := by
      rw [ht]
      decide
    have hfill : (chunkHeaderAt file pos).chunkType ≠ chunkTypeFill := by
      rw [ht]
      decide
    have hsize : (chunkHeaderAt file pos).payloadSize bs = 0 := by
      rw [payloadSize, if_neg hraw, if_neg (not_or.mpr ⟨hfill, h.not_crc32⟩)]
    refine ⟨⟨by omega, Or.inr (Or.inr ht), fun h' => absurd h' hraw⟩, ?_, ?_, ?_, ?_,
      fun _ _ hc => (by cases hc), ?_⟩
    · rw [hsize]
      rfl
    · rw [hsize]
      rfl
    · rw [ChunkHeader.blocks, if_pos (Or.inr (Or.inr ht))]
      rfl
    · intro cur
      rw [regionAt, if_neg hraw, if_neg hfill]
      rfl
    · exact fun k => ⟨(by rintro ⟨v, hv⟩; cases hv), fun hk => absurd hk.1 hfill⟩
  · exact absurd ht h.not_crc32

/-- **Which checked chunks are those of a well-formed stream.** -/
theorem parseChunks_iff_wellFormed (hhdr : hdrSz < 2 ^ 16) : ∀ (n : ℕ) {pos : ℕ},
    (∀ p ∈ headerPositions file hdrSz bs n pos, Checked file hdrSz bs p) →
    ((∃ cs, parseChunks hdrSz bs n (file.drop pos) = some cs) ↔
      ∀ p ∈ headerPositions file hdrSz bs n pos, WellFormed file hdrSz bs p) := by
  intro n
  induction n with
  | zero => exact fun _ => ⟨fun _ p hp => absurd hp (by simp [headerPositions]), fun _ => ⟨[], rfl⟩⟩
  | succ n ih =>
    intro pos hchecked
    rw [headerPositions] at hchecked ⊢
    have hc := hchecked pos mem_cons_self
    have htail := ih fun p hp => hchecked p (mem_cons_of_mem pos hp)
    constructor
    · rintro ⟨cs, hcs⟩ p hp
      obtain ⟨c, rest, cs', hparse, hrest, -⟩ := parseChunks_succ hcs
      obtain ⟨hw, has⟩ : _ ∧ ParsedAs file hdrSz bs 0 pos c rest := hc.parsedAs hparse
      rw [has.rest_eq] at hrest
      rcases mem_cons.mp hp with rfl | hp
      · exact hw
      · exact htail.mp ⟨cs', hrest⟩ p hp
    · intro hw
      obtain ⟨c, rest, hparse⟩ := hc.parseChunk hhdr (hw pos mem_cons_self)
      obtain ⟨-, has⟩ : _ ∧ ParsedAs file hdrSz bs 0 pos c rest := hc.parsedAs hparse
      obtain ⟨cs', hcs'⟩ := htail.mpr fun p hp => hw p (mem_cons_of_mem pos hp)
      rw [← has.rest_eq] at hcs'
      exact ⟨c :: cs', by simp only [parseChunks, hparse, hcs', bind, Option.bind]⟩

/-- The regions, sizes and fills of an accepted stream are those of its chunks. -/
theorem parseChunks_regionsAt : ∀ (n : ℕ) {pos cur : ℕ} {cs : List Chunk},
    (∀ p ∈ headerPositions file hdrSz bs n pos, Checked file hdrSz bs p) →
    parseChunks hdrSz bs n (file.drop pos) = some cs →
    chunkRegions hdrSz bs fd pos cur cs
        = regionsAt file hdrSz bs fd cur (headerPositions file hdrSz bs n pos) ∧
      totalSz cs = ((headerPositions file hdrSz bs n pos).map
        fun p => (chunkHeaderAt file p).blocks).sum ∧
      (∀ c ∈ cs, ∀ k bytes, c = .raw k bytes → bs ≠ 0) ∧
      ∀ k, (∃ v, Chunk.fill k v ∈ cs) ↔ ∃ p ∈ headerPositions file hdrSz bs n pos,
        (chunkHeaderAt file p).chunkType = chunkTypeFill ∧ (chunkHeaderAt file p).chunkSz = k := by
  intro n
  induction n with
  | zero =>
    intro pos cur cs _ h
    cases h
    exact ⟨rfl, rfl, fun c hc => absurd hc (by simp), fun k => by simp [headerPositions]⟩
  | succ n ih =>
    intro pos cur cs hchecked hcs
    rw [headerPositions] at hchecked ⊢
    have hc := hchecked pos mem_cons_self
    obtain ⟨c, rest, cs', hparse, hrest, rfl⟩ := parseChunks_succ hcs
    obtain ⟨-, has⟩ : _ ∧ ParsedAs file hdrSz bs fd pos c rest := hc.parsedAs hparse
    rw [has.rest_eq] at hrest
    obtain ⟨hregions, htotal, hraw, hfill⟩ :
        chunkRegions hdrSz bs fd _ (cur + (chunkHeaderAt file pos).blocks) cs' = _ ∧ _ ∧ _ :=
      ih (fun p hp => hchecked p (mem_cons_of_mem pos hp)) hrest
    refine ⟨?_, ?_, ?_, ?_⟩
    · rw [chunkRegions, regionsAt, has.region, has.payload, has.blocks, hregions]
    · rw [map_cons, sum_cons, ← htotal, ← has.blocks]
      rfl
    · intro c' hc'
      rcases mem_cons.mp hc' with rfl | hc'
      · exact has.raw
      · exact hraw c' hc'
    · intro k
      simp only [mem_cons, exists_or, exists_eq_or_imp, hfill k]
      refine or_congr ?_ Iff.rfl
      rw [← has.fill k]
      exact exists_congr fun v => eq_comm

end

/-! ### Additions that are accepted -/

variable {bs : ℕ} {rs : List Region}

/-- Additions behind the regions `fin` and `z`, at block numbers that do not
decrease: if they go through, the block numbers increase. -/
theorem addRegions_ok_behind (hbs : 0 < bs) : ∀ (todo fin : List Region) (z : Region)
    (bbl bbl' : BackedBlockList), bbl.blockSize = bs → bbl.CacheLive →
    bbl.dataBlocks.map BackedBlock.region = fin ++ [z] →
    (fin ++ [z]).Pairwise (fun a b => a.block < b.block) →
    (fin ++ z :: todo).Pairwise (fun a b => a.block ≤ b.block) →
    addRegions bbl todo = .ok bbl' →
    (fin ++ z :: todo).Pairwise (fun a b => a.block < b.block) := by
  intro todo
  induction todo with
  | nil => exact fun fin z bbl bbl' _ _ _ hinc _ _ => hinc
  | cons b rest ih =>
    intro fin z bbl bbl' hsize hlive hl hinc hle hrun
    have hle₁ : ((fin ++ [z]) ++ b :: rest).Pairwise fun a b => a.block ≤ b.block := by
      simpa using hle
    obtain ⟨-, hbrest, hcross⟩ := pairwise_append.mp hle₁
    obtain ⟨bbl₁, hadd, hrun⟩ := bind_eq_ok hrun
    -- a block number that is taken fails the assertion of `merge_bb`
    have hlt : ∀ r ∈ fin ++ [z], r.block < b.block := by
      intro r hr
      by_contra hge
      have heq : r.block = b.block := le_antisymm (hcross r hr b mem_cons_self) (not_lt.mp hge)
      obtain ⟨c, hc, rfl⟩ := mem_map.mp (hl ▸ hr)
      have hsorted : Increasing bbl.dataBlocks := by
        rw [← hl, pairwise_map] at hinc
        exact hinc
      have hbad : ¬ bbl.AddSafe (b.node bbl.freshAddr).block := by
        intro hsafe
        cases hd : bbl.dataBlocks with
        | nil =>
          rw [hd] at hc
          exact absurd hc (by simp)
        | cons head tail =>
          have hhead : head.region ∈ fin ++ [z] := by
            rw [← hl, hd]
            exact mem_cons_self
          exact (hsafe head (by rw [hd]; rfl) (hcross _ hhead b mem_cons_self)).2.2 c hc heq
      obtain ⟨f, hf⟩ := queueBb_fault hsorted (fun h0 => absurd h0 (by omega)) hbad
      rw [b.addTo_eq, hf] at hadd
      cases hadd
    obtain ⟨bbl₂, hadd₂, hsize₂, hjoin, hkeep⟩ := addTo_behind hbs hsize hlive hl hlt
    rw [hadd] at hadd₂
    cases hadd₂
    have hinc₁ : ((fin ++ [z]) ++ [b]).Pairwise fun a b => a.block < b.block :=
      pairwise_append.mpr ⟨hinc, pairwise_singleton _ _,
        fun r hr c hc => mem_singleton.mp hc ▸ hlt r hr⟩
    by_cases hj : z.Joins bs b
    · obtain ⟨hmap, hstale⟩ := hjoin hj
      cases rest with
      | nil => simpa using hinc₁
      | cons c rest =>
        have hbc : b.block ≤ c.block := (pairwise_cons.mp hbrest).1 c mem_cons_self
        obtain ⟨bbl₂, hadd₂, -⟩ := bind_eq_ok hrun
        rw [addTo_stale hmap hstale (join_le hlt hbc)] at hadd₂
        cases hadd₂
    · obtain ⟨hmap, hlive₁⟩ := hkeep hj
      have := ih (fin ++ [z]) b bbl₁ bbl' hsize₂ hlive₁ hmap hinc₁ hle₁ hrun
      simpa using this

/-- Additions to an empty list at block numbers that do not decrease. -/
theorem addRegions_ok_increasing (hbs : 0 < bs) (hbs32 : bs < 2 ^ 32)
    (hle : rs.Pairwise fun a b => a.block ≤ b.block) {bbl : BackedBlockList}
    (h : addRegions (backedBlockListNew bs) rs = .ok bbl) :
    rs.Pairwise fun a b => a.block < b.block := by
  cases rs with
  | nil => exact List.Pairwise.nil
  | cons a rest =>
    obtain ⟨bbl₁, hadd, hrun⟩ := bind_eq_ok h
    rw [a.addTo_eq] at hadd
    cases hadd
    have hlive : ({ backedBlockListNew bs with
        dataBlocks := [a.node (backedBlockListNew bs).freshAddr] } : BackedBlockList).CacheLive :=
      fun x hx => absurd hx (by simp [backedBlockListNew])
    exact addRegions_ok_behind hbs rest [] a _ bbl (u32_of_lt hbs32) hlive rfl
      (pairwise_singleton _ _) hle hrun

/-! ### The image of what is accepted -/

theorem chunkRegions_append (hdrSz bs fd : ℕ) : ∀ (cs cs' : List Chunk) (pos cur : ℕ),
    ∃ pos', chunkRegions hdrSz bs fd pos cur (cs ++ cs')
      = chunkRegions hdrSz bs fd pos cur cs
        ++ chunkRegions hdrSz bs fd pos' (cur + totalSz cs) cs' := by
  intro cs cs'
  induction cs with
  | nil => exact fun pos cur => ⟨pos, rfl⟩
  | cons c cs ih =>
    intro pos cur
    obtain ⟨pos', h⟩ := ih (pos + hdrSz + c.payload.length) (cur + c.chunkSz)
    refine ⟨pos', ?_⟩
    have htot : totalSz (c :: cs) = c.chunkSz + totalSz cs := rfl
    rw [cons_append, chunkRegions, chunkRegions, h, append_assoc, htot, ← add_assoc cur]

/-- A merge covers no block that its regions do not cover. -/
theorem settle_covers (hbs : 0 < bs) : ∀ {rs : List Region},
    rs.Pairwise (fun a b => a.block + numBlocks bs a.len ≤ b.block) → ∀ m ∈ settle bs rs, ∀ x,
    m.Covers bs x → ∃ r ∈ rs, r.Covers bs x := by
  intro rs
  induction rs using settle.induct bs with
  | case1 => exact fun _ m hm => absurd hm (by simp [settle])
  | case2 a => exact fun _ m hm x hx => ⟨m, by simpa [settle] using hm, hx⟩
  | case3 a b hj =>
    intro hord m hm x hx
    have hab := (pairwise_cons.mp hord).1 b mem_cons_self
    obtain ⟨⟨q, hq⟩, hadj⟩ := hj.adjacent hbs hab
    rw [settle, if_pos hj, mem_singleton] at hm
    subst hm
    have hdiv : a.len / bs = q := by rw [hq, Nat.mul_div_cancel_left _ hbs]
    have hwrap : numBlocks bs (u32 (a.len + b.len)) ≤ q + numBlocks bs b.len := by
      rw [← numBlocks_add hbs, ← mul_comm bs q, ← hq]
      exact numBlocks_mono (u32_le _)
    have hx' : x < a.block + numBlocks bs (u32 (a.len + b.len)) := hx.2
    by_cases hxa : x < b.block
    · refine ⟨a, mem_cons_self, hx.1, ?_⟩
      rw [hq, mul_comm, numBlocks_mul hbs]
      omega
    · exact ⟨b, by simp, not_lt.mp hxa, by omega⟩
  | case4 a b hj =>
    intro hord m hm x hx
    rw [settle, if_neg hj] at hm
    exact ⟨m, hm, hx⟩
  | case5 a b c rest ih =>
    intro hord m hm x hx
    rw [settle] at hm
    rcases mem_cons.mp hm with rfl | hm
    · exact ⟨m, mem_cons_self, hx⟩
    · obtain ⟨r, hr, hrx⟩ := ih (pairwise_cons.mp hord).2 m hm x hx
      exact ⟨r, mem_cons_of_mem a hr, hrx⟩

/-- What regions in order denote, where one of them covers the block. -/
theorem lookup_region_of_mem (env : Env)
    (hord : rs.Pairwise fun a b => a.block + numBlocks bs a.len ≤ b.block) {r : Region}
    (hr : r ∈ rs) {x : ℕ} (hx : r.Covers bs x) :
    (blockMap env bs).lookup (rs.map (·.node 0)) x
      = some (r.backing.content env bs r.len (x - r.block)) := by
  have hapart : (rs.map (·.node 0)).Pairwise (blockMap env bs).Apart :=
    pairwise_map.mpr (hord.imp fun h => Or.inl h)
  exact (blockMap env bs).lookup_eq_of_mem hapart (mem_map_of_mem hr) hx

theorem lookup_region_eq_none (env : Env) {x : ℕ} (h : ∀ r ∈ rs, ¬ r.Covers bs x) :
    (blockMap env bs).lookup (rs.map (·.node 0)) x = none := by
  refine (blockMap env bs).lookup_eq_none fun m hm => ?_
  obtain ⟨r, hr, rfl⟩ := mem_map.mp hm
  exact h r hr

theorem Backing.content_ne_dontCare (env : Env) (bs len : ℕ) (backing : Backing) (j : ℕ) :
    backing.content env bs len j ≠ .dontCare := by
  cases backing <;> simp [Backing.content]

section

variable {file : List UInt8} {fd hdrSz bs : ℕ}

/-- A fill of `2 ^ 32` bytes or more: its last block is not covered. -/
theorem not_covers_long_fill (hbs : 0 < bs) (hbs32 : bs < 2 ^ 32) {pre post : List Chunk} {k : ℕ}
    {v : UInt32} {pos : ℕ} (htotal : totalSz (pre ++ Chunk.fill k v :: post) < 2 ^ 32)
    (hk : 2 ^ 32 ≤ k * bs) :
    ∀ r ∈ chunkRegions hdrSz bs fd pos 0 (pre ++ Chunk.fill k v :: post),
      ¬ r.Covers bs (totalSz pre + (k - 1)) := by
  have htot : totalSz (pre ++ Chunk.fill k v :: post) = totalSz pre + (k + totalSz post) := by
    rw [totalSz_append]
    rfl
  have hkpos : 0 < k := by
    by_contra h0
    rw [Nat.eq_zero_of_not_pos h0, Nat.zero_mul] at hk
    omega
  intro r hr hcov
  obtain ⟨pos', heq⟩ := chunkRegions_append hdrSz bs fd pre (Chunk.fill k v :: post) pos 0
  rw [heq, chunkRegions, zero_add, mem_append, mem_append] at hr
  rcases hr with hr | hr | hr
  · have hle := (chunkRegions_bounds hbs (by omega) r hr).2
    have := hcov.2
    omega
  · rw [Chunk.region, toList_some, mem_singleton] at hr
    subst hr
    have hlt : totalSz pre + (k - 1) < u32 (totalSz pre) + numBlocks bs (u32 (k * bs)) := hcov.2
    rw [u32_of_lt (by omega)] at hlt
    have hcovered : (k - 1) * bs < u32 (k * bs) := (lt_numBlocks_iff hbs).mp (by omega)
    have hmul : k * bs = (k - 1) * bs + bs := by
      rw [← Nat.succ_mul]
      congr 1
      omega
    rw [u32] at hcovered
    omega
  · have hge := (chunkRegions_bounds hbs (by show _ + k + _ < _; omega) r hr).1
    have := hcov.1
    have hsz : (Chunk.fill k v).chunkSz = k := rfl
    omega

/-- **The list that is left denotes what the chunks describe** exactly if no fill and
no merge is of `2 ^ 32` bytes or more. -/
theorem image_eq_chunksImage_iff {env : Env} (henv : ∀ i, env.fd fd i = file.getD i 0)
    (hbs : 0 < bs) (hbs32 : bs < 2 ^ 32) {n pos : ℕ} {cs : List Chunk}
    (hparse : parseChunks hdrSz bs n (file.drop pos) = some cs) (htotal : totalSz cs < 2 ^ 32)
    {l : List BackedBlock}
    (hl : l.map BackedBlock.region = settle bs (chunkRegions hdrSz bs fd pos 0 cs)) :
    image env bs l = chunksImage bs cs ↔ (∀ k, (∃ v, Chunk.fill k v ∈ cs) → k * bs < 2 ^ 32) ∧
      ∀ pre a b, chunkRegions hdrSz bs fd pos 0 cs = pre ++ [a, b] → a.Joins bs b →
        a.len + b.len < 2 ^ 32 := by
  have hord : (chunkRegions hdrSz bs fd pos 0 cs).Pairwise
      fun a b => a.block + numBlocks bs a.len ≤ b.block := chunkRegions_ordered hbs (by omega)
  have himage : ∀ x, image env bs l x = ((blockMap env bs).lookup
      ((settle bs (chunkRegions hdrSz bs fd pos 0 cs)).map (·.node 0)) x).getD .dontCare := by
    intro x
    rw [image, lookup_region, hl]
  constructor
  · intro heq
    have hfill : ∀ k, (∃ v, Chunk.fill k v ∈ cs) → k * bs < 2 ^ 32 := by
      rintro k ⟨v, hv⟩
      by_contra hk
      obtain ⟨pre, post, rfl⟩ := append_of_mem hv
      have hkpos : 0 < k := by
        by_contra h0
        rw [Nat.eq_zero_of_not_pos h0, Nat.zero_mul] at hk
        omega
      have hx := congrFun heq (totalSz pre + (k - 1))
      rw [chunksImage_append, if_neg (by omega), Nat.add_sub_cancel_left, chunksImage,
        if_pos (show k - 1 < (Chunk.fill k v).chunkSz from Nat.sub_one_lt_of_lt hkpos), himage,
        lookup_region_eq_none env] at hx
      · cases hx
      · intro m hm hcov
        obtain ⟨r, hr, hrx⟩ := settle_covers hbs hord m hm _ hcov
        exact not_covers_long_fill hbs hbs32 htotal (not_lt.mp hk) r hr hrx
    refine ⟨hfill, fun pre a b hab hj => ?_⟩
    by_contra hwrap
    have halt := a.len_lt
    have hblt := b.len_lt
    rw [hab] at hord
    obtain ⟨-, hlast, hcross⟩ := pairwise_append.mp hord
    obtain ⟨⟨q, hq⟩, hadj⟩ := hj.adjacent hbs
      ((pairwise_cons.mp hlast).1 b mem_cons_self)
    have hdiv : a.len / bs = q := by rw [hq, Nat.mul_div_cancel_left _ hbs]
    have hnb := numBlocks_pos hbs (by omega : 0 < b.len)
    -- the last block of `b`
    obtain ⟨y, hy⟩ : ∃ y, y = b.block + (numBlocks bs b.len - 1) := ⟨_, rfl⟩
    have hby : b.Covers bs y := ⟨by omega, by omega⟩
    have hdesc := image_chunkRegions henv hbs hparse (fun k v hv => hfill k ⟨v, hv⟩)
      (by omega : 0 + totalSz cs < 2 ^ 32) y
    rw [hab, zero_add, lookup_region_of_mem env hord (by simp) hby, getD_some, ← heq,
      himage, hab, settle_append, settle, if_pos hj, lookup_region_eq_none env] at hdesc
    · exact Backing.content_ne_dontCare env bs _ _ _ hdesc
    · intro m hm hcov
      rcases mem_append.mp hm with hm | hm
      · have h1 := hcross m hm b (by simp)
        have h2 := hcov.2
        omega
      · rw [mem_singleton.mp hm] at hcov
        have h2 : y < a.block + numBlocks bs (u32 (a.len + b.len)) := hcov.2
        have h3 : (q + (numBlocks bs b.len - 1)) * bs < u32 (a.len + b.len) :=
          (lt_numBlocks_iff hbs).mp (by omega)
        rw [Nat.add_mul, mul_comm q bs, ← hq, u32] at h3
        omega
  · rintro ⟨hfill, hmerge⟩
    funext x
    rw [himage, lookup_settle env hbs hord hmerge]
    have := image_chunkRegions henv hbs hparse (fun k v hv => hfill k ⟨v, hv⟩)
      (by omega : 0 + totalSz cs < 2 ^ 32) x
    rwa [zero_add] at this

theorem image_blockSize_zero (env : Env) (l : List BackedBlock) (x : ℕ) :
    image env 0 l x = .dontCare := by
  rw [image, IntervalMap.lookup_eq_none]
  · rfl
  · rintro bb - ⟨h1, h2⟩
    have h1' : bb.block ≤ x := h1
    have h2' : x < bb.block + (bb.len + 0 - 1) / 0 := h2
    rw [Nat.div_zero] at h2'
    omega

/-- With a block size of zero the chunks describe nothing, exactly if there is no raw
chunk and no fill of a block or more. -/
theorem chunksImage_blockSize_zero {cs : List Chunk}
    (hraw : ∀ c ∈ cs, ∀ k bytes, c ≠ .raw k bytes) :
    (∀ x, chunksImage 0 cs x = .dontCare) ↔ ∀ k, (∃ v, Chunk.fill k v ∈ cs) → k = 0 := by
  induction cs with
  | nil => exact ⟨fun _ => by simp, fun _ x => rfl⟩
  | cons c cs ih =>
    have ih' := ih fun c' hc' => hraw c' (mem_cons_of_mem c hc')
    have hcontent : ∀ j, (∀ k v, c ≠ .fill k v) → c.content 0 j = .dontCare := by
      intro j hfill
      cases c with
      | raw k bytes => exact absurd rfl (hraw _ mem_cons_self k bytes)
      | fill k v => exact absurd rfl (hfill k v)
      | dontCare k => rfl
      | crc32 v => rfl
    constructor
    · rintro h k ⟨v, hv⟩
      rcases mem_cons.mp hv with rfl | hv
      · by_contra hk
        have h0 := h 0
        rw [chunksImage,
          if_pos (show 0 < (Chunk.fill k v).chunkSz from Nat.pos_of_ne_zero hk)] at h0
        cases h0
      · refine ih'.mp (fun x => ?_) k ⟨v, hv⟩
        have hx := h (c.chunkSz + x)
        rwa [chunksImage, if_neg (by omega), Nat.add_sub_cancel_left] at hx
    · intro h x
      rw [chunksImage]
      by_cases hx : x < c.chunkSz
      · rw [if_pos hx]
        refine hcontent x fun k v hc => ?_
        have hk := h k ⟨v, by rw [hc]; exact mem_cons_self⟩
        rw [hc, hk] at hx
        exact absurd hx (Nat.not_lt_zero x)
      · rw [if_neg hx]
        exact ih'.mpr (fun k hk => h k (hk.imp fun v => mem_cons_of_mem c)) _

end

/-! ### The import -/

variable {file : List UInt8} {fd : ℕ}

theorem sparseFileImport_eq_some {s : SparseFile}
    (h : sparseFileImport file fd false = .ok (some s)) :
    ∃ hd r, readSparseHeader file = .ok hd ∧ s = r.s ∧
      readChunks file fd false hd.chunkHdrSz hd.totalChunks 0 hd.start = .ok (r, hd.totalBlks) := by
  cases hread : readSparseHeader file with
  | error e => cases e <;> simp [sparseFileImport, hread] at h
  | ok hd =>
    rw [sparseFileImport_of_header hread] at h
    rcases hrun : readChunks file fd false hd.chunkHdrSz hd.totalChunks 0 hd.start with
      (f | n) | ⟨r, cur⟩
    · simp [hrun, finishImport] at h
    · simp [hrun, finishImport] at h
    · rw [hrun, finishImport] at h
      split at h
      · cases h
      · rename_i hblks
        cases h
        exact ⟨hd, r, rfl, rfl, by rw [not_not.mp hblks, hrun]⟩

theorem regionsAt_blockSize_zero {hdrSz : ℕ} : ∀ {ps : List ℕ} {cur : ℕ},
    ∀ r ∈ regionsAt file hdrSz 0 fd cur ps, r.len = 0 := by
  intro ps
  induction ps with
  | nil => exact fun r hr => absurd hr (by simp [regionsAt])
  | cons pos ps ih =>
    intro cur r hr
    rw [regionsAt, mem_append] at hr
    rcases hr with hr | hr
    · rw [regionAt] at hr
      split_ifs at hr
      · rw [mem_singleton.mp hr]
        rfl
      · rw [mem_singleton.mp hr]
        rfl
      · exact absurd hr (by simp)
    · exact ih r hr

/-- The image of an accepted stream that parses. -/
theorem accepted_image_iff {env : Env} {hdrSz bs n pos : ℕ}
    (henv : ∀ i, env.fd fd i = file.getD i 0) (hbs32 : bs < 2 ^ 32)
    (hchecked : ∀ p ∈ headerPositions file hdrSz bs n pos, Checked file hdrSz bs p)
    {bbl : BackedBlockList} (hadd : addRegions (backedBlockListNew bs)
      (regionsAt file hdrSz bs fd 0 (headerPositions file hdrSz bs n pos)) = .ok bbl)
    {cs : List Chunk} (hcs : parseChunks hdrSz bs n (file.drop pos) = some cs)
    (htot32 : totalSz cs < 2 ^ 32) :
    image env bs bbl.dataBlocks = chunksImage bs cs ↔
      (∀ p ∈ headerPositions file hdrSz bs n pos,
        (chunkHeaderAt file p).chunkType = chunkTypeFill →
          (chunkHeaderAt file p).chunkSz * bs < 2 ^ 32 ∧
            (bs = 0 → (chunkHeaderAt file p).chunkSz = 0)) ∧
      ∀ pre a b, regionsAt file hdrSz bs fd 0 (headerPositions file hdrSz bs n pos)
        = pre ++ [a, b] → a.Joins bs b → a.len + b.len < 2 ^ 32 := by
  obtain ⟨hregions, -, hraw, hfill⟩ : chunkRegions hdrSz bs fd pos 0 cs = _ ∧ _ ∧ _ :=
    parseChunks_regionsAt n hchecked hcs
  have hfill' : ∀ P : ℕ → Prop, (∀ k, (∃ v, Chunk.fill k v ∈ cs) → P k) ↔
      ∀ p ∈ headerPositions file hdrSz bs n pos,
        (chunkHeaderAt file p).chunkType = chunkTypeFill → P (chunkHeaderAt file p).chunkSz := by
    intro P
    refine ⟨fun h p hp ht => h _ ((hfill _).mpr ⟨p, hp, ht, rfl⟩), fun h k hk => ?_⟩
    obtain ⟨p, hp, ht, rfl⟩ := (hfill k).mp hk
    exact h p hp ht
  rcases Nat.eq_zero_or_pos bs with rfl | hbs
  · have hzero := chunksImage_blockSize_zero fun c hc k bytes heq => hraw c hc k bytes heq rfl
    rw [hfill'] at hzero
    constructor
    · intro heq
      have hall := hzero.mp fun x => by rw [← heq, image_blockSize_zero]
      refine ⟨fun p hp ht => ⟨by norm_num, fun _ => hall p hp ht⟩, fun pre a b hab _ => ?_⟩
      have ha := regionsAt_blockSize_zero a (by rw [hab]; simp)
      have hb := regionsAt_blockSize_zero b (by rw [hab]; simp)
      rw [ha, hb]
      norm_num
    · rintro ⟨hall, -⟩
      funext x
      rw [image_blockSize_zero]
      exact (hzero.mpr (fun p hp ht => (hall p hp ht).2 rfl) x).symm
  · have hord : (chunkRegions hdrSz bs fd pos 0 cs).Pairwise
        fun a b => a.block + numBlocks bs a.len ≤ b.block := chunkRegions_ordered hbs (by omega)
    rw [hregions] at hord
    have hinc := addRegions_ok_increasing hbs hbs32
      (hord.imp fun h => (Nat.le_add_right _ _).trans h) hadd
    obtain ⟨hfine, hstale⟩ := addRegions_increasing hbs hbs32 hinc
    obtain ⟨bbl', hbbl, -, hl⟩ := hfine fun hs => by rw [hstale hs] at hadd; cases hadd
    rw [hadd] at hbbl
    cases hbbl
    rw [← hregions] at hl
    refine (image_eq_chunksImage_iff henv hbs hbs32 hcs htot32 hl).trans ?_
    rw [hfill', hregions]
    refine and_congr_left fun _ => forall₂_congr fun p hp => ?_
    exact ⟨fun h ht => ⟨h ht, fun h0 => absurd h0 hbs.ne'⟩, fun h ht => (h ht).1⟩

/-- **What an accepted stream is.**  The importer, without a checksum, has accepted
the file.  The file is a well-formed stream and the block list denotes its image
exactly if every chunk it came by is complete and of a known type, with raw data that
is there and of a size that does not wrap; the chunk sizes add up without wrapping; no
fill is of `2 ^ 32` bytes or more, or of blocks of no bytes; and the two regions added
last, if they are merged, are not of `2 ^ 32` bytes or more together. -/
theorem sparseFileImport_exact_iff {env : Env} {file : List UInt8} {fd : ℕ}
    (henv : ∀ i, env.fd fd i = file.getD i 0) {s : SparseFile}
    (haccept : sparseFileImport file fd false = .ok (some s)) {hd : SparseHeader}
    (hhd : hd = SparseHeader.decode (file.take sparseHeaderLen)) {ps : List ℕ}
    (hps : ps = headerPositions file hd.chunkHdrSz hd.blkSz hd.totalChunks hd.fileHdrSz) :
    (∃ cs, parseStream file = some (hd, cs) ∧
        image env s.blockSize s.blocks = chunksImage hd.blkSz cs) ↔
      (∀ pos ∈ ps, WellFormed file hd.chunkHdrSz hd.blkSz pos) ∧
      (ps.map fun pos => (chunkHeaderAt file pos).blocks).sum < 2 ^ 32 ∧
      (∀ pos ∈ ps, (chunkHeaderAt file pos).chunkType = chunkTypeFill →
        (chunkHeaderAt file pos).chunkSz * hd.blkSz < 2 ^ 32 ∧
          (hd.blkSz = 0 → (chunkHeaderAt file pos).chunkSz = 0)) ∧
      ∀ pre a b, regionsAt file hd.chunkHdrSz hd.blkSz fd 0 ps = pre ++ [a, b] →
        a.Joins hd.blkSz b → a.len + b.len < 2 ^ 32 := by
  obtain ⟨hd', r, hread, rfl, hrun⟩ := sparseFileImport_eq_some haccept
  obtain ⟨-, hdec, -, -, -, hhdr⟩ := readSparseHeader_eq_ok.mp hread
  obtain rfl : hd' = hd := hdec.trans hhd.symm
  subst hps
  have hbs32 : hd'.blkSz < 2 ^ 32 := by
    rw [hhd]
    exact field_lt _ 12 4
  have hblks32 : hd'.totalBlks < 2 ^ 32 := by
    rw [hhd]
    exact field_lt _ 16 4
  have hhdr16 : hd'.chunkHdrSz < 2 ^ 16 := by
    rw [hhd]
    exact field_lt _ 10 2
  have hsize : hd'.start.s.blockSize = hd'.blkSz := u32_of_lt hbs32
  have hrun₀ : readChunks file fd false hd'.chunkHdrSz hd'.totalChunks (u32 0) hd'.start
      = .ok (r, hd'.totalBlks) := hrun
  obtain ⟨hchecked, hadd, hlast⟩ := readChunks_accepted hhdr hd'.totalChunks hsize hrun₀
  rw [zero_add] at hlast
  have hparse := parseChunks_iff_wellFormed hhdr16 hd'.totalChunks hchecked
  have hsize' : r.s.blockSize = hd'.blkSz := (addRegions_blockSize hadd).trans hsize
  have htotal : ∀ cs, parseChunks hd'.chunkHdrSz hd'.blkSz hd'.totalChunks
      (file.drop hd'.fileHdrSz) = some cs → totalSz cs = _ := fun cs hcs =>
    (show chunkRegions hd'.chunkHdrSz hd'.blkSz fd hd'.fileHdrSz 0 cs = _ ∧ _ from
      parseChunks_regionsAt hd'.totalChunks hchecked hcs).2.1
  rw [hsize']
  constructor
  · rintro ⟨cs, hstream, heq⟩
    obtain ⟨-, hcs, hblks⟩ := parseStream_eq_some.mp hstream
    obtain ⟨hfill, hmerge⟩ :=
      (accepted_image_iff henv hbs32 hchecked hadd hcs (by omega)).mp heq
    refine ⟨hparse.mp ⟨cs, hcs⟩, ?_, hfill, hmerge⟩
    rw [← htotal cs hcs]
    omega
  · rintro ⟨hwf, hsum, hfill, hmerge⟩
    obtain ⟨cs, hcs⟩ := hparse.mpr hwf
    have hcount : totalSz cs = hd'.totalBlks := by
      rw [hlast, htotal cs hcs]
      exact (u32_of_lt hsum).symm
    exact ⟨cs, parseStream_eq_some.mpr ⟨hread, hcs, hcount⟩,
      (accepted_image_iff henv hbs32 hchecked hadd hcs (by omega)).mpr ⟨hfill, hmerge⟩⟩

/-- A stream of a raw block, a fill and a block that is skipped. -/
theorem sparseFileImport_exact_three : ∃ file s cs,
    sparseFileImport file 5 false = .ok (some s) ∧
    parseStream file = some (sparseHeader 4 12 3 false, cs) ∧
    image (Env.zero.withFd 5 file) s.blockSize s.blocks = chunksImage 4 cs := by
  obtain ⟨file, hfile⟩ : ∃ file, file = (sparseHeader 4 12 3 false).encode
    ++ [Chunk.raw 1 [1, 2, 3, 4], .fill 1 7, .dontCare 1].flatMap Chunk.encode := ⟨_, rfl⟩
  have haccept : ∃ s, sparseFileImport file 5 false = .ok (some s) := by
    subst hfile
    exact ⟨_, rfl⟩
  obtain ⟨s, hs⟩ := haccept
  have hhd : sparseHeader 4 12 3 false = SparseHeader.decode (file.take sparseHeaderLen) := by
    subst hfile
    rfl
  have hshort : ∀ r ∈ regionsAt file 12 4 5 0 (headerPositions file 12 4 3 28), r.len < 2 ^ 31 := by
    subst hfile
    decide +kernel
  have hiff := sparseFileImport_exact_iff (Env.zero.withFd_fd 5 file) hs hhd rfl
  obtain ⟨cs, hcs⟩ := hiff.mpr ⟨by subst hfile; decide +kernel, by subst hfile; decide +kernel,
    by subst hfile; decide +kernel, fun pre a b hab _ => by
      have ha := hshort a (hab ▸ by simp)
      have hb := hshort b (hab ▸ by simp)
      omega⟩
  exact ⟨file, s, cs, hs, hcs⟩

/-- A chunk of an unknown type is accepted, and so is a fill of `2 ^ 32` bytes, which
leaves no block filled. -/
theorem sparseFileImport_not_exact :
    (∃ s, sparseFileImport ((sparseHeader 4 0 1 false).encode ++ List.replicate 12 0) 5 false
        = .ok (some s) ∧
      parseStream ((sparseHeader 4 0 1 false).encode ++ List.replicate 12 0) = none) ∧
    ∃ file s hd cs, sparseFileImport file 5 false = .ok (some s) ∧
      parseStream file = some (hd, cs) ∧
      image (Env.zero.withFd 5 file) s.blockSize s.blocks 0 = .dontCare ∧
      chunksImage hd.blkSz cs 0 = .fill 7 := by
  refine ⟨⟨_, rfl, by decide +kernel⟩, (sparseHeader 4096 (2 ^ 32) 1 false).encode
    ++ (Chunk.fill (2 ^ 20) 7).encode, ⟨2 ^ 32, ⟨[⟨1, 0, 0, .fill 7, by decide, by decide⟩], none,
      4096, by decide⟩⟩, sparseHeader 4096 (2 ^ 32) 1 false, [.fill (2 ^ 20) 7], ?_⟩
  decide +kernel

end Sparse
