/-
The two checksums of libsparse.

The writer continues its checksum over the data it writes and over one block of
every fill; skips are left out.  The reader continues its own over everything the
chunks describe, don't-care blocks as zeros.  The importer accepts the stream of a
regular sparse file exactly if the two agree:

* `sparseFileImport_stream_crc` — the import with a checksum;
* `covered_spec` — the writer covers the expanded image if there are no gaps and
  every fill is one block long, and fewer bytes otherwise;
* `crcRoundTrips_covers` — hence any other file is refused, unless byte strings of
  different lengths happen to have the same checksum.
-/
import AndroidSystem.RoundTrip

open CInt List

namespace Sparse

/-! ### The reader -/

section

variable {file : List UInt8} {fd hdrSz bs : ℕ}

theorem readChunks_add (crc : Bool) : ∀ (n m cur : ℕ) (r : Reader),
    readChunks file fd crc hdrSz (n + m) cur r = (do
      let (r, cur) ← readChunks file fd crc hdrSz n cur r
      readChunks file fd crc hdrSz m cur r) := by
  intro n m
  induction n with
  | zero =>
    intro cur r
    rw [zero_add]
    rfl
  | succ n ih =>
    intro cur r
    rw [Nat.succ_add, readChunks, readChunks]
    cases readChunk file fd crc hdrSz cur r with
    | error e => rfl
    | ok p => exact ih p.2 p.1

/-- One round on a checksum chunk. -/
theorem readChunk_crc32 (hhdr : chunkHeaderLen ≤ hdrSz) {r : Reader} {cur : ℕ} {v : UInt32}
    {rest : List UInt8} (hparse : parseChunk hdrSz bs (file.drop r.pos) = some (.crc32 v, rest)) :
    readChunk file fd true hdrSz cur r
      = if v ≠ r.crc32 then .error (.ret einval)
        else .ok ({ r with pos := r.pos + hdrSz + 4 }, u32 cur) := by
  obtain ⟨hroom, hd, hhd, htot32, hcases⟩ := parseChunk_cases hparse
  rw [readChunk_eq hhdr hroom hhd]
  rw [drop_drop] at hcases
  rcases hcases with ⟨-, -, -, h, -⟩ | ⟨-, -, -, h, -⟩ | ⟨-, -, h, -⟩ | ⟨ht, hs, hlen, h, -⟩
  · cases h
  · cases h
  · cases h
  · cases h
    rw [chunkRound, processChunk, if_neg (by rw [ht]; decide), if_neg (by rw [ht]; decide),
      if_neg (by rw [ht]; decide), if_pos ht, if_pos rfl, chunkDataSize_eq hs htot32,
      processCrc32Chunk, if_neg (by simp)]
    simp only [readAll_drop hlen, bind, Except.bind]
    by_cases hv : UInt32.ofNat (leNat ((file.drop (r.pos + hdrSz)).take 4)) = r.crc32
    · rw [if_neg (not_not.mpr hv), if_neg (not_not.mpr hv)]
      rfl
    · rw [if_pos hv, if_pos hv]

end

section

variable {s : SparseFile} {len : ℕ}

/-- The stream with a checksum. -/
theorem stream_true (env : Env) (s : SparseFile) (len : ℕ) :
    s.stream env len true = (sparseHeader s.blockSize len
        (announcedChunks env s.blockSize len s.blocks) true).encode
      ++ ((chunksOf env s.blockSize len s.blocks).flatMap Chunk.encode
        ++ (Chunk.crc32 (sparseCrc32 0
          (s.blocks.flatMap (BackedBlock.covered env s.blockSize)))).encode) := by
  rw [SparseFile.stream, if_pos rfl, append_assoc]

/-- The encoded chunks take as many bytes as the reader steps over. -/
theorem length_flatMap_encode (cs : List Chunk) :
    (cs.flatMap Chunk.encode).length
      = (cs.map fun c => chunkHeaderLen + c.payload.length).sum := by
  induction cs with
  | nil => rfl
  | cons c cs ih =>
    rw [flatMap_cons, length_append, ih, map_cons, sum_cons, Chunk.encode,
      length_append, ChunkHeader.length_encode]
    rfl

theorem wellSized_crc32 {bs : ℕ} (v : UInt32) : (Chunk.crc32 v).WellSized bs :=
  ⟨by norm_num [Chunk.chunkSz], by norm_num [Chunk.payload, chunkHeaderLen],
    fun _ _ h => by cases h⟩

/-- **The import with a checksum** of the stream of a regular sparse file. -/
theorem sparseFileImport_stream_crc (h : s.Regular len) (env : Env) (fd : ℕ)
    (hdvd : s.blockSize ∣ len) (hn : len / s.blockSize < 2 ^ 31) :
    sparseFileImport (s.stream env len true) fd true = (do
      let bbl ← addRegions (backedBlockListNew s.blockSize)
        (nodeRegions env s.blockSize fd sparseHeaderLen 0 s.blocks)
      if sparseCrc32 0 (s.blocks.flatMap (BackedBlock.covered env s.blockSize))
          ≠ sparseCrc32 0 (expand s.blockSize (chunksOf env s.blockSize len s.blocks)) then
        .ok none
      else .ok (some { len := s.len, backedBlockList := bbl })) := by
  have hbs32 : s.blockSize < 2 ^ 32 := s.backedBlockList.blockSize_lt
  have hchunks := h.length_chunksOf_le env hdvd
  obtain ⟨hd, hhd, hread, hblks, hcount⟩ := stream_header h env hdvd true
  rw [Bool.toNat_true, u32_of_lt (by omega)] at hcount
  have hblk : hd.blkSz = s.blockSize := by rw [hhd]; rfl
  have hchdr : hd.chunkHdrSz = chunkHeaderLen := by rw [hhd]; rfl
  have hsize : hd.start.s.blockSize = s.blockSize := by
    rw [← hblk] at hbs32 ⊢
    exact u32_of_lt hbs32
  have hpos : hd.start.pos = sparseHeaderLen := by rw [hhd]; rfl
  have hparse : parseChunks chunkHeaderLen s.blockSize
      (chunksOf env s.blockSize len s.blocks).length
      ((s.stream env len true).drop hd.start.pos)
        = some (chunksOf env s.blockSize len s.blocks) := by
    rw [hpos, stream_true, drop_encode, parseChunks_encode (h.wellSized env)]
  have htot := h.totalSz_lt env hdvd
  rw [sparseFileImport_of_header hread, hcount, readChunks_add, hchdr,
    readChunks_of_parse h.bs_pos hbs32 le_rfl hsize hparse (h.ne_crc32 env)
      (fun c hc => lt_of_le_of_lt (h.chunkSz_le env c hc) hn) htot,
    hpos, chunkRegions_chunksOf h env fd, h.totalSz_chunksOf env hdvd, zero_add]
  have hlist : hd.start.s.backedBlockList = backedBlockListNew s.blockSize := by
    rw [← hblk]
    rfl
  rw [hlist]
  cases addRegions (backedBlockListNew s.blockSize)
    (nodeRegions env s.blockSize fd sparseHeaderLen 0 s.blocks) with
  | error f => rfl
  | ok bbl =>
    have hcrcParse : parseChunk chunkHeaderLen s.blockSize ((s.stream env len true).drop
        (hd.start.behind s.blockSize chunkHeaderLen true
          (chunksOf env s.blockSize len s.blocks) bbl).pos)
          = some (.crc32 (sparseCrc32 0
              (s.blocks.flatMap (BackedBlock.covered env s.blockSize))), []) := by
      rw [Reader.behind, hpos, ← length_flatMap_encode, stream_true, ← drop_drop,
        drop_encode, drop_left]
      simpa using parseChunk_encode (wellSized_crc32 _) []
    have hone : readChunk (s.stream env len true) fd true chunkHeaderLen (len / s.blockSize) _
        = _ := readChunk_crc32 le_rfl hcrcParse
    have hcrc0 : (hd.start.behind s.blockSize chunkHeaderLen true
          (chunksOf env s.blockSize len s.blocks) bbl).crc32
        = sparseCrc32 0 (expand s.blockSize (chunksOf env s.blockSize len s.blocks)) := by
      rw [Reader.behind, if_pos rfl]
      rfl
    rw [hcrc0] at hone
    simp only [liftFault, bind, Except.bind, readChunks, hone]
    by_cases hne : sparseCrc32 0 (s.blocks.flatMap (BackedBlock.covered env s.blockSize))
        ≠ sparseCrc32 0 (expand s.blockSize (chunksOf env s.blockSize len s.blocks))
    · rw [if_pos hne, if_pos hne]
      rfl
    · rw [if_neg hne, if_neg hne]
      simp only [finishImport]
      rw [if_neg (by rw [hblks, u32_of_lt h.blocks_lt]; simp)]
      simp only [Reader.behind, SparseHeader.start, sparseFileNew, hblks, hblk, i64_blocks h hdvd]

end

/-! ### What the writer covers -/

variable {n bs : ℕ}

theorem flatten_replicate_word (v : UInt32) (k : ℕ) :
    (replicate k (leBytes 4 v.toNat)).flatten = (range (k * 4)).map (fillByte v) := by
  induction k with
  | zero => rfl
  | succ k ih =>
    have hword : (range 4).map (fun i => fillByte v (k * 4 + i)) = leBytes 4 v.toNat := by
      refine ext_getElem (by simp) fun i hi _ => ?_
      have hi4 : i < 4 := by simpa using hi
      have hmod : (k * 4 + i) % 4 = i := by omega
      have hlen : i < (leBytes 4 v.toNat).length := by simpa using hi4
      rw [getElem_map, getElem_range, fillByte, hmod, getD_eq_getElem?_getD,
        getElem?_eq_getElem hlen, Option.getD_some]
    rw [replicate_succ', flatten_append, ih, flatten_singleton, Nat.succ_mul,
      range_add, map_append, map_map, ← hword]
    rfl

/-- A node that the writer covers in full: not a fill, or a fill of one block of
whole words. -/
def BackedBlock.Full (bs : ℕ) (bb : BackedBlock) : Prop :=
  ∀ v, bb.backing = .fill v → bb.len ≤ bs ∧ 4 ∣ bs

theorem numBlocks_eq_one {len : ℕ} (hbs : 0 < bs) (hlen : 0 < len) :
    numBlocks bs len = 1 ↔ len ≤ bs := by
  have h0 := numBlocks_pos hbs hlen
  have h1 : 1 < numBlocks bs len ↔ 1 * bs < len := lt_numBlocks_iff hbs
  omega

variable (env : Env)

theorem BackedBlock.length_expand_chunk (hbs : 0 < bs) (bb : BackedBlock) :
    ((bb.chunk env bs).expand bs).length = numBlocks bs bb.len * bs := by
  have hpad := bb.length_padded env hbs
  cases hb : bb.backing <;> simp [chunk, hb, Chunk.expand, hpad]

/-- The writer covers no more than the chunk, and all of it only if the node is
covered in full. -/
theorem BackedBlock.covered_spec (hbs : 0 < bs) {bb : BackedBlock}
    (hlen : 0 < bb.len) : (bb.covered env bs).length ≤ numBlocks bs bb.len * bs ∧
      (bb.Full bs → bb.covered env bs = (bb.chunk env bs).expand bs) ∧
      ((bb.covered env bs).length = numBlocks bs bb.len * bs → bb.Full bs) := by
  have hnb := numBlocks_pos hbs hlen
  have hpad := bb.length_padded env hbs
  by_cases hfill : ∃ v, bb.backing = .fill v
  · obtain ⟨v, hv⟩ := hfill
    have hcov : bb.covered env bs = (range (bs / 4 * 4)).map (fillByte v) := by
      rw [covered, hv]
      exact flatten_replicate_word v (bs / 4)
    have hchunk : (bb.chunk env bs).expand bs
        = (range (numBlocks bs bb.len * bs)).map (fillByte v) := by
      rw [chunk, hv]
      rfl
    have hle : bs / 4 * 4 ≤ bs := Nat.div_mul_le_self bs 4
    have hone : bs ≤ numBlocks bs bb.len * bs := Nat.le_mul_of_pos_left bs hnb
    rw [hcov, hchunk, length_map, length_range]
    refine ⟨hle.trans hone, fun h => ?_, fun h w _ => ?_⟩
    · obtain ⟨hle, hdvd⟩ := h v hv
      rw [(numBlocks_eq_one hbs hlen).mpr hle, one_mul, Nat.div_mul_cancel hdvd]
    · refine ⟨(numBlocks_eq_one hbs hlen).mp ?_, ⟨bs / 4, by omega⟩⟩
      exact Nat.eq_of_mul_eq_mul_right hbs (by omega)
  · have hne : ∀ v, bb.backing ≠ .fill v := fun v hv => hfill ⟨v, hv⟩
    have hcov : bb.covered env bs = padBlocks bs (bb.bytes env) := by
      cases hb : bb.backing <;> simp [covered, hb]
      exact absurd hb (hne _)
    have hchunk : (bb.chunk env bs).expand bs = padBlocks bs (bb.bytes env) := by
      cases hb : bb.backing <;> simp [chunk, hb, Chunk.expand]
      exact absurd hb (hne _)
    rw [hcov, hchunk, hpad]
    exact ⟨le_rfl, fun _ => rfl, fun _ v hv => absurd hv (hne v)⟩

theorem expand_append (bs : ℕ) (cs cs' : List Chunk) :
    expand bs (cs ++ cs') = expand bs cs ++ expand bs cs' :=
  flatMap_append

theorem expand_cons (bs : ℕ) (c : Chunk) (cs : List Chunk) :
    expand bs (c :: cs) = c.expand bs ++ expand bs cs :=
  flatMap_cons

theorem expand_skipChunk (bs last next : ℕ) :
    expand bs (skipChunk last next) = replicate ((next - last) * bs) 0 := by
  by_cases h : last < next
  · simp [skipChunk, h, expand, Chunk.expand]
  · simp [skipChunk, h, expand, Nat.sub_eq_zero_of_le (not_lt.mp h)]

/-- The chunks for the blocks from `last` up to `n` have that many blocks. -/
theorem length_expand_chunksFrom (hbs : 0 < bs) :
    ∀ {l : List BackedBlock} {last : ℕ}, Layout bs last l → last ≤ n →
    (∀ bb ∈ l, bb.stop bs ≤ n) →
    (expand bs (chunksFrom env bs last l ++ skipChunk (endBlock bs last l) n)).length
      = (n - last) * bs := by
  intro l
  induction l with
  | nil =>
    intro last _ _ _
    rw [chunksFrom, nil_append, endBlock, expand_skipChunk, length_replicate]
  | cons bb rest ih =>
    intro last h hlast hin
    have hstop : bb.stop bs = bb.block + numBlocks bs bb.len := rfl
    have hbehind := h.behind bb mem_cons_self
    have hn := hin bb mem_cons_self
    have hih := ih h.tail hn fun c hc => hin c (mem_cons_of_mem bb hc)
    rw [chunksFrom, append_assoc, cons_append, endBlock, expand_append, expand_cons,
      expand_skipChunk, length_append, length_append, hih, length_replicate,
      bb.length_expand_chunk env hbs, ← Nat.add_mul, ← Nat.add_mul]
    congr 1
    omega

/-- **The writer covers exactly the expanded image** if there are no gaps and every
node is covered in full, and it covers fewer bytes otherwise. -/
theorem covered_spec (hbs : 0 < bs) :
    ∀ {l : List BackedBlock} {last : ℕ}, Layout bs last l → last ≤ n →
    (∀ bb ∈ l, bb.stop bs ≤ n) →
    (l.flatMap (BackedBlock.covered env bs)).length ≤ (n - last) * bs ∧
    (((∀ x, last ≤ x → x < n → ∃ bb ∈ l, bb.block ≤ x ∧ x < bb.stop bs) ∧
        ∀ bb ∈ l, bb.Full bs) → l.flatMap (BackedBlock.covered env bs) =
          expand bs (chunksFrom env bs last l ++ skipChunk (endBlock bs last l) n)) ∧
    ((l.flatMap (BackedBlock.covered env bs)).length = (n - last) * bs →
      (∀ x, last ≤ x → x < n → ∃ bb ∈ l, bb.block ≤ x ∧ x < bb.stop bs) ∧
        ∀ bb ∈ l, bb.Full bs) := by
  intro l
  induction l with
  | nil =>
    intro last _ hlast _
    refine ⟨Nat.zero_le _, ?_, fun hlen => ?_⟩
    · rintro ⟨h, -⟩
      have hle : n - last = 0 := by
        by_contra hlt
        obtain ⟨bb, hbb, -⟩ := h last le_rfl (by omega)
        exact absurd hbb (by simp)
      rw [chunksFrom, nil_append, endBlock, expand_skipChunk, flatMap_nil, hle, Nat.zero_mul,
        replicate_zero]
    · rw [flatMap_nil, length_nil] at hlen
      rcases Nat.mul_eq_zero.mp hlen.symm with h0 | h0
      · exact ⟨fun x h1 h2 => absurd h0 (by omega), by simp⟩
      · omega
  | cons bb rest ih =>
    intro last h hlast hin
    have hstop : bb.stop bs = bb.block + numBlocks bs bb.len := rfl
    have hpos := h.ordered.pos bb mem_cons_self
    have hnb := numBlocks_pos hbs hpos
    have hbehind := h.behind bb mem_cons_self
    have hn := hin bb mem_cons_self
    have hin' : ∀ c ∈ rest, c.stop bs ≤ n := fun c hc => hin c (mem_cons_of_mem bb hc)
    obtain ⟨hcle, hcfull, hclen⟩ := bb.covered_spec env hbs hpos
    obtain ⟨hrle, hrall, hrlen⟩ := ih h.tail hn hin'
    -- the blocks up to `n` are the gap, the node and the rest
    have hsplit : (n - last) * bs
        = (bb.block - last) * bs + (numBlocks bs bb.len * bs + (n - bb.stop bs) * bs) := by
      rw [← Nat.add_mul, ← Nat.add_mul]
      congr 1
      omega
    rw [flatMap_cons, length_append, hsplit]
    refine ⟨by omega, ?_, fun hlen => ?_⟩
    · rintro ⟨hcov, hfull⟩
      have hgap : bb.block = last := by
        obtain ⟨c, hc, hcx, -⟩ := hcov last le_rfl (by omega)
        rcases mem_cons.mp hc with rfl | hc
        · omega
        · have := h.tail.behind c hc
          omega
      have hrest := hrall ⟨fun x h1 h2 => ?_, fun c hc => hfull c (mem_cons_of_mem bb hc)⟩
      · rw [chunksFrom, append_assoc, cons_append, endBlock, expand_append, expand_cons,
          expand_skipChunk, hgap, Nat.sub_self, Nat.zero_mul, replicate_zero, nil_append,
          hcfull (hfull bb mem_cons_self), hrest]
      · obtain ⟨c, hc, hcx⟩ := hcov x (by omega) h2
        rcases mem_cons.mp hc with rfl | hc
        · omega
        · exact ⟨c, hc, hcx⟩
    · have hgap : bb.block = last := by
        have h0 : (bb.block - last) * bs = 0 := by omega
        rcases Nat.mul_eq_zero.mp h0 with h0 | h0 <;> omega
      obtain ⟨hcov, hfull⟩ := hrlen (by omega)
      refine ⟨fun x h1 h2 => ?_, forall_mem_cons.mpr ⟨hclen (by omega), hfull⟩⟩
      by_cases hx : x < bb.stop bs
      · exact ⟨bb, mem_cons_self, by omega, hx⟩
      · obtain ⟨c, hc, hcx⟩ := hcov x (not_lt.mp hx) h2
        exact ⟨c, mem_cons_of_mem bb hc, hcx⟩

/-! ### Write and import -/

/-- The stream written with a checksum is accepted by the import with a checksum. -/
def CrcRoundTrips (env : Env) (fd : ℕ) (s : SparseFile) : Prop :=
  ∃ f s', sparseFileWrite env s ⟨[], 0⟩ true true = .ok (f, 0) ∧
    sparseFileImport f.contents fd true = .ok (some s')

section

variable {s : SparseFile} {len : ℕ}

theorem crcRoundTrips_of_regular (h : s.Regular len) (env : Env) (fd : ℕ)
    (hdvd : s.blockSize ∣ len) (hn : len / s.blockSize < 2 ^ 31) :
    CrcRoundTrips env fd s ↔ ¬ SplitFill s.blockSize s.blocks ∧
      sparseCrc32 0 (s.blocks.flatMap (BackedBlock.covered env s.blockSize))
        = sparseCrc32 0 (expand s.blockSize (chunksOf env s.blockSize len s.blocks)) := by
  have hchunks := h.length_chunksOf_le env hdvd
  have hwrite := sparseFileWrite_stream env h
    (by rw [h.announcedChunks_eq env hdvd]; omega) true
  have himport := sparseFileImport_stream_crc h env fd hdvd hn
  have hbs32 : s.blockSize < 2 ^ 32 := s.backedBlockList.blockSize_lt
  obtain ⟨hfine, hstale⟩ := addRegions_increasing h.bs_pos hbs32
    (nodeRegions_increasing h env fd hdvd)
  rw [stale_nodeRegions env h.bs_pos h.layout] at hfine hstale
  constructor
  · rintro ⟨f, s', hf, hs'⟩
    rw [hwrite] at hf
    cases hf
    rw [himport] at hs'
    have hsplit : ¬ SplitFill s.blockSize s.blocks := by
      intro hsplit
      rw [hstale hsplit] at hs'
      cases hs'
    obtain ⟨bbl, hadd, -⟩ := hfine hsplit
    refine ⟨hsplit, ?_⟩
    by_contra hne
    simp only [hadd, bind, Except.bind, if_pos hne] at hs'
    cases hs'
  · rintro ⟨hsplit, heq⟩
    obtain ⟨bbl, hadd, -⟩ := hfine hsplit
    refine ⟨_, ⟨s.len, bbl⟩, hwrite, ?_⟩
    rw [himport, hadd]
    simp only [bind, Except.bind]
    rw [if_neg (not_not.mpr heq)]

end

/-- Every block of the image is backed, and every fill is one block of whole words. -/
def Covers (bs n : ℕ) (l : List BackedBlock) : Prop :=
  (∀ x < n, ∃ bb ∈ l, bb.block ≤ x ∧ x < bb.stop bs) ∧
    ∀ bb ∈ l, ∀ v, bb.backing = .fill v → bb.len ≤ bs ∧ 4 ∣ bs

/-- The writer leaves out bytes of the expanded image, and the two byte strings happen to have the
same checksum. -/
def Collides (env : Env) (bs len : ℕ) (l : List BackedBlock) : Prop :=
  (l.flatMap (BackedBlock.covered env bs)).length < (expand bs (chunksOf env bs len l)).length ∧
    sparseCrc32 0 (l.flatMap (BackedBlock.covered env bs)) =
      sparseCrc32 0 (expand bs (chunksOf env bs len l))

end Sparse
