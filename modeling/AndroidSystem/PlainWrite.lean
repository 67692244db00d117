/-
Writing an image in place, and how it compares to the sparse stream.

The plain writer positions data by relative seeks.  A file whose holes read as zero
`Holds` the bytes up to its position; writing and skipping append to them, so that
the whole run appends one piece for every gap and every node (`plainFrom`).  The
piece of a fill ends where the fill ends, also inside a block, while in the sparse
stream it takes the whole block.

* `sparseFileWrite_plain` — what the plain writer leaves, or that it stops at the
  assertion `pad >= 0`;
* `plainFrom_eq_expand` — the pieces are those of the chunks if no fill ends inside
  a block;
* `sameImage_iff` — the two writers agree on every sparse file of a layout exactly
  if no fill of the layout ends inside a block and neither does the image.
-/
import AndroidSystem.Checksum

open CInt List

namespace Sparse

/-! ### A file with holes -/

variable {f : FdFile} {bytes : List UInt8}

/-- The position is behind the bytes, and the contents are the bytes up to a hole of
zeros at the end. -/
structure FdFile.Holds (f : FdFile) (bytes : List UInt8) : Prop where
  pos : f.pos = bytes.length
  le : f.contents.length ≤ bytes.length
  eq : f.contents ++ List.replicate (bytes.length - f.contents.length) 0 = bytes

theorem FdFile.Holds.write (h : f.Holds bytes) {data : List UInt8} (hlen : data.length < 2 ^ 31) :
    ∃ f', fileWrite f data = (f', 0) ∧ f'.Holds (bytes ++ data) := by
  have hle := h.le
  rw [fileWrite, if_neg (by rw [i32_of_lt hlen]; omega)]
  refine ⟨_, rfl, ?_⟩
  by_cases hd : data = []
  · subst hd
    rw [overwrite, if_pos rfl, append_nil]
    exact ⟨h.pos, h.le, h.eq⟩
  · have hcontents : overwrite f.contents f.pos data = bytes ++ data := by
      rw [overwrite, if_neg hd, h.pos, h.eq, take_length,
        drop_eq_nil_of_le (by omega), append_nil]
    rw [hcontents]
    exact ⟨by simp [h.pos], le_rfl, by simp⟩

theorem FdFile.Holds.skip (h : f.Holds bytes) (n : ℕ) :
    ∃ f', fileSkip f n = (f', 0) ∧ f'.Holds (bytes ++ replicate n 0) := by
  have hle := h.le
  rw [fileSkip, if_neg (by omega)]
  refine ⟨_, rfl, ?_, ?_, ?_⟩
  · rw [length_append, length_replicate, ← h.pos]
    show ((f.pos : ℤ) + n).toNat = _
    omega
  · rw [length_append]
    exact hle.trans (Nat.le_add_right _ _)
  · show f.contents ++ _ = _
    rw [length_append, length_replicate,
      show bytes.length + n - f.contents.length = (bytes.length - f.contents.length) + n by omega,
      replicate_add, ← append_assoc, h.eq]

theorem FdFile.Holds.pad (h : f.Holds bytes) (len : ℕ) :
    (filePad f len).1.contents = (bytes ++ replicate len 0).take len := by
  rw [filePad, if_neg (by omega)]
  show f.contents.take (len : ℤ).toNat ++ _ = _
  rw [Int.toNat_natCast, ← h.eq, append_assoc, ← replicate_add, take_append,
    take_replicate]
  congr 2
  omega

/-! ### Regions in place -/

/-- What the plain writer appends for a node. -/
def BackedBlock.inPlace (env : Env) (bs : ℕ) (bb : BackedBlock) : List UInt8 :=
  match bb.backing with
  | .fill _ => bb.bytes env
  | _ => padBlocks bs (bb.bytes env)

variable (env : Env)

variable {bb : BackedBlock}

theorem BackedBlock.inPlace_of_fill (bs : ℕ)
    (h : bb.backing.type = .fill) : bb.inPlace env bs = bb.bytes env := by
  cases hb : bb.backing <;> simp [inPlace, hb, Backing.type] at h ⊢

theorem BackedBlock.inPlace_of_ne_fill (bs : ℕ)
    (h : bb.backing.type ≠ .fill) : bb.inPlace env bs = padBlocks bs (bb.bytes env) := by
  cases hb : bb.backing <;> simp [inPlace, hb, Backing.type] at h ⊢

/-- What the plain writer appends for the nodes and the gaps before them. -/
def plainFrom (env : Env) (bs : ℕ) : ℕ → List BackedBlock → List UInt8
  | _, [] => []
  | last, bb :: rest => List.replicate ((bb.block - last) * bs) 0 ++
      (bb.inPlace env bs ++ plainFrom env bs (bb.stop bs) rest)

theorem fillByte_add {v : UInt32} {bs : ℕ} (h : 4 ∣ bs) (i : ℕ) :
    fillByte v (bs + i) = fillByte v i := by
  rw [fillByte, fillByte]
  congr 1
  omega

theorem fillBuf_eq {bs : ℕ} (h : 4 ∣ bs) (v : UInt32) :
    fillBuf bs v = (range bs).map (fillByte v) := by
  rw [fillBuf, flatten_replicate_word, Nat.div_mul_cancel h, Nat.mod_eq_zero_of_dvd h,
    replicate_zero, append_nil]

section

variable {out : OutputFile FdFile} {bytes : List UInt8}

theorem OutputFile.put_holds (h : out.dev.Holds bytes) {data : List UInt8}
    (hlen : data.length < 2 ^ 31) :
    ∃ f, out.put fileOps data = ({ out with dev := f }, 0) ∧ f.Holds (bytes ++ data) := by
  obtain ⟨f, hf, hholds⟩ := h.write hlen
  refine ⟨f, ?_, hholds⟩
  rw [OutputFile.put]
  show ({ out with dev := (fileWrite out.dev data).1 }, (fileWrite out.dev data).2) = _
  rw [hf]

/-- The loop of `write_normal_fill_chunk` appends the fill. -/
theorem writeNormalFillLoop_holds (v : UInt32) : ∀ (rounds len : ℕ) (out : OutputFile FdFile)
    {bytes : List UInt8}, len ≤ rounds → 0 < out.blockSize → 4 ∣ out.blockSize →
    out.blockSize < 2 ^ 31 → out.dev.Holds bytes →
    ∃ f, writeNormalFillLoop fileOps (fillBuf out.blockSize v) rounds len out
        = ({ out with dev := f }, 0) ∧ f.Holds (bytes ++ (range len).map (fillByte v)) := by
  intro rounds
  induction rounds with
  | zero =>
    intro len out bytes hle _ _ _ h
    obtain rfl : len = 0 := by omega
    exact ⟨out.dev, rfl, by simpa using h⟩
  | succ rounds ih =>
    intro len out bytes hle hbs h4 h31 h
    rw [writeNormalFillLoop]
    by_cases hlen : len = 0
    · subst hlen
      rw [if_pos rfl]
      exact ⟨out.dev, rfl, by simpa using h⟩
    · rw [if_neg hlen]
      have hmin : min len out.blockSize ≤ out.blockSize := min_le_right _ _
      have htake : (fillBuf out.blockSize v).take (min len out.blockSize)
          = (range (min len out.blockSize)).map (fillByte v) := by
        rw [fillBuf_eq h4, ← map_take, take_range, min_eq_left hmin]
      obtain ⟨f, hput, hf⟩ := OutputFile.put_holds h
        (by rw [htake, length_map, length_range]; omega :
          ((fillBuf out.blockSize v).take (min len out.blockSize)).length < 2 ^ 31)
      obtain ⟨f', hrun, hf'⟩ :=
        ih (len - min len out.blockSize) { out with dev := f } (by omega) hbs
        h4 h31 hf
      refine ⟨f', ?_, ?_⟩
      · simp only [hput, lt_irrefl, if_false]
        exact hrun
      · rw [htake, append_assoc] at hf'
        convert hf' using 2
        -- a round is a whole block, or the last one
        rcases Nat.le_total out.blockSize len with hge | hlt
        · conv_lhs => rw [← Nat.add_sub_cancel' hge, range_add, map_append, map_map]
          rw [min_eq_right hge]
          congr 2
          funext i
          exact fillByte_add h4 i
        · rw [min_eq_left hlt, Nat.sub_self, range_zero, map_nil, append_nil]

/-- One node written in place. -/
theorem sparseFileWriteBlock_holds (env : Env) (out : OutputFile FdFile) (h : out.dev.Holds bytes)
    (hsparse : out.sparse = false) {bs : ℕ} (hsize : out.blockSize = bs) (hbs : 0 < bs)
    (h4 : 4 ∣ bs) (h31 : bs < 2 ^ 31) (hpos : 0 < bb.len)
    (hfits : bb.Fits bs) :
    ∃ f, sparseFileWriteBlock env fileOps out bb = .ok { out with dev := f } ∧
      f.Holds (bytes ++ bb.inPlace env bs) := by
  subst hsize
  by_cases htype : bb.backing.type = .fill
  · obtain ⟨v, hv⟩ := Backing.type_eq_fill.mp htype
    obtain ⟨f, hrun, hf⟩ := writeNormalFillLoop_holds v bb.len bb.len out le_rfl hbs h4 h31 h
    refine ⟨f, ?_, ?_⟩
    · rw [sparseFileWriteBlock_fill env fileOps out hv, writeFillChunk,
        if_neg (by rw [hsparse]; simp), writeNormalFillChunk, hrun]
    · rw [bb.inPlace_of_fill env _ htype, BackedBlock.bytes, hv]
      exact hf
  · obtain ⟨h1, h2, -⟩ := hfits.raw htype
    have hlen := bb.length_bytes env
    have hplace := bb.inPlace_of_ne_fill env out.blockSize htype
    obtain ⟨f, hput, hf⟩ := OutputFile.put_holds h (by rw [hlen]; exact h1)
    obtain ⟨f', hskip, hf'⟩ := hf.skip (numBlocks out.blockSize bb.len * out.blockSize - bb.len)
    rw [append_assoc] at hf'
    rw [sparseFileWriteBlock_raw env fileOps out hpos h1 htype, hplace, writeDataChunk,
      if_neg (by rw [hsparse]; simp), writeNormalDataChunk]
    simp only [hput, hlen, align_eq hfits.round, lt_irrefl, if_false, padBlocks]
    by_cases hgap : numBlocks out.blockSize bb.len * out.blockSize > bb.len
    · rw [if_pos hgap]
      refine ⟨f', ?_, hf'⟩
      show Except.ok { out with dev := (fileSkip f _).1 } = _
      rw [hskip]
    · rw [if_neg hgap]
      refine ⟨f, rfl, ?_⟩
      rw [show numBlocks out.blockSize bb.len * out.blockSize - bb.len = 0 by omega]
      simpa using hf

/-- A skip in place. -/
theorem writeSkipChunk_holds (out : OutputFile FdFile) (h : out.dev.Holds bytes)
    (hsparse : out.sparse = false) (n : ℕ) :
    ∃ f, (writeSkipChunk fileOps out n).1 = { out with dev := f } ∧
      f.Holds (bytes ++ replicate n 0) := by
  obtain ⟨f, hskip, hf⟩ := h.skip n
  refine ⟨f, ?_, hf⟩
  rw [writeSkipChunk, if_neg (by rw [hsparse]; simp)]
  show { out with dev := (fileSkip out.dev n).1 } = _
  rw [hskip]

/-- **The loop of `write_all_blocks` in place** appends one piece for every gap and
every node. -/
theorem writeBlocks_holds (env : Env) {bs : ℕ} (hbs : 0 < bs) (h4 : 4 ∣ bs) (h31 : bs < 2 ^ 31) :
    ∀ {l : List BackedBlock} {last : ℕ} (out : OutputFile FdFile) {bytes : List UInt8},
    Layout bs last l → out.dev.Holds bytes → out.sparse = false → out.blockSize = bs →
    ∃ f, writeBlocks env fileOps bs last l out = .ok ({ out with dev := f }, endBlock bs last l) ∧
      f.Holds (bytes ++ plainFrom env bs last l) := by
  intro l
  induction l with
  | nil =>
    intro last out bytes _ h _ _
    exact ⟨out.dev, rfl, by simpa [plainFrom] using h⟩
  | cons bb rest ih =>
    intro last out bytes hl h hsparse hsize
    subst hsize
    have hfits := hl.fits bb mem_cons_self
    have hstop := hl.stop_eq mem_cons_self
    -- the gap, if there is one
    obtain ⟨f₁, hgap, hf₁⟩ : ∃ f₁, (if bb.block > last then
        (writeSkipChunk fileOps out (i64 (((bb.block - last) * out.blockSize : ℕ) : ℤ))).1
        else out) = { out with dev := f₁ } ∧
          f₁.Holds (bytes ++ replicate ((bb.block - last) * out.blockSize) 0) := by
      by_cases hg : last < bb.block
      · rw [if_pos hg, hl.gap_eq mem_cons_self]
        exact writeSkipChunk_holds out h hsparse _
      · rw [if_neg hg, show bb.block - last = 0 by omega]
        exact ⟨out.dev, rfl, by simpa using h⟩
    have hpos := hl.ordered.pos bb mem_cons_self
    obtain ⟨f₂, hblock, hf₂⟩ := sparseFileWriteBlock_holds env { out with dev := f₁ } hf₁ hsparse
      rfl hbs h4 h31 hpos hfits
    obtain ⟨f, hrun, hf⟩ := ih { out with dev := f₂ } hl.tail hf₂ hsparse rfl
    refine ⟨f, ?_, ?_⟩
    · rw [writeBlocks, hgap, hblock, hstop, endBlock]
      exact hrun
    · rw [plainFrom, ← append_assoc, ← append_assoc]
      exact hf

end

/-- A sparse file of `len` bytes whose regions are in order and end inside it,
perhaps in a last block that is not complete. -/
structure SparseFile.Placed (s : SparseFile) (len : ℕ) : Prop where
  bs_pos : 0 < s.blockSize
  len_eq : s.len = len
  len_lt : len < 2 ^ 63 - 2 ^ 32
  blocks_lt : len / s.blockSize + 1 < 2 ^ 32
  layout : Layout s.blockSize 0 s.blocks
  inside : ∀ bb ∈ s.blocks, bb.block * s.blockSize + bb.len ≤ len

theorem take_append_zeros (b : List UInt8) {len n : ℕ} (h : len ≤ n) :
    (b ++ replicate n 0).take len = (b ++ replicate len 0).take len := by
  rw [take_append, take_append, take_replicate, take_replicate,
    min_eq_left (by omega), min_eq_left (by omega)]

/-- **What the plain writer leaves**: it stops at the assertion if the nodes take more
blocks than the image has bytes for. -/
theorem sparseFileWrite_plain {s : SparseFile} {len : ℕ} (h : s.Placed len)
    (h4 : 4 ∣ s.blockSize) (h31 : s.blockSize < 2 ^ 31) (crc : Bool) :
    (len < endBlock s.blockSize 0 s.blocks * s.blockSize →
      sparseFileWrite env s ⟨[], 0⟩ false crc = .error .assertFailed) ∧
    (endBlock s.blockSize 0 s.blocks * s.blockSize ≤ len → ∃ f,
      sparseFileWrite env s ⟨[], 0⟩ false crc = .ok (f, 0) ∧
        f.contents = (plainFrom env s.blockSize 0 s.blocks ++ replicate len 0).take len) := by
  have hlen := h.len_lt
  obtain ⟨n, hcount⟩ := sparseCountChunks_ok h.bs_pos
  have hempty : (⟨[], 0⟩ : FdFile).Holds [] := ⟨rfl, le_rfl, rfl⟩
  obtain ⟨f, hrun, hf⟩ := writeBlocks_holds env h.bs_pos h4 h31
    ⟨⟨[], 0⟩, false, 0, crc, s.blockSize, s.len⟩ h.layout hempty rfl rfl
  rw [nil_append] at hf
  have hstop : endBlock s.blockSize 0 s.blocks * s.blockSize < 2 ^ 63 := by
    have hle : endBlock s.blockSize 0 s.blocks ≤ (2 ^ 63 - 1) / s.blockSize :=
      endBlock_le (Nat.zero_le _) fun bb hbb => (Nat.le_div_iff_mul_le h.bs_pos).mpr
        (Nat.le_sub_one_of_lt (h.layout.stop_lt bb hbb).2)
    have := (Nat.le_div_iff_mul_le h.bs_pos).mp hle
    omega
  generalize endBlock s.blockSize 0 s.blocks = e at hrun hstop ⊢
  have hpad : i64 (s.len - i64 ((e * s.blockSize : ℕ) : ℤ))
      = (len : ℤ) - (e * s.blockSize : ℕ) := by
    rw [h.len_eq]
    exact i64_sub_i64 (by omega) hstop
  have hwrite : sparseFileWrite env s ⟨[], 0⟩ false crc = (do
      let out ← writeAllBlocks env fileOps s ⟨⟨[], 0⟩, false, 0, crc, s.blockSize, s.len⟩
      .ok ((outputFileClose fileOps out).dev, 0)) := by
    rw [sparseFileWrite, sparseFileOutput, hcount]
    rfl
  rw [hwrite, writeAllBlocks, hrun]
  simp only [bind, Except.bind, hpad]
  constructor
  · intro hlt
    rw [if_pos (by omega)]
  · intro hle
    rw [if_neg (by omega)]
    by_cases hgap : (len : ℤ) - (e * s.blockSize : ℕ) > 0
    · rw [if_pos hgap, ← Int.ofNat_sub hle]
      obtain ⟨f', hskip, hf'⟩ := writeSkipChunk_holds ⟨f, false, 0, crc, s.blockSize, s.len⟩ hf rfl
        (len - e * s.blockSize)
      refine ⟨_, rfl, ?_⟩
      rw [hskip]
      show (filePad f' s.len).1.contents = _
      rw [h.len_eq, hf'.pad, append_assoc, ← replicate_add]
      exact take_append_zeros _ (Nat.le_add_left _ _)
    · rw [if_neg hgap]
      refine ⟨_, rfl, ?_⟩
      show (filePad f s.len).1.contents = _
      rw [h.len_eq, hf.pad]

/-! ### The two writers -/

theorem BackedBlock.inPlace_eq_expand {bs : ℕ} (hbs : 0 < bs)
    (h : bb.backing.type = .fill → bs ∣ bb.len) :
    bb.inPlace env bs = (bb.chunk env bs).expand bs := by
  cases hb : bb.backing with
  | fill v =>
    obtain ⟨q, hq⟩ := h (by rw [hb]; rfl)
    have hlen : numBlocks bs bb.len * bs = bb.len := by
      rw [hq, mul_comm bs q, numBlocks_mul hbs]
    simp only [inPlace, chunk, hb, Chunk.expand, bytes, hlen]
    rfl
  | data p => simp [inPlace, chunk, hb, Chunk.expand]
  | file name o => simp [inPlace, chunk, hb, Chunk.expand]
  | fd n o => simp [inPlace, chunk, hb, Chunk.expand]

/-- If no fill ends inside a block, the plain writer appends what the chunks expand
to. -/
theorem plainFrom_eq_expand {bs : ℕ} (hbs : 0 < bs) : ∀ {l : List BackedBlock}
    {last : ℕ}, (∀ bb ∈ l, bb.backing.type = .fill → bs ∣ bb.len) →
    plainFrom env bs last l = expand bs (chunksFrom env bs last l) := by
  intro l
  induction l with
  | nil => exact fun _ => rfl
  | cons bb rest ih =>
    intro last h
    rw [plainFrom, chunksFrom, expand_append, expand_cons, expand_skipChunk,
      bb.inPlace_eq_expand env hbs (h bb mem_cons_self),
      ih fun c hc => h c (mem_cons_of_mem bb hc)]

/-- The sparse stream is well formed, and its chunks expand to what the plain writer
leaves. -/
def SameImage (env : Env) (s : SparseFile) (len : ℕ) : Prop :=
  ∃ f g hd cs, sparseFileWrite env s ⟨[], 0⟩ true false = .ok (f, 0) ∧
    sparseFileWrite env s ⟨[], 0⟩ false false = .ok (g, 0) ∧
    parseStream f.contents = some (hd, cs) ∧ (expand s.blockSize cs).take len = g.contents

/-- The two sparse files have nodes of the same kind at the same places: they differ
in what is written there. -/
def SparseFile.SameLayout (s s' : SparseFile) : Prop :=
  s'.len = s.len ∧ s'.blockSize = s.blockSize ∧
    s'.blocks.map (fun bb => (bb.block, bb.len, bb.backing.type))
      = s.blocks.map (fun bb => (bb.block, bb.len, bb.backing.type))

section

variable {s : SparseFile} {len : ℕ}

theorem SparseFile.Placed.regular (h : s.Placed len)
    (hend : endBlock s.blockSize 0 s.blocks * s.blockSize ≤ len) : s.Regular len where
  bs_pos := h.bs_pos
  len_eq := h.len_eq
  len_lt := h.len_lt
  blocks_lt := by
    have := h.blocks_lt
    omega
  layout := h.layout
  inside bb hbb := (Nat.mul_le_mul_right _ (stop_le_endBlock h.layout bb hbb)).trans hend

theorem SparseFile.Regular.placed (h : s.Regular len) (hblks : len / s.blockSize + 1 < 2 ^ 32) :
    s.Placed len where
  bs_pos := h.bs_pos
  len_eq := h.len_eq
  len_lt := h.len_lt
  blocks_lt := hblks
  layout := h.layout
  inside bb hbb := by
    have hin := h.inside bb hbb
    have hle := le_numBlocks_mul h.bs_pos bb.len
    rw [BackedBlock.stop, Nat.add_mul] at hin
    omega

theorem SparseFile.Placed.endBlock_mul_le (h : s.Placed len) (hdvd : s.blockSize ∣ len) :
    endBlock s.blockSize 0 s.blocks * s.blockSize ≤ len := by
  refine (Nat.le_div_iff_mul_le h.bs_pos).mp (endBlock_le (Nat.zero_le _) fun bb hbb => ?_)
  have hin := h.inside bb hbb
  obtain ⟨q, rfl⟩ := hdvd
  rw [Nat.mul_div_cancel_left _ h.bs_pos]
  by_contra hlt
  have hblocks : q - bb.block < numBlocks s.blockSize bb.len := by
    rw [BackedBlock.stop] at hlt
    have := numBlocks_pos h.bs_pos (h.layout.ordered.pos bb hbb)
    omega
  have hmul := (lt_numBlocks_iff h.bs_pos).mp hblocks
  rw [Nat.sub_mul, mul_comm q] at hmul
  omega

variable {bs : ℕ}

theorem parseChunks_encode_short : ∀ {cs : List Chunk}, (∀ c ∈ cs, c.WellSized bs) →
    parseChunks chunkHeaderLen bs (cs.length + 1) (cs.flatMap Chunk.encode) = none := by
  intro cs
  induction cs with
  | nil => exact fun _ => rfl
  | cons c cs ih =>
    intro h
    rw [length_cons, flatMap_cons, parseChunks,
      parseChunk_encode (h c mem_cons_self)]
    show (parseChunks chunkHeaderLen bs (cs.length + 1) (cs.flatMap Chunk.encode)
      >>= fun cs => some (c :: cs)) = _
    rw [ih fun c' hc' => h c' (mem_cons_of_mem c hc')]
    rfl

/-- The last skip of an image that is not of whole blocks is announced and not
written. -/
theorem SparseFile.Regular.parseStream_short (h : s.Regular len) (env : Env)
    (hdvd : ¬ s.blockSize ∣ len) (hblks : len / s.blockSize + 1 < 2 ^ 32) :
    announcedChunks env s.blockSize len s.blocks < 2 ^ 32 ∧
      parseStream (s.stream env len false) = none := by
  have hmod : len % s.blockSize ≠ 0 := fun h0 => hdvd (Nat.dvd_of_mod_eq_zero h0)
  have hend := h.endBlock_le
  have hle := h.length_chunksFrom_le env
  have hlast : endBlock s.blockSize 0 s.blocks < numBlocks s.blockSize len := by
    refine lt_of_le_of_lt hend ((lt_numBlocks_iff h.bs_pos).mpr ?_)
    have := Nat.div_add_mod len s.blockSize
    rw [mul_comm]
    omega
  have hannounced : announcedChunks env s.blockSize len s.blocks
      = (chunksOf env s.blockSize len s.blocks).length + 1 := by
    rw [announcedChunks, if_pos hlast, chunksOf, if_neg hmod, append_nil]
  have hlt : announcedChunks env s.blockSize len s.blocks < 2 ^ 32 := by
    rw [announcedChunks, if_pos hlast]
    omega
  refine ⟨hlt, ?_⟩
  cases hp : parseStream (s.stream env len false) with
  | none => rfl
  | some p =>
    obtain ⟨hd, cs⟩ := p
    have hbs32 : s.blockSize < 2 ^ 32 := s.backedBlockList.blockSize_lt
    obtain ⟨hread, hparse, -⟩ := parseStream_eq_some.mp hp
    rw [stream_false, readSparseHeader_encode hbs32 false _] at hread
    cases hread
    have hcount : (sparseHeader s.blockSize len (announcedChunks env s.blockSize len s.blocks)
        false).totalChunks = (chunksOf env s.blockSize len s.blocks).length + 1 := by
      rw [← hannounced]
      exact u32_of_lt hlt
    rw [hcount, stream_false] at hparse
    change parseChunks chunkHeaderLen s.blockSize _ (drop sparseHeaderLen _) = _ at hparse
    rw [drop_encode, parseChunks_encode_short (h.wellSized env)] at hparse
    cases hparse

theorem Layout.of_map_eq {last : ℕ} {l l' : List BackedBlock} (h : Layout bs last l)
    (heq : l'.map (fun bb => (bb.block, bb.len, bb.backing.type))
      = l.map (fun bb => (bb.block, bb.len, bb.backing.type))) :
    Layout bs last l' ∧ ∀ bb' ∈ l', ∃ bb ∈ l, bb'.block = bb.block ∧ bb'.len = bb.len ∧
      bb'.backing.type = bb.backing.type := by
  have hnode : ∀ bb' ∈ l', ∃ bb ∈ l, bb'.block = bb.block ∧ bb'.len = bb.len ∧
      bb'.backing.type = bb.backing.type := by
    intro bb' hbb'
    have hmem : (bb'.block, bb'.len, bb'.backing.type)
        ∈ l.map (fun bb => (bb.block, bb.len, bb.backing.type)) := by
      rw [← heq]
      exact mem_map_of_mem hbb'
    obtain ⟨bb, hbb, hkey⟩ := mem_map.mp hmem
    simp only [Prod.mk.injEq] at hkey
    exact ⟨bb, hbb, hkey.1.symm, hkey.2.1.symm, hkey.2.2.symm⟩
  have hord : (l'.map (fun bb => (bb.block, bb.len, bb.backing.type))).Pairwise
      fun p q => p.1 + numBlocks bs p.2.1 ≤ q.1 := by
    rw [heq, pairwise_map]
    exact h.ordered.ord
  refine ⟨⟨⟨fun bb' hbb' => ?_, pairwise_map.mp hord⟩, fun bb' hbb' => ?_,
    fun bb' hbb' => ?_, fun bb' hbb' => ?_⟩, hnode⟩
  · obtain ⟨bb, hbb, -, hlen, -⟩ := hnode bb' hbb'
    rw [hlen]
    exact h.ordered.pos bb hbb
  · obtain ⟨bb, hbb, hblock, -, -⟩ := hnode bb' hbb'
    rw [hblock]
    exact h.behind bb hbb
  · obtain ⟨bb, hbb, -, hlen, htype⟩ := hnode bb' hbb'
    have hfits := h.fits bb hbb
    refine ⟨by rw [hlen]; exact hfits.round, fun ht => ?_⟩
    rw [hlen]
    exact hfits.raw (htype ▸ ht)
  · obtain ⟨bb, hbb, hblock, hlen, -⟩ := hnode bb' hbb'
    rw [BackedBlock.stop, hblock, hlen]
    exact h.stop_lt bb hbb

theorem SparseFile.Placed.of_sameLayout (h : s.Placed len) {s' : SparseFile}
    (hs : s.SameLayout s') : s'.Placed len ∧ ∀ bb' ∈ s'.blocks, ∃ bb ∈ s.blocks,
      bb'.block = bb.block ∧ bb'.len = bb.len ∧ bb'.backing.type = bb.backing.type := by
  obtain ⟨hlen, hsize, hblocks⟩ := hs
  obtain ⟨hlayout, hnode⟩ := h.layout.of_map_eq hblocks
  refine ⟨⟨by rw [hsize]; exact h.bs_pos, hlen.trans h.len_eq, h.len_lt,
    by rw [hsize]; exact h.blocks_lt, by rw [hsize]; exact hlayout, fun bb' hbb' => ?_⟩, hnode⟩
  obtain ⟨bb, hbb, hblock, hlen, -⟩ := hnode bb' hbb'
  rw [hblock, hlen, hsize]
  exact h.inside bb hbb

/-- The node with the word `2 ^ 32 - 1` if it is a fill. -/
def BackedBlock.refill (bb : BackedBlock) : BackedBlock :=
  match bb.backing with
  | .fill _ => { bb with backing := .fill 0xffffffff }
  | _ => bb

theorem BackedBlock.refill_key (bb : BackedBlock) :
    (bb.refill.block, bb.refill.len, bb.refill.backing.type)
      = (bb.block, bb.len, bb.backing.type) := by
  cases hb : bb.backing <;> simp [refill, hb, Backing.type]

theorem fillByte_ff (i : ℕ) : fillByte 0xffffffff i = 255 := by
  have hall : ∀ j < 4, (leBytes 4 (0xffffffff : UInt32).toNat).getD j 0 = 255 := by decide
  exact hall (i % 4) (Nat.mod_lt i (by norm_num))

/-- With that word in all fills, the chunk has no fewer bytes of ones than the plain
writer appends, and more if the fill ends inside a block. -/
theorem BackedBlock.count_refill (env : Env) (hbs : 0 < bs) (bb : BackedBlock) :
    (bb.refill.inPlace env bs).count 255 ≤ ((bb.refill.chunk env bs).expand bs).count 255 ∧
      (bb.backing.type = .fill → ¬ bs ∣ bb.len →
        (bb.refill.inPlace env bs).count 255 < ((bb.refill.chunk env bs).expand bs).count 255) := by
  have hcount : ∀ n, ((range n).map (fillByte 0xffffffff)).count 255 = n := by
    intro n
    rw [map_congr_left (fun i _ => fillByte_ff i), map_const', length_range,
      count_replicate_self]
  have hle := le_numBlocks_mul hbs bb.len
  cases hb : bb.backing with
  | fill v =>
    have hplace : bb.refill.inPlace env bs = (range bb.len).map (fillByte 0xffffffff) := by
      simp only [refill, hb, inPlace]
      rfl
    have hchunk : (bb.refill.chunk env bs).expand bs
        = (range (numBlocks bs bb.len * bs)).map (fillByte 0xffffffff) := by
      simp only [refill, hb, chunk]
      rfl
    rw [hplace, hchunk, hcount, hcount]
    refine ⟨hle, fun _ hdvd => lt_of_le_of_ne hle fun heq => hdvd ?_⟩
    exact ⟨numBlocks bs bb.len, by rw [mul_comm]; exact heq⟩
  | data | file | fd =>
    refine ⟨le_of_eq ?_, fun h => by cases h⟩
    simp [refill, hb, inPlace, chunk, Chunk.expand]

theorem count_plainFrom_refill (env : Env) (hbs : 0 < bs) : ∀ (l : List BackedBlock)
    (last : ℕ), (plainFrom env bs last (l.map BackedBlock.refill)).count 255
        ≤ (expand bs (chunksFrom env bs last (l.map BackedBlock.refill))).count 255 ∧
      ((∃ bb ∈ l, bb.backing.type = .fill ∧ ¬ bs ∣ bb.len) →
        (plainFrom env bs last (l.map BackedBlock.refill)).count 255
          < (expand bs (chunksFrom env bs last (l.map BackedBlock.refill))).count 255) := by
  intro l
  induction l with
  | nil => exact fun last => ⟨le_rfl, fun ⟨bb, hbb, _⟩ => absurd hbb (by simp)⟩
  | cons bb rest ih =>
    intro last
    obtain ⟨hle, hlt⟩ := bb.count_refill env hbs
    obtain ⟨ihle, ihlt⟩ := ih (bb.refill.stop bs)
    rw [map_cons, plainFrom, chunksFrom, expand_append, expand_cons, expand_skipChunk]
    simp only [count_append]
    refine ⟨by omega, ?_⟩
    rintro ⟨c, hc, hfill, hdvd⟩
    rcases mem_cons.mp hc with rfl | hc
    · have := hlt hfill hdvd
      omega
    · have := ihlt ⟨c, hc, hfill, hdvd⟩
      omega

theorem SparseFile.Regular.length_expand (h : s.Regular len) (hdvd : s.blockSize ∣ len)
    (env : Env) : (expand s.blockSize (chunksOf env s.blockSize len s.blocks)).length = len := by
  rw [chunksOf, if_pos (Nat.mod_eq_zero_of_dvd hdvd), length_expand_chunksFrom env h.bs_pos
    h.layout (Nat.zero_le _) (fun bb hbb => (Nat.le_div_iff_mul_le h.bs_pos).mpr
      (h.inside bb hbb)), Nat.sub_zero, Nat.div_mul_cancel hdvd]

variable (h : s.Placed len) (h4 : 4 ∣ s.blockSize) (h31 : s.blockSize < 2 ^ 31)

include h h4 h31

/-- The two writers on an image of whole blocks. -/
theorem sameImage_of_dvd (hdvd : s.blockSize ∣ len) (env : Env) :
    SameImage env s len ↔ expand s.blockSize (chunksOf env s.blockSize len s.blocks)
      = (plainFrom env s.blockSize 0 s.blocks ++ replicate len 0).take len := by
  have hend := h.endBlock_mul_le hdvd
  have hreg := h.regular hend
  have hchunks := hreg.length_chunksOf_le env hdvd
  have hblks := h.blocks_lt
  have hwrite := sparseFileWrite_stream env hreg
    (by rw [hreg.announcedChunks_eq env hdvd]; omega) false
  obtain ⟨g, hg, hcontents⟩ := (sparseFileWrite_plain env h h4 h31 false).2 hend
  obtain ⟨hd, -, -, -, hparse⟩ := parseStream_stream hreg env hdvd
  have hlen := hreg.length_expand hdvd env
  constructor
  · rintro ⟨f, g', hd', cs, hf, hg', hp, heq⟩
    rw [hwrite] at hf
    cases hf
    rw [hg] at hg'
    cases hg'
    rw [hparse] at hp
    cases hp
    rw [take_of_length_le hlen.le] at heq
    rw [heq, hcontents]
  · intro heq
    refine ⟨_, g, hd, _, hwrite, hg, hparse, ?_⟩
    rw [take_of_length_le hlen.le, heq, hcontents]

/-- An image that is not of whole blocks: the assertion fails, or the stream is short
of a chunk. -/
theorem not_sameImage_of_not_dvd (hdvd : ¬ s.blockSize ∣ len) (env : Env) :
    ¬ SameImage env s len := by
  rintro ⟨f, g, hd, cs, hf, hg, hparse, -⟩
  obtain ⟨hfault, -⟩ := sparseFileWrite_plain env h h4 h31 false
  rcases Nat.lt_or_ge len (endBlock s.blockSize 0 s.blocks * s.blockSize) with hlt | hge
  · rw [hfault hlt] at hg
    cases hg
  · obtain ⟨hannounced, hshort⟩ := (h.regular hge).parseStream_short env hdvd h.blocks_lt
    rw [sparseFileWrite_stream env (h.regular hge) hannounced false] at hf
    cases hf
    rw [hshort] at hparse
    cases hparse

end

end Sparse
