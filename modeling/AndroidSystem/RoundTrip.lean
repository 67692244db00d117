/-
Writing a sparse file and importing it again.

The stream of a regular sparse file is well formed and describes the image of its
block list.  What the importer makes of it is a sequence of additions in
increasing order, so that everything depends on whether two of them are merged
too early:

* `chunksImage_chunksOf` — the chunks describe the image of the block list;
* `stale_nodeRegions` — the additions follow a freed pointer exactly if two
  adjacent fills with the same word have another block behind them;
* `roundTrips_iff` — hence what is written without a checksum can be read back
  exactly if there are no such fills.
-/
import AndroidSystem.SparseImport

open CInt List

namespace Sparse

open Chunk

/-! ### The chunks of a block list -/

variable {bs j : ℕ} {l : List BackedBlock}

theorem chunksImage_append (bs : ℕ) : ∀ (cs cs' : List Chunk) (x : ℕ),
    chunksImage bs (cs ++ cs') x
      = if x < totalSz cs then chunksImage bs cs x else chunksImage bs cs' (x - totalSz cs) := by
  intro cs cs'
  induction cs with
  | nil => exact fun x => rfl
  | cons c cs ih =>
    intro x
    have htot : totalSz (c :: cs) = c.chunkSz + totalSz cs := rfl
    rw [cons_append, chunksImage, chunksImage, ih, htot]
    by_cases hx : x < c.chunkSz
    · rw [if_pos hx, if_pos hx, if_pos (by omega)]
    · rw [if_neg hx, if_neg hx]
      by_cases hx' : x - c.chunkSz < totalSz cs
      · rw [if_pos hx', if_pos (by omega)]
      · rw [if_neg hx', if_neg (by omega), Nat.sub_sub]

theorem chunksImage_skipChunk (bs last next x : ℕ) :
    chunksImage bs (skipChunk last next) x = .dontCare := by
  rw [skipChunk]
  by_cases h : last < next
  · rw [if_pos h, chunksImage, chunksImage]
    exact ite_self _
  · rw [if_neg h, chunksImage]

/-- The content of a block of padded data. -/
theorem padBlocks_content (env : Env) (hbs : 0 < bs) (bb : BackedBlock)
    (hj : j < numBlocks bs bb.len) :
    ((padBlocks bs (bb.bytes env)).drop (j * bs)).take bs
      = (List.range bs).map fun i =>
          if j * bs + i < bb.len then bb.backing.byteAt env (j * bs + i) else 0 := by
  have hle : j * bs + bs ≤ numBlocks bs bb.len * bs := by
    calc j * bs + bs = (j + 1) * bs := by rw [Nat.add_mul, one_mul]
      _ ≤ numBlocks bs bb.len * bs := Nat.mul_le_mul_right _ hj
  have hlen := bb.length_padded env hbs
  apply ext_getElem
  · simp only [length_take, length_drop, length_map, length_range, hlen]
    omega
  · intro i h1 h2
    simp only [getElem_take, getElem_drop, getElem_map, getElem_range,
      padBlocks]
    by_cases hin : j * bs + i < bb.len
    · rw [if_pos hin, getElem_append_left (by rw [bb.length_bytes]; exact hin)]
      simp [BackedBlock.bytes]
    · rw [if_neg hin, getElem_append_right (by rw [bb.length_bytes]; exact not_lt.mp hin),
        getElem_replicate]

/-- The chunk of a node describes what the node denotes. -/
theorem BackedBlock.content_chunk (env : Env) (hbs : 0 < bs) (bb : BackedBlock)
    (hj : j < numBlocks bs bb.len) :
    (bb.chunk env bs).content bs j = bb.backing.content env bs bb.len j := by
  by_cases hfill : bb.backing.type = .fill
  · rw [chunk]
    cases hb : bb.backing <;> rw [hb] at hfill <;> first | rfl | cases hfill
  · rw [Backing.content_of_ne_fill env _ _ hfill, ← padBlocks_content env hbs bb hj, chunk]
    cases hb : bb.backing <;> rw [hb] at hfill <;> first | rfl | exact absurd rfl hfill

theorem image_cons (env : Env) (bs : ℕ) (bb : BackedBlock) (l : List BackedBlock) (x : ℕ) :
    image env bs (bb :: l) x = if bb.block ≤ x ∧ x < bb.stop bs then
      bb.backing.content env bs bb.len (x - bb.block) else image env bs l x := by
  rw [image, IntervalMap.lookup_cons]
  by_cases h : bb.block ≤ x ∧ x < bb.stop bs
  · rw [if_pos h, if_pos (show (blockMap env bs).Covers bb x from h)]
    rfl
  · rw [if_neg h, if_neg (show ¬ (blockMap env bs).Covers bb x from h)]
    rfl

theorem image_before (env : Env) {x : ℕ} (h : ∀ bb ∈ l, x < bb.block) :
    image env bs l x = .dontCare := by
  rw [image, IntervalMap.lookup_eq_none]
  · rfl
  · intro bb hbb hcov
    exact absurd hcov.1 (not_le.mpr (h bb hbb))

theorem chunksImage_chunksFrom (env : Env) (hbs : 0 < bs) :
    ∀ {l : List BackedBlock} {last : ℕ}, Layout bs last l → ∀ x,
    chunksImage bs (chunksFrom env bs last l) x = image env bs l (last + x) := by
  intro l
  induction l with
  | nil => exact fun _ x => rfl
  | cons bb rest ih =>
    intro last h x
    have hb := h.behind bb mem_cons_self
    have hrest := ih h.tail
    have hstop : bb.stop bs = bb.block + numBlocks bs bb.len := rfl
    rw [chunksFrom, chunksImage_append, totalSz_skipChunk, chunksImage_skipChunk, image_cons]
    by_cases hgap : x < bb.block - last
    · rw [if_pos hgap, if_neg (by omega), image_before]
      intro c hc
      have := h.tail.behind c hc
      omega
    · rw [if_neg hgap, chunksImage, bb.chunkSz_chunk]
      by_cases hin : x - (bb.block - last) < numBlocks bs bb.len
      · rw [if_pos hin, if_pos (by omega), bb.content_chunk env hbs hin]
        congr 1
        omega
      · rw [if_neg hin, if_neg (by omega), hrest]
        congr 1
        omega

/-- **The chunks of a sparse file describe the image of its block list.** -/
theorem chunksImage_chunksOf (env : Env) {len : ℕ} (hbs : 0 < bs) (h : Layout bs 0 l) :
    chunksImage bs (chunksOf env bs len l) = image env bs l := by
  funext x
  rw [chunksOf, chunksImage_append, chunksImage_chunksFrom env hbs h, zero_add]
  by_cases hx : x < totalSz (chunksFrom env bs 0 l)
  · rw [if_pos hx]
  · rw [if_neg hx]
    have htail : chunksImage bs
        (if len % bs = 0 then skipChunk (endBlock bs 0 l) (len / bs) else [])
        (x - totalSz (chunksFrom env bs 0 l)) = .dontCare := by
      by_cases hd : len % bs = 0
      · rw [if_pos hd, chunksImage_skipChunk]
      · rw [if_neg hd]
        rfl
    have himg := chunksImage_chunksFrom env hbs h x
    rw [zero_add] at himg
    rw [htail, ← himg, ← append_nil (chunksFrom env bs 0 l), chunksImage_append, if_neg hx]
    rfl

/-! ### The stream is well formed -/

theorem mem_skipChunk {last next : ℕ} {c : Chunk} (h : c ∈ skipChunk last next) :
    c = .dontCare (next - last) := by
  rw [skipChunk] at h
  by_cases hlt : last < next
  · rw [if_pos hlt, mem_singleton] at h
    exact h
  · rw [if_neg hlt] at h
    exact absurd h (by simp)

/-- A chunk is a skip, or the chunk of a node. -/
theorem mem_chunksFrom (env : Env) (bs : ℕ) : ∀ {l : List BackedBlock} {last : ℕ} {c : Chunk},
    c ∈ chunksFrom env bs last l →
    (∃ bb ∈ l, c = bb.chunk env bs) ∨ ∃ bb ∈ l, ∃ k ≤ bb.block, c = .dontCare k := by
  intro l
  induction l with
  | nil => exact fun h => absurd h (by simp [chunksFrom])
  | cons bb rest ih =>
    intro last c h
    rw [chunksFrom, mem_append, mem_cons] at h
    rcases h with h | h | h
    · exact Or.inr ⟨bb, mem_cons_self, _, Nat.sub_le _ _, mem_skipChunk h⟩
    · exact Or.inl ⟨bb, mem_cons_self, h⟩
    · rcases ih h with ⟨d, hd, h⟩ | ⟨d, hd, h⟩
      · exact Or.inl ⟨d, mem_cons_of_mem bb hd, h⟩
      · exact Or.inr ⟨d, mem_cons_of_mem bb hd, h⟩

theorem BackedBlock.wellSized_chunk (env : Env) (hbs : 0 < bs) {bb : BackedBlock}
    (hfits : bb.Fits bs) (hstop : bb.stop bs < 2 ^ 32) : (bb.chunk env bs).WellSized bs := by
  have hsz : numBlocks bs bb.len < 2 ^ 32 := lt_of_le_of_lt (Nat.le_add_left _ _) hstop
  have hplen := bb.length_padded env hbs
  have hraw : bb.backing.type ≠ .fill →
      (raw (numBlocks bs bb.len) (padBlocks bs (bb.bytes env))).WellSized bs := by
    intro htype
    refine ⟨hsz, ?_, ?_⟩
    · show chunkHeaderLen + (padBlocks bs (bb.bytes env)).length < 2 ^ 32
      rw [hplen]
      exact (hfits.raw htype).2.2
    · rintro n bytes ⟨⟩
      exact hplen
  rw [chunk]
  cases hb : bb.backing with
  | fill v =>
    exact ⟨hsz, by norm_num [payload, chunkHeaderLen], fun _ _ h => by cases h⟩
  | data p => exact hraw (by simp [hb, Backing.type])
  | file name o => exact hraw (by simp [hb, Backing.type])
  | fd n o => exact hraw (by simp [hb, Backing.type])

theorem wellSized_dontCare {k : ℕ} (hk : k < 2 ^ 32) : (dontCare k).WellSized bs :=
  ⟨hk, by norm_num [payload, chunkHeaderLen], fun _ _ h => by cases h⟩

namespace SparseFile.Regular

variable {s : SparseFile} {len : ℕ}

section

variable (h : s.Regular len) (env : Env)

include h env

/-- A chunk of the stream is the chunk of a node or a skip. -/
theorem mem_chunksOf {c : Chunk} (hc : c ∈ chunksOf env s.blockSize len s.blocks) :
    (∃ bb ∈ s.blocks, c = bb.chunk env s.blockSize) ∨
      ∃ k ≤ len / s.blockSize, c = .dontCare k := by
  rw [chunksOf, mem_append] at hc
  rcases hc with hc | hc
  · rcases mem_chunksFrom env _ hc with hc | ⟨bb, hbb, k, hk, rfl⟩
    · exact Or.inl hc
    · refine Or.inr ⟨k, hk.trans ?_, rfl⟩
      have h1 := (Nat.le_div_iff_mul_le h.bs_pos).mpr (h.inside bb hbb)
      exact le_trans (Nat.le_add_right _ _) h1
  · by_cases hd : len % s.blockSize = 0
    · rw [if_pos hd] at hc
      exact Or.inr ⟨_, Nat.sub_le _ _, mem_skipChunk hc⟩
    · rw [if_neg hd] at hc
      exact absurd hc (by simp)

theorem wellSized :
    ∀ c ∈ chunksOf env s.blockSize len s.blocks, c.WellSized s.blockSize := by
  intro c hc
  rcases h.mem_chunksOf env hc with ⟨bb, hbb, rfl⟩ | ⟨k, hk, rfl⟩
  · exact bb.wellSized_chunk env h.bs_pos (h.layout.fits bb hbb) (h.layout.stop_lt bb hbb).1
  · exact wellSized_dontCare (lt_of_le_of_lt hk h.blocks_lt)

theorem ne_crc32 :
    ∀ c ∈ chunksOf env s.blockSize len s.blocks, ∀ v, c ≠ .crc32 v := by
  rintro c hc v rfl
  rcases h.mem_chunksOf env hc with ⟨bb, -, heq⟩ | ⟨k, -, heq⟩
  · rw [BackedBlock.chunk] at heq
    cases hb : bb.backing <;> simp [hb] at heq
  · cases heq

theorem chunkSz_le :
    ∀ c ∈ chunksOf env s.blockSize len s.blocks, c.chunkSz ≤ len / s.blockSize := by
  intro c hc
  rcases h.mem_chunksOf env hc with ⟨bb, hbb, rfl⟩ | ⟨k, hk, rfl⟩
  · rw [bb.chunkSz_chunk]
    exact le_trans (Nat.le_add_left _ _)
      ((Nat.le_div_iff_mul_le h.bs_pos).mpr (h.inside bb hbb))
  · exact hk

theorem chunkSz_pos :
    ∀ c ∈ chunksOf env s.blockSize len s.blocks, 0 < c.chunkSz := by
  intro c hc
  rw [chunksOf, mem_append] at hc
  rcases hc with hc | hc
  · exact chunksFrom_pos env h.bs_pos h.layout c hc
  · by_cases hd : len % s.blockSize = 0
    · rw [if_pos hd, skipChunk] at hc
      by_cases hlt : endBlock s.blockSize 0 s.blocks < len / s.blockSize
      · rw [if_pos hlt, mem_singleton] at hc
        subst hc
        exact Nat.sub_pos_of_lt hlt
      · rw [if_neg hlt] at hc
        exact absurd hc (by simp)
    · rw [if_neg hd] at hc
      exact absurd hc (by simp)

variable (hdvd : s.blockSize ∣ len)
include hdvd

theorem totalSz_chunksOf :
    totalSz (chunksOf env s.blockSize len s.blocks) = len / s.blockSize := by
  have h1 := totalSz_chunksFrom env h.layout
  have h2 := h.endBlock_le
  rw [chunksOf, totalSz_append, if_pos (Nat.mod_eq_zero_of_dvd hdvd), totalSz_skipChunk]
  omega

theorem totalSz_lt :
    0 + totalSz (chunksOf env s.blockSize len s.blocks) < 2 ^ 32 := by
  rw [h.totalSz_chunksOf env hdvd, zero_add]
  exact h.blocks_lt

/-- As many chunks are announced as are written. -/
theorem announcedChunks_eq :
    announcedChunks env s.blockSize len s.blocks
      = (chunksOf env s.blockSize len s.blocks).length := by
  have hnb : numBlocks s.blockSize len = len / s.blockSize := by
    obtain ⟨q, rfl⟩ := hdvd
    rw [mul_comm, numBlocks_mul h.bs_pos, Nat.mul_div_cancel _ h.bs_pos]
  rw [announcedChunks, chunksOf, length_append, if_pos (Nat.mod_eq_zero_of_dvd hdvd), hnb,
    skipChunk]
  by_cases hlt : endBlock s.blockSize 0 s.blocks < len / s.blockSize
  · rw [if_pos hlt, if_pos hlt, length_singleton]
  · rw [if_neg hlt, if_neg hlt, length_nil]

theorem length_chunksOf_le :
    (chunksOf env s.blockSize len s.blocks).length ≤ len / s.blockSize := by
  rw [← h.totalSz_chunksOf env hdvd]
  exact length_le_totalSz (h.chunkSz_pos env)

end

end SparseFile.Regular

variable {chunks bs : ℕ}

/-- The header of a stream reads as it was written. -/
theorem readSparseHeader_encode {len : ℕ} (hbs32 : bs < 2 ^ 32) (crc : Bool) (rest : List UInt8) :
    readSparseHeader ((sparseHeader bs len chunks crc).encode ++ rest)
      = .ok (sparseHeader bs len chunks crc) := by
  have hlen : (sparseHeader bs len chunks crc).encode.length = sparseHeaderLen :=
    SparseHeader.length_encode _
  rw [readSparseHeader_eq_ok]
  refine ⟨?_, ?_, rfl, rfl, le_rfl, le_rfl⟩
  · rw [length_append, hlen]
    omega
  · rw [take_left' hlen, SparseHeader.decode_encode] <;>
      first
      | exact hbs32
      | exact u32_lt _
      | (simp only [sparseHeader, toU32]; omega)
      | norm_num [sparseHeader, sparseHeaderMagic, sparseHeaderLen, chunkHeaderLen]

theorem sparseHeader_totalBlks {len : ℕ} (hlt : len / bs < 2 ^ 32) (crc : Bool) :
    (sparseHeader bs len chunks crc).totalBlks = len / bs := by
  show toU32 ((len : ℤ).tdiv bs) = len / bs
  rw [Int.tdiv_eq_ediv_of_nonneg (by omega), ← Int.natCast_ediv, toU32_natCast, u32_of_lt hlt]

/-! ### Which additions are merged -/

variable {fd : ℕ}

/-- The region that the reader adds for a node whose chunk header is at `pos`. -/
def nodeRegion (bs fd pos : ℕ) (bb : BackedBlock) : Region where
  backing :=
    match bb.backing with
    | .fill v => .fill v
    | _ => .fd fd (pos + chunkHeaderLen)
  len := u32 (numBlocks bs bb.len * bs)
  block := u32 bb.block
  len_lt := u32_lt _
  block_lt := u32_lt _

/-- The regions that the reader adds for a block list. -/
def nodeRegions (env : Env) (bs fd : ℕ) : ℕ → ℕ → List BackedBlock → List Region
  | _, _, [] => []
  | pos, last, bb :: rest =>
    let here := pos + chunkHeaderLen * (skipChunk last bb.block).length
    nodeRegion bs fd here bb :: nodeRegions env bs fd
      (here + chunkHeaderLen + (bb.chunk env bs).payload.length) (bb.stop bs) rest

theorem region_chunk (env : Env) (bs fd pos : ℕ) (bb : BackedBlock) :
    (bb.chunk env bs).region chunkHeaderLen bs fd pos bb.block
      = some (nodeRegion bs fd pos bb) := by
  rw [BackedBlock.chunk, nodeRegion]
  cases bb.backing <;> rfl

theorem chunkRegions_skipChunk (bs fd pos cur last next : ℕ) (cs : List Chunk) :
    chunkRegions chunkHeaderLen bs fd pos cur (skipChunk last next ++ cs)
      = chunkRegions chunkHeaderLen bs fd (pos + chunkHeaderLen * (skipChunk last next).length)
          (cur + (next - last)) cs := by
  rw [skipChunk]
  by_cases h : last < next
  · rw [if_pos h, singleton_append, chunkRegions]
    simp [Chunk.region, payload, chunkSz]
  · rw [if_neg h, nil_append, length_nil, mul_zero, add_zero,
      show cur + (next - last) = cur by omega]

/-- The regions for the chunks of a block list, whatever skip follows. -/
theorem chunkRegions_chunksFrom (env : Env) : ∀ {l : List BackedBlock}
    {pos last : ℕ} (cs : List Chunk), Layout bs last l → (∀ c ∈ cs, ∃ k, c = .dontCare k) →
    chunkRegions chunkHeaderLen bs fd pos last (chunksFrom env bs last l ++ cs)
      = nodeRegions env bs fd pos last l := by
  intro l
  induction l with
  | nil =>
    intro pos last cs h hcs
    clear h
    rw [chunksFrom, nil_append, nodeRegions]
    induction cs generalizing pos last with
    | nil => rfl
    | cons c cs ih =>
      obtain ⟨k, rfl⟩ := hcs c mem_cons_self
      rw [chunkRegions, ih fun c hc => hcs c (mem_cons_of_mem _ hc)]
      rfl
  | cons bb rest ih =>
    intro pos last cs h hcs
    have hb := h.behind bb mem_cons_self
    rw [chunksFrom, append_assoc, cons_append, chunkRegions_skipChunk,
      show last + (bb.block - last) = bb.block by omega, chunkRegions, region_chunk,
      bb.chunkSz_chunk, nodeRegions]
    show _ :: chunkRegions chunkHeaderLen bs fd _ (bb.stop bs) _ = _
    rw [ih cs h.tail hcs]

/-- Two adjacent nodes filled with the same word. -/
def BackedBlock.FillJoins (bs : ℕ) (a b : BackedBlock) : Prop :=
  a.stop bs = b.block ∧ ∃ v, a.backing = .fill v ∧ b.backing = .fill v

/-- Only fills are merged by the reader: between the payloads of two raw chunks
there is at least one chunk header. -/
theorem nodeRegion_joins {pos pos' : ℕ} (hbs : 0 < bs) {a b : BackedBlock}
    (hlen : numBlocks bs a.len * bs < 2 ^ 32) (hstop : a.stop bs < 2 ^ 32)
    (hpos : a.backing.type ≠ .fill → pos + chunkHeaderLen + numBlocks bs a.len * bs ≤ pos') :
    (nodeRegion bs fd pos a).Joins bs (nodeRegion bs fd pos' b) ↔ a.FillJoins bs b := by
  have hadj : u32 (u32 a.block + u32 (numBlocks bs a.len * bs) / bs) = a.stop bs := by
    rw [u32_of_lt a.block_lt, u32_of_lt hlen, Nat.mul_div_cancel _ hbs]
    exact u32_of_lt hstop
  have hb : u32 b.block = b.block := u32_of_lt b.block_lt
  have hl : u32 (numBlocks bs a.len * bs) = numBlocks bs a.len * bs := u32_of_lt hlen
  have hhdr : 0 < chunkHeaderLen := by norm_num [chunkHeaderLen]
  rw [Region.Joins, BackedBlock.FillJoins]
  refine and_congr (by simp only [nodeRegion, hadj, hb]) ?_
  simp only [nodeRegion, hl]
  cases ha : a.backing with
  | fill v => cases hb' : b.backing <;> simp [Backing.Continues, eq_comm]
  | data | file | fd =>
    have := hpos (by simp [ha, Backing.type])
    cases hb' : b.backing <;> simp [Backing.Continues]
    all_goals omega

/-- Two adjacent fills with the same word that have another node behind them. -/
def SplitFill (bs : ℕ) (l : List BackedBlock) : Prop :=
  ∃ pre a b c post, l = pre ++ a :: b :: c :: post ∧ a.FillJoins bs b

theorem splitFill_cons (a b c : BackedBlock) (l : List BackedBlock) :
    SplitFill bs (a :: b :: c :: l) ↔ a.FillJoins bs b ∨ SplitFill bs (b :: c :: l) := by
  constructor
  · rintro ⟨pre, a', b', c', post, heq, hj⟩
    cases pre with
    | nil =>
      cases heq
      exact Or.inl hj
    | cons d pre =>
      right
      exact ⟨pre, a', b', c', post, (cons_eq_cons.mp heq).2, hj⟩
  · rintro (hj | ⟨pre, a', b', c', post, heq, hj⟩)
    · exact ⟨[], a, b, c, l, rfl, hj⟩
    · exact ⟨a :: pre, a', b', c', post, by rw [heq]; rfl, hj⟩

theorem not_splitFill_short {l : List BackedBlock} (h : l.length < 3) :
    ¬ SplitFill bs l := by
  rintro ⟨pre, a, b, c, post, heq, -⟩
  rw [heq] at h
  simp at h
  omega

/-- The reader follows a freed pointer exactly if two fills are split. -/
theorem stale_nodeRegions (env : Env) (hbs : 0 < bs) : ∀ {l : List BackedBlock}
    {pos last : ℕ}, Layout bs last l →
    (Stale bs (nodeRegions env bs fd pos last l) ↔ SplitFill bs l) := by
  intro l
  induction l with
  | nil =>
    intro pos last _
    exact iff_of_false id (not_splitFill_short (by simp))
  | cons a l ih =>
    intro pos last h
    rcases l with - | ⟨b, - | ⟨c, rest⟩⟩
    · exact iff_of_false id (not_splitFill_short (by simp))
    · exact iff_of_false id (not_splitFill_short (by simp))
    · have hfits := h.fits a mem_cons_self
      have hlen : numBlocks bs a.len * bs < 2 ^ 32 := by
        have h1 : numBlocks bs a.len * bs ≤ a.len + bs - 1 := Nat.div_mul_le_self _ _
        have := hfits.round
        omega
      rw [splitFill_cons, ← ih h.tail]
      refine or_congr ?_ Iff.rfl
      refine nodeRegion_joins hbs hlen (h.stop_lt a mem_cons_self).1 fun htype => ?_
      have hpay : (a.chunk env bs).payload.length = numBlocks bs a.len * bs := by
        rw [BackedBlock.chunk]
        cases ha : a.backing <;> rw [ha] at htype <;>
          first
          | exact absurd rfl htype
          | (show (padBlocks bs (a.bytes env)).length = _
             rw [length_padBlocks hbs, a.length_bytes])
      rw [hpay]
      omega

/-! ### Without a checksum -/

/-- The bytes of a file behind descriptor `fd`. -/
def Env.withFd (env : Env) (fd : ℕ) (file : List UInt8) : Env :=
  { env with fd := fun n i => if n = fd then file.getD i 0 else env.fd n i }

theorem Env.withFd_fd (env : Env) (fd : ℕ) (file : List UInt8) (i : ℕ) :
    (env.withFd fd file).fd fd i = file.getD i 0 :=
  if_pos rfl

/-- A sequence of `sparse_file_add_*` calls on a new sparse file. -/
def sparseFileBuild (bs : ℕ) (len : ℤ) (rs : List Region) : Except Fault SparseFile := do
  let bbl ← addRegions (sparseFileNew bs len).backedBlockList rs
  .ok { sparseFileNew bs len with backedBlockList := bbl }

/-- What is written without a checksum is accepted by the importer and read back
as the same image; the header counts the chunks and the blocks. -/
def RoundTrips (env : Env) (fd : ℕ) (s : SparseFile) : Prop :=
  ∃ f s', sparseFileWrite env s ⟨[], 0⟩ true false = .ok (f, 0) ∧
    sparseFileImport f.contents fd false = .ok (some s') ∧
    s'.blockSize = s.blockSize ∧ s'.len = s.len ∧
    image (env.withFd fd f.contents) s.blockSize s'.blocks = image env s.blockSize s.blocks ∧
    ∃ (hd : SparseHeader) (cs : List Chunk), f.contents = hd.encode ++ cs.flatMap Chunk.encode ∧
      hd.totalChunks = cs.length ∧ hd.totalBlks = totalSz cs

section

variable {s : SparseFile} {len : ℕ}

theorem stream_false (env : Env) (s : SparseFile) (len : ℕ) :
    s.stream env len false = (sparseHeader s.blockSize len
        (announcedChunks env s.blockSize len s.blocks) false).encode
      ++ (chunksOf env s.blockSize len s.blocks).flatMap encode := by
  rw [SparseFile.stream, if_neg (by simp), append_nil]

theorem drop_encode (hd : SparseHeader) (b : List UInt8) :
    (hd.encode ++ b).drop sparseHeaderLen = b :=
  drop_left' hd.length_encode

section

variable (h : s.Regular len) (env : Env)

include h env

/-- The regions that are added for the stream of a sparse file. -/
theorem chunkRegions_chunksOf (fd : ℕ) :
    chunkRegions chunkHeaderLen s.blockSize fd sparseHeaderLen 0
        (chunksOf env s.blockSize len s.blocks)
      = nodeRegions env s.blockSize fd sparseHeaderLen 0 s.blocks := by
  refine chunkRegions_chunksFrom env _ h.layout fun c hc => ?_
  by_cases hd : len % s.blockSize = 0
  · rw [if_pos hd] at hc
    exact ⟨_, mem_skipChunk hc⟩
  · rw [if_neg hd] at hc
    exact absurd hc (by simp)

/-- The header of the stream. -/
theorem stream_header (hdvd : s.blockSize ∣ len) (crc : Bool) :
    ∃ hd, hd = sparseHeader s.blockSize len (announcedChunks env s.blockSize len s.blocks) crc ∧
      readSparseHeader (s.stream env len crc) = .ok hd ∧ hd.totalBlks = len / s.blockSize ∧
      hd.totalChunks = u32 ((chunksOf env s.blockSize len s.blocks).length + crc.toNat) := by
  refine ⟨_, rfl, ?_, sparseHeader_totalBlks h.blocks_lt crc, ?_⟩
  · rw [SparseFile.stream, append_assoc]
    exact readSparseHeader_encode s.backedBlockList.blockSize_lt crc _
  · show u32 (if crc then announcedChunks env s.blockSize len s.blocks + 1
      else announcedChunks env s.blockSize len s.blocks) = _
    rw [h.announcedChunks_eq env hdvd]
    cases crc <;> rfl

/-- The chunks of the stream are read back. -/
theorem parseChunks_stream : parseChunks chunkHeaderLen s.blockSize
    (chunksOf env s.blockSize len s.blocks).length
    ((s.stream env len false).drop sparseHeaderLen)
      = some (chunksOf env s.blockSize len s.blocks) := by
  have henc := parseChunks_encode (h.wellSized env) []
  rw [append_nil] at henc
  rw [stream_false, drop_encode, henc]

/-- The stream is well formed. -/
theorem parseStream_stream (hdvd : s.blockSize ∣ len) :
    ∃ hd, hd = sparseHeader s.blockSize len (announcedChunks env s.blockSize len s.blocks) false ∧
      hd.totalBlks = len / s.blockSize ∧
      hd.totalChunks = (chunksOf env s.blockSize len s.blocks).length ∧
      parseStream (s.stream env len false) = some (hd, chunksOf env s.blockSize len s.blocks) := by
  have hchunks := h.length_chunksOf_le env hdvd
  have hblks := h.blocks_lt
  obtain ⟨hd, hhd, hread, htotal, hcount⟩ := stream_header h env hdvd false
  rw [Bool.toNat_false, add_zero, u32_of_lt (by omega)] at hcount
  refine ⟨hd, hhd, htotal, hcount, parseStream_eq_some.mpr ⟨hread, ?_, ?_⟩⟩
  · rw [hcount, hhd]
    exact parseChunks_stream h env
  · rw [h.totalSz_chunksOf env hdvd, htotal]

omit env in
theorem i64_blocks (hdvd : s.blockSize ∣ len) :
    i64 ((len / s.blockSize * s.blockSize : ℕ) : ℤ) = s.len := by
  have := h.len_lt
  rw [Nat.div_mul_cancel hdvd, i64_of_range (by omega) (by omega), h.len_eq]

/-- The import of the stream is a sequence of additions. -/
theorem sparseFileImport_stream (fd : ℕ) (hdvd : s.blockSize ∣ len)
    (hn : len / s.blockSize < 2 ^ 31) :
    sparseFileImport (s.stream env len false) fd false = (do
      let bbl ← addRegions (backedBlockListNew s.blockSize)
        (nodeRegions env s.blockSize fd sparseHeaderLen 0 s.blocks)
      .ok (some { len := s.len, backedBlockList := bbl })) := by
  obtain ⟨hd, hhd, hblks, -, hstream⟩ := parseStream_stream h env hdvd
  obtain ⟨hread, hparse, htot⟩ := parseStream_eq_some.mp hstream
  have hblk : hd.blkSz = s.blockSize := by rw [hhd]; rfl
  rw [sparseFileImport_of_parse hread (by rw [hblk]; exact h.bs_pos) hparse (h.ne_crc32 env)
    (fun c hc => lt_of_le_of_lt (h.chunkSz_le env c hc) hn) htot, hblks, hblk,
    i64_blocks h hdvd,
    show hd.chunkHdrSz = chunkHeaderLen by rw [hhd]; rfl,
    show hd.fileHdrSz = sparseHeaderLen by rw [hhd]; rfl, chunkRegions_chunksOf h env fd]

/-- The block numbers of the regions that are added increase. -/
theorem nodeRegions_increasing (fd : ℕ) (hdvd : s.blockSize ∣ len) :
    (nodeRegions env s.blockSize fd sparseHeaderLen 0 s.blocks).Pairwise
      fun a b => a.block < b.block := by
  rw [← chunkRegions_chunksOf h env fd]
  exact chunkRegions_increasing h.bs_pos (h.totalSz_lt env hdvd) (h.chunkSz_pos env)

/-- Two regions of the stream have at most `len` bytes together. -/
theorem nodeRegions_len_add (fd : ℕ) (hdvd : s.blockSize ∣ len) {pre : List Region} {a b : Region}
    (heq : nodeRegions env s.blockSize fd sparseHeaderLen 0 s.blocks = pre ++ [a, b]) :
    a.len + b.len ≤ len := by
  have htot := h.totalSz_lt env hdvd
  have hb : b ∈ chunkRegions chunkHeaderLen s.blockSize fd sparseHeaderLen 0
      (chunksOf env s.blockSize len s.blocks) := by
    rw [chunkRegions_chunksOf h env fd, heq]
    simp
  have hble := (chunkRegions_bounds h.bs_pos htot b hb).2
  have hord : (chunkRegions chunkHeaderLen s.blockSize fd sparseHeaderLen 0
      (chunksOf env s.blockSize len s.blocks)).Pairwise _ := chunkRegions_ordered h.bs_pos htot
  rw [chunkRegions_chunksOf h env fd, heq] at hord
  have hab := (pairwise_cons.mp (pairwise_append.mp hord).2.1).1 b mem_cons_self
  rw [h.totalSz_chunksOf env hdvd] at hble
  have h1 := le_numBlocks_mul h.bs_pos a.len
  have h2 := le_numBlocks_mul h.bs_pos b.len
  calc a.len + b.len
      ≤ (numBlocks s.blockSize a.len + numBlocks s.blockSize b.len) * s.blockSize := by
        rw [Nat.add_mul]
        omega
    _ ≤ len / s.blockSize * s.blockSize := Nat.mul_le_mul_right _ (by omega)
    _ ≤ len := Nat.div_mul_le_self _ _

/-- What the additions leave denotes the image of the sparse file, if its length
is below 4 GiB. -/
theorem image_settle (fd : ℕ) (hdvd : s.blockSize ∣ len) (hlen32 : len < 2 ^ 32)
    {l : List BackedBlock}
    (hl : l.map BackedBlock.region = settle s.blockSize
      (nodeRegions env s.blockSize fd sparseHeaderLen 0 s.blocks)) :
    image (env.withFd fd (s.stream env len false)) s.blockSize l
      = image env s.blockSize s.blocks := by
  obtain ⟨env', henv'⟩ : ∃ env', env' = env.withFd fd (s.stream env len false) := ⟨_, rfl⟩
  have htot := h.totalSz_lt env hdvd
  have hord : (nodeRegions env s.blockSize fd sparseHeaderLen 0 s.blocks).Pairwise
      fun a b => a.block + numBlocks s.blockSize a.len ≤ b.block := by
    rw [← chunkRegions_chunksOf h env fd]
    exact chunkRegions_ordered h.bs_pos htot
  have hlook : (blockMap env' s.blockSize).lookup l = (blockMap env' s.blockSize).lookup
      ((nodeRegions env s.blockSize fd sparseHeaderLen 0 s.blocks).map (·.node 0)) := by
    rw [lookup_region, hl, lookup_settle env' h.bs_pos hord]
    intro pre a b heq _
    have := nodeRegions_len_add h env fd hdvd heq
    omega
  have hfill : ∀ k v, Chunk.fill k v ∈ chunksOf env s.blockSize len s.blocks →
      k * s.blockSize < 2 ^ 32 := by
    intro k v hk
    have hle : k ≤ len / s.blockSize := h.chunkSz_le env _ hk
    exact lt_of_le_of_lt ((Nat.le_div_iff_mul_le h.bs_pos).mp hle) hlen32
  have henv : ∀ i, env'.fd fd i = (s.stream env len false).getD i 0 := by
    intro i
    rw [henv', Env.withFd_fd]
  funext x
  have himg := image_chunkRegions henv h.bs_pos (parseChunks_stream h env) hfill htot x
  rw [chunkRegions_chunksOf h env fd, chunksImage_chunksOf env h.bs_pos h.layout, zero_add] at himg
  rw [← henv', image, hlook, himg]

/-- **Write and import** of a regular sparse file of less than 4 GiB. -/
theorem roundTrips_of_regular (fd : ℕ) (hdvd : s.blockSize ∣ len) (hn : len / s.blockSize < 2 ^ 31)
    (hlen32 : len < 2 ^ 32) :
    RoundTrips env fd s ↔ ¬ SplitFill s.blockSize s.blocks := by
  have hchunks := h.length_chunksOf_le env hdvd
  have hwrite := sparseFileWrite_stream env h
    (by rw [h.announcedChunks_eq env hdvd]; omega) false
  have himport := sparseFileImport_stream h env fd hdvd hn
  have hbs32 : s.blockSize < 2 ^ 32 := s.backedBlockList.blockSize_lt
  obtain ⟨hfine, hstale⟩ := addRegions_increasing h.bs_pos hbs32
    (nodeRegions_increasing h env fd hdvd)
  rw [stale_nodeRegions env h.bs_pos h.layout] at hfine hstale
  constructor
  · rintro ⟨f, s', hf, hs', -⟩ hsplit
    rw [hwrite] at hf
    cases hf
    rw [himport, hstale hsplit] at hs'
    cases hs'
  · intro hsplit
    obtain ⟨bbl, hadd, hsize, hl⟩ := hfine hsplit
    obtain ⟨hd, hhd, hblks, hcount, -⟩ := parseStream_stream h env hdvd
    refine ⟨_, ⟨s.len, bbl⟩, hwrite, ?_, hsize, rfl, image_settle h env fd hdvd hlen32 hl, hd,
      chunksOf env s.blockSize len s.blocks, ?_, hcount, ?_⟩
    · rw [himport, hadd]
      rfl
    · rw [stream_false, hhd]
    · rw [hblks, h.totalSz_chunksOf env hdvd]

end

end

/-- A sparse file that was built from disjoint regions inside an image of less
than 2 GiB is regular. -/
theorem sparseFileBuild_regular {bs len : ℕ} (hbs : 0 < bs) (hlen : 0 < len) (hdvd : bs ∣ len)
    (hlen31 : len < 2 ^ 31) {rs : List Region} (hpos : ∀ r ∈ rs, 0 < r.len)
    (hdisj : rs.Pairwise (Region.Disjoint bs))
    (hin : ∀ r ∈ rs, r.block + numBlocks bs r.len ≤ len / bs) {s : SparseFile}
    (hbuild : sparseFileBuild bs len rs = .ok s) : s.blockSize = bs ∧ s.Regular len := by
  have hle : bs ≤ len := Nat.le_of_dvd hlen hdvd
  have hmul : len / bs * bs = len := Nat.div_mul_cancel hdvd
  have hdiv : len / bs ≤ len := Nat.div_le_self _ _
  obtain ⟨bbl, hadd, rfl⟩ : ∃ bbl, addRegions (backedBlockListNew bs) rs = .ok bbl ∧
      s = ⟨i64 len, bbl⟩ := by
    obtain ⟨bbl, hadd, h⟩ := bind_eq_ok hbuild
    simp only [Except.ok.injEq, sparseFileNew] at h
    exact ⟨bbl, hadd, h.symm⟩
  have hsize : bbl.blockSize = bs := (addRegions_blockSize hadd).trans (u32_of_lt (by omega))
  -- the regions have fewer than `2 ^ 32` bytes in all
  have env := Env.zero
  have hsum : (rs.map (·.len)).sum < 2 ^ 32 := by
    have hapart : (rs.map (·.node 0)).Pairwise (blockMap env bs).Apart :=
      pairwise_map.mpr hdisj
    have hblocks := (blockMap env bs).sum_length_le hapart (n := len / bs) (by
      intro m hm
      obtain ⟨r, hr, rfl⟩ := mem_map.mp hm
      exact hin r hr)
    have hbytes : (rs.map (·.len)).sum
        ≤ ((rs.map (·.node 0)).map fun m => (blockMap env bs).hi m - (blockMap env bs).lo m).sum
          * bs := by
      rw [map_map, ← sum_map_mul_right]
      refine sum_le_sum fun r _ => (le_numBlocks_mul hbs r.len).trans_eq ?_
      exact congrArg (· * bs) (Nat.add_sub_cancel_left r.block _).symm
    calc (rs.map (·.len)).sum ≤ _ * bs := hbytes
      _ ≤ len / bs * bs := Nat.mul_le_mul_right _ hblocks
      _ < 2 ^ 32 := by omega
  obtain ⟨bbl', hadd', hord, hlook, -⟩ := (addRegions_new hbs (by omega) hpos hdisj hsum
    env).resolve_left fun h => by rw [hadd] at h; cases h.1
  rw [hadd] at hadd'
  cases hadd'
  have hinside : ∀ bb ∈ bbl.dataBlocks, bb.stop bs ≤ len / bs := by
    intro bb hbb
    have hlt := lt_stop hbs (hord.pos bb hbb)
    -- the last block of the node belongs to a region
    have hcov : (blockMap env bs).Covers bb (bb.stop bs - 1) :=
      ⟨by show bb.block ≤ _; omega, by show _ < bb.stop bs; omega⟩
    have hsome := (blockMap env bs).lookup_eq_of_mem (hord.apart env) hbb hcov
    rw [hlook] at hsome
    obtain ⟨m, hm, hmx, -⟩ := (blockMap env bs).exists_covers_of_lookup hsome
    obtain ⟨r, hr, rfl⟩ := mem_map.mp hm
    have hr' := hin r (by simpa using hr)
    have hx : bb.stop bs - 1 < r.block + numBlocks bs r.len := hmx.2
    omega
  have hbytes : ∀ bb ∈ bbl.dataBlocks, bb.stop bs * bs ≤ len := by
    intro bb hbb
    exact (Nat.mul_le_mul_right bs (hinside bb hbb)).trans_eq hmul
  have hround : ∀ bb ∈ bbl.dataBlocks, numBlocks bs bb.len * bs ≤ len := by
    intro bb hbb
    exact (Nat.mul_le_mul_right bs (Nat.le_add_left _ _)).trans (hbytes bb hbb)
  refine ⟨hsize, ?_⟩
  have hsize' : (⟨i64 len, bbl⟩ : SparseFile).blockSize = bs := hsize
  have hlen' : (⟨i64 len, bbl⟩ : SparseFile).len = len := by
    simp only
    exact i64_of_range (by omega) (by omega)
  refine ⟨by rw [hsize']; exact hbs, hlen', by omega, by rw [hsize']; omega, ?_,
    by rw [hsize']; exact hbytes⟩
  rw [hsize']
  refine ⟨hord, fun bb _ => Nat.zero_le _, ?_, ?_⟩
  · intro bb hbb
    have h1 := le_numBlocks_mul hbs bb.len
    have h2 := hround bb hbb
    exact ⟨by omega, fun _ => ⟨by omega, by omega, by norm_num [chunkHeaderLen]; omega⟩⟩
  · intro bb hbb
    have h1 := hinside bb hbb
    have h2 := hbytes bb hbb
    exact ⟨by omega, by omega⟩

/-- **Write and import without a checksum.**  A sparse file that was built from
disjoint regions inside an image of less than 2 GiB is written and read back as
the same image, exactly if no two adjacent fills with the same word are separate
nodes with another node behind them. -/
theorem roundTrips_iff (env : Env) (fd : ℕ) {bs len : ℕ} (hbs : 0 < bs) (hlen : 0 < len)
    (hdvd : bs ∣ len) (hlen31 : len < 2 ^ 31) {rs : List Region} (hpos : ∀ r ∈ rs, 0 < r.len)
    (hdisj : rs.Pairwise (Region.Disjoint bs))
    (hin : ∀ r ∈ rs, r.block + numBlocks bs r.len ≤ len / bs) {s : SparseFile}
    (hbuild : sparseFileBuild bs len rs = .ok s) :
    RoundTrips env fd s ↔ ¬ ∃ pre a b c post, s.blocks = pre ++ a :: b :: c :: post ∧
      a.stop bs = b.block ∧ ∃ v, a.backing = .fill v ∧ b.backing = .fill v := by
  obtain ⟨hsize, h⟩ := sparseFileBuild_regular hbs hlen hdvd hlen31 hpos hdisj hin hbuild
  have hdiv : len / bs ≤ len := Nat.div_le_self _ _
  rw [roundTrips_of_regular h env fd (by rw [hsize]; exact hdvd) (by rw [hsize]; omega)
    (by omega), hsize]
  rfl

/-- A fill of two blocks and data that ends inside the third. -/
theorem roundTrips_fill_data : ∃ s, sparseFileBuild 4 12
    [⟨.data 0, 3, 2, by decide, by decide⟩, ⟨.fill 7, 8, 0, by decide, by decide⟩] = .ok s ∧
    RoundTrips Env.zero 5 s := by
  obtain ⟨s, hs, hshort⟩ : ∃ s, sparseFileBuild 4 12 [⟨.data 0, 3, 2, by decide, by decide⟩,
      ⟨.fill 7, 8, 0, by decide, by decide⟩] = .ok s ∧ s.blocks.length < 3 :=
    ⟨_, rfl, by decide⟩
  refine ⟨s, hs, (roundTrips_iff Env.zero 5 (by decide) (by decide : 0 < 12) (by decide)
    (by decide) (by decide) (by decide) (by decide) hs).mpr ?_⟩
  exact not_splitFill_short hshort

/-- Two fills of one block each, the second added first, with data behind them:
the importer merges the fills and then follows the pointer to the node it has
freed. -/
theorem not_roundTrips_split_fill : ∃ s, sparseFileBuild 4 12
    [⟨.fill 7, 4, 1, by decide, by decide⟩, ⟨.fill 7, 4, 0, by decide, by decide⟩,
      ⟨.data 0, 4, 2, by decide, by decide⟩] = .ok s ∧ ¬ RoundTrips Env.zero 5 s := by
  obtain ⟨s, hs, hrun⟩ : ∃ s, sparseFileBuild 4 12 [⟨.fill 7, 4, 1, by decide, by decide⟩,
      ⟨.fill 7, 4, 0, by decide, by decide⟩, ⟨.data 0, 4, 2, by decide, by decide⟩] = .ok s ∧
      (sparseFileWrite Env.zero s ⟨[], 0⟩ true false >>= fun p =>
        sparseFileImport p.1.contents 5 false) = .error .useAfterFree :=
    ⟨_, rfl, by decide +kernel⟩
  refine ⟨s, hs, ?_⟩
  rintro ⟨f, s', hf, hs', -⟩
  simp only [hf, bind, Except.bind, hs'] at hrun
  cases hrun

end Sparse
