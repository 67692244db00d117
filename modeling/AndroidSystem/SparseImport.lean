/-
The reader on well-formed streams.

On a stream that `parseStream` accepts, the loop of `sparse_file_read_sparse`
amounts to a sequence of additions to the block list, one for each raw or fill
chunk (`chunkRegions`):

* `readChunk_of_parse`, `readChunks_of_parse` — one chunk, and the loop;
* `image_chunkRegions` — the regions denote what the chunks describe;
* `sparseFileImport_of_header` — the whole import, once the header is known.
-/
import AndroidSystem.BackedBlockSeq
import AndroidSystem.SparseRead

open CInt List

namespace Sparse

open Chunk

/-! ### The checksum loops -/

/-- The loop over the payload of a raw chunk reads all of it. -/
theorem rawCrcLoop_eq (file : List UInt8) : ∀ (rounds len pos : ℕ) (crc : UInt32),
    len ≤ rounds → len ≤ file.length - pos →
    rawCrcLoop file rounds len pos crc = .ok (sparseCrc32 crc ((file.drop pos).take len)) := by
  intro rounds
  induction rounds with
  | zero =>
    intro len pos crc h _
    rw [Nat.le_zero.mp h, rawCrcLoop, take_zero, sparseCrc32_nil]
  | succ rounds ih =>
    intro len pos crc h hfile
    rw [rawCrcLoop]
    by_cases hz : len = 0
    · rw [if_pos hz, hz, take_zero, sparseCrc32_nil]
    · have hchunk : 0 < min len copyBufSize := by
        rw [copyBufSize]
        omega
      have hle : min len copyBufSize ≤ len := min_le_left _ _
      rw [if_neg hz]
      simp only [readAll, if_pos (hle.trans hfile), bind, Except.bind]
      rw [ih _ _ _ (by omega) (by omega), sparseCrc32_append, ← drop_drop, ← take_add]
      congr 3
      omega

/-- The loop over a periodic buffer. -/
theorem bufCrcLoop_eq {copybuf : ℕ → UInt8} (hper : ∀ i, copybuf (copyBufSize + i) = copybuf i) :
    ∀ (rounds len : ℕ) (crc : UInt32), len ≤ rounds →
    bufCrcLoop copybuf rounds len crc = sparseCrc32 crc ((range len).map copybuf) := by
  intro rounds
  induction rounds with
  | zero =>
    intro len crc h
    rw [Nat.le_zero.mp h, bufCrcLoop, range_zero, map_nil, sparseCrc32_nil]
  | succ rounds ih =>
    intro len crc h
    rw [bufCrcLoop]
    by_cases hz : len = 0
    · rw [if_pos hz, hz, range_zero, map_nil, sparseCrc32_nil]
    · have hchunk : 0 < min len copyBufSize := by
        rw [copyBufSize]
        omega
      rw [if_neg hz, ih _ _ (by omega), sparseCrc32_append]
      congr 1
      by_cases hlong : len ≤ copyBufSize
      · rw [min_eq_left hlong, Nat.sub_self, range_zero, map_nil, append_nil]
      · rw [min_eq_right (by omega)]
        conv_rhs => rw [show len = copyBufSize + (len - copyBufSize) by omega, range_add,
          map_append, map_map]
        refine congrArg (map copybuf (range copyBufSize) ++ ·) ?_
        apply map_congr_left
        intro i _
        exact (hper i).symm

theorem fillByte_periodic (v : UInt32) (i : ℕ) : fillByte v (copyBufSize + i) = fillByte v i := by
  rw [fillByte, fillByte, copyBufSize]
  congr 1
  omega

/-! ### One chunk -/

/-- The region that the reader adds for a chunk whose header is at `pos`. -/
def Chunk.region (hdrSz bs fd pos cur : ℕ) : Chunk → Option Region
  | .raw n _ => some ⟨.fd fd (pos + hdrSz), u32 (n * bs), u32 cur, u32_lt _, u32_lt _⟩
  | .fill n v => some ⟨.fill v, u32 (n * bs), u32 cur, u32_lt _, u32_lt _⟩
  | .dontCare _ => none
  | .crc32 _ => none

/-- The regions that the reader adds for a sequence of chunks. -/
def chunkRegions (hdrSz bs fd : ℕ) : ℕ → ℕ → List Chunk → List Region
  | _, _, [] => []
  | pos, cur, c :: cs => (c.region hdrSz bs fd pos cur).toList ++
      chunkRegions hdrSz bs fd (pos + hdrSz + c.payload.length) (cur + c.chunkSz) cs

variable (bbl : BackedBlockList)

theorem backedBlockAdd_u32 (backing : Backing) (len block : ℕ) :
    backedBlockAdd bbl backing (u32 len) (u32 block) = backedBlockAdd bbl backing len block := by
  simp only [backedBlockAdd, u32_u32]

theorem addRegions_singleton (r : Region) :
    addRegions bbl [r] = r.addTo bbl := by
  rw [addRegions]
  cases r.addTo bbl <;> rfl

/-- The region of a call is added by the call. -/
theorem addRegions_call (backing : Backing) (len block : ℕ) :
    addRegions bbl [⟨backing, u32 len, u32 block, u32_lt _, u32_lt _⟩]
      = backedBlockAdd bbl backing len block := by
  rw [addRegions_singleton, Region.addTo_eq, backedBlockAdd]
  rfl

theorem addRegions_append : ∀ (bbl : BackedBlockList) (rs rs' : List Region),
    addRegions bbl (rs ++ rs') = (do
      let bbl ← addRegions bbl rs
      addRegions bbl rs') := by
  intro bbl rs
  induction rs generalizing bbl with
  | nil => exact fun rs' => rfl
  | cons r rs ih =>
    intro rs'
    rw [cons_append, addRegions, addRegions]
    cases hadd : r.addTo bbl with
    | error f => rfl
    | ok bbl' => exact ih bbl' rs'

/-- The state after the list has become `bbl`, with the reader behind a chunk. -/
def Reader.behind (r : Reader) (bs hdrSz : ℕ) (crc : Bool) (cs : List Chunk)
    (bbl : BackedBlockList) : Reader where
  s := { r.s with backedBlockList := bbl }
  pos := r.pos + (cs.map fun c => hdrSz + c.payload.length).sum
  crc32 := if crc then sparseCrc32 r.crc32 (expand bs cs) else r.crc32

section

variable {file : List UInt8} {fd : ℕ} {crc : Bool} {hdrSz bs : ℕ} {n : ℕ}

theorem readAll_drop {pos : ℕ} (h : n ≤ (file.drop pos).length) :
    readAll file pos n = .ok ((file.drop pos).take n) := by
  rw [length_drop] at h
  rw [readAll, if_pos h]

variable {r : Reader} {cur : ℕ}

/-- A raw chunk whose size is right and whose payload is there. -/
theorem processRawChunk_eq (hbs : 0 < bs) (hsize : r.s.blockSize = bs) (hn : n * bs < 2 ^ 32)
    (hroom : n * bs ≤ file.length - r.pos) :
    processRawChunk file fd crc (n * bs) n cur r = (do
      let bbl ← liftFault (backedBlockAdd r.s.backedBlockList (.fd fd r.pos) (n * bs) cur)
      .ok { s := { r.s with backedBlockList := bbl }, pos := r.pos + n * bs,
            crc32 := if crc then sparseCrc32 r.crc32 ((file.drop r.pos).take (n * bs))
              else r.crc32 }) := by
  subst hsize
  rw [processRawChunk]
  simp only [if_neg hbs.ne', Nat.mul_mod_left, ne_eq, not_true_eq_false, if_false,
    Nat.mul_div_cancel _ hbs, u32_of_lt hn]
  rw [sparseFileAddFd, backedBlockAddFd]
  cases backedBlockAdd r.s.backedBlockList (.fd fd r.pos) (n * r.s.blockSize) cur with
  | error f => rfl
  | ok bbl =>
    cases crc with
    | false => rfl
    | true =>
      simp only [bind, Except.bind, liftFault, if_true]
      rw [rawCrcLoop_eq file _ _ _ _ le_rfl hroom]

/-- The checksum over repeated fill words, or over zeros. -/
theorem crcOver_eq {copybuf : ℕ → UInt8} (hper : ∀ i, copybuf (copyBufSize + i) = copybuf i)
    {len : ℕ} (hlen : len < 2 ^ 63) (crc32 : UInt32) :
    crcOver crc copybuf (i64 (len : ℤ)) crc32
      = .ok (if crc then sparseCrc32 crc32 ((range len).map copybuf) else crc32) := by
  rw [crcOver, i64_of_range (by omega) (by omega), if_neg (by omega : ¬ (len : ℤ) < 0),
    Int.toNat_natCast, bufCrcLoop_eq hper _ _ _ le_rfl]
  cases crc <;> rfl

/-- A fill chunk whose size is right and whose word is there. -/
theorem processFillChunk_eq (hsize : r.s.blockSize = bs) (hn : n * bs < 2 ^ 63)
    (hroom : 4 ≤ (file.drop r.pos).length) {v : UInt32}
    (hv : v = UInt32.ofNat (leNat ((file.drop r.pos).take 4))) :
    processFillChunk file crc 4 n cur r = (do
      let bbl ← liftFault (backedBlockAdd r.s.backedBlockList (.fill v) (n * bs) cur)
      .ok { s := { r.s with backedBlockList := bbl }, pos := r.pos + 4,
            crc32 := if crc then sparseCrc32 r.crc32 ((range (n * bs)).map (fillByte v))
              else r.crc32 }) := by
  subst hsize hv
  rw [processFillChunk]
  simp only [ne_eq, not_true_eq_false, if_false, readAll_drop hroom, bind, Except.bind]
  have hlen : toU32 (i64 ((n * r.s.blockSize : ℕ) : ℤ)) = u32 (n * r.s.blockSize) := by
    rw [i64_of_range (by omega) (by omega), toU32_natCast]
  rw [sparseFileAddFill, backedBlockAddFill, hlen, crcOver_eq (fillByte_periodic _) hn]
  rw [← backedBlockAdd_u32, u32_u32, backedBlockAdd_u32]
  generalize backedBlockAdd r.s.backedBlockList _ (n * r.s.blockSize) cur = res
  cases res <;> rfl

/-- A skip chunk whose size is right. -/
theorem processSkipChunk_eq (hsize : r.s.blockSize = bs) (hn : n * bs < 2 ^ 63) :
    processSkipChunk crc 0 n r = .ok { r with
      crc32 := if crc then sparseCrc32 r.crc32 (replicate (n * bs) 0) else r.crc32 } := by
  subst hsize
  have hzero : (range (n * r.s.blockSize)).map (fun _ => (0 : UInt8))
      = replicate (n * r.s.blockSize) 0 := by
    rw [map_const', length_range]
  rw [processSkipChunk]
  simp only [ne_eq, not_true_eq_false, if_false]
  rw [crcOver_eq (fun _ => rfl) hn, hzero]
  rfl

/-- The round after the header `hd` has been read. -/
abbrev chunkRound (file : List UInt8) (fd : ℕ) (crc : Bool) (hdrSz : ℕ) (hd : ChunkHeader)
    (cur : ℕ) (r : Reader) : Except Stop (Reader × ℕ) := do
  let (r, ret) ← processChunk file fd crc hdrSz hd cur { r with pos := r.pos + hdrSz }
  if ret < 0 then .error (.ret ret) else .ok (r, u32 (cur + ret.toNat))

theorem readChunk_eq (hhdr : chunkHeaderLen ≤ hdrSz) {hd : ChunkHeader}
    (hroom : hdrSz ≤ (file.drop r.pos).length)
    (hhd : hd = ChunkHeader.decode ((file.drop r.pos).take chunkHeaderLen)) :
    readChunk file fd crc hdrSz cur r = chunkRound file fd crc hdrSz hd cur r := by
  rw [readChunk, readAll_drop (hhdr.trans hroom), hhd, max_eq_left hhdr]
  rfl

theorem i32_toNat (h : n < 2 ^ 31) : ¬ i32 n < 0 ∧ (i32 n).toNat = n := by
  rw [i32_of_lt h]
  omega

theorem chunkDataSize_eq {tot p : ℕ} (hp : tot = hdrSz + p) (htot : tot < 2 ^ 32) :
    u32 (tot + (2 ^ 32 - hdrSz)) = p := by
  rw [u32]
  omega

theorem mul_blockSize_lt (hbs32 : bs < 2 ^ 32) (hn : n < 2 ^ 31) : n * bs < 2 ^ 63 :=
  calc n * bs ≤ 2 ^ 31 * bs := Nat.mul_le_mul_right _ hn.le
    _ < 2 ^ 31 * 2 ^ 32 := Nat.mul_lt_mul_of_pos_left hbs32 (by norm_num)
    _ = 2 ^ 63 := by norm_num

/-- The result of a round for chunk `c`: its region is added, and the reader goes
on behind it. -/
def chunkStep (fd hdrSz bs cur : ℕ) (crc : Bool) (r : Reader) (c : Chunk) :
    Except Stop (Reader × ℕ) := do
  let bbl ← liftFault (addRegions r.s.backedBlockList (c.region hdrSz bs fd r.pos cur).toList)
  .ok (r.behind bs hdrSz crc [c] bbl, u32 (cur + c.chunkSz))

section

variable {r : Reader} {cur : ℕ} {hd : ChunkHeader} (hsize : r.s.blockSize = bs)
  (hsz : hd.chunkSz < 2 ^ 31) (htot32 : hd.totalSz < 2 ^ 32)

include hsize hsz htot32

theorem processChunk_raw (hbs : 0 < bs) (ht : hd.chunkType = chunkTypeRaw)
    (htot : hd.totalSz = hdrSz + hd.chunkSz * bs)
    (hroom : hd.chunkSz * bs ≤ (file.drop (r.pos + hdrSz)).length) :
    chunkRound file fd crc hdrSz hd cur r = chunkStep fd hdrSz bs cur crc r
          (.raw hd.chunkSz ((file.drop (r.pos + hdrSz)).take (hd.chunkSz * bs))) := by
  obtain ⟨hpos, hnat⟩ := i32_toNat hsz
  rw [chunkRound, processChunk, if_pos ht, chunkDataSize_eq htot htot32,
    processRawChunk_eq (r := { r with pos := r.pos + hdrSz }) hbs hsize (by omega)
      (by rwa [length_drop] at hroom), chunkStep, Chunk.region, Option.toList_some,
    addRegions_singleton]
  show _ = liftFault (backedBlockAdd r.s.backedBlockList (.fd fd (r.pos + hdrSz)) _ _) >>= _
  rw [backedBlockAdd_u32]
  cases backedBlockAdd r.s.backedBlockList (.fd fd (r.pos + hdrSz)) (hd.chunkSz * bs) cur with
  | error f => rfl
  | ok bbl =>
    simp only [bind, Except.bind, liftFault, if_neg hpos, hnat]
    simp [Reader.behind, payload, chunkSz, expand, Chunk.expand, add_assoc]
    rwa [length_drop] at hroom

theorem processChunk_fill (hbs32 : bs < 2 ^ 32) (ht : hd.chunkType = chunkTypeFill)
    (htot : hd.totalSz = hdrSz + 4)
    (hroom : 4 ≤ (file.drop (r.pos + hdrSz)).length) :
    chunkRound file fd crc hdrSz hd cur r = chunkStep fd hdrSz bs cur crc r
          (.fill hd.chunkSz (UInt32.ofNat (leNat ((file.drop (r.pos + hdrSz)).take 4)))) := by
  obtain ⟨hpos, hnat⟩ := i32_toNat hsz
  rw [chunkRound, processChunk, if_neg (by rw [ht]; decide), if_pos ht,
    chunkDataSize_eq htot htot32,
    processFillChunk_eq (r := { r with pos := r.pos + hdrSz }) hsize (mul_blockSize_lt hbs32 hsz)
      hroom rfl, chunkStep, Chunk.region, Option.toList_some, addRegions_singleton]
  generalize UInt32.ofNat (leNat ((file.drop (r.pos + hdrSz)).take 4)) = v
  show _ = liftFault (backedBlockAdd r.s.backedBlockList (.fill v) _ _) >>= _
  rw [backedBlockAdd_u32]
  cases backedBlockAdd r.s.backedBlockList (.fill v) (hd.chunkSz * bs) cur with
  | error f => rfl
  | ok bbl =>
    simp only [bind, Except.bind, liftFault, if_neg hpos, hnat]
    simp [Reader.behind, payload, chunkSz, expand, Chunk.expand, add_assoc]

theorem processChunk_skip (hbs32 : bs < 2 ^ 32)
    (ht : hd.chunkType = chunkTypeDontCare) (htot : hd.totalSz = hdrSz) :
    chunkRound file fd crc hdrSz hd cur r =
      chunkStep fd hdrSz bs cur crc r (.dontCare hd.chunkSz) := by
  obtain ⟨hpos, hnat⟩ := i32_toNat hsz
  rw [chunkRound, processChunk, if_neg (by rw [ht]; decide), if_neg (by rw [ht]; decide), if_pos ht,
    chunkDataSize_eq (p := 0) htot htot32,
    processSkipChunk_eq (r := { r with pos := r.pos + hdrSz }) hsize (mul_blockSize_lt hbs32 hsz)]
  simp only [bind, Except.bind, if_neg hpos, hnat]
  simp [chunkStep, Reader.behind, Chunk.region, payload, chunkSz, expand, Chunk.expand,
    addRegions, liftFault, bind, Except.bind]

end

/-- **One round of the reader** on a chunk of a well-formed stream. -/
theorem readChunk_of_parse (hbs : 0 < bs) (hbs32 : bs < 2 ^ 32) (hhdr : chunkHeaderLen ≤ hdrSz)
    {r : Reader} (hsize : r.s.blockSize = bs) {cur : ℕ} {c : Chunk} {rest : List UInt8}
    (hparse : parseChunk hdrSz bs (file.drop r.pos) = some (c, rest))
    (hcrc : ∀ v, c ≠ .crc32 v) (hsz : c.chunkSz < 2 ^ 31) :
    rest = file.drop (r.pos + (hdrSz + c.payload.length)) ∧
      readChunk file fd crc hdrSz cur r = chunkStep fd hdrSz bs cur crc r c := by
  obtain ⟨hroom, hd, hhd, htot32, hcases⟩ := parseChunk_cases hparse
  rw [readChunk_eq hhdr hroom hhd]
  rw [drop_drop] at hcases
  rcases hcases with ⟨ht, hs, hlen, rfl, rfl⟩ | ⟨ht, hs, hlen, rfl, rfl⟩ | ⟨ht, hs, rfl, rfl⟩ |
    ⟨ht, hs, hlen, rfl, rfl⟩
  · refine ⟨?_, processChunk_raw hsize hsz htot32 hbs ht hs hlen⟩
    rw [drop_drop, payload, length_take, min_eq_left hlen, add_assoc]
  · refine ⟨?_, processChunk_fill hsize hsz htot32 hbs32 ht hs hlen⟩
    rw [drop_drop, payload, length_leBytes, add_assoc]
  · refine ⟨?_, processChunk_skip hsize hsz htot32 hbs32 ht hs⟩
    rw [payload, length_nil, add_zero]
  · exact absurd rfl (hcrc _)

theorem Reader.behind_behind (r : Reader) (c : Chunk) (cs : List Chunk)
    (bbl bbl' : BackedBlockList) :
    (r.behind bs hdrSz crc [c] bbl).behind bs hdrSz crc cs bbl'
      = r.behind bs hdrSz crc (c :: cs) bbl' := by
  simp only [behind, expand, flatMap_cons, map_cons, map_nil, sum_cons,
    sum_nil, flatMap_nil, append_nil, add_zero, add_assoc]
  cases crc with
  | false => rfl
  | true => simp only [if_true, sparseCrc32_append]

/-- **The loop of the reader** on a sequence of chunks without a checksum. -/
theorem readChunks_of_parse (hbs : 0 < bs) (hbs32 : bs < 2 ^ 32) (hhdr : chunkHeaderLen ≤ hdrSz) :
    ∀ {n : ℕ} {cs : List Chunk} {r : Reader} {cur : ℕ}, r.s.blockSize = bs →
    parseChunks hdrSz bs n (file.drop r.pos) = some cs → (∀ c ∈ cs, ∀ v, c ≠ .crc32 v) →
    (∀ c ∈ cs, c.chunkSz < 2 ^ 31) → cur + totalSz cs < 2 ^ 32 →
    readChunks file fd crc hdrSz n cur r = (do
      let bbl ← liftFault
        (addRegions r.s.backedBlockList (chunkRegions hdrSz bs fd r.pos cur cs))
      .ok (r.behind bs hdrSz crc cs bbl, cur + totalSz cs)) := by
  intro n
  induction n with
  | zero =>
    intro cs r cur _ hparse _ _ _
    cases hparse
    simp [readChunks, chunkRegions, addRegions, liftFault, Reader.behind, expand, totalSz, bind,
      Except.bind]
  | succ n ih =>
    intro cs r cur hsize hparse hcrc hsz htotal
    obtain ⟨c, rest, cs', hc, hcs, rfl⟩ := parseChunks_succ hparse
    obtain ⟨hrest, hstep⟩ : rest = _ ∧ readChunk file fd crc hdrSz cur r = _ :=
      readChunk_of_parse hbs hbs32 hhdr hsize hc (hcrc c mem_cons_self)
        (hsz c mem_cons_self)
    have htot : totalSz (c :: cs') = c.chunkSz + totalSz cs' := rfl
    rw [readChunks, hstep, chunkStep, chunkRegions, addRegions_append]
    cases hadd : addRegions r.s.backedBlockList (c.region hdrSz bs fd r.pos cur).toList with
    | error f => rfl
    | ok bbl =>
      have hsize' : (r.behind bs hdrSz crc [c] bbl).s.blockSize = bs :=
        (addRegions_blockSize hadd).trans hsize
      have hpos' : (r.behind bs hdrSz crc [c] bbl).pos
          = r.pos + (hdrSz + c.payload.length) := by
        simp [Reader.behind]
      rw [hrest, ← hpos'] at hcs
      have htail : (cur + c.chunkSz) + totalSz cs' < 2 ^ 32 := by omega
      have hrun := ih hsize' hcs (fun c' hc' => hcrc c' (mem_cons_of_mem c hc'))
        (fun c' hc' => hsz c' (mem_cons_of_mem c hc')) htail
      simp only [bind, Except.bind, liftFault] at hrun ⊢
      rw [u32_of_lt (by omega), hrun, hpos', add_assoc r.pos, add_assoc cur]
      simp only [Reader.behind_behind]
      rfl

end

/-! ### What the regions denote -/

section

variable {hdrSz bs fd : ℕ} {c : Chunk} {cs : List Chunk} {pos cur : ℕ}

/-- A region occupies at most the blocks of its chunk. -/
theorem Chunk.region_spec (hbs : 0 < bs) (hcur : cur < 2 ^ 32) {r : Region}
    (h : r ∈ (c.region hdrSz bs fd pos cur).toList) :
    r.block = cur ∧ r.block + numBlocks bs r.len ≤ cur + c.chunkSz := by
  have hle : ∀ n, numBlocks bs (u32 (n * bs)) ≤ n := by
    intro n
    by_contra hlt
    have h1 := (lt_numBlocks_iff hbs).mp (not_le.mp hlt)
    exact absurd (u32_le (n * bs)) (not_le.mpr h1)
  cases c with
  | raw n | fill n =>
    rw [region, Option.toList_some, mem_singleton] at h
    subst h
    exact ⟨u32_of_lt hcur, Nat.add_le_add (u32_le _) (hle n)⟩
  | dontCare | crc32 => exact absurd h (by simp [region])

theorem chunkRegions_bounds (hbs : 0 < bs) : ∀ {cs : List Chunk} {pos cur : ℕ},
    cur + totalSz cs < 2 ^ 32 → ∀ r ∈ chunkRegions hdrSz bs fd pos cur cs,
    cur ≤ r.block ∧ r.block + numBlocks bs r.len ≤ cur + totalSz cs := by
  intro cs
  induction cs with
  | nil => exact fun _ r hr => absurd hr (by simp [chunkRegions])
  | cons c cs ih =>
    intro pos cur htotal r hr
    have htot : totalSz (c :: cs) = c.chunkSz + totalSz cs := rfl
    rw [chunkRegions, mem_append] at hr
    rcases hr with hr | hr
    · obtain ⟨h1, h2⟩ := region_spec hbs (by omega) hr
      omega
    · have := ih (by omega) r hr
      omega

/-- Regions of a stream are related if the region of a chunk is to all that start behind it. -/
theorem chunkRegions_pairwise {R : Region → Region → Prop} (hbs : 0 < bs) :
    ∀ {cs : List Chunk} {pos cur : ℕ}, cur + totalSz cs < 2 ^ 32 →
    (∀ c ∈ cs, ∀ pos, ∀ cur < 2 ^ 32, ∀ a ∈ (c.region hdrSz bs fd pos cur).toList, ∀ b,
      cur + c.chunkSz ≤ b.block → R a b) → (chunkRegions hdrSz bs fd pos cur cs).Pairwise R := by
  intro cs
  induction cs with
  | nil => exact fun _ _ => List.Pairwise.nil
  | cons c cs ih =>
    intro pos cur htotal hR
    have htot : totalSz (c :: cs) = c.chunkSz + totalSz cs := rfl
    obtain ⟨hc, hcs⟩ := forall_mem_cons.mp hR
    rw [chunkRegions, pairwise_append]
    refine ⟨?_, ih (by omega) hcs, fun a ha b hb =>
      hc pos cur (by omega) a ha b (chunkRegions_bounds hbs (by omega) b hb).1⟩
    cases c.region hdrSz bs fd pos cur with
    | none => exact List.Pairwise.nil
    | some r => exact pairwise_singleton _ _

/-- The regions do not overlap and are in order. -/
theorem chunkRegions_ordered (hbs : 0 < bs) (htotal : cur + totalSz cs < 2 ^ 32) :
    (chunkRegions hdrSz bs fd pos cur cs).Pairwise
      fun a b => a.block + numBlocks bs a.len ≤ b.block :=
  chunkRegions_pairwise hbs htotal fun _ _ _ _ hcur _ ha _ hb =>
    (region_spec hbs hcur ha).2.trans hb

/-- If every chunk describes at least one block, the block numbers increase. -/
theorem chunkRegions_increasing (hbs : 0 < bs) (htotal : cur + totalSz cs < 2 ^ 32)
    (hpos : ∀ c ∈ cs, 0 < c.chunkSz) :
    (chunkRegions hdrSz bs fd pos cur cs).Pairwise fun a b => a.block < b.block := by
  refine chunkRegions_pairwise hbs htotal fun c hc _ cur hcur a ha b hb => ?_
  have hblock := (region_spec hbs hcur ha).1
  have := hpos c hc
  omega

variable {file : List UInt8}

/-- Bytes of the file, as the blocks of a raw chunk. -/
theorem rawContent_eq {off m j : ℕ} (h : m ≤ file.length - off) (hj : j * bs + bs ≤ m) :
    ((range bs).map fun i => if j * bs + i < m then file.getD (off + (j * bs + i)) 0 else 0)
      = (((file.drop off).take m).drop (j * bs)).take bs := by
  apply ext_getElem
  · simp only [length_map, length_range, length_take, length_drop]
    omega
  · intro i h1 h2
    have hi : i < bs := by simpa using h1
    simp only [getElem_map, getElem_range, getElem_take, getElem_drop]
    rw [if_pos (by omega), getD_eq_getElem?_getD, getElem?_eq_getElem (by omega),
      Option.getD_some]

variable {env : Env}

/-- The region of a single chunk denotes what the chunk describes. -/
theorem image_region (henv : ∀ i, env.fd fd i = file.getD i 0) (hbs : 0 < bs) {rest : List UInt8}
    (hparse : parseChunk hdrSz bs (file.drop pos) = some (c, rest))
    (hfill : ∀ k v, c = .fill k v → k * bs < 2 ^ 32) (hcur : cur < 2 ^ 32) (x : ℕ) :
    (x < c.chunkSz → ((blockMap env bs).lookup
      ((c.region hdrSz bs fd pos cur).toList.map (·.node 0)) (cur + x)).getD .dontCare
        = c.content bs x) ∧
    (c.chunkSz ≤ x → (blockMap env bs).lookup
      ((c.region hdrSz bs fd pos cur).toList.map (·.node 0)) (cur + x) = none) := by
  -- a region of `n` blocks at `cur`
  have hnode : ∀ (b : Backing) (n : ℕ), n * bs < 2 ^ 32 →
      (blockMap env bs).lookup [(⟨b, u32 (n * bs), u32 cur, u32_lt _, u32_lt _⟩ : Region).node 0]
        (cur + x) = if x < n then some (b.content env bs (n * bs) x) else none := by
    intro b n hn
    rw [IntervalMap.lookup_cons]
    have hval : (blockMap env bs).val ((⟨b, u32 (n * bs), u32 cur, u32_lt _, u32_lt _⟩ :
        Region).node 0) (cur + x) = b.content env bs (n * bs) x := by
      show b.content env bs (u32 (n * bs)) (cur + x - u32 cur) = _
      rw [u32_of_lt hn, u32_of_lt hcur, Nat.add_sub_cancel_left]
    have hcov : (blockMap env bs).Covers ((⟨b, u32 (n * bs), u32 cur, u32_lt _, u32_lt _⟩ :
        Region).node 0) (cur + x) ↔ x < n := by
      show u32 cur ≤ cur + x ∧ cur + x < u32 cur + numBlocks bs (u32 (n * bs)) ↔ x < n
      rw [u32_of_lt hcur, u32_of_lt hn, numBlocks_mul hbs]
      omega
    by_cases hx : x < n
    · rw [if_pos (hcov.mpr hx), if_pos hx, hval]
    · rw [if_neg (hcov.not.mpr hx), if_neg hx]
      rfl
  obtain ⟨hroom, hd, hhd, htot, hcases⟩ := parseChunk_cases hparse
  rw [drop_drop] at hcases
  rcases hcases with ⟨-, hs, hlen, rfl, -⟩ | ⟨-, -, -, rfl, -⟩ | ⟨-, -, rfl, -⟩ | ⟨-, -, -, rfl, -⟩
  · rw [Chunk.region, Option.toList_some, map_singleton, hnode _ _ (by omega)]
    refine ⟨fun hx => ?_, fun hx => if_neg (not_lt.mpr hx)⟩
    rw [length_drop] at hlen
    have hxle : x * bs + bs ≤ hd.chunkSz * bs := by
      calc x * bs + bs = (x + 1) * bs := by rw [Nat.add_mul, one_mul]
        _ ≤ hd.chunkSz * bs := Nat.mul_le_mul_right _ hx
    rw [if_pos (show x < hd.chunkSz from hx), Option.getD_some,
      Backing.content_of_ne_fill env _ _ (by simp [Backing.type]), content]
    simp only [Backing.byteAt, henv]
    rw [rawContent_eq hlen hxle]
  · rw [Chunk.region, Option.toList_some, map_singleton, hnode _ _ (hfill _ _ rfl)]
    refine ⟨fun hx => ?_, fun hx => if_neg (not_lt.mpr hx)⟩
    rw [if_pos (show x < hd.chunkSz from hx)]
    rfl
  · exact ⟨fun _ => rfl, fun _ => rfl⟩
  · exact ⟨fun _ => rfl, fun _ => rfl⟩

/-- **The regions of a sequence of chunks denote what the chunks describe.** -/
theorem image_chunkRegions (henv : ∀ i, env.fd fd i = file.getD i 0) (hbs : 0 < bs) :
    ∀ {n : ℕ} {cs : List Chunk} {pos cur : ℕ},
    parseChunks hdrSz bs n (file.drop pos) = some cs →
    (∀ k v, Chunk.fill k v ∈ cs → k * bs < 2 ^ 32) → cur + totalSz cs < 2 ^ 32 → ∀ x,
    ((blockMap env bs).lookup ((chunkRegions hdrSz bs fd pos cur cs).map (·.node 0))
      (cur + x)).getD .dontCare = chunksImage bs cs x := by
  intro n
  induction n with
  | zero =>
    intro cs pos cur hparse _ _ x
    cases hparse
    rfl
  | succ n ih =>
    intro cs pos cur hparse hfill htotal x
    obtain ⟨c, rest, cs', hc, hcs, rfl⟩ := parseChunks_succ hparse
    have htot : totalSz (c :: cs') = c.chunkSz + totalSz cs' := rfl
    rw [parseChunk_rest hc, drop_drop] at hcs
    have hcur : cur < 2 ^ 32 := by omega
    obtain ⟨hin, hout⟩ := image_region henv hbs hc
      (fun k v h => hfill k v (by rw [h]; exact mem_cons_self)) hcur x
    rw [chunkRegions, map_append, IntervalMap.lookup_append, chunksImage]
    by_cases hx : x < c.chunkSz
    · -- the regions behind the chunk start further right
      have hnone : (blockMap env bs).lookup ((chunkRegions hdrSz bs fd
          (pos + hdrSz + c.payload.length) (cur + c.chunkSz) cs').map (·.node 0))
          (cur + x) = none := by
        apply IntervalMap.lookup_eq_none
        intro m hm hcov
        obtain ⟨r, hr, rfl⟩ := mem_map.mp hm
        have hge := (chunkRegions_bounds hbs (by omega) r hr).1
        have hle : r.block ≤ cur + x := hcov.1
        omega
      rw [if_pos hx, hnone, Option.or_none, hin hx]
    · rw [if_neg hx, hout (not_lt.mp hx), Option.none_or,
        show cur + x = cur + c.chunkSz + (x - c.chunkSz) by omega]
      rw [← add_assoc] at hcs
      exact ih hcs (fun k v h => hfill k v (mem_cons_of_mem c h)) (by omega) _

end

/-! ### The whole import -/

variable {cs : List Chunk} {file : List UInt8} {hd : SparseHeader}

theorem readSparseHeader_eq_ok :
    readSparseHeader file = .ok hd ↔ sparseHeaderLen ≤ file.length ∧
      hd = SparseHeader.decode (file.take sparseHeaderLen) ∧ hd.magic = sparseHeaderMagic ∧
      hd.majorVersion = 1 ∧ sparseHeaderLen ≤ hd.fileHdrSz ∧ chunkHeaderLen ≤ hd.chunkHdrSz := by
  rw [readSparseHeader, readAll, drop_zero, Nat.sub_zero]
  by_cases hlen : sparseHeaderLen ≤ file.length
  · rw [if_pos hlen]
    simp only [bind, Except.bind, hlen, true_and]
    constructor
    · intro h
      split_ifs at h with h1 h2 h3 h4
      all_goals cases h
      exact ⟨rfl, not_not.mp h1, not_not.mp h2, not_lt.mp h3, not_lt.mp h4⟩
    · rintro ⟨rfl, h1, h2, h3, h4⟩
      rw [if_neg (not_not.mpr h1), if_neg (not_not.mpr h2), if_neg (not_lt.mpr h3),
        if_neg (not_lt.mpr h4)]
  · simp [bind, Except.bind, hlen]

/-- The importer accepts the header of a well-formed stream. -/
theorem parseStream_eq_some :
    parseStream file = some (hd, cs) ↔ readSparseHeader file = .ok hd ∧
      parseChunks hd.chunkHdrSz hd.blkSz hd.totalChunks (file.drop hd.fileHdrSz) = some cs ∧
      totalSz cs = hd.totalBlks := by
  rw [readSparseHeader_eq_ok]
  constructor
  · intro h
    obtain ⟨hhd, h⟩ := Option.ite_none_right_eq_some.mp h
    obtain ⟨cs', hcs, h⟩ := Option.bind_eq_some_iff.mp h
    obtain ⟨htot, h⟩ := Option.ite_none_right_eq_some.mp h
    cases h
    exact ⟨⟨hhd.1, rfl, hhd.2⟩, hcs, htot⟩
  · rintro ⟨⟨h1, rfl, h2⟩, hcs, htot⟩
    simp only [parseStream]
    rw [if_pos ⟨h1, h2⟩]
    simp only [hcs, bind, Option.bind]
    rw [if_pos htot]

/-- What is left of an import once the header has been accepted. -/
def finishImport (totalBlks : ℕ) : Except Stop (Reader × ℕ) → Except Fault (Option SparseFile)
  | .error (.fault f) => .error f
  | .error (.ret _) => .ok none
  | .ok (r, cur) => if totalBlks ≠ cur then .ok none else .ok (some r.s)

/-- The state of the reader behind the header. -/
def SparseHeader.start (hd : SparseHeader) : Reader where
  s := sparseFileNew hd.blkSz ((hd.totalBlks * hd.blkSz : ℕ) : ℤ)
  pos := hd.fileHdrSz
  crc32 := 0

theorem sparseFileImport_of_header (h : readSparseHeader file = .ok hd) (fd : ℕ) (crc : Bool) :
    sparseFileImport file fd crc = finishImport hd.totalBlks
      (readChunks file fd crc hd.chunkHdrSz hd.totalChunks 0 hd.start) := by
  have hmax : max hd.fileHdrSz sparseHeaderLen = hd.fileHdrSz :=
    max_eq_left (readSparseHeader_eq_ok.mp h).2.2.2.2.1
  simp only [sparseFileImport, h, sparseFileRead, sparseFileReadSparse, bind, Except.bind, hmax]
  rw [if_neg (by simp)]
  simp only [if_true]
  show _ = finishImport hd.totalBlks (readChunks file fd crc hd.chunkHdrSz hd.totalChunks 0
    ⟨_, hd.fileHdrSz, 0⟩)
  rcases readChunks file fd crc hd.chunkHdrSz hd.totalChunks 0
    ⟨sparseFileNew hd.blkSz ((hd.totalBlks * hd.blkSz : ℕ) : ℤ), hd.fileHdrSz, 0⟩ with
    (f | n) | ⟨r, cur⟩
  · rfl
  · rfl
  · simp only [finishImport]
    by_cases hb : hd.totalBlks ≠ cur
    · rw [if_pos hb, if_pos hb]
    · rw [if_neg hb, if_neg hb]

/-- **The import of a well-formed stream** without a checksum chunk is a sequence
of additions to the block list. -/
theorem sparseFileImport_of_parse (h : readSparseHeader file = .ok hd) (hbs : 0 < hd.blkSz)
    (hparse : parseChunks hd.chunkHdrSz hd.blkSz hd.totalChunks (file.drop hd.fileHdrSz) = some cs)
    (hcrc : ∀ c ∈ cs, ∀ v, c ≠ .crc32 v) (hsz : ∀ c ∈ cs, c.chunkSz < 2 ^ 31)
    (htotal : totalSz cs = hd.totalBlks) (fd : ℕ) (crc : Bool) :
    sparseFileImport file fd crc = (do
      let bbl ← addRegions (backedBlockListNew hd.blkSz)
        (chunkRegions hd.chunkHdrSz hd.blkSz fd hd.fileHdrSz 0 cs)
      .ok (some { len := i64 ((hd.totalBlks * hd.blkSz : ℕ) : ℤ), backedBlockList := bbl })) := by
  have hdec := (readSparseHeader_eq_ok.mp h).2.1
  have hbs32 : hd.blkSz < 2 ^ 32 := by
    rw [hdec]
    exact field_lt _ 12 4
  have htot32 : hd.totalBlks < 2 ^ 32 := by
    rw [hdec]
    exact field_lt _ 16 4
  have hsize : hd.start.s.blockSize = hd.blkSz := u32_of_lt hbs32
  rw [sparseFileImport_of_header h, readChunks_of_parse hbs hbs32
    (readSparseHeader_eq_ok.mp h).2.2.2.2.2 hsize hparse hcrc hsz (by omega), zero_add]
  show finishImport hd.totalBlks (liftFault (addRegions (backedBlockListNew hd.blkSz)
    (chunkRegions hd.chunkHdrSz hd.blkSz fd hd.fileHdrSz 0 cs)) >>= _) = _
  cases addRegions (backedBlockListNew hd.blkSz)
    (chunkRegions hd.chunkHdrSz hd.blkSz fd hd.fileHdrSz 0 cs) with
  | error f => rfl
  | ok bbl =>
    simp only [liftFault, bind, Except.bind, finishImport]
    rw [if_neg (by rw [htotal]; simp)]
    simp only [Reader.behind, SparseHeader.start, sparseFileNew]

end Sparse
