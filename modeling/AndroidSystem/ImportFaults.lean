/-
Which files make the importer leave the defined behaviour of C.

Whether a round of the reader faults depends on the block list it has made so far
(`ChunkSafe`), and that list on the regions of the chunks before.  Both can be read
off the file: the reader comes by the headers at `headerPositions` until it returns a
code, and has then added the regions at them.

* `readChunk_past`, `readChunk_ne_ret` — a round that does not fault goes on exactly
  if the chunk passes the checks;
* `addRegions_ok_iff` — which regions can be added at block numbers that do not
  decrease;
* `readChunks_fault_iff` — a run, by induction on the number of chunks;
* `sparseFileImport_safe_iff` — the import.
-/
import AndroidSystem.ImportExact

open CInt List Option

namespace Sparse

/-! ### Rounds that return no code -/

section

variable {file : List UInt8} {fd hdrSz bs : ℕ} {crc : Bool} {r : Reader} {dataSize blocks : ℕ}

theorem bind_ne_ret {α β : Type} {x : Except Stop α} {g : α → Except Stop β}
    (hx : ∀ code, x ≠ .error (.ret code))
    (hg : ∀ a, x = .ok a → ∀ code, g a ≠ .error (.ret code)) (code : ℤ) :
    (x >>= g) ≠ .error (.ret code) := by
  cases x with
  | error e =>
    intro h
    cases h
    exact hx code rfl
  | ok a => exact hg a rfl code

theorem crcOver_ne_ret (copybuf : ℕ → UInt8) (len : ℤ) (c : UInt32) (code : ℤ) :
    crcOver crc copybuf len c ≠ .error (.ret code) := by
  rw [crcOver]
  split_ifs <;> simp

theorem processRawChunk_ne_ret {block : ℕ} (hdata : dataSize = blocks * r.s.blockSize)
    (hroom : crc = true → u32 (blocks * r.s.blockSize) ≤ file.length - r.pos) (code : ℤ) :
    processRawChunk file fd crc dataSize blocks block r ≠ .error (.ret code) := by
  subst hdata
  rw [processRawChunk]
  by_cases hbs : r.s.blockSize = 0
  · rw [if_pos hbs]
    simp
  rw [if_neg hbs, if_neg (not_not.mpr (Nat.mul_mod_left _ _)),
    if_neg (not_not.mpr (Nat.mul_div_cancel _ (Nat.pos_of_ne_zero hbs)))]
  refine bind_ne_ret (liftFault_ne_ret _) (fun s _ => ?_) code
  cases crc with
  | false => simp
  | true =>
    rw [if_pos rfl, rawCrcLoop_eq file _ _ _ _ le_rfl (hroom rfl)]
    exact fun _ h => by cases h

theorem processFillChunk_ne_ret {block : ℕ} (hroom : 4 ≤ file.length - r.pos) (code : ℤ) :
    processFillChunk file crc 4 blocks block r ≠ .error (.ret code) := by
  rw [processFillChunk, if_neg (not_not.mpr rfl), readAll, if_pos hroom]
  refine bind_ne_ret (liftFault_ne_ret _) (fun s _ => ?_) code
  exact bind_ne_ret (crcOver_ne_ret _ _ _) fun c _ code h => by cases h

theorem processSkipChunk_ne_ret (code : ℤ) :
    processSkipChunk crc 0 blocks r ≠ .error (.ret code) := by
  rw [processSkipChunk, if_neg (not_not.mpr rfl)]
  exact bind_ne_ret (crcOver_ne_ret _ _ _) (fun c _ code h => by cases h) code

theorem processCrc32Chunk_eq_ok (hroom : 4 ≤ file.length - r.pos)
    (hword : UInt32.ofNat (leNat ((file.drop r.pos).take 4)) = r.crc32) :
    processCrc32Chunk file 4 r = .ok { r with pos := r.pos + 4 } := by
  rw [processCrc32Chunk, if_neg (not_not.mpr rfl), readAll, if_pos hroom]
  show (if _ then _ else _) = _
  rw [if_neg (not_not.mpr hword)]

/-- The number that `process_chunk` returns is not negative for a chunk that passes. -/
theorem processChunk_ret {hd : ChunkHeader} {cur : ℕ} (hlt : hd.blocks < 2 ^ 31)
    {p : Reader × ℤ} (h : processChunk file fd crc hdrSz hd cur r = .ok p) : 0 ≤ p.2 := by
  have hsz : hd.blocks = hd.chunkSz → 0 ≤ i32 hd.chunkSz := by
    intro heq
    exact not_lt.mp (i32_toNat (heq ▸ hlt)).1
  rw [processChunk] at h
  split_ifs at h with hraw hfill hskip
  · obtain ⟨r₁, -, h⟩ := bind_eq_ok h
    cases h
    exact hsz (if_pos (Or.inl hraw))
  · obtain ⟨r₁, -, h⟩ := bind_eq_ok h
    cases h
    exact hsz (if_pos (Or.inr (Or.inl hfill)))
  · obtain ⟨r₁, -, h⟩ := bind_eq_ok h
    cases h
    exact hsz (if_pos (Or.inr (Or.inr hskip)))
  · obtain ⟨r₁, -, h⟩ := bind_eq_ok h
    cases h
    exact le_rfl
  · cases h
    exact le_rfl

/-- **A chunk that passes** makes no round return a code. -/
theorem readChunk_ne_ret (hhdr : chunkHeaderLen ≤ hdrSz) {cur : ℕ} (hsize : r.s.blockSize = bs)
    (h : Passed file hdrSz bs crc r.crc32 r.pos) (code : ℤ) :
    readChunk file fd crc hdrSz cur r ≠ .error (.ret code) := by
  subst hsize
  rw [readChunk, readAll, if_pos h.room, max_eq_left hhdr]
  change (processChunk file fd crc hdrSz (chunkHeaderAt file r.pos) cur
    { r with pos := r.pos + hdrSz } >>= _) ≠ _
  refine bind_ne_ret (fun code => ?_) (fun p hp code => ?_) code
  · rw [processChunk]
    by_cases hraw : (chunkHeaderAt file r.pos).chunkType = chunkTypeRaw
    · obtain ⟨-, hdata, hroom⟩ := h.raw hraw
      rw [if_pos hraw]
      exact bind_ne_ret (processRawChunk_ne_ret (r := { r with pos := r.pos + hdrSz }) hdata hroom)
        (fun _ _ _ h => by cases h) code
    rw [if_neg hraw]
    by_cases hfill : (chunkHeaderAt file r.pos).chunkType = chunkTypeFill
    · obtain ⟨hdata, hroom⟩ := h.fill hfill
      rw [if_pos hfill, hdata]
      exact bind_ne_ret (processFillChunk_ne_ret (r := { r with pos := r.pos + hdrSz }) hroom)
        (fun _ _ _ h => by cases h) code
    rw [if_neg hfill]
    by_cases hskip : (chunkHeaderAt file r.pos).chunkType = chunkTypeDontCare
    · rw [if_pos hskip, h.skip hskip]
      exact bind_ne_ret processSkipChunk_ne_ret (fun _ _ _ h => by cases h) code
    rw [if_neg hskip]
    by_cases hcrc : (chunkHeaderAt file r.pos).chunkType = chunkTypeCrc32
    · obtain ⟨htrue, hdata, hroom, hword⟩ := h.crc32 hcrc
      rw [if_pos hcrc, if_pos htrue, hdata, processCrc32Chunk_eq_ok hroom hword]
      exact fun h => by cases h
    · rw [if_neg hcrc]
      exact fun h => by cases h
  · show (if p.2 < 0 then _ else _) ≠ _
    rw [if_neg (not_lt.mpr (processChunk_ret h.size hp))]
    exact fun h => by cases h

theorem Passed.of_crc32 {c c' : UInt32} {pos : ℕ} (h : Passed file hdrSz bs crc c pos)
    (hc : crc = true → c = c') : Passed file hdrSz bs crc c' pos :=
  ⟨h.room, h.raw, h.fill, h.skip, fun ht => ⟨(h.crc32 ht).1, (h.crc32 ht).2.1, (h.crc32 ht).2.2.1,
    (h.crc32 ht).2.2.2.trans (hc (h.crc32 ht).1)⟩, h.size⟩

end

/-! ### Regions that can be added -/

/-- The regions of the chunks up to the block `cur` can be added one after the other.
While `cur_block` has not wrapped, their block numbers increase, none is merged with
another one to follow, and there is at most one if blocks have no bytes. -/
def Addable (bs cur : ℕ) (rs : List Region) : Prop :=
  if cur < 2 ^ 32 then
    rs.Pairwise (fun a b => a.block < b.block) ∧ ¬ Stale bs rs ∧ (bs = 0 → rs.length ≤ 1)
  else ∃ bbl, addRegions (backedBlockListNew bs) rs = .ok bbl

variable {bs : ℕ} {rs : List Region}

/-- A second fill of blocks of no bytes cannot be added. -/
theorem addRegions_blockSize_zero (hle : rs.Pairwise fun a b => a.block ≤ b.block)
    (hfill : ∀ a ∈ rs, a.backing.type = .fill) {bbl : BackedBlockList}
    (h : addRegions (backedBlockListNew 0) rs = .ok bbl) : rs.length ≤ 1 := by
  rcases rs with _ | ⟨a, _ | ⟨b, rest⟩⟩
  · exact Nat.zero_le 1
  · exact le_rfl
  · obtain ⟨bbl₁, hfirst, h⟩ := bind_eq_ok h
    obtain ⟨bbl₂, hsecond, -⟩ := bind_eq_ok h
    rw [a.addTo_eq] at hfirst
    rw [b.addTo_eq] at hsecond
    have hlist : bbl₁.dataBlocks = [a.node (backedBlockListNew 0).freshAddr] := by
      rw [← Except.ok.inj hfirst]
    have hzero : bbl₁.blockSize = 0 := by
      rw [← Except.ok.inj hfirst]
      rfl
    have hbad : ∃ f, queueBb bbl₁ (b.node bbl₁.freshAddr) = .error f := by
      refine queueBb_fault (by rw [hlist]; exact pairwise_singleton _ _) (fun _ c hc => ?_)
        fun hsafe => ?_
      · rw [hlist] at hc
        rw [mem_singleton.mp hc]
        exact (hfill a (by simp)).trans (hfill b (by simp)).symm
      · have hab : a.block ≤ b.block := (pairwise_cons.mp hle).1 b mem_cons_self
        exact (hsafe _ (by rw [hlist]; rfl) hab).2.1 hzero
    obtain ⟨f, hf⟩ := hbad
    rw [hf] at hsecond
    cases hsecond

/-- **Additions at block numbers that do not decrease.** -/
theorem addRegions_ok_iff (hbs32 : bs < 2 ^ 32) (hle : rs.Pairwise fun a b => a.block ≤ b.block)
    (hfill : bs = 0 → ∀ a ∈ rs, a.backing.type = .fill) :
    (∃ bbl, addRegions (backedBlockListNew bs) rs = .ok bbl) ↔
      rs.Pairwise (fun a b => a.block < b.block) ∧ ¬ Stale bs rs ∧ (bs = 0 → rs.length ≤ 1) := by
  rcases Nat.eq_zero_or_pos bs with rfl | hbs
  · have hshort : rs.length ≤ 1 → ∃ o : Option Region, rs = o.toList := by
      intro h
      rcases rs with _ | ⟨a, _ | ⟨b, rest⟩⟩
      · exact ⟨none, rfl⟩
      · exact ⟨some a, rfl⟩
      · simp at h
    constructor
    · rintro ⟨bbl, h⟩
      have hlen := addRegions_blockSize_zero hle (hfill rfl) h
      obtain ⟨o, rfl⟩ := hshort hlen
      cases o with
      | none => exact ⟨List.Pairwise.nil, id, fun _ => hlen⟩
      | some a => exact ⟨pairwise_singleton _ _, id, fun _ => hlen⟩
    · rintro ⟨-, -, hlen⟩
      obtain ⟨o, rfl⟩ := hshort (hlen rfl)
      cases o with
      | none => exact ⟨_, rfl⟩
      | some a =>
        rw [toList_some, addRegions, a.addTo_eq]
        exact ⟨_, rfl⟩
  · constructor
    · rintro ⟨bbl, h⟩
      have hinc := addRegions_ok_increasing hbs hbs32 hle h
      refine ⟨hinc, fun hs => ?_, fun h0 => absurd h0 hbs.ne'⟩
      rw [(addRegions_increasing hbs hbs32 hinc).2 hs] at h
      cases h
    · rintro ⟨hinc, hs, -⟩
      obtain ⟨bbl, h, -⟩ := (addRegions_increasing hbs hbs32 hinc).1 hs
      exact ⟨bbl, h⟩

/-! ### A run over the headers -/

section

variable (file : List UInt8) (fd hdrSz bs : ℕ) (crc : Bool)

/-- The chunk at `pos` does not make the reader fault, once the regions `rs` have been
added and `cur` blocks have been described. -/
structure SafeAt (rs : List Region) (cur pos : ℕ) : Prop where
  raw : (chunkHeaderAt file pos).chunkType = chunkTypeRaw → bs ≠ 0 ∧
    (u32 ((chunkHeaderAt file pos).totalSz + (2 ^ 32 - hdrSz))
        = (chunkHeaderAt file pos).chunkSz * bs →
      Addable bs cur (rs ++ (regionAt file hdrSz bs fd pos cur).toList))
  fill : (chunkHeaderAt file pos).chunkType = chunkTypeFill →
    u32 ((chunkHeaderAt file pos).totalSz + (2 ^ 32 - hdrSz)) = 4 →
    4 ≤ file.length - (pos + hdrSz) →
      Addable bs cur (rs ++ (regionAt file hdrSz bs fd pos cur).toList) ∧
      (crc = true → (chunkHeaderAt file pos).chunkSz * bs < 2 ^ 63)
  skip : (chunkHeaderAt file pos).chunkType = chunkTypeDontCare →
    u32 ((chunkHeaderAt file pos).totalSz + (2 ^ 32 - hdrSz)) = 0 → crc = true →
      (chunkHeaderAt file pos).chunkSz * bs < 2 ^ 63
  crc32 : (chunkHeaderAt file pos).chunkType = chunkTypeCrc32 → crc = true

/-- Of the next `n` headers, from `pos` on, those that the reader comes to are safe. -/
def SafeAll (n pos : ℕ) (c : UInt32) (rs : List Region) (cur : ℕ) : Prop :=
  ∀ pre p post, headerPositions file hdrSz bs n pos = pre ++ p :: post →
    PassedAll file hdrSz bs crc c pre → chunkHeaderLen ≤ file.length - p →
      SafeAt file fd hdrSz bs crc (rs ++ regionsAt file hdrSz bs fd cur pre)
        (cur + (pre.map fun p => (chunkHeaderAt file p).blocks).sum) p

/-- The reader, behind chunks of `cur` blocks with the checksum `c`, has added the
regions `rs`. -/
structure Reader.Behind (c : UInt32) (rs : List Region) (cur : ℕ) (r : Reader) : Prop where
  sound : r.Sound
  size : r.s.blockSize = bs
  added : addRegions (backedBlockListNew bs) rs = .ok r.s.backedBlockList
  ordered : cur < 2 ^ 32 → rs.Pairwise (fun a b => a.block ≤ b.block) ∧ ∀ a ∈ rs, a.block ≤ cur
  fills : bs = 0 → ∀ a ∈ rs, a.backing.type = .fill
  crc32 : crc = true → r.crc32 = c

end

section

variable {file : List UInt8} {fd hdrSz : ℕ} {crc : Bool} {r : Reader} {c : UInt32} {cur : ℕ}

/-- One more region can be added exactly if `queue_bb` does not fault. -/
theorem Reader.Behind.addSafe_iff (h : r.Behind bs crc c rs cur) {b : Region}
    (hb : b.block = u32 cur) (hfill : bs = 0 → b.backing.type = .fill) :
    r.s.backedBlockList.AddSafe (u32 cur) ↔ Addable bs cur (rs ++ [b]) := by
  have hadd : (∃ bbl, addRegions (backedBlockListNew bs) (rs ++ [b]) = .ok bbl) ↔
      ∃ bbl, queueBb r.s.backedBlockList (b.node r.s.backedBlockList.freshAddr) = .ok bbl := by
    rw [addRegions_append, h.added, ← b.addTo_eq]
    show (∃ bbl, (b.addTo r.s.backedBlockList >>= _) = _) ↔ _
    cases b.addTo r.s.backedBlockList with
    | error f =>
      constructor
      · rintro ⟨_, h⟩
        cases h
      · rintro ⟨_, h⟩
        cases h
    | ok bbl => exact ⟨fun _ => ⟨bbl, rfl⟩, fun _ => ⟨bbl, rfl⟩⟩
  have hqueue : r.s.backedBlockList.AddSafe (u32 cur) ↔
      ∃ bbl, addRegions (backedBlockListNew bs) (rs ++ [b]) = .ok bbl := by
    rw [hadd, ← hb]
    constructor
    · intro hsafe
      obtain ⟨bbl, hok, -⟩ := queueBb_of_addSafe
        (h.sound.increasing : Increasing r.s.backedBlockList.dataBlocks)
        (show r.s.backedBlockList.AddSafe (b.node r.s.backedBlockList.freshAddr).block from hsafe)
      exact ⟨bbl, hok⟩
    · rintro ⟨bbl, hok⟩
      by_contra hbad
      obtain ⟨f, hf⟩ := queueBb_fault
        (h.sound.increasing : Increasing r.s.backedBlockList.dataBlocks)
        (fun h0 c hc => (h.sound.fills h0 c hc).trans (hfill (h.size.symm.trans h0)).symm)
        (show ¬ r.s.backedBlockList.AddSafe (b.node r.s.backedBlockList.freshAddr).block from hbad)
      rw [hf] at hok
      cases hok
  rw [hqueue, Addable]
  split_ifs with hcur
  · obtain ⟨hle, hbound⟩ := h.ordered hcur
    rw [u32_of_lt hcur] at hb
    refine addRegions_ok_iff (h.size ▸ r.s.backedBlockList.blockSize_lt) ?_ fun h0 a ha => ?_
    · exact pairwise_append.mpr ⟨hle, pairwise_singleton _ _,
        fun a ha b' hb' => by rw [mem_singleton.mp hb', hb]; exact hbound a ha⟩
    · rcases mem_append.mp ha with ha | ha
      · exact h.fills h0 a ha
      · rw [mem_singleton.mp ha]
        exact hfill h0
  · exact Iff.rfl

/-- The next round is safe exactly if the file says so. -/
theorem Reader.Behind.chunkSafe_iff (file : List UInt8) (fd : ℕ)
    (hhdr : chunkHeaderLen ≤ hdrSz) (h : r.Behind bs crc c rs cur) :
    ChunkSafe file crc hdrSz (u32 cur) r ↔ (chunkHeaderLen ≤ file.length - r.pos →
      SafeAt file fd hdrSz bs crc rs cur r.pos) := by
  have haddRaw : (chunkHeaderAt file r.pos).chunkType = chunkTypeRaw → bs ≠ 0 →
      (r.s.backedBlockList.AddSafe (u32 cur) ↔
        Addable bs cur (rs ++ (regionAt file hdrSz bs fd r.pos cur).toList)) := by
    intro ht hbs
    rw [regionAt, if_pos ht, toList_some]
    exact h.addSafe_iff rfl fun h0 => absurd h0 hbs
  have haddFill : (chunkHeaderAt file r.pos).chunkType = chunkTypeFill →
      (r.s.backedBlockList.AddSafe (u32 cur) ↔
        Addable bs cur (rs ++ (regionAt file hdrSz bs fd r.pos cur).toList)) := by
    intro ht
    rw [regionAt, if_neg (by rw [ht]; decide), if_pos ht, toList_some]
    exact h.addSafe_iff rfl fun _ => rfl
  rw [ChunkSafe, max_eq_left hhdr, h.size]
  refine imp_congr_right fun _ => ?_
  constructor
  · rintro ⟨hraw, hfill, hskip, hcrc⟩
    exact ⟨fun ht => ⟨(hraw ht).1, fun hdata => (haddRaw ht (hraw ht).1).mp ((hraw ht).2 hdata)⟩,
      fun ht hdata hroom => ⟨(haddFill ht).mp (hfill ht hdata hroom).1, (hfill ht hdata hroom).2⟩,
      hskip, hcrc⟩
  · rintro ⟨hraw, hfill, hskip, hcrc⟩
    exact ⟨fun ht => ⟨(hraw ht).1, fun hdata => (haddRaw ht (hraw ht).1).mpr ((hraw ht).2 hdata)⟩,
      fun ht hdata hroom => ⟨(haddFill ht).mpr (hfill ht hdata hroom).1, (hfill ht hdata hroom).2⟩,
      hskip, hcrc⟩

/-- What a round that goes on leaves behind. -/
theorem Reader.Behind.past (h : r.Behind bs crc c rs cur) {r' : Reader} {cur' : ℕ}
    (hsound : r'.Sound) (hpast : Past file fd crc hdrSz bs cur r r' cur') :
    r'.Behind bs crc (sparseCrc32 c (describedAt file hdrSz bs r.pos))
      (rs ++ (regionAt file hdrSz bs fd r.pos cur).toList)
      (cur + (chunkHeaderAt file r.pos).blocks) := by
  have hblock : ∀ b ∈ (regionAt file hdrSz bs fd r.pos cur).toList, b.block = u32 cur := by
    intro b hb
    rw [regionAt] at hb
    split_ifs at hb
    · rw [mem_singleton.mp hb]
    · rw [mem_singleton.mp hb]
    · exact absurd hb (by simp)
  have hone : (regionAt file hdrSz bs fd r.pos cur).toList.Pairwise
      fun a b => a.block ≤ b.block := by
    cases regionAt file hdrSz bs fd r.pos cur with
    | none => exact List.Pairwise.nil
    | some b => exact pairwise_singleton _ _
  refine ⟨hsound, (addRegions_blockSize hpast.added).trans h.size, ?_, fun hcur => ?_,
    fun h0 a ha => ?_, fun hcrc => ?_⟩
  · rw [addRegions_append, h.added]
    exact hpast.added
  · obtain ⟨hle, hbound⟩ := h.ordered (by omega)
    have hu : u32 cur = cur := u32_of_lt (by omega)
    rw [hu] at hblock
    refine ⟨pairwise_append.mpr ⟨hle, hone, fun a ha b hb => hblock b hb ▸ hbound a ha⟩,
      fun a ha => ?_⟩
    rcases mem_append.mp ha with ha | ha
    · exact (hbound a ha).trans (Nat.le_add_right _ _)
    · exact (hblock a ha).le.trans (Nat.le_add_right _ _)
  · rcases mem_append.mp ha with ha | ha
    · exact h.fills h0 a ha
    · rw [regionAt] at ha
      split_ifs at ha with hraw
      · exact absurd h0 (hpast.passed.raw hraw).1
      · rw [mem_singleton.mp ha]
        rfl
      · exact absurd ha (by simp)
  · rw [hpast.crc32 hcrc, h.crc32 hcrc]

/-- The first header, and those behind it if the reader goes past the first one. -/
theorem safeAll_succ (n pos : ℕ) : SafeAll file fd hdrSz bs crc (n + 1) pos c rs cur ↔
    (chunkHeaderLen ≤ file.length - pos → SafeAt file fd hdrSz bs crc rs cur pos) ∧
      (Passed file hdrSz bs crc c pos → SafeAll file fd hdrSz bs crc n
        (pos + hdrSz + (chunkHeaderAt file pos).payloadSize bs)
        (sparseCrc32 c (describedAt file hdrSz bs pos))
        (rs ++ (regionAt file hdrSz bs fd pos cur).toList)
        (cur + (chunkHeaderAt file pos).blocks)) := by
  simp only [SafeAll, headerPositions]
  constructor
  · intro hall
    refine ⟨fun hroom => ?_, fun hpassed pre p post hpre hpassed' hroom => ?_⟩
    · have hfirst := hall [] pos _ rfl trivial hroom
      rwa [regionsAt, append_nil] at hfirst
    · have hnext := hall (pos :: pre) p post (by rw [hpre, cons_append]) ⟨hpassed, hpassed'⟩ hroom
      rwa [regionsAt, ← append_assoc, map_cons, sum_cons, ← add_assoc] at hnext
  · rintro ⟨hfirst, hbehind⟩ pre p post hpre hpassed hroom
    cases pre with
    | nil =>
      rw [nil_append, cons.injEq] at hpre
      rw [← hpre.1] at hroom ⊢
      rw [regionsAt, append_nil]
      exact hfirst hroom
    | cons p' pre =>
      rw [cons_append, cons.injEq] at hpre
      rw [← hpre.1] at hpassed ⊢
      rw [regionsAt, ← append_assoc, map_cons, sum_cons, ← add_assoc]
      exact hbehind hpassed.1 pre p post hpre.2 hpassed.2 hroom

/-- **A whole run** does not fault exactly if every chunk that the reader comes to is
safe. -/
theorem readChunks_fault_iff (file : List UInt8) (fd : ℕ) (hhdr : chunkHeaderLen ≤ hdrSz) :
    ∀ (n : ℕ) {r : Reader} {c : UInt32} {rs : List Region} {cur : ℕ}, r.Behind bs crc c rs cur →
    ((∀ f, readChunks file fd crc hdrSz n (u32 cur) r ≠ .error (.fault f)) ↔
      SafeAll file fd hdrSz bs crc n r.pos c rs cur) := by
  intro n
  induction n with
  | zero =>
    intro r c rs cur _
    exact ⟨fun _ pre pos post h => absurd h (by simp [headerPositions]), fun _ f h => by cases h⟩
  | succ n ih =>
    intro r c rs cur h
    have hround : Guarded _ _ (readChunk file fd crc hdrSz (u32 cur) r) :=
      readChunk_guarded h.sound (u32_lt cur)
    rw [safeAll_succ, ← h.chunkSafe_iff file fd hhdr]
    by_cases hsafe : ChunkSafe file crc hdrSz (u32 cur) r
    swap
    · obtain ⟨f, hf⟩ := hround.2 hsafe
      refine iff_of_false (fun hno => hno f ?_) fun hall => hsafe hall.1
      rw [readChunks, hf]
      rfl
    rw [and_iff_right hsafe]
    cases hstep : readChunk file fd crc hdrSz (u32 cur) r with
    | error e =>
      rw [hstep] at hround
      have hnot : ¬ Passed file hdrSz bs crc c r.pos := by
        intro hpassed
        have hpassed' := hpassed.of_crc32 fun hcrc => (h.crc32 hcrc).symm
        cases e with
        | fault f => exact (hround.1 hsafe).1 f rfl
        | ret code => exact readChunk_ne_ret hhdr h.size hpassed' code hstep
      refine ⟨fun _ hpassed => absurd hpassed hnot, fun _ f => ?_⟩
      rw [readChunks, hstep]
      exact (hround.1 hsafe).1 f
    | ok p =>
      obtain ⟨r', cur'⟩ := p
      rw [hstep] at hround
      obtain ⟨hsound, -⟩ := (hround.1 hsafe).2 _ rfl
      have hpast := readChunk_past hhdr h.size hstep
      have hpassed := hpast.passed.of_crc32 h.crc32
      have hrun : readChunks file fd crc hdrSz (n + 1) (u32 cur) r
          = readChunks file fd crc hdrSz n (u32 (cur + (chunkHeaderAt file r.pos).blocks)) r' := by
        rw [readChunks, hstep, ← hpast.cur]
        rfl
      rw [hrun, ih (h.past hsound hpast), hpast.pos]
      exact ⟨fun hall _ => hall, fun hall => hall hpassed⟩

end

/-! ### The import -/

end Sparse
