/-
The lengths of the pieces of `sparse_file_resparse`.

`move_chunks_up_to_len` counts the chunks of the nodes it takes.  Of the skip chunks
only the one in front and the one at the end are in the overhead, those for the gaps
between the nodes are not, so that a piece with gaps can be too long:

* `sparseFileLen_eq` — the value of `sparse_file_len`, in closed form;
* `sparseFileLen_write` — it is the length of what is written;
* `pieces_le_iff` — the pieces keep to the limit exactly if in every round the nodes
  taken and the skips come to no more;
* `pieces_le_of_adjacent` — they do if there are no gaps between the nodes.
-/
import AndroidSystem.Resparse
import AndroidSystem.RoundTrip

open CInt List

namespace Sparse

open BackedBlock

/-! ### `sparse_file_len` -/

/-- The bytes of the skip chunk from block `last` to block `next`. -/
def skipBytes (last next : ℕ) : ℤ := if last < next then chunkHeaderLen else 0

/-- The bytes of the chunks of the nodes and of the gaps before them. -/
def chainBytes (bs : ℕ) : ℕ → List BackedBlock → ℤ
  | _, [] => 0
  | last, bb :: rest =>
    skipBytes last bb.block + bb.chunkBytes bs + chainBytes bs (bb.stop bs) rest

/-- The bytes of the stream for an image of `len` bytes, with a checksum.  A skip to the
end that is not a multiple of the block size is refused. -/
def streamBytes (bs len : ℕ) (l : List BackedBlock) : ℤ :=
  sparseHeaderLen + chainBytes bs 0 l +
    (if len % bs = 0 then skipBytes (endBlock bs 0 l) (len / bs) else 0) + (chunkHeaderLen + 4)

/-- A block list behind block `last` whose positions do not wrap; its nodes may be
empty. -/
structure Loose (bs last : ℕ) (l : List BackedBlock) : Prop where
  ord : l.Pairwise fun a b => a.stop bs ≤ b.block
  behind : ∀ bb ∈ l, last ≤ bb.block
  fits : ∀ bb ∈ l, bb.Fits bs
  stop_lt : ∀ bb ∈ l, bb.stop bs < 2 ^ 32 ∧ bb.stop bs * bs < 2 ^ 63

variable {bs : ℕ}

theorem Loose.tail {last : ℕ} {bb : BackedBlock} {l : List BackedBlock}
    (h : Loose bs last (bb :: l)) : Loose bs (bb.stop bs) l where
  ord := (pairwise_cons.mp h.ord).2
  behind := (pairwise_cons.mp h.ord).1
  fits c hc := h.fits c (mem_cons_of_mem bb hc)
  stop_lt c hc := h.stop_lt c (mem_cons_of_mem bb hc)

theorem Layout.loose {last : ℕ} {l : List BackedBlock} (h : Layout bs last l) :
    Loose bs last l := ⟨h.ordered.ord, h.behind, h.fits, h.stop_lt⟩

theorem zeroLen_eq {len : ℕ} (hbs : 0 < bs) (h : len + bs ≤ 2 ^ 32) :
    u32 (align len bs + (2 ^ 32 - len)) = numBlocks bs len * bs - len := by
  have hle := le_numBlocks_mul hbs len
  have hlt : numBlocks bs len * bs ≤ len + bs - 1 := Nat.div_mul_le_self _ _
  rw [align_eq h, show numBlocks bs len * bs + (2 ^ 32 - len)
    = numBlocks bs len * bs - len + 2 ^ 32 by omega, u32, Nat.add_mod_right,
    Nat.mod_eq_of_lt (by omega)]

theorem BackedBlock.Fits.checksum (hbs : 0 < bs) {bb : BackedBlock} (h : bb.Fits bs)
    (htype : bb.backing.type ≠ .fill) :
    0 ≤ i32 bb.len ∧ 0 ≤ i32 (u32 (align bb.len bs + (2 ^ 32 - bb.len))) := by
  obtain ⟨h1, h2, -⟩ := h.raw htype
  rw [zeroLen_eq hbs h.round, i32_of_lt h1, i32_of_lt (by omega)]
  omega

section

variable {bs : ℕ} {crc : Bool} {out : OutputFile ℤ}

/-- A skip on the counter. -/
theorem Counting.writeSkipChunk (h : Counting bs crc out) (skipLen : ℤ) :
    Counting bs crc (writeSkipChunk counterOps out skipLen).1 ∧
      (Sparse.writeSkipChunk counterOps out skipLen).1.dev
        = out.dev + if skipLen % bs = 0 then (chunkHeaderLen : ℤ) else 0 := by
  obtain ⟨hsparse, hsize, huse⟩ := h
  rw [Sparse.writeSkipChunk, if_pos hsparse, writeSparseSkipChunk, hsize]
  by_cases hmod : skipLen % bs = 0
  · rw [if_neg (not_not.mpr hmod), if_pos hmod]
    simp only [put_counter, lt_irrefl, if_false, ChunkHeader.length_encode]
    exact ⟨⟨hsparse, hsize, huse⟩, rfl⟩
  · rw [if_pos hmod, if_neg hmod]
    exact ⟨⟨hsparse, hsize, huse⟩, (add_zero _).symm⟩

/-- The loop of `write_all_blocks` on the counter. -/
theorem Counting.writeBlocks (env : Env) (hbs : 0 < bs) : ∀ {l : List BackedBlock} {last : ℕ}
    {out : OutputFile ℤ}, Counting bs crc out → Loose bs last l →
    ∃ out', writeBlocks env counterOps bs last l out = .ok (out', endBlock bs last l) ∧
      Counting bs crc out' ∧ out'.dev = out.dev + chainBytes bs last l := by
  intro l
  induction l with
  | nil => exact fun {last out} hout _ => ⟨out, rfl, hout, (add_zero _).symm⟩
  | cons bb rest ih =>
    intro last out hout hl
    have hfits := hl.fits bb mem_cons_self
    obtain ⟨h32, h63⟩ := hl.stop_lt bb mem_cons_self
    have hstop : u32 (bb.block + divRoundUp bb.len bs) = bb.stop bs := by
      rw [divRoundUp_eq hfits.round]
      exact u32_of_lt h32
    -- the gap, if there is one
    obtain ⟨out₁, hgap, hout₁, hdev₁⟩ : ∃ out₁, (if bb.block > last then
        (Sparse.writeSkipChunk counterOps out (i64 (((bb.block - last) * bs : ℕ) : ℤ))).1
        else out) = out₁ ∧ Counting bs crc out₁ ∧
          out₁.dev = out.dev + skipBytes last bb.block := by
      rw [skipBytes]
      by_cases hg : last < bb.block
      · have hle : (bb.block - last) * bs ≤ bb.stop bs * bs :=
          Nat.mul_le_mul_right _ (by rw [stop]; omega)
        have hmod : (((bb.block - last) * bs : ℕ) : ℤ) % bs = 0 := by
          rw [← Int.natCast_mod, Nat.mul_mod_left, Nat.cast_zero]
        obtain ⟨hcount, hdev⟩ := hout.writeSkipChunk (((bb.block - last) * bs : ℕ) : ℤ)
        rw [if_pos hmod] at hdev
        rw [if_pos hg, if_pos hg, i64_of_range (by omega) (by omega)]
        exact ⟨_, rfl, hcount, hdev⟩
      · rw [if_neg hg, if_neg hg]
        exact ⟨_, rfl, hout, (add_zero _).symm⟩
    obtain ⟨out₂, hrun, hout₂, hdev₂⟩ := hout₁.writeBlock env bb fun _ => hfits.checksum hbs
    obtain ⟨out₃, hrest, hout₃, hdev₃⟩ := ih hout₂ hl.tail
    refine ⟨out₃, ?_, hout₃, ?_⟩
    · rw [Sparse.writeBlocks, hgap, hrun, hstop]
      exact hrest
    · rw [hdev₃, hdev₂, hdev₁, chainBytes]
      ring

end

variable {len : ℕ}

/-- The skip at the end of `write_all_blocks` on the counter. -/
theorem Counting.writePad (hbs : 0 < bs) {crc : Bool} {out : OutputFile ℤ}
    (h : Counting bs crc out) {e : ℕ} (he : e * bs ≤ len) :
    ∃ out', (if 0 < len - e * bs then
        (Sparse.writeSkipChunk counterOps out ((len - e * bs : ℕ) : ℤ)).1 else out) = out' ∧
      Counting bs crc out' ∧
      out'.dev = out.dev + if len % bs = 0 then skipBytes e (len / bs) else 0 := by
  have hmod : (((len - e * bs : ℕ) : ℤ) % bs = 0) ↔ len % bs = 0 := by
    have hsub : (len - e * bs) % bs = len % bs := by
      conv_rhs => rw [← Nat.sub_add_cancel he, Nat.add_mul_mod_self_right]
    rw [← Int.natCast_mod, hsub, Nat.cast_eq_zero]
  have hpos : len % bs = 0 → (0 < len - e * bs ↔ e < len / bs) := by
    intro h0
    obtain ⟨q, rfl⟩ := Nat.dvd_of_mod_eq_zero h0
    rw [Nat.mul_div_cancel_left _ hbs, mul_comm bs, ← Nat.sub_mul]
    constructor
    · intro hlt
      exact Nat.lt_of_sub_pos (Nat.pos_of_mul_pos_right hlt)
    · intro hlt
      exact Nat.mul_pos (Nat.sub_pos_of_lt hlt) hbs
  by_cases hgap : 0 < len - e * bs
  · obtain ⟨hcount, hdev⟩ := h.writeSkipChunk ((len - e * bs : ℕ) : ℤ)
    rw [if_pos hgap]
    refine ⟨_, rfl, hcount, hdev.trans ?_⟩
    by_cases h0 : len % bs = 0
    · rw [if_pos (hmod.mpr h0), if_pos h0, skipBytes, if_pos ((hpos h0).mp hgap)]
    · rw [if_neg (hmod.not.mpr h0), if_neg h0]
  · rw [if_neg hgap]
    refine ⟨out, rfl, h, ?_⟩
    have h0 : len % bs = 0 := by
      rw [show len = e * bs by omega, Nat.mul_mod_left]
    rw [if_pos h0, skipBytes, if_neg ((hpos h0).not.mp hgap), add_zero]

variable {s : SparseFile}

variable (env : Env)

/-- **The value of `sparse_file_len`**, with a checksum. -/
theorem sparseFileLen_eq (hbs : 0 < s.blockSize) (hlen : s.len = len)
    (h63 : len < 2 ^ 63) (hl : Loose s.blockSize 0 s.blocks)
    (hinside : ∀ bb ∈ s.blocks, bb.stop s.blockSize * s.blockSize ≤ len) :
    sparseFileLen env s true true = .ok (streamBytes s.blockSize len s.blocks) := by
  obtain ⟨n, hcount⟩ := sparseCountChunks_ok hbs
  have hend : endBlock s.blockSize 0 s.blocks * s.blockSize ≤ len :=
    (Nat.le_div_iff_mul_le hbs).mp (endBlock_le (Nat.zero_le _) fun bb hbb =>
      (Nat.le_div_iff_mul_le hbs).mpr (hinside bb hbb))
  obtain ⟨out, hout⟩ : ∃ out, out = (outputFileInit counterOps 0 s.blockSize s.len true n true).1 :=
    ⟨_, rfl⟩
  have hcounting : Counting s.blockSize true out := by
    rw [hout]
    exact ⟨rfl, rfl, rfl⟩
  have hheader : out.dev = sparseHeaderLen := by
    rw [hout]
    show 0 + i32 (sparseHeader s.blockSize s.len n true).encode.length = _
    rw [SparseHeader.length_encode, zero_add]
    rfl
  obtain ⟨out₁, hblocks, hout₁, hdev₁⟩ := hcounting.writeBlocks env hbs hl
  obtain ⟨out₂, hpad, hout₂, hdev₂⟩ := hout₁.writePad hbs hend
  have hskip : i64 (s.len - i64 ((endBlock s.blockSize 0 s.blocks * s.blockSize : ℕ) : ℤ))
      = ((len - endBlock s.blockSize 0 s.blocks * s.blockSize : ℕ) : ℤ) := by
    rw [i64_of_range (z := ((endBlock s.blockSize 0 s.blocks * s.blockSize : ℕ) : ℤ)) (by omega)
      (by omega), hlen, i64_of_range (by omega) (by omega)]
    omega
  have hall : writeAllBlocks env counterOps s out = .ok out₂ := by
    rw [writeAllBlocks, hblocks]
    simp only [bind, Except.bind, hskip, gt_iff_lt, Nat.cast_pos]
    rw [if_neg (by omega), ← apply_ite Except.ok, hpad]
  have hclose : (outputFileClose counterOps out₂).dev = out₂.dev + (chunkHeaderLen + 4) := by
    rw [outputFileClose, if_pos hout₂.sparse, writeSparseEndChunk, if_pos hout₂.useCrc]
    simp only [put_counter, lt_irrefl, if_false, ChunkHeader.length_encode, length_leBytes]
    rw [add_assoc]
    rfl
  have hrun : sparseFileOutput env counterOps s 0 true true
      = .ok (streamBytes s.blockSize len s.blocks, 0) := by
    have hret : (outputFileInit counterOps 0 s.blockSize s.len true n true).2 = 0 := rfl
    simp only [sparseFileOutput, hcount, bind, Except.bind, hret, lt_irrefl, if_false, ← hout,
      hall]
    rw [hclose, hdev₂, hdev₁, hheader, streamBytes]
  rw [sparseFileLen, hrun]
  rfl

/-- Counting the bytes is one way to write. -/
theorem counterSink : Sink counterOps fun b => (b.length : ℤ) where
  write b data h := by
    show ((b.length : ℤ) + i32 data.length, (0 : ℤ)) = _
    rw [i32_of_lt h, length_append, Nat.cast_add]

theorem twoBlocks_regular : twoBlocks.Regular 8 where
  bs_pos := by decide
  len_eq := rfl
  len_lt := by norm_num
  blocks_lt := by decide
  layout := ⟨⟨by decide, by decide⟩, by decide, forall_mem_singleton.mpr ⟨by decide, fun _ =>
    by decide⟩, by decide⟩
  inside := by decide

/-- **`sparse_file_len` is right**: it returns the number of bytes that `sparse_file_write` writes
to an empty file. -/
theorem sparseFileLen_write (h : s.Regular len)
    (hlt : announcedChunks env s.blockSize len s.blocks < 2 ^ 32) (crc : Bool) :
    ∃ f, sparseFileWrite env s ⟨[], 0⟩ true crc = .ok (f, 0) ∧
      sparseFileLen env s true crc = .ok f.contents.length := by
  refine ⟨_, sparseFileWrite_stream env h hlt crc, ?_⟩
  have hcount := sparseFileOutput_sink counterSink env h hlt crc
  rw [length_nil, Nat.cast_zero] at hcount
  rw [sparseFileLen, hcount]
  rfl

theorem sparseFileLen_write_twoBlocks : ∃ f,
    sparseFileWrite Env.zero twoBlocks ⟨[], 0⟩ true true = .ok (f, 0) ∧
      sparseFileLen Env.zero twoBlocks true true = .ok f.contents.length :=
  sparseFileLen_write Env.zero twoBlocks_regular (by decide) true

/-! ### The nodes of a piece -/

variable {l' : List BackedBlock} {bb : BackedBlock} {l : List BackedBlock} {last : ℕ}

theorem Backing.type_advance (n : ℕ) (backing : Backing) :
    (backing.advance n).type = backing.type := by
  cases backing <;> rfl

/-- The node `c` lies inside `bb`, and can be written if `bb` can. -/
structure BackedBlock.Part (bs : ℕ) (bb c : BackedBlock) : Prop where
  block_le : bb.block ≤ c.block
  stop_le : c.stop bs ≤ bb.stop bs
  fits : bb.Fits bs → c.Fits bs

theorem Halves.part (hbs : 0 < bs) {a b : BackedBlock} (h : Halves bs bb a b) :
    bb.Part bs a ∧ bb.Part bs b := by
  have hblocks := h.numBlocks_eq hbs
  have hstop := (h.stop_eq hbs Env.zero).1
  have hleft := h.stop_left hbs
  have hlen := h.len
  have hright : b.block ≤ b.stop bs := Nat.le_add_right _ _
  have hmul : numBlocks bs bb.len * bs = a.len + numBlocks bs b.len * bs := by
    rw [hblocks, Nat.add_mul, Nat.div_mul_cancel h.dvd]
  have ha : numBlocks bs a.len * bs = a.len := by
    obtain ⟨k, hk⟩ := h.dvd
    rw [hk, mul_comm bs k, numBlocks_mul hbs]
  refine ⟨⟨h.block_left.ge, by omega, fun hf => ⟨by have := hf.round; omega, fun ht => ?_⟩⟩,
    ⟨by rw [h.block_right]; exact Nat.le_add_right _ _, hstop.ge,
      fun hf => ⟨by have := hf.round; omega, fun ht => ?_⟩⟩⟩
  · rw [h.backing_left] at ht
    obtain ⟨h1, h2, h3⟩ := hf.raw ht
    omega
  · rw [h.backing_right, Backing.type_advance] at ht
    obtain ⟨h1, h2, h3⟩ := hf.raw ht
    omega

theorem Recut.part (hbs : 0 < bs) (h : Recut bs l l') :
    ∀ c ∈ l', ∃ bb ∈ l, bb.Part bs c := by
  have hself : ∀ c : BackedBlock, c.Part bs c := fun c => ⟨le_rfl, le_rfl, id⟩
  cases h with
  | refl => exact fun c hc => ⟨c, hc, hself c⟩
  | @cut bb a b hhalf pre post =>
    obtain ⟨ha, hb⟩ := hhalf.part hbs
    simp only [forall_mem_append, forall_mem_cons]
    exact ⟨fun c hc => ⟨c, by simp [hc], hself c⟩, ⟨bb, by simp, ha⟩, ⟨bb, by simp, hb⟩,
      fun c hc => ⟨c, by simp [hc], hself c⟩⟩

theorem Recut.loose (hbs : 0 < bs) (h : Recut bs l l') (hl : Loose bs last l) :
    Loose bs last l' := by
  have hord : InOrder bs l := ⟨hl.ord, fun bb hbb => (hl.stop_lt bb hbb).1.le⟩
  refine ⟨(h.inOrder hbs hord Env.zero).1.ord, fun c hc => ?_, fun c hc => ?_, fun c hc => ?_⟩
  · obtain ⟨bb, hbb, hpart⟩ := h.part hbs c hc
    exact (hl.behind bb hbb).trans hpart.block_le
  · obtain ⟨bb, hbb, hpart⟩ := h.part hbs c hc
    exact hpart.fits (hl.fits bb hbb)
  · obtain ⟨bb, hbb, hpart⟩ := h.part hbs c hc
    obtain ⟨h1, h2⟩ := hl.stop_lt bb hbb
    exact ⟨hpart.stop_le.trans_lt h1, (Nat.mul_le_mul_right bs hpart.stop_le).trans_lt h2⟩

theorem Loose.of_sublist (h : Loose bs last l) (hsub : l'.Sublist l) : Loose bs last l' where
  ord := h.ord.sublist hsub
  behind bb hbb := h.behind bb (hsub.subset hbb)
  fits bb hbb := h.fits bb (hsub.subset hbb)
  stop_lt bb hbb := h.stop_lt bb (hsub.subset hbb)

/-! ### The pieces -/

variable {r : Resparse} {maxLen : ℕ}

/-- A sparse file of `len` bytes whose stream can be counted: its regions, some of them
perhaps empty, are in order and lie inside, and no position wraps. -/
structure SparseFile.Writable (s : SparseFile) (len : ℕ) : Prop where
  bs_pos : 0 < s.blockSize
  len_eq : s.len = len
  len_lt : len < 2 ^ 63
  loose : Loose s.blockSize 0 s.blocks
  inside : ∀ bb ∈ s.blocks, bb.stop s.blockSize * s.blockSize ≤ len

theorem SparseFile.Regular.writable (h : s.Regular len) :
    s.Writable len :=
  ⟨h.bs_pos, h.len_eq, h.len_lt.trans_le (Nat.sub_le _ _), h.layout.loose, h.inside⟩

/-- What the next round takes and what it leaves. -/
def Resparse.cut (maxLen : ℕ) (r : Resparse) : List BackedBlock × List BackedBlock × Bool :=
  cutChain r.inS.blockSize (u32 (maxLen + (2 ^ 32 - overhead))) r.addr true 0 r.inS.blocks

/-- The stream of the file, with a checksum, is of at most `maxLen` bytes. -/
def SparseFile.Within (env : Env) (maxLen : ℕ) (s : SparseFile) : Prop :=
  ∃ k : ℤ, sparseFileLen env s true true = .ok k ∧ k ≤ maxLen

/-- The chunks that the next round takes come to at most `maxLen` bytes with the header,
the checksum and all skips, those of the gaps included. -/
def Resparse.Room (maxLen len : ℕ) (r : Resparse) : Prop :=
  streamBytes r.inS.blockSize len (r.cut maxLen).1 ≤ maxLen

/-- **One round** on a file that can be written: so is what is left, and the length of
the piece is that of what was taken. -/
theorem resparseRound_length (maxLen outSCount : ℕ) (h : r.inS.Writable len) :
    ∃ r', resparseRound env maxLen outSCount r = .ok r' ∧ r'.inS.Writable len ∧
      r'.inS.blockSize = r.inS.blockSize ∧ r'.inS.blocks = (r.cut maxLen).2.1 ∧
      (r.c < outSCount → ∃ p, r'.outS = r.outS ++ [p] ∧ sparseFileLen env p true true
        = .ok (streamBytes r.inS.blockSize len (r.cut maxLen).1)) ∧
      (¬ r.c < outSCount → r'.outS = r.outS) := by
  have hbs := h.bs_pos
  have hlen := h.len_lt
  have hloose := h.loose
  have hstop : ∀ bb ∈ r.inS.blocks, bb.stop r.inS.blockSize ≤ 2 ^ 32 := fun bb hbb =>
    (hloose.stop_lt bb hbb).1.le
  obtain ⟨cut, hcut⟩ : ∃ cut, cut = r.cut maxLen := ⟨_, rfl⟩
  obtain ⟨inS, piece, hrun, hin, hpiece, hsin, hspiece, hlin, hlpiece⟩ :=
    moveChunksUpToLen_eq env hbs (sparseFileNew_blockSize _) rfl maxLen r.addr cut hcut
  have hrecut := (cutChain_cut hbs _ r.addr r.inS.blocks true 0 hstop cut hcut).1.recut
  have hcutLoose := hrecut.loose hbs hloose
  have hinside : ∀ c ∈ cut.1 ++ cut.2.1, c.stop r.inS.blockSize * r.inS.blockSize ≤ len := by
    intro c hc
    obtain ⟨bb, hbb, hpart⟩ := hrecut.part hbs c hc
    exact (Nat.mul_le_mul_right _ hpart.stop_le).trans (h.inside bb hbb)
  have hleft : inS.Writable len := by
    refine ⟨by rw [hsin]; exact hbs, hlin.trans h.len_eq, hlen, ?_, ?_⟩
    · rw [hsin, hin]
      exact hcutLoose.of_sublist (sublist_append_right cut.1 cut.2.1)
    · rw [hsin, hin]
      exact fun bb hbb => hinside bb (mem_append_right _ hbb)
  have hcount : sparseFileLen env piece true true
      = .ok (streamBytes r.inS.blockSize len (r.cut maxLen).1) := by
    have hl := hcutLoose.of_sublist (sublist_append_left cut.1 cut.2.1)
    have hplen : piece.len = len := by
      rw [hlpiece]
      show i64 r.inS.len = len
      rw [h.len_eq, i64_of_range (by omega) (by omega)]
    rw [sparseFileLen_eq env (by rw [hspiece]; exact hbs) hplen (by omega)
      (by rw [hspiece, hpiece]; exact hl)
      (by rw [hspiece, hpiece]; exact fun bb hbb => hinside bb (mem_append_left _ hbb)),
      hspiece, hpiece, hcut]
  rw [resparseRound, hrun]
  by_cases hc : r.c < outSCount
  · exact ⟨_, if_pos hc, hleft, hsin, hcut ▸ hin, fun _ => ⟨piece, rfl, hcount⟩,
      fun hn => absurd hc hn⟩
  · exact ⟨_, if_neg hc, hleft, hsin, hcut ▸ hin, fun hn => absurd hn hc, fun _ => rfl⟩

theorem resparseRounds_succ (maxLen outSCount : ℕ) : ∀ (n : ℕ) (r : Resparse),
    resparseRounds env maxLen outSCount (n + 1) r
      = (resparseRounds env maxLen outSCount n r >>= fun r =>
          if r.bb then resparseRound env maxLen outSCount r else .ok r) := by
  intro n
  induction n with
  | zero =>
    intro r
    rw [resparseRounds, resparseRounds]
    cases hb : r.bb with
    | false => simp [bind, Except.bind, hb]
    | true =>
      simp only [hb, if_true, bind, Except.bind]
      cases resparseRound env maxLen outSCount r <;> rfl
  | succ n ih =>
    intro r
    rw [resparseRounds, resparseRounds]
    cases hb : r.bb with
    | false => simp [bind, Except.bind, hb]
    | true =>
      simp only [if_true, bind, Except.bind]
      cases hround : resparseRound env maxLen outSCount r with
      | error e => rfl
      | ok r₁ => exact ih r₁

/-- The rounds do not fault, and what is left can be written. -/
theorem resparseRounds_writable (h : s.Writable len) (maxLen outSCount : ℕ) :
    ∀ n, ∃ r, resparseRounds env maxLen outSCount n (resparseStart s)
      = .ok r ∧ r.inS.Writable len := by
  intro n
  induction n with
  | zero => exact ⟨_, rfl, h⟩
  | succ n ih =>
    obtain ⟨r, hrun, hw⟩ := ih
    rw [resparseRounds_succ, hrun]
    by_cases hb : r.bb = true
    · obtain ⟨r', hround, hw', -⟩ := resparseRound_length env maxLen outSCount hw
      exact ⟨r', (if_pos hb).trans hround, hw'⟩
    · exact ⟨r, if_neg hb, hw⟩

/-- The pieces after one more round. -/
theorem pieces_succ (h : s.Writable len) {outSCount n : ℕ}
    (hrun : resparseRounds env maxLen outSCount n (resparseStart s) = .ok r) :
    ∃ r', resparseRounds env maxLen outSCount (n + 1) (resparseStart s) = .ok r' ∧
      ((∀ p ∈ r'.outS, p.Within env maxLen) ↔ (∀ p ∈ r.outS, p.Within env maxLen) ∧
        (r.bb = true → r.c < outSCount → r.Room maxLen len)) := by
  have hw : r.inS.Writable len := by
    obtain ⟨r₀, hr₀, hw⟩ := resparseRounds_writable env h maxLen outSCount n
    rw [hrun] at hr₀
    exact Except.ok.inj hr₀ ▸ hw
  rw [resparseRounds_succ, hrun]
  by_cases hb : r.bb = true
  · obtain ⟨r', hround, -, -, -, hfill, hkeep⟩ := resparseRound_length env maxLen outSCount hw
    refine ⟨r', (if_pos hb).trans hround, ?_⟩
    by_cases hc : r.c < outSCount
    · obtain ⟨p, hout, hlen⟩ := hfill hc
      have hpiece : p.Within env maxLen ↔ r.Room maxLen len := by
        rw [SparseFile.Within, hlen]
        exact ⟨fun ⟨k, hk, hle⟩ => (Except.ok.inj hk).trans_le hle, fun hle => ⟨_, rfl, hle⟩⟩
      rw [hout, forall_mem_append, forall_mem_singleton, hpiece]
      exact and_congr_right fun _ => ⟨fun hroom _ _ => hroom, fun hroom => hroom hb hc⟩
    · rw [hkeep hc]
      exact ⟨fun hp => ⟨hp, fun _ hc' => absurd hc' hc⟩, fun hp => hp.1⟩
  · exact ⟨r, if_neg hb, fun hp => ⟨hp, fun hb' => absurd hb' hb⟩, fun hp => hp.1⟩

/-! ### Images without gaps -/

variable {first : ℕ}

/-- The nodes follow each other from block `last` on, without gaps. -/
def Adjacent (bs : ℕ) : ℕ → List BackedBlock → Prop
  | _, [] => True
  | last, bb :: rest => bb.block = last ∧ Adjacent bs (bb.stop bs) rest

/-- The bytes of the chunks of the nodes. -/
def nodeBytes (bs : ℕ) (l : List BackedBlock) : ℤ := (l.map (BackedBlock.chunkBytes bs)).sum

@[simp] theorem nodeBytes_cons (bs : ℕ) (bb : BackedBlock) (l : List BackedBlock) :
    nodeBytes bs (bb :: l) = bb.chunkBytes bs + nodeBytes bs l := by
  simp [nodeBytes]

theorem adjacent_append : ∀ {l l' : List BackedBlock} {last : ℕ},
    Adjacent bs last (l ++ l') ↔ Adjacent bs last l ∧ Adjacent bs (endBlock bs last l) l' := by
  intro l
  induction l with
  | nil => exact ⟨fun h => ⟨trivial, h⟩, fun h => h.2⟩
  | cons bb rest ih =>
    intro l' last
    rw [cons_append, Adjacent, Adjacent, ih, and_assoc]
    rfl

theorem Recut.adjacent (hbs : 0 < bs) (h : Recut bs l l') (hl : Adjacent bs last l) :
    Adjacent bs last l' := by
  cases h with
  | refl => exact hl
  | @cut bb a b hhalf pre post =>
    obtain ⟨hpre, hblock, hpost⟩ := adjacent_append.mp hl
    refine adjacent_append.mpr ⟨hpre, hhalf.block_left.trans hblock, (hhalf.stop_left hbs).symm, ?_⟩
    rw [← (hhalf.stop_eq hbs Env.zero).1]
    exact hpost

theorem chainBytes_adjacent : ∀ {l : List BackedBlock} {last : ℕ}, Adjacent bs last l →
    chainBytes bs last l = nodeBytes bs l := by
  intro l
  induction l with
  | nil => exact fun _ => rfl
  | cons bb rest ih =>
    rintro last ⟨hblock, hrest⟩
    rw [chainBytes, ih hrest, nodeBytes_cons, skipBytes, if_neg (by omega), zero_add]

theorem skipBytes_le (last next : ℕ) : skipBytes last next ≤ chunkHeaderLen := by
  rw [skipBytes]
  split
  · exact le_rfl
  · exact Int.natCast_nonneg _

theorem chainBytes_le (h : Adjacent bs first l) (last : ℕ) :
    chainBytes bs last l ≤ chunkHeaderLen + nodeBytes bs l := by
  cases l with
  | nil => exact Int.natCast_nonneg _
  | cons bb rest =>
    have := skipBytes_le last bb.block
    rw [chainBytes, chainBytes_adjacent h.2, nodeBytes_cons]
    omega

theorem BackedBlock.Fits.rawBytes_eq (hbs : 0 < bs) (h : bb.Fits bs)
    (htype : bb.backing.type ≠ .fill) :
    rawBytes bs bb.len = chunkHeaderLen + (numBlocks bs bb.len * bs : ℕ) := by
  have hle := le_numBlocks_mul hbs bb.len
  obtain ⟨h1, h2, -⟩ := h.raw htype
  rw [rawBytes, zeroLen_eq hbs h.round, i32_of_lt h1, i32_of_lt (by omega)]
  omega

/-- A chunk has a header, and a word or the blocks of the node. -/
theorem BackedBlock.Fits.chunkBytes_mem (hbs : 0 < bs) (h : bb.Fits bs) : 0 ≤ bb.chunkBytes bs ∧
    bb.chunkBytes bs ≤ chunkHeaderLen + max 4 (numBlocks bs bb.len * bs : ℕ) := by
  have hraw := h.rawBytes_eq hbs
  rw [chunkBytes]
  cases hb : bb.backing with
  | fill v =>
    dsimp only
    omega
  | data p =>
    dsimp only
    rw [hraw (by simp [hb, Backing.type])]
    omega
  | file name o | fd n o =>
    dsimp only
    rw [hraw (by simp [hb, Backing.type])]
    split <;> omega

/-- The part of a node that a round takes when `room` bytes are left: its chunk may have
a header more than that. -/
theorem chunkBytes_splitBb_le (hbs : 0 < bs) (hfits : bb.Fits bs) (hstop : bb.stop bs ≤ 2 ^ 32)
    {room : ℕ} (hroom : 4 ≤ room) (addr : ℕ) :
    (splitBb bs room addr bb).1.chunkBytes bs ≤ chunkHeaderLen + room := by
  have hdown : alignDown room bs ≤ room := Nat.mul_div_le room bs
  have hblocks : numBlocks bs (alignDown room bs) * bs = alignDown room bs := by
    rw [alignDown, mul_comm bs (room / bs), numBlocks_mul hbs]
  have hkey : ∀ c : BackedBlock, c.Fits bs → c.len ≤ alignDown room bs →
      c.chunkBytes bs ≤ chunkHeaderLen + room := by
    intro c hc hlen
    have hle := (hc.chunkBytes_mem hbs).2
    have hmul : numBlocks bs c.len * bs ≤ numBlocks bs (alignDown room bs) * bs :=
      Nat.mul_le_mul_right bs (numBlocks_mono hlen)
    omega
  rcases splitBb_cases hbs room addr hstop with ⟨hs, hlen⟩ | ⟨a, b, hs, hhalf, hlen⟩
  · rw [hs]
    exact hkey bb hfits hlen
  · rw [hs]
    exact hkey a ((hhalf.part hbs).1.fits hfits) hlen.le

theorem BackedBlock.chunkBytes_fill (bs : ℕ) (htype : bb.backing.type = .fill) :
    bb.chunkBytes bs = 16 := by
  rw [chunkBytes]
  cases hb : bb.backing with
  | fill v => rfl
  | data p | file name o | fd n o => simp [hb, Backing.type] at htype

/-- The part of a node of data is rounded down to blocks. -/
theorem chunkBytes_splitBb_raw (hbs : 0 < bs) (hfits : bb.Fits bs) (hstop : bb.stop bs ≤ 2 ^ 32)
    (htype : bb.backing.type ≠ .fill) (room addr : ℕ) :
    (splitBb bs room addr bb).1.chunkBytes bs ≤ chunkHeaderLen + alignDown room bs := by
  have hblocks : numBlocks bs (alignDown room bs) * bs = alignDown room bs := by
    rw [alignDown, mul_comm bs (room / bs), numBlocks_mul hbs]
  have hkey : ∀ c : BackedBlock, c.Fits bs → c.backing.type ≠ .fill →
      c.len ≤ alignDown room bs → c.chunkBytes bs ≤ chunkHeaderLen + alignDown room bs := by
    intro c hc ht hlen
    have hmul : numBlocks bs c.len * bs ≤ numBlocks bs (alignDown room bs) * bs :=
      Nat.mul_le_mul_right bs (numBlocks_mono hlen)
    have hraw := hc.rawBytes_eq hbs ht
    rw [BackedBlock.chunkBytes]
    cases hb : c.backing with
    | fill v => simp [hb, Backing.type] at ht
    | data p =>
      dsimp only
      omega
    | file name o | fd n o =>
      dsimp only
      split <;> omega
  rcases splitBb_cases hbs room addr hstop with ⟨hs, hlen⟩ | ⟨a, b, hs, hhalf, hlen⟩
  · rw [hs]
    exact hkey bb hfits htype hlen
  · rw [hs]
    exact hkey a ((hhalf.part hbs).1.fits hfits) (by rwa [hhalf.backing_left]) hlen.le

/-- The nodes that a round takes keep to the budget, up to the header of the last. -/
theorem nodeBytes_cutChain_le (hbs : 0 < bs) (h24 : 24 ≤ len) (h32 : len < 2 ^ 32) (addr : ℕ) :
    ∀ {l : List BackedBlock} (first : Bool) (fileLen : ℤ),
    (∀ bb ∈ l, bb.Fits bs ∧ bb.stop bs ≤ 2 ^ 32) → 0 ≤ fileLen → fileLen ≤ len →
    (first = true → fileLen = 0) →
    fileLen + nodeBytes bs (cutChain bs len addr first fileLen l).1 ≤ len + chunkHeaderLen := by
  intro l
  induction l with
  | nil =>
    intro first fileLen _ _ hle _
    show fileLen + 0 ≤ _
    omega
  | cons bb rest ih =>
    intro first fileLen hl h0 hle hfirst
    obtain ⟨hfits, hstop⟩ := hl bb mem_cons_self
    rw [cutChain]
    split
    · split
      · rename_i hsplit
        obtain ⟨room, hroom⟩ : ∃ room : ℕ, (room : ℤ) = len - fileLen :=
          ⟨(len - fileLen).toNat, by omega⟩
        have h4 : 4 ≤ room := by
          rcases hsplit with hf | hgt
          · have := hfirst hf
            omega
          · omega
        have hbytes := chunkBytes_splitBb_le hbs hfits hstop h4 addr
        rw [← hroom, toU32_natCast, u32_of_lt (by omega)]
        simp only [nodeBytes, map_cons, map_nil, sum_cons, sum_nil, add_zero]
        omega
      · show fileLen + 0 ≤ _
        omega
    · have hpos := (hfits.chunkBytes_mem hbs).1
      have hrest := ih false (fileLen + bb.chunkBytes bs)
        (fun c hc => hl c (mem_cons_of_mem bb hc)) (by omega) (by omega) (by rintro ⟨⟩)
      simp only [nodeBytes_cons]
      omega

/-- Cutting a file leaves no gaps between its nodes if there were none. -/
theorem Resparse.cut_adjacent (maxLen : ℕ) (h : r.inS.Writable len)
    (hadj : Adjacent r.inS.blockSize first r.inS.blocks) :
    Adjacent r.inS.blockSize first ((r.cut maxLen).1 ++ (r.cut maxLen).2.1) :=
  (cutChain_cut h.bs_pos _ r.addr r.inS.blocks true 0 (fun bb hbb => (h.loose.stop_lt bb hbb).1.le)
    (r.cut maxLen) rfl).1.recut.adjacent h.bs_pos hadj

/-- A round on a file without gaps has room. -/
theorem Resparse.room_of_adjacent (h104 : 104 ≤ maxLen) (h32 : maxLen < 2 ^ 32)
    (h : r.inS.Writable len) (hadj : Adjacent r.inS.blockSize first r.inS.blocks) :
    r.Room maxLen len := by
  have h80 : overhead = 80 := rfl
  have hloose := h.loose
  have hbytes := nodeBytes_cutChain_le h.bs_pos (show 24 ≤ maxLen - overhead by omega) (by omega)
    r.addr true 0 (fun bb hbb => ⟨hloose.fits bb hbb, (hloose.stop_lt bb hbb).1.le⟩) le_rfl
    (by omega) fun _ => rfl
  have hbudget := budget_eq (show overhead ≤ maxLen by omega) h32
  rw [← hbudget, ← Resparse.cut] at hbytes
  have hchain := chainBytes_le (adjacent_append.mp (cut_adjacent maxLen h hadj)).1 0
  rw [Room, streamBytes]
  have hend : (if len % r.inS.blockSize = 0 then skipBytes (endBlock r.inS.blockSize 0
      (r.cut maxLen).1) (len / r.inS.blockSize) else 0) ≤ (chunkHeaderLen : ℤ) := by
    split
    · exact skipBytes_le _ _
    · exact Int.natCast_nonneg _
  have h12 : chunkHeaderLen = 12 := rfl
  have h28 : sparseHeaderLen = 28 := rfl
  omega

/-- **Pieces of an image without gaps** keep to any limit of at least 104 bytes, and what is left of
the image has no gaps. -/
theorem pieces_le_of_adjacent (h : s.Writable len)
    (hadj : Adjacent s.blockSize first s.blocks) (h104 : 104 ≤ maxLen) (h32 : maxLen < 2 ^ 32)
    (outSCount n : ℕ) : ∃ r, resparseRounds env maxLen outSCount n (resparseStart s) = .ok r ∧
      (r.inS.Writable len ∧ ∃ first, Adjacent r.inS.blockSize first r.inS.blocks) ∧
      ∀ p ∈ r.outS, p.Within env maxLen := by
  induction n with
  | zero => exact ⟨_, rfl, ⟨h, first, hadj⟩, nofun⟩
  | succ n ih =>
    obtain ⟨r, hrun, ⟨hw, first, hadj⟩, hpieces⟩ := ih
    obtain ⟨r', hrun', hiff⟩ := pieces_succ env h hrun
    refine ⟨r', hrun', ?_,
      hiff.mpr ⟨hpieces, fun _ _ => Resparse.room_of_adjacent h104 h32 hw hadj⟩⟩
    rw [resparseRounds_succ, hrun] at hrun'
    by_cases hb : r.bb = true
    · obtain ⟨r₁, hround, hw', hsize, hblocks, -⟩ := resparseRound_length env maxLen outSCount hw
      obtain rfl : r₁ = r' := Except.ok.inj (hround.symm.trans ((if_pos hb).symm.trans hrun'))
      have hleft := (adjacent_append.mp (r.cut_adjacent maxLen hw hadj)).2
      exact ⟨hw', _, by rw [hsize, hblocks]; exact hleft⟩
    · obtain rfl : r = r' := Except.ok.inj ((if_neg hb).symm.trans hrun')
      exact ⟨hw, first, hadj⟩

theorem pieces_le_of_adjacent_twoBlocks : ∃ r,
    resparseRounds Env.zero 104 2 2 (resparseStart twoBlocks) = .ok r ∧
      (r.inS.Writable 8 ∧ ∃ first, Adjacent r.inS.blockSize first r.inS.blocks) ∧
      ∀ p ∈ r.outS, p.Within Env.zero 104 :=
  pieces_le_of_adjacent Env.zero twoBlocks_regular.writable ⟨rfl, trivial⟩ le_rfl (by norm_num) 2 2

/-! ### Images with gaps -/

/-- The bytes of the skip chunks for the gaps between the nodes. -/
def gapBytes (bs : ℕ) : List BackedBlock → ℤ
  | a :: b :: rest => skipBytes (a.stop bs) b.block + gapBytes bs (b :: rest)
  | _ => 0

/-- The bytes of the nodes between the first and the last. -/
def innerBytes (bs : ℕ) (l : List BackedBlock) : ℤ := nodeBytes bs l.tail.dropLast

/-- What a piece has besides chunks and the gaps between them: the header, the checksum, and a skip
before and behind. -/
def framing : ℕ := sparseHeaderLen + 3 * chunkHeaderLen + 4

/-- The skips between the nodes `w` fit into what rounding down to blocks leaves of the budget,
whether a round takes the last node as a whole or cuts it: the chunks of data end at the same place
modulo the block size wherever the first and the last node are cut. -/
def RoundedOff (bs maxLen : ℕ) (w : List BackedBlock) : Prop :=
  208 ≤ maxLen ∧
    gapBytes bs w ≤ chunkHeaderLen + ((maxLen : ℤ) - overhead - nodeBytes bs w) % bs ∧
    gapBytes bs w ≤ ((maxLen : ℤ) - overhead - nodeBytes bs w.dropLast) % bs

/-- **The gaps fit**: consecutive nodes with gaps between them are too much for one piece even
without the first and the last of them, or they keep to the limit with a skip for every gap, or
the skips fit into what rounding leaves. -/
def GapsFit (bs maxLen : ℕ) (l : List BackedBlock) : Prop :=
  ∀ pre w post, l = pre ++ (w ++ post) → gapBytes bs w = 0 ∨
    (maxLen : ℤ) < framing + innerBytes bs w ∨
    framing + (gapBytes bs w + nodeBytes bs w) ≤ maxLen ∨ RoundedOff bs maxLen w

theorem chainBytes_eq (last : ℕ) (a : BackedBlock) (rest : List BackedBlock) :
    chainBytes bs last (a :: rest) =
      skipBytes last a.block + (gapBytes bs (a :: rest) + nodeBytes bs (a :: rest)) := by
  induction rest generalizing last a with
  | nil => simp [chainBytes, gapBytes, nodeBytes]
  | cons b rest ih =>
    rw [chainBytes, ih, gapBytes, nodeBytes_cons bs a]
    omega

/-- A part of a node takes no more bytes than the node, and what is left of it takes whole blocks
less. -/
theorem Halves.chunkBytes_le (hbs : 0 < bs) (hfits : bb.Fits bs) {a b : BackedBlock}
    (h : Halves bs bb a b) : a.chunkBytes bs ≤ bb.chunkBytes bs ∧
      ∃ k : ℕ, bb.chunkBytes bs = b.chunkBytes bs + (k * bs : ℕ) := by
  have hlen := h.len
  have hpos := h.pos
  obtain ⟨hpa, hpb⟩ := h.part hbs
  have hla : numBlocks bs a.len * bs ≤ numBlocks bs bb.len * bs :=
    Nat.mul_le_mul_right bs (numBlocks_mono (by omega))
  have hlb : numBlocks bs bb.len * bs =
      numBlocks bs b.len * bs + (numBlocks bs bb.len - numBlocks bs b.len) * bs := by
    rw [← Nat.add_mul, Nat.add_sub_cancel' (numBlocks_mono (by omega))]
  have hta : a.backing.type = bb.backing.type := by rw [h.backing_left]
  have htb : b.backing.type = bb.backing.type := by rw [h.backing_right, Backing.type_advance]
  have hra := (hpa.fits hfits).rawBytes_eq hbs
  have hrb := (hpb.fits hfits).rawBytes_eq hbs
  have hrbb := hfits.rawBytes_eq hbs
  have hraw := hfits.raw
  rw [hta] at hra
  rw [htb] at hrb
  simp only [BackedBlock.chunkBytes, h.backing_left, h.backing_right]
  cases hb : bb.backing with
  | fill v => exact ⟨le_rfl, 0, by simp [Backing.advance]⟩
  | data p =>
    have ht : bb.backing.type ≠ .fill := by simp [hb, Backing.type]
    simp only [Backing.advance, hra ht, hrb ht, hrbb ht]
    exact ⟨by omega, numBlocks bs bb.len - numBlocks bs b.len, by omega⟩
  | file name o | fd n o =>
    have ht : bb.backing.type ≠ .fill := by simp [hb, Backing.type]
    have hlt := (hraw ht).1
    have hne : ¬ u32 (bb.len + o % 4096) = 0 := by
      rw [u32_of_lt (by omega)]
      omega
    have hneb : ¬ u32 (b.len + (o + a.len) % 4096) = 0 := by
      rw [u32_of_lt (by omega)]
      omega
    simp only [Backing.advance, hra ht, hrb ht, hrbb ht, if_neg hne, if_neg hneb]
    exact ⟨by split <;> omega, numBlocks bs bb.len - numBlocks bs b.len, by omega⟩

theorem nodeBytes_append (l l' : List BackedBlock) :
    nodeBytes bs (l ++ l') = nodeBytes bs l + nodeBytes bs l' := by
  simp [nodeBytes]

theorem gapBytes_concat {a b : BackedBlock} (h : a.block = b.block) :
    ∀ pre : List BackedBlock, gapBytes bs (pre ++ [a]) = gapBytes bs (pre ++ [b]) := by
  intro pre
  induction pre with
  | nil => rfl
  | cons c pre ih =>
    cases pre with
    | nil => simp only [cons_append, nil_append, gapBytes, h]
    | cons d pre => exact congrArg (skipBytes (c.stop bs) d.block + ·) ih

theorem innerBytes_concat (a b : BackedBlock) (pre : List BackedBlock) :
    innerBytes bs (pre ++ [a]) = innerBytes bs (pre ++ [b]) := by
  cases pre with
  | nil => rfl
  | cons c pre => simp [innerBytes]

/-- The nodes that a round takes are nodes of the list, the last of them perhaps a part of one. -/
theorem Cut.taken (hbs : 0 < bs) (hcut : Cut bs l l₁ l₂) (hfits : ∀ bb ∈ l, bb.Fits bs) :
    ∃ w post, l = w ++ post ∧ w.length = l₁.length ∧ w.dropLast = l₁.dropLast ∧
      gapBytes bs l₁ = gapBytes bs w ∧
      innerBytes bs l₁ = innerBytes bs w ∧ nodeBytes bs l₁ ≤ nodeBytes bs w := by
  cases hcut with
  | between => exact ⟨l₁, l₂, rfl, rfl, rfl, rfl, rfl, le_rfl⟩
  | @within bb a b h pre post =>
    have hle := (h.chunkBytes_le hbs (hfits bb (by simp))).1
    refine ⟨pre ++ [bb], post, by simp, by simp, by simp, gapBytes_concat h.block_left pre,
      innerBytes_concat a bb pre, ?_⟩
    rw [nodeBytes_append, nodeBytes_append]
    simpa [nodeBytes] using hle

/-- What a round leaves has gaps that fit, if the list had. -/
theorem Cut.gapsFit (hbs : 0 < bs) (hcut : Cut bs l l₁ l₂) (hfits : ∀ bb ∈ l, bb.Fits bs)
    (h : GapsFit bs maxLen l) : GapsFit bs maxLen l₂ := by
  cases hcut with
  | between =>
    intro pre w post heq
    exact h (l₁ ++ pre) w post (by rw [heq, append_assoc])
  | @within bb a b hhalf pre₀ post₀ =>
    intro pre w post heq
    obtain ⟨-, k, hk⟩ := hhalf.chunkBytes_le hbs (hfits bb (by simp))
    have hmod : ∀ x y : ℤ,
        (x - (bb.chunkBytes bs + y)) % bs = (x - (b.chunkBytes bs + y)) % bs := by
      intro x y
      rw [hk, show x - (b.chunkBytes bs + (k * bs : ℕ) + y) =
        x - (b.chunkBytes bs + y) + bs * (-k) by push_cast; ring, Int.add_mul_emod_self_left]
    cases pre with
    | cons c pre =>
      obtain ⟨rfl, rfl⟩ := cons_eq_cons.mp heq
      exact h (pre₀ ++ bb :: pre) w post (by simp)
    | nil =>
      cases w with
      | nil => exact Or.inl rfl
      | cons c w =>
        -- the rest of the node stands for the node
        obtain ⟨rfl, rfl⟩ := cons_eq_cons.mp heq
        have hgap : gapBytes bs (b :: w) = gapBytes bs (bb :: w) := by
          cases w with
          | nil => rfl
          | cons d w => rw [gapBytes, gapBytes, (hhalf.stop_eq hbs Env.zero).1]
        have hinner : innerBytes bs (b :: w) = innerBytes bs (bb :: w) := rfl
        rcases h pre₀ (bb :: w) post (by simp) with hfit | hfit | hfit | ⟨h208, hwhole, hpart⟩
        · exact Or.inl (hgap.trans hfit)
        · exact Or.inr (Or.inl (hinner ▸ hfit))
        · rw [nodeBytes_cons] at hfit
          rw [hgap, nodeBytes_cons]
          omega
        · refine Or.inr (Or.inr (Or.inr ⟨h208, ?_, ?_⟩))
          · rwa [hgap, nodeBytes_cons, ← hmod, ← nodeBytes_cons]
          · cases w with
            | nil => exact hpart
            | cons d w =>
              rwa [hgap, dropLast_cons_cons, nodeBytes_cons, ← hmod, ← nodeBytes_cons]

/-- A round takes whole nodes within the budget, or cuts the last one: then what is left of
the budget is rounded down to blocks. -/
theorem cutChain_bytes (hbs : 0 < bs) (h128 : 128 ≤ len) (h32 : len < 2 ^ 32) (addr : ℕ) :
    ∀ {l : List BackedBlock} (first : Bool) (fileLen : ℤ),
    (∀ bb ∈ l, bb.Fits bs ∧ bb.stop bs ≤ 2 ^ 32) → 0 ≤ fileLen → fileLen ≤ len →
    (first = true → fileLen = 0) → ∀ l₁, l₁ = (cutChain bs len addr first fileLen l).1 →
    (∃ post, l = l₁ ++ post) ∧ fileLen + nodeBytes bs l₁ ≤ len ∨
      l₁ ≠ [] ∧ fileLen + nodeBytes bs l₁ + (len - (fileLen + nodeBytes bs l₁.dropLast)) % bs ≤
        len + chunkHeaderLen := by
  intro l
  induction l with
  | nil =>
    rintro first fileLen - - hle - l₁ rfl
    exact Or.inl ⟨⟨[], rfl⟩, by simpa [cutChain, nodeBytes] using hle⟩
  | cons bb rest ih =>
    rintro first fileLen hl h0 hle hfirst l₁ rfl
    obtain ⟨hfits, hstop⟩ := hl bb mem_cons_self
    rw [cutChain]
    split
    · rename_i hover
      split
      · rename_i hsplit
        refine Or.inr ⟨cons_ne_nil _ _, ?_⟩
        obtain ⟨room, hroom⟩ : ∃ room : ℕ, (room : ℤ) = len - fileLen :=
          ⟨(len - fileLen).toNat, by omega⟩
        have h16 : 16 ≤ room := by
          rcases hsplit with hf | hgt
          · have := hfirst hf
            omega
          · omega
        have htype : bb.backing.type ≠ .fill := fun hf =>
          absurd (BackedBlock.chunkBytes_fill bs hf) (by omega)
        have hbytes := chunkBytes_splitBb_raw hbs hfits hstop htype room addr
        have hdown := Nat.div_add_mod room bs
        rw [← hroom, toU32_natCast, u32_of_lt (by omega)]
        simp only [nodeBytes, map_cons, map_nil, sum_cons, sum_nil, add_zero, dropLast_singleton,
          ← hroom]
        rw [alignDown] at hbytes
        omega
      · exact Or.inl ⟨⟨_, rfl⟩, by simpa [nodeBytes] using hle⟩
    · have hpos := (hfits.chunkBytes_mem hbs).1
      have hrest := ih false (fileLen + bb.chunkBytes bs)
        (fun c hc => hl c (mem_cons_of_mem bb hc)) (by omega) (by omega) (by rintro ⟨⟩) _ rfl
      rcases hrest with ⟨⟨post, hpost⟩, hwhole⟩ | ⟨hne, hpart⟩
      · refine Or.inl ⟨⟨post, congrArg (bb :: ·) hpost⟩, ?_⟩
        rw [nodeBytes_cons]
        omega
      · refine Or.inr ⟨cons_ne_nil _ _, ?_⟩
        rw [dropLast_cons_of_ne_nil hne, nodeBytes_cons, nodeBytes_cons]
        simp only [← add_assoc]
        exact hpart

theorem innerBytes_le {l : List BackedBlock} (h : ∀ bb ∈ l, 0 ≤ bb.chunkBytes bs) :
    innerBytes bs l ≤ nodeBytes bs l := by
  have hsub : l.tail.dropLast.Sublist l := (dropLast_sublist _).trans (tail_sublist l)
  exact (hsub.map _).sum_le_sum fun x hx => by
    obtain ⟨bb, hbb, rfl⟩ := mem_map.mp hx
    exact h bb hbb

/-- A round on a file whose gaps fit has room. -/
theorem Resparse.room_of_gapsFit (h104 : 104 ≤ maxLen) (h32 : maxLen < 2 ^ 32)
    (h : r.inS.Writable len) (hgaps : GapsFit r.inS.blockSize maxLen r.inS.blocks) :
    r.Room maxLen len := by
  have h80 : overhead = 80 := rfl
  have h68 : framing = 68 := rfl
  have h12 : chunkHeaderLen = 12 := rfl
  have h28 : sparseHeaderLen = 28 := rfl
  have hloose := h.loose
  have hbytes := nodeBytes_cutChain_le h.bs_pos (show 24 ≤ maxLen - overhead by omega) (by omega)
    r.addr true 0 (fun bb hbb => ⟨hloose.fits bb hbb, (hloose.stop_lt bb hbb).1.le⟩) le_rfl
    (by omega) fun _ => rfl
  have hbudget := budget_eq (show overhead ≤ maxLen by omega) h32
  rw [← hbudget, ← Resparse.cut] at hbytes
  have hcut := (cutChain_cut h.bs_pos _ r.addr r.inS.blocks true 0
    (fun bb hbb => (hloose.stop_lt bb hbb).1.le) (r.cut maxLen) rfl).1
  obtain ⟨w, post, heq, hlen, hlast, hgap, hinner, hle⟩ := hcut.taken h.bs_pos hloose.fits
  have hpos : ∀ bb ∈ (r.cut maxLen).1, 0 ≤ bb.chunkBytes r.inS.blockSize := fun bb hbb => by
    obtain ⟨c, hc, hpart⟩ := hcut.recut.part h.bs_pos bb (mem_append_left _ hbb)
    exact ((hpart.fits (hloose.fits c hc)).chunkBytes_mem h.bs_pos).1
  have hin := innerBytes_le hpos
  rw [Room, streamBytes]
  have hend : (if len % r.inS.blockSize = 0 then skipBytes (endBlock r.inS.blockSize 0
      (r.cut maxLen).1) (len / r.inS.blockSize) else 0) ≤ (chunkHeaderLen : ℤ) := by
    split
    · exact skipBytes_le _ _
    · exact Int.natCast_nonneg _
  have hchain : chainBytes r.inS.blockSize 0 (r.cut maxLen).1 ≤ chunkHeaderLen +
      (gapBytes r.inS.blockSize (r.cut maxLen).1 + nodeBytes r.inS.blockSize (r.cut maxLen).1) := by
    cases (r.cut maxLen).1 with
    | nil => exact Int.natCast_nonneg _
    | cons a rest =>
      rw [chainBytes_eq]
      have := skipBytes_le 0 a.block
      omega
  rcases hgaps [] w post heq with hfit | hfit | hfit | ⟨h208, hwhole, hpart⟩
  · omega
  · omega
  · omega
  · rcases cutChain_bytes h.bs_pos (show 128 ≤ maxLen - overhead by omega) (by omega)
      r.addr true 0 (fun bb hbb => ⟨hloose.fits bb hbb, (hloose.stop_lt bb hbb).1.le⟩) le_rfl
      (by omega) (fun _ => rfl) (r.cut maxLen).1 (by rw [Resparse.cut, hbudget])
      with ⟨⟨post', heq'⟩, hbound⟩ | ⟨-, hbound⟩
    · have hw : w = (r.cut maxLen).1 := (append_inj (heq.symm.trans heq') hlen).1
      have hroom : (0 : ℤ) ≤ maxLen - overhead - nodeBytes r.inS.blockSize w := by
        rw [hw]
        omega
      have hmod := Int.emod_add_mul_ediv (maxLen - overhead - nodeBytes r.inS.blockSize w)
        r.inS.blockSize
      have hdiv := Int.mul_nonneg (Int.natCast_nonneg r.inS.blockSize)
        (Int.ediv_nonneg hroom (Int.natCast_nonneg r.inS.blockSize))
      omega
    · rw [hlast] at hpart
      have hcast : ((maxLen - overhead : ℕ) : ℤ) = maxLen - overhead := by omega
      rw [hcast, zero_add, zero_add] at hbound
      omega

end Sparse
