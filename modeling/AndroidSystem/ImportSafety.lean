/-
When the importer leaves the defined behaviour of C.

Every field of the stream is taken as it is.  A block size of zero makes
`process_raw_chunk` and `merge_bb` divide by zero, a checksum chunk makes the
reader follow the null pointer `crc_ptr` unless a checksum is wanted, and chunks
of no blocks make two regions start at the same block, which `merge_bb` asserts
never happens.

* `queueBb_of_addSafe`, `queueBb_fault` — an addition to an increasing list faults
  exactly if it is not in front of the list and the cached node has been freed, the
  block size is zero, or the block is taken;
* `readChunk_guarded` — one round of the reader faults exactly if it starts from a
  state that is not safe.
-/
import AndroidSystem.SparseImport

open CInt List

namespace Sparse

/-! ### Additions to an increasing list -/

variable {rest : List BackedBlock} {bbl : BackedBlockList} {bs : ℕ} {newBb : BackedBlock}

/-- The block numbers of the nodes increase; nothing is said about their lengths. -/
def Increasing (l : List BackedBlock) : Prop := l.Pairwise fun a b => a.block < b.block

theorem Increasing.cons {a b : BackedBlock} (hab : a.block < b.block)
    (h : Increasing (b :: rest)) : Increasing (a :: b :: rest) := by
  refine pairwise_cons.mpr ⟨fun c hc => ?_, h⟩
  rcases mem_cons.mp hc with rfl | hc
  · exact hab
  · exact hab.trans ((pairwise_cons.mp h).1 c hc)

/-- An addition at `block` goes through: it is in front of the list, or `queue_bb`
can follow `last_used`, divide by the block size and find no node at `block`. -/
def BackedBlockList.AddSafe (bbl : BackedBlockList) (block : ℕ) : Prop :=
  ∀ head ∈ bbl.dataBlocks.head?, head.block ≤ block →
    bbl.CacheLive ∧ bbl.blockSize ≠ 0 ∧ ∀ bb ∈ bbl.dataBlocks, bb.block ≠ block

theorem mergeBb_ok (hbs : 0 < bs) {a b : BackedBlock} (hlt : a.block < b.block) :
    ∃ o, mergeBb bs a b = .ok o ∧ ∀ m ∈ o, m.block = a.block := by
  refine ⟨_, mergeBb_eq hbs hlt, fun m hm => ?_⟩
  by_cases hj : a.region.Joins bs b.region
  · rw [if_pos hj, Option.mem_some_iff] at hm
    rw [← hm]
  · rw [if_neg hj] at hm
    exact absurd hm (by simp)

theorem mergeNext_ok (hbs : 0 < bs) (hinc : Increasing (newBb :: rest)) :
    ∃ m rest', mergeNext bs newBb rest = .ok (m, rest') ∧
      m.block = newBb.block ∧ Increasing (m :: rest') := by
  cases rest with
  | nil => exact ⟨newBb, [], rfl, rfl, hinc⟩
  | cons next rest =>
    obtain ⟨hnew, hrest⟩ := pairwise_cons.mp hinc
    obtain ⟨o, ho, hblock⟩ := mergeBb_ok hbs (hnew next mem_cons_self)
    rw [mergeNext]
    simp only [ho, bind, Except.bind]
    cases o with
    | none => exact ⟨newBb, next :: rest, rfl, rfl, hinc⟩
    | some m =>
      have hm := hblock m rfl
      refine ⟨m, rest, rfl, hm, pairwise_cons.mpr ⟨fun c hc => ?_,
        (pairwise_cons.mp hrest).2⟩⟩
      rw [hm]
      exact hnew c (mem_cons_of_mem next hc)

theorem linkAndMerge_ok (hbs : 0 < bs) {bb : BackedBlock} (hlt : bb.block < newBb.block)
    (hinc : Increasing (newBb :: rest)) :
    ∃ l, linkAndMerge bs bb newBb rest = .ok l ∧ Increasing l ∧ ∀ c ∈ l, bb.block ≤ c.block := by
  obtain ⟨m, rest', hnext, hm, hinc'⟩ := mergeNext_ok hbs hinc
  obtain ⟨hrest, htail⟩ := pairwise_cons.mp hinc'
  obtain ⟨o, ho, hblock⟩ := mergeBb_ok hbs (hm ▸ hlt : bb.block < m.block)
  rw [linkAndMerge]
  simp only [hnext, ho, bind, Except.bind]
  cases o with
  | none =>
    have hcons := Increasing.cons (hm ▸ hlt : bb.block < m.block) hinc'
    refine ⟨_, rfl, hcons, fun c hc => ?_⟩
    rcases mem_cons.mp hc with rfl | hc
    · exact le_rfl
    · exact ((pairwise_cons.mp hcons).1 c hc).le
  | some merged =>
    have hmerged := hblock merged rfl
    have hbehind : ∀ c ∈ rest', merged.block < c.block := by
      intro c hc
      have := hrest c hc
      omega
    refine ⟨_, rfl, pairwise_cons.mpr ⟨hbehind, htail⟩, fun c hc => ?_⟩
    rcases mem_cons.mp hc with rfl | hc
    · exact hmerged.ge
    · have := hbehind c hc
      omega

/-- The search of `queue_bb` through an increasing list without the new block. -/
theorem insertAfter_ok (hbs : 0 < bs) :
    ∀ {rest : List BackedBlock} {bb : BackedBlock}, bb.block < newBb.block →
    Increasing (bb :: rest) → (∀ c ∈ rest, c.block ≠ newBb.block) →
    ∃ l, insertAfter bs newBb bb rest = .ok l ∧ Increasing l ∧ ∀ c ∈ l, bb.block ≤ c.block := by
  intro rest
  induction rest with
  | nil =>
    intro bb hlt _ _
    exact linkAndMerge_ok hbs hlt (pairwise_singleton _ _)
  | cons next rest ih =>
    intro bb hlt hinc hne
    obtain ⟨hbb, htail⟩ := pairwise_cons.mp hinc
    have hnext := hbb next mem_cons_self
    rw [insertAfter]
    by_cases hn : next.block < newBb.block
    · obtain ⟨l, hl, hincl, hge⟩ := ih hn htail fun c hc => hne c (mem_cons_of_mem next hc)
      rw [if_pos hn]
      simp only [hl, bind, Except.bind]
      refine ⟨_, rfl, pairwise_cons.mpr ⟨fun c hc => ?_, hincl⟩, fun c hc => ?_⟩
      · have := hge c hc
        omega
      · rcases mem_cons.mp hc with rfl | hc
        · exact le_rfl
        · have := hge c hc
          omega
    · rw [if_neg hn]
      have hnew : newBb.block < next.block := by
        have := hne next mem_cons_self
        omega
      exact linkAndMerge_ok hbs hlt (.cons hnew htail)

/-- A block number that is taken fails the assertion of `merge_bb`. -/
theorem insertAfter_taken (hbs : 0 < bs) :
    ∀ {rest : List BackedBlock} {bb : BackedBlock}, Increasing (bb :: rest) →
    (∃ c ∈ bb :: rest, c.block = newBb.block) →
    insertAfter bs newBb bb rest = .error .assertFailed := by
  have hlink : ∀ {bb : BackedBlock} {rest : List BackedBlock}, bb.block = newBb.block →
      Increasing (bb :: rest) → linkAndMerge bs bb newBb rest = .error .assertFailed := by
    intro bb rest heq hinc
    obtain ⟨hbb, htail⟩ := pairwise_cons.mp hinc
    obtain ⟨m, rest', hnext, hm, -⟩ := mergeNext_ok hbs
      (pairwise_cons.mpr ⟨fun c hc => heq ▸ hbb c hc, htail⟩ : Increasing (newBb :: rest))
    have hmerge : mergeBb bs bb m = .error .assertFailed := by
      rw [mergeBb, if_pos (by omega)]
    rw [linkAndMerge]
    simp only [hnext, hmerge, bind, Except.bind]
  intro rest
  induction rest with
  | nil =>
    rintro bb hinc ⟨c, hc, heq⟩
    rw [mem_singleton.mp hc] at heq
    exact hlink heq hinc
  | cons next rest ih =>
    rintro bb hinc ⟨c, hc, heq⟩
    obtain ⟨hbb, htail⟩ := pairwise_cons.mp hinc
    have hnext := hbb next mem_cons_self
    rw [insertAfter]
    rcases mem_cons.mp hc with rfl | hc
    · rw [if_neg (by omega)]
      exact hlink heq hinc
    · have hle : next.block ≤ newBb.block := by
        rcases mem_cons.mp hc with rfl | hc'
        · exact heq.le
        · have := (pairwise_cons.mp htail).1 c hc'
          omega
      by_cases hn : next.block < newBb.block
      · rw [if_pos hn]
        simp only [ih htail ⟨c, hc, heq⟩, bind, Except.bind]
      · rw [if_neg hn]
        have hmerge : mergeBb bs newBb next = .error .assertFailed := by
          rw [mergeBb, if_pos (by omega)]
        rw [linkAndMerge, mergeNext]
        simp only [hmerge, bind, Except.bind]

/-- With a block size of zero, nodes of one type cannot be compared. -/
theorem insertAfter_blockSize_zero :
    ∀ {rest : List BackedBlock} {bb : BackedBlock},
    (∀ c ∈ bb :: rest, c.backing.type = newBb.backing.type) →
    ∃ f, insertAfter 0 newBb bb rest = .error f := by
  have hmerge : ∀ {a b : BackedBlock}, a.backing.type = b.backing.type →
      ∃ f, mergeBb 0 a b = .error f := by
    intro a b heq
    rw [mergeBb]
    by_cases hlt : a.block < b.block
    · exact ⟨.divByZero, by rw [if_neg (not_not.mpr hlt), if_neg (not_not.mpr heq), if_pos rfl]⟩
    · exact ⟨.assertFailed, if_pos hlt⟩
  intro rest
  induction rest with
  | nil =>
    intro bb htype
    obtain ⟨f, hf⟩ := hmerge (htype bb mem_cons_self)
    refine ⟨f, ?_⟩
    rw [insertAfter, linkAndMerge, mergeNext]
    simp only [hf, bind, Except.bind]
  | cons next rest ih =>
    intro bb htype
    have htail : ∀ c ∈ next :: rest, c.backing.type = newBb.backing.type :=
      fun c hc => htype c (mem_cons_of_mem bb hc)
    rw [insertAfter]
    by_cases hn : next.block < newBb.block
    · obtain ⟨f, hf⟩ := ih htail
      rw [if_pos hn]
      exact ⟨f, by simp only [hf, bind, Except.bind]⟩
    · obtain ⟨f, hf⟩ := hmerge (htail next mem_cons_self).symm
      rw [if_neg hn, linkAndMerge, mergeNext]
      exact ⟨f, by simp only [hf, bind, Except.bind]⟩

/-- **A safe addition** to an increasing list goes through and leaves it increasing. -/
theorem queueBb_of_addSafe (hinc : Increasing bbl.dataBlocks) (hsafe : bbl.AddSafe newBb.block) :
    ∃ bbl', queueBb bbl newBb = .ok bbl' ∧ bbl'.blockSize = bbl.blockSize ∧
      Increasing bbl'.dataBlocks ∧
      (bbl.blockSize = 0 → ∀ c ∈ bbl'.dataBlocks, c = newBb ∨ c ∈ bbl.dataBlocks) := by
  rw [queueBb]
  cases hl : bbl.dataBlocks with
  | nil =>
    exact ⟨_, rfl, rfl, pairwise_singleton _ _, fun _ c hc => by simpa using hc⟩
  | cons head tail =>
    rw [hl] at hinc
    by_cases hfront : head.block > newBb.block
    · simp only [if_pos hfront]
      exact ⟨_, rfl, rfl, .cons hfront hinc, fun _ c hc => mem_cons.mp hc⟩
    · obtain ⟨hlive, hbs, hne⟩ := hsafe head (by rw [hl]; rfl) (not_lt.mp hfront)
      rw [hl] at hne
      obtain ⟨pre, bb, rest, hstart, heq, hbb⟩ := searchStart_live newBb hl hlive
      have hmem : ∀ c ∈ bb :: rest, c ∈ head :: tail := by
        intro c hc
        rw [heq]
        exact mem_append_right _ hc
      have hlt : bb.block < newBb.block := by
        have := hne bb (hmem bb mem_cons_self)
        rcases hbb with rfl | hbb
        · omega
        · exact hbb
      rw [heq] at hinc
      obtain ⟨hpre, hchain, hcross⟩ := pairwise_append.mp hinc
      obtain ⟨l, hins, hincl, hge⟩ := insertAfter_ok (Nat.pos_of_ne_zero hbs) hlt hchain
        fun c hc => hne c (hmem c (mem_cons_of_mem bb hc))
      simp only [if_neg hfront, hstart, hins, bind, Except.bind]
      refine ⟨_, rfl, rfl, pairwise_append.mpr ⟨hpre, hincl, fun a ha c hc => ?_⟩,
        fun h0 => absurd h0 hbs⟩
      have h1 := hcross a ha bb mem_cons_self
      have h2 := hge c hc
      omega

/-- **Any other addition** faults, if with a block size of zero the nodes are all of
the type of the new one. -/
theorem queueBb_fault (hinc : Increasing bbl.dataBlocks)
    (htype : bbl.blockSize = 0 → ∀ c ∈ bbl.dataBlocks, c.backing.type = newBb.backing.type)
    (hbad : ¬ bbl.AddSafe newBb.block) : ∃ f, queueBb bbl newBb = .error f := by
  cases hl : bbl.dataBlocks with
  | nil => exact absurd (fun head h => by rw [hl] at h; simp at h) hbad
  | cons head tail =>
    have hle : head.block ≤ newBb.block := by
      by_contra hlt
      refine hbad fun head' h' hle => ?_
      rw [hl, head?_cons, Option.mem_some_iff] at h'
      rw [← h'] at hle
      exact absurd hle hlt
    by_cases hlive : bbl.CacheLive
    · obtain ⟨pre, bb, rest, hstart, heq, hbb⟩ := searchStart_live newBb hl hlive
      have hbb' : bb.block ≤ newBb.block := by
        rcases hbb with rfl | hbb
        · exact hle
        · exact hbb.le
      have hfault : ∃ f, insertAfter bbl.blockSize newBb bb rest = .error f := by
        by_cases hbs : bbl.blockSize = 0
        · rw [hbs]
          refine insertAfter_blockSize_zero fun c hc => htype hbs c ?_
          rw [hl, heq]
          exact mem_append_right _ hc
        · obtain ⟨c, hc, hceq⟩ : ∃ c ∈ bbl.dataBlocks, c.block = newBb.block := by
            by_contra hfree
            exact hbad fun _ _ _ => ⟨hlive, hbs, fun c hc hceq => hfree ⟨c, hc, hceq⟩⟩
          rw [hl, heq] at hinc hc
          obtain ⟨-, hchain, hcross⟩ := pairwise_append.mp hinc
          refine ⟨_, insertAfter_taken (Nat.pos_of_ne_zero hbs) hchain ⟨c, ?_, hceq⟩⟩
          rcases mem_append.mp hc with hc | hc
          · have := hcross c hc bb mem_cons_self
            omega
          · exact hc
      obtain ⟨f, hf⟩ := hfault
      exact ⟨f, by simp only [queueBb, hl, if_neg (not_lt.mpr hle), hstart, hf, bind, Except.bind]⟩
    · exact ⟨_, queueBb_stale hl hle hlive⟩

/-! ### One round of the reader -/

/-- What holds of the reader before every round. -/
structure Reader.Sound (r : Reader) : Prop where
  increasing : Increasing r.s.blocks
  fills : r.s.blockSize = 0 → ∀ bb ∈ r.s.blocks, bb.backing.type = .fill

/-- The round that starts at `r` with the block `cur` does not fault. -/
def ChunkSafe (file : List UInt8) (crc : Bool) (hdrSz cur : ℕ) (r : Reader) : Prop :=
  let h := ChunkHeader.decode ((file.drop r.pos).take chunkHeaderLen)
  let dataSize := u32 (h.totalSz + (2 ^ 32 - hdrSz))
  let len := h.chunkSz * r.s.blockSize
  chunkHeaderLen ≤ file.length - r.pos →
    (h.chunkType = chunkTypeRaw →
      r.s.blockSize ≠ 0 ∧ (dataSize = len → r.s.backedBlockList.AddSafe cur)) ∧
    (h.chunkType = chunkTypeFill → dataSize = 4 →
      4 ≤ file.length - (r.pos + max hdrSz chunkHeaderLen) →
        r.s.backedBlockList.AddSafe cur ∧ (crc = true → len < 2 ^ 63)) ∧
    (h.chunkType = chunkTypeDontCare → dataSize = 0 → crc = true → len < 2 ^ 63) ∧
    (h.chunkType = chunkTypeCrc32 → crc = true)

section

variable {file : List UInt8} {fd : ℕ} {crc : Bool}

/-- A step that faults exactly if it is not safe, and otherwise leaves what `P`
says unless it returns a code. -/
def Guarded {α : Type} (safe : Prop) (P : α → Prop) (x : Except Stop α) : Prop :=
  (safe → (∀ f, x ≠ .error (.fault f)) ∧ ∀ a, x = .ok a → P a) ∧
  (¬ safe → ∃ f, x = .error (.fault f))

variable {α : Type} {safe : Prop}

theorem Guarded.ret (hsafe : safe) (P : α → Prop) (code : ℤ) :
    Guarded safe P (.error (.ret code)) :=
  ⟨fun _ => ⟨fun _ h => (nomatch h), fun _ h => (nomatch h)⟩, fun h => absurd hsafe h⟩

variable {P : α → Prop}

theorem Guarded.ok (hsafe : safe) {a : α} (ha : P a) :
    Guarded safe P (.ok a) :=
  ⟨fun _ => ⟨fun _ h => (nomatch h), fun _ h => Except.ok.inj h ▸ ha⟩, fun h => absurd hsafe h⟩

theorem Guarded.fault (hbad : ¬ safe) (P : α → Prop) (f : Fault) :
    Guarded safe P (.error (.fault f)) :=
  ⟨fun h => absurd h hbad, fun _ => ⟨f, rfl⟩⟩

variable {x : Except Stop α} {β : Type} {Q : β → Prop} {g : α → Except Stop β}

/-- What follows a guarded step is always safe. -/
theorem Guarded.bind (hx : Guarded safe P x) (hg : ∀ a, P a → Guarded True Q (g a)) :
    Guarded safe Q (x >>= g) := by
  constructor
  · intro hsafe
    obtain ⟨hfault, hok⟩ := hx.1 hsafe
    cases x with
    | error e =>
      refine ⟨fun f h => ?_, fun a h => by cases h⟩
      cases h
      exact hfault f rfl
    | ok a => exact (hg a (hok a rfl)).1 trivial
  · intro hbad
    obtain ⟨f, rfl⟩ := hx.2 hbad
    exact ⟨f, rfl⟩

variable {safe' : Prop}

/-- What follows a guarded step has a condition of its own; the step does not return
a code. -/
theorem Guarded.bind_and (hx : Guarded safe P x) (hret : ∀ code, x ≠ .error (.ret code))
    (hg : ∀ a, P a → Guarded safe' Q (g a)) :
    Guarded (safe ∧ safe') Q (x >>= g) := by
  cases x with
  | error e =>
    cases e with
    | ret code => exact absurd rfl (hret code)
    | fault f => exact Guarded.fault (fun h => (hx.1 h.1).1 f rfl) _ _
  | ok a =>
    have hsafe : safe := by
      by_contra hbad
      obtain ⟨f, hf⟩ := hx.2 hbad
      cases hf
    have ha := hg a ((hx.1 hsafe).2 a rfl)
    exact ⟨fun h => ha.1 h.2, fun h => ha.2 fun h' => h ⟨hsafe, h'⟩⟩

theorem Guarded.congr (h : Guarded safe P x) (hiff : safe ↔ safe') :
    Guarded safe' P x := by
  rw [← propext hiff]
  exact h

variable {r : Reader} {block : ℕ}

/-- An addition by the reader. -/
theorem backedBlockAdd_guarded (h : r.Sound) (backing : Backing) (len : ℕ)
    (hblock : block < 2 ^ 32) (hfill : r.s.blockSize = 0 → backing.type = .fill) :
    Guarded (r.s.backedBlockList.AddSafe block)
      (fun s => ∀ pos crc32, (Reader.mk s pos crc32).Sound)
      (liftFault (backedBlockAdd r.s.backedBlockList backing len block >>= fun bbl =>
        .ok { r.s with backedBlockList := bbl })) := by
  have hu : u32 block = block := u32_of_lt hblock
  constructor
  · intro hsafe
    have hadd : ∃ bbl, backedBlockAdd r.s.backedBlockList backing len block = .ok bbl ∧ _ :=
      queueBb_of_addSafe h.increasing (by simpa only [hu] using hsafe)
    obtain ⟨bbl, hbbl, hsize, hinc, hmem⟩ := hadd
    simp only [hbbl, bind, Except.bind, liftFault]
    refine ⟨fun _ h => (by cases h), fun s hs pos crc32 => ?_⟩
    cases hs
    refine ⟨hinc, fun h0 bb hbb => ?_⟩
    have h0' : r.s.blockSize = 0 := hsize.symm.trans h0
    rcases hmem h0' bb hbb with rfl | hbb
    · exact hfill h0'
    · exact h.fills h0' bb hbb
  · intro hbad
    have hadd : ∃ f, backedBlockAdd r.s.backedBlockList backing len block = .error f := by
      refine queueBb_fault h.increasing (fun h0 c hc => ?_) (by simpa only [hu] using hbad)
      rw [h.fills h0 c hc]
      exact (hfill h0).symm
    obtain ⟨f, hf⟩ := hadd
    exact ⟨f, by simp only [hf, bind, Except.bind, liftFault]⟩

theorem liftFault_ne_ret (x : Except Fault α) (code : ℤ) :
    liftFault x ≠ .error (.ret code) := by
  cases x <;> simp [liftFault]

theorem readAll_guarded (file : List UInt8) (pos len : ℕ) :
    Guarded True (fun _ => True) (readAll file pos len) := by
  rw [readAll]
  split
  · exact Guarded.ok trivial trivial
  · exact Guarded.ret trivial _ _

theorem rawCrcLoop_guarded (file : List UInt8) : ∀ (rounds len pos : ℕ) (crc : UInt32),
    Guarded True (fun _ => True) (rawCrcLoop file rounds len pos crc) := by
  intro rounds
  induction rounds with
  | zero => exact fun _ _ _ => Guarded.ok trivial trivial
  | succ rounds ih =>
    intro len pos crc
    rw [rawCrcLoop]
    by_cases hlen : len = 0
    · rw [if_pos hlen]
      exact Guarded.ok trivial trivial
    · rw [if_neg hlen]
      exact (readAll_guarded file pos _).bind fun _ _ => ih _ _ _

theorem crcOver_guarded (crc : Bool) (copybuf : ℕ → UInt8) (len : ℤ) (crc32 : UInt32) :
    Guarded (crc = true → 0 ≤ len) (fun _ => True) (crcOver crc copybuf len crc32) := by
  rw [crcOver]
  cases crc with
  | false => exact Guarded.ok (fun h => by cases h) trivial
  | true =>
    rw [if_pos rfl]
    by_cases hlen : len < 0
    · rw [if_pos hlen]
      exact Guarded.fault (fun h => absurd (h rfl) (not_le.mpr hlen)) _ _
    · rw [if_neg hlen]
      exact Guarded.ok (fun _ => not_lt.mp hlen) trivial

/-- A product of two `unsigned int` is negative as an `int64_t` from `2 ^ 63` on. -/
theorem i64_mul_nonneg {m n : ℕ} (hm : m < 2 ^ 32) (hn : n < 2 ^ 32) :
    0 ≤ i64 ((m * n : ℕ) : ℤ) ↔ m * n < 2 ^ 63 := by
  have hlt : m * n < 2 ^ 64 := by
    calc m * n < 2 ^ 32 * 2 ^ 32 := Nat.mul_lt_mul_of_lt_of_lt hm hn
      _ = 2 ^ 64 := by norm_num
  by_cases h : m * n < 2 ^ 63
  · rw [i64_of_range (by omega) (by omega)]
    exact ⟨fun _ => h, fun _ => by omega⟩
  · have hneg : i64 ((m * n : ℕ) : ℤ) = ((m * n : ℕ) : ℤ) - 2 ^ 64 := by
      rw [i64, Int.bmod_def]
      omega
    rw [hneg]
    constructor
    · intro h0
      omega
    · exact fun h0 => absurd h0 h

variable {blocks dataSize : ℕ}

theorem processRawChunk_guarded (h : r.Sound) (hblock : block < 2 ^ 32) :
    Guarded (r.s.blockSize ≠ 0 ∧
        (dataSize = blocks * r.s.blockSize → r.s.backedBlockList.AddSafe block))
      Reader.Sound (processRawChunk file fd crc dataSize blocks block r) := by
  rw [processRawChunk]
  by_cases hbs : r.s.blockSize = 0
  · rw [if_pos hbs]
    exact Guarded.fault (fun hs => hs.1 hbs) _ _
  · rw [if_neg hbs]
    have hsize : dataSize = blocks * r.s.blockSize ↔
        dataSize % r.s.blockSize = 0 ∧ dataSize / r.s.blockSize = blocks := by
      constructor
      · rintro rfl
        exact ⟨Nat.mul_mod_left _ _, Nat.mul_div_cancel _ (Nat.pos_of_ne_zero hbs)⟩
      · rintro ⟨hmod, hdiv⟩
        rw [← hdiv, Nat.div_mul_cancel (Nat.dvd_of_mod_eq_zero hmod)]
    by_cases hmod : dataSize % r.s.blockSize = 0
    · rw [if_neg (not_not.mpr hmod)]
      by_cases hdiv : dataSize / r.s.blockSize = blocks
      · rw [if_neg (not_not.mpr hdiv)]
        have hadd := backedBlockAdd_guarded h (.fd fd r.pos) (u32 (blocks * r.s.blockSize)) hblock
          fun h0 => absurd h0 hbs
        refine (hadd.bind fun s hs => ?_).congr
          ⟨fun hsafe => ⟨hbs, fun _ => hsafe⟩, fun hsafe => hsafe.2 (hsize.mpr ⟨hmod, hdiv⟩)⟩
        cases crc with
        | false => exact Guarded.ok trivial (hs _ _)
        | true =>
          exact (rawCrcLoop_guarded file _ _ _ _).bind fun _ _ => Guarded.ok trivial (hs _ _)
      · rw [if_pos hdiv]
        exact Guarded.ret ⟨hbs, fun heq => absurd (hsize.mp heq).2 hdiv⟩ _ _
    · rw [if_pos hmod]
      exact Guarded.ret ⟨hbs, fun heq => absurd (hsize.mp heq).1 hmod⟩ _ _

theorem processFillChunk_guarded (h : r.Sound) (hblock : block < 2 ^ 32)
    (hblocks : blocks < 2 ^ 32) :
    Guarded (dataSize = 4 → 4 ≤ file.length - r.pos → r.s.backedBlockList.AddSafe block ∧
        (crc = true → blocks * r.s.blockSize < 2 ^ 63))
      Reader.Sound (processFillChunk file crc dataSize blocks block r) := by
  have hlen := i64_mul_nonneg hblocks r.s.backedBlockList.blockSize_lt
  rw [processFillChunk]
  by_cases hsize : dataSize = 4
  · rw [if_neg (not_not.mpr hsize)]
    by_cases hroom : 4 ≤ file.length - r.pos
    · rw [readAll, if_pos hroom]
      have hadd := backedBlockAdd_guarded h
        (.fill (UInt32.ofNat (leNat ((file.drop r.pos).take 4))))
        (toU32 (i64 ((blocks * r.s.blockSize : ℕ) : ℤ))) hblock fun _ => rfl
      refine (hadd.bind_and (liftFault_ne_ret _) fun s hs => ?_).congr
        ⟨fun hsafe _ _ => hsafe, fun hsafe => hsafe hsize hroom⟩
      refine ((crcOver_guarded crc _ _ _).congr (imp_congr_right fun _ => hlen)).bind
        fun _ _ => Guarded.ok trivial (hs _ _)
    · rw [readAll, if_neg hroom]
      exact Guarded.ret (fun _ hroom' => absurd hroom' hroom) _ _
  · rw [if_pos hsize]
    exact Guarded.ret (fun hsize' => absurd hsize' hsize) _ _

theorem processSkipChunk_guarded (h : r.Sound) (hblocks : blocks < 2 ^ 32) :
    Guarded (dataSize = 0 → crc = true → blocks * r.s.blockSize < 2 ^ 63)
      Reader.Sound (processSkipChunk crc dataSize blocks r) := by
  have hlen := i64_mul_nonneg hblocks r.s.backedBlockList.blockSize_lt
  rw [processSkipChunk]
  by_cases hsize : dataSize = 0
  · rw [if_neg (not_not.mpr hsize)]
    refine (((crcOver_guarded crc _ _ _).congr (imp_congr_right fun _ => hlen)).bind
      fun _ _ => Guarded.ok trivial ⟨h.increasing, h.fills⟩).congr
        ⟨fun hsafe _ => hsafe, fun hsafe => hsafe hsize⟩
  · rw [if_pos hsize]
    exact Guarded.ret (fun hsize' => absurd hsize' hsize) _ _

theorem processCrc32Chunk_guarded (h : r.Sound) (dataSize : ℕ) :
    Guarded True Reader.Sound (processCrc32Chunk file dataSize r) := by
  rw [processCrc32Chunk]
  by_cases hsize : dataSize = 4
  · rw [if_neg (not_not.mpr hsize)]
    refine (readAll_guarded file r.pos 4).bind fun word _ => ?_
    split
    · exact Guarded.ret trivial _ _
    · exact Guarded.ok trivial ⟨h.increasing, h.fills⟩
  · rw [if_pos hsize]
    exact Guarded.ret trivial _ _

theorem Guarded.pair {x : Except Stop Reader} (h : Guarded safe Reader.Sound x) (n : ℤ) :
    Guarded safe (fun p : Reader × ℤ => p.1.Sound) (x >>= fun r => .ok (r, n)) :=
  h.bind fun _ hr => Guarded.ok trivial hr

variable {hdrSz : ℕ} {cur : ℕ}

theorem processChunk_guarded (h : r.Sound) {hd : ChunkHeader} (hcur : cur < 2 ^ 32)
    (hsz : hd.chunkSz < 2 ^ 32) :
    Guarded ((hd.chunkType = chunkTypeRaw → r.s.blockSize ≠ 0 ∧
          (u32 (hd.totalSz + (2 ^ 32 - hdrSz)) = hd.chunkSz * r.s.blockSize →
            r.s.backedBlockList.AddSafe cur)) ∧
        (hd.chunkType = chunkTypeFill → u32 (hd.totalSz + (2 ^ 32 - hdrSz)) = 4 →
          4 ≤ file.length - r.pos → r.s.backedBlockList.AddSafe cur ∧
            (crc = true → hd.chunkSz * r.s.blockSize < 2 ^ 63)) ∧
        (hd.chunkType = chunkTypeDontCare → u32 (hd.totalSz + (2 ^ 32 - hdrSz)) = 0 →
          crc = true → hd.chunkSz * r.s.blockSize < 2 ^ 63) ∧
        (hd.chunkType = chunkTypeCrc32 → crc = true))
      (fun p => p.1.Sound) (processChunk file fd crc hdrSz hd cur r) := by
  have hdistinct : chunkTypeRaw ≠ chunkTypeFill ∧ chunkTypeRaw ≠ chunkTypeDontCare ∧
      chunkTypeRaw ≠ chunkTypeCrc32 ∧ chunkTypeFill ≠ chunkTypeDontCare ∧
      chunkTypeFill ≠ chunkTypeCrc32 ∧ chunkTypeDontCare ≠ chunkTypeCrc32 := by decide
  rw [processChunk]
  by_cases hraw : hd.chunkType = chunkTypeRaw
  · rw [if_pos hraw]
    refine ((processRawChunk_guarded h hcur).pair _).congr ?_
    grind
  rw [if_neg hraw]
  by_cases hfill : hd.chunkType = chunkTypeFill
  · rw [if_pos hfill]
    refine ((processFillChunk_guarded h hcur hsz).pair _).congr ?_
    grind
  rw [if_neg hfill]
  by_cases hskip : hd.chunkType = chunkTypeDontCare
  · rw [if_pos hskip]
    refine ((processSkipChunk_guarded h hsz).pair _).congr ?_
    grind
  rw [if_neg hskip]
  by_cases hcrc : hd.chunkType = chunkTypeCrc32
  · rw [if_pos hcrc]
    cases crc with
    | false => exact Guarded.fault (fun hs => Bool.false_ne_true (hs.2.2.2 hcrc)) _ _
    | true =>
      rw [if_pos rfl]
      refine ((processCrc32Chunk_guarded h _).pair _).congr ?_
      exact ⟨fun _ => ⟨fun h' => absurd h' hraw, fun h' => absurd h' hfill,
        fun h' => absurd h' hskip, fun _ => rfl⟩, fun _ => trivial⟩
  · rw [if_neg hcrc]
    exact Guarded.ok ⟨fun h' => absurd h' hraw, fun h' => absurd h' hfill,
      fun h' => absurd h' hskip, fun h' => absurd h' hcrc⟩ h

/-- **One round** faults exactly if it is not safe; otherwise it leaves a sound
reader. -/
theorem readChunk_guarded (h : r.Sound) (hcur : cur < 2 ^ 32) :
    Guarded (ChunkSafe file crc hdrSz cur r) (fun p => p.1.Sound ∧ p.2 < 2 ^ 32)
      (readChunk file fd crc hdrSz cur r) := by
  rw [readChunk, readAll]
  by_cases hroom : chunkHeaderLen ≤ file.length - r.pos
  · rw [if_pos hroom]
    have hmoved : ({ r with pos := r.pos + max hdrSz chunkHeaderLen } : Reader).Sound :=
      ⟨h.increasing, h.fills⟩
    refine ((processChunk_guarded hmoved hcur (field_lt _ 4 4)).bind fun p hp => ?_).congr
      ⟨fun hsafe _ => hsafe, fun hsafe => hsafe hroom⟩
    show Guarded True _ (if p.2 < 0 then _ else _)
    split
    · exact Guarded.ret trivial _ _
    · exact Guarded.ok trivial ⟨hp, u32_lt _⟩
  · rw [if_neg hroom]
    exact Guarded.ret (fun hroom' => absurd hroom' hroom) _ _

end

/-! ### The import -/

theorem readSparseHeader_guarded (file : List UInt8) :
    Guarded True (fun _ => True) (readSparseHeader file) := by
  refine (readAll_guarded file 0 sparseHeaderLen).bind fun bytes _ => ?_
  dsimp only
  split_ifs
  · exact Guarded.ret trivial _ _
  · exact Guarded.ret trivial _ _
  · exact Guarded.ret trivial _ _
  · exact Guarded.ret trivial _ _
  · exact Guarded.ok trivial trivial

end Sparse
