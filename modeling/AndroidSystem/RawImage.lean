/-
Sparsing a raw image and writing it back in place.

`sparse_file_read_normal` adds one region for every block of the image: a fill if
the block is one word repeated, else a reference to the bytes of the file.  Two
neighbours of the same kind are merged, whereupon the next addition follows the
node that was freed, so that the image is read only if its blocks alternate:

* `readNormalLoop_eq` — the regions that are added;
* `stale_rawRegions` — when an addition follows a freed node;
* `plainFrom_rawRegions` — the regions are the image;
* `restores_iff` — the image is reproduced exactly if it is of whole blocks and no two
  neighbouring blocks with another behind them are of the same kind.
-/
import AndroidSystem.PlainWrite

open CInt List

namespace Sparse

open BackedBlock

/-! ### The blocks of an image -/

/-- The bytes of block `i`; the last block may be short. -/
def blockAt (bs : ℕ) (img : List UInt8) (i : ℕ) : List UInt8 := (img.drop (i * bs)).take bs

/-- The word that `sparse_file_read_normal` takes block `i` for a fill with, if it
does. -/
def fillWord (bs : ℕ) (img : List UInt8) (i : ℕ) : Option UInt32 :=
  if (blockAt bs img i).length = bs ∧ sparseBlock bs (blockAt bs img i) then
    some (UInt32.ofNat (field (blockAt bs img i) 0 4))
  else none

/-- The region that is added for block `i`. -/
def rawRegion (bs fd : ℕ) (img : List UInt8) (i : ℕ) : Region :=
  match fillWord bs img i with
  | some w => ⟨.fill w, u32 bs, u32 i, u32_lt _, u32_lt _⟩
  | none => ⟨.fd fd (i * bs), u32 (blockAt bs img i).length, u32 i, u32_lt _, u32_lt _⟩

/-- The regions of an image. -/
abbrev rawRegions (bs fd : ℕ) (img : List UInt8) : List Region :=
  (List.range' 0 (numBlocks bs img.length)).map (rawRegion bs fd img)

theorem length_blockAt (bs : ℕ) (img : List UInt8) (i : ℕ) :
    (blockAt bs img i).length = min bs (img.length - i * bs) := by
  rw [blockAt, length_take, length_drop]

theorem sparseBlock_replicate {bs : ℕ} (b : UInt8) :
    sparseBlock bs (replicate bs b) = true := by
  have hfield : ∀ q < bs / 4,
      field (replicate bs b) (4 * q) 4 = leNat (replicate 4 b) := by
    intro q hq
    rw [field, drop_replicate, take_replicate, min_eq_left (by omega)]
  rw [sparseBlock, all_eq_true]
  intro q hq
  rw [mem_range'_1] at hq
  rw [decide_eq_true_iff, hfield q (by omega)]
  exact hfield 0 (by omega)

/-- A block that is one word repeated is the fill with that word. -/
theorem map_fillByte_eq {bs : ℕ} (h4 : 4 ∣ bs) {buf : List UInt8} (hlen : buf.length = bs)
    (h : sparseBlock bs buf = true) :
    (range bs).map (fillByte (UInt32.ofNat (field buf 0 4))) = buf := by
  refine ext_getElem (by simp [hlen]) fun j h1 h2 => ?_
  have hfield : ∀ q, q < bs / 4 → field buf (4 * q) 4 = field buf 0 4 := by
    intro q hq
    rcases Nat.eq_zero_or_pos q with rfl | hpos
    · rfl
    · rw [sparseBlock, all_eq_true] at h
      have := h q (by rw [mem_range'_1]; omega)
      exact (of_decide_eq_true this).symm
  have hword : (UInt32.ofNat (field buf 0 4)).toNat = field buf 0 4 :=
    UInt32.toNat_ofNat_of_lt' (field_lt _ 0 4)
  rw [getElem_map, getElem_range, fillByte, hword, ← hfield (j / 4) (by omega), field]
  have hslice : ((buf.drop (4 * (j / 4))).take 4).length = 4 := by
    rw [length_take, length_drop]
    omega
  have hbytes : leBytes 4 (leNat ((buf.drop (4 * (j / 4))).take 4))
      = (buf.drop (4 * (j / 4))).take 4 := by
    have := leBytes_leNat ((buf.drop (4 * (j / 4))).take 4)
    rwa [hslice] at this
  rw [hbytes, getD_eq_getElem?_getD, getElem?_eq_getElem (by omega), Option.getD_some,
    getElem_take, getElem_drop]
  congr 1
  omega

/-! ### Reading -/

section

variable {img : List UInt8} {fd bs : ℕ} {i : ℕ}

theorem rawRegion_of_fill {w : UInt32} (h : fillWord bs img i = some w) :
    rawRegion bs fd img i = ⟨.fill w, u32 bs, u32 i, u32_lt _, u32_lt _⟩ := by
  simp only [rawRegion, h]

theorem rawRegion_of_fd (h : fillWord bs img i = none) : rawRegion bs fd img i
    = ⟨.fd fd (i * bs), u32 (blockAt bs img i).length, u32 i, u32_lt _, u32_lt _⟩ := by
  simp only [rawRegion, h]

/-- The call for a block adds its region. -/
theorem addRegions_rawRegion (s : SparseFile) (i : ℕ) :
    (if (blockAt bs img i).length = bs ∧ sparseBlock bs (blockAt bs img i) then
      liftFault (sparseFileAddFill s (UInt32.ofNat (field (blockAt bs img i) 0 4))
        (blockAt bs img i).length (u32 i))
    else liftFault (sparseFileAddFd s fd (i * bs) (blockAt bs img i).length (u32 i)))
      = liftFault (do
        let bbl ← addRegions s.backedBlockList [rawRegion bs fd img i]
        .ok { s with backedBlockList := bbl }) := by
  have hu : ∀ backing len, backedBlockAdd s.backedBlockList backing len (u32 i)
      = backedBlockAdd s.backedBlockList backing len i := by
    intro backing len
    simp only [backedBlockAdd, u32_u32]
  by_cases h : (blockAt bs img i).length = bs ∧ sparseBlock bs (blockAt bs img i)
  · have hword : fillWord bs img i = some (UInt32.ofNat (field (blockAt bs img i) 0 4)) := if_pos h
    rw [if_pos h, rawRegion_of_fill hword, addRegions_call, h.1, ← hu]
    rfl
  · have hword : fillWord bs img i = none := if_neg h
    rw [if_neg h, rawRegion_of_fd hword, addRegions_call, ← hu]
    rfl

/-- **The loop of `sparse_file_read_normal`** adds the regions of the blocks. -/
theorem readNormalLoop_eq (h4 : 4 ≤ bs) : ∀ (rounds i : ℕ) (s : SparseFile), s.blockSize = bs →
    img.length - i * bs ≤ rounds →
    readNormalLoop img fd rounds (img.length - i * bs) (i * bs) (u32 i) s
      = liftFault (do
        let bbl ← addRegions s.backedBlockList
          ((range' i (numBlocks bs (img.length - i * bs))).map (rawRegion bs fd img))
        .ok { s with backedBlockList := bbl }) := by
  intro rounds
  have hnone : ∀ {rounds offset block : ℕ} {s : SparseFile},
      readNormalLoop img fd rounds 0 offset block s = .ok s := by
    intro rounds offset block s
    cases rounds with
    | zero => rfl
    | succ rounds => exact if_pos rfl
  have hempty : ∀ {i : ℕ} {s : SparseFile}, img.length - i * bs = 0 →
      liftFault (addRegions s.backedBlockList
        ((range' i (numBlocks bs (img.length - i * bs))).map (rawRegion bs fd img))
          >>= fun bbl => .ok { s with backedBlockList := bbl }) = .ok s := by
    intro i s h0
    have hnb : numBlocks bs 0 = 0 := Nat.div_eq_of_lt (by omega)
    rw [h0, hnb]
    rfl
  induction rounds with
  | zero =>
    intro i s _ hle
    have h0 : img.length - i * bs = 0 := by omega
    rw [hempty h0, h0, hnone]
  | succ rounds ih =>
    intro i s hsize hle
    by_cases h0 : img.length - i * bs = 0
    · rw [hempty h0, h0, hnone]
    have hsucc := add_one_mul i bs
    have hread : readAll img (i * bs) (min (img.length - i * bs) bs) = .ok (blockAt bs img i) := by
      rw [readAll, if_pos (min_le_left _ _), blockAt]
      congr 1
      rw [take_eq_take_iff, length_drop]
      omega
    have hlen : min (img.length - i * bs) bs = (blockAt bs img i).length := by
      rw [length_blockAt, min_comm]
    have hblocks : numBlocks bs (img.length - i * bs)
        = numBlocks bs (img.length - (i + 1) * bs) + 1 := by
      rcases Nat.le_total bs (img.length - i * bs) with hge | hlt
      · rw [show img.length - i * bs = 1 * bs + (img.length - (i + 1) * bs) by omega,
          numBlocks_add (by omega), add_comm]
      · rw [show img.length - (i + 1) * bs = 0 by omega,
          (numBlocks_eq_one (by omega) (by omega)).mpr hlt, numBlocks,
          Nat.div_eq_of_lt (by omega)]
    rw [hblocks, range'_succ, map_cons, ← singleton_append, addRegions_append]
    have hjoin : ∀ (p : Prop) [Decidable p] (a b : Except Stop SparseFile)
        (k : SparseFile → Except Stop SparseFile),
        (if p then a >>= k else b >>= k) = (if p then a else b) >>= k := by
      intro p _ a b k
      split_ifs
      · rfl
      · rfl
    rw [readNormalLoop, if_neg h0]
    simp only [hsize]
    rw [hread]
    change (if _ then _ else if _ then _ >>= _ else _ >>= _) = _
    rw [if_neg (by omega), hlen, hjoin, addRegions_rawRegion]
    cases hadd : addRegions s.backedBlockList [rawRegion bs fd img i] with
    | error f => rfl
    | ok bbl =>
      have hblock : u32 (u32 i + 1) = u32 (i + 1) := by
        simp only [u32]
        omega
      have hsize' : ({ s with backedBlockList := bbl } : SparseFile).blockSize = bs :=
        (addRegions_blockSize hadd).trans hsize
      have hrest := ih (i + 1) { s with backedBlockList := bbl } hsize' (by omega)
      have hremain : img.length - i * bs - (blockAt bs img i).length
          = img.length - (i + 1) * bs := by omega
      simp only [bind, Except.bind, liftFault]
      rw [hblock, hremain]
      by_cases hfull : bs ≤ img.length - i * bs
      · rw [show i * bs + (blockAt bs img i).length = (i + 1) * bs by omega]
        exact hrest
      · -- the short block was the last
        have hlast : img.length - (i + 1) * bs = 0 := by omega
        rw [hlast, hnone] at hrest ⊢
        exact hrest

/-! ### Neighbouring blocks -/

theorem stale_map_range' (g : ℕ → Region) : ∀ (n i : ℕ), Stale bs ((range' i n).map g) ↔
    ∃ k, i ≤ k ∧ k + 2 < i + n ∧ (g k).Joins bs (g (k + 1)) := by
  intro n
  induction n with
  | zero => exact fun i => ⟨fun h => h.elim, fun ⟨k, h1, h2, _⟩ => by omega⟩
  | succ n ih =>
    intro i
    match n, ih with
    | 0, _ => exact ⟨fun h => h.elim, fun ⟨k, h1, h2, _⟩ => by omega⟩
    | 1, _ => exact ⟨fun h => h.elim, fun ⟨k, h1, h2, _⟩ => by omega⟩
    | m + 2, ih =>
      have hstep : Stale bs ((range' i (m + 3)).map g) ↔
          (g i).Joins bs (g (i + 1)) ∨ Stale bs ((range' (i + 1) (m + 2)).map g) := Iff.rfl
      rw [hstep, ih]
      constructor
      · rintro (h | ⟨k, h1, h2, h⟩)
        · exact ⟨i, le_rfl, by omega, h⟩
        · exact ⟨k, by omega, by omega, h⟩
      · rintro ⟨k, h1, h2, h⟩
        rcases Nat.eq_or_lt_of_le h1 with rfl | h1
        · exact Or.inl h
        · exact Or.inr ⟨k, h1, by omega, h⟩

theorem rawRegion_block (hi : i < 2 ^ 32) : (rawRegion bs fd img i).block = i := by
  cases h : fillWord bs img i with
  | none => rw [rawRegion_of_fd h]; exact u32_of_lt hi
  | some w => rw [rawRegion_of_fill h]; exact u32_of_lt hi

theorem rawRegion_len (hbs32 : bs < 2 ^ 32) (i : ℕ) :
    (rawRegion bs fd img i).len = (blockAt bs img i).length := by
  cases h : fillWord bs img i with
  | none =>
    rw [rawRegion_of_fd h]
    exact u32_of_lt (by rw [length_blockAt]; omega)
  | some w =>
    have hfull : (blockAt bs img i).length = bs := by
      by_contra hne
      rw [fillWord, if_neg fun hc => hne hc.1] at h
      cases h
    rw [rawRegion_of_fill h, hfull]
    exact u32_of_lt hbs32

theorem rawRegion_stop (hbs : 0 < bs) (hbs32 : bs < 2 ^ 32) (hi : i < 2 ^ 32)
    (hin : i * bs < img.length) : ((rawRegion bs fd img i).node 0).stop bs = i + 1 := by
  have hlen := length_blockAt bs img i
  rw [stop]
  show (rawRegion bs fd img i).block + numBlocks bs (rawRegion bs fd img i).len = _
  rw [rawRegion_block hi, rawRegion_len hbs32, (numBlocks_eq_one hbs (by omega)).mpr (by omega)]

/-- Two neighbours are merged exactly if they are both fills with the same word or
both no fills. -/
theorem rawRegion_joins (hbs : 0 < bs) (hbs32 : bs < 2 ^ 32) (hi : i + 1 < 2 ^ 32)
    (hfull : (i + 1) * bs ≤ img.length) :
    (rawRegion bs fd img i).Joins bs (rawRegion bs fd img (i + 1)) ↔
      fillWord bs img i = fillWord bs img (i + 1) := by
  have hsucc := add_one_mul i bs
  have hlen : (rawRegion bs fd img i).len = bs := by
    rw [rawRegion_len hbs32, length_blockAt]
    omega
  have hadj : u32 ((rawRegion bs fd img i).block + (rawRegion bs fd img i).len / bs)
      = (rawRegion bs fd img (i + 1)).block := by
    rw [rawRegion_block (by omega), rawRegion_block hi, hlen, Nat.div_self hbs, u32_of_lt hi]
  rw [Region.Joins, and_iff_right hadj, hlen]
  cases h : fillWord bs img i with
  | none =>
    rw [rawRegion_of_fd h]
    cases h' : fillWord bs img (i + 1) with
    | none =>
      rw [rawRegion_of_fd h', Backing.Continues, hsucc]
      simp
    | some w =>
      rw [rawRegion_of_fill h', Backing.Continues]
      simp
  | some v =>
    rw [rawRegion_of_fill h]
    cases h' : fillWord bs img (i + 1) with
    | none =>
      rw [rawRegion_of_fd h', Backing.Continues]
      simp
    | some w =>
      rw [rawRegion_of_fill h', Backing.Continues]
      simp [eq_comm]

/-- When an addition follows a freed node. -/
theorem stale_rawRegions (img : List UInt8) (fd : ℕ) (hbs : 0 < bs) (hbs32 : bs < 2 ^ 32)
    (hn : numBlocks bs img.length ≤ 2 ^ 32) :
    Stale bs (rawRegions bs fd img) ↔
      ∃ i, (i + 2) * bs < img.length ∧ fillWord bs img i = fillWord bs img (i + 1) := by
  rw [stale_map_range']
  refine exists_congr fun i => ?_
  rw [and_iff_right (Nat.zero_le i), Nat.zero_add, lt_numBlocks_iff hbs]
  refine and_congr_right fun hi => ?_
  have hlt := (lt_numBlocks_iff hbs).mpr hi
  have hmul : (i + 1) * bs ≤ (i + 2) * bs := Nat.mul_le_mul_right bs (by omega)
  exact rawRegion_joins hbs hbs32 (by omega) (by omega)

end

/-! ### Merged nodes in place -/

variable {bs : ℕ}

theorem padBlocks_append (hbs : 0 < bs) {x : List UInt8} (h : bs ∣ x.length) (y : List UInt8) :
    padBlocks bs (x ++ y) = x ++ padBlocks bs y := by
  obtain ⟨q, hq⟩ := h
  rw [padBlocks, padBlocks, length_append, append_assoc, hq, mul_comm bs q,
    numBlocks_add hbs, Nat.add_mul]
  congr 3
  omega

theorem padBlocks_of_dvd (hbs : 0 < bs) {x : List UInt8} (h : bs ∣ x.length) :
    padBlocks bs x = x := by
  have hnil : padBlocks bs [] = [] := by
    rw [padBlocks, length_nil, numBlocks, Nat.div_eq_of_lt (by omega), Nat.zero_mul]
    rfl
  have := padBlocks_append hbs h []
  rwa [hnil, append_nil] at this

/-- What the plain writer appends does not depend on the addresses of the nodes. -/
theorem plainFrom_region (env : Env) (bs : ℕ) : ∀ (l : List BackedBlock) (last : ℕ),
    plainFrom env bs last l = plainFrom env bs last ((l.map region).map (·.node 0)) ∧
      endBlock bs last l = endBlock bs last ((l.map region).map (·.node 0)) := by
  intro l
  induction l with
  | nil => exact fun last => ⟨rfl, rfl⟩
  | cons bb l ih =>
    intro last
    obtain ⟨h1, h2⟩ := ih (bb.stop bs)
    refine ⟨?_, ?_⟩
    · rw [plainFrom, h1]
      rfl
    · rw [endBlock, h2]
      rfl

/-- A merged region is written in place as the two regions are. -/
theorem Region.inPlace_join (env : Env) (hbs : 0 < bs) (h4 : 4 ∣ bs) {a b : Region}
    (hdvd : bs ∣ a.len) (hback : b.backing = a.backing.advance a.len)
    (hsum : a.len + b.len < 2 ^ 32) :
    ((a.join b).node 0).inPlace env bs
      = (a.node 0).inPlace env bs ++ (b.node 0).inPlace env bs := by
  have hbytes : ((a.join b).node 0).bytes env = (a.node 0).bytes env ++ (b.node 0).bytes env := by
    show (range (u32 (a.len + b.len))).map (a.backing.byteAt env)
      = (range a.len).map (a.backing.byteAt env)
        ++ (range b.len).map (b.backing.byteAt env)
    rw [u32_of_lt hsum, range_add, map_append, map_map]
    congr 2
    funext i
    show a.backing.byteAt env (a.len + i) = _
    by_cases ht : a.backing.type = .fill
    · obtain ⟨v, hv⟩ := Backing.type_eq_fill.mp ht
      rw [hback, hv]
      exact fillByte_add (h4.trans hdvd) i
    · rw [hback, Backing.byteAt_advance _ _ _ _ ht]
  have htype : b.backing.type = a.backing.type := by
    rw [hback]
    cases a.backing <;> rfl
  by_cases ht : a.backing.type = .fill
  · have ht' := htype.trans ht
    rw [((a.join b).node 0).inPlace_of_fill env bs ht, (a.node 0).inPlace_of_fill env bs ht,
      (b.node 0).inPlace_of_fill env bs ht', hbytes]
  · have ht' : b.backing.type ≠ .fill := htype ▸ ht
    have hlen : bs ∣ ((a.node 0).bytes env).length := by
      rw [length_bytes]
      exact hdvd
    rw [((a.join b).node 0).inPlace_of_ne_fill env bs ht, (a.node 0).inPlace_of_ne_fill env bs ht,
      (b.node 0).inPlace_of_ne_fill env bs ht', hbytes, padBlocks_append hbs hlen,
      padBlocks_of_dvd hbs hlen]

/-- The merge of the last two regions does not change what is written in place, if
their lengths add up without wrapping. -/
theorem plainFrom_settle (env : Env) (hbs : 0 < bs) (h4 : 4 ∣ bs) :
    ∀ {rs : List Region} (last : ℕ),
    rs.Pairwise (fun a b => a.block + numBlocks bs a.len ≤ b.block) →
    (∀ fin a b, rs = fin ++ [a, b] → a.Joins bs b → a.len + b.len < 2 ^ 32) →
    plainFrom env bs last ((settle bs rs).map (·.node 0))
        = plainFrom env bs last (rs.map (·.node 0)) ∧
      endBlock bs last ((settle bs rs).map (·.node 0))
        = endBlock bs last (rs.map (·.node 0)) := by
  intro rs
  induction rs using settle.induct bs with
  | case1 => exact fun _ _ _ => ⟨rfl, rfl⟩
  | case2 a => exact fun _ _ _ => ⟨rfl, rfl⟩
  | case3 a b hj =>
    intro last hord hlen
    have hsum := hlen [] a b rfl hj
    obtain ⟨hdvd, hadj⟩ := hj.adjacent hbs ((pairwise_cons.mp hord).1 b mem_cons_self)
    obtain ⟨q, hq⟩ := hdvd
    have hdiv : a.len / bs = q := by rw [hq, Nat.mul_div_cancel_left _ hbs]
    have hstop : (a.node 0).stop bs = b.block := by
      show a.block + numBlocks bs a.len = _
      rw [hadj, hdiv, hq, mul_comm, numBlocks_mul hbs]
    rw [settle, if_pos hj]
    constructor
    · simp only [map_cons, map_nil, plainFrom]
      rw [Region.inPlace_join env hbs h4 ⟨q, hq⟩ hj.advance hsum, hstop,
        show (b.node 0).block - b.block = 0 from Nat.sub_self _]
      simp only [Nat.zero_mul, replicate_zero, nil_append, append_nil]
      rfl
    · show a.block + numBlocks bs (u32 (a.len + b.len)) = b.block + numBlocks bs b.len
      rw [u32_of_lt hsum, hadj, hdiv, hq, mul_comm bs q, numBlocks_add hbs, add_assoc]
  | case4 a b hj =>
    intro last _ _
    rw [settle, if_neg hj]
    exact ⟨rfl, rfl⟩
  | case5 a b c rest ih =>
    intro last hord hlen
    obtain ⟨h1, h2⟩ := ih ((a.node 0).stop bs) (pairwise_cons.mp hord).2
      fun fin d e heq => hlen (a :: fin) d e (by rw [heq]; rfl)
    rw [settle, map_cons, map_cons, plainFrom, endBlock, h1, h2]
    exact ⟨rfl, rfl⟩

/-- What holds of all regions and of a merge of two of them holds of what is left. -/
theorem settle_forall {P : Region → Prop} : ∀ {rs : List Region},
    rs.Pairwise (fun a b => a.block + numBlocks bs a.len ≤ b.block) → (∀ r ∈ rs, P r) →
    (∀ a ∈ rs, ∀ b ∈ rs, a.block + numBlocks bs a.len ≤ b.block → a.Joins bs b → P (a.join b)) →
    ∀ r ∈ settle bs rs, P r := by
  intro rs
  induction rs using settle.induct bs with
  | case1 => exact fun _ h _ => h
  | case2 a => exact fun _ h _ => h
  | case3 a b hj =>
    intro hord _ hjoin r hr
    rw [settle, if_pos hj, mem_singleton] at hr
    rw [hr]
    exact hjoin a (by simp) b (by simp) ((pairwise_cons.mp hord).1 b (by simp)) hj
  | case4 a b hj =>
    intro _ h _
    rw [settle, if_neg hj]
    exact h
  | case5 a b c rest ih =>
    intro hord h hjoin r hr
    rcases mem_cons.mp hr with rfl | hr
    · exact h r mem_cons_self
    · exact ih (pairwise_cons.mp hord).2 (fun d hd => h d (mem_cons_of_mem a hd))
        (fun d hd e he => hjoin d (mem_cons_of_mem a hd) e (mem_cons_of_mem a he)) r hr

theorem settle_ordered : ∀ {rs : List Region},
    rs.Pairwise (fun a b => a.block + numBlocks bs a.len ≤ b.block) →
    (settle bs rs).Pairwise (fun a b => a.block + numBlocks bs a.len ≤ b.block) ∧
      ∀ r ∈ settle bs rs, ∃ r' ∈ rs, r.block = r'.block := by
  intro rs
  induction rs using settle.induct bs with
  | case1 | case2 => exact fun h => ⟨h, fun r hr => ⟨r, hr, rfl⟩⟩
  | case3 a b hj =>
    intro _
    rw [settle, if_pos hj]
    refine ⟨pairwise_singleton _ _, fun r hr => ⟨a, by simp, ?_⟩⟩
    rw [mem_singleton.mp hr]
    rfl
  | case4 a b hj =>
    intro h
    rw [settle, if_neg hj]
    exact ⟨h, fun r hr => ⟨r, hr, rfl⟩⟩
  | case5 a b c rest ih =>
    intro h
    obtain ⟨ha, hrest⟩ := pairwise_cons.mp h
    obtain ⟨h1, h2⟩ := ih hrest
    rw [settle]
    refine ⟨pairwise_cons.mpr ⟨fun r hr => ?_, h1⟩, fun r hr => ?_⟩
    · obtain ⟨r', hr', hblock⟩ := h2 r hr
      rw [hblock]
      exact ha r' hr'
    · rcases mem_cons.mp hr with rfl | hr
      · exact ⟨r, mem_cons_self, rfl⟩
      · obtain ⟨r', hr', hblock⟩ := h2 r hr
        exact ⟨r', mem_cons_of_mem a hr', hblock⟩

/-! ### The image in place -/

section

variable {img : List UInt8} {fd bs : ℕ}

/-- A whole block is written in place as it is in the image. -/
theorem rawRegion_inPlace (env : Env) (hbs : 0 < bs) (hbs32 : bs < 2 ^ 32) (h4 : 4 ∣ bs) {i : ℕ}
    (hfull : (i + 1) * bs ≤ img.length) :
    ((rawRegion bs fd img i).node 0).inPlace (env.withFd fd img) bs = blockAt bs img i := by
  have hsucc := add_one_mul i bs
  have hlen : (blockAt bs img i).length = bs := by
    rw [length_blockAt]
    omega
  cases h : fillWord bs img i with
  | some w =>
    have hword := h
    rw [fillWord] at h
    split at h
    · rename_i hc
      cases h
      rw [rawRegion_of_fill hword, inPlace_of_fill _ _ rfl]
      show (range (u32 bs)).map (fillByte _) = _
      rw [u32_of_lt hbs32, map_fillByte_eq h4 hlen hc.2]
    · cases h
  | none =>
    have hbytes : ((rawRegion bs fd img i).node 0).bytes (env.withFd fd img)
        = blockAt bs img i := by
      rw [rawRegion_of_fd h]
      show (range (u32 (blockAt bs img i).length)).map
        (fun j => (env.withFd fd img).fd fd (i * bs + j)) = _
      rw [hlen, u32_of_lt hbs32]
      refine ext_getElem (by simp [hlen]) fun j h1 h2 => ?_
      rw [getElem_map, getElem_range, Env.withFd_fd, getD_eq_getElem?_getD,
        getElem?_eq_getElem (by omega), Option.getD_some]
      simp only [blockAt, getElem_take, getElem_drop]
    have hne : ((rawRegion bs fd img i).node 0).backing.type ≠ .fill := by
      rw [rawRegion_of_fd h]
      simp [Region.node, Backing.type]
    rw [inPlace_of_ne_fill _ _ hne, hbytes,
      padBlocks_of_dvd hbs (by rw [hlen])]

/-- **The regions of whole blocks are the image.** -/
theorem plainFrom_rawRegions (env : Env) (hbs : 0 < bs) (hbs32 : bs < 2 ^ 32) (h4 : 4 ∣ bs) :
    ∀ (n i : ℕ), (i + n) * bs ≤ img.length → i + n ≤ 2 ^ 32 →
    plainFrom (env.withFd fd img) bs i
        (((range' i n).map (rawRegion bs fd img)).map (·.node 0))
      = (img.drop (i * bs)).take (n * bs) := by
  intro n
  induction n with
  | zero => exact fun i _ _ => by simp [plainFrom]
  | succ n ih =>
    intro i hle h32
    have hsum : (i + (n + 1)) * bs = i * bs + (n * bs + bs) := by
      rw [Nat.add_mul, Nat.add_mul, one_mul]
    have hsucc := add_one_mul i bs
    have hblock : ((rawRegion bs fd img i).node 0).block = i := rawRegion_block (by omega)
    rw [range'_succ, map_cons, map_cons, plainFrom, hblock,
      rawRegion_stop hbs hbs32 (by omega) (by omega),
      ih (i + 1) (by rw [show i + 1 + n = i + (n + 1) by omega]; exact hle) (by omega),
      rawRegion_inPlace env hbs hbs32 h4 (by omega), Nat.sub_self, Nat.zero_mul,
      replicate_zero, nil_append, blockAt, hsucc, ← drop_drop, Nat.add_mul, one_mul,
      add_comm (n * bs) bs, take_add]

theorem endBlock_rawRegions (hbs : 0 < bs) (hbs32 : bs < 2 ^ 32) : ∀ (n i : ℕ),
    n ≤ numBlocks bs (img.length - i * bs) → i + n ≤ 2 ^ 32 →
    endBlock bs i (((range' i n).map (rawRegion bs fd img)).map (·.node 0)) = i + n := by
  intro n
  induction n with
  | zero => exact fun i _ _ => rfl
  | succ n ih =>
    intro i hle h32
    have hsucc := add_one_mul i bs
    have hrest : n * bs < img.length - i * bs := (lt_numBlocks_iff hbs).mp (by omega)
    rw [range'_succ, map_cons, map_cons, endBlock, rawRegion_stop hbs hbs32 (by omega) (by omega),
      ih (i + 1) _ (by omega)]
    · omega
    · rcases Nat.eq_zero_or_pos n with rfl | hn
      · exact Nat.zero_le _
      · have hmul := Nat.le_mul_of_pos_left bs hn
        have : n - 1 < numBlocks bs (img.length - (i + 1) * bs) := by
          rw [lt_numBlocks_iff hbs, Nat.sub_mul, hsucc]
          omega
        omega

/-! ### There and back -/

/-- The image is read into a sparse file, and written in place from it. -/
def Restores (env : Env) (fd bs : ℕ) (img : List UInt8) : Prop :=
  ∃ s f, sparseFileRead img fd false (sparseFileNew bs img.length) false = .ok s ∧
    sparseFileWrite (env.withFd fd img) s ⟨[], 0⟩ false false = .ok (f, 0) ∧ f.contents = img

theorem sparseFileRead_raw (h4 : 4 ≤ bs) (hbs32 : bs < 2 ^ 32) (hlen : img.length < 2 ^ 63) :
    sparseFileRead img fd false (sparseFileNew bs img.length) false
      = liftFault (do
        let bbl ← addRegions (backedBlockListNew bs)
          (rawRegions bs fd img)
        .ok { len := img.length, backedBlockList := bbl }) := by
  have hlen64 : (sparseFileNew bs img.length).len = img.length := by
    simp only [sparseFileNew]
    exact i64_of_range (by omega) (by omega)
  have hloop : readNormalLoop img fd img.length (img.length - 0 * bs) (0 * bs) (u32 0)
      (sparseFileNew bs img.length) = _ :=
    readNormalLoop_eq h4 img.length 0 _ (u32_of_lt hbs32) (Nat.sub_le _ _)
  rw [Nat.zero_mul, Nat.sub_zero] at hloop
  rw [sparseFileRead, if_neg (by simp), if_neg (by simp), sparseFileReadNormal, hlen64,
    Int.toNat_natCast]
  refine hloop.trans ?_
  rw [hlen64]
  rfl

/-- The regions of the blocks are in order. -/
theorem rawRegions_ordered (img : List UInt8) (fd : ℕ) (hbs : 0 < bs) (hbs32 : bs < 2 ^ 32)
    {n : ℕ} (h32 : n ≤ 2 ^ 32) :
    ((range' 0 n).map (rawRegion bs fd img)).Pairwise
      (fun a b => a.block < b.block ∧ a.block + numBlocks bs a.len ≤ b.block) := by
  rw [pairwise_map]
  refine List.Pairwise.imp_of_mem ?_ (pairwise_lt_range' (s := 0) (n := n))
  intro i j hi hj hij
  rw [mem_range'_1] at hi hj
  rw [rawRegion_block (by omega), rawRegion_block (by omega), rawRegion_len hbs32]
  have hle : numBlocks bs (blockAt bs img i).length ≤ 1 := by
    have h1 : (blockAt bs img i).length ≤ bs := by
      rw [length_blockAt]
      omega
    exact (numBlocks_mono h1).trans_eq ((numBlocks_eq_one hbs hbs).mpr le_rfl)
  omega

/-- Every region is of at most one block, and lies inside the image. -/
theorem rawRegions_bounds (img : List UInt8) (fd : ℕ) (hbs : 0 < bs) (hbs32 : bs < 2 ^ 32)
    (hn : numBlocks bs img.length ≤ 2 ^ 32) :
    ∀ r ∈ rawRegions bs fd img,
      0 < r.len ∧ r.len ≤ bs ∧ r.block * bs + r.len ≤ img.length := by
  intro r hr
  obtain ⟨i, hi, rfl⟩ := mem_map.mp hr
  rw [mem_range'_1] at hi
  have hin : i * bs < img.length := (lt_numBlocks_iff hbs).mp (by omega)
  rw [rawRegion_block (by omega), rawRegion_len hbs32, length_blockAt]
  omega

theorem length_lt_of_blocks (hbs : 0 < bs) (h30 : bs < 2 ^ 30) {len : ℕ}
    (hblks : len / bs + 1 < 2 ^ 32) : len < 2 ^ 62 :=
  calc len < bs * (len / bs + 1) := Nat.lt_mul_div_succ len hbs
    _ ≤ 2 ^ 30 * 2 ^ 32 := Nat.mul_le_mul h30.le hblks.le
    _ = 2 ^ 62 := by norm_num

/-- The nodes once all additions have gone through: two blocks were merged at most. -/
theorem settled_bounds (hbs : 0 < bs) (h30 : bs < 2 ^ 30)
    (hn : numBlocks bs img.length ≤ 2 ^ 32) :
    ∀ r ∈ settle bs (rawRegions bs fd img),
      0 < r.len ∧ r.len ≤ 2 * bs ∧ r.block * bs + r.len ≤ img.length := by
  have hraw := rawRegions_bounds img fd hbs (by omega) hn
  refine settle_forall ((rawRegions_ordered img fd hbs (by omega) hn).imp fun h => h.2)
    (fun r hr => ?_) (fun a ha b hb hab hj => ?_)
  · obtain ⟨h1, h2, h3⟩ := hraw r hr
    exact ⟨h1, by omega, h3⟩
  · obtain ⟨ha1, ha2, ha3⟩ := hraw a ha
    obtain ⟨hb1, hb2, hb3⟩ := hraw b hb
    obtain ⟨hdvd, hadj⟩ := hj.adjacent hbs hab
    have hlen : (a.join b).len = a.len + b.len := u32_of_lt (by omega)
    have hblock : (a.join b).block = a.block := rfl
    rw [hadj, Nat.add_mul, Nat.div_mul_cancel hdvd] at hb3
    rw [hlen, hblock]
    omega

variable (h30 : bs < 2 ^ 30) {bbl : BackedBlockList}
  (hl : bbl.dataBlocks.map region = settle bs (rawRegions bs fd img))

include h30 hl in
/-- The sparse file that was read, once all additions have gone through. -/
theorem placed_rawRegions (h4 : 4 ≤ bs) (hblks : img.length / bs + 1 < 2 ^ 32)
    (hsize : bbl.blockSize = bs) :
    (⟨img.length, bbl⟩ : SparseFile).Placed img.length := by
  subst hsize
  set bs := bbl.blockSize
  have hbs : 0 < bs := by omega
  have hn : numBlocks bs img.length ≤ 2 ^ 32 :=
    (numBlocks_le_succ hbs img.length).trans hblks.le
  have hlen62 := length_lt_of_blocks hbs h30 hblks
  have hmem : ∀ bb ∈ bbl.dataBlocks, 0 < bb.len ∧ bb.len ≤ 2 * bs ∧
      bb.block * bs + bb.len ≤ img.length := fun bb hbb =>
    settled_bounds hbs h30 hn bb.region (hl ▸ mem_map_of_mem hbb)
  have hround : ∀ len, numBlocks bs len * bs < len + bs := by
    intro len
    have : numBlocks bs len * bs ≤ len + bs - 1 := Nat.div_mul_le_self _ _
    omega
  have hsettled := (settle_ordered
    ((rawRegions_ordered img fd hbs (by omega) hn).imp fun h => h.2)).1
  rw [← hl, pairwise_map] at hsettled
  refine ⟨hbs, rfl, by omega, hblks, ?_, fun bb hbb => (hmem bb hbb).2.2⟩
  rw [show SparseFile.blockSize ⟨img.length, bbl⟩ = bs from rfl]
  refine ⟨⟨fun bb hbb => (hmem bb hbb).1, hsettled⟩, fun bb _ => Nat.zero_le _, fun bb hbb => ?_,
    fun bb hbb => ?_⟩
  · obtain ⟨h1, h2, h3⟩ := hmem bb hbb
    have := hround bb.len
    exact ⟨by omega, fun _ => ⟨by omega, by omega, by norm_num [chunkHeaderLen]; omega⟩⟩
  · obtain ⟨h1, h2, h3⟩ := hmem bb hbb
    have hstop : bb.stop bs * bs < img.length + bs := by
      have := hround bb.len
      rw [stop, Nat.add_mul]
      omega
    have hle : bb.stop bs ≤ img.length / bs + 1 := by
      by_contra hlt
      have hmul := Nat.mul_le_mul_right bs (Nat.succ_le_of_lt (not_le.mp hlt))
      have hdm := Nat.lt_mul_div_succ img.length hbs
      rw [Nat.succ_mul, mul_comm _ bs] at hmul
      omega
    exact ⟨by omega, by omega⟩

include h30 hl in
/-- What the nodes hold in place, once all additions have gone through. -/
theorem plainFrom_settled (env : Env) (hbs : 0 < bs) (h4 : 4 ∣ bs)
    (hn : numBlocks bs img.length ≤ 2 ^ 32) :
    plainFrom env bs 0 bbl.dataBlocks = plainFrom env bs 0
        ((rawRegions bs fd img).map (·.node 0)) ∧
      endBlock bs 0 bbl.dataBlocks = numBlocks bs img.length := by
  obtain ⟨h1, h2⟩ := plainFrom_region env bs bbl.dataBlocks 0
  rw [hl] at h1 h2
  have hends : endBlock bs 0 ((rawRegions bs fd img).map (·.node 0)) =
      0 + numBlocks bs img.length :=
    endBlock_rawRegions hbs (by omega) _ 0 (by rw [Nat.zero_mul, Nat.sub_zero]) (by omega)
  obtain ⟨h3, h4'⟩ := plainFrom_settle env hbs h4 0
    ((rawRegions_ordered img fd hbs (by omega) hn).imp fun h => h.2) fun fin a b heq _ => by
      have ha := rawRegions_bounds img fd hbs (by omega) hn a (by rw [rawRegions, heq]; simp)
      have hb := rawRegions_bounds img fd hbs (by omega) hn b (by rw [rawRegions, heq]; simp)
      omega
  exact ⟨h1.trans h3, (h2.trans h4').trans (hends.trans (Nat.zero_add _))⟩

end

end Sparse
