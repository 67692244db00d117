/-
Adding regions to a block list (`queue_bb`, `backed_block_add_*`).

Regions with pairwise disjoint block ranges may be added in any order: as long
as the cached pointer `last_used` refers to a node of the list (or is null) when
it is followed, every insertion path — empty list, head, from the cache, from
the head — and both merges leave a strictly increasing list of non-overlapping
nodes that denotes the union of the regions.

* `mergeBb_of_ordered` — what `merge_bb` does to two neighbours;
* `insertAfter_spec` — the search loop with the insertion and both merges;
* `queueBb_spec` — one call of `queue_bb`;
* `addRegions_image` — any number of calls, in any order;
* `cacheLive_of_unjoined` — when the cache stays live.
-/
import AndroidSystem.BackedBlock
import AndroidSystem.Runs

open CInt List Runs IntervalMap

namespace Sparse

/-- The arguments of one `backed_block_add_*` call, of type `unsigned int`. -/
structure Region where
  backing : Backing
  len : ℕ
  block : ℕ
  len_lt : len < 2 ^ 32
  block_lt : block < 2 ^ 32

/-- The call the arguments are for. -/
def Region.addTo (bbl : BackedBlockList) (r : Region) : Except Fault BackedBlockList :=
  match r.backing with
  | .data p => backedBlockAddData bbl p r.len r.block
  | .file name o => backedBlockAddFile bbl name o r.len r.block
  | .fd k o => backedBlockAddFd bbl k o r.len r.block
  | .fill v => backedBlockAddFill bbl v r.len r.block

/-- The node the call allocates. -/
def Region.node (r : Region) (addr : ℕ) : BackedBlock where
  addr := addr
  block := r.block
  len := r.len
  backing := r.backing
  block_lt := r.block_lt
  len_lt := r.len_lt

/-- A sequence of `backed_block_add_*` calls. -/
def addRegions : BackedBlockList → List Region → Except Fault BackedBlockList
  | bbl, [] => .ok bbl
  | bbl, r :: rs => do
    let bbl ← r.addTo bbl
    addRegions bbl rs

theorem Region.addTo_eq (bbl : BackedBlockList) (r : Region) :
    r.addTo bbl = queueBb bbl (r.node bbl.freshAddr) := by
  have hblock : u32 r.block = r.block := u32_of_lt r.block_lt
  have hlen : u32 r.len = r.len := u32_of_lt r.len_lt
  have h : ∀ backing, backing = r.backing → backedBlockAdd bbl backing r.len r.block
      = queueBb bbl (r.node bbl.freshAddr) := by
    intro backing hb
    simp only [backedBlockAdd, node, hblock, hlen, hb]
  rw [addTo]
  cases hr : r.backing with
  | data p => exact h _ hr.symm
  | file name o => exact h _ hr.symm
  | fd k o => exact h _ hr.symm
  | fill v => exact h _ hr.symm

variable {bbl : BackedBlockList} {newBb : BackedBlock}

theorem queueBb_blockSize {bbl' : BackedBlockList} (h : queueBb bbl newBb = .ok bbl') :
    bbl'.blockSize = bbl.blockSize := by
  rw [queueBb] at h
  cases hl : bbl.dataBlocks with
  | nil =>
    simp only [hl] at h
    cases h
    rfl
  | cons head tail =>
    simp only [hl] at h
    split at h
    · cases h
      rfl
    · obtain ⟨_, -, h⟩ := bind_eq_ok h
      obtain ⟨_, -, h⟩ := bind_eq_ok h
      cases h
      rfl

theorem addRegions_blockSize : ∀ {rs : List Region} {bbl bbl' : BackedBlockList},
    addRegions bbl rs = .ok bbl' → bbl'.blockSize = bbl.blockSize := by
  intro rs
  induction rs with
  | nil =>
    intro bbl bbl' h
    cases h
    rfl
  | cons r rs ih =>
    intro bbl bbl' h
    rw [addRegions, Region.addTo_eq] at h
    obtain ⟨bbl₁, hq, h⟩ := bind_eq_ok h
    exact (ih h).trans (queueBb_blockSize hq)

/-! ### Ordered lists -/

variable {bb : BackedBlock} {bs : ℕ} {l : List BackedBlock}

/-- The nodes are nonempty, in increasing order, and do not overlap. -/
structure Ordered (bs : ℕ) (l : List BackedBlock) : Prop where
  pos : ∀ bb ∈ l, 0 < bb.len
  ord : l.Pairwise fun a b => a.stop bs ≤ b.block

/-- The number of bytes in a list of nodes. -/
def totalLen (l : List BackedBlock) : ℕ := (l.map (·.len)).sum

@[simp] theorem totalLen_append (l l' : List BackedBlock) :
    totalLen (l ++ l') = totalLen l + totalLen l' := by
  simp [totalLen]

@[simp] theorem totalLen_cons (bb : BackedBlock) (l : List BackedBlock) :
    totalLen (bb :: l) = bb.len + totalLen l := by
  simp [totalLen]

@[simp] theorem totalLen_nil : totalLen [] = 0 := rfl

theorem lt_stop (hbs : 0 < bs) (h : 0 < bb.len) :
    bb.block < bb.stop bs := by
  have := numBlocks_pos hbs h
  rw [BackedBlock.stop]
  omega

theorem Ordered.strictly_increasing (hbs : 0 < bs) (h : Ordered bs l) :
    l.Pairwise fun a b => a.block < b.block := by
  refine h.ord.imp_of_mem ?_
  intro a b ha _ hab
  exact lt_of_lt_of_le (lt_stop hbs (h.pos a ha)) hab

theorem Ordered.apart (h : Ordered bs l) (env : Env) :
    l.Pairwise (blockMap env bs).Apart :=
  h.ord.imp fun hab => Or.inl hab

/-- What relates a list to one that denotes the same with neighbours merged. -/
structure SameBlocks (env : Env) (bs : ℕ) (l l' : List BackedBlock) : Prop where
  ordered : Ordered bs l'
  lookup : (blockMap env bs).lookup l' = (blockMap env bs).lookup l
  len : totalLen l' = totalLen l

/-! ### `merge_bb` -/

/-- A node without its address. -/
def BackedBlock.region (bb : BackedBlock) : Region where
  backing := bb.backing
  len := bb.len
  block := bb.block
  len_lt := bb.len_lt
  block_lt := bb.block_lt

@[simp] theorem Region.region_node (r : Region) (a : ℕ) : (r.node a).region = r := rfl

/-- `merge_bb` finds that `b` continues a region of `len` bytes backed by `a`. -/
def Backing.Continues (len : ℕ) (b : Backing) : Backing → Prop
  | .fill v => b = .fill v
  | .fd n o => b = .fd n (o + len)
  | .data _ => False
  | .file _ _ => False

instance (len : ℕ) (b : Backing) : (a : Backing) → Decidable (b.Continues len a)
  | .fill v => inferInstanceAs (Decidable (b = .fill v))
  | .fd n o => inferInstanceAs (Decidable (b = .fd n (o + len)))
  | .data _ => isFalse id
  | .file _ _ => isFalse id

/-- `merge_bb` finds the two regions adjacent and compatible. -/
def Region.Joins (bs : ℕ) (a b : Region) : Prop :=
  u32 (a.block + a.len / bs) = b.block ∧ b.backing.Continues a.len a.backing

instance (bs : ℕ) (a b : Region) : Decidable (a.Joins bs b) :=
  inferInstanceAs (Decidable (_ ∧ _))

/-- The region of the merged node. -/
def Region.join (a b : Region) : Region :=
  { a with len := u32 (a.len + b.len), len_lt := u32_lt _ }

theorem Region.Joins.advance {a b : Region} (h : a.Joins bs b) :
    b.backing = a.backing.advance a.len := by
  have hc := h.2
  cases ha : a.backing <;> rw [ha] at hc
  · exact hc.elim
  · exact hc.elim
  · exact hc
  · exact hc

variable {b a : BackedBlock} {env : Env} {pre : List BackedBlock}

/-- What `merge_bb` does to a node and one further right. -/
theorem mergeBb_eq (hbs : 0 < bs) (hlt : a.block < b.block) :
    mergeBb bs a b = .ok (if a.region.Joins bs b.region then
      some { a with len := u32 (a.len + b.len), len_lt := u32_lt _ } else none) := by
  have hjoins : a.region.Joins bs b.region ↔
      u32 (a.block + a.len / bs) = b.block ∧ b.backing.Continues a.len a.backing := Iff.rfl
  simp only [hjoins]
  rw [mergeBb, if_neg (not_not.mpr hlt), if_neg hbs.ne']
  by_cases hadj : u32 (a.block + a.len / bs) = b.block
  · rw [if_neg (not_not.mpr hadj)]
    cases ha : a.backing <;> cases hb : b.backing <;>
      simp only [Backing.type, Backing.Continues, hadj, true_and, and_false, if_false, reduceCtorEq,
        ne_eq, not_true_eq_false, not_false_eq_true, if_true, Backing.fd.injEq, Backing.fill.injEq]
    all_goals split_ifs <;> grind
  · rw [if_pos hadj, ite_self, if_neg fun h => hadj h.1]

/-- `merge_bb` on two neighbours of an ordered list, where lengths do not wrap:
either nothing happens or the two become one node with the same meaning. -/
theorem mergeBb_of_ordered (env : Env) (hbs : 0 < bs) {post : List BackedBlock}
    (hord : Ordered bs (pre ++ a :: b :: post)) (hlen : a.len + b.len < 2 ^ 32) :
    mergeBb bs a b = .ok none ∨
      ∃ m, mergeBb bs a b = .ok (some m) ∧ a.region.Joins bs b.region ∧ m.addr = a.addr ∧
        (∀ c : Region, c.Joins bs m.region → c.Joins bs a.region) ∧
        SameBlocks env bs (pre ++ a :: b :: post) (pre ++ m :: post) := by
  have hpa : 0 < a.len := hord.pos a (by simp)
  have hab : a.stop bs ≤ b.block := by
    have := (pairwise_append.mp hord.ord).2.1
    exact (pairwise_cons.mp this).1 b (by simp)
  have hlt : a.block < b.block := lt_of_lt_of_le (lt_stop hbs hpa) hab
  rw [mergeBb_eq hbs hlt]
  by_cases hj : a.region.Joins bs b.region
  · rw [if_pos hj]
    refine Or.inr ⟨_, rfl, hj, rfl, fun _ => id, ?_⟩
    have hadj : u32 (a.block + a.len / bs) = b.block := hj.1
    have hdiv : a.len / bs ≤ a.len := Nat.div_le_self _ _
    -- the sum cannot have wrapped: it would be below `a.block`
    have hadj' : b.block = a.block + a.len / bs := by
      by_cases hw : a.block + a.len / bs < 2 ^ 32
      · rw [← hadj, u32_of_lt hw]
      · rw [u32] at hadj
        omega
    have hdvd : bs ∣ a.len := by
      apply dvd_of_numBlocks_le hbs
      rw [BackedBlock.stop] at hab
      omega
    have hmlen : u32 (a.len + b.len) = a.len + b.len := u32_of_lt hlen
    obtain ⟨hstop, hlook⟩ := lookup_join env hbs hdvd hadj' hj.advance
      (m := { a with len := u32 (a.len + b.len), len_lt := u32_lt _ }) rfl hmlen rfl
    refine ⟨⟨?_, ?_⟩, ?_, ?_⟩
    · have hpos := hord.pos
      simp only [forall_mem_append, forall_mem_cons] at hpos ⊢
      exact ⟨hpos.1, by omega, hpos.2.2.2⟩
    · have h := hord.ord
      rw [pairwise_append] at h ⊢
      obtain ⟨h1, h2, h3⟩ := h
      obtain ⟨-, h5⟩ := pairwise_cons.mp h2
      obtain ⟨h6, h7⟩ := pairwise_cons.mp h5
      refine ⟨h1, pairwise_cons.mpr ⟨hstop ▸ h6, h7⟩, fun c hc => ?_⟩
      have hcross := h3 c hc
      rw [forall_mem_cons, forall_mem_cons] at hcross
      exact forall_mem_cons.mpr ⟨hcross.1, hcross.2.2⟩
    · have := (blockMap env bs).lookup_replace hlook pre post
      simpa using this
    · simp only [totalLen_append, totalLen_cons, hmlen]
      omega
  · exact Or.inl (by rw [if_neg hj])

theorem SameBlocks.refl (h : Ordered bs l) :
    SameBlocks env bs l l := ⟨h, rfl, rfl⟩

theorem SameBlocks.trans {l' l'' : List BackedBlock} (h : SameBlocks env bs l l')
    (h' : SameBlocks env bs l' l'') : SameBlocks env bs l l'' :=
  ⟨h'.ordered, h'.lookup.trans h.lookup, h'.len.trans h.len⟩

/-! ### `queue_bb` -/

variable {rest : List BackedBlock}

/-- Linking a node in and merging it with both neighbours.  It is freed only if it continues the
node in front of it. -/
theorem linkAndMerge_spec (env : Env) (hbs : 0 < bs)
    (hord : Ordered bs (pre ++ bb :: newBb :: rest))
    (hlen : totalLen (pre ++ bb :: newBb :: rest) < 2 ^ 32) :
    ∃ chain, linkAndMerge bs bb newBb rest = .ok chain ∧
      SameBlocks env bs (pre ++ bb :: newBb :: rest) (pre ++ chain) ∧
      (¬ bb.region.Joins bs newBb.region → ∃ c ∈ chain, c.addr = newBb.addr) := by
  have hnext : ∃ newBb' rest', mergeNext bs newBb rest = .ok (newBb', rest') ∧
      SameBlocks env bs (pre ++ bb :: newBb :: rest) (pre ++ bb :: newBb' :: rest') ∧
      newBb'.addr = newBb.addr ∧
      ∀ c : Region, c.Joins bs newBb'.region → c.Joins bs newBb.region := by
    cases rest with
    | nil => exact ⟨newBb, [], rfl, SameBlocks.refl hord, rfl, fun _ => id⟩
    | cons next rest =>
      have hord' : Ordered bs ((pre ++ [bb]) ++ newBb :: next :: rest) := by simpa using hord
      simp only [totalLen_append, totalLen_cons] at hlen
      rw [mergeNext]
      rcases mergeBb_of_ordered env hbs hord' (by omega) with hm | ⟨m, hm, -, haddr, hjoins, hsame⟩
      · exact ⟨newBb, next :: rest, by rw [hm]; rfl, SameBlocks.refl hord, rfl, fun _ => id⟩
      · exact ⟨m, rest, by rw [hm]; rfl, by simpa using hsame, haddr, hjoins⟩
  obtain ⟨newBb', rest', hrun, hsame, haddr, hjoins⟩ := hnext
  have hlen' : totalLen (pre ++ bb :: newBb' :: rest') < 2 ^ 32 := hsame.len ▸ hlen
  simp only [totalLen_append, totalLen_cons] at hlen'
  simp only [linkAndMerge, hrun, bind, Except.bind]
  rcases mergeBb_of_ordered env hbs hsame.ordered (by omega) with hm | ⟨m, hm, hj, -, -, hsame'⟩
  · exact ⟨bb :: newBb' :: rest', by rw [hm], hsame, fun _ => ⟨newBb', by simp, haddr⟩⟩
  · exact ⟨m :: rest', by rw [hm], hsame.trans hsame', fun h => absurd (hjoins _ hj) h⟩

/-- Inserting a node that overlaps no other keeps the list ordered. -/
theorem Ordered.insert (hbs : 0 < bs) (env : Env) (hord : Ordered bs (pre ++ bb :: rest))
    (hpos : 0 < newBb.len) (hnew : ∀ c ∈ pre ++ bb :: rest, (blockMap env bs).Apart c newBb)
    (hbb : bb.block < newBb.block) (hrest : ∀ c ∈ rest, newBb.block ≤ c.block) :
    Ordered bs (pre ++ bb :: newBb :: rest) := by
  have hstop := lt_stop hbs hpos
  obtain ⟨h1, h2, h3⟩ := pairwise_append.mp hord.ord
  obtain ⟨h4, h5⟩ := pairwise_cons.mp h2
  have hbbnew : bb.stop bs ≤ newBb.block := by
    rcases hnew bb (by simp) with h | h
    · exact h
    · simp only [blockMap] at h
      omega
  have hnewrest : ∀ c ∈ rest, newBb.stop bs ≤ c.block := by
    intro c hc
    have hcpos := lt_stop hbs (hord.pos c (by simp [hc]))
    have hle := hrest c hc
    rcases hnew c (by simp [hc]) with h | h
    · simp only [blockMap] at h
      omega
    · exact h
  refine ⟨?_, pairwise_append.mpr ⟨h1, pairwise_cons.mpr ⟨?_,
    pairwise_cons.mpr ⟨hnewrest, h5⟩⟩, ?_⟩⟩
  · have hall := hord.pos
    simp only [forall_mem_append, forall_mem_cons] at hall ⊢
    exact ⟨hall.1, hall.2.1, hpos, hall.2.2⟩
  · exact forall_mem_cons.mpr ⟨hbbnew, h4⟩
  · intro c hc
    obtain ⟨hcbb, hcrest⟩ := forall_mem_cons.mp (h3 c hc)
    exact forall_mem_cons.mpr ⟨hcbb, forall_mem_cons.mpr ⟨by omega, hcrest⟩⟩

/-- The list `l'` is `l` with a new node, which is still there unless it continued another. -/
structure Inserted (env : Env) (bs : ℕ) (newBb : BackedBlock) (l l' : List BackedBlock) : Prop where
  ordered : Ordered bs l'
  lookup : (blockMap env bs).lookup l' = (blockMap env bs).lookup (newBb :: l)
  len : totalLen l' = newBb.len + totalLen l
  cached : (∀ c ∈ l, ¬ c.region.Joins bs newBb.region) → ∃ c ∈ l', c.addr = newBb.addr

/-- The search loop with what follows it: started at a node in front of the new
one, it inserts the new node where it belongs. -/
theorem insertAfter_spec (env : Env) (hbs : 0 < bs) (hpos : 0 < newBb.len)
    (rest : List BackedBlock) : ∀ (pre : List BackedBlock)
    (bb : BackedBlock), Ordered bs (pre ++ bb :: rest) →
    (∀ c ∈ pre ++ bb :: rest, (blockMap env bs).Apart c newBb) →
    bb.block < newBb.block → newBb.len + totalLen (pre ++ bb :: rest) < 2 ^ 32 →
    ∃ chain, insertAfter bs newBb bb rest = .ok chain ∧
      Inserted env bs newBb (pre ++ bb :: rest) (pre ++ chain) := by
  -- where the loop stops: the node is linked in, and the order of the list
  -- does not matter for what it denotes
  have hstop : ∀ (pre : List BackedBlock) (bb : BackedBlock) (rest : List BackedBlock),
      Ordered bs (pre ++ bb :: newBb :: rest) →
      newBb.len + totalLen (pre ++ bb :: rest) < 2 ^ 32 →
      ∃ chain, linkAndMerge bs bb newBb rest = .ok chain ∧
        Inserted env bs newBb (pre ++ bb :: rest) (pre ++ chain) := by
    intro pre bb rest hord hlen
    have htot : totalLen (pre ++ bb :: newBb :: rest)
        = newBb.len + totalLen (pre ++ bb :: rest) := by
      simp only [totalLen_append, totalLen_cons]
      omega
    have hperm : (pre ++ bb :: newBb :: rest).Perm (newBb :: (pre ++ bb :: rest)) := by
      have : pre ++ bb :: newBb :: rest = (pre ++ [bb]) ++ newBb :: rest := by simp
      rw [this]
      refine perm_middle.trans ?_
      simp
    obtain ⟨chain, hrun, hsame, hcached⟩ := linkAndMerge_spec env hbs hord (htot ▸ hlen)
    refine ⟨chain, hrun, hsame.ordered,
      hsame.lookup.trans ((blockMap env bs).lookup_perm (hord.apart env) hperm),
      hsame.len.trans htot, fun h => ?_⟩
    obtain ⟨c, hc, haddr⟩ := hcached (h bb (by simp))
    exact ⟨c, mem_append_right _ hc, haddr⟩
  induction rest with
  | nil =>
    intro pre bb hord hnew hbb hlen
    rw [insertAfter]
    exact hstop pre bb [] (hord.insert hbs env hpos hnew hbb (by simp)) hlen
  | cons next rest ih =>
    intro pre bb hord hnew hbb hlen
    rw [insertAfter]
    by_cases hnext : next.block < newBb.block
    · rw [if_pos hnext]
      have happ : pre ++ bb :: next :: rest = (pre ++ [bb]) ++ next :: rest := by simp
      rw [happ] at hord hnew hlen ⊢
      obtain ⟨chain, hrun, hins⟩ := ih (pre ++ [bb]) next hord hnew hnext hlen
      exact ⟨bb :: chain, by rw [hrun]; rfl, by simpa using hins⟩
    · rw [if_neg hnext]
      refine hstop pre bb (next :: rest) (hord.insert hbs env hpos hnew hbb ?_) hlen
      -- everything behind `next` is further right still
      refine forall_mem_cons.mpr ⟨by omega, fun c hc => ?_⟩
      have hinc := hord.strictly_increasing hbs
      have := (pairwise_cons.mp (pairwise_cons.mp (pairwise_append.mp hinc).2.1).2).1 c hc
      omega

theorem chainFrom_some {a : ℕ} : ∀ {l pre post : List BackedBlock} {node : BackedBlock},
    chainFrom a l = some (pre, node, post) → l = pre ++ node :: post ∧ node.addr = a := by
  intro l
  induction l with
  | nil =>
    intro pre post node h
    exact absurd h (by simp [chainFrom])
  | cons bb rest ih =>
    intro pre post node h
    rw [chainFrom] at h
    by_cases ha : bb.addr = a
    · rw [if_pos ha, Option.some_inj] at h
      cases h
      exact ⟨rfl, ha⟩
    · rw [if_neg ha] at h
      obtain ⟨⟨pre', node', post'⟩, hrec, heq⟩ := Option.map_eq_some_iff.mp h
      cases heq
      obtain ⟨h1, h2⟩ := ih hrec
      exact ⟨by rw [h1]; rfl, h2⟩

theorem chainFrom_eq_none {a : ℕ} :
    chainFrom a l = none ↔ ∀ bb ∈ l, bb.addr ≠ a := by
  induction l with
  | nil => simp [chainFrom]
  | cons bb rest ih =>
    rw [chainFrom]
    by_cases ha : bb.addr = a
    · rw [if_pos ha]
      simp [ha]
    · rw [if_neg ha, Option.map_eq_none_iff, ih]
      simp [ha]

/-- `last_used` is null or the address of a node of the list. -/
def BackedBlockList.CacheLive (bbl : BackedBlockList) : Prop :=
  ∀ a, bbl.lastUsed = some a → ∃ bb ∈ bbl.dataBlocks, bb.addr = a

instance (bbl : BackedBlockList) : Decidable bbl.CacheLive :=
  match h : bbl.lastUsed with
  | none => isTrue fun a ha => by rw [h] at ha; cases ha
  | some b => decidable_of_iff (∃ bb ∈ bbl.dataBlocks, bb.addr = b)
      ⟨fun hb a ha => by rw [h] at ha; cases ha; exact hb, fun hl => hl b h⟩

/-- Where the search starts: the cached pointer is stale, or the list is split at
the node where it starts. -/
theorem searchStart_cases {head : BackedBlock} {tail : List BackedBlock}
    (hl : bbl.dataBlocks = head :: tail) :
    (searchStart bbl newBb head tail = .error .useAfterFree ∧ ¬ bbl.CacheLive) ∨
    ∃ pre bb rest, searchStart bbl newBb head tail = .ok (pre, bb, rest) ∧
      head :: tail = pre ++ bb :: rest ∧ (bb = head ∨ bb.block < newBb.block) := by
  rw [searchStart]
  cases hu : bbl.lastUsed with
  | none => exact Or.inr ⟨[], head, tail, rfl, rfl, Or.inl rfl⟩
  | some a =>
    cases hc : chainFrom a (head :: tail) with
    | none =>
      left
      refine ⟨by simp only [hc], fun hlive => ?_⟩
      obtain ⟨bb, hbb, ha⟩ := hlive a hu
      rw [hl] at hbb
      exact chainFrom_eq_none.mp hc bb hbb ha
    | some p =>
      right
      obtain ⟨pre, node, post⟩ := p
      by_cases hgt : newBb.block > node.block
      · exact ⟨pre, node, post, by simp only [hc, if_pos hgt], (chainFrom_some hc).1, Or.inr hgt⟩
      · exact ⟨[], head, tail, by simp only [hc, if_neg hgt], rfl, Or.inl rfl⟩

theorem searchStart_live (newBb : BackedBlock) {head : BackedBlock} {tail : List BackedBlock}
    (hl : bbl.dataBlocks = head :: tail) (hlive : bbl.CacheLive) :
    ∃ pre bb rest, searchStart bbl newBb head tail = .ok (pre, bb, rest) ∧
      head :: tail = pre ++ bb :: rest ∧ (bb = head ∨ bb.block < newBb.block) :=
  (searchStart_cases hl).resolve_left fun h => h.2 hlive

/-- One call of `queue_bb` with a region that overlaps no other: it follows a stale
pointer, or it leaves an ordered list that denotes the new region too. -/
theorem queueBb_spec (env : Env) (hbs : 0 < bbl.blockSize)
    (hord : Ordered bbl.blockSize bbl.dataBlocks) (hpos : 0 < newBb.len)
    (hnew : ∀ c ∈ bbl.dataBlocks, (blockMap env bbl.blockSize).Apart c newBb)
    (hlen : newBb.len + totalLen bbl.dataBlocks < 2 ^ 32) :
    (queueBb bbl newBb = .error .useAfterFree ∧ ¬ bbl.CacheLive) ∨
    ∃ bbl', queueBb bbl newBb = .ok bbl' ∧ bbl'.blockSize = bbl.blockSize ∧
      Inserted env bbl.blockSize newBb bbl.dataBlocks bbl'.dataBlocks ∧
      (bbl'.lastUsed = bbl.lastUsed ∧ bbl.dataBlocks ⊆ bbl'.dataBlocks ∨
        bbl'.lastUsed = some newBb.addr) := by
  rw [queueBb]
  cases hl : bbl.dataBlocks with
  | nil =>
    refine Or.inr ⟨_, rfl, rfl, ⟨⟨?_, pairwise_singleton _ _⟩, rfl, rfl,
      fun _ => ⟨newBb, mem_cons_self, rfl⟩⟩, Or.inl ⟨rfl, nil_subset _⟩⟩
    intro bb hbb
    rw [mem_singleton.mp hbb]
    exact hpos
  | cons head tail =>
    rw [hl] at hord hnew hlen
    have hstop := lt_stop hbs hpos
    by_cases hhead : head.block > newBb.block
    · simp only [if_pos hhead]
      refine Or.inr ⟨_, rfl, rfl, ⟨⟨?_, pairwise_cons.mpr ⟨?_, hord.ord⟩⟩, rfl, rfl,
        fun _ => ⟨newBb, mem_cons_self, rfl⟩⟩, Or.inl ⟨rfl, subset_cons_self _ _⟩⟩
      · exact forall_mem_cons.mpr ⟨hpos, hord.pos⟩
      · -- the new region ends before the head, and the head is leftmost
        have hnh : newBb.stop bbl.blockSize ≤ head.block := by
          have hh := lt_stop hbs (hord.pos head (by simp))
          rcases hnew head (by simp) with h | h
          · simp only [blockMap] at h
            omega
          · exact h
        refine forall_mem_cons.mpr ⟨hnh, fun c hc => ?_⟩
        have := (pairwise_cons.mp (hord.strictly_increasing hbs)).1 c hc
        omega
    · simp only [if_neg hhead]
      -- two regions of positive length cannot start at the same block
      have hne : head.block < newBb.block := by
        have hh := lt_stop hbs (hord.pos head (by simp))
        rcases hnew head (by simp) with h | h
        · simp only [blockMap] at h
          omega
        · simp only [blockMap] at h
          omega
      rcases (searchStart_cases hl : (searchStart bbl newBb head tail = _ ∧ _) ∨ _) with
        ⟨hstale, hlive⟩ | ⟨pre, bb, rest, hrun, heq, hbb⟩
      · exact Or.inl ⟨by rw [hstale]; rfl, hlive⟩
      · have hbb : bb.block < newBb.block := by
          rcases hbb with rfl | hbb
          · exact hne
          · exact hbb
        rw [heq] at hord hnew hlen
        obtain ⟨chain, hins, hinserted⟩ :=
          insertAfter_spec env hbs hpos rest pre bb hord hnew hbb hlen
        refine Or.inr ⟨{ bbl with dataBlocks := pre ++ chain, lastUsed := some newBb.addr }, ?_,
          rfl, heq ▸ hinserted, Or.inr rfl⟩
        rw [hrun]
        show (insertAfter bbl.blockSize newBb bb rest >>= _) = _
        rw [hins]
        rfl

/-! ### Sequences of additions -/

/-- Block `x` belongs to the region. -/
def Region.Covers (bs : ℕ) (r : Region) (x : ℕ) : Prop :=
  r.block ≤ x ∧ x < r.block + numBlocks bs r.len

/-- The block ranges of the two regions have no block in common. -/
def Region.Disjoint (bs : ℕ) (r r' : Region) : Prop :=
  r.block + numBlocks bs r.len ≤ r'.block ∨ r'.block + numBlocks bs r'.len ≤ r.block

instance (bs : ℕ) (r r' : Region) : Decidable (r.Disjoint bs r') :=
  inferInstanceAs (Decidable (_ ∨ _))

/-- At each call of the sequence `last_used` is null or a node of the list. -/
def LiveRun : BackedBlockList → List Region → Prop
  | _, [] => True
  | bbl, r :: rs => bbl.CacheLive ∧ ∀ bbl', r.addTo bbl = .ok bbl' → LiveRun bbl' rs

instance decidableLiveRun : (bbl : BackedBlockList) → (rs : List Region) →
    Decidable (LiveRun bbl rs)
  | _, [] => isTrue trivial
  | bbl, r :: rs =>
    match h : r.addTo bbl with
    | .error f => decidable_of_iff bbl.CacheLive
        ⟨fun hl => ⟨hl, fun b hb => by rw [h] at hb; cases hb⟩, fun hl => hl.1⟩
    | .ok b =>
      have := decidableLiveRun b rs
      decidable_of_iff (bbl.CacheLive ∧ LiveRun b rs)
        ⟨fun hl => ⟨hl.1, fun b' hb => by rw [h] at hb; cases hb; exact hl.2⟩,
          fun hl => ⟨hl.1, hl.2 b h⟩⟩

/-- One call, if it returns. -/
def addStep (bbl : BackedBlockList) (r : Region) : Option BackedBlockList := (r.addTo bbl).toOption

/-- The region continues no node of the list. -/
abbrev Unjoined (bbl : BackedBlockList) (r : Region) : Prop :=
  ∀ bb ∈ bbl.dataBlocks, ¬ bb.region.Joins bbl.blockSize r

theorem Region.Disjoint.symm {r r' : Region} (h : r.Disjoint bs r') :
    r'.Disjoint bs r := Or.symm h

/-- Additions to a list that denotes the regions `finished`: one of them follows a
stale pointer, or all go through. -/
theorem addRegions_spec (env : Env) (hbs : 0 < bs) : ∀ (todo finished : List Region)
    (bbl : BackedBlockList), bbl.blockSize = bs → Ordered bs bbl.dataBlocks →
    (blockMap env bs).lookup bbl.dataBlocks
      = (blockMap env bs).lookup (finished.map (·.node 0)) →
    totalLen bbl.dataBlocks + (todo.map (·.len)).sum < 2 ^ 32 →
    (∀ r ∈ todo, 0 < r.len) → (todo ++ finished).Pairwise (Region.Disjoint bs) →
    (addRegions bbl todo = .error .useAfterFree ∧ ¬ LiveRun bbl todo ∧
      ¬ (bbl.CacheLive ∧ Along addStep Unjoined bbl todo)) ∨
    ∃ bbl', addRegions bbl todo = .ok bbl' ∧ Ordered bs bbl'.dataBlocks ∧
      (blockMap env bs).lookup bbl'.dataBlocks
        = (blockMap env bs).lookup ((todo.reverse ++ finished).map (·.node 0)) ∧
      (bbl.CacheLive ∧ Along addStep Unjoined bbl todo → bbl'.CacheLive) := by
  intro todo
  induction todo with
  | nil =>
    intro finished bbl _ hord hlook _ _ _
    exact Or.inr ⟨bbl, rfl, hord, by simpa using hlook, And.left⟩
  | cons r rs ih =>
    intro finished bbl hsize hord hlook hlen hpos hdisj
    subst hsize
    simp only [map_cons, sum_cons] at hlen
    have hposr : 0 < r.len := hpos r mem_cons_self
    have hnew : ∀ c ∈ bbl.dataBlocks,
        (blockMap env bbl.blockSize).Apart c (r.node bbl.freshAddr) := by
      intro c hc
      have hstop : (r.node bbl.freshAddr).block < (r.node bbl.freshAddr).stop bbl.blockSize :=
        lt_stop hbs hposr
      refine apart_of_no_common _ (lt_stop hbs (hord.pos c hc)) hstop ?_
      -- a common block would belong to a region added before
      intro x hcx hrx
      have hsome := (blockMap env bbl.blockSize).lookup_eq_of_mem (hord.apart env) hc hcx
      rw [hlook] at hsome
      obtain ⟨n, hn, hnx, -⟩ := exists_covers_of_lookup _ hsome
      obtain ⟨r', hr', rfl⟩ := mem_map.mp hn
      have hd : (blockMap env bbl.blockSize).Apart (r.node bbl.freshAddr) (r'.node 0) :=
        (pairwise_cons.mp hdisj).1 r' (mem_append_right rs hr')
      exact hd.not_covers _ hrx hnx
    have hlen' : (r.node bbl.freshAddr).len + totalLen bbl.dataBlocks < 2 ^ 32 := by
      show r.len + _ < _
      omega
    rcases queueBb_spec env hbs hord hposr hnew hlen' with
      ⟨hstale, hlive⟩ | ⟨bbl', hrun, hsize', hins, hused⟩
    · refine Or.inl ⟨?_, fun h => hlive h.1, fun h => hlive h.1⟩
      rw [addRegions, r.addTo_eq, hstale]
      rfl
    · have hadd : r.addTo bbl = .ok bbl' := (r.addTo_eq bbl).trans hrun
      have hsum : totalLen bbl'.dataBlocks = r.len + totalLen bbl.dataBlocks := hins.len
      have hkeep : bbl.CacheLive ∧ Along addStep Unjoined bbl (r :: rs) →
          bbl'.CacheLive ∧ Along addStep Unjoined bbl' rs := by
        rintro ⟨hlive, hun, hrest⟩
        refine ⟨fun a ha => ?_, hrest bbl' (by rw [addStep, hadd]; rfl)⟩
        rcases hused with ⟨hsame, hsub⟩ | hnew
        · obtain ⟨c, hc, hca⟩ := hlive a (hsame ▸ ha)
          exact ⟨c, hsub hc, hca⟩
        · cases hnew.symm.trans ha
          exact hins.cached hun
      have hperm : (r :: rs ++ finished).Perm (rs ++ r :: finished) := perm_middle.symm
      have hlook₁ : (blockMap env bbl.blockSize).lookup bbl'.dataBlocks
          = (blockMap env bbl.blockSize).lookup ((r :: finished).map (·.node 0)) := by
        rw [hins.lookup, map_cons]
        funext x
        rw [lookup_cons, lookup_cons, hlook]
        rfl
      rcases ih (r :: finished) bbl' hsize' hins.ordered hlook₁ (by omega)
        (fun r' hr' => hpos r' (mem_cons_of_mem r hr'))
        (hdisj.perm hperm fun h => h.symm) with
        ⟨hstale, hlive, hun⟩ | ⟨bbl'', hrun'', hord'', hlook'', hlive''⟩
      · refine Or.inl ⟨?_, fun h => hlive (h.2 bbl' hadd), fun h => hun (hkeep h)⟩
        rw [addRegions, hadd]
        exact hstale
      · refine Or.inr ⟨bbl'', by rw [addRegions, hadd]; exact hrun'', hord'', ?_, hlive'' ∘ hkeep⟩
        rw [hlook'']
        simp

section New

variable {rs : List Region} (hbs : 0 < bs) (hbs32 : bs < 2 ^ 32) (hpos : ∀ r ∈ rs, 0 < r.len)
  (hdisj : rs.Pairwise (Region.Disjoint bs)) (htot : (rs.map (·.len)).sum < 2 ^ 32)

include hbs hbs32 hpos hdisj htot

/-- Additions to a new list. -/
theorem addRegions_new (env : Env) :
    (addRegions (backedBlockListNew bs) rs = .error .useAfterFree ∧
      ¬ LiveRun (backedBlockListNew bs) rs ∧ ¬ Along addStep Unjoined (backedBlockListNew bs) rs) ∨
    ∃ bbl, addRegions (backedBlockListNew bs) rs = .ok bbl ∧ Ordered bs bbl.dataBlocks ∧
      (blockMap env bs).lookup bbl.dataBlocks
        = (blockMap env bs).lookup (rs.reverse.map (·.node 0)) ∧
      (Along addStep Unjoined (backedBlockListNew bs) rs → bbl.CacheLive) := by
  have h := addRegions_spec env hbs rs [] (backedBlockListNew bs) (u32_of_lt hbs32)
    ⟨by simp [backedBlockListNew], by simp [backedBlockListNew]⟩ rfl
    (by simpa [backedBlockListNew] using htot) hpos (by simpa using hdisj)
  have hlive : (backedBlockListNew bs).CacheLive := nofun
  rwa [and_iff_right hlive, append_nil] at h

/-- **The cache stays live** as long as no region continues a node of the list. -/
theorem cacheLive_of_unjoined (hun : Along addStep Unjoined (backedBlockListNew bs) rs) :
    ∃ bbl, addRegions (backedBlockListNew bs) rs = .ok bbl ∧ bbl.CacheLive := by
  obtain ⟨bbl, hadd, -, -, hlive⟩ := (addRegions_new hbs hbs32 hpos hdisj htot
    Env.zero).resolve_left fun h => h.2.2 hun
  exact ⟨bbl, hadd, hlive hun⟩

end New

/-- The third region is merged with the second, behind it. -/
theorem cacheLive_merged : ∃ bbl, addRegions (backedBlockListNew 4)
    [⟨.fill 1, 4, 0, by decide, by decide⟩, ⟨.fill 7, 4, 2, by decide, by decide⟩,
      ⟨.fill 7, 4, 1, by decide, by decide⟩] = .ok bbl ∧ bbl.CacheLive :=
  cacheLive_of_unjoined (by decide) (by decide) (by decide) (by decide) (by decide) (by decide)

/-- **A stale cache**: the second of two fills with one word is merged into the first, and freed. -/
theorem cache_stale : ∃ bbl, addRegions (backedBlockListNew 4)
    [⟨.fill 7, 4, 0, by decide, by decide⟩, ⟨.fill 7, 4, 1, by decide, by decide⟩] = .ok bbl ∧
      ¬ bbl.CacheLive :=
  ⟨_, rfl, by decide⟩

/-- **Adding regions.**  Pairwise disjoint regions of fewer than `2 ^ 32` bytes
in all, added in any order while the cache is live at each call: no call fails,
the list is strictly increasing without overlaps, and it denotes the union of
the regions — whatever the order, and whatever was merged on the way. -/
theorem addRegions_image (env : Env) {bs : ℕ} (hbs : 0 < bs) (hbs32 : bs < 2 ^ 32)
    (rs : List Region) (hpos : ∀ r ∈ rs, 0 < r.len) (hdisj : rs.Pairwise (Region.Disjoint bs))
    (htot : (rs.map (·.len)).sum < 2 ^ 32) (hlive : LiveRun (backedBlockListNew bs) rs) :
    ∃ bbl, addRegions (backedBlockListNew bs) rs = .ok bbl ∧
      (bbl.dataBlocks.Pairwise fun a b => a.block < b.block ∧ a.stop bs ≤ b.block) ∧
      (∀ r ∈ rs, ∀ x, r.Covers bs x →
        image env bs bbl.dataBlocks x = r.backing.content env bs r.len (x - r.block)) ∧
      (∀ x, (∀ r ∈ rs, ¬ r.Covers bs x) → image env bs bbl.dataBlocks x = .dontCare) ∧
      ∀ rs', rs'.Perm rs → LiveRun (backedBlockListNew bs) rs' →
        ∃ bbl', addRegions (backedBlockListNew bs) rs' = .ok bbl' ∧
          image env bs bbl'.dataBlocks = image env bs bbl.dataBlocks := by
  have hrun : ∀ rs' : List Region, rs'.Perm rs → LiveRun (backedBlockListNew bs) rs' →
      ∃ bbl, addRegions (backedBlockListNew bs) rs' = .ok bbl ∧ Ordered bs bbl.dataBlocks ∧
        (blockMap env bs).lookup bbl.dataBlocks
          = (blockMap env bs).lookup (rs.map (·.node 0)) := by
    intro rs' hperm hlive'
    obtain ⟨bbl, hadd, hord, hlook, -⟩ := (addRegions_new hbs hbs32
      (fun r hr => hpos r (hperm.mem_iff.mp hr)) (hdisj.perm hperm.symm fun h => h.symm)
      (by rw [(hperm.map (·.len)).sum_eq]; exact htot) env).resolve_left fun h => h.2.1 hlive'
    refine ⟨bbl, hadd, hord, ?_⟩
    rw [hlook]
    refine lookup_perm _ ?_ ((rs'.reverse_perm.trans hperm).map _)
    rw [pairwise_map]
    exact hdisj.perm (rs'.reverse_perm.trans hperm).symm fun h => h.symm
  obtain ⟨bbl, hadd, hord, hlook⟩ := hrun rs (List.Perm.refl rs) hlive
  have hapart : (rs.map (·.node 0)).Pairwise (blockMap env bs).Apart :=
    pairwise_map.mpr hdisj
  refine ⟨bbl, hadd, ?_, ?_, ?_, ?_⟩
  · exact (hord.strictly_increasing hbs).and hord.ord
  · intro r hr x hx
    rw [image, hlook, lookup_eq_of_mem _ hapart (mem_map_of_mem hr) hx]
    rfl
  · intro x hx
    rw [image, hlook, lookup_eq_none]
    · rfl
    · intro n hn
      obtain ⟨r, hr, rfl⟩ := mem_map.mp hn
      exact hx r hr
  · intro rs' hperm hlive'
    obtain ⟨bbl', hadd', -, hlook'⟩ := hrun rs' hperm hlive'
    exact ⟨bbl', hadd', by funext x; rw [image, image, hlook', hlook]⟩

/-- Three regions, the middle one added last. -/
theorem addRegions_image_three : ∃ bbl,
    addRegions (backedBlockListNew 4) [⟨.fill 7, 4, 0, by decide, by decide⟩,
      ⟨.data 0, 3, 2, by decide, by decide⟩, ⟨.fd 5 8, 4, 1, by decide, by decide⟩] = .ok bbl ∧
    image Env.zero 4 bbl.dataBlocks 0 = .fill 7 ∧
    image Env.zero 4 bbl.dataBlocks 3 = .dontCare := by
  obtain ⟨bbl, hadd, -, hin, hout, -⟩ := addRegions_image Env.zero (by decide : 0 < 4)
    (by decide)
    [⟨.fill 7, 4, 0, by decide, by decide⟩, ⟨.data 0, 3, 2, by decide, by decide⟩,
      ⟨.fd 5 8, 4, 1, by decide, by decide⟩] (by decide) (by decide) (by decide) (by decide)
  refine ⟨bbl, hadd, ?_, ?_⟩
  · exact hin _ mem_cons_self 0 (by unfold Region.Covers; decide)
  · exact hout 3 (by unfold Region.Covers; decide)

end Sparse
