/-
Adding regions in increasing order.

Both readers of libsparse add regions with increasing block numbers.  Then the
new node always goes to the end of the list, where it is left alone or merged
into the last node.  After such a merge the cached pointer `last_used` refers to
the node that was just freed, so that the next addition dereferences it:

* `queueBb_last`, `queueBb_stale` — one addition behind the last node;
* `addRegions_increasing` — a sequence of additions goes through exactly if no
  region but the last is merged, and `settle` is the list it leaves;
* `lookup_settle` — what that list denotes.
-/
import AndroidSystem.BackedBlockAdd

open CInt List

namespace Sparse

open BackedBlock

variable {bs : ℕ} {a b : Region}

/-! ### One addition behind the last node -/

variable {bbl : BackedBlockList} {newBb : BackedBlock}

theorem freshAddr_not_mem {bb : BackedBlock} (h : bb ∈ bbl.dataBlocks) :
    bb.addr ≠ bbl.freshAddr := by
  have hle : ∀ {l : List ℕ} {a : ℕ}, a ∈ l → a ≤ l.foldr max 0 := by
    intro l a ha
    induction l with
    | nil => exact absurd ha (by simp)
    | cons x l ih =>
      rcases mem_cons.mp ha with rfl | ha
      · exact le_max_left _ _
      · exact (ih ha).trans (le_max_right _ _)
  have := hle (mem_append_left bbl.lastUsed.toList (mem_map_of_mem (f := (·.addr)) h))
  rw [BackedBlockList.freshAddr]
  omega

theorem merged_lt (a b : BackedBlock) : u32 (a.len + b.len) < 2 ^ 32 := u32_lt _

/-- The chain `pre` with the node `z` and a new node behind it, after the merge. -/
def appendBb (bs : ℕ) (pre : List BackedBlock) (z newBb : BackedBlock) : List BackedBlock :=
  if z.region.Joins bs newBb.region then
    pre ++ [{ z with len := u32 (z.len + newBb.len), len_lt := merged_lt z newBb }]
  else pre ++ [z, newBb]

theorem insertAfter_last (hbs : 0 < bs) :
    ∀ {rest pre : List BackedBlock} {z bb : BackedBlock}, bb :: rest = pre ++ [z] →
    (∀ c ∈ bb :: rest, c.block < newBb.block) →
    insertAfter bs newBb bb rest = .ok (appendBb bs pre z newBb) := by
  intro rest
  induction rest with
  | nil =>
    intro pre z bb heq hlt
    obtain ⟨rfl, rfl⟩ : pre = [] ∧ bb = z := by
      cases pre with
      | nil => simpa using heq
      | cons c pre => simp at heq
    rw [insertAfter, linkAndMerge, mergeNext]
    simp only [bind, Except.bind, mergeBb_eq hbs (hlt bb mem_cons_self), appendBb]
    by_cases hj : bb.region.Joins bs newBb.region
    · simp only [if_pos hj]
      rfl
    · simp only [if_neg hj]
      rfl
  | cons next rest ih =>
    intro pre z bb heq hlt
    cases pre with
    | nil => simp at heq
    | cons c pre =>
      obtain ⟨rfl, htail⟩ := cons_eq_cons.mp heq
      rw [insertAfter, if_pos (hlt next (by simp)),
        ih htail fun c hc => hlt c (mem_cons_of_mem bb hc)]
      simp only [bind, Except.bind, appendBb]
      split <;> rfl

/-- An addition behind the last node, while the cache is live. -/
theorem queueBb_last {z : BackedBlock} {pre : List BackedBlock} (hbs : 0 < bbl.blockSize)
    (hl : bbl.dataBlocks = pre ++ [z]) (hlt : ∀ c ∈ bbl.dataBlocks, c.block < newBb.block)
    (hlive : bbl.CacheLive) :
    queueBb bbl newBb = .ok { bbl with
      dataBlocks := appendBb bbl.blockSize pre z newBb, lastUsed := some newBb.addr } := by
  rw [queueBb]
  cases hd : bbl.dataBlocks with
  | nil => rw [hd] at hl; simp at hl
  | cons head tail =>
    rw [hd] at hlt hl
    have hhead := hlt head mem_cons_self
    obtain ⟨p, bb, rest, hstart, heq, -⟩ := searchStart_live newBb hd hlive
    -- the search runs to the end of the chain
    obtain ⟨q, hq⟩ : ∃ q, bb :: rest = q ++ [z] ∧ pre = p ++ q := by
      rw [hl] at heq
      rcases append_eq_append_iff.mp heq with ⟨q, h1, h2⟩ | ⟨q, h1, h2⟩
      · cases q with
        | nil => exact ⟨[], by simpa using h2.symm, by simpa using h1.symm⟩
        | cons c q =>
          have := congrArg List.length h2
          simp at this
      · exact ⟨q, h2, h1⟩
    have hins := insertAfter_last hbs hq.1 fun c hc => hlt c (by
      rw [heq]
      exact mem_append_right p hc)
    simp only [if_neg (by omega : ¬ head.block > newBb.block), hstart, bind, Except.bind, hins]
    congr 2
    rw [hq.2, appendBb, appendBb]
    split <;> simp

/-- An addition that is not in front of the list, when the cached node has been
freed. -/
theorem queueBb_stale {head : BackedBlock} {tail : List BackedBlock}
    (hl : bbl.dataBlocks = head :: tail) (hle : head.block ≤ newBb.block)
    (hstale : ¬ bbl.CacheLive) :
    queueBb bbl newBb = .error .useAfterFree := by
  obtain ⟨a, ha, hfree⟩ : ∃ a, bbl.lastUsed = some a ∧ ∀ bb ∈ bbl.dataBlocks, bb.addr ≠ a := by
    simpa [BackedBlockList.CacheLive] using hstale
  have hnone : chainFrom a (head :: tail) = none := chainFrom_eq_none.mpr (hl ▸ hfree)
  have hstart : searchStart bbl newBb head tail = .error .useAfterFree := by
    simp only [searchStart, ha, hnone]
  simp only [queueBb, hl, if_neg (by omega : ¬ head.block > newBb.block), hstart, bind, Except.bind]

/-! ### Sequences -/

variable {z : Region} {rs fin : List Region}

/-- What the additions of an increasing sequence leave in the list. -/
def settle (bs : ℕ) : List Region → List Region
  | [] => []
  | [a] => [a]
  | [a, b] => if a.Joins bs b then [a.join b] else [a, b]
  | a :: b :: c :: rest => a :: settle bs (b :: c :: rest)

theorem settle_cons (bs : ℕ) (z : Region) (h : 2 ≤ rs.length) :
    settle bs (z :: rs) = z :: settle bs rs := by
  obtain ⟨b, c, rest, rfl⟩ : ∃ b c rest, rs = b :: c :: rest := by
    match rs, h with
    | b :: c :: rest, _ => exact ⟨b, c, rest, rfl⟩
  rfl

theorem settle_append (bs : ℕ) (a b : Region) (fin : List Region) :
    settle bs (fin ++ [a, b]) = fin ++ settle bs [a, b] := by
  induction fin with
  | nil => rfl
  | cons z fin ih =>
    rw [cons_append, settle_cons bs z (by simp), ih, cons_append]

/-- Somewhere in the sequence a region is merged although another one follows. -/
def Stale (bs : ℕ) : List Region → Prop
  | a :: b :: c :: rest => a.Joins bs b ∨ Stale bs (b :: c :: rest)
  | _ => False

/-- One addition behind the regions `fin` and `z`, while the cache is live.  If the
new region is merged, its node is freed while it is cached. -/
theorem addTo_behind (hbs : 0 < bs) (hsize : bbl.blockSize = bs) (hlive : bbl.CacheLive)
    (hl : bbl.dataBlocks.map region = fin ++ [z])
    (hlt : ∀ r ∈ fin ++ [z], r.block < b.block) :
    ∃ bbl', b.addTo bbl = .ok bbl' ∧ bbl'.blockSize = bs ∧
      (z.Joins bs b →
        bbl'.dataBlocks.map region = fin ++ [z.join b] ∧ ¬ bbl'.CacheLive) ∧
      (¬ z.Joins bs b →
        bbl'.dataBlocks.map region = (fin ++ [z]) ++ [b] ∧ bbl'.CacheLive) := by
  subst hsize
  obtain ⟨pre, node, hd, hpre, hnode⟩ : ∃ pre node, bbl.dataBlocks = pre ++ [node] ∧
      pre.map region = fin ∧ node.region = z := by
    obtain ⟨pre, post, hd, hpre, hpost⟩ := map_eq_append_iff.mp hl
    obtain ⟨node, rfl, hnode⟩ := map_eq_singleton_iff.mp hpost
    exact ⟨pre, node, hd, hpre, hnode⟩
  have hlt' : ∀ c ∈ bbl.dataBlocks, c.block < (b.node bbl.freshAddr).block := by
    intro c hc
    exact hlt c.region (hl ▸ mem_map_of_mem hc)
  obtain ⟨bbl', hadd, hsize', hlist, hused⟩ : ∃ bbl', b.addTo bbl = .ok bbl' ∧
      bbl'.blockSize = bbl.blockSize ∧
      bbl'.dataBlocks = appendBb bbl.blockSize pre node (b.node bbl.freshAddr) ∧
      bbl'.lastUsed = some bbl.freshAddr :=
    ⟨_, (b.addTo_eq bbl).trans (queueBb_last hbs hd hlt' hlive), rfl, rfl, rfl⟩
  rw [appendBb, hnode, Region.region_node] at hlist
  refine ⟨bbl', hadd, hsize', fun hj => ?_, fun hj => ?_⟩
  · rw [if_pos hj] at hlist
    constructor
    · rw [hlist, map_append, hpre]
      simp [Region.join, region, Region.node, ← hnode]
    · intro h
      obtain ⟨bb, hbb, haddr⟩ := h _ hused
      rw [hlist, mem_append, mem_singleton] at hbb
      rcases hbb with hbb | rfl
      · exact freshAddr_not_mem (by rw [hd]; simp [hbb]) haddr
      · have hmem : node ∈ bbl.dataBlocks := by
          rw [hd]
          simp
        exact freshAddr_not_mem hmem haddr
  · rw [if_neg hj] at hlist
    constructor
    · rw [hlist, map_append, hpre]
      simp [hnode]
    · intro a ha
      rw [hused, Option.some_inj] at ha
      exact ⟨b.node bbl.freshAddr, by rw [hlist]; simp, ha⟩

/-- An addition that is not in front of the first region, when the cached node has
been freed. -/
theorem addTo_stale (hl : bbl.dataBlocks.map region = fin ++ [z])
    (hstale : ¬ bbl.CacheLive) (hle : ∀ r ∈ fin ++ [z], r.block ≤ b.block) :
    b.addTo bbl = .error .useAfterFree := by
  cases hd : bbl.dataBlocks with
  | nil =>
    rw [hd] at hl
    simp at hl
  | cons head tail =>
    have hmem : head.region ∈ fin ++ [z] := by
      rw [← hl, hd]
      exact mem_cons_self
    rw [b.addTo_eq]
    exact queueBb_stale hd (hle _ hmem) hstale

theorem join_le {c : Region} (hlt : ∀ r ∈ fin ++ [z], r.block < b.block)
    (hbc : b.block ≤ c.block) : ∀ r ∈ fin ++ [z.join b], r.block ≤ c.block := by
  rw [forall_mem_append, forall_mem_singleton] at hlt ⊢
  exact ⟨fun r hr => (hlt.1 r hr).le.trans hbc, hlt.2.le.trans hbc⟩

/-- Additions behind the regions `fin` and `z`, none of which has been merged. -/
theorem addRegions_behind (hbs : 0 < bs) : ∀ (todo fin : List Region) (z : Region)
    (bbl : BackedBlockList), bbl.blockSize = bs → bbl.CacheLive →
    bbl.dataBlocks.map region = fin ++ [z] →
    (fin ++ z :: todo).Pairwise (fun a b => a.block < b.block) →
    (¬ Stale bs (z :: todo) → ∃ bbl', addRegions bbl todo = .ok bbl' ∧ bbl'.blockSize = bs ∧
      bbl'.dataBlocks.map region = fin ++ settle bs (z :: todo)) ∧
    (Stale bs (z :: todo) → addRegions bbl todo = .error .useAfterFree) := by
  intro todo
  induction todo with
  | nil =>
    intro fin z bbl hsize _ hl _
    exact ⟨fun _ => ⟨bbl, rfl, hsize, hl⟩, fun h => h.elim⟩
  | cons b rest ih =>
    intro fin z bbl hsize hlive hl hinc
    have hinc₁ : ((fin ++ [z]) ++ b :: rest).Pairwise fun a b => a.block < b.block := by
      simpa using hinc
    obtain ⟨-, hbrest, hcross⟩ := pairwise_append.mp hinc₁
    have hlt : ∀ r ∈ fin ++ [z], r.block < b.block := fun r hr => hcross r hr b mem_cons_self
    obtain ⟨bbl₁, hadd, hsize₁, hjoin, hkeep⟩ := addTo_behind hbs hsize hlive hl hlt
    have hrun : addRegions bbl (b :: rest) = addRegions bbl₁ rest := by
      rw [addRegions, hadd]
      rfl
    rw [hrun]
    by_cases hj : z.Joins bs b
    · -- merged: the cached node is gone
      obtain ⟨hmap₁, hstale⟩ := hjoin hj
      cases rest with
      | nil =>
        refine ⟨fun _ => ⟨bbl₁, rfl, hsize₁, ?_⟩, fun h => h.elim⟩
        rw [hmap₁, settle, if_pos hj]
      | cons c rest =>
        refine ⟨fun h => absurd (Or.inl hj) h, fun _ => ?_⟩
        have hbc : b.block < c.block := (pairwise_cons.mp hbrest).1 c mem_cons_self
        rw [addRegions, addTo_stale hmap₁ hstale (join_le hlt hbc.le)]
        rfl
    · obtain ⟨hmap₁, hlive₁⟩ := hkeep hj
      obtain ⟨h1, h2⟩ := ih (fin ++ [z]) b bbl₁ hsize₁ hlive₁ hmap₁ hinc₁
      cases rest with
      | nil =>
        refine ⟨fun _ => ?_, fun h => h.elim⟩
        obtain ⟨bbl', hrun', hsize', hmap'⟩ := h1 id
        refine ⟨bbl', hrun', hsize', ?_⟩
        rw [hmap', settle, settle, if_neg hj]
        simp
      | cons c rest =>
        refine ⟨fun h => ?_, fun h => h2 (h.resolve_left hj)⟩
        obtain ⟨bbl', hrun', hsize', hmap'⟩ := h1 fun hs => h (Or.inr hs)
        refine ⟨bbl', hrun', hsize', ?_⟩
        rw [hmap', settle]
        simp

/-- **Additions in increasing order** to an empty list: they go through exactly if
no region is merged with another one to follow. -/
theorem addRegions_increasing (hbs : 0 < bs) (hbs32 : bs < 2 ^ 32)
    (hinc : rs.Pairwise fun a b => a.block < b.block) :
    (¬ Stale bs rs → ∃ bbl, addRegions (backedBlockListNew bs) rs = .ok bbl ∧
      bbl.blockSize = bs ∧ bbl.dataBlocks.map region = settle bs rs) ∧
    (Stale bs rs → addRegions (backedBlockListNew bs) rs = .error .useAfterFree) := by
  have hsize : (backedBlockListNew bs).blockSize = bs := u32_of_lt hbs32
  cases rs with
  | nil => exact ⟨fun _ => ⟨_, rfl, hsize, rfl⟩, fun h => h.elim⟩
  | cons a rest =>
    obtain ⟨bbl, hadd, hsize', hused, hlist⟩ : ∃ bbl, a.addTo (backedBlockListNew bs) = .ok bbl ∧
        bbl.blockSize = bs ∧ bbl.lastUsed = none ∧
        bbl.dataBlocks.map region = [] ++ [a] :=
      ⟨_, (a.addTo_eq _).trans rfl, hsize, rfl, rfl⟩
    have hlive : bbl.CacheLive := by
      intro x hx
      rw [hused] at hx
      exact absurd hx (by simp)
    rw [addRegions, hadd]
    exact addRegions_behind hbs rest [] a bbl hsize' hlive hlist hinc

/-! ### The image of the list -/

/-- What a list denotes does not depend on the addresses of its nodes. -/
theorem lookup_region (env : Env) (bs : ℕ) (l : List BackedBlock) :
    (blockMap env bs).lookup l
      = (blockMap env bs).lookup ((l.map region).map (·.node 0)) := by
  funext x
  induction l with
  | nil => rfl
  | cons bb l ih =>
    rw [map_cons, map_cons, IntervalMap.lookup_cons, IntervalMap.lookup_cons, ih]
    rfl

/-- Regions in order that `merge_bb` finds adjacent are so. -/
theorem Region.Joins.adjacent (hbs : 0 < bs) (hj : a.Joins bs b)
    (hab : a.block + numBlocks bs a.len ≤ b.block) :
    bs ∣ a.len ∧ b.block = a.block + a.len / bs := by
  have hfloor : a.len / bs ≤ numBlocks bs a.len := Nat.div_le_div_right (by omega)
  have hu := u32_le (a.block + a.len / bs)
  have hadj : b.block = a.block + a.len / bs := by
    have := hj.1
    omega
  exact ⟨dvd_of_numBlocks_le hbs (by omega), hadj⟩

/-- The merge of the last two regions does not change what is denoted, if their
lengths add up without wrapping. -/
theorem lookup_settle (env : Env) (hbs : 0 < bs) : ∀ {rs : List Region},
    rs.Pairwise (fun a b => a.block + numBlocks bs a.len ≤ b.block) →
    (∀ fin a b, rs = fin ++ [a, b] → a.Joins bs b → a.len + b.len < 2 ^ 32) →
    (blockMap env bs).lookup ((settle bs rs).map (·.node 0))
      = (blockMap env bs).lookup (rs.map (·.node 0)) := by
  intro rs
  induction rs using settle.induct bs with
  | case1 => exact fun _ _ => rfl
  | case2 a => exact fun _ _ => rfl
  | case3 a b hj =>
    intro hord hlen
    have hab := (pairwise_cons.mp hord).1 b mem_cons_self
    have hsum := hlen [] a b rfl hj
    obtain ⟨hdvd, hadj⟩ := hj.adjacent hbs hab
    rw [settle, if_pos hj]
    exact (lookup_join env hbs (a := a.node 0) (b := b.node 0) (m := (a.join b).node 0) hdvd hadj
      hj.advance rfl (u32_of_lt hsum) rfl).2
  | case4 a b hj =>
    intro _ _
    rw [settle, if_neg hj]
  | case5 a b c rest ih =>
    intro hord hlen
    funext x
    rw [settle, map_cons, map_cons, IntervalMap.lookup_cons, IntervalMap.lookup_cons,
      ih (pairwise_cons.mp hord).2 fun fin d e heq => hlen (a :: fin) d e (by rw [heq]; rfl)]

end Sparse
