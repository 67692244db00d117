/-
Hash tables as multisets with lookup.

`find` is called with −1 and then with what it returned, until it returns −1.  The probe
stops at the first bucket without the flag COLLISION, and a bucket that is not in use has
none; so it never comes round to where it began, and what it has passed over is not on the
chain (`findLoop_spec`).

* `finds_all` — the calls return every entry with the key once, and then −1;
* `multiset_iff` — along a run, every call changes the items of one table as it should and
  no other table, and all lookups are right, exactly if every call is sound.
-/
import AndroidSystem.HashtableInvariant

open CInt CountedHeap SharedBuffer Runs List

namespace BasicHashtable

variable {α κ : Type} {T : EntryType α κ} {cells : List (Bucket α)} {b : Bucket α} {key : κ}
  {hash count size filled i j k f : ℕ}

/-! ### Entries with a key -/

/-- The bucket has an entry with the key. -/
def Matches (T : EntryType α κ) (key : κ) (b : Bucket α) : Bool :=
  b.present && b.entry.any fun x => T.compareKey x key

/-- Bucket `k` of the chain has an entry with the key. -/
def matchAt (T : EntryType α κ) (cells : List (Bucket α)) (hash count : ℕ) (key : κ) (k : ℕ) :
    Bool :=
  cells[chain hash count k]?.any (Matches T key)

/-- The places of the entries with the key, from bucket `k` of the chain on. -/
def matchesFrom (T : EntryType α κ) (cells : List (Bucket α)) (hash count : ℕ) (key : κ) (k : ℕ) :
    List ℕ :=
  ((List.range' k (count - k)).filter (matchAt T cells hash count key)).map (chain hash count)

theorem filter_range'_cons {p : ℕ → Bool} {k j n : ℕ} (hkj : k ≤ j) (hj : j < n) (hp : p j = true)
    (hnone : ∀ i, k ≤ i → i < j → p i = false) :
    (List.range' k (n - k)).filter p = j :: (List.range' (j + 1) (n - (j + 1))).filter p := by
  obtain ⟨d, rfl⟩ := Nat.exists_eq_add_of_le hkj
  induction d generalizing k with
  | zero =>
    rw [show n - k = n - (k + 1) + 1 by omega, range'_succ]
    exact filter_cons_of_pos hp
  | succ d ih =>
    have hk : p k = false := hnone k le_rfl (by omega)
    rw [show n - k = n - (k + 1) + 1 by omega, range'_succ,
      filter_cons_of_neg (by simp [hk])]
    have hshift : k + (d + 1) = k + 1 + d := by omega
    rw [hshift] at hp hj hnone ⊢
    exact ih (by omega) hj hp fun i hi hlt => hnone i (by omega) hlt

/-- The next entry with the key. -/
theorem matchesFrom_cons (hkj : k ≤ j) (hj : j < count)
    (hp : matchAt T cells hash count key j = true)
    (hnone : ∀ i, k ≤ i → i < j → matchAt T cells hash count key i = false) :
    matchesFrom T cells hash count key k =
      chain hash count j :: matchesFrom T cells hash count key (j + 1) := by
  rw [matchesFrom, filter_range'_cons hkj hj hp hnone]
  rfl

theorem matchesFrom_nil
    (hnone : ∀ i, k ≤ i → i < count → matchAt T cells hash count key i = false) :
    matchesFrom T cells hash count key k = [] := by
  rw [matchesFrom, map_eq_nil_iff, filter_eq_nil_iff]
  intro i hi
  obtain ⟨hlo, hhi⟩ := mem_range'_1.mp hi
  rw [hnone i hlo (by omega)]
  exact Bool.false_ne_true

theorem matchesFrom_nodup (hc : BucketCount count) :
    (matchesFrom T cells hash count key 0).Nodup := by
  refine List.Nodup.map_on (fun x hx y hy heq => ?_) ((nodup_range').filter _)
  have hx' := (mem_range'_1.mp (mem_of_mem_filter hx)).2
  have hy' := (mem_range'_1.mp (mem_of_mem_filter hy)).2
  exact hc.chain_injective (by omega) (by omega) heq

theorem mem_matchesFrom (hc : BucketCount count) (hlen : cells.length = count) :
    i ∈ matchesFrom T cells hash count key 0 ↔ ∃ b ∈ cells[i]?, Matches T key b = true := by
  rw [matchesFrom, mem_map]
  constructor
  · rintro ⟨k, hk, rfl⟩
    have hm := of_mem_filter hk
    rw [matchAt, Option.any_eq_true] at hm
    exact hm
  · rintro ⟨b, hb, hm⟩
    have hlt := (List.getElem?_eq_some_iff.mp hb).1
    obtain ⟨k, hk, rfl⟩ := hc.exists_chain hash (hlen ▸ hlt)
    refine ⟨k, mem_filter.mpr ⟨mem_range'_1.mpr ⟨Nat.zero_le _, by omega⟩, ?_⟩, rfl⟩
    rw [matchAt, Option.any_eq_true]
    exact ⟨b, hb, hm⟩

/-! ### The probe -/

section Probe

variable (hc : BucketCount count) (hh : Holds count size filled cells)
  (hkey : ∀ b ∈ cells, Matches T key b = true → b.hash = hash)

include hc hh hkey

omit hc in
/-- The test of the probe finds the entries with the key. -/
theorem found_eq (hb : b ∈ cells) :
    (if b.present && b.hash == hash then compareBucketKey T b key else .ok false) =
      .ok (Matches T key b) := by
  by_cases hp : b.present = true
  · obtain ⟨x, hx⟩ := Option.isSome_iff_exists.mp (hh.entries b hb hp)
    by_cases hhash : b.hash = hash
    · rw [if_pos (by simp [hp, hhash]), compareBucketKey, hx, require, ok_bind, Matches, hp, hx]
      rfl
    · have hm : Matches T key b = false := by
        by_contra hm
        exact hhash (hkey b hb (by simpa using hm))
      rw [if_neg (by simp [hhash]), hm]
  · rw [if_neg (by simp [hp]), Matches, Bool.eq_false_iff.mpr hp]
    rfl

theorem matchAt_behind {m : ℕ} (hm : ∃ b ∈ cells[chain hash count m]?, b.collision = false)
    (hmj : m < j) (hj : j < count) : matchAt T cells hash count key j = false := by
  by_contra hmatch
  rw [Bool.not_eq_false, matchAt, Option.any_eq_true] at hmatch
  obtain ⟨b, hb, hmb⟩ := hmatch
  have hp : b.present = true := by
    rw [Matches, Bool.and_eq_true] at hmb
    exact hmb.1
  have hhash := hkey b (mem_of_getElem? hb) hmb
  obtain ⟨k, hk, heq, hbefore⟩ := hh.chained _ b hb hp
  rw [hhash] at heq hbefore
  obtain rfl := hc.chain_injective hk hj heq
  obtain ⟨c, hcm, hcol⟩ := hbefore m hmj
  obtain ⟨c', hcm', hcol'⟩ := hm
  obtain rfl := Option.mem_unique hcm hcm'
  rw [hcol] at hcol'
  cases hcol'

/-- **The probe** from bucket `k` of the chain on, with a bucket `f` ahead that is not in use: it
finds the next entry with the key, or that there is none. -/
theorem findLoop_spec (hkf : k < f) (hf : f < count)
    (hfree : ∃ b ∈ cells[chain hash count f]?, b.filled = false) (fuel : ℕ) (hfuel : f - k ≤ fuel) :
    (∃ j, k < j ∧ j < count ∧ matchAt T cells hash count key j = true ∧
        (∀ i, k < i → i < j → matchAt T cells hash count key i = false) ∧
        findLoop T cells hash key (chainIncrement hash count) count fuel (chain hash count k) =
          .ok (chain hash count j : ℤ)) ∨
      (∀ i, k < i → i < count → matchAt T cells hash count key i = false) ∧
        findLoop T cells hash key (chainIncrement hash count) count fuel (chain hash count k) =
          .ok (-1) := by
  induction fuel generalizing k with
  | zero => omega
  | succ fuel ih =>
    obtain ⟨b, hb⟩ : ∃ b, cells[chain hash count (k + 1)]? = some b :=
      ⟨_, getElem?_eq_getElem (hh.length ▸ hc.chain_lt hash (k + 1))⟩
    have hfound := found_eq hh hkey (mem_of_getElem? hb)
    have hmatch : matchAt T cells hash count key (k + 1) = Matches T key b := by
      rw [matchAt, hb]
      rfl
    have hseek : chainSeek (chain hash count k) (chainIncrement hash count) count =
        chain hash count (k + 1) := rfl
    -- one turn of the loop
    have hturn : findLoop T cells hash key (chainIncrement hash count) count (fuel + 1)
        (chain hash count k) =
        if Matches T key b then .ok (chain hash count (k + 1) : ℤ)
        else if !b.collision then .ok (-1)
        else findLoop T cells hash key (chainIncrement hash count) count fuel
          (chain hash count (k + 1)) := by
      simp only [findLoop, hseek, bucketAt, hb, require, ok_bind]
      by_cases hgo : (b.present && b.hash == hash) = true
      · rw [if_pos hgo] at hfound
        rw [if_pos hgo, hfound, ok_bind]
      · rw [if_neg hgo] at hfound
        rw [if_neg hgo, Except.ok.inj hfound]
    by_cases hm : Matches T key b = true
    · exact Or.inl ⟨k + 1, Nat.lt_succ_self k, by omega, by rw [hmatch, hm],
        fun i hi hlt => by omega, by rw [hturn, if_pos hm]⟩
    have hm' : matchAt T cells hash count key (k + 1) = false := by
      rw [hmatch]
      simpa using hm
    have hpassed : ∀ i, k < i → (k + 1 < i → matchAt T cells hash count key i = false) →
        matchAt T cells hash count key i = false := fun i hi hlater => by
      rcases Nat.eq_or_lt_of_le hi with rfl | hi'
      · exact hm'
      · exact hlater hi'
    by_cases hcol : b.collision = true
    · have hne : k + 1 ≠ f := by
        rintro rfl
        obtain ⟨c, hcf, hcfree⟩ := hfree
        obtain rfl := Option.mem_unique hb hcf
        simp [Bucket.filled, hcol] at hcfree
      rw [if_neg hm, if_neg (by simp [hcol])] at hturn
      rw [hturn]
      rcases ih (k := k + 1) (by omega) (by omega) with
        ⟨j, hkj, hj, hmj, hnone, heq⟩ | ⟨hnone, heq⟩
      · exact Or.inl ⟨j, by omega, hj, hmj,
          fun i hi hlt => hpassed i hi fun hi' => hnone i hi' hlt, heq⟩
      · exact Or.inr ⟨fun i hi hlt => hpassed i hi fun hi' => hnone i hi' hlt, heq⟩
    · refine Or.inr ⟨fun i hi hlt => hpassed i hi fun hi' => ?_, ?_⟩
      · exact matchAt_behind hc hh hkey ⟨b, hb, by simpa using hcol⟩ hi' hlt
      · rw [hturn, if_neg hm, if_pos (by simpa using hcol)]

theorem lt_free (hk : k < count) (hmatch : matchAt T cells hash count key k = true)
    (hfree : ∃ b ∈ cells[chain hash count f]?, b.filled = false) : k < f := by
  by_contra hle
  obtain ⟨c, hcf, hcfree⟩ := hfree
  rw [Bucket.filled, Bool.or_eq_false_iff] at hcfree
  rcases (not_lt.mp hle).eq_or_lt with rfl | hlt
  · rw [matchAt, Option.any_eq_true] at hmatch
    obtain ⟨b, hb, hmb⟩ := hmatch
    obtain rfl := Option.mem_unique hb hcf
    rw [Matches, hcfree.1] at hmb
    cases hmb
  · rw [matchAt_behind hc hh hkey ⟨c, hcf, hcfree.2⟩ hlt hk] at hmatch
    cases hmatch

/-- **The first lookup.** -/
theorem findIn_first (hf : f < count)
    (hfree : ∃ b ∈ cells[chain hash count f]?, b.filled = false) :
    (∃ j < count, matchAt T cells hash count key j = true ∧
        (∀ i < j, matchAt T cells hash count key i = false) ∧
        findIn T cells count (-1) hash key = .ok (chain hash count j : ℤ)) ∨
      (∀ i < count, matchAt T cells hash count key i = false) ∧
        findIn T cells count (-1) hash key = .ok (-1) := by
  obtain ⟨b, hb⟩ : ∃ b, cells[chainStart hash count]? = some b :=
    ⟨_, getElem?_eq_getElem (hh.length ▸ hc.chain_lt hash 0)⟩
  have hmatch : matchAt T cells hash count key 0 = Matches T key b := by
    rw [matchAt, chain, hb]
    rfl
  have hneg : (-1 : ℤ) < 0 := by norm_num
  generalize hfound : findIn T cells count (-1) hash key = found
  simp only [findIn, if_pos hneg, bucketAt, hb, require, ok_bind] at hfound
  -- the first bucket is what was looked for, or ends the chain, or is passed
  have hturn : Matches T key b = true ∧ found = .ok (chainStart hash count : ℤ) ∨
      Matches T key b = false ∧ (b.collision = false ∧ found = .ok (-1) ∨
        b.filled = true ∧ found = findLoop T cells hash key (chainIncrement hash count) count count
          (chainStart hash count)) := by
    by_cases hp : b.present = true
    · obtain ⟨x, hx⟩ := Option.isSome_iff_exists.mp (hh.entries b (mem_of_getElem? hb) hp)
      have hcmp : compareBucketKey T b key = .ok (Matches T key b) := by
        rw [compareBucketKey, hx, require, ok_bind, Matches, hp, hx]
        rfl
      rw [if_pos hp, hcmp, ok_bind] at hfound
      by_cases hm : Matches T key b = true
      · exact Or.inl ⟨hm, by rw [← hfound, if_pos hm]⟩
      · exact Or.inr ⟨by simpa using hm, Or.inr ⟨by simp [Bucket.filled, hp],
          by rw [← hfound, if_neg hm]⟩⟩
    · have hm : Matches T key b = false := by
        rw [Matches, Bool.eq_false_iff.mpr hp]
        rfl
      rw [if_neg hp] at hfound
      by_cases hcol : b.collision = true
      · exact Or.inr ⟨hm, Or.inr ⟨by simp [Bucket.filled, hcol],
          by rw [← hfound, if_neg (by simp [hcol])]⟩⟩
      · exact Or.inr ⟨hm, Or.inl ⟨by simpa using hcol,
          by rw [← hfound, if_pos (by simpa using hcol)]⟩⟩
  rcases hturn with ⟨hm, rfl⟩ | ⟨hm, ⟨hcol, rfl⟩ | ⟨hfilled, rfl⟩⟩
  · exact Or.inl ⟨0, hc.prime.pos, hmatch.trans hm, fun i hi => absurd hi (Nat.not_lt_zero i), rfl⟩
  · refine Or.inr ⟨fun i hi => ?_, rfl⟩
    rcases Nat.eq_zero_or_pos i with rfl | hpos
    · rw [hmatch, hm]
    · exact matchAt_behind hc hh hkey (m := 0) ⟨b, hb, hcol⟩ hpos hi
  · have hf0 : f ≠ 0 := by
      rintro rfl
      obtain ⟨c, hcf, hcfree⟩ := hfree
      obtain rfl := Option.mem_unique hb hcf
      rw [hfilled] at hcfree
      cases hcfree
    have hpassed : ∀ i, (0 < i → matchAt T cells hash count key i = false) →
        matchAt T cells hash count key i = false := fun i hi => by
      rcases Nat.eq_zero_or_pos i with rfl | hpos
      · rw [hmatch, hm]
      · exact hi hpos
    rcases findLoop_spec hc hh hkey (k := 0) (by omega) hf hfree count (by omega) with
      ⟨j, -, hj, hmj, hnone, hfind⟩ | ⟨hnone, hfind⟩
    · exact Or.inl ⟨j, hj, hmj, fun i hi => hpassed i fun h0 => hnone i h0 hi, hfind⟩
    · exact Or.inr ⟨fun i hi => hpassed i fun h0 => hnone i h0 hi, hfind⟩

/-! ### Repeated lookups -/

/-- The calls of `lookup`, from `index` on, each with what the last one returned, return the numbers
of the list and then −1. -/
def Yields (lookup : ℤ → Except Stop ℤ) : ℤ → List ℕ → Prop
  | index, [] => lookup index = .ok (-1)
  | index, i :: rest => lookup index = .ok (i : ℤ) ∧ Yields lookup i rest

theorem yields_from (hf : f < count)
    (hfree : ∃ b ∈ cells[chain hash count f]?, b.filled = false) (hk : k < count)
    (hmatch : matchAt T cells hash count key k = true) :
    Yields (fun index => findIn T cells count index hash key) (chain hash count k)
      (matchesFrom T cells hash count key (k + 1)) := by
  -- by induction on the buckets that are left
  induction hd : count - k using Nat.strong_induction_on generalizing k with
  | _ d ih =>
    have hkf := lt_free hc hh hkey hk hmatch hfree
    have hturn : findIn T cells count (chain hash count k) hash key =
        findLoop T cells hash key (chainIncrement hash count) count count (chain hash count k) := by
      have hneg : ¬ ((chain hash count k : ℤ) < 0) := by omega
      simp only [findIn, if_neg hneg, Int.toNat_natCast]
    rcases findLoop_spec hc hh hkey hkf hf hfree count (by omega) with
      ⟨j, hkj, hj, hmj, hnone, heq⟩ | ⟨hnone, heq⟩
    · rw [matchesFrom_cons hkj hj hmj hnone]
      exact ⟨hturn.trans heq, ih (count - j) (by omega) hj hmj rfl⟩
    · rw [matchesFrom_nil hnone]
      exact hturn.trans heq

end Probe

theorem Yields.congr {lookup lookup' : ℤ → Except Stop ℤ} (heq : ∀ i, lookup i = lookup' i)
    {index : ℤ} {l : List ℕ} (hy : Yields lookup index l) : Yields lookup' index l := by
  rwa [← funext heq]

/-- Lookups of a key in table `t`: if all entries with the key have the hash code, the indices of
all of them are returned, each once, and then −1. -/
def Finds (T : EntryType α κ) (h : Memory α) (t : Table) : Prop :=
  ∀ hash key, (∀ b ∈ bucketsOf h t, Matches T key b = true → b.hash = trimHash hash) →
    ∃ l : List ℕ, l.Nodup ∧ (∀ i, i ∈ l ↔ ∃ b ∈ (bucketsOf h t)[i]?, Matches T key b = true) ∧
      Yields (fun index => find T h t index hash key) (-1) l

/-- **Lookups find all entries.** -/
theorem finds_all {h : Memory α} {t : Table} (hg : Good T h t) : Finds T h t := by
  intro hash key hkey
  by_cases h0 : t.mSize = 0
  · -- nothing is there to be found
    refine ⟨[], nodup_nil, fun i => ⟨fun hi => absurd hi not_mem_nil, ?_⟩, ?_⟩
    · rintro ⟨b, hb, hm⟩
      have hcount := hg.consistent.size
      rw [h0, eq_comm, countP_eq_zero] at hcount
      rw [Matches, Bool.and_eq_true] at hm
      exact absurd hm.1 (hcount b (mem_of_getElem? hb))
    · simp only [Yields, find, if_pos h0]
  rcases hg.buckets with ⟨-, hsize, -⟩ | ⟨a, cells, ha, hs, hh⟩
  · exact absurd hsize h0
  have hbuckets := hs.bucketsOf ha
  rw [hbuckets] at hkey ⊢
  have hc := hg.sizes.buckets
  have hcap := hg.sizes.capacity_lt
  have hroom := hg.room
  -- not all buckets are in use
  obtain ⟨f, hf, hfree⟩ : ∃ f < t.mBucketCount,
      ∃ b ∈ cells[chain (trimHash hash) t.mBucketCount f]?, b.filled = false := by
    obtain ⟨b, hb, hfilled⟩ : ∃ b ∈ cells, ¬ b.filled = true := by
      by_contra hall
      push Not at hall
      have := countP_eq_length.mpr hall
      rw [← hh.filled, hh.length] at this
      omega
    obtain ⟨i, hi⟩ := getElem?_of_mem hb
    obtain ⟨f, hf, rfl⟩ := hc.exists_chain (trimHash hash)
      (hh.length ▸ (List.getElem?_eq_some_iff.mp hi).1)
    exact ⟨f, hf, b, hi, by simpa using hfilled⟩
  have hfind : ∀ index, findIn T cells t.mBucketCount index (trimHash hash) key =
      find T h t index hash key := by
    intro index
    obtain ⟨blk, hblk, -, rfl⟩ := hs
    simp only [find, if_neg h0, ha, require, ok_bind, Heap.deref_eq hblk]
  refine ⟨matchesFrom T cells (trimHash hash) t.mBucketCount key 0, matchesFrom_nodup hc,
    fun i => mem_matchesFrom hc hh.length, Yields.congr hfind ?_⟩
  rcases findIn_first hc hh hkey hf hfree with ⟨j, hj, hmj, hnone, heq⟩ | ⟨hnone, heq⟩
  · rw [matchesFrom_cons (Nat.zero_le j) hj hmj fun i _ hi => hnone i hi]
    exact ⟨heq, yields_from hc hh hkey hf hfree hj hmj⟩
  · rw [matchesFrom_nil fun i _ hi => hnone i hi]
    exact heq

/-! ### Runs -/

/-- The call comes to an end with the items it should, and all lookups are right. -/
def StaysMultiset (T : EntryType α κ) (s : State α) (c : Call α) : Prop :=
  ∃ s' ∈ step T s c, Changes s s' c ∧ ∀ t ∈ s'.tables, Finds T s'.heap t

/-- **Tables are multisets with lookup**, through all calls in any order, exactly if every call is
sound. -/
theorem multiset_iff (T : EntryType α κ) (cs : List (Call α))
    (hv : Along (step T) Valid init cs) :
    Along (step T) (StaysMultiset T) init cs ↔ Along (step T) (Sound T) init cs :=
  along_iff step_inv
    (fun hs hvalid => ends_iff hs hvalid fun _ hinv hch =>
      ⟨hch, fun t ht => finds_all (hinv.good t ht)⟩)
    Inv.init hv

/-- Three entries with one key, of which one is removed in a copy. -/
def duplicates : List (Call ℕ) :=
  [.create 0 (3 / 4), .add 0 7 (.given 7), .add 0 7 (.given 7), .add 0 7 (.own 0 2), .copy 0,
    .removeAt 1 3, .add 1 12 (.given 12)]

theorem multiset_iff_duplicates :
    Along (step numbers) Valid init duplicates ∧
      Along (step numbers) (StaysMultiset numbers) init duplicates :=
  ⟨by decide +kernel, (multiset_iff numbers duplicates (by decide +kernel)).mpr (by decide +kernel)⟩

/-- A table of 5 buckets with two flags, left by entries that were removed, and a load factor of a
half. -/
def flagsOnly : List (Call ℕ) :=
  [.create 0 (1 / 2), .add 0 1 (.given 1), .add 0 1 (.given 2), .removeAt 0 1,
    .add 0 387 (.given 3), .removeAt 0 1, .removeAt 0 2]

/-- **An entry cannot be added** to such a table. -/
theorem flags_lose_entry :
    Along (step numbers) Valid init (flagsOnly ++ [.add 0 3 (.given 4)]) ∧
      Along (step numbers) (Sound numbers) init flagsOnly ∧
      ¬ Along (step numbers) (StaysMultiset numbers) init (flagsOnly ++ [.add 0 3 (.given 4)]) := by
  refine ⟨by decide +kernel, by decide +kernel, fun ha => ?_⟩
  exact run_ne_none (fun ⟨s', hs', _⟩ => ⟨s', hs'⟩) ha (by decide +kernel)

end BasicHashtable
