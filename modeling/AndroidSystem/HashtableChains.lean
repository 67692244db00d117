/-
Chains of a hash table.

An entry is found along the chain of its hash code: the buckets before it on the chain
have the flag COLLISION (`Chained`).  This module is about arrays of buckets alone:

* `place_spec` — the loops of `add` and `rehash` come to the first bucket of a chain
  without an entry, and have set the flag on the way there;
* `Holds.insert`, `Holds.remove`, `Holds.map` — what the changes to an array do to its
  counts, its items and the chain condition;
* `moveAll_spec` — `rehash` moves all entries;
* `determineCapacity_spec` — the sizes that a table can have.
-/
import AndroidSystem.BasicHashtable
import AndroidSystem.Probing

open CInt CountedHeap List

namespace BasicHashtable

open Bucket Probing

variable {α κ : Type} {cells cells' : List (Bucket α)} {b b' : Bucket α} {x : α}
  {hash count i j k m size filled : ℕ}

/-! ### Numbers of buckets -/

variable {capacity : ℕ} {loadFactor : ℚ} {minimumCapacity : ℕ}

/-- What is needed of a number of buckets. -/
structure BucketCount (count : ℕ) : Prop where
  prime : count.Prime
  two_lt : 2 < count
  lt : count < 2 ^ 31

/-- For the larger primes, how far `Probing.undivided` has to go. -/
def turns : List ℕ :=
  [1, 1, 2, 3, 5, 7, 10, 14, 21, 30, 42, 60, 85, 120, 170, 241, 341, 483, 684, 967, 1368]

theorem bucketCount_of_mem (hmem : count ∈ PRIMES) (h0 : count ≠ 0) : BucketCount count := by
  have hprime : count.Prime := by
    have hsmall : ∀ p ∈ PRIMES.take 8, p.Prime := by
      simp only [PRIMES, take_succ_cons, take_zero, forall_mem_cons,
        not_mem_nil, false_implies, implies_true, and_true]
      norm_num
    have hlarge : ∀ pk ∈ (PRIMES.drop 8).zip turns, pk.1.gcd 30 = 1 ∧ 1 < pk.1 ∧
        pk.1 < (30 * pk.2 + 37) ^ 2 ∧ undivided pk.1 pk.2 = true := by
      decide +kernel
    have hsplit : ∀ p ∈ PRIMES, p ≠ 0 →
        p ∈ PRIMES.take 8 ∨ ∃ k ∈ turns, (p, k) ∈ (PRIMES.drop 8).zip turns := by
      decide
    rcases hsplit count hmem h0 with h | ⟨k, -, h⟩
    · exact hsmall count h
    · obtain ⟨h30, h1, hsq, hu⟩ := hlarge _ h
      exact prime_of_undivided h30 h1 hsq hu
  have hrange : ∀ p ∈ PRIMES, p ≠ 0 → 2 < p ∧ p < 2 ^ 31 := by decide
  exact ⟨hprime, (hrange count hmem h0).1, (hrange count hmem h0).2⟩

/-- The number of buckets for a capacity, if there is a prime for it. -/
def bucketsFor (minimumCapacity : ℕ) (loadFactor : ℚ) : Option ℕ :=
  PRIMES.find? fun p => ⌈(minimumCapacity : ℚ) / loadFactor⌉₊ + 1 ≤ p

/-- The capacity of a number of buckets. -/
def capacityOf (count : ℕ) (loadFactor : ℚ) : ℕ := ⌈((count - 1 : ℕ) : ℚ) * loadFactor⌉₊

theorem searchPrimes_eq (n : ℕ) (primes : List ℕ) :
    searchPrimes n primes = require (primes.find? fun p => n ≤ p) := by
  induction primes with
  | nil => rfl
  | cons p primes ih =>
    by_cases hp : n ≤ p
    · rw [searchPrimes, if_neg (not_lt.mpr hp), find?_cons_of_pos (by simpa using hp)]
      rfl
    · rw [searchPrimes, if_pos (not_le.mp hp), find?_cons_of_neg (by simpa using hp), ih]

/-- The sizes of a table: its load factor is one, and its capacity is that of its buckets. -/
structure Sizes (count capacity : ℕ) (loadFactor : ℚ) : Prop where
  factor : 0 < loadFactor ∧ loadFactor ≤ 1
  capacity : capacity = capacityOf count loadFactor
  buckets : BucketCount count

section

variable (hs : Sizes count capacity loadFactor)
include hs

theorem Sizes.capacity_lt :
    capacity < count := by
  have hle : ((count - 1 : ℕ) : ℚ) * loadFactor ≤ ((count - 1 : ℕ) : ℚ) :=
    mul_le_of_le_one_right (Nat.cast_nonneg _) hs.factor.2
  have hceil := Nat.ceil_le.mpr hle
  have h2 := hs.buckets.two_lt
  rw [hs.capacity, capacityOf]
  omega

theorem Sizes.u32_double :
    u32 (capacity * 2) = 2 * capacity := by
  have hlt := hs.capacity_lt
  have hmax := hs.buckets.lt
  rw [u32_of_lt (by omega), Nat.mul_comm]

theorem Sizes.capacity_pos :
    0 < capacity := by
  have h2 := hs.buckets.two_lt
  have hpos : (0 : ℚ) < ((count - 1 : ℕ) : ℚ) := Nat.cast_pos.mpr (by omega)
  rw [hs.capacity, capacityOf]
  exact Nat.ceil_pos.mpr (mul_pos hpos hs.factor.1)

end

/-- **The sizes that `determineCapacity` finds** are right, and there is room for as many entries
as were asked for. -/
theorem determineCapacity_spec (hlf : 0 < loadFactor ∧ loadFactor ≤ 1)
    (hn : bucketsFor minimumCapacity loadFactor = some count) :
    determineCapacity minimumCapacity loadFactor = .ok (count, capacityOf count loadFactor) ∧
      Sizes count (capacityOf count loadFactor) loadFactor ∧
      minimumCapacity ≤ capacityOf count loadFactor := by
  have hle : ⌈(minimumCapacity : ℚ) / loadFactor⌉₊ + 1 ≤ count := by
    simpa using find?_some hn
  have h0 : count ≠ 0 := by omega
  refine ⟨?_, ⟨hlf, rfl, bucketCount_of_mem (mem_of_find?_eq_some hn) h0⟩, ?_⟩
  · rw [bucketsFor] at hn
    rw [determineCapacity, if_neg (not_or.mpr ⟨hlf.1.not_ge, hlf.2.not_gt⟩), searchPrimes_eq, hn,
      require, ok_bind, if_neg h0, capacityOf]
  · have hceil : (minimumCapacity : ℚ) / loadFactor ≤ ((count - 1 : ℕ) : ℚ) :=
      (Nat.le_ceil _).trans (by exact_mod_cast (show _ ≤ count - 1 by omega))
    have hmul := (div_le_iff₀ hlf.1).mp hceil
    exact_mod_cast hmul.trans (Nat.le_ceil _)

/-- For too large a capacity, memory behind the table of primes is read. -/
theorem determineCapacity_none (hlf : 0 < loadFactor ∧ loadFactor ≤ 1)
    (hn : bucketsFor minimumCapacity loadFactor = none) :
    determineCapacity minimumCapacity loadFactor = .error .undefined := by
  rw [bucketsFor] at hn
  rw [determineCapacity, if_neg (not_or.mpr ⟨hlf.1.not_ge, hlf.2.not_gt⟩), searchPrimes_eq, hn]
  rfl

/-! ### Chains visit all buckets -/

namespace BucketCount

variable (hc : BucketCount count)

include hc

theorem increment_lt (hash : ℕ) : chainIncrement hash count < count := by
  have h2 := hc.two_lt
  have := Nat.mod_lt (hash >>> 7 ||| u32 (hash <<< 25)) (show count - 1 > 0 by omega)
  rw [chainIncrement]
  omega

theorem chain_eq (hash k : ℕ) : chain hash count k =
    Probing.place (chainStart hash count) (chainIncrement hash count) count k := by
  induction k with
  | zero => simp [chain, Probing.place, chainStart]
  | succ k ih =>
    have hlt : Probing.place (chainStart hash count) (chainIncrement hash count) count k < count :=
      place_lt hc.prime.pos k
    have hinc := hc.increment_lt hash
    have hmax := hc.lt
    rw [chain, ih, place_succ, chainSeek, u32_of_lt (by omega)]

theorem chain_lt (hash k : ℕ) : chain hash count k < count := by
  rw [hc.chain_eq]
  exact place_lt hc.prime.pos k

theorem chain_injective (hj : j < count) (hk : k < count)
    (heq : chain hash count j = chain hash count k) : j = k := by
  rw [hc.chain_eq, hc.chain_eq] at heq
  exact place_injective hc.prime (by simp [chainIncrement]) (hc.increment_lt hash) hj hk heq

theorem exists_chain (hash : ℕ) (hi : i < count) : ∃ k < count, chain hash count k = i := by
  obtain ⟨k, hk, heq⟩ : ∃ k < count,
      Probing.place (chainStart hash count) (chainIncrement hash count) count k = i :=
    exists_place hc.prime (by simp [chainIncrement]) (hc.increment_lt hash) hi
  exact ⟨k, hk, (hc.chain_eq hash k).trans heq⟩

end BucketCount

/-! ### Items -/

/-- The hash code and the entry of a bucket that has one. -/
def Bucket.item (b : Bucket α) : Option (ℕ × α) :=
  if b.present then b.entry.map (b.hash, ·) else none

/-- The items of an array. -/
def items (cells : List (Bucket α)) : Multiset (ℕ × α) := ↑(cells.filterMap Bucket.item)

/-- The buckets before an entry on the chain of its hash code have the flag COLLISION. -/
def Chained (count : ℕ) (cells : List (Bucket α)) : Prop :=
  ∀ i, ∀ b ∈ cells[i]?, b.present = true →
    ∃ k < count, chain b.hash count k = i ∧
      ∀ j < k, ∃ b' ∈ cells[chain b.hash count j]?, b'.collision = true

/-- An array of `count` buckets, `size` of them with an entry and `filled` of them in use. -/
structure Holds (count size filled : ℕ) (cells : List (Bucket α)) : Prop where
  length : cells.length = count
  size : size = cells.countP Bucket.present
  filled : filled = cells.countP Bucket.filled
  entries : ∀ b ∈ cells, b.present = true → b.entry.isSome = true
  chained : Chained count cells

theorem set_perm (hi : cells[i]? = some b) (b' : Bucket α) :
    cells.Perm (b :: cells.eraseIdx i) ∧ (cells.set i b').Perm (b' :: cells.eraseIdx i) := by
  obtain ⟨hlt, rfl⟩ := List.getElem?_eq_some_iff.mp hi
  have hlt' : i < (cells.set i b').length := by simpa using hlt
  have hset := (getElem_cons_eraseIdx_perm hlt').symm
  rw [getElem_set_self, eraseIdx_set_eq] at hset
  exact ⟨(getElem_cons_eraseIdx_perm hlt).symm, hset⟩

theorem items_perm (hp : cells.Perm cells') : items cells = items cells' :=
  Multiset.coe_eq_coe.mpr (hp.filterMap _)

theorem items_cons (b : Bucket α) (cells : List (Bucket α)) :
    items (b :: cells) = (b.item.elim 0 fun y => {y}) + items cells := by
  rw [items, items, filterMap_cons]
  cases b.item <;> simp

theorem Bucket.item_eq (hp : b.present = true) (hx : b.entry = some x) :
    b.item = some (b.hash, x) := by
  simp [item, hp, hx]

theorem Bucket.item_absent (hp : b.present = false) : b.item = none := by
  simp [item, hp]

theorem countP_congr_map {p : Bucket α → Bool} (h : cells.map p = cells'.map p) :
    cells.countP p = cells'.countP p := by
  have key : ∀ l : List (Bucket α), l.countP p = (l.map p).countP id := fun l => by
    rw [countP_map]
    rfl
  rw [key, key, h]

theorem items_congr_map (h : cells.map item = cells'.map item) :
    items cells = items cells' := by
  have key : ∀ l : List (Bucket α), l.filterMap item = (l.map item).filterMap id :=
    fun l => by
      rw [filterMap_map]
      rfl
  rw [items, items, key, key, h]

theorem Holds.card_items (hh : Holds count size filled cells) : (items cells).card = size := by
  rw [hh.size, items, Multiset.coe_card]
  have hent := hh.entries
  clear hh
  induction cells with
  | nil => rfl
  | cons b cells ih =>
    have ih := ih fun b hb => hent b (mem_cons_of_mem _ hb)
    by_cases hp : b.present = true
    · obtain ⟨x, hx⟩ := Option.isSome_iff_exists.mp (hent b mem_cons_self hp)
      rw [filterMap_cons, item_eq hp hx, countP_cons_of_pos hp, ← ih]
      rfl
    · rw [filterMap_cons, item_absent (by simpa using hp), countP_cons_of_neg hp,
        ← ih]

theorem Holds.size_le (hh : Holds count size filled cells) : size ≤ filled := by
  rw [hh.size, hh.filled]
  refine countP_mono_left fun b _ hp => ?_
  simp [Bucket.filled, hp]

/-! ### Copies -/

/-- A function that only changes the storage of buckets without an entry. -/
def Keeps (g : Bucket α → Bucket α) : Prop :=
  ∀ b, (g b).collision = b.collision ∧ (g b).present = b.present ∧ (g b).hash = b.hash ∧
    (b.present = true → (g b).entry = b.entry)

/-- Arrays that are the same but for the storage of entries. -/
theorem Holds.alike (hh : Holds count size filled cells) (hlen : cells'.length = cells.length)
    (heq : ∀ (i : ℕ) (b b' : Bucket α), cells[i]? = some b → cells'[i]? = some b' →
      b'.collision = b.collision ∧ b'.present = b.present ∧ b'.hash = b.hash ∧
        (b.present = true → b'.entry.isSome = b.entry.isSome)) :
    Holds count size filled cells' := by
  have hold : ∀ (i : ℕ) (b' : Bucket α), cells'[i]? = some b' → ∃ b, cells[i]? = some b :=
    fun i b' hb' => ⟨_, getElem?_eq_getElem (hlen ▸ (List.getElem?_eq_some_iff.mp hb').1)⟩
  have hnew : ∀ (i : ℕ) (b : Bucket α), cells[i]? = some b → ∃ b', cells'[i]? = some b' :=
    fun i b hb => ⟨_, getElem?_eq_getElem (hlen ▸ (List.getElem?_eq_some_iff.mp hb).1)⟩
  have hmap : ∀ p : Bucket α → Bool, (∀ b b' : Bucket α, b'.collision = b.collision →
      b'.present = b.present → p b' = p b) → cells.countP p = cells'.countP p := by
    intro p hp
    refine countP_congr_map (ext_getElem (by simp [hlen]) fun i h₁ h₂ => ?_)
    rw [length_map] at h₁ h₂
    obtain ⟨hcol, hpre, -⟩ := heq i cells[i] cells'[i] (getElem?_eq_getElem h₁)
      (getElem?_eq_getElem h₂)
    rw [getElem_map, getElem_map, hp _ _ hcol hpre]
  refine ⟨hlen.trans hh.length, ?_, ?_, ?_, ?_⟩
  · rw [hh.size]
    exact hmap _ fun b b' _ hpre => hpre
  · rw [hh.filled]
    exact hmap _ fun b b' hcol hpre => by rw [Bucket.filled, Bucket.filled, hcol, hpre]
  · intro b' hb' hp
    obtain ⟨i, hi⟩ := getElem?_of_mem hb'
    obtain ⟨b, hb⟩ := hold i b' hi
    obtain ⟨-, hpre, -, hentry⟩ := heq i b b' hb hi
    rw [hpre] at hp
    rw [hentry hp]
    exact hh.entries b (mem_of_getElem? hb) hp
  · intro i b' hb' hp
    obtain ⟨b, hb⟩ := hold i b' hb'
    obtain ⟨-, hpre, hhash, -⟩ := heq i b b' hb hb'
    obtain ⟨k, hk, hki, hbefore⟩ := hh.chained i b hb (hpre ▸ hp)
    rw [hhash]
    refine ⟨k, hk, hki, fun j hj => ?_⟩
    obtain ⟨d, hd, hcol⟩ := hbefore j hj
    obtain ⟨d', hd'⟩ := hnew _ d hd
    exact ⟨d', hd', (heq _ d d' hd hd').1.trans hcol⟩

theorem Holds.map {g : Bucket α → Bucket α} (hg : Keeps g) (hh : Holds count size filled cells) :
    Holds count size filled (cells.map g) ∧ items (cells.map g) = items cells := by
  refine ⟨hh.alike (by simp) fun i b b' hb hb' => ?_, ?_⟩
  · rw [getElem?_map, hb, Option.map_some, Option.some_inj] at hb'
    subst hb'
    exact ⟨(hg b).1, (hg b).2.1, (hg b).2.2.1, fun hp => by rw [(hg b).2.2.2 hp]⟩
  · refine items_congr_map ?_
    rw [map_map]
    refine map_congr_left fun b _ => ?_
    by_cases hp : b.present = true
    · simp only [Function.comp_apply, item, (hg b).2.1, if_pos hp, (hg b).2.2.2 hp,
        (hg b).2.2.1]
    · simp only [Function.comp_apply, item, (hg b).2.1, if_neg hp]

/-- Buckets of which none is in use hold nothing. -/
theorem Holds.vacant (hlen : cells.length = count)
    (hnone : ∀ b ∈ cells, b.present = false ∧ b.collision = false) :
    Holds count 0 0 cells ∧ items cells = 0 := by
  have hh : Holds count 0 0 cells := by
    refine ⟨hlen, (countP_eq_zero.mpr fun b hb => ?_).symm,
      (countP_eq_zero.mpr fun b hb => ?_).symm, fun b hb hp => ?_, fun i b hb hp => ?_⟩
    · simp [hnone b hb]
    · simp [Bucket.filled, hnone b hb]
    · simp [hnone b hb] at hp
    · simp [hnone b (mem_of_getElem? hb)] at hp
  exact ⟨hh, by rw [← Multiset.card_eq_zero, hh.card_items]⟩

theorem Holds.fresh (count : ℕ) (e : Option α) :
    Holds count 0 0 (replicate count ⟨false, false, 0, e⟩) ∧
      items (replicate count ⟨false, false, 0, e⟩) = 0 := by
  refine Holds.vacant length_replicate fun b hb => ?_
  rw [eq_of_mem_replicate hb]
  exact ⟨rfl, rfl⟩

/-! ### The way to a free bucket -/

/-- The array after the flag was set from bucket `k` of a chain to just before bucket `m`. -/
def marked (hash count k m : ℕ) (cells : List (Bucket α)) : List (Bucket α) :=
  cells.mapIdx fun i b =>
    if i ∈ (List.range' k (m - k)).map (chain hash count) then { b with collision := true } else b

theorem length_marked {k : ℕ} : (marked hash count k m cells).length = cells.length :=
  length_mapIdx

theorem marked_self (hash count k : ℕ) (cells : List (Bucket α)) :
    marked hash count k k cells = cells := by
  apply ext_getElem?
  intro i
  rw [marked, getElem?_mapIdx]
  simp

theorem marked_succ (hkm : k < m) (hb : cells[chain hash count k]? = some b) :
    marked hash count (k + 1) m (cells.set (chain hash count k) { b with collision := true }) =
      marked hash count k m cells := by
  apply ext_getElem?
  intro i
  have hrange : List.range' k (m - k) = k :: List.range' (k + 1) (m - (k + 1)) := by
    rw [show m - k = m - (k + 1) + 1 by omega, range'_succ]
  rw [marked, marked, getElem?_mapIdx, getElem?_mapIdx, hrange, map_cons,
    getElem?_set]
  by_cases hi : chain hash count k = i
  · subst hi
    obtain ⟨hlt, rfl⟩ := List.getElem?_eq_some_iff.mp hb
    simp [hlt]
  · simp only [if_neg hi, mem_cons, Ne.symm hi, false_or]

/-- What the buckets of `marked` are. -/
theorem getElem?_marked (hash count k m i : ℕ) (cells : List (Bucket α)) :
    (marked hash count k m cells)[i]? = cells[i]?.map fun b =>
      if i ∈ (range' k (m - k)).map (chain hash count) then { b with collision := true }
      else b := by
  rw [marked, getElem?_mapIdx]

theorem getElem?_marked_last (hc : BucketCount count) (hm : m < count) :
    (marked hash count 0 m cells)[chain hash count m]? = cells[chain hash count m]? := by
  have hnot : chain hash count m ∉ (range' 0 (m - 0)).map (chain hash count) := by
    intro hmem
    obtain ⟨j, hj, heq⟩ := mem_map.mp hmem
    have hjm : j < m := by simpa using (mem_range'_1.mp hj).2
    exact hjm.ne (hc.chain_injective (hjm.trans hm) hm heq)
  rw [getElem?_marked]
  simp only [if_neg hnot, Option.map_id']

/-- `seekFree` comes to the first bucket of the chain without an entry. -/
theorem seekFree_spec (hc : BucketCount count) {fuel : ℕ} (hkm : k ≤ m) (hm : m < count)
    (hfuel : m - k < fuel)
    (hbusy : ∀ j, k ≤ j → j < m → ∃ b ∈ cells[chain hash count j]?, b.present = true)
    (hfree : ∃ b ∈ cells[chain hash count m]?, b.present = false) :
    seekFree (chainIncrement hash count) count fuel cells (chain hash count k) =
      .ok (marked hash count k m cells, chain hash count m) := by
  induction fuel generalizing k cells with
  | zero => omega
  | succ fuel ih =>
    rcases hkm.eq_or_lt with rfl | hlt
    · obtain ⟨b, hb, hp⟩ := hfree
      rw [seekFree, bucketAt, hb, require, ok_bind, if_neg (by simp [hp]), marked_self]
    · obtain ⟨b, hb, hp⟩ := hbusy k le_rfl hlt
      -- the buckets further along are others
      have hother : ∀ j, k < j → j ≤ m →
          (cells.set (chain hash count k) { b with collision := true })[chain hash count j]? =
            cells[chain hash count j]? := fun j hkj hjm =>
        getElem?_set_ne fun heq => absurd (hc.chain_injective (by omega) (by omega) heq)
          (by omega)
      rw [seekFree, bucketAt, hb, require, ok_bind, if_pos hp, ← marked_succ hlt hb]
      refine ih (k := k + 1) hlt (by omega) (fun j hj hjm => ?_) ?_
      · rw [hother j hj hjm.le]
        exact hbusy j (by omega) hjm
      · rw [hother m hlt le_rfl]
        exact hfree

/-- **`place`** comes to the first bucket of a chain without an entry. -/
theorem place_spec (hc : BucketCount count) (hash : ℕ) (hh : Holds count size filled cells)
    (hroom : size < count) :
    ∃ m < count, (∀ j < m, ∃ b ∈ cells[chain hash count j]?, b.present = true) ∧
      (∃ b ∈ cells[chain hash count m]?, b.present = false) ∧
      place hash count cells = .ok (marked hash count 0 m cells, chain hash count m) := by
  have hget : ∀ j, ∃ b, cells[chain hash count j]? = some b := fun j =>
    ⟨_, getElem?_eq_getElem (hh.length ▸ hc.chain_lt hash j)⟩
  have hex : ∃ m, m < count ∧ ∃ b ∈ cells[chain hash count m]?, b.present = false := by
    by_contra hall
    push Not at hall
    have hbusy : ∀ b ∈ cells, b.present = true := fun b hb => by
      obtain ⟨i, hi⟩ := getElem?_of_mem hb
      obtain ⟨k, hk, rfl⟩ := hc.exists_chain hash
        (hh.length ▸ (List.getElem?_eq_some_iff.mp hi).1)
      simpa using hall k hk b hi
    rw [hh.size, countP_eq_length.mpr hbusy, hh.length] at hroom
    exact lt_irrefl _ hroom
  classical
  obtain ⟨hm, hfree⟩ := Nat.find_spec hex
  have hbusy : ∀ j < Nat.find hex, ∃ b ∈ cells[chain hash count j]?, b.present = true := by
    intro j hj
    obtain ⟨b, hb⟩ := hget j
    refine ⟨b, hb, ?_⟩
    by_contra hp
    exact Nat.find_min hex hj ⟨hj.trans hm, b, hb, by simpa using hp⟩
  refine ⟨Nat.find hex, hm, hbusy, hfree, ?_⟩
  exact seekFree_spec hc (Nat.zero_le _) hm (by omega) (fun j _ hj => hbusy j hj) hfree

/-! ### Changes to an array -/

/-- The flags on the way to a bucket change nothing but the flags of buckets that are in use. -/
theorem Holds.mark (hh : Holds count size filled cells)
    (hbusy : ∀ j < m, ∃ b ∈ cells[chain hash count j]?, b.present = true) :
    Holds count size filled (marked hash count 0 m cells) ∧
      items (marked hash count 0 m cells) = items cells := by
  have hpass : ∀ (i : ℕ) (b : Bucket α), cells[i]? = some b →
      i ∈ (range' 0 (m - 0)).map (chain hash count) → b.present = true := by
    intro i b hb hi
    obtain ⟨j, hj, rfl⟩ := mem_map.mp hi
    obtain ⟨b', hb', hp⟩ := hbusy j (by simpa using (mem_range'_1.mp hj).2)
    obtain rfl := Option.mem_unique hb hb'
    exact hp
  -- what is the same for every bucket is the same for the array
  have hsame : ∀ {γ : Type} (f : Bucket α → γ), (∀ b, b.present = true →
      f { b with collision := true } = f b) →
      (marked hash count 0 m cells).map f = cells.map f := by
    intro γ f hf
    apply ext_getElem?
    intro i
    rw [getElem?_map, getElem?_marked, getElem?_map, Option.map_map]
    cases hb : cells[i]? with
    | none => rfl
    | some b =>
      simp only [Option.map_some, Function.comp_apply, Option.some_inj]
      by_cases hi : i ∈ (range' 0 (m - 0)).map (chain hash count)
      · rw [if_pos hi]
        exact hf b (hpass i b hb hi)
      · rw [if_neg hi]
  -- every new bucket is an old one, perhaps with the flag set
  have hold : ∀ (i : ℕ) (b : Bucket α),
      (marked hash count 0 m cells)[i]? = some b → ∃ b₀ : Bucket α,
      cells[i]? = some b₀ ∧ b.present = b₀.present ∧ b.hash = b₀.hash ∧ b.entry = b₀.entry := by
    intro i b hb
    rw [getElem?_marked] at hb
    obtain ⟨b₀, hb₀, rfl⟩ := Option.map_eq_some_iff.mp hb
    refine ⟨b₀, hb₀, ?_⟩
    split <;> exact ⟨rfl, rfl, rfl⟩
  refine ⟨⟨?_, ?_, ?_, ?_, ?_⟩, items_congr_map (hsame _ fun b _ => rfl)⟩
  · rw [length_marked, hh.length]
  · rw [hh.size]
    exact countP_congr_map (hsame _ fun b _ => rfl).symm
  · rw [hh.filled]
    exact countP_congr_map (hsame _ fun b hp => by simp [Bucket.filled, hp]).symm
  · intro b hb hp
    obtain ⟨i, hi⟩ := getElem?_of_mem hb
    obtain ⟨b₀, hb₀, hp₀, -, hx⟩ := hold i b hi
    rw [hx]
    exact hh.entries b₀ (mem_of_getElem? hb₀) (hp₀ ▸ hp)
  · intro i b hb hp
    obtain ⟨b₀, hb₀, hp₀, hhash, -⟩ := hold i b hb
    obtain ⟨k, hk, heq, hbefore⟩ := hh.chained i b₀ hb₀ (hp₀ ▸ hp)
    rw [hhash]
    refine ⟨k, hk, heq, fun j hj => ?_⟩
    obtain ⟨b', hb', hcol⟩ := hbefore j hj
    rw [getElem?_marked, hb']
    refine ⟨_, rfl, ?_⟩
    split <;> simp [hcol]

theorem Chained.set (hch : Chained count cells) (hb : cells[i]? = some b)
    (hcol : b.collision = true → b'.collision = true)
    (hnew : b'.present = true → ∃ k < count, chain b'.hash count k = i ∧
      ∀ j < k, ∃ c ∈ (cells.set i b')[chain b'.hash count j]?, c.collision = true) :
    Chained count (cells.set i b') := by
  intro i' c hc hp
  have hlt := (List.getElem?_eq_some_iff.mp hb).1
  by_cases hi : i = i'
  · subst hi
    rw [getElem?_set_self hlt] at hc
    obtain rfl := Option.some_inj.mp hc
    exact hnew hp
  · rw [getElem?_set_ne hi] at hc
    obtain ⟨k, hk, heq, hbefore⟩ := hch i' c hc hp
    refine ⟨k, hk, heq, fun j hj => ?_⟩
    obtain ⟨d, hd, hdcol⟩ := hbefore j hj
    by_cases hj' : i = chain c.hash count j
    · rw [← hj'] at hd ⊢
      obtain rfl := Option.mem_unique hb hd
      exact ⟨b', getElem?_set_self hlt, hcol hdcol⟩
    · exact ⟨d, (getElem?_set_ne hj').trans hd, hdcol⟩

/-- **An entry is added** in the first free bucket of its chain, which keeps its flag. -/
theorem Holds.insert (hc : BucketCount count) (hh : Holds count size filled cells) (hm : m < count)
    (hbusy : ∀ j < m, ∃ b ∈ cells[chain hash count j]?, b.present = true)
    (hb : cells[chain hash count m]? = some b) (hp : b.present = false) (x : α) :
    Holds count (size + 1) (if b.collision then filled else filled + 1)
        ((marked hash count 0 m cells).set (chain hash count m)
          ⟨b.collision, true, hash, some x⟩) ∧
      items ((marked hash count 0 m cells).set (chain hash count m)
          ⟨b.collision, true, hash, some x⟩) = (hash, x) ::ₘ items cells := by
  obtain ⟨hh', hitems⟩ := hh.mark hbusy
  have hb' : (marked hash count 0 m cells)[chain hash count m]? = some b := by
    rw [getElem?_marked_last hc hm, hb]
  have hsize := hh'.size
  have hfilled := hh'.filled
  obtain ⟨hp₁, hp₂⟩ := set_perm hb' ⟨b.collision, true, hash, some x⟩
  generalize hl : marked hash count 0 m cells = l at *
  refine ⟨⟨?_, ?_, ?_, ?_, ?_⟩, ?_⟩
  · rw [length_set, hh'.length]
  · rw [hsize, hp₁.countP_eq, hp₂.countP_eq, countP_cons_of_neg (by simp [hp]),
      countP_cons_of_pos rfl]
  · rw [hfilled, hp₁.countP_eq, hp₂.countP_eq, countP_cons, countP_cons]
    cases hcol : b.collision <;> simp [Bucket.filled, hp, hcol]
  · intro c hc' hpc
    rcases mem_or_eq_of_mem_set hc' with hmem | rfl
    · exact hh'.entries c hmem hpc
    · rfl
  · refine hh'.chained.set hb' id fun _ => ⟨m, hm, rfl, fun j hj => ?_⟩
    obtain ⟨c, hcj, -⟩ := hbusy j hj
    have hne : chain hash count m ≠ chain hash count j := fun heq =>
      hj.ne' (hc.chain_injective hm (hj.trans hm) heq)
    have hmem : chain hash count j ∈ (range' 0 (m - 0)).map (chain hash count) :=
      mem_map_of_mem (mem_range'_1.mpr ⟨Nat.zero_le _, by omega⟩)
    rw [getElem?_set_ne hne, ← hl, getElem?_marked, hcj, Option.map_some, if_pos hmem]
    exact ⟨_, rfl, rfl⟩
  · rw [items_perm hp₂, ← hitems, items_perm hp₁, items_cons, items_cons, item_absent hp]
    simp [item]

/-- **An entry is removed**; its bucket keeps the flag. -/
theorem Holds.remove (hh : Holds count size filled cells) (hb : cells[i]? = some b)
    (hp : b.present = true) (hx : b.entry = some x) (e : Option α) :
    Holds count (size - 1) (if b.collision then filled else filled - 1)
        (cells.set i { b with present := false, entry := e }) ∧
      items cells = (b.hash, x) ::ₘ
        items (cells.set i { b with present := false, entry := e }) := by
  obtain ⟨hp₁, hp₂⟩ := set_perm hb { b with present := false, entry := e }
  refine ⟨⟨by rw [length_set, hh.length], ?_, ?_, ?_, ?_⟩, ?_⟩
  · rw [hh.size, hp₁.countP_eq, hp₂.countP_eq, countP_cons_of_pos hp,
      countP_cons_of_neg (by simp), Nat.add_sub_cancel]
  · rw [hh.filled, hp₁.countP_eq, hp₂.countP_eq, countP_cons, countP_cons]
    cases hcol : b.collision <;> simp [Bucket.filled, hp, hcol]
  · intro c hc hpc
    rcases mem_or_eq_of_mem_set hc with hmem | rfl
    · exact hh.entries c hmem hpc
    · cases hpc
  · exact hh.chained.set hb id fun h => by cases h
  · rw [items_perm hp₁, items_perm hp₂, items_cons, items_cons, item_eq hp hx,
      item_absent (b := { b with present := false, entry := e }) rfl]
    simp

/-! ### Moving all entries -/

/-- In the new array of `rehash`, a bucket with the flag has an entry. -/
def Tidy (cells : List (Bucket α)) : Prop := ∀ b ∈ cells, b.collision = true → b.present = true

theorem Tidy.mark (ht : Tidy cells)
    (hbusy : ∀ j < m, ∃ b ∈ cells[chain hash count j]?, b.present = true) :
    Tidy (marked hash count 0 m cells) := by
  intro b hb hcol
  obtain ⟨i, hi⟩ := getElem?_of_mem hb
  rw [getElem?_marked] at hi
  obtain ⟨b₀, hb₀, rfl⟩ := Option.map_eq_some_iff.mp hi
  by_cases hmem : i ∈ (range' 0 (m - 0)).map (chain hash count)
  · obtain ⟨j, hj, rfl⟩ := mem_map.mp hmem
    obtain ⟨b', hb', hp⟩ := hbusy j (by simpa using (mem_range'_1.mp hj).2)
    obtain rfl := Option.mem_unique hb₀ hb'
    rw [if_pos hmem]
    exact hp
  · rw [if_neg hmem] at hcol ⊢
    exact ht b₀ (mem_of_getElem? hb₀) hcol

theorem Tidy.filled_eq (ht : Tidy cells) (hh : Holds count size filled cells) : filled = size := by
  rw [hh.filled, hh.size]
  refine countP_congr fun b hb => ?_
  rw [Bucket.filled, Bool.or_eq_true]
  exact ⟨fun h => h.elim id (ht b hb), Or.inl⟩

/-- One turn of the loop of `rehash`. -/
theorem moveBucket_spec (hc : BucketCount count) (hh : Holds count size filled cells)
    (ht : Tidy cells) (hroom : size < count) (hp : b.present = true) (hx : b.entry = some x) :
    ∃ cells' filled', moveBucket count cells b = .ok cells' ∧
      Holds count (size + 1) filled' cells' ∧ Tidy cells' ∧
      items cells' = (b.hash, x) ::ₘ items cells := by
  obtain ⟨m, hm, hbusy, ⟨c, hcm, hpc⟩, hplace⟩ := place_spec hc b.hash hh hroom
  have hcol : c.collision = false := by
    by_contra hcol
    rw [ht c (mem_of_getElem? hcm) (by simpa using hcol)] at hpc
    cases hpc
  obtain ⟨hh', hitems⟩ := hh.insert hc hm hbusy hcm hpc x
  rw [hcol] at hh' hitems
  refine ⟨_, _, ?_, hh', ?_, hitems⟩
  · simp only [moveBucket, if_pos hp, hplace, ok_bind, hx]
  · intro d hd hdcol
    rcases mem_or_eq_of_mem_set hd with hmem | rfl
    · exact ht.mark hbusy d hmem hdcol
    · rfl

/-- **All entries are moved**, as long as there is room for them. -/
theorem moveAll_spec (hc : BucketCount count) {from_ : List (Bucket α)}
    (hent : ∀ b ∈ from_, b.present = true → b.entry.isSome = true)
    (hh : Holds count size filled cells) (ht : Tidy cells)
    (hroom : size + from_.countP Bucket.present < count) :
    ∃ cells' filled', from_.foldlM (moveBucket count) cells = .ok cells' ∧
      Holds count (size + from_.countP Bucket.present) filled' cells' ∧ Tidy cells' ∧
      items cells' = items from_ + items cells := by
  induction from_ generalizing cells size filled with
  | nil => exact ⟨cells, filled, rfl, hh, ht, by simp [items]⟩
  | cons b from_ ih =>
    have hent' := fun b hb => hent b (mem_cons_of_mem _ hb)
    rw [foldlM_cons]
    by_cases hp : b.present = true
    · rw [countP_cons_of_pos hp] at hroom ⊢
      obtain ⟨x, hx⟩ := Option.isSome_iff_exists.mp (hent b mem_cons_self hp)
      obtain ⟨cells₁, filled₁, hmove, hh₁, ht₁, hitems₁⟩ :=
        moveBucket_spec hc hh ht (by omega) hp hx
      obtain ⟨cells', filled', hfold, hh', ht', hitems'⟩ := ih hent' hh₁ ht₁ (by omega)
      refine ⟨cells', filled', ?_, ?_, ht', ?_⟩
      · rw [hmove, ok_bind, hfold]
      · rwa [Nat.add_comm (from_.countP Bucket.present), ← Nat.add_assoc]
      · rw [hitems', hitems₁, items_cons, item_eq hp hx, Option.elim_some,
          Multiset.add_cons, add_assoc, Multiset.singleton_add]
    · rw [countP_cons_of_neg hp] at hroom ⊢
      obtain ⟨cells', filled', hfold, hh', ht', hitems'⟩ := ih hent' hh ht hroom
      refine ⟨cells', filled', ?_, hh', ht', ?_⟩
      · rw [moveBucket, if_neg hp, ok_bind, hfold]
      · rw [hitems', items_cons, item_absent (by simpa using hp), Option.elim_none, zero_add]

end BasicHashtable
