/-
The hash table of `libcutils` (`libcutils/hashmap.c`).

A table is a list of buckets, each a chain of entries; their number is a power of two.  The hash
function and the comparison are given when the table is made, and an entry is found only if
both agree: the full hash codes are compared before the keys.

Keys are compared as values here: the callers never look a key up with the pointer they
stored.  Allocation can fail; then nothing is added, or the table does not grow.

* `put_every` — what is known of all keys stays known.
* `get_congr` — keys that no comparison and no hash distinguishes have the same value.
* `get_put_self`, `get_put_of_ne` — a table with one entry.
-/
import Mathlib.Tactic

open List

namespace Hashmap

variable {κ ν : Type}

/-- An entry of a bucket, with its hash code. -/
structure Entry (κ ν : Type) where
  key : κ
  hash : UInt32
  value : ν
  deriving DecidableEq, Repr

/-- The functions a table is made with. -/
structure Keys (κ : Type) where
  hash : κ → UInt32
  equals : κ → κ → Bool

/-- `struct Hashmap` -/
structure Table (κ ν : Type) where
  buckets : List (List (Entry κ ν))
  size : ℕ
  deriving DecidableEq, Repr

/-- `hashmapHash`, for a string of (unsigned) characters. -/
def hashmapHash (key : List UInt8) : UInt32 :=
  key.foldl (fun h c => h * 31 + c.toUInt32) (UInt32.ofNat key.length)

variable (K : Keys κ)

/-- `hashKey`: the hash code, spread over all bits. -/
def hashKey (key : κ) : UInt32 :=
  let h := K.hash key
  let h := h + ~~~ (h <<< 9)
  let h := h ^^^ (h >>> 14)
  let h := h + (h <<< 4)
  h ^^^ (h >>> 10)

/-- `calculateIndex` -/
def calculateIndex (bucketCount : ℕ) (hash : UInt32) : ℕ := hash.toNat &&& (bucketCount - 1)

/-- `equalKeys`, for an entry and a key with its hash code. -/
def equalKeys (e : Entry κ ν) (key : κ) (hash : UInt32) : Bool :=
  e.hash == hash && K.equals e.key key

/-- `hashmapCreate`, for a number of buckets. -/
def create (bucketCount : ℕ) : Table κ ν := ⟨List.replicate bucketCount [], 0⟩

/-- The loop of `expandIfNecessary`: entries go to the front of their new chain. -/
def rehash (newBucketCount : ℕ) (entries : List (Entry κ ν)) : List (List (Entry κ ν)) :=
  entries.foldl (fun bs e => bs.modify (calculateIndex newBucketCount e.hash) (e :: ·))
    (List.replicate newBucketCount [])

/-- `expandIfNecessary`, which keeps the table if there is no memory. -/
def expandIfNecessary (memory : Bool) (m : Table κ ν) : Table κ ν :=
  if m.buckets.length * 3 / 4 < m.size ∧ memory then
    { m with buckets := rehash (2 * m.buckets.length) m.buckets.flatten }
  else m

/-- The memory `hashmapPut` finds, for an entry and for more buckets. -/
structure Memory where
  entry : Bool
  buckets : Bool
  deriving DecidableEq, Repr

/-- `hashmapPut`. -/
def put (mem : Memory) (key : κ) (value : ν) (m : Table κ ν) : Table κ ν :=
  let hash := hashKey K key
  let index := calculateIndex m.buckets.length hash
  let chain := m.buckets.getD index []
  if chain.any (equalKeys K · key hash) then
    -- the first equal entry is replaced
    let i := chain.findIdx (equalKeys K · key hash)
    { m with buckets := m.buckets.set index (chain.modify i fun e => { e with value := value }) }
  else if mem.entry then
    expandIfNecessary mem.buckets
      ⟨m.buckets.set index (chain ++ [⟨key, hash, value⟩]), m.size + 1⟩
  else m

/-- `hashmapGet`. -/
def get (key : κ) (m : Table κ ν) : Option ν :=
  let hash := hashKey K key
  let chain := m.buckets.getD (calculateIndex m.buckets.length hash) []
  (chain.find? (equalKeys K · key hash)).map Entry.value

variable {K}

theorem get_congr {a b : κ} (hhash : hashKey K a = hashKey K b)
    (hequals : ∀ x, K.equals x a = K.equals x b) (m : Table κ ν) : get K a m = get K b m := by
  have hkeys : ∀ e : Entry κ ν, equalKeys K e a (hashKey K b) = equalKeys K e b (hashKey K b) :=
    fun e => by rw [equalKeys, equalKeys, hequals]
  simp only [get, hhash, hkeys]

/-- Every key of the table has a property. -/
def Every (Q : κ → Prop) (m : Table κ ν) : Prop := ∀ chain ∈ m.buckets, ∀ e ∈ chain, Q e.key

theorem create_every (Q : κ → Prop) (n : ℕ) : Every Q (create n : Table κ ν) := by
  intro chain hc e he
  rw [eq_of_mem_replicate hc] at he
  exact absurd he not_mem_nil

variable {Q : κ → Prop} {n : ℕ}

theorem rehash_every {l : List (Entry κ ν)} (h : ∀ e ∈ l, Q e.key) :
    ∀ chain ∈ rehash n l, ∀ e ∈ chain, Q e.key := by
  have hfold : ∀ (l : List (Entry κ ν)) (bs : List (List (Entry κ ν))), (∀ e ∈ l, Q e.key) →
      (∀ chain ∈ bs, ∀ e ∈ chain, Q e.key) →
      ∀ chain ∈ l.foldl (fun bs e => bs.modify (calculateIndex n e.hash) (e :: ·)) bs,
        ∀ e ∈ chain, Q e.key := by
    intro l
    induction l with
    | nil => exact fun bs _ hbs => hbs
    | cons e l ih =>
      intro bs hl hbs
      refine ih _ (fun e' he' => hl e' (mem_cons_of_mem _ he')) fun chain hc e' he' => ?_
      obtain ⟨i, hi⟩ := mem_iff_getElem?.mp hc
      rw [getElem?_modify] at hi
      obtain ⟨chain', hc', rfl⟩ := Option.map_eq_some_iff.mp hi
      have hold := hbs chain' (mem_of_getElem? hc')
      split_ifs at he'
      · rcases mem_cons.mp he' with rfl | he'
        · exact hl _ mem_cons_self
        · exact hold e' he'
      · exact hold e' he'
  refine hfold l _ h fun chain hc e he => ?_
  rw [eq_of_mem_replicate hc] at he
  exact absurd he not_mem_nil

theorem put_every {m : Table κ ν} (hm : Every Q m) {key : κ} (hkey : Q key) (mem : Memory)
    (value : ν) : Every Q (put K mem key value m) := by
  set index := calculateIndex m.buckets.length (hashKey K key)
  have hchain : ∀ e ∈ m.buckets.getD index [], Q e.key := by
    intro e he
    rw [getD_eq_getElem?_getD] at he
    cases hi : m.buckets[index]? with
    | none =>
      rw [hi] at he
      exact absurd he not_mem_nil
    | some chain =>
      rw [hi] at he
      exact hm chain (mem_of_getElem? hi) e he
  -- the table with another chain
  have hset : ∀ chain' : List (Entry κ ν), (∀ e ∈ chain', Q e.key) →
      ∀ chain ∈ m.buckets.set index chain', ∀ e ∈ chain, Q e.key := by
    intro chain' h' chain hc
    rcases mem_or_eq_of_mem_set hc with hc | rfl
    · exact hm chain hc
    · exact h'
  unfold put
  dsimp only
  split_ifs
  · refine hset _ fun e he => ?_
    obtain ⟨i, hi⟩ := mem_iff_getElem?.mp he
    rw [getElem?_modify] at hi
    obtain ⟨e', he', rfl⟩ := Option.map_eq_some_iff.mp hi
    have hold := hchain e' (mem_of_getElem? he')
    split_ifs <;> exact hold
  · have hadd := hset (m.buckets.getD index [] ++ [⟨key, hashKey K key, value⟩]) fun e he => by
      rcases mem_append.mp he with he | he
      · exact hchain e he
      · rw [mem_singleton.mp he]
        exact hkey
    rw [expandIfNecessary]
    split_ifs
    · refine rehash_every fun e he => ?_
      obtain ⟨chain, hc, he⟩ := mem_flatten.mp he
      exact hadd chain hc e he
    · exact hadd
  · exact hm

theorem get_eq_none {m : Table κ ν} (hm : Every Q m) {key : κ}
    (hkey : ∀ x, Q x → K.equals x key = false) : get K key m = none := by
  rw [get, Option.map_eq_none_iff, find?_eq_none]
  intro e he
  rw [getD_eq_getElem?_getD] at he
  cases hi : m.buckets[calculateIndex m.buckets.length (hashKey K key)]? with
  | none =>
    rw [hi] at he
    exact absurd he not_mem_nil
  | some chain =>
    rw [hi] at he
    rw [equalKeys, hkey e.key (hm chain (mem_of_getElem? hi) e he), Bool.and_false]
    exact Bool.false_ne_true

theorem calculateIndex_lt (hn : 0 < n) (hash : UInt32) : calculateIndex n hash < n := by
  have := Nat.and_le_right (n := hash.toNat) (m := n - 1)
  unfold calculateIndex
  omega

/-- The table after the first entry. -/
theorem put_create (hn : 2 ≤ n) (a : κ) (v : ν) (mem : Memory) (hmem : mem.entry = true) :
    put K mem a v (create n) =
      ⟨(List.replicate n []).set (calculateIndex n (hashKey K a)) [⟨a, hashKey K a, v⟩], 1⟩ := by
  have hlt := calculateIndex_lt (show 0 < n by omega) (hashKey K a)
  have hempty : (List.replicate n ([] : List (Entry κ ν))).getD
      (calculateIndex n (hashKey K a)) [] = [] := by
    rw [getD_eq_getElem?_getD, getElem?_replicate, if_pos hlt]
    rfl
  have hsize : ¬ n * 3 / 4 < 1 := by omega
  simp only [put, create, length_replicate, hempty, any_nil, Bool.false_eq_true, if_false,
    hmem, if_true, nil_append, expandIfNecessary, length_set, hsize, false_and,
    Nat.zero_add]

theorem get_put_self (hn : 2 ≤ n) (a : κ) (v : ν) (mem : Memory) (hmem : mem.entry = true)
    (hrefl : K.equals a a = true) : get K a (put K mem a v (create n)) = some v := by
  have hlt := calculateIndex_lt (show 0 < n by omega) (hashKey K a)
  rw [put_create hn a v mem hmem]
  simp only [get, length_set, length_replicate, getD_eq_getElem?_getD]
  rw [getElem?_set_self (by rw [length_replicate]; exact hlt)]
  simp [equalKeys, hrefl]

theorem get_put_of_ne (hn : 2 ≤ n) {a b : κ} (v : ν) (mem : Memory) (hmem : mem.entry = true)
    (h : hashKey K a ≠ hashKey K b) :
    get K b (put K mem a v (create n)) = none := by
  rw [put_create hn a v mem hmem]
  simp only [get, length_set, length_replicate, getD_eq_getElem?_getD]
  rw [getElem?_set, getElem?_replicate]
  split_ifs <;> simp [equalKeys, h]

end Hashmap
