/-
The functions of a hash table in memory.

A table is one of many owners of buffers: `Holder T others h t` says that the pointers to
buffers are the table's and `others`, that every count is right, and that the table's fields
and buckets fit together (`Good`).  Every function of `BasicHashtable` is given a lemma in
the form: from a holder to a holder, and nothing changes for the others.

`add` and `rehash` do not always come to an end.  There are four ways for it to go wrong:
the table of primes ends (`bucketsFor`), the size of the new buckets wraps around
(`BytesFit`), the entry is read from buckets that are gone, and `add` goes on without
buckets after a `rehash` that had no entries to move.
-/
import AndroidSystem.HashtableChains

open CInt CountedHeap SharedBuffer List

namespace BasicHashtable

open Heap

variable {α κ : Type} {T : EntryType α κ} {h h' : Memory α} {others ptrs : List (Option ℕ)}
  {t : Table} {a : ℕ} {cells cells' : List (Bucket α)} {b : Bucket α} {x : α}
  {hash count i m size filled minimumCapacity : ℕ} {loadFactor : ℚ}

/-! ### Tables and their buckets -/

/-- The buckets of a table. -/
def bucketsOf (h : Memory α) (t : Table) : List (Bucket α) :=
  match t.mBuckets with
  | none => []
  | some a =>
    match h.get a with
    | none => []
    | some b => b.cells

/-- The buffer at `a` has the buckets `cells`. -/
def Stored (T : EntryType α κ) (h : Memory α) (a : ℕ) (cells : List (Bucket α)) : Prop :=
  ∃ b, h.get a = some b ∧ Fits (layout T) b ∧ b.cells = cells

theorem Stored.agree (hs : Stored T h a cells) (hag : Agree h h' ptrs) (hmem : some a ∈ ptrs) :
    Stored T h' a cells := by
  obtain ⟨b, hb, hfits, hcells⟩ := hs
  obtain ⟨b', hb', hsize, hcells'⟩ := hag a hmem b hb
  exact ⟨b', hb', ⟨by rw [hcells', hsize, hfits.length], hsize ▸ hfits.size⟩, hcells'.trans hcells⟩

theorem Stored.bucketsOf (hs : Stored T h a cells) (ht : t.mBuckets = some a) :
    bucketsOf h t = cells := by
  obtain ⟨b, hb, -, hcells⟩ := hs
  simp only [BasicHashtable.bucketsOf, ht, hb, hcells]

/-- The fields of a table and its buckets fit together. -/
structure Good (T : EntryType α κ) (h : Memory α) (t : Table) : Prop where
  sizes : Sizes t.mBucketCount t.mCapacity t.mLoadFactor
  room : t.mFilledBuckets ≤ t.mCapacity
  buckets : t.mBuckets = none ∧ t.mSize = 0 ∧ t.mFilledBuckets = 0 ∨
    ∃ a cells, t.mBuckets = some a ∧ Stored T h a cells ∧
      Holds t.mBucketCount t.mSize t.mFilledBuckets cells

theorem Good.agree (hg : Good T h t) (hag : Agree h h' ptrs) (hmem : t.mBuckets ∈ ptrs) :
    Good T h' t ∧ bucketsOf h' t = bucketsOf h t := by
  rcases hg.buckets with ⟨h0, hsize, hfilled⟩ | ⟨a, cells, ha, hs, hh⟩
  · exact ⟨⟨hg.sizes, hg.room, Or.inl ⟨h0, hsize, hfilled⟩⟩, by simp only [bucketsOf, h0]⟩
  · have hs' := hs.agree hag (ha ▸ hmem)
    exact ⟨⟨hg.sizes, hg.room, Or.inr ⟨a, cells, ha, hs', hh⟩⟩,
      (hs'.bucketsOf ha).trans (hs.bucketsOf ha).symm⟩

/-- Table `t` is one owner of buffers, and `others` are the pointers of the others. -/
structure Holder (T : EntryType α κ) (others : List (Option ℕ)) (h : Memory α) (t : Table) :
    Prop where
  counted : Counted h (t.mBuckets :: others)
  failing : h.failing = []
  good : Good T h t

/-- The buffer at `a` has no other owner. -/
abbrev Owned (T : EntryType α κ) := SharedBuffer.Owned (layout T)

theorem stored_of_owned (ho : Owned T others h a cells) : Stored T h a cells := by
  obtain ⟨b, hs, hfits, hcells⟩ := ho.sole
  exact ⟨b, hs.get, hfits, hcells⟩

theorem holder_of_owned (ho : Owned T others h a cells) (ha : t.mBuckets = some a)
    (hs : Sizes t.mBucketCount t.mCapacity t.mLoadFactor)
    (hroom : t.mFilledBuckets ≤ t.mCapacity)
    (hh : Holds t.mBucketCount t.mSize t.mFilledBuckets cells) : Holder T others h t := by
  obtain ⟨b, hsole, -, -⟩ := ho.sole
  exact ⟨ha ▸ hsole.counted, ho.failing, hs, hroom, Or.inr ⟨a, cells, ha, stored_of_owned ho, hh⟩⟩

/-- A holder without buckets. -/
theorem holder_none (hc : Counted h others) (hf : h.failing = []) (ht : t.mBuckets = none)
    (hs : Sizes t.mBucketCount t.mCapacity t.mLoadFactor) (hsize : t.mSize = 0)
    (hfilled : t.mFilledBuckets = 0) : Holder T others h t :=
  ⟨ht ▸ Counted.null_iff.mpr hc, hf, hs, by omega, Or.inl ⟨ht, hsize, hfilled⟩⟩

/-- An array of `n` buckets fits the memory. -/
def BytesFit (T : EntryType α κ) (n : ℕ) : Prop := headerSize + n * T.bucketSize < 2 ^ 32

theorem layout_pos (T : EntryType α κ) : 0 < (layout T).cellSize := Nat.succ_pos _

theorem Stored.bytesFit (hs : Stored T h a cells) : BytesFit T cells.length := by
  obtain ⟨b, -, hfits, rfl⟩ := hs
  have hle := Nat.div_mul_le_self b.size (layout T).cellSize
  have hsize := hfits.size
  rw [BytesFit, hfits.length]
  change headerSize + b.size / (layout T).cellSize * (layout T).cellSize < 2 ^ 32
  omega

/-! ### Arrays of buckets -/

/-- A bucket of a new array. -/
def newBucket : Bucket α := ⟨false, false, 0, none⟩

theorem allocateBuckets_spec (hc : Counted h ptrs) (hf : h.failing = [])
    (hn : BytesFit T count) :
    ∃ h' a, allocateBuckets T h count = .ok (h', a) ∧
      Owned T ptrs h' a (List.replicate count newBucket) ∧ Agree h h' ptrs ∧
      ∀ a', h.get a' ≠ none → h'.get a' = h.get a' := by
  have hsize : u32 (count * T.bucketSize) = count * (layout T).cellSize :=
    u32_of_lt (lt_of_le_of_lt (Nat.le_add_left _ _) hn)
  have halloc : alloc (layout T) h (count * (layout T).cellSize) =
      .ok (h.new (blank (layout T) (count * (layout T).cellSize)), some h.fresh) := alloc_eq hf hn
  have ho : Owned T ptrs (h.new (blank (layout T) (count * (layout T).cellSize))) h.fresh
      (List.replicate count (layout T).raw) := by
    obtain ⟨h', a', heq, ho, -⟩ := SharedBuffer.Owned.alloc (layout_pos T) hc hf hn
    rw [halloc] at heq
    cases heq
    exact ho
  obtain ⟨b, hs, -, hcells⟩ := ho.sole
  have hlen : ¬ b.cells.length < count := by
    rw [hcells, length_replicate]
    exact lt_irrefl _
  have hreset : b.cells.map Bucket.reset = List.replicate count newBucket := by
    rw [hcells, map_replicate]
    rfl
  obtain ⟨ho', hag'⟩ := ho.put hs.get (l := List.replicate count newBucket) (by simp)
  refine ⟨_, _, ?_, ho', (Agree.new h _ ptrs).trans hag', fun a' ha' => ?_⟩
  · simp only [allocateBuckets, hsize, halloc, ok_bind, deref_eq hs.get, if_neg hlen, hreset]
  · obtain ⟨b', hb'⟩ := Option.ne_none_iff_exists'.mp ha'
    have hne := ne_fresh hb'
    rw [get_put_of_ne (Ne.symm hne), get_new_of_ne hne]

/-- If the size wraps around, buckets are written outside of the memory. -/
theorem allocateBuckets_wraps (hf : h.failing = []) (hn : ¬ BytesFit T count) :
    allocateBuckets T h count = .error .undefined := by
  by_cases hfit : headerSize + u32 (count * T.bucketSize) < 2 ^ 32
  · have hwrap : 2 ^ 32 ≤ count * T.bucketSize := by
      by_contra hlt
      rw [u32_of_lt (by omega)] at hfit
      exact hn hfit
    have hlt : u32 (count * T.bucketSize) / T.bucketSize < count := by
      have hpos : 0 < T.bucketSize := layout_pos T
      rw [Nat.div_lt_iff_lt_mul hpos]
      exact (u32_lt _).trans_le hwrap
    have hshort : (blank (layout T) (u32 (count * T.bucketSize))).cells.length < count := by
      simpa [blank, layout] using hlt
    simp only [allocateBuckets, alloc_eq (L := layout T) hf hfit, ok_bind,
      deref_eq (get_new_self h _), if_pos hshort]
  · have hreq : alloc (layout T) h (u32 (count * T.bucketSize)) = .error .undefined := by
      rw [alloc, request, if_pos]
      exact not_lt.mp hfit
    rw [allocateBuckets, hreq]
    rfl

/-- An owner goes; the buckets are gone if there is no other. -/
theorem releaseBuckets_spec (hc : Counted h (some a :: others)) (hf : h.failing = []) :
    ∃ h', releaseBuckets T h a = .ok h' ∧ Counted h' others ∧ Agree h h' others ∧
      h'.failing = [] ∧ (∀ a', a' ≠ a → h'.get a' = h.get a') ∧
      ∀ b, h.get a = some b → b.refs = 1 → h'.get a = none := by
  obtain ⟨b, hb⟩ := hc.alive mem_cons_self
  by_cases h1 : b.refs = 1
  · -- the last owner: the entries are destroyed, and the memory is freed
    have hget := get_put_self hb (some { b with refs := 0 })
    have hget' := get_put_self hb
      (some { b with refs := 0, cells := destroyCells T b.cells })
    refine ⟨h.put a none, ?_, hc.free hb h1, Agree.put (hc.notMem hb h1) _, hf,
      fun a' hne => get_put_of_ne (Ne.symm hne) _, fun _ _ _ => get_put_self hb _⟩
    simp only [releaseBuckets, release, deref_eq hb, ok_bind, if_pos h1, if_true,
      deref_eq hget, put_put, dealloc, deref_eq hget', ne_eq, not_true_eq_false,
      if_false]
  · refine ⟨_, ?_, hc.release hb h1, Agree.recount hb _ others, hf,
      fun a' hne => get_put_of_ne (Ne.symm hne) _, fun b' hb' h1' => ?_⟩
    · simp only [releaseBuckets, release, deref_eq hb, ok_bind, if_neg h1]
    · obtain rfl := Option.mem_unique hb hb'
      exact absurd h1' h1

/-- Another owner of other buckets goes. -/
theorem owned_release {a' : ℕ} (ho : Owned T (some a :: others) h a' cells) :
    ∃ h', releaseBuckets T h a = .ok h' ∧ Owned T others h' a' cells ∧ Agree h h' others ∧
      ∀ b, h.get a = some b → b.refs = 1 → h'.get a = none := by
  obtain ⟨b, hs, hfits, hcells⟩ := ho.sole
  obtain ⟨h', hrel, hc, hag, hf, hrest, hgone⟩ := releaseBuckets_spec (T := T)
    (hs.counted.perm (List.Perm.swap _ _ _)) ho.failing
  have hne : a' ≠ a := fun heq => by
    subst heq
    exact hs.counted.notMem hs.get hs.refs mem_cons_self
  refine ⟨h', hrel, ⟨⟨b, ⟨?_, hs.refs, hc⟩, hfits, hcells⟩, hf⟩, hag.tail, hgone⟩
  rw [hrest a' hne, hs.get]

theorem Holder.dispose (hh : Holder T others h t) :
    ∃ h', dispose T h t = .ok h' ∧ Counted h' others ∧ Agree h h' others ∧ h'.failing = [] := by
  have hc := hh.counted
  rcases ht : t.mBuckets with _ | a
  · rw [ht, Counted.null_iff] at hc
    exact ⟨h, by simp only [BasicHashtable.dispose, ht], hc, Agree.refl h others, hh.failing⟩
  · rw [ht] at hc
    obtain ⟨h', hrel, hc', hag, hf, -⟩ := releaseBuckets_spec (T := T) hc hh.failing
    exact ⟨h', by simp only [BasicHashtable.dispose, ht, hrel], hc', hag, hf⟩

/-- A copy shares the buckets. -/
theorem copyOf_spec (hc : Counted h ptrs) (hf : h.failing = []) (hg : Good T h t)
    (hmem : t.mBuckets ∈ ptrs) :
    ∃ h', copyOf h t = .ok (h', t) ∧ Holder T ptrs h' t ∧ Agree h h' ptrs ∧
      bucketsOf h' t = bucketsOf h t := by
  rcases ht : t.mBuckets with _ | a
  · exact ⟨h, by simp only [copyOf, ht], ⟨ht ▸ Counted.null_iff.mpr hc, hf, hg⟩,
      Agree.refl h ptrs, rfl⟩
  · obtain ⟨h', hacq, hc', hag, hf'⟩ := acquire_eq hc (ht ▸ hmem)
    obtain ⟨hg', hbuckets⟩ := hg.agree hag hmem
    refine ⟨h', ?_, ⟨ht ▸ hc', hf'.trans hf, hg'⟩, hag, hbuckets⟩
    simp only [copyOf, ht, hacq, ok_bind]

theorem keeps_copyBucket (c : Bucket α) : Keeps fun b => copyBucket b c := by
  intro b
  refine ⟨rfl, rfl, rfl, fun hp => ?_⟩
  simp [copyBucket, hp]

/-- **`edit`** makes the buckets the table's own; it copies them if they are not. -/
theorem edit_buckets (hc : Counted h (some a :: others)) (hf : h.failing = [])
    (hs : Stored T h a cells) (ht : t.mBuckets = some a) (hlen : cells.length = t.mBucketCount) :
    ∃ h' a' g, edit T h t = .ok (h', { t with mBuckets := some a' }) ∧ Keeps g ∧
      Owned T others h' a' (cells.map g) ∧ Agree h h' others ∧
      ∀ b, h.get a = some b → b.refs = 1 → h' = h ∧ a' = a ∧ cells.map g = cells := by
  have hbytes := hs.bytesFit
  obtain ⟨b, hb, hfits, rfl⟩ := hs
  by_cases h1 : b.refs = 1
  · refine ⟨h, a, id, ?_, fun b => ⟨rfl, rfl, rfl, fun _ => rfl⟩, ?_, Agree.refl h others,
      fun _ _ _ => ⟨rfl, rfl, map_id _⟩⟩
    · simp only [edit, ht, deref_eq hb, ok_bind, if_pos h1]
      rw [← ht]
    · rw [map_id]
      exact ⟨⟨b, ⟨hb, h1, hc⟩, hfits, rfl⟩, hf⟩
  · obtain ⟨h₁, a', halloc, ho, hag₁, hold⟩ := allocateBuckets_spec (T := T) hc hf hbytes
    obtain ⟨b', hs', -, hcells'⟩ := ho.sole
    have hb₁ : h₁.get a = some b := (hold a (by simp [hb])).trans hb
    have hzip : List.zipWith copyBucket b.cells b'.cells =
        b.cells.map fun c => copyBucket c newBucket := by
      rw [hcells']
      exact ext_getElem (by simp) (by simp)
    obtain ⟨ho₂, hag₂⟩ := ho.put hs'.get (l := b.cells.map fun c => copyBucket c newBucket)
      (by simp)
    obtain ⟨h₃, hrel, ho₃, hag₃, -⟩ := owned_release ho₂
    refine ⟨h₃, a', _, ?_, keeps_copyBucket newBucket, ho₃,
      (hag₁.tail.trans hag₂.tail).trans hag₃, fun b₀ hb₀ h1' => ?_⟩
    · rw [hlen] at halloc
      simp only [edit, ht, deref_eq hb, ok_bind, if_neg h1, clone, halloc, copyBuckets,
        deref_eq hb₁, deref_eq hs'.get, hzip, hrel]
    · obtain rfl := Option.mem_unique hb hb₀
      exact absurd h1' h1

/-! ### `clear` and `removeAt` -/

theorem clear_spec (hh : Holder T others h t) :
    ∃ h' t', clear T h t = .ok (h', t') ∧ Holder T others h' t' ∧ Agree h h' others ∧
      items (bucketsOf h' t') = 0 := by
  obtain ⟨hc, hf, hg⟩ := hh
  rcases hg.buckets with ⟨h0, hsize, hfilled⟩ | ⟨a, cells, ha, hs, hholds⟩
  · refine ⟨h, t, by simp only [clear, h0], ⟨hc, hf, hg⟩, Agree.refl h others, ?_⟩
    simp only [bucketsOf, h0]
    rfl
  rw [ha] at hc
  have hle := hholds.size_le
  by_cases hfilled : t.mFilledBuckets = 0
  · have hsize : t.mSize = 0 := by omega
    have ht : ({ t with mSize := 0 } : Table) = t := by rw [← hsize]
    refine ⟨h, t, ?_, ⟨ha ▸ hc, hf, hg⟩, Agree.refl h others, ?_⟩
    · simp only [clear, ha, if_pos hfilled]
      rw [← ha, ht]
    · rw [hs.bucketsOf ha, ← Multiset.card_eq_zero, hholds.card_items, hsize]
  · obtain ⟨b, hb, hfits, rfl⟩ := hs
    by_cases h1 : b.refs = 1
    · have ho : Owned T others h a b.cells := ⟨⟨b, ⟨hb, h1, hc⟩, hfits, rfl⟩, hf⟩
      have hlen : ((destroyCells T b.cells).map Bucket.reset).length = b.cells.length := by
        rw [length_map, destroyCells]
        split <;> simp
      obtain ⟨ho', hag⟩ := ho.put hb hlen
      obtain ⟨hholds', hitems⟩ := Holds.vacant (hlen.trans hholds.length) fun c hc' => by
        obtain ⟨c', -, rfl⟩ := mem_map.mp hc'
        exact ⟨rfl, rfl⟩
      refine ⟨_, { t with mFilledBuckets := 0, mSize := 0 }, ?_,
        holder_of_owned ho' ha hg.sizes (Nat.zero_le _) hholds', hag, ?_⟩
      · simp only [clear, ha, if_neg hfilled, deref_eq hb, ok_bind, if_pos h1]
      · have hst := (stored_of_owned ho').bucketsOf
          (t := { t with mFilledBuckets := 0, mSize := 0 }) ha
        rw [hst, hitems]
    · obtain ⟨h', hrel, hc', hag, hf', -⟩ := releaseBuckets_spec (T := T) hc hf
      refine ⟨h', { t with mBuckets := none, mFilledBuckets := 0, mSize := 0 }, ?_,
        holder_none hc' hf' rfl hg.sizes rfl rfl, hag, rfl⟩
      simp only [clear, ha, if_neg hfilled, deref_eq hb, ok_bind, if_neg h1, hrel]

/-- **`removeAt`** of an entry. -/
theorem removeAt_spec (hh : Holder T others h t) (hb : (bucketsOf h t)[i]? = some b)
    (hp : b.present = true) :
    ∃ h' t' x, removeAt T h t i = .ok (h', t') ∧ Holder T others h' t' ∧ Agree h h' others ∧
      b.item = some x ∧ items (bucketsOf h t) = x ::ₘ items (bucketsOf h' t') := by
  obtain ⟨hc, hf, hg⟩ := hh
  rcases hg.buckets with ⟨h0, -, -⟩ | ⟨a, cells, ha, hs, hholds⟩
  · simp [bucketsOf, h0] at hb
  rw [hs.bucketsOf ha] at hb ⊢
  obtain ⟨h₁, a', g, hedit, hg', ho, hag₁, -⟩ :=
    edit_buckets (ha ▸ hc) hf hs ha hholds.length
  obtain ⟨hholds₁, hitems₁⟩ := hholds.map hg'
  obtain ⟨blk, hsole, -, hcells⟩ := ho.sole
  obtain ⟨x, hx⟩ := Option.isSome_iff_exists.mp (hholds.entries b (mem_of_getElem? hb) hp)
  obtain ⟨-, hpg, hhg, hxg⟩ := hg' b
  have hb₁ : (cells.map g)[i]? = some (g b) := by rw [getElem?_map, hb, Option.map_some]
  have hentry : (g b).entry = some x := (hxg hp).trans hx
  obtain ⟨hholds₂, hitems₂⟩ := hholds₁.remove hb₁ (hpg.trans hp) hentry
    (if T.trivialDtor then (g b).entry else none)
  obtain ⟨ho₂, hag₂⟩ := ho.put hsole.get
    (l := (cells.map g).set i ⟨(g b).collision, false, (g b).hash,
      if T.trivialDtor then (g b).entry else none⟩) (by simp)
  have hroom := hg.room
  refine ⟨_, { t with
      mBuckets := some a'
      mFilledBuckets := if (g b).collision then t.mFilledBuckets else t.mFilledBuckets - 1
      mSize := t.mSize - 1 }, (b.hash, x), ?_, holder_of_owned ho₂ rfl hg.sizes ?_ hholds₂,
    hag₁.trans hag₂, Bucket.item_eq hp hx, ?_⟩
  · simp only [removeAt, hedit, ok_bind, require, deref_eq hsole.get, bucketAt, hcells, hb₁]
  · change (if (g b).collision = true then t.mFilledBuckets else t.mFilledBuckets - 1) ≤
      t.mCapacity
    split <;> omega
  · rw [(stored_of_owned ho₂).bucketsOf rfl, ← hitems₁, hitems₂, hhg]

/-! ### `rehash` -/

theorem capacity_max (minimumCapacity size : ℕ) :
    (if minimumCapacity < size then size else minimumCapacity) = max minimumCapacity size := by
  split <;> omega

/-- What `rehash` needs: a prime for the capacity and, if entries are moved, memory for them. -/
def RehashFits (T : EntryType α κ) (t : Table) (minimumCapacity : ℕ) (loadFactor : ℚ) : Prop :=
  ∃ n ∈ bucketsFor (max minimumCapacity t.mSize) loadFactor,
    ¬ (n = t.mBucketCount ∧ capacityOf n loadFactor = t.mCapacity) → t.mBuckets ≠ none →
      t.mSize ≠ 0 → BytesFit T n

section

variable (hf : h.failing = []) (ht : t.mBuckets = some a) (hlf : 0 < loadFactor ∧ loadFactor ≤ 1)
  (hn : bucketsFor (max minimumCapacity t.mSize) loadFactor = some count)
  (hne : ¬ (count = t.mBucketCount ∧ capacityOf count loadFactor = t.mCapacity))

include hf ht hlf hn hne

/-- **`rehash`** of a table with entries, to other sizes. -/
theorem rehash_moves (hc : Counted h (some a :: others)) (hs : Stored T h a cells)
    (hh : Holds t.mBucketCount t.mSize t.mFilledBuckets cells) (h0 : t.mSize ≠ 0)
    (hfit : BytesFit T count) :
    ∃ h' a' cells', rehash T h t minimumCapacity loadFactor = .ok (h',
        ⟨capacityOf count loadFactor, loadFactor, t.mSize, t.mSize, count, some a'⟩) ∧
      Owned T others h' a' cells' ∧ Agree h h' others ∧ Holds count t.mSize t.mSize cells' ∧
      items cells' = items cells ∧ ∀ b, h.get a = some b → b.refs = 1 → h'.get a = none := by
  obtain ⟨hdet, hsizes, hmin⟩ := determineCapacity_spec hlf hn
  obtain ⟨b, hb, hfits, rfl⟩ := hs
  obtain ⟨h₁, a', halloc, ho, hag₁, hold⟩ := allocateBuckets_spec (T := T) hc hf hfit
  have hb₁ : h₁.get a = some b := (hold a (by simp [hb])).trans hb
  obtain ⟨b', hs', -, hcells'⟩ := ho.sole
  -- the entries are moved to buckets that are all free
  obtain ⟨hfresh, hitems₀⟩ := Holds.fresh (α := α) count none
  have htidy : Tidy (List.replicate count (newBucket : Bucket α)) := fun c hc' hcol => by
    rw [eq_of_mem_replicate hc'] at hcol
    cases hcol
  have hlt := hsizes.capacity_lt
  obtain ⟨cells', filled', hmove, hh', ht', hitems'⟩ := moveAll_spec hsizes.buckets hh.entries
    hfresh htidy (by rw [← hh.size]; omega)
  rw [← hh.size, Nat.zero_add] at hh'
  obtain rfl := ht'.filled_eq hh'
  obtain ⟨ho₂, hag₂⟩ := ho.put hs'.get (l := cells')
    (by rw [hh'.length, length_replicate])
  obtain ⟨h₃, hrel, ho₃, hag₃, hgone⟩ := owned_release ho₂
  have hne' : a' ≠ a := fun heq => by
    subst heq
    exact hs'.counted.notMem hs'.get hs'.refs mem_cons_self
  refine ⟨h₃, a', cells', ?_, ho₃, (hag₁.tail.trans hag₂.tail).trans hag₃, hh', ?_,
    fun c hc' h1 => ?_⟩
  · have htake : b.cells.take t.mBucketCount = b.cells := by
      rw [← hh.length, take_length]
    have hmove' : b.cells.foldlM (moveBucket count) b'.cells = .ok cells' := by
      rw [hcells']
      exact hmove
    simp only [rehash, capacity_max, hdet, ok_bind, if_neg hne, ht, if_neg h0, moveBuckets, halloc,
      deref_eq hb₁, deref_eq hs'.get, htake, hmove', hrel]
  · have hzero : items (List.replicate count (newBucket : Bucket α)) = 0 := hitems₀
    rw [hitems']
    exact (congrArg _ hzero).trans (add_zero _)
  · obtain rfl := Option.mem_unique hb hc'
    exact hgone b ((get_put_of_ne hne' _).trans hb₁) h1

/-- A table that has no entries gives its buckets up. -/
theorem rehash_empty (hc : Counted h (some a :: others)) (h0 : t.mSize = 0) :
    ∃ h', rehash T h t minimumCapacity loadFactor = .ok (h',
        ⟨capacityOf count loadFactor, loadFactor, t.mSize, t.mSize, count, none⟩) ∧
      Counted h' others ∧ Agree h h' others ∧ h'.failing = [] := by
  obtain ⟨hdet, -, -⟩ := determineCapacity_spec hlf hn
  obtain ⟨h', hrel, hc', hag, hf', -⟩ := releaseBuckets_spec (T := T) hc hf
  refine ⟨h', ?_, hc', hag, hf'⟩
  simp only [rehash, capacity_max, hdet, ok_bind, if_neg hne, ht, if_pos h0, hrel]

/-- The size of the new buckets wraps around. -/
theorem rehash_wraps (h0 : t.mSize ≠ 0) (hfit : ¬ BytesFit T count) :
    rehash T h t minimumCapacity loadFactor = .error .undefined := by
  obtain ⟨hdet, -, -⟩ := determineCapacity_spec hlf hn
  simp only [rehash, capacity_max, hdet, ok_bind, if_neg hne, ht, if_neg h0, moveBuckets,
    allocateBuckets_wraps hf hfit]
  rfl

end

/-- There is no prime for the capacity. -/
theorem rehash_large (hlf : 0 < loadFactor ∧ loadFactor ≤ 1)
    (hn : bucketsFor (max minimumCapacity t.mSize) loadFactor = none) :
    rehash T h t minimumCapacity loadFactor = .error .undefined := by
  rw [rehash, capacity_max, determineCapacity_none hlf hn]
  rfl

theorem rehash_spec (hh : Holder T others h t) (hlf : 0 < loadFactor ∧ loadFactor ≤ 1)
    (hfit : RehashFits T t minimumCapacity loadFactor) :
    ∃ h' t', rehash T h t minimumCapacity loadFactor = .ok (h', t') ∧ Holder T others h' t' ∧
      Agree h h' others ∧ items (bucketsOf h' t') = items (bucketsOf h t) := by
  obtain ⟨hc, hf, hg⟩ := hh
  obtain ⟨n, hn, hbytes⟩ := hfit
  obtain ⟨hdet, hsizes, hmin⟩ := determineCapacity_spec hlf hn
  by_cases hsame : n = t.mBucketCount ∧ capacityOf n loadFactor = t.mCapacity
  · -- only the load factor changes
    have hsizes' : Sizes t.mBucketCount t.mCapacity loadFactor := by
      rw [← hsame.2, ← hsame.1]
      exact hsizes
    refine ⟨h, { t with mLoadFactor := loadFactor }, ?_, ⟨hc, hf, hsizes', hg.room, hg.buckets⟩,
      Agree.refl h others, rfl⟩
    simp only [rehash, capacity_max, hdet, ok_bind, if_pos hsame]
  rcases hg.buckets with ⟨hnone, hsize, hfilled⟩ | ⟨a, cells, ha, hs, hholds⟩
  · refine ⟨h, ⟨capacityOf n loadFactor, loadFactor, t.mSize, t.mFilledBuckets, n, none⟩, ?_,
      holder_none ?_ hf rfl hsizes hsize hfilled, Agree.refl h others, ?_⟩
    · simp only [rehash, capacity_max, hdet, ok_bind, if_neg hsame, hnone]
    · rwa [hnone, Counted.null_iff] at hc
    · simp only [bucketsOf, hnone]
  rw [ha] at hc
  rw [hs.bucketsOf ha]
  by_cases h0 : t.mSize = 0
  · obtain ⟨h', hre, hc', hag, hf'⟩ := rehash_empty (T := T) hf ha hlf hn hsame hc h0
    refine ⟨h', _, hre, holder_none hc' hf' rfl hsizes h0 h0, hag, ?_⟩
    exact (Multiset.card_eq_zero.mp (hholds.card_items.trans h0)).symm
  · obtain ⟨h', a', cells', hre, ho, hag, hholds', hitems, -⟩ := rehash_moves hf ha hlf hn hsame hc
      hs hholds h0 (hbytes hsame (by simp [ha]) h0)
    refine ⟨h', _, hre, holder_of_owned ho rfl hsizes ((le_max_right _ _).trans hmin) hholds', hag,
      ?_⟩
    rw [(stored_of_owned ho).bucketsOf rfl, hitems]

theorem rehash_error (hh : Holder T others h t) (hlf : 0 < loadFactor ∧ loadFactor ≤ 1)
    (hfit : ¬ RehashFits T t minimumCapacity loadFactor) :
    ∃ e, rehash T h t minimumCapacity loadFactor = .error e := by
  refine ⟨.undefined, ?_⟩
  cases hn : bucketsFor (max minimumCapacity t.mSize) loadFactor with
  | none => exact rehash_large hlf hn
  | some n =>
    have hbad : ¬ (¬ (n = t.mBucketCount ∧ capacityOf n loadFactor = t.mCapacity) →
        t.mBuckets ≠ none → t.mSize ≠ 0 → BytesFit T n) := fun h' => hfit ⟨n, hn, h'⟩
    push Not at hbad
    obtain ⟨hne, hbuckets, h0, hbytes⟩ := hbad
    obtain ⟨a, ha⟩ := Option.ne_none_iff_exists'.mp hbuckets
    exact rehash_wraps hh.failing ha hlf hn (by simpa using hne) h0 hbytes

/-! ### `add` -/

variable {src : EntrySource α}

/-- Entry `x` can be read as long as those pointers are there. -/
def Held (ptrs : List (Option ℕ)) (h : Memory α) (x : α) : EntrySource α → Prop
  | .outside y => y = x
  | .inside a i => some a ∈ ptrs ∧
      ∃ blk b, h.get a = some blk ∧ blk.cells[i]? = some b ∧ b.present = true ∧ b.entry = some x

theorem Held.agree (hr : Held ptrs h x src) (hag : Agree h h' ptrs) :
    Held ptrs h' x src := by
  cases src with
  | outside y => exact hr
  | inside a i =>
    obtain ⟨hmem, blk, b, hblk, hb, hp, hx⟩ := hr
    obtain ⟨blk', hblk', -, hcells⟩ := hag a hmem blk hblk
    exact ⟨hmem, blk', b, hblk', hcells ▸ hb, hp, hx⟩

theorem Held.read (hr : Held ptrs h x src) : src.read h = .ok x := by
  cases src with
  | outside y => exact congrArg _ hr
  | inside a i =>
    obtain ⟨-, blk, b, hblk, hb, -, hx⟩ := hr
    simp only [EntrySource.read, deref_eq hblk, ok_bind, bucketAt, hb, require, hx]

/-- The entry is in the buckets of table `t`, which no other table shares. -/
def EntrySource.within (h : Memory α) (t : Table) : EntrySource α → Bool
  | .outside _ => false
  | .inside a _ => t.mBuckets == some a && (h.get a).any (·.refs == 1)

/-- The bucket of a chain, by its number on it, that `add` comes to. -/
def landing (cells : List (Bucket α)) (count hash : ℕ) : Option ℕ :=
  (List.range count).find? fun k => (cells[chain hash count k]?).any (!·.present)

/-- `add` finds the table full: it comes to a bucket that was not in use. -/
def Full (h : Memory α) (t : Table) (hash : ℕ) : Prop :=
  t.mCapacity ≤ t.mFilledBuckets ∧ ∃ k ∈ landing (bucketsOf h t) t.mBucketCount hash,
    ∃ b ∈ (bucketsOf h t)[chain hash t.mBucketCount k]?, b.collision = false

/-- What `add` needs. -/
def AddFits (T : EntryType α κ) (h : Memory α) (t : Table) (hash : ℕ) (src : EntrySource α) :
    Prop :=
  (t.mBuckets = none → BytesFit T t.mBucketCount) ∧
    (Full h t (trimHash hash) → t.mSize ≠ 0 ∧ src.within h t = false ∧
      ∃ n ∈ bucketsFor (2 * t.mCapacity) t.mLoadFactor, BytesFit T n)

theorem landing_eq (hm : m < count)
    (hbusy : ∀ j < m, ∃ b ∈ cells[chain hash count j]?, b.present = true)
    (hfree : ∃ b ∈ cells[chain hash count m]?, b.present = false) :
    landing cells count hash = some m := by
  rw [landing, find?_range_eq_some]
  refine ⟨?_, mem_range.mpr hm, fun j hj => ?_⟩
  · obtain ⟨b, hb, hp⟩ := hfree
    rw [hb]
    simp [hp]
  · obtain ⟨b, hb, hp⟩ := hbusy j hj
    rw [hb]
    simp [hp]

theorem landing_map {g : Bucket α → Bucket α} (hg : Keeps g) (cells : List (Bucket α))
    (count hash : ℕ) : landing (cells.map g) count hash = landing cells count hash := by
  rw [landing, landing]
  congr 1
  funext k
  rw [getElem?_map]
  cases cells[chain hash count k]? with
  | none => rfl
  | some b => simp [(hg b).2.1]

/-- **`add` begins** with buckets of the table's own, in which the entry is still to be found. -/
theorem add_begin (hh : Holder T others h t)
    (hfit : t.mBuckets = none → BytesFit T t.mBucketCount)
    (hsrc : Held (t.mBuckets :: others) h x src) (hash : ℕ) :
    ∃ h₁ a cells, add T h t hash src =
        addLoop T (trimHash hash) src 2 h₁ { t with mBuckets := some a } ∧
      Owned T others h₁ a cells ∧ Agree h h₁ others ∧
      Holds t.mBucketCount t.mSize t.mFilledBuckets cells ∧
      items cells = items (bucketsOf h t) ∧
      (∀ m b, landing cells t.mBucketCount (trimHash hash) = some m →
        cells[chain (trimHash hash) t.mBucketCount m]? = some b →
        (Full h t (trimHash hash) ↔ t.mCapacity ≤ t.mFilledBuckets ∧ b.collision = false)) ∧
      (src.within h t = false ∧ Held others h₁ x src ∨
        src.within h t = true ∧ ∃ i b, src = .inside a i ∧ cells[i]? = some b ∧
          b.present = true ∧ b.entry = some x) := by
  obtain ⟨hc, hf, hg⟩ := hh
  rcases hg.buckets with ⟨hnone, hsize, hfilled⟩ | ⟨a, cells, ha, hs, hholds⟩
  · -- the first entry
    rw [hnone, Counted.null_iff] at hc
    obtain ⟨h₁, a, halloc, ho, hag, -⟩ := allocateBuckets_spec (T := T) hc hf (hfit hnone)
    obtain ⟨hfresh, hitems⟩ := Holds.fresh (α := α) t.mBucketCount none
    refine ⟨h₁, a, _, ?_, ho, hag, ?_, ?_, fun m b _ _ => ?_, Or.inl ⟨?_, ?_⟩⟩
    · simp only [add, hnone, halloc, ok_bind]
    · rw [hsize, hfilled]
      exact hfresh
    · simp only [bucketsOf, hnone]
      exact hitems
    · have hpos := hg.sizes.capacity_pos
      constructor
      · intro hfull
        have := hfull.1
        omega
      · intro hfull
        omega
    · cases src with
      | outside y => rfl
      | inside a' i => simp [EntrySource.within, hnone]
    · refine Held.agree ?_ hag
      cases src with
      | outside y => exact hsrc
      | inside a' i =>
        refine ⟨(mem_cons.mp hsrc.1).resolve_left ?_, hsrc.2⟩
        rw [hnone]
        simp
  · rw [ha] at hc hsrc
    obtain ⟨h₁, a', g, hedit, hg', ho, hag, hsame⟩ := edit_buckets hc hf hs ha hholds.length
    obtain ⟨hholds', hitems⟩ := hholds.map hg'
    have hbuckets := hs.bucketsOf ha
    refine ⟨h₁, a', cells.map g, ?_, ho, hag, hholds', by rw [hitems, hbuckets],
      fun m b hm hb => ?_, ?_⟩
    · simp only [add, ha, hedit, ok_bind]
    · rw [landing_map hg'] at hm
      rw [getElem?_map, Option.map_eq_some_iff] at hb
      obtain ⟨b₀, hb₀, rfl⟩ := hb
      rw [Full, hbuckets, hm, (hg' b₀).1]
      refine and_congr_right fun _ => ⟨?_, fun hcol => ⟨m, rfl, b₀, hb₀, hcol⟩⟩
      rintro ⟨k, hk, c, hc', hcol⟩
      obtain rfl := Option.some_inj.mp hk
      obtain rfl := Option.mem_unique hb₀ hc'
      exact hcol
    · cases src with
      | outside y => exact Or.inl ⟨rfl, hsrc⟩
      | inside w i =>
        obtain ⟨hmem, blk, b, hblk, hb, hp, hx⟩ := hsrc
        by_cases hin : w = a ∧ blk.refs = 1
        · obtain ⟨rfl, h1⟩ := hin
          obtain ⟨-, rfl, hcells⟩ := hsame blk hblk h1
          obtain ⟨blk', hblk', -, rfl⟩ := hs
          obtain rfl := Option.mem_unique hblk' hblk
          refine Or.inr ⟨by simp [EntrySource.within, ha, hblk, h1], i, b, rfl, ?_, hp, hx⟩
          rwa [hcells]
        · have hothers : some w ∈ others := by
            rcases mem_cons.mp hmem with heq | hmem
            · obtain rfl := Option.some_inj.mp heq
              exact hc.mem_of_shared hblk fun h1 => hin ⟨rfl, h1⟩
            · exact hmem
          have hout : (EntrySource.inside w i : EntrySource α).within h t = false := by
            by_contra hw
            simp only [EntrySource.within, ha, hblk, Option.any_some, Bool.not_eq_false,
              Bool.and_eq_true, beq_iff_eq, Option.some_inj] at hw
            exact hin ⟨hw.1.symm, hw.2⟩
          exact Or.inl ⟨hout, Held.agree ⟨hothers, blk, b, hblk, hb, hp, hx⟩ hag⟩

section

variable (src : EntrySource α) (hc : BucketCount t.mBucketCount)
  (ho : Owned T others h a cells) (ha : t.mBuckets = some a) (hm : m < t.mBucketCount)
  (hb : cells[chain hash t.mBucketCount m]? = some b)
  (hplace : place hash t.mBucketCount cells =
    .ok (marked hash t.mBucketCount 0 m cells, chain hash t.mBucketCount m))

include hc ho ha hm hb hplace

/-- **`add` ends** when the bucket it came to was in use before, or there is room for one more. -/
theorem addLoop_room (hroom : b.collision = true ∨ t.mFilledBuckets < t.mCapacity)
    (hread : ∀ blk, h.get a = some blk → src.read (h.put a (some { blk with
      cells := marked hash t.mBucketCount 0 m cells })) = .ok x) (fuel : ℕ) :
    ∃ h', addLoop T hash src (fuel + 1) h t = .ok (h',
        { t with
          mFilledBuckets := if b.collision then t.mFilledBuckets else t.mFilledBuckets + 1
          mSize := t.mSize + 1 }, chain hash t.mBucketCount m) ∧
      Owned T others h' a ((marked hash t.mBucketCount 0 m cells).set
        (chain hash t.mBucketCount m) ⟨b.collision, true, hash, some x⟩) ∧
      Agree h h' others := by
  obtain ⟨blk, hs, -, hcells⟩ := ho.sole
  obtain ⟨ho₁, hag₁⟩ := ho.put hs.get length_marked
  have hget₁ := get_put_self hs.get
    (some { blk with cells := marked hash t.mBucketCount 0 m cells })
  obtain ⟨ho₂, hag₂⟩ := ho₁.put hget₁ (l := (marked hash t.mBucketCount 0 m cells).set
    (chain hash t.mBucketCount m) ⟨b.collision, true, hash, some x⟩) (by simp)
  have hb₁ := (getElem?_marked_last hc hm).trans hb
  have hgo : ¬ ((!b.collision && decide (t.mCapacity ≤ t.mFilledBuckets)) = true) := by
    rw [Bool.and_eq_true, decide_eq_true_eq]
    rintro ⟨hcol, hle⟩
    rcases hroom with hcol' | hlt
    · rw [hcol'] at hcol
      cases hcol
    · omega
  refine ⟨_, ?_, ho₂, hag₁.trans hag₂⟩
  simp only [addLoop, ha, require, ok_bind, deref_eq hs.get, hcells, hplace, bucketAt, hb₁,
    if_neg hgo, hread blk hs.get]

/-- A full table grows. -/
theorem addLoop_full (hfull : t.mCapacity ≤ t.mFilledBuckets ∧ b.collision = false) (fuel : ℕ) :
    ∃ h₁, addLoop T hash src (fuel + 1) h t =
        (rehash T h₁ t (u32 (t.mCapacity * 2)) t.mLoadFactor >>= fun r =>
          addLoop T hash src fuel r.1 r.2) ∧
      Owned T others h₁ a (marked hash t.mBucketCount 0 m cells) ∧ Agree h h₁ others := by
  obtain ⟨blk, hs, -, hcells⟩ := ho.sole
  obtain ⟨ho₁, hag₁⟩ := ho.put hs.get length_marked
  have hb₁ := (getElem?_marked_last hc hm).trans hb
  have hgo : (!b.collision && decide (t.mCapacity ≤ t.mFilledBuckets)) = true := by
    simp [hfull.1, hfull.2]
  refine ⟨_, ?_, ho₁, hag₁⟩
  simp only [addLoop, ha, require, ok_bind, deref_eq hs.get, hcells, hplace, bucketAt, hb₁,
    if_pos hgo]

end

/-- The entry can be read when the flags were set. -/
theorem read_marked (ho : Owned T others h a cells) (hsrc : Held others h x src ∨
      ∃ i b, src = .inside a i ∧ cells[i]? = some b ∧ b.present = true ∧ b.entry = some x)
    (blk : Block (Bucket α)) (hblk : h.get a = some blk) :
    src.read (h.put a (some { blk with cells := marked hash count 0 m cells })) = .ok x := by
  rcases hsrc with hheld | ⟨i, b, rfl, hb, -, hx⟩
  · obtain ⟨blk', hs, -, -⟩ := ho.sole
    exact (hheld.agree (Agree.put (hs.counted.notMem hs.get hs.refs) _)).read
  · have hget := get_put_self hblk (some { blk with cells := marked hash count 0 m cells })
    obtain ⟨c, hc, hentry⟩ : ∃ c, (marked hash count 0 m cells)[i]? = some c ∧
        c.entry = some x := by
      rw [getElem?_marked, hb]
      refine ⟨_, rfl, ?_⟩
      split <;> exact hx
    simp only [EntrySource.read, deref_eq hget, ok_bind, bucketAt, hc, require, hentry]

section

variable (hs : Sizes t.mBucketCount t.mCapacity t.mLoadFactor)
  (ho : Owned T others h a cells) (ha : t.mBuckets = some a)
  (hh : Holds t.mBucketCount t.mSize t.mFilledBuckets cells)

include hs ho ha hh

/-- The last round of `add`. -/
theorem addLoop_adds (hroom : t.mFilledBuckets ≤ t.mCapacity) (hm : m < t.mBucketCount)
    (hbusy : ∀ j < m, ∃ b ∈ cells[chain hash t.mBucketCount j]?, b.present = true)
    (hb : cells[chain hash t.mBucketCount m]? = some b) (hp : b.present = false)
    (hplace : place hash t.mBucketCount cells =
      .ok (marked hash t.mBucketCount 0 m cells, chain hash t.mBucketCount m))
    (hfull : ¬ (t.mCapacity ≤ t.mFilledBuckets ∧ b.collision = false))
    (hsrc : Held others h x src ∨
      ∃ i b, src = .inside a i ∧ cells[i]? = some b ∧ b.present = true ∧ b.entry = some x)
    (fuel : ℕ) :
    ∃ h' t' i, addLoop T hash src (fuel + 1) h t = .ok (h', t', i) ∧ Holder T others h' t' ∧
      Agree h h' others ∧ items (bucketsOf h' t') = (hash, x) ::ₘ items cells := by
  have hgo : b.collision = true ∨ t.mFilledBuckets < t.mCapacity := by
    by_cases hcol : b.collision = true
    · exact Or.inl hcol
    · exact Or.inr (not_le.mp fun hle => hfull ⟨hle, by simpa using hcol⟩)
  obtain ⟨h', hadd, ho', hag⟩ := addLoop_room _ hs.buckets ho ha hm hb hplace hgo
    (read_marked ho hsrc) fuel
  obtain ⟨hh', hitems⟩ := hh.insert hs.buckets hm hbusy hb hp x
  refine ⟨h', _, _, hadd, holder_of_owned ho' ha hs ?_ hh', hag, ?_⟩
  · change (if b.collision = true then t.mFilledBuckets else t.mFilledBuckets + 1) ≤ t.mCapacity
    rcases hgo with hcol | hlt
    · rwa [if_pos hcol]
    · split <;> omega
  · exact (congrArg items ((stored_of_owned ho').bucketsOf (by exact ha))).trans hitems

/-- **A full table grows**, and there is room then. -/
theorem grow_spec (hroom : t.mFilledBuckets ≤ t.mCapacity) (h0 : t.mSize ≠ 0)
    (hn : bucketsFor (2 * t.mCapacity) t.mLoadFactor = some count) (hfit : BytesFit T count) :
    ∃ h' a' cells', rehash T h t (u32 (t.mCapacity * 2)) t.mLoadFactor = .ok (h',
        ⟨capacityOf count t.mLoadFactor, t.mLoadFactor, t.mSize, t.mSize, count, some a'⟩) ∧
      Sizes count (capacityOf count t.mLoadFactor) t.mLoadFactor ∧
      t.mSize < capacityOf count t.mLoadFactor ∧ Owned T others h' a' cells' ∧
      Agree h h' others ∧ Holds count t.mSize t.mSize cells' ∧ items cells' = items cells ∧
      h'.get a = none := by
  have hle : t.mSize ≤ t.mFilledBuckets := hh.size_le
  have hu := hs.u32_double
  have hn' : bucketsFor (max (u32 (t.mCapacity * 2)) t.mSize) t.mLoadFactor = some count := by
    rw [hu, max_eq_left (by omega), hn]
  obtain ⟨-, hsizes, hmin⟩ := determineCapacity_spec hs.factor hn
  obtain ⟨blk, hsole, -, -⟩ := ho.sole
  obtain ⟨h', a', cells', hre, ho', hag, hh', hitems, hgone⟩ := rehash_moves ho.failing ha
    hs.factor hn' (by omega) hsole.counted (stored_of_owned ho) hh h0 hfit
  exact ⟨h', a', cells', hre, hsizes, by omega, ho', hag, hh', hitems,
    hgone blk hsole.get hsole.refs⟩

end

/-- **`add`** puts the entry among the items of the table. -/
theorem add_spec (hh : Holder T others h t) (hfit : AddFits T h t hash src)
    (hsrc : Held (t.mBuckets :: others) h x src) :
    ∃ h' t' i, add T h t hash src = .ok (h', t', i) ∧ Holder T others h' t' ∧ Agree h h' others ∧
      items (bucketsOf h' t') = (trimHash hash, x) ::ₘ items (bucketsOf h t) := by
  obtain ⟨h₁, a, cells, hadd, ho, hag, hholds, hitems, hfull, hsrc₁⟩ :=
    add_begin hh hfit.1 hsrc hash
  have hs := hh.good.sizes
  have hroom := hh.good.room
  have hcap := hs.capacity_lt
  have hsize := hholds.size_le
  obtain ⟨m, hm, hbusy, ⟨b, hb, hp⟩, hplace⟩ := place_spec hs.buckets (trimHash hash)
    hholds (by omega)
  have hiff := hfull m b (landing_eq hm hbusy ⟨b, hb, hp⟩) hb
  rw [hadd, ← hitems]
  by_cases hf : t.mCapacity ≤ t.mFilledBuckets ∧ b.collision = false
  · obtain ⟨h0, hout, n, hn, hbytes⟩ := hfit.2 (hiff.mpr hf)
    obtain ⟨h₂, hloop, ho₂, hag₂⟩ := addLoop_full (t := { t with mBuckets := some a }) src
      hs.buckets ho rfl hm hb hplace hf 1
    obtain ⟨hholds₂, hitems₂⟩ := hholds.mark hbusy
    obtain ⟨h₃, a₃, cells₃, hre, hs₃, hlt₃, ho₃, hag₃, hholds₃, hitems₃, -⟩ :=
      grow_spec (t := { t with mBuckets := some a }) hs ho₂ rfl hholds₂ hroom h0 hn hbytes
    have hcap₃ := hs₃.capacity_lt
    obtain ⟨m₃, hm₃, hbusy₃, ⟨b₃, hb₃, hp₃⟩, hplace₃⟩ := place_spec hs₃.buckets (trimHash hash)
      hholds₃ (by omega)
    have hheld : Held others h₁ x src := by
      rcases hsrc₁ with ⟨-, hheld⟩ | ⟨hin, -⟩
      · exact hheld
      · rw [hin] at hout
        cases hout
    obtain ⟨h', t', i, hend, hholder, hag', hitems'⟩ := addLoop_adds
      (t := ⟨capacityOf n t.mLoadFactor, t.mLoadFactor, t.mSize, t.mSize, n, some a₃⟩) hs₃ ho₃ rfl
      hholds₃ hlt₃.le hm₃ hbusy₃ hb₃ hp₃ hplace₃ (fun h' => absurd h'.1 hlt₃.not_ge)
      (Or.inl ((hheld.agree hag₂).agree hag₃)) 0
    refine ⟨h', t', i, ?_, hholder, ((hag.trans hag₂).trans hag₃).trans hag', ?_⟩
    · rw [hloop, hre, ok_bind, hend]
    · rw [hitems', hitems₃, hitems₂]
  · obtain ⟨h', t', i, hend, hholder, hag', hitems'⟩ := addLoop_adds
      (t := { t with mBuckets := some a }) hs ho rfl hholds hroom hm hbusy hb hp hplace hf
      (hsrc₁.imp And.right And.right) 1
    exact ⟨h', t', i, hend, hholder, hag.trans hag', hitems'⟩

/-- Without what it needs, `add` does not come to an end. -/
theorem add_error (hh : Holder T others h t) (hsrc : Held (t.mBuckets :: others) h x src)
    (hfit : ¬ AddFits T h t hash src) :
    ∃ e, add T h t hash src = .error e := by
  refine ⟨.undefined, ?_⟩
  by_cases hbytes : t.mBuckets = none → BytesFit T t.mBucketCount
  swap
  · push Not at hbytes
    simp only [add, hbytes.1, allocateBuckets_wraps hh.failing hbytes.2]
    rfl
  obtain ⟨h₁, a, cells, hadd, ho, hag, hholds, hitems, hfull, hsrc₁⟩ :=
    add_begin hh hbytes hsrc hash
  have hs := hh.good.sizes
  have hroom := hh.good.room
  have hcap := hs.capacity_lt
  have hpos := hs.capacity_pos
  have hsize := hholds.size_le
  obtain ⟨m, hm, hbusy, ⟨b, hb, hp⟩, hplace⟩ := place_spec hs.buckets (trimHash hash)
    hholds (by omega)
  have hiff := hfull m b (landing_eq hm hbusy ⟨b, hb, hp⟩) hb
  have hbad : Full h t (trimHash hash) ∧ ¬ (t.mSize ≠ 0 ∧ src.within h t = false ∧
      ∃ n ∈ bucketsFor (2 * t.mCapacity) t.mLoadFactor, BytesFit T n) := by
    by_contra hok
    exact hfit ⟨hbytes, fun hf => by_contra fun hno => hok ⟨hf, hno⟩⟩
  obtain ⟨h₂, hloop, ho₂, hag₂⟩ := addLoop_full (t := { t with mBuckets := some a }) src
    hs.buckets ho rfl hm hb hplace (hiff.mp hbad.1) 1
  obtain ⟨hholds₂, -⟩ := hholds.mark hbusy
  obtain ⟨blk, hsole, -, -⟩ := ho₂.sole
  have hwant : max (u32 (t.mCapacity * 2)) t.mSize = 2 * t.mCapacity := by
    rw [hs.u32_double]
    omega
  rw [hadd, hloop]
  cases hn : bucketsFor (2 * t.mCapacity) t.mLoadFactor with
  | none =>
    -- the table of primes ends
    rw [rehash_large (t := { t with mBuckets := some a }) hs.factor (by rw [hwant, hn])]
    rfl
  | some n =>
    obtain ⟨-, hs', hmin⟩ := determineCapacity_spec hs.factor hn
    have hne : ¬ (n = t.mBucketCount ∧ capacityOf n t.mLoadFactor = t.mCapacity) := by omega
    by_cases h0 : t.mSize = 0
    · -- no buckets are left to go on with
      obtain ⟨h₃, hre, -⟩ := rehash_empty (T := T) (t := { t with mBuckets := some a })
        ho₂.failing rfl hs.factor (by rw [hwant, hn]) hne hsole.counted h0
      rw [hre, ok_bind, addLoop]
      rfl
    by_cases hfits : BytesFit T n
    swap
    · rw [rehash_wraps (t := { t with mBuckets := some a }) ho₂.failing rfl hs.factor
        (by rw [hwant, hn]) hne h0 hfits]
      rfl
    -- the entry was in the old buckets
    have hin : src.within h t = true := by
      by_contra hout
      exact hbad.2 ⟨h0, by simpa using hout, n, hn, hfits⟩
    obtain ⟨i, -, rfl, -⟩ := (hsrc₁.resolve_left fun h' => by
      rw [h'.1] at hin
      cases hin).2
    obtain ⟨h₃, a₃, cells₃, hre, hs₃, hlt₃, ho₃, -, hholds₃, -, hgone⟩ :=
      grow_spec (t := { t with mBuckets := some a }) hs ho₂ rfl hholds₂ hroom h0 hn hfits
    have hcap₃ := hs₃.capacity_lt
    obtain ⟨m₃, hm₃, -, ⟨b₃, hb₃, -⟩, hplace₃⟩ := place_spec hs₃.buckets (trimHash hash)
      hholds₃ (by omega)
    obtain ⟨blk₃, hsole₃, -, hcells₃⟩ := ho₃.sole
    have hne₃ : a₃ ≠ a := fun heq => by
      have hget := hsole₃.get
      rw [heq, hgone] at hget
      cases hget
    have hgo : ¬ ((!b₃.collision && decide (capacityOf n t.mLoadFactor ≤ t.mSize)) = true) := by
      simp [hlt₃]
    have hb₃' : (marked (trimHash hash) n 0 m₃ cells₃)[chain (trimHash hash) n m₃]? = some b₃ :=
      (getElem?_marked_last hs₃.buckets hm₃).trans hb₃
    have hgone' : (h₃.put a₃ (some { blk₃ with
        cells := marked (trimHash hash) n 0 m₃ cells₃ })).deref a = .error .undefined := by
      rw [deref, get_put_of_ne hne₃, hgone]
    rw [hre, ok_bind]
    simp only [addLoop, require, ok_bind, deref_eq hsole₃.get, hcells₃, hplace₃, bucketAt,
      hb₃', if_neg hgo, EntrySource.read, hgone']
    rfl

end BasicHashtable
