/-
Hash tables with open addressing (`libutils/BasicHashtable.cpp`, `utils/BasicHashtable.h`).

The entries of a table are in an array of buckets, which copies of the table share until
one of them is changed.  The bits of a bucket's cookie are fields here: the two
flags and thirty bits of the hash code.  A bucket that is in use on the way to an entry
further along its chain has the flag COLLISION, also when its own entry is gone.

The number of buckets is a prime from a table, so that the increments of the second hash
visit all of them.  A load factor is a rational number.

Loops over chains are given as many turns as there are buckets; that this is enough is a
theorem.  `add` starts over after a `rehash`, once.
-/
import AndroidSystem.SharedBuffer
import Mathlib.Data.Rat.Floor

open CInt CountedHeap SharedBuffer

namespace BasicHashtable

variable {α κ : Type}

/-! ### Buckets -/

/-- A bucket: its cookie, in parts, and the storage of its entry. -/
structure Bucket (α : Type) where
  collision : Bool
  present : Bool
  hash : ℕ
  entry : Option α
  deriving DecidableEq, Repr

/-- `bucket.cookie = 0`. -/
def Bucket.reset (b : Bucket α) : Bucket α := ⟨false, false, 0, b.entry⟩

/-- The bucket is counted by `mFilledBuckets`. -/
def Bucket.filled (b : Bucket α) : Bool := b.present || b.collision

/-- What a table knows of its entries: their size, whether they have a destructor, and whether the
key of an entry is a given one. -/
structure EntryType (α κ : Type) where
  entrySize : ℕ
  trivialDtor : Bool
  compareKey : α → κ → Bool

/-- `mBucketSize`. -/
def EntryType.bucketSize (T : EntryType α κ) : ℕ := T.entrySize + 4

/-- The fields of a table; the load factor is exact. -/
structure Table where
  mCapacity : ℕ
  mLoadFactor : ℚ
  mSize : ℕ
  mFilledBuckets : ℕ
  mBucketCount : ℕ
  mBuckets : Option ℕ
  deriving DecidableEq, Repr

/-- Memory that holds arrays of buckets. -/
abbrev Memory (α : Type) := Heap (Bucket α)

/-- Arrays of buckets in shared memory. -/
def layout (T : EntryType α κ) : Layout (Bucket α) := ⟨T.bucketSize, ⟨true, true, 0, none⟩⟩

/-- A read through a pointer or an index that may have nothing behind it. -/
def require {β : Type} : Option β → Except Stop β
  | some x => .ok x
  | none => .error .undefined

/-- The bucket at an index, which must be inside the array. -/
def bucketAt (cells : List (Bucket α)) (index : ℕ) : Except Stop (Bucket α) :=
  require cells[index]?

/-! ### Chains -/

/-- A hash code in thirty bits. -/
def trimHash (hash : ℕ) : ℕ := (hash &&& 0x3fffffff) ^^^ (hash >>> 30)

/-- Where the search for a hash code starts. -/
def chainStart (hash count : ℕ) : ℕ := hash % count

/-- How far the search for a hash code goes in each round. -/
def chainIncrement (hash count : ℕ) : ℕ := (hash >>> 7 ||| u32 (hash <<< 25)) % (count - 1) + 1

/-- The next place of a search. -/
def chainSeek (index increment count : ℕ) : ℕ := u32 (index + increment) % count

/-- Bucket `k` of the chain of a hash code. -/
def chain (hash count : ℕ) : ℕ → ℕ
  | 0 => chainStart hash count
  | k + 1 => chainSeek (chain hash count k) (chainIncrement hash count) count

/-- The loops of `add` and `rehash`: from `index` along a chain to a bucket without an entry, with
the flag COLLISION set on the way. -/
def seekFree (inc count : ℕ) : ℕ → List (Bucket α) → ℕ → Except Stop (List (Bucket α) × ℕ)
  | 0, _, _ => .error .undefined
  | fuel + 1, cells, index => do
    let bucket ← bucketAt cells index
    if bucket.present then
      seekFree inc count fuel (cells.set index { bucket with collision := true })
        (chainSeek index inc count)
    else .ok (cells, index)

/-- The place for an entry with a hash code. -/
def place (hash count : ℕ) (cells : List (Bucket α)) : Except Stop (List (Bucket α) × ℕ) :=
  seekFree (chainIncrement hash count) count count cells (chainStart hash count)

/-! ### Sizes -/

/-- The bucket counts, with the sentinel at the end. -/
def PRIMES : List ℕ :=
  [5, 11, 23, 47, 97, 197, 397, 797, 1597, 3203, 6421, 12853, 25717, 51437, 102877, 205759, 411527,
    823117, 1646237, 3292489, 6584983, 13169977, 26339969, 52679969, 105359939, 210719881,
    421439783, 842879579, 1685759167, 0]

/-- The loop over the primes: the first that is not less than `count`.  The bound is tested after
the array was read, so a number that is too large leads out of it. -/
def searchPrimes (count : ℕ) : List ℕ → Except Stop ℕ
  | [] => .error .undefined
  | p :: rest => if p < count then searchPrimes count rest else .ok p

/-- The number of buckets and the capacity. -/
def determineCapacity (minimumCapacity : ℕ) (loadFactor : ℚ) : Except Stop (ℕ × ℕ) := do
  if loadFactor ≤ 0 ∨ 1 < loadFactor then .error .fatal
  else
    let count ← searchPrimes (⌈(minimumCapacity : ℚ) / loadFactor⌉₊ + 1) PRIMES
    if count = 0 then .error .fatal else .ok (count, ⌈((count - 1 : ℕ) : ℚ) * loadFactor⌉₊)

/-! ### Arrays of buckets -/

section Functions

variable (T : EntryType α κ)

/-- `allocateBuckets`, in which the size in bytes can wrap. -/
def allocateBuckets (h : Memory α) (count : ℕ) : Except Stop (Memory α × ℕ) := do
  match ← alloc (layout T) h (u32 (count * T.bucketSize)) with
  | (_, none) => .error .fatal
  | (h, some buckets) =>
    let b ← h.deref buckets
    if b.cells.length < count then .error .undefined
    else .ok (h.put buckets (some { b with cells := b.cells.map Bucket.reset }), buckets)

/-- `destroyBuckets`, of the buckets that are there. -/
def destroyCells (cells : List (Bucket α)) : List (Bucket α) :=
  if T.trivialDtor then cells
  else cells.map fun b => if b.present then { b with entry := none } else b

/-- `releaseBuckets`: the last owner destroys the entries. -/
def releaseBuckets (h : Memory α) (buckets : ℕ) : Except Stop (Memory α) := do
  let (h, prev) ← release h buckets true
  if prev = 1 then
    let b ← h.deref buckets
    let (h, _) ← dealloc (h.put buckets (some { b with cells := destroyCells T b.cells })) buckets
    .ok h
  else .ok h

/-- One turn of `copyBuckets`. -/
def copyBucket (fromBucket toBucket : Bucket α) : Bucket α :=
  { fromBucket with entry := if fromBucket.present then fromBucket.entry else toBucket.entry }

/-- `copyBuckets` -/
def copyBuckets (h : Memory α) (fromBuckets toBuckets : ℕ) : Except Stop (Memory α) := do
  let b ← h.deref fromBuckets
  let b' ← h.deref toBuckets
  .ok (h.put toBuckets (some { b' with cells := List.zipWith copyBucket b.cells b'.cells }))

/-- `clone`: buckets of its own for a table. -/
def clone (h : Memory α) (t : Table) (buckets : ℕ) : Except Stop (Memory α × Table) := do
  let (h, newBuckets) ← allocateBuckets T h t.mBucketCount
  let h ← copyBuckets h buckets newBuckets
  let h ← releaseBuckets T h buckets
  .ok (h, { t with mBuckets := some newBuckets })

/-- `edit`: makes the buckets the table's own. -/
def edit (h : Memory α) (t : Table) : Except Stop (Memory α × Table) :=
  match t.mBuckets with
  | none => .ok (h, t)
  | some buckets => do
    let b ← h.deref buckets
    if b.refs = 1 then .ok (h, t) else clone T h t buckets

/-! ### Tables -/

/-- The constructor. -/
def create (minimumInitialCapacity : ℕ) (loadFactor : ℚ) : Except Stop Table := do
  let (count, capacity) ← determineCapacity minimumInitialCapacity loadFactor
  .ok ⟨capacity, loadFactor, 0, 0, count, none⟩

/-- The copy constructor. -/
def copyOf (h : Memory α) (other : Table) : Except Stop (Memory α × Table) :=
  match other.mBuckets with
  | none => .ok (h, other)
  | some buckets => do .ok (← acquire h buckets, other)

/-- `dispose`, which is all that the destructor does. -/
def dispose (h : Memory α) (t : Table) : Except Stop (Memory α) :=
  match t.mBuckets with
  | none => .ok h
  | some buckets => releaseBuckets T h buckets

/-- `setTo`: the buckets of another table are shared. -/
def setTo (h : Memory α) (t other : Table) : Except Stop (Memory α × Table) := do
  let h ← dispose T h t
  copyOf h other

/-- `clear` -/
def clear (h : Memory α) (t : Table) : Except Stop (Memory α × Table) :=
  match t.mBuckets with
  | none => .ok (h, t)
  | some buckets =>
    if t.mFilledBuckets = 0 then .ok (h, { t with mSize := 0 })
    else do
      let b ← h.deref buckets
      if b.refs = 1 then
        let cells := (destroyCells T b.cells).map Bucket.reset
        .ok (h.put buckets (some { b with cells := cells }),
          { t with
            mFilledBuckets := 0
            mSize := 0 })
      else
        let h ← releaseBuckets T h buckets
        .ok (h,
          { t with
            mBuckets := none
            mFilledBuckets := 0
            mSize := 0 })

/-- One turn of the loop of `rehash`. -/
def moveBucket (count : ℕ) (cells : List (Bucket α)) (fromBucket : Bucket α) :
    Except Stop (List (Bucket α)) :=
  if fromBucket.present then do
    let (cells, index) ← place fromBucket.hash count cells
    .ok (cells.set index ⟨false, true, fromBucket.hash, fromBucket.entry⟩)
  else .ok cells

/-- The new array of buckets in `rehash`. -/
def moveBuckets (h : Memory α) (t : Table) (buckets newBucketCount : ℕ) :
    Except Stop (Memory α × ℕ) := do
  let (h, newBuckets) ← allocateBuckets T h newBucketCount
  let b ← h.deref buckets
  let b' ← h.deref newBuckets
  let cells ← (b.cells.take t.mBucketCount).foldlM (moveBucket newBucketCount) b'.cells
  .ok (h.put newBuckets (some { b' with cells := cells }), newBuckets)

/-- `rehash`: a new array if the capacity asks for one. -/
def rehash (h : Memory α) (t : Table) (minimumCapacity : ℕ) (loadFactor : ℚ) :
    Except Stop (Memory α × Table) := do
  let minimumCapacity := if minimumCapacity < t.mSize then t.mSize else minimumCapacity
  let (newBucketCount, newCapacity) ← determineCapacity minimumCapacity loadFactor
  if newBucketCount = t.mBucketCount ∧ newCapacity = t.mCapacity then
    .ok (h, { t with mLoadFactor := loadFactor })
  else
    match t.mBuckets with
    | none => .ok (h,
        { t with
          mBucketCount := newBucketCount
          mCapacity := newCapacity
          mLoadFactor := loadFactor })
    | some buckets =>
      if t.mSize = 0 then
        let h ← releaseBuckets T h buckets
        .ok (h,
          { t with
            mBuckets := none
            mFilledBuckets := t.mSize
            mBucketCount := newBucketCount
            mCapacity := newCapacity
            mLoadFactor := loadFactor })
      else
        let (h, newBuckets) ← moveBuckets T h t buckets newBucketCount
        let h ← releaseBuckets T h buckets
        .ok (h,
          { t with
            mBuckets := some newBuckets
            mFilledBuckets := t.mSize
            mBucketCount := newBucketCount
            mCapacity := newCapacity
            mLoadFactor := loadFactor })

/-- An entry that is passed by reference: it is somewhere else, or in a bucket. -/
inductive EntrySource (α : Type)
  | outside (x : α)
  | inside (a i : ℕ)

/-- The entry that is referred to, if it is still there. -/
def EntrySource.read (h : Memory α) : EntrySource α → Except Stop α
  | outside x => .ok x
  | inside a i => do
    let b ← h.deref a
    require (← bucketAt b.cells i).entry

/-- The loop of `add`, with the hash code trimmed. -/
def addLoop (hash : ℕ) (entry : EntrySource α) :
    ℕ → Memory α → Table → Except Stop (Memory α × Table × ℕ)
  | 0, _, _ => .error .undefined
  | fuel + 1, h, t => do
    let buckets ← require t.mBuckets
    let b ← h.deref buckets
    let (cells, index) ← place hash t.mBucketCount b.cells
    let h := h.put buckets (some { b with cells := cells })
    let bucket ← bucketAt cells index
    if !bucket.collision && decide (t.mCapacity ≤ t.mFilledBuckets) then
      let (h, t) ← rehash T h t (u32 (t.mCapacity * 2)) t.mLoadFactor
      addLoop hash entry fuel h t
    else
      let x ← entry.read h
      let cells := cells.set index ⟨bucket.collision, true, hash, some x⟩
      .ok (h.put buckets (some { b with cells := cells }),
        { t with
          mFilledBuckets := if bucket.collision then t.mFilledBuckets else t.mFilledBuckets + 1
          mSize := t.mSize + 1 }, index)

/-- `add` -/
def add (h : Memory α) (t : Table) (hash : ℕ) (entry : EntrySource α) :
    Except Stop (Memory α × Table × ℕ) := do
  let (h, t) ←
    match t.mBuckets with
    | none => do
      let (h, buckets) ← allocateBuckets T h t.mBucketCount
      .ok (h, { t with mBuckets := some buckets })
    | some _ => edit T h t
  addLoop T (trimHash hash) entry 2 h t

/-- `removeAt`: the collision mark stays. -/
def removeAt (h : Memory α) (t : Table) (index : ℕ) : Except Stop (Memory α × Table) := do
  let (h, t) ← edit T h t
  let buckets ← require t.mBuckets
  let b ← h.deref buckets
  let bucket ← bucketAt b.cells index
  let entry := if T.trivialDtor then bucket.entry else none
  .ok (h.put buckets
      (some { b with cells := b.cells.set index { bucket with present := false, entry := entry } }),
    { t with
      mFilledBuckets := if bucket.collision then t.mFilledBuckets else t.mFilledBuckets - 1
      mSize := t.mSize - 1 })

/-! ### Lookups -/

/-- The loop of `next`. -/
def nextLoop (cells : List (Bucket α)) (index : ℕ) : ℕ → Except Stop ℤ
  | 0 => .ok (-1)
  | n + 1 => do
    let bucket ← bucketAt cells index
    if bucket.present then .ok index else nextLoop cells (index + 1) n

/-- `next` -/
def next (h : Memory α) (t : Table) (index : ℤ) : Except Stop ℤ :=
  if t.mSize = 0 then .ok (-1)
  else do
    let b ← h.deref (← require t.mBuckets)
    nextLoop b.cells (index + 1).toNat (t.mBucketCount - (index + 1).toNat)

/-- `compareBucketKey` -/
def compareBucketKey (bucket : Bucket α) (key : κ) : Except Stop Bool := do
  .ok (T.compareKey (← require bucket.entry) key)

/-- The loop of `find`. -/
def findLoop (cells : List (Bucket α)) (hash : ℕ) (key : κ) (inc count : ℕ) :
    ℕ → ℕ → Except Stop ℤ
  | 0, _ => .error .undefined
  | fuel + 1, index => do
    let index := chainSeek index inc count
    let bucket ← bucketAt cells index
    let found ← if bucket.present && bucket.hash == hash then compareBucketKey T bucket key
      else .ok false
    if found then .ok index
    else if !bucket.collision then .ok (-1)
    else findLoop cells hash key inc count fuel index

/-- `find` in an array of buckets, with the hash code trimmed. -/
def findIn (cells : List (Bucket α)) (count : ℕ) (index : ℤ) (hash : ℕ) (key : κ) :
    Except Stop ℤ := do
  let inc := chainIncrement hash count
  if index < 0 then
    let index := chainStart hash count
    let bucket ← bucketAt cells index
    if bucket.present then
      if ← compareBucketKey T bucket key then .ok index
      else findLoop T cells hash key inc count count index
    else if !bucket.collision then .ok (-1)
    else findLoop T cells hash key inc count count index
  else findLoop T cells hash key inc count count index.toNat

/-- `find`, from an index on or from the start. -/
def find (h : Memory α) (t : Table) (index : ℤ) (hash : ℕ) (key : κ) : Except Stop ℤ :=
  if t.mSize = 0 then .ok (-1)
  else do
    let b ← h.deref (← require t.mBuckets)
    findIn T b.cells t.mBucketCount index (trimHash hash) key

/-- `hasMoreRoom` -/
def hasMoreRoom (t : Table) : Bool := t.mFilledBuckets < t.mCapacity

/-! ### Calls -/

/-- All tables with one type of entries. -/
structure State (α : Type) where
  heap : Memory α
  tables : List Table

/-- An entry that is passed by reference: it is somewhere else, or entry `index` of table `j`. -/
inductive Entry (α : Type)
  | given (x : α)
  | own (j index : ℕ)

/-- A call, most of them to table `i`. -/
inductive Call (α : Type)
  | create (minimumInitialCapacity : ℕ) (loadFactor : ℚ)
  | copy (j : ℕ)
  | assign (i j : ℕ)
  | destroy (i : ℕ)
  | clear (i : ℕ)
  | add (i hash : ℕ) (entry : Entry α)
  | removeAt (i index : ℕ)
  | rehash (i minimumCapacity : ℕ) (loadFactor : ℚ)

namespace State

variable (s : State α)

/-- The table with a number. -/
def table (i : ℕ) : Except Stop Table := require s.tables[i]?

/-- Where the entry of a call is read from. -/
def entrySource : Entry α → Except Stop (EntrySource α)
  | .given x => .ok (.outside x)
  | .own j index => do .ok (.inside (← require (← s.table j).mBuckets) index)

/-- Table `i` after a call to it. -/
def update (i : ℕ) (r : Memory α × Table) : State α := ⟨r.1, s.tables.set i r.2⟩

end State

/-- One call. -/
def exec (s : State α) : Call α → Except Stop (State α)
  | .create minimumInitialCapacity loadFactor => do
    .ok ⟨s.heap, s.tables ++ [← create minimumInitialCapacity loadFactor]⟩
  | .copy j => do
    let (h, t) ← copyOf s.heap (← s.table j)
    .ok ⟨h, s.tables ++ [t]⟩
  | .assign i j => do .ok (s.update i (← setTo T s.heap (← s.table i) (← s.table j)))
  | .destroy i => do .ok ⟨← dispose T s.heap (← s.table i), s.tables.eraseIdx i⟩
  | .clear i => do .ok (s.update i (← clear T s.heap (← s.table i)))
  | .add i hash entry => do
    let (h, t, _) ← add T s.heap (← s.table i) hash (← s.entrySource entry)
    .ok (s.update i (h, t))
  | .removeAt i index => do .ok (s.update i (← removeAt T s.heap (← s.table i) index))
  | .rehash i minimumCapacity loadFactor => do
    .ok (s.update i (← rehash T s.heap (← s.table i) minimumCapacity loadFactor))

end Functions

end BasicHashtable
