/-
Vectors in shared buffers.

`VectorImpl` is the type-erased vector under `Vector<TYPE>`.  Its items are the first
`mCount` cells of a shared buffer; a cell is `none` if there is no item in it: it was not
constructed yet, or it is destroyed.  What the functions do to items depends on the
item type (`ItemType`): its size and which of its operations are trivial.

All vectors of a program with one item type live in one heap.  A `Call` is a call to
one of them, a `State` has the heap and the vectors, and `exec` does a call.  An item or
an array that a call takes may be anywhere in memory, also in a vector.

Sizes are of the type `size_t`, and wrap around.
-/
import AndroidSystem.SharedBuffer

open CInt CountedHeap SharedBuffer

/-- What is known of a type of items: `sizeof`, the traits, and a default-constructed item. -/
structure ItemType (α : Type) where
  itemSize : ℕ
  itemSize_pos : 0 < itemSize
  trivialCtor : Bool
  trivialDtor : Bool
  trivialCopy : Bool
  trivialMove : Bool
  initial : α

/-- The fields `mStorage` and `mCount`. -/
structure VectorImpl where
  mStorage : Option ℕ
  mCount : ℕ
  deriving DecidableEq, Repr

namespace VectorImpl

variable {α : Type}

/-! ### Items in memory -/

/-- `copy_type` in a loop, or `memcpy`; neither may be used on ranges that overlap. -/
abbrev doCopy (h : Heap (Option α)) (a i : ℕ) (src : Source (Option α)) (num : ℕ) :
    Except Stop (Heap (Option α)) :=
  memcpy h a i src num

/-- `splat_type`. -/
def doSplat (h : Heap (Option α)) (a i : ℕ) (item : Source (Option α)) (num : ℕ) :
    Except Stop (Heap (Option α)) :=
  match num with
  | 0 => .ok h
  | num => do
    let x ← item.read h 1
    h.store a i (List.replicate num (x.headD none))

variable (T : ItemType α)

/-- `construct_type`. -/
def doConstruct (h : Heap (Option α)) (a i num : ℕ) : Except Stop (Heap (Option α)) :=
  if T.trivialCtor then .ok h else h.store a i (List.replicate num (some T.initial))

/-- `destroy_type`. -/
def doDestroy (h : Heap (Option α)) (a i num : ℕ) : Except Stop (Heap (Option α)) :=
  if T.trivialDtor then .ok h else h.store a i (List.replicate num none)

/-- One turn of the loops that move items: cell `d` becomes a copy of cell `s`, which is
destroyed. -/
def moveItem (cells : List (Option α)) (d s : ℕ) : List (Option α) :=
  let cells := cells.set d (cells.getD s none)
  if T.trivialDtor then cells else cells.set s none

/-- The loop of `move_forward_type`, from the last item down. -/
def forwardLoop (cells : List (Option α)) (d s : ℕ) : ℕ → List (Option α)
  | 0 => cells
  | n + 1 => forwardLoop (moveItem T cells (d + n) (s + n)) d s n

/-- The loop of `move_backward_type`, from the first item up. -/
def backwardLoop (cells : List (Option α)) (d s : ℕ) : ℕ → List (Option α)
  | 0 => cells
  | n + 1 => backwardLoop (moveItem T cells d s) (d + 1) (s + 1) n

/-- The condition under which items are moved by `memmove`. -/
def memmoves : Bool := (T.trivialDtor && T.trivialCopy) || T.trivialMove

/-- `memmove` within a buffer. -/
def memmove (cells : List (Option α)) (d s n : ℕ) : List (Option α) :=
  overwrite cells d ((cells.drop s).take n)

/-- Moves `n` items of a buffer, with one of the loops or with `memmove`. -/
def doMove (loop : List (Option α) → ℕ → ℕ → ℕ → List (Option α)) (h : Heap (Option α))
    (a d s n : ℕ) : Except Stop (Heap (Option α)) := do
  let b ← h.deref a
  if s + n ≤ b.cells.length ∧ d + n ≤ b.cells.length then
    let cells := if memmoves T then memmove b.cells d s n else loop b.cells d s n
    .ok (h.put a (some { b with cells := cells }))
  else .error .undefined

/-- `move_forward_type`. -/
def doMoveForward (h : Heap (Option α)) (a d s n : ℕ) : Except Stop (Heap (Option α)) :=
  doMove T (forwardLoop T) h a d s n

/-- `move_backward_type`. -/
def doMoveBackward (h : Heap (Option α)) (a d s n : ℕ) : Except Stop (Heap (Option α)) :=
  doMove T (backwardLoop T) h a d s n

/-! ### Storage -/

/-- Items in a buffer. -/
def layout : Layout (Option α) := ⟨T.itemSize, none⟩

def badIndex : ℤ := -75
def badValue : ℤ := -22
def noMemory : ℤ := -12
def kMinVectorCapacity : ℕ := 4

/-- `capacity`, from the size of the buffer. -/
def capacity (h : Heap (Option α)) (v : VectorImpl) : Except Stop ℕ :=
  match v.mStorage with
  | none => .ok 0
  | some a => do
    let b ← h.deref a
    .ok (b.size / T.itemSize)

/-- `release_storage` -/
def releaseStorage (h : Heap (Option α)) (v : VectorImpl) : Except Stop (Heap (Option α)) :=
  match v.mStorage with
  | none => .ok h
  | some a => do
    let (h, prev) ← release h a true
    if prev = 1 then
      let h ← doDestroy T h a 0 v.mCount
      let (h, _) ← dealloc h a
      .ok h
    else .ok h

/-- `editArrayImpl`, which gives the shared buffer if there is no memory. -/
def editArrayImpl (h : Heap (Option α)) (v : VectorImpl) :
    Except Stop (Heap (Option α) × VectorImpl) :=
  match v.mStorage with
  | none => .ok (h, v)
  | some a => do
    match ← attemptEdit h a with
    | some _ => .ok (h, v)
    | none =>
      let cap ← capacity T h v
      match ← alloc (layout T) h (u32 (cap * T.itemSize)) with
      | (h, none) => .ok (h, v)
      | (h, some sb) => do
        let h ← doCopy h sb 0 (.inside a 0) v.mCount
        let h ← releaseStorage T h v
        .ok (h, { v with mStorage := some sb })

/-- `itemLocation` and, once the buffer may be written, `editItemLocation`. -/
def itemLocation (h : Heap (Option α)) (v : VectorImpl) (index : ℕ) :
    Except Stop (Option (ℕ × ℕ)) := do
  if index < (← capacity T h v) then .ok (v.mStorage.map fun a => (a, index)) else .ok none

/-- Where the items of a vector from `i` on are; there are none at a null pointer. -/
def source (v : VectorImpl) (i : ℕ) : Source (Option α) :=
  match v.mStorage with
  | none => .outside []
  | some a => .inside a i

/-- The copying ways of `_grow` and `_shrink`: a new buffer, with `head` items of the old one and,
from cell `dest` on, `count` items from its cell `rest` on. -/
def reallocate (h : Heap (Option α)) (v : VectorImpl) (newCapacity head dest rest count : ℕ) :
    Except Stop (Heap (Option α) × VectorImpl) := do
  match ← alloc (layout T) h (u32 (newCapacity * T.itemSize)) with
  | (h, none) => .ok (h, v)
  | (h, some sb) => do
    let h ← doCopy h sb 0 (source v 0) head
    let h ← doCopy h sb dest (source v rest) count
    let h ← releaseStorage T h v
    .ok (h, { v with mStorage := some sb })

/-- The resizing way of `_grow` and `_shrink`. -/
def resizeStorage (h : Heap (Option α)) (v : VectorImpl) (a newCapacity : ℕ) :
    Except Stop (Heap (Option α) × VectorImpl) := do
  match ← editResize (layout T) h a (u32 (newCapacity * T.itemSize)) with
  | (_, none) => .error .undefined
  | (h, some sb) => .ok (h, { v with mStorage := some sb })

/-- `_grow`, which gives the place for the new items as well. -/
def grow (h : Heap (Option α)) (v : VectorImpl) (pos amount : ℕ) :
    Except Stop (Heap (Option α) × VectorImpl × Option (ℕ × ℕ)) := do
  let newSize := u32 (v.mCount + amount)
  let (h, v) ←
    if (← capacity T h v) < newSize then
      let newCapacity := max kMinVectorCapacity (u32 (u32 (newSize * 3) + 1) / 2)
      match v.mStorage with
      | some a =>
        if v.mCount = pos ∧ T.trivialCopy ∧ T.trivialDtor then resizeStorage T h v a newCapacity
        else reallocate T h v newCapacity pos (pos + amount) pos (v.mCount - pos)
      | none => reallocate T h v newCapacity pos (pos + amount) pos (v.mCount - pos)
    else
      let (h, v) ← editArrayImpl T h v
      match v.mStorage with
      | some a =>
        if pos ≠ v.mCount then
          let h ← doMoveForward T h a (pos + amount) pos (v.mCount - pos)
          .ok (h, v)
        else .ok (h, v)
      | none => .ok (h, v)
  let v := { v with mCount := newSize }
  .ok (h, v, ← itemLocation T h v pos)

/-- `_shrink` -/
def shrink (h : Heap (Option α)) (v : VectorImpl) (pos amount : ℕ) :
    Except Stop (Heap (Option α) × VectorImpl) :=
  match v.mStorage with
  | none => .ok (h, v)
  | some a => do
    let newSize := usub v.mCount amount
    let (h, v) ←
      if u32 (newSize * 3) < (← capacity T h v) then
        let newCapacity := max kMinVectorCapacity (u32 (newSize * 2))
        if pos = newSize ∧ T.trivialCopy ∧ T.trivialDtor then resizeStorage T h v a newCapacity
        else reallocate T h v newCapacity pos pos (u32 (pos + amount)) (usub newSize pos)
      else
        let (h, v) ← editArrayImpl T h v
        match v.mStorage with
        | some a =>
          let h ← doDestroy T h a pos amount
          if pos ≠ newSize then
            let h ← doMoveBackward T h a pos (u32 (pos + amount)) (usub newSize pos)
            .ok (h, v)
          else .ok (h, v)
        | none => .ok (h, v)
    .ok (h, { v with mCount := newSize })

/-! ### The interface -/

/-- `insertArrayAt` -/
def insertArrayAt (h : Heap (Option α)) (v : VectorImpl) (array : Source (Option α))
    (index length : ℕ) : Except Stop (Heap (Option α) × VectorImpl × ℤ) :=
  if v.mCount < index then .ok (h, v, badIndex)
  else do
    match ← grow T h v index length with
    | (h, v, none) => .ok (h, v, noMemory)
    | (h, v, some (a, i)) => do
      let h ← doCopy h a i array length
      .ok (h, v, index)

/-- `insertAt` -/
def insertAt (h : Heap (Option α)) (v : VectorImpl) (item : Option (Source (Option α)))
    (index numItems : ℕ) : Except Stop (Heap (Option α) × VectorImpl × ℤ) :=
  if v.mCount < index then .ok (h, v, badIndex)
  else do
    match ← grow T h v index numItems with
    | (h, v, none) => .ok (h, v, noMemory)
    | (h, v, some (a, i)) => do
      let h ←
        match item with
        | some item => doSplat h a i item numItems
        | none => doConstruct T h a i numItems
      .ok (h, v, index)

/-- With `editItemLocation`; an item that is its own prototype is left alone. -/
def replaceAt (h : Heap (Option α)) (v : VectorImpl) (prototype : Option (Source (Option α)))
    (index : ℕ) : Except Stop (Heap (Option α) × VectorImpl × ℤ) :=
  if v.mCount ≤ index then .ok (h, v, badIndex)
  else do
    let room := index < (← capacity T h v)
    let (h, v) ← if room then editArrayImpl T h v else .ok (h, v)
    match if room then v.mStorage else none, prototype with
    | none, none => .ok (h, v, index)
    | none, some _ => .ok (h, v, noMemory)
    | some a, none => do
      let h ← doDestroy T h a index 1
      let h ← doConstruct T h a index 1
      .ok (h, v, index)
    | some a, some (.inside a' i') =>
      if a' = a ∧ i' = index then .ok (h, v, index)
      else do
        let h ← doDestroy T h a index 1
        let h ← doCopy h a index (.inside a' i') 1
        .ok (h, v, index)
    | some a, some (.outside items) => do
      let h ← doDestroy T h a index 1
      let h ← doCopy h a index (.outside items) 1
      .ok (h, v, index)

/-- `removeItemsAt` -/
def removeItemsAt (h : Heap (Option α)) (v : VectorImpl) (index count : ℕ) :
    Except Stop (Heap (Option α) × VectorImpl × ℤ) :=
  if v.mCount < u32 (index + count) then .ok (h, v, badValue)
  else do
    let (h, v) ← shrink T h v index count
    .ok (h, v, index)

/-- `finish_vector` -/
def finishVector (h : Heap (Option α)) (v : VectorImpl) :
    Except Stop (Heap (Option α) × VectorImpl) := do
  let h ← releaseStorage T h v
  .ok (h, ⟨none, 0⟩)

/-- `clear` -/
def clear (h : Heap (Option α)) (v : VectorImpl) : Except Stop (Heap (Option α) × VectorImpl) :=
  shrink T h v 0 v.mCount

/-- `setCapacity` -/
def setCapacity (h : Heap (Option α)) (v : VectorImpl) (newCapacity : ℕ) :
    Except Stop (Heap (Option α) × VectorImpl × ℤ) := do
  let currentCapacity ← capacity T h v
  if s32 (newCapacity - v.mCount) ≤ 0 then .ok (h, v, currentCapacity)
  else
    match ← alloc (layout T) h (u32 (newCapacity * T.itemSize)) with
    | (h, none) => .ok (h, v, noMemory)
    | (h, some sb) => do
      let h ← doCopy h sb 0 (source v 0) v.mCount
      let h ← releaseStorage T h v
      .ok (h, { v with mStorage := some sb }, newCapacity)

/-- `resize` -/
def resize (h : Heap (Option α)) (v : VectorImpl) (size : ℕ) :
    Except Stop (Heap (Option α) × VectorImpl × ℤ) := do
  let (h, v, result) ←
    if v.mCount < size then insertAt T h v none v.mCount (size - v.mCount)
    else if size < v.mCount then removeItemsAt T h v size (v.mCount - size)
    else .ok (h, v, 0)
  .ok (h, v, if result < 0 then result else size)

/-- The copy constructor. -/
def copyOf (h : Heap (Option α)) (rhs : VectorImpl) :
    Except Stop (Heap (Option α) × VectorImpl) :=
  match rhs.mStorage with
  | none => .ok (h, rhs)
  | some a => do
    let h ← acquire h a
    .ok (h, rhs)

/-- `operator =`, of another vector. -/
def assign (h : Heap (Option α)) (v rhs : VectorImpl) :
    Except Stop (Heap (Option α) × VectorImpl) := do
  let h ← releaseStorage T h v
  if rhs.mCount ≠ 0 then copyOf h rhs else .ok (h, ⟨none, 0⟩)

/-! ### Sorting -/

/-- The inner loop of `sort`: the items from `j` down that are greater than `temp` move up by one,
and `temp` goes where the last one was. -/
def sortInner {β : Type} (cmp : β → β → ℤ) (temp d : β) : ℕ → List β → List β
  | 0, cells => (cells.set 1 (cells.getD 0 d)).set 0 temp
  | j + 1, cells =>
    let cells := cells.set (j + 2) (cells.getD (j + 1) d)
    if 0 < cmp (cells.getD j d) temp then sortInner cmp temp d j cells
    else cells.set (j + 1) temp

/-- `malloc` of memory for one item. -/
def allocTemp (h : Heap (Option α)) : Heap (Option α) × Bool :=
  ({ h with failing := h.failing.tail }, !h.failing.headD false)

/-- The outer loop of `sort`, with `n` items to go.  `edit` says that the array may be written. -/
def sortLoop (cmp : Option α → Option α → ℤ) (h : Heap (Option α)) (v : VectorImpl) (edit : Bool)
    (i : ℕ) : ℕ → Except Stop (Heap (Option α) × VectorImpl × ℤ)
  | 0 => .ok (h, v, 0)
  | n + 1 =>
    match v.mStorage with
    | none => .error .undefined
    | some a => do
      let pair ← h.load a (i - 1) 2
      if 0 < cmp (pair.getD 0 none) (pair.getD 1 none) then
        let (h, v) ← if edit then .ok (h, v) else editArrayImpl T h v
        let (h, temp) := if edit then (h, true) else allocTemp h
        if !temp then .ok (h, v, noMemory)
        else
          match v.mStorage with
          | none => .error .undefined
          | some a => do
            let b ← h.deref a
            let cells := sortInner cmp (b.cells.getD i none) none (i - 1) b.cells
            sortLoop cmp (h.put a (some { b with cells := cells })) v true (i + 1) n
      else sortLoop cmp h v edit (i + 1) n

/-- `sort`: an insertion sort that takes a copy of the item it moves. -/
def sort (h : Heap (Option α)) (v : VectorImpl) (cmp : Option α → Option α → ℤ) :
    Except Stop (Heap (Option α) × VectorImpl × ℤ) :=
  if 1 < s32 v.mCount then sortLoop T cmp h v false 1 (v.mCount - 1) else .ok (h, v, 0)

/-! ### Families of vectors -/

/-- The heap and the vectors of a program. -/
structure State (α : Type) where
  heap : Heap (Option α)
  vectors : List VectorImpl

/-- An item that is passed by reference: it is somewhere else, or item `k` of vector `j`. -/
inductive Item (α : Type)
  | given (x : α)
  | item (j k : ℕ)

/-- An array that is passed by reference: it is somewhere else, or the items of vector `j` from `k`
on. -/
inductive Items (α : Type)
  | given (xs : List α)
  | items (j k : ℕ)

/-- A call, most of them to vector `i`. -/
inductive Call (α : Type)
  | create
  | copy (j : ℕ)
  | assign (i j : ℕ)
  | finish (i : ℕ)
  | insertAt (i : ℕ) (item : Option (Item α)) (index numItems : ℕ)
  | insertArrayAt (i : ℕ) (array : Items α) (index length : ℕ)
  | replaceAt (i : ℕ) (item : Option (Item α)) (index : ℕ)
  | removeItemsAt (i index count : ℕ)
  | resize (i size : ℕ)
  | setCapacity (i newCapacity : ℕ)
  | sort (i : ℕ) (cmp : Option α → Option α → ℤ)
  | clear (i : ℕ)

namespace State

variable (s : State α)

/-- The vector that a call is to. -/
def vector (i : ℕ) : Except Stop VectorImpl :=
  match s.vectors[i]? with
  | some v => .ok v
  | none => .error .undefined

/-- The address of cell `k` of a vector. -/
def address (j k : ℕ) : Except Stop (Source (Option α)) := do .ok (source (← s.vector j) k)

/-- Where the item of a call is read from. -/
def itemSource : Option (Item α) → Except Stop (Option (Source (Option α)))
  | none => .ok none
  | some (.given x) => .ok (some (.outside [some x]))
  | some (.item j k) => do .ok (some (← s.address j k))

/-- Where the items of a call are read from. -/
def arraySource : Items α → Except Stop (Source (Option α))
  | .given xs => .ok (.outside (xs.map some))
  | .items j k => s.address j k

/-- Vector `i` after a call to it. -/
def update (i : ℕ) (r : Heap (Option α) × VectorImpl) : State α := ⟨r.1, s.vectors.set i r.2⟩

end State

/-- One call. -/
def exec (s : State α) : Call α → Except Stop (State α)
  | .create => .ok ⟨s.heap, s.vectors ++ [⟨none, 0⟩]⟩
  | .copy j => do
    let (h, v) ← copyOf s.heap (← s.vector j)
    .ok ⟨h, s.vectors ++ [v]⟩
  | .assign i j => do
    let v ← s.vector i
    let w ← s.vector j
    if i = j then .ok s else .ok (s.update i (← assign T s.heap v w))
  | .finish i => do .ok (s.update i (← finishVector T s.heap (← s.vector i)))
  | .insertAt i item index numItems => do
    let (h, v, _) ← insertAt T s.heap (← s.vector i) (← s.itemSource item) index numItems
    .ok (s.update i (h, v))
  | .insertArrayAt i array index length => do
    let (h, v, _) ← insertArrayAt T s.heap (← s.vector i) (← s.arraySource array) index length
    .ok (s.update i (h, v))
  | .replaceAt i item index => do
    let (h, v, _) ← replaceAt T s.heap (← s.vector i) (← s.itemSource item) index
    .ok (s.update i (h, v))
  | .removeItemsAt i index count => do
    let (h, v, _) ← removeItemsAt T s.heap (← s.vector i) index count
    .ok (s.update i (h, v))
  | .resize i size => do
    let (h, v, _) ← resize T s.heap (← s.vector i) size
    .ok (s.update i (h, v))
  | .setCapacity i newCapacity => do
    let (h, v, _) ← setCapacity T s.heap (← s.vector i) newCapacity
    .ok (s.update i (h, v))
  | .sort i cmp => do
    let (h, v, _) ← sort T s.heap (← s.vector i) cmp
    .ok (s.update i (h, v))
  | .clear i => do .ok (s.update i (← clear T s.heap (← s.vector i)))

end VectorImpl
