/-
Strings in shared buffers (`libutils/String8.cpp`, `libutils/String16.cpp`).

The units of a string and a zero behind them fill a shared buffer; the length of a string is
computed from the size of its buffer.  All empty strings that were not edited share one
buffer, to which a global variable points.  `String8` and `String16` share the model of
their buffers, with units of one and two bytes; the functions of each are in a namespace
of its own.

A `Call` is a call to one of the strings of a program.  The characters it takes may be
anywhere, also in a string: `own j k` points to unit `k` of string `j`.
-/
import AndroidSystem.SharedBuffer

open CInt CountedHeap SharedBuffer

namespace Strings

/-! ### Buffers of units -/

/-- The type of a string. -/
inductive Kind
  | string8 | string16
  deriving DecidableEq, Repr

/-- `sizeof(char)` or `sizeof(char16_t)`. -/
def Kind.unitSize : Kind → ℕ
  | string8 => 1
  | string16 => 2

/-- Units in a buffer; a unit is `none` if nothing was written to it. -/
abbrev Memory := Heap (Option ℕ)

/-- Arrays of characters in shared memory. -/
def layout (k : Kind) : Layout (Option ℕ) := ⟨k.unitSize, none⟩

/-- `NO_MEMORY` -/
def noMemory : ℤ := -12

/-- `size()`. -/
def size (k : Kind) (h : Memory) (mString : ℕ) : Except Stop ℕ := do
  let b ← h.deref mString
  .ok (b.size / k.unitSize - 1)

/-- `strlen`: the number of units before the first zero. -/
def strlen (h : Memory) : Source (Option ℕ) → Except Stop ℕ
  | .outside units =>
    match units.findIdx? (· == some 0) with
    | some n => .ok n
    | none => .error .undefined
  | .inside a i => do
    let b ← h.deref a
    match (b.cells.drop i).findIdx? (· == some 0) with
    | some n => .ok n
    | none => .error .undefined

/-- `getEmptyString`, of a global buffer at `empty`. -/
def getEmptyString (h : Memory) (empty : ℕ) : Except Stop (Memory × ℕ) := do
  .ok (← acquire h empty, empty)

/-- `setTo` of another string, which is the same for both types. -/
def setToString (h : Memory) (mString other : ℕ) : Except Stop (Memory × ℕ × ℤ) := do
  let h ← acquire h other
  let (h, _) ← release h mString false
  .ok (h, other, 0)

end Strings

open Strings

/-! ### String8 -/

namespace String8

/-- `allocFromUTF8` -/
def allocFromUTF8 (h : Memory) (empty : ℕ) (in' : Source (Option ℕ)) (len : ℕ) :
    Except Stop (Memory × Option ℕ) :=
  if 0 < len then do
    match ← alloc (layout .string8) h (u32 (len + 1)) with
    | (h, none) => .ok (h, none)
    | (h, some str) =>
      let h ← memcpy h str 0 in' len
      let h ← h.store str len [some 0]
      .ok (h, some str)
  else do
    let (h, str) ← getEmptyString h empty
    .ok (h, some str)

def setTo (h : Memory) (empty mString : ℕ) (other : Source (Option ℕ)) (len : ℕ) :
    Except Stop (Memory × ℕ × ℤ) := do
  let (h, newString) ← allocFromUTF8 h empty other len
  let (h, _) ← release h mString false
  match newString with
  | some newString => .ok (h, newString, 0)
  | none =>
    let (h, mString) ← getEmptyString h empty
    .ok (h, mString, noMemory)

/-- `real_append` -/
def realAppend (h : Memory) (mString : ℕ) (other : Source (Option ℕ)) (otherLen : ℕ) :
    Except Stop (Memory × ℕ × ℤ) := do
  let myLen ← size .string8 h mString
  match ← editResize (layout .string8) h mString (u32 (myLen + otherLen + 1)) with
  | (h, none) => .ok (h, mString, noMemory)
  | (h, some str) =>
    let h ← memcpy h str myLen other otherLen
    let h ← h.store str (myLen + otherLen) [some 0]
    .ok (h, str, 0)

def append (h : Memory) (mString other : ℕ) : Except Stop (Memory × ℕ × ℤ) := do
  let otherLen ← size .string8 h other
  if (← size .string8 h mString) = 0 then setToString h mString other
  else if otherLen = 0 then .ok (h, mString, 0)
  else realAppend h mString (.inside other 0) otherLen

def appendChars (h : Memory) (empty mString : ℕ) (other : Source (Option ℕ)) (otherLen : ℕ) :
    Except Stop (Memory × ℕ × ℤ) := do
  if (← size .string8 h mString) = 0 then setTo h empty mString other otherLen
  else if otherLen = 0 then .ok (h, mString, 0)
  else realAppend h mString other otherLen

end String8

/-! ### String16 -/

namespace String16

def setTo (h : Memory) (mString : ℕ) (other : Source (Option ℕ)) (len : ℕ) :
    Except Stop (Memory × ℕ × ℤ) := do
  match ← editResize (layout .string16) h mString (u32 ((len + 1) * 2)) with
  | (h, none) => .ok (h, mString, noMemory)
  | (h, some str) =>
    let h ← memmove h str 0 other len
    let h ← h.store str len [some 0]
    .ok (h, str, 0)

/-- `setTo` of a part of another string, or of this one (`same`). -/
def setToRange (h : Memory) (empty mString other : ℕ) (same : Bool) (len begin : ℕ) :
    Except Stop (Memory × ℕ × ℤ) := do
  let n ← size .string16 h other
  if n ≤ begin then
    let (h, _) ← release h mString false
    let (h, mString) ← getEmptyString h empty
    .ok (h, mString, 0)
  else
    let len := if n < u32 (begin + len) then n - begin else len
    if begin = 0 ∧ len = n then setToString h mString other
    else if same then .error .fatal
    else setTo h mString (.inside other begin) len

def append (h : Memory) (mString other : ℕ) : Except Stop (Memory × ℕ × ℤ) := do
  let myLen ← size .string16 h mString
  let otherLen ← size .string16 h other
  if myLen = 0 then setToString h mString other
  else if otherLen = 0 then .ok (h, mString, 0)
  else
    match ← editResize (layout .string16) h mString (u32 ((myLen + otherLen + 1) * 2)) with
    | (h, none) => .ok (h, mString, noMemory)
    | (h, some str) =>
      let h ← memcpy h str myLen (.inside other 0) (otherLen + 1)
      .ok (h, str, 0)

def appendChars (h : Memory) (mString : ℕ) (chrs : Source (Option ℕ)) (otherLen : ℕ) :
    Except Stop (Memory × ℕ × ℤ) := do
  let myLen ← size .string16 h mString
  if myLen = 0 then setTo h mString chrs otherLen
  else if otherLen = 0 then .ok (h, mString, 0)
  else
    match ← editResize (layout .string16) h mString (u32 ((myLen + otherLen + 1) * 2)) with
    | (h, none) => .ok (h, mString, noMemory)
    | (h, some str) =>
      let h ← memcpy h str myLen chrs otherLen
      let h ← h.store str (myLen + otherLen) [some 0]
      .ok (h, str, 0)

/-- `insert` -/
def insert (h : Memory) (mString pos : ℕ) (chrs : Source (Option ℕ)) (len : ℕ) :
    Except Stop (Memory × ℕ × ℤ) := do
  let myLen ← size .string16 h mString
  if myLen = 0 then setTo h mString chrs len
  else if len = 0 then .ok (h, mString, 0)
  else
    let pos := if myLen < pos then myLen else pos
    match ← editResize (layout .string16) h mString (u32 ((myLen + len + 1) * 2)) with
    | (h, none) => .ok (h, mString, noMemory)
    | (h, some str) =>
      let h ← if pos < myLen then memmove h str (pos + len) (.inside str pos) (myLen - pos)
        else .ok h
      let h ← memcpy h str pos chrs len
      let h ← h.store str (myLen + len) [some 0]
      .ok (h, str, 0)

/-- The loops of `makeLower` and `replaceAll`, from unit `i` on for `n` units: a unit for which `p`
holds is replaced, and before the first of them the buffer is made the string's own (`edit`). -/
def replaceLoop (p : ℕ → Bool) (f : ℕ → ℕ) (h : Memory) (mString : ℕ) (edit : Bool) (i : ℕ) :
    ℕ → Except Stop (Memory × ℕ × ℤ)
  | 0 => .ok (h, mString, 0)
  | n + 1 => do
    match ← h.load mString i 1 with
    | [some v] =>
      if p v then
        match ← if edit then .ok (h, some mString)
            else SharedBuffer.edit (layout .string16) h mString with
        | (h, none) => .ok (h, mString, noMemory)
        | (h, some mString) =>
          let h ← h.store mString i [some (f v)]
          replaceLoop p f h mString true (i + 1) n
      else replaceLoop p f h mString edit (i + 1) n
    | _ => .error .undefined

/-- The letters that `makeLower` looks for. -/
def isUpper (v : ℕ) : Bool := 65 ≤ v && v ≤ 90

/-- `tolower`, of such a letter. -/
def tolower (v : ℕ) : ℕ := v + 32

/-- `makeLower` -/
def makeLower (h : Memory) (mString : ℕ) : Except Stop (Memory × ℕ × ℤ) := do
  replaceLoop isUpper tolower h mString false 0 (← size .string16 h mString)

/-- `replaceAll` -/
def replaceAll (h : Memory) (mString replaceThis withThis : ℕ) :
    Except Stop (Memory × ℕ × ℤ) := do
  replaceLoop (· == replaceThis) (fun _ => withThis) h mString false 0
    (← size .string16 h mString)

/-- The end of `remove`: what is behind the first `len` units is cut off. -/
def cutOff (h : Memory) (mString len : ℕ) : Except Stop (Memory × ℕ × ℤ) := do
  match ← editResize (layout .string16) h mString (u32 ((len + 1) * 2)) with
  | (h, none) => .ok (h, mString, noMemory)
  | (h, some str) =>
    let h ← h.store str len [some 0]
    .ok (h, str, 0)

/-- `remove` -/
def remove (h : Memory) (empty mString len begin : ℕ) : Except Stop (Memory × ℕ × ℤ) := do
  let n ← size .string16 h mString
  if n ≤ begin then
    let (h, _) ← release h mString false
    let (h, mString) ← getEmptyString h empty
    .ok (h, mString, 0)
  else
    let len := if n < u32 (begin + len) then n - begin else len
    if begin = 0 ∧ len = n then .ok (h, mString, 0)
    else if 0 < begin then
      match ← editResize (layout .string16) h mString (u32 ((n + 1) * 2)) with
      | (h, none) => .ok (h, mString, noMemory)
      | (h, some str) =>
        let h ← memmove h str 0 (.inside str begin) (n - begin + 1)
        cutOff h str len
    else cutOff h mString len

end String16

/-! ### Calls -/

namespace Strings

/-- The global buffer of empty strings, and the strings. -/
structure State where
  heap : Memory
  empty : ℕ
  strings : List ℕ

/-- Characters that are passed by a pointer: they are somewhere else, or in string `j` from `k`
on. -/
inductive Chars
  | given (units : List ℕ)
  | own (j k : ℕ)
  deriving DecidableEq, Repr

/-- How many characters are passed: a number is given, or they end with a zero. -/
inductive Length
  | units (n : ℕ)
  | terminated
  deriving DecidableEq, Repr

/-- A call, most of them to string `i`. -/
inductive Call
  | create
  | copy (j : ℕ)
  | assign (i j : ℕ)
  | setTo (i : ℕ) (other : Chars) (len : Length)
  | setToRange (i j len begin : ℕ)
  | append (i j : ℕ)
  | appendChars (i : ℕ) (chrs : Chars) (len : Length)
  | insert (i pos : ℕ) (chrs : Chars) (len : Length)
  | makeLower (i : ℕ)
  | replaceAll (i replaceThis withThis : ℕ)
  | remove (i len begin : ℕ)
  | destroy (i : ℕ)
  deriving DecidableEq, Repr

namespace State

variable (s : State)

/-- The string with a number. -/
def string (i : ℕ) : Except Stop ℕ :=
  match s.strings[i]? with
  | some a => .ok a
  | none => .error .undefined

/-- Where the characters of a call are read from. -/
def source : Chars → Except Stop (Source (Option ℕ))
  | .given units => .ok (.outside (units.map some))
  | .own j k => do .ok (.inside (← s.string j) k)

/-- How many characters a call gives. -/
def count (src : Source (Option ℕ)) : Length → Except Stop ℕ
  | .units n => .ok n
  | .terminated => strlen s.heap src

/-- String `i` after a call to it. -/
def update (i : ℕ) (r : Memory × ℕ × ℤ) : State :=
  { s with
    heap := r.1
    strings := s.strings.set i r.2.1 }

end State

/-- One call. -/
def exec (k : Kind) (s : State) : Call → Except Stop State
  | .create => do
    let (h, a) ← getEmptyString s.heap s.empty
    .ok ⟨h, s.empty, s.strings ++ [a]⟩
  | .copy j => do
    let a ← s.string j
    .ok ⟨← acquire s.heap a, s.empty, s.strings ++ [a]⟩
  | .assign i j => do .ok (s.update i (← setToString s.heap (← s.string i) (← s.string j)))
  | .setTo i other len => do
    let a ← s.string i
    let src ← s.source other
    let n ← s.count src len
    match k with
    | .string8 => do .ok (s.update i (← String8.setTo s.heap s.empty a src n))
    | .string16 => do .ok (s.update i (← String16.setTo s.heap a src n))
  | .append i j => do
    let a ← s.string i
    let other ← s.string j
    match k with
    | .string8 => do .ok (s.update i (← String8.append s.heap a other))
    | .string16 => do .ok (s.update i (← String16.append s.heap a other))
  | .appendChars i chrs len => do
    let a ← s.string i
    let src ← s.source chrs
    let n ← s.count src len
    match k with
    | .string8 => do .ok (s.update i (← String8.appendChars s.heap s.empty a src n))
    | .string16 => do .ok (s.update i (← String16.appendChars s.heap a src n))
  | .setToRange i j len begin => do
    let a ← s.string i
    .ok (s.update i (← String16.setToRange s.heap s.empty a (← s.string j) (i == j) len begin))
  | .insert i pos chrs len => do
    let a ← s.string i
    let src ← s.source chrs
    .ok (s.update i (← String16.insert s.heap a pos src (← s.count src len)))
  | .makeLower i => do .ok (s.update i (← String16.makeLower s.heap (← s.string i)))
  | .replaceAll i replaceThis withThis => do
    .ok (s.update i (← String16.replaceAll s.heap (← s.string i) replaceThis withThis))
  | .remove i len begin => do
    .ok (s.update i (← String16.remove s.heap s.empty (← s.string i) len begin))
  | .destroy i => do
    let (h, _) ← release s.heap (← s.string i) false
    .ok ⟨h, s.empty, s.strings.eraseIdx i⟩

/-- The calls that the type of the strings has. -/
def Offers : Kind → Call → Prop
  | .string16, _ => True
  | .string8, .setToRange .. | .string8, .insert .. | .string8, .makeLower _
  | .string8, .replaceAll .. | .string8, .remove .. => False
  | .string8, _ => True

/-- No strings yet: the buffer of empty strings is all there is. -/
def init (k : Kind) : State := ⟨⟨[some ⟨1, k.unitSize, [some 0]⟩], []⟩, 0, []⟩

end Strings
