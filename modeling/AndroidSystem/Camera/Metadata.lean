/-
Camera metadata packets.

A packet is one block of memory: a header of ten words, an array of 16-byte entry
records and a data area.  A record holds a tag, a type, a count and four bytes
that are either the values themselves (if they fit) or the offset of the values
in the data area.  The functions here are those of `camera_metadata.c`, on the
bytes of that block:

* `placeCameraMetadata`, `allocateCameraMetadata` — an empty packet;
* `addCameraMetadataEntry`, `updateCameraMetadataEntry`,
  `deleteCameraMetadataEntry`, `appendCameraMetadata`, `sortCameraMetadata`,
  `copyCameraMetadata`, `cloneCameraMetadata` — the operations;
* `getCameraMetadataEntry`, `findCameraMetadataEntry` — the readers;
* `validateCameraMetadataStructure` — the check of an untrusted packet.

The platform is ILP32 with eight-byte alignment of `int64_t` and `double`.  The
header is read from memory each time the source reads it, and an access outside
the packet's memory is a fault.  The value array of an update is somewhere else or in the
packet itself, where it is read when it is copied; that of a new entry is somewhere else.  `qsort`
and `bsearch` are the C library's: `Qsort` and `Bsearch` hold what the standard says
of them.  Log messages are left out.
-/
import AndroidSystem.CInt
import AndroidSystem.Memory

open CInt
open Mem (Fault)

namespace Camera

/-! ### Types and tags -/

/-- The types a tag can have, in the order of their numbers. -/
inductive EntryType
  | byte | int32 | float | int64 | double | rational
  deriving DecidableEq, Repr

/-- The number of a type. -/
def EntryType.toNat : EntryType → ℕ
  | .byte => 0
  | .int32 => 1
  | .float => 2
  | .int64 => 3
  | .double => 4
  | .rational => 5

/-- `NUM_TYPES` -/
def numTypes : ℕ := 6

/-- `camera_metadata_type_size` -/
def cameraMetadataTypeSize : List ℕ := [1, 4, 4, 8, 8, 8]

/-- `camera_metadata_type_size[type]`; the array has `numTypes` elements. -/
def typeSize (type : ℕ) : Except Fault ℕ :=
  match cameraMetadataTypeSize[type]? with
  | some size => .ok size
  | none => .error .outOfBounds

/-- The types of the tags, section by section, from `camera_metadata_tag_info.c`. -/
def androidColorCorrection : List EntryType := [.byte, .rational, .float]

def androidControl : List EntryType := [
  .byte, .int32, .byte, .byte, .int32, .int32, .byte, .byte, .int32, .byte, .byte, .byte,
  .int32, .byte, .byte, .byte, .byte, .byte, .byte, .byte, .int32, .int32, .rational, .byte,
  .byte, .byte, .byte, .byte, .int32, .byte, .int32, .byte, .byte, .int32, .byte]

def androidDemosaic : List EntryType := [.byte]

def androidEdge : List EntryType := [.byte, .byte]

def androidFlash : List EntryType := [.byte, .int64, .byte, .byte, .byte, .byte]

def androidFlashInfo : List EntryType := [.byte, .int64]

def androidGeometric : List EntryType := [.byte, .byte]

def androidHotPixel : List EntryType := [.byte]

def androidHotPixelInfo : List EntryType := [.int32]

def androidJpeg : List EntryType := [
  .double, .byte, .int64, .int32, .byte, .byte, .int32, .int32, .int32, .int32]

def androidLens : List EntryType := [
  .float, .float, .float, .float, .byte, .byte, .float, .float, .float, .byte]

def androidLensInfo : List EntryType := [
  .float, .float, .float, .byte, .float, .int32, .float, .float, .int32]

def androidNoiseReduction : List EntryType := [.byte, .byte]

def androidQuirks : List EntryType := [.byte, .byte, .byte, .byte, .byte]

def androidRequest : List EntryType := [
  .int32, .int32, .int32, .byte, .int32, .byte, .int32, .int32]

def androidScaler : List EntryType := [
  .int32, .int32, .int64, .int32, .float, .int64, .int32, .int64, .int32]

def androidSensor : List EntryType := [
  .int64, .int64, .int32, .rational, .int32, .rational, .rational, .rational, .rational,
  .rational, .rational, .int32, .float, .int32, .byte, .byte, .int64, .float]

def androidSensorInfo : List EntryType := [
  .int32, .int32, .byte, .int64, .int64, .float, .int32, .int32]

def androidShading : List EntryType := [.byte, .byte]

def androidStatistics : List EntryType := [
  .byte, .byte, .byte, .int32, .int32, .int32, .byte, .int32, .int32, .float, .float, .rational,
  .byte, .byte]

def androidStatisticsInfo : List EntryType := [.byte, .int32, .int32, .int32, .int32, .int32]

def androidTonemap : List EntryType := [.float, .float, .float, .byte, .int32]

def androidLed : List EntryType := [.byte, .byte]

def androidInfo : List EntryType := [.byte]

def androidBlackLevel : List EntryType := [.byte]

/-- `tag_info`: the type of every tag, section by section. -/
def tagInfo : List (List EntryType) := [
  androidColorCorrection, androidControl, androidDemosaic, androidEdge, androidFlash,
  androidFlashInfo, androidGeometric, androidHotPixel, androidHotPixelInfo, androidJpeg,
  androidLens, androidLensInfo, androidNoiseReduction, androidQuirks, androidRequest,
  androidScaler, androidSensor, androidSensorInfo, androidShading, androidStatistics,
  androidStatisticsInfo, androidTonemap, androidLed, androidInfo, androidBlackLevel]

/-- `VENDOR_SECTION` -/
def vendorSection : ℕ := 0x8000

/-- The vendor's callback for the type of a tag: `-1`, or the number of a type. -/
structure VendorTagOps where
  getCameraVendorTagType : ℕ → ℤ
  isType : ∀ tag, getCameraVendorTagType tag = -1 ∨
    0 ≤ getCameraVendorTagType tag ∧ getCameraVendorTagType tag < numTypes

/-- The type that `tag_info` has for a tag, `-1` for a tag that is not in it. -/
def tableTagType (tag : ℕ) : ℤ :=
  let tagSection := tag / 2 ^ 16
  match tagInfo[tagSection]? with
  | none => -1
  | some types =>
    -- the bound of a section is the number after its last tag
    if tagSection * 2 ^ 16 + types.length ≤ tag then -1
    else
      match types[tag % 2 ^ 16]? with
      | some type => type.toNat
      | none => -1

/-- `get_camera_metadata_tag_type`: the type of a tag, `-1` for an unknown one. -/
def getCameraMetadataTagType (vendorTagOps : Option VendorTagOps) (tag : ℕ) : ℤ :=
  match vendorTagOps with
  | some ops =>
    if vendorSection ≤ tag / 2 ^ 16 then ops.getCameraVendorTagType tag else tableTagType tag
  | none => tableTagType tag

/-! ### Layout -/

/-- The words of the header. -/
inductive Field
  | size | version | flags | entryCount | entryCapacity | entriesStart
  | dataCount | dataCapacity | dataStart | user
  deriving DecidableEq, Repr

/-- Where a word of the header is. -/
def Field.offset : Field → ℕ
  | .size => 0
  | .version => 4
  | .flags => 8
  | .entryCount => 12
  | .entryCapacity => 16
  | .entriesStart => 20
  | .dataCount => 24
  | .dataCapacity => 28
  | .dataStart => 32
  | .user => 36

/-- `sizeof(camera_metadata_t)`. -/
def headerSize : ℕ := 40

/-- `sizeof(camera_metadata_buffer_entry_t)`. -/
def recordSize : ℕ := 16

/-- The alignment of `camera_metadata_t`. -/
def headerAlignment : ℕ := 4

/-- `ENTRY_ALIGNMENT` -/
def entryAlignment : ℕ := 4

/-- `DATA_ALIGNMENT` -/
def dataAlignment : ℕ := 8

/-- `ALIGN_TO(val, alignment)`, for an alignment that is a power of two. -/
def alignTo (val alignment : ℕ) : ℕ := u32 (val + (alignment - 1)) / alignment * alignment

/-- Loads a word of the header. -/
def get (b : Buffer) (f : Field) : Except Fault ℕ := b.load32 f.offset

/-- Stores a word of the header. -/
def set (b : Buffer) (f : Field) (v : ℕ) : Except Fault Buffer := b.store32 f.offset v

/-- An entry record.  The four bytes `data` are the values or their offset. -/
structure Entry where
  tag : ℕ
  count : ℕ
  data : List UInt8
  type : ℕ
  deriving DecidableEq, Repr

/-- `data.offset`. -/
def Entry.offset (e : Entry) : ℕ := leNat e.data

/-- The entry record at `o`. -/
def entryAt (m : Mem) (o : ℕ) : Entry :=
  { tag := m.word o, count := m.word (o + 4), data := m.slice (o + 8) 4,
    type := (m (o + 12)).toNat }

/-- Loads an entry record. -/
def loadEntry (b : Buffer) (o : ℕ) : Except Fault Entry :=
  if b.Inside o recordSize then .ok (entryAt b.mem o) else .error .outOfBounds

/-- The address of record `index` of the packet, from its start. -/
def entryPtr (b : Buffer) (index : ℕ) : Except Fault ℕ := do
  return (← get b .entriesStart) + recordSize * index

/-- `memmove` inside the packet. -/
def memmove (b : Buffer) (dst src n : ℕ) : Except Fault Buffer := do
  b.store dst (← b.load src n)

/-- The first `n` bytes of a value array of the caller. -/
def values (data : List UInt8) (n : ℕ) : Except Fault (List UInt8) :=
  if n ≤ data.length then .ok (data.take n) else .error .outOfBounds

/-- A value array: somewhere else, or in the packet itself from byte `o` on, where the entries
that are read point to. -/
inductive ValueArray
  | outside (bytes : List UInt8)
  | inside (o : ℕ)

/-- The first `n` bytes of a value array, as they are in the packet `dst`. -/
def ValueArray.read (dst : Buffer) (n : ℕ) : ValueArray → Except Fault (List UInt8)
  | outside bytes => values bytes n
  | inside o => dst.load o n

/-- `OK` and `ERROR`. -/
inductive Status
  | ok | error | notFound
  deriving DecidableEq, Repr

/-- `FLAG_SORTED` -/
def flagSorted : ℕ := 1

/-- `flags & FLAG_SORTED`. -/
def isSorted (flags : ℕ) : Bool := flags &&& flagSorted != 0

/-- `flags & ~FLAG_SORTED`. -/
def clearSorted (flags : ℕ) : ℕ := flags &&& (2 ^ 32 - 1 - flagSorted)

/-! ### Creating a packet -/

/-- `calculate_camera_metadata_size`, in `size_t`. -/
def calculateCameraMetadataSize (entryCount dataCount : ℕ) : ℕ :=
  let memoryNeeded := headerSize
  let memoryNeeded := alignTo memoryNeeded entryAlignment
  let memoryNeeded := u32 (memoryNeeded + u32 (recordSize * entryCount))
  let memoryNeeded := alignTo memoryNeeded dataAlignment
  u32 (memoryNeeded + dataCount)

/-- `place_camera_metadata(dst, dst_size, …)`, where `dst_size` is `dst.len`; `none` is `NULL`. -/
def placeCameraMetadata (dst : Option Buffer) (entryCapacity dataCapacity : ℕ) :
    Except Fault (Option Buffer) := do
  let some dst := dst | return none
  if entryCapacity = 0 then return none
  let memoryNeeded := calculateCameraMetadataSize entryCapacity dataCapacity
  if dst.len < memoryNeeded then return none
  let dst ← set dst .version 1
  let dst ← set dst .flags 0
  let dst ← set dst .entryCount 0
  let dst ← set dst .entryCapacity entryCapacity
  let dst ← set dst .entriesStart (alignTo headerSize entryAlignment)
  let dst ← set dst .dataCount 0
  let dst ← set dst .dataCapacity dataCapacity
  let dst ← set dst .size memoryNeeded
  let dataUnaligned := u32 (← entryPtr dst (← get dst .entryCapacity))
  let dst ← set dst .dataStart (alignTo dataUnaligned dataAlignment)
  let dst ← set dst .user 0
  return some dst

/-- `allocate_camera_metadata`, when `malloc` returns the address `addr` of uninitialised
memory. -/
def allocateCameraMetadata (addr : ℕ) (garbage : Mem) (entryCapacity dataCapacity : ℕ) :
    Except Fault (Option Buffer) :=
  if entryCapacity = 0 then return none
  else
    let memoryNeeded := calculateCameraMetadataSize entryCapacity dataCapacity
    placeCameraMetadata (some ⟨addr, memoryNeeded, garbage⟩) entryCapacity dataCapacity

/-! ### Reading entries -/

/-- The number of bytes of the data area that `dataCount` values take; none if they fit the
record. -/
def calculateCameraMetadataEntryDataSize (type dataCount : ℕ) : ℕ :=
  match cameraMetadataTypeSize[type]? with
  | none => 0
  | some size =>
    let dataBytes := u32 (dataCount * size)
    if dataBytes ≤ 4 then 0 else alignTo dataBytes dataAlignment

/-- `camera_metadata_entry_t`; `data` is the address of the values from the packet's start. -/
structure EntryRef where
  index : ℕ
  tag : ℕ
  type : ℕ
  count : ℕ
  data : ℕ
  deriving DecidableEq, Repr

/-- `get_camera_metadata_entry` -/
def getCameraMetadataEntry (src : Buffer) (index : ℕ) :
    Except Fault (Status × Option EntryRef) := do
  if (← get src .entryCount) ≤ index then return (.error, none)
  let ptr ← entryPtr src index
  let entry ← loadEntry src ptr
  let data ←
    if 4 < u32 (entry.count * (← typeSize entry.type)) then do
      pure ((← get src .dataStart) + entry.offset)
    else pure (ptr + 8)
  return (.ok, some ⟨index, entry.tag, entry.type, entry.count, data⟩)

/-- The linear search of `find_camera_metadata_entry`, with `n` entries left from `index` on. -/
def linearSearch (src : Buffer) (tag : ℕ) : ℕ → ℕ → Except Fault (Option ℕ)
  | 0, _ => return none
  | n + 1, index => do
    let entry ← loadEntry src (← entryPtr src index)
    if entry.tag = tag then return some index
    linearSearch src tag n (index + 1)

/-- The records of an array of `n` records at `o`. -/
def entriesAt (m : Mem) (o n : ℕ) : List Entry :=
  (List.range n).map fun i => entryAt m (o + recordSize * i)

/-- The C library's `bsearch` with `compare_entry_tags`: in an array in tag order it finds an
entry with the tag, if there is one. -/
structure Bsearch where
  run : List Entry → ℕ → Option ℕ
  found : ∀ {l tag i}, run l tag = some i → ∃ e, l[i]? = some e ∧ e.tag = tag
  notFound : ∀ {l tag}, l.Pairwise (fun e f => e.tag ≤ f.tag) → run l tag = none →
    ∀ e ∈ l, e.tag ≠ tag

/-- `find_camera_metadata_entry`: a binary search if the packet is marked as sorted. -/
def findCameraMetadataEntry (bsearch : Bsearch) (src : Buffer) (tag : ℕ) :
    Except Fault (Status × Option EntryRef) := do
  let entryCount ← get src .entryCount
  let index ←
    if isSorted (← get src .flags) then do
      let _ ← src.load (← entryPtr src 0) (recordSize * entryCount)
      pure (bsearch.run (entriesAt src.mem (← entryPtr src 0) entryCount) tag)
    else linearSearch src tag entryCount 0
  match index with
  | none => return (.notFound, none)
  | some index => getCameraMetadataEntry src index

/-! ### Changing entries -/

/-- The `n` bytes of values become the last ones of the data area, and belong to the entry at
`entry`. -/
def appendNewData (dst : Buffer) (entry : ℕ) (data : ValueArray) (n dataBytes : ℕ) :
    Except Fault Buffer := do
  let dst ← dst.store32 (entry + 8) (← get dst .dataCount)
  let offset ← dst.load32 (entry + 8)
  let dst ← dst.store ((← get dst .dataStart) + offset) (← data.read dst n)
  set dst .dataCount (u32 ((← get dst .dataCount) + dataBytes))

/-- The values of the entry at `entry` go into its record if they fit, else into the data area. -/
def placeValues (dst : Buffer) (entry : ℕ) (data : ValueArray) (n dataBytes : ℕ) :
    Except Fault Buffer := do
  if dataBytes = 0 then dst.store (entry + 8) (← data.read dst n)
  else appendNewData dst entry data n dataBytes

/-- A cleared record with a tag, a type and a count. -/
def initRecord (dst : Buffer) (entry tag type dataCount : ℕ) : Except Fault Buffer := do
  let dst ← dst.store entry (List.replicate recordSize 0)
  let dst ← dst.store32 entry tag
  let dst ← dst.store (entry + 12) [UInt8.ofNat type]
  dst.store32 (entry + 4) dataCount

/-- `add_camera_metadata_entry_raw` -/
def addCameraMetadataEntryRaw (dst : Buffer) (tag type : ℕ) (data : Option (List UInt8))
    (dataCount : ℕ) : Except Fault (Status × Buffer) := do
  if (← get dst .entryCount) = (← get dst .entryCapacity) then return (.error, dst)
  let some data := data | return (.error, dst)
  let dataBytes := calculateCameraMetadataEntryDataSize type dataCount
  if (← get dst .dataCapacity) < u32 (dataBytes + (← get dst .dataCount)) then return (.error, dst)
  let dataPayloadBytes := u32 (dataCount * (← typeSize type))
  let entry ← entryPtr dst (← get dst .entryCount)
  let dst ← initRecord dst entry tag type dataCount
  let dst ← placeValues dst entry (.outside data) dataPayloadBytes dataBytes
  let dst ← set dst .entryCount (u32 ((← get dst .entryCount) + 1))
  let dst ← set dst .flags (clearSorted (← get dst .flags))
  return (.ok, dst)

/-- `add_camera_metadata_entry`, which looks the type up. -/
def addCameraMetadataEntry (vendorTagOps : Option VendorTagOps) (dst : Buffer) (tag : ℕ)
    (data : Option (List UInt8)) (dataCount : ℕ) : Except Fault (Status × Buffer) :=
  let type := getCameraMetadataTagType vendorTagOps tag
  if type = -1 then return (.error, dst)
  else addCameraMetadataEntryRaw dst tag type.toNat data dataCount

/-- The loop that lowers the offsets behind the entry at `entry` by `dataBytes`, from entry `i`
on.  Both the bound and the offset compared with are read anew in every round. -/
def shiftOffsets (entry dataBytes : ℕ) : ℕ → ℕ → Buffer → Except Fault Buffer
  | 0, _, dst => return dst
  | fuel + 1, i, dst => do
    if (← get dst .entryCount) ≤ i then return dst
    let ptr ← entryPtr dst i
    let e ← loadEntry dst ptr
    let offset ← dst.load32 (entry + 8)
    let dst ←
      if 0 < calculateCameraMetadataEntryDataSize e.type e.count ∧ offset < e.offset then
        dst.store32 (ptr + 8) (usub e.offset dataBytes)
      else pure dst
    shiftOffsets entry dataBytes fuel (i + 1) dst

/-- The data of the entry `e` at `entry` leaves the data area, in `delete_camera_metadata_entry`:
the bytes behind it move down, and so do the offsets. -/
def deleteData (dst : Buffer) (entry : ℕ) (e : Entry) (dataBytes : ℕ) : Except Fault Buffer := do
  let start := (← get dst .dataStart) + e.offset
  -- `size_t` arithmetic: it wraps in a packet whose `data_count` is too small
  let length := usub (usub (← get dst .dataCount) e.offset) dataBytes
  let dst ← memmove dst start (start + dataBytes) length
  let dst ← shiftOffsets entry dataBytes (2 ^ 32) 0 dst
  set dst .dataCount (usub (← get dst .dataCount) dataBytes)

/-- The record `index` at `entry` leaves the array of records. -/
def eraseRecord (dst : Buffer) (entry index : ℕ) : Except Fault Buffer := do
  let length := u32 (recordSize * usub (usub (← get dst .entryCount) index) 1)
  let dst ← memmove dst entry (entry + recordSize) length
  set dst .entryCount (usub (← get dst .entryCount) 1)

/-- `delete_camera_metadata_entry`: data and entries behind it move up. -/
def deleteCameraMetadataEntry (dst : Buffer) (index : ℕ) : Except Fault (Status × Buffer) := do
  if (← get dst .entryCount) ≤ index then return (.error, dst)
  let entry ← entryPtr dst index
  let e ← loadEntry dst entry
  let dataBytes := calculateCameraMetadataEntryDataSize e.type e.count
  let dst ← if 0 < dataBytes then deleteData dst entry e dataBytes else pure dst
  let dst ← eraseRecord dst entry index
  return (.ok, dst)

/-- The old data of an entry leaves the data area, in `update_camera_metadata_entry`: the same
steps as in `deleteData`, with `data_count` lowered before the offsets. -/
def removeOldData (dst : Buffer) (entry : ℕ) (e : Entry) (entryBytes : ℕ) :
    Except Fault Buffer := do
  let start := (← get dst .dataStart) + e.offset
  let length := usub (usub (← get dst .dataCount) e.offset) entryBytes
  let dst ← memmove dst start (start + entryBytes) length
  let dst ← set dst .dataCount (usub (← get dst .dataCount) entryBytes)
  shiftOffsets entry entryBytes (2 ^ 32) 0 dst

/-- `update_camera_metadata_entry`; `updatedEntry` says whether the caller passed an entry to be
filled in. -/
def updateCameraMetadataEntry (dst : Buffer) (index : ℕ) (data : ValueArray) (dataCount : ℕ)
    (updatedEntry : Bool) : Except Fault (Status × Buffer × Option EntryRef) := do
  if (← get dst .entryCount) ≤ index then return (.error, dst, none)
  let entry ← entryPtr dst index
  let e ← loadEntry dst entry
  let dataBytes := calculateCameraMetadataEntryDataSize e.type dataCount
  let dataPayloadBytes := u32 (dataCount * (← typeSize e.type))
  let entryBytes := calculateCameraMetadataEntryDataSize e.type e.count
  if dataBytes ≠ entryBytes ∧ (← get dst .dataCapacity) <
      usub (u32 ((← get dst .dataCount) + dataBytes)) entryBytes then
    return (.error, dst, none)
  let dst ←
    if dataBytes ≠ entryBytes ∧ entryBytes ≠ 0 then removeOldData dst entry e entryBytes
    else pure dst
  -- only now are the values read: those in the packet may have moved
  let dst ←
    if dataBytes ≠ 0 ∧ dataBytes = entryBytes then
      dst.store ((← get dst .dataStart) + e.offset) (← data.read dst dataPayloadBytes)
    else placeValues dst entry data dataPayloadBytes dataBytes
  let dst ← dst.store32 (entry + 4) dataCount
  let updated ←
    if updatedEntry then do
      let (_, updated) ← getCameraMetadataEntry dst index
      pure updated
    else pure none
  return (.ok, dst, updated)

/-! ### Whole packets -/

/-- The loop of `append_camera_metadata` over the `n` appended records from `ptr` on. -/
def raiseOffsets (dataCount : ℕ) : ℕ → ℕ → Buffer → Except Fault Buffer
  | 0, _, dst => return dst
  | n + 1, ptr, dst => do
    let e ← loadEntry dst ptr
    let dst ←
      if 0 < calculateCameraMetadataEntryDataSize e.type e.count then
        dst.store32 (ptr + 8) (u32 (e.offset + dataCount))
      else pure dst
    raiseOffsets dataCount n (ptr + recordSize) dst

/-- The sorted flag of `dst` when `srcEntries` entries of `src` come behind its `dstEntries`. -/
def mergeSorted (dst src : Buffer) (dstEntries srcEntries : ℕ) : Except Fault Buffer := do
  if dstEntries = 0 then
    -- appending onto an empty packet keeps the sorted state
    set dst .flags ((← get dst .flags) ||| ((← get src .flags) &&& flagSorted))
  else if srcEntries ≠ 0 then set dst .flags (clearSorted (← get dst .flags))
  else return dst

/-- `append_camera_metadata` -/
def appendCameraMetadata (dst src : Buffer) : Except Fault (Status × Buffer) := do
  let srcEntries ← get src .entryCount
  let dstEntries ← get dst .entryCount
  let srcData ← get src .dataCount
  let dstData ← get dst .dataCount
  if (← get dst .entryCapacity) < u32 (srcEntries + dstEntries) then return (.error, dst)
  if (← get dst .dataCapacity) < u32 (srcData + dstData) then return (.error, dst)
  let records ← src.load (← entryPtr src 0) (recordSize * srcEntries)
  let ptr ← entryPtr dst dstEntries
  let dst ← dst.store ptr records
  let data ← src.load (← get src .dataStart) srcData
  let dst ← dst.store ((← get dst .dataStart) + dstData) data
  let dst ← if dstData ≠ 0 then raiseOffsets dstData srcEntries ptr dst else pure dst
  let dst ← mergeSorted dst src dstEntries srcEntries
  let dst ← set dst .entryCount (u32 (dstEntries + srcEntries))
  let dst ← set dst .dataCount (u32 (dstData + srcData))
  return (.ok, dst)

/-- The tag of a record given by its bytes. -/
def recordTag (record : List UInt8) : ℕ := leNat (record.take 4)

/-- The C library's `qsort` with `compare_entry_tags`: any permutation in tag order. -/
structure Qsort where
  run : List (List UInt8) → List (List UInt8)
  perm : ∀ l, (run l).Perm l
  sorted : ∀ l, (run l).Pairwise fun r s => recordTag r ≤ recordTag s

/-- The records of an array of `n` records at `o`, as bytes. -/
def recordsAt (m : Mem) (o n : ℕ) : List (List UInt8) :=
  (List.range n).map fun i => m.slice (o + recordSize * i) recordSize

/-- `sort_camera_metadata`, which trusts the mark. -/
def sortCameraMetadata (qsort : Qsort) (dst : Buffer) : Except Fault (Status × Buffer) := do
  let flags ← get dst .flags
  if isSorted flags then return (.ok, dst)
  let entries ← entryPtr dst 0
  let entryCount ← get dst .entryCount
  let _ ← dst.load entries (recordSize * entryCount)
  let dst ← dst.store entries (qsort.run (recordsAt dst.mem entries entryCount)).flatten
  let flags ← get dst .flags
  let dst ← set dst .flags (flags ||| flagSorted)
  return (.ok, dst)

/-- `get_camera_metadata_compact_size` -/
def getCameraMetadataCompactSize (metadata : Buffer) : Except Fault ℕ := do
  return calculateCameraMetadataSize (← get metadata .entryCount) (← get metadata .dataCount)

/-- `copy_camera_metadata(dst, dst_size, src)`, where `dst_size` is `dst.len`.  The result of
`place_camera_metadata` is used without a check. -/
def copyCameraMetadata (dst : Option Buffer) (src : Buffer) : Except Fault (Option Buffer) := do
  let memoryNeeded ← getCameraMetadataCompactSize src
  let some dst := dst | return none
  if dst.len < memoryNeeded then return none
  let entryCount ← get src .entryCount
  let dataCount ← get src .dataCount
  let some dst ← placeCameraMetadata (some dst) entryCount dataCount | .error .nullDeref
  let dst ← set dst .flags (← get src .flags)
  let dst ← set dst .entryCount entryCount
  let dst ← set dst .dataCount dataCount
  let records ← src.load (← entryPtr src 0) (recordSize * entryCount)
  let dst ← dst.store (← entryPtr dst 0) records
  let data ← src.load (← get src .dataStart) dataCount
  let dst ← dst.store (← get dst .dataStart) data
  let dst ← set dst .user 0
  return some dst

/-- `clone_camera_metadata`, when `malloc` returns the address `addr`. -/
def cloneCameraMetadata (addr : ℕ) (garbage : Mem) (src : Buffer) :
    Except Fault (Option Buffer) := do
  let clone ← allocateCameraMetadata addr garbage (← get src .entryCount) (← get src .dataCount)
  let some clone := clone | return none
  let (res, clone) ← appendCameraMetadata clone src
  if res ≠ .ok then return none
  return some clone

/-! ### Checking a packet -/

/-- The checks of `validate_camera_metadata_structure` on entry `i`.  They read the memory behind
the pointer they are given, whether it belongs to the packet or not. -/
def validateEntry (vendorTagOps : Option VendorTagOps) (metadata : Buffer) (i : ℕ) : Bool :=
  let m := metadata.mem
  let dataStart := m.word Field.dataStart.offset
  let ptr := m.word Field.entriesStart.offset + recordSize * i
  let address := u32 (metadata.addr + ptr)
  let entry := entryAt m ptr
  let tagType := getCameraMetadataTagType vendorTagOps entry.tag
  let dataSize := calculateCameraMetadataEntryDataSize entry.type entry.count
  if address ≠ alignTo address entryAlignment then false
  else if numTypes ≤ entry.type then false
  else if tagType ≠ entry.type ∧ entry.tag / 2 ^ 16 < vendorSection then false
  else if dataSize ≠ 0 then
    let data := u32 (metadata.addr + dataStart + entry.offset)
    let dataEntryEnd := u32 (entry.offset + dataSize)
    if data ≠ alignTo data dataAlignment then false
    else if dataEntryEnd < entry.offset ∨ m.word Field.dataCapacity.offset < dataEntryEnd then false
    else true
  else if entry.count = 0 ∧ entry.offset ≠ 0 then false
  else true

/-- `validate_camera_metadata_structure` -/
def validateCameraMetadataStructure (vendorTagOps : Option VendorTagOps) (metadata : Option Buffer)
    (expectedSize : Option ℕ) : Status :=
  match metadata with
  | none => .error
  | some metadata =>
    let word (f : Field) := metadata.mem.word f.offset
    let entriesEnd := u32 (word .entriesStart + word .entryCapacity)
    let dataEnd := u32 (word .dataStart + word .dataCapacity)
    let misaligned (alignment : ℕ) : Bool := u32 metadata.addr ≠ alignTo metadata.addr alignment
    if [headerAlignment, entryAlignment, dataAlignment].any misaligned then .error
    else if expectedSize.any (· < word .size) then .error
    else if word .entryCapacity < word .entryCount then .error
    -- the end of the entries adds a number of entries to a number of bytes
    else if entriesEnd < word .entriesStart ∨ word .dataStart < entriesEnd then .error
    else if dataEnd < word .dataStart ∨ word .size < dataEnd then .error
    else if (List.range (word .entryCount)).all (validateEntry vendorTagOps metadata) then .ok
    else .error

end Camera
