/-
What `validate_camera_metadata_structure` checks.

`Valid` says what the validator has found out when it returns `OK`.  Two questions are
asked of it:

* are the accesses to a packet that was accepted inside its buffer
  (`validated_accesses`)?  The validator adds a number of entries to an offset in
  bytes, so records may lie behind the end (`truncatedRecord`); it has no check of the
  size of the buffer against the header, of `data_count`, or of values whose size
  wraps;
* are the packets that the functions build accepted (`validate_of_emptied`)?  An update
  to no values leaves the data word of an entry, which the validator wants to be zero
  (`emptiedEntry`).
-/
import AndroidSystem.Camera.Reachable

open CInt List
open Mem (Fault)

namespace Camera

open Packet

variable {b : Buffer} {e : Entry} {h : History} {i : ℕ} {ops : Option VendorTagOps}

/-! ### What is checked -/

/-- The checks on the record `e` at `ptr`. -/
structure ValidEntry (ops : Option VendorTagOps) (b : Buffer) (ptr : ℕ) (e : Entry) : Prop where
  aligned : u32 (b.addr + ptr) = alignTo (u32 (b.addr + ptr)) entryAlignment
  type : e.type < numTypes
  tag : e.tag / 2 ^ 16 < vendorSection → getCameraMetadataTagType ops e.tag = e.type
  data : e.dataSize ≠ 0 →
    u32 (b.addr + hdr b .dataStart + e.offset) =
      alignTo (u32 (b.addr + hdr b .dataStart + e.offset)) dataAlignment ∧
    e.offset ≤ u32 (e.offset + e.dataSize) ∧ u32 (e.offset + e.dataSize) ≤ hdr b .dataCapacity
  empty : e.dataSize = 0 → e.count = 0 → e.offset = 0

/-- The checks on a packet, with `n` as the expected size. -/
structure Valid (ops : Option VendorTagOps) (b : Buffer) (n : ℕ) : Prop where
  aligned : ∀ k ∈ [headerAlignment, entryAlignment, dataAlignment], u32 b.addr = alignTo b.addr k
  size : hdr b .size ≤ n
  count : hdr b .entryCount ≤ hdr b .entryCapacity
  entries : hdr b .entriesStart ≤ u32 (hdr b .entriesStart + hdr b .entryCapacity) ∧
    u32 (hdr b .entriesStart + hdr b .entryCapacity) ≤ hdr b .dataStart
  data : hdr b .dataStart ≤ u32 (hdr b .dataStart + hdr b .dataCapacity) ∧
    u32 (hdr b .dataStart + hdr b .dataCapacity) ≤ hdr b .size
  entry : ∀ i e, (packet b).entries[i]? = some e → ValidEntry ops b (hdr b .entriesStart + 16 * i) e

theorem validateEntry_iff (ops : Option VendorTagOps) (b : Buffer) (i : ℕ) :
    validateEntry ops b i = true ↔ ValidEntry ops b (hdr b .entriesStart + 16 * i)
      (entryAt b.mem (hdr b .entriesStart + 16 * i)) := by
  have hword : ∀ f : Field, b.mem.word f.offset = hdr b f := fun _ => (rfl)
  simp only [validateEntry, hword, recordSize]
  generalize entryAt b.mem (hdr b .entriesStart + 16 * i) = e
  rw [← Entry.dataSize]
  constructor
  · intro hv
    split_ifs at hv with h₁ h₂ h₃ h₄ h₅ h₆ h₇ <;> try cases hv
    · exact ⟨not_not.mp h₁, Nat.not_le.mp h₂, fun ht => by_contra fun hne => h₃ ⟨hne, ht⟩,
        fun _ => ⟨not_not.mp h₅, by omega, by omega⟩, fun h0 => absurd h0 h₄⟩
    · exact ⟨not_not.mp h₁, Nat.not_le.mp h₂, fun ht => by_contra fun hne => h₃ ⟨hne, ht⟩,
        fun h0 => absurd (not_not.mp h₄) h0, fun _ hc => by_contra fun hne => h₇ ⟨hc, hne⟩⟩
  · rintro ⟨h₁, h₂, h₃, h₄, h₅⟩
    rw [if_neg (not_not.mpr h₁), if_neg (Nat.not_le.mpr h₂), if_neg fun hc => hc.1 (h₃ hc.2)]
    by_cases h0 : e.dataSize = 0
    · rw [if_neg (not_not.mpr h0), if_neg fun hc => hc.2 (h₅ h0 hc.1)]
    · obtain ⟨h₆, h₇, h₈⟩ := h₄ h0
      rw [if_pos h0, if_neg (not_not.mpr h₆), if_neg (by omega)]

/-- **The validator** checks what `Valid` says. -/
theorem validate_iff (ops : Option VendorTagOps) (b : Buffer) (n : ℕ) :
    validateCameraMetadataStructure ops (some b) (some n) = .ok ↔ Valid ops b n := by
  have hword : ∀ f : Field, b.mem.word f.offset = hdr b f := fun _ => (rfl)
  have hentries : (List.range (hdr b .entryCount)).all (validateEntry ops b) = true ↔
      ∀ i e, (packet b).entries[i]? = some e →
        ValidEntry ops b (hdr b .entriesStart + 16 * i) e := by
    rw [all_eq_true]
    constructor
    · intro hall i e he
      obtain ⟨hi, hentry⟩ := entryAt_of_getElem? he
      rw [← hentry]
      exact (validateEntry_iff ops b i).mp (hall i (mem_range.mpr hi))
    · intro hall i hi
      have hi' : i < (packet b).entries.length := by
        rw [← hdr_entryCount]
        exact mem_range.mp hi
      have he := getElem?_eq_getElem hi'
      rw [validateEntry_iff, (entryAt_of_getElem? he).2]
      exact hall i _ he
  have haligned : ([headerAlignment, entryAlignment, dataAlignment].any fun k =>
      decide (u32 b.addr ≠ alignTo b.addr k)) = false ↔
      ∀ k ∈ [headerAlignment, entryAlignment, dataAlignment], u32 b.addr = alignTo b.addr k := by
    rw [any_eq_false]
    exact forall₂_congr fun k _ => by rw [decide_eq_true_eq, not_not]
  simp only [validateCameraMetadataStructure, hword, Option.any_some]
  constructor
  · intro hv
    split_ifs at hv with h₁ h₂ h₃ h₄ h₅ h₆
    exact ⟨haligned.mp (Bool.eq_false_of_not_eq_true h₁),
      Nat.not_lt.mp fun hlt => h₂ (decide_eq_true hlt), Nat.not_lt.mp h₃, ⟨by omega, by omega⟩,
      ⟨by omega, by omega⟩, hentries.mp h₆⟩
  · rintro ⟨h₁, h₂, h₃, h₄, h₅, h₆⟩
    rw [if_neg (by rw [haligned.mpr h₁]; exact Bool.false_ne_true),
      if_neg (by rw [decide_eq_true_eq]; omega), if_neg (by omega), if_neg (by omega),
      if_neg (by omega), if_pos (hentries.mpr h₆)]

theorem u32_add_of_le {x y : ℕ} (hx : x < 2 ^ 32) (hy : y < 2 ^ 32) (h : x ≤ u32 (x + y)) :
    u32 (x + y) = x + y := by
  rw [u32] at h ⊢
  omega

theorem Valid.data_le {n : ℕ} (hv : Valid ops b n) :
    hdr b .dataStart + hdr b .dataCapacity ≤ n := by
  have := u32_add_of_le (hdr_lt b _) (hdr_lt b _) hv.data.1
  have := hv.data.2
  have := hv.size
  omega

/-! ### Accesses to an accepted packet -/

/-- The bytes of the header, of the records and of the values are in the buffer, and the readers
touch no others. -/
structure ReadsInside (b : Buffer) : Prop where
  header : b.Inside 0 headerSize
  records : ∀ i < hdr b .entryCount, b.Inside (hdr b .entriesStart + recordSize * i) recordSize
  values : ∀ i e, (packet b).entries[i]? = some e →
    b.Inside (valuePtr b (hdr b .entriesStart + recordSize * i) e) (e.count * sizeOfType e.type)
  get : ∀ index, ∃ r, getCameraMetadataEntry b index = .ok r
  find : ∀ bsearch tag, ∃ r, findCameraMetadataEntry bsearch b tag = .ok r

/-- The writers touch no byte outside the buffer.  A value array of the caller holds the values it
is said to hold, and lies in the same address space as the buffer. -/
structure WritesInside (b : Buffer) : Prop where
  delete : ∀ index, ∃ r, deleteCameraMetadataEntry b index = .ok r
  update : ∀ index data count updatedEntry, count < 2 ^ 32 → data.length + b.len ≤ 2 ^ 32 →
    (∀ e, (packet b).entries[index]? = some e → payloadSize e.type count ≤ data.length) →
    ∃ r, updateCameraMetadataEntry b index (.outside data) count updatedEntry = .ok r

/-- The header and the records fit the buffer, and no size of values wraps. -/
structure Covered (b : Buffer) : Prop where
  header : 40 ≤ b.len
  records : 0 < hdr b .entryCount → hdr b .entriesStart + 16 * hdr b .entryCount ≤ b.len
  sizes : ∀ e ∈ (packet b).entries, e.count * sizeOfType e.type ≤ 2 ^ 32 - 8

/-- Header, records and data do not overlap, and the data is counted. -/
structure Separate (b : Buffer) : Prop where
  header : 40 ≤ hdr b .entriesStart
  records : hdr b .entriesStart + 16 * hdr b .entryCount ≤ hdr b .dataStart
  data : hdr b .dataCount ≤ hdr b .dataCapacity
  counted : ∀ e ∈ (packet b).entries, 0 < e.dataSize → e.offset + e.dataSize ≤ hdr b .dataCount

/-- Values whose size does not wrap are in the buffer of an accepted packet. -/
theorem Valid.values_inside (hv : Valid ops b b.len) (hc : Covered b)
    (he : (packet b).entries[i]? = some e) :
    b.Inside (valuePtr b (hdr b .entriesStart + 16 * i) e) (e.count * sizeOfType e.type) := by
  have hent := hv.entry i e he
  obtain ⟨hi, -⟩ := entryAt_of_getElem? he
  have hrec := hc.records (by omega)
  have hsize := hc.sizes e (mem_of_getElem? he)
  have hpay : payloadSize e.type e.count = e.count * sizeOfType e.type := u32_of_lt (by omega)
  rw [valuePtr, hpay]
  by_cases h4 : 4 < e.count * sizeOfType e.type
  · -- the values are in the data area, where the validator has checked their end
    have hround : roundedSize e.type e.count < 2 ^ 32 := by
      rw [roundedSize, hpay]
      omega
    have hds : e.dataSize = (e.count * sizeOfType e.type + 7) / 8 * 8 := by
      rw [Entry.dataSize, calculateCameraMetadataEntryDataSize_eq hent.type hround, hpay,
        if_neg (by omega), roundedSize, hpay]
    obtain ⟨-, hwrap, hend⟩ := hent.data (by omega)
    have hoff : e.offset < 2 ^ 32 := by
      rw [← (entryAt_of_getElem? he).2]
      exact Mem.word_lt _ _
    rw [u32_add_of_le hoff (by omega) hwrap] at hend
    have := hv.data_le
    rw [if_pos h4]
    exact Or.inr (by omega)
  · rw [if_neg h4]
    exact Or.inr (by omega)

/-- The readers of a packet whose records are in the buffer. -/
theorem reads_ok (hlen : 40 ≤ b.len)
    (hin : 0 < hdr b .entryCount → hdr b .entriesStart + 16 * hdr b .entryCount ≤ b.len)
    (htype : ∀ e ∈ (packet b).entries, e.type < 6) :
    (∀ index, ∃ r, getCameraMetadataEntry b index = .ok r) ∧
      ∀ bsearch tag, ∃ r, findCameraMetadataEntry bsearch b tag = .ok r := by
  have hget : ∀ index, ∃ r, getCameraMetadataEntry b index = .ok r := by
    intro index
    by_cases hi : hdr b .entryCount ≤ index
    · refine ⟨(.error, none), ?_⟩
      simp only [getCameraMetadataEntry, get_eq hlen, Mem.ok_bind, if_pos hi]
      rfl
    · obtain ⟨e, he⟩ := exists_entry hi
      exact ⟨_, getCameraMetadataEntry_eq hlen (hin (by omega)) he
        (htype e (mem_of_getElem? he))⟩
  refine ⟨hget, fun bsearch tag => ?_⟩
  by_cases hflag : isSorted (hdr b .flags) = true
  · have hload : ∃ l, b.load (hdr b .entriesStart) (16 * hdr b .entryCount) = .ok l := by
      refine ⟨_, Buffer.load_of_inside ?_⟩
      by_cases h0 : hdr b .entryCount = 0
      · exact Or.inl (by omega)
      · exact Or.inr (hin (by omega))
    obtain ⟨l, hload⟩ := hload
    simp only [findCameraMetadataEntry, get_eq hlen, Mem.ok_bind, if_pos hflag, entryPtr_zero hlen,
      recordSize, hload, pure_bind]
    -- the search gives an index, and the entry is read there
    split
    · exact ⟨_, rfl⟩
    · exact hget _
  · have hsearch : ∃ o, linearSearch b tag (hdr b .entryCount) 0 = .ok o := by
      by_cases h0 : hdr b .entryCount = 0
      · rw [h0]
        exact ⟨none, rfl⟩
      · obtain ⟨o, hrun, -⟩ :=
          linearSearch_eq hlen (hin (by omega)) tag (hdr b .entryCount) 0 (by omega)
        exact ⟨o, hrun⟩
    obtain ⟨o, hsearch⟩ := hsearch
    simp only [findCameraMetadataEntry, get_eq hlen, Mem.ok_bind, if_neg hflag, hsearch]
    cases o with
    | none => exact ⟨_, rfl⟩
    | some index => exact hget index

theorem Valid.writesInside (hv : Valid ops b b.len) (hlen : 40 ≤ b.len)
    (hs : 0 < hdr b .entryCount → Separate b) : WritesInside b := by
  have hentry : ∀ index, ¬ hdr b .entryCount ≤ index → Separate b ∧ Layout b ∧
      ∃ e, (packet b).entries[index]? = some e := by
    intro index hi
    have hsep := hs (by omega)
    exact ⟨hsep, ⟨hsep.header, hsep.records, hsep.data, hv.data_le⟩, exists_entry hi⟩
  constructor
  · intro index
    by_cases hi : hdr b .entryCount ≤ index
    · refine ⟨(.error, b), ?_⟩
      simp only [deleteCameraMetadataEntry, get_eq hlen, Mem.ok_bind, if_pos hi]
      rfl
    · obtain ⟨hsep, hl, e, he⟩ := hentry index hi
      obtain ⟨b', hrun, -⟩ :=
        deleteCameraMetadataEntry_eq hl he (hsep.counted e (mem_of_getElem? he))
      exact ⟨_, hrun⟩
  · intro index data count updatedEntry hcount hspace hgiven
    by_cases hi : hdr b .entryCount ≤ index
    · refine ⟨(.error, b, none), ?_⟩
      simp only [updateCameraMetadataEntry, get_eq hlen, Mem.ok_bind, if_pos hi]
      rfl
    · obtain ⟨hsep, hl, -⟩ := hentry index hi
      -- the new values cannot wrap, since they fit the address space besides the buffer
      have hw : ∀ e, (packet b).entries[index]? = some e →
          hdr b .dataCount + roundedSize e.type count < 2 ^ 32 := by
        intro e he
        have h₂ := hsep.records
        have h₃ := hl.count
        have h₄ := hl.data
        have h₅ := hgiven e he
        rw [roundedSize]
        omega
      rcases update_run updatedEntry hcount hgiven hw hl (fun e he => (hv.entry index e he).type)
        (fun e he => hsep.counted e (mem_of_getElem? he)) with
        hrun | ⟨e, -, -, b', r, -, hrun, -⟩
      · exact ⟨_, hrun⟩
      · exact ⟨_, hrun⟩

/-- **Accesses to an accepted packet**, in a buffer of the address space: the bytes that are read
are inside exactly if header and records fit and no size of values wraps, and then the bytes that
are written are inside too if the parts do not overlap and the data is counted. -/
theorem validated_accesses (hnull : b.addr ≠ 0) (hspace : b.addr + b.len ≤ 2 ^ 32)
    (hok : validateCameraMetadataStructure ops (some b) (some b.len) = .ok) :
    (ReadsInside b ↔ Covered b) ∧
      (Covered b → (0 < hdr b .entryCount → Separate b) → WritesInside b) := by
  have hv := (validate_iff ops b b.len).mp hok
  refine ⟨⟨fun hr => ?_, fun hc => ?_⟩, fun hc hs => hv.writesInside hc.header hs⟩
  · have h40 : 40 ≤ b.len := by
      rcases hr.header with h | h <;> rw [headerSize] at h <;> omega
    refine ⟨h40, fun hpos => ?_, fun e he => ?_⟩
    · have hlast := hr.records (hdr b .entryCount - 1) (by omega)
      rw [recordSize] at hlast
      rcases hlast with h | h <;> omega
    · -- an aligned buffer that is not at `NULL` has at most `2 ^ 32 - 8` bytes
      have h8 : 8 ≤ b.addr := by
        have halign := hv.aligned dataAlignment (by decide)
        rw [u32_of_lt (by omega), alignTo, dataAlignment] at halign
        omega
      obtain ⟨i, hi⟩ := getElem?_of_mem he
      rcases hr.values i e hi with h | h <;> omega
  · obtain ⟨hget, hfind⟩ := reads_ok hc.header hc.records fun e he => by
      obtain ⟨i, hi⟩ := getElem?_of_mem he
      exact (hv.entry i e hi).type
    refine ⟨Or.inr hc.header, fun i hi => Or.inr ?_, fun i e he => hv.values_inside hc he, hget,
      hfind⟩
    have := hc.records (by omega)
    rw [recordSize]
    omega

/-- A buffer of `len` bytes at address 8, given by the words at its start. -/
def bufferOf (len : ℕ) (words : List ℕ) : Buffer :=
  ⟨8, len, fun a => (leBytes 4 (words.getD (a / 4) 0)).getD (a % 4) 0⟩

/-- An accepted packet of 72 bytes with one entry, two rationals. -/
def twoRationals : Buffer :=
  bufferOf 72 [72, 1, 0, 1, 1, 40, 16, 16, 56, 0, 1, 2, 0, 5, 7, 1, 9, 1]

theorem twoRationals_accesses : ReadsInside twoRationals ∧ WritesInside twoRationals := by
  have hentries : (packet twoRationals).entries = [⟨1, 2, [0, 0, 0, 0], 5⟩] := by decide +kernel
  have hcovered : Covered twoRationals := by
    refine ⟨by decide, fun _ => by decide +kernel, fun e he => ?_⟩
    rw [hentries, mem_singleton] at he
    subst he
    decide
  have hseparate : Separate twoRationals := by
    refine ⟨by decide +kernel, by decide +kernel, by decide +kernel, fun e he _ => ?_⟩
    rw [hentries, mem_singleton] at he
    subst he
    decide +kernel
  have hok : validateCameraMetadataStructure none (some twoRationals) (some twoRationals.len) =
      .ok := by decide +kernel
  obtain ⟨hr, hw⟩ := validated_accesses (by decide) (by decide) hok
  exact ⟨hr.mpr hcovered, hw hcovered fun _ => hseparate⟩

/-- A packet of 48 bytes, with room for eight bytes of its only record. -/
def truncatedRecord : Buffer := bufferOf 48 [48, 1, 0, 1, 1, 40, 0, 0, 48, 0, 0, 0, 0, 0]

/-- The packet of `twoRationals` with a `data_count` of zero. -/
def uncountedData : Buffer :=
  bufferOf 72 [72, 1, 0, 1, 1, 40, 0, 16, 56, 0, 1, 2, 0, 5, 7, 1, 9, 1]

/-- Both are accepted.  The record of the first is read outside the buffer; deleting the entry of
the second moves bytes outside the buffer. -/
theorem accepted_outside :
    validateCameraMetadataStructure none (some truncatedRecord) (some truncatedRecord.len) = .ok ∧
      getCameraMetadataEntry truncatedRecord 0 = .error .outOfBounds ∧
      validateCameraMetadataStructure none (some uncountedData) (some uncountedData.len) = .ok ∧
      deleteCameraMetadataEntry uncountedData 0 = .error .outOfBounds := by
  have hfault : ∀ {α : Type} {x : Except Fault α},
      x.map (fun _ => ()) = .error .outOfBounds → x = .error .outOfBounds := by
    intro α x hx
    cases x with
    | error e => cases hx; rfl
    | ok a => cases hx
  exact ⟨by decide +kernel, hfault (by decide +kernel), by decide +kernel,
    hfault (by decide +kernel)⟩

/-! ### Acceptance of built packets -/

/-- What the validator asks of an entry besides its place: the type of its tag, and a data word of
zero if it has no values. -/
structure Entry.Regular (e : Entry) : Prop where
  tag : e.tag / 2 ^ 16 < vendorSection → tableTagType e.tag = e.type
  empty : e.count = 0 → e.offset = 0

theorem getCameraMetadataTagType_of_lt {tag : ℕ} (ops : Option VendorTagOps)
    (h : tag / 2 ^ 16 < vendorSection) : getCameraMetadataTagType ops tag = tableTagType tag := by
  cases ops with
  | none => rfl
  | some ops => exact if_neg (Nat.not_le.mpr h)

theorem dataSize_zero (type : ℕ) : calculateCameraMetadataEntryDataSize type 0 = 0 := by
  rw [calculateCameraMetadataEntryDataSize]
  split
  · rfl
  · rw [Nat.zero_mul]
    rfl

theorem Entry.dataSize_of_empty (h : e.count = 0) : ¬ 0 < e.dataSize := by
  rw [Entry.dataSize, h, dataSize_zero]
  exact Nat.lt_irrefl 0

theorem Entry.Regular.lower (h : e.Regular) (o n : ℕ) : (e.lower o n).Regular := by
  refine ⟨by rw [e.lower_tag, e.lower_type]; exact h.tag, fun h0 => ?_⟩
  rw [e.lower_count] at h0
  rw [Entry.lower, if_neg fun hc => e.dataSize_of_empty h0 hc.1]
  exact h.empty h0

theorem Entry.Regular.raise (h : e.Regular) (n : ℕ) : (e.raise n).Regular := by
  rw [Entry.raise]
  split_ifs with hpos
  · exact ⟨h.tag, fun h0 => absurd hpos (e.dataSize_of_empty h0)⟩
  · exact h

theorem newData_empty (type n : ℕ) (old : List UInt8) : newData type 0 n [] old = old := by
  rw [newData, if_pos (dataSize_zero type)]
  rfl

/-- The condition on a call that keeps entries regular: an update to no values is made of an entry
whose data word is zero. -/
def History.EmptiesZero : History → Prop
  | .update h index _ dataCount _ => dataCount = 0 → ∀ b ∈ h.result, ∀ e,
    (packet b).entries[index.toNat]? = some e → e.offset = 0
  | _ => True

theorem Packet.cut_regular {p : Packet} (hp : ∀ x ∈ p.entries, x.Regular) (o n : ℕ) :
    ∀ x ∈ (p.cut o n).entries, x.Regular := by
  intro x hx
  obtain ⟨y, hy, rfl⟩ := mem_map.mp hx
  exact (hp y hy).lower o n

theorem Packet.update_regular {p : Packet} {count : ℕ} {payload : List UInt8} (pad : List UInt8)
    (hp : ∀ x ∈ p.entries, x.Regular) (he : p.entries[i]? = some e)
    (hpay : payload.length = payloadSize e.type count) (hzero : count = 0 → e.offset = 0) :
    ∀ x ∈ (p.update i count payload pad).entries, x.Regular := by
  have hreg := hp e (mem_of_getElem? he)
  -- the new record, with the data word of the old one if there are no values
  have hnew : ∀ n, Entry.Regular
      { e with count := count, data := newData e.type count n payload e.data } := by
    refine fun n => ⟨hreg.tag, fun h0 => ?_⟩
    change count = 0 at h0
    subst h0
    have hnil : payload = [] := by
      rw [payloadSize, Nat.zero_mul] at hpay
      exact length_eq_zero_iff.mp hpay
    rw [hnil, newData_empty]
    exact hzero rfl
  have hset : ∀ (l : List Entry) (y : Entry), (∀ x ∈ l, x.Regular) → y.Regular →
      ∀ x ∈ l.set i y, x.Regular := by
    intro l y hl hy x hx
    rcases mem_or_eq_of_mem_set hx with hx | rfl
    · exact hl x hx
    · exact hy
  simp only [Packet.update, he]
  split_ifs with hsame
  · refine hset _ _ hp ⟨hreg.tag, fun h0 => ?_⟩
    change count = 0 at h0
    rw [h0, dataSize_zero] at hsame
    exact absurd rfl hsame.1
  · exact hset _ _ (cut_regular hp _ _) (hnew _)
  · exact hset _ _ (cut_regular hp _ _) (hnew _)
  · exact hset _ _ hp (hnew _)
  · exact hset _ _ hp (hnew _)

theorem Packet.append_regular {p q : Packet} (hp : ∀ x ∈ p.entries, x.Regular)
    (hq : ∀ x ∈ q.entries, x.Regular) : ∀ x ∈ (p.append q).entries, x.Regular := by
  intro x hx
  rcases mem_append.mp hx with hx | hx
  · exact hp x hx
  · split_ifs at hx
    · obtain ⟨y, hy, rfl⟩ := mem_map.mp hx
      exact (hq y hy).raise _
    · exact hq x hx

theorem Reaches.regular (hr : Reaches h b) (hc : h.Calls History.EmptiesZero) :
    ∀ x ∈ (packet b).entries, x.Regular := by
  have hempty : ∀ x ∈ (⟨0, [], []⟩ : Packet).entries, x.Regular :=
    fun x hx => absurd hx not_mem_nil
  induction hr with
  | place _ hnew | allocate _ hnew => exact hnew ▸ hempty
  | refused _ hrec _ ih => exact ih (hc.receiver hrec)
  | @add _ _ _ ops tag data dataCount type pad _ _ _ hknown _ _ _ hnew _ ih =>
    intro x hx
    rw [hnew] at hx
    rcases mem_append.mp hx with hx | hx
    · exact ih hc.1 x hx
    · rw [mem_singleton.mp hx]
      refine ⟨fun ht => (getCameraMetadataTagType_of_lt ops ht).symm.trans hknown, fun h0 => ?_⟩
      change dataCount.toNat = 0 at h0
      rw [Entry.offset, h0, payloadSize, Nat.zero_mul, show u32 0 = 0 from rfl, take_zero,
        newData_empty]
      rfl
  | @update _ _ _ index data dataCount _ e pad _ hres _ he hgiven _ _ hnew _ ih =>
    rw [hnew]
    refine update_regular pad (ih hc.1) he ?_ fun h0 => ?_
    · rw [length_take, Nat.min_eq_left hgiven]
    · exact hc.2 (UInt32.toNat_inj.mp h0) _ hres e he
  | delete _ _ _ he _ _ hnew _ ih =>
    intro x hx
    rw [hnew] at hx
    simp only [Packet.delete, he] at hx
    split_ifs at hx
    · exact cut_regular (ih hc.1) _ _ x (mem_of_mem_eraseIdx hx)
    · exact ih hc.1 x (mem_of_mem_eraseIdx hx)
  | append _ _ _ _ _ _ _ hnew _ ih ih' =>
    rw [hnew]
    exact append_regular (ih hc.1) (ih' hc.2.1)
  | sorted _ _ _ _ ih => exact ih hc.1
  | sort _ _ _ _ _ hperm _ _ ih => exact fun x hx => ih hc.1 x (hperm.mem_iff.mp hx)
  | copy _ _ hnew _ ih => exact hnew ▸ ih hc.1
  | clone _ _ hnew _ _ ih => exact hnew ▸ append_regular hempty (ih hc.1)

/-- The memory of a new packet is aligned. -/
def History.Aligned : History → Prop
  | .place dst _ _ => ∀ d ∈ dst, dataAlignment ∣ d.addr
  | .allocate addr _ _ _ => dataAlignment ∣ addr
  | .copy dst _ => ∀ d ∈ dst, dataAlignment ∣ d.addr
  | .clone addr _ _ => dataAlignment ∣ addr
  | _ => True

theorem Reaches.aligned (hr : Reaches h b) (hc : h.Calls History.Aligned) :
    dataAlignment ∣ b.addr := by
  induction hr with
  | place _ _ haddr => exact haddr ▸ hc _ rfl
  | allocate _ _ haddr => exact haddr ▸ hc
  | refused _ hrec _ ih => exact ih (hc.receiver hrec)
  | add _ _ _ _ _ _ _ hsh _ _ ih | update _ _ _ _ _ _ _ hsh _ _ ih
  | delete _ _ _ _ _ hsh _ _ ih | sort _ _ _ _ hsh _ _ _ ih => exact hsh.addr ▸ ih hc.1
  | append _ _ _ _ _ _ hsh _ _ ih => exact hsh.addr ▸ ih hc.1
  | sorted _ _ _ _ ih => exact ih hc.1
  | copy _ _ _ haddr => exact haddr ▸ hc.2 _ rfl
  | clone _ _ _ _ haddr => exact haddr ▸ hc.2

theorem alignTo_of_dvd {n k : ℕ} (hk : k = 4 ∨ k = 8) (h : k ∣ n) : alignTo n k = u32 n := by
  obtain ⟨m, rfl⟩ := h
  rw [alignTo, u32, u32]
  rcases hk with rfl | rfl <;> omega

theorem dvd_u32 {n k : ℕ} (hk : k = 4 ∨ k = 8) (h : k ∣ n) : k ∣ u32 n := by
  obtain ⟨m, rfl⟩ := h
  rw [u32]
  rcases hk with rfl | rfl <;> omega

/-- An aligned sound packet with regular entries is accepted. -/
theorem Sound.valid (hb : Sound b) (haddr : dataAlignment ∣ b.addr)
    (hreg : ∀ x ∈ (packet b).entries, x.Regular) (ops : Option VendorTagOps) :
    Valid ops b (hdr b .size) := by
  have hes := hb.placed.entriesStart
  have hds := hb.placed.dataStart
  have hsize := hb.placed.size
  have hlt := hdr_lt b .size
  have hcap := hb.data
  rw [dataStartFor] at hds
  have h8 : 8 ∣ b.addr := haddr
  refine ⟨?_, Nat.le_refl _, hb.entries, ?_, ?_, ?_⟩
  · intro k hk
    have hk' : (k = 4 ∨ k = 8) ∧ k ∣ b.addr := by
      simp only [headerAlignment, entryAlignment, dataAlignment, mem_cons,
        not_mem_nil, or_false] at hk
      rcases hk with rfl | rfl | rfl <;> omega
    exact (alignTo_of_dvd hk'.1 hk'.2).symm
  · rw [u32_of_lt (by omega)]
    exact ⟨by omega, by omega⟩
  · rw [u32_of_lt (by omega)]
    exact ⟨by omega, by omega⟩
  · intro i e he
    have hgood := hb.good he
    have hentry := hreg e (mem_of_getElem? he)
    have haligned : ∀ {k n : ℕ}, k = 4 ∨ k = 8 → k ∣ n → u32 n = alignTo (u32 n) k := by
      intro k n hk hn
      rw [alignTo_of_dvd hk (dvd_u32 hk hn), u32_u32]
    refine ⟨haligned (Or.inl rfl) (show 4 ∣ _ by omega), hgood.type, fun ht => ?_, fun hne => ?_,
      fun _ h0 => hentry.empty h0⟩
    · rw [getCameraMetadataTagType_of_lt ops ht]
      exact hentry.tag ht
    · have hpos := Nat.pos_of_ne_zero hne
      have hend := hb.end_le he hpos
      have hoff : 8 ∣ e.offset := hb.packed.aligned e.range
        (mem_rangesOf (mem_of_getElem? he) hpos)
      refine ⟨haligned (Or.inr rfl) (show 8 ∣ _ by omega), ?_⟩
      rw [u32_of_lt (by have := hdr_lt b .dataCount; omega)]
      exact ⟨by omega, by omega⟩

/-- **Acceptance**: a packet that is built in aligned memory is accepted with its own size, if
nothing wraps and only entries with a data word of zero are updated to no values. -/
theorem validate_of_emptied (h : History) (hv : h.Calls History.ValuesGiven)
    (ha : h.Calls History.Aligned) (hw : h.Calls History.NoWrap)
    (hz : h.Calls History.EmptiesZero) :
    (h.Calls History.NoCopy → ∃ r, h.call = .ok r) ∧ ∀ b ∈ h.result, ∀ ops,
      validateCameraMetadataStructure ops (some b) (some (hdr b .size)) = .ok := by
  refine ⟨History.call_ok hv hw, fun b hb ops => ?_⟩
  have hr := History.reaches hv hw hb
  exact (validate_iff ops b _).mpr (hr.sound.valid (hr.aligned ha) (hr.regular hz) ops)

theorem validate_edited : ∃ b, edited.result = some b ∧
    validateCameraMetadataStructure none (some b) (some (hdr b .size)) = .ok := by
  have hrun : edited.result.isSome := by decide +kernel
  obtain ⟨b, hb⟩ := Option.isSome_iff_exists.mp hrun
  have haligned : edited.Calls History.Aligned :=
    ⟨⟨⟨⟨show dataAlignment ∣ 8 by decide, trivial⟩, trivial⟩, trivial⟩,
      ⟨⟨show dataAlignment ∣ 8 by decide, trivial⟩, trivial⟩, trivial⟩
  have hzero : edited.Calls History.EmptiesZero :=
    ⟨⟨⟨⟨trivial, trivial⟩, trivial⟩, trivial⟩, ⟨⟨trivial, trivial⟩, trivial⟩, trivial⟩
  exact ⟨b, hb, (validate_of_emptied edited edited_valuesGiven haligned edited_noWrap hzero).2 b
    hb none⟩

/-- An entry with one value, updated to none. -/
def emptiedEntry : History :=
  .update (.add (.allocate 8 (fun _ => 0) 4 0) none 0 (some [1]) 1) 0 [] 0 false

/-- The value is still in the record, where the validator takes it for an offset. -/
theorem emptiedEntry_rejected : emptiedEntry.Calls History.ValuesGiven ∧
    emptiedEntry.Calls History.Aligned ∧ ∃ b, emptiedEntry.call = .ok (.ok, some b) ∧
    validateCameraMetadataStructure none (some b) (some (hdr b .size)) = .error := by
  have hrun : (emptiedEntry.call.map fun r => (r.1, r.2.map fun b =>
      validateCameraMetadataStructure none (some b) (some (hdr b .size)))) =
      .ok (.ok, some .error) := by decide +kernel
  have hlen : ∀ type, payloadSize type 0 = 0 := fun type => by
    rw [payloadSize, Nat.zero_mul]
    rfl
  refine ⟨⟨⟨trivial, History.valuesGiven_add 0 (by decide) (by decide)⟩,
    fun b _ e _ => Nat.le_of_eq (hlen e.type)⟩, ⟨⟨show dataAlignment ∣ 8 by decide, trivial⟩,
    trivial⟩, ?_⟩
  rcases hcall : emptiedEntry.call with e | ⟨res, _ | b⟩
  · rw [hcall] at hrun
    cases hrun
  · rw [hcall] at hrun
    cases hrun
  · simp only [hcall, Except.map, Option.map_some, Except.ok.injEq, Prod.mk.injEq,
      Option.some.injEq] at hrun
    exact ⟨b, by rw [hrun.1], hrun.2⟩

end Camera
