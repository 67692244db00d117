/-
Reading, adding and updating values.

The values of an entry are in its record or, if they take more than four bytes,
in the data area.  Here are the readers and the two functions that store values,
on a buffer in `Layout`:

* `getCameraMetadataEntry_eq` — where the values of an entry are;
* `addCameraMetadataEntryRaw_eq` — adding is `Packet.add`;
* `updateCameraMetadataEntry_eq` — updating is `Packet.update`.

The padding behind an array of values is never written, so `Packet.add` and
`Packet.update` take the bytes found there as an argument.
-/
import AndroidSystem.Camera.Packet

open CInt List Mem

namespace Camera

open Buffer

variable {b b' : Buffer} {v n : ℕ}

/-! ### Sizes of values -/

variable {count type : ℕ}

/-- The size of a value of a type. -/
def sizeOfType (type : ℕ) : ℕ := cameraMetadataTypeSize.getD type 0

/-- `data_payload_bytes`: the number of bytes of `count` values, as a `size_t`. -/
def payloadSize (type count : ℕ) : ℕ := u32 (count * sizeOfType type)

/-- The part of the data area that the bytes of `count` values take, if it does not wrap. -/
def roundedSize (type count : ℕ) : ℕ := (payloadSize type count + 7) / 8 * 8

theorem u32_bytes (type count : ℕ) : u32 (count * sizeOfType type) = payloadSize type count :=
  (rfl)

theorem typeSize_eq (h : type < 6) : typeSize type = .ok (sizeOfType type) := by
  interval_cases type <;> rfl

theorem alignTo_eight (h : n + 7 < 2 ^ 32) : alignTo n dataAlignment = (n + 7) / 8 * 8 := by
  rw [alignTo, dataAlignment, u32_of_lt (by omega)]

theorem calculateCameraMetadataEntryDataSize_eq (h : type < 6)
    (hw : roundedSize type count < 2 ^ 32) :
    calculateCameraMetadataEntryDataSize type count =
      if payloadSize type count ≤ 4 then 0 else roundedSize type count := by
  have hw' : payloadSize type count + 7 < 2 ^ 32 := by
    rw [roundedSize] at hw
    omega
  have hsize : cameraMetadataTypeSize[type]? = some (sizeOfType type) := by
    interval_cases type <;> rfl
  simp only [calculateCameraMetadataEntryDataSize, hsize, u32_bytes, alignTo_eight hw',
    roundedSize]

/-- The space of values, in the data area or in the record, holds them. -/
theorem entryDataSize_le (h : type < 6) (hw : roundedSize type count < 2 ^ 32) :
    calculateCameraMetadataEntryDataSize type count ≤ roundedSize type count ∧
      payloadSize type count ≤ if calculateCameraMetadataEntryDataSize type count = 0 then 4
        else calculateCameraMetadataEntryDataSize type count := by
  rw [calculateCameraMetadataEntryDataSize_eq h hw, roundedSize]
  constructor <;> split_ifs <;> omega

/-! ### Reading an entry -/

variable {i : ℕ} {e : Entry}

/-- Where the values of the record at `ptr` are. -/
def valuePtr (b : Buffer) (ptr : ℕ) (e : Entry) : ℕ :=
  if 4 < payloadSize e.type e.count then hdr b .dataStart + e.offset else ptr + 8

theorem getCameraMetadataEntry_eq (hlen : 40 ≤ b.len)
    (hin : hdr b .entriesStart + 16 * hdr b .entryCount ≤ b.len)
    (he : (packet b).entries[i]? = some e) (ht : e.type < 6) :
    getCameraMetadataEntry b i = .ok (.ok, some
      ⟨i, e.tag, e.type, e.count, valuePtr b (hdr b .entriesStart + 16 * i) e⟩) := by
  have hi := (entryAt_of_getElem? he).1
  have hload := loadEntry_of_getElem? he hin
  simp only [getCameraMetadataEntry, get_eq hlen, ok_bind, if_neg (Nat.not_le_of_lt hi),
    entryPtr_eq hlen, hload, typeSize_eq ht, u32_bytes, valuePtr]
  split <;> rfl

/-! ### Adding data -/

variable {data d : List UInt8} {entry : ℕ} {payload : List UInt8}

theorem values_eq (h : n ≤ data.length) (b : Buffer) :
    (ValueArray.outside data).read b n = .ok (data.take n) :=
  if_pos h

/-- New data at the end of the data area, for the record at `entry`. -/
theorem appendNewData_eq (hentry : 40 ≤ entry) (hds : entry + 16 ≤ hdr b .dataStart)
    (hroom : hdr b .dataStart + hdr b .dataCount + payload.length ≤ b.len)
    (hn : hdr b .dataCount + n < 2 ^ 32) {array : ValueArray} {k : ℕ}
    (hread : ∀ b, array.read b k = .ok payload) :
    appendNewData b entry array k n =
      .ok (setHdr ((b.put (entry + 8) (leBytes 4 (hdr b .dataCount))).put
        (hdr b .dataStart + hdr b .dataCount) payload) .dataCount (hdr b .dataCount + n)) := by
  have hlen : 40 ≤ b.len := by omega
  have hstore := store32_of_le (b := b) (o := entry + 8) (by omega) (hdr b .dataCount)
  set b₁ := b.put (entry + 8) (leBytes 4 (hdr b .dataCount)) with hb₁
  have hfr : Buffer.Frame 40 b.len b b₁ := .put (by omega) (by rw [length_leBytes]; omega)
  have hoff : b₁.load32 (entry + 8) = .ok (hdr b .dataCount) := by
    rw [load32_of_le (by rw [put_len]; omega), hb₁, put_mem, word_blit_self,
      Nat.mod_eq_of_lt (hdr_lt _ _)]
  have hds' : hdr b₁ .dataStart = hdr b .dataStart := hdr_frame hfr (Nat.le_refl _) _
  have hdc' : hdr b₁ .dataCount = hdr b .dataCount := hdr_frame hfr (Nat.le_refl _) _
  have hlen₁ : 40 ≤ b₁.len := hfr.len.symm ▸ hlen
  set b₂ := b₁.put (hdr b .dataStart + hdr b .dataCount) payload
  have hstore₁ : b₁.store (hdr b .dataStart + hdr b .dataCount) payload = .ok b₂ :=
    store_of_inside (Or.inr (by rw [hfr.len]; omega))
  have hdc₂ : hdr b₂ .dataCount = hdr b .dataCount := by
    rw [hdr_frame (.put (Nat.le_refl _) (Nat.le_refl _)) (by omega), hdc']
  have hlen₂ : 40 ≤ b₂.len := by
    rwa [put_len]
  simp only [appendNewData, get_eq hlen, get_eq hlen₁, get_eq hlen₂, hstore, hoff, hds', hread,
    hstore₁, hdc₂, u32_of_lt hn, set_eq hlen₂, ok_bind]

/-- The four data bytes of an entry after `count` new values were stored in them or, at
`dataCount`, in the data area. -/
def newData (type count dataCount : ℕ) (payload old : List UInt8) : List UInt8 :=
  if calculateCameraMetadataEntryDataSize type count = 0 then payload ++ old.drop payload.length
  else leBytes 4 dataCount

/-- The packet with one more entry; `pad` is what stood behind the values. -/
def Packet.add (p : Packet) (tag type count : ℕ) (payload pad : List UInt8) : Packet where
  flags := clearSorted p.flags
  entries := p.entries ++
    [⟨tag, count, newData type count p.data.length payload (List.replicate 4 0), type⟩]
  data :=
    if calculateCameraMetadataEntryDataSize type count = 0 then p.data
    else p.data ++ payload ++ pad

theorem entriesAt_succ (m : Mem) (o n : ℕ) :
    entriesAt m o (n + 1) = entriesAt m o n ++ [entryAt m (o + 16 * n)] := by
  rw [entriesAt, range_succ, map_append]
  rfl

/-- The record that `add_camera_metadata_entry_raw` writes before the values. -/
def newRecord (b : Buffer) (entry tag type count : ℕ) : Buffer :=
  (((b.put entry (List.replicate recordSize 0)).put entry (leBytes 4 tag)).put (entry + 12)
    [UInt8.ofNat type]).put (entry + 4) (leBytes 4 count)

theorem frame_newRecord (b : Buffer) (entry tag type count : ℕ) :
    Buffer.Frame entry (entry + 16) b (newRecord b entry tag type count) := by
  refine ((Buffer.Frame.put (Nat.le_refl _) ?_).trans (.put (Nat.le_refl _) ?_)).trans
    ((Buffer.Frame.put (Nat.le_add_right _ _) ?_).trans (.put (Nat.le_add_right _ _) ?_)) <;>
  simp [recordSize]

theorem initRecord_eq (h : entry + 16 ≤ b.len) (tag type count : ℕ) :
    initRecord b entry tag type count = .ok (newRecord b entry tag type count) := by
  rw [initRecord, store_of_inside (Or.inr (by rw [length_replicate]; exact h)),
    ok_bind, store32_of_le (by rw [put_len]; omega), ok_bind,
    store_of_inside (Or.inr (by rw [put_len, length_singleton]; simp; omega)),
    ok_bind, store32_of_le (by simp; omega)]
  rfl

theorem entryAt_newRecord {tag : ℕ} (htag : tag < 2 ^ 32) (htype : type < 256)
    (hcount : count < 2 ^ 32) :
    entryAt (newRecord b entry tag type count).mem entry =
      ⟨tag, count, List.replicate 4 0, type⟩ := by
  have hl : (leBytes 4 tag).length = 4 := length_leBytes 4 tag
  have hzero : ∀ m : Mem, (m.blit entry (List.replicate 16 0)).slice (entry + 8) 4 =
      List.replicate 4 0 := by
    intro m
    rw [slice_blit_of_within (by simp)]
    rfl
  rw [newRecord, put_mem, entryAt_blit_count, put_mem, put_mem,
    put_mem, u32_of_lt hcount, entryAt]
  rw [word_blit_of_disjoint (by omega), word_blit_self, Nat.mod_eq_of_lt htag,
    slice_blit_of_disjoint (by omega), slice_blit_of_disjoint (by omega), recordSize, hzero,
    show entry + 12 = entry + 12 + 0 from rfl, blit_of_mem (by simp)]
  simp only [getElem_cons_zero, UInt8.toNat_ofNat', Nat.mod_eq_of_lt htype]

/-- What storing values for the record at `entry` does: the record becomes `e`, the data area `d`,
and nothing else changes. -/
structure Stored (b b' : Buffer) (entry : ℕ) (e : Entry) (d : List UInt8) : Prop where
  addr : b'.addr = b.addr
  len : b'.len = b.len
  hdr : ∀ f, f ≠ .dataCount → hdr b' f = hdr b f
  dataCount : Camera.hdr b' .dataCount = d.length
  record : entryAt b'.mem entry = e
  other : ∀ o, 40 ≤ o → o + 16 ≤ Camera.hdr b .dataStart → o + 16 ≤ entry ∨ entry + 16 ≤ o →
    entryAt b'.mem o = entryAt b.mem o
  data : b'.mem.slice (Camera.hdr b .dataStart) d.length = d

section

variable (hentry : 40 ≤ entry) (hds : entry + 16 ≤ hdr b .dataStart)

include hentry hds

/-- Values stored in the record. -/
theorem stored_inline (hp : payload.length ≤ 4) :
    Stored b (b.put (entry + 8) payload) entry
      { entryAt b.mem entry with
        data := payload ++ (entryAt b.mem entry).data.drop payload.length }
      (packet b).data := by
  have hfr : Buffer.Frame (entry + 8) (entry + 12) b (b.put (entry + 8) payload) :=
    .put (Nat.le_refl _) (by omega)
  refine ⟨rfl, rfl, fun f _ => hdr_frame hfr (by omega) f, ?_, entryAt_blit_data hp, ?_, ?_⟩
  · rw [hdr_frame hfr (by omega), hdr_dataCount]
  · intro o _ _ hd
    exact entryAt_frame hfr (by omega)
  · rw [hfr.slice (by omega), ← hdr_dataCount]
    rfl

/-- Values stored at the end of the data area. -/
theorem stored_append (hp : payload.length ≤ n) (hn : hdr b .dataCount + n < 2 ^ 32) :
    ∃ pad : List UInt8, payload.length + pad.length = n ∧
      Stored b (setHdr ((b.put (entry + 8) (leBytes 4 (hdr b .dataCount))).put
          (hdr b .dataStart + hdr b .dataCount) payload) .dataCount (hdr b .dataCount + n))
        entry { entryAt b.mem entry with data := leBytes 4 (hdr b .dataCount) }
        ((packet b).data ++ payload ++ pad) := by
  generalize ho : hdr b .dataStart + hdr b .dataCount = o
  -- the padding is what the memory holds behind the values
  refine ⟨b.mem.slice (o + payload.length) (n - payload.length),
    by rw [length_slice]; omega, ?_⟩
  have hfr₁ : Buffer.Frame (entry + 8) (entry + 12) b
      (b.put (entry + 8) (leBytes 4 (hdr b .dataCount))) :=
    .put (Nat.le_refl _) (by rw [length_leBytes])
  have hentry₁ := @entryAt_blit_offset entry b.mem (hdr b .dataCount)
  rw [← put_mem] at hentry₁
  generalize b.put (entry + 8) (leBytes 4 (hdr b .dataCount)) = b₁ at *
  have hfr₂ : Buffer.Frame o (o + payload.length) b₁ (b₁.put o payload) :=
    .put (Nat.le_refl _) (Nat.le_refl _)
  have hnew := slice_blit_self b₁.mem o payload
  rw [← put_mem] at hnew
  generalize b₁.put o payload = b₂ at *
  have hfr₃ := frame_setHdr b₂ .dataCount (hdr b .dataCount + n)
  have hlength : ((packet b).data ++ payload ++
      b.mem.slice (o + payload.length) (n - payload.length)).length = hdr b .dataCount + n := by
    rw [length_append, length_append, length_slice, ← hdr_dataCount]
    omega
  refine ⟨(hfr₂.addr.trans hfr₁.addr), (hfr₂.len.trans hfr₁.len), ?_, ?_, ?_, ?_, ?_⟩
  · intro f hf
    rw [hdr_setHdr_of_ne _ hf.symm, hdr_frame hfr₂ (by omega), hdr_frame hfr₁ (by omega)]
  · rw [hdr_setHdr_self, hlength, u32_of_lt hn]
  · rw [entryAt_frame hfr₃ (by omega), entryAt_frame hfr₂ (by omega), hentry₁]
  · intro o' ho' hods hd
    rw [entryAt_frame hfr₃ (by omega), entryAt_frame hfr₂ (by omega),
      entryAt_frame hfr₁ (by omega)]
  · have hsplit : hdr b .dataCount + n =
        hdr b .dataCount + payload.length + (n - payload.length) := by omega
    rw [hlength, hfr₃.slice (by omega), hsplit, slice_add, slice_add, ho, hnew,
      hfr₂.slice (by omega), hfr₂.slice (by omega), hfr₁.slice (by omega), hfr₁.slice (by omega),
      ← Nat.add_assoc, ho]
    rfl

/-- Values stored in the record or at the end of the data area. -/
theorem placeValues_eq (he : entryAt b.mem entry = e)
    (hsize : calculateCameraMetadataEntryDataSize e.type count = n)
    (hlen : hdr b .dataStart + hdr b .dataCount + n ≤ b.len) (hn : hdr b .dataCount + n < 2 ^ 32)
    (hp : payload.length ≤ if n = 0 then 4 else n) {array : ValueArray} {k : ℕ}
    (hread : ∀ b, array.read b k = .ok payload) :
    ∃ b' pad, placeValues b entry array k n = .ok b' ∧
      (n ≠ 0 → payload.length + pad.length = n) ∧
      Stored b b' entry
        { e with data := newData e.type count (packet b).data.length payload e.data }
        (if n = 0 then (packet b).data else (packet b).data ++ payload ++ pad) := by
  by_cases h0 : n = 0
  · rw [if_pos h0] at hp
    refine ⟨b.put (entry + 8) payload, [], ?_, fun h => absurd h0 h, ?_⟩
    · rw [placeValues, if_pos h0, hread, ok_bind]
      exact store_of_inside (Or.inr (by omega))
    · rw [if_pos h0, newData, hsize, if_pos h0, ← he]
      exact stored_inline hentry hds hp
  · rw [if_neg h0] at hp
    obtain ⟨pad, hpad, hst⟩ := stored_append hentry hds hp hn
    have hrun := appendNewData_eq (n := n) hentry hds (show _ + payload.length ≤ _ by omega) hn
      hread
    refine ⟨_, pad, (if_neg h0).trans hrun, fun _ => hpad, ?_⟩
    rw [if_neg h0, newData, hsize, if_neg h0, ← hdr_dataCount, ← he]
    exact hst

end

theorem clearSorted_lt (flags : ℕ) : clearSorted flags < 2 ^ 32 :=
  Nat.lt_of_le_of_lt Nat.and_le_right (by decide)

/-- The last steps of `add_camera_metadata_entry_raw`: the new record starts to count. -/
theorem packet_of_stored {b₁ b₂ : Buffer} (h₁ : 40 ≤ hdr b .entriesStart)
    (hspace : hdr b .entriesStart + 16 * (hdr b .entryCount + 1) ≤ hdr b .dataStart)
    (hfr : Buffer.Frame (hdr b .entriesStart + 16 * hdr b .entryCount)
      (hdr b .entriesStart + 16 * hdr b .entryCount + 16) b b₁)
    (hst : Stored b₁ b₂ (hdr b .entriesStart + 16 * hdr b .entryCount) e d) (hv : v < 2 ^ 32) :
    SameShape b (setHdr (setHdr b₂ .entryCount (hdr b .entryCount + 1)) .flags v) ∧
      packet (setHdr (setHdr b₂ .entryCount (hdr b .entryCount + 1)) .flags v) =
        ⟨v, (packet b).entries ++ [e], d⟩ := by
  have hlt := hdr_lt b .dataStart
  have hhdr₁ := hdr_frame hfr (by omega)
  have hhdr₂ : ∀ f, f ≠ .dataCount → hdr b₂ f = hdr b f :=
    fun f hf => (hst.hdr f hf).trans (hhdr₁ f)
  have hsh : SameShape b b₂ :=
    ⟨hst.addr.trans hfr.addr, hst.len.trans hfr.len, fun f _ _ hf => hhdr₂ f hf⟩
  refine ⟨(hsh.trans (.setHdr _ _ (Or.inr (Or.inl rfl)))).trans (.setHdr _ _ (Or.inl rfl)), ?_⟩
  have hfr₃ := frame_setHdr b₂ .entryCount (hdr b .entryCount + 1)
  have hdc := hst.dataCount
  have hdata := hst.data
  have hrecord := hst.record
  have hold : entriesAt b₂.mem (hdr b .entriesStart) (hdr b .entryCount) = (packet b).entries := by
    rw [packet]
    refine entriesAt_congr fun i hi => ?_
    rw [hst.other _ (by omega) (by rw [hhdr₁]; omega) (by omega), entryAt_frame hfr (by omega)]
  rw [hhdr₁] at hdata
  generalize hb₃ : setHdr b₂ .entryCount (hdr b .entryCount + 1) = b₃ at *
  have hfr₄ := frame_setHdr b₃ .flags v
  have hec : hdr b₃ .entryCount = hdr b .entryCount + 1 := by
    rw [← hb₃, hdr_setHdr_self, u32_of_lt (by omega)]
  have hhdr₃ : ∀ f, f ≠ .entryCount → hdr b₃ f = hdr b₂ f := fun f hf => by
    rw [← hb₃, hdr_setHdr_of_ne _ hf.symm]
  rw [packet, hdr_setHdr_self, u32_of_lt hv, hdr_setHdr_of_ne _ (by decide),
    hdr_setHdr_of_ne _ (by decide), hdr_setHdr_of_ne _ (by decide), hdr_setHdr_of_ne _ (by decide),
    hec, hhdr₃ _ (by decide), hhdr₃ _ (by decide), hhdr₃ _ (by decide), hhdr₂ _ (by decide),
    hhdr₂ _ (by decide), hdc, entriesAt_frame hfr₄ (by omega), entriesAt_frame hfr₃ (by omega),
    hfr₄.slice (by omega), hfr₃.slice (by omega), hdata, entriesAt_succ, hold, hrecord]

/-- `n` bytes of values are filled up to what the data area has for them. -/
abbrev Pads (type count n : ℕ) (pad : List UInt8) : Prop :=
  calculateCameraMetadataEntryDataSize type count ≠ 0 →
    n + pad.length = calculateCameraMetadataEntryDataSize type count

/-- **Adding an entry**, when there is room for it and nothing wraps. -/
theorem addCameraMetadataEntryRaw_eq (hl : Layout b) (tag : ℕ)
    (hfree : hdr b .entryCount < hdr b .entryCapacity)
    (hspace : hdr b .entriesStart + 16 * (hdr b .entryCount + 1) ≤ hdr b .dataStart)
    (htag : tag < 2 ^ 32) (htype : type < 6) (hcount : count < 2 ^ 32)
    (hw : hdr b .dataCount + roundedSize type count < 2 ^ 32)
    (hroom : hdr b .dataCount + calculateCameraMetadataEntryDataSize type count ≤
      hdr b .dataCapacity) (hdata : payloadSize type count ≤ data.length) :
    ∃ b' pad, addCameraMetadataEntryRaw b tag type (some data) count = .ok (.ok, b') ∧
      SameShape b b' ∧
      Pads type count (payloadSize type count) pad ∧
      packet b' = (packet b).add tag type count (data.take (payloadSize type count)) pad := by
  have h₁ := hl.header
  have h₃ := hl.data
  have hlen := hl.len_le
  have hlt := hdr_lt b .entryCapacity
  have hle : roundedSize type count < 2 ^ 32 := by omega
  obtain ⟨hle', hp⟩ := entryDataSize_le htype hle
  have hpl : (data.take (payloadSize type count)).length = payloadSize type count := by
    rw [length_take, Nat.min_eq_left hdata]
  set o := hdr b .entriesStart + 16 * hdr b .entryCount with ho
  have hfr := frame_newRecord b o tag type count
  have hrec := @entryAt_newRecord b count type o tag htag (by omega) hcount
  have hhdr₁ := hdr_frame hfr (by omega)
  have hlen₁ : 40 ≤ (newRecord b o tag type count).len := hfr.len.symm ▸ hlen
  have hinit := initRecord_eq (b := b) (show o + 16 ≤ _ by omega) tag type count
  generalize newRecord b o tag type count = b₁ at *
  have hdata₁ : (packet b₁).data = (packet b).data := by
    simp only [packet, hhdr₁]
    exact hfr.slice (by omega)
  rw [← hpl] at hp
  obtain ⟨b₂, pad, hplace, hpad, hst⟩ := placeValues_eq (b := b₁)
    (n := calculateCameraMetadataEntryDataSize type count) (by omega) (by rw [hhdr₁]; omega)
    hrec rfl (by rw [hhdr₁, hhdr₁, hfr.len]; omega) (by rw [hhdr₁]; omega) hp (values_eq hdata)
  obtain ⟨hsh, hpacket⟩ := packet_of_stored h₁ hspace hfr hst (clearSorted_lt (hdr b .flags))
  have hec₂ : hdr b₂ .entryCount = hdr b .entryCount := (hst.hdr _ (by decide)).trans (hhdr₁ _)
  have hflags₂ : hdr b₂ .flags = hdr b .flags := (hst.hdr _ (by decide)).trans (hhdr₁ _)
  have hlen₂ : 40 ≤ b₂.len := hst.len.symm ▸ hlen₁
  have hcap : ¬ hdr b .dataCapacity <
      u32 (calculateCameraMetadataEntryDataSize type count + hdr b .dataCount) := by
    have := u32_le (calculateCameraMetadataEntryDataSize type count + hdr b .dataCount)
    omega
  refine ⟨_, pad, ?_, hsh, ?_, ?_⟩
  · simp only [addCameraMetadataEntryRaw, get_eq hlen, ok_bind, if_neg (Nat.ne_of_lt hfree),
      if_neg hcap, typeSize_eq htype, u32_bytes, entryPtr_eq hlen, ← ho, hinit, hplace,
      get_eq hlen₂, hec₂, u32_of_lt (n := hdr b .entryCount + 1) (by omega), set_eq hlen₂,
      get_eq (b := setHdr b₂ _ _) hlen₂,
      hdr_setHdr_of_ne b₂ (show Field.entryCount ≠ .flags by decide),
      hflags₂, set_eq (b := setHdr b₂ _ _) hlen₂]
    rfl
  · rwa [hpl] at hpad
  · rw [hpacket, hdata₁]
    rfl

/-! ### Updating an entry -/

/-- The packet with `count` new values in entry `i`; `pad` is what stood behind the values. -/
def Packet.update (p : Packet) (i count : ℕ) (payload pad : List UInt8) : Packet :=
  match p.entries[i]? with
  | none => p
  | some e =>
    let size := calculateCameraMetadataEntryDataSize e.type count
    if size ≠ 0 ∧ size = e.dataSize then
      -- the values take the place of the old ones
      { p with
        entries := p.entries.set i { e with count := count }
        data := p.data.take e.offset ++ payload ++ p.data.drop (e.offset + payload.length) }
    else
      let q := if size ≠ e.dataSize ∧ e.dataSize ≠ 0 then p.cut e.offset e.dataSize else p
      { q with
        entries := q.entries.set i
          { e with count := count, data := newData e.type count q.data.length payload e.data }
        data := if size = 0 then q.data else q.data ++ payload ++ pad }

/-- The old data of an entry leaves a packet. -/
theorem removeOldData_eq (hl : Layout b) (hi : i < hdr b .entryCount)
    (he : entryAt b.mem (hdr b .entriesStart + 16 * i) = e)
    (hr : e.offset + n ≤ hdr b .dataCount) :
    ∃ b', removeOldData b (hdr b .entriesStart + 16 * i) e n = .ok b' ∧ SameShape b b' ∧
      hdr b' .entryCount = hdr b .entryCount ∧ packet b' = (packet b).cut e.offset n := by
  have h₁ := hl.header
  have h₂ := hl.entries
  have h₃ := hl.data
  have hlen := hl.len_le
  have hlt := hdr_lt b .dataCount
  obtain ⟨b₁, hmove, hfr₁, hdata⟩ := closeGap_eq hl hr
  have hlen₁ : 40 ≤ b₁.len := hfr₁.len.symm ▸ hlen
  have hhdr₁ := hdr_frame hfr₁ (by omega)
  have hcount : usub (hdr b .dataCount) n = hdr b .dataCount - n := usub_of_le (by omega) hlt
  have hfr₂ := frame_setHdr b₁ .dataCount (hdr b .dataCount - n)
  have hdc₂ := hdr_setHdr_self b₁ .dataCount (hdr b .dataCount - n)
  rw [u32_of_lt (by omega)] at hdc₂
  have hset := set_eq hlen₁ .dataCount (hdr b .dataCount - n)
  set b₂ := setHdr b₁ .dataCount (hdr b .dataCount - n)
  have hhdr₂ : ∀ f, f ≠ .dataCount → hdr b₂ f = hdr b f := fun f hf => by
    rw [hdr_setHdr_of_ne _ hf.symm, hhdr₁]
  have hsh : SameShape b b₂ :=
    (SameShape.of_frame hfr₁ (by omega)).trans (.setHdr _ _ (Or.inr (Or.inr rfl)))
  have he₂ : entryAt b₂.mem (hdr b .entriesStart + 16 * i) = e := by
    rw [entryAt_frame hfr₂ (by omega), entryAt_frame hfr₁ (by omega), he]
  obtain ⟨b₃, hshift, hfr₃, hentries₃⟩ := shiftOffsets_packet (b := b₂) n h₁ hi
    (by rw [hfr₂.len, hfr₁.len]; omega) (hhdr₂ _ (by decide)) (hhdr₂ _ (by decide))
  have hhdr₃ := hdr_frame hfr₃ h₁
  refine ⟨b₃, ?_, hsh.trans (.of_frame hfr₃ h₁), ?_, ?_⟩
  · simp only [removeOldData, get_eq hlen, hmove, get_eq hlen₁, hhdr₁, hcount, hset, hshift,
      ok_bind]
  · rw [hhdr₃, hhdr₂ _ (by decide)]
  · rw [packet, hhdr₃, hhdr₃, hhdr₃, hhdr₃, hhdr₃, hdc₂, hhdr₂ _ (by decide), hhdr₂ _ (by decide),
      hhdr₂ _ (by decide), hhdr₂ _ (by decide), hentries₃, he₂, hfr₃.slice (by omega),
      hfr₂.slice (by omega), hdata, entriesAt_frame hfr₂ (by omega),
      entriesAt_frame hfr₁ (by omega)]
    rfl

/-- A packet in which one record changed. -/
theorem entriesAt_set {m m' : Mem} {o : ℕ} (he : entryAt m' (o + 16 * i) = e)
    (hother : ∀ j, j < n → j ≠ i → entryAt m' (o + 16 * j) = entryAt m (o + 16 * j)) :
    entriesAt m' o n = (entriesAt m o n).set i e := by
  apply ext_getElem
  · simp
  · intro j h₁ h₂
    rw [length_entriesAt] at h₁
    rw [getElem_entriesAt, getElem_set]
    split
    · rename_i hij
      rw [← hij, he]
    · rename_i hij
      rw [getElem_entriesAt, hother j h₁ (Ne.symm hij)]

/-- Storing values for entry `i`. -/
theorem packet_of_stored_at (hl : Layout b)
    (hst : Stored b b' (hdr b .entriesStart + 16 * i) e d) :
    SameShape b b' ∧ hdr b' .entryCount = hdr b .entryCount ∧
      packet b' = ⟨hdr b .flags, (packet b).entries.set i e, d⟩ := by
  have h₁ := hl.header
  have h₂ := hl.entries
  refine ⟨⟨hst.addr, hst.len, fun f _ _ hf => hst.hdr f hf⟩, hst.hdr _ (by decide), ?_⟩
  have hentries : entriesAt b'.mem (hdr b .entriesStart) (hdr b .entryCount) =
      (packet b).entries.set i e :=
    entriesAt_set hst.record fun j hj hji => hst.other _ (by omega) (by omega) (by omega)
  rw [packet, hst.hdr _ (by decide), hst.hdr _ (by decide), hst.hdr _ (by decide),
    hst.hdr _ (by decide), hst.dataCount, hst.data, hentries]

/-- Storing the count of entry `i`. -/
theorem storeCount_eq (hl : Layout b) (hcount : count < 2 ^ 32)
    (he : (packet b).entries[i]? = some e) :
    ∃ b', b.store32 (hdr b .entriesStart + 16 * i + 4) count = .ok b' ∧ SameShape b b' ∧
      packet b' =
        { packet b with entries := (packet b).entries.set i { e with count := count } } := by
  have h₁ := hl.header
  have h₂ := hl.entries
  have h₃ := hl.data
  obtain ⟨hi, hentry⟩ := entryAt_of_getElem? he
  have hfr : Buffer.Frame (hdr b .entriesStart + 16 * i) (hdr b .entriesStart + 16 * i + 16) b
      (b.put (hdr b .entriesStart + 16 * i + 4) (leBytes 4 count)) :=
    .put (by omega) (by rw [length_leBytes]; omega)
  have hrec := @entryAt_blit_count (hdr b .entriesStart + 16 * i) b.mem count
  rw [← put_mem, hentry, u32_of_lt hcount] at hrec
  refine ⟨_, store32_of_le (by omega) _, .of_frame hfr (by omega), ?_⟩
  generalize b.put (hdr b .entriesStart + 16 * i + 4) (leBytes 4 count) = b' at *
  have hhdr := hdr_frame hfr (by omega)
  have hentries : entriesAt b'.mem (hdr b .entriesStart) (hdr b .entryCount) =
      (packet b).entries.set i { e with count := count } :=
    entriesAt_set hrec fun j hj hji => entryAt_frame hfr (by omega)
  rw [packet, hhdr, hhdr, hhdr, hhdr, hhdr, hfr.slice (by omega), hentries]
  rfl

/-- Storing values in the place of the old ones. -/
theorem stored_inPlace (hl : Layout b) (he : (packet b).entries[i]? = some e)
    (hr : e.offset + payload.length ≤ hdr b .dataCount) :
    Stored b (b.put (hdr b .dataStart + e.offset) payload) (hdr b .entriesStart + 16 * i) e
      ((packet b).data.take e.offset ++ payload ++
        (packet b).data.drop (e.offset + payload.length)) := by
  have h₁ := hl.header
  have h₂ := hl.entries
  obtain ⟨hi, hentry⟩ := entryAt_of_getElem? he
  have hfr : Buffer.Frame (hdr b .dataStart + e.offset)
      (hdr b .dataStart + e.offset + payload.length) b
      (b.put (hdr b .dataStart + e.offset) payload) := .put (Nat.le_refl _) (Nat.le_refl _)
  have hnew := slice_blit_self b.mem (hdr b .dataStart + e.offset) payload
  rw [← put_mem] at hnew
  generalize b.put (hdr b .dataStart + e.offset) payload = b' at *
  have hlength : ((packet b).data.take e.offset ++ payload ++
      (packet b).data.drop (e.offset + payload.length)).length = hdr b .dataCount := by
    rw [length_append, length_append, length_take, length_drop,
      ← hdr_dataCount]
    omega
  refine ⟨hfr.addr, hfr.len, fun f _ => hdr_frame hfr (by omega) f, ?_, ?_, ?_, ?_⟩
  · rw [hdr_frame hfr (by omega), hlength]
  · rw [entryAt_frame hfr (by omega), hentry]
  · intro o _ ho _
    exact entryAt_frame hfr (by omega)
  · have hsplit : hdr b .dataCount =
        e.offset + payload.length + (hdr b .dataCount - (e.offset + payload.length)) := by omega
    rw [hlength, hsplit, slice_add, slice_add, hnew, hfr.slice (by omega),
      hfr.slice (by omega), packet, take_slice _ _ (by omega), drop_slice]

theorem Entry.lower_self (e : Entry) (n : ℕ) : e.lower e.offset n = e := by
  rw [Entry.lower, if_neg (by omega)]

/-- The last steps of `update_camera_metadata_entry`: the count is stored, and the entry is read
again if the caller wants it. -/
theorem storeCount_get {b₂ : Buffer} (hl : Layout b)
    (hst : Stored b b₂ (hdr b .entriesStart + 16 * i) e d) (hi : i < hdr b .entryCount)
    (hd : d.length ≤ hdr b .dataCapacity) (htype : e.type < 6) (hcount : count < 2 ^ 32) :
    ∃ b₃ r, b₂.store32 (hdr b .entriesStart + 16 * i + 4) count = .ok b₃ ∧ SameShape b b₃ ∧
      packet b₃ = ⟨hdr b .flags, (packet b).entries.set i { e with count := count }, d⟩ ∧
      getCameraMetadataEntry b₃ i = .ok (.ok, r) := by
  obtain ⟨hsh₂, hec₂, hp₂⟩ := packet_of_stored_at hl hst
  have h₂ := hl.entries
  have hl₂ : Layout b₂ := by
    refine hl.of_sameShape hsh₂ ?_ ?_
    · rw [← hdr_entryCount, hec₂]
      exact h₂
    · rw [hp₂]
      exact hd
  have hi' : i < (packet b).entries.length := by rwa [← hdr_entryCount]
  have he₂ : (packet b₂).entries[i]? = some e := by rw [hp₂, getElem?_set_self hi']
  obtain ⟨b₃, hrun, hsh₃, hp₃⟩ := storeCount_eq hl₂ hcount he₂
  rw [hsh₂.hdr_eq .entriesStart] at hrun
  rw [hp₂, set_set] at hp₃
  have hl₃ : Layout b₃ := by
    refine hl.of_sameShape (hsh₂.trans hsh₃) ?_ ?_
    · rw [hp₃, length_set, ← hdr_entryCount]
      exact h₂
    · rw [hp₃]
      exact hd
  have he₃ : (packet b₃).entries[i]? = some { e with count := count } := by
    rw [hp₃, getElem?_set_self hi']
  exact ⟨b₃, _, hrun, hsh₂.trans hsh₃, hp₃,
    getCameraMetadataEntry_eq hl₃.len_le hl₃.records_le he₃ htype⟩

variable (hl : Layout b) (he : (packet b).entries[i]? = some e)
  (hr : 0 < e.dataSize → e.offset + e.dataSize ≤ hdr b .dataCount)

include hl he hr in
/-- The old data of an entry leaves if there is any, and the new data has another size `n`. -/
theorem removeOldData_cases (n m : ℕ) (hm : e.dataSize = m) :
    ∃ b₁, (∀ k : Buffer → Except Fault (Status × Buffer × Option EntryRef),
        (if n ≠ m ∧ m ≠ 0 then
          removeOldData b (hdr b .entriesStart + 16 * i) e m >>= k else k b) = k b₁) ∧
      SameShape b b₁ ∧
      hdr b₁ .entryCount = hdr b .entryCount ∧
      packet b₁ = (if n ≠ e.dataSize ∧ e.dataSize ≠ 0 then (packet b).cut e.offset e.dataSize
        else packet b) ∧
      (packet b₁).entries[i]? = some e ∧
      (¬ (n ≠ 0 ∧ n = e.dataSize) →
        (packet b₁).data.length = hdr b .dataCount - e.dataSize) := by
  subst hm
  obtain ⟨hi, hentry⟩ := entryAt_of_getElem? he
  by_cases hcut : n ≠ e.dataSize ∧ e.dataSize ≠ 0
  · have hin := hr (by omega)
    obtain ⟨b₁, hrem, hsh₁, hec₁, hp₁⟩ := removeOldData_eq hl hi hentry hin
    refine ⟨b₁, fun k => ?_, hsh₁, hec₁, by rw [hp₁, if_pos hcut], ?_, fun _ => ?_⟩
    · rw [if_pos hcut, hrem, ok_bind]
    · rw [hp₁, Packet.cut, getElem?_map, he, Option.map_some, Entry.lower_self]
    · rw [hdr_dataCount] at hin ⊢
      rw [hp₁, Packet.cut, length_append, length_take, length_drop]
      omega
  · refine ⟨b, fun k => if_neg hcut, .refl b, rfl, by rw [if_neg hcut], he, fun hsame => ?_⟩
    rw [hdr_dataCount]
    omega

/-- Entry `i`, which is `e`, is updated. -/
def Updates (b : Buffer) (i : ℕ) (data : List UInt8) (count : ℕ) (updatedEntry : Bool)
    (e : Entry) : Prop :=
  ∃ b' r pad, updateCameraMetadataEntry b i (.outside data) count updatedEntry =
      .ok (.ok, b', r) ∧
    SameShape b b' ∧
    Pads e.type count (payloadSize e.type count) pad ∧
    packet b' = (packet b).update i count (data.take (payloadSize e.type count)) pad

include hl he hr in
/-- **Updating an entry**, when there is room for its values and nothing wraps. -/
theorem updateCameraMetadataEntry_eq (updatedEntry : Bool) (htype : e.type < 6)
    (hcount : count < 2 ^ 32) (hw : hdr b .dataCount + roundedSize e.type count < 2 ^ 32)
    (hroom : hdr b .dataCount + calculateCameraMetadataEntryDataSize e.type count - e.dataSize ≤
      hdr b .dataCapacity) (hdata : payloadSize e.type count ≤ data.length) :
    Updates b i data count updatedEntry e := by
  have h₁ := hl.header
  have h₂ := hl.entries
  have h₃ := hl.data
  have hlen := hl.len_le
  have hle : roundedSize e.type count < 2 ^ 32 := by omega
  obtain ⟨hle', hp⟩ := entryDataSize_le htype hle
  generalize hm : calculateCameraMetadataEntryDataSize e.type count = m at *
  have hpl : (data.take (payloadSize e.type count)).length = payloadSize e.type count := by
    rw [length_take, Nat.min_eq_left hdata]
  obtain ⟨hi, hentry⟩ := entryAt_of_getElem? he
  have hload := loadEntry_of_getElem? he (by omega)
  have hn : e.dataSize ≤ hdr b .dataCount := by omega
  have hfits : ¬ (m ≠ e.dataSize ∧
      hdr b .dataCapacity < usub (u32 (hdr b .dataCount + m)) e.dataSize) := by
    rw [u32_of_lt (by omega), usub_of_le (by omega) (by omega)]
    omega
  rw [← hpl] at hp
  by_cases hsame : m ≠ 0 ∧ m = e.dataSize
  · -- the new values take the place of the old ones
    rw [if_neg hsame.1] at hp
    have hin := hr (by omega)
    have hst := @stored_inPlace b i e (data.take (payloadSize e.type count)) hl he (by omega)
    have hstore : b.store (hdr b .dataStart + e.offset) (data.take (payloadSize e.type count)) =
        .ok _ := store_of_inside (Or.inr (by have := hl.count; omega))
    obtain ⟨b₃, r, hrun, hsh, hpk, hget⟩ := storeCount_get hl hst hi
      (by rw [← hst.dataCount, hdr_frame (.put (Nat.le_refl _) (Nat.le_refl _)) (by omega)]
          exact hl.count) htype hcount
    refine ⟨b₃, if updatedEntry then r else none, List.replicate (m - payloadSize e.type count) 0,
      ?_, hsh, fun _ => by rw [length_replicate]; omega, ?_⟩
    · have hcut : ¬ (m ≠ e.dataSize ∧ e.dataSize ≠ 0) := fun h => h.1 hsame.2
      simp only [Entry.dataSize] at hfits hsame hcut
      cases updatedEntry <;>
      simp only [updateCameraMetadataEntry, get_eq hlen, ok_bind, hm,
        if_neg (Nat.not_le_of_lt hi), entryPtr_eq hlen, hload, typeSize_eq htype, u32_bytes,
        if_neg hfits, values_eq hdata, if_neg hcut, pure_bind, if_pos hsame, hstore, hrun, hget,
        if_true, Bool.false_eq_true, if_false] <;>
      rfl
    · simp only [hpk, Packet.update, he, hm, if_pos hsame]
      rfl
  · -- the old data leaves, if there is any, and the new values go where they fit
    obtain ⟨b₁, hrem, hsh₁, hec₁, hp₁, he₁, hd₁⟩ :=
      removeOldData_cases hl he hr m (calculateCameraMetadataEntryDataSize e.type e.count) rfl
    replace hd₁ := hd₁ hsame
    have hdc₁ : hdr b₁ .dataCount = hdr b .dataCount - e.dataSize := by rw [hdr_dataCount, hd₁]
    have hstart₁ := hsh₁.hdr_eq .entriesStart
    have hds₁ := hsh₁.hdr_eq .dataStart
    have hcap₁ := hsh₁.hdr_eq .dataCapacity
    have hl₁ : Layout b₁ := by
      refine hl.of_sameShape hsh₁ ?_ ?_
      · rw [← hdr_entryCount, hec₁]
        exact h₂
      · have := hl.count
        omega
    have hentry₁ := (entryAt_of_getElem? he₁).2
    rw [hstart₁] at hentry₁
    obtain ⟨b₂, pad, hplace, hpad, hst⟩ := placeValues_eq (b := b₁) (by omega) (by omega)
      hentry₁ hm (by rw [hds₁, hsh₁.len]; omega) (by omega) hp (values_eq hdata)
    have hcap : (if m = 0 then (packet b₁).data
        else (packet b₁).data ++ data.take (payloadSize e.type count) ++ pad).length ≤
        hdr b₁ .dataCapacity := by
      split_ifs with h0
      · have := hl.count
        omega
      · have := hpad h0
        rw [length_append, length_append]
        omega
    rw [← hstart₁] at hst
    obtain ⟨b₃, r, hrun, hsh, hpk, hget⟩ := storeCount_get hl₁ hst (hec₁.symm ▸ hi) hcap htype
      hcount
    rw [hstart₁] at hrun
    refine ⟨b₃, if updatedEntry then r else none, pad, ?_, hsh₁.trans hsh,
      hpl ▸ fun h => (hpad (hm ▸ h)).trans hm.symm, ?_⟩
    · simp only [Entry.dataSize] at hfits hsame
      cases updatedEntry <;>
      simp only [updateCameraMetadataEntry, get_eq hlen, ok_bind, hm,
        if_neg (Nat.not_le_of_lt hi), entryPtr_eq hlen, hload, typeSize_eq htype, u32_bytes,
        if_neg hfits, pure_bind, hrem, if_neg hsame, hplace, hrun, hget,
        if_true, Bool.false_eq_true, if_false] <;>
      rfl
    · simp only [hpk, Packet.update, he, hm, if_neg hsame, ← hp₁]
      rfl

end Camera
