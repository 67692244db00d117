/-
Histories of a packet.

A `History` is what a program did to get a packet: it placed or allocated one, and
then called the functions of `camera_metadata.c` on it, with packets of other
histories as second arguments.  `History.call` runs the calls on memory.

A packet is `Sound` if its parts lie as `place_camera_metadata` lays them out, what
is in use fits the capacities, and the packet has the packing invariant.  For every
operation there is one lemma that says what it can do to a sound packet: refuse and
leave it alone, or do to the packet what the operation of the same name on `Packet`
does (`add_cases`, `update_cases`, `delete_cases`, `append_cases`, `sort_cases`,
`copy_cases`, `clone_cases`).

`Reaches` puts them together: what the calls of a history did to packets.  Every
invariant is an induction on it.  A history leads to a packet that it `Reaches`
(`History.reaches`) if the value arrays hold what is read from them
(`History.ValuesGiven`) and no size wraps (`History.NoWrap`).
-/
import AndroidSystem.Camera.Packing

open CInt List Mem

namespace Camera

open Packet

/-! ### Sound packets -/

/-- A packet as the functions of `camera_metadata.c` leave it. -/
structure Sound (b : Buffer) : Prop where
  placed : Placed b
  entries : hdr b .entryCount ≤ hdr b .entryCapacity
  data : hdr b .dataCount ≤ hdr b .dataCapacity
  inv : (packet b).Inv

variable {b b' src : Buffer} {e : Entry} {i : ℕ}

theorem Sound.layout (h : Sound b) : Layout b := h.placed.layout h.entries h.data

theorem Sound.space (h : Sound b) {n : ℕ} (hn : n ≤ hdr b .entryCapacity) :
    hdr b .entriesStart + 16 * n ≤ hdr b .dataStart := by
  have h₁ := h.placed.entriesStart
  have h₂ := h.placed.dataStart
  rw [dataStartFor] at h₂
  omega

theorem Sound.of_sameShape (h : Sound b) (hs : SameShape b b') (hinv : (packet b').Inv)
    (he : (packet b').entries.length ≤ hdr b .entryCapacity)
    (hd : (packet b').data.length ≤ hdr b .dataCapacity) : Sound b' := by
  have hecap := hs.hdr_eq .entryCapacity
  have hdcap := hs.hdr_eq .dataCapacity
  refine ⟨h.placed.of_sameShape hs, ?_, ?_, hinv⟩
  · rw [hdr_entryCount, hecap]
    exact he
  · rw [hdr_dataCount, hdcap]
    exact hd

theorem Sound.good (h : Sound b) (he : (packet b).entries[i]? = some e) : e.Good :=
  h.inv.good e (mem_of_getElem? he)

theorem Sound.end_le (h : Sound b) (he : (packet b).entries[i]? = some e) (hpos : 0 < e.dataSize) :
    e.offset + e.dataSize ≤ hdr b .dataCount := by
  rw [hdr_dataCount]
  exact h.inv.end_le (mem_of_getElem? he) hpos

/-! ### What an operation can do -/

variable {dataCapacity entryCapacity count : ℕ} {data : List UInt8}

theorem tableTagType_cases (tag : ℕ) :
    tableTagType tag = -1 ∨ ∃ type : ℕ, type < 6 ∧ tableTagType tag = type := by
  have htype : ∀ t : EntryType, t.toNat < 6 := fun t => by cases t <;> decide
  simp only [tableTagType]
  split
  · exact Or.inl rfl
  · split
    · exact Or.inl rfl
    · split
      · exact Or.inr ⟨_, htype _, rfl⟩
      · exact Or.inl rfl

/-- A known tag has one of the six types. -/
theorem getCameraMetadataTagType_cases (ops : Option VendorTagOps) (tag : ℕ) :
    getCameraMetadataTagType ops tag = -1 ∨
      ∃ type : ℕ, type < 6 ∧ getCameraMetadataTagType ops tag = type := by
  unfold getCameraMetadataTagType
  split
  · rename_i v
    split
    · rcases v.isType tag with h | ⟨h₁, h₂⟩
      · exact Or.inl h
      · rw [numTypes] at h₂
        exact Or.inr ⟨(v.getCameraVendorTagType tag).toNat, by omega, by omega⟩
    · exact tableTagType_cases tag
  · exact tableTagType_cases tag

/-- What placing a packet can do. -/
theorem place_cases (dst : Option Buffer)
    (hw : dataStartFor entryCapacity + dataCapacity < 2 ^ 32) :
    placeCameraMetadata dst entryCapacity dataCapacity = .ok none ∨
      ∃ d b', dst = some d ∧
        placeCameraMetadata dst entryCapacity dataCapacity = .ok (some b') ∧ Sound b' ∧
        packet b' = ⟨0, [], []⟩ ∧ b'.addr = d.addr ∧ b'.len = d.len := by
  cases dst with
  | none => exact Or.inl rfl
  | some d =>
    by_cases h0 : entryCapacity = 0
    · left
      simp only [placeCameraMetadata, if_pos h0]
      rfl
    · by_cases hlen : dataStartFor entryCapacity + dataCapacity ≤ d.len
      · right
        obtain ⟨b', hrun, hpl, haddr, hlen', hec, hdc, hp⟩ :=
          placeCameraMetadata_eq (Nat.pos_of_ne_zero h0) hw hlen
        refine ⟨d, b', rfl, hrun, ⟨hpl, ?_, ?_, hp ▸ Packet.Inv.empty 0⟩, hp, haddr, hlen'⟩
        · rw [hdr_entryCount, hp]
          exact Nat.zero_le _
        · rw [hdr_dataCount, hp]
          exact Nat.zero_le _
      · left
        have hshort : d.len < calculateCameraMetadataSize entryCapacity dataCapacity := by
          rw [calculateCameraMetadataSize_eq hw]
          omega
        simp only [placeCameraMetadata, if_neg h0, if_pos hshort]
        rfl

/-- What allocating a packet can do. -/
theorem allocate_cases (addr : ℕ) (garbage : Mem)
    (hw : dataStartFor entryCapacity + dataCapacity < 2 ^ 32) :
    allocateCameraMetadata addr garbage entryCapacity dataCapacity = .ok none ∨
      ∃ b', allocateCameraMetadata addr garbage entryCapacity dataCapacity = .ok (some b') ∧
        Sound b' ∧ packet b' = ⟨0, [], []⟩ ∧ b'.addr = addr ∧
        b'.len = dataStartFor entryCapacity + dataCapacity := by
  by_cases h0 : entryCapacity = 0
  · left
    rw [allocateCameraMetadata, if_pos h0]
    rfl
  · rw [allocateCameraMetadata, if_neg h0, calculateCameraMetadataSize_eq hw]
    rcases place_cases (some ⟨addr, dataStartFor entryCapacity + dataCapacity, garbage⟩) hw with
      hrun | ⟨d, b', hd, hrun, hb', hp, haddr, hlen⟩
    · exact Or.inl hrun
    · cases hd
      exact Or.inr ⟨b', hrun, hb', hp, haddr, hlen⟩

/-- What adding an entry can do. -/
theorem add_cases (data : Option (List UInt8)) (hb : Sound b) {ops : Option VendorTagOps}
    {tag : ℕ} (htag : tag < 2 ^ 32) (hcount : count < 2 ^ 32)
    (hdata : ∀ type : ℕ, getCameraMetadataTagType ops tag = type →
      ∀ d ∈ data, payloadSize type count ≤ d.length)
    (hw : ∀ type : ℕ, getCameraMetadataTagType ops tag = type →
      hdr b .dataCount + roundedSize type count < 2 ^ 32) :
    addCameraMetadataEntry ops b tag data count = .ok (.error, b) ∨
      ∃ type payload pad b', addCameraMetadataEntry ops b tag data count = .ok (.ok, b') ∧
        getCameraMetadataTagType ops tag = (type : ℕ) ∧ type < 6 ∧
        data.map (List.take (payloadSize type count)) = some payload ∧
        SameShape b b' ∧ Sound b' ∧
        packet b' = (packet b).add tag type count payload pad ∧
        (packet b').contents = (packet b).contents ++ [⟨tag, type, count, payload⟩] := by
  rcases getCameraMetadataTagType_cases ops tag with hnone | ⟨type, htype, hty⟩
  · left
    simp only [addCameraMetadataEntry, if_pos hnone]
    rfl
  · replace hdata := hdata type hty
    replace hw := hw type hty
    simp only [addCameraMetadataEntry, hty, Int.toNat_natCast]
    have hl := hb.layout
    have hlen := hl.len_le
    have hle := hb.entries
    have hsize_le := (entryDataSize_le htype (show roundedSize type count < 2 ^ 32 by omega)).1
    by_cases hfull : hdr b .entryCount = hdr b .entryCapacity
    · left
      simp only [addCameraMetadataEntryRaw, get_eq hlen, ok_bind, if_pos hfull]
      rfl
    · cases data with
      | none =>
        left
        simp only [addCameraMetadataEntryRaw, get_eq hlen, ok_bind, if_neg hfull]
        rfl
      | some d =>
        have hd := hdata d rfl
        by_cases hroom : hdr b .dataCount + calculateCameraMetadataEntryDataSize type count ≤
            hdr b .dataCapacity
        · right
          obtain ⟨b', pad, hrun, hsh, hpad, hp⟩ := addCameraMetadataEntryRaw_eq hl tag
            (by omega) (hb.space (by omega)) htag htype hcount hw hroom hd
          have hpl : (d.take (payloadSize type count)).length = payloadSize type count := by
            rw [length_take, Nat.min_eq_left hd]
          obtain ⟨hinv, hcont⟩ := hb.inv.add htype hpl (hpl ▸ hpad) tag
            (by rw [← hdr_dataCount]; exact hw)
          rw [← hp] at hinv hcont
          refine ⟨type, _, pad, b', hrun, rfl, htype, rfl, hsh, hb.of_sameShape hsh hinv ?_ ?_, hp,
            hcont⟩
          · rw [hp, Packet.add, length_append, ← hdr_entryCount, length_singleton]
            omega
          · rw [hp, Packet.add]
            split_ifs with h0
            · rw [← hdr_dataCount]
              exact hb.data
            · rw [length_append, length_append, ← hdr_dataCount]
              omega
        · left
          have hcap : hdr b .dataCapacity <
              u32 (calculateCameraMetadataEntryDataSize type count + hdr b .dataCount) := by
            rw [u32_of_lt (by omega)]
            omega
          simp only [addCameraMetadataEntryRaw, get_eq hlen, ok_bind, if_neg hfull,
            if_pos hcap]
          rfl

/-- How much of the data area is taken after an update. -/
theorem Packet.length_update {p : Packet} {payload pad : List UInt8}
    (he : p.entries[i]? = some e) (hr : 0 < e.dataSize → e.offset + e.dataSize ≤ p.data.length)
    (hpad : Pads e.type count payload.length pad) :
    (p.update i count payload pad).entries.length = p.entries.length ∧
      (p.update i count payload pad).data.length =
        p.data.length + calculateCameraMetadataEntryDataSize e.type count - e.dataSize := by
  simp only [Packet.update, he]
  split_ifs with hsame hcut h0 h0
  · -- the values took the place of the old ones
    refine ⟨length_set, ?_⟩
    rw [length_append, length_append, length_take, length_drop]
    omega
  · refine ⟨by rw [length_set, cut, length_map], ?_⟩
    rw [cut, length_append, length_take, length_drop]
    omega
  · have := hr (by omega)
    refine ⟨by rw [length_set, cut, length_map], ?_⟩
    rw [cut, length_append, length_append, length_append, length_take,
      length_drop]
    omega
  · refine ⟨length_set, ?_⟩
    change p.data.length = _
    omega
  · refine ⟨length_set, ?_⟩
    rw [length_append, length_append]
    omega

section

variable (updatedEntry : Bool) (hcount : count < 2 ^ 32)
  (hdata : ∀ e, (packet b).entries[i]? = some e → payloadSize e.type count ≤ data.length)
  (hw : ∀ e, (packet b).entries[i]? = some e →
    hdr b .dataCount + roundedSize e.type count < 2 ^ 32)

include hcount hdata hw

/-- An update of a packet in `Layout` is refused, or it is `Packet.update`. -/
theorem update_run (hl : Layout b) (htype : ∀ e, (packet b).entries[i]? = some e → e.type < 6)
    (hend : ∀ e, (packet b).entries[i]? = some e → 0 < e.dataSize →
      e.offset + e.dataSize ≤ hdr b .dataCount) :
    updateCameraMetadataEntry b i (.outside data) count updatedEntry = .ok (.error, b, none) ∨
      ∃ e, (packet b).entries[i]? = some e ∧
        hdr b .dataCount + calculateCameraMetadataEntryDataSize e.type count - e.dataSize ≤
          hdr b .dataCapacity ∧ Updates b i data count updatedEntry e := by
  have hlen := hl.len_le
  by_cases hi : hdr b .entryCount ≤ i
  · left
    simp only [updateCameraMetadataEntry, get_eq hlen, ok_bind, if_pos hi]
    rfl
  · obtain ⟨e, he⟩ := exists_entry hi
    replace htype := htype e he
    replace hend := hend e he
    replace hdata := hdata e he
    replace hw := hw e he
    by_cases hroom : hdr b .dataCount + calculateCameraMetadataEntryDataSize e.type count -
        e.dataSize ≤ hdr b .dataCapacity
    · exact Or.inr ⟨e, he, hroom,
        updateCameraMetadataEntry_eq hl he hend updatedEntry htype hcount hw hroom hdata⟩
    · left
      have h₂ := hl.entries
      have h₃ := hl.data
      have h₄ := hl.count
      have hload := loadEntry_of_getElem? he (by omega)
      have hsize_le :=
        (entryDataSize_le htype (show roundedSize e.type count < 2 ^ 32 by omega)).1
      have hfull : calculateCameraMetadataEntryDataSize e.type count ≠
            calculateCameraMetadataEntryDataSize e.type e.count ∧
          hdr b .dataCapacity < usub (u32 (hdr b .dataCount +
            calculateCameraMetadataEntryDataSize e.type count))
            (calculateCameraMetadataEntryDataSize e.type e.count) := by
        rw [← Entry.dataSize, u32_of_lt (by omega), usub_of_le (by omega) (by omega)]
        exact ⟨by omega, by omega⟩
      simp only [updateCameraMetadataEntry, get_eq hlen, ok_bind, if_neg hi, entryPtr_eq hlen,
        hload, typeSize_eq htype, if_pos hfull]
      rfl

/-- What updating an entry can do. -/
theorem update_cases (hb : Sound b) :
    updateCameraMetadataEntry b i (.outside data) count updatedEntry = .ok (.error, b, none) ∨
      ∃ e pad b' r, (packet b).entries[i]? = some e ∧
        updateCameraMetadataEntry b i (.outside data) count updatedEntry = .ok (.ok, b', r) ∧
        SameShape b b' ∧ Sound b' ∧
        packet b' = (packet b).update i count (data.take (payloadSize e.type count)) pad ∧
        (packet b').contents = (packet b).contents.set i
          ⟨e.tag, e.type, count, data.take (payloadSize e.type count)⟩ := by
  rcases update_run updatedEntry hcount hdata hw hb.layout (fun e he => (hb.good he).type)
    (fun e he => hb.end_le he) with hrun | ⟨e, he, hroom, b', r, pad, hrun, hsh, hpad, hp⟩
  · exact Or.inl hrun
  · right
    have hpl : (data.take (payloadSize e.type count)).length = payloadSize e.type count := by
      rw [length_take, Nat.min_eq_left (hdata e he)]
    obtain ⟨hinv, hcont⟩ := hb.inv.update he hpl (hpl ▸ hpad)
      (by rw [← hdr_dataCount]; exact hw e he)
    have hlength := length_update he (hb.inv.end_le (mem_of_getElem? he)) (hpl ▸ hpad)
    rw [← hp] at hinv hcont hlength
    refine ⟨e, pad, b', r, he, hrun, hsh, hb.of_sameShape hsh hinv ?_ ?_, hp, hcont⟩
    · rw [hlength.1, ← hdr_entryCount]
      exact hb.entries
    · rw [hlength.2, ← hdr_dataCount]
      exact hroom

end

/-- What deleting an entry can do. -/
theorem delete_cases (hb : Sound b) (i : ℕ) :
    deleteCameraMetadataEntry b i = .ok (.error, b) ∨
      ∃ e b', (packet b).entries[i]? = some e ∧
        deleteCameraMetadataEntry b i = .ok (.ok, b') ∧ SameShape b b' ∧ Sound b' ∧
        packet b' = (packet b).delete i ∧
        (packet b').contents = (packet b).contents.eraseIdx i := by
  have hl := hb.layout
  have hlen := hl.len_le
  by_cases hi : hdr b .entryCount ≤ i
  · left
    simp only [deleteCameraMetadataEntry, get_eq hlen, ok_bind, if_pos hi]
    rfl
  · right
    obtain ⟨e, he⟩ := exists_entry hi
    obtain ⟨b', hrun, hsh, hp⟩ := deleteCameraMetadataEntry_eq hl he (hb.end_le he)
    obtain ⟨hinv, hcont⟩ := hb.inv.delete he
    obtain ⟨hentries, hdata⟩ :
        ((packet b).delete i).entries.length ≤ (packet b).entries.length ∧
          ((packet b).delete i).data.length ≤ (packet b).data.length := by
      simp only [Packet.delete, he]
      split_ifs
      · rw [cut, length_append, length_take, length_drop]
        exact ⟨Nat.le_trans (length_eraseIdx_le _ _) (length_map _).le, by omega⟩
      · exact ⟨length_eraseIdx_le _ _, Nat.le_refl _⟩
    rw [← hp] at hinv hcont hentries hdata
    rw [← hdr_entryCount b] at hentries
    rw [← hdr_dataCount b] at hdata
    exact ⟨e, b', he, hrun, hsh, hb.of_sameShape hsh hinv (hentries.trans hb.entries)
      (hdata.trans hb.data), hp, hcont⟩

/-- What appending a packet can do. -/
theorem append_cases (hb : Sound b) (hs : Sound src)
    (hw : hdr b .dataCount + hdr src .dataCount < 2 ^ 32) :
    appendCameraMetadata b src = .ok (.error, b) ∨
      ∃ b', appendCameraMetadata b src = .ok (.ok, b') ∧ SameShape b b' ∧ Sound b' ∧
        packet b' = (packet b).append (packet src) ∧
        (packet b').contents = (packet b).contents ++ (packet src).contents := by
  have hl := hb.layout
  have hlen := hl.len_le
  have hslen := hs.layout.len_le
  -- the numbers of entries cannot wrap, since the entries lie in the buffers
  have hfull : hdr b .entryCapacity < u32 (hdr src .entryCount + hdr b .entryCount) ↔
      ¬ hdr b .entryCount + hdr src .entryCount ≤ hdr b .entryCapacity := by
    have h₁ := hb.layout.entries
    have h₂ := hs.layout.entries
    have h₃ := hdr_lt b .dataStart
    have h₄ := hdr_lt src .dataStart
    rw [u32_of_lt (by omega)]
    omega
  by_cases hfree : hdr b .entryCount + hdr src .entryCount ≤ hdr b .entryCapacity
  · by_cases hroom : hdr b .dataCount + hdr src .dataCount ≤ hdr b .dataCapacity
    · right
      obtain ⟨b', hrun, hsh, hp⟩ :=
        appendCameraMetadata_eq hl (hb.space hfree) hroom hs.layout hfree
      obtain ⟨hinv, hcont⟩ := hb.inv.append hs.inv
        (by rw [← hdr_dataCount, ← hdr_dataCount]; exact hw)
      have hentries : ((packet b).append (packet src)).entries.length =
          hdr b .entryCount + hdr src .entryCount := by
        rw [hdr_entryCount, hdr_entryCount, Packet.append, length_append]
        split_ifs
        · rw [length_map]
        · rfl
      have hdata : ((packet b).append (packet src)).data.length =
          hdr b .dataCount + hdr src .dataCount := by
        rw [hdr_dataCount, hdr_dataCount, Packet.append, length_append]
      rw [← hp] at hinv hcont hentries hdata
      exact ⟨b', hrun, hsh, hb.of_sameShape hsh hinv (hentries.trans_le hfree)
        (hdata.trans_le hroom), hp, hcont⟩
    · left
      have hcap : hdr b .dataCapacity < u32 (hdr src .dataCount + hdr b .dataCount) := by
        rw [u32_of_lt (by omega)]
        omega
      simp only [appendCameraMetadata, get_eq hlen, get_eq hslen, ok_bind,
        if_neg fun h => hfull.mp h hfree, if_pos hcap]
      rfl
  · left
    simp only [appendCameraMetadata, get_eq hlen, get_eq hslen, ok_bind,
      if_pos (hfull.mpr hfree)]
    rfl

/-- The entries of a packet, in the order of their tags. -/
def Packet.Ordered (p : Packet) : Prop := p.entries.Pairwise fun e f => e.tag ≤ f.tag

/-- What sorting a packet can do. -/
theorem sort_cases (hb : Sound b) (qsort : Qsort) :
    isSorted (packet b).flags = true ∧ sortCameraMetadata qsort b = .ok (.ok, b) ∨
      ∃ b', sortCameraMetadata qsort b = .ok (.ok, b') ∧ SameShape b b' ∧ Sound b' ∧
        (packet b').entries.Perm (packet b).entries ∧ (packet b').Ordered ∧
        (packet b').contents.Perm (packet b).contents := by
  have hl := hb.layout
  have hlen := hl.len_le
  by_cases hflag : isSorted (hdr b .flags) = true
  · left
    refine ⟨hflag, ?_⟩
    simp only [sortCameraMetadata, get_eq hlen, ok_bind, if_pos hflag]
    rfl
  · right
    obtain ⟨b', hrun, hsh, hperm, hsorted, hdata, -⟩ :=
      sortCameraMetadata_eq hl qsort (Bool.eq_false_of_not_eq_true hflag)
    obtain ⟨hinv, hcont⟩ := hb.inv.perm hperm hdata
    refine ⟨b', hrun, hsh, hb.of_sameShape hsh hinv ?_ ?_, hperm, hsorted, hcont⟩
    · rw [hperm.length_eq, ← hdr_entryCount]
      exact hb.entries
    · rw [hdata, ← hdr_dataCount]
      exact hb.data

theorem Sound.compact (hs : Sound src) :
    dataStartFor (hdr src .entryCount) + hdr src .dataCount < 2 ^ 32 := by
  have h₁ := hs.placed.size
  have h₂ := hs.placed.dataStart
  have h₃ := hdr_lt src .size
  have h₄ := hs.entries
  have h₅ := hs.data
  rw [dataStartFor] at h₂ ⊢
  omega

/-- What copying a packet can do. -/
theorem copy_cases (dst : Option Buffer) (hs : Sound src) :
    copyCameraMetadata dst src = .ok none ∨
      (packet src).entries = [] ∧ copyCameraMetadata dst src = .error .nullDeref ∨
      ∃ d b', dst = some d ∧ copyCameraMetadata dst src = .ok (some b') ∧ Sound b' ∧
        packet b' = packet src ∧ b'.addr = d.addr := by
  have hslen := hs.layout.len_le
  have hw := hs.compact
  cases dst with
  | none =>
    left
    simp only [copyCameraMetadata, getCameraMetadataCompactSize_eq hslen, ok_bind]
    rfl
  | some d =>
    have hsize := calculateCameraMetadataSize_eq hw
    by_cases hlen : dataStartFor (hdr src .entryCount) + hdr src .dataCount ≤ d.len
    · right
      by_cases h0 : hdr src .entryCount = 0
      · left
        rw [h0] at hsize hlen
        refine ⟨?_, copyCameraMetadata_empty hs.layout h0 (hsize.trans_le hlen)⟩
        rw [hdr_entryCount] at h0
        exact length_eq_zero_iff.mp h0
      · right
        obtain ⟨b', hrun, hpl, haddr, hec, hdc, hp⟩ :=
          copyCameraMetadata_eq hs.layout (Nat.pos_of_ne_zero h0) hw hlen
        refine ⟨d, b', rfl, hrun, ⟨hpl, ?_, ?_, hp ▸ hs.inv⟩, hp, haddr⟩
        · rw [hec, hdr_entryCount, hp, ← hdr_entryCount]
        · rw [hdc, hdr_dataCount, hp, ← hdr_dataCount]
    · left
      have hshort : d.len <
          calculateCameraMetadataSize (hdr src .entryCount) (hdr src .dataCount) := by
        rw [hsize]
        omega
      simp only [copyCameraMetadata, getCameraMetadataCompactSize_eq hslen, ok_bind,
        if_pos hshort]
      rfl

/-- What cloning a packet can do. -/
theorem clone_cases (addr : ℕ) (garbage : Mem) (hs : Sound src) :
    cloneCameraMetadata addr garbage src = .ok none ∨
      ∃ b', cloneCameraMetadata addr garbage src = .ok (some b') ∧ Sound b' ∧
        packet b' = (⟨0, [], []⟩ : Packet).append (packet src) ∧
        (packet b').contents = (packet src).contents ∧ b'.addr = addr := by
  by_cases h0 : hdr src .entryCount = 0
  · exact .inl (cloneCameraMetadata_empty hs.layout h0 addr garbage)
  · right
    obtain ⟨b', hrun, hpl, haddr, hec, hdc, hp⟩ :=
      cloneCameraMetadata_eq hs.layout (Nat.pos_of_ne_zero h0) hs.compact addr garbage
    obtain ⟨hinv, hcont⟩ := (Packet.Inv.empty 0).append hs.inv (by
      simp only [length_nil, Nat.zero_add]
      exact hs.inv.small)
    rw [← hp] at hinv hcont
    have hentries : (packet b').entries.length = hdr src .entryCount := by
      rw [hp, hdr_entryCount]
      rfl
    have hdata : (packet b').data.length = hdr src .dataCount := by
      rw [hp, hdr_dataCount]
      rfl
    refine ⟨b', hrun, ⟨hpl, ?_, ?_, hinv⟩, hp, hcont, haddr⟩
    · rw [hdr_entryCount, hentries, hec]
    · rw [hdr_dataCount, hdata, hdc]

/-! ### Histories -/

/-- What a program did to get a packet.  Packets that are passed as a second argument have a
history of their own, and value arrays lie outside the packet. -/
inductive History
  | place (dst : Option Buffer) (entryCapacity dataCapacity : UInt32)
  | allocate (addr : ℕ) (garbage : Mem) (entryCapacity dataCapacity : UInt32)
  | add (h : History) (ops : Option VendorTagOps) (tag : UInt32) (data : Option (List UInt8))
      (dataCount : UInt32)
  | update (h : History) (index : UInt32) (data : List UInt8) (dataCount : UInt32)
      (updatedEntry : Bool)
  | delete (h : History) (index : UInt32)
  | append (h src : History)
  | sort (h : History) (qsort : Qsort)
  | copy (dst : Option Buffer) (src : History)
  | clone (addr : ℕ) (garbage : Mem) (src : History)

namespace History

/-- What the last call returned, and the packet that there is then; `none` is `NULL`.  The
operations refuse a packet that is `NULL`. -/
def call : History → Except Fault (Status × Option Buffer)
  | place dst entryCapacity dataCapacity => do
    return (.ok, ← placeCameraMetadata dst entryCapacity.toNat dataCapacity.toNat)
  | allocate addr garbage entryCapacity dataCapacity => do
    return (.ok, ← allocateCameraMetadata addr garbage entryCapacity.toNat dataCapacity.toNat)
  | add h ops tag data dataCount => do
    let (_, some dst) ← h.call | return (.error, none)
    let (res, dst) ← addCameraMetadataEntry ops dst tag.toNat data dataCount.toNat
    return (res, some dst)
  | update h index data dataCount updatedEntry => do
    let (_, some dst) ← h.call | return (.error, none)
    let (res, dst, _) ← updateCameraMetadataEntry dst index.toNat (.outside data) dataCount.toNat
      updatedEntry
    return (res, some dst)
  | delete h index => do
    let (_, some dst) ← h.call | return (.error, none)
    let (res, dst) ← deleteCameraMetadataEntry dst index.toNat
    return (res, some dst)
  | append h src => do
    let (_, some dst) ← h.call | return (.error, none)
    let (_, some src) ← src.call | return (.error, some dst)
    let (res, dst) ← appendCameraMetadata dst src
    return (res, some dst)
  | sort h qsort => do
    let (_, some dst) ← h.call | return (.error, none)
    let (res, dst) ← sortCameraMetadata qsort dst
    return (res, some dst)
  | copy dst src => do
    let (_, some src) ← src.call
      -- the compact size of `NULL` is `ERROR`, a size of one byte
      | if dst.all (·.len < 1) then return (.ok, none) else .error .nullDeref
    return (.ok, ← copyCameraMetadata dst src)
  | clone addr garbage src => do
    let (_, some src) ← src.call | return (.ok, none)
    return (.ok, ← cloneCameraMetadata addr garbage src)

/-- The packet that a history leads to. -/
def result (h : History) : Option Buffer :=
  match h.call with
  | .ok (_, b) => b
  | .error _ => none

/-- Every call of a history meets a condition. -/
def Calls (C : History → Prop) : History → Prop
  | place dst entryCapacity dataCapacity => C (place dst entryCapacity dataCapacity)
  | allocate addr garbage entryCapacity dataCapacity =>
    C (allocate addr garbage entryCapacity dataCapacity)
  | add h ops tag data dataCount => h.Calls C ∧ C (add h ops tag data dataCount)
  | update h index data dataCount updatedEntry =>
    h.Calls C ∧ C (update h index data dataCount updatedEntry)
  | delete h index => h.Calls C ∧ C (delete h index)
  | append h src => h.Calls C ∧ src.Calls C ∧ C (append h src)
  | sort h qsort => h.Calls C ∧ C (sort h qsort)
  | copy dst src => src.Calls C ∧ C (copy dst src)
  | clone addr garbage src => src.Calls C ∧ C (clone addr garbage src)

/-- The value array of the call holds the bytes that are read from it. -/
def ValuesGiven : History → Prop
  | add _ ops tag data dataCount => ∀ type : ℕ, getCameraMetadataTagType ops tag.toNat = type →
    ∀ d ∈ data, payloadSize type dataCount.toNat ≤ d.length
  | update h index data dataCount _ => ∀ b ∈ h.result, ∀ e,
    (packet b).entries[index.toNat]? = some e → payloadSize e.type dataCount.toNat ≤ data.length
  | _ => True

/-- The sizes that the call adds up do not wrap: those of the parts of a new packet, and those of
old and new data. -/
def NoWrap : History → Prop
  | place _ entryCapacity dataCapacity =>
    dataStartFor entryCapacity.toNat + dataCapacity.toNat < 2 ^ 32
  | allocate _ _ entryCapacity dataCapacity =>
    dataStartFor entryCapacity.toNat + dataCapacity.toNat < 2 ^ 32
  | add h ops tag _ dataCount => ∀ b ∈ h.result, ∀ type : ℕ,
    getCameraMetadataTagType ops tag.toNat = type →
    hdr b .dataCount + roundedSize type dataCount.toNat < 2 ^ 32
  | update h index _ dataCount _ => ∀ b ∈ h.result, ∀ e,
    (packet b).entries[index.toNat]? = some e →
    hdr b .dataCount + roundedSize e.type dataCount.toNat < 2 ^ 32
  | append h src => ∀ b ∈ h.result, ∀ s ∈ src.result,
    hdr b .dataCount + hdr s .dataCount < 2 ^ 32
  | _ => True

/-- The call is not one of `copy_camera_metadata`. -/
def NoCopy : History → Prop
  | copy _ _ => False
  | _ => True

/-- The packet that the call changes. -/
def receiver : History → Option History
  | add h _ _ _ _ => some h
  | update h _ _ _ _ => some h
  | delete h _ => some h
  | append h _ => some h
  | sort h _ => some h
  | _ => none

theorem Calls.receiver {C : History → Prop} {h h' : History} (hc : h'.Calls C)
    (hr : h'.receiver = some h) : h.Calls C := by
  cases h' <;> cases hr <;> exact hc.1

theorem result_of_call {h : History} {res : Status} {r : Option Buffer}
    (hc : h.call = .ok (res, r)) : h.result = r := by
  rw [result, hc]

end History

open History in
/-- What the calls of a history did to packets: the packet in the buffer `b` is the result of the
history `h`. -/
inductive Reaches : History → Buffer → Prop
  | place {d b entryCapacity dataCapacity} (sound : Sound b) (new : packet b = ⟨0, [], []⟩)
      (addr : b.addr = d.addr) (len : b.len = d.len) :
      Reaches (place (some d) entryCapacity dataCapacity) b
  | allocate {addr garbage b entryCapacity dataCapacity} (sound : Sound b)
      (new : packet b = ⟨0, [], []⟩) (addr' : b.addr = addr)
      (len : b.len = dataStartFor entryCapacity.toNat + dataCapacity.toNat) :
      Reaches (allocate addr garbage entryCapacity dataCapacity) b
  | refused {h h' b} (old : Reaches h b) (receiver : h'.receiver = some h)
      (call : h'.call = .ok (.error, some b)) : Reaches h' b
  | add {h b b' ops tag data dataCount type} (pad : List UInt8) (old : Reaches h b)
      (result : h.result = some b)
      (call : (add h ops tag (some data) dataCount).call = .ok (.ok, some b'))
      (known : getCameraMetadataTagType ops tag.toNat = (type : ℕ))
      (given : payloadSize type dataCount.toNat ≤ data.length) (sound : Sound b')
      (shape : SameShape b b')
      (new : packet b' = (packet b).add tag.toNat type dataCount.toNat
        (data.take (payloadSize type dataCount.toNat)) pad)
      (contents : (packet b').contents = (packet b).contents ++
        [⟨tag.toNat, type, dataCount.toNat, data.take (payloadSize type dataCount.toNat)⟩]) :
      Reaches (add h ops tag (some data) dataCount) b'
  | update {h b b' index data dataCount updatedEntry e} (pad : List UInt8) (old : Reaches h b)
      (result : h.result = some b)
      (call : (update h index data dataCount updatedEntry).call = .ok (.ok, some b'))
      (entry : (packet b).entries[index.toNat]? = some e)
      (given : payloadSize e.type dataCount.toNat ≤ data.length) (sound : Sound b')
      (shape : SameShape b b')
      (new : packet b' = (packet b).update index.toNat dataCount.toNat
        (data.take (payloadSize e.type dataCount.toNat)) pad)
      (contents : (packet b').contents = (packet b).contents.set index.toNat
        ⟨e.tag, e.type, dataCount.toNat, data.take (payloadSize e.type dataCount.toNat)⟩) :
      Reaches (update h index data dataCount updatedEntry) b'
  | delete {h b b' index e} (old : Reaches h b) (result : h.result = some b)
      (call : (delete h index).call = .ok (.ok, some b'))
      (entry : (packet b).entries[index.toNat]? = some e) (sound : Sound b')
      (shape : SameShape b b') (new : packet b' = (packet b).delete index.toNat)
      (contents : (packet b').contents = (packet b).contents.eraseIdx index.toNat) :
      Reaches (delete h index) b'
  | append {h src b s b'} (old : Reaches h b) (source : Reaches src s)
      (result : h.result = some b) (result' : src.result = some s)
      (call : (append h src).call = .ok (.ok, some b')) (sound : Sound b') (shape : SameShape b b')
      (new : packet b' = (packet b).append (packet s))
      (contents : (packet b').contents = (packet b).contents ++ (packet s).contents) :
      Reaches (append h src) b'
  | sorted {h b qsort} (old : Reaches h b) (result : h.result = some b)
      (call : (sort h qsort).call = .ok (.ok, some b)) (flag : isSorted (packet b).flags = true) :
      Reaches (sort h qsort) b
  | sort {h b b' qsort} (old : Reaches h b) (result : h.result = some b)
      (call : (sort h qsort).call = .ok (.ok, some b')) (sound : Sound b') (shape : SameShape b b')
      (perm : (packet b').entries.Perm (packet b).entries) (ordered : (packet b').Ordered)
      (contents : (packet b').contents.Perm (packet b).contents) :
      Reaches (sort h qsort) b'
  | copy {src s d b} (source : Reaches src s) (sound : Sound b) (new : packet b = packet s)
      (addr : b.addr = d.addr) : Reaches (copy (some d) src) b
  | clone {src s addr garbage b} (source : Reaches src s) (sound : Sound b)
      (new : packet b = (⟨0, [], []⟩ : Packet).append (packet s))
      (contents : (packet b).contents = (packet s).contents) (addr' : b.addr = addr) :
      Reaches (clone addr garbage src) b

theorem Reaches.sound {h : History} (hr : Reaches h b) : Sound b := by
  induction hr with
  | refused _ _ _ ih => exact ih
  | sorted _ _ _ _ ih => exact ih
  | place h | allocate h | add _ _ _ _ _ _ h | update _ _ _ _ _ _ h | delete _ _ _ _ h
  | append _ _ _ _ _ h | sort _ _ _ h | copy _ h | clone _ h => exact h

namespace History

/-- What a history can lead to: a packet or `NULL`, or the use of a `NULL` packet by
`copy_camera_metadata`. -/
def Leads (h : History) : Prop :=
  (∃ res r, h.call = .ok (res, r) ∧ ∀ b ∈ r, Reaches h b) ∨
    h.call = .error .nullDeref ∧ ¬ h.Calls NoCopy

variable {h h' src : History} {res : Status} {r : Option Buffer}

theorem Leads.there (hc : h.call = .ok (res, some b))
    (hb : h.call = .ok (res, some b) → Reaches h b) : h.Leads := by
  refine Or.inl ⟨res, some b, hc, fun b' hb' => ?_⟩
  cases hb'
  exact hb hc

theorem Leads.refused (hb : Reaches h b) (hr : h'.receiver = some h)
    (hc : h'.call = .ok (.error, some b)) : h'.Leads := .there hc (.refused hb hr)

theorem Leads.null (hc : h.call = .ok (res, none)) : h.Leads :=
  Or.inl ⟨res, none, hc, fun _ hb => by cases hb⟩

theorem Leads.fault (hf : h.call = .error .nullDeref) (hn : ¬ h.Calls NoCopy) : h.Leads :=
  Or.inr ⟨hf, hn⟩

/-- The cases of a call on a packet: the packet is `NULL`, or was not reached, or is there. -/
theorem Leads.split (hl : h.Leads)
    (hnull : ∀ res, h.call = .ok (res, none) → h'.Leads)
    (hfault : h.call = .error .nullDeref → ¬ h.Calls NoCopy → h'.Leads)
    (hsome : ∀ res b, h.call = .ok (res, some b) → Reaches h b → h'.Leads) : h'.Leads := by
  obtain ⟨res, r, hc, hr⟩ | ⟨hf, hn⟩ := hl
  · cases r with
    | none => exact hnull res hc
    | some b => exact hsome res b hc (hr b rfl)
  · exact hfault hf hn

/-- A call on the packet of a history, which does nothing if there is none. -/
theorem Leads.on {f : Status × Option Buffer → Except Fault (Status × Option Buffer)}
    (hl : h.Leads) (hcall : h'.call = h.call >>= f) (hnull : ∀ res, ∃ res', f (res, none) =
      .ok (res', none)) (hcalls : h'.Calls NoCopy → h.Calls NoCopy)
    (hsome : ∀ res b, h.call = .ok (res, some b) → Reaches h b → h'.Leads) : h'.Leads := by
  refine hl.split (fun res hc => ?_) (fun hf hn => ?_) hsome
  · obtain ⟨res', hres'⟩ := hnull res
    exact .null (by rw [hcall, hc, ok_bind, hres'])
  · exact .fault (by rw [hcall, hf]; rfl) fun hn' => hn (hcalls hn')

/-- **What histories lead to**, if the value arrays are as large as they are said to be and no size
wraps. -/
theorem leads (h : History) (hv : h.Calls ValuesGiven) (hw : h.Calls NoWrap) : h.Leads := by
  induction h with
  | place dst entryCapacity dataCapacity =>
    rcases place_cases dst hw with hrun | ⟨d, b', rfl, hrun, hb', hp, haddr, hlen⟩
    · exact .null (by simp only [call, hrun, ok_bind]; rfl)
    · exact .there (by simp only [call, hrun, ok_bind]; rfl) fun _ => .place hb' hp haddr hlen
  | allocate addr garbage entryCapacity dataCapacity =>
    rcases allocate_cases addr garbage hw with hrun | ⟨b', hrun, hb', hp, haddr, hlen⟩
    · exact .null (by simp only [call, hrun, ok_bind]; rfl)
    · exact .there (by simp only [call, hrun, ok_bind]; rfl)
        fun _ => .allocate hb' hp haddr hlen
  | add h ops tag data dataCount ih =>
    refine (ih hv.1 hw.1).on rfl (fun _ => ⟨_, rfl⟩) And.left fun res b hc hb => ?_
    have hres := result_of_call hc
    rcases add_cases data hb.sound tag.toNat_lt dataCount.toNat_lt hv.2 (hw.2 b hres)
      with hrun | ⟨type, payload, pad, b', hrun, htype, -, hpay, hsh, hb', hp, hcont⟩
    · exact .refused hb rfl (by simp only [call, hc, ok_bind, hrun]; rfl)
    · obtain ⟨d, rfl, rfl⟩ := Option.map_eq_some_iff.mp hpay
      exact .there (by simp only [call, hc, ok_bind, hrun]; rfl) fun hcall =>
        .add pad hb hres hcall htype (hv.2 type htype d rfl) hb' hsh hp hcont
  | update h index data dataCount updatedEntry ih =>
    refine (ih hv.1 hw.1).on rfl (fun _ => ⟨_, rfl⟩) And.left fun res b hc hb => ?_
    have hres := result_of_call hc
    rcases update_cases updatedEntry dataCount.toNat_lt (hv.2 b hres) (hw.2 b hres) hb.sound with
      hrun | ⟨e, pad, b', r, he, hrun, hsh, hb', hp, hcont⟩
    · exact .refused hb rfl (by simp only [call, hc, ok_bind, hrun]; rfl)
    · exact .there (by simp only [call, hc, ok_bind, hrun]; rfl) fun hcall =>
        .update pad hb hres hcall he (hv.2 b hres e he) hb' hsh hp hcont
  | delete h index ih =>
    refine (ih hv.1 hw.1).on rfl (fun _ => ⟨_, rfl⟩) And.left fun res b hc hb => ?_
    rcases delete_cases hb.sound index.toNat with
      hrun | ⟨e, b', he, hrun, hsh, hb', hp, hcont⟩
    · exact .refused hb rfl (by simp only [call, hc, ok_bind, hrun]; rfl)
    · exact .there (by simp only [call, hc, ok_bind, hrun]; rfl) fun hcall =>
        .delete hb (result_of_call hc) hcall he hb' hsh hp hcont
  | append h src ih ihs =>
    refine (ih hv.1 hw.1).on rfl (fun _ => ⟨_, rfl⟩) And.left fun res b hc hb => ?_
    refine Leads.split (ihs hv.2.1 hw.2.1) (fun res' hs => ?_) (fun hf hn => ?_)
      fun res' s hs hsrc => ?_
    · exact .refused hb rfl (by simp only [call, hc, hs, ok_bind]; rfl)
    · exact .fault (by simp only [call, hc, ok_bind, hf]; rfl) fun hn' => hn hn'.2.1
    · have hres := result_of_call hc
      have hres' := result_of_call hs
      rcases append_cases hb.sound hsrc.sound (hw.2.2 b hres s hres') with
        hrun | ⟨b', hrun, hsh, hb', hp, hcont⟩
      · exact .refused hb rfl (by simp only [call, hc, hs, ok_bind, hrun]; rfl)
      · exact .there (by simp only [call, hc, hs, ok_bind, hrun]; rfl) fun hcall =>
          .append hb hsrc hres hres' hcall hb' hsh hp hcont
  | sort h qsort ih =>
    refine (ih hv.1 hw.1).on rfl (fun _ => ⟨_, rfl⟩) And.left fun res b hc hb => ?_
    rcases sort_cases hb.sound qsort with
      ⟨hflag, hrun⟩ | ⟨b', hrun, hsh, hb', hperm, hord, hcont⟩
    · exact .there (by simp only [call, hc, ok_bind, hrun]; rfl) fun hcall =>
        .sorted hb (result_of_call hc) hcall hflag
    · exact .there (by simp only [call, hc, ok_bind, hrun]; rfl) fun hcall =>
        .sort hb (result_of_call hc) hcall hb' hsh hperm hord hcont
  | copy dst src ih =>
    refine Leads.split (ih hv.1 hw.1) (fun res hc => ?_) (fun hf hn => ?_) fun res b hc hb => ?_
    · by_cases hd : dst.all (·.len < 1) = true
      · exact .null (by simp only [call, hc, ok_bind, if_pos hd]; rfl)
      · exact .fault (by simp only [call, hc, ok_bind, if_neg hd]) fun hn' => hn'.2
    · exact .fault (by simp only [call, hf]; rfl) fun hn' => hn hn'.1
    · rcases copy_cases dst hb.sound with hrun | ⟨-, hrun⟩ | ⟨d, b', rfl, hrun, hb', hp, haddr⟩
      · exact .null (by simp only [call, hc, ok_bind, hrun]; rfl)
      · exact .fault (by simp only [call, hc, ok_bind, hrun]; rfl) fun hn' => hn'.2
      · exact .there (by simp only [call, hc, ok_bind, hrun]; rfl)
          fun _ => .copy hb hb' hp haddr
  | clone addr garbage src ih =>
    refine (ih hv.1 hw.1).on rfl (fun _ => ⟨_, rfl⟩) And.left fun res b hc hb => ?_
    rcases clone_cases addr garbage hb.sound with hrun | ⟨b', hrun, hb', hp, hcont, haddr⟩
    · exact .null (by simp only [call, hc, ok_bind, hrun]; rfl)
    · exact .there (by simp only [call, hc, ok_bind, hrun]; rfl)
        fun _ => .clone hb hb' hp hcont haddr

theorem call_ok (hv : h.Calls ValuesGiven) (hw : h.Calls NoWrap) (hn : h.Calls NoCopy) :
    ∃ r, h.call = .ok r := by
  obtain ⟨res, r, hc, -⟩ | ⟨-, hn'⟩ := h.leads hv hw
  · exact ⟨_, hc⟩
  · exact absurd hn hn'

theorem reaches (hv : h.Calls ValuesGiven) (hw : h.Calls NoWrap) (hb : h.result = some b) :
    Reaches h b := by
  obtain ⟨res, r, hc, hr⟩ | ⟨hf, -⟩ := h.leads hv hw
  · rw [result_of_call hc] at hb
    exact hr b hb
  · rw [result, hf] at hb
    cases hb

end History

end Camera
