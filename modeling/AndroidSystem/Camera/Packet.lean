/-
What the packet functions do to the packet.

`packet b` is what the bytes of `b` say: the flags, the list of entry records and
the data area in use.  On a buffer whose parts do not overlap (`Layout`) every
function of `camera_metadata.c` runs without a fault, and what it does to the
bytes is a function on `Packet`.  Here this is shown of deletion:

* `shiftOffsets_eq` — the loop that lowers the offsets behind a gap;
* `deleteCameraMetadataEntry_eq` — deleting is `Packet.delete`.

In the lemmas `headerSize` and `recordSize` are written out as 40 and 16, for the
arithmetic.
-/
import AndroidSystem.Camera.Metadata

open CInt Mem List

namespace Camera

/-! ### Words of the header -/

/-- A word of the header. -/
def hdr (b : Buffer) (f : Field) : ℕ := b.mem.word f.offset

/-- The buffer with a new word in its header. -/
def setHdr (b : Buffer) (f : Field) (v : ℕ) : Buffer := b.put f.offset (leBytes 4 v)

variable {b b' : Buffer} {f g : Field} {v o n lo hi : ℕ}

theorem Field.offset_le (f : Field) : f.offset + 4 ≤ 40 := by
  cases f <;> decide

theorem Field.offset_disjoint (h : f ≠ g) : f.offset + 4 ≤ g.offset ∨ g.offset + 4 ≤ f.offset := by
  revert h
  cases f <;> cases g <;> decide

theorem hdr_lt (b : Buffer) (f : Field) : hdr b f < 2 ^ 32 := word_lt _ _

theorem get_eq (h : 40 ≤ b.len) (f : Field) : get b f = .ok (hdr b f) := by
  have hf := f.offset_le
  exact Buffer.load32_of_le (by omega)

theorem set_eq (h : 40 ≤ b.len) (f : Field) (v : ℕ) : set b f v = .ok (setHdr b f v) := by
  have hf := f.offset_le
  exact Buffer.store32_of_le (by omega) v

@[simp] theorem setHdr_len (b : Buffer) (f : Field) (v : ℕ) : (setHdr b f v).len = b.len := (rfl)

@[simp] theorem setHdr_addr (b : Buffer) (f : Field) (v : ℕ) : (setHdr b f v).addr = b.addr := rfl

theorem frame_setHdr (b : Buffer) (f : Field) (v : ℕ) :
    Buffer.Frame 0 40 b (setHdr b f v) := by
  have hf := f.offset_le
  exact .put (Nat.zero_le _) (by rw [length_leBytes]; omega)

@[simp] theorem hdr_setHdr_self (b : Buffer) (f : Field) (v : ℕ) :
    hdr (setHdr b f v) f = u32 v := Mem.word_blit_self _ _ _

theorem hdr_setHdr_of_ne (b : Buffer) (h : f ≠ g) (v : ℕ) : hdr (setHdr b f v) g = hdr b g := by
  apply word_blit_of_disjoint
  rw [length_leBytes]
  exact (Field.offset_disjoint h).symm

theorem hdr_frame (h : Buffer.Frame lo hi b b') (hlo : 40 ≤ lo) (f : Field) :
    hdr b' f = hdr b f := by
  have hf := f.offset_le
  exact h.word (Or.inl (by omega))

/-! ### Records -/

variable {ec : ℕ} {m : Mem} {i es : ℕ}

theorem entryAt_congr {m' : Mem} {o' : ℕ} (h : m'.slice o' 16 = m.slice o 16) :
    entryAt m' o' = entryAt m o := by
  have hbyte : ∀ k, k < 16 → m' (o' + k) = m (o + k) := fun k hk => eq_of_slice_eq h hk
  have hslice : ∀ k, k ≤ 12 → m'.slice (o' + k) 4 = m.slice (o + k) 4 := fun k hk =>
    slice_congr fun i hi => by
      rw [Nat.add_assoc, Nat.add_assoc, hbyte (k + i) (by omega)]
  have h0 := hslice 0 (by omega)
  rw [Nat.add_zero, Nat.add_zero] at h0
  rw [entryAt, entryAt, word, word, word, word, h0, hslice 4 (by omega),
    hslice 8 (by omega), hbyte 12 (by omega)]

theorem entryAt_frame (h : Buffer.Frame lo hi b b') (hd : o + 16 ≤ lo ∨ hi ≤ o) :
    entryAt b'.mem o = entryAt b.mem o :=
  entryAt_congr (h.slice hd)

/-- Writing into the four data bytes of a record changes nothing else of it. -/
theorem entryAt_blit_data {bs : List UInt8} (h : bs.length ≤ 4) :
    entryAt (m.blit (o + 8) bs) o =
      { entryAt m o with data := bs ++ (entryAt m o).data.drop bs.length } := by
  have hdata : (m.blit (o + 8) bs).slice (o + 8) 4 = bs ++ (m.slice (o + 8) 4).drop bs.length := by
    have hsplit := slice_add (m.blit (o + 8) bs) (o + 8) bs.length (4 - bs.length)
    rw [Nat.add_sub_cancel' h] at hsplit
    rw [hsplit, slice_blit_self, slice_blit_of_disjoint (Or.inr (le_refl _)),
      drop_slice]
  rw [entryAt, hdata, word_blit_of_disjoint (by omega), word_blit_of_disjoint (by omega),
    blit_of_ge (by omega)]
  rfl

theorem entryAt_blit_offset (v : ℕ) :
    entryAt (m.blit (o + 8) (leBytes 4 v)) o = { entryAt m o with data := leBytes 4 v } := by
  rw [entryAt_blit_data (by rw [length_leBytes]), length_leBytes]
  simp [entryAt]

theorem entryAt_blit_count (v : ℕ) :
    entryAt (m.blit (o + 4) (leBytes 4 v)) o = { entryAt m o with count := u32 v } := by
  have hlen : (leBytes 4 v).length = 4 := length_leBytes 4 v
  rw [entryAt, word_blit_self, word_blit_of_disjoint (by omega),
    slice_blit_of_disjoint (by omega), blit_of_ge (by omega)]
  rfl

theorem loadEntry_eq (h : o + 16 ≤ b.len) : loadEntry b o = .ok (entryAt b.mem o) :=
  if_pos (Or.inr h)

theorem entryPtr_eq (h : 40 ≤ b.len) (i : ℕ) :
    entryPtr b i = .ok (hdr b .entriesStart + 16 * i) := by
  simp only [entryPtr, get_eq h, ok_bind]
  rfl

theorem entryPtr_zero (h : 40 ≤ b.len) : entryPtr b 0 = .ok (hdr b .entriesStart) :=
  entryPtr_eq h 0

@[simp] theorem length_entriesAt (m : Mem) (o n : ℕ) : (entriesAt m o n).length = n := by
  rw [entriesAt, List.length_map, List.length_range]

theorem getElem_entriesAt (h : i < (entriesAt m o n).length) :
    (entriesAt m o n)[i] = entryAt m (o + 16 * i) := by
  simp only [entriesAt, getElem_map, getElem_range, recordSize]

theorem entriesAt_congr {m' : Mem}
    (h : ∀ i, i < n → entryAt m' (o + 16 * i) = entryAt m (o + 16 * i)) :
    entriesAt m' o n = entriesAt m o n :=
  map_congr_left fun i hi => h i (mem_range.mp hi)

theorem entriesAt_frame (h : Buffer.Frame lo hi b b')
    (hd : o + 16 * n ≤ lo ∨ hi ≤ o) : entriesAt b'.mem o n = entriesAt b.mem o n := by
  apply entriesAt_congr
  intro i hi'
  exact entryAt_frame h (by omega)

/-- The part of the data area an entry takes. -/
def Entry.dataSize (e : Entry) : ℕ := calculateCameraMetadataEntryDataSize e.type e.count

/-- The entry after `n` bytes of the data area were taken out at `o`. -/
def Entry.lower (o n : ℕ) (e : Entry) : Entry :=
  if 0 < e.dataSize ∧ o < e.offset then { e with data := leBytes 4 (usub e.offset n) } else e

/-- **The offset loop** lowers every offset behind the entry at `index`. -/
theorem shiftOffsets_eq {index size fuel : ℕ} {l : ℕ → Entry} (hes : 40 ≤ es) (hidx : index < ec)
    (hlen : es + 16 * ec ≤ b.len) (hstart : hdr b .entriesStart = es)
    (hcount : hdr b .entryCount = ec) (hfuel : ec ≤ i + fuel)
    (hl : ∀ j, j < ec → entryAt b.mem (es + 16 * j) =
      if j < i then (l j).lower (l index).offset size else l j) :
    ∃ b', shiftOffsets (es + 16 * index) size fuel i b = .ok b' ∧
      Buffer.Frame es (es + 16 * ec) b b' ∧
      ∀ j, j < ec → entryAt b'.mem (es + 16 * j) = (l j).lower (l index).offset size := by
  induction fuel generalizing b i with
  | zero =>
    refine ⟨b, rfl, .refl _ _ _, fun j hj => ?_⟩
    rw [hl j hj, if_pos (by omega)]
  | succ fuel ih =>
    have hhdr : 40 ≤ b.len := by omega
    by_cases hi : ec ≤ i
    · refine ⟨b, ?_, .refl _ _ _, fun j hj => ?_⟩
      · simp only [shiftOffsets, get_eq hhdr, ok_bind, hcount, if_pos hi]
        rfl
      · rw [hl j hj, if_pos (by omega)]
    · have hrec : es + 16 * i + 16 ≤ es + 16 * ec := by omega
      have hrec' : es + 16 * index + 16 ≤ es + 16 * ec := by omega
      have hload : loadEntry b (es + 16 * i) = .ok (l i) := by
        rw [loadEntry_eq (by omega), hl i (by omega), if_neg (by omega)]
      -- the entry whose data went keeps its own offset, so the comparison never changes
      have hown : (entryAt b.mem (es + 16 * index)).offset = (l index).offset := by
        rw [hl index hidx]
        split
        · rw [Entry.lower, if_neg (by omega)]
        · rfl
      have hoff : b.load32 (es + 16 * index + 8) = .ok (l index).offset := by
        rw [Buffer.load32_of_le (by omega), ← hown]
        rfl
      have hrun : shiftOffsets (es + 16 * index) size (fuel + 1) i b =
          shiftOffsets (es + 16 * index) size fuel (i + 1)
            (if 0 < (l i).dataSize ∧ (l index).offset < (l i).offset then
              b.put (es + 16 * i + 8) (leBytes 4 (usub (l i).offset size)) else b) := by
        simp only [shiftOffsets, get_eq hhdr, entryPtr_eq hhdr, ok_bind, hcount, hstart,
          if_neg hi, hload, hoff, Buffer.store32_of_le (b := b) (o := es + 16 * i + 8) (by omega),
          ← Entry.dataSize.eq_1]
        split_ifs <;> rfl
      rw [hrun]
      split_ifs with hc
      · have hfr : Buffer.Frame es (es + 16 * ec) b
            (b.put (es + 16 * i + 8) (leBytes 4 (usub (l i).offset size))) :=
          .put (by omega) (by rw [length_leBytes]; omega)
        have hother : ∀ j, j ≠ i → entryAt (b.put (es + 16 * i + 8)
            (leBytes 4 (usub (l i).offset size))).mem (es + 16 * j) =
              entryAt b.mem (es + 16 * j) := fun j hji =>
          entryAt_frame (.put (Nat.le_refl _) (Nat.le_refl _)) (by rw [length_leBytes]; omega)
        obtain ⟨b', hrun', hfr', hall⟩ := ih (i := i + 1) (hfr.len.symm ▸ hlen)
          ((hdr_frame hfr hes _).trans hstart) ((hdr_frame hfr hes _).trans hcount) (by omega) (by
            intro j hj
            rcases Nat.lt_trichotomy j i with hji | rfl | hji
            · rw [hother j hji.ne, hl j hj, if_pos hji, if_pos (by omega)]
            · rw [Buffer.put_mem, entryAt_blit_offset, hl j hj, if_neg (by omega),
                if_pos (by omega), Entry.lower, if_pos hc]
            · rw [hother j hji.ne', hl j hj, if_neg (by omega), if_neg (by omega)])
        exact ⟨b', hrun', hfr.trans hfr', hall⟩
      · apply ih hlen hstart hcount (by omega)
        intro j hj
        rw [hl j hj]
        rcases Nat.lt_trichotomy j i with hji | rfl | hji
        · rw [if_pos hji, if_pos (by omega)]
        · rw [if_neg (by omega), if_pos (by omega), Entry.lower, if_neg hc]
        · rw [if_neg (by omega), if_neg (by omega)]

/-! ### Packets -/

/-- What the bytes of a packet say. -/
structure Packet where
  flags : ℕ
  entries : List Entry
  data : List UInt8

/-- The packet in a buffer. -/
def packet (b : Buffer) : Packet where
  flags := hdr b .flags
  entries := entriesAt b.mem (hdr b .entriesStart) (hdr b .entryCount)
  data := b.mem.slice (hdr b .dataStart) (hdr b .dataCount)

/-- Header, entries and data follow each other in the buffer. -/
structure Layout (b : Buffer) : Prop where
  header : 40 ≤ hdr b .entriesStart
  entries : hdr b .entriesStart + 16 * hdr b .entryCount ≤ hdr b .dataStart
  count : hdr b .dataCount ≤ hdr b .dataCapacity
  data : hdr b .dataStart + hdr b .dataCapacity ≤ b.len

theorem Layout.len_le (h : Layout b) : 40 ≤ b.len := by
  have h₁ := h.header
  have h₂ := h.entries
  have h₃ := h.data
  omega

theorem Layout.records_le (h : Layout b) :
    hdr b .entriesStart + 16 * hdr b .entryCount ≤ b.len := by
  have h₂ := h.entries
  have h₃ := h.data
  omega

/-- Two buffers at the same place, with the same division into parts. -/
structure SameShape (b b' : Buffer) : Prop where
  addr : b'.addr = b.addr
  len : b'.len = b.len
  hdr : ∀ f, f ≠ .flags → f ≠ .entryCount → f ≠ .dataCount → hdr b' f = hdr b f

theorem SameShape.hdr_eq (h : SameShape b b') (f : Field)
    (hf : f ≠ .flags ∧ f ≠ .entryCount ∧ f ≠ .dataCount := by decide) :
    Camera.hdr b' f = Camera.hdr b f :=
  h.hdr f hf.1 hf.2.1 hf.2.2

theorem SameShape.refl (b : Buffer) : SameShape b b := ⟨rfl, rfl, fun _ _ _ _ => rfl⟩

theorem SameShape.trans {b'' : Buffer} (h : SameShape b b') (h' : SameShape b' b'') :
    SameShape b b'' :=
  ⟨h'.addr.trans h.addr, h'.len.trans h.len,
    fun f h₁ h₂ h₃ => (h'.hdr f h₁ h₂ h₃).trans (h.hdr f h₁ h₂ h₃)⟩

theorem SameShape.of_frame (h : Buffer.Frame lo hi b b') (hlo : 40 ≤ lo) : SameShape b b' :=
  ⟨h.addr, h.len, fun f _ _ _ => hdr_frame h hlo f⟩

theorem SameShape.setHdr (b : Buffer) {f : Field} (v : ℕ)
    (hf : f = .flags ∨ f = .entryCount ∨ f = .dataCount) : SameShape b (setHdr b f v) := by
  refine ⟨rfl, rfl, fun g h₁ h₂ h₃ => hdr_setHdr_of_ne b ?_ v⟩
  rcases hf with rfl | rfl | rfl
  · exact h₁.symm
  · exact h₂.symm
  · exact h₃.symm

/-- `n` bytes of the data area taken out at `o`. -/
def Packet.cut (p : Packet) (o n : ℕ) : Packet :=
  { p with
    entries := p.entries.map (Entry.lower o n)
    data := p.data.take o ++ p.data.drop (o + n) }

/-- The packet without entry `i`. -/
def Packet.delete (p : Packet) (i : ℕ) : Packet :=
  match p.entries[i]? with
  | none => p
  | some e =>
    let q := if 0 < e.dataSize then p.cut e.offset e.dataSize else p
    { q with entries := q.entries.eraseIdx i }

/-! ### Deleting an entry -/

theorem memmove_eq {d s : ℕ} (hs : s + n ≤ b.len) (hd : d + n ≤ b.len) :
    memmove b d s n = .ok (b.put d (b.mem.slice s n)) := by
  simp only [memmove, Buffer.load_of_inside (b := b) (Or.inr hs), ok_bind]
  exact Buffer.store_of_inside (Or.inr (by rw [length_slice]; exact hd))

/-- The offset loop on a whole packet. -/
theorem shiftOffsets_packet (size : ℕ) (hes : 40 ≤ es) (hi : i < ec)
    (hlen : es + 16 * ec ≤ b.len) (hstart : hdr b .entriesStart = es)
    (hcount : hdr b .entryCount = ec) :
    ∃ b', shiftOffsets (es + 16 * i) size (2 ^ 32) 0 b = .ok b' ∧
      Buffer.Frame es (es + 16 * ec) b b' ∧
      entriesAt b'.mem es ec =
        (entriesAt b.mem es ec).map (Entry.lower (entryAt b.mem (es + 16 * i)).offset size) := by
  have hec : ec ≤ 0 + 2 ^ 32 := by
    have := hdr_lt b .entryCount
    omega
  have hnone : ∀ j, j < ec → entryAt b.mem (es + 16 * j) =
      if j < 0 then (entryAt b.mem (es + 16 * j)).lower (entryAt b.mem (es + 16 * i)).offset size
      else entryAt b.mem (es + 16 * j) := fun j _ => by rw [if_neg (Nat.not_lt_zero j)]
  obtain ⟨b', hrun, hfr, hall⟩ := shiftOffsets_eq (l := fun j => entryAt b.mem (es + 16 * j))
    hes hi hlen hstart hcount hec hnone
  refine ⟨b', hrun, hfr, ?_⟩
  rw [entriesAt, entriesAt, map_map]
  exact map_congr_left fun j hj => hall j (mem_range.mp hj)

/-- Moving the records behind record `i` down over it. -/
theorem entriesAt_blit_close (hi : i < ec) :
    entriesAt (m.blit (es + 16 * i) (m.slice (es + 16 * i + 16) (16 * (ec - i - 1)))) es (ec - 1) =
      (entriesAt m es ec).eraseIdx i := by
  apply ext_getElem
  · rw [length_eraseIdx, length_entriesAt, length_entriesAt, if_pos hi]
  · intro j h₁ h₂
    rw [length_entriesAt] at h₁
    rw [getElem_entriesAt, getElem_eraseIdx]
    split
    · rename_i hji
      rw [getElem_entriesAt]
      exact entryAt_congr (slice_blit_of_disjoint (by omega))
    · rename_i hji
      obtain ⟨k, rfl⟩ := Nat.exists_eq_add_of_le (Nat.le_of_not_lt hji)
      rw [getElem_entriesAt]
      have hmoved := @Mem.slice_blit_slice m m (es + 16 * i) (es + 16 * i + 16) 16 (16 * k)
        (16 * (ec - i - 1)) (by omega)
      apply entryAt_congr
      rw [show es + 16 * (i + k) = es + 16 * i + 16 * k by omega, hmoved]
      congr 1
      omega

/-- Closing the gap that the `n` bytes at `o` leave in the data area. -/
theorem closeGap_eq (hl : Layout b) (hr : o + n ≤ hdr b .dataCount) :
    ∃ b', memmove b (hdr b .dataStart + o) (hdr b .dataStart + o + n)
        (usub (usub (hdr b .dataCount) o) n) = .ok b' ∧
      Buffer.Frame (hdr b .dataStart) (hdr b .dataStart + hdr b .dataCapacity) b b' ∧
      b'.mem.slice (hdr b .dataStart) (hdr b .dataCount - n) =
        (packet b).data.take o ++ (packet b).data.drop (o + n) := by
  have hlt := hdr_lt b .dataCount
  have hcount := hl.count
  have hdata := hl.data
  have hlength : usub (usub (hdr b .dataCount) o) n = hdr b .dataCount - o - n := by
    rw [usub_of_le (a := hdr b .dataCount) (by omega) hlt, usub_of_le (by omega) (by omega)]
  rw [hlength]
  refine ⟨_, memmove_eq (by omega) (by omega), .put (by omega) ?_, slice_blit_close hr⟩
  rw [length_slice]
  omega

/-- The data of an entry leaves a packet. -/
theorem deleteData_eq (hl : Layout b) (hi : i < hdr b .entryCount) {e : Entry}
    (he : entryAt b.mem (hdr b .entriesStart + 16 * i) = e)
    (hr : e.offset + n ≤ hdr b .dataCount) :
    ∃ b', deleteData b (hdr b .entriesStart + 16 * i) e n = .ok b' ∧ SameShape b b' ∧
      hdr b' .entryCount = hdr b .entryCount ∧ packet b' = (packet b).cut e.offset n := by
  have h₁ := hl.header
  have h₂ := hl.entries
  have h₃ := hl.data
  have hlen := hl.len_le
  obtain ⟨b₁, hmove, hfr₁, hdata⟩ := closeGap_eq hl hr
  have hlen₁ : 40 ≤ b₁.len := hfr₁.len.symm ▸ hlen
  have hhdr₁ := hdr_frame hfr₁ (by omega)
  have hentries₁ : entriesAt b₁.mem (hdr b .entriesStart) (hdr b .entryCount) =
      (packet b).entries :=
    entriesAt_frame hfr₁ (by omega)
  have he₁ : entryAt b₁.mem (hdr b .entriesStart + 16 * i) = e :=
    (entryAt_frame hfr₁ (by omega)).trans he
  obtain ⟨b₂, hshift, hfr₂, hentries₂⟩ := shiftOffsets_packet (b := b₁) n h₁ hi
    (by rw [hfr₁.len]; omega) (hhdr₁ _) (hhdr₁ _)
  have hhdr₂ : ∀ f, hdr b₂ f = hdr b f := fun f => (hdr_frame hfr₂ h₁ f).trans (hhdr₁ f)
  have hlen₂ : 40 ≤ b₂.len := hfr₂.len.symm ▸ hlen₁
  have hcount : usub (hdr b .dataCount) n = hdr b .dataCount - n :=
    usub_of_le (by omega) (hdr_lt _ _)
  refine ⟨setHdr b₂ .dataCount (hdr b .dataCount - n), ?_, ?_, ?_, ?_⟩
  · simp only [deleteData, get_eq hlen, ok_bind, hmove, hshift, get_eq hlen₂,
      hhdr₂, hcount, set_eq hlen₂]
  · refine ((SameShape.of_frame hfr₁ (by omega)).trans (.of_frame hfr₂ h₁)).trans ?_
    exact .setHdr _ _ (Or.inr (Or.inr rfl))
  · rw [hdr_setHdr_of_ne _ (by decide), hhdr₂]
  · have hlt := hdr_lt b .dataCount
    have hfr₃ := frame_setHdr b₂ .dataCount (hdr b .dataCount - n)
    have hu : u32 (hdr b .dataCount - n) = hdr b .dataCount - n := u32_of_lt (by omega)
    rw [packet, hdr_setHdr_self, hu, hdr_setHdr_of_ne _ (by decide), hdr_setHdr_of_ne _ (by decide),
      hdr_setHdr_of_ne _ (by decide), hdr_setHdr_of_ne _ (by decide), hhdr₂, hhdr₂, hhdr₂, hhdr₂,
      entriesAt_frame hfr₃ (by omega), hfr₃.slice (by omega), hentries₂, hentries₁, he₁,
      hfr₂.slice (by omega), hdata]
    rfl

theorem hdr_entryCount (b : Buffer) : hdr b .entryCount = (packet b).entries.length :=
  (length_entriesAt _ _ _).symm

theorem hdr_dataCount (b : Buffer) : hdr b .dataCount = (packet b).data.length :=
  (length_slice _ _ _).symm

/-- A packet of the same shape, with no more entries and no more data than fit, is laid out. -/
theorem Layout.of_sameShape (hl : Layout b) (hs : SameShape b b')
    (he : hdr b .entriesStart + 16 * (packet b').entries.length ≤ hdr b .dataStart)
    (hd : (packet b').data.length ≤ hdr b .dataCapacity) : Layout b' := by
  have hstart := hs.hdr_eq .entriesStart
  have hdata := hs.hdr_eq .dataStart
  have hcap := hs.hdr_eq .dataCapacity
  rw [← hdr_entryCount] at he
  rw [← hdr_dataCount] at hd
  refine ⟨hstart ▸ hl.header, ?_, hcap ▸ hd, ?_⟩
  · rw [hstart, hdata]
    exact he
  · rw [hdata, hcap, hs.len]
    exact hl.data

/-- Closing the gap that record `i` leaves. -/
theorem closeRecords_eq (hl : Layout b) (hi : i < hdr b .entryCount) :
    ∃ b', memmove b (hdr b .entriesStart + 16 * i) (hdr b .entriesStart + 16 * i + 16)
        (u32 (16 * usub (usub (hdr b .entryCount) i) 1)) = .ok b' ∧
      Buffer.Frame (hdr b .entriesStart) (hdr b .dataStart) b b' ∧
      entriesAt b'.mem (hdr b .entriesStart) (hdr b .entryCount - 1) =
        (packet b).entries.eraseIdx i := by
  have h₂ := hl.entries
  have h₃ := hl.data
  have hlt := hdr_lt b .dataStart
  have hlength :
      u32 (16 * usub (usub (hdr b .entryCount) i) 1) = 16 * (hdr b .entryCount - i - 1) := by
    rw [usub_of_le (a := hdr b .entryCount) (by omega) (hdr_lt _ _),
      usub_of_le (by omega) (by omega), u32_of_lt (by omega)]
  rw [hlength]
  refine ⟨_, memmove_eq (by omega) (by omega), .put (by omega) ?_, entriesAt_blit_close hi⟩
  rw [length_slice]
  omega

/-- Record `i` leaves the array of records. -/
theorem eraseRecord_eq (hl : Layout b) (hi : i < hdr b .entryCount) :
    ∃ b', eraseRecord b (hdr b .entriesStart + 16 * i) i = .ok b' ∧ SameShape b b' ∧
      packet b' = { packet b with entries := (packet b).entries.eraseIdx i } := by
  have h₁ := hl.header
  have h₂ := hl.entries
  have hlen := hl.len_le
  have hlt := hdr_lt b .entryCount
  have hcount : usub (hdr b .entryCount) 1 = hdr b .entryCount - 1 := usub_of_le (by omega) hlt
  obtain ⟨b₁, hmove, hfr, hentries⟩ := closeRecords_eq hl hi
  have hlen₁ : 40 ≤ b₁.len := hfr.len.symm ▸ hlen
  have hhdr := hdr_frame hfr h₁
  refine ⟨setHdr b₁ .entryCount (hdr b .entryCount - 1), ?_, ?_, ?_⟩
  · simp only [eraseRecord, get_eq hlen, ok_bind, recordSize, hmove,
      get_eq hlen₁, hhdr, hcount, set_eq hlen₁]
  · exact (SameShape.of_frame hfr h₁).trans (.setHdr _ _ (Or.inr (Or.inl rfl)))
  · have hfr' := frame_setHdr b₁ .entryCount (hdr b .entryCount - 1)
    have hu : u32 (hdr b .entryCount - 1) = hdr b .entryCount - 1 := u32_of_lt (by omega)
    rw [packet, hdr_setHdr_self, hu, hdr_setHdr_of_ne _ (by decide), hdr_setHdr_of_ne _ (by decide),
      hdr_setHdr_of_ne _ (by decide), hdr_setHdr_of_ne _ (by decide), hhdr, hhdr, hhdr, hhdr,
      entriesAt_frame hfr' (by omega), hfr'.slice (by omega), hfr.slice (by omega), hentries]
    rfl

variable {e : Entry}

theorem entryAt_of_getElem? (he : (packet b).entries[i]? = some e) :
    i < hdr b .entryCount ∧ entryAt b.mem (hdr b .entriesStart + 16 * i) = e := by
  obtain ⟨hi, hei⟩ := List.getElem?_eq_some_iff.mp he
  rw [← hei]
  refine ⟨?_, (getElem_entriesAt _).symm⟩
  rwa [packet, length_entriesAt] at hi

theorem exists_entry (hi : ¬ hdr b .entryCount ≤ i) : ∃ e, (packet b).entries[i]? = some e := by
  have hi' : i < (packet b).entries.length := by
    rw [← hdr_entryCount]
    omega
  exact ⟨_, getElem?_eq_getElem hi'⟩

theorem loadEntry_of_getElem? (he : (packet b).entries[i]? = some e)
    (hin : hdr b .entriesStart + 16 * hdr b .entryCount ≤ b.len) :
    loadEntry b (hdr b .entriesStart + 16 * i) = .ok e := by
  obtain ⟨hi, hentry⟩ := entryAt_of_getElem? he
  rw [loadEntry_eq (by omega), hentry]

theorem deleteCameraMetadataEntry_eq (hl : Layout b) (he : (packet b).entries[i]? = some e)
    (hr : 0 < e.dataSize → e.offset + e.dataSize ≤ hdr b .dataCount) :
    ∃ b', deleteCameraMetadataEntry b i = .ok (.ok, b') ∧ SameShape b b' ∧
      packet b' = (packet b).delete i := by
  obtain ⟨hi', hentry⟩ := entryAt_of_getElem? he
  have hlen := hl.len_le
  have h₁ := hl.header
  have h₂ := hl.entries
  have h₃ := hl.data
  have hload := loadEntry_of_getElem? he (by omega)
  by_cases hpos : 0 < e.dataSize
  · obtain ⟨b₁, hdel, hsh₁, hcount₁, hp₁⟩ := deleteData_eq hl hi' hentry (hr hpos)
    have hl₁ : Layout b₁ := by
      refine hl.of_sameShape hsh₁ ?_ ?_
      · rw [← hdr_entryCount, hcount₁]
        exact h₂
      · have hd := hl.count
        rw [hdr_dataCount] at hd
        rw [hp₁, Packet.cut, length_append, length_take, length_drop]
        omega
    obtain ⟨b₂, hera, hsh₂, hp₂⟩ := eraseRecord_eq hl₁ (hcount₁.symm ▸ hi')
    rw [hsh₁.hdr_eq .entriesStart] at hera
    refine ⟨b₂, ?_, hsh₁.trans hsh₂, ?_⟩
    · rw [Entry.dataSize] at hpos hdel
      simp only [deleteCameraMetadataEntry, get_eq hlen, entryPtr_eq hlen, ok_bind,
        if_neg (Nat.not_le_of_lt hi'), hload, if_pos hpos, hdel, hera]
      rfl
    · simp only [hp₂, hp₁, Packet.delete, he, if_pos hpos]
  · obtain ⟨b', hera, hsh, hp⟩ := eraseRecord_eq hl hi'
    refine ⟨b', ?_, hsh, ?_⟩
    · rw [Entry.dataSize] at hpos
      simp only [deleteCameraMetadataEntry, get_eq hlen, entryPtr_eq hlen, ok_bind,
        if_neg (Nat.not_le_of_lt hi'), hload, if_neg hpos, pure, Except.pure, hera]
    · simp only [hp, Packet.delete, he, if_neg hpos]

end Camera
