/-
Whole packets: creating, appending, sorting, copying.

* `placeCameraMetadata_eq` — an empty packet (`Placed`), if the size of the memory it
  needs does not wrap;
* `appendCameraMetadata_eq` — appending is `Packet.append`;
* `sortCameraMetadata_eq` — sorting permutes the entries into tag order;
* `copyCameraMetadata_eq`, `cloneCameraMetadata_eq` — a packet with the same
  entries and no room left.
-/
import AndroidSystem.Camera.PacketValues

open CInt List Mem

namespace Camera

open Buffer

variable {b b' src : Buffer} {v n : ℕ}

/-! ### Creating a packet -/

variable {dataCapacity entryCapacity : ℕ}

/-- Where `place_camera_metadata` puts the data area, if nothing wraps. -/
def dataStartFor (entryCapacity : ℕ) : ℕ := (40 + 16 * entryCapacity + 7) / 8 * 8

/-- The division into parts that `place_camera_metadata` makes. -/
structure Placed (b : Buffer) : Prop where
  entriesStart : hdr b .entriesStart = 40
  dataStart : hdr b .dataStart = dataStartFor (hdr b .entryCapacity)
  size : hdr b .size = hdr b .dataStart + hdr b .dataCapacity
  len : hdr b .size ≤ b.len

theorem calculateCameraMetadataSize_eq (hw : dataStartFor entryCapacity + dataCapacity < 2 ^ 32) :
    calculateCameraMetadataSize entryCapacity dataCapacity =
      dataStartFor entryCapacity + dataCapacity := by
  rw [dataStartFor] at hw ⊢
  have h40 : alignTo headerSize entryAlignment = 40 := rfl
  simp only [calculateCameraMetadataSize, h40, recordSize]
  rw [u32_of_lt (n := 16 * entryCapacity) (by omega), u32_of_lt (n := 40 + 16 * entryCapacity)
    (by omega), alignTo_eight (by omega), u32_of_lt hw]

theorem hdr_setHdr (b : Buffer) (f g : Field) (v : ℕ) :
    hdr (setHdr b f v) g = if f = g then u32 v else hdr b g := by
  split
  · rename_i h
    rw [h, hdr_setHdr_self]
  · rename_i h
    exact hdr_setHdr_of_ne b h v

/-- The header that `place_camera_metadata` writes. -/
def placedHeader (b : Buffer) (entryCapacity dataCapacity memoryNeeded : ℕ) : Buffer :=
  setHdr (setHdr (setHdr (setHdr (setHdr (setHdr (setHdr (setHdr b .version 1) .flags 0)
    .entryCount 0) .entryCapacity entryCapacity) .entriesStart 40) .dataCount 0)
    .dataCapacity dataCapacity) .size memoryNeeded

/-- **An empty packet**, when the memory it needs is there and its size does not wrap. -/
theorem placeCameraMetadata_eq (hpos : 0 < entryCapacity)
    (hw : dataStartFor entryCapacity + dataCapacity < 2 ^ 32)
    (hlen : dataStartFor entryCapacity + dataCapacity ≤ b.len) :
    ∃ b', placeCameraMetadata (some b) entryCapacity dataCapacity = .ok (some b') ∧
      Placed b' ∧ b'.addr = b.addr ∧ b'.len = b.len ∧ hdr b' .entryCapacity = entryCapacity ∧
      hdr b' .dataCapacity = dataCapacity ∧ packet b' = ⟨0, [], []⟩ := by
  have hsize := calculateCameraMetadataSize_eq hw
  have hds : dataStartFor entryCapacity = (40 + 16 * entryCapacity + 7) / 8 * 8 := rfl
  have h40 : 40 ≤ b.len := by omega
  obtain ⟨b₈, hb₈⟩ : ∃ b₈, placedHeader b entryCapacity dataCapacity
      (dataStartFor entryCapacity + dataCapacity) = b₈ := ⟨_, rfl⟩
  have hrun : placeCameraMetadata (some b) entryCapacity dataCapacity = (do
      let dataUnaligned := u32 (hdr b₈ .entriesStart + 16 * hdr b₈ .entryCapacity)
      return some
        (setHdr (setHdr b₈ .dataStart (alignTo dataUnaligned dataAlignment)) .user 0)) := by
    have h40' : alignTo headerSize entryAlignment = 40 := rfl
    simp only [placeCameraMetadata, if_neg (Nat.ne_of_gt hpos), hsize, if_neg (Nat.not_lt.mpr hlen),
      set_eq, get_eq, entryPtr_eq, setHdr_len, h40, ok_bind, ← hb₈, placedHeader, h40']
  have hword : ∀ f, hdr b₈ f = match f with
      | .size => dataStartFor entryCapacity + dataCapacity
      | .version => 1
      | .flags => 0
      | .entryCount => 0
      | .entryCapacity => entryCapacity
      | .entriesStart => 40
      | .dataCount => 0
      | .dataCapacity => dataCapacity
      | f => hdr b f := by
    intro f
    have h₁ : u32 entryCapacity = entryCapacity := u32_of_lt (by omega)
    have h₂ : u32 dataCapacity = dataCapacity := u32_of_lt (by omega)
    have h₃ := u32_of_lt hw
    cases f <;> simp [← hb₈, placedHeader, hdr_setHdr, h₁, h₂, h₃] <;> rfl
  have hlen₈ : b₈.len = b.len := by simp [← hb₈, placedHeader]
  have haddr₈ : b₈.addr = b.addr := by simp [← hb₈, placedHeader]
  have hunaligned : alignTo (u32 (40 + 16 * entryCapacity)) dataAlignment =
      dataStartFor entryCapacity := by
    rw [u32_of_lt (by omega), alignTo_eight (by omega), hds]
  refine ⟨setHdr (setHdr b₈ .dataStart (dataStartFor entryCapacity)) .user 0, ?_, ⟨?_, ?_, ?_, ?_⟩,
    ?_, ?_, ?_, ?_, ?_⟩
  · rw [hrun]
    simp only [hword, hunaligned]
    rfl
  all_goals simp [hdr_setHdr, hword, packet, entriesAt, hlen₈, haddr₈, hlen,
    u32_of_lt (n := dataStartFor entryCapacity) (by omega)]

/-! ### Appending -/

variable {k : ℕ}

/-- The entry in a packet whose data was moved up by `n` bytes. -/
def Entry.raise (n : ℕ) (e : Entry) : Entry :=
  if 0 < e.dataSize then { e with data := leBytes 4 (u32 (e.offset + n)) } else e

/-- The packet `p` with the entries of `q` behind its own. -/
def Packet.append (p q : Packet) : Packet where
  flags :=
    if p.entries.length = 0 then p.flags ||| (q.flags &&& flagSorted)
    else if q.entries.length ≠ 0 then clearSorted p.flags
    else p.flags
  entries := p.entries ++
    if p.data.length ≠ 0 then q.entries.map (Entry.raise p.data.length) else q.entries
  data := p.data ++ q.data

theorem entriesAt_add (m : Mem) (o n k : ℕ) :
    entriesAt m o (n + k) = entriesAt m o n ++ entriesAt m (o + 16 * n) k := by
  rw [entriesAt, entriesAt, entriesAt, range_add, map_append, map_map]
  congr 1
  refine map_congr_left fun i _ => ?_
  simp only [Function.comp_apply, recordSize]
  congr 1
  omega

theorem entriesAt_put (b src : Buffer) (o o' n : ℕ) :
    entriesAt (b.put o (src.mem.slice o' (16 * n))).mem o n = entriesAt src.mem o' n := by
  rw [put_mem]
  refine map_congr_left fun i hi => entryAt_congr ?_
  have hi' := mem_range.mp hi
  exact slice_blit_slice (by rw [recordSize]; omega)

theorem entriesAt_cons (m : Mem) (o n : ℕ) :
    entriesAt m o (n + 1) = entryAt m o :: entriesAt m (o + 16) n := by
  rw [Nat.add_comm, entriesAt_add]
  rfl

/-- The loop of `append_camera_metadata` raises the offsets of `n` records. -/
theorem raiseOffsets_eq {ptr : ℕ} (hptr : ptr + 16 * n ≤ b.len) :
    ∃ b', raiseOffsets k n ptr b = .ok b' ∧ Buffer.Frame ptr (ptr + 16 * n) b b' ∧
      entriesAt b'.mem ptr n = (entriesAt b.mem ptr n).map (Entry.raise k) := by
  induction n generalizing ptr b with
  | zero => exact ⟨b, rfl, .refl _ _ _, rfl⟩
  | succ n ih =>
    have hload : loadEntry b ptr = .ok (entryAt b.mem ptr) := loadEntry_eq (by omega)
    -- one round, as a buffer whose first record is raised
    obtain ⟨b₁, hone, hfr₁, hrec₁⟩ : ∃ b₁,
        raiseOffsets k (n + 1) ptr b = raiseOffsets k n (ptr + 16) b₁ ∧
        Buffer.Frame ptr (ptr + 16) b b₁ ∧
        entryAt b₁.mem ptr = (entryAt b.mem ptr).raise k := by
      by_cases hc : 0 < (entryAt b.mem ptr).dataSize
      · have hrec := @entryAt_blit_offset ptr b.mem (u32 ((entryAt b.mem ptr).offset + k))
        refine ⟨b.put (ptr + 8) (leBytes 4 (u32 ((entryAt b.mem ptr).offset + k))), ?_,
          .put (by omega) (by rw [length_leBytes]; omega), ?_⟩
        · rw [Entry.dataSize] at hc
          simp only [raiseOffsets, hload, ok_bind, if_pos hc,
            store32_of_le (b := b) (o := ptr + 8) (by omega), recordSize]
        · rw [put_mem, hrec, Entry.raise, if_pos hc]
      · refine ⟨b, ?_, .refl _ _ _, ?_⟩
        · rw [Entry.dataSize] at hc
          simp only [raiseOffsets, hload, ok_bind, if_neg hc, pure_bind, recordSize]
        · rw [Entry.raise, if_neg hc]
    have hptr₁ : ptr + 16 + 16 * n ≤ b₁.len := by rw [hfr₁.len]; omega
    obtain ⟨b₂, hrun, hfr₂, hrest⟩ := ih hptr₁
    refine ⟨b₂, hone.trans hrun, (hfr₁.mono (Nat.le_refl _) (by omega)).trans
      (hfr₂.mono (by omega) (by omega)), ?_⟩
    rw [entriesAt_cons, entriesAt_cons, hrest, map_cons, entryAt_frame hfr₂ (by omega), hrec₁,
      entriesAt_frame hfr₁ (by omega)]

/-- The records and the data of a packet, copied into a buffer. -/
theorem copyParts_eq (src c : Buffer) (o o' mid : ℕ) (hrec : o + 16 * hdr src .entryCount ≤ mid)
    (hmid : mid ≤ c.len) (hdat : o' + hdr src .dataCount ≤ c.len) :
    ∃ c₁ c₂, c.store o (src.mem.slice (hdr src .entriesStart) (16 * hdr src .entryCount)) =
        .ok c₁ ∧
      c₁.store o' (src.mem.slice (hdr src .dataStart) (hdr src .dataCount)) = .ok c₂ ∧
      Buffer.Frame o mid c c₁ ∧ Buffer.Frame o' c.len c₁ c₂ ∧
      entriesAt c₁.mem o (hdr src .entryCount) = (packet src).entries ∧
      c₂.mem.slice o' (hdr src .dataCount) = (packet src).data := by
  have hlenRecords := length_slice src.mem (hdr src .entriesStart) (16 * hdr src .entryCount)
  have hlenData := length_slice src.mem (hdr src .dataStart) (hdr src .dataCount)
  have hfr : Buffer.Frame o mid c
      (c.put o (src.mem.slice (hdr src .entriesStart) (16 * hdr src .entryCount))) :=
    .put (Nat.le_refl _) (by rw [hlenRecords]; omega)
  refine ⟨_, _, store_of_inside (Or.inr (by rw [hlenRecords]; omega)),
    store_of_inside (Or.inr (by rw [hlenData, hfr.len]; omega)), hfr,
    .put (Nat.le_refl _) (by rw [hlenData]; omega), entriesAt_put .., ?_⟩
  have hdata := slice_blit_self
    (c.put o (src.mem.slice (hdr src .entriesStart) (16 * hdr src .entryCount))).mem o'
    (src.mem.slice (hdr src .dataStart) (hdr src .dataCount))
  rw [hlenData] at hdata
  exact hdata

variable (hl : Layout b)
  (hspace : hdr b .entriesStart + 16 * (hdr b .entryCount + hdr src .entryCount) ≤
    hdr b .dataStart)
  (hroom : hdr b .dataCount + hdr src .dataCount ≤ hdr b .dataCapacity)

include hl hspace hroom in
/-- The records and the data of `src` behind those of `b`, with the offsets raised. -/
theorem appendBytes_eq :
    ∃ b₁ b₂ b₃, b.store (hdr b .entriesStart + 16 * hdr b .entryCount)
        (src.mem.slice (hdr src .entriesStart) (16 * hdr src .entryCount)) = .ok b₁ ∧
      b₁.store (hdr b .dataStart + hdr b .dataCount)
        (src.mem.slice (hdr src .dataStart) (hdr src .dataCount)) = .ok b₂ ∧
      (∀ k : Buffer → Except Fault (Status × Buffer), (if hdr b .dataCount ≠ 0 then
        raiseOffsets (hdr b .dataCount) (hdr src .entryCount)
          (hdr b .entriesStart + 16 * hdr b .entryCount) b₂ >>= k else k b₂) = k b₃) ∧
      Buffer.Frame (hdr b .entriesStart) b.len b b₁ ∧
      Buffer.Frame (hdr b .entriesStart) b.len b b₃ ∧
      entriesAt b₃.mem (hdr b .entriesStart) (hdr b .entryCount + hdr src .entryCount) =
        ((packet b).append (packet src)).entries ∧
      b₃.mem.slice (hdr b .dataStart) (hdr b .dataCount + hdr src .dataCount) =
        (packet b).data ++ (packet src).data := by
  have h₁ := hl.header
  have h₂ := hl.entries
  have h₃ := hl.data
  generalize ho : hdr b .entriesStart + 16 * hdr b .entryCount = o
  obtain ⟨b₁, b₂, hstore₁, hstore₂, hfr₁, hfr₂, hrecords, hdata⟩ := copyParts_eq src b o
    (hdr b .dataStart + hdr b .dataCount) (hdr b .dataStart) (by omega) (by omega) (by omega)
  have hraise : o + 16 * hdr src .entryCount ≤ b₂.len := by
    rw [hfr₂.len, hfr₁.len]
    omega
  obtain ⟨b₃, hrun, hfr₃, hrest⟩ : ∃ b₃,
      (∀ k : Buffer → Except Fault (Status × Buffer), (if hdr b .dataCount ≠ 0 then
        raiseOffsets (hdr b .dataCount) (hdr src .entryCount) o b₂ >>= k else k b₂) = k b₃) ∧
      Buffer.Frame o (hdr b .dataStart) b₂ b₃ ∧
      entriesAt b₃.mem o (hdr src .entryCount) =
        if hdr b .dataCount ≠ 0 then (packet src).entries.map (Entry.raise (hdr b .dataCount))
        else (packet src).entries := by
    by_cases h0 : hdr b .dataCount = 0
    · refine ⟨b₂, fun k => if_neg (not_not.mpr h0), .refl _ _ _, ?_⟩
      rw [if_neg (not_not.mpr h0), entriesAt_frame hfr₂ (by omega), hrecords]
    · obtain ⟨b₃, hrun, hfr₃, hrest⟩ := raiseOffsets_eq (k := hdr b .dataCount) hraise
      refine ⟨b₃, fun k => ?_, hfr₃.mono (Nat.le_refl _) (by omega), ?_⟩
      · rw [if_pos h0, hrun, ok_bind]
      rw [if_pos h0, hrest, entriesAt_frame hfr₂ (by omega), hrecords]
  refine ⟨b₁, b₂, b₃, hstore₁, hstore₂, hrun, hfr₁.mono (by omega) (by omega),
    ((hfr₁.mono (by omega) (by omega)).trans (hfr₂.mono (by omega) (Nat.le_refl _))).trans
      (hfr₃.mono (by omega) (by omega)), ?_, ?_⟩
  · rw [entriesAt_add, ho, hrest, entriesAt_frame hfr₃ (by omega),
      entriesAt_frame hfr₂ (by omega), entriesAt_frame hfr₁ (by omega), Packet.append,
      ← hdr_dataCount]
    rfl
  · rw [slice_add, hfr₃.slice (by omega), hfr₃.slice (by omega), hdata,
      hfr₂.slice (by omega), hfr₁.slice (by omega)]
    rfl

/-- The last steps of `append_camera_metadata`: the new records and data start to count. -/
theorem packet_of_counts {b₃ b₄ : Buffer} {entries : List Entry} {d : List UInt8} (hl : Layout b)
    (hfr : Buffer.Frame (hdr b .entriesStart) b.len b b₃) (hfr₄ : Buffer.Frame 0 40 b₃ b₄)
    (hhdr₄ : ∀ f, f ≠ .flags → hdr b₄ f = hdr b₃ f)
    (hentries : entriesAt b₃.mem (hdr b .entriesStart) entries.length = entries)
    (hdata : b₃.mem.slice (hdr b .dataStart) d.length = d)
    (hec : entries.length < 2 ^ 32) (hdc : d.length < 2 ^ 32) :
    SameShape b (setHdr (setHdr b₄ .entryCount entries.length) .dataCount d.length) ∧
      packet (setHdr (setHdr b₄ .entryCount entries.length) .dataCount d.length) =
        ⟨hdr b₄ .flags, entries, d⟩ := by
  have h₁ := hl.header
  have h₂ := hl.entries
  have hhdr : ∀ f, f ≠ .flags → hdr b₄ f = hdr b f :=
    fun f hf => (hhdr₄ f hf).trans (hdr_frame hfr h₁ f)
  have hsh : SameShape b b₄ :=
    ⟨hfr₄.addr.trans hfr.addr, hfr₄.len.trans hfr.len, fun f hf _ _ => hhdr f hf⟩
  refine ⟨(hsh.trans (.setHdr _ _ (Or.inr (Or.inl rfl)))).trans
    (.setHdr _ _ (Or.inr (Or.inr rfl))), ?_⟩
  have hfr₅ := frame_setHdr b₄ .entryCount entries.length
  have hfr₆ := frame_setHdr (setHdr b₄ .entryCount entries.length) .dataCount d.length
  simp only [packet, hdr_setHdr, u32_of_lt hec, u32_of_lt hdc, reduceCtorEq, if_true, if_false,
    hhdr _ (show Field.entriesStart ≠ .flags by decide),
    hhdr _ (show Field.dataStart ≠ .flags by decide)]
  rw [entriesAt_frame hfr₆ (by omega), entriesAt_frame hfr₅ (by omega),
    entriesAt_frame hfr₄ (by omega), hentries, hfr₆.slice (by omega), hfr₅.slice (by omega),
    hfr₄.slice (by omega), hdata]

/-- What happens to the sorted flag. -/
theorem mergeSorted_eq {c : Buffer} (hlen : 40 ≤ c.len) (hslen : 40 ≤ src.len) (m n : ℕ) :
    ∃ c', mergeSorted c src m n = .ok c' ∧ Buffer.Frame 0 40 c c' ∧
      (∀ f, f ≠ .flags → hdr c' f = hdr c f) ∧
      hdr c' .flags =
        if m = 0 then hdr c .flags ||| (hdr src .flags &&& flagSorted)
        else if n ≠ 0 then clearSorted (hdr c .flags) else hdr c .flags := by
  have hor : hdr c .flags ||| (hdr src .flags &&& flagSorted) < 2 ^ 32 :=
    Nat.or_lt_two_pow (hdr_lt _ _) (Nat.lt_of_le_of_lt Nat.and_le_left (hdr_lt _ _))
  have hset : ∀ v, v < 2 ^ 32 → Buffer.Frame 0 40 c (setHdr c .flags v) ∧
      (∀ f, f ≠ .flags → hdr (setHdr c .flags v) f = hdr c f) ∧
      hdr (setHdr c .flags v) .flags = v := fun v hv =>
    ⟨frame_setHdr _ _ _, fun f hf => hdr_setHdr_of_ne c hf.symm v, by
      rw [hdr_setHdr_self, u32_of_lt hv]⟩
  simp only [mergeSorted, get_eq hlen, get_eq hslen, set_eq hlen, ok_bind]
  split_ifs
  · exact ⟨_, rfl, hset _ hor⟩
  · exact ⟨_, rfl, hset _ (clearSorted_lt _)⟩
  · exact ⟨c, rfl, .refl _ _ _, fun f _ => rfl, rfl⟩

include hl hspace hroom in
/-- **Appending a packet**, when there is room for its entries and its data. -/
theorem appendCameraMetadata_eq (hs : Layout src)
    (hfree : hdr b .entryCount + hdr src .entryCount ≤ hdr b .entryCapacity) :
    ∃ b', appendCameraMetadata b src = .ok (.ok, b') ∧ SameShape b b' ∧
      packet b' = (packet b).append (packet src) := by
  have h₁ := hl.header
  have hlen := hl.len_le
  have hslen := hs.len_le
  have hs₁ := hs.entries
  have hs₂ := hs.data
  have hs₃ := hs.count
  have hlt := hdr_lt b .entryCapacity
  have hlt' := hdr_lt b .dataCapacity
  obtain ⟨b₁, b₂, b₃, hrec, hdat, hraise, hfr₁, hfr, hentries, hdata⟩ :=
    appendBytes_eq hl hspace hroom
  have hlen₁ : 40 ≤ b₁.len := hfr₁.len.symm ▸ hlen
  have hlen₃ : 40 ≤ b₃.len := hfr.len.symm ▸ hlen
  have hds₁ := hdr_frame hfr₁ h₁ .dataStart
  have hhdr₃ := hdr_frame hfr h₁
  obtain ⟨b₄, hmerge, hfr₄, hhdr₄, hflags⟩ :=
    mergeSorted_eq hlen₃ hslen (hdr b .entryCount) (hdr src .entryCount)
  have hlen₄ : 40 ≤ b₄.len := hfr₄.len.symm ▸ hlen₃
  have hec : hdr b .entryCount + hdr src .entryCount =
      ((packet b).append (packet src)).entries.length := by rw [← hentries, length_entriesAt]
  have hdc : hdr b .dataCount + hdr src .dataCount =
      ((packet b).append (packet src)).data.length := by
    rw [hdr_dataCount, hdr_dataCount, Packet.append, length_append]
  obtain ⟨hsh, hp⟩ := packet_of_counts hl hfr hfr₄ hhdr₄ (hec ▸ hentries) (hdc ▸ hdata)
    (by omega) (by omega)
  refine ⟨_, ?_, hsh, ?_⟩
  · have hrecords := load_of_inside (b := src) (o := hdr src .entriesStart)
      (n := 16 * hdr src .entryCount) (Or.inr (by omega))
    have hdataSrc := load_of_inside (b := src) (o := hdr src .dataStart)
      (n := hdr src .dataCount) (Or.inr (by omega))
    have hsum : u32 (hdr src .entryCount + hdr b .entryCount) ≤ hdr b .entryCapacity := by
      rw [u32_of_lt (by omega)]
      omega
    have hsum' : u32 (hdr src .dataCount + hdr b .dataCount) ≤ hdr b .dataCapacity := by
      rw [u32_of_lt (by omega)]
      omega
    have hec' : u32 (hdr b .entryCount + hdr src .entryCount) = _ := u32_of_lt (by omega)
    have hdc' : u32 (hdr b .dataCount + hdr src .dataCount) = _ := u32_of_lt (by omega)
    have hset : ∀ v,
        set (setHdr b₄ .entryCount v) .dataCount (hdr b .dataCount + hdr src .dataCount) =
        .ok (setHdr (setHdr b₄ .entryCount v) .dataCount (hdr b .dataCount + hdr src .dataCount)) :=
      fun v => set_eq ((setHdr_len _ _ _).symm ▸ hlen₄) _ _
    rw [← hec, ← hdc]
    simp only [appendCameraMetadata, get_eq hlen, get_eq hslen, ok_bind,
      if_neg (Nat.not_lt.mpr hsum), if_neg (Nat.not_lt.mpr hsum'), entryPtr_zero hslen,
      entryPtr_eq hlen, recordSize, hrecords, hrec, hdataSrc, get_eq hlen₁, hds₁, hdat,
      pure_bind, hraise, hmerge, hec', hdc', set_eq hlen₄, hset]
    rfl
  · rw [hp, hflags, hhdr₃, Packet.append, hdr_entryCount, hdr_entryCount]
    rfl

/-! ### Sorting -/

variable {l : List (List UInt8)} {m : Mem} {o : ℕ}

/-- The entry that a record of bytes holds. -/
def decodeRecord (record : List UInt8) : Entry where
  tag := recordTag record
  count := leNat ((record.drop 4).take 4)
  data := (record.drop 8).take 4
  type := (record.getD 12 0).toNat

theorem entryAt_eq_decodeRecord (m : Mem) (o : ℕ) : entryAt m o = decodeRecord (m.slice o 16) := by
  have h12 : (m.slice o 16).getD 12 0 = m (o + 12) := by simp [slice]
  simp only [entryAt, decodeRecord, recordTag, h12, drop_slice, word,
    take_slice m o (show 4 ≤ 16 by decide),
    take_slice m (o + 4) (show 4 ≤ 16 - 4 by decide),
    take_slice m (o + 8) (show 4 ≤ 16 - 8 by decide)]

theorem entriesAt_eq_map (m : Mem) (o n : ℕ) :
    entriesAt m o n = (recordsAt m o n).map decodeRecord := by
  rw [entriesAt, recordsAt, map_map]
  exact map_congr_left fun i _ => entryAt_eq_decodeRecord _ _

theorem take_drop_flatten (hl : ∀ r ∈ l, r.length = k) {i : ℕ} (hi : i < l.length) :
    (l.flatten.drop (k * i)).take k = l[i] := by
  induction l generalizing i with
  | nil => exact absurd hi (Nat.not_lt_zero _)
  | cons r l ih =>
    have hr : r.length = k := hl r mem_cons_self
    rw [flatten_cons]
    cases i with
    | zero => rw [Nat.mul_zero, drop_zero, take_left' hr, getElem_cons_zero]
    | succ i =>
      have hdrop : (r ++ l.flatten).drop (k * (i + 1)) = l.flatten.drop (k * i) := by
        rw [Nat.mul_succ, Nat.add_comm, ← hr, drop_append, Nat.add_sub_cancel_left]
        simp
      rw [hdrop, ih (fun r' hr' => hl r' (mem_cons_of_mem _ hr'))
        (Nat.lt_of_succ_lt_succ hi), getElem_cons_succ]

theorem recordsAt_blit_flatten (hl : ∀ r ∈ l, r.length = 16) :
    recordsAt (m.blit o l.flatten) o l.length = l := by
  have hlen : l.flatten.length = 16 * l.length := by
    rw [length_flatten, map_congr_left (g := fun _ => 16) hl]
    simp [Nat.mul_comm]
  apply ext_getElem
  · simp [recordsAt]
  · intro i h₁ h₂
    simp only [recordsAt, getElem_map, getElem_range, recordSize]
    rw [slice_blit_of_within (by omega), take_drop_flatten hl h₂]

theorem length_of_mem_recordsAt {r : List UInt8} (h : r ∈ recordsAt m o n) :
    r.length = 16 := by
  obtain ⟨i, -, rfl⟩ := mem_map.mp h
  exact length_slice _ _ _

/-- **Sorting** a packet that is not marked as sorted. -/
theorem sortCameraMetadata_eq (hl : Layout b) (qsort : Qsort)
    (hflag : isSorted (hdr b .flags) = false) :
    ∃ b', sortCameraMetadata qsort b = .ok (.ok, b') ∧ SameShape b b' ∧
      (packet b').entries.Perm (packet b).entries ∧
      (packet b').entries.Pairwise (fun e f => e.tag ≤ f.tag) ∧
      (packet b').data = (packet b).data ∧
      (packet b').flags = (packet b).flags ||| flagSorted := by
  have h₁ := hl.header
  have h₂ := hl.entries
  have h₃ := hl.data
  have hlen := hl.len_le
  have hperm := qsort.perm (recordsAt b.mem (hdr b .entriesStart) (hdr b .entryCount))
  have hsorted := qsort.sorted (recordsAt b.mem (hdr b .entriesStart) (hdr b .entryCount))
  generalize hrun : qsort.run _ = l at hperm hsorted
  have hl16 : ∀ r ∈ l, r.length = 16 := fun r hr => length_of_mem_recordsAt (hperm.mem_iff.mp hr)
  have hcount : l.length = hdr b .entryCount := by
    rw [hperm.length_eq]
    simp [recordsAt]
  have hflat : l.flatten.length = 16 * hdr b .entryCount := by
    rw [length_flatten, map_congr_left (g := fun _ => 16) hl16]
    simp [Nat.mul_comm, hcount]
  set b₁ := b.put (hdr b .entriesStart) l.flatten with hb₁
  have hfr : Buffer.Frame (hdr b .entriesStart) (hdr b .dataStart) b b₁ :=
    .put (Nat.le_refl _) (by omega)
  have hrecords : recordsAt b₁.mem (hdr b .entriesStart) (hdr b .entryCount) = l := by
    rw [hb₁, put_mem, ← hcount]
    exact recordsAt_blit_flatten hl16
  have hstore : b.store (hdr b .entriesStart) l.flatten = .ok b₁ :=
    store_of_inside (Or.inr (by omega))
  have hlen₁ : 40 ≤ b₁.len := hfr.len.symm ▸ hlen
  have hhdr₁ := hdr_frame hfr h₁
  have hfr₂ := frame_setHdr b₁ .flags (hdr b .flags ||| flagSorted)
  have hor : hdr b .flags ||| flagSorted < 2 ^ 32 :=
    Nat.or_lt_two_pow (hdr_lt _ _) (by decide)
  have hload := load_of_inside (b := b) (o := hdr b .entriesStart)
    (n := 16 * hdr b .entryCount) (Or.inr (by omega))
  have hpacket : packet (setHdr b₁ .flags (hdr b .flags ||| flagSorted)) =
      ⟨hdr b .flags ||| flagSorted, l.map decodeRecord, (packet b).data⟩ := by
    rw [packet, hdr_setHdr_self, hdr_setHdr_of_ne _ (by decide), hdr_setHdr_of_ne _ (by decide),
      hdr_setHdr_of_ne _ (by decide), hdr_setHdr_of_ne _ (by decide), hhdr₁, hhdr₁, hhdr₁, hhdr₁,
      entriesAt_frame hfr₂ (by omega), hfr₂.slice (by omega), hfr.slice (by omega),
      entriesAt_eq_map, hrecords, u32_of_lt hor]
    rfl
  refine ⟨setHdr b₁ .flags (hdr b .flags ||| flagSorted), ?_, ?_, ?_⟩
  · simp only [sortCameraMetadata, get_eq hlen, ok_bind, hflag, Bool.false_eq_true, if_false,
      entryPtr_zero hlen, recordSize, hload, hrun, hstore, get_eq hlen₁, hhdr₁, set_eq hlen₁]
    rfl
  · exact (SameShape.of_frame hfr h₁).trans (.setHdr _ _ (Or.inl rfl))
  · rw [hpacket]
    refine ⟨?_, pairwise_map.mpr hsorted, rfl, rfl⟩
    have hentries : (packet b).entries =
        (recordsAt b.mem (hdr b .entriesStart) (hdr b .entryCount)).map decodeRecord :=
      entriesAt_eq_map _ _ _
    rw [hentries]
    exact hperm.map _

/-! ### Copying -/

theorem Placed.layout (h : Placed b) (he : hdr b .entryCount ≤ hdr b .entryCapacity)
    (hd : hdr b .dataCount ≤ hdr b .dataCapacity) : Layout b := by
  have h₁ := h.entriesStart
  have h₂ := h.dataStart
  have h₃ := h.size
  have h₄ := h.len
  rw [dataStartFor] at h₂
  exact ⟨by omega, by omega, hd, by omega⟩

theorem Placed.of_sameShape (h : Placed b) (hs : SameShape b b') : Placed b' := by
  have h₁ := hs.hdr_eq .entriesStart
  have h₂ := hs.hdr_eq .dataStart
  have h₃ := hs.hdr_eq .entryCapacity
  have h₄ := hs.hdr_eq .dataCapacity
  have h₅ := hs.hdr_eq .size
  refine ⟨h₁.trans h.entriesStart, ?_, ?_, ?_⟩
  · rw [h₂, h₃, h.dataStart]
  · rw [h₅, h₂, h₄, h.size]
  · rw [h₅, hs.len]
    exact h.len

theorem getCameraMetadataCompactSize_eq (h : 40 ≤ src.len) : getCameraMetadataCompactSize src =
    .ok (calculateCameraMetadataSize (hdr src .entryCount) (hdr src .dataCount)) := by
  simp only [getCameraMetadataCompactSize, get_eq h, ok_bind]
  rfl

variable (hs : Layout src) (hpos : 0 < hdr src .entryCount)
  (hw : dataStartFor (hdr src .entryCount) + hdr src .dataCount < 2 ^ 32)
include hs

include hpos hw in
/-- **Copying a packet** that has entries, into a buffer that is large enough. -/
theorem copyCameraMetadata_eq
    (hlen : dataStartFor (hdr src .entryCount) + hdr src .dataCount ≤ b.len) :
    ∃ b', copyCameraMetadata (some b) src = .ok (some b') ∧ Placed b' ∧ b'.addr = b.addr ∧
      hdr b' .entryCapacity = hdr src .entryCount ∧ hdr b' .dataCapacity = hdr src .dataCount ∧
      packet b' = packet src := by
  have hslen := hs.len_le
  have hs₁ := hs.entries
  have hs₂ := hs.data
  have hs₃ := hs.count
  obtain ⟨b₁, hplace, hpl₁, haddr₁, hlen₁, hec₁, hdc₁, -⟩ := placeCameraMetadata_eq hpos hw hlen
  have hstart₁ := hpl₁.entriesStart
  have hds₁ := hpl₁.dataStart
  have hsize₁ := hpl₁.size
  have hle₁ := hpl₁.len
  rw [hec₁, dataStartFor] at hds₁
  -- the flags and the counts
  obtain ⟨b₂, hb₂⟩ : ∃ b₂, setHdr (setHdr (setHdr b₁ .flags (hdr src .flags)) .entryCount
    (hdr src .entryCount)) .dataCount (hdr src .dataCount) = b₂ := ⟨_, rfl⟩
  have hhdr₂ : ∀ f, hdr b₂ f =
      if f = .flags ∨ f = .entryCount ∨ f = .dataCount then hdr src f else hdr b₁ f := by
    intro f
    rw [← hb₂]
    have hu : ∀ g, u32 (hdr src g) = hdr src g := fun g => u32_of_lt (hdr_lt _ _)
    cases f <;> simp [hdr_setHdr, hu]
  have hlen₂ : b₂.len = b₁.len := by rw [← hb₂]; simp
  have haddr₂ : b₂.addr = b₁.addr := by rw [← hb₂]; simp
  -- the records and the data
  obtain ⟨b₃, b₄, hstore₃, hstore₄, hfr₃, hfr₄, hrecords, hdata⟩ := copyParts_eq src b₂ 40
    (hdr b₁ .dataStart) (hdr b₁ .dataStart) (by omega) (by omega) (by omega)
  have hhdr₃ := hdr_frame hfr₃ (Nat.le_refl _)
  have hhdr₄ : ∀ f, hdr b₄ f = hdr b₂ f := fun f =>
    (hdr_frame hfr₄ (by omega) f).trans (hhdr₃ f)
  have hfr₅ := frame_setHdr b₄ .user 0
  have hhdr₅ : ∀ f, f ≠ .user → hdr (setHdr b₄ .user 0) f = _ := fun f hf =>
    ((hdr_setHdr_of_ne _ hf.symm _).trans (hhdr₄ f)).trans (hhdr₂ f)
  have hstart₅ := hhdr₅ .entriesStart (by decide)
  have hds₅ := hhdr₅ .dataStart (by decide)
  have hec₅ := hhdr₅ .entryCapacity (by decide)
  have hdc₅ := hhdr₅ .dataCapacity (by decide)
  have hsize₅ := hhdr₅ .size (by decide)
  simp only [reduceCtorEq, or_self, if_false] at hstart₅ hds₅ hec₅ hdc₅ hsize₅
  have hl₁ : 40 ≤ b₁.len := by omega
  have hl₂ : 40 ≤ b₂.len := by omega
  have hl₃ : 40 ≤ b₃.len := by rw [hfr₃.len]; omega
  have hl₄ : 40 ≤ b₄.len := by rw [hfr₄.len]; omega
  refine ⟨setHdr b₄ .user 0, ?_, ⟨by omega, ?_, by omega, ?_⟩, ?_, by omega, by omega, ?_⟩
  · have hloadRecords := load_of_inside (b := src) (o := hdr src .entriesStart)
      (n := 16 * hdr src .entryCount) (Or.inr (by omega))
    have hloadData := load_of_inside (b := src) (o := hdr src .dataStart)
      (n := hdr src .dataCount) (Or.inr (by omega))
    have hstart₂ := hhdr₂ .entriesStart
    have hds₂ := hhdr₂ .dataStart
    simp only [reduceCtorEq, or_self, if_false] at hstart₂ hds₂
    simp only [copyCameraMetadata, getCameraMetadataCompactSize_eq hslen,
      calculateCameraMetadataSize_eq hw, ok_bind, if_neg (Nat.not_lt.mpr hlen), get_eq hslen,
      hplace, set_eq, hl₁, setHdr_len, hb₂, entryPtr_zero hslen, recordSize,
      hloadRecords, entryPtr_zero hl₂, hstart₂, hstart₁, hstore₃, hloadData, get_eq hl₃, hhdr₃,
      hds₂, hstore₄, set_eq hl₄]
    rfl
  · rw [hds₅, hec₅, hec₁, dataStartFor, hds₁]
  · rw [setHdr_len, hfr₄.len, hfr₃.len, hlen₂, hsize₅]
    exact hle₁
  · rw [setHdr_addr, hfr₄.addr, hfr₃.addr, haddr₂, haddr₁]
  · have hflags₅ := hhdr₅ .flags (by decide)
    have hentryCount₅ := hhdr₅ .entryCount (by decide)
    have hdataCount₅ := hhdr₅ .dataCount (by decide)
    simp only [reduceCtorEq, or_true, true_or, if_true] at hflags₅ hentryCount₅ hdataCount₅
    rw [packet, hflags₅, hentryCount₅, hdataCount₅, hstart₅, hstart₁, hds₅,
      entriesAt_frame hfr₅ (by omega), entriesAt_frame hfr₄ (by omega), hrecords,
      hfr₅.slice (by omega), hdata]
    rfl

/-- Copying a packet without entries uses the `NULL` that `place_camera_metadata` returned. -/
theorem copyCameraMetadata_empty (hzero : hdr src .entryCount = 0)
    (hlen : calculateCameraMetadataSize 0 (hdr src .dataCount) ≤ b.len) :
    copyCameraMetadata (some b) src = .error .nullDeref := by
  have hslen := hs.len_le
  have hplace : ∀ c n, placeCameraMetadata (some c) 0 n = .ok none := fun c n => rfl
  simp only [copyCameraMetadata, getCameraMetadataCompactSize_eq hslen, hzero, ok_bind,
    if_neg (Nat.not_lt.mpr hlen), get_eq hslen, hplace]

theorem cloneCameraMetadata_empty (hzero : hdr src .entryCount = 0) (addr : ℕ)
    (garbage : Mem) : cloneCameraMetadata addr garbage src = .ok none := by
  simp only [cloneCameraMetadata, get_eq hs.len_le, ok_bind, allocateCameraMetadata, hzero,
    if_true, pure_bind]
  rfl

include hpos hw in
/-- **Cloning a packet** that has entries. -/
theorem cloneCameraMetadata_eq (addr : ℕ) (garbage : Mem) :
    ∃ b', cloneCameraMetadata addr garbage src = .ok (some b') ∧ Placed b' ∧ b'.addr = addr ∧
      hdr b' .entryCapacity = hdr src .entryCount ∧ hdr b' .dataCapacity = hdr src .dataCount ∧
      packet b' = (⟨0, [], []⟩ : Packet).append (packet src) := by
  have hslen := hs.len_le
  have hsize := calculateCameraMetadataSize_eq hw
  obtain ⟨b₁, hplace, hpl₁, haddr₁, hlen₁, hec₁, hdc₁, hp₁⟩ := placeCameraMetadata_eq
    (b := ⟨addr, dataStartFor (hdr src .entryCount) + hdr src .dataCount, garbage⟩) hpos hw
    (Nat.le_refl _)
  have hcount₁ : hdr b₁ .entryCount = 0 := by rw [hdr_entryCount, hp₁]; rfl
  have hdata₁ : hdr b₁ .dataCount = 0 := by rw [hdr_dataCount, hp₁]; rfl
  have hstart₁ := hpl₁.entriesStart
  have hds₁ := hpl₁.dataStart
  rw [hec₁, dataStartFor] at hds₁
  obtain ⟨b', happ, hsh, hp⟩ := appendCameraMetadata_eq (b := b₁)
    (hpl₁.layout (by omega) (by omega)) (by omega) (by omega) hs (by omega)
  refine ⟨b', ?_, hpl₁.of_sameShape hsh, hsh.addr.trans haddr₁, ?_, ?_, by rw [hp, hp₁]⟩
  · simp only [cloneCameraMetadata, get_eq hslen, ok_bind, allocateCameraMetadata,
      if_neg (Nat.ne_of_gt hpos), hsize, hplace, happ]
    rfl
  · rw [hsh.hdr_eq .entryCapacity, hec₁]
  · rw [hsh.hdr_eq .dataCapacity, hdc₁]

end Camera
