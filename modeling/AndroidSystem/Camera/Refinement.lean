/-
A packet is a list.

`History.Plain` is what a history does to a plain list of tags, types and values:
adding appends, deleting removes a position, updating replaces the values at a
position, appending concatenates, sorting puts the list in tag order; a call that
was refused does nothing.  `readAll` reads the list back from the packet, index by
index, with `get_camera_metadata_entry`.

**`readAll_plain`**: what is read is what the plain list is.  It fails for a packet
whose mark of being sorted is stale, which `sort_camera_metadata` leaves as it is
(`staleMark_sorted_not_plain`).
-/
import AndroidSystem.Camera.Reachable

open CInt List
open Mem (Fault)

namespace Camera

open History Option

variable {b : Buffer} {h : History} {i : ℕ}

/-! ### Reading a packet -/

/-- Entry `index`, as `get_camera_metadata_entry` returns it, with the values it points to. -/
def readEntry (b : Buffer) (index : ℕ) : Except Fault Datum := do
  let (_, some ref) ← getCameraMetadataEntry b index | .error .nullDeref
  let values ← b.load ref.data (ref.count * sizeOfType ref.type)
  return ⟨ref.tag, ref.type, ref.count, values⟩

/-- All entries of a packet. -/
def readAll (b : Buffer) : Except Fault (List Datum) := do
  (List.range (← get b .entryCount)).mapM (readEntry b)

/-- The number of bytes of the values does not wrap. -/
def Datum.Fits (x : Datum) : Prop := x.count * sizeOfType x.type < 2 ^ 32

theorem readEntry_eq (hb : Sound b) {x : Datum} (hx : (packet b).contents[i]? = some x)
    (hfit : x.Fits) : readEntry b i = .ok x := by
  have hl := hb.layout
  rw [Packet.contents, getElem?_map] at hx
  obtain ⟨e, he, rfl⟩ := map_eq_some_iff.mp hx
  have hgood := hb.good he
  obtain ⟨hi, hentry⟩ := entryAt_of_getElem? he
  have h₂ := hl.entries
  have h₃ := hl.data
  have h₄ := hl.count
  have hbytes : e.count * sizeOfType e.type = e.bytes := (u32_of_lt hfit).symm
  have hload : b.load (valuePtr b (hdr b .entriesStart + 16 * i) e) e.bytes =
      .ok (e.valuesIn (packet b).data) := by
    have hpay : payloadSize e.type e.count = e.bytes := rfl
    rw [valuePtr, Entry.valuesIn, hpay]
    by_cases hb4 : e.bytes ≤ 4
    · -- the values are in the record
      have hdata : e.data = b.mem.slice (hdr b .entriesStart + 16 * i + 8) 4 := by
        rw [← hentry]
        rfl
      rw [if_neg (by omega), if_pos hb4, Buffer.load_of_inside (Or.inr (by omega)), hdata,
        Mem.take_slice _ _ hb4]
    · -- the values are in the data area
      have hpos : 0 < e.dataSize := hgood.dataSize_pos_iff.mpr (by omega)
      have hend := hb.end_le he hpos
      have hle := hgood.bytes_le hpos
      rw [if_pos (by omega), if_neg hb4, Buffer.load_of_inside (Or.inr (by omega)), packet,
        Mem.drop_slice, Mem.take_slice _ _ (by omega)]
  simp only [readEntry, getCameraMetadataEntry_eq hl.len_le hl.records_le he hgood.type,
    Mem.ok_bind, hbytes, hload]
  rfl

theorem mapM_ok {α β ε : Type} {f : α → Except ε β} {g : α → β} {l : List α}
    (hf : ∀ a ∈ l, f a = .ok (g a)) : l.mapM f = .ok (l.map g) := by
  induction l with
  | nil => rfl
  | cons a l ih =>
    have ih' := ih fun a' ha' => hf a' (mem_cons_of_mem a ha')
    simp only [mapM_cons, hf a mem_cons_self, ih', map_cons]
    rfl

/-- **Reading a packet** gives its contents. -/
theorem readAll_eq (hb : Sound b) (hfit : ∀ x ∈ (packet b).contents, x.Fits) :
    readAll b = .ok (packet b).contents := by
  have hlength : (packet b).contents.length = hdr b .entryCount := by
    rw [Packet.contents, length_map, hdr_entryCount]
  have hread : ∀ i ∈ List.range (hdr b .entryCount),
      readEntry b i = .ok ((packet b).contents.getD i ⟨0, 0, 0, []⟩) := by
    intro i hi
    have hi' : i < (packet b).contents.length := by
      rw [hlength]
      exact mem_range.mp hi
    have hx := getElem?_eq_getElem hi'
    rw [readEntry_eq hb hx (hfit _ (getElem_mem hi')), getD_eq_getElem?_getD, hx]
    rfl
  simp only [readAll, get_eq hb.layout.len_le, Mem.ok_bind, mapM_ok hread]
  refine congrArg _ (ext_getElem ?_ fun i _ hi => ?_)
  · rw [length_map, length_range, hlength]
  · rw [getElem_map, getElem_range, getD_eq_getElem?_getD,
      getElem?_eq_getElem hi]
    rfl

/-! ### Histories on plain lists -/

namespace History

/-- The last call was not refused. -/
def accepted (h : History) : Bool :=
  match h.call with
  | .ok (.ok, _) => true
  | _ => false

/-- The list that a history makes of plain lists.  Which calls are refused is taken from the
history; a plain list has no capacity. -/
def Plain : History → List Datum → Prop
  | place _ _ _, l => l = []
  | allocate _ _ _ _, l => l = []
  | add h ops tag data dataCount, l => ∃ l', h.Plain l' ∧
    if (add h ops tag data dataCount).accepted then
      ∃ d type, data = some d ∧ getCameraMetadataTagType ops tag.toNat = (type : ℕ) ∧
        l = l' ++ [⟨tag.toNat, type, dataCount.toNat, d.take (dataCount.toNat * sizeOfType type)⟩]
    else l = l'
  | update h index data dataCount updatedEntry, l => ∃ l', h.Plain l' ∧
    if (update h index data dataCount updatedEntry).accepted then
      ∃ x, l'[index.toNat]? = some x ∧ l = l'.set index.toNat
        ⟨x.tag, x.type, dataCount.toNat, data.take (dataCount.toNat * sizeOfType x.type)⟩
    else l = l'
  | delete h index, l => ∃ l', h.Plain l' ∧
    if (delete h index).accepted then
      index.toNat < l'.length ∧ l = l'.eraseIdx index.toNat
    else l = l'
  | append h src, l => ∃ l', h.Plain l' ∧
    if (append h src).accepted then ∃ k, src.Plain k ∧ l = l' ++ k else l = l'
  | sort h qsort, l => ∃ l', h.Plain l' ∧
    if (sort h qsort).accepted then l.Perm l' ∧ l.Pairwise fun x y => x.tag ≤ y.tag else l = l'
  | copy _ src, l => src.Plain l
  | clone _ _ src, l => src.Plain l

/-- The byte size of the value array of the call does not overflow. -/
def NoOverflow : History → Prop
  | add _ ops tag _ dataCount => ∀ type : ℕ, getCameraMetadataTagType ops tag.toNat = type →
    dataCount.toNat * sizeOfType type < 2 ^ 32
  | update h index _ dataCount _ => ∀ b ∈ h.result, ∀ e,
    (packet b).entries[index.toNat]? = some e → dataCount.toNat * sizeOfType e.type < 2 ^ 32
  | _ => True

/-- A packet that is to be sorted and is marked as sorted is in tag order. -/
def MarkTrusted : History → Prop
  | sort h _ => ∀ b ∈ h.result, isSorted (hdr b .flags) = true → (packet b).Ordered
  | _ => True

theorem accepted_of_call {r : Option Buffer} (hc : h.call = .ok (.ok, r)) : h.accepted = true := by
  rw [accepted, hc]

/-- A refused call does nothing to the list. -/
theorem Plain.refused {h' : History} {l : List Datum} (hl : h.Plain l)
    (hr : h'.receiver = some h) {r : Option Buffer} (hc : h'.call = .ok (.error, r)) :
    h'.Plain l := by
  have hrefused : ¬ h'.accepted = true := by
    rw [accepted, hc]
    exact Bool.false_ne_true
  cases h' <;> cases hr <;> exact ⟨l, hl, by rw [if_neg hrefused]⟩

end History

theorem Reaches.fits (hr : Reaches h b) (hc : h.Calls History.NoOverflow) :
    ∀ x ∈ (packet b).contents, x.Fits := by
  induction hr with
  | place _ hnew | allocate _ hnew => rw [hnew]; exact fun x hx => absurd hx not_mem_nil
  | refused _ hrec _ ih => exact ih (hc.receiver hrec)
  | add _ _ _ _ hknown _ _ _ _ hcont ih =>
    intro x hx
    rw [hcont, mem_append, mem_singleton] at hx
    rcases hx with hx | rfl
    · exact ih hc.1 x hx
    · exact hc.2 _ hknown
  | update _ _ hres _ he _ _ _ _ hcont ih =>
    intro x hx
    rw [hcont] at hx
    rcases mem_or_eq_of_mem_set hx with hx | rfl
    · exact ih hc.1 x hx
    · exact hc.2 _ hres _ he
  | delete _ _ _ _ _ _ _ hcont ih =>
    intro x hx
    rw [hcont] at hx
    exact ih hc.1 x (mem_of_mem_eraseIdx hx)
  | append _ _ _ _ _ _ _ _ hcont ih ih' =>
    intro x hx
    rw [hcont, mem_append] at hx
    exact hx.elim (ih hc.1 x) (ih' hc.2.1 x)
  | sorted _ _ _ _ ih => exact ih hc.1
  | sort _ _ _ _ _ _ _ hcont ih => exact fun x hx => ih hc.1 x (hcont.mem_iff.mp hx)
  | copy _ _ hnew _ ih => rw [hnew]; exact ih hc.1
  | clone _ _ _ hcont _ ih => rw [hcont]; exact ih hc.1

theorem Packet.Ordered.contents {p : Packet} (hp : p.Ordered) :
    p.contents.Pairwise fun x y => x.tag ≤ y.tag :=
  pairwise_map.mpr hp

theorem Reaches.plain (hr : Reaches h b) (ho : h.Calls History.NoOverflow)
    (ht : h.Calls History.MarkTrusted) : h.Plain (packet b).contents := by
  induction hr with
  | place _ hnew | allocate _ hnew => rw [hnew]; rfl
  | refused _ hrec hcall ih => exact (ih (ho.receiver hrec) (ht.receiver hrec)).refused hrec hcall
  | add _ _ _ hcall hknown _ _ _ _ hcont ih =>
    refine ⟨_, ih ho.1 ht.1, ?_⟩
    rw [if_pos (History.accepted_of_call hcall)]
    refine ⟨_, _, rfl, hknown, ?_⟩
    rw [hcont, payloadSize, u32_of_lt (ho.2 _ hknown)]
  | @update h b b' index _ _ _ e _ _ hres hcall he _ _ _ _ hcont ih =>
    refine ⟨_, ih ho.1 ht.1, ?_⟩
    rw [if_pos (History.accepted_of_call hcall)]
    have hx : (packet b).contents[index.toNat]? = some (e.datum (packet b).data) := by
      rw [Packet.contents, getElem?_map, he]
      rfl
    refine ⟨_, hx, ?_⟩
    rw [hcont, payloadSize, u32_of_lt (ho.2 _ hres _ he)]
    rfl
  | delete _ _ hcall he _ _ _ hcont ih =>
    refine ⟨_, ih ho.1 ht.1, ?_⟩
    rw [if_pos (History.accepted_of_call hcall)]
    refine ⟨?_, hcont⟩
    rw [Packet.contents, length_map]
    exact (List.getElem?_eq_some_iff.mp he).1
  | append _ _ _ _ hcall _ _ _ hcont ih ih' =>
    refine ⟨_, ih ho.1 ht.1, ?_⟩
    rw [if_pos (History.accepted_of_call hcall)]
    exact ⟨_, ih' ho.2.1 ht.2.1, hcont⟩
  | sorted _ hres hcall hflag ih =>
    refine ⟨_, ih ho.1 ht.1, ?_⟩
    rw [if_pos (History.accepted_of_call hcall)]
    exact ⟨.refl _, (ht.2 _ hres hflag).contents⟩
  | sort _ _ hcall _ _ _ hord hcont ih =>
    refine ⟨_, ih ho.1 ht.1, ?_⟩
    rw [if_pos (History.accepted_of_call hcall)]
    exact ⟨hcont, hord.contents⟩
  | copy _ _ hnew _ ih => rw [hnew]; exact ih ho.1 ht.1
  | clone _ _ _ hcont _ ih => rw [hcont]; exact ih ho.1 ht.1

/-- **A packet is a list**: a history without overflow in which nothing wraps, and in which no
packet with a stale mark is sorted, comes to an end, and what is read from its packet is what it
makes of a plain list. -/
theorem readAll_plain (h : History) (hv : h.Calls History.ValuesGiven)
    (ho : h.Calls History.NoOverflow) (hw : h.Calls History.NoWrap)
    (ht : h.Calls History.MarkTrusted) :
    (h.Calls History.NoCopy → ∃ r, h.call = .ok r) ∧
      ∀ b ∈ h.result, ∃ l, h.Plain l ∧ readAll b = .ok l := by
  refine ⟨call_ok hv hw, fun b hb => ?_⟩
  have hr := reaches hv hw hb
  exact ⟨_, hr.plain ho ht, readAll_eq hr.sound (hr.fits ho)⟩

theorem History.noOverflow_add {ops : Option VendorTagOps} {tag n : UInt32}
    {d : Option (List UInt8)} (type : ℕ) (hknown : getCameraMetadataTagType ops tag.toNat = type)
    (hn : n.toNat * sizeOfType type < 2 ^ 32) : NoOverflow (.add h ops tag d n) := by
  intro type' ht'
  have : type' = type := Int.natCast_inj.mp (ht'.symm.trans hknown)
  exact this ▸ hn

theorem readAll_edited : ∃ b, edited.result = some b ∧
    readAll b = .ok [⟨2, 2, 2, [0, 0, 64, 64, 0, 0, 128, 64]⟩, ⟨2, 2, 1, [0, 0, 128, 63]⟩,
      ⟨0, 0, 1, [1]⟩] ∧
    edited.Plain [⟨2, 2, 2, [0, 0, 64, 64, 0, 0, 128, 64]⟩, ⟨2, 2, 1, [0, 0, 128, 63]⟩,
      ⟨0, 0, 1, [1]⟩] := by
  have hrun : edited.result.map (fun b => (readAll b).toOption) =
      some (some [⟨2, 2, 2, [0, 0, 64, 64, 0, 0, 128, 64]⟩, ⟨2, 2, 1, [0, 0, 128, 63]⟩,
        ⟨0, 0, 1, [1]⟩]) := by decide +kernel
  obtain ⟨b, hb, hread⟩ := map_eq_some_iff.mp hrun
  have hover : edited.Calls NoOverflow :=
    ⟨⟨⟨⟨trivial, noOverflow_add 2 (by decide) (by decide)⟩,
      noOverflow_add 2 (by decide) (by decide)⟩, trivial⟩,
      ⟨⟨trivial, noOverflow_add 2 (by decide) (by decide)⟩,
        noOverflow_add 0 (by decide) (by decide)⟩, trivial⟩
  have htrusted : edited.Calls MarkTrusted :=
    ⟨⟨⟨⟨trivial, trivial⟩, trivial⟩, trivial⟩, ⟨⟨trivial, trivial⟩, trivial⟩, trivial⟩
  obtain ⟨l, hplain, hl⟩ :=
    (readAll_plain edited edited_valuesGiven hover edited_noWrap htrusted).2 b hb
  rw [hl] at hread
  obtain rfl := some_inj.mp hread
  exact ⟨b, hb, hl, hplain⟩

/-- The first entry before and after its first value alone is made its values, with the pointer
that `get_camera_metadata_entry` gives. -/
def keepFirstValue (b : Buffer) : Except Fault (Datum × Datum) := do
  let (_, some ref) ← getCameraMetadataEntry b 0 | .error .nullDeref
  let (_, b', _) ← updateCameraMetadataEntry b 0 (.inside ref.data) 1 false
  return (← readEntry b 0, ← readEntry b' 0)

/-- The packet of `staleMark` is not sorted by `sort_camera_metadata`; and an update with values of
the packet itself finds others in their place. -/
theorem staleMark_sorted_not_plain :
    (History.sort staleMark insertionQsort).Calls History.ValuesGiven ∧
      (History.sort staleMark insertionQsort).Calls History.NoOverflow ∧
      (History.sort staleMark insertionQsort).Calls History.NoCopy ∧
      ∃ b, (History.sort staleMark insertionQsort).result = some b ∧
        (¬ ∃ l, (History.sort staleMark insertionQsort).Plain l ∧ readAll b = .ok l) ∧
        fourFloats.result.map (fun b => (keepFirstValue b).toOption) =
          some (some (⟨2, 2, 2, [0, 0, 128, 63, 0, 0, 0, 64]⟩, ⟨2, 2, 1, [0, 0, 64, 64]⟩)) := by
  have hrun : (History.sort staleMark insertionQsort).result.map (fun b => (readAll b).toOption) =
      some (some [⟨2, 2, 1, [0, 0, 128, 63]⟩, ⟨0, 0, 1, [1]⟩]) := by decide +kernel
  have hacc : (History.sort staleMark insertionQsort).accepted = true := by decide +kernel
  obtain ⟨b, hb, hread⟩ := map_eq_some_iff.mp hrun
  refine ⟨⟨⟨⟨trivial, trivial⟩, twoTags_valuesGiven, trivial⟩, trivial⟩,
    ⟨⟨⟨trivial, trivial⟩, ⟨⟨trivial, noOverflow_add 2 (by decide) (by decide)⟩,
      noOverflow_add 0 (by decide) (by decide)⟩, trivial⟩, trivial⟩,
    ⟨⟨⟨trivial, trivial⟩, ⟨⟨trivial, trivial⟩, trivial⟩, trivial⟩, trivial⟩, b, hb, ?_,
    by decide +kernel⟩
  rintro ⟨l, ⟨l', -, hl'⟩, hl⟩
  rw [hl] at hread
  obtain rfl := some_inj.mp hread
  exact absurd hl'.2 (by decide)

end Camera
