/-
Invariants of reachable packets.

What every packet of a history has, by induction on what the calls did (`Reaches`):

* `packed_of_noWrap` — the entries and the data fit the capacities, and the parts of
  the data area that the entries take are apart, aligned and leave no hole;
* `honest_of_ordered_appends` — if the packet is marked as sorted, its entries are in
  tag order, and `find_camera_metadata_entry` finds every tag that is there;
* `copies_iff` — copies and clones are faithful if the packet has entries.

None holds of all packets.  A capacity whose size wraps is accepted by
`place_camera_metadata`, which then puts records and data into the same bytes
(`wrappedCapacity`).  A packet that was sorted while it was empty keeps its mark when
an unsorted packet is appended to it (`staleMark`).
-/
import AndroidSystem.Camera.History

open CInt Tiling List
open Mem (Fault)

namespace Camera

open Packet History

variable {b s src : Buffer} {p q : Packet} {e : Entry} {h : History} {i : ℕ}

/-! ### Packing -/

/-- What is in use fits the capacities, and the data of the entries tiles the data area. -/
structure Packed (b : Buffer) : Prop where
  entries : hdr b .entryCount ≤ hdr b .entryCapacity
  data : hdr b .dataCount ≤ hdr b .dataCapacity
  disjoint : (rangesOf (packet b).entries).Pairwise Apart
  aligned : ∀ r ∈ rangesOf (packet b).entries, dataAlignment ∣ r.1
  covered : ∀ x, x < hdr b .dataCount ↔ ∃ r ∈ rangesOf (packet b).entries, r.1 ≤ x ∧ x < r.1 + r.2

theorem Sound.packed (hb : Sound b) : Packed b := by
  have htiles := hb.inv.tiles
  refine ⟨hb.entries, hb.data, htiles.pairwise, htiles.dvd ?_, ?_⟩
  · intro r hr
    obtain ⟨e, he, rfl⟩ := mem_map.mp hr
    exact (hb.inv.good e (mem_of_mem_filter he)).dvd_dataSize
  · rw [hdr_dataCount]
    exact htiles.mem_iff

/-- **Packing**: a history whose sizes do not wrap comes to an end, and leads to a packet whose data
is packed. -/
theorem packed_of_noWrap (h : History) (hv : h.Calls History.ValuesGiven)
    (hw : h.Calls History.NoWrap) :
    (h.Calls History.NoCopy → ∃ r, h.call = .ok r) ∧ ∀ b ∈ h.result, Packed b :=
  ⟨History.call_ok hv hw, fun _ hb => (History.reaches hv hw hb).sound.packed⟩

variable {ops : Option VendorTagOps} {tag n : UInt32} (type : ℕ)
  (ht : getCameraMetadataTagType ops tag.toNat = type)

include ht in
theorem History.valuesGiven_add {d : List UInt8} (hd : payloadSize type n.toNat ≤ d.length) :
    ValuesGiven (.add h ops tag (some d) n) := by
  intro type' ht' d' hd'
  cases hd'
  have : type' = type := Int.natCast_inj.mp (ht'.symm.trans ht)
  exact this ▸ hd

include ht in
theorem History.noWrap_add {d : Option (List UInt8)}
    (hr : h.result.all fun b => hdr b .dataCount + roundedSize type n.toNat < 2 ^ 32) :
    NoWrap (.add h ops tag d n) := by
  intro b hb type' ht'
  have : type' = type := Int.natCast_inj.mp (ht'.symm.trans ht)
  rw [this]
  exact of_decide_eq_true (Option.all_eq_true _ _ |>.mp hr b hb)

/-- Two arrays of rationals, of which the first is deleted. -/
def deletedRationals : History :=
  .delete (.add (.add (.allocate 8 (fun _ => 0) 4 32) none 1 (some (List.replicate 16 1)) 2)
    none 1 (some (List.replicate 8 2)) 1) 0

theorem deletedRationals_packed : ∃ b, deletedRationals.result = some b ∧ Packed b ∧
    hdr b .dataCount = 8 := by
  have hrun : deletedRationals.result.map (hdr · .dataCount) = some 8 := by decide +kernel
  obtain ⟨b, hb, hcount⟩ := Option.map_eq_some_iff.mp hrun
  refine ⟨b, hb, (packed_of_noWrap deletedRationals ?_ ?_).2 b hb, hcount⟩
  · exact ⟨⟨⟨trivial, valuesGiven_add 5 (by decide) (by decide)⟩,
      valuesGiven_add 5 (by decide) (by decide)⟩, trivial⟩
  · exact ⟨⟨⟨show dataStartFor _ + _ < _ by decide,
      noWrap_add 5 (by decide) (by decide +kernel)⟩,
      noWrap_add 5 (by decide) (by decide +kernel)⟩, trivial⟩

/-- A packet for `2 ^ 28` entries, the size of which wraps to that of a packet without entries. -/
def wrappedCapacity : History :=
  .add (.place (some ⟨8, 104, fun _ => 0⟩) 0x10000000 64) none 1 (some (List.replicate 16 255)) 2

/-- The values are written over the record of the entry, and the data belongs to no entry. -/
theorem wrappedCapacity_not_packed : wrappedCapacity.Calls History.ValuesGiven ∧
    wrappedCapacity.Calls History.NoCopy ∧ ∃ b, wrappedCapacity.result = some b ∧ ¬ Packed b := by
  have hrun : wrappedCapacity.result.map
      (fun b => (hdr b .dataCount, rangesOf (packet b).entries)) = some (16, []) := by
    decide +kernel
  obtain ⟨b, hb, hp⟩ := Option.map_eq_some_iff.mp hrun
  obtain ⟨hcount, hranges⟩ := Prod.mk.inj hp
  refine ⟨⟨trivial, valuesGiven_add 5 (by decide) (by decide)⟩, ⟨trivial, trivial⟩, b, hb,
    fun hpacked => ?_⟩
  obtain ⟨r, hr, -⟩ := (hpacked.covered 0).mp (by omega)
  rw [hranges] at hr
  exact absurd hr not_mem_nil

/-! ### The mark of a sorted packet -/

/-- The tags of a packet. -/
def Packet.tags (p : Packet) : List ℕ := p.entries.map Entry.tag

/-- A packet that is marked as sorted is sorted. -/
def Packet.Honest (p : Packet) : Prop := isSorted p.flags = true → p.Ordered

theorem Packet.ordered_iff : p.Ordered ↔ p.tags.Pairwise (· ≤ ·) := pairwise_map.symm

theorem isSorted_clearSorted (flags : ℕ) : isSorted (clearSorted flags) = false := by
  have hmask : clearSorted flags &&& flagSorted = 0 := by
    rw [clearSorted, Nat.and_assoc, show (2 ^ 32 - 1 - flagSorted) &&& flagSorted = 0 by decide,
      Nat.and_zero]
  rw [isSorted, hmask]
  rfl

theorem Packet.tags_cut (p : Packet) (o n : ℕ) : (p.cut o n).tags = p.tags := by
  rw [tags, cut, map_map]
  exact map_congr_left fun x _ => x.lower_tag o n

theorem map_tag_set {l : List Entry} {x : Entry} (he : (l.map Entry.tag)[i]? = some x.tag) :
    (l.set i x).map Entry.tag = l.map Entry.tag := by
  obtain ⟨hi, htag⟩ := List.getElem?_eq_some_iff.mp he
  rw [map_set, ← htag, set_getElem_self]

/-- An update changes neither the tags nor the flags. -/
theorem Packet.tags_update (count : ℕ) (payload pad : List UInt8) (he : p.entries[i]? = some e) :
    (p.update i count payload pad).tags = p.tags ∧
      (p.update i count payload pad).flags = p.flags := by
  have htag : p.tags[i]? = some e.tag := by rw [tags, getElem?_map, he]; rfl
  have hset : ∀ x : Entry, x.tag = e.tag → (p.entries.set i x).map Entry.tag = p.tags :=
    fun x hx => map_tag_set (hx ▸ htag)
  have hcut : ∀ x : Entry, x.tag = e.tag →
      ((p.cut e.offset e.dataSize).entries.set i x).map Entry.tag = p.tags := by
    intro x hx
    rw [← p.tags_cut e.offset e.dataSize] at htag ⊢
    exact map_tag_set (hx ▸ htag)
  simp only [Packet.update, he]
  split_ifs
  · exact ⟨hset _ rfl, rfl⟩
  · exact ⟨hcut _ rfl, rfl⟩
  · exact ⟨hcut _ rfl, rfl⟩
  · exact ⟨hset _ rfl, rfl⟩
  · exact ⟨hset _ rfl, rfl⟩

theorem Packet.tags_delete (he : p.entries[i]? = some e) :
    (p.delete i).tags = p.tags.eraseIdx i ∧ (p.delete i).flags = p.flags := by
  simp only [Packet.delete, he]
  split_ifs
  · refine ⟨?_, rfl⟩
    rw [← p.tags_cut e.offset e.dataSize]
    exact (eraseIdx_map _ _ _).symm
  · exact ⟨(eraseIdx_map _ _ _).symm, rfl⟩

theorem Packet.tags_append (p q : Packet) : (p.append q).tags = p.tags ++ q.tags := by
  have hraise : (q.entries.map (Entry.raise p.data.length)).map Entry.tag = q.tags := by
    rw [map_map]
    refine map_congr_left fun x _ => ?_
    simp only [Function.comp_apply, Entry.raise]
    split <;> rfl
  rw [tags, Packet.append, map_append]
  split_ifs
  · rw [hraise]
    rfl
  · rfl

/-- An append keeps the mark honest, unless an unsorted packet comes behind a packet without entries
that has the mark. -/
theorem Packet.Honest.append (hp : p.Honest) (hq : q.Honest)
    (hpq : p.entries = [] → isSorted p.flags = true → q.Ordered) : (p.append q).Honest := by
  intro hflag
  rw [ordered_iff, tags_append]
  by_cases hnil : p.entries = []
  · -- the mark is set if one of the two had it
    have hflags : (p.append q).flags = p.flags ||| (q.flags &&& flagSorted) := by
      simp only [Packet.append, hnil, length_nil, if_true]
    have htags : p.tags = [] := by rw [tags, hnil]; rfl
    rw [htags, nil_append, ← ordered_iff]
    by_cases hp' : isSorted p.flags = true
    · exact hpq hnil hp'
    · refine hq ?_
      rw [isSorted, bne_iff_ne, not_not] at hp'
      rw [hflags, isSorted, Nat.and_or_distrib_right, hp', Nat.zero_or, Nat.and_assoc,
        Nat.and_self] at hflag
      exact hflag
  · have hlen : p.entries.length ≠ 0 := fun h0 => hnil (length_eq_zero_iff.mp h0)
    by_cases hsrc : q.entries.length = 0
    · have hflags : (p.append q).flags = p.flags := by
        simp only [Packet.append, if_neg hlen, hsrc, ne_eq, not_true, if_false]
      have htags : q.tags = [] := by rw [tags, length_eq_zero_iff.mp hsrc]; rfl
      rw [hflags] at hflag
      rw [htags, append_nil, ← ordered_iff]
      exact hp hflag
    · have hflags : (p.append q).flags = clearSorted p.flags := by
        simp only [Packet.append, if_neg hlen, ne_eq, hsrc, not_false_eq_true, if_true]
      rw [hflags, isSorted_clearSorted] at hflag
      cases hflag

/-- The condition on a call that keeps the mark honest: what is appended to a marked packet without
entries is in tag order. -/
def History.OrderedAppend : History → Prop
  | .append h src => ∀ b ∈ h.result, ∀ s ∈ src.result, (packet b).entries = [] →
    isSorted (packet b).flags = true → (packet s).Ordered
  | _ => True

theorem Reaches.honest (hr : Reaches h b) (hc : h.Calls History.OrderedAppend) :
    (packet b).Honest := by
  have hempty : (⟨0, [], []⟩ : Packet).Honest := fun _ => .nil
  induction hr with
  | place _ hnew | allocate _ hnew => exact hnew ▸ hempty
  | refused _ hrec _ ih => exact ih (hc.receiver hrec)
  | add pad _ _ _ _ _ _ _ hnew =>
    intro hflag
    rw [hnew, Packet.add, isSorted_clearSorted] at hflag
    cases hflag
  | update pad _ _ _ he _ _ _ hnew _ ih =>
    intro hflag
    obtain ⟨htags, hflags⟩ := tags_update _ _ pad he
    rw [hnew, hflags] at hflag
    rw [hnew, ordered_iff, htags, ← ordered_iff]
    exact ih hc.1 hflag
  | delete _ _ _ he _ _ hnew _ ih =>
    intro hflag
    obtain ⟨htags, hflags⟩ := tags_delete he
    rw [hnew, hflags] at hflag
    rw [hnew, ordered_iff, htags]
    exact (ordered_iff.mp (ih hc.1 hflag)).sublist (eraseIdx_sublist _ _)
  | append _ _ hres hres' _ _ _ hnew _ ih ih' =>
    rw [hnew]
    exact (ih hc.1).append (ih' hc.2.1) (hc.2.2 _ hres _ hres')
  | sorted _ _ _ _ ih => exact ih hc.1
  | sort _ _ _ _ _ _ hord => exact fun _ => hord
  | copy _ _ hnew _ ih => exact hnew ▸ ih hc.1
  | clone _ _ hnew _ _ ih => exact hnew ▸ hempty.append (ih hc.1) fun _ hf => by cases hf

/-! ### Finding a tag -/

theorem linearSearch_eq (hlen : 40 ≤ b.len)
    (hin : hdr b .entriesStart + 16 * hdr b .entryCount ≤ b.len) (tag : ℕ) (n k : ℕ)
    (hk : k + n = hdr b .entryCount) :
    ∃ r, linearSearch b tag n k = .ok r ∧
      (∀ j, r = some j → ∃ e, (packet b).entries[j]? = some e ∧ e.tag = tag) ∧
      (r = none → ∀ j, k ≤ j → ∀ e, (packet b).entries[j]? = some e → e.tag ≠ tag) := by
  induction n generalizing k with
  | zero =>
    refine ⟨none, rfl, fun j hj => (by cases hj), fun _ j hj e he => ?_⟩
    have := (entryAt_of_getElem? he).1
    omega
  | succ n ih =>
    have hk' : k < (packet b).entries.length := by
      rw [← hdr_entryCount]
      omega
    have he := getElem?_eq_getElem hk'
    have hload := loadEntry_of_getElem? he hin
    by_cases htag : (packet b).entries[k].tag = tag
    · refine ⟨some k, ?_, fun j hj => ?_, fun hr => by cases hr⟩
      · simp only [linearSearch, entryPtr_eq hlen, Mem.ok_bind, hload, if_pos htag]
        rfl
      · cases hj
        exact ⟨_, he, htag⟩
    · obtain ⟨r, hrun, hfound, hnone⟩ := ih (k + 1) (by omega)
      refine ⟨r, ?_, hfound, fun hr j hj e he' => ?_⟩
      · simp only [linearSearch, entryPtr_eq hlen, Mem.ok_bind, hload, if_neg htag, hrun]
      · rcases Nat.eq_or_lt_of_le hj with rfl | hlt
        · rw [he] at he'
          cases he'
          exact htag
        · exact hnone hr j hlt e he'

/-- **Finding a tag** in a packet with an honest mark. -/
theorem find_of_honest (hb : Sound b) (hh : (packet b).Honest) (bsearch : Bsearch) {tag : ℕ}
    (hmem : ∃ e ∈ (packet b).entries, e.tag = tag) :
    ∃ ref, findCameraMetadataEntry bsearch b tag = .ok (.ok, some ref) ∧ ref.tag = tag := by
  have hlen := hb.layout.len_le
  have hin := hb.layout.records_le
  obtain ⟨e, he, htag⟩ := hmem
  obtain ⟨k, hk⟩ := getElem?_of_mem he
  -- an index with the tag is read by `getCameraMetadataEntry`
  have hget : ∀ j e, (packet b).entries[j]? = some e → e.tag = tag → ∃ ref,
      getCameraMetadataEntry b j = .ok (.ok, some ref) ∧ ref.tag = tag :=
    fun j e hj ht => ⟨_, getCameraMetadataEntry_eq hlen hin hj (hb.good hj).type, ht⟩
  by_cases hflag : isSorted (hdr b .flags) = true
  · have hload := Buffer.load_of_inside (b := b) (o := hdr b .entriesStart)
      (n := 16 * hdr b .entryCount) (Or.inr hin)
    cases hrun : bsearch.run (packet b).entries tag with
    | none => exact absurd htag (bsearch.notFound (hh hflag) hrun e he)
    | some j =>
      obtain ⟨e', he', htag'⟩ := bsearch.found hrun
      obtain ⟨ref, href, htag''⟩ := hget j e' he' htag'
      refine ⟨ref, ?_, htag''⟩
      have hrun' : bsearch.run (entriesAt b.mem (hdr b .entriesStart) (hdr b .entryCount)) tag =
        some j := hrun
      simp only [findCameraMetadataEntry, get_eq hlen, Mem.ok_bind, if_pos hflag,
        entryPtr_zero hlen, recordSize, hload, hrun', pure_bind, href]
  · obtain ⟨r, hrun, hfound, hnone⟩ := linearSearch_eq hlen hin tag (hdr b .entryCount) 0 (by omega)
    cases r with
    | none => exact absurd htag (hnone rfl k (Nat.zero_le _) e hk)
    | some j =>
      obtain ⟨e', he', htag'⟩ := hfound j rfl
      obtain ⟨ref, href, htag''⟩ := hget j e' he' htag'
      refine ⟨ref, ?_, htag''⟩
      simp only [findCameraMetadataEntry, get_eq hlen, Mem.ok_bind, if_neg hflag, hrun, href]

/-- **The mark of a sorted packet** is honest, and every tag of the packet is found, if nothing
wraps and only packets in tag order are appended to marked packets without entries. -/
theorem honest_of_ordered_appends (h : History) (hv : h.Calls History.ValuesGiven)
    (hw : h.Calls History.NoWrap) (ha : h.Calls History.OrderedAppend) :
    ∀ b ∈ h.result, (isSorted (hdr b .flags) = true → (packet b).Ordered) ∧
      ∀ (bsearch : Bsearch) (tag : ℕ), (∃ e ∈ (packet b).entries, e.tag = tag) →
        ∃ ref, findCameraMetadataEntry bsearch b tag = .ok (.ok, some ref) ∧ ref.tag = tag := by
  intro b hb
  have hr := reaches hv hw hb
  have hhonest := hr.honest ha
  exact ⟨hhonest, fun bsearch tag => find_of_honest hr.sound hhonest bsearch⟩

/-- A `qsort` that inserts one record after the other. -/
def insertionQsort : Qsort where
  run := List.insertionSort fun r s => recordTag r ≤ recordTag s
  perm := List.perm_insertionSort _
  sorted l := by
    have : Std.Total fun r s : List UInt8 => recordTag r ≤ recordTag s :=
      ⟨fun r s => Nat.le_total _ _⟩
    have : IsTrans (List UInt8) fun r s => recordTag r ≤ recordTag s :=
      ⟨fun _ _ _ => Nat.le_trans⟩
    exact List.pairwise_insertionSort _ l

/-- A `bsearch` that finds nothing in an array that is not in tag order. -/
def orderedBsearch : Bsearch where
  run l tag := if l.Pairwise fun e f => e.tag ≤ f.tag then l.findIdx? (·.tag = tag) else none
  found {l tag i} hrun := by
    split_ifs at hrun
    obtain ⟨hi, htag, -⟩ := List.findIdx?_eq_some_iff_getElem.mp hrun
    exact ⟨_, List.getElem?_eq_getElem hi, of_decide_eq_true htag⟩
  notFound {l tag} hord hrun e he := by
    rw [if_pos hord, List.findIdx?_eq_none_iff] at hrun
    exact of_decide_eq_false (hrun e he)

/-- Two entries, the second with the smaller tag. -/
def twoTags : History :=
  .add (.add (.allocate 8 (fun _ => 0) 4 0) none 2 (some [0, 0, 128, 63]) 1) none 0 (some [1]) 1

theorem twoTags_valuesGiven : twoTags.Calls History.ValuesGiven :=
  ⟨⟨trivial, valuesGiven_add 2 (by decide) (by decide)⟩,
    valuesGiven_add 0 (by decide) (by decide)⟩

theorem twoTags_noWrap : twoTags.Calls History.NoWrap :=
  ⟨⟨show dataStartFor _ + _ < _ by decide, noWrap_add 2 (by decide) (by decide +kernel)⟩,
    noWrap_add 0 (by decide) (by decide +kernel)⟩

/-- Two entries of two floats each, 1 and 2 and then 3 and 4. -/
def fourFloats : History :=
  .add (.add (.allocate 8 (fun _ => 0) 4 64) none 2 (some [0, 0, 128, 63, 0, 0, 0, 64]) 2) none 2
    (some [0, 0, 64, 64, 0, 0, 128, 64]) 2

/-- The first of the two entries is deleted, and two more are appended. -/
def edited : History := .append (.delete fourFloats 0) twoTags

theorem edited_valuesGiven : edited.Calls History.ValuesGiven :=
  ⟨⟨⟨⟨trivial, valuesGiven_add 2 (by decide) (by decide)⟩,
    valuesGiven_add 2 (by decide) (by decide)⟩, trivial⟩, twoTags_valuesGiven, trivial⟩

theorem edited_noWrap : edited.Calls History.NoWrap := by
  have hsmall : (History.delete fourFloats 0).result.all (fun b => hdr b .dataCount < 2 ^ 31) ∧
      twoTags.result.all (fun b => hdr b .dataCount < 2 ^ 31) := by decide +kernel
  refine ⟨⟨⟨⟨show dataStartFor _ + _ < _ by decide, noWrap_add 2 (by decide) (by decide +kernel)⟩,
    noWrap_add 2 (by decide) (by decide +kernel)⟩, trivial⟩, twoTags_noWrap, fun b hb s hs => ?_⟩
  rw [hb, hs] at hsmall
  have hb' := of_decide_eq_true hsmall.1
  have hs' := of_decide_eq_true hsmall.2
  omega

theorem sorted_twoTags_honest : ∃ b, (History.sort twoTags insertionQsort).result = some b ∧
    (packet b).tags = [0, 2] ∧
    ∃ ref, findCameraMetadataEntry orderedBsearch b 2 = .ok (.ok, some ref) ∧ ref.tag = 2 := by
  have hrun : (History.sort twoTags insertionQsort).result.map (fun b => (packet b).tags) =
      some [0, 2] := by decide +kernel
  obtain ⟨b, hb, htags⟩ := Option.map_eq_some_iff.mp hrun
  have hmem : 2 ∈ (packet b).tags := by rw [htags]; decide
  have hhonest := honest_of_ordered_appends (.sort twoTags insertionQsort)
    ⟨twoTags_valuesGiven, trivial⟩ ⟨twoTags_noWrap, trivial⟩
    ⟨⟨⟨trivial, trivial⟩, trivial⟩, trivial⟩ b hb
  exact ⟨b, hb, htags, hhonest.2 orderedBsearch 2 (mem_map.mp hmem)⟩

/-- A packet that was sorted before it had entries, and then got the two entries. -/
def staleMark : History :=
  .append (.sort (.allocate 8 (fun _ => 0) 4 0) insertionQsort) twoTags

/-- The packet is marked as sorted, its entries are not in tag order, and a tag is not found. -/
theorem staleMark_not_honest : staleMark.Calls History.ValuesGiven ∧
    ∃ b, staleMark.result = some b ∧ isSorted (hdr b .flags) = true ∧ ¬ (packet b).Ordered ∧
      (∃ e ∈ (packet b).entries, e.tag = 2) ∧
      findCameraMetadataEntry orderedBsearch b 2 = .ok (.notFound, none) := by
  have hrun : staleMark.result.map (fun b => (isSorted (hdr b .flags), (packet b).tags,
      (findCameraMetadataEntry orderedBsearch b 2).toOption)) =
      some (true, [2, 0], some (.notFound, none)) := by decide +kernel
  obtain ⟨b, hb, hp⟩ := Option.map_eq_some_iff.mp hrun
  obtain ⟨hflag, hp'⟩ := Prod.mk.inj hp
  obtain ⟨htags, hfind⟩ := Prod.mk.inj hp'
  have hmem : 2 ∈ (packet b).tags := by rw [htags]; decide
  refine ⟨⟨⟨trivial, trivial⟩, twoTags_valuesGiven, trivial⟩, b, hb, hflag, ?_,
    mem_map.mp hmem, ?_⟩
  · rw [ordered_iff, htags]
    decide
  · cases hrun : findCameraMetadataEntry orderedBsearch b 2 with
    | error f => rw [hrun] at hfind; cases hfind
    | ok r => rw [hrun] at hfind; exact congrArg _ (Option.some_inj.mp hfind)

/-! ### Copies -/

/-- A packet without room to spare, with the mark and the values of another. -/
structure Faithful (src b : Buffer) : Prop where
  entries : hdr b .entryCount = hdr b .entryCapacity
  data : hdr b .dataCount = hdr b .dataCapacity
  sorted : isSorted (hdr b .flags) = isSorted (hdr src .flags)
  contents : (packet b).contents = (packet src).contents

theorem isSorted_append_empty (p : Packet) :
    isSorted ((⟨0, [], []⟩ : Packet).append p).flags = isSorted p.flags := by
  change isSorted (0 ||| p.flags &&& flagSorted) = isSorted p.flags
  rw [isSorted, Nat.zero_or, Nat.and_assoc, Nat.and_self, isSorted]

theorem Sound.copied (hs : Sound src) (hpos : 0 < hdr src .entryCount) {d : Buffer}
    (hlen : dataStartFor (hdr src .entryCount) + hdr src .dataCount ≤ d.len) :
    ∃ b, copyCameraMetadata (some d) src = .ok (some b) ∧ Faithful src b := by
  obtain ⟨b, hrun, -, -, hec, hdc, hp⟩ := copyCameraMetadata_eq hs.layout hpos hs.compact hlen
  exact ⟨b, hrun, by rw [hec, hdr_entryCount, hdr_entryCount, hp],
    by rw [hdc, hdr_dataCount, hdr_dataCount, hp],
    congrArg (fun p => isSorted p.flags) hp, by rw [hp]⟩

theorem Sound.cloned (hs : Sound src) (hpos : 0 < hdr src .entryCount) (addr : ℕ) (garbage : Mem) :
    ∃ b, cloneCameraMetadata addr garbage src = .ok (some b) ∧ Faithful src b := by
  obtain ⟨b, hrun, -, -, hec, hdc, hp⟩ :=
    cloneCameraMetadata_eq hs.layout hpos hs.compact addr garbage
  obtain ⟨-, hcont⟩ := (Packet.Inv.empty 0).append hs.inv (by
    rw [length_nil, Nat.zero_add]
    exact hs.inv.small)
  have hflag := isSorted_append_empty (packet src)
  rw [← hp] at hcont hflag
  refine ⟨b, hrun, ?_, ?_, hflag, hcont⟩
  · rw [hec, hdr_entryCount, hdr_entryCount, hp]
    rfl
  · rw [hdc, hdr_dataCount, hdr_dataCount, hp]
    rfl

/-- **Copies are faithful** for packets that have entries, and for those only. -/
theorem copies_iff (h : History) (hv : h.Calls History.ValuesGiven) (hw : h.Calls History.NoWrap)
    (hsrc : h.result = some src) (d : Buffer)
    (hd : ∃ n ≤ d.len, getCameraMetadataCompactSize src = .ok n) (addr : ℕ) (garbage : Mem) :
    ((∃ b, copyCameraMetadata (some d) src = .ok (some b) ∧ Faithful src b) ∧
      ∃ b, cloneCameraMetadata addr garbage src = .ok (some b) ∧ Faithful src b) ↔
      (packet src).entries ≠ [] := by
  have hs := (reaches hv hw hsrc).sound
  rw [← length_pos_iff, ← hdr_entryCount]
  constructor
  · rintro ⟨-, b, hrun, -⟩
    by_contra h0
    rw [cloneCameraMetadata_empty hs.layout (Nat.eq_zero_of_not_pos h0)] at hrun
    cases hrun
  · intro hpos
    obtain ⟨n, hn, hsize⟩ := hd
    cases (getCameraMetadataCompactSize_eq hs.layout.len_le).symm.trans hsize
    rw [calculateCameraMetadataSize_eq hs.compact] at hn
    exact ⟨hs.copied hpos hn, hs.cloned hpos addr garbage⟩

theorem copies_twoTags : ∃ src, twoTags.result = some src ∧
    (∃ b, copyCameraMetadata (some ⟨8, 80, fun _ => 0⟩) src = .ok (some b) ∧ Faithful src b) ∧
    ∃ b, cloneCameraMetadata 8 (fun _ => 0) src = .ok (some b) ∧ Faithful src b := by
  have hrun : twoTags.result.map (fun b => ((packet b).tags,
      (getCameraMetadataCompactSize b).toOption)) = some ([2, 0], some 72) := by decide +kernel
  obtain ⟨src, hsrc, hp⟩ := Option.map_eq_some_iff.mp hrun
  obtain ⟨htags, hsize⟩ := Prod.mk.inj hp
  refine ⟨src, hsrc, (copies_iff twoTags twoTags_valuesGiven twoTags_noWrap hsrc _ ?_ _ _).mpr ?_⟩
  · cases hn : getCameraMetadataCompactSize src with
    | error f => rw [hn] at hsize; cases hsize
    | ok n => rw [hn] at hsize; cases hsize; exact ⟨72, by decide, rfl⟩
  · intro hnil
    rw [tags, hnil] at htags
    cases htags

/-- **A packet without entries** cannot be copied: `NULL` is used as a packet. -/
theorem copy_empty_null : ((History.allocate 8 (fun _ => 0) 1 0).result.map fun src =>
    (copyCameraMetadata (some ⟨64, 64, fun _ => 0⟩) src matches .error .nullDeref,
      cloneCameraMetadata 128 (fun _ => 0) src matches .ok none)) = some (true, true) := by
  decide +kernel

end Camera
