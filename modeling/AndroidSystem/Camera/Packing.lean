/-
The packing of a packet, and the list of entries it stands for.

`Packet.Inv` is the invariant of the packet: every entry is of a known type and
size (`Entry.Good`), and the parts of the data area that the entries take tile it.
`Packet.contents` is what a packet is for, the list of its tags, types and values.
Every operation on packets keeps the invariant and does to the contents what its
name says:

* `Packet.Inv.add` — appends;
* `Packet.Inv.delete` — removes a position;
* `Packet.Inv.update` — replaces the values at a position;
* `Packet.Inv.append` — concatenates;
* `Packet.Inv.perm` — permutes.

Both rest on two steps: the data of an entry leaves the data area
(`Packet.Inv.detach`), and values are stored for an entry (`attach`).
-/
import AndroidSystem.Tiling
import AndroidSystem.Camera.PacketWhole

open CInt Tiling List

namespace Camera

open Entry Packet

/-! ### Entries -/

/-- An entry of a known type, with values whose rounded size does not wrap. -/
structure Entry.Good (e : Entry) : Prop where
  data : e.data.length = 4
  type : e.type < 6
  size : roundedSize e.type e.count < 2 ^ 32

/-- The size of the values of an entry. -/
def Entry.bytes (e : Entry) : ℕ := payloadSize e.type e.count

/-- The values of an entry, in a packet with the data area `d`. -/
def Entry.valuesIn (d : List UInt8) (e : Entry) : List UInt8 :=
  if e.bytes ≤ 4 then e.data.take e.bytes else (d.drop e.offset).take e.bytes

/-- The part of the data area that an entry takes. -/
def Entry.range (e : Entry) : ℕ × ℕ := (e.offset, e.dataSize)

/-- The parts of the data area that are taken. -/
def rangesOf (l : List Entry) : List (ℕ × ℕ) :=
  (l.filter fun e => decide (0 < e.dataSize)).map Entry.range

variable {e : Entry} {l l₁ l₂ : List Entry} {d : List UInt8} {o n : ℕ}

theorem Entry.Good.dataSize_eq (h : e.Good) :
    e.dataSize = if e.bytes ≤ 4 then 0 else roundedSize e.type e.count :=
  calculateCameraMetadataEntryDataSize_eq h.type h.size

theorem Entry.Good.dataSize_pos_iff (h : e.Good) : 0 < e.dataSize ↔ 4 < e.bytes := by
  rw [h.dataSize_eq, roundedSize]
  have : e.bytes = payloadSize e.type e.count := rfl
  split_ifs <;> omega

theorem Entry.Good.bytes_le (h : e.Good) (hpos : 0 < e.dataSize) : e.bytes ≤ e.dataSize := by
  have hb : ¬ e.bytes ≤ 4 := by
    rw [h.dataSize_pos_iff] at hpos
    omega
  have : e.bytes = payloadSize e.type e.count := rfl
  rw [h.dataSize_eq, if_neg hb, roundedSize]
  omega

theorem Entry.Good.dvd_dataSize (h : e.Good) : 8 ∣ e.dataSize := by
  rw [h.dataSize_eq, roundedSize]
  split_ifs
  · exact dvd_zero 8
  · exact Dvd.intro_left _ rfl

theorem Entry.Good.offset_lt (h : e.Good) : e.offset < 2 ^ 32 := by
  have hlt := leNat_lt e.data
  rwa [h.data] at hlt

@[simp] theorem rangesOf_append (l₁ l₂ : List Entry) :
    rangesOf (l₁ ++ l₂) = rangesOf l₁ ++ rangesOf l₂ := by
  simp [rangesOf]

theorem rangesOf_cons_of_pos (h : 0 < e.dataSize) (l : List Entry) :
    rangesOf (e :: l) = e.range :: rangesOf l := by
  simp [rangesOf, h]

theorem rangesOf_cons_of_zero (h : ¬ 0 < e.dataSize) (l : List Entry) :
    rangesOf (e :: l) = rangesOf l := by
  simp [rangesOf, h]

theorem mem_rangesOf (he : e ∈ l) (h : 0 < e.dataSize) : e.range ∈ rangesOf l :=
  mem_map_of_mem (mem_filter.mpr ⟨he, decide_eq_true h⟩)

theorem rangesOf_perm {l' : List Entry} (h : l.Perm l') : (rangesOf l).Perm (rangesOf l') :=
  (h.filter _).map _

/-- A change of the entries that keeps their sizes moves their ranges. -/
theorem rangesOf_map {f : Entry → Entry} {g : ℕ × ℕ → ℕ × ℕ}
    (hsize : ∀ e ∈ l, (f e).dataSize = e.dataSize)
    (hrange : ∀ e ∈ l, 0 < e.dataSize → (f e).range = g e.range) :
    rangesOf (l.map f) = (rangesOf l).map g := by
  induction l with
  | nil => rfl
  | cons e l ih =>
    have hrest := ih (fun x hx => hsize x (mem_cons_of_mem _ hx))
      fun x hx => hrange x (mem_cons_of_mem _ hx)
    have hs := hsize e mem_cons_self
    rw [map_cons]
    by_cases hpos : 0 < e.dataSize
    · rw [rangesOf_cons_of_pos (hs.symm ▸ hpos), rangesOf_cons_of_pos hpos, map_cons, hrest,
        hrange e mem_cons_self hpos]
    · rw [rangesOf_cons_of_zero (hs.symm ▸ hpos), rangesOf_cons_of_zero hpos, hrest]

/-! ### Moving entries -/

variable {x : List UInt8}

theorem offset_leBytes {v : ℕ} (e : Entry) (h : v < 2 ^ 32) :
    Entry.offset { e with data := leBytes 4 v } = v := by
  rw [Entry.offset, leNat_leBytes]
  exact Nat.mod_eq_of_lt h

theorem Entry.lower_dataSize (e : Entry) (o n : ℕ) : (e.lower o n).dataSize = e.dataSize := by
  rw [lower]
  split <;> rfl

theorem Entry.raise_dataSize (e : Entry) (n : ℕ) : (e.raise n).dataSize = e.dataSize := by
  rw [raise]
  split <;> rfl

theorem Entry.Good.lower (h : e.Good) (o n : ℕ) : (e.lower o n).Good := by
  rw [Entry.lower]
  split
  · exact ⟨length_leBytes 4 _, h.type, h.size⟩
  · exact h

theorem Entry.Good.raise (h : e.Good) (n : ℕ) : (e.raise n).Good := by
  rw [Entry.raise]
  split
  · exact ⟨length_leBytes 4 _, h.type, h.size⟩
  · exact h

theorem Entry.Good.range_lower (h : e.Good) (hpos : 0 < e.dataSize)
    (ho : o < e.offset → n ≤ e.offset) :
    (e.lower o n).range = moveDown o n e.range := by
  rw [Entry.range, Entry.lower_dataSize, moveDown, Entry.range]
  by_cases hlt : o < e.offset
  · have hoff := h.offset_lt
    rw [Entry.lower, if_pos ⟨hpos, hlt⟩, if_pos hlt, usub_of_le (ho hlt) hoff,
      offset_leBytes e (by omega)]
  · rw [Entry.lower, if_neg (fun hc => hlt hc.2), if_neg hlt]

theorem Entry.Good.range_raise (hpos : 0 < e.dataSize) (hn : e.offset + n < 2 ^ 32) :
    (e.raise n).range = moveUp n e.range := by
  rw [Entry.range, Entry.raise_dataSize, moveUp, Entry.range, Entry.raise, if_pos hpos,
    u32_of_lt hn, offset_leBytes e hn]

theorem take_drop_before {a k : ℕ} (h : a + k ≤ o) (ho : o ≤ d.length) :
    ((d.take o ++ x).drop a).take k = (d.drop a).take k := by
  have hlen : (d.take o).length = o := by rw [length_take, Nat.min_eq_left ho]
  rw [drop_append_of_le_length (by omega),
    take_append_of_le_length (by rw [length_drop]; omega), drop_take, take_take,
    Nat.min_eq_left (by omega)]

theorem take_drop_after {a k : ℕ} (h : n ≤ a) :
    ((x ++ d.drop n).drop (x.length + (a - n))).take k = (d.drop a).take k := by
  rw [drop_append, drop_eq_nil_of_le (by omega), nil_append, drop_drop,
    Nat.add_sub_cancel_left, Nat.add_sub_cancel' h]

/-- Values outside the bytes that leave the data area stay what they are. -/
theorem Entry.Good.valuesIn_lower (h : e.Good)
    (hapart : 0 < e.dataSize → Apart (o, n) e.range) (ho : o + n ≤ d.length) :
    (e.lower o n).valuesIn (d.take o ++ d.drop (o + n)) = e.valuesIn d := by
  by_cases hpos : 0 < e.dataSize
  · have hb : ¬ e.bytes ≤ 4 := by
      have := h.dataSize_pos_iff.mp hpos
      omega
    have hle := h.bytes_le hpos
    have hbytes : (e.lower o n).bytes = e.bytes := by
      rw [Entry.lower]
      split <;> rfl
    rw [Entry.valuesIn, hbytes, if_neg hb, Entry.valuesIn, if_neg hb]
    rcases hapart hpos with hafter | hbefore
    · -- behind the gap: the offset went down with the bytes
      have hgap : o + n ≤ e.offset := hafter
      have hrange := congrArg Prod.fst (h.range_lower hpos (o := o) (n := n) (by omega))
      have hlen : (d.take o).length = o := by rw [length_take, Nat.min_eq_left (by omega)]
      have hdown : (e.lower o n).offset = (d.take o).length + (e.offset - (o + n)) := by
        have hlow : (e.lower o n).offset = if o < e.offset then e.offset - n else e.offset :=
          hrange.trans (moveDown_fst _ _ _)
        rw [hlow, hlen]
        split_ifs <;> omega
      rw [hdown, take_drop_after hgap]
    · have hbefore' : e.offset + e.dataSize ≤ o := hbefore
      have hstay : e.lower o n = e := by rw [Entry.lower, if_neg (by omega)]
      rw [hstay, take_drop_before (by omega) (by omega)]
  · have hlow : e.lower o n = e := by rw [Entry.lower, if_neg (fun hc => hpos hc.1)]
    have hb : e.bytes ≤ 4 := by
      rw [h.dataSize_pos_iff] at hpos
      omega
    rw [hlow, Entry.valuesIn, Entry.valuesIn, if_pos hb, if_pos hb]

/-! ### The invariant -/

variable {count : ℕ} {pad payload : List UInt8}

/-- The entries are good, and their data tiles the data area. -/
structure Packet.Inv (p : Packet) : Prop where
  good : ∀ e ∈ p.entries, e.Good
  tiles : Tiles (rangesOf p.entries) p.data.length
  small : p.data.length < 2 ^ 32

/-- An element of the list that a packet stands for. -/
structure Datum where
  tag : ℕ
  type : ℕ
  count : ℕ
  values : List UInt8
  deriving DecidableEq, Repr

/-- What an entry stands for, in a packet with the data area `d`. -/
def Entry.datum (d : List UInt8) (e : Entry) : Datum := ⟨e.tag, e.type, e.count, e.valuesIn d⟩

/-- The list of tags, types and values that a packet stands for. -/
def Packet.contents (p : Packet) : List Datum := p.entries.map (Entry.datum p.data)

variable {p q : Packet} {f : ℕ}

theorem Packet.Inv.end_le (h : p.Inv) (he : e ∈ p.entries) (hpos : 0 < e.dataSize) :
    e.offset + e.dataSize ≤ p.data.length :=
  h.tiles.le (mem_rangesOf he hpos)

theorem Packet.Inv.empty (f : ℕ) : (⟨f, [], []⟩ : Packet).Inv :=
  ⟨fun _ he => absurd he not_mem_nil, Tiles.nil, Nat.two_pow_pos 32⟩

theorem Entry.lower_tag (e : Entry) (o n : ℕ) : (e.lower o n).tag = e.tag := by
  rw [lower]
  split <;> rfl

theorem Entry.lower_type (e : Entry) (o n : ℕ) : (e.lower o n).type = e.type := by
  rw [lower]
  split <;> rfl

theorem Entry.lower_count (e : Entry) (o n : ℕ) : (e.lower o n).count = e.count := by
  rw [lower]
  split <;> rfl

theorem mem_entries_of_split (hp : p.entries = l₁ ++ e :: l₂) : ∀ x ∈ l₁ ++ l₂, x ∈ p.entries := by
  intro x hx
  rw [hp]
  exact perm_middle.mem_iff.mpr (mem_cons_of_mem _ hx)

theorem Packet.Inv.tiles_front (h : p.Inv) (hp : p.entries = l₁ ++ e :: l₂)
    (hpos : 0 < e.dataSize) : Tiles (e.range :: rangesOf (l₁ ++ l₂)) p.data.length := by
  rw [← rangesOf_cons_of_pos hpos]
  exact h.tiles.perm (rangesOf_perm (hp ▸ perm_middle))

/-- **The data of an entry leaves the data area**: the rest is packed again, and no other entry
sees a difference. -/
theorem Packet.Inv.detach (h : p.Inv) (hp : p.entries = l₁ ++ e :: l₂) (hpos : 0 < e.dataSize) :
    Tiles (rangesOf ((l₁ ++ l₂).map (Entry.lower e.offset e.dataSize)))
      (p.cut e.offset e.dataSize).data.length ∧
    (l₁ ++ l₂).map (fun x => (x.lower e.offset e.dataSize).datum (p.cut e.offset e.dataSize).data) =
      (l₁ ++ l₂).map (Entry.datum p.data) := by
  have he : e ∈ p.entries := by rw [hp]; exact mem_append_right _ mem_cons_self
  have hend := h.end_le he hpos
  have hrest := mem_entries_of_split hp
  have htiles := h.tiles_front hp hpos
  have hapart : ∀ x ∈ l₁ ++ l₂, 0 < x.dataSize → Apart e.range x.range :=
    fun x hx hx' => htiles.apart (mem_rangesOf hx hx')
  have hlen : (p.cut e.offset e.dataSize).data.length = p.data.length - e.dataSize := by
    rw [cut, length_append, length_take, length_drop]
    omega
  constructor
  · rw [hlen, rangesOf_map (fun x _ => x.lower_dataSize _ _)]
    · exact htiles.remove
    · intro x hx hx'
      refine (h.good x (hrest x hx)).range_lower hx' fun hlt => ?_
      rcases hapart x hx hx' with hap | hap <;> simp only [Entry.range] at hap <;> omega
  · refine map_congr_left fun x hx => ?_
    rw [Entry.datum, Entry.datum, Entry.lower_tag, Entry.lower_type, Entry.lower_count]
    congr 1
    exact (h.good x (hrest x hx)).valuesIn_lower (hapart x hx) hend

/-- Data behind the data area does not change what is in it. -/
theorem Entry.Good.valuesIn_append (h : e.Good) (x : List UInt8)
    (hin : 0 < e.dataSize → e.offset + e.dataSize ≤ d.length) :
    e.valuesIn (d ++ x) = e.valuesIn d := by
  rw [valuesIn, valuesIn]
  split_ifs with hb
  · rfl
  · have hpos : 0 < e.dataSize := h.dataSize_pos_iff.mpr (by omega)
    have hle := h.bytes_le hpos
    have hbefore := @take_drop_before d d.length x e.offset e.bytes (by omega) (Nat.le_refl _)
    rwa [take_length] at hbefore

variable {type : ℕ} (htype : type < 6) (hpay : payload.length = payloadSize type count)
  (hpad : Pads type count payload.length pad)

include htype hpay hpad in
/-- **Values are stored for an entry** `⟨tag, type⟩` between the entries `l₁` and `l₂` of a packed
data area. -/
theorem attach (tag : ℕ) {old : List UInt8} (hgood : ∀ x ∈ l₁ ++ l₂, x.Good)
    (htiles : Tiles (rangesOf (l₁ ++ l₂)) d.length) (hold : old.length = 4)
    (hw : d.length + roundedSize type count < 2 ^ 32) (f : ℕ) :
    Packet.Inv ⟨f, l₁ ++ ⟨tag, count, newData type count d.length payload old, type⟩ :: l₂,
        if calculateCameraMetadataEntryDataSize type count = 0 then d else d ++ payload ++ pad⟩ ∧
      contents ⟨f, l₁ ++ ⟨tag, count, newData type count d.length payload old, type⟩ :: l₂,
        if calculateCameraMetadataEntryDataSize type count = 0 then d else d ++ payload ++ pad⟩ =
      l₁.map (datum d) ++ ⟨tag, type, count, payload⟩ :: l₂.map (datum d) := by
  have hsize := calculateCameraMetadataEntryDataSize_eq htype
    (show roundedSize type count < 2 ^ 32 by omega)
  have hround : roundedSize type count = (payloadSize type count + 7) / 8 * 8 := rfl
  have hdata : (newData type count d.length payload old).length = 4 := by
    rw [newData]
    split_ifs with h0
    · rw [hsize] at h0
      rw [length_append, length_drop]
      split_ifs at h0 <;> omega
    · exact length_leBytes 4 _
  generalize he : (⟨tag, count, newData type count d.length payload old, type⟩ : Entry) = e
  have hedata : e.data = newData type count d.length payload old := by rw [← he]
  have hebytes : e.bytes = payloadSize type count := by rw [← he]; rfl
  have hesize : e.dataSize = calculateCameraMetadataEntryDataSize type count := by rw [← he]; rfl
  have hegood : e.Good := by
    rw [← he]
    exact ⟨hdata, htype, by simp only []; omega⟩
  have hedatum : ∀ d', e.datum d' = ⟨tag, type, count, e.valuesIn d'⟩ := by
    intro d'
    rw [← he]
    rfl
  have hgood' : ∀ x ∈ l₁ ++ e :: l₂, x.Good := by
    rw [forall_mem_append] at hgood ⊢
    exact ⟨hgood.1, forall_mem_cons.mpr ⟨hegood, hgood.2⟩⟩
  have hperm : (rangesOf (l₁ ++ e :: l₂)).Perm (rangesOf (e :: (l₁ ++ l₂))) :=
    rangesOf_perm perm_middle
  have hin : ∀ x ∈ l₁ ++ l₂, 0 < x.dataSize → x.offset + x.dataSize ≤ d.length :=
    fun x hx hpos => htiles.le (mem_rangesOf hx hpos)
  by_cases h0 : calculateCameraMetadataEntryDataSize type count = 0
  · -- in the record
    have hb : payloadSize type count ≤ 4 := by
      rw [hsize] at h0
      split_ifs at h0 <;> omega
    rw [if_pos h0]
    refine ⟨⟨hgood', ?_, by simp only []; omega⟩, ?_⟩
    · rw [rangesOf_cons_of_zero (by omega)] at hperm
      exact htiles.perm hperm.symm
    · have hval : e.valuesIn d = payload := by
        rw [valuesIn, hebytes, if_pos hb, hedata, newData, if_pos h0, ← hpay, take_left]
      rw [contents, map_append, map_cons, hedatum, hval]
  · -- at the end of the data area
    have hb : ¬ payloadSize type count ≤ 4 := by
      intro hle
      rw [hsize, if_pos hle] at h0
      exact h0 rfl
    have hround' : calculateCameraMetadataEntryDataSize type count = roundedSize type count := by
      rw [hsize, if_neg hb]
    have hoff : e.offset = d.length := by
      rw [Entry.offset, hedata, newData, if_neg h0, leNat_leBytes]
      exact Nat.mod_eq_of_lt (by norm_num; omega)
    have hpad' := hpad h0
    rw [if_neg h0]
    refine ⟨⟨hgood', ?_, ?_⟩, ?_⟩
    · rw [rangesOf_cons_of_pos (by omega)] at hperm
      have hlen : (d ++ payload ++ pad).length = d.length + e.dataSize := by
        rw [length_append, length_append]
        omega
      have hsnoc := htiles.snoc (n := e.dataSize) (by omega)
      rw [hlen]
      refine hsnoc.perm ?_
      rw [← hoff]
      exact (perm_append_comm.trans (.refl _)).trans hperm.symm
    · simp only [length_append]
      omega
    · have hval : e.valuesIn (d ++ payload ++ pad) = payload := by
        rw [valuesIn, hebytes, if_neg hb, hoff, append_assoc, drop_left, ← hpay,
          take_left]
      have hother : ∀ l : List Entry, (∀ x ∈ l, x ∈ l₁ ++ l₂) →
          l.map (datum (d ++ payload ++ pad)) = l.map (datum d) := by
        intro l hl
        refine map_congr_left fun x hx => ?_
        rw [datum, datum, append_assoc,
          (hgood x (hl x hx)).valuesIn_append _ (hin x (hl x hx))]
      rw [contents, map_append, map_cons, hedatum, hval,
        hother l₁ fun x hx => mem_append_left _ hx,
        hother l₂ fun x hx => mem_append_right _ hx]

/-! ### The operations -/

variable {α : Type} {i : ℕ}

include htype hpay hpad in
/-- **Adding** keeps the invariant and appends to the contents. -/
theorem Packet.Inv.add (h : p.Inv) (tag : ℕ)
    (hw : p.data.length + roundedSize type count < 2 ^ 32) :
    (p.add tag type count payload pad).Inv ∧
      (p.add tag type count payload pad).contents =
        p.contents ++ [⟨tag, type, count, payload⟩] := by
  have hgood : ∀ x ∈ p.entries ++ [], x.Good := by
    rw [append_nil]
    exact h.good
  have htiles : Tiles (rangesOf (p.entries ++ [])) p.data.length := by
    rw [append_nil]
    exact h.tiles
  exact attach htype hpay hpad tag hgood htiles length_replicate hw _

theorem exists_split {l : List α} {a : α} (h : l[i]? = some a) :
    ∃ l₁ l₂, l = l₁ ++ a :: l₂ ∧ l₁.length = i := by
  obtain ⟨hi, rfl⟩ := List.getElem?_eq_some_iff.mp h
  refine ⟨l.take i, l.drop (i + 1), ?_, by rw [length_take]; omega⟩
  rw [getElem_cons_drop, take_append_drop]

theorem eraseIdx_split (l₁ l₂ : List α) (a : α) :
    (l₁ ++ a :: l₂).eraseIdx l₁.length = l₁ ++ l₂ := by
  rw [eraseIdx_append_of_length_le (Nat.le_refl _), Nat.sub_self]
  rfl

theorem set_split (l₁ l₂ : List α) (a a' : α) :
    (l₁ ++ a :: l₂).set l₁.length a' = l₁ ++ a' :: l₂ := by
  rw [set_append_right _ _ (Nat.le_refl _), Nat.sub_self]
  rfl

/-- **Deleting** keeps the invariant and removes one element from the contents. -/
theorem Packet.Inv.delete (h : p.Inv) (he : p.entries[i]? = some e) :
    (p.delete i).Inv ∧ (p.delete i).contents = p.contents.eraseIdx i := by
  obtain ⟨l₁, l₂, hp, rfl⟩ := exists_split he
  have hlen : l₁.length = (l₁.map (datum p.data)).length := (length_map _).symm
  have hcontents : p.contents.eraseIdx l₁.length = (l₁ ++ l₂).map (datum p.data) := by
    rw [contents, hp, map_append, map_cons, hlen, eraseIdx_split, map_append]
  have hgood : ∀ x ∈ l₁ ++ l₂, x.Good := fun x hx => h.good x (mem_entries_of_split hp x hx)
  rw [hcontents]
  by_cases hpos : 0 < e.dataSize
  · obtain ⟨htiles, hsame⟩ := h.detach hp hpos
    have hentries : (p.cut e.offset e.dataSize).entries.eraseIdx l₁.length =
        (l₁ ++ l₂).map (lower e.offset e.dataSize) := by
      rw [cut, hp, map_append, map_cons, ← length_map (lower e.offset e.dataSize),
        eraseIdx_split, map_append]
    have hsmall := h.small
    simp only [delete, he, if_pos hpos, hentries]
    refine ⟨⟨forall_mem_map.mpr fun y hy => (hgood y hy).lower _ _, htiles, ?_⟩, ?_⟩
    · rw [cut, length_append, length_take, length_drop]
      omega
    · rw [contents, map_map, ← hsame]
      rfl
  · simp only [delete, he, if_neg hpos]
    rw [hp, eraseIdx_split]
    refine ⟨⟨hgood, ?_, h.small⟩, rfl⟩
    have htiles := h.tiles.perm (rangesOf_perm (hp ▸ perm_middle))
    rwa [rangesOf_cons_of_zero hpos] at htiles

/-- Values apart from the bytes that are overwritten stay what they are. -/
theorem Entry.Good.valuesIn_overwrite (h : e.Good)
    (hapart : 0 < e.dataSize → Apart (o, n) e.range) (hn : payload.length ≤ n)
    (ho : o + n ≤ d.length) :
    e.valuesIn (d.take o ++ payload ++ d.drop (o + payload.length)) = e.valuesIn d := by
  rw [valuesIn, valuesIn]
  split_ifs with hb
  · rfl
  · have hpos : 0 < e.dataSize := h.dataSize_pos_iff.mpr (by omega)
    have hle := h.bytes_le hpos
    rcases hapart hpos with hafter | hbefore
    · have hafter' : o + n ≤ e.offset := hafter
      have hlen : (d.take o ++ payload).length = o + payload.length := by
        rw [length_append, length_take, Nat.min_eq_left (by omega)]
      have hoff : e.offset = (d.take o ++ payload).length + (e.offset - (o + payload.length)) := by
        omega
      have := @take_drop_after d (o + payload.length) (d.take o ++ payload) e.offset e.bytes
        (by omega)
      rwa [← hoff] at this
    · have hbefore' : e.offset + e.dataSize ≤ o := hbefore
      rw [append_assoc, take_drop_before (by omega) (by omega)]

/-- **Values of the same size** overwrite the old ones. -/
theorem Packet.Inv.overwrite (h : p.Inv) (hp : p.entries = l₁ ++ e :: l₂) (hpos : 0 < e.dataSize)
    (hgood' : Entry.Good { e with count := count })
    (hsize : Entry.dataSize { e with count := count } = e.dataSize)
    (hpay : payload.length = payloadSize e.type count) (hpl : payload.length ≤ e.dataSize)
    (hq : q = ⟨p.flags, l₁ ++ { e with count := count } :: l₂,
      p.data.take e.offset ++ payload ++ p.data.drop (e.offset + payload.length)⟩) :
    q.Inv ∧ q.contents = l₁.map (Entry.datum p.data) ++
      ⟨e.tag, e.type, count, payload⟩ :: l₂.map (Entry.datum p.data) := by
  subst hq
  set d := p.data.take e.offset ++ payload ++ p.data.drop (e.offset + payload.length) with hd
  have hrest := mem_entries_of_split hp
  have hend := h.end_le (by rw [hp]; exact mem_append_right _ mem_cons_self) hpos
  have hranges : rangesOf (l₁ ++ { e with count := count } :: l₂) = rangesOf p.entries := by
    rw [hp, rangesOf_append, rangesOf_append, rangesOf_cons_of_pos (hsize.symm ▸ hpos),
      rangesOf_cons_of_pos hpos, Entry.range, hsize]
    rfl
  have hlength : d.length = p.data.length := by
    rw [hd, length_append, length_append, length_take, length_drop]
    omega
  have htiles := h.tiles_front hp hpos
  have hother : ∀ l : List Entry, (∀ x ∈ l, x ∈ l₁ ++ l₂) →
      l.map (Entry.datum d) = l.map (Entry.datum p.data) := by
    intro l hl
    refine map_congr_left fun x hx => ?_
    have hx' := hrest x (hl x hx)
    rw [Entry.datum, Entry.datum, (h.good x hx').valuesIn_overwrite
      (fun hxpos => htiles.apart (mem_rangesOf (hl x hx) hxpos)) hpl hend]
  have hvalue : Entry.valuesIn d { e with count := count } = payload := by
    have hb : ¬ Entry.bytes { e with count := count } ≤ 4 := by
      have := hgood'.dataSize_pos_iff.mp (hsize.symm ▸ hpos)
      omega
    have hoff : Entry.offset { e with count := count } = (p.data.take e.offset).length := by
      rw [length_take, Nat.min_eq_left (by omega)]
      rfl
    have hbytes : Entry.bytes { e with count := count } = payload.length := hpay.symm
    rw [Entry.valuesIn, if_neg hb, hoff, hd, append_assoc, drop_left, hbytes, take_left]
  refine ⟨⟨?_, ?_, ?_⟩, ?_⟩
  · intro x hx
    rcases mem_cons.mp (perm_middle.mem_iff.mp hx) with rfl | hx
    · exact hgood'
    · exact h.good x (hrest x hx)
  · rw [hranges, hlength]
    exact h.tiles
  · rw [hlength]
    exact h.small
  · rw [contents, map_append, map_cons,
      hother l₁ fun x hx => mem_append_left _ hx,
      hother l₂ fun x hx => mem_append_right _ hx, Entry.datum, hvalue]

/-- **Updating** keeps the invariant and replaces the values of one element of the contents. -/
theorem Packet.Inv.update (h : p.Inv) (he : p.entries[i]? = some e)
    (hpay : payload.length = payloadSize e.type count)
    (hpad : Pads e.type count payload.length pad)
    (hw : p.data.length + roundedSize e.type count < 2 ^ 32) :
    (p.update i count payload pad).Inv ∧
      (p.update i count payload pad).contents =
        p.contents.set i ⟨e.tag, e.type, count, payload⟩ := by
  obtain ⟨l₁, l₂, hp, rfl⟩ := exists_split he
  have hmem : e ∈ p.entries := by rw [hp]; exact mem_append_right _ mem_cons_self
  have hegood := h.good e hmem
  have hlen : l₁.length = (l₁.map (datum p.data)).length := (length_map _).symm
  have hcontents : p.contents.set l₁.length ⟨e.tag, e.type, count, payload⟩ =
      l₁.map (datum p.data) ++
        ⟨e.tag, e.type, count, payload⟩ :: l₂.map (datum p.data) := by
    rw [contents, hp, map_append, map_cons, hlen, set_split]
  have hgood : ∀ x ∈ l₁ ++ l₂, x.Good := fun x hx => h.good x (mem_entries_of_split hp x hx)
  rw [hcontents]
  by_cases hsame : calculateCameraMetadataEntryDataSize e.type count ≠ 0 ∧
      calculateCameraMetadataEntryDataSize e.type count = e.dataSize
  · -- the new values overwrite the old ones
    obtain ⟨hne, heq⟩ := hsame
    have hpos : 0 < e.dataSize := by omega
    have hpl : payload.length ≤ e.dataSize := by
      have := hpad hne
      omega
    have hgood' : Entry.Good { e with count := count } :=
      ⟨hegood.data, hegood.type, by simp only []; omega⟩
    simp only [update, he, if_pos (And.intro hne heq)]
    rw [hp, set_split]
    exact h.overwrite hp hpos hgood' heq hpay hpl rfl
  · by_cases hpos : 0 < e.dataSize
    · -- the old data leaves, then the new values are stored
      obtain ⟨htiles, hother⟩ := h.detach hp hpos
      have hcutlen : (p.cut e.offset e.dataSize).data.length ≤ p.data.length := by
        rw [cut, length_append, length_take, length_drop]
        omega
      have hentries : (p.cut e.offset e.dataSize).entries =
          l₁.map (lower e.offset e.dataSize) ++
            e :: l₂.map (lower e.offset e.dataSize) := by
        rw [cut, hp, map_append, map_cons, e.lower_self]
      have hcut : calculateCameraMetadataEntryDataSize e.type count ≠ e.dataSize ∧
          e.dataSize ≠ 0 := ⟨fun heq => hsame ⟨by omega, heq⟩, by omega⟩
      simp only [update, he, if_neg hsame, if_pos hcut, hentries]
      rw [← length_map (lower e.offset e.dataSize), set_split]
      rw [map_append] at htiles
      have hgood' : ∀ x ∈ l₁.map (lower e.offset e.dataSize) ++
          l₂.map (lower e.offset e.dataSize), x.Good := by
        rw [← map_append]
        exact forall_mem_map.mpr fun y hy => (hgood y hy).lower _ _
      obtain ⟨hinv, hcont⟩ := attach hegood.type hpay hpad e.tag hgood' htiles hegood.data
        (by omega) p.flags
      refine ⟨hinv, hcont.trans ?_⟩
      rw [map_append, map_append] at hother
      have hparts := append_inj hother (by simp)
      rw [map_map, map_map]
      congr 1
      · exact hparts.1
      · congr 1
        exact hparts.2
    · -- there is no old data
      have hcut : ¬ (calculateCameraMetadataEntryDataSize e.type count ≠ e.dataSize ∧
          e.dataSize ≠ 0) := by omega
      have htiles := h.tiles.perm (rangesOf_perm (hp ▸ perm_middle))
      rw [rangesOf_cons_of_zero hpos] at htiles
      simp only [update, he, if_neg hsame, if_neg hcut]
      rw [hp, set_split]
      exact attach hegood.type hpay hpad e.tag hgood htiles hegood.data hw p.flags

theorem Entry.Good.raise_zero (h : e.Good) : e.raise 0 = e := by
  have hback : leBytes 4 (leNat e.data) = e.data := by
    rw [← h.data]
    exact leBytes_leNat e.data
  rw [Entry.raise]
  split
  · rw [Nat.add_zero, u32_of_lt h.offset_lt, Entry.offset, hback]
  · rfl

/-- Values in an area that was moved up. -/
theorem Entry.Good.valuesIn_raise (h : e.Good)
    (hin : 0 < e.dataSize → e.offset + x.length < 2 ^ 32) :
    (e.raise x.length).valuesIn (x ++ d) = e.valuesIn d := by
  have hbytes : (e.raise x.length).bytes = e.bytes := by
    rw [Entry.raise]
    split <;> rfl
  rw [Entry.valuesIn, Entry.valuesIn, hbytes]
  split_ifs with hb
  · have hpos : ¬ 0 < e.dataSize := by
      rw [h.dataSize_pos_iff]
      omega
    rw [Entry.raise, if_neg hpos]
  · have hpos : 0 < e.dataSize := h.dataSize_pos_iff.mpr (by omega)
    have hoff : (e.raise x.length).offset = x.length + e.offset := by
      have := congrArg Prod.fst (Entry.Good.range_raise hpos (hin hpos))
      simp only [Entry.range, moveUp] at this
      omega
    rw [hoff, drop_append, drop_eq_nil_of_le (by omega), nil_append,
      Nat.add_sub_cancel_left]

/-- **Appending** keeps the invariant and concatenates the contents. -/
theorem Packet.Inv.append (hp : p.Inv) (hq : q.Inv) (hw : p.data.length + q.data.length < 2 ^ 32) :
    (p.append q).Inv ∧ (p.append q).contents = p.contents ++ q.contents := by
  have hentries : (p.append q).entries =
      p.entries ++ q.entries.map (raise p.data.length) := by
    by_cases h0 : p.data.length = 0
    · have hsame : q.entries.map (raise p.data.length) = q.entries := by
        rw [h0]
        exact (map_congr_left fun x hx => (hq.good x hx).raise_zero).trans (map_id _)
      rw [hsame]
      exact congrArg (p.entries ++ ·) (if_neg (not_not.mpr h0))
    · exact congrArg (p.entries ++ ·) (if_pos h0)
  have hdata : (p.append q).data = p.data ++ q.data := rfl
  have hin : ∀ x ∈ q.entries, 0 < x.dataSize → x.offset + p.data.length < 2 ^ 32 := by
    intro x hx hpos
    have := hq.end_le hx hpos
    omega
  refine ⟨⟨?_, ?_, ?_⟩, ?_⟩
  · rw [hentries, forall_mem_append, forall_mem_map]
    exact ⟨hp.good, fun y hy => (hq.good y hy).raise _⟩
  · rw [hentries, hdata, rangesOf_append, length_append,
      rangesOf_map (fun x _ => x.raise_dataSize _)
        (fun x hx hpos => Entry.Good.range_raise hpos (hin x hx hpos))]
    exact hp.tiles.append hq.tiles
  · rw [hdata, length_append]
    exact hw
  · rw [contents, hentries, hdata, map_append, map_map]
    congr 1
    · refine map_congr_left fun x hx => ?_
      rw [datum, datum, (hp.good x hx).valuesIn_append _ (hp.end_le hx)]
    · refine map_congr_left fun x hx => ?_
      have hraise : ∀ {γ : Type} (f : Entry → γ), (∀ data, f { x with data := data } = f x) →
          f (x.raise p.data.length) = f x := fun f hf => by
        rw [raise]
        split
        · exact hf _
        · rfl
      rw [Function.comp_apply, datum, datum, hraise Entry.tag fun _ => rfl,
        hraise Entry.type fun _ => rfl, hraise Entry.count fun _ => rfl,
        (hq.good x hx).valuesIn_raise (hin x hx)]

/-- **Permuting** the entries keeps the invariant and permutes the contents. -/
theorem Packet.Inv.perm (h : p.Inv) (he : q.entries.Perm p.entries) (hd : q.data = p.data) :
    q.Inv ∧ q.contents.Perm p.contents := by
  refine ⟨⟨fun x hx => h.good x (he.mem_iff.mp hx), ?_, hd ▸ h.small⟩, ?_⟩
  · rw [hd]
    exact h.tiles.perm (rangesOf_perm he).symm
  · rw [contents, contents, hd]
    exact he.map _

end Camera
