/-
What is read from the file that a blob was written to.

* `pack_spec` — the layout of a file: header, digest and `payload` (length, value and
  padding), perhaps encrypted, and the description;
* `unpack_spec` — what the end of `readBlob` makes of such a layout;
* `readBack_iff` — a blob is read back exactly if it is encrypted or has no description.
-/
import AndroidSystem.Keystore.Blob

open CInt Mem

namespace Keystore

open Buffer

variable {κ : Type} {C : Crypto κ} {key : κ} {b : Buffer} {m : Mem} {value info : List UInt8}

variable {o' : ℕ} {bs : List UInt8}

theorem slice_put_before {o n : ℕ} (h : o' + n ≤ o) :
    (b.put o bs).mem.slice o' n = b.mem.slice o' n := slice_blit_of_disjoint (Or.inl h)

theorem slice_put_behind {o n : ℕ} (h : o + bs.length ≤ o') :
    (b.put o bs).mem.slice o' n = b.mem.slice o' n := slice_blit_of_disjoint (Or.inr h)

theorem length_reverse_leBytes (n : ℕ) : (leBytes 4 n).reverse.length = 4 := by
  rw [List.length_reverse, length_leBytes]

theorem htonl_lt (n : ℕ) : htonl n < 2 ^ 32 := by
  have h := leNat_lt (leBytes 4 n).reverse
  rwa [length_reverse_leBytes] at h

theorem leBytes_htonl (n : ℕ) : leBytes 4 (htonl n) = (leBytes 4 n).reverse := by
  have h := leBytes_leNat (leBytes 4 n).reverse
  rwa [length_reverse_leBytes] at h

variable {n : ℕ}

theorem htonl_htonl (hn : n < 2 ^ 32) : htonl (htonl n) = n := by
  rw [htonl, leBytes_htonl, List.reverse_reverse, leNat_leBytes]
  exact Nat.mod_eq_of_lt hn

/-- The length of length, value and padding. -/
def digestedLength (length : ℕ) : ℕ := (length + 19) / 16 * 16

theorem digestedLength_bounds (length : ℕ) :
    length + 4 ≤ digestedLength length ∧ digestedLength length ≤ length + 19 := by
  rw [digestedLength]
  omega

theorem digestedLength_mod (length : ℕ) : digestedLength length % 16 = 0 :=
  Nat.mul_mod_left _ _

/-- Length, value and padding. -/
def payload (value : List UInt8) : List UInt8 :=
  leBytes 4 (htonl value.length) ++
    (value ++ List.replicate (digestedLength value.length - (value.length + 4)) 0)

theorem length_payload (value : List UInt8) :
    (payload value).length = digestedLength value.length := by
  have h := digestedLength_bounds value.length
  simp only [payload, List.length_append, length_leBytes, List.length_replicate]
  omega

/-- The fields of a blob. -/
structure Fields (b : Buffer) (value info : List UInt8) : Prop where
  len : b.len = sizeofBlob
  length : b.mem.word lengthAt = value.length
  values : b.mem.slice valueAt value.length = value
  infoLength : (b.mem infoAt).toNat = info.length
  infos : b.mem.slice (valueAt + value.length) info.length = info
  fits : value.length + info.length ≤ 32768

theorem Fields.contents (hf : Fields b value info) :
    contents b = ⟨value, info, b.mem typeAt, b.mem flagsAt, b.mem versionAt⟩ := by
  rw [Keystore.contents, hf.length, hf.infoLength, hf.values, hf.infos]

/-- The header is what it was. -/
def SameHeader (b b' : Buffer) : Prop := ∀ a < 4, b'.mem a = b.mem a

variable {b' : Buffer}

theorem SameHeader.isEncrypted (h : SameHeader b b') :
    isEncrypted b' = isEncrypted b := by
  rw [Keystore.isEncrypted, Keystore.isEncrypted, h versionAt (by decide), h flagsAt (by decide)]

theorem SameHeader.trans {b'' : Buffer} (h : SameHeader b b') (h' : SameHeader b' b'') :
    SameHeader b b'' := fun a ha => (h' a ha).trans (h a ha)

variable {o : ℕ}

theorem SameHeader.put (ho : 4 ≤ o) (bs : List UInt8) : SameHeader b (b.put o bs) :=
  fun a ha => blit_of_lt (show a < o by omega)

theorem inside (hlen : b.len = sizeofBlob) (h : o + n ≤ 32824) : b.Inside o n :=
  Or.inr (hlen ▸ h)

theorem load_eq {data : List UInt8} (hlen : b.len = sizeofBlob) (h : o + n ≤ 32824)
    (hs : b.mem.slice o n = data) : b.load o n = .ok data := by
  rw [load_of_inside (inside hlen h), hs]

variable {bs : List UInt8}

theorem store_eq (hlen : b.len = sizeofBlob) (h : o + bs.length ≤ 32824) :
    b.store o bs = .ok (b.put o bs) := store_of_inside (inside hlen h)

theorem slice_put_self (h : bs.length = n) : (b.put o bs).mem.slice o n = bs := by
  rw [← h, put_mem, slice_blit_self]

/-! ### Writing -/

/-- The layout of the file of a blob. -/
structure Layout (C : Crypto κ) (key : κ) (vector value info : List UInt8) (encrypted : Bool)
    (m : Mem) : Prop where
  sealed : encrypted = true → m.slice vectorAt 16 = vector ∧
    m.slice encryptedAt (digestedLength value.length + 16) =
      C.encrypt key vector (C.md5 (payload value) ++ payload value)
  plain : encrypted = false → m.slice digestedAt (digestedLength value.length) = payload value
  infos : m.slice (digestedAt + digestedLength value.length) info.length = info

/-- Length, value and padding in their places. -/
theorem slice_payload (hv : m.slice valueAt value.length = value)
    (hw : m.slice lengthAt 4 = leBytes 4 (htonl value.length))
    (hz : m.slice (valueAt + value.length) (digestedLength value.length - (value.length + 4)) =
      List.replicate (digestedLength value.length - (value.length + 4)) 0) :
    m.slice digestedAt (digestedLength value.length) = payload value := by
  have hD := digestedLength_bounds value.length
  have hsplit : digestedLength value.length =
      4 + (value.length + (digestedLength value.length - (value.length + 4))) := by omega
  rw [hsplit, slice_add, slice_add, payload]
  exact congrArg₂ _ hw (congrArg₂ _ hv hz)

variable (hlen : b.len = sizeofBlob) (hfits : value.length + info.length ≤ 32768)
  (hp : b.mem.slice digestedAt (digestedLength value.length) = payload value)

include hlen hfits hp in
/-- **The encryption** of a structure that is laid out. -/
theorem encryptBlob_spec (C : Crypto κ) (key : κ)
    (hi : b.mem.slice (digestedAt + digestedLength value.length) info.length = info) :
    ∃ b', encryptBlob C key (digestedLength value.length) (digestedLength value.length + 16) b =
        .ok b' ∧ b'.len = sizeofBlob ∧ SameHeader b b' ∧
      Layout C key (b.mem.slice vectorAt 16) value info (isEncrypted b) b'.mem := by
  have hD := digestedLength_bounds value.length
  have hmd := C.length_md5 (payload value)
  cases henc : isEncrypted b with
  | false =>
    have heq : encryptBlob C key (digestedLength value.length)
        (digestedLength value.length + 16) b = .ok b := by
      rw [encryptBlob, henc]
      rfl
    exact ⟨b, heq, hlen, fun _ _ => rfl, fun h => (Bool.false_ne_true h).elim, fun _ => hp, hi⟩
  | true =>
    -- the digest is before the payload, the vector before both
    set d := digestedLength value.length
    set b₁ := b.put digestAt (C.md5 (payload value)) with hb₁
    have hdata : b₁.mem.slice encryptedAt (d + 16) = C.md5 (payload value) ++ payload value := by
      rw [Nat.add_comm, slice_add]
      refine congrArg₂ _ (slice_put_self hmd) ?_
      rw [slice_put_behind (by rw [hmd]; exact le_rfl)]
      exact hp
    have hvector : b₁.mem.slice vectorAt 16 = b.mem.slice vectorAt 16 :=
      slice_blit_of_disjoint (Or.inl (by decide))
    set data := C.md5 (payload value) ++ payload value with hdatadef
    have hlendata : data.length = d + 16 := by
      rw [hdatadef, List.length_append, hmd, length_payload, Nat.add_comm]
    have hcipher := C.length_encrypt key (b.mem.slice vectorAt 16) data
    rw [hlendata] at hcipher
    refine ⟨b₁.put encryptedAt (C.encrypt key (b.mem.slice vectorAt 16) data), ?_, hlen,
      (SameHeader.put (by decide) _).trans (SameHeader.put (by decide) _),
      fun _ => ⟨?_, slice_put_self hcipher⟩, fun h => (Bool.false_ne_true h.symm).elim, ?_⟩
    · have h₁ : b.load digestedAt d = .ok (payload value) :=
        load_eq hlen (by show 36 + _ ≤ 32824; omega) hp
      have h₂ : b.store digestAt (C.md5 (payload value)) = .ok b₁ :=
        store_eq hlen (by rw [hmd]; decide)
      have h₃ : b₁.load vectorAt aesBlockSize = .ok (b.mem.slice vectorAt 16) :=
        load_eq hlen (by decide) hvector
      have h₄ : b₁.load encryptedAt (d + 16) = .ok data :=
        load_eq hlen (by show 20 + (_ + 16) ≤ 32824; omega) hdata
      simp only [encryptBlob, henc, if_true, h₁, h₂, h₃, h₄, ok_bind]
      exact store_eq hlen (by rw [hcipher]; show 20 + (_ + 16) ≤ 32824; omega)
    · rw [slice_put_before (by decide), hvector]
    · rw [slice_put_behind (by
          rw [hcipher]
          show 20 + (_ + 16) ≤ 36 + _
          omega),
        slice_put_behind (by
          rw [hmd]
          show 20 + 16 ≤ 36 + _
          omega), hi]

/-- **`writeBlob` lays out** the structure. -/
theorem pack_spec (C : Crypto κ) (key : κ) (hf : Fields b value info) :
    ∃ b', pack C key b = .ok (b', 36 + digestedLength value.length + info.length) ∧
      b'.len = sizeofBlob ∧ SameHeader b b' ∧
      Layout C key (b.mem.slice vectorAt 16) value info (isEncrypted b) b'.mem := by
  have hlen := hf.len
  have hfits := hf.fits
  have hD := digestedLength_bounds value.length
  set d := digestedLength value.length with hd
  have hdata : u32 (value.length + 4) = value.length + 4 := u32_of_lt (by omega)
  have hdig : u32 (value.length + 4 + aesBlockSize - 1) / aesBlockSize * aesBlockSize = d := by
    rw [aesBlockSize, u32_of_lt (by omega)]
    rfl
  have henc : u32 (d + md5DigestLength) = d + 16 := by
    rw [md5DigestLength, u32_of_lt (by omega)]
  have hpad : (List.replicate (d - (value.length + 4)) (0 : UInt8)).length =
      d - (value.length + 4) := List.length_replicate
  -- the description behind the padding, the padding, and the length, in this order
  set b₁ := b.put (encryptedAt + (d + 16)) info with hb₁
  set b₂ := b₁.put (valueAt + value.length) (List.replicate (d - (value.length + 4)) 0) with hb₂
  set b₃ := b₂.put lengthAt (leBytes 4 (htonl value.length)) with hb₃
  have hat : encryptedAt + (d + 16) = digestedAt + d := by
    show 20 + (_ + 16) = 36 + _
    omega
  have hsame : SameHeader b b₃ :=
    ((SameHeader.put (by rw [hat]; show 4 ≤ 36 + _; omega) _).trans
      (SameHeader.put (show 4 ≤ 40 + _ by omega) _)).trans (SameHeader.put (by decide) _)
  have hvector : b₃.mem.slice vectorAt 16 = b.mem.slice vectorAt 16 := by
    rw [hb₃, slice_put_before (by decide),
      hb₂, slice_put_before (by show 4 + 16 ≤ 40 + _; omega),
      hb₁, slice_put_before (by rw [hat]; show 4 + 16 ≤ 36 + _; omega)]
  have hinfo : b₃.mem.slice (digestedAt + d) info.length = info := by
    rw [hb₃, slice_put_behind (by
        rw [length_leBytes]
        show 36 + 4 ≤ 36 + _
        omega), hb₂, slice_put_behind (by
        rw [hpad]
        show 40 + _ + _ ≤ 36 + _
        omega), hb₁, hat]
    exact slice_blit_self b.mem _ info
  have hpayload : b₃.mem.slice digestedAt d = payload value := by
    refine slice_payload ?_ (slice_put_self (length_leBytes 4 _)) ?_
    · rw [hb₃, slice_put_behind (by rw [length_leBytes]; decide),
        hb₂, slice_put_before le_rfl, hb₁,
        slice_put_before (by rw [hat]; show 40 + _ ≤ 36 + _; omega), hf.values]
    · rw [hb₃, slice_put_behind (by
        rw [length_leBytes]
        show 36 + 4 ≤ 40 + _
        omega), hb₂, slice_put_self hpad]
  obtain ⟨b', hseal, hlen', hsame', hlayout⟩ :=
    encryptBlob_spec (b := b₃) hlen hfits hpayload C key hinfo
  rw [hvector, hsame.isEncrypted] at hlayout
  rw [← hd] at hseal
  refine ⟨b', ?_, hlen', hsame.trans hsame', hlayout⟩
  have h₁ : b.load (valueAt + value.length) info.length = .ok info :=
    load_eq hlen (by show 40 + _ + _ ≤ 32824; omega) hf.infos
  have h₂ : b.store (encryptedAt + (d + 16)) info = .ok b₁ :=
    store_eq hlen (by rw [hat]; show 36 + _ + _ ≤ 32824; omega)
  have h₃ : b₁.store (valueAt + value.length) (List.replicate (d - (value.length + 4)) 0) =
      .ok b₂ := store_eq hlen (by rw [hpad]; show 40 + _ + _ ≤ 32824; omega)
  have h₄ : b₂.store32 lengthAt (htonl value.length) = .ok b₃ :=
    store32_of_le (by rw [show b₂.len = sizeofBlob from hlen]; decide) _
  simp only [pack, hf.length, hf.infoLength, hdata, hdig, henc, h₁, h₂, h₃, h₄, hseal, ok_bind]
  have hsum : d + 16 + encryptedAt + info.length =
      36 + d + info.length := by
    show _ + 16 + 20 + _ = _
    omega
  rw [hsum]

/-! ### Reading -/

include hlen hfits hp in
/-- **The end of `readBlob`** on a structure with a payload, if the digested part is taken to be
`digested` bytes long: the description is read behind it. -/
theorem unpack_spec (digested : ℕ) (hn : (b.mem infoAt).toNat = info.length)
    (hd : digestedLength value.length ≤ digested) :
    (info = [] ∨ digestedAt + digested + info.length ≤ sizeofBlob) ∧
        (∃ b', unpack digested b = .ok (.noError, b') ∧ SameHeader b b' ∧
          b'.mem.word lengthAt = value.length ∧ b'.mem.slice valueAt value.length = value ∧
          b'.mem.slice (valueAt + value.length) info.length =
            b.mem.slice (digestedAt + digested) info.length) ∨
      (info ≠ [] ∧ sizeofBlob < digestedAt + digested + info.length) ∧
        unpack digested b = .error .outOfBounds := by
  have hD := digestedLength_bounds value.length
  have hword : b.mem.word lengthAt = htonl value.length := by
    have h := congrArg (List.take 4) hp
    rw [take_slice _ _ (by omega), payload, List.take_left' (length_leBytes 4 _)] at h
    rw [word, show b.mem.slice lengthAt 4 = leBytes 4 (htonl value.length) from h, leNat_leBytes]
    exact Nat.mod_eq_of_lt (htonl_lt _)
  have hvalue : b.mem.slice valueAt value.length = value := by
    have h := congrArg (fun l => (l.drop 4).take value.length) hp
    simp only [drop_slice] at h
    rw [take_slice _ _ (by omega), payload, List.drop_left' (length_leBytes 4 _),
      List.take_left' rfl] at h
    exact h
  have hL : htonl (b.mem.word lengthAt) = value.length := by
    rw [hword, htonl_htonl (by omega)]
  have hi32 : i32 value.length = value.length := i32_of_lt (by omega)
  have hstore : b.store32 lengthAt value.length = .ok (b.put lengthAt (leBytes 4 value.length)) :=
    store32_of_le (by rw [hlen]; decide) _
  set b₁ := b.put lengthAt (leBytes 4 value.length) with hb₁
  have hsame : SameHeader b b₁ := SameHeader.put (by decide) _
  have hok : ¬ ((value.length : ℤ) < 0 ∨ (digested : ℤ) - 4 < value.length) := by omega
  have hinfo₁ : (b₁.mem infoAt).toNat = info.length := by rw [hsame infoAt (by decide), hn]
  have hword₁ : b₁.mem.word lengthAt = value.length := by
    rw [hb₁, put_mem, word_blit_self]
    exact Nat.mod_eq_of_lt (by omega)
  have hvalue₁ : b₁.mem.slice valueAt value.length = value := by
    rw [hb₁, slice_put_behind (by rw [length_leBytes]; decide),
      hvalue]
  by_cases hnil : info = []
  · refine Or.inl ⟨Or.inl hnil, b₁, ?_, hsame, hword₁, hvalue₁, by rw [hnil]; rfl⟩
    have h0 : ¬ info.length ≠ 0 := by simp [hnil]
    simp only [unpack, hL, hi32, hstore, ok_bind, if_neg hok, hinfo₁, if_neg h0]
  · have h0 : info.length ≠ 0 := by simpa using hnil
    have hat : valueAt + ((digested : ℤ) - 4).toNat = digestedAt + digested := by
      show 40 + _ = 36 + _
      omega
    have hload : b₁.mem.slice (digestedAt + digested) info.length =
        b.mem.slice (digestedAt + digested) info.length := by
      rw [hb₁, slice_put_behind (by
        rw [length_leBytes]
        show 36 + 4 ≤ 36 + _
        omega)]
    by_cases hin : digestedAt + digested + info.length ≤ sizeofBlob
    · set moved := b.mem.slice (digestedAt + digested) info.length with hmoved
      have hlenm : moved.length = info.length := length_slice _ _ _
      have h₁ : b₁.load (digestedAt + digested) info.length = .ok moved := by
        rw [load_of_inside (Or.inr (by rw [show b₁.len = sizeofBlob from hlen]; exact hin)),
          hload]
      have h₂ : b₁.store (valueAt + value.length) moved =
          .ok (b₁.put (valueAt + value.length) moved) :=
        store_eq hlen (by rw [hlenm]; show 40 + _ + _ ≤ 32824; omega)
      refine Or.inl ⟨Or.inr hin, b₁.put (valueAt + value.length) moved, ?_,
        hsame.trans (SameHeader.put (show 4 ≤ 40 + _ by omega) _), ?_, ?_, slice_put_self hlenm⟩
      · simp only [unpack, hL, hi32, hstore, ok_bind, if_neg hok, hinfo₁, if_pos h0, hat, h₁,
          Int.toNat_natCast, h₂]
      · rw [put_mem, word_blit_of_disjoint (Or.inl (by show 36 + 4 ≤ 40 + _; omega)), hword₁]
      · rw [slice_put_before le_rfl, hvalue₁]
    · have hno : ¬ b₁.Inside (digestedAt + digested) info.length := by
        rintro (h | h)
        · exact h0 h
        · rw [show b₁.len = sizeofBlob from hlen] at h
          exact hin h
      have h₁ : b₁.load (digestedAt + digested) info.length = .error .outOfBounds := if_neg hno
      refine Or.inr ⟨⟨hnil, not_le.mp hin⟩, ?_⟩
      simp only [unpack, hL, hi32, hstore, ok_bind, if_neg hok, hinfo₁, if_pos h0, hat, h₁]
      rfl

/-- **The decryption** of a structure that was encrypted. -/
theorem decryptBlob_spec {vector : List UInt8} (hlen : b.len = sizeofBlob)
    (hfits : value.length + info.length ≤ 32768)
    (hl : Layout C key vector value info true b.mem) :
    ∃ b', decryptBlob C key (digestedLength value.length + 16) b =
        unpack (digestedLength value.length) b' ∧ b'.len = sizeofBlob ∧ SameHeader b b' ∧
      b'.mem.slice digestedAt (digestedLength value.length) = payload value ∧
      b'.mem.slice (digestedAt + digestedLength value.length) info.length = info := by
  have hD := digestedLength_bounds value.length
  set d := digestedLength value.length
  have hmd := C.length_md5 (payload value)
  obtain ⟨hvector, hcipher⟩ := hl.sealed rfl
  have hmod : ¬ (d + 16) % aesBlockSize ≠ 0 := by
    have := digestedLength_mod value.length
    simp only [aesBlockSize]
    omega
  set data := C.md5 (payload value) ++ payload value with hdata
  have hlendata : data.length = d + 16 := by
    rw [hdata, List.length_append, hmd, length_payload, Nat.add_comm]
  set cipher := C.encrypt key vector data with hcdef
  have hplain : C.decrypt key vector cipher = data :=
    C.decrypt_encrypt key vector data (by rw [hlendata]; simpa [aesBlockSize] using hmod)
  have hlenc : cipher.length = d + 16 := by
    rw [hcdef, C.length_encrypt, hlendata]
  have hlenv : vector.length = 16 := by rw [← hvector, length_slice]
  set next := (vector ++ cipher).drop (d + 16) with hnext
  have hlenn : next.length = 16 := by
    rw [hnext, List.length_drop, List.length_append, hlenv, hlenc]
    omega
  set b₁ := b.put encryptedAt data with hb₁
  set b₂ := b₁.put vectorAt next with hb₂
  -- what the new vector leaves of the data
  have hrest : ∀ {o n : ℕ}, 20 ≤ o → b₂.mem.slice o n = b₁.mem.slice o n := fun {o n} ho => by
    rw [hb₂, slice_put_behind (by rw [hlenn]; exact ho)]
  have hall : b₁.mem.slice encryptedAt (16 + d) = data := by
    rw [Nat.add_comm, hb₁, slice_put_self hlendata]
  rw [slice_add, hdata] at hall
  obtain ⟨hdigest, hpayload⟩ := List.append_inj hall (by rw [length_slice, hmd])
  have hpayload₂ : b₂.mem.slice digestedAt d = payload value := by
    rw [hrest (by decide)]
    exact hpayload
  have hinfo₂ : b₂.mem.slice (digestedAt + d) info.length = info := by
    rw [hrest (by show 20 ≤ 36 + _; omega), hb₁, slice_put_behind (by
      rw [hlendata]
      show 20 + (_ + 16) ≤ 36 + _
      omega), hl.infos]
  refine ⟨b₂, ?_, hlen, (SameHeader.put (by decide) _).trans (SameHeader.put (by decide) _),
    hpayload₂, hinfo₂⟩
  have h₁ : b.load encryptedAt (d + 16) = .ok cipher :=
    load_eq hlen (by show 20 + (_ + 16) ≤ 32824; omega) hcipher
  have h₂ : b.load vectorAt aesBlockSize = .ok vector := load_eq hlen (by decide) hvector
  have h₃ : b.store encryptedAt data = .ok b₁ :=
    store_eq hlen (by rw [hlendata]; show 20 + (_ + 16) ≤ 32824; omega)
  have h₄ : b₁.store vectorAt next = .ok b₂ :=
    store_eq hlen (by rw [hlenn]; decide)
  have hge : ¬ d + 16 < md5DigestLength := by
    simp only [md5DigestLength]
    omega
  have hsub : d + 16 - md5DigestLength = d := Nat.add_sub_cancel _ _
  have h₅ : b₂.load digestedAt d = .ok (payload value) :=
    load_eq hlen (by show 36 + _ ≤ 32824; omega) hpayload₂
  have h₆ : b₂.load digestAt md5DigestLength = .ok (C.md5 (payload value)) :=
    load_eq hlen (by decide) ((hrest (by decide)).trans hdigest)
  have hcast : ((d + 16 : ℕ) : ℤ) - (md5DigestLength : ℤ) = d := by
    simp only [md5DigestLength]
    omega
  simp only [decryptBlob, if_neg hmod, h₁, h₂, hplain, h₃, h₄, ← hnext, if_neg hge, hsub, h₅, h₆,
    ok_bind, ne_eq, not_true_eq_false, if_false, hcast]

/-! ### A blob and its file -/

variable {env : ReadEnv}

/-- A blob as the callers of the constructor make it. -/
def makeBlob (m : Mem) (value info : List UInt8) (type : UInt8) (encrypted fallback : Bool) :
    Except Fault Buffer := do
  let b ← createBlob m value info type
  .ok (setFallback fallback (setEncrypted encrypted b))

/-- `isFallback` -/
def isFallback (b : Buffer) : Bool := (b.mem flagsAt &&& flagFallback) != 0

theorem put_self (b : Buffer) (o : ℕ) (x : UInt8) : (b.put o [x]).mem o = x :=
  blit_of_mem (show 0 < [x].length from Nat.one_pos)

/-- The fields do not contain the flags, nor what lies between the header and the length. -/
theorem Fields.put (hf : Fields b value info)
    (h : o + bs.length ≤ infoAt ∨ 4 ≤ o ∧ o + bs.length ≤ lengthAt) :
    Fields (b.put o bs) value info := by
  have hend : o + bs.length ≤ lengthAt := h.elim (fun h => h.trans (by decide)) And.right
  refine ⟨hf.len, ?_, ?_, ?_, ?_, hf.fits⟩
  · rw [put_mem, word_blit_of_disjoint (Or.inr hend), hf.length]
  · rw [slice_put_behind (hend.trans (by decide)), hf.values]
  · rw [← hf.infoLength, put_mem]
    exact congrArg _ (h.elim blit_of_ge fun h => blit_of_lt h.1)
  · rw [slice_put_behind (hend.trans (by show 36 ≤ 40 + _; omega)), hf.infos]

theorem Fields.setFlag (hf : Fields b value info) (flag : UInt8) (on : Bool) :
    Fields (setFlag flag on b) value info :=
  hf.put (.inl (by show 2 + 1 ≤ 3; omega))

/-- **The constructor** fills the fields. -/
theorem createBlob_spec (m : Mem) (type : UInt8) (hinfo : info.length ≤ 255)
    (hfits : value.length + info.length ≤ 32768) :
    ∃ b, createBlob m value info type = .ok b ∧ Fields b value info ∧
      b.mem versionAt = currentBlobVersion ∧ b.mem typeAt = type ∧
      b.mem flagsAt = if type = typeMasterKey then flagEncrypted else 0 := by
  set b₁ := (rawBlob m).put lengthAt (leBytes 4 value.length) with hb₁
  set b₂ := b₁.put valueAt value with hb₂
  set b₃ := b₂.put infoAt [UInt8.ofNat info.length] with hb₃
  set b₄ := b₃.put (valueAt + value.length) info with hb₄
  set b₅ := b₄.put versionAt [currentBlobVersion] with hb₅
  set b₆ := b₅.put typeAt [type] with hb₆
  set b₇ := b₆.put flagsAt [if type = typeMasterKey then flagEncrypted else 0] with hb₇
  have hvalue : b₄.mem.slice valueAt value.length = value := by
    rw [hb₄, slice_put_before le_rfl, hb₃, slice_put_behind (by show 3 + 1 ≤ 40; omega)]
    exact slice_blit_self b₁.mem valueAt value
  have hword : b₄.mem.word lengthAt = value.length := by
    rw [hb₄, put_mem, word_blit_of_disjoint (Or.inl (by show 36 + 4 ≤ 40 + _; omega)), hb₃,
      put_mem, word_blit_of_disjoint (Or.inr (by show 3 + 1 ≤ 36; omega)), hb₂,
      put_mem,
      word_blit_of_disjoint (Or.inl (by decide)), hb₁, put_mem, word_blit_self]
    exact Nat.mod_eq_of_lt (by omega)
  have hcount : b₄.mem infoAt = UInt8.ofNat info.length := by
    rw [hb₄, put_mem, blit_of_lt (by show 3 < 40 + _; omega)]
    exact put_self _ _ _
  have hf : Fields b₄ value info := by
    refine ⟨rfl, hword, hvalue, ?_, slice_blit_self b₃.mem (valueAt + value.length) info, hfits⟩
    rw [hcount, UInt8.toNat_ofNat']
    exact Nat.mod_eq_of_lt (by omega)
  -- the rest of the header does not reach the fields
  have hf₇ : Fields b₇ value info := ((hf.put (.inl (show 0 + 1 ≤ 3 by omega))).put
    (.inl (show 1 + 1 ≤ 3 by omega))).put (.inl (show 2 + 1 ≤ 3 by omega))
  refine ⟨b₇, ?_, hf₇, ?_, ?_, ?_⟩
  · have h₁ : (rawBlob m).store32 lengthAt value.length = .ok b₁ :=
      store32_of_le (by show 36 + 4 ≤ 32824; omega) _
    have h₂ : b₁.store valueAt value = .ok b₂ :=
      store_eq rfl (by show 40 + _ ≤ 32824; omega)
    have h₃ : b₂.store infoAt [UInt8.ofNat info.length] = .ok b₃ :=
      store_eq rfl (by show 3 + 1 ≤ 32824; omega)
    have h₄ : b₃.store (valueAt + value.length) info = .ok b₄ :=
      store_eq rfl (by show 40 + _ + _ ≤ 32824; omega)
    have h₅ : b₄.store versionAt [currentBlobVersion] = .ok b₅ :=
      store_eq rfl (by decide)
    have h₆ : b₅.store typeAt [type] = .ok b₆ :=
      store_eq rfl (by show 1 + 1 ≤ 32824; omega)
    simp only [createBlob, h₁, h₂, h₃, h₄, h₅, h₆, ok_bind]
    exact store_eq rfl (by show 2 + 1 ≤ 32824; omega)
  · rw [hb₇, put_mem, blit_of_lt (by decide), hb₆, put_mem, blit_of_lt (by decide)]
    exact put_self _ _ _
  · rw [hb₇, put_mem, blit_of_lt (by decide)]
    exact put_self _ _ _
  · exact put_self _ _ _

theorem setFlag_flags (flag : UInt8) (on : Bool) (b : Buffer) :
    (setFlag flag on b).mem flagsAt =
      if on then b.mem flagsAt ||| flag else b.mem flagsAt &&& ~~~flag :=
  put_self _ _ _

theorem setFlag_of_ne {a : ℕ} (ha : a ≠ flagsAt) (flag : UInt8) (on : Bool) (b : Buffer) :
    (setFlag flag on b).mem a = b.mem a := by
  rw [setFlag, put_mem]
  rcases Nat.lt_or_gt_of_ne ha with h | h
  · exact blit_of_lt h
  · exact blit_of_ge h

/-- A blob has what it is made from. -/
theorem makeBlob_spec (m : Mem) (type : UInt8) (encrypted fallback : Bool)
    (hinfo : info.length ≤ 255) (hfits : value.length + info.length ≤ 32768) :
    ∃ b, makeBlob m value info type encrypted fallback = .ok b ∧ Fields b value info ∧
      b.mem versionAt = currentBlobVersion ∧ b.mem typeAt = type ∧
      isEncrypted b = encrypted ∧ isFallback b = fallback := by
  obtain ⟨b, hb, hf, hversion, htype, hflags⟩ := createBlob_spec m type hinfo hfits
  have hversion' : ∀ on₁ on₂, (setFallback on₂ (setEncrypted on₁ b)).mem versionAt =
      currentBlobVersion := fun on₁ on₂ => by
    rw [setFallback, setEncrypted, setFlag_of_ne (by decide), setFlag_of_ne (by decide), hversion]
  have hflags' : (setFallback fallback (setEncrypted encrypted b)).mem flagsAt =
      (if encrypted then flagEncrypted else 0) ||| if fallback then flagFallback else 0 := by
    rw [setFallback, setEncrypted, setFlag_flags, setFlag_flags, hflags]
    by_cases hmaster : type = typeMasterKey
    · rw [if_pos hmaster]
      cases encrypted <;> cases fallback <;> rfl
    · rw [if_neg hmaster]
      cases encrypted <;> cases fallback <;> rfl
  refine ⟨setFallback fallback (setEncrypted encrypted b), by rw [makeBlob, hb, ok_bind],
    (hf.setFlag _ _).setFlag _ _, hversion' _ _, ?_, ?_, ?_⟩
  · rw [setFallback, setEncrypted, setFlag_of_ne (by decide), setFlag_of_ne (by decide), htype]
  · rw [isEncrypted, hversion', hflags']
    cases encrypted <;> cases fallback <;> rfl
  · rw [isFallback, hflags']
    cases encrypted <;> cases fallback <;> rfl

/-- The vector does not belong to the fields either. -/
theorem Fields.vector (hf : Fields b value info) (vector : Vector UInt8 16) :
    Fields (b.put vectorAt vector.toList) value info ∧
      SameHeader b (b.put vectorAt vector.toList) := by
  refine ⟨hf.put (.inr ⟨le_rfl, ?_⟩), SameHeader.put le_rfl _⟩
  rw [Vector.length_toList]
  decide

/-- **`writeBlob`** of an unlocked user comes to an end, and the file it leaves is laid out. -/
theorem writeBlob_spec (C : Crypto κ) (key : κ) (env : WriteEnv) (hf : Fields b value info) :
    ∃ r b', writeBlob C key .noError env b = .ok r ∧ SameHeader b b' ∧
      (∃ vector, Layout C key vector value info (isEncrypted b) b'.mem) ∧
      ∀ file, r.1 = .noError → r.2.2 = some file →
        file = b'.mem.slice 0 (36 + digestedLength value.length + info.length) := by
  have hfile : ∀ (b' : Buffer) (n : ℕ) (file : List UInt8), (writeFile env b' n).1 = .noError →
      (writeFile env b' n).2 = some file → file = b'.mem.slice 0 n := by
    intro b' n file
    rw [writeFile]
    split_ifs <;> simp_all
  cases henc : isEncrypted b with
  | false =>
    obtain ⟨b', hpack, -, hsame, hlayout⟩ := pack_spec C key hf
    rw [henc] at hlayout
    refine ⟨_, b', by simp only [writeBlob, henc, hpack, ok_bind]; rfl, hsame, ⟨_, hlayout⟩,
      fun file h₁ h₂ => hfile b' _ file h₁ h₂⟩
  | true =>
    cases hrand : env.random with
    | none =>
      -- there is no file, so any layout will do
      obtain ⟨b', -, -, hsame, hlayout⟩ := pack_spec C key hf
      rw [henc] at hlayout
      exact ⟨(.systemError, b, none), b', by simp [writeBlob, henc, hrand], hsame, ⟨_, hlayout⟩,
        fun file h => by cases h⟩
    | some vector =>
      obtain ⟨hf', hsame₁⟩ := hf.vector vector
      obtain ⟨b', hpack, -, hsame, hlayout⟩ := pack_spec C key hf'
      rw [hsame₁.isEncrypted, henc] at hlayout
      refine ⟨_, b', by simp only [writeBlob, henc, if_true, hrand, hpack, ok_bind]; rfl,
        hsame₁.trans hsame, ⟨_, hlayout⟩, fun file h₁ h₂ => hfile b' _ file h₁ h₂⟩

theorem Fields.sameInfo (hf : Fields b value info) (hs : SameHeader b b') :
    (b'.mem infoAt).toNat = info.length := by
  rw [hs infoAt (by decide), hf.infoLength]

/-- A file on the memory of a blob. -/
def loaded (m : Mem) (b : Buffer) (n : ℕ) : Buffer := (rawBlob m).put 0 (b.mem.slice 0 n)

theorem slice_loaded {k : ℕ} (m : Mem) (b : Buffer) (h : o + k ≤ n) :
    (loaded m b n).mem.slice o k = b.mem.slice o k := by
  have hs := @slice_blit_slice m b.mem 0 0 k o n h
  rwa [Nat.zero_add] at hs

theorem Layout.loaded {vector : List UInt8} {encrypted : Bool}
    (hl : Layout C key vector value info encrypted b'.mem) (m : Mem) :
    Layout C key vector value info encrypted
      (loaded m b' (36 + digestedLength value.length + info.length)).mem := by
  have hD := digestedLength_bounds value.length
  refine ⟨fun henc => ⟨?_, ?_⟩, fun henc => ?_, ?_⟩
  · rw [slice_loaded m b' (by show 4 + 16 ≤ _; omega), (hl.sealed henc).1]
  · rw [slice_loaded m b' (by show 20 + (_ + 16) ≤ _; omega), (hl.sealed henc).2]
  · rw [slice_loaded m b' (by show 36 + _ ≤ _; omega), hl.plain henc]
  · rw [slice_loaded m b' (by show 36 + _ + _ ≤ _; omega), hl.infos]

/-- **`readBlob`** of a file that was laid out, on memory that holds anything. -/
theorem readBlob_eq (C : Crypto κ) (key : κ) (henv : env.opened = true ∧ env.closed = true)
    (hf : Fields b value info) (hsame : SameHeader b b') (m : Mem) :
    SameHeader b (loaded m b' (36 + digestedLength value.length + info.length)) ∧
      readBlob C key .noError env
          (some (b'.mem.slice 0 (36 + digestedLength value.length + info.length))) (rawBlob m) =
        if isEncrypted b then
          decryptBlob C key (digestedLength value.length + 16)
            (loaded m b' (36 + digestedLength value.length + info.length))
        else
          unpack (digestedLength value.length + 16 : ℕ)
            (loaded m b' (36 + digestedLength value.length + info.length)) := by
  have hD := digestedLength_bounds value.length
  have hfits := hf.fits
  set n := 36 + digestedLength value.length + info.length with hn
  have hhead : SameHeader b (loaded m b' n) := fun a ha => by
    have h := slice_loaded m b' (show 0 + 4 ≤ n by omega)
    have ha' := eq_of_slice_eq h ha
    rw [Nat.zero_add] at ha'
    rw [ha', hsame a ha]
  refine ⟨hhead, ?_⟩
  have htake : (b'.mem.slice 0 n).take sizeofBlob = b'.mem.slice 0 n := by
    refine List.take_of_length_le ?_
    rw [length_slice]
    show n ≤ 32824
    omega
  have hinfo := hf.sameInfo hhead
  have hnot : ¬ n < encryptedAt := by
    show ¬ n < 20
    omega
  have hlen : (n : ℤ) - (encryptedAt + (info.length : ℤ)) =
      ((digestedLength value.length + 16 : ℕ) : ℤ) := by
    rw [show encryptedAt = 20 from rfl]
    omega
  have hneg : ¬ ((digestedLength value.length + 16 : ℕ) : ℤ) < 0 := by omega
  have hput : (rawBlob m).put 0 (b'.mem.slice 0 n) = loaded m b' n := rfl
  simp only [readBlob, henv.1, henv.2, not_true_eq_false, if_false, htake, ne_eq, and_false,
    length_slice, if_neg hnot, hput, hinfo, hlen, if_neg hneg, Int.toNat_natCast,
    hhead.isEncrypted]

section

variable {vector : List UInt8} (henv : env.opened = true ∧ env.closed = true)
  (hf : Fields b value info) (hsame : SameHeader b b')
  (hl : Layout C key vector value info (isEncrypted b) b'.mem)

include henv hf hsame hl

/-- An encrypted blob, or one without a description, is read back. -/
theorem readBack (hok : isEncrypted b = true ∨ info = []) (m : Mem) :
    ∃ b₂, readBlob C key .noError env
        (some (b'.mem.slice 0 (36 + digestedLength value.length + info.length))) (rawBlob m) =
      .ok (.noError, b₂) ∧ contents b₂ = contents b := by
  have hD := digestedLength_bounds value.length
  have hfits := hf.fits
  obtain ⟨hhead, hread⟩ := readBlob_eq C key henv hf hsame m
  have hll := hl.loaded m
  -- what is left to do when the end of `readBlob` leaves the right description
  have hdone : ∀ {b₁ b₂ : Buffer}, SameHeader b b₁ → SameHeader b₁ b₂ →
      b₂.mem.word lengthAt = value.length → b₂.mem.slice valueAt value.length = value →
      b₂.mem.slice (valueAt + value.length) info.length = info → contents b₂ = contents b := by
    intro b₁ b₂ h₁ h₂ hw hv hi
    have hs := h₁.trans h₂
    rw [hf.contents, contents, hw, hv, hs infoAt (by decide), hf.infoLength, hi,
      hs typeAt (by decide), hs flagsAt (by decide), hs versionAt (by decide)]
  rw [hread]
  cases henc : isEncrypted b with
  | true =>
    rw [henc] at hll
    obtain ⟨b₁, hdec, hlen₁, hsame₁, hp, hi⟩ := decryptBlob_spec rfl hfits hll
    have hn := hf.sameInfo (hhead.trans hsame₁)
    rw [if_pos rfl, hdec]
    rcases unpack_spec hlen₁ hfits hp _ hn le_rfl with
      ⟨-, b₂, hunpack, hs, hw, hv, hinfo⟩ | ⟨⟨-, hout⟩, -⟩
    · exact ⟨b₂, hunpack, hdone (hhead.trans hsame₁) hs hw hv (hinfo.trans hi)⟩
    · have : sizeofBlob = 32824 := rfl
      have : digestedAt = 36 := rfl
      omega
  | false =>
    have hnil : info = [] := hok.resolve_left (by rw [henc]; exact Bool.false_ne_true)
    rw [henc] at hll
    have hn := hf.sameInfo hhead
    rw [if_neg Bool.false_ne_true]
    rcases unpack_spec rfl hfits (hll.plain rfl) (digestedLength value.length + 16) hn
        (Nat.le_add_right _ _) with ⟨-, b₂, hunpack, hs, hw, hv, -⟩ | ⟨⟨hne, -⟩, -⟩
    · exact ⟨b₂, hunpack, hdone hhead hs hw hv (by rw [hnil]; rfl)⟩
    · exact absurd hnil hne

/-- A description of a blob that is not encrypted is taken from what the memory held before. -/
theorem not_readBack (henc : isEncrypted b = false) (hne : info ≠ []) :
    ∃ m, ∀ b₂, readBlob C key .noError env
        (some (b'.mem.slice 0 (36 + digestedLength value.length + info.length))) (rawBlob m) =
      .ok (.noError, b₂) → contents b₂ ≠ contents b := by
  have hpos : 0 < info.length := List.length_pos_iff.mpr hne
  obtain ⟨x, hx⟩ : ∃ x : UInt8, x ≠ info[info.length - 1] :=
    ⟨info[info.length - 1] + 1, by simp⟩
  -- the last byte of the description would be at least 16 bytes behind the end of the file
  refine ⟨fun _ => x, fun b₂ hb₂ hcon => ?_⟩
  obtain ⟨hhead, hread⟩ := readBlob_eq C key henv hf hsame fun _ => x
  have hll := hl.loaded fun _ => x
  have hn := hf.sameInfo hhead
  rw [henc] at hll
  rw [hread, henc, if_neg Bool.false_ne_true] at hb₂
  rcases unpack_spec rfl hf.fits (hll.plain rfl) (digestedLength value.length + 16) hn
      (Nat.le_add_right _ _) with ⟨-, b₃, hunpack, hs, hw, -, hinfo⟩ | ⟨-, hfault⟩
  · rw [hunpack] at hb₂
    cases hb₂
    have hi := congrArg Contents.info hcon
    rw [hf.contents, contents, hw, hs infoAt (by decide), hn, hinfo] at hi
    have hlast := List.getElem_of_eq hi (i := info.length - 1) (by rw [length_slice]; omega)
    rw [getElem_slice] at hlast
    refine hx (Eq.trans (Eq.symm ?_) hlast)
    rw [loaded, put_mem]
    refine blit_of_ge ?_
    rw [length_slice]
    show 0 + (36 + _ + _) ≤ 36 + (_ + 16) + (_ - 1)
    omega
  · rw [hfault] at hb₂
    cases hb₂

end

/-- **A blob is read back** exactly if it is encrypted or has no description. -/
theorem readBack_iff (C : Crypto κ) (key : κ) (m : Mem) (value info : List UInt8) (type : UInt8)
    (encrypted fallback : Bool) (hinfo : info.length ≤ 255)
    (hsize : value.length + info.length ≤ valueSize) :
    ∃ b, makeBlob m value info type encrypted fallback = .ok b ∧
      contents b = ⟨value, info, type, b.mem flagsAt, currentBlobVersion⟩ ∧
      isEncrypted b = encrypted ∧ isFallback b = fallback ∧
      ∀ env, (∃ r, writeBlob C key .noError env b = .ok r) ∧
        ∀ b' file, writeBlob C key .noError env b = .ok (.noError, b', some file) →
          ∀ env' : ReadEnv, env'.opened = true ∧ env'.closed = true →
            ((∀ m', ∃ b₂, readBlob C key .noError env' (some file) (rawBlob m') =
                .ok (.noError, b₂) ∧ contents b₂ = contents b) ↔
              encrypted = true ∨ info = []) := by
  obtain ⟨b, hb, hf, hversion, htype, henc, hfall⟩ :=
    makeBlob_spec m type encrypted fallback hinfo hsize
  refine ⟨b, hb, by rw [hf.contents, htype, hversion], henc, hfall, fun env => ?_⟩
  obtain ⟨r, b', hwrite, hsame, ⟨vector, hlayout⟩, hfile⟩ := writeBlob_spec C key env hf
  refine ⟨⟨r, hwrite⟩, fun b₁ file hok env' henv => ?_⟩
  rw [hwrite] at hok
  cases hok
  obtain rfl := hfile file rfl rfl
  constructor
  · intro hall
    by_contra hno
    push Not at hno
    obtain ⟨m', hm'⟩ := not_readBack henv hf hsame hlayout
      (by rw [henc]; exact Bool.eq_false_iff.mpr hno.1) hno.2
    obtain ⟨b₂, hread, hcon⟩ := hall m'
    exact hm' b₂ hread hcon
  · intro hok m'
    exact readBack henv hf hsame hlayout (by rw [henc]; exact hok) m'

/-- No encryption, and a digest of zeros. -/
def plainCrypto : Crypto Unit where
  encrypt _ _ data := data
  decrypt _ _ data := data
  md5 _ := List.replicate 16 0
  length_encrypt _ _ _ := rfl
  length_decrypt _ _ _ := rfl
  length_md5 _ := rfl
  decrypt_encrypt _ _ _ _ := rfl

/-- A system in which everything succeeds. -/
def smooth : WriteEnv := ⟨some (Vector.replicate 16 0), true, 100, true, true⟩

/-- An encrypted blob with a description. -/
theorem readBack_iff_described : ∃ b b' file,
    makeBlob (fun _ => 7) [1, 2] [9] 1 true false = .ok b ∧
    writeBlob plainCrypto () .noError smooth b = .ok (.noError, b', some file) ∧
    ∀ m', ∃ b₂, readBlob plainCrypto () .noError ⟨true, true⟩ (some file) (rawBlob m') =
      .ok (.noError, b₂) ∧ contents b₂ = contents b := by
  obtain ⟨b, hb, -, -, -, hread⟩ := readBack_iff plainCrypto () (fun _ => 7) [1, 2] [9] 1 true false
    (by decide) (by decide)
  have hwritten : (do
      let b ← makeBlob (fun _ => 7) [1, 2] [9] 1 true false
      let (response, _, file) ← writeBlob plainCrypto () .noError smooth b
      .ok (response, file.isSome)) =
        (.ok (.noError, true) : Except Mem.Fault (ResponseCode × Bool)) := by decide +kernel
  obtain ⟨hall, hback⟩ := hread smooth
  obtain ⟨⟨response, b', file⟩, hr⟩ := hall
  rw [hb] at hwritten
  simp only [bind, Except.bind, hr, Except.ok.injEq, Prod.mk.injEq, Option.isSome_iff_exists]
    at hwritten
  obtain ⟨rfl, bytes, rfl⟩ := hwritten
  exact ⟨b, b', bytes, hb, hr, (hback b' bytes hr ⟨true, true⟩ ⟨rfl, rfl⟩).mpr (Or.inl rfl)⟩

/-- **A description that is not encrypted is lost**: memory that held fives gives a five for it. -/
theorem description_lost :
    (do
      let b ← makeBlob (fun _ => 0) [1] [9] 1 false false
      let (_, _, file) ← writeBlob plainCrypto () .noError smooth b
      let (response, b') ← readBlob plainCrypto () .noError ⟨true, true⟩ file (rawBlob fun _ => 5)
      .ok (response, contents b, contents b')) =
        (.ok (.noError, ⟨[1], [9], 1, 0, 2⟩, ⟨[1], [5], 1, 0, 2⟩) :
          Except Fault (ResponseCode × Contents × Contents)) := by
  decide +kernel

end Keystore
