/-
Records from a stream (`libcutils/record_stream.c`).

A record is sent with its length in four bytes before it.  `record_stream_get_next` gives the next
record from a buffer that holds one record of the greatest length; it reads at most once, and asks
to be called again if the record is not complete by then.

* Pointers into the buffer are offsets.
* What `read` does is an argument of each call: it has nothing to give yet, or it gives so many
  bytes, if there are so many left and there is room for them.
* `Pending` — the bytes in the buffer that were not given out;
* `results_eq` — whatever `read` does, the calls give the records in order and then the end.
-/
import AndroidSystem.CountedHeap
import AndroidSystem.LittleEndian

open CountedHeap List

/-- `struct RecordStream`, with the pointers as offsets into the buffer. -/
structure RecordStream where
  maxRecordLen : ℕ
  buffer : List UInt8
  unconsumed : ℕ
  readEnd : ℕ

namespace RecordStream

/-- `HEADER_SIZE` -/
def headerSize : ℕ := 4

/-- `buffer_end` -/
def bufferEnd (rs : RecordStream) : ℕ := rs.maxRecordLen + headerSize

/-- `record_stream_new`; `memory` is what `malloc` returns. -/
def recordStreamNew (maxRecordLen : ℕ) (memory : List UInt8) : RecordStream :=
  ⟨maxRecordLen, memory, 0, 0⟩

/-- `ntohl` of the four bytes at a pointer. -/
def ntohl (p : List UInt8) : ℕ := leNat (p.take headerSize).reverse

/-- `getEndOfRecord` -/
def getEndOfRecord (buffer : List UInt8) (pBegin pEnd : ℕ) : Option ℕ :=
  if pEnd < pBegin + headerSize then none
  else
    let pRet := pBegin + headerSize + ntohl (buffer.drop pBegin)
    if pEnd < pRet then none else some pRet

/-- `getNextRecord`; a record is given by its bytes. -/
def getNextRecord (rs : RecordStream) : Option (List UInt8 × RecordStream) :=
  match getEndOfRecord rs.buffer rs.unconsumed rs.readEnd with
  | none => none
  | some recordEnd =>
    let recordStart := rs.unconsumed + headerSize
    some ((rs.buffer.drop recordStart).take (recordEnd - recordStart),
      { rs with unconsumed := recordEnd })

/-- The remainder is moved to the beginning of the buffer. -/
def moveRemainder (rs : RecordStream) : RecordStream :=
  if rs.unconsumed ≠ 0 then
    let toMove := rs.readEnd - rs.unconsumed
    { rs with
      buffer := overwrite rs.buffer 0 ((rs.buffer.drop rs.unconsumed).take toMove)
      readEnd := toMove
      unconsumed := 0 }
  else rs

/-- What `record_stream_get_next` returns. -/
inductive Result
  | record (bytes : List UInt8)
  | endOfStream
  | again
  | tooLong
  deriving DecidableEq, Repr

/-- `record_stream_get_next`.  The bytes that are still to come are `fd`; `read` has nothing yet
(`none`), or gives at most `n + 1` bytes (`some n`). -/
def recordStreamGetNext (rs : RecordStream) (fd : List UInt8) (offer : Option ℕ) :
    RecordStream × List UInt8 × Result :=
  match getNextRecord rs with
  | some (bytes, rs) => (rs, fd, .record bytes)
  | none =>
    if rs.unconsumed = 0 ∧ rs.readEnd = rs.bufferEnd then (rs, fd, .tooLong)
    else
      let rs := moveRemainder rs
      match offer with
      | none => (rs, fd, .again)
      | some n =>
        let bytes := fd.take (min (n + 1) (rs.bufferEnd - rs.readEnd))
        if bytes.length = 0 then (rs, fd, .endOfStream)
        else
          let rs := { rs with
            buffer := overwrite rs.buffer rs.readEnd bytes
            readEnd := rs.readEnd + bytes.length }
          match getNextRecord rs with
          | some (record, rs) => (rs, fd.drop bytes.length, .record record)
          | none => (rs, fd.drop bytes.length, .again)

/-- What the calls return, one for each offer. -/
def results : RecordStream → List UInt8 → List (Option ℕ) → List Result
  | _, _, [] => []
  | rs, fd, offer :: offers =>
    let (rs, fd, result) := recordStreamGetNext rs fd offer
    result :: results rs fd offers

/-- A record as it is sent. -/
def encode (bytes : List UInt8) : List UInt8 := (leBytes 4 bytes.length).reverse ++ bytes

/-! ### The buffer -/

/-- The bytes `p` of the buffer are still to be given out. -/
def Pending (rs : RecordStream) (p : List UInt8) : Prop :=
  ∃ done free, rs.buffer = done ++ (p ++ free) ∧ rs.unconsumed = done.length ∧
    rs.readEnd = done.length + p.length ∧ rs.buffer.length = rs.bufferEnd

variable {rs : RecordStream} {p q r fd : List UInt8} {left : List (List UInt8)}

theorem length_encode (r : List UInt8) : (encode r).length = headerSize + r.length := by
  simp [encode, headerSize]

theorem ntohl_encode (hr : r.length < 2 ^ 32) (q : List UInt8) :
    ntohl (encode r ++ q) = r.length := by
  rw [ntohl, encode, append_assoc, take_left' (by simp [headerSize]),
    reverse_reverse, leNat_leBytes]
  exact Nat.mod_eq_of_lt hr

/-- A record that is complete is given out. -/
theorem getNextRecord_complete (h : Pending rs (encode r ++ q)) (hr : r.length < 2 ^ 32) :
    ∃ rs', getNextRecord rs = some (r, rs') ∧ Pending rs' q ∧
      rs'.maxRecordLen = rs.maxRecordLen := by
  obtain ⟨done, free, hbuf, hun, hend, hlen⟩ := h
  have hget : getEndOfRecord rs.buffer rs.unconsumed rs.readEnd =
      some (done.length + headerSize + r.length) := by
    rw [length_append, length_encode] at hend
    rw [getEndOfRecord, hbuf, hun, drop_left, append_assoc, ntohl_encode hr, hend,
      if_neg (by omega), if_neg (by omega)]
  refine ⟨{ rs with unconsumed := done.length + headerSize + r.length }, ?_,
    ⟨done ++ encode r, free, ?_, ?_, ?_, hlen⟩, rfl⟩
  · have hdrop : rs.buffer.drop (done.length + headerSize) = r ++ (q ++ free) := by
      rw [hbuf, ← drop_drop, drop_left, encode]
      simp [headerSize]
    rw [getNextRecord, hget]
    simp only [hun, hdrop, Nat.add_sub_cancel_left, take_left]
  · simp [hbuf]
  · rw [length_append, length_encode, Nat.add_assoc]
  · rw [hend, length_append, length_append, length_encode]
    omega

/-- A record that is not complete is not given out. -/
theorem getNextRecord_begun (h : Pending rs p) (hp : p <+: encode r)
    (hne : p.length < headerSize + r.length) (hr : r.length < 2 ^ 32) :
    getNextRecord rs = none := by
  obtain ⟨done, free, hbuf, hun, hend, -⟩ := h
  have hget : getEndOfRecord rs.buffer rs.unconsumed rs.readEnd = none := by
    rw [getEndOfRecord, hun, hend]
    by_cases hshort : p.length < headerSize
    · rw [if_pos (by omega)]
    · -- the header is there
      obtain ⟨s, hs⟩ := hp
      have hhead : ntohl (rs.buffer.drop done.length) = r.length := by
        rw [hbuf, drop_left, ntohl, take_append_of_le_length (by omega), ← ntohl,
          ← ntohl_encode hr [], append_nil, ← hs, ntohl, ntohl,
          take_append_of_le_length (by omega)]
      rw [if_neg (by omega), hhead, if_pos (by omega)]
  rw [getNextRecord, hget]

theorem Pending.moveRemainder (h : Pending rs p) :
    Pending rs.moveRemainder p ∧ rs.moveRemainder.unconsumed = 0 ∧
      rs.moveRemainder.maxRecordLen = rs.maxRecordLen := by
  obtain ⟨done, free, hbuf, hun, hend, hlen⟩ := h
  rw [RecordStream.moveRemainder]
  split
  · refine ⟨⟨[], (done ++ (p ++ free)).drop p.length, ?_, rfl, ?_, ?_⟩, rfl, rfl⟩
    · simp [hbuf, hun, hend, overwrite]
    · simp [hun, hend]
    · rw [length_overwrite (by simp [hbuf, hun, hend]; omega)]
      exact hlen
  · exact ⟨⟨done, free, hbuf, hun, hend, hlen⟩, by omega, rfl⟩

/-- Bytes are read behind those that are pending. -/
theorem Pending.read {bytes : List UInt8} (h : Pending rs p)
    (hroom : bytes.length ≤ rs.bufferEnd - rs.readEnd) :
    Pending { rs with
      buffer := overwrite rs.buffer rs.readEnd bytes
      readEnd := rs.readEnd + bytes.length } (p ++ bytes) := by
  obtain ⟨done, free, hbuf, hun, hend, hlen⟩ := h
  have hsum : done.length + (p.length + free.length) = rs.bufferEnd := by
    rw [← hlen, hbuf, length_append, length_append]
  refine ⟨done, free.drop bytes.length, ?_, hun, ?_, ?_⟩
  · have hsplit : rs.buffer = (done ++ p) ++
        (free.take bytes.length ++ free.drop bytes.length) := by
      rw [take_append_drop, hbuf, append_assoc]
    have hw := overwrite_append (done ++ p) (free.take bytes.length) (free.drop bytes.length) bytes
      (by rw [length_take]; omega)
    rw [← hsplit, length_append, ← hend] at hw
    simpa using hw
  · rw [length_append, ← Nat.add_assoc, ← hend]
  · rw [length_overwrite (by omega)]
    exact hlen

/-! ### Calls -/

/-- The stream with the records `left` is partly in the buffer and partly still to come. -/
structure Inv (rs : RecordStream) (fd : List UInt8) (left : List (List UInt8)) : Prop where
  pending : ∃ p, Pending rs p ∧ p ++ fd = left.flatMap encode
  max_le : rs.maxRecordLen ≤ 0xffff
  len_le : ∀ r ∈ left, r.length ≤ rs.maxRecordLen

/-- The outcome of a call. -/
inductive Outcome (fd : List UInt8) (left : List (List UInt8)) (offer : Option ℕ) :
    RecordStream × List UInt8 × Result → Prop
  | record {rs' fd' r left'} : left = r :: left' → Inv rs' fd' left' → fd'.length ≤ fd.length →
      Outcome fd left offer (rs', fd', .record r)
  | endOfStream {rs'} : left = [] → Inv rs' fd left →
      Outcome fd left offer (rs', fd, .endOfStream)
  | again {rs' fd'} : Inv rs' fd' left →
      (offer = none ∧ fd' = fd ∨ offer ≠ none ∧ fd'.length < fd.length) →
      Outcome fd left offer (rs', fd', .again)

/-- What is in the buffer has a complete record, or is the beginning of one. -/
theorem pending_cases (h : p ++ fd = (r :: left).flatMap encode) :
    (∃ q, p = encode r ++ q ∧ q ++ fd = left.flatMap encode) ∨
      p <+: encode r ∧ p.length < headerSize + r.length := by
  by_cases hlen : headerSize + r.length ≤ p.length
  · obtain ⟨q, rfl⟩ : encode r <+: p := by
      refine prefix_of_prefix_length_le (prefix_append _ _) (h ▸ prefix_append p fd) ?_
      rw [length_encode]
      exact hlen
    rw [append_assoc] at h
    exact Or.inl ⟨q, rfl, append_cancel_left h⟩
  · refine Or.inr ⟨?_, not_le.mp hlen⟩
    refine prefix_of_prefix_length_le (h ▸ prefix_append p fd) (prefix_append _ _) ?_
    rw [length_encode]
    omega

/-- The buffer has a record, or there is room for the rest of one that is still to come. -/
theorem Inv.next (h : Inv rs fd left) :
    (∃ r left' rs', left = r :: left' ∧ getNextRecord rs = some (r, rs') ∧ Inv rs' fd left') ∨
      getNextRecord rs = none ∧ (fd = [] → left = []) ∧
        ∃ p, Pending rs p ∧ p ++ fd = left.flatMap encode ∧ p.length < rs.bufferEnd := by
  obtain ⟨⟨p, hp, hstream⟩, hmax, hlen⟩ := h
  cases left with
  | nil =>
    obtain ⟨rfl, -⟩ := append_eq_nil_iff.mp hstream
    exact Or.inr ⟨getNextRecord_begun (r := []) hp nil_prefix (by simp [headerSize]) (by simp),
      fun _ => rfl, [], hp, hstream, by simp [bufferEnd, headerSize]⟩
  | cons r left =>
    obtain ⟨hr, hleft⟩ := forall_mem_cons.mp hlen
    rcases pending_cases hstream with ⟨q, rfl, hq⟩ | ⟨hpre, hlt⟩
    · obtain ⟨rs', hnext, hq', hmax'⟩ := getNextRecord_complete hp (by omega)
      exact Or.inl ⟨r, left, rs', rfl, hnext, ⟨q, hq', hq⟩, hmax' ▸ hmax, hmax' ▸ hleft⟩
    · refine Or.inr ⟨getNextRecord_begun hp hpre hlt (by omega), ?_, p, hp, hstream, ?_⟩
      · rintro rfl
        have := congrArg length hstream
        rw [append_nil, flatMap_cons, length_append, length_encode] at this
        omega
      · rw [bufferEnd]
        omega

theorem Inv.moveRemainder (h : Inv rs fd left) : Inv rs.moveRemainder fd left := by
  obtain ⟨⟨p, hp, hstream⟩, hmax, hlen⟩ := h
  obtain ⟨hp', -, hmax'⟩ := hp.moveRemainder
  exact ⟨⟨p, hp', hstream⟩, hmax' ▸ hmax, hmax' ▸ hlen⟩

/-- **A call** gives the next record, or the end if there is none, or gets closer to it. -/
theorem Inv.call (h : Inv rs fd left) (offer : Option ℕ) :
    Outcome fd left offer (recordStreamGetNext rs fd offer) := by
  rw [recordStreamGetNext]
  rcases h.next with ⟨r, left', rs', rfl, hnext, h'⟩ | ⟨hnext, hleft, p, hp, hstream, hroom⟩
  · rw [hnext]
    exact .record rfl h' le_rfl
  · rw [hnext]
    have hfull : ¬ (rs.unconsumed = 0 ∧ rs.readEnd = rs.bufferEnd) := by
      obtain ⟨done, free, -, hun, hend, -⟩ := hp
      omega
    have h₁ := h.moveRemainder
    obtain ⟨hp₁, hun₁, hmax₁⟩ := hp.moveRemainder
    simp only [if_neg hfull]
    cases offer with
    | none => exact .again h₁ (Or.inl ⟨rfl, rfl⟩)
    | some n =>
      have hspace : 0 < rs.moveRemainder.bufferEnd - rs.moveRemainder.readEnd := by
        obtain ⟨done, free, -, hun, hend, -⟩ := hp₁
        rw [bufferEnd, hmax₁, ← bufferEnd]
        omega
      dsimp only
      generalize hm : min (n + 1) (rs.moveRemainder.bufferEnd - rs.moveRemainder.readEnd) = m
      have hread := hp₁.read (show (fd.take m).length ≤ _ by rw [length_take]; omega)
      by_cases h0 : (fd.take m).length = 0
      · rw [if_pos h0]
        rw [length_take] at h0
        exact .endOfStream (hleft (eq_nil_of_length_eq_zero (by omega))) h₁
      · rw [if_neg h0]
        have hdrop : (fd.drop (fd.take m).length).length < fd.length := by
          rw [length_drop]
          rw [length_take] at h0 ⊢
          omega
        have hsplit : fd.take m ++ fd.drop (fd.take m).length = fd :=
          prefix_iff_eq_append.mp <| take_prefix m fd
        have hinv := Inv.mk ⟨_, hread, by rwa [append_assoc, hsplit]⟩ h₁.max_le h₁.len_le
        rcases hinv.next with ⟨r, left', rs', rfl, hnext', h'⟩ | ⟨hnext', -⟩
        · rw [hnext']
          exact .record rfl h' hdrop.le
        · rw [hnext']
          exact .again hinv (Or.inr ⟨nofun, hdrop⟩)

/-- What is given if one calls again whenever one is asked to. -/
def given (results : List Result) : List Result := results.filter (· ≠ .again)

@[simp] theorem given_again (l : List Result) : given (.again :: l) = given l := by simp [given]

theorem given_record (r : List UInt8) (l : List Result) :
    given (.record r :: l) = .record r :: given l := by
  simp [given]

theorem given_endOfStream (l : List Result) :
    given (.endOfStream :: l) = .endOfStream :: given l := by
  simp [given]

/-- Calls give the records that are left and then the end, and only so many give nothing. -/
theorem Inv.results (h : Inv rs fd left) (offers : List (Option ℕ)) :
    given (results rs fd offers) <+: left.map .record ++
        List.replicate offers.length .endOfStream ∧
      offers.length ≤ (given (results rs fd offers)).length + offers.count none + fd.length := by
  induction offers generalizing rs fd left with
  | nil => exact And.intro nil_prefix (Nat.zero_le _)
  | cons offer offers ih =>
    have hcall := h.call offer
    rw [RecordStream.results]
    generalize recordStreamGetNext rs fd offer = o at hcall ⊢
    have hcount : offers.count none ≤ (offer :: offers).count none := count_le_count_cons
    have hlast : ∀ l : List Result, l ++ List.replicate offers.length .endOfStream <+:
        l ++ List.replicate (offer :: offers).length .endOfStream := fun l => by
      rw [length_cons, replicate_succ', ← append_assoc]
      exact prefix_append _ _
    cases hcall with
    | record hleft h' hle =>
      obtain ⟨hpre, hnum⟩ := ih h'
      dsimp only
      rw [given_record, hleft, length_cons, length_cons]
      refine ⟨cons_prefix_cons.mpr ⟨rfl, hpre.trans (hlast _)⟩, by omega⟩
    | endOfStream hleft h' =>
      obtain ⟨hpre, hnum⟩ := ih h'
      rw [hleft] at hpre ⊢
      dsimp only
      rw [given_endOfStream, length_cons, length_cons]
      refine ⟨cons_prefix_cons.mpr ⟨rfl, hpre⟩, by omega⟩
    | again h' hfd =>
      obtain ⟨hpre, hnum⟩ := ih h'
      refine ⟨by simpa using hpre.trans (hlast _), ?_⟩
      rw [given_again, length_cons]
      rcases hfd with ⟨rfl, rfl⟩ | ⟨-, hlt⟩
      · rw [count_cons_self]
        omega
      · omega

/-- **The records come out of the stream** in order, and then its end, however it is split. -/
theorem results_eq {maxRecordLen : ℕ} (hmax : maxRecordLen ≤ 0xffff) {memory : List UInt8}
    (hmem : memory.length = maxRecordLen + headerSize) {records : List (List UInt8)}
    (hlen : ∀ r ∈ records, r.length ≤ maxRecordLen) (offers : List (Option ℕ)) :
    let out := given (results (recordStreamNew maxRecordLen memory) (records.flatMap encode) offers)
    out <+: records.map .record ++ List.replicate offers.length .endOfStream ∧
      offers.length ≤ out.length + offers.count none + (records.flatMap encode).length :=
  Inv.results ⟨⟨[], ⟨[], memory, rfl, rfl, rfl, hmem⟩, rfl⟩, hmax, hlen⟩ offers

/-- Two records, of which one is empty, in pieces, and the end of the stream. -/
theorem results_eq_pieces : ∃ offers out, out = given (results
      (recordStreamNew 1 [0, 0, 0, 0, 0]) ([[7], []].flatMap encode) offers) ∧
    out = [.record [7], .record [], .endOfStream, .endOfStream] ∧
    out <+: [[7], []].map .record ++ List.replicate offers.length .endOfStream ∧
    offers.length ≤ out.length + offers.count none + ([[7], []].flatMap encode).length := by
  have h := results_eq (show 1 ≤ 0xffff by decide)
    (show ([0, 0, 0, 0, 0] : List UInt8).length = 1 + headerSize from rfl)
    (show ∀ r ∈ ([[7], []] : List (List UInt8)), r.length ≤ 1 by decide)
    [some 3, none, some 9, some 9, some 9, some 9]
  exact ⟨_, _, rfl, by decide, h.1, h.2⟩

end RecordStream
