/-
The representation of hash tables.

Any number of tables share their buckets, and calls are made to them in any order.  What
holds of every table between calls (`Consistent`): its two counts are right, there is a
bucket that is not in use, and on the chain of an entry all buckets before it have the
flag COLLISION.

* `Sound` — what a call needs to come to an end;
* `exec_spec`, `exec_error` — with it a call does to the items of the tables what it should
  (`Changes`), without it the call ends in undefined behaviour;
* `consistent_iff` — along a run the tables stay consistent exactly if every call is sound.

A table can do everything right and still be lost: when all entries of a full table have
been removed and the flags are left, the next `add` gives up the buckets and goes on with
a null pointer (`tombstones_crash`).
-/
import AndroidSystem.HashtableMemory
import AndroidSystem.Runs

open CInt CountedHeap SharedBuffer Runs List Option

namespace BasicHashtable

variable {α κ : Type} {T : EntryType α κ} {s s' : State α} {c : Call α} {t t' : Table}
  {h h' : Memory α} {b : Bucket α} {x : α} {i j index hash : ℕ}

/-! ### Tables and calls -/

/-- The counts of a table are right, and its entries are on their chains. -/
structure Consistent (h : Memory α) (t : Table) : Prop where
  size : t.mSize = (bucketsOf h t).countP Bucket.present
  filled : t.mFilledBuckets = (bucketsOf h t).countP Bucket.filled
  room : t.mBuckets ≠ none → t.mFilledBuckets ≤ t.mCapacity ∧ t.mCapacity < t.mBucketCount ∧
    (bucketsOf h t).length = t.mBucketCount
  chained : Chained t.mBucketCount (bucketsOf h t)

/-- The items of all tables. -/
def State.contents (s : State α) : List (Multiset (ℕ × α)) :=
  s.tables.map fun t => items (bucketsOf s.heap t)

/-- Bucket `index` of table `i`. -/
def State.bucket (s : State α) (i index : ℕ) : Option (Bucket α) :=
  s.tables[i]?.bind fun t => (bucketsOf s.heap t)[index]?

/-- The value of an entry. -/
def State.value (s : State α) : Entry α → Option α
  | .given x => some x
  | .own j index => (s.bucket j index).bind Bucket.entry

/-- Bucket `index` of table `i` has an entry. -/
def HasEntry (s : State α) (i index : ℕ) : Prop := ∃ b ∈ s.bucket i index, b.present = true

/-- The tables and the entries are there, and load factors are what they should be. -/
def Valid (s : State α) : Call α → Prop
  | .create _ loadFactor => 0 < loadFactor ∧ loadFactor ≤ 1
  | .copy j => j < s.tables.length
  | .assign i j => i < s.tables.length ∧ j < s.tables.length ∧ i ≠ j
  | .destroy i | .clear i => i < s.tables.length
  | .add i _ (.given _) => i < s.tables.length
  | .add i _ (.own j index) => i < s.tables.length ∧ HasEntry s j index
  | .removeAt i index => HasEntry s i index
  | .rehash i _ loadFactor => i < s.tables.length ∧ 0 < loadFactor ∧ loadFactor ≤ 1

/-- What a call needs to come to an end. -/
def Sound (T : EntryType α κ) (s : State α) : Call α → Prop
  | .create minimumInitialCapacity loadFactor =>
    bucketsFor minimumInitialCapacity loadFactor ≠ none
  | .add i hash entry => ∀ t ∈ s.tables[i]?, ∀ src ∈ (s.entrySource entry).toOption,
      AddFits T s.heap t hash src
  | .rehash i minimumCapacity loadFactor => ∀ t ∈ s.tables[i]?,
      RehashFits T t minimumCapacity loadFactor
  | _ => True

/-- What a call does to the items of the tables. -/
def Changes (s s' : State α) : Call α → Prop
  | .create _ _ => s'.contents = s.contents ++ [0]
  | .copy j => s'.contents = s.contents ++ [s.contents.getD j 0]
  | .assign i j => s'.contents = s.contents.set i (s.contents.getD j 0)
  | .destroy i => s'.contents = s.contents.eraseIdx i
  | .clear i => s'.contents = s.contents.set i 0
  | .add i hash entry => ∃ x ∈ s.value entry,
      s'.contents = s.contents.set i ((trimHash hash, x) ::ₘ s.contents.getD i 0)
  | .removeAt i index => ∃ y ∈ (s.bucket i index).bind Bucket.item, ∃ rest,
      s.contents.getD i 0 = y ::ₘ rest ∧ s'.contents = s.contents.set i rest
  | .rehash _ _ _ => s'.contents = s.contents

/-- One call, if it comes to an end. -/
def step (T : EntryType α κ) (s : State α) (c : Call α) : Option (State α) :=
  (exec T s c).toOption

/-- No tables. -/
def init : State α := ⟨⟨[], []⟩, []⟩

/-! ### The buffers of a family -/

/-- What holds between calls. -/
structure Inv (T : EntryType α κ) (s : State α) : Prop where
  counted : Counted s.heap (s.tables.map Table.mBuckets)
  failing : s.heap.failing = []
  good : ∀ t ∈ s.tables, Good T s.heap t

theorem Inv.init : Inv T (init : State α) := ⟨Counted.empty [], rfl, by simp [BasicHashtable.init]⟩

/-- The pointers but that of table `i`. -/
def State.others (s : State α) (i : ℕ) : List (Option ℕ) := (s.tables.eraseIdx i).map Table.mBuckets

theorem Good.consistent (hg : Good T h t) : Consistent h t := by
  rcases hg.buckets with ⟨hnone, hsize, hfilled⟩ | ⟨a, cells, ha, hs, hh⟩
  · have hempty : bucketsOf h t = [] := by simp only [bucketsOf, hnone]
    refine ⟨by rw [hempty, hsize]; rfl, by rw [hempty, hfilled]; rfl,
      fun hne => absurd hnone hne, ?_⟩
    rw [hempty]
    intro i b hb
    simp at hb
  · have hcells := hs.bucketsOf ha
    refine ⟨by rw [hcells, hh.size], by rw [hcells, hh.filled], fun _ => ?_, by
      rw [hcells]
      exact hh.chained⟩
    exact ⟨hg.room, hg.sizes.capacity_lt, by rw [hcells, hh.length]⟩

section

variable (hs : Inv T s)
include hs

section

variable (hi : s.tables[i]? = some t)
include hi

theorem Inv.holder :
    Holder T (s.others i) s.heap t :=
  ⟨hs.counted.perm (map_perm Table.mBuckets hi), hs.failing, hs.good t (mem_of_getElem? hi)⟩

omit hs in
theorem contents_get :
    s.contents.getD i 0 = items (bucketsOf s.heap t) := by
  simp [State.contents, getD_eq_getElem?_getD, hi]

theorem Inv.update (hh : Holder T (s.others i) h' t')
    (hag : Agree s.heap h' (s.others i)) :
    Inv T (s.update i (h', t')) ∧
      (s.update i (h', t')).contents = s.contents.set i (items (bucketsOf h' t')) := by
  obtain ⟨hgood, hitems⟩ := family_set hi hh.good fun w hw =>
    ((hs.good w (mem_of_mem_eraseIdx hw)).agree hag (mem_map_of_mem hw)).imp_right (congrArg items)
  exact ⟨⟨hh.counted.perm (map_set_perm Table.mBuckets hi t').symm, hh.failing, hgood⟩, hitems⟩

omit hi in
theorem Inv.append (hh : Holder T (s.tables.map Table.mBuckets) h' t)
    (hag : Agree s.heap h' (s.tables.map Table.mBuckets)) :
    Inv T ⟨h', s.tables ++ [t]⟩ ∧
      (⟨h', s.tables ++ [t]⟩ : State α).contents = s.contents ++ [items (bucketsOf h' t)] := by
  obtain ⟨hgood, hitems⟩ := family_append hh.good fun w hw =>
    ((hs.good w hw).agree hag (mem_map_of_mem hw)).imp_right (congrArg items)
  refine ⟨⟨?_, hh.failing, hgood⟩, hitems⟩
  rw [map_append]
  exact hh.counted.perm (perm_append_singleton _ _).symm

omit hi in
theorem Inv.erase (hc : Counted h' (s.others i)) (hf : h'.failing = [])
    (hag : Agree s.heap h' (s.others i)) :
    Inv T ⟨h', s.tables.eraseIdx i⟩ ∧
      (⟨h', s.tables.eraseIdx i⟩ : State α).contents = s.contents.eraseIdx i := by
  have hold : ∀ w ∈ s.tables.eraseIdx i, Good T h' w ∧ bucketsOf h' w = bucketsOf s.heap w :=
    fun w hw => (hs.good w (mem_of_mem_eraseIdx hw)).agree hag (mem_map_of_mem hw)
  refine ⟨⟨hc, hf, fun w hw => (hold w hw).1⟩, ?_⟩
  simp only [State.contents, map_congr_left fun w hw => congrArg items (hold w hw).2,
    eraseIdx_map]

/-! ### One call -/

omit hs in
theorem table_eq : s.table i = .ok t := by
  rw [State.table, hi, require]

omit hi in
omit hs in
theorem exists_table (hlt : i < s.tables.length) : ∃ t, s.tables[i]? = some t :=
  ⟨_, getElem?_eq_getElem hlt⟩

/-- The entry that is passed to `add` can be read. -/
theorem Inv.entry_held {entry : Entry α}
    (hvalid : Valid s (.add i hash entry)) :
    ∃ src x, s.entrySource entry = .ok src ∧ s.value entry = some x ∧
      Held (t.mBuckets :: s.others i) s.heap x src := by
  cases entry with
  | given x => exact ⟨.outside x, x, rfl, rfl, rfl⟩
  | own j index =>
    obtain ⟨-, b, hb, hp⟩ := hvalid
    obtain ⟨w, hj, hb'⟩ := bind_eq_some_iff.mp hb
    rcases (hs.good w (mem_of_getElem? hj)).buckets with
      ⟨hnone, -, -⟩ | ⟨a, cells, ha, hst, hh⟩
    · simp [bucketsOf, hnone] at hb'
    rw [hst.bucketsOf ha] at hb'
    obtain ⟨x, hx⟩ := isSome_iff_exists.mp (hh.entries b (mem_of_getElem? hb') hp)
    obtain ⟨blk, hblk, -, rfl⟩ := hst
    have hmem : some a ∈ t.mBuckets :: s.others i := by
      rw [← ha]
      exact (map_perm Table.mBuckets hi).mem_iff.mp
        (mem_map_of_mem (mem_of_getElem? hj))
    refine ⟨.inside a index, x, ?_, ?_, hmem, blk, b, hblk, hb', hp, hx⟩
    · simp only [State.entrySource, table_eq hj, ok_bind, ha, require]
    · rw [State.value, mem_def.mp hb]
      exact hx

end

/-- **A sound call** comes to an end, and does to the items what it should. -/
theorem exec_spec (hvalid : Valid s c) (hsound : Sound T s c) :
    ∃ s', exec T s c = .ok s' ∧ Inv T s' ∧ Changes s s' c := by
  cases c with
  | create minimumInitialCapacity loadFactor =>
    obtain ⟨n, hn⟩ := ne_none_iff_exists'.mp hsound
    obtain ⟨hdet, hsizes, -⟩ := determineCapacity_spec hvalid hn
    obtain ⟨hinv, hcont⟩ := hs.append
      (holder_none (t := ⟨capacityOf n loadFactor, loadFactor, 0, 0, n, none⟩) hs.counted hs.failing
        rfl hsizes rfl rfl) (Agree.refl s.heap _)
    exact ⟨_, by simp only [exec, create, hdet, ok_bind], hinv, hcont⟩
  | copy j =>
    obtain ⟨t, hj⟩ := exists_table hvalid
    have hmem := mem_of_getElem? hj
    obtain ⟨h', hcopy, hh, hag, hbuckets⟩ := copyOf_spec hs.counted hs.failing (hs.good t hmem)
      (mem_map_of_mem hmem)
    obtain ⟨hinv, hcont⟩ := hs.append hh hag
    refine ⟨_, by simp only [exec, table_eq hj, ok_bind, hcopy], hinv, ?_⟩
    rw [Changes, contents_get hj, hcont, hbuckets]
  | assign i j =>
    obtain ⟨hlti, hltj, hne⟩ := hvalid
    obtain ⟨t, hi⟩ := exists_table hlti
    obtain ⟨w, hj⟩ := exists_table hltj
    have hmem : w.mBuckets ∈ s.others i := mem_eraseIdx Table.mBuckets hj (Ne.symm hne)
    obtain ⟨h₁, hdis, hc₁, hag₁, hf₁⟩ := (hs.holder hi).dispose
    obtain ⟨hg₁, hb₁⟩ := (hs.good w (mem_of_getElem? hj)).agree hag₁ hmem
    obtain ⟨h', hcopy, hh, hag, hb'⟩ := copyOf_spec hc₁ hf₁ hg₁ hmem
    obtain ⟨hinv, hcont⟩ := hs.update hi hh (hag₁.trans hag)
    refine ⟨_, by simp only [exec, table_eq hi, table_eq hj, ok_bind, setTo, hdis, hcopy], hinv, ?_⟩
    rw [Changes, contents_get hj, hcont, hb', hb₁]
  | destroy i =>
    obtain ⟨t, hi⟩ := exists_table hvalid
    obtain ⟨h', hdis, hc', hag, hf'⟩ := (hs.holder hi).dispose
    obtain ⟨hinv, hcont⟩ := hs.erase hc' hf' hag
    exact ⟨_, by simp only [exec, table_eq hi, ok_bind, hdis], hinv, hcont⟩
  | clear i =>
    obtain ⟨t, hi⟩ := exists_table hvalid
    obtain ⟨h', t', hclear, hh, hag, hitems⟩ := clear_spec (hs.holder hi)
    obtain ⟨hinv, hcont⟩ := hs.update hi hh hag
    refine ⟨_, by simp only [exec, table_eq hi, ok_bind, hclear], hinv, ?_⟩
    rw [Changes, hcont, hitems]
  | add i hash entry =>
    have hlt : i < s.tables.length := by
      cases entry with
      | given x => exact hvalid
      | own j index => exact hvalid.1
    obtain ⟨t, hi⟩ := exists_table hlt
    obtain ⟨src, x, hsrc, hval, hheld⟩ := hs.entry_held hi hvalid
    have hfit : AddFits T s.heap t hash src := hsound t hi src (by rw [hsrc]; rfl)
    obtain ⟨h', t', index, hadd, hh, hag, hitems⟩ := add_spec (hs.holder hi) hfit hheld
    obtain ⟨hinv, hcont⟩ := hs.update hi hh hag
    refine ⟨_, by simp only [exec, table_eq hi, ok_bind, hsrc, hadd], hinv, x, hval, ?_⟩
    rw [hcont, hitems, contents_get hi]
  | removeAt i index =>
    obtain ⟨b, hb, hp⟩ := hvalid
    obtain ⟨t, hi, hb'⟩ := bind_eq_some_iff.mp hb
    obtain ⟨h', t', y, hremove, hh, hag, hy, hitems⟩ := removeAt_spec (hs.holder hi) hb' hp
    obtain ⟨hinv, hcont⟩ := hs.update hi hh hag
    refine ⟨_, by simp only [exec, table_eq hi, ok_bind, hremove], hinv, y, ?_, _, ?_, hcont⟩
    · rw [mem_def.mp hb]
      exact hy
    · rw [contents_get hi, hitems]
  | rehash i minimumCapacity loadFactor =>
    obtain ⟨hlt, hlf⟩ := hvalid
    obtain ⟨t, hi⟩ := exists_table hlt
    obtain ⟨h', t', hre, hh, hag, hitems⟩ := rehash_spec (hs.holder hi) hlf (hsound t hi)
    obtain ⟨hinv, hcont⟩ := hs.update hi hh hag
    refine ⟨_, by simp only [exec, table_eq hi, ok_bind, hre], hinv, ?_⟩
    rw [Changes, hcont, hitems, ← contents_get hi]
    apply ext_getElem?
    intro k
    rw [getElem?_set]
    split
    · rename_i hik
      subst hik
      simp [getD_eq_getElem?_getD, State.contents, hlt]
    · rfl

/-- **A call that is not sound** does not come to an end. -/
theorem exec_error (hvalid : Valid s c) (hsound : ¬ Sound T s c) :
    ∃ e, exec T s c = .error e := by
  cases c with
  | create minimumInitialCapacity loadFactor =>
    have hn : bucketsFor minimumInitialCapacity loadFactor = none := not_not.mp hsound
    exact ⟨_, by rw [exec, create, determineCapacity_none hvalid hn]; rfl⟩
  | add i hash entry =>
    rw [Sound] at hsound
    push Not at hsound
    obtain ⟨t, hi, src', hsrc', hfit⟩ := hsound
    obtain ⟨src, x, hsrc, -, hheld⟩ := hs.entry_held hi hvalid
    obtain rfl : src = src' := by
      rw [hsrc] at hsrc'
      exact some_inj.mp hsrc'
    obtain ⟨e, hadd⟩ := add_error (hs.holder hi) hheld hfit
    refine ⟨e, ?_⟩
    simp only [exec, table_eq hi, ok_bind, hsrc, hadd]
    rfl
  | rehash i minimumCapacity loadFactor =>
    rw [Sound] at hsound
    push Not at hsound
    obtain ⟨t, hi, hfit⟩ := hsound
    obtain ⟨e, hre⟩ := rehash_error (hs.holder hi) hvalid.2 hfit
    refine ⟨e, ?_⟩
    simp only [exec, table_eq hi, ok_bind, hre]
    rfl
  | copy j => exact absurd trivial hsound
  | assign i j => exact absurd trivial hsound
  | destroy i => exact absurd trivial hsound
  | clear i => exact absurd trivial hsound
  | removeAt i index => exact absurd trivial hsound

theorem step_inv (hvalid : Valid s c) (hstep : step T s c = some s') : Inv T s' := by
  by_cases hsound : Sound T s c
  · obtain ⟨s₁, hexec, hinv, -⟩ := exec_spec hs hvalid hsound
    rw [step, hexec] at hstep
    cases hstep
    exact hinv
  · obtain ⟨e, hexec⟩ := exec_error hs hvalid hsound
    rw [step, hexec] at hstep
    cases hstep

/-- The calls that come to an end in a state with a property are the sound ones, if all sound calls
lead to such states. -/
theorem ends_iff {P : State α → Prop} (hvalid : Valid s c)
    (hp : ∀ s', Inv T s' → Changes s s' c → P s') : (∃ s' ∈ step T s c, P s') ↔ Sound T s c := by
  constructor
  · rintro ⟨s', hstep, -⟩
    by_contra hsound
    obtain ⟨e, hexec⟩ := exec_error hs hvalid hsound
    rw [step, hexec] at hstep
    cases hstep
  · intro hsound
    obtain ⟨s', hexec, hinv, hch⟩ := exec_spec hs hvalid hsound
    exact ⟨s', by rw [step, hexec]; rfl, hp s' hinv hch⟩

end

/-! ### The conditions can be checked -/

instance (T : EntryType α κ) (n : ℕ) : Decidable (BytesFit T n) :=
  inferInstanceAs (Decidable (_ < _))

instance (T : EntryType α κ) (t : Table) (minimumCapacity : ℕ) (loadFactor : ℚ) :
    Decidable (RehashFits T t minimumCapacity loadFactor) :=
  inferInstanceAs (Decidable (∃ n ∈ bucketsFor _ _, _))

instance (h : Memory α) (t : Table) (hash : ℕ) : Decidable (Full h t hash) :=
  inferInstanceAs (Decidable (_ ∧ ∃ k ∈ landing _ _ _, ∃ b ∈ _, Bucket.collision b = false))

instance (T : EntryType α κ) (h : Memory α) (t : Table) (hash : ℕ) (src : EntrySource α) :
    Decidable (AddFits T h t hash src) :=
  inferInstanceAs (Decidable (_ ∧ (_ → _ ∧ _ ∧ ∃ n ∈ bucketsFor _ _, BytesFit T n)))

instance (s : State α) (i index : ℕ) : Decidable (HasEntry s i index) :=
  inferInstanceAs (Decidable (∃ b ∈ s.bucket i index, Bucket.present b = true))

instance (s : State α) : ∀ c, Decidable (Valid s c)
  | .create .. => inferInstanceAs (Decidable (_ ∧ _))
  | .copy _ | .destroy _ | .clear _ => inferInstanceAs (Decidable (_ < _))
  | .assign .. => inferInstanceAs (Decidable (_ ∧ _ ∧ _))
  | .add _ _ (.given _) => inferInstanceAs (Decidable (_ < _))
  | .add _ _ (.own j index) => inferInstanceAs (Decidable (_ ∧ HasEntry s j index))
  | .removeAt i index => inferInstanceAs (Decidable (HasEntry s i index))
  | .rehash .. => inferInstanceAs (Decidable (_ ∧ _ ∧ _))

instance (T : EntryType α κ) (s : State α) : ∀ c, Decidable (Sound T s c)
  | .create .. => inferInstanceAs (Decidable (_ ≠ none))
  | .add i hash entry => inferInstanceAs (Decidable (∀ t ∈ s.tables[i]?,
      ∀ src ∈ (s.entrySource entry).toOption, AddFits T s.heap t hash src))
  | .rehash i minimumCapacity loadFactor => inferInstanceAs (Decidable (∀ t ∈ s.tables[i]?,
      RehashFits T t minimumCapacity loadFactor))
  | .copy _ | .assign .. | .destroy _ | .clear _ | .removeAt .. => inferInstanceAs (Decidable True)

/-! ### Runs -/

/-- The call comes to an end, and then all tables are consistent. -/
def StaysConsistent (T : EntryType α κ) (s : State α) (c : Call α) : Prop :=
  ∃ s' ∈ step T s c, ∀ t ∈ s'.tables, Consistent s'.heap t

/-- **The tables stay consistent**, through all calls in any order, exactly if every call is
sound. -/
theorem consistent_iff (T : EntryType α κ) (cs : List (Call α))
    (hv : Along (step T) Valid init cs) :
    Along (step T) (StaysConsistent T) init cs ↔ Along (step T) (Sound T) init cs :=
  along_iff step_inv
    (fun hs hvalid => ends_iff hs hvalid fun _ hinv _ t ht => (hinv.good t ht).consistent)
    Inv.init hv

/-- Tables of numbers, which are their own keys. -/
def numbers : EntryType ℕ ℕ := ⟨4, true, fun x key => x == key⟩

/-- Two tables share their buckets, and one of them grows from 5 buckets to 11; buckets in which
entries were removed are used again. -/
def sharing : List (Call ℕ) :=
  [.create 0 (3 / 4), .add 0 0 (.given 10), .add 0 0 (.given 11), .copy 0, .removeAt 0 0,
    .add 0 386 (.own 1 1), .add 0 5 (.own 0 0), .add 0 8 (.given 12), .rehash 1 20 1, .assign 0 1,
    .removeAt 0 1, .clear 1, .copy 0, .destroy 1]

theorem consistent_iff_sharing :
    Along (step numbers) Valid init sharing ∧
      Along (step numbers) (StaysConsistent numbers) init sharing :=
  ⟨by decide +kernel, (consistent_iff numbers sharing (by decide +kernel)).mpr (by decide +kernel)⟩

/-- Entries are added and removed, until the table is full of flags and has no entry. -/
def tombstones : List (Call ℕ) :=
  [.create 0 (1 / 2), .add 0 0 (.given 10), .add 0 0 (.given 11), .removeAt 0 0,
    .add 0 386 (.given 12), .removeAt 0 0, .removeAt 0 1, .add 0 2 (.given 13)]

/-- **A table full of flags** is lost with the next `add`. -/
theorem tombstones_crash :
    Along (step numbers) Valid init tombstones ∧
      ¬ Along (step numbers) (StaysConsistent numbers) init tombstones := by
  refine ⟨by decide +kernel, fun ha => ?_⟩
  exact run_ne_none (fun ⟨s', hs', _⟩ => ⟨s', hs'⟩) ha (by decide +kernel)

end BasicHashtable
