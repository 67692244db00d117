/-
The invariant of two `adb` programs (`adb/sockets.c`, `adb/adb.c`).

`Inv` says that a packet can only reach the socket that it is meant for, and that the one credit of
each direction of a stream is in one place.

* `Touches` — a program has changed one of its sockets; `Inv.change` is the rule for that: it
  remains to look at the stream of this socket.
* `Inv.connect`, `Inv.deliver`, `Inv.file` — the events.
-/
import AndroidSystem.Adb.Streams

open CInt Runs List Function

namespace Adb

open Program
open Auth (Bytes)

namespace Pair

/-! ### Packets under way -/

section Packets

variable {i j : ℕ} {ps qs : List Packet}

@[simp] theorem wrtes_append : wrtes i j (ps ++ qs) = wrtes i j ps ++ wrtes i j qs :=
  filterMap_append

@[simp] theorem okays_append : okays i j (ps ++ qs) = okays i j ps + okays i j qs :=
  countP_append

theorem wrtes_eq_nil (h : ∀ d, .wrte i j d ∉ ps) : wrtes i j ps = [] := by
  refine filterMap_eq_nil_iff.mpr fun p hp => ?_
  cases p with
  | wrte i' j' d =>
    refine if_neg ?_
    rintro ⟨rfl, rfl⟩
    exact h d hp
  | «open» | okay | clse => rfl

theorem okays_eq_zero (h : .okay i j ∉ ps) : okays i j ps = 0 := by
  refine countP_eq_zero.mpr fun p hp hpk => ?_
  rw [decide_eq_true_eq] at hpk
  exact h (hpk ▸ hp)

@[simp] theorem wrtes_wrte (d : Bytes) : wrtes i j [.wrte i j d] = [d] := by simp [wrtes]

theorem wrtes_map_wrte (data : List Bytes) : wrtes i j (data.map (.wrte i j)) = data := by
  induction data with
  | nil => rfl
  | cons d data ih => rw [map_cons, ← singleton_append, wrtes_append, ih, wrtes_wrte]; rfl

@[simp] theorem okays_okay : okays i j [.okay i j] = 1 := by simp [okays]

end Packets

/-- The socket that a packet is to open a stream for. -/
def openId : Packet → Option ℕ
  | .open i _ => some i
  | _ => none

/-! ### The invariant -/

variable {s : Pair}

/-- The credit of a direction is in one place, and so is every byte: written, in the backlog or
under way. -/
def Carries (near far : Socket Unit) (data : List Bytes) (answers : ℕ) : Prop :=
  (if near.reading then 1 else 0) + data.length + answers + far.queue.length ≤ 1 ∧
    far.written ++ far.queue.flatten ++ data.flatten = near.taken

/-- A socket before its stream is there. -/
def Blank (x : Socket Unit) : Prop :=
  x.peer = none ∧ x.reading = false ∧ x.writing = false ∧ x.queue = [] ∧ x.written = [] ∧
    x.taken = []

/-- What holds of the two programs in every state. -/
structure Inv (s : Pair) : Prop where
  online : ∀ x, (s.prog x).online () = true
  small : ∀ x, (s.prog x).next ≤ 2 ^ 32
  range : ∀ x a, s.Alive x a → a < (s.prog x).next
  nodup : ∀ x, (s.prog x).locals.Nodup
  closings : ∀ x, ∀ a ∈ (s.prog x).closings, ¬ s.Alive x a ∧ a < (s.prog x).next ∧
    (s.sock x a).peer = none ∧ (s.sock x a).closing = true ∧ (s.sock x a).reading = false
  linked : ∀ x a b, s.Link x a b → a < (s.prog x).next
  unique : ∀ x a b b', s.Link x a b → s.Link x a b' → b = b'
  opens : ∀ x, (s.chan x).filterMap openId = s.opens x
  fresh : ∀ x, (s.opens x).Nodup ∧ ∀ a ∈ s.opens x, a < (s.prog x).next ∧ ∀ b, ¬ s.Link x a b
  blank : ∀ x a, s.Alive x a → (∀ b, ¬ s.Link x a b) → Blank (s.sock x a)
  okay : ∀ x i j, .okay i j ∈ s.chan x → s.Link x i j
  wrte : ∀ x i j d, .wrte i j d ∈ s.chan x → s.Link x i j
  peer : ∀ x a p, s.Alive x a → (s.sock x a).peer = some p → ∃ b, p = .remote b () ∧ s.Link x a b
  busy : ∀ x a, s.Alive x a → ((s.sock x a).reading = true → (s.sock x a).peer ≠ none) ∧
    ((s.sock x a).writing = true → (s.sock x a).queue ≠ []) ∧ (s.sock x a).closing = false
  flow : ∀ x a b, s.Link x a b → s.Alive x a → s.Alive (!x) b →
    Carries (s.sock x a) (s.sock (!x) b) (wrtes a b (s.chan x)) (okays b a (s.chan (!x)))

theorem link_symm {x : Bool} {a b : ℕ} : s.Link (!x) b a ↔ s.Link x a b := by
  rw [Link, Link, Bool.not_not]
  exact Or.comm

theorem init_inv : init.Inv := by
  have hlink : ∀ x a b, ¬ init.Link x a b := fun x a b h => by
    rcases h with h | h <;> exact absurd h not_mem_nil
  have halive : ∀ x a, ¬ init.Alive x a := fun x a h => absurd h not_mem_nil
  exact
    { online := fun _ => rfl
      small := fun _ => show 1 ≤ 2 ^ 32 by norm_num
      range := fun x a h => absurd h (halive x a)
      nodup := fun _ => nodup_nil
      closings := fun _ a h => absurd h not_mem_nil
      linked := fun x a b h => absurd h (hlink x a b)
      unique := fun x a b _ h => absurd h (hlink x a b)
      opens := fun _ => rfl
      fresh := fun _ => ⟨nodup_nil, fun a h => absurd h not_mem_nil⟩
      blank := fun x a h => absurd h (halive x a)
      okay := fun _ _ _ h => absurd h not_mem_nil
      wrte := fun _ _ _ _ h => absurd h not_mem_nil
      peer := fun x a _ h => absurd h (halive x a)
      busy := fun x a h => absurd h (halive x a)
      flow := fun x a b h => absurd h (hlink x a b) }

/-- The invariant says what is wanted. -/
theorem Inv.flows (h : s.Inv) : s.Flows := by
  have hdir : ∀ x a b, s.Link x a b → s.Alive x a → s.Alive (!x) b → s.Flow x a b := by
    intro x a b hlink ha hb
    have ha' := Nat.lt_of_lt_of_le (h.range x a ha) (h.small x)
    have hb' := Nat.lt_of_lt_of_le (h.range (!x) b hb) (h.small (!x))
    obtain ⟨hcredit, hbytes⟩ := h.flow x a b hlink ha hb
    rw [Flow, u32_of_lt ha', u32_of_lt hb']
    refine ⟨by omega, ?_⟩
    rw [append_assoc] at hbytes
    exact ⟨_, hbytes⟩
  rintro ⟨x, a, b⟩ hr ha hb
  have hlink : s.Link x a b := Or.inl hr
  refine ⟨hdir x a b hlink ha hb, hdir (!x) b a (link_symm.mpr hlink) hb ?_⟩
  rw [Bool.not_not]
  exact ha

theorem forall_bool {Q : Bool → Prop} (y : Bool) (hy : Q y) (hy' : Q (!y)) : ∀ x, Q x := by
  intro x
  rcases Bool.eq_or_eq_not x y with rfl | rfl
  · exact hy
  · exact hy'

/-! ### Changes of one socket -/

variable {q : ℕ} {P : Program Unit}

/-- A program has changed one of its sockets, or closed it. -/
structure Touches (p P : Program Unit) (q : ℕ) : Prop where
  sock : ∀ a, a ≠ q → P.sock a = p.sock a
  locals : P.locals.Sublist p.locals
  closings : ∀ a ∈ P.closings, a ≠ q → a ∈ p.closings
  next : P.next = p.next
  online : P.online = p.online

/-- A socket that goes on with its stream, after packets `out` were sent and with packets `rest` to
come. -/
structure Serves (s : Pair) (y : Bool) (q : ℕ) (X : Socket Unit) (out rest : List Packet) :
    Prop where
  blank : (∀ b, ¬ s.Link y q b) → Blank X
  peer : ∀ p, X.peer = some p → ∃ b, p = .remote b () ∧ s.Link y q b
  busy : (X.reading = true → X.peer ≠ none) ∧ (X.writing = true → X.queue ≠ []) ∧
    X.closing = false
  flow : ∀ b, s.Link y q b → s.Alive (!y) b →
    Carries X (s.sock (!y) b) (wrtes q b (s.chan y ++ out)) (okays b q rest) ∧
    Carries (s.sock (!y) b) X (wrtes b q rest) (okays q b (s.chan y ++ out))

/-- Packets that a socket sends on its stream, or closes others with. -/
def Sends (s : Pair) (y : Bool) (q : ℕ) (p : Packet) : Prop :=
  (∃ b, s.Link y q b ∧ (p = .okay q b ∨ ∃ d, p = .wrte q b d)) ∨ ∃ i j, p = .clse i j

/-- Packets to a socket. -/
def Reaches (q : ℕ) (p : Packet) : Prop :=
  (∃ i, p = .okay i q) ∨ (∃ i d, p = .wrte i q d) ∨ ∃ i j, p = .clse i j

section

variable {y : Bool} {a b : ℕ} {ps : List Packet}

/-! Packets of a socket are no packets of other sockets, and open no streams. -/

section

variable (h : ∀ p ∈ ps, s.Sends y q p)
include h

theorem openIds_of_sends : ps.filterMap openId = [] :=
  filterMap_eq_nil_iff.mpr fun p hp => by
    rcases h p hp with ⟨b, -, rfl | ⟨d, rfl⟩⟩ | ⟨i, j, rfl⟩ <;> rfl

theorem wrtes_of_sends (hne : a ≠ q) : wrtes a b ps = [] :=
  wrtes_eq_nil fun d hp => by
    rcases h _ hp with ⟨b, -, heq | ⟨d, heq⟩⟩ | ⟨i, j, heq⟩ <;> cases heq
    exact hne rfl

theorem okays_of_sends (hne : b ≠ q) : okays b a ps = 0 :=
  okays_eq_zero fun hp => by
    rcases h _ hp with ⟨b, -, heq | ⟨d, heq⟩⟩ | ⟨i, j, heq⟩ <;> cases heq
    exact hne rfl

end

variable (h : ∀ p ∈ ps, Reaches q p)
include h

theorem openIds_of_reaches : ps.filterMap openId = [] :=
  filterMap_eq_nil_iff.mpr fun p hp => by
    rcases h p hp with ⟨i, rfl⟩ | ⟨i, d, rfl⟩ | ⟨i, j, rfl⟩ <;> rfl

theorem wrtes_of_reaches (hne : b ≠ q) : wrtes a b ps = [] :=
  wrtes_eq_nil fun d hp => by
    rcases h _ hp with ⟨i, heq⟩ | ⟨i, d, heq⟩ | ⟨i, j, heq⟩ <;> cases heq
    exact hne rfl

theorem okays_of_reaches (hne : a ≠ q) : okays b a ps = 0 :=
  okays_eq_zero fun hp => by
    rcases h _ hp with ⟨i, heq⟩ | ⟨i, d, heq⟩ | ⟨i, j, heq⟩ <;> cases heq
    exact hne rfl

end

/-- **The rule for changes of one socket.** -/
theorem Inv.change (h : s.Inv) {y : Bool} {out rest : List Packet} (consumed : List Packet)
    (ht : Touches (s.prog y) P q)
    (hclosed : q ∈ P.closings → q ∉ P.locals ∧ q < (s.prog y).next ∧ (P.sock q).peer = none ∧
      (P.sock q).closing = true ∧ (P.sock q).reading = false)
    (hchan : s.chan (!y) = consumed ++ rest) (hconsumed : ∀ p ∈ consumed, Reaches q p)
    (hout : ∀ p ∈ out, s.Sends y q p) (hserves : q ∈ P.locals → s.Serves y q (P.sock q) out rest) :
    ((s.pop (!y) rest).act y P out).Inv := by
  set s' := (s.pop (!y) rest).act y P out with hs'
  have hne : y ≠ !y := by cases y <;> decide
  have hprog : s'.prog y = P := update_self ..
  have hprog' : s'.prog (!y) = s.prog (!y) := update_of_ne hne.symm ..
  have hchan_y : s'.chan y = s.chan y ++ out := by
    change update (s.pop (!y) rest).chan y ((s.pop (!y) rest).chan y ++ out) y = _
    rw [update_self]
    change update s.chan (!y) rest y ++ out = _
    rw [update_of_ne hne]
  have hchan_y' : s'.chan (!y) = rest := by
    change update (s.pop (!y) rest).chan y _ (!y) = _
    rw [update_of_ne hne.symm]
    exact update_self ..
  have hlink : ∀ x a b, s'.Link x a b ↔ s.Link x a b := fun _ _ _ => Iff.rfl
  have hlive : ∀ a, s'.Alive y a → s.Alive y a := fun a ha => by
    rw [Alive, hprog] at ha
    exact ht.locals.subset ha
  have hlive' : ∀ a, s'.Alive (!y) a ↔ s.Alive (!y) a := fun a => by rw [Alive, Alive, hprog']
  have hsock : ∀ a, a ≠ q → s'.sock y a = s.sock y a := fun a ha => by
    rw [Pair.sock, hprog]
    exact ht.sock a ha
  have hsock' : ∀ a, s'.sock (!y) a = s.sock (!y) a := fun a => by rw [Pair.sock, hprog', Pair.sock]
  have hserves' : s'.Alive y q → s.Serves y q (s'.sock y q) out rest := fun hlive => by
    rw [Alive, hprog] at hlive
    rw [Pair.sock, hprog]
    exact hserves hlive
  have hmem : ∀ {p}, p ∈ rest → p ∈ s.chan (!y) := fun hp => by
    rw [hchan]
    exact mem_append_right _ hp
  refine
    { online := forall_bool y ?_ ?_
      small := forall_bool y ?_ ?_
      range := forall_bool y (fun a ha => ?_) ?_
      nodup := forall_bool y ?_ ?_
      closings := forall_bool y (fun a ha => ?_) ?_
      linked := forall_bool y ?_ ?_
      unique := h.unique
      opens := forall_bool y ?_ ?_
      fresh := forall_bool y ?_ ?_
      blank := forall_bool y (fun a ha hno => ?_) (fun a ha hno => ?_)
      okay := forall_bool y (fun i j hp => ?_) (fun i j hp => ?_)
      wrte := forall_bool y (fun i j d hp => ?_) (fun i j d hp => ?_)
      peer := forall_bool y (fun a p ha hp => ?_) (fun a p ha hp => ?_)
      busy := forall_bool y (fun a ha => ?_) (fun a ha => ?_)
      flow := forall_bool y (fun a b hl ha hb => ?_) (fun a b hl ha hb => ?_) }
  -- each field for the program that changes, and then for the other one
  -- `online`
  · rw [hprog, ht.online]
    exact h.online y
  · rw [hprog']
    exact h.online (!y)
  -- `small`
  · rw [hprog, ht.next]
    exact h.small y
  · rw [hprog']
    exact h.small (!y)
  -- `range`
  · rw [hprog, ht.next]
    exact h.range y a (hlive a ha)
  · simp only [hlive', hprog']
    exact h.range (!y)
  -- `nodup`
  · rw [hprog]
    exact ht.locals.nodup (h.nodup y)
  · rw [hprog']
    exact h.nodup (!y)
  -- `closings`
  · rw [hprog] at ha
    rw [Alive, Pair.sock, hprog, ht.next]
    by_cases haq : a = q
    · subst haq
      exact hclosed ha
    · obtain ⟨hlocals, hrest⟩ := h.closings y a (ht.closings a ha haq)
      rw [ht.sock a haq]
      exact ⟨fun hin => hlocals (ht.locals.subset hin), hrest⟩
  · simp only [hlive', hprog', hsock']
    exact h.closings (!y)
  -- `linked`
  · rw [hprog, ht.next]
    exact h.linked y
  · rw [hprog']
    exact h.linked (!y)
  -- `opens`
  · rw [hchan_y, filterMap_append, openIds_of_sends hout, append_nil]
    exact h.opens y
  · rw [hchan_y']
    have hopens := h.opens (!y)
    rw [hchan, filterMap_append, openIds_of_reaches hconsumed] at hopens
    exact hopens
  -- `fresh`
  · rw [hprog, ht.next]
    exact h.fresh y
  · rw [hprog']
    exact h.fresh (!y)
  -- `blank`
  · by_cases haq : a = q
    · subst haq
      exact (hserves' ha).blank hno
    · rw [hsock a haq]
      exact h.blank y a (hlive a ha) hno
  · rw [hsock']
    exact h.blank (!y) a ((hlive' a).mp ha) hno
  -- `okay`
  · rw [hchan_y] at hp
    rcases mem_append.mp hp with hp | hp
    · exact h.okay y i j hp
    · rcases hout _ hp with ⟨b, hb, heq | ⟨d, heq⟩⟩ | ⟨i, j, heq⟩ <;> cases heq
      exact hb
  · rw [hchan_y'] at hp
    exact h.okay (!y) i j (hmem hp)
  -- `wrte`
  · rw [hchan_y] at hp
    rcases mem_append.mp hp with hp | hp
    · exact h.wrte y i j d hp
    · rcases hout _ hp with ⟨b, hb, heq | ⟨d, heq⟩⟩ | ⟨i, j, heq⟩ <;> cases heq
      exact hb
  · rw [hchan_y'] at hp
    exact h.wrte (!y) i j d (hmem hp)
  -- `peer`
  · by_cases haq : a = q
    · subst haq
      exact (hserves' ha).peer p hp
    · rw [hsock a haq] at hp
      exact h.peer y a p (hlive a ha) hp
  · rw [hsock'] at hp
    exact h.peer (!y) a p ((hlive' a).mp ha) hp
  -- `busy`
  · by_cases haq : a = q
    · subst haq
      exact (hserves' ha).busy
    · rw [hsock a haq]
      exact h.busy y a (hlive a ha)
  · rw [hsock']
    exact h.busy (!y) a ((hlive' a).mp ha)
  -- `flow`
  · rw [hsock', hchan_y, hchan_y']
    have hb := (hlive' b).mp hb
    by_cases haq : a = q
    · subst haq
      exact ((hserves' ha).flow b hl hb).1
    · have hflow := h.flow y a b hl (hlive a ha) hb
      rw [hchan, okays_append, okays_of_reaches hconsumed haq, Nat.zero_add] at hflow
      rw [hsock a haq, wrtes_append, wrtes_of_sends hout haq, append_nil]
      exact hflow
  · rw [Bool.not_not] at hb ⊢
    rw [hsock', hchan_y, hchan_y']
    have ha := (hlive' a).mp ha
    by_cases hbq : b = q
    · subst hbq
      exact ((hserves' hb).flow a (link_symm.mp hl) ha).2
    · have hflow := h.flow (!y) a b hl ha (by rw [Bool.not_not]; exact hlive b hb)
      rw [Bool.not_not, hchan, wrtes_append, wrtes_of_reaches hconsumed hbq, nil_append] at hflow
      rw [hsock b hbq, okays_append, okays_of_sends hout hbq, Nat.add_zero]
      exact hflow

/-! ### Functions on sockets -/

variable {P' : Program Unit} {p : Program Unit}

theorem Touches.refl (p : Program Unit) (q : ℕ) : Touches p p q :=
  ⟨fun _ _ => rfl, List.Sublist.refl _, fun _ h _ => h, rfl, rfl⟩

theorem Touches.trans (h : Touches p P q) (h' : Touches P P' q) :
    Touches p P' q where
  sock a ha := (h'.sock a ha).trans (h.sock a ha)
  locals := h'.locals.trans h.locals
  closings a ha hne := h.closings a (h'.closings a ha hne) hne
  next := h'.next.trans h.next
  online := h'.online.trans h.online

theorem update_touches (p : Program Unit) (q : ℕ) (f : Socket Unit → Socket Unit) :
    Touches p (p.update q f) q where
  sock a ha := by
    rw [Program.update]
    exact update_of_ne ha ..
  locals := List.Sublist.refl _
  closings _ h _ := h
  next := rfl
  online := rfl

theorem update_sock_self (p : Program Unit) (q : ℕ) (f : Socket Unit → Socket Unit) :
    (p.update q f).sock q = f (p.sock q) := by
  rw [Program.update]
  exact update_self ..

/-- What is known of a socket that is being closed, if it still has data to write. -/
def Closing (p : Program Unit) (q : ℕ) : Prop :=
  q ∈ p.closings → (p.sock q).closing = true ∧ (p.sock q).reading = false

/-- A socket has left the list. -/
structure Closes (p P : Program Unit) (q : ℕ) : Prop extends Touches p P q where
  gone : q ∉ P.locals
  waits : q ∈ P.closings → (P.sock q).peer = none ∧ (P.sock q).closing = true ∧
    (P.sock q).reading = false

theorem closeOne_closes (hnodup : p.locals.Nodup) (hc : Closing p q) :
    Closes p (closeOne q p) q := by
  rw [closeOne]
  split_ifs
  · refine ⟨⟨fun a ha => update_of_ne ha .., erase_sublist, fun a ha _ => ?_, rfl,
      rfl⟩, hnodup.not_mem_erase, fun hin => ?_⟩
    · exact mem_of_mem_erase ha
    · dsimp only
      rw [update_self]
      exact ⟨rfl, hc (mem_of_mem_erase hin)⟩
  · refine ⟨⟨fun a ha => update_of_ne ha .., erase_sublist, fun a ha hne => ?_, rfl,
      rfl⟩, hnodup.not_mem_erase, fun _ => ?_⟩
    · rcases mem_append.mp ha with ha | ha
      · exact ha
      · exact absurd (mem_singleton.mp ha) hne
    · dsimp only
      rw [update_self]
      exact ⟨rfl, rfl, rfl⟩

theorem Touches.closes (h : Touches p P q) (h' : Closes P P' q) :
    Closes p P' q := ⟨h.trans h'.toTouches, h'.gone, h'.waits⟩

theorem notifyClose_eq (p : Program Unit) (q : ℕ) : ∃ notify status, Program.notifyClose q p =
    p.update q fun x => { x with notify := notify, status := status } := by
  rw [Program.notifyClose]
  split
  · exact ⟨_, _, rfl⟩
  · refine ⟨(p.sock q).notify, (p.sock q).status, ?_⟩
    rw [Program.update, update_eq_self]

/-- **To close a socket of a stream** sends at most a `CLSE`. -/
theorem close_closes (hnodup : p.locals.Nodup) (hc : Closing p q)
    (hpeer : ∀ b, (p.sock q).peer ≠ some (.sock b)) :
    Closes p (close q p).1 q ∧
      ∀ r ∈ (close q p).2.map Prod.snd, ∃ i j, r = .clse i j := by
  obtain ⟨notify, status, hnotify⟩ := notifyClose_eq p q
  have hcloses : Closes p (closeOne q (notifyClose q p)) q := by
    rw [hnotify]
    refine (update_touches ..).closes (closeOne_closes hnodup fun hin => ?_)
    rw [update_sock_self]
    exact hc hin
  rw [hnotify] at hcloses
  rw [close, hnotify, update_sock_self]
  split
  next => exact ⟨hcloses, fun r hr => absurd hr not_mem_nil⟩
  next id t _ =>
    refine ⟨hcloses, fun r hr => ?_⟩
    rw [map_singleton, mem_singleton] at hr
    exact ⟨0, id, hr⟩
  next b hb => exact absurd hb (hpeer b)
  next => exact ⟨hcloses, fun r hr => absurd hr not_mem_nil⟩

section Steps

variable {s : Pair} {x y : Bool} {a b q : ℕ}

theorem Inv.closing (h : s.Inv) (y : Bool) (q : ℕ) : Closing (s.prog y) q := fun hin =>
  (h.closings y q hin).2.2.2

theorem Inv.u32_eq (h : s.Inv) (ha : s.Alive y a) : u32 a = a :=
  u32_of_lt (Nat.lt_of_lt_of_le (h.range y a ha) (h.small y))

/-- A live socket is not among those that are being closed. -/
theorem Inv.not_closed (h : s.Inv) (hq : s.Alive y q) (hP : P.closings = (s.prog y).closings)
    {C : Prop} (hin : q ∈ P.closings) : C :=
  absurd hq (h.closings y q (hP ▸ hin)).1

theorem Inv.peer_ne (h : s.Inv) (hq : s.Alive y q ∨ q ∈ (s.prog y).closings) (b : ℕ) :
    ((s.prog y).sock q).peer ≠ some (.sock b) := by
  intro hb
  rcases hq with hq | hq
  · obtain ⟨c, hc, -⟩ := h.peer y q _ hq hb
    cases hc
  · have hnone := (h.closings y q hq).2.2.1
    rw [Pair.sock, hb] at hnone
    cases hnone

theorem Inv.lt (h : s.Inv) (hq : s.Alive y q ∨ q ∈ (s.prog y).closings) : q < (s.prog y).next := by
  rcases hq with hq | hq
  · exact h.range y q hq
  · exact (h.closings y q hq).2.1

variable {out rest : List Packet}

section

variable (h : s.Inv) (consumed : List Packet) (hchan : s.chan (!y) = consumed ++ rest)
  (hconsumed : ∀ p ∈ consumed, Reaches q p) (hout : ∀ p ∈ out, ∃ i j, p = .clse i j)

include h hchan hconsumed hout

/-- A socket is closed. -/
theorem Inv.closes (hcloses : Closes (s.prog y) P q) (hq : q < (s.prog y).next) :
    ((s.pop (!y) rest).act y P out).Inv :=
  h.change consumed hcloses.toTouches (fun hin => ⟨hcloses.gone, hq, hcloses.waits hin⟩) hchan
    hconsumed (fun p hp => Or.inr (hout p hp)) fun hin => absurd hin hcloses.gone

/-- A packet comes to a socket that is no longer there. -/
theorem Inv.drop (hq : ¬ s.Alive y q) :
    ((s.pop (!y) rest).act y (s.prog y) out).Inv :=
  h.change consumed (Touches.refl _ _) (fun hin => h.closings y q hin) hchan hconsumed
    (fun p hp => Or.inr (hout p hp)) fun hin => absurd hin hq

end

theorem act_self (s : Pair) (x : Bool) : s.act x (s.prog x) [] = s := by
  rw [act, append_nil, update_eq_self, update_eq_self]

theorem pop_self (s : Pair) (x : Bool) : s.pop x (s.chan x) = s := by
  rw [pop, update_eq_self]

theorem act_act (s : Pair) (x : Bool) (p P : Program Unit) (out out' : List Packet) :
    (s.act x p out).act x P out' = s.act x P (out ++ out') := by
  simp only [act, update_idem, update_self, append_assoc]

theorem act_prog (s : Pair) (x : Bool) (p : Program Unit) (out : List Packet) :
    (s.act x p out).prog x = p := update_self ..

/-- Identifiers are numbers, as long as no number is given out twice. -/
theorem Inv.findLocalSocket (h : s.Inv) (y : Bool) (q : ℕ) :
    (s.Alive y q ∧ Program.findLocalSocket q (s.prog y) = some q) ∨
      (¬ s.Alive y q ∧ Program.findLocalSocket q (s.prog y) = none) := by
  cases hfind : Program.findLocalSocket q (s.prog y) with
  | none =>
    refine Or.inr ⟨fun hq => ?_, rfl⟩
    have hno := find?_eq_none.mp hfind q hq
    rw [h.u32_eq hq, decide_eq_true_eq] at hno
    exact hno rfl
  | some a =>
    have ha := mem_of_find?_eq_some hfind
    have haq := find?_some (p := fun a => decide (u32 a = q)) hfind
    rw [decide_eq_true_eq, h.u32_eq ha] at haq
    subst haq
    exact Or.inl ⟨ha, rfl⟩

/-- The stream of a live socket, from its own end. -/
theorem Inv.flows_at (h : s.Inv) (hq : s.Alive y q) (hlink : s.Link y q b)
    (hb : s.Alive (!y) b) :
    Carries (s.sock y q) (s.sock (!y) b) (wrtes q b (s.chan y)) (okays b q (s.chan (!y))) ∧
      Carries (s.sock (!y) b) (s.sock y q) (wrtes b q (s.chan (!y))) (okays q b (s.chan y)) := by
  refine ⟨h.flow y q b hlink hq hb, ?_⟩
  have hflow := h.flow (!y) b q (link_symm.mpr hlink) hb (by rw [Bool.not_not]; exact hq)
  rwa [Bool.not_not] at hflow

variable {i : ℕ}

/-- **`OKAY`** enables reading. -/
theorem Inv.okay_received (h : s.Inv) (ws : List Write) (hchan : s.chan (!y) = .okay i q :: rest)
    (hq : s.Alive y q) :
    ((s.pop (!y) rest).act y (ready ws q
      (if ((s.prog y).sock q).peer = none then
        (s.prog y).update q fun x => { x with peer := some (.remote i ()) }
      else s.prog y)) []).Inv := by
  have hlink : s.Link y q i :=
    link_symm.mp (h.okay (!y) i q (by rw [hchan]; exact mem_cons_self))
  set p₁ := if ((s.prog y).sock q).peer = none then
    (s.prog y).update q fun x => { x with peer := some (.remote i ()) } else s.prog y with hp₁
  have htouch : Touches (s.prog y) p₁ q := by
    rw [hp₁]
    split
    · exact update_touches ..
    · exact Touches.refl ..
  have hclosings : p₁.closings = (s.prog y).closings := by
    rw [hp₁]
    split <;> rfl
  obtain ⟨peer, hsock, hpeer, hpeers⟩ : ∃ peer, p₁.sock q = { s.sock y q with peer := peer } ∧
      peer ≠ none ∧ ∀ r, peer = some r → ∃ b, r = .remote b () ∧ s.Link y q b := by
    rw [hp₁]
    split
    · refine ⟨_, update_sock_self .., Option.some_ne_none _, fun r hr => ?_⟩
      cases hr
      exact ⟨i, rfl, hlink⟩
    next hpeer => exact ⟨_, rfl, hpeer, fun r hr => h.peer y q r hq hr⟩
  -- the socket has a peer now and reads again, and its stream is as it was
  obtain ⟨notify, status, hready⟩ : ∃ notify status, (ready ws q p₁).sock q =
      { s.sock y q with peer := peer, notify := notify, status := status, reading := true } := by
    rw [ready, update_sock_self, hsock]
    split
    · exact ⟨_, _, rfl⟩
    · exact ⟨_, _, rfl⟩
  refine h.change (q := q) [.okay i q] (htouch.trans (update_touches ..))
    (h.not_closed hq hclosings) hchan ?_ (fun p hp => absurd hp not_mem_nil)
    fun _ => ?_
  · intro p hp
    rw [mem_singleton.mp hp]
    exact Or.inl ⟨i, rfl⟩
  · rw [hready]
    obtain ⟨-, hbusy⟩ := h.busy y q hq
    refine ⟨fun hno => absurd hlink (hno i), hpeers, ⟨fun _ => hpeer, hbusy⟩, fun b hlb hb => ?_⟩
    obtain rfl := h.unique y q i b hlink hlb
    obtain ⟨hout, hin⟩ := h.flows_at hq hlink hb
    rw [hchan] at hout hin
    rw [append_nil]
    refine ⟨⟨?_, hout.2⟩, hin⟩
    have hcredit := hout.1
    rw [← singleton_append, okays_append, okays_okay] at hcredit
    rw [if_pos rfl]
    omega

/-- A socket keeps its stream: what changes is the data it has written and the data that waits. -/
structure Steady (s : Pair) (y : Bool) (P : Program Unit) (q : ℕ) : Prop where
  touch : Touches (s.prog y) P q
  closings : P.closings = (s.prog y).closings
  peer : (P.sock q).peer = (s.sock y q).peer
  reading : (P.sock q).reading = (s.sock y q).reading
  closing : (P.sock q).closing = (s.sock y q).closing
  taken : (P.sock q).taken = (s.sock y q).taken
  writing : (P.sock q).writing = true → (P.sock q).queue ≠ []

variable {d : Bytes}

/-- A live socket takes packets of data into its stream, and writes them or its backlog at once or
in part.  An answer is sent if the backlog has got no longer. -/
theorem Inv.steady (h : s.Inv) (data : List Bytes)
    (hchan : s.chan (!y) = data.map (.wrte i q) ++ rest) (hq : s.Alive y q) (hP : s.Steady y P q)
    (hbytes : (P.sock q).written ++ (P.sock q).queue.flatten =
      (s.sock y q).written ++ (s.sock y q).queue.flatten ++ data.flatten)
    (hout : out = [] ∨ ∃ j, s.Link y q j ∧ out = [.okay q j])
    (hcredit : (P.sock q).queue.length + out.length ≤ (s.sock y q).queue.length + data.length) :
    ((s.pop (!y) rest).act y P out).Inv := by
  obtain ⟨hbusy, -, hopen⟩ := h.busy y q hq
  have hlink : data ≠ [] → s.Link y q i := fun hne => by
    obtain ⟨d, hd⟩ := exists_mem_of_ne_nil _ hne
    exact link_symm.mp (h.wrte (!y) i q d (by
      rw [hchan]
      exact mem_append_left _ (mem_map_of_mem hd)))
  refine h.change _ hP.touch (h.not_closed hq hP.closings) hchan
    (forall_mem_map.mpr fun d _ => Or.inr (Or.inl ⟨i, d, rfl⟩)) (fun p hp => ?_) fun _ => ?_
  · rcases hout with rfl | ⟨j, hj, rfl⟩
    · exact absurd hp not_mem_nil
    · exact Or.inl ⟨j, hj, Or.inl (mem_singleton.mp hp)⟩
  · refine ⟨fun hno => ?_, fun r hr => h.peer y q r hq (hP.peer ▸ hr),
      ⟨fun hr => ?_, hP.writing, hP.closing.trans hopen⟩, fun b hlb hb => ?_⟩
    · -- a socket without a stream has no data and no backlog
      obtain ⟨hbpeer, hbreading, hbwriting, hbqueue, hbwritten, hbtaken⟩ := h.blank y q hq hno
      obtain rfl : data = [] := by_contra fun hne => hno i (hlink hne)
      have hq0 : (P.sock q).queue = [] := by
        rw [hbqueue, length_nil] at hcredit
        exact length_eq_zero_iff.mp (by omega)
      rw [hq0, hbqueue, hbwritten] at hbytes
      refine ⟨hP.peer.trans hbpeer, hP.reading.trans hbreading, ?_, hq0, ?_, hP.taken.trans hbtaken⟩
      · exact Bool.eq_false_iff.mpr fun hw => hP.writing hw hq0
      · rwa [flatten_nil, append_nil, append_nil, append_nil] at hbytes
    · rw [hP.peer]
      exact hbusy (hP.reading ▸ hr)
    · obtain ⟨hnear, hfar⟩ := h.flows_at hq hlb hb
      have hwrtes : wrtes q b out = [] := by
        rcases hout with rfl | ⟨j, -, rfl⟩ <;> rfl
      have hokays : okays q b out = out.length := by
        rcases hout with rfl | ⟨j, hj, rfl⟩
        · rfl
        · rw [h.unique y q j b hj hlb]
          exact okays_okay
      have hdata : wrtes b q (data.map (.wrte i q)) = data := by
        rcases eq_or_ne data [] with rfl | hne
        · rfl
        · rw [h.unique y q i b (hlink hne) hlb, wrtes_map_wrte]
      have hnone : okays b q (data.map (.wrte i q)) = 0 := okays_eq_zero (by simp)
      rw [hchan, okays_append, hnone, Nat.zero_add] at hnear
      rw [hchan, wrtes_append, hdata] at hfar
      refine ⟨⟨?_, ?_⟩, ⟨?_, ?_⟩⟩
      · rw [wrtes_append, hwrtes, append_nil, hP.reading]
        exact hnear.1
      · rw [wrtes_append, hwrtes, append_nil, hP.taken]
        exact hnear.2
      · have hfar := hfar.1
        rw [length_append] at hfar
        rw [okays_append, hokays]
        omega
      · rw [hbytes, ← hfar.2, flatten_append]
        simp only [append_assoc]

/-- **`WRTE`** is answered when its data has been written. -/
theorem Inv.wrte_received (h : s.Inv) (ws : List Write)
    (hchan : s.chan (!y) = .wrte i q d :: rest) (hq : s.Alive y q) :
    ((s.pop (!y) rest).act y (enqueue ws d q (s.prog y)).1
      ((if (enqueue ws d q (s.prog y)).2.2 then
        (enqueue ws d q (s.prog y)).2.1 ++ [((), .okay (u32 q) i)]
      else (enqueue ws d q (s.prog y)).2.1).map Prod.snd)).Inv := by
  have hu32 := h.u32_eq hq
  have hcases := enqueue_cases ws d q (s.prog y)
  have happend := writeAll_append ws d
  obtain ⟨-, hbusy, -⟩ := h.busy y q hq
  have hlink := link_symm.mp (h.wrte (!y) i q d (by rw [hchan]; exact mem_cons_self))
  rw [hu32]
  generalize enqueue ws d q (s.prog y) = r at hcases ⊢
  cases hcases with
  | joins hqueue =>
    dsimp only
    refine h.steady [d] hchan hq ⟨update_touches .., rfl, ?_, ?_, ?_, ?_, fun _ => ?_⟩ ?_
      (Or.inl rfl) ?_
    all_goals rw [update_sock_self]
    · rfl
    · rfl
    · rfl
    · rfl
    · exact fun hnil => absurd (append_eq_nil_iff.mp hnil).1 hqueue
    · rw [flatten_append, append_assoc]
      rfl
    · rw [length_append]
      exact Nat.le_refl _
  | fails hqueue done left hw =>
    set p₁ := (s.prog y).update q fun x => { x with written := x.written ++ done } with hp₁
    have hpeer : ∀ b, (p₁.sock q).peer ≠ some (.sock b) := fun b => by
      rw [hp₁, update_sock_self]
      exact h.peer_ne (Or.inl hq) b
    obtain ⟨hcloses, hout⟩ := close_closes (p := p₁) (h.nodup y) (h.not_closed hq rfl) hpeer
    refine h.closes [.wrte i q d] hchan (fun p hp => ?_) hout
      ((update_touches ..).closes hcloses) (h.range y q hq)
    rw [mem_singleton.mp hp]
    exact Or.inr (Or.inl ⟨i, d, rfl⟩)
  | passes hqueue done hw =>
    rw [hw, append_nil] at happend
    dsimp only
    refine h.steady [d] hchan hq ⟨update_touches .., rfl, ?_, ?_, ?_, ?_, ?_⟩ ?_
      (Or.inr ⟨i, hlink, rfl⟩) ?_
    all_goals rw [update_sock_self]
    · rfl
    · rfl
    · rfl
    · rfl
    · exact hbusy
    · change _ ++ _ ++ ((s.prog y).sock q).queue.flatten =
        ((s.prog y).sock q).written ++ ((s.prog y).sock q).queue.flatten ++ [d].flatten
      rw [hqueue, ← happend]
      simp only [flatten_nil, append_nil, flatten_singleton]
    · exact Nat.le_refl _
  | waits hqueue done left hw hleft =>
    rw [hw] at happend
    dsimp only
    refine h.steady [d] hchan hq ⟨(update_touches ..).trans (update_touches ..), rfl, ?_, ?_, ?_,
      ?_, fun _ => ?_⟩ ?_ (Or.inl rfl) ?_
    all_goals rw [update_sock_self, update_sock_self]
    · rfl
    · rfl
    · rfl
    · rfl
    · exact cons_ne_nil _ _
    · change _ ++ _ ++ [left].flatten =
        ((s.prog y).sock q).written ++ ((s.prog y).sock q).queue.flatten ++ [d].flatten
      rw [hqueue, ← happend]
      simp only [flatten_nil, append_nil, flatten_singleton, append_assoc]
    · exact Nat.succ_le_succ (Nat.zero_le _)

/-! ### Events of files -/

variable {ws : List Write}

theorem flatten_dropWhile (queue : List Bytes) :
    (queue.dropWhile List.isEmpty).flatten = queue.flatten := by
  induction queue with
  | nil => rfl
  | cons p queue ih =>
    cases p with
    | nil => exact ih
    | cons x p => rfl

/-- The loop over the backlog writes bytes in order, and leaves the others. -/
theorem drainAll_spec (ws : List Write) (queue : List Bytes) :
    (drainAll ws queue).1 ++ (drainAll ws queue).2.1.flatten = queue.flatten ∧
      (drainAll ws queue).2.1.length ≤ queue.length ∧
      ((drainAll ws queue).2.2 = .all ↔ (drainAll ws queue).2.1 = []) := by
  -- the empty buffers in front of the queue are dropped first
  have hdropped : ∀ {queue left : List Bytes}, queue.dropWhile List.isEmpty = left →
      left.flatten = queue.flatten ∧ left.length ≤ queue.length := by
    rintro queue _ rfl
    exact ⟨flatten_dropWhile queue, (queue.dropWhile_sublist List.isEmpty).length_le⟩
  fun_induction drainAll ws queue with
  | case1 _ _ hdrop =>
    exact ⟨(hdropped hdrop).1, Nat.zero_le _, iff_of_true rfl rfl⟩
  | case2 _ _ _ hdrop | case3 _ _ _ hdrop | case4 _ _ _ hdrop | case5 _ _ _ hdrop =>
    obtain ⟨hflat, hlen⟩ := hdropped hdrop
    exact ⟨hflat, hlen, iff_of_false (fun h => Program.Drained.noConfusion h) (cons_ne_nil _ _)⟩
  | case6 _ p rest hdrop n ws _ done left r hrun ih =>
    obtain ⟨hflat, hlen⟩ := hdropped hdrop
    rw [hrun] at ih
    obtain ⟨hbytes, hshort, hall⟩ := ih
    refine ⟨?_, Nat.le_trans hshort hlen, hall⟩
    rw [append_assoc, hbytes, ← hflat, flatten_cons, flatten_cons, ← append_assoc,
      take_append_drop]

/-- The backlog of a socket is written, in part or wholly. -/
theorem Inv.drained (h : s.Inv) (hq : s.Alive y q) (hP : s.Steady y P q)
    (hbytes : (P.sock q).written ++ (P.sock q).queue.flatten =
      (s.sock y q).written ++ (s.sock y q).queue.flatten)
    (hout : out = [] ∨ ∃ i, s.Link y q i ∧ out = [.okay q i])
    (hcredit : (P.sock q).queue.length + out.length ≤ (s.sock y q).queue.length) :
    (s.act y P out).Inv := by
  rw [← pop_self s (!y)]
  exact h.steady (i := 0) [] rfl hq hP (by rwa [flatten_nil, append_nil]) hout hcredit

/-- A socket is closed by an event of its file. -/
theorem Inv.closes_self (h : s.Inv) (hq : s.Alive y q ∨ q ∈ (s.prog y).closings)
    {p : Program Unit} (htouch : Touches (s.prog y) p q) (hlocals : p.locals = (s.prog y).locals)
    (hclosings : p.closings = (s.prog y).closings) {written taken : Bytes} {queue : List Bytes}
    (hsock : p.sock q = { s.sock y q with
      written := written, taken := taken, queue := queue }) :
    (s.act y (close q p).1 ((close q p).2.map Prod.snd)).Inv := by
  obtain ⟨hcloses, hout⟩ := close_closes (p := p) (q := q) (by rw [hlocals]; exact h.nodup y)
    (fun hin => by
      rw [hsock]
      exact h.closing y q (hclosings ▸ hin))
    (fun b => by
      rw [hsock]
      exact h.peer_ne hq b)
  rw [← pop_self s (!y)]
  exact h.closes [] rfl (fun p hp => absurd hp not_mem_nil) hout (htouch.closes hcloses) (h.lt hq)

/-- **`FDE_WRITE`**: the answer is sent when the backlog is empty. -/
theorem Inv.event_write (h : s.Inv) (hq : s.Alive y q ∨ q ∈ (s.prog y).closings)
    (hwriting : (s.sock y q).writing = true) {out : List (Unit × Packet)} {goesOn : Bool}
    (hevent : eventWrite ws q (s.prog y) = some (P, out, goesOn)) :
    (s.act y P (out.map Prod.snd)).Inv ∧
      (goesOn = true → q ∈ P.locals ∧ (P.sock q).reading = (s.sock y q).reading) := by
  obtain ⟨hbytes, hlen, hall⟩ := drainAll_spec ws ((s.prog y).sock q).queue
  rw [eventWrite] at hevent
  generalize drainAll ws ((s.prog y).sock q).queue = d at hevent hbytes hlen hall
  obtain ⟨done, left, r⟩ := d
  dsimp only at hevent hbytes hlen hall
  set p₁ := (s.prog y).update q fun x => { x with written := x.written ++ done, queue := left }
    with hp₁
  have hsock : p₁.sock q =
      { s.sock y q with written := (s.sock y q).written ++ done, queue := left } :=
    update_sock_self ..
  have htouch : Touches (s.prog y) p₁ q := update_touches ..
  have hclose := h.closes_self (p := p₁) hq htouch rfl rfl hsock
  cases r with
  | failed =>
    cases hevent
    exact ⟨hclose, fun h => Bool.noConfusion h⟩
  | again =>
    simp only [Option.some.injEq, Prod.mk.injEq] at hevent
    obtain ⟨rfl, rfl, rfl⟩ := hevent
    refine ⟨?_, fun h => Bool.noConfusion h⟩
    have hleft : left ≠ [] := fun hnil => Program.Drained.noConfusion (hall.mpr hnil)
    by_cases hlive : s.Alive y q
    · refine h.drained hlive ⟨htouch, rfl, ?_, ?_, ?_, ?_, fun _ => ?_⟩ ?_ (Or.inl rfl) ?_
      all_goals rw [hsock]
      · exact hleft
      · rw [append_assoc, hbytes]
        rfl
      · exact hlen
    · -- a socket that is being closed
      have hin := hq.resolve_left hlive
      rw [← pop_self s (!y)]
      refine h.change [] htouch (fun _ => ⟨hlive, h.lt hq, ?_⟩) rfl
        (fun p hp => absurd hp not_mem_nil) (fun p hp => absurd hp not_mem_nil)
        fun hin => absurd hin hlive
      rw [hsock]
      exact (h.closings y q hin).2.2
  | all =>
    obtain rfl := hall.mp rfl
    dsimp only at hevent
    split at hevent
    · cases hevent
      exact ⟨hclose, fun h => Bool.noConfusion h⟩
    next hopen =>
      rw [hsock] at hopen
      have hlive : s.Alive y q := hq.resolve_right fun hin => hopen (h.closings y q hin).2.2.2.1
      have hqueue := (h.busy y q hlive).2.1 hwriting
      set p₂ := p₁.update q fun x => { x with writing := false } with hp₂
      have hsock₂ : p₂.sock q = { s.sock y q with
          written := (s.sock y q).written ++ done, queue := [], writing := false } := by
        rw [hp₂, update_sock_self, hsock]
      have htouch₂ : Touches (s.prog y) p₂ q := htouch.trans (update_touches ..)
      rw [hsock₂] at hevent
      dsimp only at hevent
      have hu32 := h.u32_eq hlive
      cases hpeer : (s.sock y q).peer with
      | none =>
        rw [hpeer] at hevent
        cases hevent
      | some r =>
        obtain ⟨i, rfl, hlink⟩ := h.peer y q r hlive hpeer
        simp only [hpeer, hu32, Option.some.injEq, Prod.mk.injEq] at hevent
        obtain ⟨rfl, rfl, rfl⟩ := hevent
        refine ⟨?_, fun _ => ⟨hlive, by rw [hsock₂]⟩⟩
        refine h.drained hlive ⟨htouch₂, rfl, ?_, ?_, ?_, ?_, fun hw => ?_⟩ ?_
          (Or.inr ⟨i, hlink, rfl⟩) ?_
        all_goals rw [hsock₂]
        · rw [hsock₂] at hw
          exact Bool.noConfusion hw
        · rw [append_assoc, hbytes]
          rfl
        · exact length_pos_of_ne_nil hqueue

/-- A socket sends data, and waits for the answer. -/
theorem Inv.data_sent (h : s.Inv) {data : Bytes} (hq : s.Alive y q)
    (hreading : (s.sock y q).reading = true) (hpeer : (s.sock y q).peer = some (.remote i ()))
    (htouch : Touches (s.prog y) P q) (hclosings : P.closings = (s.prog y).closings)
    (hsock : P.sock q =
      { s.sock y q with taken := (s.sock y q).taken ++ data, reading := false }) :
    (s.act y P [.wrte q i data]).Inv := by
  obtain ⟨-, hbusy, hopen⟩ := h.busy y q hq
  obtain ⟨b, hb, hlink⟩ := h.peer y q _ hq hpeer
  cases hb
  rw [← pop_self s (!y)]
  refine h.change [] htouch (h.not_closed hq hclosings) rfl
    (fun p hp => absurd hp not_mem_nil) (fun p hp => ?_) fun _ => ?_
  · exact Or.inl ⟨i, hlink, Or.inr ⟨data, mem_singleton.mp hp⟩⟩
  · rw [hsock]
    refine ⟨fun hno => absurd hlink (hno i), fun r hr => h.peer y q r hq hr,
      ⟨fun hr => Bool.noConfusion hr, hbusy, hopen⟩, fun b hlb hb => ?_⟩
    obtain rfl := h.unique y q i b hlink hlb
    obtain ⟨hnear, hfar⟩ := h.flows_at hq hlink hb
    have hokays : okays q i [.wrte q i data] = 0 := okays_eq_zero (by simp)
    refine ⟨⟨?_, ?_⟩, ⟨?_, hfar.2⟩⟩
    · have hnear := hnear.1
      rw [hreading, if_pos rfl] at hnear
      rw [wrtes_append, wrtes_wrte, length_append, length_singleton,
        if_neg Bool.false_ne_true]
      omega
    · rw [wrtes_append, wrtes_wrte, flatten_append, flatten_singleton,
        ← append_assoc, hnear.2]
    · rw [okays_append, hokays]
      exact hfar.1

/-- **`FDE_READ`**: data is sent, and reading is disabled until it is answered. -/
theorem Inv.event_read (h : s.Inv) (hq : s.Alive y q) (hreading : (s.sock y q).reading = true)
    (ws : List Write) (rs : List Program.Read) :
    (s.act y (eventRead ws rs q (s.prog y)).1
      ((eventRead ws rs q (s.prog y)).2.map Prod.snd)).Inv := by
  have hu32 := h.u32_eq hq
  obtain ⟨hbusy, hwriting, -⟩ := h.busy y q hq
  rw [eventRead]
  generalize readAll rs maxPayload = d
  obtain ⟨data, eof⟩ := d
  dsimp only
  set p₁ := (s.prog y).update q fun x => { x with taken := x.taken ++ data } with hp₁
  have hsock : p₁.sock q = { s.sock y q with taken := (s.sock y q).taken ++ data } :=
    update_sock_self ..
  have htouch : Touches (s.prog y) p₁ q := update_touches ..
  by_cases hdata : data = []
  · subst hdata
    rw [append_nil] at hsock
    rw [if_pos rfl]
    dsimp only
    cases eof with
    | true =>
      exact h.closes_self (Or.inl hq) htouch rfl rfl hsock
    | false =>
      change (s.act y p₁ []).Inv
      refine h.drained hq ⟨htouch, rfl, ?_, ?_, ?_, ?_, ?_⟩ ?_ (Or.inl rfl) ?_
      all_goals rw [hsock]
      · exact hwriting
      · exact Nat.le_refl _
  · obtain ⟨i, hpeer⟩ : ∃ i, (s.sock y q).peer = some (.remote i ()) := by
      obtain ⟨r, hr⟩ := Option.ne_none_iff_exists'.mp (hbusy hreading)
      obtain ⟨i, rfl, -⟩ := h.peer y q r hq hr
      exact ⟨i, hr⟩
    rw [if_neg hdata, hsock]
    dsimp only
    rw [hpeer]
    dsimp only
    set p₂ := p₁.update q fun x => { x with reading := false } with hp₂
    have hsent : (s.act y p₂ [.wrte q i data]).Inv := by
      refine h.data_sent hq hreading hpeer (htouch.trans (update_touches ..)) rfl ?_
      rw [hp₂, update_sock_self, hsock]
    rw [hu32]
    cases eof with
    | true =>
      have hclose := hsent.closes_self (y := y) (q := q) (p := p₂)
        (Or.inl (show q ∈ ((s.act y p₂ _).prog y).locals by rw [act_prog]; exact hq))
        (by rw [act_prog]; exact Touches.refl ..) (by rw [act_prog]) (by rw [act_prog])
        (by rw [Pair.sock, act_prog])
      rw [act_act] at hclose
      simpa only [if_true, map_append, map_cons, map_nil] using hclose
    | false => exact hsent

variable {s' : Pair}

/-- **The file of a socket is ready.** -/
theorem Inv.file (h : s.Inv) {write read : Bool} {rs : List Program.Read}
    (hstep : s.file y q write read ws rs = some s') : s'.Inv := by
  rw [Pair.file] at hstep
  dsimp only at hstep
  split at hstep
  next hguard =>
    obtain ⟨hq, hwrite, hread⟩ := hguard
    obtain ⟨⟨P, out⟩, hevent, hs'⟩ := Option.bind_eq_some_iff.mp hstep
    cases hs'
    obtain ⟨⟨p₁, out₁, goesOn⟩, hfirst, hrest⟩ : ∃ r,
        (if write then eventWrite ws q (s.prog y) else some (s.prog y, [], true)) = some r ∧
          (if read && r.2.2 then
            some ((eventRead ws rs q r.1).1, r.2.1 ++ (eventRead ws rs q r.1).2)
          else some (r.1, r.2.1)) = some (P, out) := by
      cases write with
      | true => exact Option.bind_eq_some_iff.mp hevent
      | false => exact ⟨_, rfl, hevent⟩
    -- a socket that is being closed does not read
    have hlive : read = true → s.Alive y q := fun hr => hq.resolve_right fun hin => by
      have hoff := (h.closings y q hin).2.2.2.2
      rw [Pair.sock, hread hr] at hoff
      cases hoff
    have hmid : (s.act y p₁ (out₁.map Prod.snd)).Inv ∧ (goesOn = true → read = true →
        q ∈ p₁.locals ∧ (p₁.sock q).reading = true) := by
      cases write with
      | true =>
        obtain ⟨hinv, hgoes⟩ := h.event_write hq (hwrite rfl) hfirst
        exact ⟨hinv, fun hg hr => ⟨(hgoes hg).1, (hgoes hg).2.trans (hread hr)⟩⟩
      | false =>
        simp only [Bool.false_eq_true, if_false, Option.some.injEq, Prod.mk.injEq] at hfirst
        obtain ⟨rfl, rfl, rfl⟩ := hfirst
        rw [map_nil, act_self]
        exact ⟨h, fun _ hr => ⟨hlive hr, hread hr⟩⟩
    dsimp only at hrest
    split at hrest
    next hgo =>
      cases hrest
      rw [Bool.and_eq_true] at hgo
      obtain ⟨hin, hreading⟩ := hmid.2 hgo.2 hgo.1
      have hread := hmid.1.event_read (y := y) (q := q)
        (show q ∈ ((s.act y p₁ _).prog y).locals by rwa [act_prog])
        (by rwa [Pair.sock, act_prog]) ws rs
      rw [act_act, act_prog] at hread
      rw [map_append]
      exact hread
    next =>
      cases hrest
      exact hmid.1
  next => cases hstep

/-! ### New sockets -/

/-- An `OPEN` leaves the transport. -/
theorem Inv.pop_open (h : s.Inv) {destination : Bytes}
    (hchan : s.chan x = .open i destination :: rest) :
    ({ s.pop x rest with opens := update s.opens x (s.opens x).tail } : Pair).Inv ∧
      ∃ more, s.opens x = i :: more ∧ i < (s.prog x).next ∧ (∀ b, ¬ s.Link x i b) ∧ i ∉ more := by
  set s' : Pair :=
    { s.pop x rest with opens := update s.opens x (s.opens x).tail } with hs'
  have hopens := h.opens x
  rw [hchan] at hopens
  change i :: rest.filterMap openId = s.opens x at hopens
  have hfresh := h.fresh x
  rw [← hopens] at hfresh
  have hmem : ∀ {p}, p ∈ rest → p ∈ s.chan x := fun hp => by
    rw [hchan]
    exact mem_cons_of_mem _ hp
  have hne : (!x) ≠ x := by cases x <;> decide
  have hchan' : s'.chan x = rest := update_self ..
  have hchan'' : s'.chan (!x) = s.chan (!x) := update_of_ne hne ..
  have hopens' : s'.opens x = rest.filterMap openId := by
    change update s.opens x (s.opens x).tail x = _
    rw [update_self, ← hopens]
    rfl
  have hopens'' : s'.opens (!x) = s.opens (!x) := update_of_ne hne ..
  have hwrtes : ∀ a b, wrtes a b (s.chan x) = wrtes a b rest := fun a b => by rw [hchan]; rfl
  have hokays : ∀ a b, okays a b (s.chan x) = okays a b rest := fun a b => by
    rw [hchan, ← singleton_append, okays_append, okays_eq_zero (by simp), Nat.zero_add]
  refine ⟨?_, rest.filterMap openId, hopens.symm, (hfresh.2 i mem_cons_self).1,
    (hfresh.2 i mem_cons_self).2, (nodup_cons.mp hfresh.1).1⟩
  exact
    { online := h.online
      small := h.small
      range := h.range
      nodup := h.nodup
      closings := h.closings
      linked := h.linked
      unique := h.unique
      opens := forall_bool x (by rw [hchan', hopens'])
        (by rw [hchan'', hopens'']; exact h.opens (!x))
      fresh := forall_bool x
        (by
          rw [hopens']
          exact ⟨(nodup_cons.mp hfresh.1).2, fun a ha =>
            hfresh.2 a (mem_cons_of_mem _ ha)⟩)
        (by rw [hopens'']; exact h.fresh (!x))
      blank := h.blank
      okay := forall_bool x
        (fun i j hp => h.okay x i j (hmem (by rwa [hchan'] at hp)))
        (fun i j hp => h.okay (!x) i j (by rwa [hchan''] at hp))
      wrte := forall_bool x
        (fun i j d hp => h.wrte x i j d (hmem (by rwa [hchan'] at hp)))
        (fun i j d hp => h.wrte (!x) i j d (by rwa [hchan''] at hp))
      peer := h.peer
      busy := h.busy
      flow := forall_bool x
        (fun a b hl ha hb => by
          rw [hchan', hchan'', ← hwrtes]
          exact h.flow x a b hl ha hb)
        (fun a b hl ha hb => by
          have hflow := h.flow (!x) a b hl ha hb
          rw [Bool.not_not] at hflow ⊢
          rw [hchan', hchan'', ← hokays]
          exact hflow) }

/-- A program has a new socket. -/
structure Installs (p P : Program Unit) : Prop where
  sock : ∀ a, a ≠ p.next → P.sock a = p.sock a
  locals : P.locals = p.locals ++ [p.next]
  closings : P.closings = p.closings
  next : P.next = p.next + 1
  online : P.online = p.online

/-- One side has a new socket, and the other is as it was. -/
structure Extends (s s' : Pair) (y : Bool) : Prop where
  near : Installs (s.prog y) (s'.prog y)
  far : s'.prog (!y) = s.prog (!y)

namespace Extends

variable {s' : Pair}

variable (he : Extends s s' y)
include he

theorem alive_near (ha : s'.Alive y a) (hne : a ≠ (s.prog y).next) :
    s.Alive y a := by
  rw [Alive, he.near.locals] at ha
  exact (mem_append.mp ha).resolve_right fun hin => hne (mem_singleton.mp hin)

theorem alive_far : s'.Alive (!y) a ↔ s.Alive (!y) a := by
  rw [Alive, Alive, he.far]

theorem sock_far (a : ℕ) : s'.sock (!y) a = s.sock (!y) a := by
  rw [Pair.sock, he.far, Pair.sock]

/-- The parts of the invariant that are about one program each. -/
theorem programs (h : s.Inv) (hroom : (s.prog y).next < 2 ^ 32) :
    (∀ x, (s'.prog x).online () = true) ∧ (∀ x, (s'.prog x).next ≤ 2 ^ 32) ∧
      (∀ x a, s'.Alive x a → a < (s'.prog x).next) ∧ (∀ x, (s'.prog x).locals.Nodup) ∧
      ∀ x, ∀ a ∈ (s'.prog x).closings, ¬ s'.Alive x a ∧ a < (s'.prog x).next ∧
        (s'.sock x a).peer = none ∧ (s'.sock x a).closing = true ∧
        (s'.sock x a).reading = false := by
  refine ⟨forall_bool y ?_ (by rw [he.far]; exact h.online (!y)),
    forall_bool y ?_ (by rw [he.far]; exact h.small (!y)),
    forall_bool y (fun a ha => ?_) (by simp only [he.alive_far, he.far]; exact h.range (!y)),
    forall_bool y ?_ (by rw [he.far]; exact h.nodup (!y)),
    forall_bool y (fun a ha => ?_)
      (by simp only [he.alive_far, he.far, he.sock_far]; exact h.closings (!y))⟩
  · rw [he.near.online]
    exact h.online y
  · rw [he.near.next]
    exact hroom
  · rw [he.near.next]
    by_cases hne : a = (s.prog y).next
    · rw [hne]
      exact Nat.lt_succ_self _
    · exact Nat.lt_succ_of_lt (h.range y a (he.alive_near ha hne))
  · rw [he.near.locals]
    refine nodup_append.mpr ⟨h.nodup y, nodup_singleton _, fun a ha b hb hab => ?_⟩
    rw [mem_singleton.mp hb] at hab
    exact absurd (h.range y a ha) (by rw [hab]; exact Nat.lt_irrefl _)
  · rw [he.near.closings] at ha
    obtain ⟨hlive, hlt, hrest⟩ := h.closings y a ha
    rw [Pair.sock, he.near.sock a hlt.ne, he.near.next]
    exact ⟨fun hin => hlive (he.alive_near hin hlt.ne), Nat.lt_succ_of_lt hlt, hrest⟩

end Extends

/-- **The rule for a new socket**, which sends a packet `p`: `peer` is the socket that its stream
goes to, if it has one already. -/
theorem Inv.extend (h : s.Inv) (peer : Option ℕ) {p : Packet} (he : Extends s s' y)
    (hroom : (s.prog y).next < 2 ^ 32) (hchan : s'.chan y = s.chan y ++ [p])
    (hchan' : s'.chan (!y) = s.chan (!y))
    (hopens : s'.opens y = s.opens y ++ [p].filterMap openId)
    (hopens' : s'.opens (!y) = s.opens (!y))
    (hlink : ∀ {a b}, s'.Link y a b ↔ s.Link y a b ∨ (a = (s.prog y).next ∧ peer = some b))
    (hpeer : ∀ i, peer = some i →
      i < (s.prog (!y)).next ∧ (∀ b, ¬ s.Link (!y) i b) ∧ i ∉ s.opens (!y))
    (hpacket : (peer = none ∧ ∃ d, p = .open (s.prog y).next d) ∨
      ∃ i, peer = some i ∧ p = .okay (s.prog y).next i)
    (hX : ∃ t n, s'.sock y (s.prog y).next = { (Socket.new : Socket Unit) with
      peer := peer.map (.remote · ()), reading := peer.isSome, transport := t, notify := n }) :
    s'.Inv := by
  set n := (s.prog y).next with hn
  obtain ⟨t, notify, hnew⟩ := hX
  have hold : ∀ a, a ≠ n → s'.sock y a = s.sock y a := he.near.sock
  have hlt : ∀ {a b}, s.Link y a b → a ≠ n := fun hl => (h.linked y _ _ hl).ne
  have hlink' : ∀ {a b}, s'.Link (!y) a b ↔ s.Link (!y) a b ∨ (b = n ∧ peer = some a) := by
    intro a b
    rw [link_symm, hlink, link_symm]
  have hwrtes : ∀ a b, wrtes a b (s'.chan y) = wrtes a b (s.chan y) := fun a b => by
    have hnone : wrtes a b [p] = [] := by rcases hpacket with ⟨-, d, rfl⟩ | ⟨i, -, rfl⟩ <;> rfl
    rw [hchan, wrtes_append, hnone, append_nil]
  have hokays : ∀ a b, a ≠ n → okays a b (s'.chan y) = okays a b (s.chan y) := fun a b hne => by
    have hnone : okays a b [p] = 0 := okays_eq_zero (by
      rcases hpacket with ⟨-, d, rfl⟩ | ⟨i, -, rfl⟩ <;> simp [hne])
    rw [hchan, okays_append, hnone, Nat.add_zero]
  obtain ⟨honline, hsmall, hrange, hnodup, hclosings⟩ := he.programs h hroom
  refine
    { online := honline
      small := hsmall
      range := hrange
      nodup := hnodup
      closings := hclosings
      linked := forall_bool y (fun a b hl => ?_) (fun a b hl => ?_)
      unique := forall_bool y (fun a b c hb hc => ?_) (fun a b c hb hc => ?_)
      opens := forall_bool y ?_ (by rw [hchan', hopens']; exact h.opens (!y))
      fresh := forall_bool y ?_ ?_
      blank := forall_bool y (fun a ha hno => ?_) (fun a ha hno => ?_)
      okay := forall_bool y (fun a b hp => ?_) (fun a b hp => ?_)
      wrte := forall_bool y (fun a b d hp => ?_) (fun a b d hp => ?_)
      peer := forall_bool y (fun a p ha hp => ?_) (fun a p ha hp => ?_)
      busy := forall_bool y (fun a ha => ?_)
        (by simp only [he.alive_far, he.sock_far]; exact h.busy (!y))
      flow := forall_bool y (fun a b hl ha hb => ?_) (fun a b hl ha hb => ?_) }
  -- the fields about streams, for the program with the new socket and for the other one
  -- `linked`
  · rw [he.near.next]
    rcases hlink.mp hl with hl | ⟨rfl, -⟩
    · exact Nat.lt_succ_of_lt (h.linked y a b hl)
    · exact Nat.lt_succ_self _
  · rw [he.far]
    rcases hlink'.mp hl with hl | ⟨-, ha⟩
    · exact h.linked (!y) a b hl
    · exact (hpeer a ha).1
  -- `unique`
  · rcases hlink.mp hb with hb | ⟨ha, hbi⟩ <;> rcases hlink.mp hc with hc | ⟨ha', hci⟩
    · exact h.unique y a b c hb hc
    · exact absurd ha' (hlt hb)
    · exact absurd ha (hlt hc)
    · exact Option.some.inj (hbi.symm.trans hci)
  · rcases hlink'.mp hb with hb | ⟨hbn, ha⟩ <;> rcases hlink'.mp hc with hc | ⟨hcn, ha'⟩
    · exact h.unique (!y) a b c hb hc
    · exact absurd hb ((hpeer a ha').2.1 b)
    · exact absurd hc ((hpeer a ha).2.1 c)
    · exact hbn.trans hcn.symm
  -- `opens`
  · rw [hchan, hopens, filterMap_append, h.opens y]
  -- `fresh`
  · obtain ⟨hdup, hall⟩ := h.fresh y
    rw [hopens, he.near.next]
    have hkeep : ∀ a ∈ s.opens y, a < n + 1 ∧ ∀ b, ¬ s'.Link y a b := fun a ha =>
      ⟨Nat.lt_succ_of_lt (hall a ha).1, fun b hl => (hlink.mp hl).elim ((hall a ha).2 b)
        fun hab => (hall a ha).1.ne hab.1⟩
    rcases hpacket with ⟨hnone, d, rfl⟩ | ⟨i, -, rfl⟩
    · refine ⟨nodup_append.mpr ⟨hdup, nodup_singleton _, fun a ha b hb => ?_⟩,
        forall_mem_append.mpr ⟨hkeep,
          forall_mem_singleton.mpr ⟨Nat.lt_succ_self _, fun b hl => ?_⟩⟩⟩
      · rw [mem_singleton.mp hb]
        exact (hall a ha).1.ne
      · rcases hlink.mp hl with hl | ⟨-, hb⟩
        · exact hlt hl rfl
        · exact Option.some_ne_none _ (hb.symm.trans hnone)
    · rw [show [Packet.okay n i].filterMap openId = [] from rfl, append_nil]
      exact ⟨hdup, hkeep⟩
  · obtain ⟨hdup, hall⟩ := h.fresh (!y)
    rw [hopens', he.far]
    refine ⟨hdup, fun a ha => ⟨(hall a ha).1, fun b hl => ?_⟩⟩
    rcases hlink'.mp hl with hl | ⟨-, hpa⟩
    · exact (hall a ha).2 b hl
    · exact (hpeer a hpa).2.2 ha
  -- `blank`
  · by_cases han : a = n
    · have hnone : peer = none := Option.eq_none_iff_forall_ne_some.mpr fun i hi =>
        hno i (hlink.mpr (Or.inr ⟨han, hi⟩))
      rw [han, hnew, hnone]
      exact ⟨rfl, rfl, rfl, rfl, rfl, rfl⟩
    · rw [hold a han]
      exact h.blank y a (he.alive_near ha han) fun b hl => hno b (hlink.mpr (Or.inl hl))
  · rw [he.sock_far]
    exact h.blank (!y) a (he.alive_far.mp ha) fun b hl => hno b (hlink'.mpr (Or.inl hl))
  -- `okay`
  · rw [hchan] at hp
    rcases mem_append.mp hp with hp | hp
    · exact hlink.mpr (Or.inl (h.okay y a b hp))
    · rcases hpacket with ⟨-, d, rfl⟩ | ⟨i, hi, rfl⟩ <;> cases mem_singleton.mp hp
      exact hlink.mpr (Or.inr ⟨rfl, hi⟩)
  · rw [hchan'] at hp
    exact hlink'.mpr (Or.inl (h.okay (!y) a b hp))
  -- `wrte`
  · rw [hchan] at hp
    rcases mem_append.mp hp with hp | hp
    · exact hlink.mpr (Or.inl (h.wrte y a b d hp))
    · rcases hpacket with ⟨-, d, rfl⟩ | ⟨i, -, rfl⟩ <;> cases mem_singleton.mp hp
  · rw [hchan'] at hp
    exact hlink'.mpr (Or.inl (h.wrte (!y) a b d hp))
  -- `peer`
  · by_cases han : a = n
    · rw [han, hnew] at hp
      obtain ⟨i, hi, rfl⟩ := Option.map_eq_some_iff.mp hp
      exact ⟨i, rfl, hlink.mpr (Or.inr ⟨han, hi⟩)⟩
    · rw [hold a han] at hp
      obtain ⟨b, hb, hl⟩ := h.peer y a p (he.alive_near ha han) hp
      exact ⟨b, hb, hlink.mpr (Or.inl hl)⟩
  · rw [he.sock_far] at hp
    obtain ⟨b, hb, hl⟩ := h.peer (!y) a p (he.alive_far.mp ha) hp
    exact ⟨b, hb, hlink'.mpr (Or.inl hl)⟩
  -- `busy`
  · by_cases han : a = n
    · rw [han, hnew]
      refine ⟨fun hr => ?_, fun hw => Bool.noConfusion hw, rfl⟩
      obtain ⟨i, hi⟩ := Option.isSome_iff_exists.mp hr
      rw [hi]
      exact Option.some_ne_none _
    · rw [hold a han]
      exact h.busy y a (he.alive_near ha han)
  -- `flow`
  · rw [he.sock_far, hwrtes, hchan']
    rcases hlink.mp hl with hl | ⟨rfl, hb'⟩
    · rw [hold a (hlt hl)]
      exact h.flow y a b hl (he.alive_near ha (hlt hl)) (he.alive_far.mp hb)
    · have hunlinked := (hpeer b hb').2.1
      obtain ⟨-, -, -, hqueue, hwritten, -⟩ := h.blank (!y) b (he.alive_far.mp hb) hunlinked
      have hdata : wrtes n b (s.chan y) = [] :=
        wrtes_eq_nil fun d hp => hlt (h.wrte y n b d hp) rfl
      have hanswers : okays b n (s.chan (!y)) = 0 :=
        okays_eq_zero fun hp => hunlinked n (h.okay (!y) b n hp)
      rw [hnew, hdata, hanswers, Carries, hqueue, hwritten, hb']
      exact ⟨Nat.le_refl 1, rfl⟩
  · rw [Bool.not_not] at hb ⊢
    rw [he.sock_far, hchan']
    rcases hlink'.mp hl with hl | ⟨rfl, ha'⟩
    · have hbn := hlt (link_symm.mp hl)
      have hflow := h.flow (!y) a b hl (he.alive_far.mp ha)
        (by rw [Bool.not_not]; exact he.alive_near hb hbn)
      rw [Bool.not_not] at hflow
      rw [hold b hbn, hokays b a hbn]
      exact hflow
    · have hunlinked := (hpeer a ha').2.1
      obtain ⟨-, hreading, -, -, -, htaken⟩ := h.blank (!y) a (he.alive_far.mp ha) hunlinked
      have hdata : wrtes a n (s.chan (!y)) = [] :=
        wrtes_eq_nil fun d hp => hunlinked n (h.wrte (!y) a n d hp)
      have hanswers : okays n a (s'.chan y) = 1 := by
        rcases hpacket with ⟨hnone, -⟩ | ⟨i, hi, rfl⟩
        · exact absurd (ha'.symm.trans hnone) (Option.some_ne_none _)
        · cases hi.symm.trans ha'
          rw [hchan, okays_append, okays_okay,
            okays_eq_zero fun hp => hlt (h.okay y n a hp) rfl]
      rw [hnew, hdata, hanswers, Carries, hreading, htaken]
      exact ⟨Nat.le_refl 1, rfl⟩

/-- **A stream is opened**: the new socket waits for its peer. -/
theorem Inv.connect (h : s.Inv) (hroom : (s.prog x).next < 2 ^ 32) (notify : Bool)
    (destination : Bytes) : (s.connect x notify destination).Inv := by
  set s' := s.connect x notify destination with hs'
  set X : Socket Unit := { Socket.new with transport := some (), notify := notify } with hX
  have hne : (!x) ≠ x := by cases x <;> decide
  have hprog : s'.prog x = install X (s.prog x) := update_self ..
  have hchan : s'.chan x = s.chan x ++ [.open (s.prog x).next destination] := by
    change update s.chan x (s.chan x ++ [.open (u32 (s.prog x).next) destination]) x = _
    rw [update_self, u32_of_lt hroom]
  refine h.extend none ⟨?_, update_of_ne hne ..⟩ hroom hchan (update_of_ne hne ..)
    (update_self ..) (update_of_ne hne ..) ?_ nofun (Or.inl ⟨rfl, destination, rfl⟩)
    ⟨some (), notify, ?_⟩
  · rw [hprog]
    exact ⟨fun a ha => install_of_ne X ha, rfl, rfl, rfl, rfl⟩
  · exact ⟨Or.inl, fun hl => hl.resolve_right nofun⟩
  · rw [Pair.sock, hprog]
    exact install_self X _

/-- **A stream is accepted**: both sockets may send. -/
theorem Inv.accept (h : s.Inv) {P : Program Unit} (hP : Installs (s.prog y) P)
    (hroom : (s.prog y).next < 2 ^ 32) (hi : i < (s.prog (!y)).next)
    (hunlinked : ∀ b, ¬ s.Link (!y) i b) (hsent : i ∉ s.opens (!y))
    (hX : P.sock (s.prog y).next =
      { Socket.new with peer := some (.remote i ()), reading := true }) :
    ({ s.act y P [.okay (s.prog y).next i] with
      streams := s.streams ++ [(!y, i, (s.prog y).next)] } : Pair).Inv := by
  set s' : Pair := { s.act y P [.okay (s.prog y).next i] with
    streams := s.streams ++ [(!y, i, (s.prog y).next)] } with hs'
  have hne : (!y) ≠ y := by cases y <;> decide
  have hprog : s'.prog y = P := update_self ..
  refine h.extend (some i) ⟨by rwa [hprog], update_of_ne hne ..⟩ hroom (update_self ..)
    (update_of_ne hne ..) (append_nil _).symm rfl ?_ ?_ (Or.inr ⟨i, rfl, rfl⟩) ⟨none, false, ?_⟩
  · -- the stream is the only new one
    intro a b
    simp only [Link, hs', mem_append, mem_singleton, Prod.mk.injEq, hne.symm, false_and,
      or_false, true_and, or_assoc, Option.some.injEq]
    rw [and_comm, eq_comm (a := b)]
  · rintro _ ⟨⟩
    exact ⟨hi, hunlinked, hsent⟩
  · rw [Pair.sock, hprog, hX]
    rfl

/-- **`OPEN`** makes a stream, or is refused. -/
theorem Inv.open_received (h : s.Inv) {destination : Bytes} {rest : List Packet}
    (answers : Program.Answers) (hchan : s.chan (!y) = .open i destination :: rest)
    (hroom : answers.service = true → (s.prog y).next < 2 ^ 32) :
    (((s.record (!y) answers (.open i destination)).pop (!y) rest).act y
      (handleStream answers (.open i destination) () (s.prog y)).1
      ((handleStream answers (.open i destination) () (s.prog y)).2.map Prod.snd)).Inv := by
  obtain ⟨hpop, more, hopens, hi, hunlinked, hnew⟩ := h.pop_open hchan
  rw [handleStream, if_neg (not_not.mpr (h.online y)), record, hopens, Bool.not_not]
  dsimp only
  rw [hopens, tail_cons] at hpop
  set s₁ : Pair := { s.pop (!y) rest with opens := update s.opens (!y) more } with hs₁
  cases hservice : answers.service with
  | false =>
    have hdead : ¬ s₁.Alive y (s.prog y).next := fun hin =>
      Nat.lt_irrefl _ (h.range y _ hin)
    have hdrop := hpop.drop [] (nil_append (s₁.chan (!y))).symm
      (fun p hp => absurd hp not_mem_nil)
      (fun p (hp : p ∈ [.clse 0 i]) => ⟨0, i, mem_singleton.mp hp⟩) hdead
    rw [pop_self] at hdrop
    simp only [Bool.false_eq_true, not_false_iff, if_true, if_false, append_nil]
    exact hdrop
  | true =>
    set n := (s.prog y).next with hn
    set P := ready answers.writes n
      (install { Socket.new with peer := some (.remote i ()) } (s.prog y)) with hPdef
    have hinstalls : Installs (s₁.prog y) P :=
      ⟨fun a ha => (update_of_ne ha ..).trans (install_of_ne _ ha), rfl, rfl, rfl,
        rfl⟩
    have hfresh : i ∉ s₁.opens (!y) := by
      change i ∉ update s.opens (!y) more (!y)
      rwa [update_self]
    have hX : P.sock n = { Socket.new with peer := some (.remote i ()), reading := true } := by
      rw [hPdef, ready, update_sock_self, install_self]
      rfl
    have haccept := hpop.accept hinstalls (hroom hservice) hi hunlinked hfresh hX
    rw [u32_of_lt (hroom hservice)]
    exact haccept

/-- **A packet is delivered.** -/
theorem Inv.deliver (h : s.Inv) {answers : Program.Answers}
    (hroom : s.Room (.deliver x answers)) (hstep : s.deliver x answers = some s') : s'.Inv := by
  obtain ⟨y, rfl⟩ : ∃ y, x = !y := ⟨!x, (Bool.not_not x).symm⟩
  rw [Pair.deliver] at hstep
  split at hstep
  next => cases hstep
  next p rest hchan =>
    rw [Room, hchan] at hroom
    rw [Bool.not_not] at hstep hroom
    change some (((s.record (!y) answers p).pop (!y) rest).act y
      (handleStream answers p () (s.prog y)).1
      ((handleStream answers p () (s.prog y)).2.map Prod.snd)) = some s' at hstep
    rw [← Option.some.inj hstep]
    cases p with
    | «open» i destination =>
      exact h.open_received answers hchan fun hservice => hroom ⟨rfl, hservice⟩
    | okay i q =>
      rw [handleStream, if_neg (not_not.mpr (h.online y))]
      dsimp only
      rcases h.findLocalSocket y q with ⟨hq, hfind⟩ | ⟨hq, hfind⟩ <;> rw [hfind]
      · exact h.okay_received answers.writes hchan hq
      · exact h.drop [.okay i q] hchan (fun p hp => Or.inl ⟨i, mem_singleton.mp hp⟩)
          (fun p hp => absurd hp not_mem_nil) hq
    | clse i q =>
      rw [handleStream, if_neg (not_not.mpr (h.online y))]
      rcases h.findLocalSocket y q with ⟨hq, hfind⟩ | ⟨hq, hfind⟩ <;> rw [hfind]
      · obtain ⟨hcloses, hout⟩ := close_closes (h.nodup y) (h.closing y q) (h.peer_ne (Or.inl hq))
        exact h.closes [.clse i q] hchan
          (fun p hp => Or.inr (Or.inr ⟨i, q, mem_singleton.mp hp⟩)) hout hcloses (h.lt (Or.inl hq))
      · exact h.drop [.clse i q] hchan (fun p hp => Or.inr (Or.inr ⟨i, q, mem_singleton.mp hp⟩))
          (fun p hp => absurd hp not_mem_nil) hq
    | wrte i q data =>
      rw [handleStream, if_neg (not_not.mpr (h.online y))]
      dsimp only
      rcases h.findLocalSocket y q with ⟨hq, hfind⟩ | ⟨hq, hfind⟩ <;> rw [hfind]
      · exact h.wrte_received answers.writes hchan hq
      · exact h.drop [.wrte i q data] hchan
          (fun p hp => Or.inr (Or.inl ⟨i, data, mem_singleton.mp hp⟩))
          (fun p hp => absurd hp not_mem_nil) hq

end Steps

/-- **A step keeps the invariant**, if there is a number for the socket that it makes. -/
theorem Inv.step {s : Pair} (h : s.Inv) (e : Event) (hroom : s.Room e)
    (hstep : s.step e = some s') : s'.Inv := by
  cases e with
  | connect x notify destination =>
    cases hstep
    exact h.connect hroom notify destination
  | deliver x answers => exact h.deliver hroom hstep
  | file x a write read ws rs => exact h.file hstep

end Pair

end Adb
