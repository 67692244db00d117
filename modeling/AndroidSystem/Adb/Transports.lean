/-
Packets of one transport and the sockets of the others.

`handle_packet` finds the socket a packet is for by the identifier in the packet, in the
list of all sockets; it does not ask whether the socket is connected to the
transport the packet came from.

* `Untouched` — sockets with a peer on another transport stay as they are, and remote peers
  are made for sockets opened on this transport only.
* `Addressed` — the socket a packet names belongs to the transport, or nothing would
  change.
* `untouched_iff` — these are the same.
* `handlePackets_wf` — sockets and their peers stay consistent, whatever packets arrive.
-/
import AndroidSystem.Adb.Sockets

open CInt List Option Function

namespace Adb.Program

open Auth (Bytes)

variable {T : Type}

/-! ### What an operation does to other sockets -/

variable {s₂ s₁ : Program T} {c : ℕ} {s : Program T} {a : ℕ}

/-- A socket is as it was. -/
def Keeps (c : ℕ) (s s' : Program T) : Prop :=
  s'.sock c = s.sock c ∧ (c ∈ s.locals → c ∈ s'.locals)

theorem Keeps.refl (c : ℕ) (s : Program T) : Keeps c s s := ⟨rfl, id⟩

theorem Keeps.trans (h : Keeps c s s₁) (h' : Keeps c s₁ s₂) :
    Keeps c s s₂ := ⟨h'.1.trans h.1, fun hc => h'.2 (h.2 hc)⟩

/-- Sockets and peers are only given up. -/
def Drops (s s' : Program T) : Prop :=
  (∀ c ∈ s'.locals, c ∈ s.locals) ∧
    ∀ c, (s'.sock c).peer = (s.sock c).peer ∨ (s'.sock c).peer = none

theorem Drops.refl (s : Program T) : Drops s s := ⟨fun _ => id, fun _ => .inl rfl⟩

theorem Drops.trans (h : Drops s s₁) (h' : Drops s₁ s₂) : Drops s s₂ := by
  refine ⟨fun c hc => h.1 c (h'.1 c hc), fun c => ?_⟩
  rcases h'.2 c with hc | hc
  · rw [hc]
    exact h.2 c
  · exact .inr hc

theorem update_keeps (h : c ≠ a) (s : Program T) (f : Socket T → Socket T) :
    Keeps c s (s.update a f) := ⟨update_of_ne h _ _, id⟩

theorem update_sock (s : Program T) (a : ℕ) (f : Socket T → Socket T) :
    (s.update a f).sock a = f (s.sock a) := update_self _ _ _

theorem update_drops (s : Program T) (a : ℕ) {f : Socket T → Socket T}
    (hf : ∀ x : Socket T, (f x).peer = x.peer ∨ (f x).peer = none) : Drops s (s.update a f) := by
  refine ⟨fun _ => id, fun c => ?_⟩
  by_cases hc : c = a
  · rw [hc, update_sock]
    exact hf _
  · rw [(update_keeps hc s f).1]
    exact .inl rfl

theorem install_keeps (x : Socket T) (h : c ≠ s.next) :
    Keeps c s (install x s) := ⟨install_of_ne x h, fun hc => mem_append_left _ hc⟩

theorem closeOne_keeps (h : c ≠ a) (s : Program T) : Keeps c s (closeOne a s) := by
  rw [closeOne]
  split_ifs
  · exact ⟨update_of_ne h _ _, (mem_erase_of_ne h).mpr⟩
  · exact ⟨update_of_ne h _ _, (mem_erase_of_ne h).mpr⟩

theorem closeOne_locals (a : ℕ) (s : Program T) : (closeOne a s).locals = s.locals.erase a := by
  rw [closeOne]
  split_ifs <;> rfl

theorem closeOne_peer (a : ℕ) (s : Program T) : ((closeOne a s).sock a).peer = none := by
  rw [closeOne]
  split_ifs <;> dsimp only <;> rw [update_self]

theorem closeOne_drops (a : ℕ) (s : Program T) : Drops s (closeOne a s) := by
  refine ⟨fun c hc => ?_, fun c => ?_⟩
  · rw [closeOne_locals] at hc
    exact mem_of_mem_erase hc
  · by_cases hc : c = a
    · rw [hc]
      exact .inr (closeOne_peer a s)
    · exact .inl (congrArg Socket.peer (closeOne_keeps hc s).1)

theorem notifyClose_keeps (h : c ≠ a) (s : Program T) : Keeps c s (notifyClose a s) := by
  rw [notifyClose]
  split_ifs
  · exact update_keeps h s _
  · exact Keeps.refl c s

theorem notifyClose_locals (a : ℕ) (s : Program T) : (notifyClose a s).locals = s.locals := by
  rw [notifyClose]
  split_ifs <;> rfl

theorem notifyClose_peer (a c : ℕ) (s : Program T) :
    ((notifyClose a s).sock c).peer = (s.sock c).peer := by
  by_cases hc : c = a
  · rw [notifyClose]
    split_ifs
    · rw [hc, update_sock]
    · rfl
  · exact congrArg Socket.peer (notifyClose_keeps hc s).1

theorem notifyClose_drops (a : ℕ) (s : Program T) : Drops s (notifyClose a s) :=
  ⟨fun _ hc => notifyClose_locals a s ▸ hc, fun c => .inl (notifyClose_peer a c s)⟩

/-- What `close` does to the socket and to the local socket it is joined to. -/
theorem close_cases (a : ℕ) (s : Program T) :
    (close a s).1 = closeOne a (notifyClose a s) ∨
      ∃ b, (s.sock a).peer = some (.sock b) ∧
        (close a s).1 = closeOne a (closeOne b (notifyClose b (notifyClose a s))) := by
  rw [close, ← notifyClose_peer a a s]
  split
  · exact .inl rfl
  · exact .inl rfl
  · rename_i b hb
    exact .inr ⟨b, hb, rfl⟩
  · exact .inl rfl

theorem close_drops (a : ℕ) (s : Program T) : Drops s (close a s).1 := by
  have h := notifyClose_drops a s
  rcases close_cases a s with hc | ⟨b, -, hc⟩ <;> rw [hc]
  · exact h.trans (closeOne_drops a _)
  · exact ((h.trans (notifyClose_drops _ _)).trans (closeOne_drops _ _)).trans (closeOne_drops a _)

theorem close_keeps (h : c ≠ a) (hpeer : ∀ b, (s.sock a).peer = some (.sock b) → c ≠ b) :
    Keeps c s (close a s).1 := by
  have hn := notifyClose_keeps h s
  rcases close_cases a s with hc | ⟨b, hb, hc⟩ <;> rw [hc]
  · exact hn.trans (closeOne_keeps h _)
  · have hb' := hpeer b hb
    exact ((hn.trans (notifyClose_keeps hb' _)).trans (closeOne_keeps hb' _)).trans
      (closeOne_keeps h _)

theorem close_not_mem (hnodup : s.locals.Nodup) :
    a ∉ (close a s).1.locals := by
  have hn : (notifyClose a s).locals.Nodup := (notifyClose_locals a s).symm ▸ hnodup
  rcases close_cases a s with hc | ⟨b, -, hc⟩ <;> rw [hc, closeOne_locals]
  · exact hn.not_mem_erase
  · rw [closeOne_locals, notifyClose_locals]
    exact (hn.erase _).not_mem_erase

theorem ready_keeps (h : c ≠ a) (ws : List Write) (s : Program T) :
    Keeps c s (ready ws a s) := update_keeps h s _

variable (ws : List Write)

theorem ready_peer (a c : ℕ) (s : Program T) :
    ((ready ws a s).sock c).peer = (s.sock c).peer := by
  by_cases hc : c = a
  · rw [hc, ready, update_sock]
    split_ifs <;> rfl
  · exact congrArg Socket.peer (ready_keeps hc ws s).1

theorem enqueue_drops (data : Bytes) (a : ℕ) (s : Program T) :
    Drops s (enqueue ws data a s).1 := by
  have hcases := enqueue_cases ws data a s
  generalize enqueue ws data a s = r at hcases ⊢
  cases hcases with
  | joins _ => exact update_drops s a (by exact fun _ => .inl rfl)
  | fails _ done left _ =>
    exact (update_drops s a (by exact fun _ => .inl rfl)).trans (close_drops a _)
  | passes _ done _ => exact update_drops s a (by exact fun _ => .inl rfl)
  | waits _ done left _ _ =>
    exact (update_drops s a (by exact fun _ => .inl rfl)).trans
      (update_drops _ a (by exact fun _ => .inl rfl))

theorem enqueue_keeps (h : c ≠ a) (hpeer : ∀ b, (s.sock a).peer = some (.sock b) → c ≠ b)
    (ws : List Write) (data : Bytes) :
    Keeps c s (enqueue ws data a s).1 := by
  have hcases := enqueue_cases ws data a s
  generalize enqueue ws data a s = r at hcases ⊢
  cases hcases with
  | joins _ =>
    dsimp only
    exact update_keeps h s _
  | fails _ done left _ =>
    refine (update_keeps h s _).trans (close_keeps h fun b hb => hpeer b ?_)
    rwa [update_sock] at hb
  | passes _ done _ =>
    dsimp only
    exact update_keeps h s _
  | waits _ done left _ _ =>
    dsimp only
    exact (update_keeps h s _).trans (update_keeps h _ _)

/-! ### Well-formed programs -/

/-- Every socket is in the list once and has a number that was given out, and local peers
point at each other. -/
structure Wf (s : Program T) : Prop where
  nodup : s.locals.Nodup
  fresh : ∀ a ∈ s.locals, a < s.next
  paired : ∀ a ∈ s.locals, ∀ b, (s.sock a).peer = some (.sock b) →
    b ∈ s.locals ∧ (s.sock b).peer = some (.sock a)

/-- The socket is connected to another transport. -/
def Protected (t : T) (s : Program T) (c : ℕ) : Prop :=
  c ∈ s.locals ∧ ∃ id u, (s.sock c).peer = some (.remote id u) ∧ u ≠ t

theorem Wf.not_joined (hwf : Wf s) {t : T} (ha : a ∈ s.locals) (hc : Protected t s c) :
    ∀ b, (s.sock a).peer = some (.sock b) → c ≠ b := by
  rintro b hb rfl
  obtain ⟨-, id, u, hpeer, -⟩ := hc
  rw [(hwf.paired a ha c hb).2] at hpeer
  exact absurd (Option.some.inj hpeer) nofun

variable {s' : Program T}

theorem mem_of_find {id : ℕ} (h : findLocalSocket id s = some a) :
    a ∈ s.locals := mem_of_find?_eq_some h

theorem disconnect_drops (s : Program T) (a : ℕ) : Drops s (disconnect s a) :=
  ((update_drops s a (by exact fun _ => .inr rfl)).trans (notifyClose_drops a _)).trans
    (closeOne_drops a _)

theorem disconnect_keeps (h : c ≠ a) (s : Program T) : Keeps c s (disconnect s a) :=
  ((update_keeps h s _).trans (notifyClose_keeps h _)).trans (closeOne_keeps h _)

theorem disconnects (l : List ℕ) : ∀ s : Program T,
    Drops s (l.foldl disconnect s) ∧ ∀ c ∉ l, Keeps c s (l.foldl disconnect s) := by
  induction l with
  | nil => exact fun s => ⟨Drops.refl s, fun c _ => Keeps.refl c s⟩
  | cons a l ih =>
    intro s
    obtain ⟨hdrops, hkeeps⟩ := ih (disconnect s a)
    refine ⟨(disconnect_drops s a).trans hdrops, fun c hc => ?_⟩
    rw [mem_cons, not_or] at hc
    exact (disconnect_keeps hc.1 s).trans (hkeeps c hc.2)

/-- `ready` leaves a socket alone only if it is waiting for data already. -/
theorem ready_eq_iff (a : ℕ) (s : Program T) :
    (ready ws a s).sock a = s.sock a ↔
      (s.sock a).reading = true ∧ (s.sock a).notify = false := by
  rw [ready, update_sock]
  generalize s.sock a = x
  obtain ⟨_, _, notify, _, reading, _, _, _, _, _⟩ := x
  cases notify <;> cases reading <;> simp

/-- `enqueue` leaves a socket alone only if there is nothing to write. -/
theorem enqueue_keeps_iff (data : Bytes) (ha : a ∈ s.locals)
    (hnodup : s.locals.Nodup) :
    Keeps a s (enqueue ws data a s).1 ↔ data = [] ∧ (s.sock a).queue = [] := by
  constructor
  · intro h
    have hcases := enqueue_cases ws data a s
    generalize enqueue ws data a s = r at hcases h
    cases hcases with
    | joins hq =>
      have hqueue := congrArg Socket.queue h.1
      rw [update_sock] at hqueue
      exact absurd hqueue (by simp)
    | fails hq done left hw => exact absurd (h.2 ha) (close_not_mem hnodup)
    | passes hq done hw =>
      have hwritten := congrArg Socket.written h.1
      rw [update_sock, append_right_eq_self] at hwritten
      have happend := writeAll_append ws data
      rw [hw, hwritten] at happend
      exact ⟨happend.symm, hq⟩
    | waits hq done left hw hleft =>
      have hqueue := congrArg Socket.queue h.1
      rw [update_sock, hq] at hqueue
      exact absurd hqueue (cons_ne_nil _ _)
  · rintro ⟨rfl, hq⟩
    have hw : writeAll ws [] = ([], [], false) := by cases ws <;> rfl
    rw [enqueue, if_neg (not_not.mpr hq), hw]
    refine ⟨?_, fun h => h⟩
    simp only [Bool.false_eq_true, if_false, if_true, append_nil]
    rw [update_sock]

theorem Drops.peer (h : Drops s s') {x : Peer T} (hc : (s'.sock c).peer = some x) :
    (s.sock c).peer = some x := by
  rcases h.2 c with heq | hnone
  · rw [← heq, hc]
  · rw [hnone] at hc
    cases hc

/-- Giving up sockets keeps a program well-formed, unless a peer is left alone. -/
theorem Wf.of_drops (hwf : Wf s) (hdrops : Drops s s') (hlocals : s'.locals.Sublist s.locals)
    (hnext : s'.next = s.next)
    (hleft : ∀ a ∈ s'.locals, ∀ b, (s'.sock a).peer = some (.sock b) → Keeps b s s') :
    Wf s' where
  nodup := hwf.nodup.sublist hlocals
  fresh a ha := hnext ▸ hwf.fresh a (hlocals.mem ha)
  paired a ha b hb := by
    obtain ⟨hmem, hpeer⟩ := hwf.paired a (hlocals.mem ha) b (hdrops.peer hb)
    have hkeeps := hleft a ha b hb
    exact ⟨hkeeps.2 hmem, hkeeps.1 ▸ hpeer⟩

theorem closeOne_next (a : ℕ) (s : Program T) : (closeOne a s).next = s.next := by
  rw [closeOne]
  split_ifs <;> rfl

theorem notifyClose_next (a : ℕ) (s : Program T) : (notifyClose a s).next = s.next := by
  rw [notifyClose]
  split_ifs <;> rfl

theorem close_locals_sublist (a : ℕ) (s : Program T) :
    (close a s).1.locals.Sublist s.locals ∧ (close a s).1.next = s.next := by
  rcases close_cases a s with hc | ⟨b, -, hc⟩ <;>
  simp only [hc, closeOne_locals, notifyClose_locals, closeOne_next, notifyClose_next, and_true]
  · exact erase_sublist
  · exact erase_sublist.trans erase_sublist

theorem close_joined {b : ℕ} (h : (s.sock a).peer = some (.sock b)) :
    ((close a s).1.sock b).peer = none := by
  have hb : ((notifyClose a s).sock a).peer = some (.sock b) := (notifyClose_peer a a s).trans h
  rw [close]
  simp only [hb]
  exact ((closeOne_drops a _).2 b).elim (fun h => h.trans (closeOne_peer b _)) id

theorem close_wf (hwf : Wf s) (ha : a ∈ s.locals) : Wf (close a s).1 := by
  obtain ⟨hlocals, hnext⟩ := close_locals_sublist a s
  refine hwf.of_drops (close_drops a s) hlocals hnext fun c hc b hb => ?_
  obtain ⟨-, hc₀⟩ := hwf.paired c (hlocals.mem hc) b ((close_drops a s).peer hb)
  -- otherwise this socket would have been closed with its peer
  refine close_keeps ?_ fun b' hb' => ?_
  · rintro rfl
    rw [close_joined hc₀] at hb
    cases hb
  · rintro rfl
    rw [(hwf.paired a ha b hb').2] at hc₀
    obtain rfl := Peer.sock.inj (Option.some.inj hc₀)
    exact close_not_mem hwf.nodup hc

/-- Only the list, the numbers and the peers matter. -/
theorem Wf.of_same (hwf : Wf s) (hlocals : s'.locals = s.locals) (hnext : s'.next = s.next)
    (hpeer : ∀ c, (s'.sock c).peer = (s.sock c).peer) : Wf s' where
  nodup := hlocals ▸ hwf.nodup
  fresh := hlocals ▸ hnext ▸ hwf.fresh
  paired c hc b hb := by
    rw [hlocals] at hc ⊢
    rw [hpeer] at hb ⊢
    exact hwf.paired c hc b hb

theorem Wf.update (hwf : Wf s) (a : ℕ) {f : Socket T → Socket T} (hf : ∀ x, (f x).peer = x.peer) :
    Wf (s.update a f) := by
  refine hwf.of_same rfl rfl fun c => ?_
  by_cases hc : c = a
  · rw [hc, update_sock, hf]
  · rw [(update_keeps hc s f).1]

theorem ready_wf (a : ℕ) (hwf : Wf s) : Wf (ready ws a s) :=
  hwf.update a fun x => by split_ifs <;> rfl

theorem enqueue_wf (data : Bytes) (hwf : Wf s) (ha : a ∈ s.locals) :
    Wf (enqueue ws data a s).1 := by
  have hcases := enqueue_cases ws data a s
  generalize enqueue ws data a s = r at hcases ⊢
  cases hcases with
  | fails _ done left _ => exact close_wf (hwf.update a (by exact fun _ => rfl)) ha
  | joins | passes =>
    dsimp only
    exact hwf.update a (by exact fun _ => rfl)
  | waits _ done left _ _ =>
    dsimp only
    exact (hwf.update a (by exact fun _ => rfl)).update a (by exact fun _ => rfl)

theorem install_wf (hwf : Wf s) {x : Socket T} (hx : ∀ b, x.peer ≠ some (.sock b)) :
    Wf (install x s) where
  nodup := nodup_append.mpr ⟨hwf.nodup, nodup_singleton _, fun a ha b hb => by
    rw [mem_singleton.mp hb]
    exact (hwf.fresh a ha).ne⟩
  fresh := forall_mem_append.mpr ⟨fun a ha => Nat.lt_succ_of_lt (hwf.fresh a ha),
    forall_mem_singleton.mpr (Nat.lt_succ_self _)⟩
  paired a ha b hb := by
    rcases mem_append.mp ha with ha | ha
    · rw [install_of_ne _ (hwf.fresh a ha).ne] at hb
      obtain ⟨hmem, hb₀⟩ := hwf.paired a ha b hb
      refine ⟨mem_append_left _ hmem, ?_⟩
      rw [install_of_ne _ (hwf.fresh b hmem).ne, hb₀]
    · rw [mem_singleton.mp ha, install_self] at hb
      exact absurd hb (hx b)

theorem install_remote_wf (hwf : Wf s) (hnone : (s.sock a).peer = none) (id : ℕ) (t : T) :
    Wf (s.update a fun x => { x with peer := some (.remote id t) }) := by
  refine ⟨hwf.nodup, hwf.fresh, fun c hc b hb => ?_⟩
  by_cases hca : c = a
  · subst hca
    rw [update_sock] at hb
    cases hb
  · rw [(update_keeps hca s _).1] at hb
    obtain ⟨hmem, hb₀⟩ := hwf.paired c hc b hb
    have hba : b ≠ a := by
      rintro rfl
      rw [hnone] at hb₀
      cases hb₀
    rw [(update_keeps hba s _).1]
    exact ⟨hmem, hb₀⟩

section

variable [DecidableEq T]

/-- Sockets that are connected to other transports are as they were, and remote peers are made on
`t`, for sockets that were opened on it. -/
def Untouched (o : Answers) (p : Packet ⊕ Auth.Packet) (t : T) (s : Program T) : Prop :=
  (∀ c, Protected t s c → Keeps c s (handlePacket o p t s)) ∧
  ∀ c ∈ (handlePacket o p t s).locals, ∀ id u,
    ((handlePacket o p t s).sock c).peer = some (.remote id u) →
    (c ∈ s.locals ∧ (s.sock c).peer = some (.remote id u)) ∨
      u = t ∧ (c ∉ s.locals ∨ (s.sock c).transport = some t)

/-- The packet names a socket of the transport, or one for which it has no effect. -/
def Addressed (p : Packet ⊕ Auth.Packet) (t : T) (s : Program T) : Prop :=
  match p with
  | .inl (.okay _ arg1) => s.online t = true → ∀ a ∈ findLocalSocket arg1 s,
      ((s.sock a).peer = none → (s.sock a).transport = some t) ∧
      ∀ id u, (s.sock a).peer = some (.remote id u) →
        u = t ∨ (s.sock a).reading = true ∧ (s.sock a).notify = false
  | .inl (.clse _ arg1) => s.online t = true → ∀ a ∈ findLocalSocket arg1 s,
      ∀ id u, (s.sock a).peer = some (.remote id u) → u = t
  | .inl (.wrte _ arg1 data) => s.online t = true → ∀ a ∈ findLocalSocket arg1 s,
      ∀ id u, (s.sock a).peer = some (.remote id u) → u = t ∨ data = [] ∧ (s.sock a).queue = []
  | _ => True

variable {t : T} {o : Answers} {p : Packet ⊕ Auth.Packet}

theorem untouched_of_drops (hdrops : Drops s (handlePacket o p t s))
    (hkeeps : ∀ c, Protected t s c → Keeps c s (handlePacket o p t s)) : Untouched o p t s := by
  refine ⟨hkeeps, fun c hc id u hpeer => .inl ⟨hdrops.1 c hc, ?_⟩⟩
  rcases hdrops.2 c with h | h
  · rw [← h, hpeer]
  · rw [h] at hpeer
    exact absurd hpeer nofun

/-- A packet for nobody, or from a transport that is not online, does nothing. -/
theorem untouched_of_same (h : handlePacket o p t s = s) : Untouched o p t s :=
  untouched_of_drops (h.symm ▸ Drops.refl s) fun c _ => h.symm ▸ Keeps.refl c s

/-! ### Connections -/

theorem handleOffline_spec (t : T) (s : Program T) :
    Drops s (handleOffline t s) ∧ ∀ c, Protected t s c → Keeps c s (handleOffline t s) := by
  set s₁ : Program T := { s with online := Function.update s.online t false }
  obtain ⟨hdrops, hkeeps⟩ := disconnects (peersOf t s₁) s₁
  refine ⟨hdrops, fun c hc => hkeeps c fun hmem => ?_⟩
  -- the peers that are disconnected are those of the transport
  obtain ⟨-, id, u, hpeer, hu⟩ := hc
  have h := (mem_filter.mp hmem).2
  rw [show (s₁.sock c).peer = some (.remote id u) from hpeer] at h
  exact hu (of_decide_eq_true h)

theorem connection_untouched (o : Answers) (p : Auth.Packet) (t : T) (s : Program T) :
    Untouched o (.inr p) t s := by
  have hsame : ∀ s' : Program T, s'.sock = s.sock → s'.locals = s.locals →
      Drops s s' ∧ ∀ c, Protected t s c → Keeps c s s' := fun s' hsock hlocals =>
    ⟨⟨fun c hc => hlocals ▸ hc, fun c => .inl (by rw [hsock])⟩,
      fun c _ => ⟨by rw [hsock], fun hc => hlocals ▸ hc⟩⟩
  have hspec : Drops s (handleConnection p t s) ∧
      ∀ c, Protected t s c → Keeps c s (handleConnection p t s) := by
    obtain ⟨command, data⟩ := p
    cases command with
    | sync arg0 =>
      simp only [handleConnection]
      split_ifs
      · exact hsame s rfl rfl
      · exact handleOffline_spec t
          { s with connectionState := Function.update s.connectionState t .offline }
    | cnxn =>
      simp only [handleConnection]
      split_ifs
      · exact handleOffline_spec t s
      · exact hsame _ rfl rfl
    | auth arg0 =>
      simp only [handleConnection]
      split_ifs
      · exact hsame _ rfl rfl
      · exact hsame s rfl rfl
    | stream => exact hsame s rfl rfl
  exact untouched_of_drops hspec.1 hspec.2

/-! ### Streams -/

theorem open_untouched (o : Answers) (arg0 : ℕ) (destination : Bytes) (t : T) (hwf : Wf s) :
    Untouched o (.inl (.open arg0 destination)) t s := by
  have hnext : s.next ∉ s.locals := fun h => lt_irrefl _ (hwf.fresh _ h)
  by_cases hon : s.online t = true
  · by_cases hsv : o.service = true
    · set x : Socket T := { Socket.new with peer := some (.remote arg0 t) }
      have hres : handlePacket o (.inl (.open arg0 destination)) t s =
          ready o.writes s.next (install x s) := by
        simp only [handlePacket, handleStream, hon, hsv, not_true_eq_false, if_false]
        rfl
      have hkeeps : ∀ c, c ≠ s.next → Keeps c s (ready o.writes s.next (install x s)) :=
        fun c hc => (install_keeps x hc).trans (ready_keeps hc _ _)
      rw [Untouched, hres]
      refine ⟨fun c hc => hkeeps c fun h => hnext (h ▸ hc.1), fun c hc id u hpeer => ?_⟩
      rcases mem_append.mp (hc : c ∈ s.locals ++ [s.next]) with hc | hc
      · refine .inl ⟨hc, ?_⟩
        rw [← hpeer, (hkeeps c fun h => hnext (h ▸ hc)).1]
      · obtain rfl := mem_singleton.mp hc
        rw [ready_peer] at hpeer
        have hx : ((install x s).sock s.next).peer = some (.remote arg0 t) :=
          congrArg Socket.peer (install_self x s)
        rw [hx] at hpeer
        obtain ⟨-, rfl⟩ := Peer.remote.inj (Option.some.inj hpeer)
        exact .inr ⟨rfl, .inl hnext⟩
    · refine untouched_of_same ?_
      simp only [handlePacket, handleStream, hon, hsv, not_true_eq_false, Bool.false_eq_true,
        not_false_eq_true, if_false, if_true]
  · refine untouched_of_same ?_
    simp only [handlePacket, handleStream, hon, Bool.false_eq_true, not_false_eq_true, if_true]

/-- The identifier of the socket a packet is for. -/
def target : Packet → Option ℕ
  | .open _ _ => none
  | .okay _ arg1 | .clse _ arg1 | .wrte _ arg1 _ => some arg1

theorem idle_iff (o : Answers) {p : Packet} {arg1 : ℕ} (hp : target p = some arg1) (t : T)
    (h : s.online t = true → findLocalSocket arg1 s = none) :
    Untouched o (.inl p) t s ↔ Addressed (.inl p) t s := by
  have hsame : handlePacket o (.inl p) t s = s := by
    by_cases hon : s.online t = true
    · cases p <;> simp only [target, Option.some.injEq, reduceCtorEq] at hp <;> subst hp <;>
        simp only [handlePacket, handleStream, hon, not_true_eq_false, if_false, h hon]
    · simp only [handlePacket, handleStream, hon, Bool.false_eq_true, not_false_eq_true, if_true]
  refine iff_of_true (untouched_of_same hsame) ?_
  have hnone : s.online t = true → ∀ a, a ∈ findLocalSocket arg1 s → False := fun hon a ha => by
    rw [h hon] at ha
    cases ha
  cases p <;> simp only [target, Option.some.injEq, reduceCtorEq] at hp <;> subst hp <;>
    exact fun hon a ha => (hnone hon a ha).elim

/-- It is enough to look at packets for sockets that are there. -/
theorem iff_of_found (o : Answers) {p : Packet} {arg1 : ℕ} (hp : target p = some arg1) (t : T)
    (h : ∀ a, s.online t = true → findLocalSocket arg1 s = some a → a ∈ s.locals →
      (Untouched o (.inl p) t s ↔ Addressed (.inl p) t s)) :
    Untouched o (.inl p) t s ↔ Addressed (.inl p) t s := by
  by_cases hidle : s.online t = true → findLocalSocket arg1 s = none
  · exact idle_iff o hp t hidle
  · obtain ⟨hon, hfind⟩ := Classical.not_imp.mp hidle
    obtain ⟨a, hfind⟩ := ne_none_iff_exists'.mp hfind
    exact h a hon hfind (mem_of_find hfind)

/-- A packet for a socket of another transport must leave the socket as it is. -/
theorem iff_of_effect {p : Packet} {s' : Program T} {q : Prop}
    (hres : handlePacket o (.inl p) t s = s') (ha : a ∈ s.locals) (hdrops : Drops s s')
    (hself : Keeps a s s' ↔ q) (hother : ∀ c, c ≠ a → Protected t s c → Keeps c s s') :
    Untouched o (.inl p) t s ↔
      ∀ id u, (s.sock a).peer = some (.remote id u) → u = t ∨ q := by
  constructor
  · intro h id u hpeer
    by_contra hno
    rw [not_or] at hno
    exact hno.2 (hself.mp (hres ▸ h.1 a ⟨ha, id, u, hpeer, hno.1⟩))
  · intro h
    refine untouched_of_drops (hres.symm ▸ hdrops) fun c hc => hres.symm ▸ ?_
    by_cases hca : c = a
    · subst hca
      obtain ⟨-, id, u, hpeer, hu⟩ := hc
      exact hself.mpr ((h id u hpeer).resolve_left hu)
    · exact hother c hca hc

theorem okay_iff (o : Answers) (arg0 arg1 : ℕ) (t : T) :
    Untouched o (.inl (.okay arg0 arg1)) t s ↔ Addressed (.inl (.okay arg0 arg1)) t s := by
  refine iff_of_found o rfl t fun a hon hfind ha => ?_
  have hres : handlePacket o (.inl (.okay arg0 arg1)) t s = ready o.writes a
      (if (s.sock a).peer = none then
        s.update a fun x => { x with peer := some (.remote arg0 t) } else s) := by
    simp only [handlePacket, handleStream, hon, not_true_eq_false, if_false, hfind]
  simp only [Addressed, hon, forall_const, hfind, mem_def, Option.some.injEq, forall_eq']
  by_cases hpeer : (s.sock a).peer = none
  · -- a remote peer is made
    rw [Untouched, hres, if_pos hpeer]
    have hkeeps : ∀ c, c ≠ a → Keeps c s (ready o.writes a
        (s.update a fun x => { x with peer := some (.remote arg0 t) })) :=
      fun c hc => (update_keeps hc s _).trans (ready_keeps hc _ _)
    have hpeer' : ((ready o.writes a (s.update a fun x =>
        { x with peer := some (.remote arg0 t) })).sock a).peer = some (.remote arg0 t) := by
      rw [ready_peer, update_sock]
    constructor
    · rintro ⟨-, h⟩
      refine ⟨fun _ => ?_, fun id u hid => ?_⟩
      · rcases h a ha arg0 t hpeer' with ⟨-, h⟩ | ⟨-, h | h⟩
        · rw [hpeer] at h
          exact absurd h nofun
        · exact absurd ha h
        · exact h
      · rw [hpeer] at hid
        exact absurd hid nofun
    · rintro ⟨htransport, -⟩
      refine ⟨fun c hc => hkeeps c ?_, fun c hc id u hid => ?_⟩
      · rintro rfl
        obtain ⟨-, id, u, hid, -⟩ := hc
        rw [hpeer] at hid
        exact absurd hid nofun
      · by_cases hca : c = a
        · subst hca
          rw [hpeer'] at hid
          obtain ⟨-, rfl⟩ := Peer.remote.inj (Option.some.inj hid)
          exact .inr ⟨rfl, .inr (htransport hpeer)⟩
        · rw [(hkeeps c hca).1] at hid
          exact .inl ⟨hc, hid⟩
  · -- the socket is made ready
    rw [if_neg hpeer] at hres
    rw [and_iff_right fun h => absurd h hpeer]
    refine iff_of_effect hres ha ⟨fun c hc => hc, fun c => .inl (ready_peer ..)⟩ ?_
      fun c hca _ => ready_keeps hca _ _
    rw [Keeps, ready_eq_iff]
    exact and_iff_left fun h => h

theorem clse_iff (o : Answers) (arg0 arg1 : ℕ) (t : T) (hwf : Wf s) :
    Untouched o (.inl (.clse arg0 arg1)) t s ↔ Addressed (.inl (.clse arg0 arg1)) t s := by
  refine iff_of_found o rfl t fun a hon hfind ha => ?_
  have hres : handlePacket o (.inl (.clse arg0 arg1)) t s = (close a s).1 := by
    simp only [handlePacket, handleStream, hon, not_true_eq_false, if_false, hfind]
  have hclosed : ¬ Keeps a s (close a s).1 := fun h => close_not_mem hwf.nodup (h.2 ha)
  have hiff := iff_of_effect hres ha (close_drops a s) (iff_false_intro hclosed)
    fun c hca hc => close_keeps hca (hwf.not_joined ha hc)
  simpa only [Addressed, hon, forall_const, hfind, mem_def, Option.some.injEq, forall_eq',
    or_false] using hiff

theorem wrte_iff (o : Answers) (arg0 arg1 : ℕ) (data : Bytes) (t : T) (hwf : Wf s) :
    Untouched o (.inl (.wrte arg0 arg1 data)) t s ↔
      Addressed (.inl (.wrte arg0 arg1 data)) t s := by
  refine iff_of_found o rfl t fun a hon hfind ha => ?_
  have hres : handlePacket o (.inl (.wrte arg0 arg1 data)) t s =
      (enqueue o.writes data a s).1 := by
    simp only [handlePacket, handleStream, hon, not_true_eq_false, if_false, hfind]
  have hiff := iff_of_effect hres ha (enqueue_drops _ _ a s)
    (enqueue_keeps_iff o.writes data ha hwf.nodup)
    fun c hca hc => enqueue_keeps hca (hwf.not_joined ha hc) _ _
  simpa only [Addressed, hon, forall_const, hfind, mem_def, Option.some.injEq,
    forall_eq'] using hiff

/-- **A packet leaves the sockets of other transports alone** if and only if the socket it names
belongs to its own. -/
theorem untouched_iff (o : Answers) (p : Packet ⊕ Auth.Packet) (t : T) (s : Program T)
    (hwf : Wf s) : Untouched o p t s ↔ Addressed p t s := by
  rcases p with p | p
  · cases p with
    | «open» arg0 destination => exact iff_of_true (open_untouched o arg0 destination t hwf) trivial
    | okay arg0 arg1 => exact okay_iff o arg0 arg1 t
    | clse arg0 arg1 => exact clse_iff o arg0 arg1 t hwf
    | wrte arg0 arg1 data => exact wrte_iff o arg0 arg1 data t hwf
  · exact iff_of_true (connection_untouched o p t s) trivial

/-! ### Programs stay well-formed -/

theorem handleOffline_wf (t : T) (hwf : Wf s) : Wf (handleOffline t s) := by
  set s₁ : Program T := { s with online := Function.update s.online t false }
  obtain ⟨hdrops, hkeeps⟩ := disconnects (peersOf t s₁) s₁
  obtain ⟨hlocals, hnext⟩ : (handleOffline t s).locals.Sublist s₁.locals ∧
      (handleOffline t s).next = s₁.next := by
    refine foldlRecOn (motive := fun s' : Program T => s'.locals.Sublist s₁.locals ∧
      s'.next = s₁.next) (peersOf t s₁) disconnect ?_ fun s' h a _ => ?_
    · exact ⟨List.Sublist.refl _, rfl⟩
    · rw [disconnect, closeOne_locals, notifyClose_locals, closeOne_next, notifyClose_next]
      exact ⟨erase_sublist.trans h.1, h.2⟩
  have hwf₁ : Wf s₁ := hwf.of_same rfl rfl fun _ => rfl
  refine hwf₁.of_drops hdrops hlocals hnext fun c hc b hb => hkeeps b fun hmem => ?_
  -- only remote peers are disconnected
  have hpeer := (mem_filter.mp hmem).2
  rw [(hwf₁.paired c (hlocals.mem hc) b (hdrops.peer hb)).2] at hpeer
  exact Bool.false_ne_true hpeer

/-- **Packets keep a program well-formed.** -/
theorem handlePacket_wf (o : Answers) (p : Packet ⊕ Auth.Packet) (t : T) (hwf : Wf s) :
    Wf (handlePacket o p t s) := by
  rcases p with p | p
  · by_cases hon : s.online t = true
    · rw [handlePacket, handleStream.eq_def, if_neg (not_not.mpr hon)]
      cases p with
      | «open» arg0 destination =>
        dsimp only
        split_ifs
        · exact ready_wf _ _ (install_wf hwf fun b h => by cases h)
        · exact hwf
      | okay arg0 arg1 =>
        dsimp only
        split
        · exact hwf
        · split_ifs with hpeer
          · exact ready_wf _ _ (install_remote_wf hwf hpeer _ _)
          · exact ready_wf _ _ hwf
      | clse arg0 arg1 =>
        dsimp only
        split
        · exact hwf
        · rename_i a hfind
          exact close_wf hwf (mem_of_find hfind)
      | wrte arg0 arg1 data =>
        dsimp only
        split
        · exact hwf
        · rename_i a hfind
          exact enqueue_wf _ _ hwf (mem_of_find hfind)
    · simp only [handlePacket, handleStream, hon, Bool.false_eq_true, not_false_eq_true, if_true]
      exact hwf
  · obtain ⟨command, data⟩ := p
    cases command with
    | sync arg0 =>
      simp only [handlePacket, handleConnection]
      split_ifs
      · exact hwf
      · exact handleOffline_wf t (hwf.of_same rfl rfl fun _ => rfl)
    | cnxn =>
      simp only [handlePacket, handleConnection]
      split_ifs
      · exact (handleOffline_wf t hwf).of_same rfl rfl fun _ => rfl
      · exact hwf.of_same rfl rfl fun _ => rfl
    | auth arg0 =>
      simp only [handlePacket, handleConnection]
      split_ifs
      · exact hwf.of_same rfl rfl fun _ => rfl
      · exact hwf
    | stream => exact hwf

/-- Two transports, each with a stream. -/
def twoStreams : Program Bool where
  sock a := { Socket.new with peer := some (.remote 7 (a = 2)), reading := false }
  locals := [1, 2]
  closings := []
  next := 3
  online _ := true
  connectionState _ := .device

theorem twoStreams_wf : Wf twoStreams where
  nodup := by decide
  fresh := by decide
  paired a _ b h := absurd (Option.some.inj h) nofun

/-- A packet for the socket of its own transport. -/
theorem untouched_own : Wf twoStreams ∧
    Untouched ⟨true, []⟩ (.inl (.clse 7 1)) false twoStreams := by
  refine ⟨twoStreams_wf,
    (untouched_iff ⟨true, []⟩ (.inl (.clse 7 1)) false twoStreams twoStreams_wf).mpr ?_⟩
  intro _ a ha id u hu
  cases ha
  cases hu
  rfl

/-- A device closes the stream of another one. -/
theorem closes_foreign : Wf twoStreams ∧
    ¬ Untouched ⟨true, []⟩ (.inl (.clse 7 2)) false twoStreams := by
  refine ⟨twoStreams_wf, fun h => ?_⟩
  have hkept := (h.1 2 ⟨by decide, 7, true, rfl, by decide⟩).2 (by decide)
  exact absurd hkept (by decide)

/-- **Sockets and peers stay consistent** whatever packets arrive, on any transports and in any
order. -/
theorem handlePackets_wf (hwf : Wf s) (ps : List (Answers × (Packet ⊕ Auth.Packet) × T)) :
    Wf (ps.foldl (fun s p => handlePacket p.1 p.2.1 p.2.2 s) s) :=
  foldlRecOn ps _ hwf fun _ hwf p _ => handlePacket_wf p.1 p.2.1 p.2.2 hwf

/-- Two sockets that are joined, one of which is then closed. -/
theorem handlePackets_wf_joined :
    Wf ([(⟨true, []⟩, .inl (.clse 7 1), true)].foldl (fun s p => handlePacket p.1 p.2.1 p.2.2 s)
      { twoStreams with sock a := { Socket.new with peer := some (.sock (3 - a)) } }) := by
  refine handlePackets_wf ⟨by decide, by decide, ?_⟩ _
  rintro a ha _ ⟨⟩
  revert a
  decide

end

end Adb.Program
