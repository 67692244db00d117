/-
Who may talk to `adbd` (`adb/adb.c`, `adb/adb_auth_client.c`).

A host that connects is sent a random token.  It gets online with a signature of the token
by an installed key, or by presenting a public key that the user confirms: the key is handed to
the framework, which answers `OK` some time later.

* `Adbd` is what the functions share: the transports, and the static variables of
  `adb_auth_client.c`, of which `usb_transport` names the transport that the next `OK` is for.
* An event is a packet, an answer or a new connection of the framework, or the removal of a
  transport; random bytes and installed keys come with it.
* `Monitor` does not belong to the program: it watches what goes in and out and keeps, for
  each transport, whether the host has proved itself since it was last offline.

`online_iff` says that only hosts that have proved themselves are online, as long as each
`OK` comes while `usb_transport` is the transport whose key it confirms, and
signatures are not accepted for tokens that were not sent.
-/
import AndroidSystem.Runs

open Runs Function List

namespace Adb.Auth

/-! ### The program -/

/-- The states of a transport (`CS_*`). -/
inductive ConnectionState
  | offline | bootloader | device | host | recovery | noperm | sideload | unauthorized
  deriving DecidableEq, Repr

/-- Bytes of a packet or a key. -/
abbrev Bytes := List UInt8

/-- `TOKEN_SIZE` -/
def tokenSize : ℕ := 20

/-- The part of `atransport` that authentication uses. -/
structure Transport where
  online : Bool
  connectionState : ConnectionState
  token : Bytes
  failedAuthAttempts : ℕ
  deriving DecidableEq, Repr

/-- A transport as it is allocated. -/
def Transport.new : Transport := ⟨false, .offline, List.replicate tokenSize 0, 0⟩

/-- The transports, and the variables of `adb_auth_client.c`. -/
structure Adbd (T : Type) where
  transports : T → Transport
  usbTransport : Option T
  frameworkConnected : Bool
  needsRetry : Bool

/-- What the program does to others: packets it sends, keys it hands to the framework, and
transports that go offline or are freed. -/
inductive Output (T : Type)
  | token (t : T) (token : Bytes)
  | connect (t : T)
  | confirm (t : T) (key : Bytes)
  | offline (t : T)
  | removed (t : T)
  deriving DecidableEq, Repr

/-- The commands of packets.  Those of streams do not concern authentication. -/
inductive Command
  | sync (arg0 : ℕ)
  | cnxn
  | auth (arg0 : ℕ)
  | stream
  deriving DecidableEq, Repr

/-- The packets that set up a connection. -/
structure Packet where
  command : Command
  data : Bytes
  deriving DecidableEq, Repr

section Program

variable {T κ : Type} [DecidableEq T]

/-- A change of one transport. -/
def Adbd.update (s : Adbd T) (t : T) (f : Transport → Transport) : Adbd T :=
  { s with transports := Function.update s.transports t (f (s.transports t)) }

theorem Adbd.update_self (s : Adbd T) (t : T) (f : Transport → Transport) :
    (s.update t f).transports t = f (s.transports t) := Function.update_self _ _ _

theorem Adbd.update_of_ne {t u : T} (h : u ≠ t) (s : Adbd T) (f : Transport → Transport) :
    (s.update t f).transports u = s.transports u := Function.update_of_ne h _ _

theorem Adbd.update_online (s : Adbd T) (t : T) {f : Transport → Transport}
    (hf : ∀ a, (f a).online = a.online) (u : T) :
    ((s.update t f).transports u).online = (s.transports u).online := by
  by_cases h : u = t
  · rw [h, s.update_self, hf]
  · rw [Adbd.update_of_ne h]

/-- `run_transport_disconnects`, which calls `usb_disconnected` for the transport that waits. -/
def runTransportDisconnects (t : T) (s : Adbd T) : Adbd T :=
  if s.usbTransport = some t then { s with usbTransport := none, needsRetry := false } else s

/-- `handle_offline` -/
def handleOffline (t : T) (s : Adbd T) : Adbd T × List (Output T) :=
  (runTransportDisconnects t (s.update t fun a => { a with online := false }), [.offline t])

/-- `handle_online` -/
def handleOnline (t : T) (s : Adbd T) : Adbd T := s.update t fun a => { a with online := true }

/-- `send_auth_request`, with the bytes that could be read from `/dev/urandom`. -/
def sendAuthRequest (random : Bytes) (t : T) (s : Adbd T) : Adbd T × List (Output T) :=
  let token := random.take tokenSize ++ (s.transports t).token.drop random.length
  let s := s.update t fun a => { a with token := token }
  if random.length < tokenSize then (s, []) else (s, [.token t token])

/-- `adb_auth_verified`: the host is let in. -/
def adbAuthVerified (t : T) (s : Adbd T) : Adbd T × List (Output T) :=
  (handleOnline t s, [.connect t])

/-- `adb_auth_verify`, with the keys that are installed and `RSA_verify`. -/
def adbAuthVerify (rsaVerify : κ → Bytes → Bytes → Bool) (keys : List κ) (token sig : Bytes) :
    Bool :=
  sig.length = 256 && keys.any fun key => rsaVerify key sig token

/-- The string up to its terminator. -/
def cString (data : Bytes) : Bytes := data.takeWhile (· ≠ 0)

/-- `adb_auth_confirm_key`; `written` says whether the framework could be written to. -/
def adbAuthConfirmKey (written : Bool) (key : Bytes) (t : T) (s : Adbd T) :
    Adbd T × List (Output T) :=
  let s := if s.usbTransport = none then { s with usbTransport := some t } else s
  if ¬ s.frameworkConnected then ({ s with needsRetry := true }, [])
  else if key.getLast? ≠ some 0 then (s, [])
  else if 4096 ≤ 2 + (cString key).length then (s, [])
  else if ¬ written then (s, [])
  else (s, [.confirm t (cString key)])

/-- The characters of a string as bytes. -/
def bytes (s : String) : Bytes := s.toList.map fun c => UInt8.ofNat c.toNat

/-- The state that `parse_banner` takes from the system type. -/
def parseBanner (data : Bytes) : ConnectionState :=
  let type := (cString data).takeWhile (· ≠ 58)
  if type = bytes "bootloader" then .bootloader
  else if type = bytes "device" then .device
  else if type = bytes "recovery" then .recovery
  else if type = bytes "sideload" then .sideload
  else .host

/-- What a packet finds outside. -/
structure World (κ : Type) where
  random : Bytes
  keys : List κ
  written : Bool

/-- `handle_packet`, on a device. -/
def handlePacket (authEnabled : Bool) (rsaVerify : κ → Bytes → Bytes → Bool) (w : World κ)
    (p : Packet) (t : T) (s : Adbd T) : Adbd T × List (Output T) :=
  match p.command with
  | .sync arg0 =>
    if arg0 ≠ 0 then (s, [])
    else handleOffline t (s.update t fun a => { a with connectionState := .offline })
  | .cnxn =>
    let (s, out) := if (s.transports t).connectionState ≠ .offline then
        handleOffline t (s.update t fun a => { a with connectionState := .offline })
      else (s, [])
    let s := s.update t fun a => { a with connectionState := parseBanner p.data }
    if ¬ authEnabled then (handleOnline t s, out ++ [.connect t])
    else
      let (s, out') := sendAuthRequest w.random t s
      (s, out ++ out')
  | .auth arg0 =>
    -- a device has no keys to sign with, and none to present
    if arg0 = 1 then (s.update t fun a => { a with connectionState := .unauthorized }, [])
    else if arg0 = 2 then
      if adbAuthVerify rsaVerify w.keys (s.transports t).token p.data then
        let (s, out) := adbAuthVerified t s
        (s.update t fun a => { a with failedAuthAttempts := 0 }, out)
      else
        sendAuthRequest w.random t
          (s.update t fun a => { a with failedAuthAttempts := a.failedAuthAttempts + 1 })
    else if arg0 = 3 then adbAuthConfirmKey w.written p.data t s
    else (s, [])
  | .stream => (s, [])

/-- What `adb_auth_event` reads from the framework. -/
inductive Reply
  | failed
  | response (data : Bytes)
  deriving DecidableEq, Repr

/-- `adb_auth_event`: the answer of the user comes in, or the connection ends. -/
def adbAuthEvent (reply : Reply) (s : Adbd T) : Adbd T × List (Output T) :=
  match reply with
  | .failed => ({ s with frameworkConnected := false }, [])
  | .response data =>
    if data = bytes "OK" then
      match s.usbTransport with
      | none => (s, [])
      | some t => adbAuthVerified t s
    else (s, [])

/-- `adb_auth_listener`, once a connection of the framework is accepted. -/
def adbAuthListener (random : Bytes) (s : Adbd T) : Adbd T × List (Output T) :=
  let s := { s with frameworkConnected := true }
  if s.needsRetry then
    let s := { s with needsRetry := false }
    match s.usbTransport with
    | none => (s, [])
    | some t => sendAuthRequest random t s
  else (s, [])

/-- The end of a transport, in `transport_registration_func`. -/
def removeTransport (t : T) (s : Adbd T) : Adbd T × List (Output T) :=
  (runTransportDisconnects t (s.update t fun _ => Transport.new), [.removed t])

/-- What can happen.  An answer of the framework says whose key it is about. -/
inductive Event (T κ : Type)
  | packet (t : T) (p : Packet) (w : World κ)
  | reply (r : Reply) (subject : Option T)
  | accept (random : Bytes)
  | remove (t : T)

/-- What the daemon does on one event. -/
def exec (authEnabled : Bool) (rsaVerify : κ → Bytes → Bytes → Bool) (s : Adbd T) :
    Event T κ → Adbd T × List (Output T)
  | .packet t p w => handlePacket authEnabled rsaVerify w p t s
  | .reply r _ => adbAuthEvent r s
  | .accept random => adbAuthListener random s
  | .remove t => removeTransport t s

end Program

/-! ### The monitor -/

/-- What is known of each transport: the token most recently sent on it, whether a key it presented
was handed to the framework, and whether its host has proved itself since it went offline. -/
structure Monitor (T : Type) where
  lastSent : T → Option Bytes
  presented : T → Bool
  proved : T → Bool

namespace Monitor

variable {T κ : Type} [DecidableEq T]

/-- A signature of the token that was sent, or an `OK` for a key that was presented. -/
def input (rsaVerify : κ → Bytes → Bytes → Bool) (m : Monitor T) : Event T κ → Monitor T
  | .packet t ⟨.auth 2, sig⟩ w =>
    if (m.lastSent t).any (adbAuthVerify rsaVerify w.keys · sig) then
      { m with proved := Function.update m.proved t true } else m
  | .reply (.response data) (some t) =>
    if data = bytes "OK" ∧ m.presented t = true then
      { m with proved := Function.update m.proved t true } else m
  | _ => m

/-- What the monitor notes of an output. -/
def output (m : Monitor T) : Output T → Monitor T
  | .token t token => { m with lastSent := Function.update m.lastSent t (some token) }
  | .connect _ => m
  | .confirm t _ => { m with presented := Function.update m.presented t true }
  | .offline t => { m with proved := Function.update m.proved t false }
  | .removed t =>
    { lastSent := Function.update m.lastSent t none
      presented := Function.update m.presented t false
      proved := Function.update m.proved t false }

end Monitor

section Quiet

variable {T : Type}

/-- Nobody gets online, and who stays online does not go offline in between. -/
def Quiet (s : Adbd T) (r : Adbd T × List (Output T)) : Prop :=
  ∀ t, (r.1.transports t).online = true →
    (s.transports t).online = true ∧ ∀ o ∈ r.2, o ≠ .offline t ∧ o ≠ .removed t

variable {t : T} {s s' s'' : Adbd T} {outs outs' : List (Output T)}

/-- A step that changes nothing about who is online is quiet. -/
theorem quiet_of_same (hsame : ∀ u, (s'.transports u).online = (s.transports u).online)
    (hout : ∀ o ∈ outs, ∀ u, o ≠ .offline u ∧ o ≠ .removed u) : Quiet s (s', outs) :=
  fun u hu => ⟨hsame u ▸ hu, fun o ho => hout o ho u⟩

theorem quiet_self (s : Adbd T) : Quiet s (s, []) :=
  quiet_of_same (fun _ => rfl) fun _ ho => absurd ho not_mem_nil

/-- A step that puts one transport offline is quiet. -/
theorem quiet_of_offline (ht : (s'.transports t).online = false)
    (hothers : ∀ u, u ≠ t → (s'.transports u).online = (s.transports u).online)
    (hout : ∀ o ∈ outs, ∀ u, u ≠ t → o ≠ .offline u ∧ o ≠ .removed u) : Quiet s (s', outs) := by
  intro u hu
  have hut : u ≠ t := by
    rintro rfl
    rw [ht] at hu
    exact Bool.false_ne_true hu
  exact ⟨hothers u hut ▸ hu, fun o ho => hout o ho u hut⟩

theorem Quiet.trans (h : Quiet s (s', outs)) (h' : Quiet s' (s'', outs')) :
    Quiet s (s'', outs ++ outs') := by
  intro t ht
  obtain ⟨h₁, hout'⟩ := h' t ht
  obtain ⟨h₀, hout⟩ := h t h₁
  refine ⟨h₀, fun o ho => ?_⟩
  rcases mem_append.mp ho with ho | ho
  · exact hout o ho
  · exact hout' o ho

/-- Only who is online matters to a quiet step. -/
theorem Quiet.of_online {r : Adbd T × List (Output T)}
    (h : ∀ u, (s'.transports u).online = (s.transports u).online) (hq : Quiet s' r) : Quiet s r :=
  fun u hu => ⟨h u ▸ (hq u hu).1, (hq u hu).2⟩

theorem adbAuthConfirmKey_quiet (written : Bool) (key : Bytes) (t : T) (s : Adbd T) :
    Quiet s (adbAuthConfirmKey written key t s) := by
  unfold adbAuthConfirmKey
  dsimp only
  split_ifs
  all_goals
    refine quiet_of_same (fun _ => rfl) fun o ho u => ?_
    simp only [not_mem_nil, mem_singleton] at ho
  all_goals
    rw [ho]
    exact ⟨nofun, nofun⟩

end Quiet

section Runs

variable {T κ : Type} [DecidableEq T] (rsaVerify : κ → Bytes → Bytes → Bool)

/-- The program and what is known about it. -/
structure Watched (T : Type) where
  adbd : Adbd T
  monitor : Monitor T

/-- `adbd` with authentication, when it starts. -/
def start : Watched T where
  adbd := ⟨fun _ => Transport.new, none, false, false⟩
  monitor := ⟨fun _ => none, fun _ => false, fun _ => false⟩

/-- One event, with authentication enabled. -/
def step (s : Watched T) (e : Event T κ) : Option (Watched T) :=
  let r := exec true rsaVerify s.adbd e
  some ⟨r.1, r.2.foldl Monitor.output (s.monitor.input rsaVerify e)⟩

/-- Whoever is online has proved itself since it went offline. -/
def Authorised (s : Watched T) : Prop :=
  ∀ t, (s.adbd.transports t).online = true → s.monitor.proved t = true

/-- A signature is accepted only for a token that was sent, and an `OK` only for the transport
whose key it is about; or the host has proved itself already. -/
def Matched (s : Watched T) : Event T κ → Prop
  | .packet t ⟨.auth 2, sig⟩ w =>
    adbAuthVerify rsaVerify w.keys (s.adbd.transports t).token sig = true →
      s.monitor.proved t = true ∨
      (s.monitor.lastSent t).any (adbAuthVerify rsaVerify w.keys · sig) = true
  | .reply (.response data) subject =>
    data = bytes "OK" → ∀ t ∈ s.adbd.usbTransport,
      s.monitor.proved t = true ∨ subject = some t ∧ s.monitor.presented t = true
  | _ => True

variable {rsaVerify} {t : T}

theorem input_proved (m : Monitor T) (e : Event T κ) (h : m.proved t = true) :
    (m.input rsaVerify e).proved t = true := by
  have hup : ∀ u, update m.proved u true t = true := fun u => by
    by_cases hu : t = u
    · rw [hu, update_self]
    · rw [update_of_ne hu, h]
  unfold Monitor.input
  split
  · split_ifs
    · exact hup _
    · exact h
  · split_ifs
    · exact hup _
    · exact h
  · exact h

variable {outs : List (Output T)}

theorem output_proved (h : ∀ o ∈ outs, o ≠ .offline t ∧ o ≠ .removed t) :
    ∀ m : Monitor T, (outs.foldl Monitor.output m).proved t = m.proved t := by
  induction outs with
  | nil => exact fun _ => rfl
  | cons o outs ih =>
    intro m
    rw [foldl_cons, ih fun o' ho' => h o' (mem_cons_of_mem _ ho')]
    obtain ⟨hoff, hrem⟩ := h o mem_cons_self
    cases o with
    | offline u => exact update_of_ne (fun htu : t = u => hoff (htu ▸ rfl)) _ _
    | removed u => exact update_of_ne (fun htu : t = u => hrem (htu ▸ rfl)) _ _
    | _ => rfl

variable {s : Watched T} {e : Event T κ}

theorem authorised_of_quiet (hs : Authorised s)
    (hq : Quiet s.adbd (exec true rsaVerify s.adbd e)) :
    ∀ s' ∈ step rsaVerify s e, Authorised s' := by
  intro s' hs' t ht
  obtain rfl := Option.some.inj hs'
  obtain ⟨honline, hout⟩ := hq t ht
  exact (output_proved hout _).trans (input_proved _ _ (hs t honline))

/-- A transport is verified: the step is right if and only if its host has proved itself. -/
theorem authorised_of_verified (hs : Authorised s)
    (honline : ∀ u, ((exec true rsaVerify s.adbd e).1.transports u).online = true ↔
      u = t ∨ (s.adbd.transports u).online = true)
    (hout : (exec true rsaVerify s.adbd e).2 = [.connect t]) :
    (∀ s' ∈ step rsaVerify s e, Authorised s') ↔
      (s.monitor.input rsaVerify e).proved t = true := by
  have hstep : step rsaVerify s e =
      some ⟨(exec true rsaVerify s.adbd e).1, s.monitor.input rsaVerify e⟩ := by
    rw [step, hout]
    rfl
  rw [hstep]
  constructor
  · exact fun h => h _ rfl t ((honline t).mpr (.inl rfl))
  · intro hp s' hs' u hu
    obtain rfl := Option.some.inj hs'
    rcases (honline u).mp hu with rfl | hold
    · exact hp
    · exact input_proved _ _ (hs u hold)

/-! ### Quiet steps -/

theorem runTransportDisconnects_transports (t : T) (s : Adbd T) :
    (runTransportDisconnects t s).transports = s.transports := by
  rw [runTransportDisconnects]
  split_ifs <;> rfl

theorem sendAuthRequest_online (random : Bytes) (t u : T) (s : Adbd T) :
    ((sendAuthRequest random t s).1.transports u).online = (s.transports u).online := by
  have h : (sendAuthRequest random t s).1 = s.update t fun a =>
      { a with token := random.take tokenSize ++ (s.transports t).token.drop random.length } := by
    rw [sendAuthRequest]
    split_ifs <;> rfl
  rw [h]
  exact s.update_online t (by exact fun _ => rfl) u

theorem sendAuthRequest_out (random : Bytes) (t : T) (s : Adbd T) :
    ∀ o ∈ (sendAuthRequest random t s).2, ∀ u, o ≠ .offline u ∧ o ≠ .removed u := by
  intro o ho u
  rw [sendAuthRequest] at ho
  split_ifs at ho
  · exact absurd ho not_mem_nil
  · rw [mem_singleton.mp ho]
    exact ⟨nofun, nofun⟩

theorem sendAuthRequest_quiet (random : Bytes) (t : T) (s : Adbd T) :
    Quiet s (sendAuthRequest random t s) :=
  quiet_of_same (fun u => sendAuthRequest_online random t u s) (sendAuthRequest_out random t s)

theorem handleOffline_quiet (t : T) (s : Adbd T) : Quiet s (handleOffline t s) := by
  refine quiet_of_offline (t := t) ?_ (fun u hu => ?_) fun o ho u hu => ?_
  · rw [runTransportDisconnects_transports, Adbd.update_self]
  · rw [runTransportDisconnects_transports, Adbd.update_of_ne hu]
  · rw [mem_singleton.mp ho]
    exact ⟨fun h => hu (Output.offline.inj h).symm, nofun⟩

theorem removeTransport_quiet (t : T) (s : Adbd T) : Quiet s (removeTransport t s) := by
  refine quiet_of_offline (t := t) ?_ (fun u hu => ?_) fun o ho u hu => ?_
  · rw [runTransportDisconnects_transports, Adbd.update_self]
    rfl
  · rw [runTransportDisconnects_transports, Adbd.update_of_ne hu]
  · rw [mem_singleton.mp ho]
    exact ⟨nofun, fun h => hu (Output.removed.inj h).symm⟩

theorem cnxn_quiet (w : World κ) (data : Bytes) (t : T) (s : Adbd T) :
    Quiet s (handlePacket true rsaVerify w ⟨.cnxn, data⟩ t s) := by
  have hstart : Quiet s (if (s.transports t).connectionState ≠ .offline then
      handleOffline t (s.update t fun a => { a with connectionState := .offline })
      else (s, [])) := by
    split_ifs
    · exact Quiet.of_online (s.update_online t (by exact fun _ => rfl)) (handleOffline_quiet t _)
    · exact quiet_self s
  exact hstart.trans (Quiet.of_online (Adbd.update_online _ t (by exact fun _ => rfl))
    (sendAuthRequest_quiet w.random t _))

/-! ### Runs -/

theorem packet_quiet (w : World κ) (p : Packet) (t : T) (s : Adbd T) (hp : p.command ≠ .auth 2) :
    Quiet s (handlePacket true rsaVerify w p t s) := by
  obtain ⟨command, data⟩ := p
  cases command with
  | sync arg0 =>
    simp only [handlePacket]
    split_ifs
    · exact quiet_self s
    · exact Quiet.of_online (s.update_online t (by exact fun _ => rfl)) (handleOffline_quiet t _)
  | cnxn => exact cnxn_quiet w data t s
  | auth arg0 =>
    have h₂ : arg0 ≠ 2 := fun h => hp (h ▸ rfl)
    simp only [handlePacket, if_neg h₂]
    split_ifs
    · exact Quiet.of_online (s.update_online t (by exact fun _ => rfl)) (quiet_self _)
    · exact adbAuthConfirmKey_quiet w.written data t s
    · exact quiet_self s
  | stream => exact quiet_self s

/-- A step that does not verify anyone keeps to the rule, and to the condition. -/
theorem iff_of_quiet (hs : Authorised s) (hq : Quiet s.adbd (exec true rsaVerify s.adbd e))
    (hm : Matched rsaVerify s e) :
    (∀ s' ∈ step rsaVerify s e, Authorised s') ↔ Matched rsaVerify s e :=
  iff_of_true (authorised_of_quiet hs hq) hm

theorem handleOnline_online (t u : T) (s : Adbd T) :
    ((handleOnline t s).transports u).online = true ↔
      u = t ∨ (s.transports u).online = true := by
  by_cases hu : u = t
  · rw [hu, handleOnline, Adbd.update_self]
    exact iff_of_true rfl (.inl rfl)
  · rw [handleOnline, Adbd.update_of_ne hu]
    exact (or_iff_right hu).symm

theorem signature_iff (hs : Authorised s) (t : T) (sig : Bytes) (w : World κ) :
    (∀ s' ∈ step rsaVerify s (.packet t ⟨.auth 2, sig⟩ w), Authorised s') ↔
      Matched rsaVerify s (.packet t ⟨.auth 2, sig⟩ w) := by
  by_cases hv : adbAuthVerify rsaVerify w.keys (s.adbd.transports t).token sig = true
  · rw [authorised_of_verified (t := t) hs]
    · simp only [Monitor.input, Matched, hv, forall_const]
      split_ifs with h
      · exact iff_of_true (update_self _ _ _) (.inr h)
      · simp only [h, or_false, Bool.false_eq_true]
    · intro u
      simp only [exec, handlePacket, hv, if_true, adbAuthVerified, OfNat.ofNat_ne_one, if_false]
      rw [Adbd.update_online _ t (by exact fun _ => rfl), handleOnline_online]
    · simp only [exec, handlePacket, hv, if_true, adbAuthVerified, OfNat.ofNat_ne_one, if_false]
  · refine iff_of_quiet hs ?_ fun h => absurd h hv
    simp only [exec, handlePacket, hv, OfNat.ofNat_ne_one, if_false, if_true]
    exact Quiet.of_online (s.adbd.update_online t (by exact fun _ => rfl))
      (sendAuthRequest_quiet w.random t _)

/-- Whom an `OK` lets prove itself. -/
theorem ok_proved {data : Bytes} (hok : data = bytes "OK") (m : Monitor T) (subject : Option T)
    (t : T) : (m.input rsaVerify (.reply (.response data) subject)).proved t = true ↔
      m.proved t = true ∨ subject = some t ∧ m.presented t = true := by
  cases subject with
  | none => simp only [Monitor.input, reduceCtorEq, false_and, or_false]
  | some u =>
    simp only [Monitor.input, hok, true_and, Option.some.injEq]
    by_cases hu : t = u
    · subst hu
      split_ifs with h
      · exact iff_of_true (update_self _ _ _) (.inr ⟨rfl, h⟩)
      · simp only [h, and_false, or_false, Bool.false_eq_true]
    · have hne : ¬ u = t := fun h => hu h.symm
      simp only [hne, false_and, or_false]
      split_ifs
      · exact iff_of_eq (congrArg (· = true) (update_of_ne hu _ _))
      · exact Iff.rfl

theorem reply_iff (hs : Authorised s) (r : Reply) (subject : Option T) :
    (∀ s' ∈ step rsaVerify s (.reply r subject), Authorised s') ↔
      Matched rsaVerify s (.reply r subject) := by
  cases r with
  | failed =>
    refine iff_of_quiet hs ?_ trivial
    exact quiet_of_same (fun _ => rfl) fun _ ho => absurd ho not_mem_nil
  | response data =>
    by_cases hok : data = bytes "OK"
    · cases husb : s.adbd.usbTransport with
      | none =>
        refine iff_of_quiet hs ?_ ?_
        · simp only [exec, adbAuthEvent, if_pos hok, husb]
          exact quiet_self _
        · intro _ t ht
          rw [husb] at ht
          cases ht
      | some t =>
        rw [authorised_of_verified (t := t) hs]
        · rw [ok_proved hok, Matched, husb]
          simp only [hok, forall_const, Option.mem_def, Option.some.injEq, forall_eq']
        · intro u
          simp only [exec, adbAuthEvent, if_pos hok, husb, adbAuthVerified]
          exact handleOnline_online t u s.adbd
        · simp only [exec, adbAuthEvent, if_pos hok, husb, adbAuthVerified]
    · refine iff_of_quiet hs ?_ fun h => absurd h hok
      simp only [exec, adbAuthEvent, if_neg hok]
      exact quiet_self _

/-- **Only hosts that have proved themselves are online** if and only if no `OK` comes for
another transport than the one that waits, and no signature is accepted of a token that was not
sent. -/
theorem online_iff (rsaVerify : κ → Bytes → Bytes → Bool) (es : List (Event T κ)) :
    Along (step rsaVerify) (fun s e => ∀ s' ∈ step rsaVerify s e, Authorised s') start es ↔
      Along (step rsaVerify) (Matched rsaVerify) start es := by
  refine along_keeps_iff (fun {s e} hs => ?_) (fun t ht => absurd ht Bool.false_ne_true) es
  cases e with
  | packet t p w =>
    by_cases hp : p.command = .auth 2
    · obtain ⟨command, sig⟩ := p
      obtain rfl : command = .auth 2 := hp
      exact signature_iff hs t sig w
    · refine iff_of_quiet hs (packet_quiet w p t s.adbd hp) ?_
      rw [Matched.eq_3]
      · trivial
      · rintro u sig w' h
        obtain ⟨-, rfl, -⟩ := Event.packet.inj h
        exact hp rfl
      · exact fun _ _ => nofun
  | reply r subject => exact reply_iff hs r subject
  | accept random =>
    refine iff_of_quiet hs ?_ trivial
    simp only [exec, adbAuthListener]
    split_ifs
    · split
      · exact quiet_of_same (fun _ => rfl) fun _ ho => absurd ho not_mem_nil
      · exact sendAuthRequest_quiet random _ _
    · exact quiet_of_same (fun _ => rfl) fun _ ho => absurd ho not_mem_nil
  | remove t => exact iff_of_quiet hs (removeTransport_quiet t s.adbd) trivial

/-- Two hosts connect and present their keys; the user confirms the key of the second. -/
def twoHosts : List (Event Bool Unit) :=
  let w : World Unit := ⟨List.replicate 20 7, [], true⟩
  [.accept [], .packet false ⟨.cnxn, bytes "host::"⟩ w, .packet false ⟨.auth 3, [65, 0]⟩ w,
    .packet true ⟨.cnxn, bytes "host::"⟩ w, .packet true ⟨.auth 3, [66, 0]⟩ w,
    .reply (.response (bytes "OK")) (some true)]

/-- The first host gets online by the confirmation of the second one's key. -/
theorem first_host_online :
    ¬ Along (step fun _ _ _ => false)
      (fun s e => ∀ s' ∈ step (fun _ _ _ => false) s e, Authorised s') start twoHosts := by
  rintro ⟨-, h₁⟩
  obtain ⟨-, h₂⟩ := h₁ _ rfl
  obtain ⟨-, h₃⟩ := h₂ _ rfl
  obtain ⟨-, h₄⟩ := h₃ _ rfl
  obtain ⟨-, h₅⟩ := h₄ _ rfl
  obtain ⟨h₆, -⟩ := h₅ _ rfl
  have hproved := h₆ _ rfl false (by decide)
  exact absurd hproved (by decide)

end Runs

end Adb.Auth
