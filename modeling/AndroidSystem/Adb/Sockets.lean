/-
The sockets of `adb` (`adb/sockets.c`, and the stream commands of `handle_packet` in
`adb/adb.c`), as they are compiled for the host.

A stream joins two local sockets, one in each program.  Each has a remote socket as its peer, which
stands for the other end and sends packets on a transport.

* Sockets are numbered in the order in which they are made; the identifier of a socket is the
  counter `local_socket_next_id`, which is its number in 32 bits.
* `locals` is `local_socket_list`, `closings` is `local_socket_closing_list`; a socket in neither
  is freed.  A remote socket has no life of its own and is a value of the field `peer`.
* What the operating system answers to reads and writes are arguments.  `written` is what
  a socket has written to its file as the end of a stream and `taken` what it has read;
  status messages go to `status`.

On a device there are also sockets without a file (`jdwp`), and services that end the
program when they are closed; these are left out, as are the messages to device trackers.
Also left out are `force_eof`, which only the program on the device sets, and what happens
to a local socket whose peer is local and closes while it takes a packet: the failed
`enqueue` frees the socket that is reading, and `local_socket_event_func` goes on with it.
-/
import AndroidSystem.CInt
import AndroidSystem.Adb.Auth

open CInt

namespace Adb

open Auth (Bytes ConnectionState parseBanner bytes)

/-! ### Sockets -/

/-- The peer of a local socket: a remote socket, another local socket, or one that is in no list
(a smart socket or a device tracker). -/
inductive Peer (T : Type)
  | remote (id : ℕ) (t : T)
  | sock (a : ℕ)
  | service
  deriving DecidableEq, Repr

/-- A local socket (`asocket`). -/
structure Socket (T : Type) where
  transport : Option T
  peer : Option (Peer T)
  /-- `ready` and `close` are the versions that report to the file first. -/
  notify : Bool
  closing : Bool
  /-- `FDE_READ` -/
  reading : Bool
  /-- `FDE_WRITE` -/
  writing : Bool
  queue : List Bytes
  written : Bytes
  taken : Bytes
  status : Bytes
  deriving DecidableEq, Repr

/-- `create_local_socket`. -/
def Socket.new {T : Type} : Socket T := ⟨none, none, false, false, false, false, [], [], [], []⟩

/-- The sockets of one program, and the transports as it sees them. -/
structure Program (T : Type) where
  sock : ℕ → Socket T
  locals : List ℕ
  closings : List ℕ
  next : ℕ
  online : T → Bool
  connectionState : T → ConnectionState

/-- Packets of streams, with `arg0`, `arg1` and the data where they are used. -/
inductive Packet
  | open (arg0 : ℕ) (destination : Bytes)
  | okay (arg0 arg1 : ℕ)
  | clse (arg0 arg1 : ℕ)
  | wrte (arg0 arg1 : ℕ) (data : Bytes)
  deriving DecidableEq, Repr

/-- What `adb_write` returns. -/
inductive Write
  | wrote (n : ℕ)
  | again
  | failed
  deriving DecidableEq, Repr

/-- The loop that writes a packet: what was written, what is left, and whether it failed. -/
def writeAll : List Write → Bytes → Bytes × Bytes × Bool
  | _, [] => ([], [], false)
  | [], data => ([], data, false)
  | .again :: _, data => ([], data, false)
  | .failed :: _, data => ([], data, true)
  | .wrote n :: ws, data =>
    if n = 0 then ([], data, true)
    else
      let (done, left, failed) := writeAll ws (data.drop n)
      (data.take n ++ done, left, failed)

theorem writeAll_append (ws : List Write) : ∀ data : Bytes,
    (writeAll ws data).1 ++ (writeAll ws data).2.1 = data := by
  induction ws with
  | nil => exact fun data => by cases data <;> rfl
  | cons w ws ih =>
    intro data
    cases data with
    | nil => rfl
    | cons x data =>
      cases w with
      | wrote n =>
        simp only [writeAll]
        split_ifs
        · rfl
        · show (x :: data).take n ++ _ ++ _ = _
          rw [List.append_assoc, ih, List.take_append_drop]
      | again => rfl
      | failed => rfl

namespace Program

variable {T : Type}

/-- A change of one socket. -/
def update (s : Program T) (a : ℕ) (f : Socket T → Socket T) : Program T :=
  { s with sock := Function.update s.sock a (f (s.sock a)) }

/-- `find_local_socket`: the first socket in the list with the identifier. -/
def findLocalSocket (id : ℕ) (s : Program T) : Option ℕ := s.locals.find? fun a => u32 a = id

/-- `install_local_socket`. -/
def install (x : Socket T) (s : Program T) : Program T :=
  { s with
    sock := Function.update s.sock s.next x
    locals := s.locals ++ [s.next]
    next := s.next + 1 }

theorem install_self (x : Socket T) (s : Program T) : (install x s).sock s.next = x :=
  Function.update_self _ _ _

theorem install_of_ne {a : ℕ} (x : Socket T) {s : Program T} (h : a ≠ s.next) :
    (install x s).sock a = s.sock a := Function.update_of_ne h _ _

/-- The second half of `local_socket_close_locked`, when the peer is dealt with. -/
def closeOne (a : ℕ) (s : Program T) : Program T :=
  let x := s.sock a
  if x.closing ∨ x.queue = [] then
    -- `local_socket_destroy`
    { s with
      sock := Function.update s.sock a { x with peer := none }
      locals := s.locals.erase a
      closings := s.closings.erase a }
  else
    { s with
      sock := Function.update s.sock a { x with peer := none, closing := true, reading := false }
      locals := s.locals.erase a
      closings := s.closings ++ [a] }

/-- `local_socket_close_notify`, for a socket that reports. -/
def notifyClose (a : ℕ) (s : Program T) : Program T :=
  if (s.sock a).notify then
    s.update a fun x => { x with notify := false, status := x.status ++ bytes "FAIL0006closed" }
  else s

/-- `close` of a local socket. -/
def close (a : ℕ) (s : Program T) : Program T × List (T × Packet) :=
  let s := notifyClose a s
  match (s.sock a).peer with
  | none => (closeOne a s, [])
  | some (.remote id t) => (closeOne a s, [(t, .clse 0 id)])
  | some (.sock b) => (closeOne a (closeOne b (notifyClose b s)), [])
  | some .service => (closeOne a s, [])

/-- `ready` of a local socket. -/
def ready (ws : List Write) (a : ℕ) (s : Program T) : Program T :=
  s.update a fun x =>
    if x.notify then
      let ok := match ws.head? with
        | some (.wrote n) => (bytes "OKAY").take n
        | _ => []
      { x with notify := false, status := x.status ++ ok, reading := true }
    else { x with reading := true }

/-- `local_socket_enqueue`; the last component says whether more is welcome. -/
def enqueue (ws : List Write) (data : Bytes) (a : ℕ) (s : Program T) :
    Program T × List (T × Packet) × Bool :=
  if (s.sock a).queue ≠ [] then
    (s.update a fun x => { x with queue := x.queue ++ [data], writing := true }, [], false)
  else
    let (done, left, failed) := writeAll ws data
    let s := s.update a fun x => { x with written := x.written ++ done }
    if failed then
      let (s, out) := close a s
      (s, out, false)
    else if left = [] then (s, [], true)
    else (s.update a fun x => { x with queue := [left], writing := true }, [], false)

/-- The four ways `local_socket_enqueue` can go: the packet joins others, writing fails, all of
it is written, or something is left. -/
inductive Enqueued (ws : List Write) (data : Bytes) (a : ℕ) (s : Program T) :
    Program T × List (T × Packet) × Bool → Prop
  | joins (hq : (s.sock a).queue ≠ []) : Enqueued ws data a s
      (s.update a fun x => { x with queue := x.queue ++ [data], writing := true }, [], false)
  | fails (hq : (s.sock a).queue = []) (done left : Bytes)
      (hw : writeAll ws data = (done, left, true)) : Enqueued ws data a s
      ((close a (s.update a fun x => { x with written := x.written ++ done })).1,
        (close a (s.update a fun x => { x with written := x.written ++ done })).2, false)
  | passes (hq : (s.sock a).queue = []) (done : Bytes)
      (hw : writeAll ws data = (done, [], false)) : Enqueued ws data a s
      (s.update a fun x => { x with written := x.written ++ done }, [], true)
  | waits (hq : (s.sock a).queue = []) (done left : Bytes)
      (hw : writeAll ws data = (done, left, false)) (hleft : left ≠ []) : Enqueued ws data a s
      ((s.update a fun x => { x with written := x.written ++ done }).update a
        fun x => { x with queue := [left], writing := true }, [], false)

theorem enqueue_cases (ws : List Write) (data : Bytes) (a : ℕ) (s : Program T) :
    Enqueued ws data a s (enqueue ws data a s) := by
  by_cases hq : (s.sock a).queue = []
  · rw [enqueue, if_neg (not_not.mpr hq)]
    obtain ⟨⟨done, left, failed⟩, hw⟩ : ∃ x, writeAll ws data = x := ⟨_, rfl⟩
    rw [hw]
    cases failed with
    | true => exact .fails hq done left hw
    | false =>
      by_cases hleft : left = []
      · subst hleft
        exact .passes hq done hw
      · simp only [Bool.false_eq_true, if_false, if_neg hleft]
        exact .waits hq done left hw hleft
  · rw [enqueue, if_pos hq]
    exact .joins hq

/-! ### Packets -/

/-- What the operating system does for a packet: whether the service could be started, and the
results of writes. -/
structure Answers where
  service : Bool
  writes : List Write
  deriving DecidableEq, Repr

/-- `handle_packet`, for the commands of streams. -/
def handleStream [DecidableEq T] (o : Answers) (p : Packet) (t : T) (s : Program T) :
    Program T × List (T × Packet) :=
  if ¬ s.online t then (s, [])
  else
    match p with
    | .open arg0 _ =>
      if ¬ o.service then (s, [(t, .clse 0 arg0)])
      else
        let a := s.next
        let s := install { Socket.new with peer := some (.remote arg0 t) } s
        (ready o.writes a s, [(t, .okay (u32 a) arg0)])
    | .okay arg0 arg1 =>
      match findLocalSocket arg1 s with
      | none => (s, [])
      | some a =>
        let s := if (s.sock a).peer = none then
            s.update a fun x => { x with peer := some (.remote arg0 t) } else s
        (ready o.writes a s, [])
    | .clse _ arg1 =>
      match findLocalSocket arg1 s with
      | none => (s, [])
      | some a => close a s
    | .wrte arg0 arg1 data =>
      match findLocalSocket arg1 s with
      | none => (s, [])
      | some a =>
        let (s, out, more) := enqueue o.writes data a s
        (s, if more then out ++ [(t, .okay (u32 a) arg0)] else out)

/-! ### Events of files -/

/-- `MAX_PAYLOAD` -/
def maxPayload : ℕ := 4096

/-- What `adb_read` returns; it is called again after `EINTR`. -/
inductive Read
  | got (data : Bytes)
  | again
  | eof
  deriving DecidableEq, Repr

/-- The loop that reads a packet: the data, and whether the file has ended. -/
def readAll : List Read → ℕ → Bytes × Bool
  | [], _ => ([], false)
  | r :: rs, avail =>
    if avail = 0 then ([], false)
    else
      match r with
      | .again => ([], false)
      | .eof => ([], true)
      | .got data =>
        if data = [] then ([], true)
        else
          let (more, eof) := readAll rs (avail - (data.take avail).length)
          (data.take avail ++ more, eof)

/-- How a loop over the queue ends. -/
inductive Drained
  | all | again | failed
  deriving DecidableEq, Repr

/-- The loop that writes the queue: what was written, and what is left. -/
def drainAll : List Write → List Bytes → Bytes × List Bytes × Drained
  | ws, queue =>
    match queue.dropWhile List.isEmpty with
    | [] => ([], [], .all)
    | p :: queue =>
      match ws with
      | [] | .again :: _ => ([], p :: queue, .again)
      | .failed :: _ => ([], p :: queue, .failed)
      | .wrote n :: ws =>
        if n = 0 then ([], p :: queue, .failed)
        else
          let (done, left, r) := drainAll ws (p.drop n :: queue)
          (p.take n ++ done, left, r)

/-- `local_socket_event_func`, for `FDE_WRITE`; the last component says whether it goes on.
A socket that has written everything tells its peer, which must be there. -/
def eventWrite (ws : List Write) (a : ℕ) (s : Program T) :
    Option (Program T × List (T × Packet) × Bool) :=
  let (done, left, r) := drainAll ws (s.sock a).queue
  let s := s.update a fun x => { x with written := x.written ++ done, queue := left }
  match r with
  | .again => some (s, [], false)
  | .failed =>
    let (s, out) := close a s
    some (s, out, false)
  | .all =>
    if (s.sock a).closing then
      let (s, out) := close a s
      some (s, out, false)
    else
      let s := s.update a fun x => { x with writing := false }
      match (s.sock a).peer with
      | none => none
      | some (.remote id t) => some (s, [(t, .okay (u32 a) id)], true)
      | some (.sock b) => some (ready [] b s, [], true)
      | some .service => some (s, [], true)

/-- `local_socket_event_func`, for `FDE_READ`: data for a socket without a peer is lost. -/
def eventRead (ws : List Write) (rs : List Read) (a : ℕ) (s : Program T) :
    Program T × List (T × Packet) :=
  let (data, eof) := readAll rs maxPayload
  let s := s.update a fun x => { x with taken := x.taken ++ data }
  let (s, out) :=
    if data = [] then (s, [])
    else
      match (s.sock a).peer with
      | none | some .service => (s, [])
      | some (.remote id t) =>
        (s.update a fun x => { x with reading := false }, [(t, .wrte (u32 a) id data)])
      | some (.sock b) =>
        let (s, out, more) := enqueue ws data b s
        (if more then s else s.update a fun x => { x with reading := false }, out)
  if eof then
    let (s, out') := close a s
    (s, out ++ out')
  else (s, out)

/-- `local_socket_event_func` -/
def eventFunc (write read : Bool) (ws : List Write) (rs : List Read) (a : ℕ) (s : Program T) :
    Option (Program T × List (T × Packet)) := do
  let (s, out, goesOn) ← if write then eventWrite ws a s else some (s, [], true)
  if read && goesOn then
    let (s, out') := eventRead ws rs a s
    some (s, out ++ out')
  else some (s, out)

/-! ### Connections -/

/-- `remote_socket_disconnect`, for the remote socket that is the peer of a local one. -/
def disconnect (s : Program T) (a : ℕ) : Program T :=
  closeOne a (notifyClose a (s.update a fun x => { x with peer := none }))

/-- The sockets whose remote peer belongs to a transport. -/
def peersOf [DecidableEq T] (t : T) (s : Program T) : List ℕ :=
  s.locals.filter fun a => match (s.sock a).peer with
    | some (.remote _ u) => u = t
    | _ => false

/-- `handle_offline`, with what it does to streams. -/
def handleOffline [DecidableEq T] (t : T) (s : Program T) : Program T :=
  let s := { s with online := Function.update s.online t false }
  (peersOf t s).foldl disconnect s

/-- `handle_packet`, for the commands of connections. -/
def handleConnection [DecidableEq T] (p : Auth.Packet) (t : T) (s : Program T) : Program T :=
  match p.command with
  | .sync arg0 =>
    if arg0 ≠ 0 then s
    else handleOffline t
      { s with connectionState := Function.update s.connectionState t .offline }
  | .cnxn =>
    let s := if s.connectionState t ≠ .offline then handleOffline t s else s
    { s with
      connectionState := Function.update s.connectionState t (parseBanner p.data)
      online := Function.update s.online t true }
  | .auth arg0 =>
    -- a host signs tokens; it checks no signatures and confirms no keys
    if arg0 = 1 then
      { s with connectionState := Function.update s.connectionState t .unauthorized }
    else s
  | .stream => s

/-- `handle_packet` -/
def handlePacket [DecidableEq T] (o : Answers) (p : Packet ⊕ Auth.Packet) (t : T)
    (s : Program T) : Program T :=
  match p with
  | .inl p => (handleStream o p t s).1
  | .inr p => handleConnection p t s

end Program

end Adb
