/-
Two `adb` programs and the streams between them (`adb/sockets.c`, `adb/adb.c`).

The programs are joined by a transport that delivers packets in order.  A stream starts with a local
socket of one program, which sends `OPEN`; the other program answers with a socket of its own.
`streams` records which sockets belong together; neither program knows more than identifiers.

* `Pair` — the programs and the packets under way;
* `Event` — a stream is opened, a packet is delivered, or the file of a socket is ready.  What
  reads and writes do is part of the event, so that a run has any interleaving of them.
* `Flow` — what is wanted of one direction of a stream: at most one packet of data is unanswered,
  and what was written at the far end is the first part of what was read at the near one.
* `Room` — a program that makes a socket has a number for it: `local_socket_next_id` has 32 bits,
  and a number is given out again when it wraps.

The credit of a direction is in one of four places: reading is enabled, data is in
flight, data is in the backlog, or an answer is in flight.  `Inv.flow` is this count.
-/
import AndroidSystem.Runs
import AndroidSystem.Adb.Sockets

open CInt Runs

namespace Adb

open Auth (Bytes)

/-! ### Two programs -/

/-- Two programs, and for each of them the packets that it has sent and that have not been
delivered.  `opens` has the sockets whose `OPEN` is among them, and `streams` the pairs of sockets:
the first is that of the program that opened the stream. -/
structure Pair where
  prog : Bool → Program Unit
  chan : Bool → List Packet
  opens : Bool → List ℕ
  streams : List (Bool × ℕ × ℕ)

/-- What can happen to the two programs. -/
inductive Event
  | connect (x notify : Bool) (destination : Bytes)
  | deliver (x : Bool) (answers : Program.Answers)
  | file (x : Bool) (a : ℕ) (write read : Bool) (ws : List Write) (rs : List Program.Read)
  deriving DecidableEq, Repr

namespace Pair

/-- A program goes on, and sends packets. -/
def act (s : Pair) (x : Bool) (p : Program Unit) (out : List Packet) : Pair :=
  { s with
    prog := Function.update s.prog x p
    chan := Function.update s.chan x (s.chan x ++ out) }

/-- A packet leaves the transport. -/
def pop (s : Pair) (x : Bool) (rest : List Packet) : Pair :=
  { s with chan := Function.update s.chan x rest }

/-- Before any stream. -/
def init : Pair where
  prog _ := ⟨fun _ => Socket.new, [], [], 1, fun _ => true, fun _ => .device⟩
  chan _ := []
  opens _ := []
  streams := []

/-- `create_local_socket` and `connect_to_remote`; `notify` is for a stream that a client has asked
for. -/
def connect (s : Pair) (x notify : Bool) (destination : Bytes) : Pair :=
  let p := s.prog x
  let socket : Socket Unit := { Socket.new with transport := some (), notify := notify }
  { s.act x (Program.install socket p) [.open (u32 p.next) destination] with
    opens := Function.update s.opens x (s.opens x ++ [p.next]) }

/-- The record of streams, when a packet is delivered. -/
def record (s : Pair) (x : Bool) (answers : Program.Answers) : Packet → Pair
  | .open _ _ =>
    { s with
      opens := Function.update s.opens x (s.opens x).tail
      streams := s.streams ++
        if answers.service then
          (s.opens x).head?.toList.map fun a => (x, a, (s.prog (!x)).next)
        else [] }
  | _ => s

/-- The next packet of a program is handled by the other one. -/
def deliver (s : Pair) (x : Bool) (answers : Program.Answers) : Option Pair :=
  match s.chan x with
  | [] => none
  | p :: rest =>
    let (q, out) := Program.handleStream answers p () (s.prog (!x))
    some (((s.record x answers p).pop x rest).act (!x) q (out.map Prod.snd))

/-- The file of a socket is ready for what the socket waits for. -/
def file (s : Pair) (x : Bool) (a : ℕ) (write read : Bool) (ws : List Write)
    (rs : List Program.Read) : Option Pair :=
  let p := s.prog x
  if (a ∈ p.locals ∨ a ∈ p.closings) ∧ (write → (p.sock a).writing) ∧
      (read → (p.sock a).reading) then do
    let (p, out) ← Program.eventFunc write read ws rs a p
    some (s.act x p (out.map Prod.snd))
  else none

/-- One event, if it is possible. -/
def step (s : Pair) : Event → Option Pair
  | .connect x notify destination => some (s.connect x notify destination)
  | .deliver x answers => s.deliver x answers
  | .file x a write read ws rs => s.file x a write read ws rs

/-! ### Streams -/

/-- The sockets belong to one stream; `a` is a socket of `x`. -/
def Link (s : Pair) (x : Bool) (a b : ℕ) : Prop := (x, a, b) ∈ s.streams ∨ (!x, b, a) ∈ s.streams

instance (s : Pair) (x : Bool) (a b : ℕ) : Decidable (s.Link x a b) :=
  inferInstanceAs (Decidable (_ ∨ _))

/-- The socket has not been closed. -/
def Alive (s : Pair) (x : Bool) (a : ℕ) : Prop := a ∈ (s.prog x).locals

instance (s : Pair) (x : Bool) (a : ℕ) : Decidable (s.Alive x a) :=
  inferInstanceAs (Decidable (_ ∈ _))

/-- A socket of one of the programs. -/
def sock (s : Pair) (x : Bool) (a : ℕ) : Socket Unit := (s.prog x).sock a

/-- The data of packets from one socket to another. -/
def wrtes (i j : ℕ) (ps : List Packet) : List Bytes :=
  ps.filterMap fun
    | .wrte i' j' data => if i' = i ∧ j' = j then some data else none
    | _ => none

/-- The number of `OKAY` packets from one socket to another. -/
def okays (i j : ℕ) (ps : List Packet) : ℕ := ps.countP (· = .okay i j)

/-- One direction of a stream: at most one packet of data is under way, in the backlog or answered
by an `OKAY` that is under way, and what was written at the far end is the first part of what was
read here. -/
def Flow (s : Pair) (x : Bool) (a b : ℕ) : Prop :=
  (wrtes (u32 a) (u32 b) (s.chan x)).length + (s.sock (!x) b).queue.length +
      okays (u32 b) (u32 a) (s.chan (!x)) ≤ 1 ∧
    (s.sock (!x) b).written <+: (s.sock x a).taken

instance (s : Pair) (x : Bool) (a b : ℕ) : Decidable (s.Flow x a b) :=
  inferInstanceAs (Decidable (_ ∧ _))

/-- Every stream flows in both directions, as long as neither end has been closed. -/
def Flows (s : Pair) : Prop :=
  ∀ r ∈ s.streams, s.Alive r.1 r.2.1 → s.Alive (!r.1) r.2.2 →
    s.Flow r.1 r.2.1 r.2.2 ∧ s.Flow (!r.1) r.2.2 r.2.1

instance (s : Pair) : Decidable s.Flows := inferInstanceAs (Decidable (∀ _ ∈ _, _))

/-- The next packet is to open a stream. -/
def opening : List Packet → Bool
  | .open _ _ :: _ => true
  | _ => false

/-- A program that makes a socket has a number for it. -/
def Room (s : Pair) : Event → Prop
  | .connect x _ _ => (s.prog x).next < 2 ^ 32
  | .deliver x answers => opening (s.chan x) ∧ answers.service → (s.prog (!x)).next < 2 ^ 32
  | .file _ _ _ _ _ _ => True

instance (s : Pair) : ∀ e, Decidable (s.Room e)
  | .connect _ _ _ => inferInstanceAs (Decidable (_ < _))
  | .deliver _ _ => inferInstanceAs (Decidable (_ → _))
  | .file _ _ _ _ _ _ => inferInstanceAs (Decidable True)

end Pair

end Adb
