import NetProg.CString

/-! The relay phase of a SOCKS session (`HttpSession` and `BindSession` of `socks_server.cpp`).

    Each direction is a pair of asynchronous operations that start each other from their completion
    handlers: a read of at most `max_length` bytes into the buffer of the direction, and sends from
    the beginning of that buffer. The two classes have the same handlers and differ in the order in
    which they start the two directions. A step is the completion of one outstanding operation. -/

namespace NetProg.Socks

/-- `max_length`. -/
def maxLength : ℕ := 1024

/-- What one successful `async_read_some` delivers. -/
structure Chunk where
  bytes : List UInt8
  pos : 1 ≤ bytes.length
  fits : bytes.length ≤ maxLength

/-- `in_` relays from the client to the other host, `out_` from the other host to the client. -/
inductive Way where | inward | outward
  deriving DecidableEq

/-- The other direction. -/
def Way.other : Way → Way
  | inward => outward
  | outward => inward

/-- The sockets of a session: `_in_socket` and `_out_socket` of `HttpSession`, `_socket` and
    `_rsocket` of `BindSession`. -/
inductive Peer where | client | remote
  deriving DecidableEq

/-- The socket a direction reads from. -/
def Way.source : Way → Peer
  | inward => .client
  | outward => .remote

/-- The socket a direction writes to. -/
def Way.destination (w : Way) : Peer := w.other.source

/-- An outstanding operation: a read, or a send of the first `rLength` bytes of the buffer. -/
inductive Op where
  | read
  | send (rLength : ℕ)
  deriving DecidableEq

/-- A call that ends the use of a socket, or of one half of it. -/
inductive Call where
  | shutdownReceive (p : Peer)
  | shutdownSend (p : Peer)
  | close (p : Peer)
  deriving DecidableEq

/-- One direction: its buffer (`_write_data` or `_read_data`), its flag (`flag1` or `flag2`), its
    outstanding operations, and the bytes it has read and written so far. -/
structure Direction where
  buffer : Buffer maxLength
  flag : Bool
  outstanding : List Op
  received : List UInt8
  sent : List UInt8

namespace Direction

/-- `in_do_read`, `out_do_read`: start a read. -/
def doRead (d : Direction) : Direction := { d with outstanding := d.outstanding ++ [.read] }

/-- `in_do_write`, `out_do_write`: start a send of the first `rLength` bytes of the buffer. -/
def doWrite (d : Direction) (rLength : ℕ) : Direction :=
  { d with outstanding := d.outstanding ++ [.send rLength] }

/-- An operation completes and its handler is about to run. -/
def complete (d : Direction) (op : Op) : Direction :=
  { d with outstanding := d.outstanding.erase op }

/-- The read handler without an error. -/
def onRead (d : Direction) (c : Chunk) : Direction :=
  doWrite { d with buffer := d.buffer.fill c.bytes c.fits, received := d.received ++ c.bytes } c.bytes.length

/-- The send handler without an error, after `sLength` of `rLength` bytes were taken. -/
def onSent (d : Direction) (rLength sLength : ℕ) : Direction :=
  let d := { d with sent := d.sent ++ d.buffer.bytes.take sLength }
  if rLength ≠ sLength then d.doWrite (rLength - sLength) else d.doRead

end Direction

/-- A session in its relay phase. -/
structure Session where
  way : Way → Direction
  calls : List Call

/-- The completion of an operation of one direction. -/
inductive Completion where
  | read (w : Way) (c : Chunk)
  | readError (w : Way)
  | sent (w : Way) (rLength sLength : ℕ)
  | sendError (w : Way) (rLength : ℕ)

/-- The direction a completion belongs to. -/
def Completion.way : Completion → Way
  | read w _ => w
  | readError w => w
  | sent w _ _ => w
  | sendError w _ => w

namespace Session

/-- Change one direction. -/
def modify (s : Session) (w : Way) (f : Direction → Direction) : Session :=
  { s with way := Function.update s.way w (f (s.way w)) }

/-- The read handler on an error: the flag, the two shutdowns, and both `close` calls when the
    other direction has ended before. -/
def onReadError (s : Session) (w : Way) : Session :=
  let s := s.modify w fun d => { d with flag := true }
  let calls := s.calls ++ [.shutdownReceive w.source, .shutdownSend w.destination]
  { s with calls := if (s.way w.other).flag then calls ++ [.close .client, .close .remote] else calls }

/-- One completion. A send is taken in part or whole, but not by fewer than one byte. -/
def step (s : Session) : Completion → Option Session
  | .read w c =>
    if .read ∈ (s.way w).outstanding then some (s.modify w fun d => (d.complete .read).onRead c)
    else none
  | .readError w =>
    if .read ∈ (s.way w).outstanding then some ((s.modify w (·.complete .read)).onReadError w)
    else none
  | .sent w r n =>
    if .send r ∈ (s.way w).outstanding ∧ 1 ≤ n ∧ n ≤ r then
      some (s.modify w fun d => (d.complete (.send r)).onSent r n)
    else none
  | .sendError w r =>
    if .send r ∈ (s.way w).outstanding then some (s.modify w (·.complete (.send r))) else none

/-- A run over some completions. -/
def run : Session → List Completion → Option Session
  | s, [] => some s
  | s, e :: es => (s.step e).bind fun s' => s'.run es

end Session

/-- A direction that has not started. -/
def Direction.fresh (b : Buffer maxLength) : Direction := ⟨b, false, [], [], []⟩

/-- The session classes. -/
inductive Kind where | http | bind
  deriving DecidableEq

/-- `HttpSession`: `in_do_read(); out_do_read();`. -/
def HttpSession.relay (buffer : Way → Buffer maxLength) : Session :=
  ((Session.mk (fun w => .fresh (buffer w)) []).modify .inward Direction.doRead).modify .outward
    Direction.doRead

/-- `BindSession`: `out_do_read(); in_do_read();`. -/
def BindSession.relay (buffer : Way → Buffer maxLength) : Session :=
  ((Session.mk (fun w => .fresh (buffer w)) []).modify .outward Direction.doRead).modify .inward
    Direction.doRead

/-- The start of the relay phase. The buffers hold whatever was in their memory. -/
def relay : Kind → (Way → Buffer maxLength) → Session
  | .http => HttpSession.relay
  | .bind => BindSession.relay

/-! ### Facts about one step -/

namespace Session

@[simp] theorem way_modify_self (s : Session) (w : Way) (f : Direction → Direction) :
    (s.modify w f).way w = f (s.way w) := by
  simp [modify]

theorem way_modify_of_ne (s : Session) {w w' : Way} (h : w' ≠ w) (f : Direction → Direction) :
    (s.modify w f).way w' = s.way w' := by
  simp [modify, h]

theorem way_onReadError (s : Session) (w : Way) :
    (s.onReadError w).way w = { s.way w with flag := true } :=
  way_modify_self s w fun d => { d with flag := true }

theorem run_cons {s t : Session} {e : Completion} {es : List Completion}
    (h : s.run (e :: es) = some t) : ∃ s', s.step e = some s' ∧ s'.run es = some t := by
  rw [run, Option.bind_eq_some_iff] at h
  exact h

/-- A completion of one direction leaves the other as it was. -/
theorem step_other {s t : Session} {e : Completion} {w : Way} (h : s.step e = some t)
    (hw : e.way ≠ w) : t.way w = s.way w := by
  cases e with
  | read w' c =>
    simp only [step, Option.ite_none_right_eq_some, Option.some.injEq] at h
    obtain ⟨-, rfl⟩ := h
    have hne : w ≠ w' := fun heq => hw heq.symm
    exact way_modify_of_ne _ hne _
  | readError w' =>
    simp only [step, Option.ite_none_right_eq_some, Option.some.injEq] at h
    obtain ⟨-, rfl⟩ := h
    simp only [onReadError]
    have hne : w ≠ w' := fun heq => hw heq.symm
    rw [way_modify_of_ne _ hne, way_modify_of_ne _ hne]
  | sent w' r n =>
    simp only [step, Option.ite_none_right_eq_some, Option.some.injEq] at h
    obtain ⟨-, rfl⟩ := h
    have hne : w ≠ w' := fun heq => hw heq.symm
    exact way_modify_of_ne _ hne _
  | sendError w' r =>
    simp only [step, Option.ite_none_right_eq_some, Option.some.injEq] at h
    obtain ⟨-, rfl⟩ := h
    have hne : w ≠ w' := fun heq => hw heq.symm
    exact way_modify_of_ne _ hne _

end Session

theorem way_relay (k : Kind) (buffer : Way → Buffer maxLength) (w : Way) :
    (relay k buffer).way w = (Direction.fresh (buffer w)).doRead := by
  cases k <;> cases w <;> rfl

end NetProg.Socks
