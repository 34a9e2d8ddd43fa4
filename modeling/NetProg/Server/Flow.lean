import NetProg.Programs
import NetProg.Shell.Meaning
import NetProg.Server.Concurrent
import NetProg.Server.Waiting

/-! The bytes that go through the pipelines of the users of `np_single_proc`.

    The server forks the commands of a line one by one. The programs of all users run meanwhile, in any
    order, over pipes of finite capacity, while the server is in `select`, in the process loop of
    somebody's line, or in the `wait` loop behind it, which lets nothing pass until every child has ended.
    What a program writes is up to it (`progs`, by user, line of the user and command), but it reads its
    input to the end. A command without a pipe on its standard input reads nothing here, and what the
    server itself writes to the sockets and what goes to the standard errors is left out. -/

namespace NetProg.Server

/-- The server and its children. Of every user it is counted how many lines are done and how many
    commands of the current line have been forked. -/
structure Flow where
  phase : Phase
  lines : ℕ → ℕ
  forks : ℕ → ℕ
  net : Net (ℕ × ℕ × ℕ) Channel UInt8

/-- What happens next: `select` finds something to do for a client, a row of `process` is executed, the
    process loop ends, the `wait` loop ends, or a program does something. -/
inductive FlowEvent where
  | client (e : Event)
  | process
  | endLine
  | waited
  | child (e : NetEvent (ℕ × ℕ × ℕ) UInt8)

/-- What a client does in an event. -/
def FlowEvent.typed : FlowEvent → Option Event
  | .client e => some e
  | _ => none

namespace Flow

variable (progs : ℕ → ℕ × ℕ → StreamProgram UInt8)

/-- What `select` reports. -/
def input (t : Flow) (s : Server) : Input → Option Flow
  | .accept addr port junk => (s.step (.accept addr port junk)).map fun r => { t with phase := .select r.1 }
  | .line fd inp => (s.beginLine fd inp).map fun phase => { t with phase := phase }
  | .eof fd => (s.step (.eof fd)).map fun r => { t with phase := .select r.1 }

/-- The programs after a row has made `c` of a call with `n` children. -/
def forked (t : Flow) (n : ℕ) (c : Call) : Net (ℕ × ℕ × ℕ) Channel UInt8 :=
  match c.spawned.drop n with
  | [] => t.net
  | s :: _ => t.net.fork (c.u, t.lines c.u, t.forks c.u) (s.node (progs c.u (t.lines c.u, t.forks c.u)))

/-- A line of `u` is done. -/
def lineDone (t : Flow) (u : ℕ) : Flow :=
  { t with lines := Function.update t.lines u (t.lines u + 1), forks := Function.update t.forks u 0 }

/-- One step. -/
def step (cap : ℕ) (t : Flow) : FlowEvent → Option Flow
  | .client e =>
    match t.phase with
    | .select s => t.input s (e.input s)
    | _ => none
  | .process =>
    match t.phase with
    | .exec fd inp (row :: rows) pc c =>
      match execRow inp pc rows.isEmpty row c with
      | .next c' => some { t with
          phase := .exec fd inp rows pc c'
          forks := Function.update t.forks c'.u (t.forks c'.u + (c'.spawned.length - c.spawned.length))
          net := t.forked progs c.spawned.length c' }
      | .exited c' => some { t.lineDone c'.u with phase := .select (c'.leave.finish fd c'.u true) }
      | .crashed => none
    | _ => none
  | .endLine =>
    match t.phase with
    | .exec fd _ [] _ c => some { t.lineDone c.u with
        phase := if c.lineEndWithPipe then .select (c.leave.finish fd c.u false) else .wait fd c }
    | _ => none
  | .waited =>
    match t.phase with
    | .wait fd c =>
      if t.net.quiet then some { t with phase := .select (c.leave.finish fd c.u false) } else none
    | _ => none
  | .child e => (t.net.step (room cap) t.phase.server.kernel.holdsWrite e).map fun net => { t with net := net }

/-- The server before its first client. -/
def init (environ : Environ) : Flow := ⟨.select (Server.init environ), fun _ => 0, fun _ => 0, .empty⟩

/-- What the clients did in a run. -/
def typed (es : List FlowEvent) : List Event := es.filterMap FlowEvent.typed

end Flow

end NetProg.Server
