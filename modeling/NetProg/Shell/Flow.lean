import NetProg.Programs
import NetProg.Shell.Meaning
import NetProg.Shell.Waiting

/-! The bytes that go through the pipelines of the project-1 shell.

    The shell forks the commands of a line one by one; the programs run meanwhile, in any order, over
    pipes of finite capacity. What a program writes is up to it (`progs`, by line and command), but it
    reads its input to the end. A command without a pipe on its standard input reads nothing here, and
    what the shell itself prints and what goes to the standard errors is left out. The `wait` loop of a
    line without `|N` or `!N` lets nothing pass until every child has ended. -/

namespace NetProg

namespace Shell

/-- The shell and its children: where `main` is, how many lines are done, how many commands of the
    current line have been forked, and the programs that run. -/
structure Flow where
  shell : Shell
  phase : Phase
  lines : ℕ
  forks : ℕ
  net : Net (ℕ × ℕ) Channel UInt8

/-- What happens next: a line is typed, a row of `process` is executed, the process loop ends, the
    `wait` loop ends, or a program does something. -/
inductive FlowEvent where
  | type (inp : LineInput)
  | process
  | endLine
  | waited
  | child (e : NetEvent (ℕ × ℕ) UInt8)

/-- The line that is typed in an event. -/
def FlowEvent.typed : FlowEvent → Option LineInput
  | .type inp => some inp
  | _ => none

namespace Flow

variable (progs : ℕ × ℕ → StreamProgram UInt8)

/-- The programs after a row was executed. -/
def forked (t : Flow) : List Spawn → Net (ℕ × ℕ) Channel UInt8
  | [] => t.net
  | s :: _ => t.net.fork (t.lines, t.forks) (s.node (progs (t.lines, t.forks)))

/-- One step. -/
def step (cap : ℕ) (t : Flow) : FlowEvent → Option Flow
  | .type inp =>
    match t.phase, t.shell.parse inp with
    | .prompt, .ok p =>
      some { t with
        shell := { t.shell with vars := p.vars }
        phase := .exec p.process p.process.length inp.opens p.lineEndWithPipe }
    | _, _ => none
  | .process =>
    match t.phase with
    | .exec (row :: rows) pc opens w =>
      match execProcess opens pc rows.isEmpty row ⟨t.shell.vars, t.shell.environ, [], []⟩ with
      | .ok e =>
        some { t with
          shell := ⟨e.vars, e.environ⟩
          phase := .exec rows pc opens w
          forks := t.forks + e.spawned.length
          net := t.forked progs e.spawned }
      | .error _ => none
    | _ => none
  | .endLine =>
    match t.phase with
    | .exec [] _ _ w =>
      some { t with phase := if w then .prompt else .wait, lines := t.lines + 1, forks := 0 }
    | _ => none
  | .waited =>
    match t.phase with
    | .wait => if t.net.quiet then some { t with phase := .prompt } else none
    | _ => none
  | .child e =>
    (t.net.step (room cap) t.shell.vars.kernel.holdsWrite e).map fun net => { t with net := net }

/-- The session before the first line. -/
def init (environ : Environ) : Flow := ⟨Shell.init environ, .prompt, 0, 0, .empty⟩

end Flow

end Shell
end NetProg
