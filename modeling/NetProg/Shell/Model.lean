import NetProg.ForkSpec

/-! The shell of project 1 (`npshell.cpp`): one line after another is cut into tokens, combined
    into processes, and executed.

    `line` is one turn of the `while(1)` loop of `main`, from the tokens to the end of the process
    loop. The flags of `main` are declared outside the loop and live from line to line; the buffer
    `redirection_file_name` is declared inside it and starts every turn with whatever its memory
    holds, which is an input here. A child is recorded at its `execvp`. -/

namespace NetProg

/-- The environment of a process. -/
abbrev Environ := Token → Option Token

/-- `setenv(name, value, 1)`, which refuses a name that is empty or contains `=`. -/
def setenv (env : Environ) (name value : Token) : Environ :=
  if name = [] ∨ '=' ∈ name then env else Function.update env name (some value)

namespace Shell

/-- The builtins. -/
def printenvCmd : Token := ['p', 'r', 'i', 'n', 't', 'e', 'n', 'v']
def setenvCmd : Token := ['s', 'e', 't', 'e', 'n', 'v']
def exitCmd : Token := ['e', 'x', 'i', 't']

/-- Whether a token is part of a command, by its first character. -/
def ordinary : Token → Bool
  | '>' :: _ => false
  | '|' :: _ => false
  | '!' :: _ => false
  | _ => true

/-- What the turn of the loop for one line is given: the line without its newline, the bytes that
    happen to be in `redirection_file_name`, and which files can be opened. -/
structure LineInput where
  line : List Char
  junk : List Char
  junk_length : junk.length = 100
  opens : Opens

/-- The state of combining tokens: the variables and the finished rows of `process`. -/
structure Parsed where
  vars : Vars
  process : List (List Token)
  lineEndWithPipe : Bool
  deriving DecidableEq

namespace Parsed

/-- Close the current row of `process`. -/
def push (p : Parsed) (argv : List Token) : Parsed := { p with process := p.process ++ [argv] }

/-- A `|N` token (`shock = false`) or a `!N` token (`shock = true`). -/
def pipeOut (p : Parsed) (shock : Bool) (n : ℤ) : Parsed :=
  let v := p.vars.numberPipe n
  { p with
    lineEndWithPipe := true
    vars := if shock then { v with shockPipeOutFlag := true } else { v with numPipeOutFlag := true } }

end Parsed

/-- Combine the tokens into processes; `cur` is the row being filled. A token that starts with
    `>` or `|` and is not exactly `>` or `|` is read as a number pipe. -/
def combine (opens : Opens) : List Token → List Token → Parsed → Except Halt Parsed
  | [], cur, p => .ok (if cur = [] then p else p.push cur)
  | tok :: rest, cur, p =>
    if ordinary tok then combine opens rest (cur ++ [tok]) p
    else if tok = ['|'] then combine opens rest [] (p.push cur)
    else if tok = ['>'] then
      match rest with
      | [] => .error .crashed
      | name :: rest =>
        match p.vars.createFile opens name with
        | none => .error .crashed
        | some v => combine opens rest [] { p.push cur with vars := v }
    else if tok.head? = some '!' then
      match strtok '!' tok with
      | none => .error .crashed
      | some n => combine opens rest [] ((p.push cur).pipeOut true (atoi n))
    else
      match strtok '|' tok with
      | none => .error .crashed
      | some n => combine opens rest [] ((p.push cur).pipeOut false (atoi n))

/-- The state of the process loop. -/
structure Exec where
  vars : Vars
  environ : Environ
  spawned : List Spawn
  printed : List (List Char)

/-- Fork one command. -/
def Exec.fork (e : Exec) (opens : Opens) (processCount : ℕ) (last : Bool) (argv : List Token) :
    Exec :=
  let (v, child) := e.vars.forkProcess opens processCount last
  { e with vars := v, spawned := e.spawned ++ [⟨argv, child⟩] }

/-- One turn of the process loop: a builtin, or a fork. -/
def execProcess (opens : Opens) (processCount : ℕ) (last : Bool) (argv : List Token) (e : Exec) :
    Except Halt Exec :=
  match argv with
  | [] => .error .crashed
  | cmd :: args =>
    if cmd = printenvCmd then
      match args with
      | [] => .ok e
      | name :: _ =>
        match e.environ name with
        | none => .ok e
        | some value => .ok { e with printed := e.printed ++ [value ++ ['\n']] }
    else if cmd = setenvCmd then
      match args with
      | name :: value :: _ => .ok { e with environ := setenv e.environ name value }
      | _ => .ok e
    else if cmd = exitCmd then .error .exited
    else .ok (e.fork opens processCount last argv)

/-- The process loop from a row of `process` on. -/
def execAll (opens : Opens) (processCount : ℕ) : List (List Token) → Exec → Except Halt Exec
  | [], e => .ok e
  | argv :: rest, e =>
    match execProcess opens processCount rest.isEmpty argv e with
    | .error h => .error h
    | .ok e => execAll opens processCount rest e

end Shell

/-- What the shell keeps from line to line. -/
structure Shell where
  vars : Vars
  environ : Environ

namespace Shell

/-- The shell before its first line. -/
def init (environ : Environ) : Shell where
  vars :=
    { kernel := ⟨⟨[some (.own 0), some (.own 1), some (.own 2)]⟩, 0, []⟩
      numPipeVec := []
      numPipeInFlag := false
      numPipeOutFlag := false
      shockPipeOutFlag := false
      writeFileFlag := false
      namePipeIn := none
      namePipeOut := none
      pipeOutNum := 1
      fdIn := 0
      redirectionFileName := [] }
  environ := setenv environ ['P', 'A', 'T', 'H'] ['b', 'i', 'n', ':', '.']

/-- The variables at the top of a turn of the loop, after the countdown. -/
def startLine (s : Shell) (inp : LineInput) : Vars :=
  let v := { s.vars with pipeOutNum := 1, fdIn := 0, redirectionFileName := inp.junk }
  if tokens ' ' inp.line = [] then v else v.countdown

/-- Tokens, countdown and combining. -/
def parse (s : Shell) (inp : LineInput) : Except Halt Parsed :=
  combine inp.opens (tokens ' ' inp.line) [] ⟨s.startLine inp, [], false⟩

/-- One turn of the loop: the shell at the end of the process loop, the children it forked in
    order, and whether it then goes on without waiting for its children. -/
def line (s : Shell) (inp : LineInput) : Except Halt (Shell × List Spawn × Bool) :=
  match s.parse inp with
  | .error h => .error h
  | .ok p =>
    match execAll inp.opens p.process.length p.process ⟨p.vars, s.environ, [], []⟩ with
    | .error h => .error h
    | .ok e => .ok (⟨e.vars, e.environ⟩, e.spawned, p.lineEndWithPipe)

/-- A run over some lines: the shell at the next prompt and the children of each line. -/
def run : Shell → List LineInput → Except Halt (Shell × List (List Spawn))
  | s, [] => .ok (s, [])
  | s, inp :: rest =>
    match s.line inp with
    | .error h => .error h
    | .ok (s', sp, _) =>
      match run s' rest with
      | .error h => .error h
      | .ok (s'', sps) => .ok (s'', sp :: sps)

end Shell
end NetProg
