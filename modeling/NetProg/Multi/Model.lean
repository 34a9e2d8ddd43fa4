import NetProg.Server.Model

/-! The table of users of `np_multi_proc` (`user_3.h`) and the shell that each client's process runs
    (`npshell_3.h`).

    The table lies in memory that all processes share, so it may change between two looks at it. What a look
    finds is an input; what the shell does to the table is recorded, and so is every subscript it uses. The
    flags of a line are declared outside of the loop and live from line to line. -/

namespace NetProg.Multi

open NetProg.Server (qlen ordinary decimal messageText tellCmd yellCmd whoCmd nameCmd batchCmd)

/-- `User`. -/
structure User where
  valid : Bool
  id : ℕ
  pid : ℕ
  sock : ℕ
  addr : List Char
  name : List Char
  port : ℕ
  batchFlag : Bool
  ignore : Bool
  namePipeRecord : ℕ → Bool
  broadcastMsg : ℕ → List Char
  msgCount : ℕ
  receive : Bool

/-- `user`. The entries from 30 on lie behind the array. -/
abbrev Table := ℕ → User

namespace Table

/-- `check_id_exist`. -/
def checkIdExist (user : Table) (id : ℤ) : Bool :=
  (List.range qlen).any fun i => (user i).valid && (i : ℤ) == id - 1

/-- `check_name_pipe_exist`. -/
def checkNamePipeExist (user : Table) (sender receiver : ℤ) : Bool :=
  (user receiver.toNat).namePipeRecord sender.toNat

/-- `check_name_exist`. -/
def checkNameExist (user : Table) (name : List Char) : Bool :=
  (List.range qlen).any fun i => (user i).valid && (user i).name == name

end Table

/-! ### One turn of the loop of `npshell` -/

/-- A subscript of `user`, or of a `name_pipe_record`. -/
inductive Subscript where
  | user (i : ℤ)
  | record (i : ℤ)
  deriving DecidableEq

/-- A loop over the table. -/
def eachUser : List Subscript := (List.range qlen).map fun (i : ℕ) => .user i

/-- What others see of a turn. -/
inductive Event where
  /-- `user[receiver].name_pipe_record[sender] = value` -/
  | record (receiver sender : ℤ) (value : Bool)
  /-- `broadcast_msg` -/
  | broadcast (msg : List Char)
  /-- a message to `user[i]` -/
  | message (i : ℤ) (msg : List Char)
  | printf (text : List Char)
  | fflush
  /-- `write` to the socket -/
  | write (text : List Char)
  /-- `open` with `O_CREAT`, and `close` -/
  | creat (name : List Char)
  | rename (name : List Char)
  /-- `valid = 0` -/
  | leave
  deriving DecidableEq

/-- What a turn is given: the line; the text `sprintf` made of it (`command`); the table as its looks find it,
    three for each token and each command; which files can be opened; whether the file of `batch` can be read;
    and what is in the memory of the variables that are declared in the loop without a value. -/
structure LineInput where
  line : List Char
  command : List Char
  seen : ℕ → Table
  creat : Bool
  creatPipe : Bool
  redir : Bool
  openIn : Bool
  openOut : Bool
  batch : Bool
  namePipeInFile : List Char
  namePipeOutFile : List Char
  namePipeOutId : ℤ

/-- The state of a turn. `now` counts the looks at the table. Both user pipes of `vars` stay `none`: the ones
    here are files. -/
structure Turn where
  u : ℕ
  sock : ℕ
  vars : Vars
  namePipeInFlag : Bool
  namePipeOutFlag : Bool
  namePipeInFile : List Char
  namePipeOutFile : List Char
  namePipeOutId : ℤ
  ignore : Bool
  environ : Environ
  process : List (List Token)
  lineEndWithPipe : Bool
  now : ℕ
  subscripts : List Subscript
  events : List Event
  spawned : List Spawn

/-- How a turn, or a part of it, ends. -/
inductive Outcome where
  | next (c : Turn)
  | exited (c : Turn)
  | crashed (c : Turn)

/-- The turn where it ends. -/
def Outcome.turn : Outcome → Turn
  | .next c | .exited c | .crashed c => c

namespace Turn

/-- Close the current row of `process`. -/
def push (c : Turn) (argv : List Token) : Turn := { c with process := c.process ++ [argv] }

/-- Use some subscripts. -/
def touch (c : Turn) (l : List Subscript) : Turn := { c with subscripts := c.subscripts ++ l }

def emit (c : Turn) (l : List Event) : Turn := { c with events := c.events ++ l }

def withVars (c : Turn) (v : Vars) : Turn := { c with vars := v }

/-- The next token or command: the table may have changed. -/
def tick (c : Turn) : Turn := { c with now := c.now + 3 }

/-- The countdown. -/
def countdown (c : Turn) : Turn := c.withVars c.vars.countdown

/-- Refuse the line. -/
def refuse (c : Turn) (l : List Event) : Turn := { c.emit l with ignore := true }

/-- A `|N` token (`shock = false`) or a `!N` token (`shock = true`). -/
def pipeOut (c : Turn) (shock : Bool) (n : ℤ) : Turn :=
  let v := c.vars.numberPipe n
  { c with
    lineEndWithPipe := true
    vars := if shock then { v with shockPipeOutFlag := true } else { v with numPipeOutFlag := true } }

end Turn

/-- The file of a user pipe. -/
def pipeFile (sender receiver : ℤ) : List Char :=
  "user_pipe/".toList ++ decimal sender ++ "-".toList ++ decimal receiver

/-- The error for a user that does not exist. -/
def noUserMsg (id : ℤ) : List Char :=
  "*** Error: user #".toList ++ decimal id ++ " does not exist yet. ***\n".toList

/-- The notice for the receiver's side of a user pipe. -/
def receivedMsg (user : Table) (u : ℕ) (sender : ℤ) (command : List Char) : List Char :=
  "*** ".toList ++ (user u).name ++ " (#".toList ++ decimal (user u).id ++
    ") just received from ".toList ++ (user (sender - 1).toNat).name ++ " (#".toList ++ decimal sender ++
    ") by '".toList ++ command ++ "' ***\n".toList

/-- The notice for the sender's side of a user pipe. -/
def pipedMsg (user : Table) (u : ℕ) (receiver : ℤ) (command : List Char) : List Char :=
  "*** ".toList ++ (user u).name ++ " (#".toList ++ decimal (user u).id ++
    ") just piped '".toList ++ command ++ "' to ".toList ++ (user (receiver - 1).toNat).name ++
    " (#".toList ++ decimal (user (receiver - 1).toNat).id ++ ") ***\n".toList

namespace Turn

/-- `name_pipe_in_flag` and `name_pipe_out_flag` are set, each with its file. -/
def take (c : Turn) (name : List Char) : Turn := { c with namePipeInFlag := true, namePipeInFile := name }
def give (c : Turn) (name : List Char) : Turn := { c with namePipeOutFlag := true, namePipeOutFile := name }

/-- A `<id` token. -/
def takeUserPipe (c : Turn) (inp : LineInput) (id : ℤ) : Turn :=
  if (inp.seen c.now).checkIdExist id then
    if (inp.seen (c.now + 1)).checkNamePipeExist id (c.u + 1) then
      ((c.touch (eachUser ++ [.user (c.u + 1), .record id, .user (c.u + 1), .record id, .user c.u,
          .user (id - 1)] ++ eachUser)).emit
        [.record (c.u + 1) id false,
          .broadcast (receivedMsg (inp.seen (c.now + 2)) c.u id inp.command)]).take (pipeFile id (c.u + 1))
    else
      (c.touch (eachUser ++ [.user (c.u + 1), .record id])).refuse
        [.printf ("*** Error: the pipe #".toList ++ decimal id ++ "->#".toList ++ decimal (c.u + 1) ++
          " does not exist yet. ***\n".toList)]
  else (c.touch eachUser).refuse [.printf (noUserMsg id), .fflush]

/-- `open` with `O_CREAT`, and `close`. -/
def createPipeFile (c : Turn) (inp : LineInput) (name : List Char) : Turn :=
  if inp.creatPipe then
    let (k, f) := c.vars.kernel.alloc (.file name)
    (c.emit [.creat name]).withVars { c.vars with kernel := k.close f }
  else c

/-- `name_pipe_out_id = id`. -/
def setOutId (c : Turn) (id : ℤ) : Turn := { c with namePipeOutId := id }

/-- A `>id` token. -/
def makeUserPipe (c : Turn) (inp : LineInput) (id : ℤ) : Turn :=
  if (inp.seen c.now).checkIdExist id then
    if (inp.seen (c.now + 1)).checkNamePipeExist (c.u + 1) id then
      ((c.setOutId id).touch (eachUser ++ [.user id, .record (c.u + 1)])).refuse
        [.printf ("*** Error: the pipe #".toList ++ decimal (c.u + 1) ++ "->#".toList ++ decimal id ++
          " already exists. ***\n".toList)]
    else
      ((((c.setOutId id).touch (eachUser ++ [.user id, .record (c.u + 1), .user id, .record (c.u + 1)])
        ).createPipeFile inp (pipeFile (c.u + 1) id)).emit [.record id (c.u + 1) true]).give
          (pipeFile (c.u + 1) id)
  else ((c.setOutId id).touch eachUser).refuse [.printf (noUserMsg id), .fflush]

/-- A `>` token and the name behind it. -/
def redirect (c : Turn) (inp : LineInput) (name : Token) : Option Turn :=
  (c.vars.createFile ⟨inp.creat, inp.redir, none⟩ name).map fun v =>
    (c.emit ((if inp.creat then [.creat (cString v.redirectionFileName)] else []) ++ [.fflush])).withVars v

end Turn

/-- Combine the tokens into processes; `cur` is the row being filled. Behind a token that is refused the
    others still have their effect. -/
def combine (inp : LineInput) : List Token → List Token → Turn → Outcome
  | [], cur, c => .next (if cur = [] then c else c.push cur)
  | tok :: rest, cur, c =>
    if tok.head? = some '<' then
      match strtok '<' tok with
      | none => .crashed c
      | some n => combine inp rest cur (c.takeUserPipe inp (atoi n)).tick
    else if ordinary tok then combine inp rest (cur ++ [tok]) c.tick
    else if tok = ['|'] then combine inp rest [] (c.push cur).tick
    else if tok = ['>'] then
      match rest with
      | [] => .crashed c
      | name :: rest =>
        match (c.push cur).redirect inp name with
        | none => .crashed c
        | some c => combine inp rest [] c.tick
    else if tok.head? = some '!' then
      match strtok '!' tok with
      | none => .crashed c
      | some n => combine inp rest [] ((c.push cur).pipeOut true (atoi n)).tick
    else if tok.head? = some '|' then
      match strtok '|' tok with
      | none => .crashed c
      | some n => combine inp rest [] ((c.push cur).pipeOut false (atoi n)).tick
    else
      match strtok '>' tok with
      | none => .crashed c
      | some n => combine inp rest [] ((c.push cur).makeUserPipe inp (atoi n)).tick

/-! ### The process loop -/

namespace Turn

/-- In the child: the file of a user pipe becomes the standard input. -/
def childPipeFile (c : Turn) (inp : LineInput) (t : FdTable Desc) : FdTable Desc :=
  if inp.openIn then (t.alloc (.file (cString c.namePipeInFile))).dup2 t.lowest 0 else t

/-- In the child: where the standard input comes from, in the branches for a last command. -/
def childStdin (c : Turn) (inp : LineInput) (t : FdTable Desc) : FdTable Desc :=
  if c.vars.numPipeInFlag then c.vars.dupDue t
  else if c.namePipeInFlag then c.childPipeFile inp t
  else t.dup2 c.vars.fdIn 0

/-- In the child: a file opened for writing at this moment, if it can be, becomes the standard output. -/
def childFile (c : Turn) (inp : LineInput) (opened : Bool) (name : List Char) (t : FdTable Desc) :
    FdTable Desc :=
  if opened then (c.childStdin inp (t.alloc (.file name))).dup2 t.lowest 1 else c.childStdin inp t

/-- In the child of the ordinary branch, with the normal pipe `p0`, `p1` when there is one. -/
def childNormal (c : Turn) (inp : LineInput) (processCount p0 p1 : ℕ) (last : Bool) (t : FdTable Desc) :
    FdTable Desc :=
  let t := if c.vars.numPipeInFlag then c.vars.dupDue t
    else if c.namePipeInFlag then c.childPipeFile inp t
    else t
  if processCount ≠ 1 then
    let t := if c.vars.numPipeInFlag then t else t.dup2 c.vars.fdIn 0
    let t := t.close p0
    if last then t else t.dup2 p1 1
  else t

/-- In the parent: the due number pipes are closed and leave `num_pipe_vec`, and the user pipe is read. -/
def afterFork (c : Turn) : Turn :=
  let v := c.vars
  let v := if v.numPipeInFlag then
      let w := v.close0RestLinePipeIn
      { w with numPipeVec := w.numPipeVec.filter (fun t => !PipeDead t), numPipeInFlag := false }
    else v
  { c with vars := v, namePipeInFlag := false }

def spawn (c : Turn) (x : Spawn) : Turn := { c with spawned := c.spawned ++ [x] }

/-- A child is forked, in the branch for a last command; `child` are its descriptors. -/
def forkLast (c : Turn) (processCount : ℕ) (argv : List Token) (child : FdTable Desc) : Turn :=
  let c := c.spawn ⟨argv, child⟩
  let c := if processCount ≠ 1 then c.withVars (c.vars.close c.vars.fdIn) else c
  c.afterFork

/-- `close_0_rest_line_pipe_out`, before each fork. -/
def beforeFork (c : Turn) : Turn := c.withVars c.vars.close0RestLinePipeOut

/-- The branch for `> file`. -/
def forkRedirect (c : Turn) (inp : LineInput) (processCount : ℕ) (argv : List Token) : Turn :=
  let c := c.beforeFork
  let child := c.childFile inp inp.redir (cString c.vars.redirectionFileName) c.vars.kernel.fds
  let c := c.forkLast processCount argv child
  c.withVars { c.vars with writeFileFlag := false }

/-- The branch for `|N` and `!N`. -/
def forkNumberPipe (c : Turn) (inp : LineInput) (processCount : ℕ) (argv : List Token) : Turn :=
  let c := c.beforeFork
  let child := c.childStdin inp c.vars.kernel.fds
  let child := if c.vars.shockPipeOutFlag then child.dup2 c.vars.pipeOutNum 2 else child
  let c := c.forkLast processCount argv (child.dup2 c.vars.pipeOutNum 1)
  c.withVars { c.vars with numPipeOutFlag := false }

/-- The branch for `>id`: the child announces the pipe. -/
def forkUserPipe (c : Turn) (inp : LineInput) (processCount : ℕ) (argv : List Token) : Turn :=
  let c := c.beforeFork
  let c := (c.touch ([.user c.u, .user (c.namePipeOutId - 1)] ++ eachUser)).emit
    [.broadcast (pipedMsg (inp.seen c.now) c.u c.namePipeOutId inp.command)]
  let child := c.childFile inp inp.openOut (cString c.namePipeOutFile) c.vars.kernel.fds
  let c := c.forkLast processCount argv child
  { c with namePipeOutFlag := false }

/-- The ordinary branch: a line of several commands gets a new pipe for each of them. -/
def forkNormal (c : Turn) (inp : LineInput) (processCount : ℕ) (last : Bool) (argv : List Token) : Turn :=
  let p0 := c.vars.kernel.pipeFd0
  let p1 := c.vars.kernel.pipeFd1
  let c := if processCount ≠ 1 then c.withVars { c.vars with kernel := c.vars.kernel.pipe } else c
  let c := c.beforeFork
  let child := c.childNormal inp processCount p0 p1 last c.vars.kernel.fds
  let c := c.spawn ⟨argv, child⟩
  let c := if processCount ≠ 1 then
      let v := { c.vars.close p1 with fdIn := p0 }
      c.withVars (if last then v.close p0 else v)
    else c
  c.afterFork

/-- The choice of the branch. -/
def fork (c : Turn) (inp : LineInput) (processCount : ℕ) (last : Bool) (argv : List Token) : Turn :=
  if c.vars.writeFileFlag && last then c.forkRedirect inp processCount argv
  else if (c.vars.shockPipeOutFlag || c.vars.numPipeOutFlag) && last then c.forkNumberPipe inp processCount argv
  else if c.namePipeOutFlag && last then c.forkUserPipe inp processCount argv
  else c.forkNormal inp processCount last argv

/-- `printenv`. -/
def printenv (c : Turn) : List Token → Turn
  | [] => c
  | name :: _ =>
    match c.environ name with
    | none => c
    | some value => (c.touch [.user c.u]).emit [.write (value ++ ['\n'])]

/-- `setenv`. -/
def setenvCommand (c : Turn) : List Token → Turn
  | name :: value :: _ => { c with environ := setenv c.environ name value }
  | _ => c

/-- The entries `exit` clears: both loops go from 1 to 30, the row is the first subscript. -/
def ownEntries (u : ℕ) : List (ℕ × ℕ) :=
  ((List.range' 1 qlen).product (List.range' 1 qlen)).filter fun e => e.1 == u + 1 || e.2 == u + 1

/-- `exit`. -/
def exitCommand (c : Turn) (inp : LineInput) : Turn :=
  let entries := ownEntries c.u
  (c.touch (.user c.u :: eachUser ++
      entries.flatMap (fun e => [.user (e.1 : ℕ), .record (e.2 : ℕ)]) ++ [.user c.u])).emit
    (.broadcast ("*** User '".toList ++ (inp.seen c.now c.u).name ++ "' left. ***\n".toList) ::
      entries.map (fun e => .record (e.1 : ℕ) (e.2 : ℕ) false) ++ [.leave])

/-- `who`. -/
def who (c : Turn) (inp : LineInput) : Turn :=
  let user := inp.seen c.now
  (c.touch eachUser).emit
    (.printf "<ID>\t<nickname>\t<IP/port> \t<indicate me>\n".toList ::
      ((List.range qlen).filter fun i => (user i).valid).map fun (i : ℕ) =>
        .printf (decimal (i + 1) ++ "\t".toList ++ (user i).name ++ "\tCGILAB/511\t".toList ++
          (if (user i).sock = c.sock then "<-me\n".toList else "\n".toList)))

/-- `tell`. -/
def tell (c : Turn) (inp : LineInput) (id : ℤ) (words : List Token) : Turn :=
  if (inp.seen c.now).checkIdExist id then
    (c.touch (eachUser ++ [.user c.u, .user (id - 1)])).emit
      [.message (id - 1) ("*** ".toList ++ (inp.seen (c.now + 1) c.u).name ++ " told you ***: ".toList ++
        messageText words ++ "\n".toList)]
  else (c.touch eachUser).emit [.printf (noUserMsg id)]

/-- `yell`. -/
def yell (c : Turn) (inp : LineInput) (words : List Token) : Turn :=
  (c.touch (.user c.u :: eachUser)).emit
    [.broadcast ("*** ".toList ++ (inp.seen c.now c.u).name ++ " yelled ***: ".toList ++ messageText words ++
      "\n".toList)]

/-- `name`. -/
def rename (c : Turn) (inp : LineInput) : List Token → Turn
  | [] => (c.touch [.user c.u]).emit [.rename "(no name)".toList]
  | name :: _ =>
    if (inp.seen c.now).checkNameExist name then
      (c.touch eachUser).emit [.printf (" *** User '".toList ++ name ++ "' already exists. ***\n".toList)]
    else
      (c.touch (eachUser ++ .user c.u :: eachUser)).emit
        [.rename name, .broadcast ("*** User from CGILAB/511 is named '".toList ++ name ++ "'. ***\n".toList)]

end Turn

/-- One turn of the process loop: a builtin, or a fork. -/
def execRow (inp : LineInput) (processCount : ℕ) (last : Bool) (argv : List Token) (c : Turn) : Outcome :=
  match argv with
  | [] => .crashed c
  | cmd :: args =>
    if cmd = Shell.printenvCmd then
      if Server.printenvFits c.environ args then .next (c.printenv args).tick else .crashed c
    else if cmd = Shell.setenvCmd then .next (c.setenvCommand args).tick
    else if cmd = Shell.exitCmd then .exited (c.exitCommand inp)
    else if cmd = batchCmd then if args ≠ [] ∧ inp.batch then .next c.tick else .crashed c
    else if cmd = whoCmd then .next (c.who inp).tick
    else if cmd = tellCmd then
      match args with
      | [] => .crashed c
      | id :: words => .next (c.tell inp (atoi id) words).tick
    else if cmd = yellCmd then .next (c.yell inp args).tick
    else if cmd = nameCmd then .next (c.rename inp args).tick
    else .next (c.fork inp processCount last argv).tick

/-- The process loop from a row of `process` on. -/
def execRows (inp : LineInput) (processCount : ℕ) : List (List Token) → Turn → Outcome
  | [], c => .next c
  | argv :: rest, c =>
    match execRow inp processCount rest.isEmpty argv c with
    | .next c => execRows inp processCount rest c
    | r => r

/-- What `npshell` keeps from line to line. -/
structure Npshell where
  sock : ℕ
  vars : Vars
  namePipeInFlag : Bool
  namePipeOutFlag : Bool
  environ : Environ

/-- What the next turn starts with. -/
def Turn.kept (c : Turn) : Npshell := ⟨c.sock, c.vars, c.namePipeInFlag, c.namePipeOutFlag, c.environ⟩

namespace Npshell

/-- At the beginning: the process has the descriptors `t`. -/
def start (sock : ℕ) (t : FdTable Desc) (environ : Environ) : Npshell where
  sock := sock
  vars :=
    { kernel := ⟨t, 0, []⟩
      numPipeVec := []
      numPipeInFlag := false
      numPipeOutFlag := false
      shockPipeOutFlag := false
      writeFileFlag := false
      namePipeIn := none
      namePipeOut := none
      pipeOutNum := 1
      fdIn := 0
      redirectionFileName := List.replicate 100 '\x00' }
  namePipeInFlag := false
  namePipeOutFlag := false
  environ := setenv environ ['P', 'A', 'T', 'H'] "bin:.".toList

/-- The turn before the first token. `ignore` is 0 there, as it was set back at the end of the last one. -/
def startTurn (s : Npshell) (u : ℕ) (inp : LineInput) : Turn where
  u := u
  sock := s.sock
  vars := { s.vars with pipeOutNum := 1, fdIn := 0, redirectionFileName := List.replicate 100 '\x00' }
  namePipeInFlag := s.namePipeInFlag
  namePipeOutFlag := s.namePipeOutFlag
  namePipeInFile := inp.namePipeInFile
  namePipeOutFile := inp.namePipeOutFile
  namePipeOutId := inp.namePipeOutId
  ignore := false
  environ := s.environ
  process := []
  lineEndWithPipe := false
  now := 0
  subscripts := []
  events := []
  spawned := []

/-- Tokens, countdown and combining. A line of `tell` or `yell` is one process as it stands. -/
def parse (s : Npshell) (u : ℕ) (inp : LineInput) : Outcome :=
  match tokens ' ' inp.line with
  | [] => .crashed (s.startTurn u inp)
  | tok :: rest =>
    if tok = tellCmd ∨ tok = yellCmd then .next ((s.startTurn u inp).countdown.push (tok :: rest))
    else combine inp (tok :: rest) [] (s.startTurn u inp).countdown

/-- One turn of the loop of `npshell` for user `u`. A line that is refused is not executed. -/
def line (s : Npshell) (u : ℕ) (inp : LineInput) : Outcome :=
  if inp.line = [] then .next (s.startTurn u inp)
  else
    match s.parse u inp with
    | .next c => if c.ignore then .next c else execRows inp c.process.length c.process c
    | r => r

/-- The shell after a turn that comes to its end. -/
def next (u : ℕ) (s : Npshell) (inp : LineInput) : Option Npshell :=
  match s.line u inp with
  | .next c => some c.kept
  | _ => none

end Npshell
end NetProg.Multi
