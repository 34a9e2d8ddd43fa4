import NetProg.Shell.Model

/-! The single-process server (`np_single_proc.cpp`) with its shell (`npshell_2.h`).

    One process serves up to 30 clients from a `select` loop. Each turn either accepts a client or
    gives one `read` of a client to `npshell`, with descriptors 0, 1 and 2 turned to its socket. The
    tables of users and user pipes and the descriptor table are shared by all clients, the flags of
    a line live for one call of `npshell`. A line is what is left of the read after it was cut. -/

namespace NetProg.Server

/-- `QLEN`. -/
def qlen : ℕ := 30

/-- `struct User`. The array `name_pipe` is by index of the sender. -/
structure User where
  valid : Bool
  id : ℕ
  sock : ℕ
  env : Token
  addr : List Char
  name : List Char
  port : ℕ
  batchFlag : Bool
  ignore : Bool
  numPipeVec : List NumberPipe
  namePipe : ℕ → ℕ × ℕ

/-- What the server sends and prints, in order. -/
inductive LogEntry where
  /-- `write` to a descriptor -/
  | write (fd : ℕ) (text : List Char)
  /-- `printf`, into the buffer of the standard output -/
  | printf (text : List Char)
  | fflush
  /-- `cout` up to `endl` -/
  | cout (text : List Char)
  deriving DecidableEq

end Server

/-- The server between two calls of `select`. The users are by index, the records by id. -/
structure Server where
  user : ℕ → Server.User
  namePipeRecord : ℕ → ℕ → Bool
  kernel : Kernel
  afds : Finset ℕ
  environ : Environ
  accepted : ℕ
  log : List Server.LogEntry

namespace Server

/-- Add to the log. -/
def print (s : Server) (entries : List LogEntry) : Server := { s with log := s.log ++ entries }

/-- Change one user. -/
def modifyUser (s : Server) (i : ℕ) (f : User → User) : Server :=
  { s with user := Function.update s.user i (f (s.user i)) }

/-- The indices of the users that are logged in. -/
def validUsers (s : Server) : List ℕ := (List.range qlen).filter fun i => (s.user i).valid

/-- `find_fd_user`. -/
def findFdUser (s : Server) (fd : ℕ) : Option ℕ :=
  (List.range qlen).find? fun i => (s.user i).valid && (s.user i).sock == fd

/-- `check_id_exist`. -/
def checkIdExist (s : Server) (id : ℤ) : Bool :=
  (List.range qlen).any fun i => (s.user i).valid && (i : ℤ) == id - 1

/-- `check_name_pipe_exist`. -/
def checkNamePipeExist (s : Server) (sender receiver : ℕ) : Bool := s.namePipeRecord sender receiver

/-- `check_name_exist`. -/
def checkNameExist (s : Server) (name : List Char) : Bool :=
  (List.range qlen).any fun i => (s.user i).valid && (s.user i).name == name

/-- `broadcast_msg`. -/
def broadcastMsg (s : Server) (msg : List Char) : Server :=
  s.print (s.validUsers.map fun i => .write (s.user i).sock msg)

/-- A number in decimal. -/
def decimal (n : ℤ) : List Char := (toString n).toList

/-! ### One call of `npshell` -/

/-- What a call of `npshell` is given besides the server: the line, the text `sprintf` made of it
    (`command`), which files can be opened, and whether the file of `batch` can be read. -/
structure LineInput where
  line : List Char
  command : List Char
  opens : Opens
  batch : Bool

/-- The state of a call. While it lasts, the descriptors and the number pipes of user `u` are in
    `vars`. `sender` is `name_pipe_sender_id` while `name_pipe_in_flag` is 1, and `receiver` is
    `name_pipe_out_id` while `name_pipe_out_flag` is 1. -/
structure Call where
  u : ℕ
  server : Server
  vars : Vars
  sender : Option ℕ
  receiver : Option ℕ
  process : List (List Token)
  lineEndWithPipe : Bool
  spawned : List Spawn

/-- The four reasons to reject a line. -/
inductive PipeError where
  | noSender (id : ℤ)
  | noReceiver (id : ℤ)
  | noPipe (sender receiver : ℕ)
  | pipeExists (sender receiver : ℕ)
  deriving DecidableEq

/-- The message of a rejected line; two of the four are not flushed. -/
def PipeError.entries : PipeError → List LogEntry
  | noSender id | noReceiver id =>
    [.printf ("*** Error: user #".toList ++ decimal id ++ " does not exist yet. ***\n".toList),
      .fflush]
  | noPipe s r =>
    [.printf ("*** Error: the pipe #".toList ++ decimal s ++ "->#".toList ++ decimal r ++
      " does not exist yet. ***\n".toList)]
  | pipeExists s r =>
    [.printf ("*** Error: the pipe #".toList ++ decimal s ++ "->#".toList ++ decimal r ++
      " already exists. ***\n".toList)]

/-- The server at the return of a call. -/
def Call.leave (c : Call) : Server :=
  { c.server.modifyUser c.u fun w => { w with numPipeVec := c.vars.numPipeVec } with
    kernel := c.vars.kernel }

/-- Close the current row of `process`. -/
def Call.push (c : Call) (argv : List Token) : Call := { c with process := c.process ++ [argv] }

/-- A `|N` token (`shock = false`) or a `!N` token (`shock = true`). -/
def Call.pipeOut (c : Call) (shock : Bool) (n : ℤ) : Call :=
  let v := c.vars.numberPipe n
  { c with
    lineEndWithPipe := true
    vars := if shock then { v with shockPipeOutFlag := true } else { v with numPipeOutFlag := true } }

/-- The notice for the receiver's side of a user pipe. -/
def receivedMsg (s : Server) (u sender : ℕ) (command : List Char) : List Char :=
  "*** ".toList ++ (s.user u).name ++ " (#".toList ++ decimal (s.user u).id ++
    ") just received from ".toList ++ (s.user (sender - 1)).name ++ " (#".toList ++ decimal sender ++
    ") by '".toList ++ command ++ "' ***\n".toList

/-- The notice for the sender's side of a user pipe. -/
def pipedMsg (s : Server) (u receiver : ℕ) (command : List Char) : List Char :=
  "*** ".toList ++ (s.user u).name ++ " (#".toList ++ decimal (s.user u).id ++
    ") just piped '".toList ++ command ++ "' to ".toList ++ (s.user (receiver - 1)).name ++
    " (#".toList ++ decimal (s.user (receiver - 1)).id ++ ") ***\n".toList

/-- The record of a user pipe is cleared, and everybody is told. -/
def Call.taken (c : Call) (command : List Char) (sender : ℕ) : Call :=
  let record := c.server.namePipeRecord
  let s := { c.server with
    namePipeRecord := Function.update record sender
      (Function.update (record sender) (c.u + 1) false) }
  { c with
    sender := some sender
    server := s.broadcastMsg (receivedMsg s c.u sender command) }

/-- A `<id` token. -/
def Call.takeUserPipe (c : Call) (command : List Char) (id : ℤ) : Except PipeError Call :=
  if c.server.checkIdExist id then
    if c.server.checkNamePipeExist id.toNat (c.u + 1) then .ok (c.taken command id.toNat)
    else .error (.noPipe id.toNat (c.u + 1))
  else .error (.noSender id)

/-- A user pipe is made and recorded. -/
def Call.made (c : Call) (receiver : ℕ) : Call :=
  let record := c.server.namePipeRecord
  let k := c.vars.kernel
  { c with
    receiver := some receiver
    vars := { c.vars with kernel := k.pipe }
    server := { c.server.modifyUser (receiver - 1) fun w =>
        { w with namePipe := Function.update w.namePipe c.u (k.pipeFd0, k.pipeFd1) } with
      namePipeRecord := Function.update record (c.u + 1)
        (Function.update (record (c.u + 1)) receiver true) } }

/-- A `>id` token. -/
def Call.makeUserPipe (c : Call) (id : ℤ) : Except PipeError Call :=
  if c.server.checkIdExist id then
    if c.server.checkNamePipeExist (c.u + 1) id.toNat then
      .error (.pipeExists (c.u + 1) id.toNat)
    else .ok (c.made id.toNat)
  else .error (.noReceiver id)

/-- What combining the tokens leads to. -/
inductive Parse where
  | ok (c : Call)
  | rejected (c : Call) (e : PipeError)
  | crashed

/-- Whether a token is part of a command, by its first character. -/
def ordinary : Token → Bool
  | '<' :: _ => false
  | t => Shell.ordinary t

/-- Combine the tokens into processes; `cur` is the row being filled. A rejected line returns at
    once, with what the tokens before have done. -/
def combine (inp : LineInput) : List Token → List Token → Call → Parse
  | [], cur, c => .ok (if cur = [] then c else c.push cur)
  | tok :: rest, cur, c =>
    if tok.head? = some '<' then
      match strtok '<' tok with
      | none => .crashed
      | some n =>
        match c.takeUserPipe inp.command (atoi n) with
        | .error e => .rejected { c with server := c.server.print e.entries } e
        | .ok c => combine inp rest cur c
    else if ordinary tok then combine inp rest (cur ++ [tok]) c
    else if tok = ['|'] then combine inp rest [] (c.push cur)
    else if tok = ['>'] then
      match rest with
      | [] => .crashed
      | name :: rest =>
        match c.vars.createFile inp.opens name with
        | none => .crashed
        | some v =>
          combine inp rest [] { c.push cur with vars := v, server := c.server.print [.fflush] }
    else if tok.head? = some '!' then
      match strtok '!' tok with
      | none => .crashed
      | some n => combine inp rest [] ((c.push cur).pipeOut true (atoi n))
    else if tok.head? = some '|' then
      match strtok '|' tok with
      | none => .crashed
      | some n => combine inp rest [] ((c.push cur).pipeOut false (atoi n))
    else
      match strtok '>' tok with
      | none => .crashed
      | some n =>
        match (c.push cur).makeUserPipe (atoi n) with
        | .error e => .rejected { c.push cur with server := c.server.print e.entries } e
        | .ok c => combine inp rest [] c

/-- The builtins the shell of project 1 does not have. -/
def tellCmd : Token := ['t', 'e', 'l', 'l']
def yellCmd : Token := ['y', 'e', 'l', 'l']
def whoCmd : Token := ['w', 'h', 'o']
def nameCmd : Token := ['n', 'a', 'm', 'e']
def batchCmd : Token := ['b', 'a', 't', 'c', 'h']

/-- The variables at the beginning of a call. -/
def startVars (s : Server) (u : ℕ) : Vars where
  kernel := s.kernel
  numPipeVec := (s.user u).numPipeVec
  numPipeInFlag := false
  numPipeOutFlag := false
  shockPipeOutFlag := false
  writeFileFlag := false
  namePipeIn := none
  namePipeOut := none
  pipeOutNum := 1
  fdIn := 0
  redirectionFileName := List.replicate 100 '\x00'

/-- A call before its first token, after the countdown. -/
def startCall (s : Server) (u : ℕ) : Call where
  u := u
  server := s
  vars := (startVars s u).countdown
  sender := none
  receiver := none
  process := []
  lineEndWithPipe := false
  spawned := []

/-- Tokens, countdown and combining. A line of `tell` or `yell` is one process as it stands. -/
def parse (s : Server) (u : ℕ) (inp : LineInput) : Parse :=
  match tokens ' ' inp.line with
  | [] => .crashed
  | tok :: rest =>
    if tok = tellCmd ∨ tok = yellCmd then .ok ((startCall s u).push (tok :: rest))
    else combine inp (tok :: rest) [] (startCall s u)

/-- The pipes of the users as the process loop sees them. -/
def Call.resolve (c : Call) : Call :=
  { c with vars := { c.vars with
      namePipeIn := c.sender.map fun s => (c.server.user c.u).namePipe (s - 1)
      namePipeOut := c.receiver.map fun r => ((c.server.user (r - 1)).namePipe c.u).2 } }

/-- The words of a message, each followed by a blank. -/
def messageText (words : List Token) : List Char := words.flatMap fun w => w ++ [' ']

/-- The lines of `who`. -/
def whoEntries (s : Server) (sock : ℕ) : List LogEntry :=
  .printf "<ID>\t<nickname>\t<IP/port> \t<indicate me>\n".toList ::
    s.validUsers.map fun (i : ℕ) =>
      .printf (decimal (i + 1) ++ "\t".toList ++ (s.user i).name ++ "\tCGILAB/511\t".toList ++
        (if (s.user i).sock = sock then "<-me\n".toList else "\n".toList))

/-- `exit`: the records from and to the user are cleared, and the slot is free. -/
def exitUser (s : Server) (u : ℕ) : Server :=
  let s := s.broadcastMsg ("*** User '".toList ++ (s.user u).name ++ "' left. ***\n".toList)
  let s := { s with namePipeRecord := fun i j =>
    if 1 ≤ i ∧ i ≤ qlen ∧ 1 ≤ j ∧ j ≤ qlen ∧ (i = u + 1 ∨ j = u + 1) then false
    else s.namePipeRecord i j }
  s.modifyUser u fun w => { w with valid := false }

/-- `tell`. -/
def tell (s : Server) (u : ℕ) (receiver : Token) (words : List Token) : Server :=
  let id := atoi receiver
  if s.checkIdExist id then
    s.print [.write (s.user (id.toNat - 1)).sock ("*** ".toList ++ (s.user u).name ++
      " told you ***: ".toList ++ messageText words ++ "\n".toList)]
  else
    s.print [.printf ("*** Error: user #".toList ++ decimal id ++
      " does not exist yet. ***\n".toList)]

/-- `yell`. -/
def yell (s : Server) (u : ℕ) (words : List Token) : Server :=
  s.broadcastMsg ("*** ".toList ++ (s.user u).name ++ " yelled ***: ".toList ++ messageText words ++
    "\n".toList)

/-- `name`. -/
def rename (s : Server) (u : ℕ) : List Token → Server
  | [] => s.modifyUser u fun w => { w with name := "(no name)".toList }
  | name :: _ =>
    if s.checkNameExist name then
      s.print [.printf (" *** User '".toList ++ name ++ "' already exists. ***\n".toList)]
    else
      let s := s.modifyUser u fun w => { w with name := name }
      s.broadcastMsg ("*** User from CGILAB/511 is named '".toList ++ name ++ "'. ***\n".toList)

/-- `printenv`. -/
def printenv (s : Server) (u : ℕ) : List Token → Server
  | [] => s
  | name :: _ =>
    match s.environ name with
    | none => s
    | some value => s.print [.write (s.user u).sock (value ++ ['\n'])]

/-- `setenv`: whatever the variable is, `env` of the user becomes the value. -/
def setenvUser (s : Server) (u : ℕ) : List Token → Server
  | name :: value :: _ =>
    { s.modifyUser u fun w => { w with env := value } with environ := setenv s.environ name value }
  | _ => s

/-- `printenv` prints by way of an array of 200 characters. -/
def printenvFits (environ : Environ) : List Token → Bool
  | [] => true
  | name :: _ => (environ name).all fun value => value.length + 2 ≤ 200

/-- The size of `env` in `struct User`. -/
def setenvFits : List Token → Bool
  | _ :: value :: _ => value.length + 1 ≤ 200
  | _ => true

/-- The size of `name` in `struct User`, which a name that is taken already does not come to. -/
def renameFits (s : Server) : List Token → Bool
  | [] => true
  | name :: _ => s.checkNameExist name || decide (name.length + 1 ≤ 30)

/-- Fork one command. The child of a user pipe announces it. -/
def Call.fork (c : Call) (inp : LineInput) (processCount : ℕ) (last : Bool) (argv : List Token) :
    Call :=
  let (v, child) := c.vars.forkProcess inp.opens processCount last
  let server := match c.vars.namePipeOut, v.namePipeOut, c.receiver with
    | some _, none, some r => c.server.broadcastMsg (pipedMsg c.server c.u r inp.command)
    | _, _, _ => c.server
  { c with vars := v, server := server, spawned := c.spawned ++ [⟨argv, child⟩] }

/-- What one turn of the process loop leads to. -/
inductive Row where
  | next (c : Call)
  | exited (c : Call)
  | crashed

/-- One turn of the process loop: a builtin, or a fork. -/
def execRow (inp : LineInput) (processCount : ℕ) (last : Bool) (argv : List Token) (c : Call) : Row :=
  match argv with
  | [] => .crashed
  | cmd :: args =>
    if cmd = Shell.printenvCmd then
      if printenvFits c.server.environ args then .next { c with server := printenv c.server c.u args }
      else .crashed
    else if cmd = Shell.setenvCmd then
      if setenvFits args then .next { c with server := setenvUser c.server c.u args } else .crashed
    else if cmd = Shell.exitCmd then .exited { c with server := exitUser c.server c.u }
    else if cmd = batchCmd then
      if args ≠ [] ∧ inp.batch then .next c else .crashed
    else if cmd = whoCmd then
      .next { c with server := c.server.print (whoEntries c.server (c.server.user c.u).sock) }
    else if cmd = tellCmd then
      match args with
      | [] => .crashed
      | id :: words => .next { c with server := tell c.server c.u id words }
    else if cmd = yellCmd then .next { c with server := yell c.server c.u args }
    else if cmd = nameCmd then
      if renameFits c.server args then .next { c with server := rename c.server c.u args } else .crashed
    else .next (c.fork inp processCount last argv)

/-- The process loop from a row of `process` on. -/
def execRows (inp : LineInput) (processCount : ℕ) : List (List Token) → Call → Row
  | [], c => .next c
  | argv :: rest, c =>
    match execRow inp processCount rest.isEmpty argv c with
    | .next c => execRows inp processCount rest c
    | r => r

/-- How a call of `npshell` ends: the server, whether it returned 0, the children it forked, the
    error for which the line was rejected, and the rows of `process` it executed. -/
structure Return where
  server : Server
  zero : Bool
  spawned : List Spawn
  error : Option PipeError

/-- `npshell` on a line that is not blank. -/
def npshellLine (s : Server) (u : ℕ) (inp : LineInput) : Option Return :=
  match parse s u inp with
  | .crashed => none
  | .rejected c e => some ⟨c.leave, false, [], some e⟩
  | .ok c =>
    match execRows inp c.process.length c.process c.resolve with
    | .crashed => none
    | .exited c => some ⟨c.leave, true, c.spawned, none⟩
    | .next c => some ⟨c.leave, false, c.spawned, none⟩

/-- `npshell`: `PATH` is set first. A blank line returns what `read` returned. -/
def npshell (s : Server) (u : ℕ) (inp : LineInput) : Option Return :=
  let s := { s with environ := setenv s.environ ['P', 'A', 'T', 'H'] (s.user u).env }
  if inp.line = [] then some ⟨s, false, [], none⟩ else npshellLine s u inp

/-! ### The select loop -/

/-- The descriptors `main` has before the first client: the inherited ones, `msock`, and the copies
    `fd_in`, `fd_out` and `fd_err`. -/
def msock : ℕ := 3
def fdIn : ℕ := 4
def fdOut : ℕ := 5
def fdErr : ℕ := 6

/-- The server before its first client. -/
def init (environ : Environ) : Server where
  user := fun i => ⟨false, i + 1, 0, [], [], [], 0, false, false, [], fun _ => (0, 0)⟩
  namePipeRecord := fun _ _ => false
  kernel := ⟨⟨[some (.own 0), some (.own 1), some (.own 2), some .listen,
    some (.own 0), some (.own 1), some (.own 2)]⟩, 0, []⟩
  afds := {msock}
  environ := setenv environ ['P', 'A', 'T', 'H'] "bin:.".toList
  accepted := 0
  log := []

/-- `dup2` of three descriptors onto 0, 1 and 2. -/
def dupStd (s : Server) (i o e : ℕ) : Server :=
  { s with kernel := ((s.kernel.dup2 i 0).dup2 o 1).dup2 e 2 }

/-- What `select` reports: a client to accept (with the value `space_ind` has in memory before it is
    set), a line of a client, or the end of a client's input. -/
inductive Input where
  | accept (addr : List Char) (port junk : ℕ)
  | line (fd : ℕ) (inp : LineInput)
  | eof (fd : ℕ)

/-- The slot a new client gets: the first free one, or else what `space_ind` held. -/
def spaceInd (s : Server) (junk : ℕ) : ℕ :=
  ((List.range qlen).find? fun i => !(s.user i).valid).getD junk

/-- `welcome_msg`. -/
def welcomeMsg : List Char :=
  "****************************************\n** Welcome to the information server. **\n****************************************\n".toList

/-- A new client. An index outside of the table is not defined. -/
def acceptClient (s : Server) (addr : List Char) (port junk : ℕ) : Option Server :=
  let i := s.spaceInd junk
  if i < qlen then
    let (k, ssock) := s.kernel.alloc (.sock s.accepted)
    let s := { s with kernel := k, accepted := s.accepted + 1, afds := insert ssock s.afds }
    let s := s.print [.cout ("client[".toList ++ decimal (i + 1) ++ "] connected from".toList ++
      addr ++ "/".toList ++ decimal port)]
    let s := s.modifyUser i fun w => { w with
      valid := true
      sock := ssock
      addr := addr
      env := "bin:.".toList
      name := "(no name)".toList
      port := port
      batchFlag := false
      ignore := false }
    let s := s.print [.write ssock welcomeMsg]
    let s := s.broadcastMsg "*** User '(no name)' entered from CGILAB/511. ***\n".toList
    some (s.print [.write ssock "% ".toList])
  else none

/-- After `npshell`: the standard descriptors are restored, and a client that has left is closed. -/
def finish (s : Server) (fd u : ℕ) (zero : Bool) : Server :=
  if zero then
    let s := s.dupStd fdIn fdOut fdErr
    let s := s.print [.cout ("client[".toList ++ decimal (u + 1) ++ "] disconnect.".toList)]
    { s with kernel := s.kernel.close fd, afds := s.afds.erase fd }
  else (s.print [.write fd "% ".toList]).dupStd fdIn fdOut fdErr

/-- One turn of the loop for one ready descriptor. A descriptor of no user is not defined. -/
def step (s : Server) : Input → Option (Server × List Spawn × Option PipeError)
  | .accept addr port junk => (s.acceptClient addr port junk).map fun s => (s, [], none)
  | .line fd inp =>
    if fd ∈ s.afds ∧ fd ≠ msock then
      match s.findFdUser fd with
      | none => none
      | some u =>
        match npshell (s.dupStd fd fd fd) u inp with
        | none => none
        | some r => some (r.server.finish fd u r.zero, r.spawned, r.error)
    else none
  | .eof fd =>
    if fd ∈ s.afds ∧ fd ≠ msock then
      match s.findFdUser fd with
      | none => none
      | some u =>
        match npshell (s.dupStd fd fd fd) u ⟨[], [], ⟨false, false, none⟩, false⟩ with
        | none => none
        | some r => some (r.server.finish fd u true, r.spawned, r.error)
    else none

/-- A run over some inputs. -/
def run : Server → List Input → Option Server
  | s, [] => some s
  | s, i :: is => (s.step i).bind fun r => r.1.run is

end Server
end NetProg
