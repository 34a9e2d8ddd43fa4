import NetProg.CString
import NetProg.Kernel

/-! The process loop of the shells: number pipes, and the branches that fork one command.

    `npshell.cpp`, `npshell_1.h` and `npshell_2.h` wire the descriptors of a command with the same
    code, in three branches (`> file`, `|N` and `!N`, ordinary); `npshell_2.h` adds a fourth for
    user pipes and one more source for the standard input. They are written once here over the
    variables of the loop. A shell without user pipes keeps `namePipeIn` and `namePipeOut` empty. -/

namespace NetProg

/-- `struct Number_pipe`. -/
structure NumberPipe where
  restLine : ℤ
  p0 : ℕ
  p1 : ℕ
  deriving DecidableEq

/-- `PipeDead`. -/
def PipeDead (t : NumberPipe) : Bool := t.restLine == 0

/-- Which of the `open` calls made for a line succeed: the one that creates the redirection file,
    the one the child writes it through, and the one on the name a user-pipe child never set. -/
structure Opens where
  creat : Bool
  redir : Bool
  junk : Option (List Char)
  deriving DecidableEq

/-- Why a shell stops: it ran `exit`, or it used a null pointer or ran over a buffer. -/
inductive Halt where | exited | crashed
  deriving DecidableEq

/-- A command at the moment of its `execvp`: the argument vector and the descriptors it holds. -/
structure Spawn where
  argv : List Token
  fds : FdTable Desc
  deriving DecidableEq

/-- The variables of the shell that decide where descriptors go. `namePipeIn` is the pair of
    descriptors of the user pipe to read while `name_pipe_in_flag` is 1, and `namePipeOut` the
    write end of the one to fill while `name_pipe_out_flag` is 1. -/
structure Vars where
  kernel : Kernel
  numPipeVec : List NumberPipe
  numPipeInFlag : Bool
  numPipeOutFlag : Bool
  shockPipeOutFlag : Bool
  writeFileFlag : Bool
  namePipeIn : Option (ℕ × ℕ)
  namePipeOut : Option ℕ
  pipeOutNum : ℕ
  fdIn : ℕ
  redirectionFileName : List Char
  deriving DecidableEq

namespace Vars

/-- The write ends that `close_0_rest_line_pipe_out` closes. -/
def deadOut (v : Vars) : List ℕ := (v.numPipeVec.filter PipeDead).map (·.p1)

/-- The read ends that `close_0_rest_line_pipe_in` closes. -/
def deadIn (v : Vars) : List ℕ := (v.numPipeVec.filter PipeDead).map (·.p0)

/-- `close_0_rest_line_pipe_out`. -/
def close0RestLinePipeOut (v : Vars) : Vars := { v with kernel := v.kernel.closeAll v.deadOut }

/-- `close_0_rest_line_pipe_in`. -/
def close0RestLinePipeIn (v : Vars) : Vars := { v with kernel := v.kernel.closeAll v.deadIn }

/-- `close(fd)`. -/
def close (v : Vars) (fd : ℕ) : Vars := { v with kernel := v.kernel.close fd }

/-- The countdown at the beginning of a line that has a token. -/
def countdown (v : Vars) : Vars :=
  let vec := v.numPipeVec.map fun t => { t with restLine := t.restLine - 1 }
  { v with numPipeVec := vec, numPipeInFlag := v.numPipeInFlag || vec.any PipeDead }

/-- The pipe of a `|N` or `!N` token: the pending one with the same countdown, or a new one. -/
def numberPipe (v : Vars) (n : ℤ) : Vars :=
  match v.numPipeVec.find? (fun t => n == t.restLine) with
  | some t => { v with pipeOutNum := t.p1 }
  | none =>
    { v with
      kernel := v.kernel.pipe
      pipeOutNum := v.kernel.pipeFd1
      numPipeVec := v.numPipeVec ++ [⟨n, v.kernel.pipeFd0, v.kernel.pipeFd1⟩] }

/-- `f = open(redirection_file_name, O_CREAT); close(f)` on the name copied into the buffer. -/
def createFile (v : Vars) (opens : Opens) (name : Token) : Option Vars :=
  match strncpy v.redirectionFileName name with
  | none => none
  | some buf =>
    let v := { v with writeFileFlag := true, redirectionFileName := buf }
    if opens.creat then
      let (k, f) := v.kernel.alloc (.file (cString buf))
      some { v with kernel := k.close f }
    else some v

/-! ### One fork -/

/-- Just before `fork()`: the shell gives up the write ends its new child reads from. -/
def beforeFork (v : Vars) : Vars :=
  let v := v.close0RestLinePipeOut
  match v.namePipeIn with
  | some np => v.close np.2
  | none => v

/-- In the parent: the ends the child reads from are closed, and the due number pipes leave
    `num_pipe_vec`. -/
def afterFork (v : Vars) : Vars :=
  let v := if v.numPipeInFlag then
      let w := v.close0RestLinePipeIn
      { w with numPipeVec := w.numPipeVec.filter (fun t => !PipeDead t), numPipeInFlag := false }
    else v
  match v.namePipeIn with
  | some np => { v.close np.1 with namePipeIn := none }
  | none => v

/-- In the child: `dup2` of the due number pipe onto 0. -/
def dupDue (v : Vars) (t : FdTable Desc) : FdTable Desc :=
  match v.numPipeVec.find? PipeDead with
  | some e => t.dup2 e.p0 0
  | none => t

/-- In the child: where the standard input comes from, in the branches for a last command. -/
def childStdin (v : Vars) (t : FdTable Desc) : FdTable Desc :=
  if v.numPipeInFlag then v.dupDue t
  else match v.namePipeIn with
    | some np => t.dup2 np.1 0
    | none => t.dup2 v.fdIn 0

/-- In the child: `dup2` of a file opened at this moment onto 1. -/
def childFile (v : Vars) (opens : Opens) (t : FdTable Desc) : FdTable Desc :=
  if opens.redir then
    ((v.childStdin (t.alloc (.file (cString v.redirectionFileName)))).dup2 t.lowest 1)
  else v.childStdin t

/-- The branch for `> file`: the parent's variables afterwards and the child's descriptors. -/
def forkRedirect (v : Vars) (opens : Opens) (processCount : ℕ) : Vars × FdTable Desc :=
  let v := v.beforeFork
  let child := v.childFile opens v.kernel.fds
  let v := if processCount ≠ 1 then v.close v.fdIn else v
  ({ v.afterFork with writeFileFlag := false }, child)

/-- The branch for `|N` and `!N`. -/
def forkNumberPipe (v : Vars) (processCount : ℕ) : Vars × FdTable Desc :=
  let v := v.beforeFork
  let child := v.childStdin v.kernel.fds
  let child := if v.shockPipeOutFlag then child.dup2 v.pipeOutNum 2 else child
  let child := child.dup2 v.pipeOutNum 1
  let v := if processCount ≠ 1 then v.close v.fdIn else v
  ({ v.afterFork with numPipeOutFlag := false }, child)

/-- The branch for a user pipe with write end `out`. The child opens a file under a name that
    was never set. -/
def forkUserPipe (v : Vars) (opens : Opens) (out processCount : ℕ) : Vars × FdTable Desc :=
  let v := v.beforeFork
  let child := match opens.junk with
    | some name => v.kernel.fds.alloc (.file name)
    | none => v.kernel.fds
  let child := (v.childStdin child).dup2 out 1
  let v := if processCount ≠ 1 then v.close v.fdIn else v
  ({ v.afterFork with namePipeOut := none }, child)

/-- In the child of the ordinary branch, with the normal pipe `p0`, `p1` when there is one. -/
def childNormal (v : Vars) (processCount p0 p1 : ℕ) (last : Bool) (t : FdTable Desc) :
    FdTable Desc :=
  let t := if v.numPipeInFlag then v.dupDue t
    else match v.namePipeIn with
      | some np => t.dup2 np.1 0
      | none => t
  if processCount ≠ 1 then
    let t := if v.numPipeInFlag then t else t.dup2 v.fdIn 0
    let t := t.close p0
    if last then t else t.dup2 p1 1
  else t

/-- The ordinary branch: a line of several commands gets a new pipe for each of them. -/
def forkNormal (v : Vars) (processCount : ℕ) (last : Bool) : Vars × FdTable Desc :=
  let p0 := v.kernel.pipeFd0
  let p1 := v.kernel.pipeFd1
  let v := if processCount ≠ 1 then { v with kernel := v.kernel.pipe } else v
  let v := v.beforeFork
  let child := v.childNormal processCount p0 p1 last v.kernel.fds
  let v := if processCount ≠ 1 then
      let v := { v.close p1 with fdIn := p0 }
      if last then v.close p0 else v
    else v
  (v.afterFork, child)

/-- The choice of the branch: the first three are for the last command of a line only. -/
def forkProcess (v : Vars) (opens : Opens) (processCount : ℕ) (last : Bool) :
    Vars × FdTable Desc :=
  if v.writeFileFlag && last then v.forkRedirect opens processCount
  else if (v.shockPipeOutFlag || v.numPipeOutFlag) && last then v.forkNumberPipe processCount
  else match v.namePipeOut, last with
    | some out, true => v.forkUserPipe opens out processCount
    | _, _ => v.forkNormal processCount last

end Vars
end NetProg
