import NetProg.Lib.Network
import NetProg.Process

/-! The programs that shells fork, as nodes of a network: what their descriptors let them read and write. -/

namespace NetProg

/-- What can be written to: a pipe, the terminal of the shell, the socket of a client, or a file. -/
inductive Channel where
  | pipe (id : ℕ)
  | terminal
  | sock (n : ℕ)
  | file (name : List Char)
  deriving DecidableEq

/-- The channel a descriptor writes to. -/
def writeChannel : Option Desc → Option Channel
  | some (.pipeW id) => some (.pipe id)
  | some (.own 1) => some .terminal
  | some (.sock n) => some (.sock n)
  | some (.file name) => some (.file name)
  | _ => none

/-- The channel a descriptor reads from. -/
def readChannel : Option Desc → Option Channel
  | some (.pipeR id) => some (.pipe id)
  | _ => none

/-- The program a child becomes at its `execvp`. -/
def Spawn.node (s : Spawn) (program : StreamProgram UInt8) : NetNode Channel UInt8 :=
  .start program (readChannel (s.fds.get 0)) (writeChannel (s.fds.get 1)) (s.fds.slots.filterMap writeChannel)

/-- Whether a process keeps a channel open for writing. -/
def Kernel.holdsWrite (k : Kernel) (c : Channel) : Bool := k.fds.slots.any fun d => writeChannel d == some c

/-- A pipe takes so many unread bytes, everything else any number. -/
def room (cap : ℕ) : Channel → Option ℕ
  | .pipe _ => some cap
  | _ => none

/-- A program holds the channel it writes to. -/
theorem Spawn.sink_holds (s : Spawn) {k : Channel} (h : writeChannel (s.fds.get 1) = some k) :
    k ∈ s.fds.slots.filterMap writeChannel := by
  refine List.mem_filterMap.2 ⟨s.fds.get 1, ?_, h⟩
  rw [FdTable.get, List.getD_eq_getElem?_getD]
  cases hs : s.fds.slots[1]? with
  | none =>
    rw [FdTable.get, List.getD_eq_getElem?_getD, hs] at h
    cases h
  | some d => exact List.mem_of_getElem? hs

end NetProg
