import NetProg.Lib.Log
import NetProg.Server.Model

/-! Where the shells of `np_simple` (`npshell_1.h`) and `np_multi_proc` (`npshell_3.h`) take their lines
    from: the client, and a file once `batch` was executed.

    The five variables of batch mode are modelled, with the flag `ignore` that makes a turn of the loop
    skip its line, and the countdowns of the number pipes. What the programs of a line do is left to
    `World`: they may read the client's next lines, a line may be refused half-way for its user pipes, and
    the shell may not get past it. -/

namespace NetProg.Batch

open Server (batchCmd tellCmd yellCmd whoCmd nameCmd)

/-- `npshell_1.h` and `npshell_3.h`. -/
inductive Program where
  | simple
  | multi
  deriving DecidableEq

/-- `line[i] < 20`, where `char` may be signed. -/
def below20 (signed : Bool) (c : Char) : Bool := c.toNat < 20 || (signed && 128 ≤ c.toNat)

/-- What the shell makes of a line the client types. -/
def typed (signed : Bool) (l : List Char) : List Char := l.takeWhile fun c => !below20 signed c

/-- The strings `fgets` stores in arrays of 20 characters; `cur` is the one being read. -/
def fgetsAux : List Char → List Char → List (List Char)
  | [], cur => if cur = [] then [] else [cur]
  | c :: cs, cur =>
    if c = '\n' ∨ cur.length = 18 then (cur ++ [c]) :: fgetsAux cs [] else fgetsAux cs (cur ++ [c])

/-- The strings of a file. -/
def fgetsAll (text : List Char) : List (List Char) := fgetsAux text []

/-- A file without NULs. -/
structure TextFile where
  chars : List Char
  text : '\x00' ∉ chars

/-- Whether a token is part of a command. -/
def word (p : Program) (tok : Token) : Bool :=
  Shell.ordinary tok && !(p == .multi && tok.head? == some '<')

/-- The rows of `process`; `cur` is the row being filled. Only `npshell_3.h` takes `<id` out of it. -/
def rows (p : Program) : List Token → List Token → List (List Token)
  | [], cur => if cur = [] then [] else [cur]
  | tok :: rest, cur =>
    if word p tok then rows p rest (cur ++ [tok])
    else if tok.head? = some '<' then rows p rest cur
    else if tok = ['>'] then
      match rest with
      | [] => []
      | _ :: rest => cur :: rows p rest []
    else cur :: rows p rest []

/-- A message of `tell` or `yell`, which is one row as it stands. -/
def message (p : Program) (toks : List Token) : Bool :=
  p == .multi && (toks.head? == some tellCmd || toks.head? == some yellCmd)

/-- The rows of a line. -/
def lineRows (p : Program) (toks : List Token) : List (List Token) :=
  if message p toks then [toks] else rows p toks []

/-- Whether there is a user pipe among the tokens. -/
def userPipe : List Token → Bool
  | [] => false
  | tok :: rest =>
    if tok = ['>'] then
      match rest with
      | [] => false
      | _ :: rest => userPipe rest
    else tok.head? = some '<' || tok.head? = some '>' || userPipe rest

/-- Whether a line may be refused. -/
def asks (p : Program) (toks : List Token) : Bool := p == .multi && !message p toks && userPipe toks

/-- `batch` and the name of a file. -/
def isBatch (p : Program) : List Token → Bool
  | [cmd, name] => cmd == batchCmd && word p name
  | _ => false

/-- The commands the shell executes itself. -/
def builtin (p : Program) (cmd : Token) : Bool :=
  cmd ∈ [Shell.printenvCmd, Shell.setenvCmd, Shell.exitCmd, batchCmd] ||
    p == .multi && cmd ∈ [whoCmd, tellCmd, yellCmd, nameCmd]

/-- The countdowns of the tokens `|N` and `!N`. `npshell_1.h` takes `>x` for one of them. -/
def numPipeLines (p : Program) : List Token → List ℤ
  | [] => []
  | tok :: rest =>
    if tok = ['>'] then
      match rest with
      | [] => []
      | _ :: rest => numPipeLines p rest
    else if tok.head? = some '!' then atoi ((strtok '!' tok).getD []) :: numPipeLines p rest
    else if word p tok ∨ tok = ['|'] ∨ p = .multi ∧ tok.head? ≠ some '|' then numPipeLines p rest
    else atoi ((strtok '|' tok).getD []) :: numPipeLines p rest

/-- Those of a line: with one of them `line_end_with_pipe` is 1. -/
def lineNumbers (p : Program) (toks : List Token) : List ℤ :=
  if message p toks then [] else numPipeLines p toks

/-- Whether a row is executed by a child. -/
def external (p : Program) : List Token → Bool
  | [] => false
  | cmd :: _ => !builtin p cmd

/-- Whether no child is left behind a line, given whether there was none before it. The wait loop is
    skipped for a line that ends with a number pipe. -/
def waits (p : Program) (waited : Bool) (line : List Char) : Bool :=
  lineNumbers p (tokens ' ' line) = [] || waited && !(lineRows p (tokens ' ' line)).any (external p)

/-- What the lines up to now leave to the next. `numPipeVec` has the `rest_line`s, `waited` tells that no
    child is left, and `lines` are those that can matter to the programs and the other users. -/
structure Past where
  lines : List (List Char)
  numPipeVec : List ℤ
  numPipeInFlag : Bool
  waited : Bool

namespace Past

/-- The countdown of a line with a token. -/
def countdown (past : Past) : Past :=
  let vec := past.numPipeVec.map (· - 1)
  { past with numPipeVec := vec, numPipeInFlag := past.numPipeInFlag || vec.any (· = 0) }

/-- A token `|N` or `!N`. -/
def numberPipe (past : Past) (n : ℤ) : Past :=
  if n ∈ past.numPipeVec then past else { past with numPipeVec := past.numPipeVec ++ [n] }

/-- After a fork the pipes that are due are closed. -/
def reap (past : Past) : Past :=
  if past.numPipeInFlag then
    { past with numPipeVec := past.numPipeVec.filter (· ≠ 0), numPipeInFlag := false }
  else past

/-- A line is parsed. -/
def parse (p : Program) (line : List Char) (past : Past) : Past :=
  let toks := tokens ' ' line
  let counted := if toks = [] then past else past.countdown
  { (lineNumbers p toks).foldl numberPipe counted with
    lines := past.lines ++ [line]
    waited := waits p past.waited line }

/-- A line with no command, or `batch` and a name, does nothing to the programs when there is no child to
    wait for and no pipe to count. -/
def traced (p : Program) (line : List Char) (past : Past) : Bool :=
  let toks := tokens ' ' line
  !(p == .multi && line == []) &&
    !(past.waited && (toks == [] || isBatch p toks && past.numPipeVec == []))

end Past

/-- What a line comes to besides its builtins: it is executed, it is refused for a user pipe, or the shell
    does not get past it, for a crash or a wait loop that never ends. -/
inductive Fate where
  | runs
  | refused
  | crashes

/-- What the shell meets: the files, whether a `sprintf` with the line as its format returns, the fate of
    the last line, what its programs and those still running leave of the client's lines, and what `line`
    holds when nothing is read into it. -/
structure World where
  file : Past → Token → Option TextFile
  sprintf : List Char → Bool
  plain : ∀ l, '%' ∉ l → sprintf l = true
  fate : Past → Fate
  leaves : Past → List (List Char) → List (List Char)
  memory : Past → List Char

/-- The variables of the loop. `batchCommand` are the first `batch_count` rows of `batch_command`;
    `input` is what the client has still to type, and `entered` the lines that got past the test of
    `ignore`. -/
structure State where
  input : List (List Char)
  batchFlag : Bool
  batchCommand : List (List Char)
  batchCommandIndex : ℕ
  ignore : Bool
  halted : Bool
  past : Past
  entered : List (List Char)

namespace State

/-- `exit`, the end of a program that used a null pointer or ran over an array, or a wait loop for ever. -/
def halt (s : State) : State := { s with halted := true }

/-- `batch`: the strings of the file are put behind those that are there, and the first is next. -/
def load (w : World) (s : State) : List Token → State
  | [] => s.halt
  | name :: _ =>
    if name.length < 100 then
      match w.file s.past name with
      | none => s.halt
      | some f =>
        let commands := s.batchCommand ++ fgetsAll f.chars
        if commands.length ≤ 10 then
          { s with batchFlag := true, batchCommand := commands, batchCommandIndex := 0 }
        else s.halt
    else s.halt

/-- One row of `process`. -/
def execRow (p : Program) (w : World) (s : State) : List Token → State
  | [] => s.halt
  | cmd :: args =>
    if cmd = Shell.exitCmd then s.halt
    else if cmd = batchCmd then s.load w args
    else if builtin p cmd then s
    else { s with past := s.past.reap }

/-- The process loop. -/
def execRows (p : Program) (w : World) : List (List Token) → State → State
  | [], s => s
  | row :: rest, s =>
    let s := s.execRow p w row
    if s.halted then s else execRows p w rest s

/-- A line that is not ignored. Without a token `npshell_3.h` compares the null pointer. -/
def enter (p : Program) (w : World) (line : List Char) (s : State) : State :=
  let s := if line = [] then s else { s with entered := s.entered ++ [line] }
  let toks := tokens ' ' line
  if p = .multi ∧ toks = [] then s.halt
  else if s.past.traced p line then
    let past := s.past.parse p line
    let s := { s with past := past, input := w.leaves past s.input }
    match w.fate past with
    | .crashes => s.halt
    | .refused => if asks p toks then s else s.execRows p w (lineRows p toks)
    | .runs => s.execRows p w (lineRows p toks)
  else s.execRows p w (lineRows p toks)

/-- The rest of a turn, for what is in `line`. Once `ignore` is 1, `npshell_1.h` leaves it so. -/
def take (p : Program) (w : World) (line : List Char) (s : State) : State :=
  match p with
  | .simple => if s.ignore then s else s.enter .simple w line
  | .multi =>
    if w.sprintf line = false then s.halt
    else if line = [] ∨ s.ignore = true then { s with ignore := false }
    else s.enter .multi w line

/-- What `line` holds when nothing is read into it. -/
def oldLine (p : Program) (w : World) (s : State) : List Char :=
  match p with
  | .simple => w.memory s.past
  | .multi => []

/-- What is in `line`, and the variables afterwards; `none` while the client types nothing. -/
def source (p : Program) (signed : Bool) (w : World) (s : State) : Option (List Char × State) :=
  if s.batchFlag then
    if s.batchCommand = [] then some (s.oldLine p w, s)
    else match s.batchCommand[s.batchCommandIndex]? with
      | some cmd => some (cmd.dropLast, { s with batchCommandIndex := s.batchCommandIndex + 1 })
      | none => some (s.oldLine p w, { s with
          batchFlag := false, batchCommand := [], batchCommandIndex := 0, ignore := true })
  else match s.input with
    | [] => none
    | l :: ls => some (typed signed l, { s with input := ls })

/-- One turn of the loop. -/
def turn (p : Program) (signed : Bool) (w : World) (s : State) : State :=
  if s.halted then s
  else match s.source p signed w with
    | none => s
    | some (line, s) => s.take p w line

/-- The shell at a prompt. -/
def prompt (past : Past) (input : List (List Char)) : State where
  input := input
  batchFlag := false
  batchCommand := []
  batchCommandIndex := 0
  ignore := false
  halted := false
  past := past
  entered := []

end State

/-- The name of a file, as one word a client can type. -/
structure FileName (p : Program) (signed : Bool) where
  token : Token
  ne : token ≠ []
  word : word p token = true
  blank : ' ' ∉ token
  keys : ∀ c ∈ token, below20 signed c = false

/-- The line `batch` with the name of a file. -/
def batchLine (name : Token) : List Char := batchCmd ++ ' ' :: name

/-! ### When the two agree -/

/-- What the rows of a line come to: nothing for the loop, its end, or a file that is read. -/
inductive RowsFate where
  | goes
  | stops
  | loads
  deriving DecidableEq

/-- A file that is read does not matter when a row behind it ends the loop. -/
def rowsFate : List (List Token) → RowsFate
  | [] => .goes
  | [] :: _ => .stops
  | (cmd :: args) :: rest =>
    if cmd = Shell.exitCmd then .stops
    else if cmd = batchCmd then
      match args with
      | [] => .stops
      | name :: _ => if name.length < 100 ∧ rowsFate rest ≠ .stops then .loads else .stops
    else rowsFate rest

/-- The forks of some rows. -/
def Past.reaps (p : Program) (past : Past) (rows : List (List Token)) : Past :=
  rows.foldl (fun past row => if external p row then past.reap else past) past

/-- Rows that read no file. -/
def Past.exec (p : Program) (past : Past) (rows : List (List Token)) : Option Past :=
  if rowsFate rows = .stops then none else some (past.reaps p rows)

/-- What a line that reads no file leaves, unless the shell does not get past it. -/
def Past.after (p : Program) (w : World) (line : List Char) (past : Past) : Option Past :=
  let toks := tokens ' ' line
  if p = .multi ∧ w.sprintf line = false then none
  else if p = .multi ∧ line = [] then some past
  else if p = .multi ∧ toks = [] then none
  else if past.traced p line then
    let past := past.parse p line
    match w.fate past with
    | .crashes => none
    | .refused => if asks p toks then some past else past.exec p (lineRows p toks)
    | .runs => past.exec p (lineRows p toks)
  else past.exec p (lineRows p toks)

/-- No program of some lines reads what the client types. -/
def Sober (p : Program) (w : World) : List (List Char) → Past → Prop
  | [], _ => True
  | l :: ls, past =>
    (past.traced p l = true → ∀ input, w.leaves (past.parse p l) input = input) ∧
      ∀ next, past.after p w l = some next → Sober p w ls next

/-- No number pipe is pending, and no program is running. -/
structure Clean (past : Past) : Prop where
  numPipeVec : past.numPipeVec = []
  waited : past.waited = true

/-- Batch equals typing: at a prompt where no pipe is pending and no child is left, and for programs that
    leave the client's lines alone, the lines entered after the line `batch` are those that are entered when
    the lines of the file are typed in its place, whatever is typed later. -/
def Equal (p : Program) (signed : Bool) (name : FileName p signed) (f : TextFile) : Prop :=
  ∀ (w : World) (past : Past) (later : List (List Char)), w.file past name.token = some f → Clean past →
    Sober p w ((getLines f.chars).map (typed signed)) past → ∀ lines : List (List Char),
      Log.Logs (State.turn p signed w) State.entered (.prompt past (batchLine name.token :: later))
          (batchLine name.token :: lines) ↔
        Log.Logs (State.turn p signed w) State.entered (.prompt past (getLines f.chars ++ later)) lines

/-- The line reads a file. -/
def nests (p : Program) (l : List Char) : Bool := rowsFate (lineRows p (tokens ' ' l)) = .loads

/-- The line ends the session, whatever the other users do. -/
def ends (p : Program) (l : List Char) : Bool :=
  (p = .multi && tokens ' ' l = []) ||
    (rowsFate (lineRows p (tokens ' ' l)) = .stops && !asks p (tokens ' ' l))

/-- The lines without the empty ones that do nothing: `npshell_3.h` skips them all, and `npshell_1.h` may
    wait for its children. -/
def effective (p : Program) : Bool → List (List Char) → List (List Char)
  | _, [] => []
  | waited, l :: ls =>
    if l = [] ∧ (p = .multi ∨ waited = true) then effective p waited ls
    else l :: effective p (waits p waited l) ls

/-- The lines batch mode takes from a file, and those it has when it is typed. -/
def batchLines (p : Program) (f : TextFile) : List (List Char) :=
  effective p true ((fgetsAll f.chars).map List.dropLast)

def typedLines (p : Program) (signed : Bool) (f : TextFile) : List (List Char) :=
  effective p true ((getLines f.chars).map (typed signed))

/-- The lines are the same and none reads a file, up to one that ends the session. `npshell_1.h` must
    come to such a line. -/
def Agree (p : Program) : List (List Char) → List (List Char) → Prop
  | [], [] => p = .multi
  | a :: as, b :: bs => a = b ∧ nests p a = false ∧ (ends p a = true ∨ Agree p as bs)
  | _, _ => False

/-- When batch mode does what typing does. -/
structure Fits (p : Program) (signed : Bool) (name : FileName p signed) (f : TextFile) : Prop where
  name_length : name.token.length < 100
  name_plain : p = .multi → '%' ∉ name.token
  nonempty : f.chars ≠ []
  count : (fgetsAll f.chars).length ≤ 10
  agree : Agree p (batchLines p f) (typedLines p signed f)

/-- No line of the file reads a file. -/
def Flat (p : Program) (signed : Bool) (f : TextFile) : Prop :=
  (∀ l ∈ batchLines p f, nests p l = false) ∧ ∀ l ∈ typedLines p signed f, nests p l = false

end NetProg.Batch
