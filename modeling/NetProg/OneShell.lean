import NetProg.Lib.Population
import NetProg.PathSearch
import NetProg.Server.Waiting

/-! How many processes run the program of a session: the shell of project 1, and the single-process
    server.

    A child whose `execvp` fails exits only if `checkFileInPATH` finds no file. Otherwise it falls out of
    its branch and executes the next row of `process`, as its parent does. The pipes that two such
    processes make are not told apart. -/

namespace NetProg

/-- The variables of a child behind its `execvp`, with the descriptors it has there. -/
def Vars.behindExec (v : Vars) (processCount : ℕ) (last : Bool) (fds : FdTable Desc) : Vars :=
  { v with kernel := { v.forkKernel processCount last with fds := fds } }

/-- A child is still a process of the program. -/
def Spawn.goesOn (s : Spawn) (files : Files) (environ : Environ) : Bool :=
  files.goesOn environ (s.argv.headD [])

namespace OneShell

open Population (Single Acting)

/-- A builtin, or the name of a command whose program runs or of which there is no file. -/
def RowSettled (builtins : List Token) (files : Files) (environ : Environ) : List Token → Prop
  | [] => True
  | cmd :: _ => cmd ∉ builtins → files.Settles environ cmd

/-- The child of a row does not go on, if the row forks one, exactly when the row is settled. -/
theorem filter_goesOn_nil_iff (files : Files) (environ : Environ) {cmd : Token} {args : List Token}
    {builtins : List Token} {spawned : List Spawn} {fds : FdTable Desc}
    (h : spawned = if cmd ∈ builtins then [] else [⟨cmd :: args, fds⟩]) :
    spawned.filter (·.goesOn files environ) = [] ↔ RowSettled builtins files environ (cmd :: args) := by
  rw [h, RowSettled]
  by_cases hcmd : cmd ∈ builtins
  · simp [hcmd]
  · have hiff : Spawn.goesOn ⟨cmd :: args, fds⟩ files environ = true ↔ ¬ files.Settles environ cmd :=
      files.goesOn_iff environ cmd
    simp only [hcmd, if_false, List.filter_eq_nil_iff, List.mem_singleton, forall_eq, hiff, not_not,
      not_false_eq_true, true_implies]

/-! ### The shell of project 1 -/

section

open Shell

/-- What a process of the shell does next: it reads a line, executes a row of `process` while there are
    these files, comes to the end of the process loop or to the end of its `wait` loop. -/
inductive ShellAct where
  | type (inp : LineInput)
  | process (files : Files)
  | endLine
  | waited

/-- The processes of the shell an act of one leaves. -/
def shellLeaves : Shell × Phase → ShellAct → Option (List (Shell × Phase))
  | (s, .prompt), .type inp =>
    match s.parse inp with
    | .ok p => some [({ s with vars := p.vars },
        .exec p.process p.process.length inp.opens p.lineEndWithPipe)]
    | .error _ => some []
  | (s, .exec (row :: rows) pc opens w), .process files =>
    match execProcess opens pc rows.isEmpty row ⟨s.vars, s.environ, [], []⟩ with
    | .error _ => some []
    | .ok e =>
      let left := e.spawned.filter (·.goesOn files s.environ)
      some ((⟨e.vars, e.environ⟩, .exec rows pc opens w) :: left.map fun child =>
        (⟨s.vars.behindExec pc rows.isEmpty child.fds, s.environ⟩, .exec rows pc opens w))
  | (s, .exec [] _ _ w), .endLine => some [(s, if w then .prompt else .wait)]
  | (s, .wait), .waited => some [(s, .prompt)]
  | _, _ => none

/-- The words that are not looked up in `PATH`. -/
def shellBuiltins : List Token := [printenvCmd, setenvCmd, exitCmd]

/-- A row is settled when it is executed. -/
def ShellSettled (p : Shell × Phase) (a : ShellAct) : Prop :=
  match p.2, a with
  | .exec (row :: _) _ _ _, .process files => RowSettled shellBuiltins files p.1.environ row
  | _, _ => True

/-- A row forks one child, unless it is a builtin. -/
theorem execProcess_spawned {opens : Opens} {pc : ℕ} {last : Bool} {cmd : Token} {args : List Token}
    {e e' : Exec} (h : execProcess opens pc last (cmd :: args) e = .ok e') :
    ∃ fds, e'.spawned = e.spawned ++ if cmd ∈ shellBuiltins then [] else [⟨cmd :: args, fds⟩] := by
  rw [execProcess.eq_def] at h
  dsimp only at h
  by_cases hcmd : cmd ∈ shellBuiltins
  · have hsame : e'.spawned = e.spawned := by
      split_ifs at h with h1 h2 h3
      · cases args with
        | nil => exact (Except.ok.inj h) ▸ rfl
        | cons name rest =>
          dsimp only at h
          split at h <;> exact (Except.ok.inj h) ▸ rfl
      · split at h <;> exact (Except.ok.inj h) ▸ rfl
      · exact absurd hcmd (by simp [shellBuiltins, h1, h2, h3])
    exact ⟨⟨[]⟩, by simp [hcmd, hsame]⟩
  · have hne : cmd ≠ printenvCmd ∧ cmd ≠ setenvCmd ∧ cmd ≠ exitCmd := by simpa [shellBuiltins] using hcmd
    rw [if_neg hne.1, if_neg hne.2.1, if_neg hne.2.2] at h
    obtain rfl := Except.ok.inj h
    exact ⟨_, by rw [if_neg hcmd]; rfl⟩

/-- Nothing is forked by a row that ends the shell. -/
theorem rowSettled_of_error {opens : Opens} {pc : ℕ} {last : Bool} {row : List Token} {e : Exec}
    {halt : Halt} (files : Files) (environ : Environ) (h : execProcess opens pc last row e = .error halt) :
    RowSettled shellBuiltins files environ row := by
  cases row with
  | nil => trivial
  | cons cmd args =>
    intro hcmd
    have hne : cmd ≠ printenvCmd ∧ cmd ≠ setenvCmd ∧ cmd ≠ exitCmd := by simpa [shellBuiltins] using hcmd
    rw [execProcess.eq_def] at h
    dsimp only at h
    rw [if_neg hne.1, if_neg hne.2.1, if_neg hne.2.2] at h
    cases h

/-- An act leaves a second process exactly for a command that is not settled. -/
theorem shellLeaves_single_iff (p : Shell × Phase) (a : ShellAct) (ps : List (Shell × Phase))
    (h : shellLeaves p a = some ps) : ps.length ≤ 1 ↔ ShellSettled p a := by
  obtain ⟨s, phase⟩ := p
  cases phase with
  | prompt =>
    cases a with
    | type inp =>
      simp only [shellLeaves] at h
      split at h <;> exact (Option.some.inj h) ▸ by simp [ShellSettled]
    | _ => simp [shellLeaves] at h
  | wait =>
    cases a with
    | waited => exact (Option.some.inj h) ▸ by simp [ShellSettled]
    | _ => simp [shellLeaves] at h
  | exec rows pc opens w =>
    cases a with
    | type inp => cases rows <;> simp [shellLeaves] at h
    | waited => cases rows <;> simp [shellLeaves] at h
    | endLine =>
      cases rows with
      | nil => exact (Option.some.inj h) ▸ by simp [ShellSettled]
      | cons row rows => simp [shellLeaves] at h
    | process files =>
      cases rows with
      | nil => simp [shellLeaves] at h
      | cons row rows =>
        simp only [shellLeaves] at h
        cases he : execProcess opens pc rows.isEmpty row ⟨s.vars, s.environ, [], []⟩ with
        | error halt =>
          rw [he] at h
          obtain rfl := Option.some.inj h
          exact ⟨fun _ => rowSettled_of_error files s.environ he, fun _ => Nat.zero_le 1⟩
        | ok e =>
          rw [he] at h
          obtain rfl := Option.some.inj h
          cases row with
          | nil => simp [execProcess] at he
          | cons cmd args =>
            obtain ⟨fds, hspawned⟩ := execProcess_spawned he
            exact Iff.trans (by simp) (filter_goesOn_nil_iff files s.environ hspawned)

end

/-! ### The single-process server -/

section

open Server

/-- What a process of the server does next: `select` reports a client, a line or an end of input, a row of
    `process` is executed while there are these files, the process loop ends, or the `wait` loop. -/
inductive ServerAct where
  | accept (addr : List Char) (port junk : ℕ)
  | line (fd : ℕ) (inp : LineInput)
  | eof (fd : ℕ)
  | process (files : Files)
  | endLine
  | waited

/-- The processes of the server an act of one leaves. -/
def serverLeaves : Phase → ServerAct → Option (List Phase)
  | .select s, .accept addr port junk => (s.step (.accept addr port junk)).map fun r => [.select r.1]
  | .select s, .line fd inp => (s.beginLine fd inp).map fun phase => [phase]
  | .select s, .eof fd => (s.step (.eof fd)).map fun r => [.select r.1]
  | .exec fd inp (row :: rows) pc c, .process files =>
    match execRow inp pc rows.isEmpty row c with
    | .crashed => some []
    | .exited c' => some [.select (c'.leave.finish fd c'.u true)]
    | .next c' =>
      let left := (c'.spawned.drop c.spawned.length).filter (·.goesOn files c.server.environ)
      some (.exec fd inp rows pc c' :: left.map fun child =>
        .exec fd inp rows pc { c' with vars := c.vars.behindExec pc rows.isEmpty child.fds })
  | .exec fd _ [] _ c, .endLine =>
    some [if c.lineEndWithPipe then .select (c.leave.finish fd c.u false) else .wait fd c]
  | .wait fd c, .waited => some [.select (c.leave.finish fd c.u false)]
  | _, _ => none

/-- A row is settled when it is executed. -/
def ServerSettled (p : Phase) (a : ServerAct) : Prop :=
  match p, a with
  | .exec _ _ (row :: _) _ c, .process files => RowSettled builtinCmds files c.server.environ row
  | _, _ => True

/-- A word that is no builtin is forked. -/
theorem execRow_of_not_builtin {inp : LineInput} {pc : ℕ} {last : Bool} {cmd : Token} {args : List Token}
    {c : Call} (h : cmd ∉ builtinCmds) :
    execRow inp pc last (cmd :: args) c = .next (c.fork inp pc last (cmd :: args)) := by
  simp only [builtinCmds, List.mem_cons, List.not_mem_nil, or_false, not_or] at h
  obtain ⟨h1, h2, h3, h4, h5, h6, h7, h8⟩ := h
  rw [execRow.eq_def]
  simp only [h1, h2, h3, h4, h5, h6, h7, h8, if_false]

/-- A builtin forks nothing and sets no variable. -/
theorem execRow_builtin {inp : LineInput} {pc : ℕ} {last : Bool} {cmd : Token} {args : List Token}
    {c c' : Call} (hcmd : cmd ∈ builtinCmds) (h : execRow inp pc last (cmd :: args) c = .next c') :
    c'.vars = c.vars ∧ c'.spawned = c.spawned := by
  rw [execRow.eq_def] at h
  dsimp only at h
  split_ifs at h with h1 _ h2 _ _ h4 _ h6 h7 h8 h9
  · cases h; exact ⟨rfl, rfl⟩
  · cases h; exact ⟨rfl, rfl⟩
  · cases h; exact ⟨rfl, rfl⟩
  · cases h; exact ⟨rfl, rfl⟩
  · cases args with
    | nil => cases h
    | cons id words => cases h; exact ⟨rfl, rfl⟩
  · cases h; exact ⟨rfl, rfl⟩
  · cases h; exact ⟨rfl, rfl⟩
  · exact absurd hcmd (by simp [builtinCmds, *])

/-- A row forks one child, unless it is a builtin. -/
theorem execRow_spawned {inp : LineInput} {pc : ℕ} {last : Bool} {cmd : Token} {args : List Token}
    {c c' : Call} (h : execRow inp pc last (cmd :: args) c = .next c') :
    ∃ fds, c'.spawned = c.spawned ++ if cmd ∈ builtinCmds then [] else [⟨cmd :: args, fds⟩] := by
  by_cases hcmd : cmd ∈ builtinCmds
  · exact ⟨⟨[]⟩, by rw [if_pos hcmd, List.append_nil, (execRow_builtin hcmd h).2]⟩
  · rw [execRow_of_not_builtin hcmd] at h
    cases h
    exact ⟨_, by rw [if_neg hcmd]; rfl⟩

/-- An act leaves a second process exactly for a command that is not settled. -/
theorem serverLeaves_single_iff (p : Phase) (a : ServerAct) (ps : List Phase)
    (h : serverLeaves p a = some ps) : ps.length ≤ 1 ↔ ServerSettled p a := by
  cases p with
  | select s =>
    cases a with
    | accept addr port junk =>
      obtain ⟨r, -, rfl⟩ := Option.map_eq_some_iff.mp h
      simp [ServerSettled]
    | line fd inp =>
      obtain ⟨phase, -, rfl⟩ := Option.map_eq_some_iff.mp h
      simp [ServerSettled]
    | eof fd =>
      obtain ⟨r, -, rfl⟩ := Option.map_eq_some_iff.mp h
      simp [ServerSettled]
    | _ => cases h
  | wait fd c =>
    cases a with
    | waited => exact (Option.some.inj h) ▸ by simp [ServerSettled]
    | _ => cases h
  | exec fd inp rows pc c =>
    cases a with
    | endLine =>
      cases rows with
      | nil => exact (Option.some.inj h) ▸ by simp [ServerSettled]
      | cons row rows => simp [serverLeaves] at h
    | process files =>
      cases rows with
      | nil => simp [serverLeaves] at h
      | cons row rows =>
        simp only [serverLeaves] at h
        cases row with
        | nil =>
          obtain rfl := Option.some.inj h
          exact ⟨fun _ => trivial, fun _ => Nat.zero_le 1⟩
        | cons cmd args =>
          cases hr : execRow inp pc rows.isEmpty (cmd :: args) c with
          | next c' =>
            rw [hr] at h
            obtain rfl := Option.some.inj h
            obtain ⟨fds, hspawned⟩ := execRow_spawned hr
            have hchild : c'.spawned.drop c.spawned.length =
                if cmd ∈ builtinCmds then [] else [⟨cmd :: args, fds⟩] := by
              rw [hspawned, List.drop_left]
            exact Iff.trans (by simp) (filter_goesOn_nil_iff files c.server.environ hchild)
          | exited c' | crashed =>
            rw [hr] at h
            obtain rfl := Option.some.inj h
            refine ⟨fun _ hcmd => ?_, fun _ => by simp⟩
            rw [execRow_of_not_builtin hcmd] at hr
            cases hr
    | _ => cases rows <;> cases h

end

/-- Only acts that are possible are restricted. -/
theorem shellSettled_of_none (p : Shell × Shell.Phase) (a : ShellAct) (h : shellLeaves p a = none) :
    ShellSettled p a := by
  obtain ⟨s, phase⟩ := p
  unfold ShellSettled
  split
  · rename_i row rows pc opens w files hphase
    obtain rfl : phase = .exec (row :: rows) pc opens w := hphase
    simp only [shellLeaves] at h
    split at h <;> cases h
  · trivial

theorem serverSettled_of_none (p : Server.Phase) (a : ServerAct) (h : serverLeaves p a = none) :
    ServerSettled p a := by
  unfold ServerSettled
  split
  · simp only [serverLeaves] at h
    split at h <;> cases h
  · trivial

/-- The files a shell is started with, of which it can load none: its directories, and nothing else. -/
def onlyDirs : Files where
  access path := path = inDir ['b', 'i', 'n'] ['.'] ∨ path = inDir ['.'] ['.']
  execve path := if path = inDir ['b', 'i', 'n'] ['.'] ∨ path = inDir ['.'] ['.'] then .denied else .missing

/-- The line `.`, and its only row. -/
def dotLine : List (ℕ × ShellAct) :=
  [(0, .type ⟨['.'], List.replicate 100 '\x00', Server.junk_length, ⟨true, true, none⟩⟩),
    (0, .process onlyDirs)]

end OneShell

end NetProg
