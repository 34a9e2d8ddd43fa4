import NetProg.Lib.BoundedPipe
import NetProg.Shell.NumberPipes

/-! The shell of project 1 together with its running children, over pipes of finite capacity.

    The shell forks the commands of a line one by one while the children of this line and of earlier
    ones run. A line without `|N` or `!N` ends in `while (wait(NULL) > 0)`, which collects every
    child, also the writers of number pipes that only a later line will read. -/

namespace NetProg

/-- The pipe whose read end a descriptor is. -/
def readPipe : Option Desc → Option ℕ
  | some (.pipeR id) => some id
  | _ => none

/-- The pipe whose write end a descriptor is. -/
def writePipe : Option Desc → Option ℕ
  | some (.pipeW id) => some id
  | _ => none

/-- A child that will write `out` bytes to its standard output and `err` to its standard error. -/
def Spawn.proc (s : Spawn) (out err : ℕ) : Proc ℕ where
  source := readPipe (s.fds.get 0)
  readEnds := s.fds.slots.filterMap readPipe
  outputs := [(writePipe (s.fds.get 1), out), (writePipe (s.fds.get 2), err)]

/-- Whether a process holds the read end of a pipe. -/
def Kernel.holdsRead (k : Kernel) (id : ℕ) : Bool := k.fds.slots.any (· == some (.pipeR id))

namespace Shell

/-- Where `main` is: before the next line, in the process loop with the rows still to be executed,
    or in the `wait` loop. -/
inductive Phase where
  | prompt
  | exec (rows : List (List Token)) (processCount : ℕ) (opens : Opens) (lineEndWithPipe : Bool)
  | wait

/-- The shell and its children. -/
structure Session where
  shell : Shell
  phase : Phase
  pool : Pool ℕ

/-- What happens next: a line is typed, a row of `process` is executed (a command that is forked will
    write so many bytes), the process loop ends, the `wait` loop ends, or a child does a step. -/
inductive Event where
  | type (inp : LineInput)
  | process (out err : ℕ)
  | endLine
  | waited
  | child (e : PoolEvent)

namespace Session

/-- One step. -/
def step (cap : ℕ) (s : Session) : Event → Option Session
  | .type inp =>
    match s.phase, s.shell.parse inp with
    | .prompt, .ok p =>
      some { s with
        shell := { s.shell with vars := p.vars }
        phase := .exec p.process p.process.length inp.opens p.lineEndWithPipe }
    | _, _ => none
  | .process out err =>
    match s.phase with
    | .exec (row :: rows) pc opens w =>
      match execProcess opens pc rows.isEmpty row ⟨s.shell.vars, s.shell.environ, [], []⟩ with
      | .ok e =>
        some {
          shell := ⟨e.vars, e.environ⟩
          phase := .exec rows pc opens w
          pool := { s.pool with procs := s.pool.procs ++ e.spawned.map (·.proc out err) } }
      | .error _ => none
    | _ => none
  | .endLine =>
    match s.phase with
    | .exec [] _ _ w => some { s with phase := if w then .prompt else .wait }
    | _ => none
  | .waited =>
    match s.phase with
    | .wait => if s.pool.procs = [] then some { s with phase := .prompt } else none
    | _ => none
  | .child e =>
    (s.pool.step cap s.shell.vars.kernel.holdsRead e).map fun pool => { s with pool := pool }

/-- A run over some events. -/
def run (cap : ℕ) : Session → List Event → Option Session
  | s, [] => some s
  | s, e :: es => (s.step cap e).bind fun s' => s'.run cap es

/-- The session before the first line. -/
def init (environ : Environ) : Session := ⟨Shell.init environ, .prompt, ⟨[], fun _ => 0⟩⟩

/-! ### The process loop, step by step, is the process loop -/

theorem run_append (cap : ℕ) : ∀ (es es' : List Event) (s : Session),
    s.run cap (es ++ es') = (s.run cap es).bind fun t => t.run cap es'
  | [], es', s => rfl
  | e :: es, es', s => by
    rw [List.cons_append, run, run]
    cases s.step cap e with
    | none => rfl
    | some t => exact run_append cap es es' t

/-- What a row does to the variables and the environment does not depend on what was forked or
    printed before. -/
theorem execProcess_frame {opens : Opens} {pc : ℕ} {last : Bool} {row : List Token} {e e₁ : Exec}
    (e₂ : Exec) (hv : e.vars = e₂.vars) (henv : e.environ = e₂.environ)
    (h : execProcess opens pc last row e = .ok e₁) :
    ∃ e₃, execProcess opens pc last row e₂ = .ok e₃ ∧ e₃.vars = e₁.vars ∧
      e₃.environ = e₁.environ := by
  cases row with
  | nil => simp [execProcess] at h
  | cons cmd args =>
    rw [execProcess.eq_def] at h ⊢
    simp only at h ⊢
    split_ifs at h ⊢ with h1 h2 h3
    · cases args with
      | nil =>
        simp only [Except.ok.injEq] at h
        subst h
        exact ⟨e₂, rfl, hv.symm, henv.symm⟩
      | cons name rest =>
        simp only [← henv] at h ⊢
        cases hn : e.environ name with
        | none =>
          simp only [hn, Except.ok.injEq] at h
          subst h
          exact ⟨e₂, rfl, hv.symm, henv.symm⟩
        | some value =>
          simp only [hn, Except.ok.injEq] at h
          subst h
          exact ⟨_, rfl, hv.symm, rfl⟩
    · rcases args with - | ⟨name, - | ⟨value, rest⟩⟩ <;> simp only [Except.ok.injEq] at h <;>
        subst h
      · exact ⟨e₂, rfl, hv.symm, henv.symm⟩
      · exact ⟨e₂, rfl, hv.symm, henv.symm⟩
      · exact ⟨_, rfl, hv.symm, by rw [henv]⟩
    · simp only [Except.ok.injEq] at h
      subst h
      exact ⟨_, rfl, by simp [Exec.fork, hv], henv.symm⟩

theorem run_rows (cap : ℕ) (opens : Opens) (pc : ℕ) (w : Bool) : ∀ (rows : List (List Token))
    (amounts : List (ℕ × ℕ)) (s : Session) (e e' : Exec), amounts.length = rows.length →
    s.phase = .exec rows pc opens w → e.vars = s.shell.vars → e.environ = s.shell.environ →
    execAll opens pc rows e = .ok e' →
    ∃ t, s.run cap (amounts.map fun a => .process a.1 a.2) = some t ∧
      t.phase = .exec [] pc opens w ∧ t.shell = ⟨e'.vars, e'.environ⟩
  | [], amounts, s, e, e', hlen, hphase, hv, henv, h => by
    obtain rfl : amounts = [] := List.length_eq_zero_iff.mp hlen
    simp only [execAll, Except.ok.injEq] at h
    subst h
    refine ⟨s, rfl, hphase, ?_⟩
    rw [hv, henv]
  | row :: rows, amounts, s, e, e', hlen, hphase, hv, henv, h => by
    obtain ⟨a, amounts, rfl⟩ := List.exists_cons_of_length_eq_add_one hlen
    rw [execAll] at h
    cases he : execProcess opens pc rows.isEmpty row e with
    | error halt => simp [he] at h
    | ok e₁ =>
      simp only [he] at h
      obtain ⟨e₃, he₃, hv₃, henv₃⟩ := execProcess_frame
        ⟨s.shell.vars, s.shell.environ, [], []⟩ hv henv he
      let s₁ : Session :=
        { shell := ⟨e₃.vars, e₃.environ⟩
          phase := .exec rows pc opens w
          pool := { s.pool with procs := s.pool.procs ++ e₃.spawned.map (·.proc a.1 a.2) } }
      have hstep : s.step cap (.process a.1 a.2) = some s₁ := by
        simp only [step, hphase, he₃, s₁]
      obtain ⟨t, ht, hp, hs⟩ := run_rows cap opens pc w rows amounts s₁ e₁ e'
        (by simpa using hlen) rfl hv₃.symm henv₃.symm h
      refine ⟨t, ?_, hp, hs⟩
      rw [List.map_cons, run, hstep]
      exact ht

/-- Typing a line and executing its rows one by one leads where `line` leads. -/
theorem run_line {cap : ℕ} {s : Session} {inp : LineInput} {shell' : Shell} {sp : List Spawn}
    {w : Bool} (hphase : s.phase = .prompt) (h : s.shell.line inp = .ok (shell', sp, w)) :
    ∃ n, ∀ amounts : List (ℕ × ℕ), amounts.length = n →
      ∃ t, s.run cap (.type inp :: (amounts.map fun a => .process a.1 a.2) ++ [.endLine]) = some t ∧
        t.shell = shell' ∧ t.phase = if w then .prompt else .wait := by
  rw [line] at h
  cases hp : s.shell.parse inp with
  | error halt => simp [hp] at h
  | ok p =>
    simp only [hp] at h
    cases he : execAll inp.opens p.process.length p.process ⟨p.vars, s.shell.environ, [], []⟩ with
    | error halt => simp [he] at h
    | ok e =>
      simp only [he, Except.ok.injEq, Prod.mk.injEq] at h
      obtain ⟨rfl, -, rfl⟩ := h
      refine ⟨p.process.length, fun amounts hlen => ?_⟩
      have hstep : s.step cap (.type inp) = some { s with
          shell := { s.shell with vars := p.vars }
          phase := .exec p.process p.process.length inp.opens p.lineEndWithPipe } := by
        simp only [step, hphase, hp]
      obtain ⟨t, ht, htp, hts⟩ := run_rows cap inp.opens p.process.length p.lineEndWithPipe
        p.process amounts { s with
          shell := { s.shell with vars := p.vars }
          phase := .exec p.process p.process.length inp.opens p.lineEndWithPipe }
        _ e hlen rfl rfl rfl he
      refine ⟨{ t with phase := if p.lineEndWithPipe then .prompt else .wait }, ?_, hts, rfl⟩
      rw [List.cons_append, run, hstep, Option.bind_some, run_append, ht, Option.bind_some, run, step]
      simp only [htp]
      rfl

/-! ### What the wait loop can wait for -/

/-- A number pipe that only a later line will read. -/
def Pending (s : Session) (id : ℕ) : Prop :=
  ∃ e ∈ s.shell.vars.numPipeVec, s.shell.vars.kernel.get e.p0 = some (.pipeR id)

/-- Every pending number pipe can take the bytes in it and all those still to come. -/
def Calm (cap : ℕ) (s : Session) : Prop := ∀ id, s.Pending id → s.pool.load id ≤ cap

/-- The step that leads from the process loop into the `wait` loop. -/
def EntersWait (s : Session) (e : Event) : Prop :=
  match e, s.phase with
  | .endLine, .exec [] _ _ false => True
  | _, _ => False

/-- Whenever the `wait` loop is entered the session is calm. -/
def CalmRun (cap : ℕ) : Session → List Event → Prop
  | _, [] => True
  | s, e :: es =>
    (s.EntersWait e → s.Calm cap) ∧ match s.step cap e with
      | some t => CalmRun cap t es
      | none => True

/-- In the `wait` loop the session stays calm: the shell does nothing, and no load grows. -/
theorem calm_step {cap : ℕ} {s t : Session} {e : Event} (h : s.step cap e = some t)
    (hcalm : s.phase = .wait → s.Calm cap) (henter : s.EntersWait e → s.Calm cap) :
    t.phase = .wait → t.Calm cap := by
  intro hwait
  cases e with
  | type inp =>
    simp only [step] at h
    split at h
    · simp only [Option.some.injEq] at h
      subst h
      cases hwait
    · cases h
  | process out err =>
    simp only [step] at h
    split at h
    · split at h
      · simp only [Option.some.injEq] at h
        subst h
        cases hwait
      · cases h
    · cases h
  | endLine =>
    simp only [step] at h
    split at h
    · next pc opens w hphase =>
      simp only [Option.some.injEq] at h
      subst h
      cases w with
      | true => cases hwait
      | false => exact henter (by simp [EntersWait, hphase])
    · cases h
  | waited =>
    simp only [step] at h
    split at h
    · split_ifs at h
      simp only [Option.some.injEq] at h
      subst h
      cases hwait
    · cases h
  | child e =>
    simp only [step, Option.map_eq_some_iff] at h
    obtain ⟨pool, hpool, rfl⟩ := h
    intro id hid
    exact (Pool.load_step hpool id).trans (hcalm hwait id hid)

theorem calm_run {cap : ℕ} : ∀ {es : List Event} {s t : Session}, s.run cap es = some t →
    s.CalmRun cap es → (s.phase = .wait → s.Calm cap) → t.phase = .wait → t.Calm cap
  | [], s, t, h, _, hs => by
    simp only [run, Option.some.injEq] at h
    exact h ▸ hs
  | e :: es, s, t, h, hrun, hs => by
    rw [run, Option.bind_eq_some_iff] at h
    obtain ⟨s', hstep, hrest⟩ := h
    obtain ⟨henter, htail⟩ := hrun
    rw [hstep] at htail
    exact calm_run hrest htail (calm_step hstep hs henter)

/-- When the `wait` loop is only entered with enough room in the pending number pipes, the shell is
    never in that loop while a child is blocked writing to such a pipe. -/
theorem wait_not_blocked (cap : ℕ) (environ : Environ) (es : List Event)
    (h : (init environ).CalmRun cap es) (s : Session) (hs : (init environ).run cap es = some s)
    (hwait : s.phase = .wait) :
    ∀ c ∈ s.pool.procs, ∀ id, s.Pending id → ¬ s.pool.Blocked cap c id := by
  intro c hc id hid
  refine Pool.not_blocked hc (calm_run hs h ?_ hwait id hid)
  intro hprompt
  cases hprompt

/-- `yes |2`, of which `out` bytes are written to the pipe, then `ls`. -/
def writerThenLs (out : ℕ) : List Event :=
  [.type (plainInput ['y', 'e', 's', ' ', '|', '2']), .process out 0, .endLine,
    .type (plainInput ['l', 's']), .process 0 0, .endLine]

/-- Five bytes fit the pipe. -/
theorem wait_not_blocked_five : ∃ s, (init fun _ => none).run 65536 (writerThenLs 5) = some s ∧
    s.phase = .wait ∧ ∀ c ∈ s.pool.procs, ∀ id, s.Pending id → ¬ s.pool.Blocked 65536 c id := by
  refine ⟨_, rfl, rfl, wait_not_blocked 65536 _ (writerThenLs 5) ?_ _ rfl rfl⟩
  refine ⟨fun h => h.elim, fun h => h.elim, fun h => h.elim, fun h => h.elim, fun h => h.elim,
    fun _ id hid => ?_, trivial⟩
  obtain ⟨e, he, hget⟩ := hid
  obtain rfl := List.mem_singleton.mp he
  cases hget
  decide

/-- 70000 bytes do not: `ls` waits for the writer, and only a later line could read the pipe. -/
theorem wait_blocked : ∃ s, (init fun _ => none).run 65536
      (writerThenLs 70000 ++ [.child (.write 0 0 65536)]) = some s ∧ s.phase = .wait ∧
    ∃ c ∈ s.pool.procs, ∃ id, s.Pending id ∧ s.pool.Blocked 65536 c id := by
  refine ⟨_, rfl, rfl, _, List.mem_cons_self .., 0, ⟨_, List.mem_singleton.mpr rfl, rfl⟩,
    ⟨4464, List.mem_cons_self .., by decide⟩, le_rfl⟩

end Session
end Shell
end NetProg
