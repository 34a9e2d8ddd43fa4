import NetProg.Shell.Flow
import NetProg.Shell.Placement

/-! What the pipelines of the project-1 shell deliver.

    The children of a session are those of `run`, in that order, so they are wired as the absolute
    schedule says: the reader of a pipe is forked after its writers, and it is alone. That makes the
    running programs a network whose writers come before its readers. -/

namespace NetProg.Shell

/-- The shell of project 1: its standard output is the terminal. -/
abbrev onTerminal : Screen APipe := { Setting.alone with out := .terminal, writes := rfl }

/-! ### The wiring of a session, command by command -/

theorem RunWired.length {ρ : APipe → ℕ} {pre ls : List Pipeline} {ins : List LineInput}
    {sps : List (List Spawn)} (h : RunWired ρ pre ins ls sps) : sps.length = ls.length := by
  induction h with
  | nil => rfl
  | cons line rest ih => rw [List.length_cons, List.length_cons, ih]

theorem RunWired.line {ρ : APipe → ℕ} {pre ls : List Pipeline} {ins : List LineInput}
    {sps : List (List Spawn)} (h : RunWired ρ pre ins ls sps) {j : ℕ} {sp : List Spawn}
    (hj : sps[j]? = some sp) :
    ∃ inp l, ins[j]? = some inp ∧ ls[j]? = some l ∧ LineWired ρ (pre ++ ls.take j) inp l sp := by
  induction h generalizing j with
  | nil => simp at hj
  | @cons pre inp ins l ls sp₀ sps line rest ih =>
    cases j with
    | zero =>
      obtain rfl : sp₀ = sp := by simpa using hj
      exact ⟨inp, l, rfl, rfl, by simpa using line⟩
    | succ j =>
      obtain ⟨inp', l', hin, hl, hw⟩ := ih (by simpa using hj)
      exact ⟨inp', l', by simpa using hin, by simpa using hl, by simpa using hw⟩

theorem RunWired.placed {progs : ℕ × ℕ → StreamProgram UInt8} {ρ : APipe → ℕ} {ls : List Pipeline}
    {ins : List LineInput} {sps : List (List Spawn)} (h : RunWired ρ [] ins ls sps) {i : ℕ × ℕ} {s : Spawn}
    {m : NetNode Channel UInt8} (hi : childAt sps i = some s) (hm : m.blank = s.node (progs i)) :
    ∃ inp l, Placed onTerminal progs ρ ins ls i m inp l := by
  rw [childAt, Option.bind_eq_some_iff] at hi
  obtain ⟨sp, hsp, hs⟩ := hi
  obtain ⟨inp, l, hin, hl, hw⟩ := h.line hsp
  have hlen : (ls.take i.1).length = i.1 :=
    List.length_take_of_le (List.getElem?_eq_some_iff.mp hl).1.le
  have hargv := congrArg List.length hw.argv
  have h0 := hw.stdin i.2 s hs
  have h1 := hw.stdout i.2 s hs
  rw [List.nil_append, ← Setting.alone_desc] at h0 h1
  rw [hlen] at h1
  rw [List.length_map] at hargv
  exact ⟨inp, l, placed_of_spawn hin hl (hargv ▸ (List.getElem?_eq_some_iff.mp hs).1) h0 h1 hm⟩

/-! ### The children of a session are those of the run over its lines -/

/-- What a row forks does not depend on what was forked or printed before. -/
theorem execProcess_spawned {opens : Opens} {pc : ℕ} {last : Bool} {row : List Token} {e e₁ : Exec}
    (e₂ : Exec) (hv : e.vars = e₂.vars) (henv : e.environ = e₂.environ)
    (h : execProcess opens pc last row e = .ok e₁) :
    ∃ e₃ new, execProcess opens pc last row e₂ = .ok e₃ ∧ e₃.vars = e₁.vars ∧ e₃.environ = e₁.environ ∧
      new.length ≤ 1 ∧ e₁.spawned = e.spawned ++ new ∧ e₃.spawned = e₂.spawned ++ new := by
  obtain ⟨e₃, he₃, hv₃, henv₃⟩ := Session.execProcess_frame e₂ hv henv h
  refine ⟨e₃, ?_⟩
  cases row with
  | nil => simp [execProcess] at h
  | cons cmd args =>
    have hout := h
    rw [execProcess.eq_def] at hout
    have hout₃ := he₃
    rw [execProcess.eq_def] at hout₃
    simp only at hout hout₃
    have hsame : e₁.spawned = e.spawned → e₃.spawned = e₂.spawned → ∃ new : List Spawn,
        execProcess opens pc last (cmd :: args) e₂ = .ok e₃ ∧ e₃.vars = e₁.vars ∧ e₃.environ = e₁.environ ∧
          new.length ≤ 1 ∧ e₁.spawned = e.spawned ++ new ∧ e₃.spawned = e₂.spawned ++ new := fun h₁ h₃ =>
      ⟨[], he₃, hv₃, henv₃, by simp, by simpa using h₁, by simpa using h₃⟩
    split_ifs at hout hout₃ with h1 h2 h3
    · cases args with
      | nil => exact hsame (by cases hout; rfl) (by cases hout₃; rfl)
      | cons name rest =>
        simp only [← henv] at hout hout₃
        cases hn : e.environ name with
        | none =>
          simp only [hn, Except.ok.injEq] at hout hout₃
          exact hsame (by rw [← hout]) (by rw [← hout₃])
        | some value =>
          simp only [hn, Except.ok.injEq] at hout hout₃
          exact hsame (by rw [← hout]) (by rw [← hout₃])
    · rcases args with - | ⟨name, - | ⟨value, rest⟩⟩ <;> simp only [Except.ok.injEq] at hout hout₃ <;>
        exact hsame (by rw [← hout]) (by rw [← hout₃])
    · simp only [Except.ok.injEq] at hout hout₃
      refine ⟨_, he₃, hv₃, henv₃, ?_, by rw [← hout]; rfl, ?_⟩
      · exact (List.length_singleton ..).le
      · rw [← hout₃, hv]
        rfl

theorem execAll_spawned {opens : Opens} {pc : ℕ} : ∀ {rows : List (List Token)} {e e₁ : Exec} (e₂ : Exec),
    e.vars = e₂.vars → e.environ = e₂.environ → execAll opens pc rows e = .ok e₁ →
    ∃ e₃ new, execAll opens pc rows e₂ = .ok e₃ ∧ e₃.vars = e₁.vars ∧ e₃.environ = e₁.environ ∧
      e₁.spawned = e.spawned ++ new ∧ e₃.spawned = e₂.spawned ++ new
  | [], e, e₁, e₂, hv, henv, h => by
    simp only [execAll, Except.ok.injEq] at h
    subst h
    exact ⟨e₂, [], rfl, hv.symm, henv.symm, by simp, by simp⟩
  | row :: rows, e, e₁, e₂, hv, henv, h => by
    rw [execAll] at h
    cases hrow : execProcess opens pc rows.isEmpty row e with
    | error halt => simp [hrow] at h
    | ok f =>
      simp only [hrow] at h
      obtain ⟨f₂, new, hrow₂, hfv, hfenv, -, hf, hf₂⟩ := execProcess_spawned e₂ hv henv hrow
      obtain ⟨e₃, new', hall, hv₃, henv₃, h₁, h₃⟩ := execAll_spawned f₂ hfv.symm hfenv.symm h
      refine ⟨e₃, new ++ new', ?_, hv₃, henv₃, ?_, ?_⟩
      · rw [execAll, hrow₂]
        exact hall
      · rw [h₁, hf, List.append_assoc]
      · rw [h₃, hf₂, List.append_assoc]

/-- One more line. -/
theorem run_concat : ∀ {ins : List LineInput} {s s' : Shell} {sps : List (List Spawn)} (inp : LineInput),
    s.run ins = .ok (s', sps) → s.run (ins ++ [inp]) = match s'.line inp with
      | .error h => .error h
      | .ok (s'', sp, _) => .ok (s'', sps ++ [sp])
  | [], s, s', sps, inp, h => by
    simp only [run, Except.ok.injEq, Prod.mk.injEq] at h
    obtain ⟨rfl, rfl⟩ := h
    rw [List.nil_append, run]
    cases s.line inp with
    | error e => rfl
    | ok r => rfl
  | x :: ins, s, s', sps, inp, h => by
    rw [run] at h
    rw [List.cons_append, run]
    cases hx : s.line x with
    | error e => simp [hx] at h
    | ok r =>
      obtain ⟨s₁, sp, w⟩ := r
      simp only [hx] at h ⊢
      cases hrest : s₁.run ins with
      | error e => simp [hrest] at h
      | ok r =>
        obtain ⟨s₂, sps'⟩ := r
        simp only [hrest, Except.ok.injEq, Prod.mk.injEq] at h
        obtain ⟨rfl, rfl⟩ := h
        rw [run_concat inp hrest]
        cases s₂.line inp with
        | error e => rfl
        | ok r => rfl

theorem run_length : ∀ {ins : List LineInput} {s s' : Shell} {sps : List (List Spawn)},
    s.run ins = .ok (s', sps) → sps.length = ins.length
  | [], s, s', sps, h => by
    simp only [run, Except.ok.injEq, Prod.mk.injEq] at h
    rw [← h.2]
    rfl
  | x :: ins, s, s', sps, h => by
    rw [run] at h
    cases hx : s.line x with
    | error e => simp [hx] at h
    | ok r =>
      obtain ⟨s₁, sp, w⟩ := r
      simp only [hx] at h
      cases hrest : s₁.run ins with
      | error e => simp [hrest] at h
      | ok r =>
        obtain ⟨s₂, sps'⟩ := r
        simp only [hrest, Except.ok.injEq, Prod.mk.injEq] at h
        rw [← h.2, List.length_cons, List.length_cons, run_length hrest]

theorem applySuffix_ends {opens : Opens} {p q : Parsed} {suf : Suffix} (h : applySuffix opens p suf = some q) :
    q.lineEndWithPipe = (p.lineEndWithPipe || suf.count.isSome) := by
  cases suf with
  | none => simp [← Option.some.inj h, Suffix.count]
  | pipe ds => simp [← Option.some.inj h, Suffix.count, Parsed.pipeOut]
  | shock ds => simp [← Option.some.inj h, Suffix.count, Parsed.pipeOut]
  | file name =>
    simp only [applySuffix, Option.map_eq_some_iff] at h
    obtain ⟨v, -, rfl⟩ := h
    simp [Suffix.count]

/-- The shell waits behind every line that ends in neither `|N` nor `!N`. -/
theorem parse_ends {s : Shell} {inp : LineInput} {l : Pipeline} {p : Parsed} (hr : Reads inp l)
    (h : s.parse inp = .ok p) : p.lineEndWithPipe = l.suffix.count.isSome := by
  rw [parse, hr.tokens_eq, combine_tokens (fun _ hc => hc.1) inp.opens hr.ok] at h
  split at h
  · rename_i q happ
    obtain rfl := Except.ok.inj h
    rw [applySuffix_ends happ, Bool.false_or]
  · cases h

namespace Flow

variable {progs : ℕ × ℕ → StreamProgram UInt8} {cap : ℕ} {environ : Environ} {ins : List LineInput}
  {ls : List Pipeline} {sps : List (List Spawn)} {t t' : Flow} {ev : FlowEvent}

/-- Where the shell stands in the run over the lines: at the end of it, or inside the last line. -/
def Stands (environ : Environ) (ins : List LineInput) (sps : List (List Spawn)) (t : Flow) : Prop :=
  match t.phase with
  | .exec rows pc opens w => ∃ sps₀ sp e, sps = sps₀ ++ [sp ++ e.spawned] ∧
      (Shell.init environ).run ins = .ok (⟨e.vars, e.environ⟩, sps) ∧
      execAll opens pc rows ⟨t.shell.vars, t.shell.environ, [], []⟩ = .ok e ∧ sp.length = t.forks ∧
      ins.length = t.lines + 1 ∧ ∀ inp ∈ ins.getLast?, ∀ l, Reads inp l → w = l.suffix.count.isSome
  | _ => (Shell.init environ).run ins = .ok (t.shell, sps) ∧ ins.length = t.lines ∧ t.forks = 0

/-- The children that have been forked so far are the programs of the network. -/
def Follows (progs : ℕ × ℕ → StreamProgram UInt8) (sps : List (List Spawn)) (t : Flow) : Prop :=
  ∀ i, (t.net.node i).map (·.blank) =
    if i.1 < t.lines ∨ i.1 = t.lines ∧ i.2 < t.forks then (childAt sps i).map fun s => s.node (progs i)
    else none

/-- What a step can do. -/
inductive Moves (progs : ℕ × ℕ → StreamProgram UInt8) (cap : ℕ) (t : Flow) : FlowEvent → Flow → Prop
  | type {inp : LineInput} {p : Parsed} (phase : t.phase = .prompt) (parse : t.shell.parse inp = .ok p) :
      Moves progs cap t (.type inp) { t with
        shell := { t.shell with vars := p.vars }
        phase := .exec p.process p.process.length inp.opens p.lineEndWithPipe }
  | process {row : List Token} {rows : List (List Token)} {pc : ℕ} {opens : Opens} {w : Bool} {e : Exec}
      (phase : t.phase = .exec (row :: rows) pc opens w)
      (exec : execProcess opens pc rows.isEmpty row ⟨t.shell.vars, t.shell.environ, [], []⟩ = .ok e) :
      Moves progs cap t .process { t with
        shell := ⟨e.vars, e.environ⟩
        phase := .exec rows pc opens w
        forks := t.forks + e.spawned.length
        net := t.forked progs e.spawned }
  | endLine {pc : ℕ} {opens : Opens} {w : Bool} (phase : t.phase = .exec [] pc opens w) :
      Moves progs cap t .endLine
        { t with phase := if w then .prompt else .wait, lines := t.lines + 1, forks := 0 }
  | waited (phase : t.phase = .wait) (quiet : t.net.quiet = true) :
      Moves progs cap t .waited { t with phase := .prompt }
  | child {e : NetEvent (ℕ × ℕ) UInt8} {net : Net (ℕ × ℕ) Channel UInt8}
      (move : Net.Stepped (room cap) t.shell.vars.kernel.holdsWrite t.net e net) :
      Moves progs cap t (.child e) { t with net := net }

theorem moves (h : t.step progs cap ev = some t') : Moves progs cap t ev t' := by
  cases ev with
  | type inp =>
    simp only [step] at h
    split at h
    · rename_i p hphase hparse
      obtain rfl := Option.some.inj h
      exact .type hphase hparse
    · cases h
  | process =>
    simp only [step] at h
    split at h
    · rename_i row rows pc opens w hphase
      split at h
      · rename_i e he
        obtain rfl := Option.some.inj h
        exact .process hphase he
      · cases h
    · cases h
  | endLine =>
    simp only [step] at h
    split at h
    · rename_i pc opens w hphase
      obtain rfl := Option.some.inj h
      exact .endLine hphase
    · cases h
  | waited =>
    simp only [step] at h
    split at h
    · rename_i hphase
      split_ifs at h with hq
      obtain rfl := Option.some.inj h
      exact .waited hphase hq
    · cases h
  | child e =>
    simp only [step, Option.map_eq_some_iff] at h
    obtain ⟨net, hnet, rfl⟩ := h
    exact .child (Net.stepped hnet)

/-- The lines typed are well formed. -/
def Proper (ins : List LineInput) (ls : List Pipeline) : Prop :=
  List.Forall₂ Reads ins ls ∧ ∀ l ∈ ls, l.suffix.Fits

/-- They are executed to the end, and their children are wired as the schedule says. -/
theorem Proper.run (hp : Proper ins ls) (environ : Environ) : ∃ s sps ρ,
    (Shell.init environ).run ins = .ok (s, sps) ∧ Set.InjOn ρ (Pipes ls) ∧ RunWired ρ [] ins ls sps := by
  have hU : ∀ T, .num T ∈ (∅ : Set APipe) ↔ Targets [] T := fun T => by simp [targets_nil]
  have hnone : Pipes [] ⊆ (∅ : Set APipe) := by
    rintro (T | ⟨L, c⟩) hpipe
    · exact absurd hpipe (targets_nil T)
    · obtain ⟨j, l, hj, -⟩ := hpipe
      simp at hj
  have hprompt : Prompt ([] : List Pipeline).length ∅ (fun _ => 0) (Shell.init environ) := prompt_init environ _
  obtain ⟨s, sps, ρ, U, hrun, -, hnamed, hpipes, hwired⟩ := run_wired hp.1 hp.2 hprompt hU hnone
  exact ⟨s, sps, ρ, hrun, hnamed.inj.mono hpipes, hwired⟩

theorem follows_step (hp : Proper (ins ++ ev.typed.toList) ls) (hst : Stands environ ins sps t)
    (hfo : Follows progs sps t) (h : Moves progs cap t ev t') :
    ∃ sps', Stands environ (ins ++ ev.typed.toList) sps' t' ∧ Follows progs sps' t' := by
  cases h with
  | @type inp p phase parse =>
    simp only [Stands, phase] at hst
    obtain ⟨hrun, hlen, hforks⟩ := hst
    obtain ⟨s', sps', -, hrun', -, -⟩ := hp.run environ
    have hconcat := run_concat inp hrun
    simp only [FlowEvent.typed, Option.toList] at hrun' ⊢
    rw [hrun', line, parse] at hconcat
    cases hexec : execAll inp.opens p.process.length p.process ⟨p.vars, t.shell.environ, [], []⟩ with
    | error halt => simp [hexec] at hconcat
    | ok e =>
      simp only [hexec, Except.ok.injEq, Prod.mk.injEq] at hconcat
      refine ⟨sps ++ [e.spawned], ⟨sps, [], e, rfl, ?_, hexec, hforks.symm, by simp [hlen], ?_⟩, fun i => ?_⟩
      · rw [hrun', hconcat.1, hconcat.2]
      · intro inp' hinp l hr
        obtain rfl : inp = inp' := by simpa using hinp
        exact parse_ends hr parse
      · have hsps := run_length hrun
        rw [hfo i, hforks]
        simp only [Nat.not_lt_zero, and_false, or_false]
        split_ifs with hi
        · rw [childAt_append _ (by omega)]
        · rfl
  | @process row rows pc opens w e phase exec =>
    simp only [Stands, phase] at hst
    obtain ⟨sps₀, sp, f, rfl, hrun, hall, hlen, hins, hw⟩ := hst
    rw [execAll, exec] at hall
    simp only at hall
    obtain ⟨f₂, new, hall₂, hv, henv, hf, hf₂⟩ :=
      execAll_spawned (e := e) ⟨e.vars, e.environ, [], []⟩ rfl rfl hall
    rw [List.nil_append] at hf₂
    have hsps := run_length hrun
    rw [List.length_append, List.length_singleton] at hsps
    have hsp : sp ++ f.spawned = sp ++ e.spawned ++ f₂.spawned := by rw [hf, hf₂, List.append_assoc]
    rw [show ins ++ FlowEvent.process.typed.toList = ins from List.append_nil ins]
    refine ⟨sps₀ ++ [sp ++ f.spawned],
      ⟨sps₀, sp ++ e.spawned, f₂, by rw [hsp], ?_, hall₂, by simp [hlen], hins, hw⟩, fun i => ?_⟩
    · rw [hrun, hv, henv]
    · obtain ⟨-, new', -, -, -, hone, hnew', -⟩ := execProcess_spawned _ rfl rfl exec
      rw [List.nil_append] at hnew'
      change (Net.node (t.forked progs e.spawned) i).map (·.blank) =
        if i.1 < t.lines ∨ i.1 = t.lines ∧ i.2 < t.forks + e.spawned.length then _ else none
      cases hc : e.spawned with
      | nil =>
        rw [forked, List.length_nil, Nat.add_zero]
        exact hfo i
      | cons c cs =>
        obtain rfl : cs = [] := by
          rw [← hnew', hc, List.length_cons] at hone
          exact List.length_eq_zero_iff.1 (by omega)
        rw [forked, List.length_singleton]
        rcases eq_or_ne i (t.lines, t.forks) with rfl | hi
        · have hchild : childAt (sps₀ ++ [sp ++ f.spawned]) (t.lines, t.forks) = some c := by
            rw [childAt_last _ (by omega : t.lines = sps₀.length), hsp, hc]
            simp [← hlen]
          rw [if_pos (.inr ⟨rfl, Nat.lt_succ_self _⟩), hchild]
          simp [Net.fork, Net.set, NetNode.blank, Spawn.node, NetNode.start]
        · have hnode : (t.net.fork (t.lines, t.forks) (c.node (progs (t.lines, t.forks)))).node i =
              t.net.node i := t.net.set_node_of_ne hi _
          rw [hnode, hfo i]
          have hiff : (i.1 < t.lines ∨ i.1 = t.lines ∧ i.2 < t.forks) ↔
              (i.1 < t.lines ∨ i.1 = t.lines ∧ i.2 < t.forks + 1) := by
            rw [Ne, Prod.ext_iff] at hi
            simp only at hi
            omega
          simp only [hiff]
  | @endLine pc opens w phase =>
    simp only [Stands, phase] at hst
    obtain ⟨sps₀, sp, e, rfl, hrun, hall, hlen, hins, hw⟩ := hst
    simp only [execAll, Except.ok.injEq] at hall
    subst hall
    have hsps := run_length hrun
    rw [List.length_append, List.length_singleton] at hsps
    rw [show ins ++ FlowEvent.endLine.typed.toList = ins from List.append_nil ins]
    refine ⟨sps₀ ++ [sp ++ []], ?_, fun i => ?_⟩
    · cases w <;> exact ⟨hrun, hins, rfl⟩
    · rw [hfo i]
      simp only [Nat.not_lt_zero, and_false, or_false]
      rcases lt_trichotomy i.1 t.lines with hlt | heq | hgt
      · rw [if_pos (.inl hlt), if_pos (by omega)]
      · rw [if_pos (by omega : i.1 < t.lines + 1)]
        split_ifs with hi
        · rfl
        · have hnone : childAt (sps₀ ++ [sp ++ []]) i = none := by
            rw [childAt_last _ (by omega : i.1 = sps₀.length), List.append_nil]
            exact List.getElem?_eq_none (by omega)
          rw [hnone]
          rfl
      · rw [if_neg (by omega), if_neg (by omega)]
  | waited phase quiet =>
    simp only [Stands, phase] at hst
    rw [show ins ++ FlowEvent.waited.typed.toList = ins from List.append_nil ins]
    exact ⟨sps, hst, hfo⟩
  | @child e net move =>
    rw [show ins ++ (FlowEvent.child e).typed.toList = ins from List.append_nil ins]
    exact ⟨sps, hst, fun i => (move.blank i).trans (hfo i)⟩

/-! ### The programs of a session are a network whose writers come before its readers -/

theorem run_of_stands (h : Stands environ ins sps t) : ∃ s, (Shell.init environ).run ins = .ok (s, sps) := by
  unfold Stands at h
  split at h
  · obtain ⟨sps₀, sp, e, -, hrun, -⟩ := h
    exact ⟨_, hrun⟩
  · exact ⟨_, h.1⟩

theorem Proper.suffix_ok (hp : Proper ins ls) {j : ℕ} {l : Pipeline} (hl : ls[j]? = some l) : l.suffix.Ok := by
  obtain ⟨hj, rfl⟩ := List.getElem?_eq_some_iff.1 hl
  have hlen := hp.1.length_eq
  exact (List.forall₂_iff_get.1 hp.1).2 j (by omega) hj |>.ok.suffix_ok

theorem Proper.suffixes_ok (hp : Proper ins ls) : ∀ l ∈ ls, l.suffix.Ok := fun l hl => by
  obtain ⟨j, hj⟩ := List.getElem?_of_mem hl
  exact hp.suffix_ok hj

/-- Only earlier lines target a line. -/
theorem Proper.targets_take (hp : Proper ins ls) (j : ℕ) : Targets (ls.take j) (j + 1) ↔ Targets ls (j + 1) :=
  Shell.targets_take hp.suffixes_ok j

theorem Proper.reads (hp : Proper ins ls) {j : ℕ} {inp : LineInput} {l : Pipeline} (hin : ins[j]? = some inp)
    (hl : ls[j]? = some l) : Reads inp l := by
  obtain ⟨hj, rfl⟩ := List.getElem?_eq_some_iff.1 hl
  obtain ⟨hj', rfl⟩ := List.getElem?_eq_some_iff.1 hin
  exact (List.forall₂_iff_get.1 hp.1).2 j hj' hj

theorem wired_of_stands (hp : Proper ins ls) (hst : Stands environ ins sps t) :
    ∃ ρ, Set.InjOn ρ (Pipes ls) ∧ RunWired ρ [] ins ls sps := by
  obtain ⟨s, hrun⟩ := run_of_stands hst
  obtain ⟨s', sps', ρ, hrun', hinj, hwired⟩ := hp.run environ
  rw [hrun, Except.ok.injEq, Prod.mk.injEq] at hrun'
  obtain ⟨-, rfl⟩ := hrun'
  exact ⟨ρ, hinj, hwired⟩

/-- Every running program is where the schedule puts it. -/
theorem Follows.placed (hfo : Follows progs sps t) {ρ : APipe → ℕ} (hwired : RunWired ρ [] ins ls sps)
    {i : ℕ × ℕ} {m : NetNode Channel UInt8} (hi : t.net.node i = some m) :
    ∃ inp l, Placed onTerminal progs ρ ins ls i m inp l := by
  have hm := hfo i
  rw [hi, Option.map_some] at hm
  split_ifs at hm
  obtain ⟨c, hc, hcm⟩ := Option.map_eq_some_iff.1 hm.symm
  exact hwired.placed hc hcm.symm

/-- Every command of every line that is done has been forked. -/
theorem Follows.node (hfo : Follows progs sps t) {ρ : APipe → ℕ} (hwired : RunWired ρ [] ins ls sps) {j c : ℕ}
    {l : Pipeline} (hl : ls[j]? = some l) (hc : c < l.cmds.length) (hlines : j < t.lines) :
    ∃ m inp, t.net.node (j, c) = some m ∧ Placed onTerminal progs ρ ins ls (j, c) m inp l := by
  have hlt : j < sps.length := hwired.length ▸ (List.getElem?_eq_some_iff.1 hl).1
  obtain ⟨inp, l', -, hl', hw⟩ := hwired.line (List.getElem?_eq_getElem hlt)
  obtain rfl : l = l' := Option.some.inj (hl.symm.trans hl')
  have hlen := congrArg List.length hw.argv
  rw [List.length_map] at hlen
  have hnode := hfo (j, c)
  rw [if_pos (.inl hlines), childAt, List.getElem?_eq_getElem hlt, Option.bind_some,
    List.getElem?_eq_getElem (by omega), Option.map_some] at hnode
  obtain ⟨m, hm, -⟩ := Option.map_eq_some_iff.1 hnode
  obtain ⟨inp', l', hplaced⟩ := hfo.placed hwired hm
  obtain rfl : l = l' := Option.some.inj (hl.symm.trans hplaced.line)
  exact ⟨m, inp', hm, hplaced⟩

theorem lines_of_node (hfo : Follows progs sps t) {i : ℕ × ℕ} {m : NetNode Channel UInt8}
    (hi : t.net.node i = some m) : i.1 < t.lines ∨ i.1 = t.lines ∧ i.2 < t.forks := by
  have hm := hfo i
  rw [hi, Option.map_some] at hm
  by_contra hno
  rw [if_neg hno] at hm
  cases hm

/-- The next command to be forked goes before the readers of what it writes. -/
theorem wired_of_placed (hp : Proper ins ls) {ρ : APipe → ℕ} (hinj : Set.InjOn ρ (Pipes ls))
    {N : Net (ℕ × ℕ) Channel UInt8} {i : ℕ × ℕ} {m : NetNode Channel UInt8}
    (hi : ∃ inp l, Placed onTerminal progs ρ ins ls i m inp l)
    (hN : ∀ j x, N.node j = some x → Before j i ∧ ∃ inp l, Placed onTerminal progs ρ ins ls j x inp l) :
    Net.Sound.Wired N m := by
  obtain ⟨inp, l, hm⟩ := hi
  have hok := hp.suffix_ok hm.line
  refine ⟨hm.holds, fun j x k hj hx hk => ?_, fun j x k hj hx hk => ?_, fun k hk hk' => ?_⟩
  · obtain ⟨hji, inp', l', hplaced⟩ := hN j x hj
    rw [hplaced.reader_eq hinj hm hx hk] at hji
    simp only [Before] at hji
    omega
  · obtain ⟨hji, inp', l', hplaced⟩ := hN j x hj
    have hbefore := hm.before hok hinj hplaced hk hx
    simp only [Before] at hji hbefore
    omega
  · have hbefore := hm.before hok hinj hm hk' hk
    simp only [Before] at hbefore
    omega

/-- What holds of a session at every moment: where the shell stands, that its programs are those the
    lines ask for, that they form a network in which writers come before readers, that behind a line
    that ends in no number pipe everything has ended, and that the terminal was written line by line. -/
structure Flowing (progs : ℕ × ℕ → StreamProgram UInt8) (environ : Environ) (ins : List LineInput)
    (sps : List (List Spawn)) (t : Flow) : Prop where
  stands : Stands environ ins sps t
  follows : Follows progs sps t
  sound : t.net.Sound
  waited : ∀ i m inp l, t.net.node i = some m → ins[i.1]? = some inp → Reads inp l → l.suffix.count = none →
    i.1 < t.lines → (t.phase = .wait → i.1 + 1 < t.lines) → m.ended = true
  sorted : (t.net.sent .terminal).Pairwise fun a b => a.1.1 ≤ b.1.1

theorem flowing_init (progs : ℕ × ℕ → StreamProgram UInt8) (environ : Environ) :
    Flowing progs environ [] [] (init environ) where
  stands := ⟨rfl, rfl, rfl⟩
  follows i := by simp [init, Net.empty]
  sound := Net.sound_empty
  waited i m inp l hi := by simp [init, Net.empty] at hi
  sorted := by simp [init, Net.empty]

theorem Proper.front {xs : List LineInput} (hp : Proper (ins ++ xs) ls) : ∃ ls', Proper ins ls' := by
  obtain ⟨h, hfits⟩ := hp
  refine ⟨ls.take ins.length, ?_, fun l hl => hfits l (List.mem_of_mem_take hl)⟩
  have htake := List.forall₂_take_append ls ins xs (List.Forall₂.flip h)
  exact htake.flip

theorem Flowing.lines_le (h : Flowing progs environ ins sps t) : t.lines ≤ ins.length := by
  have hst := h.stands
  unfold Stands at hst
  split at hst
  · obtain ⟨sps₀, sp, e, -, -, -, -, hlen, -⟩ := hst
    omega
  · exact hst.2.1.ge

/-- Where no row is being executed, all programs belong to lines that are done. -/
theorem Flowing.forks_eq (h : Flowing progs environ ins sps t) (hphase : t.phase = .wait) : t.forks = 0 := by
  have hst := h.stands
  simp only [Stands, hphase] at hst
  exact hst.2.2

/-- Forking the next command keeps the network sound. -/
theorem Flowing.sound_fork (h : Flowing progs environ ins sps t) (hp : Proper ins ls)
    {sps' : List (List Spawn)} (hst' : Stands environ ins sps' t') (hfo' : Follows progs sps' t') {c : Spawn}
    (hnet : t'.net = t.net.fork (t.lines, t.forks) (c.node (progs (t.lines, t.forks)))) : t'.net.Sound := by
  obtain ⟨ρ, hinj, hwired⟩ := wired_of_stands hp hst'
  have hold : ∀ {j x}, t.net.node j = some x → Before j (t.lines, t.forks) := fun hj => by
    have hlines := lines_of_node h.follows hj
    exact hlines
  have hnone : t.net.node (t.lines, t.forks) = none := by
    cases hn : t.net.node (t.lines, t.forks) with
    | none => rfl
    | some x =>
      have hbefore := hold hn
      simp only [Before] at hbefore
      omega
  have hnew : t'.net.node (t.lines, t.forks) = some (c.node (progs (t.lines, t.forks))) := by
    rw [hnet]
    exact t.net.set_node_self _ _
  rw [hnet]
  refine h.sound.fork hnone
    (wired_of_placed hp hinj (hfo'.placed hwired hnew) fun j x hj => ⟨hold hj, hfo'.placed hwired ?_⟩)
  rw [hnet]
  refine (t.net.set_node_of_ne ?_ _).trans hj
  rintro rfl
  rw [hnone] at hj
  cases hj

/-- While a program runs, no program of a later line has written to the terminal if it writes there. -/
theorem Flowing.before_terminal (h : Flowing progs environ ins sps t) (hp : Proper ins ls) {i j : ℕ × ℕ}
    {m x : NetNode Channel UInt8} (hi : t.net.node i = some m) (hrun : m.ended = false)
    (hsink : m.sink = some .terminal) (hj : t.net.node j = some x) : j.1 ≤ i.1 := by
  by_contra hlt
  obtain ⟨ρ, -, hwired⟩ := wired_of_stands hp h.stands
  obtain ⟨inp, l, hm⟩ := h.follows.placed hwired hi
  have hcount : l.suffix.count = none := by
    rcases hm.sink_cases with ⟨-, hs⟩ | ⟨-, ⟨n, -, hs⟩ | ⟨hs, -⟩ | ⟨name, hs, -⟩⟩
    · rw [hsink] at hs
      cases hs
    · rw [hsink] at hs
      cases hs
    · rw [hs]
      rfl
    · rw [hs]
      rfl
  have hjl := lines_of_node h.follows hj
  have hended := h.waited i m inp l hi hm.input (hp.reads hm.input hm.line) hcount (by omega) fun hw => by
    have := h.forks_eq hw
    omega
  rw [hrun] at hended
  cases hended

theorem forked_cases (progs : ℕ × ℕ → StreamProgram UInt8) (t : Flow) (new : List Spawn) :
    t.forked progs new = t.net ∨
      ∃ c : Spawn, t.forked progs new = t.net.fork (t.lines, t.forks) (c.node (progs (t.lines, t.forks))) := by
  cases new with
  | nil => exact .inl rfl
  | cons c cs => exact .inr ⟨c, rfl⟩

/-- A program that runs after a row was executed ran before or belongs to the current line. -/
theorem node_forked {new : List Spawn} {i : ℕ × ℕ} {m : NetNode Channel UInt8}
    (hi : (t.forked progs new).node i = some m) : t.net.node i = some m ∨ i.1 = t.lines := by
  rcases forked_cases progs t new with hsame | ⟨c, hfork⟩
  · rw [hsame] at hi
    exact .inl hi
  · rw [hfork] at hi
    rcases Net.node_set_cases (N := t.net) hi with ⟨rfl, -⟩ | ⟨-, hi⟩
    · exact .inr rfl
    · exact .inl hi

theorem Flowing.waited_step (h : Flowing progs environ ins sps t) (hm : Moves progs cap t ev t') :
    ∀ i m inp l, t'.net.node i = some m → (ins ++ ev.typed.toList)[i.1]? = some inp → Reads inp l →
      l.suffix.count = none → i.1 < t'.lines → (t'.phase = .wait → i.1 + 1 < t'.lines) → m.ended = true := by
  intro i m inp l hi hin hr hcount hlines hwait
  have hle := h.lines_le
  cases hm with
  | type phase parse =>
    rw [List.getElem?_append_left (by simp only at hlines; omega)] at hin
    exact h.waited i m inp l hi hin hr hcount hlines fun hw => by rw [phase] at hw; cases hw
  | process phase exec =>
    rw [show ins ++ FlowEvent.process.typed.toList = ins from List.append_nil ins] at hin
    rcases node_forked hi with hi | hline
    · exact h.waited i m inp l hi hin hr hcount hlines fun hw => by rw [phase] at hw; cases hw
    · exact absurd hlines (by simp only; omega)
  | @endLine pc opens w phase =>
    rw [show ins ++ FlowEvent.endLine.typed.toList = ins from List.append_nil ins] at hin
    have hst := h.stands
    simp only [Stands, phase] at hst
    obtain ⟨sps₀, sp, e, -, -, -, -, hlen, hw⟩ := hst
    simp only at hlines hwait
    rcases Nat.lt_or_ge i.1 t.lines with hlt | hge
    · exact h.waited i m inp l hi hin hr hcount hlt fun hw => by rw [phase] at hw; cases hw
    · -- the line that is done now: had it no number pipe, the shell would be waiting
      have hlast : ins.getLast? = some inp := by
        rw [List.getLast?_eq_getElem?, hlen, Nat.add_sub_cancel, ← hin]
        congr 1
        omega
      have hwf := hw inp hlast l hr
      rw [hcount, Option.isSome_none] at hwf
      subst hwf
      have := hwait (if_neg (by decide))
      omega
  | waited phase quiet =>
    have hall := List.all_eq_true.1 quiet i (h.sound.ids i m hi)
    simp only at hi
    rw [hi] at hall
    exact hall
  | @child e net move =>
    rw [show ins ++ (FlowEvent.child e).typed.toList = ins from List.append_nil ins] at hin
    have hblank := move.blank i
    simp only at hi
    rw [hi, Option.map_some] at hblank
    obtain ⟨m₀, hm₀, -⟩ := Option.map_eq_some_iff.1 hblank.symm
    have hended := h.waited i m₀ inp l hm₀ hin hr hcount hlines hwait
    obtain rfl := Option.some.inj (hi.symm.trans (move.ended hm₀ hended))
    exact hended

theorem Flowing.sorted_step (h : Flowing progs environ ins sps t) (hp : Proper ins ls)
    (hm : Moves progs cap t ev t') : (t'.net.sent .terminal).Pairwise fun a b => a.1.1 ≤ b.1.1 := by
  cases hm with
  | type phase parse => exact h.sorted
  | @process row rows pc opens w e phase exec =>
    rcases forked_cases progs t e.spawned with hsame | ⟨c, hfork⟩
    · simp only [hsame]
      exact h.sorted
    · simp only [hfork]
      exact h.sorted
  | endLine phase => exact h.sorted
  | waited phase quiet => exact h.sorted
  | @child e net move =>
    rcases move.sent .terminal with hsame | ⟨i, m, chunk, hi, hrun, hsink, hsent⟩
    · simp only [hsame]
      exact h.sorted
    · simp only [hsent]
      rw [List.pairwise_append]
      refine ⟨h.sorted, ?_, fun x hx y hy => ?_⟩
      · rw [List.pairwise_map]
        exact List.pairwise_of_forall fun _ _ => le_rfl
      · obtain ⟨z, hz, -⟩ := h.sound.writer .terminal x hx
        obtain ⟨c, -, rfl⟩ := List.mem_map.1 hy
        exact h.before_terminal hp hi hrun hsink hz

theorem flowing_step (hp : Proper (ins ++ ev.typed.toList) ls) (h : Flowing progs environ ins sps t)
    (hm : Moves progs cap t ev t') : ∃ sps', Flowing progs environ (ins ++ ev.typed.toList) sps' t' := by
  obtain ⟨sps', hst', hfo'⟩ := follows_step hp h.stands h.follows hm
  obtain ⟨ls₀, hp₀⟩ := hp.front
  refine ⟨sps', hst', hfo', ?_, h.waited_step hm, h.sorted_step hp₀ hm⟩
  cases hm with
  | type phase parse => exact h.sound
  | @process row rows pc opens w e phase exec =>
    rcases forked_cases progs t e.spawned with hsame | ⟨c, hfork⟩
    · simp only [hsame]
      exact h.sound
    · rw [show ins ++ FlowEvent.process.typed.toList = ins from List.append_nil ins] at hp hst'
      exact h.sound_fork hp hst' hfo' hfork
  | endLine phase => exact h.sound
  | waited phase quiet => exact h.sound
  | child move => exact h.sound.step move

/-- The lines typed in a run. -/
def typed (es : List FlowEvent) : List LineInput := es.filterMap FlowEvent.typed

theorem flowing_run : ∀ {es : List FlowEvent} {ins : List LineInput} {ls : List Pipeline}
    {sps : List (List Spawn)} {t t' : Flow}, Proper (ins ++ typed es) ls → Flowing progs environ ins sps t →
    runWith (step progs cap) t es = some t' → ∃ sps', Flowing progs environ (ins ++ typed es) sps' t'
  | [], ins, ls, sps, t, t', hp, h, hrun => by
    obtain rfl := Option.some.inj hrun
    refine ⟨sps, ?_⟩
    rw [show ins ++ typed [] = ins from List.append_nil ins]
    exact h
  | ev :: es, ins, ls, sps, t, t', hp, h, hrun => by
    obtain ⟨u, hu, hrest⟩ := runWith_cons hrun
    have happ : ins ++ typed (ev :: es) = ins ++ ev.typed.toList ++ typed es := by
      rw [List.append_assoc, typed, List.filterMap_cons]
      cases ev.typed <;> rfl
    rw [happ] at hp ⊢
    obtain ⟨ls₀, hp₀⟩ := hp.front
    obtain ⟨sps', h'⟩ := flowing_step hp₀ h (moves hu)
    exact flowing_run hp h' hrest

end Flow

end NetProg.Shell
