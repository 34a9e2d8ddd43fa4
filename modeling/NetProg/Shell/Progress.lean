import NetProg.Lib.Quiescence
import NetProg.Shell.WriteEnds

/-! When the `wait` loop of the project-1 shell can hang.

    As long as a program of the session runs, the first of them in the order of the forks can go on: all
    who could still write to its input have ended, so it can read or it sees the end. It stops only at a
    full pipe. If somebody reads that pipe, the reader can go on instead; what is left is a number pipe
    that only a later line will read, while the shell waits before it reads that line. -/

namespace NetProg.Shell.Flow

variable {progs : ℕ × ℕ → StreamProgram UInt8} {cap : ℕ} {environ : Environ} {ins : List LineInput}
  {ls : List Pipeline} {sps : List (List Spawn)} {t t' : Flow} {ev : FlowEvent}

/-! ### The variables of the shell, between any two steps -/

/-- The variables of the shell after the lines `pre`. -/
def AtPrompt (pre : List Pipeline) (v : Vars) : Prop :=
  ∃ U ρ, Counting .alone pre.length 1 U ρ v ∧
    (v.numPipeInFlag = false ∧ v.numPipeOutFlag = false ∧ v.writeFileFlag = false) ∧
    (∀ L c, .normal L c ∈ U → L ≤ pre.length) ∧ ∀ T, .num T ∈ U ↔ Targets pre T

/-- The variables of the shell before command `c` of the line `l` after the lines `pre`. -/
def InLine (pre : List Pipeline) (inp : LineInput) (l : Pipeline) (c : ℕ) (v : Vars) : Prop :=
  ∃ U ρ, Turning .alone (pre.length + 1) c U ρ v ∧ Aimed .alone (pre.length + 1) U ρ inp v l.suffix ∧
    ∀ T, .num T ∈ U ↔ Targets (pre ++ [l]) T

/-- The shell is at a prompt, or has some commands of a line still to fork. -/
def Ready (t : Flow) : Prop :=
  match t.phase with
  | .exec rows pc opens _ => ∃ pre inp l, pre.length = t.lines ∧ Reads inp l ∧ opens = inp.opens ∧
      pc = l.cmds.length ∧ rows = l.cmds.drop t.forks ∧
      (rows ≠ [] → InLine pre inp l t.forks t.shell.vars) ∧ (rows = [] → AtPrompt (pre ++ [l]) t.shell.vars)
  | _ => ∃ pre, pre.length = t.lines ∧ AtPrompt pre t.shell.vars

/-- The suffix of a line has acted, and nothing of it has been forked. -/
theorem inLine_of_parse {pre : List Pipeline} {s : Shell} {inp : LineInput} {l : Pipeline} {p : Parsed}
    (h : AtPrompt pre s.vars) (hr : Reads inp l) (hfits : l.suffix.Fits) (hp : s.parse inp = .ok p) :
    p.process = l.cmds ∧ InLine pre inp l 0 p.vars ∧
      applySuffix inp.opens ⟨s.startLine inp, [] ++ l.cmds, false⟩ l.suffix = some p := by
  obtain ⟨U, ρ, hcount, hflags, hnormal, hnum⟩ := h
  have htok : NetProg.tokens ' ' inp.line ≠ [] := by
    rw [hr.tokens_eq]
    exact tokens_ne_nil hr.ok
  have hstart : s.startLine inp =
      ({ s.vars with pipeOutNum := 1, fdIn := 0, redirectionFileName := inp.junk } : Vars).countdown := by
    simp [startLine, htok]
  have hstarted : Counting .alone pre.length 1 U ρ
      { s.vars with pipeOutNum := 1, fdIn := 0, redirectionFileName := inp.junk } :=
    hcount.congr rfl rfl (fun _ _ hx => hx) hcount.noName
  have hfresh : Fresh inp { s.vars with pipeOutNum := 1, fdIn := 0, redirectionFileName := inp.junk } :=
    ⟨hflags.1, hflags.2.1, hflags.2.2, rfl, rfl, rfl⟩
  obtain ⟨U₁, ρ₁, q, happ, hproc, -, hmem, hturn, haim, -⟩ :=
    line_turning hstarted hfresh hr.ok.suffix_ok hfits hnormal
  rw [parse, hr.tokens_eq, combine_tokens (fun _ hc => hc.1) inp.opens hr.ok, hstart] at hp
  simp only [List.nil_append] at hp
  rw [happ] at hp
  obtain rfl := Except.ok.inj hp
  refine ⟨hproc, ⟨U₁, ρ₁, hturn, haim, fun T => ?_⟩, by rw [hstart]; exact happ⟩
  rw [targets_concat, ← hnum T]
  refine (hmem (.num T)).trans (or_congr Iff.rfl ?_)
  constructor
  · rintro ⟨n, hn, heq⟩
    exact ⟨n, hn, (APipe.num.inj heq).symm⟩
  · rintro ⟨n, hn, rfl⟩
    exact ⟨n, hn, rfl⟩

theorem InLine.targets {pre : List Pipeline} {inp : LineInput} {l : Pipeline} {U : Set APipe}
    (hnum : ∀ T, .num T ∈ U ↔ Targets (pre ++ [l]) T) (hr : Reads inp l) :
    .num (pre.length + 1) ∈ U ↔ Targets pre (pre.length + 1) := by
  rw [hnum, targets_concat]
  refine ⟨fun h => h.resolve_right ?_, .inl⟩
  rintro ⟨n, hn, heq⟩
  have := hr.ok.suffix_ok.one_le hn
  omega

/-- One command of a line is forked. -/
theorem InLine.fork {pre : List Pipeline} {inp : LineInput} {l : Pipeline} {c : ℕ} {v : Vars}
    (h : InLine pre inp l c v) (hc : c < l.cmds.length) (last : Bool) (hlast : last = true ↔ c + 1 = l.cmds.length) :
    (last = false → InLine pre inp l (c + 1) (v.forkProcess inp.opens l.cmds.length last).1) ∧
      (last = true → AtPrompt (pre ++ [l]) (v.forkProcess inp.opens l.cmds.length last).1) := by
  obtain ⟨U, ρ, hturn, haim, hnum⟩ := h
  constructor
  · rintro rfl
    have hpc : l.cmds.length ≠ 1 := by
      have : ¬ c + 1 = l.cmds.length := fun heq => Bool.false_ne_true (hlast.2 heq)
      omega
    obtain ⟨ρ', -, hturn', haim', -⟩ := hturn.next inp.opens hpc haim
    refine ⟨_, ρ', hturn', haim', fun T => ?_⟩
    rw [← hnum T, Set.mem_insert_iff, or_iff_right]
    intro heq
    cases heq
  · rintro rfl
    have hc' := hlast.1 rfl
    obtain ⟨hcount, hin, hout, hfile⟩ := hturn.done inp.opens l.cmds.length haim (by omega)
    refine ⟨U, ρ, ?_, ⟨hin, hout, hfile⟩, fun L c' hmem => ?_, hnum⟩
    · rw [List.length_append, List.length_singleton]
      exact hcount
    · rw [List.length_append, List.length_singleton]
      have := hturn.free L c' hmem
      omega

theorem Proper.last {inp : LineInput} (hp : Proper (ins ++ [inp]) ls) : ∃ l, Reads inp l ∧ l.suffix.Fits := by
  have hlen := hp.1.length_eq
  rw [List.length_append, List.length_singleton] at hlen
  have hlt : ins.length < ls.length := by omega
  exact ⟨ls[ins.length], hp.reads (by simp) (List.getElem?_eq_getElem hlt), hp.2 _ (List.getElem_mem hlt)⟩

theorem ready_step (hp : Proper (ins ++ ev.typed.toList) ls) (hforks : t.phase = .prompt → t.forks = 0)
    (h : t.Ready) (hm : Moves progs cap t ev t') : t'.Ready := by
  cases hm with
  | @type inp p phase parse =>
    simp only [Ready, phase] at h
    obtain ⟨pre, hlen, hprompt⟩ := h
    obtain ⟨l, hr, hfits⟩ := Proper.last hp
    obtain ⟨hproc, hline, -⟩ := inLine_of_parse hprompt hr hfits parse
    have hzero := hforks phase
    refine ⟨pre, inp, l, hlen, hr, rfl, by rw [hproc], ?_, fun _ => ?_, fun hnil => ?_⟩
    · simp only [hzero, List.drop_zero, hproc]
    · simp only [hzero]
      exact hline
    · exact absurd (hproc.symm.trans hnil) hr.ok.cmds_ne
  | @process row rows pc opens w e phase exec =>
    simp only [Ready, phase] at h
    obtain ⟨pre, inp, l, hlen, hr, rfl, rfl, hrows, hline, -⟩ := h
    have hrow : l.cmds[t.forks]? = some row := by
      rw [← List.head?_drop, ← hrows]
      rfl
    have hrest : rows = l.cmds.drop (t.forks + 1) := by
      rw [← List.drop_drop, ← hrows]
      rfl
    have hlt := (List.getElem?_eq_some_iff.1 hrow).1
    rw [execProcess_external _ _ _ _ (hr.ok.cmds_ok row (List.mem_of_getElem? hrow))] at exec
    obtain rfl := Except.ok.inj exec
    have hlast : rows.isEmpty = true ↔ t.forks + 1 = l.cmds.length := by
      rw [List.isEmpty_iff, hrest, List.drop_eq_nil_iff]
      omega
    obtain ⟨hnext, hdone⟩ := (hline (List.cons_ne_nil _ _)).fork hlt rows.isEmpty hlast
    refine ⟨pre, inp, l, hlen, hr, rfl, rfl, hrest, fun hne => hnext ?_, fun hnil => hdone ?_⟩
    · rwa [List.isEmpty_eq_false_iff]
    · rwa [List.isEmpty_iff]
  | @endLine pc opens w phase =>
    simp only [Ready, phase] at h
    obtain ⟨pre, inp, l, hlen, -, -, -, -, -, hprompt⟩ := h
    cases w <;> exact ⟨pre ++ [l], by simp [hlen], hprompt trivial⟩
  | waited phase quiet =>
    simp only [Ready, phase] at h
    exact h
  | child move => exact h

theorem ready_init (environ : Environ) : (init environ).Ready := by
  refine ⟨[], rfl, ∅, fun _ => 0, ?_, ⟨rfl, rfl, rfl⟩, by simp, fun T => by simp [targets_nil]⟩
  exact Pending.iff_counting.mp (prompt_init environ fun _ => 0).pending

/-! ### Who holds a write end -/

/-- Whoever holds the write end of a pipe was forked before its reader, and the shell holds none once
    the reader is there. -/
structure Drained (t : Flow) : Prop where
  tidy : t.shell.vars.Tidy
  shell : ∀ i m id, t.net.node i = some m → m.source = some (.pipe id) →
    id < t.shell.vars.kernel.pipes ∧ ∀ x, t.shell.vars.kernel.get x ≠ some (.pipeW id)
  holders : ∀ i m j x id, t.net.node i = some m → m.source = some (.pipe id) → t.net.node j = some x →
    .pipe id ∈ x.holds → Before j i

theorem drained_init (environ : Environ) : (init environ).Drained where
  tidy x id hx := by
    rcases x with - | - | - | x
    · cases hx
    · cases hx
    · cases hx
    · simp [init, Shell.init, Kernel.get, FdTable.get] at hx
  shell i m id hi := by simp [init, Net.empty] at hi
  holders i m j x id hi := by simp [init, Net.empty] at hi

theorem writeChannel_pipe {d : Option Desc} {id : ℕ} (h : writeChannel d = some (.pipe id)) :
    d = some (.pipeW id) := by
  cases d with
  | none => cases h
  | some d =>
    cases d with
    | pipeW id' =>
      obtain rfl : id' = id := by simpa [writeChannel] using h
      rfl
    | own n => rcases n with - | - | n <;> cases h
    | pipeR id' => cases h
    | file name => cases h
    | listen => cases h
    | sock n => cases h

theorem holds_node {s : Spawn} {program : StreamProgram UInt8} {id : ℕ}
    (h : Channel.pipe id ∈ (s.node program).holds) : ∃ x, s.fds.get x = some (.pipeW id) := by
  obtain ⟨d, hd, hw⟩ := List.mem_filterMap.1 h
  obtain ⟨x, hx⟩ := List.getElem?_of_mem hd
  refine ⟨x, ?_⟩
  rw [FdTable.get, List.getD_eq_getElem?_getD, hx]
  exact writeChannel_pipe hw

theorem source_node {s : Spawn} {program : StreamProgram UInt8} {id : ℕ}
    (h : (s.node program).source = some (.pipe id)) : s.fds.get 0 = some (.pipeR id) := by
  change readChannel (s.fds.get 0) = some (.pipe id) at h
  revert h
  cases hd : s.fds.get 0 with
  | none => simp [readChannel]
  | some d => cases d <;> simp [readChannel]

/-- One command is forked. -/
theorem Drained.fork (h : t.Drained) (hfo : Follows progs sps t) {pre : List Pipeline} {inp : LineInput}
    {l : Pipeline} {last : Bool} {argv : List Token} (hline : InLine pre inp l t.forks t.shell.vars)
    (hr : Reads inp l) (hc : t.forks < l.cmds.length)
    (hvars : t'.shell.vars = (t.shell.vars.forkProcess inp.opens l.cmds.length last).1)
    (hnet : t'.net = t.net.fork (t.lines, t.forks)
      (Spawn.node ⟨argv, (t.shell.vars.forkProcess inp.opens l.cmds.length last).2⟩ (progs (t.lines, t.forks)))) :
    t'.Drained := by
  obtain ⟨U, ρ, hturn, haim, hnum⟩ := hline
  have hname := hturn.counting.noName.1
  have hpre := InLine.targets hnum hr
  have hle := Vars.pipes_le_fork t.shell.vars inp.opens l.cmds.length last
  -- what the child reads, the shell has closed
  have hsource : ∀ id, (Spawn.node ⟨argv, (t.shell.vars.forkProcess inp.opens l.cmds.length last).2⟩
      (progs (t.lines, t.forks))).source = some (.pipe id) → id < t.shell.vars.kernel.pipes ∧
      ∀ x, x ∉ t.shell.vars.beforeCloses → t.shell.vars.kernel.get x ≠ some (.pipeW id) := fun id hs =>
    hturn.source_closed h.tidy hpre inp.opens (fun h1 => by omega) (source_node hs)
  -- what the child can write, the shell had, or it is new
  have hholds : ∀ id, Channel.pipe id ∈ (Spawn.node
      ⟨argv, (t.shell.vars.forkProcess inp.opens l.cmds.length last).2⟩ (progs (t.lines, t.forks))).holds →
      (∃ x, x ∉ t.shell.vars.beforeCloses ∧ t.shell.vars.kernel.get x = some (.pipeW id)) ∨
        id = t.shell.vars.kernel.pipes := fun id hid => by
    obtain ⟨x, hx⟩ := holds_node hid
    refine OnlyWrites.forkProcess (P := fun id => (∃ x, x ∉ t.shell.vars.beforeCloses ∧
      t.shell.vars.kernel.get x = some (.pipeW id)) ∨ id = t.shell.vars.kernel.pipes) (fun y id' hy => ?_) x id hx
    rcases Vars.write_forkKernel hy with hold | hnew
    · exact .inl ⟨y, hold⟩
    · exact .inr hnew
  refine ⟨?_, fun i m id hi hs => ?_, fun i m j x id hi hs hj hx => ?_⟩
  · rw [hvars]
    exact h.tidy.fork hname inp.opens l.cmds.length last
  · rw [hvars]
    rw [hnet] at hi
    rcases Net.node_set_cases (N := t.net) hi with ⟨-, rfl⟩ | ⟨-, hold⟩
    · obtain ⟨hlt, hnone⟩ := hsource id hs
      refine ⟨hlt.trans_le hle, fun x hx => ?_⟩
      obtain ⟨hmem, hget⟩ := Vars.write_fork hx
      exact hnone x hmem hget
    · obtain ⟨hlt, hnone⟩ := h.shell i m id hold hs
      refine ⟨hlt.trans_le hle, fun x hx => ?_⟩
      exact hnone x (Vars.write_fork hx).2
  · rw [hnet] at hi hj
    rcases Net.node_set_cases (N := t.net) hi with ⟨rfl, rfl⟩ | ⟨-, hold⟩
    · rcases Net.node_set_cases (N := t.net) hj with ⟨rfl, rfl⟩ | ⟨-, hold'⟩
      · obtain ⟨hlt, hnone⟩ := hsource id hs
        rcases hholds id hx with ⟨y, hmem, hget⟩ | hnew
        · exact absurd hget (hnone y hmem)
        · omega
      · exact lines_of_node hfo hold'
    · obtain ⟨hlt, hnone⟩ := h.shell i m id hold hs
      rcases Net.node_set_cases (N := t.net) hj with ⟨rfl, rfl⟩ | ⟨-, hold'⟩
      · rcases hholds id hx with ⟨y, -, hget⟩ | hnew
        · exact absurd hget (hnone y)
        · omega
      · exact h.holders i m j x id hold hs hold' hx

theorem drained_step (hp : Proper (ins ++ ev.typed.toList) ls) (hready : t.Ready) (hfo : Follows progs sps t)
    (h : t.Drained) (hm : Moves progs cap t ev t') : t'.Drained := by
  cases hm with
  | @type inp p phase parse =>
    simp only [Ready, phase] at hready
    obtain ⟨pre, hlen, hprompt⟩ := hready
    obtain ⟨l, hr, hfits⟩ := Proper.last hp
    obtain ⟨-, -, happ⟩ := inLine_of_parse hprompt hr hfits parse
    have htok : NetProg.tokens ' ' inp.line ≠ [] := by
      rw [hr.tokens_eq]
      exact tokens_ne_nil hr.ok
    have hstart : t.shell.startLine inp = ({ t.shell.vars with
        pipeOutNum := 1, fdIn := 0, redirectionFileName := inp.junk } : Vars).countdown := by
      simp [startLine, htok]
    have hker : (t.shell.startLine inp).kernel = t.shell.vars.kernel := by
      rw [hstart]
      rfl
    have htidy : (t.shell.startLine inp).Tidy := by
      rw [hstart]
      exact Vars.Tidy.countdown (h.tidy.congr rfl rfl)
    obtain ⟨hle, hwrite⟩ := write_applySuffix happ
    simp only [hker] at hle hwrite
    refine ⟨tidy_applySuffix htidy happ, fun i m id hi hs => ?_, h.holders⟩
    obtain ⟨hlt, hnone⟩ := h.shell i m id hi hs
    refine ⟨hlt.trans_le hle, fun x hx => ?_⟩
    rcases hwrite x id hx with hold | hnew
    · exact hnone x hold
    · omega
  | @process row rows pc opens w e phase exec =>
    simp only [Ready, phase] at hready
    obtain ⟨pre, inp, l, hlen, hr, rfl, rfl, hrows, hline, -⟩ := hready
    have hrow : l.cmds[t.forks]? = some row := by
      rw [← List.head?_drop, ← hrows]
      rfl
    rw [execProcess_external _ _ _ _ (hr.ok.cmds_ok row (List.mem_of_getElem? hrow))] at exec
    obtain rfl := Except.ok.inj exec
    have hlt := (List.getElem?_eq_some_iff.1 hrow).1
    exact Drained.fork h hfo (hline (List.cons_ne_nil _ _)) hr hlt rfl rfl
  | endLine phase => exact ⟨h.tidy, h.shell, h.holders⟩
  | waited phase quiet => exact ⟨h.tidy, h.shell, h.holders⟩
  | @child e net move =>
    have hold : ∀ {i m}, net.node i = some m → ∃ m₀, t.net.node i = some m₀ ∧ m₀.source = m.source ∧
        m₀.holds = m.holds := fun {i m} hi => by
      have hblank := move.blank i
      rw [hi, Option.map_some] at hblank
      obtain ⟨m₀, hm₀, heq⟩ := Option.map_eq_some_iff.1 hblank.symm
      exact ⟨m₀, hm₀, (congrArg NetNode.source heq : m₀.blank.source = m.blank.source),
        (congrArg NetNode.holds heq : m₀.blank.holds = m.blank.holds)⟩
    refine ⟨h.tidy, fun i m id hi hs => ?_, fun i m j x id hi hs hj hx => ?_⟩
    · obtain ⟨m₀, hm₀, hsource, -⟩ := hold hi
      exact h.shell i m₀ id hm₀ (hsource.trans hs)
    · obtain ⟨m₀, hm₀, hsource, -⟩ := hold hi
      obtain ⟨x₀, hx₀, -, hholds⟩ := hold hj
      exact h.holders i m₀ j x₀ id hm₀ (hsource.trans hs) hx₀ (hholds ▸ hx)

/-! ### Whole runs -/

/-- What is known of a session at every moment. -/
structure Settled (progs : ℕ × ℕ → StreamProgram UInt8) (environ : Environ) (ins : List LineInput)
    (sps : List (List Spawn)) (t : Flow) : Prop where
  flowing : Flowing progs environ ins sps t
  ready : t.Ready
  drained : t.Drained

theorem Flowing.forks_prompt (h : Flowing progs environ ins sps t) (hphase : t.phase = .prompt) :
    t.forks = 0 := by
  have hst := h.stands
  simp only [Stands, hphase] at hst
  exact hst.2.2

theorem settled_run : ∀ {es : List FlowEvent} {ins : List LineInput} {ls : List Pipeline}
    {sps : List (List Spawn)} {t t' : Flow}, Proper (ins ++ typed es) ls → Settled progs environ ins sps t →
    runWith (step progs cap) t es = some t' → ∃ sps', Settled progs environ (ins ++ typed es) sps' t'
  | [], ins, ls, sps, t, t', hp, h, hrun => by
    obtain rfl := Option.some.inj hrun
    refine ⟨sps, ?_⟩
    rw [show ins ++ typed [] = ins from List.append_nil ins]
    exact h
  | ev :: es, ins, ls, sps, t, t', hp, h, hrun => by
    obtain ⟨u, hu, hrest⟩ := runWith_cons hrun
    have happ : ins ++ typed (ev :: es) = ins ++ ev.typed.toList ++ typed es := by
      rw [List.append_assoc, typed, List.filterMap_cons]
      cases ev.typed <;> rfl
    rw [happ] at hp ⊢
    obtain ⟨ls₀, hp₀⟩ := hp.front
    have hm := moves hu
    obtain ⟨sps', hflow⟩ := flowing_step hp₀ h.flowing hm
    exact settled_run hp ⟨hflow, ready_step hp₀ h.flowing.forks_prompt h.ready hm,
      drained_step hp₀ h.ready h.flowing.follows h.drained hm⟩ hrest

theorem settled_init (progs : ℕ × ℕ → StreamProgram UInt8) (environ : Environ) :
    Settled progs environ [] [] (init environ) :=
  ⟨flowing_init progs environ, ready_init environ, drained_init environ⟩

/-! ### The `wait` loop -/

/-- A program gets further. -/
def Works (progs : ℕ × ℕ → StreamProgram UInt8) (cap : ℕ) (t t' : Flow) : Prop :=
  ∃ e, e.Useful t.net ∧ t.step progs cap (.child e) = some t'

/-- A command writes to the number pipe of a line that has not been read yet, and the pipe is full. -/
def Stuck (cap : ℕ) (ls : List Pipeline) (t : Flow) : Prop :=
  ∃ i m l n id, t.net.node i = some m ∧ m.ended = false ∧ ls[i.1]? = some l ∧ l.suffix.count = some n ∧
    t.lines ≤ i.1 + n ∧ m.sink = some (.pipe id) ∧
    t.net.taken (.pipe id) + cap ≤ (t.net.sent (.pipe id)).length

instance : IsStrictTotalOrder (ℕ × ℕ) Before where
  irrefl i h := by
    simp only [Before] at h
    omega
  trans i j k h h' := by
    simp only [Before] at h h' ⊢
    omega
  trichotomous i j h h' := by
    simp only [Before] at h h'
    exact Prod.ext (by omega) (by omega)

theorem before_wf : WellFounded Before := by
  refine Subrelation.wf (r := Prod.Lex (· < ·) (· < ·)) ?_ (WellFounded.prod_lex wellFounded_lt wellFounded_lt)
  rintro ⟨a, b⟩ ⟨c, d⟩ (h | ⟨h, h'⟩)
  · exact Prod.Lex.left _ _ h
  · simp only at h h'
    rw [h]
    exact Prod.Lex.right _ h'

/-- The commands of a session are in the order of their pipes. -/
theorem ordered_of_placed (hp : Proper ins ls) {ρ : APipe → ℕ} (hinj : Set.InjOn ρ (Pipes ls))
    (hwired : RunWired ρ [] ins ls sps) (hfo : Follows progs sps t) : t.net.Ordered Before := by
  intro i j m x k hi hj hm hx
  obtain ⟨inp, l, hplaced⟩ := hfo.placed hwired hi
  obtain ⟨inp', l', hplaced'⟩ := hfo.placed hwired hj
  obtain ⟨p, hmem, hread, rfl⟩ := hplaced'.reads hx
  obtain ⟨p', hmem', hbefore, hid⟩ := hplaced.writes (hp.suffix_ok hplaced.line) hm
  rw [← hinj hmem hmem' hid, hread] at hbefore
  exact hbefore

theorem holdsWrite_false {k : Kernel} {id : ℕ} (h : ∀ x, k.get x ≠ some (.pipeW id)) :
    k.holdsWrite (.pipe id) = false := by
  rw [Kernel.holdsWrite, List.any_eq_false]
  intro d hd hw
  obtain ⟨x, hx⟩ := List.getElem?_of_mem hd
  refine h x ?_
  rw [Kernel.get, FdTable.get, List.getD_eq_getElem?_getD, hx]
  exact writeChannel_pipe (beq_iff_eq.1 hw)

/-- In the `wait` loop some program gets further, or all have ended, or one is stuck. -/
theorem Settled.wait_progress (h : Settled progs environ ins sps t) (hp : Proper ins ls)
    (hwait : t.phase = .wait) (hcap : 0 < cap) :
    (∃ t', Works progs cap t t') ∨ t.net.quiet = true ∨ Stuck cap ls t := by
  obtain ⟨ρ, hinj, hwired⟩ := wired_of_stands hp h.flowing.stands
  have hfo := h.flowing.follows
  have hforks := h.flowing.forks_eq hwait
  have hdone : ∀ {i m}, t.net.node i = some m → i.1 < t.lines := fun hi => by
    have := lines_of_node hfo hi
    omega
  rcases Classical.em (∃ i m, t.net.node i = some m ∧ m.ended = false) with hlive | hno
  · -- the first program that runs
    obtain ⟨i, ⟨m, hi, hrun⟩, hfirst⟩ := before_wf.has_min {i | ∃ m, t.net.node i = some m ∧ m.ended = false} hlive
    obtain ⟨inp, l, hplaced⟩ := hfo.placed hwired hi
    have hclosed : ∀ k, m.source = some k →
        t.shell.vars.kernel.holdsWrite k = false ∧ t.net.closed k = true := fun k hk => by
      obtain ⟨p, -, -, rfl⟩ := hplaced.reads hk
      refine ⟨holdsWrite_false (h.drained.shell i m _ hi hk).2, List.all_eq_true.2 fun j _ => ?_⟩
      cases hj : t.net.node j with
      | none => rfl
      | some x =>
        rw [Bool.or_eq_true, Bool.not_eq_true']
        rcases Classical.em (Channel.pipe (ρ p) ∈ x.holds) with hx | hx
        · left
          have hbefore := h.drained.holders i m j x _ hi hk hj hx
          by_contra hended
          exact hfirst j ⟨x, hj, by simpa using hended⟩ hbefore
        · right
          rw [← Bool.not_eq_true, List.contains_iff_mem]
          exact hx
    have hroom : ∀ k c, room cap k = some c → 0 < c := fun k c hc => by
      cases k with
      | pipe id => exact Option.some.inj hc ▸ hcap
      | terminal => cases hc
      | sock n => cases hc
      | file name => cases hc
    have hsome : ∃ k, m.sink = some k := by
      rcases hplaced.sink_cases with ⟨-, hs⟩ | ⟨-, ⟨n, -, hs⟩ | ⟨-, hs⟩ | ⟨name, -, hs⟩⟩ <;> exact ⟨_, hs⟩
    obtain ⟨k, hk⟩ := hsome
    rcases h.flowing.sound.works_or_full hroom hi hrun hk hclosed with ⟨N, ev, huse, hs⟩ | ⟨-, c, hc, hfull, hno⟩
    · refine .inl ⟨{ t with net := N }, ev, huse, ?_⟩
      rw [step, hs.step]
      rfl
    · right
      right
      rcases hplaced.sink_cases with ⟨hlt, hs⟩ | ⟨-, ⟨n, hn, hs⟩ | ⟨-, hs⟩ | ⟨name, -, hs⟩⟩ <;>
        obtain rfl : k = _ := Option.some.inj (hk.symm.trans hs)
      · -- the command behind it reads the pipe
        obtain ⟨x, inp', hx, hplaced'⟩ := hfo.node hwired hplaced.line hlt (hdone hi)
        exact absurd (hplaced'.source_normal rfl) (hno _ x hx)
      · rcases Nat.lt_or_ge (i.1 + n) t.lines with hlt | hge
        · -- the target line has been executed, and its first command reads the pipe
          have hlines := h.flowing.lines_le
          have hlen := hp.1.length_eq
          have hlt' : i.1 + n < ls.length := by omega
          have hT : Targets ls (i.1 + n + 1) := ⟨i.1, l, n, hplaced.line, hn, by omega⟩
          have hin : i.1 + n < ins.length := by omega
          have hne := (hp.reads (List.getElem?_eq_getElem hin) (List.getElem?_eq_getElem hlt')).ok.cmds_ne
          obtain ⟨x, inp', hx, hplaced'⟩ := hfo.node hwired (List.getElem?_eq_getElem hlt')
            (List.length_pos_of_ne_nil hne) hlt
          have hsource := hplaced'.source_num rfl ((hp.targets_take _).2 hT)
          refine absurd hsource ?_
          rw [show (i.1 + n, 0).1 + 1 = i.1 + 1 + n by simp only; omega]
          exact hno _ x hx
        · obtain rfl : cap = c := Option.some.inj hc
          exact ⟨i, m, l, n, _, hi, hrun, hplaced.line, hn, hge, hk, hfull⟩
      · cases hc
      · cases hc
  · refine .inr (.inl (List.all_eq_true.2 fun j _ => ?_))
    cases hj : t.net.node j with
    | none => rfl
    | some x =>
      by_contra hended
      exact hno ⟨j, x, hj, by simpa using hended⟩

theorem Works.cases (h : Works progs cap t t') : ∃ e net, t' = { t with net := net } ∧
    t.net.Works (room cap) t.shell.vars.kernel.holdsWrite net ∧ Moves progs cap t (.child e) t' := by
  obtain ⟨e, huse, hs⟩ := h
  have hm := moves hs
  cases hm with
  | @child e net move => exact ⟨e, net, rfl, ⟨e, huse, move⟩, .child move⟩

theorem Settled.works (h : Settled progs environ ins sps t) (hp : Proper ins ls) (hw : Works progs cap t t') :
    (∃ sps', Settled progs environ ins sps' t') ∧ t'.phase = t.phase := by
  obtain ⟨e, net, hnet, -, hm⟩ := hw.cases
  have htyped : ins ++ (FlowEvent.child e).typed.toList = ins := List.append_nil ins
  obtain ⟨sps', hflow⟩ := flowing_step (htyped ▸ hp) h.flowing hm
  rw [htyped] at hflow
  exact ⟨⟨sps', hflow, ready_step (htyped ▸ hp) h.flowing.forks_prompt h.ready hm,
    drained_step (htyped ▸ hp) h.ready h.flowing.follows h.drained hm⟩, by rw [hnet]⟩

/-- What ends the work of the programs ends it for the session. -/
theorem acc_works {held : Channel → Bool} {N : Net (ℕ × ℕ) Channel UInt8}
    (h : Acc (fun b a => a.Works (room cap) held b) N) : ∀ t : Flow, t.net = N →
    t.shell.vars.kernel.holdsWrite = held → Acc (fun b a => Works progs cap a b) t := by
  induction h with
  | intro N _ ih =>
    rintro t rfl rfl
    refine Acc.intro t fun u hu => ?_
    obtain ⟨e, net, rfl, hworks, -⟩ := hu.cases
    exact ih net hworks _ rfl rfl

/-- A stuck command keeps the `wait` loop from ending. -/
theorem Stuck.not_waited {u v : Flow} (h : Stuck cap ls u) (hsound : u.net.Sound) (hphase : u.phase = .wait) :
    u.step progs cap .waited ≠ some v := by
  obtain ⟨i, m, -, -, -, hi, hrun, -⟩ := h
  have hquiet : u.net.quiet = false := by
    refine List.all_eq_false.2 ⟨i, hsound.ids i m hi, ?_⟩
    simp only [hi, hrun]
    exact Bool.false_ne_true
  simp only [step, hphase, hquiet]
  exact fun hwaited => (by cases hwaited)

/-- Once the `wait` loop of a session over well-formed lines is entered, its programs cannot go on for
    ever, however they are scheduled; and when none of them can do anything more, the loop ends, unless
    a command is stuck at a full number pipe that only a line behind the loop will read. -/
theorem wait_loop_ends (progs : ℕ × ℕ → StreamProgram UInt8) (cap : ℕ) (environ : Environ)
    (es : List FlowEvent) (ls : List Pipeline) (t : Flow)
    (hrun : runWith (step progs cap) (init environ) es = some t)
    (hr : List.Forall₂ Reads (typed es) ls) (hfits : ∀ l ∈ ls, l.suffix.Fits) (hcap : 0 < cap)
    (hwait : t.phase = .wait) :
    Acc (fun b a => Works progs cap a b) t ∧
      ∀ u, Relation.ReflTransGen (Works progs cap) t u → (¬ ∃ v, Works progs cap u v) →
        ((∃ v, u.step progs cap .waited = some v) ↔ ¬ Stuck cap ls u) := by
  have hp : Proper (typed es) ls := ⟨hr, hfits⟩
  have hp' : Proper ([] ++ typed es) ls := hp
  obtain ⟨sps, h⟩ := settled_run hp' (settled_init progs environ) hrun
  rw [List.nil_append] at h
  obtain ⟨ρ, hinj, hwired⟩ := wired_of_stands hp h.flowing.stands
  have hordered := ordered_of_placed hp hinj hwired h.flowing.follows
  refine ⟨acc_works (h.flowing.sound.acc hordered) t rfl rfl, fun u hu hstop => ?_⟩
  have hlater : (∃ sps', Settled progs environ (typed es) sps' u) ∧ u.phase = .wait := by
    clear hstop
    induction hu with
    | refl => exact ⟨⟨sps, h⟩, hwait⟩
    | tail _ hstep ih =>
      obtain ⟨⟨sps', hs⟩, hphase⟩ := ih
      obtain ⟨hs', hphase'⟩ := hs.works hp hstep
      exact ⟨hs', hphase'.trans hphase⟩
  obtain ⟨⟨sps', hs⟩, hphase⟩ := hlater
  refine ⟨fun ⟨v, hv⟩ hstuck => hstuck.not_waited hs.flowing.sound hphase hv, fun hfree => ?_⟩
  rcases hs.wait_progress hp hphase hcap with hgo | hquiet | hstuck
  · exact absurd hgo hstop
  · refine ⟨{ u with phase := .prompt }, ?_⟩
    simp only [step, hphase, hquiet, if_true]
  · exact absurd hstuck hfree

/-- The session `ls |1`, `cat` up to the `wait` loop. -/
def lsThenCatWaits : List FlowEvent := lsThenCat.take 8

theorem lsThenCatWaits_end : (runWith (step lsCat 1) (init fun _ => none) lsThenCatWaits).map
    (fun t => t.phase) = some .wait := by
  rfl

theorem wait_loop_ends_ls_cat :
    ∃ t, runWith (step lsCat 1) (init fun _ => none) lsThenCatWaits = some t ∧
      Acc (fun b a => Works lsCat 1 a b) t ∧
      ∀ u, Relation.ReflTransGen (Works lsCat 1) t u → (¬ ∃ v, Works lsCat 1 u v) →
        ((∃ v, u.step lsCat 1 .waited = some v) ↔ ¬ Stuck 1 lsThenCatLines u) := by
  obtain ⟨t, hrun, hphase⟩ := Option.map_eq_some_iff.1 lsThenCatWaits_end
  exact ⟨t, hrun, wait_loop_ends lsCat 1 _ lsThenCatWaits lsThenCatLines t hrun reads_lsThenCat (by decide)
    one_pos hphase⟩

end NetProg.Shell.Flow
