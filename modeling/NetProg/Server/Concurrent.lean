import NetProg.Shell.Line
import NetProg.Server.Identity

/-! Number pipes of several users in one server do not interfere.

    All users share one descriptor table and one `npshell`. Still every user gets the schedule of its
    own lines: which pipe a command reads or writes depends on what its user has typed so far, and the
    pipes of two users are never the same. The invariant is over the events so far: the pipes in use
    are those of the schedules of all users, and the pending pipes of each user wait in its own
    `num_pipe_vec`, whoever's line is next. -/

namespace NetProg.Server

open Shell (Pipeline Suffix APipe AEnd Setting Counting Targets)

/-! ### What the users do -/

/-- A command that is not a builtin, of words that are no pipes. -/
def External (c : List Token) : Prop :=
  c ≠ [] ∧ (∀ t ∈ c, ordinary t = true) ∧ ∀ cmd ∈ builtinCmds, c.head? ≠ some cmd

instance (c : List Token) : Decidable (External c) := inferInstanceAs (Decidable (_ ∧ _))

/-- A line that reads as the pipeline `l`, with files that can be opened. -/
structure Reads (inp : LineInput) (l : Pipeline) : Prop where
  tokens_eq : tokens ' ' inp.line = l.tokens
  ok : l.Ok External
  creat : inp.opens.creat = true
  redir : inp.opens.redir = true

/-- What happens to the server: a client logs in, or a user (counted from 0 in the order of the logins)
    sends a blank line or a pipeline. -/
inductive Event where
  | login (addr : List Char) (port junk : ℕ)
  | blank (u : ℕ) (inp : LineInput)
  | line (u : ℕ) (inp : LineInput) (l : Pipeline)

/-- What `select` and `read` give the server for an event. -/
def Event.input (s : Server) : Event → Input
  | .login addr port junk => .accept addr port junk
  | .blank u inp => .line (s.user u).sock inp
  | .line u inp _ => .line (s.user u).sock inp

/-- Run the server over some events, with the children each of them makes. -/
def play : Server → List Event → Option (Server × List (List Spawn))
  | s, [] => some (s, [])
  | s, e :: es => (s.step (e.input s)).bind fun r =>
      (play r.1 es).map fun q => (q.1, r.2.1 :: q.2)

/-- At most 30 clients log in, a line is one of a user that has logged in, and it is blank or what it is
    said to be; `n` users are logged in already. -/
def Allowed : ℕ → List Event → Prop
  | _, [] => True
  | n, .login _ _ _ :: es => n < qlen ∧ Allowed (n + 1) es
  | n, .blank u inp :: es => u < n ∧ inp.line = [] ∧ Allowed n es
  | n, .line u inp l :: es => u < n ∧ Reads inp l ∧ Allowed n es

/-- The line has no `%`, so `sprintf` copies it; the count of a number pipe fits an `int`, and a file name
    fits its buffer with the NUL behind. -/
def Event.Fits : Event → Prop
  | .line _ inp l => '%' ∉ inp.line ∧ l.suffix.Fits ∧ ∀ name, l.suffix = .file name → name.length < 100
  | _ => True

/-! ### What the schedules of their own lines say -/

/-- The lines of user `u` that are not blank. -/
def linesOf (u : ℕ) : List Event → List Pipeline
  | [] => []
  | .login _ _ _ :: es => linesOf u es
  | .blank _ _ :: es => linesOf u es
  | .line w _ l :: es => if w = u then l :: linesOf u es else linesOf u es

/-- The pipes that occur in the schedules of the users, each named by its user and its purpose. -/
def UserPipes (es : List Event) : Set (ℕ × APipe) := {q | q.2 ∈ Shell.Pipes (linesOf q.1 es)}

/-- The shell of user `u`: its standard descriptors are its socket, and its pipes carry its number. -/
def ofUser (u : ℕ) : Setting (ℕ × APipe) where
  std := fun _ => .sock u
  name := Prod.mk u
  std_ne := by simp
  name_inj := Prod.mk_right_injective u

theorem junk_length : (List.replicate 100 '\x00').length = 100 := List.length_replicate

/-- The line as the schedule sees it: `redirection_file_name` is all zeros. -/
def LineInput.shell (inp : LineInput) : Shell.LineInput :=
  ⟨inp.line, List.replicate 100 '\x00', junk_length, inp.opens⟩

/-- The children of a line of user `u` are its commands in order, wired as the schedule of the lines
    `pre` of the same user says; whatever it does not mention is the socket of the user. -/
structure LineWired (ρ : ℕ × APipe → ℕ) (u : ℕ) (pre : List Pipeline) (inp : LineInput) (l : Pipeline)
    (sp : List Spawn) : Prop where
  program : sp.map (·.argv.head?) = l.cmds.map (·.head?)
  stdin : ∀ c s, sp[c]? = some s →
    s.fds.get 0 = some ((ofUser u).desc ρ (Shell.stdinEnd pre c))
  stdout : ∀ c s, sp[c]? = some s →
    s.fds.get 1 = some ((ofUser u).desc ρ (Shell.stdoutEnd (pre.length + 1) inp.shell l c))
  stderr : ∀ c s, sp[c]? = some s →
    s.fds.get 2 = some ((ofUser u).desc ρ (Shell.stderrEnd (pre.length + 1) l c))

/-- The children of one event, after the events `past`. -/
def EventWired (ρ : ℕ × APipe → ℕ) (past : List Event) : Event → List Spawn → Prop
  | .login _ _ _, sp => sp = []
  | .blank _ _, sp => sp = []
  | .line u inp l, sp => LineWired ρ u (linesOf u past) inp l sp

/-- The children of the events after `past` are wired as the schedules of their users say. -/
def SessionWired (ρ : ℕ × APipe → ℕ) : List Event → List Event → List (List Spawn) → Prop
  | _, [], [] => True
  | past, e :: es, sp :: sps => EventWired ρ past e sp ∧ SessionWired ρ (past ++ [e]) es sps
  | _, _, _ => False

/-! ### The schedule of a user grows by its own lines -/

theorem linesOf_append (u : ℕ) : ∀ es fs : List Event,
    linesOf u (es ++ fs) = linesOf u es ++ linesOf u fs
  | [], fs => rfl
  | .login .. :: es, fs => linesOf_append u es fs
  | .blank .. :: es, fs => linesOf_append u es fs
  | .line w _ l :: es, fs => by
    have ih := linesOf_append u es fs
    rw [List.cons_append, linesOf, linesOf, ih]
    split_ifs
    · rfl
    · rfl

/-- The lines of a user after one more event. -/
theorem linesOf_concat_line (w u : ℕ) (past : List Event) (inp : LineInput) (l : Pipeline) :
    linesOf w (past ++ [.line u inp l]) = if u = w then linesOf w past ++ [l] else linesOf w past := by
  rw [linesOf_append, linesOf, linesOf]
  split_ifs
  · rfl
  · exact List.append_nil _

theorem linesOf_concat_login (w : ℕ) (past : List Event) (addr : List Char) (port junk : ℕ) :
    linesOf w (past ++ [.login addr port junk]) = linesOf w past := by
  rw [linesOf_append, linesOf, linesOf, List.append_nil]

theorem linesOf_concat_blank (w u : ℕ) (past : List Event) (inp : LineInput) :
    linesOf w (past ++ [.blank u inp]) = linesOf w past := by
  rw [linesOf_append, linesOf, linesOf, List.append_nil]

/-! ### One call on a line without user pipes -/

/-- No token outside of a file name is a `<id` or a `>id`. -/
def NoUserPipe : List Token → Prop
  | [] => True
  | tok :: rest => tok.head? ≠ some '<' ∧
    if tok = ['>'] then match rest with
      | [] => True
      | _ :: rest => NoUserPipe rest
    else tok.head? ≠ some '>' ∧ NoUserPipe rest

/-- What the other shells know of a call while its tokens are read. -/
def Call.parsed (c : Call) : Shell.Parsed := ⟨c.vars, c.process, c.lineEndWithPipe⟩

/-- The call after its tokens were read as the other shells do. -/
def Call.adopt (c : Call) (p : Shell.Parsed) (entries : List LogEntry) : Call :=
  { c with
    vars := p.vars
    process := p.process
    lineEndWithPipe := p.lineEndWithPipe
    server := c.server.print entries }

theorem adopt_parsed (c : Call) : c.adopt c.parsed [] = c := by
  simp [Call.adopt, Call.parsed, Server.print]

theorem ordinary_eq {tok : Token} (h : tok.head? ≠ some '<') : ordinary tok = Shell.ordinary tok := by
  unfold Server.ordinary
  split
  · exact absurd rfl h
  · rfl

/-- Without user pipes the tokens are combined as in the shell of project 1. -/
theorem combine_eq (inp : LineInput) : ∀ (toks cur : List Token) (c : Call), NoUserPipe toks →
    ∃ entries, combine inp toks cur c = match Shell.combine inp.opens toks cur c.parsed with
      | .ok p => .ok (c.adopt p entries)
      | .error _ => .crashed
  | [], cur, c, _ => by
    refine ⟨[], ?_⟩
    rw [Server.combine, Shell.combine]
    by_cases hcur : cur = []
    · simp only [hcur, if_true, adopt_parsed]
    · simp only [hcur, if_false]
      rw [show c.parsed.push cur = (c.push cur).parsed from rfl, ← adopt_parsed (c.push cur)]
      rfl
  | tok :: rest, cur, c, h => by
    rw [NoUserPipe.eq_def] at h
    obtain ⟨hlt, hrest⟩ := h
    -- the tokens behind this one, from a call that differs in what `adopt` replaces
    have hnext : ∀ (rest' cur' : List Token) (d : Call) (a : List LogEntry), NoUserPipe rest' →
        rest'.length ≤ rest.length → (∀ q e, d.adopt q e = c.adopt q (a ++ e)) →
        ∃ entries, combine inp rest' cur' d =
          match Shell.combine inp.opens rest' cur' d.parsed with
          | .ok p => .ok (c.adopt p entries)
          | .error _ => .crashed := by
      intro rest' cur' d a hfree hlen had
      obtain ⟨entries, heq⟩ := combine_eq inp rest' cur' d hfree
      refine ⟨a ++ entries, ?_⟩
      rw [heq]
      cases Shell.combine inp.opens rest' cur' d.parsed with
      | error _ => rfl
      | ok p => exact congrArg Parse.ok (had p entries)
    rw [Server.combine.eq_def, Shell.combine.eq_def]
    dsimp only
    rw [if_neg hlt, ordinary_eq hlt]
    split_ifs with hord hbar hgt hbang hpipe
    · have hne : tok ≠ ['>'] := by
        rintro rfl
        cases hord
      rw [if_neg hne] at hrest
      exact hnext rest _ c [] hrest.2 le_rfl fun _ _ => rfl
    · rw [if_neg (by rw [hbar]; decide)] at hrest
      exact hnext rest [] (c.push cur) [] hrest.2 le_rfl fun _ _ => rfl
    · rw [if_pos hgt] at hrest
      cases rest with
      | nil => exact ⟨[], rfl⟩
      | cons name rest =>
        dsimp only [Call.parsed] at hrest ⊢
        cases c.vars.createFile inp.opens name with
        | none => exact ⟨[], rfl⟩
        | some v =>
          exact hnext rest [] { c.push cur with vars := v, server := c.server.print [.fflush] }
            [.fflush] hrest (Nat.le_succ _) fun q e => by simp [Call.adopt, Call.push, Server.print]
    · rw [if_neg hgt] at hrest
      cases strtok '!' tok with
      | none => exact ⟨[], rfl⟩
      | some n => exact hnext rest [] ((c.push cur).pipeOut true (atoi n)) [] hrest.2 le_rfl fun _ _ => rfl
    · rw [if_neg hgt] at hrest
      cases strtok '|' tok with
      | none => exact ⟨[], rfl⟩
      | some n => exact hnext rest [] ((c.push cur).pipeOut false (atoi n)) [] hrest.2 le_rfl fun _ _ => rfl
    · -- a token that is no word begins with one of the marks
      exfalso
      rw [if_neg hgt] at hrest
      refine hord ?_
      unfold Shell.ordinary
      split
      · exact absurd rfl hrest.1
      · exact absurd rfl hpipe
      · exact absurd rfl hbang
      · rfl
termination_by toks => toks.length

theorem noUserPipe_words : ∀ (c rest : List Token), (∀ t ∈ c, ordinary t = true) → NoUserPipe rest →
    NoUserPipe (c ++ rest)
  | [], _, _, h => h
  | tok :: c, rest, hc, h => by
    have ih := noUserPipe_words c rest (fun t ht => hc t (List.mem_cons_of_mem _ ht)) h
    have htok := hc tok (List.mem_cons_self ..)
    have hlt : tok.head? ≠ some '<' := by
      intro hcon
      cases tok with
      | nil => cases hcon
      | cons x xs =>
        obtain rfl := Option.some.inj hcon
        cases htok
    have hgt : tok.head? ≠ some '>' := by
      intro hcon
      cases tok with
      | nil => cases hcon
      | cons x xs =>
        obtain rfl := Option.some.inj hcon
        cases htok
    have hne : tok ≠ ['>'] := by
      rintro rfl
      exact hgt rfl
    rw [List.cons_append, NoUserPipe.eq_def]
    dsimp only
    rw [if_neg hne]
    exact ⟨hlt, hgt, ih⟩

theorem noUserPipe_suffix {suf : Suffix} : NoUserPipe suf.tokens := by
  cases suf with
  | none => trivial
  | pipe ds => simp [Suffix.tokens, NoUserPipe]
  | shock ds => simp [Suffix.tokens, NoUserPipe]
  | file name => simp [Suffix.tokens, NoUserPipe]

theorem noUserPipe_joinCmds {suf : List Token} (hsuf : NoUserPipe suf) :
    ∀ cmds : List (List Token), (∀ c ∈ cmds, ∀ t ∈ c, ordinary t = true) →
      NoUserPipe (Shell.joinCmds cmds ++ suf)
  | [], _ => hsuf
  | [c], h => noUserPipe_words c suf (h c (List.mem_cons_self ..)) hsuf
  | c :: c' :: cmds, h => by
    have ih := noUserPipe_joinCmds hsuf (c' :: cmds) fun x hx => h x (List.mem_cons_of_mem _ hx)
    rw [Shell.joinCmds, List.append_assoc, List.cons_append]
    · refine noUserPipe_words c _ (h c (List.mem_cons_self ..)) ?_
      rw [NoUserPipe.eq_def]
      exact ⟨by decide, by rw [if_neg (by decide)]; exact ⟨by decide, ih⟩⟩
    · simp

theorem Reads.noUserPipe {inp : LineInput} {l : Pipeline} (h : Reads inp l) :
    NoUserPipe (tokens ' ' inp.line) := by
  rw [h.tokens_eq]
  exact noUserPipe_joinCmds noUserPipe_suffix l.cmds fun c hc => (h.ok.cmds_ok c hc).2.1

/-- A line without user pipes does not reuse one. -/
theorem NoUserPipe.reuses (id : ℤ) : ∀ toks : List Token, NoUserPipe toks →
    reusesOwnPipe id false toks = false
  | [], _ => rfl
  | tok :: rest, h => by
    rw [NoUserPipe.eq_def] at h
    obtain ⟨hlt, hrest⟩ := h
    rw [reusesOwnPipe.eq_def]
    dsimp only
    rw [if_neg hlt]
    split_ifs with hword hgt hmark
    · have hne : tok ≠ ['>'] := by
        rintro rfl
        rcases hword with hcon | hcon <;> cases hcon
      rw [if_neg hne] at hrest
      exact NoUserPipe.reuses id rest hrest.2
    · rw [if_pos hgt] at hrest
      cases rest with
      | nil => rfl
      | cons name rest => exact NoUserPipe.reuses id rest hrest
    · rw [if_neg hgt] at hrest
      exact NoUserPipe.reuses id rest hrest.2
    · rw [if_neg hgt] at hrest
      have ih := NoUserPipe.reuses id rest hrest.2
      cases strtok '>' tok with
      | none => rfl
      | some n => simpa using ih

theorem External.ordinary {c : List Token} (h : External c) :
    c ≠ [] ∧ ∀ t ∈ c, Shell.ordinary t = true := by
  refine ⟨h.1, fun t ht => ?_⟩
  have := h.2.1 t ht
  unfold Server.ordinary at this
  split at this
  · cases this
  · exact this

theorem tokens_ne_nil {l : Pipeline} (h : l.Ok External) : l.tokens ≠ [] := by
  obtain ⟨c, cs, hc⟩ := List.exists_cons_of_ne_nil h.cmds_ne
  have hne : c ≠ [] := (h.cmds_ok c (by simp [hc])).1
  cases cs <;> simp [Pipeline.tokens, hc, Shell.joinCmds, hne]

/-- Reading the tokens of a line: the suffix acts on the variables after the countdown. -/
theorem parse_line {inp : LineInput} {l : Pipeline} (h : Reads inp l) (s : Server) (u : ℕ)
    {q : Shell.Parsed}
    (hq : Shell.applySuffix inp.opens ⟨(startCall s u).vars, l.cmds, false⟩ l.suffix = some q) :
    ∃ entries, parse s u inp = .ok ((startCall s u).adopt q entries) := by
  have hfree := h.noUserPipe
  have hhead : ∀ tok rest, tokens ' ' inp.line = tok :: rest → ¬ (tok = tellCmd ∨ tok = yellCmd) := by
    intro tok rest htok hcon
    obtain ⟨c, cs, hc⟩ := List.exists_cons_of_ne_nil h.ok.cmds_ne
    obtain ⟨hne, -, hbuiltin⟩ := h.ok.cmds_ok c (by simp [hc])
    obtain ⟨cmd, args, rfl⟩ := List.exists_cons_of_ne_nil hne
    have heq : cmd = tok := by
      rw [h.tokens_eq, Pipeline.tokens, hc] at htok
      cases cs <;> simp only [Shell.joinCmds, List.cons_append, List.cons.injEq] at htok <;>
        exact htok.1
    subst heq
    refine hbuiltin cmd ?_ rfl
    rcases hcon with rfl | rfl
    · decide
    · decide
  obtain ⟨entries, hcombine⟩ := combine_eq inp (tokens ' ' inp.line) [] (startCall s u) hfree
  have hshell : Shell.combine inp.opens (tokens ' ' inp.line) [] (startCall s u).parsed = .ok q := by
    rw [h.tokens_eq, Shell.combine_words inp.opens (startCall s u).parsed
      ⟨h.ok.cmds_ne, fun c hc => (h.ok.cmds_ok c hc).ordinary, h.ok.suffix_ok⟩]
    rw [show ({ (startCall s u).parsed with process := (startCall s u).parsed.process ++ l.cmds } :
      Shell.Parsed) = ⟨(startCall s u).vars, l.cmds, false⟩ from rfl, hq]
  rw [hshell] at hcombine
  refine ⟨entries, ?_⟩
  unfold Server.parse
  cases htok : tokens ' ' inp.line with
  | nil =>
    rw [h.tokens_eq] at htok
    exact absurd htok (tokens_ne_nil h.ok)
  | cons tok rest =>
    dsimp only
    rw [if_neg (hhead tok rest htok), ← htok]
    exact hcombine

/-- Executing rows of external commands is forking them one after another. -/
theorem execRows_external (inp : LineInput) (pc : ℕ) : ∀ (rows : List (List Token)) (c : Call),
    (∀ argv ∈ rows, External argv) → c.vars.namePipeOut = none →
    execRows inp pc rows c = .next { c with
      vars := (Shell.forkRows inp.opens pc rows c.vars).1
      spawned := c.spawned ++ (Shell.forkRows inp.opens pc rows c.vars).2 }
  | [], c, _, _ => by simp [execRows, Shell.forkRows]
  | argv :: rest, c, hext, hout => by
    obtain ⟨hne, -, hbuiltin⟩ := hext argv (List.mem_cons_self ..)
    obtain ⟨cmd, args, rfl⟩ := List.exists_cons_of_ne_nil hne
    have hcmd : ∀ b ∈ builtinCmds, cmd ≠ b := fun b hb hcon => hbuiltin b hb (congrArg some hcon)
    have hrow : execRow inp pc rest.isEmpty (cmd :: args) c =
        .next (c.fork inp pc rest.isEmpty (cmd :: args)) := by
      rw [execRow.eq_def]
      dsimp only
      rw [if_neg (hcmd _ (by decide)), if_neg (hcmd _ (by decide)), if_neg (hcmd _ (by decide)),
        if_neg (hcmd _ (by decide)), if_neg (hcmd _ (by decide)), if_neg (hcmd _ (by decide)),
        if_neg (hcmd _ (by decide)), if_neg (hcmd _ (by decide))]
    have hserver : c.fork inp pc rest.isEmpty (cmd :: args) = { c with
        vars := (c.vars.forkProcess inp.opens pc rest.isEmpty).1
        spawned := c.spawned ++ [⟨cmd :: args, (c.vars.forkProcess inp.opens pc rest.isEmpty).2⟩] } := by
      simp [Call.fork, hout]
    obtain ⟨-, -, -, -, -, -, -, -, -, -, hkeep⟩ :=
      Vars.forkProcess_fst c.vars inp.opens pc rest.isEmpty
    rw [execRows, hrow, hserver]
    dsimp only
    rw [execRows_external inp pc rest _ (fun x hx => hext x (List.mem_cons_of_mem _ hx)) (hkeep hout)]
    simp [Shell.forkRows]

theorem noName_eq {v : Vars} (hin : v.namePipeIn = none) (hout : v.namePipeOut = none) :
    ({ v with namePipeIn := none, namePipeOut := none } : Vars) = v := by
  cases v
  simp only at hin hout
  rw [hin, hout]

/-- A call on a line of the language: what it leaves in the tables, and its children. -/
theorem npshell_line {s : Server} {u : ℕ} {inp : LineInput} {l : Pipeline} {pre : List Pipeline}
    {U : Set (ℕ × APipe)} {ρ : ℕ × APipe → ℕ} (hr : Reads inp l) (hfits : l.suffix.Fits)
    (hcount : Counting (ofUser u) pre.length 1 U ρ (startVars s u))
    (hpre : (u, .num (pre.length + 1)) ∈ U ↔ Targets pre (pre.length + 1))
    (hnormal : ∀ L c, (u, .normal L c) ∈ U → L ≤ pre.length) :
    ∃ U' ρ' w r, npshell s u inp = some r ∧ r.zero = false ∧ r.error = none ∧
      r.server.kernel = w.kernel ∧ r.server.accepted = s.accepted ∧
      (∀ i, r.server.user i =
        if i = u then { s.user i with numPipeVec := w.numPipeVec } else s.user i) ∧
      (∀ p ∈ U, ρ' p = ρ p) ∧
      Shell.LineDone (ofUser u) pre inp.shell l U U' ρ' (startVars s u) w r.spawned := by
  have hfresh : Shell.Fresh inp.shell (startVars s u) := ⟨rfl, rfl, rfl, rfl, rfl, rfl⟩
  obtain ⟨U', ρ', q, happ, hproc, ⟨hin, hout⟩, hagree, hdone⟩ :=
    Shell.line_done hcount hfresh hr.ok.cmds_ne hr.ok.suffix_ok hfits hpre hnormal
  have hblank : inp.line ≠ [] := by
    intro hnil
    have htok := hr.tokens_eq
    rw [hnil] at htok
    exact tokens_ne_nil hr.ok htok.symm
  obtain ⟨entries, hparse⟩ := parse_line hr (s.setPath u) u happ
  set c := (startCall (s.setPath u) u).adopt q entries with hc
  have hresolve : c.resolve = c := by
    show ({ c with vars := { q.vars with namePipeIn := none, namePipeOut := none } } : Call) = c
    rw [noName_eq hin hout]
    rfl
  have hrows := execRows_external inp l.cmds.length l.cmds c hr.ok.cmds_ok hout
  set f := Shell.forkRows inp.opens l.cmds.length l.cmds q.vars with hf
  have hcall : npshell s u inp =
      some ⟨({ c with vars := f.1, spawned := f.2 } : Call).leave, false, f.2, none⟩ := by
    unfold npshell
    dsimp only
    rw [if_neg hblank, ← setPath, npshellLine, hparse]
    dsimp only
    rw [hresolve, show c.process = l.cmds from hproc, hrows]
    rfl
  refine ⟨U', ρ', f.1, _, hcall, rfl, rfl, rfl, rfl, fun i => ?_, hagree, hdone⟩
  exact leave_user _ i

/-! ### The invariant -/

/-- Between two lines, after `L` lines of user `u`: its entries hold the two ends of the pipes of the
    lines they count down to, and every pipe of a later line has an entry. -/
structure Waits (u L : ℕ) (U : Set (ℕ × APipe)) (ρ : ℕ × APipe → ℕ) (s : Server) : Prop where
  entry : ∀ e ∈ (s.user u).numPipeVec, ∃ m : ℕ, e.restLine = m ∧ 1 ≤ m ∧ (u, .num (L + m)) ∈ U ∧
    s.kernel.get e.p0 = some (.pipeR (ρ (u, .num (L + m)))) ∧
    s.kernel.get e.p1 = some (.pipeW (ρ (u, .num (L + m))))
  cover : ∀ m : ℕ, 1 ≤ m → (u, .num (L + m)) ∈ U → ∃ e ∈ (s.user u).numPipeVec, e.restLine = m

/-- The pending pipes of a user stay as long as the descriptors of its pipes do. -/
theorem Waits.frame {u L : ℕ} {U U' : Set (ℕ × APipe)} {ρ ρ' : ℕ × APipe → ℕ} {s s' : Server}
    (h : Waits u L U ρ s) (hvec : (s'.user u).numPipeVec = (s.user u).numPipeVec)
    (hagree : ∀ p ∈ U, ρ' p = ρ p) (hU : U ⊆ U')
    (hnum : ∀ T, (u, .num T) ∈ U' → (u, .num T) ∈ U)
    (hget : ∀ x d T, (u, .num T) ∈ U → d = .pipeR (ρ (u, .num T)) ∨ d = .pipeW (ρ (u, .num T)) →
      s.kernel.get x = some d → s'.kernel.get x = some d) : Waits u L U' ρ' s' where
  entry := by
    intro e he
    obtain ⟨m, hm, hlow, hmem, h0, h1⟩ := h.entry e (hvec ▸ he)
    refine ⟨m, hm, hlow, hU hmem, ?_, ?_⟩ <;> rw [hagree _ hmem]
    · exact hget _ _ _ hmem (Or.inl rfl) h0
    · exact hget _ _ _ hmem (Or.inr rfl) h1
  cover := fun m hlow hmem => by rw [hvec]; exact h.cover m hlow (hnum _ hmem)

/-- After the events `past`, in which `n` clients have logged in: user `u` is the client of the `u`-th
    connection, and the pending pipes of every user are those its own lines have targeted. -/
structure Serving (n : ℕ) (past : List Event) (ρ : ℕ × APipe → ℕ) (s : Server) : Prop where
  sound : Sound id s
  count : n ≤ qlen
  accepted : s.accepted = n
  valid : ∀ i, (s.user i).valid = true ↔ i < n
  named : Named (UserPipes past) ρ s.kernel.pipes
  waits : ∀ u, Waits u (linesOf u past).length (UserPipes past) ρ s

/-- A pipe is not among the descriptors `main` has of its own. -/
theorem Sound.seven_le {conn : ℕ → ℕ} {s : Server} {x : ℕ} {d : Desc} (h : Sound conn s)
    (hx : s.kernel.get x = some d) (hd : ¬ Inherited d) : 7 ≤ x := by
  by_contra hlt
  obtain ⟨d', hd', hinh⟩ := h.std x (by omega)
  rw [hx] at hd'
  cases hd'
  exact hd hinh

/-- What a user waits for, seen at the beginning of a call for it. -/
theorem Serving.counting {n u : ℕ} {past : List Event} {ρ : ℕ × APipe → ℕ} {s : Server}
    (h : Serving n past ρ s) (hu : u < n) :
    Counting (ofUser u) (linesOf u past).length 1 (UserPipes past) ρ
      (startVars (s.dupStd (s.user u).sock (s.user u).sock (s.user u).sock) u) where
  own := by
    have hv := (h.valid u).mpr hu
    have hq : u < qlen := hu.trans_le h.count
    have hsock := h.sound.sock u hq hv
    have hge := h.sound.ge_seven hq hv
    obtain ⟨h0, h1, h2⟩ := dupStd_get_std s hsock hsock hsock (by omega)
    intro i hi
    rcases (by omega : i = 0 ∨ i = 1 ∨ i = 2) with rfl | rfl | rfl
    · exact h0
    · exact h1
    · exact h2
  named := h.named
  entry := by
    intro e he
    obtain ⟨m, hm, hlow, hmem, h0, h1⟩ := (h.waits u).entry e he
    have hge0 := h.sound.seven_le h0 id
    have hge1 := h.sound.seven_le h1 id
    exact ⟨m, hm, hlow, hmem, (dupStd_get_of_ge s _ _ _ (by omega)).trans h0,
      (dupStd_get_of_ge s _ _ _ (by omega)).trans h1⟩
  cover := (h.waits u).cover
  noName := ⟨rfl, rfl⟩

/-- A line names the pipe its suffix targets and its normal pipes. -/
theorem mem_userPipes_concat {past : List Event} {u : ℕ} {inp : LineInput} {l : Pipeline}
    {q : ℕ × APipe} : q ∈ UserPipes (past ++ [.line u inp l]) ↔ q ∈ UserPipes past ∨
      (∃ n, l.suffix.count = some n ∧ q = (u, .num ((linesOf u past).length + 1 + n))) ∨
      ∃ c, c + 1 < l.cmds.length ∧ q = (u, .normal ((linesOf u past).length + 1) c) := by
  obtain ⟨w, p⟩ := q
  show p ∈ Shell.Pipes (linesOf w (past ++ [.line u inp l])) ↔ p ∈ Shell.Pipes (linesOf w past) ∨ _
  rw [linesOf_concat_line]
  by_cases hw : u = w
  · subst hw
    rw [if_pos rfl, Shell.mem_pipes_concat]
    simp
  · rw [if_neg hw]
    refine ⟨Or.inl, ?_⟩
    rintro (hp | ⟨n, -, heq⟩ | ⟨c, -, heq⟩)
    · exact hp
    · exact absurd (congrArg Prod.fst heq).symm hw
    · exact absurd (congrArg Prod.fst heq).symm hw

/-! ### One event -/

theorem Serving.free {n : ℕ} {past : List Event} {ρ : ℕ × APipe → ℕ} {s : Server}
    (h : Serving n past ρ s) : (s.user n).valid = false := by
  rw [Bool.eq_false_iff, ne_eq, h.valid]
  exact lt_irrefl n

/-- While fewer than 30 clients have logged in, the next one gets the slot behind theirs. -/
theorem Serving.spaceInd {n : ℕ} {past : List Event} {ρ : ℕ × APipe → ℕ} {s : Server}
    (h : Serving n past ρ s) (hn : n < qlen) (junk : ℕ) : s.spaceInd junk = n := by
  have hfree := h.free
  unfold Server.spaceInd
  cases hf : (List.range qlen).find? fun i => !(s.user i).valid with
  | none =>
    have := List.find?_eq_none.mp hf n (List.mem_range.mpr hn)
    simp [hfree] at this
  | some i =>
    rw [Option.getD_some]
    obtain ⟨hi, -, hbefore⟩ := List.find?_range_eq_some.mp hf
    simp only [Bool.not_eq_true'] at hi
    have hge : n ≤ i := by
      by_contra hlt
      rw [(h.valid i).mpr (by omega)] at hi
      cases hi
    rcases hge.lt_or_eq with hlt | heq
    · have := hbefore n hlt
      simp [hfree] at this
    · exact heq.symm

/-- A login. -/
theorem Serving.login {n : ℕ} {past : List Event} {ρ : ℕ × APipe → ℕ} {s : Server}
    (h : Serving n past ρ s) (hn : n < qlen) (addr : List Char) (port junk : ℕ) :
    ∃ s', s.step (.accept addr port junk) = some (s', [], none) ∧
      Serving (n + 1) (past ++ [.login addr port junk]) ρ s' := by
  have hspace := h.spaceInd hn junk
  obtain ⟨s', hs'⟩ : ∃ s', s.acceptClient addr port junk = some s' := by
    unfold acceptClient
    dsimp only
    rw [hspace, if_pos hn]
    exact ⟨_, rfl⟩
  obtain ⟨-, hker, -, -, hacc, huser⟩ := acceptClient_some hs'
  have hlines : ∀ w, linesOf w (past ++ [.login addr port junk]) = linesOf w past :=
    fun w => linesOf_concat_login w past addr port junk
  have hpipes : UserPipes (past ++ [.login addr port junk]) = UserPipes past := by
    unfold UserPipes
    simp only [hlines]
  have hroom : s.validUsers.length < qlen := by
    have hlt : s.validUsers.length < (List.range qlen).length :=
      List.length_filter_lt_length_iff_exists.mpr ⟨n, List.mem_range.mpr hn, by simp [h.free]⟩
    rwa [List.length_range] at hlt
  have hsound := sound_accept h.sound hroom hs'
  refine ⟨s', by simp [step, hs'], ?_, hn, hacc.trans (by rw [h.accepted]), ?_, ?_, ?_⟩
  · rwa [hspace, h.accepted, show Function.update id n n = id from Function.update_eq_self n id] at hsound
  · intro i
    rw [huser, hspace]
    split_ifs with hi
    · simp only [hi, true_iff]
      omega
    · rw [h.valid]
      omega
  · rw [hpipes, hker]
    exact h.named
  · intro u
    rw [hlines, hpipes]
    refine (h.waits u).frame ?_ (fun _ _ => rfl) subset_rfl (fun _ hT => hT) fun x d _ _ _ hx => ?_
    · rw [huser, hspace]
      split_ifs with hi
      · rw [hi]
      · rfl
    · rw [hker, Kernel.get_alloc_of_open _ (by simp [hx]), hx]

/-- What a line of user `u` does to the server, when the call leaves `r`: only the pending pipes of `u`
    change. -/
theorem Serving.call {n u : ℕ} {past : List Event} {ρ : ℕ × APipe → ℕ} {s : Server} (h : Serving n past ρ s)
    (hu : u < n) {inp : LineInput} {r : Return} (hfree : lineReusesOwnPipe u inp = false)
    (hcall : npshell (s.dupStd (s.user u).sock (s.user u).sock (s.user u).sock) u inp = some r)
    (hzero : r.zero = false) (herror : r.error = none) :
    ∃ s', s.step (.line (s.user u).sock inp) = some (s', r.spawned, none) ∧ Sound id s' ∧
      s'.user = r.server.user ∧ s'.accepted = r.server.accepted ∧
      s'.kernel.pipes = r.server.kernel.pipes ∧
      ∀ x, 3 ≤ x → s'.kernel.get x = r.server.kernel.get x := by
  have hq : u < qlen := hu.trans_le h.count
  have hv := (h.valid u).mpr hu
  have hfd : (s.user u).sock ∈ s.afds ∧ (s.user u).sock ≠ msock := by
    refine ⟨(h.sound.afds _).mpr (Or.inr ⟨u, hq, hv, rfl⟩), ?_⟩
    have := h.sound.ge_seven hq hv
    simp only [msock]
    omega
  have hfind := h.sound.findFdUser hq hv
  have hstep : s.step (.line (s.user u).sock inp) =
      some (r.server.finish (s.user u).sock u r.zero, r.spawned, none) := by
    simp only [step, if_pos hfd, hfind, hcall, herror]
  refine ⟨_, hstep, ?_, finish_user .., finish_accepted .., by rw [hzero]; rfl, fun x hx => ?_⟩
  · refine sound_step h.sound (show s.Careful (.line (s.user u).sock inp) from ?_) hstep
    intro w hw
    rw [hfind] at hw
    cases hw
    exact hfree
  · rw [finish_get hx, hzero]
    simp

/-- A blank line. -/
theorem Serving.blank {n u : ℕ} {past : List Event} {ρ : ℕ × APipe → ℕ} {s : Server}
    (h : Serving n past ρ s) (hu : u < n) {inp : LineInput} (hblank : inp.line = []) :
    ∃ s', s.step (.line (s.user u).sock inp) = some (s', [], none) ∧
      Serving n (past ++ [.blank u inp]) ρ s' := by
  have hcall : npshell (s.dupStd (s.user u).sock (s.user u).sock (s.user u).sock) u inp =
      some ⟨(s.dupStd (s.user u).sock (s.user u).sock (s.user u).sock).setPath u, false, [], none⟩ := by
    unfold npshell
    dsimp only
    rw [if_pos hblank]
    rfl
  have hfree : lineReusesOwnPipe u inp = false := by
    rw [lineReusesOwnPipe, hblank]
    rfl
  obtain ⟨s', hstep, hsound, huser, hacc, hpipes, hget⟩ := h.call hu hfree hcall rfl rfl
  have hlines : ∀ w, linesOf w (past ++ [.blank u inp]) = linesOf w past :=
    fun w => linesOf_concat_blank w u past inp
  have hsame : UserPipes (past ++ [.blank u inp]) = UserPipes past := by
    unfold UserPipes
    simp only [hlines]
  have huser' : s'.user = s.user := huser
  refine ⟨s', hstep, hsound, h.count, hacc.trans h.accepted, fun i => ?_, ?_, fun w => ?_⟩
  · rw [huser']
    exact h.valid i
  · rw [hsame, hpipes]
    exact h.named
  · rw [hlines, hsame]
    refine (h.waits w).frame (by rw [huser']) (fun _ _ => rfl) subset_rfl (fun _ hT => hT) ?_
    intro x d T _ hd hx
    have h7 : 7 ≤ x := h.sound.seven_le hx (by rcases hd with rfl | rfl <;> exact id)
    rw [hget x (by omega)]
    exact (dupStd_get_of_ge s _ _ _ (by omega)).trans hx

theorem Reads.reuses {inp : LineInput} {l : Pipeline} (h : Reads inp l) (u : ℕ) :
    lineReusesOwnPipe u inp = false := by
  have hfree := h.noUserPipe
  rw [lineReusesOwnPipe]
  cases htok : tokens ' ' inp.line with
  | nil => rfl
  | cons tok rest =>
    rw [htok] at hfree
    exact Bool.and_eq_false_iff.mpr (Or.inr (hfree.reuses _ _))

/-- The children of a line stay wired when more pipes get names. -/
theorem lineWired_of_done {u : ℕ} {pre : List Pipeline} {inp : LineInput} {l : Pipeline}
    {U U' : Set (ℕ × APipe)} {ρ ρ' : ℕ × APipe → ℕ} {v w : Vars} {sp : List Spawn}
    (h : Shell.LineDone (ofUser u) pre inp.shell l U U' ρ v w sp) (hshock : v.shockPipeOutFlag = false)
    (hredir : inp.opens.redir = true) (hagree : ∀ p ∈ U', ρ' p = ρ p) : LineWired ρ' u pre inp l sp where
  program := by
    rw [← h.argv, List.map_map]
    rfl
  stdin := by
    intro c s hs
    obtain ⟨⟨hin, h0⟩, -, -⟩ := h.wired c s hs
    rw [Setting.desc_agree hagree hin]
    exact h0
  stdout := by
    intro c s hs
    obtain ⟨hin, h1⟩ := (h.wired c s hs).2.1 fun _ => hredir
    rw [Setting.desc_agree hagree hin]
    exact h1
  stderr := by
    intro c s hs
    obtain ⟨hin, h2⟩ := (h.wired c s hs).2.2 hshock
    rw [Setting.desc_agree hagree hin]
    exact h2

/-- A line of user `u`: its children are wired by its own schedule, and everybody else's pipes stay. -/
theorem Serving.line {n u : ℕ} {past : List Event} {ρ : ℕ × APipe → ℕ} {s : Server}
    (h : Serving n past ρ s) (hu : u < n) {inp : LineInput} {l : Pipeline} (hr : Reads inp l)
    (hfits : l.suffix.Fits) :
    ∃ s' sp ρ', s.step (.line (s.user u).sock inp) = some (s', sp, none) ∧
      (∀ p ∈ UserPipes past, ρ' p = ρ p) ∧ Serving n (past ++ [.line u inp l]) ρ' s' ∧
      ∀ ρ'', (∀ p ∈ UserPipes (past ++ [.line u inp l]), ρ'' p = ρ' p) →
        LineWired ρ'' u (linesOf u past) inp l sp := by
  have hnormal : ∀ L c, (u, .normal L c) ∈ UserPipes past → L ≤ (linesOf u past).length := by
    rintro L c ⟨j, l', hj, rfl, -⟩
    have hlt : j < (linesOf u past).length := (List.getElem?_eq_some_iff.mp hj).1
    omega
  obtain ⟨U', ρ', w, r, hcall, hzero, herror, hker, hacc, huser, hagree, hdone⟩ :=
    npshell_line hr hfits (h.counting hu) Iff.rfl hnormal
  obtain ⟨s', hstep, hsound, huser', hacc', hpipes, hget⟩ := h.call hu (hr.reuses u) hcall hzero herror
  have hU' : U' = UserPipes (past ++ [.line u inp l]) := by
    ext q
    rw [hdone.grows, mem_userPipes_concat]
    rfl
  rw [hU'] at hdone
  have hsub : UserPipes past ⊆ UserPipes (past ++ [.line u inp l]) :=
    fun q hq => mem_userPipes_concat.mpr (Or.inl hq)
  refine ⟨s', r.spawned, ρ', hstep, hagree, ⟨hsound, h.count, ?_, fun i => ?_, ?_, fun x => ?_⟩,
    fun ρ'' hρ => lineWired_of_done hdone rfl hr.redir hρ⟩
  · exact hacc'.trans (hacc.trans h.accepted)
  · rw [huser', huser]
    have hv := h.valid i
    split_ifs
    · exact hv
    · exact hv
  · rw [hpipes, hker]
    exact hdone.counting.named
  · by_cases hx : u = x
    · -- its own pending pipes are those the countdown of the call has left
      subst hx
      rw [linesOf_concat_line, if_pos rfl, List.length_append, List.length_singleton]
      have hvec : (s'.user u).numPipeVec = w.numPipeVec := by rw [huser', huser, if_pos rfl]
      have hend : ∀ y d, w.kernel.get y = some d → (∀ k, d ≠ .sock k) → s'.kernel.get y = some d := by
        intro y d hy hd
        have h3 : 3 ≤ y := by
          by_contra hlt
          have hown := hdone.counting.own y (by omega)
          rw [hy] at hown
          exact hd u (Option.some.inj hown)
        rw [hget y h3, hker]
        exact hy
      refine ⟨fun e he => ?_, ?_⟩
      · obtain ⟨m, hm, hlow, hmem, h0, h1⟩ := hdone.counting.entry e (hvec ▸ he)
        exact ⟨m, hm, hlow, hmem, hend _ _ h0 (by simp), hend _ _ h1 (by simp)⟩
      · rw [hvec]
        exact hdone.counting.cover
    · rw [linesOf_concat_line, if_neg hx]
      refine (h.waits x).frame ?_ hagree hsub ?_ ?_
      · rw [huser', huser, if_neg (Ne.symm hx)]
        rfl
      · intro T hT
        rcases mem_userPipes_concat.mp hT with hT | ⟨n, -, heq⟩ | ⟨c, -, heq⟩
        · exact hT
        · exact absurd (congrArg Prod.fst heq).symm hx
        · cases heq
      · intro y d T hT hd hy
        have h7 : 7 ≤ y := h.sound.seven_le hy (by rcases hd with rfl | rfl <;> exact id)
        rw [hget y (by omega), hker]
        refine hdone.frame y d ((dupStd_get_of_ge s _ _ _ (by omega)).trans hy) (Or.inr ⟨_, hT, ?_, ?_, ?_⟩)
        · exact fun heq => hx (congrArg Prod.fst heq).symm
        · exact fun L' c heq => hx (congrArg Prod.fst heq).symm
        · rwa [hagree _ hT]

/-! ### A run -/

theorem serving_init (environ : Environ) (ρ : ℕ × APipe → ℕ) : Serving 0 [] ρ (init environ) where
  sound := sound_init environ id
  count := Nat.zero_le _
  accepted := rfl
  valid := fun i => by simp [init]
  named := by
    refine (Named.empty ρ _).subset ?_
    rintro ⟨u, T | ⟨L, c⟩⟩ hq
    · exact absurd hq (Shell.targets_nil T)
    · obtain ⟨j, l, hj, -⟩ := hq
      simp [linesOf] at hj
  waits := by
    intro u
    refine ⟨fun e he => ?_, fun m _ hm => absurd hm (Shell.targets_nil _)⟩
    simp [init] at he

theorem play_wired : ∀ (es past : List Event) (n : ℕ) (ρ : ℕ × APipe → ℕ) (s : Server),
    Serving n past ρ s → Allowed n es → (∀ e ∈ es, e.Fits) →
    ∃ s' sps ρ' m, s.play es = some (s', sps) ∧ (∀ p ∈ UserPipes past, ρ' p = ρ p) ∧
      Serving m (past ++ es) ρ' s' ∧ SessionWired ρ' past es sps
  | [], past, n, ρ, s, h, _, _ =>
    ⟨s, [], ρ, n, rfl, fun _ _ => rfl, by rwa [List.append_nil], trivial⟩
  | .login addr port junk :: es, past, n, ρ, s, h, ⟨hn, hes⟩, hfits => by
    obtain ⟨s₁, hstep, h₁⟩ := h.login hn addr port junk
    obtain ⟨s', sps, ρ', m, hplay, hagree, h', hwired⟩ :=
      play_wired es _ _ ρ s₁ h₁ hes fun e he => hfits e (List.mem_cons_of_mem _ he)
    have hsub : UserPipes past ⊆ UserPipes (past ++ [.login addr port junk]) := by
      intro q hq
      show q.2 ∈ Shell.Pipes _
      rw [linesOf_concat_login]
      exact hq
    refine ⟨s', [] :: sps, ρ', m, ?_, fun p hp => hagree p (hsub hp), by simpa using h', rfl, hwired⟩
    rw [play, Event.input, hstep, Option.bind_some, hplay]
    rfl
  | .blank u inp :: es, past, n, ρ, s, h, ⟨hu, hblank, hes⟩, hfits => by
    obtain ⟨s₁, hstep, h₁⟩ := h.blank hu hblank
    obtain ⟨s', sps, ρ', m, hplay, hagree, h', hwired⟩ :=
      play_wired es _ _ ρ s₁ h₁ hes fun e he => hfits e (List.mem_cons_of_mem _ he)
    have hsub : UserPipes past ⊆ UserPipes (past ++ [.blank u inp]) := by
      intro q hq
      show q.2 ∈ Shell.Pipes _
      rw [linesOf_concat_blank]
      exact hq
    refine ⟨s', [] :: sps, ρ', m, ?_, fun p hp => hagree p (hsub hp), by simpa using h', rfl, hwired⟩
    rw [play, Event.input, hstep, Option.bind_some, hplay]
    rfl
  | .line u inp l :: es, past, n, ρ, s, h, ⟨hu, hr, hes⟩, hfits => by
    have hfit := hfits _ (List.mem_cons_self ..)
    obtain ⟨s₁, sp, ρ₁, hstep, hagree₁, h₁, hline⟩ := h.line hu hr hfit.2.1
    obtain ⟨s', sps, ρ', m, hplay, hagree, h', hwired⟩ :=
      play_wired es _ _ ρ₁ s₁ h₁ hes fun e he => hfits e (List.mem_cons_of_mem _ he)
    refine ⟨s', sp :: sps, ρ', m, ?_, fun p hp => ?_, by simpa using h', hline ρ' hagree, hwired⟩
    · rw [play, Event.input, hstep, Option.bind_some, hplay]
      rfl
    · rw [hagree p (mem_userPipes_concat.mpr (Or.inl hp)), hagree₁ p hp]

/-- However the lines of up to 30 users interleave, no line goes wrong, and the pipes can be named so that
    each process of a user has the standard input, output and error that the schedule of its own lines
    says. No two users share a pipe. Whether the `wait` loop behind a line ends is another matter. -/
theorem number_pipes_do_not_interfere (environ : Environ) (es : List Event) (h : Allowed 0 es)
    (hfits : ∀ e ∈ es, e.Fits) :
    ∃ s sps ρ, (init environ).play es = some (s, sps) ∧ Set.InjOn ρ (UserPipes es) ∧
      SessionWired ρ [] es sps := by
  obtain ⟨s, sps, ρ, m, hplay, -, hserving, hwired⟩ :=
    play_wired es [] 0 (fun _ => 0) (init environ) (serving_init environ _) h hfits
  exact ⟨s, sps, ρ, hplay, hserving.named.inj, hwired⟩

/-- The line with these characters, with files that can be opened. -/
def typedLine (line : List Char) : LineInput := ⟨line, line, ⟨true, true, none⟩, false⟩

/-- Two users; the first types `ls |1`, the second `cat`, and then the first `cat`. -/
def twoUsers : List Event :=
  [.login [] 0 0, .login [] 0 0,
    .line 0 (typedLine ['l', 's', ' ', '|', '1']) ⟨[[['l', 's']]], .pipe ['1']⟩,
    .line 1 (typedLine ['c', 'a', 't']) ⟨[[['c', 'a', 't']]], .none⟩,
    .line 0 (typedLine ['c', 'a', 't']) ⟨[[['c', 'a', 't']]], .none⟩]

theorem number_pipes_do_not_interfere_two :
    ∃ s sps ρ, (init fun _ => none).play twoUsers = some (s, sps) ∧
      Set.InjOn ρ (UserPipes twoUsers) ∧ SessionWired ρ [] twoUsers sps := by
  refine number_pipes_do_not_interfere (fun _ => none) twoUsers ?_ ?_
  · exact ⟨by decide, by decide, by decide, ⟨by decide, by decide, rfl, rfl⟩,
      by decide, ⟨by decide, by decide, rfl, rfl⟩, by decide, ⟨by decide, by decide, rfl, rfl⟩, trivial⟩
  · intro e he
    fin_cases he
    · trivial
    · trivial
    · exact ⟨by decide, by decide, fun _ h => by cases h⟩
    · exact ⟨by decide, trivial, fun _ h => by cases h⟩
    · exact ⟨by decide, trivial, fun _ h => by cases h⟩

/-- `ls |4294967297`: the count is read modulo 2^32, and the next line of the user reads the pipe. -/
def bigCount : List Event :=
  [.login [] 0 0,
    .line 0 (typedLine ['l', 's', ' ', '|', '4', '2', '9', '4', '9', '6', '7', '2', '9', '7'])
      ⟨[[['l', 's']]], .pipe ['4', '2', '9', '4', '9', '6', '7', '2', '9', '7']⟩,
    .line 0 (typedLine ['c', 'a', 't']) ⟨[[['c', 'a', 't']]], .none⟩]

/-- `ls > aa...a` with a name of 101 characters, which overruns `redirection_file_name`. -/
def longName : List Event :=
  [.login [] 0 0, .line 0 (typedLine (['l', 's', ' ', '>', ' '] ++ List.replicate 101 'a'))
    ⟨[[['l', 's']]], .file (List.replicate 101 'a')⟩]

/-- Without the bounds the schedule is not kept: with a count of `2^32 + 1` the next line reads the pipe,
    and the server does not outlive a file name of 101 characters. -/
theorem number_pipes_interfere_unbounded :
    (Allowed 0 bigCount ∧ ∀ s sps ρ, (init fun _ => none).play bigCount = some (s, sps) →
      ¬ SessionWired ρ [] bigCount sps) ∧
    (Allowed 0 longName ∧ (init fun _ => none).play longName = none) := by
  refine ⟨⟨?_, fun s sps ρ hplay hwired => ?_⟩, ?_, ?_⟩
  · exact ⟨by decide, by decide, ⟨by decide, by decide, rfl, rfl⟩, by decide,
      ⟨by decide, by decide, rfl, rfl⟩, trivial⟩
  · have hstdin : ((init fun _ => none).play bigCount).bind (fun r =>
        (r.2.getD 2 []).head?.map fun c => c.fds.get 0) = some (some (.pipeR 0)) := by decide +kernel
    rw [hplay, Option.bind_some, Option.map_eq_some_iff] at hstdin
    obtain ⟨c, hc, hget⟩ := hstdin
    rcases sps with - | ⟨sp₀, - | ⟨sp₁, - | ⟨sp₂, - | ⟨sp₃, sps⟩⟩⟩⟩
    · exact hwired
    · exact hwired.2
    · exact hwired.2.2
    · have h0 := hwired.2.2.1.stdin 0 c (by rw [← hc, List.head?_eq_getElem?]; rfl)
      have hnot : ¬ Targets [⟨[[['l', 's']]], .pipe ['4', '2', '9', '4', '9', '6', '7', '2', '9',
          '7']⟩] 2 := by
        rintro ⟨j, l, n, hj, hn, hL⟩
        cases j with
        | zero =>
          simp only [List.getElem?_cons_zero, Option.some.injEq] at hj
          subst hj
          have : n = 4294967297 := by simpa [Suffix.count, digitsVal] using hn.symm
          omega
        | succ j => simp at hj
      have hend : Shell.stdinEnd [⟨[[['l', 's']]], .pipe ['4', '2', '9', '4', '9', '6', '7', '2', '9',
          '7']⟩] 0 = .own 0 := if_neg hnot
      have h0 : c.fds.get 0 = some ((ofUser 0).desc ρ (Shell.stdinEnd [⟨[[['l', 's']]],
        .pipe ['4', '2', '9', '4', '9', '6', '7', '2', '9', '7']⟩] 0)) := h0
      rw [hend, hget] at h0
      cases h0
    · exact hwired.2.2.2
  · exact ⟨by decide, by decide, ⟨by decide +kernel, by decide +kernel, rfl, rfl⟩, trivial⟩
  · have hnone : ((init fun _ => none).play longName).isNone = true := by decide +kernel
    exact Option.isNone_iff_eq_none.mp hnone

end NetProg.Server
