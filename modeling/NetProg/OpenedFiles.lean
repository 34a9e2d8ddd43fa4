import NetProg.OneShell
import NetProg.Server.UserLine
import NetProg.Shell.StandardError

/-! The files a line opens for creation or truncation: in the shell of project 1, and in the single-process
    server.

    The shell creates the file of `> name` when it reads the token, under the string that is then in
    `redirection_file_name`; the child of the last command opens it again. The child of a line with `>id`
    opens the string in a buffer that nothing has written. -/

namespace NetProg

/-- The file the child of a command opens for writing. -/
def Vars.opensAtFork (v : Vars) (opens : Opens) (last : Bool) : List (List Char) :=
  if v.writeFileFlag && last then
    if opens.redir then [cString v.redirectionFileName] else []
  else if (v.shockPipeOutFlag || v.numPipeOutFlag) && last then []
  else match v.namePipeOut, last with
    | some _, true => opens.junk.toList
    | _, _ => []

/-- The file that is created for `> name`, with what the buffer then holds. -/
def Vars.createsFile (v : Vars) (opens : Opens) : List (List Char) :=
  if opens.creat then [cString v.redirectionFileName] else []

theorem Vars.opensAtFork_of_not_last (v : Vars) (opens : Opens) : v.opensAtFork opens false = [] := by
  rw [opensAtFork, Bool.and_false, if_neg (by decide), Bool.and_false, if_neg (by decide)]
  cases v.namePipeOut <;> simp

namespace OpenedFiles

/-- The process loop comes to the last command, which is no builtin. -/
def LastForked (builtins : List Token) : List (List Token) → Bool
  | [] => false
  | [c] => c.head?.any (· ∉ builtins)
  | c :: cs => c.head? != some Shell.exitCmd && LastForked builtins cs

/-! ### The shell of project 1 -/

section

open Shell OneShell

/-- The files created while the tokens are combined. -/
def combineOpens (opens : Opens) : List Token → Parsed → List (List Char)
  | [], _ => []
  | tok :: rest, p =>
    if ordinary tok then combineOpens opens rest p
    else if tok = ['|'] then combineOpens opens rest p
    else if tok = ['>'] then
      match rest with
      | [] => []
      | name :: rest =>
        match p.vars.createFile opens name with
        | none => []
        | some v => v.createsFile opens ++ combineOpens opens rest { p with vars := v }
    else if tok.head? = some '!' then
      match strtok '!' tok with
      | none => []
      | some n => combineOpens opens rest (p.pipeOut true (atoi n))
    else
      match strtok '|' tok with
      | none => []
      | some n => combineOpens opens rest (p.pipeOut false (atoi n))

/-- The files opened by the children the process loop forks. -/
def execOpens (opens : Opens) (pc : ℕ) : List (List Token) → Exec → List (List Char)
  | [], _ => []
  | argv :: rest, e =>
    match execProcess opens pc rest.isEmpty argv e with
    | .error _ => []
    | .ok e' =>
      ((e'.spawned.drop e.spawned.length).flatMap fun _ => e.vars.opensAtFork opens rest.isEmpty) ++
        execOpens opens pc rest e'

/-- The files opened for creation or truncation while a line is processed. -/
def lineOpens (s : Shell) (inp : LineInput) : List (List Char) :=
  combineOpens inp.opens (tokens ' ' inp.line) ⟨s.startLine inp, [], false⟩ ++
    match s.parse inp with
    | .error _ => []
    | .ok p => execOpens inp.opens p.process.length p.process ⟨p.vars, s.environ, [], []⟩

/-- A line of commands and builtins with at most one suffix, or a blank one. A file name is shorter than
    its buffer. -/
structure FileLine where
  inp : LineInput
  line : Pipeline
  reads : tokens ' ' inp.line = line.tokens
  ok : line.cmds = [] ∧ line.suffix = .none ∨ line.Ok Words
  short : ∀ name, line.suffix = .file name → name.length < 100 ∧ '\x00' ∉ name

/-- From prompt to prompt. -/
def fileStep (s : Shell) (a : FileLine) : Option Shell := (s.line a.inp).toOption.map (·.1)

/-- The files opened while the line is processed are the one it names. -/
def Touches (s : Shell) (a : FileLine) : Prop := ∀ f, f ∈ lineOpens s a.inp ↔ a.line.suffix = .file f

/-- Where a file is named, a NUL stands behind the name in the buffer, and one of the two `open` calls
    succeeds. Where none is, the flag of an earlier line does not meet a last command that is forked. -/
def Clean (s : Shell) (a : FileLine) : Prop :=
  match a.line.suffix with
  | .file name => a.inp.junk[name.length]? = some '\x00' ∧ (a.inp.opens.creat = true ∨
      a.inp.opens.redir = true ∧ LastForked shellBuiltins a.line.cmds = true)
  | _ => s.vars.writeFileFlag = true → LastForked shellBuiltins a.line.cmds = true →
      a.inp.opens.redir = false

/-! ### The process loop -/

/-- A row of words is `exit`, another builtin, which changes no variables, or forked. -/
theorem execProcess_cases (opens : Opens) (pc : ℕ) (last : Bool) {argv : List Token} (e : Exec)
    (h : argv ≠ []) :
    (argv.head? = some exitCmd ∧ execProcess opens pc last argv e = .error .exited) ∨
      (argv.head? ≠ some exitCmd ∧ argv.head?.any (· ∉ shellBuiltins) = false ∧
        ∃ e', execProcess opens pc last argv e = .ok e' ∧ e'.vars = e.vars ∧ e'.spawned = e.spawned) ∨
      (argv.head? ≠ some exitCmd ∧ argv.head?.any (· ∉ shellBuiltins) = true ∧
        execProcess opens pc last argv e = .ok (e.fork opens pc last argv)) := by
  obtain ⟨cmd, args, rfl⟩ := List.exists_cons_of_ne_nil h
  simp only [List.head?_cons, Option.any_some, Option.some.injEq, ne_eq]
  rw [execProcess.eq_def]
  dsimp only
  by_cases hprint : cmd = printenvCmd
  · subst hprint
    refine Or.inr (Or.inl ⟨by decide, by decide, ?_⟩)
    rw [if_pos rfl]
    cases args with
    | nil => exact ⟨e, rfl, rfl, rfl⟩
    | cons name args =>
      dsimp only
      split <;> exact ⟨_, rfl, rfl, rfl⟩
  · rw [if_neg hprint]
    by_cases hset : cmd = setenvCmd
    · subst hset
      refine Or.inr (Or.inl ⟨by decide, by decide, ?_⟩)
      rw [if_pos rfl]
      split <;> exact ⟨_, rfl, rfl, rfl⟩
    · rw [if_neg hset]
      by_cases hexit : cmd = exitCmd
      · exact Or.inl ⟨hexit, by rw [if_pos hexit]⟩
      · exact Or.inr (Or.inr ⟨hexit, by simp [shellBuiltins, hprint, hset, hexit], by rw [if_neg hexit]⟩)

/-- The process loop opens the file of the flag, if it comes to a last command that is forked. -/
theorem execOpens_eq (opens : Opens) (pc : ℕ) : ∀ {rows : List (List Token)} {e : Exec},
    (∀ argv ∈ rows, argv ≠ []) → e.vars.namePipeOut = none →
    execOpens opens pc rows e =
      if e.vars.writeFileFlag && LastForked shellBuiltins rows && opens.redir then
        [cString e.vars.redirectionFileName] else []
  | [], e, _, _ => by simp [execOpens, LastForked]
  | argv :: rest, e, hne, hname => by
    have hargv := hne argv (List.mem_cons_self ..)
    rw [execOpens]
    rcases execProcess_cases opens pc rest.isEmpty e hargv with
      ⟨hexit, hrow⟩ | ⟨hexit, hb, e', hrow, hvars, hspawned⟩ | ⟨hexit, hb, hrow⟩
    · have hno : LastForked shellBuiltins (argv :: rest) = false := by
        cases rest with
        | nil => simp [LastForked, hexit, shellBuiltins]
        | cons argv' rest => simp [LastForked, hexit]
      rw [hrow, hno]
      simp
    · have hsame : LastForked shellBuiltins (argv :: rest) = LastForked shellBuiltins rest := by
        cases rest with
        | nil => exact hb
        | cons argv' rest => simp [LastForked, hexit]
      rw [hrow, hsame]
      dsimp only
      rw [hspawned, List.drop_length, List.flatMap_nil, List.nil_append,
        execOpens_eq opens pc (fun x hx => hne x (List.mem_cons_of_mem _ hx)) (hvars ▸ hname), hvars]
    · rw [hrow]
      dsimp only
      have hnew : (e.fork opens pc rest.isEmpty argv).spawned.drop e.spawned.length =
          [⟨argv, (e.vars.forkProcess opens pc rest.isEmpty).2⟩] := by
        simp [Exec.fork]
      rw [hnew, List.flatMap_singleton]
      cases rest with
      | nil =>
        have hlast : LastForked shellBuiltins [argv] = true := hb
        rw [execOpens, List.append_nil, hlast]
        simp only [Vars.opensAtFork, hname]
        cases e.vars.writeFileFlag <;> cases opens.redir <;> simp
      | cons argv' rest =>
        have hsame : LastForked shellBuiltins (argv :: argv' :: rest) =
            LastForked shellBuiltins (argv' :: rest) := by simp [LastForked, hexit]
        obtain ⟨-, -, -, -, -, -, -, hfile, -, hbuf, hnone⟩ := Vars.forkProcess_fst e.vars opens pc false
        rw [List.isEmpty_cons, Vars.opensAtFork_of_not_last, List.nil_append, hsame,
          execOpens_eq opens pc (fun x hx => hne x (List.mem_cons_of_mem _ hx)) (hnone hname)]
        rw [Bool.not_false, Bool.and_true] at hfile
        change (if (e.vars.forkProcess opens pc false).1.writeFileFlag && _ && _ then
          [cString (e.vars.forkProcess opens pc false).1.redirectionFileName] else []) = _
        rw [hfile, hbuf]

/-! ### One line -/

theorem combineOpens_words (opens : Opens) (suf : List Token) (p : Parsed) : ∀ {ts : List Token},
    (∀ t ∈ ts, ordinary t = true ∨ t = ['|']) → combineOpens opens (ts ++ suf) p = combineOpens opens suf p
  | [], _ => rfl
  | t :: ts, h => by
    have ih := combineOpens_words opens suf p fun x hx => h x (List.mem_cons_of_mem _ hx)
    rw [List.cons_append, combineOpens.eq_def]
    dsimp only
    split_ifs with hord hbar
    · exact ih
    · exact ih
    · exact absurd (h t (List.mem_cons_self ..)) (by simp [hord, hbar])
    · exact absurd (h t (List.mem_cons_self ..)) (by simp [hord, hbar])
    · exact absurd (h t (List.mem_cons_self ..)) (by simp [hord, hbar])

/-- While the tokens are combined, only the file of the suffix is created. -/
theorem combineOpens_tokens (opens : Opens) (p : Parsed) {l : Pipeline} (h : l.Ok Words) :
    combineOpens opens l.tokens p =
      match l.suffix with
      | .file name => ((p.vars.createFile opens name).map fun v => v.createsFile opens).getD []
      | _ => [] := by
  have hwords : ∀ t ∈ joinCmds l.cmds, ordinary t = true ∨ t = ['|'] := by
    intro t ht
    rcases mem_joinCmds ht with rfl | ⟨c, hc, ht⟩
    · exact Or.inr rfl
    · exact Or.inl ((h.cmds_ok c hc).2 t ht)
  rw [Pipeline.tokens, combineOpens_words opens _ p hwords]
  have hsuf := h.suffix_ok
  cases hl : l.suffix with
  | none => rfl
  | pipe ds =>
    rw [hl] at hsuf
    have hne : ds ≠ [] := hsuf.1.1
    simp only [Suffix.tokens, combineOpens, ordinary, hne, List.cons.injEq, and_false]
    cases strtok '|' ('|' :: ds) <;> simp
  | shock ds =>
    simp only [Suffix.tokens, combineOpens, ordinary]
    cases strtok '!' ('!' :: ds) <;> simp
  | file name =>
    simp only [Suffix.tokens, combineOpens, ordinary]
    cases p.vars.createFile opens name <;> simp

/-- What `redirection_file_name` holds when the line is executed. -/
def buffer (suf : Suffix) (junk : List Char) : List Char :=
  match suf with
  | .file name => name ++ junk.drop name.length
  | _ => junk

/-- What the tokens of a line leave. -/
theorem parse_fileLine (s : Shell) (a : FileLine) : ∃ q, s.parse a.inp = .ok q ∧
    q.process = a.line.cmds ∧ q.vars.namePipeOut = s.vars.namePipeOut ∧
    q.vars.writeFileFlag = (s.vars.writeFileFlag || a.line.suffix.isFile) ∧
    q.vars.redirectionFileName = buffer a.line.suffix a.inp.junk ∧
    combineOpens a.inp.opens (tokens ' ' a.inp.line) ⟨s.startLine a.inp, [], false⟩ =
      if a.line.suffix.isFile then q.vars.createsFile a.inp.opens else [] := by
  set v := s.startLine a.inp with hv
  have hstart : v.redirectionFileName = a.inp.junk ∧ v.writeFileFlag = s.vars.writeFileFlag ∧
      v.namePipeOut = s.vars.namePipeOut := by
    rw [hv, startLine]
    split <;> exact ⟨rfl, rfl, rfl⟩
  obtain ⟨hbuf, hflag, hname⟩ := hstart
  rw [parse, ← hv, a.reads]
  rcases a.ok with ⟨hcmds, hsuf⟩ | hok
  · have hnil : a.line.tokens = [] := by rw [Pipeline.tokens, hcmds, hsuf]; rfl
    rw [hnil, hcmds, hsuf]
    exact ⟨⟨v, [], false⟩, rfl, rfl, hname, by simp [hflag, Suffix.isFile], hbuf, rfl⟩
  · have hnumber : ∀ n, (v.numberPipe n).namePipeOut = v.namePipeOut ∧
        (v.numberPipe n).writeFileFlag = v.writeFileFlag ∧
        (v.numberPipe n).redirectionFileName = v.redirectionFileName := by
      intro n
      rw [Vars.numberPipe]
      split <;> exact ⟨rfl, rfl, rfl⟩
    rw [combine_words a.inp.opens _ hok, combineOpens_tokens _ _ hok, List.nil_append]
    cases hsuf : a.line.suffix with
    | none => exact ⟨_, rfl, rfl, hname, by simp [hflag, Suffix.isFile], hbuf, rfl⟩
    | pipe ds =>
      obtain ⟨h1, h2, h3⟩ := hnumber (atoi ds)
      refine ⟨_, rfl, rfl, h1.trans hname, ?_, h3.trans hbuf, rfl⟩
      simpa [Suffix.isFile, Parsed.pipeOut] using h2.trans hflag
    | shock ds =>
      obtain ⟨h1, h2, h3⟩ := hnumber (atoi ds)
      refine ⟨_, rfl, rfl, h1.trans hname, ?_, h3.trans hbuf, rfl⟩
      simpa [Suffix.isFile, Parsed.pipeOut] using h2.trans hflag
    | file name =>
      have hlen : name.length ≤ a.inp.junk.length := by
        have hshort := (a.short name hsuf).1
        rw [a.inp.junk_length]
        omega
      obtain ⟨w, hw, hwflag, hwbuf, hwname⟩ : ∃ w, v.createFile a.inp.opens name = some w ∧
          w.writeFileFlag = true ∧ w.redirectionFileName = name ++ a.inp.junk.drop name.length ∧
          w.namePipeOut = v.namePipeOut := by
        rw [Vars.createFile, hbuf, strncpy, if_pos hlen]
        dsimp only
        split <;> exact ⟨_, rfl, rfl, rfl, rfl⟩
      refine ⟨⟨w, a.line.cmds, false⟩, ?_, rfl, hwname.trans hname, by simp [hwflag, Suffix.isFile], hwbuf, ?_⟩
      · simp only [applySuffix, hw, Option.map_some]
      · simp only [hw, Option.map_some, Option.getD_some, Suffix.isFile, if_true]

/-- The files a line opens: the one it creates, and the one its last command truncates. -/
theorem lineOpens_eq {s : Shell} (a : FileLine) (hname : s.vars.namePipeOut = none) :
    lineOpens s a.inp =
      (if a.line.suffix.isFile && a.inp.opens.creat then
        [cString (buffer a.line.suffix a.inp.junk)] else []) ++
      if (s.vars.writeFileFlag || a.line.suffix.isFile) && LastForked shellBuiltins a.line.cmds &&
          a.inp.opens.redir then
        [cString (buffer a.line.suffix a.inp.junk)] else [] := by
  obtain ⟨q, hparse, hproc, hnone, hflag, hbuf, hcreated⟩ := parse_fileLine s a
  have hne : ∀ argv ∈ a.line.cmds, argv ≠ [] := by
    rcases a.ok with ⟨hcmds, -⟩ | hok
    · simp [hcmds]
    · exact fun argv hargv => (hok.cmds_ok argv hargv).1
  rw [lineOpens, hparse, hcreated]
  dsimp only
  rw [hproc, execOpens_eq a.inp.opens _ hne (hnone.trans hname), hflag, hbuf, Vars.createsFile, hbuf]
  cases a.line.suffix.isFile <;> simp

/-- The name that is opened is the name that was copied exactly if a NUL stands behind it. -/
theorem cString_copied_iff {name junk : List Char} (hlen : name.length < junk.length)
    (hnul : '\x00' ∉ name) :
    cString (name ++ junk.drop name.length) = name ↔ junk[name.length]? = some '\x00' := by
  have hpos : ∀ c ∈ name, (c != '\x00') = true := by
    intro c hc
    rw [bne_iff_ne]
    rintro rfl
    exact hnul hc
  rw [cString, List.takeWhile_append_of_pos hpos, List.drop_eq_getElem_cons hlen,
    List.getElem?_eq_getElem hlen, List.append_right_eq_self, Option.some.injEq]
  by_cases hc : junk[name.length] = '\x00'
  · simp [hc]
  · simp [hc, hlen]

/-- A line touches only the file it names exactly if it is clean. -/
theorem touches_iff_clean {s : Shell} (a : FileLine) (hname : s.vars.namePipeOut = none) :
    Touches s a ↔ Clean s a := by
  rw [Touches, Clean, lineOpens_eq a hname]
  cases hsuf : a.line.suffix with
  | file name =>
    obtain ⟨hlen, hnul⟩ := a.short name hsuf
    dsimp only
    rw [← cString_copied_iff (by rw [a.inp.junk_length]; exact hlen) hnul]
    simp only [Suffix.isFile, buffer, Bool.or_true, Bool.true_and, Suffix.file.injEq, List.mem_append]
    set opened := cString (name ++ a.inp.junk.drop name.length)
    constructor
    · intro h
      have hmem := (h name).mpr rfl
      rw [List.mem_ite_nil_right, List.mem_ite_nil_right, List.mem_singleton, Bool.and_eq_true] at hmem
      rcases hmem with ⟨hc, heq⟩ | ⟨⟨hl, hr⟩, heq⟩
      · exact ⟨heq.symm, Or.inl hc⟩
      · exact ⟨heq.symm, Or.inr ⟨hr, hl⟩⟩
    · rintro ⟨heq, hopen⟩ f
      rw [List.mem_ite_nil_right, List.mem_ite_nil_right, List.mem_singleton, Bool.and_eq_true, heq]
      constructor
      · rintro (⟨-, rfl⟩ | ⟨-, rfl⟩) <;> rfl
      · rintro rfl
        rcases hopen with hc | ⟨hr, hl⟩
        · exact Or.inl ⟨hc, rfl⟩
        · exact Or.inr ⟨⟨hl, hr⟩, rfl⟩
  | none | pipe ds | shock ds =>
    simp only [Suffix.isFile, Bool.or_false, Bool.false_and, Bool.false_eq_true, if_false, List.nil_append,
      List.mem_ite_nil_right, List.mem_singleton, reduceCtorEq, iff_false, Bool.and_eq_true, not_and]
    constructor
    · intro h hflag hlast
      by_contra hredir
      exact h _ ⟨⟨hflag, hlast⟩, by simpa using hredir⟩ rfl
    · rintro h f ⟨⟨hflag, hlast⟩, hredir⟩
      rw [h hflag hlast] at hredir
      cases hredir

/-- The process loop sets up no user pipe. -/
theorem execAll_namePipeOut (opens : Opens) (pc : ℕ) : ∀ {rows : List (List Token)} {e e' : Exec},
    (∀ argv ∈ rows, argv ≠ []) → e.vars.namePipeOut = none → execAll opens pc rows e = .ok e' →
    e'.vars.namePipeOut = none
  | [], e, e', _, hname, h => (Except.ok.inj h) ▸ hname
  | argv :: rest, e, e', hne, hname, h => by
    have htail := fun x hx => hne x (List.mem_cons_of_mem _ hx)
    rw [execAll] at h
    rcases execProcess_cases opens pc rest.isEmpty e (hne argv (List.mem_cons_self ..)) with
      ⟨-, hrow⟩ | ⟨-, -, e₁, hrow, hvars, -⟩ | ⟨-, -, hrow⟩
    · rw [hrow] at h
      cases h
    · rw [hrow] at h
      exact execAll_namePipeOut opens pc htail (hvars ▸ hname) h
    · rw [hrow] at h
      obtain ⟨-, -, -, -, -, -, -, -, -, -, hnone⟩ := Vars.forkProcess_fst e.vars opens pc rest.isEmpty
      exact execAll_namePipeOut opens pc htail (hnone hname) h

theorem fileStep_namePipeOut {s t : Shell} {a : FileLine} (hname : s.vars.namePipeOut = none)
    (h : fileStep s a = some t) : t.vars.namePipeOut = none := by
  obtain ⟨q, hparse, hproc, hnone, -⟩ := parse_fileLine s a
  have hne : ∀ argv ∈ a.line.cmds, argv ≠ [] := by
    rcases a.ok with ⟨hcmds, -⟩ | hok
    · simp [hcmds]
    · exact fun argv hargv => (hok.cmds_ok argv hargv).1
  rw [fileStep, line, hparse] at h
  dsimp only at h
  rw [hproc] at h
  cases hexec : execAll a.inp.opens a.line.cmds.length a.line.cmds ⟨q.vars, s.environ, [], []⟩ with
  | error x => simp [hexec, Except.toOption] at h
  | ok e =>
    simp only [hexec, Except.toOption, Option.map_some, Option.some.injEq] at h
    subst h
    exact execAll_namePipeOut _ _ hne (hnone.trans hname) hexec

/-- In a run every line touches only the file it names exactly if every line is clean when it comes. -/
theorem run_touches_iff (environ : Environ) (lines : List FileLine) :
    Meets fileStep Touches (Shell.init environ) lines ↔ Meets fileStep Clean (Shell.init environ) lines := by
  have hinit : (Shell.init environ).vars.namePipeOut = none := rfl
  exact ⟨meets_of_meets (fun _ _ _ hs _ ht => fileStep_namePipeOut hs ht)
      (fun _ a hs h => (touches_iff_clean a hs).mp h) hinit,
    meets_of_meets (fun _ _ _ hs _ ht => fileStep_namePipeOut hs ht)
      (fun _ a hs h => (touches_iff_clean a hs).mpr h) hinit⟩

end

/-! ### The single-process server -/

section

open Server OneShell

/-- The files created while the tokens are combined. -/
def combineCreates (inp : LineInput) : List Token → Call → List (List Char)
  | [], _ => []
  | tok :: rest, c =>
    if tok.head? = some '<' then
      match strtok '<' tok with
      | none => []
      | some n =>
        match c.takeUserPipe inp.command (atoi n) with
        | .error _ => []
        | .ok c => combineCreates inp rest c
    else if ordinary tok then combineCreates inp rest c
    else if tok = ['|'] then combineCreates inp rest c
    else if tok = ['>'] then
      match rest with
      | [] => []
      | name :: rest =>
        match c.vars.createFile inp.opens name with
        | none => []
        | some v => v.createsFile inp.opens ++ combineCreates inp rest { c with vars := v }
    else if tok.head? = some '!' then
      match strtok '!' tok with
      | none => []
      | some n => combineCreates inp rest (c.pipeOut true (atoi n))
    else if tok.head? = some '|' then
      match strtok '|' tok with
      | none => []
      | some n => combineCreates inp rest (c.pipeOut false (atoi n))
    else
      match strtok '>' tok with
      | none => []
      | some n =>
        match c.makeUserPipe (atoi n) with
        | .error _ => []
        | .ok c => combineCreates inp rest c

/-- The files opened by the children the process loop forks. -/
def rowOpens (inp : LineInput) (pc : ℕ) : List (List Token) → Call → List (List Char)
  | [], _ => []
  | argv :: rest, c =>
    match execRow inp pc rest.isEmpty argv c with
    | .next c' =>
      ((c'.spawned.drop c.spawned.length).flatMap fun _ => c.vars.opensAtFork inp.opens rest.isEmpty) ++
        rowOpens inp pc rest c'
    | _ => []

/-- The files opened for creation or truncation in a call of `npshell`. -/
def callOpens (s : Server) (u : ℕ) (inp : LineInput) : List (List Char) :=
  match tokens ' ' inp.line with
  | [] => []
  | tok :: rest =>
    (if tok = tellCmd ∨ tok = yellCmd then []
      else combineCreates inp (tok :: rest) (startCall (s.setPath u) u)) ++
    match parse (s.setPath u) u inp with
    | .ok c => rowOpens inp c.process.length c.process c.resolve
    | _ => []

/-- Commands of words, joined by `|`: what stands before the only output operator, `>id`. -/
def pipedTokens : List (List Word) → List Token
  | [] => []
  | [c] => c.map Word.token
  | c :: cs => c.map Word.token ++ ['|'] :: pipedTokens cs

/-- A line whose only output operator is a user pipe. -/
structure PipedLine where
  inp : LineInput
  cmds : List (List Word)
  digits : List Char
  reads : tokens ' ' inp.line = pipedTokens cmds ++ ['>' :: digits]
  cmds_ne : cmds ≠ []
  words : ∀ c ∈ cmds, ∀ w ∈ c, w.Ok
  numeral : Numeral digits

/-- The ids in some commands whose pipes are read. -/
def idsOf (cmds : List (List Word)) : List ℤ := (cmds.flatMap fun c => c.filterMap Word.take?).map atoi

/-- The pipes of some ids are all there, and each is asked for once. -/
def TakesOk (s : Server) (u : ℕ) (ids : List ℤ) : Prop :=
  (∀ a ∈ ids, s.checkIdExist a = true ∧ s.checkNamePipeExist a.toNat (u + 1) = true) ∧ ids.Nodup

namespace PipedLine

/-- The commands as they are executed. -/
def rows (l : PipedLine) : List (List Token) := l.cmds.map fun c => c.filterMap Word.arg?

/-- The ids whose pipes the line reads. -/
def takes (l : PipedLine) : List ℤ := idsOf l.cmds

/-- Whether the line is one command of `tell` or `yell` as it stands. -/
def Says (l : PipedLine) : Prop := ∃ tok ∈ (tokens ' ' l.inp.line).head?, tok = tellCmd ∨ tok = yellCmd

/-- The line is accepted: the pipes it reads are there, and the one it makes is for a user and not there
    yet. -/
def Accepted (l : PipedLine) (s : Server) (u : ℕ) : Prop :=
  TakesOk s u l.takes ∧ s.checkIdExist (atoi l.digits) = true ∧
    (s.checkNamePipeExist (u + 1) (atoi l.digits).toNat = false ∨
      atoi l.digits = (u : ℤ) + 1 ∧ (u : ℤ) + 1 ∈ l.takes)

/-- The last command is not forked as the writer of a user pipe, or the string in the buffer cannot be
    opened. -/
def Harmless (l : PipedLine) (s : Server) (u : ℕ) : Prop :=
  l.inp.opens.junk = none ∨ l.Says ∨ ¬ l.Accepted s u ∨ LastForked builtinCmds l.rows = false

end PipedLine

/-! ### Reading the line -/

/-- No file is created where no `>` stands alone. -/
theorem combineCreates_nil (inp : LineInput) : ∀ {ts : List Token} (c : Call), (∀ t ∈ ts, t ≠ ['>']) →
    combineCreates inp ts c = []
  | [], _, _ => rfl
  | t :: ts, c, h => by
    have ih := fun c => combineCreates_nil inp c fun x hx => h x (List.mem_cons_of_mem _ hx)
    rw [combineCreates.eq_def]
    dsimp only
    rw [if_neg (h t (List.mem_cons_self ..))]
    split_ifs
    · cases strtok '<' t with
      | none => rfl
      | some n =>
        dsimp only
        split
        · rfl
        · exact ih _
    · exact ih c
    · exact ih c
    · cases strtok '!' t with
      | none => rfl
      | some n => exact ih _
    · cases strtok '|' t with
      | none => rfl
      | some n => exact ih _
    · cases strtok '>' t with
      | none => rfl
      | some n =>
        dsimp only
        split
        · rfl
        · exact ih _

/-- The call after the pipes of some ids were taken. -/
structure TakenBy (c : Call) (ids : List ℤ) (c' : Call) : Prop where
  u : c'.u = c.u
  vars : c'.vars = c.vars
  spawned : c'.spawned = c.spawned
  user : c'.server.user = c.server.user
  record : ∀ (x y : ℕ), c'.server.namePipeRecord x y = true ↔
    c.server.namePipeRecord x y = true ∧ ¬ ((x : ℤ) ∈ ids ∧ y = c.u + 1)

theorem TakenBy.nil (c : Call) : TakenBy c [] c := ⟨rfl, rfl, rfl, rfl, by simp⟩

theorem TakenBy.trans {c c₁ c₂ : Call} {ids ids' : List ℤ} (h : TakenBy c ids c₁) (h' : TakenBy c₁ ids' c₂) :
    TakenBy c (ids ++ ids') c₂ where
  u := h'.u.trans h.u
  vars := h'.vars.trans h.vars
  spawned := h'.spawned.trans h.spawned
  user := h'.user.trans h.user
  record x y := by
    rw [h'.record, h.record, h.u, List.mem_append]
    tauto

theorem TakenBy.one {c : Call} {command : List Char} {a : ℤ} (ha : c.server.checkIdExist a = true) :
    TakenBy c [a] (c.taken command a.toNat) where
  u := rfl
  vars := rfl
  spawned := rfl
  user := rfl
  record x y := by
    have hnat := (checkIdExist_iff.mp ha).2.2.1
    have hiff : x = a.toNat ↔ (x : ℤ) ∈ [a] := by
      rw [List.mem_singleton]
      omega
    rw [record_taken, hiff]

/-- The ids are asked for one after another. -/
theorem takesOk_append {c c' : Call} {ids : List ℤ} (h : TakenBy c ids c') (ids' : List ℤ) :
    TakesOk c.server c.u (ids ++ ids') ↔ TakesOk c.server c.u ids ∧ TakesOk c'.server c'.u ids' := by
  have hexist : ∀ a, c'.server.checkIdExist a = c.server.checkIdExist a := fun a => by
    rw [checkIdExist, checkIdExist, h.user]
  have hthere : ∀ a, c.server.checkIdExist a = true →
      (c'.server.checkNamePipeExist a.toNat (c'.u + 1) = true ↔
        c.server.checkNamePipeExist a.toNat (c.u + 1) = true ∧ a ∉ ids) := by
    intro a ha
    have hnat := (checkIdExist_iff.mp ha).2.2.1
    rw [checkNamePipeExist, checkNamePipeExist, h.u, h.record, ← hnat]
    simp
  simp only [TakesOk, List.forall_mem_append, List.nodup_append]
  constructor
  · rintro ⟨⟨hids, hids'⟩, hnodup, hnodup', hapart⟩
    refine ⟨⟨hids, hnodup⟩, fun a ha => ?_, hnodup'⟩
    obtain ⟨hex, hrec⟩ := hids' a ha
    exact ⟨(hexist a).trans hex, (hthere a hex).mpr ⟨hrec, fun hmem => hapart a hmem a ha rfl⟩⟩
  · rintro ⟨⟨hids, hnodup⟩, hids', hnodup'⟩
    have hrest : ∀ a ∈ ids', c.server.checkIdExist a = true ∧
        c.server.checkNamePipeExist a.toNat (c.u + 1) = true ∧ a ∉ ids := by
      intro a ha
      obtain ⟨hex, hrec⟩ := hids' a ha
      rw [hexist] at hex
      exact ⟨hex, (hthere a hex).mp hrec⟩
    refine ⟨⟨hids, fun a ha => ⟨(hrest a ha).1, (hrest a ha).2.1⟩⟩, hnodup, hnodup', ?_⟩
    rintro a ha b hb rfl
    exact (hrest a hb).2.2 ha

/-- The pipes of the ids can be taken exactly if they are all there. -/
theorem takeAll_spec (command : List Char) : ∀ (ids : List ℤ) (c : Call),
    (TakesOk c.server c.u ids → ∃ c', c.takeAll command ids = .ok c' ∧ TakenBy c ids c' ∧
      c'.process = c.process) ∧
    (¬ TakesOk c.server c.u ids → ∃ x, c.takeAll command ids = .error x)
  | [], c => ⟨fun _ => ⟨c, rfl, .nil c, rfl⟩, fun h => absurd ⟨by simp, List.nodup_nil⟩ h⟩
  | a :: ids, c => by
    by_cases ha : c.server.checkIdExist a = true ∧ c.server.namePipeRecord a.toNat (c.u + 1) = true
    · have htake : c.takeUserPipe command a = .ok (c.taken command a.toNat) :=
        takeUserPipe_ok.mpr ⟨ha.1, ha.2, rfl⟩
      have hone : TakenBy c [a] (c.taken command a.toNat) := .one ha.1
      have hfirst : TakesOk c.server c.u [a] := ⟨by simpa [checkNamePipeExist] using ha, List.nodup_singleton a⟩
      have hiff := takesOk_append hone ids
      obtain ⟨hok, herr⟩ := takeAll_spec command ids (c.taken command a.toNat)
      rw [List.singleton_append] at hiff
      rw [Call.takeAll, htake]
      dsimp only
      constructor
      · intro h
        obtain ⟨c', htaken, hby, hproc⟩ := hok (hiff.mp h).2
        exact ⟨c', htaken, hone.trans hby, hproc⟩
      · exact fun h => herr fun h' => h (hiff.mpr ⟨hfirst, h'⟩)
    · refine ⟨fun h => absurd (h.1 a (List.mem_cons_self ..)) ha, fun _ => ?_⟩
      rw [Call.takeAll]
      cases htake : c.takeUserPipe command a with
      | error e => exact ⟨_, rfl⟩
      | ok c' =>
        obtain ⟨h1, h2, -⟩ := takeUserPipe_ok.mp htake
        exact absurd ⟨h1, h2⟩ ha

theorem mem_pipedTokens {t : Token} : ∀ {cmds : List (List Word)}, t ∈ pipedTokens cmds →
    t = ['|'] ∨ ∃ c ∈ cmds, ∃ w ∈ c, w.token = t
  | [], h => by simp [pipedTokens] at h
  | [c], h => by
    obtain ⟨w, hw, rfl⟩ := List.mem_map.mp h
    exact Or.inr ⟨c, List.mem_singleton_self c, w, hw, rfl⟩
  | c :: c' :: cmds, h => by
    rw [pipedTokens, List.mem_append, List.mem_cons] at h
    · rcases h with h | rfl | h
      · obtain ⟨w, hw, rfl⟩ := List.mem_map.mp h
        exact Or.inr ⟨c, List.mem_cons_self .., w, hw, rfl⟩
      · exact Or.inl rfl
      · exact (mem_pipedTokens h).imp_right fun ⟨x, hx, hw⟩ => ⟨x, List.mem_cons_of_mem _ hx, hw⟩
    · simp

/-- Reading the commands takes the pipes, and all rows but the last are closed. -/
theorem combine_piped (inp : LineInput) (suf : List Token) : ∀ (cmds : List (List Word)) (c : Call),
    cmds ≠ [] → (∀ x ∈ cmds, ∀ w ∈ x, w.Ok) →
    (TakesOk c.server c.u (idsOf cmds) → ∃ c' last,
      combine inp (pipedTokens cmds ++ suf) [] c = combine inp suf last c' ∧ TakenBy c (idsOf cmds) c' ∧
        c'.process ++ [last] = c.process ++ cmds.map fun x => x.filterMap Word.arg?) ∧
    (¬ TakesOk c.server c.u (idsOf cmds) → ∃ c' e,
      combine inp (pipedTokens cmds ++ suf) [] c = .rejected c' e)
  | [], _, hne, _ => absurd rfl hne
  | [x], c, _, hok => by
    have hids : idsOf [x] = (x.filterMap Word.take?).map atoi := by simp [idsOf]
    obtain ⟨htake, herr⟩ := takeAll_spec inp.command (idsOf [x]) c
    have hwords := combine_words inp x suf [] c (hok x (List.mem_cons_self ..))
    rw [← hids] at hwords
    rw [pipedTokens, hwords]
    constructor
    · intro h
      obtain ⟨c', htaken, hby, hproc⟩ := htake h
      rw [htaken]
      exact ⟨c', _, rfl, hby, by simp [hproc]⟩
    · intro h
      obtain ⟨⟨c', e⟩, htaken⟩ := herr h
      rw [htaken]
      exact ⟨_, _, rfl⟩
  | x :: y :: cmds, c, _, hok => by
    have hids : idsOf (x :: y :: cmds) = idsOf [x] ++ idsOf (y :: cmds) := by simp [idsOf]
    have hone : idsOf [x] = (x.filterMap Word.take?).map atoi := by simp [idsOf]
    obtain ⟨htake, herr⟩ := takeAll_spec inp.command (idsOf [x]) c
    have hwords := combine_words inp x (['|'] :: (pipedTokens (y :: cmds) ++ suf)) [] c
      (hok x (List.mem_cons_self ..))
    rw [← hone] at hwords
    have hlist : pipedTokens (x :: y :: cmds) ++ suf =
        x.map Word.token ++ ['|'] :: (pipedTokens (y :: cmds) ++ suf) := by
      simp [pipedTokens]
    rw [hlist, hwords, hids]
    by_cases hx : TakesOk c.server c.u (idsOf [x])
    · obtain ⟨c₁, htaken, hby, hproc⟩ := htake hx
      have hiff := takesOk_append hby (idsOf (y :: cmds))
      rw [htaken]
      dsimp only
      rw [combine_bar, hiff]
      obtain ⟨hrest, hrej⟩ := combine_piped inp suf (y :: cmds)
        (c₁.push ([] ++ x.filterMap Word.arg?)) (List.cons_ne_nil y cmds)
        fun z hz => hok z (List.mem_cons_of_mem _ hz)
      constructor
      · rintro ⟨-, hy⟩
        obtain ⟨c', last, hcomb, hby', hproc'⟩ := hrest hy
        have hpush : TakenBy c (idsOf [x]) (c₁.push ([] ++ x.filterMap Word.arg?)) :=
          ⟨hby.u, hby.vars, hby.spawned, hby.user, hby.record⟩
        refine ⟨c', last, hcomb, hpush.trans hby', ?_⟩
        rw [hproc']
        simp [Call.push, hproc]
      · exact fun h => hrej fun hy => h ⟨hx, hy⟩
    · obtain ⟨⟨c', e⟩, htaken⟩ := herr hx
      rw [htaken]
      refine ⟨fun h => absurd ⟨fun a ha => h.1 a (List.mem_append_left _ ha), ?_⟩ hx, fun _ => ⟨_, _, rfl⟩⟩
      exact h.2.of_append_left

/-- While the rows are executed: the last command is to write a user pipe. -/
structure Piping (v : Vars) : Prop where
  file : v.writeFileFlag = false
  shock : v.shockPipeOutFlag = false
  num : v.numPipeOutFlag = false
  out : v.namePipeOut ≠ none

theorem Piping.opensAtFork {v : Vars} (h : Piping v) (opens : Opens) :
    v.opensAtFork opens true = opens.junk.toList := by
  obtain ⟨out, hout⟩ := Option.ne_none_iff_exists'.mp h.out
  simp [Vars.opensAtFork, h.file, h.shock, h.num, hout]

theorem Piping.fork {v : Vars} (h : Piping v) (opens : Opens) (pc : ℕ) :
    Piping (v.forkProcess opens pc false).1 := by
  obtain ⟨-, -, -, -, -, hshock, -, hfile, hnum, -⟩ := Vars.forkProcess_fst v opens pc false
  refine ⟨by simp [hfile, h.file], hshock.trans h.shock, by simp [hnum, h.num], ?_⟩
  rw [v.forkProcess_namePipeOut]
  exact h.out

/-- The process loop opens the string in the buffer, if it comes to a last command that is forked. -/
theorem rowOpens_spec (inp : LineInput) (pc : ℕ) : ∀ (rows : List (List Token)) {c : Call}, Piping c.vars →
    (rowOpens inp pc rows c = [] ∨
      LastForked builtinCmds rows = true ∧ rowOpens inp pc rows c = inp.opens.junk.toList) ∧
    (LastForked builtinCmds rows = true → execRows inp pc rows c ≠ .crashed →
      rowOpens inp pc rows c = inp.opens.junk.toList)
  | [], c, _ => by simp [rowOpens, LastForked]
  | [] :: rest, c, _ => by simp [rowOpens, execRow, execRows]
  | (cmd :: args) :: rest, c, h => by
    rw [rowOpens, execRows]
    by_cases hcmd : cmd ∈ builtinCmds
    · cases hrow : execRow inp pc rest.isEmpty (cmd :: args) c with
      | crashed => simp
      | exited c' =>
        have hexit : cmd = Shell.exitCmd := by
          rw [execRow.eq_def] at hrow
          dsimp only at hrow
          split_ifs at hrow with _ _ _ _ hexit
          · exact hexit
          · cases args <;> cases hrow
        have hno : LastForked builtinCmds ((cmd :: args) :: rest) = false := by
          cases rest with
          | nil => simp [LastForked, hcmd]
          | cons row rest => simp [LastForked, hexit]
        simp [hno]
      | next c' =>
        obtain ⟨hvars, hspawned⟩ := execRow_builtin hcmd hrow
        have hne : cmd ≠ Shell.exitCmd := by
          rintro rfl
          simp [execRow, Shell.exitCmd, Shell.printenvCmd, Shell.setenvCmd] at hrow
        have hsame : LastForked builtinCmds ((cmd :: args) :: rest) = LastForked builtinCmds rest := by
          cases rest with
          | nil => simp [LastForked, hcmd]
          | cons row rest => simp [LastForked, hne]
        dsimp only
        rw [hspawned, List.drop_length, List.flatMap_nil, List.nil_append, hsame]
        exact rowOpens_spec inp pc rest (hvars ▸ h)
    · rw [execRow_of_not_builtin hcmd]
      dsimp only
      have hnew : ((c.fork inp pc rest.isEmpty (cmd :: args)).spawned.drop c.spawned.length).flatMap
          (fun _ => c.vars.opensAtFork inp.opens rest.isEmpty) = c.vars.opensAtFork inp.opens rest.isEmpty := by
        simp [Call.fork]
      rw [hnew]
      cases rest with
      | nil =>
        have hlast : LastForked builtinCmds [cmd :: args] = true := by simp [LastForked, hcmd]
        rw [List.isEmpty_nil, h.opensAtFork, rowOpens, List.append_nil]
        exact ⟨Or.inr ⟨hlast, rfl⟩, fun _ _ => rfl⟩
      | cons row rest =>
        have hne : cmd ≠ Shell.exitCmd := by
          rintro rfl
          exact hcmd (by decide)
        have hsame : LastForked builtinCmds ((cmd :: args) :: row :: rest) =
            LastForked builtinCmds (row :: rest) := by
          simp [LastForked, hne]
        rw [List.isEmpty_cons, c.vars.opensAtFork_of_not_last, List.nil_append, hsame]
        exact rowOpens_spec inp pc (row :: rest) (h.fork inp.opens pc)

/-- What the tokens of the line leave: the rows and a user pipe to write, or nothing to execute. -/
theorem parse_piped (s : Server) (u : ℕ) (l : PipedLine) (hsaid : ¬ l.Says) :
    (l.Accepted s u → ∃ c, parse (s.setPath u) u l.inp = .ok c ∧ c.process = l.rows ∧ Piping c.resolve.vars) ∧
    (¬ l.Accepted s u → ∃ c e, parse (s.setPath u) u l.inp = .rejected c e) := by
  set c₀ := startCall (s.setPath u) u with hc₀
  obtain ⟨tok, rest, htok⟩ : ∃ tok rest, tokens ' ' l.inp.line = tok :: rest := by
    rw [l.reads]
    cases pipedTokens l.cmds with
    | nil => exact ⟨_, _, rfl⟩
    | cons t ts => exact ⟨_, _, rfl⟩
  have hplain : ¬ (tok = tellCmd ∨ tok = yellCmd) := fun h => hsaid ⟨tok, by simp [htok], h⟩
  have hparse : parse (s.setPath u) u l.inp =
      combine l.inp (pipedTokens l.cmds ++ ['>' :: l.digits]) [] c₀ := by
    rw [parse, htok]
    dsimp only
    rw [if_neg hplain, ← htok, l.reads]
  obtain ⟨hok, herr⟩ := combine_piped l.inp ['>' :: l.digits] l.cmds c₀ l.cmds_ne l.words
  rw [hparse]
  by_cases htakes : TakesOk s u l.takes
  · obtain ⟨c₁, last, hcomb, hby, hproc⟩ := hok htakes
    rw [hcomb, combine_user l.inp last c₁ l.numeral]
    have hexist : ∀ id, (c₁.push last).server.checkIdExist id = s.checkIdExist id := by
      intro id
      have huser : (c₁.push last).server.user = s.user := hby.user
      rw [checkIdExist, checkIdExist, huser]
    have hfree : s.checkIdExist (atoi l.digits) = true →
        ((c₁.push last).server.namePipeRecord ((c₁.push last).u + 1) (atoi l.digits).toNat = false ↔
          s.checkNamePipeExist (u + 1) (atoi l.digits).toNat = false ∨
            atoi l.digits = (u : ℤ) + 1 ∧ (u : ℤ) + 1 ∈ l.takes) := by
      intro hid
      have hnat := (checkIdExist_iff.mp hid).2.2.1
      have hu : (c₁.push last).u = u := hby.u
      have hrec := hby.record (u + 1) (atoi l.digits).toNat
      have hu₀ : c₀.u = u := rfl
      rw [hu₀, Nat.cast_add, Nat.cast_one] at hrec
      rw [hu, ← Bool.not_eq_true, Call.push, hrec, ← Bool.not_eq_true, not_and, not_not]
      have hself : (atoi l.digits).toNat = u + 1 ↔ atoi l.digits = (u : ℤ) + 1 := by omega
      have hrec₀ : c₀.server.namePipeRecord = s.namePipeRecord := rfl
      rw [hself, hrec₀, checkNamePipeExist]
      constructor
      · intro h
        by_cases hr : s.namePipeRecord (u + 1) (atoi l.digits).toNat = true
        · exact Or.inr ⟨(h hr).2, (h hr).1⟩
        · exact Or.inl hr
      · rintro (hr | ⟨heq, hmem⟩) hrec'
        · exact absurd hrec' hr
        · exact ⟨hmem, heq⟩
    constructor
    · rintro ⟨-, hid, hnew⟩
      have hmake := makeUserPipe_ok.mpr ⟨(hexist _).trans hid, (hfree hid).mpr hnew, rfl⟩
      rw [hmake]
      refine ⟨_, rfl, ?_, ?_⟩
      · have hrows : c₁.process ++ [last] = [] ++ l.rows := hproc
        exact hrows
      · have hvars : c₁.vars = c₀.vars := hby.vars
        refine ⟨?_, ?_, ?_, by simp [Call.resolve, Call.made]⟩ <;>
          · simp only [Call.resolve, Call.made, Call.push, hvars]
            rfl
    · intro hno
      cases hmake : (c₁.push last).makeUserPipe (atoi l.digits) with
      | error e => exact ⟨_, e, rfl⟩
      | ok c₂ =>
        obtain ⟨h1, h2, -⟩ := makeUserPipe_ok.mp hmake
        rw [hexist] at h1
        exact absurd ⟨htakes, h1, (hfree h1).mp h2⟩ hno
  · obtain ⟨c, e, hrej⟩ := herr htakes
    exact ⟨fun h => absurd h.1 htakes, fun _ => ⟨c, e, hrej⟩⟩

/-- A builtin alone opens nothing. -/
theorem rowOpens_builtin (inp : LineInput) (pc : ℕ) {cmd : Token} (args : List Token) (c : Call)
    (hcmd : cmd ∈ builtinCmds) : rowOpens inp pc [cmd :: args] c = [] := by
  rw [rowOpens]
  cases hrow : execRow inp pc [].isEmpty (cmd :: args) c with
  | crashed => rfl
  | exited c' => rfl
  | next c' =>
    dsimp only
    rw [(execRow_builtin hcmd hrow).2, List.drop_length]
    rfl

/-- A harmless line opens no file; and a line of a call that returns opens none only if it is harmless. -/
theorem callOpens_spec (s : Server) (u : ℕ) (l : PipedLine) :
    (l.Harmless s u → callOpens s u l.inp = []) ∧
      (npshell s u l.inp ≠ none → callOpens s u l.inp = [] → l.Harmless s u) := by
  obtain ⟨tok, rest, htok⟩ : ∃ tok rest, tokens ' ' l.inp.line = tok :: rest := by
    rw [l.reads]
    cases pipedTokens l.cmds with
    | nil => exact ⟨_, _, rfl⟩
    | cons t ts => exact ⟨_, _, rfl⟩
  have hline : l.inp.line ≠ [] := by
    intro hnil
    rw [hnil] at htok
    cases htok
  by_cases hsaid : l.Says
  · refine ⟨fun _ => ?_, fun _ _ => Or.inr (Or.inl hsaid)⟩
    obtain ⟨tok', htok', hcmd⟩ := hsaid
    obtain rfl : tok = tok' := by simpa [htok] using htok'
    have hmem : tok ∈ builtinCmds := by rcases hcmd with rfl | rfl <;> decide
    rw [callOpens, parse, htok]
    dsimp only
    rw [if_pos hcmd, if_pos hcmd]
    exact rowOpens_builtin l.inp _ rest _ hmem
  · have hplain : ¬ (tok = tellCmd ∨ tok = yellCmd) := fun h => hsaid ⟨tok, by simp [htok], h⟩
    have hfile : ∀ t ∈ tok :: rest, t ≠ ['>'] := by
      rw [← htok, l.reads]
      intro t ht
      rw [List.mem_append, List.mem_singleton] at ht
      rcases ht with ht | rfl
      · rcases mem_pipedTokens ht with rfl | ⟨c, hc, w, hw, rfl⟩
        · decide
        · have hok := l.words c hc w hw
          cases w with
          | arg t =>
            rintro rfl
            cases hok
          | take ds => simp [Word.token]
      · simpa using l.numeral.1
    obtain ⟨hok, hrej⟩ := parse_piped s u l hsaid
    have hopens : callOpens s u l.inp = match parse (s.setPath u) u l.inp with
        | .ok c => rowOpens l.inp c.process.length c.process c.resolve
        | _ => [] := by
      rw [callOpens, htok]
      dsimp only
      rw [if_neg hplain, combineCreates_nil l.inp _ hfile, List.nil_append]
    rw [hopens]
    by_cases hacc : l.Accepted s u
    · obtain ⟨c, hparse, hrows, hpiping⟩ := hok hacc
      obtain ⟨hnone, hall⟩ := rowOpens_spec l.inp c.process.length c.process hpiping
      rw [hparse]
      dsimp only
      constructor
      · rintro (hjunk | hsaid' | hno | hlast)
        · rcases hnone with hnil | ⟨-, hnil⟩
          · exact hnil
          · rw [hnil, hjunk]
            rfl
        · exact absurd hsaid' hsaid
        · exact absurd hacc hno
        · rcases hnone with hnil | ⟨hlast', -⟩
          · exact hnil
          · rw [hrows, hlast] at hlast'
            cases hlast'
      · intro hret hnil
        cases hlast : LastForked builtinCmds l.rows with
        | false => exact Or.inr (Or.inr (Or.inr hlast))
        | true =>
          refine Or.inl ?_
          have hcrash : execRows l.inp c.process.length c.process c.resolve ≠ .crashed := by
            intro hcrash
            refine hret ?_
            have hcall : npshell s u l.inp = npshellLine (s.setPath u) u l.inp := if_neg hline
            rw [hcall, npshellLine, hparse]
            dsimp only
            rw [hcrash]
          rw [hall (hrows ▸ hlast) hcrash] at hnil
          simpa using hnil
    · obtain ⟨c, e, hparse⟩ := hrej hacc
      rw [hparse]
      exact ⟨fun _ => rfl, fun _ _ => Or.inr (Or.inr (Or.inl hacc))⟩

end

/-! ### Both shells -/

/-- `ls > f`, where the buffer has still the letter `x` in every cell. -/
def staleName : FileLine where
  inp := ⟨['l', 's', ' ', '>', ' ', 'f'], List.replicate 100 'x', by simp, ⟨true, true, none⟩⟩
  line := ⟨[[['l', 's']]], .file ['f']⟩
  reads := by decide
  ok := Or.inr (by decide)
  short := by
    rintro name h
    cases h
    exact ⟨by decide, by decide⟩

/-- `ls >1`, where the buffer for the name of the user pipe has the string `x`. -/
def selfPiped : PipedLine where
  inp := ⟨['l', 's', ' ', '>', '1'], ['l', 's', ' ', '>', '1'], ⟨true, true, some ['x']⟩, true⟩
  cmds := [[.arg ['l', 's']]]
  digits := ['1']
  reads := by decide
  cmds_ne := by decide
  words := by decide
  numeral := by decide

end OpenedFiles
end NetProg
