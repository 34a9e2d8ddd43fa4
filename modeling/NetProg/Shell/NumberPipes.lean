import NetProg.Shell.Refinement

/-! Number pipes of the project-1 shell follow the absolute schedule, over whole sessions. -/

namespace NetProg.Shell

theorem execProcess_external (opens : Opens) (pc : ℕ) (last : Bool) {argv : List Token} (e : Exec)
    (h : External argv) : execProcess opens pc last argv e = .ok (e.fork opens pc last argv) := by
  obtain ⟨⟨hne, -, -, hexit⟩, hprint, hset⟩ := h
  obtain ⟨cmd, args, rfl⟩ := List.exists_cons_of_ne_nil hne
  simp only [List.head?_cons, ne_eq, Option.some.injEq] at hexit hprint hset
  simp [execProcess, hexit, hprint, hset]

/-- The outcome of the process loop for the commands from number `c` on. -/
structure Finished (pre : List Pipeline) (inp : LineInput) (l : Pipeline) (c : ℕ) (U U' : Set APipe)
    (ρ' : APipe → ℕ) (rest : List (List Token)) (v : Vars) (sp : List Spawn) : Prop where
  pending : Pending (pre.length + 1) 1 U' ρ' v
  flags : v.numPipeInFlag = false ∧ v.numPipeOutFlag = false ∧ v.writeFileFlag = false
  sub : U ⊆ U'
  num : ∀ T, .num T ∈ U' → .num T ∈ U
  normal : ∀ L c', .normal L c' ∈ U' → L ≤ pre.length + 1
  made : ∀ c', c ≤ c' → c' + 1 < l.cmds.length → .normal (pre.length + 1) c' ∈ U'
  argv : sp.map (·.argv) = rest
  wired : ∀ i s, sp[i]? = some s →
    (stdinEnd pre (c + i)).In U' ∧ s.fds.get 0 = some ((stdinEnd pre (c + i)).desc ρ') ∧
    (stdoutEnd (pre.length + 1) inp l (c + i)).In U' ∧
    s.fds.get 1 = some ((stdoutEnd (pre.length + 1) inp l (c + i)).desc ρ')

/-- Executing rows that are all forked is forking them one after another. -/
theorem execAll_forked (opens : Opens) (pc : ℕ) : ∀ (rows : List (List Token)) (e : Exec),
    (∀ argv ∈ rows, ∀ last e, execProcess opens pc last argv e = .ok (e.fork opens pc last argv)) →
    execAll opens pc rows e = .ok { e with
      vars := (forkRows opens pc rows e.vars).1
      spawned := e.spawned ++ (forkRows opens pc rows e.vars).2 }
  | [], e, _ => by simp [execAll, forkRows]
  | argv :: rest, e, hext => by
    rw [execAll, hext argv (List.mem_cons_self ..) rest.isEmpty e]
    dsimp only
    rw [execAll_forked opens pc rest _ fun x hx => hext x (List.mem_cons_of_mem _ hx)]
    simp [Exec.fork, forkRows]

theorem execAll_wired {pre : List Pipeline} {inp : LineInput} {l : Pipeline}
    (hredir : inp.opens.redir = true) (rest : List (List Token)) (c : ℕ) (U : Set APipe)
    (ρ : APipe → ℕ) (e : Exec) (hne : rest ≠ []) (hlen : c + rest.length = l.cmds.length)
    (hext : ∀ x ∈ rest, External x) (ht : Turn (pre.length + 1) c U ρ e.vars)
    (hout : Output (pre.length + 1) U ρ inp e.vars l.suffix)
    (hpre : .num (pre.length + 1) ∈ U ↔ Targets pre (pre.length + 1)) :
    ∃ U' ρ' e' sp, execAll inp.opens l.cmds.length rest e = .ok e' ∧ (∀ p ∈ U, ρ' p = ρ p) ∧
      e'.spawned = e.spawned ++ sp ∧ e'.environ = e.environ ∧
      Finished pre inp l c U U' ρ' rest e'.vars sp := by
  obtain ⟨U', ρ', hagree, hfin⟩ :=
    forkRows_wired rest c U ρ e.vars hne hlen ht.turning (output_iff.mp hout) hpre
  refine ⟨U', ρ', _, _, execAll_forked inp.opens l.cmds.length rest e
      fun x hx last e => execProcess_external _ _ last e (hext x hx), hagree, rfl, rfl,
    Pending.iff_counting.mpr hfin.counting, hfin.flags, hfin.sub, ?_, ?_, ?_, forkRows_argv .., ?_⟩
  · intro T hT
    rcases (hfin.grows _).mp hT with hT | ⟨c', -, -, heq⟩
    · exact hT
    · cases heq
  · intro L c' hmem
    rcases (hfin.grows _).mp hmem with hmem | ⟨c'', -, -, heq⟩
    · have := ht.free L c' hmem
      omega
    · cases heq
      exact le_rfl
  · intro c' hcc hlt
    exact (hfin.grows _).mpr (Or.inr ⟨c', hcc, hlt, rfl⟩)
  · intro i s hs
    obtain ⟨⟨hin, h0⟩, hstdout, -⟩ := hfin.wired i s hs
    obtain ⟨hin1, h1⟩ := hstdout fun _ => hredir
    rw [AEnd.in_iff] at hin hin1
    rw [Setting.alone_desc] at h0 h1
    exact ⟨hin, h0, hin1, h1⟩

/-! ### One line -/

/-- The shell at the prompt after `n` lines. -/
structure Prompt (n : ℕ) (U : Set APipe) (ρ : APipe → ℕ) (s : Shell) : Prop where
  pending : Pending n 1 U ρ s.vars
  flags : s.vars.numPipeInFlag = false ∧ s.vars.numPipeOutFlag = false ∧
    s.vars.writeFileFlag = false
  normal : ∀ L c, .normal L c ∈ U → L ≤ n

/-- The suffix sets up the output of the line and names the pipe it targets. -/
theorem applySuffix_output {L : ℕ} {U : Set APipe} {ρ : APipe → ℕ} {p : Parsed} {inp : LineInput}
    {suf : Suffix} (h : Pending L 0 U ρ p.vars) (hok : suf.Ok) (hfits : suf.Fits)
    (hflags : p.vars.numPipeOutFlag = false ∧ p.vars.writeFileFlag = false)
    (hnum : p.vars.pipeOutNum = 1) (hbuf : p.vars.redirectionFileName = inp.junk) :
    ∃ U' ρ' q, applySuffix inp.opens p suf = some q ∧ q.process = p.process ∧
      (∀ x ∈ U, ρ' x = ρ x) ∧
      (∀ x, x ∈ U' ↔ x ∈ U ∨ ∃ n, suf.count = some n ∧ x = .num (L + n)) ∧
      Pending L 0 U' ρ' q.vars ∧ Output L U' ρ' inp q.vars suf ∧ q.vars.fdIn = p.vars.fdIn ∧
      q.vars.numPipeInFlag = p.vars.numPipeInFlag := by
  obtain ⟨U', ρ', q, happ, hproc, hagree, hmem, hcount, haim, hfd, hin, -⟩ :=
    applySuffix_aimed (Pending.iff_counting.mp h) hok hfits hflags hnum hbuf
  exact ⟨U', ρ', q, happ, hproc, hagree, hmem, Pending.iff_counting.mpr hcount, output_iff.mpr haim,
    hfd, hin⟩

theorem tokens_ne_nil {l : Pipeline} (h : l.Ok External) : l.tokens ≠ [] := by
  obtain ⟨c, cs, hc⟩ := List.exists_cons_of_ne_nil h.cmds_ne
  have hne : c ≠ [] := (h.cmds_ok c (by simp [hc])).1.1
  cases cs <;> simp [Pipeline.tokens, hc, joinCmds, hne]

/-- One line: its commands are wired as the schedule says, and the next prompt is reached. -/
theorem line_wired {pre : List Pipeline} {U : Set APipe} {ρ : APipe → ℕ} {s : Shell}
    {inp : LineInput} {l : Pipeline} (h : Prompt pre.length U ρ s)
    (hU : ∀ T, .num T ∈ U ↔ Targets pre T) (hr : Reads inp l) (hfits : l.suffix.Fits) :
    ∃ U₁ U' ρ' s' sp w, s.line inp = .ok (s', sp, w) ∧ (∀ p ∈ U, ρ' p = ρ p) ∧ U ⊆ U' ∧
      Prompt (pre.length + 1) U' ρ' s' ∧ (∀ T, .num T ∈ U' ↔ Targets (pre ++ [l]) T) ∧
      Finished pre inp l 0 U₁ U' ρ' l.cmds s'.vars sp := by
  -- the countdown
  have htok : NetProg.tokens ' ' inp.line ≠ [] := by
    rw [hr.tokens_eq]
    exact tokens_ne_nil hr.ok
  have hstart : s.startLine inp =
      ({ s.vars with pipeOutNum := 1, fdIn := 0, redirectionFileName := inp.junk } : Vars).countdown
      := by
    simp [startLine, htok]
  have hp : Pending pre.length 1 U ρ
      { s.vars with pipeOutNum := 1, fdIn := 0, redirectionFileName := inp.junk } :=
    ⟨h.pending.own, h.pending.named, h.pending.entry, h.pending.cover, h.pending.noName⟩
  have hpend := hp.countdown
  have hflag := hp.countdown_flag h.flags.1
  rw [← hstart] at hpend hflag
  -- the suffix
  obtain ⟨U₁, ρ₁, q, happ, hproc, hagree₁, hmem₁, hpend₁, hout₁, hfd₁, hin₁⟩ :=
    @applySuffix_output _ U ρ ⟨s.startLine inp, [] ++ l.cmds, false⟩ inp l.suffix hpend
      hr.ok.suffix_ok hfits (by rw [hstart]; exact h.flags.2) (by rw [hstart]; rfl)
      (by rw [hstart]; rfl)
  have hparse : s.parse inp = .ok q := by
    rw [parse, hr.tokens_eq, combine_tokens (fun _ hc => hc.1) inp.opens hr.ok, happ]
  have hnumL : .num (pre.length + 1) ∈ U₁ ↔ .num (pre.length + 1) ∈ U := by
    rw [hmem₁]
    constructor
    · rintro (hm | ⟨n, hn, heq⟩)
      · exact hm
      · have := hr.ok.suffix_ok.one_le hn
        simp only [APipe.num.injEq] at heq
        omega
    · exact Or.inl
  have hturn : Turn (pre.length + 1) 0 U₁ ρ₁ q.vars := by
    refine ⟨hpend₁, fun _ => ⟨?_, ?_⟩, fun c' hc' => absurd hc' (by omega), ?_⟩
    · rw [hfd₁, hstart]
      rfl
    · rw [hin₁, hnumL]
      exact hflag
    · intro L c hm
      rcases (hmem₁ _).mp hm with hm | ⟨n, -, heq⟩
      · have := h.normal L c hm
        omega
      · simp at heq
  -- the process loop
  obtain ⟨U', ρ', e, sp, hexec, hagree, hsp, henv, hfin⟩ :=
    execAll_wired hr.redir l.cmds 0 U₁ ρ₁ ⟨q.vars, s.environ, [], []⟩ hr.ok.cmds_ne (by simp)
      hr.ok.cmds_ok hturn hout₁ (hnumL.trans (hU _))
  have hline : s.line inp = .ok (⟨e.vars, e.environ⟩, sp, q.lineEndWithPipe) := by
    have hq : q.process = l.cmds := by simpa using hproc
    have hsp' : e.spawned = sp := by simpa using hsp
    simp only [line, hparse, hq, hexec, hsp']
  have hsub : U ⊆ U' := fun x hx => hfin.sub ((hmem₁ x).mpr (Or.inl hx))
  refine ⟨U₁, U', ρ', _, sp, _, hline, ?_, hsub, ⟨hfin.pending, hfin.flags, hfin.normal⟩, ?_, hfin⟩
  · intro p hp
    rw [hagree p ((hmem₁ p).mpr (Or.inl hp)), hagree₁ p hp]
  · intro T
    have hiff : .num T ∈ U' ↔ .num T ∈ U₁ := ⟨hfin.num T, fun hm => hfin.sub hm⟩
    rw [hiff, hmem₁, hU, targets_concat]
    simp [eq_comm]

/-! ### Whole sessions -/

/-- A line that is wired under one naming is wired under every naming that agrees with it. -/
theorem Finished.lineWired {pre : List Pipeline} {inp : LineInput} {l : Pipeline}
    {U U' : Set APipe} {ρ ρ' : APipe → ℕ} {v : Vars} {sp : List Spawn}
    (h : Finished pre inp l 0 U U' ρ l.cmds v sp) (hagree : ∀ p ∈ U', ρ' p = ρ p) :
    LineWired ρ' pre inp l sp where
  argv := h.argv
  stdin := by
    intro c s hs
    obtain ⟨hin, h0, -, -⟩ := h.wired c s hs
    rw [Nat.zero_add] at hin h0
    rw [AEnd.desc_agree hagree hin]
    exact h0
  stdout := by
    intro c s hs
    obtain ⟨-, -, hin, h1⟩ := h.wired c s hs
    rw [Nat.zero_add] at hin h1
    rw [AEnd.desc_agree hagree hin]
    exact h1

/-- The children of the lines after `pre` are wired as the schedule says. -/
inductive RunWired (ρ : APipe → ℕ) :
    List Pipeline → List LineInput → List Pipeline → List (List Spawn) → Prop
  | nil (pre) : RunWired ρ pre [] [] []
  | cons {pre inp ins l ls sp sps} (line : LineWired ρ pre inp l sp)
      (rest : RunWired ρ (pre ++ [l]) ins ls sps) :
      RunWired ρ pre (inp :: ins) (l :: ls) (sp :: sps)

theorem run_wired : ∀ {ins : List LineInput} {ls pre : List Pipeline} {U : Set APipe}
    {ρ : APipe → ℕ} {s : Shell}, List.Forall₂ Reads ins ls → (∀ l ∈ ls, l.suffix.Fits) →
    Prompt pre.length U ρ s → (∀ T, .num T ∈ U ↔ Targets pre T) → Pipes pre ⊆ U →
    ∃ s' sps ρ' U', s.run ins = .ok (s', sps) ∧ (∀ p ∈ U, ρ' p = ρ p) ∧
      Named U' ρ' s'.vars.kernel.pipes ∧ Pipes (pre ++ ls) ⊆ U' ∧ RunWired ρ' pre ins ls sps := by
  intro ins
  induction ins with
  | nil =>
    intro ls pre U ρ s hr _ hprompt _ hsub
    cases hr
    exact ⟨s, [], ρ, U, rfl, fun _ _ => rfl, hprompt.pending.named, by simpa using hsub,
      RunWired.nil pre⟩
  | cons inp ins ih =>
    intro ls pre U ρ s hr hfits hprompt hU hsub
    obtain ⟨l, ls, hl, hls, rfl⟩ : ∃ l ls', Reads inp l ∧ List.Forall₂ Reads ins ls' ∧
        ls = l :: ls' := by
      cases hr with
      | cons hl hls => exact ⟨_, _, hl, hls, rfl⟩
    obtain ⟨U₁, U₂, ρ₂, s₂, sp, w, hline, hagree, hsub₂, hprompt₂, hU₂, hfin⟩ :=
      line_wired hprompt hU hl (hfits l (by simp))
    have hlen : (pre ++ [l]).length = pre.length + 1 := by simp
    rw [← hlen] at hprompt₂
    have hpipes : Pipes (pre ++ [l]) ⊆ U₂ := by
      intro p hp
      rcases mem_pipes_concat.mp hp with hp | ⟨n, -, rfl⟩ | ⟨c, hc, rfl⟩
      · exact hsub₂ (hsub hp)
      · exact (hU₂ _).mpr hp
      · exact hfin.made c (Nat.zero_le _) hc
    obtain ⟨s', sps, ρ', U', hrun, hagree', hnamed, hpipes', hwired⟩ :=
      ih hls (fun x hx => hfits x (List.mem_cons_of_mem _ hx)) hprompt₂ hU₂ hpipes
    refine ⟨s', sp :: sps, ρ', U', ?_, ?_, hnamed, by simpa using hpipes',
      RunWired.cons (hfin.lineWired hagree') hwired⟩
    · simp only [run, hline, hrun]
    · intro p hp
      rw [hagree' p (hsub₂ hp), hagree p hp]

theorem prompt_init (environ : Environ) (ρ : APipe → ℕ) : Prompt 0 ∅ ρ (Shell.init environ) where
  pending := by
    refine ⟨?_, Named.empty _ _, by simp [Shell.init], by simp, rfl, rfl⟩
    intro i hi
    interval_cases i <;> rfl
  flags := ⟨rfl, rfl, rfl⟩
  normal := by simp

/-- No line of a session over well-formed lines goes wrong, and its pipes can be named so that the
    input and output of every command are those of the absolute schedule: line `L` reads the pipe of
    line `L` when an earlier line targets it, inner commands are joined by normal pipes, and all lines
    with the same target write the one pipe of that target. Whether the `wait` loop behind a line ends
    is another matter. -/
theorem number_pipes_follow_schedule (environ : Environ) (ins : List LineInput)
    (ls : List Pipeline) (hr : List.Forall₂ Reads ins ls)
    (hfits : ∀ l ∈ ls, l.suffix.Fits ∧ ∀ name, l.suffix = .file name → name.length < 100) :
    ∃ s sps ρ, (Shell.init environ).run ins = .ok (s, sps) ∧ Set.InjOn ρ (Pipes ls) ∧
      RunWired ρ [] ins ls sps := by
  have hU : ∀ T, .num T ∈ (∅ : Set APipe) ↔ Targets [] T := by
    intro T
    simp [targets_nil]
  have hsub : Pipes [] ⊆ (∅ : Set APipe) := by
    rintro (T | ⟨L, c⟩) hp
    · exact absurd hp (targets_nil T)
    · obtain ⟨j, l, hj, -⟩ := hp
      simp at hj
  have hprompt : Prompt ([] : List Pipeline).length ∅ (fun _ => 0) (Shell.init environ) :=
    prompt_init environ _
  obtain ⟨s, sps, ρ, U', hrun, -, hnamed, hpipes, hwired⟩ := run_wired hr (fun l hl => (hfits l hl).1) hprompt hU hsub
  exact ⟨s, sps, ρ, hrun, hnamed.inj.mono hpipes, hwired⟩

theorem zeroed_length : (List.replicate 100 '\x00').length = 100 := List.length_replicate

/-- The input line with these characters, with a zeroed buffer and files that can be opened. -/
def plainInput (line : List Char) : LineInput :=
  ⟨line, List.replicate 100 '\x00', zeroed_length, ⟨true, true, none⟩⟩

/-- `ls |1`, then `cat`. -/
theorem number_pipes_follow_schedule_ls_cat :
    ∃ s sps ρ, (Shell.init (fun _ => none)).run
        [plainInput ['l', 's', ' ', '|', '1'], plainInput ['c', 'a', 't']] = .ok (s, sps) ∧
      Set.InjOn ρ (Pipes [⟨[[['l', 's']]], .pipe ['1']⟩, ⟨[[['c', 'a', 't']]], .none⟩]) ∧
      RunWired ρ [] [plainInput ['l', 's', ' ', '|', '1'], plainInput ['c', 'a', 't']]
        [⟨[[['l', 's']]], .pipe ['1']⟩, ⟨[[['c', 'a', 't']]], .none⟩] sps :=
  number_pipes_follow_schedule _ _ _
    (.cons ⟨by decide, by decide, by decide, rfl, rfl⟩
      (.cons ⟨by decide, by decide, by decide, rfl, rfl⟩ .nil))
    (List.forall_mem_cons.mpr ⟨⟨by decide, nofun⟩, List.forall_mem_singleton.mpr ⟨by decide, nofun⟩⟩)

/-- `ls |4294967297`: the count is read modulo 2^32, and the pipe goes to the next line. -/
def bigCount : List LineInput × List Pipeline :=
  ([plainInput ['l', 's', ' ', '|', '4', '2', '9', '4', '9', '6', '7', '2', '9', '7'],
    plainInput ['c', 'a', 't']],
   [⟨[[['l', 's']]], .pipe ['4', '2', '9', '4', '9', '6', '7', '2', '9', '7']⟩,
    ⟨[[['c', 'a', 't']]], .none⟩])

/-- `ls > aa...a` with a name of 101 characters, which overruns `redirection_file_name`. -/
def longName : List LineInput × List Pipeline :=
  ([plainInput (['l', 's', ' ', '>', ' '] ++ List.replicate 101 'a')],
   [⟨[[['l', 's']]], .file (List.replicate 101 'a')⟩])

theorem bigCount_stdin : (((Shell.init (fun _ => none)).run bigCount.1).toOption.bind fun r =>
    (r.2.getD 1 []).head?.map fun s => s.fds.get 0) = some (some (.pipeR 0)) := by
  decide

/-- Without the bounds the schedule is not kept: a count of `2^32 + 1` makes the next line read the
    pipe, and a file name of 101 characters does not get to the next prompt. -/
theorem number_pipes_unbounded :
    (List.Forall₂ Reads bigCount.1 bigCount.2 ∧ ∀ s sps ρ,
      (Shell.init (fun _ => none)).run bigCount.1 = .ok (s, sps) →
        ¬ RunWired ρ [] bigCount.1 bigCount.2 sps) ∧
    (List.Forall₂ Reads longName.1 longName.2 ∧ ∀ s sps,
      (Shell.init (fun _ => none)).run longName.1 ≠ .ok (s, sps)) := by
  refine ⟨⟨?_, ?_⟩, ?_, ?_⟩
  · exact .cons ⟨by decide, by decide, by decide, rfl, rfl⟩
      (.cons ⟨by decide, by decide, by decide, rfl, rfl⟩ .nil)
  · intro s sps ρ hrun hwired
    have hstdin := bigCount_stdin
    rw [hrun] at hstdin
    cases hwired with
    | cons _ hrest =>
      cases hrest with
      | @cons _ inp _ l _ sp _ hline _ =>
        simp only [Except.toOption, Option.bind_some, List.getD_cons_succ, List.getD_cons_zero,
          Option.map_eq_some_iff] at hstdin
        obtain ⟨c, hc, hget⟩ := hstdin
        have h0 := hline.stdin 0 c (by rw [← hc, List.head?_eq_getElem?])
        have hnot : ¬ Targets [⟨[[['l', 's']]], .pipe ['4', '2', '9', '4', '9', '6', '7', '2', '9',
            '7']⟩] 2 := by
          rintro ⟨j, l, n, hj, hn, hL⟩
          cases j with
          | zero =>
            simp only [List.getElem?_cons_zero, Option.some.injEq] at hj
            subst hj
            have : n = 4294967297 := by
              simpa [Suffix.count, digitsVal] using hn.symm
            omega
          | succ j => simp at hj
        simp [stdinEnd, hnot, AEnd.desc, hget] at h0
  · exact .cons ⟨by decide, by decide +kernel, by decide +kernel, rfl, rfl⟩ .nil
  · have : ((Shell.init (fun _ => none)).run longName.1).toOption.isNone = true := by decide +kernel
    intro s sps hrun
    rw [hrun] at this
    simp [Except.toOption] at this

end NetProg.Shell
