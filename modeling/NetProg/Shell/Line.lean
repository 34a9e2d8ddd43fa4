import NetProg.Shell.Countdown

/-! One line of a shell, wherever it runs: its commands get the ends the absolute schedule says.

    Command after command is forked with the next normal pipe as its output, the last one with what the
    suffix asks for. Both shells go through `line_done`: the one that is alone in its process, and the
    one the server calls for each of its users in turn. -/

namespace NetProg.Shell

/-- Whether a suffix sends the standard error along. -/
def Suffix.isShock : Suffix → Bool
  | .shock _ => true
  | _ => false

/-- Whether a suffix sends the standard output to a file. -/
def Suffix.isFile : Suffix → Bool
  | .file _ => true
  | _ => false

/-- Where the standard error of command `c` of line `L` goes. -/
def stderrEnd (L : ℕ) (l : Pipeline) (c : ℕ) : AEnd :=
  if c + 1 < l.cmds.length then .own 2
  else match l.suffix with
    | .shock ds => .writeEnd (.num (L + digitsVal 0 ds))
    | _ => .own 2

/-! ### The commands of one line -/

/-- The variables just before command `c` of line `L` is forked: what its input will be. -/
structure Turning {α : Type*} (S : Setting α) (L c : ℕ) (U : Set α) (ρ : α → ℕ) (v : Vars) : Prop where
  counting : Counting S L (min c 1) U ρ v
  first : c = 0 → v.fdIn = 0 ∧ (v.numPipeInFlag = true ↔ S.name (.num L) ∈ U)
  later : ∀ c', c = c' + 1 → v.numPipeInFlag = false ∧ S.name (.normal L c') ∈ U ∧
    v.kernel.get v.fdIn = some (.pipeR (ρ (S.name (.normal L c'))))
  free : ∀ L' c', S.name (.normal L' c') ∈ U → L' < L ∨ L' = L ∧ c' < c

/-- The flags a suffix has set, and where `pipe_out_num` points. -/
def Aimed {α : Type*} (S : Setting α) (L : ℕ) (U : Set α) (ρ : α → ℕ) (inp : LineInput) (v : Vars) :
    Suffix → Prop
  | .none => v.writeFileFlag = false ∧ v.numPipeOutFlag = false ∧ v.pipeOutNum = 1
  | .pipe ds => v.writeFileFlag = false ∧ v.numPipeOutFlag = true ∧ 1 ≤ digitsVal 0 ds ∧
      S.name (.num (L + digitsVal 0 ds)) ∈ U ∧
      v.kernel.get v.pipeOutNum = some (.pipeW (ρ (S.name (.num (L + digitsVal 0 ds)))))
  | .shock ds => v.writeFileFlag = false ∧ v.shockPipeOutFlag = true ∧ 1 ≤ digitsVal 0 ds ∧
      S.name (.num (L + digitsVal 0 ds)) ∈ U ∧
      v.kernel.get v.pipeOutNum = some (.pipeW (ρ (S.name (.num (L + digitsVal 0 ds)))))
  | .file name => v.writeFileFlag = true ∧ v.numPipeOutFlag = false ∧
      v.redirectionFileName = name ++ inp.junk.drop name.length

namespace Turning
variable {α : Type*} {S : Setting α} {L c : ℕ} {U : Set α} {ρ : α → ℕ} {v : Vars}

theorem flag_of_mem (h : Turning S L c U ρ v) (hmem : S.name (.num L) ∈ U) (hlow : min c 1 = 0) :
    v.numPipeInFlag = true := by
  have hc : c = 0 := by omega
  exact ((h.first hc).2).mpr hmem

theorem fdInFree (h : Turning S L c U ρ v) {pc : ℕ} {last : Bool}
    (hpc : c = 0 → last = true → pc = 1) : Counting.FdInFree S U ρ v pc last := by
  cases last with
  | false => exact Or.inr (Or.inl (by simp [Vars.special]))
  | true =>
    cases c with
    | zero => exact Or.inl (hpc rfl rfl)
    | succ c =>
      obtain ⟨-, hmem, hget⟩ := h.later c rfl
      exact Or.inr (Or.inr ⟨L, c, hmem, hget⟩)

/-- A standard descriptor is not given up before a fork. -/
theorem std_kept (h : Turning S L c U ρ v) {i : ℕ} (hi : i < 3) (pc : ℕ) (last : Bool) :
    (v.forkKernel pc last).get i = some (S.std i) := by
  have hget := h.counting.own i hi
  rw [Vars.get_forkKernel (by simp [hget]), hget]
  rw [h.counting.beforeCloses_eq]
  intro hmem
  have := (h.counting.deadOut_desc hmem).2
  rw [hget, Option.some.injEq] at this
  exact (S.std_ne i _).2 this

/-- The write end of the pipe of a later line is not given up before a fork. -/
theorem write_kept (h : Turning S L c U ρ v) {n x : ℕ} (hn : 1 ≤ n)
    (hmem : S.name (.num (L + n)) ∈ U)
    (hget : v.kernel.get x = some (.pipeW (ρ (S.name (.num (L + n)))))) (pc : ℕ) (last : Bool) :
    (v.forkKernel pc last).get x = some (.pipeW (ρ (S.name (.num (L + n))))) := by
  rw [Vars.get_forkKernel (by simp [hget]), hget]
  rw [h.counting.beforeCloses_eq]
  intro hx
  obtain ⟨hL, hd⟩ := h.counting.deadOut_desc hx
  rw [hget, Option.some.injEq, Desc.pipeW.injEq] at hd
  have := S.name_inj (h.counting.named.inj hmem hL hd)
  simp only [APipe.num.injEq] at this
  omega

/-- The end of a pipe is not a standard descriptor. -/
theorem write_ne {i n x : ℕ} (h : Turning S L c U ρ v) (hi : i < 3)
    (hget : v.kernel.get x = some (.pipeW n)) : x ≠ i := by
  rintro rfl
  rw [h.counting.own x hi, Option.some.injEq] at hget
  exact (S.std_ne x _).2 hget

/-- The input of command `c` is the one of the schedule. -/
theorem stdin (h : Turning S L c U ρ v) {pre : List Pipeline} (hL : pre.length + 1 = L)
    (hpre : S.name (.num L) ∈ U ↔ Targets pre L) (opens : Opens) {pc : ℕ} (last : Bool)
    (hpc : pc = 1 → c = 0) :
    S.In U (stdinEnd pre c) ∧
      (v.forkProcess opens pc last).2.get 0 = some (S.desc ρ (stdinEnd pre c)) := by
  subst hL
  have h0 := h.counting.own 0 (by decide)
  -- the source is open and is not one of the write ends given up before the fork
  have main : ∀ fd d, v.stdinFd = some fd → v.kernel.get fd = some d → (∀ id, d ≠ .pipeW id) →
      (v.forkProcess opens pc last).2.get 0 = some d := by
    intro fd d hs hd hw
    refine Vars.forkProcess_stdin hs ?_ (by simp [h0]) ?_
    · rw [Vars.get_forkKernel (by simp [hd]), hd]
      rw [h.counting.beforeCloses_eq]
      intro hmem
      obtain ⟨-, hget⟩ := h.counting.deadOut_desc hmem
      rw [hd, Option.some.injEq] at hget
      exact hw _ hget
    · rintro (hpc1 | hn)
      · exact (h.first (hpc hpc1)).1
      · exact absurd h.counting.noName.1 hn
  cases c with
  | zero =>
    obtain ⟨hfd, hflag⟩ := h.first rfl
    by_cases hT : Targets pre (pre.length + 1)
    · have hmem := hpre.mpr hT
      have hfl := hflag.mpr hmem
      obtain ⟨e, he, hrest⟩ := h.counting.cover 0 (by simp) hmem
      have hdead0 : PipeDead e = true := by simp [PipeDead, hrest]
      obtain ⟨e', hfind⟩ := Option.isSome_iff_exists.mp
        (List.find?_isSome.mpr ⟨e, he, hdead0⟩)
      have he' := List.mem_of_find?_eq_some hfind
      have hdead : e'.restLine = 0 := by simpa [PipeDead] using List.find?_some hfind
      obtain ⟨m, hm, -, -, hget, -⟩ := h.counting.entry e' he'
      have hm0 : m = 0 := by omega
      subst hm0
      simp only [stdinEnd, hT, if_true]
      exact ⟨hmem, main _ _ (by simp [Vars.stdinFd, hfl, hfind]) hget (by simp [Setting.desc])⟩
    · have hfl : v.numPipeInFlag = false := by
        cases hf : v.numPipeInFlag with
        | true => exact absurd (hpre.mp (hflag.mp hf)) hT
        | false => rfl
      simp only [stdinEnd, hT, if_false]
      refine ⟨trivial, main 0 _ ?_ h0 fun id => (S.std_ne 0 id).2⟩
      simp [Vars.stdinFd, hfl, h.counting.noName.1, hfd]
  | succ c =>
    obtain ⟨hfl, hmem, hget⟩ := h.later c rfl
    exact ⟨hmem, main _ _ (by simp [Vars.stdinFd, hfl, h.counting.noName.1]) hget
      (by simp [Setting.desc, stdinEnd])⟩

/-- The output of a command that is not the last is a new normal pipe, which the next one reads. -/
theorem next [DecidableEq α] (h : Turning S L c U ρ v) (opens : Opens) {pc : ℕ} (hpc : pc ≠ 1)
    {inp : LineInput} {suf : Suffix} (hout : Aimed S L U ρ inp v suf) :
    ∃ ρ', (∀ p ∈ U, ρ' p = ρ p) ∧
      Turning S L (c + 1) (insert (S.name (.normal L c)) U) ρ' (v.forkProcess opens pc false).1 ∧
      Aimed S L (insert (S.name (.normal L c)) U) ρ' inp (v.forkProcess opens pc false).1 suf ∧
      (v.forkProcess opens pc false).2.get 1 = some (.pipeW (ρ' (S.name (.normal L c)))) := by
  have hnot : S.name (.normal L c) ∉ U := by
    intro hmem
    have := h.free L c hmem
    omega
  have hagree := Named.update_agree (ρ := ρ) hnot v.kernel.pipes
  have hself : Function.update ρ (S.name (.normal L c)) v.kernel.pipes (S.name (.normal L c)) =
      v.kernel.pipes := by
    simp
  have hsp : v.special false = false := by simp [Vars.special]
  have hfree : Counting.FdInFree S U ρ v pc false := Or.inr (Or.inl hsp)
  have hcount := h.counting.fork opens (by omega) (fun hm hl => h.flag_of_mem hm hl) hfree
  obtain ⟨hk, -, hflag, -, hfd, hshock, hnum, hwf, hof, hbuf, -⟩ :=
    Vars.forkProcess_fst v opens pc false
  have hmake : v.makesPipe pc false = true := by simp [Vars.makesPipe, hsp, hpc]
  simp only [hmake, if_true] at hk hfd
  have h0 : v.kernel.get 0 ≠ none := by simp [h.counting.own 0 (by decide)]
  have h1 : v.kernel.get 1 ≠ none := by simp [h.counting.own 1 (by decide)]
  -- the descriptors closed before a fork were open before the pipe was made
  have hbefore : ∀ x, v.kernel.get x = none → x ∉ v.beforeCloses := by
    intro x hx hmem
    rw [h.counting.beforeCloses_eq] at hmem
    simp [(h.counting.deadOut_desc hmem).2] at hx
  have hafter : ∀ x, v.kernel.get x = none → x ∉ v.afterCloses := by
    intro x hx hmem
    simp [(h.counting.deadIn_desc (h.counting.afterCloses_sub hmem)).2] at hx
  have hnumber : ∀ T, S.name (.num T) ∈ insert (S.name (.normal L c)) U → S.name (.num T) ∈ U := by
    rintro T (hT | hT)
    · exact absurd (S.name_inj hT) (by simp)
    · exact hT
  have hpipeR : (v.forkProcess opens pc false).1.kernel.get v.kernel.pipeFd0 =
      some (.pipeR v.kernel.pipes) := by
    have hne := v.kernel.pipeFd1_ne_pipeFd0
    rw [hk, Kernel.get_closeAll, if_neg]
    · simp [Kernel.get_pipe]
    · simp [hbefore _ v.kernel.get_pipeFd0, hafter _ v.kernel.get_pipeFd0, Vars.pipeCloses, hpc,
        hsp, hne.symm]
  refine ⟨_, hagree, ⟨?_, by simp, ?_, ?_⟩, ?_, ?_⟩
  · rw [show min (c + 1) 1 = 1 by omega]
    refine hcount.rename hagree (Set.subset_insert _ _) hnumber ?_
    rw [hk, Kernel.pipes_closeAll, Kernel.pipes_pipe]
    exact h.counting.named.insert hnot
  · intro c' hc'
    have hcc : c' = c := by omega
    subst hcc
    rw [hself, hfd]
    exact ⟨hflag, Or.inl rfl, hpipeR⟩
  · rintro L' c' (heq | hmem)
    · have := S.name_inj heq
      simp only [APipe.normal.injEq] at this
      omega
    · have := h.free L' c' hmem
      omega
  · -- the flags of the suffix wait for the last command
    have hkeep : ∀ n, 1 ≤ n → S.name (.num (L + n)) ∈ U →
        v.kernel.get v.pipeOutNum = some (.pipeW (ρ (S.name (.num (L + n))))) →
        (v.forkProcess opens pc false).1.kernel.get (v.forkProcess opens pc false).1.pipeOutNum =
          some (.pipeW (Function.update ρ (S.name (.normal L c)) v.kernel.pipes
            (S.name (.num (L + n))))) := by
      intro n hn hmem hget
      rw [hnum, hagree _ hmem]
      exact h.counting.get_fork opens hfree hget (Setting.spares_num hn hmem (Or.inr rfl))
    cases suf with
    | none =>
      obtain ⟨hw, ho, hp⟩ := hout
      exact ⟨by simp [hwf, hw], by simp [hof, ho], by rw [hnum, hp]⟩
    | pipe ds =>
      obtain ⟨hw, ho, hn, hmem, hget⟩ := hout
      exact ⟨by simp [hwf, hw], by simp [hof, ho], hn, Or.inr hmem, hkeep _ hn hmem hget⟩
    | shock ds =>
      obtain ⟨hw, ho, hn, hmem, hget⟩ := hout
      exact ⟨by simp [hwf, hw], by simp [hshock, ho], hn, Or.inr hmem, hkeep _ hn hmem hget⟩
    | file name =>
      obtain ⟨hw, ho, hb⟩ := hout
      exact ⟨by simp [hwf, hw], by simp [hof, ho], by rw [hbuf, hb]⟩
  · rw [hself]
    have hfd1 : v.stdoutFd pc false = v.kernel.pipeFd1 := by simp [Vars.stdoutFd, hsp, hpc]
    refine Vars.forkProcess_stdout (by simp) ?_ h0 h1 ?_
    · rw [hfd1, Vars.forkKernel, hmake, if_pos rfl, Kernel.get_closeAll,
        if_neg (hbefore _ v.kernel.get_pipeFd1)]
      simp [Kernel.get_pipe, v.kernel.pipeFd1_ne_pipeFd0]
    · rw [hfd1]
      exact (Kernel.ne_pipeFd1 h0).symm

/-- The output of the last command is the one its suffix asks for. -/
theorem stdout (h : Turning S L c U ρ v) (opens : Opens) (pc : ℕ) {inp : LineInput} {l : Pipeline}
    (hout : Aimed S L U ρ inp v l.suffix) (hredir : l.suffix.isFile = true → opens.redir = true)
    (hc : c + 1 = l.cmds.length) :
    S.In U (stdoutEnd L inp l c) ∧
      (v.forkProcess opens pc true).2.get 1 = some (S.desc ρ (stdoutEnd L inp l c)) := by
  have hlast : ¬ c + 1 < l.cmds.length := by omega
  have h0 : v.kernel.get 0 ≠ none := by simp [h.counting.own 0 (by decide)]
  have h1 : v.kernel.get 1 ≠ none := by simp [h.counting.own 1 (by decide)]
  have hnumber : ∀ n, 1 ≤ n → S.name (.num (L + n)) ∈ U → v.writeFileFlag = false →
      (v.shockPipeOutFlag || v.numPipeOutFlag) = true →
      v.kernel.get v.pipeOutNum = some (.pipeW (ρ (S.name (.num (L + n))))) →
      (v.forkProcess opens pc true).2.get 1 = some (.pipeW (ρ (S.name (.num (L + n))))) := by
    intro n hn hmem hw hflag hget
    have hsp : v.special true = true := by
      simp only [Vars.special, hw, Bool.false_or, hflag, Bool.true_or, Bool.and_self]
    have hfd : v.stdoutFd pc true = v.pipeOutNum := by
      simp only [Vars.stdoutFd, hsp, hflag, if_true]
    refine Vars.forkProcess_stdout (by simp [hw]) ?_ h0 h1 ?_
    · rw [hfd]
      exact h.write_kept hn hmem hget pc true
    · rw [hfd]
      exact h.write_ne (by decide) hget
  unfold stdoutEnd
  rw [if_neg hlast]
  cases hsuf : l.suffix with
  | none =>
    rw [hsuf] at hout
    obtain ⟨hw, ho, hp⟩ := hout
    have hfd : v.stdoutFd pc true = 1 := by
      cases hs : v.shockPipeOutFlag <;>
        simp [Vars.stdoutFd, Vars.special, hw, ho, hp, hs, h.counting.noName.2]
    refine ⟨trivial, Vars.forkProcess_stdout (by simp [hw]) ?_ h0 h1 (by rw [hfd]; decide)⟩
    rw [hfd]
    exact h.std_kept (by decide) pc true
  | pipe ds =>
    rw [hsuf] at hout
    obtain ⟨hw, ho, hn, hmem, hget⟩ := hout
    exact ⟨hmem, hnumber _ hn hmem hw (by simp [ho]) hget⟩
  | shock ds =>
    rw [hsuf] at hout
    obtain ⟨hw, ho, hn, hmem, hget⟩ := hout
    exact ⟨hmem, hnumber _ hn hmem hw (by simp [ho]) hget⟩
  | file name =>
    rw [hsuf] at hout
    obtain ⟨hw, -, hb⟩ := hout
    refine ⟨trivial, ?_⟩
    rw [Vars.forkProcess_file hw (hredir (by simp [hsuf, Suffix.isFile])) (by simp [h.std_kept (i := 0) (by decide) pc true]), hb]
    rfl

/-- The standard error of a command, where `shock_pipe_out_flag` is that of the line. -/
theorem stderr (h : Turning S L c U ρ v) (opens : Opens) (pc : ℕ) (last : Bool) {inp : LineInput}
    {l : Pipeline} (hout : Aimed S L U ρ inp v l.suffix)
    (hshock : v.shockPipeOutFlag = l.suffix.isShock) (hc : last = true ↔ ¬ c + 1 < l.cmds.length) :
    S.In U (stderrEnd L l c) ∧
      (v.forkProcess opens pc last).2.get 2 = some (S.desc ρ (stderrEnd L l c)) := by
  have h2 : v.kernel.get 2 ≠ none := by simp [h.counting.own 2 (by decide)]
  have hown : v.stderrFd last = 2 →
      (v.forkProcess opens pc last).2.get 2 = some (S.desc ρ (.own 2)) := by
    intro hfd
    refine Vars.forkProcess_stderr ?_ h2 (by rw [hfd]; decide)
    rw [hfd]
    exact h.std_kept (by decide) pc last
  unfold stderrEnd
  by_cases hlt : c + 1 < l.cmds.length
  · have hlast : last = false := by
      cases last with
      | false => rfl
      | true => exact absurd hlt (hc.mp rfl)
    rw [if_pos hlt]
    exact ⟨trivial, hown (by simp [Vars.stderrFd, hlast])⟩
  · obtain rfl := hc.mpr hlt
    rw [if_neg hlt]
    cases hsuf : l.suffix with
    | none =>
      rw [hsuf] at hshock
      exact ⟨trivial, hown (by simp [Vars.stderrFd, hshock, Suffix.isShock])⟩
    | pipe ds =>
      rw [hsuf] at hshock
      exact ⟨trivial, hown (by simp [Vars.stderrFd, hshock, Suffix.isShock])⟩
    | file name =>
      rw [hsuf] at hshock
      exact ⟨trivial, hown (by simp [Vars.stderrFd, hshock, Suffix.isShock])⟩
    | shock ds =>
      rw [hsuf] at hout
      obtain ⟨hw, ho, hn, hmem, hget⟩ := hout
      have hfd : v.stderrFd true = v.pipeOutNum := by simp [Vars.stderrFd, ho, hw]
      refine ⟨hmem, Vars.forkProcess_stderr ?_ h2 ?_⟩
      · rw [hfd]
        exact h.write_kept hn hmem hget pc true
      · rw [hfd]
        exact h.write_ne (by decide) hget

/-- After the last command the shell is ready for the next prompt. -/
theorem done (h : Turning S L c U ρ v) (opens : Opens) (pc : ℕ) {inp : LineInput} {suf : Suffix}
    (hout : Aimed S L U ρ inp v suf) (hpc : c = 0 → pc = 1) :
    Counting S L 1 U ρ (v.forkProcess opens pc true).1 ∧
      (v.forkProcess opens pc true).1.numPipeInFlag = false ∧
      (v.forkProcess opens pc true).1.numPipeOutFlag = false ∧
      (v.forkProcess opens pc true).1.writeFileFlag = false := by
  obtain ⟨-, -, hflag, -, -, -, -, hwf, hof, -⟩ := Vars.forkProcess_fst v opens pc true
  have hwof : (v.numPipeOutFlag && v.writeFileFlag) = false := by
    cases suf with
    | none => simp [hout.1]
    | pipe ds => simp [hout.1]
    | shock ds => simp [hout.1]
    | file name => simp [hout.2.1]
  refine ⟨h.counting.fork opens (by omega) (fun hm hl => h.flag_of_mem hm hl)
    (h.fdInFree (fun hc _ => hpc hc)), hflag, ?_, ?_⟩
  · rw [hof, ← hwof]
    simp
  · rw [hwf]
    simp

end Turning

/-! ### A whole line -/

/-- Fork the commands of some rows one after another: the variables at the end, and the children. -/
def forkRows (opens : Opens) (pc : ℕ) : List (List Token) → Vars → Vars × List Spawn
  | [], v => (v, [])
  | argv :: rest, v =>
    let f := v.forkProcess opens pc rest.isEmpty
    let r := forkRows opens pc rest f.1
    (r.1, ⟨argv, f.2⟩ :: r.2)

/-- The outcome of the process loop for the commands from number `c` on. -/
structure Finishing {α : Type*} (S : Setting α) (pre : List Pipeline) (inp : LineInput) (l : Pipeline)
    (c : ℕ) (U U' : Set α) (ρ' : α → ℕ) (v : Vars) (w : Vars) (sp : List Spawn) : Prop where
  counting : Counting S (pre.length + 1) 1 U' ρ' w
  flags : w.numPipeInFlag = false ∧ w.numPipeOutFlag = false ∧ w.writeFileFlag = false
  grows : ∀ q, q ∈ U' ↔ q ∈ U ∨
    ∃ c', c ≤ c' ∧ c' + 1 < l.cmds.length ∧ q = S.name (.normal (pre.length + 1) c')
  frame : ∀ x d, v.kernel.get x = some d → S.Spares (pre.length + 1) U ρ' d →
    w.kernel.get x = some d
  wired : ∀ i s, sp[i]? = some s →
    (S.In U' (stdinEnd pre (c + i)) ∧ s.fds.get 0 = some (S.desc ρ' (stdinEnd pre (c + i)))) ∧
    ((l.suffix.isFile = true → inp.opens.redir = true) → S.In U' (stdoutEnd (pre.length + 1) inp l (c + i)) ∧
      s.fds.get 1 = some (S.desc ρ' (stdoutEnd (pre.length + 1) inp l (c + i)))) ∧
    (v.shockPipeOutFlag = l.suffix.isShock → S.In U' (stderrEnd (pre.length + 1) l (c + i)) ∧
      s.fds.get 2 = some (S.desc ρ' (stderrEnd (pre.length + 1) l (c + i))))

theorem Finishing.sub {α : Type*} {S : Setting α} {pre : List Pipeline} {inp : LineInput}
    {l : Pipeline} {c : ℕ} {U U' : Set α} {ρ' : α → ℕ} {v w : Vars} {sp : List Spawn}
    (h : Finishing S pre inp l c U U' ρ' v w sp) : U ⊆ U' := fun q hq => (h.grows q).mpr (Or.inl hq)

theorem forkRows_argv (opens : Opens) (pc : ℕ) : ∀ (rows : List (List Token)) (v : Vars),
    (forkRows opens pc rows v).2.map (·.argv) = rows
  | [], _ => rfl
  | argv :: rest, v => by simp [forkRows, forkRows_argv opens pc rest]

theorem forkRows_wired {α : Type*} [DecidableEq α] {S : Setting α} {pre : List Pipeline}
    {inp : LineInput} {l : Pipeline} :
    ∀ (rest : List (List Token)) (c : ℕ) (U : Set α) (ρ : α → ℕ) (v : Vars),
      rest ≠ [] → c + rest.length = l.cmds.length → Turning S (pre.length + 1) c U ρ v →
      Aimed S (pre.length + 1) U ρ inp v l.suffix →
      (S.name (.num (pre.length + 1)) ∈ U ↔ Targets pre (pre.length + 1)) →
      ∃ U' ρ', (∀ p ∈ U, ρ' p = ρ p) ∧ Finishing S pre inp l c U U' ρ' v
        (forkRows inp.opens l.cmds.length rest v).1 (forkRows inp.opens l.cmds.length rest v).2
  | [], _, _, _, _, h, _, _, _, _ => absurd rfl h
  | [argv], c, U, ρ, v, _, hlen, ht, hout, hpre => by
    have hc : c + 1 = l.cmds.length := by simpa using hlen
    have hpc : l.cmds.length = 1 → c = 0 := by omega
    have hpc' : c = 0 → l.cmds.length = 1 := by omega
    have hin := ht.stdin rfl hpre inp.opens true hpc
    have hout1 := fun hredir => ht.stdout inp.opens l.cmds.length hout hredir hc
    obtain ⟨hcount, hflags⟩ := ht.done inp.opens l.cmds.length hout hpc'
    refine ⟨U, ρ, fun _ _ => rfl, hcount, hflags, ?_, ?_, ?_⟩
    · intro q
      refine ⟨Or.inl, ?_⟩
      rintro (hq | ⟨c', hcc, hlt, -⟩)
      · exact hq
      · omega
    · intro x d hx hd
      exact ht.counting.get_fork inp.opens (ht.fdInFree fun h _ => hpc' h) hx hd
    · intro i s hs
      cases i with
      | zero =>
        simp only [forkRows, List.isEmpty_nil, List.getElem?_cons_zero, Option.some.injEq] at hs
        subst hs
        exact ⟨hin, hout1, fun hshock => ht.stderr inp.opens _ true hout hshock (by simp; omega)⟩
      | succ i => simp [forkRows] at hs
  | argv :: argv' :: rest, c, U, ρ, v, _, hlen, ht, hout, hpre => by
    have hlen' : c + 1 + (argv' :: rest).length = l.cmds.length := by
      simp only [List.length_cons] at hlen ⊢
      omega
    have hc : c + 1 < l.cmds.length := by
      simp only [List.length_cons] at hlen'
      omega
    have hpc : l.cmds.length ≠ 1 := by omega
    have hin := ht.stdin rfl hpre inp.opens false (fun h => absurd h hpc)
    have herr := ht.stderr inp.opens l.cmds.length false hout
    obtain ⟨ρ₁, hagree₁, ht₁, hout₁, h1⟩ := ht.next inp.opens hpc hout
    obtain ⟨-, -, -, -, -, hsame, -⟩ := Vars.forkProcess_fst v inp.opens l.cmds.length false
    have hpre₁ : S.name (.num (pre.length + 1)) ∈ insert (S.name (.normal (pre.length + 1) c)) U ↔
        Targets pre (pre.length + 1) := by
      rw [← hpre, Set.mem_insert_iff, or_iff_right]
      exact fun heq => absurd (S.name_inj heq) (by simp)
    obtain ⟨U', ρ', hagree, hfin⟩ :=
      forkRows_wired (argv' :: rest) (c + 1) _ ρ₁ _ (by simp) hlen' ht₁ hout₁ hpre₁
    have hself : S.name (.normal (pre.length + 1) c) ∈ U' := hfin.sub (Set.mem_insert _ _)
    have hsub : U ⊆ U' := (Set.subset_insert _ _).trans hfin.sub
    have hagree' : ∀ p ∈ U, ρ' p = ρ p := fun p hp => by
      rw [hagree p (Set.mem_insert_of_mem _ hp), hagree₁ p hp]
    refine ⟨U', ρ', hagree', hfin.counting, hfin.flags, ?_, ?_, ?_⟩
    · intro q
      rw [hfin.grows, Set.mem_insert_iff]
      constructor
      · rintro ((rfl | hq) | ⟨c', hcc, hlt, rfl⟩)
        · exact Or.inr ⟨c, le_rfl, hc, rfl⟩
        · exact Or.inl hq
        · exact Or.inr ⟨c', by omega, hlt, rfl⟩
      · rintro (hq | ⟨c', hcc, hlt, rfl⟩)
        · exact Or.inl (Or.inr hq)
        · rcases Nat.eq_or_lt_of_le hcc with rfl | hgt
          · exact Or.inl (Or.inl rfl)
          · exact Or.inr ⟨c', hgt, hlt, rfl⟩
    · intro x d hx hd
      refine hfin.frame x d ?_ (hd.agree (Set.subset_insert _ _) fun _ _ => rfl)
      refine ht.counting.get_fork inp.opens (ht.fdInFree fun _ h => absurd h (by decide)) hx ?_
      exact hd.agree subset_rfl fun p hp => (hagree' p hp).symm
    · intro i s hs
      cases i with
      | zero =>
        simp only [forkRows, List.isEmpty_cons, List.getElem?_cons_zero, Option.some.injEq] at hs
        subst hs
        have hout' : stdoutEnd (pre.length + 1) inp l (c + 0) =
            .writeEnd (.normal (pre.length + 1) c) := by
          simp [stdoutEnd, hc]
        rw [hout', Nat.add_zero]
        refine ⟨⟨hin.1.mono hsub, ?_⟩, fun _ => ⟨hself, ?_⟩, fun hshock => ?_⟩
        · rw [Setting.desc_agree hagree' hin.1]
          exact hin.2
        · rw [Setting.desc, hagree _ (Set.mem_insert _ _)]
          exact h1
        · obtain ⟨hin2, h2⟩ := herr hshock (by simp [hc])
          rw [Setting.desc_agree hagree' hin2]
          exact ⟨hin2.mono hsub, h2⟩
      | succ i =>
        rw [forkRows, List.getElem?_cons_succ] at hs
        have := hfin.wired i s hs
        rw [show c + 1 + i = c + (i + 1) by omega, hsame] at this
        exact this

/-- The suffix sets up the output of the line, names the pipe it targets, and closes nothing. -/
theorem applySuffix_aimed {α : Type*} [DecidableEq α] {S : Setting α} {L : ℕ} {U : Set α} {ρ : α → ℕ}
    {p : Parsed} {inp : LineInput} {suf : Suffix} (h : Counting S L 0 U ρ p.vars) (hok : suf.Ok)
    (hfits : suf.Fits) (hflags : p.vars.numPipeOutFlag = false ∧ p.vars.writeFileFlag = false)
    (hnum : p.vars.pipeOutNum = 1) (hbuf : p.vars.redirectionFileName = inp.junk) :
    ∃ U' ρ' q, applySuffix inp.opens p suf = some q ∧ q.process = p.process ∧
      (∀ x ∈ U, ρ' x = ρ x) ∧
      (∀ x, x ∈ U' ↔ x ∈ U ∨ ∃ n, suf.count = some n ∧ x = S.name (.num (L + n))) ∧
      Counting S L 0 U' ρ' q.vars ∧ Aimed S L U' ρ' inp q.vars suf ∧ q.vars.fdIn = p.vars.fdIn ∧
      q.vars.numPipeInFlag = p.vars.numPipeInFlag ∧
      q.vars.shockPipeOutFlag = (p.vars.shockPipeOutFlag || suf.isShock) ∧
      ∀ x d, p.vars.kernel.get x = some d → q.vars.kernel.get x = some d := by
  have hfields : ∀ n, (p.vars.numberPipe n).writeFileFlag = p.vars.writeFileFlag ∧
      (p.vars.numberPipe n).fdIn = p.vars.fdIn ∧
      (p.vars.numberPipe n).numPipeInFlag = p.vars.numPipeInFlag ∧
      (p.vars.numberPipe n).shockPipeOutFlag = p.vars.shockPipeOutFlag := by
    intro n
    unfold Vars.numberPipe
    split <;> exact ⟨rfl, rfl, rfl, rfl⟩
  have hmem : ∀ n : ℕ, ∀ x, x ∈ insert (S.name (APipe.num (L + n))) U ↔
      x ∈ U ∨ ∃ m, some n = some m ∧ x = S.name (.num (L + m)) := by
    intro n x
    simp [or_comm]
  cases suf with
  | none =>
    exact ⟨U, ρ, p, rfl, rfl, fun _ _ => rfl, by simp [Suffix.count], h,
      ⟨hflags.2, hflags.1, hnum⟩, rfl, rfl, by simp [Suffix.isShock], fun _ _ hx => hx⟩
  | pipe ds =>
    obtain ⟨ρ', hagree, hcount, hget, hkept⟩ := h.numberPipe (digitsVal 0 ds)
    obtain ⟨hw, hfd, hin, hsh⟩ := hfields (digitsVal 0 ds)
    refine ⟨_, ρ', p.pipeOut false (atoi ds), rfl, rfl, hagree, hmem _, ?_, ?_, ?_, ?_, ?_, ?_⟩ <;>
      simp only [Parsed.pipeOut, atoi_numeral hok.1 hfits, Bool.false_eq_true, if_false]
    · exact hcount.congr rfl rfl (fun _ _ hx => hx) hcount.noName
    · exact ⟨hw.trans hflags.2, rfl, hok.2, Set.mem_insert _ _, hget⟩
    · exact hfd
    · exact hin
    · simp [hsh, Suffix.isShock]
    · exact hkept
  | shock ds =>
    obtain ⟨ρ', hagree, hcount, hget, hkept⟩ := h.numberPipe (digitsVal 0 ds)
    obtain ⟨hw, hfd, hin, hsh⟩ := hfields (digitsVal 0 ds)
    refine ⟨_, ρ', p.pipeOut true (atoi ds), rfl, rfl, hagree, hmem _, ?_, ?_, ?_, ?_, ?_, ?_⟩ <;>
      simp only [Parsed.pipeOut, atoi_numeral hok.1 hfits, if_true]
    · exact hcount.congr rfl rfl (fun _ _ hx => hx) hcount.noName
    · exact ⟨hw.trans hflags.2, rfl, hok.2, Set.mem_insert _ _, hget⟩
    · exact hfd
    · exact hin
    · simp [Suffix.isShock]
    · exact hkept
  | file name =>
    have hlen : name.length ≤ p.vars.redirectionFileName.length := by
      rw [hbuf, inp.junk_length]
      exact hfits
    obtain ⟨w, hw, hcount, hkept, hin, hof, hsh, hwf, hfd, hb⟩ := h.createFile inp.opens hlen
    exact ⟨U, ρ, { p with vars := w }, by simp [applySuffix, hw], rfl, fun _ _ => rfl,
      by simp [Suffix.count], hcount, ⟨hwf, hof.trans hflags.1, by rw [hb, hbuf]⟩, hfd, hin,
      by simp [hsh, Suffix.isShock], hkept⟩

/-- The variables of a shell at the top of a line. -/
structure Fresh (inp : LineInput) (v : Vars) : Prop where
  inFlag : v.numPipeInFlag = false
  outFlag : v.numPipeOutFlag = false
  fileFlag : v.writeFileFlag = false
  outNum : v.pipeOutNum = 1
  fdIn : v.fdIn = 0
  buffer : v.redirectionFileName = inp.junk

/-- What a line of the language leads to, after the lines `pre` of the same shell: its pipes get names,
    nothing that it spares is touched, and its children are wired as the schedule says. -/
structure LineDone {α : Type*} (S : Setting α) (pre : List Pipeline) (inp : LineInput) (l : Pipeline)
    (U U' : Set α) (ρ' : α → ℕ) (v w : Vars) (sp : List Spawn) : Prop where
  counting : Counting S (pre.length + 1) 1 U' ρ' w
  flags : w.numPipeInFlag = false ∧ w.numPipeOutFlag = false ∧ w.writeFileFlag = false
  grows : ∀ q, q ∈ U' ↔ q ∈ U ∨ (∃ n, l.suffix.count = some n ∧ q = S.name (.num (pre.length + 1 + n))) ∨
    ∃ c, c + 1 < l.cmds.length ∧ q = S.name (.normal (pre.length + 1) c)
  frame : ∀ x d, v.kernel.get x = some d → S.Spares (pre.length + 1) U ρ' d →
    w.kernel.get x = some d
  argv : sp.map (·.argv) = l.cmds
  wired : ∀ c s, sp[c]? = some s →
    (S.In U' (stdinEnd pre c) ∧ s.fds.get 0 = some (S.desc ρ' (stdinEnd pre c))) ∧
    ((l.suffix.isFile = true → inp.opens.redir = true) → S.In U' (stdoutEnd (pre.length + 1) inp l c) ∧
      s.fds.get 1 = some (S.desc ρ' (stdoutEnd (pre.length + 1) inp l c))) ∧
    (v.shockPipeOutFlag = false → S.In U' (stderrEnd (pre.length + 1) l c) ∧
      s.fds.get 2 = some (S.desc ρ' (stderrEnd (pre.length + 1) l c)))

/-- A line of the language before its first command: the suffix has acted. -/
theorem line_turning {α : Type*} [DecidableEq α] {S : Setting α} {pre : List Pipeline} {inp : LineInput}
    {l : Pipeline} {U : Set α} {ρ : α → ℕ} {v : Vars} (h : Counting S pre.length 1 U ρ v)
    (hfresh : Fresh inp v) (hok : l.suffix.Ok) (hfits : l.suffix.Fits)
    (hnormal : ∀ L c, S.name (.normal L c) ∈ U → L ≤ pre.length) :
    ∃ U₁ ρ₁ q, applySuffix inp.opens ⟨v.countdown, l.cmds, false⟩ l.suffix = some q ∧
      q.process = l.cmds ∧ (∀ x ∈ U, ρ₁ x = ρ x) ∧
      (∀ x, x ∈ U₁ ↔ x ∈ U ∨ ∃ n, l.suffix.count = some n ∧ x = S.name (.num (pre.length + 1 + n))) ∧
      Turning S (pre.length + 1) 0 U₁ ρ₁ q.vars ∧ Aimed S (pre.length + 1) U₁ ρ₁ inp q.vars l.suffix ∧
      (S.name (.num (pre.length + 1)) ∈ U₁ ↔ S.name (.num (pre.length + 1)) ∈ U) ∧
      q.vars.shockPipeOutFlag = (v.shockPipeOutFlag || l.suffix.isShock) ∧
      ∀ x d, v.kernel.get x = some d → q.vars.kernel.get x = some d := by
  have hflag := h.countdown_flag hfresh.inFlag
  obtain ⟨U₁, ρ₁, q, happ, hproc, hagree₁, hmem₁, hcount₁, hout₁, hfd₁, hin₁, hsh₁, hkept⟩ :=
    @applySuffix_aimed α _ S _ U ρ ⟨v.countdown, l.cmds, false⟩ inp l.suffix h.countdown hok hfits
      ⟨hfresh.outFlag, hfresh.fileFlag⟩ hfresh.outNum hfresh.buffer
  have hnumL : S.name (.num (pre.length + 1)) ∈ U₁ ↔ S.name (.num (pre.length + 1)) ∈ U := by
    rw [hmem₁]
    refine ⟨?_, Or.inl⟩
    rintro (hm | ⟨n, hn, heq⟩)
    · exact hm
    · have hn1 := hok.one_le hn
      have := S.name_inj heq
      simp only [APipe.num.injEq] at this
      omega
  have hturn : Turning S (pre.length + 1) 0 U₁ ρ₁ q.vars := by
    refine ⟨hcount₁, fun _ => ⟨hfd₁.trans hfresh.fdIn, ?_⟩, fun c' hc' => absurd hc' (by omega), ?_⟩
    · rw [hin₁, hnumL]
      exact hflag
    · intro L c hm
      rcases (hmem₁ _).mp hm with hm | ⟨n, -, heq⟩
      · have := hnormal L c hm
        omega
      · exact absurd (S.name_inj heq) (by simp)
  exact ⟨U₁, ρ₁, q, happ, hproc, hagree₁, hmem₁, hturn, hout₁, hnumL, hsh₁, hkept⟩

/-- A line of the language, from the countdown to the end of the process loop. -/
theorem line_done {α : Type*} [DecidableEq α] {S : Setting α} {pre : List Pipeline} {inp : LineInput}
    {l : Pipeline} {U : Set α} {ρ : α → ℕ} {v : Vars} (h : Counting S pre.length 1 U ρ v)
    (hfresh : Fresh inp v) (hcmds : l.cmds ≠ []) (hok : l.suffix.Ok) (hfits : l.suffix.Fits)
    (hpre : S.name (.num (pre.length + 1)) ∈ U ↔ Targets pre (pre.length + 1))
    (hnormal : ∀ L c, S.name (.normal L c) ∈ U → L ≤ pre.length) :
    ∃ U' ρ' q, applySuffix inp.opens ⟨v.countdown, l.cmds, false⟩ l.suffix = some q ∧
      q.process = l.cmds ∧ (q.vars.namePipeIn = none ∧ q.vars.namePipeOut = none) ∧
      (∀ p ∈ U, ρ' p = ρ p) ∧
      LineDone S pre inp l U U' ρ' v (forkRows inp.opens l.cmds.length l.cmds q.vars).1
        (forkRows inp.opens l.cmds.length l.cmds q.vars).2 := by
  obtain ⟨U₁, ρ₁, q, happ, hproc, hagree₁, hmem₁, hturn, hout₁, hnumL, hsh₁, hkept⟩ :=
    line_turning h hfresh hok hfits hnormal
  have hsub₁ : U ⊆ U₁ := fun x hx => (hmem₁ x).mpr (Or.inl hx)
  obtain ⟨U', ρ', hagree, hfin⟩ := forkRows_wired l.cmds 0 U₁ ρ₁ q.vars hcmds (by simp)
    hturn hout₁ (hnumL.trans hpre)
  have hagree' : ∀ p ∈ U, ρ' p = ρ p := fun p hp => by rw [hagree p (hsub₁ hp), hagree₁ p hp]
  refine ⟨U', ρ', q, happ, hproc, hturn.counting.noName, hagree', hfin.counting, hfin.flags, ?_, ?_, forkRows_argv .., ?_⟩
  · intro x
    rw [hfin.grows, hmem₁, or_assoc]
    simp
  · intro x d hx hd
    exact hfin.frame x d (hkept x d hx) (hd.agree hsub₁ fun _ _ => rfl)
  · intro c s hs
    obtain ⟨h0, h1, h2⟩ := hfin.wired c s hs
    rw [Nat.zero_add] at h0 h1 h2
    refine ⟨h0, h1, fun hshock => h2 ?_⟩
    rw [hsh₁, hshock, Bool.false_or]

end NetProg.Shell
