import NetProg.Shell.Removal

/-! Where the standard error of the commands of the project-1 shell goes.

    `shock_pipe_out_flag` is set by `!N` and cleared nowhere. From the first such line on, the last
    command of a line takes the branch for `!N` unless it writes a file, and its standard error goes
    wherever its standard output goes. -/

namespace NetProg.Shell

variable {α : Type*} {S : Setting α} {L c : ℕ} {U : Set α} {ρ : α → ℕ} {v : Vars}

/-- The flags of a suffix. -/
theorem Aimed.flags {inp : LineInput} {suf : Suffix} (h : Aimed S L U ρ inp v suf) :
    v.writeFileFlag = suf.isFile := by
  cases suf with
  | none => exact h.1
  | pipe ds => exact h.1
  | shock ds => exact h.1
  | file name => exact h.1

/-- With the flag, the standard error of the last command is a copy of its standard output. -/
theorem Turning.stderr_shock (h : Turning S L c U ρ v) (opens : Opens) (pc : ℕ) {inp : LineInput}
    {suf : Suffix} (hout : Aimed S L U ρ inp v suf) (hshock : v.shockPipeOutFlag = true)
    (hfile : suf.isFile = false) :
    (v.forkProcess opens pc true).2.get 2 = (v.forkProcess opens pc true).2.get 1 := by
  have hw : v.writeFileFlag = false := hout.flags.trans hfile
  have hfd : v.stdoutFd pc true = v.pipeOutNum := by
    simp [Vars.stdoutFd, Vars.special, hw, hshock]
  have hfd' : v.stderrFd true = v.pipeOutNum := by simp [Vars.stderrFd, hshock, hw]
  obtain ⟨d, hd, hne⟩ : ∃ d, (v.forkKernel pc true).get v.pipeOutNum = some d ∧ v.pipeOutNum ≠ 0 := by
    cases suf with
    | none =>
      obtain ⟨-, -, hnum⟩ := hout
      rw [hnum]
      exact ⟨_, h.std_kept (by decide) pc true, by decide⟩
    | pipe ds =>
      obtain ⟨-, -, hn, hmem, hget⟩ := hout
      exact ⟨_, h.write_kept hn hmem hget pc true, h.write_ne (by decide) hget⟩
    | shock ds =>
      obtain ⟨-, -, hn, hmem, hget⟩ := hout
      exact ⟨_, h.write_kept hn hmem hget pc true, h.write_ne (by decide) hget⟩
    | file name => cases hfile
  have h0 : v.kernel.get 0 ≠ none := by simp [h.counting.own 0 (by decide)]
  have h1 : v.kernel.get 1 ≠ none := by simp [h.counting.own 1 (by decide)]
  have h2 : v.kernel.get 2 ≠ none := by simp [h.counting.own 2 (by decide)]
  have herr : (v.forkProcess opens pc true).2.get 2 = some d :=
    Vars.forkProcess_stderr (hfd' ▸ hd) h2 (hfd' ▸ hne)
  have hstdout : (v.forkProcess opens pc true).2.get 1 = some d :=
    Vars.forkProcess_stdout (by simp [hw]) (hfd ▸ hd) h0 h1 (hfd ▸ hne)
  rw [herr, hstdout]

/-- Otherwise it is that of the shell. -/
theorem Turning.stderr_own (h : Turning S L c U ρ v) (opens : Opens) (pc : ℕ) {last : Bool}
    (hplain : (v.shockPipeOutFlag && !v.writeFileFlag && last) = false) :
    (v.forkProcess opens pc last).2.get 2 = some (S.std 2) := by
  have h2 : v.kernel.get 2 ≠ none := by simp [h.counting.own 2 (by decide)]
  have hfd : v.stderrFd last = 2 := by simp [Vars.stderrFd, hplain]
  refine Vars.forkProcess_stderr ?_ h2 (by rw [hfd]; decide)
  rw [hfd]
  exact h.std_kept (by decide) pc last

/-- The standard error of the children of a line, from command `c` on. -/
def ErrorsFrom (S : Setting α) (shock : Bool) (l : Pipeline) (c : ℕ) (sp : List Spawn) : Prop :=
  ∀ (i : ℕ) (s : Spawn), sp[i]? = some s →
    if c + i + 1 = l.cmds.length ∧ shock = true ∧ l.suffix.isFile = false then s.fds.get 2 = s.fds.get 1
    else s.fds.get 2 = some (S.std 2)

theorem forkRows_errors [DecidableEq α] {inp : LineInput} {l : Pipeline} :
    ∀ (rest : List (List Token)) (c : ℕ) (U : Set α) (ρ : α → ℕ) (v : Vars),
      c + rest.length = l.cmds.length → Turning S L c U ρ v → Aimed S L U ρ inp v l.suffix →
      ErrorsFrom S v.shockPipeOutFlag l c (forkRows inp.opens l.cmds.length rest v).2
  | [], _, _, _, _, _, _, _ => by
    intro i s hs
    simp [forkRows] at hs
  | argv :: rest, c, U, ρ, v, hlen, ht, hout => by
    intro i s hs
    have hlast : rest.isEmpty = true ↔ c + 1 = l.cmds.length := by
      rw [List.length_cons] at hlen
      rw [List.isEmpty_iff, ← List.length_eq_zero_iff]
      omega
    cases i with
    | zero =>
      obtain rfl : (⟨argv, (v.forkProcess inp.opens l.cmds.length rest.isEmpty).2⟩ : Spawn) = s := by
        simpa [forkRows] using hs
      split
      · rename_i h
        obtain ⟨hc, hshock, hfile⟩ := h
        rw [hlast.mpr hc]
        exact ht.stderr_shock inp.opens l.cmds.length hout hshock hfile
      · rename_i h
        refine ht.stderr_own inp.opens l.cmds.length ?_
        rw [hout.flags, Bool.eq_false_iff]
        intro hall
        simp only [Bool.and_eq_true, Bool.not_eq_eq_eq_not, Bool.not_true] at hall
        exact h ⟨hlast.mp hall.2, hall.1.1, hall.1.2⟩
    | succ i =>
      have hne : rest ≠ [] := by
        rintro rfl
        simp [forkRows] at hs
      have hempty : rest.isEmpty = false := by simpa using hne
      have hpc : l.cmds.length ≠ 1 := by
        have hpos := List.length_pos_iff.mpr hne
        rw [List.length_cons] at hlen
        omega
      obtain ⟨ρ₁, -, ht₁, hout₁, -⟩ := ht.next inp.opens hpc hout
      obtain ⟨-, -, -, -, -, hsame, -⟩ := Vars.forkProcess_fst v inp.opens l.cmds.length false
      have hrest := forkRows_errors rest (c + 1) _ ρ₁ _ (by rw [List.length_cons] at hlen; omega) ht₁ hout₁
      rw [hsame] at hrest
      rw [forkRows, hempty] at hs
      have hi := hrest i s (by simpa using hs)
      rwa [show c + 1 + i + 1 = c + (i + 1) + 1 by omega] at hi

theorem forkRows_shock (opens : Opens) (pc : ℕ) (rows : List (List Token)) (v : Vars) :
    (forkRows opens pc rows v).1.shockPipeOutFlag = v.shockPipeOutFlag := by
  induction rows generalizing v with
  | nil => rfl
  | cons argv rest ih =>
    rw [forkRows, ih]
    obtain ⟨-, -, -, -, -, hsame, -⟩ := Vars.forkProcess_fst v opens pc rest.isEmpty
    exact hsame

/-! ### One line -/

/-- An input line that reads as a pipeline of commands of any length that are not builtins. -/
structure ReadsForeign (inp : LineInput) (l : Pipeline) : Prop where
  tokens_eq : tokens ' ' inp.line = l.tokens
  ok : l.Ok Foreign

/-- The children of a line are its commands, and their standard input is that of the schedule. -/
structure LineReads (ρ : APipe → ℕ) (pre : List Pipeline) (l : Pipeline) (sp : List Spawn) : Prop where
  argv : sp.map (·.argv) = l.cmds
  stdin : ∀ c s, sp[c]? = some s → s.fds.get 0 = some ((stdinEnd pre c).desc ρ)

/-- The standard error of the children of line `L` is the write end its `!N` asks for, for the last
    command, and that of the shell otherwise. -/
def LineErrors (ρ : APipe → ℕ) (L : ℕ) (l : Pipeline) (sp : List Spawn) : Prop :=
  ∀ c s, sp[c]? = some s → s.fds.get 2 = some ((stderrEnd L l c).desc ρ)

/-- A line that does not show whether the flag was set before it. -/
def Suffix.Deaf (suf : Suffix) : Prop := suf.isShock = true ∨ suf.isFile = true

instance (suf : Suffix) : Decidable suf.Deaf := inferInstanceAs (Decidable (_ ∨ _))

/-- The errors of a line go where they should, unless the flag is a left-over and shows. -/
theorem lineErrors_iff {pre : List Pipeline} {inp : LineInput} {l : Pipeline} {U U' : Set APipe}
    {ρ ρ' : APipe → ℕ} {v w : Vars} {sp : List Spawn} (hcmds : l.cmds ≠ [])
    (hdone : LineDone .alone pre inp l U U' ρ v w sp) (hagree : ∀ p ∈ U', ρ' p = ρ p)
    (herr : ErrorsFrom .alone (v.shockPipeOutFlag || l.suffix.isShock) l 0 sp) :
    LineErrors ρ' (pre.length + 1) l sp ↔ (v.shockPipeOutFlag = true → l.suffix.Deaf) := by
  have hlen : sp.length = l.cmds.length := by rw [← hdone.argv, List.length_map]
  have hpos : 0 < l.cmds.length := List.length_pos_iff.mpr hcmds
  -- the standard output of the last command, where it is not a file
  have hstdout : ∀ c s, sp[c]? = some s → l.suffix.isFile = false →
      s.fds.get 1 = some ((stdoutEnd (pre.length + 1) inp l c).desc ρ') := by
    intro c s hs hfile
    obtain ⟨hin, h1⟩ := (hdone.wired c s hs).2.1 (by simp [hfile])
    rw [Setting.alone_desc] at h1
    rw [AEnd.desc_agree hagree ((AEnd.in_iff _).mp hin)]
    exact h1
  constructor
  · intro h hflag
    by_contra hdeaf
    simp only [Suffix.Deaf, not_or, Bool.not_eq_true] at hdeaf
    obtain ⟨hshock, hfile⟩ := hdeaf
    obtain ⟨s, hs⟩ : ∃ s, sp[l.cmds.length - 1]? = some s :=
      ⟨_, List.getElem?_eq_getElem (by omega)⟩
    have hcopy := herr _ s hs
    rw [if_pos ⟨by omega, by simp [hflag], hfile⟩, h _ s hs, hstdout _ s hs hfile] at hcopy
    have hlast : ¬ l.cmds.length - 1 + 1 < l.cmds.length := by omega
    unfold stdoutEnd stderrEnd at hcopy
    rw [if_neg hlast, if_neg hlast] at hcopy
    cases hsuf : l.suffix with
    | none => simp [hsuf, AEnd.desc] at hcopy
    | pipe ds => simp [hsuf, AEnd.desc] at hcopy
    | shock ds => simp [hsuf, Suffix.isShock] at hshock
    | file name => simp [hsuf, Suffix.isFile] at hfile
  · intro hdeaf c s hs
    have hc : c < l.cmds.length := hlen ▸ (List.getElem?_eq_some_iff.mp hs).1
    have hcase := herr c s hs
    rw [Nat.zero_add] at hcase
    split at hcase
    · rename_i hlast
      obtain ⟨hlast, hflag, hfile⟩ := hlast
      have hshock : l.suffix.isShock = true := by
        cases hsh : l.suffix.isShock with
        | true => rfl
        | false =>
          rw [hsh, Bool.or_false] at hflag
          rcases hdeaf hflag with hs' | hf
          · exact hsh.symm.trans hs'
          · exact absurd (hfile.symm.trans hf) (by decide)
      rw [hcase, hstdout c s hs hfile]
      unfold stdoutEnd stderrEnd
      rw [if_neg (by omega), if_neg (by omega)]
      cases hsuf : l.suffix with
      | shock ds => rfl
      | none | pipe ds | file name => simp [hsuf, Suffix.isShock] at hshock
    · rename_i hplain
      rw [hcase]
      unfold stderrEnd
      split
      · rfl
      · rename_i hlast
        cases hsuf : l.suffix with
        | shock ds => exact absurd ⟨by omega, by simp [hsuf, Suffix.isShock], by simp [hsuf, Suffix.isFile]⟩ hplain
        | none | pipe ds | file name => rfl

theorem mem_pipes_num {ls : List Pipeline} {T : ℕ} : .num T ∈ Pipes ls ↔ Targets ls T := Iff.rfl

/-- One line from its prompt to the next one: its input, its flag, and its errors. -/
theorem line_errors {pre : List Pipeline} {ρ : APipe → ℕ} {s : Shell} {inp : LineInput} {l : Pipeline}
    (h : Prompt pre.length (Pipes pre) ρ s) (hr : ReadsForeign inp l) (hfits : l.suffix.Fits) :
    ∃ ρ' s' sp w, s.line inp = .ok (s', sp, w) ∧ (∀ p ∈ Pipes pre, ρ' p = ρ p) ∧
      Prompt (pre.length + 1) (Pipes (pre ++ [l])) ρ' s' ∧
      s'.vars.shockPipeOutFlag = (s.vars.shockPipeOutFlag || l.suffix.isShock) ∧
      ∀ ρ'' : APipe → ℕ, (∀ p ∈ Pipes (pre ++ [l]), ρ'' p = ρ' p) → LineReads ρ'' pre l sp ∧
        (LineErrors ρ'' (pre.length + 1) l sp ↔ (s.vars.shockPipeOutFlag = true → l.suffix.Deaf)) := by
  have htok : NetProg.tokens ' ' inp.line ≠ [] := by
    obtain ⟨c, cs, hc⟩ := List.exists_cons_of_ne_nil hr.ok.cmds_ne
    have hcne : c ≠ [] := (hr.ok.cmds_ok c (by simp [hc])).1.1
    rw [hr.tokens_eq]
    cases cs <;> simp [Pipeline.tokens, hc, joinCmds, hcne]
  set v : Vars := { s.vars with pipeOutNum := 1, fdIn := 0, redirectionFileName := inp.junk } with hv
  have hstart : s.startLine inp = v.countdown := by simp [startLine, htok, hv]
  have hpending : Pending pre.length 1 (Pipes pre) ρ v :=
    ⟨h.pending.own, h.pending.named, h.pending.entry, h.pending.cover, h.pending.noName⟩
  have hcount := Pending.iff_counting.mp hpending
  have hfresh : Fresh inp v := ⟨h.flags.1, h.flags.2.1, h.flags.2.2, rfl, rfl, rfl⟩
  have hnormal : ∀ L c, Setting.alone.name (.normal L c) ∈ Pipes pre → L ≤ pre.length := h.normal
  -- the same variables twice: before the first command, and after the last
  obtain ⟨U₁, ρ₁, q, happ, -, -, -, hturn, hout, -, hshock, -⟩ :=
    line_turning hcount hfresh hr.ok.suffix_ok hfits hnormal
  obtain ⟨U', ρ', q', happ', hproc, -, hagree, hdone⟩ :=
    line_done hcount hfresh hr.ok.cmds_ne hr.ok.suffix_ok hfits mem_pipes_num hnormal
  obtain rfl : q = q' := Option.some.inj (happ.symm.trans happ')
  have herr := forkRows_errors l.cmds 0 U₁ ρ₁ q.vars (by simp) hturn hout
  rw [hshock] at herr
  obtain rfl : U' = Pipes (pre ++ [l]) := by
    ext p
    rw [hdone.grows, mem_pipes_concat]
    rfl
  -- the run
  have hparse : s.parse inp = .ok q := by
    rw [parse, hr.tokens_eq, combine_lasting (fun _ hc => hc.1) inp.opens hr.ok, hstart, List.nil_append,
      happ]
  have hexec := execAll_forked inp.opens l.cmds.length l.cmds ⟨q.vars, s.environ, [], []⟩
    fun argv hargv last e => execProcess_foreign _ _ last e (hr.ok.cmds_ok argv hargv)
  have hline : s.line inp = .ok (⟨(forkRows inp.opens l.cmds.length l.cmds q.vars).1, s.environ⟩,
      (forkRows inp.opens l.cmds.length l.cmds q.vars).2, q.lineEndWithPipe) := by
    simp only [line, hparse, hproc, hexec, List.nil_append]
  refine ⟨ρ', _, _, _, hline, hagree, ⟨?_, hdone.flags, ?_⟩, ?_, fun ρ'' hρ => ⟨⟨hdone.argv, ?_⟩, ?_⟩⟩
  · exact Pending.iff_counting.mpr hdone.counting
  · rintro L c ⟨j, l', hj, rfl, -⟩
    have hlt := (List.getElem?_eq_some_iff.mp hj).1
    simpa using hlt
  · rw [forkRows_shock, hshock]
  · intro c child hs
    obtain ⟨hin, h0⟩ := (hdone.wired c child hs).1
    rw [Setting.alone_desc] at h0
    rw [AEnd.desc_agree hρ ((AEnd.in_iff _).mp hin)]
    exact h0
  · exact lineErrors_iff (v := v) hr.ok.cmds_ne hdone hρ herr

/-! ### Whole sessions -/

theorem forall_zip_cons {β γ : Type*} {P : ℕ → β → γ → Prop} {b : β} {bs : List β} {c : γ} {cs : List γ} :
    (∀ (j : ℕ) x y, (b :: bs)[j]? = some x → (c :: cs)[j]? = some y → P j x y) ↔
      P 0 b c ∧ ∀ (j : ℕ) x y, bs[j]? = some x → cs[j]? = some y → P (j + 1) x y := by
  constructor
  · intro h
    exact ⟨h 0 b c rfl rfl, fun j x y hx hy => h (j + 1) x y (by simpa using hx) (by simpa using hy)⟩
  · rintro ⟨h0, h⟩ j x y hx hy
    cases j with
    | zero =>
      obtain rfl : b = x := by simpa using hx
      obtain rfl : c = y := by simpa using hy
      exact h0
    | succ j => exact h j x y (by simpa using hx) (by simpa using hy)

/-- After a line with `!N`, only lines with `!N` and `> file`. -/
def ShockLast (ls : List Pipeline) : Prop :=
  ls.Pairwise fun l l' => l.suffix.isShock = true → l'.suffix.Deaf

/-- The children of every line are its commands and read what the schedule says. -/
def RunReads (ρ : APipe → ℕ) (pre ls : List Pipeline) (sps : List (List Spawn)) : Prop :=
  ∀ (j : ℕ) l sp, ls[j]? = some l → sps[j]? = some sp → LineReads ρ (pre ++ ls.take j) l sp

/-- The errors of every line go where the line says. -/
def RunErrors (ρ : APipe → ℕ) (n : ℕ) (ls : List Pipeline) (sps : List (List Spawn)) : Prop :=
  ∀ (j : ℕ) l sp, ls[j]? = some l → sps[j]? = some sp → LineErrors ρ (n + j + 1) l sp

theorem run_errors : ∀ {ins : List LineInput} {ls pre : List Pipeline} {ρ : APipe → ℕ} {s : Shell},
    List.Forall₂ ReadsForeign ins ls → (∀ l ∈ ls, l.suffix.Fits) → Prompt pre.length (Pipes pre) ρ s →
    ∃ s' sps ρ', s.run ins = .ok (s', sps) ∧ (∀ p ∈ Pipes pre, ρ' p = ρ p) ∧
      Set.InjOn ρ' (Pipes (pre ++ ls)) ∧ sps.length = ls.length ∧ RunReads ρ' pre ls sps ∧
      (RunErrors ρ' pre.length ls sps ↔
        (s.vars.shockPipeOutFlag = true → ∀ l ∈ ls, l.suffix.Deaf) ∧ ShockLast ls) := by
  intro ins
  induction ins with
  | nil =>
    intro ls pre ρ s hr _ h
    cases hr
    refine ⟨s, [], ρ, rfl, fun _ _ => rfl, by simpa using h.pending.named.inj, rfl, ?_, ?_⟩
    · intro j l sp hl
      simp at hl
    · simp [RunErrors, ShockLast]
  | cons inp ins ih =>
    intro ls pre ρ s hr hfits h
    cases hr with
    | @cons _ l _ ls hl hls =>
      obtain ⟨ρ₁, s₁, sp, w, hline, hagree₁, hprompt, hshock, hwired⟩ :=
        line_errors h hl (hfits l (List.mem_cons_self ..))
      have hlen : (pre ++ [l]).length = pre.length + 1 := by simp
      rw [← hlen] at hprompt
      obtain ⟨s', sps, ρ', hrun, hagree, hinj, hsps, hreads, herrors⟩ :=
        ih hls (fun x hx => hfits x (List.mem_cons_of_mem _ hx)) hprompt
      obtain ⟨hread, herror⟩ := hwired ρ' hagree
      refine ⟨s', sp :: sps, ρ', ?_, fun p hp => ?_, by simpa using hinj, by simp [hsps], ?_, ?_⟩
      · simp only [run, hline, hrun]
      · rw [hagree p (mem_pipes_concat.mpr (Or.inl hp)), hagree₁ p hp]
      · refine forall_zip_cons.mpr ⟨by simpa using hread, fun j x y hx hy => ?_⟩
        simpa using hreads j x y hx hy
      · have htail : (∀ (j : ℕ) x y, ls[j]? = some x → sps[j]? = some y →
            LineErrors ρ' (pre.length + (j + 1) + 1) x y) ↔ RunErrors ρ' (pre ++ [l]).length ls sps := by
          rw [RunErrors, hlen]
          simp only [Nat.add_assoc, Nat.add_comm 1]
        rw [RunErrors, forall_zip_cons, htail, Nat.add_zero, herror, herrors, hshock, ShockLast, ShockLast,
          List.pairwise_cons, List.forall_mem_cons, Bool.or_eq_true]
        constructor
        · rintro ⟨hhead, hrest, hpair⟩
          exact ⟨fun hflag => ⟨hhead hflag, hrest (Or.inl hflag)⟩,
            fun x hx hsh => hrest (Or.inr hsh) x hx, hpair⟩
        · rintro ⟨hflag, hhead, hpair⟩
          refine ⟨fun hf => (hflag hf).1, ?_, hpair⟩
          rintro (hf | hsh) x hx
          · exact (hflag hf).2 x hx
          · exact hhead x hx hsh

/-- In every session of pipelines whose counts and names fit, the errors of the commands go where their own
    lines say if and only if behind a line with `!N` there are only lines with `!N` or `> file`. -/
theorem stderr_captured_iff (environ : Environ) (ins : List LineInput) (ls : List Pipeline)
    (hr : List.Forall₂ ReadsForeign ins ls) (hfits : ∀ l ∈ ls, l.suffix.Fits) :
    ∃ s sps ρ, (Shell.init environ).run ins = .ok (s, sps) ∧ sps.length = ls.length ∧
      Set.InjOn ρ (Pipes ls) ∧ RunReads ρ [] ls sps ∧ (RunErrors ρ 0 ls sps ↔ ShockLast ls) := by
  have hempty : Pipes [] = ∅ := by
    ext p
    cases p with
    | num T => exact iff_of_false (targets_nil T) (Set.notMem_empty _)
    | normal L c =>
      refine iff_of_false ?_ (Set.notMem_empty _)
      rintro ⟨j, l, hj, -⟩
      simp at hj
  have hprompt : Prompt ([] : List Pipeline).length (Pipes []) (fun _ => 0) (Shell.init environ) :=
    hempty ▸ prompt_init environ _
  obtain ⟨s, sps, ρ, hrun, -, hinj, hlen, hreads, herrors⟩ := run_errors hr hfits hprompt
  refine ⟨s, sps, ρ, hrun, hlen, hinj, hreads, herrors.trans ?_⟩
  simp [Shell.init]

/-- `ls !1`, then `cat !2`. -/
theorem stderr_captured_ls_cat :
    ∃ s sps ρ, (Shell.init fun _ => none).run
        [plainInput ['l', 's', ' ', '!', '1'], plainInput ['c', 'a', 't', ' ', '!', '2']] = .ok (s, sps) ∧
      sps.length = 2 ∧
      Set.InjOn ρ (Pipes [⟨[[['l', 's']]], .shock ['1']⟩, ⟨[[['c', 'a', 't']]], .shock ['2']⟩]) ∧
      RunReads ρ [] [⟨[[['l', 's']]], .shock ['1']⟩, ⟨[[['c', 'a', 't']]], .shock ['2']⟩] sps ∧
      (RunErrors ρ 0 [⟨[[['l', 's']]], .shock ['1']⟩, ⟨[[['c', 'a', 't']]], .shock ['2']⟩] sps ↔
        ShockLast [⟨[[['l', 's']]], .shock ['1']⟩, ⟨[[['c', 'a', 't']]], .shock ['2']⟩]) :=
  stderr_captured_iff (fun _ => none) _ _
    (.cons ⟨by decide, by decide⟩ (.cons ⟨by decide, by decide⟩ .nil)) (by decide)

/-- `ls !1`, then `cat`. -/
def shockThenPlain : List LineInput × List Pipeline :=
  ([plainInput ['l', 's', ' ', '!', '1'], plainInput ['c', 'a', 't']],
   [⟨[[['l', 's']]], .shock ['1']⟩, ⟨[[['c', 'a', 't']]], .none⟩])

/-- The second line has no suffix, but the standard error of `cat` is a copy of descriptor 1 of the shell,
    whatever the pipes are called. -/
theorem stderr_follows_stdout :
    List.Forall₂ ReadsForeign shockThenPlain.1 shockThenPlain.2 ∧ (∀ l ∈ shockThenPlain.2, l.suffix.Fits) ∧
      ∃ s sps, (Shell.init fun _ => none).run shockThenPlain.1 = .ok (s, sps) ∧
        ∀ ρ, ¬ RunErrors ρ 0 shockThenPlain.2 sps := by
  refine ⟨.cons ⟨by decide, by decide⟩ (.cons ⟨by decide, by decide⟩ .nil), by decide, ?_⟩
  have hlast : (((Shell.init fun _ => none).run shockThenPlain.1).toOption.map fun r =>
      r.2.map fun sp => sp.map fun c => c.fds.get 2) =
        some [[some (.pipeW 0)], [some (.own 1)]] := by decide
  cases hrun : (Shell.init fun _ => none).run shockThenPlain.1 with
  | error h => simp [hrun, Except.toOption] at hlast
  | ok r =>
    obtain ⟨s, sps⟩ := r
    refine ⟨s, sps, rfl, fun ρ h => ?_⟩
    simp only [hrun, Except.toOption, Option.map_some, Option.some.injEq] at hlast
    obtain ⟨sp, hsp, hchild⟩ : ∃ sp, sps[1]? = some sp ∧ (sp.map fun c => c.fds.get 2) = [some (.own 1)] := by
      have h1 : (sps.map fun sp => sp.map fun c => c.fds.get 2)[1]? = some [some (.own 1)] := by
        rw [hlast]
        rfl
      rwa [List.getElem?_map, Option.map_eq_some_iff] at h1
    obtain ⟨c, hc, hget⟩ := List.map_eq_singleton_iff.mp hchild
    have herr := h 1 _ sp rfl hsp 0 c (by simp [hc])
    simp [hget, stderrEnd, AEnd.desc] at herr

end NetProg.Shell
