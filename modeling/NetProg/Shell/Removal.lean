import NetProg.Lib.Run
import NetProg.Shell.PipeEnds

/-! The pending number pipes of the project-1 shell at its prompts.

    Every line counts the entries of `num_pipe_vec` down, and only the parent of a fork takes the due
    ones out. So a line on which a pipe is due must fork something. -/

namespace NetProg.Shell

/-- A line of commands and builtins, with `|N`, `!N` or nothing behind. -/
structure MixedLine where
  inp : LineInput
  line : Pipeline
  reads : ReadsPipes Lasting inp line

/-- From prompt to prompt. -/
def promptStep (s : Shell) (a : MixedLine) : Option Shell :=
  match s.line a.inp with
  | .ok (s', _, _) => some s'
  | .error _ => none

/-- The table is well formed: every entry still waits, for different lines, and none was announced. -/
structure Tabled (v : Vars) : Prop where
  waits : ∀ e ∈ v.numPipeVec, 1 ≤ e.restLine
  distinct : (v.numPipeVec.map (·.restLine)).Nodup
  inFlag : v.numPipeInFlag = false

/-- Some pipe is due on the next line. -/
def DueNext (v : Vars) : Prop := ∃ e ∈ v.numPipeVec, e.restLine = 1

/-- From `v` to `w` the entries that reach 0 are closed and removed, and all others only count down. -/
structure Settled (v w : Vars) : Prop where
  removed : ∃ new, w.numPipeVec = ((v.numPipeVec.filter (·.restLine ≠ 1)).map
    fun e => { e with restLine := e.restLine - 1 }) ++ new ∧ ∀ e ∈ new, e ∉ v.countdown.numPipeVec
  closed : ∃ new, w.kernel.closes = v.kernel.closes ++ new ∧
    ∀ e ∈ v.numPipeVec, e.restLine = 1 → e.p0 ∈ new.map (·.1) ∧ e.p1 ∈ new.map (·.1)

/-- A line that keeps the table: where a pipe is due it forks, and its own count is at least 1, or 0
    where a pipe is due. -/
structure Keeps (v : Vars) (l : Pipeline) : Prop where
  forked : DueNext v → 1 ≤ forks l.cmds
  counted : ∀ n, l.suffix.read = some n → 1 ≤ n ∨ n = 0 ∧ DueNext v

/-! ### The process loop -/

theorem closes_closeAll_fst (k : Kernel) (l : List ℕ) :
    ∃ new, (k.closeAll l).closes = k.closes ++ new ∧ new.map (·.1) = l := by
  induction l generalizing k with
  | nil => exact ⟨[], by simp⟩
  | cons fd l ih =>
    obtain ⟨new, hnew, hfst⟩ := ih (k.close fd)
    refine ⟨(fd, (k.get fd).isSome) :: new, ?_, by simp [hfst]⟩
    rw [Kernel.closeAll_cons, hnew, Kernel.closes_close]
    simp

/-- What `n` forks do to the table. -/
structure Passed (v w : Vars) (n : ℕ) : Prop where
  vec : w.numPipeVec = if v.numPipeInFlag = true ∧ 1 ≤ n then kept v.numPipeVec else v.numPipeVec
  inFlag : w.numPipeInFlag = (v.numPipeInFlag && n == 0)
  noName : w.namePipeIn = none
  closed : ∃ new, w.kernel.closes = v.kernel.closes ++ new ∧ (v.numPipeInFlag = true → 1 ≤ n →
    ∀ e ∈ v.numPipeVec, PipeDead e = true → e.p0 ∈ new.map (·.1) ∧ e.p1 ∈ new.map (·.1))

theorem Passed.refl {v : Vars} (h : v.namePipeIn = none) : Passed v v 0 where
  vec := by simp
  inFlag := by simp
  noName := h
  closed := ⟨[], by simp⟩

theorem Passed.fork (v : Vars) (opens : Opens) (pc : ℕ) (last : Bool) :
    Passed v (v.forkProcess opens pc last).1 1 := by
  obtain ⟨hker, hvec, hin, hname, -⟩ := Vars.forkProcess_fst v opens pc last
  refine ⟨?_, by simp [hin], hname, ?_⟩
  · simp [hvec, Vars.keptPipes, kept]
  · obtain ⟨new, hnew, hfst⟩ := closes_closeAll_fst (if v.makesPipe pc last then v.kernel.pipe else v.kernel)
      (v.beforeCloses ++ v.pipeCloses pc last ++ v.afterCloses)
    refine ⟨new, ?_, fun hflag _ e he hdead => ?_⟩
    · rw [hker, hnew]
      split <;> rfl
    · have hin : e.p0 ∈ v.afterCloses := by
        rw [Vars.afterCloses, if_pos hflag]
        exact List.mem_append_left _ (mem_deadIn.mpr ⟨e, he, hdead, rfl⟩)
      have hout : e.p1 ∈ v.beforeCloses :=
        List.mem_append_left _ (mem_deadOut.mpr ⟨e, he, hdead, rfl⟩)
      rw [hfst]
      exact ⟨List.mem_append_right _ hin, List.mem_append_left _ (List.mem_append_left _ hout)⟩

theorem Passed.trans {v u w : Vars} {n m : ℕ} (h : Passed v u n) (h' : Passed u w m) :
    Passed v w (n + m) := by
  obtain ⟨new, hnew, hclosed⟩ := h.closed
  obtain ⟨new', hnew', hclosed'⟩ := h'.closed
  cases n with
  | zero =>
    have hvec : u.numPipeVec = v.numPipeVec := by simp [h.vec]
    have hflag : u.numPipeInFlag = v.numPipeInFlag := by simp [h.inFlag]
    rw [Nat.zero_add]
    refine ⟨by rw [h'.vec, hvec, hflag], by rw [h'.inFlag, hflag], h'.noName, new ++ new', ?_, ?_⟩
    · rw [hnew', hnew, List.append_assoc]
    · intro hf hm e he hdead
      rw [hflag, hvec] at hclosed'
      obtain ⟨h0, h1⟩ := hclosed' hf hm e he hdead
      rw [List.map_append]
      exact ⟨List.mem_append_right _ h0, List.mem_append_right _ h1⟩
  | succ n =>
    have hflag : u.numPipeInFlag = false := by simp [h.inFlag]
    have hvec : u.numPipeVec = if v.numPipeInFlag = true then kept v.numPipeVec else v.numPipeVec := by
      simp [h.vec]
    refine ⟨?_, ?_, h'.noName, new ++ new', ?_, ?_⟩
    · have hpos : 1 ≤ n + 1 + m := by omega
      rw [h'.vec, hflag, hvec]
      simp [hpos]
    · rw [h'.inFlag, hflag]
      simp
    · rw [hnew', hnew, List.append_assoc]
    · intro hf _ e he hdead
      obtain ⟨h0, h1⟩ := hclosed hf (by omega) e he hdead
      rw [List.map_append]
      exact ⟨List.mem_append_left _ h0, List.mem_append_left _ h1⟩

/-- The process loop forks the commands that are not builtins. -/
theorem execAll_passed (opens : Opens) (pc : ℕ) : ∀ {rows : List (List Token)} {e : Exec},
    (∀ argv ∈ rows, Lasting argv) → e.vars.namePipeIn = none →
    ∃ e', execAll opens pc rows e = .ok e' ∧ Passed e.vars e'.vars (forks rows)
  | [], e, _, hname => ⟨e, rfl, .refl hname⟩
  | argv :: rest, e, hlast, hname => by
    have hargv := hlast argv (List.mem_cons_self ..)
    have hrest : ∀ x ∈ rest, Lasting x := fun x hx => hlast x (List.mem_cons_of_mem _ hx)
    rw [execAll]
    cases hb : builtin argv with
    | true =>
      obtain ⟨e₁, he₁, hv⟩ := execProcess_builtin opens pc rest.isEmpty e hargv.1 hb
      obtain ⟨e', he', hpassed⟩ := execAll_passed opens pc hrest (hv ▸ hname)
      rw [hv] at hpassed
      have hforks : forks (argv :: rest) = forks rest := by simp [forks, hb]
      exact ⟨e', by simp only [he₁, he'], hforks ▸ hpassed⟩
    | false =>
      have hforeign : Foreign argv := by
        rw [builtin, Bool.or_eq_false_iff, beq_eq_false_iff_ne, beq_eq_false_iff_ne] at hb
        exact ⟨hargv, hb.1, hb.2⟩
      have hrow := execProcess_foreign opens pc rest.isEmpty e hforeign
      have hfork : Passed e.vars (e.fork opens pc rest.isEmpty argv).vars 1 :=
        .fork e.vars opens pc rest.isEmpty
      obtain ⟨e', he', hpassed⟩ := execAll_passed opens pc hrest hfork.noName
      have hforks : forks (argv :: rest) = 1 + forks rest := by simp [forks, hb, Nat.add_comm]
      exact ⟨e', by simp only [hrow, he'], hforks ▸ hfork.trans hpassed⟩

/-! ### One line -/

/-- The entry a count adds. -/
theorem numberPipe_vec (v : Vars) (n : ℤ) :
    (v.numberPipe n).numPipeInFlag = v.numPipeInFlag ∧ (v.numberPipe n).namePipeIn = v.namePipeIn ∧
      (v.numberPipe n).kernel.closes = v.kernel.closes ∧
      ((∃ e ∈ v.numPipeVec, e.restLine = n) ∧ (v.numberPipe n).numPipeVec = v.numPipeVec ∨
        (∀ e ∈ v.numPipeVec, e.restLine ≠ n) ∧
          ∃ e, e.restLine = n ∧ (v.numberPipe n).numPipeVec = v.numPipeVec ++ [e]) := by
  rw [Vars.numberPipe]
  cases hfind : v.numPipeVec.find? fun t => n == t.restLine with
  | some e =>
    have hrest : n = e.restLine := by simpa using List.find?_some hfind
    exact ⟨rfl, rfl, rfl, Or.inl ⟨⟨e, List.mem_of_find?_eq_some hfind, hrest.symm⟩, rfl⟩⟩
  | none =>
    have hno : ∀ e ∈ v.numPipeVec, e.restLine ≠ n := by
      intro e he heq
      have hne := List.find?_eq_none.mp hfind e he
      simp [heq] at hne
    exact ⟨rfl, rfl, rfl, Or.inr ⟨hno, _, rfl, rfl⟩⟩

/-- What the suffix of a line leaves. -/
theorem applySuffix_vec (opens : Opens) (p : Parsed) {suf : Suffix} (hpiped : ∀ name, suf ≠ .file name) :
    ∃ q, applySuffix opens p suf = some q ∧ q.process = p.process ∧
      q.vars.numPipeInFlag = p.vars.numPipeInFlag ∧ q.vars.namePipeIn = p.vars.namePipeIn ∧
      q.vars.kernel.closes = p.vars.kernel.closes ∧
      ((suf.read = none ∧ q.vars.numPipeVec = p.vars.numPipeVec) ∨ ∃ n, suf.read = some n ∧
        ((∃ e ∈ p.vars.numPipeVec, e.restLine = n) ∧ q.vars.numPipeVec = p.vars.numPipeVec ∨
          (∀ e ∈ p.vars.numPipeVec, e.restLine ≠ n) ∧
            ∃ e, e.restLine = n ∧ q.vars.numPipeVec = p.vars.numPipeVec ++ [e])) := by
  have hpipe : ∀ shock n, (p.pipeOut shock n).process = p.process ∧
      (p.pipeOut shock n).vars.numPipeInFlag = (p.vars.numberPipe n).numPipeInFlag ∧
      (p.pipeOut shock n).vars.namePipeIn = (p.vars.numberPipe n).namePipeIn ∧
      (p.pipeOut shock n).vars.kernel = (p.vars.numberPipe n).kernel ∧
      (p.pipeOut shock n).vars.numPipeVec = (p.vars.numberPipe n).numPipeVec := by
    intro shock n
    cases shock <;> exact ⟨rfl, rfl, rfl, rfl, rfl⟩
  cases suf with
  | none => exact ⟨p, rfl, rfl, rfl, rfl, rfl, Or.inl ⟨rfl, rfl⟩⟩
  | file name => exact absurd rfl (hpiped name)
  | pipe ds =>
    obtain ⟨hproc, hflag, hname, hker, hvec⟩ := hpipe false (atoi ds)
    obtain ⟨hflag', hname', hclosed, hcases⟩ := numberPipe_vec p.vars (atoi ds)
    exact ⟨_, rfl, hproc, hflag.trans hflag', hname.trans hname', by rw [hker, hclosed],
      Or.inr ⟨_, rfl, by rwa [hvec]⟩⟩
  | shock ds =>
    obtain ⟨hproc, hflag, hname, hker, hvec⟩ := hpipe true (atoi ds)
    obtain ⟨hflag', hname', hclosed, hcases⟩ := numberPipe_vec p.vars (atoi ds)
    exact ⟨_, rfl, hproc, hflag.trans hflag', hname.trans hname', by rw [hker, hclosed],
      Or.inr ⟨_, rfl, by rwa [hvec]⟩⟩

/-- One line less to wait. -/
def counted (e : NumberPipe) : NumberPipe := { e with restLine := e.restLine - 1 }

theorem dead_counted (e : NumberPipe) : PipeDead (counted e) = true ↔ e.restLine = 1 := by
  simp [PipeDead, counted]
  omega

/-- The table between the countdown and the process loop. -/
structure Announced (v u : Vars) (read : Option ℤ) : Prop where
  inFlag : u.numPipeInFlag = true ↔ DueNext v
  closes : u.kernel.closes = v.kernel.closes
  noName : u.namePipeIn = none
  vec : (read = none ∧ u.numPipeVec = v.numPipeVec.map counted) ∨ ∃ n, read = some n ∧
    ((∃ e ∈ v.numPipeVec.map counted, e.restLine = n) ∧ u.numPipeVec = v.numPipeVec.map counted ∨
      (∀ e ∈ v.numPipeVec.map counted, e.restLine ≠ n) ∧
        ∃ e, e.restLine = n ∧ u.numPipeVec = v.numPipeVec.map counted ++ [e])

namespace Announced
variable {v u w : Vars} {read : Option ℤ} {n : ℕ}

/-- The entries are those there were, and at most one with the count of the line. -/
theorem split (ha : Announced v u read) : ∃ new, u.numPipeVec = v.numPipeVec.map counted ++ new ∧
    (∀ e ∈ new, read = some e.restLine ∧ ∀ e' ∈ v.numPipeVec.map counted, e'.restLine ≠ e.restLine) ∧
    new.length ≤ 1 := by
  rcases ha.vec with ⟨-, hvec⟩ | ⟨n, hn, ⟨-, hvec⟩ | ⟨hfresh, e, rfl, hvec⟩⟩
  · exact ⟨[], by simp [hvec]⟩
  · exact ⟨[], by simp [hvec]⟩
  · exact ⟨[e], hvec, by simpa using ⟨hn, by simpa using hfresh⟩, le_rfl⟩

theorem tabled (ha : Announced v u read) (hp : Passed u w n) (h : Tabled v) (hforked : DueNext v → 1 ≤ n)
    (hcounted : ∀ k, read = some k → 1 ≤ k ∨ k = 0 ∧ DueNext v) : Tabled w := by
  obtain ⟨new, hvec, hnew, hone⟩ := ha.split
  have hzero : ∀ e ∈ u.numPipeVec, 0 ≤ e.restLine ∧ (e.restLine = 0 → DueNext v) := by
    intro e he
    rw [hvec, List.mem_append] at he
    rcases he with he | he
    · obtain ⟨e', he', rfl⟩ := List.mem_map.mp he
      have hwait := h.waits e' he'
      refine ⟨by simp only [counted]; omega, fun h0 => ⟨e', he', ?_⟩⟩
      simp only [counted] at h0
      omega
    · rcases hcounted _ (hnew e he).1 with hpos | ⟨h0, hdue⟩
      · exact ⟨by omega, by omega⟩
      · exact ⟨h0.ge, fun _ => hdue⟩
  have hdistinct : (u.numPipeVec.map (·.restLine)).Nodup := by
    have hold : (v.numPipeVec.map counted).map (·.restLine) =
        (v.numPipeVec.map (·.restLine)).map (· - 1) := by
      simp [counted, Function.comp_def]
    rw [hvec, List.map_append, List.nodup_append]
    refine ⟨?_, ?_, ?_⟩
    · rw [hold]
      exact h.distinct.map fun a b hab => by simpa using hab
    · rcases new with _ | ⟨e, _ | ⟨e', new⟩⟩
      · exact List.nodup_nil
      · exact List.nodup_singleton _
      · simp at hone
    · rintro a ha b hb rfl
      obtain ⟨e, he, rfl⟩ := List.mem_map.mp ha
      obtain ⟨e', he', heq⟩ := List.mem_map.mp hb
      exact (hnew e' he').2 e he heq.symm
  have hflag : u.numPipeInFlag = true → 1 ≤ n := fun hf => hforked (ha.inFlag.mp hf)
  have hvec' : ∀ e ∈ w.numPipeVec, e ∈ u.numPipeVec ∧ (u.numPipeInFlag = true → PipeDead e = false) := by
    intro e he
    rw [hp.vec] at he
    split at he
    · rw [kept, List.mem_filter] at he
      exact ⟨he.1, fun _ => by simpa using he.2⟩
    · rename_i hno
      exact ⟨he, fun hf => absurd ⟨hf, hflag hf⟩ hno⟩
  refine ⟨fun e he => ?_, ?_, ?_⟩
  · obtain ⟨hmem, hlive⟩ := hvec' e he
    obtain ⟨hnonneg, hdue⟩ := hzero e hmem
    have hne : e.restLine ≠ 0 := by
      intro h0
      have hdead := hlive (ha.inFlag.mpr (hdue h0))
      simp [PipeDead, h0] at hdead
    omega
  · rw [hp.vec]
    split
    · exact hdistinct.sublist (List.filter_sublist.map _)
    · exact hdistinct
  · rw [hp.inFlag]
    cases hf : u.numPipeInFlag with
    | false => rfl
    | true =>
      have hpos := hflag hf
      simp
      omega

/-- A line that does not keep the table. -/
theorem keeps (ha : Announced v u read) (hp : Passed u w n) (h : Tabled v) (hw : Tabled w) :
    (DueNext v → 1 ≤ n) ∧ ∀ k, read = some k → 1 ≤ k ∨ k = 0 ∧ DueNext v := by
  constructor
  · intro hdue
    have hflag := hw.inFlag
    rw [hp.inFlag, ha.inFlag.mpr hdue] at hflag
    have hne : n ≠ 0 := by simpa using hflag
    omega
  · intro k hk
    rcases ha.vec with ⟨hnone, -⟩ | ⟨n', hn', ⟨⟨e, he, hrest⟩, -⟩ | ⟨hfresh, e, hrest, hvec⟩⟩
    · rw [hnone] at hk
      cases hk
    · obtain rfl : n' = k := Option.some.inj (hn'.symm.trans hk)
      obtain ⟨e', he', rfl⟩ := List.mem_map.mp he
      have hwait := h.waits e' he'
      simp only [counted] at hrest
      rcases lt_or_ge 0 n' with hpos | hneg
      · exact Or.inl hpos
      · exact Or.inr ⟨by omega, e', he', by omega⟩
    · obtain rfl : n' = k := Option.some.inj (hn'.symm.trans hk)
      refine Or.inl ?_
      have hmem : e ∈ w.numPipeVec := by
        have hin : e ∈ u.numPipeVec := by simp [hvec]
        rw [hp.vec]
        split
        · rename_i hdue
          refine List.mem_filter.mpr ⟨hin, ?_⟩
          -- a due entry has the count 0, which the new one therefore has not
          obtain ⟨e', he', hone⟩ := ha.inFlag.mp hdue.1
          have hne := hfresh (counted e') (List.mem_map_of_mem he')
          simp only [counted, hone, sub_self] at hne
          simpa [PipeDead, hrest] using hne.symm
        · exact hin
      exact hrest ▸ hw.waits e hmem

theorem settled (ha : Announced v u read) (hp : Passed u w n) (hforked : DueNext v → 1 ≤ n) :
    Settled v w := by
  obtain ⟨new, hvec, hnew, -⟩ := ha.split
  have hfresh : ∀ e ∈ new, e ∉ v.countdown.numPipeVec := fun e he hmem => (hnew e he).2 e hmem rfl
  have hkept : kept (v.numPipeVec.map counted) = (v.numPipeVec.filter (·.restLine ≠ 1)).map counted := by
    rw [kept, List.filter_map]
    refine congrArg (List.map counted) (List.filter_congr fun e _ => ?_)
    have hdead := dead_counted e
    simp only [Function.comp_apply, ne_eq, decide_not, Bool.not_eq_eq_eq_not, Bool.not_not]
    rw [Bool.eq_iff_iff, hdead, decide_eq_true_iff]
  refine ⟨?_, ?_⟩
  · rw [hp.vec, hvec]
    split
    · refine ⟨kept new, ?_, fun e he => hfresh e (List.mem_of_mem_filter he)⟩
      change kept _ = (List.map counted _) ++ _
      rw [← hkept, kept, List.filter_append]
      rfl
    · rename_i hno
      have hnot : ¬ DueNext v := fun hdue => hno ⟨ha.inFlag.mpr hdue, hforked hdue⟩
      refine ⟨new, ?_, hfresh⟩
      have hall : v.numPipeVec.filter (·.restLine ≠ 1) = v.numPipeVec := by
        rw [List.filter_eq_self]
        intro e he
        simpa using fun hone => hnot ⟨e, he, hone⟩
      rw [hall]
      rfl
  · obtain ⟨closes, hcloses, hclosed⟩ := hp.closed
    refine ⟨closes, by rw [hcloses, ha.closes], fun e he hone => ?_⟩
    have hdue : DueNext v := ⟨e, he, hone⟩
    have hmem : counted e ∈ u.numPipeVec := by
      rw [hvec]
      exact List.mem_append_left _ (List.mem_map_of_mem he)
    exact hclosed (ha.inFlag.mpr hdue) (hforked hdue) (counted e) hmem ((dead_counted e).mpr hone)

end Announced

/-- One line of a shell with a well-formed table. -/
theorem line_passed {s : Shell} (a : MixedLine) (hname : s.vars.namePipeIn = none)
    (hflag : s.vars.numPipeInFlag = false) : ∃ t u, promptStep s a = some t ∧
      Announced s.vars u a.line.suffix.read ∧ Passed u t.vars (forks a.line.cmds) := by
  have hreads := a.reads
  have hne : tokens ' ' a.inp.line ≠ [] := by
    obtain ⟨c, cs, hc⟩ := List.exists_cons_of_ne_nil hreads.ok.cmds_ne
    have hcne : c ≠ [] := (hreads.ok.cmds_ok c (by simp [hc])).1
    rw [hreads.tokens_eq]
    cases cs <;> simp [Pipeline.tokens, hc, joinCmds, hcne]
  have hstart : s.startLine a.inp = Vars.countdown
      { s.vars with pipeOutNum := 1, fdIn := 0, redirectionFileName := a.inp.junk } := by
    rw [Shell.startLine, if_neg hne]
  obtain ⟨q, happ, hproc, hin, hqname, hcloses, hvec⟩ := applySuffix_vec
    a.inp.opens ⟨s.startLine a.inp, a.line.cmds, false⟩ hreads.piped
  have hparse : s.parse a.inp = .ok q := by
    rw [parse, hreads.tokens_eq, combine_lasting (fun _ hc => hc) a.inp.opens hreads.ok]
    simp only [List.nil_append, happ]
  have hdue : (s.startLine a.inp).numPipeInFlag = true ↔ DueNext s.vars := by
    rw [hstart]
    simp only [Vars.countdown, hflag, Bool.false_or, List.any_map, List.any_eq_true, Function.comp_apply]
    exact exists_congr fun e => and_congr_right fun _ => dead_counted e
  have hannounced : Announced s.vars q.vars a.line.suffix.read := by
    refine ⟨by rw [hin]; exact hdue, ?_, ?_, ?_⟩
    · rw [hcloses, hstart]
      rfl
    · rw [hqname, hstart]
      exact hname
    · rw [hstart] at hvec
      exact hvec
  obtain ⟨e, hexec, hpassed⟩ := execAll_passed a.inp.opens a.line.cmds.length
    (e := ⟨q.vars, s.environ, [], []⟩) hreads.ok.cmds_ok hannounced.noName
  refine ⟨⟨e.vars, e.environ⟩, q.vars, ?_, hannounced, hpassed⟩
  have hline : s.line a.inp = .ok (⟨e.vars, e.environ⟩, e.spawned, q.lineEndWithPipe) := by
    simp only [Shell.line, hparse, hproc, hexec]
  rw [promptStep, hline]

/-! ### Whole sessions -/

/-- At every prompt the table is well formed, and on every line what is due is closed and removed: so it
    is in the sessions whose lines keep the table, and in no others. -/
theorem table_well_formed_iff (environ : Environ) (lines : List MixedLine) :
    (Always promptStep (fun s => Tabled s.vars) (Shell.init environ) lines ∧
      Meets promptStep (fun s a => ∀ t, promptStep s a = some t → Settled s.vars t.vars)
        (Shell.init environ) lines) ↔
      Meets promptStep (fun s a => Keeps s.vars a.line) (Shell.init environ) lines := by
  set Ready : Shell → Prop := fun s => Tabled s.vars ∧ s.vars.namePipeIn = none with hReady
  have hinit : Ready (Shell.init environ) :=
    ⟨⟨by simp [Shell.init], by simp [Shell.init], rfl⟩, rfl⟩
  have hkeep : ∀ s a t, Ready s → Keeps s.vars a.line → promptStep s a = some t → Ready t := by
    rintro s a t ⟨htable, hname⟩ hkeeps ht
    obtain ⟨t', u, ht', hann, hpassed⟩ := line_passed a hname htable.inFlag
    obtain rfl : t' = t := Option.some.inj (ht'.symm.trans ht)
    exact ⟨hann.tabled hpassed htable hkeeps.forked hkeeps.counted, hpassed.noName⟩
  have hbreak : ∀ s a t, Ready s → ¬ Keeps s.vars a.line → promptStep s a = some t → ¬ Tabled t.vars := by
    rintro s a t ⟨htable, hname⟩ hno ht hw
    obtain ⟨t', u, ht', hann, hpassed⟩ := line_passed a hname htable.inFlag
    obtain rfl : t' = t := Option.some.inj (ht'.symm.trans ht)
    obtain ⟨hforked, hcounted⟩ := hann.keeps hpassed htable hw
    exact hno ⟨hforked, hcounted⟩
  have hsettle : ∀ s a, Ready s → Keeps s.vars a.line →
      ∀ t, promptStep s a = some t → Settled s.vars t.vars := by
    rintro s a ⟨htable, hname⟩ hkeeps t ht
    obtain ⟨t', u, ht', hann, hpassed⟩ := line_passed a hname htable.inFlag
    obtain rfl : t' = t := Option.some.inj (ht'.symm.trans ht)
    exact hann.settled hpassed hkeeps.forked
  constructor
  · rintro ⟨halways, -⟩
    have hrun : ∀ {as : List MixedLine} {s : Shell}, Ready s →
        Always promptStep (fun s => Tabled s.vars) s as →
        Meets promptStep (fun s a => Keeps s.vars a.line) s as := by
      intro as
      induction as with
      | nil => exact fun _ _ => .nil
      | cons a as ih =>
        intro s hs h
        obtain ⟨t, u, ht, -, -⟩ := line_passed a hs.2 hs.1.inFlag
        have hkeeps : Keeps s.vars a.line := by
          by_contra hno
          exact hbreak s a t hs hno ht (h.next ht).now
        refine .cons hkeeps fun t' ht' => ih (hkeep s a t' hs hkeeps ht') (h.next ht')
    exact hrun hinit halways
  · intro h
    exact ⟨always_of_meets hkeep (fun _ hs => hs.1) hinit h, meets_of_meets hkeep hsettle hinit h⟩

/-- `ls |1`, which is followed by `setenv A b`. -/
def lsPiped : MixedLine :=
  ⟨plainInput ['l', 's', ' ', '|', '1'], ⟨[[['l', 's']]], .pipe ['1']⟩, by decide, by decide, by simp⟩

def setenvLine : MixedLine :=
  ⟨plainInput ['s', 'e', 't', 'e', 'n', 'v', ' ', 'A', ' ', 'b'], ⟨[[setenvCmd, ['A'], ['b']]], .none⟩,
    by decide, by decide, by simp⟩

/-- The pipe is due on a line that forks nothing: it stays, and counts on below 0. -/
theorem table_keeps_due_entry :
    ¬ Always promptStep (fun s => Tabled s.vars) (Shell.init fun _ => none) [lsPiped, setenvLine] := by
  intro h
  have hend : (runWith promptStep (Shell.init fun _ => none) [lsPiped, setenvLine]).map
      (·.vars.numPipeInFlag) = some true := by decide
  obtain ⟨s, hrun, hflag⟩ := Option.map_eq_some_iff.mp hend
  have htable := (h _ s (List.prefix_refl _) hrun).inFlag
  rw [hflag] at htable
  cases htable

end NetProg.Shell
