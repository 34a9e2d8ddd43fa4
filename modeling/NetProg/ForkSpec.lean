import NetProg.Process

/-! What one fork does, said once for all four branches: the descriptors the parent closes, the
    flags it resets, and what the child finds on 0, 1 and 2. Every later result about a run of a
    shell goes through these lemmas and never unfolds a branch again. -/

namespace NetProg

namespace Vars

/-! ### What a fork does to the parent -/

/-- Whether the last command takes one of the three branches that send its output elsewhere. -/
def special (v : Vars) (last : Bool) : Bool :=
  last && (v.writeFileFlag || v.shockPipeOutFlag || v.numPipeOutFlag || v.namePipeOut.isSome)

/-- The descriptors the shell closes before a fork. -/
def beforeCloses (v : Vars) : List ℕ := v.deadOut ++ (v.namePipeIn.map (·.2)).toList

/-- The descriptors the shell closes after a fork, besides those of the normal pipe. -/
def afterCloses (v : Vars) : List ℕ :=
  (if v.numPipeInFlag then v.deadIn else []) ++ (v.namePipeIn.map (·.1)).toList

/-- The pending number pipes after a fork. -/
def keptPipes (v : Vars) : List NumberPipe :=
  if v.numPipeInFlag then v.numPipeVec.filter (fun t => !PipeDead t) else v.numPipeVec

theorem beforeFork_eq (v : Vars) :
    v.beforeFork = { v with kernel := v.kernel.closeAll v.beforeCloses } := by
  unfold beforeFork beforeCloses close0RestLinePipeOut
  cases h : v.namePipeIn with
  | none => simp [deadOut]
  | some np => simp [close, deadOut, Kernel.closeAll_append]

theorem afterFork_eq (v : Vars) :
    v.afterFork = { v with
      kernel := v.kernel.closeAll v.afterCloses
      numPipeVec := v.keptPipes
      numPipeInFlag := false
      namePipeIn := none } := by
  unfold afterFork afterCloses keptPipes close0RestLinePipeIn
  cases v with
  | mk k vec inF outF sh wf npi npo po fi buf =>
    cases inF <;> cases npi <;> simp [close, deadIn, Kernel.closeAll_append]

/-- The descriptors of the normal pipe the shell closes around a fork. -/
def pipeCloses (v : Vars) (processCount : ℕ) (last : Bool) : List ℕ :=
  if processCount = 1 then []
  else if v.special last then [v.fdIn]
  else if last then [v.kernel.pipeFd1, v.kernel.pipeFd0] else [v.kernel.pipeFd1]

/-- Whether a new normal pipe is made for the command. -/
def makesPipe (v : Vars) (processCount : ℕ) (last : Bool) : Bool :=
  !v.special last && processCount != 1

/-- The parent after a fork: which pipe it made, what it closed and which flags it reset. -/
theorem forkProcess_fst (v : Vars) (opens : Opens) (processCount : ℕ) (last : Bool) :
    let w := (v.forkProcess opens processCount last).1
    w.kernel = (if v.makesPipe processCount last then v.kernel.pipe else v.kernel).closeAll
        (v.beforeCloses ++ v.pipeCloses processCount last ++ v.afterCloses) ∧
      w.numPipeVec = v.keptPipes ∧ w.numPipeInFlag = false ∧ w.namePipeIn = none ∧
      w.fdIn = (if v.makesPipe processCount last then v.kernel.pipeFd0 else v.fdIn) ∧
      w.shockPipeOutFlag = v.shockPipeOutFlag ∧ w.pipeOutNum = v.pipeOutNum ∧
      w.writeFileFlag = (v.writeFileFlag && !last) ∧
      w.numPipeOutFlag = (v.numPipeOutFlag && !(last && !v.writeFileFlag)) ∧
      w.redirectionFileName = v.redirectionFileName ∧
      (v.namePipeOut = none → w.namePipeOut = none) := by
  cases v with
  | mk k vec inF outF sh wf npi npo po fi buf =>
  cases last <;> cases wf <;> cases sh <;> cases outF <;> cases npo <;>
    by_cases hc : processCount = 1 <;>
    simp [forkProcess, forkRedirect, forkNumberPipe, forkUserPipe, forkNormal, beforeFork_eq,
      afterFork_eq, special, makesPipe, pipeCloses, hc, close, Kernel.closeAll_append,
      beforeCloses, afterCloses, keptPipes, deadIn, deadOut]


/-! ### What a fork gives to the child -/

/-- The kernel state the child is forked from. -/
def forkKernel (v : Vars) (processCount : ℕ) (last : Bool) : Kernel :=
  (if v.makesPipe processCount last then v.kernel.pipe else v.kernel).closeAll v.beforeCloses

/-- The descriptor the child's standard input is copied from. -/
def stdinFd (v : Vars) : Option ℕ :=
  if v.numPipeInFlag then (v.numPipeVec.find? PipeDead).map (·.p0)
  else match v.namePipeIn with
    | some np => some np.1
    | none => some v.fdIn

theorem get_zero_childStdin {v : Vars} {t : FdTable Desc} {fd : ℕ} {d : Desc}
    (hs : v.stdinFd = some fd) (hd : t.get fd = some d) : (v.childStdin t).get 0 = some d := by
  unfold stdinFd at hs
  unfold childStdin dupDue
  cases hf : v.numPipeInFlag with
  | true =>
    simp only [hf, if_true] at hs ⊢
    cases he : v.numPipeVec.find? PipeDead with
    | none => simp [he] at hs
    | some e =>
      simp only [he, Option.map_some, Option.some.injEq] at hs
      exact FdTable.get_dup2_dst _ _ (by simpa [hs] using hd)
  | false =>
    simp only [hf, Bool.false_eq_true, if_false] at hs ⊢
    cases hn : v.namePipeIn with
    | none =>
      simp only [hn, Option.some.injEq] at hs
      exact FdTable.get_dup2_dst _ _ (by simpa [hs] using hd)
    | some np =>
      simp only [hn, Option.some.injEq] at hs
      exact FdTable.get_dup2_dst _ _ (by simpa [hs] using hd)

theorem get_childStdin_of_ne {v : Vars} {t : FdTable Desc} {x : ℕ} (h : x ≠ 0) :
    (v.childStdin t).get x = t.get x := by
  unfold childStdin dupDue
  split
  · split
    · exact FdTable.get_dup2_of_ne _ h
    · rfl
  · split <;> exact FdTable.get_dup2_of_ne _ h

theorem get_childNormal {v : Vars} {pc p0 p1 : ℕ} {last : Bool} {t : FdTable Desc} {x : ℕ}
    (h0 : x ≠ 0) (h1 : x ≠ 1) (hp : x ≠ p0) : (v.childNormal pc p0 p1 last t).get x = t.get x := by
  have hdup : ∀ u : FdTable Desc, (v.dupDue u).get x = u.get x := by
    intro u
    unfold dupDue
    split
    · exact FdTable.get_dup2_of_ne _ h0
    · rfl
  unfold childNormal
  cases v.numPipeInFlag <;> cases v.namePipeIn <;> by_cases hc : pc = 1 <;> cases last <;>
    simp [hc, hdup, FdTable.get_dup2_of_ne _ h0, FdTable.get_dup2_of_ne _ h1, hp]

/-- The child of the ordinary branch reads what `stdinFd` names. The user pipe is only read by the
    first command of a line, and a line of one command has no normal pipe to read. -/
theorem get_zero_childNormal {v : Vars} {pc p0 p1 fd : ℕ} {last : Bool} {t : FdTable Desc}
    {d : Desc} (hs : v.stdinFd = some fd) (hd : t.get fd = some d) (hp : p0 ≠ 0)
    (hfd : pc = 1 ∨ v.namePipeIn ≠ none → v.fdIn = 0) :
    (v.childNormal pc p0 p1 last t).get 0 = some d := by
  have hstd := get_zero_childStdin hs hd
  unfold childStdin at hstd
  unfold childNormal
  cases hf : v.numPipeInFlag with
  | true =>
    simp only [hf, if_true] at hstd ⊢
    by_cases hc : pc = 1
    · simpa [hc] using hstd
    · cases last <;> simp [hc, FdTable.get_dup2_of_ne, hp.symm, hstd]
  | false =>
    simp only [hf, Bool.false_eq_true, if_false] at hstd ⊢
    cases hn : v.namePipeIn with
    | none =>
      simp only [hn] at hstd ⊢
      by_cases hc : pc = 1
      · have h0 := hfd (Or.inl hc)
        simp only [stdinFd, hf, hn, h0, Bool.false_eq_true, if_false, Option.some.injEq] at hs
        simpa [hc, hs] using hd
      · cases last <;> simp [hc, FdTable.get_dup2_of_ne, hp.symm, hstd]
    | some np =>
      simp only [hn] at hstd ⊢
      have h0 := hfd (Or.inr (by simp [hn]))
      by_cases hc : pc = 1
      · simpa [hc] using hstd
      · have h00 : ((t.dup2 np.1 0).dup2 v.fdIn 0).get 0 = some d := by
          rw [h0]; exact FdTable.get_dup2_dst _ _ hstd
        cases last <;> simp [hc, FdTable.get_dup2_of_ne, hp.symm, h00]


theorem forkProcess_of_not_special {v : Vars} {last : Bool} (opens : Opens) (pc : ℕ)
    (h : v.special last = false) : v.forkProcess opens pc last = v.forkNormal pc last := by
  revert h
  unfold special forkProcess
  cases last <;> cases v.writeFileFlag <;> cases v.shockPipeOutFlag <;>
    cases v.numPipeOutFlag <;> cases v.namePipeOut <;> simp

theorem forkKernel_of_special {v : Vars} {last : Bool} (pc : ℕ) (h : v.special last = true) :
    v.forkKernel pc last = v.kernel.closeAll v.beforeCloses := by
  simp [forkKernel, makesPipe, h]

theorem forkNormal_snd {v : Vars} {last : Bool} (pc : ℕ) (h : v.special last = false) :
    (v.forkNormal pc last).2 =
      v.childNormal pc v.kernel.pipeFd0 v.kernel.pipeFd1 last (v.forkKernel pc last).fds := by
  by_cases hc : pc = 1
  · simp only [forkNormal, hc, ne_eq, not_true_eq_false, if_false, beforeFork_eq, forkKernel,
      makesPipe, h, bne_self_eq_false, Bool.and_false, Bool.false_eq_true]
    rfl
  · simp only [forkNormal, hc, ne_eq, not_false_eq_true, if_true, beforeFork_eq, forkKernel,
      makesPipe, h, Bool.not_false, bne_iff_ne, Bool.true_and]
    rfl

theorem forkRedirect_snd (v : Vars) (opens : Opens) (pc : ℕ) :
    (v.forkRedirect opens pc).2 = v.childFile opens (v.kernel.closeAll v.beforeCloses).fds := by
  simp only [forkRedirect, beforeFork_eq]
  rfl

theorem forkNumberPipe_snd (v : Vars) (pc : ℕ) :
    (v.forkNumberPipe pc).2 =
      let t := v.childStdin (v.kernel.closeAll v.beforeCloses).fds
      (if v.shockPipeOutFlag then t.dup2 v.pipeOutNum 2 else t).dup2 v.pipeOutNum 1 := by
  simp only [forkNumberPipe, beforeFork_eq]
  rfl

theorem forkUserPipe_snd (v : Vars) (opens : Opens) (out pc : ℕ) :
    (v.forkUserPipe opens out pc).2 =
      let t := (v.kernel.closeAll v.beforeCloses).fds
      (v.childStdin (match opens.junk with
        | some name => t.alloc (.file name)
        | none => t)).dup2 out 1 := by
  simp only [forkUserPipe, beforeFork_eq]
  rfl

/-- The standard input of the child. -/
theorem forkProcess_stdin {v : Vars} {opens : Opens} {pc fd : ℕ} {last : Bool} {d : Desc}
    (hs : v.stdinFd = some fd) (hd : (v.forkKernel pc last).get fd = some d)
    (h0 : v.kernel.get 0 ≠ none) (hfd : pc = 1 ∨ v.namePipeIn ≠ none → v.fdIn = 0) :
    (v.forkProcess opens pc last).2.get 0 = some d := by
  cases hsp : v.special last with
  | false =>
    rw [forkProcess_of_not_special opens pc hsp, forkNormal_snd pc hsp]
    exact get_zero_childNormal hs hd (Kernel.ne_pipeFd0 h0).symm hfd
  | true =>
    rw [forkKernel_of_special pc hsp] at hd
    have hopen : (v.kernel.closeAll v.beforeCloses).fds.get fd ≠ none := by
      rw [show (v.kernel.closeAll v.beforeCloses).fds.get fd = some d from hd]; simp
    have halloc : ∀ a, ((v.kernel.closeAll v.beforeCloses).fds.alloc a).get fd = some d :=
      fun a => (FdTable.get_alloc_of_open a hopen).trans hd
    have hlast : last = true := by
      cases last with
      | false => simp [special] at hsp
      | true => rfl
    subst hlast
    unfold forkProcess
    split_ifs with h1 h2
    · rw [forkRedirect_snd, childFile]
      split_ifs
      · rw [FdTable.get_dup2_of_ne _ (by decide)]
        exact get_zero_childStdin hs (halloc _)
      · exact get_zero_childStdin hs hd
    · rw [forkNumberPipe_snd]
      rw [FdTable.get_dup2_of_ne _ (by decide)]
      split_ifs
      · rw [FdTable.get_dup2_of_ne _ (by decide)]
        exact get_zero_childStdin hs hd
      · exact get_zero_childStdin hs hd
    · cases hout : v.namePipeOut with
      | none => simp_all [special]
      | some out =>
        simp only
        rw [forkUserPipe_snd, FdTable.get_dup2_of_ne _ (by decide)]
        cases opens.junk with
        | none => exact get_zero_childStdin hs hd
        | some name => exact get_zero_childStdin hs (halloc _)

/-- The descriptor the child's standard output is copied from, where it is not a file. -/
def stdoutFd (v : Vars) (pc : ℕ) (last : Bool) : ℕ :=
  if v.special last then
    if v.shockPipeOutFlag || v.numPipeOutFlag then v.pipeOutNum else v.namePipeOut.getD 1
  else if pc ≠ 1 ∧ last = false then v.kernel.pipeFd1 else 1

theorem get_one_childNormal {v : Vars} {pc : ℕ} {last : Bool} {t : FdTable Desc} {d : Desc}
    (hd : t.get (if pc ≠ 1 ∧ last = false then v.kernel.pipeFd1 else 1) = some d)
    (h1 : v.kernel.get 1 ≠ none) (h0 : v.kernel.get 0 ≠ none) :
    (v.childNormal pc v.kernel.pipeFd0 v.kernel.pipeFd1 last t).get 1 = some d := by
  have hp0 : (1 : ℕ) ≠ v.kernel.pipeFd0 := Kernel.ne_pipeFd0 h1
  have hp1 : v.kernel.pipeFd1 ≠ 0 := (Kernel.ne_pipeFd1 h0).symm
  have hdup : ∀ (u : FdTable Desc) {x : ℕ}, x ≠ 0 → (v.dupDue u).get x = u.get x := by
    intro u x hx
    unfold dupDue
    split
    · exact FdTable.get_dup2_of_ne _ hx
    · rfl
  by_cases hc : pc ≠ 1 ∧ last = false
  · obtain ⟨hpc, rfl⟩ := hc
    simp only [hpc, ne_eq, not_false_eq_true, and_self, if_true] at hd
    simp only [childNormal, hpc, ne_eq, not_false_eq_true, if_true, Bool.false_eq_true, if_false]
    refine FdTable.get_dup2_dst _ _ ?_
    rw [FdTable.get_close, if_neg v.kernel.pipeFd1_ne_pipeFd0]
    cases v.numPipeInFlag <;> cases v.namePipeIn <;>
      simp [FdTable.get_dup2_of_ne _ hp1, hdup _ hp1, hd]
  · rw [if_neg hc] at hd
    unfold childNormal
    cases last with
    | true =>
      cases v.numPipeInFlag <;> cases v.namePipeIn <;> by_cases hpc : pc = 1 <;>
        simp [hpc, hdup, FdTable.get_dup2_of_ne, hp0, hd]
    | false =>
      have hpc : pc = 1 := by simpa using hc
      cases v.numPipeInFlag <;> cases v.namePipeIn <;>
        simp [hpc, hdup, FdTable.get_dup2_of_ne, hd]

/-- The standard output of a command that does not write a file. -/
theorem forkProcess_stdout {v : Vars} {opens : Opens} {pc : ℕ} {last : Bool} {d : Desc}
    (hw : (v.writeFileFlag && last) = false)
    (hd : (v.forkKernel pc last).get (v.stdoutFd pc last) = some d)
    (h0 : v.kernel.get 0 ≠ none) (h1 : v.kernel.get 1 ≠ none) (hne : v.stdoutFd pc last ≠ 0) :
    (v.forkProcess opens pc last).2.get 1 = some d := by
  cases hsp : v.special last with
  | false =>
    rw [forkProcess_of_not_special opens pc hsp, forkNormal_snd pc hsp]
    simp only [stdoutFd, hsp, Bool.false_eq_true, if_false] at hd
    exact get_one_childNormal hd h1 h0
  | true =>
    rw [forkKernel_of_special pc hsp] at hd
    have hlast : last = true := by
      cases last with
      | false => simp [special] at hsp
      | true => rfl
    subst hlast
    have hwf : v.writeFileFlag = false := by simpa using hw
    simp only [stdoutFd, hsp, if_true] at hd hne
    unfold forkProcess
    cases hn : v.shockPipeOutFlag || v.numPipeOutFlag with
    | true =>
      simp only [hn, if_true] at hd hne
      simp only [hwf, Bool.false_and, Bool.false_eq_true, if_false, Bool.and_self, if_true,
        forkNumberPipe_snd]
      refine FdTable.get_dup2_dst _ _ ?_
      by_cases hs : v.shockPipeOutFlag = true
      · rw [if_pos hs]
        by_cases h2 : v.pipeOutNum = 2
        · rw [h2] at hd ⊢
          exact FdTable.get_dup2_dst _ _ ((get_childStdin_of_ne (by decide)).trans hd)
        · rw [FdTable.get_dup2_of_ne _ h2]
          exact (get_childStdin_of_ne hne).trans hd
      · rw [if_neg hs]
        exact (get_childStdin_of_ne hne).trans hd
    | false =>
      cases hout : v.namePipeOut with
      | none => simp_all [special]
      | some out =>
        simp only [hn, hout, Option.getD_some, Bool.false_eq_true, if_false] at hd hne
        simp only [hwf, Bool.false_and, Bool.false_eq_true, if_false, forkUserPipe_snd]
        refine FdTable.get_dup2_dst _ _ ((get_childStdin_of_ne hne).trans ?_)
        cases opens.junk with
        | none => exact hd
        | some name =>
          refine (FdTable.get_alloc_of_open _ ?_).trans hd
          rw [show (v.kernel.closeAll v.beforeCloses).fds.get out = some d from hd]
          simp

/-- The standard output of a command that writes a file. -/
theorem forkProcess_file {v : Vars} {opens : Opens} {pc : ℕ} (hw : v.writeFileFlag = true)
    (hopen : opens.redir = true) (h0 : (v.forkKernel pc true).get 0 ≠ none) :
    (v.forkProcess opens pc true).2.get 1 = some (.file (cString v.redirectionFileName)) := by
  have hsp : v.special true = true := by simp [special, hw]
  rw [forkKernel_of_special pc hsp] at h0
  have hlow : (v.kernel.closeAll v.beforeCloses).fds.lowest ≠ 0 := (FdTable.ne_lowest h0).symm
  simp only [forkProcess, hw, Bool.and_self, if_true, forkRedirect_snd, childFile, hopen]
  refine FdTable.get_dup2_dst _ _ ((get_childStdin_of_ne hlow).trans ?_)
  exact FdTable.get_alloc_lowest _ _

/-- The descriptor the child's standard error is copied from. -/
def stderrFd (v : Vars) (last : Bool) : ℕ :=
  if v.shockPipeOutFlag && !v.writeFileFlag && last then v.pipeOutNum else 2

/-- The standard error of the child. -/
theorem forkProcess_stderr {v : Vars} {opens : Opens} {pc : ℕ} {last : Bool} {d : Desc}
    (hd : (v.forkKernel pc last).get (v.stderrFd last) = some d)
    (h2 : v.kernel.get 2 ≠ none) (hne : v.stderrFd last ≠ 0) :
    (v.forkProcess opens pc last).2.get 2 = some d := by
  cases hsp : v.special last with
  | false =>
    rw [forkProcess_of_not_special opens pc hsp, forkNormal_snd pc hsp]
    have hfd : v.stderrFd last = 2 := by
      revert hsp
      unfold special stderrFd
      cases last <;> cases v.shockPipeOutFlag <;> cases v.writeFileFlag <;> simp
    rw [hfd] at hd
    exact (get_childNormal (by decide) (by decide) (Kernel.ne_pipeFd0 h2)).trans hd
  | true =>
    rw [forkKernel_of_special pc hsp] at hd
    have hlast : last = true := by
      cases last with
      | false => simp [special] at hsp
      | true => rfl
    subst hlast
    have hkeep : ∀ (t : FdTable Desc) (x : ℕ), ((v.childStdin t).dup2 x 1).get 2 = t.get 2 := by
      intro t x
      rw [FdTable.get_dup2_of_ne _ (by decide), get_childStdin_of_ne (by decide)]
    unfold forkProcess
    split_ifs with h1 h3
    · have hfd : v.stderrFd true = 2 := by
        have hw : v.writeFileFlag = true := by simpa using h1
        simp [stderrFd, hw]
      rw [hfd] at hd
      have hopen : (v.kernel.closeAll v.beforeCloses).fds.get 2 ≠ none := by
        rw [show (v.kernel.closeAll v.beforeCloses).fds.get 2 = some d from hd]; simp
      rw [forkRedirect_snd, childFile]
      split_ifs
      · rw [hkeep]
        exact (FdTable.get_alloc_of_open _ hopen).trans hd
      · exact (get_childStdin_of_ne (by decide)).trans hd
    · have hw : v.writeFileFlag = false := by simpa using h1
      rw [forkNumberPipe_snd]
      by_cases hs : v.shockPipeOutFlag = true
      · simp only [stderrFd, hs, hw, Bool.not_false, Bool.and_self, if_true] at hd hne
        simp only [hs, if_true]
        rw [FdTable.get_dup2_of_ne _ (by decide)]
        exact FdTable.get_dup2_dst _ _ ((get_childStdin_of_ne hne).trans hd)
      · simp only [stderrFd, hs, Bool.false_and, Bool.false_eq_true, if_false] at hd
        simp only [hs, Bool.false_eq_true, if_false]
        rw [hkeep]
        exact hd
    · have hs : v.shockPipeOutFlag = false := by
        cases h : v.shockPipeOutFlag with
        | true => simp [h] at h3
        | false => rfl
      simp only [stderrFd, hs, Bool.false_and, Bool.false_eq_true, if_false] at hd
      cases hout : v.namePipeOut with
      | none => simp_all [special]
      | some out =>
        simp only
        rw [forkUserPipe_snd, hkeep]
        cases opens.junk with
        | none => exact hd
        | some name =>
          refine (FdTable.get_alloc_of_open _ ?_).trans hd
          rw [show (v.kernel.closeAll v.beforeCloses).fds.get 2 = some d from hd]
          simp

/-- A fork leaves an open descriptor alone unless it is one of those the branch closes. -/
theorem forkProcess_frame {v : Vars} {opens : Opens} {pc x : ℕ} {last : Bool}
    (hx : v.kernel.get x ≠ none) (hb : x ∉ v.beforeCloses) (ha : x ∉ v.afterCloses)
    (hf : x = v.fdIn → pc = 1 ∨ v.special last = false) :
    (v.forkProcess opens pc last).1.kernel.get x = v.kernel.get x := by
  have hp : x ∉ v.pipeCloses pc last := by
    unfold pipeCloses
    split_ifs with h1 h2 h3
    · simp
    · simp only [List.mem_singleton]
      intro h
      simpa [h1, h2] using hf h
    · simp [Kernel.ne_pipeFd0 hx, Kernel.ne_pipeFd1 hx]
    · simp [Kernel.ne_pipeFd1 hx]
  rw [(forkProcess_fst v opens pc last).1, Kernel.get_closeAll, if_neg (by simp [hb, hp, ha])]
  split_ifs
  · exact Kernel.get_pipe_of_open hx
  · rfl

/-- An open descriptor that is not given up before the fork is still open in the child's table. -/
theorem get_forkKernel {v : Vars} {pc x : ℕ} {last : Bool} (hx : v.kernel.get x ≠ none)
    (hb : x ∉ v.beforeCloses) : (v.forkKernel pc last).get x = v.kernel.get x := by
  rw [forkKernel, Kernel.get_closeAll, if_neg hb]
  split_ifs
  · exact Kernel.get_pipe_of_open hx
  · rfl

/-! ### What a child can hold at all -/

/-- The descriptors the child's standard input can be a copy of, in whatever state the shell is. -/
def stdinSources (v : Vars) : List ℕ :=
  0 :: v.fdIn :: (v.numPipeVec.map (·.p0) ++ (v.namePipeIn.map (·.1)).toList)

theorem get_zero_dup2_zero {t : FdTable Desc} {src : ℕ} {d : Desc}
    (h : (t.dup2 src 0).get 0 = some d) : t.get src = some d ∨ t.get 0 = some d := by
  rw [FdTable.get_dup2] at h
  split_ifs at h
  · exact Or.inl h
  · exact Or.inr h

theorem get_zero_dupDue_cases {v : Vars} {t : FdTable Desc} {d : Desc}
    (h : (v.dupDue t).get 0 = some d) : ∃ y ∈ v.stdinSources, t.get y = some d := by
  unfold dupDue at h
  cases hf : v.numPipeVec.find? PipeDead with
  | none =>
    simp only [hf] at h
    exact ⟨0, by simp [stdinSources], h⟩
  | some e =>
    simp only [hf] at h
    rcases get_zero_dup2_zero h with h | h
    · have he := List.mem_of_find?_eq_some hf
      have hmem : e.p0 ∈ v.numPipeVec.map (·.p0) := List.mem_map_of_mem he
      exact ⟨e.p0, by simp [stdinSources, hmem], h⟩
    · exact ⟨0, by simp [stdinSources], h⟩

theorem get_zero_childStdin_cases {v : Vars} {t : FdTable Desc} {d : Desc}
    (h : (v.childStdin t).get 0 = some d) : ∃ y ∈ v.stdinSources, t.get y = some d := by
  have hcopy : ∀ src ∈ v.stdinSources, (t.dup2 src 0).get 0 = some d →
      ∃ y ∈ v.stdinSources, t.get y = some d := by
    intro src hsrc h
    rcases get_zero_dup2_zero h with h | h
    · exact ⟨src, hsrc, h⟩
    · exact ⟨0, by simp [stdinSources], h⟩
  unfold childStdin at h
  split_ifs at h
  · exact get_zero_dupDue_cases h
  · cases hn : v.namePipeIn with
    | none =>
      simp only [hn] at h
      exact hcopy v.fdIn (by simp [stdinSources]) h
    | some np =>
      simp only [hn] at h
      exact hcopy np.1 (by simp [stdinSources, hn]) h

/-- In the child of the ordinary branch, before the normal pipe of the command before is copied. -/
def childRead (v : Vars) (t : FdTable Desc) : FdTable Desc :=
  if v.numPipeInFlag then v.dupDue t
  else match v.namePipeIn with
    | some np => t.dup2 np.1 0
    | none => t

theorem childNormal_eq (v : Vars) (pc p0 p1 : ℕ) (last : Bool) (t : FdTable Desc) :
    v.childNormal pc p0 p1 last t =
      if pc ≠ 1 then
        let u := (if v.numPipeInFlag then v.childRead t else (v.childRead t).dup2 v.fdIn 0).close p0
        if last then u else u.dup2 p1 1
      else v.childRead t := rfl

theorem get_zero_childRead_cases {v : Vars} {t : FdTable Desc} {d : Desc}
    (h : (v.childRead t).get 0 = some d) : ∃ y ∈ v.stdinSources, t.get y = some d := by
  unfold childRead at h
  split_ifs at h
  · exact get_zero_dupDue_cases h
  · cases hn : v.namePipeIn with
    | none =>
      simp only [hn] at h
      exact ⟨0, by simp [stdinSources], h⟩
    | some np =>
      simp only [hn] at h
      rcases get_zero_dup2_zero h with h | h
      · exact ⟨np.1, by simp [stdinSources, hn], h⟩
      · exact ⟨0, by simp [stdinSources], h⟩

theorem get_childRead_of_ne {v : Vars} {t : FdTable Desc} {x : ℕ} (h : x ≠ 0) :
    (v.childRead t).get x = t.get x := by
  unfold childRead dupDue
  split_ifs
  · cases v.numPipeVec.find? PipeDead with
    | none => rfl
    | some e => exact FdTable.get_dup2_of_ne _ h
  · cases v.namePipeIn with
    | none => rfl
    | some np => exact FdTable.get_dup2_of_ne _ h

theorem get_zero_childNormal_cases {v : Vars} {pc p0 p1 : ℕ} {last : Bool} {t : FdTable Desc}
    {d : Desc} (h : (v.childNormal pc p0 p1 last t).get 0 = some d) :
    ∃ y ∈ v.stdinSources, t.get y = some d := by
  have hlate : (if v.numPipeInFlag then v.childRead t else (v.childRead t).dup2 v.fdIn 0).get 0 =
      some d → ∃ y ∈ v.stdinSources, t.get y = some d := by
    intro h
    split_ifs at h
    · exact get_zero_childRead_cases h
    · rcases get_zero_dup2_zero h with h | h
      · by_cases h0 : v.fdIn = 0
        · exact get_zero_childRead_cases (h0 ▸ h)
        · rw [get_childRead_of_ne h0] at h
          exact ⟨v.fdIn, by simp [stdinSources], h⟩
      · exact get_zero_childRead_cases h
  have hclosed : ∀ {u : FdTable Desc}, (u.close p0).get 0 = some d → u.get 0 = some d := by
    intro u h
    rw [FdTable.get_close] at h
    split_ifs at h
    exact h
  rw [childNormal_eq] at h
  dsimp only at h
  by_cases hpc : pc ≠ 1
  · rw [if_pos hpc] at h
    cases last with
    | true => exact hlate (hclosed h)
    | false =>
      rw [if_neg (by decide), FdTable.get_dup2_of_ne _ (by decide)] at h
      exact hlate (hclosed h)
  · rw [if_neg hpc] at h
    exact get_zero_childRead_cases h

/-- Whatever state the shell is in, the child's standard input is a file it opened itself or one of a
    few descriptors of the shell. -/
theorem forkProcess_stdin_cases {v : Vars} {opens : Opens} {pc : ℕ} {last : Bool} {d : Desc}
    (h : (v.forkProcess opens pc last).2.get 0 = some d) :
    (∃ name, d = .file name) ∨ ∃ y ∈ v.stdinSources, (v.forkKernel pc last).get y = some d := by
  cases hsp : v.special last with
  | false =>
    rw [forkProcess_of_not_special opens pc hsp, forkNormal_snd pc hsp] at h
    exact Or.inr (get_zero_childNormal_cases h)
  | true =>
    rw [forkKernel_of_special pc hsp]
    have hlast : last = true := by
      cases last with
      | false => simp [special] at hsp
      | true => rfl
    subst hlast
    set t := (v.kernel.closeAll v.beforeCloses).fds with ht
    have hfile : ∀ name, (v.childStdin (t.alloc (.file name))).get 0 = some d →
        (∃ name, d = .file name) ∨ ∃ y ∈ v.stdinSources, t.get y = some d := by
      intro name h
      obtain ⟨y, hy, h⟩ := get_zero_childStdin_cases h
      rw [FdTable.get_alloc] at h
      split_ifs at h with hlow
      · exact Or.inl ⟨name, (Option.some.inj h).symm⟩
      · exact Or.inr ⟨y, hy, h⟩
    unfold forkProcess at h
    split_ifs at h with h1 h2
    · rw [forkRedirect_snd, childFile] at h
      split_ifs at h
      · rw [FdTable.get_dup2_of_ne _ (by decide)] at h
        exact hfile _ h
      · exact Or.inr (get_zero_childStdin_cases h)
    · rw [forkNumberPipe_snd] at h
      simp only at h
      rw [FdTable.get_dup2_of_ne _ (by decide)] at h
      split_ifs at h
      · rw [FdTable.get_dup2_of_ne _ (by decide)] at h
        exact Or.inr (get_zero_childStdin_cases h)
      · exact Or.inr (get_zero_childStdin_cases h)
    · cases hout : v.namePipeOut with
      | none => simp_all [special]
      | some out =>
        simp only [hout] at h
        rw [forkUserPipe_snd, FdTable.get_dup2_of_ne _ (by decide)] at h
        cases hj : opens.junk with
        | none =>
          simp only [hj] at h
          exact Or.inr (get_zero_childStdin_cases h)
        | some name =>
          simp only [hj] at h
          exact hfile name h

/-- Only pipes with an identity below `n` are open. -/
def Below (n : ℕ) (t : FdTable Desc) : Prop :=
  ∀ x id, t.get x = some (.pipeR id) ∨ t.get x = some (.pipeW id) → id < n

theorem Below.dup2 {n : ℕ} {t : FdTable Desc} (h : Below n t) (src dst : ℕ) :
    Below n (t.dup2 src dst) := by
  intro x id hx
  simp only [FdTable.get_dup2] at hx
  split_ifs at hx
  · exact h src id hx
  · exact h x id hx

theorem Below.close {n : ℕ} {t : FdTable Desc} (h : Below n t) (fd : ℕ) : Below n (t.close fd) := by
  intro x id hx
  simp only [FdTable.get_close] at hx
  split_ifs at hx
  · simp at hx
  · exact h x id hx

theorem Below.file {n : ℕ} {t : FdTable Desc} (h : Below n t) (name : List Char) :
    Below n (t.alloc (.file name)) := by
  intro x id hx
  simp only [FdTable.get_alloc] at hx
  split_ifs at hx
  · simp at hx
  · exact h x id hx

theorem Below.dupDue {n : ℕ} {t : FdTable Desc} (h : Below n t) (v : Vars) : Below n (v.dupDue t) := by
  unfold Vars.dupDue
  cases v.numPipeVec.find? PipeDead with
  | none => exact h
  | some e => exact h.dup2 _ _

theorem Below.childStdin {n : ℕ} {t : FdTable Desc} (h : Below n t) (v : Vars) :
    Below n (v.childStdin t) := by
  unfold Vars.childStdin
  split_ifs
  · exact h.dupDue v
  · cases v.namePipeIn with
    | none => exact h.dup2 _ _
    | some np => exact h.dup2 _ _

theorem Below.childNormal {n : ℕ} {t : FdTable Desc} (h : Below n t) (v : Vars) (pc p0 p1 : ℕ)
    (last : Bool) : Below n (v.childNormal pc p0 p1 last t) := by
  have hw : Below n (v.childRead t) := by
    unfold Vars.childRead
    split_ifs
    · exact h.dupDue v
    · cases v.namePipeIn with
      | none => exact h
      | some np => exact h.dup2 _ _
  have hlate : Below n (if v.numPipeInFlag then v.childRead t
      else (v.childRead t).dup2 v.fdIn 0) := by
    split_ifs
    · exact hw
    · exact hw.dup2 _ _
  rw [childNormal_eq]
  dsimp only
  by_cases hpc : pc ≠ 1
  · rw [if_pos hpc]
    cases last with
    | true => exact hlate.close _
    | false => exact (hlate.close _).dup2 _ _
  · rw [if_neg hpc]
    exact hw

/-- A child only holds pipes that exist. -/
theorem Below.forkProcess {n : ℕ} {v : Vars} {opens : Opens} {pc : ℕ} {last : Bool}
    (h : Below n (v.forkKernel pc last).fds) : Below n (v.forkProcess opens pc last).2 := by
  cases hsp : v.special last with
  | false =>
    rw [forkProcess_of_not_special opens pc hsp, forkNormal_snd pc hsp]
    exact h.childNormal v pc _ _ last
  | true =>
    rw [forkKernel_of_special pc hsp] at h
    have hlast : last = true := by
      cases last with
      | false => simp [special] at hsp
      | true => rfl
    subst hlast
    unfold Vars.forkProcess
    split_ifs with h1 h2
    · rw [forkRedirect_snd, childFile]
      split_ifs
      · exact ((h.file _).childStdin v).dup2 _ _
      · exact h.childStdin v
    · rw [forkNumberPipe_snd]
      refine Below.dup2 ?_ _ _
      split_ifs
      · exact (h.childStdin v).dup2 _ _
      · exact h.childStdin v
    · cases hout : v.namePipeOut with
      | none => simp_all [special]
      | some out =>
        simp only
        rw [forkUserPipe_snd]
        refine Below.dup2 ?_ _ _
        cases opens.junk with
        | none => exact h.childStdin v
        | some name => exact (h.file name).childStdin v

end Vars
end NetProg
