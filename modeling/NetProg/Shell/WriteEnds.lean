import NetProg.Shell.Transcript
import NetProg.Wiring

/-! Which write ends the project-1 shell and its children hold, between any two steps of a session.

    The end of a pipe is seen only when nobody holds its write end any more. Between two forks the shell
    holds the write ends of the pending number pipes and no others, and it gives up that of the line it
    is about to execute before the first fork; so whoever else holds the write end of a pipe was forked
    before its reader. -/

namespace NetProg

/-- The pipes whose write end is held are among those of `P`. -/
def OnlyWrites (P : ℕ → Prop) (t : FdTable Desc) : Prop := ∀ x id, t.get x = some (.pipeW id) → P id

namespace OnlyWrites

variable {P : ℕ → Prop} {t : FdTable Desc}

theorem dup2 (h : OnlyWrites P t) (src dst : ℕ) : OnlyWrites P (t.dup2 src dst) := by
  intro x id hx
  simp only [FdTable.get_dup2] at hx
  split_ifs at hx
  · exact h src id hx
  · exact h x id hx

theorem close (h : OnlyWrites P t) (fd : ℕ) : OnlyWrites P (t.close fd) := by
  intro x id hx
  simp only [FdTable.get_close] at hx
  split_ifs at hx
  exact h x id hx

theorem file (h : OnlyWrites P t) (name : List Char) : OnlyWrites P (t.alloc (.file name)) := by
  intro x id hx
  simp only [FdTable.get_alloc] at hx
  split_ifs at hx
  · cases hx
  · exact h x id hx

theorem dupDue (h : OnlyWrites P t) (v : Vars) : OnlyWrites P (v.dupDue t) := by
  unfold Vars.dupDue
  cases v.numPipeVec.find? PipeDead with
  | none => exact h
  | some e => exact h.dup2 _ _

theorem childStdin (h : OnlyWrites P t) (v : Vars) : OnlyWrites P (v.childStdin t) := by
  unfold Vars.childStdin
  split_ifs
  · exact h.dupDue v
  · cases v.namePipeIn with
    | none => exact h.dup2 _ _
    | some np => exact h.dup2 _ _

theorem childRead (h : OnlyWrites P t) (v : Vars) : OnlyWrites P (v.childRead t) := by
  unfold Vars.childRead
  split_ifs
  · exact h.dupDue v
  · cases v.namePipeIn with
    | none => exact h
    | some np => exact h.dup2 _ _

theorem childNormal (h : OnlyWrites P t) (v : Vars) (pc p0 p1 : ℕ) (last : Bool) :
    OnlyWrites P (v.childNormal pc p0 p1 last t) := by
  have hlate : OnlyWrites P (if v.numPipeInFlag then v.childRead t else (v.childRead t).dup2 v.fdIn 0) := by
    split_ifs
    · exact h.childRead v
    · exact (h.childRead v).dup2 _ _
  rw [Vars.childNormal_eq]
  dsimp only
  rcases eq_or_ne pc 1 with hpc | hpc
  · rw [if_neg (not_not.2 hpc)]
    exact h.childRead v
  · rw [if_pos hpc]
    cases last with
    | true => exact hlate.close _
    | false => exact (hlate.close _).dup2 _ _

/-- A child holds no write end that the shell did not hold at the fork. -/
theorem forkProcess {v : Vars} {opens : Opens} {pc : ℕ} {last : Bool}
    (h : OnlyWrites P (v.forkKernel pc last).fds) : OnlyWrites P (v.forkProcess opens pc last).2 := by
  cases hsp : v.special last with
  | false =>
    rw [Vars.forkProcess_of_not_special opens pc hsp, Vars.forkNormal_snd pc hsp]
    exact h.childNormal v pc _ _ last
  | true =>
    rw [Vars.forkKernel_of_special pc hsp] at h
    obtain rfl : last = true := by
      cases last with
      | false => simp [Vars.special] at hsp
      | true => rfl
    unfold Vars.forkProcess
    split_ifs with h1 h2
    · rw [Vars.forkRedirect_snd, Vars.childFile]
      split_ifs
      · exact ((h.file _).childStdin v).dup2 _ _
      · exact h.childStdin v
    · rw [Vars.forkNumberPipe_snd]
      refine OnlyWrites.dup2 ?_ _ _
      split_ifs
      · exact (h.childStdin v).dup2 _ _
      · exact h.childStdin v
    · cases hout : v.namePipeOut with
      | none => simp_all [Vars.special]
      | some out =>
        simp only
        rw [Vars.forkUserPipe_snd]
        refine OnlyWrites.dup2 ?_ _ _
        cases opens.junk with
        | none => exact h.childStdin v
        | some name => exact (h.file name).childStdin v

end OnlyWrites

namespace Vars

/-- At a fork the child gets the write ends that the shell has not given up before it, and that of the new
    normal pipe. -/
theorem write_forkKernel {v : Vars} {pc : ℕ} {last : Bool} {x id : ℕ}
    (hx : (v.forkKernel pc last).get x = some (.pipeW id)) :
    (x ∉ v.beforeCloses ∧ v.kernel.get x = some (.pipeW id)) ∨ id = v.kernel.pipes := by
  rw [forkKernel, Kernel.get_closeAll] at hx
  split_ifs at hx with hmem hmake
  · rw [Kernel.get_pipe] at hx
    split_ifs at hx with h0 h1
    · cases hx
    · cases hx
      exact .inr rfl
    · exact .inl ⟨hmem, hx⟩
  · exact .inl ⟨hmem, hx⟩

/-- After a fork the shell holds the write ends that it had not given up. -/
theorem write_fork {v : Vars} {opens : Opens} {pc : ℕ} {last : Bool} {x id : ℕ}
    (hx : (v.forkProcess opens pc last).1.kernel.get x = some (.pipeW id)) :
    x ∉ v.beforeCloses ∧ v.kernel.get x = some (.pipeW id) := by
  obtain ⟨hker, -⟩ := forkProcess_fst v opens pc last
  rw [hker, Kernel.get_closeAll] at hx
  split_ifs at hx with hmem hmake
  · obtain ⟨hsp, hpc⟩ : v.special last = false ∧ pc ≠ 1 := by simpa [makesPipe] using hmake
    simp only [List.mem_append, not_or] at hmem
    rw [Kernel.get_pipe] at hx
    split_ifs at hx with h0 h1
    · cases hx
    · -- the write end of the normal pipe is closed right after the fork
      refine absurd ?_ hmem.1.2
      cases last <;> simp [pipeCloses, hpc, hsp, h1]
    · exact ⟨hmem.1.1, hx⟩
  · simp only [List.mem_append, not_or] at hmem
    exact ⟨hmem.1.1, hx⟩

/-- Every write end the shell holds is that of a pending number pipe. -/
def Tidy (v : Vars) : Prop := ∀ x id, v.kernel.get x = some (.pipeW id) → ∃ e ∈ v.numPipeVec, e.p1 = x

namespace Tidy

variable {v w : Vars}

theorem congr (h : Tidy v) (hvec : w.numPipeVec = v.numPipeVec) (hker : w.kernel = v.kernel) : Tidy w := by
  rw [Tidy, hvec, hker]
  exact h

theorem countdown (h : Tidy v) : Tidy v.countdown := by
  intro x id hx
  obtain ⟨e, he, hex⟩ := h x id hx
  exact ⟨_, List.mem_map_of_mem he, hex⟩

/-- A write end that is not given up belongs to a number pipe that is not due. -/
theorem alive (h : Tidy v) (hname : v.namePipeIn = none) {x id : ℕ} (hmem : x ∉ v.beforeCloses)
    (hx : v.kernel.get x = some (.pipeW id)) : ∃ e ∈ v.numPipeVec, e.p1 = x ∧ PipeDead e = false := by
  obtain ⟨e, he, hex⟩ := h x id hx
  refine ⟨e, he, hex, ?_⟩
  by_contra hdead
  refine hmem ?_
  rw [beforeCloses, hname, Option.map_none, Option.toList_none, List.append_nil, deadOut]
  exact List.mem_map.2 ⟨e, List.mem_filter.2 ⟨he, by simpa using hdead⟩, hex⟩

theorem fork (h : Tidy v) (hname : v.namePipeIn = none) (opens : Opens) (pc : ℕ) (last : Bool) :
    Tidy (v.forkProcess opens pc last).1 := by
  intro x id hx
  obtain ⟨hmem, hget⟩ := write_fork hx
  obtain ⟨e, he, hex, halive⟩ := h.alive hname hmem hget
  obtain ⟨-, hvec, -⟩ := forkProcess_fst v opens pc last
  refine ⟨e, ?_, hex⟩
  rw [hvec, keptPipes]
  split_ifs
  · exact List.mem_filter.2 ⟨he, by simp [halive]⟩
  · exact he

theorem numberPipe (h : Tidy v) (n : ℤ) : Tidy (v.numberPipe n) := by
  unfold Vars.numberPipe
  split
  · exact h.congr rfl rfl
  · intro x id hx
    simp only at hx ⊢
    rw [Kernel.get_pipe] at hx
    split_ifs at hx with h0 h1
    · cases hx
    · exact ⟨_, List.mem_append_right _ (List.mem_singleton_self _), h1.symm⟩
    · obtain ⟨e, he, hex⟩ := h x id hx
      exact ⟨e, List.mem_append_left _ he, hex⟩

theorem createFile {opens : Opens} {name : Token} (h : Tidy v) (hw : v.createFile opens name = some w) :
    Tidy w := by
  unfold Vars.createFile at hw
  split at hw
  · cases hw
  · simp only at hw
    split_ifs at hw
    · obtain rfl := Option.some.inj hw
      intro x id hx
      simp only [Kernel.get_close, Kernel.get_alloc] at hx
      split_ifs at hx
      exact h x id hx
    · obtain rfl := Option.some.inj hw
      exact h.congr rfl rfl

end Tidy
end Vars

namespace Shell

theorem tidy_applySuffix {opens : Opens} {p q : Parsed} {suf : Suffix} (h : p.vars.Tidy)
    (hq : applySuffix opens p suf = some q) : q.vars.Tidy := by
  cases suf with
  | none =>
    obtain rfl := Option.some.inj hq
    exact h
  | pipe ds =>
    obtain rfl := Option.some.inj hq
    exact (h.numberPipe (atoi ds)).congr rfl rfl
  | shock ds =>
    obtain rfl := Option.some.inj hq
    exact (h.numberPipe (atoi ds)).congr rfl rfl
  | file name =>
    simp only [applySuffix, Option.map_eq_some_iff] at hq
    obtain ⟨v, hv, rfl⟩ := hq
    exact h.createFile hv

/-- What a line adds to the write ends of the shell are those of new pipes. -/
theorem write_numberPipe {v : Vars} {n : ℤ} {x id : ℕ}
    (hx : (v.numberPipe n).kernel.get x = some (.pipeW id)) :
    v.kernel.get x = some (.pipeW id) ∨ id = v.kernel.pipes := by
  unfold Vars.numberPipe at hx
  split at hx
  · exact .inl hx
  · simp only at hx
    rw [Kernel.get_pipe] at hx
    split_ifs at hx
    · cases hx
    · cases hx
      exact .inr rfl
    · exact .inl hx

theorem pipes_le_numberPipe (v : Vars) (n : ℤ) : v.kernel.pipes ≤ (v.numberPipe n).kernel.pipes := by
  unfold Vars.numberPipe
  split
  · exact le_rfl
  · exact Nat.le_succ _

theorem write_createFile {v w : Vars} {opens : Opens} {name : Token} (hw : v.createFile opens name = some w)
    {x id : ℕ} (hx : w.kernel.get x = some (.pipeW id)) : v.kernel.get x = some (.pipeW id) := by
  unfold Vars.createFile at hw
  split at hw
  · cases hw
  · simp only at hw
    split_ifs at hw
    · obtain rfl := Option.some.inj hw
      simp only [Kernel.get_close, Kernel.get_alloc] at hx
      split_ifs at hx
      exact hx
    · obtain rfl := Option.some.inj hw
      exact hx

theorem pipes_createFile {v w : Vars} {opens : Opens} {name : Token} (hw : v.createFile opens name = some w) :
    w.kernel.pipes = v.kernel.pipes := by
  unfold Vars.createFile at hw
  split at hw
  · cases hw
  · simp only at hw
    split_ifs at hw
    · obtain rfl := Option.some.inj hw
      rfl
    · obtain rfl := Option.some.inj hw
      rfl

theorem write_applySuffix {opens : Opens} {p q : Parsed} {suf : Suffix} (hq : applySuffix opens p suf = some q) :
    p.vars.kernel.pipes ≤ q.vars.kernel.pipes ∧ ∀ x id, q.vars.kernel.get x = some (.pipeW id) →
      p.vars.kernel.get x = some (.pipeW id) ∨ id = p.vars.kernel.pipes := by
  cases suf with
  | none =>
    obtain rfl := Option.some.inj hq
    exact ⟨le_rfl, fun _ _ => .inl⟩
  | pipe ds =>
    obtain rfl := Option.some.inj hq
    exact ⟨pipes_le_numberPipe _ _, fun _ _ => write_numberPipe⟩
  | shock ds =>
    obtain rfl := Option.some.inj hq
    exact ⟨pipes_le_numberPipe _ _, fun _ _ => write_numberPipe⟩
  | file name =>
    simp only [applySuffix, Option.map_eq_some_iff] at hq
    obtain ⟨v, hv, rfl⟩ := hq
    exact ⟨(pipes_createFile hv).ge, fun _ _ hx => .inl (write_createFile hv hx)⟩

/-- Where the next command reads from a pipe, the shell keeps no write end of that pipe over the fork. -/
theorem Turning.source_closed {pre : List Pipeline} {c : ℕ} {U : Set APipe} {ρ : APipe → ℕ} {v : Vars}
    (h : Turning .alone (pre.length + 1) c U ρ v) (ht : v.Tidy)
    (hpre : .num (pre.length + 1) ∈ U ↔ Targets pre (pre.length + 1)) (opens : Opens) {pc : ℕ} {last : Bool}
    (hpc : pc = 1 → c = 0) {id : ℕ} (hs : (v.forkProcess opens pc last).2.get 0 = some (.pipeR id)) :
    id < v.kernel.pipes ∧ ∀ x, x ∉ v.beforeCloses → v.kernel.get x ≠ some (.pipeW id) := by
  obtain ⟨hin, h0⟩ := h.stdin rfl hpre opens last hpc
  rw [h0, Option.some.injEq] at hs
  -- the pipe is that of the line, or the one behind the command before
  have hpipe : ∃ p ∈ U, ρ p = id ∧ ∀ m, 1 ≤ m → p ≠ .num (pre.length + 1 + m) := by
    cases c with
    | zero =>
      simp only [stdinEnd] at hs hin
      split_ifs at hs hin with hT
      · refine ⟨.num (pre.length + 1), hin, Desc.pipeR.inj hs, fun m hm heq => ?_⟩
        rw [APipe.num.injEq] at heq
        omega
      · cases hs
    | succ c =>
      refine ⟨.normal (pre.length + 1) c, hin, Desc.pipeR.inj hs, fun m _ heq => ?_⟩
      cases heq
  obtain ⟨p, hp, rfl, hnum⟩ := hpipe
  refine ⟨h.counting.named.lt p hp, fun x hx hget => ?_⟩
  obtain ⟨e, he, rfl, halive⟩ := ht.alive h.counting.noName.1 hx hget
  obtain ⟨m, hm, -, hmem, -, h1⟩ := h.counting.entry e he
  have hm1 : 1 ≤ m := by
    rcases Nat.eq_zero_or_pos m with rfl | hpos
    · simp [PipeDead, hm] at halive
    · exact hpos
  rw [hget, Option.some.injEq, Desc.pipeW.injEq] at h1
  exact hnum m hm1 (h.counting.named.inj hp hmem h1)

end Shell
end NetProg
