import NetProg.Shell.NumberPipes

/-! Which descriptors the project-1 shell has open at its prompt.

    The shell conserves its descriptors when it holds 0, 1, 2 and both ends of every pending number
    pipe, and nothing else. The ordinary branch makes a pipe for every command and forgets the read
    end of the one before, so a pipeline keeps its balance only when the commands before the last
    leave exactly as many read ends behind as the last one closes. -/

namespace NetProg.Shell

/-- The descriptors of the pending number pipes. -/
def ends (vec : List NumberPipe) : List ℕ := vec.map (·.p0) ++ vec.map (·.p1)

/-- Open are 0, 1, 2 and the ends of the pending number pipes; every `close` so far was on an open
    descriptor other than 0, 1 and 2. -/
def Conserved (v : Vars) : Prop :=
  (∀ fd, v.kernel.get fd ≠ none ↔ fd < 3 ∨ fd ∈ ends v.numPipeVec) ∧
    ∀ c ∈ v.kernel.closes, c.2 = true ∧ 3 ≤ c.1

/-! ### Counting descriptors -/

/-- Open are 0, 1, 2 and the descriptors of `A`, and no `close` so far was wrong. -/
structure Holds (k : Kernel) (A : Finset ℕ) : Prop where
  opened : ∀ fd, k.get fd ≠ none ↔ fd < 3 ∨ fd ∈ A
  ge : ∀ fd ∈ A, 3 ≤ fd
  clean : ∀ c ∈ k.closes, c.2 = true ∧ 3 ≤ c.1

theorem Holds.close {k : Kernel} {A : Finset ℕ} (h : Holds k A) {fd : ℕ} (hfd : fd ∈ A) :
    Holds (k.close fd) (A.erase fd) where
  opened := by
    intro x
    have hge := h.ge fd hfd
    have hx := h.opened x
    rw [Kernel.get_close, Finset.mem_erase]
    by_cases hxf : x = fd
    · simp only [hxf, if_true, ne_eq, not_true_eq_false, false_and, or_false, false_iff]
      omega
    · simpa [hxf] using hx
  ge := fun x hx => h.ge x (Finset.mem_of_mem_erase hx)
  clean := by
    intro c hc
    rw [Kernel.closes_close] at hc
    rcases List.mem_append.mp hc with hc | hc
    · exact h.clean c hc
    · rw [List.mem_singleton] at hc
      subst hc
      exact ⟨Option.isSome_iff_ne_none.mpr ((h.opened fd).mpr (Or.inr hfd)), h.ge fd hfd⟩

/-- Closing different descriptors of `A` takes them out of `A`. -/
theorem Holds.closeAll : ∀ {l : List ℕ} {k : Kernel} {A : Finset ℕ}, Holds k A → l.Nodup →
    (∀ fd ∈ l, fd ∈ A) → Holds (k.closeAll l) (A \ l.toFinset)
  | [], k, A, h, _, _ => by simpa using h
  | fd :: l, k, A, h, hn, hl => by
    obtain ⟨hfd, hn⟩ := List.nodup_cons.mp hn
    have hrest : ∀ x ∈ l, x ∈ A.erase fd := by
      intro x hx
      refine Finset.mem_erase.mpr ⟨?_, hl x (List.mem_cons_of_mem _ hx)⟩
      rintro rfl
      exact hfd hx
    have := (h.close (hl fd (by simp))).closeAll hn hrest
    rwa [show A.erase fd \ l.toFinset = A \ (fd :: l).toFinset by
      rw [List.toFinset_cons, Finset.sdiff_insert, Finset.erase_sdiff_comm]] at this

/-- A descriptor that is not open is not one of the standard ones and not in `A`. -/
theorem Holds.fresh {k : Kernel} {A : Finset ℕ} (h : Holds k A) {fd : ℕ} (hfd : k.get fd = none) :
    3 ≤ fd ∧ fd ∉ A := by
  have := (h.opened fd).not.mp (by simp [hfd])
  rw [not_or] at this
  exact ⟨by omega, this.2⟩

theorem Holds.pipe {k : Kernel} {A : Finset ℕ} (h : Holds k A) :
    Holds k.pipe (A ∪ {k.pipeFd0, k.pipeFd1}) where
  opened := by
    intro x
    have hx := h.opened x
    rw [Kernel.get_pipe]
    by_cases h0 : x = k.pipeFd0
    · simp [h0]
    · by_cases h1 : x = k.pipeFd1
      · subst h1
        simp [h0]
      · simpa [h0, h1] using hx
  ge := by
    intro x hx
    simp only [Finset.mem_union, Finset.mem_insert, Finset.mem_singleton] at hx
    rcases hx with hx | rfl | rfl
    · exact h.ge x hx
    · exact (h.fresh k.get_pipeFd0).1
    · exact (h.fresh k.get_pipeFd1).1
  clean := h.clean

/-- `f = open(...); close(f)`. -/
theorem Holds.open_close {k : Kernel} {A : Finset ℕ} (h : Holds k A) (d : Desc) :
    Holds ((k.alloc d).1.close (k.alloc d).2) A where
  opened := by
    intro x
    have hx := h.opened x
    have hfd := k.get_alloc_fd d
    rw [Kernel.get_close, Kernel.get_alloc]
    by_cases hxf : x = (k.alloc d).2
    · rw [hxf] at hx ⊢
      simpa [hfd] using hx
    · simpa [hxf] using hx
  ge := h.ge
  clean := by
    intro c hc
    rw [Kernel.closes_close] at hc
    rcases List.mem_append.mp hc with hc | hc
    · exact h.clean c hc
    · rw [List.mem_singleton] at hc
      subst hc
      refine ⟨?_, (h.fresh (k.get_alloc_fd d)).1⟩
      rw [Kernel.get_alloc, if_pos rfl]
      rfl

/-- The balance inside a line: `extra` is what is open besides the pending number pipes. -/
structure Balance (v : Vars) (extra : Finset ℕ) : Prop where
  holds : Holds v.kernel ((ends v.numPipeVec).toFinset ∪ extra)
  nodup : (ends v.numPipeVec).Nodup
  disjoint : ∀ fd ∈ extra, fd ∉ ends v.numPipeVec
  noName : v.namePipeIn = none ∧ v.namePipeOut = none

theorem Balance.conserved {v : Vars} (h : Balance v ∅) : Conserved v :=
  ⟨fun fd => by simpa using h.holds.opened fd, h.holds.clean⟩

/-! ### The ends of the pipes that are dropped and kept -/

/-- The number pipes that are not due. -/
def kept (vec : List NumberPipe) : List NumberPipe := vec.filter fun t => !PipeDead t

theorem mem_ends {vec : List NumberPipe} {fd : ℕ} :
    fd ∈ ends vec ↔ ∃ e ∈ vec, fd = e.p0 ∨ fd = e.p1 := by
  simp only [ends, List.mem_append, List.mem_map]
  constructor
  · rintro (⟨e, he, rfl⟩ | ⟨e, he, rfl⟩)
    · exact ⟨e, he, Or.inl rfl⟩
    · exact ⟨e, he, Or.inr rfl⟩
  · rintro ⟨e, he, rfl | rfl⟩
    · exact Or.inl ⟨e, he, rfl⟩
    · exact Or.inr ⟨e, he, rfl⟩

theorem mem_deadOut {v : Vars} {fd : ℕ} :
    fd ∈ v.deadOut ↔ ∃ e ∈ v.numPipeVec, PipeDead e = true ∧ fd = e.p1 := by
  simp only [Vars.deadOut, List.mem_map, List.mem_filter]
  constructor
  · rintro ⟨e, ⟨he, hd⟩, rfl⟩; exact ⟨e, he, hd, rfl⟩
  · rintro ⟨e, he, hd, rfl⟩; exact ⟨e, ⟨he, hd⟩, rfl⟩

theorem mem_deadIn {v : Vars} {fd : ℕ} :
    fd ∈ v.deadIn ↔ ∃ e ∈ v.numPipeVec, PipeDead e = true ∧ fd = e.p0 := by
  simp only [Vars.deadIn, List.mem_map, List.mem_filter]
  constructor
  · rintro ⟨e, ⟨he, hd⟩, rfl⟩; exact ⟨e, he, hd, rfl⟩
  · rintro ⟨e, he, hd, rfl⟩; exact ⟨e, ⟨he, hd⟩, rfl⟩

theorem nodup_ends {vec : List NumberPipe} (h : (ends vec).Nodup) {e e' : NumberPipe}
    (he : e ∈ vec) (he' : e' ∈ vec) :
    (e.p0 = e'.p0 → e = e') ∧ (e.p1 = e'.p1 → e = e') ∧ e.p0 ≠ e'.p1 := by
  obtain ⟨h0, h1, hdisj⟩ := List.nodup_append.mp h
  exact ⟨fun heq => List.inj_on_of_nodup_map h0 he he' heq,
    fun heq => List.inj_on_of_nodup_map h1 he he' heq,
    hdisj _ (List.mem_map_of_mem he) _ (List.mem_map_of_mem he')⟩

/-- What is kept of the pending descriptors is what is not given up. -/
theorem mem_ends_kept {v : Vars} (h : (ends v.numPipeVec).Nodup) (fd : ℕ) :
    fd ∈ ends (kept v.numPipeVec) ↔
      fd ∈ ends v.numPipeVec ∧ fd ∉ v.deadOut ∧ fd ∉ v.deadIn := by
  rw [mem_ends, mem_ends, mem_deadOut, mem_deadIn]
  simp only [kept, List.mem_filter, Bool.not_eq_eq_eq_not, Bool.not_true]
  constructor
  · rintro ⟨e, ⟨he, hlive⟩, hfd⟩
    refine ⟨⟨e, he, hfd⟩, ?_, ?_⟩
    · rintro ⟨e', he', hdead, rfl⟩
      obtain ⟨-, h1, -⟩ := nodup_ends h he he'
      obtain ⟨-, -, h01⟩ := nodup_ends h he he'
      rcases hfd with heq | heq
      · exact h01 heq.symm
      · rw [h1 heq.symm, hdead] at hlive
        cases hlive
    · rintro ⟨e', he', hdead, rfl⟩
      obtain ⟨h0, -, -⟩ := nodup_ends h he he'
      obtain ⟨-, -, h01⟩ := nodup_ends h he' he
      rcases hfd with heq | heq
      · rw [h0 heq.symm, hdead] at hlive
        cases hlive
      · exact h01 heq
  · rintro ⟨⟨e, he, hfd⟩, hout, hin⟩
    refine ⟨e, ⟨he, ?_⟩, hfd⟩
    cases hd : PipeDead e with
    | false => rfl
    | true =>
      rcases hfd with rfl | rfl
      · exact absurd ⟨e, he, hd, rfl⟩ hin
      · exact absurd ⟨e, he, hd, rfl⟩ hout

theorem ends_kept_sublist (vec : List NumberPipe) : (ends (kept vec)).Sublist (ends vec) :=
  (List.filter_sublist.map _).append (List.filter_sublist.map _)

/-- The descriptors given up at a fork are different pipe ends. -/
theorem nodup_dead {v : Vars} (h : (ends v.numPipeVec).Nodup) : (v.deadIn ++ v.deadOut).Nodup :=
  h.sublist ((List.filter_sublist.map _).append (List.filter_sublist.map _))

/-! ### One fork -/

/-- The ends of the normal pipe made for a command. -/
def freshEnds (v : Vars) (pc : ℕ) (last : Bool) : Finset ℕ :=
  if v.makesPipe pc last then {v.kernel.pipeFd0, v.kernel.pipeFd1} else ∅

/-- When every due number pipe has been announced, a fork closes its ends and drops it. -/
theorem closes_of_announced {v : Vars}
    (hdead : ∀ e ∈ v.numPipeVec, PipeDead e = true → v.numPipeInFlag = true)
    (hname : v.namePipeIn = none) :
    v.beforeCloses = v.deadOut ∧ v.afterCloses = v.deadIn ∧ v.keptPipes = kept v.numPipeVec := by
  refine ⟨by simp [Vars.beforeCloses, hname], ?_, ?_⟩
  · simp only [Vars.afterCloses, hname, Option.map_none, Option.toList_none, List.append_nil]
    split_ifs with hf
    · rfl
    · symm
      rw [List.eq_nil_iff_forall_not_mem]
      intro fd hfd
      obtain ⟨e, he, hd, -⟩ := mem_deadIn.mp hfd
      exact hf (hdead e he hd)
  · unfold Vars.keptPipes kept
    split_ifs with hf
    · rfl
    · symm
      rw [List.filter_eq_self]
      intro e he
      cases hd : PipeDead e with
      | false => rfl
      | true => exact absurd (hdead e he hd) hf

/-- The kernel a command is forked from, before anything is closed. -/
theorem Balance.fresh {v : Vars} {extra : Finset ℕ} (h : Balance v extra) (pc : ℕ) (last : Bool) :
    Holds (if v.makesPipe pc last then v.kernel.pipe else v.kernel)
        ((ends v.numPipeVec).toFinset ∪ (extra ∪ freshEnds v pc last)) ∧
      ∀ fd ∈ extra ∪ freshEnds v pc last, fd ∉ ends v.numPipeVec := by
  unfold freshEnds
  split_ifs
  · rw [← Finset.union_assoc]
    refine ⟨h.holds.pipe, ?_⟩
    intro fd hfd
    have hnot : ∀ x, v.kernel.get x = none → x ∉ ends v.numPipeVec := by
      intro x hx hm
      exact (h.holds.fresh hx).2 (Finset.mem_union_left _ (List.mem_toFinset.mpr hm))
    simp only [Finset.mem_union, Finset.mem_insert, Finset.mem_singleton] at hfd
    rcases hfd with hfd | rfl | rfl
    · exact h.disjoint fd hfd
    · exact hnot _ v.kernel.get_pipeFd0
    · exact hnot _ v.kernel.get_pipeFd1
  · rw [Finset.union_empty]
    exact ⟨h.holds, h.disjoint⟩

/-- A fork leaves the number pipes that are not due, and of the rest what its branch keeps. -/
theorem Balance.fork {v : Vars} {extra : Finset ℕ} (h : Balance v extra)
    (hdead : ∀ e ∈ v.numPipeVec, PipeDead e = true → v.numPipeInFlag = true)
    (opens : Opens) (pc : ℕ) (last : Bool) (hnodup : (v.pipeCloses pc last).Nodup)
    (hin : ∀ fd ∈ v.pipeCloses pc last, fd ∈ extra ∪ freshEnds v pc last) :
    Balance (v.forkProcess opens pc last).1
        ((extra ∪ freshEnds v pc last) \ (v.pipeCloses pc last).toFinset) ∧
      (v.forkProcess opens pc last).1.numPipeVec = kept v.numPipeVec := by
  obtain ⟨hker, hvec, -, hname, -, -, -, -, -, -, hnout⟩ := v.forkProcess_fst opens pc last
  obtain ⟨hbefore, hafter, hkept⟩ := closes_of_announced hdead h.noName.1
  obtain ⟨hholds, hdis⟩ := h.fresh pc last
  rw [hbefore, hafter] at hker
  rw [hkept] at hvec
  have hout_ends : ∀ fd ∈ v.deadOut, fd ∈ ends v.numPipeVec := by
    intro fd hfd
    obtain ⟨e, he, -, rfl⟩ := mem_deadOut.mp hfd
    exact mem_ends.mpr ⟨e, he, Or.inr rfl⟩
  have hin_ends : ∀ fd ∈ v.deadIn, fd ∈ ends v.numPipeVec := by
    intro fd hfd
    obtain ⟨e, he, -, rfl⟩ := mem_deadIn.mp hfd
    exact mem_ends.mpr ⟨e, he, Or.inl rfl⟩
  have hclosesNodup : (v.deadOut ++ v.pipeCloses pc last ++ v.deadIn).Nodup := by
    obtain ⟨hn0, hn1, hn01⟩ := List.nodup_append.mp (nodup_dead h.nodup)
    rw [List.nodup_append, List.nodup_append]
    refine ⟨⟨hn1, hnodup, ?_⟩, hn0, ?_⟩
    · rintro a ha b hb rfl
      exact hdis a (hin a hb) (hout_ends a ha)
    · rintro a ha b hb rfl
      rcases List.mem_append.mp ha with ha | ha
      · exact hn01 a hb a ha rfl
      · exact hdis a (hin a ha) (hin_ends a hb)
  have hall : ∀ fd ∈ v.deadOut ++ v.pipeCloses pc last ++ v.deadIn,
      fd ∈ (ends v.numPipeVec).toFinset ∪ (extra ∪ freshEnds v pc last) := by
    intro fd hfd
    simp only [List.mem_append] at hfd
    rcases hfd with (hfd | hfd) | hfd
    · exact Finset.mem_union_left _ (List.mem_toFinset.mpr (hout_ends fd hfd))
    · exact Finset.mem_union_right _ (hin fd hfd)
    · exact Finset.mem_union_left _ (List.mem_toFinset.mpr (hin_ends fd hfd))
  have hset : ((ends v.numPipeVec).toFinset ∪ (extra ∪ freshEnds v pc last)) \
        (v.deadOut ++ v.pipeCloses pc last ++ v.deadIn).toFinset =
      (ends (kept v.numPipeVec)).toFinset ∪
        ((extra ∪ freshEnds v pc last) \ (v.pipeCloses pc last).toFinset) := by
    ext fd
    have hk := mem_ends_kept h.nodup fd
    have hd := hdis fd
    have hc := hin fd
    have ho := hout_ends fd
    have hi := hin_ends fd
    generalize extra ∪ freshEnds v pc last = E at hd hc ⊢
    simp only [Finset.mem_sdiff, Finset.mem_union, List.mem_toFinset, List.mem_append, hk]
    grind
  refine ⟨⟨?_, ?_, ?_, hname, hnout h.noName.2⟩, hvec⟩
  · rw [hker, hvec, ← hset]
    exact hholds.closeAll hclosesNodup hall
  · rw [hvec]
    exact h.nodup.sublist (ends_kept_sublist _)
  · intro fd hfd hm
    rw [hvec] at hm
    exact hdis fd (Finset.mem_sdiff.mp hfd).1 ((ends_kept_sublist _).mem hm)

/-! ### The process loop -/

/-- Whether a command is `printenv` or `setenv`, which fork nothing. -/
def builtin (c : List Token) : Bool :=
  c.head? == some printenvCmd || c.head? == some setenvCmd

/-- How many of the commands are forked. -/
def forks (cmds : List (List Token)) : ℕ := cmds.countP fun c => !builtin c

theorem execProcess_builtin (opens : Opens) (pc : ℕ) (last : Bool) {argv : List Token} (e : Exec)
    (hc : argv ≠ []) (hb : builtin argv = true) :
    ∃ e', execProcess opens pc last argv e = .ok e' ∧ e'.vars = e.vars := by
  obtain ⟨cmd, args, rfl⟩ := List.exists_cons_of_ne_nil hc
  simp only [builtin, List.head?_cons, Bool.or_eq_true, beq_iff_eq, Option.some.injEq] at hb
  rw [execProcess.eq_def]
  rcases hb with rfl | rfl
  · simp only [if_true]
    cases args with
    | nil => exact ⟨_, rfl, rfl⟩
    | cons name rest => cases henv : e.environ name <;> simp [henv]
  · have hne : setenvCmd ≠ printenvCmd := by decide
    simp only [hne, if_false, if_true]
    rcases args with - | ⟨name, - | ⟨value, rest⟩⟩ <;> exact ⟨_, rfl, rfl⟩

theorem external_of_not_builtin {c : List Token} (hc : Command c) (hb : builtin c = false) :
    External c := by
  simp only [builtin, Bool.or_eq_false_iff, beq_eq_false_iff_ne] at hb
  exact ⟨hc, hb.1, hb.2⟩

/-- Where the process loop is before a command of a line of several, after `m` forks: the read end
    of each of the `m` normal pipes is still open, and `fd_in` is one of them. -/
structure Midway (v : Vars) (m : ℕ) (due special : Bool) : Prop where
  balance : ∃ extra : Finset ℕ, Balance v extra ∧ extra.card = m ∧ (1 ≤ m → v.fdIn ∈ extra)
  announced : due = true → ∀ e ∈ v.numPipeVec, PipeDead e = true → v.numPipeInFlag = true
  branch : v.special true = special

/-- A command that is not the last leaves the read end of its normal pipe open. -/
theorem Midway.fork {v : Vars} {m : ℕ} {special : Bool} (h : Midway v m true special)
    (opens : Opens) {pc : ℕ} (hpc : pc ≠ 1) :
    Midway (v.forkProcess opens pc false).1 (m + 1) true special := by
  obtain ⟨extra, hb, hcard, -⟩ := h.balance
  have hns : v.special false = false := rfl
  have hmk : v.makesPipe pc false = true := by simp [Vars.makesPipe, hns, hpc]
  have hcl : v.pipeCloses pc false = [v.kernel.pipeFd1] := by simp [Vars.pipeCloses, hpc, hns]
  have hfr : freshEnds v pc false = {v.kernel.pipeFd0, v.kernel.pipeFd1} := by
    simp [freshEnds, hmk]
  obtain ⟨-, -, -, -, hfd, hsh, -, hwf, hof, -, hno⟩ := v.forkProcess_fst opens pc false
  obtain ⟨hbal, hvec⟩ := hb.fork (h.announced rfl) opens pc false (by simp [hcl])
    (by simp [hcl, hfr])
  have hfresh : ∀ fd, v.kernel.get fd = none → fd ∉ extra := by
    intro fd hfd hm
    exact (hb.holds.fresh hfd).2 (Finset.mem_union_right _ hm)
  have hset : (extra ∪ freshEnds v pc false) \ (v.pipeCloses pc false).toFinset =
      insert v.kernel.pipeFd0 extra := by
    have h1 := hfresh _ v.kernel.get_pipeFd1
    have hne := v.kernel.pipeFd1_ne_pipeFd0
    rw [hfr, hcl]
    ext x
    simp only [Finset.mem_sdiff, Finset.mem_union, Finset.mem_insert, Finset.mem_singleton,
      List.mem_toFinset, List.mem_singleton]
    grind
  rw [hset] at hbal
  rw [if_pos hmk] at hfd
  refine ⟨⟨_, hbal, ?_, fun _ => ?_⟩, fun _ e he hd => ?_, ?_⟩
  · rw [Finset.card_insert_of_notMem (hfresh _ v.kernel.get_pipeFd0), hcard]
  · rw [hfd]
    exact Finset.mem_insert_self _ _
  · rw [hvec, kept, List.mem_filter] at he
    rw [hd] at he
    simp at he
  · rw [← h.branch]
    simp [Vars.special, hwf, hsh, hof, hno hb.noName.2, hb.noName.2]

/-- The last command of a line of several, when the forks before it are as many as it closes. -/
theorem Midway.last {v : Vars} {special : Bool} (h : Midway v (if special then 1 else 0) true special)
    (opens : Opens) {pc : ℕ} (hpc : pc ≠ 1) : Balance (v.forkProcess opens pc true).1 ∅ := by
  obtain ⟨extra, hb, hcard, hfd⟩ := h.balance
  cases special with
  | true =>
    have hcl : v.pipeCloses pc true = [v.fdIn] := by simp [Vars.pipeCloses, hpc, h.branch]
    have hfr : freshEnds v pc true = ∅ := by simp [freshEnds, Vars.makesPipe, h.branch]
    obtain ⟨hbal, -⟩ := hb.fork (h.announced rfl) opens pc true (by simp [hcl])
      (by simpa [hcl] using Finset.mem_union_left _ (hfd le_rfl))
    obtain ⟨x, rfl⟩ := Finset.card_eq_one.mp hcard
    have hx : v.fdIn = x := by simpa using hfd le_rfl
    simpa [hcl, hfr, hx] using hbal
  | false =>
    have hmk : v.makesPipe pc true = true := by simp [Vars.makesPipe, h.branch, hpc]
    have hcl : v.pipeCloses pc true = [v.kernel.pipeFd1, v.kernel.pipeFd0] := by
      simp [Vars.pipeCloses, hpc, h.branch]
    have hfr : freshEnds v pc true = {v.kernel.pipeFd0, v.kernel.pipeFd1} := by
      simp [freshEnds, hmk]
    obtain ⟨hbal, -⟩ := hb.fork (h.announced rfl) opens pc true
      (by simp [hcl, v.kernel.pipeFd1_ne_pipeFd0]) (by simp [hcl, hfr])
    have hempty : extra = ∅ := Finset.card_eq_zero.mp hcard
    have hset : (extra ∪ freshEnds v pc true) \ (v.pipeCloses pc true).toFinset = ∅ := by
      rw [hempty, hfr, hcl]
      ext x
      simp only [Finset.empty_union, Finset.mem_sdiff, Finset.mem_insert, Finset.mem_singleton,
        List.mem_toFinset, List.mem_cons, List.not_mem_nil, or_false, Finset.notMem_empty]
      tauto
    rwa [hset] at hbal

/-- The last command of a line: what the forks before it must number. -/
def due (cmds : List (List Token)) (special : Bool) : ℕ :=
  match cmds.getLast? with
  | some c => if !builtin c && special then 1 else 0
  | none => 0

theorem execAll_balance (opens : Opens) {pc : ℕ} (hpc : pc ≠ 1) {special : Bool} :
    ∀ (rest : List (List Token)) (m : ℕ) (e e' : Exec), rest ≠ [] → (∀ c ∈ rest, Command c) →
      Midway e.vars m (decide (1 ≤ forks rest)) special →
      m + forks rest.dropLast = due rest special →
      execAll opens pc rest e = .ok e' → Balance e'.vars ∅
  | [], _, _, _, h, _, _, _, _ => absurd rfl h
  | [argv], m, e, e', _, hcmd, hm, hdue, hrun => by
    have hc := hcmd argv (by simp)
    rw [execAll, List.isEmpty_nil] at hrun
    cases hb : builtin argv with
    | true =>
      obtain ⟨e₁, he₁, hv⟩ := execProcess_builtin opens pc true e hc.1 hb
      simp only [he₁, execAll, Except.ok.injEq] at hrun
      subst hrun
      simp only [forks, due, List.dropLast_singleton, List.countP_nil, List.getLast?_singleton, hb,
        Bool.not_true, Bool.false_and, Bool.false_eq_true, if_false, Nat.add_zero] at hdue
      obtain ⟨extra, hbal, hcard, -⟩ := hm.balance
      rw [hdue] at hcard
      rw [hv, ← Finset.card_eq_zero.mp hcard]
      exact hbal
    | false =>
      rw [execProcess_external _ _ _ _ (external_of_not_builtin hc hb)] at hrun
      simp only [execAll, Except.ok.injEq] at hrun
      subst hrun
      simp only [forks, due, List.dropLast_singleton, List.countP_nil, List.getLast?_singleton, hb,
        Bool.not_false, Bool.true_and, Nat.add_zero] at hdue
      have hone : decide (1 ≤ forks [argv]) = true := by simp [forks, hb]
      rw [hdue, hone] at hm
      exact hm.last opens hpc
  | argv :: argv' :: rest, m, e, e', _, hcmd, hm, hdue, hrun => by
    have hc := hcmd argv (by simp)
    have hcmd' : ∀ c ∈ argv' :: rest, Command c := fun c h => hcmd c (List.mem_cons_of_mem _ h)
    have hlast : due (argv :: argv' :: rest) special = due (argv' :: rest) special := by
      simp [due, List.getLast?_cons_cons]
    rw [execAll, List.isEmpty_cons] at hrun
    rw [hlast, List.dropLast_cons_cons] at hdue
    cases hb : builtin argv with
    | true =>
      obtain ⟨e₁, he₁, hv⟩ := execProcess_builtin opens pc false e hc.1 hb
      simp only [he₁] at hrun
      have hforks : ∀ l, forks (argv :: l) = forks l := by simp [forks, hb]
      rw [hforks] at hm hdue
      rw [← hv] at hm
      exact execAll_balance opens hpc (argv' :: rest) m e₁ e' (by simp) hcmd' hm hdue hrun
    | false =>
      rw [execProcess_external _ _ _ _ (external_of_not_builtin hc hb)] at hrun
      have hforks : ∀ l, forks (argv :: l) = forks l + 1 := by simp [forks, hb]
      rw [hforks] at hm hdue
      have hone : decide (1 ≤ forks (argv' :: rest) + 1) = true := by simp
      rw [hone] at hm
      have hm' := hm.fork opens hpc
      refine execAll_balance opens hpc (argv' :: rest) (m + 1) _ e' (by simp) hcmd'
        ⟨hm'.balance, fun _ => hm'.announced rfl, hm'.branch⟩ (by omega) hrun

/-! ### One line -/

/-- An input line that reads as the line `l`, whose commands may be builtins. -/
structure ReadsAny (inp : LineInput) (l : Pipeline) : Prop where
  tokens_eq : NetProg.tokens ' ' inp.line = l.tokens
  ok : l.Ok Command

/-- The `N` of a `|N` or `!N` as `atoi` reads it. -/
def Suffix.read : Suffix → Option ℤ
  | pipe ds => some (atoi ds)
  | shock ds => some (atoi ds)
  | _ => Option.none

/-- Whether the last command of the line takes one of the branches that close `fd_in`. -/
def sends (v : Vars) (l : Pipeline) : Bool :=
  v.writeFileFlag || v.shockPipeOutFlag || v.numPipeOutFlag || l.suffix != .none

/-- A line that keeps the balance. A line of one command makes no normal pipe. In a longer one the
    shell loses the read end of each normal pipe but the last, so the commands before the last may
    fork just what the last one closes. A count that `atoi` reads as 0 makes a pipe that is due
    without having been announced. -/
structure LeakFree (v : Vars) (l : Pipeline) : Prop where
  forked : l.cmds.length = 1 ∨ forks l.cmds.dropLast = due l.cmds (sends v l)
  counted : l.suffix.read = some 0 → forks l.cmds = 0 ∨ ∃ e ∈ v.numPipeVec, e.restLine = 1

theorem ends_countdown (v : Vars) : ends v.countdown.numPipeVec = ends v.numPipeVec := by
  simp only [ends, Vars.countdown, List.map_map]
  rfl

theorem Balance.startLine {s : Shell} (inp : LineInput) (h : Balance s.vars ∅)
    (hne : tokens ' ' inp.line ≠ []) : Balance (s.startLine inp) ∅ := by
  rw [Shell.startLine, if_neg hne]
  have hends := ends_countdown
    { s.vars with pipeOutNum := 1, fdIn := 0, redirectionFileName := inp.junk }
  refine ⟨?_, ?_, by simp, h.noName⟩
  · rw [hends]
    exact h.holds
  · rw [hends]
    exact h.nodup

/-- A `|N` or `!N` adds a pipe to the pending ones, or finds one there. -/
theorem Balance.numberPipe {v : Vars} (h : Balance v ∅) (n : ℤ) : Balance (v.numberPipe n) ∅ := by
  unfold Vars.numberPipe
  split
  · exact ⟨h.holds, h.nodup, h.disjoint, h.noName⟩
  · have hnot : ∀ x, v.kernel.get x = none → x ∉ ends v.numPipeVec := by
      intro x hx hm
      exact (h.holds.fresh hx).2 (Finset.mem_union_left _ (List.mem_toFinset.mpr hm))
    have h0 := hnot _ v.kernel.get_pipeFd0
    have h1 := hnot _ v.kernel.get_pipeFd1
    have hne := v.kernel.pipeFd1_ne_pipeFd0
    have hperm : (ends (v.numPipeVec ++ [⟨n, v.kernel.pipeFd0, v.kernel.pipeFd1⟩])).Perm
        (ends v.numPipeVec ++ [v.kernel.pipeFd0, v.kernel.pipeFd1]) := by
      simp only [ends, List.map_append, List.map_cons, List.map_nil, List.append_assoc]
      refine List.Perm.append_left _ ?_
      rw [← List.append_assoc]
      exact (List.perm_append_comm.append_right _).trans (by simp)
    refine ⟨?_, ?_, by simp, h.noName⟩
    · have := h.holds.pipe
      rw [Finset.union_empty] at this ⊢
      rw [List.toFinset_eq_of_perm _ _ hperm, List.toFinset_append]
      rwa [show [v.kernel.pipeFd0, v.kernel.pipeFd1].toFinset =
        {v.kernel.pipeFd0, v.kernel.pipeFd1} by simp]
    · rw [hperm.nodup_iff, List.nodup_append]
      refine ⟨h.nodup, by simp [hne.symm], ?_⟩
      rintro a ha b hb rfl
      simp only [List.mem_cons, List.not_mem_nil, or_false] at hb
      rcases hb with rfl | rfl
      · exact h0 ha
      · exact h1 ha

/-- What `applySuffix` keeps, and which branch it selects. -/
theorem applySuffix_balance {p q : Parsed} {opens : Opens} {suf : Suffix}
    (h : Balance p.vars ∅) (hq : applySuffix opens p suf = some q) :
    Balance q.vars ∅ ∧ q.process = p.process ∧
      q.vars.special true = (p.vars.special true || suf != .none) ∧
      q.vars.numPipeInFlag = p.vars.numPipeInFlag ∧
      ∀ e ∈ q.vars.numPipeVec, e ∈ p.vars.numPipeVec ∨
        (suf.read = some e.restLine ∧ ∀ e' ∈ p.vars.numPipeVec, e'.restLine ≠ e.restLine) := by
  have hnum : ∀ n, (p.vars.numberPipe n).numPipeInFlag = p.vars.numPipeInFlag ∧
      ∀ e ∈ (p.vars.numberPipe n).numPipeVec, e ∈ p.vars.numPipeVec ∨
        (some n = some e.restLine ∧ ∀ e' ∈ p.vars.numPipeVec, e'.restLine ≠ e.restLine) := by
    intro n
    unfold Vars.numberPipe
    split
    · exact ⟨rfl, fun e he => Or.inl he⟩
    · next hfind =>
      refine ⟨rfl, ?_⟩
      intro e he
      rcases List.mem_append.mp he with he | he
      · exact Or.inl he
      · rw [List.mem_singleton] at he
        subst he
        refine Or.inr ⟨rfl, ?_⟩
        intro e' he' heq
        have := List.find?_eq_none.mp hfind e' he'
        simp [heq] at this
  cases suf with
  | none =>
    simp only [applySuffix, Option.some.injEq] at hq
    subst hq
    exact ⟨h, rfl, by simp, rfl, fun e he => Or.inl he⟩
  | pipe ds =>
    simp only [applySuffix, Option.some.injEq] at hq
    subst hq
    obtain ⟨hb, hrd, hdis, hno⟩ := h.numberPipe (atoi ds)
    refine ⟨⟨hb, hrd, hdis, hno⟩, rfl, ?_, hnum _⟩
    simp [Parsed.pipeOut, Vars.special]
  | shock ds =>
    simp only [applySuffix, Option.some.injEq] at hq
    subst hq
    obtain ⟨hb, hrd, hdis, hno⟩ := h.numberPipe (atoi ds)
    refine ⟨⟨hb, hrd, hdis, hno⟩, rfl, ?_, hnum _⟩
    simp [Parsed.pipeOut, Vars.special]
  | file name =>
    simp only [applySuffix, Option.map_eq_some_iff] at hq
    obtain ⟨v, hv, rfl⟩ := hq
    unfold Vars.createFile at hv
    cases hbuf : strncpy p.vars.redirectionFileName name with
    | none => simp [hbuf] at hv
    | some buf =>
      simp only [hbuf] at hv
      split_ifs at hv
      · simp only [Option.some.injEq] at hv
        subst hv
        exact ⟨⟨h.holds.open_close _, h.nodup, h.disjoint, h.noName⟩, rfl, by simp [Vars.special],
          rfl, fun e he => Or.inl he⟩
      · simp only [Option.some.injEq] at hv
        subst hv
        exact ⟨⟨h.holds, h.nodup, h.disjoint, h.noName⟩, rfl, by simp [Vars.special],
          rfl, fun e he => Or.inl he⟩

/-- A single command, which has no normal pipe. -/
theorem execProcess_single {opens : Opens} {argv : List Token} {e e' : Exec} (hc : Command argv)
    (h : Balance e.vars ∅)
    (hdead : builtin argv = false → ∀ t ∈ e.vars.numPipeVec, PipeDead t = true →
      e.vars.numPipeInFlag = true)
    (hrun : execProcess opens 1 true argv e = .ok e') : Balance e'.vars ∅ := by
  cases hb : builtin argv with
  | true =>
    obtain ⟨e₁, he₁, hv⟩ := execProcess_builtin opens 1 true e hc.1 hb
    simp only [he₁, Except.ok.injEq] at hrun
    subst hrun
    rwa [hv]
  | false =>
    rw [execProcess_external _ _ _ _ (external_of_not_builtin hc hb)] at hrun
    simp only [Except.ok.injEq] at hrun
    subst hrun
    have hcl : e.vars.pipeCloses 1 true = [] := by simp [Vars.pipeCloses]
    obtain ⟨hbal, -⟩ := h.fork (hdead hb) opens 1 true (by simp [hcl]) (by simp [hcl])
    have hempty : (∅ ∪ freshEnds e.vars 1 true) \ (e.vars.pipeCloses 1 true).toFinset = ∅ := by
      simp [hcl, freshEnds, Vars.makesPipe]
    rwa [hempty] at hbal

/-- A line that is leak-free leads from one balanced prompt to the next. -/
theorem line_balance {s s' : Shell} {inp : LineInput} {l : Pipeline} {sp : List Spawn} {w : Bool}
    (h : Balance s.vars ∅) (hr : ReadsAny inp l) (hl : LeakFree s.vars l)
    (hrun : s.line inp = .ok (s', sp, w)) : Balance s'.vars ∅ := by
  have hne : tokens ' ' inp.line ≠ [] := by
    obtain ⟨c, cs, hc⟩ := List.exists_cons_of_ne_nil hr.ok.cmds_ne
    have hcne : c ≠ [] := (hr.ok.cmds_ok c (by simp [hc])).1
    rw [hr.tokens_eq]
    cases cs <;> simp [Pipeline.tokens, hc, joinCmds, hcne]
  have hstart := h.startLine inp hne
  have hv : s.startLine inp = Vars.countdown
      { s.vars with pipeOutNum := 1, fdIn := 0, redirectionFileName := inp.junk } := by
    rw [Shell.startLine, if_neg hne]
  -- the suffix
  have hparse := combine_tokens (fun _ hc => hc) inp.opens hr.ok ⟨s.startLine inp, [], false⟩
  rw [← hr.tokens_eq, ← parse, List.nil_append] at hparse
  cases happ : applySuffix inp.opens ⟨s.startLine inp, l.cmds, false⟩ l.suffix with
  | none => simp [line, hparse, happ] at hrun
  | some q =>
    obtain ⟨hq, hproc, hspecial, hflag, hmem⟩ := applySuffix_balance hstart happ
    have hann : 1 ≤ forks l.cmds → ∀ e ∈ q.vars.numPipeVec, PipeDead e = true →
        q.vars.numPipeInFlag = true := by
      intro hforks e he hd
      have hzero : e.restLine = 0 := by simpa [PipeDead] using hd
      have hany : ∀ t ∈ (s.startLine inp).numPipeVec, PipeDead t = true →
          q.vars.numPipeInFlag = true := by
        intro t ht htd
        rw [hflag, hv]
        rw [hv] at ht
        simp only [Vars.countdown, Bool.or_eq_true, List.any_eq_true]
        exact Or.inr ⟨t, ht, htd⟩
      rcases hmem e he with he | ⟨hread, hfresh⟩
      · exact hany e he hd
      · rw [hzero] at hread hfresh
        rcases hl.counted hread with hno | ⟨t, ht, hone⟩
        · omega
        · refine absurd ?_ (hfresh { t with restLine := t.restLine - 1 } ?_)
          · simp [hone]
          · rw [hv]
            exact List.mem_map_of_mem ht
    have hsends : q.vars.special true = sends s.vars l := by
      rw [hspecial, hv]
      simp [Vars.special, Vars.countdown, sends, h.noName.2]
    -- the process loop
    rw [happ] at hparse
    simp only [line, hparse] at hrun
    have hqp : q.process = l.cmds := hproc
    rw [hqp] at hrun
    cases hexec : execAll inp.opens l.cmds.length l.cmds ⟨q.vars, s.environ, [], []⟩ with
    | error halt => simp [hexec] at hrun
    | ok e =>
      simp only [hexec, Except.ok.injEq, Prod.mk.injEq] at hrun
      obtain ⟨rfl, -, -⟩ := hrun
      by_cases hone : l.cmds.length = 1
      · obtain ⟨argv, hargv⟩ := List.length_eq_one_iff.mp hone
        have hc : Command argv := hr.ok.cmds_ok argv (by simp [hargv])
        rw [hone, hargv, execAll, List.isEmpty_nil] at hexec
        cases hp : execProcess inp.opens 1 true argv ⟨q.vars, s.environ, [], []⟩ with
        | error halt => simp [hp] at hexec
        | ok e₁ =>
          simp only [hp, execAll, Except.ok.injEq] at hexec
          subst hexec
          refine execProcess_single hc hq (fun hb => hann ?_) hp
          simp [hargv, forks, hb]
      · have hmid : Midway q.vars 0 (decide (1 ≤ forks l.cmds)) (sends s.vars l) :=
          ⟨⟨∅, hq, rfl, by simp⟩, fun hd => hann (by simpa using hd), hsends⟩
        have hdue : 0 + forks l.cmds.dropLast = due l.cmds (sends s.vars l) := by
          rcases hl.forked with h1 | h1
          · exact absurd h1 hone
          · rw [Nat.zero_add, h1]
        exact execAll_balance inp.opens hone l.cmds 0 _ e hr.ok.cmds_ne hr.ok.cmds_ok hmid hdue
          hexec

/-! ### Whole sessions -/

/-- The shell at each prompt of a session over some lines. -/
def prompts : Shell → List LineInput → List Shell
  | s, [] => [s]
  | s, inp :: rest =>
    s :: match s.line inp with
      | .ok (s', _, _) => prompts s' rest
      | .error _ => []

/-- Every line the session executes is leak-free at its prompt. -/
def LeakFreeRun : Shell → List LineInput → List Pipeline → Prop
  | s, inp :: rest, l :: ls =>
    LeakFree s.vars l ∧ match s.line inp with
      | .ok (s', _, _) => LeakFreeRun s' rest ls
      | .error _ => True
  | _, _, _ => True

theorem prompts_balance : ∀ {ins : List LineInput} {ls : List Pipeline} {s : Shell},
    Balance s.vars ∅ → List.Forall₂ ReadsAny ins ls → LeakFreeRun s ins ls →
    ∀ p ∈ s.prompts ins, Balance p.vars ∅
  | [], ls, s, h, _, _, p, hp => by
    rw [prompts, List.mem_singleton] at hp
    rwa [hp]
  | inp :: ins, ls, s, h, hr, hl, p, hp => by
    cases hr with
    | @cons _ l _ ls hline hrest =>
      rw [LeakFreeRun] at hl
      rw [prompts, List.mem_cons] at hp
      rcases hp with rfl | hp
      · exact h
      · cases hrun : s.line inp with
        | error halt => simp [hrun] at hp
        | ok r =>
          obtain ⟨s', sp, w⟩ := r
          simp only [hrun] at hp hl
          exact prompts_balance (line_balance h hline hl.1 hrun) hrest hl.2 p hp

theorem balance_init (environ : Environ) : Balance (Shell.init environ).vars ∅ where
  holds := by
    refine ⟨?_, by simp [Shell.init, ends], by simp [Shell.init]⟩
    intro fd
    rcases fd with _ | _ | _ | fd <;> simp [Shell.init, Kernel.get, FdTable.get, ends]
  nodup := by simp [Shell.init, ends]
  disjoint := by simp
  noName := ⟨rfl, rfl⟩

/-- In a session whose lines are all leak-free, the shell holds at every prompt 0, 1, 2 and the ends
    of the pending number pipes, and every `close` was on a descriptor of its own. -/
theorem descriptors_conserved (environ : Environ) (ins : List LineInput) (ls : List Pipeline)
    (hr : List.Forall₂ ReadsAny ins ls) (hl : LeakFreeRun (Shell.init environ) ins ls) :
    ∀ p ∈ (Shell.init environ).prompts ins, Conserved p.vars :=
  fun p hp => (prompts_balance (balance_init environ) hr hl p hp).conserved

/-- `ls | cat |1`: the number-pipe branch closes the read end that the first command left. -/
def lsCatPiped : LineInput :=
  plainInput ['l', 's', ' ', '|', ' ', 'c', 'a', 't', ' ', '|', '1']

theorem descriptors_conserved_ls_cat :
    ((Shell.init fun _ => none).prompts [lsCatPiped]).length = 2 ∧
      ∀ p ∈ (Shell.init fun _ => none).prompts [lsCatPiped], Conserved p.vars := by
  refine ⟨by decide, descriptors_conserved _ _ [⟨[[['l', 's']], [['c', 'a', 't']]], .pipe ['1']⟩]
    (.cons ⟨by decide, by decide⟩ .nil) ⟨⟨by decide, by decide⟩, ?_⟩⟩
  split
  · exact trivial
  · exact trivial

/-- `ls | cat`: the read end of the first normal pipe is still open at the next prompt. -/
theorem descriptors_leak :
    List.Forall₂ ReadsAny [plainInput ['l', 's', ' ', '|', ' ', 'c', 'a', 't']]
        [⟨[[['l', 's']], [['c', 'a', 't']]], .none⟩] ∧
      ¬ ∀ p ∈ (Shell.init fun _ => none).prompts
        [plainInput ['l', 's', ' ', '|', ' ', 'c', 'a', 't']], Conserved p.vars := by
  refine ⟨.cons ⟨by decide, by decide⟩ .nil, fun h => ?_⟩
  have hopen : ∃ p ∈ (Shell.init fun _ => none).prompts
      [plainInput ['l', 's', ' ', '|', ' ', 'c', 'a', 't']],
      p.vars.kernel.get 3 ≠ none ∧ ends p.vars.numPipeVec = [] := by
    refine ⟨_, List.mem_cons_of_mem _ (List.mem_cons_self ..), ?_⟩
    decide
  obtain ⟨p, hp, hget, hends⟩ := hopen
  rcases ((h p hp).1 3).mp hget with hlt | hmem
  · omega
  · simp [hends] at hmem

end NetProg.Shell
