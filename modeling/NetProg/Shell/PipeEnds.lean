import NetProg.Shell.Descriptors
import NetProg.Wiring

/-! Which ends of its pipes a child of the project-1 shell holds.

    A child inherits every descriptor of the shell, so an end it must not hold has to be closed in the
    shell before the fork or in the child after it. The ordinary branch closes the read end of the pipe
    it writes to in the child, and the shell holds no write end when the next command is forked; the
    branch for `|N` and `!N` closes nothing in the child. -/

namespace NetProg.Shell

/-- A command of any length that is not `exit`. -/
def Lasting (c : List Token) : Prop :=
  c ≠ [] ∧ (∀ t ∈ c, ordinary t = true) ∧ c.head? ≠ some exitCmd

/-- A command of any length that is not a builtin. -/
def Foreign (c : List Token) : Prop :=
  Lasting c ∧ c.head? ≠ some printenvCmd ∧ c.head? ≠ some setenvCmd

instance (c : List Token) : Decidable (Lasting c) := inferInstanceAs (Decidable (_ ∧ _))
instance (c : List Token) : Decidable (Foreign c) := inferInstanceAs (Decidable (_ ∧ _))

/-- An input line that reads as commands of some kind joined by `|`, with `|N`, `!N` or nothing behind. -/
structure ReadsPipes (kind : List Token → Prop) (inp : LineInput) (l : Pipeline) : Prop where
  tokens_eq : tokens ' ' inp.line = l.tokens
  ok : l.Ok kind
  piped : ∀ name, l.suffix ≠ .file name

theorem combine_lasting {kind : List Token → Prop} (hkind : ∀ c, kind c → Lasting c) (opens : Opens)
    {l : Pipeline} (h : l.Ok kind) (p : Parsed) :
    combine opens l.tokens [] p =
      match applySuffix opens { p with process := p.process ++ l.cmds } l.suffix with
      | some q => .ok q
      | none => .error .crashed :=
  combine_words opens p
    ⟨h.cmds_ne, fun c hc => ⟨(hkind c (h.cmds_ok c hc)).1, (hkind c (h.cmds_ok c hc)).2.1⟩, h.suffix_ok⟩

theorem execProcess_foreign (opens : Opens) (pc : ℕ) (last : Bool) {argv : List Token} (e : Exec)
    (h : Foreign argv) : execProcess opens pc last argv e = .ok (e.fork opens pc last argv) := by
  obtain ⟨⟨hne, -, hexit⟩, hprint, hset⟩ := h
  obtain ⟨cmd, args, rfl⟩ := List.exists_cons_of_ne_nil hne
  simp only [List.head?_cons, ne_eq, Option.some.injEq] at hexit hprint hset
  simp [execProcess, hexit, hprint, hset]

/-- A child at its `execvp`, with the descriptors of the shell at the fork. -/
structure Fork where
  child : Spawn
  shell : FdTable Desc

/-- The forks of the process loop. -/
def execForks (opens : Opens) (processCount : ℕ) : List (List Token) → Exec → List Fork
  | [], _ => []
  | argv :: rest, e =>
    match execProcess opens processCount rest.isEmpty argv e with
    | .error _ => []
    | .ok e' =>
      (e'.spawned.drop e.spawned.length).map
          (⟨·, (e.vars.forkKernel processCount rest.isEmpty).fds⟩) ++
        execForks opens processCount rest e'

/-- The forks of a line. -/
def lineForks (s : Shell) (inp : LineInput) : List Fork :=
  match s.parse inp with
  | .error _ => []
  | .ok p => execForks inp.opens p.process.length p.process ⟨p.vars, s.environ, [], []⟩

/-- The forks of a run, in order. -/
def runForks : Shell → List LineInput → List Fork
  | _, [] => []
  | s, inp :: rest =>
    s.lineForks inp ++
      match s.line inp with
      | .error _ => []
      | .ok (s', _, _) => runForks s' rest

/-- No process holds the wrong end: a child that writes a pipe does not hold its read end, and neither
    a child that reads a pipe nor the shell, then or later, holds its write end. -/
def RightEnds (forks : List Fork) : Prop :=
  ∀ (i : ℕ) (c : Fork), forks[i]? = some c →
    (∀ id, c.child.fds.get 1 = some (.pipeW id) ∨ c.child.fds.get 2 = some (.pipeW id) →
      ∀ fd, c.child.fds.get fd ≠ some (.pipeR id)) ∧
    ∀ id, c.child.fds.get 0 = some (.pipeR id) → (∀ fd, c.child.fds.get fd ≠ some (.pipeW id)) ∧
      ∀ (j : ℕ) (d : Fork), i ≤ j → forks[j]? = some d → ∀ fd, d.shell.get fd ≠ some (.pipeW id)

/-! ### The forks are the children of the run -/

theorem execForks_children (opens : Opens) (pc : ℕ) : ∀ {rows : List (List Token)} {e e' : Exec},
    execAll opens pc rows e = .ok e' →
    e'.spawned = e.spawned ++ (execForks opens pc rows e).map (·.child)
  | [], e, e', h => by
    cases h
    simp [execForks]
  | argv :: rest, e, e', h => by
    rw [execAll] at h
    rw [execForks]
    cases hrow : execProcess opens pc rest.isEmpty argv e with
    | error x => simp [hrow] at h
    | ok e₁ =>
      simp only [hrow] at h
      have hgrow : ∃ new, e₁.spawned = e.spawned ++ new := by
        rw [execProcess.eq_def] at hrow
        split at hrow
        · cases hrow
        · split_ifs at hrow
          · split at hrow
            · cases hrow
              exact ⟨[], by simp⟩
            · split at hrow <;> cases hrow <;> exact ⟨[], by simp⟩
          · split at hrow <;> cases hrow <;> exact ⟨[], by simp⟩
          · cases hrow
            exact ⟨_, rfl⟩
      obtain ⟨new, hnew⟩ := hgrow
      rw [execForks_children opens pc h, hnew]
      simp [hnew, Function.comp_def]

/-- The children of the forks are those of the run. -/
theorem runForks_children : ∀ {ins : List LineInput} {s s' : Shell} {sps : List (List Spawn)},
    s.run ins = .ok (s', sps) → (s.runForks ins).map (·.child) = sps.flatten
  | [], s, s', sps, h => by
    cases h
    rfl
  | inp :: ins, s, s', sps, h => by
    rw [run] at h
    rw [runForks]
    cases hline : s.line inp with
    | error x => simp [hline] at h
    | ok r =>
      obtain ⟨s₁, sp, w⟩ := r
      simp only [hline] at h
      cases hrest : s₁.run ins with
      | error x => simp [hrest] at h
      | ok r =>
        obtain ⟨s₂, sps'⟩ := r
        simp only [hrest, Except.ok.injEq, Prod.mk.injEq] at h
        obtain ⟨-, rfl⟩ := h
        have hsp : (s.lineForks inp).map (·.child) = sp := by
          rw [line] at hline
          rw [lineForks]
          cases hparse : s.parse inp with
          | error x => simp [hparse] at hline
          | ok p =>
            simp only [hparse] at hline
            cases hexec : execAll inp.opens p.process.length p.process ⟨p.vars, s.environ, [], []⟩ with
            | error x => simp [hexec] at hline
            | ok e =>
              simp only [hexec, Except.ok.injEq, Prod.mk.injEq] at hline
              obtain ⟨-, rfl, -⟩ := hline
              have hchildren := execForks_children _ _ hexec
              simpa using hchildren.symm
        rw [List.map_append, hsp, runForks_children hrest, List.flatten_cons]

/-! ### A shell without number pipes -/

/-- The shell between two forks, when no number pipe was ever asked for: it holds no write end. -/
structure Unnumbered (v : Vars) : Prop where
  vec : v.numPipeVec = []
  inFlag : v.numPipeInFlag = false
  plain : ∀ last, v.special last = false
  noName : v.namePipeIn = none ∧ v.namePipeOut = none
  own : ∀ i < 3, v.kernel.get i = some (.own i)
  fdIn : v.kernel.get v.fdIn ≠ none
  read : ∀ fd id, v.kernel.get fd = some (.pipeR id) → id < v.kernel.pipes
  write : ∀ fd id, v.kernel.get fd ≠ some (.pipeW id)

/-- At a fork with `n` pipes made before: the child holds read ends of earlier pipes only, and the write
    ends the child and the shell hold are those of the pipe made for it. -/
structure Fork.At (c : Fork) (n : ℕ) : Prop where
  read : ∀ fd id, c.child.fds.get fd = some (.pipeR id) → id < n
  write : ∀ fd id, c.child.fds.get fd = some (.pipeW id) → id = n
  shell : ∀ fd id, c.shell.get fd = some (.pipeW id) → id = n

/-- Forks one after another, the pipes before each counted. -/
inductive ForksFrom : ℕ → List Fork → ℕ → Prop
  | nil (n) : ForksFrom n [] n
  | cons {n n' m : ℕ} {c : Fork} {cs : List Fork} (fork : c.At n) (le : n ≤ n') (rest : ForksFrom n' cs m) :
      ForksFrom n (c :: cs) m

theorem ForksFrom.append {n m k : ℕ} {cs ds : List Fork} (h : ForksFrom n cs m) (h' : ForksFrom m ds k) :
    ForksFrom n (cs ++ ds) k := by
  induction h with
  | nil => exact h'
  | cons fork le _ ih => exact .cons fork le (ih h')

theorem ForksFrom.get {n m i : ℕ} {cs : List Fork} {c : Fork} (h : ForksFrom n cs m)
    (hi : cs[i]? = some c) : ∃ k, n ≤ k ∧ c.At k ∧
      ∀ (j : ℕ) (d : Fork), i ≤ j → cs[j]? = some d → ∃ k', k ≤ k' ∧ d.At k' := by
  induction h generalizing i c with
  | nil => simp at hi
  | @cons n n' m d ds fork le rest ih =>
    have hlater : ∀ {j : ℕ} {e : Fork}, ds[j]? = some e → ∃ k, n' ≤ k ∧ e.At k := by
      intro j e hj
      obtain ⟨k, hk, he, -⟩ := ih hj
      exact ⟨k, hk, he⟩
    cases i with
    | zero =>
      obtain rfl : d = c := by simpa using hi
      refine ⟨n, le_rfl, fork, fun j e _ hj => ?_⟩
      cases j with
      | zero =>
        obtain rfl : d = e := by simpa using hj
        exact ⟨n, le_rfl, fork⟩
      | succ j =>
        obtain ⟨k, hk, he⟩ := hlater (by simpa using hj)
        exact ⟨k, le.trans hk, he⟩
    | succ i =>
      obtain ⟨k, hk, hc, hafter⟩ := ih (by simpa using hi)
      refine ⟨k, le.trans hk, hc, fun j e hij hj => ?_⟩
      cases j with
      | zero => omega
      | succ j => exact hafter j e (by omega) (by simpa using hj)

/-- Then no process holds the wrong end. -/
theorem ForksFrom.rightEnds {n m : ℕ} {cs : List Fork} (h : ForksFrom n cs m) : RightEnds cs := by
  intro i c hi
  obtain ⟨k, -, hc, hafter⟩ := h.get hi
  refine ⟨fun id hid fd hfd => ?_, fun id hid => ⟨fun fd hfd => ?_, fun j d hij hj fd hfd => ?_⟩⟩
  · have hr := hc.read fd id hfd
    rcases hid with hid | hid
    · exact absurd (hc.write 1 id hid) hr.ne
    · exact absurd (hc.write 2 id hid) hr.ne
  · exact absurd (hc.write fd id hfd) (hc.read 0 id hid).ne
  · obtain ⟨k', hk, hd⟩ := hafter j d hij hj
    have hr := hc.read 0 id hid
    have hw := hd.shell fd id hfd
    omega

/-! ### Forks without number pipes -/

namespace Unnumbered
variable {v : Vars}

theorem beforeCloses (h : Unnumbered v) : v.beforeCloses = [] := by
  simp [Vars.beforeCloses, Vars.deadOut, h.vec, h.noName.1]

theorem afterCloses (h : Unnumbered v) : v.afterCloses = [] := by
  simp [Vars.afterCloses, h.inFlag, h.noName.1]

theorem stdinSources (h : Unnumbered v) : v.stdinSources = [0, v.fdIn] := by
  simp [Vars.stdinSources, h.vec, h.noName.1]

/-- What the shell holds at the fork: the new pipe besides what it held before. -/
theorem get_forkKernel (h : Unnumbered v) (pc : ℕ) (last : Bool) (x : ℕ) :
    (v.forkKernel pc last).get x = if pc = 1 then v.kernel.get x else v.kernel.pipe.get x := by
  have hmake : v.makesPipe pc last = (pc != 1) := by simp [Vars.makesPipe, h.plain last]
  rw [Vars.forkKernel, h.beforeCloses, hmake, Kernel.closeAll_nil]
  by_cases hpc : pc = 1 <;> simp [hpc]

theorem read_forkKernel (h : Unnumbered v) {pc : ℕ} {last : Bool} {x id : ℕ}
    (hx : (v.forkKernel pc last).get x = some (.pipeR id)) :
    id < v.kernel.pipes ∨ pc ≠ 1 ∧ x = v.kernel.pipeFd0 := by
  rw [h.get_forkKernel] at hx
  split_ifs at hx with hpc
  · exact Or.inl (h.read x id hx)
  · rw [Kernel.get_pipe] at hx
    split_ifs at hx with h0 h1
    · exact Or.inr ⟨hpc, h0⟩
    · cases hx
    · exact Or.inl (h.read x id hx)

theorem write_forkKernel (h : Unnumbered v) {pc : ℕ} {last : Bool} {x id : ℕ}
    (hx : (v.forkKernel pc last).get x = some (.pipeW id)) : id = v.kernel.pipes := by
  rw [h.get_forkKernel] at hx
  split_ifs at hx with hpc
  · exact absurd hx (h.write x id)
  · rw [Kernel.get_pipe] at hx
    split_ifs at hx with h0 h1
    · cases hx
    · cases hx
      rfl
    · exact absurd hx (h.write x id)

/-- What the child holds it got from the shell, the read end of the new pipe apart. -/
theorem child_get (h : Unnumbered v) {opens : Opens} {pc : ℕ} {last : Bool} {x : ℕ} {d : Desc}
    (hx : (v.forkProcess opens pc last).2.get x = some d) :
    ∃ y, (v.forkKernel pc last).get y = some d ∧ (pc ≠ 1 → y ≠ v.kernel.pipeFd0) := by
  have h0 : v.kernel.get 0 ≠ none := by simp [h.own 0 (by decide)]
  have h1 : v.kernel.get 1 ≠ none := by simp [h.own 1 (by decide)]
  have hsp := h.plain last
  rw [Vars.forkProcess_of_not_special opens pc hsp, Vars.forkNormal_snd pc hsp] at hx
  rcases eq_or_ne x 0 with rfl | hx0
  · obtain ⟨y, hy, hget⟩ := Vars.get_zero_childNormal_cases hx
    rw [h.stdinSources] at hy
    refine ⟨y, hget, fun _ => ?_⟩
    rcases List.mem_cons.mp hy with rfl | hy
    · exact Kernel.ne_pipeFd0 h0
    · rw [List.mem_singleton.mp hy]
      exact Kernel.ne_pipeFd0 h.fdIn
  · rcases eq_or_ne x 1 with rfl | hx1
    · have hopen : (v.forkKernel pc last).get (if pc ≠ 1 ∧ last = false then v.kernel.pipeFd1 else 1) ≠
          none := by
        rw [h.get_forkKernel]
        by_cases hpc : pc = 1
        · simp [hpc, h1]
        · cases last with
          | false => simp [hpc, Kernel.get_pipe, v.kernel.pipeFd1_ne_pipeFd0]
          | true => simp [hpc, Kernel.get_pipe_of_open h1, h1]
      obtain ⟨d', hd'⟩ := Option.ne_none_iff_exists'.mp hopen
      have hchild := Vars.get_one_childNormal (v := v) (t := (v.forkKernel pc last).fds) hd' h1 h0
      rw [hchild, Option.some.injEq] at hx
      refine ⟨_, hx ▸ hd', fun hpc => ?_⟩
      split_ifs
      · exact v.kernel.pipeFd1_ne_pipeFd0
      · exact Kernel.ne_pipeFd0 h1
    · rcases eq_or_ne pc 1 with hpc | hpc
      · have hsame : (v.childNormal pc v.kernel.pipeFd0 v.kernel.pipeFd1 last
            (v.forkKernel pc last).fds).get x = (v.forkKernel pc last).get x := by
          rw [Vars.childNormal_eq, if_neg (by simp [hpc]), Vars.get_childRead_of_ne hx0]
          rfl
        exact ⟨x, hsame ▸ hx, fun hne => absurd hpc hne⟩
      · have hxp : x ≠ v.kernel.pipeFd0 := by
          rintro rfl
          rw [Vars.childNormal_eq, if_pos hpc] at hx
          cases last <;> simp [FdTable.get_dup2_of_ne, hx1] at hx
        rw [Vars.get_childNormal hx0 hx1 hxp] at hx
        exact ⟨x, hx, fun _ => hxp⟩

/-- One fork. -/
theorem fork_at (h : Unnumbered v) (opens : Opens) (pc : ℕ) (last : Bool) (argv : List Token) :
    Fork.At ⟨⟨argv, (v.forkProcess opens pc last).2⟩, (v.forkKernel pc last).fds⟩ v.kernel.pipes where
  read fd id hfd := by
    obtain ⟨y, hy, hne⟩ := h.child_get hfd
    rcases h.read_forkKernel hy with hlt | ⟨hpc, heq⟩
    · exact hlt
    · exact absurd heq (hne hpc)
  write fd id hfd := by
    obtain ⟨y, hy, -⟩ := h.child_get hfd
    exact h.write_forkKernel hy
  shell fd id hfd := h.write_forkKernel hfd

/-- What the shell holds after the fork. -/
theorem get_fork (h : Unnumbered v) (opens : Opens) (pc : ℕ) (last : Bool) (x : ℕ) :
    (v.forkProcess opens pc last).1.kernel.get x =
      if pc = 1 then v.kernel.get x
      else if x = v.kernel.pipeFd1 ∨ last = true ∧ x = v.kernel.pipeFd0 then none
      else v.kernel.pipe.get x := by
  have hmake : v.makesPipe pc last = (pc != 1) := by simp [Vars.makesPipe, h.plain last]
  have hcloses : v.pipeCloses pc last = if pc = 1 then [] else
      if last then [v.kernel.pipeFd1, v.kernel.pipeFd0] else [v.kernel.pipeFd1] := by
    simp [Vars.pipeCloses, h.plain last]
  rw [(Vars.forkProcess_fst v opens pc last).1, Kernel.get_closeAll, h.beforeCloses, h.afterCloses, hmake,
    hcloses]
  by_cases hpc : pc = 1
  · simp [hpc]
  · cases last <;> simp [hpc]

theorem get_fork_of_open (h : Unnumbered v) (opens : Opens) (pc : ℕ) (last : Bool) {x : ℕ}
    (hx : v.kernel.get x ≠ none) :
    (v.forkProcess opens pc last).1.kernel.get x = v.kernel.get x := by
  rw [h.get_fork, Kernel.get_pipe_of_open hx]
  simp [Kernel.ne_pipeFd0 hx, Kernel.ne_pipeFd1 hx]

theorem pipes_fork (h : Unnumbered v) (opens : Opens) (pc : ℕ) (last : Bool) :
    (v.forkProcess opens pc last).1.kernel.pipes = v.kernel.pipes + if pc = 1 then 0 else 1 := by
  have hmake : v.makesPipe pc last = (pc != 1) := by simp [Vars.makesPipe, h.plain last]
  rw [(Vars.forkProcess_fst v opens pc last).1, Kernel.pipes_closeAll, hmake]
  by_cases hpc : pc = 1 <;> simp [hpc]

/-- The variables after the fork, with the `fd_in` the next command or the next line starts with. -/
theorem fork (h : Unnumbered v) (opens : Opens) (pc : ℕ) (last : Bool) {fd : ℕ}
    (hfd : (v.forkProcess opens pc last).1.kernel.get fd ≠ none) :
    Unnumbered { (v.forkProcess opens pc last).1 with fdIn := fd } := by
  obtain ⟨-, hvec, hin, hname, -, hshock, -, hwf, hof, -, hout⟩ := Vars.forkProcess_fst v opens pc last
  have hplain := h.plain true
  simp only [Vars.special, Bool.true_and, Bool.or_eq_false_iff] at hplain
  obtain ⟨⟨⟨hw, hs⟩, ho⟩, -⟩ := hplain
  refine ⟨?_, hin, fun _ => ?_, ⟨hname, hout h.noName.2⟩, fun i hi => ?_, hfd, fun x id hx => ?_,
    fun x id hx => ?_⟩
  · rw [hvec, Vars.keptPipes, h.inFlag]
    exact h.vec
  · simp [Vars.special, hwf, hw, hshock, hs, hof, ho, hout h.noName.2]
  · have hopen : v.kernel.get i ≠ none := by simp [h.own i hi]
    change (v.forkProcess opens pc last).1.kernel.get i = _
    rw [h.get_fork_of_open opens pc last hopen, h.own i hi]
  · change (v.forkProcess opens pc last).1.kernel.get x = _ at hx
    change id < (v.forkProcess opens pc last).1.kernel.pipes
    rw [h.pipes_fork]
    rw [h.get_fork] at hx
    split_ifs at hx ⊢ with hpc hclosed
    · exact h.read x id hx
    · rw [Kernel.get_pipe] at hx
      split_ifs at hx
      · cases hx
        exact Nat.lt_succ_self _
      · cases hx
      · exact (h.read x id hx).trans (Nat.lt_succ_self _)
  · change (v.forkProcess opens pc last).1.kernel.get x = _ at hx
    rw [h.get_fork] at hx
    split_ifs at hx with hpc hclosed
    · exact h.write x id hx
    · rw [not_or] at hclosed
      rw [Kernel.get_pipe, if_neg hclosed.1] at hx
      split_ifs at hx
      · cases hx
      · exact h.write x id hx

/-- The `fd_in` of the next command is open. -/
theorem fork_fdIn (h : Unnumbered v) (opens : Opens) (pc : ℕ) :
    (v.forkProcess opens pc false).1.kernel.get (v.forkProcess opens pc false).1.fdIn ≠ none := by
  obtain ⟨-, -, -, -, hfd, -⟩ := Vars.forkProcess_fst v opens pc false
  have hmake : v.makesPipe pc false = (pc != 1) := by simp [Vars.makesPipe, h.plain false]
  rw [h.get_fork, hfd, hmake]
  by_cases hpc : pc = 1
  · simpa [hpc] using h.fdIn
  · simp [hpc, Kernel.get_pipe, v.kernel.pipeFd1_ne_pipeFd0.symm]

theorem fork_zero (h : Unnumbered v) (opens : Opens) (pc : ℕ) (last : Bool) :
    (v.forkProcess opens pc last).1.kernel.get 0 ≠ none := by
  have hopen : v.kernel.get 0 ≠ none := by simp [h.own 0 (by decide)]
  rwa [h.get_fork_of_open opens pc last hopen]

end Unnumbered

/-- The values a line starts with. -/
theorem Unnumbered.reset {v : Vars} (h : Unnumbered v) {fd : ℕ} (hfd : v.kernel.get fd ≠ none) (out : ℕ)
    (buf : List Char) : Unnumbered { v with fdIn := fd, pipeOutNum := out, redirectionFileName := buf } :=
  ⟨h.vec, h.inFlag, h.plain, h.noName, h.own, hfd, h.read, h.write⟩

/-- The process loop over foreign commands. -/
theorem Unnumbered.execAll (opens : Opens) (pc : ℕ) : ∀ {rows : List (List Token)} {e : Exec},
    (∀ argv ∈ rows, Foreign argv) → Unnumbered e.vars →
    ∃ e', Shell.execAll opens pc rows e = .ok e' ∧
      ForksFrom e.vars.kernel.pipes (execForks opens pc rows e) e'.vars.kernel.pipes ∧
      Unnumbered { e'.vars with fdIn := 0 }
  | [], e, _, h => by
    have h0 : e.vars.kernel.get 0 ≠ none := by simp [h.own 0 (by decide)]
    exact ⟨e, rfl, .nil _, h.reset h0 e.vars.pipeOutNum e.vars.redirectionFileName⟩
  | argv :: rest, e, hext, h => by
    have hrow := execProcess_foreign opens pc rest.isEmpty e (hext argv (List.mem_cons_self ..))
    have hfork := h.fork_at opens pc rest.isEmpty argv
    have hle : e.vars.kernel.pipes ≤ (e.fork opens pc rest.isEmpty argv).vars.kernel.pipes := by
      change _ ≤ (e.vars.forkProcess opens pc rest.isEmpty).1.kernel.pipes
      rw [h.pipes_fork]
      exact Nat.le_add_right _ _
    rw [Shell.execAll, execForks, hrow]
    dsimp only
    have hnew : (e.fork opens pc rest.isEmpty argv).spawned.drop e.spawned.length =
        [⟨argv, (e.vars.forkProcess opens pc rest.isEmpty).2⟩] := by
      simp [Exec.fork]
    rw [hnew]
    cases rest with
    | nil =>
      exact ⟨_, rfl, .cons hfork hle (.nil _), h.fork opens pc true (h.fork_zero opens pc true)⟩
    | cons argv' rest =>
      have hnext : Unnumbered (e.fork opens pc false argv).vars :=
        h.fork opens pc false (h.fork_fdIn opens pc)
      obtain ⟨e', hexec, hforks, hend⟩ :=
        hnext.execAll opens pc fun x hx => hext x (List.mem_cons_of_mem _ hx)
      exact ⟨e', hexec, .cons hfork hle hforks, hend⟩

/-- Where a line without a number pipe starts. -/
theorem Unnumbered.startLine {s : Shell} (h : Unnumbered { s.vars with fdIn := 0 }) (inp : LineInput) :
    Unnumbered (s.startLine inp) := by
  have hreset := h.reset h.fdIn 1 inp.junk
  rw [Shell.startLine]
  split
  · exact hreset
  · refine ⟨?_, ?_, hreset.plain, hreset.noName, hreset.own, hreset.fdIn, hreset.read, hreset.write⟩
    · simpa [Vars.countdown] using h.vec
    · simpa [Vars.countdown, show s.vars.numPipeVec = [] from h.vec] using h.inFlag

/-- A line of external commands and no suffix. -/
theorem Unnumbered.line {s : Shell} (h : Unnumbered { s.vars with fdIn := 0 }) {inp : LineInput}
    {l : Pipeline} (hr : ReadsPipes Foreign inp l) (hsuf : l.suffix = .none) :
    ∃ s' sp w, s.line inp = .ok (s', sp, w) ∧
      ForksFrom s.vars.kernel.pipes (s.lineForks inp) s'.vars.kernel.pipes ∧
      Unnumbered { s'.vars with fdIn := 0 } := by
  have hparse : s.parse inp = .ok ⟨s.startLine inp, l.cmds, false⟩ := by
    rw [parse, hr.tokens_eq, combine_lasting (fun _ hc => hc.1) inp.opens hr.ok, hsuf]
    rfl
  have hpipes : (s.startLine inp).kernel.pipes = s.vars.kernel.pipes := by
    rw [Shell.startLine]
    split <;> rfl
  obtain ⟨e, hexec, hforks, hend⟩ := Unnumbered.execAll inp.opens l.cmds.length
    (e := ⟨s.startLine inp, s.environ, [], []⟩) hr.ok.cmds_ok (h.startLine inp)
  refine ⟨⟨e.vars, e.environ⟩, e.spawned, false, ?_, ?_, hend⟩
  · simp only [Shell.line, hparse, hexec]
  · rw [lineForks, hparse, ← hpipes]
    exact hforks

theorem Unnumbered.run : ∀ {ins : List LineInput} {ls : List Pipeline} {s : Shell},
    List.Forall₂ (ReadsPipes Foreign) ins ls → (∀ l ∈ ls, l.suffix = .none) → Unnumbered { s.vars with fdIn := 0 } →
    ∃ m, ForksFrom s.vars.kernel.pipes (s.runForks ins) m
  | [], _, s, _, _, _ => ⟨_, .nil _⟩
  | inp :: ins, _, s, .cons hl hls, hsuf, h => by
    obtain ⟨s', sp, w, hline, hforks, hend⟩ := h.line hl (hsuf _ (List.mem_cons_self ..))
    obtain ⟨m, hrest⟩ := Unnumbered.run hls (fun x hx => hsuf x (List.mem_cons_of_mem _ hx)) hend
    refine ⟨m, ?_⟩
    rw [runForks, hline]
    exact hforks.append hrest

theorem unnumbered_init (environ : Environ) :
    Unnumbered { (Shell.init environ).vars with fdIn := 0 } where
  vec := rfl
  inFlag := rfl
  plain last := by cases last <;> rfl
  noName := ⟨rfl, rfl⟩
  own i hi := by interval_cases i <;> rfl
  fdIn h := by cases h
  read fd id hfd := by
    rcases fd with _ | _ | _ | fd <;> simp [Shell.init, Kernel.get, FdTable.get] at hfd
  write fd id hfd := by
    rcases fd with _ | _ | _ | fd <;> simp [Shell.init, Kernel.get, FdTable.get] at hfd

/-! ### The first line with a number pipe -/

/-- While the rows of a line that asked for the first number pipe are forked, one that is not due. -/
structure Numbered (v : Vars) (id : ℕ) : Prop where
  vec : ∃ e, v.numPipeVec = [e] ∧ PipeDead e = false ∧ v.kernel.get e.p0 = some (.pipeR id) ∧
    v.pipeOutNum = e.p1 ∧ v.kernel.get e.p1 = some (.pipeW id)
  inFlag : v.numPipeInFlag = false
  file : v.writeFileFlag = false
  out : (v.shockPipeOutFlag || v.numPipeOutFlag) = true
  noName : v.namePipeIn = none ∧ v.namePipeOut = none
  own : ∀ i < 3, v.kernel.get i = some (.own i)

namespace Numbered
variable {v : Vars} {id : ℕ}

theorem dead (h : Numbered v id) : v.deadOut = [] ∧ v.deadIn = [] := by
  obtain ⟨e, hvec, hlive, -⟩ := h.vec
  simp [Vars.deadOut, Vars.deadIn, hvec, hlive]

/-- What is open stays, but for `fd_in`, which the last command closes. -/
theorem aside (h : Numbered v id) {x : ℕ} (hx : v.kernel.get x ≠ none) : v.Aside x := by
  refine ⟨hx, by simp [h.dead.1], by simp [h.dead.2], ?_⟩
  rw [h.noName.1]
  rintro np ⟨⟩

/-- A command before the last. -/
theorem fork (h : Numbered v id) (opens : Opens) (pc : ℕ) :
    Numbered (v.forkProcess opens pc false).1 id := by
  obtain ⟨e, hvec, hlive, hr, hout, hw⟩ := h.vec
  obtain ⟨-, hvec', hin, hname, -, hshock, hnum, hwf, hof, -, hno⟩ := Vars.forkProcess_fst v opens pc false
  have hkeep : ∀ {x d}, v.kernel.get x = some d → (v.forkProcess opens pc false).1.kernel.get x = some d := by
    intro x d hx
    rw [(h.aside (by simp [hx])).get_fork opens pc, hx]
  refine ⟨⟨e, ?_, hlive, hkeep hr, hnum.trans hout, hkeep hw⟩, hin, by simp [hwf, h.file], ?_,
    ⟨hname, hno h.noName.2⟩, fun i hi => hkeep (h.own i hi)⟩
  · rw [hvec', Vars.keptPipes, h.inFlag]
    exact hvec
  · simpa [hshock, hof] using h.out

/-- The last command writes the pipe, and holds its read end too. -/
theorem child (h : Numbered v id) (opens : Opens) (pc : ℕ) :
    (v.forkProcess opens pc true).2.get 1 = some (.pipeW id) ∧
      ∃ fd, (v.forkProcess opens pc true).2.get fd = some (.pipeR id) := by
  obtain ⟨e, -, -, hr, hout, hw⟩ := h.vec
  have hstd : ∀ {x d}, v.kernel.get x = some d → (∀ i, d ≠ .own i) → x ≠ 0 ∧ x ≠ 1 ∧ x ≠ 2 := by
    intro x d hx hd
    refine ⟨?_, ?_, ?_⟩ <;>
      · rintro rfl
        rw [h.own _ (by decide), Option.some.injEq] at hx
        exact hd _ hx.symm
  have hsp : v.special true = true := by
    have hflags := h.out
    simp only [Vars.special, h.file, Bool.true_and, Bool.false_or, hflags, Bool.true_or]
  have hbefore : v.beforeCloses = [] := by simp [Vars.beforeCloses, h.dead.1, h.noName.1]
  have hkernel : v.forkKernel pc true = v.kernel := by
    rw [Vars.forkKernel_of_special pc hsp, hbefore, Kernel.closeAll_nil]
  have hfd : v.stdoutFd pc true = e.p1 := by
    simp only [Vars.stdoutFd, hsp, h.out, if_true, hout]
  obtain ⟨hr0, hr1, hr2⟩ := hstd hr (by simp)
  refine ⟨?_, e.p0, ?_⟩
  · refine Vars.forkProcess_stdout (by simp [h.file]) ?_ (by simp [h.own 0]) (by simp [h.own 1]) ?_
    · rw [hkernel, hfd, hw]
    · rw [hfd]
      exact (hstd hw (by simp)).1
  · have hbranch : v.forkProcess opens pc true = v.forkNumberPipe pc := by
      simp only [Vars.forkProcess, h.file, h.out, Bool.false_and, Bool.and_self, Bool.false_eq_true,
        if_false, if_true]
    rw [hbranch, Vars.forkNumberPipe_snd, hbefore, Kernel.closeAll_nil]
    dsimp only
    rw [FdTable.get_dup2_of_ne _ hr1]
    split
    · rw [FdTable.get_dup2_of_ne _ hr2, Vars.get_childStdin_of_ne hr0]
      exact hr
    · rw [Vars.get_childStdin_of_ne hr0]
      exact hr

/-- One of the forks of the line. -/
theorem execForks (opens : Opens) (pc : ℕ) : ∀ {rows : List (List Token)} {e : Exec}, rows ≠ [] →
    (∀ argv ∈ rows, Foreign argv) → Numbered e.vars id →
    ∃ c ∈ Shell.execForks opens pc rows e, c.child.fds.get 1 = some (.pipeW id) ∧
      ∃ fd, c.child.fds.get fd = some (.pipeR id)
  | [], _, hne, _, _ => absurd rfl hne
  | argv :: rest, e, _, hext, h => by
    have hrow := execProcess_foreign opens pc rest.isEmpty e (hext argv (List.mem_cons_self ..))
    rw [Shell.execForks, hrow]
    dsimp only
    have hnew : (e.fork opens pc rest.isEmpty argv).spawned.drop e.spawned.length =
        [⟨argv, (e.vars.forkProcess opens pc rest.isEmpty).2⟩] := by
      simp [Exec.fork]
    rw [hnew]
    cases rest with
    | nil => exact ⟨_, List.mem_cons_self .., h.child opens pc⟩
    | cons argv' rest =>
      have hnext : Numbered (e.fork opens pc false argv).vars id := h.fork opens pc
      obtain ⟨c, hc, hchild⟩ := Numbered.execForks opens pc (List.cons_ne_nil argv' rest)
        (fun x hx => hext x (List.mem_cons_of_mem _ hx)) hnext
      exact ⟨c, List.mem_append_right _ hc, hchild⟩

end Numbered

/-- A line that asks for a number pipe, after lines that asked for none: its last command holds both
    ends. -/
theorem Unnumbered.line_number {s : Shell} (h : Unnumbered { s.vars with fdIn := 0 }) {inp : LineInput}
    {l : Pipeline} (hr : ReadsPipes Foreign inp l) (hsuf : l.suffix ≠ .none) (hread : l.suffix.read ≠ some 0) :
    ∃ c ∈ s.lineForks inp, ∃ id, c.child.fds.get 1 = some (.pipeW id) ∧
      ∃ fd, c.child.fds.get fd = some (.pipeR id) := by
  set v := s.startLine inp with hv
  have hstart : Unnumbered v := h.startLine inp
  obtain ⟨shock, n, happ, hn⟩ : ∃ shock n,
      applySuffix inp.opens ⟨v, l.cmds, false⟩ l.suffix = some (Parsed.pipeOut ⟨v, l.cmds, false⟩ shock n) ∧
        n ≠ 0 := by
    cases hl : l.suffix with
    | none => exact absurd hl hsuf
    | pipe ds =>
      refine ⟨false, atoi ds, rfl, fun heq => hread ?_⟩
      rw [hl, Suffix.read, heq]
    | shock ds =>
      refine ⟨true, atoi ds, rfl, fun heq => hread ?_⟩
      rw [hl, Suffix.read, heq]
    | file name => exact absurd hl (hr.piped name)
  have hparse : s.parse inp = .ok (Parsed.pipeOut ⟨v, l.cmds, false⟩ shock n) := by
    rw [parse, hr.tokens_eq, combine_lasting (fun _ hc => hc.1) inp.opens hr.ok]
    simp only [List.nil_append, ← hv, happ]
  have hnumber : v.numberPipe n = { v with
      kernel := v.kernel.pipe
      pipeOutNum := v.kernel.pipeFd1
      numPipeVec := [⟨n, v.kernel.pipeFd0, v.kernel.pipeFd1⟩] } := by
    simp [Vars.numberPipe, hstart.vec]
  have hflags := hstart.plain true
  simp only [Vars.special, Bool.true_and, Bool.or_eq_false_iff] at hflags
  have hready : Numbered (Parsed.pipeOut ⟨v, l.cmds, false⟩ shock n).vars v.kernel.pipes := by
    have hown : ∀ i < 3, v.kernel.pipe.get i = some (.own i) := by
      intro i hi
      rw [Kernel.get_pipe_of_open (by simp [hstart.own i hi]), hstart.own i hi]
    have hlive : PipeDead ⟨n, v.kernel.pipeFd0, v.kernel.pipeFd1⟩ = false := by simpa [PipeDead] using hn
    have hget0 : v.kernel.pipe.get v.kernel.pipeFd0 = some (.pipeR v.kernel.pipes) := by
      simp [Kernel.get_pipe]
    have hget1 : v.kernel.pipe.get v.kernel.pipeFd1 = some (.pipeW v.kernel.pipes) := by
      simp [Kernel.get_pipe, v.kernel.pipeFd1_ne_pipeFd0]
    cases shock <;>
      · simp only [Parsed.pipeOut, hnumber, Bool.false_eq_true, if_false, if_true]
        exact ⟨⟨_, rfl, hlive, hget0, rfl, hget1⟩, hstart.inFlag, hflags.1.1.1, by simp, hstart.noName, hown⟩
  rw [lineForks, hparse]
  obtain ⟨c, hc, hw, hfd⟩ := Numbered.execForks inp.opens l.cmds.length
    (e := ⟨(Parsed.pipeOut ⟨v, l.cmds, false⟩ shock n).vars, s.environ, [], []⟩) hr.ok.cmds_ne
    hr.ok.cmds_ok hready
  have hproc : (Parsed.pipeOut ⟨v, l.cmds, false⟩ shock n).process = l.cmds := by cases shock <;> rfl
  rw [← hproc] at hc
  exact ⟨c, hproc ▸ hc, _, hw, hfd⟩

/-- A run with a number pipe: some child holds both ends of its output. -/
theorem exists_both_ends : ∀ {ins : List LineInput} {ls : List Pipeline} {s : Shell},
    List.Forall₂ (ReadsPipes Foreign) ins ls → (∀ l ∈ ls, l.suffix.read ≠ some 0) → (∃ l ∈ ls, l.suffix ≠ .none) →
    Unnumbered { s.vars with fdIn := 0 } →
    ∃ c ∈ s.runForks ins, ∃ id, c.child.fds.get 1 = some (.pipeW id) ∧
      ∃ fd, c.child.fds.get fd = some (.pipeR id)
  | [], _, _, .nil, _, hex, _ => by simp at hex
  | inp :: ins, l :: ls, s, .cons hl hls, hread, hex, h => by
    rw [runForks]
    by_cases hsuf : l.suffix = .none
    · obtain ⟨s', sp, w, hline, -, hend⟩ := h.line hl hsuf
      have hrest : ∃ x ∈ ls, x.suffix ≠ .none := by simpa [hsuf] using hex
      obtain ⟨c, hc, hboth⟩ := exists_both_ends hls (fun x hx => hread x (List.mem_cons_of_mem _ hx)) hrest
        hend
      rw [hline]
      exact ⟨c, List.mem_append_right _ hc, hboth⟩
    · obtain ⟨c, hc, hboth⟩ := h.line_number hl hsuf (hread l (List.mem_cons_self ..))
      exact ⟨c, List.mem_append_left _ hc, hboth⟩

theorem RightEnds.not_both {forks : List Fork} (h : RightEnds forks) {c : Fork} (hc : c ∈ forks) {id fd : ℕ}
    (hw : c.child.fds.get 1 = some (.pipeW id)) : c.child.fds.get fd ≠ some (.pipeR id) := by
  obtain ⟨i, hi⟩ := List.getElem?_of_mem hc
  exact (h i c hi).1 id (Or.inl hw) fd

/-- In a run over pipelines no process holds the wrong end of a pipe as long as no line ends in `|N` or
    `!N`; and only then, if no `N` is read as 0. -/
theorem pipe_ends_iff (environ : Environ) (ins : List LineInput) (ls : List Pipeline)
    (hr : List.Forall₂ (ReadsPipes Foreign) ins ls) :
    ((∀ l ∈ ls, l.suffix = .none) → RightEnds ((Shell.init environ).runForks ins)) ∧
      ((∀ l ∈ ls, l.suffix.read ≠ some 0) →
        (RightEnds ((Shell.init environ).runForks ins) ↔ ∀ l ∈ ls, l.suffix = .none)) := by
  have hright : (∀ l ∈ ls, l.suffix = .none) → RightEnds ((Shell.init environ).runForks ins) := by
    intro hnone
    obtain ⟨m, hforks⟩ := Unnumbered.run hr hnone (unnumbered_init environ)
    exact hforks.rightEnds
  refine ⟨hright, fun hread => ⟨fun h => ?_, hright⟩⟩
  by_contra hsome
  simp only [not_forall, exists_prop] at hsome
  obtain ⟨c, hc, id, hw, fd, hfd⟩ := exists_both_ends hr hread hsome (unnumbered_init environ)
  exact h.not_both hc hw hfd

/-- `ls | cat`. -/
theorem pipe_ends_ls_cat :
    RightEnds ((Shell.init fun _ => none).runForks [plainInput ['l', 's', ' ', '|', ' ', 'c', 'a', 't']]) :=
  (pipe_ends_iff (fun _ => none) _ [⟨[[['l', 's']], [['c', 'a', 't']]], .none⟩]
    (.cons ⟨by decide, by decide, by simp⟩ .nil)).1 (by decide)

/-- `ls |1`: descriptor 1 of `ls` is the write end of the pipe, and it also holds the read end. -/
theorem number_pipe_holds_both :
    ¬ RightEnds ((Shell.init fun _ => none).runForks [plainInput ['l', 's', ' ', '|', '1']]) := by
  intro h
  have hchild : (((Shell.init fun _ => none).runForks [plainInput ['l', 's', ' ', '|', '1']]).map fun c =>
      (c.child.fds.get 1, c.child.fds.get 3)) = [(some (.pipeW 0), some (.pipeR 0))] := by decide
  obtain ⟨c, hc, hends⟩ := List.map_eq_singleton_iff.mp hchild
  rw [Prod.mk.injEq] at hends
  exact h.not_both (by simp [hc]) hends.1 hends.2

end NetProg.Shell
