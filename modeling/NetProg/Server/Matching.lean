import NetProg.Server.Posting
import NetProg.Server.Identity

/-! User pipes match sender and receiver.

    Whatever the lines of up to 30 users are and however they interleave, a ledger of who piped what to
    whom, kept by looking at the children of the lines alone, says what the server does: the first command
    of a line with `<n` reads the pipe that the last command of the line with `>m` of user `n` has filled.
    The exceptions are lines that take several pipes, and lines that take the pipe of their user to
    itself and make it anew. -/

namespace NetProg.Server

/-! ### The process loop -/

/-- The commands of a line that are forked: those before `exit`. -/
def UserLine.forked (l : UserLine) : List (List Token) :=
  l.cmds.takeWhile fun c => c.head? != some Shell.exitCmd

/-- Rows without builtins, `exit` apart, are forked one after another up to `exit`. -/
theorem execRows_forked (inp : LineInput) (pc : ℕ) {c : Call} (hspawned : c.spawned = [])
    (hrows : ∀ x ∈ c.process, Plainly x) :
    (execRows inp pc c.process c).Ends
      (fun c' => c'.spawned.map (·.argv) = c.process ∧ (c.process.any fun x => x.head? == some Shell.exitCmd) = false)
      (fun c' => c'.spawned.map (·.argv) = c.process.takeWhile (fun x => x.head? != some Shell.exitCmd) ∧
        (c.process.any fun x => x.head? == some Shell.exitCmd) = true) := by
  have hrules : RowRules inp pc
      (fun rows c' => c'.spawned.map (·.argv) ++ rows = c.process ∧
        ∀ x ∈ c'.spawned.map (·.argv), x.head? ≠ some Shell.exitCmd)
      (fun c' => c'.spawned.map (·.argv) = c.process.takeWhile (fun x => x.head? != some Shell.exitCmd) ∧
        (c.process.any fun x => x.head? == some Shell.exitCmd) = true) := by
    refine ⟨?_, ?_, ?_⟩
    · rintro cmd args rest c' hcmd ⟨heq, hnot⟩
      refine ⟨by rw [← heq]; simp [Call.fork], fun x hx => ?_⟩
      rw [Call.fork, List.map_append, List.mem_append] at hx
      rcases hx with hx | hx
      · exact hnot x hx
      · obtain rfl := List.mem_singleton.mp hx
        rintro hcon
        cases hcon
        exact hcmd (by decide)
    · rintro cmd args rest c' s' hcmd hne ⟨heq, -⟩ -
      rcases (hrows (cmd :: args) (by rw [← heq]; simp)).2.2 with hexit | hext
      · exact absurd (Option.some.inj hexit) hne
      · exact absurd rfl (hext cmd hcmd)
    · rintro args rest c' ⟨heq, hnot⟩
      rw [← heq]
      refine ⟨?_, by simp⟩
      rw [List.takeWhile_append_of_pos (by simpa using hnot), List.takeWhile_cons_of_neg (by simp)]
      simp
  have hends := hrules.execRows c.process c ⟨by simp [hspawned], by simp [hspawned]⟩
  cases hr : execRows inp pc c.process c with
  | next c' =>
    rw [hr] at hends
    obtain ⟨heq, hnot⟩ := hends
    rw [List.append_nil] at heq
    refine ⟨heq, ?_⟩
    rw [← heq]
    simpa using hnot
  | exited c' =>
    rw [hr] at hends
    exact hends
  | crashed => trivial

/-- The first child reads what every first fork would give it. -/
theorem execRows_first (inp : LineInput) (pc : ℕ) {c : Call} {d : Desc} (hspawned : c.spawned = [])
    (hd : ∀ last, (c.vars.forkProcess inp.opens pc last).2.get 0 = some d) (rows : List (List Token)) :
    let reads := fun c' : Call => ∀ child, c'.spawned.head? = some child → child.fds.get 0 = some d
    (execRows inp pc rows c).Ends reads reads := by
  intro reads
  have hrules : RowRules inp pc
      (fun _ c' => (c'.spawned = [] ∧ c'.vars = c.vars) ∨ (c'.spawned ≠ [] ∧ reads c')) reads := by
    refine ⟨?_, fun _ _ _ _ _ _ _ h _ => h, ?_⟩
    · rintro cmd args rest c' - (⟨hnil, hvars⟩ | ⟨hne, hreads⟩)
      · refine Or.inr ⟨by simp [Call.fork], fun child hchild => ?_⟩
        simp only [Call.fork, hnil, hvars, List.nil_append, List.head?_cons, Option.some.injEq] at hchild
        subst hchild
        exact hd _
      · refine Or.inr ⟨by simp [Call.fork], fun child hchild => hreads child ?_⟩
        rw [Call.fork, List.head?_append_of_ne_nil _ hne] at hchild
        exact hchild
    · rintro args rest c' (⟨hnil, -⟩ | ⟨-, hreads⟩)
      · intro child hchild
        simp [hnil] at hchild
      · exact hreads
  have hends := hrules.execRows rows c (Or.inl ⟨hspawned, rfl⟩)
  cases hr : execRows inp pc rows c with
  | next c' =>
    rw [hr] at hends
    rcases hends with ⟨hnil, -⟩ | ⟨-, hreads⟩
    · intro child hchild
      simp [hnil] at hchild
    · exact hreads
  | exited c' =>
    rw [hr] at hends
    exact hends
  | crashed => trivial

/-- The variables before a fork of a line whose last command writes the user pipe with write end `out`. -/
structure Writing (out id : ℕ) (v : Vars) : Prop where
  file : v.writeFileFlag = false
  shock : v.shockPipeOutFlag = false
  number : v.numPipeOutFlag = false
  name : v.namePipeOut = some out
  get_out : v.kernel.get out = some (.pipeW id)
  ne_zero : out ≠ 0
  aside : v.Aside out ∧ v.Aside 0 ∧ v.Aside 1

theorem Writing.fork {out id : ℕ} {v : Vars} (h : Writing out id v) (opens : Opens) (pc : ℕ) :
    Writing out id (v.forkProcess opens pc false).1 := by
  obtain ⟨-, -, -, -, -, hshock, -, hfile, hnumber, -⟩ := Vars.forkProcess_fst v opens pc false
  obtain ⟨hout, h0, h1⟩ := h.aside
  refine ⟨?_, ?_, ?_, ?_, ?_, h.ne_zero, hout.fork opens pc, h0.fork opens pc, h1.fork opens pc⟩
  · rw [hfile, h.file]
    rfl
  · rw [hshock, h.shock]
  · rw [hnumber, h.number]
    rfl
  · rw [Vars.forkProcess_namePipeOut, h.name]
  · rw [hout.get_fork, h.get_out]

theorem Writing.child {out id : ℕ} {v : Vars} (h : Writing out id v) (opens : Opens) (pc : ℕ) :
    (v.forkProcess opens pc true).2.get 1 = some (.pipeW id) := by
  obtain ⟨hout, h0, h1⟩ := h.aside
  have hfd : v.stdoutFd pc true = out := by
    simp [Vars.stdoutFd, Vars.special, h.file, h.shock, h.number, h.name]
  refine Vars.forkProcess_stdout (by simp [h.file]) ?_ h0.1 h1.1 (hfd ▸ h.ne_zero)
  rw [hfd, Vars.get_forkKernel hout.1 hout.not_beforeCloses, h.get_out]

/-- The last child writes the user pipe. -/
theorem execRows_last (inp : LineInput) (pc : ℕ) {c : Call} {out id : ℕ} (h : Writing out id c.vars)
    (rows : List (List Token)) (hne : rows ≠ []) (hrows : ∀ x ∈ rows, Plainly x) :
    (execRows inp pc rows c).Ends
      (fun c' => ∃ child, c'.spawned.getLast? = some child ∧ child.fds.get 1 = some (.pipeW id))
      (fun _ => True) := by
  have hrules : RowRules inp pc
      (fun rows c' => (∀ x ∈ rows, Plainly x) ∧ if rows = [] then
          ∃ child, c'.spawned.getLast? = some child ∧ child.fds.get 1 = some (.pipeW id)
        else Writing out id c'.vars) (fun _ => True) := by
    refine ⟨?_, ?_, fun _ _ _ _ => trivial⟩
    · rintro cmd args rest c' - ⟨hplain, hw⟩
      rw [if_neg (List.cons_ne_nil _ _)] at hw
      refine ⟨fun x hx => hplain x (List.mem_cons_of_mem _ hx), ?_⟩
      cases rest with
      | nil => exact ⟨_, List.getLast?_concat, hw.child inp.opens pc⟩
      | cons x rest =>
        rw [if_neg (List.cons_ne_nil _ _)]
        exact hw.fork inp.opens pc
    · rintro cmd args rest c' s' hcmd hne ⟨hplain, -⟩ -
      rcases (hplain (cmd :: args) (List.mem_cons_self ..)).2.2 with hexit | hext
      · exact absurd (Option.some.inj hexit) hne
      · exact absurd rfl (hext cmd hcmd)
  have hends := hrules.execRows rows c ⟨hrows, by rw [if_neg hne]; exact h⟩
  cases hr : execRows inp pc rows c with
  | next c' =>
    rw [hr] at hends
    exact hends.2
  | exited c' => trivial
  | crashed => trivial

/-- The process loop leaves the records, and `exit` clears those of its user. -/
theorem execRows_record (inp : LineInput) (pc : ℕ) {c : Call} (hrec : Recorded c.server)
    (rows : List (List Token)) : (execRows inp pc rows c).Ends
      (fun c' => c'.server.namePipeRecord = c.server.namePipeRecord)
      (fun c' => ∀ a r, c'.server.namePipeRecord a r = true ↔
        c.server.namePipeRecord a r = true ∧ ¬ (a = c.u + 1 ∨ r = c.u + 1)) := by
  have hrules : RowRules inp pc
      (fun _ c' => c'.u = c.u ∧ c'.server.namePipeRecord = c.server.namePipeRecord)
      (fun c' => ∀ a r, c'.server.namePipeRecord a r = true ↔
        c.server.namePipeRecord a r = true ∧ ¬ (a = c.u + 1 ∨ r = c.u + 1)) := by
    refine ⟨?_, ?_, ?_⟩
    · rintro cmd args rest c' - ⟨hu, heq⟩
      exact ⟨hu, (fork_tables ..).record.trans heq⟩
    · rintro cmd args rest c' s' - - ⟨hu, heq⟩ hs
      exact ⟨hu, hs.record.trans heq⟩
    · rintro args rest c' ⟨hu, heq⟩ a r
      simp only [exitUser, broadcastMsg, Server.print, modifyUser, heq, hu]
      split_ifs with hcleared
      · simp [hcleared.2.2.2.2]
      · refine (and_iff_left_of_imp fun har hcon => hcleared ?_).symm
        obtain ⟨⟨ha1, ha30, -⟩, hr1, hr30, -⟩ := hrec a r har
        exact ⟨ha1, ha30, hr1, hr30, hcon⟩
  have hends := hrules.execRows rows c ⟨rfl, rfl⟩
  cases hr : execRows inp pc rows c with
  | next c' =>
    rw [hr] at hends
    exact hends.2
  | exited c' =>
    rw [hr] at hends
    exact hends
  | crashed => trivial

/-- At the beginning of the loop, 0 to 2 and the end of the new pipe are nothing a fork closes. -/
theorem Posting.aside {s : Server} {u x : ℕ} {L : Ledger (ℕ × ℕ)} {c : Call} (h : Posting s u L c)
    (hx : Plain s.kernel x) : c.resolve.vars.Aside x := by
  refine Vars.aside_of_not_mem ?_ fun hclose => ?_
  · show c.vars.kernel.get x ≠ none
    rw [h.kept x hx.1]
    exact hx.1
  · obtain ⟨a, p, ha, hxp, -⟩ := closable_held hclose
    exact h.not_end hx ha hxp

/-- The pipe the line takes is what its first command reads, whichever branch forks it. -/
theorem Loaded.stdin {s : Server} {u a : ℕ} {l : UserLine} {L L' : Ledger (ℕ × ℕ)} {c : Call}
    (h : Loaded s u l L L' c) (h0 : Plain s.kernel 0) (ha : a ∈ l.takes) (opens : Opens) (pc : ℕ) :
    ∃ id, L.mail (a, u + 1) = some id ∧
      ∀ last, (c.resolve.vars.forkProcess opens pc last).2.get 0 = some (.pipeR id) := by
  obtain ⟨id, np, hid, hpair, hget⟩ := h.read a ha
  refine ⟨id, hid, fun last => ?_⟩
  have hname : c.resolve.vars.namePipeIn = some np := hpair
  have hdue : c.resolve.vars.numPipeInFlag = false := h.due
  have hheld : Held c.server (c.live 0) c.takenPair .taken np := hpair
  have hfd : c.resolve.vars.stdinFd = some np.1 := by
    rw [Vars.stdinFd, hdue, hname]
    rfl
  have hbefore : np.1 ∉ c.resolve.vars.beforeCloses := by
    rw [Vars.beforeCloses, hname]
    intro hmem
    rcases List.mem_append.mp hmem with hmem | hmem
    · obtain ⟨e, he, heq⟩ := List.mem_map.mp hmem
      obtain ⟨he, hdead⟩ := List.mem_filter.mp he
      have hzero : e.restLine = 0 := by simpa [PipeDead] using hdead
      have hpend : Held c.server (c.live 0) c.takenPair (.pending c.u e) (e.p0, e.p1) := by
        refine ⟨?_, rfl⟩
        rw [Call.live, Function.update_self, mem_atLeast]
        exact ⟨he, hzero.ge⟩
      exact (h.wired.apart hheld hpend (by simp)).2.1 heq.symm
    · obtain ⟨id', -, h1, h2⟩ := h.wired.ends _ _ hheld
      have heq : np.1 = np.2 := by simpa using hmem
      rw [heq, h2] at h1
      cases h1
  refine Vars.forkProcess_stdin hfd ?_ (h.toPosting.aside h0).1 fun _ => h.fdIn
  have hopen : c.resolve.vars.kernel.get np.1 ≠ none := h.wired.open_fst hheld
  rw [Vars.get_forkKernel hopen hbefore]
  exact hget

/-- The pipe the line makes is what its last command writes. -/
theorem Loaded.writing {s : Server} {u r : ℕ} {l : UserLine} {L L' : Ledger (ℕ × ℕ)} {c : Call}
    (h : Loaded s u l L L' c) (hstd : ∀ x < 3, Plain s.kernel x)
    (hfixed : ∀ x, Fixed s x → x ≠ 0 ∧ Plain s.kernel x) (hr : l.gives = some r) :
    ∃ out id, Writing out id c.resolve.vars ∧ s.kernel.pipes ≤ id ∧ id < c.vars.kernel.pipes ∧
      L' = (L.collect (l.keys u)).put (u + 1, r) id := by
  obtain ⟨-, hrecv, ⟨hfile, hshock, hnumber⟩, id, hle, hlt, rfl⟩ := h.made r hr
  have hcu := h.u
  obtain ⟨hrec, hget⟩ := (h.mail (u + 1) r id).mp (by rw [Ledger.mail_put, if_pos rfl])
  have hheld : Held c.server (c.live 1) none (.named (u + 1) r)
      ((c.server.user (r - 1)).namePipe u) := ⟨hrec, rfl⟩
  obtain ⟨id', -, hfst, hsnd⟩ := h.wired.ends _ _ (held_live_mono c.takenPair hheld)
  have hid : id' = id := by
    rw [Nat.add_sub_cancel, hfst] at hget
    cases hget
    rfl
  subst hid
  have hspared := ((Running.start h.toReading hstd hfixed).spared _
    (Or.inr ⟨_, _, hheld, Or.inr rfl⟩)).1
  have hzero := hstd 0 (by decide)
  have hne : ((c.server.user (r - 1)).namePipe u).2 ≠ 0 := by
    intro heq
    exact h.not_end hzero (held_live_mono c.takenPair hheld) (Or.inr heq.symm)
  refine ⟨_, id', ⟨hfile, hshock, hnumber, ?_, hsnd, hne, ?_, h.toPosting.aside hzero,
    h.toPosting.aside (hstd 1 (by decide))⟩, hle, hlt, rfl⟩
  · show c.receiver.map (fun r => ((c.server.user (r - 1)).namePipe c.u).2) = _
    rw [hrecv, hcu]
    rfl
  · exact Vars.aside_of_not_mem hspared.1 fun hx => hspared.2 (List.mem_of_mem_tail hx)

/-- After the process loop the pipes wait that waited before it, but for those that are `gone`. -/
theorem Posting.after {s : Server} {u : ℕ} {L M : Ledger (ℕ × ℕ)} {c c' : Call} {out : Bool}
    {gone : ℕ → ℕ → Prop} (h : Posting s u L c) (hrun : Running out c.resolve c')
    (hrec : ∀ a r, c'.server.namePipeRecord a r = true ↔ c.server.namePipeRecord a r = true ∧ ¬ gone a r)
    (hmail : ∀ a r id, M.mail (a, r) = some id ↔ L.mail (a, r) = some id ∧ ¬ gone a r) :
    Mirrors M c'.leave c'.leave.kernel := by
  intro a r id
  have hpair : ((c'.leave.user (r - 1)).namePipe (a - 1)) = (c.server.user (r - 1)).namePipe (a - 1) := by
    rw [leave_namePipe, hrun.namePipe]
    rfl
  rw [hmail, h.mail a r id, Carries, Carries, hpair,
    show c'.leave.namePipeRecord = c'.server.namePipeRecord from rfl, hrec]
  have hget : c.server.namePipeRecord a r = true →
      c'.leave.kernel.get ((c.server.user (r - 1)).namePipe (a - 1)).1 =
        c.vars.kernel.get ((c.server.user (r - 1)).namePipe (a - 1)).1 := fun har =>
    (hrun.spared _ (Or.inr ⟨.named a r, _, ⟨har, rfl⟩, Or.inl rfl⟩)).2
  constructor
  · rintro ⟨⟨har, hid⟩, hnot⟩
    exact ⟨⟨har, hnot⟩, (hget har).trans hid⟩
  · rintro ⟨⟨har, hnot⟩, hid⟩
    exact ⟨⟨har, (hget har).symm.trans hid⟩, hnot⟩

/-! ### What the children of a line tell -/

/-- The ledger after a line of user `u`, by its children and whether it was rejected: the pipes it takes
    up to the first that is not there; when it was accepted, the pipe its last child writes; and what waits
    for or from its user when it leaves. -/
def observeLine (L : Ledger (ℕ × ℕ)) (u : ℕ) (l : UserLine) (children : List Spawn)
    (error : Option PipeError) : Ledger (ℕ × ℕ) :=
  let L := L.collect (l.keys u)
  match error with
  | some _ => L
  | none =>
    if l.leaves then L.drop fun k => k.1 = u + 1 ∨ k.2 = u + 1
    else match l.gives, children.getLast?.bind fun child => child.fds.get 1 with
      | some r, some (.pipeW id) => L.put (u + 1, r) id
      | _, _ => L

/-- A line of user `u` against the ledger before it. When it is accepted, its commands up to `exit` are
    forked, the first reads every pipe that the line takes, and the last writes the pipe it makes. It is
    rejected when a pipe to the same user still waits. -/
structure LineMatched (L : Ledger (ℕ × ℕ)) (u : ℕ) (l : UserLine) (children : List Spawn)
    (error : Option PipeError) : Prop where
  program : error = none → children.map (·.argv.head?) = l.forked.map (·.head?)
  received : error = none → ∀ a ∈ l.takes, ∃ id, L.mail (a, u + 1) = some id ∧
    ∀ child, children.head? = some child → child.fds.get 0 = some (.pipeR id)
  sent : error = none → l.leaves = false → ∀ r ∈ l.gives, ∃ child id,
    children.getLast? = some child ∧ child.fds.get 1 = some (.pipeW id)
  refused : ∀ r ∈ l.gives, (L.collect (l.keys u)).mail (u + 1, r) ≠ none → error ≠ none

/-- Everything observed is older than the pipes to come. -/
theorem Loaded.valid_ledger {s : Server} {u : ℕ} {l : UserLine} {L L' : Ledger (ℕ × ℕ)} {c : Call}
    (h : Loaded s u l L L' c) (hvalid : L.Valid s.kernel.pipes) : L'.Valid c.vars.kernel.pipes := by
  have hcollect : (L.collect (l.keys u)).Valid s.kernel.pipes := hvalid.collect _
  cases hg : l.gives with
  | none =>
    rw [h.same hg]
    exact hcollect.mono h.pipes
  | some r =>
    obtain ⟨-, -, -, id, hle, hlt, hL'⟩ := h.made r hg
    rw [hL']
    exact hcollect.put _ hle hlt

/-- The process loop of a line, in which its user stays or leaves. -/
theorem Loaded.loop {s : Server} {u : ℕ} {l : UserLine} {L L' : Ledger (ℕ × ℕ)} {c c' : Call}
    (out : Bool) {inp : LineInput} (h : Loaded s u l L L' c) (hok : l.Ok) (hstd : ∀ x < 3, Plain s.kernel x)
    (hfixed : ∀ x, Fixed s x → x ≠ 0 ∧ Plain s.kernel x) (hvalid : L.Valid s.kernel.pipes)
    (hrows : execRows inp c.process.length c.process c.resolve = if out then .exited c' else .next c') :
    LineMatched L u l c'.spawned none ∧ Running out c.resolve c' ∧
      Mirrors (observeLine L u l c'.spawned none) c'.leave c'.leave.kernel ∧
      (observeLine L u l c'.spawned none).Valid c'.leave.kernel.pipes := by
  have hvalid' := h.valid_ledger hvalid
  have hplain : ∀ x ∈ c.process, Plainly x := by
    rw [h.process]
    exact hok.cmds
  have hrun := (@Running.rules c.resolve h.recorded inp c.process.length).execRows c.process c.resolve
    (Running.start h.toReading hstd hfixed)
  have hforked := execRows_forked inp c.process.length (c := c.resolve) h.spawned hplain
  have hrecord := execRows_record inp c.process.length (c := c.resolve) h.recorded c.process
  have hrefused : ∀ r ∈ l.gives, (L.collect (l.keys u)).mail (u + 1, r) ≠ none → (none : Option PipeError) ≠ none :=
    fun r hr hne => absurd (h.made r hr).1 hne
  have hreceived : ∀ a ∈ l.takes, ∃ id, L.mail (a, u + 1) = some id ∧
      ∀ child, c'.spawned.head? = some child → child.fds.get 0 = some (.pipeR id) := by
    intro a ha
    obtain ⟨id, hid, hfork⟩ := h.stdin (hstd 0 (by decide)) ha inp.opens c.process.length
    have hfirst := execRows_first inp c.process.length (c := c.resolve) h.spawned hfork c.process
    rw [hrows] at hfirst
    refine ⟨id, hid, ?_⟩
    cases out with
    | true => exact hfirst
    | false => exact hfirst
  have hprocess : c.resolve.process = l.cmds := h.process
  have hheads : ∀ {ls : List (List Token)}, c'.spawned.map (·.argv) = ls →
      c'.spawned.map (·.argv.head?) = ls.map (·.head?) := fun heq => by
    rw [← heq, List.map_map]
    rfl
  rw [hrows] at hrun
  rw [show execRows inp c.process.length c.resolve.process c.resolve = _ from hrows, hprocess]
    at hforked
  rw [hrows] at hrecord
  cases out with
  | false =>
    obtain ⟨hmap, hstay⟩ := hforked
    have hleaves : l.leaves = false := hstay
    have hall : l.cmds = l.forked := by
      refine (List.takeWhile_eq_self_iff.mpr fun x hx => ?_).symm
      have := List.any_eq_false.mp hstay x hx
      simpa using this
    have hlast : ∀ r ∈ l.gives, ∃ child id, c'.spawned.getLast? = some child ∧
        child.fds.get 1 = some (.pipeW id) ∧ L' = (L.collect (l.keys u)).put (u + 1, r) id := by
      intro r hr
      obtain ⟨out, id, hw, -, -, hL'⟩ := h.writing hstd hfixed hr
      have hne : c.process ≠ [] := by
        rw [h.process]
        exact List.cons_ne_nil _ _
      have hends := execRows_last inp c.process.length hw c.process hne hplain
      rw [hrows] at hends
      obtain ⟨child, hchild, hget⟩ := hends
      exact ⟨child, id, hchild, hget, hL'⟩
    have hobs : observeLine L u l c'.spawned none = L' := by
      unfold observeLine
      dsimp only
      rw [hleaves]
      cases hg : l.gives with
      | none => exact (h.same hg).symm
      | some r =>
        obtain ⟨child, id, hchild, hget, hL'⟩ := hlast r hg
        simp [hchild, hget, hL']
    refine ⟨⟨fun _ => hheads (hmap.trans hall), fun _ => hreceived, fun _ _ r hr => ?_, hrefused⟩, hrun, ?_⟩
    · obtain ⟨child, id, hchild, hget, -⟩ := hlast r hr
      exact ⟨child, id, hchild, hget⟩
    · rw [hobs]
      have hrecord : c'.server.namePipeRecord = c.server.namePipeRecord := hrecord
      refine ⟨?_, hvalid'.mono hrun.pipes⟩
      refine @Posting.after _ _ _ _ _ _ _ (fun _ _ => False) h.toPosting hrun (fun a r => ?_) fun a r id => ?_
      · rw [hrecord]
        simp
      · simp
  | true =>
    obtain ⟨hmap, hout⟩ := hforked
    have hleaves : l.leaves = true := hout
    have hobs : observeLine L u l c'.spawned none = L'.drop fun k => k.1 = u + 1 ∨ k.2 = u + 1 := by
      unfold observeLine
      dsimp only
      rw [hleaves, if_pos rfl]
      cases hg : l.gives with
      | none => rw [h.same hg]
      | some r =>
        obtain ⟨-, -, -, id, -, -, hL'⟩ := h.made r hg
        rw [hL']
        exact (Ledger.drop_put (p := fun k : ℕ × ℕ => k.1 = u + 1 ∨ k.2 = u + 1) (Or.inl rfl)).symm
    refine ⟨⟨fun _ => hheads hmap, fun _ => hreceived, fun _ hcon => ?_, hrefused⟩, hrun, ?_⟩
    · rw [hleaves] at hcon
      cases hcon
    · rw [hobs]
      have hcu : c.resolve.u = u := h.u
      rw [hcu] at hrecord
      refine ⟨h.toPosting.after hrun hrecord fun a r id => ?_, (hvalid'.drop _).mono hrun.pipes⟩
      simp only [Ledger.drop]
      split_ifs with hgone <;> simp [hgone]

/-- A call on a line, from a server where the ledger says what waits. -/
theorem npshell_matched {s : Server} {u : ℕ} {L : Ledger (ℕ × ℕ)} {inp : LineInput} {l : UserLine}
    {ret : Return} (h : npshell s u inp = some ret) (hrec : Recorded s)
    (hw : Wired s.kernel (Held s s.live none)) (hu : u < qlen ∧ (s.user u).valid = true)
    (hstd : ∀ x < 3, Plain s.kernel x) (hfixed : ∀ x, Fixed s x → x ≠ 0 ∧ Plain s.kernel x)
    (hmail : Mirrors L s s.kernel) (hvalid : L.Valid s.kernel.pipes)
    (hdue : ∀ e ∈ (s.user u).numPipeVec, e.restLine ≠ 1) (htok : tokens ' ' inp.line = l.tokens)
    (hok : l.Ok) (hfits : l.Fits) (hclear : Accepts s u l → l.Single u) :
    LineMatched L u l ret.spawned ret.error ∧ AfterCall s u ret ∧
      Mirrors (observeLine L u l ret.spawned ret.error) ret.server ret.server.kernel ∧
      (observeLine L u l ret.spawned ret.error).Valid ret.server.kernel.pipes := by
  have hstart : Posting (s.setPath u) u L (startCall (s.setPath u) u) := by
    refine ⟨Reading.start u hrec hw, hmail, ?_, rfl⟩
    show (false || ((s.user u).numPipeVec.map fun t => { t with restLine := t.restLine - 1 }).any PipeDead) =
      false
    rw [Bool.false_or, List.any_map, List.any_eq_false]
    intro e he
    have := hdue e he
    simp only [Function.comp_apply, PipeDead, beq_iff_eq]
    omega
  have hload := parse_loaded hstart hu htok hok hfits hclear
  cases npshell_outcome h with
  | blank hnil =>
    rw [hnil] at htok
    cases htok
  | @rejected c e _ hp =>
    rw [hp] at hload
    have hmatched : LineMatched L u l [] (some e) := by
      constructor <;> simp
    refine ⟨hmatched, (hload.toReading.afterCall hstd hfixed _ _).of_setPath, ?_, ?_⟩
    · exact Mirrors.frame hload.mail rfl (fun i => leave_namePipe c i) fun _ _ _ => rfl
    · exact (hvalid.collect _).mono hload.pipes
  | @ended c c' _ hp hrows =>
    rw [hp] at hload
    obtain ⟨L', hload⟩ := hload
    obtain ⟨hmatched, hrun, hmirrors, hle⟩ := hload.loop false hok hstd hfixed hvalid hrows
    exact ⟨hmatched, (Running.afterCall hload.toReading hrun hstd hfixed).of_setPath, hmirrors, hle⟩
  | @exited c c' _ hp hrows =>
    rw [hp] at hload
    obtain ⟨L', hload⟩ := hload
    obtain ⟨hmatched, hrun, hmirrors, hle⟩ := hload.loop true hok hstd hfixed hvalid hrows
    exact ⟨hmatched, (Running.afterCall hload.toReading hrun hstd hfixed).of_setPath, hmirrors, hle⟩

/-! ### Runs -/

/-- What happens to the server: a client logs in, or a user (by index) sends a blank line or a line of the
    language. -/
inductive Act where
  | login (addr : List Char) (port junk : ℕ)
  | blank (u : ℕ) (inp : LineInput)
  | line (u : ℕ) (inp : LineInput) (l : UserLine)

/-- What `select` and `read` give the server. -/
def Act.input (s : Server) : Act → Input
  | .login addr port junk => .accept addr port junk
  | .blank u inp => .line (s.user u).sock inp
  | .line u inp _ => .line (s.user u).sock inp

/-- What may happen: at most 30 clients are there, a line comes from one of them and is what it is said to
    be, and no number pipe is due on it. -/
def Admits (s : Server) : Act → Prop
  | .login _ _ _ => s.validUsers.length < qlen
  | .blank u inp => (u < qlen ∧ (s.user u).valid = true) ∧ inp.line = []
  | .line u inp l => (u < qlen ∧ (s.user u).valid = true) ∧ tokens ' ' inp.line = l.tokens ∧ l.Ok ∧
      ∀ e ∈ (s.user u).numPipeVec, e.restLine ≠ 1

/-- An accepted line takes one pipe at most, and it does not make the pipe of its user to itself after
    taking it; the ids fit an `int`. -/
def Clear (s : Server) : Act → Prop
  | .login _ _ _ => True
  | .blank _ _ => True
  | .line u _ l => l.Fits ∧ (Accepts s u l → l.Single u)

instance (s : Server) : (a : Act) → Decidable (s.Admits a)
  | .login _ _ _ => inferInstanceAs (Decidable (_ < _))
  | .blank _ _ => inferInstanceAs (Decidable (_ ∧ _))
  | .line _ _ _ => inferInstanceAs (Decidable (_ ∧ _))

instance (s : Server) : (a : Act) → Decidable (s.Clear a)
  | .login _ _ _ => isTrue trivial
  | .blank _ _ => isTrue trivial
  | .line _ _ _ => inferInstanceAs (Decidable (_ ∧ (_ → _)))

/-- Every act of a run meets a condition on the server before it. -/
def Throughout (P : Server → Act → Prop) : Server → List Act → Prop
  | _, [] => True
  | s, a :: as => P s a ∧ ∀ r ∈ s.step (a.input s), Throughout P r.1 as

instance decidableThroughout (P : Server → Act → Prop) [∀ s a, Decidable (P s a)] :
    ∀ (as : List Act) (s : Server), Decidable (Throughout P s as)
  | [], _ => inferInstanceAs (Decidable True)
  | a :: as, s =>
    have := fun r : Server × List Spawn × Option PipeError => decidableThroughout P as r.1
    inferInstanceAs (Decidable (P s a ∧ ∀ r ∈ s.step (a.input s), Throughout P r.1 as))

/-- The ledger after an act. -/
def Act.observe (L : Ledger (ℕ × ℕ)) (children : List Spawn) (error : Option PipeError) :
    Act → Ledger (ℕ × ℕ)
  | .line u _ l => observeLine L u l children error
  | _ => L

/-- An act against the ledger before it. -/
def Act.Matched (L : Ledger (ℕ × ℕ)) (children : List Spawn) (error : Option PipeError) : Act → Prop
  | .line u _ l => LineMatched L u l children error
  | _ => True

/-- In every state the recorded pipes are between users that are logged in, every line does what the
    ledger says, and no pipe is taken twice. -/
def Matched : Ledger (ℕ × ℕ) → Server → List Act → Prop
  | L, s, [] => Recorded s ∧ L.taken.Nodup
  | L, s, a :: as => (Recorded s ∧ L.taken.Nodup) ∧ ∀ r ∈ s.step (a.input s),
      a.Matched L r.2.1 r.2.2 ∧ Matched (a.observe L r.2.1 r.2.2) r.1 as

/-- Between two acts the ledger says what waits. -/
structure Posted (L : Ledger (ℕ × ℕ)) (s : Server) : Prop where
  sound : ∃ conn, Sound conn s
  mail : Mirrors L s s.kernel
  valid : L.Valid s.kernel.pipes

/-- A login. -/
theorem Posted.login {L : Ledger (ℕ × ℕ)} {s s' : Server} {addr : List Char} {port junk : ℕ}
    (h : Posted L s) (hroom : s.validUsers.length < qlen)
    (hs : s.acceptClient addr port junk = some s') : Posted L s' := by
  obtain ⟨conn, hsound⟩ := h.sound
  obtain ⟨-, hker, -, hrec, -, huser⟩ := acceptClient_some hs
  refine ⟨⟨_, sound_accept hsound hroom hs⟩, ?_, ?_⟩
  · refine Mirrors.frame h.mail hrec (fun i => ?_) fun a r har => ?_
    · rw [huser]
      split_ifs with hi
      · rw [hi]
      · rfl
    · rw [hker]
      refine Kernel.get_alloc_of_open _ ?_
      exact hsound.wired.open_fst (held_named har)
  · rw [hker]
    exact h.valid

/-- What a call leaves is there when `main` has put its descriptors back. -/
theorem Posted.finish {conn : ℕ → ℕ} {L : Ledger (ℕ × ℕ)} {s : Server} {u : ℕ} {ret : Return}
    (h : Sound conn s) (hu : u < qlen ∧ (s.user u).valid = true)
    (hafter : AfterCall (s.dupStd (s.user u).sock (s.user u).sock (s.user u).sock) u ret)
    (hmail : Mirrors L ret.server ret.server.kernel) (hvalid : L.Valid ret.server.kernel.pipes) :
    Posted L (ret.server.finish (s.user u).sock u ret.zero) := by
  have hsound := sound_finish h hu.1 hu.2 hafter
  have huser := finish_user ret.server (s.user u).sock u ret.zero
  have hrec := finish_record ret.server (s.user u).sock u ret.zero
  have hpipes : (ret.server.finish (s.user u).sock u ret.zero).kernel.pipes = ret.server.kernel.pipes := by
    cases ret.zero <;> rfl
  refine ⟨⟨conn, hsound⟩, ?_, hpipes ▸ hvalid⟩
  refine Mirrors.frame hmail hrec (fun i => by rw [huser]) fun a r har => ?_
  have hlow := (hafter.low _ _ (held_named har)).1
  have hopen := hsound.wired.open_fst (held_named (hrec ▸ har))
  rw [huser, finish_get hlow] at hopen
  rw [finish_get hlow]
  split_ifs at hopen ⊢ with hclosed
  · exact absurd rfl hopen
  · rfl

/-- The server when `npshell` is called. -/
theorem Posted.start {L : Ledger (ℕ × ℕ)} {conn : ℕ → ℕ} {s : Server} (h : Posted L s)
    (hsound : Sound conn s) (fd : ℕ) : Mirrors L (s.dupStd fd fd fd) (s.dupStd fd fd fd).kernel := by
  refine Mirrors.frame h.mail rfl (fun _ => rfl) fun a r har => ?_
  have := (hsound.held_ge_seven (held_named har)).1
  exact dupStd_get_of_ge s _ _ _ (by omega)

/-- One act: it does what the ledger says, and the ledger after it says what waits. -/
theorem Posted.step {L : Ledger (ℕ × ℕ)} {s : Server} {a : Act}
    {r : Server × List Spawn × Option PipeError} (h : Posted L s) (had : s.Admits a) (hclear : s.Clear a)
    (hs : s.step (a.input s) = some r) :
    a.Matched L r.2.1 r.2.2 ∧ Posted (a.observe L r.2.1 r.2.2) r.1 := by
  obtain ⟨conn, hsound⟩ := h.sound
  cases a with
  | login addr port junk =>
    simp only [Act.input, Server.step, Option.map_eq_some_iff] at hs
    obtain ⟨s', hs', rfl⟩ := hs
    exact ⟨trivial, h.login had hs'⟩
  | blank u inp =>
    obtain ⟨hu, hnil⟩ := had
    obtain ⟨ret, hcall, rfl⟩ := hsound.step_line hu hs
    obtain ⟨hw, hstd, hfixed⟩ := hsound.dupStd hu.1 hu.2
    have hlow : ∀ a p, Held s s.live none a p → 3 ≤ p.1 ∧ 3 ≤ p.2 := fun a p ha => by
      have := hsound.held_ge_seven ha
      omega
    have hafter := npshell_after hcall hsound.recorded hw hu hstd hfixed hlow (by
      rw [lineReusesOwnPipe, hnil]
      rfl)
    rw [npshell, if_pos hnil, Option.some.injEq] at hcall
    subst hcall
    exact ⟨trivial, Posted.finish hsound hu hafter (h.start hsound _) h.valid⟩
  | line u inp l =>
    obtain ⟨hu, htok, hok, hdue⟩ := had
    obtain ⟨ret, hcall, rfl⟩ := hsound.step_line hu hs
    obtain ⟨hw, hstd, hfixed⟩ := hsound.dupStd hu.1 hu.2
    obtain ⟨hmatched, hafter, hmail, hvalid⟩ := npshell_matched hcall hsound.recorded hw hu hstd hfixed
      (h.start hsound _) h.valid hdue htok hok hclear.1 hclear.2
    exact ⟨hmatched, Posted.finish hsound hu hafter hmail hvalid⟩

theorem Posted.run : ∀ (as : List Act) {L : Ledger (ℕ × ℕ)} {s : Server}, Posted L s →
    Throughout Admits s as → Throughout Clear s as → Matched L s as
  | [], L, s, h, _, _ => by
    obtain ⟨conn, hsound⟩ := h.sound
    exact ⟨hsound.recorded, h.valid.once⟩
  | a :: as, L, s, h, ⟨had, hads⟩, ⟨hclear, hclears⟩ => by
    obtain ⟨conn, hsound⟩ := h.sound
    refine ⟨⟨hsound.recorded, h.valid.once⟩, fun r hr => ?_⟩
    obtain ⟨hmatched, hposted⟩ := h.step had hclear hr
    exact ⟨hmatched, hposted.run as (hads r hr) (hclears r hr)⟩

theorem posted_init (environ : Environ) : Posted .empty (init environ) where
  sound := ⟨fun _ => 0, sound_init environ _⟩
  mail := by
    intro a r id
    simp [Ledger.empty, Carries, init]
  valid := Ledger.valid_empty

/-- A line that is one command. -/
def oneCommand (name : Token) (words : List Word) (tail : Tail) : UserLine := ⟨name, words, [], tail⟩

/-- The first user types `ls >2`, the second `cat <1`, and the first leaves. -/
def pipedActs : List Act :=
  [.login [] 0 0, .login [] 0 0,
    .line 0 (typedLine ['l', 's', ' ', '>', '2']) (oneCommand ['l', 's'] [] (.user ['2'])),
    .line 1 (typedLine ['c', 'a', 't', ' ', '<', '1'])
      (oneCommand ['c', 'a', 't'] [.take ['1']] (.plain .none)),
    .line 0 (typedLine ['e', 'x', 'i', 't']) (oneCommand ['e', 'x', 'i', 't'] [] (.plain .none))]

/-- A user types `ls >1` and then `cat <1 >1`. -/
def ownPipeActs : List Act :=
  [.login [] 0 0,
    .line 0 (typedLine ['l', 's', ' ', '>', '1']) (oneCommand ['l', 's'] [] (.user ['1'])),
    .line 0 (typedLine ['c', 'a', 't', ' ', '<', '1', ' ', '>', '1'])
      (oneCommand ['c', 'a', 't'] [.take ['1']] (.user ['1']))]

end NetProg.Server
