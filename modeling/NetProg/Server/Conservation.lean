import NetProg.Server.Accounting

/-! The descriptors the server has open whenever it calls `select`.

    The first fork of a line closes what the line reads. The read end of a normal pipe is closed only by the
    last command: its own one, or the one before if the output goes elsewhere. A line that is rejected has
    no fork, and `exit` closes no pipe at all. -/

open NetProg.ParserSafety (Item serverGoesOn)

namespace NetProg.Server

/-- What should be open: the descriptors of `main`, the sockets of the users, the ends of their pending
    number pipes, and those of the recorded user pipes. -/
def Kept (s : Server) (x : ℕ) : Prop :=
  x < 7 ∨ (∃ i < qlen, (s.user i).valid = true ∧ x = (s.user i).sock) ∨
    (∃ i < qlen, (s.user i).valid = true ∧
      ∃ e ∈ (s.user i).numPipeVec, 1 ≤ e.restLine ∧ (x = e.p0 ∨ x = e.p1)) ∨
    ∃ a r, s.namePipeRecord a r = true ∧
      (x = ((s.user (r - 1)).namePipe (a - 1)).1 ∨ x = ((s.user (r - 1)).namePipe (a - 1)).2)

/-- Just what should be open is open. -/
def Conserved (s : Server) : Prop := ∀ x, s.kernel.get x ≠ none ↔ s.Kept x

/-! ### The lines that lose no descriptor -/

/-- A row is a command to fork. -/
def forked (argv : List Token) : Bool := argv.head?.any fun cmd => decide (cmd ∉ builtinCmds)

/-- The process loop closes the normal pipes it makes, and reads what the line has to read. `held` says
    that the read end of a normal pipe is open, `unread` that something has not been read, and
    `elsewhere` that the output of the last command is redirected. `bare` has to hold where the user
    leaves. -/
def RowsClose (pc : ℕ) (elsewhere : Bool) (bare : Prop) : Bool → Bool → List (List Token) → Prop
  | held, unread, [] => held = false ∧ unread = false
  | held, unread, argv :: rest =>
    if argv.head? = some Shell.exitCmd then held = false ∧ unread = false ∧ bare
    else if forked argv = false then RowsClose pc elsewhere bare held unread rest
    else if pc = 1 then RowsClose pc elsewhere bare held false rest
    else if rest = [] then held = true → elsewhere = true
    else held = false ∧ RowsClose pc elsewhere bare true false rest

/-- The user has no pipe, and its line makes none. -/
def Bare (s : Server) (u : ℕ) (items : List Item) : Prop :=
  (s.user u).numPipeVec = [] ∧ (∀ it ∈ items, pipeNumber it = none ∧ givenId it = none) ∧
    ∀ a ≤ qlen, s.namePipeRecord a (u + 1) = false ∧ s.namePipeRecord (u + 1) a = false

/-- A line of user `u` on which no descriptor is lost. -/
structure Balanced (s : Server) (u : ℕ) (toks : List Token) : Prop where
  orderly : Orderly u (come s u toks)
  rejected : ¬ Scan.Passes (serverGoesOn u s.checkIdExist) s.namePipeRecord (lineItems toks) →
    ¬ Due s u ∧ ∀ it ∈ come s u toks, takenId it = none
  rows : Scan.Passes (serverGoesOn u s.checkIdExist) s.namePipeRecord (lineItems toks) →
    RowsClose (lineRows toks).length ((come s u toks).any redirects) (Bare s u (come s u toks)) false
      ((s.user u).numPipeVec.any (fun e => e.restLine == 1) ||
        (come s u toks).any fun it => (takenId it).isSome) (lineRows toks)

/-- A client is accepted while a slot is free, nobody just disconnects, and no line loses a descriptor. -/
def Balances (s : Server) : Input → Prop
  | .accept _ _ _ => s.validUsers.length < qlen
  | .line fd inp => ∀ u ∈ s.findFdUser fd, inp.line ≠ [] → s.Balanced u (tokens ' ' inp.line)
  | .eof _ => False

/-! ### The process loop -/

/-- In the process loop every open descriptor is for something, but for the read end of a normal pipe. -/
structure Looping (bare : Prop) (held unread : Bool) (c : Call) : Prop where
  known : ∀ x, c.vars.kernel.get x ≠ none →
    Known c.server (c.live 0) c.vars.namePipeIn x ∨ (held = true ∧ x = c.vars.fdIn)
  flag : ∀ e ∈ c.vars.numPipeVec, e.restLine = 0 → c.vars.numPipeInFlag = true
  read : unread = false → c.vars.numPipeInFlag = false ∧ c.vars.namePipeIn = none
  bare : bare → c.vars.numPipeVec = [] ∧
    ∀ a r, c.server.namePipeRecord a r = true → a ≠ c.u + 1 ∧ r ≠ c.u + 1

variable {bare : Prop} {held unread elsewhere out : Bool} {c : Call}

theorem Looping.builtin (h : Looping bare held unread c) {s' : Server} (hs : SameTables c.server s') :
    Looping bare held unread { c with server := s' } where
  known := by
    intro x hx
    refine (h.known x hx).imp_left fun hk => ?_
    refine hk.imp (fun i => hs.valid i) (fun i => hs.sock i) fun a p ha _ => ?_
    rcases a with ⟨w, e⟩ | ⟨a, r⟩ | -
    · refine ⟨.pending w e, ?_, ha.2⟩
      have he := ha.1
      rcases eq_or_ne w c.u with rfl | hw
      · rwa [Call.live, Function.update_self] at he ⊢
      · rw [Call.live, Function.update_of_ne hw] at he ⊢
        rwa [Server.live, hs.numPipeVec]
    · exact ⟨.named a r, hs.record.symm ▸ ha.1, ha.2.trans (by rw [hs.namePipe])⟩
    · exact ⟨.taken, ha⟩
  flag := h.flag
  read := h.read
  bare := fun hbare => by
    obtain ⟨hvec, hrec⟩ := h.bare hbare
    exact ⟨hvec, fun a r har => hrec a r (hs.record ▸ har)⟩

/-- A fork closes what the line reads. The read end of a normal pipe from before is closed by the last
    command, if its output goes elsewhere. -/
theorem Looping.fork (h : Looping bare held unread c) (inp : LineInput) (pc : ℕ) (last : Bool)
    (argv : List Token) (hheld : held = true → pc = 1 ∨ c.vars.special last = true) :
    Looping bare (if pc = 1 then held else !last) false (c.fork inp pc last argv) := by
  obtain ⟨-, hvec, hflag, hname, hfd, -⟩ := Vars.forkProcess_fst c.vars inp.opens pc last
  have ht := fork_tables c inp pc last argv
  have hdead : ∀ e ∈ c.vars.numPipeVec, e ∉ c.vars.keptPipes →
      c.vars.numPipeInFlag = true ∧ PipeDead e = true := by
    intro e he hnot
    rw [Vars.keptPipes] at hnot
    split_ifs at hnot with hf
    · exact ⟨hf, by simpa [he] using hnot⟩
    · exact absurd he hnot
  refine ⟨fun x hx => ?_, fun e he hzero => ?_, fun _ => ⟨hflag, hname⟩, fun hbare => ?_⟩
  · have hfork : (c.fork inp pc last argv).vars = (c.vars.forkProcess inp.opens pc last).1 := rfl
    rcases Vars.open_after_fork hx with ⟨hbefore, hafter, hopen, hkept⟩ | ⟨hpc, hlast, hx⟩
    · rcases h.known x hopen with hk | ⟨hh, rfl⟩
      · left
        refine hk.imp ht.valid ht.sock fun a p ha hxp => ?_
        rcases a with ⟨w, e⟩ | ⟨a, r⟩ | -
        · obtain ⟨he, rfl⟩ := ha
          refine ⟨.pending w e, ?_, rfl⟩
          rcases eq_or_ne w c.u with rfl | hw
          · rw [Call.live, Function.update_self, mem_atLeast] at he
            rw [Call.live, show (c.fork inp pc last argv).u = c.u from rfl, Function.update_self, hfork,
              hvec, mem_atLeast]
            refine ⟨by_contra fun hnot => ?_, he.2⟩
            -- a due pipe loses both ends
            obtain ⟨hf, hd⟩ := hdead e he.1 hnot
            have hmem := List.mem_filter.mpr ⟨he.1, hd⟩
            rcases hxp with rfl | rfl
            · refine hafter (List.mem_append_left _ ?_)
              rw [if_pos hf]
              exact List.mem_map_of_mem hmem
            · exact hbefore (List.mem_append_left _ (List.mem_map_of_mem hmem))
          · rw [Call.live, Function.update_of_ne hw] at he
            rw [Call.live, Function.update_of_ne (show w ≠ (c.fork inp pc last argv).u from hw),
              Server.live, ht.numPipeVec]
            exact he
        · exact ⟨.named a r, ht.record.symm ▸ ha.1, ha.2.trans (by rw [ht.namePipe])⟩
        · -- so does the taken one
          have hin : c.vars.namePipeIn = some p := ha
          rcases hxp with rfl | rfl
          · exact absurd (List.mem_append_right _ (by simp [hin])) hafter
          · exact absurd (List.mem_append_right _ (by simp [hin])) hbefore
      · rcases hheld hh with hpc | hsp
        · refine Or.inr ⟨by rw [if_pos hpc]; exact hh, ?_⟩
          rw [hfork, hfd, if_neg (by simp [Vars.makesPipe, hpc])]
        · by_cases hpc : pc = 1
          · refine Or.inr ⟨by rw [if_pos hpc]; exact hh, ?_⟩
            rw [hfork, hfd, if_neg (by simp [Vars.makesPipe, hpc])]
          · exact absurd rfl (hkept hsp hpc)
    · exact Or.inr ⟨by rw [if_neg hpc, hlast]; rfl, hx⟩
  · have he : e ∈ c.vars.keptPipes := hvec ▸ he
    rw [Vars.keptPipes] at he
    split_ifs at he with hf
    · have halive := (List.mem_filter.mp he).2
      simp [PipeDead, hzero] at halive
    · exact absurd (h.flag e he hzero) hf
  · obtain ⟨hnil, hrec⟩ := h.bare hbare
    refine ⟨?_, fun a r har => hrec a r (ht.record ▸ har)⟩
    refine List.eq_nil_of_subset_nil fun e he => ?_
    have he : e ∈ c.vars.keptPipes := hvec ▸ he
    exact hnil ▸ c.vars.keptPipes_subset he

/-- The end of a call: every open descriptor is for something, but for the socket of a user who leaves. -/
structure Ended (out : Bool) (c : Call) : Prop where
  known : ∀ x, c.vars.kernel.get x ≠ none →
    Known c.server (c.live 1) none x ∨ (out = true ∧ x = (c.server.user c.u).sock)
  vacant : out = true → c.vars.numPipeVec = []

/-- When all has been read, what is not pending is closed. -/
theorem Looping.known_pending (h : Looping bare false false c) {x : ℕ} (hx : c.vars.kernel.get x ≠ none) :
    Known c.server (c.live 1) none x := by
  obtain ⟨hflag, hname⟩ := h.read rfl
  have hk := (h.known x hx).resolve_right fun hcon => Bool.false_ne_true hcon.1
  rw [hname] at hk
  refine hk.imp (fun _ => rfl) (fun _ => rfl) fun a p ha _ => ?_
  rcases a with ⟨w, e⟩ | ⟨a, r⟩ | -
  · refine ⟨.pending w e, ?_, ha.2⟩
    have he := ha.1
    rcases eq_or_ne w c.u with rfl | hw
    · rw [Call.live, Function.update_self, mem_atLeast] at he ⊢
      have hne : e.restLine ≠ 0 := fun hzero => by
        have := h.flag e he.1 hzero
        rw [hflag] at this
        cases this
      exact ⟨he.1, by omega⟩
    · rwa [Call.live, Function.update_of_ne hw] at he ⊢
  · exact ⟨.named a r, ha⟩
  · cases ha

theorem Looping.ended (h : Looping bare false false c) : Ended false c :=
  ⟨fun _ hx => Or.inl (h.known_pending hx), fun hout => by cases hout⟩

/-- A user who leaves has no pipe: what is forgotten is its socket. -/
theorem Looping.exit (h : Looping bare false false c) (hbare : bare) :
    Ended true { c with server := exitUser c.server c.u } := by
  obtain ⟨hvec, hrec⟩ := h.bare hbare
  have huser : ∀ i, i ≠ c.u → (exitUser c.server c.u).user i = c.server.user i := fun i hi => by
    rw [exitUser_user, if_neg hi]
  have hpair : ∀ i, ((exitUser c.server c.u).user i).namePipe = (c.server.user i).namePipe ∧
      ((exitUser c.server c.u).user i).sock = (c.server.user i).sock := by
    intro i
    rw [exitUser_user]
    split_ifs with hi
    · rw [hi]
      exact ⟨rfl, rfl⟩
    · exact ⟨rfl, rfl⟩
  refine ⟨fun x hx => ?_, fun _ => hvec⟩
  rcases h.known_pending hx with hlow | ⟨i, hi, hv, rfl⟩ | ⟨a, p, ha, hxp⟩
  · exact Or.inl (Or.inl hlow)
  · rcases eq_or_ne i c.u with rfl | hne
    · exact Or.inr ⟨rfl, (hpair _).2.symm⟩
    · refine Or.inl (Or.inr (Or.inl ⟨i, hi, ?_, (hpair i).2.symm⟩))
      rw [huser i hne]
      exact hv
  · refine Or.inl (Or.inr (Or.inr ⟨a, p, ?_, hxp⟩))
    rcases a with ⟨w, e⟩ | ⟨a, r⟩ | -
    · refine ⟨?_, ha.2⟩
      have he := ha.1
      rcases eq_or_ne w c.u with rfl | hw
      · rw [Call.live, Function.update_self, hvec] at he
        cases he
      · rw [Call.live, Function.update_of_ne hw] at he ⊢
        rwa [Server.live, huser w hw]
    · obtain ⟨har, hp⟩ := ha
      obtain ⟨ha1, hr1⟩ := hrec a r har
      refine ⟨?_, hp.trans (by rw [(hpair _).1])⟩
      show (if _ then false else c.server.namePipeRecord a r) = true
      rw [if_neg (fun hcon => hcon.2.2.2.2.elim ha1 hr1)]
      exact har
    · cases ha

/-- What is true of the rows still to be executed. -/
def LoopAt (pc : ℕ) (elsewhere : Bool) (bare : Prop) (rows : List (List Token)) (c : Call) : Prop :=
  ∃ held unread, RowsClose pc elsewhere bare held unread rows ∧ Looping bare held unread c ∧
    (elsewhere = true → rows ≠ [] → c.vars.special true = true)

/-- A command before the last leaves the choice of the last branch as it is. -/
theorem special_fork (v : Vars) (opens : Opens) (pc : ℕ) :
    (v.forkProcess opens pc false).1.special true = v.special true := by
  obtain ⟨-, -, -, -, -, hshock, -, hwrite, hnum, -⟩ := v.forkProcess_fst opens pc false
  rw [Vars.special, Vars.special, hshock, hwrite, hnum, v.forkProcess_namePipeOut]
  simp

theorem loop_rules (inp : LineInput) (pc : ℕ) (elsewhere : Bool) (bare : Prop) :
    RowRules inp pc (LoopAt pc elsewhere bare) (Ended true) where
  fork := by
    rintro cmd args rest c hcmd ⟨held, unread, hrows, h, hspecial⟩
    have hexit : ¬ (cmd :: args).head? = some Shell.exitCmd := by
      rintro hcon
      exact hcmd (Option.some.inj hcon ▸ by simp [builtinCmds])
    have hforked : ¬ forked (cmd :: args) = false := by simp [forked, hcmd]
    rw [RowsClose, if_neg hexit, if_neg hforked] at hrows
    -- the flags of the last command are left alone by the others
    have hkeep : elsewhere = true → rest ≠ [] →
        (c.fork inp pc rest.isEmpty (cmd :: args)).vars.special true = true := by
      intro he hne
      have hempty : rest.isEmpty = false := by simpa using hne
      show (c.vars.forkProcess inp.opens pc rest.isEmpty).1.special true = true
      rw [hempty, special_fork]
      exact hspecial he (List.cons_ne_nil _ _)
    split_ifs at hrows with hpc hnil
    · have hfork := h.fork inp pc rest.isEmpty (cmd :: args) fun _ => Or.inl hpc
      rw [if_pos hpc] at hfork
      exact ⟨held, false, hrows, hfork, hkeep⟩
    · subst hnil
      have hfork := h.fork inp pc true (cmd :: args) fun hh =>
        Or.inr (hspecial (hrows hh) (List.cons_ne_nil _ _))
      rw [if_neg hpc] at hfork
      exact ⟨false, false, ⟨rfl, rfl⟩, hfork, hkeep⟩
    · obtain ⟨hheld, hrows⟩ := hrows
      have hempty : rest.isEmpty = false := by simpa using hnil
      have hfork := h.fork inp pc rest.isEmpty (cmd :: args) fun hh => by
        rw [hheld] at hh
        cases hh
      rw [if_neg hpc, hempty, Bool.not_false] at hfork
      exact ⟨true, false, hrows, hempty ▸ hfork, hkeep⟩
  builtin := by
    rintro cmd args rest c s' hcmd hne ⟨held, unread, hrows, h, hspecial⟩ hs
    have hexit : ¬ (cmd :: args).head? = some Shell.exitCmd := fun hcon => hne (Option.some.inj hcon)
    have hforked : forked (cmd :: args) = false := by simp [forked, hcmd]
    rw [RowsClose, if_neg hexit, if_pos hforked] at hrows
    exact ⟨held, unread, hrows, h.builtin hs, fun he _ => hspecial he (List.cons_ne_nil _ _)⟩
  exit := by
    rintro args rest c ⟨held, unread, hrows, h, -⟩
    have hexit : (Shell.exitCmd :: args).head? = some Shell.exitCmd := rfl
    rw [RowsClose, if_pos hexit] at hrows
    obtain ⟨rfl, rfl, hbare⟩ := hrows
    exact h.exit hbare

/-! ### A call -/

variable {s : Server} {u : ℕ} {done : List Item} {inp : LineInput}

theorem bare_kept (hacc : Accounting s u done c) (hrec : Recorded s) (hbare : Bare s u done) :
    c.vars.numPipeVec = [] ∧
      ∀ a r, c.server.namePipeRecord a r = true → a ≠ c.u + 1 ∧ r ≠ c.u + 1 := by
  obtain ⟨hvec, hnone, hrecord⟩ := hbare
  refine ⟨hacc.bare hvec fun it hit => (hnone it hit).1, fun a r har => ?_⟩
  have hs := hacc.given (fun it hit => (hnone it hit).2) a r har
  obtain ⟨⟨-, ha30, -⟩, -, hr30, -⟩ := hrec a r hs
  rw [hacc.u]
  constructor
  · rintro rfl
    rw [(hrecord r hr30).2] at hs
    cases hs
  · rintro rfl
    rw [(hrecord a ha30).1] at hs
    cases hs

/-- When the tokens have been read, the process loop can begin. -/
theorem Accounting.looping (h : Accounting s u done c) (hrec : Recorded s) (unread : Bool)
    (hunread : unread = false → ¬ Due s u ∧ ∀ it ∈ done, takenId it = none) :
    Looping (Bare s u done) false unread c.resolve where
  known := fun x hx => Or.inl (h.known x hx)
  flag := h.flag
  read := fun hf => by
    obtain ⟨hdue, hnone⟩ := hunread hf
    refine ⟨Bool.eq_false_of_not_eq_true fun hflag => hdue (h.due hflag), ?_⟩
    show c.takenPair = none
    cases hs : c.sender with
    | none => rw [Call.takenPair, hs, Option.map_none]
    | some a =>
      obtain ⟨it, hit, hid⟩ := h.taken a hs
      rw [hnone it hit] at hid
      cases hid
  bare := fun hbare => by
    have hkept := bare_kept h hrec hbare
    exact hkept

theorem Accounting.special (h : Accounting s u done c) (helse : done.any redirects = true) :
    c.resolve.vars.special true = true := by
  have hsuffix := h.suffix helse
  rw [Vars.special]
  simpa [Call.resolve] using hsuffix

/-- After a call: every open descriptor is for something, but for the socket of a user who leaves, and that
    user has no number pipe. -/
structure Accounted (s : Server) (u : ℕ) (r : Return) : Prop where
  known : ∀ x, r.server.kernel.get x ≠ none →
    Known r.server r.server.live none x ∨ (r.zero = true ∧ x = (r.server.user u).sock)
  vacant : r.zero = true → (r.server.user u).numPipeVec = []

theorem Ended.accounted (h : Ended out c) (hu : c.u = u) (spawned : List Spawn) (error : Option PipeError) :
    Accounted s u ⟨c.leave, out, spawned, error⟩ where
  known := by
    intro x hx
    rcases h.known x hx with hk | ⟨hout, rfl⟩
    · left
      refine hk.imp (fun i => leave_valid ..) (fun i => leave_sock ..) fun a p ha _ => ?_
      rcases a with ⟨w, e⟩ | ⟨a, r⟩ | -
      · exact ⟨.pending w e, by rw [live_leave]; exact ha.1, ha.2⟩
      · exact ⟨.named a r, ha.1, ha.2.trans (by rw [leave_namePipe])⟩
      · cases ha
    · exact Or.inr ⟨hout, by rw [leave_sock, hu]⟩
  vacant := fun hout => by
    rw [leave_user, if_pos hu.symm]
    exact h.vacant hout

/-- A call on a line that loses no descriptor: its tokens are read well, and all that is open when it
    returns is for something. -/
theorem npshell_accounted {r : Return} (h : npshell s u inp = some r) (hrec : Recorded s)
    (hw : Wired s.kernel (Held s s.live none))
    (hknown : ∀ x, s.kernel.get x ≠ none → Known s s.live none x)
    (hu : u < qlen ∧ (s.user u).valid = true)
    (hbal : inp.line ≠ [] → s.Balanced u (tokens ' ' inp.line)) :
    (parse (s.setPath u) u inp).All (Reading (s.setPath u) u) ∧ Accounted s u r := by
  rcases eq_or_ne inp.line [] with hline | hline
  · cases npshell_outcome h with
    | blank _ =>
      refine ⟨?_, fun x hx => Or.inl (hknown x hx), fun hz => by cases hz⟩
      rw [parse, hline]
      trivial
    | rejected hne | ended hne | exited hne => exact absurd hline hne
  · obtain ⟨horderly, hrejected, hrows⟩ := hbal hline
    have hends : (parse (s.setPath u) u inp).Ends _ _ :=
      parse_accounts (s := s.setPath u) hrec hw hknown hu horderly
    -- the process loop of a line that has been read
    have hloop : ∀ d : Call, parse (s.setPath u) u inp = .ok d →
        (execRows inp d.process.length d.process d.resolve).Ends (Ended false) (Ended true) ∧ d.u = u := by
      intro d hp
      rw [hp] at hends
      obtain ⟨hacc, hprocess, hpass⟩ := hends
      have hrows := hrows hpass
      rw [← hprocess] at hrows
      have hstart := hacc.looping hrec (((s.user u).numPipeVec.any fun e => e.restLine == 1) ||
        (come s u (tokens ' ' inp.line)).any fun it => (takenId it).isSome) fun hunread => by
          obtain ⟨hdue, htaken⟩ := Bool.or_eq_false_iff.mp hunread
          refine ⟨?_, fun it hit => ?_⟩
          · rintro ⟨e, he, hone⟩
            exact absurd (beq_iff_eq.mpr hone) (List.any_eq_false.mp hdue e he)
          · exact Option.not_isSome_iff_eq_none.mp (List.any_eq_false.mp htaken it hit)
      have hat : LoopAt d.process.length _ _ d.process d.resolve :=
        ⟨false, _, hrows, hstart, fun helse _ => hacc.special helse⟩
      refine ⟨?_, hacc.u⟩
      have hexec := (loop_rules inp d.process.length _ _).execRows d.process d.resolve hat
      cases hr : execRows inp d.process.length d.process d.resolve with
      | next c' =>
        rw [hr] at hexec
        obtain ⟨held, unread, ⟨rfl, rfl⟩, hlooping, -⟩ := hexec
        exact hlooping.ended
      | exited c' =>
        rw [hr] at hexec
        exact hexec
      | crashed => trivial
    have hsame : ∀ d c' : Call, (execRows inp d.process.length d.process d.resolve = .next c' ∨
        execRows inp d.process.length d.process d.resolve = .exited c') → c'.u = d.u := by
      intro d c' hr
      have hexec := @execRows_u inp d.process.length d.process d.resolve
      rcases hr with hr | hr <;> rw [hr] at hexec <;> exact hexec
    cases npshell_outcome h with
    | blank hblank => exact absurd hblank hline
    | rejected _ hp =>
      rw [hp] at hends ⊢
      obtain ⟨hacc, hstop⟩ := hends
      have hlooping := hacc.looping hrec false fun _ => hrejected hstop
      have hended : Ended false _ := ⟨fun x hx => Or.inl (hlooping.known_pending hx), fun hout => by cases hout⟩
      exact ⟨hacc.toReading, hended.accounted hacc.u _ _⟩
    | ended _ hp hr =>
      obtain ⟨hexec, hcu⟩ := hloop _ hp
      rw [hr] at hexec
      rw [hp] at hends ⊢
      exact ⟨hends.1.toReading, hexec.accounted ((hsame _ _ (Or.inl hr)).trans hcu) _ _⟩
    | exited _ hp hr =>
      obtain ⟨hexec, hcu⟩ := hloop _ hp
      rw [hr] at hexec
      rw [hp] at hends ⊢
      exact ⟨hends.1.toReading, hexec.accounted ((hsame _ _ (Or.inr hr)).trans hcu) _ _⟩

/-! ### A run -/

/-- Between two inputs: every open descriptor is for something, and only users have number pipes. -/
structure Tallied (s : Server) : Prop where
  known : ∀ x, s.kernel.get x ≠ none → Known s s.live none x
  vacant : ∀ i, (s.user i).numPipeVec ≠ [] → i < qlen ∧ (s.user i).valid = true

theorem Tallied.accept {s s' : Server} {addr : List Char} {port junk : ℕ} (h : Tallied s)
    (hfree : s.validUsers.length < qlen) (hs : s.acceptClient addr port junk = some s') : Tallied s' := by
  obtain ⟨hi, hker, -, hrec, -, huser⟩ := acceptClient_some hs
  have hempty := spaceInd_free junk hfree
  have hsame : ∀ j, (s'.user j).numPipeVec = (s.user j).numPipeVec ∧
      (s'.user j).namePipe = (s.user j).namePipe := by
    intro j
    rw [huser]
    split_ifs with hj
    · rw [hj]
      exact ⟨rfl, rfl⟩
    · exact ⟨rfl, rfl⟩
  refine ⟨fun x hx => ?_, fun j hj => ?_⟩
  · rw [hker, Kernel.get_alloc] at hx
    split_ifs at hx with hnew
    · refine Or.inr (Or.inl ⟨s.spaceInd junk, hi, ?_, ?_⟩) <;> rw [huser, if_pos rfl]
      exact hnew
    · rcases h.known x hx with hlow | ⟨j, hj, hv, rfl⟩ | ⟨a, p, ha, hxp⟩
      · exact Or.inl hlow
      · have hne : j ≠ s.spaceInd junk := by
          rintro rfl
          rw [hempty] at hv
          cases hv
        refine Or.inr (Or.inl ⟨j, hj, ?_, ?_⟩) <;> rw [huser, if_neg hne]
        exact hv
      · refine Or.inr (Or.inr ⟨a, p, ?_, hxp⟩)
        rcases a with ⟨w, e⟩ | ⟨a, r⟩ | -
        · refine ⟨?_, ha.2⟩
          rw [Server.live, (hsame w).1]
          exact ha.1
        · exact ⟨hrec ▸ ha.1, ha.2.trans (by rw [(hsame _).2])⟩
        · cases ha
  · rw [(hsame j).1] at hj
    obtain ⟨hlt, hv⟩ := h.vacant j hj
    refine ⟨hlt, ?_⟩
    rw [huser]
    split_ifs
    · rfl
    · exact hv

/-- A line that loses no descriptor: the sound tables stay sound, and the tally is kept. -/
theorem Tallied.line {conn : ℕ → ℕ} {s : Server} {u : ℕ} {inp : LineInput} {r : Return} (h : Tallied s)
    (hsound : Sound conn s) (hu : u < qlen) (hv : (s.user u).valid = true)
    (hbal : inp.line ≠ [] → s.Balanced u (tokens ' ' inp.line))
    (hn : npshell (s.dupStd (s.user u).sock (s.user u).sock (s.user u).sock) u inp = some r) :
    Sound conn (r.server.finish (s.user u).sock u r.zero) ∧
      Tallied (r.server.finish (s.user u).sock u r.zero) := by
  obtain ⟨hw, -, -⟩ := hsound.dupStd hu hv
  have hge := hsound.ge_seven hu hv
  obtain ⟨hread, hacc⟩ := npshell_accounted hn hsound.recorded hw (fun x hx => by
    rcases lt_or_ge x 7 with hlow | hhigh
    · exact Or.inl hlow
    · rw [dupStd_get_of_ge s _ _ _ (by omega)] at hx
      exact h.known x hx) ⟨hu, hv⟩ fun hline => by
        obtain ⟨horderly, hrejected, hrows⟩ := hbal hline
        exact ⟨horderly, hrejected, hrows⟩
  have husers := npshell_users hn hsound.recorded ⟨hu, hv⟩
  refine ⟨hsound.call hu hv hread hn, fun x hx => ?_, fun i hi => ?_⟩
  · rcases lt_or_ge x 7 with hlow | hhigh
    · exact Or.inl hlow
    · rw [finish_get (by omega)] at hx
      split_ifs at hx with hout
      · exact absurd rfl hx
      · rcases hacc.known x hx with hk | ⟨hz, rfl⟩
        · refine hk.imp (fun i => ?_) (fun i => ?_) fun a p ha _ => ?_
          · rw [finish_user]
          · rw [finish_user]
          · rcases a with ⟨w, e⟩ | ⟨a, r'⟩ | -
            · refine ⟨.pending w e, ?_, ha.2⟩
              rw [Server.live, finish_user]
              exact ha.1
            · exact ⟨.named a r', by rw [finish_record]; exact ha.1, ha.2.trans (by rw [finish_user])⟩
            · cases ha
        · exact absurd ⟨hz, husers.sock u⟩ hout
  · rw [finish_user] at hi ⊢
    rw [husers.valid]
    rcases eq_or_ne i u with rfl | hne
    · refine ⟨hu, ?_⟩
      rw [if_neg fun hcon => hi (hacc.vacant hcon.1)]
      exact hv
    · rw [husers.vec i hne] at hi
      obtain ⟨hlt, hvalid⟩ := h.vacant i hi
      refine ⟨hlt, ?_⟩
      rw [if_neg fun hcon => hne hcon.2]
      exact hvalid

theorem Tallied.step {conn : ℕ → ℕ} {s t : Server} {i : Input} (h : Tallied s) (hsound : Sound conn s)
    (hb : s.Balances i) (hs : s.next i = some t) : ∃ conn', Sound conn' t ∧ Tallied t := by
  obtain ⟨r, hr, rfl⟩ := Option.map_eq_some_iff.mp hs
  cases i with
  | eof fd => exact hb.elim
  | accept addr port junk =>
    simp only [Server.step, Option.map_eq_some_iff] at hr
    obtain ⟨s', hs', rfl⟩ := hr
    exact ⟨_, sound_accept hsound hb hs', h.accept hb hs'⟩
  | line fd inp =>
    simp only [Server.step] at hr
    split_ifs at hr
    cases hf : s.findFdUser fd with
    | none => simp [hf] at hr
    | some u =>
      simp only [hf] at hr
      obtain ⟨hu, hv, rfl⟩ := findFdUser_some hf
      cases hn : npshell (s.dupStd (s.user u).sock (s.user u).sock (s.user u).sock) u inp with
      | none => simp [hn] at hr
      | some ret =>
        simp only [hn, Option.some.injEq] at hr
        subst hr
        exact ⟨conn, h.line hsound hu hv (hb u hf) hn⟩

theorem tallied_init (environ : Environ) : Tallied (init environ) where
  known := by
    intro x hx
    left
    by_contra hge
    refine hx ?_
    show (init environ).kernel.fds.get x = none
    rw [FdTable.get, List.getD_eq_getElem?_getD, List.getElem?_eq_none (show 7 ≤ x from not_lt.mp hge)]
    rfl
  vacant := fun i hi => absurd rfl hi

/-- With sound tables and a tally just what should be open is open. -/
theorem Tallied.conserved {conn : ℕ → ℕ} {s : Server} (h : Tallied s) (hsound : Sound conn s) :
    s.Conserved := by
  intro x
  constructor
  · intro hx
    rcases h.known x hx with hlow | hsock | ⟨a, p, ha, hxp⟩
    · exact Or.inl hlow
    · exact Or.inr (Or.inl hsock)
    · rcases a with ⟨w, e⟩ | ⟨a, r⟩ | -
      · obtain ⟨he, rfl⟩ := ha
        obtain ⟨he, hle⟩ := mem_atLeast.mp he
        obtain ⟨hw, hv⟩ := h.vacant w (List.ne_nil_of_mem he)
        exact Or.inr (Or.inr (Or.inl ⟨w, hw, hv, e, he, hle, hxp⟩))
      · obtain ⟨har, rfl⟩ := ha
        exact Or.inr (Or.inr (Or.inr ⟨a, r, har, hxp⟩))
      · cases ha
  · rintro (hlow | ⟨i, hi, hv, rfl⟩ | ⟨i, hi, hv, e, he, hle, hx⟩ | ⟨a, r, har, hx⟩)
    · obtain ⟨d, hd, -⟩ := hsound.std x hlow
      simp [hd]
    · simp [hsound.sock i hi hv]
    · have hheld : Held s s.live none (.pending i e) (e.p0, e.p1) := ⟨mem_atLeast.mpr ⟨he, hle⟩, rfl⟩
      rcases hx with rfl | rfl
      · exact hsound.wired.open_fst hheld
      · exact hsound.wired.open_snd hheld
    · have hheld : Held s s.live none (.named a r) _ := held_named har
      rcases hx with rfl | rfl
      · exact hsound.wired.open_fst hheld
      · exact hsound.wired.open_snd hheld

instance instDecidableOrderly (u : ℕ) (done : List Item) : Decidable (Orderly u done) :=
  decidable_of_iff ((∀ it ∈ done, ∀ n ∈ pipeNumber it, 1 ≤ n) ∧
    (done.Pairwise fun a b => takenId a = none ∨ takenId b = none) ∧
    done.Pairwise fun a b => ¬ (takenId a = some ((u : ℤ) + 1) ∧ givenId b = some ((u : ℤ) + 1)))
    ⟨fun ⟨h1, h2, h3⟩ => ⟨h1, h2, h3⟩, fun h => ⟨h.number, h.once, h.own⟩⟩

instance instDecidableDue (s : Server) (u : ℕ) : Decidable (Due s u) :=
  inferInstanceAs (Decidable (∃ e ∈ _, _))

instance instDecidableBare (s : Server) (u : ℕ) (items : List Item) : Decidable (Bare s u items) :=
  inferInstanceAs (Decidable (_ ∧ _ ∧ _))

instance instDecidableRowsClose (pc : ℕ) (elsewhere : Bool) (bare : Prop) [Decidable bare] :
    ∀ (rows : List (List Token)) (held unread : Bool), Decidable (RowsClose pc elsewhere bare held unread rows)
  | [], _, _ => inferInstanceAs (Decidable (_ ∧ _))
  | argv :: rest, _, _ =>
    have := instDecidableRowsClose pc elsewhere bare rest
    inferInstanceAs (Decidable (if argv.head? = some Shell.exitCmd then _ else if forked argv = false then _
      else if pc = 1 then _ else if rest = [] then _ else _))

instance instDecidableBalanced (s : Server) (u : ℕ) (toks : List Token) : Decidable (s.Balanced u toks) :=
  decidable_of_iff (Orderly u (come s u toks) ∧
    (¬ Scan.Passes (serverGoesOn u s.checkIdExist) s.namePipeRecord (lineItems toks) →
      ¬ Due s u ∧ ∀ it ∈ come s u toks, takenId it = none) ∧
    (Scan.Passes (serverGoesOn u s.checkIdExist) s.namePipeRecord (lineItems toks) →
      RowsClose (lineRows toks).length ((come s u toks).any redirects) (Bare s u (come s u toks)) false
        ((s.user u).numPipeVec.any (fun e => e.restLine == 1) ||
          (come s u toks).any fun it => (takenId it).isSome) (lineRows toks)))
    ⟨fun ⟨h1, h2, h3⟩ => ⟨h1, h2, h3⟩, fun h => ⟨h.orderly, h.rejected, h.rows⟩⟩

instance instDecidableBalances (s : Server) : ∀ i, Decidable (s.Balances i)
  | .line fd inp => inferInstanceAs (Decidable (∀ u ∈ s.findFdUser fd, inp.line ≠ [] →
      s.Balanced u (tokens ' ' inp.line)))
  | .accept _ _ _ => inferInstanceAs (Decidable (_ < _))
  | .eof _ => inferInstanceAs (Decidable False)

/-- Two clients: a number pipe, a user pipe, a refused line, a pipeline into a file, and one leaves. -/
def balancedInputs : List Input :=
  [.accept [] 0 0, .accept [] 0 0, .line 7 (asTyped "ls |1".toList), .line 7 (asTyped "cat >2".toList),
    .line 8 (asTyped "cat <2".toList), .line 8 (asTyped "cat <1".toList),
    .line 7 (asTyped "ls | cat > f".toList), .line 8 (asTyped "exit".toList), .accept [] 0 0]

/-- A client types `ls | cat`. -/
def pipelineInputs : List Input :=
  [.accept [] 0 0, .line 7 (asTyped ['l', 's', ' ', '|', ' ', 'c', 'a', 't'])]

end NetProg.Server
