import NetProg.Server.Call

/-! What a rejected line leaves behind.

    Tokens act while the line is still being read, and `npshell` returns at the token it rejects.
    So a rejected line leaves no trace exactly when nothing before that token has acted, and when no
    number pipe was due: a due pipe is closed and dropped by the first fork only. -/

namespace NetProg.Server

/-- The descriptors of the number pipes of a user that the countdown of this line makes due. -/
def dueEnds (s : Server) (u : ℕ) : List ℕ :=
  ((s.user u).numPipeVec.filter fun e => e.restLine == 1).flatMap fun e => [e.p0, e.p1]

/-- From `s` to `t` nothing but the countdown of user `u` has happened: the user pipes are as they
    were, no number pipe was added, the due ones are closed and dropped, no other descriptor was
    opened or closed, and nothing was sent to anybody. -/
structure Atomic (s : Server) (u : ℕ) (t : Server) : Prop where
  record : t.namePipeRecord = s.namePipeRecord
  namePipe : ∀ w, (t.user w).namePipe = (s.user w).namePipe
  opened : ∀ fd, t.kernel.get fd ≠ none ↔ s.kernel.get fd ≠ none ∧ fd ∉ dueEnds s u
  quiet : ∃ entries, t.log = s.log ++ entries ∧ ∀ fd text, .write fd text ∉ entries
  pending : (t.user u).numPipeVec =
    (startVars s u).countdown.numPipeVec.filter fun e => !PipeDead e

/-- Whether the first `<id` or `>id` of a line is the one that is rejected, and every `|N` and `!N`
    before it finds a number pipe with the same countdown: the id is checked in the table of users,
    the pipe in the records, both as they are before the line. -/
def FirstIsRejected (idExists : ℤ → Bool) (record : ℕ → ℕ → Bool) (u : ℕ) (vec : List NumberPipe) :
    List Token → Prop
  | [] => False
  | tok :: rest =>
    if tok.head? = some '<' then
      ∃ n, strtok '<' tok = some n ∧ ¬ (idExists (atoi n) ∧ record (atoi n).toNat (u + 1))
    else if ordinary tok ∨ tok = ['|'] then FirstIsRejected idExists record u vec rest
    else if tok = ['>'] then
      match rest with
      | [] => False
      | _ :: rest => FirstIsRejected idExists record u vec rest
    else if tok.head? = some '!' then
      (∃ n, strtok '!' tok = some n ∧ ∃ e ∈ vec, e.restLine = atoi n) ∧
        FirstIsRejected idExists record u vec rest
    else if tok.head? = some '|' then
      (∃ n, strtok '|' tok = some n ∧ ∃ e ∈ vec, e.restLine = atoi n) ∧
        FirstIsRejected idExists record u vec rest
    else
      ∃ n, strtok '>' tok = some n ∧ ¬ (idExists (atoi n) ∧ ¬ record (u + 1) (atoi n).toNat)

/-! ### Nothing has happened -/

/-- From `c` to `c'` no token has acted on anything that outlives the line. -/
structure Same (c c' : Call) : Prop where
  u : c'.u = c.u
  user : c'.server.user = c.server.user
  record : c'.server.namePipeRecord = c.server.namePipeRecord
  vec : c'.vars.numPipeVec = c.vars.numPipeVec
  fds : ∀ fd, c'.vars.kernel.get fd ≠ none ↔ c.vars.kernel.get fd ≠ none
  quiet : ∃ entries, c'.server.log = c.server.log ++ entries ∧ ∀ fd text, .write fd text ∉ entries

theorem Same.refl (c : Call) : Same c c :=
  ⟨rfl, rfl, rfl, rfl, fun _ => Iff.rfl, [], by simp, by simp⟩

theorem Same.trans {a b c : Call} (h : Same a b) (h' : Same b c) : Same a c := by
  obtain ⟨l, hl, hw⟩ := h.quiet
  obtain ⟨l', hl', hw'⟩ := h'.quiet
  refine ⟨h'.u.trans h.u, h'.user.trans h.user, h'.record.trans h.record, h'.vec.trans h.vec,
    fun fd => (h'.fds fd).trans (h.fds fd), l ++ l', by rw [hl', hl, List.append_assoc], ?_⟩
  intro fd text hm
  rcases List.mem_append.mp hm with hm | hm
  · exact hw fd text hm
  · exact hw' fd text hm

theorem Same.push (c : Call) (argv : List Token) : Same c (c.push argv) :=
  ⟨rfl, rfl, rfl, rfl, fun _ => Iff.rfl, [], by simp [Call.push], by simp⟩

theorem Same.print (c : Call) {entries : List LogEntry} (h : ∀ fd text, .write fd text ∉ entries) :
    Same c { c with server := c.server.print entries } :=
  ⟨rfl, rfl, rfl, rfl, fun _ => Iff.rfl, entries, rfl, h⟩

theorem PipeError.quiet (e : PipeError) : ∀ fd text, .write fd text ∉ e.entries := by
  intro fd text
  cases e <;> simp [PipeError.entries]

theorem Same.file {c : Call} {opens : Opens} {name : Token} {v : Vars}
    (h : c.vars.createFile opens name = some v) :
    Same c { c with vars := v, server := c.server.print [.fflush] } := by
  obtain ⟨hget, -, hvec, -⟩ := createFile_frame h
  exact ⟨rfl, rfl, rfl, hvec, fun fd => by rw [hget], [.fflush], rfl, by simp⟩

theorem Same.pipeOut (c : Call) (shock : Bool) {n : ℤ}
    (h : ∃ e ∈ c.vars.numPipeVec, e.restLine = n) : Same c (c.pipeOut shock n) := by
  obtain ⟨hker, hvec⟩ := pipeOut_of_mem shock h
  exact ⟨rfl, rfl, rfl, hvec, fun fd => by rw [hker], [], by simp [Call.pipeOut], by simp⟩

/-! ### Something has happened -/

/-- From `c` to `c'` something was sent, opened or added that stays. -/
def Traced (c c' : Call) : Prop :=
  (∃ entries, c'.server.log = c.server.log ++ entries ∧ ∃ fd text, .write fd text ∈ entries) ∨
    (∃ fd, c.vars.kernel.get fd = none ∧ c'.vars.kernel.get fd ≠ none) ∨
    c.vars.numPipeVec.length < c'.vars.numPipeVec.length

/-- The call `c'` comes after `c`: the log and the number pipes have only grown, and what was open
    still is. -/
structure Later (c c' : Call) : Prop where
  u : c'.u = c.u
  log : c.server.log <+: c'.server.log
  vec : c.vars.numPipeVec <+: c'.vars.numPipeVec
  fds : ∀ fd, c.vars.kernel.get fd ≠ none → c'.vars.kernel.get fd ≠ none

theorem Later.refl (c : Call) : Later c c := ⟨rfl, List.prefix_rfl, List.prefix_rfl, fun _ h => h⟩

theorem Later.trans {a b c : Call} (h : Later a b) (h' : Later b c) : Later a c :=
  ⟨h'.u.trans h.u, h.log.trans h'.log, h.vec.trans h'.vec, fun fd hfd => h'.fds fd (h.fds fd hfd)⟩

theorem Same.later {c c' : Call} (h : Same c c') : Later c c' := by
  obtain ⟨l, hl, -⟩ := h.quiet
  exact ⟨h.u, ⟨l, hl.symm⟩, h.vec ▸ List.prefix_rfl, fun fd hfd => (h.fds fd).mpr hfd⟩

theorem Traced.later {a b c : Call} (h : Traced a b) (h' : Later b c) : Traced a c := by
  rcases h with ⟨l, hl, fd, text, hm⟩ | ⟨fd, hno, hopen⟩ | hlen
  · obtain ⟨l', hl'⟩ := h'.log
    exact Or.inl ⟨l ++ l', by rw [← hl', hl, List.append_assoc], fd, text,
      List.mem_append_left _ hm⟩
  · exact Or.inr (Or.inl ⟨fd, hno, h'.fds fd hopen⟩)
  · exact Or.inr (Or.inr (lt_of_lt_of_le hlen h'.vec.length_le))

theorem Traced.of_same {a b c : Call} (h : Same a b) (h' : Traced b c) : Traced a c := by
  rcases h' with ⟨l, hl, fd, text, hm⟩ | ⟨fd, hno, hopen⟩ | hlen
  · obtain ⟨l₀, hl₀, -⟩ := h.quiet
    exact Or.inl ⟨l₀ ++ l, by rw [hl, hl₀, List.append_assoc], fd, text, List.mem_append_right _ hm⟩
  · refine Or.inr (Or.inl ⟨fd, ?_, hopen⟩)
    by_contra hne
    exact (h.fds fd).mpr hne hno
  · exact Or.inr (Or.inr (h.vec ▸ hlen))

theorem traced_taken {c : Call} (command : List Char) {sender : ℕ} (h1 : 1 ≤ sender)
    (h30 : sender ≤ qlen) (hv : (c.server.user (sender - 1)).valid = true) :
    Traced c (c.taken command sender) := by
  have hmem : sender - 1 ∈ c.server.validUsers :=
    List.mem_filter.mpr ⟨List.mem_range.mpr (by omega), hv⟩
  exact Or.inl ⟨_, rfl, (c.server.user (sender - 1)).sock, _, List.mem_map_of_mem hmem⟩

theorem later_taken (c : Call) (command : List Char) (sender : ℕ) :
    Later c (c.taken command sender) := ⟨rfl, ⟨_, rfl⟩, List.prefix_rfl, fun _ h => h⟩

theorem traced_made (c : Call) (receiver : ℕ) : Traced c (c.made receiver) := by
  refine Or.inr (Or.inl ⟨c.vars.kernel.pipeFd0, Kernel.get_pipeFd0 _, ?_⟩)
  simp [Call.made, Kernel.get_pipe]

theorem later_made (c : Call) (receiver : ℕ) : Later c (c.made receiver) := by
  refine ⟨rfl, List.prefix_rfl, List.prefix_rfl, fun fd hfd => ?_⟩
  show c.vars.kernel.pipe.get fd ≠ none
  rwa [Kernel.get_pipe_of_open hfd]

theorem later_pipeOut (c : Call) (shock : Bool) (n : ℤ) :
    Later c (c.pipeOut shock n) ∧
      ((¬ ∃ e ∈ c.vars.numPipeVec, e.restLine = n) → Traced c (c.pipeOut shock n)) := by
  by_cases h : ∃ e ∈ c.vars.numPipeVec, e.restLine = n
  · exact ⟨(Same.pipeOut c shock h).later, fun hno => absurd h hno⟩
  · obtain ⟨hker, hvec⟩ := pipeOut_of_not_mem shock h
    refine ⟨⟨rfl, List.prefix_rfl, hvec ▸ List.prefix_append _ _, fun fd hfd => ?_⟩,
      fun _ => Or.inr (Or.inr ?_)⟩
    · rwa [hker, Kernel.get_pipe_of_open hfd]
    · rw [hvec]
      simp

/-- Whatever the tokens are, the call only grows. -/
theorem later_tokens (inp : LineInput) (c : Call) : KeptByTokens inp (Later c) where
  push := fun _ _ h => h.trans (Same.push _ _).later
  take := fun c' _ _ h htake => (takeUserPipe_ok.mp htake).2.2 ▸ h.trans (later_taken c' _ _)
  make := fun c' _ _ h hmake => (makeUserPipe_ok.mp hmake).2.2 ▸ h.trans (later_made c' _)
  number := fun c' shock n h => h.trans (later_pipeOut c' shock n).1
  file := fun _ _ _ h hfile => h.trans (Same.file hfile).later
  reject := fun c' e h => h.trans (Same.print c' e.quiet).later

theorem combine_later {inp : LineInput} {toks cur : List Token} {c c' : Call} {e : PipeError}
    (h : combine inp toks cur c = .rejected c' e) : Later c c' := by
  have := (later_tokens inp c).combine toks cur c (Later.refl c)
  rwa [h] at this

/-! ### Reading the tokens -/

/-- What the call `c'` at the rejected token says about the tokens from `c` on: it is as `c` was
    when nothing before that token has acted, and has a trace otherwise. -/
structure Decides (toks : List Token) (c c' : Call) : Prop where
  first : FirstIsRejected c.server.checkIdExist c.server.namePipeRecord c.u c.vars.numPipeVec toks →
    Same c c'
  later : ¬ FirstIsRejected c.server.checkIdExist c.server.namePipeRecord c.u c.vars.numPipeVec
    toks → Traced c c'

/-- A token that has not acted passes the question on to the rest of the line. -/
theorem Decides.of_same {toks rest : List Token} {c c₁ c' : Call} (hsame : Same c c₁)
    (hfirst : FirstIsRejected c.server.checkIdExist c.server.namePipeRecord c.u c.vars.numPipeVec
        toks ↔
      FirstIsRejected c.server.checkIdExist c.server.namePipeRecord c.u c.vars.numPipeVec rest)
    (h : Decides rest c₁ c') : Decides toks c c' := by
  obtain ⟨hyes, hno⟩ := h
  have hcheck : c₁.server.checkIdExist = c.server.checkIdExist := by
    funext id
    simp [Server.checkIdExist, hsame.user]
  rw [hcheck, hsame.u, hsame.record, hsame.vec, ← hfirst] at hyes hno
  exact ⟨fun hf => hsame.trans (hyes hf), fun hf => Traced.of_same hsame (hno hf)⟩

theorem decides_take {inp : LineInput} {tok : Token} {rest cur : List Token} {c c' : Call}
    {e : PipeError} (htok : tok.head? = some '<')
    (h : combine inp (tok :: rest) cur c = .rejected c' e) : Decides (tok :: rest) c c' := by
  rw [combine.eq_def] at h
  dsimp only at h
  rw [if_pos htok] at h
  have hfirst : FirstIsRejected c.server.checkIdExist c.server.namePipeRecord c.u c.vars.numPipeVec
      (tok :: rest) ↔ ∃ n, strtok '<' tok = some n ∧
        ¬ (c.server.checkIdExist (atoi n) ∧ c.server.namePipeRecord (atoi n).toNat (c.u + 1)) := by
    rw [FirstIsRejected.eq_def]
    dsimp only
    rw [if_pos htok]
  cases hn : strtok '<' tok with
  | none => simp [hn] at h
  | some n =>
    simp only [hn] at h
    simp only [hn, Option.some.injEq, exists_eq_left'] at hfirst
    cases htake : c.takeUserPipe inp.command (atoi n) with
    | error e' =>
      simp only [htake, Parse.rejected.injEq] at h
      obtain ⟨rfl, rfl⟩ := h
      refine ⟨fun _ => Same.print c e'.quiet, fun hno => ?_⟩
      rw [hfirst, not_not] at hno
      have hok : c.takeUserPipe inp.command (atoi n) = .ok _ :=
        takeUserPipe_ok.mpr ⟨hno.1, hno.2, rfl⟩
      rw [htake] at hok
      cases hok
    | ok c₁ =>
      simp only [htake] at h
      obtain ⟨hid, hrec, hc₁⟩ := takeUserPipe_ok.mp htake
      obtain ⟨hle, h30, -, hv⟩ := checkIdExist_iff.mp hid
      refine ⟨fun hno => absurd ⟨hid, hrec⟩ (hfirst.mp hno), fun _ => ?_⟩
      rw [hc₁] at h
      exact (traced_taken inp.command hle h30 hv).later (combine_later h)

theorem decides_make {inp : LineInput} {tok n : Token} {rest cur : List Token} {c c' : Call}
    {e : PipeError}
    (hfirst : FirstIsRejected c.server.checkIdExist c.server.namePipeRecord c.u c.vars.numPipeVec
        (tok :: rest) ↔
      ¬ (c.server.checkIdExist (atoi n) ∧ ¬ c.server.namePipeRecord (c.u + 1) (atoi n).toNat))
    (h : (match (c.push cur).makeUserPipe (atoi n) with
      | .error e => Parse.rejected { c.push cur with server := c.server.print e.entries } e
      | .ok c => combine inp rest [] c) = .rejected c' e) : Decides (tok :: rest) c c' := by
  cases hmake : (c.push cur).makeUserPipe (atoi n) with
  | error e' =>
    simp only [hmake, Parse.rejected.injEq] at h
    obtain ⟨rfl, rfl⟩ := h
    refine ⟨fun _ => (Same.push c cur).trans (Same.print _ e'.quiet), fun hno => ?_⟩
    rw [hfirst, not_not] at hno
    have hok : (c.push cur).makeUserPipe (atoi n) = .ok _ :=
      makeUserPipe_ok.mpr ⟨hno.1, Bool.eq_false_iff.mpr hno.2, rfl⟩
    rw [hmake] at hok
    cases hok
  | ok c₁ =>
    simp only [hmake] at h
    obtain ⟨hid, hrec, hc₁⟩ := makeUserPipe_ok.mp hmake
    refine ⟨fun hno => absurd ⟨hid, Bool.eq_false_iff.mp hrec⟩ (hfirst.mp hno), fun _ => ?_⟩
    rw [hc₁] at h
    exact Traced.of_same (Same.push c cur)
      ((traced_made (c.push cur) _).later (combine_later h))

theorem decides_number {inp : LineInput} {shock : Bool} {n : Option Token} {tok : Token}
    {rest cur : List Token} {c c' : Call} {e : PipeError}
    (h : (match n with
      | none => .crashed
      | some n => combine inp rest [] ((c.push cur).pipeOut shock (atoi n))) =
        Parse.rejected c' e)
    (hfirst : FirstIsRejected c.server.checkIdExist c.server.namePipeRecord c.u c.vars.numPipeVec
        (tok :: rest) ↔
      (∃ m, n = some m ∧ ∃ e ∈ c.vars.numPipeVec, e.restLine = atoi m) ∧
        FirstIsRejected c.server.checkIdExist c.server.namePipeRecord c.u c.vars.numPipeVec rest)
    (ih : ∀ cur c, combine inp rest cur c = .rejected c' e → Decides rest c c') : Decides (tok :: rest) c c' := by
  cases n with
  | none => simp at h
  | some m =>
    simp only [Option.some.injEq, exists_eq_left'] at hfirst
    by_cases hm : ∃ e ∈ c.vars.numPipeVec, e.restLine = atoi m
    · have hsame := (Same.push c cur).trans (Same.pipeOut (c.push cur) shock hm)
      exact (ih _ _ h).of_same hsame (hfirst.trans (and_iff_right hm))
    · have htraced := (later_pipeOut (c.push cur) shock (atoi m)).2 hm
      exact ⟨fun hf => absurd (hfirst.mp hf).1 hm,
        fun _ => Traced.of_same (Same.push c cur) (htraced.later (combine_later h))⟩

theorem decides_file {inp : LineInput} {tok : Token} {rest cur : List Token} {c c' : Call}
    {e : PipeError}
    (h : (match rest with
      | [] => .crashed
      | name :: rest =>
        match c.vars.createFile inp.opens name with
        | none => .crashed
        | some v =>
          combine inp rest []
            { c.push cur with vars := v, server := c.server.print [.fflush] }) =
        Parse.rejected c' e)
    (hfirst : ∀ name rest', rest = name :: rest' →
      (FirstIsRejected c.server.checkIdExist c.server.namePipeRecord c.u c.vars.numPipeVec
          (tok :: rest) ↔
        FirstIsRejected c.server.checkIdExist c.server.namePipeRecord c.u c.vars.numPipeVec rest'))
    (ih : ∀ name rest', rest = name :: rest' → ∀ cur c,
      combine inp rest' cur c = .rejected c' e → Decides rest' c c') :
    Decides (tok :: rest) c c' := by
  cases rest with
  | nil => simp at h
  | cons name rest =>
    dsimp only at h
    cases hfile : c.vars.createFile inp.opens name with
    | none => simp [hfile] at h
    | some v =>
      simp only [hfile] at h
      have hpush : (c.push cur).vars.createFile inp.opens name = some v := hfile
      have hsame := (Same.push c cur).trans (Same.file hpush)
      exact (ih name rest rfl _ _ h).of_same hsame (hfirst name rest rfl)

/-- The call at the rejected token decides what the line has left behind. -/
theorem rejected_cases (inp : LineInput) (c' : Call) (e : PipeError) :
    ∀ (toks cur : List Token) (c : Call), combine inp toks cur c = .rejected c' e →
      Decides toks c c'
  | [], cur, c, h => by simp [combine] at h
  | tok :: rest, cur, c, h => by
    by_cases h1 : tok.head? = some '<'
    · exact decides_take h1 h
    have hfirst := FirstIsRejected.eq_def c.server.checkIdExist c.server.namePipeRecord c.u
      c.vars.numPipeVec (tok :: rest)
    rw [combine.eq_def] at h
    dsimp only at h hfirst
    rw [if_neg h1] at h hfirst
    split_ifs at h with h2 h3 h4 h5 h6
    · rw [if_pos (Or.inl h2)] at hfirst
      exact (rejected_cases inp c' e rest _ c h).of_same (Same.refl c) (iff_of_eq hfirst)
    · rw [if_pos (Or.inr h3)] at hfirst
      exact (rejected_cases inp c' e rest _ _ h).of_same (Same.push c cur) (iff_of_eq hfirst)
    all_goals rw [if_neg (by simp [h2, h3])] at hfirst
    · rw [if_pos h4] at hfirst
      refine decides_file h (fun name rest' hrest => ?_) fun name rest' hrest => ?_
      · subst hrest
        exact iff_of_eq hfirst
      · subst hrest
        exact rejected_cases inp c' e rest'
    all_goals rw [if_neg h4] at hfirst
    · rw [if_pos h5] at hfirst
      exact decides_number h (iff_of_eq hfirst) (rejected_cases inp c' e rest)
    all_goals rw [if_neg h5] at hfirst
    · rw [if_pos h6] at hfirst
      exact decides_number h (iff_of_eq hfirst) (rejected_cases inp c' e rest)
    · rw [if_neg h6] at hfirst
      cases hn : strtok '>' tok with
      | none => simp [hn] at h
      | some n =>
        simp only [hn] at h
        refine decides_make ?_ h
        simpa [hn] using iff_of_eq hfirst
termination_by toks => toks.length

/-! ### The whole call -/

theorem parse_rejected {s : Server} {u : ℕ} {inp : LineInput} {c : Call} {e : PipeError}
    (h : parse s u inp = .rejected c e) :
    combine inp (tokens ' ' inp.line) [] (startCall s u) = .rejected c e := by
  unfold parse at h
  cases htok : tokens ' ' inp.line with
  | nil => simp [htok] at h
  | cons tok rest =>
    simp only [htok] at h
    split_ifs at h
    exact h

/-- A rejected call ends with the tokens: what it leaves is the call at the rejected token. -/
theorem npshell_rejected {s : Server} {u : ℕ} {inp : LineInput} {r : Return} {e : PipeError}
    (h : npshell s u inp = some r) (he : r.error = some e) :
    ∃ c, combine inp (tokens ' ' inp.line) [] (startCall (s.setPath u) u) = .rejected c e ∧
      r.server = c.leave := by
  cases npshell_outcome h with
  | blank _ => cases he
  | rejected hline hp =>
    cases he
    exact ⟨_, parse_rejected hp, rfl⟩
  | ended _ _ _ => cases he
  | exited _ _ _ => cases he

theorem user_leave (c : Call) : (c.leave.user c.u).numPipeVec = c.vars.numPipeVec := by
  simp [Call.leave, modifyUser]

theorem namePipe_leave (c : Call) (w : ℕ) : (c.leave.user w).namePipe = (c.server.user w).namePipe := by
  by_cases hw : w = c.u
  · subst hw
    simp [Call.leave, modifyUser]
  · simp [Call.leave, modifyUser, hw]

/-- The countdown makes no pipe due when none has one line left. -/
theorem filter_countdown {v : Vars} (h : ∀ e ∈ v.numPipeVec, e.restLine ≠ 1) :
    v.countdown.numPipeVec.filter (fun e => !PipeDead e) = v.countdown.numPipeVec := by
  refine List.filter_eq_self.mpr fun e he => ?_
  obtain ⟨e', he', rfl⟩ := List.mem_map.mp he
  have := h e' he'
  simp only [PipeDead, Bool.not_eq_true', beq_eq_false_iff_ne]
  omega

theorem dueEnds_eq_nil {s : Server} {u : ℕ} (h : ∀ e ∈ (s.user u).numPipeVec, e.restLine ≠ 1) :
    dueEnds s u = [] := by
  have hnone : (s.user u).numPipeVec.filter (fun e => e.restLine == 1) = [] :=
    List.filter_eq_nil_iff.mpr fun e he => by simpa using h e he
  rw [dueEnds, hnone]
  rfl

/-- What a due pipe shows: it stays in the vector, which the rejected line has only extended. -/
theorem not_due_of_pending {v : Vars} {vec : List NumberPipe} (hpre : v.countdown.numPipeVec <+: vec)
    (h : vec = v.countdown.numPipeVec.filter fun e => !PipeDead e) :
    ∀ e ∈ v.numPipeVec, e.restLine ≠ 1 := by
  intro e he hdue
  have hmem : { e with restLine := e.restLine - 1 } ∈ vec :=
    hpre.subset (List.mem_map_of_mem he)
  rw [h, List.mem_filter] at hmem
  simp [PipeDead, hdue] at hmem

/-- A rejected line leaves no trace but the countdown exactly when no number pipe was due on it and
    nothing before the rejected token acted. -/
theorem rejected_atomic_iff {s : Server} {u : ℕ} {inp : LineInput} {r : Return} {e : PipeError}
    (h : npshell s u inp = some r) (he : r.error = some e) :
    Atomic s u r.server ↔ (∀ t ∈ (s.user u).numPipeVec, t.restLine ≠ 1) ∧
      FirstIsRejected s.checkIdExist s.namePipeRecord u (startVars s u).countdown.numPipeVec
        (tokens ' ' inp.line) := by
  obtain ⟨c, hcomb, hr⟩ := npshell_rejected h he
  obtain ⟨hyes, hno⟩ := rejected_cases inp _ _ _ _ _ hcomb
  have hlater := combine_later hcomb
  have hu : c.u = u := hlater.u
  -- nothing but the environment differs from `s` before the first token
  have hvec : (startCall (s.setPath u) u).vars.numPipeVec = (startVars s u).countdown.numPipeVec := rfl
  change FirstIsRejected s.checkIdExist s.namePipeRecord u _ _ → _ at hyes
  change ¬ FirstIsRejected s.checkIdExist s.namePipeRecord u _ _ → _ at hno
  rw [hvec] at hyes hno
  have hpend : (r.server.user u).numPipeVec = c.vars.numPipeVec := by
    rw [hr, ← hu, user_leave]
  constructor
  · intro ha
    have hpending := ha.pending
    rw [hpend] at hpending
    refine ⟨not_due_of_pending (hvec ▸ hlater.vec) hpending, ?_⟩
    by_contra hfirst
    rcases hno hfirst with ⟨l, hl, fd, text, hw⟩ | ⟨fd, hclosed, hopen⟩ | hlen
    · obtain ⟨entries, hentries, hquiet⟩ := ha.quiet
      rw [hr] at hentries
      have heq : s.log ++ l = s.log ++ entries := hl.symm.trans hentries
      exact hquiet fd text (List.append_cancel_left heq ▸ hw)
    · have hopened : r.server.kernel.get fd ≠ none := by rw [hr]; exact hopen
      exact ((ha.opened fd).mp hopened).1 hclosed
    · rw [hvec, hpending] at hlen
      exact absurd (List.length_filter_le _ _) (not_le.mpr hlen)
  · rintro ⟨hdue, hfirst⟩
    have hsame := hyes hfirst
    refine ⟨?_, fun w => ?_, fun fd => ?_, ?_, ?_⟩
    · rw [hr]
      exact hsame.record
    · rw [hr, namePipe_leave, hsame.user]
      rfl
    · rw [dueEnds_eq_nil hdue, hr]
      simp only [List.not_mem_nil, not_false_iff, and_true]
      exact hsame.fds fd
    · rw [hr]
      exact hsame.quiet
    · rw [hpend, hsame.vec, hvec]
      exact (filter_countdown hdue).symm

/-- A line read from a user who does not exist. -/
def catNobody : LineInput := ⟨['c', 'a', 't', ' ', '<', '9'], [], ⟨false, false, none⟩, false⟩

theorem catNobody_first (s : Server) (h : s.checkIdExist 9 = false) (vec : List NumberPipe) :
    FirstIsRejected s.checkIdExist s.namePipeRecord 0 vec (tokens ' ' catNobody.line) := by
  have htok : tokens ' ' catNobody.line = [['c', 'a', 't'], ['<', '9']] := by decide
  rw [htok]
  refine ⟨['9'], by decide, fun hok => ?_⟩
  rw [show atoi ['9'] = 9 by decide, h] at hok
  simp at hok

theorem rejected_first_error : (((init fun _ => none).run [.accept [] 0 0]).bind fun s =>
    (npshell s 0 catNobody).map fun r =>
      (r.error, (s.user 0).numPipeVec.length, s.checkIdExist 9)) =
    some (some (.noSender 9), 0, false) := by decide +kernel

theorem rejected_atomic_first : ∃ s r, (init fun _ => none).run [.accept [] 0 0] = some s ∧
    npshell s 0 catNobody = some r ∧ r.error = some (.noSender 9) ∧ Atomic s 0 r.server := by
  obtain ⟨s, hs, h⟩ := Option.bind_eq_some_iff.mp rejected_first_error
  obtain ⟨r, hr, h⟩ := Option.map_eq_some_iff.mp h
  simp only [Prod.mk.injEq, List.length_eq_zero_iff] at h
  obtain ⟨he, hvec, hid⟩ := h
  have hdue : ∀ t ∈ (s.user 0).numPipeVec, t.restLine ≠ 1 := by simp [hvec]
  have hfirst := catNobody_first s hid (startVars s 0).countdown.numPipeVec
  exact ⟨s, r, hs, hr, he, (rejected_atomic_iff hr he).mpr (And.intro hdue hfirst)⟩

/-- A client logs in and makes a number pipe. -/
def duePipeRun : List Input :=
  [.accept [] 0 0, .line 7 ⟨['l', 's', ' ', '|', '1'], [], ⟨false, false, none⟩, false⟩]

theorem duePipe_error : (((init fun _ => none).run duePipeRun).bind fun s =>
    (npshell s 0 catNobody).map fun r => (r.error, (r.server.user 0).numPipeVec.length,
      ((startVars s 0).countdown.numPipeVec.filter fun e => !PipeDead e).length)) =
    some (some (.noSender 9), 1, 0) := by decide +kernel

/-- The due number pipe of a rejected line stays open and in the vector. -/
theorem rejected_leaves_due_pipe : ∃ s r, (init fun _ => none).run duePipeRun = some s ∧
    npshell s 0 catNobody = some r ∧ r.error = some (.noSender 9) ∧ ¬ Atomic s 0 r.server := by
  obtain ⟨s, hs, h⟩ := Option.bind_eq_some_iff.mp duePipe_error
  obtain ⟨r, hr, h⟩ := Option.map_eq_some_iff.mp h
  simp only [Prod.mk.injEq] at h
  refine ⟨s, r, hs, hr, h.1, fun ha => ?_⟩
  have hlen := congrArg List.length ha.pending
  omega

end NetProg.Server
