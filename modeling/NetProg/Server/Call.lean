import NetProg.Server.Model

/-! Rules for one call of `npshell`: what holds before the first token and is kept by every kind of
    token holds when the tokens are combined or the line is rejected, and what is kept by every kind
    of row holds when the process loop ends. Later results say what they keep and use these rules. -/

namespace NetProg.Server

/-- A property of the call when the tokens have been read or the line has been rejected. -/
def Parse.All (P : Call → Prop) : Parse → Prop
  | ok c => P c
  | rejected c _ => P c
  | crashed => True

theorem takeUserPipe_ok {c c' : Call} {command : List Char} {id : ℤ} :
    c.takeUserPipe command id = .ok c' ↔ c.server.checkIdExist id = true ∧
      c.server.namePipeRecord id.toNat (c.u + 1) = true ∧ c' = c.taken command id.toNat := by
  cases h1 : c.server.checkIdExist id <;>
    cases h2 : c.server.namePipeRecord id.toNat (c.u + 1) <;>
    simp only [Call.takeUserPipe, checkNamePipeExist, h1, h2] <;> simp [eq_comm]

theorem makeUserPipe_ok {c c' : Call} {id : ℤ} :
    c.makeUserPipe id = .ok c' ↔ c.server.checkIdExist id = true ∧
      c.server.namePipeRecord (c.u + 1) id.toNat = false ∧ c' = c.made id.toNat := by
  cases h1 : c.server.checkIdExist id <;>
    cases h2 : c.server.namePipeRecord (c.u + 1) id.toNat <;>
    simp only [Call.makeUserPipe, checkNamePipeExist, h1, h2] <;> simp [eq_comm]

/-- An id that exists is the place of a valid user, counted from 1. -/
theorem checkIdExist_iff {s : Server} {id : ℤ} :
    s.checkIdExist id = true ↔ 1 ≤ id.toNat ∧ id.toNat ≤ qlen ∧ id = id.toNat ∧
      (s.user (id.toNat - 1)).valid = true := by
  simp only [checkIdExist, List.any_eq_true, List.mem_range, Bool.and_eq_true, beq_iff_eq]
  constructor
  · rintro ⟨i, hi, hv, hid⟩
    have hnat : id.toNat = i + 1 := by omega
    refine ⟨by omega, by omega, by omega, ?_⟩
    rwa [hnat, Nat.add_sub_cancel]
  · rintro ⟨h1, h30, hid, hv⟩
    exact ⟨id.toNat - 1, by omega, hv, by omega⟩

/-! ### What the tokens do to the tables -/

@[simp] theorem user_modifyUser (s : Server) (i j : ℕ) (f : User → User) :
    (s.modifyUser i f).user j = if j = i then f (s.user i) else s.user j := by
  by_cases h : j = i <;> simp [modifyUser, h]

/-- The records after a user pipe is taken are those before, without that pipe. -/
theorem record_taken {c : Call} {command : List Char} {sender a r : ℕ} :
    (c.taken command sender).server.namePipeRecord a r = true ↔
      c.server.namePipeRecord a r = true ∧ ¬ (a = sender ∧ r = c.u + 1) := by
  simp only [Call.taken, broadcastMsg, Server.print]
  by_cases ha : a = sender
  · subst ha
    by_cases hr : r = c.u + 1
    · simp [hr]
    · simp [hr]
  · simp [ha]

/-- The records after a user pipe is made are those before and that pipe. -/
theorem record_made {c : Call} {receiver a r : ℕ} :
    (c.made receiver).server.namePipeRecord a r = true ↔
      c.server.namePipeRecord a r = true ∨ (a = c.u + 1 ∧ r = receiver) := by
  simp only [Call.made]
  by_cases ha : a = c.u + 1
  · subst ha
    by_cases hr : r = receiver
    · simp [hr]
    · simp [hr]
  · simp [ha]

/-- A user with one of its pairs of user pipe descriptors replaced. -/
def User.setNamePipe (w : User) (sender : ℕ) (p : ℕ × ℕ) : User :=
  { w with namePipe := Function.update w.namePipe sender p }

/-- The pair of a new user pipe is put where the receiver finds it by the index of the sender. -/
theorem user_made (c : Call) (receiver i : ℕ) : (c.made receiver).server.user i =
    if i = receiver - 1 then
      (c.server.user (receiver - 1)).setNamePipe c.u (c.vars.kernel.pipeFd0, c.vars.kernel.pipeFd1)
    else c.server.user i :=
  user_modifyUser c.server (receiver - 1) i fun w =>
    w.setNamePipe c.u (c.vars.kernel.pipeFd0, c.vars.kernel.pipeFd1)

@[simp] theorem valid_made (c : Call) (receiver i : ℕ) :
    ((c.made receiver).server.user i).valid = (c.server.user i).valid := by
  rw [user_made]
  split_ifs with hi <;> simp [hi, User.setNamePipe]

@[simp] theorem sock_made (c : Call) (receiver i : ℕ) :
    ((c.made receiver).server.user i).sock = (c.server.user i).sock := by
  rw [user_made]
  split_ifs with hi <;> simp [hi, User.setNamePipe]

@[simp] theorem numPipeVec_made (c : Call) (receiver i : ℕ) :
    ((c.made receiver).server.user i).numPipeVec = (c.server.user i).numPipeVec := by
  rw [user_made]
  split_ifs with hi <;> simp [hi, User.setNamePipe]

/-- The pair of every other user pipe is where it was. -/
theorem namePipe_made {c : Call} {receiver a r : ℕ} (h1 : 1 ≤ receiver) (ha : 1 ≤ a) (hr : 1 ≤ r)
    (hne : ¬ (a = c.u + 1 ∧ r = receiver)) :
    ((c.made receiver).server.user (r - 1)).namePipe (a - 1) =
      (c.server.user (r - 1)).namePipe (a - 1) := by
  rw [user_made]
  split_ifs with hi
  · rw [hi]
    refine Function.update_of_ne (fun hcon => ?_) _ _
    exact hne ⟨by omega, by omega⟩
  · rfl

/-- The pair of the new user pipe is its two ends. -/
theorem namePipe_made_self (c : Call) (receiver : ℕ) :
    ((c.made receiver).server.user (receiver - 1)).namePipe c.u =
      (c.vars.kernel.pipeFd0, c.vars.kernel.pipeFd1) := by
  rw [user_made, if_pos rfl]
  simp [User.setNamePipe]

/-! ### What the tokens do to the descriptors -/

theorem find?_restLine_eq_none {vec : List NumberPipe} {n : ℤ} :
    vec.find? (fun t => n == t.restLine) = none ↔ ¬ ∃ e ∈ vec, e.restLine = n := by
  rw [List.find?_eq_none]
  constructor
  · rintro h ⟨e, he, rfl⟩
    exact h e he (beq_self_eq_true _)
  · intro h e he heq
    exact h ⟨e, he, (beq_iff_eq.mp heq).symm⟩

/-- A `|N` or `!N` that finds a pending pipe opens nothing. -/
theorem pipeOut_of_mem {c : Call} {n : ℤ} (shock : Bool)
    (h : ∃ e ∈ c.vars.numPipeVec, e.restLine = n) :
    (c.pipeOut shock n).vars.kernel = c.vars.kernel ∧
      (c.pipeOut shock n).vars.numPipeVec = c.vars.numPipeVec := by
  obtain ⟨t, ht⟩ := Option.ne_none_iff_exists'.mp (mt find?_restLine_eq_none.mp (not_not.mpr h))
  cases shock <;> simp [Call.pipeOut, Vars.numberPipe, ht]

/-- A `|N` or `!N` that finds no pending pipe makes one. -/
theorem pipeOut_of_not_mem {c : Call} {n : ℤ} (shock : Bool)
    (h : ¬ ∃ e ∈ c.vars.numPipeVec, e.restLine = n) :
    (c.pipeOut shock n).vars.kernel = c.vars.kernel.pipe ∧
      (c.pipeOut shock n).vars.numPipeVec =
        c.vars.numPipeVec ++ [⟨n, c.vars.kernel.pipeFd0, c.vars.kernel.pipeFd1⟩] := by
  have ht := find?_restLine_eq_none.mpr h
  cases shock <;> simp [Call.pipeOut, Vars.numberPipe, ht]

/-- A `|N` or `!N` leaves every open descriptor alone. -/
theorem pipeOut_get_of_open {c : Call} {x : ℕ} (shock : Bool) (n : ℤ) (hx : c.vars.kernel.get x ≠ none) :
    (c.pipeOut shock n).vars.kernel.get x = c.vars.kernel.get x := by
  by_cases hn : ∃ e ∈ c.vars.numPipeVec, e.restLine = n
  · rw [(pipeOut_of_mem shock hn).1]
  · rw [(pipeOut_of_not_mem shock hn).1, Kernel.get_pipe_of_open hx]

@[simp] theorem pipeOut_fdIn (c : Call) (shock : Bool) (n : ℤ) :
    (c.pipeOut shock n).vars.fdIn = c.vars.fdIn := by
  unfold Call.pipeOut Vars.numberPipe
  cases c.vars.numPipeVec.find? (fun t => n == t.restLine) <;> cases shock <;> rfl

@[simp] theorem pipeOut_numPipeInFlag (c : Call) (shock : Bool) (n : ℤ) :
    (c.pipeOut shock n).vars.numPipeInFlag = c.vars.numPipeInFlag := by
  unfold Call.pipeOut Vars.numberPipe
  cases c.vars.numPipeVec.find? (fun t => n == t.restLine) <;> cases shock <;> rfl

/-- A file is created and closed at once: no open descriptor comes or goes. -/
theorem createFile_frame {v w : Vars} {opens : Opens} {name : Token}
    (h : v.createFile opens name = some w) :
    (∀ x, w.kernel.get x = v.kernel.get x) ∧ w.kernel.pipes = v.kernel.pipes ∧
      w.numPipeVec = v.numPipeVec ∧ w.fdIn = v.fdIn ∧ w.numPipeInFlag = v.numPipeInFlag := by
  unfold Vars.createFile at h
  cases hb : strncpy v.redirectionFileName name with
  | none => simp [hb] at h
  | some buf =>
    simp only [hb] at h
    split_ifs at h with hcreat
    · simp only [Option.some.injEq] at h
      subst h
      refine ⟨fun x => ?_, rfl, rfl, rfl, rfl⟩
      have hfree := v.kernel.get_alloc_fd (.file (cString buf))
      show ((v.kernel.alloc _).1.close (v.kernel.alloc _).2).get x = _
      rw [Kernel.get_close, Kernel.get_alloc]
      by_cases hx : x = (v.kernel.alloc (.file (cString buf))).2
      · rw [hx, if_pos rfl, hfree]
      · simp [hx]
    · simp only [Option.some.injEq] at h
      subst h
      exact ⟨fun _ => rfl, rfl, rfl, rfl, rfl⟩

/-- The last command writes the file. -/
theorem createFile_writes {v w : Vars} {opens : Opens} {name : Token}
    (h : v.createFile opens name = some w) : w.writeFileFlag = true := by
  unfold Vars.createFile at h
  cases hb : strncpy v.redirectionFileName name with
  | none => simp [hb] at h
  | some buf =>
    simp only [hb] at h
    split_ifs at h <;> exact Option.some.inj h ▸ rfl

/-- What is true of the call and the tokens still to be read, token by token: `P` from one token to the
    next, and `R` where the line is rejected. -/
structure TokenRules (inp : LineInput) (P : List Token → Call → Prop) (R : Call → Prop) : Prop where
  push : ∀ toks c argv, P toks c → P toks (c.push argv)
  word : ∀ tok rest c, tok.head? ≠ some '<' → ordinary tok ∨ tok = ['|'] → P (tok :: rest) c → P rest c
  take : ∀ tok n rest c c', tok.head? = some '<' → strtok '<' tok = some n → P (tok :: rest) c →
    c.takeUserPipe inp.command (atoi n) = .ok c' → P rest c'
  file : ∀ name rest c v, P (['>'] :: name :: rest) c → c.vars.createFile inp.opens name = some v →
    P rest { c with vars := v, server := c.server.print [.fflush] }
  number : ∀ tok n rest c shock, ordinary tok = false →
    tok.head? = some (if shock then '!' else '|') → tok ≠ ['|'] →
    strtok (if shock then '!' else '|') tok = some n →
    P (tok :: rest) c → P rest (c.pipeOut shock (atoi n))
  make : ∀ tok n rest c c', ordinary tok = false → tok.head? ≠ some '<' → tok.head? ≠ some '!' →
    tok.head? ≠ some '|' → tok ≠ ['>'] → strtok '>' tok = some n → P (tok :: rest) c →
    c.makeUserPipe (atoi n) = .ok c' → P rest c'
  reject : ∀ toks c (e : PipeError), P toks c → R { c with server := c.server.print e.entries }

/-- What combining the tokens ends with. -/
def Parse.Ends (P R : Call → Prop) : Parse → Prop
  | ok c => P c
  | rejected c _ => R c
  | crashed => True

theorem TokenRules.combine {inp : LineInput} {P : List Token → Call → Prop} {R : Call → Prop}
    (h : TokenRules inp P R) : ∀ (toks cur : List Token) (c : Call), P toks c →
    (combine inp toks cur c).Ends (P []) R
  | [], cur, c, hc => by
    rw [Server.combine]
    show P [] (if cur = [] then c else c.push cur)
    split_ifs
    · exact hc
    · exact h.push [] c cur hc
  | tok :: rest, cur, c, hc => by
    have hpush := h.push _ c cur hc
    rw [Server.combine.eq_def]
    dsimp only
    split_ifs with h1 h2 h3 h4 h5 h6
    · cases hn : strtok '<' tok with
      | none => trivial
      | some n =>
        dsimp only
        cases htake : c.takeUserPipe inp.command (atoi n) with
        | error e => exact h.reject _ c e hc
        | ok c' => exact h.combine rest cur c' (h.take tok n rest c c' h1 hn hc htake)
    · exact h.combine rest _ c (h.word tok rest c h1 (Or.inl h2) hc)
    · exact h.combine rest [] _ (h.word tok rest _ h1 (Or.inr h3) hpush)
    · subst h4
      cases rest with
      | nil => trivial
      | cons name rest =>
        dsimp only
        cases hfile : c.vars.createFile inp.opens name with
        | none => trivial
        | some v => exact h.combine rest [] _ (h.file name rest (c.push cur) v hpush hfile)
    · cases hn : strtok '!' tok with
      | none => trivial
      | some n =>
        exact h.combine rest [] _ (h.number tok n rest _ true (by simpa using h2) h5 h3 hn hpush)
    · cases hn : strtok '|' tok with
      | none => trivial
      | some n =>
        exact h.combine rest [] _ (h.number tok n rest _ false (by simpa using h2) h6 h3 hn hpush)
    · cases hn : strtok '>' tok with
      | none => trivial
      | some n =>
        dsimp only
        cases hmake : (c.push cur).makeUserPipe (atoi n) with
        | error e => exact h.reject _ _ e hpush
        | ok c' =>
          exact h.combine rest [] c'
            (h.make tok n rest _ c' (by simpa using h2) h1 h5 h6 h4 hn hpush hmake)

/-- What a token of each kind keeps. -/
structure KeptByTokens (inp : LineInput) (P : Call → Prop) : Prop where
  push : ∀ c argv, P c → P (c.push argv)
  take : ∀ c c' id, P c → c.takeUserPipe inp.command id = .ok c' → P c'
  make : ∀ c c' id, P c → c.makeUserPipe id = .ok c' → P c'
  number : ∀ c shock n, P c → P (c.pipeOut shock n)
  file : ∀ c name v, P c → c.vars.createFile inp.opens name = some v →
    P { c with vars := v, server := c.server.print [.fflush] }
  reject : ∀ c (e : PipeError), P c → P { c with server := c.server.print e.entries }

theorem KeptByTokens.rules {inp : LineInput} {P : Call → Prop} (h : KeptByTokens inp P) :
    TokenRules inp (fun _ => P) P where
  push := fun _ => h.push
  word := fun _ _ _ _ _ hc => hc
  take := fun _ _ _ c c' _ _ hc htake => h.take c c' _ hc htake
  file := fun _ _ c v hc hfile => h.file c _ v hc hfile
  number := fun _ _ _ c shock _ _ _ _ hc => h.number c shock _ hc
  make := fun _ _ _ c c' _ _ _ _ _ _ hc hmake => h.make c c' _ hc hmake
  reject := fun _ => h.reject

theorem KeptByTokens.combine {inp : LineInput} {P : Call → Prop} (h : KeptByTokens inp P)
    (toks cur : List Token) (c : Call) (hc : P c) : (combine inp toks cur c).All P := by
  have hends := h.rules.combine toks cur c hc
  cases hcomb : Server.combine inp toks cur c <;> rw [hcomb] at hends <;> exact hends

theorem KeptByTokens.parse {inp : LineInput} {P : Call → Prop} (h : KeptByTokens inp P) {s : Server}
    {u : ℕ} (hstart : P (startCall s u)) : (parse s u inp).All P := by
  unfold Server.parse
  cases tokens ' ' inp.line with
  | nil => trivial
  | cons tok rest =>
    dsimp only
    split_ifs
    · exact h.push _ _ hstart
    · exact h.combine _ _ _ hstart

/-! ### The process loop -/

/-- Who is logged in and who holds which descriptor is the same. -/
structure SameTables (s t : Server) : Prop where
  valid : ∀ i, (t.user i).valid = (s.user i).valid
  sock : ∀ i, (t.user i).sock = (s.user i).sock
  numPipeVec : ∀ i, (t.user i).numPipeVec = (s.user i).numPipeVec
  namePipe : ∀ i, (t.user i).namePipe = (s.user i).namePipe
  record : t.namePipeRecord = s.namePipeRecord
  kernel : t.kernel = s.kernel
  afds : t.afds = s.afds
  accepted : t.accepted = s.accepted

theorem SameTables.refl (s : Server) : SameTables s s :=
  ⟨fun _ => rfl, fun _ => rfl, fun _ => rfl, fun _ => rfl, rfl, rfl, rfl, rfl⟩

theorem SameTables.print (s : Server) (entries : List LogEntry) : SameTables s (s.print entries) :=
  ⟨fun _ => rfl, fun _ => rfl, fun _ => rfl, fun _ => rfl, rfl, rfl, rfl, rfl⟩

theorem SameTables.trans {s t w : Server} (h : SameTables s t) (h' : SameTables t w) :
    SameTables s w :=
  ⟨fun i => (h'.valid i).trans (h.valid i), fun i => (h'.sock i).trans (h.sock i),
    fun i => (h'.numPipeVec i).trans (h.numPipeVec i),
    fun i => (h'.namePipe i).trans (h.namePipe i), h'.record.trans h.record,
    h'.kernel.trans h.kernel, h'.afds.trans h.afds, h'.accepted.trans h.accepted⟩

/-- A change of a user that leaves its place in the tables alone. -/
theorem SameTables.modifyUser (s : Server) (u : ℕ) {f : User → User}
    (hvalid : (f (s.user u)).valid = (s.user u).valid)
    (hsock : (f (s.user u)).sock = (s.user u).sock)
    (hvec : (f (s.user u)).numPipeVec = (s.user u).numPipeVec)
    (hname : (f (s.user u)).namePipe = (s.user u).namePipe) : SameTables s (s.modifyUser u f) := by
  refine ⟨fun i => ?_, fun i => ?_, fun i => ?_, fun i => ?_, rfl, rfl, rfl, rfl⟩ <;>
    by_cases hi : i = u <;> simp [Server.modifyUser, hi, hvalid, hsock, hvec, hname]

theorem SameTables.setenvUser (s : Server) (u : ℕ) (args : List Token) :
    SameTables s (setenvUser s u args) := by
  rcases args with - | ⟨name, - | ⟨value, rest⟩⟩
  · exact .refl s
  · exact .refl s
  · have h := SameTables.modifyUser s u (f := fun w => { w with env := value }) rfl rfl rfl rfl
    exact ⟨h.valid, h.sock, h.numPipeVec, h.namePipe, rfl, rfl, rfl, rfl⟩

theorem SameTables.printenv (s : Server) (u : ℕ) (args : List Token) :
    SameTables s (printenv s u args) := by
  cases args with
  | nil => exact .refl s
  | cons name rest =>
    unfold Server.printenv
    dsimp only
    cases s.environ name with
    | none => exact .refl s
    | some value => exact .print s _

theorem SameTables.tell (s : Server) (u : ℕ) (id : Token) (words : List Token) :
    SameTables s (tell s u id words) := by
  unfold Server.tell
  dsimp only
  split_ifs
  · exact .print s _
  · exact .print s _

theorem SameTables.rename (s : Server) (u : ℕ) (args : List Token) :
    SameTables s (rename s u args) := by
  cases args with
  | nil =>
    exact .modifyUser s u (f := fun w => { w with name := "(no name)".toList }) rfl rfl rfl rfl
  | cons name rest =>
    unfold Server.rename
    dsimp only
    split_ifs
    · exact .print s _
    · exact (SameTables.modifyUser s u (f := fun w => { w with name := name }) rfl rfl rfl rfl).trans
        (.print _ _)

/-- The words that are not looked up in `PATH`. -/
def builtinCmds : List Token :=
  [Shell.printenvCmd, Shell.setenvCmd, Shell.exitCmd, batchCmd, whoCmd, tellCmd, yellCmd, nameCmd]

/-- What is true of the call and the rows still to be executed, row by row: `P` from one row to the
    next, and `R` after `exit`. -/
structure RowRules (inp : LineInput) (processCount : ℕ) (P : List (List Token) → Call → Prop)
    (R : Call → Prop) : Prop where
  fork : ∀ cmd args rest c, cmd ∉ builtinCmds → P ((cmd :: args) :: rest) c →
    P rest (c.fork inp processCount rest.isEmpty (cmd :: args))
  builtin : ∀ cmd args rest c s', cmd ∈ builtinCmds → cmd ≠ Shell.exitCmd →
    P ((cmd :: args) :: rest) c → SameTables c.server s' → P rest { c with server := s' }
  exit : ∀ args rest c, P ((Shell.exitCmd :: args) :: rest) c →
    R { c with server := exitUser c.server c.u }

/-- What the process loop ends with. -/
def Row.Ends (P R : Call → Prop) : Row → Prop
  | next c => P c
  | exited c => R c
  | crashed => True

theorem RowRules.execRow {inp : LineInput} {pc : ℕ} {P : List (List Token) → Call → Prop}
    {R : Call → Prop} (h : RowRules inp pc P R) {argv : List Token} {rest : List (List Token)}
    {c : Call} (hc : P (argv :: rest) c) : (execRow inp pc rest.isEmpty argv c).Ends (P rest) R := by
  rw [Server.execRow.eq_def]
  cases argv with
  | nil => trivial
  | cons cmd args =>
    have hbuiltin := fun s' hcmd hne hs => h.builtin cmd args rest c s' hcmd hne hc hs
    dsimp only
    split_ifs with h1 hfits h2 hfits h3 h4 h5 h6 h7 h8 h9 hfits
    · exact hbuiltin _ (by simp [builtinCmds, h1]) (by rw [h1]; decide)
        (.printenv c.server c.u args)
    · trivial
    · exact hbuiltin _ (by simp [builtinCmds, h2]) (by rw [h2]; decide)
        (.setenvUser c.server c.u args)
    · trivial
    · subst h3
      exact h.exit args rest c hc
    · exact hbuiltin _ (by simp [builtinCmds, h4]) h3 (.refl c.server)
    · trivial
    · exact hbuiltin _ (by simp [builtinCmds, h6]) h3 (.print c.server _)
    · cases args with
      | nil => trivial
      | cons id words =>
        exact hbuiltin _ (by simp [builtinCmds, h7]) h3 (.tell c.server c.u id words)
    · exact hbuiltin _ (by simp [builtinCmds, h8]) h3 (.print c.server _)
    · exact hbuiltin _ (by simp [builtinCmds, h9]) h3 (.rename c.server c.u args)
    · trivial
    · exact h.fork cmd args rest c (by simp [builtinCmds, h1, h2, h3, h4, h6, h7, h8, h9]) hc

theorem RowRules.execRows {inp : LineInput} {pc : ℕ} {P : List (List Token) → Call → Prop}
    {R : Call → Prop} (h : RowRules inp pc P R) : ∀ (rows : List (List Token)) (c : Call),
    P rows c → (execRows inp pc rows c).Ends (P []) R
  | [], c, hc => hc
  | argv :: rest, c, hc => by
    rw [Server.execRows]
    have hrow := h.execRow hc
    cases hr : Server.execRow inp pc rest.isEmpty argv c with
    | next c' =>
      rw [hr] at hrow
      exact h.execRows rest c' hrow
    | exited c' =>
      rw [hr] at hrow
      exact hrow
    | crashed => trivial

/-! ### Whose call it is -/

theorem parse_u {s : Server} {u : ℕ} {inp : LineInput} :
    (parse s u inp).All fun c => c.u = u := by
  have hkept : KeptByTokens inp fun c => c.u = u := by
    refine ⟨fun _ _ h => h, fun c c' id h htake => ?_, fun c c' id h hmake => ?_, fun _ _ _ h => h,
      fun _ _ _ h _ => h, fun _ _ h => h⟩
    · obtain ⟨-, -, rfl⟩ := takeUserPipe_ok.mp htake
      exact h
    · obtain ⟨-, -, rfl⟩ := makeUserPipe_ok.mp hmake
      exact h
  exact hkept.parse rfl

theorem execRows_u {inp : LineInput} {pc : ℕ} {rows : List (List Token)} {c : Call} :
    (execRows inp pc rows c).Ends (fun c' => c'.u = c.u) fun c' => c'.u = c.u := by
  have hrules : RowRules inp pc (fun _ c' => c'.u = c.u) fun c' => c'.u = c.u :=
    ⟨fun _ _ _ _ _ h => h, fun _ _ _ _ _ _ _ h _ => h, fun _ _ _ h => h⟩
  exact hrules.execRows rows c rfl

/-! ### How a call ends -/

/-- The server with `PATH` set to the `env` of the user. -/
def setPath (s : Server) (u : ℕ) : Server :=
  { s with environ := setenv s.environ ['P', 'A', 'T', 'H'] (s.user u).env }

/-- A call does nothing on a blank line, stops at a rejected token, or runs the process loop to its
    end or to `exit`. -/
inductive Outcome (s : Server) (u : ℕ) (inp : LineInput) : Return → Prop
  | blank : inp.line = [] → Outcome s u inp ⟨s.setPath u, false, [], none⟩
  | rejected {c : Call} {e : PipeError} : inp.line ≠ [] → parse (s.setPath u) u inp = .rejected c e →
      Outcome s u inp ⟨c.leave, false, [], some e⟩
  | ended {c c' : Call} : inp.line ≠ [] → parse (s.setPath u) u inp = .ok c →
      execRows inp c.process.length c.process c.resolve = .next c' →
      Outcome s u inp ⟨c'.leave, false, c'.spawned, none⟩
  | exited {c c' : Call} : inp.line ≠ [] → parse (s.setPath u) u inp = .ok c →
      execRows inp c.process.length c.process c.resolve = .exited c' →
      Outcome s u inp ⟨c'.leave, true, c'.spawned, none⟩

theorem npshell_outcome {s : Server} {u : ℕ} {inp : LineInput} {r : Return}
    (h : npshell s u inp = some r) : Outcome s u inp r := by
  unfold npshell at h
  dsimp only at h
  split_ifs at h with hblank
  · simp only [Option.some.injEq] at h
    subst h
    exact .blank hblank
  · rw [← setPath, npshellLine] at h
    cases hp : parse (s.setPath u) u inp with
    | crashed => simp [hp] at h
    | rejected c e =>
      simp only [hp, Option.some.injEq] at h
      subst h
      exact .rejected hblank hp
    | ok c =>
      simp only [hp] at h
      cases hrows : execRows inp c.process.length c.process c.resolve with
      | crashed => simp [hrows] at h
      | next c' =>
        simp only [hrows, Option.some.injEq] at h
        subst h
        exact .ended hblank hp hrows
      | exited c' =>
        simp only [hrows, Option.some.injEq] at h
        subst h
        exact .exited hblank hp hrows

end NetProg.Server
