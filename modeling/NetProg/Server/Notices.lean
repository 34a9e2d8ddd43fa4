import NetProg.Lib.Format
import NetProg.Server.Model

/-! The texts that users send each other, and the copy of the line that two of them quote.

    `command` is what `sprintf` makes of the line. A call of `npshell` with another `command` goes the same way
    and sends the same texts, with the other `command` between the quotes. -/

namespace NetProg.Server

/-- A text for other users, with what it is composed of besides the line. -/
inductive Text where
  | received (name : List Char) (id : ℤ) (senderName : List Char) (sender : ℤ)
  | piped (name : List Char) (id : ℤ) (receiverName : List Char) (receiver : ℤ)
  | told (name message : List Char)
  | yelled (name message : List Char)
  | named (name : List Char)
  | left (name : List Char)

namespace Text

/-- The text with what is put between its quotes. -/
def compose (t : Text) (command : List Char) : List Char :=
  match t with
  | received name id senderName sender => "*** ".toList ++ name ++ " (#".toList ++ decimal id ++
      ") just received from ".toList ++ senderName ++ " (#".toList ++ decimal sender ++ ") by '".toList ++
      command ++ "' ***\n".toList
  | piped name id receiverName receiver => "*** ".toList ++ name ++ " (#".toList ++ decimal id ++
      ") just piped '".toList ++ command ++ "' to ".toList ++ receiverName ++ " (#".toList ++ decimal receiver ++
      ") ***\n".toList
  | told name message => "*** ".toList ++ name ++ " told you ***: ".toList ++ message ++ "\n".toList
  | yelled name message => "*** ".toList ++ name ++ " yelled ***: ".toList ++ message ++ "\n".toList
  | named name => "*** User from CGILAB/511 is named '".toList ++ name ++ "'. ***\n".toList
  | left name => "*** User '".toList ++ name ++ "' left. ***\n".toList

/-- A notice about a user pipe. -/
def quotes : Text → Bool
  | received .. | piped .. => true
  | _ => false

end Text

/-- Two entries that differ in the command a text quotes. -/
inductive LogEntry.Twin (a b : List Char) : LogEntry → LogEntry → Prop
  | same (e : LogEntry) : Twin a b e e
  | text (fd : ℕ) (t : Text) : Twin a b (.write fd (t.compose a)) (.write fd (t.compose b))

/-- The server with another log. -/
def withLog (s : Server) (log : List LogEntry) : Server := { s with log := log }

/-- Two servers that differ in their logs, and there in the command that is quoted. -/
def Twin (a b : List Char) (s t : Server) : Prop :=
  ∃ log, t = s.withLog log ∧ List.Forall₂ (LogEntry.Twin a b) s.log log

variable {a b : List Char} {s t : Server}

theorem LogEntry.Twin.all (es : List LogEntry) : List.Forall₂ (LogEntry.Twin a b) es es :=
  List.forall₂_same.mpr fun e _ => .same e

theorem Twin.refl (s : Server) : Twin a b s s := ⟨s.log, rfl, LogEntry.Twin.all s.log⟩

theorem Twin.print {es es' : List LogEntry} (h : Twin a b s t) (hes : List.Forall₂ (LogEntry.Twin a b) es es') :
    Twin a b (s.print es) (t.print es') := by
  obtain ⟨log, rfl, hlog⟩ := h
  exact ⟨log ++ es', rfl, List.rel_append hlog hes⟩

theorem Twin.printSame (h : Twin a b s t) (es : List LogEntry) : Twin a b (s.print es) (t.print es) :=
  h.print (LogEntry.Twin.all es)

theorem Twin.broadcastMsg (h : Twin a b s t) (text : Text) :
    Twin a b (s.broadcastMsg (text.compose a)) (t.broadcastMsg (text.compose b)) := by
  have hvalid : t.validUsers = s.validUsers ∧ t.user = s.user := by
    obtain ⟨log, rfl, -⟩ := h
    exact ⟨rfl, rfl⟩
  rw [Server.broadcastMsg, Server.broadcastMsg, hvalid.1, hvalid.2]
  refine h.print ?_
  rw [List.forall₂_map_left_iff, List.forall₂_map_right_iff]
  exact List.forall₂_same.mpr fun i _ => .text (s.user i).sock text

/-- What does not look at the log. -/
theorem Twin.map {f : Server → Server} (h : Twin a b s t) (hlog : ∀ s, (f s).log = s.log)
    (hf : ∀ s log, f (s.withLog log) = (f s).withLog log) : Twin a b (f s) (f t) := by
  obtain ⟨log, rfl, h⟩ := h
  exact ⟨log, hf s log, (hlog s).symm ▸ h⟩

theorem Twin.modifyUser (h : Twin a b s t) (i : ℕ) (f : User → User) :
    Twin a b (s.modifyUser i f) (t.modifyUser i f) :=
  Twin.map (f := fun s => s.modifyUser i f) h (fun _ => rfl) fun _ _ => rfl

theorem Twin.user (h : Twin a b s t) : t.user = s.user := by
  obtain ⟨log, rfl, -⟩ := h
  rfl

theorem Twin.environ (h : Twin a b s t) : t.environ = s.environ := by
  obtain ⟨log, rfl, -⟩ := h
  rfl

theorem Twin.checkIdExist (h : Twin a b s t) (id : ℤ) : t.checkIdExist id = s.checkIdExist id := by
  obtain ⟨log, rfl, -⟩ := h
  rfl

theorem Twin.checkNameExist (h : Twin a b s t) (name : List Char) : t.checkNameExist name = s.checkNameExist name := by
  obtain ⟨log, rfl, -⟩ := h
  rfl

theorem Twin.checkNamePipeExist (h : Twin a b s t) (sender receiver : ℕ) :
    t.checkNamePipeExist sender receiver = s.checkNamePipeExist sender receiver := by
  obtain ⟨log, rfl, -⟩ := h
  rfl

/-- A record is cleared. -/
def cleared (s : Server) (sender receiver : ℕ) : Server :=
  { s with
    namePipeRecord := Function.update s.namePipeRecord sender
      (Function.update (s.namePipeRecord sender) receiver false) }

/-! ### One call -/

/-- Two calls on twin servers. -/
def Call.Twin (a b : List Char) (c d : Call) : Prop :=
  ∃ t, d = { c with server := t } ∧ Server.Twin a b c.server t

theorem Call.Twin.u {c d : Call} (h : Call.Twin a b c d) : d.u = c.u := by
  obtain ⟨t, rfl, -⟩ := h
  rfl

theorem Call.Twin.vars {c d : Call} (h : Call.Twin a b c d) : d.vars = c.vars := by
  obtain ⟨t, rfl, -⟩ := h
  rfl

theorem Call.Twin.servers {c d : Call} (h : Call.Twin a b c d) : Server.Twin a b c.server d.server := by
  obtain ⟨t, rfl, h⟩ := h
  exact h

theorem Call.Twin.server {c d : Call} {s t : Server} (h : Call.Twin a b c d) (hs : Server.Twin a b s t) :
    Call.Twin a b { c with server := s } { d with server := t } := by
  obtain ⟨_, rfl, -⟩ := h
  exact ⟨t, rfl, hs⟩

theorem Call.Twin.push {c d : Call} (h : Call.Twin a b c d) (argv : List Token) :
    Call.Twin a b (c.push argv) (d.push argv) := by
  obtain ⟨t, rfl, h⟩ := h
  exact ⟨t, rfl, h⟩

theorem Call.Twin.pipeOut {c d : Call} (h : Call.Twin a b c d) (shock : Bool) (n : ℤ) :
    Call.Twin a b (c.pipeOut shock n) (d.pipeOut shock n) := by
  obtain ⟨t, rfl, h⟩ := h
  exact ⟨t, rfl, h⟩

theorem Call.Twin.taken {c d : Call} (h : Call.Twin a b c d) (sender : ℕ) :
    Call.Twin a b (c.taken a sender) (d.taken b sender) := by
  obtain ⟨_, rfl, h⟩ := h
  have hcleared := Twin.map (f := fun s => s.cleared sender (c.u + 1)) h (fun _ => rfl) fun _ _ => rfl
  obtain ⟨log, rfl, -⟩ := h
  exact ⟨_, rfl, hcleared.broadcastMsg (.received (c.server.user c.u).name (c.server.user c.u).id
    (c.server.user (sender - 1)).name sender)⟩

theorem Call.Twin.made {c d : Call} (h : Call.Twin a b c d) (receiver : ℕ) :
    Call.Twin a b (c.made receiver) (d.made receiver) := by
  obtain ⟨_, rfl, log, rfl, hlog⟩ := h
  exact ⟨_, rfl, log, rfl, hlog⟩

/-- Twin ends of the two parsers. -/
inductive Parse.Twin (a b : List Char) : Parse → Parse → Prop
  | ok {c d : Call} (h : Call.Twin a b c d) : Twin a b (.ok c) (.ok d)
  | rejected {c d : Call} (h : Call.Twin a b c d) (e : PipeError) : Twin a b (.rejected c e) (.rejected d e)
  | crashed : Twin a b .crashed .crashed

/-- The input with another `command`. -/
def LineInput.withCommand (inp : LineInput) (command : List Char) : LineInput := { inp with command := command }

theorem withCommand_line (inp : LineInput) (command : List Char) : (inp.withCommand command).line = inp.line := rfl

theorem withCommand_opens (inp : LineInput) (command : List Char) : (inp.withCommand command).opens = inp.opens := rfl

/-- Twin ends of one token. -/
inductive TokenTwin (a b : List Char) : Except PipeError Call → Except PipeError Call → Prop
  | ok {c d : Call} (h : Call.Twin a b c d) : TokenTwin a b (.ok c) (.ok d)
  | error (e : PipeError) : TokenTwin a b (.error e) (.error e)

theorem takeUserPipe_twin {c d : Call} (h : Call.Twin a b c d) (id : ℤ) :
    TokenTwin a b (c.takeUserPipe a id) (d.takeUserPipe b id) := by
  rw [Call.takeUserPipe, Call.takeUserPipe, h.servers.checkIdExist, h.servers.checkNamePipeExist, h.u]
  split_ifs
  · exact .ok (h.taken id.toNat)
  · exact .error _
  · exact .error _

theorem makeUserPipe_twin {c d : Call} (h : Call.Twin a b c d) (id : ℤ) :
    TokenTwin a b (c.makeUserPipe id) (d.makeUserPipe id) := by
  rw [Call.makeUserPipe, Call.makeUserPipe, h.servers.checkIdExist, h.servers.checkNamePipeExist, h.u]
  split_ifs
  · exact .error _
  · exact .ok (h.made id.toNat)
  · exact .error _

theorem Call.Twin.rejected {c d : Call} (h : Call.Twin a b c d) (e : PipeError) :
    Parse.Twin a b (.rejected { c with server := c.server.print e.entries } e)
      (.rejected { d with server := d.server.print e.entries } e) := by
  obtain ⟨t, rfl, h⟩ := h
  exact .rejected ⟨_, rfl, h.printSame e.entries⟩ e

theorem Call.Twin.file {c d : Call} (h : Call.Twin a b c d) (v : Vars) :
    Call.Twin a b { c with vars := v, server := c.server.print [.fflush] }
      { d with vars := v, server := d.server.print [.fflush] } := by
  obtain ⟨t, rfl, h⟩ := h
  exact ⟨_, rfl, h.printSame [.fflush]⟩

/-- Combining goes the same way in both calls, token by token. -/
theorem combine_twin (inp : LineInput) (a b : List Char) : ∀ (toks cur : List Token) {c d : Call},
    Call.Twin a b c d →
    Parse.Twin a b (combine (inp.withCommand a) toks cur c) (combine (inp.withCommand b) toks cur d)
  | [], cur, c, d, h => by
    rw [combine, combine]
    by_cases hcur : cur = []
    · rw [if_pos hcur, if_pos hcur]
      exact .ok h
    · rw [if_neg hcur, if_neg hcur]
      exact .ok (h.push cur)
  | tok :: rest, cur, c, d, h => by
    rw [combine.eq_def (inp.withCommand a), combine.eq_def (inp.withCommand b)]
    dsimp only
    by_cases htake : tok.head? = some '<'
    · rw [if_pos htake, if_pos htake]
      cases strtok '<' tok with
      | none => exact .crashed
      | some n =>
        have htwin : TokenTwin a b (c.takeUserPipe (inp.withCommand a).command (atoi n))
          (d.takeUserPipe (inp.withCommand b).command (atoi n)) := takeUserPipe_twin h (atoi n)
        dsimp only
        generalize c.takeUserPipe (inp.withCommand a).command (atoi n) = x at htwin ⊢
        generalize d.takeUserPipe (inp.withCommand b).command (atoi n) = y at htwin ⊢
        cases htwin with
        | ok hn => exact combine_twin inp a b rest cur hn
        | error e => exact h.rejected e
    rw [if_neg htake, if_neg htake]
    by_cases hord : ordinary tok = true
    · rw [if_pos hord, if_pos hord]
      exact combine_twin inp a b rest (cur ++ [tok]) h
    rw [if_neg hord, if_neg hord]
    by_cases hbar : tok = ['|']
    · rw [if_pos hbar, if_pos hbar]
      exact combine_twin inp a b rest [] (h.push cur)
    rw [if_neg hbar, if_neg hbar]
    by_cases hfile : tok = ['>']
    · rw [if_pos hfile, if_pos hfile]
      cases rest with
      | nil => exact .crashed
      | cons name rest =>
        dsimp only
        rw [h.vars, withCommand_opens, withCommand_opens]
        cases c.vars.createFile inp.opens name with
        | none => exact .crashed
        | some v => exact combine_twin inp a b rest [] ((h.push cur).file v)
    rw [if_neg hfile, if_neg hfile]
    by_cases hbang : tok.head? = some '!'
    · rw [if_pos hbang, if_pos hbang]
      cases strtok '!' tok with
      | none => exact .crashed
      | some n => exact combine_twin inp a b rest [] ((h.push cur).pipeOut true (atoi n))
    rw [if_neg hbang, if_neg hbang]
    by_cases hnum : tok.head? = some '|'
    · rw [if_pos hnum, if_pos hnum]
      cases strtok '|' tok with
      | none => exact .crashed
      | some n => exact combine_twin inp a b rest [] ((h.push cur).pipeOut false (atoi n))
    rw [if_neg hnum, if_neg hnum]
    cases strtok '>' tok with
    | none => exact .crashed
    | some n =>
      have hpush := h.push cur
      have htwin := makeUserPipe_twin hpush (atoi n)
      dsimp only
      generalize (c.push cur).makeUserPipe (atoi n) = x at htwin ⊢
      generalize (d.push cur).makeUserPipe (atoi n) = y at htwin ⊢
      cases htwin with
      | ok hn => exact combine_twin inp a b rest [] hn
      | error e => exact hpush.rejected e

/-! ### The process loop -/

theorem tell_twin (h : Twin a b s t) (u : ℕ) (receiver : Token) (words : List Token) :
    Twin a b (s.tell u receiver words) (t.tell u receiver words) := by
  rw [tell, tell, h.checkIdExist, h.user]
  split_ifs
  · exact h.print (.cons (.text _ (.told (s.user u).name (messageText words))) .nil)
  · exact h.printSame _

theorem yell_twin (h : Twin a b s t) (u : ℕ) (words : List Token) : Twin a b (s.yell u words) (t.yell u words) := by
  rw [yell, yell, h.user]
  exact h.broadcastMsg (.yelled (s.user u).name (messageText words))

theorem rename_twin (h : Twin a b s t) (u : ℕ) (args : List Token) :
    Twin a b (s.rename u args) (t.rename u args) := by
  cases args with
  | nil => exact h.modifyUser u fun w => { w with name := "(no name)".toList }
  | cons name rest =>
    rw [rename, rename, h.checkNameExist]
    split_ifs
    · exact h.printSame _
    · exact (h.modifyUser u _).broadcastMsg (.named name)

theorem renameFits_twin (h : Twin a b s t) (args : List Token) : t.renameFits args = s.renameFits args := by
  cases args with
  | nil => rfl
  | cons name rest => rw [renameFits, renameFits, h.checkNameExist]

theorem printenv_twin (h : Twin a b s t) (u : ℕ) (args : List Token) :
    Twin a b (s.printenv u args) (t.printenv u args) := by
  cases args with
  | nil => exact h
  | cons name rest =>
    rw [printenv, printenv, h.environ, h.user]
    cases s.environ name with
    | none => exact h
    | some value => exact h.printSame _

theorem setenvUser_twin (h : Twin a b s t) (u : ℕ) (args : List Token) :
    Twin a b (s.setenvUser u args) (t.setenvUser u args) := by
  obtain ⟨log, rfl, hlog⟩ := h
  rcases args with _ | ⟨name, _ | ⟨value, rest⟩⟩ <;> exact ⟨log, rfl, hlog⟩

theorem exitUser_twin (h : Twin a b s t) (u : ℕ) : Twin a b (s.exitUser u) (t.exitUser u) := by
  rw [exitUser, exitUser, h.user]
  refine Twin.modifyUser (Twin.map (f := fun s : Server =>
    { s with
      namePipeRecord := fun i j =>
        if 1 ≤ i ∧ i ≤ qlen ∧ 1 ≤ j ∧ j ≤ qlen ∧ (i = u + 1 ∨ j = u + 1) then false
        else s.namePipeRecord i j }) (h.broadcastMsg (.left (s.user u).name)) ?_ ?_) u _
  · exact fun _ => rfl
  · exact fun _ _ => rfl

theorem who_twin (h : Twin a b s t) (sock : ℕ) :
    Twin a b (s.print (s.whoEntries sock)) (t.print (t.whoEntries sock)) := by
  have hwho : t.whoEntries sock = s.whoEntries sock := by
    obtain ⟨log, rfl, -⟩ := h
    rfl
  rw [hwho]
  exact h.printSame _

theorem pipedMsg_eq (s : Server) (u receiver : ℕ) (command : List Char) : pipedMsg s u receiver command =
    (Text.piped (s.user u).name (s.user u).id (s.user (receiver - 1)).name (s.user (receiver - 1)).id).compose
      command := rfl

theorem Twin.piped (h : Twin a b s t) (u receiver : ℕ) :
    Twin a b (s.broadcastMsg (pipedMsg s u receiver a)) (t.broadcastMsg (pipedMsg t u receiver b)) := by
  rw [pipedMsg_eq, pipedMsg_eq, h.user]
  exact h.broadcastMsg _

/-- What `fork` announces, by the user pipe before and behind it. -/
def announce (s : Server) (u : ℕ) (command : List Char) : Option ℕ → Option ℕ → Option ℕ → Server
  | some _, none, some r => s.broadcastMsg (pipedMsg s u r command)
  | _, _, _ => s

theorem announce_twin (h : Twin a b s t) (u : ℕ) (before behind receiver : Option ℕ) :
    Twin a b (s.announce u a before behind receiver) (t.announce u b before behind receiver) := by
  rcases before with _ | p
  · exact h
  · rcases behind with _ | q
    · rcases receiver with _ | r
      · exact h
      · exact h.piped u r
    · exact h

theorem fork_eq (c : Call) (inp : LineInput) (pc : ℕ) (last : Bool) (argv : List Token) :
    c.fork inp pc last argv =
      { c with
        vars := (c.vars.forkProcess inp.opens pc last).1
        server := c.server.announce c.u inp.command c.vars.namePipeOut
          (c.vars.forkProcess inp.opens pc last).1.namePipeOut c.receiver
        spawned := c.spawned ++ [⟨argv, (c.vars.forkProcess inp.opens pc last).2⟩] } := rfl

theorem fork_twin {c d : Call} (h : Call.Twin a b c d) (inp : LineInput) (pc : ℕ) (last : Bool) (argv : List Token) :
    Call.Twin a b (c.fork (inp.withCommand a) pc last argv) (d.fork (inp.withCommand b) pc last argv) := by
  have hannounce := announce_twin h.servers c.u c.vars.namePipeOut
    (c.vars.forkProcess inp.opens pc last).1.namePipeOut c.receiver
  obtain ⟨t, rfl, -⟩ := h
  rw [fork_eq, fork_eq]
  exact ⟨_, rfl, hannounce⟩

/-- Twin ends of a turn of the process loop. -/
inductive Row.Twin (a b : List Char) : Row → Row → Prop
  | next {c d : Call} (h : Call.Twin a b c d) : Twin a b (.next c) (.next d)
  | exited {c d : Call} (h : Call.Twin a b c d) : Twin a b (.exited c) (.exited d)
  | crashed : Twin a b .crashed .crashed

theorem execRow_twin {c d : Call} (h : Call.Twin a b c d) (inp : LineInput) (pc : ℕ) (last : Bool)
    (argv : List Token) : Row.Twin a b (execRow (inp.withCommand a) pc last argv c)
      (execRow (inp.withCommand b) pc last argv d) := by
  have hfork := fork_twin h inp pc last argv
  obtain ⟨t, rfl, hs⟩ := h
  have hserver : ∀ {s s' : Server}, Twin a b s s' → Call.Twin a b { c with server := s } { c with server := s' } :=
    fun h => ⟨_, rfl, h⟩
  rcases argv with _ | ⟨cmd, args⟩
  · exact .crashed
  rw [execRow.eq_def, execRow.eq_def]
  dsimp only
  rw [hs.environ, hs.user, renameFits_twin hs]
  split_ifs
  · exact .next (hserver (printenv_twin hs c.u args))
  · exact .crashed
  · exact .next (hserver (setenvUser_twin hs c.u args))
  · exact .crashed
  · exact .exited (hserver (exitUser_twin hs c.u))
  -- both look at the same `batch`
  · exact .next (hserver hs)
  · rename_i hbatch hbatch'
    exact absurd hbatch hbatch'
  · rename_i hbatch hbatch'
    exact absurd hbatch' hbatch
  · exact .crashed
  · exact .next (hserver (who_twin hs _))
  · cases args with
    | nil => exact .crashed
    | cons id words => exact .next (hserver (tell_twin hs c.u id words))
  · exact .next (hserver (yell_twin hs c.u args))
  · exact .next (hserver (rename_twin hs c.u args))
  · exact .crashed
  · exact .next hfork

theorem execRows_twin (inp : LineInput) (pc : ℕ) (rows : List (List Token)) {c d : Call} (h : Call.Twin a b c d) :
    Row.Twin a b (execRows (inp.withCommand a) pc rows c) (execRows (inp.withCommand b) pc rows d) := by
  induction rows generalizing c d with
  | nil => exact .next h
  | cons argv rest ih =>
    rw [execRows, execRows]
    have hrow := execRow_twin h inp pc rest.isEmpty argv
    generalize execRow (inp.withCommand a) pc rest.isEmpty argv c = x at hrow ⊢
    generalize execRow (inp.withCommand b) pc rest.isEmpty argv d = y at hrow ⊢
    cases hrow with
    | next hn => exact ih hn
    | exited hn => exact .exited hn
    | crashed => exact .crashed

/-! ### A call of `npshell` -/

/-- Twin returns: the same besides the log. -/
structure Return.Twin (a b : List Char) (r q : Return) : Prop where
  server : Server.Twin a b r.server q.server
  zero : q.zero = r.zero
  spawned : q.spawned = r.spawned
  error : q.error = r.error

theorem Call.Twin.leave {c d : Call} (h : Call.Twin a b c d) : Server.Twin a b c.leave d.leave := by
  obtain ⟨_, rfl, log, rfl, hlog⟩ := h
  exact ⟨log, rfl, hlog⟩

theorem Call.Twin.spawned {c d : Call} (h : Call.Twin a b c d) : d.spawned = c.spawned := by
  obtain ⟨t, rfl, -⟩ := h
  rfl

theorem Call.Twin.process {c d : Call} (h : Call.Twin a b c d) : d.process = c.process := by
  obtain ⟨t, rfl, -⟩ := h
  rfl

theorem Call.Twin.resolve {c d : Call} (h : Call.Twin a b c d) : Call.Twin a b c.resolve d.resolve := by
  obtain ⟨_, rfl, log, rfl, hlog⟩ := h
  exact ⟨_, rfl, log, rfl, hlog⟩

theorem parse_twin (s : Server) (u : ℕ) (inp : LineInput) (a b : List Char) :
    Parse.Twin a b (parse s u (inp.withCommand a)) (parse s u (inp.withCommand b)) := by
  have hstart : Call.Twin a b (startCall s u) (startCall s u) := ⟨s, rfl, Twin.refl s⟩
  rw [parse, parse, withCommand_line, withCommand_line]
  cases tokens ' ' inp.line with
  | nil => exact .crashed
  | cons tok rest =>
    dsimp only
    split_ifs
    · exact .ok (hstart.push _)
    · exact combine_twin inp a b _ _ hstart

/-- Two calls that differ in `command` end alike, with the same texts in their logs. -/
theorem npshell_twin (s : Server) (u : ℕ) (inp : LineInput) (a b : List Char) :
    Option.Rel (Return.Twin a b) (npshell s u (inp.withCommand a)) (npshell s u (inp.withCommand b)) := by
  rw [npshell, npshell]
  change Option.Rel _ (if inp.line = [] then _ else npshellLine _ u (inp.withCommand a))
    (if inp.line = [] then _ else npshellLine _ u (inp.withCommand b))
  split_ifs
  · exact .some ⟨Twin.refl _, rfl, rfl, rfl⟩
  · rw [npshellLine, npshellLine]
    have hparse := parse_twin { s with environ := setenv s.environ ['P', 'A', 'T', 'H'] (s.user u).env } u inp a b
    generalize parse _ u (inp.withCommand a) = x at hparse ⊢
    generalize parse _ u (inp.withCommand b) = y at hparse ⊢
    cases hparse with
    | crashed => exact .none
    | rejected h e => exact .some ⟨h.leave, rfl, rfl, rfl⟩
    | @ok c d h =>
      have hrows := execRows_twin inp c.process.length c.process h.resolve
      dsimp only
      rw [h.process]
      generalize execRows (inp.withCommand a) c.process.length c.process c.resolve = x at hrows ⊢
      generalize execRows (inp.withCommand b) c.process.length c.process d.resolve = y at hrows ⊢
      cases hrows with
      | crashed => exact .none
      | exited h => exact .some ⟨h.leave, rfl, h.spawned, rfl⟩
      | next h => exact .some ⟨h.leave, rfl, h.spawned, rfl⟩

end NetProg.Server
