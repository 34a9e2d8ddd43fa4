import NetProg.Multi.Model
import NetProg.Server.Notices

/-! The texts that users of `np_multi_proc` send each other: a line goes the same way with another `command`,
    and quotes it in the same places. -/

open NetProg.Server (Text ordinary)

namespace NetProg.Multi

/-- Two events that differ in the command a text quotes. -/
inductive Event.Twin (a b : List Char) : Event → Event → Prop
  | same (e : Event) (hbroadcast : ∀ msg, e ≠ .broadcast msg) (hmessage : ∀ i msg, e ≠ .message i msg) : Twin a b e e
  | broadcast (t : Text) : Twin a b (.broadcast (t.compose a)) (.broadcast (t.compose b))
  | message (i : ℤ) (t : Text) : Twin a b (.message i (t.compose a)) (.message i (t.compose b))

/-- It is no text for another user. -/
def Event.Own : Event → Prop
  | .broadcast _ | .message _ _ => False
  | _ => True

variable {a b : List Char} {c d : Turn}

theorem Event.Twin.own {e : Event} (h : e.Own) : Event.Twin a b e e :=
  .same e (fun _ heq => (heq ▸ h : Event.Own (.broadcast _))) fun _ _ heq => (heq ▸ h : Event.Own (.message _ _))

theorem Event.Twin.all {es : List Event} (h : ∀ e ∈ es, e.Own) : List.Forall₂ (Event.Twin a b) es es :=
  List.forall₂_same.mpr fun e he => .own (h e he)

namespace Turn

def withEvents (c : Turn) (es : List Event) : Turn := { c with events := es }

/-- Two turns that differ in their events, and there in the command that is quoted. -/
def Twin (a b : List Char) (c d : Turn) : Prop :=
  ∃ es, d = c.withEvents es ∧ List.Forall₂ (Event.Twin a b) c.events es

theorem Twin.emit {es es' : List Event} (h : Twin a b c d) (hes : List.Forall₂ (Event.Twin a b) es es') :
    Twin a b (c.emit es) (d.emit es') := by
  obtain ⟨fs, rfl, hfs⟩ := h
  exact ⟨fs ++ es', rfl, List.rel_append hfs hes⟩

theorem Twin.emitOwn (h : Twin a b c d) {es : List Event} (hes : ∀ e ∈ es, e.Own) :
    Twin a b (c.emit es) (d.emit es) :=
  h.emit (Event.Twin.all hes)

/-- What does not look at the events. -/
theorem Twin.map {f : Turn → Turn} (h : Twin a b c d) (hev : ∀ c, (f c).events = c.events)
    (hf : ∀ c es, f (c.withEvents es) = (f c).withEvents es) : Twin a b (f c) (f d) := by
  obtain ⟨es, rfl, hes⟩ := h
  exact ⟨es, hf c es, (hev c).symm ▸ hes⟩

theorem Twin.tick (h : Twin a b c d) : Twin a b c.tick d.tick := h.map (fun _ => rfl) fun _ _ => rfl

theorem Twin.push (h : Twin a b c d) (argv : List Token) : Twin a b (c.push argv) (d.push argv) :=
  Twin.map (f := fun c => c.push argv) h (fun _ => rfl) fun _ _ => rfl

theorem Twin.touch (h : Twin a b c d) (l : List Subscript) : Twin a b (c.touch l) (d.touch l) :=
  Twin.map (f := fun c => c.touch l) h (fun _ => rfl) fun _ _ => rfl

theorem Twin.withVars (h : Twin a b c d) (v : Vars) : Twin a b (c.withVars v) (d.withVars v) :=
  Twin.map (f := fun c => c.withVars v) h (fun _ => rfl) fun _ _ => rfl

theorem Twin.pipeOut (h : Twin a b c d) (shock : Bool) (n : ℤ) : Twin a b (c.pipeOut shock n) (d.pipeOut shock n) :=
  Twin.map (f := fun c => c.pipeOut shock n) h (fun _ => rfl) fun _ _ => rfl

theorem Twin.take (h : Twin a b c d) (name : List Char) : Twin a b (c.take name) (d.take name) :=
  Twin.map (f := fun c => c.take name) h (fun _ => rfl) fun _ _ => rfl

theorem Twin.give (h : Twin a b c d) (name : List Char) : Twin a b (c.give name) (d.give name) :=
  Twin.map (f := fun c => c.give name) h (fun _ => rfl) fun _ _ => rfl

theorem Twin.setOutId (h : Twin a b c d) (id : ℤ) : Twin a b (c.setOutId id) (d.setOutId id) :=
  Twin.map (f := fun c => c.setOutId id) h (fun _ => rfl) fun _ _ => rfl

theorem Twin.ignored (h : Twin a b c d) (x : Bool) : Twin a b { c with ignore := x } { d with ignore := x } :=
  Twin.map (f := fun c : Turn => { c with ignore := x }) h (fun _ => rfl) fun _ _ => rfl

theorem Twin.refuse (h : Twin a b c d) {es : List Event} (hes : ∀ e ∈ es, e.Own) :
    Twin a b (c.refuse es) (d.refuse es) :=
  (h.emitOwn hes).ignored true

theorem Twin.u (h : Twin a b c d) : d.u = c.u := by
  obtain ⟨es, rfl, -⟩ := h
  rfl

theorem Twin.now (h : Twin a b c d) : d.now = c.now := by
  obtain ⟨es, rfl, -⟩ := h
  rfl

theorem Twin.vars (h : Twin a b c d) : d.vars = c.vars := by
  obtain ⟨es, rfl, -⟩ := h
  rfl

end Turn

/-- The input with another `command`. -/
def LineInput.withCommand (inp : LineInput) (command : List Char) : LineInput := { inp with command := command }

theorem withCommand_line (inp : LineInput) (command : List Char) : (inp.withCommand command).line = inp.line := rfl

theorem withCommand_seen (inp : LineInput) (command : List Char) : (inp.withCommand command).seen = inp.seen := rfl

theorem withCommand_creatPipe (inp : LineInput) (command : List Char) :
    (inp.withCommand command).creatPipe = inp.creatPipe := rfl

/-! ### Combining -/

namespace Turn

theorem Twin.takeUserPipe (h : Twin a b c d) (inp : LineInput) (id : ℤ) :
    Twin a b (c.takeUserPipe (inp.withCommand a) id) (d.takeUserPipe (inp.withCommand b) id) := by
  rw [Turn.takeUserPipe, Turn.takeUserPipe, h.now, h.u, withCommand_seen, withCommand_seen]
  split_ifs
  · have hrecord : Event.Twin a b (.record (c.u + 1) id false) (.record (c.u + 1) id false) := .own trivial
    refine ((h.touch _).emit (.cons hrecord (.cons ?_ .nil))).take _
    exact .broadcast (.received (inp.seen (c.now + 2) c.u).name (inp.seen (c.now + 2) c.u).id
      (inp.seen (c.now + 2) (id - 1).toNat).name id)
  · exact (h.touch _).refuse (by simp [Event.Own])
  · exact (h.touch _).refuse (by simp [Event.Own])

theorem Twin.createPipeFile (h : Twin a b c d) (inp : LineInput) (name : List Char) :
    Twin a b (c.createPipeFile (inp.withCommand a) name) (d.createPipeFile (inp.withCommand b) name) := by
  rw [Turn.createPipeFile, Turn.createPipeFile, h.vars, withCommand_creatPipe, withCommand_creatPipe]
  split_ifs
  · exact (h.emitOwn (by simp [Event.Own])).withVars _
  · exact h

theorem Twin.makeUserPipe (h : Twin a b c d) (inp : LineInput) (id : ℤ) :
    Twin a b (c.makeUserPipe (inp.withCommand a) id) (d.makeUserPipe (inp.withCommand b) id) := by
  rw [Turn.makeUserPipe, Turn.makeUserPipe, h.now, h.u, withCommand_seen, withCommand_seen]
  split_ifs
  · exact ((h.setOutId id).touch _).refuse (by simp [Event.Own])
  · exact ((((h.setOutId id).touch _).createPipeFile inp _).emitOwn (by simp [Event.Own])).give _
  · exact ((h.setOutId id).touch _).refuse (by simp [Event.Own])

theorem redirect_twin (h : Twin a b c d) (inp : LineInput) (name : Token) :
    Option.Rel (Twin a b) (c.redirect (inp.withCommand a) name) (d.redirect (inp.withCommand b) name) := by
  rw [Turn.redirect, Turn.redirect, h.vars]
  change Option.Rel _ (Option.map _ (c.vars.createFile ⟨inp.creat, inp.redir, none⟩ name))
    (Option.map _ (c.vars.createFile ⟨inp.creat, inp.redir, none⟩ name))
  cases c.vars.createFile ⟨inp.creat, inp.redir, none⟩ name with
  | none => exact .none
  | some v =>
    have hown : ∀ e ∈ (if inp.creat then [.creat (cString v.redirectionFileName)] else []) ++
        [Event.fflush], e.Own := by
      split_ifs <;> simp [Event.Own]
    exact .some ((h.emitOwn hown).withVars v)

end Turn

/-- Twin ends. -/
inductive Outcome.Twin (a b : List Char) : Outcome → Outcome → Prop
  | next {c d : Turn} (h : Turn.Twin a b c d) : Twin a b (.next c) (.next d)
  | exited {c d : Turn} (h : Turn.Twin a b c d) : Twin a b (.exited c) (.exited d)
  | crashed {c d : Turn} (h : Turn.Twin a b c d) : Twin a b (.crashed c) (.crashed d)

/-- Combining goes the same way in both turns, token by token. -/
theorem combine_twin (inp : LineInput) (a b : List Char) : ∀ (toks cur : List Token) {c d : Turn},
    Turn.Twin a b c d →
    Outcome.Twin a b (combine (inp.withCommand a) toks cur c) (combine (inp.withCommand b) toks cur d)
  | [], cur, c, d, h => by
    rw [combine, combine]
    by_cases hcur : cur = []
    · rw [if_pos hcur, if_pos hcur]
      exact .next h
    · rw [if_neg hcur, if_neg hcur]
      exact .next (h.push cur)
  | tok :: rest, cur, c, d, h => by
    rw [combine.eq_def (inp.withCommand a), combine.eq_def (inp.withCommand b)]
    dsimp only
    by_cases htake : tok.head? = some '<'
    · rw [if_pos htake, if_pos htake]
      cases strtok '<' tok with
      | none => exact .crashed h
      | some n => exact combine_twin inp a b rest cur (h.takeUserPipe inp (atoi n)).tick
    rw [if_neg htake, if_neg htake]
    by_cases hord : ordinary tok = true
    · rw [if_pos hord, if_pos hord]
      exact combine_twin inp a b rest (cur ++ [tok]) h.tick
    rw [if_neg hord, if_neg hord]
    by_cases hbar : tok = ['|']
    · rw [if_pos hbar, if_pos hbar]
      exact combine_twin inp a b rest [] (h.push cur).tick
    rw [if_neg hbar, if_neg hbar]
    by_cases hfile : tok = ['>']
    · rw [if_pos hfile, if_pos hfile]
      cases rest with
      | nil => exact .crashed h
      | cons name rest =>
        have hredirect := Turn.redirect_twin (h.push cur) inp name
        dsimp only
        generalize (c.push cur).redirect (inp.withCommand a) name = x at hredirect ⊢
        generalize (d.push cur).redirect (inp.withCommand b) name = y at hredirect ⊢
        cases hredirect with
        | none => exact .crashed h
        | some hn => exact combine_twin inp a b rest [] hn.tick
    rw [if_neg hfile, if_neg hfile]
    by_cases hbang : tok.head? = some '!'
    · rw [if_pos hbang, if_pos hbang]
      cases strtok '!' tok with
      | none => exact .crashed h
      | some n => exact combine_twin inp a b rest [] ((h.push cur).pipeOut true (atoi n)).tick
    rw [if_neg hbang, if_neg hbang]
    by_cases hnum : tok.head? = some '|'
    · rw [if_pos hnum, if_pos hnum]
      cases strtok '|' tok with
      | none => exact .crashed h
      | some n => exact combine_twin inp a b rest [] ((h.push cur).pipeOut false (atoi n)).tick
    rw [if_neg hnum, if_neg hnum]
    cases strtok '>' tok with
    | none => exact .crashed h
    | some n => exact combine_twin inp a b rest [] ((h.push cur).makeUserPipe inp (atoi n)).tick

/-! ### The process loop -/

namespace Turn

theorem Twin.environ (h : Twin a b c d) : d.environ = c.environ := by
  obtain ⟨es, rfl, -⟩ := h
  rfl

theorem Twin.sock (h : Twin a b c d) : d.sock = c.sock := by
  obtain ⟨es, rfl, -⟩ := h
  rfl

theorem Twin.flags (h : Twin a b c d) : d.namePipeOutFlag = c.namePipeOutFlag ∧ d.ignore = c.ignore ∧
    d.process = c.process := by
  obtain ⟨es, rfl, -⟩ := h
  exact ⟨rfl, rfl, rfl⟩

theorem forkLast_withEvents (c : Turn) (es : List Event) (pc : ℕ) (argv : List Token) (child : FdTable Desc) :
    (c.withEvents es).forkLast pc argv child = (c.forkLast pc argv child).withEvents es := by
  rw [Turn.forkLast, Turn.forkLast]
  split_ifs <;> rfl

theorem forkLast_events (c : Turn) (pc : ℕ) (argv : List Token) (child : FdTable Desc) :
    (c.forkLast pc argv child).events = c.events := by
  rw [Turn.forkLast]
  split_ifs <;> rfl

/-- The branches that announce nothing do not look at the events. -/
theorem Twin.forkRedirect (h : Twin a b c d) (inp : LineInput) (pc : ℕ) (argv : List Token) :
    Twin a b (c.forkRedirect (inp.withCommand a) pc argv) (d.forkRedirect (inp.withCommand b) pc argv) := by
  obtain ⟨es, rfl, hes⟩ := h
  have hfork := forkLast_withEvents c.beforeFork es pc argv (c.beforeFork.childFile inp inp.redir
    (cString c.vars.redirectionFileName) c.beforeFork.vars.kernel.fds)
  refine ⟨es, congrArg (fun c : Turn => c.withVars { c.vars with writeFileFlag := false }) hfork, ?_⟩
  exact (forkLast_events c.beforeFork pc argv _).symm ▸ hes

theorem Twin.forkNumberPipe (h : Twin a b c d) (inp : LineInput) (pc : ℕ) (argv : List Token) :
    Twin a b (c.forkNumberPipe (inp.withCommand a) pc argv) (d.forkNumberPipe (inp.withCommand b) pc argv) := by
  obtain ⟨es, rfl, hes⟩ := h
  have hfork := fun child => forkLast_withEvents c.beforeFork es pc argv child
  refine ⟨es, congrArg (fun c : Turn => c.withVars { c.vars with numPipeOutFlag := false }) (hfork _), ?_⟩
  exact (forkLast_events c.beforeFork pc argv _).symm ▸ hes

/-- What the branch for `>id` does behind its announcement. -/
def forkAnnounced (c : Turn) (inp : LineInput) (pc : ℕ) (argv : List Token) : Turn :=
  { c.forkLast pc argv (c.childFile inp inp.openOut (cString c.namePipeOutFile) c.vars.kernel.fds) with
    namePipeOutFlag := false }

theorem Twin.forkUserPipe (h : Twin a b c d) (inp : LineInput) (pc : ℕ) (argv : List Token) :
    Twin a b (c.forkUserPipe (inp.withCommand a) pc argv) (d.forkUserPipe (inp.withCommand b) pc argv) := by
  have hfork := Twin.map (f := fun c => c.beforeFork) h (fun _ => rfl) fun _ _ => rfl
  have hpiped : Event.Twin a b (.broadcast (pipedMsg (inp.seen c.now) c.u c.namePipeOutId a))
      (.broadcast (pipedMsg (inp.seen c.now) c.u c.namePipeOutId b)) :=
    .broadcast (.piped (inp.seen c.now c.u).name (inp.seen c.now c.u).id
      (inp.seen c.now (c.namePipeOutId - 1).toNat).name (inp.seen c.now (c.namePipeOutId - 1).toNat).id)
  have hsaid := (hfork.touch ([.user c.u, .user (c.namePipeOutId - 1)] ++ eachUser)).emit (.cons hpiped .nil)
  have hbehind := Twin.map (f := fun c => c.forkAnnounced inp pc argv) hsaid
    (fun c => forkLast_events c pc argv _)
    fun c es => congrArg (fun c : Turn => { c with namePipeOutFlag := false }) (forkLast_withEvents c es pc argv _)
  obtain ⟨es, rfl, -⟩ := h
  exact hbehind

theorem Twin.forkNormal (h : Twin a b c d) (inp : LineInput) (pc : ℕ) (last : Bool) (argv : List Token) :
    Twin a b (c.forkNormal (inp.withCommand a) pc last argv) (d.forkNormal (inp.withCommand b) pc last argv) := by
  obtain ⟨es, rfl, hes⟩ := h
  rw [Turn.forkNormal, Turn.forkNormal]
  by_cases hpc : pc ≠ 1
  · simp only [if_pos hpc]
    exact ⟨es, rfl, hes⟩
  · simp only [if_neg hpc]
    exact ⟨es, rfl, hes⟩

theorem Twin.fork (h : Twin a b c d) (inp : LineInput) (pc : ℕ) (last : Bool) (argv : List Token) :
    Twin a b (c.fork (inp.withCommand a) pc last argv) (d.fork (inp.withCommand b) pc last argv) := by
  rw [Turn.fork, Turn.fork, h.vars, h.flags.1]
  split_ifs
  · exact h.forkRedirect inp pc argv
  · exact h.forkNumberPipe inp pc argv
  · exact h.forkUserPipe inp pc argv
  · exact h.forkNormal inp pc last argv

theorem Twin.printenv (h : Twin a b c d) (args : List Token) : Twin a b (c.printenv args) (d.printenv args) := by
  cases args with
  | nil => exact h
  | cons name rest =>
    rw [Turn.printenv, Turn.printenv, h.environ, h.u]
    cases c.environ name with
    | none => exact h
    | some value => exact (h.touch _).emitOwn (by simp [Event.Own])

theorem Twin.setenvCommand (h : Twin a b c d) (args : List Token) :
    Twin a b (c.setenvCommand args) (d.setenvCommand args) := by
  obtain ⟨es, rfl, hes⟩ := h
  rcases args with _ | ⟨name, _ | ⟨value, rest⟩⟩ <;> exact ⟨es, rfl, hes⟩

theorem Twin.exitCommand (h : Twin a b c d) (inp : LineInput) :
    Twin a b (c.exitCommand (inp.withCommand a)) (d.exitCommand (inp.withCommand b)) := by
  rw [Turn.exitCommand, Turn.exitCommand, h.u, h.now]
  refine (h.touch _).emit (.cons (.broadcast (.left (inp.seen c.now c.u).name)) (Event.Twin.all fun e he => ?_))
  rcases List.mem_append.mp he with hrecord | hleave
  · obtain ⟨i, -, rfl⟩ := List.mem_map.mp hrecord
    trivial
  · obtain rfl := List.mem_singleton.mp hleave
    trivial

theorem Twin.who (h : Twin a b c d) (inp : LineInput) :
    Twin a b (c.who (inp.withCommand a)) (d.who (inp.withCommand b)) := by
  rw [Turn.who, Turn.who, h.now, h.sock]
  refine (h.touch _).emitOwn fun e he => ?_
  rcases List.mem_cons.mp he with rfl | hrow
  · trivial
  · obtain ⟨i, -, rfl⟩ := List.mem_map.mp hrow
    trivial

theorem Twin.tell (h : Twin a b c d) (inp : LineInput) (id : ℤ) (words : List Token) :
    Twin a b (c.tell (inp.withCommand a) id words) (d.tell (inp.withCommand b) id words) := by
  rw [Turn.tell, Turn.tell, h.now, h.u, withCommand_seen, withCommand_seen]
  split_ifs
  · exact (h.touch _).emit (.cons (.message (id - 1) (.told (inp.seen (c.now + 1) c.u).name
      (Server.messageText words))) .nil)
  · exact (h.touch _).emitOwn (by simp [Event.Own])

theorem Twin.yell (h : Twin a b c d) (inp : LineInput) (words : List Token) :
    Twin a b (c.yell (inp.withCommand a) words) (d.yell (inp.withCommand b) words) := by
  rw [Turn.yell, Turn.yell, h.now, h.u]
  exact (h.touch _).emit (.cons (.broadcast (.yelled (inp.seen c.now c.u).name (Server.messageText words))) .nil)

theorem Twin.rename (h : Twin a b c d) (inp : LineInput) (args : List Token) :
    Twin a b (c.rename (inp.withCommand a) args) (d.rename (inp.withCommand b) args) := by
  cases args with
  | nil =>
    rw [Turn.rename, Turn.rename, h.u]
    exact (h.touch _).emitOwn (by simp [Event.Own])
  | cons name rest =>
    rw [Turn.rename, Turn.rename, h.u, h.now, withCommand_seen, withCommand_seen]
    split_ifs
    · exact (h.touch _).emitOwn (by simp [Event.Own])
    · have hrename : Event.Twin a b (.rename name) (.rename name) := .own trivial
      exact (h.touch _).emit (.cons hrename (.cons (.broadcast (.named name)) .nil))

end Turn

theorem execRow_twin (h : Turn.Twin a b c d) (inp : LineInput) (pc : ℕ) (last : Bool) (argv : List Token) :
    Outcome.Twin a b (execRow (inp.withCommand a) pc last argv c) (execRow (inp.withCommand b) pc last argv d) := by
  rcases argv with _ | ⟨cmd, args⟩
  · exact .crashed h
  rw [execRow.eq_def, execRow.eq_def]
  dsimp only
  rw [h.environ]
  split_ifs
  · exact .next (h.printenv args).tick
  · exact .crashed h
  · exact .next (h.setenvCommand args).tick
  · exact .exited (h.exitCommand inp)
  -- both look at the same `batch`
  · exact .next h.tick
  · rename_i hbatch hbatch'
    exact absurd hbatch hbatch'
  · rename_i hbatch hbatch'
    exact absurd hbatch' hbatch
  · exact .crashed h
  · exact .next (h.who inp).tick
  · cases args with
    | nil => exact .crashed h
    | cons id words => exact .next (h.tell inp (atoi id) words).tick
  · exact .next (h.yell inp args).tick
  · exact .next (h.rename inp args).tick
  · exact .next (h.fork inp pc last (cmd :: args)).tick

theorem execRows_twin (inp : LineInput) (pc : ℕ) (rows : List (List Token)) (h : Turn.Twin a b c d) :
    Outcome.Twin a b (execRows (inp.withCommand a) pc rows c) (execRows (inp.withCommand b) pc rows d) := by
  induction rows generalizing c d with
  | nil => exact .next h
  | cons argv rest ih =>
    rw [execRows, execRows]
    have hrow := execRow_twin h inp pc rest.isEmpty argv
    generalize execRow (inp.withCommand a) pc rest.isEmpty argv c = x at hrow ⊢
    generalize execRow (inp.withCommand b) pc rest.isEmpty argv d = y at hrow ⊢
    cases hrow with
    | next hn => exact ih hn
    | exited hn => exact .exited hn
    | crashed hn => exact .crashed hn

theorem parse_twin (s : Npshell) (u : ℕ) (inp : LineInput) (a b : List Char) :
    Outcome.Twin a b (s.parse u (inp.withCommand a)) (s.parse u (inp.withCommand b)) := by
  have hstart : Turn.Twin a b (s.startTurn u inp) (s.startTurn u inp) := ⟨[], rfl, .nil⟩
  have hcount : Turn.Twin a b (s.startTurn u inp).countdown (s.startTurn u inp).countdown := ⟨[], rfl, .nil⟩
  rw [Npshell.parse, Npshell.parse, withCommand_line, withCommand_line]
  cases tokens ' ' inp.line with
  | nil => exact .crashed hstart
  | cons tok rest =>
    dsimp only
    split_ifs
    · exact .next (hcount.push _)
    · exact combine_twin inp a b _ _ hcount

/-- Two turns that differ in `command` end alike, with the same texts among their events. -/
theorem line_twin (s : Npshell) (u : ℕ) (inp : LineInput) (a b : List Char) :
    Outcome.Twin a b (s.line u (inp.withCommand a)) (s.line u (inp.withCommand b)) := by
  rw [Npshell.line, Npshell.line]
  change Outcome.Twin a b (if inp.line = [] then _ else _) (if inp.line = [] then _ else _)
  split_ifs
  · exact .next ⟨[], rfl, .nil⟩
  · have hparse := parse_twin s u inp a b
    generalize s.parse u (inp.withCommand a) = x at hparse ⊢
    generalize s.parse u (inp.withCommand b) = y at hparse ⊢
    cases hparse with
    | next h =>
      dsimp only
      rw [h.flags.2.1, h.flags.2.2]
      split_ifs
      · exact .next h
      · exact execRows_twin inp _ _ h
    | exited h => exact .exited h
    | crashed h => exact .crashed h

end NetProg.Multi
