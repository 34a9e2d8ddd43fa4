import NetProg.Server.Identity

/-! Whose environment a user sees.

    The server has one environment for all its users. Of a user only the string `env` is kept, which
    every `setenv` writes whatever variable it names, and from which `PATH` is set when a line of the
    user comes. So the users are kept apart as long as `PATH` is the only variable they set. -/

namespace NetProg.Server

/-- The name of the variable in which programs are looked up. -/
def pathVar : Token := ['P', 'A', 'T', 'H']

/-- A row of `process` being executed: the connection the line came from, the row, and the
    environment it finds. -/
structure Sight where
  conn : ℕ
  argv : List Token
  environ : Environ

/-- What a row shows of the environment: `printenv` prints a variable, and a program is looked up
    in `PATH`. -/
def observe : List Token → Environ → Option Token
  | [], _ => none
  | cmd :: args, environ =>
    if cmd = Shell.printenvCmd then args.head?.bind environ
    else if cmd ∈ builtinCmds then none
    else environ pathVar

/-- The rows the process loop executes, each with the environment it finds. -/
def rowSights (inp : LineInput) (processCount : ℕ) :
    List (List Token) → Call → List (List Token × Environ)
  | [], _ => []
  | argv :: rest, c =>
    (argv, c.server.environ) :: match execRow inp processCount rest.isEmpty argv c with
      | .next c => rowSights inp processCount rest c
      | _ => []

/-- The rows one line executes. -/
def lineSights (s : Server) (u : ℕ) (inp : LineInput) : List (List Token × Environ) :=
  if inp.line = [] then []
  else match parse (s.setPath u) u inp with
    | .ok c => rowSights inp c.process.length c.process c.resolve
    | _ => []

/-- The connection behind a descriptor. -/
def connection (s : Server) (fd : ℕ) : Option ℕ :=
  match s.kernel.get fd with
  | some (.sock c) => some c
  | _ => none

/-- The rows one turn of the `select` loop executes. -/
def sights (s : Server) : Input → List Sight
  | .line fd inp =>
    match s.findFdUser fd, s.connection fd with
    | some u, some c => (lineSights (s.dupStd fd fd fd) u inp).map fun r => ⟨c, r.1, r.2⟩
    | _, _ => []
  | _ => []

/-- The rows a run executes. -/
def history : Server → List Input → List Sight
  | _, [] => []
  | s, i :: is =>
    match s.step i with
    | some r => s.sights i ++ history r.1 is
    | none => []

/-- What a row of its own should do to the environment of a user. -/
def setByRow (environ : Environ) : List Token → Environ
  | cmd :: name :: value :: _ => if cmd = Shell.setenvCmd then setenv environ name value else environ
  | _ => environ

/-- The environment of one client after some rows: the one of the server with `PATH=bin:.`, and what
    the `setenv` commands of the client have made of it. -/
def ownEnviron (environ : Environ) (conn : ℕ) (past : List Sight) : Environ :=
  ((past.filter fun x => x.conn == conn).map Sight.argv).foldl setByRow
    (setenv environ pathVar "bin:.".toList)

/-- Every client sees what its own commands have made of the environment. -/
def Isolated (environ : Environ) (h : List Sight) : Prop :=
  ∀ past x rest, h = past ++ x :: rest →
    observe x.argv x.environ = observe x.argv (ownEnviron environ x.conn past)

/-- `setenv` sets `PATH` or nothing. -/
def SetsPath : List Token → Prop
  | cmd :: name :: _ :: _ => cmd = Shell.setenvCmd → name = pathVar
  | _ => True

instance : ∀ argv : List Token, Decidable (SetsPath argv)
  | [] => inferInstanceAs (Decidable True)
  | [_] => inferInstanceAs (Decidable True)
  | [_, _] => inferInstanceAs (Decidable True)
  | cmd :: name :: _ :: _ => inferInstanceAs (Decidable (cmd = Shell.setenvCmd → name = pathVar))

/-- A line is taken for one of the user its connection was given to. -/
def Heard (conn : ℕ → ℕ) (s : Server) : Input → Prop
  | .line fd _ => ∀ u ∈ s.findFdUser fd, s.kernel.get fd = some (.sock (conn u))
  | _ => True

instance (conn : ℕ → ℕ) (s : Server) : ∀ i : Input, Decidable (Heard conn s i)
  | .line fd _ =>
    inferInstanceAs (Decidable (∀ u ∈ s.findFdUser fd, s.kernel.get fd = some (.sock (conn u))))
  | .accept _ _ _ => inferInstanceAs (Decidable True)
  | .eof _ => inferInstanceAs (Decidable True)

/-- A run in which every line is heard. -/
def HeardRun : Server → (ℕ → ℕ) → List Input → Prop
  | _, _, [] => True
  | s, conn, i :: is => Heard conn s i ∧ ∀ r ∈ s.step i, HeardRun r.1 (s.login conn i) is

instance decidableHeardRun : ∀ (is : List Input) (s : Server) (conn : ℕ → ℕ),
    Decidable (HeardRun s conn is)
  | [], _, _ => inferInstanceAs (Decidable True)
  | i :: is, s, conn =>
    have := fun r : Server × List Spawn × Option PipeError =>
      decidableHeardRun is r.1 (s.login conn i)
    inferInstanceAs (Decidable (Heard conn s i ∧ ∀ r ∈ s.step i, HeardRun r.1 (s.login conn i) is))

/-- The lines of a careful run are heard: `find_fd_user` is right there. -/
theorem CarefulRun.heard : ∀ {is : List Input} {conn : ℕ → ℕ} {s : Server}, Sound conn s →
    CarefulRun s is → HeardRun s conn is
  | [], _, _, _, _ => trivial
  | i :: is, conn, s, h, ⟨hc, hrest⟩ => by
    refine ⟨?_, fun r hr => (hrest r hr).heard (sound_step h hc hr)⟩
    cases i with
    | accept addr port junk => trivial
    | eof fd => trivial
    | line fd inp =>
      intro u hf
      obtain ⟨hu, hv, rfl⟩ := findFdUser_some hf
      exact h.sock u hu hv

/-! ### What one row does -/

/-- `printenv` prints the variable it is asked for, if there is one. -/
theorem printenv_observe (s : Server) (u : ℕ) (args : List Token) :
    printenv s u args = match observe (Shell.printenvCmd :: args) s.environ with
      | some value => s.print [.write (s.user u).sock (value ++ ['\n'])]
      | none => s := by
  cases args with
  | nil => rfl
  | cons name rest =>
    simp only [printenv, observe, if_true, List.head?_cons, Option.bind_some]
    cases s.environ name <;> rfl

theorem setByRow_of_ne {environ : Environ} {cmd : Token} (h : cmd ≠ Shell.setenvCmd)
    (args : List Token) : setByRow environ (cmd :: args) = environ := by
  rcases args with - | ⟨name, - | ⟨value, rest⟩⟩
  · rfl
  · rfl
  · exact if_neg h

/-- The environment and the strings `env`, after a row `argv` of user `u`. -/
structure EnvStep (argv : List Token) (u : ℕ) (s t : Server) : Prop where
  environ : t.environ = setByRow s.environ argv
  path : SetsPath argv → s.environ pathVar = some (s.user u).env →
    t.environ pathVar = some (t.user u).env
  others : ∀ i, i ≠ u → (t.user i).env = (s.user i).env

/-- A row other than `setenv` keeps them. -/
theorem EnvStep.of_same {cmd : Token} {args : List Token} {u : ℕ} {s t : Server}
    (h : cmd ≠ Shell.setenvCmd) (henviron : t.environ = s.environ)
    (henv : ∀ i, (t.user i).env = (s.user i).env) : EnvStep (cmd :: args) u s t where
  environ := by rw [setByRow_of_ne h, henviron]
  path := fun _ hp => by rw [henviron, henv, hp]
  others := fun i _ => henv i

theorem EnvStep.print {cmd : Token} {args : List Token} {u : ℕ} {s : Server}
    (h : cmd ≠ Shell.setenvCmd) (entries : List LogEntry) :
    EnvStep (cmd :: args) u s (s.print entries) :=
  .of_same h rfl fun _ => rfl

theorem EnvStep.refl {cmd : Token} {args : List Token} {u : ℕ} {s : Server}
    (h : cmd ≠ Shell.setenvCmd) : EnvStep (cmd :: args) u s s :=
  .of_same h rfl fun _ => rfl

theorem EnvStep.modifyUser {cmd : Token} {args : List Token} {u : ℕ} {s : Server}
    (h : cmd ≠ Shell.setenvCmd) {f : User → User} (hf : ∀ w, (f w).env = w.env) :
    EnvStep (cmd :: args) u s (s.modifyUser u f) := by
  refine .of_same h rfl fun i => ?_
  rw [user_modifyUser]
  split_ifs with hi
  · rw [hf, hi]
  · rfl

theorem EnvStep.setenv (s : Server) (u : ℕ) (args : List Token) :
    EnvStep (Shell.setenvCmd :: args) u s (setenvUser s u args) := by
  rcases args with - | ⟨name, - | ⟨value, rest⟩⟩
  · exact ⟨rfl, fun _ hp => hp, fun _ _ => rfl⟩
  · exact ⟨rfl, fun _ hp => hp, fun _ _ => rfl⟩
  · refine ⟨by simp [setenvUser, setByRow], fun hpath _ => ?_, fun i hi => ?_⟩
    · obtain rfl := hpath rfl
      have hname : ¬ (pathVar = [] ∨ '=' ∈ pathVar) := by decide
      simp [setenvUser, NetProg.setenv, hname]
    · simp [setenvUser, hi]

theorem EnvStep.printenv (s : Server) (u : ℕ) (args : List Token) :
    EnvStep (Shell.printenvCmd :: args) u s (printenv s u args) := by
  have hne : Shell.printenvCmd ≠ Shell.setenvCmd := by decide
  rw [printenv_observe]
  cases observe (Shell.printenvCmd :: args) s.environ with
  | none => exact .refl hne
  | some value => exact .print hne _

theorem EnvStep.rename {cmd : Token} (h : cmd ≠ Shell.setenvCmd) (s : Server) (u : ℕ)
    (args : List Token) : EnvStep (cmd :: args) u s (rename s u args) := by
  cases args with
  | nil => exact .modifyUser h (f := fun w => { w with name := "(no name)".toList }) fun _ => rfl
  | cons name rest =>
    unfold Server.rename
    dsimp only
    split_ifs
    · exact .print h _
    · have hmod : EnvStep (cmd :: name :: rest) u s (s.modifyUser u fun w => { w with name := name }) :=
        .modifyUser h fun _ => rfl
      exact ⟨hmod.environ, hmod.path, hmod.others⟩

theorem EnvStep.exit (s : Server) (u : ℕ) (args : List Token) :
    EnvStep (Shell.exitCmd :: args) u s (exitUser s u) := by
  refine .of_same (by decide) rfl fun i => ?_
  rw [exitUser_user]
  split_ifs with hi
  · rw [hi]
  · rfl

theorem EnvStep.tell {cmd : Token} (h : cmd ≠ Shell.setenvCmd) (s : Server) (u : ℕ) (id : Token)
    (words : List Token) : EnvStep (cmd :: id :: words) u s (tell s u id words) := by
  unfold Server.tell
  dsimp only
  split_ifs
  · exact .print h _
  · exact .print h _

theorem EnvStep.fork {cmd : Token} (h : cmd ≠ Shell.setenvCmd) (c : Call) (inp : LineInput) (pc : ℕ)
    (last : Bool) (args : List Token) :
    EnvStep (cmd :: args) c.u c.server (c.fork inp pc last (cmd :: args)).server := by
  unfold Call.fork
  dsimp only
  split
  · exact .print h _
  · exact .refl h

/-- Where one row leads to, if it leads anywhere. -/
def Row.call : Row → Option Call
  | next c => some c
  | exited c => some c
  | crashed => none

theorem execRow_env {inp : LineInput} {pc : ℕ} {last : Bool} {argv : List Token} {c c' : Call}
    (h : (execRow inp pc last argv c).call = some c') :
    c'.u = c.u ∧ EnvStep argv c.u c.server c'.server := by
  rw [execRow.eq_def] at h
  cases argv with
  | nil => cases h
  | cons cmd args =>
    dsimp only at h
    split_ifs at h with h1 hfits h2 hfits h3 h4 h5 h6 h7 h8 h9 hfits
    · cases h
      subst h1
      exact ⟨rfl, .printenv c.server c.u args⟩
    · cases h
    · cases h
      subst h2
      exact ⟨rfl, .setenv c.server c.u args⟩
    · cases h
    · cases h
      subst h3
      exact ⟨rfl, .exit c.server c.u args⟩
    · cases h
      exact ⟨rfl, .refl h2⟩
    · cases h
    · cases h
      exact ⟨rfl, .print h2 _⟩
    · cases args with
      | nil => cases h
      | cons id words =>
        cases h
        exact ⟨rfl, .tell h2 c.server c.u id words⟩
    · cases h
      exact ⟨rfl, .print h2 _⟩
    · cases h
      exact ⟨rfl, .rename h2 c.server c.u args⟩
    · cases h
    · cases h
      exact ⟨rfl, .fork h2 c inp pc last args⟩

/-! ### What one line does -/

theorem parse_env (s : Server) (u : ℕ) (inp : LineInput) : (parse s u inp).All fun c =>
    c.u = u ∧ c.server.environ = s.environ ∧ ∀ i, (c.server.user i).env = (s.user i).env := by
  have hkept : KeptByTokens inp fun c =>
      c.u = u ∧ c.server.environ = s.environ ∧ ∀ i, (c.server.user i).env = (s.user i).env := by
    refine ⟨fun _ _ h => h, fun c c' id h htake => ?_, fun c c' id h hmake => ?_, fun _ _ _ h => h,
      fun _ _ _ h _ => h, fun _ _ h => h⟩
    · obtain ⟨-, -, rfl⟩ := takeUserPipe_ok.mp htake
      exact h
    · obtain ⟨-, -, rfl⟩ := makeUserPipe_ok.mp hmake
      refine ⟨h.1, h.2.1, fun i => ?_⟩
      rw [user_made]
      split_ifs with hi
      · rw [hi]
        exact h.2.2 _
      · exact h.2.2 i
  exact hkept.parse ⟨rfl, rfl, fun _ => rfl⟩

/-- Each row finds the environment that the rows before it have made. -/
def Follows (environ : Environ) (rows : List (List Token × Environ)) : Prop :=
  ∀ past x rest, rows = past ++ x :: rest → x.2 = (past.map Prod.fst).foldl setByRow environ

theorem follows_nil (environ : Environ) : Follows environ [] := by
  intro past x rest h
  simp at h

theorem Follows.cons {environ : Environ} {argv : List Token} {rows : List (List Token × Environ)}
    (h : Follows (setByRow environ argv) rows) : Follows environ ((argv, environ) :: rows) := by
  rintro (- | ⟨y, past⟩) x rest hsplit
  · simp only [List.nil_append, List.cons.injEq] at hsplit
    rw [← hsplit.1]
    rfl
  · simp only [List.cons_append, List.cons.injEq] at hsplit
    obtain ⟨rfl, hsplit⟩ := hsplit
    exact h past x rest hsplit

/-- What some rows of user `u` leave: the environment they have made, `PATH` in it being the string
    `env` of the user. -/
structure EnvAfter (rows : List (List Token)) (u : ℕ) (s t : Server) : Prop where
  environ : t.environ = rows.foldl setByRow s.environ
  path : (∀ argv ∈ rows, SetsPath argv) → s.environ pathVar = some (s.user u).env →
    t.environ pathVar = some (t.user u).env
  others : ∀ i, i ≠ u → (t.user i).env = (s.user i).env

theorem EnvAfter.nil (u : ℕ) (s : Server) : EnvAfter [] u s s :=
  ⟨rfl, fun _ hp => hp, fun _ _ => rfl⟩

theorem EnvAfter.cons {argv : List Token} {rows : List (List Token)} {u : ℕ} {s t w : Server}
    (h : EnvStep argv u s t) (hr : EnvAfter rows u t w) : EnvAfter (argv :: rows) u s w where
  environ := by rw [hr.environ, h.environ, List.foldl_cons]
  path := fun hset hp => hr.path (fun a ha => hset a (List.mem_cons_of_mem _ ha))
    (h.path (hset argv List.mem_cons_self) hp)
  others := fun i hi => (hr.others i hi).trans (h.others i hi)

theorem execRows_env {inp : LineInput} {pc : ℕ} : ∀ {rows : List (List Token)} {c c' : Call},
    (execRows inp pc rows c).call = some c' →
    c'.u = c.u ∧ Follows c.server.environ (rowSights inp pc rows c) ∧
      EnvAfter ((rowSights inp pc rows c).map Prod.fst) c.u c.server c'.server
  | [], c, c', h => by
    cases h
    exact ⟨rfl, follows_nil _, .nil _ _⟩
  | argv :: rest, c, c', h => by
    rw [execRows] at h
    cases hrow : execRow inp pc rest.isEmpty argv c with
    | crashed =>
      rw [hrow] at h
      cases h
    | exited c₁ =>
      rw [hrow] at h
      obtain rfl : c₁ = c' := Option.some.inj h
      have hcall : (execRow inp pc rest.isEmpty argv c).call = some c₁ := by rw [hrow]; rfl
      obtain ⟨hu, hstep⟩ := execRow_env hcall
      simp only [rowSights, hrow]
      exact ⟨hu, (follows_nil _).cons, (EnvAfter.nil _ _).cons hstep⟩
    | next c₁ =>
      rw [hrow] at h
      have hcall : (execRow inp pc rest.isEmpty argv c).call = some c₁ := by rw [hrow]; rfl
      obtain ⟨hu, hstep⟩ := execRow_env hcall
      obtain ⟨hu', hfollows, hafter⟩ := execRows_env h
      rw [hstep.environ] at hfollows
      rw [hu] at hafter hu'
      simp only [rowSights, hrow]
      exact ⟨hu', hfollows.cons, hafter.cons hstep⟩

/-- A line of user `u` begins with `PATH` set to the string `env` of the user. -/
theorem npshell_env {s : Server} {u : ℕ} {inp : LineInput} {r : Return}
    (h : npshell s u inp = some r) :
    Follows (s.setPath u).environ (lineSights s u inp) ∧
      EnvAfter ((lineSights s u inp).map Prod.fst) u (s.setPath u) r.server := by
  have hparse := parse_env (s.setPath u) u inp
  have hleave : ∀ c : Call, ∀ i, (c.leave.user i).env = (c.server.user i).env := by
    intro c i
    rw [leave_user]
    split_ifs <;> rfl
  -- rows executed from what the tokens have left
  have hrun : ∀ c c' : Call, parse (s.setPath u) u inp = .ok c →
      (execRows inp c.process.length c.process c.resolve).call = some c' →
      Follows (s.setPath u).environ (rowSights inp c.process.length c.process c.resolve) ∧
        EnvAfter ((rowSights inp c.process.length c.process c.resolve).map Prod.fst) u (s.setPath u)
          c'.leave := by
    intro c c' hp hrows
    rw [hp] at hparse
    obtain ⟨hu, henviron, henv⟩ := hparse
    obtain ⟨-, hfollows, hafter⟩ := execRows_env hrows
    have hcu : c.resolve.u = u := hu
    have hce : c.resolve.server.environ = (s.setPath u).environ := henviron
    rw [hcu] at hafter
    rw [hce] at hfollows
    refine ⟨hfollows, ?_, fun hset hpath => ?_, fun i hi => ?_⟩
    · rw [← hce]
      exact hafter.environ
    · rw [hleave]
      refine hafter.path hset ?_
      rw [hce, hpath]
      exact congrArg some (henv u).symm
    · rw [hleave, hafter.others i hi]
      exact henv i
  cases npshell_outcome h with
  | blank hb =>
    rw [lineSights, if_pos hb]
    exact ⟨follows_nil _, .nil _ _⟩
  | @rejected c e hb hp =>
    rw [lineSights, if_neg hb, hp]
    rw [hp] at hparse
    obtain ⟨-, henviron, henv⟩ := hparse
    refine ⟨follows_nil _, henviron, fun _ hpath => ?_, fun i _ => (hleave c i).trans (henv i)⟩
    rw [hleave, henv]
    exact (congrFun henviron pathVar).trans hpath
  | @ended c c' hb hp hrows =>
    rw [lineSights, if_neg hb, hp]
    exact hrun c c' hp (by rw [hrows]; rfl)
  | @exited c c' hb hp hrows =>
    rw [lineSights, if_neg hb, hp]
    exact hrun c c' hp (by rw [hrows]; rfl)

/-! ### Runs -/

/-- Between two inputs: `past` is what has been executed so far, and `conn` the connection each slot
    was last given. -/
structure Apart (environ : Environ) (conn : ℕ → ℕ) (past : List Sight) (s : Server) : Prop where
  base : ∀ name, name ≠ pathVar → s.environ name = environ name
  path : ∀ i < qlen, (s.user i).valid = true →
    ownEnviron environ (conn i) past pathVar = some (s.user i).env
  older : ∀ i < qlen, (s.user i).valid = true → conn i < s.accepted
  inj : ∀ i < qlen, ∀ j < qlen, (s.user i).valid = true → (s.user j).valid = true →
    conn i = conn j → i = j
  past_lt : ∀ x ∈ past, x.conn < s.accepted
  sets : ∀ x ∈ past, SetsPath x.argv
  recorded : Recorded s

theorem setByRow_of_setsPath {environ : Environ} {argv : List Token} (h : SetsPath argv) {name : Token}
    (hne : name ≠ pathVar) : setByRow environ argv name = environ name := by
  rcases argv with - | ⟨cmd, - | ⟨var, - | ⟨value, rest⟩⟩⟩
  · rfl
  · rfl
  · rfl
  · simp only [setByRow]
    split_ifs with hcmd
    · obtain rfl := h hcmd
      have hname : ¬ (pathVar = [] ∨ '=' ∈ pathVar) := by decide
      simp [NetProg.setenv, hname, hne]
    · rfl

theorem foldl_setByRow_of_setsPath {name : Token} (hne : name ≠ pathVar) :
    ∀ (rows : List (List Token)) (environ : Environ), (∀ argv ∈ rows, SetsPath argv) →
      rows.foldl setByRow environ name = environ name
  | [], _, _ => rfl
  | argv :: rows, environ, h => by
    rw [List.foldl_cons, foldl_setByRow_of_setsPath hne rows _
      fun a ha => h a (List.mem_cons_of_mem _ ha)]
    exact setByRow_of_setsPath (h argv List.mem_cons_self) hne

theorem setenv_path_of_ne (environ : Environ) (value : Token) {name : Token} (hne : name ≠ pathVar) :
    setenv environ pathVar value name = environ name := by
  have hname : ¬ (pathVar = [] ∨ '=' ∈ pathVar) := by decide
  simp [NetProg.setenv, hname, hne]

theorem setenv_path (environ : Environ) (value : Token) :
    setenv environ pathVar value pathVar = some value := by
  have hname : ¬ (pathVar = [] ∨ '=' ∈ pathVar) := by decide
  simp [NetProg.setenv, hname]

/-- What a client has executed before `more` rows of connection `c`. -/
theorem ownEnviron_append (environ : Environ) (conn c : ℕ) (past : List Sight)
    (rows : List (List Token × Environ)) :
    ownEnviron environ conn (past ++ rows.map fun r => ⟨c, r.1, r.2⟩) =
      if c = conn then (rows.map Prod.fst).foldl setByRow (ownEnviron environ conn past)
      else ownEnviron environ conn past := by
  have hmap : (rows.map fun r => (⟨c, r.1, r.2⟩ : Sight)).map Sight.argv = rows.map Prod.fst := by
    rw [List.map_map]
    rfl
  split_ifs with hc
  · have hall : ((rows.map fun r => (⟨c, r.1, r.2⟩ : Sight)).filter fun x => x.conn == conn) =
        rows.map fun r => ⟨c, r.1, r.2⟩ := by
      refine List.filter_eq_self.mpr fun x hx => ?_
      obtain ⟨r, -, rfl⟩ := List.mem_map.mp hx
      simpa using hc
    rw [ownEnviron, List.filter_append, hall, List.map_append, hmap, List.foldl_append]
    rfl
  · have hnone : ((rows.map fun r => (⟨c, r.1, r.2⟩ : Sight)).filter fun x => x.conn == conn) = [] := by
      refine List.filter_eq_nil_iff.mpr fun x hx => ?_
      obtain ⟨r, -, rfl⟩ := List.mem_map.mp hx
      simpa using hc
    rw [ownEnviron, List.filter_append, hnone, List.append_nil]
    rfl

/-- A client that has not executed anything has `PATH=bin:.`. -/
theorem ownEnviron_new {environ : Environ} {conn : ℕ} {past : List Sight}
    (h : ∀ x ∈ past, x.conn < conn) :
    ownEnviron environ conn past = setenv environ pathVar "bin:.".toList := by
  have hnone : (past.filter fun x => x.conn == conn) = [] := by
    refine List.filter_eq_nil_iff.mpr fun x hx => ?_
    have := h x hx
    simp only [beq_iff_eq]
    omega
  rw [ownEnviron, hnone]
  rfl

/-- The environment a line of a user begins with is the user's own. -/
theorem Apart.start {environ : Environ} {conn : ℕ → ℕ} {past : List Sight} {s : Server} {u : ℕ}
    (h : Apart environ conn past s) (hu : u < qlen) (hv : (s.user u).valid = true) :
    (s.setPath u).environ = ownEnviron environ (conn u) past := by
  funext name
  show setenv s.environ pathVar (s.user u).env name = _
  by_cases hname : name = pathVar
  · rw [hname, setenv_path, h.path u hu hv]
  · rw [setenv_path_of_ne _ _ hname, h.base name hname]
    refine Eq.symm ((foldl_setByRow_of_setsPath hname _ _ ?_).trans (setenv_path_of_ne _ _ hname))
    intro argv ha
    obtain ⟨x, hx, rfl⟩ := List.mem_map.mp ha
    exact h.sets x (List.mem_of_mem_filter hx)

/-- After a line of user `u` with the rows `rows`. -/
theorem Apart.line {environ : Environ} {conn : ℕ → ℕ} {past : List Sight} {s t : Server} {u : ℕ}
    {rows : List (List Token × Environ)} (h : Apart environ conn past s) (hu : u < qlen)
    (hv : (s.user u).valid = true) (hset : ∀ r ∈ rows, SetsPath r.1)
    (hrows : EnvAfter (rows.map Prod.fst) u (s.setPath u) t)
    (hvold : ∀ i, (t.user i).valid = true → (s.user i).valid = true)
    (hacc : t.accepted = s.accepted) (hrec : Recorded t) :
    Apart environ conn (past ++ rows.map fun r => ⟨conn u, r.1, r.2⟩) t := by
  have hsets : ∀ argv ∈ rows.map Prod.fst, SetsPath argv := by
    intro argv ha
    obtain ⟨r, hr, rfl⟩ := List.mem_map.mp ha
    exact hset r hr
  refine ⟨?_, ?_, ?_, ?_, ?_, ?_, hrec⟩
  · intro name hname
    rw [hrows.environ, foldl_setByRow_of_setsPath hname _ _ hsets]
    exact (setenv_path_of_ne _ _ hname).trans (h.base name hname)
  · intro i hi hvi
    rw [ownEnviron_append]
    split_ifs with hconn
    · obtain rfl := h.inj u hu i hi hv (hvold i hvi) hconn
      rw [← h.start hu hv, ← hrows.environ]
      exact hrows.path hsets (setenv_path s.environ _)
    · have hiu : i ≠ u := fun heq => hconn (by rw [heq])
      rw [hrows.others i hiu]
      exact h.path i hi (hvold i hvi)
  · intro i hi hvi
    rw [hacc]
    exact h.older i hi (hvold i hvi)
  · intro i hi j hj hvi hvj
    exact h.inj i hi j hj (hvold i hvi) (hvold j hvj)
  · intro x hx
    rw [hacc]
    rcases List.mem_append.mp hx with hx | hx
    · exact h.past_lt x hx
    · obtain ⟨r, -, rfl⟩ := List.mem_map.mp hx
      exact h.older u hu hv
  · intro x hx
    rcases List.mem_append.mp hx with hx | hx
    · exact h.sets x hx
    · obtain ⟨r, hr, rfl⟩ := List.mem_map.mp hx
      exact hset r hr

theorem Apart.accept {environ : Environ} {conn : ℕ → ℕ} {past : List Sight} {s s' : Server}
    {addr : List Char} {port junk : ℕ} (h : Apart environ conn past s)
    (hs : s.acceptClient addr port junk = some s') (henviron : s'.environ = s.environ) :
    Apart environ (Function.update conn (s.spaceInd junk) s.accepted) past s' := by
  obtain ⟨hi, -, -, -, hacc, huser⟩ := acceptClient_some hs
  generalize s.spaceInd junk = i at hi huser ⊢
  have hold : ∀ j, j ≠ i → s'.user j = s.user j := fun j hj => by rw [huser, if_neg hj]
  refine ⟨fun name hname => by rw [henviron, h.base name hname], ?_, ?_, ?_, ?_, h.sets,
    recorded_accept h.recorded hs⟩
  · intro j hj hv
    by_cases hji : j = i
    · subst hji
      rw [Function.update_self, ownEnviron_new h.past_lt, setenv_path, huser, if_pos rfl]
    · rw [hold j hji] at hv ⊢
      rw [Function.update_of_ne hji]
      exact h.path j hj hv
  · intro j hj hv
    rw [hacc]
    by_cases hji : j = i
    · rw [hji, Function.update_self]
      exact Nat.lt_succ_self _
    · rw [hold j hji] at hv
      rw [Function.update_of_ne hji]
      exact Nat.lt_succ_of_lt (h.older j hj hv)
  · intro j hj k hk hvj hvk heq
    by_cases hji : j = i <;> by_cases hki : k = i
    · rw [hji, hki]
    · rw [hold k hki] at hvk
      rw [hji, Function.update_self, Function.update_of_ne hki] at heq
      have := h.older k hk hvk
      omega
    · rw [hold j hji] at hvj
      rw [hki, Function.update_self, Function.update_of_ne hji] at heq
      have := h.older j hj hvj
      omega
    · rw [hold j hji] at hvj
      rw [hold k hki] at hvk
      rw [Function.update_of_ne hji, Function.update_of_ne hki] at heq
      exact h.inj j hj k hk hvj hvk heq
  · intro x hx
    rw [hacc]
    exact Nat.lt_succ_of_lt (h.past_lt x hx)

/-- Only `PATH` and the descriptors change. -/
theorem Apart.frame {environ : Environ} {conn : ℕ → ℕ} {past : List Sight} {s t : Server}
    (h : Apart environ conn past s) (hbase : ∀ name, name ≠ pathVar → t.environ name = s.environ name)
    (huser : t.user = s.user) (hacc : t.accepted = s.accepted)
    (hrec : t.namePipeRecord = s.namePipeRecord) : Apart environ conn past t := by
  refine ⟨fun name hname => (hbase name hname).trans (h.base name hname), ?_, ?_, ?_, ?_, h.sets, ?_⟩
  · rw [huser]
    exact h.path
  · rw [huser, hacc]
    exact h.older
  · rw [huser]
    exact h.inj
  · rw [hacc]
    exact h.past_lt
  · intro a r har
    rw [hrec] at har
    rw [huser]
    exact h.recorded a r har

theorem apart_step {environ : Environ} {conn : ℕ → ℕ} {past : List Sight} {s : Server} {i : Input}
    {r : Server × List Spawn × Option PipeError} (h : Apart environ conn past s)
    (hheard : Heard conn s i) (hs : s.step i = some r) (hset : ∀ x ∈ s.sights i, SetsPath x.argv) :
    Apart environ (s.login conn i) (past ++ s.sights i) r.1 ∧
      ∀ new x rest, s.sights i = new ++ x :: rest →
        x.environ = ownEnviron environ x.conn (past ++ new) := by
  cases i with
  | accept addr port junk =>
    simp only [step, Option.map_eq_some_iff] at hs
    obtain ⟨s', hs', rfl⟩ := hs
    refine ⟨?_, fun new x rest hsplit => by simp [sights] at hsplit⟩
    show Apart environ _ (past ++ []) s'
    rw [List.append_nil]
    refine h.accept hs' ?_
    unfold acceptClient at hs'
    dsimp only at hs'
    split_ifs at hs'
    cases hs'
    rfl
  | eof fd =>
    refine ⟨?_, fun new x rest hsplit => by simp [sights] at hsplit⟩
    show Apart environ conn (past ++ []) r.1
    rw [List.append_nil]
    simp only [step] at hs
    split_ifs at hs
    cases hf : s.findFdUser fd with
    | none => simp [hf] at hs
    | some u =>
      simp only [hf, npshell, if_true, Option.some.injEq] at hs
      subst hs
      exact h.frame (fun name hname => setenv_path_of_ne _ _ hname) (finish_user ..) rfl
        (finish_record ..)
  | line fd inp =>
    simp only [step] at hs
    split_ifs at hs
    cases hf : s.findFdUser fd with
    | none => simp [hf] at hs
    | some u =>
      simp only [hf] at hs
      obtain ⟨hu, hv, -⟩ := findFdUser_some hf
      have hconn : s.connection fd = some (conn u) := by rw [connection, hheard u hf]
      have hsights : s.sights (.line fd inp) =
          (lineSights (s.dupStd fd fd fd) u inp).map fun r => ⟨conn u, r.1, r.2⟩ := by
        rw [sights, hf, hconn]
      cases hn : npshell (s.dupStd fd fd fd) u inp with
      | none => simp [hn] at hs
      | some ret =>
        simp only [hn, Option.some.injEq] at hs
        subst hs
        have hdup : Apart environ conn past (s.dupStd fd fd fd) :=
          h.frame (fun _ _ => rfl) rfl rfl rfl
        obtain ⟨hfollows, hafter⟩ := npshell_env hn
        have husers := npshell_users hn hdup.recorded ⟨hu, hv⟩
        rw [hdup.start hu hv] at hfollows
        rw [hsights] at hset ⊢
        refine ⟨?_, ?_⟩
        · have hline := hdup.line hu hv (fun r hr => hset _ (List.mem_map_of_mem hr)) hafter
            (fun i hi => ?_) husers.accepted husers.recorded
          · exact hline.frame (fun name _ => by rw [finish_environ]) (finish_user ..)
              (finish_accepted ..) (finish_record ..)
          · rw [husers.valid] at hi
            split_ifs at hi
            exact hi
        · rintro new x rest hsplit
          obtain ⟨rows, rows', hsplit', rfl, hx⟩ := List.map_eq_append_iff.mp hsplit
          obtain ⟨y, rows'', rfl, rfl, -⟩ := List.map_eq_cons_iff.mp hx
          rw [hfollows rows y rows'' hsplit', ownEnviron_append, if_pos rfl]

theorem apart_run {environ : Environ} : ∀ {is : List Input} {conn : ℕ → ℕ} {past : List Sight}
    {s : Server}, Apart environ conn past s → HeardRun s conn is →
    (∀ x ∈ history s is, SetsPath x.argv) → ∀ new x rest, history s is = new ++ x :: rest →
      x.environ = ownEnviron environ x.conn (past ++ new)
  | [], _, _, _, _, _, _, new, x, rest, hsplit => by simp [history] at hsplit
  | i :: is, conn, past, s, h, ⟨hheard, hrest⟩, hset, new, x, rest, hsplit => by
    cases hs : s.step i with
    | none => simp [history, hs] at hsplit
    | some r =>
      simp only [history, hs] at hset hsplit
      obtain ⟨hnext, hnew⟩ := apart_step h hheard hs fun y hy => hset y (List.mem_append_left _ hy)
      rcases List.append_eq_append_iff.mp hsplit with ⟨mid, rfl, hmid⟩ | ⟨mid, hmid, htail⟩
      · rw [← List.append_assoc]
        exact apart_run hnext (hrest r hs) (fun y hy => hset y (List.mem_append_right _ hy)) _ x rest hmid
      · cases mid with
        | nil =>
          have hrun := apart_run hnext (hrest r hs) (fun y hy => hset y (List.mem_append_right _ hy)) []
            x rest htail.symm
          rw [hrun, hmid, List.append_nil, List.append_nil]
        | cons y mid =>
          obtain ⟨rfl, -⟩ := List.cons.inj htail
          exact hnew new x mid hmid

theorem apart_init (environ : Environ) (conn : ℕ → ℕ) : Apart environ conn [] (init environ) where
  base := fun _ hname => setenv_path_of_ne _ _ hname
  path := fun _ _ hv => by cases hv
  older := fun _ _ hv => by cases hv
  inj := fun _ _ _ _ hv => by cases hv
  past_lt := fun _ hx => by cases hx
  sets := fun _ hx => by cases hx
  recorded := fun _ _ hr => by cases hr

/-- As long as every `setenv` names `PATH` and every line is heard as one of its sender, each client
    sees the environment its own commands have made. -/
theorem environment_isolated (environ : Environ) (is : List Input)
    (hheard : HeardRun (init environ) (fun _ => 0) is)
    (hset : ∀ x ∈ history (init environ) is, SetsPath x.argv) :
    Isolated environ (history (init environ) is) := by
  intro past x rest hsplit
  rw [apart_run (apart_init environ _) hheard hset past x rest hsplit, List.nil_append]

/-- Two clients of which one sets `PATH` and both print it. -/
def pathInputs : List Input :=
  let plain := fun (line : List Char) => (⟨line, [], ⟨true, true, none⟩, false⟩ : LineInput)
  let set := plain ['s', 'e', 't', 'e', 'n', 'v', ' ', 'P', 'A', 'T', 'H', ' ', '.']
  let print := plain ['p', 'r', 'i', 'n', 't', 'e', 'n', 'v', ' ', 'P', 'A', 'T', 'H']
  [.accept [] 0 0, .accept [] 0 0, .line 7 set, .line 8 print, .line 7 print]

theorem environment_isolated_two :
    ((history (init fun _ => none) pathInputs).map fun x => observe x.argv x.environ) =
      [none, some ['b', 'i', 'n', ':', '.'], some ['.']] ∧
    Isolated (fun _ => none) (history (init fun _ => none) pathInputs) :=
  ⟨by decide +kernel,
    environment_isolated (fun _ => none) pathInputs (by decide +kernel) (by decide +kernel)⟩

/-- `setenv L x` makes `x` the `PATH` of the next line. -/
theorem environment_leaks : ∃ is, HeardRun (init fun _ => none) (fun _ => 0) is ∧
    ¬ Isolated (fun _ => none) (history (init fun _ => none) is) := by
  let plain := fun (line : List Char) => (⟨line, [], ⟨true, true, none⟩, false⟩ : LineInput)
  let is : List Input := [.accept [] 0 0,
    .line 7 (plain ['s', 'e', 't', 'e', 'n', 'v', ' ', 'L', ' ', 'x']),
    .line 7 (plain ['p', 'r', 'i', 'n', 't', 'e', 'n', 'v', ' ', 'P', 'A', 'T', 'H'])]
  have hlen : (history (init fun _ => none) is).length = 2 := by decide +kernel
  have hseen : ((history (init fun _ => none) is).map fun x => observe x.argv x.environ) =
      [none, some ['x']] := by decide +kernel
  have hargv : ((history (init fun _ => none) is).map fun x => (x.conn, x.argv)) =
      [(0, [['s', 'e', 't', 'e', 'n', 'v'], ['L'], ['x']]),
        (0, [['p', 'r', 'i', 'n', 't', 'e', 'n', 'v'], ['P', 'A', 'T', 'H']])] := by decide +kernel
  refine ⟨is, by decide +kernel, fun h => ?_⟩
  obtain ⟨x, y, hxy⟩ := List.length_eq_two.mp hlen
  rw [hxy] at hseen hargv
  simp only [List.map_cons, List.map_nil, List.cons.injEq, Prod.mk.injEq, and_true] at hseen hargv
  obtain ⟨⟨hx, hxargv⟩, hy, hyargv⟩ := hargv
  have hown : observe y.argv (ownEnviron (fun _ => none) y.conn [x]) =
      some ['b', 'i', 'n', ':', '.'] := by
    obtain ⟨xconn, xargv, xenv⟩ := x
    obtain ⟨yconn, yargv, yenv⟩ := y
    simp only at hx hxargv hy hyargv
    subst hx hxargv hy hyargv
    rfl
  have := h [x] y [] hxy
  rw [hseen.2, hown] at this
  exact absurd this (by decide)

end NetProg.Server
