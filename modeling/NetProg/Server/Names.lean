import NetProg.Lib.Directory
import NetProg.Server.Call

/-! The names of the users of the single-process server.

    The table of users is a directory of the slots that are valid. A client comes in under `(no name)`, takes a
    name that no valid slot has, goes back to `(no name)`, or leaves; nothing else touches a name. -/

namespace NetProg.Server

open Directory

/-- `(no name)`. -/
def noName : List Char := "(no name)".toList

/-- The names of the valid slots. -/
def names (s : Server) (i : ℕ) : Option (List Char) :=
  if i < qlen ∧ (s.user i).valid = true then some (s.user i).name else none

/-- Two distinct slots that are valid and have one name both have `(no name)`. -/
def NamesUnique (s : Server) : Prop := ∀ i < qlen, ∀ j < qlen, i ≠ j → (s.user i).valid = true →
  (s.user j).valid = true → (s.user i).name = (s.user j).name →
    (s.user i).name = noName ∧ (s.user j).name = noName

theorem names_eq_some {s : Server} {i : ℕ} {n : List Char} :
    s.names i = some n ↔ i < qlen ∧ (s.user i).valid = true ∧ (s.user i).name = n := by
  rw [names]
  split_ifs with h
  · simp [h.1, h.2]
  · exact iff_of_false (by simp) fun hn => h ⟨hn.1, hn.2.1⟩

theorem namesUnique_of_distinct {s : Server} (h : Distinct noName s.names) : s.NamesUnique := by
  intro i hi j hj hij hvi hvj hname
  have hno := h i j _ hij (names_eq_some.mpr ⟨hi, hvi, rfl⟩) (names_eq_some.mpr ⟨hj, hvj, hname.symm⟩)
  exact ⟨hno, hname ▸ hno⟩

/-- What decides the names. -/
theorem names_congr {s t : Server} (hvalid : ∀ i, (t.user i).valid = (s.user i).valid)
    (hname : ∀ i, (t.user i).name = (s.user i).name) : t.names = s.names := by
  funext i
  rw [names, names, hvalid, hname]

/-- A change of one user. -/
theorem names_modifyUser (s : Server) (u : ℕ) (f : User → User) :
    (s.modifyUser u f).names = Function.update s.names u
      (if u < qlen ∧ (f (s.user u)).valid = true then some (f (s.user u)).name else none) := by
  funext i
  rcases eq_or_ne i u with rfl | hi
  · rw [Function.update_self, names, user_modifyUser, if_pos rfl]
  · rw [Function.update_of_ne hi, names, names, user_modifyUser, if_neg hi]

/-! ### The tokens and the rows -/

/-- The server behind some part of a call. -/
def Renames (s t : Server) : Prop := Changes noName s.names t.names

theorem Renames.refl (s : Server) : Renames s s := Relation.ReflTransGen.refl

theorem Renames.of_eq {s t : Server} (h : t.names = s.names) : Renames s t := by
  rw [Renames, h]

theorem Renames.trans {s t w : Server} (h : Renames s t) (h' : Renames t w) : Renames s w :=
  Relation.ReflTransGen.trans h h'

theorem Renames.one {s t : Server} (h : Change noName s.names t.names) : Renames s t := .single h

theorem names_made (c : Call) (receiver : ℕ) : (c.made receiver).server.names = c.server.names := by
  refine names_congr (valid_made c receiver) fun i => ?_
  rw [user_made]
  split_ifs with hi
  · rw [hi]
    rfl
  · rfl

theorem parse_renames {s : Server} {u : ℕ} {inp : LineInput} :
    (parse s u inp).All fun c => Renames s c.server := by
  have hkept : KeptByTokens inp fun c => Renames s c.server :=
    { push := fun _ _ h => h
      take := fun c c' id h htake => by
        obtain ⟨-, -, rfl⟩ := takeUserPipe_ok.mp htake
        exact h
      make := fun c c' id h hmake => by
        obtain ⟨-, -, rfl⟩ := makeUserPipe_ok.mp hmake
        exact h.trans (.of_eq (names_made ..))
      number := fun _ _ _ h => h
      file := fun _ _ _ h _ => h
      reject := fun _ _ h => h }
  exact hkept.parse (.refl s)

/-- A name the scan of the table does not find is the name of no valid slot. -/
theorem names_ne_of_checkNameExist {s : Server} {name : List Char} (h : ¬ s.checkNameExist name = true) :
    ∀ j, s.names j ≠ some name := by
  intro j hj
  obtain ⟨hlt, hvalid, hname⟩ := names_eq_some.mp hj
  refine h (List.any_eq_true.mpr ⟨j, List.mem_range.mpr hlt, ?_⟩)
  rw [hvalid, hname]
  exact beq_self_eq_true name

/-- A new name for a user, if it is the free one or nobody has it. -/
theorem modifyUser_renames (s : Server) (u : ℕ) {name : List Char}
    (hname : name = noName ∨ ∀ j, s.names j ≠ some name) :
    Renames s (s.modifyUser u fun w => { w with name := name }) := by
  refine .one ?_
  rw [names_modifyUser]
  split_ifs with hu
  · rcases hname with rfl | hfree
    · exact .anonymous u
    · exact .take u name hfree
  · exact .leave u

theorem rename_renames (s : Server) (u : ℕ) (args : List Token) : Renames s (rename s u args) := by
  cases args with
  | nil => exact modifyUser_renames s u (Or.inl rfl)
  | cons name args =>
    rw [rename]
    split_ifs with hexist
    · exact .refl s
    · exact modifyUser_renames s u (Or.inr (names_ne_of_checkNameExist hexist))

theorem exitUser_renames (s : Server) (u : ℕ) : Renames s (exitUser s u) := by
  have hnames : (exitUser s u).names = Function.update s.names u none :=
    (names_modifyUser _ u fun w => { w with valid := false }).trans
      (congrArg (Function.update s.names u) (if_neg fun h => Bool.false_ne_true h.2))
  refine .one ?_
  rw [hnames]
  exact .leave u

theorem setenvUser_renames (s : Server) (u : ℕ) (args : List Token) : Renames s (setenvUser s u args) := by
  rcases args with _ | ⟨name, _ | ⟨value, args⟩⟩
  · exact .refl s
  · exact .refl s
  · refine .of_eq (names_congr (fun i => ?_) fun i => ?_)
    · rcases eq_or_ne i u with rfl | hi <;> simp [setenvUser, modifyUser, *]
    · rcases eq_or_ne i u with rfl | hi <;> simp [setenvUser, modifyUser, *]

theorem fork_user (c : Call) (inp : LineInput) (pc : ℕ) (last : Bool) (argv : List Token) :
    (c.fork inp pc last argv).server.user = c.server.user := by
  rw [Call.fork]
  dsimp only
  split <;> rfl

theorem execRow_renames (inp : LineInput) (pc : ℕ) (last : Bool) (argv : List Token) (c : Call) :
    (execRow inp pc last argv c).Ends (fun d => Renames c.server d.server)
      fun d => Renames c.server d.server := by
  cases argv with
  | nil => trivial
  | cons cmd args =>
    rw [execRow.eq_def]
    dsimp only
    split_ifs
    · cases args with
      | nil => exact .refl _
      | cons name args =>
        refine .of_eq ?_
        rw [printenv]
        split <;> rfl
    · trivial
    · exact setenvUser_renames ..
    · trivial
    · exact exitUser_renames ..
    · exact .refl _
    · trivial
    · exact .refl _
    · cases args with
      | nil => trivial
      | cons id words =>
        refine .of_eq ?_
        rw [tell]
        split_ifs <;> rfl
    · exact .refl _
    · exact rename_renames ..
    · trivial
    · refine .of_eq (names_congr (fun i => ?_) fun i => ?_)
      · rw [fork_user]
      · rw [fork_user]

theorem execRows_renames (inp : LineInput) (pc : ℕ) (rows : List (List Token)) (c : Call) :
    (execRows inp pc rows c).Ends (fun d => Renames c.server d.server)
      fun d => Renames c.server d.server := by
  induction rows generalizing c with
  | nil => exact .refl _
  | cons argv rest ih =>
    rw [execRows]
    have hrow := execRow_renames inp pc rest.isEmpty argv c
    cases hr : execRow inp pc rest.isEmpty argv c with
    | next d =>
      rw [hr] at hrow
      have hrest := ih d
      dsimp only
      cases hrs : execRows inp pc rest d with
      | next e => rw [hrs] at hrest; exact Renames.trans hrow hrest
      | exited e => rw [hrs] at hrest; exact Renames.trans hrow hrest
      | crashed => trivial
    | exited d =>
      rw [hr] at hrow
      exact hrow
    | crashed => trivial

/-! ### A whole turn of the loop -/

theorem leave_names (c : Call) : c.leave.names = c.server.names := by
  refine names_congr (fun i => ?_) fun i => ?_
  · rcases eq_or_ne i c.u with rfl | hi <;> simp [Call.leave, modifyUser, *]
  · rcases eq_or_ne i c.u with rfl | hi <;> simp [Call.leave, modifyUser, *]

theorem npshell_renames {s : Server} {u : ℕ} {inp : LineInput} {r : Return}
    (h : npshell s u inp = some r) : Renames s r.server := by
  have hparse : (parse (s.setPath u) u inp).All fun c => Renames (s.setPath u) c.server := parse_renames
  cases npshell_outcome h with
  | blank _ => exact .refl s
  | @rejected c e _ hp =>
    rw [hp] at hparse
    exact Renames.trans hparse (.of_eq (leave_names c))
  | @ended c d _ hp hrows =>
    rw [hp] at hparse
    have hends := execRows_renames inp c.process.length c.process c.resolve
    rw [hrows] at hends
    exact (Renames.trans hparse hends).trans (.of_eq (leave_names d))
  | @exited c d _ hp hrows =>
    rw [hp] at hparse
    have hends := execRows_renames inp c.process.length c.process c.resolve
    rw [hrows] at hends
    exact (Renames.trans hparse hends).trans (.of_eq (leave_names d))

theorem finish_names (s : Server) (fd u : ℕ) (zero : Bool) : (s.finish fd u zero).names = s.names := by
  cases zero <;> rfl

theorem acceptClient_renames {s t : Server} {addr : List Char} {port junk : ℕ}
    (h : s.acceptClient addr port junk = some t) : Renames s t := by
  rw [acceptClient] at h
  dsimp only at h
  split_ifs at h with hi
  obtain rfl := Option.some.inj h
  refine .one ?_
  have hnames := names_modifyUser s (s.spaceInd junk) fun w => { w with
    valid := true
    sock := (s.kernel.alloc (.sock s.accepted)).2
    addr := addr
    env := "bin:.".toList
    name := noName
    port := port
    batchFlag := false
    ignore := false }
  rw [if_pos ⟨hi, rfl⟩] at hnames
  have hchange : Change noName s.names _ := .anonymous (s.spaceInd junk)
  rw [← hnames] at hchange
  exact hchange

/-- One turn of the loop is made of changes of the directory. -/
theorem step_renames {s : Server} {i : Input} {r : Server × List Spawn × Option PipeError}
    (h : s.step i = some r) : Renames s r.1 := by
  have hcall : ∀ {fd u : ℕ} {inp : LineInput} {ret : Return} (zero : Bool),
      npshell (s.dupStd fd fd fd) u inp = some ret → Renames s (ret.server.finish fd u zero) :=
    fun zero hret => (npshell_renames hret).trans (.of_eq (finish_names ..))
  cases i with
  | accept addr port junk =>
    obtain ⟨t, ht, rfl⟩ := Option.map_eq_some_iff.mp h
    exact acceptClient_renames ht
  | line fd inp =>
    rw [step] at h
    split_ifs at h
    cases hf : s.findFdUser fd with
    | none => simp [hf] at h
    | some u =>
      simp only [hf] at h
      cases hret : npshell (s.dupStd fd fd fd) u inp with
      | none => simp [hret] at h
      | some ret =>
        simp only [hret, Option.some.injEq] at h
        exact h ▸ hcall ret.zero hret
  | eof fd =>
    rw [step] at h
    split_ifs at h
    cases hf : s.findFdUser fd with
    | none => simp [hf] at h
    | some u =>
      simp only [hf] at h
      cases hret : npshell (s.dupStd fd fd fd) u ⟨[], [], ⟨false, false, none⟩, false⟩ with
      | none => simp [hret] at h
      | some ret =>
        simp only [hret, Option.some.injEq] at h
        exact h ▸ hcall true hret

theorem run_renames {is : List Input} {s t : Server} (h : s.run is = some t) : Renames s t := by
  induction is generalizing s with
  | nil => exact Option.some.inj h ▸ .refl s
  | cons i is ih =>
    rw [run, Option.bind_eq_some_iff] at h
    obtain ⟨r, hr, hrest⟩ := h
    exact (step_renames hr).trans (ih hrest)

theorem distinct_init (environ : Environ) : Distinct noName (init environ).names := by
  intro i j n _ hi
  obtain ⟨-, hvalid, -⟩ := names_eq_some.mp hi
  cases hvalid

/-- Whatever the clients do: of two valid slots with one name both have `(no name)`. A `name` that is refused
    changes no user, nor what the call holds of its own user: it prints a line. -/
theorem names_unique_of_run {environ : Environ} {is : List Input} {s : Server}
    (h : (init environ).run is = some s) : s.NamesUnique ∧
    ∀ (c : Call) (inp : LineInput) (pc : ℕ) (last : Bool) (name : Token) (args : List Token),
      c.server.checkNameExist name = true →
      ∃ entries, execRow inp pc last (nameCmd :: name :: args) c =
        .next { c with server := c.server.print entries } := by
  refine ⟨namesUnique_of_distinct ((distinct_init environ).changes (run_renames h)), ?_⟩
  intro c inp pc last name args hexist
  refine ⟨[.printf (" *** User '".toList ++ name ++ "' already exists. ***\n".toList)], ?_⟩
  have hfits : renameFits c.server (name :: args) = true := by
    rw [renameFits, hexist, Bool.true_or]
  have hname : execRow inp pc last (nameCmd :: name :: args) c =
      if renameFits c.server (name :: args) then
        .next { c with server := rename c.server c.u (name :: args) } else .crashed := rfl
  rw [hname, if_pos hfits, rename, if_pos hexist]

/-- Of four clients the first takes the name `a`, the second is refused it, and the others have none. -/
def fourClients : List Input :=
  [.accept [] 0 0, .accept [] 0 0, .accept [] 0 0, .accept [] 0 0,
    .line 7 ⟨['n', 'a', 'm', 'e', ' ', 'a'], ['n', 'a', 'm', 'e', ' ', 'a'], ⟨true, true, none⟩, false⟩,
    .line 8 ⟨['n', 'a', 'm', 'e', ' ', 'a'], ['n', 'a', 'm', 'e', ' ', 'a'], ⟨true, true, none⟩, false⟩]

theorem fourClients_names : ((init fun _ => none).run fourClients).map (fun s =>
    [(s.user 0).name, (s.user 1).name, (s.user 2).name, (s.user 3).name]) =
      some [['a'], noName, noName, noName] := by
  decide +kernel

theorem names_unique_four : ∃ s, (init fun _ => none).run fourClients = some s ∧ (s.user 0).name = ['a'] ∧
    (s.user 1).name = (s.user 2).name ∧ s.NamesUnique := by
  obtain ⟨s, hrun, hnames⟩ := Option.map_eq_some_iff.mp fourClients_names
  simp only [List.cons.injEq] at hnames
  exact ⟨s, hrun, hnames.1, hnames.2.1.trans hnames.2.2.1.symm, (names_unique_of_run hrun).1⟩

end NetProg.Server
