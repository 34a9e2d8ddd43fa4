import NetProg.Server.Reuse

/-! Descriptors that no table of the server names.

    The server closes descriptors by the numbers in its tables. One that is open and in none of them is
    after every call what it was before, whatever the line. Descriptor 1 is such a one in every run:
    nothing is asked of the inputs, and the tables may hold stale numbers. -/

namespace NetProg.Server

/-- `x` is open, no client's socket, and in no table. -/
structure Unnamed (x : ℕ) (s : Server) : Prop where
  opened : s.kernel.get x ≠ none
  afds : x ∉ s.afds
  refs : ∀ w, ¬ Refers s s.vecs w x

/-- During a call `x` is open as `d`, no client's, and neither `fd_in` nor kept for a user. -/
structure Stays (x : ℕ) (d : Desc) (taken : Option (ℕ × ℕ)) (c : Call) : Prop where
  opened : c.vars.kernel.get x = some d
  afds : x ∉ c.server.afds
  fdIn : x ≠ c.vars.fdIn
  refs : ∀ w, ¬ c.Refers taken w x

/-- A step names only what it was given or what was free. -/
theorem Stays.step {x : ℕ} {d : Desc} {taken taken' : Option (ℕ × ℕ)} {c c' : Call}
    (h : Stays x d taken c) (hget : c'.vars.kernel.get x = c.vars.kernel.get x)
    (hafds : c'.server.afds = c.server.afds)
    (hfd : c'.vars.fdIn = c.vars.fdIn ∨ c.vars.kernel.get c'.vars.fdIn = none)
    (hrefs : ∀ w, c'.Refers taken' w x → c.Refers taken w x ∨ c.vars.kernel.get x = none) :
    Stays x d taken' c' := by
  have hopen : c.vars.kernel.get x ≠ none := by simp [h.opened]
  refine ⟨hget.trans h.opened, hafds ▸ h.afds, ?_, fun w hw => ?_⟩
  · rcases hfd with hfd | hfd
    · rw [hfd]
      exact h.fdIn
    · rintro rfl
      exact hopen hfd
  · rcases hrefs w hw with hw | hfree
    · exact h.refs w hw
    · exact hopen hfree

theorem Stays.kept (x : ℕ) (d : Desc) (inp : LineInput) :
    KeptByTokens inp fun c => Stays x d c.takenPair c where
  push := fun _ _ h => h.step rfl rfl (Or.inl rfl) fun _ hw => Or.inl hw
  take := by
    intro c c' id h htake
    have hrefs := fun w => refers_take (w := w) (x := x) htake
    obtain ⟨-, -, rfl⟩ := takeUserPipe_ok.mp htake
    exact h.step rfl rfl (Or.inl rfl) fun w hw => Or.inl (hrefs w hw)
  make := by
    intro c c' id h hmake
    have hrefs := fun w => refers_make (w := w) (x := x) hmake
    obtain ⟨-, -, rfl⟩ := makeUserPipe_ok.mp hmake
    exact h.step (Kernel.get_pipe_of_open (by simp [h.opened])) rfl (Or.inl rfl) hrefs
  number := fun c shock n h => h.step (pipeOut_get_of_open shock n (by simp [h.opened])) rfl
    (Or.inl (pipeOut_fdIn ..)) fun _ hw => refers_pipeOut hw
  file := by
    intro c name v h hfile
    obtain ⟨hget, -, hvec, hfd, -⟩ := createFile_frame hfile
    exact h.step (hget x) rfl (Or.inl hfd) fun w hw => Or.inl (refers_of_same hw hvec rfl rfl rfl)
  reject := fun _ _ h => h.step rfl rfl (Or.inl rfl) fun _ hw => Or.inl hw

/-- What the process loop closes is `fd_in` or kept for the user. -/
theorem Stays.spared {x : ℕ} {d : Desc} {c : Call} (h : Stays x d c.vars.namePipeIn c) :
    c.vars.Spared x := by
  refine ⟨by simp [h.opened], fun hclose => ?_⟩
  rcases closable_refers hclose with hfd | hrefs
  · exact h.fdIn hfd
  · exact h.refs _ hrefs

theorem Stays.rules (x : ℕ) (d : Desc) (inp : LineInput) (pc : ℕ) :
    RowRules inp pc (fun _ c => Stays x d c.vars.namePipeIn c) fun c => Stays x d c.vars.namePipeIn c where
  fork := by
    intro cmd args rest c _ h
    obtain ⟨-, -, -, -, hfd, -⟩ := Vars.forkProcess_fst c.vars inp.opens pc rest.isEmpty
    refine h.step (h.spared.get_fork inp.opens pc rest.isEmpty) (fork_tables c inp pc _ _).afds ?_
      fun w hw => Or.inl (refers_fork hw)
    have hfd' : (c.fork inp pc rest.isEmpty (cmd :: args)).vars.fdIn =
        if c.vars.makesPipe pc rest.isEmpty then c.vars.kernel.pipeFd0 else c.vars.fdIn := hfd
    rw [hfd']
    split_ifs
    · exact Or.inr (Kernel.get_pipeFd0 _)
    · exact Or.inl rfl
  builtin := fun _ _ _ _ _ _ _ h hs =>
    h.step rfl hs.afds (Or.inl rfl) fun _ hw => Or.inl (refers_builtin hs hw)
  exit := fun _ _ _ h => h.step rfl rfl (Or.inl rfl) fun _ hw => Or.inl (refers_exit hw)

/-- A call leaves alone what is open and not named, and does not name it. -/
theorem npshell_untouched {s : Server} {u x : ℕ} {inp : LineInput} {r : Return}
    (h : npshell s u inp = some r) (hx : Unnamed x s) (h0 : x ≠ 0) :
    r.server.kernel.get x = s.kernel.get x ∧ Unnamed x r.server := by
  obtain ⟨d, hd⟩ := Option.ne_none_iff_exists'.mp hx.opened
  have hleave : ∀ {taken : Option (ℕ × ℕ)} {c : Call}, Stays x d taken c →
      c.leave.kernel.get x = s.kernel.get x ∧ Unnamed x c.leave := by
    intro taken c hc
    have hget : c.leave.kernel.get x = some d := hc.opened
    exact ⟨hget.trans hd.symm, by simp [hget], hc.afds, fun w hw => hc.refs w (refers_leave hw _)⟩
  have hstart : Stays x d none (startCall (s.setPath u) u) :=
    ⟨hd, hx.afds, h0, fun w hw => hx.refs w (refers_start rfl hw)⟩
  have hread := (Stays.kept x d inp).parse hstart
  have hrows : ∀ c, Stays x d c.takenPair c →
      (execRows inp c.process.length c.process c.resolve).Ends
        (fun c' => Stays x d c'.vars.namePipeIn c') fun c' => Stays x d c'.vars.namePipeIn c' :=
    fun c hc => (Stays.rules x d inp c.process.length).execRows c.process c.resolve
      (hc.step rfl rfl (Or.inl rfl) fun _ hw => Or.inl hw)
  cases npshell_outcome h with
  | blank _ => exact ⟨rfl, hx.opened, hx.afds, hx.refs⟩
  | rejected _ hp =>
    rw [hp] at hread
    exact hleave hread
  | ended _ hp hend =>
    rw [hp] at hread
    have hends := hrows _ hread
    rw [hend] at hends
    exact hleave hends
  | exited _ hp hend =>
    rw [hp] at hread
    have hends := hrows _ hread
    rw [hend] at hends
    exact hleave hends

/-! ### Between two inputs -/

theorem dup2_opened {k : Kernel} {x : ℕ} (src dst : ℕ) (hx : k.get x ≠ none) :
    (k.dup2 src dst).get x ≠ none := by
  show (k.fds.dup2 src dst).get x ≠ none
  rw [FdTable.get_dup2]
  split_ifs with hcopy
  · exact hcopy.2
  · exact hx

theorem Unnamed.dupStd {x : ℕ} {s : Server} (h : Unnamed x s) (i o e : ℕ) :
    Unnamed x (s.dupStd i o e) :=
  ⟨dup2_opened _ _ (dup2_opened _ _ (dup2_opened _ _ h.opened)), h.afds, h.refs⟩

/-- A new client gets a descriptor that was free. -/
theorem Unnamed.accept {x : ℕ} {s s' : Server} {addr : List Char} {port junk : ℕ} (h : Unnamed x s)
    (hs : s.acceptClient addr port junk = some s') : Unnamed x s' := by
  obtain ⟨-, hker, hafds, hrec, -, huser⟩ := acceptClient_some hs
  have hnew : x ≠ (s.kernel.alloc (.sock s.accepted)).2 := by
    rintro rfl
    exact h.opened (s.kernel.get_alloc_fd _)
  refine ⟨?_, ?_, fun w hw => ?_⟩
  · rw [hker, Kernel.get_alloc_of_open _ h.opened]
    exact h.opened
  · rw [hafds, Finset.mem_insert, not_or]
    exact ⟨hnew, h.afds⟩
  · rw [Refers, vecs, hrec, huser] at hw
    split_ifs at hw with hi
    · subst hi
      rcases hw with hw | hw
      · exact hnew hw
      · exact h.refs _ (Or.inr hw)
    · exact h.refs w hw

theorem Unnamed.finish {x fd u : ℕ} {s : Server} (h : Unnamed x s) (hfd : x ≠ fd) (zero : Bool) :
    Unnamed x (s.finish fd u zero) := by
  have hstd := h.dupStd fdIn fdOut fdErr
  cases zero with
  | true =>
    refine ⟨?_, fun hx => hstd.afds (Finset.mem_of_mem_erase hx), hstd.refs⟩
    show ((s.dupStd fdIn fdOut fdErr).kernel.close fd).get x ≠ none
    rw [Kernel.get_close, if_neg hfd]
    exact hstd.opened
  | false => exact ⟨hstd.opened, hstd.afds, hstd.refs⟩

theorem Unnamed.step {x : ℕ} {s : Server} {i : Input} {r : Server × List Spawn × Option PipeError}
    (h : Unnamed x s) (h0 : x ≠ 0) (hs : s.step i = some r) : Unnamed x r.1 := by
  have hclient : ∀ {fd : ℕ}, fd ∈ s.afds → x ≠ fd := by
    rintro fd hfd rfl
    exact h.afds hfd
  cases i with
  | accept addr port junk =>
    simp only [Server.step, Option.map_eq_some_iff] at hs
    obtain ⟨s', hs', rfl⟩ := hs
    exact h.accept hs'
  | line fd inp =>
    simp only [Server.step] at hs
    split_ifs at hs with hfd
    split at hs
    · cases hs
    · split at hs
      · cases hs
      · rename_i hn
        obtain rfl := Option.some.inj hs
        exact (npshell_untouched hn (h.dupStd fd fd fd) h0).2.finish (hclient hfd.1) _
  | eof fd =>
    simp only [Server.step] at hs
    split_ifs at hs with hfd
    split at hs
    · cases hs
    · split at hs
      · cases hs
      · rename_i hn
        obtain rfl := Option.some.inj hs
        exact (npshell_untouched hn (h.dupStd fd fd fd) h0).2.finish (hclient hfd.1) true

theorem unnamed_init (environ : Environ) : Unnamed 1 (init environ) where
  opened := Option.some_ne_none _
  afds := by simp [init, msock]
  refs := by
    rintro w (hw | ⟨e, he, -⟩ | ⟨a, har, -⟩)
    · cases hw
    · cases he
    · cases har

end NetProg.Server
