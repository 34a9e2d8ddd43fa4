import NetProg.Server.Holding

/-! Users and sockets are one to one.

    Four places change who is logged in: `accept` fills the first free slot, `exit` frees the slot and
    the loop then closes the socket, a client that just disconnects has its socket closed while its
    slot stays taken, and the ends of pipes are closed by number. The first two keep the table right;
    the third never does, and the last does as long as no line makes a pipe anew it has just taken. -/

namespace NetProg.Server

/-- What `main` inherited or made before the first client. -/
def Inherited : Desc → Prop
  | .own _ => True
  | .listen => True
  | _ => False

/-- Between two inputs, `conn` being the connection each slot was last given. -/
structure Sound (conn : ℕ → ℕ) (s : Server) : Prop where
  std : ∀ x < 7, ∃ d, s.kernel.get x = some d ∧ Inherited d
  sock : ∀ i < qlen, (s.user i).valid = true →
    s.kernel.get (s.user i).sock = some (.sock (conn i))
  afds : ∀ fd, fd ∈ s.afds ↔ fd = msock ∨ ∃ i < qlen, (s.user i).valid = true ∧ (s.user i).sock = fd
  inj : ∀ i < qlen, ∀ j < qlen, (s.user i).valid = true → (s.user j).valid = true →
    (s.user i).sock = (s.user j).sock → i = j
  recorded : Recorded s
  wired : Wired s.kernel (Held s s.live none)

/-- The slots given to connections by one input. -/
def login (s : Server) (conn : ℕ → ℕ) : Input → ℕ → ℕ
  | .accept _ _ junk => Function.update conn (s.spaceInd junk) s.accepted
  | _ => conn

/-- The connection each slot was last given in a run. -/
def logins : Server → List Input → (ℕ → ℕ) → ℕ → ℕ
  | _, [], conn => conn
  | s, i :: is, conn =>
    match s.step i with
    | some r => logins r.1 is (s.login conn i)
    | none => conn

/-- The slots of the users that are logged in and the sockets of the clients are one to one, each
    slot has the connection it was last given, and `find_fd_user` finds it. -/
structure OneToOne (conn : ℕ → ℕ) (s : Server) : Prop where
  bij : Set.BijOn (fun i => (s.user i).sock) {i | i < qlen ∧ (s.user i).valid = true}
    {fd | fd ∈ s.afds ∧ fd ≠ msock}
  connected : ∀ i < qlen, (s.user i).valid = true →
    s.kernel.get (s.user i).sock = some (.sock (conn i))
  found : ∀ i < qlen, (s.user i).valid = true → s.findFdUser (s.user i).sock = some i

/-- A client is accepted while a slot is free, nobody just disconnects, and no line makes the pipe of
    its user to itself anew after taking it. -/
def Careful (s : Server) : Input → Prop
  | .accept _ _ _ => s.validUsers.length < qlen
  | .line fd inp => ∀ u ∈ s.findFdUser fd, lineReusesOwnPipe u inp = false
  | .eof _ => False

/-- A run in which every input meets the condition. -/
def CarefulRun : Server → List Input → Prop
  | _, [] => True
  | s, i :: is => s.Careful i ∧ ∀ r ∈ s.step i, CarefulRun r.1 is

instance (s : Server) : ∀ i : Input, Decidable (s.Careful i)
  | .accept _ _ _ => inferInstanceAs (Decidable (_ < _))
  | .line fd inp =>
    inferInstanceAs (Decidable (∀ u ∈ s.findFdUser fd, lineReusesOwnPipe u inp = false))
  | .eof _ => inferInstanceAs (Decidable False)

instance decidableCarefulRun : ∀ (is : List Input) (s : Server), Decidable (CarefulRun s is)
  | [], _ => inferInstanceAs (Decidable True)
  | i :: is, s =>
    have := fun r : Server × List Spawn × Option PipeError => decidableCarefulRun is r.1
    inferInstanceAs (Decidable (s.Careful i ∧ ∀ r ∈ s.step i, CarefulRun r.1 is))

/-! ### Reading the tables -/

theorem findFdUser_some {s : Server} {fd u : ℕ} (h : s.findFdUser fd = some u) :
    u < qlen ∧ (s.user u).valid = true ∧ (s.user u).sock = fd := by
  have hp := List.find?_some h
  simp only [Bool.and_eq_true, beq_iff_eq] at hp
  exact ⟨List.mem_range.mp (List.mem_of_find?_eq_some h), hp.1, hp.2⟩

theorem Sound.ge_seven {conn : ℕ → ℕ} {s : Server} {i : ℕ} (h : Sound conn s) (hi : i < qlen)
    (hv : (s.user i).valid = true) : 7 ≤ (s.user i).sock := by
  by_contra hlt
  obtain ⟨d, hd, hinh⟩ := h.std (s.user i).sock (by omega)
  rw [h.sock i hi hv] at hd
  cases hd
  exact hinh

theorem Sound.findFdUser {conn : ℕ → ℕ} {s : Server} {i : ℕ} (h : Sound conn s) (hi : i < qlen)
    (hv : (s.user i).valid = true) : s.findFdUser (s.user i).sock = some i := by
  cases hf : s.findFdUser (s.user i).sock with
  | none =>
    have := List.find?_eq_none.mp hf i (List.mem_range.mpr hi)
    simp [hv] at this
  | some j =>
    obtain ⟨hj, hvj, hsock⟩ := findFdUser_some hf
    rw [h.inj j hj i hi hvj hv hsock]

theorem Sound.oneToOne {conn : ℕ → ℕ} {s : Server} (h : Sound conn s) : OneToOne conn s where
  bij := by
    refine ⟨fun i ⟨hi, hv⟩ => ⟨(h.afds _).mpr (Or.inr ⟨i, hi, hv, rfl⟩), ?_⟩, ?_, ?_⟩
    · have := h.ge_seven hi hv
      simp only [msock]
      omega
    · rintro i ⟨hi, hv⟩ j ⟨hj, hvj⟩ heq
      exact h.inj i hi j hj hv hvj heq
    · rintro fd ⟨hfd, hne⟩
      obtain ⟨i, hi, hv, rfl⟩ := ((h.afds fd).mp hfd).resolve_left hne
      exact ⟨i, ⟨hi, hv⟩, rfl⟩
  connected := h.sock
  found := fun _ hi hv => h.findFdUser hi hv

/-- A descriptor of `main` is not the end of a pipe. -/
theorem Sound.held_ge_seven {conn : ℕ → ℕ} {s : Server} {a : Owner} {p : ℕ × ℕ} (h : Sound conn s)
    (ha : Held s s.live none a p) : 7 ≤ p.1 ∧ 7 ≤ p.2 := by
  obtain ⟨id, -, h1, h2⟩ := h.wired.ends a p ha
  constructor
  · by_contra hlt
    obtain ⟨d, hd, hinh⟩ := h.std p.1 (by omega)
    rw [h1] at hd
    cases hd
    exact hinh
  · by_contra hlt
    obtain ⟨d, hd, hinh⟩ := h.std p.2 (by omega)
    rw [h2] at hd
    cases hd
    exact hinh

/-! ### A new client -/

theorem acceptClient_some {s s' : Server} {addr : List Char} {port junk : ℕ}
    (h : s.acceptClient addr port junk = some s') : s.spaceInd junk < qlen ∧
      s'.kernel = (s.kernel.alloc (.sock s.accepted)).1 ∧
      s'.afds = insert (s.kernel.alloc (.sock s.accepted)).2 s.afds ∧
      s'.namePipeRecord = s.namePipeRecord ∧ s'.accepted = s.accepted + 1 ∧
      ∀ j, s'.user j = if j = s.spaceInd junk then { s.user (s.spaceInd junk) with
        valid := true
        sock := (s.kernel.alloc (.sock s.accepted)).2
        addr := addr
        env := "bin:.".toList
        name := "(no name)".toList
        port := port
        batchFlag := false
        ignore := false } else s.user j := by
  unfold acceptClient at h
  dsimp only at h
  split_ifs at h with hi
  simp only [Option.some.injEq] at h
  subst h
  refine ⟨hi, rfl, rfl, rfl, rfl, fun j => ?_⟩
  simp only [broadcastMsg, Server.print, user_modifyUser]

/-- A new client leaves the records between users that are logged in. -/
theorem recorded_accept {s s' : Server} {addr : List Char} {port junk : ℕ} (h : Recorded s)
    (hs : s.acceptClient addr port junk = some s') : Recorded s' := by
  obtain ⟨-, -, -, hrec, -, huser⟩ := acceptClient_some hs
  have hvalid : ∀ j, (s.user j).valid = true → (s'.user j).valid = true := by
    intro j hj
    rw [huser]
    split_ifs
    · rfl
    · exact hj
  intro a r har
  rw [hrec] at har
  obtain ⟨⟨ha1, ha30, hva⟩, hr1, hr30, hvr⟩ := h a r har
  exact ⟨⟨ha1, ha30, hvalid _ hva⟩, hr1, hr30, hvalid _ hvr⟩

/-- While fewer than 30 users are logged in, `space_ind` is set, to a slot that is free. -/
theorem spaceInd_free {s : Server} (junk : ℕ) (h : s.validUsers.length < qlen) :
    (s.user (s.spaceInd junk)).valid = false := by
  cases hf : (List.range qlen).find? fun i => !(s.user i).valid with
  | some i =>
    rw [spaceInd, hf, Option.getD_some]
    simpa using List.find?_some hf
  | none =>
    have hall : s.validUsers = List.range qlen := by
      refine List.filter_eq_self.mpr fun i hi => ?_
      simpa using List.find?_eq_none.mp hf i hi
    rw [hall, List.length_range] at h
    exact absurd h (lt_irrefl _)

theorem sound_accept {conn : ℕ → ℕ} {s s' : Server} {addr : List Char} {port junk : ℕ}
    (h : Sound conn s) (hfree : s.validUsers.length < qlen)
    (hs : s.acceptClient addr port junk = some s') :
    Sound (Function.update conn (s.spaceInd junk) s.accepted) s' := by
  obtain ⟨hi, hker, hafds, hrec, -, huser⟩ := acceptClient_some hs
  have hempty := spaceInd_free junk hfree
  have hget : ∀ x, s.kernel.get x ≠ none → s'.kernel.get x = s.kernel.get x := fun x hx => by
    rw [hker, Kernel.get_alloc_of_open _ hx]
  have hnew : s'.kernel.get (s.kernel.alloc (.sock s.accepted)).2 = some (.sock s.accepted) := by
    rw [hker, Kernel.get_alloc, if_pos rfl]
  have hfresh := s.kernel.get_alloc_fd (.sock s.accepted)
  generalize (s.kernel.alloc (.sock s.accepted)).2 = fd at hafds huser hnew hfresh
  generalize s.spaceInd junk = i at hi hempty huser ⊢
  have hold : ∀ j, j ≠ i → s'.user j = s.user j := fun j hj => by rw [huser, if_neg hj]
  have hnewUser : (s'.user i).sock = fd ∧ (s'.user i).valid = true := by
    rw [huser, if_pos rfl]
    exact ⟨rfl, rfl⟩
  have hvalid : ∀ j, (s.user j).valid = true → j ≠ i := by
    rintro j hj rfl
    rw [hempty] at hj
    cases hj
  -- no client before had the new descriptor
  have hunused : ∀ j < qlen, (s.user j).valid = true → (s.user j).sock ≠ fd := by
    intro j hj hv heq
    have := h.sock j hj hv
    rw [heq, hfresh] at this
    cases this
  refine ⟨?_, ?_, ?_, ?_, ?_, ?_⟩
  · intro x hx
    obtain ⟨d, hd, hinh⟩ := h.std x hx
    exact ⟨d, (hget x (by simp [hd])).trans hd, hinh⟩
  · intro j hj hv
    by_cases hji : j = i
    · subst hji
      rw [hnewUser.1, hnew, Function.update_self]
    · rw [hold j hji] at hv ⊢
      rw [hget _ (by simp [h.sock j hj hv]), h.sock j hj hv, Function.update_of_ne hji]
  · intro x
    rw [hafds, Finset.mem_insert, h.afds]
    constructor
    · rintro (rfl | rfl | ⟨j, hj, hv, rfl⟩)
      · exact Or.inr ⟨i, hi, hnewUser.2, hnewUser.1⟩
      · exact Or.inl rfl
      · refine Or.inr ⟨j, hj, ?_, ?_⟩ <;> rw [hold j (hvalid j hv)]
        exact hv
    · rintro (rfl | ⟨j, hj, hv, rfl⟩)
      · exact Or.inr (Or.inl rfl)
      · by_cases hji : j = i
        · subst hji
          exact Or.inl hnewUser.1
        · rw [hold j hji] at hv ⊢
          exact Or.inr (Or.inr ⟨j, hj, hv, rfl⟩)
  · intro j hj k hk hvj hvk heq
    by_cases hji : j = i <;> by_cases hki : k = i
    · rw [hji, hki]
    · rw [hji, hnewUser.1, hold k hki] at heq
      rw [hold k hki] at hvk
      exact absurd heq.symm (hunused k hk hvk)
    · rw [hki, hnewUser.1, hold j hji] at heq
      rw [hold j hji] at hvj
      exact absurd heq (hunused j hj hvj)
    · rw [hold j hji, hold k hki] at heq
      rw [hold j hji] at hvj
      rw [hold k hki] at hvk
      exact h.inj j hj k hk hvj hvk heq
  · exact recorded_accept h.recorded hs
  · have hw : Wired s'.kernel (Held s s.live none) :=
      h.wired.frame (by rw [hker]; exact le_refl _)
        (fun a p ha => hget _ (h.wired.open_fst ha)) fun a p ha => hget _ (h.wired.open_snd ha)
    have hsame : ∀ j, (s'.user j).numPipeVec = (s.user j).numPipeVec ∧
        (s'.user j).namePipe = (s.user j).namePipe := by
      intro j
      rw [huser]
      split_ifs with hj
      · rw [hj]
        exact ⟨rfl, rfl⟩
      · exact ⟨rfl, rfl⟩
    refine hw.mono ?_
    rintro (⟨w, e⟩ | ⟨a, r⟩ | -) p hp
    · refine ⟨?_, hp.2⟩
      have he := hp.1
      rw [Server.live, (hsame w).1] at he
      exact he
    · refine ⟨?_, ?_⟩
      · rw [← hrec]
        exact hp.1
      · rw [hp.2, (hsame _).2]
    · cases hp

/-! ### A line of a client -/

@[simp] theorem dupStd_user (s : Server) (i o e : ℕ) : (s.dupStd i o e).user = s.user := rfl

theorem finish_user (s : Server) (fd u : ℕ) (zero : Bool) : (s.finish fd u zero).user = s.user := by
  cases zero <;> rfl

theorem finish_record (s : Server) (fd u : ℕ) (zero : Bool) :
    (s.finish fd u zero).namePipeRecord = s.namePipeRecord := by
  cases zero <;> rfl

theorem finish_environ (s : Server) (fd u : ℕ) (zero : Bool) :
    (s.finish fd u zero).environ = s.environ := by
  cases zero <;> rfl

theorem finish_accepted (s : Server) (fd u : ℕ) (zero : Bool) :
    (s.finish fd u zero).accepted = s.accepted := by
  cases zero <;> rfl

@[simp] theorem dupStd_live (s : Server) (i o e : ℕ) : (s.dupStd i o e).live = s.live := rfl

/-- The three `dup2` touch 0, 1 and 2 only. -/
theorem dupStd_get_of_ge (s : Server) (i o e : ℕ) {x : ℕ} (hx : 3 ≤ x) :
    (s.dupStd i o e).kernel.get x = s.kernel.get x := by
  show (((s.kernel.dup2 i 0).dup2 o 1).dup2 e 2).get x = _
  rw [Kernel.get_dup2_of_ne _ (by omega), Kernel.get_dup2_of_ne _ (by omega),
    Kernel.get_dup2_of_ne _ (by omega)]

/-- After the three `dup2` the standard descriptors are copies. -/
theorem dupStd_get_std (s : Server) {i o e : ℕ} {a b d : Desc} (hi : s.kernel.get i = some a)
    (ho : s.kernel.get o = some b) (he : s.kernel.get e = some d) (h3 : 3 ≤ i ∧ 3 ≤ o ∧ 3 ≤ e) :
    (s.dupStd i o e).kernel.get 0 = some a ∧ (s.dupStd i o e).kernel.get 1 = some b ∧
      (s.dupStd i o e).kernel.get 2 = some d := by
  have h0 : (s.kernel.dup2 i 0).get 0 = some a := FdTable.get_dup2_dst _ _ hi
  have h1 : ((s.kernel.dup2 i 0).dup2 o 1).get 1 = some b :=
    FdTable.get_dup2_dst _ _ ((Kernel.get_dup2_of_ne _ (by omega)).trans ho)
  have h2 : (((s.kernel.dup2 i 0).dup2 o 1).dup2 e 2).get 2 = some d := by
    refine FdTable.get_dup2_dst _ _ ?_
    exact ((Kernel.get_dup2_of_ne _ (by omega)).trans (Kernel.get_dup2_of_ne _ (by omega))).trans he
  refine ⟨?_, ?_, h2⟩
  · exact (Kernel.get_dup2_of_ne _ (by decide)).trans ((Kernel.get_dup2_of_ne _ (by decide)).trans h0)
  · exact (Kernel.get_dup2_of_ne _ (by decide)).trans h1

/-- What `finish` does to the descriptors: the standard ones come back, and the socket of a client
    that has left is closed. -/
theorem finish_get {s : Server} {fd u x : ℕ} {zero : Bool} (hx : 3 ≤ x) :
    (s.finish fd u zero).kernel.get x =
      if zero = true ∧ x = fd then none else s.kernel.get x := by
  cases zero with
  | true =>
    show ((s.dupStd fdIn fdOut fdErr).kernel.close fd).get x = _
    rw [Kernel.get_close, dupStd_get_of_ge s _ _ _ hx]
    simp
  | false =>
    simp only [finish, Bool.false_eq_true, if_false, false_and]
    exact dupStd_get_of_ge _ _ _ _ hx

theorem finish_get_std {s : Server} {fd u : ℕ} {zero : Bool} (hfd : 3 ≤ fd)
    (hstd : ∀ x, 4 ≤ x → x < 7 → ∃ d, s.kernel.get x = some d ∧ Inherited d) :
    ∀ x < 3, ∃ d, (s.finish fd u zero).kernel.get x = some d ∧ Inherited d := by
  obtain ⟨a, ha, hinhA⟩ := hstd 4 (by omega) (by omega)
  obtain ⟨b, hb, hinhB⟩ := hstd 5 (by omega) (by omega)
  obtain ⟨d, hd, hinhD⟩ := hstd 6 (by omega) (by omega)
  intro x hx
  have hdup : ∃ d, (s.dupStd fdIn fdOut fdErr).kernel.get x = some d ∧ Inherited d := by
    obtain ⟨h0, h1, h2⟩ := dupStd_get_std s ha hb hd (by omega)
    rcases (by omega : x = 0 ∨ x = 1 ∨ x = 2) with rfl | rfl | rfl
    · exact ⟨a, h0, hinhA⟩
    · exact ⟨b, h1, hinhB⟩
    · exact ⟨d, h2, hinhD⟩
  obtain ⟨c, hc, hinh⟩ := hdup
  refine ⟨c, ?_, hinh⟩
  cases zero with
  | true =>
    show ((s.dupStd fdIn fdOut fdErr).kernel.close fd).get x = _
    rw [Kernel.get_close, if_neg (by omega), hc]
  | false => exact hc

/-- The server when `npshell` is called: 0, 1 and 2 are the socket of the client. -/
theorem Sound.dupStd {conn : ℕ → ℕ} {s : Server} {u : ℕ} (h : Sound conn s) (hu : u < qlen)
    (hv : (s.user u).valid = true) :
    let t := s.dupStd (s.user u).sock (s.user u).sock (s.user u).sock
    Wired t.kernel (Held t t.live none) ∧ (∀ x < 3, Plain t.kernel x) ∧
      ∀ x, Fixed t x → x ≠ 0 ∧ Plain t.kernel x := by
  intro t
  have hge := h.ge_seven hu hv
  have hsock := h.sock u hu hv
  have hplain : ∀ {k : Kernel} {x : ℕ} {d : Desc}, k.get x = some d →
      (∀ id, d ≠ .pipeR id ∧ d ≠ .pipeW id) → Plain k x := by
    intro k x d hd hne
    refine ⟨by simp [hd], fun id => ?_⟩
    rw [hd]
    exact ⟨fun hcon => (hne id).1 (by cases hcon; rfl), fun hcon => (hne id).2 (by cases hcon; rfl)⟩
  refine ⟨?_, ?_, ?_⟩
  · have hw : Wired t.kernel (Held s s.live none) := h.wired.frame (le_refl _)
      (fun a p ha => dupStd_get_of_ge s _ _ _ (by have := (h.held_ge_seven ha).1; omega))
      fun a p ha => dupStd_get_of_ge s _ _ _ (by have := (h.held_ge_seven ha).2; omega)
    exact hw.mono fun _ _ ha => ha
  · intro x hx
    obtain ⟨h0, h1, h2⟩ := dupStd_get_std s hsock hsock hsock (by omega)
    rcases (by omega : x = 0 ∨ x = 1 ∨ x = 2) with rfl | rfl | rfl
    · exact hplain h0 fun id => ⟨by simp, by simp⟩
    · exact hplain h1 fun id => ⟨by simp, by simp⟩
    · exact hplain h2 fun id => ⟨by simp, by simp⟩
  · rintro x (hx | ⟨i, hi, hvi, rfl⟩)
    · obtain ⟨d, hd, hinh⟩ := h.std x hx.2
      refine ⟨by omega, hplain ((dupStd_get_of_ge s _ _ _ hx.1).trans hd) fun id => ?_⟩
      constructor
      · rintro rfl
        exact hinh
      · rintro rfl
        exact hinh
    · have hsi := h.ge_seven hi hvi
      refine ⟨by simp only [dupStd_user, t]; omega, ?_⟩
      have hget : t.kernel.get (s.user i).sock = some (.sock (conn i)) :=
        (dupStd_get_of_ge s _ _ _ (by omega)).trans (h.sock i hi hvi)
      exact hplain hget fun id => ⟨by simp, by simp⟩

/-- A line of a user that is logged in is a call of `npshell` for it. -/
theorem Sound.step_line {conn : ℕ → ℕ} {s : Server} {u : ℕ} {inp : LineInput}
    {r : Server × List Spawn × Option PipeError} (h : Sound conn s) (hu : u < qlen ∧ (s.user u).valid = true)
    (hs : s.step (.line (s.user u).sock inp) = some r) :
    ∃ ret, npshell (s.dupStd (s.user u).sock (s.user u).sock (s.user u).sock) u inp = some ret ∧
      r = (ret.server.finish (s.user u).sock u ret.zero, ret.spawned, ret.error) := by
  simp only [step] at hs
  split_ifs at hs
  simp only [h.findFdUser hu.1 hu.2] at hs
  cases hn : npshell (s.dupStd (s.user u).sock (s.user u).sock (s.user u).sock) u inp with
  | none => simp [hn] at hs
  | some ret =>
    simp only [hn, Option.some.injEq] at hs
    exact ⟨ret, rfl, hs.symm⟩

theorem sound_finish {conn : ℕ → ℕ} {s : Server} {u : ℕ} {r : Return} (h : Sound conn s)
    (hu : u < qlen) (hv : (s.user u).valid = true)
    (ha : AfterCall (s.dupStd (s.user u).sock (s.user u).sock (s.user u).sock) u r) :
    Sound conn (r.server.finish (s.user u).sock u r.zero) := by
  have hge := h.ge_seven hu hv
  set fd := (s.user u).sock with hfd
  set t := r.server.finish fd u r.zero with ht
  have huser : t.user = r.server.user := finish_user ..
  have hrecord : t.namePipeRecord = r.server.namePipeRecord := finish_record ..
  have hvalid : ∀ i, (t.user i).valid = true →
      (s.user i).valid = true ∧ (r.zero = true → i ≠ u) := by
    intro i hi
    rw [huser, ha.valid] at hi
    split_ifs at hi with hout
    exact ⟨hi, fun hz hiu => hout ⟨hz, hiu⟩⟩
  have hsock : ∀ i, (t.user i).sock = (s.user i).sock := fun i => by rw [huser, ha.sock]; rfl
  have hkept : ∀ x, Fixed s x → 3 ≤ x → (r.zero = true → x ≠ fd) →
      t.kernel.get x = s.kernel.get x := by
    intro x hx h3 hne
    rw [ht, finish_get h3, if_neg (fun hcon => hne hcon.1 hcon.2), ha.kept x hx,
      dupStd_get_of_ge s _ _ _ h3]
  have hstd : ∀ x, 3 ≤ x → x < 7 → ∃ d, t.kernel.get x = some d ∧ Inherited d := by
    intro x h3 h7
    rw [hkept x (Or.inl ⟨h3, h7⟩) h3 (fun _ => by omega)]
    exact h.std x h7
  refine ⟨?_, ?_, ?_, ?_, ?_, ?_⟩
  · intro x hx
    by_cases h3 : 3 ≤ x
    · exact hstd x h3 hx
    · refine finish_get_std (by omega) (fun y h4 h7 => ?_) x (by omega)
      rw [ha.kept y (Or.inl ⟨by omega, h7⟩), dupStd_get_of_ge s _ _ _ (by omega)]
      exact h.std y h7
  · intro i hi hvi
    obtain ⟨hvs, hout⟩ := hvalid i hvi
    have hsi := h.ge_seven hi hvs
    rw [hsock, hkept _ (Or.inr ⟨i, hi, hvs, rfl⟩) (by omega) fun hz heq => ?_]
    · exact h.sock i hi hvs
    · exact hout hz (h.inj i hi u hu hvs hv heq)
  · intro x
    have hleft : x ∈ t.afds ↔ x ∈ s.afds ∧ ¬ (r.zero = true ∧ x = fd) := by
      have hafds : r.server.afds = s.afds := ha.afds
      rw [ht]
      cases hz : r.zero with
      | true =>
        simp only [finish, if_true, Finset.mem_erase, true_and]
        exact ⟨fun hm => ⟨hafds ▸ hm.2, hm.1⟩, fun hm => ⟨hm.2, hafds ▸ hm.1⟩⟩
      | false =>
        simp only [finish, Bool.false_eq_true, if_false, false_and, not_false_iff, and_true]
        exact hafds ▸ Iff.rfl
    have hback : ∀ i, (s.user i).valid = true → (r.zero = true → i ≠ u) →
        (t.user i).valid = true := by
      intro i hvi hne
      rw [huser, ha.valid, if_neg (fun hcon => hne hcon.1 hcon.2)]
      exact hvi
    rw [hleft, h.afds]
    constructor
    · rintro ⟨rfl | ⟨i, hi, hvi, rfl⟩, hne⟩
      · exact Or.inl rfl
      · refine Or.inr ⟨i, hi, hback i hvi fun hz hiu => hne ⟨hz, ?_⟩, hsock i⟩
        rw [hiu]
    · rintro (rfl | ⟨i, hi, hvi, rfl⟩)
      · refine ⟨Or.inl rfl, fun hcon => ?_⟩
        have := hcon.2
        simp only [msock] at this
        omega
      · obtain ⟨hvs, hout⟩ := hvalid i hvi
        rw [hsock]
        exact ⟨Or.inr ⟨i, hi, hvs, rfl⟩,
          fun hcon => hout hcon.1 (h.inj i hi u hu hvs hv hcon.2)⟩
  · intro i hi j hj hvi hvj heq
    rw [hsock, hsock] at heq
    exact h.inj i hi j hj (hvalid i hvi).1 (hvalid j hvj).1 heq
  · intro a b hab
    rw [hrecord] at hab
    rw [huser]
    exact ha.recorded a b hab
  · -- the end of a pipe is not the socket that is closed
    have hend : ∀ x, 3 ≤ x → (∀ n, r.server.kernel.get x ≠ some (.sock n)) →
        t.kernel.get x = r.server.kernel.get x := by
      intro x h3 hx
      rw [ht, finish_get h3, if_neg]
      rintro ⟨-, rfl⟩
      refine hx (conn u) ?_
      exact ((ha.kept fd (Or.inr ⟨u, hu, hv, rfl⟩)).trans (dupStd_get_of_ge s _ _ _ h3)).trans
        (h.sock u hu hv)
    have hpipes : r.server.kernel.pipes ≤ t.kernel.pipes := by
      rw [ht]
      cases r.zero <;> exact le_refl _
    have hw : Wired t.kernel (Held r.server r.server.live none) := by
      refine ha.wired.frame hpipes (fun a p hp => ?_) fun a p hp => ?_
      · obtain ⟨id, -, h1, -⟩ := ha.wired.ends a p hp
        exact hend _ (ha.low a p hp).1 fun n hn => by simp [h1] at hn
      · obtain ⟨id, -, -, h2⟩ := ha.wired.ends a p hp
        exact hend _ (ha.low a p hp).2 fun n hn => by simp [h2] at hn
    refine hw.mono ?_
    rintro (⟨w, e⟩ | ⟨a, b⟩ | -) p hp
    · refine ⟨?_, hp.2⟩
      have he := hp.1
      rw [Server.live, huser] at he
      exact he
    · refine ⟨?_, ?_⟩
      · rw [← hrecord]
        exact hp.1
      · rw [hp.2, huser]
    · cases hp

/-- A call that reads its line well leaves the tables sound. -/
theorem Sound.call {conn : ℕ → ℕ} {s : Server} {u : ℕ} {inp : LineInput} {r : Return} (h : Sound conn s)
    (hu : u < qlen) (hv : (s.user u).valid = true)
    (hread : (parse ((s.dupStd (s.user u).sock (s.user u).sock (s.user u).sock).setPath u) u inp).All
      (Reading ((s.dupStd (s.user u).sock (s.user u).sock (s.user u).sock).setPath u) u))
    (hn : npshell (s.dupStd (s.user u).sock (s.user u).sock (s.user u).sock) u inp = some r) :
    Sound conn (r.server.finish (s.user u).sock u r.zero) := by
  obtain ⟨hw, hstd, hfixed⟩ := h.dupStd hu hv
  have hlow : ∀ a p, Held s s.live none a p → 3 ≤ p.1 ∧ 3 ≤ p.2 := fun a p ha => by
    have := h.held_ge_seven ha
    omega
  exact sound_finish h hu hv (npshell_after_reading hread hn h.recorded hw hstd hfixed hlow)

/-! ### A run -/

theorem sound_step {conn : ℕ → ℕ} {s : Server} {i : Input} {r : Server × List Spawn × Option PipeError}
    (h : Sound conn s) (hc : s.Careful i) (hs : s.step i = some r) :
    Sound (s.login conn i) r.1 := by
  cases i with
  | eof fd => exact hc.elim
  | accept addr port junk =>
    simp only [step, Option.map_eq_some_iff] at hs
    obtain ⟨s', hs', rfl⟩ := hs
    exact sound_accept h hc hs'
  | line fd inp =>
    simp only [step] at hs
    split_ifs at hs with hfd
    cases hf : s.findFdUser fd with
    | none => simp [hf] at hs
    | some u =>
      simp only [hf] at hs
      obtain ⟨hu, hv, rfl⟩ := findFdUser_some hf
      obtain ⟨hw, -, -⟩ := h.dupStd hu hv
      cases hn : npshell (s.dupStd (s.user u).sock (s.user u).sock (s.user u).sock) u inp with
      | none => simp [hn] at hs
      | some ret =>
        simp only [hn, Option.some.injEq] at hs
        subst hs
        exact h.call hu hv (parse_reading h.recorded hw ⟨hu, hv⟩ (hc u hf)) hn

theorem sound_run : ∀ {is : List Input} {conn : ℕ → ℕ} {s t : Server}, Sound conn s →
    CarefulRun s is → s.run is = some t → Sound (logins s is conn) t
  | [], conn, s, t, h, _, hrun => by
    simp only [run, Option.some.injEq] at hrun
    exact hrun ▸ h
  | i :: is, conn, s, t, h, ⟨hc, hrest⟩, hrun => by
    rw [run, Option.bind_eq_some_iff] at hrun
    obtain ⟨r, hr, hrun⟩ := hrun
    rw [logins, hr]
    exact sound_run (sound_step h hc hr) (hrest r hr) hrun

theorem sound_init (environ : Environ) (conn : ℕ → ℕ) : Sound conn (init environ) where
  std := by
    intro x hx
    rcases (by omega : x = 0 ∨ x = 1 ∨ x = 2 ∨ x = 3 ∨ x = 4 ∨ x = 5 ∨ x = 6) with
      rfl | rfl | rfl | rfl | rfl | rfl | rfl <;> exact ⟨_, rfl, trivial⟩
  sock := fun _ _ hv => by cases hv
  afds := fun fd => by simp [init]
  inj := fun _ _ _ _ hv => by cases hv
  recorded := fun _ _ hr => by cases hr
  wired := by
    refine ⟨?_, ?_⟩
    · rintro (⟨w, e⟩ | ⟨a, r⟩ | -) p hp
      · cases hp.1
      · cases hp.1
      · cases hp
    · rintro (⟨w, e⟩ | ⟨a, r⟩ | -) b p q hp
      · cases hp.1
      · cases hp.1
      · cases hp

/-- A client pipes to itself and leaves, and two others come, of which one reads its own pipe. -/
def carefulInputs : List Input :=
  let plain := fun (line : List Char) => (⟨line, [], ⟨true, true, none⟩, false⟩ : LineInput)
  [.accept [] 0 0, .line 7 (plain ['l', 's', ' ', '>', '1']), .accept [] 0 0,
    .line 7 (plain ['c', 'a', 't', ' ', '<', '1']), .line 7 (plain ['e', 'x', 'i', 't']),
    .accept [] 0 0]

end NetProg.Server
