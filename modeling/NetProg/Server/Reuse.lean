import NetProg.Server.Identity
import NetProg.Server.Leaving

/-! What a new client finds in the slot of one that has left.

    Pipes are numbered in the order they are made. If nothing is left in the slot at the login, every
    descriptor that the server keeps for the slot from then on is, while it is the read end of a pipe,
    the read end of a pipe made later. So no process of the new client reads what came before. -/

namespace NetProg.Server

/-! ### Pipes made after a moment -/

/-- A descriptor that is not the read end of one of the first `P` pipes. -/
def Young (P : ℕ) (k : Kernel) (x : ℕ) : Prop := ∀ id, k.get x = some (.pipeR id) → P ≤ id

/-- From `k` to `k'` a descriptor becomes the read end of new pipes only. -/
structure Onward (k k' : Kernel) : Prop where
  pipes : k.pipes ≤ k'.pipes
  reads : ∀ x id, k'.get x = some (.pipeR id) → k.get x = some (.pipeR id) ∨ k.pipes ≤ id

theorem Onward.refl (k : Kernel) : Onward k k := ⟨le_refl _, fun _ _ h => Or.inl h⟩

theorem Onward.trans {a b c : Kernel} (h : Onward a b) (h' : Onward b c) : Onward a c := by
  refine ⟨h.pipes.trans h'.pipes, fun x id hx => ?_⟩
  rcases h'.reads x id hx with hx | hle
  · exact h.reads x id hx
  · exact Or.inr (h.pipes.trans hle)

theorem Onward.pipe (k : Kernel) : Onward k k.pipe := by
  refine ⟨Nat.le_succ _, fun x id hx => ?_⟩
  rw [Kernel.get_pipe] at hx
  split_ifs at hx
  · cases hx
    exact Or.inr (le_refl _)
  · cases hx
  · exact Or.inl hx

theorem Onward.closeAll (k : Kernel) (l : List ℕ) : Onward k (k.closeAll l) := by
  refine ⟨(Kernel.pipes_closeAll l k).ge, fun x id hx => ?_⟩
  rw [Kernel.get_closeAll] at hx
  split_ifs at hx
  exact Or.inl hx

theorem Onward.of_get {k k' : Kernel} (hget : ∀ x, k'.get x = k.get x) (hpipes : k'.pipes = k.pipes) :
    Onward k k' := ⟨hpipes.ge, fun x _ hx => Or.inl (hget x ▸ hx)⟩

theorem Onward.forkKernel (v : Vars) (pc : ℕ) (last : Bool) :
    Onward v.kernel (v.forkKernel pc last) := by
  rw [Vars.forkKernel]
  split_ifs
  · exact (Onward.pipe _).trans (.closeAll _ _)
  · exact .closeAll _ _

theorem Onward.fork (v : Vars) (opens : Opens) (pc : ℕ) (last : Bool) :
    Onward v.kernel (v.forkProcess opens pc last).1.kernel := by
  rw [(Vars.forkProcess_fst v opens pc last).1]
  split_ifs
  · exact (Onward.pipe _).trans (.closeAll _ _)
  · exact .closeAll _ _

theorem Young.onward {P x : ℕ} {k k' : Kernel} (h : Young P k x) (hP : P ≤ k.pipes)
    (ho : Onward k k') : Young P k' x := by
  intro id hx
  rcases ho.reads x id hx with hx | hle
  · exact h id hx
  · exact hP.trans hle

theorem Young.of_none {P x : ℕ} {k : Kernel} (h : k.get x = none) : Young P k x := by
  intro id hx
  rw [h] at hx
  cases hx

theorem Young.of_inherited {P x : ℕ} {k : Kernel} (h : ∃ d, k.get x = some d ∧ Inherited d) :
    Young P k x := by
  intro id hx
  obtain ⟨d, hd, hinh⟩ := h
  rw [hx] at hd
  cases hd
  exact hinh.elim

theorem below_mono {n m : ℕ} {t : FdTable Desc} (h : Vars.Below n t) (hnm : n ≤ m) :
    Vars.Below m t := fun x id hx => (h x id hx).trans_le hnm

theorem below_pipe {k : Kernel} (h : Vars.Below k.pipes k.fds) :
    Vars.Below k.pipe.pipes k.pipe.fds := by
  intro x id hx
  have hx : k.pipe.get x = some (.pipeR id) ∨ k.pipe.get x = some (.pipeW id) := hx
  rw [Kernel.get_pipe] at hx
  split_ifs at hx
  · simp only [Option.some.injEq, Desc.pipeR.injEq, reduceCtorEq, or_false] at hx
    rw [Kernel.pipes_pipe]
    omega
  · simp only [Option.some.injEq, Desc.pipeW.injEq, reduceCtorEq, false_or] at hx
    rw [Kernel.pipes_pipe]
    omega
  · exact (h x id hx).trans (Nat.lt_succ_self _)

theorem below_closeAll {n : ℕ} {k : Kernel} (h : Vars.Below n k.fds) (l : List ℕ) :
    Vars.Below n (k.closeAll l).fds := by
  intro x id hx
  have hx : (k.closeAll l).get x = some (.pipeR id) ∨ (k.closeAll l).get x = some (.pipeW id) := hx
  rw [Kernel.get_closeAll] at hx
  split_ifs at hx
  · simp at hx
  · exact h x id hx

theorem below_of_get {k k' : Kernel} (hget : ∀ x, k'.get x = k.get x) (hpipes : k'.pipes = k.pipes)
    (h : Vars.Below k.pipes k.fds) : Vars.Below k'.pipes k'.fds := by
  intro x id hx
  have hx : k'.get x = some (.pipeR id) ∨ k'.get x = some (.pipeW id) := hx
  rw [hget] at hx
  rw [hpipes]
  exact h x id hx

theorem below_forkKernel {v : Vars} (pc : ℕ) (last : Bool) (h : Vars.Below v.kernel.pipes v.kernel.fds) :
    Vars.Below (v.forkKernel pc last).pipes (v.forkKernel pc last).fds := by
  rw [Vars.forkKernel, Kernel.pipes_closeAll]
  split_ifs
  · exact below_closeAll (below_pipe h) _
  · exact below_closeAll h _

theorem below_fork {v : Vars} (opens : Opens) (pc : ℕ) (last : Bool)
    (h : Vars.Below v.kernel.pipes v.kernel.fds) :
    Vars.Below (v.forkProcess opens pc last).1.kernel.pipes
      (v.forkProcess opens pc last).1.kernel.fds := by
  rw [(Vars.forkProcess_fst v opens pc last).1, Kernel.pipes_closeAll]
  split_ifs
  · exact below_closeAll (below_pipe h) _
  · exact below_closeAll h _

/-! ### The descriptors kept for a slot -/

/-- The numbers the server keeps for the user in slot `w`: its socket, the ends of its number pipes,
    and those of the user pipes recorded for it. -/
def Refers (s : Server) (vecs : ℕ → List NumberPipe) (w x : ℕ) : Prop :=
  x = (s.user w).sock ∨ (∃ e ∈ vecs w, x = e.p0 ∨ x = e.p1) ∨
    ∃ a, s.namePipeRecord a (w + 1) = true ∧
      (x = ((s.user w).namePipe (a - 1)).1 ∨ x = ((s.user w).namePipe (a - 1)).2)

/-- The number pipes of the users between two lines. -/
def vecs (s : Server) (w : ℕ) : List NumberPipe := (s.user w).numPipeVec

/-- The number pipes of the users during a call. -/
def Call.vecs (c : Call) : ℕ → List NumberPipe :=
  Function.update c.server.vecs c.u c.vars.numPipeVec

/-- During a call the user has also the ends of the user pipe it has taken. -/
def Call.Refers (c : Call) (taken : Option (ℕ × ℕ)) (w x : ℕ) : Prop :=
  Server.Refers c.server c.vecs w x ∨ (w = c.u ∧ ∃ p, taken = some p ∧ (x = p.1 ∨ x = p.2))

/-- A step that keeps the tables of users and the number pipes keeps what is kept for them. -/
theorem refers_of_same {c c' : Call} {taken : Option (ℕ × ℕ)} {w x : ℕ} (h : c'.Refers taken w x)
    (hvec : c'.vars.numPipeVec = c.vars.numPipeVec) (hu : c'.u = c.u)
    (huser : c'.server.user = c.server.user)
    (hrecord : c'.server.namePipeRecord = c.server.namePipeRecord) : c.Refers taken w x := by
  have hvecs : c'.vecs = c.vecs := by
    rw [Call.vecs, Call.vecs, hu, hvec]
    exact congrArg (fun f => Function.update f c.u c.vars.numPipeVec)
      (funext fun w => congrArg User.numPipeVec (congrFun huser w))
  rwa [Call.Refers, Server.Refers, hvecs, hu, huser, hrecord] at h

/-- The pair that is taken was kept for the user by its record. -/
theorem refers_take {c c' : Call} {command : List Char} {id : ℤ} {w x : ℕ}
    (htake : c.takeUserPipe command id = .ok c') (h : c'.Refers c'.takenPair w x) :
    c.Refers c.takenPair w x := by
  obtain ⟨-, hrecord, rfl⟩ := takeUserPipe_ok.mp htake
  rcases h with (hx | hx | ⟨a, har, hx⟩) | ⟨hw, p, hp, hx⟩
  · exact Or.inl (Or.inl hx)
  · exact Or.inl (Or.inr (Or.inl hx))
  · exact Or.inl (Or.inr (Or.inr ⟨a, (record_taken.mp har).1, hx⟩))
  · obtain rfl : (c.server.user c.u).namePipe (id.toNat - 1) = p := Option.some.inj hp
    obtain rfl : w = c.u := hw
    exact Or.inl (Or.inr (Or.inr ⟨id.toNat, hrecord, hx⟩))

theorem vecs_made (c : Call) (receiver : ℕ) : (c.made receiver).vecs = c.vecs := by
  funext w
  by_cases hw : w = c.u
  · subst hw
    rw [Call.vecs, Call.vecs, show (c.made receiver).u = c.u from rfl, Function.update_self,
      Function.update_self]
    rfl
  · rw [Call.vecs, Call.vecs, show (c.made receiver).u = c.u from rfl, Function.update_of_ne hw,
      Function.update_of_ne hw, Server.vecs, Server.vecs, numPipeVec_made]

/-- What a new user pipe adds was free. -/
theorem refers_make {c c' : Call} {id : ℤ} {w x : ℕ} (hmake : c.makeUserPipe id = .ok c')
    (h : c'.Refers c'.takenPair w x) : c.Refers c.takenPair w x ∨ c.vars.kernel.get x = none := by
  obtain ⟨hid, -, rfl⟩ := makeUserPipe_ok.mp hmake
  obtain ⟨h1, -⟩ := checkIdExist_iff.mp hid
  -- a pair of the table of users is what it was, or the new ends
  have hpair : ∀ w b, ((c.made id.toNat).server.user w).namePipe b = (c.server.user w).namePipe b ∨
      ((c.made id.toNat).server.user w).namePipe b =
        (c.vars.kernel.pipeFd0, c.vars.kernel.pipeFd1) := by
    intro w b
    rw [user_made]
    split_ifs with hw
    · by_cases hb : b = c.u
      · subst hb
        exact Or.inr (by simp [User.setNamePipe])
      · left
        rw [hw]
        exact Function.update_of_ne hb _ _
    · exact Or.inl rfl
  have hnew : ∀ x, x = c.vars.kernel.pipeFd0 ∨ x = c.vars.kernel.pipeFd1 →
      c.vars.kernel.get x = none := by
    rintro x (rfl | rfl)
    · exact Kernel.get_pipeFd0 _
    · exact Kernel.get_pipeFd1 _
  rcases h with (hx | hx | ⟨a, har, hx⟩) | ⟨rfl, p, hp, hx⟩
  · exact Or.inl (Or.inl (Or.inl (hx.trans (sock_made ..))))
  · rw [vecs_made] at hx
    exact Or.inl (Or.inl (Or.inr (Or.inl hx)))
  · rcases record_made.mp har with har | ⟨rfl, hr⟩
    · rcases hpair w (a - 1) with heq | heq
      · rw [heq] at hx
        exact Or.inl (Or.inl (Or.inr (Or.inr ⟨a, har, hx⟩)))
      · rw [heq] at hx
        exact Or.inr (hnew x hx)
    · rw [show w = id.toNat - 1 by omega, Nat.add_sub_cancel, namePipe_made_self] at hx
      exact Or.inr (hnew x hx)
  · cases hsender : c.sender with
    | none =>
      rw [Call.takenPair, show (c.made id.toNat).sender = none from hsender] at hp
      cases hp
    | some a =>
      rw [Call.takenPair, show (c.made id.toNat).sender = some a from hsender, Option.map_some,
        Option.some.injEq] at hp
      subst hp
      rcases hpair c.u (a - 1) with heq | heq
      · have heq' : ((c.made id.toNat).server.user (c.made id.toNat).u).namePipe (a - 1) =
            (c.server.user c.u).namePipe (a - 1) := heq
        rw [heq'] at hx
        exact Or.inl (Or.inr ⟨rfl, _, by rw [Call.takenPair, hsender, Option.map_some], hx⟩)
      · have heq' : ((c.made id.toNat).server.user (c.made id.toNat).u).namePipe (a - 1) =
            (c.vars.kernel.pipeFd0, c.vars.kernel.pipeFd1) := heq
        rw [heq'] at hx
        exact Or.inr (hnew x hx)

/-- What a new number pipe adds was free. -/
theorem refers_pipeOut {c : Call} {shock : Bool} {n : ℤ} {w x : ℕ}
    (h : (c.pipeOut shock n).Refers (c.pipeOut shock n).takenPair w x) :
    c.Refers c.takenPair w x ∨ c.vars.kernel.get x = none := by
  by_cases hn : ∃ e ∈ c.vars.numPipeVec, e.restLine = n
  · obtain ⟨-, hvec⟩ := pipeOut_of_mem shock hn
    exact Or.inl (refers_of_same h hvec rfl rfl rfl)
  · obtain ⟨-, hvec⟩ := pipeOut_of_not_mem shock hn
    rcases h with (hx | ⟨e, he, hx⟩ | hx) | hx
    · exact Or.inl (Or.inl (Or.inl hx))
    · rw [Call.vecs, hvec, show (c.pipeOut shock n).u = c.u from rfl] at he
      by_cases hw : w = c.u
      · subst hw
        rw [Function.update_self] at he
        rcases List.mem_append.mp he with he | he
        · refine Or.inl (Or.inl (Or.inr (Or.inl ⟨e, ?_, hx⟩)))
          rw [Call.vecs, Function.update_self]
          exact he
        · rw [List.mem_singleton.mp he] at hx
          right
          rcases hx with rfl | rfl
          · exact Kernel.get_pipeFd0 _
          · exact Kernel.get_pipeFd1 _
      · rw [Function.update_of_ne hw] at he
        refine Or.inl (Or.inl (Or.inr (Or.inl ⟨e, ?_, hx⟩)))
        rw [Call.vecs, Function.update_of_ne hw]
        exact he
    · exact Or.inl (Or.inl (Or.inr (Or.inr hx)))
    · exact Or.inl (Or.inr hx)

theorem refers_fork {c : Call} {inp : LineInput} {pc : ℕ} {last : Bool} {argv : List Token} {w x : ℕ}
    (h : (c.fork inp pc last argv).Refers (c.fork inp pc last argv).vars.namePipeIn w x) :
    c.Refers c.vars.namePipeIn w x := by
  obtain ⟨-, hvec, -, hname, -⟩ := Vars.forkProcess_fst c.vars inp.opens pc last
  have ht := fork_tables c inp pc last argv
  rcases h with (hx | ⟨e, he, hx⟩ | ⟨a, har, hx⟩) | ⟨rfl, p, hp, -⟩
  · exact Or.inl (Or.inl (hx.trans (ht.sock w)))
  · refine Or.inl (Or.inr (Or.inl ⟨e, ?_, hx⟩))
    by_cases hw : w = c.u
    · subst hw
      rw [Call.vecs, show (c.fork inp pc last argv).u = c.u from rfl, Function.update_self,
        show (c.fork inp pc last argv).vars.numPipeVec = c.vars.keptPipes from hvec] at he
      rw [Call.vecs, Function.update_self]
      exact c.vars.keptPipes_subset he
    · rw [Call.vecs, show (c.fork inp pc last argv).u = c.u from rfl, Function.update_of_ne hw,
        Server.vecs, ht.numPipeVec] at he
      rw [Call.vecs, Function.update_of_ne hw]
      exact he
  · rw [ht.record] at har
    rw [ht.namePipe] at hx
    exact Or.inl (Or.inr (Or.inr ⟨a, har, hx⟩))
  · rw [show (c.fork inp pc last argv).vars.namePipeIn = none from hname] at hp
    cases hp

/-- What is kept for a slot stays what it is when the server's tables lose records only. -/
theorem refers_of_tables {c : Call} {s' : Server} {taken : Option (ℕ × ℕ)} {w x : ℕ}
    (hsock : ∀ i, (s'.user i).sock = (c.server.user i).sock)
    (hvec : ∀ i, (s'.user i).numPipeVec = (c.server.user i).numPipeVec)
    (hpair : ∀ i, (s'.user i).namePipe = (c.server.user i).namePipe)
    (hrecord : ∀ a r, s'.namePipeRecord a r = true → c.server.namePipeRecord a r = true)
    (h : Call.Refers { c with server := s' } taken w x) : c.Refers taken w x := by
  rcases h with (hx | ⟨e, he, hx⟩ | ⟨a, har, hx⟩) | hx
  · exact Or.inl (Or.inl (hx.trans (hsock w)))
  · refine Or.inl (Or.inr (Or.inl ⟨e, ?_, hx⟩))
    by_cases hw : w = c.u
    · subst hw
      rw [Call.vecs, Function.update_self] at he ⊢
      exact he
    · rw [Call.vecs, Function.update_of_ne hw, Server.vecs, hvec] at he
      rw [Call.vecs, Function.update_of_ne hw]
      exact he
  · rw [hpair] at hx
    exact Or.inl (Or.inr (Or.inr ⟨a, hrecord _ _ har, hx⟩))
  · exact Or.inr hx

theorem refers_builtin {c : Call} {s' : Server} {taken : Option (ℕ × ℕ)} {w x : ℕ}
    (hs : SameTables c.server s') (h : Call.Refers { c with server := s' } taken w x) :
    c.Refers taken w x :=
  refers_of_tables hs.sock hs.numPipeVec hs.namePipe (fun _ _ hr => hs.record ▸ hr) h

theorem refers_exit {c : Call} {taken : Option (ℕ × ℕ)} {w x : ℕ}
    (h : Call.Refers { c with server := exitUser c.server c.u } taken w x) : c.Refers taken w x := by
  have huser : ∀ w, ((exitUser c.server c.u).user w).sock = (c.server.user w).sock ∧
      ((exitUser c.server c.u).user w).numPipeVec = (c.server.user w).numPipeVec ∧
      ((exitUser c.server c.u).user w).namePipe = (c.server.user w).namePipe := by
    intro w
    rw [exitUser_user]
    split_ifs with hw
    · rw [hw]
      exact ⟨rfl, rfl, rfl⟩
    · exact ⟨rfl, rfl, rfl⟩
  refine refers_of_tables (fun i => (huser i).1) (fun i => (huser i).2.1) (fun i => (huser i).2.2)
    (fun a r hr => ?_) h
  simp only [exitUser, broadcastMsg, Server.print, modifyUser] at hr
  split_ifs at hr
  exact hr

/-- During a call: what `main` made is in its place, only pipes that exist are open, and what is kept
    for slot `i` is not the read end of one of the first `P` pipes. While another user's line is
    executed 0, 1 and 2 are that user's. -/
structure Tied (P i : ℕ) (taken : Option (ℕ × ℕ)) (c : Call) : Prop where
  std : ∀ x, 3 ≤ x → x < 7 → ∃ d, c.vars.kernel.get x = some d ∧ Inherited d
  pipes : P ≤ c.vars.kernel.pipes
  below : Vars.Below c.vars.kernel.pipes c.vars.kernel.fds
  refs : ∀ w x, c.Refers taken w x →
    ¬ (3 ≤ x ∧ x < 7) ∧ (w = i → 3 ≤ x ∨ c.u = i → Young P c.vars.kernel x)
  fdIn : ¬ (3 ≤ c.vars.fdIn ∧ c.vars.fdIn < 7)
  own : c.u = i → Young P c.vars.kernel 0 ∧ Young P c.vars.kernel c.vars.fdIn
  spawned : ∀ q ∈ c.spawned, Vars.Below c.vars.kernel.pipes q.fds ∧
    (c.u = i → ∀ id, q.fds.get 0 = some (.pipeR id) → P ≤ id)

/-- One step of a call: a descriptor that is newly kept was free before. -/
theorem Tied.step {P i : ℕ} {taken taken' : Option (ℕ × ℕ)} {c c' : Call} (h : Tied P i taken c)
    (hu : c'.u = c.u) (ho : Onward c.vars.kernel c'.vars.kernel)
    (hstd : ∀ x, 3 ≤ x → x < 7 → c'.vars.kernel.get x = c.vars.kernel.get x)
    (hbelow : Vars.Below c'.vars.kernel.pipes c'.vars.kernel.fds)
    (hrefs : ∀ w x, c'.Refers taken' w x → c.Refers taken w x ∨ c.vars.kernel.get x = none)
    (hfd : c'.vars.fdIn = c.vars.fdIn ∨ c.vars.kernel.get c'.vars.fdIn = none)
    (hspawned : ∀ q ∈ c'.spawned, q ∈ c.spawned ∨ Vars.Below c'.vars.kernel.pipes q.fds ∧
      (c.u = i → ∀ id, q.fds.get 0 = some (.pipeR id) → P ≤ id)) : Tied P i taken' c' := by
  have hfree : ∀ x, c.vars.kernel.get x = none → ¬ (3 ≤ x ∧ x < 7) := by
    rintro x hx ⟨h3, h7⟩
    obtain ⟨d, hd, -⟩ := h.std x h3 h7
    rw [hx] at hd
    cases hd
  refine ⟨fun x h3 h7 => ?_, h.pipes.trans ho.pipes, hbelow, fun w x hx => ?_, ?_, fun hi => ?_,
    fun q hq => ?_⟩
  · rw [hstd x h3 h7]
    exact h.std x h3 h7
  · rcases hrefs w x hx with hx | hx
    · obtain ⟨hne, hyoung⟩ := h.refs w x hx
      exact ⟨hne, fun hw h3 => (hyoung hw (hu ▸ h3)).onward h.pipes ho⟩
    · exact ⟨hfree x hx, fun _ _ => (Young.of_none hx).onward h.pipes ho⟩
  · rcases hfd with hfd | hfd
    · rw [hfd]
      exact h.fdIn
    · exact hfree _ hfd
  · obtain ⟨h0, hin⟩ := h.own (hu ▸ hi)
    refine ⟨h0.onward h.pipes ho, ?_⟩
    rcases hfd with hfd | hfd
    · rw [hfd]
      exact hin.onward h.pipes ho
    · exact (Young.of_none hfd).onward h.pipes ho
  · rw [hu]
    rcases hspawned q hq with hq | hq
    · obtain ⟨hb, h0⟩ := h.spawned q hq
      exact ⟨below_mono hb ho.pipes, h0⟩
    · exact hq

/-- A step that keeps the descriptor table and adds nothing to what is kept. -/
theorem Tied.same {P i : ℕ} {taken taken' : Option (ℕ × ℕ)} {c c' : Call} (h : Tied P i taken c)
    (hu : c'.u = c.u) (hget : ∀ x, c'.vars.kernel.get x = c.vars.kernel.get x)
    (hpipes : c'.vars.kernel.pipes = c.vars.kernel.pipes)
    (hrefs : ∀ w x, c'.Refers taken' w x → c.Refers taken w x) (hfd : c'.vars.fdIn = c.vars.fdIn)
    (hspawned : c'.spawned = c.spawned) : Tied P i taken' c' :=
  h.step hu (.of_get hget hpipes) (fun x _ _ => hget x) (below_of_get hget hpipes h.below)
    (fun w x hx => Or.inl (hrefs w x hx)) (Or.inl hfd) fun _ hq => Or.inl (hspawned ▸ hq)

theorem Tied.take {P i : ℕ} {c c' : Call} {inp : LineInput} {id : ℤ} (h : Tied P i c.takenPair c)
    (htake : c.takeUserPipe inp.command id = .ok c') : Tied P i c'.takenPair c' := by
  have hrefs := fun w x => refers_take (w := w) (x := x) htake
  obtain ⟨-, -, rfl⟩ := takeUserPipe_ok.mp htake
  exact h.same rfl (fun _ => rfl) rfl hrefs rfl rfl

theorem Tied.make {P i : ℕ} {c c' : Call} {id : ℤ} (h : Tied P i c.takenPair c)
    (hmake : c.makeUserPipe id = .ok c') : Tied P i c'.takenPair c' := by
  have hrefs := fun w x => refers_make (w := w) (x := x) hmake
  obtain ⟨-, -, rfl⟩ := makeUserPipe_ok.mp hmake
  refine h.step rfl (.pipe _) (fun x h3 h7 => Kernel.get_pipe_of_open ?_) (below_pipe h.below) hrefs
    (Or.inl rfl) fun _ hq => Or.inl hq
  obtain ⟨d, hd, -⟩ := h.std x h3 h7
  simp [hd]

theorem Tied.pipeOut {P i : ℕ} {c : Call} (h : Tied P i c.takenPair c) (shock : Bool) (n : ℤ) :
    Tied P i (c.pipeOut shock n).takenPair (c.pipeOut shock n) := by
  by_cases hn : ∃ e ∈ c.vars.numPipeVec, e.restLine = n
  · obtain ⟨hker, hvec⟩ := pipeOut_of_mem shock hn
    exact h.same rfl (fun x => by rw [hker]) (by rw [hker])
      (fun _ _ hx => refers_of_same hx hvec rfl rfl rfl) (pipeOut_fdIn ..) rfl
  · obtain ⟨hker, -⟩ := pipeOut_of_not_mem shock hn
    have hopen : ∀ x, 3 ≤ x → x < 7 → c.vars.kernel.get x ≠ none := by
      intro x h3 h7
      obtain ⟨d, hd, -⟩ := h.std x h3 h7
      simp [hd]
    refine h.step rfl (hker ▸ .pipe _)
      (fun x h3 h7 => by rw [hker]; exact Kernel.get_pipe_of_open (hopen x h3 h7))
      (by rw [hker]; exact below_pipe h.below) (fun w x hx => refers_pipeOut hx)
      (Or.inl (pipeOut_fdIn ..)) fun _ hq => Or.inl hq

theorem Tied.file {P i : ℕ} {c : Call} {opens : Opens} {name : Token} {v : Vars}
    (h : Tied P i c.takenPair c) (hfile : c.vars.createFile opens name = some v) :
    let c' : Call := { c with vars := v, server := c.server.print [.fflush] }
    Tied P i c'.takenPair c' := by
  obtain ⟨hget, hpipes, hvec, hfd, -⟩ := createFile_frame hfile
  exact h.same rfl hget hpipes (fun _ _ hx => refers_of_same hx hvec rfl rfl rfl) hfd rfl

theorem Tied.kept {s : Server} {u P i : ℕ} (inp : LineInput)
    (hu : u < qlen ∧ (s.user u).valid = true) :
    KeptByTokens inp fun c => SameUsers s u c ∧ Tied P i c.takenPair c where
  push := fun _ argv h => ⟨h.1.push argv,
    h.2.same rfl (fun _ => rfl) rfl (fun _ _ hx => hx) rfl rfl⟩
  take := fun _ _ _ h htake => ⟨h.1.take htake, h.2.take htake⟩
  make := fun _ _ _ h hmake => ⟨h.1.make hu hmake, h.2.make hmake⟩
  number := fun _ shock n h => ⟨h.1.pipeOut shock n, h.2.pipeOut shock n⟩
  file := fun _ _ v h hfile => ⟨h.1.print v _, h.2.file hfile⟩
  reject := fun c e h => ⟨h.1.print c.vars e.entries,
    h.2.same rfl (fun _ => rfl) rfl (fun _ _ hx => hx) rfl rfl⟩

/-! ### The rows -/

theorem Tied.resolve {P i : ℕ} {c : Call} (h : Tied P i c.takenPair c) :
    Tied P i c.resolve.vars.namePipeIn c.resolve :=
  h.same rfl (fun _ => rfl) rfl (fun _ _ hx => hx) rfl rfl

/-- What the process loop may close is kept for the user, or is the end of the normal pipe. -/
theorem closable_refers {c : Call} {x : ℕ} (hx : x ∈ c.vars.closable) :
    x = c.vars.fdIn ∨ c.Refers c.vars.namePipeIn c.u x := by
  have hend : ∀ e ∈ c.vars.numPipeVec, x = e.p0 ∨ x = e.p1 → c.Refers c.vars.namePipeIn c.u x := by
    intro e he hxe
    refine Or.inl (Or.inr (Or.inl ⟨e, ?_, hxe⟩))
    rw [Call.vecs, Function.update_self]
    exact he
  simp only [Vars.closable, Vars.deadOut, Vars.deadIn, List.mem_cons, List.mem_append, List.mem_map,
    List.mem_filter, Option.mem_toList, Option.map_eq_some_iff] at hx
  rcases hx with hx | ((⟨e, he, rfl⟩ | ⟨e, he, rfl⟩) | ⟨p, hp, rfl⟩) | ⟨p, hp, rfl⟩
  · exact Or.inl hx
  · exact Or.inr (hend e he.1 (Or.inr rfl))
  · exact Or.inr (hend e he.1 (Or.inl rfl))
  · exact Or.inr (Or.inr ⟨rfl, p, hp, Or.inr rfl⟩)
  · exact Or.inr (Or.inr ⟨rfl, p, hp, Or.inl rfl⟩)

/-- The standard input of a child is not the read end of an old pipe. -/
theorem Tied.stdin {P i : ℕ} {c : Call} (h : Tied P i c.vars.namePipeIn c) (hi : c.u = i)
    {opens : Opens} {pc id : ℕ} {last : Bool}
    (h0 : (c.vars.forkProcess opens pc last).2.get 0 = some (.pipeR id)) : P ≤ id := by
  rcases Vars.forkProcess_stdin_cases h0 with ⟨name, hname⟩ | ⟨y, hy, hget⟩
  · cases hname
  · have hyoung : Young P c.vars.kernel y := by
      obtain ⟨hzero, hin⟩ := h.own hi
      have hown : ∀ {x}, c.Refers c.vars.namePipeIn c.u x → Young P c.vars.kernel x :=
        fun hx => (h.refs _ _ hx).2 hi (Or.inr hi)
      simp only [Vars.stdinSources, List.mem_cons, List.mem_append, List.mem_map, Option.mem_toList,
        Option.map_eq_some_iff] at hy
      rcases hy with rfl | rfl | ⟨e, he, rfl⟩ | ⟨p, hp, rfl⟩
      · exact hzero
      · exact hin
      · refine hown (Or.inl (Or.inr (Or.inl ⟨e, ?_, Or.inl rfl⟩)))
        rw [Call.vecs, Function.update_self]
        exact he
      · exact hown (Or.inr ⟨rfl, p, hp, Or.inl rfl⟩)
    exact hyoung.onward h.pipes (.forkKernel _ _ _) id hget

theorem Tied.fork {P i : ℕ} {c : Call} (h : Tied P i c.vars.namePipeIn c) (inp : LineInput) (pc : ℕ)
    (last : Bool) (argv : List Token) :
    Tied P i (c.fork inp pc last argv).vars.namePipeIn (c.fork inp pc last argv) := by
  obtain ⟨hker, -, -, -, hfd, -⟩ := Vars.forkProcess_fst c.vars inp.opens pc last
  refine h.step rfl (.fork _ _ _ _) (fun x h3 h7 => ?_) (below_fork _ _ _ h.below)
    (fun w x hx => Or.inl (refers_fork hx)) ?_ ?_
  · have hspared : c.vars.Spared x := by
      obtain ⟨d, hd, -⟩ := h.std x h3 h7
      refine ⟨by simp [hd], fun hx => ?_⟩
      rcases closable_refers hx with rfl | hx
      · exact h.fdIn ⟨h3, h7⟩
      · exact (h.refs _ _ hx).1 ⟨h3, h7⟩
    exact hspared.get_fork inp.opens pc last
  · have hfd' : (c.fork inp pc last argv).vars.fdIn =
        if c.vars.makesPipe pc last then c.vars.kernel.pipeFd0 else c.vars.fdIn := hfd
    rw [hfd']
    split_ifs
    · exact Or.inr (Kernel.get_pipeFd0 _)
    · exact Or.inl rfl
  · intro q hq
    rcases List.mem_append.mp hq with hq | hq
    · exact Or.inl hq
    · right
      rw [List.mem_singleton.mp hq]
      refine ⟨?_, fun hi id h0 => h.stdin hi h0⟩
      have hpipes : (c.vars.forkKernel pc last).pipes =
          (c.vars.forkProcess inp.opens pc last).1.kernel.pipes := by
        rw [hker, Vars.forkKernel, Kernel.pipes_closeAll, Kernel.pipes_closeAll]
      have hbelow := below_forkKernel pc last h.below
      rw [hpipes] at hbelow
      exact hbelow.forkProcess

theorem Tied.rules {P i : ℕ} (inp : LineInput) (pc : ℕ) :
    RowRules inp pc (fun _ c => Tied P i c.vars.namePipeIn c) fun c => Tied P i c.vars.namePipeIn c where
  fork := fun _ _ rest _ _ h => h.fork inp pc rest.isEmpty _
  builtin := fun _ _ _ _ _ _ _ h hs => h.same rfl (fun _ => rfl) rfl
    (fun _ _ hx => refers_builtin hs hx) rfl rfl
  exit := fun _ _ _ h => h.same rfl (fun _ => rfl) rfl (fun _ _ hx => refers_exit hx) rfl rfl

/-! ### A line -/

/-- After a call of `npshell`, before the standard descriptors are restored. -/
structure TiedAfter (P i u : ℕ) (r : Return) : Prop where
  std : ∀ x, 3 ≤ x → x < 7 → ∃ d, r.server.kernel.get x = some d ∧ Inherited d
  pipes : P ≤ r.server.kernel.pipes
  below : Vars.Below r.server.kernel.pipes r.server.kernel.fds
  refs : ∀ w x, Refers r.server r.server.vecs w x →
    ¬ (3 ≤ x ∧ x < 7) ∧ (w = i → 3 ≤ x → Young P r.server.kernel x)
  spawned : ∀ q ∈ r.spawned, Vars.Below r.server.kernel.pipes q.fds ∧
    (u = i → ∀ id, q.fds.get 0 = some (.pipeR id) → P ≤ id)

/-- What is kept between two lines is kept at the end of the call. -/
theorem refers_leave {c : Call} {w x : ℕ} (h : Refers c.leave c.leave.vecs w x)
    (taken : Option (ℕ × ℕ)) : c.Refers taken w x := by
  rcases h with hx | ⟨e, he, hx⟩ | ⟨a, har, hx⟩
  · rw [leave_sock] at hx
    exact Or.inl (Or.inl hx)
  · refine Or.inl (Or.inr (Or.inl ⟨e, ?_, hx⟩))
    rw [Server.vecs, leave_user] at he
    by_cases hw : w = c.u
    · rw [if_pos hw] at he
      rw [hw, Call.vecs, Function.update_self]
      exact he
    · rw [if_neg hw] at he
      rw [Call.vecs, Function.update_of_ne hw]
      exact he
  · rw [leave_namePipe] at hx
    exact Or.inl (Or.inr (Or.inr ⟨a, har, hx⟩))

theorem Tied.leave {P i u : ℕ} {taken : Option (ℕ × ℕ)} {c : Call} (h : Tied P i taken c)
    (hu : c.u = u) (zero : Bool) (error : Option PipeError) :
    TiedAfter P i u ⟨c.leave, zero, c.spawned, error⟩ where
  std := h.std
  pipes := h.pipes
  below := h.below
  refs := fun w x hx => by
    obtain ⟨hne, hyoung⟩ := h.refs w x (refers_leave hx taken)
    exact ⟨hne, fun hw h3 => hyoung hw (Or.inl h3)⟩
  spawned := fun q hq => hu ▸ h.spawned q hq

/-- A line that is rejected has forked nothing. -/
theorem Tied.reject {P i u : ℕ} {taken : Option (ℕ × ℕ)} {c : Call} (h : Tied P i taken c)
    (hu : c.u = u) (error : Option PipeError) : TiedAfter P i u ⟨c.leave, false, [], error⟩ :=
  have hleave := h.leave hu false error
  ⟨hleave.std, hleave.pipes, hleave.below, hleave.refs, fun _ hq => by cases hq⟩

/-- The countdown does not change what is kept. -/
theorem refers_start {s : Server} {u w x : ℕ} {taken : Option (ℕ × ℕ)} (htaken : taken = none)
    (h : (startCall s u).Refers taken w x) : Refers s s.vecs w x := by
  rcases h with (hx | ⟨e, he, hx⟩ | hx) | ⟨-, p, hp, -⟩
  · exact Or.inl hx
  · by_cases hw : w = u
    · subst hw
      rw [Call.vecs, show (startCall s w).u = w from rfl, Function.update_self] at he
      obtain ⟨e', he', rfl⟩ := List.mem_map.mp he
      exact Or.inr (Or.inl ⟨e', he', hx⟩)
    · rw [Call.vecs, show (startCall s u).u = u from rfl, Function.update_of_ne hw] at he
      exact Or.inr (Or.inl ⟨e, he, hx⟩)
  · exact Or.inr (Or.inr hx)
  · rw [htaken] at hp
    cases hp

theorem npshell_tied {s : Server} {u P i : ℕ} {inp : LineInput} {r : Return}
    (h : npshell s u inp = some r) (hrec : Recorded s) (hu : u < qlen ∧ (s.user u).valid = true)
    (ht : Tied P i none (startCall (s.setPath u) u)) : TiedAfter P i u r := by
  have hread : (parse (s.setPath u) u inp).All fun c =>
      SameUsers (s.setPath u) u c ∧ Tied P i c.takenPair c :=
    (Tied.kept (s := s.setPath u) inp hu).parse ⟨SameUsers.start u hrec, ht⟩
  cases npshell_outcome h with
  | blank _ =>
    refine ⟨ht.std, ht.pipes, ht.below, fun w x hx => ?_, fun q hq => by cases hq⟩
    have hstart : (startCall (s.setPath u) u).Refers none w x := by
      rcases hx with hx | ⟨e, he, hx⟩ | hx
      · exact Or.inl (Or.inl hx)
      · refine Or.inl (Or.inr (Or.inl ?_))
        by_cases hw : w = u
        · subst hw
          refine ⟨{ e with restLine := e.restLine - 1 }, ?_, hx⟩
          rw [Call.vecs, show (startCall (s.setPath w) w).u = w from rfl, Function.update_self]
          exact List.mem_map.mpr ⟨e, he, rfl⟩
        · refine ⟨e, ?_, hx⟩
          rw [Call.vecs, show (startCall (s.setPath u) u).u = u from rfl, Function.update_of_ne hw]
          exact he
      · exact Or.inl (Or.inr (Or.inr hx))
    obtain ⟨hne, hyoung⟩ := ht.refs w x hstart
    exact ⟨hne, fun hw h3 => hyoung hw (Or.inl h3)⟩
  | rejected _ hp =>
    rw [hp] at hread
    exact hread.2.reject hread.1.u _
  | @ended c c' _ hp hrows =>
    rw [hp] at hread
    have hends := (Tied.rules inp c.process.length).execRows c.process c.resolve hread.2.resolve
    have hu' := @execRows_u inp c.process.length c.process c.resolve
    rw [hrows] at hends hu'
    exact Tied.leave hends (hu'.trans hread.1.u) _ _
  | @exited c c' _ hp hrows =>
    rw [hp] at hread
    have hends := (Tied.rules inp c.process.length).execRows c.process c.resolve hread.2.resolve
    have hu' := @execRows_u inp c.process.length c.process c.resolve
    rw [hrows] at hends hu'
    exact Tied.leave hends (hu'.trans hread.1.u) _ _

/-! ### Between two lines -/

/-- Between two inputs: what `main` made is in its place, and what is kept for slot `i` is not the
    read end of one of the first `P` pipes. -/
structure Grounded (P i : ℕ) (s : Server) : Prop where
  std : ∀ x < 7, ∃ d, s.kernel.get x = some d ∧ Inherited d
  pipes : P ≤ s.kernel.pipes
  below : Vars.Below s.kernel.pipes s.kernel.fds
  refs : ∀ w x, Refers s s.vecs w x → ¬ (3 ≤ x ∧ x < 7) ∧ (w = i → Young P s.kernel x)
  afds : ∀ fd ∈ s.afds, fd ≠ msock → 7 ≤ fd
  recorded : Recorded s

theorem Young.dup2 {P x src dst : ℕ} {k : Kernel} (hx : Young P k x) (hsrc : Young P k src) :
    Young P (k.dup2 src dst) x := by
  intro id hid
  have hid : (k.fds.dup2 src dst).get x = some (.pipeR id) := hid
  rw [FdTable.get_dup2] at hid
  split_ifs at hid
  · exact hsrc id hid
  · exact hx id hid

theorem Young.dupStd {P x fd : ℕ} {s : Server} (hx : Young P s.kernel x) (hfd : Young P s.kernel fd) :
    Young P (s.dupStd fd fd fd).kernel x :=
  have h0 : Young P (s.kernel.dup2 fd 0) fd := hfd.dup2 hfd
  have h1 : Young P ((s.kernel.dup2 fd 0).dup2 fd 1) fd := h0.dup2 h0
  ((hx.dup2 hfd).dup2 h0).dup2 h1

theorem below_dupStd {s : Server} (h : Vars.Below s.kernel.pipes s.kernel.fds) (i o e : ℕ) :
    Vars.Below s.kernel.pipes (s.dupStd i o e).kernel.fds :=
  ((h.dup2 i 0).dup2 o 1).dup2 e 2

/-- A call begins on grounded tables. -/
theorem Grounded.start {P i u fd : ℕ} {s : Server} (h : Grounded P i s) (hfd : (s.user u).sock = fd) :
    Tied P i none (startCall ((s.dupStd fd fd fd).setPath u) u) := by
  have hlow : ∀ x < 7, Young P s.kernel x := fun x hx => .of_inherited (h.std x hx)
  -- for the user of slot `i` all of 0, 1 and 2 are its socket now
  have hsock : u = i → Young P s.kernel fd := fun hui =>
    (h.refs u fd (Or.inl hfd.symm)).2 hui
  refine ⟨fun x h3 h7 => ?_, h.pipes, below_dupStd h.below _ _ _, fun w x hx => ?_, ?_, fun hui => ?_,
    fun q hq => by cases hq⟩
  · obtain ⟨d, hd, hinh⟩ := h.std x h7
    exact ⟨d, (dupStd_get_of_ge s _ _ _ h3).trans hd, hinh⟩
  · obtain ⟨hne, hyoung⟩ := h.refs w x (refers_start rfl hx)
    refine ⟨hne, fun hw hor => ?_⟩
    rcases hor with h3 | hui
    · intro id hid
      exact hyoung hw id ((dupStd_get_of_ge s _ _ _ h3).symm.trans hid)
    · exact (hyoung hw).dupStd (hsock hui)
  · rintro ⟨h3, -⟩
    exact absurd h3 (by decide : ¬ 3 ≤ 0)
  · exact ⟨(hlow 0 (by omega)).dupStd (hsock hui), (hlow 0 (by omega)).dupStd (hsock hui)⟩

theorem grounded_finish {P i u fd : ℕ} {r : Return} (zero : Bool)
    (h : TiedAfter P i u r) (hrec : Recorded r.server) (hfd : 7 ≤ fd)
    (hafds : ∀ x ∈ r.server.afds, x ≠ msock → 7 ≤ x) :
    Grounded P i (r.server.finish fd u zero) ∧
      (r.server.finish fd u zero).kernel.pipes = r.server.kernel.pipes := by
  have hpipes : (r.server.finish fd u zero).kernel.pipes = r.server.kernel.pipes := by
    cases zero <;> rfl
  have hstd : ∀ x < 7, ∃ d, (r.server.finish fd u zero).kernel.get x = some d ∧ Inherited d := by
    intro x hx
    by_cases h3 : 3 ≤ x
    · rw [finish_get h3, if_neg (by omega)]
      exact h.std x h3 hx
    · exact finish_get_std (by omega) (fun y h4 h7 => h.std y (by omega) h7) x (by omega)
  have hrefers : ∀ w x, Refers (r.server.finish fd u zero) (r.server.finish fd u zero).vecs w x →
      Refers r.server r.server.vecs w x := by
    intro w x hx
    unfold Refers Server.vecs at hx ⊢
    rw [finish_user, finish_record] at hx
    exact hx
  refine ⟨⟨hstd, hpipes ▸ h.pipes, ?_, fun w x hx => ?_, ?_, ?_⟩, hpipes⟩
  · rw [hpipes]
    cases zero with
    | false => exact below_dupStd h.below _ _ _
    | true => exact (below_dupStd h.below _ _ _).close fd
  · obtain ⟨hne, hyoung⟩ := h.refs w x (hrefers w x hx)
    refine ⟨hne, fun hw => ?_⟩
    by_cases h3 : 3 ≤ x
    · intro id hid
      rw [finish_get h3] at hid
      split_ifs at hid
      exact hyoung hw h3 id hid
    · exact .of_inherited (hstd x (by omega))
  · intro x hx
    cases zero with
    | false => exact hafds x hx
    | true => exact hafds x (Finset.mem_of_mem_erase hx)
  · intro a b hab
    rw [finish_record] at hab
    rw [finish_user]
    exact hrec a b hab

/-- A new client: its socket is a descriptor that was free. What is kept for slot `i` besides the
    socket stays, and so does the socket unless the slot is the one given. -/
theorem grounded_accept {P Q i : ℕ} {s s' : Server} {addr : List Char} {port junk : ℕ}
    (h : Grounded P i s) (hs : s.acceptClient addr port junk = some s') (hQ : Q ≤ s.kernel.pipes)
    (hends : ∀ x, (∃ e ∈ s.vecs i, x = e.p0 ∨ x = e.p1) ∨ (∃ a, s.namePipeRecord a (i + 1) = true ∧
      (x = ((s.user i).namePipe (a - 1)).1 ∨ x = ((s.user i).namePipe (a - 1)).2)) →
      Young Q s.kernel x)
    (hsock : i ≠ s.spaceInd junk → Young Q s.kernel (s.user i).sock) : Grounded Q i s' := by
  obtain ⟨-, hker, hafds, hrec, -, huser⟩ := acceptClient_some hs
  have hfresh := s.kernel.get_alloc_fd (.sock s.accepted)
  have hget : ∀ x, s'.kernel.get x =
      if x = (s.kernel.alloc (.sock s.accepted)).2 then some (.sock s.accepted) else s.kernel.get x := by
    intro x
    rw [hker, Kernel.get_alloc]
  have hpipes : s'.kernel.pipes = s.kernel.pipes := by rw [hker, Kernel.pipes_alloc]
  generalize (s.kernel.alloc (.sock s.accepted)).2 = fd at hafds huser hget hfresh
  have hge : 7 ≤ fd := by
    by_contra hlt
    obtain ⟨d, hd, -⟩ := h.std fd (by omega)
    rw [hfresh] at hd
    cases hd
  have hkept : ∀ w, (s'.user w).numPipeVec = (s.user w).numPipeVec ∧
      (s'.user w).namePipe = (s.user w).namePipe := by
    intro w
    rw [huser]
    split_ifs with hw
    · rw [hw]
      exact ⟨rfl, rfl⟩
    · exact ⟨rfl, rfl⟩
  have hyoung : ∀ x, x = fd ∨ Young Q s.kernel x → Young Q s'.kernel x := by
    intro x hx id hid
    rw [hget] at hid
    split_ifs at hid with hxfd
    · cases hid
    · exact hx.resolve_left hxfd id hid
  refine ⟨fun x hx => ?_, hpipes ▸ hQ, ?_, ?_, fun x hx hne => ?_, recorded_accept h.recorded hs⟩
  · rw [hget, if_neg (by omega)]
    exact h.std x hx
  · intro x id hid
    have hid : s'.kernel.get x = some (.pipeR id) ∨ s'.kernel.get x = some (.pipeW id) := hid
    rw [hget] at hid
    rw [hpipes]
    split_ifs at hid
    · simp at hid
    · exact h.below x id hid
  · rintro w x (hx | hx)
    · by_cases hw : w = s.spaceInd junk
      · rw [huser, if_pos hw] at hx
        obtain rfl : x = fd := hx
        exact ⟨by omega, fun _ => hyoung x (Or.inl rfl)⟩
      · rw [huser, if_neg hw] at hx
        refine ⟨(h.refs w x (Or.inl hx)).1, fun hwi => hyoung x (Or.inr ?_)⟩
        subst hwi
        rw [hx]
        exact hsock hw
    · rw [Server.vecs, (hkept w).1, (hkept w).2, hrec] at hx
      exact ⟨(h.refs w x (Or.inr hx)).1, fun hwi => hyoung x (Or.inr (hends x (hwi ▸ hx)))⟩
  · rw [hafds, Finset.mem_insert] at hx
    rcases hx with rfl | hx
    · exact hge
    · exact h.afds x hx hne

/-- The slot whose user has sent a line. -/
def speaker (s : Server) : Input → Option ℕ
  | .line fd _ => s.findFdUser fd
  | _ => none

/-- Every input keeps the tables grounded, and what it forks has pipes that exist; a process of the
    user in slot `i` does not read one of the first `P`. -/
theorem grounded_step {P i : ℕ} {s : Server} {inp : Input}
    {r : Server × List Spawn × Option PipeError} (h : Grounded P i s) (hs : s.step inp = some r) :
    Grounded P i r.1 ∧ ∀ q ∈ r.2.1, Vars.Below r.1.kernel.pipes q.fds ∧
      (s.speaker inp = some i → ∀ id, q.fds.get 0 = some (.pipeR id) → P ≤ id) := by
  cases inp with
  | accept addr port junk =>
    simp only [step, Option.map_eq_some_iff] at hs
    obtain ⟨s', hs', rfl⟩ := hs
    refine ⟨?_, fun q hq => by cases hq⟩
    exact grounded_accept h hs' h.pipes (fun x hx => (h.refs i x (Or.inr hx)).2 rfl)
      fun _ => (h.refs i _ (Or.inl rfl)).2 rfl
  | eof fd =>
    simp only [step] at hs
    split_ifs at hs with hfd
    cases hf : s.findFdUser fd with
    | none => simp [hf] at hs
    | some u =>
      simp only [hf, npshell, if_true, Option.some.injEq] at hs
      subst hs
      obtain ⟨hu, hv, hsock⟩ := findFdUser_some hf
      have hafter := @npshell_tied (s.dupStd fd fd fd) u P i ⟨[], [], ⟨false, false, none⟩, false⟩ _ rfl
        h.recorded ⟨hu, hv⟩ (h.start hsock)
      exact ⟨(grounded_finish true hafter h.recorded (h.afds fd hfd.1 hfd.2) h.afds).1,
        fun q hq => by cases hq⟩
  | line fd inp =>
    simp only [step] at hs
    split_ifs at hs with hfd
    cases hf : s.findFdUser fd with
    | none => simp [hf] at hs
    | some u =>
      simp only [hf] at hs
      obtain ⟨hu, hv, hsock⟩ := findFdUser_some hf
      cases hn : npshell (s.dupStd fd fd fd) u inp with
      | none => simp [hn] at hs
      | some ret =>
        simp only [hn, Option.some.injEq] at hs
        subst hs
        have hafter := npshell_tied hn h.recorded ⟨hu, hv⟩ (h.start hsock)
        have husers := npshell_users hn h.recorded ⟨hu, hv⟩
        obtain ⟨hground, hpipes⟩ := grounded_finish ret.zero hafter husers.recorded
          (h.afds fd hfd.1 hfd.2) fun x hx => h.afds x (husers.afds ▸ hx)
        refine ⟨hground, fun q hq => ?_⟩
        obtain ⟨hbelow, hstdin⟩ := hafter.spawned q hq
        refine ⟨hpipes ▸ hbelow, fun hspeaker => hstdin ?_⟩
        rw [speaker, hf] at hspeaker
        exact Option.some.inj hspeaker

/-! ### Runs -/

/-- Each `exit` of the user in slot `i` leaves no number pipe: a line on which `npshell` returns 0
    meets the condition for that. -/
def CleanExit (i : ℕ) (s : Server) : Input → Prop
  | .line fd inp => ∀ r ∈ npshell (s.dupStd fd fd fd) i inp,
    s.findFdUser fd = some i → r.zero = true → LeavesNone (s.user i).numPipeVec (tokens ' ' inp.line)
  | _ => True

instance (i : ℕ) (s : Server) : ∀ inp : Input, Decidable (CleanExit i s inp)
  | .line fd inp => inferInstanceAs (Decidable (∀ r ∈ npshell (s.dupStd fd fd fd) i inp,
      s.findFdUser fd = some i → r.zero = true →
        LeavesNone (s.user i).numPipeVec (tokens ' ' inp.line)))
  | .accept _ _ _ => inferInstanceAs (Decidable True)
  | .eof _ => inferInstanceAs (Decidable True)

/-- A run in which slot `i` is always left clean. -/
def CleanRun (i : ℕ) : Server → List Input → Prop
  | _, [] => True
  | s, inp :: is => CleanExit i s inp ∧ ∀ r ∈ s.step inp, CleanRun i r.1 is

instance decidableCleanRun (i : ℕ) : ∀ (is : List Input) (s : Server), Decidable (CleanRun i s is)
  | [], _ => inferInstanceAs (Decidable True)
  | inp :: is, s =>
    have := fun r : Server × List Spawn × Option PipeError => decidableCleanRun i is r.1
    inferInstanceAs (Decidable (CleanExit i s inp ∧ ∀ r ∈ s.step inp, CleanRun i r.1 is))

/-- The processes a run starts, each with the slot of its user. -/
def spawns : Server → List Input → List (Option ℕ × Spawn)
  | _, [] => []
  | s, inp :: is =>
    match s.step inp with
    | some r => (r.2.1.map fun q => (s.speaker inp, q)) ++ spawns r.1 is
    | none => []

/-- The state of a slot in which a client of a fresh server finds it. -/
structure Fresh (s : Server) (i : ℕ) : Prop where
  numPipeVec : (s.user i).numPipeVec = []
  row : ∀ receiver, s.namePipeRecord (i + 1) receiver = false
  column : ∀ sender, s.namePipeRecord sender (i + 1) = false
  env : (s.user i).env = "bin:.".toList
  name : (s.user i).name = "(no name)".toList
  batchFlag : (s.user i).batchFlag = false
  ignore : (s.user i).ignore = false

/-- A slot nobody is in has no number pipe. -/
def Vacated (i : ℕ) (s : Server) : Prop := (s.user i).valid = false → (s.user i).numPipeVec = []

theorem vacated_step {P i : ℕ} {s : Server} {inp : Input} {r : Server × List Spawn × Option PipeError}
    (hg : Grounded P i s) (h : Vacated i s) (hc : CleanExit i s inp) (hs : s.step inp = some r) :
    Vacated i r.1 := by
  cases inp with
  | accept addr port junk =>
    simp only [step, Option.map_eq_some_iff] at hs
    obtain ⟨s', hs', rfl⟩ := hs
    obtain ⟨-, -, -, -, -, huser⟩ := acceptClient_some hs'
    intro hv
    have hv : (s'.user i).valid = false := hv
    show (s'.user i).numPipeVec = []
    rw [huser] at hv ⊢
    split_ifs at hv ⊢
    exact h hv
  | eof fd =>
    simp only [step] at hs
    split_ifs at hs
    cases hf : s.findFdUser fd with
    | none => simp [hf] at hs
    | some u =>
      simp only [hf, npshell, if_true, Option.some.injEq] at hs
      subst hs
      exact h
  | line fd inp =>
    simp only [step] at hs
    split_ifs at hs
    cases hf : s.findFdUser fd with
    | none => simp [hf] at hs
    | some u =>
      simp only [hf] at hs
      obtain ⟨hu, hv, -⟩ := findFdUser_some hf
      cases hn : npshell (s.dupStd fd fd fd) u inp with
      | none => simp [hn] at hs
      | some ret =>
        simp only [hn, Option.some.injEq] at hs
        subst hs
        have husers := npshell_users hn hg.recorded ⟨hu, hv⟩
        intro hfree
        rw [finish_user] at hfree ⊢
        by_cases hiu : i = u
        · subst hiu
          have hzero : ret.zero = true := by
            rw [husers.valid] at hfree
            by_contra hz
            rw [if_neg (fun hcon => hz hcon.1)] at hfree
            exact absurd (hv.symm.trans hfree) (by decide)
          exact (exit_leaves_none_iff hn hzero).mpr (hc ret hn hf hzero)
        · rw [husers.valid, if_neg (fun hcon => hiu hcon.2)] at hfree
          rw [husers.vec i hiu]
          exact h hfree

/-- Pipes are only ever added. -/
theorem npshell_pipes {s : Server} {u : ℕ} {inp : LineInput} {r : Return}
    (h : npshell s u inp = some r) : s.kernel.pipes ≤ r.server.kernel.pipes := by
  have hkept : KeptByTokens inp fun c => s.kernel.pipes ≤ c.vars.kernel.pipes := by
    refine ⟨fun _ _ h => h, fun c c' id h htake => ?_, fun c c' id h hmake => ?_,
      fun c shock n h => ?_, fun c name v h hfile => ?_, fun _ _ h => h⟩
    · obtain ⟨-, -, rfl⟩ := takeUserPipe_ok.mp htake
      exact h
    · obtain ⟨-, -, rfl⟩ := makeUserPipe_ok.mp hmake
      exact h.trans (Nat.le_succ _)
    · by_cases hn : ∃ e ∈ c.vars.numPipeVec, e.restLine = n
      · rw [(pipeOut_of_mem shock hn).1]
        exact h
      · rw [(pipeOut_of_not_mem shock hn).1]
        exact h.trans (Nat.le_succ _)
    · obtain ⟨-, hpipes, -⟩ := createFile_frame hfile
      exact h.trans hpipes.ge
  have hread : (parse (s.setPath u) u inp).All fun c => s.kernel.pipes ≤ c.vars.kernel.pipes :=
    hkept.parse (le_refl _)
  have hrules : ∀ pc, RowRules inp pc (fun _ c => s.kernel.pipes ≤ c.vars.kernel.pipes)
      fun c => s.kernel.pipes ≤ c.vars.kernel.pipes := fun pc =>
    ⟨fun _ _ rest c _ h => h.trans (Onward.fork c.vars inp.opens pc rest.isEmpty).pipes,
      fun _ _ _ _ _ _ _ h _ => h, fun _ _ _ h => h⟩
  cases npshell_outcome h with
  | blank _ => exact le_refl _
  | rejected _ hp =>
    rw [hp] at hread
    exact hread
  | @ended c c' _ hp hrows =>
    rw [hp] at hread
    have hends := (hrules c.process.length).execRows c.process c.resolve hread
    rw [hrows] at hends
    exact hends
  | @exited c c' _ hp hrows =>
    rw [hp] at hread
    have hends := (hrules c.process.length).execRows c.process c.resolve hread
    rw [hrows] at hends
    exact hends

theorem step_pipes {s : Server} {inp : Input} {r : Server × List Spawn × Option PipeError}
    (hs : s.step inp = some r) : s.kernel.pipes ≤ r.1.kernel.pipes := by
  have hfinish : ∀ (t : Server) (fd u : ℕ) (zero : Bool),
      (t.finish fd u zero).kernel.pipes = t.kernel.pipes := by
    intro t fd u zero
    cases zero <;> rfl
  cases inp with
  | accept addr port junk =>
    simp only [step, Option.map_eq_some_iff] at hs
    obtain ⟨s', hs', rfl⟩ := hs
    obtain ⟨-, hker, -⟩ := acceptClient_some hs'
    rw [hker, Kernel.pipes_alloc]
  | eof fd =>
    simp only [step] at hs
    split_ifs at hs
    cases hf : s.findFdUser fd with
    | none => simp [hf] at hs
    | some u =>
      simp only [hf, npshell, if_true, Option.some.injEq] at hs
      subst hs
      rw [hfinish]
      exact le_refl _
  | line fd inp =>
    simp only [step] at hs
    split_ifs at hs
    cases hf : s.findFdUser fd with
    | none => simp [hf] at hs
    | some u =>
      simp only [hf] at hs
      cases hn : npshell (s.dupStd fd fd fd) u inp with
      | none => simp [hn] at hs
      | some ret =>
        simp only [hn, Option.some.injEq] at hs
        subst hs
        exact (npshell_pipes hn).trans (hfinish _ _ _ _).ge

/-- After a run: the tables are grounded, and the pipes of the processes it has started exist. -/
theorem grounded_run {P i : ℕ} : ∀ {is : List Input} {s t : Server}, Grounded P i s →
    s.run is = some t → Grounded P i t ∧ s.kernel.pipes ≤ t.kernel.pipes ∧
      ∀ q ∈ spawns s is, Vars.Below t.kernel.pipes q.2.fds ∧
        (q.1 = some i → ∀ id, q.2.fds.get 0 = some (.pipeR id) → P ≤ id)
  | [], s, t, h, hrun => by
    obtain rfl := Option.some.inj hrun
    exact ⟨h, le_refl _, fun q hq => by cases hq⟩
  | inp :: is, s, t, h, hrun => by
    rw [run, Option.bind_eq_some_iff] at hrun
    obtain ⟨r, hr, hrun⟩ := hrun
    obtain ⟨hnext, hnew⟩ := grounded_step h hr
    obtain ⟨ht, hle, hspawns⟩ := grounded_run hnext hrun
    refine ⟨ht, (step_pipes hr).trans hle, fun q hq => ?_⟩
    rw [spawns, hr] at hq
    rcases List.mem_append.mp hq with hq | hq
    · obtain ⟨p, hp, rfl⟩ := List.mem_map.mp hq
      obtain ⟨hbelow, hstdin⟩ := hnew p hp
      exact ⟨below_mono hbelow hle, hstdin⟩
    · exact hspawns q hq

theorem vacated_run {i : ℕ} : ∀ {is : List Input} {s t : Server}, Grounded 0 i s → Vacated i s →
    CleanRun i s is → s.run is = some t → Vacated i t
  | [], s, t, _, h, _, hrun => by
    obtain rfl := Option.some.inj hrun
    exact h
  | inp :: is, s, t, hg, h, ⟨hc, hrest⟩, hrun => by
    rw [run, Option.bind_eq_some_iff] at hrun
    obtain ⟨r, hr, hrun⟩ := hrun
    exact vacated_run (grounded_step hg hr).1 (vacated_step hg h hc hr) (hrest r hr) hrun

theorem grounded_init (environ : Environ) (i : ℕ) : Grounded 0 i (init environ) where
  std := by
    intro x hx
    rcases (by omega : x = 0 ∨ x = 1 ∨ x = 2 ∨ x = 3 ∨ x = 4 ∨ x = 5 ∨ x = 6) with
      rfl | rfl | rfl | rfl | rfl | rfl | rfl <;> exact ⟨_, rfl, trivial⟩
  pipes := le_refl _
  below := by
    intro x id hx
    rcases lt_or_ge x 7 with hlt | hge
    · rcases (by omega : x = 0 ∨ x = 1 ∨ x = 2 ∨ x = 3 ∨ x = 4 ∨ x = 5 ∨ x = 6) with
        rfl | rfl | rfl | rfl | rfl | rfl | rfl <;> rcases hx with hx | hx <;> cases hx
    · have hnone : (init environ).kernel.fds.get x = none := by
        rw [FdTable.get, List.getD_eq_getElem?_getD, List.getElem?_eq_none hge]
        rfl
      simp [hnone] at hx
  refs := by
    rintro w x (rfl | ⟨e, he, -⟩ | ⟨a, ha, -⟩)
    · exact ⟨fun h => absurd h.1 (by decide : ¬ 3 ≤ 0), fun _ id _ => Nat.zero_le id⟩
    · cases he
    · cases ha
  afds := fun fd hfd hne => absurd (Finset.mem_singleton.mp hfd) hne
  recorded := fun _ _ hr => by cases hr

/-- A line without input from files. -/
def plainLine (line : List Char) : LineInput := ⟨line, [], ⟨true, true, none⟩, false⟩

end NetProg.Server
