import NetProg.Server.Call

/-! Who is who during one call of `npshell`, whatever the line is.

    While the tokens are read nobody comes or goes, and the records stay between users that are logged
    in. While the rows are executed only `exit` changes that: it frees the slot of its user and clears
    the records from and to it. Nothing here depends on what the descriptors stand for. -/

namespace NetProg.Server

/-- Recorded user pipes are between users that are logged in. -/
def Recorded (s : Server) : Prop := ∀ sender receiver, s.namePipeRecord sender receiver = true →
  (1 ≤ sender ∧ sender ≤ qlen ∧ (s.user (sender - 1)).valid = true) ∧
    1 ≤ receiver ∧ receiver ≤ qlen ∧ (s.user (receiver - 1)).valid = true

/-- The call `c`, begun on server `s` by user `u`, while its tokens are read. -/
structure SameUsers (s : Server) (u : ℕ) (c : Call) : Prop where
  u : c.u = u
  valid : ∀ i, (c.server.user i).valid = (s.user i).valid
  sock : ∀ i, (c.server.user i).sock = (s.user i).sock
  vec : ∀ i, (c.server.user i).numPipeVec = (s.user i).numPipeVec
  afds : c.server.afds = s.afds
  accepted : c.server.accepted = s.accepted
  recorded : Recorded c.server

theorem SameUsers.start {s : Server} (u : ℕ) (hrec : Recorded s) : SameUsers s u (startCall s u) :=
  ⟨rfl, fun _ => rfl, fun _ => rfl, fun _ => rfl, rfl, rfl, hrec⟩

theorem SameUsers.push {s : Server} {u : ℕ} {c : Call} (h : SameUsers s u c) (argv : List Token) :
    SameUsers s u (c.push argv) :=
  ⟨h.u, h.valid, h.sock, h.vec, h.afds, h.accepted, h.recorded⟩

/-- Only the variables and the log change. -/
theorem SameUsers.print {s : Server} {u : ℕ} {c : Call} (h : SameUsers s u c) (v : Vars)
    (entries : List LogEntry) :
    SameUsers s u { c with vars := v, server := c.server.print entries } :=
  ⟨h.u, h.valid, h.sock, h.vec, h.afds, h.accepted, h.recorded⟩

theorem SameUsers.pipeOut {s : Server} {u : ℕ} {c : Call} (h : SameUsers s u c) (shock : Bool)
    (n : ℤ) : SameUsers s u (c.pipeOut shock n) :=
  ⟨h.u, h.valid, h.sock, h.vec, h.afds, h.accepted, h.recorded⟩

theorem SameUsers.take {s : Server} {u : ℕ} {c c' : Call} {inp : LineInput} {id : ℤ}
    (h : SameUsers s u c) (htake : c.takeUserPipe inp.command id = .ok c') : SameUsers s u c' := by
  obtain ⟨-, -, rfl⟩ := takeUserPipe_ok.mp htake
  exact ⟨h.u, h.valid, h.sock, h.vec, h.afds, h.accepted,
    fun a r har => h.recorded a r (record_taken.mp har).1⟩

theorem SameUsers.make {s : Server} {u : ℕ} {c c' : Call} {id : ℤ} (h : SameUsers s u c)
    (hu : u < qlen ∧ (s.user u).valid = true) (hmake : c.makeUserPipe id = .ok c') :
    SameUsers s u c' := by
  obtain ⟨hid, -, rfl⟩ := makeUserPipe_ok.mp hmake
  obtain ⟨h1, h30, -, hv⟩ := checkIdExist_iff.mp hid
  have hcu := h.u
  refine ⟨h.u, fun i => (valid_made ..).trans (h.valid i), fun i => (sock_made ..).trans (h.sock i),
    fun i => (numPipeVec_made ..).trans (h.vec i), h.afds, h.accepted, ?_⟩
  intro a r har
  rw [valid_made, valid_made]
  rcases record_made.mp har with har | ⟨rfl, rfl⟩
  · exact h.recorded a r har
  · refine ⟨⟨by omega, by omega, ?_⟩, h1, h30, hv⟩
    rw [Nat.add_sub_cancel, h.valid, hcu]
    exact hu.2

theorem SameUsers.kept {s : Server} {u : ℕ} (inp : LineInput)
    (hu : u < qlen ∧ (s.user u).valid = true) : KeptByTokens inp (SameUsers s u) where
  push := fun _ argv h => h.push argv
  take := fun _ _ _ h htake => h.take htake
  make := fun _ _ _ h hmake => h.make hu hmake
  number := fun _ shock n h => h.pipeOut shock n
  file := fun _ _ v h _ => h.print v _
  reject := fun c e h => h.print c.vars e.entries

/-! ### Executing the rows -/

theorem fork_tables (c : Call) (inp : LineInput) (pc : ℕ) (last : Bool) (argv : List Token) :
    SameTables c.server (c.fork inp pc last argv).server := by
  unfold Call.fork
  dsimp only
  split
  · exact .print _ _
  · exact .refl _

/-- The call `c` in the process loop that began with `c₁`; `out` says whether the user has left. -/
structure LeftUsers (out : Bool) (c₁ c : Call) : Prop where
  u : c.u = c₁.u
  valid : ∀ i, (c.server.user i).valid =
    if out = true ∧ i = c₁.u then false else (c₁.server.user i).valid
  sock : ∀ i, (c.server.user i).sock = (c₁.server.user i).sock
  vec : ∀ i, (c.server.user i).numPipeVec = (c₁.server.user i).numPipeVec
  namePipe : ∀ i, (c.server.user i).namePipe = (c₁.server.user i).namePipe
  record : ∀ a r, c.server.namePipeRecord a r = true →
    c₁.server.namePipeRecord a r = true ∧ (out = true → a ≠ c₁.u + 1 ∧ r ≠ c₁.u + 1)
  afds : c.server.afds = c₁.server.afds
  accepted : c.server.accepted = c₁.server.accepted

theorem LeftUsers.refl (c : Call) : LeftUsers false c c :=
  ⟨rfl, fun _ => by simp, fun _ => rfl, fun _ => rfl, fun _ => rfl,
    fun _ _ har => ⟨har, fun hout => by cases hout⟩, rfl, rfl⟩

theorem LeftUsers.tables {out : Bool} {c₁ c : Call} {s' : Server} (h : LeftUsers out c₁ c)
    (hs : SameTables c.server s') : LeftUsers out c₁ { c with server := s' } where
  u := h.u
  valid := fun i => (hs.valid i).trans (h.valid i)
  sock := fun i => (hs.sock i).trans (h.sock i)
  vec := fun i => (hs.numPipeVec i).trans (h.vec i)
  namePipe := fun i => (hs.namePipe i).trans (h.namePipe i)
  record := fun a r har => h.record a r (by rw [← hs.record]; exact har)
  afds := hs.afds.trans h.afds
  accepted := hs.accepted.trans h.accepted

theorem LeftUsers.fork {c₁ c : Call} (h : LeftUsers false c₁ c) (inp : LineInput) (pc : ℕ)
    (last : Bool) (argv : List Token) : LeftUsers false c₁ (c.fork inp pc last argv) := by
  have ht := h.tables (fork_tables c inp pc last argv)
  exact ⟨ht.u, ht.valid, ht.sock, ht.vec, ht.namePipe, ht.record, ht.afds, ht.accepted⟩

theorem exitUser_user (s : Server) (u i : ℕ) :
    (exitUser s u).user i = if i = u then { s.user u with valid := false } else s.user i :=
  user_modifyUser _ u i fun w => { w with valid := false }

theorem LeftUsers.exit {c₁ c : Call} (h : LeftUsers false c₁ c) (hrec : Recorded c₁.server) :
    LeftUsers true c₁ { c with server := exitUser c.server c.u } where
  u := h.u
  valid := by
    intro i
    have hv := h.valid i
    simp only [Bool.false_eq_true, false_and, if_false] at hv
    simp only [exitUser_user, h.u, true_and]
    split_ifs with hi
    · rfl
    · exact hv
  sock := by
    intro i
    simp only [exitUser_user]
    split_ifs with hi
    · rw [hi]
      exact h.sock c.u
    · exact h.sock i
  vec := by
    intro i
    simp only [exitUser_user]
    split_ifs with hi
    · rw [hi]
      exact h.vec c.u
    · exact h.vec i
  namePipe := by
    intro i
    simp only [exitUser_user]
    split_ifs with hi
    · rw [hi]
      exact h.namePipe c.u
    · exact h.namePipe i
  record := by
    intro a r har
    simp only [exitUser, broadcastMsg, Server.print, modifyUser] at har
    split_ifs at har with hcleared
    obtain ⟨hr, -⟩ := h.record a r har
    obtain ⟨⟨ha1, ha30, -⟩, hr1, hr30, -⟩ := hrec a r hr
    refine ⟨hr, fun _ => ⟨fun ha => hcleared ?_, fun ha => hcleared ?_⟩⟩
    · exact ⟨ha1, ha30, hr1, hr30, Or.inl (by rw [ha, h.u])⟩
    · exact ⟨ha1, ha30, hr1, hr30, Or.inr (by rw [ha, h.u])⟩
  afds := h.afds
  accepted := h.accepted

theorem LeftUsers.rules {c₁ : Call} (hrec : Recorded c₁.server) (inp : LineInput) (pc : ℕ) :
    RowRules inp pc (fun _ c => LeftUsers false c₁ c) (LeftUsers true c₁) where
  fork := fun _ _ rest _ _ h => h.fork inp pc rest.isEmpty _
  builtin := fun _ _ _ _ _ _ _ h hs => h.tables hs
  exit := fun _ _ _ h => h.exit hrec

/-! ### A whole call -/

theorem leave_user (c : Call) (i : ℕ) : c.leave.user i =
    if i = c.u then { c.server.user i with numPipeVec := c.vars.numPipeVec } else c.server.user i := by
  refine (user_modifyUser c.server c.u i
    fun w => { w with numPipeVec := c.vars.numPipeVec }).trans ?_
  split_ifs with hi
  · rw [hi]
  · rfl

@[simp] theorem leave_valid (c : Call) (i : ℕ) :
    (c.leave.user i).valid = (c.server.user i).valid := by
  rw [leave_user]
  split_ifs <;> rfl

@[simp] theorem leave_sock (c : Call) (i : ℕ) :
    (c.leave.user i).sock = (c.server.user i).sock := by
  rw [leave_user]
  split_ifs <;> rfl

@[simp] theorem leave_namePipe (c : Call) (i : ℕ) :
    (c.leave.user i).namePipe = (c.server.user i).namePipe := by
  rw [leave_user]
  split_ifs <;> rfl

theorem leave_numPipeVec_of_ne {c : Call} {i : ℕ} (hi : i ≠ c.u) :
    (c.leave.user i).numPipeVec = (c.server.user i).numPipeVec := by
  rw [leave_user, if_neg hi]

/-- What a call of `npshell` for user `u` does to the table of users and to the records. -/
structure UsersAfter (s : Server) (u : ℕ) (r : Return) : Prop where
  valid : ∀ i, (r.server.user i).valid = if r.zero = true ∧ i = u then false else (s.user i).valid
  sock : ∀ i, (r.server.user i).sock = (s.user i).sock
  vec : ∀ i, i ≠ u → (r.server.user i).numPipeVec = (s.user i).numPipeVec
  afds : r.server.afds = s.afds
  accepted : r.server.accepted = s.accepted
  recorded : Recorded r.server

theorem SameUsers.after {s : Server} {u : ℕ} {c : Call} (h : SameUsers s u c) (spawned : List Spawn)
    (error : Option PipeError) : UsersAfter s u ⟨c.leave, false, spawned, error⟩ where
  valid := fun i => by simp [h.valid]
  sock := fun i => by simp [h.sock]
  vec := fun i hi => (leave_numPipeVec_of_ne (h.u.symm ▸ hi)).trans (h.vec i)
  afds := h.afds
  accepted := h.accepted
  recorded := fun a r har => by
    rw [leave_valid, leave_valid]
    exact h.recorded a r har

theorem LeftUsers.after {s : Server} {u : ℕ} {c₁ c : Call} {out : Bool} (hread : SameUsers s u c₁)
    (h : LeftUsers out c₁.resolve c) : UsersAfter s u ⟨c.leave, out, c.spawned, none⟩ where
  valid := by
    intro i
    rw [leave_valid, h.valid, show c₁.resolve.u = u from hread.u]
    exact if_congr Iff.rfl rfl (hread.valid i)
  sock := fun i => by
    rw [leave_sock, h.sock]
    exact hread.sock i
  vec := fun i hi => by
    have hne : i ≠ c.u := by
      rw [h.u]
      exact hread.u.symm ▸ hi
    rw [leave_numPipeVec_of_ne hne, h.vec]
    exact hread.vec i
  afds := h.afds.trans hread.afds
  accepted := h.accepted.trans hread.accepted
  recorded := by
    intro a r har
    obtain ⟨hrec, hout⟩ := h.record a r har
    obtain ⟨⟨ha1, ha30, hav⟩, hr1, hr30, hrv⟩ := hread.recorded a r hrec
    have hstay : ∀ i, (out = true → i ≠ c₁.resolve.u) → (c₁.server.user i).valid = true →
        (c.leave.user i).valid = true := by
      intro i hi hv
      rw [leave_valid, h.valid, if_neg (fun hcon => hi hcon.1 hcon.2)]
      exact hv
    exact ⟨⟨ha1, ha30, hstay _ (fun ho => by have := (hout ho).1; omega) hav⟩, hr1, hr30,
      hstay _ (fun ho => by have := (hout ho).2; omega) hrv⟩

theorem UsersAfter.of_setPath {s : Server} {u : ℕ} {r : Return} (h : UsersAfter (s.setPath u) u r) :
    UsersAfter s u r :=
  ⟨h.valid, h.sock, h.vec, h.afds, h.accepted, h.recorded⟩

theorem UsersAfter.refl {s : Server} (u : ℕ) (hrec : Recorded s) :
    UsersAfter s u ⟨s.setPath u, false, [], none⟩ :=
  ⟨fun i => by simp [setPath], fun _ => rfl, fun _ _ => rfl, rfl, rfl, hrec⟩

/-- A call keeps who is who, whatever the line is. -/
theorem npshell_users {s : Server} {u : ℕ} {inp : LineInput} {r : Return}
    (h : npshell s u inp = some r) (hrec : Recorded s) (hu : u < qlen ∧ (s.user u).valid = true) :
    UsersAfter s u r := by
  have hread : (parse (s.setPath u) u inp).All (SameUsers (s.setPath u) u) :=
    (SameUsers.kept (s := s.setPath u) inp hu).parse (SameUsers.start u hrec)
  cases npshell_outcome h with
  | blank _ => exact .refl u hrec
  | rejected _ hp =>
    rw [hp] at hread
    exact (SameUsers.after hread _ _).of_setPath
  | @ended c c' _ hp hrows =>
    rw [hp] at hread
    have hrules := @LeftUsers.rules c.resolve hread.recorded inp c.process.length
    have hends := hrules.execRows c.process c.resolve (.refl _)
    rw [hrows] at hends
    exact (LeftUsers.after hread hends).of_setPath
  | @exited c c' _ hp hrows =>
    rw [hp] at hread
    have hrules := @LeftUsers.rules c.resolve hread.recorded inp c.process.length
    have hends := hrules.execRows c.process c.resolve (.refl _)
    rw [hrows] at hends
    exact (LeftUsers.after hread hends).of_setPath

end NetProg.Server
