import NetProg.Lib.Slots
import NetProg.Lib.Run
import NetProg.Multi.Model

/-! Logging in to the two servers with a table of users (`main` of `np_single_proc.cpp` and of
    `np_multi_proc.cpp`): the code of both is the one of `Slots.place`. -/

namespace NetProg

open Server (qlen)

namespace Multi

/-- What `main` writes to the slot of a new client. -/
def loginUser (sock : ℕ) (addr : List Char) (port : ℕ) (w : User) : User :=
  { w with
    valid := true
    sock := sock
    addr := addr
    name := "(no name)".toList
    port := port
    batchFlag := false
    ignore := false
    receive := false
    msgCount := 0 }

/-- What is written to the table, by `main` and by the processes of the clients. -/
inductive TableWrite where
  /-- the section of `main` under `clisem`; without a free slot `space_ind` is not set, and is `junk` -/
  | login (sock : ℕ) (addr : List Char) (port junk : ℕ)
  | setPid (i pid : ℕ)
  | record (i j : ℕ) (value : Bool)
  /-- one receiver of `tell` or `broadcast_msg` -/
  | message (i : ℕ) (text : List Char)
  /-- the end of `real_broadcast_msg` -/
  | printed (i : ℕ)
  | rename (i : ℕ) (name : List Char)
  | leave (i : ℕ)

namespace Table

/-- Change one slot. -/
def modify (user : Table) (i : ℕ) (f : User → User) : Table := Function.update user i (f (user i))

/-- A login. A slot outside of the table is not defined. -/
def login (user : Table) (sock : ℕ) (addr : List Char) (port junk : ℕ) : Option Table :=
  let i := ((List.range qlen).find? fun i => !(user i).valid).getD junk
  if i < qlen then some (user.modify i (loginUser sock addr port)) else none

def step (user : Table) : TableWrite → Option Table
  | .login sock addr port junk => user.login sock addr port junk
  | .setPid i pid => some (user.modify i fun w => { w with pid := pid })
  | .record i j value =>
    some (user.modify i fun w => { w with namePipeRecord := Function.update w.namePipeRecord j value })
  | .message i text =>
    some (user.modify i fun w => { w with
      broadcastMsg := Function.update w.broadcastMsg w.msgCount text
      msgCount := w.msgCount + 1
      receive := true })
  | .printed i => some (user.modify i fun w => { w with msgCount := 0 })
  | .rename i name => some (user.modify i fun w => { w with name := name })
  | .leave i => some (user.modify i fun w => { w with valid := false })

/-- The table before the first client. The memory may hold anything else. -/
def start (user : Table) : Table := fun i => { user i with valid := false, id := i + 1 }

/-- Memory as the system gives it. -/
def zero : Table :=
  fun _ => ⟨false, 0, 0, 0, [], [], 0, false, false, fun _ => false, fun _ => [], 0, false⟩

/-- What a login should do: fill in the lowest free slot and no other. -/
def AdmitsToFree (user : Table) : TableWrite → Prop
  | .login sock addr port junk => ∃ user', user.login sock addr port junk = some user' ∧
      Slots.Admitted qlen User.valid (loginUser sock addr port) user user'
  | _ => True

/-- A slot is free, or the slot `junk` holds what is written to it. -/
def HasRoom (user : Table) : TableWrite → Prop
  | .login sock addr port junk => (∃ i < qlen, (user i).valid = false) ∨
      (junk < qlen ∧ loginUser sock addr port (user junk) = user junk)
  | _ => True

theorem admitsToFree_iff (user : Table) (a : TableWrite) : user.AdmitsToFree a ↔ user.HasRoom a := by
  cases a with
  | login sock addr port junk => exact Slots.place_iff
  | _ => exact Iff.rfl

end Table
end Multi

namespace Server

/-- What `main` writes to the slot of a new client. -/
def loginUser (sock : ℕ) (addr : List Char) (port : ℕ) (w : User) : User :=
  { w with
    valid := true
    sock := sock
    addr := addr
    env := "bin:.".toList
    name := "(no name)".toList
    port := port
    batchFlag := false
    ignore := false }

/-- The descriptor the next client gets. -/
def nextSock (s : Server) : ℕ := (s.kernel.alloc (.sock s.accepted)).2

/-- The server after one turn. -/
def next (s : Server) (i : Input) : Option Server := (s.step i).map (·.1)

/-- What a login should do: fill in the lowest free slot and no other. -/
def AdmitsToFree (s : Server) : Input → Prop
  | .accept addr port junk => ∃ t, s.next (.accept addr port junk) = some t ∧
      Slots.Admitted qlen User.valid (loginUser s.nextSock addr port) s.user t.user
  | _ => True

/-- A slot is free, or the slot `junk` holds what is written to it. -/
def HasRoom (s : Server) : Input → Prop
  | .accept addr port junk => (∃ i < qlen, (s.user i).valid = false) ∨
      (junk < qlen ∧ loginUser s.nextSock addr port (s.user junk) = s.user junk)
  | _ => True

/-- The table after a login. -/
theorem accept_user (s : Server) (addr : List Char) (port junk : ℕ) :
    (s.next (.accept addr port junk)).map Server.user =
      Slots.place qlen User.valid (loginUser s.nextSock addr port) junk s.user := by
  by_cases h : s.spaceInd junk < qlen
  · have hplace : Slots.place qlen User.valid (loginUser s.nextSock addr port) junk s.user = some _ := if_pos h
    have haccept : s.acceptClient addr port junk = some _ := if_pos h
    rw [hplace, next, step, haccept]
    rfl
  · have hplace : Slots.place qlen User.valid (loginUser s.nextSock addr port) junk s.user = none := if_neg h
    have haccept : s.acceptClient addr port junk = none := if_neg h
    rw [hplace, next, step, haccept]
    rfl

theorem admitsToFree_iff (s : Server) (i : Input) : s.AdmitsToFree i ↔ s.HasRoom i := by
  cases i with
  | accept addr port junk =>
    have huser := s.accept_user addr port junk
    refine Iff.trans ?_ Slots.place_iff
    constructor
    · rintro ⟨t, ht, hadm⟩
      rw [ht] at huser
      exact ⟨t.user, huser.symm, hadm⟩
    · rintro ⟨user, hplace, hadm⟩
      rw [hplace, Option.map_eq_some_iff] at huser
      obtain ⟨t, ht, rfl⟩ := huser
      exact ⟨t, ht, hadm⟩
  | _ => exact Iff.rfl

end Server

/-! ### Admission along a run -/

namespace Admission

/-- From any table on, each login of a run is an admission if and only if each finds room. -/
theorem admission_iff (s : Server) (is : List Server.Input) (user : Multi.Table)
    (as : List Multi.TableWrite) :
    (Meets Server.next Server.AdmitsToFree s is ↔ Meets Server.next Server.HasRoom s is) ∧
      (Meets Multi.Table.step Multi.Table.AdmitsToFree user as ↔
        Meets Multi.Table.step Multi.Table.HasRoom user as) :=
  ⟨meets_congr Server.admitsToFree_iff s is, meets_congr Multi.Table.admitsToFree_iff user as⟩

/-- The table after `n` logins without an address. -/
structure Filled {σ : Type} (valid : σ → Bool) (addr : σ → List Char) (n : ℕ) (user : ℕ → σ) : Prop where
  taken : ∀ i < qlen, valid (user i) = decide (i < n)
  unknown : ∀ i < qlen, valid (user i) = true → addr (user i) = []

/-- One more login. -/
theorem Filled.next {σ : Type} {valid : σ → Bool} {addr : σ → List Char} {n : ℕ} {user : ℕ → σ}
    (h : Filled valid addr n user) (fill : σ → σ) (hn : n < qlen) (junk : ℕ)
    (hvalid : ∀ w, valid (fill w) = true) (haddr : ∀ w, addr (fill w) = []) :
    ∃ user', Slots.place qlen valid fill junk user = some user' ∧ Filled valid addr (n + 1) user' := by
  refine ⟨_, Slots.place_free (Slots.lowestFree_of_prefix h.taken hn), fun i hi => ?_, fun i hi => ?_⟩
  · rcases eq_or_ne i n with rfl | hne
    · simp [hvalid]
    · rw [Function.update_of_ne hne, h.taken i hi]
      exact decide_eq_decide.mpr (by omega)
  · rcases eq_or_ne i n with rfl | hne
    · simp [haddr]
    · rw [Function.update_of_ne hne]
      exact h.unknown i hi

/-- A full table has no room for a client with an address. -/
theorem Filled.no_room {σ : Type} {valid : σ → Bool} {addr : σ → List Char} {user : ℕ → σ}
    (h : Filled valid addr qlen user) {fill : σ → σ} (haddr : ∀ w, addr (fill w) ≠ []) :
    ¬ ((∃ i < qlen, valid (user i) = false) ∨ (0 < qlen ∧ fill (user 0) = user 0)) := by
  rintro (⟨i, hi, hfree⟩ | ⟨hpos, hsame⟩)
  · have hvalid := h.taken i hi
    simp [hi, hfree] at hvalid
  · refine haddr (user 0) ?_
    rw [hsame]
    exact h.unknown 0 hpos ((h.taken 0 hpos).trans (decide_eq_true hpos))

theorem server_filled (environ : Environ) : ∀ n ≤ qlen, ∃ s,
    runWith Server.next (Server.init environ) (List.replicate n (.accept [] 0 0)) = some s ∧
      Filled Server.User.valid Server.User.addr n s.user := by
  intro n
  induction n with
  | zero => exact fun _ => ⟨_, rfl, fun i _ => by simp [Server.init], fun i _ _ => rfl⟩
  | succ n ih =>
    intro hn
    obtain ⟨s, hs, hfilled⟩ := ih (by omega)
    obtain ⟨user, hplace, hnext⟩ := hfilled.next (Server.loginUser s.nextSock [] 0) hn 0
      (fun _ => rfl) fun _ => rfl
    have huser := s.accept_user [] 0 0
    rw [hplace, Option.map_eq_some_iff] at huser
    obtain ⟨t, ht, rfl⟩ := huser
    refine ⟨t, ?_, hnext⟩
    rw [List.replicate_succ', runWith_append, hs, Option.bind_some, runWith_step ht]
    rfl

theorem multi_filled (memory : Multi.Table) : ∀ n ≤ qlen, ∃ user,
    runWith Multi.Table.step (.start memory) (List.replicate n (.login 4 [] 0 0)) = some user ∧
      Filled Multi.User.valid Multi.User.addr n user := by
  intro n
  induction n with
  | zero => exact fun _ => ⟨_, rfl, fun i _ => by simp [Multi.Table.start], fun i _ h => by cases h⟩
  | succ n ih =>
    intro hn
    obtain ⟨user, huser, hfilled⟩ := ih (by omega)
    obtain ⟨user', hplace, hnext⟩ := hfilled.next (Multi.loginUser 4 [] 0) hn 0
      (fun _ => rfl) fun _ => rfl
    refine ⟨user', ?_, hnext⟩
    have hstep : user.step (.login 4 [] 0 0) = some user' := hplace
    rw [List.replicate_succ', runWith_append, huser, Option.bind_some, runWith_step hstep]
    rfl

/-- In both servers the 31st client gets the slot of the first, when `space_ind` happens to be 0. -/
theorem full_table_disturbed :
    (∃ is s, runWith Server.next (Server.init fun _ => none) is = some s ∧
      ¬ s.AdmitsToFree (.accept ['x'] 0 0)) ∧
    ∃ as user, runWith Multi.Table.step (.start .zero) as = some user ∧
      ¬ user.AdmitsToFree (.login 34 ['x'] 0 0) := by
  constructor
  · obtain ⟨s, hs, hfilled⟩ := server_filled (fun _ => none) qlen le_rfl
    exact ⟨_, s, hs, fun h => hfilled.no_room (fun _ => List.cons_ne_nil 'x' []) ((s.admitsToFree_iff _).mp h)⟩
  · obtain ⟨user, huser, hfilled⟩ := multi_filled .zero qlen le_rfl
    exact ⟨_, user, huser,
      fun h => hfilled.no_room (fun _ => List.cons_ne_nil 'x' []) ((user.admitsToFree_iff _).mp h)⟩

end Admission
end NetProg
