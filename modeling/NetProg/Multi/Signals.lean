import NetProg.Lib.Run

/-! The signals of `np_multi_proc` (`broadcast_msg` and `tell` in `npshell_3.h`, the slots and pids
    `main` hands out).

    `main` makes a slot valid, and the process of the client writes its pid there later; whoever sends
    a message meanwhile takes the pid that was there before. The sections of `clisem` are no order
    between the steps here: a process blocked in `semop` goes on into its section when a signal comes,
    and `tell` looks at `valid` before its section. -/

namespace NetProg.Multi

namespace Signals

local instance instNeZeroSlots : NeZero 30 := ⟨by decide⟩

/-- What the senders use of an entry of `user`. -/
structure Slot where
  valid : Bool
  pid : ℕ
  deriving DecidableEq

/-- The process of a client: not forked yet, started, with its pid written, with its slot given up by
    `exit`, ended after that, and ended by a signal before it. -/
inductive Life where
  | unborn
  | started
  | runs
  | left
  | ended
  | killed
  deriving DecidableEq

/-- `exit` has not been executed. -/
def Life.serves : Life → Bool
  | unborn | started | runs | killed => true
  | left | ended => false

/-- The process has written its pid, and did not end before `exit`. -/
def Life.settled : Life → Bool
  | runs | left | ended => true
  | unborn | started | killed => false

/-- A client with its slot and its process. -/
structure Client where
  slot : Fin 30
  pid : ℕ
  life : Life

/-- Where a sender is: not sending, in `broadcast_msg` before the test of entry `k` (behind the last one
    for 30), in `broadcast_msg` before the `kill` for a valid entry, and in `tell` before the `kill`
    for the entry `check_id_exist` has found valid. -/
inductive Sending where
  | idle
  | test (k : ℕ)
  | kill (k : Fin 30)
  | tell (k : Fin 30)

/-- Where the loop of `main` is: before the section that takes a slot, and before the `fork` for a
    client in a slot. -/
inductive Main where
  | accept
  | fork (c : ℕ)
  deriving DecidableEq

/-- The server: `user`, the clients so far, where `main` is, and the senders. A message may come from
    the process of a client or from a child it has forked, so the senders are apart. -/
structure Server where
  user : Fin 30 → Slot
  count : ℕ
  client : ℕ → Client
  main : Main
  sender : ℕ → Sending

/-- What can happen next. -/
inductive Action where
  | place (old : Fin 30)
  | fork (pid : ℕ)
  | forkError
  | setPid (c : ℕ)
  | exit (c : ℕ)
  | finish (c : ℕ)
  | signal (c : ℕ)
  | broadcast (p : ℕ)
  | tell (p : ℕ) (k : Fin 30)
  | send (p : ℕ)

namespace Server

/-- The server before the first client. The memory of `user` may hold anything else. -/
def start (user : Fin 30 → Slot) : Server where
  user i := { user i with valid := false }
  count := 0
  client _ := ⟨0, 0, .ended⟩
  main := .accept
  sender _ := .idle

/-- Change a slot. -/
def modifyUser (s : Server) (i : Fin 30) (f : Slot → Slot) : Server :=
  { s with user := Function.update s.user i (f (s.user i)) }

/-- The process of a client goes on. -/
def setLife (s : Server) (c : ℕ) (l : Life) : Server :=
  { s with client := Function.update s.client c { s.client c with life := l } }

/-- A sender goes on. -/
def setSender (s : Server) (p : ℕ) (x : Sending) : Server :=
  { s with sender := Function.update s.sender p x }

/-- The slot `main` takes: the first that is not valid. -/
def free (s : Server) : Option (Fin 30) := (List.finRange 30).find? fun i => !(s.user i).valid

/-- A pid that `fork` may return: not 0, and that of no process that runs. -/
def Unused (s : Server) (pid : ℕ) : Prop :=
  pid ≠ 0 ∧ ∀ c < s.count, (s.client c).life = .started ∨ (s.client c).life = .runs ∨
    (s.client c).life = .left → (s.client c).pid ≠ pid

instance (s : Server) (pid : ℕ) : Decidable (s.Unused pid) := inferInstanceAs (Decidable (_ ∧ _))

/-- The loop of `broadcast_msg`, before entry `k`. -/
def test (s : Server) (p k : ℕ) : Server :=
  if h : k < 30 then
    if (s.user ⟨k, h⟩).valid then s.setSender p (.kill ⟨k, h⟩) else s.setSender p (.test (k + 1))
  else s.setSender p .idle

/-- One action. Without a free slot `space_ind` is not set, and `old` is what it holds. -/
def step (s : Server) : Action → Option Server
  | .place old =>
    if s.main = .accept then
      let i := s.free.getD old
      some { s.modifyUser i fun u => { u with valid := true } with
        count := s.count + 1
        client := Function.update s.client s.count ⟨i, 0, .unborn⟩
        main := .fork s.count }
    else none
  | .fork pid =>
    match s.main with
    | .fork c =>
      if s.Unused pid then
        some { s with
          client := Function.update s.client c { s.client c with pid := pid, life := .started }
          main := .accept }
      else none
    | _ => none
  | .forkError =>
    match s.main with
    | .fork _ => some { s with main := .accept }
    | _ => none
  | .setPid c =>
    if (s.client c).life = .started then
      some ((s.modifyUser (s.client c).slot fun u => { u with pid := (s.client c).pid }).setLife c .runs)
    else none
  | .exit c =>
    if (s.client c).life = .runs then
      some ((s.modifyUser (s.client c).slot fun u => { u with valid := false }).setLife c .left)
    else none
  | .finish c => if (s.client c).life = .left then some (s.setLife c .ended) else none
  | .signal c =>
    if (s.client c).life = .started ∨ (s.client c).life = .runs then some (s.setLife c .killed)
    else if (s.client c).life = .left then some (s.setLife c .ended)
    else none
  | .broadcast p =>
    match s.sender p with
    | .idle => some (s.setSender p (.test 0))
    | _ => none
  | .tell p k =>
    match s.sender p with
    | .idle => if (s.user k).valid then some (s.setSender p (.tell k)) else some s
    | _ => none
  | .send p =>
    match s.sender p with
    | .idle => none
    | .test k => some (s.test p k)
    | .kill k => some (s.setSender p (.test (k + 1)))
    | .tell _ => some (s.setSender p .idle)

/-- The call `kill(user[i].pid,SIGUSR1)` an action makes: the slot it is for, and the pid. -/
def kills (s : Server) : Action → Option (Fin 30 × ℕ)
  | .send p =>
    match s.sender p with
    | .kill k | .tell k => some (k, (s.user k).pid)
    | _ => none
  | _ => none

/-- The last client `main` has given the slot to, if it has not given it up. -/
structure Occupies (s : Server) (c : ℕ) (k : Fin 30) : Prop where
  slot : (s.client c).slot = k
  serves : (s.client c).life.serves = true
  last : ∀ d < s.count, (s.client d).slot = k → d ≤ c

/-- A signal goes to the process that runs for the client in the slot. -/
def Reaches (s : Server) (a : Action) : Prop :=
  ∀ call ∈ s.kills a, call.2 ≠ 0 ∧ ∃ c, s.Occupies c call.1 ∧ (s.client c).life = .runs ∧
    (s.client c).pid = call.2

/-- A slot that is valid, and none of the clients it was given to has still to write a pid or has
    ended before its `exit`. -/
def Settled (s : Server) (k : Fin 30) : Prop :=
  (s.user k).valid = true ∧ ∀ c < s.count, (s.client c).slot = k → (s.client c).life.settled = true

instance (s : Server) (k : Fin 30) : Decidable (s.Settled k) := inferInstanceAs (Decidable (_ ∧ _))

/-- `main` finds a free slot, and a signal is sent for a settled one. -/
def Timely (s : Server) : Action → Prop
  | .place _ => s.free.isSome = true
  | .send p =>
    match s.sender p with
    | .kill k | .tell k => s.Settled k
    | _ => True
  | _ => True

instance (s : Server) (a : Action) : Decidable (s.Timely a) := by
  cases a with
  | send p =>
    unfold Timely
    dsimp only
    split <;> infer_instance
  | _ =>
    unfold Timely
    infer_instance

/-! ### What timely actions keep -/

/-- Every valid slot has one client that has not given it up, the last it was given to, and has its pid
    as soon as the process of the client has written it. -/
structure Kept (s : Server) : Prop where
  born : ∀ c, (s.client c).life ≠ .ended → c < s.count
  forking : ∀ c, s.main = .fork c → (s.client c).life = .unborn
  valid : ∀ c, (s.client c).life.serves = true → (s.user (s.client c).slot).valid = true
  last : ∀ c, (s.client c).life.serves = true → ∀ d < s.count, (s.client d).slot = (s.client c).slot →
    d ≤ c
  occupied : ∀ k, (s.user k).valid = true → ∃ c, (s.client c).slot = k ∧ (s.client c).life.serves = true
  positive : ∀ c, (s.client c).life = .started → (s.client c).pid ≠ 0
  known : ∀ c, (s.client c).life = .runs → (s.user (s.client c).slot).pid = (s.client c).pid ∧
    (s.client c).pid ≠ 0

variable {s t : Server} {c : ℕ} {k : Fin 30}

theorem kept_start (user : Fin 30 → Slot) : (start user).Kept where
  born c h := absurd rfl h
  forking c h := by cases h
  valid c h := by cases h
  last c h := by cases h
  occupied k h := by cases h
  positive c h := by cases h
  known c h := by cases h

/-- Two clients that have not given up one slot are one client. -/
theorem Kept.slot_inj (h : s.Kept) {d : ℕ} (hc : (s.client c).life.serves = true)
    (hd : (s.client d).life.serves = true) (heq : (s.client c).slot = (s.client d).slot) : c = d := by
  have hlt : ∀ {e}, (s.client e).life.serves = true → e < s.count := fun {e} he =>
    h.born e fun hended => by simp [hended, Life.serves] at he
  exact le_antisymm (h.last d hd c (hlt hc) heq) (h.last c hc d (hlt hd) heq.symm)

/-- A signal for a settled slot reaches its client. -/
theorem Kept.settled (h : s.Kept) (hk : s.Settled k) : (s.user k).pid ≠ 0 ∧
    ∃ c, s.Occupies c k ∧ (s.client c).life = .runs ∧ (s.client c).pid = (s.user k).pid := by
  obtain ⟨hvalid, hsettled⟩ := hk
  obtain ⟨c, rfl, hserves⟩ := h.occupied k hvalid
  have hruns : (s.client c).life = .runs := by
    have hc : c < s.count := h.born c fun hended => by simp [hended, Life.serves] at hserves
    have hset := hsettled c hc rfl
    cases hlife : (s.client c).life <;> simp_all [Life.serves, Life.settled]
  obtain ⟨hpid, hne⟩ := h.known c hruns
  exact ⟨hpid ▸ hne, c, ⟨rfl, hserves, h.last c hserves⟩, hruns, hpid.symm⟩

theorem Kept.reaches (h : s.Kept) {a : Action} (ha : s.Timely a) : s.Reaches a := by
  intro call hcall
  cases a with
  | send p =>
    cases hp : s.sender p with
    | kill k | tell k =>
      simp only [Timely, hp] at ha
      simp only [kills, hp, Option.mem_some_iff] at hcall
      subst hcall
      exact h.settled ha
    | _ => simp [kills, hp] at hcall
  | _ => cases hcall

/-! ### Runs -/

/-- Only the senders go on. -/
theorem Kept.setSender (h : s.Kept) (p : ℕ) (x : Sending) : (s.setSender p x).Kept :=
  ⟨h.born, h.forking, h.valid, h.last, h.occupied, h.positive, h.known⟩

/-- A client whose process has not been forked is new to the slot it gets. -/
theorem kept_place (h : s.Kept) (hfree : s.free = some k) :
    Kept { s.modifyUser k fun u => { u with valid := true } with
      count := s.count + 1
      client := Function.update s.client s.count ⟨k, 0, .unborn⟩
      main := .fork s.count } := by
  have hinvalid : (s.user k).valid = false := by simpa using List.find?_some hfree
  have hout : ∀ d, (s.client d).life.serves = true → (s.client d).slot ≠ k := by
    rintro d hserves rfl
    exact absurd (h.valid d hserves) (by simp [hinvalid])
  have hlt : ∀ d, (s.client d).life.serves = true → d < s.count := fun d hd =>
    h.born d fun hended => by simp [hended, Life.serves] at hd
  refine ⟨fun d hd => ?_, fun d hmain => ?_, fun d hd => ?_, fun d hd e he heq => ?_, fun j hj => ?_,
    fun d hd => ?_, fun d hd => ?_⟩
  · rcases eq_or_ne d s.count with rfl | hne
    · exact Nat.lt_succ_self _
    · simp only [Function.update_of_ne hne] at hd
      exact Nat.lt_succ_of_lt (h.born d hd)
  · obtain rfl : s.count = d := Main.fork.inj hmain
    simp only [Function.update_self]
  · rcases eq_or_ne d s.count with rfl | hne
    · simp [modifyUser]
    · simp only [Function.update_of_ne hne] at hd ⊢
      simp only [modifyUser, Function.update_of_ne (hout d hd)]
      exact h.valid d hd
  · simp only at he
    rcases eq_or_ne d s.count with rfl | hne
    · omega
    · simp only [Function.update_of_ne hne] at hd heq
      rcases eq_or_ne e s.count with rfl | hne'
      · simp only [Function.update_self] at heq
        exact absurd heq.symm (hout d hd)
      · simp only [Function.update_of_ne hne'] at heq
        exact h.last d hd e (by omega) heq
  · rcases eq_or_ne j k with rfl | hjk
    · exact ⟨s.count, by simp [Life.serves]⟩
    · simp only [modifyUser, Function.update_of_ne hjk] at hj
      obtain ⟨d, hslot, hserves⟩ := h.occupied j hj
      refine ⟨d, ?_⟩
      simp only [Function.update_of_ne (hlt d hserves).ne]
      exact ⟨hslot, hserves⟩
  · rcases eq_or_ne d s.count with rfl | hne
    · simp at hd
    · simp only [Function.update_of_ne hne] at hd ⊢
      exact h.positive d hd
  · rcases eq_or_ne d s.count with rfl | hne
    · simp at hd
    · simp only [Function.update_of_ne hne] at hd ⊢
      have hslot : (s.client d).slot ≠ k := hout d (by simp [hd, Life.serves])
      simp only [modifyUser, Function.update_of_ne hslot]
      exact h.known d hd

/-- The record of one client changes, its slot stays, and so does whether it has given it up. -/
theorem Kept.setClient (h : s.Kept) {x : Client} {m : Main} (hc : c < s.count)
    (hslot : x.slot = (s.client c).slot) (hserves : x.life.serves = (s.client c).life.serves)
    (hmain : ∀ d, m = .fork d → d ≠ c ∧ s.main = .fork d) (hstarted : x.life = .started → x.pid ≠ 0)
    (hruns : x.life = .runs → (s.user x.slot).pid = x.pid ∧ x.pid ≠ 0) :
    Kept { s with client := Function.update s.client c x, main := m } := by
  have hslots : ∀ d, (Function.update s.client c x d).slot = (s.client d).slot := fun d => by
    rcases eq_or_ne d c with rfl | hne
    · rw [Function.update_self, hslot]
    · rw [Function.update_of_ne hne]
  have hserve : ∀ d, (Function.update s.client c x d).life.serves = (s.client d).life.serves := fun d => by
    rcases eq_or_ne d c with rfl | hne
    · rw [Function.update_self, hserves]
    · rw [Function.update_of_ne hne]
  refine ⟨fun d hd => ?_, fun d hd => ?_, fun d hd => ?_, fun d hd e he heq => ?_, fun j hj => ?_,
    fun d hd => ?_, fun d hd => ?_⟩
  · rcases eq_or_ne d c with rfl | hne
    · exact hc
    · simp only [Function.update_of_ne hne] at hd
      exact h.born d hd
  · obtain ⟨hne, hfork⟩ := hmain d hd
    simp only [Function.update_of_ne hne]
    exact h.forking d hfork
  · simp only [hserve] at hd
    simp only [hslots]
    exact h.valid d hd
  · simp only [hserve, hslots] at hd heq
    exact h.last d hd e he heq
  · obtain ⟨d, hd⟩ := h.occupied j hj
    refine ⟨d, ?_⟩
    simp only [hslots, hserve]
    exact hd
  · rcases eq_or_ne d c with rfl | hne
    · simp only [Function.update_self] at hd ⊢
      exact hstarted hd
    · simp only [Function.update_of_ne hne] at hd ⊢
      exact h.positive d hd
  · rcases eq_or_ne d c with rfl | hne
    · simp only [Function.update_self] at hd ⊢
      exact hruns hd
    · simp only [Function.update_of_ne hne] at hd ⊢
      exact h.known d hd

/-- The process of a client that has been forked goes on. -/
theorem Kept.setLife (h : s.Kept) {l : Life} (hne : (s.client c).life ≠ .ended)
    (hborn : (s.client c).life ≠ .unborn) (hserves : l.serves = (s.client c).life.serves)
    (hl : l ≠ .started) (hruns : l = .runs → (s.user (s.client c).slot).pid = (s.client c).pid ∧
      (s.client c).pid ≠ 0) : (s.setLife c l).Kept := by
  refine h.setClient (h.born c hne) rfl hserves (fun d hd => ⟨?_, hd⟩) (fun hs => absurd hs hl) hruns
  rintro rfl
  exact hborn (h.forking d hd)

/-- The pid is written for the only client of the slot. -/
theorem kept_setPid (h : s.Kept) (hlife : (s.client c).life = .started) :
    ((s.modifyUser (s.client c).slot fun u => { u with pid := (s.client c).pid }).setLife c .runs).Kept := by
  have hvalid : ∀ j, ((s.modifyUser (s.client c).slot fun u =>
      { u with pid := (s.client c).pid }).user j).valid = (s.user j).valid := fun j => by
    rcases eq_or_ne j (s.client c).slot with rfl | hj <;> simp [modifyUser, *]
  have hkept : (s.modifyUser (s.client c).slot fun u => { u with pid := (s.client c).pid }).Kept := by
    refine ⟨h.born, h.forking, fun d hd => ?_, h.last, fun j hj => ?_, h.positive, fun d hd => ?_⟩
    · rw [hvalid]
      exact h.valid d hd
    · rw [hvalid] at hj
      exact h.occupied j hj
    · have hd' : (s.client d).life = .runs := hd
      have hslot : (s.client d).slot ≠ (s.client c).slot := by
        intro heq
        obtain rfl := h.slot_inj (by simp [hd', Life.serves]) (by simp [hlife, Life.serves]) heq
        rw [hlife] at hd'
        cases hd'
      simp only [modifyUser, Function.update_of_ne hslot]
      exact h.known d hd'
  refine hkept.setLife ?_ ?_ ?_ (by simp) fun _ => ⟨by simp [modifyUser], h.positive c hlife⟩
  all_goals simp [modifyUser, hlife, Life.serves]

/-- `exit` gives up a slot no other client has. -/
theorem kept_exit (h : s.Kept) (hlife : (s.client c).life = .runs) :
    ((s.modifyUser (s.client c).slot fun u => { u with valid := false }).setLife c .left).Kept := by
  have hout : ∀ d ≠ c, (s.client d).life.serves = true → (s.client d).slot ≠ (s.client c).slot := by
    intro d hne hserves heq
    exact hne (h.slot_inj hserves (by simp [hlife, Life.serves]) heq)
  have hslots : ∀ d, (Function.update s.client c { s.client c with life := .left } d).slot =
      (s.client d).slot := fun d => by
    rcases eq_or_ne d c with rfl | hne <;> simp [*]
  have hserve : ∀ d, (Function.update s.client c { s.client c with life := .left } d).life.serves = true →
      d ≠ c ∧ (s.client d).life.serves = true := fun d hd => by
    rcases eq_or_ne d c with rfl | hne
    · simp [Life.serves] at hd
    · rw [Function.update_of_ne hne] at hd
      exact ⟨hne, hd⟩
  refine ⟨fun d hd => ?_, fun d hd => ?_, fun d hd => ?_, fun d hd e he heq => ?_, fun j hj => ?_,
    fun d hd => ?_, fun d hd => ?_⟩
  · rcases eq_or_ne d c with rfl | hne
    · exact h.born d (by simp [hlife])
    · simp only [Server.setLife, modifyUser, Function.update_of_ne hne] at hd
      exact h.born d hd
  · have hunborn := h.forking d hd
    rcases eq_or_ne d c with rfl | hne
    · rw [hlife] at hunborn
      cases hunborn
    · simpa [Server.setLife, modifyUser, hne] using hunborn
  · obtain ⟨hne, hserves⟩ := hserve d hd
    simp only [Server.setLife, modifyUser, hslots, Function.update_of_ne (hout d hne hserves)]
    exact h.valid d hserves
  · obtain ⟨hne, hserves⟩ := hserve d hd
    simp only [Server.setLife, modifyUser, hslots] at heq
    exact h.last d hserves e he heq
  · rcases eq_or_ne j (s.client c).slot with rfl | hj'
    · simp [Server.setLife, modifyUser] at hj
    · simp only [Server.setLife, modifyUser, Function.update_of_ne hj'] at hj
      obtain ⟨d, hslot, hserves⟩ := h.occupied j hj
      have hne : d ≠ c := by
        rintro rfl
        exact hj' hslot.symm
      refine ⟨d, ?_⟩
      simp only [Server.setLife, modifyUser, Function.update_of_ne hne]
      exact ⟨hslot, hserves⟩
  · rcases eq_or_ne d c with rfl | hne
    · simp [Server.setLife] at hd
    · simp only [Server.setLife, modifyUser, Function.update_of_ne hne] at hd ⊢
      exact h.positive d hd
  · rcases eq_or_ne d c with rfl | hne
    · simp [Server.setLife] at hd
    · simp only [Server.setLife, modifyUser, Function.update_of_ne hne] at hd ⊢
      rw [Function.update_of_ne (hout d hne (by simp [hd, Life.serves]))]
      exact h.known d hd

/-- The end of a process that has been forked, before its `exit` or after it. -/
theorem kept_signal (h : s.Kept) (hs : s.step (.signal c) = some t) : t.Kept := by
  simp only [step] at hs
  split_ifs at hs with hserves hleft
  · obtain rfl := Option.some.inj hs
    rcases hserves with hlife | hlife
    · exact h.setLife (by simp [hlife]) (by simp [hlife]) (by simp [hlife, Life.serves]) (by simp) (by simp)
    · exact h.setLife (by simp [hlife]) (by simp [hlife]) (by simp [hlife, Life.serves]) (by simp) (by simp)
  · obtain rfl := Option.some.inj hs
    exact h.setLife (by simp [hleft]) (by simp [hleft]) (by simp [hleft, Life.serves]) (by simp) (by simp)

/-- A step of a sender. -/
theorem kept_send (h : s.Kept) {p : ℕ} (hs : s.step (.send p) = some t) : t.Kept := by
  cases hp : s.sender p with
  | idle => simp [step, hp] at hs
  | test k =>
    obtain rfl : s.test p k = t := by simpa [step, hp] using hs
    unfold test
    split_ifs
    all_goals exact h.setSender p _
  | kill k | tell k =>
    simp only [step, hp, Option.some.injEq] at hs
    subst hs
    exact h.setSender p _

/-- A timely action keeps the invariant. -/
theorem kept_step (s : Server) (a : Action) (t : Server) (h : s.Kept) (ha : s.Timely a)
    (hs : s.step a = some t) : t.Kept := by
  cases a with
  | place old =>
    obtain ⟨k, hfree⟩ := Option.isSome_iff_exists.mp ha
    simp only [step, hfree, Option.getD_some, Option.ite_none_right_eq_some, Option.some.injEq] at hs
    obtain ⟨-, rfl⟩ := hs
    exact kept_place h hfree
  | fork pid =>
    cases hmain : s.main with
    | accept => simp [step, hmain] at hs
    | fork c =>
      have hlife := h.forking c hmain
      simp only [step, hmain, Option.ite_none_right_eq_some, Option.some.injEq] at hs
      obtain ⟨hpid, rfl⟩ := hs
      exact h.setClient (h.born c (by simp [hlife])) rfl (by simp [hlife, Life.serves]) (by simp)
        (fun _ => hpid.1) (by simp)
  | forkError =>
    cases hmain : s.main with
    | accept => simp [step, hmain] at hs
    | fork c =>
      simp only [step, hmain, Option.some.injEq] at hs
      subst hs
      exact ⟨h.born, fun _ hd => (by cases hd), h.valid, h.last, h.occupied, h.positive, h.known⟩
  | setPid c =>
    simp only [step, Option.ite_none_right_eq_some, Option.some.injEq] at hs
    obtain ⟨hlife, rfl⟩ := hs
    exact kept_setPid h hlife
  | exit c =>
    simp only [step, Option.ite_none_right_eq_some, Option.some.injEq] at hs
    obtain ⟨hlife, rfl⟩ := hs
    exact kept_exit h hlife
  | finish c =>
    simp only [step, Option.ite_none_right_eq_some, Option.some.injEq] at hs
    obtain ⟨hlife, rfl⟩ := hs
    exact h.setLife (by simp [hlife]) (by simp [hlife]) (by simp [hlife, Life.serves]) (by simp) (by simp)
  | signal c => exact kept_signal h hs
  | broadcast p =>
    cases hp : s.sender p with
    | idle =>
      simp only [step, hp, Option.some.injEq] at hs
      subst hs
      exact h.setSender p _
    | _ => simp [step, hp] at hs
  | tell p k =>
    cases hp : s.sender p with
    | idle =>
      simp only [step, hp] at hs
      split_ifs at hs
      · obtain rfl := Option.some.inj hs
        exact h.setSender p _
      · obtain rfl := Option.some.inj hs
        exact h
    | _ => simp [step, hp] at hs
  | send p => exact kept_send h hs

/-- As long as the actions are timely, every signal goes to the process of the client in the slot. -/
theorem signals_reach (user : Fin 30 → Slot) (as : List Action) (h : Meets step Timely (start user) as) :
    Meets step Reaches (start user) as :=
  meets_of_meets kept_step (fun _ _ hk ha => hk.reaches ha) (kept_start user) h

/-- A client logs in, and another after it, whose process has not started yet. -/
def secondLogin : List Action := [.place 0, .fork 100, .setPid 0, .place 0, .fork 101]

/-- The second process writes its pid before the broadcast of the first. -/
def pidFirst : List Action := secondLogin ++ [.setPid 1, .broadcast 0] ++ List.replicate 33 (.send 0)

/-- The broadcast is over, and all its signals went to the right process. -/
theorem signals_reach_pid_first : ((runWith step (start fun _ => ⟨false, 0⟩) pidFirst).map fun t =>
      ((t.user 0).pid, (t.user 1).pid)) = some (100, 101) ∧
    Meets step Reaches (start fun _ => ⟨false, 0⟩) pidFirst := by
  refine ⟨by decide +kernel, signals_reach _ pidFirst ?_⟩
  decide +kernel

/-- The first client signals everybody before the second process has written its pid: it signals the
    process 0. -/
theorem signals_pid_zero : ∃ t, runWith step (start fun _ => ⟨false, 0⟩)
      (secondLogin ++ [.broadcast 0, .send 0, .send 0, .send 0]) = some t ∧
    t.kills (.send 0) = some (1, 0) ∧ ¬ t.Reaches (.send 0) := by
  refine ⟨_, rfl, rfl, fun h => ?_⟩
  exact (h (1, 0) rfl).1 rfl

end Server

end Signals

end NetProg.Multi
