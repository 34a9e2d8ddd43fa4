import NetProg.Lib.Run

/-! The sockets and slots of `np_multi_proc` (the loop of `main`, `client_exit`, and the ends of a
    client's process).

    The server keeps the socket of every client. It closes it in the handler of `SIGCHLD`, which waits
    for one process and looks for its pid in `user`. The pid is written by the process itself, a slot
    keeps the pid of its last user, and signals that come together are one signal. -/

namespace NetProg.Multi

namespace Lifecycle

/-- What the server uses of an entry of `user`. -/
structure Slot where
  valid : Bool
  pid : ℕ
  sock : ℕ

/-- The process of a client: not forked yet, started, with its pid written, with its slot given up by
    `exit`, ended, and waited for. -/
inductive Life where
  | unborn
  | started
  | runs
  | left
  | ended
  | reaped
  deriving DecidableEq

/-- The slot of the client is in use. -/
def Life.serves : Life → Bool
  | unborn | started | runs => true
  | _ => false

/-- The pid has been written to the slot. -/
def Life.known : Life → Bool
  | unborn | started => false
  | _ => true

/-- The process has ended. -/
def Life.over : Life → Bool
  | ended | reaped => true
  | _ => false

/-- A client: the descriptor `accept` gave it in the server, its slot, and its process. -/
structure Client where
  fd : ℕ
  slot : Option (Fin 30)
  pid : ℕ
  life : Life

/-- Where the loop of `main` is: before `accept`, before the section that takes a slot for a client,
    and before the `fork` for a client in a slot. -/
inductive Main where
  | accept
  | place (c : ℕ)
  | fork (c : ℕ) (i : Fin 30)
  deriving DecidableEq

/-- Where `client_exit` is: not running, before `wait`, before the loop over `user` for the pid of a
    client, and before the `printf` with the index it has found. -/
inductive Handler where
  | idle
  | wait
  | search (c : ℕ)
  | report (i : ℕ)
  deriving DecidableEq

/-- The server: `user`, its descriptor table with the client behind each socket, the clients accepted
    so far, and whether a `SIGCHLD` is pending. `closes` and `indices` are kept to speak about: the
    sockets closed, each with the client whose process was waited for, and the indices used. -/
structure Server where
  user : Fin 30 → Slot
  files : ℕ → Option ℕ
  count : ℕ
  client : ℕ → Client
  main : Main
  sigchld : Bool
  handler : Handler
  closes : List (ℕ × ℕ)
  indices : List ℕ

/-- What can happen next. -/
inductive Action where
  | accept (fd : ℕ)
  | place (old : Fin 30)
  | fork (pid : ℕ)
  | forkError
  | setPid (c : ℕ)
  | exit (c : ℕ)
  | finish (c : ℕ)
  | endOfInput (c : ℕ)
  | signal (c : ℕ)
  | deliver
  | wait (c : ℕ)
  | search
  | report

namespace Server

/-- The server before the first client. The memory of `user` may hold anything else. -/
def start (user : Fin 30 → Slot) : Server where
  user i := { user i with valid := false }
  files _ := none
  count := 0
  client _ := ⟨0, none, 0, .unborn⟩
  main := .accept
  sigchld := false
  handler := .idle
  closes := []
  indices := []

/-- Change a client. -/
def modifyClient (s : Server) (c : ℕ) (f : Client → Client) : Server :=
  { s with client := Function.update s.client c (f (s.client c)) }

/-- Change a slot. -/
def modifyUser (s : Server) (i : Fin 30) (f : Slot → Slot) : Server :=
  { s with user := Function.update s.user i (f (s.user i)) }

/-- The slot `main` takes: the first that is not valid. -/
def free (s : Server) : Option (Fin 30) := (List.finRange 30).find? fun i => !(s.user i).valid

/-- The slot `client_exit` finds: the first with the pid. -/
def find (s : Server) (pid : ℕ) : Option (Fin 30) := (List.finRange 30).find? fun i => (s.user i).pid = pid

/-- `close` of a descriptor, for the process of client `c`. -/
def close (s : Server) (c fd : ℕ) : Server :=
  match s.files fd with
  | some d => { s with files := Function.update s.files fd none, closes := s.closes ++ [(c, d)] }
  | none => s

/-- A pid that `fork` may return: that of no process that runs or has not been waited for. -/
def Unused (s : Server) (pid : ℕ) : Prop :=
  ∀ c < s.count, (s.client c).life ≠ .unborn → (s.client c).life ≠ .reaped → (s.client c).pid ≠ pid

instance (s : Server) (pid : ℕ) : Decidable (s.Unused pid) :=
  inferInstanceAs (Decidable (∀ c < s.count, _))

/-- One action. `main` stands still while the handler runs. Without a free slot `space_ind` is not
    set, and `old` is what it holds. At the end of its input a process reads on; it ends by `exit`, or
    by a signal, such as the `SIGPIPE` of a prompt for a client that is gone. -/
def step (s : Server) : Action → Option Server
  | .accept fd =>
    if s.handler = .idle ∧ s.main = .accept ∧ s.files fd = none then
      some { s with
        files := Function.update s.files fd (some s.count)
        count := s.count + 1
        client := Function.update s.client s.count ⟨fd, none, 0, .unborn⟩
        main := .place s.count }
    else none
  | .place old =>
    match s.handler, s.main with
    | .idle, .place c =>
      let i := s.free.getD old
      some { (s.modifyUser i fun u => { u with valid := true, sock := (s.client c).fd }).modifyClient c
        fun x => { x with slot := some i } with main := .fork c i }
    | _, _ => none
  | .fork pid =>
    match s.handler, s.main with
    | .idle, .fork c _ =>
      if s.Unused pid then
        some { s.modifyClient c fun x => { x with pid := pid, life := .started } with main := .accept }
      else none
    | _, _ => none
  | .forkError =>
    match s.handler, s.main with
    | .idle, .fork _ _ => some { s with main := .accept }
    | _, _ => none
  | .setPid c =>
    match (s.client c).life, (s.client c).slot with
    | .started, some i =>
      some ((s.modifyUser i fun u => { u with pid := (s.client c).pid }).modifyClient c
        fun x => { x with life := .runs })
    | _, _ => none
  | .exit c =>
    match (s.client c).life, (s.client c).slot with
    | .runs, some i =>
      some ((s.modifyUser i fun u => { u with valid := false }).modifyClient c
        fun x => { x with life := .left })
    | _, _ => none
  | .finish c =>
    if (s.client c).life = .left then
      some { s.modifyClient c fun x => { x with life := .ended } with sigchld := true }
    else none
  | .endOfInput c => if (s.client c).life = .runs then some s else none
  | .signal c =>
    if (s.client c).life = .started ∨ (s.client c).life = .runs ∨ (s.client c).life = .left then
      some { s.modifyClient c fun x => { x with life := .ended } with sigchld := true }
    else none
  | .deliver =>
    if s.sigchld = true ∧ s.handler = .idle then some { s with sigchld := false, handler := .wait }
    else none
  | .wait c =>
    if s.handler = .wait ∧ c < s.count ∧ (s.client c).life = .ended then
      some { s.modifyClient c fun x => { x with life := .reaped } with handler := .search c }
    else none
  | .search =>
    match s.handler with
    | .search c =>
      match s.find (s.client c).pid with
      | some i => some { s.close c (s.user i).sock with handler := .report i }
      | none => some { s with handler := .report 30 }
    | _ => none
  | .report =>
    match s.handler with
    | .report i => some { s with handler := .idle, indices := s.indices ++ [i] }
    | _ => none

/-- What the sockets and slots should be like: a socket is closed once, for its own client, after its
    process has ended; when no signal is pending and the handler does not run, the sockets of all
    ended processes are closed; the slot of an ended process is free or another client's; and `user`
    is not read past its end. -/
structure Tidy (s : Server) : Prop where
  once : (s.closes.map Prod.snd).Nodup
  own : ∀ p ∈ s.closes, p.2 = p.1
  after : ∀ p ∈ s.closes, (s.client p.2).life.over = true
  all : s.sigchld = false → s.handler = .idle → ∀ c < s.count, (s.client c).life.over = true →
    c ∈ s.closes.map Prod.snd
  freed : ∀ c < s.count, (s.client c).life.over = true → ∃ i, (s.client c).slot = some i ∧
    ((s.user i).valid = false ∨ ∃ d, c < d ∧ d < s.count ∧ (s.client d).slot = some i)
  below : ∀ i ∈ s.indices, i < 30

/-- A slot is free, and the processes of all clients it had have been waited for; the pid of a new
    process stands in no other slot; and a process ends after `exit`, and while no `SIGCHLD` is
    pending. -/
def Orderly (s : Server) : Action → Prop
  | .place _ => ∃ i, s.free = some i ∧
      ∀ c < s.count, (s.client c).slot = some i → (s.client c).life = .reaped
  | .fork pid =>
    match s.main with
    | .fork _ i => ∀ j ≠ i, (s.user j).pid ≠ pid
    | _ => True
  | .forkError => False
  | .finish _ => s.sigchld = false
  | .signal c => (s.client c).life = .left ∧ s.sigchld = false
  | _ => True

instance (s : Server) (a : Action) : Decidable (s.Orderly a) := by
  cases a with
  | fork pid =>
    unfold Orderly
    dsimp only
    split <;> infer_instance
  | _ =>
    unfold Orderly
    infer_instance

/-! ### What orderly actions keep -/

/-- A client whose socket has not been closed. -/
def Live (s : Server) (c : ℕ) : Prop :=
  c < s.count ∧ ((s.client c).life ≠ .reaped ∨ s.handler = .search c)

/-- A client in its slot. -/
structure Placed (s : Server) (c : ℕ) (i : Fin 30) : Prop where
  slot : (s.client c).slot = some i
  sock : (s.user i).sock = (s.client c).fd
  valid : (s.user i).valid = (s.client c).life.serves
  known : (s.client c).life.known = true → (s.user i).pid = (s.client c).pid
  others : (s.client c).life ≠ .unborn → ∀ j ≠ i, (s.user j).pid ≠ (s.client c).pid

/-- What holds as long as the actions are orderly. -/
structure Kept (s : Server) : Prop where
  born : ∀ c, (s.client c).life ≠ .unborn → c < s.count
  placing : ∀ c, s.main = .place c → c + 1 = s.count ∧ (s.client c).life = .unborn ∧
    (s.client c).slot = none
  forking : ∀ c i, s.main = .fork c i → c < s.count ∧ (s.client c).life = .unborn ∧
    (s.client c).slot = some i
  file : ∀ c, s.Live c → s.files (s.client c).fd = some c
  placed : ∀ c, s.Live c → s.main ≠ .place c → ∃ i, s.Placed c i
  distinct : ∀ c d, s.Live c → s.Live d → (s.client c).life ≠ .unborn → (s.client d).life ≠ .unborn →
    (s.client c).pid = (s.client d).pid → c = d
  searching : ∀ c, s.handler = .search c → c < s.count ∧ (s.client c).life = .reaped
  closed : ∀ c, c ∈ s.closes.map Prod.fst ↔
    c < s.count ∧ (s.client c).life = .reaped ∧ s.handler ≠ .search c
  own : ∀ p ∈ s.closes, p.2 = p.1
  once : (s.closes.map Prod.fst).Nodup
  zombies : ∃ zs : List ℕ, zs.Nodup ∧ (∀ c, c ∈ zs ↔ c < s.count ∧ (s.client c).life = .ended) ∧
    zs.length = s.sigchld.toNat + if s.handler = .wait then 1 else 0
  freed : ∀ c < s.count, (s.client c).life.over = true → ∃ i, (s.client c).slot = some i ∧
    ((s.user i).valid = false ∨ ∃ d, c < d ∧ d < s.count ∧ (s.client d).slot = some i)
  reporting : ∀ i, s.handler = .report i → i < 30
  below : ∀ i ∈ s.indices, i < 30

variable {s t : Server} {c d : ℕ} {i : Fin 30}

/-- A client stays in its slot when both stay and no other slot takes its pid. -/
theorem Placed.frame (h : s.Placed d i) (hclient : t.client d = s.client d) (huser : t.user i = s.user i)
    (hpid : ∀ j ≠ i, (s.client d).life ≠ .unborn → (t.user j).pid ≠ (s.client d).pid) : t.Placed d i where
  slot := by rw [hclient, h.slot]
  sock := by rw [huser, hclient, h.sock]
  valid := by rw [huser, hclient, h.valid]
  known hk := by
    rw [hclient] at hk
    rw [huser, hclient, h.known hk]
  others hl j hj := by
    rw [hclient] at hl ⊢
    exact hpid j hj hl

/-- Two clients are not in one slot. -/
theorem Kept.slot_inj (h : s.Kept) (hc : s.Live c) (hd : s.Live d) (hci : s.Placed c i)
    (hdi : s.Placed d i) : c = d := by
  have hfd : (s.client c).fd = (s.client d).fd := by rw [← hci.sock, hdi.sock]
  have hcd := h.file c hc
  rw [hfd, h.file d hd] at hcd
  exact (Option.some.inj hcd).symm

theorem Kept.tidy (h : s.Kept) : s.Tidy := by
  have hsnd : s.closes.map Prod.snd = s.closes.map Prod.fst := List.map_congr_left fun p hp => h.own p hp
  refine ⟨hsnd ▸ h.once, h.own, fun p hp => ?_, fun hsig hidle c hc hover => ?_, h.freed, h.below⟩
  · have hmem : p.2 ∈ s.closes.map Prod.fst := h.own p hp ▸ List.mem_map_of_mem hp
    rw [((h.closed p.2).mp hmem).2.1]
    rfl
  · rw [hsnd, h.closed c]
    refine ⟨hc, ?_, by simp [hidle]⟩
    obtain ⟨zs, -, hzs, hlen⟩ := h.zombies
    rw [hsig, hidle] at hlen
    obtain rfl : zs = [] := List.length_eq_zero_iff.mp hlen
    have hne : (s.client c).life ≠ .ended := fun hended => List.not_mem_nil ((hzs c).mpr ⟨hc, hended⟩)
    cases hlife : (s.client c).life <;> simp_all [Life.over]

theorem kept_start (user : Fin 30 → Slot) : (start user).Kept where
  born c h := absurd rfl h
  placing c h := by simp [start] at h
  forking c i h := by simp [start] at h
  file c h := absurd h.1 (Nat.not_lt_zero c)
  placed c h := absurd h.1 (Nat.not_lt_zero c)
  distinct c _ h := absurd h.1 (Nat.not_lt_zero c)
  searching c h := by simp [start] at h
  closed c := by simp [start]
  own p h := by simp [start] at h
  once := List.nodup_nil
  zombies := ⟨[], List.nodup_nil, by simp [start], by simp [start]⟩
  freed c h := absurd h (Nat.not_lt_zero c)
  reporting i h := by simp [start] at h
  below i h := by simp [start] at h

/-! ### The process of a client -/

/-- Of all clients only the life of `c` changes, to `l`. -/
structure Lives (s t : Server) (c : ℕ) (l : Life) : Prop where
  count : t.count = s.count
  handler : t.handler = s.handler
  self : t.client c = { s.client c with life := l }
  others : ∀ d, d ≠ c → t.client d = s.client d

namespace Lives

variable {l : Life}

theorem fd (h : Lives s t c l) (d : ℕ) : (t.client d).fd = (s.client d).fd := by
  by_cases hd : d = c
  · rw [hd, h.self]
  · rw [h.others d hd]

theorem slot (h : Lives s t c l) (d : ℕ) : (t.client d).slot = (s.client d).slot := by
  by_cases hd : d = c
  · rw [hd, h.self]
  · rw [h.others d hd]

theorem pid (h : Lives s t c l) (d : ℕ) : (t.client d).pid = (s.client d).pid := by
  by_cases hd : d = c
  · rw [hd, h.self]
  · rw [h.others d hd]

/-- Nothing changes for whether another life is this one, unless it is the old or the new one of `c`. -/
theorem life_eq_iff (h : Lives s t c l) {m : Life} (hold : (s.client c).life ≠ m) (hnew : l ≠ m) (d : ℕ) :
    (t.client d).life = m ↔ (s.client d).life = m := by
  by_cases hd : d = c
  · rw [hd, h.self]
    exact ⟨fun heq => absurd heq hnew, fun heq => absurd heq hold⟩
  · rw [h.others d hd]

theorem live_iff (h : Lives s t c l) (hold : (s.client c).life ≠ .reaped) (hnew : l ≠ .reaped) (d : ℕ) :
    t.Live d ↔ s.Live d := by
  rw [Live, Live, h.count, h.handler, Ne, h.life_eq_iff hold hnew d]

end Lives

/-- The process of a client writes its pid, gives up its slot, or ends. -/
theorem kept_life (h : s.Kept) (hc : c < s.count) (hi : s.Placed c i) {l : Life} {u : Slot} {b : Bool}
    (hbefore : (s.client c).life = .started ∨ (s.client c).life = .runs ∨ (s.client c).life = .left)
    (hafter : l = .runs ∨ l = .left ∨ l = .ended) (hsock : u.sock = (s.user i).sock)
    (hvalid : u.valid = l.serves) (hpid : u.pid = (s.client c).pid)
    (hfree : (s.user i).valid = false → u.valid = false)
    (hsig : b = true ∧ s.sigchld = false ∧ l = .ended ∨ b = s.sigchld ∧ l ≠ .ended) :
    Kept { s.modifyClient c fun x => { x with life := l } with
      user := Function.update s.user i u, sigchld := b } := by
  have hunborn : (s.client c).life ≠ .unborn := by rcases hbefore with h | h | h <;> simp [h]
  have hreaped : (s.client c).life ≠ .reaped := by rcases hbefore with h | h | h <;> simp [h]
  have hended : (s.client c).life ≠ .ended := by rcases hbefore with h | h | h <;> simp [h]
  have hl : l ≠ .unborn ∧ l ≠ .reaped := by rcases hafter with rfl | rfl | rfl <;> simp
  have hlive : s.Live c := ⟨hc, Or.inl hreaped⟩
  set t : Server := { s.modifyClient c fun x => { x with life := l } with
    user := Function.update s.user i u, sigchld := b } with ht
  have hlives : Lives s t c l :=
    ⟨rfl, rfl, by simp [ht, modifyClient], fun d hd => by simp [ht, modifyClient, hd]⟩
  have hliveIff := hlives.live_iff hreaped hl.2
  have huser : ∀ j, j ≠ i → t.user j = s.user j := fun j hj => by simp [ht, hj]
  have huseri : t.user i = u := by simp [ht]
  -- no other slot holds a pid that stands there now
  have hothers : ∀ d j, d ≠ c → s.Live d → s.Placed d j → t.Placed d j := by
    intro d j hd hlived hj
    have hji : j ≠ i := by
      rintro rfl
      exact hd (h.slot_inj hlived hlive hj hi)
    refine hj.frame (hlives.others d hd) (huser j hji) fun k hk hborn => ?_
    by_cases hki : k = i
    · rw [hki, huseri, hpid]
      exact fun heq => hd (h.distinct d c hlived hlive hborn hunborn heq.symm)
    · rw [huser k hki]
      exact hj.others hborn k hk
  refine ⟨?_, ?_, ?_, ?_, ?_, ?_, ?_, ?_, h.own, h.once, ?_, ?_, h.reporting, h.below⟩
  · intro d hd
    rw [Ne, hlives.life_eq_iff hunborn hl.1 d] at hd
    exact h.born d hd
  · intro d hd
    obtain ⟨hlt, hlife, hslot⟩ := h.placing d hd
    exact ⟨hlt, (hlives.life_eq_iff hunborn hl.1 d).mpr hlife, (hlives.slot d).trans hslot⟩
  · intro d j hd
    obtain ⟨hlt, hlife, hslot⟩ := h.forking d j hd
    exact ⟨hlt, (hlives.life_eq_iff hunborn hl.1 d).mpr hlife, (hlives.slot d).trans hslot⟩
  · intro d hd
    rw [hlives.fd d]
    exact h.file d ((hliveIff d).mp hd)
  · intro d hd hne
    have hlived := (hliveIff d).mp hd
    by_cases hdc : d = c
    · subst hdc
      refine ⟨i, ?_, ?_, ?_, ?_, ?_⟩
      · rw [hlives.slot d, hi.slot]
      · rw [huseri, hlives.fd d, hsock, hi.sock]
      · rw [huseri, hlives.self, hvalid]
      · rw [huseri, hlives.pid d]
        exact fun _ => hpid
      · intro _ j hj
        rw [huser j hj, hlives.pid d]
        exact hi.others hunborn j hj
    · obtain ⟨j, hj⟩ := h.placed d hlived hne
      exact ⟨j, hothers d j hdc hlived hj⟩
  · intro d e hd he hdb heb heq
    rw [hlives.pid d, hlives.pid e] at heq
    refine h.distinct d e ((hliveIff d).mp hd) ((hliveIff e).mp he) ?_ ?_ heq
    · rwa [Ne, ← hlives.life_eq_iff hunborn hl.1 d]
    · rwa [Ne, ← hlives.life_eq_iff hunborn hl.1 e]
  · intro d hd
    obtain ⟨hlt, hlife⟩ := h.searching d hd
    exact ⟨hlt, (hlives.life_eq_iff hreaped hl.2 d).mpr hlife⟩
  · intro d
    rw [hlives.life_eq_iff hreaped hl.2 d]
    exact h.closed d
  · obtain ⟨zs, hnodup, hzs, hlen⟩ := h.zombies
    rcases hsig with ⟨hb, hnone, hlend⟩ | ⟨hb, hlne⟩
    · have hcz : c ∉ zs := fun hmem => hended ((hzs c).mp hmem).2
      refine ⟨c :: zs, List.nodup_cons.mpr ⟨hcz, hnodup⟩, fun d => ?_, ?_⟩
      · by_cases hdc : d = c
        · subst hdc
          rw [hlives.self]
          simp only [List.mem_cons, true_or, true_iff]
          exact ⟨hc, hlend⟩
        · rw [hlives.others d hdc, List.mem_cons, or_iff_right hdc]
          exact hzs d
      · show zs.length + 1 = b.toNat + _
        rw [hlen, hb, hnone]
        simp only [Bool.toNat_false, Bool.toNat_true, Nat.zero_add]
        exact Nat.add_comm _ _
    · refine ⟨zs, hnodup, fun d => ?_, ?_⟩
      · rw [hzs d, hlives.life_eq_iff hended hlne d]
        rfl
      · show zs.length = b.toNat + _
        rw [hlen, hb]
        rfl
  · -- a slot that was free stays free
    intro d hd hover
    have hkeep : ∀ j, (s.user j).valid = false → (t.user j).valid = false := by
      intro j hj
      by_cases hji : j = i
      · subst hji
        rw [huseri]
        exact hfree hj
      · rw [huser j hji]
        exact hj
    by_cases hdc : d = c
    · subst hdc
      refine ⟨i, (hlives.slot d).trans hi.slot, Or.inl ?_⟩
      rw [huseri, hvalid]
      rw [hlives.self] at hover
      rcases hafter with rfl | rfl | rfl <;> simp_all [Life.over, Life.serves]
    · rw [hlives.others d hdc] at hover ⊢
      obtain ⟨j, hj, hfreed⟩ := h.freed d hd hover
      refine ⟨j, hj, hfreed.imp (hkeep j) ?_⟩
      rintro ⟨e, hde, he, hslot⟩
      exact ⟨e, hde, he, (hlives.slot e).trans hslot⟩

/-- A process that runs has its client in a slot. -/
theorem Kept.placed_of_alive (h : s.Kept) (hlife : (s.client c).life = .started ∨
    (s.client c).life = .runs ∨ (s.client c).life = .left) (hslot : (s.client c).slot = some i) :
    c < s.count ∧ s.Placed c i := by
  have hne : (s.client c).life ≠ .unborn ∧ (s.client c).life ≠ .reaped := by
    rcases hlife with h | h | h <;> simp [h]
  have hc := h.born c hne.1
  have hmain : s.main ≠ .place c := fun hm => hne.1 (h.placing c hm).2.1
  obtain ⟨j, hj⟩ := h.placed c ⟨hc, Or.inl hne.2⟩ hmain
  obtain rfl : i = j := Option.some.inj (hslot.symm.trans hj.slot)
  exact ⟨hc, hj⟩

/-- A process ends after it has given up its slot. -/
theorem kept_ended (h : s.Kept) (hlife : (s.client c).life = .left) (hsig : s.sigchld = false) :
    Kept { s.modifyClient c fun x => { x with life := .ended } with sigchld := true } := by
  have hc := h.born c (by simp [hlife])
  have hmain : s.main ≠ .place c := fun hm => by
    have hunborn := (h.placing c hm).2.1
    rw [hlife] at hunborn
    cases hunborn
  obtain ⟨i, hi⟩ := h.placed c ⟨hc, Or.inl (by simp [hlife])⟩ hmain
  have hvalid := hi.valid
  have hknown := hi.known (by rw [hlife]; rfl)
  rw [hlife] at hvalid
  have hkept := kept_life (u := s.user i) (b := true) h hc hi (Or.inr (Or.inr hlife))
    (Or.inr (Or.inr rfl)) rfl hvalid hknown id (Or.inl ⟨rfl, hsig, rfl⟩)
  rwa [Function.update_eq_self] at hkept

/-! ### The loop of `main` -/

theorem kept_accept (h : s.Kept) {fd : ℕ} (hidle : s.handler = .idle) (hmain : s.main = .accept)
    (hfd : s.files fd = none) : Kept { s with
      files := Function.update s.files fd (some s.count)
      count := s.count + 1
      client := Function.update s.client s.count ⟨fd, none, 0, .unborn⟩
      main := .place s.count } := by
  set t : Server := { s with
    files := Function.update s.files fd (some s.count)
    count := s.count + 1
    client := Function.update s.client s.count ⟨fd, none, 0, .unborn⟩
    main := .place s.count } with ht
  have hself : t.client s.count = ⟨fd, none, 0, .unborn⟩ := by simp [ht]
  have hothers : ∀ d, d < s.count → t.client d = s.client d := fun d hd => by simp [ht, hd.ne]
  have hcases : ∀ {d}, d < t.count → d = s.count ∨ d < s.count := fun {d} hd => by
    have hle : d < s.count + 1 := hd
    omega
  have hlive : ∀ {d}, t.Live d → d ≠ s.count → d < s.count ∧ s.Live d := by
    rintro d ⟨hlt, hd⟩ hne
    have hold := (hcases hlt).resolve_left hne
    rw [hothers d hold] at hd
    exact ⟨hold, hold, hd⟩
  refine ⟨?_, ?_, ?_, ?_, ?_, ?_, ?_, ?_, h.own, h.once, ?_, ?_, h.reporting, h.below⟩
  · intro d hd
    by_cases hdn : d = s.count
    · rw [hdn]
      exact Nat.lt_succ_self s.count
    · have hsame : t.client d = s.client d := by simp [ht, hdn]
      rw [hsame] at hd
      exact Nat.lt_succ_of_lt (h.born d hd)
  · rintro d hd
    obtain rfl : s.count = d := Main.place.inj hd
    rw [hself]
    exact ⟨rfl, rfl, rfl⟩
  · intro d j hd
    cases hd
  · intro d hd
    by_cases hdn : d = s.count
    · subst hdn
      simp [ht]
    · obtain ⟨hlt, hold⟩ := hlive hd hdn
      have hfile := h.file d hold
      have hne : (s.client d).fd ≠ fd := by
        rintro heq
        rw [heq, hfd] at hfile
        cases hfile
      rw [hothers d hlt]
      simpa [ht, hne] using hfile
  · intro d hd hne
    have hdn : d ≠ s.count := fun heq => hne (heq ▸ rfl)
    obtain ⟨hlt, hold⟩ := hlive hd hdn
    obtain ⟨j, hj⟩ := h.placed d hold (by simp [hmain])
    exact ⟨j, hj.frame (hothers d hlt) rfl fun k hk hborn => hj.others hborn k hk⟩
  · intro d e hd he hdb heb heq
    have hdn : d ≠ s.count := fun hdn => hdb (by rw [hdn, hself])
    have hen : e ≠ s.count := fun hen => heb (by rw [hen, hself])
    obtain ⟨hdl, hold⟩ := hlive hd hdn
    obtain ⟨hel, hole⟩ := hlive he hen
    rw [hothers d hdl] at hdb heq
    rw [hothers e hel] at heb heq
    exact h.distinct d e hold hole hdb heb heq
  · intro d hd
    rw [hidle] at hd
    cases hd
  · intro d
    rw [h.closed d]
    constructor
    · rintro ⟨hlt, hlife, hne⟩
      exact ⟨Nat.lt_succ_of_lt hlt, by rw [hothers d hlt, hlife], hne⟩
    · rintro ⟨hlt, hlife, hne⟩
      rcases hcases hlt with rfl | hold
      · rw [hself] at hlife
        cases hlife
      · rw [hothers d hold] at hlife
        exact ⟨hold, hlife, hne⟩
  · obtain ⟨zs, hnodup, hzs, hlen⟩ := h.zombies
    refine ⟨zs, hnodup, fun d => (hzs d).trans ?_, hlen⟩
    constructor
    · rintro ⟨hlt, hlife⟩
      exact ⟨Nat.lt_succ_of_lt hlt, by rw [hothers d hlt, hlife]⟩
    · rintro ⟨hlt, hlife⟩
      rcases hcases hlt with rfl | hold
      · rw [hself] at hlife
        cases hlife
      · rw [hothers d hold] at hlife
        exact ⟨hold, hlife⟩
  · intro d hlt hover
    rcases hcases hlt with rfl | hold
    · rw [hself] at hover
      cases hover
    · rw [hothers d hold] at hover ⊢
      obtain ⟨j, hj, hfreed⟩ := h.freed d hold hover
      refine ⟨j, hj, hfreed.imp_right ?_⟩
      rintro ⟨e, hde, he, hslot⟩
      exact ⟨e, hde, Nat.lt_succ_of_lt he, by rw [hothers e he, hslot]⟩

/-- A client gets a slot whose former clients have all been dealt with. -/
theorem kept_place (h : s.Kept) (hidle : s.handler = .idle) (hmain : s.main = .place c)
    (hunused : ∀ d < s.count, (s.client d).slot = some i → (s.client d).life = .reaped) :
    Kept { (s.modifyUser i fun u => { u with valid := true, sock := (s.client c).fd }).modifyClient c
      fun x => { x with slot := some i } with main := .fork c i } := by
  obtain ⟨hcount, hlife, hnone⟩ := h.placing c hmain
  set t : Server := { (s.modifyUser i fun u => { u with valid := true, sock := (s.client c).fd }).modifyClient c
    fun x => { x with slot := some i } with main := .fork c i } with ht
  have hself : t.client c = { s.client c with slot := some i } := by simp [ht, modifyClient, modifyUser]
  have hothers : ∀ d, d ≠ c → t.client d = s.client d := fun d hd => by
    simp [ht, modifyClient, modifyUser, hd]
  have huseri : t.user i = { s.user i with valid := true, sock := (s.client c).fd } := by
    simp [ht, modifyClient, modifyUser]
  have huser : ∀ j, j ≠ i → t.user j = s.user j := fun j hj => by simp [ht, modifyClient, modifyUser, hj]
  have hpids : ∀ j, (t.user j).pid = (s.user j).pid := by
    intro j
    by_cases hj : j = i
    · rw [hj, huseri]
    · rw [huser j hj]
  have hrest : ∀ d, (t.client d).life = (s.client d).life ∧ (t.client d).fd = (s.client d).fd ∧
      (t.client d).pid = (s.client d).pid := by
    intro d
    by_cases hd : d = c
    · rw [hd, hself]
      exact ⟨rfl, rfl, rfl⟩
    · rw [hothers d hd]
      exact ⟨rfl, rfl, rfl⟩
  have hlive : ∀ d, t.Live d → s.Live d := by
    rintro d ⟨hlt, hd⟩
    rw [(hrest d).1] at hd
    exact ⟨hlt, hd⟩
  refine ⟨?_, ?_, ?_, ?_, ?_, ?_, ?_, ?_, h.own, h.once, ?_, ?_, h.reporting, h.below⟩
  · intro d hd
    rw [(hrest d).1] at hd
    exact h.born d hd
  · intro d hd
    cases hd
  · intro d j hd
    cases hd
    rw [hself]
    refine ⟨?_, hlife, rfl⟩
    show c < s.count
    omega
  · intro d hd
    rw [(hrest d).2.1]
    exact h.file d (hlive d hd)
  · intro d hd _
    by_cases hdc : d = c
    · subst hdc
      refine ⟨i, ?_, ?_, ?_, ?_, ?_⟩
      · rw [hself]
      · rw [huseri, hself]
      · rw [huseri, hself, hlife]
        rfl
      · rw [hself, hlife]
        simp [Life.known]
      · intro hborn
        exact absurd ((hrest d).1.trans hlife) hborn
    · have hold := hlive d hd
      have hne : s.main ≠ .place d := by
        rw [hmain]
        exact fun heq => hdc (Main.place.inj heq).symm
      obtain ⟨j, hj⟩ := h.placed d hold hne
      have hji : j ≠ i := by
        rintro rfl
        rcases hold.2 with hnot | hsearch
        · exact hnot (hunused d hold.1 hj.slot)
        · rw [hidle] at hsearch
          cases hsearch
      refine ⟨j, hj.frame (hothers d hdc) (huser j hji) fun k hk hborn => ?_⟩
      rw [hpids k]
      exact hj.others hborn k hk
  · intro d e hd he hdb heb heq
    rw [(hrest d).2.2, (hrest e).2.2] at heq
    rw [(hrest d).1] at hdb
    rw [(hrest e).1] at heb
    exact h.distinct d e (hlive d hd) (hlive e he) hdb heb heq
  · intro d hd
    rw [(hrest d).1]
    exact h.searching d hd
  · intro d
    rw [(hrest d).1]
    exact h.closed d
  · obtain ⟨zs, hnodup, hzs, hlen⟩ := h.zombies
    refine ⟨zs, hnodup, fun d => ?_, hlen⟩
    rw [(hrest d).1]
    exact hzs d
  · intro d hd hover
    rw [(hrest d).1] at hover
    have hdc : d ≠ c := by
      rintro rfl
      rw [hlife] at hover
      cases hover
    obtain ⟨j, hj, hfreed⟩ := h.freed d hd hover
    rw [hothers d hdc]
    refine ⟨j, hj, ?_⟩
    by_cases hji : j = i
    · -- the slot is now that of a later client
      have hdlt : d < s.count := hd
      refine Or.inr ⟨c, by omega, ?_, ?_⟩
      · show c < s.count
        omega
      · rw [hself, hji]
    · rw [huser j hji]
      refine hfreed.imp_right ?_
      rintro ⟨e, hde, he, hslot⟩
      have hec : e ≠ c := by
        rintro rfl
        rw [hnone] at hslot
        cases hslot
      exact ⟨e, hde, he, by rw [hothers e hec, hslot]⟩

/-- A process is forked, with a pid that stands in no other slot. -/
theorem kept_fork (h : s.Kept) {pid : ℕ} (hidle : s.handler = .idle) (hmain : s.main = .fork c i)
    (hunused : s.Unused pid) (hpid : ∀ j ≠ i, (s.user j).pid ≠ pid) :
    Kept { s.modifyClient c fun x => { x with pid := pid, life := .started } with main := .accept } := by
  obtain ⟨hcount, hlife, hslot⟩ := h.forking c i hmain
  set t : Server := { s.modifyClient c fun x => { x with pid := pid, life := .started } with
    main := .accept } with ht
  have hself : t.client c = { s.client c with pid := pid, life := .started } := by simp [ht, modifyClient]
  have hothers : ∀ d, d ≠ c → t.client d = s.client d := fun d hd => by simp [ht, modifyClient, hd]
  have hlives : ∀ l, l ≠ .unborn → l ≠ .started → ∀ d, (t.client d).life = l ↔ (s.client d).life = l := by
    intro l hu hs d
    by_cases hd : d = c
    · rw [hd, hself, hlife]
      exact ⟨fun heq => absurd heq.symm hs, fun heq => absurd heq.symm hu⟩
    · rw [hothers d hd]
  have hlive : ∀ d, t.Live d → s.Live d := by
    rintro d ⟨hlt, hd⟩
    rw [Ne, hlives .reaped (by simp) (by simp)] at hd
    exact ⟨hlt, hd⟩
  -- the pid is not that of another process
  have hnew : ∀ d, d ≠ c → s.Live d → (s.client d).life ≠ .unborn → (s.client d).pid ≠ pid := by
    intro d hd hold hborn
    refine hunused d hold.1 hborn (hold.2.resolve_right fun hsearch => ?_)
    rw [hidle] at hsearch
    cases hsearch
  refine ⟨?_, ?_, ?_, ?_, ?_, ?_, ?_, ?_, h.own, h.once, ?_, ?_, h.reporting, h.below⟩
  · intro d hd
    by_cases hdc : d = c
    · exact hdc ▸ hcount
    · rw [hothers d hdc] at hd
      exact h.born d hd
  · intro d hd
    cases hd
  · intro d j hd
    cases hd
  · intro d hd
    have hfd : (t.client d).fd = (s.client d).fd := by
      by_cases hdc : d = c
      · rw [hdc, hself]
      · rw [hothers d hdc]
    rw [hfd]
    exact h.file d (hlive d hd)
  · intro d hd _
    have hne : s.main ≠ .place d := by simp [hmain]
    obtain ⟨j, hj⟩ := h.placed d (hlive d hd) hne
    by_cases hdc : d = c
    · subst hdc
      obtain rfl : i = j := Option.some.inj (hslot.symm.trans hj.slot)
      refine ⟨i, ?_, ?_, ?_, ?_, ?_⟩
      · rw [hself, ← hslot]
      · rw [hself]
        exact hj.sock
      · have hvalid := hj.valid
        rw [hlife] at hvalid
        rw [hself]
        exact hvalid
      · rw [hself]
        simp [Life.known]
      · intro _ k hk
        rw [hself]
        exact hpid k hk
    · exact ⟨j, hj.frame (hothers d hdc) rfl fun k hk hborn => hj.others hborn k hk⟩
  · intro d e hd he hdb heb heq
    by_cases hdc : d = c
    · by_cases hec : e = c
      · rw [hdc, hec]
      · rw [hdc, hself, hothers e hec] at heq
        rw [hothers e hec] at heb
        exact absurd heq.symm (hnew e hec (hlive e he) heb)
    · rw [hothers d hdc] at hdb heq
      by_cases hec : e = c
      · rw [hec, hself] at heq
        exact absurd heq (hnew d hdc (hlive d hd) hdb)
      · rw [hothers e hec] at heb heq
        exact h.distinct d e (hlive d hd) (hlive e he) hdb heb heq
  · intro d hd
    rw [hlives .reaped (by simp) (by simp)]
    exact h.searching d hd
  · intro d
    rw [hlives .reaped (by simp) (by simp)]
    exact h.closed d
  · obtain ⟨zs, hnodup, hzs, hlen⟩ := h.zombies
    refine ⟨zs, hnodup, fun d => ?_, hlen⟩
    rw [hlives .ended (by simp) (by simp)]
    exact hzs d
  · have hslots : ∀ d, (t.client d).slot = (s.client d).slot := by
      intro d
      by_cases hdc : d = c
      · rw [hdc, hself]
      · rw [hothers d hdc]
    intro d hd hover
    have hdc : d ≠ c := by
      rintro rfl
      rw [hself] at hover
      cases hover
    rw [hothers d hdc] at hover
    obtain ⟨j, hj, hfreed⟩ := h.freed d hd hover
    refine ⟨j, (hslots d).trans hj, hfreed.imp_right ?_⟩
    rintro ⟨e, hde, he, hslot⟩
    exact ⟨e, hde, he, (hslots e).trans hslot⟩

/-! ### The handler -/

/-- The handler starts, or ends. -/
theorem kept_handler (h : s.Kept) {x : Handler} {b : Bool} {indices : List ℕ}
    (hold : ∀ c, s.handler ≠ .search c) (hnew : ∀ c, x ≠ .search c) (hreport : ∀ i, x ≠ .report i)
    (hcount : (b.toNat + if x = .wait then 1 else 0) =
      s.sigchld.toNat + if s.handler = .wait then 1 else 0)
    (hbelow : ∀ i ∈ indices, i < 30) :
    Kept { s with handler := x, sigchld := b, indices := indices } := by
  set t : Server := { s with handler := x, sigchld := b, indices := indices } with ht
  have hlive : ∀ d, t.Live d → s.Live d := by
    rintro d ⟨hlt, hd⟩
    exact ⟨hlt, Or.inl (hd.resolve_right (hnew d))⟩
  refine ⟨h.born, h.placing, h.forking, fun d hd => h.file d (hlive d hd), fun d hd hne => ?_, ?_, ?_, ?_,
    h.own, h.once, ?_, h.freed, fun j hj => absurd hj (hreport j), hbelow⟩
  · obtain ⟨j, hj⟩ := h.placed d (hlive d hd) hne
    exact ⟨j, hj.frame rfl rfl fun k hk hborn => hj.others hborn k hk⟩
  · exact fun d e hd he => h.distinct d e (hlive d hd) (hlive e he)
  · exact fun d hd => absurd hd (hnew d)
  · intro d
    rw [h.closed d]
    exact and_congr_right fun _ => and_congr_right fun _ => iff_of_true (hold d) (hnew d)
  · obtain ⟨zs, hnodup, hzs, hlen⟩ := h.zombies
    exact ⟨zs, hnodup, hzs, hlen.trans hcount.symm⟩

/-- The handler waits for one of the processes that have ended. -/
theorem kept_wait (h : s.Kept) (hwait : s.handler = .wait) (hc : c < s.count)
    (hended : (s.client c).life = .ended) :
    Kept { s.modifyClient c fun x => { x with life := .reaped } with handler := .search c } := by
  set t : Server := { s.modifyClient c fun x => { x with life := .reaped } with
    handler := .search c } with ht
  have hself : t.client c = { s.client c with life := .reaped } := by simp [ht, modifyClient]
  have hothers : ∀ d, d ≠ c → t.client d = s.client d := fun d hd => by simp [ht, modifyClient, hd]
  have hlivec : s.Live c := ⟨hc, Or.inl (by simp [hended])⟩
  have hlive : ∀ d, t.Live d → s.Live d := by
    rintro d ⟨hlt, hd⟩
    by_cases hdc : d = c
    · exact hdc ▸ hlivec
    · rw [hothers d hdc] at hd
      exact ⟨hlt, Or.inl (hd.resolve_right fun heq => hdc (Handler.search.inj heq).symm)⟩
  have hrest : ∀ d, (t.client d).fd = (s.client d).fd ∧ (t.client d).pid = (s.client d).pid ∧
      (t.client d).slot = (s.client d).slot := by
    intro d
    by_cases hd : d = c
    · rw [hd, hself]
      exact ⟨rfl, rfl, rfl⟩
    · rw [hothers d hd]
      exact ⟨rfl, rfl, rfl⟩
  have hunborn : ∀ d, (s.client d).life = .unborn → (t.client d).life = .unborn := by
    intro d hd
    have hdc : d ≠ c := by
      rintro rfl
      rw [hended] at hd
      cases hd
    rw [hothers d hdc, hd]
  refine ⟨?_, ?_, ?_, ?_, ?_, ?_, ?_, ?_, h.own, h.once, ?_, ?_, ?_, h.below⟩
  · intro d hd
    by_cases hdc : d = c
    · exact hdc ▸ hc
    · rw [hothers d hdc] at hd
      exact h.born d hd
  · intro d hd
    obtain ⟨hlt, hlife, hslot⟩ := h.placing d hd
    exact ⟨hlt, hunborn d hlife, (hrest d).2.2.trans hslot⟩
  · intro d j hd
    obtain ⟨hlt, hlife, hslot⟩ := h.forking d j hd
    exact ⟨hlt, hunborn d hlife, (hrest d).2.2.trans hslot⟩
  · intro d hd
    rw [(hrest d).1]
    exact h.file d (hlive d hd)
  · intro d hd hne
    obtain ⟨j, hj⟩ := h.placed d (hlive d hd) hne
    by_cases hdc : d = c
    · subst hdc
      have hvalid := hj.valid
      have hknown := hj.known
      have hother := hj.others
      rw [hended] at hvalid hknown hother
      refine ⟨j, ?_, ?_, ?_, ?_, ?_⟩
      · rw [hself, ← hj.slot]
      · rw [hself]
        exact hj.sock
      · rw [hself]
        exact hvalid
      · rw [hself]
        exact fun _ => hknown rfl
      · rw [hself]
        exact fun _ => hother (by simp)
    · exact ⟨j, hj.frame (hothers d hdc) rfl fun k hk hborn => hj.others hborn k hk⟩
  · intro d e hd he hdb heb heq
    rw [(hrest d).2.1, (hrest e).2.1] at heq
    exact h.distinct d e (hlive d hd) (hlive e he) (fun hu => hdb (hunborn d hu))
      (fun hu => heb (hunborn e hu)) heq
  · intro d hd
    obtain rfl : c = d := Handler.search.inj hd
    exact ⟨hc, by rw [hself]⟩
  · intro d
    refine (h.closed d).trans ?_
    by_cases hdc : d = c
    · subst hdc
      refine iff_of_false (fun hr => ?_) fun hr => hr.2.2 rfl
      rw [hended] at hr
      cases hr.2.1
    · rw [hothers d hdc]
      refine and_congr_right fun _ => and_congr_right fun _ => iff_of_true ?_ ?_
      · simp [hwait]
      · exact fun heq => hdc (Handler.search.inj heq).symm
  · obtain ⟨zs, hnodup, hzs, hlen⟩ := h.zombies
    have hcz : c ∈ zs := (hzs c).mpr ⟨hc, hended⟩
    refine ⟨zs.erase c, hnodup.erase c, fun d => ?_, ?_⟩
    · rw [hnodup.mem_erase_iff, hzs d]
      by_cases hdc : d = c
      · subst hdc
        rw [hself]
        simp
      · rw [hothers d hdc, and_iff_right hdc]
        rfl
    · rw [List.length_erase_of_mem hcz, hlen, hwait]
      rfl
  · intro d hd hover
    have hold : (s.client d).life.over = true := by
      by_cases hdc : d = c
      · rw [hdc, hended]
        rfl
      · rwa [hothers d hdc] at hover
    obtain ⟨j, hj, hfreed⟩ := h.freed d hd hold
    refine ⟨j, (hrest d).2.2.trans hj, hfreed.imp_right ?_⟩
    rintro ⟨e, hde, he, hslot⟩
    exact ⟨e, hde, he, (hrest e).2.2.trans hslot⟩
  · intro j hj
    cases hj

/-- The loop finds the slot of the client. -/
theorem find_placed (h : s.Placed c i) (hlife : (s.client c).life = .reaped) :
    s.find (s.client c).pid = some i := by
  have hpid := h.known (by rw [hlife]; rfl)
  have hothers := h.others (by simp [hlife])
  cases hfind : s.find (s.client c).pid with
  | none =>
    rw [find, List.find?_eq_none] at hfind
    exact absurd (by simpa using hpid) (hfind i (List.mem_finRange i))
  | some j =>
    have hj : (s.user j).pid = (s.client c).pid := by simpa using List.find?_some hfind
    by_cases hji : j = i
    · rw [hji]
    · exact absurd hj (hothers j hji)

/-- The handler closes the socket of the client whose process it has waited for. -/
theorem kept_search (h : s.Kept) (hsearch : s.handler = .search c) (hi : s.Placed c i) :
    Kept { s.close c (s.user i).sock with handler := .report i } := by
  obtain ⟨hc, hreaped⟩ := h.searching c hsearch
  have hlivec : s.Live c := ⟨hc, Or.inr hsearch⟩
  have hclose : s.close c (s.user i).sock = { s with
      files := Function.update s.files (s.client c).fd none, closes := s.closes ++ [(c, c)] } := by
    rw [close, hi.sock, h.file c hlivec]
  rw [hclose]
  set t : Server := { s with
    files := Function.update s.files (s.client c).fd none
    closes := s.closes ++ [(c, c)]
    handler := .report i } with ht
  have hlive : ∀ d, t.Live d → s.Live d ∧ d ≠ c := by
    rintro d ⟨hlt, hd⟩
    have hlife : (s.client d).life ≠ .reaped := hd.resolve_right (by simp [ht])
    refine ⟨⟨hlt, Or.inl hlife⟩, ?_⟩
    rintro rfl
    exact hlife hreaped
  have hnot : c ∉ s.closes.map Prod.fst := fun hmem => ((h.closed c).mp hmem).2.2 hsearch
  refine ⟨h.born, h.placing, h.forking, ?_, ?_, ?_, ?_, ?_, ?_, ?_, ?_, h.freed, ?_, h.below⟩
  · intro d hd
    obtain ⟨hold, hdc⟩ := hlive d hd
    have hfile := h.file d hold
    have hfd : (s.client d).fd ≠ (s.client c).fd := by
      intro heq
      rw [heq, h.file c hlivec] at hfile
      exact hdc (Option.some.inj hfile).symm
    simpa [ht, hfd] using hfile
  · intro d hd hne
    obtain ⟨j, hj⟩ := h.placed d (hlive d hd).1 hne
    exact ⟨j, hj.frame rfl rfl fun k hk hborn => hj.others hborn k hk⟩
  · exact fun d e hd he => h.distinct d e (hlive d hd).1 (hlive e he).1
  · intro d hd
    cases hd
  · intro d
    have hold := h.closed d
    simp only [ht, List.map_append, List.map_cons, List.map_nil, List.mem_append, List.mem_singleton,
      hold, hsearch]
    by_cases hdc : d = c
    · simp [hdc, hc, hreaped]
    · simp [hdc, Ne.symm hdc]
  · intro p hp
    rcases List.mem_append.mp hp with hp | hp
    · exact h.own p hp
    · obtain rfl := List.mem_singleton.mp hp
      rfl
  · have honce := h.once
    rw [List.map_append]
    exact List.nodup_append.mpr ⟨honce, List.nodup_singleton c, fun a ha b hb => by
      obtain rfl := List.mem_singleton.mp hb
      exact fun heq => hnot (heq ▸ ha)⟩
  · obtain ⟨zs, hnodup, hzs, hlen⟩ := h.zombies
    refine ⟨zs, hnodup, hzs, ?_⟩
    rw [hlen, hsearch]
    rfl
  · intro j hj
    obtain rfl : (i : ℕ) = j := Handler.report.inj hj
    exact i.isLt

/-! ### Runs -/

/-- An orderly action keeps the invariant. -/
theorem kept_step (s : Server) (a : Action) (t : Server) (h : s.Kept) (ha : s.Orderly a)
    (hs : s.step a = some t) : t.Kept := by
  cases a with
  | accept fd =>
    simp only [step, Option.ite_none_right_eq_some, Option.some.injEq] at hs
    obtain ⟨⟨hidle, hmain, hfd⟩, rfl⟩ := hs
    exact kept_accept h hidle hmain hfd
  | place old =>
    obtain ⟨i, hfree, hunused⟩ := ha
    simp only [step] at hs
    split at hs
    · next c hidle hmain =>
      rw [hfree] at hs
      obtain rfl := Option.some.inj hs
      exact kept_place h hidle hmain hunused
    · cases hs
  | fork pid =>
    simp only [step] at hs
    split at hs
    · next c i hidle hmain =>
      split_ifs at hs with hunused
      obtain rfl := Option.some.inj hs
      simp only [Orderly, hmain] at ha
      exact kept_fork h hidle hmain hunused ha
    · cases hs
  | forkError => exact absurd ha id
  | setPid c =>
    simp only [step] at hs
    split at hs
    · next i hlife hslot =>
      obtain rfl := Option.some.inj hs
      obtain ⟨hc, hi⟩ := h.placed_of_alive (Or.inl hlife) hslot
      have hvalid := hi.valid
      rw [hlife] at hvalid
      exact kept_life h hc hi (Or.inl hlife) (Or.inl rfl) rfl hvalid rfl id (Or.inr ⟨rfl, by simp⟩)
    · cases hs
  | exit c =>
    simp only [step] at hs
    split at hs
    · next i hlife hslot =>
      obtain rfl := Option.some.inj hs
      obtain ⟨hc, hi⟩ := h.placed_of_alive (Or.inr (Or.inl hlife)) hslot
      have hknown := hi.known (by rw [hlife]; rfl)
      exact kept_life h hc hi (Or.inr (Or.inl hlife)) (Or.inr (Or.inl rfl)) rfl rfl hknown
        (fun _ => rfl) (Or.inr ⟨rfl, by simp⟩)
    · cases hs
  | finish c =>
    simp only [step, Option.ite_none_right_eq_some, Option.some.injEq] at hs
    obtain ⟨hlife, rfl⟩ := hs
    exact kept_ended h hlife ha
  | endOfInput c =>
    simp only [step, Option.ite_none_right_eq_some, Option.some.injEq] at hs
    exact hs.2 ▸ h
  | signal c =>
    simp only [step, Option.ite_none_right_eq_some, Option.some.injEq] at hs
    obtain ⟨-, rfl⟩ := hs
    exact kept_ended h ha.1 ha.2
  | deliver =>
    simp only [step, Option.ite_none_right_eq_some, Option.some.injEq] at hs
    obtain ⟨⟨hsig, hidle⟩, rfl⟩ := hs
    exact kept_handler h (by simp [hidle]) (by simp) (by simp) (by simp [hidle, hsig]) h.below
  | wait c =>
    simp only [step, Option.ite_none_right_eq_some, Option.some.injEq] at hs
    obtain ⟨⟨hwait, hc, hended⟩, rfl⟩ := hs
    exact kept_wait h hwait hc hended
  | search =>
    simp only [step] at hs
    split at hs
    · next c hsearch =>
      obtain ⟨hc, hreaped⟩ := h.searching c hsearch
      have hne : s.main ≠ .place c := by
        intro hmain
        have hlife := (h.placing c hmain).2.1
        rw [hreaped] at hlife
        cases hlife
      obtain ⟨i, hi⟩ := h.placed c ⟨hc, Or.inr hsearch⟩ hne
      rw [find_placed hi hreaped] at hs
      obtain rfl := Option.some.inj hs
      exact kept_search h hsearch hi
    · cases hs
  | report =>
    simp only [step] at hs
    split at hs
    · next i hreport =>
      obtain rfl := Option.some.inj hs
      refine kept_handler h (by simp [hreport]) (by simp) (by simp) (by simp [hreport]) fun j hj => ?_
      rcases List.mem_append.mp hj with hj | hj
      · exact h.below j hj
      · obtain rfl := List.mem_singleton.mp hj
        exact h.reporting j hreport
    · cases hs

/-- As long as the actions are orderly, the sockets and slots are tidy in every state reached. -/
theorem lifecycle_tidy (user : Fin 30 → Slot) (as : List Action)
    (h : Meets step Orderly (start user) as) : Always step Tidy (start user) as :=
  always_of_meets kept_step (fun _ => Kept.tidy) (kept_start user) h

/-- A `user` of zeros. -/
def zeroUser : Fin 30 → Slot := fun _ => ⟨false, 0, 0⟩

/-- A client that comes, gets a process, and leaves by `exit`. -/
def visit : List Action :=
  [.accept 4, .place 0, .fork 100, .setPid 0, .exit 0, .finish 0, .deliver, .wait 0, .search, .report]

/-- Its socket is closed and its slot is free. -/
theorem lifecycle_tidy_visit : ∃ t, runWith step (start zeroUser) visit = some t ∧
    t.closes = [(0, 0)] ∧ Always step Tidy (start zeroUser) visit := by
  refine ⟨_, rfl, rfl, lifecycle_tidy zeroUser visit ?_⟩
  decide +kernel

/-- The connection of a client breaks, and its process ends by a signal: its slot stays taken. -/
theorem lifecycle_keeps_slot : ∃ t, runWith step (start zeroUser)
      [.accept 4, .place 0, .fork 100, .setPid 0, .signal 0] = some t ∧ ¬ t.Tidy := by
  refine ⟨_, rfl, fun h => ?_⟩
  obtain ⟨i, hi, hfreed⟩ := h.freed 0 (by decide) rfl
  obtain rfl : (0 : Fin 30) = i := Option.some.inj hi
  rcases hfreed with hvalid | ⟨d, hpos, hlt, -⟩
  · cases hvalid
  · have hone : d < 1 := hlt
    omega

/-- Two processes end before the first `SIGCHLD` is delivered: one of them is not waited for, and its
    socket stays open. -/
example : ∃ t, runWith step (start zeroUser)
      [.accept 4, .place 0, .fork 100, .setPid 0, .accept 5, .place 0, .fork 101, .setPid 1,
        .exit 0, .exit 1, .finish 0, .finish 1, .deliver, .wait 0, .search, .report] = some t ∧
    t.closes = [(0, 0)] ∧ ¬ t.Tidy := by
  refine ⟨_, rfl, rfl, fun h => ?_⟩
  exact absurd (h.all rfl rfl 1 (by decide) rfl) (by decide)

end Server

end Lifecycle

end NetProg.Multi
