import NetProg.Lib.Run
import NetProg.Lib.SemSet

/-! How a semaphore of `semaphore.h` comes into being, is shared and goes (`sem_create`, `sem_open`,
    `sem_close`), by any number of processes in any order, each of which may end at any moment. Every
    process makes its own call of `sem_create` or `sem_open`; none gets the semaphore by a `fork`.

    A set has three values: the semaphore itself, a count of the processes that use it (counting down
    from `BIGCOUNT`), and a lock. Only the lock protects `sem_create` and `sem_close`; `sem_open` does
    not take it. -/

namespace NetProg.Multi

def bigCount : ℕ := 31

/-- `[0]`, `[1]` and `[2]` of a set. -/
inductive Member where
  | semaphore | count | lock
  deriving DecidableEq

open Member

def opLock : List (SemBuf Member) := [⟨lock, 0, false⟩, ⟨lock, 1, true⟩]
def opUnlock : List (SemBuf Member) := [⟨lock, -1, true⟩]
def opEndcreate : List (SemBuf Member) := [⟨count, -1, true⟩, ⟨lock, -1, true⟩]
def opOpen : List (SemBuf Member) := [⟨count, -1, true⟩]
def opClose : List (SemBuf Member) := [⟨lock, 0, false⟩, ⟨lock, 1, true⟩, ⟨count, 1, true⟩]
def opOp (value : ℤ) : List (SemBuf Member) := [⟨semaphore, value, true⟩]

/-- Inside `sem_create`: the id is known, or the process sleeps in its `semop`, or it has the lock and
    goes on through `GETVAL`, the two `SETVAL` and the last `semop`. -/
inductive Creating where
  | gotten | asleep | locked | fresh | valued | ready
  deriving DecidableEq

/-- Inside `sem_close`: asleep in its `semop`, or with the lock before `GETVAL`, or behind it. -/
inductive Closing where
  | asleep | locked | last | notLast
  deriving DecidableEq

/-- Where a process is. A process that closes the semaphore inside a section (`server_exit` runs in a
    signal handler) has `left` it and only ends; one that is `lost` was asleep when its set went away,
    and goes on with an id that is no more. -/
inductive Holder where
  | outside
  | creating (id : ℕ) (stage : Creating)
  | opening (id : ℕ) (asleep : Bool)
  | counts (id : ℕ) (inside : Bool)
  | waiting (id : ℕ)
  | closing (id : ℕ) (inside : Bool) (stage : Closing)
  | left (id : ℕ)
  | lost
  deriving DecidableEq

/-- The set under the key with its id, the next id, and where the processes are. -/
structure Sems (ι : Type*) where
  set : Option (ℕ × SemSet Member ι)
  nextId : ℕ
  place : ι → Holder

/-- What a process does next. `semop` is the `semop` it is about to do or asleep in. -/
inductive SemCall (ι : Type*) where
  | create (p : ι)
  | open (p : ι)
  | semop (p : ι)
  | getval (p : ι)
  | setval (p : ι)
  | wait (p : ι)
  | signal (p : ι)
  | close (p : ι)
  | remove (p : ι)
  | exit (p : ι)

namespace Holder

/-- The set a process works with, from its first `semop` on. -/
def uses : Holder → Option ℕ
  | creating _ .gotten => none
  | creating id _ => some id
  | opening id true => some id
  | counts id _ => some id
  | waiting id => some id
  | closing id _ _ => some id
  | _ => none

/-- Whether a process has the lock. -/
def locks : Holder → Bool
  | creating _ stage => stage != .gotten && stage != .asleep
  | closing _ _ stage => stage != .asleep
  | _ => false

/-- Whether a process is counted in `[1]`. -/
def counted : Holder → Bool
  | counts _ _ => true
  | waiting _ => true
  | closing _ _ stage => stage == .asleep
  | _ => false

/-- Whether a process has a unit of the set `id`. -/
def hasUnit (id : ℕ) : Holder → Bool
  | counts j inside => inside && j == id
  | closing j inside _ => inside && j == id
  | left j => j == id
  | _ => false

/-- Whether a process is about to give a set its first values. -/
def initialises : Holder → Bool
  | creating _ stage => stage == .fresh || stage == .valued
  | _ => false

/-- A process asleep in `semop` when the set is removed gets an error. -/
def woken : Holder → Holder
  | creating _ .asleep => lost
  | opening _ true => lost
  | waiting _ => lost
  | closing _ _ .asleep => lost
  | x => x

end Holder

namespace Sems

variable {ι : Type*} [DecidableEq ι]

/-- Nobody has asked for the semaphore yet. -/
def start : Sems ι := ⟨none, 0, fun _ => .outside⟩

/-- A process is somewhere else. -/
def move (s : Sems ι) (p : ι) (x : Holder) : Sems ι := { s with place := Function.update s.place p x }

/-- `semget` with `IPC_CREAT`. -/
def semget (s : Sems ι) : Sems ι × ℕ :=
  match s.set with
  | some (id, _) => (s, id)
  | none => ({ s with set := some (s.nextId, .zero), nextId := s.nextId + 1 }, s.nextId)

/-- `semop` on the set `j`: it succeeds, or the process sleeps, or there is no such set. -/
def attempt (s : Sems ι) (p : ι) (j : ℕ) (bs : List (SemBuf Member)) (ok sleeping gone : Holder) :
    Option (Sems ι) :=
  match s.set with
  | none => some (s.move p gone)
  | some (id, S) =>
    if j = id then
      match S.semop p bs with
      | some T => some { s.move p ok with set := some (id, T) }
      | none => if s.place p = sleeping then none else some (s.move p sleeping)
    else some (s.move p gone)

/-- The set with the id `j`, while it is there. -/
def find (s : Sems ι) (j : ℕ) : Option (SemSet Member ι) :=
  match s.set with
  | some (id, S) => if j = id then some S else none
  | none => none

/-- One action. -/
def step (initval : ℕ) (s : Sems ι) : SemCall ι → Option (Sems ι)
  | .create p =>
    match s.place p with
    | .outside => let r := s.semget; some (r.1.move p (.creating r.2 .gotten))
    | _ => none
  | .open p =>
    match s.place p, s.set with
    | .outside, some (id, _) => some (s.move p (.opening id false))
    | .outside, none => some s
    | _, _ => none
  | .semop p =>
    match s.place p with
    -- `EINVAL` takes `sem_create` back to `semget`
    | .creating j .gotten => s.attempt p j opLock (.creating j .locked) (.creating j .asleep) .outside
    | .creating j .asleep => s.attempt p j opLock (.creating j .locked) (.creating j .asleep) .lost
    | .creating j .ready => s.attempt p j opEndcreate (.counts j false) (.creating j .ready) .lost
    | .opening j _ => s.attempt p j opOpen (.counts j false) (.opening j true) .lost
    | .waiting j => s.attempt p j (opOp (-1)) (.counts j true) (.waiting j) .lost
    | .closing j b .asleep => s.attempt p j opClose (.closing j b .locked) (.closing j b .asleep) .lost
    | .closing j b .notLast =>
      s.attempt p j opUnlock (if b then .left j else .outside) (.closing j b .notLast) .lost
    | _ => none
  | .getval p =>
    match s.place p with
    | .creating j .locked =>
      match s.find j with
      | some S => some (s.move p (.creating j (if S.val count = 0 then .fresh else .ready)))
      | none => some (s.move p .lost)
    | .closing j b .locked =>
      match s.find j with
      | some S =>
        -- above `BIGCOUNT` there is only a message, and the lock stays taken
        if bigCount < S.val count then some (s.move p (if b then .left j else .outside))
        else some (s.move p (.closing j b (if S.val count = bigCount then .last else .notLast)))
      | none => some (s.move p .lost)
    | _ => none
  | .setval p =>
    match s.place p with
    | .creating j .fresh =>
      match s.find j with
      | some S => some { s.move p (.creating j .valued) with set := some (j, S.setval semaphore initval) }
      | none => some (s.move p .lost)
    | .creating j .valued =>
      match s.find j with
      | some S => some { s.move p (.creating j .ready) with set := some (j, S.setval count bigCount) }
      | none => some (s.move p .lost)
    | _ => none
  | .wait p =>
    match s.place p with
    | .counts j false => s.attempt p j (opOp (-1)) (.counts j true) (.waiting j) .lost
    | _ => none
  | .signal p =>
    match s.place p with
    | .counts j true => s.attempt p j (opOp 1) (.counts j false) (.counts j true) .lost
    | _ => none
  | .close p =>
    match s.place p with
    | .counts j b => s.attempt p j opClose (.closing j b .locked) (.closing j b .asleep) .lost
    | _ => none
  | .remove p =>
    match s.place p with
    | .closing j b .last =>
      match s.find j with
      | some _ =>
        some { s with set := none
                      place := Function.update (fun q => (s.place q).woken) p
                        (if b then .left j else .outside) }
      | none => some (s.move p .lost)
    | _ => none
  | .exit p =>
    some { s.move p .outside with set := s.set.map fun x => (x.1, x.2.exit p) }

variable [Fintype ι]

/-- The semaphore works for the processes that share it. -/
structure Sound (initval : ℕ) (s : Sems ι) : Prop where
  /-- nobody goes on with a set that went away under it -/
  found : ∀ q, s.place q ≠ .lost
  live : ∀ q j, (s.place q).uses = some j → ∃ S, s.set = some (j, S)
  locked : ∀ p q, (s.place p).locks → (s.place q).locks → p = q
  /-- a set is given its first values while nobody uses it -/
  alone : ∀ p q, (s.place p).initialises → ¬ (s.place q).counted
  users : ∀ id S, s.set = some (id, S) → (∃ q, (s.place q).counted) →
    S.val count + (Finset.univ.filter fun q => (s.place q).counted).card = bigCount
  units : ∀ id S, s.set = some (id, S) → (∃ q, (s.place q).counted) →
    S.val semaphore + (Finset.univ.filter fun q => (s.place q).hasUnit id).card = initval

/-- No process finds `[1]` at 0 because `BIGCOUNT` processes are counted, nobody comes between the
    `GETVAL` of the last one and its `IPC_RMID` or sleeps there, and no `sem_open` comes behind it. -/
def Timely (s : Sems ι) : SemCall ι → Prop
  | .semop p => ∀ j, s.place p = .opening j false → s.find j ≠ none
  | .getval p => ∀ j S, s.place p = .creating j .locked → s.find j = some S → S.val count = 0 →
      ∀ q, (s.place q).counted = false
  | .remove p => ∀ j b q, s.place p = .closing j b .last → q ≠ p → (s.place q).uses = none
  | _ => True

/-! ### The balance -/

end Sems

namespace Holder

/-- What `SEM_UNDO` has recorded for a process, going by where it is. -/
def owes (id : ℕ) (x : Holder) : Member → ℤ
  | semaphore => if x.hasUnit id then 1 else 0
  | count => if x.counted then 1 else 0
  | lock => if x.locks then -1 else 0

theorem owes_outside (id : ℕ) (k : Member) : outside.owes id k = 0 := by cases k <;> rfl

theorem owes_lock_nonpos (id : ℕ) (x : Holder) : x.owes id lock ≤ 0 := by
  simp only [owes]
  split_ifs <;> simp

theorem owes_nonneg (id : ℕ) (x : Holder) {k : Member} (h : k ≠ lock) : 0 ≤ x.owes id k := by
  cases k with
  | lock => exact absurd rfl h
  | semaphore =>
    simp only [owes]
    split_ifs <;> simp
  | count =>
    simp only [owes]
    split_ifs <;> simp

/-- Who sleeps in `semop` is lost with the set, and nothing changes for the others. -/
theorem woken_cases (x : Holder) : x.woken = lost ∨ x.woken = x := by
  cases x with
  | creating id stage => cases stage <;> simp [woken]
  | opening id asleep => cases asleep <;> simp [woken]
  | closing id inside stage => cases stage <;> simp [woken]
  | _ => simp [woken]

theorem woken_of_uses {x : Holder} (h : x.uses = none) : x.woken = x := by
  cases x with
  | creating id stage => cases stage <;> simp [woken, uses] at h ⊢
  | opening id asleep => cases asleep <;> simp [woken, uses] at h ⊢
  | closing id inside stage => simp [uses] at h
  | waiting id => simp [uses] at h
  | _ => rfl

end Holder

namespace Sems

variable {ι : Type*} [DecidableEq ι] [Fintype ι]

/-- The values of a set that has been set up. -/
structure SetUp (initval : ℕ) (place : ι → Holder) (S : SemSet Member ι) : Prop where
  users : S.balance count = bigCount
  units : S.balance semaphore = initval
  done : ∀ q, (place q).initialises = false

/-- A set that has no values yet: nobody is counted and nobody has a unit. -/
structure Blank (initval : ℕ) (place : ι → Holder) (S : SemSet Member ι) : Prop where
  zero : S.val count = 0
  adj : ∀ q k, k ≠ lock → S.adj q k = 0
  ready : ∀ q j, place q ≠ .creating j .ready
  valued : ∀ q j, place q = .creating j .valued → S.val semaphore = initval

/-- The set under the key: what `SEM_UNDO` knows is what the processes have taken. -/
structure KeptSet (initval : ℕ) (place : ι → Holder) (nextId id : ℕ) (S : SemSet Member ι) : Prop where
  old : id < nextId
  adj : ∀ q k, S.adj q k = (place q).owes id k
  uses : ∀ q j, (place q).uses = some j → j = id
  even : S.balance lock = 0
  taken : S.val lock ≤ 1
  phase : SetUp initval place S ∨ Blank initval place S

structure Kept (initval : ℕ) (s : Sems ι) : Prop where
  found : ∀ q, s.place q ≠ .lost
  left : ∀ q j, s.place q = .left j → j < s.nextId
  empty : s.set = none → ∀ q, (s.place q).uses = none
  held : ∀ id S, s.set = some (id, S) → KeptSet initval s.place s.nextId id S

variable {initval : ℕ}

namespace KeptSet

variable {place : ι → Holder} {nextId id : ℕ} {S : SemSet Member ι}

/-- The lock is taken by at most one process. -/
theorem locked (h : KeptSet initval place nextId id S) {p q : ι} (hp : (place p).locks = true)
    (hq : (place q).locks = true) : p = q := by
  by_contra hne
  have hnonpos : ∀ r, S.adj r Member.lock ≤ 0 := fun r => by
    rw [h.adj]
    exact Holder.owes_lock_nonpos id _
  have hle := SemSet.sum_le_sum_adj hnonpos {p, q}
  have heven := h.even
  have htaken := h.taken
  rw [Finset.sum_pair hne, h.adj, h.adj] at hle
  simp only [Holder.owes, hp, hq, if_true] at hle
  simp only [SemSet.balance] at heven
  omega

/-- The lock is free when its value is 0. -/
theorem free (h : KeptSet initval place nextId id S) (hval : S.val Member.lock = 0) (q : ι) :
    (place q).locks = false := by
  have hnonpos : ∀ r, S.adj r Member.lock ≤ 0 := fun r => by
    rw [h.adj]
    exact Holder.owes_lock_nonpos id _
  have hle := SemSet.sum_le_sum_adj hnonpos {q}
  have heven := h.even
  rw [Finset.sum_singleton, h.adj] at hle
  simp only [SemSet.balance, hval] at heven
  cases hq : (place q).locks with
  | false => rfl
  | true =>
    simp only [Holder.owes, hq, if_true] at hle
    omega

omit [DecidableEq ι] in
/-- A set in which somebody is counted has been set up. -/
theorem setUp_of_counted (h : KeptSet initval place nextId id S) {q : ι} (hq : (place q).counted = true) :
    SetUp initval place S := by
  rcases h.phase with hup | hblank
  · exact hup
  · have hzero := hblank.adj q Member.count (by decide)
    rw [h.adj] at hzero
    simp [Holder.owes, hq] at hzero

omit [DecidableEq ι] in
/-- A set found at 0 while nobody is counted has no values yet. -/
theorem blank_of_none (h : KeptSet initval place nextId id S) (hval : S.val Member.count = 0)
    (hnone : ∀ q, (place q).counted = false) : Blank initval place S := by
  rcases h.phase with hup | hblank
  · have hcount := hup.users
    have hsum : ∑ q, S.adj q Member.count = 0 := Finset.sum_eq_zero fun q _ => by
      rw [h.adj]
      simp [Holder.owes, hnone q]
    simp only [SemSet.balance, hval, hsum, bigCount] at hcount
    omega
  · exact hblank

/-- A process moves, with values and adjustments that follow it. -/
theorem follow (h : KeptSet initval place nextId id S) {p : ι} {x : Holder} {T : SemSet Member ι}
    (hothers : ∀ q, q ≠ p → T.adj q = S.adj q) (hself : ∀ k, T.adj p k = x.owes id k)
    (huses : ∀ j, x.uses = some j → j = id) (heven : T.balance Member.lock = 0)
    (htaken : T.val Member.lock ≤ 1)
    (hphase : SetUp initval (Function.update place p x) T ∨ Blank initval (Function.update place p x) T) :
    KeptSet initval (Function.update place p x) nextId id T := by
  refine ⟨h.old, fun q k => ?_, fun q j hj => ?_, heven, htaken, hphase⟩
  · rcases eq_or_ne q p with rfl | hq
    · rw [Function.update_self, hself]
    · rw [Function.update_of_ne hq, hothers q hq, h.adj]
  · rcases eq_or_ne q p with rfl | hq
    · rw [Function.update_self] at hj
      exact huses j hj
    · rw [Function.update_of_ne hq] at hj
      exact h.uses q j hj

end KeptSet

omit [Fintype ι] in
/-- A property of all the places, after one process has moved. -/
theorem forall_update {place : ι → Holder} {P : Holder → Prop} (h : ∀ q, P (place q)) {x : Holder}
    (hx : P x) (p q : ι) : P (Function.update place p x q) := by
  rcases eq_or_ne q p with rfl | hq
  · rwa [Function.update_self]
  · rw [Function.update_of_ne hq]
    exact h q

theorem SetUp.move {place : ι → Holder} {S T : SemSet Member ι} (h : SetUp initval place S)
    (hbalance : ∀ k, T.balance k = S.balance k) {x : Holder} (hx : x.initialises = false) (p : ι) :
    SetUp initval (Function.update place p x) T :=
  ⟨by rw [hbalance, h.users], by rw [hbalance, h.units],
    forall_update (P := fun y => y.initialises = false) h.done hx p⟩

omit [Fintype ι] in
theorem Blank.move {place : ι → Holder} {S T : SemSet Member ι} (h : Blank initval place S)
    (hval : ∀ k, k ≠ lock → T.val k = S.val k) (hadj : ∀ q k, k ≠ lock → T.adj q k = S.adj q k)
    {x : Holder} (hready : ∀ j, x ≠ .creating j .ready) (hx : ∀ j, x ≠ .creating j .valued) (p : ι) :
    Blank initval (Function.update place p x) T := by
  refine ⟨?_, fun q k hk => ?_, fun q j => ?_, fun q j hq => ?_⟩
  · rw [hval _ (by decide), h.zero]
  · rw [hadj q k hk, h.adj q k hk]
  · exact forall_update (P := fun y => y ≠ .creating j .ready) (fun r => h.ready r j) (hready j) p q
  · rw [hval _ (by decide)]
    rcases eq_or_ne q p with rfl | hne
    · rw [Function.update_self] at hq
      exact absurd hq (hx j)
    · rw [Function.update_of_ne hne] at hq
      exact h.valued q j hq

/-- A process does its `semop` and goes where it has taken just that much. -/
theorem KeptSet.semop {place : ι → Holder} {nextId id : ℕ} {S T : SemSet Member ι}
    (h : KeptSet initval place nextId id S) {p : ι} {bs : List (SemBuf Member)} {x : Holder}
    (hbs : SemSet.Undone bs) (hT : S.semop p bs = some T)
    (hself : ∀ k, x.owes id k = (place p).owes id k - SemSet.total k bs)
    (huses : ∀ j, x.uses = some j → j = id) (htaken : T.val Member.lock ≤ 1) (hx : x.initialises = false)
    (hblank : Blank initval place S →
      SemSet.total count bs = 0 ∧ SemSet.total semaphore bs = 0 ∧ ∀ j, x ≠ .creating j .ready) :
    KeptSet initval (Function.update place p x) nextId id T := by
  have hbalance := SemSet.balance_semop hbs hT
  refine h.follow (fun q hq => SemSet.semop_adj_of_ne hq hbs hT) (fun k => ?_) huses ?_ htaken ?_
  · rw [SemSet.semop_adj hbs hT, h.adj, hself]
  · rw [hbalance, h.even]
  · rcases h.phase with hup | hbl
    · exact .inl (hup.move hbalance hx p)
    · obtain ⟨hcount, hunits, hready⟩ := hblank hbl
      have htotal : ∀ k, k ≠ lock → SemSet.total k bs = 0 := fun k hk => by
        cases k with
        | semaphore => exact hunits
        | count => exact hcount
        | lock => exact absurd rfl hk
      refine .inr (hbl.move (fun k hk => ?_) (fun q k hk => ?_) hready (fun j hj => ?_) p)
      · have hval := SemSet.semop_val hbs hT k
        rw [htotal k hk] at hval
        omega
      · rcases eq_or_ne q p with rfl | hq
        · rw [SemSet.semop_adj hbs hT, htotal k hk, sub_zero]
        · rw [SemSet.semop_adj_of_ne hq hbs hT]
      · rw [hj] at hx
        cases hx

end Sems

end NetProg.Multi
