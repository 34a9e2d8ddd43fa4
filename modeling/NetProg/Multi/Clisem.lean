import NetProg.Lib.Run

/-! The semaphore of `np_multi_proc` (`semaphore.h`, and the sections `npshell_3.h` puts between
    `sem_wait` and `sem_signal`).

    A process inside a section signals others with `SIGUSR1`, and some of them may be blocked in
    `semop`. Such a call returns with an error, `sem_op` prints a message, and the process goes on as
    if it had the unit. -/

namespace NetProg.Multi

/-- Where a process is: outside its sections, blocked in the `semop` of `sem_wait`, or inside, with the
    processes it has still to signal. `broadcast_msg` signals every valid user, `tell` one, and the
    other sections nobody. -/
inductive Place (ι : Type*) where
  | outside
  | blocked (receivers : List ι)
  | inside (receivers : List ι)

/-- 1 for a process inside a section. -/
def Place.weight {ι : Type*} : Place ι → ℕ
  | inside _ => 1
  | _ => 0

/-- The semaphore and the processes: its value, what `SEM_UNDO` has recorded for each process, and for
    which processes a `SIGUSR1` is pending. -/
structure Clisem (ι : Type*) where
  value : ℕ
  undo : ι → ℤ
  place : ι → Place ι
  pending : ι → Bool

/-- What can happen next. -/
inductive SemAction (ι : Type*) where
  | semWait (p : ι) (receivers : List ι)
  | wake (p : ι)
  | kill (p : ι)
  | semSignal (p : ι)
  | deliver (p : ι)
  | exit (p : ι)

namespace Clisem

variable {ι : Type*} [DecidableEq ι]

/-- `sem_create(SEMKEY1, 1)`. -/
def create : Clisem ι := ⟨1, fun _ => 0, fun _ => .outside, fun _ => false⟩

/-- A process is somewhere else. -/
def move (s : Clisem ι) (p : ι) (x : Place ι) : Clisem ι := { s with place := Function.update s.place p x }

/-- `semop` adds `n` to the value, and remembers to undo it. -/
def add (s : Clisem ι) (p : ι) (n : ℤ) : Clisem ι :=
  { s with value := (s.value + n).toNat, undo := Function.update s.undo p (s.undo p - n) }

/-- One action. `semop(-1)` takes the unit or blocks; a blocked process takes it later, or returns
    without it when a signal is delivered. A process that ends takes back what it has added, and its
    index is free for another. -/
def step (s : Clisem ι) : SemAction ι → Option (Clisem ι)
  | .semWait p receivers =>
    match s.place p with
    | .outside =>
      if 0 < s.value then some ((s.add p (-1)).move p (.inside receivers))
      else some (s.move p (.blocked receivers))
    | _ => none
  | .wake p =>
    match s.place p with
    | .blocked receivers =>
      if 0 < s.value then some ((s.add p (-1)).move p (.inside receivers)) else none
    | _ => none
  | .kill p =>
    match s.place p with
    | .inside (q :: receivers) =>
      some { s.move p (.inside receivers) with pending := Function.update s.pending q true }
    | _ => none
  | .semSignal p =>
    match s.place p with
    | .inside [] => some ((s.add p 1).move p .outside)
    | _ => none
  | .deliver p =>
    if s.pending p then
      let s := { s with pending := Function.update s.pending p false }
      match s.place p with
      | .blocked receivers => some (s.move p (.inside receivers))
      | _ => some s
    else none
  | .exit p =>
    some { (s.add p (s.undo p)).move p .outside with pending := Function.update s.pending p false }

variable [Fintype ι]

/-- The number of processes inside a section. -/
def insideCount (s : Clisem ι) : ℕ := ∑ p, (s.place p).weight

/-- At most one process is inside a section, and the value and the processes inside make 1. -/
def Exclusive (s : Clisem ι) : Prop :=
  (∀ p q, (s.place p).weight = 1 → (s.place q).weight = 1 → p = q) ∧ s.value + s.insideCount = 1

/-- An action that does not deliver a signal to a process blocked in `semop`. -/
def Undisturbed (s : Clisem ι) (a : SemAction ι) : Prop :=
  ∀ p receivers, a = .deliver p → s.place p ≠ .blocked receivers

/-- `SEM_UNDO` holds the unit of a process inside a section, and nothing of another. -/
structure Balanced (s : Clisem ι) : Prop where
  one : s.value + s.insideCount = 1
  undo : ∀ p, s.undo p = (s.place p).weight

/-! ### Counting -/

/-- Moving one process. -/
theorem insideCount_move (s : Clisem ι) (p : ι) (x : Place ι) :
    (s.move p x).insideCount + (s.place p).weight = s.insideCount + x.weight := by
  have hsum : ∀ f : ι → ℕ, ∑ q, f q = f p + ∑ q ∈ Finset.univ.erase p, f q := fun f =>
    (Finset.add_sum_erase _ f (Finset.mem_univ p)).symm
  have hrest : ∑ q ∈ Finset.univ.erase p, ((s.move p x).place q).weight =
      ∑ q ∈ Finset.univ.erase p, (s.place q).weight := by
    refine Finset.sum_congr rfl fun q hq => ?_
    simp only [move, Function.update_of_ne (Finset.ne_of_mem_erase hq)]
  rw [insideCount, insideCount, hsum, hsum fun q => (s.place q).weight, hrest]
  simp only [move, Function.update_self]
  omega

/-- Two processes inside are counted twice. -/
theorem eq_of_insideCount {s : Clisem ι} (h : s.insideCount ≤ 1) {p q : ι}
    (hp : (s.place p).weight = 1) (hq : (s.place q).weight = 1) : p = q := by
  by_contra hne
  have hle : ∑ r ∈ {p, q}, (s.place r).weight ≤ s.insideCount :=
    Finset.sum_le_sum_of_subset (Finset.subset_univ _)
  rw [Finset.sum_pair hne, hp, hq] at hle
  omega

theorem Balanced.exclusive {s : Clisem ι} (h : s.Balanced) : s.Exclusive :=
  ⟨fun _ _ => eq_of_insideCount (by have := h.one; omega), h.one⟩

omit [DecidableEq ι] in
theorem balanced_create : (create : Clisem ι).Balanced :=
  ⟨by simp [create, insideCount, Place.weight], fun _ => rfl⟩

/-! ### One action -/

/-- A process moves and the value makes up for it. -/
theorem Balanced.add_move {s : Clisem ι} (h : s.Balanced) {p : ι} {x : Place ι} {n : ℤ}
    (hn : (x.weight : ℤ) = (s.place p).weight - n) (hpos : 0 ≤ s.value + n) :
    ((s.add p n).move p x).Balanced := by
  refine ⟨?_, fun q => ?_⟩
  · have hcount := insideCount_move (s.add p n) p x
    have hone := h.one
    have hsame : (s.add p n).insideCount = s.insideCount := rfl
    have hplace : (s.add p n).place p = s.place p := rfl
    rw [hsame, hplace] at hcount
    have hvalue : (((s.add p n).move p x).value : ℤ) = s.value + n := Int.toNat_of_nonneg hpos
    omega
  · by_cases hq : q = p
    · subst hq
      simp only [move, add, Function.update_self]
      rw [hn, h.undo q]
    · simp only [move, add, Function.update_of_ne hq]
      exact h.undo q

/-- A process moves between places outside. -/
theorem Balanced.move_same {s : Clisem ι} (h : s.Balanced) {p : ι} {x : Place ι}
    (hx : x.weight = (s.place p).weight) : (s.move p x).Balanced := by
  have hmove := h.add_move (n := 0) (p := p) (x := x) (by simp [hx]) (by simp)
  have hadd : s.add p 0 = s := by simp [add]
  rwa [hadd] at hmove

omit [DecidableEq ι] in
theorem Balanced.signals {s : Clisem ι} (h : s.Balanced) (f : ι → Bool) :
    ({ s with pending := f } : Clisem ι).Balanced := ⟨h.one, h.undo⟩

/-- An undisturbed action keeps the balance. -/
theorem balanced_step (s : Clisem ι) (a : SemAction ι) (t : Clisem ι) (h : s.Balanced)
    (ha : s.Undisturbed a) (hs : s.step a = some t) : t.Balanced := by
  cases a with
  | semWait p receivers =>
    simp only [step] at hs
    split at hs
    · next hp =>
      split_ifs at hs with hpos
      · obtain rfl := Option.some.inj hs
        exact h.add_move (by simp [hp, Place.weight]) (by omega)
      · obtain rfl := Option.some.inj hs
        exact h.move_same (by simp [hp, Place.weight])
    · cases hs
  | wake p =>
    simp only [step] at hs
    split at hs
    · next receivers hp =>
      split_ifs at hs with hpos
      obtain rfl := Option.some.inj hs
      exact h.add_move (by simp [hp, Place.weight]) (by omega)
    · cases hs
  | kill p =>
    simp only [step] at hs
    split at hs
    · next q receivers hp =>
      obtain rfl := Option.some.inj hs
      exact (h.move_same (by simp [hp, Place.weight])).signals _
    · cases hs
  | semSignal p =>
    simp only [step] at hs
    split at hs
    · next hp =>
      obtain rfl := Option.some.inj hs
      exact h.add_move (by simp [hp, Place.weight]) (by omega)
    · cases hs
  | deliver p =>
    simp only [step] at hs
    split_ifs at hs
    split at hs
    · next receivers hp => exact absurd hp (ha p receivers rfl)
    · obtain rfl := Option.some.inj hs
      exact h.signals _
  | exit p =>
    obtain rfl := Option.some.inj hs
    have hundo := h.undo p
    refine (h.add_move ?_ ?_).signals _
    · rw [hundo]
      simp [Place.weight]
    · rw [hundo]
      positivity

/-- A signal for a blocked process lets one in that has not taken the unit. -/
theorem disturbed_step (s : Clisem ι) (a : SemAction ι) (t : Clisem ι) (h : s.Balanced)
    (ha : ¬ s.Undisturbed a) (hs : s.step a = some t) : ¬ t.Exclusive := by
  simp only [Undisturbed, not_forall, not_not] at ha
  obtain ⟨p, receivers, rfl, hp⟩ := ha
  simp only [step, hp] at hs
  split_ifs at hs
  obtain rfl := Option.some.inj hs
  rintro ⟨-, hone⟩
  have hcount := insideCount_move { s with pending := Function.update s.pending p false } p
    (.inside receivers)
  have hold : insideCount { s with pending := Function.update s.pending p false } = s.insideCount := rfl
  have hplace : (s.place p).weight = 0 := by simp [hp, Place.weight]
  have hnew : (Place.inside receivers).weight = 1 := rfl
  have hvalue := h.one
  simp only [hold, hplace, hnew] at hcount
  have hsum : s.value + insideCount (move { s with pending := Function.update s.pending p false } p
      (.inside receivers)) = 1 := hone
  omega

/-- The processes exclude each other in every state of a run if and only if no signal of the run is
    delivered to a process blocked in `semop`. -/
theorem clisem_exclusive_iff (as : List (SemAction ι)) (t : Clisem ι)
    (h : runWith step create as = some t) :
    Always step Exclusive (create : Clisem ι) as ↔ Meets step Undisturbed (create : Clisem ι) as :=
  always_iff_meets balanced_step (fun _ => Balanced.exclusive) disturbed_step balanced_create h

/-- Process 0 tells process 1 something while that waits for the semaphore. -/
def signalled : List (SemAction (Fin 2)) :=
  [.semWait 0 [1], .semWait 1 [], .kill 0, .deliver 1]

/-- Process 1 gets the signal before it waits for the semaphore. -/
def signalledBefore : List (SemAction (Fin 2)) :=
  [.semWait 0 [1], .kill 0, .deliver 1, .semWait 1 [], .semSignal 0, .wake 1, .semSignal 1]

theorem clisem_exclusive_iff_apart :
    Always step Exclusive (create : Clisem (Fin 2)) signalledBefore ↔
      Meets step Undisturbed (create : Clisem (Fin 2)) signalledBefore :=
  clisem_exclusive_iff _ _ rfl

/-- Both are inside. -/
theorem clisem_lets_two_in : ∃ t : Clisem (Fin 2), runWith step create signalled = some t ∧
    (t.place 0).weight = 1 ∧ (t.place 1).weight = 1 ∧ ¬ t.Exclusive := by
  refine ⟨_, rfl, rfl, rfl, ?_⟩
  rintro ⟨hone, -⟩
  exact absurd (hone 0 1 rfl rfl) (by decide)

end Clisem

end NetProg.Multi
