import Mathlib.Algebra.BigOperators.Group.Finset.Basic
import Mathlib.Data.Fintype.BigOperators
import Mathlib.Tactic

/-! Sets of semaphores that several processes operate on, with the adjustments that are made for a
    process when it ends (`semop`, `SETVAL` and `SEM_UNDO` of System V).

    An operation with undo adds to a value and takes the same away from the adjustment of its process.
    So a value and all its adjustments together stay what they are, until `SETVAL`. -/

namespace NetProg

/-- The values of a set of semaphores, and what the end of each process adds to them. -/
structure SemSet (κ ι : Type*) where
  val : κ → ℕ
  adj : ι → κ → ℤ

/-- One operation of the array given to `semop`. -/
structure SemBuf (κ : Type*) where
  num : κ
  op : ℤ
  undo : Bool

namespace SemSet

variable {κ ι : Type*} [DecidableEq κ] [DecidableEq ι]

/-- A set as it is created. -/
def zero : SemSet κ ι := ⟨fun _ => 0, fun _ _ => 0⟩

/-- Adds to a value and remembers to take it back. -/
def add (S : SemSet κ ι) (p : ι) (k : κ) (n : ℤ) : SemSet κ ι where
  val := Function.update S.val k (S.val k + n).toNat
  adj := Function.update S.adj p (Function.update (S.adj p) k (S.adj p k - n))

/-- One operation of process `p`; `none` when it has to wait. Operation 0 waits for the value 0. -/
def apply (S : SemSet κ ι) (p : ι) (b : SemBuf κ) : Option (SemSet κ ι) :=
  if b.op = 0 then
    if S.val b.num = 0 then some S else none
  else if S.val b.num + b.op < 0 then none
  else if b.undo then some (S.add p b.num b.op)
  else some { S with val := Function.update S.val b.num (S.val b.num + b.op).toNat }

/-- `semop`: all the operations in order, or none of them. -/
def semop (p : ι) : List (SemBuf κ) → SemSet κ ι → Option (SemSet κ ι)
  | [], S => some S
  | b :: bs, S => (S.apply p b).bind (semop p bs)

/-- `SETVAL` forgets the adjustments of its semaphore, of every process. -/
def setval (S : SemSet κ ι) (k : κ) (n : ℕ) : SemSet κ ι where
  val := Function.update S.val k n
  adj := fun p => Function.update (S.adj p) k 0

/-- A process ends: its adjustments are added, no value going below 0. -/
def exit (S : SemSet κ ι) (p : ι) : SemSet κ ι where
  val := fun k => (S.val k + S.adj p k).toNat
  adj := Function.update S.adj p fun _ => 0

/-- What an array of operations adds to a value. -/
def total (k : κ) (bs : List (SemBuf κ)) : ℤ := (bs.map fun b => if b.num = k then b.op else 0).sum

/-- Every operation that changes a value is to be undone. -/
def Undone (bs : List (SemBuf κ)) : Prop := ∀ b ∈ bs, b.op = 0 ∨ b.undo = true

instance (bs : List (SemBuf κ)) : Decidable (Undone bs) :=
  inferInstanceAs (Decidable (∀ b ∈ bs, b.op = 0 ∨ b.undo = true))

/-! ### What `semop` changes -/

theorem add_val (S : SemSet κ ι) {p : ι} {k : κ} {n : ℤ} (h : 0 ≤ S.val k + n) (j : κ) :
    ((S.add p k n).val j : ℤ) = S.val j + if k = j then n else 0 := by
  rcases eq_or_ne j k with rfl | hj
  · simp [add, Int.toNat_of_nonneg h]
  · simp [add, Function.update_of_ne hj, hj.symm]

theorem add_adj (S : SemSet κ ι) (p : ι) (k : κ) (n : ℤ) (j : κ) :
    (S.add p k n).adj p j = S.adj p j - if k = j then n else 0 := by
  rcases eq_or_ne j k with rfl | hj
  · simp [add]
  · simp [add, Function.update_of_ne hj, hj.symm]

theorem add_adj_of_ne (S : SemSet κ ι) {p q : ι} (h : q ≠ p) (k : κ) (n : ℤ) :
    (S.add p k n).adj q = S.adj q := by simp [add, Function.update_of_ne h]

/-- One operation that is to be undone: it adds, or it waits for 0 and changes nothing. -/
theorem apply_cases {S T : SemSet κ ι} {p : ι} {b : SemBuf κ} (hb : b.op = 0 ∨ b.undo = true)
    (h : S.apply p b = some T) :
    (b.op = 0 ∧ S.val b.num = 0 ∧ T = S) ∨ (b.op ≠ 0 ∧ 0 ≤ S.val b.num + b.op ∧ T = S.add p b.num b.op) := by
  unfold apply at h
  split_ifs at h with hop hval hneg hundo
  · exact .inl ⟨hop, hval, (Option.some.inj h).symm⟩
  · exact .inr ⟨hop, by omega, (Option.some.inj h).symm⟩
  · exact absurd hb (by simp [hop, hundo])

theorem apply_val {S T : SemSet κ ι} {p : ι} {b : SemBuf κ} (hb : b.op = 0 ∨ b.undo = true)
    (h : S.apply p b = some T) (k : κ) : (T.val k : ℤ) = S.val k + if b.num = k then b.op else 0 := by
  rcases apply_cases hb h with ⟨hop, -, rfl⟩ | ⟨-, hpos, rfl⟩
  · simp [hop]
  · exact S.add_val hpos k

theorem apply_adj {S T : SemSet κ ι} {p : ι} {b : SemBuf κ} (hb : b.op = 0 ∨ b.undo = true)
    (h : S.apply p b = some T) (k : κ) : T.adj p k = S.adj p k - if b.num = k then b.op else 0 := by
  rcases apply_cases hb h with ⟨hop, -, rfl⟩ | ⟨-, -, rfl⟩
  · simp [hop]
  · exact S.add_adj p b.num b.op k

theorem apply_adj_of_ne {S T : SemSet κ ι} {p q : ι} (hq : q ≠ p) {b : SemBuf κ}
    (hb : b.op = 0 ∨ b.undo = true) (h : S.apply p b = some T) : T.adj q = S.adj q := by
  rcases apply_cases hb h with ⟨-, -, rfl⟩ | ⟨-, -, rfl⟩
  · rfl
  · exact S.add_adj_of_ne hq b.num b.op

theorem total_cons (k : κ) (b : SemBuf κ) (bs : List (SemBuf κ)) :
    total k (b :: bs) = (if b.num = k then b.op else 0) + total k bs := by simp [total]

/-- The values after `semop`. -/
theorem semop_val {S T : SemSet κ ι} {p : ι} {bs : List (SemBuf κ)} (hbs : Undone bs)
    (h : semop p bs S = some T) (k : κ) : (T.val k : ℤ) = S.val k + total k bs := by
  induction bs generalizing S with
  | nil =>
    obtain rfl := Option.some.inj h
    simp [total]
  | cons b bs ih =>
    obtain ⟨U, hU, hrest⟩ := Option.bind_eq_some_iff.mp h
    rw [ih (fun c hc => hbs c (List.mem_cons_of_mem b hc)) hrest,
      apply_val (hbs b (List.mem_cons_self ..)) hU, total_cons]
    ring

/-- The adjustments of the process after its `semop`. -/
theorem semop_adj {S T : SemSet κ ι} {p : ι} {bs : List (SemBuf κ)} (hbs : Undone bs)
    (h : semop p bs S = some T) (k : κ) : T.adj p k = S.adj p k - total k bs := by
  induction bs generalizing S with
  | nil =>
    obtain rfl := Option.some.inj h
    simp [total]
  | cons b bs ih =>
    obtain ⟨U, hU, hrest⟩ := Option.bind_eq_some_iff.mp h
    rw [ih (fun c hc => hbs c (List.mem_cons_of_mem b hc)) hrest,
      apply_adj (hbs b (List.mem_cons_self ..)) hU, total_cons]
    ring

/-- The adjustments of the others. -/
theorem semop_adj_of_ne {S T : SemSet κ ι} {p q : ι} (hq : q ≠ p) {bs : List (SemBuf κ)}
    (hbs : Undone bs) (h : semop p bs S = some T) : T.adj q = S.adj q := by
  induction bs generalizing S with
  | nil => rw [Option.some.inj h]
  | cons b bs ih =>
    obtain ⟨U, hU, hrest⟩ := Option.bind_eq_some_iff.mp h
    rw [ih (fun c hc => hbs c (List.mem_cons_of_mem b hc)) hrest,
      apply_adj_of_ne hq (hbs b (List.mem_cons_self ..)) hU]

/-- A `semop` that begins with waiting for 0 finds the value 0. -/
theorem val_of_semop_zero {S T : SemSet κ ι} {p : ι} {k : κ} {u : Bool} {bs : List (SemBuf κ)}
    (h : semop p (⟨k, 0, u⟩ :: bs) S = some T) : S.val k = 0 := by
  obtain ⟨U, hU, -⟩ := Option.bind_eq_some_iff.mp h
  by_contra hne
  simp [apply, hne] at hU

/-- One operation that subtracts has to wait when the value is too small. -/
theorem semop_sub_eq_none {S : SemSet κ ι} {p : ι} {k : κ} {n : ℤ} {bs : List (SemBuf κ)} (hn : n ≠ 0)
    (h : S.val k + n < 0) : semop p (⟨k, n, true⟩ :: bs) S = none := by
  simp [semop, apply, hn, h]

/-! ### Values and adjustments together -/

variable [Fintype ι]

/-- A value with what all the processes would still add to it. -/
def balance (S : SemSet κ ι) (k : κ) : ℤ := S.val k + ∑ p, S.adj p k

omit [DecidableEq κ] [DecidableEq ι] in
theorem balance_zero (k : κ) : (zero : SemSet κ ι).balance k = 0 := by simp [balance, zero]

omit [DecidableEq κ] in
/-- What only one process changes in a sum. -/
theorem sum_adj_of_others {S T : SemSet κ ι} {p : ι} (h : ∀ q, q ≠ p → T.adj q = S.adj q) (k : κ) :
    ∑ q, T.adj q k = ∑ q, S.adj q k + (T.adj p k - S.adj p k) := by
  have hrest : ∑ q ∈ Finset.univ.erase p, T.adj q k = ∑ q ∈ Finset.univ.erase p, S.adj q k :=
    Finset.sum_congr rfl fun q hq => by rw [h q (Finset.ne_of_mem_erase hq)]
  rw [← Finset.add_sum_erase _ (fun q => T.adj q k) (Finset.mem_univ p),
    ← Finset.add_sum_erase _ (fun q => S.adj q k) (Finset.mem_univ p), hrest]
  ring

/-- `semop` keeps every balance. -/
theorem balance_semop {S T : SemSet κ ι} {p : ι} {bs : List (SemBuf κ)} (hbs : Undone bs)
    (h : semop p bs S = some T) (k : κ) : T.balance k = S.balance k := by
  rw [balance, balance, semop_val hbs h, sum_adj_of_others fun q hq => semop_adj_of_ne hq hbs h,
    semop_adj hbs h]
  ring

omit [DecidableEq κ] in
/-- So does the end of a process, when no value would go below 0. -/
theorem balance_exit {S : SemSet κ ι} {p : ι} {k : κ} (h : 0 ≤ S.val k + S.adj p k) :
    (S.exit p).balance k = S.balance k := by
  have hothers : ∀ q, q ≠ p → (S.exit p).adj q = S.adj q := fun q hq => by
    simp [exit, Function.update_of_ne hq]
  have hself : (S.exit p).adj p k = 0 := by simp [exit]
  have hval : ((S.exit p).val k : ℤ) = S.val k + S.adj p k := Int.toNat_of_nonneg h
  rw [balance, balance, sum_adj_of_others hothers, hself, hval]
  ring

omit [DecidableEq ι] in
theorem balance_setval (S : SemSet κ ι) (k : κ) (n : ℕ) : (S.setval k n).balance k = n := by
  simp [balance, setval]

omit [DecidableEq ι] in
theorem balance_setval_of_ne (S : SemSet κ ι) {j k : κ} (h : j ≠ k) (n : ℕ) :
    (S.setval k n).balance j = S.balance j := by
  simp [balance, setval, Function.update_of_ne h]

omit [DecidableEq κ] in
/-- When nobody adds anything at the end, the adjustments of some are at least those of all. -/
theorem sum_le_sum_adj {S : SemSet κ ι} {k : κ} (h : ∀ q, S.adj q k ≤ 0) (ps : Finset ι) :
    ∑ r, S.adj r k ≤ ∑ r ∈ ps, S.adj r k := by
  have hrest : ∑ r ∈ psᶜ, S.adj r k ≤ 0 := Finset.sum_nonpos fun r _ => h r
  rw [← Finset.sum_add_sum_compl ps]
  omega

end SemSet

end NetProg
