import Mathlib.Data.List.Basic

/-! A buffered output stream over a descriptor.

    What is put into it waits until it is flushed or the library writes some of it out by itself. How
    much that is, is a parameter: `spill n k` characters when `k` are put behind `n` that wait. Whatever
    it is, the stream neither loses, repeats nor reorders anything. -/

namespace NetProg.Buffered

variable {α : Type}

/-- What has been written out since some moment, and what waits. -/
structure Stream (α : Type) where
  out : List α
  waiting : List α
  deriving DecidableEq

inductive Op (α : Type) where
  | put (text : List α)
  | flush

/-- What an operation adds to the stream. -/
def Op.text : Op α → List α
  | put text => text
  | flush => []

variable (spill : ℕ → ℕ → ℕ)

def Op.apply (st : Stream α) : Op α → Stream α
  | put text =>
    let all := st.waiting ++ text
    let n := spill st.waiting.length text.length
    ⟨st.out ++ all.take n, all.drop n⟩
  | flush => ⟨st.out ++ st.waiting, []⟩

def feed (st : Stream α) (ops : List (Op α)) : Stream α := ops.foldl (Op.apply spill) st

/-- Everything that is put into the stream. -/
def texts (ops : List (Op α)) : List α := ops.flatMap Op.text

@[simp] theorem feed_nil (st : Stream α) : feed spill st [] = st := rfl

theorem feed_append (st : Stream α) (ops ops' : List (Op α)) :
    feed spill st (ops ++ ops') = feed spill (feed spill st ops) ops' := List.foldl_append

/-- What has been written out and what waits are together what was there and what was put. -/
theorem feed_conserves (st : Stream α) (ops : List (Op α)) :
    (feed spill st ops).out ++ (feed spill st ops).waiting = st.out ++ st.waiting ++ texts ops := by
  induction ops generalizing st with
  | nil => rw [feed_nil, texts, List.flatMap_nil, List.append_nil]
  | cons op ops ih =>
    have hone : (op.apply spill st).out ++ (op.apply spill st).waiting =
        st.out ++ st.waiting ++ op.text := by
      cases op with
      | put text => simp [Op.apply, Op.text, List.append_assoc]
      | flush => simp [Op.apply, Op.text]
    rw [feed, List.foldl_cons]
    refine (ih _).trans ?_
    rw [hone, texts, texts, List.flatMap_cons, List.append_assoc]

/-- What waits does not depend on what has been written out. -/
theorem waiting_feed (st : Stream α) (ops : List (Op α)) :
    (feed spill st ops).waiting = (feed spill ⟨[], st.waiting⟩ ops).waiting := by
  induction ops generalizing st with
  | nil => rfl
  | cons op ops ih =>
    have hone : (op.apply spill st).waiting = (op.apply spill ⟨[], st.waiting⟩).waiting := by
      cases op <;> rfl
    rw [feed, feed, List.foldl_cons, List.foldl_cons]
    exact (ih _).trans ((congrArg (fun w => (feed spill ⟨[], w⟩ ops).waiting) hone).trans (ih _).symm)

/-- When nothing waits in the end, everything that waited or was put is written out, once and in
    order. -/
theorem feed_of_drained {waiting : List α} {ops : List (Op α)}
    (h : (feed spill ⟨[], waiting⟩ ops).waiting = []) :
    feed spill ⟨[], waiting⟩ ops = ⟨waiting ++ texts ops, []⟩ := by
  have hall := feed_conserves spill ⟨[], waiting⟩ ops
  rw [h, List.append_nil, List.nil_append] at hall
  cases hst : feed spill ⟨[], waiting⟩ ops with
  | mk out rest =>
    rw [hst] at h hall
    rw [← hall, ← h]

end NetProg.Buffered
