import NetProg.Lib.Run

/-! Processes that fork.

    A turn of a process leaves some processes in its place: none when it ends, itself when it goes on,
    and one more for every child that goes on with the same program. -/

namespace NetProg

namespace Population

variable {σ ι : Type*} {turn : σ → ι → Option (List σ)} {C : σ → ι → Prop}

/-- One process takes a turn. -/
def step (turn : σ → ι → Option (List σ)) (ps : List σ) (a : ℕ × ι) : Option (List σ) :=
  match ps[a.1]? with
  | none => none
  | some p => (turn p a.2).map fun qs => ps.take a.1 ++ qs ++ ps.drop (a.1 + 1)

/-- There is at most one process. -/
def Single (ps : List σ) : Prop := ps.length ≤ 1

/-- The process that takes the turn meets a condition. -/
def Acting (C : σ → ι → Prop) (ps : List σ) (a : ℕ × ι) : Prop := ∀ p ∈ ps[a.1]?, C p a.2

/-- The turn of a process that is alone. -/
theorem step_single {ps : List σ} (hs : Single ps) {a : ℕ × ι} {p : σ} (hp : ps[a.1]? = some p) :
    step turn ps a = turn p a.2 := by
  obtain ⟨hlt, -⟩ := List.getElem?_eq_some_iff.mp hp
  have hlen : ps.length ≤ 1 := hs
  have h0 : a.1 = 0 := by omega
  have hps : ps = [p] := by
    obtain ⟨q, rfl⟩ := List.length_eq_one_iff.mp (show ps.length = 1 by omega)
    rw [h0] at hp
    rw [Option.some.inj hp]
  subst hps
  cases hturn : turn p a.2 <;> simp [step, h0, hturn]

/-- There is at most one process all the time, if and only if no turn leaves two. -/
theorem always_single_iff (hC : ∀ p i qs, turn p i = some qs → (qs.length ≤ 1 ↔ C p i))
    (hfree : ∀ p i, turn p i = none → C p i) (p : σ) (as : List (ℕ × ι)) :
    Always (step turn) Single [p] as ↔ Meets (step turn) (Acting C) [p] as := by
  -- what a turn of the only process does
  have hturn : ∀ ps a t, Single ps → step turn ps a = some t →
      ∃ q, ps[a.1]? = some q ∧ turn q a.2 = some t := by
    intro ps a t hs hstep
    cases hq : ps[a.1]? with
    | none => simp [step, hq] at hstep
    | some q =>
      rw [step_single hs hq] at hstep
      exact ⟨q, rfl, hstep⟩
  have hkeep : ∀ ps a t, Single ps → Acting C ps a → step turn ps a = some t → Single t := by
    intro ps a t hs hact hstep
    obtain ⟨q, hq, ht⟩ := hturn ps a t hs hstep
    exact (hC q a.2 t ht).mpr (hact q hq)
  have hbreak : ∀ ps a t, Single ps → ¬ Acting C ps a → step turn ps a = some t → ¬ Single t := by
    intro ps a t hs hact hstep hsingle
    obtain ⟨q, hq, ht⟩ := hturn ps a t hs hstep
    refine hact fun q' hq' => ?_
    obtain rfl : q = q' := Option.some.inj (hq.symm.trans hq')
    exact (hC q a.2 t ht).mp hsingle
  refine always_iff_meets_of_free hkeep (fun _ hs => hs) hbreak (fun ps a hstep q hq => ?_) le_rfl as
  refine hfree q a.2 ?_
  simpa [step, Option.mem_def.mp hq] using hstep

end Population

end NetProg
