import Mathlib.Tactic

/-! Runs of a step function that takes an action.

    `Always` is about the states a run goes through and `Meets` about its actions, each with the state
    it is taken in. An invariant that every action meeting the condition keeps leads from one to the
    other, and back when every other action breaks the property. -/

namespace NetProg

variable {σ α : Type*} {step : σ → α → Option σ} {P Inv : σ → Prop} {C : σ → α → Prop}

/-- The state after some actions, if all of them are possible. -/
def runWith (step : σ → α → Option σ) : σ → List α → Option σ
  | s, [] => some s
  | s, a :: as => (step s a).bind fun t => runWith step t as

/-- Every state the run goes through satisfies `P`. -/
def Always (step : σ → α → Option σ) (P : σ → Prop) (s : σ) (as : List α) : Prop :=
  ∀ pre u, pre <+: as → runWith step s pre = some u → P u

/-- Every action of the run meets the condition `C` in the state it is taken in. -/
def Meets (step : σ → α → Option σ) (C : σ → α → Prop) (s : σ) (as : List α) : Prop :=
  ∀ pre a u, pre ++ [a] <+: as → runWith step s pre = some u → C u a

theorem runWith_cons {s t : σ} {a : α} {as : List α} (h : runWith step s (a :: as) = some t) :
    ∃ u, step s a = some u ∧ runWith step u as = some t := by
  rw [runWith, Option.bind_eq_some_iff] at h
  exact h

theorem runWith_step {s u : σ} {a : α} (h : step s a = some u) (as : List α) :
    runWith step s (a :: as) = runWith step u as := by
  rw [runWith, h, Option.bind_some]

theorem runWith_append (step : σ → α → Option σ) : ∀ (as bs : List α) (s : σ),
    runWith step s (as ++ bs) = (runWith step s as).bind fun t => runWith step t bs
  | [], _, _ => rfl
  | a :: as, bs, s => by
    rw [List.cons_append, runWith, runWith]
    cases step s a with
    | none => rfl
    | some t => exact runWith_append step as bs t

theorem Always.now {s : σ} {as : List α} (h : Always step P s as) : P s :=
  h [] s List.nil_prefix rfl

theorem Always.next {s u : σ} {a : α} {as : List α} (h : Always step P s (a :: as))
    (hs : step s a = some u) : Always step P u as := by
  intro pre t hpre hrun
  refine h (a :: pre) t ?_ ?_
  · simpa using hpre
  · rwa [runWith_step hs]

theorem Always.nil {s : σ} (h : P s) : Always step P s ([] : List α) := by
  intro pre t hpre hrun
  rw [List.prefix_nil] at hpre
  subst hpre
  exact Option.some.inj hrun ▸ h

theorem Always.cons {s : σ} {a : α} {as : List α} (h : P s)
    (hrest : ∀ u, step s a = some u → Always step P u as) : Always step P s (a :: as) := by
  intro pre t hpre hrun
  cases pre with
  | nil => exact Option.some.inj hrun ▸ h
  | cons b pre =>
    obtain ⟨rfl, htail⟩ := List.cons_prefix_cons.mp hpre
    obtain ⟨u, hu, hrun⟩ := runWith_cons hrun
    exact hrest u hu pre t htail hrun

theorem Meets.now {s : σ} {a : α} {as : List α} (h : Meets step C s (a :: as)) : C s a :=
  h [] a s (by simp) rfl

theorem Meets.next {s u : σ} {a : α} {as : List α} (h : Meets step C s (a :: as))
    (hs : step s a = some u) : Meets step C u as := by
  intro pre b t hpre hrun
  refine h (a :: pre) b t ?_ ?_
  · simpa using hpre
  · rwa [runWith_step hs]

theorem Meets.nil {s : σ} : Meets step C s [] := by
  intro pre a u hpre
  simp at hpre

theorem Meets.cons {s : σ} {a : α} {as : List α} (h : C s a)
    (hrest : ∀ u, step s a = some u → Meets step C u as) : Meets step C s (a :: as) := by
  intro pre b t hpre hrun
  cases pre with
  | nil =>
    obtain rfl : b = a := by simpa using hpre
    exact Option.some.inj hrun ▸ h
  | cons c pre =>
    obtain ⟨rfl, htail⟩ := List.cons_prefix_cons.mp hpre
    obtain ⟨u, hu, hrun⟩ := runWith_cons hrun
    exact hrest u hu pre b t htail hrun

theorem Meets.imp {D : σ → α → Prop} {s : σ} {as : List α} (h : Meets step C s as)
    (himp : ∀ s a, C s a → D s a) : Meets step D s as :=
  fun pre a u hpre hrun => himp u a (h pre a u hpre hrun)

theorem meets_congr {D : σ → α → Prop} (h : ∀ s a, C s a ↔ D s a) (s : σ) (as : List α) :
    Meets step C s as ↔ Meets step D s as :=
  ⟨fun hC => hC.imp fun s a => (h s a).mp, fun hD => hD.imp fun s a => (h s a).mpr⟩

/-- Whether a run meets a condition that can be decided is decided along the run. -/
instance decidableMeets [∀ s a, Decidable (C s a)] : ∀ (s : σ) (as : List α),
    Decidable (Meets step C s as)
  | _, [] => .isTrue .nil
  | s, a :: as =>
    match h : step s a with
    | none => decidable_of_iff (C s a) ⟨fun hc => .cons hc fun u hu => by simp [h] at hu, Meets.now⟩
    | some u =>
      have := decidableMeets u as
      decidable_of_iff (C s a ∧ Meets step C u as)
        ⟨fun hc => .cons hc.1 fun v hv => Option.some.inj (h.symm.trans hv) ▸ hc.2,
          fun hm => ⟨hm.now, hm.next h⟩⟩

/-- An invariant that the actions meeting `C` keep holds along every run that meets `C`. -/
theorem always_of_meets (hkeep : ∀ s a t, Inv s → C s a → step s a = some t → Inv t)
    (hP : ∀ s, Inv s → P s) {s : σ} (hs : Inv s) {as : List α} (h : Meets step C s as) :
    Always step P s as := by
  induction as generalizing s with
  | nil => exact .nil (hP s hs)
  | cons a as ih =>
    refine .cons (hP s hs) fun u hu => ih ?_ (h.next hu)
    exact hkeep s a u hs h.now hu

/-- What the invariant and `C` say about an action holds of every action of the run. -/
theorem meets_of_meets {D : σ → α → Prop} (hkeep : ∀ s a t, Inv s → C s a → step s a = some t → Inv t)
    (hD : ∀ s a, Inv s → C s a → D s a) {s : σ} (hs : Inv s) {as : List α} (h : Meets step C s as) :
    Meets step D s as := by
  induction as generalizing s with
  | nil => exact .nil
  | cons a as ih =>
    refine .cons (hD s a hs h.now) fun u hu => ih ?_ (h.next hu)
    exact hkeep s a u hs h.now hu

/-- When every other action that is possible breaks `P`, the runs that meet `C` are the only ones along
    which `P` holds all the time. -/
theorem always_iff_meets_of_free (hkeep : ∀ s a t, Inv s → C s a → step s a = some t → Inv t)
    (hP : ∀ s, Inv s → P s) (hbreak : ∀ s a t, Inv s → ¬ C s a → step s a = some t → ¬ P t)
    (hfree : ∀ s a, step s a = none → C s a) {s : σ} (hs : Inv s) (as : List α) :
    Always step P s as ↔ Meets step C s as := by
  refine ⟨fun h => ?_, always_of_meets hkeep hP hs⟩
  induction as generalizing s with
  | nil => exact .nil
  | cons a as ih =>
    have hC : C s a := by
      by_contra hno
      cases hu : step s a with
      | none => exact hno (hfree s a hu)
      | some u => exact hbreak s a u hs hno hu (h.next hu).now
    exact .cons hC fun u hu => ih (hkeep s a u hs hC hu) (h.next hu)

/-- When every other action breaks `P`, the runs that meet `C` are the only ones along which `P` holds
    all the time. -/
theorem always_iff_meets (hkeep : ∀ s a t, Inv s → C s a → step s a = some t → Inv t)
    (hP : ∀ s, Inv s → P s) (hbreak : ∀ s a t, Inv s → ¬ C s a → step s a = some t → ¬ P t)
    {s : σ} (hs : Inv s) {as : List α} {t : σ} (hrun : runWith step s as = some t) :
    Always step P s as ↔ Meets step C s as := by
  refine ⟨fun h => ?_, always_of_meets hkeep hP hs⟩
  induction as generalizing s with
  | nil => exact .nil
  | cons a as ih =>
    obtain ⟨u, hu, hrest⟩ := runWith_cons hrun
    have hC : C s a := by
      by_contra hno
      exact hbreak s a u hs hno hu (h.next hu).now
    refine .cons hC fun u' hu' => ?_
    obtain rfl : u = u' := Option.some.inj (hu.symm.trans hu')
    exact ih (hkeep s a u hs hC hu) hrest (h.next hu)

end NetProg
