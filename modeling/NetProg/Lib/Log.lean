import Mathlib.Tactic

/-! A deterministic machine that keeps a log.

    The machine takes one turn after another and only ever appends to its log, so what it logs in all
    its turns is one sequence, finite or not; `Logs` speaks about its beginnings. -/

namespace NetProg

namespace Log

variable {σ β : Type*} {turn : σ → σ} {log : σ → List β}

/-- Some turns lead from one state to another. -/
def Leads (turn : σ → σ) (s t : σ) : Prop := ∃ n, turn^[n] s = t

/-- The sequence logged begins with `l`. -/
def Logs (turn : σ → σ) (log : σ → List β) (s : σ) (l : List β) : Prop := ∃ n, l <+: log (turn^[n] s)

/-- A turn only appends to the log. -/
def Appends (turn : σ → σ) (log : σ → List β) : Prop := ∀ s, log s <+: log (turn s)

theorem Leads.refl (s : σ) : Leads turn s s := ⟨0, rfl⟩

theorem Leads.one (s : σ) : Leads turn s (turn s) := ⟨1, rfl⟩

theorem Leads.trans {s t u : σ} (h : Leads turn s t) (h' : Leads turn t u) : Leads turn s u := by
  obtain ⟨n, rfl⟩ := h
  obtain ⟨m, rfl⟩ := h'
  exact ⟨m + n, Function.iterate_add_apply turn m n s⟩

theorem Leads.step {s t : σ} (h : Leads turn (turn s) t) : Leads turn s t := (Leads.one s).trans h

theorem log_mono (h : Appends turn log) (s : σ) {n m : ℕ} (hnm : n ≤ m) :
    log (turn^[n] s) <+: log (turn^[m] s) := by
  induction m, hnm using Nat.le_induction with
  | base => exact List.prefix_refl _
  | succ m _ ih =>
    rw [Function.iterate_succ_apply']
    exact ih.trans (h _)

/-- What is logged does not depend on where in a run one begins to look. -/
theorem logs_iff_of_leads (h : Appends turn log) {s t : σ} (hst : Leads turn s t) {l : List β} :
    Logs turn log s l ↔ Logs turn log t l := by
  obtain ⟨k, rfl⟩ := hst
  constructor
  · rintro ⟨n, hn⟩
    refine ⟨n, ?_⟩
    rw [← Function.iterate_add_apply]
    exact hn.trans (log_mono h s (Nat.le_add_right n k))
  · rintro ⟨n, hn⟩
    rw [← Function.iterate_add_apply] at hn
    exact ⟨n + k, hn⟩

/-- Two beginnings of one sequence. -/
theorem Logs.total (h : Appends turn log) {s : σ} {l l' : List β} (hl : Logs turn log s l)
    (hl' : Logs turn log s l') : l <+: l' ∨ l' <+: l := by
  obtain ⟨n, hn⟩ := hl
  obtain ⟨m, hm⟩ := hl'
  rcases le_total n m with hnm | hmn
  · exact List.prefix_or_prefix_of_prefix (hn.trans (log_mono h s hnm)) hm
  · exact List.prefix_or_prefix_of_prefix hn (hm.trans (log_mono h s hmn))

/-- Two entries at one place of the sequence are one entry. -/
theorem Logs.entry_eq (h : Appends turn log) {s : σ} {l : List β} {a b : β}
    (ha : Logs turn log s (l ++ [a])) (hb : Logs turn log s (l ++ [b])) : a = b := by
  rcases ha.total h hb with hp | hp
  · simpa using hp.eq_of_length (by simp)
  · simpa using (hp.eq_of_length (by simp)).symm

/-- A machine that stands still logs nothing more. -/
theorem logs_of_fixed {s : σ} (h : turn s = s) {l : List β} : Logs turn log s l ↔ l <+: log s := by
  have hfix : ∀ n, turn^[n] s = s := fun n => Function.iterate_fixed h n
  constructor
  · rintro ⟨n, hn⟩
    rwa [hfix] at hn
  · exact fun hl => ⟨0, hl⟩

/-- Two machines in step with each other. -/
theorem iterate_lockstep {T : σ → σ → Prop} (hT : ∀ s t, T s t → T (turn s) (turn t)) {s t : σ}
    (h : T s t) (n : ℕ) : T (turn^[n] s) (turn^[n] t) := by
  induction n with
  | zero => exact h
  | succ n ih =>
    rw [Function.iterate_succ_apply', Function.iterate_succ_apply']
    exact hT _ _ ih

end Log

end NetProg
