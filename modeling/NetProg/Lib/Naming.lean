import Mathlib.Data.Set.Function
import Mathlib.Tactic

/-! Giving numbers to names, one after another.

    A counter hands out the numbers `0, 1, 2, ...`; each time a new name comes into use it gets the
    next one. The numbers in use stay below the counter and no two names share one, and the number
    of an old name never changes. -/

namespace NetProg

/-- The names in `U` have different numbers, all below the counter. -/
structure Named {α : Type*} (U : Set α) (ρ : α → ℕ) (counter : ℕ) : Prop where
  inj : Set.InjOn ρ U
  lt : ∀ p ∈ U, ρ p < counter

namespace Named
variable {α : Type*} {U : Set α} {ρ ρ' : α → ℕ} {counter : ℕ}

theorem empty (ρ : α → ℕ) (counter : ℕ) : Named (∅ : Set α) ρ counter :=
  ⟨by simp, by simp⟩

/-- The counter may run on. -/
theorem mono (h : Named U ρ counter) {counter' : ℕ} (hle : counter ≤ counter') :
    Named U ρ counter' :=
  ⟨h.inj, fun p hp => lt_of_lt_of_le (h.lt p hp) hle⟩

theorem subset (h : Named U ρ counter) {V : Set α} (hV : V ⊆ U) : Named V ρ counter :=
  ⟨h.inj.mono hV, fun p hp => h.lt p (hV hp)⟩

variable [DecidableEq α]

/-- A new name leaves the numbers of the names in use alone. -/
theorem update_agree {p : α} (hp : p ∉ U) (n : ℕ) : ∀ q ∈ U, Function.update ρ p n q = ρ q := by
  intro q hq
  have hne : q ≠ p := by rintro rfl; exact hp hq
  simp [hne]

/-- A new name gets the number of the counter. -/
theorem insert (h : Named U ρ counter) {p : α} (hp : p ∉ U) :
    Named (insert p U) (Function.update ρ p counter) (counter + 1) := by
  have hagree := update_agree (ρ := ρ) hp counter
  have hself : Function.update ρ p counter p = counter := by simp
  constructor
  · rintro a (rfl | ha) b (rfl | hb) hab
    · rfl
    · rw [hself, hagree b hb] at hab
      exact absurd hab (h.lt b hb).ne'
    · rw [hself, hagree a ha] at hab
      exact absurd hab (h.lt a ha).ne
    · rw [hagree a ha, hagree b hb] at hab
      exact h.inj ha hb hab
  · rintro a (rfl | ha)
    · simp
    · rw [hagree a ha]
      exact Nat.lt_succ_of_lt (h.lt a ha)

end Named
end NetProg
