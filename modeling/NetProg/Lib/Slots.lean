import Mathlib.Data.List.Basic
import Mathlib.Tactic

/-! A table of slots, and the code that puts a newcomer into the lowest free one.

    The search leaves its index in a variable, and the slot with that index is filled in afterwards. When no
    slot is free the variable was not set, and holds what was in its memory. -/

namespace NetProg.Slots

variable {σ : Type} (size : ℕ) (valid : σ → Bool)

/-- The search: the first slot that is not valid. -/
def search (t : ℕ → σ) : Option ℕ := (List.range size).find? fun i => !valid (t i)

/-- The lowest free slot. -/
def LowestFree (t : ℕ → σ) (i : ℕ) : Prop := i < size ∧ valid (t i) = false ∧ ∀ j < i, valid (t j) = true

/-- No slot is free. -/
def Full (t : ℕ → σ) : Prop := ∀ i < size, valid (t i) = true

/-- What admission should do: the lowest free slot is filled in and no other slot changes; when there is
    none, nothing changes. -/
def Admitted (fill : σ → σ) (t t' : ℕ → σ) : Prop :=
  (∃ i, LowestFree size valid t i ∧ t' = Function.update t i (fill (t i))) ∨
    (Full size valid t ∧ t' = t)

/-- What the code does, with the value `junk` the index has before the search. An index outside of the table is
    not defined. -/
def place (fill : σ → σ) (junk : ℕ) (t : ℕ → σ) : Option (ℕ → σ) :=
  let i := (search size valid t).getD junk
  if i < size then some (Function.update t i (fill (t i))) else none

variable {size valid} {fill : σ → σ} {t t' : ℕ → σ} {i junk : ℕ}

theorem search_eq_some : search size valid t = some i ↔ LowestFree size valid t i := by
  rw [search, List.find?_range_eq_some]
  simp only [List.mem_range, LowestFree, Bool.not_eq_true', Bool.not_not]
  tauto

theorem search_eq_none : search size valid t = none ↔ Full size valid t := by
  simp [search, Full, List.find?_eq_none]

/-- There is a lowest free slot, or the table is full. -/
theorem free_or_full (t : ℕ → σ) : (∃ i, LowestFree size valid t i) ∨ Full size valid t := by
  cases h : search size valid t with
  | none => exact Or.inr (search_eq_none.mp h)
  | some i => exact Or.inl ⟨i, search_eq_some.mp h⟩

theorem LowestFree.not_full (h : LowestFree size valid t i) : ¬ Full size valid t := fun hfull =>
  Bool.false_ne_true (h.2.1.symm.trans (hfull i h.1))

theorem not_full_iff : ¬ Full size valid t ↔ ∃ i < size, valid (t i) = false := by
  simp [Full]

theorem place_free (h : LowestFree size valid t i) :
    place size valid fill junk t = some (Function.update t i (fill (t i))) := by
  rw [place, search_eq_some.mpr h]
  exact if_pos h.1

theorem place_full (h : Full size valid t) :
    place size valid fill junk t =
      if junk < size then some (Function.update t junk (fill (t junk))) else none := by
  rw [place, search_eq_none.mpr h]
  rfl

/-- The code does what it should when a slot is free, or when the slot the index happens to name already is as
    it would be filled in. -/
theorem place_iff : (∃ t', place size valid fill junk t = some t' ∧ Admitted size valid fill t t') ↔
    (∃ i < size, valid (t i) = false) ∨ (junk < size ∧ fill (t junk) = t junk) := by
  rw [← not_full_iff]
  constructor
  · rintro ⟨t', hplace, hadm⟩
    by_cases hfull : Full size valid t
    · right
      rw [place_full hfull] at hplace
      split_ifs at hplace with hjunk
      obtain rfl := Option.some.inj hplace
      rcases hadm with ⟨i, hi, -⟩ | ⟨-, hsame⟩
      · exact absurd hfull hi.not_full
      · refine ⟨hjunk, ?_⟩
        have hat := congrFun hsame junk
        rwa [Function.update_self] at hat
    · exact Or.inl hfull
  · intro h
    have hfree : (∃ i, LowestFree size valid t i) ∨ Full size valid t := free_or_full t
    rcases hfree with ⟨i, hi⟩ | hfull
    · exact ⟨_, place_free hi, Or.inl ⟨i, hi, rfl⟩⟩
    · obtain ⟨hjunk, hsame⟩ := h.resolve_left (not_not.mpr hfull)
      refine ⟨t, ?_, Or.inr ⟨hfull, rfl⟩⟩
      rw [place_full hfull, if_pos hjunk, hsame, Function.update_eq_self]

/-- The first `n` slots are taken and no other: the next one is filled in. -/
theorem lowestFree_of_prefix {n : ℕ} (h : ∀ i < size, valid (t i) = decide (i < n)) (hn : n < size) :
    LowestFree size valid t n :=
  ⟨hn, by simpa using h n hn, fun j hj => by simpa [hj] using h j (hj.trans hn)⟩

end NetProg.Slots
