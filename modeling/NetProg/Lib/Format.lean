import Mathlib.Data.List.Count
import Mathlib.Tactic

/-! Formatted output with a text as its own format.

    `%%` writes one `%`. What another conversion writes is a parameter; it may depend on the whole format and on
    the conversions before it, or be undefined, but it writes no `%`. So every `%` of a format costs one, and a
    format is written as it stands if and only if it has none. -/

namespace NetProg

/-- What a conversion other than `%%` writes, and how many characters behind its `%` belong to it: in this
format, behind so many other conversions, with this text behind the `%`. -/
structure Conversions where
  convert : List Char → ℕ → List Char → Option (List Char × ℕ)
  plain : ∀ format behind s text n, convert format behind s = some (text, n) → '%' ∉ text

/-- No conversion is defined. -/
def Conversions.none : Conversions := ⟨fun _ _ _ => Option.none, nofun⟩

namespace Conversions

/-- The format from some point on, where `skip` more characters belong to the last conversion. -/
def write (C : Conversions) (format : List Char) : ℕ → ℕ → List Char → Option (List Char)
  | _, _, [] => some []
  | skip + 1, behind, _ :: s => C.write format skip behind s
  | 0, behind, c :: s =>
    if c = '%' then
      if s.head? = some '%' then (C.write format 1 behind s).map ('%' :: ·)
      else
        match C.convert format behind s with
        | Option.none => Option.none
        | some (text, n) => (C.write format n (behind + 1) s).map (text ++ ·)
    else (C.write format 0 behind s).map (c :: ·)

/-- `sprintf(buf, format, ..)`. -/
def sprintf (C : Conversions) (format : List Char) : Option (List Char) := C.write format 0 0 format

variable {C : Conversions} {format s out : List Char} {skip behind : ℕ}

theorem write_plain (h : '%' ∉ s) : C.write format 0 behind s = some s := by
  induction s with
  | nil => rfl
  | cons c s ih =>
    obtain ⟨hc, hs⟩ := not_or.mp (List.mem_cons.not.mp h)
    rw [write, if_neg (Ne.symm hc), ih hs, Option.map_some]

/-- A `%` that is not skipped costs one `%` at least. -/
theorem count_write (h : C.write format skip behind s = some out) :
    out.count '%' ≤ (s.drop skip).count '%' ∧ (skip = 0 → '%' ∈ s → out.count '%' < s.count '%') := by
  induction s generalizing skip behind out with
  | nil =>
    cases skip <;> cases h <;> simp
  | cons c s ih =>
    cases skip with
    | succ skip =>
      rw [write] at h
      exact ⟨(ih h).1, nofun⟩
    | zero =>
      rw [List.drop_zero]
      suffices hall : out.count '%' ≤ (c :: s).count '%' ∧ ('%' ∈ c :: s → out.count '%' < (c :: s).count '%') from
        ⟨hall.1, fun _ => hall.2⟩
      rw [write] at h
      split_ifs at h with hc hdouble
      · obtain ⟨rest, hrest, rfl⟩ := Option.map_eq_some_iff.mp h
        have hcount := (ih hrest).1
        obtain ⟨s, rfl⟩ := List.head?_eq_some_iff.mp hdouble
        subst hc
        rw [List.drop_one, List.tail_cons] at hcount
        simp only [List.count_cons_self]
        exact ⟨by omega, fun _ => by omega⟩
      · cases hconvert : C.convert format behind s with
        | none =>
          rw [hconvert] at h
          cases h
        | some r =>
          obtain ⟨text, n⟩ := r
          rw [hconvert] at h
          obtain ⟨rest, hrest, rfl⟩ := Option.map_eq_some_iff.mp h
          have hcount := (ih hrest).1
          have hdrop : (s.drop n).count '%' ≤ s.count '%' := (List.drop_sublist n s).count_le '%'
          have htext := List.count_eq_zero.mpr (C.plain format behind s text n hconvert)
          subst hc
          simp only [List.count_append, List.count_cons_self]
          exact ⟨by omega, fun _ => by omega⟩
      · obtain ⟨rest, hrest, rfl⟩ := Option.map_eq_some_iff.mp h
        obtain ⟨hle, hlt⟩ := ih hrest
        simp only [List.count_cons_of_ne hc, List.drop_zero, List.mem_cons, Ne.symm hc, false_or] at hle ⊢
        exact ⟨hle, hlt rfl⟩

theorem sprintf_plain (h : '%' ∉ format) : C.sprintf format = some format := write_plain h

theorem count_sprintf_le (h : C.sprintf format = some out) : out.count '%' ≤ format.count '%' :=
  (count_write h).1

theorem count_sprintf_lt (h : C.sprintf format = some out) (hmem : '%' ∈ format) :
    out.count '%' < format.count '%' :=
  (count_write h).2 rfl hmem

end Conversions
end NetProg
