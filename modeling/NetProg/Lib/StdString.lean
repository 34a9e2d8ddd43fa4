import Mathlib.Data.List.TakeWhile
import Mathlib.Tactic

/-! `std::string`: `find`, `substr` and `erase`.

    A position past the end makes `substr` and `erase` throw, which is `none` here. `find` gives `npos` for a
    character that is not there, and adding to `npos` wraps around. -/

namespace NetProg.StdString

variable {α : Type} [DecidableEq α]

/-- `size_t` has 64 bits. -/
def sizes : ℕ := 2 ^ 64

/-- `string::npos`. -/
def npos : ℕ := sizes - 1

/-- A sum of two `size_t`. -/
def add (a b : ℕ) : ℕ := (a + b) % sizes

/-- `find` of one character. -/
def find (c : α) (s : List α) : ℕ := if c ∈ s then s.idxOf c else npos

/-- `substr(pos, n)`. -/
def substr (s : List α) (pos n : ℕ) : Option (List α) :=
  if pos ≤ s.length then some ((s.drop pos).take n) else none

/-- `erase(pos, n)`. -/
def erase (s : List α) (pos n : ℕ) : Option (List α) :=
  if pos ≤ s.length then some (s.take pos ++ s.drop (pos + n)) else none

/-- What stands before the first `c`: all of it when there is none. -/
def before (c : α) (s : List α) : List α := s.takeWhile (· != c)

/-- What stands behind the first `c`: all of it when there is none. -/
def after (c : α) (s : List α) : List α := if c ∈ s then s.drop (s.idxOf c + 1) else s

/-- A string that fits the address space. -/
def Fits (s : List α) : Prop := s.length < npos

variable {c : α} {s t : List α}

theorem before_of_not_mem (h : c ∉ s) : before c s = s :=
  List.takeWhile_eq_self_iff.mpr fun _ hx => bne_iff_ne.mpr fun heq => h (heq ▸ hx)

theorem after_of_not_mem (h : c ∉ s) : after c s = s := if_neg h

theorem before_append (h : c ∉ s) : before c (s ++ c :: t) = s := by
  induction s with
  | nil => simp [before]
  | cons x s ih =>
    obtain ⟨hx, hs⟩ := not_or.mp (List.mem_cons.not.mp h)
    simp only [before, List.cons_append, List.takeWhile_cons, bne_iff_ne.mpr (Ne.symm hx), if_true] at ih ⊢
    rw [ih hs]

theorem before_append_left (h : c ∉ s) : before c (s ++ t) = s ++ before c t :=
  List.takeWhile_append_of_pos fun _ hx => bne_iff_ne.mpr fun heq => h (heq ▸ hx)

theorem before_append_tail (c : α) (s : List α) : ∃ t, s = before c s ++ t :=
  ⟨s.dropWhile (· != c), List.takeWhile_append_dropWhile.symm⟩

/-- The first `c` of a beginning is the first of all. -/
theorem before_before {d : α} (h : c ∈ before d s) : before c (before d s) = before c s := by
  obtain ⟨t, ht⟩ := before_append_tail d s
  obtain ⟨l, r, hl, hfirst⟩ := List.eq_append_cons_of_mem h
  have hs : s = l ++ c :: (r ++ t) := by
    rw [ht, hl, List.append_assoc, List.cons_append]
  rw [hl, before_append hfirst, hs, before_append hfirst]

theorem length_before_le {d : α} (h : c ∉ before d s) : (before d s).length ≤ (before c s).length := by
  obtain ⟨t, ht⟩ := before_append_tail d s
  have hbefore := before_append_left (t := t) h
  rw [← ht] at hbefore
  rw [hbefore, List.length_append]
  exact Nat.le_add_right ..

theorem idxOf_append (h : c ∉ s) : (s ++ c :: t).idxOf c = s.length := by
  rw [List.idxOf_append_of_notMem h, List.idxOf_cons_self, Nat.add_zero]

theorem after_append (h : c ∉ s) : after c (s ++ c :: t) = t := by
  rw [after, if_pos (by simp), idxOf_append h]
  simp

theorem dropWhile_append_left (h : c ∉ s) : (s ++ t).dropWhile (· != c) = t.dropWhile (· != c) :=
  List.dropWhile_append_of_pos fun _ hx => bne_iff_ne.mpr fun heq => h (heq ▸ hx)

theorem after_eq_tail (h : c ∈ s) : after c s = (s.dropWhile (· != c)).tail := by
  obtain ⟨l, r, rfl, hl⟩ := List.eq_append_cons_of_mem h
  have hdrop : (l ++ c :: r).dropWhile (· != c) = c :: r := by
    rw [dropWhile_append_left hl]
    simp
  rw [after_append hl, hdrop, List.tail_cons]

theorem mem_of_mem_before {x : α} (h : x ∈ before c s) : x ∈ s := (List.takeWhile_sublist _).subset h

theorem find_of_mem (h : c ∈ s) : find c s = (before c s).length := by
  obtain ⟨l, r, rfl, hl⟩ := List.eq_append_cons_of_mem h
  rw [find, if_pos h, idxOf_append hl, before_append hl]

theorem length_before_lt (h : c ∈ s) : (before c s).length < s.length := by
  obtain ⟨l, r, rfl, hl⟩ := List.eq_append_cons_of_mem h
  rw [before_append hl]
  simp

/-- The position behind the first `c`, or 0 when there is none. -/
theorem find_succ (hs : Fits s) : add (find c s) 1 = if c ∈ s then (before c s).length + 1 else 0 := by
  by_cases h : c ∈ s
  · have hlt := length_before_lt h
    rw [if_pos h, find_of_mem h, add, Nat.mod_eq_of_lt]
    unfold Fits npos at hs
    omega
  · rw [if_neg h, find, if_neg h]
    rfl

/-- `s.substr(0, s.find(c))`. -/
theorem substr_find (hs : Fits s) : substr s 0 (find c s) = some (before c s) := by
  rw [substr, if_pos (Nat.zero_le _), List.drop_zero]
  by_cases h : c ∈ s
  · obtain ⟨l, r, rfl, hl⟩ := List.eq_append_cons_of_mem h
    rw [find_of_mem h, before_append hl]
    simp
  · rw [find, if_neg h, before_of_not_mem h, List.take_of_length_le hs.le]

/-- `s.erase(0, s.find(c) + 1)`. -/
theorem erase_find (hs : Fits s) : erase s 0 (add (find c s) 1) = some (after c s) := by
  rw [erase, if_pos (Nat.zero_le _), find_succ hs, List.take_zero, List.nil_append, Nat.zero_add]
  by_cases h : c ∈ s
  · obtain ⟨l, r, rfl, hl⟩ := List.eq_append_cons_of_mem h
    rw [if_pos h, before_append hl, after_append hl]
    simp
  · rw [if_neg h, after_of_not_mem h, List.drop_zero]

/-- `s.substr(s.find(c) + 1, s.length())`. -/
theorem substr_find_succ (hs : Fits s) : substr s (add (find c s) 1) s.length = some (after c s) := by
  rw [substr, find_succ hs]
  by_cases h : c ∈ s
  · obtain ⟨l, r, rfl, hl⟩ := List.eq_append_cons_of_mem h
    rw [if_pos h, before_append hl, after_append hl, if_pos (by simp)]
    have hdrop : (l ++ c :: r).drop (l.length + 1) = r := by simp
    rw [hdrop, List.take_of_length_le]
    rw [List.length_append, List.length_cons]
    omega
  · rw [if_neg h, after_of_not_mem h, if_pos (Nat.zero_le _), List.drop_zero, List.take_length]

theorem Fits.before (hs : Fits s) : Fits (before c s) :=
  lt_of_le_of_lt (List.takeWhile_sublist _).length_le hs

theorem Fits.after (hs : Fits s) : Fits (after c s) := by
  unfold StdString.after
  split_ifs
  · exact lt_of_le_of_lt (by simp) hs
  · exact hs

end NetProg.StdString
