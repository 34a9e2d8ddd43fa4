import Mathlib.Data.List.Basic
import Mathlib.Tactic

/-! Cutting a list into short parts.

    Some elements are marked, and a part counts when there is a marked element in it. However a list
    is cut into parts of at most `size` elements, at least `cover` of them count, and at most as many
    as there are marked elements; both numbers are reached. -/

namespace NetProg

variable {α : Type*} {p : α → Bool} {size : ℕ}

/-- How many windows of `size` elements the marked elements need, taken one after the other, when the
    next `left` elements lie in a window already. -/
def coverFrom (p : α → Bool) (size : ℕ) : ℕ → List α → ℕ
  | _, [] => 0
  | left + 1, _ :: l => coverFrom p size left l
  | 0, a :: l => if p a then coverFrom p size (size - 1) l + 1 else coverFrom p size 0 l

/-- How many windows of `size` elements the marked elements need. -/
def cover (p : α → Bool) (size : ℕ) (l : List α) : ℕ := coverFrom p size 0 l

/-- The number of parts with a marked element. -/
def marked (p : α → Bool) (parts : List (List α)) : ℕ := parts.countP (·.any p)

@[simp] theorem coverFrom_nil (left : ℕ) : coverFrom p size left [] = 0 := by
  cases left <;> rfl

/-- Elements that lie in a window already do not matter. -/
theorem coverFrom_eq_drop : ∀ (left : ℕ) (l : List α),
    coverFrom p size left l = coverFrom p size 0 (l.drop left)
  | 0, _ => rfl
  | _ + 1, [] => by simp
  | left + 1, _ :: l => coverFrom_eq_drop left l

/-- A window more saves at most one later, and a longer one never costs any. -/
theorem coverFrom_bounds : ∀ (l : List α) (i j : ℕ), i ≤ j →
    coverFrom p size j l ≤ coverFrom p size i l ∧
      (j ≤ size → coverFrom p size i l ≤ coverFrom p size j l + 1)
  | [], i, j, _ => by simp
  | a :: l, i, j, hij => by
    have hzero : ∀ k ≤ size - 1, coverFrom p size 0 l ≤ coverFrom p size k l + 1 := fun k hk =>
      (coverFrom_bounds l 0 k (Nat.zero_le _)).2 (hk.trans (Nat.sub_le _ _))
    have hleft : ∀ k, coverFrom p size k l ≤ coverFrom p size 0 l := fun k =>
      (coverFrom_bounds l 0 k (Nat.zero_le _)).1
    rcases i with - | i
    · rcases j with - | j
      · simp
      · simp only [coverFrom]
        have hj := hleft j
        split_ifs with ha
        · refine ⟨hj.trans (hzero _ le_rfl), fun hsize => ?_⟩
          have := (coverFrom_bounds l j (size - 1) (by omega)).1
          omega
        · exact ⟨hj, fun hsize => hzero j (by omega)⟩
    · obtain ⟨j, rfl⟩ : ∃ k, j = k + 1 := ⟨j - 1, by omega⟩
      obtain ⟨hle, hone⟩ := coverFrom_bounds l i j (by omega)
      exact ⟨hle, fun hsize => hone (by omega)⟩

/-- Without a marked element a part needs no window. -/
theorem coverFrom_append_of_free : ∀ {part : List α} (left : ℕ) (l : List α), part.any p = false →
    coverFrom p size left (part ++ l) = coverFrom p size (left - part.length) l
  | [], _, _, _ => rfl
  | a :: part, left, l, h => by
    rw [List.any_cons, Bool.or_eq_false_iff] at h
    rcases left with - | left
    · simp only [List.cons_append, coverFrom, h.1]
      rw [if_neg (by decide), coverFrom_append_of_free 0 l h.2]
      simp
    · simp only [List.cons_append, coverFrom]
      rw [coverFrom_append_of_free left l h.2, List.length_cons, Nat.add_sub_add_right]

/-- A part of at most `size` elements needs one window. -/
theorem coverFrom_append_le : ∀ {part : List α} (left : ℕ) (l : List α), part.length ≤ size →
    coverFrom p size left (part ++ l) ≤ coverFrom p size 0 l + 1
  | [], left, l, _ => ((coverFrom_bounds l 0 left (Nat.zero_le _)).1).trans (Nat.le_succ _)
  | a :: part, left, l, h => by
    have hpart : part.length ≤ size - 1 := by
      rw [List.length_cons] at h
      omega
    rcases left with - | left
    · simp only [List.cons_append, coverFrom]
      split_ifs with ha
      · rw [coverFrom_eq_drop, List.drop_append, List.drop_of_length_le hpart, List.nil_append,
          ← coverFrom_eq_drop]
        exact Nat.succ_le_succ (coverFrom_bounds l 0 _ (Nat.zero_le _)).1
      · exact coverFrom_append_le 0 l (hpart.trans (Nat.sub_le _ _))
    · exact coverFrom_append_le left l (hpart.trans (Nat.sub_le _ _))

/-- However a list is cut into short parts, at least `cover` of them count. -/
theorem cover_le_marked (p : α → Bool) : ∀ {parts : List (List α)}, (∀ part ∈ parts, part.length ≤ size) →
    cover p size parts.flatten ≤ marked p parts
  | [], _ => by simp [cover, marked]
  | part :: parts, h => by
    have ih := cover_le_marked p fun q hq => h q (List.mem_cons_of_mem _ hq)
    rw [List.flatten_cons, cover, marked, List.countP_cons]
    cases hp : part.any p with
    | false =>
      rw [coverFrom_append_of_free 0 _ hp, Nat.zero_sub]
      simpa [cover, marked] using ih
    | true =>
      have : coverFrom p size 0 (part ++ parts.flatten) ≤ _ :=
        coverFrom_append_le 0 parts.flatten (h part List.mem_cons_self)
      simp only [if_true]
      exact this.trans (Nat.succ_le_succ ih)

/-- At most as many parts count as there are marked elements. -/
theorem marked_le_countP : ∀ parts : List (List α), marked p parts ≤ parts.flatten.countP p
  | [] => by simp [marked]
  | part :: parts => by
    have ih := marked_le_countP parts
    rw [marked] at ih ⊢
    rw [List.countP_cons, List.flatten_cons, List.countP_append]
    split_ifs with hp
    · have : 0 < part.countP p := List.countP_pos_iff.mpr (by simpa using hp)
      omega
    · omega

/-- Cut into single elements, as many parts count as there are marked elements. -/
theorem marked_singles (l : List α) : marked p (l.map fun a => [a]) = l.countP p := by
  rw [marked, List.countP_map]
  congr 1
  funext a
  simp

/-- Some cut into short parts has only `cover` parts that count. -/
theorem exists_parts (hsize : 1 ≤ size) : ∀ (n : ℕ) (l : List α), l.length ≤ n →
    ∃ parts : List (List α), parts.flatten = l ∧
      (∀ part ∈ parts, 1 ≤ part.length ∧ part.length ≤ size) ∧ marked p parts = cover p size l
  | _, [], _ => ⟨[], rfl, by simp, rfl⟩
  | 0, _ :: _, h => by simp at h
  | n + 1, a :: l, h => by
    have hlen : l.length ≤ n := by simpa using h
    cases ha : p a with
    | false =>
      obtain ⟨parts, hflat, hshort, hmark⟩ := exists_parts hsize n l hlen
      refine ⟨[a] :: parts, by rw [List.flatten_cons, hflat]; rfl, ?_, ?_⟩
      · rintro part (- | ⟨-, hpart⟩)
        · exact ⟨le_rfl, hsize⟩
        · exact hshort part hpart
      · rw [cover, coverFrom, ha]
        simpa [marked, ha, cover] using hmark
    | true =>
      -- the window that begins here is one part
      obtain ⟨parts, hflat, hshort, hmark⟩ :=
        exists_parts hsize n (l.drop (size - 1)) (by rw [List.length_drop]; omega)
      refine ⟨(a :: l.take (size - 1)) :: parts, ?_, ?_, ?_⟩
      · rw [List.flatten_cons, hflat, List.cons_append, List.take_append_drop]
      · rintro part (- | ⟨-, hpart⟩)
        · refine ⟨Nat.succ_le_succ (Nat.zero_le _), ?_⟩
          rw [List.length_cons, List.length_take]
          omega
        · exact hshort part hpart
      · rw [marked] at hmark ⊢
        rw [cover, coverFrom, ha, if_pos rfl, coverFrom_eq_drop, ← cover, ← hmark, List.countP_cons]
        simp [ha]

end NetProg
