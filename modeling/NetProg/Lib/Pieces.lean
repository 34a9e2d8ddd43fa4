import Mathlib.Data.List.Chain
import Mathlib.Tactic

/-! The pieces of a list: its nonempty stretches between separators.

    Cutting a list into parts and taking the pieces of each part gives the pieces of the whole as
    long as no cut goes through a piece, and more pieces than the whole has otherwise. -/

namespace NetProg

variable {α : Type*} {p : α → Bool}

/-- The nonempty stretches of elements that are not separators. -/
def pieces (p : α → Bool) (l : List α) : List (List α) :=
  (l.splitOnP p).filter fun w => !w.isEmpty

@[simp] theorem pieces_nil : pieces p [] = [] := by simp [pieces]

theorem pieces_append_sep (xs ys : List α) {a : α} (ha : p a = true) :
    pieces p (xs ++ a :: ys) = pieces p xs ++ pieces p ys := by
  rw [pieces, List.splitOnP_append_cons xs ys ha, List.filter_append]
  rfl

@[simp] theorem pieces_sep_cons (l : List α) {a : α} (ha : p a = true) :
    pieces p (a :: l) = pieces p l := by
  simpa using pieces_append_sep [] l ha

/-- A list without separators is one piece. -/
theorem pieces_of_free {l : List α} (hne : l ≠ []) (h : ∀ x ∈ l, p x = false) :
    pieces p l = [l] := by
  rw [pieces, List.splitOnP_eq_singleton h]
  simp [hne]

/-- A list of separators has no piece. -/
theorem pieces_of_seps : ∀ {l : List α}, (∀ x ∈ l, p x = true) → pieces p l = []
  | [], _ => pieces_nil
  | x :: l, h => by
    rw [pieces_sep_cons l (h x (by simp))]
    exact pieces_of_seps fun y hy => h y (List.mem_cons_of_mem _ hy)

/-- In front of a list that starts with a separator, or of nothing, an element is a piece. -/
theorem pieces_cons_closed {z : α} {l : List α} (hz : p z = false) (hl : ∀ y ∈ l.head?, p y = true) :
    pieces p (z :: l) = [z] :: pieces p l := by
  cases l with
  | nil => simpa using pieces_of_free (l := [z]) (by simp) (by simpa using hz)
  | cons y l =>
    have hy : p y = true := hl y rfl
    have hone : pieces p [z] = [[z]] := pieces_of_free (by simp) (by simpa using hz)
    have := pieces_append_sep [z] l hy
    rw [hone] at this
    rw [pieces_sep_cons l hy]
    exact this

/-- In front of a list that starts with another one, it belongs to the same piece. -/
theorem pieces_cons_open {y z : α} {l : List α} (hz : p z = false) (hy : p y = false) :
    ∃ w ws, pieces p (y :: l) = w :: ws ∧ pieces p (z :: y :: l) = (z :: w) :: ws := by
  obtain ⟨w, ws, hw⟩ := List.exists_cons_of_ne_nil (List.splitOnP_ne_nil p l)
  have h1 : (y :: l).splitOnP p = (y :: w) :: ws := by
    rw [List.splitOnP_cons_eq_if_modifyHead, hw, hy]
    simp
  have h2 : (z :: y :: l).splitOnP p = (z :: y :: w) :: ws := by
    rw [List.splitOnP_cons_eq_if_modifyHead, h1, hz]
    simp
  refine ⟨y :: w, ws.filter fun w => !w.isEmpty, ?_, ?_⟩
  · simp [pieces, h1]
  · simp [pieces, h2]

/-- The pieces hold exactly the elements that are not separators. -/
theorem sum_length_pieces : ∀ l : List α,
    ((pieces p l).map List.length).sum = l.countP fun x => !p x
  | [] => by simp
  | x :: l => by
    have ih := sum_length_pieces l
    cases hx : p x with
    | true => rw [pieces_sep_cons l hx, ih, List.countP_cons_of_neg (by simp [hx])]
    | false =>
      rw [List.countP_cons_of_pos (by simp [hx])]
      by_cases hl : ∀ y ∈ l.head?, p y = true
      · rw [pieces_cons_closed hx hl, List.map_cons, List.sum_cons, ih, List.length_singleton]
        omega
      · cases l with
        | nil => simp at hl
        | cons y l =>
          have hy : p y = false := by simpa using hl
          obtain ⟨w, ws, h1, h2⟩ := pieces_cons_open (l := l) hx hy
          rw [h1] at ih
          rw [h2, ← ih]
          simp only [List.map_cons, List.sum_cons, List.length_cons]
          omega

/-! ### Cutting a list -/

/-- A cut between `l` and `l'` that goes through a piece. -/
def Glued (p : α → Bool) (l l' : List α) : Prop :=
  (∃ x ∈ l.getLast?, p x = false) ∧ ∃ y ∈ l'.head?, p y = false

theorem pieces_append_of_not_glued {l l' : List α} (h : ¬ Glued p l l') :
    pieces p (l ++ l') = pieces p l ++ pieces p l' := by
  cases l' with
  | nil => simp
  | cons y ys =>
    cases hy : p y with
    | true => rw [pieces_append_sep l ys hy, pieces_sep_cons ys hy]
    | false =>
      rcases List.eq_nil_or_concat l with rfl | ⟨xs, x, rfl⟩
      · simp
      · have hx : p x = true := by
          cases hx : p x with
          | true => rfl
          | false => exact absurd ⟨⟨x, by simp, hx⟩, y, by simp, hy⟩ h
        have h1 := pieces_append_sep xs (y :: ys) hx
        have h2 := pieces_append_sep xs [] hx
        simp only [List.concat_eq_append, List.append_assoc, List.cons_append, List.nil_append,
          pieces_nil, List.append_nil] at h1 h2 ⊢
        rw [h1, h2]

theorem length_pieces_of_glued : ∀ {l l' : List α}, Glued p l l' →
    (pieces p (l ++ l')).length + 1 = (pieces p l).length + (pieces p l').length
  | [], _, h => by
    obtain ⟨⟨x, hx, -⟩, -⟩ := h
    simp at hx
  | [x], l', h => by
    obtain ⟨⟨x', hx', hpx⟩, y, hy, hpy⟩ := h
    obtain rfl : x = x' := by simpa using hx'
    cases l' with
    | nil => simp at hy
    | cons y' ys =>
      obtain rfl : y' = y := by simpa using hy
      obtain ⟨w, ws, h1, h2⟩ := pieces_cons_open (l := ys) hpx hpy
      have hone : pieces p [x] = [[x]] := pieces_of_free (by simp) (by simpa using hpx)
      rw [List.singleton_append, h1, h2, hone]
      simp only [List.length_cons, List.length_nil]
      omega
  | x :: x' :: l, l', h => by
    have htail : Glued p (x' :: l) l' := by
      obtain ⟨⟨a, ha, hpa⟩, hr⟩ := h
      exact ⟨⟨a, by simpa [List.getLast?_cons_cons] using ha, hpa⟩, hr⟩
    have ih := length_pieces_of_glued htail
    cases hx : p x with
    | true =>
      rw [List.cons_append, pieces_sep_cons _ hx, pieces_sep_cons _ hx]
      exact ih
    | false =>
      cases hx' : p x' with
      | true =>
        rw [List.cons_append, pieces_cons_closed hx (by simpa using hx'),
          pieces_cons_closed hx (by simpa using hx'), List.length_cons, List.length_cons]
        omega
      | false =>
        obtain ⟨w, ws, h1, h2⟩ := pieces_cons_open (l := l) hx hx'
        obtain ⟨u, us, h3, h4⟩ := pieces_cons_open (l := l ++ l') hx hx'
        rw [List.cons_append] at ih
        rw [List.cons_append, List.cons_append, h2, h4]
        rw [h1, h3] at ih
        exact ih

/-- The pieces of the parts are those of the whole if and only if no cut goes through a piece. -/
theorem pieces_flatten_iff : ∀ {ls : List (List α)}, (∀ l ∈ ls, l ≠ []) →
    (pieces p ls.flatten).length ≤ (ls.flatMap (pieces p)).length ∧
      (pieces p ls.flatten = ls.flatMap (pieces p) ↔ ls.IsChain fun l l' => ¬ Glued p l l')
  | [], _ => by simp
  | [l], _ => by simp
  | l :: l' :: ls, hne => by
    have hne' : ∀ x ∈ l' :: ls, x ≠ [] := fun x hx => hne x (List.mem_cons_of_mem _ hx)
    obtain ⟨hle, hiff⟩ := pieces_flatten_iff hne'
    obtain ⟨y, ys, hl'⟩ := List.exists_cons_of_ne_nil (hne' l' (by simp))
    have hglued : Glued p l (l' :: ls).flatten ↔ Glued p l l' := by
      simp [Glued, hl']
    rw [List.flatten_cons, List.flatMap_cons, List.isChain_cons_cons, ← hglued, ← hiff]
    by_cases hg : Glued p l (l' :: ls).flatten
    · have hlen := length_pieces_of_glued hg
      refine ⟨by rw [List.length_append]; omega, ?_⟩
      simp only [hg, not_true_eq_false, false_and, iff_false]
      intro heq
      rw [heq, List.length_append] at hlen
      omega
    · rw [pieces_append_of_not_glued hg]
      refine ⟨by rw [List.length_append, List.length_append]; omega, ?_⟩
      rw [List.append_cancel_left_eq]
      exact ⟨fun heq => ⟨hg, heq⟩, And.right⟩

end NetProg
