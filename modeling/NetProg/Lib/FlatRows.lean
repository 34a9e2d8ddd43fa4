import Mathlib.Tactic

/-! Rows of a two-dimensional array in its one block of cells.

    A row is written cell by cell and closed with an empty cell, and nobody checks its length. What is
    read from the beginning of its place, up to the first empty cell, is the row again as long as it is
    shorter than its place. A longer row goes on with whatever the next one has written there. -/

namespace NetProg

variable {α : Type*}

/-- A block of cells, and the numbers of the cells that were written. -/
structure Block (α : Type*) where
  cells : ℕ → Option α
  written : List ℕ

namespace Block

/-- Write one cell. -/
def put (b : Block α) (i : ℕ) (x : Option α) : Block α where
  cells := Function.update b.cells i x
  written := b.written ++ [i]

/-- Write some cells from number `i` on. -/
def putCells (b : Block α) : ℕ → List α → Block α
  | _, [] => b
  | i, x :: xs => (b.put i (some x)).putCells (i + 1) xs

/-- Write a row from cell `i` on, and the empty cell behind it. -/
def putRow (b : Block α) (i : ℕ) (row : List α) : Block α := (b.putCells i row).put (i + row.length) none

/-- Write rows in places of `w` cells, from place `r` on. -/
def putRows (w : ℕ) : ℕ → List (List α) → Block α → Block α
  | _, [], b => b
  | r, row :: rows, b => putRows w (r + 1) rows (b.putRow (w * r) row)

/-- From cell `i` up to the first empty one there is this list. -/
def Reads (b : Block α) : ℕ → List α → Prop
  | i, [] => b.cells i = none
  | i, x :: xs => b.cells i = some x ∧ b.Reads (i + 1) xs

/-- What is read of rows in places of `w` cells: a row that fills its place goes on with the next. -/
def continued (w : ℕ) : List (List α) → List α
  | [] => []
  | [row] => row
  | row :: rows => if row.length < w then row else row.take w ++ continued w rows

/-- Every row but the last is shorter than its place, or it is the next row that it goes on with. -/
def Fits (w : ℕ) (rows : List (List α)) : Prop :=
  ∀ (k : ℕ) row next, rows[k]? = some row → rows[k + 1]? = some next → row.length < w ∨ row.drop w = next

/-! ### Reading -/

/-- At most one list is read from a cell. -/
theorem Reads.unique {b : Block α} : ∀ {i : ℕ} {xs ys : List α}, b.Reads i xs → b.Reads i ys → xs = ys
  | _, [], [], _, _ => rfl
  | _, [], y :: ys, h, h' => by
    have hsome := h'.1
    rw [show b.cells _ = none from h] at hsome
    cases hsome
  | _, x :: xs, [], h, h' => by
    have hsome := h.1
    rw [show b.cells _ = none from h'] at hsome
    cases hsome
  | i, x :: xs, y :: ys, h, h' => by
    obtain rfl : x = y := Option.some.inj (h.1.symm.trans h'.1)
    rw [Reads.unique h.2 h'.2]

/-- Reading looks at the cells of the list and the empty one behind it. -/
theorem Reads.congr {b b' : Block α} : ∀ {i : ℕ} {xs : List α}, b.Reads i xs →
    (∀ x, i ≤ x → x ≤ i + xs.length → b'.cells x = b.cells x) → b'.Reads i xs
  | i, [], h, heq => (heq i le_rfl (Nat.le_add_right _ _)).trans h
  | i, x :: xs, h, heq => by
    refine ⟨(heq i le_rfl (Nat.le_add_right _ _)).trans h.1, Reads.congr h.2 fun y h1 h2 => ?_⟩
    rw [List.length_cons] at heq
    exact heq y (by omega) (by omega)

theorem Reads.append {b : Block α} : ∀ {xs ys : List α} {i : ℕ},
    (∀ k, k < xs.length → b.cells (i + k) = xs[k]?) → b.Reads (i + xs.length) ys → b.Reads i (xs ++ ys)
  | [], _, _, _, h => h
  | x :: xs, ys, i, hcells, h => by
    refine ⟨hcells 0 (by simp), Reads.append (fun k hk => ?_) ?_⟩
    · have hk' := hcells (k + 1) (by simpa using hk)
      rwa [List.getElem?_cons_succ, ← Nat.add_assoc, Nat.add_right_comm] at hk'
    · rwa [List.length_cons, ← Nat.add_assoc, Nat.add_right_comm] at h

/-! ### Writing -/

theorem cells_put_ne (b : Block α) {i x : ℕ} (y : Option α) (h : x ≠ i) : (b.put i y).cells x = b.cells x :=
  Function.update_of_ne h ..

theorem cells_put_self (b : Block α) (i : ℕ) (y : Option α) : (b.put i y).cells i = y :=
  Function.update_self ..

theorem cells_putCells_of_lt : ∀ {xs : List α} {b : Block α} {i x : ℕ}, x < i →
    (b.putCells i xs).cells x = b.cells x
  | [], _, _, _, _ => rfl
  | y :: ys, b, i, x, h => by
    rw [putCells, cells_putCells_of_lt (Nat.lt_succ_of_lt h), cells_put_ne b _ h.ne]

theorem cells_putCells : ∀ {xs : List α} {b : Block α} {i k : ℕ}, k < xs.length →
    (b.putCells i xs).cells (i + k) = xs[k]?
  | x :: xs, b, i, 0, _ => by
    have hlt : i < i + 1 := Nat.lt_succ_self i
    rw [Nat.add_zero, putCells, cells_putCells_of_lt hlt, cells_put_self]
    rfl
  | x :: xs, b, i, k + 1, h => by
    rw [putCells, List.getElem?_cons_succ, ← cells_putCells (b := b.put i (some x)) (i := i + 1)
      (Nat.lt_of_succ_lt_succ h), Nat.add_right_comm, Nat.add_assoc]

theorem putCells_concat : ∀ (xs : List α) (b : Block α) (i : ℕ) (x : α),
    b.putCells i (xs ++ [x]) = (b.putCells i xs).put (i + xs.length) (some x)
  | [], _, _, _ => rfl
  | y :: ys, b, i, x => by
    rw [List.cons_append, putCells, putCells, putCells_concat ys, List.length_cons, Nat.add_right_comm,
      Nat.add_assoc]

theorem cells_putRow_of_lt {b : Block α} {i x : ℕ} {row : List α} (h : x < i) :
    (b.putRow i row).cells x = b.cells x := by
  rw [putRow, cells_put_ne _ _ (by omega), cells_putCells_of_lt h]

theorem cells_putRow {b : Block α} {i k : ℕ} {row : List α} (h : k < row.length) :
    (b.putRow i row).cells (i + k) = row[k]? := by
  rw [putRow, cells_put_ne _ _ (by omega), cells_putCells h]

/-- A row that was just written is read back. -/
theorem reads_putRow (b : Block α) (i : ℕ) (row : List α) : (b.putRow i row).Reads i row := by
  have h : (b.putRow i row).Reads i (row ++ []) := by
    refine Reads.append (fun k hk => cells_putRow hk) ?_
    exact cells_put_self ..
  rwa [List.append_nil] at h

/-- Rows leave the places before them. -/
theorem cells_putRows_of_lt {w : ℕ} : ∀ {rows : List (List α)} {r x : ℕ} {b : Block α}, x < w * r →
    (putRows w r rows b).cells x = b.cells x
  | [], _, _, _, _ => rfl
  | row :: rows, r, x, b, h => by
    have hnext : x < w * (r + 1) := h.trans_le (Nat.mul_le_mul_left w (Nat.le_succ r))
    rw [putRows, cells_putRows_of_lt hnext, cells_putRow_of_lt h]

theorem putRows_append (w : ℕ) : ∀ (pre rows : List (List α)) (r : ℕ) (b : Block α),
    putRows w r (pre ++ rows) b = putRows w (r + pre.length) rows (putRows w r pre b)
  | [], _, _, _ => rfl
  | row :: pre, rows, r, b => by
    rw [List.cons_append, putRows, putRows, putRows_append w pre, List.length_cons]
    congr 1
    omega

/-- What is read from the place of the first row. -/
theorem reads_continued {w : ℕ} : ∀ {rows : List (List α)} {r : ℕ} {b : Block α}, rows ≠ [] →
    (putRows w r rows b).Reads (w * r) (continued w rows)
  | [], _, _, h => absurd rfl h
  | [row], r, b, _ => reads_putRow b (w * r) row
  | row :: next :: rows, r, b, _ => by
    have hplace : w * (r + 1) = w * r + w := Nat.mul_succ w r
    have hold : ∀ x, x < w * r + w →
        (putRows w r (row :: next :: rows) b).cells x = (b.putRow (w * r) row).cells x := by
      intro x hx
      rw [putRows]
      exact cells_putRows_of_lt (hplace ▸ hx)
    rw [continued]
    split
    · rename_i hshort
      exact (reads_putRow b (w * r) row).congr fun x _ hx => hold x (by omega)
    · rename_i hlong
      have hlen : (row.take w).length = w := List.length_take_of_le (by omega)
      refine Reads.append (fun k hk => ?_) ?_
      · rw [hlen] at hk
        rw [hold _ (by omega), cells_putRow (by omega), List.getElem?_take_of_lt hk]
      · rw [hlen, ← hplace, putRows]
        exact reads_continued (List.cons_ne_nil next rows)
    · simp

/-- What is read from the place of any row. -/
theorem reads_row (w : ℕ) {rows : List (List α)} (b : Block α) {k : ℕ} (h : k < rows.length) :
    (putRows w 0 rows b).Reads (w * k) (continued w (rows.drop k)) := by
  have hsplit : putRows w 0 rows b = putRows w k (rows.drop k) (putRows w 0 (rows.take k) b) := by
    have happ := putRows_append w (rows.take k) (rows.drop k) 0 b
    rwa [List.take_append_drop, List.length_take_of_le h.le, Nat.zero_add] at happ
  rw [hsplit]
  refine reads_continued fun hnil => ?_
  rw [List.drop_eq_nil_iff] at hnil
  omega

/-! ### Which rows are read back -/

theorem continued_eq_iff {w : ℕ} : ∀ {rows : List (List α)},
    (∀ (k : ℕ) row, rows[k]? = some row → continued w (rows.drop k) = row) ↔ Fits w rows
  | [] => by simp [Fits]
  | [row] => by
    refine iff_of_true (fun k x hx => ?_) fun k x y hx hy => ?_
    · cases k with
      | zero => simpa [continued] using hx
      | succ k => simp at hx
    · simp at hy
  | row :: next :: rows => by
    have ih : (∀ (k : ℕ) x, (next :: rows)[k]? = some x → continued w ((next :: rows).drop k) = x) ↔
        Fits w (next :: rows) := continued_eq_iff
    have hstep : continued w (next :: rows) = next →
        (continued w (row :: next :: rows) = row ↔ row.length < w ∨ row.drop w = next) := by
      intro hnext
      rw [continued]
      · split
        · rename_i hshort
          simp [hshort]
        · rename_i hlong
          rw [hnext, or_iff_right hlong]
          constructor
          · intro h
            have happ := h.trans (List.take_append_drop w row).symm
            exact (List.append_cancel_left happ).symm
          · rintro rfl
            exact List.take_append_drop w row
      · simp
    constructor
    · intro h
      have htail := ih.mp fun k x hx => h (k + 1) x (by simpa using hx)
      intro k x y hx hy
      cases k with
      | zero =>
        obtain rfl : row = x := by simpa using hx
        obtain rfl : next = y := by simpa using hy
        exact (hstep (h 1 next rfl)).mp (h 0 row rfl)
      | succ k => exact htail k x y (by simpa using hx) (by simpa using hy)
    · intro h
      have htail := ih.mpr fun k x y hx hy => h (k + 1) x y (by simpa using hx) (by simpa using hy)
      intro k x hx
      cases k with
      | zero =>
        obtain rfl : row = x := by simpa using hx
        exact (hstep (htail 0 next rfl)).mpr (h 0 row next rfl rfl)
      | succ k => exact htail k x (by simpa using hx)

/-- Every row is read back from its place exactly if the rows fit. -/
theorem rows_read_iff (w : ℕ) (rows : List (List α)) (b : Block α) :
    (∀ (k : ℕ) row, rows[k]? = some row → (putRows w 0 rows b).Reads (w * k) row) ↔ Fits w rows := by
  rw [← continued_eq_iff]
  refine forall_congr' fun k => forall_congr' fun row => forall_congr' fun hrow => ?_
  have hread := reads_row w b (List.getElem?_eq_some_iff.mp hrow).1
  exact ⟨fun h => hread.unique h, fun h => h ▸ hread⟩

/-! ### Which cells are written -/

theorem mem_written_putCells : ∀ (xs : List α) {b : Block α} {i x : ℕ},
    x ∈ (b.putCells i xs).written → x ∈ b.written ∨ i ≤ x ∧ x < i + xs.length
  | [], _, _, _, h => Or.inl h
  | y :: ys, b, i, x, h => by
    rw [putCells] at h
    rw [List.length_cons]
    rcases mem_written_putCells ys h with h | ⟨h1, h2⟩
    · rcases List.mem_append.mp h with h | h
      · exact Or.inl h
      · rw [List.mem_singleton] at h
        exact Or.inr ⟨by omega, by omega⟩
    · exact Or.inr ⟨by omega, by omega⟩

/-- A row writes its cells and the one behind them. -/
theorem mem_written_putRow {b : Block α} {i x : ℕ} {row : List α} (h : x ∈ (b.putRow i row).written) :
    x ∈ b.written ∨ i ≤ x ∧ x ≤ i + row.length := by
  rcases List.mem_append.mp h with h | h
  · exact (mem_written_putCells row h).imp_right fun ⟨h1, h2⟩ => ⟨h1, h2.le⟩
  · rw [List.mem_singleton] at h
    exact Or.inr ⟨by omega, by omega⟩

theorem mem_written_putRows {w : ℕ} : ∀ (rows : List (List α)) {r x : ℕ} {b : Block α},
    x ∈ (putRows w r rows b).written →
    x ∈ b.written ∨ ∃ (k : ℕ) (row : List α), rows[k]? = some row ∧ x ≤ w * (r + k) + row.length
  | [], _, _, _, h => Or.inl h
  | row :: rows, r, x, b, h => by
    rw [putRows] at h
    rcases mem_written_putRows rows h with h | ⟨k, y, hy, hx⟩
    · exact (mem_written_putRow h).imp_right fun ⟨_, h2⟩ => ⟨0, row, rfl, h2⟩
    · exact Or.inr ⟨k + 1, y, by simpa using hy, by rwa [Nat.add_assoc, Nat.add_comm 1 k] at hx⟩

end Block

end NetProg
