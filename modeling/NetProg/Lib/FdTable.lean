import Mathlib.Data.List.Basic

/-! Descriptor tables.

    A process sees the objects it has open through small numbers. A table maps each number to the
    object it stands for; a new object always gets the lowest number that is free, `dup2` makes one
    number stand for what another one stands for, and `close` frees a number. Everything is proved
    through `get`: two tables with the same `get` are the same to every operation here. -/

namespace NetProg

/-- A descriptor table: slot `fd` is the open object, and a number with no object is free. -/
structure FdTable (α : Type*) where
  slots : List (Option α)
  deriving DecidableEq

namespace FdTable
variable {α : Type*}

/-- Write one slot, extending the list with free slots where it is too short. -/
def putAux : List (Option α) → ℕ → Option α → List (Option α)
  | [], 0, o => [o]
  | [], n + 1, o => none :: putAux [] n o
  | _ :: l, 0, o => o :: l
  | x :: l, n + 1, o => x :: putAux l n o

/-- The lowest position without an object. -/
def lowestAux : List (Option α) → ℕ
  | [] => 0
  | none :: _ => 0
  | some _ :: l => lowestAux l + 1

/-- The object a number stands for. -/
def get (t : FdTable α) (fd : ℕ) : Option α := t.slots.getD fd none

/-- Write the slot of one number. -/
def put (t : FdTable α) (fd : ℕ) (o : Option α) : FdTable α := ⟨putAux t.slots fd o⟩

/-- The lowest free number. -/
def lowest (t : FdTable α) : ℕ := lowestAux t.slots

/-- Give `a` the lowest free number. -/
def alloc (t : FdTable α) (a : α) : FdTable α := t.put t.lowest (some a)

/-- Free a number. -/
def close (t : FdTable α) (fd : ℕ) : FdTable α := t.put fd none

/-- Make `dst` stand for what `src` stands for; nothing happens when `src` is free. -/
def dup2 (t : FdTable α) (src dst : ℕ) : FdTable α :=
  match t.get src with
  | none => t
  | some a => t.put dst (some a)

theorem getD_putAux : ∀ (l : List (Option α)) (fd x : ℕ) (o : Option α),
    (putAux l fd o).getD x none = if x = fd then o else l.getD x none
  | [], 0, x, o => by cases x <;> simp [putAux]
  | [], n + 1, 0, o => by simp [putAux]
  | [], n + 1, x + 1, o => by
    have ih := getD_putAux ([] : List (Option α)) n x o
    simpa [putAux] using ih
  | y :: l, 0, x, o => by cases x <;> simp [putAux]
  | y :: l, n + 1, 0, o => by simp [putAux]
  | y :: l, n + 1, x + 1, o => by
    have ih := getD_putAux l n x o
    simpa [putAux] using ih

theorem getD_lowestAux : ∀ l : List (Option α), l.getD (lowestAux l) none = none
  | [] => rfl
  | none :: _ => rfl
  | some _ :: l => by simpa [lowestAux] using getD_lowestAux l

@[simp] theorem get_put (t : FdTable α) (fd x : ℕ) (o : Option α) :
    (t.put fd o).get x = if x = fd then o else t.get x := getD_putAux ..

@[simp] theorem get_lowest (t : FdTable α) : t.get t.lowest = none := getD_lowestAux _

theorem get_alloc (t : FdTable α) (a : α) (x : ℕ) :
    (t.alloc a).get x = if x = t.lowest then some a else t.get x := get_put ..

@[simp] theorem get_alloc_lowest (t : FdTable α) (a : α) : (t.alloc a).get t.lowest = some a := by
  simp [get_alloc]

@[simp] theorem get_close (t : FdTable α) (fd x : ℕ) :
    (t.close fd).get x = if x = fd then none else t.get x := get_put ..

theorem get_dup2 (t : FdTable α) (src dst x : ℕ) :
    (t.dup2 src dst).get x = if x = dst ∧ t.get src ≠ none then t.get src else t.get x := by
  unfold dup2
  cases h : t.get src with
  | none => simp
  | some a => simp

theorem get_dup2_of_ne (t : FdTable α) {src dst x : ℕ} (h : x ≠ dst) :
    (t.dup2 src dst).get x = t.get x := by
  simp [get_dup2, h]

theorem get_dup2_dst (t : FdTable α) {src : ℕ} (dst : ℕ) {a : α} (h : t.get src = some a) :
    (t.dup2 src dst).get dst = some a := by
  simp [get_dup2, h]

/-- An open number is never the one handed out next. -/
theorem ne_lowest {t : FdTable α} {x : ℕ} (h : t.get x ≠ none) : x ≠ t.lowest := by
  rintro rfl
  exact h t.get_lowest

/-- Handing out a number leaves every open number alone. -/
theorem get_alloc_of_open {t : FdTable α} {x : ℕ} (a : α) (h : t.get x ≠ none) :
    (t.alloc a).get x = t.get x := by
  simp [get_alloc, ne_lowest h]

end FdTable
end NetProg
