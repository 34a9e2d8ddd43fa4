import NetProg.Lib.FdTable
import Mathlib.Tactic

/-! The part of the operating system the programs rely on: one descriptor table for each process,
    and anonymous pipes.

    Pipes are numbered in the order they are made, so a pipe keeps its identity when descriptor
    numbers are used again. `pipe()` never fails here (a table has no size limit). Every `close` is
    recorded together with whether the descriptor was open, so that closing a number twice shows. -/

namespace NetProg

/-- What an open descriptor stands for. -/
inductive Desc where
  /-- descriptor `n` (0, 1 or 2) as the program inherited it -/
  | own (n : ℕ)
  | pipeR (id : ℕ)
  | pipeW (id : ℕ)
  | file (name : List Char)
  /-- the listening socket -/
  | listen
  /-- the socket of the `n`-th accepted connection -/
  | sock (n : ℕ)
  deriving DecidableEq

/-- A process as the kernel sees it: its descriptors, the number of pipes made so far, and the
    `close` calls it has made. -/
structure Kernel where
  fds : FdTable Desc
  pipes : ℕ
  closes : List (ℕ × Bool)
  deriving DecidableEq

namespace Kernel

/-- What a descriptor stands for. -/
def get (k : Kernel) (fd : ℕ) : Option Desc := k.fds.get fd

/-- `close(fd)`. -/
def close (k : Kernel) (fd : ℕ) : Kernel :=
  { k with fds := k.fds.close fd, closes := k.closes ++ [(fd, (k.fds.get fd).isSome)] }

/-- `close` on each descriptor of a list. -/
def closeAll (k : Kernel) (l : List ℕ) : Kernel := l.foldl close k

/-- `open`, `socket`, `accept` or `dup`: the object gets the lowest free descriptor. -/
def alloc (k : Kernel) (d : Desc) : Kernel × ℕ :=
  ({ k with fds := k.fds.alloc d }, k.fds.lowest)

/-- `dup2(src, dst)`. -/
def dup2 (k : Kernel) (src dst : ℕ) : Kernel := { k with fds := k.fds.dup2 src dst }

/-- The first descriptor `pipe` returns, the read end. -/
def pipeFd0 (k : Kernel) : ℕ := k.fds.lowest

/-- The second descriptor `pipe` returns, the write end. -/
def pipeFd1 (k : Kernel) : ℕ := (k.fds.alloc (.pipeR k.pipes)).lowest

/-- `pipe(p)`; `p` is then `pipeFd0`, `pipeFd1`. -/
def pipe (k : Kernel) : Kernel :=
  { k with fds := (k.fds.alloc (.pipeR k.pipes)).alloc (.pipeW k.pipes), pipes := k.pipes + 1 }

@[simp] theorem get_close (k : Kernel) (fd x : ℕ) :
    (k.close fd).get x = if x = fd then none else k.get x := FdTable.get_close ..

@[simp] theorem pipes_close (k : Kernel) (fd : ℕ) : (k.close fd).pipes = k.pipes := rfl

theorem closes_close (k : Kernel) (fd : ℕ) :
    (k.close fd).closes = k.closes ++ [(fd, (k.get fd).isSome)] := rfl

@[simp] theorem closeAll_nil (k : Kernel) : k.closeAll [] = k := rfl

@[simp] theorem closeAll_cons (k : Kernel) (fd : ℕ) (l : List ℕ) :
    k.closeAll (fd :: l) = (k.close fd).closeAll l := rfl

theorem get_closeAll : ∀ (l : List ℕ) (k : Kernel) (x : ℕ),
    (k.closeAll l).get x = if x ∈ l then none else k.get x
  | [], k, x => by simp
  | fd :: l, k, x => by
    rw [closeAll_cons, get_closeAll l]
    by_cases hx : x = fd <;> by_cases hl : x ∈ l <;> simp [hx, hl]

theorem closeAll_append (k : Kernel) (l m : List ℕ) :
    k.closeAll (l ++ m) = (k.closeAll l).closeAll m := by
  simp [closeAll, List.foldl_append]

/-- Closing a list of distinct open descriptors records no failure. -/
theorem closes_closeAll : ∀ (l : List ℕ) (k : Kernel), l.Nodup → (∀ fd ∈ l, k.get fd ≠ none) →
    (k.closeAll l).closes = k.closes ++ l.map (·, true)
  | [], k, _, _ => by simp
  | fd :: l, k, hn, ho => by
    obtain ⟨hfd, hn⟩ := List.nodup_cons.mp hn
    have hopen : (k.get fd).isSome = true := Option.isSome_iff_ne_none.mpr (ho fd (by simp))
    have hl : ∀ x ∈ l, (k.close fd).get x ≠ none := by
      intro x hx
      have hne : x ≠ fd := by rintro rfl; exact hfd hx
      simpa [hne] using ho x (List.mem_cons_of_mem _ hx)
    rw [closeAll_cons, closes_closeAll l _ hn hl, closes_close, hopen]
    simp

@[simp] theorem pipes_closeAll : ∀ (l : List ℕ) (k : Kernel), (k.closeAll l).pipes = k.pipes
  | [], _ => rfl
  | fd :: l, k => by rw [closeAll_cons, pipes_closeAll l, pipes_close]

theorem get_alloc (k : Kernel) (d : Desc) (x : ℕ) :
    (k.alloc d).1.get x = if x = (k.alloc d).2 then some d else k.get x := FdTable.get_alloc ..

@[simp] theorem pipes_alloc (k : Kernel) (d : Desc) : (k.alloc d).1.pipes = k.pipes := rfl

theorem get_alloc_fd (k : Kernel) (d : Desc) : k.get (k.alloc d).2 = none := FdTable.get_lowest _

@[simp] theorem pipes_dup2 (k : Kernel) (src dst : ℕ) : (k.dup2 src dst).pipes = k.pipes := rfl

theorem get_dup2_of_ne (k : Kernel) {src dst x : ℕ} (h : x ≠ dst) :
    (k.dup2 src dst).get x = k.get x := FdTable.get_dup2_of_ne _ h

theorem get_pipeFd0 (k : Kernel) : k.get k.pipeFd0 = none := FdTable.get_lowest _

theorem pipeFd1_ne_pipeFd0 (k : Kernel) : k.pipeFd1 ≠ k.pipeFd0 := by
  intro h
  have := FdTable.get_lowest (k.fds.alloc (.pipeR k.pipes))
  rw [show (k.fds.alloc (.pipeR k.pipes)).lowest = k.fds.lowest from h] at this
  simp at this

theorem get_pipeFd1 (k : Kernel) : k.get k.pipeFd1 = none := by
  have h := FdTable.get_lowest (k.fds.alloc (.pipeR k.pipes))
  rw [FdTable.get_alloc] at h
  split_ifs at h
  exact h

/-- After `pipe` the two new descriptors are its ends and every other one is as before. -/
theorem get_pipe (k : Kernel) (x : ℕ) :
    k.pipe.get x = if x = k.pipeFd0 then some (.pipeR k.pipes)
      else if x = k.pipeFd1 then some (.pipeW k.pipes) else k.get x := by
  have hne := k.pipeFd1_ne_pipeFd0
  show ((k.fds.alloc (.pipeR k.pipes)).alloc (.pipeW k.pipes)).get x = _
  rw [FdTable.get_alloc, FdTable.get_alloc]
  show (if x = k.pipeFd1 then _ else if x = k.pipeFd0 then _ else k.get x) = _
  by_cases h1 : x = k.pipeFd1
  · subst h1; simp [hne]
  · simp [h1]

@[simp] theorem pipes_pipe (k : Kernel) : k.pipe.pipes = k.pipes + 1 := rfl

@[simp] theorem closes_pipe (k : Kernel) : k.pipe.closes = k.closes := rfl

theorem ne_pipeFd0 {k : Kernel} {x : ℕ} (h : k.get x ≠ none) : x ≠ k.pipeFd0 := by
  rintro rfl
  exact h k.get_pipeFd0

theorem ne_pipeFd1 {k : Kernel} {x : ℕ} (h : k.get x ≠ none) : x ≠ k.pipeFd1 := by
  rintro rfl
  exact h k.get_pipeFd1

/-- `pipe` leaves every open descriptor alone. -/
theorem get_pipe_of_open {k : Kernel} {x : ℕ} (h : k.get x ≠ none) : k.pipe.get x = k.get x := by
  simp [get_pipe, ne_pipeFd0 h, ne_pipeFd1 h]

theorem get_alloc_of_open {k : Kernel} {x : ℕ} (d : Desc) (h : k.get x ≠ none) :
    (k.alloc d).1.get x = k.get x := FdTable.get_alloc_of_open d h

end Kernel
end NetProg
