import Mathlib.Data.List.Basic
import Mathlib.Tactic
import NetProg.Lib.Run

/-! Processes that write into pipes of finite capacity.

    A process has an input and some outputs with the number of bytes it still has to write to each.
    A write into a pipe needs room, a process ends when it has written everything or when it has to
    write into a pipe nobody can read, and `held` tells which read ends are kept open by somebody
    outside of the pool. The load of a pipe, the bytes in it and those still to come, never grows;
    so a pipe whose load is at most its capacity blocks nobody from then on. -/

namespace NetProg

variable {ι : Type*}

/-- A running process: the pipe it reads, the read ends it holds, and for every output the pipe it
    goes to, if it is a pipe, and the bytes still to be written. -/
structure Proc (ι : Type*) where
  source : Option ι
  readEnds : List ι
  outputs : List (Option ι × ℕ)
  deriving DecidableEq

/-- The running processes and the number of bytes in every pipe. -/
structure Pool (ι : Type*) where
  procs : List (Proc ι)
  fill : ι → ℕ

/-- What a process of the pool does next, by its place in the list. -/
inductive PoolEvent where
  | write (i j n : ℕ)
  | read (i n : ℕ)
  | exit (i : ℕ)
  deriving DecidableEq

/-- Everything is written. -/
def Proc.done (c : Proc ι) : Bool := c.outputs.all fun o => o.2 == 0

variable [DecidableEq ι]

/-- Somebody can read the pipe. -/
def Pool.readable (p : Pool ι) (held : ι → Bool) (id : ι) : Bool :=
  held id || p.procs.any fun c => id ∈ c.readEnds

/-- The process has to write into a pipe that nobody can read. -/
def Pool.broken (p : Pool ι) (held : ι → Bool) (c : Proc ι) : Bool :=
  c.outputs.any fun o => match o.1 with
    | some id => o.2 != 0 && !p.readable held id
    | none => false

/-- One step of one process. -/
def Pool.step (cap : ℕ) (held : ι → Bool) (p : Pool ι) : PoolEvent → Option (Pool ι)
  | .write i j n =>
    match p.procs[i]? with
    | none => none
    | some c =>
      match c.outputs[j]? with
      | none => none
      | some (dest, left) =>
        let procs := p.procs.set i { c with outputs := c.outputs.set j (dest, left - n) }
        if 1 ≤ n ∧ n ≤ left then
          match dest with
          | none => some { p with procs := procs }
          | some id =>
            if p.fill id + n ≤ cap then
              some ⟨procs, Function.update p.fill id (p.fill id + n)⟩
            else none
        else none
  | .read i n =>
    match p.procs[i]? with
    | none => none
    | some c =>
      match c.source with
      | none => none
      | some id =>
        if n ≤ p.fill id then some { p with fill := Function.update p.fill id (p.fill id - n) }
        else none
  | .exit i =>
    match p.procs[i]? with
    | none => none
    | some c => if c.done || p.broken held c then some { p with procs := p.procs.eraseIdx i }
      else none

/-- The bytes a process still has to write into a pipe. -/
def Proc.owes (c : Proc ι) (id : ι) : ℕ :=
  (c.outputs.map fun o => if o.1 = some id then o.2 else 0).sum

/-- The bytes in a pipe and those the running processes still have to write into it. -/
def Pool.load (p : Pool ι) (id : ι) : ℕ := p.fill id + (p.procs.map (·.owes id)).sum

/-- A process that has something to write into a pipe that is full. -/
def Pool.Blocked (cap : ℕ) (p : Pool ι) (c : Proc ι) (id : ι) : Prop :=
  (∃ n, (some id, n) ∈ c.outputs ∧ 0 < n) ∧ cap ≤ p.fill id

/-! ### The load never grows -/

theorem split_of_getElem? {α : Type*} : ∀ {l : List α} {i : ℕ} {a : α}, l[i]? = some a →
    ∃ l₁ l₂, l = l₁ ++ a :: l₂ ∧ (∀ b, l.set i b = l₁ ++ b :: l₂) ∧ l.eraseIdx i = l₁ ++ l₂
  | [], i, a, h => by simp at h
  | x :: l, 0, a, h => by
    obtain rfl : x = a := by simpa using h
    exact ⟨[], l, rfl, fun _ => rfl, rfl⟩
  | x :: l, i + 1, a, h => by
    obtain ⟨l₁, l₂, rfl, hset, herase⟩ := split_of_getElem? (show l[i]? = some a by simpa using h)
    refine ⟨x :: l₁, l₂, rfl, fun b => ?_, ?_⟩
    · simp [hset b]
    · simp [herase]

theorem Proc.owes_set {c : Proc ι} {j left : ℕ} {dest : Option ι}
    (h : c.outputs[j]? = some (dest, left)) (n : ℕ) (hn : n ≤ left) (id : ι) :
    c.owes id = Proc.owes { c with outputs := c.outputs.set j (dest, left - n) } id +
      if dest = some id then n else 0 := by
  obtain ⟨l₁, l₂, hl, hset, -⟩ := split_of_getElem? h
  simp only [Proc.owes, hset]
  simp only [hl, List.map_append, List.map_cons, List.sum_append, List.sum_cons]
  split_ifs <;> omega

theorem Pool.load_step {cap : ℕ} {held : ι → Bool} {p p' : Pool ι} {e : PoolEvent}
    (h : p.step cap held e = some p') (id : ι) : p'.load id ≤ p.load id := by
  cases e with
  | write i j n =>
    cases hc : p.procs[i]? with
    | none => simp [step, hc] at h
    | some c =>
      cases ho : c.outputs[j]? with
      | none => simp [step, hc, ho] at h
      | some o =>
        obtain ⟨dest, left⟩ := o
        obtain ⟨l₁, l₂, hl, hset, -⟩ := split_of_getElem? hc
        simp only [step, hc, ho, Option.ite_none_right_eq_some] at h
        obtain ⟨⟨-, hn⟩, h⟩ := h
        have howes := Proc.owes_set ho n hn id
        cases dest with
        | none =>
          simp only [Option.some.injEq] at h
          subst h
          simp only [load, hset]
          simp only [hl, List.map_append, List.map_cons, List.sum_append,
            List.sum_cons, howes]
          simp
        | some id' =>
          simp only [Option.ite_none_right_eq_some, Option.some.injEq] at h
          obtain ⟨-, rfl⟩ := h
          simp only [load, hset]
          simp only [hl, List.map_append, List.map_cons, List.sum_append,
            List.sum_cons, howes, Option.some.injEq]
          by_cases hid : id' = id
          · subst hid
            simp only [Function.update_self, if_true]
            omega
          · have hne : id ≠ id' := fun heq => hid heq.symm
            simp only [Function.update_of_ne hne, hid, if_false]
            omega
  | read i n =>
    cases hc : p.procs[i]? with
    | none => simp [step, hc] at h
    | some c =>
      cases hs : c.source with
      | none => simp [step, hc, hs] at h
      | some id' =>
        simp only [step, hc, hs, Option.ite_none_right_eq_some, Option.some.injEq] at h
        obtain ⟨-, rfl⟩ := h
        by_cases hid : id = id'
        · subst hid
          simp only [load, Function.update_self]
          omega
        · simp [load, Function.update_of_ne hid]
  | exit i =>
    cases hc : p.procs[i]? with
    | none => simp [step, hc] at h
    | some c =>
      obtain ⟨l₁, l₂, hl, -, herase⟩ := split_of_getElem? hc
      simp only [step, hc, Option.ite_none_right_eq_some, Option.some.injEq] at h
      obtain ⟨-, rfl⟩ := h
      simp only [load, herase]
      simp only [hl, List.map_append, List.map_cons, List.sum_append, List.sum_cons]
      omega

/-- A pipe that can take all that is still to come blocks nobody. -/
theorem Pool.not_blocked {cap : ℕ} {p : Pool ι} {c : Proc ι} {id : ι} (hc : c ∈ p.procs)
    (h : p.load id ≤ cap) : ¬ p.Blocked cap c id := by
  rintro ⟨⟨n, hn, hpos⟩, hfull⟩
  have h1 : n ≤ c.owes id := by
    refine List.le_sum_of_mem (List.mem_map.mpr ⟨(some id, n), hn, ?_⟩)
    simp
  have h2 : c.owes id ≤ (p.procs.map (·.owes id)).sum :=
    List.le_sum_of_mem (List.mem_map.mpr ⟨c, hc, rfl⟩)
  simp only [load] at h
  omega

/-! ### A pipe that cannot -/

/-- No pipe ever holds more than its capacity. -/
theorem Pool.fill_step {cap : ℕ} {held : ι → Bool} {p p' : Pool ι} {e : PoolEvent}
    (h : p.step cap held e = some p') (hfill : ∀ id, p.fill id ≤ cap) (id : ι) : p'.fill id ≤ cap := by
  cases e with
  | write i j n =>
    cases hc : p.procs[i]? with
    | none => simp [step, hc] at h
    | some c =>
      cases ho : c.outputs[j]? with
      | none => simp [step, hc, ho] at h
      | some o =>
        obtain ⟨dest, left⟩ := o
        simp only [step, hc, ho, Option.ite_none_right_eq_some] at h
        obtain ⟨-, h⟩ := h
        cases dest with
        | none =>
          simp only [Option.some.injEq] at h
          subst h
          exact hfill id
        | some id' =>
          simp only [Option.ite_none_right_eq_some, Option.some.injEq] at h
          obtain ⟨hroom, rfl⟩ := h
          by_cases hid : id = id'
          · subst hid
            simpa using hroom
          · simpa [Function.update_of_ne hid] using hfill id
  | read i n =>
    cases hc : p.procs[i]? with
    | none => simp [step, hc] at h
    | some c =>
      cases hs : c.source with
      | none => simp [step, hc, hs] at h
      | some id' =>
        simp only [step, hc, hs, Option.ite_none_right_eq_some, Option.some.injEq] at h
        obtain ⟨-, rfl⟩ := h
        have hle := hfill id
        by_cases hid : id = id'
        · subst hid
          simp only [Function.update_self]
          omega
        · simpa [Function.update_of_ne hid] using hle
  | exit i =>
    cases hc : p.procs[i]? with
    | none => simp [step, hc] at h
    | some c =>
      simp only [step, hc, Option.ite_none_right_eq_some, Option.some.injEq] at h
      obtain ⟨-, rfl⟩ := h
      exact hfill id

/-- Bytes that are still to come have a process that writes them. -/
theorem Pool.exists_writer {p : Pool ι} {id : ι} (h : p.fill id < p.load id) :
    ∃ (i : ℕ) (c : Proc ι) (j n : ℕ), p.procs[i]? = some c ∧ c.outputs[j]? = some (some id, n) ∧ 0 < n := by
  have hsum : (p.procs.map (·.owes id)).sum ≠ 0 := by
    unfold load at h
    omega
  obtain ⟨c, hc, howes⟩ : ∃ c ∈ p.procs, c.owes id ≠ 0 := by
    by_contra hcon
    push Not at hcon
    refine hsum (List.sum_eq_zero fun m hm => ?_)
    obtain ⟨c, hc, rfl⟩ := List.mem_map.mp hm
    exact hcon c hc
  obtain ⟨⟨dest, n⟩, ho, hn⟩ : ∃ o ∈ c.outputs, (if o.1 = some id then o.2 else 0) ≠ 0 := by
    by_contra hcon
    push Not at hcon
    refine howes (List.sum_eq_zero fun m hm => ?_)
    obtain ⟨o, ho, rfl⟩ := List.mem_map.mp hm
    exact hcon o ho
  dsimp only at hn
  split_ifs at hn with hdest
  · subst hdest
    obtain ⟨i, hi⟩ := List.mem_iff_getElem?.mp hc
    obtain ⟨j, hj⟩ := List.mem_iff_getElem?.mp ho
    exact ⟨i, c, j, n, hi, hj, Nat.pos_of_ne_zero hn⟩
  · exact absurd rfl hn

/-- A pipe that cannot take all that is still to come can be filled until a writer is blocked. -/
theorem Pool.blocks (cap : ℕ) (held : ι → Bool) (id : ι) : ∀ (room : ℕ) (p : Pool ι),
    p.fill id + room = cap → cap < p.load id →
    ∃ es p', runWith (Pool.step cap held) p es = some p' ∧ ∃ c ∈ p'.procs, p'.Blocked cap c id
  | 0, p, hroom, hload => by
    have hless : p.fill id < p.load id := by omega
    obtain ⟨i, c, j, n, hi, hj, hn⟩ := p.exists_writer hless
    exact ⟨[], p, rfl, c, List.mem_of_getElem? hi, ⟨n, List.mem_of_getElem? hj, hn⟩, by omega⟩
  | room + 1, p, hroom, hload => by
    have hless : p.fill id < p.load id := by omega
    obtain ⟨i, c, j, n, hi, hj, hn⟩ := p.exists_writer hless
    -- one byte is written, and the load stays
    let p₁ : Pool ι := ⟨p.procs.set i { c with outputs := c.outputs.set j (some id, n - 1) },
      Function.update p.fill id (p.fill id + 1)⟩
    have hstep : p.step cap held (.write i j 1) = some p₁ := by
      simp only [step, hi, hj]
      rw [if_pos (by omega), if_pos (by omega)]
    have hkept : p₁.load id = p.load id := by
      obtain ⟨l₁, l₂, hl, hset, -⟩ := split_of_getElem? hi
      have howes := Proc.owes_set hj 1 hn id
      simp only [load, p₁, hset, Function.update_self]
      simp only [hl, List.map_append, List.map_cons, List.sum_append, List.sum_cons, howes, if_true]
      omega
    have hfill : p₁.fill id = p.fill id + 1 := Function.update_self ..
    obtain ⟨es, p', hrun, hblocked⟩ := Pool.blocks cap held id room p₁ (by omega) (by omega)
    exact ⟨.write i j 1 :: es, p', (runWith_step hstep es).trans hrun, hblocked⟩

end NetProg
