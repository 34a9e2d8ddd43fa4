import Mathlib.Data.List.Basic
import Mathlib.Tactic

/-! Escaping a string, and reading it back.

    A loop that replaces the first occurrence of a letter until there is none left writes every occurrence
    out. A string in which some letters are written as code words is read back from left to right. -/

namespace NetProg.Escaping

variable {α : Type} [DecidableEq α]

/-! ### A loop that replaces the first occurrence -/

/-- What one turn of the loop comes to. -/
inductive Turn (α : Type) where
  | stop
  /-- the position is behind the end of the string -/
  | throw
  | next (s : List α)

/-- One turn: the first `c` is replaced by `new`. Its position is kept in a variable, which `store` tells
    what it then holds; -1 stands for a `c` that was not found. -/
def turn (store : ℕ → ℤ) (c : α) (new s : List α) : Turn α :=
  match s.findIdx? (· = c) with
  | none => .stop
  | some p =>
    if store p = -1 then .stop
    else if store p < 0 ∨ s.length < store p then .throw
    else .next (s.take (store p).toNat ++ new ++ s.drop ((store p).toNat + 1))

/-- The loop terminates with a string. -/
inductive Ends (store : ℕ → ℤ) (c : α) (new : List α) : List α → List α → Prop
  | stop {s : List α} : turn store c new s = .stop → Ends store c new s s
  | next {s s' r : List α} : turn store c new s = .next s' → Ends store c new s' r →
    Ends store c new s r

/-- Every `c` is written as `new`. -/
def writeOut (c : α) (new s : List α) : List α := s.flatMap fun x => if x = c then new else [x]

variable {store : ℕ → ℤ} {c : α} {new : List α}

theorem Ends.unique {s r r' : List α} (h : Ends store c new s r) (h' : Ends store c new s r') : r = r' := by
  induction h with
  | stop hs =>
    cases h' with
    | stop => rfl
    | next hs' => rw [hs] at hs'; cases hs'
  | next hs _ ih =>
    cases h' with
    | stop hs' => rw [hs] at hs'; cases hs'
    | next hs' hrest =>
      rw [hs] at hs'
      cases hs'
      exact ih hrest

theorem turn_stop {s : List α} (h : c ∉ s) : turn store c new s = .stop := by
  have hnone : s.findIdx? (· = c) = none := by
    rw [List.findIdx?_eq_none_iff]
    intro x hx
    exact decide_eq_false fun heq => h (heq ▸ hx)
  rw [turn, hnone]

/-- The first `c` is where the letters before it end. -/
theorem turn_next {done s : List α} (h : c ∉ done) (hstore : store done.length = done.length) :
    turn store c new (done ++ c :: s) = .next (done ++ new ++ s) := by
  have hnone : done.findIdx? (· = c) = none := by
    rw [List.findIdx?_eq_none_iff]
    intro x hx
    exact decide_eq_false fun heq => h (heq ▸ hx)
  have hfind : (done ++ c :: s).findIdx? (· = c) = some done.length := by
    rw [List.findIdx?_append, hnone]
    simp [List.findIdx?_cons]
  rw [turn, hfind]
  simp only [hstore]
  rw [if_neg (by omega), if_neg (by simp; omega), Int.toNat_natCast, List.take_left, List.drop_append]
  simp

/-- The loop writes every `c` out, as long as each position can be kept. -/
theorem ends_writeOut (hnew : c ∉ new) (s done : List α) (hdone : c ∉ done)
    (hstore : ∀ p ≤ (done ++ writeOut c new s).length, store p = p) :
    Ends store c new (done ++ s) (done ++ writeOut c new s) := by
  induction s generalizing done with
  | nil => exact .stop (turn_stop (by simpa using hdone))
  | cons x s ih =>
    by_cases hx : x = c
    · subst hx
      have hout : writeOut x new (x :: s) = new ++ writeOut x new s := by simp [writeOut]
      have hlen : done.length ≤ (done ++ writeOut x new (x :: s)).length := by simp
      refine .next (turn_next hdone (hstore _ hlen)) ?_
      rw [hout, ← List.append_assoc] at hstore ⊢
      refine ih (done ++ new) (fun hmem => ?_) hstore
      exact (List.mem_append.mp hmem).elim hdone hnew
    · have hout : writeOut c new (x :: s) = x :: writeOut c new s := by simp [writeOut, hx]
      have hcons : ∀ l : List α, done ++ x :: l = done ++ [x] ++ l := fun l => by simp
      rw [hout, hcons] at hstore
      rw [hout, hcons s, hcons (writeOut c new s)]
      refine ih (done ++ [x]) (fun hmem => ?_) hstore
      rcases List.mem_append.mp hmem with hmem | hmem
      · exact hdone hmem
      · exact hx (List.mem_singleton.mp hmem).symm

/-- Where every position can be kept, the loop ends, and with this string only. -/
theorem ends_iff (hnew : c ∉ new) {s r : List α} (hstore : ∀ p ≤ (writeOut c new s).length, store p = p) :
    Ends store c new s r ↔ r = writeOut c new s := by
  have hends : Ends store c new s (writeOut c new s) := ends_writeOut hnew s [] List.not_mem_nil hstore
  exact ⟨fun h => h.unique hends, fun h => h ▸ hends⟩

/-! ### Reading code words back -/

variable (words : List (List α × α))

/-- Every code word is replaced by its letter. The first `skip` letters belong to a word that was read. -/
def readFrom : ℕ → List α → List α
  | _, [] => []
  | skip + 1, _ :: s => readFrom skip s
  | 0, x :: s =>
    match words.find? fun w => w.1.isPrefixOf (x :: s) with
    | some w => w.2 :: readFrom (w.1.length - 1) s
    | none => x :: readFrom 0 s

/-- Every code word is replaced by its letter. -/
def readBack (s : List α) : List α := readFrom words 0 s

theorem readFrom_eq_drop : ∀ (skip : ℕ) (s : List α), readFrom words skip s = readBack words (s.drop skip)
  | 0, _ => rfl
  | skip + 1, [] => by simp [readFrom, readBack]
  | skip + 1, _ :: s => readFrom_eq_drop skip s

variable {words}

/-- A letter with which no code word begins. -/
theorem readBack_cons {x : α} {s : List α} (h : ∀ w ∈ words, w.1.head? ≠ some x) (hne : ∀ w ∈ words, w.1 ≠ []) :
    readBack words (x :: s) = x :: readBack words s := by
  have hnone : words.find? (fun w => w.1.isPrefixOf (x :: s)) = none := by
    rw [List.find?_eq_none]
    intro w hw hprefix
    obtain ⟨y, l, hl⟩ := List.exists_cons_of_ne_nil (hne w hw)
    have hhead := h w hw
    rw [hl] at hprefix hhead
    have hxy : y = x := (List.cons_prefix_cons.mp (List.isPrefixOf_iff_prefix.mp hprefix)).1
    exact hhead (congrArg some hxy)
  rw [readBack, readFrom, hnone]
  rfl

/-- A code word that no other one begins, and that begins no other one. -/
theorem readBack_word {w : List α × α} {s : List α} (hw : w ∈ words) (hne : w.1 ≠ [])
    (hfree : ∀ v ∈ words, v.1 <+: w.1 ∨ w.1 <+: v.1 → v = w) :
    readBack words (w.1 ++ s) = w.2 :: readBack words s := by
  obtain ⟨x, l, hl⟩ := List.exists_cons_of_ne_nil hne
  have hsome : words.find? (fun v => v.1.isPrefixOf (w.1 ++ s)) = some w := by
    cases hfind : words.find? (fun v => v.1.isPrefixOf (w.1 ++ s)) with
    | none =>
      have hself := List.find?_eq_none.mp hfind w hw
      exact absurd (List.isPrefixOf_iff_prefix.mpr (List.prefix_append ..)) hself
    | some v =>
      have hmatch : v.1.isPrefixOf (w.1 ++ s) = true := by
        have hpred := List.find?_some hfind
        exact hpred
      have hprefix := List.isPrefixOf_iff_prefix.mp hmatch
      have hcomp := List.prefix_or_prefix_of_prefix hprefix (List.prefix_append w.1 s)
      rw [hfree v (List.mem_of_find?_eq_some hfind) hcomp]
  rw [hl, List.cons_append] at hsome ⊢
  rw [readBack, readFrom, hsome]
  dsimp only
  rw [readFrom_eq_drop, hl]
  simp

end NetProg.Escaping
