import NetProg.Shell.Model
import Mathlib.Data.Set.Function

/-! What number pipes are for, said with absolute line numbers.

    A line that ends in `|N` sends its output to the line `N` lines further down. Number the lines
    `1, 2, 3, ...`; then line `L` with that suffix writes the pipe of line `L + N`, whoever else
    writes it too, and line `L + N` reads it. No counter and no vector occurs in this description:
    which ends a command gets depends on the texts of the lines alone. -/

namespace NetProg.Shell

/-! ### The language of the lines -/

/-- What may stand at the end of a line. -/
inductive Suffix where
  | none
  | pipe (digits : List Char)
  | shock (digits : List Char)
  | file (name : Token)
  deriving DecidableEq

namespace Suffix

/-- The tokens of a suffix. -/
def tokens : Suffix → List Token
  | none => []
  | pipe ds => ['|' :: ds]
  | shock ds => ['!' :: ds]
  | file name => [['>'], name]

/-- The `N` of a `|N` or `!N`. -/
def count : Suffix → Option ℕ
  | pipe ds => some (digitsVal 0 ds)
  | shock ds => some (digitsVal 0 ds)
  | _ => Option.none

/-- `N` is written in decimal digits and is at least 1. -/
def Ok : Suffix → Prop
  | pipe ds => Numeral ds ∧ 1 ≤ digitsVal 0 ds
  | shock ds => Numeral ds ∧ 1 ≤ digitsVal 0 ds
  | _ => True

/-- `N` fits an `int`, and a file name fits its buffer. -/
def Fits : Suffix → Prop
  | pipe ds => digitsVal 0 ds ≤ intMax
  | shock ds => digitsVal 0 ds ≤ intMax
  | file name => name.length ≤ 100
  | none => True

instance : (s : Suffix) → Decidable s.Ok
  | pipe _ => inferInstanceAs (Decidable (_ ∧ _))
  | shock _ => inferInstanceAs (Decidable (_ ∧ _))
  | file _ => isTrue trivial
  | none => isTrue trivial

instance : (s : Suffix) → Decidable s.Fits
  | pipe _ => inferInstanceAs (Decidable (_ ≤ _))
  | shock _ => inferInstanceAs (Decidable (_ ≤ _))
  | file _ => inferInstanceAs (Decidable (_ ≤ _))
  | none => isTrue trivial

end Suffix

/-- A command of a line: at least one and fewer than ten ordinary tokens, and not `exit`. -/
def Command (c : List Token) : Prop :=
  c ≠ [] ∧ c.length < 10 ∧ (∀ t ∈ c, ordinary t = true) ∧ c.head? ≠ some exitCmd

/-- A command that is not a builtin. -/
def External (c : List Token) : Prop :=
  Command c ∧ c.head? ≠ some printenvCmd ∧ c.head? ≠ some setenvCmd

instance (c : List Token) : Decidable (Command c) := inferInstanceAs (Decidable (_ ∧ _))
instance (c : List Token) : Decidable (External c) := inferInstanceAs (Decidable (_ ∧ _))

/-- Commands joined by `|`, with at most one suffix. -/
structure Pipeline where
  cmds : List (List Token)
  suffix : Suffix
  deriving DecidableEq

/-- Commands joined by `|` tokens. -/
def joinCmds : List (List Token) → List Token
  | [] => []
  | [c] => c
  | c :: cs => c ++ ['|'] :: joinCmds cs

/-- The tokens of a line. -/
def Pipeline.tokens (l : Pipeline) : List Token := joinCmds l.cmds ++ l.suffix.tokens

/-- A line of the language over commands of some kind. -/
structure Pipeline.Ok (kind : List Token → Prop) (l : Pipeline) : Prop where
  cmds_ne : l.cmds ≠ []
  cmds_ok : ∀ c ∈ l.cmds, kind c
  suffix_ok : l.suffix.Ok

instance (kind : List Token → Prop) [DecidablePred kind] (l : Pipeline) :
    Decidable (l.Ok kind) :=
  decidable_of_iff (l.cmds ≠ [] ∧ (∀ c ∈ l.cmds, kind c) ∧ l.suffix.Ok)
    ⟨fun ⟨a, b, c⟩ => ⟨a, b, c⟩, fun ⟨a, b, c⟩ => ⟨a, b, c⟩⟩

/-- An input line that reads as the line `l`, with files that can be opened. -/
structure Reads (inp : LineInput) (l : Pipeline) : Prop where
  short : inp.line.length < 15000
  tokens_eq : NetProg.tokens ' ' inp.line = l.tokens
  ok : l.Ok External
  creat : inp.opens.creat = true
  redir : inp.opens.redir = true

/-! ### The absolute schedule -/

/-- A pipe, named by its purpose: the number pipe read by a line, or the normal pipe after a
    command (counted from 0) of a line. -/
inductive APipe where
  | num (line : ℕ)
  | normal (line cmd : ℕ)
  deriving DecidableEq

/-- What a standard descriptor of a command is connected to. -/
inductive AEnd where
  | own (n : ℕ)
  | readEnd (p : APipe)
  | writeEnd (p : APipe)
  | file (name : List Char)
  deriving DecidableEq

/-- Some line `j` of `ls` has suffix `N` with `j + N = L`. -/
def Targets (ls : List Pipeline) (L : ℕ) : Prop :=
  ∃ j l n, ls[j]? = some l ∧ l.suffix.count = some n ∧ j + 1 + n = L

open Classical in
/-- Where the standard input of command `c` comes from, after the lines `pre`. -/
noncomputable def stdinEnd (pre : List Pipeline) (c : ℕ) : AEnd :=
  match c with
  | 0 => if Targets pre (pre.length + 1) then .readEnd (.num (pre.length + 1)) else .own 0
  | c + 1 => .readEnd (.normal (pre.length + 1) c)

/-- The name that is opened for `> name`: the buffer keeps its old bytes behind the copy. -/
def openedName (inp : LineInput) (name : Token) : List Char :=
  cString (name ++ inp.junk.drop name.length)

/-- Where the standard output of command `c` of line `L` goes. -/
def stdoutEnd (L : ℕ) (inp : LineInput) (l : Pipeline) (c : ℕ) : AEnd :=
  if c + 1 < l.cmds.length then .writeEnd (.normal L c)
  else match l.suffix with
    | .none => .own 1
    | .file name => .file (openedName inp name)
    | .pipe ds => .writeEnd (.num (L + digitsVal 0 ds))
    | .shock ds => .writeEnd (.num (L + digitsVal 0 ds))

/-- The pipes that occur in the schedule of `ls`. -/
def Pipes (ls : List Pipeline) : Set APipe
  | .num L => Targets ls L
  | .normal L c => ∃ j l, ls[j]? = some l ∧ L = j + 1 ∧ c + 1 < l.cmds.length

/-- The descriptor object behind an end, when `ρ` tells which pipe of the kernel plays which part. -/
def AEnd.desc (ρ : APipe → ℕ) : AEnd → Desc
  | .own n => .own n
  | .readEnd p => .pipeR (ρ p)
  | .writeEnd p => .pipeW (ρ p)
  | .file name => .file name

/-- The children of one line are its commands in order, wired as the schedule says. -/
structure LineWired (ρ : APipe → ℕ) (pre : List Pipeline) (inp : LineInput) (l : Pipeline)
    (sp : List Spawn) : Prop where
  argv : sp.map (·.argv) = l.cmds
  stdin : ∀ c s, sp[c]? = some s → s.fds.get 0 = some ((stdinEnd pre c).desc ρ)
  stdout : ∀ c s, sp[c]? = some s →
    s.fds.get 1 = some ((stdoutEnd (pre.length + 1) inp l c).desc ρ)

/-! ### The pipes of a schedule that grows by a line -/

theorem targets_nil (L : ℕ) : ¬ Targets [] L := by
  rintro ⟨j, l, n, h, -⟩
  simp at h

theorem targets_concat {pre : List Pipeline} {l : Pipeline} {L : ℕ} :
    Targets (pre ++ [l]) L ↔
      Targets pre L ∨ ∃ n, l.suffix.count = some n ∧ pre.length + 1 + n = L := by
  constructor
  · rintro ⟨j, l', n, hj, hn, hL⟩
    rcases lt_trichotomy j pre.length with hlt | heq | hgt
    · rw [List.getElem?_append_left hlt] at hj
      exact Or.inl ⟨j, l', n, hj, hn, hL⟩
    · subst heq
      simp only [List.getElem?_concat_length, Option.some.injEq] at hj
      subst hj
      exact Or.inr ⟨n, hn, hL⟩
    · rw [List.getElem?_eq_none (by simp; omega)] at hj
      simp at hj
  · rintro (⟨j, l', n, hj, hn, hL⟩ | ⟨n, hn, hL⟩)
    · have hlt : j < pre.length := (List.getElem?_eq_some_iff.mp hj).1
      exact ⟨j, l', n, by rwa [List.getElem?_append_left hlt], hn, hL⟩
    · exact ⟨pre.length, l, n, by simp, hn, hL⟩

/-- The pipes of a schedule that grows by a line. -/
theorem mem_pipes_concat {pre : List Pipeline} {l : Pipeline} {p : APipe} :
    p ∈ Pipes (pre ++ [l]) ↔ p ∈ Pipes pre ∨
      (∃ n, l.suffix.count = some n ∧ p = .num (pre.length + 1 + n)) ∨
      ∃ c, c + 1 < l.cmds.length ∧ p = .normal (pre.length + 1) c := by
  cases p with
  | num L =>
    show Targets (pre ++ [l]) L ↔ Targets pre L ∨ _
    rw [targets_concat]
    simp [eq_comm]
  | normal L c =>
    show (∃ j l', (pre ++ [l])[j]? = some l' ∧ L = j + 1 ∧ c + 1 < l'.cmds.length) ↔
      (∃ j l', pre[j]? = some l' ∧ L = j + 1 ∧ c + 1 < l'.cmds.length) ∨ _
    constructor
    · rintro ⟨j, l', hj, rfl, hc⟩
      rcases lt_or_ge j pre.length with hlt | hge
      · rw [List.getElem?_append_left hlt] at hj
        exact Or.inl ⟨j, l', hj, rfl, hc⟩
      · have hjl : j < (pre ++ [l]).length := (List.getElem?_eq_some_iff.mp hj).1
        have hjp : j = pre.length := by
          simp only [List.length_append, List.length_singleton] at hjl
          omega
        subst hjp
        simp only [List.getElem?_concat_length, Option.some.injEq] at hj
        subst hj
        exact Or.inr (Or.inr ⟨c, hc, rfl⟩)
    · rintro (⟨j, l', hj, rfl, hc⟩ | ⟨n, -, hp⟩ | ⟨c', hc, hp⟩)
      · have hlt : j < pre.length := (List.getElem?_eq_some_iff.mp hj).1
        exact ⟨j, l', by rwa [List.getElem?_append_left hlt], rfl, hc⟩
      · cases hp
      · cases hp
        exact ⟨pre.length, l, List.getElem?_concat_length, rfl, hc⟩

theorem Suffix.Ok.one_le {s : Suffix} (h : s.Ok) {n : ℕ} (hn : s.count = some n) : 1 ≤ n := by
  cases s with
  | pipe ds => simp only [Suffix.count, Option.some.injEq] at hn; subst hn; exact h.2
  | shock ds => simp only [Suffix.count, Option.some.injEq] at hn; subst hn; exact h.2
  | none => simp [Suffix.count] at hn
  | file name => simp [Suffix.count] at hn

end NetProg.Shell
