import Mathlib.Data.List.TakeWhile
import Mathlib.Tactic

/-! String literals of JavaScript.

    A literal is read from behind its opening double quote. Its value is a list of code points; a
    surrogate that is written as an escape stands alone in it. The octal escapes of scripts that are
    not strict are read too. U+2028 and U+2029 may stand in a literal. -/

namespace NetProg.JavaScript

/-- The value of a hexadecimal digit. -/
def hexDigit (c : Char) : Option ℕ :=
  if c.isDigit then some (c.toNat - 48)
  else if 'a' ≤ c ∧ c ≤ 'f' then some (c.toNat - 87)
  else if 'A' ≤ c ∧ c ≤ 'F' then some (c.toNat - 55)
  else none

/-- The value of exactly `n` hexadecimal digits in front of `s`. -/
def hexDigits : ℕ → ℕ → List Char → Option ℕ
  | 0, acc, _ => some acc
  | n + 1, acc, c :: s => (hexDigit c).bind fun d => hexDigits n (16 * acc + d) s
  | _ + 1, _, [] => none

/-- The value of the hexadecimal digits up to a closing brace, and their number. -/
def bracedDigits : ℕ → ℕ → List Char → Option (ℕ × ℕ)
  | _, _, [] => none
  | acc, n, c :: s =>
    if c = '}' then if n = 0 then none else some (acc, n)
    else (hexDigit c).bind fun d => bracedDigits (16 * acc + d) (n + 1) s

/-- How many of the first `n` characters are octal digits. -/
def octalDigits (n : ℕ) (s : List Char) : ℕ :=
  ((s.take n).takeWhile fun c => decide ('0' ≤ c ∧ c ≤ '7')).length

/-- The value of octal digits. -/
def octalVal (s : List Char) : ℕ := s.foldl (fun acc c => 8 * acc + (c.toNat - 48)) 0

/-- The characters that stand for a control character behind a backslash. -/
def controlVal : Char → Option ℕ
  | 'b' => some 8
  | 't' => some 9
  | 'n' => some 10
  | 'v' => some 11
  | 'f' => some 12
  | 'r' => some 13
  | _ => none

/-- What stands behind a backslash: its value, and how many characters it has after the first one. -/
def escapeTail (c : Char) (s : List Char) : Option (List ℕ × ℕ) :=
  if c = '\n' ∨ c = '\u2028' ∨ c = '\u2029' then some ([], 0)
  else if c = '\r' then some ([], if s.head? = some '\n' then 1 else 0)
  else if c = 'x' then (hexDigits 2 0 s).map fun n => ([n], 2)
  else if c = 'u' then
    if s.head? = some '{' then
      (bracedDigits 0 0 s.tail).bind fun p => if p.1 ≤ 0x10FFFF then some ([p.1], p.2 + 2) else none
    else (hexDigits 4 0 s).map fun n => ([n], 4)
  else if '0' ≤ c ∧ c ≤ '7' then
    let n := octalDigits (if c ≤ '3' then 2 else 1) s
    some ([octalVal (c :: s.take n)], n)
  else match controlVal c with
    | some n => some ([n], 0)
    | none => some ([c.toNat], 0)

/-- The rest of a literal: its value and what stands behind the closing quote. The first `skip`
    characters belong to an escape that has been read. -/
def readStringFrom : ℕ → List Char → Option (List ℕ × List Char)
  | _, [] => none
  | skip + 1, _ :: s => readStringFrom skip s
  | 0, c :: s =>
    if c = '"' then some ([], s)
    else if c = '\n' ∨ c = '\r' then none
    else if c = '\\' then readEscape s
    else (readStringFrom 0 s).map fun p => (c.toNat :: p.1, p.2)
where
  readEscape : List Char → Option (List ℕ × List Char)
    | [] => none
    | c :: s => (escapeTail c s).bind fun e =>
      (readStringFrom e.2 s).map fun p => (e.1 ++ p.1, p.2)

/-- Read a literal from behind its opening quote. -/
def readString (s : List Char) : Option (List ℕ × List Char) := readStringFrom 0 s

theorem readStringFrom_eq_drop : ∀ (skip : ℕ) (s : List Char),
    readStringFrom skip s = readStringFrom 0 (s.drop skip)
  | 0, _ => rfl
  | _ + 1, [] => rfl
  | skip + 1, _ :: s => readStringFrom_eq_drop skip s

/-- A character that means itself in a literal. -/
def plain (c : Char) : Bool := c != '"' && c != '\n' && c != '\r' && c != '\\'

theorem readString_append : ∀ {l : List Char} (s : List Char), (∀ c ∈ l, plain c = true) →
    readString (l ++ s) = (readString s).map fun p => (l.map Char.toNat ++ p.1, p.2)
  | [], s, _ => by simp
  | c :: l, s, h => by
    have ih := readString_append s fun d hd => h d (List.mem_cons_of_mem _ hd)
    have hc := h c List.mem_cons_self
    simp only [plain, Bool.and_eq_true, bne_iff_ne] at hc
    obtain ⟨⟨⟨hquote, hlf⟩, hcr⟩, hback⟩ := hc
    rw [readString] at ih
    rw [readString, List.cons_append, readStringFrom, if_neg hquote, if_neg (by simp [hlf, hcr]),
      if_neg hback, ih, Option.map_map]
    rfl

theorem readString_escape (c : Char) (s : List Char) : readString ('\\' :: c :: s) =
    (escapeTail c s).bind fun e => (readString (s.drop e.2)).map fun p => (e.1 ++ p.1, p.2) := by
  rw [readString, readStringFrom, if_neg (by decide), if_neg (by decide), if_pos rfl,
    readStringFrom.readEscape]
  congr 1
  funext e
  rw [readStringFrom_eq_drop, readString]

/-! ### What an escape takes -/

/-- The characters an escape can have behind its first one. -/
def inEscape (c : Char) : Bool := (hexDigit c).isSome || c == '{' || c == '}' || c == '\n'

theorem hexDigits_taken : ∀ (n acc : ℕ) (s : List Char) {v : ℕ}, hexDigits n acc s = some v →
    ∀ c ∈ s.take n, inEscape c = true
  | 0, _, _, _, _ => by simp
  | _ + 1, _, [], _, h => by cases h
  | n + 1, acc, c :: s, v, h => by
    obtain ⟨d, hd, h⟩ := Option.bind_eq_some_iff.mp h
    rintro x (- | ⟨-, hx⟩)
    · simp [inEscape, hd]
    · exact hexDigits_taken n _ s h x hx

theorem bracedDigits_taken : ∀ (s : List Char) (acc m : ℕ) {v n : ℕ},
    bracedDigits acc m s = some (v, n) → ∃ k, n = m + k ∧ ∀ c ∈ s.take (k + 1), inEscape c = true
  | [], _, _, _, _, h => by cases h
  | c :: s, acc, m, v, n, h => by
    rw [bracedDigits] at h
    split_ifs at h with hc hm
    · obtain ⟨-, rfl⟩ := Prod.mk.inj (Option.some.inj h)
      refine ⟨0, rfl, fun x hx => ?_⟩
      obtain rfl : x = c := by simpa using hx
      rw [hc]
      decide
    · obtain ⟨d, hd, h⟩ := Option.bind_eq_some_iff.mp h
      obtain ⟨k, rfl, htaken⟩ := bracedDigits_taken s _ _ h
      refine ⟨k + 1, by omega, ?_⟩
      rintro x (- | ⟨-, hx⟩)
      · simp [inEscape, hd]
      · exact htaken x hx

theorem octalDigits_taken (n : ℕ) (s : List Char) :
    ∀ c ∈ s.take (octalDigits n s), inEscape c = true := by
  intro c hc
  have hpre := List.takeWhile_prefix (fun c => decide ('0' ≤ c ∧ c ≤ '7')) (l := s.take n)
  have htake : s.take (octalDigits n s) =
      (s.take n).takeWhile fun c => decide ('0' ≤ c ∧ c ≤ '7') := by
    have hle := hpre.length_le
    rw [List.length_take] at hle
    rw [List.prefix_iff_eq_take.mp hpre, List.take_take, octalDigits]
    congr 1
    omega
  rw [htake] at hc
  have hoct := List.mem_takeWhile_imp hc
  simp only [decide_eq_true_eq] at hoct
  have hdigit : c.isDigit = true := by
    simp only [Char.isDigit, Bool.and_eq_true, decide_eq_true_eq]
    exact ⟨hoct.1, UInt32.le_trans hoct.2 (by decide)⟩
  simp [inEscape, hexDigit, hdigit]

/-- An escape is worth one code point at most, and takes few kinds of characters. -/
theorem escapeTail_taken {c : Char} {s : List Char} {u : List ℕ} {k : ℕ}
    (h : escapeTail c s = some (u, k)) : u.length ≤ 1 ∧ ∀ x ∈ s.take k, inEscape x = true := by
  unfold escapeTail at h
  split_ifs at h with h1 h2 h3 h4 h5 h6 h7 h8
  · obtain ⟨rfl, rfl⟩ := Prod.mk.inj (Option.some.inj h)
    simp
  · obtain ⟨rfl, rfl⟩ := Prod.mk.inj (Option.some.inj h)
    refine ⟨by simp, fun x hx => ?_⟩
    cases s with
    | nil => cases hx
    | cons y s =>
      obtain rfl : y = '\n' := by simpa using h3
      obtain rfl : x = '\n' := by simpa using hx
      decide
  · obtain ⟨rfl, rfl⟩ := Prod.mk.inj (Option.some.inj h)
    simp
  · obtain ⟨v, hv, h⟩ := Option.map_eq_some_iff.mp h
    obtain ⟨rfl, rfl⟩ := Prod.mk.inj h
    exact ⟨le_rfl, hexDigits_taken 2 0 s hv⟩
  · obtain ⟨p, hp, h⟩ := Option.bind_eq_some_iff.mp h
    split_ifs at h
    obtain ⟨rfl, rfl⟩ := Prod.mk.inj (Option.some.inj h)
    refine ⟨le_rfl, ?_⟩
    cases s with
    | nil => cases h6
    | cons y s =>
      obtain rfl : y = '{' := by simpa using h6
      obtain ⟨k, hk, htaken⟩ := bracedDigits_taken s 0 0 hp
      rw [hk, Nat.zero_add]
      rintro x (- | ⟨-, hx⟩)
      · decide
      · exact htaken x hx
  · obtain ⟨v, hv, h⟩ := Option.map_eq_some_iff.mp h
    obtain ⟨rfl, rfl⟩ := Prod.mk.inj h
    exact ⟨le_rfl, hexDigits_taken 4 0 s hv⟩
  · obtain ⟨rfl, rfl⟩ := Prod.mk.inj (Option.some.inj h)
    exact ⟨le_rfl, octalDigits_taken _ s⟩
  · obtain ⟨rfl, rfl⟩ := Prod.mk.inj (Option.some.inj h)
    exact ⟨le_rfl, octalDigits_taken _ s⟩
  · cases hc : controlVal c with
    | none =>
      rw [hc] at h
      obtain ⟨rfl, rfl⟩ := Prod.mk.inj (Option.some.inj h)
      simp
    | some n =>
      rw [hc] at h
      obtain ⟨rfl, rfl⟩ := Prod.mk.inj (Option.some.inj h)
      simp

end NetProg.JavaScript
