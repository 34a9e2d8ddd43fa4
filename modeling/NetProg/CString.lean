import Mathlib.Data.List.TakeWhile
import Mathlib.Tactic

/-! C strings and the library calls the programs make on them.

    A string is its characters without the terminating NUL. `none` stands for the null pointer
    `strtok` returns when nothing is left, and for a `strncpy` that writes past its buffer. -/

namespace NetProg

/-- A character array of `n` cells, as bytes. -/
structure Buffer (n : ℕ) where
  bytes : List UInt8
  size : bytes.length = n

/-- The array after `read` has stored some bytes at its beginning: the rest stays. -/
def Buffer.fill {n : ℕ} (b : Buffer n) (data : List UInt8) (h : data.length ≤ n) : Buffer n where
  bytes := data ++ b.bytes.drop data.length
  size := by
    have hb := b.size
    rw [List.length_append, List.length_drop]
    omega

/-- The array with every cell 0. -/
def Buffer.zero (n : ℕ) : Buffer n := ⟨List.replicate n 0, List.length_replicate⟩

/-- A token of a command line. -/
abbrev Token := List Char

instance instLawfulBEqToken : LawfulBEq Token := inferInstanceAs (LawfulBEq (List Char))

/-- Cut a string at `d`, dropping empty pieces; `cur` is the piece being read. -/
def tokensAux (d : Char) : List Char → Token → List Token
  | [], cur => if cur = [] then [] else [cur]
  | c :: cs, cur =>
    if c = d then (if cur = [] then tokensAux d cs [] else cur :: tokensAux d cs [])
    else tokensAux d cs (cur ++ [c])

/-- The pieces `strtok(s, d)`, `strtok(NULL, d)`, ... return until they return NULL. -/
def tokens (d : Char) (s : List Char) : List Token := tokensAux d s []

/-- The first piece of `s` at `d`. -/
def strtok (d : Char) (s : List Char) : Option Token :=
  match s.dropWhile (· == d) with
  | [] => none
  | c :: cs => some ((c :: cs).takeWhile (· != d))

/-- The lines `getline` returns one after the other; `cur` is the line being read. -/
def getLinesAux : List Char → List Char → List (List Char)
  | [], cur => if cur = [] then [] else [cur]
  | c :: cs, cur => if c = '\n' then cur :: getLinesAux cs [] else getLinesAux cs (cur ++ [c])

/-- The lines of a file. -/
def getLines (file : List Char) : List (List Char) := getLinesAux file []

/-- The value of the leading decimal digits. -/
def digitsVal : ℕ → List Char → ℕ
  | acc, [] => acc
  | acc, c :: cs => if c.isDigit then digitsVal (10 * acc + (c.toNat - 48)) cs else acc

/-- `isspace`. -/
def isSpace (c : Char) : Bool := c == ' ' || (9 ≤ c.toNat && c.toNat ≤ 13)

/-- `strtol` in base 10, saturating at the range of a 64-bit `long`. -/
def strtol (s : List Char) : ℤ :=
  let z : ℤ := match s.dropWhile isSpace with
    | '-' :: cs => -(digitsVal 0 cs : ℤ)
    | '+' :: cs => digitsVal 0 cs
    | cs => digitsVal 0 cs
  max (-2 ^ 63) (min z (2 ^ 63 - 1))

/-- `atoi`: the low 32 bits of what `strtol` reads. -/
def atoi (s : List Char) : ℤ := (strtol s).bmod (2 ^ 32)

/-- The largest `int`. -/
def intMax : ℕ := 2147483647

/-- `strncpy(buf, src, strlen(src))`: the NUL is not copied, and the rest of `buf` stays. -/
def strncpy (buf src : List Char) : Option (List Char) :=
  if src.length ≤ buf.length then some (src ++ buf.drop src.length) else none

/-- The string that starts at the beginning of a buffer. -/
def cString (buf : List Char) : List Char := buf.takeWhile (· != '\x00')

/-- A decimal numeral that is not empty. -/
def Numeral (ds : List Char) : Prop := ds ≠ [] ∧ ∀ c ∈ ds, c.isDigit = true

instance (ds : List Char) : Decidable (Numeral ds) :=
  @instDecidableAnd _ _ inferInstance (List.decidableBAll _ ds)

theorem isDigit_not_space {c : Char} (h : c.isDigit = true) : isSpace c = false := by
  simp only [Char.isDigit, Bool.and_eq_true, decide_eq_true_eq] at h
  have h1 : 48 ≤ c.toNat := h.1
  have hne : c ≠ ' ' := by rintro rfl; revert h1; decide
  simp only [isSpace, Bool.or_eq_false_iff, Bool.and_eq_false_iff, decide_eq_false_iff_not, not_le]
  exact ⟨by simpa using hne, Or.inr (by omega)⟩

theorem strtol_numeral {ds : List Char} (h : Numeral ds) :
    strtol ds = min (digitsVal 0 ds : ℤ) (2 ^ 63 - 1) := by
  obtain ⟨hne, hd⟩ := h
  obtain ⟨c, cs, rfl⟩ := List.exists_cons_of_ne_nil hne
  have hc := hd c (by simp)
  have hdrop : (c :: cs).dropWhile isSpace = c :: cs := by
    simp [List.dropWhile, isDigit_not_space hc]
  have hm : c ≠ '-' := by rintro rfl; revert hc; decide
  have hp : c ≠ '+' := by rintro rfl; revert hc; decide
  simp only [strtol, hdrop]
  split
  · simp_all
  · simp_all
  · rw [max_eq_right]
    have : (0 : ℤ) ≤ digitsVal 0 (c :: cs) := Int.natCast_nonneg _
    omega

/-- A numeral that fits an `int` is read as its value. -/
theorem atoi_numeral {ds : List Char} (h : Numeral ds) (hle : digitsVal 0 ds ≤ intMax) :
    atoi ds = digitsVal 0 ds := by
  rw [atoi, strtol_numeral h]
  unfold intMax at hle
  have h1 : min (digitsVal 0 ds : ℤ) (2 ^ 63 - 1) = digitsVal 0 ds := by
    apply min_eq_left; omega
  rw [h1, Int.bmod_eq_of_le] <;> omega

/-- `strtok` skips the mark in front of a word that does not contain it. -/
theorem strtok_cons {d : Char} {s : List Char} (hne : s ≠ []) (hd : d ∉ s) :
    strtok d (d :: s) = some s := by
  obtain ⟨c, cs, rfl⟩ := List.exists_cons_of_ne_nil hne
  have hc : c ≠ d := by rintro rfl; exact hd (by simp)
  have htake : (c :: cs).takeWhile (· != d) = c :: cs := by
    rw [List.takeWhile_eq_self_iff]
    intro x hx
    have : x ≠ d := by rintro rfl; exact hd hx
    simpa using this
  unfold strtok
  rw [List.dropWhile_cons_of_pos (by simp), List.dropWhile_cons_of_neg (by simpa using hc)]
  simp only [htake]

theorem Numeral.not_mem {ds : List Char} (h : Numeral ds) {d : Char} (hd : d.isDigit = false) :
    d ∉ ds := fun hm => by simp [h.2 d hm] at hd

/-- There is a character between two tokens, and one at least in each. -/
theorem tokensAux_length (d : Char) : ∀ (s : List Char) (cur : Token),
    2 * (tokensAux d s cur).length ≤ s.length + if cur = [] then 1 else 2
  | [], cur => by
    rw [tokensAux]
    split_ifs <;> simp
  | c :: cs, cur => by
    have hcut := tokensAux_length d cs []
    have hgrow := tokensAux_length d cs (cur ++ [c])
    rw [if_pos rfl] at hcut
    rw [if_neg (by simp)] at hgrow
    rw [tokensAux, List.length_cons]
    split_ifs
    · omega
    · rw [List.length_cons]
      omega
    · omega
    · omega

theorem tokens_length (s : List Char) : 2 * (tokens ' ' s).length ≤ s.length + 1 := by
  have h := tokensAux_length ' ' s []
  rwa [if_pos rfl] at h

example : tokens ' ' ['l', 's', ' ', ' ', '|', '2'] = [['l', 's'], ['|', '2']] := by decide

theorem getLinesAux_line {l : List Char} (hl : '\n' ∉ l) (s cur : List Char) :
    getLinesAux (l ++ '\n' :: s) cur = (cur ++ l) :: getLines s := by
  induction l generalizing cur with
  | nil => rw [List.nil_append, getLinesAux, if_pos rfl, List.append_nil, getLines]
  | cons c l ih =>
    obtain ⟨hc, hl⟩ := not_or.mp (List.mem_cons.not.mp hl)
    rw [List.cons_append, getLinesAux, if_neg (Ne.symm hc), ih hl, List.append_assoc, List.singleton_append]

theorem getLines_line {l : List Char} (hl : '\n' ∉ l) (s : List Char) :
    getLines (l ++ '\n' :: s) = l :: getLines s :=
  getLinesAux_line hl s []

/-- A last line without its newline. -/
theorem getLines_last {l : List Char} (hl : '\n' ∉ l) (hne : l ≠ []) : getLines l = [l] := by
  have haux : ∀ (l cur : List Char), '\n' ∉ l → cur ++ l ≠ [] → getLinesAux l cur = [cur ++ l] := by
    intro l
    induction l with
    | nil =>
      intro cur _ hne
      rw [List.append_nil] at hne
      rw [getLinesAux, if_neg hne, List.append_nil]
    | cons c l ih =>
      intro cur hl hne
      obtain ⟨hc, hl⟩ := not_or.mp (List.mem_cons.not.mp hl)
      rw [getLinesAux, if_neg (Ne.symm hc), ih _ hl (by simp), List.append_assoc, List.singleton_append]
  exact haux l [] hl hne

theorem cString_eq {s : List Char} (h : '\x00' ∉ s) : cString s = s :=
  List.takeWhile_eq_self_iff.mpr fun _ hc => bne_iff_ne.mpr fun heq => h (heq ▸ hc)

theorem not_mem_cString (s : List Char) : '\x00' ∉ cString s := by
  intro h
  have hne := List.mem_takeWhile_imp (p := fun c => c != '\x00') h
  exact bne_iff_ne.mp hne rfl

end NetProg
