import Mathlib.Tactic

/-! The text of a piece of HTML.

    Text is read with its character references, of which there are more than two thousand: the table is
    a parameter here, and the references that every escaping function writes are required to be in it.
    Where markup begins the reading ends without a text. -/

namespace NetProg.Html

/-- The code points of a string. -/
def codes (s : List Char) : List ℕ := s.map Char.toNat

/-- The references that escaping functions write: what stands behind the `&`, and the character. -/
def basicRefs : List (List Char × Char) :=
  [(['a', 'm', 'p', ';'], '&'), (['q', 'u', 'o', 't', ';'], '"'), (['a', 'p', 'o', 's', ';'], '\''),
    (['l', 't', ';'], '<'), (['g', 't', ';'], '>'), (['N', 'e', 'w', 'L', 'i', 'n', 'e', ';'], '\n'),
    (['n', 'b', 's', 'p', ';'], '\u00a0')]

/-- The references: for what stands behind an `&`, the text and the length of the reference. A
    reference is made of letters, digits, `#` and `;`, and is not shorter than its text. -/
structure CharRefs where
  read : List ℕ → Option (List ℕ × ℕ)
  name : ∀ {s t k}, read s = some (t, k) → ∀ u ∈ s.take k, u ≠ '&'.toNat ∧ u ≠ 0
  short : ∀ {s t k}, read s = some (t, k) → t.length ≤ k ∧ k ≤ s.length
  basic : ∀ p ∈ basicRefs, ∀ s, read (codes p.1 ++ s) = some ([p.2.toNat], p.1.length)

/-- A table with nothing but the basic references. -/
def basicTable : CharRefs where
  read s := (basicRefs.find? fun p => (codes p.1).isPrefixOf s).map fun p =>
    ([p.2.toNat], p.1.length)
  name := by
    intro s t k h u hu
    obtain ⟨p, hp, heq⟩ := Option.map_eq_some_iff.mp h
    obtain ⟨-, rfl⟩ := Prod.mk.inj heq
    have hall : ∀ p ∈ basicRefs, ∀ u ∈ codes p.1, u ≠ '&'.toNat ∧ u ≠ 0 := by decide
    have hlen : (codes p.1).length = p.1.length := List.length_map _
    have hmatch : (codes p.1).isPrefixOf s = true := by
      have := List.find?_some hp
      exact this
    obtain ⟨l, rfl⟩ := List.isPrefixOf_iff_prefix.mp hmatch
    rw [← hlen, List.take_left] at hu
    exact hall p (List.mem_of_find?_eq_some hp) u hu
  short := by
    intro s t k h
    obtain ⟨p, hp, heq⟩ := Option.map_eq_some_iff.mp h
    obtain ⟨rfl, rfl⟩ := Prod.mk.inj heq
    have hall : ∀ p ∈ basicRefs, 1 ≤ p.1.length := by decide
    have hmatch : (codes p.1).isPrefixOf s = true := by
      have := List.find?_some hp
      exact this
    have hle := (List.isPrefixOf_iff_prefix.mp hmatch).length_le
    rw [codes, List.length_map] at hle
    exact ⟨hall p (List.mem_of_find?_eq_some hp), hle⟩
  basic := by
    intro p hp s
    simp only [basicRefs, List.mem_cons, List.not_mem_nil, or_false] at hp
    rcases hp with rfl | rfl | rfl | rfl | rfl | rfl | rfl <;> rfl

/-- Whether a `<` in front of `s` begins markup. -/
def opensMarkup (s : List ℕ) : Bool :=
  match s with
  | [] => false
  | n :: _ => n == '/'.toNat || n == '!'.toNat || n == '?'.toNat || (Char.ofNat n).isAlpha

/-- The text of a piece of HTML. A NUL is dropped, and an end of line is a line feed. The first `skip`
    code points belong to a reference that has been read. -/
def textFrom (refs : CharRefs) : ℕ → List ℕ → Option (List ℕ)
  | _, [] => some []
  | skip + 1, _ :: s => textFrom refs skip s
  | 0, n :: s =>
    if n = '&'.toNat then
      match refs.read s with
      | some (t, k) => (textFrom refs k s).map (t ++ ·)
      | none => (textFrom refs 0 s).map (n :: ·)
    else if n = '<'.toNat ∧ opensMarkup s then none
    else if n = 0 then textFrom refs 0 s
    else if n = '\r'.toNat then
      if s.head? = some '\n'.toNat then textFrom refs 0 s else (textFrom refs 0 s).map ('\n'.toNat :: ·)
    else (textFrom refs 0 s).map (n :: ·)

/-- The text of a piece of HTML. -/
def text (refs : CharRefs) (s : List ℕ) : Option (List ℕ) := textFrom refs 0 s

/-- The HTML of some text, as `innerHTML` returns it. -/
def serialize (t : List ℕ) : List ℕ :=
  t.flatMap fun n =>
    if n = '&'.toNat then codes ['&', 'a', 'm', 'p', ';']
    else if n = '\u00a0'.toNat then codes ['&', 'n', 'b', 's', 'p', ';']
    else if n = '<'.toNat then codes ['&', 'l', 't', ';']
    else if n = '>'.toNat then codes ['&', 'g', 't', ';']
    else [n]

variable {refs : CharRefs}

theorem textFrom_eq_drop : ∀ (skip : ℕ) (s : List ℕ),
    textFrom refs skip s = textFrom refs 0 (s.drop skip)
  | 0, _ => rfl
  | _ + 1, [] => rfl
  | skip + 1, _ :: s => textFrom_eq_drop skip s

/-- A basic reference is its character. -/
theorem text_basic {p : List Char × Char} (hp : p ∈ basicRefs) (s : List ℕ) :
    text refs (codes ('&' :: p.1) ++ s) = (text refs s).map (p.2.toNat :: ·) := by
  show textFrom refs 0 ('&'.toNat :: (codes p.1 ++ s)) = _
  have hlen : (codes p.1).length = p.1.length := List.length_map _
  simp only [textFrom, if_true, refs.basic p hp s]
  rw [textFrom_eq_drop, ← hlen, List.drop_left]
  rfl

/-- An ordinary code point is itself. -/
theorem text_cons {n : ℕ} (s : List ℕ) (hamp : n ≠ '&'.toNat) (hlt : n ≠ '<'.toNat) (hnul : n ≠ 0)
    (hcr : n ≠ '\r'.toNat) : text refs (n :: s) = (text refs s).map (n :: ·) := by
  rw [text, textFrom, if_neg hamp, if_neg fun h => hlt h.1, if_neg hnul, if_neg hcr]
  rfl

/-- Text survives `innerHTML`. -/
theorem text_serialize : ∀ {t : List ℕ} (s : List ℕ), (∀ n ∈ t, n ≠ 0 ∧ n ≠ '\r'.toNat) →
    text refs (serialize t ++ s) = (text refs s).map (t ++ ·)
  | [], s, _ => by simp [serialize]
  | n :: t, s, h => by
    have ih := text_serialize s fun m hm => h m (List.mem_cons_of_mem _ hm)
    have hn := h n List.mem_cons_self
    have hstep : ∀ l, text refs (l ++ (serialize t ++ s)) =
          (text refs (serialize t ++ s)).map (n :: ·) →
        text refs (l ++ (serialize t ++ s)) = (text refs s).map (n :: t ++ ·) := by
      intro l hl
      rw [hl, ih, Option.map_map]
      rfl
    rw [serialize, List.flatMap_cons, List.append_assoc]
    refine hstep _ ?_
    split_ifs with h1 h2 h3 h4
    · rw [h1]
      exact text_basic (p := (['a', 'm', 'p', ';'], '&')) (by decide) _
    · rw [h2]
      exact text_basic (p := (['n', 'b', 's', 'p', ';'], '\u00a0')) (by decide) _
    · rw [h3]
      exact text_basic (p := (['l', 't', ';'], '<')) (by decide) _
    · rw [h4]
      exact text_basic (p := (['g', 't', ';'], '>')) (by decide) _
    · exact text_cons _ h1 h3 hn.1 hn.2

/-! ### The length of a text -/

/-- A piece of HTML that is made of `n` basic references and single code points other than NUL. -/
inductive Pieces : List ℕ → ℕ → Prop
  | nil : Pieces [] 0
  | nul {v : List ℕ} {n : ℕ} : Pieces v n → Pieces (0 :: v) n
  | unit (u : ℕ) {v : List ℕ} {n : ℕ} : Pieces v n → Pieces (u :: v) (n + 1)
  | ref {p : List Char × Char} {v : List ℕ} {n : ℕ} :
    p ∈ basicRefs → Pieces v n → Pieces (codes ('&' :: p.1) ++ v) (n + 1)

theorem Pieces.append {v w : List ℕ} {m n : ℕ} (hv : Pieces v m) (hw : Pieces w n) :
    Pieces (v ++ w) (m + n) := by
  induction hv with
  | nil => simpa using hw
  | nul _ ih => exact ih.nul
  | unit u _ ih => exact Nat.succ_add_eq_add_succ _ n ▸ (Nat.add_right_comm _ n 1 ▸ ih.unit u)
  | ref hp _ ih =>
    rw [List.append_assoc, Nat.add_right_comm]
    exact ih.ref hp

theorem pieces_serialize : ∀ t : List ℕ, Pieces (serialize t) t.length
  | [] => .nil
  | n :: t => by
    have ih := pieces_serialize t
    rw [serialize, List.flatMap_cons, List.length_cons]
    split_ifs with h1 h2 h3 h4
    · exact ih.ref (p := (['a', 'm', 'p', ';'], '&')) (by decide)
    · exact ih.ref (p := (['n', 'b', 's', 'p', ';'], '\u00a0')) (by decide)
    · exact ih.ref (p := (['l', 't', ';'], '<')) (by decide)
    · exact ih.ref (p := (['g', 't', ';'], '>')) (by decide)
    · exact ih.unit n

/-- Single code points can be taken off. -/
theorem Pieces.drop {v : List ℕ} {n : ℕ} (h : Pieces v n) : ∀ {k : ℕ}, k ≤ v.length →
    (∀ u ∈ v.take k, u ≠ '&'.toNat ∧ u ≠ 0) → ∃ m, Pieces (v.drop k) m ∧ m + k = n := by
  induction h with
  | nil =>
    intro k hk _
    obtain rfl : k = 0 := Nat.le_zero.mp hk
    exact ⟨0, .nil, rfl⟩
  | @nul v n h ih =>
    rintro (- | k) hk hfree
    · exact ⟨n, h.nul, rfl⟩
    · exact absurd rfl (hfree 0 List.mem_cons_self).2
  | @unit u v n h ih =>
    rintro (- | k) hk hfree
    · exact ⟨n + 1, h.unit u, rfl⟩
    · obtain ⟨m, hm, heq⟩ := ih (Nat.le_of_succ_le_succ hk)
        fun x hx => hfree x (List.mem_cons_of_mem _ hx)
      exact ⟨m, hm, by omega⟩
  | @ref p v n hp h ih =>
    rintro (- | k) hk hfree
    · exact ⟨n + 1, h.ref hp, rfl⟩
    · exact absurd rfl (hfree '&'.toNat List.mem_cons_self).1

/-- A text has no more characters than its HTML has pieces. -/
theorem text_length_le : ∀ (k : ℕ) {v t : List ℕ} {n : ℕ}, v.length ≤ k → Pieces v n →
    text refs v = some t → t.length ≤ n
  | 0, v, t, n, hk, _, ht => by
    obtain rfl : v = [] := List.length_eq_zero_iff.mp (Nat.le_zero.mp hk)
    obtain rfl : [] = t := Option.some.inj ht
    exact Nat.zero_le n
  | k + 1, v, t, n, hk, h, ht => by
    cases h with
    | nil =>
      obtain rfl : [] = t := Option.some.inj ht
      exact le_rfl
    | @nul v _ h =>
      have hnext : text refs v = some t := by simpa [text, textFrom] using ht
      exact text_length_le k (Nat.le_of_succ_le_succ hk) h hnext
    | @unit u v n h =>
      have hv : v.length ≤ k := Nat.le_of_succ_le_succ hk
      have hcons : ∀ m, (text refs v).map (m :: ·) = some t → t.length ≤ n + 1 := by
        intro m hm
        obtain ⟨t', ht', rfl⟩ := Option.map_eq_some_iff.mp hm
        exact Nat.succ_le_succ (text_length_le k hv h ht')
      simp only [text, textFrom] at ht
      split_ifs at ht with h1 h2 h3 h4 h5
      · cases hread : refs.read v with
        | none =>
          rw [hread] at ht
          exact hcons _ ht
        | some p =>
          obtain ⟨t', len⟩ := p
          rw [hread] at ht
          obtain ⟨t'', ht'', rfl⟩ := Option.map_eq_some_iff.mp ht
          obtain ⟨hshort, hlen⟩ := refs.short hread
          obtain ⟨m, hm, heq⟩ := h.drop hlen (refs.name hread)
          rw [textFrom_eq_drop] at ht''
          have hdrop : (v.drop len).length ≤ k := by
            rw [List.length_drop]
            omega
          have := text_length_le k hdrop hm ht''
          rw [List.length_append]
          omega
      · exact (text_length_le k hv h ht).trans (Nat.le_succ n)
      · exact (text_length_le k hv h ht).trans (Nat.le_succ n)
      · exact hcons _ ht
      · exact hcons _ ht
    | @ref p v n hp h =>
      rw [text_basic hp] at ht
      obtain ⟨t', ht', rfl⟩ := Option.map_eq_some_iff.mp ht
      have hv : v.length ≤ k := by
        rw [List.length_append, codes, List.map_cons, List.length_cons] at hk
        omega
      exact Nat.succ_le_succ (text_length_le k hv h ht')

/-! ### Script elements -/

/-- `<script>`, and what ends the element. -/
def scriptTag : List Char := ['<', 's', 'c', 'r', 'i', 'p', 't', '>']

def scriptEnd : List Char := ['<', '/', 's', 'c', 'r', 'i', 'p', 't', '>']

/-- The texts of the script elements of a document. The first `skip` characters belong to a tag that has
    been read; `script` is what has been read of an element that has not ended. -/
def scriptsFrom : ℕ → Option (List Char) → List Char → List (List Char)
  | _, _, [] => []
  | skip + 1, script, _ :: s => scriptsFrom skip script s
  | 0, none, c :: s =>
    if scriptTag.isPrefixOf (c :: s) then scriptsFrom 7 (some []) s else scriptsFrom 0 none s
  | 0, some script, c :: s =>
    if scriptEnd.isPrefixOf (c :: s) then script :: scriptsFrom 8 none s
    else scriptsFrom 0 (some (script ++ [c])) s

/-- The texts of the script elements of a document. -/
def scripts (s : List Char) : List (List Char) := scriptsFrom 0 none s

theorem scriptsFrom_eq_drop : ∀ (skip : ℕ) (script : Option (List Char)) (s : List Char),
    scriptsFrom skip script s = scriptsFrom 0 script (s.drop skip)
  | 0, _, _ => rfl
  | _ + 1, _, [] => by simp [scriptsFrom]
  | skip + 1, script, _ :: s => by
    rw [scriptsFrom]
    exact scriptsFrom_eq_drop skip script s

/-- Text without a `<` is no script. -/
theorem scripts_text : ∀ {l : List Char} (s : List Char), '<' ∉ l → scripts (l ++ s) = scripts s
  | [], _, _ => rfl
  | c :: l, s, h => by
    rw [List.mem_cons, not_or] at h
    have hno : scriptTag.isPrefixOf (c :: (l ++ s)) = false := by
      simp [scriptTag, List.isPrefixOf, h.1]
    rw [List.cons_append, scripts, scriptsFrom, hno]
    exact scripts_text s h.2

theorem scriptsFrom_end (script s : List Char) :
    scriptsFrom 0 (some script) (scriptEnd ++ s) = script :: scripts s := by
  have hyes : scriptEnd.isPrefixOf (scriptEnd ++ s) = true :=
    List.isPrefixOf_iff_prefix.2 (List.prefix_append _ _)
  rw [scriptEnd, List.cons_append] at hyes ⊢
  rw [scriptsFrom, scriptEnd, if_pos hyes, scriptsFrom_eq_drop]
  rfl

theorem scriptsFrom_script : ∀ {l : List Char} (script s : List Char), '<' ∉ l →
    scriptsFrom 0 (some script) (l ++ (scriptEnd ++ s)) = (script ++ l) :: scripts s
  | [], script, s, _ => by
    rw [List.nil_append, List.append_nil, scriptsFrom_end]
  | c :: l, script, s, h => by
    rw [List.mem_cons, not_or] at h
    have hno : scriptEnd.isPrefixOf (c :: (l ++ (scriptEnd ++ s))) = false := by
      simp [scriptEnd, List.isPrefixOf, h.1]
    rw [List.cons_append, scriptsFrom, hno, if_neg Bool.false_ne_true, scriptsFrom_script _ _ h.2,
      List.append_assoc, List.singleton_append]

/-- A script element whose text has no `<`. -/
theorem scripts_script {l : List Char} (s : List Char) (h : '<' ∉ l) :
    scripts (scriptTag ++ (l ++ (scriptEnd ++ s))) = l :: scripts s := by
  have hyes : scriptTag.isPrefixOf (scriptTag ++ (l ++ (scriptEnd ++ s))) = true :=
    List.isPrefixOf_iff_prefix.2 (List.prefix_append _ _)
  have hinner := scriptsFrom_script [] s h
  rw [List.nil_append] at hinner
  rw [← hinner]
  generalize l ++ (scriptEnd ++ s) = rest at hyes ⊢
  rw [scriptTag, List.cons_append] at hyes ⊢
  rw [scripts, scriptsFrom, scriptTag, if_pos hyes, scriptsFrom_eq_drop]
  rfl

end NetProg.Html
