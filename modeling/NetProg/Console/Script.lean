import NetProg.Console.Model
import NetProg.Lib.Html
import NetProg.Lib.JavaScript

/-! What the scripts of the console show.

    `encode` knows the characters that mean something in HTML. The text then stands in a string literal
    of a script, where a backslash means something too, and `encode` leaves it as it is. -/

namespace NetProg.Console

open Html JavaScript

/-- The text of a byte string: the string without carriage returns. -/
def shownText (s : List Char) : List ℕ := codes (s.filter (· != '\r'))

/-- The value that the assignment in a statement adds to the pane, when the statement is one assignment
    of a string literal and nothing more. -/
def assigned (id stmt : List Char) : Option (List ℕ) :=
  if (opening id ++ ['"']).isPrefixOf stmt then
    match readString (stmt.drop (opening id ++ ['"']).length) with
    | some (v, rest) => if rest = closing then some v else none
    | none => none
  else none

/-- Whether the statement for a byte string is complete and shows just this string. -/
def Shown (refs : CharRefs) (id s : List Char) : Prop :=
  ∃ v, assigned id (statement id (encode s)) = some v ∧ text refs v = some (shownText s)

/-- The text of the pane after the statement for one more byte string. A statement that cannot be read
    is not executed; where markup begins the pane has no plain text any more. -/
def addToPane (refs : CharRefs) (id : List Char) (pane : List ℕ) (s : List Char) : Option (List ℕ) :=
  match assigned id (statement id (encode s)) with
  | some v => text refs (serialize pane ++ v)
  | none => some pane

/-- A byte string without a backslash and without a NUL. -/
def Clean (s : List Char) : Prop := ∀ c ∈ s, c ≠ '\\' ∧ c ≠ '\x00'

instance (s : List Char) : Decidable (Clean s) :=
  decidable_of_iff (s.all fun c => c != '\\' && c != '\x00') (by simp [Clean])

/-! ### One character -/

/-- What one character becomes. -/
def written (c : Char) : List Char := if c = '\n' then newLine else encodeChar c

theorem replaceAll_append (c : Char) (new s t : List Char) :
    replaceAll c new (s ++ t) = replaceAll c new s ++ replaceAll c new t := List.flatMap_append ..

theorem quoted_encode : ∀ s : List Char,
    quoted (encode s) = (s.filter (· != '\r')).flatMap written
  | [] => rfl
  | c :: s => by
    have ih := quoted_encode s
    have hone : quoted (encodeChar c) = if c = '\r' then [] else written c := by
      by_cases hlf : c = '\n'
      · subst hlf
        rfl
      · by_cases hcr : c = '\r'
        · subst hcr
          rfl
        · rw [if_neg hcr, written, if_neg hlf]
          unfold encodeChar
          split <;> first | rfl | simp [quoted, replaceAll, hlf, hcr]
    have hcons : quoted (encode (c :: s)) = quoted (encodeChar c) ++ quoted (encode s) := by
      rw [quoted, encode, List.flatMap_cons, replaceAll_append, replaceAll_append]
      rfl
    rw [hcons, ih, hone]
    by_cases hcr : c = '\r' <;> simp [hcr]

/-- A character is written as a reference or as itself, and then it means nothing in HTML, nor to the
    literal unless it is a backslash. -/
theorem written_cases {c : Char} (hcr : c ≠ '\r') :
    (∃ name, (name, c) ∈ basicRefs ∧ written c = '&' :: name) ∨
      (written c = [c] ∧ c ≠ '&' ∧ c ≠ '<' ∧ (c ≠ '\\' → plain c = true)) := by
  unfold written encodeChar
  split_ifs with hlf
  · exact Or.inl ⟨['N', 'e', 'w', 'L', 'i', 'n', 'e', ';'], by rw [hlf]; decide, rfl⟩
  · split
    · exact Or.inl ⟨['a', 'm', 'p', ';'], by decide, rfl⟩
    · exact Or.inl ⟨['q', 'u', 'o', 't', ';'], by decide, rfl⟩
    · exact Or.inl ⟨['a', 'p', 'o', 's', ';'], by decide, rfl⟩
    · exact Or.inl ⟨['l', 't', ';'], by decide, rfl⟩
    · exact Or.inl ⟨['g', 't', ';'], by decide, rfl⟩
    · rename_i hamp hquote _ hlt _
      have hq : c ≠ '"' := hquote
      exact Or.inr ⟨rfl, hamp, hlt, fun hback => by simp [plain, hq, hlf, hcr, hback]⟩

theorem plain_ref {p : List Char × Char} (hp : p ∈ basicRefs) : ∀ c ∈ '&' :: p.1, plain c = true := by
  have hall : basicRefs.all (fun p => ('&' :: p.1).all plain) = true := by decide
  exact List.all_eq_true.1 (List.all_eq_true.1 hall p hp)

/-! ### The literal -/

/-- The rest of the literal for some characters. -/
def literal (cs : List Char) : List Char := cs.flatMap written ++ '"' :: closing

theorem assigned_statement (id s : List Char) : assigned id (statement id (encode s)) =
    match readString (literal (s.filter (· != '\r'))) with
    | some (v, rest) => if rest = closing then some v else none
    | none => none := by
  have hsplit : statement id (encode s) =
      (opening id ++ ['"']) ++ literal (s.filter (· != '\r')) := by
    rw [statement, quoted_encode, literal]
    simp
  rw [assigned, hsplit, if_pos (by simp), List.drop_left]

theorem literal_cons (c : Char) (cs : List Char) : literal (c :: cs) = written c ++ literal cs := by
  rw [literal, literal, List.flatMap_cons, List.append_assoc]

/-- Characters that an escape takes are characters of the text. -/
theorem literal_drop : ∀ (k : ℕ) (cs : List Char), (∀ c ∈ cs, c ≠ '\r') →
    (∀ x ∈ (literal cs).take k, inEscape x = true) → k ≤ cs.length ∧
      (literal cs).drop k = literal (cs.drop k)
  | 0, _, _, _ => ⟨Nat.zero_le _, rfl⟩
  | k + 1, [], _, h => absurd (h '"' List.mem_cons_self) (by decide)
  | k + 1, c :: cs, hcr, h => by
    rcases written_cases (hcr c List.mem_cons_self) with ⟨name, -, hw⟩ | ⟨hw, -⟩
    · rw [literal_cons, hw] at h
      exact absurd (h '&' List.mem_cons_self) (by decide)
    · rw [literal_cons, hw] at h ⊢
      obtain ⟨hle, hdrop⟩ := literal_drop k cs (fun d hd => hcr d (List.mem_cons_of_mem _ hd))
        fun x hx => h x (List.mem_cons_of_mem _ hx)
      exact ⟨Nat.succ_le_succ hle, hdrop⟩

/-- The value of a literal has at most as many pieces as the text has characters, and fewer when there
    is a backslash or a NUL. -/
theorem literal_pieces : ∀ (k : ℕ) {cs : List Char} {v : List ℕ}, cs.length ≤ k →
    (∀ c ∈ cs, c ≠ '\r') → readString (literal cs) = some (v, closing) →
    ∃ n, Pieces v n ∧ n ≤ cs.length ∧ (¬ Clean cs → n < cs.length)
  | _, [], v, _, _, h => by
    obtain ⟨rfl, -⟩ := Prod.mk.inj (Option.some.inj h)
    exact ⟨0, .nil, le_rfl, fun hclean => absurd (by simp [Clean]) hclean⟩
  | 0, _ :: _, _, hk, _, _ => absurd hk (by simp)
  | k + 1, c :: cs, v, hk, hcr, h => by
    have hcr' : ∀ d ∈ cs, d ≠ '\r' := fun d hd => hcr d (List.mem_cons_of_mem _ hd)
    have hlen : cs.length ≤ k := Nat.le_of_succ_le_succ hk
    have hclean : c ≠ '\\' → c ≠ '\x00' → ¬ Clean (c :: cs) → ¬ Clean cs := by
      intro hback hnul hno hyes
      refine hno fun d hd => ?_
      rcases List.mem_cons.mp hd with rfl | hd
      · exact ⟨hback, hnul⟩
      · exact hyes d hd
    rw [literal_cons] at h
    rcases written_cases (hcr c List.mem_cons_self) with ⟨name, hp, hw⟩ | ⟨hw, hamp, hlt, hplain⟩
    · rw [hw, readString_append _ (plain_ref hp)] at h
      obtain ⟨⟨v', rest⟩, hv', heq⟩ := Option.map_eq_some_iff.mp h
      obtain ⟨rfl, rfl⟩ := Prod.mk.inj heq
      obtain ⟨n, hn, hle, hlt⟩ := literal_pieces k hlen hcr' hv'
      have hne : c ≠ '\\' ∧ c ≠ '\x00' := by
        have hall : ∀ p ∈ basicRefs, p.2 ≠ '\\' ∧ p.2 ≠ '\x00' := by decide
        exact hall _ hp
      exact ⟨n + 1, hn.ref hp, Nat.succ_le_succ hle,
        fun hno => Nat.succ_lt_succ (hlt (hclean hne.1 hne.2 hno))⟩
    · rw [hw] at h
      by_cases hback : c = '\\'
      · subst hback
        -- the backslash takes the quote, a reference, or some characters
        cases cs with
        | nil =>
          have hnone : readString (['\\'] ++ literal []) = none := rfl
          rw [hnone] at h
          cases h
        | cons d ds =>
          have hds : ds.length ≤ k := Nat.le_of_succ_le hlen
          have hcrd : ∀ e ∈ ds, e ≠ '\r' := fun e he => hcr' e (List.mem_cons_of_mem _ he)
          rw [literal_cons] at h
          rcases written_cases (hcr' d List.mem_cons_self) with ⟨name, hp, hw'⟩ | ⟨hw', -⟩
          · rw [hw'] at h
            have hamp : escapeTail '&' (name ++ literal ds) = some (['&'.toNat], 0) := rfl
            have hname := fun x hx => plain_ref hp x (List.mem_cons_of_mem _ hx)
            rw [List.singleton_append, List.cons_append, readString_escape, hamp, Option.bind_some,
              List.drop_zero, readString_append _ hname, Option.map_map] at h
            obtain ⟨⟨v', rest⟩, hv', heq⟩ := Option.map_eq_some_iff.mp h
            obtain ⟨rfl, rfl⟩ := Prod.mk.inj heq
            obtain ⟨n, hn, hle, -⟩ := literal_pieces k hds hcrd hv'
            exact ⟨n + 1, hn.ref hp, by simp only [List.length_cons]; omega,
              fun _ => by simp only [List.length_cons]; omega⟩
          · rw [hw', List.singleton_append, List.singleton_append, readString_escape] at h
            obtain ⟨⟨u, m⟩, hu, h⟩ := Option.bind_eq_some_iff.mp h
            obtain ⟨hone, htaken⟩ := escapeTail_taken hu
            obtain ⟨hm, hdrop⟩ := literal_drop m ds hcrd htaken
            rw [hdrop] at h
            obtain ⟨⟨v', rest⟩, hv', heq⟩ := Option.map_eq_some_iff.mp h
            obtain ⟨rfl, rfl⟩ := Prod.mk.inj heq
            have hlen' : (ds.drop m).length ≤ k := by
              rw [List.length_drop]
              omega
            obtain ⟨n, hn, hle, -⟩ := literal_pieces k hlen'
              (fun e he => hcrd e (List.mem_of_mem_drop he)) hv'
            rw [List.length_drop] at hle
            have hu' : Pieces u u.length := by
              rcases u with - | ⟨x, - | ⟨y, u⟩⟩
              · exact .nil
              · exact .unit x .nil
              · simp at hone
            exact ⟨u.length + n, hu'.append hn, by simp only [List.length_cons]; omega,
              fun _ => by simp only [List.length_cons]; omega⟩
      · have hone : ∀ x ∈ [c], plain x = true := by simpa using hplain hback
        rw [readString_append _ hone] at h
        obtain ⟨⟨v', rest⟩, hv', heq⟩ := Option.map_eq_some_iff.mp h
        obtain ⟨rfl, rfl⟩ := Prod.mk.inj heq
        obtain ⟨n, hn, hle, hlt⟩ := literal_pieces k hlen hcr' hv'
        by_cases hnul : c = '\x00'
        · subst hnul
          exact ⟨n, hn.nul, Nat.le_succ_of_le hle, fun _ => Nat.lt_succ_of_le hle⟩
        · exact ⟨n + 1, hn.unit _, Nat.succ_le_succ hle,
            fun hno => Nat.succ_lt_succ (hlt (hclean hback hnul hno))⟩

/-- Without a backslash the literal ends where it should, and without a NUL its text is the string. -/
theorem literal_clean (refs : CharRefs) : ∀ {cs : List Char}, (∀ c ∈ cs, c ≠ '\r') → Clean cs →
    ∃ v, readString (literal cs) = some (v, closing) ∧ text refs v = some (codes cs)
  | [], _, _ => ⟨[], rfl, rfl⟩
  | c :: cs, hcr, hclean => by
    obtain ⟨v, hv, ht⟩ := literal_clean refs (fun d hd => hcr d (List.mem_cons_of_mem _ hd))
      fun d hd => hclean d (List.mem_cons_of_mem _ hd)
    obtain ⟨hback, hnul⟩ := hclean c List.mem_cons_self
    rw [literal_cons]
    rcases written_cases (hcr c List.mem_cons_self) with ⟨name, hp, hw⟩ | ⟨hw, hamp, hlt, hplain⟩
    · rw [hw, readString_append _ (plain_ref hp), hv]
      exact ⟨_, rfl, by rw [← codes, text_basic hp, ht]; rfl⟩
    · have hone : ∀ x ∈ [c], plain x = true := by simpa using hplain hback
      have hinj : ∀ {d : Char}, c ≠ d → c.toNat ≠ d.toNat := fun hne heq =>
        hne (Char.ext (UInt32.toNat_inj.mp heq))
      rw [hw, readString_append _ hone, hv]
      exact ⟨_, rfl, by
        rw [List.map_singleton, List.singleton_append, text_cons _ (hinj hamp) (hinj hlt) (hinj hnul)
          (hinj (hcr c List.mem_cons_self)), ht]
        rfl⟩

/-! ### The pane -/

theorem clean_filter (s : List Char) : Clean (s.filter (· != '\r')) ↔ Clean s := by
  constructor
  · intro h c hc
    by_cases hcr : c = '\r'
    · subst hcr
      decide
    · exact h c (List.mem_filter.mpr ⟨hc, by simpa using hcr⟩)
  · exact fun h c hc => h c (List.mem_of_mem_filter hc)

theorem ne_cr_of_mem_filter (s : List Char) : ∀ c ∈ s.filter (· != '\r'), c ≠ '\r' := by
  intro c hc
  simpa using (List.mem_filter.mp hc).2

theorem assigned_eq_some_iff {id s : List Char} {v : List ℕ} :
    assigned id (statement id (encode s)) = some v ↔
      readString (literal (s.filter (· != '\r'))) = some (v, closing) := by
  rw [assigned_statement]
  cases readString (literal (s.filter (· != '\r'))) with
  | none => simp
  | some p =>
    obtain ⟨w, rest⟩ := p
    by_cases hrest : rest = closing <;> simp [hrest]

/-- What one more statement adds is not longer than its byte string, and shorter when this has a
    backslash or a NUL. -/
theorem addToPane_length {refs : CharRefs} {id s : List Char} {pane pane' : List ℕ}
    (h : addToPane refs id pane s = some pane') :
    pane'.length ≤ pane.length + (shownText s).length ∧
      (¬ Clean s → pane'.length < pane.length + (shownText s).length) := by
  have hlen : (shownText s).length = (s.filter (· != '\r')).length := List.length_map _
  rw [← clean_filter, hlen]
  unfold addToPane at h
  cases hv : assigned id (statement id (encode s)) with
  | none =>
    rw [hv] at h
    obtain rfl := Option.some.inj h
    refine ⟨Nat.le_add_right _ _, fun hno => Nat.lt_add_of_pos_right ?_⟩
    rw [List.length_pos_iff]
    intro hnil
    rw [hnil] at hno
    exact hno (by simp [Clean])
  | some v =>
    rw [hv] at h
    obtain ⟨n, hn, hle, hlt⟩ := literal_pieces _ le_rfl (ne_cr_of_mem_filter s)
      (assigned_eq_some_iff.mp hv)
    have := text_length_le _ le_rfl ((pieces_serialize pane).append hn) h
    exact ⟨by omega, fun hno => by have := hlt hno; omega⟩

theorem addToPane_clean (refs : CharRefs) (id : List Char) {s : List Char} {pane : List ℕ}
    (hs : Clean s) (hpane : ∀ n ∈ pane, n ≠ 0 ∧ n ≠ '\r'.toNat) :
    addToPane refs id pane s = some (pane ++ shownText s) := by
  obtain ⟨v, hv, ht⟩ := literal_clean refs (ne_cr_of_mem_filter s) ((clean_filter s).mpr hs)
  rw [addToPane, assigned_eq_some_iff.mpr hv]
  simp only
  rw [text_serialize v hpane, ht]
  rfl

theorem shownText_ne {s : List Char} (hs : Clean s) : ∀ n ∈ shownText s, n ≠ 0 ∧ n ≠ '\r'.toNat := by
  intro n hn
  obtain ⟨c, hc, rfl⟩ := List.mem_map.mp hn
  have hinj : ∀ {d : Char}, c ≠ d → c.toNat ≠ d.toNat := fun hne heq =>
    hne (Char.ext (UInt32.toNat_inj.mp heq))
  exact ⟨hinj (hs c (List.mem_of_mem_filter hc)).2, hinj (ne_cr_of_mem_filter s c hc)⟩

theorem pane_clean (refs : CharRefs) (id : List Char) : ∀ (ss : List (List Char)) (pane : List ℕ),
    (∀ s ∈ ss, Clean s) → (∀ n ∈ pane, n ≠ 0 ∧ n ≠ '\r'.toNat) →
    ss.foldlM (addToPane refs id) pane = some (pane ++ ss.flatMap shownText)
  | [], pane, _, _ => by simp
  | s :: ss, pane, hss, hpane => by
    have hs := hss s List.mem_cons_self
    rw [List.foldlM_cons, addToPane_clean refs id hs hpane]
    have ih := pane_clean refs id ss (pane ++ shownText s)
      (fun t ht => hss t (List.mem_cons_of_mem _ ht)) fun n hn =>
        (List.mem_append.mp hn).elim (hpane n) (shownText_ne hs n)
    rw [List.append_assoc] at ih
    exact ih

theorem pane_length (refs : CharRefs) (id : List Char) :
    ∀ (ss : List (List Char)) {pane pane' : List ℕ},
    ss.foldlM (addToPane refs id) pane = some pane' →
    pane'.length ≤ pane.length + (ss.flatMap shownText).length ∧
      ((∃ s ∈ ss, ¬ Clean s) → pane'.length < pane.length + (ss.flatMap shownText).length)
  | [], pane, pane', h => by
    obtain rfl := Option.some.inj h
    simp
  | s :: ss, pane, pane', h => by
    obtain ⟨mid, hmid, h⟩ := Option.bind_eq_some_iff.mp h
    obtain ⟨hle, hlt⟩ := addToPane_length hmid
    obtain ⟨hle', hlt'⟩ := pane_length refs id ss h
    rw [List.flatMap_cons, List.length_append]
    refine ⟨by omega, ?_⟩
    rintro ⟨t, ht, hno⟩
    rcases List.mem_cons.mp ht with rfl | ht
    · have := hlt hno
      omega
    · have := hlt' ⟨t, ht, hno⟩
      omega

/-- A statement is complete and shows its byte string exactly when there is no backslash and no NUL in
    it, and the pane shows some byte strings one after the other exactly when all of them are such. -/
theorem shown_iff (refs : CharRefs) (id : List Char) :
    (∀ s, Shown refs id s ↔ Clean s) ∧ ∀ ss : List (List Char),
      ss.foldlM (addToPane refs id) [] = some (ss.flatMap shownText) ↔ ∀ s ∈ ss, Clean s := by
  have hmany : ∀ ss : List (List Char),
      ss.foldlM (addToPane refs id) [] = some (ss.flatMap shownText) ↔ ∀ s ∈ ss, Clean s := by
    refine fun ss => ⟨fun h s hs => ?_, fun h => pane_clean refs id ss [] h (by simp)⟩
    by_contra hno
    have := (pane_length refs id ss h).2 ⟨s, hs, hno⟩
    simp at this
  refine ⟨fun s => ⟨fun h => ?_, fun h => ?_⟩, hmany⟩
  · obtain ⟨v, hv, ht⟩ := h
    obtain ⟨n, hn, hle, hlt⟩ := literal_pieces _ le_rfl (ne_cr_of_mem_filter s)
      (assigned_eq_some_iff.mp hv)
    rw [← clean_filter]
    by_contra hno
    have hlen := text_length_le _ le_rfl hn ht
    rw [shownText, codes, List.length_map] at hlen
    have := hlt hno
    omega
  · obtain ⟨v, hv, ht⟩ := literal_clean refs (ne_cr_of_mem_filter s) ((clean_filter s).mpr h)
    exact ⟨v, assigned_eq_some_iff.mpr hv, ht⟩

/-- With the references that `encode` writes. -/
theorem shown_iff_basic : (∀ s, Shown basicTable ['s', '0'] s ↔ Clean s) ∧
    ∀ ss : List (List Char), ss.foldlM (addToPane basicTable ['s', '0']) [] =
      some (ss.flatMap shownText) ↔ ∀ s ∈ ss, Clean s :=
  shown_iff basicTable ['s', '0']

/-- The statement for a string that ends in a backslash is no statement at all. -/
theorem not_shown_backslash : ¬ Shown basicTable ['s', '0'] ['a', '\\'] := by
  rintro ⟨v, hv, -⟩
  have hnone : assigned ['s', '0'] (statement ['s', '0'] (encode ['a', '\\'])) = none := by decide
  rw [hnone] at hv
  cases hv

end NetProg.Console
