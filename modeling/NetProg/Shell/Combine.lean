import NetProg.Shell.Schedule

/-! Combining the tokens of a well-formed line gives its commands back as the rows of `process`,
    and the suffix acts once, after the last row. -/

namespace NetProg.Shell

/-- A command of any length: its words are ordinary. -/
def Words (c : List Token) : Prop := c ≠ [] ∧ ∀ t ∈ c, ordinary t = true

instance (c : List Token) : Decidable (Words c) := inferInstanceAs (Decidable (_ ∧ _))

/-- What the suffix of a line does to the variables. -/
def applySuffix (opens : Opens) (p : Parsed) : Suffix → Option Parsed
  | .none => some p
  | .pipe ds => some (p.pipeOut false (atoi ds))
  | .shock ds => some (p.pipeOut true (atoi ds))
  | .file name => (p.vars.createFile opens name).map fun v => { p with vars := v }

theorem mem_joinCmds {t : Token} : ∀ {cmds : List (List Token)}, t ∈ joinCmds cmds →
    t = ['|'] ∨ ∃ c ∈ cmds, t ∈ c
  | [], h => by simp [joinCmds] at h
  | [c], h => Or.inr ⟨c, by simp, h⟩
  | c :: c' :: cmds, h => by
    rw [joinCmds, List.mem_append, List.mem_cons] at h
    · rcases h with h | rfl | h
      · exact Or.inr ⟨c, List.mem_cons_self .., h⟩
      · exact Or.inl rfl
      · exact (mem_joinCmds h).imp_right fun ⟨x, hx, ht⟩ => ⟨x, List.mem_cons_of_mem _ hx, ht⟩
    · simp

theorem combine_ordinary_cons (opens : Opens) {tok : Token} (rest cur : List Token) (p : Parsed)
    (h : ordinary tok = true) :
    combine opens (tok :: rest) cur p = combine opens rest (cur ++ [tok]) p := by
  rw [combine.eq_def]
  simp only [h, if_true]

/-- The `|` after a command closes its row. -/
theorem combine_bar (opens : Opens) (rest cur : List Token) (p : Parsed) :
    combine opens (['|'] :: rest) cur p = combine opens rest [] (p.push cur) := by
  rw [combine.eq_def]
  rfl

theorem combine_ordinary (opens : Opens) : ∀ (c rest cur : List Token) (p : Parsed),
    (∀ t ∈ c, ordinary t = true) → combine opens (c ++ rest) cur p = combine opens rest (cur ++ c) p
  | [], rest, cur, p, _ => by simp
  | t :: c, rest, cur, p, h => by
    have ht : ordinary t = true := h t (by simp)
    rw [List.cons_append, combine_ordinary_cons opens _ _ _ ht,
      combine_ordinary opens c rest (cur ++ [t]) p (fun x hx => h x (List.mem_cons_of_mem _ hx))]
    simp

theorem combine_joinCmds (opens : Opens) : ∀ (cmds : List (List Token)) (last suf : List Token)
    (p : Parsed), (∀ c ∈ cmds ++ [last], ∀ t ∈ c, ordinary t = true) →
    combine opens (joinCmds (cmds ++ [last]) ++ suf) [] p =
      combine opens suf last { p with process := p.process ++ cmds }
  | [], last, suf, p, h => by
    rw [List.nil_append, joinCmds, combine_ordinary opens last suf [] p (h last (by simp))]
    simp
  | c :: cmds, last, suf, p, h => by
    have hj : joinCmds (c :: cmds ++ [last]) = c ++ ['|'] :: joinCmds (cmds ++ [last]) := by
      cases cmds <;> rfl
    have hc : ∀ t ∈ c, ordinary t = true := h c (by simp)
    rw [hj, List.append_assoc, combine_ordinary opens c _ [] p hc, List.nil_append,
      List.cons_append, combine_bar,
      combine_joinCmds opens cmds last suf _ (fun x hx => h x (List.mem_cons_of_mem _ hx))]
    simp [Parsed.push]

theorem combine_number (opens : Opens) (shock : Bool) {ds : List Char} (cur : List Token)
    (p : Parsed) (h : Numeral ds) :
    combine opens [(if shock then '!' else '|') :: ds] cur p =
      .ok ((p.push cur).pipeOut shock (atoi ds)) := by
  obtain ⟨c, cs, hds⟩ := List.exists_cons_of_ne_nil h.1
  cases shock with
  | true =>
    have htok : strtok '!' ('!' :: ds) = some ds := strtok_cons h.1 (h.not_mem (by decide))
    simp [combine, ordinary, htok]
  | false =>
    have htok : strtok '|' ('|' :: ds) = some ds := strtok_cons h.1 (h.not_mem (by decide))
    have hne : ds ≠ [] := h.1
    simp [combine, ordinary, htok, hne]

/-- Combining the tokens of a line of ordinary words: its commands, then its suffix. -/
theorem combine_words (opens : Opens) {l : Pipeline} (p : Parsed)
    (h : l.Ok fun c => c ≠ [] ∧ ∀ t ∈ c, ordinary t = true) :
    combine opens l.tokens [] p =
      match applySuffix opens { p with process := p.process ++ l.cmds } l.suffix with
      | some q => .ok q
      | none => .error .crashed := by
  obtain ⟨cmds, last, hl⟩ : ∃ cmds last, l.cmds = cmds ++ [last] :=
    ⟨_, _, (List.dropLast_append_getLast h.cmds_ne).symm⟩
  have hord : ∀ c ∈ cmds ++ [last], ∀ t ∈ c, ordinary t = true := by
    intro c hc
    exact (h.cmds_ok c (hl ▸ hc)).2
  have hlast : last ≠ [] := (h.cmds_ok last (by simp [hl])).1
  have hpush : ({ p with process := p.process ++ cmds } : Parsed).push last =
      { p with process := p.process ++ l.cmds } := by
    simp [Parsed.push, hl]
  have hs := h.suffix_ok
  rw [Pipeline.tokens, hl, combine_joinCmds opens cmds last _ p hord, ← hl]
  cases hsuf : l.suffix with
  | none => simp [Suffix.tokens, combine, hlast, applySuffix, hpush]
  | pipe ds =>
    rw [hsuf] at hs
    have := combine_number opens false last { p with process := p.process ++ cmds } hs.1
    simpa [Suffix.tokens, applySuffix, hpush] using this
  | shock ds =>
    rw [hsuf] at hs
    have := combine_number opens true last { p with process := p.process ++ cmds } hs.1
    simpa [Suffix.tokens, applySuffix, hpush] using this
  | file name =>
    simp only [Suffix.tokens, applySuffix, combine, ordinary]
    cases hcf : p.vars.createFile opens name with
    | none => simp
    | some v => simp [hpush]

theorem combine_tokens {kind : List Token → Prop} (hkind : ∀ c, kind c → Command c)
    (opens : Opens) {l : Pipeline} (h : l.Ok kind) (p : Parsed) :
    combine opens l.tokens [] p =
      match applySuffix opens { p with process := p.process ++ l.cmds } l.suffix with
      | some q => .ok q
      | none => .error .crashed :=
  combine_words opens p
    ⟨h.cmds_ne, fun c hc => ⟨(hkind c (h.cmds_ok c hc)).1, (hkind c (h.cmds_ok c hc)).2.2.1⟩,
      h.suffix_ok⟩

end NetProg.Shell
