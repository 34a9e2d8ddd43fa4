import NetProg.Batch.Model

/-! Batch mode against typing.

    A line that reads no file does nothing to the variables of batch mode, and as long as no program reads
    what the client types, a run of such lines enters the same lines whether they come from the file or
    from the client: `feed`. The two sessions then only differ in what the lines are, and in what follows
    them. -/

namespace NetProg.Batch

open Log

variable {p : Program} {signed : Bool} {w : World} {s : State}

/-! ### One line -/

namespace State

@[simp] theorem halt_entered (s : State) : s.halt.entered = s.entered := rfl

@[simp] theorem halt_halted (s : State) : s.halt.halted = true := rfl

@[simp] theorem load_entered (w : World) (s : State) (args : List Token) :
    (s.load w args).entered = s.entered := by
  cases args with
  | nil => rfl
  | cons name rest =>
    simp only [load]
    split
    · split
      · rfl
      · split <;> rfl
    · rfl

@[simp] theorem execRow_entered (w : World) (s : State) (row : List Token) :
    (s.execRow p w row).entered = s.entered := by
  cases row with
  | nil => rfl
  | cons cmd args =>
    simp only [execRow]
    split_ifs <;> simp

@[simp] theorem execRows_entered (w : World) (rows : List (List Token)) (s : State) :
    (s.execRows p w rows).entered = s.entered := by
  induction rows generalizing s with
  | nil => rfl
  | cons row rest ih =>
    rw [execRows]
    split
    · simp
    · rw [ih, execRow_entered]

/-- Rows that do nothing to the loop but to close the pipes that are due. -/
theorem execRows_goes (w : World) : ∀ {rows : List (List Token)} {s : State}, rowsFate rows = .goes →
    s.halted = false → s.execRows p w rows = { s with past := s.past.reaps p rows }
  | [], _, _, _ => rfl
  | [] :: _, _, h, _ => by cases h
  | (cmd :: args) :: rest, s, h, hs => by
    rw [rowsFate.eq_def] at h
    dsimp only at h
    split_ifs at h with h1 h2
    · cases args with
      | nil => cases h
      | cons name rest' =>
        dsimp only at h
        split_ifs at h
    · have hreaps : s.past.reaps p ((cmd :: args) :: rest) =
          (if builtin p cmd then s.past else s.past.reap).reaps p rest := by
        cases hcmd : builtin p cmd <;> simp [Past.reaps, external, hcmd]
      rw [execRows, execRow, if_neg h1, if_neg h2, hreaps]
      split
      · rw [if_neg (by simp [hs])]
        exact execRows_goes w h hs
      · have hhalted : ({ s with past := s.past.reap } : State).halted = false := hs
        rw [if_neg (by simp [hs])]
        exact execRows_goes w h hhalted

/-- Rows that end the loop. -/
theorem execRows_stops (w : World) : ∀ {rows : List (List Token)} {s : State}, rowsFate rows = .stops →
    (s.execRows p w rows).halted = true
  | [], _, h => by cases h
  | [] :: _, _, _ => by simp [execRows, execRow]
  | (cmd :: args) :: rest, s, h => by
    rw [rowsFate.eq_def] at h
    dsimp only at h
    rw [execRows]
    cases hrow : (s.execRow p w (cmd :: args)).halted with
    | true => simp [hrow]
    | false =>
      simp only [Bool.false_eq_true, if_false]
      refine execRows_stops w ?_
      rw [execRow] at hrow
      split_ifs at h hrow with h1 h2
      · cases hrow
      · cases args with
        | nil => cases hrow
        | cons name rest' =>
          dsimp only at h
          split_ifs at h with hname
          rw [not_and_or, not_not] at hname
          refine hname.resolve_left fun hlen => ?_
          rw [load, if_neg hlen] at hrow
          cases hrow
      · exact h
      · exact h

/-- Rows that read no file. -/
theorem execRows_quiet (w : World) {rows : List (List Token)} {s : State} (hrows : rowsFate rows ≠ .loads)
    (hs : s.halted = false) : (s.execRows p w rows).halted = (s.past.exec p rows).isNone ∧
      ∀ past, s.past.exec p rows = some past → s.execRows p w rows = { s with past := past } := by
  rw [Past.exec]
  cases hfate : rowsFate rows with
  | goes =>
    rw [execRows_goes w hfate hs]
    refine ⟨hs, fun past hpast => ?_⟩
    cases hpast
    rfl
  | stops => exact ⟨execRows_stops w hfate, fun past hpast => by cases hpast⟩
  | loads => exact (hrows hfate).elim

end State

/-! ### One line after another -/

/-- What a line adds to the lines entered. -/
def logged (p : Program) (w : World) (l : List Char) : List (List Char) :=
  if l = [] ∨ p = .multi ∧ w.sprintf l = false then [] else [l]

/-- The lines entered when some lines that read no file are, and what they leave. -/
def feed (p : Program) (w : World) : List (List Char) → Past → List (List Char) × Option Past
  | [], past => ([], some past)
  | l :: ls, past =>
    match past.after p w l with
    | none => (logged p w l, none)
    | some next => (logged p w l ++ (feed p w ls next).1, (feed p w ls next).2)

/-- The state with other lines behind it. -/
def State.put (s : State) (entered : List (List Char)) (past : Past) : State :=
  { s with entered := entered, past := past }

/-- The state `s` after lines with the outcome `r`. -/
structure Fed (r : List (List Char) × Option Past) (s t : State) : Prop where
  entered : t.entered = s.entered ++ r.1
  halted : t.halted = r.2.isNone
  same : ∀ past, r.2 = some past → t = s.put (s.entered ++ r.1) past

/-- A line that reads no file is entered, and then the loop ends or all else is as before. -/
theorem enter_quiet {l : List Char} (hq : nests p l = false) (hs : s.halted = false)
    (hsober : s.past.traced p l = true → ∀ input, w.leaves (s.past.parse p l) input = input)
    (hprint : ¬ (p = .multi ∧ w.sprintf l = false)) (hl : ¬ (p = .multi ∧ l = [])) :
    Fed (logged p w l, s.past.after p w l) s (s.enter p w l) := by
  set t : State := { s with entered := s.entered ++ logged p w l } with ht
  have hstart : (if l = [] then s else { s with entered := s.entered ++ [l] }) = t := by
    rw [ht, logged]
    by_cases hnil : l = []
    · simp [hnil]
    · simp [hnil, hprint]
  have hloads : rowsFate (lineRows p (tokens ' ' l)) ≠ .loads := by simpa [nests] using hq
  -- The rows, after the line is parsed or with nothing to count.
  have hrows : ∀ past : Past, Fed (logged p w l, past.exec p (lineRows p (tokens ' ' l))) s
      (State.execRows p w (lineRows p (tokens ' ' l)) { t with past := past }) := by
    intro past
    obtain ⟨hhalted, hsame⟩ := State.execRows_quiet (p := p) w (s := { t with past := past }) hloads hs
    exact ⟨by simp [ht], hhalted, fun next hnext => hsame next hnext⟩
  rw [State.enter, Past.after, if_neg hprint, if_neg hl]
  simp only [hstart]
  by_cases hblank : p = .multi ∧ tokens ' ' l = []
  · rw [if_pos hblank, if_pos hblank]
    exact ⟨rfl, rfl, fun _ h => by cases h⟩
  · rw [if_neg hblank, if_neg hblank]
    cases htraced : s.past.traced p l with
    | false =>
      simp only [ht, Bool.false_eq_true, if_false]
      exact hrows s.past
    | true =>
      have hleaves : w.leaves (s.past.parse p l) s.input = s.input := hsober htraced _
      simp only [ht, if_true, hleaves]
      cases w.fate (s.past.parse p l) with
      | crashes => exact ⟨rfl, rfl, fun _ h => by cases h⟩
      | refused =>
        cases asks p (tokens ' ' l) with
        | true =>
          refine ⟨rfl, hs, fun next hnext => ?_⟩
          cases hnext
          rfl
        | false => exact hrows _
      | runs => exact hrows _

theorem take_fed {l : List Char} (hq : nests p l = false) (hs : s.halted = false) (hi : s.ignore = false)
    (hsober : s.past.traced p l = true → ∀ input, w.leaves (s.past.parse p l) input = input) :
    Fed (logged p w l, s.past.after p w l) s (s.take p w l) := by
  cases p with
  | simple =>
    simp only [State.take, hi, Bool.false_eq_true, if_false]
    exact enter_quiet hq hs hsober (by simp) (by simp)
  | multi =>
    by_cases hprint : w.sprintf l = false
    · simp only [State.take, hprint, if_true, logged, Past.after, true_and, or_true]
      exact ⟨by simp, rfl, fun _ h => nomatch h⟩
    · by_cases hl : l = []
      · subst hl
        have hsame : { s with ignore := false } = s := by rw [← hi]
        simp only [State.take, hprint, true_or, if_true, logged,
          Past.after, and_self, hsame]
        refine ⟨by simp, hs, fun past hpast => ?_⟩
        cases hpast
        rw [List.append_nil]
        rfl
      · simp only [State.take, hprint, hl, hi, Bool.false_eq_true, if_false, or_self]
        exact enter_quiet hq hs hsober (by simpa using hprint) (by simpa using hl)

/-- Turn by turn, a state supplies some lines, whatever was entered. -/
inductive Supplies (p : Program) (signed : Bool) (w : World) : State → List (List Char) → State → Prop
  | nil (s : State) : Supplies p signed w s [] s
  | cons {s s' s'' : State} {l : List Char} {ls : List (List Char)}
      (source : ∀ h past, State.source p signed w (s.put h past) = some (l, s'.put h past))
      (ready : s.halted = false ∧ s'.halted = false ∧ s'.ignore = false)
      (rest : Supplies p signed w s' ls s'') : Supplies p signed w s (l :: ls) s''

theorem Supplies.of_append {s'' : State} {xs ys : List (List Char)}
    (h : Supplies p signed w s (xs ++ ys) s'') : ∃ s', Supplies p signed w s xs s' := by
  induction xs generalizing s with
  | nil => exact ⟨s, .nil s⟩
  | cons x xs ih =>
    cases h with
    | cons source ready rest =>
      obtain ⟨s', hs'⟩ := ih rest
      exact ⟨s', .cons source ready hs'⟩

/-- Lines that read no file are fed. -/
theorem Supplies.fed {s' : State} {ls : List (List Char)} (hsup : Supplies p signed w s ls s')
    (hq : ∀ l ∈ ls, nests p l = false) (hs : s.halted = false) (h : List (List Char)) (past : Past)
    (hsober : Sober p w ls past) :
    ∃ t, Leads (State.turn p signed w) (s.put h past) t ∧ Fed (feed p w ls past) (s'.put h past) t := by
  induction hsup generalizing h past with
  | nil s =>
    refine ⟨_, .refl _, by simp [feed], hs, fun past' hpast => ?_⟩
    cases hpast
    simp [State.put, feed]
  | @cons s s' s'' l ls source ready rest ih =>
    obtain ⟨hfirst, hnext⟩ := hsober
    have hturn : State.turn p signed w (s.put h past) = State.take p w l (s'.put h past) := by
      have hhalted : (s.put h past).halted = false := hs
      rw [State.turn, source h past, hhalted]
      rfl
    have hone : Fed (logged p w l, past.after p w l) (s'.put h past) (State.take p w l (s'.put h past)) :=
      take_fed (s := s'.put h past) (hq l List.mem_cons_self) ready.2.1 ready.2.2 hfirst
    rw [feed]
    cases hafter : past.after p w l with
    | none =>
      rw [hafter] at hone
      exact ⟨_, .one _, hturn ▸ ⟨hone.entered, hone.halted, fun _ h => by cases h⟩⟩
    | some next =>
      obtain ⟨t, hleads, ht⟩ := ih (fun x hx => hq x (List.mem_cons_of_mem _ hx)) ready.2.1
        (h ++ logged p w l) next (hnext next hafter)
      refine ⟨t, .step ?_, ?_, ht.halted, fun past' hpast => ?_⟩
      · rw [hturn, hone.same next hafter]
        exact hleads
      · rw [ht.entered]
        exact List.append_assoc ..
      · rw [ht.same past' hpast]
        simp [State.put]

/-- The client types. -/
theorem supplies_typed : ∀ (ls rest : List (List Char)) (past : Past),
    Supplies p signed w (.prompt past (ls ++ rest)) (ls.map (typed signed)) (.prompt past rest)
  | [], _, _ => .nil _
  | _ :: ls, rest, past => .cons (fun _ _ => rfl) ⟨rfl, rfl, rfl⟩ (supplies_typed ls rest past)

/-- The shell in batch mode, before the string with index `i`. -/
def State.batching (past : Past) (input commands : List (List Char)) (i : ℕ) : State :=
  { State.prompt past input with batchFlag := true, batchCommand := commands, batchCommandIndex := i }

/-- The next string of the file. -/
theorem source_string {c : List Char} (hflag : s.batchFlag = true)
    (hget : s.batchCommand[s.batchCommandIndex]? = some c) : s.source p signed w =
      some (c.dropLast, { s with batchCommandIndex := s.batchCommandIndex + 1 }) := by
  have hne : s.batchCommand ≠ [] := fun h => by simp [h] at hget
  rw [State.source, if_pos hflag, if_neg hne, hget]

/-- The end of the file. -/
theorem source_end (hflag : s.batchFlag = true) (hne : s.batchCommand ≠ [])
    (hget : s.batchCommand[s.batchCommandIndex]? = none) : s.source p signed w =
      some (s.oldLine p w, { s with
        batchFlag := false, batchCommand := [], batchCommandIndex := 0, ignore := true }) := by
  rw [State.source, if_pos hflag, if_neg hne, hget]

/-- The strings are taken one by one. -/
theorem supplies_batch (input : List (List Char)) : ∀ (cs front back : List (List Char)) (past : Past),
    Supplies p signed w (.batching past input (front ++ cs ++ back) front.length)
      (cs.map List.dropLast) (.batching past input (front ++ cs ++ back) (front.length + cs.length))
  | [], _, _, _ => .nil _
  | c :: cs, front, back, past => by
    have hrest := supplies_batch input cs (front ++ [c]) back past
    rw [List.append_assoc front [c] cs, List.singleton_append, List.length_append, List.length_singleton,
      Nat.add_assoc, Nat.add_comm 1] at hrest
    refine .cons (fun h' past' => ?_) ⟨rfl, rfl, rfl⟩ hrest
    have hget : (front ++ c :: cs ++ back)[front.length]? = some c := by simp
    exact source_string rfl hget

/-- The file is read. -/
theorem supplies_file (f : TextFile) (past : Past) (later : List (List Char)) :
    Supplies p signed w (.batching past later (fgetsAll f.chars) 0) ((fgetsAll f.chars).map List.dropLast)
      (.batching past later (fgetsAll f.chars) (fgetsAll f.chars).length) := by
  simpa using supplies_batch (p := p) (w := w) later (fgetsAll f.chars) [] [] past

/-! ### What feeding depends on -/

theorem reap_waited (past : Past) : past.reap.waited = past.waited := by
  rw [Past.reap]
  split <;> rfl

theorem reaps_waited (rows : List (List Token)) (past : Past) :
    (past.reaps p rows).waited = past.waited := by
  induction rows generalizing past with
  | nil => rfl
  | cons row rest ih =>
    rw [Past.reaps, List.foldl_cons]
    refine (ih _).trans ?_
    split
    · exact reap_waited past
    · rfl

theorem exec_waited {past next : Past} {rows : List (List Token)} (h : past.exec p rows = some next) :
    next.waited = past.waited := by
  rw [Past.exec] at h
  split at h
  · cases h
  · cases h
    exact reaps_waited rows past

theorem lineNumbers_of_isBatch {toks : List Token} (h : isBatch p toks = true) :
    lineNumbers p toks = [] := by
  rcases toks with _ | ⟨cmd, _ | ⟨name, _ | _⟩⟩ <;> simp only [isBatch, Bool.false_eq_true] at h
  obtain ⟨hcmd, hname⟩ : cmd = Server.batchCmd ∧ word p name = true := by simpa using h
  subst hcmd
  have hord : Shell.ordinary name = true := by
    rw [word, Bool.and_eq_true] at hname
    exact hname.1
  have hbang : name.head? ≠ some '!' := by
    intro hhead
    obtain ⟨cs, rfl⟩ := List.head?_eq_some_iff.mp hhead
    cases hord
  have hgreater : name ≠ ['>'] := by
    rintro rfl
    cases hord
  have hcmd : word p Server.batchCmd = true ∧ Server.batchCmd ≠ ['>'] ∧
      Server.batchCmd.head? ≠ some '!' := by cases p <;> decide
  have hmessage : message p [Server.batchCmd, name] = false := by cases p <;> rfl
  simp [lineNumbers, hmessage, numPipeLines, hcmd, hbang, hgreater, hname]

/-- A line that is not traced has no command or is `batch` and a name. -/
theorem not_traced {past : Past} {l : List Char} (hempty : ¬ (p = .multi ∧ l = []))
    (h : past.traced p l = false) :
    past.waited = true ∧ (tokens ' ' l = [] ∨ isBatch p (tokens ' ' l) = true) := by
  rw [Past.traced] at h
  have hmulti : (p == .multi && l == []) = false := by simpa using hempty
  simp only [hmulti, Bool.not_false, Bool.true_and, Bool.not_eq_false', Bool.and_eq_true, Bool.or_eq_true,
    beq_iff_eq] at h
  exact ⟨h.1, h.2.imp_right And.left⟩

/-- It leaves no child. -/
theorem waits_of_not_traced {past : Past} {l : List Char} (hempty : ¬ (p = .multi ∧ l = []))
    (h : past.traced p l = false) : past.waited = true ∧ waits p past.waited l = true := by
  obtain ⟨hwaited, hsmall⟩ := not_traced hempty h
  refine ⟨hwaited, ?_⟩
  rw [waits]
  rcases hsmall with hnil | hbatch
  · have hnone : lineNumbers p [] = [] := by cases p <;> rfl
    simp [hnil, hnone]
  · simp [lineNumbers_of_isBatch hbatch]

/-- A line that is not skipped tells whether a child is left. -/
theorem after_waited {past next : Past} {l : List Char} (h : past.after p w l = some next)
    (hempty : ¬ (p = .multi ∧ l = [])) : next.waited = waits p past.waited l := by
  rw [Past.after] at h
  split at h
  · cases h
  · dsimp only at h
    split at h
    · cases h
    · split at h
      · have hparse : (past.parse p l).waited = waits p past.waited l := rfl
        rw [← hparse]
        split at h
        · cases h
        · split at h
          · cases h
            rfl
          · exact exec_waited h
        · exact exec_waited h
      · rename_i htraced
        obtain ⟨hwaited, hwaits⟩ := waits_of_not_traced hempty (by simpa using htraced)
        rw [exec_waited h, hwaits, hwaited]

/-- An empty line that is left out does nothing. -/
theorem after_left_out {past : Past} (h : p = .multi ∨ past.waited = true) :
    past.after p w [] = some past := by
  have hprint : ¬ (p = .multi ∧ w.sprintf [] = false) := by simp [w.plain [] List.not_mem_nil]
  rw [Past.after, if_neg hprint]
  by_cases hp : p = .multi
  · simp [hp]
  · have hwaited : past.waited = true := h.resolve_left hp
    have htraced : past.traced p [] = false := by simp [Past.traced, tokens, tokensAux, hwaited]
    have hrows : lineRows p [] = [] := by cases p <;> rfl
    simp [hp, htraced, tokens, tokensAux, hrows, Past.exec, rowsFate, Past.reaps]

theorem logged_nil : logged p w [] = [] := by simp [logged]

/-- The lines left out are not entered. -/
theorem feed_effective (ls : List (List Char)) (past : Past) :
    feed p w (effective p past.waited ls) past = feed p w ls past := by
  induction ls generalizing past with
  | nil => rfl
  | cons l ls ih =>
    rw [effective]
    by_cases hout : l = [] ∧ (p = .multi ∨ past.waited = true)
    · obtain ⟨rfl, hout⟩ := hout
      rw [if_pos ⟨rfl, hout⟩, ih past, feed, after_left_out hout, logged_nil]
      rfl
    · have hempty : ¬ (p = .multi ∧ l = []) := fun h => hout ⟨h.2, Or.inl h.1⟩
      rw [if_neg hout, feed, feed]
      cases hafter : past.after p w l with
      | none => rfl
      | some next =>
        have hnext := ih next
        rw [after_waited hafter hempty] at hnext
        simp only [hnext]

/-- The programs of the lines left out read nothing. -/
theorem sober_effective {ls : List (List Char)} {past : Past} :
    Sober p w (effective p past.waited ls) past ↔ Sober p w ls past := by
  induction ls generalizing past with
  | nil => exact Iff.rfl
  | cons l ls ih =>
    rw [effective]
    by_cases hout : l = [] ∧ (p = .multi ∨ past.waited = true)
    · obtain ⟨rfl, hout⟩ := hout
      have htraced : past.traced p [] = false := by
        rcases hout with rfl | hwaited <;> simp [Past.traced, tokens, tokensAux, *]
      rw [if_pos ⟨rfl, hout⟩, ih, Sober, htraced, after_left_out hout]
      simp
    · have hempty : ¬ (p = .multi ∧ l = []) := fun h => hout ⟨h.2, Or.inl h.1⟩
      rw [if_neg hout, Sober, Sober]
      refine and_congr_right fun _ => forall_congr' fun next => forall_congr' fun hafter => ?_
      rw [← after_waited hafter hempty]
      exact ih

theorem feed_append (ls ms : List (List Char)) (past : Past) :
    feed p w (ls ++ ms) past = match (feed p w ls past).2 with
      | none => feed p w ls past
      | some next => ((feed p w ls past).1 ++ (feed p w ms next).1, (feed p w ms next).2) := by
  induction ls generalizing past with
  | nil => rfl
  | cons l ls ih =>
    rw [List.cons_append, feed, feed]
    cases past.after p w l with
    | none => rfl
    | some next =>
      simp only [ih]
      cases hlast : (feed p w ls next).2 with
      | none => simp [hlast]
      | some last => simp

theorem Sober.of_append {ls ms : List (List Char)} {past : Past} (h : Sober p w (ls ++ ms) past) :
    Sober p w ls past := by
  induction ls generalizing past with
  | nil => trivial
  | cons l ls ih => exact ⟨h.1, fun next hnext => ih (h.2 next hnext)⟩

/-- A line that ends the session does so in every world. -/
theorem after_ends {l : List Char} (past : Past) (hl : l ≠ []) (he : ends p l = true) :
    past.after p w l = none := by
  rw [Past.after]
  split
  · rfl
  · rw [if_neg fun h => hl h.2]
    dsimp only
    split
    · rfl
    · rename_i hblank
      obtain ⟨hstop, hask⟩ : rowsFate (lineRows p (tokens ' ' l)) = .stops ∧
          asks p (tokens ' ' l) = false := by
        rw [ends, Bool.or_eq_true, Bool.and_eq_true, Bool.and_eq_true] at he
        simpa using he.resolve_left fun h => hblank (by simpa using h)
      have hexec : ∀ past : Past, past.exec p (lineRows p (tokens ' ' l)) = none :=
        fun past => by rw [Past.exec, if_pos hstop]
      split
      · cases w.fate (past.parse p l) <;> simp [hask, hexec]
      · exact hexec _

theorem feed_ends {l : List Char} (hl : l ≠ []) (he : ends p l = true) (ls : List (List Char))
    (past : Past) : (feed p w (ls ++ [l]) past).2 = none := by
  rw [feed_append]
  cases hend : (feed p w ls past).2 with
  | none => exact hend
  | some next => simp [feed, after_ends next hl he]

end NetProg.Batch
