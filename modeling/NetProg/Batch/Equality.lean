import NetProg.Batch.Typing

/-! When `batch` does what typing does. -/

namespace NetProg.Batch

open Log
open Server (batchCmd)

variable {p : Program} {signed : Bool} {w : World} {s : State}

/-! ### The log

    What was entered does not matter to a turn, which adds the same lines to any log. -/

theorem execRows_frame (w : World) (rows : List (List Token)) (s : State) (h : List (List Char)) :
    State.execRows p w rows { s with entered := h } = { s.execRows p w rows with entered := h } := by
  have hrow : ∀ (s : State) (row : List Token),
      State.execRow p w { s with entered := h } row = { s.execRow p w row with entered := h } := by
    intro s row
    cases row with
    | nil => rfl
    | cons cmd args =>
      simp only [State.execRow]
      split
      · rfl
      · split
        · cases args with
          | nil => rfl
          | cons name rest =>
            simp only [State.load]
            split
            · split
              · rfl
              · split <;> rfl
            · rfl
        · split <;> rfl
  induction rows generalizing s with
  | nil => rfl
  | cons row rest ih =>
    simp only [State.execRows, hrow]
    split
    · rfl
    · exact ih _

theorem enter_frame (w : World) (line : List Char) (r : State) : ∃ (x : List (List Char)) (r' : State),
    ∀ h, State.enter p w line { r with entered := h } = { r' with entered := h ++ x } := by
  set x : List (List Char) := if line = [] then [] else [line] with hx
  have hstart : ∀ g : List (List Char), (if line = [] then { r with entered := g }
      else { r with entered := g ++ [line] } : State) = { r with entered := g ++ x } := by
    intro g
    rw [hx]
    split <;> simp
  have hrows : ∀ r : State, ∃ r' : State, ∀ h,
      State.execRows p w (lineRows p (tokens ' ' line)) { r with entered := h ++ x } =
        { r' with entered := h ++ x } := fun r => ⟨_, fun h => execRows_frame w _ r _⟩
  simp only [State.enter, hstart]
  set parsed : State :=
    { r with past := r.past.parse p line, input := w.leaves (r.past.parse p line) r.input } with hparsed
  obtain ⟨done, hdone⟩ := hrows parsed
  by_cases hblank : p = .multi ∧ tokens ' ' line = []
  · exact ⟨x, r.halt, fun h => by rw [if_pos hblank]; rfl⟩
  · simp only [if_neg hblank]
    cases r.past.traced p line with
    | false => exact ⟨x, _, (hrows r).choose_spec⟩
    | true =>
      cases hfate : w.fate (r.past.parse p line) with
      | crashes => exact ⟨x, parsed.halt, fun _ => rfl⟩
      | refused =>
        cases asks p (tokens ' ' line) with
        | true => exact ⟨x, parsed, fun _ => rfl⟩
        | false => exact ⟨x, done, hdone⟩
      | runs => exact ⟨x, done, hdone⟩

theorem take_frame (w : World) (line : List Char) (r : State) : ∃ (x : List (List Char)) (r' : State),
    ∀ h, State.take p w line { r with entered := h } = { r' with entered := h ++ x } := by
  obtain ⟨x, r', henter⟩ := enter_frame (p := p) w line r
  cases p with
  | simple =>
    cases hi : r.ignore with
    | true => exact ⟨[], r, fun h => by simp [State.take, hi]⟩
    | false => exact ⟨x, r', fun h => by rw [← henter h]; simp [State.take, hi]⟩
  | multi =>
    by_cases hprint : w.sprintf line = false
    · exact ⟨[], r.halt, fun h => by simp [State.take, hprint, State.halt]⟩
    · by_cases hskip : line = [] ∨ r.ignore = true
      · exact ⟨[], { r with ignore := false }, fun h => by simp [State.take, hprint, hskip]⟩
      · exact ⟨x, r', fun h => by rw [← henter h]; simp [State.take, hprint, hskip]⟩

theorem source_frame (p : Program) (signed : Bool) (w : World) (r : State) :
    (∀ h, State.source p signed w { r with entered := h } = none) ∨
      ∃ (line : List Char) (r' : State),
        ∀ h, State.source p signed w { r with entered := h } = some (line, { r' with entered := h }) := by
  have hold : ∀ h, State.oldLine p w { r with entered := h } = State.oldLine p w r := by
    cases p <;> exact fun _ => rfl
  simp only [State.source, hold]
  rcases Bool.eq_false_or_eq_true r.batchFlag with hflag | hflag
  · by_cases hempty : r.batchCommand = []
    · exact Or.inr ⟨State.oldLine p w r, r, fun _ => by simp [hflag, hempty]⟩
    · rcases hget : r.batchCommand[r.batchCommandIndex]? with _ | cmd
      · exact Or.inr ⟨State.oldLine p w r, { r with
          batchFlag := false, batchCommand := [], batchCommandIndex := 0, ignore := true },
          fun _ => by simp [hflag, hempty]⟩
      · exact Or.inr ⟨cmd.dropLast, { r with batchCommandIndex := r.batchCommandIndex + 1 },
          fun _ => by simp [hflag, hempty]⟩
  · rcases hinput : r.input with _ | ⟨l, ls⟩
    · exact Or.inl fun _ => by simp [hflag]
    · exact Or.inr ⟨typed signed l, { r with input := ls }, fun _ => by simp [hflag]⟩

theorem turn_frame (p : Program) (signed : Bool) (w : World) (r : State) : ∃ (x : List (List Char)) (r' : State),
    ∀ h, State.turn p signed w { r with entered := h } = { r' with entered := h ++ x } := by
  by_cases hhalted : r.halted = true
  · exact ⟨[], r, fun h => by simp [State.turn, hhalted]⟩
  · have hgoes : ∀ h, ¬ ({ r with entered := h } : State).halted = true := fun _ => hhalted
    rcases source_frame p signed w r with hnone | ⟨line, r', hsome⟩
    · exact ⟨[], r, fun h => by rw [State.turn, if_neg (hgoes h), hnone h]; simp⟩
    · obtain ⟨x, r'', htake⟩ := take_frame (p := p) w line r'
      exact ⟨x, r'', fun h => by rw [State.turn, if_neg (hgoes h), hsome h]; exact htake h⟩

theorem turn_appends : Appends (State.turn p signed w) State.entered := by
  intro s
  obtain ⟨x, r, hturn⟩ := turn_frame p signed w s
  have hs : State.turn p signed w s = { r with entered := s.entered ++ x } := hturn s.entered
  rw [hs]
  exact List.prefix_append _ _

theorem turn_halted (h : s.halted = true) : s.turn p signed w = s := by
  rw [State.turn, if_pos h]

/-- At a prompt without input the shell waits. -/
theorem turn_waiting (hflag : s.batchFlag = false) (hinput : s.input = []) : s.turn p signed w = s := by
  have hnone : s.source p signed w = none := by simp [State.source, hflag, hinput]
  rw [State.turn, hnone]
  split <;> rfl

/-! ### The line `batch` -/

theorem tokensAux_free {d : Char} {s : List Char} (hd : d ∉ s) (cur : Token) :
    tokensAux d s cur = if cur ++ s = [] then [] else [cur ++ s] := by
  induction s generalizing cur with
  | nil => simp [tokensAux]
  | cons c s ih =>
    have hc : c ≠ d := fun h => hd (by simp [h])
    rw [tokensAux, if_neg hc, ih fun h => hd (List.mem_cons_of_mem _ h)]
    simp

theorem tokensAux_word {d : Char} {s : List Char} (hd : d ∉ s) (rest : List Char) (cur : Token)
    (hne : cur ++ s ≠ []) : tokensAux d (s ++ d :: rest) cur = (cur ++ s) :: tokensAux d rest [] := by
  induction s generalizing cur with
  | nil =>
    rw [List.append_nil] at hne
    simp [tokensAux, hne]
  | cons c s ih =>
    have hc : c ≠ d := fun h => hd (by simp [h])
    rw [List.cons_append, tokensAux, if_neg hc, ih (fun h => hd (List.mem_cons_of_mem _ h)) _ (by simp)]
    simp

theorem tokens_batchLine (name : FileName p signed) :
    tokens ' ' (batchLine name.token) = [batchCmd, name.token] := by
  rw [tokens, batchLine, tokensAux_word (by decide) _ _ (by decide), tokensAux_free name.blank]
  simp [name.ne]

theorem isBatch_batchLine (name : FileName p signed) :
    isBatch p (tokens ' ' (batchLine name.token)) = true := by
  rw [tokens_batchLine, isBatch, name.word]
  rfl

/-- The line is typed without a loss. -/
theorem typed_batchLine (name : FileName p signed) :
    typed signed (batchLine name.token) = batchLine name.token := by
  rw [typed, List.takeWhile_eq_self_iff]
  intro c hc
  have hall : (batchCmd ++ [' ']).all (fun c => !below20 signed c) = true := by
    cases signed <;> decide
  rw [batchLine, ← List.singleton_append, ← List.append_assoc, List.mem_append] at hc
  rcases hc with hc | hc
  · exact List.all_eq_true.mp hall c hc
  · rw [name.keys c hc]
    rfl

/-- The line has one row. -/
theorem lineRows_batchLine (name : FileName p signed) :
    lineRows p [batchCmd, name.token] = [[batchCmd, name.token]] := by
  have hword : word p batchCmd = true := by cases p <;> rfl
  have hmessage : message p [batchCmd, name.token] = false := by cases p <;> rfl
  simp [lineRows, hmessage, rows, hword, name.word]

/-- There is no pipe to count and no child to wait for. -/
theorem traced_batchLine (name : FileName p signed) {past : Past} (hclean : Clean past) :
    past.traced p (batchLine name.token) = false := by
  simp [Past.traced, isBatch_batchLine name, hclean.numPipeVec, hclean.waited]

/-- The turn that reads the line `batch`. -/
theorem turn_batchLine (name : FileName p signed) {past : Past} (hclean : Clean past)
    (later : List (List Char)) :
    State.turn p signed w (.prompt past (batchLine name.token :: later)) =
      if p = .multi ∧ w.sprintf (batchLine name.token) = false then (State.prompt past later).halt
      else ((State.prompt past later).put [batchLine name.token] past).load w [name.token] := by
  have hne : batchLine name.token ≠ [] := by simp [batchLine]
  have hrow : ∀ t : State, t.execRows p w [[batchCmd, name.token]] = t.load w [name.token] := by
    intro t
    have hone : t.execRow p w [batchCmd, name.token] = t.load w [name.token] := by
      rw [State.execRow, if_neg (by decide), if_pos rfl]
    rw [State.execRows, hone]
    split <;> rfl
  have henter : (State.prompt past later).enter p w (batchLine name.token) =
      ((State.prompt past later).put [batchLine name.token] past).load w [name.token] := by
    have htraced : (State.prompt past later).past.traced p (batchLine name.token) = false :=
      traced_batchLine name hclean
    rw [State.enter]
    simp only [if_neg hne, tokens_batchLine, htraced, lineRows_batchLine, hrow]
    simp [State.put, State.prompt]
  have hsource : (State.prompt past (batchLine name.token :: later)).source p signed w =
      some (batchLine name.token, .prompt past later) := by
    simp [State.source, State.prompt, typed_batchLine]
  rw [State.turn, if_neg (by simp [State.prompt]), hsource]
  dsimp only
  rw [← henter]
  cases p with
  | simple => simp [State.take, State.prompt]
  | multi =>
    have hskip : ¬ (batchLine name.token = [] ∨ (State.prompt past later).ignore = true) := by
      simp [hne, State.prompt]
    simp only [State.take, true_and, if_neg hskip]

/-- The shell in batch mode, with the file in its array. -/
theorem load_fits {f : TextFile} {name : Token} {past : Past} (hfile : w.file past name = some f)
    (hlen : name.length < 100) (hcount : (fgetsAll f.chars).length ≤ 10) (h later : List (List Char)) :
    ((State.prompt past later).put h past).load w [name] =
      (State.batching past later (fgetsAll f.chars) 0).put h past := by
  simp only [State.load, hlen, if_true, State.put, State.prompt, hfile, List.nil_append, hcount]
  rfl

/-- A name or a file that does not fit its array. -/
theorem load_overflows {f : TextFile} {name : Token} {past : Past} (hfile : w.file past name = some f)
    (hover : ¬ (name.length < 100 ∧ (fgetsAll f.chars).length ≤ 10)) (h later : List (List Char)) :
    (((State.prompt past later).put h past).load w [name]).halted = true := by
  by_cases hlen : name.length < 100
  · have hcount : ¬ (fgetsAll f.chars).length ≤ 10 := fun hc => hover ⟨hlen, hc⟩
    simp only [State.load, hlen, if_true, State.put, State.prompt, hfile, List.nil_append, hcount, if_false]
    rfl
  · simp [State.load, hlen]

/-- The turn that finds no more strings: only `npshell_3.h` sets `ignore` back. -/
theorem turn_end {cs : List (List Char)} (hne : cs ≠ []) (past next : Past) (h later : List (List Char)) :
    State.turn p signed w ((State.batching past later cs cs.length).put h next) =
      { (State.prompt next later).put h next with ignore := p = .simple } := by
  have hget : cs[cs.length]? = none := by simp
  have hsource : ((State.batching past later cs cs.length).put h next).source p signed w =
      some (((State.batching past later cs cs.length).put h next).oldLine p w,
        { (State.prompt next later).put h next with ignore := true }) := source_end rfl hne hget
  rw [State.turn, if_neg (by simp [State.batching, State.prompt, State.put]), hsource]
  cases p with
  | simple => rfl
  | multi =>
    have hprint : w.sprintf [] = true := w.plain [] List.not_mem_nil
    simp only [State.oldLine, State.take, hprint]
    rfl

theorem fgetsAux_ne_nil : ∀ {cs cur : List Char}, cs ≠ [] ∨ cur ≠ [] → fgetsAux cs cur ≠ []
  | [], cur, h => by simpa [fgetsAux] using h
  | c :: cs, cur, _ => by
    rw [fgetsAux]
    split
    · simp
    · exact fgetsAux_ne_nil (Or.inr (by simp))

/-! ### Two sessions that only differ in one line `batch` -/

/-- The two sessions after the file, one with the line `b` before its lines and one without it: both have
    ended, or all else is the same. -/
structure Twin (b : List Char) (s t : State) : Prop where
  entered : s.entered = b :: t.entered
  rest : s.halted = true ∧ t.halted = true ∨ { s with entered := [] } = { t with entered := [] }

/-- The two sessions stay in step. -/
theorem Twin.turn {b : List Char} {s t : State} (h : Twin b s t) :
    Twin b (s.turn p signed w) (t.turn p signed w) := by
  obtain ⟨hentered, ⟨hs, ht⟩ | heq⟩ := h
  · rw [turn_halted hs, turn_halted ht]
    exact ⟨hentered, Or.inl ⟨hs, ht⟩⟩
  · obtain ⟨x, r, hturn⟩ := turn_frame p signed w t
    have ht : t.turn p signed w = { r with entered := t.entered ++ x } := hturn t.entered
    have hs : s.turn p signed w = { r with entered := s.entered ++ x } := by
      rw [← hturn s.entered]
      congr 1
      cases s
      cases t
      simp_all
    rw [hs, ht, hentered]
    exact ⟨rfl, Or.inr rfl⟩

/-- They log the same lines. -/
theorem Twin.logs {b : List Char} {s t : State} (h : Twin b s t) (lines : List (List Char)) :
    Logs (State.turn p signed w) State.entered s (b :: lines) ↔
      Logs (State.turn p signed w) State.entered t lines := by
  refine exists_congr fun n => ?_
  rw [(iterate_lockstep (fun _ _ => Twin.turn) h n).entered, List.cons_prefix_cons]
  simp

/-! ### The lines of the file -/

theorem nests_nil (p : Program) : nests p [] = false := by cases p <;> rfl

/-- The lines agree to the end, or up to a line that ends the session. -/
theorem Agree.cases {as bs : List (List Char)} (h : Agree p as bs) :
    (p = .multi ∧ as = bs ∧ ∀ l ∈ as, nests p l = false) ∨
      ∃ cs a as' bs', as = cs ++ [a] ++ as' ∧ bs = cs ++ [a] ++ bs' ∧
        (∀ l ∈ cs ++ [a], nests p l = false) ∧ ends p a = true := by
  induction as generalizing bs with
  | nil =>
    cases bs with
    | nil => exact Or.inl ⟨h, rfl, by simp⟩
    | cons b bs => exact h.elim
  | cons a as ih =>
    cases bs with
    | nil => exact h.elim
    | cons b bs =>
      obtain ⟨rfl, hquiet, hends | hrest⟩ := h
      · exact Or.inr ⟨[], a, as, bs, rfl, rfl, by simpa using hquiet, hends⟩
      · rcases ih hrest with ⟨hp, rfl, hall⟩ | ⟨cs, c, as', bs', rfl, rfl, hall, hends⟩
        · exact Or.inl ⟨hp, rfl, List.forall_mem_cons.mpr ⟨hquiet, hall⟩⟩
        · exact Or.inr ⟨a :: cs, c, as', bs', rfl, rfl, List.forall_mem_cons.mpr ⟨hquiet, hall⟩, hends⟩

theorem effective_mem {waited : Bool} {ls : List (List Char)}
    (h : ∀ l ∈ effective p waited ls, nests p l = false) : ∀ l ∈ ls, nests p l = false := by
  induction ls generalizing waited with
  | nil => simp
  | cons l ls ih =>
    rw [effective] at h
    split at h
    · rename_i hout
      exact List.forall_mem_cons.mpr ⟨hout.1 ▸ nests_nil p, ih h⟩
    · exact List.forall_mem_cons.mpr ⟨h l List.mem_cons_self, ih fun x hx => h x (List.mem_cons_of_mem _ hx)⟩

/-- `npshell_3.h` skips every empty line. -/
theorem nil_not_mem_effective (waited : Bool) (ls : List (List Char)) : [] ∉ effective .multi waited ls := by
  induction ls generalizing waited with
  | nil => simp [effective]
  | cons l ls ih =>
    rw [effective]
    by_cases hl : l = []
    · rw [if_pos ⟨hl, Or.inl rfl⟩]
      exact ih waited
    · rw [if_neg fun h => hl h.1, List.mem_cons, not_or]
      exact ⟨fun h => hl h.symm, ih _⟩

/-- The lines that make the first of those that are not left out. -/
theorem split_effective {waited : Bool} {xs as bs : List (List Char)} (h : effective p waited xs = as ++ bs) :
    ∃ ys zs, xs = ys ++ zs ∧ effective p waited ys = as := by
  induction xs generalizing waited as with
  | nil =>
    obtain ⟨rfl, rfl⟩ : as = [] ∧ bs = [] := by simpa [effective] using h
    exact ⟨[], [], rfl, rfl⟩
  | cons x xs ih =>
    rw [effective] at h
    split at h
    · rename_i hout
      obtain ⟨ys, zs, rfl, hys⟩ := ih h
      exact ⟨x :: ys, zs, rfl, by rw [effective, if_pos hout, hys]⟩
    · rename_i hout
      cases as with
      | nil => exact ⟨[], x :: xs, rfl, rfl⟩
      | cons a as =>
        obtain ⟨rfl, htail⟩ := List.cons.inj h
        obtain ⟨ys, zs, rfl, hys⟩ := ih htail
        exact ⟨x :: ys, zs, rfl, by rw [effective, if_neg hout, hys]⟩

/-- Both sessions are fed the same lines. -/
theorem Supplies.fed_both {s s' t t' : State} {xs ys : List (List Char)} {past : Past}
    (hxs : Supplies p signed w s xs s') (hys : Supplies p signed w t ys t') (hs : s.halted = false)
    (ht : t.halted = false) (heq : effective p past.waited xs = effective p past.waited ys)
    (hquiet : ∀ l ∈ effective p past.waited xs, nests p l = false) (hsober : Sober p w ys past)
    (h h' : List (List Char)) :
    ∃ u v, Leads (State.turn p signed w) (s.put h past) u ∧ Leads (State.turn p signed w) (t.put h' past) v ∧
      Fed (feed p w (effective p past.waited xs) past) (s'.put h past) u ∧
      Fed (feed p w (effective p past.waited xs) past) (t'.put h' past) v := by
  have hsober' : Sober p w xs past := by
    rw [← sober_effective, heq, sober_effective]
    exact hsober
  obtain ⟨u, hu, hfed⟩ := hxs.fed (effective_mem hquiet) hs h past hsober'
  obtain ⟨v, hv, hfed'⟩ := hys.fed (effective_mem (heq ▸ hquiet)) ht h' past hsober
  rw [← feed_effective] at hfed
  rw [← feed_effective, ← heq] at hfed'
  exact ⟨u, v, hu, hv, hfed, hfed'⟩

/-- The file is in the array. -/
theorem leads_batching {name : FileName p signed} {f : TextFile} {past : Past} (hclean : Clean past)
    (hlen : name.token.length < 100) (hcount : (fgetsAll f.chars).length ≤ 10)
    (hfile : w.file past name.token = some f)
    (hprint : ¬ (p = .multi ∧ w.sprintf (batchLine name.token) = false)) (later : List (List Char)) :
    Leads (State.turn p signed w) (.prompt past (batchLine name.token :: later))
      ((State.batching past later (fgetsAll f.chars) 0).put [batchLine name.token] past) := by
  refine .step ?_
  rw [turn_batchLine name hclean, if_neg hprint, load_fits hfile hlen hcount]
  exact .refl _

/-- The two sessions behind the lines that are the same. -/
theorem Fed.twin {b : List Char} {r : List (List Char) × Option Past} {s t u v : State}
    (hu : Fed r s u) (hv : Fed r t v) (hs : s.entered = [b]) (ht : t.entered = []) (hr : r.2 = none) :
    Twin b u v := by
  refine ⟨?_, Or.inl ⟨by rw [hu.halted, hr]; rfl, by rw [hv.halted, hr]; rfl⟩⟩
  rw [hu.entered, hv.entered, hs, ht]
  rfl

/-- Batch mode does what typing does. -/
theorem equal_of_fits {name : FileName p signed} {f : TextFile} (h : Fits p signed name f) :
    Equal p signed name f := by
  intro w past later hfile hclean hsober lines
  have hprint : ¬ (p = .multi ∧ w.sprintf (batchLine name.token) = false) := by
    rintro ⟨hp, hfails⟩
    have hplain : '%' ∉ batchLine name.token := by
      rw [batchLine, List.mem_append, List.mem_cons, not_or, not_or]
      exact ⟨by decide, by decide, h.name_plain hp⟩
    rw [w.plain _ hplain] at hfails
    cases hfails
  have hbatch : Supplies p signed w _ _ _ := supplies_file f past later
  have htyped : Supplies p signed w _ _ _ := supplies_typed (getLines f.chars) later past
  have hprompt : (State.prompt past (getLines f.chars ++ later)).put [] past =
      .prompt past (getLines f.chars ++ later) := rfl
  obtain ⟨u, v, hu, hv, htwin⟩ : ∃ u v, Leads (State.turn p signed w)
      ((State.batching past later (fgetsAll f.chars) 0).put [batchLine name.token] past) u ∧
      Leads (State.turn p signed w) (.prompt past (getLines f.chars ++ later)) v ∧
      Twin (batchLine name.token) u v := by
    rcases h.agree.cases with ⟨hp, heq, hquiet⟩ | ⟨cs, a, as', bs', has, hbs, hquiet, hends⟩
    · rw [batchLines, ← hclean.waited] at heq hquiet
      rw [typedLines, ← hclean.waited] at heq
      obtain ⟨u, v, hu, hv, hfed, hfed'⟩ :=
        hbatch.fed_both htyped rfl rfl heq hquiet hsober [batchLine name.token] []
      rw [hprompt] at hv
      cases hlast : (feed p w (effective p past.waited ((fgetsAll f.chars).map List.dropLast)) past).2 with
      | none => exact ⟨u, v, hu, hv, hfed.twin hfed' rfl rfl hlast⟩
      | some next =>
        have hne : fgetsAll f.chars ≠ [] := fgetsAux_ne_nil (Or.inl h.nonempty)
        refine ⟨_, v, hu.trans (.one u), hv, ?_⟩
        have hend : ∀ h, State.turn p signed w
            ((State.batching past later (fgetsAll f.chars) (fgetsAll f.chars).length).put h next) =
              (State.prompt next later).put h next := by
          intro h
          rw [turn_end hne, hp]
          rfl
        rw [hfed.same next hlast, hfed'.same next hlast]
        have hturn := hend ([batchLine name.token] ++
          (feed p w (effective p past.waited ((fgetsAll f.chars).map List.dropLast)) past).1)
        exact ⟨congrArg State.entered hturn,
          Or.inr (congrArg (fun s : State => { s with entered := [] }) hturn)⟩
    · obtain ⟨xs, xs', hxs, hfilter⟩ := split_effective has
      obtain ⟨ys, ys', hys, hfilter'⟩ := split_effective hbs
      rw [hxs] at hbatch
      rw [hys] at htyped hsober
      obtain ⟨s', hs'⟩ := hbatch.of_append
      obtain ⟨t', ht'⟩ := htyped.of_append
      rw [← hclean.waited] at hfilter hfilter'
      obtain ⟨u, v, hu, hv, hfed, hfed'⟩ := hs'.fed_both ht' rfl rfl
        (hfilter.trans hfilter'.symm) (by rwa [hfilter]) hsober.of_append [batchLine name.token] []
      have hane : a ≠ [] := by
        rintro rfl
        have hmem : [] ∈ batchLines p f := by simp [has]
        cases p with
        | simple => cases hends
        | multi => exact nil_not_mem_effective _ _ hmem
      have hlast := feed_ends (w := w) hane hends cs past
      rw [← hfilter] at hlast
      exact ⟨u, v, hu, hv, hfed.twin hfed' rfl rfl hlast⟩
  rw [logs_iff_of_leads turn_appends (leads_batching hclean h.name_length h.count hfile hprint later),
    logs_iff_of_leads turn_appends hu, logs_iff_of_leads turn_appends hv]
  exact htwin.logs lines

end NetProg.Batch
