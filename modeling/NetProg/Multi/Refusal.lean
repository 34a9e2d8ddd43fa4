import NetProg.Multi.Subscripts

/-! Lines that `npshell_3.h` refuses for a user pipe, and the lines after them.

    A refused line is parsed to its end. What its other tokens have set is cleared in the branches of the
    process loop that use it, and these are not entered. -/

namespace NetProg.Multi

open NetProg.Server ParserSafety

/-- The line is refused; `c` is the turn at its end. -/
def Refused (s : Npshell) (u : ℕ) (inp : LineInput) (c : Turn) : Prop :=
  inp.line ≠ [] ∧ s.parse u inp = .next c ∧ c.ignore = true

/-- Whether a parsed line is refused. -/
def Outcome.refused : Outcome → Bool
  | .next c => c.ignore
  | _ => false

theorem exists_refused {s : Npshell} {u : ℕ} {inp : LineInput} (hne : inp.line ≠ [])
    (h : (s.parse u inp).refused = true) : ∃ c, Refused s u inp c := by
  cases hparse : s.parse u inp with
  | next c =>
    rw [hparse] at h
    exact ⟨c, hne, hparse, h⟩
  | exited c | crashed c =>
    rw [hparse] at h
    cases h

/-- `printenv` without an argument, a line that executes no command. -/
def idle : List Char := ['p', 'r', 'i', 'n', 't', 'e', 'n', 'v']

/-- No record was set or cleared, and any line that follows is executed as if an idle line had been in the
    place of the refused one. -/
structure NoTrace (s : Npshell) (u : ℕ) (c : Turn) : Prop where
  records : ∀ receiver sender value, Event.record receiver sender value ∉ c.events
  following : ∀ inp d, inp.line = idle → s.line u inp = .next d →
    ∀ following, c.kept.line u following = d.kept.line u following

def isUserPipe : Item → Bool
  | .take _ | .give _ => true
  | _ => false

/-- The item behind `done` does nothing but add to a command or refuse the line. -/
structure Inert (u : ℕ) (inp : LineInput) (done : List Item) (it : Item) : Prop where
  file : isFile it = false
  number : isNumber it = false
  refused : isUserPipe it = true → ¬ Accepted u inp done it

/-- The line has no `> file`, no `|N` or `!N`, and every `<id` and `>id` in it is refused. -/
def AllInert (u : ℕ) (inp : LineInput) : Prop :=
  ∀ pre it post, serverItems (tokens ' ' inp.line) = pre ++ it :: post → Inert u inp pre it

/-- Nothing that outlives the line has changed, and nothing was recorded. -/
structure Quiet (c d : Turn) : Prop where
  kept : d.kept = c.kept
  records : ∀ receiver sender value, .record receiver sender value ∈ d.events →
    .record receiver sender value ∈ c.events

theorem Quiet.trans {c d e : Turn} (h : Quiet c d) (h' : Quiet d e) : Quiet c e :=
  ⟨h'.kept.trans h.kept, fun r s v he => h.records r s v (h'.records r s v he)⟩

theorem quiet_refuse (c : Turn) (l : List Subscript) (text : List Char) (es : List Event)
    (hes : ∀ e ∈ es, e = .fflush) : Quiet c ((c.touch l).refuse (.printf text :: es)).tick := by
  refine ⟨rfl, fun r s v he => ?_⟩
  have hmem : Event.record r s v ∈ c.events ++ .printf text :: es := he
  rcases List.mem_append.mp hmem with h | h
  · exact h
  · rcases List.mem_cons.mp h with h | h
    · cases h
    · cases hes _ h

/-- A refused `<id`. -/
theorem take_quiet {c : Turn} {inp : LineInput} {id : ℤ} (h : ¬ ((inp.seen c.now).checkIdExist id = true ∧
    (inp.seen (c.now + 1)).checkNamePipeExist id (c.u + 1) = true)) : Quiet c (c.takeUserPipe inp id).tick := by
  rw [Turn.takeUserPipe]
  split_ifs with hexist hrecord
  · exact absurd ⟨hexist, hrecord⟩ h
  · exact quiet_refuse c _ _ [] fun _ he => by cases he
  · exact quiet_refuse c _ _ [.fflush] (by simp)

/-- A refused `>id`. -/
theorem make_quiet {c : Turn} {inp : LineInput} {id : ℤ} (h : ¬ ((inp.seen c.now).checkIdExist id = true ∧
    (inp.seen (c.now + 1)).checkNamePipeExist (c.u + 1) id = false)) : Quiet c (c.makeUserPipe inp id).tick := by
  have hset : Quiet c (c.setOutId id) := ⟨rfl, fun _ _ _ he => he⟩
  rw [Turn.makeUserPipe]
  split_ifs with hexist hrecord
  · exact hset.trans (quiet_refuse _ _ _ [] fun _ he => by cases he)
  · exact absurd ⟨hexist, Bool.eq_false_of_not_eq_true hrecord⟩ h
  · exact hset.trans (quiet_refuse _ _ _ [.fflush] (by simp))

theorem Acts.quiet {inp : LineInput} {it : Item} {cur cur' : List Token} {c d : Turn}
    (h : Acts inp it cur c cur' d) {done : List Item} (hnow : c.now = 3 * done.length)
    (hinert : Inert c.u inp done it) : Quiet c d := by
  cases h with
  | word | bar => exact ⟨rfl, fun _ _ _ he => he⟩
  | number shock n => cases hinert.number
  | file name => cases hinert.file
  | take n =>
    refine take_quiet fun h => hinert.refused rfl ?_
    rw [hnow] at h
    exact h
  | give n =>
    have hpush : Quiet c (c.push cur) := ⟨rfl, fun _ _ _ he => he⟩
    refine hpush.trans (make_quiet fun h => hinert.refused rfl ?_)
    change (inp.seen c.now).checkIdExist _ = true ∧ (inp.seen (c.now + 1)).checkNamePipeExist _ _ = false at h
    rw [hnow] at h
    exact h

/-- Combining a line whose items are all inert. -/
theorem combine_quiet (inp : LineInput) (toks cur : List Token) (c : Turn)
    (hbuf : c.vars.redirectionFileName.length = 100) : ∀ done : List Item, c.now = 3 * done.length →
      (∀ pre it post, serverItems toks = pre ++ it :: post → Inert c.u inp (done ++ pre) it) →
      ∀ d, combine inp toks cur c = .next d → Quiet c d := by
  refine combine_rule inp (R := fun l _ c o => ∀ done : List Item, c.now = 3 * done.length →
    (∀ pre it post, l = pre ++ it :: post → Inert c.u inp (done ++ pre) it) →
      ∀ d, o = .next d → Quiet c d) ?_ ?_ ?_ toks cur c hbuf
  · intro cur c done _ _ d hd
    cases hd
    split_ifs <;> exact ⟨rfl, fun _ _ _ he => he⟩
  · intro it l cur c _ done _ _ d hd
    cases hd
  · intro it l cur c cur' d o _ hact ih done hnow hinert e he
    have hkept := hact.kept
    have hfirst := hinert [] it l rfl
    rw [List.append_nil] at hfirst
    refine (hact.quiet hnow hfirst).trans (ih (done ++ [it]) ?_ (fun pre it' post hl => ?_) e he)
    · rw [hkept.now, hnow, List.length_append, List.length_singleton]
      ring
    · rw [hkept.u, List.append_assoc]
      exact hinert (it :: pre) it' post (by rw [hl]; rfl)

/-- What an idle line leaves: the countdown is all it does. -/
theorem idle_line (s : Npshell) (u : ℕ) {inp : LineInput} (h : inp.line = idle) :
    ∃ d, s.line u inp = .next d ∧ d.kept = (s.startTurn u inp).countdown.kept ∧ d.spawned = [] ∧
      d.events = [] := by
  have htoks : tokens ' ' inp.line = [Shell.printenvCmd] := by
    rw [h]
    decide
  have hparse : s.parse u inp = .next ((s.startTurn u inp).countdown.tick.push [Shell.printenvCmd]) := by
    rw [Npshell.parse, htoks]
    rfl
  have hne : inp.line ≠ [] := by
    rw [h]
    exact List.cons_ne_nil _ _
  refine ⟨(((s.startTurn u inp).countdown.tick.push [Shell.printenvCmd]).printenv []).tick, ?_, rfl, rfl, rfl⟩
  rw [Npshell.line, if_neg hne, hparse]
  rfl

/-- A line of `tell` or `yell` is not refused. -/
theorem Refused.not_message {s : Npshell} {u : ℕ} {inp : LineInput} {c : Turn} (h : Refused s u inp c) :
    s.parse u inp = combine inp (tokens ' ' inp.line) [] (s.startTurn u inp).countdown := by
  obtain ⟨-, hparse, hignore⟩ := h
  rw [Npshell.parse] at hparse ⊢
  cases htoks : tokens ' ' inp.line with
  | nil =>
    rw [htoks] at hparse
    cases hparse
  | cons tok rest =>
    rw [htoks] at hparse
    dsimp only at hparse ⊢
    split_ifs at hparse ⊢
    · cases hparse
      cases hignore
    · rfl

/-- A refused line whose items are all inert leaves no trace. -/
theorem Refused.no_trace {s : Npshell} {u : ℕ} {inp : LineInput} {c : Turn} (h : Refused s u inp c)
    (hinert : AllInert u inp) : NoTrace s u c := by
  have hcombine := h.not_message.symm.trans h.2.1
  have hquiet := combine_quiet inp (tokens ' ' inp.line) [] (s.startTurn u inp).countdown
    List.length_replicate [] rfl hinert c hcombine
  refine ⟨fun r x v he => List.not_mem_nil (hquiet.records r x v he), fun idleInp d hidle hd following => ?_⟩
  obtain ⟨d', hd', hkept, -, -⟩ := idle_line s u hidle
  obtain rfl := Outcome.next.inj (hd.symm.trans hd')
  rw [hquiet.kept, hkept]
  rfl

/-- One client, in slot 0, and its shell. -/
def oneClient : Table := (Table.start .zero).modify 0 (loginUser 4 [] 0)

def oneShell : Npshell :=
  .start 4 ⟨[some (.sock 0), some (.sock 0), some (.sock 0), none, some (.sock 0)]⟩ fun _ => none

/-- `ls <99`. -/
def lsNobody : LineInput := quietLine ['l', 's', ' ', '<', '9', '9'] oneClient

/-- Where the children of a line write. -/
def stdouts (o : Outcome) : List (Option Desc) := o.turn.spawned.map fun x => x.fds.get 1

/-- Where the children of the line behind a turn write. -/
def Outcome.thenStdouts (o : Outcome) (u : ℕ) (following : LineInput) : List (Option Desc) :=
  match o with
  | .next c => stdouts (c.kept.line u following)
  | _ => []

/-- `ls |1`, when the file without a name cannot be opened. -/
def pipedLs : LineInput := { quietLine "ls |1".toList oneClient with redir := false }

end NetProg.Multi
