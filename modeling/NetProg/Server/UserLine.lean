import NetProg.Server.Concurrent

/-! Lines with user pipes: `<id` among the words of the first command, `>id` at the end. Reading such a
    line takes a pipe, collects its commands, and then does what its end asks for. -/

namespace NetProg.Server

open Shell (Suffix)

/-- A word of the first command behind its name: an argument, or `<id`. -/
inductive Word where
  | arg (t : Token)
  | take (ds : List Char)
  deriving DecidableEq

def Word.token : Word → Token
  | .arg t => t
  | .take ds => '<' :: ds

def Word.arg? : Word → Option Token
  | .arg t => some t
  | .take _ => none

def Word.take? : Word → Option (List Char)
  | .arg _ => none
  | .take ds => some ds

/-- What may stand at the end of a line: what other shells know, or `>id`. -/
inductive Tail where
  | plain (suf : Suffix)
  | user (ds : List Char)
  deriving DecidableEq

def Tail.tokens : Tail → List Token
  | .plain suf => suf.tokens
  | .user ds => ['>' :: ds]

/-- A line: the name of the first command and its words, the other commands, and the end. -/
structure UserLine where
  name : Token
  words : List Word
  rest : List (List Token)
  tail : Tail
  deriving DecidableEq

namespace UserLine

/-- The first command as it is executed. -/
def first (l : UserLine) : List Token := l.name :: l.words.filterMap Word.arg?

def cmds (l : UserLine) : List (List Token) := l.first :: l.rest

/-- The tokens of the commands after the first one. -/
def restTokens (rest : List (List Token)) : List Token := rest.flatMap fun c => ['|'] :: c

def tokens (l : UserLine) : List Token :=
  (l.name :: l.words.map Word.token) ++ (restTokens l.rest ++ l.tail.tokens)

/-- The ids whose pipes the line reads. -/
def takes (l : UserLine) : List ℕ := (l.words.filterMap Word.take?).map (digitsVal 0)

/-- The id of the user the line is piped to. -/
def gives (l : UserLine) : Option ℕ :=
  match l.tail with
  | .plain _ => none
  | .user ds => some (digitsVal 0 ds)

/-- Whether the user leaves with this line. -/
def leaves (l : UserLine) : Bool := l.cmds.any fun c => c.head? == some Shell.exitCmd

end UserLine

/-- A command of ordinary words that is `exit` or no builtin. -/
def Plainly (c : List Token) : Prop :=
  c ≠ [] ∧ (∀ t ∈ c, ordinary t = true) ∧
    (c.head? = some Shell.exitCmd ∨ ∀ cmd ∈ builtinCmds, c.head? ≠ some cmd)

instance (c : List Token) : Decidable (Plainly c) := inferInstanceAs (Decidable (_ ∧ _))

/-- What the grammar asks of a word. -/
def Word.Ok : Word → Prop
  | .arg t => ordinary t = true
  | .take ds => Numeral ds

def Tail.Ok : Tail → Prop
  | .plain suf => suf.Ok
  | .user ds => Numeral ds

instance : (w : Word) → Decidable w.Ok
  | .arg _ => inferInstanceAs (Decidable (_ = _))
  | .take _ => inferInstanceAs (Decidable (Numeral _))

instance : (t : Tail) → Decidable t.Ok
  | .plain suf => inferInstanceAs (Decidable suf.Ok)
  | .user _ => inferInstanceAs (Decidable (Numeral _))

/-- A line of the language. -/
structure UserLine.Ok (l : UserLine) : Prop where
  words : ∀ w ∈ l.words, w.Ok
  cmds : ∀ c ∈ l.cmds, Plainly c
  tail : l.tail.Ok

instance (l : UserLine) : Decidable l.Ok :=
  decidable_of_iff ((∀ w ∈ l.words, w.Ok) ∧ (∀ c ∈ l.cmds, Plainly c) ∧ l.tail.Ok)
    ⟨fun ⟨a, b, c⟩ => ⟨a, b, c⟩, fun ⟨a, b, c⟩ => ⟨a, b, c⟩⟩

/-- The ids of the line fit an `int`. -/
def UserLine.Fits (l : UserLine) : Prop := (∀ a ∈ l.takes, a ≤ intMax) ∧ ∀ r ∈ l.gives, r ≤ intMax

instance (l : UserLine) : Decidable l.Fits := inferInstanceAs (Decidable (_ ∧ _))

/-- Take the user pipes of some ids one after another, up to the first that is not there. -/
def Call.takeAll (command : List Char) : List ℤ → Call → Except (Call × PipeError) Call
  | [], c => .ok c
  | id :: ids, c =>
    match c.takeUserPipe command id with
    | .error e => .error (c, e)
    | .ok c => c.takeAll command ids

/-! ### Reading the tokens -/

theorem ordinary_head {tok : Token} (h : ordinary tok = true) : tok.head? ≠ some '<' ∧
    tok.head? ≠ some '>' ∧ tok.head? ≠ some '|' ∧ tok.head? ≠ some '!' := by
  refine ⟨?_, ?_, ?_, ?_⟩ <;> intro hcon <;> cases tok with
    | nil => cases hcon
    | cons x xs =>
      obtain rfl := Option.some.inj hcon
      cases h

theorem combine_word (inp : LineInput) {tok : Token} (rest cur : List Token) (c : Call)
    (h : ordinary tok = true) : combine inp (tok :: rest) cur c = combine inp rest (cur ++ [tok]) c := by
  rw [Server.combine.eq_def]
  dsimp only
  rw [if_neg (ordinary_head h).1, if_pos h]

theorem combine_take (inp : LineInput) {ds : List Char} (rest cur : List Token) (c : Call)
    (h : Numeral ds) : combine inp (('<' :: ds) :: rest) cur c =
      match c.takeUserPipe inp.command (atoi ds) with
      | .error e => .rejected { c with server := c.server.print e.entries } e
      | .ok c => combine inp rest cur c := by
  have htok : strtok '<' ('<' :: ds) = some ds := strtok_cons h.1 (h.not_mem (by decide))
  rw [Server.combine.eq_def]
  cases htake : c.takeUserPipe inp.command (atoi ds) with
  | error e => simp only [List.head?_cons, if_true, htok, htake]
  | ok c₁ => simp only [List.head?_cons, if_true, htok, htake]

theorem combine_bar (inp : LineInput) (rest cur : List Token) (c : Call) :
    combine inp (['|'] :: rest) cur c = combine inp rest [] (c.push cur) := by
  rw [Server.combine.eq_def]
  rfl

theorem combine_args (inp : LineInput) : ∀ (args rest cur : List Token) (c : Call),
    (∀ t ∈ args, ordinary t = true) →
    combine inp (args ++ rest) cur c = combine inp rest (cur ++ args) c
  | [], rest, cur, c, _ => by simp
  | t :: args, rest, cur, c, h => by
    rw [List.cons_append, combine_word inp _ _ _ (h t (List.mem_cons_self ..)),
      combine_args inp args rest _ c fun x hx => h x (List.mem_cons_of_mem _ hx)]
    simp

/-- The words of the first command: what is no `<id` becomes its row. -/
theorem combine_words (inp : LineInput) : ∀ (words : List Word) (rest cur : List Token) (c : Call),
    (∀ w ∈ words, w.Ok) →
    combine inp (words.map Word.token ++ rest) cur c =
      match c.takeAll inp.command ((words.filterMap Word.take?).map atoi) with
      | .error (c, e) => .rejected { c with server := c.server.print e.entries } e
      | .ok c => combine inp rest (cur ++ words.filterMap Word.arg?) c
  | [], rest, cur, c, _ => by simp [Call.takeAll]
  | .arg t :: words, rest, cur, c, hok => by
    have ih := combine_words inp words rest (cur ++ [t]) c fun w hw => hok w (List.mem_cons_of_mem _ hw)
    rw [List.append_assoc] at ih
    rw [List.map_cons, List.cons_append, Word.token,
      combine_word inp _ _ _ (hok _ (List.mem_cons_self ..)), ih]
    rfl
  | .take ds :: words, rest, cur, c, hok => by
    rw [List.map_cons, List.cons_append, Word.token,
      combine_take inp _ _ _ (hok _ (List.mem_cons_self ..))]
    simp only [List.filterMap_cons, Word.take?, Word.arg?, List.map_cons, Call.takeAll]
    cases c.takeUserPipe inp.command (atoi ds) with
    | error e => rfl
    | ok c' => exact combine_words inp words rest cur c' fun w hw => hok w (List.mem_cons_of_mem _ hw)

/-- The other commands: each `|` closes the row before it. -/
theorem combine_rest (inp : LineInput) : ∀ (rest : List (List Token)) (suf cur : List Token) (c : Call),
    (∀ x ∈ rest, ∀ t ∈ x, ordinary t = true) →
    ∃ last, combine inp (UserLine.restTokens rest ++ suf) cur c =
        combine inp suf last { c with process := c.process ++ (cur :: rest).dropLast } ∧
      (cur :: rest).dropLast ++ [last] = cur :: rest
  | [], suf, cur, c, _ => ⟨cur, by simp [UserLine.restTokens], rfl⟩
  | x :: rest, suf, cur, c, h => by
    obtain ⟨last, heq, hlast⟩ := combine_rest inp rest suf x (c.push cur)
      fun y hy => h y (List.mem_cons_of_mem _ hy)
    refine ⟨last, ?_, ?_⟩
    · rw [UserLine.restTokens, List.flatMap_cons, List.append_assoc, List.cons_append, combine_bar,
        combine_args inp x _ [] _ (h x (List.mem_cons_self ..)), List.nil_append]
      rw [UserLine.restTokens] at heq
      rw [heq]
      simp [Call.push]
    · rw [List.dropLast_cons_cons, List.cons_append, hlast]

theorem combine_user (inp : LineInput) {ds : List Char} (cur : List Token) (c : Call) (h : Numeral ds) :
    combine inp ['>' :: ds] cur c = match (c.push cur).makeUserPipe (atoi ds) with
      | .error e => .rejected { c.push cur with server := c.server.print e.entries } e
      | .ok c => .ok c := by
  have htok : strtok '>' ('>' :: ds) = some ds := strtok_cons h.1 (h.not_mem (by decide))
  have hne : ds ≠ [] := h.1
  rw [Server.combine.eq_def]
  simp only [List.head?_cons, ordinary, Shell.ordinary, htok]
  simp only [Option.some.injEq, List.cons.injEq, hne, and_false]
  simp only [Char.reduceEq, if_false]
  cases (c.push cur).makeUserPipe (atoi ds) with
  | error e => rfl
  | ok c => simp [combine]

/-- Reading a line: its pipes are taken, its commands collected, and its end is still to be read. -/
theorem parse_userLine {s : Server} {u : ℕ} {inp : LineInput} {l : UserLine}
    (htok : tokens ' ' inp.line = l.tokens) (hok : l.Ok) :
    ∃ last, l.cmds.dropLast ++ [last] = l.cmds ∧ parse s u inp =
      match (startCall s u).takeAll inp.command ((l.words.filterMap Word.take?).map atoi) with
      | .error (c, e) => .rejected { c with server := c.server.print e.entries } e
      | .ok c => combine inp l.tail.tokens last { c with process := c.process ++ l.cmds.dropLast } := by
  have hfirst : Plainly l.first := hok.cmds _ (List.mem_cons_self ..)
  have hname : ordinary l.name = true := hfirst.2.1 _ (List.mem_cons_self ..)
  have htell : ¬ (l.name = tellCmd ∨ l.name = yellCmd) := by
    rcases hfirst.2.2 with hexit | hext
    · rw [Option.some.inj hexit]
      decide
    · rintro (hcon | hcon)
      · exact hext tellCmd (by decide) (congrArg some hcon)
      · exact hext yellCmd (by decide) (congrArg some hcon)
  have hrest : ∀ x ∈ l.rest, ∀ t ∈ x, ordinary t = true := fun x hx =>
    (hok.cmds x (List.mem_cons_of_mem _ hx)).2.1
  have hlast := fun c => combine_rest inp l.rest l.tail.tokens l.first c hrest
  obtain ⟨last, -, hsplit⟩ := hlast (startCall s u)
  refine ⟨last, hsplit, ?_⟩
  rw [parse, htok, UserLine.tokens, List.cons_append]
  dsimp only
  rw [if_neg htell, combine_word inp _ _ _ hname, List.nil_append,
    combine_words inp l.words _ _ _ hok.words]
  cases (startCall s u).takeAll inp.command ((l.words.filterMap Word.take?).map atoi) with
  | error ce => rfl
  | ok c =>
    obtain ⟨last', heq, hsplit'⟩ := hlast c
    rw [show [l.name] ++ l.words.filterMap Word.arg? = l.first from rfl]
    dsimp only
    rw [heq, List.append_cancel_left (hsplit'.trans hsplit.symm) |> List.singleton_inj.mp]
    rfl

end NetProg.Server
