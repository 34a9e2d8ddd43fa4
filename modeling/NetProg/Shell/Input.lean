import NetProg.Shell.Access

/-! Where the shell of project 1 takes its lines from: the `fgets` at the top of the loop of `main`.

    The result of `fgets` is ignored. At the end of the input the string in `line` is what the turn before left
    there, and it loses its last character like any other.

    A child that has the standard input of the shell may move it: a program by reading, the `exit(0)` behind an
    `execvp` that fails by seeking back what the shell has read ahead, and a child that gets past that `exit(0)`
    by taking lines itself. -/

namespace NetProg.Shell

/-- `MAX_INPUT_LENGTH`. -/
def maxInputLength : ℕ := 15100

/-- What `fgets(line, n + 1, stdin)` stores in front of the NUL, and what it leaves in the input. -/
def fgets : ℕ → List Char → List Char × List Char
  | 0, s => ([], s)
  | _ + 1, [] => ([], [])
  | n + 1, c :: s => if c = '\n' then ([c], s) else (c :: (fgets n s).1, (fgets n s).2)

/-- What a turn of the loop is given besides its line: the bytes that happen to be in
    `redirection_file_name`, and which files can be opened; whether the standard input can be sought, which
    commands `execvp` executes, which others `checkFileInPATH` finds, and which programs read what they are
    given; and what the next turn comes to of the input when a child has moved it. -/
structure Surroundings where
  junk : List Char
  junk_length : junk.length = 100
  opens : Opens
  seekable : Bool
  executes : List Token → Bool
  inPath : List Token → Bool
  reads : List Token → Bool
  moved : List Char → List Char

def Surroundings.input (w : Surroundings) (line : List Char) : LineInput := ⟨line, w.junk, w.junk_length, w.opens⟩

/-- Whether a child may move the standard input of the shell. -/
def Surroundings.moves (w : Surroundings) (child : Spawn) : Bool :=
  child.fds.get 0 == some (.own 0) &&
    if w.executes child.argv then w.reads child.argv else w.inPath child.argv || w.seekable

/-- The shell at the top of its loop, with the input it has not read yet, the string that starts at the
    beginning of the array `line`, and whether it has had a child that may move the input. -/
structure Reader where
  shell : Shell
  stdin : List Char
  line : List Char
  moved : Bool

/-- What becomes of a turn: the line it hands to the tokeniser, and whether the loop goes on. -/
inductive Reader.Result where
  | goesOn (l : List Char) (r : Reader)
  | ends (l : List Char)
  /-- `line[strlen(line)-1]=0` in front of the array -/
  | outside

namespace Reader

/-- The string in `line` behind `fgets`; nothing is stored when there is nothing to read. -/
def read (r : Reader) : List Char :=
  if r.stdin = [] then r.line else cString (fgets (maxInputLength - 1) r.stdin).1

/-- `strtok` puts a NUL behind the first token. What is written later stands behind it: a line that begins
    with a number pipe, which is cut again, does not get through. -/
def marked (l : List Char) : List Char :=
  l.takeWhile (· == ' ') ++ (l.dropWhile (· == ' ')).takeWhile (· != ' ')

/-- One turn of the loop. -/
def turn (r : Reader) (w : Surroundings) : Result :=
  match r.read with
  | [] => .outside
  | c :: s =>
    let l := (c :: s).dropLast
    match r.shell.line (w.input l) with
    | .error _ => .ends l
    | .ok (shell, children, _) =>
      let moved := r.moved || children.any w.moves
      let rest := (fgets (maxInputLength - 1) r.stdin).2
      .goesOn l ⟨shell, if moved then w.moved rest else rest, marked l, moved⟩

/-- The lines of the first `n` turns, if none of them writes in front of the array. -/
def executes (world : ℕ → Surroundings) : ℕ → Reader → Option (List (List Char))
  | 0, _ => some []
  | n + 1, r =>
    match r.turn (world 0) with
    | .goesOn l r => (executes (fun i => world (i + 1)) n r).map (l :: ·)
    | .ends l => some [l]
    | .outside => none

/-- No child of the first `n` turns may move the input. -/
def Untouched (world : ℕ → Surroundings) : ℕ → Reader → Prop
  | 0, r => r.moved = false
  | n + 1, r => r.moved = false ∧
    match r.turn (world 0) with
    | .goesOn _ r => Untouched (fun i => world (i + 1)) n r
    | _ => True

end Reader

/-! ### Lines the shell survives -/

open ParserSafety (items rowsOf goesOn passesRow)

/-- Behind this line the shell goes on: nothing stops the combining, and every row begins with a command
    other than `exit`. -/
structure RunsOn (toks : List Token) : Prop where
  combines : Scan.Passes goesOn () (items toks)
  executes : ∀ argv ∈ rowsOf (items toks) [], argv ≠ [] ∧ argv.head? ≠ some exitCmd

theorem execAll_isSome (opens : Opens) (pc : ℕ) (rows : List (List Token)) (e : Exec) :
    (execAll opens pc rows e).toOption.isSome = true ↔
      ∀ argv ∈ rows, argv ≠ [] ∧ argv.head? ≠ some exitCmd := by
  induction rows generalizing e with
  | nil => exact iff_of_true rfl (List.forall_mem_nil _)
  | cons argv rest ih =>
    rw [List.forall_mem_cons, execAll]
    rcases argv with _ | ⟨cmd, args⟩
    · exact iff_of_false Bool.false_ne_true fun h => h.1.1 rfl
    · have hpass := ParserSafety.execProcess_passes opens pc rest.isEmpty cmd args e
      cases hrow : execProcess opens pc rest.isEmpty (cmd :: args) e with
      | error err =>
        rw [hrow, passesRow] at hpass
        refine iff_of_false Bool.false_ne_true fun h => ?_
        rw [if_neg h.1.2] at hpass
        cases hpass
      | ok e' =>
        rw [hrow, passesRow] at hpass
        have hexit : (cmd :: args).head? ≠ some exitCmd := fun heq => by
          rw [if_pos heq] at hpass
          cases hpass
        exact (ih e').trans (and_iff_right ⟨List.cons_ne_nil cmd args, hexit⟩).symm

/-- Whether a line stops the shell is a matter of its tokens. -/
theorem line_isSome (s : Shell) (inp : LineInput) :
    (s.line inp).toOption.isSome = true ↔ RunsOn (tokens ' ' inp.line) := by
  have hrows := ParserSafety.parse_rows s inp
  rw [line]
  cases hp : s.parse inp with
  | error e =>
    rw [hp] at hrows
    refine iff_of_false Bool.false_ne_true fun h => ?_
    rw [if_pos h.combines] at hrows
    cases hrows
  | ok p =>
    rw [hp] at hrows
    by_cases hcombines : Scan.Passes goesOn () (items (tokens ' ' inp.line))
    · rw [if_pos hcombines] at hrows
      have hproc : p.process = rowsOf (items (tokens ' ' inp.line)) [] := Option.some.inj hrows
      have hexec := execAll_isSome inp.opens p.process.length p.process ⟨p.vars, s.environ, [], []⟩
      refine Iff.trans ?_ (hexec.trans ?_)
      · dsimp only
        cases execAll inp.opens p.process.length p.process ⟨p.vars, s.environ, [], []⟩ <;> rfl
      · rw [hproc]
        exact ⟨fun h => ⟨hcombines, h⟩, fun h => h.executes⟩
    · rw [if_neg hcombines] at hrows
      cases hrows

/-- A line the shell survives does not begin with a mark. -/
theorem RunsOn.ordinary {tok : Token} {toks : List Token} (h : RunsOn (tok :: toks)) : ordinary tok = true := by
  by_contra hord
  have hrow : ∀ it l, it.closes = true → items (tok :: toks) = it :: l → False := fun it l hit heq => by
    have hrows := ParserSafety.rowsOf_close hit l [] []
    rw [List.nil_append, List.nil_append] at hrows
    have hmem : ([] : List Token) ∈ rowsOf (items (tok :: toks)) [] := by
      rw [heq, hrows]
      exact List.mem_append_left _ (List.mem_singleton_self _)
    exact (h.executes [] hmem).1 rfl
  by_cases hbar : tok = ['|']
  · subst hbar
    exact hrow _ _ rfl (ParserSafety.items_bar toks)
  by_cases hfile : tok = ['>']
  · subst hfile
    cases toks with
    | nil => exact hrow (.file none) [] rfl rfl
    | cons name rest => exact hrow _ _ rfl (ParserSafety.items_file name rest)
  by_cases hbang : tok.head? = some '!'
  · exact hrow _ _ rfl (ParserSafety.items_shock hord hbar hfile hbang toks)
  · exact hrow _ _ rfl (ParserSafety.items_number hord hbar hfile hbang toks)

/-! ### One turn -/

variable {l s : List Char} {n : ℕ}

theorem fgets_line (hl : '\n' ∉ l) (hlen : l.length < n) : fgets n (l ++ '\n' :: s) = (l ++ ['\n'], s) := by
  induction l generalizing n with
  | nil =>
    obtain ⟨n, rfl⟩ := Nat.exists_eq_add_one.mpr hlen
    rfl
  | cons c l ih =>
    obtain ⟨hc, hl⟩ := not_or.mp (List.mem_cons.not.mp hl)
    obtain ⟨n, rfl⟩ := Nat.exists_eq_add_one.mpr (Nat.zero_lt_of_lt hlen)
    rw [List.cons_append, fgets, if_neg (Ne.symm hc), ih hl (Nat.lt_of_succ_lt_succ hlen)]
    rfl

theorem fgets_last (hl : '\n' ∉ l) (hlen : l.length ≤ n) : fgets n l = (l, []) := by
  induction l generalizing n with
  | nil => cases n <;> rfl
  | cons c l ih =>
    obtain ⟨hc, hl⟩ := not_or.mp (List.mem_cons.not.mp hl)
    obtain ⟨n, rfl⟩ := Nat.exists_eq_add_one.mpr (Nat.zero_lt_of_lt hlen)
    rw [fgets, if_neg (Ne.symm hc), ih hl (Nat.le_of_succ_le_succ hlen)]

namespace Reader

variable {r : Reader} {w : Surroundings} {world : ℕ → Surroundings}

/-- The line a turn hands on. -/
theorem executes_one (h : executes world 1 r = some [l]) : r.read ≠ [] ∧ r.read.dropLast = l := by
  rw [executes, turn] at h
  cases hread : r.read with
  | nil =>
    rw [hread] at h
    cases h
  | cons c t =>
    refine ⟨List.cons_ne_nil c t, ?_⟩
    rw [hread] at h
    dsimp only at h
    cases hline : r.shell.line ((world 0).input (c :: t).dropLast) with
    | error e =>
      rw [hline] at h
      exact List.singleton_inj.mp (Option.some.inj h)
    | ok res =>
      rw [hline] at h
      exact List.singleton_inj.mp (Option.some.inj h)

theorem executes_one_ne_nil : executes world 1 r ≠ some [] := by
  rw [executes, turn]
  cases r.read with
  | nil => exact nofun
  | cons c t =>
    dsimp only
    cases r.shell.line ((world 0).input (c :: t).dropLast) <;> exact nofun

theorem read_line (hr : r.stdin = l ++ '\n' :: s) (hl : '\n' ∉ l) (hlen : l.length ≤ 15098) :
    r.read = cString (l ++ ['\n']) := by
  have hne : r.stdin ≠ [] := by simp [hr]
  rw [read, if_neg hne, hr, fgets_line hl (by simp only [maxInputLength]; omega)]

theorem turn_line (hr : r.stdin = l ++ '\n' :: s) (hl : '\n' ∉ l) (hlen : l.length ≤ 15098) (hplain : '\x00' ∉ l)
    (w : Surroundings) : r.turn w = match r.shell.line (w.input l) with
      | .error _ => .ends l
      | .ok (shell, children, _) =>
        .goesOn l ⟨shell, if r.moved || children.any w.moves then w.moved s else s, marked l,
          r.moved || children.any w.moves⟩ := by
  have hread := read_line hr hl hlen
  rw [cString_eq (by simpa using hplain)] at hread
  have hrest : (fgets (maxInputLength - 1) r.stdin).2 = s := by
    rw [hr, fgets_line hl (by simp only [maxInputLength]; omega)]
  obtain ⟨c, t, hct⟩ := List.exists_cons_of_ne_nil (List.append_ne_nil_of_right_ne_nil l (List.cons_ne_nil '\n' []))
  have hdrop : (c :: t).dropLast = l := by rw [← hct, List.dropLast_concat]
  rw [turn, hread, hct]
  dsimp only
  rw [hdrop, hrest]

end Reader

/-! ### Inputs that are executed as they are -/

/-- The input ends with the newline of the only line that ends the shell. -/
structure EndsItself (text : List Char) : Prop where
  plain : '\x00' ∉ text
  closed : text.getLast? = some '\n'
  last : ∀ pre l post, getLines text = pre ++ l :: post → (RunsOn (tokens ' ' l) ↔ post ≠ [])

theorem getLines_eq_nil {text : List Char} : getLines text = [] ↔ text = [] := by
  refine ⟨fun h => ?_, fun h => h ▸ rfl⟩
  by_contra hne
  by_cases hnl : '\n' ∈ text
  · obtain ⟨l, s, rfl, hl⟩ := List.eq_append_cons_of_mem hnl
    rw [getLines_line hl] at h
    cases h
  · rw [getLines_last hnl hne] at h
    cases h

theorem endsItself_line (hl : '\n' ∉ l) (hplain : '\x00' ∉ l) :
    EndsItself (l ++ '\n' :: s) ↔ (RunsOn (tokens ' ' l) ∧ EndsItself s) ∨ (¬ RunsOn (tokens ' ' l) ∧ s = []) := by
  have hlines := getLines_line hl s
  constructor
  · intro h
    have hfirst := h.last [] l (getLines s) hlines
    by_cases hruns : RunsOn (tokens ' ' l)
    · have hne : s ≠ [] := fun heq => hfirst.mp hruns (getLines_eq_nil.mpr heq)
      refine Or.inl ⟨hruns, ⟨fun hmem => h.plain ?_, ?_, fun pre m post hpre => ?_⟩⟩
      · exact List.mem_append_right _ (List.mem_cons_of_mem _ hmem)
      · have hclosed := h.closed
        rwa [List.getLast?_append_of_ne_nil _ (List.cons_ne_nil _ _), List.getLast?_cons_of_ne_nil hne] at hclosed
      · exact h.last (l :: pre) m post (by rw [hlines, hpre, List.cons_append])
    · refine Or.inr ⟨hruns, ?_⟩
      by_contra hne
      exact hruns (hfirst.mpr (getLines_eq_nil.not.mpr hne))
  · rintro (⟨hruns, h⟩ | ⟨hstops, rfl⟩)
    · have hne : s ≠ [] := fun heq => by
        have hclosed := h.closed
        rw [heq] at hclosed
        cases hclosed
      refine ⟨?_, ?_, fun pre m post hpre => ?_⟩
      · simp [hplain, h.plain]
      · rw [List.getLast?_append_of_ne_nil _ (List.cons_ne_nil _ _), List.getLast?_cons_of_ne_nil hne]
        exact h.closed
      · rw [hlines] at hpre
        cases pre with
        | nil =>
          obtain ⟨rfl, rfl⟩ := List.cons.inj hpre
          exact iff_of_true hruns (getLines_eq_nil.not.mpr hne)
        | cons x pre => exact h.last pre m post (List.cons.inj hpre).2
    · refine ⟨by simp [hplain], by simp, fun pre m post hpre => ?_⟩
      rw [hlines] at hpre
      cases pre with
      | nil =>
        obtain ⟨rfl, rfl⟩ := List.cons.inj hpre
        exact iff_of_false hstops (not_not_intro rfl)
      | cons x pre => simp [getLines, getLinesAux] at hpre

namespace Reader

variable {r r' : Reader} {world : ℕ → Surroundings} {ls : List (List Char)}

/-- Behind a line that ends the shell nothing may come. -/
theorem ends_iff (hturn : r.turn (world 0) = .ends l) :
    (∀ n, executes world n r = some ((l :: ls).take n)) ↔ ls = [] := by
  have hall : ∀ n, executes world (n + 1) r = some [l] := fun n => by rw [executes, hturn]
  constructor
  · intro h
    have htwo := (hall 1).symm.trans (h 2)
    cases ls with
    | nil => rfl
    | cons m ls => cases htwo
  · rintro rfl n
    cases n with
    | zero => rfl
    | succ n => rw [hall, List.take_succ_cons, List.take_nil]

/-- Behind a line that does not, the rest has to be executed as it is. -/
theorem goesOn_iff (hturn : r.turn (world 0) = .goesOn l r') :
    (∀ n, executes world n r = some ((l :: ls).take n)) ↔
      ∀ n, executes (fun i => world (i + 1)) n r' = some (ls.take n) := by
  have hall : ∀ n, executes world (n + 1) r = (executes (fun i => world (i + 1)) n r').map (l :: ·) :=
    fun n => by rw [executes, hturn]
  constructor
  · intro h n
    obtain ⟨ms, hms, heq⟩ := Option.map_eq_some_iff.mp ((hall n).symm.trans (h (n + 1)))
    rw [hms, (List.cons.inj heq).2]
  · intro h n
    cases n with
    | zero => rfl
    | succ n => rw [hall, h n, Option.map_some, List.take_succ_cons]

/-- The last character goes though it is no newline. -/
theorem last_lost (hr : r.stdin = l) (hl : '\n' ∉ l) (hne : l ≠ []) (hlen : l.length ≤ 15098) :
    executes world 1 r ≠ some [l] := by
  intro h
  obtain ⟨-, hdrop⟩ := executes_one h
  have hfits : l.length ≤ maxInputLength - 1 := Nat.le_trans hlen (by decide)
  rw [read, if_neg (hr ▸ hne), hr, fgets_last hl hfits] at hdrop
  dsimp only at hdrop
  have hcut : (cString l).length ≤ l.length := (List.takeWhile_sublist _).length_le
  have hpos := List.length_pos_of_ne_nil hne
  have hlast := congrArg List.length hdrop
  rw [List.length_dropLast] at hlast
  omega

/-- A NUL ends the string before the line does. -/
theorem nul_lost (hr : r.stdin = l ++ '\n' :: s) (hl : '\n' ∉ l) (hlen : l.length ≤ 15098) (hnul : '\x00' ∈ l) :
    executes world 1 r ≠ some [l] := by
  intro h
  obtain ⟨-, hdrop⟩ := executes_one h
  rw [read_line hr hl hlen] at hdrop
  exact not_mem_cString _ (List.dropLast_subset _ (hdrop ▸ hnul))

/-- No child may move the input if each leaves it alone. -/
theorem untouched_of_quiet {world : ℕ → Surroundings} (h : ∀ i child, (world i).moves child = false) {r : Reader}
    (hr : r.moved = false) : ∀ n, Untouched world n r
  | 0 => hr
  | n + 1 => by
    refine ⟨hr, ?_⟩
    rw [turn]
    cases r.read with
    | nil => trivial
    | cons c t =>
      dsimp only
      cases r.shell.line ((world 0).input (c :: t).dropLast) with
      | error e => trivial
      | ok res =>
        refine untouched_of_quiet (fun i => h (i + 1)) ?_ n
        simp [hr, h 0]

/-- A line of the input, and what is left of it. -/
theorem executes_line (hr : r.stdin = l ++ '\n' :: s) (hl : '\n' ∉ l) (hlen : l.length ≤ 15098)
    (hplain : '\x00' ∉ l) (hkept : ∀ n, Untouched world n r)
    (hrest : ∀ r', r'.stdin = s → (∀ n, Untouched (fun i => world (i + 1)) n r') →
      ((∀ n, executes (fun i => world (i + 1)) n r' = some ((getLines s).take n)) ↔ EndsItself s)) :
    (∀ n, executes world n r = some ((l :: getLines s).take n)) ↔ EndsItself (l ++ '\n' :: s) := by
  rw [endsItself_line hl hplain]
  have hturn := turn_line hr hl hlen hplain (world 0)
  have hline := line_isSome r.shell ((world 0).input l)
  cases hres : r.shell.line ((world 0).input l) with
  | error e =>
    rw [hres] at hturn hline
    have hstops : ¬ RunsOn (tokens ' ' l) := fun h => Bool.false_ne_true (hline.mpr h)
    rw [ends_iff hturn, getLines_eq_nil]
    exact ⟨fun h => Or.inr ⟨hstops, h⟩, fun h => (h.resolve_left fun hruns => hstops hruns.1).2⟩
  | ok res =>
    rw [hres] at hturn hline
    have hruns : RunsOn (tokens ' ' l) := hline.mp rfl
    have hnext : ∀ n, Untouched (fun i => world (i + 1)) n _ := fun n => by
      have hlater := (hkept (n + 1)).2
      rw [hturn] at hlater
      exact hlater
    have hquiet : ¬ (r.moved || res.2.1.any (world 0).moves) = true := Bool.eq_false_iff.mp (hnext 0)
    rw [goesOn_iff hturn, hrest _ (if_neg hquiet) hnext]
    exact ⟨fun h => Or.inl ⟨hruns, h⟩, fun h => (h.resolve_right fun hstops => hstops.1 hruns).2⟩

/-- By induction on the input, line by line. -/
theorem executes_iff (text : List Char) (hshort : ∀ l ∈ getLines text, l.length ≤ 15098)
    (world : ℕ → Surroundings) (r : Reader) (hr : r.stdin = text) (hkept : ∀ n, Untouched world n r) :
    (∀ n, executes world n r = some ((getLines text).take n)) ↔ EndsItself text := by
  induction hn : text.length using Nat.strong_induction_on generalizing text world r with
  | _ n ih =>
    subst hn
    by_cases hnl : '\n' ∈ text
    · obtain ⟨l, s, rfl, hl⟩ := List.eq_append_cons_of_mem hnl
      rw [getLines_line hl] at hshort ⊢
      obtain ⟨hlen, hshort⟩ := List.forall_mem_cons.mp hshort
      have hsmaller : s.length < (l ++ '\n' :: s).length := by
        rw [List.length_append, List.length_cons]
        omega
      by_cases hnul : '\x00' ∈ l
      · exact iff_of_false (fun h => nul_lost hr hl hlen hnul (h 1))
          fun h => h.plain (List.mem_append_left _ hnul)
      · exact executes_line hr hl hlen hnul hkept fun r' hr' hkept' =>
          ih s.length hsmaller s hshort _ r' hr' hkept' rfl
    · refine iff_of_false (fun h => ?_) fun h => hnl (List.mem_of_getLast? h.closed)
      by_cases hempty : text = []
      · subst hempty
        exact executes_one_ne_nil (h 1)
      · rw [getLines_last hnl hempty] at h hshort
        exact last_lost hr hnl hempty (hshort text (List.mem_singleton_self text)) (h 1)

end Reader

theorem zeros_length : (List.replicate 100 '\x00').length = 100 := List.length_replicate

/-- Programs that are executed and do not read. -/
def quietWorld : ℕ → Surroundings := fun _ =>
  ⟨List.replicate 100 '\x00', zeros_length, ⟨true, true, none⟩, true, fun _ => true, fun _ => true,
    fun _ => false, id⟩

theorem quietWorld_moves (i : ℕ) (child : Spawn) : (quietWorld i).moves child = false := Bool.and_false _

end NetProg.Shell
