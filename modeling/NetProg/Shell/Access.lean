import NetProg.Lib.Scan
import NetProg.Shell.Model

/-! What the parser and the builtins of a shell touch on a line: the pointers they hand to the string
    functions, and the cells of `token` and `process` they use.

    The accesses are listed along the model of the code, up to the point where a text is copied behind the end
    of its buffer. The second half says of a line alone when all of them are valid. Reading the rows back stays
    within the cells that were filled. -/

namespace NetProg.ParserSafety

/-- `MAX_TOKEN_LENGTH`, `MAX_PROCESS_IN_LINE`, and the length of a row of `process`. -/
def maxTokenLength : ℕ := 10000
def maxProcessInLine : ℕ := 5000
def rowLength : ℕ := 10

inductive Access where
  /-- a string function is called on this pointer -/
  | arg (p : Option Token)
  /-- `fgets` is called on this stream, which `fopen` may not have opened -/
  | stream (opened : Bool)
  /-- `token[i]` -/
  | token (i : ℕ)
  /-- `process[processCount][j]` -/
  | cell (processCount j : ℕ)

/-- `process[processCount][j]` is a cell of the array. -/
def Inside (processCount j : ℕ) : Prop := processCount < maxProcessInLine ∧ j < rowLength

instance instDecidableInside (processCount j : ℕ) : Decidable (Inside processCount j) :=
  inferInstanceAs (Decidable (_ ∧ _))

/-- The pointer is not NULL, the cell is in its array. -/
def Access.Valid : Access → Prop
  | .arg p => p.isSome = true
  | .stream opened => opened = true
  | .token i => i < maxTokenLength
  | .cell processCount j => Inside processCount j

/-- The cell of the open row that is written next. -/
def Access.next (process : List (List Token)) (cur : List Token) : Access :=
  .cell process.length cur.length

/-- Nothing went wrong on the way. -/
def Valid (l : List Access) : Prop := ∀ a ∈ l, a.Valid

/-- `strtok` fills `token` up to its NULL. -/
def tokenAccesses (toks : List Token) : List Access := (List.range (toks.length + 1)).map .token

/-! ### The shell of project 1 -/

section

open Shell

/-- Combining the tokens; `cur` is the row being filled. -/
def combineAccesses (opens : Opens) : List Token → List Token → Parsed → List Access
  | [], cur, p => if cur = [] then [] else [.next p.process cur]
  | tok :: rest, cur, p =>
    if ordinary tok then .next p.process cur :: combineAccesses opens rest (cur ++ [tok]) p
    else if tok = ['|'] then .next p.process cur :: combineAccesses opens rest [] (p.push cur)
    else if tok = ['>'] then
      match rest with
      | [] => [.next p.process cur, .arg none]
      | name :: rest =>
        match p.vars.createFile opens name with
        | none => [.next p.process cur, .arg (some name)]
        | some v => .next p.process cur :: .arg (some name) ::
            combineAccesses opens rest [] { p.push cur with vars := v }
    else if tok.head? = some '!' then
      match strtok '!' tok with
      | none => [.next p.process cur, .arg none]
      | some n => .next p.process cur :: .arg (some n) ::
          combineAccesses opens rest [] ((p.push cur).pipeOut true (atoi n))
    else
      match strtok '|' tok with
      | none => [.next p.process cur, .arg none]
      | some n => .next p.process cur :: .arg (some n) ::
          combineAccesses opens rest [] ((p.push cur).pipeOut false (atoi n))

/-- The process loop: `process[prc][0]` is compared with the builtins. -/
def execAccesses (opens : Opens) (pc : ℕ) : List (List Token) → Exec → List Access
  | [], _ => []
  | argv :: rest, e =>
    .arg argv.head? ::
    match execProcess opens pc rest.isEmpty argv e with
    | .error _ => []
    | .ok e => execAccesses opens pc rest e

/-- One turn of the loop of `main`. -/
def lineAccesses (s : Shell) (inp : LineInput) : List Access :=
  let toks := tokens ' ' inp.line
  tokenAccesses toks ++ combineAccesses inp.opens toks [] ⟨s.startLine inp, [], false⟩ ++
    match s.parse inp with
    | .error _ => []
    | .ok p => execAccesses inp.opens p.process.length p.process ⟨p.vars, s.environ, [], []⟩

end

/-! ### What a line says -/

/-- A token, or `>` with the token behind it. A mark with nothing behind it is missing its part. -/
inductive Item where
  | word (t : Token)
  | bar
  | number (n : Option Token)
  | file (name : Option Token)
  | take (id : Option Token)
  | give (id : Option Token)

namespace Item

/-- Nothing is missing. -/
def Whole : Item → Prop
  | word _ | bar => True
  | number n | file n | take n | give n => n.isSome = true

/-- It ends a row of `process`. -/
def closes : Item → Bool
  | word _ | take _ => false
  | _ => true

/-- It takes a cell of `process`, for a word or for the NULL of a row. -/
def stores : Item → Bool
  | take _ => false
  | _ => true

def isWord : Item → Bool
  | word _ => true
  | _ => false

end Item

/-- The row of `process` behind some items: one for each mark that closes a row. -/
def processCount (l : List Item) : ℕ := l.countP Item.closes

/-- The words in the open row. -/
def wordCount (l : List Item) : ℕ := (l.reverse.takeWhile fun it => !it.closes).countP Item.isWord

/-- The rows of the items; `cur` is the open one. -/
def rowsOf : List Item → List Token → List (List Token)
  | [], cur => if cur = [] then [] else [cur]
  | .word t :: l, cur => rowsOf l (cur ++ [t])
  | .take _ :: l, cur => rowsOf l cur
  | _ :: l, cur => cur :: rowsOf l []

/-- An item that comes to a cell finds one; a mark has its part. -/
structure Fine (done : List Item) (it : Item) : Prop where
  whole : it.Whole
  room : it.stores = true → Inside (processCount done) (wordCount done)

/-- There is a cell for the NULL behind the last row. -/
def Closed (l : List Item) : Prop := wordCount l ≠ 0 → Inside (processCount l) (wordCount l)

/-- `redirection_file_name`. -/
def fileFits : Option Token → Bool
  | none => false
  | some name => name.length ≤ 100

@[simp] theorem processCount_nil : processCount [] = 0 := rfl

@[simp] theorem wordCount_nil : wordCount [] = 0 := rfl

theorem processCount_concat (l : List Item) (it : Item) :
    processCount (l ++ [it]) = processCount l + if it.closes = true then 1 else 0 := by
  rw [processCount, List.countP_append, List.countP_singleton, processCount]

theorem wordCount_concat (l : List Item) (it : Item) :
    wordCount (l ++ [it]) =
      if it.closes = true then 0 else wordCount l + if it.isWord = true then 1 else 0 := by
  rw [wordCount, List.reverse_append, List.reverse_singleton, List.singleton_append, List.takeWhile_cons]
  by_cases h : it.closes = true
  · simp [h]
  · simp [h, List.countP_cons, wordCount]

/-- Where the next word of the row being filled goes, after some items. -/
structure At (done : List Item) (process : List (List Token)) (cur : List Token) : Prop where
  row : processCount done = process.length
  col : wordCount done = cur.length

theorem At.word {done : List Item} {process : List (List Token)} {cur : List Token}
    (h : At done process cur) (tok : Token) : At (done ++ [.word tok]) process (cur ++ [tok]) := by
  constructor
  · rw [processCount_concat, h.row]
    rfl
  · rw [wordCount_concat, h.col, List.length_append]
    rfl

theorem At.take {done : List Item} {process : List (List Token)} {cur : List Token}
    (h : At done process cur) (id : Option Token) : At (done ++ [.take id]) process cur := by
  constructor
  · rw [processCount_concat, h.row]
    rfl
  · rw [wordCount_concat, h.col]
    rfl

theorem At.close {done : List Item} {process : List (List Token)} {cur : List Token}
    (h : At done process cur) (it : Item) (hit : it.closes = true) :
    At (done ++ [it]) (process ++ [cur]) [] := by
  constructor
  · rw [processCount_concat, h.row, if_pos hit, List.length_append]
    rfl
  · rw [wordCount_concat, if_pos hit]
    rfl

theorem valid_nil : Valid [] := fun _ h => absurd h List.not_mem_nil

theorem valid_cons {a : Access} {l : List Access} : Valid (a :: l) ↔ a.Valid ∧ Valid l :=
  List.forall_mem_cons

theorem valid_append {l l' : List Access} : Valid (l ++ l') ↔ Valid l ∧ Valid l' :=
  List.forall_mem_append

theorem rowsOf_word (t : Token) (l : List Item) (cur : List Token) :
    rowsOf (.word t :: l) cur = rowsOf l (cur ++ [t]) := rfl

/-- A mark puts the open row behind the others. -/
theorem rowsOf_close {it : Item} (h : it.closes = true) (l : List Item) (cur : List Token)
    (process : List (List Token)) :
    process ++ rowsOf (it :: l) cur = process ++ [cur] ++ rowsOf l [] := by
  rw [List.append_assoc]
  cases it <;> first | rfl | cases h

/-- The NULL behind the last row. -/
theorem closed_iff {done : List Item} {process : List (List Token)} {cur : List Token}
    (h : At done process cur) :
    Closed done ↔ Valid (if cur = [] then [] else [.next process cur]) := by
  rw [Closed, h.row, h.col]
  by_cases hcur : cur = []
  · simp [hcur, valid_nil]
  · rw [if_neg hcur, valid_cons]
    simp [hcur, valid_nil, Access.Valid, Access.next]

/-- An item that takes a cell. -/
theorem fine_iff {done : List Item} {process : List (List Token)} {cur : List Token}
    (h : At done process cur) {it : Item} (hit : it.stores = true) (hwhole : it.Whole) :
    Fine done it ↔ (Access.next process cur).Valid := by
  constructor
  · intro hf
    have hroom := hf.room hit
    rwa [h.row, h.col] at hroom
  · intro hroom
    refine ⟨hwhole, fun _ => ?_⟩
    rwa [h.row, h.col]

theorem valid_arg (t : Token) (l : List Access) : Valid (.arg (some t) :: l) ↔ Valid l := by
  rw [valid_cons]
  exact and_iff_right rfl

section

variable {T : Type} {next : T → Item → Option T} {t t' : T} {done l : List Item} {it : Item}
  {process : List (List Token)} {cur : List Token} {accs : List Access}

/-- An item behind which the line goes on. -/
theorem clear_step (h : At done process cur) (hit : it.stores = true) (hwhole : it.Whole)
    (hnext : next t it = some t')
    (hrest : Valid accs ↔ Scan.Clear next Fine Closed t' (done ++ [it]) l) :
    Valid (.next process cur :: accs) ↔ Scan.Clear next Fine Closed t done (it :: l) := by
  rw [Scan.clear_cons_some hnext, fine_iff h hit hwhole, valid_cons, hrest]

/-- An item behind which the line does not go on. -/
theorem clear_stop (h : At done process cur) (hit : it.stores = true) (hwhole : it.Whole)
    (hnext : next t it = none) (hrest : Valid accs) :
    Valid (.next process cur :: accs) ↔ Scan.Clear next Fine Closed t done (it :: l) := by
  rw [Scan.clear_cons_none hnext, fine_iff h hit hwhole, valid_cons]
  exact and_iff_left hrest

/-- An item that lacks its part. -/
theorem clear_missing (hpart : ¬ it.Whole) (haccs : .arg none ∈ accs) :
    Valid accs ↔ Scan.Clear next Fine Closed t done (it :: l) := by
  constructor
  · intro h
    cases h _ haccs
  · rintro ⟨hf, -⟩
    exact absurd hf.whole hpart

end

/-! ### The lines project 1 reads safely -/

section

open Shell

/-- The tokens of a line, as project 1 tells them apart. -/
def items : List Token → List Item
  | [] => []
  | tok :: rest =>
    if ordinary tok then .word tok :: items rest
    else if tok = ['|'] then .bar :: items rest
    else if tok = ['>'] then
      match rest with
      | [] => [.file none]
      | name :: rest => .file (some name) :: items rest
    else if tok.head? = some '!' then .number (strtok '!' tok) :: items rest
    else .number (strtok '|' tok) :: items rest

theorem items_word {tok : Token} (h : ordinary tok = true) (rest : List Token) :
    items (tok :: rest) = .word tok :: items rest := by
  rw [items.eq_def]
  exact if_pos h

theorem items_bar (rest : List Token) : items (['|'] :: rest) = .bar :: items rest := by
  rw [items.eq_def]
  rfl

theorem items_file (name : Token) (rest : List Token) :
    items (['>'] :: name :: rest) = .file (some name) :: items rest := rfl

theorem items_shock {tok : Token} (hord : ¬ ordinary tok = true) (hbar : tok ≠ ['|'])
    (hfile : tok ≠ ['>']) (hbang : tok.head? = some '!') (rest : List Token) :
    items (tok :: rest) = .number (strtok '!' tok) :: items rest := by
  rw [items.eq_def]
  simp only [hord, hbar, hfile, hbang, if_false, if_true, Bool.false_eq_true]

theorem items_number {tok : Token} (hord : ¬ ordinary tok = true) (hbar : tok ≠ ['|'])
    (hfile : tok ≠ ['>']) (hbang : ¬ tok.head? = some '!') (rest : List Token) :
    items (tok :: rest) = .number (strtok '|' tok) :: items rest := by
  rw [items.eq_def]
  simp only [hord, hbar, hfile, hbang, if_false, Bool.false_eq_true]

/-- The line goes on behind an item. -/
def goesOn (_ : Unit) : Item → Option Unit
  | .word _ | .bar => some ()
  | .number n => if n.isSome then some () else none
  | .file name => if fileFits name then some () else none
  | .take _ | .give _ => none

/-- The process loop goes on behind a row. -/
def passesRow (_ : Unit) (argv : List Token) : Option Unit :=
  if argv.head? = some exitCmd then none else some ()

/-- The lines the shell of project 1 processes without a bad access. -/
structure Harmless (toks : List Token) : Prop where
  /-- Every item that combining comes to has its part and its cell. -/
  items_fine : ∀ pre it post, items toks = pre ++ it :: post → Scan.Passes goesOn () pre → Fine pre it
  closed : Scan.Passes goesOn () (items toks) → Closed (items toks)
  /-- No row before an `exit` is empty. -/
  rows_fine : Scan.Passes goesOn () (items toks) → ∀ pre argv post,
    rowsOf (items toks) [] = pre ++ argv :: post → Scan.Passes passesRow () pre → argv ≠ []

theorem createFile_eq_none {v : Vars} {opens : Opens} {name : Token}
    (h : v.createFile opens name = none) : v.redirectionFileName.length < name.length := by
  by_contra hle
  rw [Vars.createFile, strncpy, if_pos (by omega)] at h
  dsimp only at h
  split at h <;> cases h

theorem createFile_eq_some {v w : Vars} {opens : Opens} {name : Token}
    (h : v.createFile opens name = some w) : name.length ≤ v.redirectionFileName.length ∧
      w.redirectionFileName.length = v.redirectionFileName.length := by
  rw [Vars.createFile, strncpy] at h
  by_cases hle : name.length ≤ v.redirectionFileName.length
  · refine ⟨hle, ?_⟩
    rw [if_pos hle] at h
    dsimp only at h
    split at h <;> cases h <;> simp <;> omega
  · rw [if_neg hle] at h
    cases h

theorem fileFits_of_none {v : Vars} {opens : Opens} {name : Token}
    (h : v.createFile opens name = none) (hbuf : v.redirectionFileName.length = 100) :
    fileFits (some name) = false := by
  have hlt := createFile_eq_none h
  exact decide_eq_false (by omega)

theorem fileFits_of_some {v w : Vars} {opens : Opens} {name : Token}
    (h : v.createFile opens name = some w) (hbuf : v.redirectionFileName.length = 100) :
    fileFits (some name) = true ∧ w.redirectionFileName.length = 100 := by
  obtain ⟨hle, hlen⟩ := createFile_eq_some h
  exact ⟨decide_eq_true (by omega), by omega⟩

theorem numberPipe_buffer (v : Vars) (n : ℤ) :
    (v.numberPipe n).redirectionFileName = v.redirectionFileName := by
  rw [Vars.numberPipe]
  split <;> rfl

theorem pipeOut_buffer (p : Parsed) (shock : Bool) (n : ℤ) :
    (p.pipeOut shock n).vars.redirectionFileName = p.vars.redirectionFileName := by
  rw [Parsed.pipeOut]
  cases shock <;> exact numberPipe_buffer ..

/-- Combining makes no bad access if and only if each item it comes to is fine. -/
theorem combine_clear (opens : Opens) (toks cur : List Token) (p : Parsed) (done : List Item)
    (hbuf : p.vars.redirectionFileName.length = 100) (h : At done p.process cur) :
    Valid (combineAccesses opens toks cur p) ↔
      Scan.Clear goesOn Fine Closed () done (items toks) := by
  fun_induction combineAccesses opens toks cur p generalizing done with
  | case1 p => exact (closed_iff h).symm
  | case2 cur p hcur =>
    rw [items, Scan.Clear, closed_iff h, if_neg hcur]
  | case3 tok rest cur p hord ih =>
    rw [items_word hord]
    exact clear_step h rfl trivial rfl (ih _ hbuf (h.word tok))
  | case4 rest cur p hord ih =>
    rw [items_bar]
    exact clear_step h rfl trivial rfl (ih _ hbuf (h.close _ rfl))
  | case5 cur p hord hbar =>
    exact clear_missing Bool.false_ne_true (by simp)
  | case6 cur p name rest hcreate hord hbar =>
    rw [items_file]
    refine clear_stop h rfl rfl ?_ ((valid_arg ..).mpr valid_nil)
    rw [goesOn, fileFits_of_none hcreate hbuf]
    rfl
  | case7 cur p name rest v hcreate hord hbar ih =>
    obtain ⟨hfits, hv⟩ := fileFits_of_some hcreate hbuf
    rw [items_file]
    refine clear_step h rfl rfl (by rw [goesOn, if_pos hfits]) ?_
    rw [valid_arg]
    exact ih _ hv (h.close _ rfl)
  | case8 tok rest cur p hord hbar hfile hbang hn =>
    rw [items_shock hord hbar hfile hbang, hn]
    exact clear_missing Bool.false_ne_true (by simp)
  | case9 tok rest cur p hord hbar hfile hbang n hn ih =>
    rw [items_shock hord hbar hfile hbang, hn]
    refine clear_step h rfl rfl rfl ?_
    rw [valid_arg]
    exact ih _ ((congrArg _ (pipeOut_buffer ..)).trans hbuf) (h.close _ rfl)
  | case10 tok rest cur p hord hbar hfile hbang hn =>
    rw [items_number hord hbar hfile hbang, hn]
    exact clear_missing Bool.false_ne_true (by simp)
  | case11 tok rest cur p hord hbar hfile hbang n hn ih =>
    rw [items_number hord hbar hfile hbang, hn]
    refine clear_step h rfl rfl rfl ?_
    rw [valid_arg]
    exact ih _ ((congrArg _ (pipeOut_buffer ..)).trans hbuf) (h.close _ rfl)

/-- What combining gives: the rows of the items, if the line goes on to its end. -/
theorem combine_rows (opens : Opens) (toks cur : List Token) (p : Parsed)
    (hbuf : p.vars.redirectionFileName.length = 100) :
    (combine opens toks cur p).toOption.map Parsed.process =
      if Scan.Passes goesOn () (items toks) then some (p.process ++ rowsOf (items toks) cur)
      else none := by
  fun_induction combine opens toks cur p with
  | case1 cur p =>
    rw [items, if_pos (Scan.passes_nil ..), rowsOf, Except.toOption, Option.map_some]
    split_ifs <;> simp [Parsed.push]
  | case2 tok rest cur p hord ih =>
    rw [ih hbuf, items_word hord, rowsOf_word, if_congr (Scan.passes_cons_some rfl) rfl rfl]
  | case3 rest cur p hord ih =>
    rw [ih hbuf, items_bar, rowsOf_close rfl, if_congr (Scan.passes_cons_some rfl) rfl rfl]
    rfl
  | case4 cur p hord hbar => rfl
  | case5 cur p name rest hcreate hord hbar =>
    have hstop : goesOn () (.file (some name)) = none := by
      rw [goesOn, fileFits_of_none hcreate hbuf]
      rfl
    rw [items_file, if_neg (Scan.passes_cons_none hstop)]
    rfl
  | case6 cur p name rest v hcreate hord hbar ih =>
    obtain ⟨hfits, hv⟩ := fileFits_of_some hcreate hbuf
    have hgo : goesOn () (.file (some name)) = some () := if_pos hfits
    rw [ih hv, items_file, rowsOf_close rfl, if_congr (Scan.passes_cons_some hgo) rfl rfl]
    rfl
  | case7 tok rest cur p hord hbar hfile hbang hn =>
    rw [items_shock hord hbar hfile hbang, hn, if_neg (Scan.passes_cons_none rfl)]
    rfl
  | case8 tok rest cur p hord hbar hfile hbang n hn ih =>
    rw [ih ((congrArg _ (pipeOut_buffer ..)).trans hbuf), items_shock hord hbar hfile hbang, hn,
      rowsOf_close rfl, if_congr (Scan.passes_cons_some rfl) rfl rfl]
    rfl
  | case9 tok rest cur p hord hbar hfile hbang hn =>
    rw [items_number hord hbar hfile hbang, hn, if_neg (Scan.passes_cons_none rfl)]
    rfl
  | case10 tok rest cur p hord hbar hfile hbang n hn ih =>
    rw [ih ((congrArg _ (pipeOut_buffer ..)).trans hbuf), items_number hord hbar hfile hbang, hn,
      rowsOf_close rfl, if_congr (Scan.passes_cons_some rfl) rfl rfl]
    rfl

/-- The process loop stops at an `exit` only. -/
theorem execProcess_passes (opens : Opens) (pc : ℕ) (last : Bool) (cmd : Token) (args : List Token)
    (e : Exec) : (execProcess opens pc last (cmd :: args) e).toOption.map (fun _ => ()) =
      passesRow () (cmd :: args) := by
  by_cases hexit : cmd = exitCmd
  · rw [hexit]
    rfl
  · rw [passesRow, if_neg (by simpa using hexit), execProcess.eq_def]
    dsimp only
    split_ifs
    · split
      · rfl
      · split <;> rfl
    · split <;> rfl
    · rfl

/-- The process loop makes no bad access if and only if no row it comes to is empty. -/
theorem exec_clear (opens : Opens) (pc : ℕ) (rows : List (List Token)) (e : Exec)
    (done : List (List Token)) :
    Valid (execAccesses opens pc rows e) ↔
      Scan.Clear passesRow (fun _ argv => argv ≠ []) (fun _ => True) () done rows := by
  induction rows generalizing e done with
  | nil => exact iff_of_true valid_nil trivial
  | cons argv rest ih =>
    rw [execAccesses, valid_cons]
    rcases argv with _ | ⟨cmd, args⟩
    · exact iff_of_false (fun h => Bool.false_ne_true h.1) fun h => h.1 rfl
    · have hpass := execProcess_passes opens pc rest.isEmpty cmd args e
      cases hrow : execProcess opens pc rest.isEmpty (cmd :: args) e with
      | error err =>
        rw [hrow] at hpass
        rw [Scan.clear_cons_none hpass.symm]
        exact iff_of_true ⟨rfl, valid_nil⟩ (by simp)
      | ok e' =>
        rw [hrow] at hpass
        rw [Scan.clear_cons_some hpass.symm, ← ih e' (done ++ [cmd :: args])]
        exact and_congr_left fun _ => iff_of_true rfl (by simp)

theorem tokenAccesses_valid {line : List Char} (h : line.length ≤ 15098) :
    Valid (tokenAccesses (tokens ' ' line)) := by
  intro a ha
  obtain ⟨i, hi, rfl⟩ := List.mem_map.mp ha
  have hlen := tokens_length line
  have hi := List.mem_range.mp hi
  rw [Access.Valid, maxTokenLength]
  omega

theorem startLine_buffer (s : Shell) (inp : LineInput) :
    (s.startLine inp).redirectionFileName.length = 100 := by
  have hjunk := inp.junk_length
  rw [startLine]
  split_ifs <;> simpa [Vars.countdown] using hjunk

/-- The rows of a line that combining gets through. -/
theorem parse_rows (s : Shell) (inp : LineInput) : (s.parse inp).toOption.map Parsed.process =
    if Scan.Passes goesOn () (items (tokens ' ' inp.line)) then some (rowsOf (items (tokens ' ' inp.line)) [])
    else none :=
  combine_rows inp.opens (tokens ' ' inp.line) [] ⟨s.startLine inp, [], false⟩ (startLine_buffer s inp)

theorem harmless_iff (s : Shell) (inp : LineInput) (hshort : inp.line.length ≤ 15098) :
    Valid (lineAccesses s inp) ↔ Harmless (tokens ' ' inp.line) := by
  have hcomb := combine_clear inp.opens (tokens ' ' inp.line) [] ⟨s.startLine inp, [], false⟩ []
    (startLine_buffer s inp) ⟨rfl, rfl⟩
  have hrows := parse_rows s inp
  have hexec : Valid (match s.parse inp with
      | .error _ => []
      | .ok p => execAccesses inp.opens p.process.length p.process ⟨p.vars, s.environ, [], []⟩) ↔
      (Scan.Passes goesOn () (items (tokens ' ' inp.line)) → ∀ pre argv post,
        rowsOf (items (tokens ' ' inp.line)) [] = pre ++ argv :: post →
          Scan.Passes passesRow () pre → argv ≠ []) := by
    by_cases hpass : Scan.Passes goesOn () (items (tokens ' ' inp.line))
    · rw [if_pos hpass] at hrows
      cases hp : s.parse inp with
      | error e => simp [hp, Except.toOption] at hrows
      | ok p =>
        have hproc : p.process = rowsOf (items (tokens ' ' inp.line)) [] := by
          simpa [hp, Except.toOption] using hrows
        dsimp only
        rw [exec_clear _ _ _ _ [], Scan.clear_iff, hproc]
        exact ⟨fun h _ => h.1, fun h => ⟨h hpass, fun _ => trivial⟩⟩
    · rw [if_neg hpass] at hrows
      cases hp : s.parse inp with
      | error e => exact iff_of_true valid_nil fun h => absurd h hpass
      | ok p => simp [hp, Except.toOption] at hrows
  rw [lineAccesses, valid_append, valid_append, hcomb, hexec, Scan.clear_iff]
  exact ⟨fun h => ⟨h.1.2.1, h.1.2.2, h.2⟩,
    fun h => ⟨⟨tokenAccesses_valid hshort, h.items_fine, h.closed⟩, h.rows_fine⟩⟩

end

end NetProg.ParserSafety
