import NetProg.Server.Call
import NetProg.Shell.Access

/-! What the shell of the single-process server touches on a line, and when all of it is valid. -/

namespace NetProg.ParserSafety

/-! ### The accesses -/

section

open Server

/-- Combining the tokens; `cur` is the row being filled. -/
def serverCombineAccesses (inp : LineInput) : List Token → List Token → Call → List Access
  | [], cur, c => if cur = [] then [] else [.next c.process cur]
  | tok :: rest, cur, c =>
    if tok.head? = some '<' then
      match strtok '<' tok with
      | none => [.arg none]
      | some n =>
        match c.takeUserPipe inp.command (atoi n) with
        | .error _ => [.arg (some n)]
        | .ok c => .arg (some n) :: serverCombineAccesses inp rest cur c
    else if ordinary tok then .next c.process cur :: serverCombineAccesses inp rest (cur ++ [tok]) c
    else if tok = ['|'] then .next c.process cur :: serverCombineAccesses inp rest [] (c.push cur)
    else if tok = ['>'] then
      match rest with
      | [] => [.next c.process cur, .arg none]
      | name :: rest =>
        match c.vars.createFile inp.opens name with
        | none => [.next c.process cur, .arg (some name)]
        | some v => .next c.process cur :: .arg (some name) :: serverCombineAccesses inp rest []
            { c.push cur with vars := v, server := c.server.print [.fflush] }
    else if tok.head? = some '!' then
      match strtok '!' tok with
      | none => [.next c.process cur, .arg none]
      | some n => .next c.process cur :: .arg (some n) ::
          serverCombineAccesses inp rest [] ((c.push cur).pipeOut true (atoi n))
    else if tok.head? = some '|' then
      match strtok '|' tok with
      | none => [.next c.process cur, .arg none]
      | some n => .next c.process cur :: .arg (some n) ::
          serverCombineAccesses inp rest [] ((c.push cur).pipeOut false (atoi n))
    else
      match strtok '>' tok with
      | none => [.next c.process cur, .arg none]
      | some n =>
        match (c.push cur).makeUserPipe (atoi n) with
        | .error _ => [.next c.process cur, .arg (some n)]
        | .ok d => .next c.process cur :: .arg (some n) :: serverCombineAccesses inp rest [] d

/-- One turn of the process loop: `strcmp` on `process[prc][0]`, then what the builtin does with its
    arguments. -/
def rowAccesses (inp : LineInput) (argv : List Token) : List Access :=
  .arg argv.head? ::
    if argv.head? = some batchCmd then [.arg argv[1]?, .stream inp.batch]
    else if argv.head? = some tellCmd then [.arg argv[1]?]
    else []

/-- The process loop. -/
def execRowsAccesses (inp : LineInput) (pc : ℕ) : List (List Token) → Call → List Access
  | [], _ => []
  | argv :: rest, c =>
    rowAccesses inp argv ++
    match execRow inp pc rest.isEmpty argv c with
    | .next c => execRowsAccesses inp pc rest c
    | _ => []

/-- `tell_yell_flag`. -/
def IsMessage (toks : List Token) : Prop := toks.head? = some tellCmd ∨ toks.head? = some yellCmd

instance instDecidableIsMessage (toks : List Token) : Decidable (IsMessage toks) :=
  inferInstanceAs (Decidable (_ ∨ _))

/-- One call of `npshell` on a line. A line of `tell` or `yell` fills row 0. -/
def npshellAccesses (s : Server) (u : ℕ) (inp : LineInput) : List Access :=
  if inp.line = [] then []
  else
    let s := { s with environ := setenv s.environ ['P', 'A', 'T', 'H'] (s.user u).env }
    let toks := tokens ' ' inp.line
    tokenAccesses toks ++ .arg toks.head? ::
      (if IsMessage toks then (List.range (toks.length + 1)).map (.cell 0)
      else serverCombineAccesses inp toks [] (startCall s u)) ++
      match parse s u inp with
      | .ok c => execRowsAccesses inp c.process.length c.process c.resolve
      | _ => []

end

/-! ### The lines the server reads safely -/

section

open Server

/-- The tokens of a line, as the server tells them apart. -/
def serverItems : List Token → List Item
  | [] => []
  | tok :: rest =>
    if tok.head? = some '<' then .take (strtok '<' tok) :: serverItems rest
    else if ordinary tok then .word tok :: serverItems rest
    else if tok = ['|'] then .bar :: serverItems rest
    else if tok = ['>'] then
      match rest with
      | [] => [.file none]
      | name :: rest => .file (some name) :: serverItems rest
    else if tok.head? = some '!' then .number (strtok '!' tok) :: serverItems rest
    else if tok.head? = some '|' then .number (strtok '|' tok) :: serverItems rest
    else .give (strtok '>' tok) :: serverItems rest

theorem serverItems_take {tok : Token} (h : tok.head? = some '<') (rest : List Token) :
    serverItems (tok :: rest) = .take (strtok '<' tok) :: serverItems rest := by
  rw [serverItems.eq_def]
  exact if_pos h

theorem serverItems_word {tok : Token} (htake : ¬ tok.head? = some '<') (h : ordinary tok = true)
    (rest : List Token) : serverItems (tok :: rest) = .word tok :: serverItems rest := by
  rw [serverItems.eq_def]
  simp only [htake, h, if_false, if_true]

theorem serverItems_bar (rest : List Token) :
    serverItems (['|'] :: rest) = .bar :: serverItems rest := by
  rw [serverItems.eq_def]
  rfl

theorem serverItems_file (name : Token) (rest : List Token) :
    serverItems (['>'] :: name :: rest) = .file (some name) :: serverItems rest := rfl

theorem serverItems_mark {tok : Token} (htake : ¬ tok.head? = some '<')
    (hord : ¬ ordinary tok = true) (hbar : tok ≠ ['|']) (hfile : tok ≠ ['>']) (rest : List Token) :
    serverItems (tok :: rest) =
      (if tok.head? = some '!' then .number (strtok '!' tok)
        else if tok.head? = some '|' then .number (strtok '|' tok)
        else .give (strtok '>' tok)) :: serverItems rest := by
  rw [serverItems.eq_def]
  simp only [htake, hord, hbar, hfile, if_false, Bool.false_eq_true]
  split_ifs <;> rfl

/-- The line of user `u` goes on behind an item, with the records it then finds. -/
def serverGoesOn (u : ℕ) (exist : ℤ → Bool) (record : ℕ → ℕ → Bool) : Item → Option (ℕ → ℕ → Bool)
  | .word _ | .bar => some record
  | .number n => if n.isSome then some record else none
  | .file name => if fileFits name then some record else none
  | .take none | .give none => none
  | .take (some n) =>
    let sender := (atoi n).toNat
    if exist (atoi n) ∧ record sender (u + 1) then
      some (Function.update record sender (Function.update (record sender) (u + 1) false))
    else none
  | .give (some n) =>
    let receiver := (atoi n).toNat
    if exist (atoi n) ∧ ¬ record (u + 1) receiver then
      some (Function.update record (u + 1) (Function.update (record (u + 1)) receiver true))
    else none

/-- `setenv` on the environment. -/
def environAfter (environ : Environ) : List Token → Environ
  | name :: value :: _ => setenv environ name value
  | _ => environ

/-- The process loop goes on behind a row, with the environment it then has. -/
def serverPassesRow (environ : Environ) (argv : List Token) : Option Environ :=
  if argv.head? = some Shell.printenvCmd then
    if printenvFits environ argv.tail then some environ else none
  else if argv.head? = some Shell.setenvCmd then
    if setenvFits argv.tail then some (environAfter environ argv.tail) else none
  else if argv.head? = some Shell.exitCmd then none
  else some environ

/-- A row has a command, and the command the argument it reads. -/
structure RowFine (batch : Bool) (argv : List Token) : Prop where
  command : argv ≠ []
  batch_file : argv.head? = some batchCmd → 2 ≤ argv.length ∧ batch = true
  tell_receiver : argv.head? = some tellCmd → 2 ≤ argv.length

/-- The builtin of a row copies nothing over the end of a buffer: `env`, or the `env` or `name` of the user. -/
structure RowCopies (environ : Environ) (argv : List Token) : Prop where
  printenv : argv.head? = some Shell.printenvCmd → printenvFits environ argv.tail = true
  setenv : argv.head? = some Shell.setenvCmd → setenvFits argv.tail = true
  name : argv.head? = some nameCmd → ∀ n ∈ argv[1]?, n.length < 30

/-- No name behind a `>` that combining comes to, and no row that the process loop comes to, is copied over the
    end of its buffer. -/
structure CopiesFit (s : Server) (u : ℕ) (toks : List Token) : Prop where
  files : ¬ IsMessage toks → ∀ pre n post, serverItems toks = pre ++ .file (some n) :: post →
    Scan.Passes (serverGoesOn u s.checkIdExist) s.namePipeRecord pre → n.length ≤ 100
  rows : ¬ IsMessage toks → ∀ pre argv post e, rowsOf (serverItems toks) [] = pre ++ argv :: post →
    pre.foldlM serverPassesRow (setenv s.environ ['P', 'A', 'T', 'H'] (s.user u).env) = some e → RowCopies e argv

/-- The lines the server processes for user `u` without a bad access. -/
structure ServerHarmless (s : Server) (u : ℕ) (inp : LineInput) (toks : List Token) : Prop where
  /-- The line does not consist of blanks. -/
  not_blank : inp.line ≠ [] → toks ≠ []
  /-- A `tell` or `yell` fits one row, and a `tell` has a receiver. -/
  message : IsMessage toks → toks.length < rowLength ∧ (toks.head? = some tellCmd → 2 ≤ toks.length)
  /-- Every item that combining comes to has its part and its cell. -/
  items_fine : ¬ IsMessage toks → ∀ pre it post, serverItems toks = pre ++ it :: post →
    Scan.Passes (serverGoesOn u s.checkIdExist) s.namePipeRecord pre → Fine pre it
  closed : ¬ IsMessage toks →
    Scan.Passes (serverGoesOn u s.checkIdExist) s.namePipeRecord (serverItems toks) →
      Closed (serverItems toks)
  rows_fine : ¬ IsMessage toks →
    Scan.Passes (serverGoesOn u s.checkIdExist) s.namePipeRecord (serverItems toks) →
      ∀ pre argv post, rowsOf (serverItems toks) [] = pre ++ argv :: post →
        Scan.Passes serverPassesRow (setenv s.environ ['P', 'A', 'T', 'H'] (s.user u).env) pre →
          RowFine inp.batch argv

theorem checkIdExist_made (c : Call) (receiver : ℕ) :
    (c.made receiver).server.checkIdExist = c.server.checkIdExist := by
  funext id
  simp only [checkIdExist, valid_made]

theorem serverPipeOut_buffer (c : Call) (shock : Bool) (n : ℤ) :
    (c.pipeOut shock n).vars.redirectionFileName = c.vars.redirectionFileName := by
  rw [Call.pipeOut]
  cases shock <;> exact numberPipe_buffer ..

theorem goesOn_take_none {c : Call} {command : List Char} {n : Token} {e : PipeError}
    (h : c.takeUserPipe command (atoi n) = .error e) :
    serverGoesOn c.u c.server.checkIdExist c.server.namePipeRecord (.take (some n)) = none := by
  refine if_neg fun ⟨hexist, hrecord⟩ => ?_
  rw [takeUserPipe_ok.mpr ⟨hexist, hrecord, rfl⟩] at h
  cases h

theorem goesOn_take_some {c d : Call} {command : List Char} {n : Token}
    (h : c.takeUserPipe command (atoi n) = .ok d) :
    serverGoesOn c.u c.server.checkIdExist c.server.namePipeRecord (.take (some n)) =
      some d.server.namePipeRecord := by
  obtain ⟨hexist, hrecord, rfl⟩ := takeUserPipe_ok.mp h
  exact if_pos ⟨hexist, hrecord⟩

theorem goesOn_give_none {c : Call} {cur : List Token} {n : Token} {e : PipeError}
    (h : (c.push cur).makeUserPipe (atoi n) = .error e) :
    serverGoesOn c.u c.server.checkIdExist c.server.namePipeRecord (.give (some n)) = none := by
  refine if_neg fun ⟨hexist, hrecord⟩ => ?_
  have hmade : (c.push cur).makeUserPipe (atoi n) = .ok _ :=
    makeUserPipe_ok.mpr ⟨hexist, Bool.eq_false_of_not_eq_true hrecord, rfl⟩
  rw [hmade] at h
  cases h

theorem goesOn_give_some {c d : Call} {cur : List Token} {n : Token}
    (h : (c.push cur).makeUserPipe (atoi n) = .ok d) :
    serverGoesOn c.u c.server.checkIdExist c.server.namePipeRecord (.give (some n)) =
      some d.server.namePipeRecord := by
  obtain ⟨hexist, hrecord, rfl⟩ := makeUserPipe_ok.mp h
  exact if_pos ⟨hexist, Bool.not_eq_true _ ▸ hrecord⟩

/-- Combining makes no bad access if and only if each item it comes to is fine. -/
theorem serverCombine_clear (inp : LineInput) (toks cur : List Token) (c : Call) (done : List Item)
    (hbuf : c.vars.redirectionFileName.length = 100) (h : At done c.process cur) :
    Valid (serverCombineAccesses inp toks cur c) ↔
      Scan.Clear (serverGoesOn c.u c.server.checkIdExist) Fine Closed c.server.namePipeRecord done
        (serverItems toks) := by
  fun_induction serverCombineAccesses inp toks cur c generalizing done with
  | case1 c => exact (closed_iff h).symm
  | case2 cur c hcur =>
    rw [serverItems, Scan.Clear, closed_iff h, if_neg hcur]
  | case3 tok rest cur c htake hn =>
    rw [serverItems_take htake, hn]
    exact clear_missing Bool.false_ne_true (by simp)
  | case4 tok rest cur c htake n hn e he =>
    rw [serverItems_take htake, hn, Scan.clear_cons_none (goesOn_take_none he)]
    exact iff_of_true ((valid_arg ..).mpr valid_nil) ⟨rfl, fun hstores => absurd hstores Bool.false_ne_true⟩
  | case5 tok rest cur c htake n hn d hd ih =>
    have hgo := goesOn_take_some hd
    obtain ⟨-, -, rfl⟩ := takeUserPipe_ok.mp hd
    rw [serverItems_take htake, hn, Scan.clear_cons_some hgo, valid_arg, ih _ hbuf (h.take _)]
    exact (and_iff_right ⟨rfl, fun hstores => absurd hstores Bool.false_ne_true⟩).symm
  | case6 tok rest cur c htake hord ih =>
    rw [serverItems_word htake hord]
    exact clear_step h rfl trivial rfl (ih _ hbuf (h.word tok))
  | case7 rest cur c htake hord ih =>
    rw [serverItems_bar]
    exact clear_step h rfl trivial rfl (ih _ hbuf (h.close _ rfl))
  | case8 cur c htake hord hbar => exact clear_missing Bool.false_ne_true (by simp)
  | case9 cur c name rest hcreate htake hord hbar =>
    rw [serverItems_file]
    refine clear_stop h rfl rfl ?_ ((valid_arg ..).mpr valid_nil)
    rw [serverGoesOn, fileFits_of_none hcreate hbuf]
    rfl
  | case10 cur c name rest v hcreate htake hord hbar ih =>
    obtain ⟨hfits, hv⟩ := fileFits_of_some hcreate hbuf
    rw [serverItems_file]
    refine clear_step h rfl rfl (if_pos hfits) ?_
    rw [valid_arg]
    exact ih _ hv (h.close _ rfl)
  | case11 tok rest cur c htake hord hbar hfile hbang hn =>
    rw [serverItems_mark htake hord hbar hfile, if_pos hbang, hn]
    exact clear_missing Bool.false_ne_true (by simp)
  | case12 tok rest cur c htake hord hbar hfile hbang n hn ih =>
    rw [serverItems_mark htake hord hbar hfile, if_pos hbang, hn]
    refine clear_step h rfl rfl rfl ?_
    rw [valid_arg]
    exact ih _ ((congrArg _ (serverPipeOut_buffer ..)).trans hbuf) (h.close _ rfl)
  | case13 tok rest cur c htake hord hbar hfile hbang hnum hn =>
    rw [serverItems_mark htake hord hbar hfile, if_neg hbang, if_pos hnum, hn]
    exact clear_missing Bool.false_ne_true (by simp)
  | case14 tok rest cur c htake hord hbar hfile hbang hnum n hn ih =>
    rw [serverItems_mark htake hord hbar hfile, if_neg hbang, if_pos hnum, hn]
    refine clear_step h rfl rfl rfl ?_
    rw [valid_arg]
    exact ih _ ((congrArg _ (serverPipeOut_buffer ..)).trans hbuf) (h.close _ rfl)
  | case15 tok rest cur c htake hord hbar hfile hbang hnum hn =>
    rw [serverItems_mark htake hord hbar hfile, if_neg hbang, if_neg hnum, hn]
    exact clear_missing Bool.false_ne_true (by simp)
  | case16 tok rest cur c htake hord hbar hfile hbang hnum n hn e he =>
    rw [serverItems_mark htake hord hbar hfile, if_neg hbang, if_neg hnum, hn]
    exact clear_stop h rfl rfl (goesOn_give_none he) ((valid_arg ..).mpr valid_nil)
  | case17 tok rest cur c htake hord hbar hfile hbang hnum n hn d hd ih =>
    have hgo := goesOn_give_some hd
    obtain ⟨-, -, rfl⟩ := makeUserPipe_ok.mp hd
    rw [serverItems_mark htake hord hbar hfile, if_neg hbang, if_neg hnum, hn]
    refine clear_step h rfl rfl hgo ?_
    rw [valid_arg]
    have hrest := ih _ hbuf (h.close (.give (some n)) rfl)
    rwa [checkIdExist_made] at hrest

/-- The rows and the environment the process loop starts with. -/
def finished : Parse → Option (List (List Token) × Environ)
  | .ok c => some (c.process, c.server.environ)
  | _ => none

/-- What combining gives: the rows of the items, if the line goes on to its end. -/
theorem serverCombine_rows (inp : LineInput) (toks cur : List Token) (c : Call)
    (hbuf : c.vars.redirectionFileName.length = 100) :
    finished (combine inp toks cur c) =
      if Scan.Passes (serverGoesOn c.u c.server.checkIdExist) c.server.namePipeRecord (serverItems toks)
      then some (c.process ++ rowsOf (serverItems toks) cur, c.server.environ) else none := by
  fun_induction combine inp toks cur c with
  | case1 cur c =>
    rw [serverItems, if_pos (Scan.passes_nil ..), rowsOf, finished]
    split_ifs <;> simp [Call.push]
  | case2 tok rest cur c htake hn =>
    rw [serverItems_take htake, hn, if_neg (Scan.passes_cons_none rfl)]
    rfl
  | case3 tok rest cur c htake n hn e he =>
    rw [serverItems_take htake, hn, if_neg (Scan.passes_cons_none (goesOn_take_none he))]
    rfl
  | case4 tok rest cur c htake n hn d hd ih =>
    have hgo := goesOn_take_some hd
    obtain ⟨-, -, rfl⟩ := takeUserPipe_ok.mp hd
    rw [ih hbuf, serverItems_take htake, hn, if_congr (Scan.passes_cons_some hgo) rfl rfl]
    rfl
  | case5 tok rest cur c htake hord ih =>
    rw [ih hbuf, serverItems_word htake hord, rowsOf_word, if_congr (Scan.passes_cons_some rfl) rfl rfl]
  | case6 rest cur c htake hord ih =>
    rw [ih hbuf, serverItems_bar, rowsOf_close rfl, if_congr (Scan.passes_cons_some rfl) rfl rfl]
    rfl
  | case7 cur c htake hord hbar => rfl
  | case8 cur c name rest hcreate htake hord hbar =>
    have hstop : serverGoesOn c.u c.server.checkIdExist c.server.namePipeRecord (.file (some name)) =
        none := by
      rw [serverGoesOn, fileFits_of_none hcreate hbuf]
      rfl
    rw [serverItems_file, if_neg (Scan.passes_cons_none hstop)]
    rfl
  | case9 cur c name rest v hcreate htake hord hbar ih =>
    obtain ⟨hfits, hv⟩ := fileFits_of_some hcreate hbuf
    have hgo : serverGoesOn c.u c.server.checkIdExist c.server.namePipeRecord (.file (some name)) =
        some c.server.namePipeRecord := if_pos hfits
    rw [ih hv, serverItems_file, rowsOf_close rfl, if_congr (Scan.passes_cons_some hgo) rfl rfl]
    rfl
  | case10 tok rest cur c htake hord hbar hfile hbang hn =>
    rw [serverItems_mark htake hord hbar hfile, if_pos hbang, hn, if_neg (Scan.passes_cons_none rfl)]
    rfl
  | case11 tok rest cur c htake hord hbar hfile hbang n hn ih =>
    rw [ih ((congrArg _ (serverPipeOut_buffer ..)).trans hbuf), serverItems_mark htake hord hbar hfile,
      if_pos hbang, hn, rowsOf_close rfl, if_congr (Scan.passes_cons_some rfl) rfl rfl]
    rfl
  | case12 tok rest cur c htake hord hbar hfile hbang hnum hn =>
    rw [serverItems_mark htake hord hbar hfile, if_neg hbang, if_pos hnum, hn,
      if_neg (Scan.passes_cons_none rfl)]
    rfl
  | case13 tok rest cur c htake hord hbar hfile hbang hnum n hn ih =>
    rw [ih ((congrArg _ (serverPipeOut_buffer ..)).trans hbuf), serverItems_mark htake hord hbar hfile,
      if_neg hbang, if_pos hnum, hn, rowsOf_close rfl, if_congr (Scan.passes_cons_some rfl) rfl rfl]
    rfl
  | case14 tok rest cur c htake hord hbar hfile hbang hnum hn =>
    rw [serverItems_mark htake hord hbar hfile, if_neg hbang, if_neg hnum, hn,
      if_neg (Scan.passes_cons_none rfl)]
    rfl
  | case15 tok rest cur c htake hord hbar hfile hbang hnum n hn e he =>
    rw [serverItems_mark htake hord hbar hfile, if_neg hbang, if_neg hnum, hn,
      if_neg (Scan.passes_cons_none (goesOn_give_none he))]
    rfl
  | case16 tok rest cur c htake hord hbar hfile hbang hnum n hn d hd ih =>
    have hgo := goesOn_give_some hd
    obtain ⟨-, -, rfl⟩ := makeUserPipe_ok.mp hd
    rw [ih hbuf, checkIdExist_made, serverItems_mark htake hord hbar hfile, if_neg hbang, if_neg hnum,
      hn, rowsOf_close rfl, if_congr (Scan.passes_cons_some hgo) rfl rfl]
    rfl

theorem rowAccesses_valid (inp : LineInput) (argv : List Token) :
    Valid (rowAccesses inp argv) ↔ RowFine inp.batch argv := by
  have hsecond : (argv[1]?).isSome = true ↔ 2 ≤ argv.length := by
    rcases argv with _ | ⟨cmd, _ | ⟨arg, args⟩⟩ <;> simp
  have hfirst : argv.head?.isSome = true ↔ argv ≠ [] := by cases argv <;> simp
  rw [rowAccesses, valid_cons, Access.Valid, hfirst]
  by_cases hbatch : argv.head? = some batchCmd
  · have hne : ¬ argv.head? = some tellCmd := by
      rw [hbatch]
      decide
    rw [if_pos hbatch, valid_cons, valid_cons, Access.Valid, Access.Valid, hsecond]
    refine ⟨?_, fun h => ⟨h.command, (h.batch_file hbatch).1, (h.batch_file hbatch).2, valid_nil⟩⟩
    rintro ⟨hcmd, hlen, hfile, -⟩
    exact ⟨hcmd, fun _ => ⟨hlen, hfile⟩, fun h => absurd h hne⟩
  · rw [if_neg hbatch]
    by_cases htell : argv.head? = some tellCmd
    · rw [if_pos htell, valid_cons, Access.Valid, hsecond]
      refine ⟨?_, fun h => ⟨h.command, h.tell_receiver htell, valid_nil⟩⟩
      rintro ⟨hcmd, hlen, -⟩
      exact ⟨hcmd, fun h => absurd h hbatch, fun _ => hlen⟩
    · rw [if_neg htell]
      exact ⟨fun h => ⟨h.1, fun hb => absurd hb hbatch, fun ht => absurd ht htell⟩,
        fun h => ⟨h.command, valid_nil⟩⟩

/-- The environment behind a row, if the process loop goes on. -/
def environBehind : Row → Option Environ
  | .next c => some c.server.environ
  | _ => none

theorem environ_tell (s : Server) (u : ℕ) (receiver : Token) (words : List Token) :
    (tell s u receiver words).environ = s.environ := by
  rw [Server.tell]
  split_ifs <;> rfl

theorem environ_rename (s : Server) (u : ℕ) (args : List Token) :
    (rename s u args).environ = s.environ := by
  cases args with
  | nil => rfl
  | cons name args =>
    rw [rename]
    split_ifs <;> rfl

theorem environ_printenv (s : Server) (u : ℕ) (args : List Token) :
    (printenv s u args).environ = s.environ := by
  cases args with
  | nil => rfl
  | cons name args =>
    rw [printenv]
    split <;> rfl

theorem environ_setenvUser (s : Server) (u : ℕ) (args : List Token) :
    (setenvUser s u args).environ = environAfter s.environ args := by
  rcases args with _ | ⟨name, _ | ⟨value, args⟩⟩ <;> rfl

theorem environ_fork (c : Call) (inp : LineInput) (pc : ℕ) (last : Bool) (argv : List Token) :
    (c.fork inp pc last argv).server.environ = c.server.environ := by
  rw [Call.fork]
  dsimp only
  split <;> rfl

/-- A fine row: the process loop goes on unless it is an `exit` or overruns a buffer. -/
theorem execRow_passes {inp : LineInput} {argv : List Token} (h : RowFine inp.batch argv) (pc : ℕ)
    (last : Bool) (c : Call) (hname : argv.head? = some nameCmd → ∀ n ∈ argv[1]?, n.length < 30) :
    environBehind (execRow inp pc last argv c) = serverPassesRow c.server.environ argv := by
  obtain ⟨cmd, args, rfl⟩ := List.exists_cons_of_ne_nil h.command
  rw [serverPassesRow, execRow.eq_def]
  simp only [List.head?_cons, Option.some.injEq, List.tail_cons]
  by_cases hprintenv : cmd = Shell.printenvCmd
  · rw [if_pos hprintenv, if_pos hprintenv]
    by_cases hfits : printenvFits c.server.environ args = true
    · rw [if_pos hfits]
      exact (congrArg some (environ_printenv ..)).trans (if_pos hfits).symm
    · rw [if_neg hfits]
      exact (if_neg hfits).symm
  rw [if_neg hprintenv, if_neg hprintenv]
  by_cases hsetenv : cmd = Shell.setenvCmd
  · rw [if_pos hsetenv, if_pos hsetenv]
    by_cases hfits : setenvFits args = true
    · rw [if_pos hfits]
      exact (congrArg some (environ_setenvUser ..)).trans (if_pos hfits).symm
    · rw [if_neg hfits]
      exact (if_neg hfits).symm
  rw [if_neg hsetenv, if_neg hsetenv]
  by_cases hexit : cmd = Shell.exitCmd
  · rw [if_pos hexit, if_pos hexit]
    rfl
  rw [if_neg hexit, if_neg hexit]
  by_cases hbatch : cmd = batchCmd
  · obtain ⟨hlen, hfile⟩ := h.batch_file (congrArg some hbatch)
    have hargs : args ≠ [] := by
      rintro rfl
      rw [List.length_singleton] at hlen
      omega
    rw [if_pos hbatch, if_pos ⟨hargs, hfile⟩]
    rfl
  rw [if_neg hbatch]
  by_cases hwho : cmd = whoCmd
  · rw [if_pos hwho]
    rfl
  rw [if_neg hwho]
  by_cases htell : cmd = tellCmd
  · have hlen := h.tell_receiver (congrArg some htell)
    rw [if_pos htell]
    cases args with
    | nil =>
      rw [List.length_singleton] at hlen
      omega
    | cons id words => exact congrArg some (environ_tell ..)
  rw [if_neg htell]
  by_cases hyell : cmd = yellCmd
  · rw [if_pos hyell]
    rfl
  rw [if_neg hyell]
  by_cases hcmd : cmd = nameCmd
  · have hfits : renameFits c.server args = true := by
      cases args with
      | nil => rfl
      | cons n args =>
        have hlen := hname (congrArg some hcmd) n rfl
        rw [renameFits, decide_eq_true (by omega), Bool.or_true]
    rw [if_pos hcmd, if_pos hfits]
    exact congrArg some (environ_rename ..)
  rw [if_neg hcmd]
  exact congrArg some (environ_fork ..)

/-- The process loop makes no bad access if and only if each row it comes to is fine. -/
theorem execRows_clear (inp : LineInput) (pc : ℕ) (rows : List (List Token)) (c : Call)
    (done : List (List Token)) (hcopies : ∀ pre argv post e, rows = pre ++ argv :: post →
      pre.foldlM serverPassesRow c.server.environ = some e → RowCopies e argv) :
    Valid (execRowsAccesses inp pc rows c) ↔
      Scan.Clear serverPassesRow (fun _ argv => RowFine inp.batch argv) (fun _ => True) c.server.environ
        done rows := by
  induction rows generalizing c done with
  | nil => exact iff_of_true valid_nil trivial
  | cons argv rest ih =>
    rw [execRowsAccesses, valid_append, rowAccesses_valid, Scan.Clear]
    refine and_congr_right fun hrow => ?_
    have hpass := execRow_passes hrow pc rest.isEmpty c (hcopies [] argv rest _ rfl rfl).name
    cases hnext : execRow inp pc rest.isEmpty argv c with
    | next d =>
      rw [hnext] at hpass
      rw [← hpass]
      have hlater : ∀ pre argv' post e, rest = pre ++ argv' :: post →
          pre.foldlM serverPassesRow d.server.environ = some e → RowCopies e argv' :=
        fun pre argv' post e hpre he => hcopies (argv :: pre) argv' post e (by rw [hpre, List.cons_append]) <| by
          rw [List.foldlM_cons, ← hpass]
          exact he
      exact (ih d _ hlater).trans ⟨fun h t ht => Option.some.inj ht ▸ h, fun h => h _ rfl⟩
    | exited d =>
      rw [hnext] at hpass
      rw [← hpass]
      exact iff_of_true valid_nil fun t ht => by cases ht
    | crashed =>
      rw [hnext] at hpass
      rw [← hpass]
      exact iff_of_true valid_nil fun t ht => by cases ht

theorem rowFine_message {toks : List Token} (h : IsMessage toks) (batch : Bool) :
    RowFine batch toks ↔ (toks.head? = some tellCmd → 2 ≤ toks.length) := by
  have hne : toks ≠ [] := by
    rintro rfl
    rcases h with h | h <;> cases h
  have hbatch : ¬ toks.head? = some batchCmd := by
    rcases h with h | h <;> rw [h] <;> decide
  exact ⟨RowFine.tell_receiver, fun ht => ⟨hne, fun hb => absurd hb hbatch, ht⟩⟩

theorem rowCopies_message {toks : List Token} (h : IsMessage toks) (environ : Environ) :
    RowCopies environ toks := by
  have hhead : ∀ {cmd : Token}, cmd ≠ tellCmd → cmd ≠ yellCmd → toks.head? ≠ some cmd := by
    intro cmd htell hyell
    rcases h with h | h <;> rw [h] <;> exact fun heq => by simp_all
  exact ⟨fun hc => absurd hc (hhead (by decide) (by decide)), fun hc => absurd hc (hhead (by decide) (by decide)),
    fun hc => absurd hc (hhead (by decide) (by decide))⟩

theorem cells_valid (n : ℕ) :
    Valid ((List.range (n + 1)).map (.cell 0)) ↔ n < rowLength := by
  constructor
  · intro h
    have hn : n ∈ List.range (n + 1) := List.mem_range.mpr (Nat.lt_succ_self n)
    exact (h _ (List.mem_map_of_mem hn)).2
  · intro h a ha
    obtain ⟨j, hj, rfl⟩ := List.mem_map.mp ha
    have hj := List.mem_range.mp hj
    exact ⟨by decide, by omega⟩

/-- A line of `tell` or `yell`. -/
theorem message_iff (s : Server) (u : ℕ) (inp : LineInput) {tok : Token} {rest : List Token}
    (htoks : tokens ' ' inp.line = tok :: rest) (hmsg : IsMessage (tok :: rest)) :
    Valid (match parse s u inp with
      | .ok c => execRowsAccesses inp c.process.length c.process c.resolve
      | _ => []) ↔ RowFine inp.batch (tok :: rest) := by
  have hcmd : tok = tellCmd ∨ tok = yellCmd := by simpa [IsMessage] using hmsg
  have hparse : parse s u inp = .ok ((startCall s u).push (tok :: rest)) := by
    rw [parse, htoks]
    exact if_pos hcmd
  rw [hparse]
  refine (execRows_clear inp 1 [tok :: rest] _ [] fun pre argv post e hpre _ => ?_).trans
    ⟨fun h => h.1, fun h => ⟨h, fun _ _ => trivial⟩⟩
  cases pre with
  | nil =>
    obtain ⟨rfl, -⟩ := List.cons.inj hpre
    exact rowCopies_message hmsg e
  | cons argv' pre => simp at hpre

/-- A line of commands. -/
theorem commands_iff (s : Server) (u : ℕ) (inp : LineInput) {tok : Token} {rest : List Token}
    (htoks : tokens ' ' inp.line = tok :: rest) (hmsg : ¬ IsMessage (tok :: rest))
    (hcopies : ∀ pre argv post e, rowsOf (serverItems (tok :: rest)) [] = pre ++ argv :: post →
      pre.foldlM serverPassesRow s.environ = some e → RowCopies e argv) :
    Valid (match parse s u inp with
      | .ok c => execRowsAccesses inp c.process.length c.process c.resolve
      | _ => []) ↔
      (Scan.Passes (serverGoesOn u s.checkIdExist) s.namePipeRecord (serverItems (tok :: rest)) →
        ∀ pre argv post, rowsOf (serverItems (tok :: rest)) [] = pre ++ argv :: post →
          Scan.Passes serverPassesRow s.environ pre → RowFine inp.batch argv) := by
  have hcmd : ¬ (tok = tellCmd ∨ tok = yellCmd) := by simpa [IsMessage] using hmsg
  have hparse : parse s u inp = combine inp (tok :: rest) [] (startCall s u) := by
    rw [parse, htoks]
    exact if_neg hcmd
  have hrows := serverCombine_rows inp (tok :: rest) [] (startCall s u) rfl
  rw [hparse]
  by_cases hpass : Scan.Passes (serverGoesOn u s.checkIdExist) s.namePipeRecord
      (serverItems (tok :: rest))
  · replace hrows := hrows.trans (if_pos hpass)
    cases hc : combine inp (tok :: rest) [] (startCall s u) with
    | ok c =>
      rw [hc] at hrows
      obtain ⟨hproc, henv⟩ := Prod.mk.inj (Option.some.inj hrows)
      have henv' : c.resolve.server.environ = s.environ := henv
      have hproc' : c.process = rowsOf (serverItems (tok :: rest)) [] := hproc
      have hclear := execRows_clear inp c.process.length c.process c.resolve [] (by rwa [henv', hproc'])
      rw [Scan.clear_iff] at hclear
      refine hclear.trans ?_
      rw [henv', hproc']
      exact ⟨fun h _ => h.1, fun h => ⟨h hpass, fun _ => trivial⟩⟩
    | rejected c e => rw [hc] at hrows; cases hrows
    | crashed => rw [hc] at hrows; cases hrows
  · replace hrows := hrows.trans (if_neg hpass)
    cases hc : combine inp (tok :: rest) [] (startCall s u) with
    | ok c => rw [hc] at hrows; cases hrows
    | rejected c e => exact iff_of_true valid_nil fun h => absurd h hpass
    | crashed => exact iff_of_true valid_nil fun h => absurd h hpass

theorem serverHarmless_iff (s : Server) (u : ℕ) (inp : LineInput)
    (hshort : inp.line.length ≤ 15098) (hcopies : CopiesFit s u (tokens ' ' inp.line)) :
    Valid (npshellAccesses s u inp) ↔ ServerHarmless s u inp (tokens ' ' inp.line) := by
  rw [npshellAccesses]
  by_cases hline : inp.line = []
  · rw [if_pos hline, hline]
    refine iff_of_true valid_nil ⟨fun h => absurd hline h, fun h => ?_, fun _ pre it post h => ?_,
      fun _ _ h => absurd rfl h, fun _ _ pre argv post h => ?_⟩
    · rcases h with h | h <;> cases h
    · exact absurd h.symm (List.append_ne_nil_of_right_ne_nil pre (List.cons_ne_nil it post))
    · exact absurd h.symm (List.append_ne_nil_of_right_ne_nil pre (List.cons_ne_nil argv post))
  rw [if_neg hline]
  dsimp only
  rw [valid_append, valid_append, valid_cons]
  cases htoks : tokens ' ' inp.line with
  | nil =>
    exact iff_of_false (fun h => Bool.false_ne_true h.1.2.1) fun h => h.not_blank hline rfl
  | cons tok rest =>
    have htok : Valid (tokenAccesses (tok :: rest)) := htoks ▸ tokenAccesses_valid hshort
    have hfirst : Access.Valid (.arg (tok :: rest).head?) := rfl
    by_cases hmsg : IsMessage (tok :: rest)
    · rw [if_pos hmsg, cells_valid, message_iff _ u inp htoks hmsg, rowFine_message hmsg]
      exact ⟨fun h => ⟨fun _ => List.cons_ne_nil tok rest, fun _ => ⟨h.1.2.2, h.2⟩,
          fun hn => absurd hmsg hn, fun hn => absurd hmsg hn, fun hn => absurd hmsg hn⟩,
        fun h => ⟨⟨htok, hfirst, (h.message hmsg).1⟩, (h.message hmsg).2⟩⟩
    · rw [if_neg hmsg, commands_iff _ u inp htoks hmsg ((htoks ▸ hcopies).rows hmsg)]
      have hclear := serverCombine_clear inp (tok :: rest) []
        (startCall { s with environ := setenv s.environ ['P', 'A', 'T', 'H'] (s.user u).env } u)
        [] rfl ⟨rfl, rfl⟩
      rw [Scan.clear_iff] at hclear
      rw [hclear]
      exact ⟨fun h => ⟨fun _ => List.cons_ne_nil tok rest, fun hm => absurd hm hmsg, fun _ => h.1.2.2.1,
          fun _ => h.1.2.2.2, fun _ => h.2⟩,
        fun h => ⟨⟨htok, hfirst, h.items_fine hmsg, h.closed hmsg⟩, h.rows_fine hmsg⟩⟩

end

/-! ### Lines that are read -/

/-- A line the shell of project 1 reads. The file names that combining comes to fit their buffer. -/
structure ShellLine where
  input : Shell.LineInput
  nul_free : '\x00' ∉ input.line
  short : input.line.length ≤ 15098
  copies : ∀ pre n post, items (tokens ' ' input.line) = pre ++ .file (some n) :: post →
    Scan.Passes goesOn () pre → n.length ≤ 100

/-- A line the server reads from the client of user `u`. -/
structure ClientLine (s : Server) (u : ℕ) where
  input : Server.LineInput
  nul_free : '\x00' ∉ input.line
  short : input.line.length ≤ 15098
  copies : CopiesFit s u (tokens ' ' input.line)

/-- Which lines whose copies fit their buffers are processed without a NULL pointer in a string function and
    without a cell outside of `token` and `process`: by the server for any of its users, and by the shell of
    project 1. -/
theorem parser_safe_iff (s : Server) (u : Fin Server.qlen) (l : ClientLine s u) (p : Shell) (k : ShellLine) :
    (Valid (npshellAccesses s u l.input) ↔ ServerHarmless s u l.input (tokens ' ' l.input.line)) ∧
      (Valid (lineAccesses p k.input) ↔ Harmless (tokens ' ' k.input.line)) :=
  ⟨serverHarmless_iff s u l.input l.short l.copies, harmless_iff p k.input k.short⟩

/-- `tell` without a receiver. -/
def tellAlone (s : Server) (u : ℕ) : ClientLine s u where
  input := ⟨['t', 'e', 'l', 'l'], ['t', 'e', 'l', 'l'], ⟨true, true, none⟩, true⟩
  nul_free := by decide
  short := by decide
  copies := ⟨fun hn => absurd (Or.inl (by decide)) hn, fun hn => absurd (Or.inl (by decide)) hn⟩

/-- `| ls`, with no command in front of the bar. -/
def barFirst : ShellLine where
  input := ⟨['|', ' ', 'l', 's'], List.replicate 100 '\x00', List.length_replicate, ⟨true, true, none⟩⟩
  nul_free := by decide
  short := by decide
  copies := fun pre n post hitems _ => by
    have hmem : Item.file (some n) ∈ items (tokens ' ' ['|', ' ', 'l', 's']) := by simp [hitems]
    simp [items, tokens, tokensAux, Shell.ordinary] at hmem

/-- A client that has just connected calls `atoi(NULL)` in the server, and the shell of project 1 calls
    `strcmp(NULL, "printenv")`. -/
theorem parser_not_safe :
    (∃ s, Server.run (Server.init fun _ => none) [.accept [] 0 0] = some s ∧ (s.user 0).valid = true ∧
      ¬ Valid (npshellAccesses s 0 (tellAlone s 0).input)) ∧
    ¬ Valid (lineAccesses (Shell.init fun _ => none) barFirst.input) := by
  refine ⟨⟨_, rfl, rfl, fun h => ?_⟩, fun h => ?_⟩
  · have hmsg := ((serverHarmless_iff _ 0 _ (tellAlone _ 0).short (tellAlone _ 0).copies).mp h).message
      (Or.inl (by decide))
    exact absurd (hmsg.2 (by decide)) (by decide)
  · have hrows := ((harmless_iff _ _ barFirst.short).mp h).rows_fine (by decide)
    exact hrows [] [] [[['l', 's']]] (by decide) rfl rfl

end NetProg.ParserSafety
