import NetProg.Lib.FlatRows
import NetProg.Server.Access
import NetProg.Server.UserLine

/-! The argument vectors of both shells: the rows of `process[5000][10]` in their one block of cells.

    A row is filled token by token, and neither its length of 10 nor the number of rows is checked. The
    lists of rows the shells are modelled with are what is read back from the block as long as the rows
    fit. On the way the name behind a `>` is copied into `redirection_file_name`, whose size is not
    checked either; behind a copy over its end nothing is defined. -/

namespace NetProg.ArgumentVectors

open Shell (Pipeline Suffix Words joinCmds)

/-- The cells of a row of `process`, and all its cells. -/
def rowCells : ℕ := 10
def blockCells : ℕ := 50000

/-- The size of `redirection_file_name`. -/
def fileNameSize : ℕ := 100

/-- `process[row][col] = cell`. -/
def store (b : Block Token) (row col : ℕ) (cell : Option Token) : Block Token :=
  b.put (rowCells * row + col) cell

/-- Fill the rows: `processCount` and `j` say where the next token goes. The number of rows comes with the
    block. -/
def fill : List Token → ℕ → ℕ → Block Token → Option (Block Token × ℕ)
  | [], processCount, j, b => some (b, if j = 0 then processCount else processCount + 1)
  | tok :: rest, processCount, j, b =>
    if Shell.ordinary tok then
      let b := store b processCount j (some tok)
      fill rest processCount (j + 1) (if rest = [] then store b processCount (j + 1) none else b)
    else
      let b := store b processCount j none
      if tok = ['|'] then fill rest (processCount + 1) 0 b
      else if tok = ['>'] then
        match rest with
        | [] => none
        | name :: rest => if name.length ≤ fileNameSize then fill rest (processCount + 1) 0 b else none
      else if tok.head? = some '!' then
        match strtok '!' tok with
        | none => none
        | some _ => fill rest (processCount + 1) 0 b
      else
        match strtok '|' tok with
        | none => none
        | some _ => fill rest (processCount + 1) 0 b

/-- A row is closed, and the next ones follow. -/
theorem closed_row {old new : List (List Token)} {cur : List Token} {r : ℕ} {b : Block Token}
    {out : Option (Block Token × ℕ)} (h : ∃ rows, new = old ++ [cur] ++ rows ∧
      out = some (Block.putRows rowCells (r + 1) rows (b.putRow (rowCells * r) cur), r + 1 + rows.length)) :
    ∃ rows, new = old ++ rows ∧ out = some (Block.putRows rowCells r rows b, r + rows.length) := by
  obtain ⟨rows, hnew, hout⟩ := h
  refine ⟨cur :: rows, by rw [hnew, List.append_assoc, List.singleton_append], hout.trans ?_⟩
  rw [List.length_cons, Block.putRows, Nat.add_assoc, Nat.add_comm 1]

/-- The rows the shell is modelled with are those it writes into the block. -/
theorem fill_combine {opens : Opens} {toks cur : List Token} {p q : Shell.Parsed}
    (h : Shell.combine opens toks cur p = .ok q) (hcur : toks ≠ [] ∨ cur = [])
    (hbuf : p.vars.redirectionFileName.length = fileNameSize) (r : ℕ) (b : Block Token) :
    ∃ rows, q.process = p.process ++ rows ∧
      fill toks r cur.length (b.putCells (rowCells * r) cur) =
        some (Block.putRows rowCells r rows b, r + rows.length) := by
  fun_induction Shell.combine opens toks cur p generalizing r b with
  | case1 cur p =>
    obtain rfl := hcur.resolve_left (· rfl)
    rw [if_pos rfl] at h
    exact ⟨[], by rw [Except.ok.inj h, List.append_nil], rfl⟩
  | case2 tok rest cur p hord ih =>
    have hcells : (b.putCells (rowCells * r) cur).put (rowCells * r + cur.length) (some tok) =
        b.putCells (rowCells * r) (cur ++ [tok]) := (Block.putCells_concat ..).symm
    rw [fill, if_pos hord]
    simp only [store, hcells]
    cases rest with
    | nil =>
      rw [Shell.combine, if_neg (by simp)] at h
      refine ⟨[cur ++ [tok]], by rw [← Except.ok.inj h]; rfl, ?_⟩
      simp [fill, Block.putRows, Block.putRow]
    | cons tok' rest =>
      obtain ⟨rows, hrows, hfill⟩ := ih h (Or.inl (List.cons_ne_nil tok' rest)) hbuf r b
      rw [List.length_append, List.length_singleton] at hfill
      exact ⟨rows, hrows, by rw [if_neg (List.cons_ne_nil tok' rest), hfill]⟩
  | case3 rest cur p hord ih =>
    rw [fill, if_neg hord, if_pos rfl]
    exact closed_row (ih h (Or.inr rfl) hbuf (r + 1) (b.putRow (rowCells * r) cur))
  | case4 => cases h
  | case5 => cases h
  | case6 cur p name rest v hcreate hord hbar ih =>
    obtain ⟨hname, hkept⟩ := ParserSafety.createFile_eq_some hcreate
    rw [fill, if_neg hord, if_neg hbar, if_pos rfl]
    dsimp only
    rw [if_pos (hname.trans hbuf.le)]
    exact closed_row (ih h (Or.inr rfl) (hkept.trans hbuf) (r + 1) (b.putRow (rowCells * r) cur))
  | case7 => cases h
  | case8 tok rest cur p hord hbar hfile hbang n hn ih =>
    rw [fill, if_neg hord, if_neg hbar, if_neg hfile, if_pos hbang, hn]
    exact closed_row (ih h (Or.inr rfl) ((congrArg _ (ParserSafety.pipeOut_buffer ..)).trans hbuf) (r + 1)
      (b.putRow (rowCells * r) cur))
  | case9 => cases h
  | case10 tok rest cur p hord hbar hfile hbang n hn ih =>
    rw [fill, if_neg hord, if_neg hbar, if_neg hfile, if_neg hbang, hn]
    exact closed_row (ih h (Or.inr rfl) ((congrArg _ (ParserSafety.pipeOut_buffer ..)).trans hbuf) (r + 1)
      (b.putRow (rowCells * r) cur))

/-- Fill the rows in the shell of the server, on a line whose user pipes are all accepted. A token `<id` is
    left out, and closes the row behind the last token. -/
def serverFill : List Token → ℕ → ℕ → Block Token → Option (Block Token × ℕ)
  | [], processCount, j, b => some (b, if j = 0 then processCount else processCount + 1)
  | tok :: rest, processCount, j, b =>
    if tok.head? = some '<' then
      match strtok '<' tok with
      | none => none
      | some _ =>
        serverFill rest processCount j (if rest = [] ∧ j ≠ 0 then store b processCount j none else b)
    else if Server.ordinary tok then
      let b := store b processCount j (some tok)
      serverFill rest processCount (j + 1) (if rest = [] then store b processCount (j + 1) none else b)
    else
      let b := store b processCount j none
      if tok = ['|'] then serverFill rest (processCount + 1) 0 b
      else if tok = ['>'] then
        match rest with
        | [] => none
        | name :: rest =>
          if name.length ≤ fileNameSize then serverFill rest (processCount + 1) 0 b else none
      else if tok.head? = some '!' then
        match strtok '!' tok with
        | none => none
        | some _ => serverFill rest (processCount + 1) 0 b
      else if tok.head? = some '|' then
        match strtok '|' tok with
        | none => none
        | some _ => serverFill rest (processCount + 1) 0 b
      else
        match strtok '>' tok with
        | none => none
        | some _ => serverFill rest (processCount + 1) 0 b

/-- The rows the server is modelled with are those it writes into the block. -/
theorem serverFill_combine {inp : Server.LineInput} {toks cur : List Token} {c d : Server.Call}
    (h : Server.combine inp toks cur c = .ok d) (hcur : toks ≠ [] ∨ cur = [])
    (hbuf : c.vars.redirectionFileName.length = fileNameSize) (r : ℕ) (b : Block Token) :
    ∃ rows, d.process = c.process ++ rows ∧
      serverFill toks r cur.length (b.putCells (rowCells * r) cur) =
        some (Block.putRows rowCells r rows b, r + rows.length) := by
  fun_induction Server.combine inp toks cur c generalizing r b with
  | case1 cur c =>
    obtain rfl := hcur.resolve_left (· rfl)
    rw [if_pos rfl] at h
    exact ⟨[], by rw [Server.Parse.ok.inj h, List.append_nil], rfl⟩
  | case2 => cases h
  | case3 => cases h
  | case4 tok rest cur c htake n hn c₁ hc₁ ih =>
    obtain ⟨hproc, hvars⟩ : c₁.process = c.process ∧ c₁.vars = c.vars := by
      obtain ⟨-, -, rfl⟩ := Server.takeUserPipe_ok.mp hc₁
      exact ⟨rfl, rfl⟩
    rw [serverFill, if_pos htake, hn]
    dsimp only
    cases rest with
    | nil =>
      rw [Server.combine] at h
      by_cases hnil : cur = []
      · subst hnil
        rw [if_pos rfl] at h
        exact ⟨[], by rw [← Server.Parse.ok.inj h, hproc, List.append_nil], rfl⟩
      · have hlen : cur.length ≠ 0 := by simpa using hnil
        rw [if_neg hnil] at h
        refine ⟨[cur], by rw [← Server.Parse.ok.inj h, ← hproc]; rfl, ?_⟩
        rw [if_pos ⟨rfl, hlen⟩, serverFill, if_neg hlen]
        rfl
    | cons tok' rest =>
      rw [if_neg (by simp), ← hproc]
      exact ih h (Or.inl (List.cons_ne_nil tok' rest)) (hvars ▸ hbuf) r b
  | case5 tok rest cur c htake hord ih =>
    have hcells : (b.putCells (rowCells * r) cur).put (rowCells * r + cur.length) (some tok) =
        b.putCells (rowCells * r) (cur ++ [tok]) := (Block.putCells_concat ..).symm
    rw [serverFill, if_neg htake, if_pos hord]
    simp only [store, hcells]
    cases rest with
    | nil =>
      rw [Server.combine, if_neg (by simp)] at h
      refine ⟨[cur ++ [tok]], by rw [← Server.Parse.ok.inj h]; rfl, ?_⟩
      simp [serverFill, Block.putRows, Block.putRow]
    | cons tok' rest =>
      obtain ⟨rows, hrows, hfill⟩ := ih h (Or.inl (List.cons_ne_nil tok' rest)) hbuf r b
      rw [List.length_append, List.length_singleton] at hfill
      exact ⟨rows, hrows, by rw [if_neg (List.cons_ne_nil tok' rest), hfill]⟩
  | case6 rest cur c htake hord ih =>
    rw [serverFill, if_neg htake, if_neg hord, if_pos rfl]
    exact closed_row (ih h (Or.inr rfl) hbuf (r + 1) (b.putRow (rowCells * r) cur))
  | case7 => cases h
  | case8 => cases h
  | case9 cur c name rest v hcreate htake hord hbar ih =>
    obtain ⟨hname, hkept⟩ := ParserSafety.createFile_eq_some hcreate
    rw [serverFill, if_neg htake, if_neg hord, if_neg hbar, if_pos rfl]
    dsimp only
    rw [if_pos (hname.trans hbuf.le)]
    exact closed_row (ih h (Or.inr rfl) (hkept.trans hbuf) (r + 1) (b.putRow (rowCells * r) cur))
  | case10 => cases h
  | case11 tok rest cur c htake hord hbar hfile hbang n hn ih =>
    rw [serverFill, if_neg htake, if_neg hord, if_neg hbar, if_neg hfile, if_pos hbang, hn]
    exact closed_row (ih h (Or.inr rfl) ((congrArg _ (ParserSafety.serverPipeOut_buffer ..)).trans hbuf) (r + 1)
      (b.putRow (rowCells * r) cur))
  | case12 => cases h
  | case13 tok rest cur c htake hord hbar hfile hbang hnum n hn ih =>
    rw [serverFill, if_neg htake, if_neg hord, if_neg hbar, if_neg hfile, if_neg hbang, if_pos hnum, hn]
    exact closed_row (ih h (Or.inr rfl) ((congrArg _ (ParserSafety.serverPipeOut_buffer ..)).trans hbuf) (r + 1)
      (b.putRow (rowCells * r) cur))
  | case14 => cases h
  | case15 => cases h
  | case16 tok rest cur c htake hord hbar hfile hbang hnum n hn c₁ hc₁ ih =>
    obtain ⟨-, -, rfl⟩ := Server.makeUserPipe_ok.mp hc₁
    rw [serverFill, if_neg htake, if_neg hord, if_neg hbar, if_neg hfile, if_neg hbang, if_neg hnum, hn]
    exact closed_row (ih h (Or.inr rfl) hbuf (r + 1) (b.putRow (rowCells * r) cur))

/-- The whole line is one process of `tell` or `yell`, or its tokens fill the rows. -/
def serverLine (toks : List Token) (b : Block Token) : Option (Block Token × ℕ) :=
  match toks with
  | [] => none
  | tok :: _ =>
    if tok = Server.tellCmd ∨ tok = Server.yellCmd then some (b.putRow 0 toks, 1)
    else serverFill toks 0 0 b

/-! ### Lines of commands -/

/-- The name behind a `>` is copied inside its buffer. -/
def NameFits : Suffix → Prop
  | .file name => name.length ≤ fileNameSize
  | _ => True

instance : (s : Suffix) → Decidable (NameFits s)
  | .file _ => inferInstanceAs (Decidable (_ ≤ _))
  | .none | .pipe _ | .shock _ => isTrue trivial

/-- The rows of a line of commands are written one after another. -/
theorem fill_tokens {l : Pipeline} (h : l.Ok Words) (hname : NameFits l.suffix) (b : Block Token) :
    fill l.tokens 0 0 b = some (Block.putRows rowCells 0 l.cmds b, l.cmds.length) := by
  obtain ⟨p, hproc, hbuf⟩ : ∃ p : Shell.Parsed, p.process = [] ∧
      p.vars.redirectionFileName.length = fileNameSize :=
    ⟨⟨{ (Shell.init fun _ => none).vars with redirectionFileName := List.replicate fileNameSize '\x00' }, [],
      false⟩, rfl, List.length_replicate⟩
  have hcomb := Shell.combine_words ⟨true, true, none⟩ p h
  have happ : ∃ q, Shell.applySuffix ⟨true, true, none⟩ { p with process := p.process ++ l.cmds } l.suffix =
      some q ∧ q.process = l.cmds := by
    cases hsuf : l.suffix with
    | none => exact ⟨_, rfl, by simp [hproc]⟩
    | pipe ds => exact ⟨_, rfl, by simp [Shell.Parsed.pipeOut, hproc]⟩
    | shock ds => exact ⟨_, rfl, by simp [Shell.Parsed.pipeOut, hproc]⟩
    | file name =>
      rw [hsuf, NameFits, ← hbuf] at hname
      obtain ⟨v, hv⟩ : ∃ v, p.vars.createFile ⟨true, true, none⟩ name = some v := by
        rw [Vars.createFile, strncpy, if_pos hname]
        exact ⟨_, rfl⟩
      exact ⟨{ p with process := p.process ++ l.cmds, vars := v }, by simp [Shell.applySuffix, hv],
        by simp [hproc]⟩
  obtain ⟨q, hq, hqproc⟩ := happ
  rw [hq] at hcomb
  obtain ⟨rows, hrows, hfill⟩ := fill_combine hcomb (Or.inr rfl) hbuf 0 b
  rw [hqproc, hproc, List.nil_append] at hrows
  subst hrows
  rw [Nat.zero_add] at hfill
  exact hfill

/-- A longer name runs over the end of its buffer. -/
theorem fill_long_name {name : Token} (hlong : ¬ name.length ≤ fileNameSize) : ∀ (ts : List Token) (r j : ℕ)
    (b : Block Token), (∀ t ∈ ts, Shell.ordinary t = true ∨ t = ['|']) → fill (ts ++ [['>'], name]) r j b = none
  | [], r, j, b, _ => by
    rw [List.nil_append, fill, if_neg (by decide), if_neg (by decide), if_pos rfl]
    exact if_neg hlong
  | t :: ts, r, j, b, h => by
    have ih := fun r j b => fill_long_name hlong ts r j b fun x hx => h x (List.mem_cons_of_mem _ hx)
    rw [List.cons_append, fill]
    rcases h t (List.mem_cons_self ..) with hord | rfl
    · rw [if_pos hord]
      exact ih r (j + 1) _
    · exact ih (r + 1) 0 _

theorem fill_tokens_none {l : Pipeline} (h : l.Ok Words) (hname : ¬ NameFits l.suffix) (b : Block Token) :
    fill l.tokens 0 0 b = none := by
  cases hsuf : l.suffix with
  | file name =>
    rw [hsuf] at hname
    rw [Pipeline.tokens, hsuf]
    refine fill_long_name hname _ 0 0 b fun t ht => ?_
    rcases Shell.mem_joinCmds ht with rfl | ⟨c, hc, ht⟩
    · exact Or.inr rfl
    · exact Or.inl ((h.cmds_ok c hc).2 t ht)
  | none | pipe ds | shock ds =>
    rw [hsuf] at hname
    exact absurd trivial hname

/-- Where no user pipe is mentioned, the server fills the rows in the same way. -/
theorem serverFill_words (suf : List Token)
    (hsuf : ∀ r j b, serverFill suf r j b = fill suf r j b) : ∀ (ts : List Token) (r j : ℕ) (b : Block Token),
    (∀ t ∈ ts, Server.ordinary t = true ∨ t = ['|']) → serverFill (ts ++ suf) r j b = fill (ts ++ suf) r j b
  | [], r, j, b, _ => hsuf r j b
  | t :: ts, r, j, b, h => by
    have ih := fun r j b => serverFill_words suf hsuf ts r j b fun x hx => h x (List.mem_cons_of_mem _ hx)
    rw [List.cons_append, serverFill, fill]
    rcases h t (List.mem_cons_self ..) with hord | rfl
    · have hshell : Shell.ordinary t = true := by
        rw [Server.ordinary.eq_def] at hord
        split at hord
        · cases hord
        · exact hord
      rw [if_neg (Server.ordinary_head hord).1, if_pos hord, if_pos hshell]
      exact ih r (j + 1) _
    · exact ih (r + 1) 0 _

theorem serverFill_suffix {suf : Suffix} (h : suf.Ok) (r j : ℕ) (b : Block Token) :
    serverFill suf.tokens r j b = fill suf.tokens r j b := by
  cases suf with
  | none => rfl
  | pipe ds =>
    have hne : ds ≠ [] := h.1.1
    simp only [Suffix.tokens, serverFill, fill, Server.ordinary, Shell.ordinary, List.head?_cons]
    simp [hne]
  | shock ds => simp [Suffix.tokens, serverFill, fill, Server.ordinary, Shell.ordinary]
  | file name => rfl

/-- A command leaves two tokens for each of the others. -/
theorem joinCmds_length : ∀ {cmds : List (List Token)}, (∀ c ∈ cmds, c ≠ []) →
    (cmds ≠ [] → 2 * cmds.length ≤ (joinCmds cmds).length + 1) ∧
    ∀ (k : ℕ) c, cmds[k]? = some c → c.length + 2 * cmds.length ≤ (joinCmds cmds).length + 2
  | [], _ => by simp
  | [c], h => by
    have hpos : 0 < c.length := List.length_pos_iff.mpr (h c (List.mem_singleton_self c))
    refine ⟨fun _ => ?_, fun k x hx => ?_⟩
    · rw [joinCmds, List.length_singleton]
      omega
    · cases k with
      | zero =>
        obtain rfl : c = x := by simpa using hx
        rw [joinCmds, List.length_singleton]
      | succ k => simp at hx
  | c :: c' :: cmds, h => by
    have hpos : 0 < c.length := List.length_pos_iff.mpr (h c (List.mem_cons_self ..))
    obtain ⟨hall, hone⟩ := joinCmds_length fun x hx => h x (List.mem_cons_of_mem c hx)
    have hall := hall (List.cons_ne_nil c' cmds)
    rw [joinCmds, List.length_append]
    · simp only [List.length_cons] at hall hone ⊢
      refine ⟨fun _ => by omega, fun k x hx => ?_⟩
      cases k with
      | zero =>
        obtain rfl : c = x := by simpa using hx
        omega
      | succ k =>
        have hx' := hone k x (by simpa using hx)
        omega
    · simp

/-- Every row begins and ends inside the array. -/
theorem place_lt {line : List Char} {l : Pipeline} (hreads : tokens ' ' line = l.tokens)
    (hshort : line.length ≤ 15098) (hne : ∀ c ∈ l.cmds, c ≠ []) {k : ℕ} {c : List Token}
    (hc : l.cmds[k]? = some c) : rowCells * k + c.length < blockCells := by
  have hk := (List.getElem?_eq_some_iff.mp hc).1
  have htokens := tokens_length line
  have hrow := (joinCmds_length hne).2 k c hc
  rw [hreads, Pipeline.tokens, List.length_append] at htokens
  rw [rowCells, blockCells]
  omega

/-! ### Argument vectors -/

/-- The vector that starts at each row is the argument vector of its command. -/
def Preserves (b : Block Token) (rows : List (List Token)) : Prop :=
  ∀ (prc : ℕ) argv, rows[prc]? = some argv → b.Reads (rowCells * prc) argv

/-- Only cells of the array were written. -/
def Inside (b : Block Token) : Prop := ∀ i ∈ b.written, i < blockCells

/-- A line of commands, as the shell of project 1 reads it. -/
structure CommandLine where
  line : List Char
  pipeline : Pipeline
  reads : tokens ' ' line = pipeline.tokens
  short : line.length ≤ 15098
  ok : pipeline.Ok Words

/-- A line of commands, as the server reads it. -/
structure ServerLine where
  line : List Char
  pipeline : Pipeline
  reads : tokens ' ' line = pipeline.tokens
  short : line.length ≤ 15098
  ok : pipeline.Ok fun c => c ≠ [] ∧ ∀ t ∈ c, Server.ordinary t = true

/-- A line that begins with `tell` or `yell` is one command as it stands. -/
def ServerLine.rows (l : ServerLine) : List (List Token) :=
  match l.pipeline.tokens with
  | [] => []
  | tok :: rest => if tok = Server.tellCmd ∨ tok = Server.yellCmd then [tok :: rest] else l.pipeline.cmds

/-- The file name of a line is copied, unless the line is a message. -/
def ServerLine.CopyFits (l : ServerLine) : Prop :=
  match l.pipeline.tokens with
  | [] => True
  | tok :: _ => if tok = Server.tellCmd ∨ tok = Server.yellCmd then True else NameFits l.pipeline.suffix

theorem inside_putRows {mem : ℕ → Option Token} {rows : List (List Token)}
    (h : ∀ (k : ℕ) row, rows[k]? = some row → rowCells * k + row.length < blockCells) :
    Inside (Block.putRows rowCells 0 rows ⟨mem, []⟩) := by
  intro i hi
  rcases Block.mem_written_putRows rows hi with hi | ⟨k, row, hrow, hle⟩
  · cases hi
  · rw [Nat.zero_add] at hle
    exact hle.trans_lt (h k row hrow)

/-- The rows are filled, no other cell is written, and every command has its argument vector. -/
def Right (filled : Option (Block Token × ℕ)) (rows : List (List Token)) : Prop :=
  ∃ b, filled = some (b, rows.length) ∧ Inside b ∧ Preserves b rows

/-- Where the name fits, the rows are those of the line. -/
theorem right_iff {mem : ℕ → Option Token} {rows : List (List Token)} {filled : Option (Block Token × ℕ)}
    {fits : Prop} (hnone : ¬ fits → filled = none)
    (hsome : fits → filled = some (Block.putRows rowCells 0 rows ⟨mem, []⟩, rows.length))
    (hplace : ∀ (k : ℕ) row, rows[k]? = some row → rowCells * k + row.length < blockCells) :
    (Right filled rows ↔ fits ∧ Block.Fits rowCells rows) ∧ ∀ b n, filled = some (b, n) → Inside b := by
  have hinside : Inside (Block.putRows rowCells 0 rows ⟨mem, []⟩) := inside_putRows hplace
  by_cases hfits : fits
  · rw [hsome hfits]
    refine ⟨⟨?_, fun h => ⟨_, rfl, hinside, (Block.rows_read_iff ..).mpr h.2⟩⟩, ?_⟩
    · rintro ⟨b, hb, -, hpreserves⟩
      cases hb
      exact ⟨hfits, (Block.rows_read_iff ..).mp hpreserves⟩
    · rintro b n hb
      cases hb
      exact hinside
  · rw [hnone hfits]
    exact ⟨iff_of_false (fun ⟨_, hb, _⟩ => nomatch hb) fun h => hfits h.1, fun _ _ hb => nomatch hb⟩

/-- `a a a a a a a a a a | b`, with ten tokens in the first command. -/
def tenTokens : CommandLine where
  line := "a a a a a a a a a a | b".toList
  pipeline := ⟨[List.replicate 10 ['a'], [['b']]], .none⟩
  reads := by decide +kernel
  short := by decide
  ok := by decide

end NetProg.ArgumentVectors
