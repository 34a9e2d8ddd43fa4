import NetProg.Admission
import NetProg.Multi.Line

/-! The subscripts of `user` and of `name_pipe_record` that `npshell_3.h` uses on a line.

    The array has the rows 0 to 29. The row of a user is its index nearly everywhere, but the records of a user
    stand in the row of its id, which is one more. -/

namespace NetProg.Multi

open NetProg.Server ParserSafety

/-- A row of `user`, an entry of `name_pipe_record`. -/
def Subscript.Valid : Subscript → Prop
  | .user i => 0 ≤ i ∧ i < 30
  | .record i => 0 ≤ i ∧ i ≤ 30

instance Subscript.instDecidableValid : DecidablePred Subscript.Valid
  | .user i => inferInstanceAs (Decidable (0 ≤ i ∧ i < 30))
  | .record i => inferInstanceAs (Decidable (0 ≤ i ∧ i ≤ 30))

/-- Nothing was out of range. -/
def InBounds (l : List Subscript) : Prop := ∀ x ∈ l, x.Valid

instance instDecidableInBounds (l : List Subscript) : Decidable (InBounds l) :=
  inferInstanceAs (Decidable (∀ x ∈ l, x.Valid))

/-! ### The lines that stay within the table -/

/-- What the item behind `done` does not do: use the row behind the last for the records of user `u` or of a
    receiver. -/
def ItemInRange (u : ℕ) (inp : LineInput) (done : List Item) : Item → Prop
  | .take (some n) => (inp.seen (3 * done.length)).checkIdExist (atoi n) = true → u ≠ 29
  | .give (some n) => (inp.seen (3 * done.length)).checkIdExist (atoi n) = true → atoi n ≠ 30
  | _ => True

/-- The item behind `done` is not refused. -/
def Accepted (u : ℕ) (inp : LineInput) (done : List Item) : Item → Prop
  | .take (some n) => (inp.seen (3 * done.length)).checkIdExist (atoi n) = true ∧
      (inp.seen (3 * done.length + 1)).checkNamePipeExist (atoi n) (u + 1) = true
  | .give (some n) => (inp.seen (3 * done.length)).checkIdExist (atoi n) = true ∧
      (inp.seen (3 * done.length + 1)).checkNamePipeExist (u + 1) (atoi n) = false
  | _ => True

/-- The line comes to its process loop. -/
def Executed (u : ℕ) (inp : LineInput) (l : List Item) : Prop :=
  Scan.Passes passesItem () l ∧ ∀ pre it post, l = pre ++ it :: post → Accepted u inp pre it

def isGive : Item → Bool
  | .give _ => true
  | _ => false

def isFile : Item → Bool
  | .file _ => true
  | _ => false

def isNumber : Item → Bool
  | .number _ => true
  | _ => false

/-- The process loop goes on behind a row, with the environment it then has. -/
def passesRow (batch : Bool) (environ : Environ) (argv : List Token) : Option Environ :=
  if argv = [] ∨ argv.head? = some Shell.exitCmd then none
  else if argv.head? = some Shell.printenvCmd then
    if printenvFits environ argv.tail then some environ else none
  else if argv.head? = some Shell.setenvCmd then some (environAfter environ argv.tail)
  else if argv.head? = some batchCmd then if argv.tail ≠ [] ∧ batch then some environ else none
  else if argv.head? = some tellCmd then if argv.tail ≠ [] then some environ else none
  else some environ

def builtins : List Token :=
  [Shell.printenvCmd, Shell.setenvCmd, Shell.exitCmd, batchCmd, whoCmd, tellCmd, yellCmd, nameCmd]

/-- The row is a command that is forked. -/
def Forks (argv : List Token) : Prop := ∃ cmd args, argv = cmd :: args ∧ cmd ∉ builtins

/-- The last command of the line is forked for a user pipe that an earlier line has left, and
    `name_pipe_out_id` is what happens to be in its memory. -/
structure Stray (s : Npshell) (inp : LineInput) (l : List Item) : Prop where
  flag : s.namePipeOutFlag = true
  no_give : l.any isGive = false
  no_file : (s.vars.writeFileFlag || l.any isFile) = false
  no_number : ((s.vars.shockPipeOutFlag || s.vars.numPipeOutFlag) || l.any isNumber) = false
  junk : ¬ (1 ≤ inp.namePipeOutId ∧ inp.namePipeOutId ≤ 30)

/-- The lines on which no subscript is out of range, for the shell `s` of user `u`. -/
structure WithinTable (s : Npshell) (u : ℕ) (inp : LineInput) (toks : List Token) : Prop where
  items : ¬ IsMessage toks → ∀ pre it post, serverItems toks = pre ++ it :: post →
    Scan.Passes passesItem () pre → ItemInRange u inp pre it
  /-- No `exit` is executed, and no command for a stray user pipe. -/
  rows : ¬ IsMessage toks → Executed u inp (serverItems toks) → ∀ pre argv post,
    ParserSafety.rowsOf (serverItems toks) [] = pre ++ argv :: post → Scan.Passes (passesRow inp.batch) s.environ pre →
      argv.head? ≠ some Shell.exitCmd ∧ (post = [] → Forks argv → ¬ Stray s inp (serverItems toks))

/-! ### Combining -/

theorem inBounds_nil : InBounds [] := fun _ h => absurd h List.not_mem_nil

theorem inBounds_append {l l' : List Subscript} : InBounds (l ++ l') ↔ InBounds l ∧ InBounds l' :=
  List.forall_mem_append

theorem inBounds_cons {x : Subscript} {l : List Subscript} : InBounds (x :: l) ↔ x.Valid ∧ InBounds l :=
  List.forall_mem_cons

theorem inBounds_eachUser : InBounds eachUser := by
  intro x hx
  obtain ⟨i, hi, rfl⟩ := List.mem_map.mp hx
  have hlt : i < 30 := List.mem_range.mp hi
  exact ⟨by omega, by omega⟩

/-- The id of a user that exists. -/
theorem id_of_exist {user : Table} {id : ℤ} (h : user.checkIdExist id = true) : 1 ≤ id ∧ id ≤ 30 := by
  rw [Table.checkIdExist, List.any_eq_true] at h
  obtain ⟨i, hi, hid⟩ := h
  have hlt : i < 30 := List.mem_range.mp hi
  have heq : (i : ℤ) = id - 1 := by
    rw [Bool.and_eq_true] at hid
    exact eq_of_beq hid.2
  omega

theorem user_valid {u : ℕ} (hu : u < 30) : Subscript.Valid (.user u) := ⟨by omega, by omega⟩

theorem take_inBounds {c : Turn} (hu : c.u < 30) (inp : LineInput) (id : ℤ) :
    InBounds (c.takeUserPipe inp id).subscripts ↔
      InBounds c.subscripts ∧ ((inp.seen c.now).checkIdExist id = true → c.u ≠ 29) := by
  by_cases hexist : (inp.seen c.now).checkIdExist id = true
  · obtain ⟨hpos, hle⟩ := id_of_exist hexist
    have hrow : Subscript.Valid (.user (c.u + 1)) ↔ c.u ≠ 29 := by
      simp only [Subscript.Valid]
      omega
    have hrecord : Subscript.Valid (.record id) := ⟨by omega, hle⟩
    have hsender : Subscript.Valid (.user (id - 1)) := ⟨by omega, by omega⟩
    rw [Turn.takeUserPipe, if_pos hexist]
    split_ifs
    · change InBounds (c.subscripts ++ _) ↔ _
      simp [inBounds_append, inBounds_cons, inBounds_eachUser, hrow, hrecord, hsender, user_valid hu, hexist]
    · change InBounds (c.subscripts ++ _) ↔ _
      simp [inBounds_append, inBounds_cons, inBounds_eachUser, inBounds_nil, hrow, hrecord, hexist]
  · rw [Turn.takeUserPipe, if_neg hexist]
    change InBounds (c.subscripts ++ eachUser) ↔ _
    rw [inBounds_append]
    exact and_congr_right fun _ => iff_of_true inBounds_eachUser fun h => absurd h hexist

theorem createPipeFile_subscripts (c : Turn) (inp : LineInput) (name : List Char) :
    (c.createPipeFile inp name).subscripts = c.subscripts := by
  rw [Turn.createPipeFile]
  split_ifs <;> rfl

theorem make_inBounds {c : Turn} (hu : c.u < 30) (inp : LineInput) (id : ℤ) :
    InBounds (c.makeUserPipe inp id).subscripts ↔
      InBounds c.subscripts ∧ ((inp.seen c.now).checkIdExist id = true → id ≠ 30) := by
  by_cases hexist : (inp.seen c.now).checkIdExist id = true
  · obtain ⟨hpos, hle⟩ := id_of_exist hexist
    have hrow : Subscript.Valid (.user id) ↔ id ≠ 30 := by
      simp only [Subscript.Valid]
      omega
    have hrecord : Subscript.Valid (.record (c.u + 1)) := ⟨by omega, by omega⟩
    rw [Turn.makeUserPipe, if_pos hexist]
    split_ifs
    · change InBounds (c.subscripts ++ _) ↔ _
      simp [inBounds_append, inBounds_cons, inBounds_eachUser, inBounds_nil, hrow, hrecord, hexist]
    · change InBounds (Turn.createPipeFile _ inp _).subscripts ↔ _
      rw [createPipeFile_subscripts]
      change InBounds (c.subscripts ++ _) ↔ _
      simp [inBounds_append, inBounds_cons, inBounds_eachUser, inBounds_nil, hrow, hrecord, hexist]
  · rw [Turn.makeUserPipe, if_neg hexist]
    change InBounds (c.subscripts ++ eachUser) ↔ _
    rw [inBounds_append]
    exact and_congr_right fun _ => iff_of_true inBounds_eachUser fun h => absurd h hexist

/-- One item. -/
theorem Acts.inBounds {inp : LineInput} {it : Item} {cur cur' : List Token} {c d : Turn}
    (h : Acts inp it cur c cur' d) {done : List Item} (hu : c.u < 30) (hnow : c.now = 3 * done.length) :
    InBounds d.subscripts ↔ InBounds c.subscripts ∧ ItemInRange c.u inp done it := by
  cases h with
  | word | bar => exact (and_iff_left trivial).symm
  | number shock n => exact (and_iff_left trivial).symm
  | file name _ _ d hd =>
    obtain ⟨v, -, rfl⟩ := redirect_eq_some hd
    exact (and_iff_left trivial).symm
  | take n =>
    rw [ItemInRange, ← hnow]
    exact take_inBounds hu inp (atoi n)
  | give n =>
    rw [ItemInRange, ← hnow]
    exact make_inBounds (c := c.push cur) hu inp (atoi n)

/-- Combining stays within the table if and only if every item it comes to does. -/
theorem combine_inBounds (inp : LineInput) {u : ℕ} (hu : u < 30) (toks cur : List Token) (c : Turn)
    (hbuf : c.vars.redirectionFileName.length = 100) :
    ∀ done : List Item, c.u = u → c.now = 3 * done.length →
      (InBounds (combine inp toks cur c).turn.subscripts ↔
        InBounds c.subscripts ∧
          Scan.Clear passesItem (ItemInRange u inp) (fun _ => True) () done (serverItems toks)) := by
  refine combine_rule inp (R := fun l _ c o => ∀ done : List Item, c.u = u → c.now = 3 * done.length →
    (InBounds o.turn.subscripts ↔ InBounds c.subscripts ∧
      Scan.Clear passesItem (ItemInRange u inp) (fun _ => True) () done l)) ?_ ?_ ?_ toks cur c hbuf
  · intro cur c done _ _
    refine Iff.trans ?_ (and_iff_left trivial).symm
    rw [Outcome.turn]
    split_ifs <;> exact Iff.rfl
  · intro it l cur c hstop done _ _
    rw [Scan.clear_cons_none hstop]
    refine (and_iff_left ?_).symm
    rcases it with _ | _ | _ | _ | n | n
    · trivial
    · trivial
    · trivial
    · trivial
    · cases n with
      | none => trivial
      | some n => cases hstop
    · cases n with
      | none => trivial
      | some n => cases hstop
  · intro it l cur c cur' d o hpass hact ih done hcu hnow
    have hkept := hact.kept
    have hnow' : d.now = 3 * (done ++ [it]).length := by
      rw [hkept.now, hnow, List.length_append, List.length_singleton]
      ring
    rw [Scan.clear_cons_some hpass, ih _ (hkept.u.trans hcu) hnow', hact.inBounds (hcu ▸ hu) hnow, hcu, and_assoc]

/-- What the items `l` behind `done` make of a turn. -/
structure Combined (inp : LineInput) (done l : List Item) (cur : List Token) (c d : Turn) : Prop where
  u : d.u = c.u
  environ : d.environ = c.environ
  process : d.process = c.process ++ ParserSafety.rowsOf l cur
  ignore : d.ignore = false ↔
    c.ignore = false ∧ Scan.Clear passesItem (Accepted c.u inp) (fun _ => True) () done l
  file : d.vars.writeFileFlag = (c.vars.writeFileFlag || l.any isFile)
  number : (d.vars.shockPipeOutFlag || d.vars.numPipeOutFlag) =
    ((c.vars.shockPipeOutFlag || c.vars.numPipeOutFlag) || l.any isNumber)
  no_give : l.any isGive = false →
    d.namePipeOutFlag = c.namePipeOutFlag ∧ d.namePipeOutId = c.namePipeOutId
  give : l.any isGive = true → d.ignore = false → 1 ≤ d.namePipeOutId ∧ d.namePipeOutId ≤ 30

/-- One item, in the same terms. -/
structure Added (inp : LineInput) (done : List Item) (it : Item) (c d : Turn) : Prop where
  ignore : d.ignore = false ↔ c.ignore = false ∧ Accepted c.u inp done it
  file : d.vars.writeFileFlag = (c.vars.writeFileFlag || isFile it)
  number : (d.vars.shockPipeOutFlag || d.vars.numPipeOutFlag) =
    ((c.vars.shockPipeOutFlag || c.vars.numPipeOutFlag) || isNumber it)
  no_give : isGive it = false →
    d.namePipeOutFlag = c.namePipeOutFlag ∧ d.namePipeOutId = c.namePipeOutId
  give : isGive it = true → d.ignore = false → 1 ≤ d.namePipeOutId ∧ d.namePipeOutId ≤ 30

theorem createFile_flags {v w : Vars} {opens : Opens} {name : Token} (h : v.createFile opens name = some w) :
    w.writeFileFlag = true ∧ w.shockPipeOutFlag = v.shockPipeOutFlag ∧ w.numPipeOutFlag = v.numPipeOutFlag := by
  rw [Vars.createFile] at h
  split at h
  · cases h
  · split_ifs at h
    · obtain rfl := Option.some.inj h
      exact ⟨rfl, rfl, rfl⟩
    · obtain rfl := Option.some.inj h
      exact ⟨rfl, rfl, rfl⟩

theorem numberPipe_flags (v : Vars) (n : ℤ) :
    (v.numberPipe n).writeFileFlag = v.writeFileFlag ∧
      (v.numberPipe n).shockPipeOutFlag = v.shockPipeOutFlag ∧
      (v.numberPipe n).numPipeOutFlag = v.numPipeOutFlag := by
  rw [Vars.numberPipe]
  split <;> exact ⟨rfl, rfl, rfl⟩

theorem pipeOut_flags (c : Turn) (shock : Bool) (n : ℤ) :
    (c.pipeOut shock n).vars.writeFileFlag = c.vars.writeFileFlag ∧
      ((c.pipeOut shock n).vars.shockPipeOutFlag || (c.pipeOut shock n).vars.numPipeOutFlag) = true := by
  rw [Turn.pipeOut]
  cases shock
  · exact ⟨(numberPipe_flags c.vars n).1, Bool.or_true _⟩
  · exact ⟨(numberPipe_flags c.vars n).1, Bool.true_or _⟩

theorem take_added (c : Turn) (inp : LineInput) (done : List Item) (hnow : c.now = 3 * done.length)
    (n : Token) : Added inp done (.take (some n)) c (c.takeUserPipe inp (atoi n)).tick := by
  have hacc : Accepted c.u inp done (.take (some n)) ↔ (inp.seen c.now).checkIdExist (atoi n) = true ∧
      (inp.seen (c.now + 1)).checkNamePipeExist (atoi n) (c.u + 1) = true := by
    rw [hnow]
    exact Iff.rfl
  generalize atoi n = id at *
  rw [Turn.takeUserPipe]
  split_ifs with hexist hrecord
  · exact ⟨(and_iff_left (hacc.mpr ⟨hexist, hrecord⟩)).symm, (Bool.or_false _).symm, (Bool.or_false _).symm,
      fun _ => ⟨rfl, rfl⟩, fun h => by cases h⟩
  · exact ⟨iff_of_false (by simp [Turn.tick, Turn.refuse]) fun h => hrecord (hacc.mp h.2).2,
      (Bool.or_false _).symm, (Bool.or_false _).symm, fun _ => ⟨rfl, rfl⟩, fun h => by cases h⟩
  · exact ⟨iff_of_false (by simp [Turn.tick, Turn.refuse]) fun h => hexist (hacc.mp h.2).1,
      (Bool.or_false _).symm, (Bool.or_false _).symm, fun _ => ⟨rfl, rfl⟩, fun h => by cases h⟩

theorem make_added (c : Turn) (inp : LineInput) (done : List Item) (hnow : c.now = 3 * done.length)
    (n : Token) : Added inp done (.give (some n)) c (c.makeUserPipe inp (atoi n)).tick := by
  have hacc : Accepted c.u inp done (.give (some n)) ↔ (inp.seen c.now).checkIdExist (atoi n) = true ∧
      (inp.seen (c.now + 1)).checkNamePipeExist (c.u + 1) (atoi n) = false := by
    rw [hnow]
    exact Iff.rfl
  generalize atoi n = id at *
  rw [Turn.makeUserPipe]
  split_ifs with hexist hrecord
  · exact ⟨iff_of_false (by simp [Turn.tick, Turn.refuse])
        fun h => Bool.false_ne_true ((hacc.mp h.2).2.symm.trans hrecord),
      (Bool.or_false _).symm, (Bool.or_false _).symm, (fun h => by cases h),
      fun _ h => by simp [Turn.tick, Turn.refuse] at h⟩
  · obtain ⟨k, es, hcreate, -⟩ := createPipeFile_eq _ inp _
    rw [hcreate]
    exact ⟨(and_iff_left (hacc.mpr ⟨hexist, Bool.eq_false_of_not_eq_true hrecord⟩)).symm,
      (Bool.or_false _).symm, (Bool.or_false _).symm, (fun h => by cases h), fun _ _ => id_of_exist hexist⟩
  · exact ⟨iff_of_false (by simp [Turn.tick, Turn.refuse]) fun h => hexist (hacc.mp h.2).1,
      (Bool.or_false _).symm, (Bool.or_false _).symm, (fun h => by cases h),
      fun _ h => by simp [Turn.tick, Turn.refuse] at h⟩

theorem Acts.added {inp : LineInput} {it : Item} {cur cur' : List Token} {c d : Turn}
    (h : Acts inp it cur c cur' d) {done : List Item} (hnow : c.now = 3 * done.length) :
    Added inp done it c d := by
  cases h with
  | word | bar =>
    exact ⟨(and_iff_left trivial).symm, (Bool.or_false _).symm, (Bool.or_false _).symm,
      fun _ => ⟨rfl, rfl⟩, nofun⟩
  | number shock n =>
    obtain ⟨hfile, hnumber⟩ := pipeOut_flags (c.push cur) shock (atoi n)
    exact ⟨(and_iff_left trivial).symm, hfile.trans (Bool.or_false _).symm,
      hnumber.trans (Bool.or_true _).symm, fun _ => ⟨rfl, rfl⟩, nofun⟩
  | file name _ _ d hd =>
    obtain ⟨v, hv, rfl⟩ := redirect_eq_some hd
    obtain ⟨hfile, hshock, hnum⟩ := createFile_flags hv
    refine ⟨(and_iff_left trivial).symm, hfile.trans (Bool.or_true _).symm, ?_, fun _ => ⟨rfl, rfl⟩,
      nofun⟩
    change (v.shockPipeOutFlag || v.numPipeOutFlag) = _
    rw [hshock, hnum]
    exact (Bool.or_false _).symm
  | take n => exact take_added c inp done hnow n
  | give n =>
    have hadd := make_added (c.push cur) inp done hnow n
    exact ⟨hadd.ignore, hadd.file, hadd.number, hadd.no_give, hadd.give⟩

/-- The rows of the item and of those behind it. -/
theorem Acts.rows {inp : LineInput} {it : Item} {cur cur' : List Token} {c d : Turn}
    (h : Acts inp it cur c cur' d) (l : List Item) :
    c.process ++ ParserSafety.rowsOf (it :: l) cur = d.process ++ ParserSafety.rowsOf l cur' := by
  cases h with
  | word | bar => simp [ParserSafety.rowsOf, Turn.tick, Turn.push]
  | number shock n => simp [ParserSafety.rowsOf, Turn.tick, Turn.push, Turn.pipeOut]
  | file name _ _ d hd =>
    obtain ⟨v, -, rfl⟩ := redirect_eq_some hd
    simp [ParserSafety.rowsOf, Turn.tick, Turn.push, Turn.emit, Turn.withVars]
  | take n =>
    rw [Turn.takeUserPipe]
    split_ifs <;> rfl
  | give n =>
    have hprocess : ((c.push cur).makeUserPipe inp (atoi n)).process = c.process ++ [cur] := by
      generalize atoi n = id
      rw [Turn.makeUserPipe]
      split_ifs
      · rfl
      · obtain ⟨k, es, hcreate, -⟩ := createPipeFile_eq _ inp _
        rw [hcreate]
        rfl
      · rfl
    change _ = ((c.push cur).makeUserPipe inp (atoi n)).process ++ _
    rw [hprocess]
    simp [ParserSafety.rowsOf]

/-- Combining comes to the end of the line or stops. -/
theorem combine_combined (inp : LineInput) (toks cur : List Token) (c : Turn)
    (hbuf : c.vars.redirectionFileName.length = 100) : ∀ done : List Item, c.now = 3 * done.length →
      (Scan.Passes passesItem () (serverItems toks) →
        ∃ d, combine inp toks cur c = .next d ∧ Combined inp done (serverItems toks) cur c d) ∧
      (¬ Scan.Passes passesItem () (serverItems toks) → ∃ d, combine inp toks cur c = .crashed d) := by
  refine combine_rule inp (R := fun l cur c o => ∀ done : List Item, c.now = 3 * done.length →
    (Scan.Passes passesItem () l → ∃ d, o = .next d ∧ Combined inp done l cur c d) ∧
      (¬ Scan.Passes passesItem () l → ∃ d, o = .crashed d)) ?_ ?_ ?_ toks cur c hbuf
  · intro cur c done _
    refine ⟨fun _ => ⟨_, rfl, ?_⟩, fun h => absurd (Scan.passes_nil _ ()) h⟩
    rcases eq_or_ne cur [] with hcur | hcur
    · rw [if_pos hcur]
      exact ⟨rfl, rfl, by simp [ParserSafety.rowsOf, hcur], (and_iff_left trivial).symm, (Bool.or_false _).symm,
        (Bool.or_false _).symm, fun _ => ⟨rfl, rfl⟩, fun h => by cases h⟩
    · rw [if_neg hcur]
      exact ⟨rfl, rfl, by simp [ParserSafety.rowsOf, hcur, Turn.push], (and_iff_left trivial).symm, (Bool.or_false _).symm,
        (Bool.or_false _).symm, fun _ => ⟨rfl, rfl⟩, fun h => by cases h⟩
  · intro it l cur c hstop done _
    exact ⟨fun h => absurd h (Scan.passes_cons_none hstop), fun _ => ⟨c, rfl⟩⟩
  · intro it l cur c cur' d o hpass hact ih done hnow
    have hkept := hact.kept
    have hadd := hact.added hnow
    have hnow' : d.now = 3 * (done ++ [it]).length := by
      rw [hkept.now, hnow, List.length_append, List.length_singleton]
      ring
    obtain ⟨hend, hcrash⟩ := ih _ hnow'
    rw [Scan.passes_cons_some hpass]
    refine ⟨fun hl => ?_, hcrash⟩
    obtain ⟨e, rfl, he⟩ := hend hl
    refine ⟨e, rfl, he.u.trans hkept.u, he.environ.trans hkept.environ, ?_, ?_, ?_, ?_, fun hno => ?_,
      fun hsome hign => ?_⟩
    · rw [he.process, hact.rows l]
    · rw [he.ignore, hadd.ignore, hkept.u, Scan.clear_cons_some hpass, and_assoc]
    · rw [he.file, hadd.file, List.any_cons, Bool.or_assoc]
    · rw [he.number, hadd.number, List.any_cons, Bool.or_assoc]
    · rw [List.any_cons, Bool.or_eq_false_iff] at hno
      obtain ⟨hflag, hid⟩ := he.no_give hno.2
      obtain ⟨hflag', hid'⟩ := hadd.no_give hno.1
      exact ⟨hflag.trans hflag', hid.trans hid'⟩
    · cases hl : l.any isGive with
      | true => exact he.give hl hign
      | false =>
        rw [List.any_cons, hl, Bool.or_false] at hsome
        rw [(he.no_give hl).2]
        exact hadd.give hsome (he.ignore.mp hign).1

/-! ### The process loop -/

/-- What decides where the last command writes. -/
structure SameOut (c d : Turn) : Prop where
  u : d.u = c.u
  file : d.vars.writeFileFlag = c.vars.writeFileFlag
  shock : d.vars.shockPipeOutFlag = c.vars.shockPipeOutFlag
  num : d.vars.numPipeOutFlag = c.vars.numPipeOutFlag
  flag : d.namePipeOutFlag = c.namePipeOutFlag
  id : d.namePipeOutId = c.namePipeOutId
  environ : d.environ = c.environ
  subscripts : d.subscripts = c.subscripts

theorem SameOut.refl (c : Turn) : SameOut c c := ⟨rfl, rfl, rfl, rfl, rfl, rfl, rfl, rfl⟩

theorem SameOut.trans {c d e : Turn} (h : SameOut c d) (h' : SameOut d e) : SameOut c e :=
  ⟨h'.u.trans h.u, h'.file.trans h.file, h'.shock.trans h.shock, h'.num.trans h.num, h'.flag.trans h.flag,
    h'.id.trans h.id, h'.environ.trans h.environ, h'.subscripts.trans h.subscripts⟩

theorem afterFork_sameOut (c : Turn) : SameOut c c.afterFork := by
  rw [Turn.afterFork]
  dsimp only
  split_ifs <;> exact ⟨rfl, rfl, rfl, rfl, rfl, rfl, rfl, rfl⟩

theorem forkLast_sameOut (c : Turn) (pc : ℕ) (argv : List Token) (child : FdTable Desc) :
    SameOut c (c.forkLast pc argv child) := by
  rw [Turn.forkLast]
  refine SameOut.trans ?_ (afterFork_sameOut _)
  split_ifs <;> exact ⟨rfl, rfl, rfl, rfl, rfl, rfl, rfl, rfl⟩

theorem forkNormal_sameOut (c : Turn) (inp : LineInput) (pc : ℕ) (last : Bool) (argv : List Token) :
    SameOut c (c.forkNormal inp pc last argv) := by
  rw [Turn.forkNormal]
  refine SameOut.trans ?_ (afterFork_sameOut _)
  split_ifs <;> exact ⟨rfl, rfl, rfl, rfl, rfl, rfl, rfl, rfl⟩

/-- The branch for user pipes would be taken, with an id of nobody. -/
structure StrayTurn (c : Turn) : Prop where
  flag : c.namePipeOutFlag = true
  file : c.vars.writeFileFlag = false
  number : (c.vars.shockPipeOutFlag || c.vars.numPipeOutFlag) = false
  id : ¬ (1 ≤ c.namePipeOutId ∧ c.namePipeOutId ≤ 30)

theorem SameOut.stray {c d : Turn} (h : SameOut c d) : StrayTurn d ↔ StrayTurn c := by
  constructor
  · rintro ⟨hflag, hfile, hnumber, hid⟩
    rw [h.flag] at hflag
    rw [h.file] at hfile
    rw [h.shock, h.num] at hnumber
    rw [h.id] at hid
    exact ⟨hflag, hfile, hnumber, hid⟩
  · rintro ⟨hflag, hfile, hnumber, hid⟩
    rw [← h.flag] at hflag
    rw [← h.file] at hfile
    rw [← h.shock, ← h.num] at hnumber
    rw [← h.id] at hid
    exact ⟨hflag, hfile, hnumber, hid⟩

theorem forkUserPipe_inBounds {c : Turn} (hu : c.u < 30) (inp : LineInput) (pc : ℕ) (argv : List Token) :
    InBounds (c.forkUserPipe inp pc argv).subscripts ↔
      InBounds c.subscripts ∧ (1 ≤ c.namePipeOutId ∧ c.namePipeOutId ≤ 30) := by
  have hrow : Subscript.Valid (.user (c.namePipeOutId - 1)) ↔ 1 ≤ c.namePipeOutId ∧ c.namePipeOutId ≤ 30 := by
    simp only [Subscript.Valid]
    omega
  rw [Turn.forkUserPipe]
  change InBounds (Turn.forkLast _ pc argv _).subscripts ↔ _
  rw [(forkLast_sameOut _ pc argv _).subscripts]
  change InBounds (c.subscripts ++ ([.user c.u, .user (c.namePipeOutId - 1)] ++ eachUser)) ↔ _
  simp only [inBounds_append, inBounds_cons, inBounds_eachUser, inBounds_nil, user_valid hu, hrow, true_and, and_true]

theorem fork_inBounds {c : Turn} (hu : c.u < 30) (inp : LineInput) (pc : ℕ) (last : Bool)
    (argv : List Token) : InBounds (c.fork inp pc last argv).subscripts ↔
      InBounds c.subscripts ∧ (last = true → ¬ StrayTurn c) := by
  rw [Turn.fork]
  split_ifs with hfile hnumber hflag
  · have hsame : (c.forkRedirect inp pc argv).subscripts = c.subscripts :=
      (forkLast_sameOut c.beforeFork pc argv _).subscripts
    rw [hsame]
    refine (and_iff_left fun _ h => ?_).symm
    rw [h.file] at hfile
    exact Bool.false_ne_true hfile
  · have hsame : (c.forkNumberPipe inp pc argv).subscripts = c.subscripts :=
      (forkLast_sameOut c.beforeFork pc argv _).subscripts
    rw [hsame]
    refine (and_iff_left fun _ h => ?_).symm
    rw [h.number] at hnumber
    exact Bool.false_ne_true hnumber
  · rw [forkUserPipe_inBounds hu]
    rw [Bool.and_eq_true] at hflag
    refine and_congr_right fun _ => ⟨fun hid _ h => h.id hid, fun h => ?_⟩
    by_contra hid
    rw [hflag.2, Bool.and_true] at hfile hnumber
    exact h hflag.2 ⟨hflag.1, Bool.eq_false_of_not_eq_true hfile, Bool.eq_false_of_not_eq_true hnumber, hid⟩
  · rw [(forkNormal_sameOut c inp pc last argv).subscripts]
    refine (and_iff_left fun hlast h => hflag ?_).symm
    rw [h.flag, hlast]
    rfl

theorem fork_environ (c : Turn) (inp : LineInput) (pc : ℕ) (last : Bool) (argv : List Token) :
    (c.fork inp pc last argv).environ = c.environ := by
  rw [Turn.fork]
  split_ifs
  · exact (forkLast_sameOut c.beforeFork pc argv _).environ
  · exact (forkLast_sameOut c.beforeFork pc argv _).environ
  · exact (forkLast_sameOut _ pc argv _).environ
  · exact (forkNormal_sameOut c inp pc last argv).environ

/-- A command that is not the last one is forked in the ordinary branch. -/
theorem fork_sameOut (c : Turn) (inp : LineInput) (pc : ℕ) (argv : List Token) :
    SameOut c (c.fork inp pc false argv) := by
  simp only [Turn.fork, Bool.and_false, Bool.false_eq_true, if_false]
  exact forkNormal_sameOut ..

/-- What one row of `process` does. -/
structure RowDone (inp : LineInput) (last : Bool) (argv : List Token) (c : Turn) (o : Outcome) : Prop where
  inBounds : InBounds o.turn.subscripts ↔ InBounds c.subscripts ∧ argv.head? ≠ some Shell.exitCmd ∧
    (last = true → Forks argv → ¬ StrayTurn c)
  next : ∀ e, passesRow inp.batch c.environ argv = some e →
    ∃ d, o = .next d ∧ d.environ = e ∧ (last = false → d.u = c.u ∧ (StrayTurn d ↔ StrayTurn c))
  stop : passesRow inp.batch c.environ argv = none → ∀ d, o ≠ .next d

/-- `exit` uses the row behind the last. -/
theorem exitCommand_not_inBounds {c : Turn} (hu : c.u < 30) (inp : LineInput) :
    ¬ InBounds (c.exitCommand inp).subscripts := by
  intro h
  have hentry : (30, c.u + 1) ∈ Turn.ownEntries c.u := by
    rw [Turn.ownEntries, List.mem_filter, List.pair_mem_product, List.mem_range'_1, List.mem_range'_1]
    exact ⟨⟨⟨by decide, by decide⟩, by omega, by rw [qlen]; omega⟩, by simp⟩
  have hmem : Subscript.user (30 : ℕ) ∈ (c.exitCommand inp).subscripts := by
    change _ ∈ c.subscripts ++ _
    simp only [List.mem_append, List.mem_cons, List.mem_flatMap]
    exact Or.inr (Or.inl (Or.inr ⟨_, hentry, Or.inl rfl⟩))
  exact absurd (h _ hmem).2 (by decide)

theorem not_forks {cmd : Token} (h : cmd ∈ builtins) (args : List Token) : ¬ Forks (cmd :: args) := by
  rintro ⟨cmd', args', heq, hno⟩
  exact absurd (List.head_eq_of_cons_eq heq ▸ h) hno

/-- A builtin that goes on and leaves the flags alone. -/
theorem RowDone.of_next {inp : LineInput} {last : Bool} {cmd : Token} {args : List Token} {c d : Turn}
    (hcmd : cmd ∈ builtins) (hexit : cmd ≠ Shell.exitCmd)
    (hpass : passesRow inp.batch c.environ (cmd :: args) = some d.environ) (hu : d.u = c.u)
    (hsub : InBounds d.subscripts ↔ InBounds c.subscripts) (hstray : StrayTurn d ↔ StrayTurn c) :
    RowDone inp last (cmd :: args) c (.next d) where
  inBounds := hsub.trans (and_iff_left ⟨fun h => hexit (Option.some.inj h),
    fun _ hforks => absurd hforks (not_forks hcmd args)⟩).symm
  next e he := ⟨d, rfl, Option.some.inj (hpass.symm.trans he), fun _ => ⟨hu, hstray⟩⟩
  stop h := by
    rw [hpass] at h
    cases h

/-- A row at which the shell crashes. -/
theorem RowDone.of_crash {inp : LineInput} {last : Bool} {argv : List Token} {c : Turn}
    (hforks : ¬ Forks argv) (hexit : argv.head? ≠ some Shell.exitCmd)
    (hpass : passesRow inp.batch c.environ argv = none) : RowDone inp last argv c (.crashed c) where
  inBounds := (and_iff_left ⟨hexit, fun _ h => absurd h hforks⟩).symm
  next e he := by
    rw [hpass] at he
    cases he
  stop _ d h := by cases h

/-- A builtin only speaks: it writes, and looks at the table. -/
structure Spoke (c d : Turn) : Prop where
  u : d.u = c.u
  vars : d.vars = c.vars
  flag : d.namePipeOutFlag = c.namePipeOutFlag
  id : d.namePipeOutId = c.namePipeOutId
  environ : d.environ = c.environ
  subscripts : InBounds d.subscripts ↔ InBounds c.subscripts

theorem Spoke.of_touch {c : Turn} {l : List Subscript} (h : InBounds l) (es : List Event) :
    Spoke c ((c.touch l).emit es) :=
  ⟨rfl, rfl, rfl, rfl, rfl, inBounds_append.trans (and_iff_left h)⟩

theorem Spoke.stray {c d : Turn} (h : Spoke c d) : StrayTurn d ↔ StrayTurn c := by
  constructor
  · rintro ⟨hflag, hfile, hnumber, hid⟩
    rw [h.vars] at hfile hnumber
    exact ⟨h.flag ▸ hflag, hfile, hnumber, h.id ▸ hid⟩
  · rintro ⟨hflag, hfile, hnumber, hid⟩
    rw [← h.vars] at hfile hnumber
    exact ⟨h.flag ▸ hflag, hfile, hnumber, h.id ▸ hid⟩

theorem Spoke.done {inp : LineInput} {last : Bool} {cmd : Token} {args : List Token} {c d : Turn}
    (h : Spoke c d) (hcmd : cmd ∈ builtins) (hexit : cmd ≠ Shell.exitCmd)
    (hpass : passesRow inp.batch c.environ (cmd :: args) = some c.environ) :
    RowDone inp last (cmd :: args) c (.next d.tick) :=
  RowDone.of_next hcmd hexit (hpass.trans (congrArg some h.environ.symm)) h.u h.subscripts
    (Iff.trans ⟨fun hs => ⟨hs.flag, hs.file, hs.number, hs.id⟩, fun hs => ⟨hs.flag, hs.file, hs.number, hs.id⟩⟩
      h.stray)

theorem printenv_spoke {c : Turn} (hu : c.u < 30) (args : List Token) : Spoke c (c.printenv args) := by
  rcases args with _ | ⟨name, args⟩
  · exact ⟨rfl, rfl, rfl, rfl, rfl, Iff.rfl⟩
  · rw [Turn.printenv]
    split
    · exact ⟨rfl, rfl, rfl, rfl, rfl, Iff.rfl⟩
    · exact .of_touch (inBounds_cons.mpr ⟨user_valid hu, inBounds_nil⟩) _

theorem tell_spoke {c : Turn} (hu : c.u < 30) (inp : LineInput) (id : ℤ) (words : List Token) :
    Spoke c (c.tell inp id words) := by
  rw [Turn.tell]
  split_ifs with hexist
  · obtain ⟨hpos, hle⟩ := id_of_exist hexist
    have hrow : Subscript.Valid (.user (id - 1)) := ⟨by omega, by omega⟩
    refine .of_touch ?_ _
    simp only [inBounds_append, inBounds_cons, inBounds_eachUser, inBounds_nil, user_valid hu, hrow, and_true]
  · exact .of_touch inBounds_eachUser _

theorem rename_spoke {c : Turn} (hu : c.u < 30) (inp : LineInput) (args : List Token) :
    Spoke c (c.rename inp args) := by
  rcases args with _ | ⟨name, args⟩
  · exact .of_touch (inBounds_cons.mpr ⟨user_valid hu, inBounds_nil⟩) _
  · rw [Turn.rename]
    split_ifs
    · exact .of_touch inBounds_eachUser _
    · exact .of_touch (inBounds_append.mpr ⟨inBounds_eachUser, inBounds_cons.mpr ⟨user_valid hu, inBounds_eachUser⟩⟩) _

theorem setenvCommand_done {c : Turn} (inp : LineInput) (last : Bool) (args : List Token) :
    RowDone inp last (Shell.setenvCmd :: args) c (.next (c.setenvCommand args).tick) := by
  have hpass : passesRow inp.batch c.environ (Shell.setenvCmd :: args) = some (environAfter c.environ args) := rfl
  rcases args with _ | ⟨name, _ | ⟨value, args⟩⟩ <;>
    exact RowDone.of_next (by decide) (by decide) hpass rfl Iff.rfl
      ⟨fun h => ⟨h.flag, h.file, h.number, h.id⟩, fun h => ⟨h.flag, h.file, h.number, h.id⟩⟩

/-- A builtin. -/
theorem builtin_done {c : Turn} (hu : c.u < 30) (inp : LineInput) (pc : ℕ) (last : Bool) {cmd : Token}
    (hcmd : cmd ∈ builtins) (args : List Token) :
    RowDone inp last (cmd :: args) c (execRow inp pc last (cmd :: args) c) := by
  have hne : ∀ x : Token, x ≠ Shell.exitCmd → (x :: args).head? ≠ some Shell.exitCmd :=
    fun x hx h => hx (Option.some.inj h)
  simp only [builtins, List.mem_cons, List.not_mem_nil, or_false] at hcmd
  rcases hcmd with rfl | rfl | rfl | rfl | rfl | rfl | rfl | rfl
  · have hrow : execRow inp pc last (Shell.printenvCmd :: args) c =
      if printenvFits c.environ args then .next (c.printenv args).tick else .crashed c := rfl
    have hpass : passesRow inp.batch c.environ (Shell.printenvCmd :: args) =
      if printenvFits c.environ args then some c.environ else none := rfl
    rw [hrow]
    split_ifs at hpass ⊢
    · exact (printenv_spoke hu args).done (by decide) (by decide) hpass
    · exact .of_crash (not_forks (by decide) args) (hne _ (by decide)) hpass
  · exact setenvCommand_done inp last args
  · refine ⟨iff_of_false (exitCommand_not_inBounds hu inp) fun h => h.2.1 rfl, fun e he => ?_, fun _ d h => ?_⟩
    · cases he
    · cases h
  · have hrow : execRow inp pc last (batchCmd :: args) c =
      if args ≠ [] ∧ inp.batch then .next c.tick else .crashed c := rfl
    have hpass : passesRow inp.batch c.environ (batchCmd :: args) =
      if args ≠ [] ∧ inp.batch then some c.environ else none := rfl
    rw [hrow]
    split_ifs at hpass ⊢
    · exact Spoke.done ⟨rfl, rfl, rfl, rfl, rfl, Iff.rfl⟩ (by decide) (by decide) hpass
    · exact .of_crash (not_forks (by decide) args) (hne _ (by decide)) hpass
  · exact (Spoke.of_touch inBounds_eachUser _).done (by decide) (by decide) rfl
  · rcases args with _ | ⟨id, words⟩
    · exact .of_crash (not_forks (by decide) []) (by decide) rfl
    · exact (tell_spoke hu inp (atoi id) words).done (by decide) (by decide) rfl
  · exact (Spoke.of_touch (inBounds_cons.mpr ⟨user_valid hu, inBounds_eachUser⟩) _).done (by decide) (by decide) rfl
  · exact (rename_spoke hu inp args).done (by decide) (by decide) rfl

/-- A command. -/
theorem fork_done {c : Turn} (hu : c.u < 30) (inp : LineInput) (pc : ℕ) (last : Bool) {cmd : Token}
    (hcmd : cmd ∉ builtins) (args : List Token) :
    RowDone inp last (cmd :: args) c (execRow inp pc last (cmd :: args) c) := by
  simp only [builtins, List.mem_cons, List.not_mem_nil, or_false, not_or] at hcmd
  have hforks : Forks (cmd :: args) := ⟨cmd, args, rfl, by simpa [builtins] using hcmd⟩
  obtain ⟨h1, h2, h3, h4, h5, h6, h7, h8⟩ := hcmd
  have hrow : execRow inp pc last (cmd :: args) c = .next (c.fork inp pc last (cmd :: args)).tick := by
    simp only [execRow, h1, h2, h3, h4, h5, h6, h7, h8, if_false]
  have hpass : passesRow inp.batch c.environ (cmd :: args) = some c.environ := by
    simp only [passesRow, List.head?_cons, Option.some.injEq, h1, h2, h3, h4, h6, reduceCtorEq, or_self, if_false]
  have hfork := fork_inBounds hu inp pc last (cmd :: args)
  rw [hrow]
  refine ⟨?_, fun e he => ⟨_, rfl, ?_, ?_⟩, fun h => ?_⟩
  · refine hfork.trans (and_congr_right fun _ => ⟨fun h => ⟨fun hexit => ?_, fun hlast _ => h hlast⟩,
      fun h hlast => h.2 hlast hforks⟩)
    exact h3 (Option.some.inj hexit)
  · exact (fork_environ c inp pc last _).trans (Option.some.inj (hpass.symm.trans he))
  · rintro rfl
    have hsame := fork_sameOut c inp pc (cmd :: args)
    exact ⟨hsame.u, Iff.trans ⟨fun hs => ⟨hs.flag, hs.file, hs.number, hs.id⟩,
      fun hs => ⟨hs.flag, hs.file, hs.number, hs.id⟩⟩ hsame.stray⟩
  · rw [hpass] at h
    cases h

theorem execRow_done {c : Turn} (hu : c.u < 30) (inp : LineInput) (pc : ℕ) (last : Bool)
    (argv : List Token) : RowDone inp last argv c (execRow inp pc last argv c) := by
  rcases argv with _ | ⟨cmd, args⟩
  · refine RowDone.of_crash ?_ nofun rfl
    rintro ⟨_, _, h, -⟩
    cases h
  by_cases hcmd : cmd ∈ builtins
  · exact builtin_done hu inp pc last hcmd args
  · exact fork_done hu inp pc last hcmd args

/-- The row behind `done` is no `exit`, and no last command for a stray user pipe. -/
def RowInRange (stray : Prop) (pc : ℕ) (done : List (List Token)) (argv : List Token) : Prop :=
  argv.head? ≠ some Shell.exitCmd ∧ (done.length + 1 = pc → Forks argv → ¬ stray)

/-- The process loop stays within the table if and only if every row it comes to does. -/
theorem execRows_inBounds (inp : LineInput) (pc : ℕ) (stray : Prop) : ∀ (rows : List (List Token)) (c : Turn)
    (done : List (List Token)), c.u < 30 → (StrayTurn c ↔ stray) → done.length + rows.length = pc →
      (InBounds (execRows inp pc rows c).turn.subscripts ↔ InBounds c.subscripts ∧
        Scan.Clear (passesRow inp.batch) (RowInRange stray pc) (fun _ => True) c.environ done rows)
  | [], c, done, _, _, _ => (and_iff_left trivial).symm
  | argv :: rest, c, done, hu, hstray, hlen => by
    have hdone := execRow_done hu inp pc rest.isEmpty argv
    have hlast : rest.isEmpty = true ↔ done.length + 1 = pc := by
      rw [List.isEmpty_iff, ← List.length_eq_zero_iff, ← hlen, List.length_cons]
      omega
    have hrow : InBounds (execRow inp pc rest.isEmpty argv c).turn.subscripts ↔
        InBounds c.subscripts ∧ RowInRange stray pc done argv := by
      rw [hdone.inBounds, RowInRange, hlast, hstray]
    rw [execRows]
    cases hpass : passesRow inp.batch c.environ argv with
    | none =>
      have hstop := hdone.stop hpass
      rw [Scan.clear_cons_none hpass, ← hrow]
      split
      · next d heq => exact absurd heq (hstop d)
      · exact Iff.rfl
    | some e =>
      obtain ⟨d, hd, henv, hsame⟩ := hdone.next e hpass
      rw [hd] at hrow
      rw [Scan.clear_cons_some hpass, hd, ← and_assoc, ← hrow, ← henv]
      rcases rest with _ | ⟨argv', rest⟩
      · exact (and_iff_left trivial).symm
      · obtain ⟨hdu, hdstray⟩ := hsame rfl
        refine execRows_inBounds inp pc stray _ d (done ++ [argv]) (hdu ▸ hu) (hdstray.trans hstray) ?_
        rw [← hlen, List.length_append, List.length_singleton, List.length_cons (a := argv)]
        omega

/-! ### A line -/

theorem executed_iff {u : ℕ} {inp : LineInput} {l : List Item} (h : Scan.Passes passesItem () l) :
    Executed u inp l ↔ Scan.Clear passesItem (Accepted u inp) (fun _ => True) () [] l := by
  rw [Scan.clear_iff]
  constructor
  · rintro ⟨-, hall⟩
    exact ⟨fun pre it post hl _ => hall pre it post hl, fun _ => trivial⟩
  · rintro ⟨hall, -⟩
    exact ⟨h, fun pre it post hl => hall pre it post hl (hl ▸ h).of_append⟩

/-- The last command finds a stray user pipe if it was there before the line. -/
theorem Combined.stray {s : Npshell} {u : ℕ} {inp : LineInput} {l : List Item} {d : Turn}
    (h : Combined inp [] l [] (s.startTurn u inp).countdown d) (hignore : d.ignore = false) :
    StrayTurn d ↔ Stray s inp l := by
  constructor
  · rintro ⟨hflag, hfile, hnumber, hid⟩
    have hno : l.any isGive = false := by
      by_contra hgive
      exact hid (h.give (Bool.eq_true_of_not_eq_false hgive) hignore)
    obtain ⟨hsame, hid'⟩ := h.no_give hno
    have hidsame : d.namePipeOutId = inp.namePipeOutId := hid'
    exact ⟨hsame.symm.trans hflag, hno, h.file.symm.trans hfile, h.number.symm.trans hnumber,
      fun hjunk => hid (hidsame ▸ hjunk)⟩
  · rintro ⟨hflag, hno, hfile, hnumber, hid⟩
    obtain ⟨hsame, hid'⟩ := h.no_give hno
    have hidsame : d.namePipeOutId = inp.namePipeOutId := hid'
    exact ⟨hsame.trans hflag, h.file.trans hfile, h.number.trans hnumber, fun hjunk => hid (hidsame ▸ hjunk)⟩

/-- A line of `tell` or `yell`. -/
theorem message_inBounds (s : Npshell) {u : ℕ} (hu : u < 30) (inp : LineInput) {toks : List Token}
    (hmsg : IsMessage toks) :
    InBounds (execRows inp 1 [toks] ((s.startTurn u inp).countdown.push toks)).turn.subscripts := by
  have hne : toks.head? ≠ some Shell.exitCmd := by
    rcases hmsg with h | h <;> rw [h] <;> decide
  have hforks : ¬ Forks toks := by
    rintro ⟨cmd, args, rfl, hno⟩
    rcases hmsg with h | h
    · obtain rfl := Option.some.inj h
      exact hno (by decide)
    · obtain rfl := Option.some.inj h
      exact hno (by decide)
  refine (execRows_inBounds inp 1 _ [toks] _ [] hu Iff.rfl rfl).mpr ⟨inBounds_nil, ?_⟩
  exact ⟨⟨hne, fun _ h => absurd h hforks⟩, fun _ _ => trivial⟩

/-- A line that is combined. -/
theorem commands_inBounds (s : Npshell) {u : ℕ} (hu : u < 30) (inp : LineInput) {toks : List Token}
    (hmsg : ¬ IsMessage toks) :
    InBounds (match combine inp toks [] (s.startTurn u inp).countdown with
      | .next c => if c.ignore then Outcome.next c else execRows inp c.process.length c.process c
      | r => r).turn.subscripts ↔ WithinTable s u inp toks := by
  have hbuf : (s.startTurn u inp).countdown.vars.redirectionFileName.length = 100 := List.length_replicate
  have hitems := combine_inBounds inp hu toks [] _ hbuf [] rfl rfl
  obtain ⟨hend, hcrash⟩ := combine_combined inp toks [] _ hbuf [] rfl
  have hstart : InBounds (s.startTurn u inp).countdown.subscripts := inBounds_nil
  rw [Scan.clear_iff, and_iff_right hstart, and_iff_left fun _ => trivial] at hitems
  by_cases hpass : Scan.Passes passesItem () (serverItems toks)
  · obtain ⟨d, hd, hcomb⟩ := hend hpass
    rw [hd] at hitems ⊢
    dsimp only
    have hexec : d.ignore = false ↔ Executed u inp (serverItems toks) := by
      rw [hcomb.ignore, executed_iff hpass]
      exact and_iff_right rfl
    cases hign : d.ignore with
    | true =>
      rw [if_pos rfl]
      refine hitems.trans ⟨fun h => ⟨fun _ => h, fun _ he => ?_⟩, fun h => h.items hmsg⟩
      rw [hexec.mpr he] at hign
      cases hign
    | false =>
      have hrun := hexec.mp hign
      have hprocess : d.process = ParserSafety.rowsOf (serverItems toks) [] := hcomb.process
      rw [if_neg Bool.false_ne_true,
        execRows_inBounds inp _ _ d.process d [] (hcomb.u ▸ hu) (hcomb.stray hign) (Nat.zero_add _),
        Scan.clear_iff, and_iff_left fun _ => trivial, hprocess]
      have henv : d.environ = s.environ := hcomb.environ
      have hcombined : InBounds d.subscripts ↔ _ := hitems
      rw [henv, hcombined]
      constructor
      · rintro ⟨hi, hrows⟩
        refine ⟨fun _ => hi, fun _ _ pre argv post hl hpre => ?_⟩
        obtain ⟨hexit, hlast⟩ := hrows pre argv post hl hpre
        exact ⟨hexit, fun hpost => hlast (by simp [hl, hpost])⟩
      · intro h
        refine ⟨h.items hmsg, fun pre argv post hl hpre => ?_⟩
        obtain ⟨hexit, hlast⟩ := h.rows hmsg hrun pre argv post hl hpre
        exact ⟨hexit, fun hlen => hlast (by simpa [hl] using hlen)⟩
  · obtain ⟨d, hd⟩ := hcrash hpass
    rw [hd] at hitems ⊢
    exact hitems.trans ⟨fun h => ⟨fun _ => h, fun _ he => absurd he.1 hpass⟩, fun h => h.items hmsg⟩

theorem withinTable_nil (s : Npshell) (u : ℕ) (inp : LineInput) : WithinTable s u inp [] :=
  ⟨fun _ pre it post h => absurd h.symm (List.append_ne_nil_of_right_ne_nil pre (List.cons_ne_nil it post)),
    fun _ _ pre argv post h =>
      absurd h.symm (List.append_ne_nil_of_right_ne_nil pre (List.cons_ne_nil argv post))⟩

/-- The subscripts of one line. -/
theorem line_inBounds (s : Npshell) {u : ℕ} (hu : u < 30) (inp : LineInput) :
    InBounds (s.line u inp).turn.subscripts ↔ WithinTable s u inp (tokens ' ' inp.line) := by
  rw [Npshell.line]
  by_cases hline : inp.line = []
  · rw [if_pos hline, hline]
    exact iff_of_true inBounds_nil (withinTable_nil s u inp)
  rw [if_neg hline, Npshell.parse]
  cases htoks : tokens ' ' inp.line with
  | nil => exact iff_of_true inBounds_nil (withinTable_nil s u inp)
  | cons tok rest =>
    dsimp only
    by_cases hmsg : IsMessage (tok :: rest)
    · rw [if_pos (hmsg.imp Option.some.inj Option.some.inj)]
      exact iff_of_true (message_inBounds s hu inp hmsg) ⟨fun h => absurd hmsg h, fun h => absurd hmsg h⟩
    · rw [if_neg fun h => hmsg (h.imp (congrArg some) (congrArg some))]
      exact commands_inBounds s hu inp hmsg

/-- A line, while nobody else touches the table. -/
def quietLine (line : List Char) (user : Table) : LineInput where
  line := line
  command := line
  seen _ := user
  creat := true
  creatPipe := true
  redir := true
  openIn := true
  openOut := true
  batch := true
  namePipeInFile := []
  namePipeOutFile := []
  namePipeOutId := 0

end NetProg.Multi
