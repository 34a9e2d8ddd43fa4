import NetProg.Server.Call

/-! The number pipes a user leaves behind.

    `exit` frees the slot and clears the records, but nothing clears `num_pipe_vec`. What it holds
    when `exit` runs follows from the tokens of the line and from the vector before it: a pipe goes
    only when it is due and a command of the line is forked before `exit`. -/

namespace NetProg.Server

/-- The rows the tokens are combined into; `cur` is the row being filled. -/
def rowsOf : List Token → List Token → List (List Token)
  | [], cur => if cur = [] then [] else [cur]
  | tok :: rest, cur =>
    if tok.head? = some '<' then rowsOf rest cur
    else if ordinary tok then rowsOf rest (cur ++ [tok])
    else if tok = ['>'] then
      match rest with
      | [] => []
      | _ :: rest => cur :: rowsOf rest []
    else cur :: rowsOf rest []

/-- The numbers of the `|N` and `!N` tokens. -/
def numbersOf : List Token → List ℤ
  | [] => []
  | tok :: rest =>
    if tok.head? = some '<' ∨ ordinary tok ∨ tok = ['|'] then numbersOf rest
    else if tok = ['>'] then
      match rest with
      | [] => []
      | _ :: rest => numbersOf rest
    else if tok.head? = some '!' then ((strtok '!' tok).map atoi).toList ++ numbersOf rest
    else if tok.head? = some '|' then ((strtok '|' tok).map atoi).toList ++ numbersOf rest
    else numbersOf rest

/-- Whether a command is forked before `exit` is reached. -/
def forksFirst : List (List Token) → Bool
  | [] => false
  | [] :: _ => false
  | (cmd :: _) :: rest =>
    if cmd = Shell.exitCmd then false else if cmd ∈ builtinCmds then forksFirst rest else true

/-- Whether a line that runs `exit` leaves no number pipe: none was pending and the line makes none,
    or all of them are due, the line makes none that lasts, and a command is forked before `exit`. -/
def LeavesNone (vec : List NumberPipe) (toks : List Token) : Prop :=
  (vec = [] ∧ numbersOf toks = []) ∨
    ((vec ≠ [] ∧ ∀ e ∈ vec, e.restLine = 1) ∧ (∀ n ∈ numbersOf toks, n = 0) ∧
      forksFirst (rowsOf toks []) = true)

instance (vec : List NumberPipe) (toks : List Token) : Decidable (LeavesNone vec toks) :=
  inferInstanceAs (Decidable (_ ∨ _))

/-! ### The rows -/

theorem combine_process (inp : LineInput) : ∀ (toks cur : List Token) (c c' : Call),
    combine inp toks cur c = .ok c' → c'.process = c.process ++ rowsOf toks cur
  | [], cur, c, c', h => by
    simp only [combine, Parse.ok.injEq] at h
    subst h
    rw [rowsOf]
    split_ifs
    · simp
    · rfl
  | tok :: rest, cur, c, c', h => by
    rw [combine.eq_def] at h
    rw [rowsOf.eq_def]
    dsimp only at h ⊢
    by_cases h1 : tok.head? = some '<'
    · rw [if_pos h1] at h ⊢
      cases hn : strtok '<' tok with
      | none => simp [hn] at h
      | some n =>
        simp only [hn] at h
        cases htake : c.takeUserPipe inp.command (atoi n) with
        | error e => simp [htake] at h
        | ok c₁ =>
          simp only [htake] at h
          obtain ⟨-, -, rfl⟩ := takeUserPipe_ok.mp htake
          have hproc := combine_process inp rest cur (c.taken inp.command (atoi n).toNat) c' h
          exact hproc
    · rw [if_neg h1] at h ⊢
      by_cases h2 : ordinary tok = true
      · rw [if_pos h2] at h ⊢
        exact combine_process inp rest _ c c' h
      · rw [if_neg h2] at h ⊢
        have hnext : ∀ c₁ : Call, c₁.process = c.process ++ [cur] →
            combine inp rest [] c₁ = .ok c' → c'.process = c.process ++ cur :: rowsOf rest [] := by
          intro c₁ hc₁ h
          rw [combine_process inp rest [] c₁ c' h, hc₁, List.append_assoc]
          rfl
        by_cases h3 : tok = ['|']
        · rw [if_pos h3] at h
          rw [if_neg (by simp [h3])]
          exact hnext _ rfl h
        · rw [if_neg h3] at h
          by_cases h4 : tok = ['>']
          · rw [if_pos h4] at h ⊢
            cases rest with
            | nil => simp at h
            | cons name rest =>
              dsimp only at h ⊢
              cases hfile : c.vars.createFile inp.opens name with
              | none => simp [hfile] at h
              | some v =>
                simp only [hfile] at h
                rw [combine_process inp rest [] _ c' h]
                exact List.append_assoc ..
          · rw [if_neg h4] at h ⊢
            split_ifs at h with h5 h6
            · cases hn : strtok '!' tok with
              | none => simp [hn] at h
              | some n =>
                simp only [hn] at h
                exact hnext _ rfl h
            · cases hn : strtok '|' tok with
              | none => simp [hn] at h
              | some n =>
                simp only [hn] at h
                exact hnext _ rfl h
            · cases hn : strtok '>' tok with
              | none => simp [hn] at h
              | some n =>
                simp only [hn] at h
                cases hmake : (c.push cur).makeUserPipe (atoi n) with
                | error e => simp [hmake] at h
                | ok c₁ =>
                  simp only [hmake] at h
                  obtain ⟨-, -, rfl⟩ := makeUserPipe_ok.mp hmake
                  exact hnext _ rfl h

/-! ### The number pipes -/

/-- Reading the tokens adds the number pipes of the line and no others: a property of countdowns
    holds of the vector afterwards when it holds of the vector before and of the numbers. -/
theorem vec_rules (inp : LineInput) (D : ℤ → Prop) (Q : Prop) (flag : Bool) :
    TokenRules inp (fun toks c => c.vars.numPipeInFlag = flag ∧
      (((∀ e ∈ c.vars.numPipeVec, D e.restLine) ∧ ∀ n ∈ numbersOf toks, D n) ↔ Q))
      fun _ => True where
  push := fun _ _ _ h => h
  word := by
    rintro tok rest c - hword h
    rw [numbersOf.eq_def] at h
    dsimp only at h
    rwa [if_pos (Or.inr hword)] at h
  take := by
    rintro tok n rest c c' hlt - h htake
    obtain ⟨-, -, rfl⟩ := takeUserPipe_ok.mp htake
    rw [numbersOf.eq_def] at h
    dsimp only at h
    rwa [if_pos (Or.inl hlt)] at h
  file := by
    rintro name rest c v ⟨hflag, h⟩ hfile
    obtain ⟨-, -, hvec, -, hin⟩ := createFile_frame hfile
    rw [numbersOf.eq_def] at h
    dsimp only at h
    rw [if_neg (by decide), if_pos rfl] at h
    refine ⟨hin.trans hflag, ?_⟩
    rw [hvec]
    exact h
  number := by
    rintro tok n rest c shock hord hhead hbar hn ⟨hflag, h⟩
    have hnumbers : numbersOf (tok :: rest) = atoi n :: numbersOf rest := by
      have hlt : tok.head? ≠ some '<' := by
        rw [hhead]
        cases shock <;> simp
      have hgt : tok ≠ ['>'] := by
        rintro rfl
        cases shock <;> simp at hhead
      rw [numbersOf.eq_def]
      dsimp only
      rw [if_neg (by simp [hlt, hord, hbar]), if_neg hgt]
      cases shock with
      | true =>
        simp only [if_true] at hhead hn
        rw [if_pos hhead, hn]
        rfl
      | false =>
        simp only [Bool.false_eq_true, if_false] at hhead hn
        rw [if_neg (by rw [hhead]; decide), if_pos hhead, hn]
        rfl
    rw [hnumbers] at h
    refine ⟨(pipeOut_numPipeInFlag c shock _).trans hflag, ?_⟩
    rw [← h]
    by_cases hm : ∃ e ∈ c.vars.numPipeVec, e.restLine = atoi n
    · rw [(pipeOut_of_mem shock hm).2]
      obtain ⟨e, he, hen⟩ := hm
      constructor
      · rintro ⟨hvec, hrest⟩
        exact ⟨hvec, List.forall_mem_cons.mpr ⟨hen ▸ hvec e he, hrest⟩⟩
      · rintro ⟨hvec, hall⟩
        exact ⟨hvec, (List.forall_mem_cons.mp hall).2⟩
    · rw [(pipeOut_of_not_mem shock hm).2]
      constructor
      · rintro ⟨hvec, hrest⟩
        refine ⟨fun e he => hvec e (List.mem_append_left _ he),
          List.forall_mem_cons.mpr ⟨?_, hrest⟩⟩
        exact hvec _ (List.mem_append_right _ (List.mem_singleton.mpr rfl))
      · rintro ⟨hvec, hall⟩
        obtain ⟨hhd, hrest⟩ := List.forall_mem_cons.mp hall
        refine ⟨fun e he => ?_, hrest⟩
        rcases List.mem_append.mp he with he | he
        · exact hvec e he
        · rw [List.mem_singleton.mp he]
          exact hhd
  make := by
    rintro tok n rest c c' hord hlt hbang hbar hgt - ⟨hflag, h⟩ hmake
    obtain ⟨-, -, rfl⟩ := makeUserPipe_ok.mp hmake
    have hword : ¬ (tok.head? = some '<' ∨ ordinary tok = true ∨ tok = ['|']) := by
      rintro (hcon | hcon | rfl)
      · exact hlt hcon
      · rw [hord] at hcon
        cases hcon
      · exact hbar rfl
    rw [numbersOf.eq_def] at h
    dsimp only at h
    rw [if_neg hword, if_neg hgt, if_neg hbang, if_neg hbar] at h
    exact ⟨hflag, h⟩
  reject := fun _ _ _ _ => trivial

/-- The number pipes left when `exit` runs. -/
def exitVec (rows : List (List Token)) (flag : Bool) (vec : List NumberPipe) : List NumberPipe :=
  if forksFirst rows && flag then vec.filter fun e => !PipeDead e else vec

/-- Until `exit` runs the vector changes with the first fork only, and only when a pipe is due. -/
theorem exitVec_rules (inp : LineInput) (pc : ℕ) (left : List NumberPipe) :
    RowRules inp pc (fun rows c => exitVec rows c.vars.numPipeInFlag c.vars.numPipeVec = left)
      fun c => c.vars.numPipeVec = left where
  fork := by
    intro cmd args rest c hcmd h
    obtain ⟨-, hvec, hflag, -⟩ := Vars.forkProcess_fst c.vars inp.opens pc rest.isEmpty
    have hexit : cmd ≠ Shell.exitCmd := by
      rintro rfl
      exact hcmd (by decide)
    have hforks : forksFirst ((cmd :: args) :: rest) = true := by
      rw [forksFirst, if_neg hexit, if_neg hcmd]
    show exitVec rest (c.vars.forkProcess inp.opens pc rest.isEmpty).1.numPipeInFlag
      (c.vars.forkProcess inp.opens pc rest.isEmpty).1.numPipeVec = left
    rw [← h, hflag, hvec, exitVec, exitVec, hforks, Vars.keptPipes]
    simp
  builtin := by
    intro cmd args rest c s' hcmd hexit h _
    have hforks : forksFirst ((cmd :: args) :: rest) = forksFirst rest := by
      rw [forksFirst, if_neg hexit, if_pos hcmd]
    rw [exitVec, hforks] at h
    exact h
  exit := by
    intro args rest c h
    have hforks : forksFirst ((Shell.exitCmd :: args) :: rest) = false := by
      rw [forksFirst, if_pos rfl]
    rw [exitVec, hforks] at h
    exact h

theorem exitVec_eq_nil {rows : List (List Token)} {flag : Bool} {vec : List NumberPipe} :
    exitVec rows flag vec = [] ↔
      if forksFirst rows = true ∧ flag = true then ∀ e ∈ vec, e.restLine = 0 else vec = [] := by
  unfold exitVec
  by_cases h : forksFirst rows = true ∧ flag = true
  · rw [if_pos h, if_pos (by simp [h.1, h.2]), List.filter_eq_nil_iff]
    simp [PipeDead]
  · rw [if_neg h, if_neg (by simpa using h)]

theorem not_exited_tell (inp : LineInput) (pc : ℕ) (words : List Token) (c c' : Call) :
    execRows inp pc [tellCmd :: words] c ≠ .exited c' ∧
      execRows inp pc [yellCmd :: words] c ≠ .exited c' := by
  constructor
  · cases words with
    | nil => simp [execRows, execRow, tellCmd, batchCmd, whoCmd, Shell.printenvCmd, Shell.setenvCmd,
        Shell.exitCmd]
    | cons id words => simp [execRows, execRow, tellCmd, batchCmd, whoCmd, Shell.printenvCmd,
        Shell.setenvCmd, Shell.exitCmd]
  · simp [execRows, execRow, tellCmd, yellCmd, batchCmd, whoCmd, Shell.printenvCmd, Shell.setenvCmd,
      Shell.exitCmd]

/-- The same, from the vector and the tokens before the line. -/
theorem exit_vec_iff {s : Server} {u : ℕ} {inp : LineInput} {c c' : Call}
    (hp : parse (s.setPath u) u inp = .ok c)
    (hrows : execRows inp c.process.length c.process c.resolve = .exited c') :
    (if forksFirst c.process = true ∧ c.vars.numPipeInFlag = true then
        ∀ e ∈ c.vars.numPipeVec, e.restLine = 0 else c.vars.numPipeVec = []) ↔
      LeavesNone (s.user u).numPipeVec (tokens ' ' inp.line) := by
  unfold parse at hp
  cases htok : tokens ' ' inp.line with
  | nil => simp [htok] at hp
  | cons tok rest =>
    simp only [htok] at hp
    split_ifs at hp with htell
    · -- a line of `tell` or `yell` is one row, which is not `exit`
      simp only [Parse.ok.injEq] at hp
      subst hp
      rcases htell with rfl | rfl
      · exact absurd hrows (not_exited_tell inp _ rest _ c').1
      · exact absurd hrows (not_exited_tell inp _ rest _ c').2
    · set toks := tok :: rest
      set vec := (s.user u).numPipeVec
      set c₀ := startCall (s.setPath u) u
      have hprocess : c.process = rowsOf toks [] := combine_process inp toks [] c₀ c hp
      have hD : ∀ D : ℤ → Prop, c.vars.numPipeInFlag = c₀.vars.numPipeInFlag ∧
          ((∀ e ∈ c.vars.numPipeVec, D e.restLine) ↔
            (∀ e ∈ c₀.vars.numPipeVec, D e.restLine) ∧ ∀ n ∈ numbersOf toks, D n) := by
        intro D
        have hends := (vec_rules inp D _ _).combine toks [] c₀ ⟨rfl, Iff.rfl⟩
        rw [hp] at hends
        exact ⟨hends.1, by simpa [numbersOf] using hends.2⟩
      have hflag : c.vars.numPipeInFlag = true ↔ ∃ e ∈ vec, e.restLine = 1 := by
        rw [(hD fun _ => True).1]
        simp only [c₀, startCall, Vars.countdown, startVars, Bool.false_or, List.any_map,
          List.any_eq_true, PipeDead, Function.comp, beq_iff_eq, sub_eq_zero]
        exact Iff.rfl
      have hdead : (∀ e ∈ c.vars.numPipeVec, e.restLine = 0) ↔
          (∀ e ∈ vec, e.restLine = 1) ∧ ∀ n ∈ numbersOf toks, n = 0 := by
        rw [(hD (· = 0)).2]
        simp only [c₀, startCall, Vars.countdown, startVars, List.forall_mem_map, sub_eq_zero]
        exact Iff.rfl
      have hnone : c.vars.numPipeVec = [] ↔ vec = [] ∧ numbersOf toks = [] := by
        have := (hD fun _ => False).2
        simp only [imp_false, ← List.eq_nil_iff_forall_not_mem] at this
        rw [this]
        simp only [c₀, startCall, Vars.countdown, startVars, List.map_eq_nil_iff]
        exact Iff.rfl
      rw [hprocess, hdead, hnone, LeavesNone]
      by_cases hfork : forksFirst (rowsOf toks []) = true ∧ c.vars.numPipeInFlag = true
      · rw [if_pos hfork]
        obtain ⟨e, he, -⟩ := hflag.mp hfork.2
        have hne : vec ≠ [] := List.ne_nil_of_mem he
        constructor
        · rintro ⟨hall, hnum⟩
          exact Or.inr ⟨⟨hne, hall⟩, hnum, hfork.1⟩
        · rintro (⟨hnil, -⟩ | ⟨⟨-, hall⟩, hnum, -⟩)
          · exact absurd hnil hne
          · exact ⟨hall, hnum⟩
      · rw [if_neg hfork]
        refine ⟨Or.inl, fun hor => hor.resolve_right ?_⟩
        rintro ⟨⟨hne, hall⟩, -, hforks⟩
        obtain ⟨e, he⟩ := List.exists_mem_of_ne_nil vec hne
        exact hfork ⟨hforks, hflag.mpr ⟨e, he, hall e he⟩⟩

/-- When a line runs `exit`, the slot is left without number pipes exactly in the two ways of
    `LeavesNone`. -/
theorem exit_leaves_none_iff {s : Server} {u : ℕ} {inp : LineInput} {r : Return}
    (h : npshell s u inp = some r) (hzero : r.zero = true) :
    (r.server.user u).numPipeVec = [] ↔ LeavesNone (s.user u).numPipeVec (tokens ' ' inp.line) := by
  cases npshell_outcome h with
  | blank _ => cases hzero
  | rejected _ _ => cases hzero
  | ended _ _ _ => cases hzero
  | @exited c c' _ hp hrows =>
    have hu := @parse_u (s.setPath u) u inp
    rw [hp] at hu
    have hu' := @execRows_u inp c.process.length c.process c.resolve
    rw [hrows] at hu'
    have hcu : c'.u = u := hu'.trans hu
    have hleft : (c'.leave.user u).numPipeVec = c'.vars.numPipeVec := by
      rw [← hcu]
      simp [Call.leave]
    have hexit := (exitVec_rules inp c.process.length _).execRows c.process c.resolve rfl
    rw [hrows] at hexit
    show (c'.leave.user u).numPipeVec = [] ↔ _
    rw [hleft, show c'.vars.numPipeVec = exitVec c.process c.vars.numPipeInFlag c.vars.numPipeVec from
      hexit, exitVec_eq_nil]
    exact exit_vec_iff hp hrows

end NetProg.Server
