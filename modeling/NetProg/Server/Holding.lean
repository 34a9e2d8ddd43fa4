import NetProg.Wiring
import NetProg.Server.Users

/-! Who holds which pipe in the server, and what one call of `npshell` does to it.

    While the tokens are read nothing that is open is closed, and every number pipe that counts, every
    recorded user pipe and the user pipe just taken has the two ends of a pipe of its own. While the
    rows are executed only ends of due number pipes, of the taken pipe and of normal pipes are closed.
    The one line that breaks this makes the pipe of its user to itself anew after taking it. -/

namespace NetProg.Server

/-- What keeps the two ends of a pipe: a pending number pipe of a user, a recorded user pipe by the
    ids of its sender and receiver, or the user pipe taken on the current line. -/
inductive Owner where
  | pending (w : ℕ) (e : NumberPipe)
  | named (sender receiver : ℕ)
  | taken

/-- The pairs of descriptors held: `live` are the number pipes that count, by user. -/
def Held (s : Server) (live : ℕ → List NumberPipe) (taken : Option (ℕ × ℕ)) : Owner → ℕ × ℕ → Prop
  | .pending w e, p => e ∈ live w ∧ p = (e.p0, e.p1)
  | .named sender receiver, p =>
    s.namePipeRecord sender receiver = true ∧ p = (s.user (receiver - 1)).namePipe (sender - 1)
  | .taken, p => taken = some p

/-- A recorded user pipe holds the pair its receiver keeps for its sender. -/
theorem held_named {s : Server} {live : ℕ → List NumberPipe} {taken : Option (ℕ × ℕ)} {a r : ℕ}
    (har : s.namePipeRecord a r = true) :
    Held s live taken (.named a r) ((s.user (r - 1)).namePipe (a - 1)) := ⟨har, rfl⟩

/-- The number pipes with a countdown of at least `k`. -/
def atLeast (k : ℤ) (vec : List NumberPipe) : List NumberPipe := vec.filter fun e => k ≤ e.restLine

@[simp] theorem mem_atLeast {k : ℤ} {vec : List NumberPipe} {e : NumberPipe} :
    e ∈ atLeast k vec ↔ e ∈ vec ∧ k ≤ e.restLine := by simp [atLeast]

/-- Between two lines the number pipes with at least one line left count. -/
def live (s : Server) (w : ℕ) : List NumberPipe := atLeast 1 (s.user w).numPipeVec

/-- During a line the due ones count as well (`k = 0`), for the user whose line it is. -/
def Call.live (c : Call) (k : ℤ) : ℕ → List NumberPipe :=
  Function.update c.server.live c.u (atLeast k c.vars.numPipeVec)

/-- The pair of the user pipe taken on this line. -/
def Call.takenPair (c : Call) : Option (ℕ × ℕ) :=
  c.sender.map fun sender => (c.server.user c.u).namePipe (sender - 1)

/-- A user pipe is made while another one is taken: the pair of the taken one is where it was. -/
theorem takenPair_made {c : Call} {receiver : ℕ} (h1 : 1 ≤ receiver)
    (hsender : ∀ a, c.sender = some a → 1 ≤ a)
    (hown : ¬ (c.sender = some (c.u + 1) ∧ receiver = c.u + 1)) :
    (c.made receiver).takenPair = c.takenPair := by
  have hsame : (c.made receiver).sender = c.sender := rfl
  cases hs : c.sender with
  | none => rw [Call.takenPair, Call.takenPair, hsame, hs, Option.map_none, Option.map_none]
  | some a =>
    have hpair := namePipe_made (c := c) (a := a) (r := c.u + 1) h1 (hsender a hs) (by omega)
      (by
        rintro ⟨rfl, hr⟩
        exact hown ⟨hs, hr.symm⟩)
    rw [Nat.add_sub_cancel] at hpair
    rw [Call.takenPair, Call.takenPair, hsame, hs, Option.map_some, Option.map_some]
    exact congrArg some hpair

/-- Whether, in the tokens to come, the user with this id makes the pipe to itself (`>id`) while that
    pipe is the one taken last (`<id`); `taken` says whether it is so far. -/
def reusesOwnPipe (id : ℤ) : Bool → List Token → Bool
  | _, [] => false
  | taken, tok :: rest =>
    if tok.head? = some '<' then
      match strtok '<' tok with
      | none => false
      | some n => reusesOwnPipe id (atoi n == id) rest
    else if ordinary tok ∨ tok = ['|'] then reusesOwnPipe id taken rest
    else if tok = ['>'] then
      match rest with
      | [] => false
      | _ :: rest => reusesOwnPipe id taken rest
    else if tok.head? = some '!' ∨ tok.head? = some '|' then reusesOwnPipe id taken rest
    else
      match strtok '>' tok with
      | none => false
      | some n => (taken && atoi n == id) || reusesOwnPipe id taken rest

/-! ### Reading the tokens -/

/-- While the tokens of a call are read, nothing that was open is closed, and every pipe has one
    holder. -/
structure Reading (s : Server) (u : ℕ) (c : Call) : Prop extends SameUsers s u c where
  kept : ∀ x, s.kernel.get x ≠ none → c.vars.kernel.get x = s.kernel.get x
  pipes : s.kernel.pipes ≤ c.vars.kernel.pipes
  fdIn : c.vars.fdIn = 0
  sender : ∀ a, c.sender = some a → 1 ≤ a
  wired : Wired c.vars.kernel (Held c.server (c.live 0) c.takenPair)

theorem Reading.push {s : Server} {u : ℕ} {c : Call} (h : Reading s u c) (argv : List Token) :
    Reading s u (c.push argv) :=
  ⟨h.toSameUsers.push argv, h.kept, h.pipes, h.fdIn, h.sender, h.wired⟩

theorem Reading.print {s : Server} {u : ℕ} {c : Call} (h : Reading s u c) (entries : List LogEntry) :
    Reading s u { c with server := c.server.print entries } :=
  ⟨h.toSameUsers.print c.vars entries, h.kept, h.pipes, h.fdIn, h.sender, h.wired⟩

/-- Before the first token: the countdown has made the pipes with one line left due. -/
theorem Reading.start {s : Server} (u : ℕ) (hrec : Recorded s)
    (hw : Wired s.kernel (Held s s.live none)) : Reading s u (startCall s u) where
  toSameUsers := .start u hrec
  kept := fun _ _ => rfl
  pipes := le_refl _
  fdIn := rfl
  sender := fun _ h => by cases h
  wired := by
    -- an entry that counts is one that counted before, with one line less
    let back : Owner → Owner
      | .pending w e => .pending w (if w = u then { e with restLine := e.restLine + 1 } else e)
      | o => o
    refine hw.comap back ?_ ?_
    · rintro (⟨w, e⟩ | ⟨a, r⟩ | -) p hp
      · obtain ⟨he, rfl⟩ := hp
        by_cases hwu : w = u
        · subst hwu
          simp only [Call.live, startCall, Function.update_self, mem_atLeast, Vars.countdown,
            List.mem_map] at he
          obtain ⟨⟨e', he', rfl⟩, hle⟩ := he
          simp only [back, if_true, Held, Server.live, mem_atLeast, sub_add_cancel]
          exact ⟨⟨he', by simp only at hle; omega⟩, trivial⟩
        · simp only [Call.live, startCall, Function.update_of_ne hwu] at he
          simp only [back, hwu, if_false]
          exact ⟨he, rfl⟩
      · exact hp
      · exact hp
    · rintro (⟨w, ⟨n, x, y⟩⟩ | ⟨a, r⟩ | -) (⟨w', ⟨n', x', y'⟩⟩ | ⟨a', r'⟩ | -) p q hp hq heq <;>
        simp only [back, Owner.pending.injEq, reduceCtorEq] at heq ⊢
      · obtain ⟨rfl, heq⟩ := heq
        refine ⟨rfl, ?_⟩
        split_ifs at heq
        · simp only [NumberPipe.mk.injEq, add_left_inj] at heq
          simpa using heq
        · exact heq
      · exact heq

/-- A user pipe is taken: the holder of its ends is now the line. -/
theorem Reading.take {s : Server} {u : ℕ} {c c' : Call} {inp : LineInput} {id : ℤ}
    (h : Reading s u c) (htake : c.takeUserPipe inp.command id = .ok c') : Reading s u c' := by
  obtain ⟨hid, hrecord, rfl⟩ := takeUserPipe_ok.mp htake
  obtain ⟨h1, h30, -, hv⟩ := checkIdExist_iff.mp hid
  refine ⟨h.toSameUsers.take htake, h.kept, h.pipes, h.fdIn, ?_, ?_⟩
  · intro a ha
    cases ha
    exact h1
  · let back : Owner → Owner
      | .taken => .named id.toNat (c.u + 1)
      | o => o
    refine h.wired.comap back ?_ ?_
    · rintro (⟨w, e⟩ | ⟨a, r⟩ | -) p hp
      · exact hp
      · exact ⟨(record_taken.mp hp.1).1, hp.2⟩
      · cases hp
        exact ⟨hrecord, rfl⟩
    · rintro (⟨w, e⟩ | ⟨a, r⟩ | -) (⟨w', e'⟩ | ⟨a', r'⟩ | -) p q hp hq heq <;>
        simp only [back, Owner.pending.injEq, Owner.named.injEq, reduceCtorEq] at heq ⊢
      · exact heq
      · exact heq
      · exact (record_taken.mp hp.1).2 heq
      · exact (record_taken.mp hq.1).2 ⟨heq.1.symm, heq.2.symm⟩

/-- A user pipe is made: the receiver gets its ends, unless they are those of the pipe just taken. -/
theorem Reading.make {s : Server} {u : ℕ} {c c' : Call} {id : ℤ} (h : Reading s u c)
    (hu : u < qlen ∧ (s.user u).valid = true) (hmake : c.makeUserPipe id = .ok c')
    (hown : ¬ (c.sender = some (u + 1) ∧ id = u + 1)) : Reading s u c' := by
  obtain ⟨hid, hrecord, rfl⟩ := makeUserPipe_ok.mp hmake
  obtain ⟨h1, h30, hnat, hv⟩ := checkIdExist_iff.mp hid
  have hcu := h.u
  refine ⟨h.toSameUsers.make hu hmake, ?_, ?_, h.fdIn, h.sender, ?_⟩
  · intro x hx
    show c.vars.kernel.pipe.get x = _
    rw [Kernel.get_pipe_of_open (by rw [h.kept x hx]; exact hx), h.kept x hx]
  · exact h.pipes.trans (Nat.le_succ _)
  · refine h.wired.pipe (.named (c.u + 1) id.toNat) ?_
    rintro (⟨w, e⟩ | ⟨a, r⟩ | -) p hp
    · refine Or.inl ⟨⟨?_, hp.2⟩, by simp⟩
      have hlive : (c.made id.toNat).live 0 w = c.live 0 w := by
        by_cases hw : w = c.u
        · simp [Call.live, Call.made, hw]
        · rw [Call.live, Function.update_of_ne (show w ≠ (c.made id.toNat).u from hw), Call.live,
            Function.update_of_ne hw, Server.live, Server.live, numPipeVec_made]
      exact hlive ▸ hp.1
    · obtain ⟨hr, hpair⟩ := hp
      by_cases hnew : a = c.u + 1 ∧ r = id.toNat
      · obtain ⟨rfl, rfl⟩ := hnew
        refine Or.inr ⟨rfl, ?_⟩
        rw [hpair, Nat.add_sub_cancel, namePipe_made_self]
      · have hold := (record_made.mp hr).resolve_right hnew
        obtain ⟨⟨ha, -⟩, hr1, -⟩ := h.recorded a r hold
        exact Or.inl ⟨⟨hold, hpair.trans (namePipe_made h1 ha hr1 hnew)⟩, by simpa using hnew⟩
    · -- the pipe just taken is another one, so its pair is not replaced
      refine Or.inl ⟨?_, by simp⟩
      have hsame := takenPair_made h1 h.sender (fun hcon => hown ⟨hcu ▸ hcon.1, by omega⟩)
      exact hsame ▸ hp

/-- A number pipe is found, or made with two new ends. -/
theorem Reading.pipeOut {s : Server} {u : ℕ} {c : Call} (h : Reading s u c) (shock : Bool) (n : ℤ) :
    Reading s u (c.pipeOut shock n) := by
  by_cases hn : ∃ e ∈ c.vars.numPipeVec, e.restLine = n
  · obtain ⟨hker, hvec⟩ := pipeOut_of_mem shock hn
    have hlive : (c.pipeOut shock n).live 0 = c.live 0 := by
      rw [Call.live, hvec]
      rfl
    refine ⟨h.toSameUsers.pipeOut shock n, ?_, ?_, ?_, h.sender, ?_⟩
    · rw [hker]
      exact h.kept
    · rw [hker]
      exact h.pipes
    · rw [pipeOut_fdIn]
      exact h.fdIn
    · rw [hker, hlive]
      exact h.wired
  · obtain ⟨hker, hvec⟩ := pipeOut_of_not_mem shock hn
    refine ⟨h.toSameUsers.pipeOut shock n, fun x hx => ?_, ?_, ?_, h.sender, ?_⟩
    · rw [hker, Kernel.get_pipe_of_open (by rw [h.kept x hx]; exact hx), h.kept x hx]
    · rw [hker]
      exact h.pipes.trans (Nat.le_succ _)
    · rw [pipeOut_fdIn]
      exact h.fdIn
    · rw [hker]
      let e₀ : NumberPipe := ⟨n, c.vars.kernel.pipeFd0, c.vars.kernel.pipeFd1⟩
      -- the new ends are not those of any pipe that is held
      have hne : ∀ a p, Held c.server (c.live 0) c.takenPair a p → a ≠ .pending c.u e₀ := by
        rintro a p ha rfl
        refine h.wired.open_fst ha ?_
        rw [ha.2]
        exact Kernel.get_pipeFd0 _
      refine h.wired.pipe (.pending c.u e₀) ?_
      rintro (⟨w, e⟩ | ⟨a, r⟩ | -) p hp
      · obtain ⟨he, rfl⟩ := hp
        by_cases hw : w = c.u
        · subst hw
          rw [Call.live, show (c.pipeOut shock n).u = c.u from rfl, Function.update_self, hvec,
            mem_atLeast, List.mem_append, List.mem_singleton] at he
          rcases he with ⟨he | rfl, hle⟩
          · have hheld : Held c.server (c.live 0) c.takenPair (.pending c.u e) (e.p0, e.p1) :=
              ⟨by rw [Call.live, Function.update_self]; exact mem_atLeast.mpr ⟨he, hle⟩, rfl⟩
            exact Or.inl ⟨hheld, hne _ _ hheld⟩
          · exact Or.inr ⟨rfl, rfl⟩
        · rw [Call.live, show (c.pipeOut shock n).u = c.u from rfl, Function.update_of_ne hw] at he
          have hheld : Held c.server (c.live 0) c.takenPair (.pending w e) (e.p0, e.p1) :=
            ⟨by rw [Call.live, Function.update_of_ne hw]; exact he, rfl⟩
          exact Or.inl ⟨hheld, hne _ _ hheld⟩
      · exact Or.inl ⟨hp, by simp⟩
      · exact Or.inl ⟨hp, by simp⟩

theorem Reading.file {s : Server} {u : ℕ} {c : Call} {opens : Opens} {name : Token} {v : Vars}
    (h : Reading s u c) (hfile : c.vars.createFile opens name = some v) :
    Reading s u { c with vars := v, server := c.server.print [.fflush] } := by
  obtain ⟨hget, hpipes, hvec, hfd, -⟩ := createFile_frame hfile
  refine ⟨h.toSameUsers.print v _, fun x hx => ?_, ?_, ?_, h.sender, ?_⟩
  · exact (hget x).trans (h.kept x hx)
  · exact h.pipes.trans_eq hpipes.symm
  · exact hfd.trans h.fdIn
  · refine (h.wired.frame hpipes.ge (fun _ p _ => hget p.1) fun _ p _ => hget p.2).mono ?_
    intro a p ha
    rw [Call.live, hvec] at ha
    exact ha

/-- Whether a line of user `u` makes the pipe to itself anew after taking it. -/
def lineReusesOwnPipe (u : ℕ) (inp : LineInput) : Bool :=
  match tokens ' ' inp.line with
  | [] => false
  | tok :: rest =>
    decide (tok ≠ tellCmd ∧ tok ≠ yellCmd) && reusesOwnPipe (u + 1) false (tok :: rest)

theorem Reading.rules {s : Server} {u : ℕ} (inp : LineInput)
    (hu : u < qlen ∧ (s.user u).valid = true) :
    TokenRules inp (fun toks c => Reading s u c ∧
      reusesOwnPipe (u + 1) (c.sender == some (u + 1)) toks = false) (Reading s u) where
  push := fun _ c argv h => ⟨h.1.push argv, h.2⟩
  word := by
    rintro tok rest c hlt hword ⟨h, hown⟩
    rw [reusesOwnPipe.eq_def] at hown
    dsimp only at hown
    rw [if_neg hlt, if_pos hword] at hown
    exact ⟨h, hown⟩
  take := by
    rintro tok n rest c c' hlt hn ⟨h, hown⟩ htake
    refine ⟨h.take htake, ?_⟩
    rw [reusesOwnPipe.eq_def] at hown
    dsimp only at hown
    rw [if_pos hlt] at hown
    simp only [hn] at hown
    obtain ⟨hid, -, rfl⟩ := takeUserPipe_ok.mp htake
    obtain ⟨-, -, hnat, -⟩ := checkIdExist_iff.mp hid
    have hsame : ((c.taken inp.command (atoi n).toNat).sender == some (u + 1)) =
        (atoi n == (u : ℤ) + 1) := by
      rw [Bool.eq_iff_iff, beq_iff_eq, beq_iff_eq]
      simp only [Call.taken, Option.some.injEq]
      omega
    rw [hsame]
    exact hown
  file := by
    rintro name rest c v ⟨h, hown⟩ hfile
    refine ⟨h.file hfile, ?_⟩
    rw [reusesOwnPipe, if_neg (by simp), if_neg (by decide), if_pos rfl] at hown
    exact hown
  number := by
    rintro tok n rest c shock hord hhead hbar hn ⟨h, hown⟩
    refine ⟨h.pipeOut shock _, ?_⟩
    have hlt : tok.head? ≠ some '<' := by
      rw [hhead]
      cases shock <;> simp
    have hgt : tok ≠ ['>'] := by
      rintro rfl
      cases shock <;> simp at hhead
    have hmark : tok.head? = some '!' ∨ tok.head? = some '|' := by
      cases shock
      · exact Or.inr hhead
      · exact Or.inl hhead
    rw [reusesOwnPipe.eq_def] at hown
    dsimp only at hown
    rw [if_neg hlt, if_neg (by simp [hord, hbar]), if_neg hgt, if_pos hmark] at hown
    exact hown
  make := by
    rintro tok n rest c c' hord hlt hbang hbar hgt hn ⟨h, hown⟩ hmake
    have hword : ¬ (ordinary tok = true ∨ tok = ['|']) := by
      rintro (hcon | rfl)
      · rw [hord] at hcon
        cases hcon
      · exact hbar rfl
    rw [reusesOwnPipe.eq_def] at hown
    dsimp only at hown
    rw [if_neg hlt, if_neg hword, if_neg hgt, if_neg (not_or.mpr ⟨hbang, hbar⟩)] at hown
    simp only [hn, Bool.or_eq_false_iff, Bool.and_eq_false_iff, beq_eq_false_iff_ne] at hown
    refine ⟨h.make hu hmake fun hcon => ?_, ?_⟩
    · rcases hown.1 with hsender | hne
      · exact hsender hcon.1
      · exact hne hcon.2
    · obtain ⟨-, -, rfl⟩ := makeUserPipe_ok.mp hmake
      exact hown.2
  reject := fun _ _ e h => h.1.print e.entries

/-- What a call knows when its tokens have been read or its line has been rejected. -/
theorem parse_reading {s : Server} {u : ℕ} {inp : LineInput} (hrec : Recorded s)
    (hw : Wired s.kernel (Held s s.live none)) (hu : u < qlen ∧ (s.user u).valid = true)
    (hown : lineReusesOwnPipe u inp = false) : (parse s u inp).All (Reading s u) := by
  have hstart := Reading.start u hrec hw
  rw [lineReusesOwnPipe] at hown
  rw [parse]
  cases htok : tokens ' ' inp.line with
  | nil => trivial
  | cons tok rest =>
    simp only [htok, Bool.and_eq_false_iff, decide_eq_false_iff_not] at hown
    dsimp only
    split_ifs with htell
    · exact hstart.push _
    · have hfree := hown.resolve_left fun hcon => hcon (not_or.mp htell)
      have hends := (Reading.rules inp hu).combine (tok :: rest) [] _ ⟨hstart, hfree⟩
      cases hcomb : combine inp (tok :: rest) [] (startCall s u) with
      | crashed => trivial
      | ok c =>
        rw [hcomb] at hends
        exact hends.1
      | rejected c e =>
        rw [hcomb] at hends
        exact hends

/-! ### Executing the rows -/

/-- An open descriptor that is not the end of a pipe. -/
def Plain (k : Kernel) (x : ℕ) : Prop :=
  k.get x ≠ none ∧ ∀ id, k.get x ≠ some (.pipeR id) ∧ k.get x ≠ some (.pipeW id)

/-- The descriptors a call leaves alone: those `main` made, and the sockets of the users. -/
def Fixed (s : Server) (x : ℕ) : Prop :=
  (3 ≤ x ∧ x < 7) ∨ ∃ i < qlen, (s.user i).valid = true ∧ x = (s.user i).sock

theorem Fixed.congr {s t : Server} {x : ℕ} (hvalid : ∀ i, (t.user i).valid = (s.user i).valid)
    (hsock : ∀ i, (t.user i).sock = (s.user i).sock) (hx : Fixed s x) : Fixed t x := by
  rcases hx with hx | ⟨i, hi, hv, hx⟩
  · exact Or.inl hx
  · exact Or.inr ⟨i, hi, (hvalid i).trans hv, hx.trans (hsock i).symm⟩

/-- The descriptors that the process loop leaves alone: the fixed ones, and the ends of the pipes that
    are held when it begins and not due. -/
def Guarded (c : Call) (x : ℕ) : Prop :=
  Fixed c.server x ∨ ∃ a p, Held c.server (c.live 1) none a p ∧ (x = p.1 ∨ x = p.2)

/-- In the process loop that began with `c₁`, only ends of pipes that are not guarded are closed. -/
structure Running (out : Bool) (c₁ c : Call) : Prop extends LeftUsers out c₁ c where
  pending : c.vars.numPipeVec ⊆ c₁.vars.numPipeVec
  pipes : c₁.vars.kernel.pipes ≤ c.vars.kernel.pipes
  spared : ∀ x, Guarded c₁ x →
    c.vars.Spared x ∧ c.vars.kernel.get x = c₁.vars.kernel.get x

theorem Running.fork {c₁ c : Call} (h : Running false c₁ c) (inp : LineInput) (pc : ℕ) (last : Bool)
    (argv : List Token) : Running false c₁ (c.fork inp pc last argv) := by
  obtain ⟨-, hvec, -⟩ := Vars.forkProcess_fst c.vars inp.opens pc last
  refine ⟨h.toLeftUsers.fork inp pc last argv, ?_, ?_, ?_⟩
  · show (c.vars.forkProcess inp.opens pc last).1.numPipeVec ⊆ _
    rw [hvec]
    exact List.Subset.trans c.vars.keptPipes_subset h.pending
  · exact h.pipes.trans (c.vars.pipes_le_fork inp.opens pc last)
  · intro x hx
    obtain ⟨hsp, hget⟩ := h.spared x hx
    exact ⟨hsp.fork inp.opens pc last, (hsp.get_fork inp.opens pc last).trans hget⟩

theorem Running.rules {c₁ : Call} (hrec : Recorded c₁.server) (inp : LineInput) (pc : ℕ) :
    RowRules inp pc (fun _ c => Running false c₁ c) (Running true c₁) where
  fork := fun _ _ rest _ _ h => h.fork inp pc rest.isEmpty _
  builtin := fun _ _ _ _ _ _ _ h hs => ⟨h.toLeftUsers.tables hs, h.pending, h.pipes, h.spared⟩
  exit := fun _ _ _ h => ⟨h.toLeftUsers.exit hrec, h.pending, h.pipes, h.spared⟩

theorem held_live_mono {c : Call} {a : Owner} {p : ℕ × ℕ} (taken : Option (ℕ × ℕ))
    (h : Held c.server (c.live 1) none a p) : Held c.server (c.live 0) taken a p := by
  rcases a with ⟨w, e⟩ | ⟨a, r⟩ | -
  · refine ⟨?_, h.2⟩
    have he := h.1
    by_cases hw : w = c.u
    · subst hw
      simp only [Call.live, Function.update_self, mem_atLeast] at he ⊢
      exact ⟨he.1, by omega⟩
    · rw [Call.live, Function.update_of_ne hw] at he ⊢
      exact he
  · exact h
  · cases h

/-- Besides `fd_in`, what the process loop may close at its beginning is the ends of due or taken pipes. -/
theorem closable_held {x : ℕ} {c : Call} (hx : x ∈ c.resolve.vars.closable.tail) :
    ∃ a p, Held c.server (c.live 0) c.takenPair a p ∧ (x = p.1 ∨ x = p.2) ∧
      ∀ q, ¬ Held c.server (c.live 1) none a q := by
  simp only [Call.resolve, Vars.closable, Vars.deadOut, Vars.deadIn, List.tail_cons, List.mem_append,
    List.mem_map, List.mem_filter, Option.mem_toList, Option.map_map, Option.map_eq_some_iff] at hx
  have hdead : ∀ e, e ∈ c.vars.numPipeVec ∧ PipeDead e = true →
      Held c.server (c.live 0) c.takenPair (.pending c.u e) (e.p0, e.p1) ∧
        ∀ q, ¬ Held c.server (c.live 1) none (.pending c.u e) q := by
    rintro e ⟨he, hd⟩
    have hzero : e.restLine = 0 := by simpa [PipeDead] using hd
    refine ⟨⟨?_, rfl⟩, fun q hq => ?_⟩
    · rw [Call.live, Function.update_self, mem_atLeast]
      exact ⟨he, by omega⟩
    · have := hq.1
      rw [Call.live, Function.update_self, mem_atLeast] at this
      omega
  have htaken : ∀ a, c.sender = some a → Held c.server (c.live 0) c.takenPair .taken
      ((c.server.user c.u).namePipe (a - 1)) := by
    intro a ha
    simp only [Held, Call.takenPair, ha, Option.map_some]
  rcases hx with ((⟨e, he, rfl⟩ | ⟨e, he, rfl⟩) | ⟨a, ha, rfl⟩) | ⟨a, ha, rfl⟩
  · exact ⟨_, _, (hdead e he).1, Or.inr rfl, (hdead e he).2⟩
  · exact ⟨_, _, (hdead e he).1, Or.inl rfl, (hdead e he).2⟩
  · exact ⟨.taken, _, htaken a ha, Or.inr rfl, fun q hq => by cases hq⟩
  · exact ⟨.taken, _, htaken a ha, Or.inl rfl, fun q hq => by cases hq⟩

/-- What the process loop may close at its beginning is the ends of due or taken pipes, or 0. -/
theorem closable_cases {s : Server} {u x : ℕ} {c : Call} (h : Reading s u c)
    (hx : x ∈ c.resolve.vars.closable) : x = 0 ∨ ∃ a p, Held c.server (c.live 0) c.takenPair a p ∧
      (x = p.1 ∨ x = p.2) ∧ ∀ q, ¬ Held c.server (c.live 1) none a q := by
  rcases List.mem_cons.mp hx with hx | hx
  · exact Or.inl (hx.trans h.fdIn)
  · exact Or.inr (closable_held hx)

theorem Reading.fixed {s : Server} {u x : ℕ} {c : Call} (h : Reading s u c) (hx : Fixed c.server x) :
    Fixed s x := hx.congr (fun i => (h.valid i).symm) fun i => (h.sock i).symm

/-- The ends of a held pipe are none of the descriptors that stood for something else. -/
theorem Reading.not_end {s : Server} {u x : ℕ} {c : Call} {a : Owner} {p : ℕ × ℕ} (h : Reading s u c)
    (hx : Plain s.kernel x) (ha : Held c.server (c.live 0) c.takenPair a p) :
    ¬ (x = p.1 ∨ x = p.2) := by
  obtain ⟨hopen, hnot⟩ := hx
  obtain ⟨id, -, h1, h2⟩ := h.wired.ends a p ha
  rw [← h.kept x hopen] at hnot
  rintro (rfl | rfl)
  · exact (hnot id).1 h1
  · exact (hnot id).2 h2

theorem Reading.low {s : Server} {u : ℕ} {c : Call} {a : Owner} {p : ℕ × ℕ} (h : Reading s u c)
    (hstd : ∀ x < 3, Plain s.kernel x) (ha : Held c.server (c.live 0) c.takenPair a p) :
    3 ≤ p.1 ∧ 3 ≤ p.2 := by
  constructor
  · by_contra hlt
    exact h.not_end (hstd p.1 (by omega)) ha (Or.inl rfl)
  · by_contra hlt
    exact h.not_end (hstd p.2 (by omega)) ha (Or.inr rfl)

/-- At its beginning the process loop spares every guarded descriptor. -/
theorem Running.start {s : Server} {u : ℕ} {c : Call} (h : Reading s u c)
    (hstd : ∀ x < 3, Plain s.kernel x) (hfixed : ∀ x, Fixed s x → x ≠ 0 ∧ Plain s.kernel x) :
    Running false c.resolve c.resolve where
  toLeftUsers := .refl _
  pending := List.Subset.refl _
  pipes := le_refl _
  spared := by
    intro x hx
    refine ⟨⟨?_, fun hclose => ?_⟩, rfl⟩
    · show c.vars.kernel.get x ≠ none
      rcases hx with hx | ⟨a, p, ha, rfl | rfl⟩
      · have hopen := (hfixed x (h.fixed hx)).2.1
        rw [h.kept x hopen]
        exact hopen
      · exact h.wired.open_fst (held_live_mono _ ha)
      · exact h.wired.open_snd (held_live_mono _ ha)
    · rcases hx with hx | ⟨a, p, ha, hxp⟩
      · obtain ⟨hne, hpl⟩ := hfixed x (h.fixed hx)
        rcases closable_cases h hclose with hx0 | ⟨b, q, hb, hxq, -⟩
        · exact hne hx0
        · exact (h.not_end hpl hb) hxq
      · have ha' := held_live_mono c.takenPair ha
        rcases closable_cases h hclose with hx0 | ⟨b, q, hb, hxq, hnot⟩
        · exact (h.not_end (hstd 0 (by omega)) ha') (hx0 ▸ hxp)
        · have hne : a ≠ b := by
            rintro rfl
            exact hnot p ha
          obtain ⟨h1, h2, h3, h4⟩ := h.wired.apart ha' hb hne
          rcases hxp with rfl | rfl <;> rcases hxq with hxq | hxq <;> contradiction

/-! ### A whole call -/

/-- After a call every pipe that is held is still held by one, and what was fixed is where it was. -/
structure AfterCall (s : Server) (u : ℕ) (r : Return) : Prop extends UsersAfter s u r where
  pipes : s.kernel.pipes ≤ r.server.kernel.pipes
  kept : ∀ x, Fixed s x → r.server.kernel.get x = s.kernel.get x
  wired : Wired r.server.kernel (Held r.server r.server.live none)
  low : ∀ a p, Held r.server r.server.live none a p → 3 ≤ p.1 ∧ 3 ≤ p.2

/-- Between two lines, the pipes that count are those with a line left. -/
theorem live_leave (c : Call) : c.leave.live = c.live 1 := by
  funext w
  rw [Server.live, leave_user, Call.live]
  by_cases hw : w = c.u
  · rw [if_pos hw, hw, Function.update_self]
  · rw [if_neg hw, Function.update_of_ne hw, Server.live]

theorem held_leave {c : Call} {a : Owner} {p : ℕ × ℕ} (h : Held c.leave c.leave.live none a p) :
    Held c.server (c.live 1) none a p := by
  rw [live_leave] at h
  rcases a with ⟨w, e⟩ | ⟨a, r⟩ | -
  · exact h
  · exact ⟨h.1, by rw [h.2, leave_namePipe]⟩
  · cases h

theorem Reading.afterCall {s : Server} {u : ℕ} {c : Call} (h : Reading s u c)
    (hstd : ∀ x < 3, Plain s.kernel x) (hfixed : ∀ x, Fixed s x → x ≠ 0 ∧ Plain s.kernel x)
    (spawned : List Spawn) (error : Option PipeError) :
    AfterCall s u ⟨c.leave, false, spawned, error⟩ where
  toUsersAfter := h.toSameUsers.after spawned error
  pipes := h.pipes
  kept := fun x hx => h.kept x (hfixed x hx).2.1
  wired := h.wired.mono fun _ _ ha => held_live_mono _ (held_leave ha)
  low := fun _ _ ha => h.low hstd (held_live_mono _ (held_leave ha))

/-- What is held after the process loop was held before it. -/
theorem Running.held {c₁ c : Call} {out : Bool} {a : Owner} {p : ℕ × ℕ} (h : Running out c₁ c)
    (ha : Held c.leave c.leave.live none a p) : Held c₁.server (c₁.live 1) none a p := by
  have ha := held_leave ha
  rcases a with ⟨w, e⟩ | ⟨a, r⟩ | -
  · refine ⟨?_, ha.2⟩
    have he := ha.1
    have hu : c.u = c₁.u := h.u
    by_cases hw : w = c₁.u
    · subst hw
      rw [Call.live, hu, Function.update_self, mem_atLeast] at he
      rw [Call.live, Function.update_self, mem_atLeast]
      exact ⟨h.pending he.1, he.2⟩
    · rw [Call.live, hu, Function.update_of_ne hw, Server.live, h.vec] at he
      rw [Call.live, Function.update_of_ne hw]
      exact he
  · exact ⟨(h.record a r ha.1).1, by rw [ha.2, h.namePipe]⟩
  · cases ha

theorem Running.afterCall {s : Server} {u : ℕ} {c₁ c : Call} {out : Bool} (hread : Reading s u c₁)
    (h : Running out c₁.resolve c) (hstd : ∀ x < 3, Plain s.kernel x)
    (hfixed : ∀ x, Fixed s x → x ≠ 0 ∧ Plain s.kernel x) :
    AfterCall s u ⟨c.leave, out, c.spawned, none⟩ where
  toUsersAfter := LeftUsers.after hread.toSameUsers h.toLeftUsers
  pipes := hread.pipes.trans h.pipes
  kept := by
    intro x hx
    have hg : Guarded c₁.resolve x := Or.inl (hx.congr hread.valid hread.sock)
    exact (h.spared x hg).2.trans (hread.kept x (hfixed x hx).2.1)
  wired := by
    have hw : Wired c₁.vars.kernel (Held c₁.server (c₁.live 1) none) :=
      hread.wired.mono fun _ _ ha => held_live_mono _ ha
    refine (hw.frame h.pipes (fun a p ha => ?_) fun a p ha => ?_).mono fun _ _ => h.held
    · exact (h.spared _ (Or.inr ⟨a, p, ha, Or.inl rfl⟩)).2
    · exact (h.spared _ (Or.inr ⟨a, p, ha, Or.inr rfl⟩)).2
  low := fun _ _ ha => hread.low hstd (held_live_mono _ (h.held ha))

theorem AfterCall.of_setPath {s : Server} {u : ℕ} {r : Return} (h : AfterCall (s.setPath u) u r) :
    AfterCall s u r :=
  ⟨h.toUsersAfter.of_setPath, h.pipes, h.kept, h.wired, h.low⟩

/-- A call keeps who is who, and every pipe that is held, if reading its line does. -/
theorem npshell_after_reading {s : Server} {u : ℕ} {inp : LineInput} {r : Return}
    (hread : (parse (s.setPath u) u inp).All (Reading (s.setPath u) u))
    (h : npshell s u inp = some r) (hrec : Recorded s) (hw : Wired s.kernel (Held s s.live none))
    (hstd : ∀ x < 3, Plain s.kernel x) (hfixed : ∀ x, Fixed s x → x ≠ 0 ∧ Plain s.kernel x)
    (hlow : ∀ a p, Held s s.live none a p → 3 ≤ p.1 ∧ 3 ≤ p.2) : AfterCall s u r := by
  cases npshell_outcome h with
  | blank _ =>
    exact ⟨.refl u hrec, le_refl _, fun _ _ => rfl, hw, hlow⟩
  | rejected _ hp =>
    rw [hp] at hread
    exact (Reading.afterCall hread hstd hfixed _ _).of_setPath
  | @ended c c' _ hp hrows =>
    rw [hp] at hread
    have hstart := Running.start hread hstd hfixed
    have hrules := @Running.rules c.resolve hread.recorded inp c.process.length
    have hends := hrules.execRows c.process c.resolve hstart
    rw [hrows] at hends
    exact (Running.afterCall hread hends hstd hfixed).of_setPath
  | @exited c c' _ hp hrows =>
    rw [hp] at hread
    have hstart := Running.start hread hstd hfixed
    have hrules := @Running.rules c.resolve hread.recorded inp c.process.length
    have hends := hrules.execRows c.process c.resolve hstart
    rw [hrows] at hends
    exact (Running.afterCall hread hends hstd hfixed).of_setPath

/-- A call keeps who is who, and every pipe that is held. -/
theorem npshell_after {s : Server} {u : ℕ} {inp : LineInput} {r : Return}
    (h : npshell s u inp = some r) (hrec : Recorded s) (hw : Wired s.kernel (Held s s.live none))
    (hu : u < qlen ∧ (s.user u).valid = true) (hstd : ∀ x < 3, Plain s.kernel x)
    (hfixed : ∀ x, Fixed s x → x ≠ 0 ∧ Plain s.kernel x)
    (hlow : ∀ a p, Held s s.live none a p → 3 ≤ p.1 ∧ 3 ≤ p.2)
    (hown : lineReusesOwnPipe u inp = false) : AfterCall s u r := by
  have hread : (parse (s.setPath u) u inp).All (Reading (s.setPath u) u) :=
    parse_reading hrec hw hu hown
  exact npshell_after_reading hread h hrec hw hstd hfixed hlow

end NetProg.Server
