import NetProg.Server.Output

/-! What the open descriptors of the server are for, while the tokens of a line are read.

    Nothing is closed while the tokens are read. A number pipe and a user pipe that are made are entered in
    the tables at once, and a user pipe that is taken is kept by the line. Of two that are taken the first is
    forgotten, and so is the old pipe of a user to itself when it is made anew. -/

open NetProg.ParserSafety (Item IsMessage serverItems serverGoesOn)

namespace NetProg.Server

/-- What a descriptor is for: `main` made it, or it is the socket of a user, or the end of a pipe that is
    held. -/
def Known (s : Server) (live : ℕ → List NumberPipe) (taken : Option (ℕ × ℕ)) (x : ℕ) : Prop :=
  x < 7 ∨ (∃ i < qlen, (s.user i).valid = true ∧ x = (s.user i).sock) ∨
    ∃ a p, Held s live taken a p ∧ (x = p.1 ∨ x = p.2)

theorem Known.imp {s t : Server} {live live' : ℕ → List NumberPipe} {taken taken' : Option (ℕ × ℕ)}
    {x : ℕ} (h : Known s live taken x) (hvalid : ∀ i, (t.user i).valid = (s.user i).valid)
    (hsock : ∀ i, (t.user i).sock = (s.user i).sock)
    (hheld : ∀ a p, Held s live taken a p → x = p.1 ∨ x = p.2 → ∃ b, Held t live' taken' b p) :
    Known t live' taken' x := by
  rcases h with hx | ⟨i, hi, hv, hx⟩ | ⟨a, p, ha, hx⟩
  · exact Or.inl hx
  · exact Or.inr (Or.inl ⟨i, hi, (hvalid i).trans hv, hx.trans (hsock i).symm⟩)
  · obtain ⟨b, hb⟩ := hheld a p ha hx
    exact Or.inr (Or.inr ⟨b, p, hb, hx⟩)

/-! ### What the items say -/

/-- The id of the user pipe that an item takes. -/
def takenId : Item → Option ℤ
  | .take (some n) => some (atoi n)
  | _ => none

/-- The id of the user that an item makes a pipe to. -/
def givenId : Item → Option ℤ
  | .give (some n) => some (atoi n)
  | _ => none

/-- The number of a `|N` or `!N`. -/
def pipeNumber : Item → Option ℤ
  | .number (some n) => some (atoi n)
  | _ => none

/-- The output of the last command goes elsewhere. -/
def redirects : Item → Bool
  | .number _ | .file _ | .give _ => true
  | _ => false

/-- The items that the line of user `u` comes past. -/
def come (s : Server) (u : ℕ) (toks : List Token) : List Item :=
  Scan.passed (serverGoesOn u s.checkIdExist) s.namePipeRecord (lineItems toks)

/-- A number pipe of the user has one line left. -/
def Due (s : Server) (u : ℕ) : Prop := ∃ e ∈ (s.user u).numPipeVec, e.restLine = 1

/-- Reading these items forgets no descriptor: a number is at least 1, one user pipe is taken at most, and
    the pipe of the user to itself is not made anew behind that. -/
structure Orderly (u : ℕ) (done : List Item) : Prop where
  number : ∀ it ∈ done, ∀ n ∈ pipeNumber it, 1 ≤ n
  once : done.Pairwise fun a b => takenId a = none ∨ takenId b = none
  own : done.Pairwise fun a b => ¬ (takenId a = some ((u : ℤ) + 1) ∧ givenId b = some ((u : ℤ) + 1))

theorem Orderly.of_append {u : ℕ} {done rest : List Item} (h : Orderly u (done ++ rest)) :
    Orderly u done where
  number := fun it hit => h.number it (List.mem_append_left _ hit)
  once := (List.pairwise_append.mp h.once).1
  own := (List.pairwise_append.mp h.own).1

/-! ### Reading the tokens -/

/-- The tokens have been read up to the items `done`, and every open descriptor is for something. -/
structure Accounting (s : Server) (w : ℕ) (done : List Item) (c : Call) : Prop extends Reading s w c where
  known : ∀ x, c.vars.kernel.get x ≠ none → Known c.server (c.live 0) c.takenPair x
  taken : ∀ a, c.sender = some a → ∃ it ∈ done, takenId it = some (a : ℤ)
  flag : ∀ e ∈ c.vars.numPipeVec, e.restLine = 0 → c.vars.numPipeInFlag = true
  due : c.vars.numPipeInFlag = true → Due s w
  suffix : done.any redirects = true → (c.vars.writeFileFlag || c.vars.shockPipeOutFlag ||
    c.vars.numPipeOutFlag || c.receiver.isSome) = true
  bare : (s.user w).numPipeVec = [] → (∀ it ∈ done, pipeNumber it = none) → c.vars.numPipeVec = []
  given : (∀ it ∈ done, givenId it = none) → ∀ a r, c.server.namePipeRecord a r = true →
    s.namePipeRecord a r = true
  buffer : c.vars.redirectionFileName.length = 100
  exist : c.server.checkIdExist = s.checkIdExist

variable {s : Server} {u : ℕ} {done : List Item} {c c' : Call} {inp : LineInput}

theorem Accounting.push (h : Accounting s u done c) (argv : List Token) :
    Accounting s u done (c.push argv) :=
  ⟨h.toReading.push argv, h.known, h.taken, h.flag, h.due, h.suffix, h.bare, h.given, h.buffer, h.exist⟩

theorem Accounting.print (h : Accounting s u done c) (entries : List LogEntry) :
    Accounting s u done { c with server := c.server.print entries } :=
  ⟨h.toReading.print entries, h.known, h.taken, h.flag, h.due, h.suffix, h.bare, h.given, h.buffer,
    h.exist⟩

/-- An item that only fills the rows. -/
theorem Accounting.pass (h : Accounting s u done c) {it : Item} (hit : redirects it = false) :
    Accounting s u (done ++ [it]) c :=
  { h with
    taken := fun a ha => by
      obtain ⟨i, hi, hid⟩ := h.taken a ha
      exact ⟨i, List.mem_append_left _ hi, hid⟩
    suffix := fun hany => by
      rw [List.any_append, List.any_cons, hit, List.any_nil, Bool.or_false, Bool.or_false] at hany
      exact h.suffix hany
    bare := fun hvec hnone => h.bare hvec fun i hi => hnone i (List.mem_append_left _ hi)
    given := fun hnone => h.given fun i hi => hnone i (List.mem_append_left _ hi) }

/-- Before the first token. The pipes that were held are held, the due ones too. -/
theorem Accounting.start (hrec : Recorded s) (hw : Wired s.kernel (Held s s.live none))
    (hknown : ∀ x, s.kernel.get x ≠ none → Known s s.live none x) :
    Accounting s u [] (startCall s u) where
  toReading := .start u hrec hw
  known := by
    intro x hx
    refine (hknown x hx).imp (fun _ => rfl) (fun _ => rfl) fun a p ha _ => ?_
    rcases a with ⟨w, e⟩ | ⟨a, r⟩ | -
    · obtain ⟨he, rfl⟩ := ha
      obtain ⟨he, hle⟩ := mem_atLeast.mp he
      rcases eq_or_ne w u with rfl | hw
      · refine ⟨.pending w { e with restLine := e.restLine - 1 }, ?_, rfl⟩
        rw [Call.live, show (startCall s w).u = w from rfl, Function.update_self, mem_atLeast]
        exact ⟨List.mem_map.mpr ⟨e, he, rfl⟩, Int.sub_nonneg.mpr hle⟩
      · refine ⟨.pending w e, ?_, rfl⟩
        rw [Call.live, Function.update_of_ne (show w ≠ (startCall s u).u from hw)]
        exact mem_atLeast.mpr ⟨he, hle⟩
    · exact ⟨.named a r, ha⟩
    · cases ha
  taken := fun a ha => by cases ha
  flag := fun e he hzero => List.any_eq_true.mpr ⟨e, he, beq_iff_eq.mpr hzero⟩
  due := fun hflag => by
    obtain ⟨_, hmem, hdead⟩ := List.any_eq_true.mp hflag
    obtain ⟨e, he, rfl⟩ := List.mem_map.mp hmem
    exact ⟨e, he, sub_eq_zero.mp (beq_iff_eq.mp hdead)⟩
  suffix := fun hany => by cases hany
  bare := fun hvec _ => by
    show (s.user u).numPipeVec.map _ = []
    rw [hvec]
    rfl
  given := fun _ _ _ har => har
  buffer := rfl
  exist := rfl

/-- The first user pipe that is taken: the line holds its ends now. -/
theorem Accounting.take (h : Accounting s u done c) {n : Token}
    (htake : c.takeUserPipe inp.command (atoi n) = .ok c')
    (hord : Orderly u (done ++ [.take (some n)])) : Accounting s u (done ++ [.take (some n)]) c' := by
  have hread := h.toReading.take htake
  obtain ⟨hid, hrecord, rfl⟩ := takeUserPipe_ok.mp htake
  obtain ⟨h1, -, hnat, -⟩ := checkIdExist_iff.mp hid
  have hfirst : ∀ it ∈ done, takenId it = none := fun it hit =>
    ((List.pairwise_append.mp hord.once).2.2 it hit _ (List.mem_singleton_self _)).resolve_right
      (Option.some_ne_none _)
  have hnone : c.sender = none := by
    cases hs : c.sender with
    | none => rfl
    | some a =>
      obtain ⟨it, hit, ha⟩ := h.taken a hs
      rw [hfirst it hit] at ha
      cases ha
  have hpair : c.takenPair = none := by rw [Call.takenPair, hnone, Option.map_none]
  refine ⟨hread, fun x hx => ?_, fun a ha => ?_, h.flag, h.due, fun hany => ?_, fun hvec hnum => ?_,
    fun hgive a r har => ?_, h.buffer, h.exist⟩
  · refine (h.known x hx).imp (fun _ => rfl) (fun _ => rfl) fun a p ha _ => ?_
    rcases a with ⟨w, e⟩ | ⟨a, r⟩ | -
    · exact ⟨.pending w e, ha⟩
    · rcases Classical.em (a = (atoi n).toNat ∧ r = c.u + 1) with ⟨rfl, rfl⟩ | hne
      · exact ⟨.taken, congrArg some ha.2.symm⟩
      · exact ⟨.named a r, record_taken.mpr ⟨ha.1, hne⟩, ha.2⟩
    · cases hpair.symm.trans ha
  · obtain rfl := Option.some.inj ha
    exact ⟨_, List.mem_append_right _ (List.mem_singleton_self _), congrArg some hnat⟩
  · rw [List.any_append, List.any_cons, List.any_nil] at hany
    exact h.suffix (by simpa [redirects] using hany)
  · exact h.bare hvec fun it hit => hnum it (List.mem_append_left _ hit)
  · exact h.given (fun it hit => hgive it (List.mem_append_left _ hit)) a r (record_taken.mp har).1

/-- A user pipe is made: the tables have its ends, and what they had before is another pair. -/
theorem Accounting.make (h : Accounting s u done c) {n : Token} (hu : u < qlen ∧ (s.user u).valid = true)
    (hmake : c.makeUserPipe (atoi n) = .ok c') (hord : Orderly u (done ++ [.give (some n)])) :
    Accounting s u (done ++ [.give (some n)]) c' := by
  have hcu := h.u
  have hown : ¬ (c.sender = some (u + 1) ∧ atoi n = u + 1) := by
    rintro ⟨hs, hn⟩
    obtain ⟨it, hit, ha⟩ := h.taken _ hs
    refine (List.pairwise_append.mp hord.own).2.2 it hit _ (List.mem_singleton_self _) ⟨?_, ?_⟩
    · rw [ha]
      push_cast
      rfl
    · exact congrArg some hn
  have hread := h.toReading.make hu hmake hown
  obtain ⟨hid, hrecord, rfl⟩ := makeUserPipe_ok.mp hmake
  obtain ⟨h1, -, hnat, -⟩ := checkIdExist_iff.mp hid
  have hlive : (c.made (atoi n).toNat).live 0 = c.live 0 := by
    funext w
    rcases eq_or_ne w c.u with rfl | hw
    · rw [Call.live, Call.live, show (c.made (atoi n).toNat).u = c.u from rfl, Function.update_self,
        Function.update_self]
      rfl
    · rw [Call.live, Call.live, show (c.made (atoi n).toNat).u = c.u from rfl, Function.update_of_ne hw,
        Function.update_of_ne hw, Server.live, Server.live, numPipeVec_made]
  have hpair : (c.made (atoi n).toNat).takenPair = c.takenPair :=
    takenPair_made h1 h.sender fun hcon => hown ⟨hcu ▸ hcon.1, by omega⟩
  refine ⟨hread, fun x hx => ?_, fun a ha => ?_, h.flag, h.due, fun _ => ?_, fun hvec hnum => ?_,
    fun hgive => ?_, h.buffer, ?_⟩
  · have hx : c.vars.kernel.pipe.get x ≠ none := hx
    rw [Kernel.get_pipe] at hx
    have hnew : x = c.vars.kernel.pipeFd0 ∨ x = c.vars.kernel.pipeFd1 →
        Known (c.made (atoi n).toNat).server ((c.made (atoi n).toNat).live 0)
          (c.made (atoi n).toNat).takenPair x := by
      intro hx
      refine Or.inr (Or.inr ⟨.named (c.u + 1) (atoi n).toNat, _, held_named ?_, ?_⟩)
      · exact record_made.mpr (Or.inr ⟨rfl, rfl⟩)
      · rw [Nat.add_sub_cancel, namePipe_made_self]
        exact hx
    split_ifs at hx with h0 h1'
    · exact hnew (Or.inl h0)
    · exact hnew (Or.inr h1')
    · refine (h.known x hx).imp (fun i => valid_made ..) (fun i => sock_made ..) fun a p ha _ => ?_
      rcases a with ⟨w, e⟩ | ⟨a, r⟩ | -
      · refine ⟨.pending w e, ?_, ha.2⟩
        rw [hlive]
        exact ha.1
      · obtain ⟨har, hp⟩ := ha
        obtain ⟨⟨ha1, -⟩, hr1, -⟩ := h.recorded a r har
        have hne : ¬ (a = c.u + 1 ∧ r = (atoi n).toNat) := by
          rintro ⟨rfl, rfl⟩
          rw [hrecord] at har
          cases har
        exact ⟨.named a r, record_made.mpr (Or.inl har), hp.trans (namePipe_made h1 ha1 hr1 hne).symm⟩
      · exact ⟨.taken, hpair.trans ha⟩
  · obtain ⟨it, hit, hid⟩ := h.taken a ha
    exact ⟨it, List.mem_append_left _ hit, hid⟩
  · simp [Call.made]
  · exact h.bare hvec fun it hit => hnum it (List.mem_append_left _ hit)
  · have hcon := hgive _ (List.mem_append_right _ (List.mem_singleton_self _))
    cases hcon
  · rw [ParserSafety.checkIdExist_made]
    exact h.exist

/-- A number pipe with at least one line to go is found, or entered in the vector. -/
theorem Accounting.number (h : Accounting s u done c) (shock : Bool) {n : Token}
    (hord : Orderly u (done ++ [.number (some n)])) :
    Accounting s u (done ++ [.number (some n)]) (c.pipeOut shock (atoi n)) := by
  have hread := h.toReading.pipeOut shock (atoi n)
  have hn : 1 ≤ atoi n := hord.number _ (List.mem_append_right _ (List.mem_singleton_self _)) _ rfl
  have htaken : ∀ a, (c.pipeOut shock (atoi n)).sender = some a →
      ∃ it ∈ done ++ [.number (some n)], takenId it = some (a : ℤ) := by
    intro a ha
    obtain ⟨it, hit, hid⟩ := h.taken a ha
    exact ⟨it, List.mem_append_left _ hit, hid⟩
  have hbare : ¬ ∀ it ∈ done ++ [.number (some n)], pipeNumber it = none := by
    intro hcon
    cases hcon _ (List.mem_append_right _ (List.mem_singleton_self _))
  have hsuffix : ((c.pipeOut shock (atoi n)).vars.writeFileFlag ||
      (c.pipeOut shock (atoi n)).vars.shockPipeOutFlag || (c.pipeOut shock (atoi n)).vars.numPipeOutFlag ||
      (c.pipeOut shock (atoi n)).receiver.isSome) = true := by
    cases shock <;> simp [Call.pipeOut]
  have hbuffer : (c.pipeOut shock (atoi n)).vars.redirectionFileName.length = 100 := by
    rw [ParserSafety.serverPipeOut_buffer]
    exact h.buffer
  have hgiven : (∀ it ∈ done ++ [.number (some n)], givenId it = none) → ∀ a r,
      (c.pipeOut shock (atoi n)).server.namePipeRecord a r = true → s.namePipeRecord a r = true :=
    fun hgive => h.given fun it hit => hgive it (List.mem_append_left _ hit)
  by_cases hmem : ∃ e ∈ c.vars.numPipeVec, e.restLine = atoi n
  · obtain ⟨hker, hvec⟩ := pipeOut_of_mem shock hmem
    have hlive : (c.pipeOut shock (atoi n)).live 0 = c.live 0 := by
      rw [Call.live, hvec]
      rfl
    refine ⟨hread, fun x hx => ?_, htaken, ?_, ?_, fun _ => hsuffix, fun _ hnum => absurd hnum hbare,
      hgiven, hbuffer, h.exist⟩
    · rw [hker] at hx
      rw [hlive]
      exact h.known x hx
    · rw [hvec, pipeOut_numPipeInFlag]
      exact h.flag
    · rw [pipeOut_numPipeInFlag]
      exact h.due
  · obtain ⟨hker, hvec⟩ := pipeOut_of_not_mem shock hmem
    have hmine : ∀ e ∈ (c.pipeOut shock (atoi n)).vars.numPipeVec, 0 ≤ e.restLine →
        e ∈ (c.pipeOut shock (atoi n)).live 0 c.u := by
      intro e he hle
      rw [Call.live, show (c.pipeOut shock (atoi n)).u = c.u from rfl, Function.update_self]
      exact mem_atLeast.mpr ⟨he, hle⟩
    refine ⟨hread, fun x hx => ?_, htaken, fun e he hzero => ?_, ?_, fun _ => hsuffix,
      fun _ hnum => absurd hnum hbare, hgiven, hbuffer, h.exist⟩
    · have hnew : x = c.vars.kernel.pipeFd0 ∨ x = c.vars.kernel.pipeFd1 →
          Known c.server ((c.pipeOut shock (atoi n)).live 0) c.takenPair x := by
        intro hx
        refine Or.inr (Or.inr ⟨.pending c.u ⟨atoi n, c.vars.kernel.pipeFd0, c.vars.kernel.pipeFd1⟩, _,
          ⟨hmine _ ?_ (by dsimp only; omega), rfl⟩, hx⟩)
        rw [hvec]
        exact List.mem_append_right _ (List.mem_singleton_self _)
      rw [hker, Kernel.get_pipe] at hx
      split_ifs at hx with h0 h1
      · exact hnew (Or.inl h0)
      · exact hnew (Or.inr h1)
      · refine (h.known x hx).imp (fun _ => rfl) (fun _ => rfl) fun a p ha _ => ?_
        rcases a with ⟨w, e⟩ | ⟨a, r⟩ | -
        · refine ⟨.pending w e, ?_, ha.2⟩
          have he := ha.1
          rcases eq_or_ne w c.u with rfl | hw
          · rw [Call.live, Function.update_self, mem_atLeast] at he
            refine hmine e ?_ he.2
            rw [hvec]
            exact List.mem_append_left _ he.1
          · rw [Call.live, Function.update_of_ne hw] at he
            rw [Call.live, Function.update_of_ne (show w ≠ (c.pipeOut shock (atoi n)).u from hw)]
            exact he
        · exact ⟨.named a r, ha⟩
        · exact ⟨.taken, ha⟩
    · rw [hvec] at he
      rw [pipeOut_numPipeInFlag]
      rcases List.mem_append.mp he with he | he
      · exact h.flag e he hzero
      · rw [List.mem_singleton.mp he] at hzero
        dsimp only at hzero
        omega
    · rw [pipeOut_numPipeInFlag]
      exact h.due

/-- The file is created and closed. -/
theorem Accounting.file (h : Accounting s u done c) {name : Token} {v : Vars}
    (hfile : c.vars.createFile inp.opens name = some v) :
    Accounting s u (done ++ [.file (some name)])
      { c with vars := v, server := c.server.print [.fflush] } := by
  have hread := h.toReading.file hfile
  obtain ⟨hget, -, hvec, -, hflag⟩ := createFile_frame hfile
  refine ⟨hread, fun x hx => ?_, fun a ha => ?_, ?_, ?_, fun _ => ?_, fun hnil hnum => ?_, fun hgive => ?_,
    (ParserSafety.fileFits_of_some hfile h.buffer).2, h.exist⟩
  · rw [hget] at hx
    rw [Call.live, hvec]
    exact h.known x hx
  · obtain ⟨it, hit, hid⟩ := h.taken a ha
    exact ⟨it, List.mem_append_left _ hit, hid⟩
  · rw [hvec, hflag]
    exact h.flag
  · rw [hflag]
    exact h.due
  · rw [createFile_writes hfile]
    rfl
  · rw [hvec]
    exact h.bare hnil fun it hit => hnum it (List.mem_append_left _ hit)
  · exact h.given fun it hit => hgive it (List.mem_append_left _ hit)

/-- Combining the tokens: when the line has been read, or is rejected, every open descriptor is for
    something, if what the line has come past is orderly. -/
theorem combine_accounts (inp : LineInput) (toks cur : List Token) (h : Accounting s u done c)
    (hu : u < qlen ∧ (s.user u).valid = true)
    (hord : Orderly u (done ++
      Scan.passed (serverGoesOn u s.checkIdExist) c.server.namePipeRecord (serverItems toks))) :
    (combine inp toks cur c).Ends
      (Accounting s u (done ++
        Scan.passed (serverGoesOn u s.checkIdExist) c.server.namePipeRecord (serverItems toks)))
      (Accounting s u (done ++
        Scan.passed (serverGoesOn u s.checkIdExist) c.server.namePipeRecord (serverItems toks))) := by
  -- behind an item that goes on, `done` has one more
  have hnext : ∀ {t t' : ℕ → ℕ → Bool} {it : Item} {l : List Item} {done : List Item},
      serverGoesOn u s.checkIdExist t it = some t' →
      done ++ Scan.passed (serverGoesOn u s.checkIdExist) t (it :: l) =
        done ++ [it] ++ Scan.passed (serverGoesOn u s.checkIdExist) t' l := by
    intro t t' it l done hgo
    rw [Scan.passed_cons_some hgo, List.append_assoc, List.singleton_append]
  fun_induction combine inp toks cur c generalizing done with
  | case1 cur c =>
    rw [serverItems, Scan.passed, List.append_nil]
    show Accounting s u done (if cur = [] then c else c.push cur)
    split_ifs
    · exact h
    · exact h.push cur
  | case2 tok rest cur c htake hn => trivial
  | case3 tok rest cur c htake n hn e he =>
    have hstop := ParserSafety.goesOn_take_none he
    rw [h.u, h.exist] at hstop
    rw [ParserSafety.serverItems_take htake, hn, Scan.passed_cons_none hstop, List.append_nil]
    exact h.print e.entries
  | case4 tok rest cur c htake n hn d hd ih =>
    have hgo := ParserSafety.goesOn_take_some hd
    rw [h.u, h.exist] at hgo
    rw [ParserSafety.serverItems_take htake, hn, hnext hgo] at hord ⊢
    exact ih (h.take hd hord.of_append) hord
  | case5 tok rest cur c htake hword ih =>
    have hgo : serverGoesOn u s.checkIdExist c.server.namePipeRecord (.word tok) =
      some c.server.namePipeRecord := rfl
    rw [ParserSafety.serverItems_word htake hword, hnext hgo] at hord ⊢
    exact ih (h.pass rfl) hord
  | case6 rest cur c htake hword ih =>
    have hgo : serverGoesOn u s.checkIdExist c.server.namePipeRecord .bar =
      some c.server.namePipeRecord := rfl
    rw [ParserSafety.serverItems_bar, hnext hgo] at hord ⊢
    exact ih ((h.push cur).pass rfl) hord
  | case7 cur c htake hword hbar => trivial
  | case8 cur c name rest hcreate htake hword hbar => trivial
  | case9 cur c name rest v hcreate htake hword hbar ih =>
    obtain ⟨hfits, -⟩ := ParserSafety.fileFits_of_some hcreate h.buffer
    have hgo : serverGoesOn u s.checkIdExist c.server.namePipeRecord (.file (some name)) =
      some c.server.namePipeRecord := if_pos hfits
    rw [ParserSafety.serverItems_file, hnext hgo] at hord ⊢
    exact ih ((h.push cur).file hcreate) hord
  | case10 tok rest cur c htake hword hbar hfile hbang hn => trivial
  | case11 tok rest cur c htake hword hbar hfile hbang n hn ih =>
    have hgo : serverGoesOn u s.checkIdExist c.server.namePipeRecord (.number (some n)) =
      some c.server.namePipeRecord := rfl
    rw [ParserSafety.serverItems_mark htake hword hbar hfile, if_pos hbang, hn, hnext hgo] at hord ⊢
    exact ih ((h.push cur).number true hord.of_append) hord
  | case12 tok rest cur c htake hword hbar hfile hbang hnum hn => trivial
  | case13 tok rest cur c htake hword hbar hfile hbang hnum n hn ih =>
    have hgo : serverGoesOn u s.checkIdExist c.server.namePipeRecord (.number (some n)) =
      some c.server.namePipeRecord := rfl
    rw [ParserSafety.serverItems_mark htake hword hbar hfile, if_neg hbang, if_pos hnum, hn,
      hnext hgo] at hord ⊢
    exact ih ((h.push cur).number false hord.of_append) hord
  | case14 tok rest cur c htake hword hbar hfile hbang hnum hn => trivial
  | case15 tok rest cur c htake hword hbar hfile hbang hnum n hn e he =>
    have hstop := ParserSafety.goesOn_give_none he
    rw [h.u, h.exist] at hstop
    rw [ParserSafety.serverItems_mark htake hword hbar hfile, if_neg hbang, if_neg hnum, hn,
      Scan.passed_cons_none hstop, List.append_nil]
    exact (h.push cur).print e.entries
  | case16 tok rest cur c htake hword hbar hfile hbang hnum n hn d hd ih =>
    have hgo := ParserSafety.goesOn_give_some hd
    rw [h.u, h.exist] at hgo
    rw [ParserSafety.serverItems_mark htake hword hbar hfile, if_neg hbang, if_neg hnum, hn,
      hnext hgo] at hord ⊢
    exact ih ((h.push cur).make hu hd hord.of_append) hord

/-- The line has been read or rejected: what is open is for something, and the rows are those of the
    line if it has been read. -/
theorem parse_accounts (hrec : Recorded s) (hw : Wired s.kernel (Held s s.live none))
    (hknown : ∀ x, s.kernel.get x ≠ none → Known s s.live none x)
    (hu : u < qlen ∧ (s.user u).valid = true) (hord : Orderly u (come s u (tokens ' ' inp.line))) :
    (parse s u inp).Ends
      (fun d => Accounting s u (come s u (tokens ' ' inp.line)) d ∧
        d.process = lineRows (tokens ' ' inp.line) ∧
        Scan.Passes (serverGoesOn u s.checkIdExist) s.namePipeRecord (lineItems (tokens ' ' inp.line)))
      (fun d => Accounting s u (come s u (tokens ' ' inp.line)) d ∧
        ¬ Scan.Passes (serverGoesOn u s.checkIdExist) s.namePipeRecord
          (lineItems (tokens ' ' inp.line))) := by
  have hstart := Accounting.start (u := u) hrec hw hknown
  rw [parse]
  cases htoks : tokens ' ' inp.line with
  | nil => trivial
  | cons tok rest =>
    rw [htoks] at hord
    dsimp only
    split_ifs with hcmd
    · have hmsg : IsMessage (tok :: rest) := by simpa [IsMessage] using hcmd
      rw [come, lineRows, lineItems, if_pos hmsg, if_pos hmsg]
      exact ⟨hstart.push _, rfl, Scan.passes_nil ..⟩
    · have hmsg : ¬ IsMessage (tok :: rest) := by simpa [IsMessage] using hcmd
      rw [come, lineItems, if_neg hmsg] at hord
      rw [come, lineRows, lineItems, if_neg hmsg, if_neg hmsg]
      have hends := combine_accounts inp (tok :: rest) [] hstart hu hord
      have hrows := ParserSafety.serverCombine_rows inp (tok :: rest) [] (startCall s u) rfl
      cases hc : combine inp (tok :: rest) [] (startCall s u) with
      | crashed => trivial
      | rejected d e =>
        rw [hc] at hends hrows
        refine ⟨hends, fun hpass => ?_⟩
        cases hrows.trans (if_pos hpass)
      | ok d =>
        rw [hc] at hends hrows
        split_ifs at hrows with hpass
        · exact ⟨hends, (Prod.mk.inj (Option.some.inj hrows)).1, hpass⟩
        · cases hrows

end NetProg.Server
