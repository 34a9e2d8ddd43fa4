import NetProg.Shell.Waiting
import NetProg.Server.Posting

/-! The single-process server together with its running children, over pipes of finite capacity.

    A line without `|N` and `!N` ends in `while (wait(NULL) > 0)`, which collects the children of all
    users. Nothing sets `line_end_with_pipe` for `>id`, and a writer of a number pipe may be left from the
    line of another user; either way the reader is only forked by a later line, and while the server waits
    there is none. -/

namespace NetProg.Server

/-- Where `main` is: at `select`, in the process loop of `npshell` with the rows still to be executed, or
    in its `wait` loop; `fd` is the descriptor of the client. -/
inductive Phase where
  | select (s : Server)
  | exec (fd : ℕ) (inp : LineInput) (rows : List (List Token)) (processCount : ℕ) (c : Call)
  | wait (fd : ℕ) (c : Call)

/-- The tables and descriptors at this moment. -/
def Phase.server : Phase → Server
  | .select s => s
  | .exec _ _ _ _ c => c.leave
  | .wait _ c => c.leave

/-- The server and its children. -/
structure Session where
  phase : Phase
  pool : Pool ℕ

/-- What happens next: `select` reports a client, a line or an end of input, a row of `process` is
    executed (a command that is forked will write so many bytes), the process loop ends, the `wait` loop
    ends, or a child does a step. -/
inductive Move where
  | accept (addr : List Char) (port junk : ℕ)
  | line (fd : ℕ) (inp : LineInput)
  | eof (fd : ℕ)
  | process (out err : ℕ)
  | endLine
  | waited
  | child (e : PoolEvent)

/-- `npshell` up to its process loop. A blank or rejected line returns at once. -/
def beginLine (s : Server) (fd : ℕ) (inp : LineInput) : Option Phase :=
  if fd ∈ s.afds ∧ fd ≠ msock then
    match s.findFdUser fd with
    | none => none
    | some u =>
      let t := (s.dupStd fd fd fd).setPath u
      if inp.line = [] then some (.select (t.finish fd u false))
      else match t.parse u inp with
        | .crashed => none
        | .rejected c _ => some (.select (c.leave.finish fd u false))
        | .ok c => some (.exec fd inp c.process c.process.length c.resolve)
  else none

/-- One step. -/
def Session.step (cap : ℕ) (x : Session) : Move → Option Session
  | .accept addr port junk =>
    match x.phase with
    | .select s => (s.step (.accept addr port junk)).map fun r => { x with phase := .select r.1 }
    | _ => none
  | .line fd inp =>
    match x.phase with
    | .select s => (s.beginLine fd inp).map fun phase => { x with phase := phase }
    | _ => none
  | .eof fd =>
    match x.phase with
    | .select s => (s.step (.eof fd)).map fun r => { x with phase := .select r.1 }
    | _ => none
  | .process out err =>
    match x.phase with
    | .exec fd inp (row :: rows) pc c =>
      match execRow inp pc rows.isEmpty row c with
      | .next c' =>
        let forked := (c'.spawned.drop c.spawned.length).map (·.proc out err)
        some ⟨.exec fd inp rows pc c', { x.pool with procs := x.pool.procs ++ forked }⟩
      | .exited c' => some { x with phase := .select (c'.leave.finish fd c'.u true) }
      | .crashed => none
    | _ => none
  | .endLine =>
    match x.phase with
    | .exec fd _ [] _ c =>
      some { x with
        phase := if c.lineEndWithPipe then .select (c.leave.finish fd c.u false) else .wait fd c }
    | _ => none
  | .waited =>
    match x.phase with
    | .wait fd c =>
      if x.pool.procs = [] then some { x with phase := .select (c.leave.finish fd c.u false) } else none
    | _ => none
  | .child e =>
    (x.pool.step cap x.phase.server.kernel.holdsRead e).map fun pool => { x with pool := pool }

/-- The server before its first client. -/
def Session.init (environ : Environ) : Session := ⟨.select (Server.init environ), ⟨[], fun _ => 0⟩⟩

theorem beginLine_ne_wait {s : Server} {fd fd' : ℕ} {inp : LineInput} {c : Call} :
    s.beginLine fd inp ≠ some (.wait fd' c) := by
  unfold beginLine
  cases s.findFdUser fd with
  | none => split_ifs <;> simp
  | some u =>
    dsimp only
    cases ((s.dupStd fd fd fd).setPath u).parse u inp <;> split_ifs <;> simp

/-! ### The process loop, step by step, is the process loop -/

/-- Where a session is when the process loop ends, for a line from `fd`. -/
def Row.Reaches (fd : ℕ) (inp : LineInput) (pc : ℕ) (phase : Phase) : Row → Prop
  | .next c => phase = .exec fd inp [] pc c
  | .exited c => phase = .select (c.leave.finish fd c.u true)
  | .crashed => True

/-- Executing the rows one by one, whatever the children will write. -/
theorem Session.run_rows (cap fd : ℕ) (inp : LineInput) (pc : ℕ) : ∀ (rows : List (List Token)) (c : Call),
    ∃ n, ∀ x : Session, x.phase = .exec fd inp rows pc c → ∀ amounts : List (ℕ × ℕ), amounts.length = n →
      execRows inp pc rows c = .crashed ∨
        ∃ y, runWith (step cap) x (amounts.map fun a => .process a.1 a.2) = some y ∧
          (execRows inp pc rows c).Reaches fd inp pc y.phase
  | [], c => by
    refine ⟨0, fun x hx amounts hlen => Or.inr ⟨x, ?_, hx⟩⟩
    obtain rfl : amounts = [] := List.length_eq_zero_iff.mp hlen
    rfl
  | row :: rows, c => by
    rw [execRows]
    cases hrow : execRow inp pc rows.isEmpty row c with
    | crashed => exact ⟨0, fun _ _ _ _ => Or.inl rfl⟩
    | exited c' =>
      refine ⟨1, fun x hx amounts hlen => ?_⟩
      obtain ⟨a, rfl⟩ := List.length_eq_one_iff.mp hlen
      refine Or.inr ⟨{ x with phase := .select (c'.leave.finish fd c'.u true) }, ?_, rfl⟩
      simp only [List.map_cons, List.map_nil, runWith, step, hx, hrow, Option.bind_some]
    | next c' =>
      obtain ⟨n, hn⟩ := run_rows cap fd inp pc rows c'
      refine ⟨n + 1, fun x hx amounts hlen => ?_⟩
      obtain ⟨a, amounts, rfl⟩ := List.exists_cons_of_length_eq_add_one hlen
      let forked := (c'.spawned.drop c.spawned.length).map (·.proc a.1 a.2)
      let x' : Session := ⟨.exec fd inp rows pc c', { x.pool with procs := x.pool.procs ++ forked }⟩
      have hstep : x.step cap (.process a.1 a.2) = some x' := by
        simp only [step, hx, hrow]
        rfl
      refine (hn x' rfl amounts (by simpa using hlen)).imp_right ?_
      rintro ⟨y, hy, hend⟩
      exact ⟨y, (runWith_step hstep _).trans hy, hend⟩

/-- A line whose rows are executed one by one leads where the whole line leads, or it waits there. -/
theorem Session.run_line {cap fd : ℕ} {x : Session} {s : Server} {inp : LineInput}
    {r : Server × List Spawn × Option PipeError} (hx : x.phase = .select s)
    (h : s.step (.line fd inp) = some r) : ∃ n last, ∀ amounts : List (ℕ × ℕ), amounts.length = n →
      ∃ y, runWith (step cap) x (.line fd inp :: ((amounts.map fun a => .process a.1 a.2) ++ last)) = some y ∧
        (y.phase = .select r.1 ∨
          ∃ c : Call, y.phase = .wait fd c ∧ r.1 = c.leave.finish fd c.u false) := by
  simp only [Server.step] at h
  split_ifs at h with hfd
  cases hf : s.findFdUser fd with
  | none => simp [hf] at h
  | some u =>
    simp only [hf] at h
    cases hn : npshell (s.dupStd fd fd fd) u inp with
    | none => simp [hn] at h
    | some ret =>
      simp only [hn, Option.some.injEq] at h
      subst h
      -- where `npshell` returns before its process loop, the line is one step
      have hone : ∀ t, s.beginLine fd inp = some (.select t) → t = ret.server.finish fd u ret.zero →
          ∃ n last, ∀ amounts : List (ℕ × ℕ), amounts.length = n → ∃ y,
            runWith (step cap) x (.line fd inp :: ((amounts.map fun a => .process a.1 a.2) ++ last)) = some y ∧
            (y.phase = .select (ret.server.finish fd u ret.zero) ∨
              ∃ c : Call, y.phase = .wait fd c ∧
                ret.server.finish fd u ret.zero = c.leave.finish fd c.u false) := by
        rintro t hbegin rfl
        refine ⟨0, [], fun amounts hlen => ⟨{ x with phase := .select _ }, ?_, Or.inl rfl⟩⟩
        obtain rfl : amounts = [] := List.length_eq_zero_iff.mp hlen
        simp only [List.map_nil, List.nil_append, runWith, step, hx, hbegin, Option.map_some, Option.bind_some]
      have hbegin : ∀ {c : Call}, inp.line ≠ [] → parse ((s.dupStd fd fd fd).setPath u) u inp = .ok c →
          ∃ x₁ : Session, x.step cap (.line fd inp) = some x₁ ∧
            x₁.phase = .exec fd inp c.process c.process.length c.resolve ∧ c.resolve.u = u := by
        intro c hne hp
        refine ⟨{ x with phase := .exec fd inp c.process c.process.length c.resolve }, ?_, rfl, ?_⟩
        · simp only [step, hx, beginLine, if_pos hfd, hf, if_neg hne, hp, Option.map_some]
        · have := @parse_u ((s.dupStd fd fd fd).setPath u) u inp
          rw [hp] at this
          exact this
      cases npshell_outcome hn with
      | blank hnil =>
        refine hone _ ?_ rfl
        rw [beginLine, if_pos hfd, hf]
        dsimp only
        rw [if_pos hnil]
      | @rejected c e hne hp =>
        refine hone _ ?_ rfl
        rw [beginLine, if_pos hfd, hf]
        dsimp only
        rw [if_neg hne, hp]
      | @ended c c' hne hp hrows =>
        obtain ⟨x₁, hstep, hphase, hu⟩ := hbegin hne hp
        obtain ⟨n, hn⟩ := run_rows cap fd inp c.process.length c.process c.resolve
        refine ⟨n, [.endLine], fun amounts hlen => ?_⟩
        have hreach := hn x₁ hphase amounts hlen
        rw [hrows] at hreach
        obtain ⟨y, hy, hend⟩ := hreach.resolve_left (by simp)
        have huc : c'.u = u := by
          have := @execRows_u inp c.process.length c.process c.resolve
          rw [hrows] at this
          exact this.trans hu
        refine ⟨{ y with
          phase := if c'.lineEndWithPipe then .select (c'.leave.finish fd c'.u false) else .wait fd c' }, ?_, ?_⟩
        · have hlast : y.step cap .endLine = some { y with
              phase := if c'.lineEndWithPipe then .select (c'.leave.finish fd c'.u false)
                else .wait fd c' } := by
            simp only [step, show y.phase = .exec fd inp [] c.process.length c' from hend]
          rw [runWith_step hstep, runWith_append, hy, Option.bind_some, runWith_step hlast]
          rfl
        · rw [huc]
          cases c'.lineEndWithPipe with
          | true => exact Or.inl rfl
          | false => exact Or.inr ⟨c', rfl, rfl⟩
      | @exited c c' hne hp hrows =>
        obtain ⟨x₁, hstep, hphase, hu⟩ := hbegin hne hp
        obtain ⟨n, hn⟩ := run_rows cap fd inp c.process.length c.process c.resolve
        refine ⟨n, [], fun amounts hlen => ?_⟩
        have hreach := hn x₁ hphase amounts hlen
        rw [hrows] at hreach
        obtain ⟨y, hy, hend⟩ := hreach.resolve_left (by simp)
        have huc : c'.u = u := by
          have := @execRows_u inp c.process.length c.process c.resolve
          rw [hrows] at this
          exact this.trans hu
        refine ⟨y, ?_, Or.inl ?_⟩
        · rw [runWith_step hstep, List.append_nil, hy]
        · rw [show y.phase = _ from hend, huc]

/-! ### What the wait loop can wait for -/

/-- A pipe that only a later line will read: a user pipe that is recorded, or a number pipe in the
    `num_pipe_vec` of any user. -/
def Unread (s : Server) (id : ℕ) : Prop :=
  (∃ a r, Carries s s.kernel a r id) ∨
    ∃ w, ∃ e ∈ (s.user w).numPipeVec, s.kernel.get e.p0 = some (.pipeR id)

/-- Every such pipe can take the bytes in it and all those still to come. -/
def Session.Calm (cap : ℕ) (x : Session) : Prop := ∀ id, Unread x.phase.server id → x.pool.load id ≤ cap

/-- The server is not in the `wait` loop while a child is blocked writing to such a pipe. -/
def Session.Unfrozen (cap : ℕ) (x : Session) : Prop := ∀ fd c, x.phase = .wait fd c →
  ∀ p ∈ x.pool.procs, ∀ id, Unread x.phase.server id → ¬ x.pool.Blocked cap p id

/-- Whatever the children do next, the server is not frozen. -/
def Session.Safe (cap : ℕ) (x : Session) : Prop :=
  ∀ (es : List PoolEvent) y, runWith (Session.step cap) x (es.map .child) = some y → y.Unfrozen cap

/-- The step that leads from the process loop into the `wait` loop. -/
def Session.EntersWait (x : Session) : Move → Prop
  | .endLine => match x.phase with
    | .exec _ _ [] _ c => c.lineEndWithPipe = false
    | _ => False
  | _ => False

/-- The `wait` loop is only entered when there is room. -/
def Session.Roomy (cap : ℕ) (x : Session) (m : Move) : Prop := x.EntersWait m → x.Calm cap

/-- No pipe holds more than its capacity, and in the `wait` loop all that is to come has room. -/
structure Session.Flowing (cap : ℕ) (x : Session) : Prop where
  fill : ∀ id, x.pool.fill id ≤ cap
  calm : ∀ fd c, x.phase = .wait fd c → x.Calm cap

/-- Only children write and read. -/
theorem Session.step_fill {cap : ℕ} {x y : Session} {m : Move} (hs : x.step cap m = some y)
    (hm : ∀ e, m ≠ .child e) : y.pool.fill = x.pool.fill := by
  cases m with
  | accept addr port junk =>
    simp only [Session.step] at hs
    split at hs
    · obtain ⟨r, -, rfl⟩ := Option.map_eq_some_iff.mp hs
      rfl
    · cases hs
  | line fd inp =>
    simp only [Session.step] at hs
    split at hs
    · obtain ⟨phase, -, rfl⟩ := Option.map_eq_some_iff.mp hs
      rfl
    · cases hs
  | eof fd =>
    simp only [Session.step] at hs
    split at hs
    · obtain ⟨r, -, rfl⟩ := Option.map_eq_some_iff.mp hs
      rfl
    · cases hs
  | process out err =>
    simp only [Session.step] at hs
    split at hs
    · split at hs <;> cases hs <;> rfl
    · cases hs
  | endLine =>
    simp only [Session.step] at hs
    split at hs <;> cases hs
    rfl
  | waited =>
    simp only [Session.step] at hs
    split at hs
    · split_ifs at hs
      cases hs
      rfl
    · cases hs
  | child e => exact absurd rfl (hm e)

/-- A step of the server into the `wait` loop ends the process loop of a line without `|N` and `!N`, and
    changes nothing else. -/
theorem Session.step_wait {cap fd : ℕ} {x y : Session} {m : Move} {c : Call} (hs : x.step cap m = some y)
    (hm : ∀ e, m ≠ .child e) (hy : y.phase = .wait fd c) :
    x.EntersWait m ∧ y.phase.server = x.phase.server ∧ y.pool = x.pool := by
  cases m with
  | accept addr port junk =>
    simp only [Session.step] at hs
    split at hs
    · obtain ⟨r, -, rfl⟩ := Option.map_eq_some_iff.mp hs
      cases hy
    · cases hs
  | line fd' inp =>
    simp only [Session.step] at hs
    split at hs
    · obtain ⟨phase, hbegin, rfl⟩ := Option.map_eq_some_iff.mp hs
      obtain rfl : phase = .wait fd c := hy
      exact absurd hbegin beginLine_ne_wait
    · cases hs
  | eof fd' =>
    simp only [Session.step] at hs
    split at hs
    · obtain ⟨r, -, rfl⟩ := Option.map_eq_some_iff.mp hs
      cases hy
    · cases hs
  | process out err =>
    simp only [Session.step] at hs
    split at hs
    · split at hs <;> cases hs <;> cases hy
    · cases hs
  | endLine =>
    simp only [Session.step] at hs
    split at hs
    · next fd' inp pc c' hphase =>
      cases hs
      cases hend : c'.lineEndWithPipe with
      | true =>
        rw [hend] at hy
        cases hy
      | false => exact ⟨by simp only [Session.EntersWait, hphase, hend], by rw [hphase]; rfl, rfl⟩
    · cases hs
  | waited =>
    simp only [Session.step] at hs
    split at hs
    · split_ifs at hs
      cases hs
      cases hy
    · cases hs
  | child e => exact absurd rfl (hm e)

theorem Session.Flowing.step {cap : ℕ} {x y : Session} {m : Move} (h : x.Flowing cap) (hroom : x.Roomy cap m)
    (hs : x.step cap m = some y) : y.Flowing cap := by
  by_cases hm : ∃ e, m = .child e
  · obtain ⟨e, rfl⟩ := hm
    obtain ⟨pool, hpool, rfl⟩ := Option.map_eq_some_iff.mp hs
    refine ⟨Pool.fill_step hpool h.fill, fun fd c hwait id hid => ?_⟩
    exact (Pool.load_step hpool id).trans (h.calm fd c hwait id hid)
  · have hne : ∀ e, m ≠ .child e := fun e he => hm ⟨e, he⟩
    refine ⟨fun id => ?_, fun fd c hwait id hid => ?_⟩
    · rw [step_fill hs hne]
      exact h.fill id
    · obtain ⟨henter, hserver, hpool⟩ := step_wait hs hne hwait
      rw [hpool]
      exact hroom henter id (hserver ▸ hid)

theorem Session.Flowing.unfrozen {cap : ℕ} {x : Session} (h : x.Flowing cap) : x.Unfrozen cap :=
  fun fd c hwait _ hp id hid => Pool.not_blocked hp (h.calm fd c hwait id hid)

/-- The children do not lead out of the invariant. -/
theorem Session.Flowing.safe {cap : ℕ} {x : Session} (h : x.Flowing cap) : x.Safe cap := by
  intro es
  induction es generalizing x with
  | nil =>
    intro y hy
    cases hy
    exact h.unfrozen
  | cons e es ih =>
    intro y hy
    obtain ⟨x₁, hx₁, hy⟩ := runWith_cons hy
    exact ih (h.step (show x.Roomy cap (.child e) from False.elim) hx₁) y hy

/-- The steps of the children alone. -/
theorem Session.run_children {cap : ℕ} : ∀ (es : List PoolEvent) {x : Session} {pool : Pool ℕ},
    runWith (Pool.step cap x.phase.server.kernel.holdsRead) x.pool es = some pool →
    runWith (step cap) x (es.map .child) = some { x with pool := pool }
  | [], x, pool, h => by
    cases h
    rfl
  | e :: es, x, pool, h => by
    obtain ⟨p₁, hp₁, hrest⟩ := runWith_cons h
    have hstep : x.step cap (.child e) = some { x with pool := p₁ } := by
      rw [step, hp₁, Option.map_some]
    rw [List.map_cons, runWith_step hstep]
    exact run_children es hrest

/-- When the `wait` loop is entered without room, the children can freeze the server. -/
theorem Session.Flowing.freezes {cap : ℕ} {x y : Session} {m : Move} (h : x.Flowing cap)
    (hroom : ¬ x.Roomy cap m) (hs : x.step cap m = some y) : ¬ y.Safe cap := by
  simp only [Session.Roomy, Session.Calm, Classical.not_imp, not_forall, not_le] at hroom
  obtain ⟨henter, id, hunread, hload⟩ := hroom
  cases m with
  | endLine =>
    simp only [Session.EntersWait] at henter
    split at henter
    · next fd inp pc c hphase =>
      simp only [Session.step, hphase, henter, Bool.false_eq_true, if_false, Option.some.injEq] at hs
      subst hs
      rw [hphase] at hunread
      have hfill := h.fill id
      obtain ⟨es, pool, hrun, p, hp, hblocked⟩ := Pool.blocks cap
        (c.leave.kernel.holdsRead) id (cap - x.pool.fill id) x.pool (by omega) hload
      intro hsafe
      have hchildren := @Session.run_children cap es ⟨.wait fd c, x.pool⟩ pool hrun
      exact hsafe es _ hchildren fd c rfl p hp id hunread hblocked
    · exact henter.elim
  | accept _ _ _ => exact henter.elim
  | line _ _ => exact henter.elim
  | eof _ => exact henter.elim
  | process _ _ => exact henter.elim
  | waited => exact henter.elim
  | child _ => exact henter.elim

/-- A run of the server can never freeze, whatever its children do, exactly when every unread pipe has
    room for all that is still to come whenever the `wait` loop is entered. -/
theorem server_unfrozen_iff (cap : ℕ) (environ : Environ) (ms : List Move) (x : Session)
    (hrun : runWith (Session.step cap) (Session.init environ) ms = some x) :
    Always (Session.step cap) (Session.Safe cap) (Session.init environ) ms ↔
      Meets (Session.step cap) (Session.Roomy cap) (Session.init environ) ms := by
  refine always_iff_meets (fun _ _ _ h hc hs => Session.Flowing.step h hc hs) (fun _ h => h.safe)
    (fun _ _ _ h hc hs => h.freezes hc hs) ⟨fun _ => Nat.zero_le _, fun _ _ hcon => ?_⟩ hrun
  cases hcon

/-- A user types `yes >1`, and `yes` writes `out` bytes. -/
def writerToItself (out : ℕ) : List Move :=
  [.accept [] 0 0, .line 7 (typedLine ['y', 'e', 's', ' ', '>', '1']), .process out 0, .endLine]

/-- Five bytes fit the pipe. -/
theorem server_unfrozen_five : ∃ x,
    runWith (Session.step 65536) (Session.init fun _ => none) (writerToItself 5) = some x ∧
      Always (Session.step 65536) (Session.Safe 65536) (Session.init fun _ => none) (writerToItself 5) := by
  have hsome : (runWith (Session.step 65536) (Session.init fun _ => none) (writerToItself 5)).isSome := by
    decide +kernel
  obtain ⟨x, hx⟩ := Option.isSome_iff_exists.mp hsome
  refine ⟨x, hx, (server_unfrozen_iff 65536 _ _ x hx).mpr ?_⟩
  have henter : ∀ {y : Session} {m : Move}, m ≠ .endLine → y.Roomy 65536 m := by
    intro y m hm hcon
    cases m <;> first | exact absurd rfl hm | exact hcon.elim
  refine .cons (henter (by simp)) fun y₁ h₁ => .cons (henter (by simp)) fun y₂ h₂ =>
    .cons (henter (by simp)) fun y₃ h₃ => .cons (fun _ id _ => ?_) fun _ _ => .nil
  have hprocs : ((runWith (Session.step 65536) (Session.init fun _ => none)
      ((writerToItself 5).take 3)).map fun y => y.pool.procs.map (·.outputs)) =
        some [[(some 0, 5), (none, 0)]] := by decide +kernel
  have hrun : runWith (Session.step 65536) (Session.init fun _ => none) ((writerToItself 5).take 3) =
      some y₃ := (runWith_step h₁ _).trans ((runWith_step h₂ _).trans (runWith_step h₃ []))
  rw [hrun, Option.map_some, Option.some.injEq] at hprocs
  have hfill : y₃.pool.fill = fun _ => 0 := by
    rw [Session.step_fill h₃ (by simp), Session.step_fill h₂ (by simp), Session.step_fill h₁ (by simp)]
    rfl
  obtain ⟨p, ps, hp⟩ := List.exists_cons_of_ne_nil (l := y₃.pool.procs) (by rintro h; simp [h] at hprocs)
  rw [hp, List.map_cons, List.cons.injEq, List.map_eq_nil_iff] at hprocs
  rw [Pool.load, hfill, hp, hprocs.2]
  simp only [List.map_cons, List.map_nil, List.sum_cons, List.sum_nil, Proc.owes, hprocs.1]
  split_ifs <;> simp

/-- 70000 bytes do not: the server waits for `yes`, and only a later line could read the pipe. -/
theorem server_frozen : ∃ x, runWith (Session.step 65536) (Session.init fun _ => none)
    (writerToItself 70000 ++ [.child (.write 0 0 65536)]) = some x ∧ ¬ x.Unfrozen 65536 := by
  have hend : ((runWith (Session.step 65536) (Session.init fun _ => none)
      (writerToItself 70000 ++ [.child (.write 0 0 65536)])).bind fun x => match x.phase with
        | .wait _ c => some (c.leave.namePipeRecord 1 1, c.leave.kernel.get ((c.leave.user 0).namePipe 0).1,
            x.pool.fill 0, decide (x.pool.procs.map (·.outputs) = [[(some 0, 4464), (none, 0)]]))
        | _ => none) = some (true, some (.pipeR 0), 65536, true) := by
    decide +kernel
  obtain ⟨x, hx, hend⟩ := Option.bind_eq_some_iff.mp hend
  refine ⟨x, hx, fun hfree => ?_⟩
  split at hend
  · next fd c hphase =>
    simp only [Option.some.injEq, Prod.mk.injEq, decide_eq_true_eq] at hend
    obtain ⟨hrec, hget, hfill, hprocs⟩ := hend
    obtain ⟨p, ps, hp⟩ := List.exists_cons_of_ne_nil (l := x.pool.procs) (by rintro h; simp [h] at hprocs)
    rw [hp, List.map_cons, List.cons.injEq] at hprocs
    have hunread : Unread x.phase.server 0 := by
      rw [hphase]
      exact Or.inl ⟨1, 1, hrec, hget⟩
    refine hfree fd c hphase p (by simp [hp]) 0 hunread ⟨⟨4464, ?_, by decide⟩, hfill.ge⟩
    rw [hprocs.1]
    exact List.mem_cons_self ..
  · cases hend

end NetProg.Server
