import NetProg.Server.Flow
import NetProg.Server.Children

/-! What the pipelines of the users of the single-process server deliver.

    The programs of a run are the children of `play`, in that order, so the programs of all users form one
    network in which writers come before readers. While a program that writes to the socket of a user
    runs, no later line of this user is taken, so the socket is written line by line. -/

namespace NetProg.Server

open Shell (Pipeline APipe Screen Placed Pipes Targets Before childAt childAt_append childAt_last)

namespace Flow

variable {progs : ℕ → ℕ × ℕ → StreamProgram UInt8} {cap : ℕ} {environ : Environ} {acts : List Event}
  {sps : List (List Spawn)} {t t' : Flow} {ev : FlowEvent}

/-- A program is one of a command that has been forked. -/
def Forked (t : Flow) (i : ℕ × ℕ × ℕ) : Prop :=
  i.2.1 < t.lines i.1 ∨ i.2.1 = t.lines i.1 ∧ i.2.2 < t.forks i.1

instance (t : Flow) (i : ℕ × ℕ × ℕ) : Decidable (t.Forked i) := inferInstanceAs (Decidable (_ ∨ _))

/-- How far the lines of the users are done, and nothing of a line has been forked. -/
def Counts (t : Flow) (acts : List Event) : Prop := ∀ u, t.lines u = (linesOf u acts).length ∧ t.forks u = 0

/-- Where the server stands in the run over the events: at the end of it, inside the line that came last,
    or behind that line. -/
def Stands (environ : Environ) (acts : List Event) (sps : List (List Spawn)) (t : Flow) : Prop :=
  match t.phase with
  | .select s => (Server.init environ).play acts = some (s, sps) ∧ t.Counts acts
  | .exec fd inp rows pc c => ∃ acts₀ sps₀ s l, acts = acts₀ ++ [.line c.u inp l] ∧
      (Server.init environ).play acts₀ = some (s, sps₀) ∧ fd = (s.user c.u).sock ∧
      sps = sps₀ ++ [c.spawned ++ (Shell.forkRows inp.opens pc rows c.vars).2] ∧
      s.step (.line fd inp) = some (({ c with
        vars := (Shell.forkRows inp.opens pc rows c.vars).1
        spawned := c.spawned ++ (Shell.forkRows inp.opens pc rows c.vars).2 } : Call).leave.finish fd c.u false,
        c.spawned ++ (Shell.forkRows inp.opens pc rows c.vars).2, none) ∧
      (∀ row ∈ rows, External row) ∧ c.vars.namePipeOut = none ∧ c.lineEndWithPipe = l.suffix.count.isSome ∧
      ∀ u, t.lines u = (linesOf u acts₀).length ∧ t.forks u = if u = c.u then c.spawned.length else 0
  | .wait fd c => (Server.init environ).play acts = some (c.leave.finish fd c.u false, sps) ∧ t.Counts acts

/-- The children that have been forked so far are the programs of the network. -/
def Follows (progs : ℕ → ℕ × ℕ → StreamProgram UInt8) (acts : List Event) (sps : List (List Spawn))
    (t : Flow) : Prop :=
  ∀ i, (t.net.node i).map (·.blank) =
    if t.Forked i then (childAt (spawnsOf i.1 acts sps) i.2).map fun s => s.node (progs i.1 i.2) else none

/-- What a step can do. -/
inductive Moves (progs : ℕ → ℕ × ℕ → StreamProgram UInt8) (cap : ℕ) (t : Flow) : FlowEvent → Flow → Prop
  | client {e : Event} {s : Server} {u : Flow} (phase : t.phase = .select s)
      (input : t.input s (e.input s) = some u) : Moves progs cap t (.client e) u
  | process {fd : ℕ} {inp : LineInput} {row : List Token} {rows : List (List Token)} {pc : ℕ} {c c' : Call}
      (phase : t.phase = .exec fd inp (row :: rows) pc c)
      (exec : execRow inp pc rows.isEmpty row c = .next c') :
      Moves progs cap t .process { t with
        phase := .exec fd inp rows pc c'
        forks := Function.update t.forks c'.u (t.forks c'.u + (c'.spawned.length - c.spawned.length))
        net := t.forked progs c.spawned.length c' }
  | exited {fd : ℕ} {inp : LineInput} {row : List Token} {rows : List (List Token)} {pc : ℕ} {c c' : Call}
      (phase : t.phase = .exec fd inp (row :: rows) pc c)
      (exec : execRow inp pc rows.isEmpty row c = .exited c') :
      Moves progs cap t .process { t.lineDone c'.u with phase := .select (c'.leave.finish fd c'.u true) }
  | endLine {fd : ℕ} {inp : LineInput} {pc : ℕ} {c : Call} (phase : t.phase = .exec fd inp [] pc c) :
      Moves progs cap t .endLine { t.lineDone c.u with
        phase := if c.lineEndWithPipe then .select (c.leave.finish fd c.u false) else .wait fd c }
  | waited {fd : ℕ} {c : Call} (phase : t.phase = .wait fd c) (quiet : t.net.quiet = true) :
      Moves progs cap t .waited { t with phase := .select (c.leave.finish fd c.u false) }
  | child {e : NetEvent (ℕ × ℕ × ℕ) UInt8} {net : Net (ℕ × ℕ × ℕ) Channel UInt8}
      (move : Net.Stepped (room cap) t.phase.server.kernel.holdsWrite t.net e net) :
      Moves progs cap t (.child e) { t with net := net }

theorem moves (h : t.step progs cap ev = some t') : Moves progs cap t ev t' := by
  cases ev with
  | client e =>
    simp only [step] at h
    split at h
    · rename_i s hphase
      exact .client hphase h
    · cases h
  | process =>
    simp only [step] at h
    split at h
    · rename_i fd inp row rows pc c hphase
      split at h
      · rename_i c' hrow
        obtain rfl := Option.some.inj h
        exact .process hphase hrow
      · rename_i c' hrow
        obtain rfl := Option.some.inj h
        exact .exited hphase hrow
      · cases h
    · cases h
  | endLine =>
    simp only [step] at h
    split at h
    · rename_i fd inp pc c hphase
      obtain rfl := Option.some.inj h
      exact .endLine hphase
    · cases h
  | waited =>
    simp only [step] at h
    split at h
    · rename_i fd c hphase
      split_ifs at h with hq
      obtain rfl := Option.some.inj h
      exact .waited hphase hq
    · cases h
  | child e =>
    simp only [step, Option.map_eq_some_iff] at h
    obtain ⟨net, hnet, rfl⟩ := h
    exact .child (Net.stepped hnet)

/-- What the clients do is allowed. -/
def Proper (acts : List Event) : Prop := Allowed 0 acts ∧ ∀ e ∈ acts, e.Fits

/-- The server takes every event, and the children of each user are wired as its own lines say. -/
theorem Proper.play (hp : Proper acts) (environ : Environ) : ∃ s sps ρ m,
    (Server.init environ).play acts = some (s, sps) ∧ Set.InjOn ρ (UserPipes acts) ∧ SessionWired ρ [] acts sps ∧
      Serving m acts ρ s := by
  obtain ⟨s, sps, ρ, m, hplay, -, hserving, hwired⟩ :=
    play_wired acts [] 0 (fun _ => 0) (Server.init environ) (serving_init environ _) hp.1 hp.2
  exact ⟨s, sps, ρ, m, hplay, hserving.named.inj, hwired, hserving⟩

/-- The events before the last one are allowed too. -/
theorem allowed_front : ∀ {es fs : List Event} {n : ℕ}, Allowed n (es ++ fs) → Allowed n es
  | [], _, _, _ => trivial
  | .login .. :: _, _, _, ⟨hn, h⟩ => ⟨hn, allowed_front h⟩
  | .blank .. :: _, _, _, ⟨hu, hline, h⟩ => ⟨hu, hline, allowed_front h⟩
  | .line .. :: _, _, _, ⟨hu, hr, h⟩ => ⟨hu, hr, allowed_front h⟩

theorem Proper.front {fs : List Event} (hp : Proper (acts ++ fs)) : Proper acts :=
  ⟨allowed_front hp.1, fun e he => hp.2 e (List.mem_append_left _ he)⟩

/-- What is allowed after some events is allowed when they have been played. -/
theorem allowed_rest : ∀ {es fs past : List Event} {n : ℕ} {ρ : ℕ × APipe → ℕ} {s s' : Server}
    {sps : List (List Spawn)}, Serving n past ρ s → Allowed n (es ++ fs) → (∀ e ∈ es, e.Fits) →
    s.play es = some (s', sps) → ∃ m ρ', Serving m (past ++ es) ρ' s' ∧ Allowed m fs
  | [], fs, past, n, ρ, s, s', sps, h, ha, _, hplay => by
    obtain ⟨rfl, rfl⟩ := Prod.mk.inj (Option.some.inj hplay)
    exact ⟨n, ρ, by rwa [List.append_nil], ha⟩
  | e :: es, fs, past, n, ρ, s, s', sps, h, ha, hfits, hplay => by
    rw [play] at hplay
    obtain ⟨r, hr, hplay⟩ := Option.bind_eq_some_iff.1 hplay
    obtain ⟨q, hq, heq⟩ := Option.map_eq_some_iff.1 hplay
    obtain ⟨rfl, rfl⟩ := Prod.mk.inj heq
    have hrest := fun x hx => hfits x (List.mem_cons_of_mem e hx)
    rw [List.append_cons]
    cases e with
    | login addr port junk =>
      obtain ⟨hn, ha⟩ := ha
      obtain ⟨s₁, hs₁, h₁⟩ := h.login hn addr port junk
      obtain rfl := Option.some.inj (hr.symm.trans hs₁)
      exact allowed_rest h₁ ha hrest hq
    | blank u inp =>
      obtain ⟨hu, hblank, ha⟩ := ha
      obtain ⟨s₁, hs₁, h₁⟩ := h.blank hu hblank
      obtain rfl := Option.some.inj (hr.symm.trans hs₁)
      exact allowed_rest h₁ ha hrest hq
    | line u inp l =>
      obtain ⟨hu, hreads, ha⟩ := ha
      obtain ⟨s₁, sp, ρ₁, hs₁, -, h₁, -⟩ := h.line hu hreads (hfits _ (List.mem_cons_self ..)).2.1
      obtain rfl := Option.some.inj (hr.symm.trans hs₁)
      exact allowed_rest h₁ ha hrest hq

/-- The server after the events before the last one, and what it does with that one. -/
theorem Proper.last {e : Event} {s : Server} (hp : Proper (acts ++ [e]))
    (hplay : (Server.init environ).play acts = some (s, sps)) : ∃ m ρ r, Serving m acts ρ s ∧ Allowed m [e] ∧
      s.step (e.input s) = some r ∧ (Server.init environ).play (acts ++ [e]) = some (r.1, sps ++ [r.2.1]) := by
  obtain ⟨m, ρ, hserving, hallowed⟩ := allowed_rest (serving_init environ fun _ => 0) hp.1
    (fun x hx => hp.2 x (List.mem_append_left _ hx)) hplay
  obtain ⟨s', sps', -, -, hplay', -, -, -⟩ := hp.play environ
  have hconcat := play_concat e hplay
  rw [hplay', eq_comm] at hconcat
  obtain ⟨r, hr, heq⟩ := Option.map_eq_some_iff.1 hconcat
  exact ⟨m, ρ, r, hserving, hallowed, hr, hplay'.trans (congrArg some heq.symm)⟩

theorem find_of_serving {m u : ℕ} {ρ : ℕ × APipe → ℕ} {s : Server} (h : Serving m acts ρ s) (hu : u < m) :
    s.findFdUser (s.user u).sock = some u :=
  h.sound.findFdUser (hu.trans_le h.count) ((h.valid u).2 hu)

/-- An event without commands makes no children. -/
theorem follows_quiet {e : Event} {x : List Spawn} (hfo : Follows progs acts sps t) (hlen : sps.length = acts.length)
    (hnone : ∀ u, spawnsOf u [e] [x] = []) : Follows progs (acts ++ [e]) (sps ++ [x]) t := fun i => by
  rw [hfo i, spawnsOf_concat i.1 e x hlen, hnone, List.append_nil]

theorem spawns_length (hp : Proper acts) (hplay : ∃ s, (Server.init environ).play acts = some (s, sps)) (u : ℕ) :
    (spawnsOf u acts sps).length = (linesOf u acts).length := by
  obtain ⟨s, hs⟩ := hplay
  obtain ⟨s', sps', ρ, m, hplay', -, hwired, -⟩ := hp.play environ
  obtain ⟨-, rfl⟩ := Prod.mk.inj (Option.some.inj (hs.symm.trans hplay'))
  exact hwired.spawns_length u

/-- A line begins: what the process loop will do with its commands. -/
theorem begin_line {s : Server} {u fd : ℕ} {inp : LineInput} {l : Pipeline} {phase : Phase}
    {r : Server × List Spawn × Option PipeError} (hr : Reads inp l)
    (hname : ∀ name, l.suffix = .file name → name.length < 100) (hfind : s.findFdUser fd = some u)
    (hbegin : s.beginLine fd inp = some phase) (hs : s.step (.line fd inp) = some r) :
    ∃ c, Combined ((s.dupStd fd fd fd).setPath u) u l c ∧ phase = .exec fd inp l.cmds l.cmds.length c ∧
      r = (({ c with
        vars := (Shell.forkRows inp.opens l.cmds.length l.cmds c.vars).1
        spawned := (Shell.forkRows inp.opens l.cmds.length l.cmds c.vars).2 } : Call).leave.finish fd u false,
        (Shell.forkRows inp.opens l.cmds.length l.cmds c.vars).2, none) := by
  have hne : inp.line ≠ [] := by
    intro hnil
    have htok := hr.tokens_eq
    rw [hnil] at htok
    exact tokens_ne_nil hr.ok htok.symm
  obtain ⟨c, hparse, hc⟩ := parse_combined hr hname ((s.dupStd fd fd fd).setPath u) u
  refine ⟨c, hc, ?_, ?_⟩
  · simp only [beginLine, hfind] at hbegin
    split_ifs at hbegin
    simp only [hparse, Option.some.injEq] at hbegin
    rw [← hbegin, hc.process, hc.resolved]
  · have hrows := execRows_external inp l.cmds.length l.cmds c hr.ok.cmds_ok hc.noName
    simp only [Server.step, hfind] at hs
    split_ifs at hs
    cases hcall : npshell (s.dupStd fd fd fd) u inp with
    | none =>
      rw [hcall] at hs
      cases hs
    | some ret =>
      rw [hcall] at hs
      obtain rfl := Option.some.inj hs
      cases npshell_outcome hcall with
      | blank hnil => exact absurd hnil hne
      | rejected _ hp => rw [hparse] at hp; cases hp
      | ended _ hp hend =>
        obtain rfl := Parse.ok.inj (hparse.symm.trans hp)
        rw [hc.process, hc.resolved, hrows] at hend
        obtain rfl := Row.next.inj hend
        rw [hc.spawned, List.nil_append]
      | exited _ hp hend =>
        obtain rfl := Parse.ok.inj (hparse.symm.trans hp)
        rw [hc.process, hc.resolved, hrows] at hend
        cases hend

/-- One more event changes no child of the lines before. -/
theorem childAt_grow {e : Event} {x : List Spawn} {i : ℕ × ℕ × ℕ} (hlen : sps.length = acts.length)
    (hi : i.2.1 < (spawnsOf i.1 acts sps).length) :
    childAt (spawnsOf i.1 (acts ++ [e]) (sps ++ [x])) i.2 = childAt (spawnsOf i.1 acts sps) i.2 := by
  rw [spawnsOf_concat i.1 e x hlen, childAt, childAt, List.getElem?_append_left hi]

/-- Nothing of a line has been forked. -/
theorem Counts.lt_of_forked (hc : t.Counts acts) {i : ℕ × ℕ × ℕ} (hi : t.Forked i) :
    i.2.1 < (linesOf i.1 acts).length := by
  obtain ⟨hlines, hforks⟩ := hc i.1
  rcases hi with hlt | ⟨-, hlt⟩
  · exact hlines ▸ hlt
  · exact absurd (hforks ▸ hlt) (Nat.not_lt_zero _)

theorem exists_client {e : Event} {s : Server} {u : Flow} (hp : Proper (acts ++ [e])) (hphase : t.phase = .select s)
    (hst : Stands environ acts sps t) (hfo : Follows progs acts sps t) (hinput : t.input s (e.input s) = some u) :
    ∃ sps', Stands environ (acts ++ [e]) sps' u ∧ Follows progs (acts ++ [e]) sps' u := by
  simp only [Stands, hphase] at hst
  obtain ⟨hplay, hcounts⟩ := hst
  obtain ⟨m, ρ, r, hserving, hallowed, hr, hplay'⟩ := hp.last hplay
  have hlen := play_length hplay
  refine ⟨sps ++ [r.2.1], ?_⟩
  cases e with
  | login addr port junk =>
    simp only [input, Event.input, Option.map_eq_some_iff] at hinput hr
    obtain ⟨r', hr', rfl⟩ := hinput
    obtain rfl := Option.some.inj (hr.symm.trans hr')
    refine ⟨⟨hplay', fun w => ?_⟩, follows_quiet hfo hlen fun w => rfl⟩
    rw [linesOf_concat_login]
    exact hcounts w
  | blank w inp =>
    obtain ⟨hw, hblank, -⟩ := hallowed
    have hfind := find_of_serving hserving hw
    obtain ⟨s₁, hs₁, -⟩ := hserving.blank hw hblank
    obtain rfl := Option.some.inj (hr.symm.trans hs₁)
    simp only [input, Event.input, Option.map_eq_some_iff] at hinput
    obtain ⟨phase, hbegin, rfl⟩ := hinput
    have hphase' : phase = .select s₁ := by
      simp only [beginLine, hfind, hblank, if_true] at hbegin
      simp only [Event.input, Server.step, hfind] at hr
      split_ifs at hr hbegin
      obtain rfl := Option.some.inj hbegin
      simp only [npshell, hblank, if_true, Option.some.injEq, Prod.mk.injEq] at hr
      rw [← hr.1]
      rfl
    subst hphase'
    refine ⟨⟨hplay', fun x => ?_⟩, follows_quiet hfo hlen fun x => rfl⟩
    rw [linesOf_concat_blank]
    exact hcounts x
  | line w inp l =>
    obtain ⟨hw, hreads, -⟩ := hallowed
    have hfits := (hp.2 _ (List.mem_append_right _ (List.mem_singleton_self _))).2.2
    simp only [input, Event.input, Option.map_eq_some_iff] at hinput
    obtain ⟨phase, hbegin, rfl⟩ := hinput
    obtain ⟨c, hc, rfl, rfl⟩ := begin_line hreads hfits (find_of_serving hserving hw) hbegin hr
    obtain ⟨rfl⟩ := hc.user
    refine ⟨⟨acts, sps, s, l, rfl, hplay, rfl, ?_, ?_, hreads.ok.cmds_ok, hc.noName, hc.ends, fun x => ?_⟩, ?_⟩
    · rw [hc.spawned, List.nil_append]
    · rw [hc.spawned, List.nil_append]
      exact hr
    · obtain ⟨hlines, hforks⟩ := hcounts x
      refine ⟨hlines, ?_⟩
      rw [hc.spawned, hforks]
      exact (ite_self _).symm
    · intro i
      refine (hfo i).trans ?_
      change (if t.Forked i then _ else none) = if t.Forked i then _ else none
      split_ifs with hi
      · rw [childAt_grow hlen]
        rw [spawns_length hp.front ⟨s, hplay⟩]
        exact hcounts.lt_of_forked hi
      · rfl

/-- The child that the last line of a user makes at some place. -/
theorem childAt_line {w : ℕ} {inp : LineInput} {l : Pipeline} {x : List Spawn} {i : ℕ × ℕ × ℕ}
    (hlen : sps.length = acts.length) (hw : w = i.1) (hi : i.2.1 = (spawnsOf i.1 acts sps).length) :
    childAt (spawnsOf i.1 (acts ++ [.line w inp l]) (sps ++ [x])) i.2 = x[i.2.2]? := by
  rw [spawnsOf_concat i.1 _ x hlen, spawnsOf, if_pos hw]
  exact childAt_last x hi

/-- A call with one more child forks it. -/
theorem forked_concat (progs : ℕ → ℕ × ℕ → StreamProgram UInt8) (t : Flow) (c c' : Call) (x : Spawn)
    (h : c'.spawned = c.spawned ++ [x]) : t.forked progs c.spawned.length c' =
      t.net.fork (c'.u, t.lines c'.u, t.forks c'.u) (x.node (progs c'.u (t.lines c'.u, t.forks c'.u))) := by
  rw [forked, h, List.drop_left]

theorem follows_process {fd : ℕ} {inp : LineInput} {row : List Token} {rows : List (List Token)} {pc : ℕ}
    {c c' : Call} (hphase : t.phase = .exec fd inp (row :: rows) pc c)
    (hexec : execRow inp pc rows.isEmpty row c = .next c') (hp : Proper acts) (hst : Stands environ acts sps t)
    (hfo : Follows progs acts sps t) (hu : t' = { t with
        phase := .exec fd inp rows pc c'
        forks := Function.update t.forks c'.u (t.forks c'.u + (c'.spawned.length - c.spawned.length))
        net := t.forked progs c.spawned.length c' }) :
    Stands environ acts sps t' ∧ Follows progs acts sps t' := by
  simp only [Stands, hphase] at hst
  obtain ⟨acts₀, sps₀, s, l, rfl, hplay, hfd, rfl, hstep, hrows, hname, hends, hcounts⟩ := hst
  rw [execRow_external (hrows row (List.mem_cons_self ..)) hname, Row.next.injEq] at hexec
  obtain ⟨-, -, -, -, -, -, -, -, -, -, hkeep⟩ := Vars.forkProcess_fst c.vars inp.opens pc rows.isEmpty
  have hlines : (spawnsOf c.u acts₀ sps₀).length = t.lines c.u :=
    (spawns_length hp.front ⟨s, hplay⟩ c.u).trans (hcounts c.u).1.symm
  have hforks : t.forks c.u = c.spawned.length := (hcounts c.u).2.trans (if_pos rfl)
  set x : Spawn := ⟨row, (c.vars.forkProcess inp.opens pc rows.isEmpty).2⟩ with hx
  have hsp : c.spawned ++ (Shell.forkRows inp.opens pc (row :: rows) c.vars).2 = c.spawned ++ [x] ++
      (Shell.forkRows inp.opens pc rows (c.vars.forkProcess inp.opens pc rows.isEmpty).1).2 := by
    rw [Shell.forkRows, List.append_assoc, List.singleton_append]
  have hnet := forked_concat progs t c c' x (by rw [← hexec])
  subst hexec
  rw [List.length_append, Nat.add_sub_cancel_left, List.length_singleton] at hu
  rw [hsp] at hstep hfo ⊢
  subst hu
  refine ⟨⟨acts₀, sps₀, s, l, rfl, hplay, hfd, rfl, hstep, fun r hr => hrows r (List.mem_cons_of_mem _ hr),
    hkeep hname, hends, fun u => ⟨(hcounts u).1, ?_⟩⟩, fun i => ?_⟩
  · simp only [List.length_append, List.length_singleton, Function.update_apply]
    split_ifs with hw
    · rw [hforks]
    · rw [(hcounts u).2, if_neg hw]
  · simp only [hnet]
    rcases eq_or_ne i (c.u, t.lines c.u, t.forks c.u) with rfl | hi
    · have hchild : childAt (spawnsOf c.u (acts₀ ++ [.line c.u inp l]) (sps₀ ++ [c.spawned ++ [x] ++
          (Shell.forkRows inp.opens pc rows (c.vars.forkProcess inp.opens pc rows.isEmpty).1).2]))
          (t.lines c.u, t.forks c.u) = some x := by
        rw [childAt_line (i := (c.u, t.lines c.u, t.forks c.u)) (play_length hplay) rfl hlines.symm]
        simp [hforks]
      rw [if_pos (.inr ⟨rfl, by simp⟩), hchild]
      simp [Net.fork, Net.set, NetNode.blank, Spawn.node, NetNode.start]
    · refine (congrArg (Option.map _) (t.net.set_node_of_ne hi _)).trans ((hfo i).trans ?_)
      refine if_congr ?_ rfl rfl
      simp only [Forked, Function.update_apply]
      rw [Ne, Prod.ext_iff, Prod.ext_iff] at hi
      split_ifs with hw
      · rw [hw] at hi ⊢
        simp only [true_and] at hi
        omega
      · rfl

/-- With a line all its commands have been forked. -/
theorem forked_lineDone (t : Flow) (u : ℕ) (i : ℕ × ℕ × ℕ) :
    (t.lineDone u).Forked i ↔ t.Forked i ∨ i.1 = u ∧ i.2.1 = t.lines u := by
  simp only [Forked, lineDone, Function.update_apply]
  rcases eq_or_ne i.1 u with rfl | hne
  · simp only [if_true, Nat.not_lt_zero, and_false, or_false, true_and]
    omega
  · simp only [hne, if_false, false_and, or_false]

theorem follows_endLine {fd : ℕ} {inp : LineInput} {pc : ℕ} {c : Call} (hphase : t.phase = .exec fd inp [] pc c)
    (hp : Proper acts) (hst : Stands environ acts sps t) (hfo : Follows progs acts sps t)
    (hu : t' = { t.lineDone c.u with
        phase := if c.lineEndWithPipe then .select (c.leave.finish fd c.u false) else .wait fd c }) :
    Stands environ acts sps t' ∧ Follows progs acts sps t' := by
  simp only [Stands, hphase, Shell.forkRows, List.append_nil] at hst
  obtain ⟨acts₀, sps₀, s, l, rfl, hplay, rfl, rfl, hstep, -, -, -, hcounts⟩ := hst
  have hlines : (spawnsOf c.u acts₀ sps₀).length = t.lines c.u :=
    (spawns_length hp.front ⟨s, hplay⟩ c.u).trans (hcounts c.u).1.symm
  have hforks : t.forks c.u = c.spawned.length := (hcounts c.u).2.trans (if_pos rfl)
  have hplay' : (Server.init environ).play (acts₀ ++ [.line c.u inp l]) =
      some (c.leave.finish (s.user c.u).sock c.u false, sps₀ ++ [c.spawned]) := by
    rw [play_concat _ hplay, Event.input, hstep]
    rfl
  have hdone : (t.lineDone c.u).Counts (acts₀ ++ [.line c.u inp l]) := fun u => by
    simp only [lineDone, Function.update_apply, linesOf_concat_line]
    obtain ⟨hl, hf⟩ := hcounts u
    rcases eq_or_ne u c.u with rfl | hne
    · rw [if_pos rfl, if_pos rfl, if_pos rfl, List.length_append, hl]
      exact ⟨rfl, rfl⟩
    · rw [if_neg hne, if_neg hne, if_neg hne.symm, hf, if_neg hne]
      exact ⟨hl, rfl⟩
  subst hu
  refine ⟨?_, fun i => ?_⟩
  · cases c.lineEndWithPipe <;> exact ⟨hplay', hdone⟩
  · refine (hfo i).trans ?_
    have hforked := t.forked_lineDone c.u i
    by_cases hi : t.Forked i
    · rw [if_pos hi]
      exact (if_pos (hforked.2 (.inl hi))).symm
    · rw [if_neg hi]
      by_cases hi' : i.1 = c.u ∧ i.2.1 = t.lines c.u
      · -- behind the last command of the line
        obtain ⟨hu, hline⟩ := hi'
        refine ((if_pos (hforked.2 (.inr ⟨hu, hline⟩))).trans ?_).symm
        rw [childAt_line (play_length hplay) hu.symm (by rw [hu, hline, hlines]), List.getElem?_eq_none,
          Option.map_none]
        have hge := not_or.1 hi
        rw [hu, hline, hforks] at hge
        omega
      · exact (if_neg fun h => (hforked.1 h).elim hi hi').symm

theorem follows_step (hp : Proper (acts ++ ev.typed.toList)) (hst : Stands environ acts sps t)
    (hfo : Follows progs acts sps t) (h : Moves progs cap t ev t') :
    ∃ sps', Stands environ (acts ++ ev.typed.toList) sps' t' ∧ Follows progs (acts ++ ev.typed.toList) sps' t' := by
  cases h with
  | client phase input => exact exists_client hp phase hst hfo input
  | process phase exec =>
    rw [show acts ++ FlowEvent.process.typed.toList = acts from List.append_nil acts] at hp ⊢
    exact ⟨sps, follows_process phase exec hp hst hfo rfl⟩
  | exited phase exec =>
    simp only [Stands, phase] at hst
    obtain ⟨acts₀, sps₀, s, l, -, -, -, -, -, hrows, hname, -, -⟩ := hst
    rw [execRow_external (hrows _ (List.mem_cons_self ..)) hname] at exec
    cases exec
  | endLine phase =>
    rw [show acts ++ FlowEvent.endLine.typed.toList = acts from List.append_nil acts] at hp ⊢
    exact ⟨sps, follows_endLine phase hp hst hfo rfl⟩
  | waited phase quiet =>
    simp only [Stands, phase] at hst
    rw [show acts ++ FlowEvent.waited.typed.toList = acts from List.append_nil acts]
    exact ⟨sps, hst, hfo⟩
  | @child e net move =>
    rw [show acts ++ (FlowEvent.child e).typed.toList = acts from List.append_nil acts]
    exact ⟨sps, hst, fun i => (move.blank i).trans (hfo i)⟩

/-! ### The programs of all users are a network whose writers come before its readers -/

theorem play_of_stands (hp : Proper acts) (h : Stands environ acts sps t) :
    ∃ s, (Server.init environ).play acts = some (s, sps) := by
  unfold Stands at h
  split at h
  · exact ⟨_, h.1⟩
  · obtain ⟨acts₀, sps₀, s, l, rfl, hplay, rfl, rfl, hstep, -⟩ := h
    rw [play_concat _ hplay, Event.input, hstep]
    exact ⟨_, rfl⟩
  · exact ⟨_, h.1⟩

theorem wired_of_stands (hp : Proper acts) (hst : Stands environ acts sps t) :
    ∃ ρ, Set.InjOn ρ (UserPipes acts) ∧ SessionWired ρ [] acts sps := by
  obtain ⟨s, hs⟩ := play_of_stands hp hst
  obtain ⟨s', sps', ρ, m, hs', hinj, hwired, -⟩ := hp.play environ
  obtain ⟨-, rfl⟩ := Prod.mk.inj (Option.some.inj (hs.symm.trans hs'))
  exact ⟨ρ, hinj, hwired⟩

/-- Every running program is where the schedule of its user puts it. -/
theorem Follows.placed (hfo : Follows progs acts sps t) {ρ : ℕ × APipe → ℕ} (hwired : SessionWired ρ [] acts sps)
    {i : ℕ × ℕ × ℕ} {m : NetNode Channel UInt8} (hi : t.net.node i = some m) : ∃ inp l,
      Placed (onSocket i.1) (progs i.1) ρ (inputsOf i.1 acts) (linesOf i.1 acts) i.2 m inp l := by
  have hm := hfo i
  rw [hi, Option.map_some] at hm
  split_ifs at hm
  obtain ⟨c, hc, hcm⟩ := Option.map_eq_some_iff.1 hm.symm
  exact hwired.placed hc hcm.symm

theorem forked_of_node (hfo : Follows progs acts sps t) {i : ℕ × ℕ × ℕ} {m : NetNode Channel UInt8}
    (hi : t.net.node i = some m) : t.Forked i := by
  have hm := hfo i
  rw [hi, Option.map_some] at hm
  by_contra hno
  rw [if_neg hno] at hm
  cases hm

/-- The pipes of one user have names of their own. -/
theorem injOn_user {ρ : ℕ × APipe → ℕ} (hinj : Set.InjOn ρ (UserPipes acts)) (u : ℕ) :
    Set.InjOn (fun p => ρ ((onSocket u).name p)) (Pipes (linesOf u acts)) := by
  intro p hp q hq heq
  exact (Prod.mk.inj (@hinj (u, p) hp (u, q) hq heq)).2

theorem exists_reads {u : ℕ} {l : Pipeline} : ∀ {es : List Event} {n : ℕ}, Allowed n es → l ∈ linesOf u es →
    ∃ inp, Reads inp l
  | .login .. :: es, _, ⟨_, h⟩, hl => exists_reads h (show l ∈ linesOf u es from hl)
  | .blank .. :: es, _, ⟨_, _, h⟩, hl => exists_reads h (show l ∈ linesOf u es from hl)
  | .line w inp l' :: es, _, ⟨_, hr, h⟩, hl => by
    rw [linesOf] at hl
    split_ifs at hl
    · rcases List.mem_cons.1 hl with rfl | hl
      · exact ⟨inp, hr⟩
      · exact exists_reads h hl
    · exact exists_reads h hl

theorem Proper.line_ok (hp : Proper acts) {u : ℕ} {l : Pipeline} (hl : l ∈ linesOf u acts) : l.Ok External := by
  obtain ⟨inp, hr⟩ := exists_reads hp.1 hl
  exact hr.ok

/-- Who shares a pipe with a program of a user is a program of the same user. -/
theorem user_eq {ρ : ℕ × APipe → ℕ} (hinj : Set.InjOn ρ (UserPipes acts)) {u w : ℕ} {p q : APipe}
    (hp : p ∈ Pipes (linesOf u acts)) (hq : q ∈ Pipes (linesOf w acts))
    (h : ρ ((onSocket u).name p) = ρ ((onSocket w).name q)) : u = w :=
  (Prod.mk.inj (@hinj (u, p) hp (w, q) hq h)).1

/-- The next command to be forked goes before the readers of what it writes. -/
theorem wired_of_placed (hp : Proper acts) {ρ : ℕ × APipe → ℕ} (hinj : Set.InjOn ρ (UserPipes acts))
    {N : Net (ℕ × ℕ × ℕ) Channel UInt8} {i : ℕ × ℕ × ℕ} {m : NetNode Channel UInt8}
    (hi : ∃ inp l, Placed (onSocket i.1) (progs i.1) ρ (inputsOf i.1 acts) (linesOf i.1 acts) i.2 m inp l)
    (hN : ∀ j x, N.node j = some x → (j.1 = i.1 → Before j.2 i.2) ∧
      ∃ inp l, Placed (onSocket j.1) (progs j.1) ρ (inputsOf j.1 acts) (linesOf j.1 acts) j.2 x inp l) :
    Net.Sound.Wired N m := by
  obtain ⟨inp, l, hm⟩ := hi
  have hok := (hp.line_ok (List.mem_of_getElem? hm.line)).suffix_ok
  have hin := injOn_user hinj i.1
  refine ⟨hm.holds, fun j x k hj hx hk => ?_, fun j x k hj hx hk => ?_, fun k hk hk' => ?_⟩
  · obtain ⟨hji, inp', l', hplaced⟩ := hN j x hj
    obtain ⟨p, hpipe, -, rfl⟩ := hm.reads hk
    obtain ⟨q, hq, -, heq⟩ := hplaced.reads hx
    obtain ⟨w, j⟩ := j
    obtain rfl : i.1 = w := user_eq hinj hpipe hq (Channel.pipe.inj heq)
    have hbefore := hji rfl
    rw [hplaced.reader_eq hin hm hx hk] at hbefore
    simp only [Before] at hbefore
    omega
  · obtain ⟨hji, inp', l', hplaced⟩ := hN j x hj
    obtain ⟨q, hq, -, rfl⟩ := hplaced.reads hx
    obtain ⟨p, hpipe, -, heq⟩ := hm.writes hok hk
    obtain ⟨w, j⟩ := j
    obtain rfl : i.1 = w := (user_eq hinj hq hpipe heq).symm
    have hji := hji rfl
    have hbefore := hm.before hok hin hplaced hk hx
    simp only [Before] at hji hbefore
    omega
  · have hbefore := hm.before hok hin hm hk' hk
    simp only [Before] at hbefore
    omega

/-- A program belongs to the line the server waits behind. -/
def Awaited (t : Flow) (i : ℕ × ℕ × ℕ) : Prop :=
  ∃ fd c, t.phase = .wait fd c ∧ c.u = i.1 ∧ i.2.1 + 1 = t.lines i.1

/-- What holds at every moment: where the server stands, that its programs are those the lines ask for,
    that they form a network in which writers come before readers, that behind a line that ends in no
    number pipe everything has ended, and that every socket was written line by line. -/
structure Flowing (progs : ℕ → ℕ × ℕ → StreamProgram UInt8) (environ : Environ) (acts : List Event)
    (sps : List (List Spawn)) (t : Flow) : Prop where
  stands : Stands environ acts sps t
  follows : Follows progs acts sps t
  sound : t.net.Sound
  waited : ∀ i m l, t.net.node i = some m → (linesOf i.1 acts)[i.2.1]? = some l → l.suffix.count = none →
    i.2.1 < t.lines i.1 → ¬ t.Awaited i → m.ended = true
  sorted : ∀ u, (t.net.sent (.sock u)).Pairwise fun a b => a.1.2.1 ≤ b.1.2.1

theorem flowing_init (progs : ℕ → ℕ × ℕ → StreamProgram UInt8) (environ : Environ) :
    Flowing progs environ [] [] (init environ) where
  stands := ⟨rfl, fun _ => ⟨rfl, rfl⟩⟩
  follows i := by simp [init, Net.empty, Forked]
  sound := Net.sound_empty
  waited i m l hi := by simp [init, Net.empty] at hi
  sorted u := by simp [init, Net.empty]

theorem lines_le (hst : Stands environ acts sps t) (u : ℕ) : t.lines u ≤ (linesOf u acts).length := by
  unfold Stands at hst
  split at hst
  · exact (hst.2 u).1.le
  · obtain ⟨acts₀, sps₀, s, l, rfl, -, -, -, -, -, -, -, hcounts⟩ := hst
    rw [linesOf_append, List.length_append, (hcounts u).1]
    exact Nat.le_add_right _ _
  · exact (hst.2 u).1.le

theorem forked_cases (progs : ℕ → ℕ × ℕ → StreamProgram UInt8) (t : Flow) (n : ℕ) (c : Call) :
    t.forked progs n c = t.net ∨ ∃ x : Spawn, t.forked progs n c =
      t.net.fork (c.u, t.lines c.u, t.forks c.u) (x.node (progs c.u (t.lines c.u, t.forks c.u))) := by
  rw [forked]
  cases c.spawned.drop n with
  | nil => exact .inl rfl
  | cons x xs => exact .inr ⟨x, rfl⟩

/-- A program that runs after a row was executed ran before or belongs to the current line. -/
theorem node_forked {n : ℕ} {c : Call} {i : ℕ × ℕ × ℕ} {m : NetNode Channel UInt8}
    (hi : (t.forked progs n c).node i = some m) : t.net.node i = some m ∨ i.2.1 = t.lines i.1 := by
  rcases forked_cases progs t n c with hsame | ⟨x, hfork⟩
  · rw [hsame] at hi
    exact .inl hi
  · rw [hfork] at hi
    rcases Net.node_set_cases (N := t.net) hi with ⟨rfl, -⟩ | ⟨-, hi⟩
    · exact .inr rfl
    · exact .inl hi

/-- Forking the next command keeps the network sound. -/
theorem Flowing.sound_fork (h : Flowing progs environ acts sps t) (hp : Proper acts) {sps' : List (List Spawn)}
    (hst' : Stands environ acts sps' t') (hfo' : Follows progs acts sps' t') {u : ℕ} {x : Spawn}
    (hnet : t'.net = t.net.fork (u, t.lines u, t.forks u) (x.node (progs u (t.lines u, t.forks u)))) :
    t'.net.Sound := by
  obtain ⟨ρ, hinj, hwired⟩ := wired_of_stands hp hst'
  have hold : ∀ {j y}, t.net.node j = some y → j.1 = u → Before j.2 (t.lines u, t.forks u) := fun hj hju => by
    have hforked := forked_of_node h.follows hj
    rw [Forked, hju] at hforked
    exact hforked
  have hnone : t.net.node (u, t.lines u, t.forks u) = none := by
    cases hn : t.net.node (u, t.lines u, t.forks u) with
    | none => rfl
    | some y =>
      have hbefore := hold hn rfl
      simp only [Before] at hbefore
      omega
  have hnew : t'.net.node (u, t.lines u, t.forks u) = some (x.node (progs u (t.lines u, t.forks u))) := by
    rw [hnet]
    exact t.net.set_node_self _ _
  rw [hnet]
  refine h.sound.fork hnone
    (wired_of_placed hp hinj (hfo'.placed hwired hnew) fun j y hj => ⟨hold hj, hfo'.placed hwired ?_⟩)
  rw [hnet]
  refine (t.net.set_node_of_ne ?_ _).trans hj
  rintro rfl
  rw [hnone] at hj
  cases hj

/-- Who writes to the socket of a user is the last command of a line of this user without suffix. -/
theorem sink_sock {ρ : ℕ × APipe → ℕ} {i : ℕ × ℕ × ℕ} {m : NetNode Channel UInt8} {inp : Shell.LineInput}
    {l : Pipeline} {u : ℕ} (hm : Placed (onSocket i.1) (progs i.1) ρ (inputsOf i.1 acts) (linesOf i.1 acts) i.2 m inp l)
    (hsink : m.sink = some (.sock u)) : i.1 = u ∧ l.suffix = .none ∧ i.2.2 + 1 = l.cmds.length := by
  rcases hm.sink_cases with ⟨-, hs⟩ | ⟨hc, ⟨n, -, hs⟩ | ⟨hnone, hs⟩ | ⟨name, -, hs⟩⟩ <;> rw [hsink] at hs
  · cases hs
  · cases hs
  · exact ⟨(Channel.sock.inj (Option.some.inj hs)).symm, hnone, hc⟩
  · cases hs

/-- While a program runs that writes to the socket of its user, no program of a later line of this user
    has been forked. -/
theorem Flowing.before_socket (h : Flowing progs environ acts sps t) (hp : Proper acts) {i j : ℕ × ℕ × ℕ}
    {m x : NetNode Channel UInt8} {u : ℕ} (hi : t.net.node i = some m) (hrun : m.ended = false)
    (hsink : m.sink = some (.sock u)) (hj : t.net.node j = some x) (hxsink : x.sink = some (.sock u)) :
    j.2.1 ≤ i.2.1 := by
  by_contra hlt
  obtain ⟨ρ, -, hwired⟩ := wired_of_stands hp h.stands
  obtain ⟨inp, l, hm⟩ := h.follows.placed hwired hi
  obtain ⟨inp', l', hx⟩ := h.follows.placed hwired hj
  obtain ⟨hiu, hnone, -⟩ := sink_sock hm hsink
  obtain ⟨hju, -, -⟩ := sink_sock hx hxsink
  have hforked := forked_of_node h.follows hj
  rw [Forked, hju, ← hiu] at hforked
  have hended := h.waited i m l hi hm.line (by rw [hnone]; rfl) (by omega) ?_
  · rw [hrun] at hended
    cases hended
  · rintro ⟨fd, c, hphase, hu, hline⟩
    have hst := h.stands
    simp only [Stands, hphase] at hst
    have hforks := (hst.2 i.1).2
    omega

/-- What `select` reports changes no program. -/
theorem input_same {s : Server} {x : Input} (h : t.input s x = some t') : t'.net = t.net ∧ t'.lines = t.lines := by
  cases x <;> simp only [input, Option.map_eq_some_iff] at h <;> obtain ⟨r, -, rfl⟩ := h <;> exact ⟨rfl, rfl⟩

theorem not_awaited_of_ne (h : ∀ fd c, t.phase ≠ .wait fd c) (i : ℕ × ℕ × ℕ) : ¬ t.Awaited i :=
  fun ⟨fd, c, hphase, _⟩ => h fd c hphase

theorem Flowing.waited_step (h : Flowing progs environ acts sps t) (hm : Moves progs cap t ev t') :
    ∀ i m l, t'.net.node i = some m → (linesOf i.1 (acts ++ ev.typed.toList))[i.2.1]? = some l →
      l.suffix.count = none → i.2.1 < t'.lines i.1 → ¬ t'.Awaited i → m.ended = true := by
  intro i m l hi hl hcount hlines hwait
  have hle := lines_le h.stands i.1
  cases hm with
  | client phase hinput =>
    obtain ⟨hnet, hsame⟩ := input_same hinput
    rw [hnet] at hi
    rw [hsame] at hlines
    rw [FlowEvent.typed, linesOf_append, List.getElem?_append_left (by omega)] at hl
    exact h.waited i m l hi hl hcount hlines (not_awaited_of_ne (by simp [phase]) i)
  | process phase exec =>
    rw [show acts ++ FlowEvent.process.typed.toList = acts from List.append_nil acts] at hl
    rcases node_forked hi with hi | hline
    · exact h.waited i m l hi hl hcount hlines (not_awaited_of_ne (by simp [phase]) i)
    · exact absurd hlines (by simp only; omega)
  | exited phase exec =>
    have hst := h.stands
    simp only [Stands, phase] at hst
    obtain ⟨acts₀, sps₀, s, l, -, -, -, -, -, hrows, hname, -, -⟩ := hst
    rw [execRow_external (hrows _ (List.mem_cons_self ..)) hname] at exec
    cases exec
  | @endLine fd inp pc c phase =>
    rw [show acts ++ FlowEvent.endLine.typed.toList = acts from List.append_nil acts] at hl
    have hst := h.stands
    simp only [Stands, phase] at hst
    obtain ⟨acts₀, sps₀, s, l', rfl, -, -, -, -, -, -, hends, hcounts⟩ := hst
    simp only [lineDone, Function.update_apply] at hlines
    by_cases hlt : i.2.1 < t.lines i.1
    · exact h.waited i m l hi hl hcount hlt (not_awaited_of_ne (by simp [phase]) i)
    · -- the line that is done now: had it no number pipe, the server would be waiting
      have hu : i.1 = c.u := by
        by_contra hne
        rw [if_neg hne] at hlines
        exact hlt hlines
      rw [if_pos hu, ← hu] at hlines
      have hline : i.2.1 = (linesOf i.1 acts₀).length := by
        rw [← (hcounts i.1).1]
        omega
      rw [linesOf_concat_line, if_pos hu.symm, hline, List.getElem?_concat_length, Option.some.injEq] at hl
      rw [hl, hcount, Option.isSome_none] at hends
      refine absurd ⟨fd, c, ?_, hu.symm, ?_⟩ hwait
      · exact if_neg (by simp [hends])
      · simp only [lineDone, Function.update_apply]
        rw [if_pos hu, ← hu]
        omega
  | waited phase quiet =>
    have hall := List.all_eq_true.1 quiet i (h.sound.ids i m hi)
    simp only at hi
    rw [hi] at hall
    exact hall
  | @child e net move =>
    rw [show acts ++ (FlowEvent.child e).typed.toList = acts from List.append_nil acts] at hl
    have hblank := move.blank i
    simp only at hi
    rw [hi, Option.map_some] at hblank
    obtain ⟨m₀, hm₀, -⟩ := Option.map_eq_some_iff.1 hblank.symm
    have hended := h.waited i m₀ l hm₀ hl hcount hlines hwait
    obtain rfl := Option.some.inj (hi.symm.trans (move.ended hm₀ hended))
    exact hended

theorem Flowing.sorted_step (h : Flowing progs environ acts sps t) (hp : Proper acts)
    (hm : Moves progs cap t ev t') (u : ℕ) : (t'.net.sent (.sock u)).Pairwise fun a b => a.1.2.1 ≤ b.1.2.1 := by
  cases hm with
  | client phase hinput =>
    rw [(input_same hinput).1]
    exact h.sorted u
  | @process fd inp row rows pc c c' phase exec =>
    rcases forked_cases progs t c.spawned.length c' with hsame | ⟨x, hfork⟩
    · simp only [hsame]
      exact h.sorted u
    · simp only [hfork]
      exact h.sorted u
  | exited phase exec => exact h.sorted u
  | endLine phase => exact h.sorted u
  | waited phase quiet => exact h.sorted u
  | @child e net move =>
    rcases move.sent (.sock u) with hsame | ⟨i, m, chunk, hi, hrun, hsink, hsent⟩
    · simp only [hsame]
      exact h.sorted u
    · simp only [hsent]
      rw [List.pairwise_append]
      refine ⟨h.sorted u, ?_, fun x hx y hy => ?_⟩
      · rw [List.pairwise_map]
        exact List.pairwise_of_forall fun _ _ => le_rfl
      · obtain ⟨z, hz, hzsink⟩ := h.sound.writer (.sock u) x hx
        obtain ⟨c, -, rfl⟩ := List.mem_map.1 hy
        exact h.before_socket hp hi hrun hsink hz hzsink

theorem flowing_step (hp : Proper (acts ++ ev.typed.toList)) (h : Flowing progs environ acts sps t)
    (hm : Moves progs cap t ev t') : ∃ sps', Flowing progs environ (acts ++ ev.typed.toList) sps' t' := by
  obtain ⟨sps', hst', hfo'⟩ := follows_step hp h.stands h.follows hm
  refine ⟨sps', hst', hfo', ?_, h.waited_step hm, h.sorted_step hp.front hm⟩
  cases hm with
  | client phase hinput =>
    rw [(input_same hinput).1]
    exact h.sound
  | @process fd inp row rows pc c c' phase exec =>
    rcases forked_cases progs t c.spawned.length c' with hsame | ⟨x, hfork⟩
    · simp only [hsame]
      exact h.sound
    · rw [show acts ++ FlowEvent.process.typed.toList = acts from List.append_nil acts] at hp hst' hfo'
      exact h.sound_fork hp hst' hfo' hfork
  | exited phase exec => exact h.sound
  | endLine phase => exact h.sound
  | waited phase quiet => exact h.sound
  | child move => exact h.sound.step move

theorem flowing_run : ∀ {es : List FlowEvent} {acts : List Event} {sps : List (List Spawn)} {t t' : Flow},
    Proper (acts ++ typed es) → Flowing progs environ acts sps t → runWith (step progs cap) t es = some t' →
    ∃ sps', Flowing progs environ (acts ++ typed es) sps' t'
  | [], acts, sps, t, t', hp, h, hrun => by
    obtain rfl := Option.some.inj hrun
    refine ⟨sps, ?_⟩
    rw [show acts ++ typed [] = acts from List.append_nil acts]
    exact h
  | ev :: es, acts, sps, t, t', hp, h, hrun => by
    obtain ⟨u, hu, hrest⟩ := runWith_cons hrun
    have happ : acts ++ typed (ev :: es) = acts ++ ev.typed.toList ++ typed es := by
      rw [List.append_assoc, typed, List.filterMap_cons]
      cases ev.typed <;> rfl
    rw [happ] at hp ⊢
    obtain ⟨sps', h'⟩ := flowing_step hp.front h (moves hu)
    exact flowing_run hp h' hrest

end Flow

end NetProg.Server
