import NetProg.Shell.Delivery
import NetProg.Server.Concurrent

/-! The children that the lines of one user of the single-process server make.

    In the order of its own lines they are wired as its own schedule says, whatever the other users do in
    between, and the process loop of a line makes them one by one. -/

namespace NetProg.Server

open Shell (Pipeline APipe Screen Placed Pipes Targets Before childAt placed_of_spawn)

/-- User `u` of the server: its standard output is its socket. -/
abbrev onSocket (u : ℕ) : Screen (ℕ × APipe) := { ofUser u with out := .sock u, writes := rfl }

/-! ### The children of one user -/

/-- The lines of a user as its schedule sees them. -/
def inputsOf (u : ℕ) : List Event → List Shell.LineInput
  | [] => []
  | .login _ _ _ :: es => inputsOf u es
  | .blank _ _ :: es => inputsOf u es
  | .line w inp _ :: es => if w = u then inp.shell :: inputsOf u es else inputsOf u es

/-- The children of the lines of a user. -/
def spawnsOf (u : ℕ) : List Event → List (List Spawn) → List (List Spawn)
  | .login _ _ _ :: es, _ :: sps => spawnsOf u es sps
  | .blank _ _ :: es, _ :: sps => spawnsOf u es sps
  | .line w _ _ :: es, sp :: sps => if w = u then sp :: spawnsOf u es sps else spawnsOf u es sps
  | _, _ => []

theorem SessionWired.spawns_length {ρ : ℕ × APipe → ℕ} (u : ℕ) : ∀ {es past : List Event} {sps : List (List Spawn)},
    SessionWired ρ past es sps → (spawnsOf u es sps).length = (linesOf u es).length
  | [], _, [], _ => rfl
  | .login .. :: es, _, _ :: sps, ⟨_, h⟩ => (h.spawns_length u : (spawnsOf u es sps).length = (linesOf u es).length)
  | .blank .. :: es, _, _ :: sps, ⟨_, h⟩ => (h.spawns_length u : (spawnsOf u es sps).length = (linesOf u es).length)
  | .line w inp l :: es, _, sp :: sps, ⟨_, h⟩ => by
    have ih := spawns_length u h
    rw [spawnsOf, linesOf]
    split_ifs
    · rw [List.length_cons, List.length_cons, ih]
    · exact ih

/-- The children of the `k`-th line of a user are wired by the lines of this user before it. -/
theorem SessionWired.line {ρ : ℕ × APipe → ℕ} {u : ℕ} : ∀ {es past : List Event} {sps : List (List Spawn)},
    SessionWired ρ past es sps → ∀ {k : ℕ} {sp : List Spawn}, (spawnsOf u es sps)[k]? = some sp →
      ∃ inp l, (inputsOf u es)[k]? = some inp.shell ∧ (linesOf u es)[k]? = some l ∧
        LineWired ρ u (linesOf u past ++ (linesOf u es).take k) inp l sp
  | [], _, [], _, k, sp, hk => by simp [spawnsOf] at hk
  | .login .. :: es, past, sp₀ :: sps, ⟨_, h⟩, k, sp, hk => by
    obtain ⟨inp, l, hin, hl, hw⟩ := h.line hk
    rw [linesOf_concat_login] at hw
    exact ⟨inp, l, hin, hl, hw⟩
  | .blank .. :: es, past, sp₀ :: sps, ⟨_, h⟩, k, sp, hk => by
    obtain ⟨inp, l, hin, hl, hw⟩ := h.line hk
    rw [linesOf_concat_blank] at hw
    exact ⟨inp, l, hin, hl, hw⟩
  | .line w inp₀ l₀ :: es, past, sp₀ :: sps, ⟨h₀, h⟩, k, sp, hk => by
    rw [spawnsOf] at hk
    rw [inputsOf, linesOf]
    by_cases hw : w = u
    · subst hw
      rw [if_pos rfl] at hk ⊢
      rw [if_pos rfl]
      cases k with
      | zero =>
        obtain rfl : sp₀ = sp := by simpa using hk
        have hline : LineWired ρ w (linesOf w past) inp₀ l₀ sp₀ := h₀
        exact ⟨inp₀, l₀, rfl, rfl, by simpa using hline⟩
      | succ k =>
        obtain ⟨inp, l, hin, hl, hwired⟩ := h.line (by simpa using hk)
        rw [linesOf_concat_line, if_pos rfl] at hwired
        exact ⟨inp, l, hin, hl, by simpa using hwired⟩
    · rw [if_neg hw] at hk ⊢
      rw [if_neg hw]
      obtain ⟨inp, l, hin, hl, hwired⟩ := h.line hk
      rw [linesOf_concat_line, if_neg hw] at hwired
      exact ⟨inp, l, hin, hl, hwired⟩

theorem SessionWired.placed {progs : ℕ × ℕ → StreamProgram UInt8} {ρ : ℕ × APipe → ℕ} {u : ℕ} {es : List Event}
    {sps : List (List Spawn)} (h : SessionWired ρ [] es sps) {i : ℕ × ℕ} {s : Spawn} {m : NetNode Channel UInt8}
    (hi : childAt (spawnsOf u es sps) i = some s) (hm : m.blank = s.node (progs i)) :
    ∃ inp l, Placed (onSocket u) progs ρ (inputsOf u es) (linesOf u es) i m inp l := by
  rw [childAt, Option.bind_eq_some_iff] at hi
  obtain ⟨sp, hsp, hs⟩ := hi
  obtain ⟨inp, l, hin, hl, hw⟩ := h.line hsp
  have hlen : ((linesOf u es).take i.1).length = i.1 :=
    List.length_take_of_le (List.getElem?_eq_some_iff.mp hl).1.le
  have hprogram := congrArg List.length hw.program
  have h0 := hw.stdin i.2 s hs
  have h1 := hw.stdout i.2 s hs
  rw [linesOf, List.nil_append] at h0 h1
  rw [hlen] at h1
  rw [List.length_map, List.length_map] at hprogram
  exact ⟨inp.shell, l, placed_of_spawn hin hl (hprogram ▸ (List.getElem?_eq_some_iff.mp hs).1) h0 h1 hm⟩

theorem spawnsOf_concat (u : ℕ) (e : Event) (sp : List Spawn) : ∀ {es : List Event} {sps : List (List Spawn)},
    sps.length = es.length → spawnsOf u (es ++ [e]) (sps ++ [sp]) = spawnsOf u es sps ++ spawnsOf u [e] [sp]
  | [], [], _ => by simp [spawnsOf]
  | .login .. :: es, _ :: sps, h => by
    have hlen : sps.length = es.length := Nat.succ.inj h
    have ih := spawnsOf_concat u e sp hlen
    exact ih
  | .blank .. :: es, _ :: sps, h => by
    have hlen : sps.length = es.length := Nat.succ.inj h
    have ih := spawnsOf_concat u e sp hlen
    exact ih
  | .line w inp l :: es, _ :: sps, h => by
    have ih := spawnsOf_concat u e sp (Nat.succ.inj h)
    rw [List.cons_append, List.cons_append, spawnsOf, spawnsOf, ih]
    split_ifs
    · rw [List.cons_append]
    · rfl

/-! ### The events one by one -/

theorem play_length : ∀ {es : List Event} {s s' : Server} {sps : List (List Spawn)},
    s.play es = some (s', sps) → sps.length = es.length
  | [], s, s', sps, h => by
    obtain ⟨-, rfl⟩ := Prod.mk.inj (Option.some.inj h)
    rfl
  | e :: es, s, s', sps, h => by
    rw [play] at h
    obtain ⟨r, -, h⟩ := Option.bind_eq_some_iff.1 h
    obtain ⟨q, hq, heq⟩ := Option.map_eq_some_iff.1 h
    obtain ⟨rfl, rfl⟩ := Prod.mk.inj heq
    rw [List.length_cons, List.length_cons, play_length hq]

/-- One more event. -/
theorem play_concat (e : Event) : ∀ {es : List Event} {s s' : Server} {sps : List (List Spawn)},
    s.play es = some (s', sps) →
      s.play (es ++ [e]) = (s'.step (e.input s')).map fun r => (r.1, sps ++ [r.2.1])
  | [], s, s', sps, h => by
    obtain ⟨rfl, rfl⟩ := Prod.mk.inj (Option.some.inj h)
    rw [List.nil_append, play]
    cases s.step (e.input s) with
    | none => rfl
    | some r => rfl
  | x :: es, s, s', sps, h => by
    rw [play] at h
    obtain ⟨r, hr, h⟩ := Option.bind_eq_some_iff.1 h
    obtain ⟨q, hq, heq⟩ := Option.map_eq_some_iff.1 h
    obtain ⟨rfl, rfl⟩ := Prod.mk.inj heq
    rw [List.cons_append, play, hr, Option.bind_some, play_concat e hq]
    cases q.1.step (e.input q.1) with
    | none => rfl
    | some r' => rfl

/-- A line of the language is combined into its commands, and nothing in it is a user pipe. -/
structure Combined (s : Server) (u : ℕ) (l : Pipeline) (c : Call) : Prop where
  user : c.u = u
  process : c.process = l.cmds
  resolved : c.resolve = c
  noName : c.vars.namePipeOut = none
  ends : c.lineEndWithPipe = l.suffix.count.isSome
  spawned : c.spawned = []

theorem applySuffix_names {opens : Opens} {p q : Shell.Parsed} {suf : Shell.Suffix}
    (h : Shell.applySuffix opens p suf = some q) : q.process = p.process ∧
      q.vars.namePipeIn = p.vars.namePipeIn ∧ q.vars.namePipeOut = p.vars.namePipeOut := by
  have hnumber : ∀ (v : Vars) (n : ℤ), (v.numberPipe n).namePipeIn = v.namePipeIn ∧
      (v.numberPipe n).namePipeOut = v.namePipeOut := fun v n => by
    unfold Vars.numberPipe
    split <;> exact ⟨rfl, rfl⟩
  cases suf with
  | none =>
    obtain rfl := Option.some.inj h
    exact ⟨rfl, rfl, rfl⟩
  | pipe ds =>
    obtain rfl := Option.some.inj h
    exact ⟨rfl, hnumber _ _⟩
  | shock ds =>
    obtain rfl := Option.some.inj h
    exact ⟨rfl, hnumber _ _⟩
  | file name =>
    obtain ⟨v, hv, rfl⟩ := Option.map_eq_some_iff.1 h
    refine ⟨rfl, ?_⟩
    unfold Vars.createFile at hv
    split at hv
    · cases hv
    · split_ifs at hv <;> obtain rfl := Option.some.inj hv <;> exact ⟨rfl, rfl⟩

theorem exists_applySuffix (s : Server) (u : ℕ) (opens : Opens) (cmds : List (List Token)) {suf : Shell.Suffix}
    (hname : ∀ name, suf = .file name → name.length < 100) :
    ∃ q, Shell.applySuffix opens ⟨(startCall s u).vars, cmds, false⟩ suf = some q := by
  cases suf with
  | none => exact ⟨_, rfl⟩
  | pipe ds => exact ⟨_, rfl⟩
  | shock ds => exact ⟨_, rfl⟩
  | file name =>
    have hlen : name.length ≤ (startCall s u).vars.redirectionFileName.length := by
      have := hname name rfl
      rw [show (startCall s u).vars.redirectionFileName.length = 100 from List.length_replicate]
      omega
    simp only [Shell.applySuffix, Vars.createFile, strncpy, if_pos hlen]
    split_ifs <;> exact ⟨_, rfl⟩

theorem parse_combined {inp : LineInput} {l : Pipeline} (hr : Reads inp l)
    (hname : ∀ name, l.suffix = .file name → name.length < 100) (s : Server) (u : ℕ) :
    ∃ c, parse s u inp = .ok c ∧ Combined s u l c := by
  obtain ⟨q, hq⟩ := exists_applySuffix s u inp.opens l.cmds hname
  obtain ⟨entries, hparse⟩ := parse_line hr s u hq
  obtain ⟨hprocess, hin, hout⟩ := applySuffix_names hq
  refine ⟨_, hparse, rfl, hprocess, ?_, hout, ?_, rfl⟩
  · change ({ (startCall s u).adopt q entries with
      vars := { q.vars with namePipeIn := none, namePipeOut := none } } : Call) = _
    rw [noName_eq hin hout]
    rfl
  · exact (Shell.applySuffix_ends hq).trans (Bool.false_or _)

theorem execRow_external {inp : LineInput} {pc : ℕ} {last : Bool} {argv : List Token} {c : Call}
    (h : External argv) (hout : c.vars.namePipeOut = none) :
    execRow inp pc last argv c = .next { c with
      vars := (c.vars.forkProcess inp.opens pc last).1
      spawned := c.spawned ++ [⟨argv, (c.vars.forkProcess inp.opens pc last).2⟩] } := by
  obtain ⟨hne, -, hbuiltin⟩ := h
  obtain ⟨cmd, args, rfl⟩ := List.exists_cons_of_ne_nil hne
  have hcmd : ∀ b ∈ builtinCmds, cmd ≠ b := fun b hb hcon => hbuiltin b hb (congrArg some hcon)
  rw [execRow.eq_def]
  dsimp only
  rw [if_neg (hcmd _ (by decide)), if_neg (hcmd _ (by decide)), if_neg (hcmd _ (by decide)),
    if_neg (hcmd _ (by decide)), if_neg (hcmd _ (by decide)), if_neg (hcmd _ (by decide)),
    if_neg (hcmd _ (by decide)), if_neg (hcmd _ (by decide))]
  simp [Call.fork, hout]

end NetProg.Server
