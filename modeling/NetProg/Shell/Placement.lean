import NetProg.Programs
import NetProg.Shell.Countdown
import NetProg.Shell.Meaning

/-! Programs that are commands of a session, wired as the absolute schedule says.

    What the standard descriptors of the shell stand for and how its pipes are named is left open, so a
    shell of its own and one user of many are placed in the same way. -/

namespace NetProg.Shell

/-- A setting whose standard output is a channel. -/
structure Screen (α : Type*) extends Setting α where
  out : Channel
  writes : writeChannel (some (std 1)) = some out

/-- The pipes of the schedule and the standard output. -/
def Screen.channels {α : Type*} (S : Screen α) (ρ : α → ℕ) : Channels Channel :=
  ⟨fun L => .pipe (ρ (S.name (.num L))), fun L c => .pipe (ρ (S.name (.normal L c))), S.out⟩

theorem Screen.out_ne_pipe {α : Type*} (S : Screen α) (id : ℕ) : S.out ≠ .pipe id := by
  intro hout
  have hw := S.writes
  rw [hout] at hw
  cases hd : S.std 1 with
  | pipeW id' => exact (S.std_ne 1 id').2 hd
  | own n =>
    rw [hd] at hw
    rcases n with - | - | n <;> cases hw
  | pipeR id' => exact (S.std_ne 1 id').1 hd
  | file name =>
    rw [hd] at hw
    cases hw
  | listen =>
    rw [hd] at hw
    cases hw
  | sock n =>
    rw [hd] at hw
    cases hw

theorem Screen.std_reads {α : Type*} (S : Screen α) (i : ℕ) : readChannel (some (S.std i)) = none := by
  cases hd : S.std i with
  | pipeR id => exact absurd hd (S.std_ne i id).1
  | _ => rfl

/-- The command `i.2` of line `i.1` comes before the command `j.2` of line `j.1`. -/
def Before (i j : ℕ × ℕ) : Prop := i.1 < j.1 ∨ i.1 = j.1 ∧ i.2 < j.2

/-- The command that reads a pipe. -/
def APipe.reader : APipe → ℕ × ℕ
  | .num L => (L - 1, 0)
  | .normal L c => (L - 1, c + 1)

/-- Only earlier lines target a line. -/
theorem targets_take {ls : List Pipeline} (hok : ∀ l ∈ ls, l.suffix.Ok) (j : ℕ) :
    Targets (ls.take j) (j + 1) ↔ Targets ls (j + 1) := by
  constructor
  · rintro ⟨a, b, n, ha, hn, hab⟩
    rw [List.getElem?_take] at ha
    split_ifs at ha
    exact ⟨a, b, n, ha, hn, hab⟩
  · rintro ⟨a, b, n, ha, hn, hab⟩
    have := (hok b (List.mem_of_getElem? ha)).one_le hn
    exact ⟨a, b, n, by rw [List.getElem?_take, if_pos (by omega), ha], hn, hab⟩

/-- A running program is command `i.2` of line `i.1`, wired as the schedule says. -/
structure Placed {α : Type*} (S : Screen α) (progs : ℕ × ℕ → StreamProgram UInt8) (ρ : α → ℕ)
    (ins : List LineInput) (ls : List Pipeline) (i : ℕ × ℕ) (m : NetNode Channel UInt8) (inp : LineInput)
    (l : Pipeline) : Prop where
  input : ins[i.1]? = some inp
  line : ls[i.1]? = some l
  cmd : i.2 < l.cmds.length
  program : m.program = progs i
  source : m.source = readChannel (some (S.desc ρ (stdinEnd (ls.take i.1) i.2)))
  sink : m.sink = writeChannel (some (S.desc ρ (stdoutEnd (i.1 + 1) inp l i.2)))
  holds : ∀ k, m.sink = some k → k ∈ m.holds

/-- The child that is command `i.2` of line `i.1`. -/
def childAt (sps : List (List Spawn)) (i : ℕ × ℕ) : Option Spawn := sps[i.1]?.bind (·[i.2]?)

theorem childAt_append {sps : List (List Spawn)} (x : List Spawn) {i : ℕ × ℕ} (h : i.1 < sps.length) :
    childAt (sps ++ [x]) i = childAt sps i := by
  rw [childAt, childAt, List.getElem?_append_left h]

theorem childAt_last {sps : List (List Spawn)} (x : List Spawn) {i : ℕ × ℕ} (h : i.1 = sps.length) :
    childAt (sps ++ [x]) i = x[i.2]? := by
  rw [childAt, h, List.getElem?_concat_length]
  rfl

/-- A child wired as the schedule says becomes a program placed there. -/
theorem placed_of_spawn {α : Type*} {S : Screen α} {progs : ℕ × ℕ → StreamProgram UInt8} {ρ : α → ℕ}
    {ins : List LineInput} {ls : List Pipeline} {i : ℕ × ℕ} {inp : LineInput} {l : Pipeline} {s : Spawn}
    {m : NetNode Channel UInt8} (hin : ins[i.1]? = some inp) (hl : ls[i.1]? = some l) (hc : i.2 < l.cmds.length)
    (h0 : s.fds.get 0 = some (S.desc ρ (stdinEnd (ls.take i.1) i.2)))
    (h1 : s.fds.get 1 = some (S.desc ρ (stdoutEnd (i.1 + 1) inp l i.2)))
    (hm : m.blank = s.node (progs i)) : Placed S progs ρ ins ls i m inp l where
  input := hin
  line := hl
  cmd := hc
  program := congrArg NetNode.program hm
  source := by
    have hsource : m.source = readChannel (s.fds.get 0) := congrArg NetNode.source hm
    rw [hsource, h0]
  sink := by
    have hsink : m.sink = writeChannel (s.fds.get 1) := congrArg NetNode.sink hm
    rw [hsink, h1]
  holds k hk := by
    have hsink : m.sink = writeChannel (s.fds.get 1) := congrArg NetNode.sink hm
    have hholds : m.holds = s.fds.slots.filterMap writeChannel := congrArg NetNode.holds hm
    rw [hholds]
    exact s.sink_holds (hsink ▸ hk)

namespace Placed

variable {α : Type*} {S : Screen α} {progs : ℕ × ℕ → StreamProgram UInt8} {ρ : α → ℕ} {ins : List LineInput}
  {ls : List Pipeline} {i : ℕ × ℕ} {m : NetNode Channel UInt8} {inp : LineInput} {l : Pipeline}

theorem length_take (h : Placed S progs ρ ins ls i m inp l) : (ls.take i.1).length = i.1 :=
  List.length_take_of_le (List.getElem?_eq_some_iff.mp h.line).1.le

/-- The first command of a line reads the number pipe of the line, if an earlier line targets it. -/
theorem source_num (h : Placed S progs ρ ins ls i m inp l) (hc : i.2 = 0)
    (hT : Targets (ls.take i.1) (i.1 + 1)) : m.source = some (.pipe (ρ (S.name (.num (i.1 + 1))))) := by
  rw [h.source, hc, stdinEnd, h.length_take, if_pos hT]
  rfl

/-- If none does, it reads from no pipe. -/
theorem source_none (h : Placed S progs ρ ins ls i m inp l) (hc : i.2 = 0)
    (hT : ¬ Targets (ls.take i.1) (i.1 + 1)) : m.source = none := by
  rw [h.source, hc, stdinEnd, h.length_take, if_neg hT]
  exact S.std_reads 0

/-- A later command reads the normal pipe behind the command before it. -/
theorem source_normal (h : Placed S progs ρ ins ls i m inp l) {c : ℕ} (hc : i.2 = c + 1) :
    m.source = some (.pipe (ρ (S.name (.normal (i.1 + 1) c)))) := by
  rw [h.source, hc, stdinEnd, h.length_take]
  rfl

/-- A command reads the pipe that is there for it. -/
theorem reads (h : Placed S progs ρ ins ls i m inp l) {k : Channel} (hk : m.source = some k) :
    ∃ p ∈ Pipes ls, p.reader = i ∧ k = .pipe (ρ (S.name p)) := by
  obtain ⟨j, c⟩ := i
  cases c with
  | zero =>
    rcases Classical.em (Targets (ls.take j) (j + 1)) with hT | hT
    · have hsource := (h.source_num rfl hT).symm.trans hk
      obtain ⟨a, b, n, ha, hn, hab⟩ := hT
      rw [List.getElem?_take] at ha
      split_ifs at ha
      exact ⟨.num (j + 1), ⟨a, b, n, ha, hn, hab⟩, rfl, (Option.some.inj hsource).symm⟩
    · rw [h.source_none rfl hT] at hk
      cases hk
  | succ c =>
    have hsource := (h.source_normal rfl).symm.trans hk
    exact ⟨.normal (j + 1) c, ⟨j, l, h.line, rfl, h.cmd⟩, rfl, (Option.some.inj hsource).symm⟩

/-- A command that is not the last of its line writes the normal pipe behind it. -/
theorem sink_normal (h : Placed S progs ρ ins ls i m inp l) (hc : i.2 + 1 < l.cmds.length) :
    m.sink = some (.pipe (ρ (S.name (.normal (i.1 + 1) i.2)))) := by
  rw [h.sink, stdoutEnd, if_pos hc]
  rfl

/-- The last command of a line writes the number pipe of the line its suffix targets. -/
theorem sink_num (h : Placed S progs ρ ins ls i m inp l) (hc : i.2 + 1 = l.cmds.length) {n : ℕ}
    (hn : l.suffix.count = some n) : m.sink = some (.pipe (ρ (S.name (.num (i.1 + 1 + n))))) := by
  rw [h.sink, stdoutEnd, if_neg (by omega)]
  cases hs : l.suffix with
  | none => simp [hs, Suffix.count] at hn
  | file name => simp [hs, Suffix.count] at hn
  | pipe ds =>
    rw [hs, Suffix.count, Option.some.injEq] at hn
    rw [← hn]
    rfl
  | shock ds =>
    rw [hs, Suffix.count, Option.some.injEq] at hn
    rw [← hn]
    rfl

/-- The last command of a line without suffix writes to the standard output of the shell. -/
theorem sink_out (h : Placed S progs ρ ins ls i m inp l) (hc : i.2 + 1 = l.cmds.length)
    (hs : l.suffix = .none) : m.sink = some S.out := by
  rw [h.sink, stdoutEnd, if_neg (by omega), hs]
  exact S.writes

/-- The last command of a line with `> name` writes to the file. -/
theorem sink_file (h : Placed S progs ρ ins ls i m inp l) (hc : i.2 + 1 = l.cmds.length) {name : Token}
    (hs : l.suffix = .file name) : m.sink = some (.file (openedName inp name)) := by
  rw [h.sink, stdoutEnd, if_neg (by omega), hs]
  rfl

/-- What a command writes: a pipe that is read later, or what the end of its line says. -/
theorem sink_cases (h : Placed S progs ρ ins ls i m inp l) :
    (i.2 + 1 < l.cmds.length ∧ m.sink = some (.pipe (ρ (S.name (.normal (i.1 + 1) i.2))))) ∨
    (i.2 + 1 = l.cmds.length ∧
      ((∃ n, l.suffix.count = some n ∧ m.sink = some (.pipe (ρ (S.name (.num (i.1 + 1 + n)))))) ∨
        (l.suffix = .none ∧ m.sink = some S.out) ∨
        ∃ name, l.suffix = .file name ∧ m.sink = some (.file (openedName inp name)))) := by
  rcases Nat.lt_or_ge (i.2 + 1) l.cmds.length with hc | hc
  · exact .inl ⟨hc, h.sink_normal hc⟩
  · have hlast : i.2 + 1 = l.cmds.length := le_antisymm h.cmd hc
    refine .inr ⟨hlast, ?_⟩
    cases hs : l.suffix with
    | none => exact .inr (.inl ⟨rfl, h.sink_out hlast hs⟩)
    | file name => exact .inr (.inr ⟨name, rfl, h.sink_file hlast hs⟩)
    | pipe ds => exact .inl ⟨_, rfl, h.sink_num hlast (by rw [hs]; rfl)⟩
    | shock ds => exact .inl ⟨_, rfl, h.sink_num hlast (by rw [hs]; rfl)⟩

/-- The pipe a command writes. -/
theorem sink_pipe (h : Placed S progs ρ ins ls i m inp l) {id : ℕ} (hk : m.sink = some (.pipe id)) :
    ∃ p ∈ Pipes ls, id = ρ (S.name p) ∧ ((p = .normal (i.1 + 1) i.2 ∧ i.2 + 1 < l.cmds.length) ∨
      ∃ n, p = .num (i.1 + 1 + n) ∧ l.suffix.count = some n ∧ i.2 + 1 = l.cmds.length) := by
  rcases h.sink_cases with ⟨hc, hs⟩ | ⟨hc, ⟨n, hn, hs⟩ | ⟨-, hs⟩ | ⟨name, -, hs⟩⟩ <;>
    rw [hs, Option.some.injEq] at hk
  · exact ⟨.normal (i.1 + 1) i.2, ⟨i.1, l, h.line, rfl, hc⟩, (Channel.pipe.inj hk).symm, .inl ⟨rfl, hc⟩⟩
  · exact ⟨.num (i.1 + 1 + n), ⟨i.1, l, n, h.line, hn, rfl⟩, (Channel.pipe.inj hk).symm, .inr ⟨n, rfl, hn, hc⟩⟩
  · exact absurd hk (S.out_ne_pipe id)
  · cases hk

/-- A pipe is written before it is read. -/
theorem writes (h : Placed S progs ρ ins ls i m inp l) (hok : l.suffix.Ok) {id : ℕ}
    (hk : m.sink = some (.pipe id)) : ∃ p ∈ Pipes ls, Before i p.reader ∧ id = ρ (S.name p) := by
  obtain ⟨p, hp, hid, ⟨rfl, -⟩ | ⟨n, rfl, hn, -⟩⟩ := h.sink_pipe hk
  · exact ⟨_, hp, .inr ⟨rfl, Nat.lt_succ_self _⟩, hid⟩
  · have := hok.one_le hn
    refine ⟨_, hp, .inl ?_, hid⟩
    change i.1 < i.1 + 1 + n - 1
    omega

/-- Who writes a pipe of the schedule: the command before a normal pipe, or the last command of a line
    with the target of a number pipe. -/
theorem writer_of (h : Placed S progs ρ ins ls i m inp l) (hinj : Set.InjOn (fun p => ρ (S.name p)) (Pipes ls))
    {p : APipe} (hp : p ∈ Pipes ls) (hk : m.sink = some (.pipe (ρ (S.name p)))) :
    (p = .normal (i.1 + 1) i.2 ∧ i.2 + 1 < l.cmds.length) ∨
      ∃ n, p = .num (i.1 + 1 + n) ∧ l.suffix.count = some n ∧ i.2 + 1 = l.cmds.length := by
  obtain ⟨q, hq, hid, hcases⟩ := h.sink_pipe hk
  obtain rfl := hinj hp hq hid
  exact hcases

/-- Who writes to the standard output of the shell is the last command of a line without suffix, unless
    the standard output is a file. -/
theorem writer_out (h : Placed S progs ρ ins ls i m inp l) (hout : ∀ f, S.out ≠ .file f)
    (hk : m.sink = some S.out) : l.suffix = .none ∧ i.2 + 1 = l.cmds.length := by
  rcases h.sink_cases with ⟨hc, hs⟩ | ⟨hc, ⟨n, hn, hs⟩ | ⟨hnone, -⟩ | ⟨name, -, hs⟩⟩
  · exact absurd (Option.some.inj (hk.symm.trans hs)) (S.out_ne_pipe _)
  · exact absurd (Option.some.inj (hk.symm.trans hs)) (S.out_ne_pipe _)
  · exact ⟨hnone, hc⟩
  · exact absurd (Option.some.inj (hk.symm.trans hs)) (hout _)

/-- Who writes to a file is the last command of a line. -/
theorem writer_file (h : Placed S progs ρ ins ls i m inp l) {f : List Char} (hk : m.sink = some (.file f)) :
    i.2 + 1 = l.cmds.length := by
  rcases h.sink_cases with ⟨hc, hs⟩ | ⟨hc, -⟩
  · rw [hk] at hs
    cases hs
  · exact hc

/-- A pipe has one reader. -/
theorem reader_eq (h : Placed S progs ρ ins ls i m inp l) (hinj : Set.InjOn (fun p => ρ (S.name p)) (Pipes ls))
    {j : ℕ × ℕ} {x : NetNode Channel UInt8} {inp' : LineInput} {l' : Pipeline}
    (h' : Placed S progs ρ ins ls j x inp' l') {k : Channel} (hk : m.source = some k) (hk' : x.source = some k) :
    i = j := by
  obtain ⟨p, hp, rfl, rfl⟩ := h.reads hk
  obtain ⟨q, hq, rfl, heq⟩ := h'.reads hk'
  rw [hinj hp hq (Channel.pipe.inj heq)]

/-- The writer of a pipe comes before its reader. -/
theorem before (h : Placed S progs ρ ins ls i m inp l) (hok : l.suffix.Ok)
    (hinj : Set.InjOn (fun p => ρ (S.name p)) (Pipes ls)) {j : ℕ × ℕ} {x : NetNode Channel UInt8}
    {inp' : LineInput} {l' : Pipeline} (h' : Placed S progs ρ ins ls j x inp' l') {k : Channel}
    (hk : m.sink = some k) (hk' : x.source = some k) : Before i j := by
  obtain ⟨p, hp, rfl, rfl⟩ := h'.reads hk'
  obtain ⟨q, hq, hbefore, hid⟩ := h.writes hok hk
  rwa [hinj hp hq hid]

theorem plugged (h : Placed S progs ρ ins ls i m inp l) (hok : ∀ l ∈ ls, l.suffix.Ok) :
    Plugged (S.channels ρ) progs ls i l m where
  line := h.line
  cmd := h.cmd
  program := h.program
  source_num hc hT := h.source_num hc ((targets_take hok i.1).2 hT)
  source_none hc hT := h.source_none hc fun hno => hT ((targets_take hok i.1).1 hno)
  source_normal _ hc := h.source_normal hc
  sink_normal hc := h.sink_normal hc
  sink_num hc _ hn := h.sink_num hc hn
  sink_terminal hc hs := h.sink_out hc hs

end Placed

end NetProg.Shell
