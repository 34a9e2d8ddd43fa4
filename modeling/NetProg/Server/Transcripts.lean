import NetProg.Server.Delivery

/-! What the users of the single-process server have been sent by their programs when all have ended.

    Each user has what a shell of its own would have shown it, prompts and notices aside: the users share
    one process, one descriptor table, one `wait` loop and the order in which their programs run, and none
    of it can be seen. -/

namespace NetProg.Server
namespace Flow

open Shell (Pipeline APipe Screen Placed Pipes Targets Meaning Unshared)

variable {progs : ℕ → ℕ × ℕ → StreamProgram UInt8} {cap : ℕ} {environ : Environ} {acts : List Event}
  {sps : List (List Spawn)} {t : Flow} {ρ : ℕ × APipe → ℕ}

/-- A run at the end: the server is in `select` and every program has ended. -/
structure Ended (progs : ℕ → ℕ × ℕ → StreamProgram UInt8) (environ : Environ) (ρ : ℕ × APipe → ℕ)
    (acts : List Event) (sps : List (List Spawn)) (t : Flow) : Prop where
  flowing : Flowing progs environ acts sps t
  proper : Proper acts
  counts : t.Counts acts
  quiet : t.net.quiet = true
  inj : Set.InjOn ρ (UserPipes acts)
  wired : SessionWired ρ [] acts sps

namespace Ended

theorem done (h : Ended progs environ ρ acts sps t) {i : ℕ × ℕ × ℕ} {m : NetNode Channel UInt8}
    (hi : t.net.node i = some m) : m.ended = true := by
  have hall := List.all_eq_true.1 h.quiet i (h.flowing.sound.ids i m hi)
  rw [hi] at hall
  exact hall

theorem placed (h : Ended progs environ ρ acts sps t) {i : ℕ × ℕ × ℕ} {m : NetNode Channel UInt8}
    (hi : t.net.node i = some m) : ∃ inp l,
      Placed (onSocket i.1) (progs i.1) ρ (inputsOf i.1 acts) (linesOf i.1 acts) i.2 m inp l :=
  h.flowing.follows.placed h.wired hi

/-- Every command of every line of a user has run. -/
theorem node (h : Ended progs environ ρ acts sps t) {u j c : ℕ} {l : Pipeline} (hl : (linesOf u acts)[j]? = some l)
    (hc : c < l.cmds.length) : ∃ m inp, t.net.node (u, j, c) = some m ∧
      Placed (onSocket u) (progs u) ρ (inputsOf u acts) (linesOf u acts) (j, c) m inp l := by
  have hlt := (List.getElem?_eq_some_iff.1 hl).1
  have hsp : j < (spawnsOf u acts sps).length := (h.wired.spawns_length u).symm ▸ hlt
  obtain ⟨inp, l', -, hl', hw⟩ := h.wired.line (List.getElem?_eq_getElem hsp)
  obtain rfl : l = l' := Option.some.inj (hl.symm.trans hl')
  have hlen := congrArg List.length hw.program
  rw [List.length_map, List.length_map] at hlen
  have hlt' : c < (spawnsOf u acts sps)[j].length := by omega
  have hnode := h.flowing.follows (u, j, c)
  rw [if_pos (.inl (by rw [(h.counts u).1]; exact hlt)), Shell.childAt, List.getElem?_eq_getElem hsp,
    Option.bind_some, List.getElem?_eq_getElem hlt', Option.map_some] at hnode
  obtain ⟨m, hm, -⟩ := Option.map_eq_some_iff.1 hnode
  obtain ⟨inp', l', hplaced⟩ := h.placed hm
  obtain rfl : l = l' := Option.some.inj (hl.symm.trans hplaced.line)
  exact ⟨m, inp', hm, hplaced⟩

/-- The run has run the lines of each user. -/
theorem delivered (h : Ended progs environ ρ acts sps t) (u : ℕ) :
    Shell.Delivered t.net (fun i => (u, i)) (fun i => i.2) ((onSocket u).channels ρ) (progs u) (linesOf u acts) where
  sound := h.flowing.sound
  spot_place _ := rfl
  cmds_ne l hl := (h.proper.line_ok hl).cmds_ne
  node j l c hl hc := by
    obtain ⟨m, inp, hm, hplaced⟩ := h.node hl hc
    exact ⟨m, hm, h.done hm, hplaced.plugged fun l hl => (h.proper.line_ok hl).suffix_ok⟩
  num_writer i m T hi hT hk := by
    obtain ⟨inp, l, hplaced⟩ := h.placed hi
    obtain ⟨q, hq, hid, -⟩ := hplaced.sink_pipe hk
    obtain ⟨w, i⟩ := i
    obtain rfl : u = w := user_eq h.inj (p := .num T) hT hq hid
    rcases hplaced.writer_of (injOn_user h.inj u) hT hk with ⟨hp, -⟩ | ⟨n, hp, hn, hc⟩
    · cases hp
    · rw [APipe.num.injEq] at hp
      exact ⟨l, n, rfl, hplaced.line, hn, hp.symm, hc⟩
  normal_writer i m j c l hi hl hc hk := by
    obtain ⟨inp, l', hplaced⟩ := h.placed hi
    have hmem : APipe.normal (j + 1) c ∈ Pipes (linesOf u acts) := ⟨j, l, hl, rfl, hc⟩
    obtain ⟨q, hq, hid, -⟩ := hplaced.sink_pipe hk
    obtain ⟨w, i⟩ := i
    obtain rfl : u = w := user_eq h.inj hmem hq hid
    rcases hplaced.writer_of (injOn_user h.inj u) hmem hk with ⟨hp, -⟩ | ⟨n, hp, -, -⟩
    · rw [APipe.normal.injEq] at hp
      have hline : i.1 = j := (Nat.succ.inj hp.1).symm
      exact Prod.ext rfl (Prod.ext hline hp.2.symm)
    · cases hp
  terminal_writer i m hi hk := by
    obtain ⟨inp, l, hplaced⟩ := h.placed hi
    obtain ⟨rfl, hnone, hc⟩ := sink_sock hplaced hk
    exact ⟨l, rfl, hplaced.line, hnone, hc⟩
  sorted := h.flowing.sorted u

end Ended

/-- A run over lines of the language that is back in `select` with nothing running. -/
theorem ended_of_run {es : List FlowEvent} {s : Server} (hrun : runWith (step progs cap) (init environ) es = some t)
    (hp : Proper (typed es)) (hselect : t.phase = .select s) (hquiet : t.net.quiet = true) :
    ∃ ρ sps, Ended progs environ ρ (typed es) sps t := by
  have hp' : Proper ([] ++ typed es) := hp
  obtain ⟨sps, hflowing⟩ := flowing_run hp' (flowing_init progs environ) hrun
  obtain ⟨ρ, hinj, hwired⟩ := wired_of_stands hp hflowing.stands
  have hst := hflowing.stands
  simp only [List.nil_append, Stands, hselect] at hst
  exact ⟨ρ, sps, hflowing, hp, hst.2, hquiet, hinj, hwired⟩

/-- However the lines of up to 30 users interleave and however their programs run meanwhile: when the
    server is back in `select` and all programs have ended, the lines of every user have sent each other
    and the socket of the user what they mean by themselves. When no two lines of a user send to the same
    line, its socket has got exactly the transcript of its lines in a shell of its own. -/
theorem users_transcripts (progs : ℕ → ℕ × ℕ → StreamProgram UInt8) (cap : ℕ) (environ : Environ)
    (es : List FlowEvent) (t : Flow) (s : Server) (u : ℕ)
    (hrun : runWith (step progs cap) (init environ) es = some t) (hallowed : Allowed 0 (typed es))
    (hfits : ∀ e ∈ typed es, e.Fits) (hselect : t.phase = .select s) (hquiet : t.net.quiet = true) :
    (∃ sent, Meaning (progs u) (linesOf u (typed es)) sent (t.net.content (.sock u))) ∧
      (Unshared (linesOf u (typed es)) →
        t.net.content (.sock u) = Shell.transcript (progs u) 0 (fun _ => []) (linesOf u (typed es))) := by
  obtain ⟨ρ, sps, h⟩ := ended_of_run hrun ⟨hallowed, hfits⟩ hselect hquiet
  refine ⟨⟨_, (h.delivered u).meaning⟩, fun hun => ?_⟩
  exact (h.delivered u).transcript (fun l hl => (h.proper.line_ok hl).suffix_ok) hun

/-- Two users: `ls |1` of the first, which writes two bytes, `cat` of the second meanwhile, and `cat` of
    the first. -/
def sharedRun : List FlowEvent :=
  [.client (.login [] 0 0), .client (.login [] 0 0),
    .client (.line 0 (typedLine ['l', 's', ' ', '|', '1']) ⟨[[['l', 's']]], .pipe ['1']⟩), .process,
    .child (.write (0, 0, 0) [104]), .endLine,
    .client (.line 1 (typedLine ['c', 'a', 't']) ⟨[[['c', 'a', 't']]], .none⟩), .process,
    .child (.eof (1, 0, 0)), .child (.eof (0, 0, 0)), .endLine, .child (.write (0, 0, 0) [105]),
    .child (.finish (1, 0, 0)), .child (.finish (0, 0, 0)), .waited,
    .client (.line 0 (typedLine ['c', 'a', 't']) ⟨[[['c', 'a', 't']]], .none⟩), .process,
    .child (.read (0, 1, 0) 2), .endLine, .child (.eof (0, 1, 0)), .child (.write (0, 1, 0) [104, 105]),
    .child (.finish (0, 1, 0)), .waited]

/-- The programs of that run. -/
def sharedProgs : ℕ → ℕ × ℕ → StreamProgram UInt8 :=
  fun u i => if u = 0 ∧ i.1 = 0 then .emit [104, 105] else .copy

theorem sharedRun_end : (runWith (step sharedProgs 2) (init fun _ => none) sharedRun).map
    (fun t => (t.net.quiet, t.net.content (.sock 0), match t.phase with | .select _ => true | _ => false)) =
      some (true, [104, 105], true) := by
  decide +kernel

theorem users_transcripts_shared : ∃ t, runWith (step sharedProgs 2) (init fun _ => none) sharedRun = some t ∧
    t.net.content (.sock 0) = [104, 105] ∧
    (∃ sent, Meaning (sharedProgs 0) (linesOf 0 (typed sharedRun)) sent (t.net.content (.sock 0))) ∧
      (Unshared (linesOf 0 (typed sharedRun)) → t.net.content (.sock 0) =
        Shell.transcript (sharedProgs 0) 0 (fun _ => []) (linesOf 0 (typed sharedRun))) := by
  obtain ⟨t, hrun, hend⟩ := Option.map_eq_some_iff.1 sharedRun_end
  simp only [Prod.mk.injEq] at hend
  obtain ⟨hquiet, hshown, hselect⟩ := hend
  cases hphase : t.phase with
  | select s =>
    refine ⟨t, hrun, hshown, users_transcripts sharedProgs 2 _ sharedRun t s 0 hrun ?_ ?_ hphase hquiet⟩
    · exact ⟨by decide, by decide, by decide, ⟨by decide, by decide, rfl, rfl⟩,
        by decide, ⟨by decide, by decide, rfl, rfl⟩, by decide, ⟨by decide, by decide, rfl, rfl⟩, trivial⟩
    · intro e he
      simp only [typed, sharedRun, List.filterMap_cons, FlowEvent.typed, List.filterMap_nil] at he
      fin_cases he
      · trivial
      · trivial
      · exact ⟨by decide, by decide, fun _ h => by cases h⟩
      · exact ⟨by decide, trivial, fun _ h => by cases h⟩
      · exact ⟨by decide, trivial, fun _ h => by cases h⟩
  | exec => rw [hphase] at hselect; cases hselect
  | wait => rw [hphase] at hselect; cases hselect

end Flow
end NetProg.Server
