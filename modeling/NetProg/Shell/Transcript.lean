import NetProg.Shell.Delivery

/-! What a session over well-formed lines has delivered when all its programs have ended.

    However the programs ran, the output of a line is that of its commands one after another, applied to
    what was sent to it, and the terminal shows the outputs of the lines without suffix in their order.
    When no two lines send to the same line, everything on the terminal is a function of the lines. -/

namespace NetProg.Shell
namespace Flow

variable {progs : ℕ × ℕ → StreamProgram UInt8} {cap : ℕ} {environ : Environ} {ins : List LineInput}
  {ls : List Pipeline} {sps : List (List Spawn)} {t : Flow} {ρ : APipe → ℕ}

/-- A session at the end: every line is done and every program has ended. -/
structure Ended (progs : ℕ × ℕ → StreamProgram UInt8) (environ : Environ) (ρ : APipe → ℕ)
    (ins : List LineInput) (ls : List Pipeline) (sps : List (List Spawn)) (t : Flow) : Prop where
  flowing : Flowing progs environ ins sps t
  proper : Proper ins ls
  prompt : t.phase = .prompt
  quiet : t.net.quiet = true
  inj : Set.InjOn ρ (Pipes ls)
  wired : RunWired ρ [] ins ls sps

namespace Ended

theorem done (h : Ended progs environ ρ ins ls sps t) {i : ℕ × ℕ} {m : NetNode Channel UInt8}
    (hi : t.net.node i = some m) : m.ended = true := by
  have hall := List.all_eq_true.1 h.quiet i (h.flowing.sound.ids i m hi)
  rw [hi] at hall
  exact hall

theorem placed (h : Ended progs environ ρ ins ls sps t) {i : ℕ × ℕ} {m : NetNode Channel UInt8}
    (hi : t.net.node i = some m) : ∃ inp l, Placed onTerminal progs ρ ins ls i m inp l :=
  h.flowing.follows.placed h.wired hi

/-- Every command of every line has run. -/
theorem node (h : Ended progs environ ρ ins ls sps t) {j c : ℕ} {l : Pipeline} (hl : ls[j]? = some l)
    (hc : c < l.cmds.length) :
    ∃ m inp, t.net.node (j, c) = some m ∧ Placed onTerminal progs ρ ins ls (j, c) m inp l := by
  have hst := h.flowing.stands
  simp only [Stands, h.prompt] at hst
  refine h.flowing.follows.node h.wired hl hc ?_
  rw [← hst.2.1, h.proper.1.length_eq]
  exact (List.getElem?_eq_some_iff.1 hl).1

/-- The session has run its lines. -/
theorem delivered (h : Ended progs environ ρ ins ls sps t) :
    Delivered t.net id id (onTerminal.channels ρ) progs ls where
  sound := h.flowing.sound
  spot_place _ := rfl
  cmds_ne l hl := by
    obtain ⟨j, hj⟩ := List.getElem?_of_mem hl
    have hlt : j < sps.length := h.wired.length ▸ (List.getElem?_eq_some_iff.1 hj).1
    obtain ⟨inp, l', hin, hl', -⟩ := h.wired.line (List.getElem?_eq_getElem hlt)
    obtain rfl : l = l' := Option.some.inj (hj.symm.trans hl')
    exact (h.proper.reads hin hj).ok.cmds_ne
  node j l c hl hc := by
    obtain ⟨m, inp, hm, hplaced⟩ := h.node hl hc
    exact ⟨m, hm, h.done hm, hplaced.plugged h.proper.suffixes_ok⟩
  num_writer i m T hi hT hk := by
    obtain ⟨inp, l, hplaced⟩ := h.placed hi
    rcases hplaced.writer_of h.inj hT hk with ⟨hp, -⟩ | ⟨n, hp, hn, hc⟩
    · cases hp
    · rw [APipe.num.injEq] at hp
      exact ⟨l, n, rfl, hplaced.line, hn, hp.symm, hc⟩
  normal_writer i m j c l hi hl hc hk := by
    obtain ⟨inp, l', hplaced⟩ := h.placed hi
    have hmem : APipe.normal (j + 1) c ∈ Pipes ls := ⟨j, l, hl, rfl, hc⟩
    rcases hplaced.writer_of h.inj hmem hk with ⟨hp, -⟩ | ⟨n, hp, -, -⟩
    · rw [APipe.normal.injEq] at hp
      exact Prod.ext (by simp only [id]; omega) hp.2.symm
    · cases hp
  terminal_writer i m hi hk := by
    obtain ⟨inp, l, hplaced⟩ := h.placed hi
    obtain ⟨hs, hc⟩ := hplaced.writer_out (by simp) hk
    exact ⟨l, rfl, hplaced.line, hs, hc⟩
  sorted := h.flowing.sorted

end Ended

/-- A run over well-formed lines that is back at the prompt with nothing running. -/
theorem ended_of_run {es : List FlowEvent} (hrun : runWith (step progs cap) (init environ) es = some t)
    (hp : Proper (typed es) ls) (hprompt : t.phase = .prompt) (hquiet : t.net.quiet = true) :
    ∃ ρ sps, Ended progs environ ρ (typed es) ls sps t := by
  have hp' : Proper ([] ++ typed es) ls := hp
  obtain ⟨sps, hflowing⟩ := flowing_run hp' (flowing_init progs environ) hrun
  obtain ⟨ρ, hinj, hwired⟩ := wired_of_stands hp hflowing.stands
  exact ⟨ρ, sps, hflowing, hp, hprompt, hquiet, hinj, hwired⟩

/-- Whenever a session over well-formed lines is back at the prompt and all its programs have ended,
    however they ran meanwhile: every line that sends to a later one has sent all its output, each byte
    once and in order, the commands of a line have worked on exactly what was sent to it, and the
    terminal shows the outputs of the lines without suffix one after another. -/
theorem pipelines_deliver (progs : ℕ × ℕ → StreamProgram UInt8) (cap : ℕ) (environ : Environ)
    (es : List FlowEvent) (ls : List Pipeline) (t : Flow)
    (hrun : runWith (step progs cap) (init environ) es = some t)
    (hr : List.Forall₂ Reads (typed es) ls) (hfits : ∀ l ∈ ls, l.suffix.Fits)
    (hprompt : t.phase = .prompt) (hquiet : t.net.quiet = true) :
    ∃ sent, Meaning progs ls sent (t.net.content .terminal) ∧
      ∀ j inp l name, (typed es)[j]? = some inp → ls[j]? = some l → l.suffix = .file name →
        ((t.net.sent (.file (openedName inp name))).filter fun x => x.1.1 = j).map (·.2) =
          lineOutput progs j l.cmds.length ((sent j).map (·.2)) := by
  obtain ⟨ρ, sps, h⟩ := ended_of_run hrun ⟨hr, hfits⟩ hprompt hquiet
  refine ⟨_, h.delivered.meaning, fun j inp l name hin hl hs => ?_⟩
  refine h.delivered.output hl (fun m hm hplug => ?_) fun x hx hxj => ?_
  · obtain ⟨inp', l', hplaced⟩ := h.placed hm
    obtain rfl : inp = inp' := Option.some.inj (hin.symm.trans hplaced.input)
    obtain rfl : l = l' := Option.some.inj (hl.symm.trans hplaced.line)
    have hne := hplug.cmd
    simp only at hne
    exact hplaced.sink_file (by simp only [id]; omega) hs
  · obtain ⟨m, hm, hsink⟩ := h.flowing.sound.writer _ x hx
    obtain ⟨inp', l', hplaced⟩ := h.placed hm
    have hl' := hplaced.line
    simp only [id] at hxj
    rw [hxj] at hl'
    obtain rfl : l = l' := Option.some.inj (hl.symm.trans hl')
    exact ⟨rfl, hplaced.writer_file hsink⟩

/-- `ls |1`, which writes two bytes, and `cat`, over pipes that take one byte. -/
def lsThenCat : List FlowEvent :=
  [.type (plainInput ['l', 's', ' ', '|', '1']), .process, .endLine, .child (.write (0, 0) [104]),
    .type (plainInput ['c', 'a', 't']), .process, .child (.read (1, 0) 1), .endLine,
    .child (.eof (0, 0)), .child (.write (0, 0) [105]), .child (.finish (0, 0)), .child (.read (1, 0) 1),
    .child (.eof (1, 0)), .child (.write (1, 0) [104, 105]), .child (.finish (1, 0)), .waited]

/-- The lines of that session. -/
def lsThenCatLines : List Pipeline := [⟨[[['l', 's']]], .pipe ['1']⟩, ⟨[[['c', 'a', 't']]], .none⟩]

/-- The programs of that session. -/
def lsCat : ℕ × ℕ → StreamProgram UInt8 := fun i => if i.1 = 0 then .emit [104, 105] else .copy

theorem reads_lsThenCat : List.Forall₂ Reads (typed lsThenCat) lsThenCatLines :=
  .cons ⟨by decide, by decide, by decide, rfl, rfl⟩ (.cons ⟨by decide, by decide, by decide, rfl, rfl⟩ .nil)

theorem lsThenCat_end : (runWith (step lsCat 1) (init fun _ => none) lsThenCat).map
    (fun t => (t.phase, t.net.quiet, t.net.content .terminal)) = some (.prompt, true, [104, 105]) := by
  rfl

theorem pipelines_deliver_ls_cat :
    ∃ t, runWith (step lsCat 1) (init fun _ => none) lsThenCat = some t ∧ t.net.content .terminal = [104, 105] ∧
      ∃ sent, Meaning lsCat lsThenCatLines sent (t.net.content .terminal) ∧
        ∀ j inp l name, (typed lsThenCat)[j]? = some inp → lsThenCatLines[j]? = some l →
          l.suffix = .file name →
          ((t.net.sent (.file (openedName inp name))).filter fun x => x.1.1 = j).map (·.2) =
            lineOutput lsCat j l.cmds.length ((sent j).map (·.2)) := by
  obtain ⟨t, hrun, hend⟩ := Option.map_eq_some_iff.1 lsThenCat_end
  obtain ⟨hprompt, hquiet, hshown⟩ : t.phase = .prompt ∧ t.net.quiet = true ∧
      t.net.content .terminal = [104, 105] := by simpa using hend
  exact ⟨t, hrun, hshown, pipelines_deliver lsCat 1 _ lsThenCat lsThenCatLines t hrun reads_lsThenCat (by decide)
    hprompt hquiet⟩

/-- When no two lines of a session send to the same line, the terminal shows what the lines show when
    each runs alone and to its end: neither the order in which the programs run nor the capacity of the
    pipes can be seen. -/
theorem session_transcript (progs : ℕ × ℕ → StreamProgram UInt8) (cap : ℕ) (environ : Environ)
    (es : List FlowEvent) (ls : List Pipeline) (t : Flow)
    (hrun : runWith (step progs cap) (init environ) es = some t)
    (hr : List.Forall₂ Reads (typed es) ls) (hfits : ∀ l ∈ ls, l.suffix.Fits) (hun : Unshared ls)
    (hprompt : t.phase = .prompt) (hquiet : t.net.quiet = true) :
    t.net.content .terminal = transcript progs 0 (fun _ => []) ls := by
  obtain ⟨ρ, sps, h⟩ := ended_of_run hrun ⟨hr, hfits⟩ hprompt hquiet
  refine h.delivered.transcript (fun l hl => ?_) hun
  obtain ⟨j, hj⟩ := List.getElem?_of_mem hl
  exact h.proper.suffix_ok hj

theorem unshared_lsThenCat : Unshared lsThenCatLines := by
  intro i j l l' n m hi hj hn hm _
  have hfirst : ∀ {i l n}, lsThenCatLines[i]? = some l → l.suffix.count = some n → i = 0 := fun {i l n} hi hn => by
    rcases i with - | - | i
    · rfl
    · obtain rfl := Option.some.inj hi
      cases hn
    · cases hi
  rw [hfirst hi hn, hfirst hj hm]

theorem session_transcript_ls_cat :
    ∃ t, runWith (step lsCat 1) (init fun _ => none) lsThenCat = some t ∧
      t.net.content .terminal = transcript lsCat 0 (fun _ => []) lsThenCatLines := by
  obtain ⟨t, hrun, hend⟩ := Option.map_eq_some_iff.1 lsThenCat_end
  obtain ⟨hprompt, hquiet, -⟩ : t.phase = .prompt ∧ t.net.quiet = true ∧
      t.net.content .terminal = [104, 105] := by simpa using hend
  exact ⟨t, hrun, session_transcript lsCat 1 _ lsThenCat lsThenCatLines t hrun reads_lsThenCat (by decide)
    unshared_lsThenCat hprompt hquiet⟩

end Flow
end NetProg.Shell
