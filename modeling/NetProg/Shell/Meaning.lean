import NetProg.Lib.Network
import NetProg.Shell.Schedule

/-! What the lines of a session mean, whichever shell runs them.

    The commands of a line are functions on bytes, one behind the other; a line with a number pipe sends
    its output to a later line. A network of programs wired like that has done just this when all of it
    has ended, however its programs were scheduled: no more of the shell is needed than who reads and
    writes what, and that the terminal was written line by line. -/

namespace NetProg.Shell

/-- What the commands of line `j` up to number `c` write for some input of the line. -/
def lineOutput (progs : ℕ × ℕ → StreamProgram UInt8) (j : ℕ) : ℕ → List UInt8 → List UInt8
  | 0, x => x
  | c + 1, x => (progs (j, c)).whole (lineOutput progs j c x)

/-- What line `j` shows, when it reads what was sent to it. -/
def showing (progs : ℕ × ℕ → StreamProgram UInt8) (ls : List Pipeline) (sent : ℕ → List (ℕ × UInt8)) (j : ℕ) :
    List UInt8 :=
  match ls[j]? with
  | some l =>
    if l.suffix = .none then lineOutput progs j l.cmds.length ((sent j).map (·.2)) else []
  | none => []

/-- What the lines of a session send each other and show. A line with `|N` or `!N` sends its whole
    output to the line `N` further down, which reads what it is sent by all lines, in some order that
    keeps the order of the bytes of each; and the outputs of the lines without suffix are shown one
    after another. -/
structure Meaning (progs : ℕ × ℕ → StreamProgram UInt8) (ls : List Pipeline)
    (sent : ℕ → List (ℕ × UInt8)) (shown : List UInt8) : Prop where
  senders : ∀ T x, x ∈ sent T → ∃ l n, ls[x.1]? = some l ∧ l.suffix.count = some n ∧ x.1 + n = T
  outputs : ∀ j l n, ls[j]? = some l → l.suffix.count = some n →
    ((sent (j + n)).filter (·.1 = j)).map (·.2) =
      lineOutput progs j l.cmds.length ((sent j).map (·.2))
  shown : shown = (List.range ls.length).flatMap (showing progs ls sent)

/-- No two lines send to the same line. -/
def Unshared (ls : List Pipeline) : Prop :=
  ∀ (i j : ℕ) (l l' : Pipeline) (n m : ℕ), ls[i]? = some l → ls[j]? = some l' → l.suffix.count = some n →
    l'.suffix.count = some m → i + n = j + m → i = j

/-- What the lines from number `j` on show when they are executed one after another, each to its end,
    with what was sent to every line in `box`. -/
def transcript (progs : ℕ × ℕ → StreamProgram UInt8) : ℕ → (ℕ → List UInt8) → List Pipeline → List UInt8
  | _, _, [] => []
  | j, box, l :: ls =>
    let out := lineOutput progs j l.cmds.length (box j)
    match l.suffix with
    | .none => out ++ transcript progs (j + 1) box ls
    | .file _ => transcript progs (j + 1) box ls
    | .pipe ds | .shock ds =>
      let T := j + digitsVal 0 ds
      transcript progs (j + 1) (Function.update box T (box T ++ out)) ls

/-! ### A network that runs the lines -/

/-- The channels of a session: the pipe for the input of a line, the pipe behind a command of a line, and
    the terminal. -/
structure Channels (κ : Type*) where
  num : ℕ → κ
  normal : ℕ → ℕ → κ
  terminal : κ

/-- A program is command `i.2` of line `i.1`, wired as the lines say. -/
structure Plugged {κ : Type*} (C : Channels κ) (progs : ℕ × ℕ → StreamProgram UInt8) (ls : List Pipeline)
    (i : ℕ × ℕ) (l : Pipeline) (m : NetNode κ UInt8) : Prop where
  line : ls[i.1]? = some l
  cmd : i.2 < l.cmds.length
  program : m.program = progs i
  source_num : i.2 = 0 → Targets ls (i.1 + 1) → m.source = some (C.num (i.1 + 1))
  source_none : i.2 = 0 → ¬ Targets ls (i.1 + 1) → m.source = none
  source_normal : ∀ c, i.2 = c + 1 → m.source = some (C.normal (i.1 + 1) c)
  sink_normal : i.2 + 1 < l.cmds.length → m.sink = some (C.normal (i.1 + 1) i.2)
  sink_num : i.2 + 1 = l.cmds.length → ∀ n, l.suffix.count = some n → m.sink = some (C.num (i.1 + 1 + n))
  sink_terminal : i.2 + 1 = l.cmds.length → l.suffix = .none → m.sink = some C.terminal

/-- A network in which the programs of a session have run to their ends: `place` says which program a
    command is, and `spot` which command a program is. -/
structure Delivered {ι κ : Type*} [DecidableEq ι] [DecidableEq κ] (N : Net ι κ UInt8) (place : ℕ × ℕ → ι)
    (spot : ι → ℕ × ℕ) (C : Channels κ) (progs : ℕ × ℕ → StreamProgram UInt8) (ls : List Pipeline) : Prop where
  sound : N.Sound
  spot_place : ∀ i, spot (place i) = i
  cmds_ne : ∀ l ∈ ls, l.cmds ≠ []
  node : ∀ j l c, ls[j]? = some l → c < l.cmds.length →
    ∃ m, N.node (place (j, c)) = some m ∧ m.ended = true ∧ Plugged C progs ls (j, c) l m
  num_writer : ∀ i m T, N.node i = some m → Targets ls T → m.sink = some (C.num T) → ∃ l n, place (spot i) = i ∧
    ls[(spot i).1]? = some l ∧ l.suffix.count = some n ∧ (spot i).1 + 1 + n = T ∧ (spot i).2 + 1 = l.cmds.length
  normal_writer : ∀ i m j c l, N.node i = some m → ls[j]? = some l → c + 1 < l.cmds.length →
    m.sink = some (C.normal (j + 1) c) → i = place (j, c)
  terminal_writer : ∀ i m, N.node i = some m → m.sink = some C.terminal → ∃ l, place (spot i) = i ∧
    ls[(spot i).1]? = some l ∧ l.suffix = .none ∧ (spot i).2 + 1 = l.cmds.length
  sorted : (N.sent C.terminal).Pairwise fun a b => (spot a.1).1 ≤ (spot b.1).1

open Classical in
/-- What was sent to a line, piece by piece with the number of its sender. -/
noncomputable def sentTo {ι κ : Type*} (N : Net ι κ UInt8) (spot : ι → ℕ × ℕ) (C : Channels κ) (ls : List Pipeline)
    (T : ℕ) : List (ℕ × UInt8) :=
  if Targets ls (T + 1) then (N.sent (C.num (T + 1))).map fun p => ((spot p.1).1, p.2) else []

/-- The first command of a line reads what was sent to the line. -/
theorem Plugged.input_first {ι κ : Type*} {N : Net ι κ UInt8} (spot : ι → ℕ × ℕ) {C : Channels κ}
    {progs : ℕ × ℕ → StreamProgram UInt8} {ls : List Pipeline} {j : ℕ} {l : Pipeline} {m : NetNode κ UInt8}
    (hm : Plugged C progs ls (j, 0) l m) : N.input m = (sentTo N spot C ls j).map (·.2) := by
  rw [Net.input, sentTo]
  rcases Classical.em (Targets ls (j + 1)) with hT | hT
  · rw [hm.source_num rfl hT, if_pos hT]
    simp [Net.content]
  · rw [hm.source_none rfl hT, if_neg hT]
    rfl

namespace Delivered

variable {ι κ : Type*} [DecidableEq ι] [DecidableEq κ] {N : Net ι κ UInt8} {place : ℕ × ℕ → ι} {spot : ι → ℕ × ℕ}
  {C : Channels κ} {progs : ℕ × ℕ → StreamProgram UInt8} {ls : List Pipeline}

/-- What a line was sent comes from the last commands of the lines that target it. -/
theorem sender (h : Delivered N place spot C progs ls) {T : ℕ} (hT : Targets ls (T + 1)) {x : ι × UInt8}
    (hx : x ∈ N.sent (C.num (T + 1))) : ∃ l n, place (spot x.1) = x.1 ∧ ls[(spot x.1).1]? = some l ∧
      l.suffix.count = some n ∧ (spot x.1).1 + n = T ∧ (spot x.1).2 + 1 = l.cmds.length := by
  obtain ⟨m, hm, hsink⟩ := h.sound.writer _ x hx
  obtain ⟨l, n, hplace, hl, hn, hxT, hc⟩ := h.num_writer x.1 m (T + 1) hm hT hsink
  exact ⟨l, n, hplace, hl, hn, by omega, hc⟩

/-- A later command of a line reads what the command before it wrote. -/
theorem input_next (h : Delivered N place spot C progs ls) {j c : ℕ} {l : Pipeline} {m m' : NetNode κ UInt8}
    (hi : N.node (place (j, c)) = some m) (hm : Plugged C progs ls (j, c) l m)
    (hm' : Plugged C progs ls (j, c + 1) l m') : N.input m' = m.put := by
  rw [Net.input, hm'.source_normal c rfl]
  exact h.sound.content_of_writer hi (hm.sink_normal hm'.cmd) fun a x ha hx =>
    h.normal_writer a x j c l ha hm.line hm'.cmd hx

/-- What a command wrote: the commands of its line up to it, applied to what was sent to the line. -/
theorem put_eq (h : Delivered N place spot C progs ls) {j : ℕ} {l : Pipeline} (hl : ls[j]? = some l) :
    ∀ (c : ℕ) (m : NetNode κ UInt8), c < l.cmds.length → N.node (place (j, c)) = some m →
      m.put = lineOutput progs j (c + 1) ((sentTo N spot C ls j).map (·.2)) := by
  intro c
  induction c with
  | zero =>
    intro m hc hm
    obtain ⟨m', hm', hended, hplug⟩ := h.node j l 0 hl hc
    obtain rfl := Option.some.inj (hm.symm.trans hm')
    rw [h.sound.put_eq_whole hm hended, hplug.program, hplug.input_first spot]
    rfl
  | succ c ih =>
    intro m hc hm
    obtain ⟨m', hm', hended, hplug⟩ := h.node j l (c + 1) hl hc
    obtain rfl := Option.some.inj (hm.symm.trans hm')
    obtain ⟨m₀, hm₀, -, hplug₀⟩ := h.node j l c hl (Nat.lt_of_succ_lt hc)
    rw [h.sound.put_eq_whole hm hended, hplug.program, h.input_next hm₀ hplug₀ hplug,
      ih m₀ (Nat.lt_of_succ_lt hc) hm₀]
    rfl

/-- What the last command of a line wrote is the output of the line. -/
theorem part_last (h : Delivered N place spot C progs ls) {j : ℕ} {l : Pipeline} (hl : ls[j]? = some l) {k : κ}
    (hk : ∀ m, N.node (place (j, l.cmds.length - 1)) = some m → Plugged C progs ls (j, l.cmds.length - 1) l m →
      m.sink = some k) :
    N.part k (place (j, l.cmds.length - 1)) =
      lineOutput progs j l.cmds.length ((sentTo N spot C ls j).map (·.2)) := by
  have hne : 0 < l.cmds.length := List.length_pos_of_ne_nil (h.cmds_ne l (List.mem_of_getElem? hl))
  have hlt : l.cmds.length - 1 < l.cmds.length := Nat.sub_lt hne one_pos
  obtain ⟨m, hm, -, hplug⟩ := h.node j l (l.cmds.length - 1) hl hlt
  have hput := h.put_eq hl (l.cmds.length - 1) m hlt hm
  rw [show l.cmds.length - 1 + 1 = l.cmds.length by omega] at hput
  rw [← hput, h.sound.put _ m k hm (hk m hm hplug)]

/-- What a line wrote to a channel, when only last commands write there. -/
theorem output (h : Delivered N place spot C progs ls) {j : ℕ} {l : Pipeline} (hl : ls[j]? = some l) {k : κ}
    (hk : ∀ m, N.node (place (j, l.cmds.length - 1)) = some m → Plugged C progs ls (j, l.cmds.length - 1) l m →
      m.sink = some k)
    (hlast : ∀ x ∈ N.sent k, (spot x.1).1 = j → x.1 = place (spot x.1) ∧ (spot x.1).2 + 1 = l.cmds.length) :
    ((N.sent k).filter fun x => (spot x.1).1 = j).map (·.2) =
      lineOutput progs j l.cmds.length ((sentTo N spot C ls j).map (·.2)) := by
  rw [← h.part_last hl hk, Net.part]
  congr 1
  refine List.filter_congr fun x hx => ?_
  rw [Bool.eq_iff_iff, decide_eq_true_iff, decide_eq_true_iff]
  constructor
  · intro hxj
    obtain ⟨hplace, hc⟩ := hlast x hx hxj
    rw [hplace]
    congr 1
    exact Prod.ext hxj (by simp only; omega)
  · intro hxi
    rw [hxi, h.spot_place]

/-- The network has delivered what its lines mean. -/
theorem meaning (h : Delivered N place spot C progs ls) :
    Meaning progs ls (sentTo N spot C ls) (N.content C.terminal) where
  senders T x hx := by
    rw [sentTo] at hx
    split_ifs at hx with hT
    · obtain ⟨y, hy, rfl⟩ := List.mem_map.1 hx
      obtain ⟨l, n, -, hl, hn, hxT, -⟩ := h.sender hT hy
      exact ⟨l, n, hl, hn, hxT⟩
    · cases hx
  outputs j l n hl hn := by
    have hT : Targets ls (j + n + 1) := ⟨j, l, n, hl, hn, by omega⟩
    have hpipe : j + n + 1 = j + 1 + n := by omega
    have hout := h.output hl (k := C.num (j + n + 1)) (fun m _ hm => ?_) fun x hx hxj => ?_
    · rw [← hout, sentTo, if_pos hT, List.filter_map, List.map_map]
      rfl
    · have hne := hm.cmd
      simp only at hne
      rw [hpipe]
      exact hm.sink_num (by simp only; omega) n hn
    · obtain ⟨l', n', hplace, hl', -, -, hc⟩ := h.sender hT hx
      rw [hxj] at hl'
      obtain rfl : l = l' := Option.some.inj (hl.symm.trans hl')
      exact ⟨hplace.symm, hc⟩
  shown := by
    have hwriter : ∀ x ∈ N.sent C.terminal, ∃ l, place (spot x.1) = x.1 ∧ ls[(spot x.1).1]? = some l ∧
        l.suffix = .none ∧ (spot x.1).2 + 1 = l.cmds.length := fun x hx => by
      obtain ⟨m, hm, hsink⟩ := h.sound.writer _ x hx
      exact h.terminal_writer x.1 m hm hsink
    have hflat := flatMap_filter_of_sorted (fun x : ι × UInt8 => (spot x.1).1) ls.length
      (N.sent C.terminal) h.sorted fun x hx => by
        obtain ⟨l, -, hl, -⟩ := hwriter x hx
        exact (List.getElem?_eq_some_iff.1 hl).1
    rw [Net.content, ← hflat, List.map_flatMap]
    refine List.flatMap_congr fun j _ => ?_
    rw [showing]
    split
    · rename_i l hl
      split_ifs with hs
      · refine h.output hl (fun m _ hm => ?_) fun x hx hxj => ?_
        · have hne := hm.cmd
          simp only at hne
          exact hm.sink_terminal (by simp only; omega) hs
        · obtain ⟨l', hplace, hl', -, hc⟩ := hwriter x hx
          rw [hxj] at hl'
          obtain rfl : l = l' := Option.some.inj (hl.symm.trans hl')
          exact ⟨hplace.symm, hc⟩
      · rw [List.filter_eq_nil_iff.2, List.map_nil]
        intro x hx hxj
        obtain ⟨l', -, hl', hnone, -⟩ := hwriter x hx
        rw [of_decide_eq_true hxj] at hl'
        obtain rfl : l = l' := Option.some.inj (hl.symm.trans hl')
        exact hs hnone
    · rename_i hl
      rw [List.filter_eq_nil_iff.2, List.map_nil]
      intro x hx hxj
      obtain ⟨l', -, hl', -⟩ := hwriter x hx
      rw [of_decide_eq_true hxj, hl] at hl'
      cases hl'

end Delivered

/-! ### Lines that do not share a target -/

namespace Meaning

variable {progs : ℕ × ℕ → StreamProgram UInt8} {ls : List Pipeline} {sent : ℕ → List (ℕ × UInt8)}
  {shown : List UInt8}

/-- What was sent to line `T` by the lines before line `k`. -/
def before (sent : ℕ → List (ℕ × UInt8)) (k T : ℕ) : List UInt8 :=
  ((sent T).filter fun x => x.1 < k).map (·.2)

/-- A line is sent everything by lines before it. -/
theorem before_self (h : Meaning progs ls sent shown) (hok : ∀ l ∈ ls, l.suffix.Ok) (k : ℕ) :
    before sent k k = (sent k).map (·.2) := by
  rw [before, List.filter_eq_self.2]
  intro x hx
  obtain ⟨l, n, hl, hn, hk⟩ := h.senders k x hx
  have := (hok l (List.mem_of_getElem? hl)).one_le hn
  exact decide_eq_true (by omega)

/-- A line adds nothing to what the lines before it sent to lines it does not target. -/
theorem before_other (h : Meaning progs ls sent shown) {k T : ℕ} {l : Pipeline} (hl : ls[k]? = some l)
    (hT : ∀ n, l.suffix.count = some n → k + n ≠ T) : before sent (k + 1) T = before sent k T := by
  rw [before, before]
  congr 1
  refine List.filter_congr fun x hx => ?_
  obtain ⟨l', n, hl', hn, hx'⟩ := h.senders T x hx
  have hne : x.1 ≠ k := by
    intro hxk
    rw [hxk, hl, Option.some.injEq] at hl'
    subst hl'
    exact hT n hn (hxk ▸ hx')
  rw [Bool.eq_iff_iff, decide_eq_true_iff, decide_eq_true_iff]
  omega

/-- A line that shares its target with nobody sends its output there, and that is all. -/
theorem before_target (h : Meaning progs ls sent shown) (hun : Unshared ls) {k n : ℕ} {l : Pipeline}
    (hl : ls[k]? = some l) (hn : l.suffix.count = some n) :
    before sent k (k + n) = [] ∧
      before sent (k + 1) (k + n) = lineOutput progs k l.cmds.length ((sent k).map (·.2)) := by
  have hall : ∀ x ∈ sent (k + n), x.1 = k := fun x hx => by
    obtain ⟨l', m, hl', hm, hx'⟩ := h.senders _ x hx
    exact hun x.1 k l' l m n hl' hl hm hn hx'
  constructor
  · rw [before, List.filter_eq_nil_iff.2, List.map_nil]
    intro x hx
    simp [hall x hx]
  · rw [← h.outputs k l n hl hn, before]
    congr 1
    refine List.filter_congr fun x hx => ?_
    simp [hall x hx]

/-- The transcript from a line on, with what the lines before it have sent in the box. -/
theorem transcript_eq (h : Meaning progs ls sent shown) (hun : Unshared ls) (hok : ∀ l ∈ ls, l.suffix.Ok) :
    ∀ (rest : List Pipeline) (k : ℕ) (box : ℕ → List UInt8), ls.drop k = rest →
      (∀ T, k ≤ T → box T = before sent k T) →
      transcript progs k box rest = (List.range' k rest.length).flatMap (showing progs ls sent)
  | [], k, box, _, _ => rfl
  | l :: rest, k, box, hdrop, hbox => by
    have hl : ls[k]? = some l := by
      rw [← List.head?_drop, hdrop]
      rfl
    have hrest : ls.drop (k + 1) = rest := by
      rw [← List.drop_drop, hdrop]
      rfl
    have hself : box k = (sent k).map (·.2) := (hbox k le_rfl).trans (h.before_self hok k)
    have hstay : ∀ T, k + 1 ≤ T → (∀ n, l.suffix.count = some n → k + n ≠ T) →
        box T = before sent (k + 1) T := fun T hT hne =>
      (hbox T (by omega)).trans (h.before_other hl hne).symm
    rw [List.length_cons, List.range'_succ, List.flatMap_cons, transcript]
    have hnumber : ∀ n, l.suffix.count = some n → l.suffix ≠ .none →
        transcript progs (k + 1) (Function.update box (k + n)
          (box (k + n) ++ lineOutput progs k l.cmds.length (box k))) rest =
        showing progs ls sent k ++ (List.range' (k + 1) rest.length).flatMap (showing progs ls sent) := by
      intro n hn hne
      obtain ⟨hnil, hout⟩ := h.before_target hun hl hn
      rw [showing, hl]
      simp only [hne, if_false, List.nil_append]
      refine transcript_eq h hun hok rest (k + 1) _ hrest fun T hT => ?_
      rcases eq_or_ne T (k + n) with rfl | hTn
      · rw [Function.update_self, hbox _ (by omega), hnil, hself, hout, List.nil_append]
      · rw [Function.update_of_ne hTn]
        refine hstay T hT fun n' hn' => ?_
        rw [hn, Option.some.injEq] at hn'
        rw [← hn']
        exact hTn.symm
    cases hs : l.suffix with
    | none =>
      rw [showing, hl]
      simp only [hs, if_true]
      rw [hself, transcript_eq h hun hok rest (k + 1) box hrest fun T hT => hstay T hT (by simp [hs, Suffix.count])]
    | file name =>
      rw [showing, hl]
      simp only [hs, reduceCtorEq, if_false, List.nil_append]
      exact transcript_eq h hun hok rest (k + 1) box hrest fun T hT => hstay T hT (by simp [hs, Suffix.count])
    | pipe ds => exact hnumber _ (by rw [hs]; rfl) (by simp [hs])
    | shock ds => exact hnumber _ (by rw [hs]; rfl) (by simp [hs])

end Meaning

/-- Everything on the terminal, when no two lines send to the same line. -/
theorem Delivered.transcript {ι κ : Type*} [DecidableEq ι] [DecidableEq κ] {N : Net ι κ UInt8} {place : ℕ × ℕ → ι}
    {spot : ι → ℕ × ℕ} {C : Channels κ} {progs : ℕ × ℕ → StreamProgram UInt8} {ls : List Pipeline}
    (h : Delivered N place spot C progs ls) (hok : ∀ l ∈ ls, l.suffix.Ok) (hun : Unshared ls) :
    N.content C.terminal = Shell.transcript progs 0 (fun _ => []) ls := by
  have heq := h.meaning.transcript_eq hun hok ls 0 (fun _ => []) rfl fun T _ => by
    simp [Meaning.before]
  rw [heq, h.meaning.shown, List.range_eq_range']

end NetProg.Shell
