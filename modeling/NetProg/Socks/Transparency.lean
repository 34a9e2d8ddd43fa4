import NetProg.Socks.Relay

/-! When the relay is transparent.

    After a short send the handlers send the remaining number of bytes, but again from the beginning
    of the buffer. So a direction writes what it has read exactly as long as, in every chunk, the
    bytes taken by a later send are equal to those that were due at that place. -/

namespace NetProg.Socks

/-- What the direction has written is a prefix of what it has read, and all of it when it is about
    to read again. -/
def Direction.Transparent (d : Direction) : Prop :=
  d.sent <+: d.received ∧ (.read ∈ d.outstanding → d.sent = d.received)

/-- Every send of direction `w` takes bytes equal to the next ones of its chunk, when `taken` bytes
    of `chunk` have been sent so far. -/
def InPlace (w : Way) : List UInt8 → ℕ → List Completion → Prop
  | _, _, [] => True
  | chunk, taken, .read w' c :: es =>
    if w' = w then InPlace w c.bytes 0 es else InPlace w chunk taken es
  | chunk, taken, .sent w' _ n :: es =>
    if w' = w then chunk.take n = (chunk.drop taken).take n ∧ InPlace w chunk (taken + n) es
    else InPlace w chunk taken es
  | chunk, taken, .readError _ :: es => InPlace w chunk taken es
  | chunk, taken, .sendError _ _ :: es => InPlace w chunk taken es

/-- Where a direction is that has been transparent so far: between two chunks, inside one, or
    stopped by an error. -/
inductive Direction.Stage (chunk : List UInt8) (taken : ℕ) (d : Direction) : Prop
  | reading (op : d.outstanding = [.read]) (sent : d.sent = d.received)
  | sending (op : d.outstanding = [.send (chunk.length - taken)]) (lt : taken < chunk.length)
      (buffer : d.buffer.bytes.take chunk.length = chunk)
      (before : List UInt8) (received : d.received = before ++ chunk)
      (sent : d.sent = before ++ chunk.take taken)
  | stopped (op : d.outstanding = []) (sent : d.sent <+: d.received)

namespace Direction.Stage

variable {chunk : List UInt8} {taken : ℕ} {d : Direction}

theorem transparent (h : Stage chunk taken d) : d.Transparent := by
  cases h with
  | reading op sent => exact ⟨sent ▸ List.prefix_rfl, fun _ => sent⟩
  | sending op lt buffer before received sent =>
    refine ⟨?_, by simp [op]⟩
    rw [sent, received]
    exact (List.prefix_append_right_inj _).mpr (List.take_prefix _ _)
  | stopped op sent => exact ⟨sent, by simp [op]⟩

/-- There is at most one outstanding operation. -/
theorem outstanding_eq (h : Stage chunk taken d) {op : Op} (hop : op ∈ d.outstanding) :
    d.outstanding = [op] := by
  cases h with
  | reading h => simpa [h, eq_comm] using hop
  | sending h => simpa [h, eq_comm] using hop
  | stopped h => simp [h] at hop

/-- An error ends the direction where it is. -/
theorem stop (h : Stage chunk taken d) {op : Op} (hop : op ∈ d.outstanding) (flag : Bool) :
    Stage chunk taken { d.complete op with flag := flag } ∧
      (d.complete op).outstanding = [] := by
  have hnone : (d.complete op).outstanding = [] := by
    simp [Direction.complete, h.outstanding_eq hop]
  exact ⟨.stopped hnone h.transparent.1, hnone⟩

theorem onRead (h : Stage chunk taken d) (c : Chunk) (hop : .read ∈ d.outstanding) :
    Stage c.bytes 0 ((d.complete .read).onRead c) := by
  cases h with
  | reading op sent =>
    refine .sending ?_ c.pos ?_ d.received rfl ?_
    · simp [Direction.onRead, Direction.doWrite, Direction.complete, op]
    · simp [Direction.onRead, Direction.doWrite, Direction.complete, Buffer.fill]
    · simp [Direction.onRead, Direction.doWrite, Direction.complete, sent]
  | sending op => simp [op] at hop
  | stopped op => simp [op] at hop

/-- A send that is complete or partial: the direction stays transparent when the bytes it took were
    those due, and only then. -/
theorem onSent (h : Stage chunk taken d) {r n : ℕ} (hop : .send r ∈ d.outstanding) (hn : n ≤ r) :
    (chunk.take n = (chunk.drop taken).take n →
      Stage chunk (taken + n) ((d.complete (.send r)).onSent r n)) ∧
    (((d.complete (.send r)).onSent r n).Transparent →
      chunk.take n = (chunk.drop taken).take n) := by
  cases h with
  | reading op => simp [op] at hop
  | stopped op => simp [op] at hop
  | sending op lt buffer before received sent =>
    have hr : r = chunk.length - taken := by simpa [op] using hop
    have hcomplete : (d.complete (.send r)).outstanding = [] := by
      simp [Direction.complete, op, hr]
    have htake : d.buffer.bytes.take n = chunk.take n := by
      rw [← buffer, List.take_take, min_eq_left (by omega)]
    have hsent : ((d.complete (.send r)).onSent r n).sent =
        before ++ (chunk.take taken ++ chunk.take n) := by
      unfold Direction.onSent
      split_ifs <;> simp [Direction.doWrite, Direction.doRead, Direction.complete, sent, htake]
    have hrec : ((d.complete (.send r)).onSent r n).received = before ++ chunk := by
      unfold Direction.onSent
      split_ifs <;> simp [Direction.doWrite, Direction.doRead, Direction.complete, received]
    have hsplit : chunk.take (taken + n) = chunk.take taken ++ (chunk.drop taken).take n :=
      List.take_add ..
    constructor
    · intro heq
      rw [heq, ← hsplit] at hsent
      by_cases hrn : r = n
      · have hall : taken + n = chunk.length := by omega
        refine .reading ?_ ?_
        · subst hrn
          simp [Direction.onSent, Direction.doRead, hcomplete]
        · rw [hsent, hrec, hall, List.take_length]
      · refine .sending ?_ (by omega) ?_ before hrec hsent
        · have : r - n = chunk.length - (taken + n) := by omega
          simp [Direction.onSent, hrn, Direction.doWrite, hcomplete, this]
        · simpa [Direction.onSent, hrn, Direction.doWrite, Direction.complete] using buffer
    · rintro ⟨hpre, -⟩
      rw [hsent, hrec, List.prefix_append_right_inj] at hpre
      have hdrop : chunk.take n <+: chunk.drop taken := by
        rw [← List.prefix_append_right_inj (chunk.take taken), List.take_append_drop]
        exact hpre
      have := List.prefix_iff_eq_take.mp hdrop
      rwa [List.length_take, min_eq_left (by omega)] at this

end Direction.Stage

/-! ### Whole runs -/

/-- The direction is transparent after every completion of the run. -/
def TransparentRun (w : Way) (s : Session) (es : List Completion) : Prop :=
  ∀ pre t, pre <+: es → s.run pre = some t → (t.way w).Transparent

theorem TransparentRun.tail {w : Way} {s s' : Session} {e : Completion} {es : List Completion}
    (h : TransparentRun w s (e :: es)) (hs : s.step e = some s') : TransparentRun w s' es := by
  intro pre t hpre hrun
  refine h (e :: pre) t (by simpa using hpre) ?_
  rw [Session.run, hs]
  exact hrun

theorem TransparentRun.head {w : Way} {s s' : Session} {e : Completion} {es : List Completion}
    (h : TransparentRun w s (e :: es)) (hs : s.step e = some s') : (s'.way w).Transparent := by
  refine h [e] s' (by simp) ?_
  rw [Session.run, hs]
  rfl

/-- A run that starts transparent stays so if it does after its first step. -/
theorem TransparentRun.cons {w : Way} {s s' : Session} {e : Completion} {es : List Completion}
    (h : (s.way w).Transparent) (hs : s.step e = some s') (hrest : TransparentRun w s' es) :
    TransparentRun w s (e :: es) := by
  intro pre t hpre hrun
  cases pre with
  | nil =>
    simp only [Session.run, Option.some.injEq] at hrun
    exact hrun ▸ h
  | cons e' pre =>
    obtain ⟨rfl, hpre'⟩ := List.cons_prefix_cons.mp hpre
    obtain ⟨s₁, hs₁, hrun⟩ := Session.run_cons hrun
    rw [hs, Option.some.injEq] at hs₁
    exact hrest pre t hpre' (hs₁ ▸ hrun)

theorem TransparentRun.cons_iff {w : Way} {s s' : Session} {e : Completion} {es : List Completion}
    (h : (s.way w).Transparent) (hs : s.step e = some s') :
    TransparentRun w s (e :: es) ↔ TransparentRun w s' es :=
  ⟨fun hrun => hrun.tail hs, TransparentRun.cons h hs⟩

theorem transparentRun_iff (w : Way) : ∀ (es : List Completion) (s t : Session)
    (chunk : List UInt8) (taken : ℕ), (s.way w).Stage chunk taken → s.run es = some t →
    (TransparentRun w s es ↔ InPlace w chunk taken es)
  | [], s, t, chunk, taken, h, _ => by
    refine ⟨fun _ => trivial, fun _ pre u hpre hrun => ?_⟩
    rw [List.prefix_nil] at hpre
    subst hpre
    simp only [Session.run, Option.some.injEq] at hrun
    exact hrun ▸ h.transparent
  | e :: es, s, t, chunk, taken, h, hrun => by
    obtain ⟨s', hs, hrest⟩ := Session.run_cons hrun
    rw [TransparentRun.cons_iff h.transparent hs]
    by_cases hw : e.way = w
    · cases e with
      | read w' c =>
        obtain rfl : w' = w := hw
        simp only [Session.step, Option.ite_none_right_eq_some, Option.some.injEq] at hs
        obtain ⟨hop, rfl⟩ := hs
        rw [InPlace, if_pos rfl]
        refine transparentRun_iff w' es _ t c.bytes 0 ?_ hrest
        rw [Session.way_modify_self]
        exact h.onRead c hop
      | readError w' =>
        obtain rfl : w' = w := hw
        simp only [Session.step, Option.ite_none_right_eq_some, Option.some.injEq] at hs
        obtain ⟨hop, rfl⟩ := hs
        rw [InPlace]
        refine transparentRun_iff w' es _ t chunk taken ?_ hrest
        rw [Session.way_onReadError, Session.way_modify_self]
        exact (h.stop hop true).1
      | sent w' r n =>
        obtain rfl : w' = w := hw
        have hs' := hs
        simp only [Session.step, Option.ite_none_right_eq_some, Option.some.injEq] at hs
        obtain ⟨⟨hop, -, hn⟩, rfl⟩ := hs
        obtain ⟨hstage, hback⟩ := h.onSent hop hn
        rw [InPlace, if_pos rfl]
        have hiff : chunk.take n = (chunk.drop taken).take n →
            (TransparentRun w' (s.modify w' fun d => (d.complete (.send r)).onSent r n) es ↔
              InPlace w' chunk (taken + n) es) := by
          intro heq
          refine transparentRun_iff w' es _ t chunk (taken + n) ?_ hrest
          rw [Session.way_modify_self]
          exact hstage heq
        constructor
        · intro htr
          have heq := hback (by
            have := (TransparentRun.cons h.transparent hs' htr).head hs'
            rwa [Session.way_modify_self] at this)
          exact ⟨heq, (hiff heq).mp htr⟩
        · rintro ⟨heq, hin⟩
          exact (hiff heq).mpr hin
      | sendError w' r =>
        obtain rfl : w' = w := hw
        simp only [Session.step, Option.ite_none_right_eq_some, Option.some.injEq] at hs
        obtain ⟨hop, rfl⟩ := hs
        rw [InPlace]
        refine transparentRun_iff w' es _ t chunk taken ?_ hrest
        rw [Session.way_modify_self]
        exact (h.stop hop (s.way w').flag).1
    · have hsame : (s'.way w).Stage chunk taken := by
        rw [Session.step_other hs hw]
        exact h
      rw [transparentRun_iff w es s' t chunk taken hsame hrest]
      cases e with
      | read w' c => simp [InPlace, show w' ≠ w from hw]
      | readError w' => simp [InPlace]
      | sent w' r n => simp [InPlace, show w' ≠ w from hw]
      | sendError w' r => simp [InPlace]

/-- Short sends are the only thing that can go wrong: when every send of the direction is taken
    whole, the bytes taken are those due. -/
theorem inPlace_of_whole (w : Way) : ∀ (es : List Completion) (s t : Session) (chunk : List UInt8)
    (taken : ℕ), (s.way w).Stage chunk taken →
    (taken = 0 ∨ ∀ r, .send r ∉ (s.way w).outstanding) → s.run es = some t →
    (∀ r n, .sent w r n ∈ es → r = n) → InPlace w chunk taken es
  | [], _, _, _, _, _, _, _, _ => trivial
  | e :: es, s, t, chunk, taken, h, hzero, hrun, hwhole => by
    obtain ⟨s', hs, hrest⟩ := Session.run_cons hrun
    have hwhole' : ∀ r n, .sent w r n ∈ es → r = n :=
      fun r n hm => hwhole r n (List.mem_cons_of_mem _ hm)
    by_cases hw : e.way = w
    · cases e with
      | read w' c =>
        obtain rfl : w' = w := hw
        simp only [Session.step, Option.ite_none_right_eq_some, Option.some.injEq] at hs
        obtain ⟨hop, rfl⟩ := hs
        rw [InPlace, if_pos rfl]
        refine inPlace_of_whole w' es _ t c.bytes 0 ?_ (Or.inl rfl) hrest hwhole'
        rw [Session.way_modify_self]
        exact h.onRead c hop
      | readError w' =>
        obtain rfl : w' = w := hw
        simp only [Session.step, Option.ite_none_right_eq_some, Option.some.injEq] at hs
        obtain ⟨hop, rfl⟩ := hs
        obtain ⟨hstage, hnone⟩ := h.stop hop true
        rw [InPlace]
        refine inPlace_of_whole w' es _ t chunk taken ?_ (Or.inr fun r => ?_) hrest hwhole' <;>
          rw [Session.way_onReadError, Session.way_modify_self]
        · exact hstage
        · simp [hnone]
      | sent w' r n =>
        obtain rfl : w' = w := hw
        obtain rfl : r = n := hwhole r n (by simp)
        simp only [Session.step, Option.ite_none_right_eq_some, Option.some.injEq] at hs
        obtain ⟨⟨hop, -, hn⟩, rfl⟩ := hs
        have htaken : taken = 0 := by
          rcases hzero with hz | hz
          · exact hz
          · exact absurd hop (hz r)
        have heq : chunk.take r = (chunk.drop taken).take r := by
          rw [htaken, List.drop_zero]
        rw [InPlace, if_pos rfl]
        refine ⟨heq, inPlace_of_whole w' es _ t chunk (taken + r) ?_ (Or.inr fun r' => ?_) hrest
          hwhole'⟩ <;> rw [Session.way_modify_self]
        · exact (h.onSent hop hn).1 heq
        · simp [Direction.onSent, Direction.doRead, Direction.complete, h.outstanding_eq hop]
      | sendError w' r =>
        obtain rfl : w' = w := hw
        simp only [Session.step, Option.ite_none_right_eq_some, Option.some.injEq] at hs
        obtain ⟨hop, rfl⟩ := hs
        obtain ⟨hstage, hnone⟩ := h.stop hop (s.way w').flag
        rw [InPlace]
        refine inPlace_of_whole w' es _ t chunk taken ?_ (Or.inr fun r' => ?_) hrest hwhole' <;>
          rw [Session.way_modify_self]
        · exact hstage
        · simp [hnone]
    · have hsame := Session.step_other hs hw
      rw [← hsame] at h hzero
      have hrec := inPlace_of_whole w es s' t chunk taken h hzero hrest hwhole'
      cases e with
      | read w' c => simpa [InPlace, show w' ≠ w from hw] using hrec
      | readError w' => simpa [InPlace] using hrec
      | sent w' r n => simpa [InPlace, show w' ≠ w from hw] using hrec
      | sendError w' r => simpa [InPlace] using hrec

theorem stage_relay (k : Kind) (buffer : Way → Buffer maxLength) (w : Way) :
    ((relay k buffer).way w).Stage [] 0 := by
  rw [way_relay]
  exact .reading rfl rfl

/-- A direction of a session is transparent along a run if and only if every one of its sends took
    the bytes that were due. -/
theorem relay_transparent_iff (k : Kind) (buffer : Way → Buffer maxLength) (w : Way) (es : List Completion)
    (t : Session) (h : (relay k buffer).run es = some t) :
    TransparentRun w (relay k buffer) es ↔ InPlace w [] 0 es :=
  transparentRun_iff w es _ t [] 0 (stage_relay k buffer w) h

/-- The client sends two bytes. -/
def twoBytes : Completion := .read .inward ⟨[97, 98], by decide, by decide⟩

/-- Two bytes that are taken by one send. -/
theorem relay_transparent_iff_whole :
    TransparentRun .inward (relay .http fun _ => .zero _) [twoBytes, .sent .inward 2 2] ↔
      InPlace .inward [] 0 [twoBytes, .sent .inward 2 2] :=
  relay_transparent_iff .http (fun _ => .zero _) .inward _ _ rfl

/-- Two different bytes that are taken one by one: the first is written twice. -/
theorem relay_duplicates :
    ((relay .http fun _ => .zero _).run [twoBytes, .sent .inward 2 1, .sent .inward 1 1]).isSome ∧
      ¬ TransparentRun .inward (relay .http fun _ => .zero _)
        [twoBytes, .sent .inward 2 1, .sent .inward 1 1] := by
  refine ⟨rfl, fun h => ?_⟩
  obtain ⟨hpre, -⟩ := h _ _ List.prefix_rfl rfl
  exact absurd hpre (by decide)

/-- A direction whose sends are all taken whole is transparent. -/
theorem transparent_of_whole (k : Kind) (buffer : Way → Buffer maxLength) (w : Way) (es : List Completion)
    (t : Session) (h : (relay k buffer).run es = some t)
    (hwhole : ∀ r n, .sent w r n ∈ es → r = n) : TransparentRun w (relay k buffer) es := by
  have hstage := stage_relay k buffer w
  exact (transparentRun_iff w es _ t [] 0 hstage h).mpr
    (inPlace_of_whole w es _ t [] 0 hstage (Or.inl rfl) h hwhole)

end NetProg.Socks
