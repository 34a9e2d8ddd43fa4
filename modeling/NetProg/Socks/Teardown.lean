import NetProg.Socks.Relay

/-! How a relay ends.

    A flag is set when a read of its direction fails, which is when nothing of the direction is
    outstanding and the last chunk has been written. A direction that stops at a failed send leaves
    its flag unset, so the sockets are never closed under a direction that is not finished. -/

namespace NetProg.Socks

/-- One direction of the traffic on a socket. -/
inductive Half where
  | receive (p : Peer)
  | send (p : Peer)
  deriving DecidableEq

/-- The halves a call ends. -/
def Call.halves : Call → List Half
  | shutdownReceive p => [.receive p]
  | shutdownSend p => [.send p]
  | close p => [.receive p, .send p]

/-- The halves a direction reads from and writes to. -/
def Way.uses (w : Way) : List Half := [.receive w.source, .send w.destination]

/-- The bytes of its last chunk that direction `w` has still to write, after one more completion. -/
def owedAfter (w : Way) (owed : ℕ) : Completion → ℕ
  | .read w' c => if w' = w then c.bytes.length else owed
  | .sent w' _ n => if w' = w then owed - n else owed
  | .readError _ => owed
  | .sendError _ _ => owed

/-- The bytes of its last chunk that direction `w` has still to write. -/
def owed (w : Way) (es : List Completion) : ℕ := es.foldl (owedAfter w) 0

/-- Where a direction is: waiting for a chunk, writing one, ended by a failed read, or stopped by a
    failed send. -/
inductive Direction.Place (owed : ℕ) (d : Direction) : Prop
  | reading (op : d.outstanding = [.read]) (flag : d.flag = false) (none : owed = 0)
  | sending (op : d.outstanding = [.send owed]) (flag : d.flag = false)
  | ended (op : d.outstanding = []) (none : owed = 0)
  | stopped (op : d.outstanding = []) (flag : d.flag = false)

namespace Direction.Place

variable {n : ℕ} {d : Direction}

theorem outstanding_le (h : Place n d) : d.outstanding.length ≤ 1 := by
  cases h with
  | reading op => simp [op]
  | sending op => simp [op]
  | ended op => simp [op]
  | stopped op => simp [op]

theorem outstanding_eq (h : Place n d) {op : Op} (hop : op ∈ d.outstanding) :
    d.outstanding = [op] := by
  cases h with
  | reading h => simpa [h, eq_comm] using hop
  | sending h => simpa [h, eq_comm] using hop
  | ended h => simp [h] at hop
  | stopped h => simp [h] at hop

theorem complete_nil (h : Place n d) {op : Op} (hop : op ∈ d.outstanding) :
    (d.complete op).outstanding = [] := by
  simp [Direction.complete, h.outstanding_eq hop]

/-- A flag is set when its direction has finished. -/
theorem of_flag (h : Place n d) (hflag : d.flag = true) : d.outstanding = [] ∧ n = 0 := by
  cases h with
  | reading _ flag => simp [flag] at hflag
  | sending _ flag => simp [flag] at hflag
  | ended op none => exact ⟨op, none⟩
  | stopped _ flag => simp [flag] at hflag

/-- Nothing is owed and no flag set when a read is outstanding. -/
theorem of_read (h : Place n d) (hop : .read ∈ d.outstanding) : d.flag = false ∧ n = 0 := by
  cases h with
  | reading _ flag none => exact ⟨flag, none⟩
  | sending op => simp [op] at hop
  | ended op => simp [op] at hop
  | stopped op => simp [op] at hop

/-- An outstanding send is of all that is owed. -/
theorem of_send (h : Place n d) {r : ℕ} (hop : .send r ∈ d.outstanding) :
    d.flag = false ∧ n = r := by
  cases h with
  | reading op => simp [op] at hop
  | sending op flag =>
    refine ⟨flag, ?_⟩
    simpa [op, eq_comm] using hop
  | ended op => simp [op] at hop
  | stopped op => simp [op] at hop

theorem onRead (h : Place n d) (hop : .read ∈ d.outstanding) (c : Chunk) :
    Place c.bytes.length ((d.complete .read).onRead c) := by
  refine .sending ?_ (h.of_read hop).1
  show (d.complete .read).outstanding ++ [.send c.bytes.length] = _
  rw [h.complete_nil hop, List.nil_append]

theorem onReadError (h : Place n d) (hop : .read ∈ d.outstanding) :
    Place n { d.complete .read with flag := true } :=
  .ended (h.complete_nil hop) (h.of_read hop).2

theorem onSent (h : Place n d) {r k : ℕ} (hop : .send r ∈ d.outstanding) (hk : k ≤ r) :
    Place (n - k) ((d.complete (.send r)).onSent r k) := by
  obtain ⟨hflag, rfl⟩ := h.of_send hop
  have hnil := h.complete_nil hop
  unfold Direction.onSent
  by_cases hnk : n = k
  · rw [if_neg (by simpa using hnk)]
    refine .reading ?_ hflag (by omega)
    show (d.complete (.send n)).outstanding ++ [.read] = _
    rw [hnil, List.nil_append]
  · rw [if_pos hnk]
    refine .sending ?_ hflag
    show (d.complete (.send n)).outstanding ++ [.send (n - k)] = _
    rw [hnil, List.nil_append]

theorem onSendError (h : Place n d) {r : ℕ} (hop : .send r ∈ d.outstanding) :
    Place n (d.complete (.send r)) :=
  .stopped (h.complete_nil hop) (h.of_send hop).1

end Direction.Place

/-- Every completion leaves every direction at one of the places. -/
theorem place_step {s t : Session} {e : Completion} {n : Way → ℕ}
    (h : ∀ w, (s.way w).Place (n w)) (hs : s.step e = some t) (w : Way) :
    (t.way w).Place (owedAfter w (n w) e) := by
  by_cases hw : e.way = w
  · cases e with
    | read w' c =>
      obtain rfl : w' = w := hw
      simp only [Session.step, Option.ite_none_right_eq_some, Option.some.injEq] at hs
      obtain ⟨hop, rfl⟩ := hs
      rw [owedAfter, if_pos rfl, Session.way_modify_self]
      exact (h w').onRead hop c
    | readError w' =>
      obtain rfl : w' = w := hw
      simp only [Session.step, Option.ite_none_right_eq_some, Option.some.injEq] at hs
      obtain ⟨hop, rfl⟩ := hs
      rw [owedAfter, Session.way_onReadError, Session.way_modify_self]
      exact (h w').onReadError hop
    | sent w' r k =>
      obtain rfl : w' = w := hw
      simp only [Session.step, Option.ite_none_right_eq_some, Option.some.injEq] at hs
      obtain ⟨⟨hop, -, hk⟩, rfl⟩ := hs
      rw [owedAfter, if_pos rfl, Session.way_modify_self]
      exact (h w').onSent hop hk
    | sendError w' r =>
      obtain rfl : w' = w := hw
      simp only [Session.step, Option.ite_none_right_eq_some, Option.some.injEq] at hs
      obtain ⟨hop, rfl⟩ := hs
      rw [owedAfter, Session.way_modify_self]
      exact (h w').onSendError hop
  · rw [Session.step_other hs hw]
    have howed : owedAfter w (n w) e = n w := by
      cases e with
      | read w' c => exact if_neg hw
      | readError w' => rfl
      | sent w' r k => exact if_neg hw
      | sendError w' r => rfl
    rw [howed]
    exact h w

theorem place_run : ∀ {es : List Completion} {s t : Session} {n : Way → ℕ},
    (∀ w, (s.way w).Place (n w)) → s.run es = some t →
    ∀ w, (t.way w).Place (es.foldl (owedAfter w) (n w))
  | [], s, t, n, h, hrun => by
    obtain rfl := Option.some.inj hrun
    exact h
  | e :: es, s, t, n, h, hrun => by
    obtain ⟨s', hs, hrun⟩ := Session.run_cons hrun
    have hnext : ∀ w, (s'.way w).Place (owedAfter w (n w) e) := place_step h hs
    exact @place_run es s' t (fun w => owedAfter w (n w) e) hnext hrun

theorem place_relay (k : Kind) (buffer : Way → Buffer maxLength) (w : Way) :
    ((relay k buffer).way w).Place 0 := by
  rw [way_relay]
  exact .reading rfl rfl rfl

/-- The calls that a completion makes, in a run that has come to state `t` with it: sockets are
    closed only when nothing is outstanding in either direction and no chunk is written in part, and
    no half is ended that a direction still uses. -/
structure SafeCalls (es : List Completion) (t : Session) (calls : List Call) : Prop where
  closes : ∀ p, .close p ∈ calls → ∀ w, (t.way w).outstanding = [] ∧ owed w es = 0
  halves : ∀ c ∈ calls, ∀ w, (t.way w).outstanding ≠ [] → ∀ h ∈ c.halves, h ∉ w.uses

/-- What a completion that leads to `t` calls: only a failed read calls anything. -/
def callsOf (t : Session) : Completion → List Call
  | .readError w => [.shutdownReceive w.source, .shutdownSend w.destination] ++
      if (t.way w.other).flag then [.close .client, .close .remote] else []
  | _ => []

theorem calls_onReadError (s : Session) (w : Way) :
    (s.onReadError w).calls = s.calls ++ callsOf (s.onReadError w) (.readError w) := by
  unfold Session.onReadError callsOf
  dsimp only
  split_ifs <;> simp [Session.modify]

theorem calls_step {s t : Session} {e : Completion} (hs : s.step e = some t) :
    t.calls = s.calls ++ callsOf t e := by
  cases e with
  | read w c =>
    simp only [Session.step, Option.ite_none_right_eq_some, Option.some.injEq] at hs
    obtain ⟨-, rfl⟩ := hs
    exact (List.append_nil _).symm
  | readError w =>
    simp only [Session.step, Option.ite_none_right_eq_some, Option.some.injEq] at hs
    obtain ⟨-, rfl⟩ := hs
    exact calls_onReadError _ w
  | sent w r n =>
    simp only [Session.step, Option.ite_none_right_eq_some, Option.some.injEq] at hs
    obtain ⟨-, rfl⟩ := hs
    exact (List.append_nil _).symm
  | sendError w r =>
    simp only [Session.step, Option.ite_none_right_eq_some, Option.some.injEq] at hs
    obtain ⟨-, rfl⟩ := hs
    exact (List.append_nil _).symm

theorem SafeCalls.nil (es : List Completion) (t : Session) : SafeCalls es t [] :=
  ⟨fun _ hp => by simp at hp, fun _ hc => by simp at hc⟩

/-- The halves a direction gives up are not those of the other one. -/
theorem other_uses (w : Way) : .receive w.source ∉ w.other.uses ∧ .send w.destination ∉ w.other.uses := by
  cases w <;> decide

theorem other_of_ne {w w' : Way} (h : w' ≠ w) : w' = w.other := by
  cases w <;> cases w' <;> first | rfl | exact absurd rfl h

/-- In every run of a session, every direction has at most one operation outstanding, and the calls
    of the next completion are safe. -/
theorem teardown_safe (k : Kind) (buffer : Way → Buffer maxLength) (es : List Completion) (s : Session)
    (h : (relay k buffer).run es = some s) :
    (∀ w, (s.way w).outstanding.length ≤ 1) ∧ ∀ e t, s.step e = some t →
      ∃ calls, t.calls = s.calls ++ calls ∧ SafeCalls (es ++ [e]) t calls := by
  have hplace : ∀ w, (s.way w).Place (owed w es) := place_run (place_relay k buffer) h
  refine ⟨fun w => (hplace w).outstanding_le, fun e t hs => ⟨_, calls_step hs, ?_⟩⟩
  have hnext : ∀ w, (t.way w).Place (owed w (es ++ [e])) := fun w => by
    rw [owed, List.foldl_append]
    exact place_step hplace hs w
  cases e with
  | read w c => exact .nil _ t
  | sent w r n => exact .nil _ t
  | sendError w r => exact .nil _ t
  | readError w =>
    -- the direction whose read has failed is finished
    have hself : (t.way w).outstanding = [] ∧ owed w (es ++ [.readError w]) = 0 := by
      refine (hnext w).of_flag ?_
      simp only [Session.step, Option.ite_none_right_eq_some, Option.some.injEq] at hs
      obtain ⟨-, rfl⟩ := hs
      rw [Session.way_onReadError]
    have hboth : (t.way w.other).flag = true → ∀ w', (t.way w').outstanding = [] ∧
        owed w' (es ++ [.readError w]) = 0 := by
      intro hflag w'
      by_cases hw : w' = w
      · rw [hw]
        exact hself
      · rw [other_of_ne hw]
        exact (hnext w.other).of_flag hflag
    refine ⟨fun p hp w' => ?_, fun c hc w' hout h hh => ?_⟩
    · rcases List.mem_append.mp hp with hp | hp
      · simp at hp
      · split_ifs at hp with hflag
        · exact hboth hflag w'
        · cases hp
    · rcases List.mem_append.mp hc with hc | hc
      · have hw : w' = w.other := other_of_ne fun heq => hout (heq ▸ hself.1)
        subst hw
        obtain ⟨hreceive, hsend⟩ := other_uses w
        simp only [List.mem_cons, List.not_mem_nil, or_false] at hc
        rcases hc with rfl | rfl
        · rw [List.mem_singleton.mp hh]
          exact hreceive
        · rw [List.mem_singleton.mp hh]
          exact hsend
      · split_ifs at hc with hflag
        · exact absurd (hboth hflag w').1 hout
        · cases hc

/-- Both hosts stop sending: the second failed read closes the sockets. -/
theorem teardown_safe_both : ∃ s t, (relay .bind fun _ => .zero _).run [.readError .outward] = some s ∧
    s.step (.readError .inward) = some t ∧ .close .client ∈ t.calls ∧
    ∃ calls, t.calls = s.calls ++ calls ∧ SafeCalls [.readError .outward, .readError .inward] t calls :=
  ⟨_, _, rfl, rfl, by decide,
    (teardown_safe .bind (fun _ => .zero _) [.readError .outward] _ rfl).2 (.readError .inward) _ rfl⟩

end NetProg.Socks
