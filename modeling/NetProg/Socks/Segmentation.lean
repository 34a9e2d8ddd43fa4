import Mathlib.Data.List.GetD
import NetProg.Socks.SockSession
import NetProg.Socks.Transparency

/-! How a SOCKS session depends on the reads its client's bytes arrive in.

    The session reads once and parses what it has got, however little, and what comes after the
    request in the same read is never looked at again. So the first read has to be the request, not
    less, and not more if the session comes to the relay. -/

namespace NetProg.Socks

/-- What a client sends: the eight bytes of a request, a user id, a NUL, and then its data. -/
structure ClientStream where
  head : List UInt8
  userId : List UInt8
  data : List UInt8
  eight : head.length = 8
  free : 0 ∉ userId

/-- The request up to its NUL. -/
def ClientStream.request (m : ClientStream) : List UInt8 := m.head ++ m.userId ++ [0]

/-- All bytes of the client. -/
def ClientStream.bytes (m : ClientStream) : List UInt8 := m.request ++ m.data

/-- The bytes of some reads. -/
def joined (cs : List Chunk) : List UInt8 := cs.flatMap Chunk.bytes

/-- The chunks direction `w` reads in a run. -/
def reads (w : Way) (es : List Completion) : List Chunk :=
  es.filterMap fun
    | .read w' c => if w' = w then some c else none
    | _ => none

/-- A request is for the command, the port and the address that eight bytes encode. -/
structure Encodes (head : List UInt8) (q : SockRequest) : Prop where
  command : ∀ c, q.cd = [c] ↔ commandLetter (head.getD 1 0) = some c
  port : q.dstPort = decimalText (256 * (head.getD 2 0).toNat + (head.getD 3 0).toNat)
  address : q.dstIp = dotted ([4, 5, 6, 7].map fun i => decimalText (head.getD i 0).toNat)

/-- At every moment of a relay what went to the destination is the beginning of `data`, and before
    each read it is `data` up to the chunks that are still to be read. -/
def Relays (data : List UInt8) (cs : List Chunk) (s : Session) (es : List Completion) : Prop :=
  ∀ pre u, pre <+: es → s.run pre = some u → (u.way .inward).sent <+: data ∧
    (.read ∈ (u.way .inward).outstanding →
      (u.way .inward).sent ++ joined (cs.drop (reads .inward pre).length) = data)

/-- A session whose first read was `c`, which is now `t`, and which relays the reads `cs` along `es`
    if it has come to the relay: it acts on the head of the stream, it decides when the request is
    there, and it relays all data. -/
structure Independent (m : ClientStream) (c : Chunk) (cs : List Chunk) (t : SockSession)
    (buffer : Way → Buffer maxLength) (es : List Completion) : Prop where
  acts : Encodes m.head (parseRequest t.request .empty)
  waits : t.phase ≠ .doRead → m.request <+: c.bytes
  relays : ∀ k, t.phase = .relay k → Relays m.data cs (relay k buffer) es

/-- The first read holds the request; if the session has come to the relay, it holds nothing else, and
    every send to the destination took the bytes that were due. -/
def Aligned (m : ClientStream) (c : Chunk) (t : SockSession) (es : List Completion) : Prop :=
  m.request <+: c.bytes ∧ ∀ k, t.phase = .relay k → c.bytes = m.request ∧ InPlace .inward [] 0 es

/-! ### The request -/

theorem encodes_of_agree {head : List UInt8} {request : Buffer maxLength}
    (h : ∀ i < 8, byteAt request i = head.getD i 0) : Encodes head (parseRequest request .empty) := by
  refine ⟨fun c => ?_, ?_, ?_⟩
  · rw [parseRequest_cd, h 1 (by decide)]
  · simp only [parseRequest, bytetoint_eq, h 2 (by decide), h 3 (by decide)]
    rw [Nat.mul_comm]
  · rw [parseRequest_dstIp]
    simp [octets, h 4 (by decide), h 5 (by decide), h 6 (by decide), h 7 (by decide)]

/-- The array begins with the head of the stream when the read does. -/
theorem byteAt_fill {memory : Buffer maxLength} {c : Chunk} {m : ClientStream}
    (h : m.request <+: c.bytes) {i : ℕ} (hi : i < 8) :
    byteAt (memory.fill c.bytes c.fits) i = m.head.getD i 0 := by
  obtain ⟨rest, hrest⟩ := h
  have hlt : i < m.head.length := by
    rw [m.eight]
    exact hi
  have hbytes : (memory.fill c.bytes c.fits).bytes = c.bytes ++ memory.bytes.drop c.bytes.length := rfl
  rw [byteAt, hbytes, ← hrest, ClientStream.request]
  simp only [List.append_assoc]
  exact List.getD_append _ _ _ _ hlt

namespace SockSession

/-- After the first read `_request` stays as it is. -/
theorem step_request {s t : SockSession} {o : Outcome} (hs : s.phase ≠ .doRead)
    (h : s.step o = some t) : t.request = s.request ∧ t.phase ≠ .doRead := by
  unfold step at h
  split at h
  · exact absurd ‹s.phase = .doRead› hs
  · exact absurd ‹s.phase = .doRead› hs
  all_goals try cases h
  all_goals refine ⟨rfl, ?_⟩
  all_goals dsimp only
  all_goals try split_ifs
  all_goals simp

theorem run_request : ∀ {os : List Outcome} {s t : SockSession}, s.phase ≠ .doRead →
    s.run os = some t → t.request = s.request ∧ t.phase ≠ .doRead
  | [], s, t, hs, h => by
    obtain rfl := Option.some.inj h
    exact ⟨rfl, hs⟩
  | o :: os, s, t, hs, h => by
    obtain ⟨s', hstep, hrun⟩ := run_cons h
    obtain ⟨hreq, hphase⟩ := step_request hs hstep
    obtain ⟨hreq', hphase'⟩ := run_request hphase hrun
    exact ⟨hreq'.trans hreq, hphase'⟩

theorem doConnectSession_request (s : SockSession) (q : SockRequest) :
    (s.doConnectSession q).request = s.request ∧ (s.doConnectSession q).phase ≠ .doRead := by
  unfold doConnectSession
  split_ifs
  · exact ⟨rfl, by simp⟩
  · exact ⟨rfl, by simp⟩

theorem doBindSession_request (s : SockSession) (listen : Option ℕ) :
    (s.doBindSession listen).request = s.request ∧ (s.doBindSession listen).phase ≠ .doRead := by
  cases listen with
  | none => exact ⟨rfl, by simp [doBindSession]⟩
  | some port => exact ⟨rfl, by simp [doBindSession]⟩

/-- What the handler of the read starts, for any request `q` and any answer `v` of the firewall. -/
theorem started_request (s : SockSession) (q : SockRequest) (v : ℤ) (listen : Option ℕ) {t : SockSession}
    (h : (if v = 1 then
        if q.cd = ['c'] then s.doConnectSession q
        else if q.cd = ['b'] then s.doBindSession listen
        else { s with phase := .over }
      else s.rejectRequest) = t) : t.request = s.request ∧ t.phase ≠ .doRead := by
  split_ifs at h
  · exact h ▸ doConnectSession_request s q
  · exact h ▸ doBindSession_request s listen
  · exact h ▸ ⟨rfl, by simp⟩
  · exact h ▸ ⟨rfl, by simp [rejectRequest]⟩

/-- A session that has read decides on what the read left in `_request`. -/
theorem run_read {memory : Buffer maxLength} {c : Chunk} {conf : Option (List Char)}
    {listen : Option ℕ} {os : List Outcome} {t : SockSession}
    (h : (start memory).run (.read c conf listen :: os) = some t) :
    t.request = memory.fill c.bytes c.fits ∧ t.phase ≠ .doRead := by
  obtain ⟨s, hstep, hrun⟩ := run_cons h
  have hs : s.request = memory.fill c.bytes c.fits ∧ s.phase ≠ .doRead := by
    simp only [step, start, onRead, Option.map_eq_some_iff] at hstep
    obtain ⟨v, -, hv⟩ := hstep
    exact started_request ⟨.doRead, memory.fill c.bytes c.fits, .zero 8, []⟩ _ v listen hv
  obtain ⟨hreq, hphase⟩ := run_request hs.2 hrun
  exact ⟨hreq.trans hs.1, hphase⟩

end SockSession

/-! ### What the relay has read and written -/

theorem reads_cons (w : Way) (e : Completion) (es : List Completion) :
    reads w (e :: es) = reads w [e] ++ reads w es :=
  List.filterMap_append (l := [e])

theorem reads_mono {w : Way} {pre es : List Completion} (h : pre <+: es) :
    reads w pre <+: reads w es := by
  obtain ⟨post, rfl⟩ := h
  exact ⟨reads w post, List.filterMap_append.symm⟩

/-- Where the numbers of bytes read and written are: equal before a read, apart by what is to be
    sent, or stopped. -/
inductive Direction.Balance (d : Direction) : Prop
  | reading (op : d.outstanding = [.read]) (eq : d.sent.length = d.received.length)
  | sending (r : ℕ) (op : d.outstanding = [.send r]) (fits : r ≤ maxLength)
      (eq : d.sent.length + r = d.received.length)
  | stopped (op : d.outstanding = []) (le : d.sent.length ≤ d.received.length)

namespace Direction.Balance

variable {d : Direction}

theorem le (h : Balance d) : d.sent.length ≤ d.received.length := by
  cases h with
  | reading _ eq => exact eq.le
  | sending r _ _ eq => omega
  | stopped _ le => exact le

theorem outstanding_eq (h : Balance d) {op : Op} (hop : op ∈ d.outstanding) : d.outstanding = [op] := by
  cases h with
  | reading h => simpa [h, eq_comm] using hop
  | sending r h => simpa [h, eq_comm] using hop
  | stopped h => simp [h] at hop

theorem complete_nil (h : Balance d) {op : Op} (hop : op ∈ d.outstanding) :
    (d.complete op).outstanding = [] := by
  simp [Direction.complete, h.outstanding_eq hop]

theorem onRead (h : Balance d) (hop : .read ∈ d.outstanding) (c : Chunk) :
    Balance ((d.complete .read).onRead c) := by
  have hnil := h.complete_nil hop
  have heq : d.sent.length = d.received.length := by
    cases h with
    | reading _ eq => exact eq
    | sending r op => simp [op] at hop
    | stopped op => simp [op] at hop
  refine .sending c.bytes.length ?_ c.fits ?_
  · simp [Direction.onRead, Direction.doWrite, hnil]
  · simp [Direction.onRead, Direction.doWrite, Direction.complete, heq]

theorem onSent (h : Balance d) {r n : ℕ} (hop : .send r ∈ d.outstanding) (hn : n ≤ r) :
    Balance ((d.complete (.send r)).onSent r n) := by
  have hnil := h.complete_nil hop
  cases h with
  | reading op => simp [op] at hop
  | stopped op => simp [op] at hop
  | sending r' op fits eq =>
    obtain rfl : r = r' := by simpa [op] using hop
    have hbuf := d.buffer.size
    unfold Direction.onSent
    by_cases hrn : r = n
    · rw [if_neg (by simpa using hrn)]
      refine .reading ?_ ?_
      · simp [Direction.doRead, hnil]
      · simp only [Direction.doRead, Direction.complete, List.length_append, List.length_take, hbuf]
        omega
    · rw [if_pos hrn]
      refine .sending (r - n) ?_ (by omega) ?_
      · simp [Direction.doWrite, hnil]
      · simp only [Direction.doWrite, Direction.complete, List.length_append, List.length_take, hbuf]
        omega

end Direction.Balance

/-- What one completion does to a direction. -/
theorem balance_step {s t : Session} {e : Completion} {w : Way} (h : (s.way w).Balance)
    (hs : s.step e = some t) : (t.way w).Balance ∧
      (t.way w).received = (s.way w).received ++ joined (reads w [e]) := by
  by_cases hw : e.way = w
  · cases e with
    | read w' c =>
      obtain rfl : w' = w := hw
      simp only [Session.step, Option.ite_none_right_eq_some, Option.some.injEq] at hs
      obtain ⟨hop, rfl⟩ := hs
      rw [Session.way_modify_self]
      refine ⟨h.onRead hop c, ?_⟩
      simp [reads, joined, Direction.onRead, Direction.doWrite, Direction.complete]
    | readError w' =>
      obtain rfl : w' = w := hw
      simp only [Session.step, Option.ite_none_right_eq_some, Option.some.injEq] at hs
      obtain ⟨hop, rfl⟩ := hs
      rw [Session.way_onReadError, Session.way_modify_self]
      exact ⟨.stopped (h.complete_nil hop) h.le, by simp [reads, joined, Direction.complete]⟩
    | sent w' r n =>
      obtain rfl : w' = w := hw
      simp only [Session.step, Option.ite_none_right_eq_some, Option.some.injEq] at hs
      obtain ⟨⟨hop, -, hn⟩, rfl⟩ := hs
      rw [Session.way_modify_self]
      refine ⟨h.onSent hop hn, ?_⟩
      unfold Direction.onSent
      split_ifs <;> simp [reads, joined, Direction.doWrite, Direction.doRead, Direction.complete]
    | sendError w' r =>
      obtain rfl : w' = w := hw
      simp only [Session.step, Option.ite_none_right_eq_some, Option.some.injEq] at hs
      obtain ⟨hop, rfl⟩ := hs
      rw [Session.way_modify_self]
      exact ⟨.stopped (h.complete_nil hop) h.le, by simp [reads, joined, Direction.complete]⟩
  · rw [Session.step_other hs hw]
    refine ⟨h, ?_⟩
    cases e with
    | read w' c => simp [reads, joined, show w' ≠ w from hw]
    | _ => simp [reads, joined]

theorem balance_run {w : Way} : ∀ {es : List Completion} {s t : Session}, (s.way w).Balance →
    s.run es = some t → (t.way w).Balance ∧
      (t.way w).received = (s.way w).received ++ joined (reads w es)
  | [], s, t, h, hrun => by
    obtain rfl := Option.some.inj hrun
    exact ⟨h, by simp [reads, joined]⟩
  | e :: es, s, t, h, hrun => by
    obtain ⟨s', hs, hrest⟩ := Session.run_cons hrun
    obtain ⟨h', hrec⟩ := balance_step h hs
    obtain ⟨ht, hrec'⟩ := balance_run h' hrest
    refine ⟨ht, ?_⟩
    rw [hrec', hrec, reads_cons w e es, List.append_assoc, joined, joined, joined, List.flatMap_append]

theorem balance_relay {k : Kind} {buffer : Way → Buffer maxLength} {w : Way} {es : List Completion}
    {u : Session} (h : (relay k buffer).run es = some u) :
    (u.way w).Balance ∧ (u.way w).received = joined (reads w es) := by
  have hstart : ((relay k buffer).way w).Balance := by
    rw [way_relay]
    exact .reading rfl rfl
  have hrec := balance_run hstart h
  rw [way_relay] at hrec
  exact hrec

/-! ### The whole session -/

/-- The relay passes `data` on exactly when that is what it reads and its sends took the bytes that
    were due. -/
theorem relays_iff {data : List UInt8} {cs : List Chunk} {k : Kind} {buffer : Way → Buffer maxLength}
    {es : List Completion} (hrun : ((relay k buffer).run es).isSome) (hreads : reads .inward es <+: cs) :
    Relays data cs (relay k buffer) es ↔ joined cs = data ∧ InPlace .inward [] 0 es := by
  obtain ⟨t, ht⟩ := Option.isSome_iff_exists.mp hrun
  rw [← transparentRun_iff .inward es _ t [] 0 (stage_relay k buffer .inward) ht]
  -- what was read and what is to be read make up all there is
  have hparts : ∀ pre u, pre <+: es → (relay k buffer).run pre = some u → joined cs =
      (u.way .inward).received ++ joined (cs.drop (reads .inward pre).length) := by
    intro pre u hpre hu
    obtain ⟨rest, rfl⟩ := (reads_mono hpre).trans hreads
    rw [(balance_relay hu).2, List.drop_left, joined, joined, joined, List.flatMap_append]
  constructor
  · intro h
    have hdata : joined cs = data := by
      have hstart := (h [] _ (List.nil_prefix) rfl).2
      rw [way_relay] at hstart
      exact hstart List.mem_cons_self
    refine ⟨hdata, fun pre u hpre hu => ?_⟩
    obtain ⟨hsent, hidle⟩ := h pre u hpre hu
    have hsplit := hparts pre u hpre hu
    rw [hdata] at hsplit
    refine ⟨?_, fun hop => ?_⟩
    · refine List.prefix_of_prefix_length_le hsent ?_ (balance_relay hu).1.le
      exact ⟨_, hsplit.symm⟩
    · exact List.append_cancel_right ((hidle hop).trans hsplit)
  · rintro ⟨hdata, h⟩ pre u hpre hu
    obtain ⟨hsent, hidle⟩ := h pre u hpre hu
    have hsplit := hparts pre u hpre hu
    rw [hdata] at hsplit
    refine ⟨hsent.trans ⟨_, hsplit.symm⟩, fun hop => ?_⟩
    rw [hidle hop, ← hsplit]

/-- A session does not depend on how its client's bytes are cut exactly when the first read is
    `Aligned` with the request. -/
theorem segmentation_iff (memory : Buffer maxLength) (m : ClientStream) (c : Chunk) (cs : List Chunk)
    (hstream : c.bytes ++ joined cs = m.bytes) (conf : Option (List Char)) (listen : Option ℕ)
    (os : List Outcome) (t : SockSession)
    (h : (SockSession.start memory).run (.read c conf listen :: os) = some t)
    (buffer : Way → Buffer maxLength) (es : List Completion)
    (hes : ∀ k, t.phase = .relay k →
      ((relay k buffer).run es).isSome ∧ reads .inward es <+: cs) :
    Independent m c cs t buffer es ↔ Aligned m c t es := by
  obtain ⟨hrequest, hphase⟩ := SockSession.run_read h
  have hdata : joined cs = m.data ↔ c.bytes = m.request := by
    rw [ClientStream.bytes] at hstream
    constructor
    · intro heq
      rw [heq] at hstream
      exact List.append_cancel_right hstream
    · intro heq
      rw [heq] at hstream
      exact List.append_cancel_left hstream
  have hrelays : ∀ k, t.phase = .relay k → (Relays m.data cs (relay k buffer) es ↔
      c.bytes = m.request ∧ InPlace .inward [] 0 es) := by
    intro k hk
    obtain ⟨hrun, hreads⟩ := hes k hk
    rw [relays_iff hrun hreads, hdata]
  constructor
  · rintro ⟨-, hwaits, hall⟩
    exact ⟨hwaits hphase, fun k hk => (hrelays k hk).mp (hall k hk)⟩
  · rintro ⟨hwhole, hall⟩
    refine ⟨?_, fun _ => hwhole, fun k hk => (hrelays k hk).mpr (hall k hk)⟩
    rw [hrequest]
    exact encodes_of_agree fun i hi => byteAt_fill hwhole hi

/-- A request to connect to 1.2.3.4, and one byte of data. -/
def oneByte : ClientStream := ⟨[4, 1, 0, 80, 1, 2, 3, 4], [], [97], rfl, by simp⟩

/-- The outcomes of a connection that comes up. -/
def connects : List Outcome := [.resolve true, .connect true, .send (.zero 8)]

/-- The request is read first and the byte by the relay. -/
theorem segmentation_iff_apart : ∃ t, t.phase = .relay .http ∧
    Independent oneByte connectRequest [⟨[97], by decide, by decide⟩] t (fun _ => .zero _)
      [.read .inward ⟨[97], by decide, by decide⟩, .sent .inward 1 1] := by
  have h : ((SockSession.start (.zero _)).run (.read connectRequest (some permitAll) none ::
      connects)).map (fun t => t.phase) = some (.relay .http) := by decide +kernel
  obtain ⟨t, ht, hphase⟩ := Option.map_eq_some_iff.mp h
  refine ⟨t, hphase, (segmentation_iff (.zero _) oneByte connectRequest _ rfl (some permitAll) none
    connects t ht _ _ fun k hk => ?_).mpr ⟨List.prefix_rfl, fun k hk => ⟨rfl, ?_⟩⟩⟩
  · obtain rfl : Kind.http = k := Phase.relay.inj (hphase.symm.trans hk)
    exact ⟨rfl, List.prefix_rfl⟩
  · exact ⟨rfl, trivial⟩

/-- The byte comes in the read of the request: it is lost. -/
theorem segmentation_loses : ∃ (c : Chunk) (t : SockSession), c.bytes = oneByte.bytes ∧
    (SockSession.start (.zero _)).run (.read c (some permitAll) none :: connects) = some t ∧
    ¬ Independent oneByte c [] t (fun _ => .zero _) [] := by
  have h : ((SockSession.start (.zero _)).run (.read ⟨oneByte.bytes, by decide, by decide⟩
      (some permitAll) none :: connects)).map (fun t => t.phase) = some (.relay .http) := by
    decide +kernel
  obtain ⟨t, ht, hphase⟩ := Option.map_eq_some_iff.mp h
  refine ⟨_, t, rfl, ht, fun hind => ?_⟩
  have hidle := (hind.relays .http hphase [] _ List.prefix_rfl rfl).2 List.mem_cons_self
  exact absurd hidle (by decide)

end NetProg.Socks
