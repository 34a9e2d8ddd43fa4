import NetProg.Socks.Firewall

/-! A client of the SOCKS server from its request to the relay (`SockSession`, and the first callbacks
    of `HttpSession` and `BindSession`).

    One operation is outstanding at a time; each callback starts the next one or lets the session end.
    `_reply` belongs to the `SockSession`. The other two sessions get a pointer to it, but the
    `SockSession` is destroyed when the handler of its read returns: what they send is what that
    memory holds by then. `rejectRequest` keeps the `SockSession` until the reply is sent. -/

namespace NetProg.Socks

/-- `ACCEPT` and `REJECT`. -/
def ACCEPT : UInt8 := 90
def REJECT : UInt8 := 91

/-- The eight bytes of a reply. -/
abbrev Reply := Buffer 8

/-- The second byte of a reply. -/
def Reply.code (r : Reply) : UInt8 := r.bytes.getD 1 0

/-- The callback that is outstanding. -/
inductive Phase where
  | doRead
  | resolve
  | connect
  | socksReply
  | doReply
  | doAccept
  | acceptReply
  | rejectRequest
  | relay (k : Kind)
  | over
  deriving DecidableEq

/-- A session: its phase, `_request`, `_reply` while it exists, and what the client has been sent. -/
structure SockSession where
  phase : Phase
  request : Buffer maxLength
  reply : Reply
  replies : List Reply

/-- What an operation comes to. `read` brings with it the file of the firewall and, for `BIND`, the
    port of the acceptor, or none when one of `open`, `bind` and `listen` throws. `send` brings what
    the memory behind `_reply` holds. -/
inductive Outcome where
  | read (data : Chunk) (conf : Option (List Char)) (listen : Option ℕ)
  | readError
  | resolve (ok : Bool)
  | connect (ok : Bool)
  | accept (ok : Bool)
  | send (memory : Reply)

/-- A reply that repeats bytes 2 to 7 of the request. -/
def replyOf (code : UInt8) (request : Buffer maxLength) : Reply :=
  ⟨[0, code, byteAt request 2, byteAt request 3, byteAt request 4, byteAt request 5,
    byteAt request 6, byteAt request 7], rfl⟩

/-- The reply of `BIND`, with the port of the acceptor. -/
def bindReply (port : ℕ) : Reply :=
  ⟨[0, ACCEPT, UInt8.ofNat (port / 256), UInt8.ofNat (port % 256), 0, 0, 0, 0], rfl⟩

/-- The destination `doConnectSession` does nothing for. -/
def zeroIp : List Char := ['0', '.', '0', '.', '0', '.', '0']

namespace SockSession

/-- A session that has started. The arrays hold whatever was in their memory. -/
def start (request : Buffer maxLength) : SockSession := ⟨.doRead, request, .zero 8, []⟩

/-- `doBindSession` and `BindSession::do_connect`; an exception leaves `io_service::run`. -/
def doBindSession (s : SockSession) : Option ℕ → SockSession
  | some port => { s with reply := bindReply port, phase := .doReply }
  | none => { s with phase := .over }

/-- `doConnectSession`. -/
def doConnectSession (s : SockSession) (q : SockRequest) : SockSession :=
  if q.dstIp ≠ zeroIp then { s with reply := replyOf ACCEPT s.request, phase := .resolve }
  else { s with phase := .over }

/-- `rejectRequest`. -/
def rejectRequest (s : SockSession) : SockSession :=
  { s with reply := replyOf REJECT s.request, phase := .rejectRequest }

/-- The handler of `do_read`. It does not look at the length of the read. -/
def onRead (s : SockSession) (data : Chunk) (conf : Option (List Char)) (listen : Option ℕ) :
    Option SockSession :=
  let s := { s with request := s.request.fill data.bytes data.fits }
  let q := parseRequest s.request .empty
  (firewall conf q q.cd).map fun v =>
    if v = 1 then
      if q.cd = ['c'] then s.doConnectSession q
      else if q.cd = ['b'] then s.doBindSession listen
      else { s with phase := .over }
    else s.rejectRequest

/-- One operation completes. -/
def step (s : SockSession) (o : Outcome) : Option SockSession :=
  match s.phase, o with
  | .doRead, .read data conf listen => s.onRead data conf listen
  | .doRead, .readError => some { s with phase := .over }
  | .rejectRequest, .send _ => some { s with replies := s.replies ++ [s.reply], phase := .over }
  | .resolve, .resolve ok => some { s with phase := if ok then .connect else .over }
  | .connect, .connect ok => some { s with phase := if ok then .socksReply else .over }
  | .socksReply, .send memory =>
    some { s with replies := s.replies ++ [memory], phase := .relay .http }
  | .doReply, .send memory => some { s with replies := s.replies ++ [memory], phase := .doAccept }
  | .doAccept, .accept ok => some { s with phase := if ok then .acceptReply else .over }
  | .acceptReply, .send memory =>
    some { s with replies := s.replies ++ [memory], phase := .relay .bind }
  | _, _ => none

/-- A run over some outcomes. -/
def run : SockSession → List Outcome → Option SockSession
  | s, [] => some s
  | s, o :: os => (s.step o).bind fun s => s.run os

end SockSession

/-- The session has come to the relay or to its end. -/
def Phase.Finished (p : Phase) : Prop := p = .over ∨ ∃ k, p = .relay k

/-! ### The replies a request calls for -/

/-- Whether the firewall lets a request pass. -/
def Passes (conf : Option (List Char)) (request : Buffer maxLength) : Prop :=
  firewall conf (parseRequest request .empty) (parseRequest request .empty).cd = some 1

instance (conf : Option (List Char)) (request : Buffer maxLength) : Decidable (Passes conf request) :=
  inferInstanceAs (Decidable (_ = _))

/-- What happened to the connection: whether it was made, and whether one was accepted. -/
def connected (os : List Outcome) : Bool := os.any fun o => o matches .connect true
def accepted (os : List Outcome) : Bool := os.any fun o => o matches .accept true

/-- The codes of the replies: one for the connection, or one for the acceptor and one for a connection
    it has accepted; one for a request that is refused. -/
def expectedCodes (conf : Option (List Char)) (request : Buffer maxLength) (listen : Option ℕ)
    (os : List Outcome) : List UInt8 :=
  if Passes conf request then
    if (parseRequest request .empty).cd = ['c'] then [if connected os then ACCEPT else REJECT]
    else if listen.isSome then ACCEPT :: if accepted os then [ACCEPT] else []
    else [REJECT]
  else [REJECT]

/-- The memory behind `_reply` still holds the code whenever it is sent. -/
def Kept (os : List Outcome) : Prop := ∀ memory, .send memory ∈ os → Reply.code memory = ACCEPT

/-- When the client is sent the right replies: a request that is refused, a connection that is made
    to an address other than 0.0.0.0, or an acceptor that listens. -/
def Replied (conf : Option (List Char)) (request : Buffer maxLength) (listen : Option ℕ)
    (os : List Outcome) : Prop :=
  ¬ Passes conf request ∨
    (Kept os ∧ (parseRequest request .empty).cd = ['c'] ∧ connected os = true) ∨
    (Kept os ∧ (parseRequest request .empty).cd = ['b'] ∧ listen.isSome = true)

/-! ### Runs from each phase -/

namespace SockSession

theorem run_cons {s t : SockSession} {o : Outcome} {os : List Outcome} (h : s.run (o :: os) = some t) :
    ∃ s', s.step o = some s' ∧ s'.run os = some t := by
  rw [run, Option.bind_eq_some_iff] at h
  exact h

/-- What can complete in each phase, and what it does. -/
theorem step_iff {s s' : SockSession} {o : Outcome} : s.step o = some s' ↔
    match s.phase with
    | .doRead => (∃ data conf listen, o = .read data conf listen ∧
          s.onRead data conf listen = some s') ∨ (o = .readError ∧ s' = { s with phase := .over })
    | .rejectRequest => ∃ memory, o = .send memory ∧
        s' = { s with replies := s.replies ++ [s.reply], phase := .over }
    | .resolve => ∃ ok, o = .resolve ok ∧ s' = { s with phase := if ok then .connect else .over }
    | .connect => ∃ ok, o = .connect ok ∧ s' = { s with phase := if ok then .socksReply else .over }
    | .socksReply => ∃ memory, o = .send memory ∧
        s' = { s with replies := s.replies ++ [memory], phase := .relay .http }
    | .doReply => ∃ memory, o = .send memory ∧
        s' = { s with replies := s.replies ++ [memory], phase := .doAccept }
    | .doAccept => ∃ ok, o = .accept ok ∧ s' = { s with phase := if ok then .acceptReply else .over }
    | .acceptReply => ∃ memory, o = .send memory ∧
        s' = { s with replies := s.replies ++ [memory], phase := .relay .bind }
    | .relay _ | .over => False := by
  unfold step
  cases s.phase <;> cases o <;> simp [eq_comm]

/-- Nothing completes once the session is finished. -/
theorem run_finished {s t : SockSession} (hs : s.phase.Finished) : ∀ {os : List Outcome},
    s.run os = some t → os = [] ∧ t = s
  | [], h => ⟨rfl, (Option.some.inj h).symm⟩
  | o :: os, h => by
    obtain ⟨s', hstep, -⟩ := run_cons h
    rw [step_iff] at hstep
    rcases hs with hs | ⟨k, hs⟩
    · rw [hs] at hstep
      exact hstep.elim
    · rw [hs] at hstep
      exact hstep.elim

/-- A phase that waits for something is not finished. -/
theorem run_nil_ne {s t : SockSession} (h : s.run [] = some t) (hs : ¬ s.phase.Finished) :
    ¬ t.phase.Finished := by
  obtain rfl := Option.some.inj h
  exact hs

theorem not_finished {s : SockSession} {p : Phase} (hs : s.phase = p) (hover : p ≠ .over)
    (hrelay : ∀ k, p ≠ .relay k) : ¬ s.phase.Finished := by
  rintro (h | ⟨k, h⟩)
  · exact hover (hs.symm.trans h)
  · exact hrelay k (hs.symm.trans h)

/-- A refused request is answered from the `_reply` of the session. -/
theorem run_rejectRequest {s t : SockSession} (hs : s.phase = .rejectRequest) (ht : t.phase.Finished)
    {os : List Outcome} (h : s.run os = some t) : t.replies = s.replies ++ [s.reply] := by
  cases os with
  | nil => exact absurd ht (run_nil_ne h (not_finished hs (by decide) (by simp)))
  | cons o os =>
    obtain ⟨s', hstep, hrun⟩ := run_cons h
    rw [step_iff, hs] at hstep
    obtain ⟨memory, rfl, rfl⟩ := hstep
    obtain ⟨-, rfl⟩ := run_finished (Or.inl rfl) hrun
    rfl

/-- A reply through the pointer of an `HttpSession`. -/
theorem run_socksReply {s t : SockSession} (hs : s.phase = .socksReply) (ht : t.phase.Finished)
    {os : List Outcome} (h : s.run os = some t) :
    ∃ memory, os = [.send memory] ∧ t.replies = s.replies ++ [memory] := by
  cases os with
  | nil => exact absurd ht (run_nil_ne h (not_finished hs (by decide) (by simp)))
  | cons o os =>
    obtain ⟨s', hstep, hrun⟩ := run_cons h
    rw [step_iff, hs] at hstep
    obtain ⟨memory, rfl, rfl⟩ := hstep
    obtain ⟨rfl, rfl⟩ := run_finished (Or.inr ⟨_, rfl⟩) hrun
    exact ⟨memory, rfl, rfl⟩

theorem run_connect {s t : SockSession} (hs : s.phase = .connect) (ht : t.phase.Finished)
    {os : List Outcome} (h : s.run os = some t) :
    os = [.connect false] ∧ t.replies = s.replies ∨
      ∃ memory, os = [.connect true, .send memory] ∧ t.replies = s.replies ++ [memory] := by
  cases os with
  | nil => exact absurd ht (run_nil_ne h (not_finished hs (by decide) (by simp)))
  | cons o os =>
    obtain ⟨s', hstep, hrun⟩ := run_cons h
    rw [step_iff, hs] at hstep
    obtain ⟨ok, rfl, rfl⟩ := hstep
    cases ok with
    | false =>
      obtain ⟨rfl, rfl⟩ := run_finished (Or.inl rfl) hrun
      exact Or.inl ⟨rfl, rfl⟩
    | true =>
      obtain ⟨memory, rfl, hreplies⟩ := run_socksReply rfl ht hrun
      exact Or.inr ⟨memory, rfl, hreplies⟩

/-- The outcomes after a request to connect. -/
theorem run_resolve {s t : SockSession} (hs : s.phase = .resolve) (ht : t.phase.Finished)
    {os : List Outcome} (h : s.run os = some t) :
    connected os = false ∧ t.replies = s.replies ∨
      ∃ memory, os = [.resolve true, .connect true, .send memory] ∧
        t.replies = s.replies ++ [memory] := by
  cases os with
  | nil => exact absurd ht (run_nil_ne h (not_finished hs (by decide) (by simp)))
  | cons o os =>
    obtain ⟨s', hstep, hrun⟩ := run_cons h
    rw [step_iff, hs] at hstep
    obtain ⟨ok, rfl, rfl⟩ := hstep
    cases ok with
    | false =>
      obtain ⟨rfl, rfl⟩ := run_finished (Or.inl rfl) hrun
      exact Or.inl ⟨rfl, rfl⟩
    | true =>
      rcases run_connect rfl ht hrun with ⟨rfl, hreplies⟩ | ⟨memory, rfl, hreplies⟩
      · exact Or.inl ⟨rfl, hreplies⟩
      · exact Or.inr ⟨memory, rfl, hreplies⟩

theorem run_acceptReply {s t : SockSession} (hs : s.phase = .acceptReply) (ht : t.phase.Finished)
    {os : List Outcome} (h : s.run os = some t) :
    ∃ memory, os = [.send memory] ∧ t.replies = s.replies ++ [memory] := by
  cases os with
  | nil => exact absurd ht (run_nil_ne h (not_finished hs (by decide) (by simp)))
  | cons o os =>
    obtain ⟨s', hstep, hrun⟩ := run_cons h
    rw [step_iff, hs] at hstep
    obtain ⟨memory, rfl, rfl⟩ := hstep
    obtain ⟨rfl, rfl⟩ := run_finished (Or.inr ⟨_, rfl⟩) hrun
    exact ⟨memory, rfl, rfl⟩

theorem run_doAccept {s t : SockSession} (hs : s.phase = .doAccept) (ht : t.phase.Finished)
    {os : List Outcome} (h : s.run os = some t) :
    os = [.accept false] ∧ t.replies = s.replies ∨
      ∃ memory, os = [.accept true, .send memory] ∧ t.replies = s.replies ++ [memory] := by
  cases os with
  | nil => exact absurd ht (run_nil_ne h (not_finished hs (by decide) (by simp)))
  | cons o os =>
    obtain ⟨s', hstep, hrun⟩ := run_cons h
    rw [step_iff, hs] at hstep
    obtain ⟨ok, rfl, rfl⟩ := hstep
    cases ok with
    | false =>
      obtain ⟨rfl, rfl⟩ := run_finished (Or.inl rfl) hrun
      exact Or.inl ⟨rfl, rfl⟩
    | true =>
      obtain ⟨memory, rfl, hreplies⟩ := run_acceptReply rfl ht hrun
      exact Or.inr ⟨memory, rfl, hreplies⟩

/-- The outcomes after a request to bind. -/
theorem run_doReply {s t : SockSession} (hs : s.phase = .doReply) (ht : t.phase.Finished)
    {os : List Outcome} (h : s.run os = some t) :
    ∃ first, os = [.send first, .accept false] ∧ t.replies = s.replies ++ [first] ∨
      ∃ second, os = [.send first, .accept true, .send second] ∧
        t.replies = s.replies ++ [first, second] := by
  cases os with
  | nil => exact absurd ht (run_nil_ne h (not_finished hs (by decide) (by simp)))
  | cons o os =>
    obtain ⟨s', hstep, hrun⟩ := run_cons h
    rw [step_iff, hs] at hstep
    obtain ⟨first, rfl, rfl⟩ := hstep
    refine ⟨first, ?_⟩
    rcases run_doAccept rfl ht hrun with ⟨rfl, hreplies⟩ | ⟨second, rfl, hreplies⟩
    · exact Or.inl ⟨rfl, hreplies⟩
    · refine Or.inr ⟨second, rfl, ?_⟩
      rw [hreplies, List.append_assoc]
      rfl

end SockSession

/-! ### The replies of a whole session -/

/-- No word of a line is the empty string. -/
theorem permitLine_nil (dstIp line : List Char) : permitLine [] dstIp line ≠ some true := by
  have hne : ∀ w ∈ pieces isSpace (line.takeWhile (· != '#')), w ≠ [] := by
    intro w hw
    simpa using (List.mem_filter.mp hw).2
  unfold permitLine
  cases hwords : pieces isSpace (line.takeWhile (· != '#')) with
  | nil => simp
  | cons word rest =>
    cases rest with
    | nil =>
      dsimp only
      split_ifs <;> simp
    | cons command rest =>
      have hcommand : command ≠ [] := hne _ (by simp [hwords])
      simp only [hcommand, if_false]
      split_ifs <;> simp

theorem firewallLoop_nil (dstIp : List Char) : ∀ lines : List (List Char),
    firewallLoop [] dstIp lines ≠ some 1
  | [] => by simp [firewallLoop]
  | line :: lines => by
    have hline := permitLine_nil dstIp line
    have ih := firewallLoop_nil dstIp lines
    rw [firewallLoop]
    cases hp : permitLine [] dstIp line with
    | none => simp
    | some b =>
      cases b with
      | true => exact absurd hp hline
      | false => simpa using ih

/-- The firewall lets only requests to connect or to bind pass. -/
theorem Passes.command {conf : Option (List Char)} {request : Buffer maxLength}
    (h : Passes conf request) : (parseRequest request .empty).cd = ['c'] ∨
      (parseRequest request .empty).cd = ['b'] := by
  have hcd : (parseRequest request .empty).cd = ['c'] ∨ (parseRequest request .empty).cd = ['b'] ∨
      (parseRequest request .empty).cd = [] := by
    simp only [parseRequest, SockRequest.empty]
    split_ifs <;> simp
  rcases hcd with hc | hb | hnone
  · exact Or.inl hc
  · exact Or.inr hb
  · rw [Passes, hnone] at h
    cases conf with
    | none => simp [firewall] at h
    | some file => exact absurd h (firewallLoop_nil _ _)

/-- Of a session that has come to the relay or to its end the client has got the replies that the
    outcomes call for exactly under `Replied`. -/
theorem replies_right_iff (memory : Buffer maxLength) (data : Chunk) (conf : Option (List Char))
    (listen : Option ℕ) (os : List Outcome) (t : SockSession)
    (h : (SockSession.start memory).run (.read data conf listen :: os) = some t)
    (ht : t.phase.Finished) :
    let request := memory.fill data.bytes data.fits
    t.replies.map Reply.code = expectedCodes conf request listen os ↔
      Replied conf request listen os := by
  intro request
  obtain ⟨s, hstep, hrun⟩ := SockSession.run_cons h
  simp only [SockSession.step, SockSession.start, SockSession.onRead, Option.map_eq_some_iff] at hstep
  obtain ⟨v, hv, rfl⟩ := hstep
  by_cases hpass : Passes conf request
  · have hv1 : v = 1 := Option.some.inj (hv.symm.trans hpass)
    subst hv1
    rcases hpass.command with hc | hb
    · have hreplied : Replied conf request listen os ↔ Kept os ∧ connected os = true := by
        simp [Replied, hpass, hc]
      have hcodes : expectedCodes conf request listen os =
          [if connected os then ACCEPT else REJECT] := by
        simp [expectedCodes, hpass, hc]
      rw [hreplied, hcodes]
      have hrun : (SockSession.doConnectSession ⟨.doRead, request, .zero 8, []⟩
          (parseRequest request .empty)).run os = some t := by
        simpa [hc, request] using hrun
      rw [SockSession.doConnectSession] at hrun
      split_ifs at hrun with hzero
      · rcases SockSession.run_resolve rfl ht hrun with ⟨hconn, hreplies⟩ | ⟨m, rfl, hreplies⟩
        · -- no connection, and no reply
          simp [hreplies, hconn]
        · simp [hreplies, connected, Kept]
      · obtain ⟨rfl, rfl⟩ := SockSession.run_finished (Or.inl rfl) hrun
        simp [connected]
    · have hreplied : Replied conf request listen os ↔ Kept os ∧ listen.isSome = true := by
        simp [Replied, hpass, hb]
      have hcodes : expectedCodes conf request listen os =
          if listen.isSome then ACCEPT :: if accepted os then [ACCEPT] else [] else [REJECT] := by
        simp [expectedCodes, hpass, hb]
      rw [hreplied, hcodes]
      have hrun : (SockSession.doBindSession ⟨.doRead, request, .zero 8, []⟩ listen).run os = some t := by
        simpa [hb, request] using hrun
      cases listen with
      | none =>
        obtain ⟨rfl, rfl⟩ := SockSession.run_finished (Or.inl rfl) hrun
        simp [SockSession.doBindSession]
      | some port =>
        obtain ⟨first, ⟨rfl, hreplies⟩ | ⟨second, rfl, hreplies⟩⟩ :=
          SockSession.run_doReply rfl ht hrun
        · simp [hreplies, SockSession.doBindSession, accepted, Kept]
        · simp [hreplies, SockSession.doBindSession, accepted, Kept]
  · have hv1 : v ≠ 1 := by
      rintro rfl
      exact hpass hv
    simp only [hv1, if_false] at hrun
    have hreplies := SockSession.run_rejectRequest rfl ht hrun
    rw [hreplies, expectedCodes, if_neg hpass, Replied]
    simp only [hpass, not_false_iff, true_or, iff_true]
    rfl

/-- A request to connect to 1.2.3.4. -/
def connectRequest : Chunk := ⟨[4, 1, 0, 80, 1, 2, 3, 4, 0], by decide, by decide⟩

/-- `permit c *.*.*.*`, as in the repository. -/
def permitAll : List Char :=
  ['p', 'e', 'r', 'm', 'i', 't', ' ', 'c', ' ', '*', '.', '*', '.', '*', '.', '*', '\n']

/-- A connection that is made, with the reply still in memory. -/
theorem replies_right_iff_connected : ∃ t, (SockSession.start (.zero _)).run
      [.read connectRequest (some permitAll) none, .resolve true, .connect true,
        .send (replyOf ACCEPT ((Buffer.zero _).fill connectRequest.bytes connectRequest.fits))] = some t ∧
    t.replies.map Reply.code = [ACCEPT] := by
  let request := (Buffer.zero maxLength).fill connectRequest.bytes connectRequest.fits
  let os : List Outcome := [.resolve true, .connect true, .send (replyOf ACCEPT request)]
  have h : ((SockSession.start (.zero _)).run (.read connectRequest (some permitAll) none :: os)).map
      (fun t => t.phase) = some (.relay .http) := by decide +kernel
  have hcodes : expectedCodes (some permitAll) request none os = [ACCEPT] := by decide +kernel
  obtain ⟨t, ht, hphase⟩ := Option.map_eq_some_iff.mp h
  refine ⟨t, ht, ?_⟩
  rw [← hcodes]
  refine (replies_right_iff (.zero _) connectRequest (some permitAll) none os t ht
    (Or.inr ⟨_, hphase⟩)).mpr (Or.inr (Or.inl ⟨?_, by decide +kernel, rfl⟩))
  intro memory hmem
  obtain rfl : memory = replyOf ACCEPT request := by simpa [os] using hmem
  rfl

/-- The destination cannot be reached: the client is sent nothing at all. -/
theorem connect_error_no_reply : ∃ t, (SockSession.start (.zero _)).run
      [.read connectRequest (some permitAll) none, .resolve true, .connect false] = some t ∧
    t.phase = .over ∧ t.replies = [] ∧
    expectedCodes (some permitAll) ((Buffer.zero _).fill connectRequest.bytes connectRequest.fits) none
      [.resolve true, .connect false] = [REJECT] := by
  have h : ((SockSession.start (.zero _)).run [.read connectRequest (some permitAll) none,
      .resolve true, .connect false]).map (fun t => (t.phase, t.replies.length)) =
      some (.over, 0) := by decide +kernel
  obtain ⟨t, ht, hend⟩ := Option.map_eq_some_iff.mp h
  obtain ⟨hphase, hlen⟩ := Prod.mk.inj hend
  exact ⟨t, ht, hphase, List.length_eq_zero_iff.mp hlen, by decide +kernel⟩

end NetProg.Socks
