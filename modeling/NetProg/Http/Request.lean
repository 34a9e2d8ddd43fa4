import NetProg.Lib.StdString

/-! The request parser of the two HTTP servers (`http_server.cpp`, `windows_cgi_server/main.cpp`).

    Whatever one read brings is taken for a request, with all of the buffer behind it. The parser cuts strings
    with `find`, `substr` and `erase`; `none` is the exception of a position past the end. -/

namespace NetProg.Http

open StdString

/-- `_data`. -/
structure Data where
  chars : List Char
  size : chars.length = 1024

/-- The entries of `_env` that the parser sets. -/
inductive Key where
  | httpHost
  | requestMethod
  | requestUri
  | queryString
  | serverProtocol
  deriving DecidableEq

/-- `_env`. -/
abbrev Env := Key → List Char

/-- `_env[key] = value`. -/
def Env.set (env : Env) (key : Key) (value : List Char) : Env := Function.update env key value

/-- What stands behind the `?`. -/
def queryOf (uriAndQuery : List Char) : Option (List Char) :=
  if find '?' uriAndQuery ≠ npos then
    substr uriAndQuery (add (find '?' uriAndQuery) 1) uriAndQuery.length
  else some []

/-- `parseHttpRequest`; `trim` is what happens to the text behind the blank of the second line. -/
def parse (trim : List Char → Option (List Char)) (env : Env) (req : List Char) : Option Env := do
  let reqHeader ← substr req 0 (find '\n' req)
  let req ← erase req 0 (add (find '\n' req) 1)
  let hostLine ← substr req 0 (find '\n' req)
  let host ← substr hostLine (add (find ' ' req) 1) hostLine.length
  let host ← trim host
  let env := env.set .httpHost host
  let method ← substr reqHeader 0 (find ' ' reqHeader)
  let env := env.set .requestMethod method
  let reqHeader ← erase reqHeader 0 (add (find ' ' reqHeader) 1)
  let uriAndQuery ← substr reqHeader 0 (find ' ' reqHeader)
  let env := env.set .requestUri uriAndQuery
  let query ← queryOf uriAndQuery
  let env := env.set .queryString query
  let reqHeader ← erase reqHeader 0 (add (find ' ' reqHeader) 1)
  some (env.set .serverProtocol reqHeader)

/-- `parseHttpRequest` of `http_server.cpp`, which cuts the port off. -/
def parseHttpRequest (env : Env) (req : List Char) : Option Env :=
  parse (fun host => substr host 0 (find ':' host)) env req

/-- `parseHttpRequest` of `windows_cgi_server/main.cpp`. -/
def parseWindowsRequest (env : Env) (req : List Char) : Option Env := parse some env req

/-- The path in `connect_to_url`. -/
def uri (env : Env) : Option (List Char) := substr (env .requestUri) 0 (find '?' (env .requestUri))

/-- The read handler up to the path; `env` is what the constructor has set. -/
def handle (parser : Env → List Char → Option Env) (env : Env) (data : Data) : Option (Env × List Char) := do
  let env ← parser env data.chars
  let path ← uri env
  some (env, path)

/-! ### What the parser does -/

/-- The first line, and what is left behind it. Without a newline both are all there is. -/
def header (req : List Char) : List Char := before '\n' req
def rest (req : List Char) : List Char := after '\n' req

theorem queryOf_eq {uri : List Char} (h : Fits uri) :
    queryOf uri = some (if '?' ∈ uri then after '?' uri else []) := by
  rw [queryOf]
  by_cases hmem : '?' ∈ uri
  · have hlt := length_before_lt hmem
    have hne : find '?' uri ≠ npos := by
      rw [find_of_mem hmem]
      unfold Fits at h
      omega
    rw [if_pos hmem, if_pos hne, substr_find_succ h]
  · have heq : find '?' uri = npos := if_neg hmem
    rw [if_neg hmem, if_neg (not_not.mpr heq)]

/-- The entries after parsing. -/
def parsed (env : Env) (req host : List Char) : Env :=
  ((((env.set .httpHost host).set .requestMethod (before ' ' (header req))).set .requestUri
    (before ' ' (after ' ' (header req)))).set .queryString
      (if '?' ∈ before ' ' (after ' ' (header req)) then after '?' (before ' ' (after ' ' (header req)))
        else [])).set .serverProtocol (after ' ' (after ' ' (header req)))

/-- The position of the host is looked for in all that is left, and used in the second line. -/
def hostText (req : List Char) : Option (List Char) :=
  substr (before '\n' (rest req)) (add (find ' ' (rest req)) 1) (before '\n' (rest req)).length

theorem parse_eq (trim : List Char → Option (List Char)) (env : Env) {req : List Char} (hreq : Fits req) :
    parse trim env req = (hostText req).bind fun host => (trim host).map fun host => parsed env req host := by
  have hheader : Fits (before '\n' req) := hreq.before
  have hrest : Fits (after '\n' req) := hreq.after
  have hsecond : Fits (after ' ' (before '\n' req)) := hheader.after
  have huri : Fits (before ' ' (after ' ' (before '\n' req))) := hsecond.before
  simp only [parse, substr_find hreq, erase_find hreq, substr_find hrest, substr_find hheader,
    erase_find hheader, substr_find hsecond, erase_find hsecond, queryOf_eq huri, Option.bind_eq_bind, Option.bind_some]
  rw [hostText, rest]
  cases substr (before '\n' (after '\n' req)) (add (find ' ' (after '\n' req)) 1)
    (before '\n' (after '\n' req)).length with
  | none => rfl
  | some host =>
    rw [Option.bind_some, Option.bind_some]
    cases trim host <;> rfl

/-- The second line has a blank, or there is none behind the first line. -/
def HostInReach (req : List Char) : Prop := ' ' ∈ rest req → ' ' ∈ before '\n' (rest req)

theorem hostText_of_reach {req : List Char} (hreq : Fits req) (h : HostInReach req) :
    hostText req = some (after ' ' (before '\n' (rest req))) := by
  have hrest : Fits (rest req) := hreq.after
  rw [hostText, find_succ hrest]
  by_cases hmem : ' ' ∈ rest req
  · have hline := h hmem
    have hsucc := substr_find_succ (c := ' ') (hrest.before (c := '\n'))
    rw [find_succ hrest.before, if_pos hline, before_before hline] at hsucc
    rw [if_pos hmem, hsucc]
  · have hline : ' ' ∉ before '\n' (rest req) := fun h => hmem (mem_of_mem_before h)
    rw [if_neg hmem, after_of_not_mem hline, substr, if_pos (Nat.zero_le _), List.drop_zero, List.take_length]

/-- The blank is found in another line, and its position lies past the end of this one. -/
theorem hostText_of_not_reach {req : List Char} (hreq : Fits req) (h : ¬ HostInReach req) :
    hostText req = none := by
  obtain ⟨hmem, hline⟩ := Classical.not_imp.mp h
  have hle := length_before_le hline
  have hrest : Fits (rest req) := hreq.after
  rw [hostText, find_succ hrest, if_pos hmem, substr, if_neg (by omega)]

/-! ### When the handler throws -/

theorem Data.fits (data : Data) : Fits data.chars := by
  rw [Fits, data.size]
  decide

theorem uri_parsed (env : Env) {req host : List Char} (hreq : Fits req) :
    uri (parsed env req host) =
      some (before '?' (before ' ' (after ' ' (header req)))) :=
  substr_find hreq.before.after.before

theorem handle_isSome (trim : List Char → Option (List Char))
    (htrim : ∀ host, Fits host → (trim host).isSome = true) (env : Env) (data : Data) :
    (handle (parse trim) env data).isSome = true ↔ HostInReach data.chars := by
  have hfits := data.fits
  have hline : Fits (after ' ' (before '\n' (rest data.chars))) := hfits.after.before.after
  obtain ⟨host, hhost⟩ := Option.isSome_iff_exists.mp (htrim _ hline)
  rw [handle, parse_eq trim env hfits]
  by_cases h : HostInReach data.chars
  · rw [hostText_of_reach hfits h, Option.bind_some, hhost]
    refine iff_of_true ?_ h
    simp only [Option.map_some, Option.bind_eq_bind, Option.bind_some, uri_parsed env hfits, Option.isSome_some]
  · rw [hostText_of_not_reach hfits h]
    exact iff_of_false Bool.false_ne_true h

/-- Both servers handle a read without an exception if and only if the blank in front of the host is in its
    line. -/
theorem handle_isSome_iff (env : Env) (data : Data) :
    ((handle parseHttpRequest env data).isSome = true ↔ HostInReach data.chars) ∧
      ((handle parseWindowsRequest env data).isSome = true ↔ HostInReach data.chars) := by
  constructor
  · exact handle_isSome _ (fun host hhost => by rw [substr_find hhost]; rfl) env data
  · exact handle_isSome _ (fun _ _ => rfl) env data

/-- A read that brings an empty second line and a blank behind it. -/
def blankLater : Data where
  chars := "GET / HTTP/1.1\r\n\r\nHost: a".toList ++ List.replicate 999 '\x00'
  size := by decide +kernel

theorem blankLater_throws : handle parseHttpRequest (fun _ => []) blankLater = none ∧
    handle parseWindowsRequest (fun _ => []) blankLater = none := by
  have hno : ¬ HostInReach blankLater.chars := by
    rw [HostInReach]
    decide +kernel
  constructor
  · exact Option.not_isSome_iff_eq_none.mp
      (mt (handle_isSome _ (fun host hhost => by rw [substr_find hhost]; rfl) _ _).mp hno)
  · exact Option.not_isSome_iff_eq_none.mp (mt (handle_isSome _ (fun _ _ => rfl) _ _).mp hno)

/-! ### What a request is taken apart into -/

/-- Neither a blank nor a control character. -/
def Visible (c : Char) : Prop := 32 < c.toNat ∧ c.toNat ≠ 127

/-- The parts of a request. -/
structure Parts where
  method : List Char
  target : List Char
  version : List Char
  host : List Char
  port : Option (List Char)
  headers : List Char

namespace Parts

/-- The port with its colon. -/
def portText (r : Parts) : List Char := (r.port.map fun p => ':' :: p).getD []

/-- The first line, and the line of the host, without their newlines. -/
def requestLine (r : Parts) : List Char := r.method ++ ' ' :: (r.target ++ ' ' :: (r.version ++ ['\r']))
def hostLine (r : Parts) : List Char := "Host:".toList ++ ' ' :: (r.host ++ r.portText ++ ['\r'])

/-- The request. -/
def text (r : Parts) : List Char := r.requestLine ++ '\n' :: (r.hostLine ++ '\n' :: r.headers)

/-- The part of the target behind its first `?`. -/
def query (r : Parts) : List Char := (r.target.dropWhile (· != '?')).tail

end Parts

/-- A request as it should be. -/
structure HttpRequest extends Parts where
  method_word : ∀ c ∈ method, Visible c ∧ c ≠ ':'
  target_visible : ∀ c ∈ target, Visible c
  version_word : ∀ c ∈ version, Visible c ∧ c ≠ ':'
  host_word : ∀ c ∈ host, Visible c ∧ c ≠ ':'
  port_visible : ∀ p ∈ port, ∀ c ∈ p, Visible c
  fits : toParts.text.length ≤ 1024

/-- One read brings the request; behind it is what was in `_data`. -/
def HttpRequest.received (r : HttpRequest) (old : Data) : Data where
  chars := r.text ++ old.chars.drop r.text.length
  size := by
    have hfits := r.fits
    have hold := old.size
    rw [List.length_append, List.length_drop]
    omega

/-- The entries of a request, as they should be. -/
structure Extracts (r : Parts) (env : Env) : Prop where
  method : env .requestMethod = r.method
  uri : env .requestUri = r.target
  query : env .queryString = r.query
  protocol : env .serverProtocol = r.version
  host : env .httpHost = r.host

namespace HttpRequest

variable (r : HttpRequest)

theorem not_mem_of_visible {c : Char} {l : List Char} (hc : ¬ Visible c) (h : ∀ x ∈ l, Visible x) : c ∉ l :=
  fun hmem => hc (h c hmem)

theorem blank_not_visible : ¬ Visible ' ' := fun h => absurd h.1 (by decide)

theorem newline_not_visible : ¬ Visible '\n' := fun h => absurd h.1 (by decide)

theorem newline_not_mem_requestLine : '\n' ∉ r.requestLine := by
  have hmethod := not_mem_of_visible newline_not_visible fun x hx => (r.method_word x hx).1
  have htarget := not_mem_of_visible newline_not_visible r.target_visible
  have hversion := not_mem_of_visible newline_not_visible fun x hx => (r.version_word x hx).1
  simp [Parts.requestLine, hmethod, htarget, hversion]

theorem portText_visible : ∀ c ∈ r.portText, Visible c := by
  intro c hc
  rw [Parts.portText] at hc
  cases hport : r.port with
  | none =>
    rw [hport] at hc
    cases hc
  | some p =>
    rw [hport] at hc
    rcases List.mem_cons.mp hc with rfl | hp
    · exact ⟨by decide, by decide⟩
    · exact r.port_visible p hport c hp

theorem newline_not_mem_hostLine : '\n' ∉ r.hostLine := by
  have hhost := not_mem_of_visible newline_not_visible fun x hx => (r.host_word x hx).1
  have hport := not_mem_of_visible newline_not_visible r.portText_visible
  simp [Parts.hostLine, hhost, hport]

/-- The two lines of the request that are read, and what stands behind them in the buffer. -/
theorem received_chars (old : Data) : (r.received old).chars = r.requestLine ++ '\n' ::
    (r.hostLine ++ '\n' :: (r.headers ++ old.chars.drop r.text.length)) := by
  have hchars : (r.received old).chars = r.text ++ old.chars.drop r.text.length := rfl
  rw [hchars]
  simp [Parts.text]

theorem header_received (old : Data) : header (r.received old).chars = r.requestLine := by
  rw [header, r.received_chars old, before_append r.newline_not_mem_requestLine]

theorem line_received (old : Data) : before '\n' (rest (r.received old).chars) = r.hostLine := by
  rw [rest, r.received_chars old, after_append r.newline_not_mem_requestLine,
    before_append r.newline_not_mem_hostLine]

theorem after_hostLine : after ' ' r.hostLine = r.host ++ r.portText ++ ['\r'] := by
  rw [Parts.hostLine, after_append (by decide)]

theorem reach (old : Data) : HostInReach (r.received old).chars := by
  intro _
  rw [r.line_received old, Parts.hostLine]
  simp

/-- The first line is cut at its two blanks. -/
theorem requestLine_cut : before ' ' r.requestLine = r.method ∧
    before ' ' (after ' ' r.requestLine) = r.target ∧
      after ' ' (after ' ' r.requestLine) = r.version ++ ['\r'] := by
  have hmethod := not_mem_of_visible blank_not_visible fun x hx => (r.method_word x hx).1
  have htarget := not_mem_of_visible blank_not_visible r.target_visible
  rw [Parts.requestLine, before_append hmethod, after_append hmethod, before_append htarget, after_append htarget]
  exact ⟨rfl, rfl, rfl⟩

theorem query_eq : (if '?' ∈ r.target then after '?' r.target else []) = r.query := by
  rw [Parts.query]
  split_ifs with h
  · exact after_eq_tail h
  · have hdrop : r.target.dropWhile (· != '?') = [] :=
      List.dropWhile_eq_nil_iff.mpr fun x hx => bne_iff_ne.mpr fun heq => h (heq ▸ hx)
    rw [hdrop, List.tail_nil]

/-- The host ends at the colon of the port, and otherwise only at the end of the line. -/
theorem host_cut : before ':' (r.host ++ r.portText ++ ['\r']) =
    r.host ++ if r.port.isSome then [] else ['\r'] := by
  have hhost : ':' ∉ r.host := fun h => (r.host_word _ h).2 rfl
  rw [List.append_assoc, before_append_left hhost, Parts.portText]
  cases r.port <;> rfl

/-- What the parser makes of a request. -/
theorem parse_received (env : Env) (old : Data) : ∃ env',
    parseHttpRequest env (r.received old).chars = some env' ∧
    env' .requestMethod = r.method ∧ env' .requestUri = r.target ∧ env' .queryString = r.query ∧
    env' .serverProtocol = r.version ++ ['\r'] ∧
    env' .httpHost = r.host ++ if r.port.isSome then [] else ['\r'] := by
  have hfits := (r.received old).fits
  obtain ⟨hmethod, htarget, hversion⟩ := r.requestLine_cut
  have hline : Fits (r.host ++ r.portText ++ ['\r']) := by
    rw [← r.after_hostLine, ← r.line_received old]
    exact hfits.after.before.after
  have hparse : parseHttpRequest env (r.received old).chars =
      some (parsed env (r.received old).chars (r.host ++ if r.port.isSome then [] else ['\r'])) := by
    rw [parseHttpRequest, parse_eq _ env hfits, hostText_of_reach hfits (r.reach old), r.line_received old,
      r.after_hostLine, Option.bind_some, substr_find hline, r.host_cut]
    rfl
  refine ⟨_, hparse, ?_, ?_, ?_, ?_, rfl⟩
  · change before ' ' (header _) = _
    rw [r.header_received old, hmethod]
  · change before ' ' (after ' ' (header _)) = _
    rw [r.header_received old, htarget]
  · change (if '?' ∈ before ' ' (after ' ' (header _)) then _ else _) = _
    rw [r.header_received old, htarget, r.query_eq]
  · change after ' ' (after ' ' (header _)) = _
    rw [r.header_received old, hversion]

end HttpRequest

/-- The carriage return stays at the version of every request, so the entries are never those of the request.
    All others are, but for the host of a request without a port. -/
theorem request_never_extracted (r : HttpRequest) (env : Env) (old : Data) : ∃ env',
    parseHttpRequest env (r.received old).chars = some env' ∧ ¬ Extracts r.toParts env' ∧
    env' .requestMethod = r.method ∧ env' .requestUri = r.target ∧ env' .queryString = r.query ∧
    env' .serverProtocol = r.version ++ ['\r'] ∧
    env' .httpHost = r.host ++ if r.port.isSome then [] else ['\r'] := by
  obtain ⟨env', hparse, hmethod, huri, hquery, hprotocol, hhost⟩ := r.parse_received env old
  refine ⟨env', hparse, fun h => ?_, hmethod, huri, hquery, hprotocol, hhost⟩
  have hsame := hprotocol.symm.trans h.protocol
  exact absurd (List.append_right_eq_self.mp hsame) (List.cons_ne_nil _ _)

/-- `GET / HTTP/1.1`, from a browser that asks for the host `a`. -/
def getRoot : HttpRequest where
  method := ['G', 'E', 'T']
  target := ['/']
  version := "HTTP/1.1".toList
  host := ['a']
  port := none
  headers := ['\r', '\n']
  method_word := by simp [Visible]
  target_visible := by simp [Visible]
  version_word := by simp [Visible]
  host_word := by simp [Visible]
  port_visible := nofun
  fits := by decide

theorem getRoot_not_extracted : ∃ env', parseHttpRequest (fun _ => [])
    (getRoot.received ⟨List.replicate 1024 '\x00', List.length_replicate⟩).chars = some env' ∧
    ¬ Extracts getRoot.toParts env' := by
  obtain ⟨env', hparse, -, -, -, hprotocol, -⟩ :=
    getRoot.parse_received (fun _ => []) ⟨List.replicate 1024 '\x00', List.length_replicate⟩
  refine ⟨env', hparse, fun h => ?_⟩
  have hsame := hprotocol.symm.trans h.protocol
  exact absurd (List.append_right_eq_self.mp hsame) (List.cons_ne_nil _ _)

end NetProg.Http
