import NetProg.Lib.Buffered
import NetProg.Admission
import NetProg.Server.Access
import NetProg.Server.Names
import NetProg.Server.Untouched

/-! Where the text goes that `npshell` prints for a user.

    The server has one buffered standard output for all users, and points descriptor 1 at the client of
    each line. Of the texts that are printed only two errors of the user pipes are flushed. The others
    wait until something else flushes them, under whatever descriptor 1 is then, and every child that is
    forked meanwhile has a copy. -/

open NetProg.Buffered
open NetProg.ParserSafety (Item IsMessage serverItems serverGoesOn)

namespace NetProg.Server

/-! ### The standard output as a stream -/

/-- What an entry of the log is for the stream. -/
def LogEntry.ops : LogEntry → List (Op Char)
  | write _ _ => []
  | printf text => [.put text]
  | fflush => [.flush]
  | cout text => [.put (text ++ ['\n']), .flush]

def streamOps (entries : List LogEntry) : List (Op Char) := entries.flatMap LogEntry.ops

variable (spill : ℕ → ℕ → ℕ)

/-- What waits in the buffer. It is empty before the first client: `main` ends its lines with `endl`. -/
def waiting (s : Server) : List Char := (feed spill ⟨[], []⟩ (streamOps s.log)).waiting

/-- The copies of the buffer that the children of the process loop get from `fork`. -/
def copies (inp : LineInput) (pc : ℕ) : List (List Token) → Call → List (List Char)
  | [], _ => []
  | argv :: rest, c =>
    match execRow inp pc rest.isEmpty argv c with
    | .next d =>
      (d.spawned.drop c.spawned.length).map (fun _ => c.server.waiting spill) ++ copies inp pc rest d
    | _ => []

/-- The copies of the children of a whole call. -/
def callCopies (s : Server) (u : ℕ) (inp : LineInput) : List (List Char) :=
  if inp.line = [] then []
  else
    match parse (s.setPath u) u inp with
    | .ok c => copies spill inp c.process.length c.process c.resolve
    | _ => []

/-- What is printed for the client of `fd` in a call goes to its socket. The call begins with the server
    `s`, and the children `flushes` write out their copies: the one of a redirection calls `fflush`, and
    the ones whose command is unknown call `exit`. -/
structure Delivered (flushes : ℕ → Bool) (s : Server) (fd u : ℕ) (inp : LineInput) (r : Return) :
    Prop where
  /-- Descriptor 1 is the client's socket when the call begins and when it returns. -/
  target : s.kernel.get fd ≠ none → (s.dupStd fd fd fd).kernel.get 1 = s.kernel.get fd ∧
    r.server.kernel.get 1 = s.kernel.get fd
  /-- The call has written out just what it has printed, and nothing waits when it returns. -/
  once : feed spill ⟨[], s.waiting spill⟩ (streamOps (r.server.log.drop s.log.length)) =
    ⟨texts (streamOps (r.server.log.drop s.log.length)), []⟩
  /-- No child writes any of it. -/
  children : ∀ i text, ((s.dupStd fd fd fd).callCopies spill u inp)[i]? = some text →
    flushes i = true → text = []

/-- What is printed in a turn of the loop for the client it is for is delivered. -/
def TurnDelivered (flushes : Server → LineInput → ℕ → Bool) (s : Server) : Input → Prop
  | .line fd inp => ∀ u r, s.findFdUser fd = some u → npshell (s.dupStd fd fd fd) u inp = some r →
    Delivered spill (flushes s inp) s fd u inp r
  | .accept _ _ _ | .eof _ => True

/-! ### The lines that leave nothing in the buffer -/

/-- The items of a line. A `tell` or `yell` is not cut. -/
def lineItems (toks : List Token) : List Item := if IsMessage toks then [] else serverItems toks

/-- The rows of a line. -/
def lineRows (toks : List Token) : List (List Token) :=
  if IsMessage toks then [toks] else ParserSafety.rowsOf (serverItems toks) []

/-- A user pipe whose user exists is one that can be taken or made. -/
def QuietItem (u : ℕ) (exist : ℤ → Bool) (record : ℕ → ℕ → Bool) : Item → Prop
  | .take (some n) => exist (atoi n) = true → record (atoi n).toNat (u + 1) = true
  | .give (some n) => exist (atoi n) = true → record (u + 1) (atoi n).toNat = false
  | _ => True

/-- A row is no `who`, no `tell` to nobody, and no `name` that somebody has. -/
def QuietRow (names : ℕ → Option (List Char)) (argv : List Token) : Prop :=
  argv.head? ≠ some whoCmd ∧
  (argv.head? = some tellCmd →
    ∀ id ∈ argv[1]?, ∃ i < qlen, (i : ℤ) = atoi id - 1 ∧ names i ≠ none) ∧
  (argv.head? = some nameCmd → ∀ n ∈ argv[1]?, ∀ i < qlen, names i ≠ some n)

/-- The names behind a row of user `u`, if the process loop goes on. -/
def nextNames (u : ℕ) (names : ℕ → Option (List Char)) (argv : List Token) :
    Option (ℕ → Option (List Char)) :=
  if argv.head? = some Shell.exitCmd then none
  else if argv.head? = some nameCmd then some (Function.update names u (some (argv[1]?.getD noName)))
  else some names

/-- A line of user `u` in whose call nothing is printed without being flushed. -/
def QuietLine (s : Server) (u : ℕ) (toks : List Token) : Prop :=
  Meets (serverGoesOn u s.checkIdExist) (QuietItem u s.checkIdExist) s.namePipeRecord (lineItems toks) ∧
  (Scan.Passes (serverGoesOn u s.checkIdExist) s.namePipeRecord (lineItems toks) →
    Meets (nextNames u) QuietRow s.names (lineRows toks))

/-- Every line is quiet; clients come and go as they like. -/
def Quiet (s : Server) : Input → Prop
  | .line fd inp => ∀ u ∈ s.findFdUser fd, s.QuietLine u (tokens ' ' inp.line)
  | .accept _ _ _ | .eof _ => True

/-! ### What a part of a call adds to the log -/

variable {spill}

/-- From `s` to `t` the log has grown, and an empty buffer is empty again. -/
structure Drains (spill : ℕ → ℕ → ℕ) (s t : Server) : Prop where
  log : s.log <+: t.log
  empty : s.waiting spill = [] → t.waiting spill = []

theorem Drains.of_log {s t : Server} (h : t.log = s.log) : Drains spill s t := by
  refine ⟨h ▸ List.prefix_refl _, fun hs => ?_⟩
  rwa [waiting, h]

theorem Drains.refl (s : Server) : Drains spill s s := .of_log rfl

theorem Drains.trans {s t w : Server} (h : Drains spill s t) (h' : Drains spill t w) :
    Drains spill s w :=
  ⟨h.log.trans h'.log, fun hs => h'.empty (h.empty hs)⟩

/-- Only the logs matter. -/
theorem Drains.congr {s t s' t' : Server} (h : Drains spill s t) (hs : s'.log = s.log)
    (ht : t'.log = t.log) : Drains spill s' t' :=
  ((Drains.of_log hs.symm).trans h).trans (.of_log ht)

theorem waiting_append {s t : Server} {entries : List LogEntry} (h : t.log = s.log ++ entries) :
    t.waiting spill = (feed spill ⟨[], s.waiting spill⟩ (streamOps entries)).waiting := by
  rw [waiting, h, streamOps, List.flatMap_append, feed_append, waiting_feed]
  rfl

theorem Drains.print {s t : Server} {entries : List LogEntry} (hlog : t.log = s.log ++ entries)
    (h : (feed spill ⟨[], []⟩ (streamOps entries)).waiting = []) : Drains spill s t := by
  refine ⟨hlog ▸ List.prefix_append .., fun hs => ?_⟩
  rw [waiting_append hlog, hs]
  exact h

/-- What is written goes past the stream. -/
theorem streamOps_write {entries : List LogEntry} (h : ∀ e ∈ entries, ∃ fd text, e = .write fd text) :
    streamOps entries = [] := by
  rw [streamOps, List.flatMap_eq_nil_iff]
  intro e he
  obtain ⟨fd, text, rfl⟩ := h e he
  rfl

theorem Drains.write {s t : Server} {entries : List LogEntry} (hlog : t.log = s.log ++ entries)
    (h : ∀ e ∈ entries, ∃ fd text, e = .write fd text) : Drains spill s t := by
  refine .print hlog ?_
  rw [streamOps_write h, feed_nil]

theorem Drains.broadcastMsg (s : Server) (msg : List Char) : Drains spill s (s.broadcastMsg msg) := by
  refine .write rfl fun e he => ?_
  obtain ⟨i, -, rfl⟩ := List.mem_map.mp he
  exact ⟨_, _, rfl⟩

/-- An error that is flushed. -/
theorem Drains.error {s t : Server} (text : List Char)
    (hlog : t.log = s.log ++ [.printf text, .fflush]) : Drains spill s t := .print hlog rfl

/-! ### The tokens -/

theorem takeUserPipe_noSender {c : Call} {command : List Char} {id : ℤ} {e : PipeError}
    (h : c.takeUserPipe command id = .error e)
    (hq : c.server.checkIdExist id = true → c.server.namePipeRecord id.toNat (c.u + 1) = true) :
    e = .noSender id := by
  rw [Call.takeUserPipe, checkNamePipeExist] at h
  split_ifs at h with hexist hrecord
  · exact absurd (hq hexist) hrecord
  · cases h
    rfl

theorem makeUserPipe_noReceiver {c : Call} {id : ℤ} {e : PipeError} (h : c.makeUserPipe id = .error e)
    (hq : c.server.checkIdExist id = true → c.server.namePipeRecord (c.u + 1) id.toNat = false) :
    e = .noReceiver id := by
  rw [Call.makeUserPipe, checkNamePipeExist] at h
  split_ifs at h with hexist hrecord
  · rw [hq hexist] at hrecord
    cases hrecord
  · cases h
    rfl

/-- While the tokens of a quiet line are read, from the start `c₀` on. -/
structure ReadsQuietly (spill : ℕ → ℕ → ℕ) (c₀ c : Call) : Prop where
  drains : Drains spill c₀.server c.server
  u : c.u = c₀.u
  exist : c.server.checkIdExist = c₀.server.checkIdExist
  names : c.server.names = c₀.server.names
  buffer : c.vars.redirectionFileName.length = 100

theorem ReadsQuietly.push {c₀ c : Call} (h : ReadsQuietly spill c₀ c) (argv : List Token) :
    ReadsQuietly spill c₀ (c.push argv) := ⟨h.drains, h.u, h.exist, h.names, h.buffer⟩

theorem ReadsQuietly.take {c₀ c c' : Call} {inp : LineInput} {id : ℤ} (h : ReadsQuietly spill c₀ c)
    (htake : c.takeUserPipe inp.command id = .ok c') : ReadsQuietly spill c₀ c' := by
  obtain ⟨-, -, rfl⟩ := takeUserPipe_ok.mp htake
  refine ⟨h.drains.trans ?_, h.u, h.exist, h.names, h.buffer⟩
  refine .write rfl fun e he => ?_
  obtain ⟨i, -, rfl⟩ := List.mem_map.mp he
  exact ⟨_, _, rfl⟩

theorem ReadsQuietly.make {c₀ c c' : Call} {id : ℤ} (h : ReadsQuietly spill c₀ c)
    (hmake : c.makeUserPipe id = .ok c') : ReadsQuietly spill c₀ c' := by
  obtain ⟨-, -, rfl⟩ := makeUserPipe_ok.mp hmake
  exact ⟨h.drains.trans (.of_log rfl), h.u, (ParserSafety.checkIdExist_made ..).trans h.exist,
    (names_made ..).trans h.names, h.buffer⟩

theorem ReadsQuietly.number {c₀ c : Call} (h : ReadsQuietly spill c₀ c) (shock : Bool) (n : ℤ) :
    ReadsQuietly spill c₀ (c.pipeOut shock n) :=
  ⟨h.drains, h.u, h.exist, h.names, (congrArg _ (ParserSafety.serverPipeOut_buffer ..)).trans h.buffer⟩

theorem ReadsQuietly.file {c₀ c : Call} {inp : LineInput} {name : Token} {v : Vars}
    (h : ReadsQuietly spill c₀ c) (hfile : c.vars.createFile inp.opens name = some v) :
    ReadsQuietly spill c₀ { c with vars := v, server := c.server.print [.fflush] } :=
  ⟨h.drains.trans (.print rfl rfl), h.u, h.exist, h.names,
    (ParserSafety.fileFits_of_some hfile h.buffer).2⟩

/-- Combining the tokens of a quiet line leaves nothing in the buffer. -/
theorem combine_reads (inp : LineInput) (toks cur : List Token) {c₀ c : Call}
    (h : ReadsQuietly spill c₀ c)
    (hq : Meets (serverGoesOn c₀.u c₀.server.checkIdExist) (QuietItem c₀.u c₀.server.checkIdExist)
      c.server.namePipeRecord (serverItems toks)) :
    (combine inp toks cur c).Ends (ReadsQuietly spill c₀) fun d => Drains spill c₀.server d.server := by
  fun_induction combine inp toks cur c with
  | case1 cur c =>
    show ReadsQuietly spill c₀ (if cur = [] then c else c.push cur)
    split_ifs
    · exact h
    · exact h.push cur
  | case2 tok rest cur c htake hn => trivial
  | case3 tok rest cur c htake n hn e he =>
    rw [ParserSafety.serverItems_take htake, hn] at hq
    obtain rfl := takeUserPipe_noSender he (h.exist ▸ h.u ▸ hq.now)
    exact h.drains.trans (.error _ rfl)
  | case4 tok rest cur c htake n hn d hd ih =>
    have hgo := ParserSafety.goesOn_take_some hd
    rw [ParserSafety.serverItems_take htake, hn] at hq
    rw [h.u, h.exist] at hgo
    exact ih (h.take hd) (hq.next hgo)
  | case5 tok rest cur c htake hord ih =>
    rw [ParserSafety.serverItems_word htake hord] at hq
    exact ih h (hq.next rfl)
  | case6 rest cur c htake hord ih =>
    rw [ParserSafety.serverItems_bar] at hq
    exact ih (h.push cur) (hq.next rfl)
  | case7 cur c htake hord hbar => trivial
  | case8 cur c name rest hcreate htake hord hbar => trivial
  | case9 cur c name rest v hcreate htake hord hbar ih =>
    obtain ⟨hfits, -⟩ := ParserSafety.fileFits_of_some hcreate h.buffer
    rw [ParserSafety.serverItems_file] at hq
    exact ih ((h.push cur).file hcreate) (hq.next (if_pos hfits))
  | case10 tok rest cur c htake hord hbar hfile hbang hn => trivial
  | case11 tok rest cur c htake hord hbar hfile hbang n hn ih =>
    rw [ParserSafety.serverItems_mark htake hord hbar hfile, if_pos hbang, hn] at hq
    exact ih ((h.push cur).number true _) (hq.next rfl)
  | case12 tok rest cur c htake hord hbar hfile hbang hnum hn => trivial
  | case13 tok rest cur c htake hord hbar hfile hbang hnum n hn ih =>
    rw [ParserSafety.serverItems_mark htake hord hbar hfile, if_neg hbang, if_pos hnum, hn] at hq
    exact ih ((h.push cur).number false _) (hq.next rfl)
  | case14 tok rest cur c htake hord hbar hfile hbang hnum hn => trivial
  | case15 tok rest cur c htake hord hbar hfile hbang hnum n hn e he =>
    rw [ParserSafety.serverItems_mark htake hord hbar hfile, if_neg hbang, if_neg hnum, hn] at hq
    obtain rfl := makeUserPipe_noReceiver he (h.exist ▸ h.u ▸ hq.now)
    exact h.drains.trans (.error _ rfl)
  | case16 tok rest cur c htake hord hbar hfile hbang hnum n hn d hd ih =>
    have hgo := ParserSafety.goesOn_give_some hd
    rw [ParserSafety.serverItems_mark htake hord hbar hfile, if_neg hbang, if_neg hnum, hn] at hq
    rw [h.u, h.exist] at hgo
    exact ih ((h.push cur).make hd) (hq.next hgo)

/-! ### The rows -/

theorem checkIdExist_of_names {s : Server} {id : ℤ} {i : ℕ} (hi : i < qlen) (hid : (i : ℤ) = id - 1)
    (h : s.names i ≠ none) : s.checkIdExist id = true := by
  obtain ⟨n, hn⟩ := Option.ne_none_iff_exists'.mp h
  refine List.any_eq_true.mpr ⟨i, List.mem_range.mpr hi, ?_⟩
  rw [(names_eq_some.mp hn).2.1, hid]
  exact beq_self_eq_true _

theorem checkNameExist_of_names {s : Server} {name : List Char}
    (h : ∀ i < qlen, s.names i ≠ some name) : ¬ s.checkNameExist name = true := by
  intro hexist
  obtain ⟨i, hi, hn⟩ := List.any_eq_true.mp hexist
  rw [Bool.and_eq_true, beq_iff_eq] at hn
  exact h i (List.mem_range.mp hi) (names_eq_some.mpr ⟨List.mem_range.mp hi, hn⟩)

theorem Drains.printenv (s : Server) (u : ℕ) (args : List Token) : Drains spill s (printenv s u args) := by
  cases args with
  | nil => exact .refl s
  | cons name args =>
    rw [Server.printenv]
    split
    · exact .refl s
    · exact .write rfl fun e he => ⟨_, _, List.mem_singleton.mp he⟩

theorem names_printenv (s : Server) (u : ℕ) (args : List Token) :
    (printenv s u args).names = s.names := by
  cases args with
  | nil => rfl
  | cons name args =>
    rw [Server.printenv]
    split <;> rfl

theorem names_setenvUser (s : Server) (u : ℕ) (args : List Token) :
    (setenvUser s u args).names = s.names := by
  rcases args with _ | ⟨name, _ | ⟨value, args⟩⟩
  · rfl
  · rfl
  · refine names_congr (fun i => ?_) fun i => ?_
    · rcases eq_or_ne i u with rfl | hi <;> simp [setenvUser, modifyUser, *]
    · rcases eq_or_ne i u with rfl | hi <;> simp [setenvUser, modifyUser, *]

theorem Drains.setenvUser (s : Server) (u : ℕ) (args : List Token) :
    Drains spill s (setenvUser s u args) := by
  rcases args with _ | ⟨name, _ | ⟨value, args⟩⟩ <;> exact .of_log rfl

theorem Drains.exitUser (s : Server) (u : ℕ) : Drains spill s (exitUser s u) :=
  (Drains.broadcastMsg s _).trans (.of_log rfl)

theorem Drains.fork (c : Call) (inp : LineInput) (pc : ℕ) (last : Bool) (argv : List Token) :
    Drains spill c.server (c.fork inp pc last argv).server := by
  rw [Call.fork]
  dsimp only
  split
  · exact .broadcastMsg _ _
  · exact .refl _

theorem names_fork (c : Call) (inp : LineInput) (pc : ℕ) (last : Bool) (argv : List Token) :
    (c.fork inp pc last argv).server.names = c.server.names :=
  names_congr (fun i => by rw [fork_user]) fun i => by rw [fork_user]

/-- A `tell` to somebody is written to that user's socket. -/
theorem tell_quiet {s : Server} {id : Token} (u : ℕ) (words : List Token)
    (h : s.checkIdExist (atoi id) = true) :
    Drains spill s (tell s u id words) ∧ (tell s u id words).names = s.names := by
  rw [tell, if_pos h]
  exact ⟨.write rfl fun e he => ⟨_, _, List.mem_singleton.mp he⟩, rfl⟩

/-- A `name` that nobody has, or none, is told to everybody. -/
theorem rename_quiet {s : Server} {u : ℕ} {args : List Token} (hu : s.names u ≠ none)
    (h : ∀ n ∈ args[0]?, ∀ i < qlen, s.names i ≠ some n) :
    Drains spill s (rename s u args) ∧
      (rename s u args).names = Function.update s.names u (some (args[0]?.getD noName)) := by
  obtain ⟨n, hn⟩ := Option.ne_none_iff_exists'.mp hu
  obtain ⟨hlt, hvalid, -⟩ := names_eq_some.mp hn
  have hset : ∀ name : List Char, (s.modifyUser u fun w => { w with name := name }).names =
      Function.update s.names u (some name) := by
    intro name
    rw [names_modifyUser]
    exact congrArg _ (if_pos ⟨hlt, hvalid⟩)
  cases args with
  | nil => exact ⟨.of_log rfl, hset noName⟩
  | cons name args =>
    rw [rename, if_neg (checkNameExist_of_names (h name rfl))]
    refine ⟨?_, hset name⟩
    refine .write rfl fun e he => ?_
    obtain ⟨i, -, rfl⟩ := List.mem_map.mp he
    exact ⟨_, _, rfl⟩

variable (spill) in
/-- A quiet row leaves nothing in the buffer, and the names as `nextNames` says. -/
theorem execRow_quiet (inp : LineInput) (pc : ℕ) (last : Bool) {argv : List Token} {c : Call}
    (hu : c.server.names c.u ≠ none) (hq : QuietRow c.server.names argv) :
    (execRow inp pc last argv c).Ends
      (fun d => Drains spill c.server d.server ∧ d.u = c.u ∧
        nextNames c.u c.server.names argv = some d.server.names)
      fun d => Drains spill c.server d.server := by
  obtain ⟨hwho, htell, hname⟩ := hq
  cases argv with
  | nil => trivial
  | cons cmd args =>
    simp only [List.head?_cons, Option.some.injEq, ne_eq] at hwho htell hname
    have hnext : cmd ≠ Shell.exitCmd → cmd ≠ nameCmd →
        nextNames c.u c.server.names (cmd :: args) = some c.server.names := by
      intro hexit hne
      simp [nextNames, hexit, hne]
    rw [execRow.eq_def]
    dsimp only
    -- the branch of `who` goes with `hwho`
    split_ifs with h1 hfits h2 hfits h3 h4 h5 h7 h8 h9 hfits
    · refine ⟨.printenv .., rfl, ?_⟩
      rw [hnext (by rw [h1]; decide) (by rw [h1]; decide), names_printenv]
    · trivial
    · refine ⟨.setenvUser .., rfl, ?_⟩
      rw [hnext (by rw [h2]; decide) (by rw [h2]; decide), names_setenvUser]
    · trivial
    · exact .exitUser ..
    · exact ⟨.refl _, rfl, hnext h3 (by rw [h4]; decide)⟩
    · trivial
    · cases args with
      | nil => trivial
      | cons id words =>
        obtain ⟨i, hi, hid, hn⟩ := htell h7 id rfl
        obtain ⟨hdrains, hnames⟩ :=
          tell_quiet c.u words (checkIdExist_of_names hi hid hn)
        exact ⟨hdrains, rfl, hnames ▸ hnext h3 (by rw [h7]; decide)⟩
    · exact ⟨.broadcastMsg .., rfl, hnext h3 (by rw [h8]; decide)⟩
    · obtain ⟨hdrains, hnames⟩ := rename_quiet hu (hname h9)
      refine ⟨hdrains, rfl, ?_⟩
      rw [hnames, nextNames, if_neg (by simpa using h3), if_pos (by simpa using h9)]
      rfl
    · trivial
    · refine ⟨.fork .., rfl, ?_⟩
      rw [hnext h3 h9, names_fork]

/-- The rows of a quiet line leave nothing in the buffer, and no child has a copy of anything. -/
theorem execRows_quiet {inp : LineInput} (pc : ℕ) (rows : List (List Token)) {c : Call}
    (hu : c.server.names c.u ≠ none) (hwait : c.server.waiting spill = [])
    (hq : Meets (nextNames c.u) QuietRow c.server.names rows) :
    (execRows inp pc rows c).Ends (fun d => Drains spill c.server d.server)
        (fun d => Drains spill c.server d.server) ∧
      ∀ text ∈ copies spill inp pc rows c, text = [] := by
  induction rows generalizing c with
  | nil => exact ⟨.refl _, fun text htext => by cases htext⟩
  | cons argv rest ih =>
    have hrow := execRow_quiet spill inp pc rest.isEmpty hu hq.now
    rw [execRows, copies]
    cases hr : execRow inp pc rest.isEmpty argv c with
    | next d =>
      rw [hr] at hrow
      obtain ⟨hdrains, hdu, hnext⟩ := hrow
      have hnames : d.server.names d.u ≠ none := by
        rw [hdu]
        rw [nextNames] at hnext
        split_ifs at hnext
        · rw [← Option.some.inj hnext, Function.update_self]
          exact Option.some_ne_none _
        · exact Option.some.inj hnext ▸ hu
      obtain ⟨hends, hcopies⟩ := ih hnames (hdrains.empty hwait) (hdu.symm ▸ hq.next hnext)
      refine ⟨?_, fun text htext => ?_⟩
      · show (execRows inp pc rest d).Ends _ _
        cases hrest : execRows inp pc rest d with
        | next e =>
          rw [hrest] at hends
          exact hdrains.trans hends
        | exited e =>
          rw [hrest] at hends
          exact hdrains.trans hends
        | crashed => trivial
      · rcases List.mem_append.mp htext with htext | htext
        · obtain ⟨-, -, rfl⟩ := List.mem_map.mp htext
          exact hwait
        · exact hcopies text htext
    | exited d =>
      rw [hr] at hrow
      exact ⟨hrow, fun text htext => by cases htext⟩
    | crashed => exact ⟨trivial, fun text htext => by cases htext⟩

/-! ### A call -/

/-- Reading a quiet line: its rows are those of its items, and it came past all of them. -/
theorem parse_quiet {s : Server} {u : ℕ} {inp : LineInput} (hq : s.QuietLine u (tokens ' ' inp.line)) :
    (parse s u inp).Ends
      (fun c => ReadsQuietly spill (startCall s u) c ∧ c.process = lineRows (tokens ' ' inp.line) ∧
        Scan.Passes (serverGoesOn u s.checkIdExist) s.namePipeRecord (lineItems (tokens ' ' inp.line)))
      fun d => Drains spill s d.server := by
  have hstart : ReadsQuietly spill (startCall s u) (startCall s u) := ⟨.refl _, rfl, rfl, rfl, rfl⟩
  rw [parse]
  cases htoks : tokens ' ' inp.line with
  | nil => trivial
  | cons tok rest =>
    rw [htoks] at hq
    dsimp only
    split_ifs with hcmd
    · have hmsg : IsMessage (tok :: rest) := by simpa [IsMessage] using hcmd
      rw [lineRows, lineItems, if_pos hmsg, if_pos hmsg]
      exact ⟨hstart.push _, rfl, Scan.passes_nil ..⟩
    · have hmsg : ¬ IsMessage (tok :: rest) := by simpa [IsMessage] using hcmd
      obtain ⟨hitems, -⟩ := hq
      rw [lineItems, if_neg hmsg] at hitems
      rw [lineRows, lineItems, if_neg hmsg, if_neg hmsg]
      have hreads := combine_reads inp (tok :: rest) [] hstart hitems
      have hrows := ParserSafety.serverCombine_rows inp (tok :: rest) [] (startCall s u) rfl
      cases hc : combine inp (tok :: rest) [] (startCall s u) with
      | crashed => trivial
      | rejected d e =>
        rw [hc] at hreads
        exact hreads
      | ok c =>
        rw [hc] at hreads hrows
        split_ifs at hrows with hpass
        · exact ⟨hreads, (Prod.mk.inj (Option.some.inj hrows)).1, hpass⟩
        · cases hrows

/-- The call on a quiet line leaves the buffer empty, and its children get empty copies. -/
theorem npshell_quiet {s : Server} {u : ℕ} {inp : LineInput} {r : Return}
    (h : npshell s u inp = some r) (hu : u < qlen ∧ (s.user u).valid = true)
    (hwait : s.waiting spill = []) (hq : s.QuietLine u (tokens ' ' inp.line)) :
    Drains spill s r.server ∧ ∀ text ∈ s.callCopies spill u inp, text = [] := by
  have hread : (parse (s.setPath u) u inp).Ends _ fun d => Drains spill (s.setPath u) d.server :=
    parse_quiet hq
  have hrows : ∀ c, ReadsQuietly spill (startCall (s.setPath u) u) c →
      c.process = lineRows (tokens ' ' inp.line) →
      Scan.Passes (serverGoesOn u s.checkIdExist) s.namePipeRecord (lineItems (tokens ' ' inp.line)) →
      (execRows inp c.process.length c.process c.resolve).Ends (fun d => Drains spill s d.server)
          (fun d => Drains spill s d.server) ∧
        ∀ text ∈ copies spill inp c.process.length c.process c.resolve, text = [] := by
    intro c hc hproc hpass
    have hnames : c.server.names = s.names := hc.names
    have hvalid : c.resolve.server.names c.resolve.u ≠ none := by
      show c.server.names c.u ≠ none
      have hcu : c.u = u := hc.u
      rw [hnames, hcu, names_eq_some.mpr ⟨hu.1, hu.2, rfl⟩]
      exact Option.some_ne_none _
    have hmeets : Meets (nextNames c.resolve.u) QuietRow c.resolve.server.names c.process := by
      show Meets (nextNames c.u) QuietRow c.server.names c.process
      rw [hc.u, hnames, hproc]
      exact hq.2 hpass
    have hstart : Drains spill s c.server := hc.drains.congr rfl rfl
    obtain ⟨hends, hcopies⟩ :=
      execRows_quiet c.process.length c.process hvalid (hstart.empty hwait) hmeets
    refine ⟨?_, hcopies⟩
    cases hr : execRows inp c.process.length c.process c.resolve with
    | next d =>
      rw [hr] at hends
      exact hstart.trans hends
    | exited d =>
      rw [hr] at hends
      exact hstart.trans hends
    | crashed => trivial
  rw [callCopies]
  cases npshell_outcome h with
  | blank hline =>
    rw [if_pos hline]
    exact ⟨.of_log rfl, fun text htext => by cases htext⟩
  | rejected hline hp =>
    rw [if_neg hline, hp]
    rw [hp] at hread
    exact ⟨Drains.congr hread rfl rfl, fun text htext => by cases htext⟩
  | ended hline hp hend =>
    rw [hp] at hread
    obtain ⟨hends, hcopies⟩ := hrows _ hread.1 hread.2.1 hread.2.2
    rw [hend] at hends
    rw [if_neg hline, hp]
    exact ⟨Drains.congr hends rfl rfl, hcopies⟩
  | exited hline hp hend =>
    rw [hp] at hread
    obtain ⟨hends, hcopies⟩ := hrows _ hread.1 hread.2.1 hread.2.2
    rw [hend] at hends
    rw [if_neg hline, hp]
    exact ⟨Drains.congr hends rfl rfl, hcopies⟩

/-! ### A run -/

theorem Drains.accept {s t : Server} {addr : List Char} {port junk : ℕ}
    (h : s.acceptClient addr port junk = some t) : Drains spill s t := by
  unfold acceptClient at h
  dsimp only at h
  split_ifs at h
  obtain rfl := Option.some.inj h
  have hwrite : ∀ (s : Server) (fd : ℕ) (text : List Char), Drains spill s (s.print [.write fd text]) :=
    fun _ _ _ => .write rfl fun e he => ⟨_, _, List.mem_singleton.mp he⟩
  refine Drains.trans ?_ ((hwrite _ _ _).trans ((Drains.broadcastMsg _ _).trans (hwrite _ _ _)))
  exact .print rfl rfl

theorem Drains.finish (s : Server) (fd u : ℕ) (zero : Bool) : Drains spill s (s.finish fd u zero) := by
  cases zero with
  | true => exact .print rfl rfl
  | false => exact .write rfl fun e he => ⟨_, _, List.mem_singleton.mp he⟩

/-- Between two inputs of a quiet run nothing waits, and no table names descriptor 1. -/
structure Settled (spill : ℕ → ℕ → ℕ) (s : Server) : Prop where
  waiting : s.waiting spill = []
  unnamed : Unnamed 1 s

/-- `npshell` is called for the client of `fd`. -/
theorem Settled.call {s : Server} {fd u : ℕ} {inp : LineInput} {r : Return} (h : Settled spill s)
    (hf : s.findFdUser fd = some u) (hr : npshell (s.dupStd fd fd fd) u inp = some r)
    (hq : s.QuietLine u (tokens ' ' inp.line)) :
    Drains spill s r.server ∧ ∀ text ∈ (s.dupStd fd fd fd).callCopies spill u inp, text = [] := by
  obtain ⟨hlt, hvalid, -⟩ := findFdUser_some hf
  obtain ⟨hdrains, hcopies⟩ := npshell_quiet hr ⟨hlt, hvalid⟩ h.waiting hq
  exact ⟨hdrains.congr rfl rfl, hcopies⟩

theorem Settled.step {s t : Server} {i : Input} (h : Settled spill s) (hq : s.Quiet i)
    (hs : s.next i = some t) : Settled spill t := by
  obtain ⟨r, hr, rfl⟩ := Option.map_eq_some_iff.mp hs
  refine ⟨?_, h.unnamed.step (by decide) hr⟩
  refine Drains.empty ?_ h.waiting
  cases i with
  | accept addr port junk =>
    obtain ⟨s', hs', rfl⟩ := Option.map_eq_some_iff.mp hr
    exact .accept hs'
  | line fd inp =>
    simp only [Server.step] at hr
    split_ifs at hr with hfd
    cases hf : s.findFdUser fd with
    | none => simp [hf] at hr
    | some u =>
      simp only [hf] at hr
      split at hr
      · cases hr
      · rename_i hn
        obtain rfl := Option.some.inj hr
        exact (h.call hf hn (hq u hf)).1.trans (.finish ..)
  | eof fd =>
    simp only [Server.step] at hr
    split_ifs at hr with hfd
    cases hf : s.findFdUser fd with
    | none => simp [hf] at hr
    | some u =>
      simp only [hf] at hr
      split at hr
      · cases hr
      · rename_i hn
        obtain rfl := Option.some.inj hr
        exact (h.call hf hn ⟨.nil, fun _ => .nil⟩).1.trans (.finish _ fd u true)

/-- The two `dup2` before the last leave descriptor 1 with what `fd` is. -/
theorem dupStd_get_one {s : Server} {fd : ℕ} (h : s.kernel.get fd ≠ none) :
    (s.dupStd fd fd fd).kernel.get 1 = s.kernel.get fd := by
  obtain ⟨d, hd⟩ := Option.ne_none_iff_exists'.mp h
  have hfd : (s.kernel.dup2 fd 0).get fd = some d := by
    rcases eq_or_ne fd 0 with rfl | hne
    · exact FdTable.get_dup2_dst _ _ hd
    · rwa [Kernel.get_dup2_of_ne _ hne]
  have hone : ((s.kernel.dup2 fd 0).dup2 fd 1).get 1 = some d := FdTable.get_dup2_dst _ _ hfd
  rw [hd]
  exact (Kernel.get_dup2_of_ne _ (by decide)).trans hone

theorem Settled.turn {s : Server} {i : Input} (h : Settled spill s) (hq : s.Quiet i)
    (flushes : Server → LineInput → ℕ → Bool) : s.TurnDelivered spill flushes i := by
  cases i with
  | accept addr port junk => trivial
  | eof fd => trivial
  | line fd inp =>
    intro u r hf hr
    obtain ⟨hdrains, hcopies⟩ := h.call hf hr (hq u hf)
    refine ⟨fun hopen => ?_, ?_, fun j text htext _ => hcopies text (List.mem_of_getElem? htext)⟩
    · have hkept := (npshell_untouched hr (h.unnamed.dupStd fd fd fd) (by decide)).1
      exact ⟨dupStd_get_one hopen, hkept.trans (dupStd_get_one hopen)⟩
    · obtain ⟨entries, hlog⟩ := hdrains.log
      have hempty := hdrains.empty h.waiting
      rw [waiting_append hlog.symm] at hempty
      rw [← hlog, List.drop_left, feed_of_drained spill hempty, h.waiting, List.nil_append]

theorem settled_init (environ : Environ) : Settled spill (init environ) := ⟨rfl, unnamed_init environ⟩

instance instDecidableQuietItem (u : ℕ) (exist : ℤ → Bool) (record : ℕ → ℕ → Bool) :
    ∀ it, Decidable (QuietItem u exist record it)
  | .take (some _) => inferInstanceAs (Decidable (_ → _))
  | .give (some _) => inferInstanceAs (Decidable (_ → _))
  | .take none | .give none | .word _ | .bar | .number _ | .file _ => inferInstanceAs (Decidable True)

instance instDecidableQuietRow (names : ℕ → Option (List Char)) (argv : List Token) :
    Decidable (QuietRow names argv) :=
  inferInstanceAs (Decidable (_ ∧ (_ → _) ∧ (_ → _)))

instance instDecidableQuietLine (s : Server) (u : ℕ) (toks : List Token) :
    Decidable (s.QuietLine u toks) :=
  inferInstanceAs (Decidable (_ ∧ (_ → _)))

instance instDecidableQuiet (s : Server) : ∀ i, Decidable (s.Quiet i)
  | .line fd inp => inferInstanceAs (Decidable (∀ u ∈ s.findFdUser fd, s.QuietLine u (tokens ' ' inp.line)))
  | .accept _ _ _ => inferInstanceAs (Decidable True)
  | .eof _ => inferInstanceAs (Decidable True)

/-- A line as a client types it. -/
def asTyped (line : List Char) : LineInput := ⟨line, line, ⟨true, true, none⟩, false⟩

/-- A buffer of 4096 characters, written out as a whole when it is full. -/
def fullBuffer (n k : ℕ) : ℕ := if n + k < 4096 then 0 else n + k

/-- Two clients: one asks for a pipe of nobody, both take names, one tells the other something. -/
def quietInputs : List Input :=
  [.accept [] 0 0, .accept [] 0 0, .line 8 (asTyped "cat <9".toList),
    .line 7 (asTyped "name a".toList), .line 8 (asTyped "name b".toList),
    .line 7 (asTyped "tell 2 hi".toList)]

end NetProg.Server
