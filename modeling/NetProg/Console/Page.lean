import NetProg.Console.Handshake
import NetProg.Console.Pacing
import NetProg.Console.Script
import NetProg.Http.QueryString
import NetProg.Lib.Run

/-! The whole page of the console (`main` of `console.cpp`, projects 3 and 4).

    Up to five hosts of the query string get an `NpShellConnect` each. Their handlers run one at a time, in
    any order, and all put scripts and error messages on one standard output. The browser executes the
    scripts one after another. Still every pane shows the dialogue of its own host and nothing else. -/

namespace NetProg.Console

open Html
open QueryString (Query)

/-- `"h" + to_string(i)`, and so for the other keys. -/
def key (c : Char) (i : ℕ) : List Char := c :: Nat.toDigits 10 i

/-- `host_info` of a host with what else its `NpShellConnect` has: the text of its file, whether it goes
    through a SOCKS server, and what is in `_reply`. -/
structure HostInfo where
  id : List Char
  file : List Char
  socks : Bool
  reply : List Char

/-- Where an `NpShellConnect` is, and the `NpShellRun` it becomes. -/
inductive Stage where
  | idle
  | resolving
  | connecting
  | sending
  | replying
  | running (shell : NpShellRun)
  | ended

/-- The handlers that `ioservice.run` calls, with the error message or the bytes they get. -/
inductive Handler where
  | resolved (error : Option (List Char))
  | connected (error : Option (List Char))
  | sent (ok : Bool)
  | replied (data : Option (Chunk maxLength))
  | read (data : Option (Chunk bufferSize))

/-- `cout << "ERROR: " << ec.message() << endl`. -/
def errorText (msg : List Char) : List Char := ['E', 'R', 'R', 'O', 'R', ':', ' '] ++ msg ++ ['\n']

/-- A handler: what becomes of the `NpShellConnect`, and what it puts on the standard output. -/
def Stage.on (info : HostInfo) : Stage → Handler → Option (Stage × List Char)
  | resolving, .resolved none => some (connecting, [])
  | resolving, .resolved (some msg) => some (ended, errorText msg)
  | connecting, .connected none =>
    if info.socks then some (sending, []) else some (running (.start info.id info.file), [])
  | connecting, .connected (some msg) => some (ended, errorText msg)
  | sending, .sent ok => some (if ok then replying else ended, [])
  | replying, .replied none => some (ended, [])
  | replying, .replied (some c) =>
    if (c.data ++ info.reply.drop c.data.length)[1]? = some granted then
      some (running (.start info.id info.file), [])
    else some (ended, [])
  | running _, .read none => some (ended, [])
  | running shell, .read (some c) =>
    let after := shell.doRead c.data
    some (running after, (after.console.drop shell.console.length).flatten)
  | _, _ => none

/-- The console: its hosts, and what it has put on the standard output behind the table. -/
structure Page where
  stages : ℕ → Stage
  stdout : List Char

namespace Page

/-- A host is called back. -/
def step (infos : ℕ → HostInfo) (p : Page) (e : ℕ × Handler) : Option Page :=
  ((p.stages e.1).on (infos e.1) e.2).map fun r => ⟨Function.update p.stages e.1 r.1, p.stdout ++ r.2⟩

/-- What `main` makes of the query string for the host `i`. -/
def info (console : QueryString.Console) (query : Query) (files : List Char → List Char) (memory : ℕ → List Char)
    (i : ℕ) : HostInfo where
  id := key 'h' i
  file := files (query (key 'f' i))
  socks := console = .project4 ∧ query ['s', 'h'] ≠ [] ∧ query ['s', 'p'] ≠ []
  reply := memory i

/-- `main` up to `ioservice.run`. In project 4 the address of a host is looked up at once, and a host
    without one gets no further. -/
def start (console : QueryString.Console) (query : Query) (resolves : ℕ → Bool) : Page where
  stages i :=
    if i < 5 ∧ query (key 'h' i) ≠ [] ∧ query (key 'p' i) ≠ [] ∧ query (key 'f' i) ≠ [] ∧
      (console = .project4 → resolves i = true) then .resolving else .idle
  stdout := []

end Page

/-! ### The browser -/

/-- The panes of the page with their texts, while these are plain. -/
structure Document where
  ids : List (List Char)
  pane : List Char → Option (List ℕ)

/-- The table of `main`: a pane for each host. -/
def Document.table (query : Query) : Document where
  ids := ((List.range 5).filter fun i => query (key 'h' i) ≠ []).map (key 'h')
  pane _ := some []

/-- A script is executed: an assignment to a pane of the table. -/
def Document.execute (refs : CharRefs) (d : Document) (script : List Char) : Document :=
  match d.ids.find? fun id => (opening id).isPrefixOf script with
  | none => d
  | some id => { d with pane := Function.update d.pane id ((d.pane id).bind fun pane =>
      match assigned id script with
      | some v => text refs (serialize pane ++ v)
      | none => some pane) }

/-- The browser gets some more of the page. -/
def Document.load (refs : CharRefs) (d : Document) (page : List Char) : Document :=
  (scripts page).foldl (execute refs) d

/-! ### What a host has to say -/

/-- The dialogue of a host, from its reads and the lines that are left: what is read, and behind a read
    with a `%` in it the next line. -/
def dialogue : List (List Char) → List (List Char) → List (List Char)
  | _, [] => []
  | [], data :: reads => data :: dialogue [] reads
  | line :: lines, data :: reads =>
    if '%' ∈ data then data :: line :: [' ', '\n'] :: dialogue lines reads
    else data :: dialogue (line :: lines) reads

/-- What the `NpShellRun` of a host has read. -/
def readsBy (i : ℕ) (es : List (ℕ × Handler)) : List (List Char) :=
  es.filterMap fun e => if e.1 = i then
    match e.2 with
    | .read (some c) => some c.data
    | _ => none
  else none

/-- What is put on the standard output: something a host has to say, or an error message. -/
inductive Entry where
  | said (i : ℕ) (s : List Char)
  | error (msg : List Char)

def Entry.text : Entry → List Char
  | said i s => scriptTag ++ (statement (key 'h' i) (encode s) ++ (scriptEnd ++ ['\n']))
  | error msg => errorText msg

/-- What a host has said in a log. -/
def saidBy (i : ℕ) (log : List Entry) : List (List Char) :=
  log.filterMap fun x => match x with
    | .said j s => if j = i then some s else none
    | .error _ => none

/-! ### One handler -/

/-- What is left to say of the file of a host. -/
def Stage.lines (info : HostInfo) : Stage → List (List Char)
  | running shell => shell.command
  | _ => getLines info.file

/-- What a handler reads for the `NpShellRun`. -/
def Handler.reads : Handler → List (List Char)
  | .read (some c) => [c.data]
  | _ => []

/-- The message of an error. -/
def Handler.error : Handler → Option (List Char)
  | .resolved msg => msg
  | .connected msg => msg
  | _ => none

theorem dialogue_nil (lines : List (List Char)) : dialogue lines [] = [] := by
  cases lines <;> rfl

/-- What an `NpShellRun` puts out for a read. -/
theorem doRead_words (i : ℕ) (shell : NpShellRun) (data : List Char) (hid : shell.id = key 'h' i) : ∃ words,
    (shell.doRead data).console = shell.console ++ words.map (fun s => (Entry.said i s).text) ∧
    (shell.doRead data).id = shell.id ∧
    ∀ reads, dialogue shell.command (data :: reads) = words ++ dialogue (shell.doRead data).command reads := by
  have htext : ∀ s, "<script>".toList ++ statement shell.id s ++ "</script>\n".toList =
      scriptTag ++ (statement (key 'h' i) s ++ (scriptEnd ++ ['\n'])) := fun s => by
    rw [show "<script>".toList = scriptTag from by decide,
      show "</script>\n".toList = scriptEnd ++ ['\n'] from by decide, hid, List.append_assoc]
  have hblank : statement (key 'h' i) (' ' :: newLine) = statement (key 'h' i) (encode [' ', '\n']) := by
    rw [statement, statement, show quoted (' ' :: newLine) = quoted (encode [' ', '\n']) from by decide]
  cases hc : shell.command with
  | nil =>
    refine ⟨[data], ?_, ?_, fun reads => ?_⟩
    · simp only [NpShellRun.doRead, NpShellRun.writeToConsole, hc, htext]
      rfl
    · simp only [NpShellRun.doRead, NpShellRun.writeToConsole, hc]
    · simp only [NpShellRun.doRead, NpShellRun.writeToConsole, hc, dialogue, List.singleton_append]
  | cons line rest =>
    by_cases hp : '%' ∈ data
    · have hp' := (percent_mem_encode data).2 hp
      refine ⟨[data, line, [' ', '\n']], ?_, ?_, fun reads => ?_⟩
      · simp only [NpShellRun.doRead, NpShellRun.writeToConsole, hc, if_pos hp', htext, hblank, List.append_assoc]
        rfl
      · simp only [NpShellRun.doRead, NpShellRun.writeToConsole, hc, if_pos hp']
      · simp only [NpShellRun.doRead, NpShellRun.writeToConsole, hc, if_pos hp', dialogue, if_pos hp]
        rfl
    · have hp' := fun h => hp ((percent_mem_encode data).1 h)
      refine ⟨[data], ?_, ?_, fun reads => ?_⟩
      · simp only [NpShellRun.doRead, NpShellRun.writeToConsole, hc, if_neg hp', htext]
        rfl
      · simp only [NpShellRun.doRead, NpShellRun.writeToConsole, hc, if_neg hp']
      · simp only [NpShellRun.doRead, NpShellRun.writeToConsole, hc, if_neg hp', dialogue, if_neg hp,
          List.singleton_append]

/-- What a handler of host `i` does: the stage it leads to, and the entries it logs. -/
structure Logged (i : ℕ) (info : HostInfo) (stage : Stage) (h : Handler) (stage' : Stage) (log : List Entry) :
    Prop where
  awake : stage ≠ .idle
  shell : ∀ shell, stage' = .running shell → shell.id = key 'h' i
  own : ∀ x ∈ log, (∃ s, x = .said i s) ∨ ∃ msg, h.error = some msg ∧ x = .error msg
  words : ∀ reads, (stage' = .ended → reads = []) →
    dialogue (stage.lines info) (h.reads ++ reads) = saidBy i log ++ dialogue (stage'.lines info) reads

/-- A handler that reads nothing for the `NpShellRun` and puts nothing out. -/
theorem logged_quiet {i : ℕ} {info : HostInfo} {stage stage' : Stage} {h : Handler} (hs : stage ≠ .idle)
    (hshell : ∀ shell, stage' = .running shell → shell.id = key 'h' i) (hreads : h.reads = [])
    (hlines : stage' ≠ .ended → stage'.lines info = stage.lines info) :
    Logged i info stage h stage' [] where
  awake := hs
  shell := hshell
  own x hx := nomatch hx
  words reads hend := by
    rw [hreads]
    by_cases he : stage' = .ended
    · rw [hend he, List.append_nil, dialogue_nil, dialogue_nil]
      rfl
    · rw [hlines he]
      rfl

/-- A handler that puts out an error message. -/
theorem logged_error {i : ℕ} {info : HostInfo} {stage : Stage} {h : Handler} {msg : List Char} (hs : stage ≠ .idle)
    (herror : h.error = some msg) (hreads : h.reads = []) : Logged i info stage h .ended [.error msg] where
  awake := hs
  shell shell h := by cases h
  own x hx := .inr ⟨msg, herror, List.mem_singleton.1 hx⟩
  words reads hend := by
    rw [hreads, hend rfl, List.append_nil, dialogue_nil, dialogue_nil]
    rfl

theorem saidBy_words (i : ℕ) (words : List (List Char)) : saidBy i (words.map (.said i)) = words := by
  rw [saidBy, List.filterMap_map]
  exact (List.filterMap_congr fun s _ => if_pos rfl).trans List.filterMap_some

theorem on_logged {i : ℕ} {info : HostInfo} (hid : info.id = key 'h' i) {stage stage' : Stage} {h : Handler}
    {out : List Char} (hon : stage.on info h = some (stage', out))
    (hshell : ∀ shell, stage = .running shell → shell.id = key 'h' i) :
    ∃ log, out = log.flatMap Entry.text ∧ Logged i info stage h stage' log := by
  have hstart : ∀ shell, Stage.running (.start info.id info.file) = .running shell → shell.id = key 'h' i := by
    rintro shell heq
    rw [← Stage.running.inj heq]
    exact hid
  unfold Stage.on at hon
  split at hon
  · obtain ⟨rfl, rfl⟩ := Prod.mk.inj (Option.some.inj hon)
    exact ⟨[], rfl, logged_quiet (by simp) (by simp) rfl fun _ => rfl⟩
  · obtain ⟨rfl, rfl⟩ := Prod.mk.inj (Option.some.inj hon)
    exact ⟨[.error _], (List.append_nil _).symm, logged_error (by simp) rfl rfl⟩
  · split_ifs at hon <;> obtain ⟨rfl, rfl⟩ := Prod.mk.inj (Option.some.inj hon)
    · exact ⟨[], rfl, logged_quiet (by simp) (by simp) rfl fun _ => rfl⟩
    · exact ⟨[], rfl, logged_quiet (by simp) hstart rfl fun _ => rfl⟩
  · obtain ⟨rfl, rfl⟩ := Prod.mk.inj (Option.some.inj hon)
    exact ⟨[.error _], (List.append_nil _).symm, logged_error (by simp) rfl rfl⟩
  · obtain ⟨rfl, rfl⟩ := Prod.mk.inj (Option.some.inj hon)
    refine ⟨[], rfl, logged_quiet (by simp) ?_ rfl fun _ => ?_⟩ <;> split_ifs <;> simp [Stage.lines]
  · obtain ⟨rfl, rfl⟩ := Prod.mk.inj (Option.some.inj hon)
    exact ⟨[], rfl, logged_quiet (by simp) (by simp) rfl fun hne => absurd rfl hne⟩
  · split_ifs at hon <;> obtain ⟨rfl, rfl⟩ := Prod.mk.inj (Option.some.inj hon)
    · exact ⟨[], rfl, logged_quiet (by simp) hstart rfl fun _ => rfl⟩
    · exact ⟨[], rfl, logged_quiet (by simp) (by simp) rfl fun hne => absurd rfl hne⟩
  · obtain ⟨rfl, rfl⟩ := Prod.mk.inj (Option.some.inj hon)
    exact ⟨[], rfl, logged_quiet (by simp) (by simp) rfl fun hne => absurd rfl hne⟩
  · rename_i shell c
    obtain ⟨rfl, rfl⟩ := Prod.mk.inj (Option.some.inj hon)
    obtain ⟨words, hconsole, hsame, hwords⟩ := doRead_words i shell c.data (hshell shell rfl)
    refine ⟨words.map (.said i), ?_, by simp, fun s hs => ?_, fun x hx => ?_, fun reads _ => ?_⟩
    · rw [hconsole, List.drop_left, List.flatMap_map, List.flatMap_def]
    · rw [← Stage.running.inj hs, hsame]
      exact hshell shell rfl
    · obtain ⟨s, -, rfl⟩ := List.mem_map.1 hx
      exact .inl ⟨s, rfl⟩
    · rw [saidBy_words]
      exact hwords reads
  · cases hon

theorem on_ended (info : HostInfo) (h : Handler) : Stage.ended.on info h = none := by
  simp [Stage.on]

/-! ### A run -/

namespace Page

variable {infos : ℕ → HostInfo} {p p' : Page} {e : ℕ × Handler} {es : List (ℕ × Handler)}

/-- The hosts have their own panes, and so have their `NpShellRun`s. -/
def Named (infos : ℕ → HostInfo) (p : Page) : Prop :=
  ∀ i, (infos i).id = key 'h' i ∧ ∀ shell, p.stages i = .running shell → shell.id = key 'h' i

theorem readsBy_cons (i : ℕ) (e : ℕ × Handler) (es : List (ℕ × Handler)) :
    readsBy i (e :: es) = (if e.1 = i then e.2.reads else []) ++ readsBy i es := by
  obtain ⟨j, h⟩ := e
  rw [readsBy, List.filterMap_cons]
  rcases eq_or_ne j i with rfl | hne
  · cases h with
    | read data => cases data <;> simp [Handler.reads, readsBy]
    | _ => simp [Handler.reads, readsBy]
  · simp [hne, readsBy]

/-- Nothing more is read for a host that has come to its end. -/
theorem readsBy_ended {i : ℕ} : ∀ {es : List (ℕ × Handler)} {p p' : Page}, p.stages i = .ended →
    runWith (step infos) p es = some p' → readsBy i es = []
  | [], _, _, _, _ => rfl
  | e :: es, p, p', hend, hrun => by
    obtain ⟨q, hq, hrest⟩ := runWith_cons hrun
    obtain ⟨r, hr, rfl⟩ := Option.map_eq_some_iff.1 hq
    have hne : i ≠ e.1 := by
      rintro rfl
      rw [hend, on_ended] at hr
      cases hr
    have hend' : (Function.update p.stages e.1 r.1) i = .ended := by
      rw [Function.update_of_ne hne]
      exact hend
    rw [readsBy_cons, if_neg hne.symm, List.nil_append]
    exact readsBy_ended hend' hrest

/-- What a run puts on the standard output is a log in which every host has its own dialogue, and the
    only other entries are the error messages. -/
theorem run_logged : ∀ {es : List (ℕ × Handler)} {p p' : Page}, Named infos p → runWith (step infos) p es = some p' →
    ∃ log, p'.stdout = p.stdout ++ log.flatMap Entry.text ∧
      (∀ i, saidBy i log = dialogue ((p.stages i).lines (infos i)) (readsBy i es)) ∧
      ∀ x ∈ log, (∃ i s, x = .said i s ∧ p.stages i ≠ .idle) ∨
        ∃ e ∈ es, ∃ msg, e.2.error = some msg ∧ x = .error msg
  | [], p, p', _, hrun => by
    obtain rfl := Option.some.inj hrun
    exact ⟨[], (List.append_nil _).symm, fun i => (dialogue_nil _).symm, fun x hx => nomatch hx⟩
  | e :: es, p, p', hnamed, hrun => by
    obtain ⟨q, hq, hrest⟩ := runWith_cons hrun
    obtain ⟨⟨stage', out⟩, hr, rfl⟩ := Option.map_eq_some_iff.1 hq
    obtain ⟨i, h⟩ := e
    obtain ⟨hid, hshell⟩ := hnamed i
    obtain ⟨log, rfl, hlog⟩ := on_logged hid hr hshell
    have hnamed' : Named infos ⟨Function.update p.stages i stage', p.stdout ++ log.flatMap Entry.text⟩ := by
      intro j
      refine ⟨(hnamed j).1, fun shell hs => ?_⟩
      rcases eq_or_ne j i with rfl | hne
      · simp only [Function.update_self] at hs
        exact hlog.shell shell hs
      · simp only [Function.update_of_ne hne] at hs
        exact (hnamed j).2 shell hs
    obtain ⟨later, hout, hsaid, hentries⟩ := run_logged hnamed' hrest
    refine ⟨log ++ later, ?_, fun j => ?_, fun x hx => ?_⟩
    · rw [hout, List.flatMap_append, List.append_assoc]
    · rw [saidBy, List.filterMap_append, ← saidBy, ← saidBy, hsaid j, readsBy_cons]
      rcases eq_or_ne j i with rfl | hne
      · simp only [Function.update_self, if_true]
        exact (hlog.words _ fun hend => readsBy_ended (by simp [hend]) hrest).symm
      · simp only [Function.update_of_ne hne, if_neg hne.symm, List.nil_append]
        have hnone : saidBy j log = [] := by
          refine List.filterMap_eq_nil_iff.2 fun x hx => ?_
          rcases hlog.own x hx with ⟨s, rfl⟩ | ⟨msg, -, rfl⟩
          · exact if_neg hne.symm
          · rfl
        rw [hnone, List.nil_append]
    · rcases List.mem_append.1 hx with hx | hx
      · rcases hlog.own x hx with ⟨s, rfl⟩ | ⟨msg, herror, rfl⟩
        · exact .inl ⟨i, s, rfl, hlog.awake⟩
        · exact .inr ⟨_, List.mem_cons_self, msg, herror, rfl⟩
      · rcases hentries x hx with ⟨j, s, rfl, hj⟩ | ⟨e, he, hmsg⟩
        · refine .inl ⟨j, s, rfl, fun hidle => hj ?_⟩
          rcases eq_or_ne j i with rfl | hne
          · exact absurd hidle hlog.awake
          · simp only [Function.update_of_ne hne]
            exact hidle
        · exact .inr ⟨e, List.mem_cons_of_mem _ he, hmsg⟩

end Page

/-! ### What the browser makes of a log -/

/-- What stands around the id in a statement. -/
theorem opening_eq : ∃ a b, '<' ∉ a ∧ '<' ∉ b ∧ ∀ id, opening id = a ++ id ++ b :=
  ⟨"document.getElementById('".toList, "').innerHTML += ".toList, by decide, by decide, fun _ => rfl⟩

theorem lt_not_mem_statement {id : List Char} (hid : '<' ∉ id) (s : List Char) : '<' ∉ statement id (encode s) := by
  have hwritten : '<' ∉ (s.filter (· != '\r')).flatMap written := by
    rw [List.mem_flatMap]
    rintro ⟨c, hc, hlt⟩
    have hall : ∀ p ∈ basicRefs, '<' ∉ '&' :: p.1 := by decide
    rcases written_cases (ne_cr_of_mem_filter s c hc) with ⟨name, hname, hw⟩ | ⟨hw, -, hne, -⟩ <;> rw [hw] at hlt
    · exact hall _ hname hlt
    · exact hne (List.mem_singleton.1 hlt).symm
  obtain ⟨a, b, ha, hb, hopening⟩ := opening_eq
  rw [statement, quoted_encode, hopening]
  simp only [List.mem_append, List.mem_cons, not_or]
  exact ⟨⟨⟨⟨ha, hid⟩, hb⟩, by decide, hwritten⟩, by decide, by decide⟩

/-- The statement of one pane begins like those of no other. -/
theorem opening_isPrefixOf {id id' : List Char} (hlen : id'.length = id.length) (r : List Char) :
    (opening id').isPrefixOf (statement id r) = true ↔ id' = id := by
  obtain ⟨a, b, -, -, hopening⟩ := opening_eq
  rw [List.isPrefixOf_iff_prefix, statement, hopening, hopening, List.append_assoc, List.append_assoc,
    List.append_assoc, List.append_assoc, List.prefix_append_right_inj]
  constructor
  · rintro ⟨t, ht⟩
    rw [List.append_assoc] at ht
    exact List.append_inj_left ht hlen
  · rintro rfl
    exact (List.prefix_append_right_inj _).2 (List.prefix_append _ _)

/-- The keys of the five hosts. -/
theorem key_facts : ∀ i < 5, (key 'h' i).length = 2 ∧ '<' ∉ key 'h' i ∧ ∀ j < 5, key 'h' j = key 'h' i → j = i := by
  decide

namespace Document

variable {refs : CharRefs} {query : Query} {d : Document}

/-- The statement of a host is executed on its own pane. -/
theorem execute_statement {i : ℕ} {s : List Char} (hids : d.ids = (table query).ids) (hi : i < 5)
    (hhost : query (key 'h' i) ≠ []) : d.execute refs (statement (key 'h' i) (encode s)) =
      ⟨d.ids, Function.update d.pane (key 'h' i)
        ((d.pane (key 'h' i)).bind fun pane => addToPane refs (key 'h' i) pane s)⟩ := by
  have hmem : key 'h' i ∈ d.ids := by
    rw [hids]
    exact List.mem_map.2 ⟨i, List.mem_filter.2 ⟨List.mem_range.2 hi, decide_eq_true hhost⟩, rfl⟩
  have hlen : ∀ id ∈ d.ids, id.length = (key 'h' i).length := by
    intro id hid
    rw [hids] at hid
    obtain ⟨j, hj, rfl⟩ := List.mem_map.1 hid
    rw [(key_facts i hi).1, (key_facts j (List.mem_range.1 (List.mem_of_mem_filter hj))).1]
  have hfind : d.ids.find? (fun id => (opening id).isPrefixOf (statement (key 'h' i) (encode s))) =
      some (key 'h' i) := by
    cases hf : d.ids.find? fun id => (opening id).isPrefixOf (statement (key 'h' i) (encode s)) with
    | none => exact absurd ((opening_isPrefixOf rfl _).2 rfl) (List.find?_eq_none.1 hf _ hmem)
    | some id =>
      have hyes := List.find?_some hf
      rw [(opening_isPrefixOf (hlen id (List.mem_of_find?_eq_some hf)) _).1 hyes]
  rw [execute, hfind]
  rfl

/-- A pane shows what its host has said, whatever else is in the log. -/
theorem load_log {i : ℕ} (hi : i < 5) : ∀ {log : List Entry} {d : Document}, d.ids = (table query).ids →
    (∀ x ∈ log, (∃ j s, x = .said j s ∧ j < 5 ∧ query (key 'h' j) ≠ []) ∨ ∃ msg, x = .error msg ∧ '<' ∉ msg) →
    (d.load refs (log.flatMap Entry.text)).pane (key 'h' i) =
      (d.pane (key 'h' i)).bind fun pane => (saidBy i log).foldlM (addToPane refs (key 'h' i)) pane
  | [], d, _, _ => by
    exact (Option.bind_fun_some _).symm
  | x :: log, d, hids, hlog => by
    have hrest := fun y hy => hlog y (List.mem_cons_of_mem x hy)
    rcases hlog x List.mem_cons_self with ⟨j, s, rfl, hj, hhost⟩ | ⟨msg, rfl, hmsg⟩
    · obtain ⟨-, hlt, hinj⟩ := key_facts j hj
      have hscripts : scripts ((Entry.said j s :: log).flatMap Entry.text) =
          statement (key 'h' j) (encode s) :: scripts (log.flatMap Entry.text) := by
        rw [List.flatMap_cons, Entry.text, List.append_assoc, List.append_assoc, List.append_assoc,
          scripts_script _ (lt_not_mem_statement hlt s), scripts_text _ (by decide)]
      rw [load, hscripts, List.foldl_cons, execute_statement hids hj hhost, ← load, load_log hi (by exact hids) hrest]
      simp only [saidBy, List.filterMap_cons]
      rcases eq_or_ne j i with rfl | hne
      · simp only [Function.update_self, Option.bind_assoc, if_true, List.foldlM_cons]
        rfl
      · rw [Function.update_of_ne fun heq => hne (hinj i hi heq).symm]
        simp only [if_neg hne]
    · have hscripts : scripts ((Entry.error msg :: log).flatMap Entry.text) = scripts (log.flatMap Entry.text) := by
        rw [List.flatMap_cons, Entry.text]
        refine scripts_text _ ?_
        simp only [errorText, List.mem_append, not_or]
        exact ⟨⟨by decide, hmsg⟩, by decide⟩
      rw [load, hscripts, ← load, load_log hi hids hrest]
      rfl

end Document

namespace Page

variable {console : QueryString.Console} {query : Query} {files : List Char → List Char} {memory : ℕ → List Char}
  {resolves : ℕ → Bool}

theorem named_start : Named (info console query files memory) (start console query resolves) := by
  refine fun j => ⟨rfl, fun shell hs => ?_⟩
  simp only [start] at hs
  split_ifs at hs

theorem start_resolving_iff {i : ℕ} : (start console query resolves).stages i = .resolving ↔
    i < 5 ∧ query (key 'h' i) ≠ [] ∧ query (key 'p' i) ≠ [] ∧ query (key 'f' i) ≠ [] ∧
      (console = .project4 → resolves i = true) := by
  simp only [start]
  split_ifs with hstarted
  · exact iff_of_true rfl hstarted
  · exact iff_of_false (by simp) hstarted

/-- Only a host that is connected to has anything to say, and then it has a pane. -/
theorem host_of_awake {i : ℕ} (h : (start console query resolves).stages i ≠ .idle) :
    i < 5 ∧ query (key 'h' i) ≠ [] := by
  simp only [start] at h
  split_ifs at h with hstarted
  · exact ⟨hstarted.1, hstarted.2.1⟩
  · exact absurd rfl h

theorem lines_start (i : ℕ) : ((start console query resolves).stages i).lines (info console query files memory i) =
    getLines (files (query (key 'f' i))) := by
  simp only [start]
  split_ifs <;> rfl

/-- The pane of a host when the browser has executed everything a run has put out. -/
theorem pane_eq (refs : CharRefs) {es : List (ℕ × Handler)} {p : Page} {i : ℕ}
    (hrun : runWith (step (info console query files memory)) (start console query resolves) es = some p)
    (herror : ∀ e ∈ es, ∀ msg, e.2.error = some msg → '<' ∉ msg) (hi : i < 5) :
    ((Document.table query).load refs p.stdout).pane (key 'h' i) =
      (dialogue (getLines (files (query (key 'f' i)))) (readsBy i es)).foldlM (addToPane refs (key 'h' i)) [] := by
  obtain ⟨log, hout, hsaid, hentries⟩ := run_logged named_start hrun
  have hlog : ∀ x ∈ log, (∃ j s, x = .said j s ∧ j < 5 ∧ query (key 'h' j) ≠ []) ∨
      ∃ msg, x = .error msg ∧ '<' ∉ msg := by
    intro x hx
    rcases hentries x hx with ⟨j, s, rfl, hj⟩ | ⟨e, he, msg, hmsg, rfl⟩
    · exact .inl ⟨j, s, rfl, host_of_awake hj⟩
    · exact .inr ⟨msg, rfl, herror e he msg hmsg⟩
  have hstdout : p.stdout = log.flatMap Entry.text := hout
  have hload : ((Document.table query).load refs p.stdout).pane (key 'h' i) =
      ((Document.table query).pane (key 'h' i)).bind fun pane =>
        (saidBy i log).foldlM (addToPane refs (key 'h' i)) pane := by
    rw [← Document.load_log hi rfl hlog, ← hstdout]
  rw [hsaid i, lines_start] at hload
  exact hload

/-- However the handlers of up to five hosts interleave on the one standard output, the pane of a host
    shows the dialogue of this host: what it sent, and behind each read with a `%` in it the line it was
    sent, cut where a statement cannot be read. If nothing in it is a backslash or a NUL, this is all of
    it, character by character, but for the carriage returns. Error messages are taken to have no `<`. -/
theorem panes_show_dialogues (refs : CharRefs) (console : QueryString.Console) (query : Query)
    (files : List Char → List Char) (memory : ℕ → List Char) (resolves : ℕ → Bool) (es : List (ℕ × Handler))
    (p : Page) (i : ℕ)
    (hrun : runWith (step (info console query files memory)) (start console query resolves) es = some p)
    (herror : ∀ e ∈ es, ∀ msg, e.2.error = some msg → '<' ∉ msg) (hi : i < 5) :
    let said := dialogue (getLines (files (query (key 'f' i)))) (readsBy i es)
    let shown := ((Document.table query).load refs p.stdout).pane (key 'h' i)
    shown = said.foldlM (addToPane refs (key 'h' i)) [] ∧
      ((∀ s ∈ said, Clean s) → shown = some (said.flatMap shownText)) := by
  intro said shown
  have hshown : shown = said.foldlM (addToPane refs (key 'h' i)) [] := pane_eq refs hrun herror hi
  exact ⟨hshown, fun hclean => hshown.trans (pane_clean refs _ said [] hclean (by simp))⟩

/-- Two hosts of five: one prompts and is sent `ls`, one cannot be resolved, and one answers meanwhile. -/
def threeHosts : List (ℕ × Handler) :=
  [(0, .resolved none), (2, .resolved none), (1, .resolved (some ['n', 'o'])), (2, .connected none),
    (0, .connected none), (0, .read (some ⟨['%', ' '], by decide, by decide⟩)),
    (2, .read (some ⟨['<'], by decide, by decide⟩)), (0, .read (some ⟨['a'], by decide, by decide⟩))]

theorem panes_show_dialogues_three :
    ∃ p, runWith (step (info .project3 (fun _ => ['x']) (fun _ => ['l', 's']) fun _ => []))
        (start .project3 (fun _ => ['x']) fun _ => true) threeHosts = some p ∧
      ((Document.table fun _ => ['x']).load basicTable p.stdout).pane (key 'h' 0) =
        some (([['%', ' '], ['l', 's'], [' ', '\n'], ['a']] : List (List Char)).flatMap shownText) := by
  obtain ⟨p, hrun⟩ : ∃ p, runWith (step (info .project3 (fun _ => ['x']) (fun _ => ['l', 's']) fun _ => []))
      (start .project3 (fun _ => ['x']) fun _ => true) threeHosts = some p := ⟨_, rfl⟩
  refine ⟨p, hrun, (panes_show_dialogues basicTable .project3 _ _ _ _ threeHosts p 0 hrun ?_ (by decide)).2 ?_⟩
  · intro e he msg hmsg
    fin_cases he <;> simp [Handler.error] at hmsg
    subst hmsg
    decide
  · decide

end Page

end NetProg.Console
