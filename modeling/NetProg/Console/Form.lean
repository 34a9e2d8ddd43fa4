import NetProg.Console.Page
import NetProg.Http.Request

/-! From the form of the panel to the panes of the console.

    The browser sends the form as the query string of a request. The HTTP server takes the request apart
    and puts the query string into the environment of the console, which looks the hosts up in it. -/

namespace NetProg.Console

open Html (CharRefs basicTable)
open Http (Env Data HttpRequest Parts handle parseHttpRequest)
open QueryString (Pair Query isValue joined assign assign_of_mem assign_of_not_mem parse_joined)

/-- `/console.cgi`. -/
def consolePath : List Char := ['/', 'c', 'o', 'n', 's', 'o', 'l', 'e', '.', 'c', 'g', 'i']

/-- What is entered in the panel: values for some of the keys of the console. -/
structure Form (console : QueryString.Console) where
  pairs : List Pair
  of : ∀ p ∈ pairs, p.Of console
  keys : (pairs.map Prod.fst).Nodup

/-- The request for a form: a `GET` with the form behind the path. -/
structure FormRequest (console : QueryString.Console) extends HttpRequest where
  form : Form console
  target_eq : target = consolePath ++ '?' :: joined form.pairs

/-- What the console looks up: the value entered for a key, and nothing for a key that is left out. -/
def Form.query {console : QueryString.Console} (form : Form console) : Query := assign (fun _ => []) form.pairs

/-- A host is entered with all that is needed to connect to it. -/
def Form.Complete {console : QueryString.Console} (form : Form console) (i : ℕ) : Prop :=
  ∀ c ∈ ['h', 'p', 'f'], ∃ v, v ≠ [] ∧ (key c i, v) ∈ form.pairs

/-- A value is not empty in the map exactly when it is entered. -/
theorem assign_ne_nil_iff {pairs : List Pair} (hkeys : (pairs.map Prod.fst).Nodup) (key : List Char) :
    assign (fun _ => []) pairs key ≠ [] ↔ ∃ v, v ≠ [] ∧ (key, v) ∈ pairs := by
  by_cases hkey : key ∈ pairs.map Prod.fst
  · obtain ⟨p, hp, rfl⟩ := List.mem_map.1 hkey
    have hvalue : ∀ v, (p.1, v) ∈ pairs → v = p.2 := fun v hv =>
      (assign_of_mem hkeys hv fun _ => []).symm.trans (assign_of_mem hkeys hp fun _ => [])
    rw [assign_of_mem hkeys hp]
    constructor
    · exact fun hne => ⟨p.2, hne, hp⟩
    · rintro ⟨v, hne, hv⟩
      rw [← hvalue v hv]
      exact hne
  · rw [assign_of_not_mem hkey]
    constructor
    · exact fun hne => absurd rfl hne
    · rintro ⟨v, -, hv⟩
      exact absurd (List.mem_map.2 ⟨_, hv, rfl⟩) hkey

namespace FormRequest

variable {console : QueryString.Console} (r : FormRequest console)

theorem query_eq : r.query = joined r.form.pairs := by
  have hpath : ∀ c ∈ consolePath, (c != '?') = true := by simp [consolePath]
  rw [Parts.query, r.target_eq, List.dropWhile_append_of_pos hpath]
  rfl

/-- What the HTTP server makes of the request: the path of the console, and the form in `QUERY_STRING`. -/
theorem handled (env : Env) (old : Data) : ∃ env', handle parseHttpRequest env (r.received old) =
    some (env', consolePath) ∧ env' .queryString = joined r.form.pairs := by
  obtain ⟨env', hparse, -, huri, hquery, -, -⟩ := r.parse_received env old
  have hfits : StdString.Fits (env' .requestUri) := by
    have hlen : r.target.length ≤ r.toParts.text.length := by
      simp only [Parts.text, Parts.requestLine, List.length_append, List.length_cons]
      omega
    rw [huri]
    exact lt_of_le_of_lt (hlen.trans r.fits) (by decide)
  have hpath : Http.uri env' = some consolePath := by
    rw [Http.uri, StdString.substr_find hfits, huri, r.target_eq, StdString.before_append (by decide)]
  refine ⟨env', ?_, hquery.trans r.query_eq⟩
  rw [handle, hparse, Option.bind_eq_bind, Option.bind_some, hpath]
  rfl

/-- What is entered in the panel arrives: the server runs the console with the form, the console finds in it
    every value that was entered and no other, connects to exactly the hosts that are complete, and whatever
    happens then, in whatever order, the pane of a host shows the dialogue with the lines of the file that
    was entered for it. -/
theorem form_reaches_panes (refs : CharRefs) (env : Env) (old : Data) (files : List Char → List Char)
    (memory : ℕ → List Char) (resolves : ℕ → Bool) :
    ∃ env', handle parseHttpRequest env (r.received old) = some (env', consolePath) ∧
      env' .queryString = joined r.form.pairs ∧
      (∀ fuel, (env' .queryString).length < fuel →
        console.parse fuel (env' .queryString) = some r.form.query) ∧
      (∀ k v, (k, v) ∈ r.form.pairs → r.form.query k = v) ∧
      (∀ k, k ∉ r.form.pairs.map Prod.fst → r.form.query k = []) ∧
      (∀ i < 5, (Page.start console r.form.query resolves).stages i = .resolving ↔
        r.form.Complete i ∧ (console = .project4 → resolves i = true)) ∧
      ∀ es p, runWith (Page.step (Page.info console r.form.query files memory))
          (Page.start console r.form.query resolves) es = some p →
        (∀ e ∈ es, ∀ msg, e.2.error = some msg → '<' ∉ msg) → ∀ i < 5, ∀ f, (key 'f' i, f) ∈ r.form.pairs →
          ((Document.table r.form.query).load refs p.stdout).pane (key 'h' i) =
            (dialogue (getLines (files f)) (readsBy i es)).foldlM (addToPane refs (key 'h' i)) [] := by
  obtain ⟨env', hhandle, hquery⟩ := r.handled env old
  have hentered : ∀ k v, (k, v) ∈ r.form.pairs → r.form.query k = v := fun k v hv =>
    assign_of_mem r.form.keys hv _
  refine ⟨env', hhandle, hquery, fun fuel hfuel => ?_, hentered, fun k hk => assign_of_not_mem hk _,
    fun i hi => ?_, fun es p hrun herror i hi f hf => ?_⟩
  · rw [hquery] at hfuel ⊢
    exact parse_joined r.form.of hfuel
  · have hvalue := fun c => assign_ne_nil_iff r.form.keys (key c i)
    rw [Page.start_resolving_iff, Form.query, hvalue, hvalue, hvalue]
    constructor
    · rintro ⟨-, hh, hp, hf, hresolves⟩
      refine ⟨fun c hc => ?_, hresolves⟩
      simp only [List.mem_cons, List.not_mem_nil, or_false] at hc
      rcases hc with rfl | rfl | rfl
      exacts [hh, hp, hf]
    · rintro ⟨hall, hresolves⟩
      exact ⟨hi, hall 'h' (by simp), hall 'p' (by simp), hall 'f' (by simp), hresolves⟩
  · have hshown := Page.pane_eq refs hrun herror hi
    rwa [hentered _ f hf] at hshown

end FormRequest

/-- The panel with the host `a`, port `1` and the file `t` in its first row. -/
def oneHost : Form .project3 where
  pairs := [(['h', '0'], ['a']), (['p', '0'], ['1']), (['f', '0'], ['t'])]
  of p hp := by
    have hall : ∀ p ∈ ([(['h', '0'], ['a']), (['p', '0'], ['1']), (['f', '0'], ['t'])] : List Pair),
        p.1 ∈ QueryString.Console.project3.keys ∧ p.2.all isValue = true := by decide
    exact ⟨(hall p hp).1, List.all_eq_true.1 (hall p hp).2⟩
  keys := by decide

def oneHostRequest : FormRequest .project3 where
  toHttpRequest :=
    { Http.getRoot with
      target := consolePath ++ '?' :: joined oneHost.pairs
      target_visible := by simp [Http.Visible, consolePath, joined, List.intercalate, Pair.text, oneHost]
      fits := by decide }
  form := oneHost
  target_eq := rfl

/-- The host is connected to, prompts, is sent the one line of its file and answers. -/
def oneDialogue : List (ℕ × Handler) :=
  [(0, .resolved none), (0, .connected none), (0, .read (some ⟨['$', '%'], by decide, by decide⟩)),
    (0, .read (some ⟨['o', 'k'], by decide, by decide⟩))]

theorem form_reaches_panes_one :
    (∃ env', handle parseHttpRequest (fun _ => [])
        (oneHostRequest.received ⟨List.replicate 1024 '\x00', List.length_replicate⟩) = some (env', consolePath) ∧
      env' .queryString = "h0=a&p0=1&f0=t".toList) ∧
    ∃ p, runWith (Page.step (Page.info .project3 oneHost.query (fun _ => ['l', 's']) fun _ => []))
        (Page.start .project3 oneHost.query fun _ => false) oneDialogue = some p ∧
      ((Document.table oneHost.query).load basicTable p.stdout).pane (key 'h' 0) =
        ([['$', '%'], ['l', 's'], [' ', '\n'], ['o', 'k']] : List (List Char)).foldlM
          (addToPane basicTable (key 'h' 0)) [] := by
  obtain ⟨env', hhandle, hquery, -, -, -, -, hpanes⟩ := oneHostRequest.form_reaches_panes basicTable (fun _ => [])
    ⟨List.replicate 1024 '\x00', List.length_replicate⟩ (fun _ => ['l', 's']) (fun _ => []) fun _ => false
  obtain ⟨p, hrun⟩ : ∃ p, runWith (Page.step (Page.info .project3 oneHost.query (fun _ => ['l', 's']) fun _ => []))
      (Page.start .project3 oneHost.query fun _ => false) oneDialogue = some p := ⟨_, rfl⟩
  refine ⟨⟨env', hhandle, hquery.trans (by decide)⟩, p, hrun, ?_⟩
  refine hpanes oneDialogue p hrun (fun e he msg hmsg => ?_) 0 (by decide) ['t'] (.tail _ (.tail _ (.head _)))
  fin_cases he <;> cases hmsg

end NetProg.Console
