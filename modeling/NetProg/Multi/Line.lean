import NetProg.Multi.Model
import NetProg.Server.Access

/-! A line of `npshell_3.h` item by item: what each one does to the turn, and how far combining gets. -/

namespace NetProg.Multi

open NetProg.Server ParserSafety

/-- Combining comes past an item. A token that is refused does not stop it. -/
def passesItem (_ : Unit) : Item → Option Unit
  | .word _ | .bar => some ()
  | .number n | .take n | .give n => if n.isSome then some () else none
  | .file name => if fileFits name then some () else none

/-- One item acts on the row being filled and on the turn. -/
inductive Acts (inp : LineInput) : Item → List Token → Turn → List Token → Turn → Prop
  | word (t : Token) (cur : List Token) (c : Turn) : Acts inp (.word t) cur c (cur ++ [t]) c.tick
  | bar (cur : List Token) (c : Turn) : Acts inp .bar cur c [] (c.push cur).tick
  | number (shock : Bool) (n : Token) (cur : List Token) (c : Turn) :
    Acts inp (.number (some n)) cur c [] ((c.push cur).pipeOut shock (atoi n)).tick
  | file (name : Token) (cur : List Token) (c d : Turn) (h : (c.push cur).redirect inp name = some d) :
    Acts inp (.file (some name)) cur c [] d.tick
  | take (n : Token) (cur : List Token) (c : Turn) :
    Acts inp (.take (some n)) cur c cur (c.takeUserPipe inp (atoi n)).tick
  | give (n : Token) (cur : List Token) (c : Turn) :
    Acts inp (.give (some n)) cur c [] ((c.push cur).makeUserPipe inp (atoi n)).tick

theorem redirect_eq_none {c : Turn} {inp : LineInput} {name : Token}
    (hbuf : c.vars.redirectionFileName.length = 100) (h : c.redirect inp name = none) :
    passesItem () (.file (some name)) = none := by
  rw [Turn.redirect, Option.map_eq_none_iff] at h
  exact if_neg (Bool.eq_false_iff.mp (fileFits_of_none h hbuf))

theorem redirect_eq_some {c d : Turn} {inp : LineInput} {name : Token} (h : c.redirect inp name = some d) :
    ∃ v, c.vars.createFile ⟨inp.creat, inp.redir, none⟩ name = some v ∧
      d = (c.emit ((if inp.creat then [.creat (cString v.redirectionFileName)] else []) ++ [.fflush])).withVars v := by
  rw [Turn.redirect, Option.map_eq_some_iff] at h
  obtain ⟨v, hv, rfl⟩ := h
  exact ⟨v, hv, rfl⟩

/-- What no item changes. -/
structure Kept (c d : Turn) : Prop where
  u : d.u = c.u
  sock : d.sock = c.sock
  environ : d.environ = c.environ
  now : d.now = c.now + 3
  spawned : d.spawned = c.spawned
  buffer : c.vars.redirectionFileName.length = 100 → d.vars.redirectionFileName.length = 100

theorem pipeOut_vars (c : Turn) (shock : Bool) (n : ℤ) :
    (c.pipeOut shock n).vars.redirectionFileName = c.vars.redirectionFileName := by
  rw [Turn.pipeOut]
  cases shock <;> exact numberPipe_buffer ..

theorem createPipeFile_eq (c : Turn) (inp : LineInput) (name : List Char) :
    ∃ k es, c.createPipeFile inp name = (c.emit es).withVars { c.vars with kernel := k } ∧
      ∀ e ∈ es, e = .creat name := by
  rw [Turn.createPipeFile]
  split_ifs
  · exact ⟨_, [.creat name], rfl, by simp⟩
  · exact ⟨c.vars.kernel, [], by simp [Turn.emit, Turn.withVars], by simp⟩

theorem takeUserPipe_kept (c : Turn) (inp : LineInput) (id : ℤ) : Kept c (c.takeUserPipe inp id).tick := by
  rw [Turn.takeUserPipe]
  split_ifs <;> exact ⟨rfl, rfl, rfl, rfl, rfl, fun h => h⟩

theorem makeUserPipe_kept (c : Turn) (inp : LineInput) (id : ℤ) : Kept c (c.makeUserPipe inp id).tick := by
  rw [Turn.makeUserPipe]
  split_ifs
  · exact ⟨rfl, rfl, rfl, rfl, rfl, fun h => h⟩
  · obtain ⟨k, es, hcreate, -⟩ := createPipeFile_eq _ inp _
    rw [hcreate]
    exact ⟨rfl, rfl, rfl, rfl, rfl, fun h => h⟩
  · exact ⟨rfl, rfl, rfl, rfl, rfl, fun h => h⟩

theorem Acts.kept {inp : LineInput} {it : Item} {cur cur' : List Token} {c d : Turn}
    (h : Acts inp it cur c cur' d) : Kept c d := by
  cases h with
  | word | bar => exact ⟨rfl, rfl, rfl, rfl, rfl, id⟩
  | number shock n => exact ⟨rfl, rfl, rfl, rfl, rfl, fun hbuf => (congrArg _ (pipeOut_vars ..)).trans hbuf⟩
  | file name _ _ d hd =>
    obtain ⟨v, hv, rfl⟩ := redirect_eq_some hd
    exact ⟨rfl, rfl, rfl, rfl, rfl, fun hbuf => (fileFits_of_some hv hbuf).2⟩
  | take n => exact takeUserPipe_kept c inp (atoi n)
  | give n =>
    have hkept := makeUserPipe_kept (c.push cur) inp (atoi n)
    exact ⟨hkept.u, hkept.sock, hkept.environ, hkept.now, hkept.spawned, hkept.buffer⟩

/-- What holds at the end of the line and where combining stops, and is carried over one item, holds of
    combining. -/
theorem combine_rule (inp : LineInput) {R : List Item → List Token → Turn → Outcome → Prop}
    (last : ∀ cur c, R [] cur c (.next (if cur = [] then c else c.push cur)))
    (stop : ∀ it l cur c, passesItem () it = none → R (it :: l) cur c (.crashed c))
    (act : ∀ it l cur c cur' d o, passesItem () it = some () → Acts inp it cur c cur' d →
      R l cur' d o → R (it :: l) cur c o)
    (toks cur : List Token) (c : Turn) (hbuf : c.vars.redirectionFileName.length = 100) :
    R (serverItems toks) cur c (combine inp toks cur c) := by
  fun_induction combine inp toks cur c with
  | case1 cur c => exact last cur c
  | case2 tok rest cur c htake hn =>
    rw [serverItems_take htake, hn]
    exact stop _ _ cur c rfl
  | case3 tok rest cur c htake n hn ih =>
    have hact : Acts inp (.take (some n)) cur c cur (c.takeUserPipe inp (atoi n)).tick := .take n cur c
    rw [serverItems_take htake, hn]
    exact act _ _ _ _ _ _ _ rfl hact (ih (hact.kept.buffer hbuf))
  | case4 tok rest cur c htake hord ih =>
    rw [serverItems_word htake hord]
    exact act _ _ _ _ _ _ _ rfl (.word tok cur c) (ih hbuf)
  | case5 rest cur c htake hord ih =>
    rw [serverItems_bar]
    exact act _ _ _ _ _ _ _ rfl (.bar cur c) (ih hbuf)
  | case6 cur c htake hord hbar => exact stop _ _ cur c rfl
  | case7 cur c name rest hredirect htake hord hbar =>
    rw [serverItems_file]
    exact stop _ _ cur c (redirect_eq_none (c := c.push cur) hbuf hredirect)
  | case8 cur c name rest d hredirect htake hord hbar ih =>
    have hact := Acts.file name cur c d hredirect
    obtain ⟨v, hv, -⟩ := redirect_eq_some hredirect
    rw [serverItems_file]
    exact act _ _ _ _ _ _ _ (if_pos (fileFits_of_some hv hbuf).1) hact (ih (hact.kept.buffer hbuf))
  | case9 tok rest cur c htake hord hbar hfile hbang hn =>
    rw [serverItems_mark htake hord hbar hfile, if_pos hbang, hn]
    exact stop _ _ cur c rfl
  | case10 tok rest cur c htake hord hbar hfile hbang n hn ih =>
    have hact : Acts inp (.number (some n)) cur c [] ((c.push cur).pipeOut true (atoi n)).tick :=
      .number true n cur c
    rw [serverItems_mark htake hord hbar hfile, if_pos hbang, hn]
    exact act _ _ _ _ _ _ _ rfl hact (ih (hact.kept.buffer hbuf))
  | case11 tok rest cur c htake hord hbar hfile hbang hnum hn =>
    rw [serverItems_mark htake hord hbar hfile, if_neg hbang, if_pos hnum, hn]
    exact stop _ _ cur c rfl
  | case12 tok rest cur c htake hord hbar hfile hbang hnum n hn ih =>
    have hact : Acts inp (.number (some n)) cur c [] ((c.push cur).pipeOut false (atoi n)).tick :=
      .number false n cur c
    rw [serverItems_mark htake hord hbar hfile, if_neg hbang, if_pos hnum, hn]
    exact act _ _ _ _ _ _ _ rfl hact (ih (hact.kept.buffer hbuf))
  | case13 tok rest cur c htake hord hbar hfile hbang hnum hn =>
    rw [serverItems_mark htake hord hbar hfile, if_neg hbang, if_neg hnum, hn]
    exact stop _ _ cur c rfl
  | case14 tok rest cur c htake hord hbar hfile hbang hnum n hn ih =>
    have hact : Acts inp (.give (some n)) cur c [] ((c.push cur).makeUserPipe inp (atoi n)).tick := .give n cur c
    rw [serverItems_mark htake hord hbar hfile, if_neg hbang, if_neg hnum, hn]
    exact act _ _ _ _ _ _ _ rfl hact (ih (hact.kept.buffer hbuf))

end NetProg.Multi
