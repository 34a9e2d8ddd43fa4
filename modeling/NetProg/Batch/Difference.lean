import NetProg.Batch.Equality

/-! When `batch` does not do what typing does.

    For each condition there is a world in which the two sessions differ: every line that may be refused
    is refused, no program reads what the client types, and the shell gets past every line, except that a
    child of `npshell_1.h` may keep it at one empty line. So a session only ends where it ends in every
    world. -/

namespace NetProg.Batch

open Log
open Server (batchCmd)

variable {p : Program} {signed : Bool} {s : State}

/-- A world with one file, where a line that may be refused is refused. The shell does not get past the
    line number `n`, if that is an empty one. -/
def refusing (p : Program) (f : TextFile) (n : ℕ) (prints : List Char → Bool)
    (plain : ∀ l, '%' ∉ l → prints l = true) : World where
  file _ _ := some f
  sprintf := prints
  plain := plain
  fate past :=
    match past.lines.getLast? with
    | none => .runs
    | some l =>
      if l = [] ∧ past.lines.length = n then .crashes else if asks p (tokens ' ' l) then .refused else .runs
  leaves _ input := input
  memory _ := batchCmd

/-- Where every `sprintf` returns. -/
def gentle (p : Program) (f : TextFile) (n : ℕ) : World := refusing p f n (fun _ => true) fun _ _ => rfl

/-- No line came before. -/
def fresh : Past := ⟨[], [], false, true⟩

theorem clean_fresh : Clean fresh := ⟨rfl, rfl⟩

theorem sober_refusing {f : TextFile} {n : ℕ} {prints : List Char → Bool}
    {plain : ∀ l, '%' ∉ l → prints l = true} (ls : List (List Char)) (past : Past) :
    Sober p (refusing p f n prints plain) ls past := by
  induction ls generalizing past with
  | nil => trivial
  | cons l ls ih => exact ⟨fun _ _ => rfl, fun next _ => ih next⟩

theorem asks_of_isBatch {toks : List Token} (h : isBatch p toks = true) : asks p toks = false := by
  rcases toks with _ | ⟨cmd, _ | ⟨name, _ | _⟩⟩ <;> simp only [isBatch, Bool.false_eq_true] at h
  obtain ⟨hcmd, hname⟩ : cmd = batchCmd ∧ word p name = true := by simpa using h
  subst hcmd
  cases p with
  | simple => rfl
  | multi =>
    obtain ⟨hord, hless⟩ : Shell.ordinary name = true ∧ ¬ name.head? = some '<' := by simpa [word] using hname
    have hgreater : ¬ name.head? = some '>' := by
      intro hhead
      cases name with
      | nil => cases hhead
      | cons c cs =>
        obtain rfl : c = '>' := by simpa using hhead
        cases hord
    have hne : name ≠ ['>'] := fun h => hgreater (by rw [h]; rfl)
    have hcmd : batchCmd ≠ ['>'] ∧ ¬ batchCmd.head? = some '<' ∧
        ¬ batchCmd.head? = some '>' := by decide
    have hpipe : userPipe [batchCmd, name] = false := by
      simp [userPipe, hcmd, hne, hless, hgreater]
    simp [asks, hpipe]

/-- What a line leaves in such a world. -/
def Past.gently (p : Program) (past : Past) (l : List Char) : Past :=
  let toks := tokens ' ' l
  if past.traced p l then
    if asks p toks then past.parse p l else (past.parse p l).reaps p (lineRows p toks)
  else past.reaps p (lineRows p toks)

/-- In such a world the shell only ends where it ends in every world. -/
theorem after_gentle {f : TextFile} {n : ℕ} {l : List Char} {past : Past} (he : ends p l = false)
    (hn : past.traced p l = true → l = [] → past.lines.length + 1 ≠ n) :
    past.after p (gentle p f n) l = some (past.gently p l) := by
  rw [ends, Bool.or_eq_false_iff] at he
  obtain ⟨hblank, hrows⟩ := he
  have hblank : ¬ (p = .multi ∧ tokens ' ' l = []) := by simpa using hblank
  have hempty : ¬ (p = .multi ∧ l = []) := by
    rintro ⟨hp, rfl⟩
    exact hblank ⟨hp, rfl⟩
  have hprint : ¬ (p = .multi ∧ (gentle p f n).sprintf l = false) := by
    rintro ⟨-, hfails⟩
    cases hfails
  have hexec : ∀ past : Past, asks p (tokens ' ' l) = false →
      past.exec p (lineRows p (tokens ' ' l)) = some (past.reaps p (lineRows p (tokens ' ' l))) := by
    intro past hasks
    rw [Past.exec, if_neg (by simpa [hasks] using hrows)]
  rw [Past.after, if_neg hprint, if_neg hempty]
  simp only [if_neg hblank, Past.gently]
  cases htraced : past.traced p l with
  | true =>
    have hfate : (gentle p f n).fate (past.parse p l) =
        if asks p (tokens ' ' l) then .refused else .runs := by
      have hlines : (past.parse p l).lines = past.lines ++ [l] := rfl
      have hkept : ¬ (l = [] ∧ (past.lines ++ [l]).length = n) := by
        rintro ⟨hl, hlen⟩
        exact hn htraced hl (by simpa using hlen)
      simp only [gentle, refusing, hlines, List.getLast?_concat, if_neg hkept]
    cases hasks : asks p (tokens ' ' l) with
    | true => simp [hfate, hasks]
    | false => simp [hfate, hasks, hexec _ hasks]
  | false =>
    have hasks : asks p (tokens ' ' l) = false := by
      rcases (not_traced hempty htraced).2 with hnil | hbatch
      · rw [hnil]
        cases p <;> rfl
      · exact asks_of_isBatch hbatch
    simp [hexec _ hasks]

/-- A line only adds to the lines that matter. -/
theorem gently_lines (past : Past) (l : List Char) :
    (past.gently p l).lines = if past.traced p l then past.lines ++ [l] else past.lines := by
  have hreaps : ∀ (rows : List (List Token)) (past : Past), (past.reaps p rows).lines = past.lines := by
    intro rows
    induction rows with
    | nil => exact fun _ => rfl
    | cons row rest ih =>
      intro past
      rw [Past.reaps, List.foldl_cons]
      refine (ih _).trans ?_
      rw [Past.reap]
      split_ifs <;> rfl
  rw [Past.gently]
  split
  · split
    · rfl
    · exact hreaps ..
  · exact hreaps ..

theorem gently_length_le (ls : List (List Char)) (past : Past) :
    past.lines.length ≤ (ls.foldl (Past.gently p) past).lines.length := by
  induction ls generalizing past with
  | nil => exact le_rfl
  | cons l ls ih =>
    refine le_trans ?_ (ih (past.gently p l))
    rw [gently_lines]
    split <;> simp

/-- Lines that do not end the session are all entered. -/
theorem feed_gentle {f : TextFile} {n : ℕ} {ls : List (List Char)} (hends : ∀ l ∈ ls, ends p l = false)
    {past : Past} (hn : n = 0 ∨ (ls.foldl (Past.gently p) past).lines.length < n) :
    feed p (gentle p f n) ls past = (ls.filter (· ≠ []), some (ls.foldl (Past.gently p) past)) := by
  induction ls generalizing past with
  | nil => rfl
  | cons l ls ih =>
    obtain ⟨hend, hrest⟩ := List.forall_mem_cons.mp hends
    have hlogged : logged p (gentle p f n) l = [l].filter (· ≠ []) := by
      have hprint : (gentle p f n).sprintf l = true := rfl
      by_cases hl : l = [] <;> simp [logged, hl, hprint]
    have hafter : past.after p (gentle p f n) l = some (past.gently p l) := by
      refine after_gentle hend fun htraced _ hlen => ?_
      have hle := gently_length_le (p := p) ls (past.gently p l)
      rw [gently_lines, if_pos htraced, List.length_append, List.length_singleton, hlen] at hle
      rw [List.foldl_cons] at hn
      omega
    rw [feed, hafter]
    simp only [ih hrest hn, hlogged]
    rw [← List.filter_append]
    rfl

theorem gently_waited {past : Past} {l : List Char} (he : ends p l = false) :
    (past.gently p l).waited = waits p past.waited l := by
  have hempty : ¬ (p = .multi ∧ l = []) := by
    rintro ⟨rfl, rfl⟩
    cases he
  have hafter : past.after p (gentle p ⟨[], by simp⟩ 0) l = some (past.gently p l) :=
    after_gentle he (by simp)
  exact after_waited hafter hempty

/-- Before an empty line that is not left out there is a child. -/
theorem waited_of_effective {past : Past} {xs cs rest : List (List Char)}
    (h : effective .simple past.waited xs = cs ++ [] :: rest) (hends : ∀ l ∈ cs, ends .simple l = false) :
    (cs.foldl (Past.gently .simple) past).waited = false := by
  induction xs generalizing past cs with
  | nil => simp [effective] at h
  | cons x xs ih =>
    rw [effective] at h
    split at h
    · exact ih h hends
    · rename_i hout
      cases cs with
      | nil =>
        obtain ⟨rfl, -⟩ := List.cons.inj h
        simpa using hout
      | cons c cs =>
        obtain ⟨rfl, htail⟩ := List.cons.inj h
        obtain ⟨hend, hrest⟩ := List.forall_mem_cons.mp hends
        rw [← gently_waited hend] at htail
        rw [List.foldl_cons]
        exact ih htail hrest

/-! ### Where a session gets to -/

section Sessions

variable {f : TextFile} {n : ℕ} {s' : State} {xs cs rest : List (List Char)} {a : List Char}

/-- Lines that do not end the session lead past it. -/
theorem Supplies.leads_gentle (hsup : Supplies p signed (gentle p f 0) s xs s') (past : Past)
    (hs : s.halted = false) (hquiet : ∀ l ∈ effective p past.waited xs, nests p l = false)
    (hends : ∀ l ∈ effective p past.waited xs, ends p l = false) (h : List (List Char)) :
    Leads (State.turn p signed (gentle p f 0)) (s.put h past)
      (s'.put (h ++ (effective p past.waited xs).filter (· ≠ []))
        ((effective p past.waited xs).foldl (Past.gently p) past)) := by
  obtain ⟨t, ht, hfed⟩ := hsup.fed (effective_mem hquiet) hs h past (sober_refusing _ _)
  rw [← feed_effective, feed_gentle hends (Or.inl rfl)] at hfed
  have hsame := hfed.same _ rfl
  rw [hsame] at ht
  exact ht

/-- The first line that may end the session is entered, too. -/
theorem Supplies.logs_gentle (hsup : Supplies p signed (gentle p f n) s xs s') (past : Past)
    (hs : s.halted = false) (hxs : effective p past.waited xs = cs ++ [a] ++ rest) (ha : a ≠ [])
    (hquiet : ∀ l ∈ cs ++ [a], nests p l = false) (hends : ∀ l ∈ cs, ends p l = false)
    (hn : n = 0 ∨ (cs.foldl (Past.gently p) past).lines.length < n) (h : List (List Char)) :
    Logs (State.turn p signed (gentle p f n)) State.entered (s.put h past)
      (h ++ cs.filter (· ≠ []) ++ [a]) := by
  obtain ⟨ys, zs, rfl, hys⟩ := split_effective hxs
  obtain ⟨t', ht'⟩ := hsup.of_append
  have hquiet' : ∀ l ∈ effective p past.waited ys, nests p l = false := by rwa [hys]
  obtain ⟨t, ⟨k, rfl⟩, hfed⟩ := ht'.fed (effective_mem hquiet') hs h past (sober_refusing _ _)
  refine ⟨k, ?_⟩
  have hlogged : logged p (gentle p f n) a = [a] := by
    have hprint : (gentle p f n).sprintf a = true := rfl
    simp [logged, ha, hprint]
  rw [hfed.entered, ← feed_effective, hys, feed_append, feed_gentle hends hn]
  simp only [feed, hlogged]
  cases (cs.foldl (Past.gently p) past).after p (gentle p f n) a <;> simp [State.put]

/-- A child keeps the shell at an empty line. -/
theorem Supplies.stuck (hsup : Supplies .simple signed (gentle .simple f n) s xs s') (past : Past)
    (hs : s.halted = false) (hxs : effective .simple past.waited xs = cs ++ [] :: rest)
    (hquiet : ∀ l ∈ cs, nests .simple l = false) (hends : ∀ l ∈ cs, ends .simple l = false)
    (hn : n = (cs.foldl (Past.gently .simple) past).lines.length + 1) (h : List (List Char)) :
    ∃ t, Leads (State.turn .simple signed (gentle .simple f n)) (s.put h past) t ∧ t.halted = true ∧
      t.entered = h ++ cs.filter (· ≠ []) := by
  set last : Past := cs.foldl (Past.gently .simple) past with hlast
  have hxs' : effective .simple past.waited xs = (cs ++ [[]]) ++ rest := by simpa using hxs
  obtain ⟨ys, zs, rfl, hys⟩ := split_effective hxs'
  obtain ⟨t', ht'⟩ := hsup.of_append
  have hquiet' : ∀ l ∈ effective .simple past.waited ys, nests .simple l = false := by
    rw [hys, List.forall_mem_append, List.forall_mem_singleton]
    exact ⟨hquiet, nests_nil .simple⟩
  obtain ⟨t, ht, hfed⟩ := ht'.fed (effective_mem hquiet') hs h past (sober_refusing _ _)
  have htraced : last.traced .simple [] = true := by
    have hwaited : last.waited = false := waited_of_effective hxs hends
    simp [Past.traced, hwaited]
  have hafter : last.after .simple (gentle .simple f n) [] = none := by
    have hlines : (last.parse .simple []).lines = last.lines ++ [[]] := rfl
    have hfate : (gentle .simple f n).fate (last.parse .simple []) = .crashes := by
      simp [gentle, refusing, hlines, hn]
    simp [Past.after, htraced, hfate]
  have hfeed : feed .simple (gentle .simple f n) (cs ++ [[]]) past = (cs.filter (· ≠ []), none) := by
    have hlt : last.lines.length < n := hn ▸ Nat.lt_succ_self _
    rw [feed_append, feed_gentle hends (Or.inr hlt)]
    simp only [feed, ← hlast, hafter, logged_nil, List.append_nil]
  rw [← feed_effective, hys, hfeed] at hfed
  exact ⟨t, ht, hfed.halted, hfed.entered⟩

end Sessions

/-! ### The two sessions -/

variable {f : TextFile}

/-- How two lists of lines that do not agree differ. -/
theorem not_agree {as bs : List (List Char)} (h : ¬ Agree p as bs) (hq : ∀ l ∈ as, nests p l = false) :
    ∃ cs, (∀ l ∈ cs, ends p l = false) ∧
      ((p = .simple ∧ as = cs ∧ bs = cs) ∨ (∃ b bs', as = cs ∧ bs = cs ++ [b] ++ bs') ∨
        (∃ a as', as = cs ++ [a] ++ as' ∧ bs = cs) ∨
        ∃ a b as' bs', a ≠ b ∧ as = cs ++ [a] ++ as' ∧ bs = cs ++ [b] ++ bs') := by
  induction as generalizing bs with
  | nil =>
    cases bs with
    | nil =>
      have hp : p = .simple := by
        cases p with
        | simple => rfl
        | multi => exact (h rfl).elim
      exact ⟨[], by simp, Or.inl ⟨hp, rfl, rfl⟩⟩
    | cons b bs => exact ⟨[], by simp, Or.inr (Or.inl ⟨b, bs, rfl, rfl⟩)⟩
  | cons a as ih =>
    cases bs with
    | nil => exact ⟨[], by simp, Or.inr (Or.inr (Or.inl ⟨a, as, rfl, rfl⟩))⟩
    | cons b bs =>
      obtain ⟨hqa, hqas⟩ := List.forall_mem_cons.mp hq
      rcases eq_or_ne a b with rfl | hab
      · rw [Agree] at h
        have hend : ends p a = false := by
          rw [← Bool.not_eq_true]
          exact fun hend => h ⟨rfl, hqa, Or.inl hend⟩
        obtain ⟨cs, hcs, hdiff⟩ := ih (fun hrest => h ⟨rfl, hqa, Or.inr hrest⟩) hqas
        refine ⟨a :: cs, List.forall_mem_cons.mpr ⟨hend, hcs⟩, ?_⟩
        rcases hdiff with ⟨hp, rfl, rfl⟩ | ⟨b, bs', rfl, rfl⟩ | ⟨c, as', rfl, rfl⟩ |
          ⟨c, b, as', bs', hne, rfl, rfl⟩
        · exact Or.inl ⟨hp, rfl, rfl⟩
        · exact Or.inr (Or.inl ⟨b, bs', rfl, rfl⟩)
        · exact Or.inr (Or.inr (Or.inl ⟨c, as', rfl, rfl⟩))
        · exact Or.inr (Or.inr (Or.inr ⟨c, b, as', bs', hne, rfl, rfl⟩))
      · exact ⟨[], by simp, Or.inr (Or.inr (Or.inr ⟨a, b, as, bs, hab, rfl, rfl⟩))⟩

/-- A line the client types later. -/
def laterLine : List Char := ['l', 's']

theorem typed_laterLine : typed signed laterLine = laterLine := by cases signed <;> decide

theorem nests_laterLine : nests p laterLine = false := by cases p <;> decide

theorem effective_append (waited : Bool) (xs ys : List (List Char)) :
    ∃ b, effective p waited (xs ++ ys) = effective p waited xs ++ effective p b ys := by
  induction xs generalizing waited with
  | nil => exact ⟨waited, rfl⟩
  | cons x xs ih =>
    rw [List.cons_append, effective, effective]
    split
    · exact ih waited
    · obtain ⟨b, hb⟩ := ih (waits p waited x)
      exact ⟨b, by rw [hb]; rfl⟩

/-- The lines of the file, and one more. -/
theorem typed_later : effective p true ((getLines f.chars ++ [laterLine]).map (typed signed)) =
    typedLines p signed f ++ [laterLine] := by
  obtain ⟨b, hb⟩ := effective_append (p := p) true ((getLines f.chars).map (typed signed)) [laterLine]
  have hone : effective p b [laterLine] = [laterLine] := by simp [effective, laterLine]
  rw [List.map_append, List.map_singleton, typed_laterLine, hb, hone]
  rfl

/-- The first line of some that is not empty. -/
theorem first_shown {ls : List (List Char)} (h : ∃ l ∈ ls, l ≠ []) :
    ∃ es x rest, ls = es ++ [x] ++ rest ∧ x ≠ [] ∧ ∀ e ∈ es, e = [] := by
  induction ls with
  | nil => simp at h
  | cons l ls ih =>
    by_cases hl : l = []
    · obtain ⟨es, x, rest, rfl, hx, hes⟩ := ih (by simpa [hl] using h)
      exact ⟨l :: es, x, rest, rfl, hx, List.forall_mem_cons.mpr ⟨hl, hes⟩⟩
    · exact ⟨[], l, ls, rfl, hl, by simp⟩

section Sessions

variable {name : FileName p signed} {n : ℕ} {cs rest : List (List Char)} {a : List Char}

/-- The session in which the lines of the file are typed. -/
theorem logs_typed (later : List (List Char))
    (hlines : effective p true ((getLines f.chars ++ later).map (typed signed)) = cs ++ [a] ++ rest)
    (ha : a ≠ []) (hquiet : ∀ l ∈ cs ++ [a], nests p l = false) (hends : ∀ l ∈ cs, ends p l = false)
    (hn : n = 0 ∨ (cs.foldl (Past.gently p) fresh).lines.length < n) :
    Logs (State.turn p signed (gentle p f n)) State.entered (.prompt fresh (getLines f.chars ++ later))
      (cs.filter (· ≠ []) ++ [a]) := by
  have hsup : Supplies p signed (gentle p f n) _ _ _ := supplies_typed (getLines f.chars ++ later) [] fresh
  rw [List.append_nil] at hsup
  exact hsup.logs_gentle fresh rfl hlines ha hquiet hends hn []

/-- That session, when nothing is typed later. -/
theorem logs_typed_iff (hquiet : ∀ l ∈ typedLines p signed f, nests p l = false)
    (hends : ∀ l ∈ typedLines p signed f, ends p l = false) (lines : List (List Char)) :
    Logs (State.turn p signed (gentle p f 0)) State.entered (.prompt fresh (getLines f.chars ++ [])) lines ↔
      lines <+: (typedLines p signed f).filter (· ≠ []) := by
  have hsup : Supplies p signed (gentle p f 0) _ _ _ := supplies_typed (getLines f.chars) [] fresh
  have htyped := hsup.leads_gentle fresh rfl hquiet hends []
  have hprompt : (State.prompt fresh (getLines f.chars ++ [])).put [] fresh =
      .prompt fresh (getLines f.chars ++ []) := rfl
  rw [hprompt] at htyped
  rw [logs_iff_of_leads turn_appends htyped]
  exact logs_of_fixed (turn_waiting rfl rfl)

theorem gentle_prints (l : List Char) : ¬ (p = .multi ∧ (gentle p f n).sprintf l = false) := by
  rintro ⟨-, hfails⟩
  cases hfails

/-- The session with the line `batch`. -/
theorem logs_batch (hlen : name.token.length < 100) (hcount : (fgetsAll f.chars).length ≤ 10)
    (later : List (List Char)) (hlines : batchLines p f = cs ++ [a] ++ rest) (ha : a ≠ [])
    (hquiet : ∀ l ∈ cs ++ [a], nests p l = false) (hends : ∀ l ∈ cs, ends p l = false)
    (hn : n = 0 ∨ (cs.foldl (Past.gently p) fresh).lines.length < n) :
    Logs (State.turn p signed (gentle p f n)) State.entered (.prompt fresh (batchLine name.token :: later))
      (batchLine name.token :: (cs.filter (· ≠ []) ++ [a])) := by
  rw [logs_iff_of_leads turn_appends (leads_batching clean_fresh hlen hcount rfl (gentle_prints _) later)]
  have hsup : Supplies p signed (gentle p f n) _ _ _ := supplies_file f fresh later
  exact hsup.logs_gentle fresh rfl hlines ha hquiet hends hn [batchLine name.token]

/-- Past the file, when no line is entered later: the client types nothing, or `npshell_1.h` ignores it. -/
theorem logs_batch_iff (hlen : name.token.length < 100) (hcount : (fgetsAll f.chars).length ≤ 10)
    (hne : f.chars ≠ []) {later : List (List Char)} (hlater : later = [] ∨ (p = .simple ∧ later = [laterLine]))
    (hquiet : ∀ l ∈ batchLines p f, nests p l = false) (hends : ∀ l ∈ batchLines p f, ends p l = false)
    (lines : List (List Char)) :
    Logs (State.turn p signed (gentle p f 0)) State.entered (.prompt fresh (batchLine name.token :: later))
      lines ↔ lines <+: batchLine name.token :: (batchLines p f).filter (· ≠ []) := by
  have hsup : Supplies p signed (gentle p f 0) _ _ _ := supplies_file f fresh later
  have hlines := hsup.leads_gentle fresh rfl hquiet hends [batchLine name.token]
  have hpast := ((leads_batching clean_fresh hlen hcount rfl (gentle_prints _) later).trans hlines).trans
    (.one _)
  have hstrings : fgetsAll f.chars ≠ [] := fgetsAux_ne_nil (Or.inl hne)
  rw [turn_end hstrings] at hpast
  rcases hlater with rfl | ⟨rfl, rfl⟩
  · rw [logs_iff_of_leads turn_appends hpast]
    exact logs_of_fixed (turn_waiting rfl rfl)
  · rw [logs_iff_of_leads turn_appends (hpast.trans (.one _))]
    exact logs_of_fixed (turn_waiting rfl rfl)

end Sessions

section Stuck

variable {name : FileName .simple signed} {n : ℕ} {cs rest : List (List Char)}

/-- A child keeps the shell at an empty line of the file. -/
theorem stuck_batch (hlen : name.token.length < 100) (hcount : (fgetsAll f.chars).length ≤ 10)
    (later : List (List Char)) (hlines : batchLines .simple f = cs ++ [] :: rest)
    (hquiet : ∀ l ∈ cs, nests .simple l = false) (hends : ∀ l ∈ cs, ends .simple l = false)
    (hn : n = (cs.foldl (Past.gently .simple) fresh).lines.length + 1) (lines : List (List Char)) :
    Logs (State.turn .simple signed (gentle .simple f n)) State.entered
        (.prompt fresh (batchLine name.token :: later)) lines ↔
      lines <+: batchLine name.token :: cs.filter (· ≠ []) := by
  have hsup : Supplies .simple signed (gentle .simple f n) _ _ _ := supplies_file f fresh later
  obtain ⟨t, ht, hhalted, hentered⟩ :=
    hsup.stuck fresh rfl hlines hquiet hends hn [batchLine name.token]
  have hleads := (leads_batching clean_fresh hlen hcount rfl (gentle_prints _) later).trans ht
  rw [logs_iff_of_leads turn_appends hleads, logs_of_fixed (turn_halted hhalted), hentered]
  rfl

/-- And at an empty line that is typed. -/
theorem stuck_typed (hlines : typedLines .simple signed f = cs ++ [] :: rest)
    (hquiet : ∀ l ∈ cs, nests .simple l = false) (hends : ∀ l ∈ cs, ends .simple l = false)
    (hn : n = (cs.foldl (Past.gently .simple) fresh).lines.length + 1) (lines : List (List Char)) :
    Logs (State.turn .simple signed (gentle .simple f n)) State.entered
        (.prompt fresh (getLines f.chars ++ [])) lines ↔ lines <+: cs.filter (· ≠ []) := by
  have hsup : Supplies .simple signed (gentle .simple f n) _ _ _ := supplies_typed (getLines f.chars) [] fresh
  obtain ⟨t, ht, hhalted, hentered⟩ := hsup.stuck fresh rfl hlines hquiet hends hn []
  have hprompt : (State.prompt fresh (getLines f.chars ++ [])).put [] fresh =
      .prompt fresh (getLines f.chars ++ []) := rfl
  rw [hprompt] at ht
  rw [logs_iff_of_leads turn_appends ht, logs_of_fixed (turn_halted hhalted), hentered]
  rfl

end Stuck

/-- The first line the typing session enters behind some lines. -/
theorem typed_first (hquiet : ∀ l ∈ typedLines p signed f, nests p l = false) {cs zs : List (List Char)}
    (hlines : typedLines p signed f ++ [laterLine] = cs ++ zs) (hzs : ∃ l ∈ zs, l ≠ [])
    (hends : ∀ l ∈ cs, ends p l = false) :
    ∃ x, x ∈ zs ∧ Logs (State.turn p signed (gentle p f 0)) State.entered
      (.prompt fresh (getLines f.chars ++ [laterLine])) (cs.filter (· ≠ []) ++ [x]) := by
  obtain ⟨es, x, rest, rfl, hx, hes⟩ := first_shown hzs
  have hall : ∀ l ∈ cs ++ (es ++ [x] ++ rest), nests p l = false := by
    rw [← hlines, List.forall_mem_append, List.forall_mem_singleton]
    exact ⟨hquiet, nests_laterLine⟩
  have hempty : ∀ e ∈ es, ends p e = false := by
    intro e he
    obtain rfl := hes e he
    cases p with
    | simple => rfl
    | multi =>
      have hmem : [] ∈ typedLines .multi signed f ++ [laterLine] := by simp [hlines, he]
      rcases List.mem_append.mp hmem with hmem | hmem
      · exact absurd hmem (nil_not_mem_effective _ _)
      · simp [laterLine] at hmem
  have hshown : (cs ++ es).filter (· ≠ []) = cs.filter (· ≠ []) := by
    have hnone : es.filter (· ≠ []) = [] := by simpa using hes
    rw [List.filter_append, hnone, List.append_nil]
  have hfirst : effective p true ((getLines f.chars ++ [laterLine]).map (typed signed)) =
      cs ++ es ++ [x] ++ rest := by
    rw [typed_later, hlines]
    simp
  refine ⟨x, by simp, hshown ▸ logs_typed [laterLine] hfirst hx ?_ ?_ (Or.inl rfl)⟩
  · exact fun l hl => hall l (by simp only [List.mem_append, List.mem_singleton] at hl ⊢; tauto)
  · exact List.forall_mem_append.mpr ⟨hends, hempty⟩

/-- A session that enters nothing of the file after the line `batch`. -/
theorem not_equal_of_stuck {name : FileName p signed} (hflat : Flat p signed f)
    (h : ∃ t, Leads (State.turn p signed (gentle p f 0)) (.prompt fresh [batchLine name.token, laterLine]) t ∧
      t.turn p signed (gentle p f 0) = t ∧ ∀ x, [batchLine name.token, x] <+: t.entered →
        f.chars = [] ∧ x = batchCmd) : ¬ Equal p signed name f := by
  intro heq
  obtain ⟨t, hleads, hfixed, hentered⟩ := h
  obtain ⟨x, hx, htyping⟩ := typed_first hflat.2
    (List.nil_append _).symm ⟨laterLine, by simp, by decide⟩ (by simp)
  have hbatch := (heq (gentle p f 0) fresh [laterLine] rfl clean_fresh (sober_refusing _ _) _).mpr htyping
  rw [logs_iff_of_leads turn_appends hleads, logs_of_fixed hfixed] at hbatch
  obtain ⟨hempty, rfl⟩ := hentered x hbatch
  have hnone : typedLines p signed f = [] := by
    rw [typedLines, hempty]
    rfl
  rw [hnone, List.nil_append, List.mem_singleton] at hx
  exact absurd hx (by decide)

/-- The two sessions enter the same lines in these worlds. -/
def Same (name : FileName p signed) (f : TextFile) : Prop :=
  ∀ (n : ℕ) (later lines : List (List Char)), Logs (State.turn p signed (gentle p f n)) State.entered
      (.prompt fresh (batchLine name.token :: later)) (batchLine name.token :: lines) ↔
    Logs (State.turn p signed (gentle p f n)) State.entered (.prompt fresh (getLines f.chars ++ later)) lines

theorem Equal.same {name : FileName p signed} (h : Equal p signed name f) : Same name f :=
  fun n later => h (gentle p f n) fresh later rfl clean_fresh (sober_refusing _ _)

/-- The file is read, and has no line that reads one. -/
structure Readable (name : FileName p signed) (f : TextFile) : Prop where
  flat : Flat p signed f
  name_length : name.token.length < 100
  count : (fgetsAll f.chars).length ≤ 10
  nonempty : f.chars ≠ []

theorem quiet_front {ls cs rest : List (List Char)} {a : List Char} (h : ∀ l ∈ ls, nests p l = false)
    (hls : ls = cs ++ [a] ++ rest) : ∀ l ∈ cs ++ [a], nests p l = false :=
  fun l hl => h l (by rw [hls]; exact List.mem_append_left _ hl)

theorem not_concat_prefix {l : List Char} {ls : List (List Char)} : ¬ ls ++ [l] <+: ls := by
  intro hp
  simpa using hp.length_le

section Different

variable {name : FileName p signed} {cs as bs : List (List Char)} {a b : List Char}

/-- `npshell_1.h` executes nothing behind the file. -/
theorem Same.beyond (h : Same name f) (hread : Readable name f) (hp : p = .simple)
    (has : batchLines p f = cs) (hbs : typedLines p signed f = cs ++ bs) (hcs : ∀ l ∈ cs, ends p l = false) :
    False := by
  have hlines : typedLines p signed f ++ [laterLine] = cs ++ (bs ++ [laterLine]) := by
    rw [hbs, List.append_assoc]
  obtain ⟨x, -, htyping⟩ := typed_first hread.flat.2 hlines ⟨laterLine, by simp, by decide⟩ hcs
  have hbatch := (h 0 _ _).mpr htyping
  rw [logs_batch_iff hread.name_length hread.count hread.nonempty (Or.inr ⟨hp, rfl⟩) hread.flat.1
    (by rwa [has]), has] at hbatch
  exact not_concat_prefix (List.cons_prefix_cons.mp hbatch).2

/-- A line that is only there when it is typed. -/
theorem Same.more_typed (h : Same name f) (hread : Readable name f) (has : batchLines p f = cs)
    (hbs : typedLines p signed f = cs ++ [b] ++ bs) (hb : b ≠ []) (hcs : ∀ l ∈ cs, ends p l = false) :
    False := by
  have htyping := logs_typed (n := 0) [] (by simpa [typedLines] using hbs) hb
    (quiet_front hread.flat.2 hbs) hcs (Or.inl rfl)
  have hbatch := (h 0 _ _).mpr htyping
  rw [logs_batch_iff hread.name_length hread.count hread.nonempty (Or.inl rfl) hread.flat.1 (by rwa [has]),
    has] at hbatch
  exact not_concat_prefix (List.cons_prefix_cons.mp hbatch).2

/-- A line that is only there when it is read. -/
theorem Same.more_read (h : Same name f) (hread : Readable name f) (has : batchLines p f = cs ++ [a] ++ as)
    (ha : a ≠ []) (hbs : typedLines p signed f = cs) (hcs : ∀ l ∈ cs, ends p l = false) : False := by
  have htyped := (h 0 _ _).mp (logs_batch hread.name_length hread.count [] has ha
    (quiet_front hread.flat.1 has) hcs (Or.inl rfl))
  rw [logs_typed_iff hread.flat.2 (by rwa [hbs]), hbs] at htyped
  exact not_concat_prefix htyped

/-- Another line. -/
theorem Same.other (h : Same name f) (hread : Readable name f) (has : batchLines p f = cs ++ [a] ++ as)
    (ha : a ≠ []) (hbs : typedLines p signed f = cs ++ [b] ++ bs) (hb : b ≠ [])
    (hcs : ∀ l ∈ cs, ends p l = false) : a = b := by
  have htyping := logs_typed (n := 0) [] (by simpa [typedLines] using hbs) hb
    (quiet_front hread.flat.2 hbs) hcs (Or.inl rfl)
  have htyped := (h 0 _ _).mp (logs_batch hread.name_length hread.count [] has ha
    (quiet_front hread.flat.1 has) hcs (Or.inl rfl))
  exact htyped.entry_eq turn_appends htyping

end Different

section Kept

variable {name : FileName .simple signed} {cs as bs : List (List Char)} {a b : List Char}

/-- An empty line that keeps the shell when it is read. -/
theorem Same.kept_read (h : Same name f) (hread : Readable name f)
    (has : batchLines .simple f = cs ++ [[]] ++ as)
    (hbs : typedLines .simple signed f ++ [laterLine] = cs ++ [b] ++ bs) (hb : b ≠ [])
    (hcs : ∀ l ∈ cs, ends .simple l = false) : False := by
  have hall : ∀ l ∈ typedLines .simple signed f ++ [laterLine], nests .simple l = false :=
    List.forall_mem_append.mpr ⟨hread.flat.2, List.forall_mem_singleton.mpr nests_laterLine⟩
  have htyping := logs_typed [laterLine] (typed_later.trans hbs) hb (quiet_front hall hbs) hcs
    (Or.inr (Nat.lt_succ_self _))
  have hbatch := (h _ _ _).mpr htyping
  have hquiet := (List.forall_mem_append.mp (quiet_front hread.flat.1 has)).1
  rw [stuck_batch hread.name_length hread.count [laterLine] (by simpa using has) hquiet hcs rfl] at hbatch
  exact not_concat_prefix (List.cons_prefix_cons.mp hbatch).2

/-- An empty line that keeps the shell when it is typed. -/
theorem Same.kept_typed (h : Same name f) (hread : Readable name f)
    (has : batchLines .simple f = cs ++ [a] ++ as) (ha : a ≠ [])
    (hbs : typedLines .simple signed f = cs ++ [[]] ++ bs) (hcs : ∀ l ∈ cs, ends .simple l = false) :
    False := by
  have htyped := (h _ _ _).mp (logs_batch hread.name_length hread.count [] has ha
    (quiet_front hread.flat.1 has) hcs (Or.inr (Nat.lt_succ_self _)))
  have hquiet := (List.forall_mem_append.mp (quiet_front hread.flat.2 hbs)).1
  rw [stuck_typed (by simpa using hbs) hquiet hcs rfl] at htyped
  exact not_concat_prefix htyped

end Kept

/-- Where the lines do not agree, the two sessions enter different lines. -/
theorem Same.agree {name : FileName p signed} (h : Same name f) (hread : Readable name f) :
    Agree p (batchLines p f) (typedLines p signed f) := by
  by_contra hdiffer
  obtain ⟨cs, hcs, hcases⟩ := not_agree hdiffer hread.flat.1
  have hsimple : [] ∈ batchLines p f ∨ [] ∈ typedLines p signed f → p = .simple := by
    cases p with
    | simple => exact fun _ => rfl
    | multi => exact fun h => (h.elim (nil_not_mem_effective _ _) (nil_not_mem_effective _ _)).elim
  rcases hcases with ⟨hp, has, hbs⟩ | ⟨b, bs', has, hbs⟩ | ⟨a, as', has, hbs⟩ | ⟨a, b, as', bs', hab, has, hbs⟩
  · exact h.beyond hread hp has (hbs.trans (List.append_nil cs).symm) hcs
  · by_cases hb : b = []
    · have hp := hsimple (Or.inr (by simp [hbs, hb]))
      exact h.beyond hread hp has (hbs.trans (List.append_assoc ..)) hcs
    · exact h.more_typed hread has hbs hb hcs
  · by_cases ha : a = []
    · obtain rfl := hsimple (Or.inl (by simp [has, ha]))
      subst ha
      have hlater : typedLines .simple signed f ++ [laterLine] = cs ++ [laterLine] ++ [] := by
        rw [hbs, List.append_nil]
      exact h.kept_read hread has hlater (by decide) hcs
    · exact h.more_read hread has ha hbs hcs
  · by_cases ha : a = []
    · obtain rfl := hsimple (Or.inl (by simp [has, ha]))
      subst ha
      have hlater : typedLines .simple signed f ++ [laterLine] = cs ++ [b] ++ (bs' ++ [laterLine]) := by
        rw [hbs, List.append_assoc]
      exact h.kept_read hread has hlater hab.symm hcs
    · by_cases hb : b = []
      · obtain rfl := hsimple (Or.inr (by simp [hbs, hb]))
        subst hb
        exact h.kept_typed hread has ha hbs hcs
      · exact hab (h.other hread has ha hbs hb hcs)

/-- Only such files are batches that do what typing does, as long as no line of them reads a file. -/
theorem fits_of_equal {name : FileName p signed} (hflat : Flat p signed f) (heq : Equal p signed name f) :
    Fits p signed name f := by
  have hfirst : ∀ t, State.turn p signed (gentle p f 0) (.prompt fresh [batchLine name.token, laterLine]) = t →
      Leads (State.turn p signed (gentle p f 0)) (.prompt fresh [batchLine name.token, laterLine]) t := by
    rintro t rfl
    exact .one _
  obtain ⟨hlen, hcount⟩ : name.token.length < 100 ∧ (fgetsAll f.chars).length ≤ 10 := by
    by_contra hover
    refine not_equal_of_stuck hflat ⟨_, hfirst _ (turn_batchLine name clean_fresh [laterLine]), ?_, ?_⟩ heq
    · rw [if_neg (gentle_prints _)]
      exact turn_halted (load_overflows rfl hover _ _)
    · rw [if_neg (gentle_prints _), State.load_entered]
      intro x hx
      have hle : 2 ≤ 1 := hx.length_le
      omega
  have hne : f.chars ≠ [] := by
    intro hempty
    have hread : Leads (State.turn p signed (gentle p f 0)) (.prompt fresh [batchLine name.token, laterLine])
        ((State.batching fresh [laterLine] (fgetsAll f.chars) 0).put [batchLine name.token] fresh) :=
      leads_batching clean_fresh hlen hcount rfl (gentle_prints _) [laterLine]
    rw [hempty] at hread
    refine not_equal_of_stuck hflat ⟨_, hread.trans (.one _), ?_, fun x hx => ⟨hempty, ?_⟩⟩ heq
    · cases p <;> rfl
    · cases p with
      | simple =>
        have hentered : (State.turn .simple signed (gentle .simple f 0)
            ((State.batching fresh [laterLine] (fgetsAll []) 0).put [batchLine name.token] fresh)).entered =
              [batchLine name.token, batchCmd] := rfl
        rw [hentered] at hx
        simpa using hx
      | multi =>
        have hle : 2 ≤ 1 := hx.length_le
        omega
  refine ⟨hlen, ?_, hne, hcount, ?_⟩
  · rintro rfl hpercent
    set w : World := refusing .multi f 0 (fun l => '%' ∉ l) fun l hl => by simpa using hl with hw
    have hprint : w.sprintf (batchLine name.token) = false := by
      simp [hw, refusing, batchLine, hpercent]
    have hbatch := (heq w fresh [] rfl clean_fresh (sober_refusing _ _) []).mpr ⟨0, List.nil_prefix⟩
    have hhalt : Leads (State.turn .multi signed w) (.prompt fresh [batchLine name.token])
        (State.prompt fresh []).halt := by
      refine .step ?_
      rw [turn_batchLine name clean_fresh, if_pos ⟨rfl, hprint⟩]
      exact .refl _
    rw [logs_iff_of_leads turn_appends hhalt, logs_of_fixed (turn_halted rfl)] at hbatch
    simp [State.prompt] at hbatch
  · exact heq.same.agree ⟨hflat, hlen, hcount, hne⟩

/-- Batch mode does what typing does for the files that fit; where no line of the file reads a file, for
    no others. -/
theorem batch_equals_typing_iff {p : Program} {signed : Bool} (name : FileName p signed) (f : TextFile) :
    (Fits p signed name f → Equal p signed name f) ∧
      (Flat p signed f → (Equal p signed name f ↔ Fits p signed name f)) :=
  ⟨equal_of_fits, fun hflat => ⟨fits_of_equal hflat, equal_of_fits⟩⟩

/-- A file with the one line `ls`, and its name. -/
def lsFile : TextFile := ⟨['l', 's', '\n'], by decide⟩

def lsName (p : Program) : FileName p true where
  token := ['f']
  ne := by decide
  word := by cases p <;> decide
  blank := by decide
  keys := List.forall_mem_singleton.mpr rfl

theorem fits_ls : Fits .multi true (lsName .multi) lsFile where
  name_length := by decide
  name_plain := by decide
  nonempty := by decide
  count := by decide
  agree := ⟨rfl, by decide, Or.inr rfl⟩

theorem batch_equals_typing_ls : Equal .multi true (lsName .multi) lsFile :=
  (batch_equals_typing_iff (lsName .multi) lsFile).1 fits_ls

/-- Where `cat` takes the client's next line unless there is a pipe it can read. -/
def catWorld : World where
  file _ _ := some ⟨['c', 'a', 't', '\n'], by decide⟩
  sprintf _ := true
  plain _ _ := rfl
  fate _ := .runs
  leaves past input :=
    if past.lines.getLast? = some ['c', 'a', 't'] ∧ ¬ (past.numPipeInFlag = true ∧ 0 ∈ past.numPipeVec) then
      input.drop 1
    else input
  memory _ := []

/-- After `ls |1` it is the line `batch` that the pipe counts, and not the line `cat` of the file. -/
example :
    ((State.turn .multi true catWorld)^[4] (.prompt ⟨[], [1], false, false⟩
      [batchLine ['f'], laterLine])).entered = [batchLine ['f'], ['c', 'a', 't']] ∧
    ((State.turn .multi true catWorld)^[2] (.prompt ⟨[], [1], false, false⟩
      [['c', 'a', 't'], laterLine])).entered = [['c', 'a', 't'], laterLine] := ⟨rfl, rfl⟩

/-- `npshell_1.h` reads `ls` from the file, and then ignores all the client types. -/
theorem batch_ignores_client : ¬ Equal .simple true (lsName .simple) lsFile := by
  intro heq
  have hflat : Flat .simple true lsFile := ⟨by decide, by decide⟩
  obtain ⟨-, -, hends | hrest⟩ := (fits_of_equal hflat heq).agree
  · exact absurd hends (by decide)
  · cases hrest

end NetProg.Batch
