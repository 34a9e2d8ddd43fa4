import NetProg.Socks.Firewall

/-! Which files the firewall reads.

    A line of `socks.conf` is cut at its first `#` and then into words, and the conditions use the words
    by number without asking how many there are. A line that runs out of words where they look is read
    past the end of `socks_vec`; every other line without a complete rule is passed over. -/

namespace NetProg.Socks

/-- `socks_vec` for a line. -/
def socksVec (line : List Char) : List (List Char) := pieces isSpace (line.takeWhile (· != '#'))

/-- The elements of `socks_vec` that a line uses: the conditions are short-circuit. -/
def usedElements (cd : List Char) (words : List (List Char)) : List ℕ :=
  0 :: if words[0]? = some permitWord then 1 :: if words[1]? = some cd then [2] else [] else []

/-- The elements that `firewall` uses, each with the number of elements `socks_vec` then has. -/
def accesses (cd dstIp : List Char) : List (List Char) → List (ℕ × ℕ)
  | [] => []
  | line :: lines =>
    (usedElements cd (socksVec line)).map (fun i => (i, (socksVec line).length)) ++
      if permitLine cd dstIp line = some false then accesses cd dstIp lines else []

/-- A line with a complete rule: `permit`, a command and a pattern. -/
def complete (line : List Char) : Bool :=
  match socksVec line with
  | word :: _ :: _ :: _ => word == permitWord
  | _ => false

/-- `firewall` uses only elements that are there and returns, and what it returns is what it returns for
    the complete rules alone. -/
structure Reads (file : List Char) (q : SockRequest) (cd : List Char) : Prop where
  inside : ∀ a ∈ accesses cd q.dstIp (getLines file), a.1 < a.2
  returns : (firewall (some file) q cd).isSome = true
  rules_only :
    firewall (some file) q cd = firewallLoop cd q.dstIp ((getLines file).filter complete)

/-- The line has a rule that lets the request pass. -/
def Lets (cd dstIp line : List Char) : Prop :=
  ∃ pattern rest, socksVec line = permitWord :: cd :: pattern :: rest ∧
    pattern.takeWhile (· != '*') <+: dstIp

/-- A line has a word, behind `permit` another one, and behind `permit` and the command of the request a
    third. -/
structure Readable (cd line : List Char) : Prop where
  word : socksVec line ≠ []
  command : socksVec line ≠ [permitWord]
  pattern : socksVec line ≠ [permitWord, cd]

/-- Every line up to the first rule that lets the request pass can be read. -/
def AllReadable (cd dstIp : List Char) (lines : List (List Char)) : Prop :=
  ∀ pre line post, lines = pre ++ line :: post → (∀ l ∈ pre, ¬ Lets cd dstIp l) → Readable cd line

variable {cd dstIp line : List Char} {lines : List (List Char)}

/-! ### One line -/

theorem permitLine_eq (cd dstIp line : List Char) : permitLine cd dstIp line =
    match socksVec line with
    | [] => none
    | word :: rest =>
      if word = permitWord then
        match rest with
        | [] => none
        | command :: rest =>
          if command = cd then
            match rest with
            | [] => none
            | word :: _ =>
              let pattern := word.takeWhile (· != '*')
              some (dstIp.take pattern.length == pattern)
          else some false
      else some false := rfl

/-- A line that can be read has an answer, and it is yes for a rule that lets the request pass. -/
theorem permitLine_readable (dstIp : List Char) (h : Readable cd line) :
    ∃ b, permitLine cd dstIp line = some b ∧ (b = true ↔ Lets cd dstIp line) ∧
      ∀ i ∈ usedElements cd (socksVec line), i < (socksVec line).length := by
  obtain ⟨hword, hcommand, hpattern⟩ := h
  rw [permitLine_eq, Lets]
  generalize socksVec line = words at hword hcommand hpattern ⊢
  rcases words with _ | ⟨word, _ | ⟨command, _ | ⟨pattern, rest⟩⟩⟩
  · exact absurd rfl hword
  · have hne : word ≠ permitWord := fun heq => hcommand (heq ▸ rfl)
    exact ⟨false, if_neg hne, by simp, by simp [usedElements, hne]⟩
  · rcases eq_or_ne word permitWord with rfl | hne
    · have hne : command ≠ cd := fun heq => hpattern (heq ▸ rfl)
      exact ⟨false, by simp [hne], by simp, by simp [usedElements, hne]⟩
    · exact ⟨false, if_neg hne, by simp, by simp [usedElements, hne]⟩
  · rcases eq_or_ne word permitWord with rfl | hne
    · rcases eq_or_ne command cd with rfl | hne
      · refine ⟨_, (if_pos rfl).trans (if_pos rfl), ?_, by simp [usedElements]⟩
        rw [beq_iff_eq, eq_comm, ← List.prefix_iff_eq_take]
        constructor
        · intro hpre
          exact ⟨pattern, rest, rfl, hpre⟩
        · rintro ⟨pattern', rest', heq, hpre⟩
          cases heq
          exact hpre
      · refine ⟨false, by simp [hne], ?_, by simp [usedElements, hne]⟩
        refine iff_of_false Bool.false_ne_true ?_
        rintro ⟨pattern', rest', heq, -⟩
        cases heq
        exact hne rfl
    · refine ⟨false, if_neg hne, ?_, by simp [usedElements, hne]⟩
      refine iff_of_false Bool.false_ne_true ?_
      rintro ⟨pattern', rest', heq, -⟩
      cases heq
      exact hne rfl

/-- Any other line is read past its last word. -/
theorem permitLine_unreadable (h : ¬ Readable cd line) : permitLine cd dstIp line = none := by
  have hshort : socksVec line = [] ∨ socksVec line = [permitWord] ∨
      socksVec line = [permitWord, cd] := by
    by_contra hno
    simp only [not_or] at hno
    exact h ⟨hno.1, hno.2.1, hno.2.2⟩
  rw [permitLine_eq]
  rcases hshort with hvec | hvec | hvec <;> rw [hvec]
  · exact if_pos rfl
  · exact (if_pos rfl).trans (if_pos rfl)

theorem Lets.complete (h : Lets cd dstIp line) : complete line = true := by
  obtain ⟨pattern, rest, hvec, -⟩ := h
  rw [Socks.complete, hvec]
  exact beq_self_eq_true _

/-! ### The file -/

theorem allReadable_nil : AllReadable cd dstIp [] := by
  intro pre l post hl
  exact absurd hl.symm (List.append_ne_nil_of_right_ne_nil pre (List.cons_ne_nil l post))

theorem allReadable_cons : AllReadable cd dstIp (line :: lines) ↔
    Readable cd line ∧ (¬ Lets cd dstIp line → AllReadable cd dstIp lines) := by
  constructor
  · refine fun h => ⟨h [] line lines rfl (by simp), fun hno pre l post hl hpre => ?_⟩
    refine h (line :: pre) l post (by rw [hl]; rfl) fun x hx => ?_
    rcases List.mem_cons.mp hx with rfl | hx
    · exact hno
    · exact hpre x hx
  · rintro ⟨hline, hrest⟩ pre l post hl hpre
    rcases pre with _ | ⟨x, pre⟩
    · obtain ⟨rfl, -⟩ := List.cons.inj hl
      exact hline
    · obtain ⟨rfl, rfl⟩ := List.cons.inj hl
      exact hrest (hpre line List.mem_cons_self) pre l post rfl
        fun y hy => hpre y (List.mem_cons_of_mem _ hy)

/-- Reading a file that can be read to its end or to the rule that lets the request pass. -/
theorem AllReadable.loop (h : AllReadable cd dstIp lines) :
    (∀ a ∈ accesses cd dstIp lines, a.1 < a.2) ∧ (firewallLoop cd dstIp lines).isSome = true ∧
      firewallLoop cd dstIp lines = firewallLoop cd dstIp (lines.filter complete) := by
  induction lines with
  | nil => exact ⟨fun a ha => (List.not_mem_nil ha).elim, rfl, rfl⟩
  | cons line lines ih =>
    obtain ⟨hline, hrest⟩ := allReadable_cons.mp h
    obtain ⟨b, hb, hiff, hused⟩ := permitLine_readable dstIp hline
    have hhere : ∀ a ∈ (usedElements cd (socksVec line)).map (fun i => (i, (socksVec line).length)),
        a.1 < a.2 := by
      rintro a ha
      obtain ⟨i, hi, rfl⟩ := List.mem_map.mp ha
      exact hused i hi
    cases b with
    | true =>
      have hkept : (line :: lines).filter complete = line :: lines.filter complete :=
        List.filter_cons_of_pos (hiff.mp rfl).complete
      refine ⟨?_, ?_, ?_⟩
      · rw [accesses, hb, if_neg (by decide), List.append_nil]
        exact hhere
      · rw [firewallLoop, hb]
        rfl
      · rw [hkept, firewallLoop, firewallLoop, hb]
        rfl
    | false =>
      obtain ⟨hinside, hreturns, honly⟩ := ih (hrest fun hlets => Bool.false_ne_true (hiff.mpr hlets))
      have hstep : ∀ ls, firewallLoop cd dstIp (line :: ls) = firewallLoop cd dstIp ls := by
        intro ls
        rw [firewallLoop, hb]
        rfl
      refine ⟨?_, ?_, ?_⟩
      · rw [accesses, hb, if_pos rfl]
        exact List.forall_mem_append.mpr ⟨hhere, hinside⟩
      · rw [hstep]
        exact hreturns
      · rw [hstep, honly, List.filter_cons]
        split_ifs
        · exact (hstep _).symm
        · rfl

/-- A file that is read to a result can be read. -/
theorem allReadable_of_isSome (h : (firewallLoop cd dstIp lines).isSome = true) :
    AllReadable cd dstIp lines := by
  induction lines with
  | nil => exact allReadable_nil
  | cons line lines ih =>
    by_cases hline : Readable cd line
    · refine allReadable_cons.mpr ⟨hline, fun hno => ih ?_⟩
      obtain ⟨b, hb, hiff, -⟩ := permitLine_readable dstIp hline
      obtain rfl : b = false := by simpa [hno] using hiff
      rw [firewallLoop, hb] at h
      exact h
    · rw [firewallLoop, permitLine_unreadable hline] at h
      cases h

/-- For every file and request: `firewall` uses only elements that are there and returns, with lines
    without a complete rule left out of account, if and only if each line up to the first rule that lets
    the request pass has the words the conditions come to. -/
theorem firewall_reads_iff (file : List Char) (q : SockRequest) (cd : List Char) :
    Reads file q cd ↔ AllReadable cd q.dstIp (getLines file) := by
  refine ⟨fun h => allReadable_of_isSome h.returns, fun h => ?_⟩
  obtain ⟨hinside, hreturns, honly⟩ := h.loop
  exact ⟨hinside, hreturns, honly⟩

/-- A file that begins with a comment. -/
theorem comment_not_read : ¬ ∀ (file : List Char) (request : Buffer maxLength),
    Reads file (parseRequest request .empty) (parseRequest request .empty).cd := by
  intro h
  have hread := (h (['#', ' ', 'r', 'u', 'l', 'e', 's', '\n', 'p', 'e', 'r', 'm', 'i', 't', ' ', 'c',
    ' ', '*', '.', '*', '.', '*', '.', '*', '\n'])
    (zeroRequest [4, 1, 0, 80, 140, 114, 1, 2, 0] (by decide))).inside (0, 0)
  exact absurd (hread (by decide +kernel)) (by decide)

end NetProg.Socks
