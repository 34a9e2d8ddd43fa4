import NetProg.CString
import NetProg.Lib.Pieces

/-! How the remote shells cut their input into command lines.

    `npshell` takes what one `read()` returns for one line, cut at the first character that compares
    below 20. In `npshell_2.h` the array it reads into is not initialised, in `npshell_3.h` it is
    zeroed for every line. The line is also the format string of a `sprintf`; what that call does
    with a directive whose argument is missing is not defined, so the call is a parameter, which
    gives `none` where it does not return. What the shell does with a line is left out here: that it
    ends at `exit`, and crashes at a line of blanks. -/

namespace NetProg.Framing

/-- `MAX_INPUT_LENGTH`. -/
def maxInput : ℕ := 15100

/-- What one `read(sock, line, MAX_INPUT_LENGTH)` returns. -/
structure Read where
  data : List UInt8
  fits : data.length ≤ maxInput

/-- `line[i] < 20`, where `char` may be signed. -/
def below20 (signed : Bool) (b : UInt8) : Bool := b < 20 || (signed && 128 ≤ b)

/-- The command line of one `read`, when `line` held something before. An array without a character
    below 20 has no end. -/
def commandLine (signed : Bool) (line : Buffer maxInput) (r : Read) : Option (List UInt8) :=
  let line := line.fill [0] (by decide)
  let line := line.fill r.data r.fits
  if line.bytes.any (below20 signed) then some (line.bytes.takeWhile fun b => !below20 signed b)
  else none

/-- The lines that reach the tokeniser, one `read` after another. -/
def executed (signed : Bool) (sprintf : List UInt8 → Option (List UInt8)) :
    List (Buffer maxInput × Read) → List (List UInt8)
  | [] => []
  | (old, r) :: rest =>
    match commandLine signed old r with
    | none => []
    | some line =>
      match sprintf line with
      | none => []
      | some _ =>
        if line = [] then executed signed sprintf rest
        else line :: executed signed sprintf rest

/-- `npshell_3.h`: `char line[MAX_INPUT_LENGTH] = {0}`. -/
def executedZeroed (signed : Bool) (sprintf : List UInt8 → Option (List UInt8)) (reads : List Read) :
    List (List UInt8) :=
  executed signed sprintf (reads.map fun r => (.zero maxInput, r))

/-! ### What is sent -/

/-- A line feed or a carriage return. -/
def isEnd (b : UInt8) : Bool := b == 10 || b == 13

/-- The end of a line. -/
inductive Ending where | lf | crlf

/-- The bytes of a line end. -/
def Ending.bytes : Ending → List UInt8
  | lf => [10]
  | crlf => [13, 10]

/-- A line as a client sends it: printable characters, spaces, tabs and bytes of UTF-8. -/
structure SentLine where
  text : List UInt8
  ending : Ending
  printable : ∀ b ∈ text, b = 9 ∨ (32 ≤ b ∧ b ≠ 127)

/-- The bytes of a stream of lines. -/
def streamBytes (stream : List SentLine) : List UInt8 :=
  stream.flatMap fun l => l.text ++ l.ending.bytes

/-- The lines of a stream that are not blank. -/
def streamLines (stream : List SentLine) : List (List UInt8) :=
  (stream.map (·.text)).filter fun l => !l.isEmpty

theorem pieces_streamBytes : ∀ stream : List SentLine,
    pieces isEnd (streamBytes stream) = streamLines stream
  | [] => pieces_nil
  | l :: stream => by
    have hfree : ∀ b ∈ l.text, isEnd b = false := by
      intro b hb
      rcases l.printable b hb with rfl | ⟨h32, -⟩
      · rfl
      · simp only [isEnd, Bool.or_eq_false_iff, beq_eq_false_iff_ne]
        constructor <;> rintro rfl <;> revert h32 <;> decide
    have hend : pieces isEnd (l.text ++ (l.ending.bytes ++ streamBytes stream)) =
        pieces isEnd l.text ++ pieces isEnd (streamBytes stream) := by
      cases l.ending with
      | lf => exact pieces_append_sep _ _ rfl
      | crlf =>
        rw [show Ending.crlf.bytes ++ streamBytes stream = 13 :: 10 :: streamBytes stream from rfl,
          pieces_append_sep _ _ rfl, pieces_sep_cons _ rfl]
    have hbytes : streamBytes (l :: stream) =
        l.text ++ (l.ending.bytes ++ streamBytes stream) := by
      simp [streamBytes]
    rw [hbytes, hend, pieces_streamBytes stream, streamLines, streamLines, List.map_cons]
    by_cases hne : l.text = []
    · simp [hne]
    · rw [pieces_of_free hne hfree]
      simp [hne]

/-! ### One read -/

/-- The characters of a read before the first one below 20. -/
def Read.front (signed : Bool) (r : Read) : List UInt8 := r.data.takeWhile fun b => !below20 signed b

/-- The rest of a read, from that character on. -/
def Read.back (signed : Bool) (r : Read) : List UInt8 := r.data.dropWhile fun b => !below20 signed b

/-- A read that is text and then line ends only, and whose text `sprintf` accepts. -/
structure Read.Framed (signed : Bool) (sprintf : List UInt8 → Option (List UInt8)) (r : Read) :
    Prop where
  ends : ∀ b ∈ r.back signed, isEnd b = true
  returns : sprintf (r.front signed) ≠ none

theorem below20_of_isEnd {signed : Bool} {b : UInt8} (h : isEnd b = true) :
    below20 signed b = true := by
  simp only [isEnd, Bool.or_eq_true, beq_iff_eq] at h
  rcases h with rfl | rfl <;> cases signed <;> rfl

variable {signed : Bool} {sprintf : List UInt8 → Option (List UInt8)} {r : Read}

theorem front_append_back (signed : Bool) (r : Read) : r.front signed ++ r.back signed = r.data :=
  List.takeWhile_append_dropWhile

theorem below20_front {b : UInt8} (hb : b ∈ r.front signed) : below20 signed b = false := by
  have h : (!below20 signed b) = true :=
    @List.mem_takeWhile_imp _ (fun b => !below20 signed b) r.data b hb
  simpa using h

theorem front_not_end {b : UInt8} (hb : b ∈ r.front signed) : isEnd b = false := by
  have h := below20_front hb
  cases he : isEnd b with
  | false => rfl
  | true => simp [below20_of_isEnd he] at h

/-- The array after the read. -/
theorem commandLine_eq (line : Buffer maxInput) (hne : r.data ≠ []) :
    commandLine signed line r =
      if (r.data ++ line.bytes.drop r.data.length).any (below20 signed) then
        some ((r.data ++ line.bytes.drop r.data.length).takeWhile fun b => !below20 signed b)
      else none := by
  obtain ⟨d, ds, hd⟩ := List.exists_cons_of_ne_nil hne
  have hdrop : ([0] ++ line.bytes.drop 1).drop r.data.length = line.bytes.drop r.data.length := by
    rw [hd]
    simp
  simp only [commandLine, Buffer.fill, List.length_singleton, hdrop]

/-- A read that ends its line is cut there, whatever the array held. -/
theorem commandLine_of_back (line : Buffer maxInput) (h : r.back signed ≠ []) :
    commandLine signed line r = some (r.front signed) := by
  have hne : r.data ≠ [] := by
    intro hd
    simp [Read.back, hd] at h
  obtain ⟨b, bs, hb⟩ := List.exists_cons_of_ne_nil h
  have hbelow : below20 signed b = true := by
    have := List.head?_dropWhile_not (fun b => !below20 signed b) r.data
    rw [show r.data.dropWhile (fun b => !below20 signed b) = b :: bs from hb] at this
    simpa using this
  rw [commandLine_eq line hne, ← front_append_back signed r, hb]
  have hfront : ∀ x ∈ r.front signed, (!below20 signed x) = true :=
    fun x hx => by simp [below20_front hx]
  simp only [List.append_assoc, List.cons_append]
  rw [if_pos (by simp [hbelow]), List.takeWhile_append_of_pos hfront,
    List.takeWhile_cons_of_neg (by simp [hbelow]), List.append_nil]

/-- A read without a line end is whole when the array was zeroed and has room left. -/
theorem commandLine_zero (h : r.back signed = []) (hne : r.data ≠ []) :
    commandLine signed (.zero maxInput) r =
      if r.data.length < maxInput then some (r.front signed) else none := by
  have hdata : r.data = r.front signed := by
    rw [← front_append_back signed r, h, List.append_nil]
  have hfront : ∀ x ∈ r.data, (!below20 signed x) = true := by
    rw [hdata]
    exact fun x hx => by simp [below20_front hx]
  have hnone : r.data.any (below20 signed) = false := by
    rw [List.any_eq_false]
    intro x hx
    simpa using hfront x hx
  rw [commandLine_eq _ hne, ← hdata]
  simp only [Buffer.zero, List.drop_replicate]
  split_ifs with h1 h2 h2
  · obtain ⟨n, hn⟩ := Nat.exists_eq_add_of_lt h2
    rw [show maxInput - r.data.length = n + 1 by omega, List.replicate_succ,
      List.takeWhile_append_of_pos hfront, List.takeWhile_cons_of_neg (by cases signed <;> decide),
      List.append_nil]
  · rw [show maxInput - r.data.length = 0 by omega] at h1
    simp [hnone] at h1
  · refine absurd ?_ h1
    obtain ⟨n, hn⟩ := Nat.exists_eq_add_of_lt h2
    rw [show maxInput - r.data.length = n + 1 by omega, List.replicate_succ]
    cases signed <;> simp [below20]
  · rfl

/-! ### Counting characters

    A read executes at most its characters before the first one below 20. All characters of the
    lines of the stream occur in some read, so nothing is executed wrongly exactly when no read
    has a character of a line behind that place. -/

/-- The number of characters that are not line ends. -/
def chars (l : List UInt8) : ℕ := l.countP fun b => !isEnd b

theorem chars_front (r : Read) : chars (r.front signed) = (r.front signed).length := by
  rw [chars, List.countP_eq_length]
  intro b hb
  simp [front_not_end hb]

theorem chars_data (signed : Bool) (r : Read) :
    chars r.data = (r.front signed).length + chars (r.back signed) := by
  rw [← chars_front, chars, ← front_append_back signed r, List.countP_append]
  simp [chars]

theorem chars_back_eq_zero : chars (r.back signed) = 0 ↔ ∀ b ∈ r.back signed, isEnd b = true := by
  rw [chars, List.countP_eq_zero]
  simp

/-- A read that ends its line, or leaves room behind it. -/
def Read.Ended (signed : Bool) (r : Read) : Prop := r.back signed ≠ [] ∨ r.data.length < maxInput

theorem commandLine_of_ended (hne : r.data ≠ []) (h : r.Ended signed) :
    commandLine signed (.zero maxInput) r = some (r.front signed) := by
  by_cases hb : r.back signed = []
  · rw [commandLine_zero hb hne, if_pos (h.resolve_left fun h => h hb)]
  · exact commandLine_of_back _ hb

/-- The number of characters executed. -/
def total (lines : List (List UInt8)) : ℕ := (lines.map List.length).sum

/-- Some reads with zeroed arrays execute at most their characters, and all of them only if each is
    framed. -/
theorem total_executed_le (hempty : sprintf [] ≠ none) : ∀ {reads : List Read},
    (∀ r ∈ reads, r.data ≠ []) →
    total (executedZeroed signed sprintf reads) ≤ chars (reads.flatMap (·.data)) ∧
      (total (executedZeroed signed sprintf reads) = chars (reads.flatMap (·.data)) →
        ∀ r ∈ reads, r.Framed signed sprintf ∧ r.Ended signed)
  | [], _ => by simp [executedZeroed, executed, total]
  | r :: reads, hne => by
    have hr := hne r (by simp)
    obtain ⟨hle, heq⟩ := total_executed_le hempty fun x hx => hne x (List.mem_cons_of_mem _ hx)
    have hsum : chars ((r :: reads).flatMap (·.data)) =
        (r.front signed).length + chars (r.back signed) + chars (reads.flatMap (·.data)) := by
      rw [← chars_data]
      simp [chars]
    -- a read that executes nothing although it has characters
    have hstop : 0 < (r.front signed).length →
        executedZeroed signed sprintf (r :: reads) = [] →
        total (executedZeroed signed sprintf (r :: reads)) <
          chars ((r :: reads).flatMap (·.data)) := by
      intro hpos hnil
      rw [hnil, hsum]
      simp only [total, List.map_nil, List.sum_nil]
      omega
    have hcases : r.Ended signed ∨ ¬ r.Ended signed := em _
    rcases hcases with hend | hend
    · have hline := commandLine_of_ended hr hend
      cases hs : sprintf (r.front signed) with
      | none =>
        have hpos : 0 < (r.front signed).length := by
          rw [List.length_pos_iff]
          intro h
          exact hempty (h ▸ hs)
        have hlt := hstop hpos (by simp [executedZeroed, executed, hline, hs])
        exact ⟨hlt.le, fun h => absurd h hlt.ne⟩
      | some text =>
        have htotal : total (executedZeroed signed sprintf (r :: reads)) =
            (r.front signed).length + total (executedZeroed signed sprintf reads) := by
          have hstep : executedZeroed signed sprintf (r :: reads) =
              if r.front signed = [] then executedZeroed signed sprintf reads
              else r.front signed :: executedZeroed signed sprintf reads := by
            simp only [executedZeroed, List.map_cons, executed, hline, hs]
          rw [hstep]
          split_ifs with h
          · simp [h]
          · simp [total]
        rw [htotal, hsum]
        refine ⟨by omega, fun h => ?_⟩
        have hback : chars (r.back signed) = 0 := by omega
        have hrest : total (executedZeroed signed sprintf reads) =
            chars (reads.flatMap (·.data)) := by omega
        have hframed : r.Framed signed sprintf := ⟨chars_back_eq_zero.mp hback, by simp [hs]⟩
        intro x hx
        rcases List.mem_cons.mp hx with rfl | hx
        · exact ⟨hframed, hend⟩
        · exact heq hrest x hx
    · rw [Read.Ended, not_or, not_not] at hend
      have hpos : 0 < (r.front signed).length := by
        rw [List.length_pos_iff]
        intro h
        apply hr
        rw [← front_append_back signed r, h, hend.1, List.nil_append]
      have hlt := hstop hpos (by
        simp [executedZeroed, executed, commandLine_zero hend.1 hr, hend.2])
      exact ⟨hlt.le, fun h => absurd h hlt.ne⟩

/-! ### Framed reads -/

theorem pieces_of_framed (h : r.Framed signed sprintf) :
    pieces isEnd r.data = [r.front signed].filter fun l => !l.isEmpty := by
  have hback : pieces isEnd (r.back signed) = [] := pieces_of_seps h.ends
  have hsplit : pieces isEnd (r.front signed ++ r.back signed) =
      pieces isEnd (r.front signed) ++ pieces isEnd (r.back signed) := by
    refine pieces_append_of_not_glued ?_
    rintro ⟨-, b, hb, hf⟩
    rw [h.ends b (List.mem_of_mem_head? hb)] at hf
    cases hf
  rw [← front_append_back signed r, hsplit, hback, List.append_nil]
  by_cases hne : r.front signed = []
  · simp [hne]
  · rw [pieces_of_free hne fun b hb => front_not_end hb]
    simp [hne]

/-- Reads whose lines are their fronts execute the pieces of each read. -/
theorem executed_of_framed : ∀ {l : List (Buffer maxInput × Read)},
    (∀ x ∈ l, x.2.Framed signed sprintf ∧ commandLine signed x.1 x.2 = some (x.2.front signed)) →
    executed signed sprintf l = (l.map (·.2.data)).flatMap (pieces isEnd)
  | [], _ => rfl
  | (old, r) :: l, h => by
    obtain ⟨hr, hline⟩ := h (old, r) (by simp)
    have ih := executed_of_framed fun x hx => h x (List.mem_cons_of_mem _ hx)
    obtain ⟨text, htext⟩ := Option.ne_none_iff_exists'.mp hr.returns
    rw [List.map_cons, List.flatMap_cons, ← ih, pieces_of_framed hr]
    by_cases hne : r.front signed = []
    · simp [executed, hline, hne, hne ▸ htext]
    · simp [executed, hline, hne, htext]

/-- Whether two reads in a row cut a line in two. -/
def Cut (r r' : Read) : Prop := Glued isEnd r.data r'.data

theorem flatMap_pieces_iff {stream : List SentLine} {reads : List Read}
    (hsplit : reads.flatMap (·.data) = streamBytes stream) (hne : ∀ r ∈ reads, r.data ≠ []) :
    (reads.map (·.data)).flatMap (pieces isEnd) = streamLines stream ↔
      reads.IsChain fun r r' => ¬ Cut r r' := by
  have hflat : (reads.map (·.data)).flatten = streamBytes stream := by
    rw [← hsplit, List.flatMap_def]
  have hparts : ∀ l ∈ reads.map (·.data), l ≠ [] := by simpa using hne
  have hpieces := (@pieces_flatten_iff _ isEnd _ hparts).2
  rw [hflat, pieces_streamBytes, List.isChain_map] at hpieces
  rw [eq_comm, hpieces]
  rfl

theorem executedZeroed_iff (hempty : sprintf [] ≠ none) {stream : List SentLine}
    {reads : List Read} (hsplit : reads.flatMap (·.data) = streamBytes stream)
    (hne : ∀ r ∈ reads, r.data ≠ []) :
    executedZeroed signed sprintf reads = streamLines stream ↔
      (∀ r ∈ reads, r.Framed signed sprintf ∧ r.Ended signed) ∧
        reads.IsChain fun r r' => ¬ Cut r r' := by
  have hgood : (∀ r ∈ reads, r.Framed signed sprintf ∧ r.Ended signed) →
      executedZeroed signed sprintf reads = (reads.map (·.data)).flatMap (pieces isEnd) := by
    intro hgood
    rw [executedZeroed, executed_of_framed]
    · simp [Function.comp_def]
    · rintro x hx
      obtain ⟨r, hr, rfl⟩ := List.mem_map.mp hx
      exact ⟨(hgood r hr).1, commandLine_of_ended (hne r hr) (hgood r hr).2⟩
  rw [← flatMap_pieces_iff hsplit hne]
  constructor
  · intro heq
    have htotal : total (executedZeroed signed sprintf reads) = chars (reads.flatMap (·.data)) := by
      rw [heq, ← pieces_streamBytes, hsplit]
      exact sum_length_pieces _
    have hall := (total_executed_le hempty hne).2 htotal
    exact ⟨hall, (hgood hall).symm.trans heq⟩
  · rintro ⟨hall, heq⟩
    rw [hgood hall, heq]

/-- With an array that holds other characters, a read that does not end its line is cut somewhere
    behind it or not at all. -/
theorem executed_of_open {l₁ : List Read} {l₂ : List (Buffer maxInput × Read)}
    {old : Buffer maxInput} (h : commandLine signed old r = none) :
    executed signed sprintf (l₁.map (fun r => (.zero maxInput, r)) ++ (old, r) :: l₂) =
      executedZeroed signed sprintf l₁ := by
  induction l₁ with
  | nil => simp [executedZeroed, executed, h]
  | cons r' l₁ ih =>
    simp only [executedZeroed, List.map_cons, List.cons_append, executed] at ih ⊢
    rw [ih]

theorem executed_all_iff (hempty : sprintf [] ≠ none) {stream : List SentLine}
    {reads : List Read} (hsplit : reads.flatMap (·.data) = streamBytes stream)
    (hne : ∀ r ∈ reads, r.data ≠ []) :
    (∀ olds : List (Buffer maxInput), olds.length = reads.length →
      executed signed sprintf (olds.zip reads) = streamLines stream) ↔
    ∀ r ∈ reads, r.Framed signed sprintf ∧ r.back signed ≠ [] := by
  constructor
  · intro hall
    have hzip : ∀ l : List Read, (List.replicate l.length (Buffer.zero maxInput)).zip l =
        l.map fun r => (.zero maxInput, r) := by
      intro l
      induction l with
      | nil => rfl
      | cons r l ih => simp [List.replicate_succ, ih]
    have hzero := hall (List.replicate reads.length (.zero maxInput)) (by simp)
    rw [hzip] at hzero
    have hgood := ((executedZeroed_iff hempty hsplit hne).mp hzero).1
    intro r hr
    refine ⟨(hgood r hr).1, fun hback => ?_⟩
    -- the array holds a character that does not end the line
    obtain ⟨l₁, l₂, rfl⟩ := List.append_of_mem hr
    have hfront : r.data = r.front signed := by
      rw [← front_append_back signed r, hback, List.append_nil]
    have hopen : commandLine signed ⟨List.replicate maxInput 32, List.length_replicate⟩ r = none := by
      rw [commandLine_eq _ (hne r hr), if_neg]
      rw [List.any_eq_true]
      rintro ⟨b, hb, hbelow⟩
      rcases List.mem_append.mp hb with hb | hb
      · rw [hfront] at hb
        rw [below20_front hb] at hbelow
        cases hbelow
      · rw [List.drop_replicate, List.mem_replicate] at hb
        rw [hb.2] at hbelow
        cases signed <;> exact absurd hbelow (by decide)
    have hone := hall (List.replicate l₁.length (.zero maxInput) ++
      ⟨List.replicate maxInput 32, List.length_replicate⟩ ::
        List.replicate l₂.length (.zero maxInput)) (by simp)
    rw [List.zip_append (by simp), List.zip_cons_cons, hzip, hzip, executed_of_open hopen] at hone
    have hle := (@total_executed_le signed sprintf hempty l₁
      fun x hx => hne x (List.mem_append_left _ hx)).1
    have htotal : total (streamLines stream) = chars ((l₁ ++ r :: l₂).flatMap (·.data)) := by
      rw [← pieces_streamBytes, hsplit]
      exact sum_length_pieces _
    have hpos : 0 < (r.front signed).length := by
      rw [List.length_pos_iff, ← hfront]
      exact hne r hr
    have hsum : chars ((l₁ ++ r :: l₂).flatMap (·.data)) =
        chars (l₁.flatMap (·.data)) + (chars r.data + chars (l₂.flatMap (·.data))) := by
      simp [chars]
    rw [hone, htotal, hsum, chars_data signed] at hle
    omega
  · intro hall olds hlen
    have hgood : executed signed sprintf (olds.zip reads) =
        (reads.map (·.data)).flatMap (pieces isEnd) := by
      have hsnd : (olds.zip reads).map (·.2.data) = reads.map (·.data) := by
        have := congrArg (List.map Read.data) (List.map_snd_zip hlen.ge)
        rwa [List.map_map] at this
      rw [executed_of_framed, hsnd]
      intro x hx
      have hr := hall x.2 (List.of_mem_zip hx).2
      exact ⟨hr.1, commandLine_of_back _ hr.2⟩
    rw [hgood, flatMap_pieces_iff hsplit hne, List.isChain_iff_forall_rel_of_append_cons_cons]
    rintro r r' l₁ l₂ hl ⟨⟨b, hb, hfree⟩, -⟩
    obtain ⟨hframed, hback⟩ := hall r (by simp [hl])
    rw [← front_append_back signed r, List.getLast?_append_of_ne_nil _ hback] at hb
    rw [hframed.ends b (List.mem_of_getLast? hb)] at hfree
    cases hfree

/-- The lines executed are those of the stream: in the version with an uninitialised array, for
    every content of the array, if and only if every read is text followed by at least one line end
    and by nothing else; in the version with a zeroed array, if and only if every read is text
    followed by line ends, fits the array with its end, and cuts no line in two. -/
theorem framing_iff (signed : Bool) (sprintf : List UInt8 → Option (List UInt8))
    (hsprintf : ∀ text, 37 ∉ text → sprintf text = some text) (stream : List SentLine)
    (reads : List Read) (hsplit : reads.flatMap (·.data) = streamBytes stream)
    (hne : ∀ r ∈ reads, r.data ≠ []) :
    ((∀ olds : List (Buffer maxInput), olds.length = reads.length →
        executed signed sprintf (olds.zip reads) = streamLines stream) ↔
      ∀ r ∈ reads, r.Framed signed sprintf ∧ r.back signed ≠ []) ∧
    (executedZeroed signed sprintf reads = streamLines stream ↔
      (∀ r ∈ reads, r.Framed signed sprintf ∧ r.Ended signed) ∧
        reads.IsChain fun r r' => ¬ Cut r r') := by
  have hempty : sprintf [] ≠ none := by
    rw [hsprintf [] (by simp)]
    simp
  exact ⟨executed_all_iff hempty hsplit hne, executedZeroed_iff hempty hsplit hne⟩

/-- `a`, then `b`, each ended by a line feed. -/
def twoLines : List SentLine :=
  [⟨[97], .lf, by simp⟩, ⟨[98], .lf, by simp⟩]

/-- The two lines arrive one by one. -/
def oneByOne : List Read := [⟨[97, 10], by decide⟩, ⟨[98, 10], by decide⟩]

theorem framing_iff_oneByOne :
    ((∀ olds : List (Buffer maxInput), olds.length = oneByOne.length →
        executed true some (olds.zip oneByOne) = streamLines twoLines) ↔
      ∀ r ∈ oneByOne, r.Framed true some ∧ r.back true ≠ []) ∧
    (executedZeroed true some oneByOne = streamLines twoLines ↔
      (∀ r ∈ oneByOne, r.Framed true some ∧ r.Ended true) ∧
        oneByOne.IsChain fun r r' => ¬ Cut r r') :=
  framing_iff true some (fun _ _ => rfl) twoLines oneByOne rfl (by decide)

/-- The two lines arrive in one read. -/
def together : Read := ⟨[97, 10, 98, 10], by decide⟩

/-- Both versions execute the first line only. -/
theorem framing_loses_line :
    together.data = streamBytes twoLines ∧
      executed true some [(.zero maxInput, together)] ≠ streamLines twoLines ∧
      executedZeroed true some [together] ≠ streamLines twoLines := by
  have hline : commandLine true (.zero maxInput) together = some [97] :=
    commandLine_of_back _ (by decide)
  refine ⟨rfl, ?_, ?_⟩
  · simp [executed, hline, twoLines, streamLines]
  · simp [executedZeroed, executed, hline, twoLines, streamLines]

end NetProg.Framing
