import NetProg.Lib.Run

/-! The user pipes of `np_multi_proc` (`>id` and `<id` in `npshell_3.h`).

    A pipe is an entry of `name_pipe_record` and a file. The entry is set when the sender's line is
    parsed and cleared when the receiver's line is parsed; the file is truncated, written and read by
    their child processes, whenever those come to it. Every pipe between the same two users has the
    same file. -/

namespace NetProg.Multi

namespace UserPipes

/-- The users of a pipe, the sender first. -/
abbrev Pair := ℕ × ℕ

/-- Where the command of a `>id` line is: its line is parsed, it has opened the file, it has ended. -/
inductive Writing where
  | parsed
  | opened
  | ended
  deriving DecidableEq

/-- A `>id` line that set an entry: its users, where its command is, the offset of its descriptor, and
    what the command has written so far. -/
structure Writer where
  users : Pair
  phase : Writing
  offset : ℕ
  output : List UInt8

/-- Where a `<id` line is: it has seen the entry, it has cleared it, its child has opened the file, its
    child has read to the end of the file. -/
inductive Reading where
  | checked
  | cleared
  | opened
  | done
  deriving DecidableEq

/-- A `<id` line that is accepted: its users, where it is, the line that set the entry it cleared, the
    offset of its descriptor, and the bytes its child has read. -/
structure Reader where
  users : Pair
  phase : Reading
  source : Option ℕ
  offset : ℕ
  bytes : List UInt8

/-- The entries, each with the line that set it, the files, and the lines so far. The row of the last
    user lies behind the array, in the same pages. -/
structure Server where
  record : Pair → Option ℕ
  file : Pair → List UInt8
  writers : ℕ
  writer : ℕ → Writer
  readers : ℕ
  reader : ℕ → Reader

/-- What can happen next. -/
inductive Action where
  | setRecord (users : Pair)
  | openOut (n : ℕ)
  | write (n : ℕ) (chunk : List UInt8)
  | exit (n : ℕ)
  | checkRecord (users : Pair)
  | clearRecord (m : ℕ)
  | openIn (m : ℕ)
  | read (m k : ℕ)
  | leave (u : ℕ)

/-- `write` at an offset of a file: a gap before it becomes zeros, and what lies behind it stays. -/
def writeAt (file : List UInt8) (offset : ℕ) (chunk : List UInt8) : List UInt8 :=
  (file.take offset).rightpad offset 0 ++ chunk ++ file.drop (offset + chunk.length)

/-- `read` of at most `k` bytes at an offset. -/
def readAt (file : List UInt8) (offset k : ℕ) : List UInt8 := (file.drop offset).take k

namespace Server

/-- No pipe, and the files of earlier runs. -/
def start (file : Pair → List UInt8) : Server where
  record _ := none
  file := file
  writers := 0
  writer _ := ⟨(0, 0), .parsed, 0, []⟩
  readers := 0
  reader _ := ⟨(0, 0), .checked, none, 0, []⟩

/-- Change a writer or a reader. -/
def setWriter (s : Server) (n : ℕ) (w : Writer) : Server :=
  { s with writer := Function.update s.writer n w }

def setReader (s : Server) (m : ℕ) (r : Reader) : Server :=
  { s with reader := Function.update s.reader m r }

/-- One action. -/
def step (s : Server) : Action → Option Server
  | .setRecord users =>
    if s.record users = none then
      some { s.setWriter s.writers ⟨users, .parsed, 0, []⟩ with
        record := Function.update s.record users (some s.writers), writers := s.writers + 1 }
    else none
  | .openOut n =>
    let w := s.writer n
    if n < s.writers ∧ w.phase = .parsed then
      some { s.setWriter n { w with phase := .opened, offset := 0 } with
        file := Function.update s.file w.users [] }
    else none
  | .write n chunk =>
    let w := s.writer n
    if n < s.writers ∧ w.phase = .opened then
      some { s.setWriter n { w with offset := w.offset + chunk.length, output := w.output ++ chunk } with
        file := Function.update s.file w.users (writeAt (s.file w.users) w.offset chunk) }
    else none
  | .exit n =>
    let w := s.writer n
    if n < s.writers ∧ w.phase = .opened then some (s.setWriter n { w with phase := .ended }) else none
  | .checkRecord users =>
    if (s.record users).isSome then
      some { s.setReader s.readers ⟨users, .checked, none, 0, []⟩ with readers := s.readers + 1 }
    else none
  | .clearRecord m =>
    let r := s.reader m
    if m < s.readers ∧ r.phase = .checked then
      some { s.setReader m { r with phase := .cleared, source := s.record r.users } with
        record := Function.update s.record r.users none }
    else none
  | .openIn m =>
    let r := s.reader m
    if m < s.readers ∧ r.phase = .cleared then some (s.setReader m { r with phase := .opened }) else none
  | .read m k =>
    let r := s.reader m
    if m < s.readers ∧ r.phase = .opened ∧ 0 < k then
      let data := readAt (s.file r.users) r.offset k
      if data = [] then some (s.setReader m { r with phase := .done })
      else some (s.setReader m { r with offset := r.offset + data.length, bytes := r.bytes ++ data })
    else none
  | .leave u => some { s with record := fun users => if users.1 = u ∨ users.2 = u then none else s.record users }

/-- A line that has read to the end has cleared the entry of a line between the same users, and has
    read all its command has written, which is over. -/
def Exact (s : Server) : Prop :=
  ∀ m < s.readers, (s.reader m).phase = .done → ∃ n, (s.reader m).source = some n ∧
    (s.writer n).users = (s.reader m).users ∧ (s.writer n).phase = .ended ∧
    (s.reader m).bytes = (s.writer n).output

/-- The file of a line is still in use: its command writes, its entry is set, or a line that cleared it
    has not read all. -/
def Wanted (s : Server) (n : ℕ) : Prop :=
  (s.writer n).phase = .opened ∨ s.record (s.writer n).users = some n ∨
    ∃ m < s.readers, (s.reader m).source = some n ∧ (s.reader m).phase ≠ .done

instance (s : Server) (n : ℕ) : Decidable (s.Wanted n) := inferInstanceAs (Decidable (_ ∨ _))

/-- A command opens its file when no other line between the same users has it in use; a line clears an
    entry that is still set; and its child opens the file after the command of that line has ended. -/
def InTurn (s : Server) : Action → Prop
  | .openOut n => ∀ n' < s.writers, n' ≠ n → (s.writer n').users = (s.writer n).users → ¬ s.Wanted n'
  | .clearRecord m => (s.record (s.reader m).users).isSome = true
  | .openIn m => ∀ n ∈ (s.reader m).source, (s.writer n).phase = .ended
  | _ => True

instance (s : Server) (a : Action) : Decidable (s.InTurn a) := by
  cases a <;> unfold InTurn <;> dsimp only <;> infer_instance

/-! ### What actions in turn keep -/

/-- A line whose file holds what its command has written. -/
def Filled (s : Server) (n : ℕ) : Prop :=
  s.file (s.writer n).users = (s.writer n).output ∧ (s.writer n).offset = (s.writer n).output.length

/-- A child reads the output of a command that has ended. -/
structure Follows (s : Server) (r : Reader) (n : ℕ) : Prop where
  users : (s.writer n).users = r.users
  ended : r.phase = .opened ∨ r.phase = .done → (s.writer n).phase = .ended
  bytes : r.bytes = (s.writer n).output.take r.offset
  length : r.bytes.length = r.offset
  all : r.phase = .done → r.bytes = (s.writer n).output

/-- What holds as long as the actions are in turn. -/
structure Kept (s : Server) : Prop where
  recorded : ∀ users n, s.record users = some n → n < s.writers ∧ (s.writer n).users = users
  unopened : ∀ n < s.writers, (s.writer n).phase = .parsed → (s.writer n).output = []
  alone : ∀ n < s.writers, ∀ n' < s.writers, (s.writer n).users = (s.writer n').users →
    (s.writer n).phase ≠ .parsed → (s.writer n').phase ≠ .parsed → s.Wanted n → s.Wanted n' → n = n'
  filled : ∀ n < s.writers, (s.writer n).phase ≠ .parsed → s.Wanted n → s.Filled n
  fresh : ∀ m < s.readers, (s.reader m).phase = .checked → (s.reader m).offset = 0 ∧
    (s.reader m).bytes = []
  follows : ∀ m < s.readers, (s.reader m).phase ≠ .checked → ∃ n, (s.reader m).source = some n ∧
    n < s.writers ∧ s.Follows (s.reader m) n

variable {s t : Server}

theorem Kept.exact (h : s.Kept) : s.Exact := by
  intro m hm hdone
  obtain ⟨n, hsource, -, hfollows⟩ := h.follows m hm (by simp [hdone])
  exact ⟨n, hsource, hfollows.users, hfollows.ended (Or.inr hdone), hfollows.all hdone⟩

theorem kept_start (file : Pair → List UInt8) : (start file).Kept where
  recorded _ _ h := by cases h
  unopened n h := absurd h (Nat.not_lt_zero n)
  alone n h := absurd h (Nat.not_lt_zero n)
  filled n h := absurd h (Nat.not_lt_zero n)
  fresh m h := absurd h (Nat.not_lt_zero m)
  follows m h := absurd h (Nat.not_lt_zero m)

/-! ### Files -/

/-- Writing at the end of a file. -/
theorem writeAt_end (file chunk : List UInt8) : writeAt file file.length chunk = file ++ chunk := by
  simp [writeAt, List.rightpad]

/-- What has been read and the next read make up a longer beginning of the file. -/
theorem take_append_readAt (file : List UInt8) (offset k : ℕ) :
    file.take offset ++ readAt file offset k = file.take (offset + (readAt file offset k).length) := by
  rw [List.take_add, readAt, List.length_take, List.take_eq_take_min (l := file.drop offset)]

/-- Nothing is left at the end of the file only. -/
theorem take_of_readAt_nil {file : List UInt8} {offset k : ℕ} (hk : 0 < k)
    (h : readAt file offset k = []) : file.take offset = file := by
  rw [readAt, List.take_eq_nil_iff, List.drop_eq_nil_iff] at h
  exact List.take_of_length_le (h.resolve_left hk.ne')

/-! ### The lines that write -/

/-- The lines of writers that stay as they are, when nothing new is wanted. -/
theorem Follows.frame {r : Reader} {n : ℕ} (h : s.Follows r n) (hw : t.writer n = s.writer n) :
    t.Follows r n where
  users := by rw [hw, h.users]
  ended hr := by rw [hw, h.ended hr]
  bytes := by rw [hw, h.bytes]
  length := h.length
  all hr := by rw [hw, h.all hr]

theorem kept_setRecord (h : s.Kept) {users : Pair} (hnone : s.record users = none) :
    Kept { s.setWriter s.writers ⟨users, .parsed, 0, []⟩ with
      record := Function.update s.record users (some s.writers), writers := s.writers + 1 } := by
  set t : Server := { s.setWriter s.writers ⟨users, .parsed, 0, []⟩ with
    record := Function.update s.record users (some s.writers), writers := s.writers + 1 } with ht
  have hself : t.writer s.writers = ⟨users, .parsed, 0, []⟩ := by simp [ht, setWriter]
  have hothers : ∀ n, n < s.writers → t.writer n = s.writer n := fun n hn => by
    simp [ht, setWriter, hn.ne]
  have hcases : ∀ {n}, n < t.writers → n = s.writers ∨ n < s.writers := fun {n} hn => by
    have hle : n < s.writers + 1 := hn
    omega
  have hold : ∀ {n}, n < t.writers → (t.writer n).phase ≠ .parsed → n < s.writers := by
    intro n hn hphase
    refine (hcases hn).resolve_left ?_
    rintro rfl
    rw [hself] at hphase
    exact hphase rfl
  have hwanted : ∀ n, n < s.writers → t.Wanted n → s.Wanted n := by
    intro n hn hw
    rw [Wanted, hothers n hn] at hw
    refine hw.imp_right (Or.imp_left fun hrec => ?_)
    by_cases hu : (s.writer n).users = users
    · simp only [ht, hu, Function.update_self, Option.some.injEq] at hrec
      omega
    · simpa [ht, hu] using hrec
  refine ⟨?_, ?_, ?_, ?_, h.fresh, ?_⟩
  · intro users' n hrec
    by_cases hu : users' = users
    · subst hu
      simp only [ht, Function.update_self, Option.some.injEq] at hrec
      subst hrec
      exact ⟨Nat.lt_succ_self _, by rw [hself]⟩
    · simp only [ht, Function.update_of_ne hu] at hrec
      obtain ⟨hn, hw⟩ := h.recorded users' n hrec
      exact ⟨Nat.lt_succ_of_lt hn, by rw [hothers n hn, hw]⟩
  · intro n hn hphase
    rcases hcases hn with rfl | hn
    · rw [hself]
    · rw [hothers n hn] at hphase ⊢
      exact h.unopened n hn hphase
  · intro n hn n' hn' husers hphase hphase' hw hw'
    have hlt := hold hn hphase
    have hlt' := hold hn' hphase'
    rw [hothers n hlt] at husers hphase
    rw [hothers n' hlt'] at husers hphase'
    exact h.alone n hlt n' hlt' husers hphase hphase' (hwanted n hlt hw) (hwanted n' hlt' hw')
  · intro n hn hphase hw
    have hlt := hold hn hphase
    rw [Filled, hothers n hlt]
    rw [hothers n hlt] at hphase
    exact h.filled n hlt hphase (hwanted n hlt hw)
  · intro m hm hphase
    obtain ⟨n, hsource, hn, hfollows⟩ := h.follows m hm hphase
    exact ⟨n, hsource, Nat.lt_succ_of_lt hn, hfollows.frame (hothers n hn)⟩

/-- The command of a line opens the file that nobody else wants. -/
theorem kept_openOut (h : s.Kept) {n : ℕ} (hn : n < s.writers) (hphase : (s.writer n).phase = .parsed)
    (hturn : s.InTurn (.openOut n)) :
    Kept { s.setWriter n { s.writer n with phase := .opened, offset := 0 } with
      file := Function.update s.file (s.writer n).users [] } := by
  set t : Server := { s.setWriter n { s.writer n with phase := .opened, offset := 0 } with
    file := Function.update s.file (s.writer n).users [] } with ht
  have hself : t.writer n = { s.writer n with phase := .opened, offset := 0 } := by simp [ht, setWriter]
  have hothers : ∀ k, k ≠ n → t.writer k = s.writer k := fun k hk => by simp [ht, setWriter, hk]
  have hwanted : ∀ k, k ≠ n → t.Wanted k → s.Wanted k := by
    intro k hk hw
    rw [Wanted, hothers k hk] at hw
    exact hw
  refine ⟨?_, ?_, ?_, ?_, h.fresh, ?_⟩
  · intro users k hrec
    obtain ⟨hk, hw⟩ := h.recorded users k hrec
    refine ⟨hk, ?_⟩
    by_cases hkn : k = n
    · rw [hkn, hself, ← hw, hkn]
    · rw [hothers k hkn, hw]
  · intro k hk hp
    by_cases hkn : k = n
    · rw [hkn, hself] at hp
      cases hp
    · rw [hothers k hkn] at hp ⊢
      exact h.unopened k hk hp
  · intro k hk k' hk' husers hp hp' hw hw'
    by_cases hkn : k = n
    · by_cases hkn' : k' = n
      · rw [hkn, hkn']
      · rw [hkn, hself, hothers k' hkn'] at husers
        exact absurd (hwanted k' hkn' hw') (hturn k' hk' hkn' husers.symm)
    · by_cases hkn' : k' = n
      · rw [hkn', hself, hothers k hkn] at husers
        exact absurd (hwanted k hkn hw) (hturn k hk hkn husers)
      · rw [hothers k hkn] at husers hp
        rw [hothers k' hkn'] at husers hp'
        exact h.alone k hk k' hk' husers hp hp' (hwanted k hkn hw) (hwanted k' hkn' hw')
  · intro k hk hp hw
    by_cases hkn : k = n
    · subst hkn
      rw [Filled, hself, h.unopened k hk hphase]
      exact ⟨by simp [ht], rfl⟩
    · have hu : (s.writer k).users ≠ (s.writer n).users := fun husers =>
        hturn k hk hkn husers (hwanted k hkn hw)
      rw [hothers k hkn] at hp
      rw [Filled, hothers k hkn]
      simpa [ht, hu, Filled] using h.filled k hk hp (hwanted k hkn hw)
  · intro m hm hp
    obtain ⟨k, hsource, hk, hfollows⟩ := h.follows m hm hp
    refine ⟨k, hsource, hk, ?_⟩
    by_cases hkn : k = n
    · subst hkn
      -- nobody has opened the file to read it yet
      have hnot : ¬ ((s.reader m).phase = .opened ∨ (s.reader m).phase = .done) := fun hr => by
        have hended := hfollows.ended hr
        rw [hphase] at hended
        cases hended
      show t.Follows (s.reader m) k
      refine ⟨?_, fun hr => absurd hr hnot, ?_, hfollows.length, fun hr => absurd (Or.inr hr) hnot⟩
      · rw [hself]
        exact hfollows.users
      · rw [hself]
        exact hfollows.bytes
    · exact hfollows.frame (hothers k hkn)

/-- The command writes to its file, which nobody else wants. -/
theorem kept_write (h : s.Kept) {n : ℕ} (hn : n < s.writers) (hphase : (s.writer n).phase = .opened)
    (chunk : List UInt8) :
    Kept { s.setWriter n { s.writer n with
        offset := (s.writer n).offset + chunk.length, output := (s.writer n).output ++ chunk } with
      file := Function.update s.file (s.writer n).users
        (writeAt (s.file (s.writer n).users) (s.writer n).offset chunk) } := by
  set t : Server := { s.setWriter n { s.writer n with
      offset := (s.writer n).offset + chunk.length, output := (s.writer n).output ++ chunk } with
    file := Function.update s.file (s.writer n).users
      (writeAt (s.file (s.writer n).users) (s.writer n).offset chunk) } with ht
  have hself : t.writer n = { s.writer n with
      offset := (s.writer n).offset + chunk.length
      output := (s.writer n).output ++ chunk } := by simp [ht, setWriter]
  have hothers : ∀ k, k ≠ n → t.writer k = s.writer k := fun k hk => by simp [ht, setWriter, hk]
  have hsame : ∀ k, (t.writer k).users = (s.writer k).users ∧ (t.writer k).phase = (s.writer k).phase := by
    intro k
    by_cases hk : k = n
    · rw [hk, hself]
      exact ⟨rfl, rfl⟩
    · rw [hothers k hk]
      exact ⟨rfl, rfl⟩
  have hwanted : ∀ k, t.Wanted k → s.Wanted k := by
    intro k hw
    rw [Wanted, (hsame k).1, (hsame k).2] at hw
    exact hw
  have hparsed : (s.writer n).phase ≠ .parsed := by simp [hphase]
  have hfilled := h.filled n hn hparsed (Or.inl hphase)
  refine ⟨?_, ?_, ?_, ?_, h.fresh, ?_⟩
  · intro users k hrec
    rw [(hsame k).1]
    exact h.recorded users k hrec
  · intro k hk hp
    rw [(hsame k).2] at hp
    have hkn : k ≠ n := by
      rintro rfl
      exact hparsed hp
    rw [hothers k hkn]
    exact h.unopened k hk hp
  · intro k hk k' hk' husers hp hp' hw hw'
    rw [(hsame k).1, (hsame k').1] at husers
    rw [(hsame k).2] at hp
    rw [(hsame k').2] at hp'
    exact h.alone k hk k' hk' husers hp hp' (hwanted k hw) (hwanted k' hw')
  · intro k hk hp hw
    rw [(hsame k).2] at hp
    by_cases hkn : k = n
    · subst hkn
      rw [Filled, hself]
      obtain ⟨hfile, hoffset⟩ := hfilled
      simp only [ht, Function.update_self, List.length_append, hoffset, and_true]
      rw [hfile, writeAt_end]
    · have hu : (s.writer k).users ≠ (s.writer n).users := fun husers =>
        hkn (h.alone k hk n hn husers hp hparsed (hwanted k hw) (Or.inl hphase))
      rw [Filled, hothers k hkn]
      simpa [ht, hu, Filled] using h.filled k hk hp (hwanted k hw)
  · intro m hm hp
    obtain ⟨k, hsource, hk, hfollows⟩ := h.follows m hm hp
    refine ⟨k, hsource, hk, ?_⟩
    by_cases hkn : k = n
    · subst hkn
      have hnot : ¬ ((s.reader m).phase = .opened ∨ (s.reader m).phase = .done) := fun hr => by
        have hended := hfollows.ended hr
        rw [hphase] at hended
        cases hended
      have hle : (s.reader m).offset ≤ (s.writer k).output.length := by
        have hlen := hfollows.length
        rw [hfollows.bytes, List.length_take] at hlen
        omega
      show t.Follows (s.reader m) k
      refine ⟨?_, fun hr => absurd hr hnot, ?_, hfollows.length, fun hr => absurd (Or.inr hr) hnot⟩
      · rw [(hsame k).1, hfollows.users]
      · rw [hself, hfollows.bytes]
        exact (List.take_append_of_le_length hle).symm
    · exact hfollows.frame (hothers k hkn)

/-- The command ends. -/
theorem kept_exit (h : s.Kept) {n : ℕ} (hphase : (s.writer n).phase = .opened) :
    Kept (s.setWriter n { s.writer n with phase := .ended }) := by
  set t : Server := s.setWriter n { s.writer n with phase := .ended } with ht
  have hself : t.writer n = { s.writer n with phase := .ended } := by simp [ht, setWriter]
  have hothers : ∀ k, k ≠ n → t.writer k = s.writer k := fun k hk => by simp [ht, setWriter, hk]
  have hsame : ∀ k, (t.writer k).users = (s.writer k).users ∧ (t.writer k).output = (s.writer k).output ∧
      (t.writer k).offset = (s.writer k).offset ∧
      ((t.writer k).phase = .parsed ↔ (s.writer k).phase = .parsed) := by
    intro k
    by_cases hk : k = n
    · rw [hk, hself, hphase]
      exact ⟨rfl, rfl, rfl, by simp⟩
    · rw [hothers k hk]
      exact ⟨rfl, rfl, rfl, Iff.rfl⟩
  have hwanted : ∀ k, t.Wanted k → s.Wanted k := by
    intro k hw
    by_cases hk : k = n
    · exact Or.inl (hk ▸ hphase)
    · rw [Wanted, hothers k hk] at hw
      exact hw
  refine ⟨?_, ?_, ?_, ?_, h.fresh, ?_⟩
  · intro users k hrec
    rw [(hsame k).1]
    exact h.recorded users k hrec
  · intro k hk hp
    rw [(hsame k).2.1]
    exact h.unopened k hk ((hsame k).2.2.2.mp hp)
  · intro k hk k' hk' husers hp hp' hw hw'
    rw [(hsame k).1, (hsame k').1] at husers
    rw [Ne, (hsame k).2.2.2] at hp
    rw [Ne, (hsame k').2.2.2] at hp'
    exact h.alone k hk k' hk' husers hp hp' (hwanted k hw) (hwanted k' hw')
  · intro k hk hp hw
    rw [Ne, (hsame k).2.2.2] at hp
    rw [Filled, (hsame k).1, (hsame k).2.1, (hsame k).2.2.1]
    exact h.filled k hk hp (hwanted k hw)
  · intro m hm hp
    obtain ⟨k, hsource, hk, hfollows⟩ := h.follows m hm hp
    refine ⟨k, hsource, hk, ?_⟩
    show t.Follows (s.reader m) k
    refine ⟨?_, fun hr => ?_, ?_, hfollows.length, fun hr => ?_⟩
    · rw [(hsame k).1, hfollows.users]
    · have hended := hfollows.ended hr
      by_cases hkn : k = n
      · rw [hkn, hself]
      · rw [hothers k hkn, hended]
    · rw [(hsame k).2.1]
      exact hfollows.bytes
    · rw [(hsame k).2.1]
      exact hfollows.all hr

/-! ### The lines that read -/

/-- The writers stay as they are and nothing new is wanted. -/
theorem kept_readers (h : s.Kept) (hwriter : t.writer = s.writer) (hwriters : t.writers = s.writers)
    (hfile : t.file = s.file) (hrecord : ∀ users n, t.record users = some n → s.record users = some n)
    (hreader : ∀ n m, m < t.readers → (t.reader m).source = some n → (t.reader m).phase ≠ .done →
      s.Wanted n)
    (hfresh : ∀ m < t.readers, (t.reader m).phase = .checked → (t.reader m).offset = 0 ∧
      (t.reader m).bytes = [])
    (hfollows : ∀ m < t.readers, (t.reader m).phase ≠ .checked → ∃ n, (t.reader m).source = some n ∧
      n < s.writers ∧ s.Follows (t.reader m) n) : t.Kept := by
  have hwanted : ∀ n, t.Wanted n → s.Wanted n := by
    rintro n (hw | hw | ⟨m, hm, hsource, hdone⟩)
    · exact Or.inl (hwriter ▸ hw)
    · rw [hwriter] at hw
      exact Or.inr (Or.inl (hrecord _ n hw))
    · exact hreader n m hm hsource hdone
  refine ⟨?_, ?_, ?_, ?_, hfresh, ?_⟩
  · intro users n hrec
    rw [hwriter, hwriters]
    exact h.recorded users n (hrecord users n hrec)
  · rw [hwriter, hwriters]
    exact h.unopened
  · rw [hwriter, hwriters]
    intro n hn n' hn' husers hp hp' hw hw'
    exact h.alone n hn n' hn' husers hp hp' (hwanted n hw) (hwanted n' hw')
  · rw [hwriters]
    intro n hn hp hw
    rw [Filled, hwriter, hfile]
    rw [hwriter] at hp
    exact h.filled n hn hp (hwanted n hw)
  · intro m hm hp
    obtain ⟨n, hsource, hn, hf⟩ := hfollows m hm hp
    exact ⟨n, hsource, hwriters ▸ hn, hf.frame (by rw [hwriter])⟩

/-- One reader changes, and keeps its source as long as it is not done. -/
theorem kept_setReader (h : s.Kept) {m : ℕ} (hm : m < s.readers) {r : Reader}
    (hsource : r.source = (s.reader m).source) (hold : (s.reader m).phase ≠ .done)
    (hchecked : r.phase ≠ .checked)
    (hfollows : ∃ n, r.source = some n ∧ n < s.writers ∧ s.Follows r n) : Kept (s.setReader m r) := by
  have hself : (s.setReader m r).reader m = r := by simp [setReader]
  have hothers : ∀ k, k ≠ m → (s.setReader m r).reader k = s.reader k := fun k hk => by
    simp [setReader, hk]
  refine kept_readers h rfl rfl rfl (fun _ _ hrec => hrec) ?_ ?_ ?_
  · intro n k hk hn hdone
    by_cases hkm : k = m
    · rw [hkm, hself, hsource] at hn
      exact Or.inr (Or.inr ⟨m, hm, hn, hold⟩)
    · rw [hothers k hkm] at hn hdone
      exact Or.inr (Or.inr ⟨k, hk, hn, hdone⟩)
  · intro k hk hp
    by_cases hkm : k = m
    · rw [hkm, hself] at hp
      exact absurd hp hchecked
    · rw [hothers k hkm] at hp ⊢
      exact h.fresh k hk hp
  · intro k hk hp
    by_cases hkm : k = m
    · rw [hkm, hself]
      exact hfollows
    · rw [hothers k hkm] at hp ⊢
      exact h.follows k hk hp

theorem kept_checkRecord (h : s.Kept) (users : Pair) :
    Kept { s.setReader s.readers ⟨users, .checked, none, 0, []⟩ with readers := s.readers + 1 } := by
  set t : Server := { s.setReader s.readers ⟨users, .checked, none, 0, []⟩ with
    readers := s.readers + 1 } with ht
  have hself : t.reader s.readers = ⟨users, .checked, none, 0, []⟩ := by simp [ht, setReader]
  have hothers : ∀ m, m < s.readers → t.reader m = s.reader m := fun m hm => by
    simp [ht, setReader, hm.ne]
  have hcases : ∀ {m}, m < t.readers → m = s.readers ∨ m < s.readers := fun {m} hm => by
    have hle : m < s.readers + 1 := hm
    omega
  refine kept_readers h rfl rfl rfl (fun _ _ hrec => hrec) ?_ ?_ ?_
  · intro n m hm hsource hdone
    rcases hcases hm with rfl | hm
    · rw [hself] at hsource
      cases hsource
    · rw [hothers m hm] at hsource hdone
      exact Or.inr (Or.inr ⟨m, hm, hsource, hdone⟩)
  · intro m hm hp
    rcases hcases hm with rfl | hm
    · rw [hself]
      exact ⟨rfl, rfl⟩
    · rw [hothers m hm] at hp ⊢
      exact h.fresh m hm hp
  · intro m hm hp
    rcases hcases hm with rfl | hm
    · rw [hself] at hp
      exact absurd rfl hp
    · rw [hothers m hm] at hp ⊢
      exact h.follows m hm hp

/-- The entry that is cleared becomes the source of the line. -/
theorem kept_clearRecord (h : s.Kept) {m n : ℕ} (hm : m < s.readers) (hphase : (s.reader m).phase = .checked)
    (hrec : s.record (s.reader m).users = some n) :
    Kept { s.setReader m { s.reader m with phase := .cleared, source := some n } with
      record := Function.update s.record (s.reader m).users none } := by
  set t : Server := { s.setReader m { s.reader m with phase := .cleared, source := some n } with
    record := Function.update s.record (s.reader m).users none } with ht
  have hself : t.reader m = { s.reader m with phase := .cleared, source := some n } := by
    simp [ht, setReader]
  have hothers : ∀ k, k ≠ m → t.reader k = s.reader k := fun k hk => by simp [ht, setReader, hk]
  obtain ⟨hn, husers⟩ := h.recorded _ n hrec
  refine kept_readers h rfl rfl rfl ?_ ?_ ?_ ?_
  · intro users k hk
    by_cases hu : users = (s.reader m).users
    · simp [ht, hu] at hk
    · simpa [ht, hu] using hk
  · intro k j hj hsource hdone
    by_cases hjm : j = m
    · rw [hjm, hself] at hsource
      obtain rfl := Option.some.inj hsource
      exact Or.inr (Or.inl (husers ▸ hrec))
    · rw [hothers j hjm] at hsource hdone
      exact Or.inr (Or.inr ⟨j, hj, hsource, hdone⟩)
  · intro j hj hp
    by_cases hjm : j = m
    · rw [hjm, hself] at hp
      cases hp
    · rw [hothers j hjm] at hp ⊢
      exact h.fresh j hj hp
  · intro j hj hp
    by_cases hjm : j = m
    · obtain ⟨hoffset, hbytes⟩ := h.fresh m hm hphase
      rw [hjm, hself]
      refine ⟨n, rfl, hn, husers, ?_, ?_, ?_, ?_⟩
      · rintro (hr | hr) <;> cases hr
      · show (s.reader m).bytes = (s.writer n).output.take (s.reader m).offset
        rw [hbytes, hoffset, List.take_zero]
      · show (s.reader m).bytes.length = (s.reader m).offset
        rw [hbytes, hoffset]
        rfl
      · rintro hr
        cases hr
    · rw [hothers j hjm] at hp ⊢
      exact h.follows j hj hp

/-- A read continues the output of the command that has ended. -/
theorem kept_read (h : s.Kept) {m k : ℕ} (hm : m < s.readers) (hphase : (s.reader m).phase = .opened)
    (hk : 0 < k) (hs : s.step (.read m k) = some t) : t.Kept := by
  obtain ⟨n, hsource, hn, hfollows⟩ := h.follows m hm (by simp [hphase])
  have hended := hfollows.ended (Or.inl hphase)
  have hdone : (s.reader m).phase ≠ .done := by simp [hphase]
  obtain ⟨hfile, -⟩ := h.filled n hn (by simp [hended]) (Or.inr (Or.inr ⟨m, hm, hsource, hdone⟩))
  rw [hfollows.users] at hfile
  simp only [step, hm, hphase, hk, hfile, and_self, if_true] at hs
  split_ifs at hs with hnil
  · obtain rfl := Option.some.inj hs
    have hall : (s.reader m).bytes = (s.writer n).output := by
      rw [hfollows.bytes, take_of_readAt_nil hk hnil]
    exact kept_setReader h hm rfl hdone (by simp) ⟨n, hsource, hn, hfollows.users, fun _ => hended,
      hfollows.bytes, hfollows.length, fun _ => hall⟩
  · obtain rfl := Option.some.inj hs
    refine kept_setReader h hm rfl hdone (by simp) ⟨n, hsource, hn, hfollows.users, fun _ => hended,
      ?_, ?_, fun hr => ?_⟩
    · rw [hfollows.bytes]
      exact take_append_readAt _ _ k
    · simp only [List.length_append, hfollows.length]
    · cases hr

/-! ### Runs -/

/-- An action in turn keeps the invariant. -/
theorem kept_step (s : Server) (a : Action) (t : Server) (h : s.Kept) (ha : s.InTurn a)
    (hs : s.step a = some t) : t.Kept := by
  cases a with
  | setRecord users =>
    simp only [step, Option.ite_none_right_eq_some, Option.some.injEq] at hs
    obtain ⟨hnone, rfl⟩ := hs
    exact kept_setRecord h hnone
  | openOut n =>
    simp only [step, Option.ite_none_right_eq_some, Option.some.injEq] at hs
    obtain ⟨⟨hn, hphase⟩, rfl⟩ := hs
    exact kept_openOut h hn hphase ha
  | write n chunk =>
    simp only [step, Option.ite_none_right_eq_some, Option.some.injEq] at hs
    obtain ⟨⟨hn, hphase⟩, rfl⟩ := hs
    exact kept_write h hn hphase chunk
  | exit n =>
    simp only [step, Option.ite_none_right_eq_some, Option.some.injEq] at hs
    obtain ⟨⟨-, hphase⟩, rfl⟩ := hs
    exact kept_exit h hphase
  | checkRecord users =>
    simp only [step, Option.ite_none_right_eq_some, Option.some.injEq] at hs
    obtain ⟨-, rfl⟩ := hs
    exact kept_checkRecord h users
  | clearRecord m =>
    obtain ⟨n, hrec⟩ := Option.isSome_iff_exists.mp ha
    simp only [step, hrec, Option.ite_none_right_eq_some, Option.some.injEq] at hs
    obtain ⟨⟨hm, hphase⟩, rfl⟩ := hs
    exact kept_clearRecord h hm hphase hrec
  | openIn m =>
    simp only [step, Option.ite_none_right_eq_some, Option.some.injEq] at hs
    obtain ⟨⟨hm, hphase⟩, rfl⟩ := hs
    obtain ⟨n, hsource, hn, hfollows⟩ := h.follows m hm (by simp [hphase])
    refine kept_setReader h hm rfl (by simp [hphase]) (by simp) ⟨n, hsource, hn, hfollows.users,
      fun _ => ha n hsource, hfollows.bytes, hfollows.length, fun hr => ?_⟩
    cases hr
  | read m k =>
    have hen : m < s.readers ∧ (s.reader m).phase = .opened ∧ 0 < k := by
      by_contra hno
      simp [step, hno] at hs
    exact kept_read h hen.1 hen.2.1 hen.2.2 hs
  | leave u =>
    obtain rfl := Option.some.inj hs
    refine kept_readers h rfl rfl rfl ?_ ?_ h.fresh h.follows
    · intro users n hrec
      simp only at hrec
      split_ifs at hrec
      exact hrec
    · exact fun n m hm hsource hdone => Or.inr (Or.inr ⟨m, hm, hsource, hdone⟩)

/-- As long as the actions are in turn, every line that has read to the end has read exactly the output
    of the command whose entry it cleared. -/
theorem user_pipes_exact (file : Pair → List UInt8) (as : List Action)
    (h : Meets step InTurn (start file) as) : Always step Exact (start file) as :=
  always_of_meets kept_step (fun _ => Kept.exact) (kept_start file) h

/-- User 1 writes one byte for user 2, whose line reads it afterwards. -/
def inOrder : List Action :=
  [.setRecord (1, 2), .openOut 0, .write 0 [97], .exit 0, .checkRecord (1, 2), .clearRecord 0,
    .openIn 0, .read 0 8, .read 0 8]

/-- It has read the byte. -/
theorem user_pipes_exact_in_order : ∃ t, runWith step (start fun _ => []) inOrder = some t ∧
    (t.reader 0).bytes = [97] ∧ Always step Exact (start fun _ => []) inOrder := by
  refine ⟨_, rfl, rfl, user_pipes_exact _ inOrder ?_⟩
  decide +kernel

/-- The receiver's child opens and reads the file before the command of the sender has opened it. -/
theorem user_pipes_read_early : ∃ t, runWith step (start fun _ => []) [.setRecord (1, 2),
      .checkRecord (1, 2), .clearRecord 0, .openIn 0, .read 0 8, .openOut 0, .write 0 [97],
      .exit 0] = some t ∧
    (t.reader 0).phase = .done ∧ (t.reader 0).bytes = [] ∧ (t.writer 0).output = [97] ∧ ¬ t.Exact := by
  refine ⟨_, rfl, rfl, rfl, rfl, fun h => ?_⟩
  obtain ⟨n, hsource, -, -, hbytes⟩ := h 0 (by decide) rfl
  obtain rfl : 0 = n := Option.some.inj hsource
  cases hbytes

end Server

end UserPipes

end NetProg.Multi
