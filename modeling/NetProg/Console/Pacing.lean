import NetProg.Console.Model
import NetProg.Lib.Cover

/-! How many commands the console sends.

    The shell prompts with `% ` and then waits for a command. `do_read` sends one command for every
    read with a `%` anywhere in it, so what counts is how the stream is cut into reads. -/

namespace NetProg.Console

/-- The number of prompts in a stream. -/
def prompts : List Char → ℕ
  | [] => 0
  | '%' :: ' ' :: rest => prompts rest + 1
  | _ :: rest => prompts rest

/-- The command lines as they are sent, for the first `n` prompts. -/
def firstLines (file : List Char) (n : ℕ) : List (List Char) :=
  ((getLines file).take (min n (getLines file).length)).map (· ++ ['\n'])

/-- Whether two ways to cut a stream lead to the same commands, one for each prompt. -/
def Paced (id file stream : List Char) : Prop :=
  ∀ chunks chunks' : List (Chunk bufferSize), streamOf chunks = stream → streamOf chunks' = stream →
    ((NpShellRun.start id file).run chunks).sent = ((NpShellRun.start id file).run chunks').sent ∧
      ((NpShellRun.start id file).run chunks).sent = firstLines file (prompts stream)

/-! ### One read -/

theorem percent_mem_encode (data : List Char) : '%' ∈ encode data ↔ '%' ∈ data := by
  have hchar : ∀ c, '%' ∈ encodeChar c ↔ '%' = c := by
    intro c
    unfold encodeChar
    split <;> simp
  simp [encode, hchar]

/-- A read sends the next line when there is a `%` in it, and nothing otherwise. -/
theorem doRead_sent (s : NpShellRun) (data : List Char) :
    (s.doRead data).sent = s.sent ++
        (s.command.take (if '%' ∈ data then 1 else 0)).map (· ++ ['\n']) ∧
      (s.doRead data).command = s.command.drop (if '%' ∈ data then 1 else 0) := by
  unfold NpShellRun.doRead
  cases hcommand : s.command with
  | nil => simp [NpShellRun.writeToConsole, hcommand]
  | cons line rest =>
    by_cases hdata : '%' ∈ data
    · simp [NpShellRun.writeToConsole, hcommand, percent_mem_encode, hdata]
    · simp [NpShellRun.writeToConsole, hcommand, percent_mem_encode, hdata]

/-- The number of reads with a `%`. -/
def percents {size : ℕ} (chunks : List (Chunk size)) : ℕ :=
  marked (· == '%') (chunks.map (·.data))

theorem percents_cons {size : ℕ} (c : Chunk size) (chunks : List (Chunk size)) :
    percents (c :: chunks) = (if '%' ∈ c.data then 1 else 0) + percents chunks := by
  have hany : c.data.any (· == '%') = decide ('%' ∈ c.data) := by
    rw [List.any_beq', List.contains_eq_mem]
  rw [percents, List.map_cons, marked, List.countP_cons, hany, percents, marked, Nat.add_comm]
  simp

/-- A whole dialogue. -/
theorem run_sent {size : ℕ} : ∀ (chunks : List (Chunk size)) (s : NpShellRun),
    (s.run chunks).sent = s.sent ++ (s.command.take (percents chunks)).map (· ++ ['\n'])
  | [], s => by simp [NpShellRun.run, percents, marked]
  | c :: chunks, s => by
    obtain ⟨hsent, hcommand⟩ := doRead_sent s c.data
    have ih := run_sent chunks (s.doRead c.data)
    rw [hsent, hcommand] at ih
    rw [percents_cons, List.take_add, List.map_append, ← List.append_assoc]
    exact ih

/-! ### All ways to cut -/

theorem sent_eq_firstLines_iff {size : ℕ} (id file : List Char) (chunks : List (Chunk size)) (n : ℕ) :
    ((NpShellRun.start id file).run chunks).sent = firstLines file n ↔
      min (percents chunks) (getLines file).length = min n (getLines file).length := by
  have hinj : Function.Injective fun line : List Char => line ++ ['\n'] :=
    fun _ _ h => List.append_cancel_right h
  rw [run_sent, firstLines]
  show [] ++ ((getLines file).take _).map _ = _ ↔ _
  rw [List.nil_append, (List.map_injective_iff.mpr hinj).eq_iff, List.take_eq_take_iff, min_assoc,
    min_self]

/-- Any cut into parts of the right size can arrive. -/
theorem exists_chunks {size : ℕ} : ∀ {parts : List (List Char)},
    (∀ part ∈ parts, 1 ≤ part.length ∧ part.length ≤ size) →
    ∃ chunks : List (Chunk size), chunks.map (·.data) = parts
  | [], _ => ⟨[], rfl⟩
  | part :: parts, h => by
    obtain ⟨chunks, hchunks⟩ := exists_chunks fun q hq => h q (List.mem_cons_of_mem _ hq)
    obtain ⟨hpos, hfits⟩ := h part List.mem_cons_self
    exact ⟨⟨part, hpos, hfits⟩ :: chunks, by rw [List.map_cons, hchunks]⟩

/-- The commands are as the prompts ask for, however the stream is cut, exactly when neither the number
    of `%` nor the least number of reads they fit in makes a difference to the file. -/
theorem paced_iff (id file stream : List Char) : Paced id file stream ↔
    min (stream.count '%') (getLines file).length = min (prompts stream) (getLines file).length ∧
      min (cover (· == '%') bufferSize stream) (getLines file).length =
        min (prompts stream) (getLines file).length := by
  have hflat : ∀ chunks : List (Chunk bufferSize),
      streamOf chunks = (chunks.map (·.data)).flatten := fun _ => List.flatMap_def ..
  constructor
  · intro h
    have hall : ∀ parts : List (List Char), parts.flatten = stream →
        (∀ part ∈ parts, 1 ≤ part.length ∧ part.length ≤ bufferSize) →
        min (marked (· == '%') parts) (getLines file).length =
          min (prompts stream) (getLines file).length := by
      intro parts hstream hshort
      obtain ⟨chunks, hchunks⟩ := exists_chunks hshort
      have hcut : streamOf chunks = stream := by rw [hflat, hchunks, hstream]
      have := (sent_eq_firstLines_iff id file chunks _).mp (h chunks chunks hcut hcut).2
      rwa [percents, hchunks] at this
    constructor
    · have hone := hall (stream.map fun c => [c])
        (by rw [← List.flatMap_def, List.flatMap_singleton']) ?_
      · rwa [marked_singles] at hone
      · intro part hpart
        obtain ⟨c, -, rfl⟩ := List.mem_map.mp hpart
        exact ⟨le_rfl, by simp [bufferSize]⟩
    · obtain ⟨parts, hstream, hshort, hmark⟩ :=
        exists_parts (p := (· == '%')) (by decide : 1 ≤ bufferSize) _ stream le_rfl
      rw [← hmark]
      exact hall parts hstream hshort
  · rintro ⟨hmost, hleast⟩
    have hall : ∀ chunks : List (Chunk bufferSize), streamOf chunks = stream →
        ((NpShellRun.start id file).run chunks).sent = firstLines file (prompts stream) := by
      intro chunks hcut
      rw [sent_eq_firstLines_iff]
      rw [hflat] at hcut
      have hlow : cover (· == '%') bufferSize stream ≤ percents chunks := by
        rw [← hcut]
        refine cover_le_marked _ fun part hpart => ?_
        obtain ⟨c, -, rfl⟩ := List.mem_map.mp hpart
        exact c.fits
      have hhigh : percents chunks ≤ stream.count '%' := by
        rw [← hcut]
        exact marked_le_countP _
      omega
    exact fun chunks chunks' hcut hcut' =>
      ⟨(hall chunks hcut).trans (hall chunks' hcut').symm, hall chunks hcut⟩

/-- The output `5%` of a command makes the console send a line that no prompt has asked for. -/
theorem paced_percent : ¬ Paced ['s', '0'] ['l', 's', '\n'] ['5', '%'] := by
  rw [paced_iff]
  decide

end NetProg.Console
