import NetProg.Multi.Mailbox
import NetProg.Multi.Notices

/-! What a user reads of the texts of others, in both servers.

    `sprintf` copies the line into `command` with the line as its format. `np_single_proc` writes a text that is
    composed with it to the sockets; `np_multi_proc` puts it into the mailboxes with another `sprintf`, whose
    format is the text. -/

open NetProg.Server (Text)

namespace NetProg.Notices

/-- The two servers. -/
inductive Program where
  | single
  | multi
  deriving DecidableEq

/-- What each valid user reads of a text when this line is executed. -/
def Program.receives (p : Program) (C : Conversions) (t : Text) (line : List Char) : Option (List Char) :=
  (C.sprintf line).bind fun command =>
    match p with
    | .single => some (t.compose command)
    | .multi => C.sprintf (t.compose command)

variable {C : Conversions} {t : Text} {line command : List Char}

theorem compose_congr (h : t.quotes = false) (a b : List Char) : t.compose a = t.compose b := by
  cases t with
  | received | piped => cases h
  | told | yelled | named | left =>
    unfold Text.compose
    rfl

/-- A notice has the `%`s of its command, and others that do not depend on it. -/
theorem count_compose (h : t.quotes = true) (a : List Char) :
    (t.compose a).count '%' = (t.compose []).count '%' + a.count '%' := by
  cases t with
  | received | piped =>
    unfold Text.compose
    simp only [List.count_append, List.count_nil]
    omega
  | told | yelled | named | left => cases h

theorem count_compose_le (h : command.count '%' ≤ line.count '%') :
    (t.compose command).count '%' ≤ (t.compose line).count '%' := by
  cases hquotes : t.quotes with
  | false => rw [compose_congr hquotes command line]
  | true =>
    rw [count_compose hquotes command, count_compose hquotes line]
    omega

theorem single_iff : Program.single.receives C t line = some (t.compose line) ↔
    (C.sprintf line).isSome = true ∧ (t.quotes = true → '%' ∉ line) := by
  rw [Program.receives]
  cases hcommand : C.sprintf line with
  | none => exact iff_of_false nofun fun h => Bool.false_ne_true h.1
  | some command =>
    rw [Option.bind_some, Option.some_inj, Option.isSome_some]
    cases hquotes : t.quotes with
    | false => exact iff_of_true (compose_congr hquotes command line) ⟨rfl, nofun⟩
    | true =>
      constructor
      · intro h
        have hcount := congrArg (List.count '%') h
        rw [count_compose hquotes command, count_compose hquotes line] at hcount
        refine ⟨rfl, fun _ hmem => ?_⟩
        have hlt := Conversions.count_sprintf_lt hcommand hmem
        omega
      · rintro ⟨-, h⟩
        rw [Conversions.sprintf_plain (h rfl), Option.some_inj] at hcommand
        rw [hcommand]

theorem multi_iff : Program.multi.receives C t line = some (t.compose line) ↔
    (C.sprintf line).isSome = true ∧ '%' ∉ t.compose line := by
  rw [Program.receives]
  cases hcommand : C.sprintf line with
  | none => exact iff_of_false nofun fun h => Bool.false_ne_true h.1
  | some command =>
    rw [Option.bind_some, Option.isSome_some]
    have hle := count_compose_le (t := t) (Conversions.count_sprintf_le hcommand)
    constructor
    · intro h
      refine ⟨rfl, fun hmem => ?_⟩
      -- a `%` of the composed text would be lost on the way to the mailbox
      have hmailbox := Conversions.count_sprintf_le h
      have hpos := List.count_pos_iff.mpr hmem
      have hlt := Conversions.count_sprintf_lt h (List.count_pos_iff.mp (by omega))
      omega
    · rintro ⟨-, hplain⟩
      have hsame : t.compose command = t.compose line := by
        cases hquotes : t.quotes with
        | false => exact compose_congr hquotes command line
        | true =>
          have hcount := count_compose hquotes line
          rw [List.count_eq_zero.mpr hplain] at hcount
          have hline : '%' ∉ line := List.count_eq_zero.mp (by omega)
          rw [Conversions.sprintf_plain hline, Option.some_inj] at hcommand
          rw [hcommand]
      rw [hsame]
      exact Conversions.sprintf_plain hplain

/-- The condition under which a text arrives as it was composed, with the line as it was typed. -/
def Arrives (C : Conversions) (p : Program) (t : Text) (line : List Char) : Prop :=
  (C.sprintf line).isSome = true ∧
    match p with
    | .single => t.quotes = true → '%' ∉ line
    | .multi => '%' ∉ t.compose line

/-- Each text that a line makes a server send is composed with what the line's copy is; a valid user reads it as
composed with the line itself if and only if no `sprintf` on the way meets a `%`. -/
theorem notices_verbatim_iff (C : Conversions) :
    (∀ p t line, Program.receives p C t line = some (t.compose line) ↔ Arrives C p t line) ∧
    (∀ (s : NetProg.Server) u (inp : Server.LineInput) a b, Option.Rel (Server.Return.Twin a b)
      (s.npshell u (inp.withCommand a)) (s.npshell u (inp.withCommand b))) ∧
    ∀ (s : Multi.Npshell) u (inp : Multi.LineInput) a b, Multi.Outcome.Twin a b
      (s.line u (inp.withCommand a)) (s.line u (inp.withCommand b)) := by
  refine ⟨fun p t line => ?_, fun s u inp a b => Server.npshell_twin s u inp a b,
    fun s u inp a b => Multi.line_twin s u inp a b⟩
  cases p with
  | single => exact single_iff
  | multi => exact multi_iff

/-- User 1 types `ls %% >2`. -/
theorem doubled_percent_lost : ¬ ∀ (C : Conversions) p t line,
    Program.receives p C t line = some (t.compose line) := by
  intro h
  have hline := single_iff.mp
    (h .none .single (.piped ['a'] 1 ['b'] 2) ['l', 's', ' ', '%', '%', ' ', '>', '2'])
  exact hline.2 rfl (by decide)

end NetProg.Notices
