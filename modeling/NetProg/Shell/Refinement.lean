import NetProg.Shell.Line

/-! The project-1 shell alone in its process.

    Its descriptors 0, 1 and 2 are the ones it inherited, and a pipe needs no other name than its
    purpose: the invariants of the countdown and of the commands of a line, in these terms. -/

namespace NetProg.Shell

/-- The shell that shares its process with nobody. -/
def Setting.alone : Setting APipe where
  std := Desc.own
  name := id
  std_ne := by simp
  name_inj := Function.injective_id

theorem Setting.alone_desc (ρ : APipe → ℕ) (a : AEnd) : Setting.alone.desc ρ a = a.desc ρ := by
  cases a <;> rfl

/-- While line `L` is processed: every entry of `num_pipe_vec` holds both ends of the pipe of the
    line it counts down to, and every pipe of a line from `L + low` on has an entry. -/
structure Pending (L low : ℕ) (U : Set APipe) (ρ : APipe → ℕ) (v : Vars) : Prop where
  own : ∀ i < 3, v.kernel.get i = some (.own i)
  named : Named U ρ v.kernel.pipes
  entry : ∀ e ∈ v.numPipeVec, ∃ m : ℕ, e.restLine = m ∧ low ≤ m ∧ .num (L + m) ∈ U ∧
    v.kernel.get e.p0 = some (.pipeR (ρ (.num (L + m)))) ∧
    v.kernel.get e.p1 = some (.pipeW (ρ (.num (L + m))))
  cover : ∀ m, low ≤ m → .num (L + m) ∈ U → ∃ e ∈ v.numPipeVec, e.restLine = m
  noName : v.namePipeIn = none ∧ v.namePipeOut = none

namespace Pending
variable {L low : ℕ} {U : Set APipe} {ρ : APipe → ℕ} {v : Vars}

theorem iff_counting : Pending L low U ρ v ↔ Counting .alone L low U ρ v :=
  ⟨fun h => ⟨h.own, h.named, h.entry, h.cover, h.noName⟩,
    fun h => ⟨h.own, h.named, h.entry, h.cover, h.noName⟩⟩

/-- The countdown moves on to the next line. -/
theorem countdown (h : Pending L 1 U ρ v) : Pending (L + 1) 0 U ρ v.countdown :=
  iff_counting.mpr (iff_counting.mp h).countdown

theorem countdown_flag (h : Pending L 1 U ρ v) (hflag : v.numPipeInFlag = false) :
    v.countdown.numPipeInFlag = true ↔ .num (L + 1) ∈ U :=
  (iff_counting.mp h).countdown_flag hflag

end Pending

/-! ### The commands of one line -/

/-- The pipe of an end is named. -/
def AEnd.In (U : Set APipe) : AEnd → Prop
  | .readEnd p => p ∈ U
  | .writeEnd p => p ∈ U
  | _ => True

theorem AEnd.in_iff {U : Set APipe} (a : AEnd) : Setting.alone.In U a ↔ a.In U := by
  cases a <;> rfl

theorem AEnd.desc_agree {U : Set APipe} {ρ ρ' : APipe → ℕ} (h : ∀ p ∈ U, ρ' p = ρ p) {a : AEnd}
    (ha : a.In U) : a.desc ρ' = a.desc ρ := by
  have := Setting.desc_agree h ((AEnd.in_iff a).mpr ha)
  rwa [Setting.alone_desc, Setting.alone_desc] at this

/-- The variables just before command `c` of line `L` is forked: what its input will be. -/
structure Turn (L c : ℕ) (U : Set APipe) (ρ : APipe → ℕ) (v : Vars) : Prop where
  pending : Pending L (min c 1) U ρ v
  first : c = 0 → v.fdIn = 0 ∧ (v.numPipeInFlag = true ↔ .num L ∈ U)
  later : ∀ c', c = c' + 1 → v.numPipeInFlag = false ∧ .normal L c' ∈ U ∧
    v.kernel.get v.fdIn = some (.pipeR (ρ (.normal L c')))
  free : ∀ L' c', .normal L' c' ∈ U → L' < L ∨ L' = L ∧ c' < c

/-- The flags a suffix has set, and where `pipe_out_num` points. -/
def Output (L : ℕ) (U : Set APipe) (ρ : APipe → ℕ) (inp : LineInput) (v : Vars) : Suffix → Prop
  | .none => v.writeFileFlag = false ∧ v.numPipeOutFlag = false ∧ v.pipeOutNum = 1
  | .pipe ds => v.writeFileFlag = false ∧ v.numPipeOutFlag = true ∧ 1 ≤ digitsVal 0 ds ∧
      .num (L + digitsVal 0 ds) ∈ U ∧
      v.kernel.get v.pipeOutNum = some (.pipeW (ρ (.num (L + digitsVal 0 ds))))
  | .shock ds => v.writeFileFlag = false ∧ v.shockPipeOutFlag = true ∧ 1 ≤ digitsVal 0 ds ∧
      .num (L + digitsVal 0 ds) ∈ U ∧
      v.kernel.get v.pipeOutNum = some (.pipeW (ρ (.num (L + digitsVal 0 ds))))
  | .file name => v.writeFileFlag = true ∧ v.numPipeOutFlag = false ∧
      v.redirectionFileName = name ++ inp.junk.drop name.length

theorem Turn.turning {L c : ℕ} {U : Set APipe} {ρ : APipe → ℕ} {v : Vars} (h : Turn L c U ρ v) :
    Turning .alone L c U ρ v :=
  ⟨Pending.iff_counting.mp h.pending, h.first, h.later, h.free⟩

theorem output_iff {L : ℕ} {U : Set APipe} {ρ : APipe → ℕ} {inp : LineInput} {v : Vars} {suf : Suffix} :
    Output L U ρ inp v suf ↔ Aimed .alone L U ρ inp v suf := by
  cases suf <;> rfl

end NetProg.Shell
