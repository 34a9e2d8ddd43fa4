import NetProg.Shell.Combine
import NetProg.Lib.Naming

/-! The countdown in `num_pipe_vec` refines the absolute schedule, for whoever shares the process.

    A shell may be alone in its process, or one of several that take turns in a server. What differs is
    said by a `Setting`: what its descriptors 0, 1 and 2 stand for, and how its pipes are called among
    the pipes of everybody. With `L` the number of the line being read, an entry of `num_pipe_vec`
    whose `rest_line` is `m` is the pipe of line `L + m`. A countdown moves `L` on by one and leaves
    every pipe where it is; a suffix `N` finds or makes the entry of `L + N`; a fork drops the entry of
    `L` itself and leaves whatever belongs to others alone. -/

namespace NetProg.Shell

/-- What the standard descriptors of a shell stand for, and the names of its pipes. -/
structure Setting (α : Type*) where
  std : ℕ → Desc
  name : APipe → α
  std_ne : ∀ i id, std i ≠ .pipeR id ∧ std i ≠ .pipeW id
  name_inj : Function.Injective name

namespace Setting
variable {α : Type*} (S : Setting α)

/-- The descriptor object behind an end, when `ρ` tells which pipe of the kernel has which name. -/
def desc (ρ : α → ℕ) : AEnd → Desc
  | .own n => S.std n
  | .readEnd p => .pipeR (ρ (S.name p))
  | .writeEnd p => .pipeW (ρ (S.name p))
  | .file name => .file name

/-- The pipe of an end is named. -/
def In (U : Set α) : AEnd → Prop
  | .readEnd p => S.name p ∈ U
  | .writeEnd p => S.name p ∈ U
  | _ => True

/-- What line `L` leaves alone: everything but pipes, and the named pipes other than the one line `L`
    reads and the normal ones of the shell. -/
def Spares (L : ℕ) (U : Set α) (ρ : α → ℕ) (d : Desc) : Prop :=
  (∀ id, d ≠ .pipeR id ∧ d ≠ .pipeW id) ∨
    ∃ q ∈ U, q ≠ S.name (.num L) ∧ (∀ L' c, q ≠ S.name (.normal L' c)) ∧
      (d = .pipeR (ρ q) ∨ d = .pipeW (ρ q))

variable {S}

theorem desc_agree {U : Set α} {ρ ρ' : α → ℕ} (h : ∀ p ∈ U, ρ' p = ρ p) :
    ∀ {a : AEnd}, S.In U a → S.desc ρ' a = S.desc ρ a
  | .own _, _ => rfl
  | .file _, _ => rfl
  | .readEnd p, hp => by rw [desc, desc, h _ hp]
  | .writeEnd p, hp => by rw [desc, desc, h _ hp]

theorem In.mono {U U' : Set α} (h : U ⊆ U') : ∀ {a : AEnd}, S.In U a → S.In U' a
  | .own _, _ => trivial
  | .file _, _ => trivial
  | .readEnd _, hp => h hp
  | .writeEnd _, hp => h hp

theorem spares_std {L : ℕ} {U : Set α} {ρ : α → ℕ} (i : ℕ) : S.Spares L U ρ (S.std i) :=
  Or.inl fun id => S.std_ne i id

/-- The pipes of later lines are left alone. -/
theorem spares_num {L m : ℕ} {U : Set α} {ρ : α → ℕ} {d : Desc} (hm : 1 ≤ m)
    (hmem : S.name (.num (L + m)) ∈ U)
    (hd : d = .pipeR (ρ (S.name (.num (L + m)))) ∨ d = .pipeW (ρ (S.name (.num (L + m))))) :
    S.Spares L U ρ d := by
  refine Or.inr ⟨_, hmem, fun heq => ?_, fun L' c heq => ?_, hd⟩
  · have := S.name_inj heq
    simp only [APipe.num.injEq] at this
    omega
  · exact absurd (S.name_inj heq) (by simp)

theorem Spares.agree {L : ℕ} {U U' : Set α} {ρ ρ' : α → ℕ} {d : Desc} (hU : U ⊆ U')
    (h : ∀ p ∈ U, ρ' p = ρ p) : S.Spares L U ρ d → S.Spares L U' ρ' d
  | Or.inl hd => Or.inl hd
  | Or.inr ⟨q, hq, hnum, hnormal, hd⟩ => Or.inr ⟨q, hU hq, hnum, hnormal, by rwa [h q hq]⟩

end Setting

/-- While line `L` is processed: every entry of `num_pipe_vec` holds both ends of the pipe of the
    line it counts down to, and every pipe of a line from `L + low` on has an entry. -/
structure Counting {α : Type*} (S : Setting α) (L low : ℕ) (U : Set α) (ρ : α → ℕ) (v : Vars) :
    Prop where
  own : ∀ i < 3, v.kernel.get i = some (S.std i)
  named : Named U ρ v.kernel.pipes
  entry : ∀ e ∈ v.numPipeVec, ∃ m : ℕ, e.restLine = m ∧ low ≤ m ∧ S.name (.num (L + m)) ∈ U ∧
    v.kernel.get e.p0 = some (.pipeR (ρ (S.name (.num (L + m))))) ∧
    v.kernel.get e.p1 = some (.pipeW (ρ (S.name (.num (L + m)))))
  cover : ∀ m, low ≤ m → S.name (.num (L + m)) ∈ U → ∃ e ∈ v.numPipeVec, e.restLine = m
  noName : v.namePipeIn = none ∧ v.namePipeOut = none

namespace Counting
variable {α : Type*} {S : Setting α} {L low : ℕ} {U U' : Set α} {ρ ρ' : α → ℕ} {v : Vars}

/-- More pipes may be named as long as no number pipe of this shell is among them. -/
theorem rename (h : Counting S L low U ρ v) (hagree : ∀ p ∈ U, ρ' p = ρ p) (hU : U ⊆ U')
    (hnum : ∀ T, S.name (.num T) ∈ U' → S.name (.num T) ∈ U) (hn : Named U' ρ' v.kernel.pipes) :
    Counting S L low U' ρ' v where
  own := h.own
  named := hn
  entry := by
    intro e he
    obtain ⟨m, hm, hlow, hmem, h0, h1⟩ := h.entry e he
    exact ⟨m, hm, hlow, hU hmem, by rw [hagree _ hmem]; exact h0, by rw [hagree _ hmem]; exact h1⟩
  cover := fun m hlow hmem => h.cover m hlow (hnum _ hmem)
  noName := h.noName

/-- Only what the descriptors stand for matters, and the entries. -/
theorem congr {w : Vars} (h : Counting S L low U ρ v) (hvec : w.numPipeVec = v.numPipeVec)
    (hpipes : w.kernel.pipes = v.kernel.pipes)
    (hget : ∀ x d, v.kernel.get x = some d → w.kernel.get x = some d)
    (hname : w.namePipeIn = none ∧ w.namePipeOut = none) : Counting S L low U ρ w where
  own := fun i hi => hget i _ (h.own i hi)
  named := by rw [hpipes]; exact h.named
  entry := by
    intro e he
    obtain ⟨m, hm, hlow, hmem, h0, h1⟩ := h.entry e (hvec ▸ he)
    exact ⟨m, hm, hlow, hmem, hget _ _ h0, hget _ _ h1⟩
  cover := fun m hlow hmem => by rw [hvec]; exact h.cover m hlow hmem
  noName := hname

theorem deadOut_desc (h : Counting S L low U ρ v) {x : ℕ} (hx : x ∈ v.deadOut) :
    S.name (.num L) ∈ U ∧ v.kernel.get x = some (.pipeW (ρ (S.name (.num L)))) := by
  simp only [Vars.deadOut, List.mem_map, List.mem_filter] at hx
  obtain ⟨e, ⟨he, hdead⟩, rfl⟩ := hx
  obtain ⟨m, hm, -, hmem, -, h1⟩ := h.entry e he
  have hm0 : m = 0 := by
    simp only [PipeDead, beq_iff_eq] at hdead
    omega
  subst hm0
  exact ⟨hmem, h1⟩

theorem deadIn_desc (h : Counting S L low U ρ v) {x : ℕ} (hx : x ∈ v.deadIn) :
    S.name (.num L) ∈ U ∧ v.kernel.get x = some (.pipeR (ρ (S.name (.num L)))) := by
  simp only [Vars.deadIn, List.mem_map, List.mem_filter] at hx
  obtain ⟨e, ⟨he, hdead⟩, rfl⟩ := hx
  obtain ⟨m, hm, -, hmem, h0, -⟩ := h.entry e he
  have hm0 : m = 0 := by
    simp only [PipeDead, beq_iff_eq] at hdead
    omega
  subst hm0
  exact ⟨hmem, h0⟩

theorem beforeCloses_eq (h : Counting S L low U ρ v) : v.beforeCloses = v.deadOut := by
  simp [Vars.beforeCloses, h.noName.1]

theorem afterCloses_sub (h : Counting S L low U ρ v) {x : ℕ} (hx : x ∈ v.afterCloses) :
    x ∈ v.deadIn := by
  simp only [Vars.afterCloses, h.noName.1, Option.map_none, Option.toList_none,
    List.append_nil] at hx
  split_ifs at hx
  · exact hx
  · simp at hx

/-- The countdown moves on to the next line. -/
theorem countdown (h : Counting S L 1 U ρ v) : Counting S (L + 1) 0 U ρ v.countdown where
  own := h.own
  named := h.named
  entry := by
    intro e he
    simp only [Vars.countdown, List.mem_map] at he
    obtain ⟨e', he', rfl⟩ := he
    obtain ⟨m, hm, hlow, hmem, h0, h1⟩ := h.entry e' he'
    obtain ⟨m, rfl⟩ := Nat.exists_eq_add_of_le' hlow
    have harith : L + 1 + m = L + (m + 1) := by omega
    refine ⟨m, by simp [hm], Nat.zero_le _, ?_, ?_, ?_⟩ <;> rw [harith]
    · exact hmem
    · exact h0
    · exact h1
  cover := by
    intro m _ hmem
    have harith : L + 1 + m = L + (m + 1) := by omega
    rw [harith] at hmem
    obtain ⟨e, he, hrest⟩ := h.cover (m + 1) (by omega) hmem
    exact ⟨{ e with restLine := e.restLine - 1 }, List.mem_map_of_mem he, by simp [hrest]⟩
  noName := h.noName

theorem countdown_flag (h : Counting S L 1 U ρ v) (hflag : v.numPipeInFlag = false) :
    v.countdown.numPipeInFlag = true ↔ S.name (.num (L + 1)) ∈ U := by
  have hc := h.countdown
  have hany : v.countdown.numPipeInFlag = v.countdown.numPipeVec.any PipeDead := by
    simp [Vars.countdown, hflag]
  rw [hany, List.any_eq_true]
  constructor
  · rintro ⟨e, he, hdead⟩
    obtain ⟨m, hm, -, hmem, -, -⟩ := hc.entry e he
    have hm0 : m = 0 := by
      simp only [PipeDead, beq_iff_eq] at hdead
      omega
    subst hm0
    exact hmem
  · intro hmem
    obtain ⟨e, he, hrest⟩ := hc.cover 0 le_rfl hmem
    exact ⟨e, he, by simp [PipeDead, hrest]⟩

/-- A suffix `N` ends with `pipe_out_num` on the write end of the pipe of line `L + N`, and closes
    nothing. -/
theorem numberPipe [DecidableEq α] (h : Counting S L 0 U ρ v) (n : ℕ) :
    ∃ ρ', (∀ p ∈ U, ρ' p = ρ p) ∧
      Counting S L 0 (insert (S.name (.num (L + n))) U) ρ' (v.numberPipe n) ∧
      (v.numberPipe n).kernel.get (v.numberPipe n).pipeOutNum =
        some (.pipeW (ρ' (S.name (.num (L + n))))) ∧
      ∀ x d, v.kernel.get x = some d → (v.numberPipe n).kernel.get x = some d := by
  unfold Vars.numberPipe
  cases hf : v.numPipeVec.find? (fun t => (n : ℤ) == t.restLine) with
  | some e =>
    -- the pipe of that line is pending already
    have he := List.mem_of_find?_eq_some hf
    have hrest : (n : ℤ) = e.restLine := by simpa using List.find?_some hf
    obtain ⟨m, hm, -, hmem, -, h1⟩ := h.entry e he
    have hmn : m = n := by omega
    subst hmn
    have hU : insert (S.name (.num (L + m))) U = U := Set.insert_eq_of_mem hmem
    refine ⟨ρ, fun _ _ => rfl, ?_, h1, fun _ _ hx => hx⟩
    rw [hU]
    exact ⟨h.own, h.named, h.entry, h.cover, h.noName⟩
  | none =>
    have hnot : S.name (.num (L + n)) ∉ U := by
      intro hmem
      obtain ⟨e, he, hrest⟩ := h.cover n (Nat.zero_le _) hmem
      have := List.find?_eq_none.mp hf e he
      simp [hrest] at this
    have hagree := Named.update_agree (ρ := ρ) hnot v.kernel.pipes
    have hopen : ∀ x d, v.kernel.get x = some d → v.kernel.pipe.get x = some d := by
      intro x d hx
      rw [Kernel.get_pipe_of_open (by simp [hx]), hx]
    refine ⟨Function.update ρ (S.name (.num (L + n))) v.kernel.pipes, hagree, ?_, ?_, hopen⟩
    · refine ⟨fun i hi => hopen i _ (h.own i hi), h.named.insert hnot, ?_, ?_, h.noName⟩
      · intro e he
        rcases List.mem_append.mp he with he | he
        · obtain ⟨m, hm, hlow, hmem, h0, h1⟩ := h.entry e he
          refine ⟨m, hm, hlow, Or.inr hmem, ?_, ?_⟩ <;> rw [hagree _ hmem]
          · exact hopen _ _ h0
          · exact hopen _ _ h1
        · rw [List.mem_singleton] at he
          subst he
          exact ⟨n, rfl, Nat.zero_le _, Or.inl rfl, by simp [Kernel.get_pipe],
            by simp [Kernel.get_pipe, Kernel.pipeFd1_ne_pipeFd0]⟩
      · rintro m - (hmem | hmem)
        · have hmn : m = n := by simpa using S.name_inj hmem
          exact ⟨_, List.mem_append_right _ (List.mem_singleton_self _), by simp [hmn]⟩
        · obtain ⟨e, he, hrest⟩ := h.cover m (Nat.zero_le _) hmem
          exact ⟨e, List.mem_append_left _ he, hrest⟩
    · simp [Kernel.get_pipe, Kernel.pipeFd1_ne_pipeFd0]

/-- Creating the redirection file leaves every descriptor as it was. -/
theorem createFile (h : Counting S L low U ρ v) (opens : Opens) {name : Token}
    (hname : name.length ≤ v.redirectionFileName.length) :
    ∃ w, v.createFile opens name = some w ∧ Counting S L low U ρ w ∧
      (∀ x d, v.kernel.get x = some d → w.kernel.get x = some d) ∧
      w.numPipeInFlag = v.numPipeInFlag ∧ w.numPipeOutFlag = v.numPipeOutFlag ∧
      w.shockPipeOutFlag = v.shockPipeOutFlag ∧ w.writeFileFlag = true ∧ w.fdIn = v.fdIn ∧
      w.redirectionFileName = name ++ v.redirectionFileName.drop name.length := by
  unfold Vars.createFile strncpy
  rw [if_pos hname]
  set buf := name ++ v.redirectionFileName.drop name.length with hbuf
  cases hc : opens.creat with
  | false =>
    exact ⟨_, rfl, h.congr rfl rfl (fun _ _ hx => hx) h.noName, fun _ _ hx => hx, rfl, rfl, rfl, rfl,
      rfl, rfl⟩
  | true =>
    have hget : ∀ x d, v.kernel.get x = some d →
        ((v.kernel.alloc (.file (cString buf))).1.close (v.kernel.alloc (.file (cString buf))).2).get x
          = some d := by
      intro x d hx
      have hopen : v.kernel.get x ≠ none := by simp [hx]
      have hne : x ≠ (v.kernel.alloc (.file (cString buf))).2 := by
        rintro rfl
        exact hopen (Kernel.get_alloc_fd ..)
      rw [Kernel.get_close, if_neg hne, Kernel.get_alloc_of_open _ hopen, hx]
    exact ⟨_, rfl, h.congr rfl rfl hget h.noName, hget, rfl, rfl, rfl, rfl, rfl, rfl⟩

/-- Where `fd_in` may point when a fork closes it: to a normal pipe of this shell. -/
def FdInFree (S : Setting α) (U : Set α) (ρ : α → ℕ) (v : Vars) (pc : ℕ) (last : Bool) : Prop :=
  pc = 1 ∨ v.special last = false ∨
    ∃ L' c', S.name (.normal L' c') ∈ U ∧ v.kernel.get v.fdIn = some (.pipeR (ρ (S.name (.normal L' c'))))

/-- What line `L` spares outlives a fork. -/
theorem get_fork (h : Counting S L low U ρ v) (opens : Opens) {pc : ℕ} {last : Bool}
    (hfd : FdInFree S U ρ v pc last) {x : ℕ} {d : Desc} (hx : v.kernel.get x = some d)
    (hd : S.Spares L U ρ d) : (v.forkProcess opens pc last).1.kernel.get x = some d := by
  have hnot : S.name (.num L) ∈ U → d ≠ .pipeR (ρ (S.name (.num L))) ∧
      d ≠ .pipeW (ρ (S.name (.num L))) := by
    intro hL
    rcases hd with hd | ⟨q, hq, hnum, -, rfl | rfl⟩
    · exact hd _
    · refine ⟨fun heq => ?_, by simp⟩
      exact hnum (h.named.inj hq hL (Desc.pipeR.inj heq))
    · refine ⟨by simp, fun heq => ?_⟩
      exact hnum (h.named.inj hq hL (Desc.pipeW.inj heq))
  rw [Vars.forkProcess_frame (by simp [hx]), hx]
  · rw [h.beforeCloses_eq]
    intro hmem
    obtain ⟨hL, hget⟩ := h.deadOut_desc hmem
    exact (hnot hL).2 (Option.some.inj (hx.symm.trans hget))
  · intro hmem
    obtain ⟨hL, hget⟩ := h.deadIn_desc (h.afterCloses_sub hmem)
    exact (hnot hL).1 (Option.some.inj (hx.symm.trans hget))
  · intro heq
    rcases hfd with hpc | hsp | ⟨L', c', hmem, hget⟩
    · exact Or.inl hpc
    · exact Or.inr hsp
    · exfalso
      rw [← heq, hx, Option.some.injEq] at hget
      rcases hd with hd | ⟨q, hq, -, hnormal, rfl | rfl⟩
      · exact (hd _).1 hget
      · exact hnormal _ _ (h.named.inj hq hmem (Desc.pipeR.inj hget))
      · simp at hget

/-- A fork drops the pipe of the current line and keeps those of the later lines. -/
theorem fork (h : Counting S L low U ρ v) (opens : Opens) {pc : ℕ} {last : Bool} (hlow : low ≤ 1)
    (hflag : S.name (.num L) ∈ U → low = 0 → v.numPipeInFlag = true)
    (hfd : FdInFree S U ρ v pc last) : Counting S L 1 U ρ (v.forkProcess opens pc last).1 := by
  obtain ⟨hk, hvec, -, hname, -, -, -, -, -, -, hout⟩ := Vars.forkProcess_fst v opens pc last
  have hkept : ∀ e ∈ v.keptPipes, e ∈ v.numPipeVec ∧ e.restLine ≠ 0 := by
    intro e he
    unfold Vars.keptPipes at he
    split_ifs at he with hf
    · simp only [List.mem_filter, PipeDead, Bool.not_eq_eq_eq_not, Bool.not_true,
        beq_eq_false_iff_ne] at he
      exact he
    · refine ⟨he, fun h0 => ?_⟩
      obtain ⟨m, hm, hlow, hmem, -⟩ := h.entry e he
      have hm0 : m = 0 := by omega
      subst hm0
      exact hf (hflag hmem (by omega))
  refine ⟨?_, ?_, ?_, ?_, ?_⟩
  · intro i hi
    exact h.get_fork opens hfd (h.own i hi) (S.spares_std i)
  · rw [hk, Kernel.pipes_closeAll]
    split_ifs
    · exact h.named.mono (Nat.le_succ _)
    · exact h.named
  · intro e he
    obtain ⟨he, hne⟩ := hkept e (hvec ▸ he)
    obtain ⟨m, hm, -, hmem, h0, h1⟩ := h.entry e he
    have hm1 : 1 ≤ m := by omega
    exact ⟨m, hm, hm1, hmem,
      h.get_fork opens hfd h0 (Setting.spares_num hm1 hmem (Or.inl rfl)),
      h.get_fork opens hfd h1 (Setting.spares_num hm1 hmem (Or.inr rfl))⟩
  · intro m hm hmem
    obtain ⟨e, he, hrest⟩ := h.cover m (hlow.trans hm) hmem
    refine ⟨e, ?_, hrest⟩
    rw [hvec]
    unfold Vars.keptPipes
    split_ifs
    · have hne : e.restLine ≠ 0 := by omega
      simp [PipeDead, he, hne]
    · exact he
  · exact ⟨hname, hout h.noName.2⟩

end Counting

end NetProg.Shell
