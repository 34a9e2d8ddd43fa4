import NetProg.ForkSpec

/-! Who holds which pipe. An owner is whatever keeps the numbers of the two ends of a pipe; the rules
    say which changes of the descriptor table leave every owner with its own pipe. -/

namespace NetProg

/-- Every owner's pair is the two ends of an open pipe, and no two owners share a pipe. -/
structure Wired {α : Type*} (k : Kernel) (held : α → ℕ × ℕ → Prop) : Prop where
  ends : ∀ a p, held a p →
    ∃ id < k.pipes, k.get p.1 = some (.pipeR id) ∧ k.get p.2 = some (.pipeW id)
  inj : ∀ a b p q, held a p → held b q → k.get p.1 = k.get q.1 → a = b

namespace Wired

variable {α β : Type*} {k k' : Kernel} {held : α → ℕ × ℕ → Prop} {held' : β → ℕ × ℕ → Prop}

theorem open_fst {a : α} {p : ℕ × ℕ} (h : Wired k held) (ha : held a p) : k.get p.1 ≠ none := by
  obtain ⟨id, -, h1, -⟩ := h.ends a p ha
  simp [h1]

theorem open_snd {a : α} {p : ℕ × ℕ} (h : Wired k held) (ha : held a p) : k.get p.2 ≠ none := by
  obtain ⟨id, -, -, h2⟩ := h.ends a p ha
  simp [h2]

/-- Two owners have no descriptor in common. -/
theorem apart {a b : α} {p q : ℕ × ℕ} (h : Wired k held) (ha : held a p) (hb : held b q)
    (hne : a ≠ b) : p.1 ≠ q.1 ∧ p.1 ≠ q.2 ∧ p.2 ≠ q.1 ∧ p.2 ≠ q.2 := by
  obtain ⟨i, -, hp1, hp2⟩ := h.ends a p ha
  obtain ⟨j, -, hq1, hq2⟩ := h.ends b q hb
  refine ⟨fun heq => hne (h.inj a b p q ha hb (by rw [heq])), fun heq => ?_, fun heq => ?_,
    fun heq => ?_⟩
  · rw [heq, hq2] at hp1
    cases hp1
  · rw [heq, hq1] at hp2
    cases hp2
  · rw [heq, hq2] at hp2
    cases hp2
    exact hne (h.inj a b p q ha hb (hp1.trans hq1.symm))

/-- The owners may be renamed, and some of them forgotten. -/
theorem comap (h : Wired k held) (f : β → α) (hf : ∀ b p, held' b p → held (f b) p)
    (hinj : ∀ b c p q, held' b p → held' c q → f b = f c → b = c) : Wired k held' where
  ends := fun b p hb => h.ends (f b) p (hf b p hb)
  inj := fun b c p q hb hc heq =>
    hinj b c p q hb hc (h.inj (f b) (f c) p q (hf b p hb) (hf c q hc) heq)

theorem mono {held' : α → ℕ × ℕ → Prop} (h : Wired k held) (hsub : ∀ a p, held' a p → held a p) :
    Wired k held' := h.comap id hsub fun _ _ _ _ _ _ heq => heq

/-- Nothing happens to the descriptors that are held. -/
theorem frame (h : Wired k held) (hpipes : k.pipes ≤ k'.pipes)
    (hfst : ∀ a p, held a p → k'.get p.1 = k.get p.1)
    (hsnd : ∀ a p, held a p → k'.get p.2 = k.get p.2) : Wired k' held where
  ends := by
    intro a p ha
    obtain ⟨id, hid, h1, h2⟩ := h.ends a p ha
    exact ⟨id, hid.trans_le hpipes, (hfst a p ha).trans h1, (hsnd a p ha).trans h2⟩
  inj := by
    intro a b p q ha hb heq
    rw [hfst a p ha, hfst b q hb] at heq
    exact h.inj a b p q ha hb heq

/-- A new pipe gets an owner of its own. -/
theorem pipe {held' : α → ℕ × ℕ → Prop} (h : Wired k held) (a₀ : α)
    (hsub : ∀ a p, held' a p → held a p ∧ a ≠ a₀ ∨ a = a₀ ∧ p = (k.pipeFd0, k.pipeFd1)) :
    Wired k.pipe held' := by
  have hnew0 : k.pipe.get k.pipeFd0 = some (.pipeR k.pipes) := by simp [Kernel.get_pipe]
  have hnew1 : k.pipe.get k.pipeFd1 = some (.pipeW k.pipes) := by
    simp [Kernel.get_pipe, k.pipeFd1_ne_pipeFd0]
  have hold : ∀ {a p}, held a p → ∃ id < k.pipes,
      k.pipe.get p.1 = some (.pipeR id) ∧ k.pipe.get p.2 = some (.pipeW id) := by
    intro a p ha
    obtain ⟨id, hid, h1, h2⟩ := h.ends a p ha
    exact ⟨id, hid, (Kernel.get_pipe_of_open (h.open_fst ha)).trans h1,
      (Kernel.get_pipe_of_open (h.open_snd ha)).trans h2⟩
  refine ⟨fun a p ha => ?_, fun a b p q ha hb heq => ?_⟩
  · rcases hsub a p ha with ⟨ha, -⟩ | ⟨-, rfl⟩
    · obtain ⟨id, hid, h12⟩ := hold ha
      exact ⟨id, hid.trans (Nat.lt_succ_self _), h12⟩
    · exact ⟨k.pipes, Nat.lt_succ_self _, hnew0, hnew1⟩
  · rcases hsub a p ha with ⟨ha, -⟩ | ⟨rfl, rfl⟩ <;> rcases hsub b q hb with ⟨hb, -⟩ | ⟨rfl, rfl⟩
    · rw [Kernel.get_pipe_of_open (h.open_fst ha), Kernel.get_pipe_of_open (h.open_fst hb)] at heq
      exact h.inj a b p q ha hb heq
    · obtain ⟨id, hid, h1, -⟩ := hold ha
      rw [h1, hnew0] at heq
      cases heq
      exact absurd hid (lt_irrefl _)
    · obtain ⟨id, hid, h1, -⟩ := hold hb
      rw [h1, hnew0] at heq
      cases heq
      exact absurd hid (lt_irrefl _)
    · rfl

end Wired

/-! ### Descriptors that a fork does not touch -/

namespace Vars

/-- The descriptors the process loop may still close. -/
def closable (v : Vars) : List ℕ :=
  v.fdIn :: (v.deadOut ++ v.deadIn ++ (v.namePipeIn.map (·.2)).toList ++
    (v.namePipeIn.map (·.1)).toList)

/-- A descriptor that is open and that the process loop will not close. -/
def Spared (v : Vars) (x : ℕ) : Prop := v.kernel.get x ≠ none ∧ x ∉ v.closable

theorem Spared.not_beforeCloses {v : Vars} {x : ℕ} (h : v.Spared x) : x ∉ v.beforeCloses := by
  intro hx
  refine h.2 (List.mem_cons_of_mem _ ?_)
  rcases List.mem_append.mp hx with hx | hx <;> simp [hx]

theorem Spared.not_afterCloses {v : Vars} {x : ℕ} (h : v.Spared x) : x ∉ v.afterCloses := by
  intro hx
  refine h.2 (List.mem_cons_of_mem _ ?_)
  rcases List.mem_append.mp hx with hx | hx
  · split_ifs at hx
    · simp [hx]
    · simp at hx
  · simp [hx]

theorem Spared.ne_fdIn {v : Vars} {x : ℕ} (h : v.Spared x) : x ≠ v.fdIn := by
  rintro rfl
  exact h.2 (List.mem_cons_self ..)

theorem keptPipes_subset (v : Vars) : v.keptPipes ⊆ v.numPipeVec := by
  unfold keptPipes
  split_ifs
  · exact List.filter_subset_self _
  · exact List.Subset.refl _

theorem Spared.get_fork {v : Vars} {x : ℕ} (h : v.Spared x) (opens : Opens) (pc : ℕ) (last : Bool) :
    (v.forkProcess opens pc last).1.kernel.get x = v.kernel.get x :=
  forkProcess_frame h.1 h.not_beforeCloses h.not_afterCloses fun hx => absurd hx h.ne_fdIn

theorem Spared.fork {v : Vars} {x : ℕ} (h : v.Spared x) (opens : Opens) (pc : ℕ) (last : Bool) :
    (v.forkProcess opens pc last).1.Spared x := by
  obtain ⟨-, hvec, -, hname, hfd, -⟩ := forkProcess_fst v opens pc last
  refine ⟨(h.get_fork opens pc last) ▸ h.1, fun hx => ?_⟩
  have hne : x ≠ (v.forkProcess opens pc last).1.fdIn := by
    rw [hfd]
    split_ifs
    · exact Kernel.ne_pipeFd0 h.1
    · exact h.ne_fdIn
  simp only [closable, hname, deadOut, deadIn, hvec, List.mem_cons, List.mem_append, List.mem_map,
    List.mem_filter, Option.map_none, Option.toList_none, List.not_mem_nil, or_false, hne,
    false_or] at hx
  refine h.2 (List.mem_cons_of_mem _ ?_)
  simp only [deadOut, deadIn, List.mem_append, List.mem_map, List.mem_filter]
  rcases hx with ⟨e, ⟨he, hd⟩, rfl⟩ | ⟨e, ⟨he, hd⟩, rfl⟩
  · exact Or.inl (Or.inl (Or.inl ⟨e, ⟨v.keptPipes_subset he, hd⟩, rfl⟩))
  · exact Or.inl (Or.inl (Or.inr ⟨e, ⟨v.keptPipes_subset he, hd⟩, rfl⟩))

/-- A descriptor that the fork of a command before the last leaves alone. Unlike a spared one it may be
    `fd_in`, which only the last command closes. -/
def Aside (v : Vars) (x : ℕ) : Prop :=
  v.kernel.get x ≠ none ∧ x ∉ v.deadOut ∧ x ∉ v.deadIn ∧ ∀ np ∈ v.namePipeIn, x ≠ np.1 ∧ x ≠ np.2

theorem aside_of_not_mem {v : Vars} {x : ℕ} (hopen : v.kernel.get x ≠ none) (hx : x ∉ v.closable.tail) :
    v.Aside x := by
  simp only [closable, List.tail_cons, List.mem_append, Option.mem_toList, Option.map_eq_some_iff,
    not_or] at hx
  obtain ⟨⟨⟨hout, hin⟩, h2⟩, h1⟩ := hx
  exact ⟨hopen, hout, hin, fun np hnp =>
    ⟨fun heq => h1 ⟨np, hnp, heq.symm⟩, fun heq => h2 ⟨np, hnp, heq.symm⟩⟩⟩

theorem Aside.not_beforeCloses {v : Vars} {x : ℕ} (h : v.Aside x) : x ∉ v.beforeCloses := by
  obtain ⟨-, hout, -, hname⟩ := h
  intro hx
  rcases List.mem_append.mp hx with hx | hx
  · exact hout hx
  · obtain ⟨np, hnp, rfl⟩ := Option.map_eq_some_iff.mp (Option.mem_toList.mp hx)
    exact (hname np hnp).2 rfl

theorem Aside.get_fork {v : Vars} {x : ℕ} (h : v.Aside x) (opens : Opens) (pc : ℕ) :
    (v.forkProcess opens pc false).1.kernel.get x = v.kernel.get x := by
  refine forkProcess_frame h.1 h.not_beforeCloses ?_ fun _ => Or.inr rfl
  obtain ⟨-, -, hin, hname⟩ := h
  intro hx
  rcases List.mem_append.mp hx with hx | hx
  · split_ifs at hx
    · exact hin hx
    · cases hx
  · obtain ⟨np, hnp, rfl⟩ := Option.map_eq_some_iff.mp (Option.mem_toList.mp hx)
    exact (hname np hnp).1 rfl

theorem Aside.fork {v : Vars} {x : ℕ} (h : v.Aside x) (opens : Opens) (pc : ℕ) :
    (v.forkProcess opens pc false).1.Aside x := by
  obtain ⟨-, hvec, -, hname, -⟩ := forkProcess_fst v opens pc false
  have hsub : ∀ e, e ∈ (v.forkProcess opens pc false).1.numPipeVec → e ∈ v.numPipeVec :=
    fun e he => v.keptPipes_subset (hvec ▸ he)
  refine ⟨(h.get_fork opens pc) ▸ h.1, fun hx => h.2.1 ?_, fun hx => h.2.2.1 ?_, ?_⟩
  · obtain ⟨e, he, rfl⟩ := List.mem_map.mp hx
    obtain ⟨he, hdead⟩ := List.mem_filter.mp he
    exact List.mem_map_of_mem (List.mem_filter.mpr ⟨hsub e he, hdead⟩)
  · obtain ⟨e, he, rfl⟩ := List.mem_map.mp hx
    obtain ⟨he, hdead⟩ := List.mem_filter.mp he
    exact List.mem_map_of_mem (List.mem_filter.mpr ⟨hsub e he, hdead⟩)
  · rw [hname]
    rintro np ⟨⟩

/-- What is open after a fork was open before it, and is not one of the ends that were given up; or it
    is the read end of the new normal pipe, in front of the last command. -/
theorem open_after_fork {v : Vars} {opens : Opens} {pc x : ℕ} {last : Bool}
    (hx : (v.forkProcess opens pc last).1.kernel.get x ≠ none) :
    (x ∉ v.beforeCloses ∧ x ∉ v.afterCloses ∧ v.kernel.get x ≠ none ∧
        (v.special last = true → pc ≠ 1 → x ≠ v.fdIn)) ∨
      (pc ≠ 1 ∧ last = false ∧ x = (v.forkProcess opens pc last).1.fdIn) := by
  obtain ⟨hker, -, -, -, hfd, -⟩ := forkProcess_fst v opens pc last
  rw [hker, Kernel.get_closeAll] at hx
  rw [hfd]
  split_ifs at hx with hmem hmakes
  · exact absurd rfl hx
  · obtain ⟨hsp, hpc⟩ : v.special last = false ∧ pc ≠ 1 := by simpa [makesPipe] using hmakes
    simp only [List.mem_append, pipeCloses, if_neg hpc, hsp, Bool.false_eq_true, if_false, not_or] at hmem
    obtain ⟨⟨hbefore, hpipe⟩, hafter⟩ := hmem
    rw [Kernel.get_pipe] at hx
    split_ifs at hx with h0 h1
    · -- the read end: the last command closes it
      right
      cases last with
      | false => exact ⟨hpc, rfl, by rw [if_pos hmakes, h0]⟩
      | true => simp [h0] at hpipe
    · cases last <;> simp [h1] at hpipe
    · exact Or.inl ⟨hbefore, hafter, hx, fun h => by simp [hsp] at h⟩
  · simp only [List.mem_append, not_or] at hmem
    obtain ⟨⟨hbefore, hpipe⟩, hafter⟩ := hmem
    refine Or.inl ⟨hbefore, hafter, hx, fun hsp hpc => ?_⟩
    simpa [pipeCloses, hpc, hsp] using hpipe

/-- A user pipe to be written is kept for the last command. -/
theorem forkProcess_namePipeOut (v : Vars) (opens : Opens) (pc : ℕ) :
    (v.forkProcess opens pc false).1.namePipeOut = v.namePipeOut := by
  rw [forkProcess_of_not_special opens pc rfl, forkNormal]
  simp only [beforeFork_eq, afterFork_eq]
  split_ifs <;> rfl

theorem pipes_le_fork (v : Vars) (opens : Opens) (pc : ℕ) (last : Bool) :
    v.kernel.pipes ≤ (v.forkProcess opens pc last).1.kernel.pipes := by
  rw [(forkProcess_fst v opens pc last).1, Kernel.pipes_closeAll]
  split_ifs
  · exact Nat.le_succ _
  · exact le_refl _

end Vars
end NetProg
