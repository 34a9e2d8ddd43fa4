import Mathlib.Tactic

/-! Things handed over one at a time.

    Under each key at most one thing waits; it is put there, and taken once or dropped. A thing that is
    put is new, so nothing is ever taken twice: not the same thing under one key, nor under two. -/

namespace NetProg

/-- What waits under each key, and what has been taken so far. -/
structure Ledger (κ : Type*) where
  mail : κ → Option ℕ
  taken : List ℕ

namespace Ledger
variable {κ : Type*} {L : Ledger κ} {bound : ℕ}

/-- The ledger at the beginning. -/
def empty : Ledger κ := ⟨fun _ => none, []⟩

/-- Drop what waits under some keys. -/
def drop (L : Ledger κ) (p : κ → Prop) [DecidablePred p] : Ledger κ :=
  { L with mail := fun k => if p k then none else L.mail k }

/-- Everything is below the bound, nothing waits in two places or has been taken before, and nothing
    has been taken twice. -/
structure Valid (L : Ledger κ) (bound : ℕ) : Prop where
  mail_lt : ∀ k id, L.mail k = some id → id < bound
  taken_lt : ∀ id ∈ L.taken, id < bound
  inj : ∀ k k' id, L.mail k = some id → L.mail k' = some id → k = k'
  fresh : ∀ k id, L.mail k = some id → id ∉ L.taken
  once : L.taken.Nodup

theorem valid_empty : Valid (empty : Ledger κ) bound := by
  refine ⟨?_, ?_, ?_, ?_, List.nodup_nil⟩ <;> simp [empty]

theorem Valid.mono (h : L.Valid bound) {bound' : ℕ} (hle : bound ≤ bound') : L.Valid bound' :=
  ⟨fun k id hk => (h.mail_lt k id hk).trans_le hle, fun id hid => (h.taken_lt id hid).trans_le hle,
    h.inj, h.fresh, h.once⟩

/-- Nothing more waits than before, and nothing was taken. -/
theorem Valid.sub (h : L.Valid bound) {mail : κ → Option ℕ}
    (hsub : ∀ k id, mail k = some id → L.mail k = some id) : Valid { L with mail := mail } bound :=
  ⟨fun k id hk => h.mail_lt k id (hsub k id hk), h.taken_lt,
    fun k k' id hk hk' => h.inj k k' id (hsub k id hk) (hsub k' id hk'),
    fun k id hk => h.fresh k id (hsub k id hk), h.once⟩

theorem Valid.drop (h : L.Valid bound) (p : κ → Prop) [DecidablePred p] : (L.drop p).Valid bound := by
  refine h.sub fun k id hk => ?_
  split_ifs at hk
  exact hk

section
variable [DecidableEq κ]

/-- Put a thing under a key. -/
def put (L : Ledger κ) (k : κ) (id : ℕ) : Ledger κ :=
  { L with mail := Function.update L.mail k (some id) }

/-- Take what waits under a key. -/
def take (L : Ledger κ) (k : κ) : Ledger κ :=
  ⟨Function.update L.mail k none, L.taken ++ (L.mail k).toList⟩

theorem mail_take {k k' : κ} : (L.take k).mail k' = if k' = k then none else L.mail k' := by
  by_cases hk : k' = k
  · simp [take, hk]
  · simp [take, hk]

theorem mail_put {k k' : κ} {id : ℕ} :
    (L.put k id).mail k' = if k' = k then some id else L.mail k' := by
  by_cases hk : k' = k
  · simp [put, hk]
  · simp [put, hk]

/-- Take what waits under some keys one after another, up to the first where nothing waits. -/
def collect : List κ → Ledger κ → Ledger κ
  | [], L => L
  | k :: ks, L => if L.mail k = none then L else collect ks (L.take k)

/-- What is put and dropped again was never there. -/
theorem drop_put {p : κ → Prop} [DecidablePred p] {k : κ} {id : ℕ} (hp : p k) :
    (L.put k id).drop p = L.drop p := by
  have hmail : ∀ k', ((L.put k id).drop p).mail k' = (L.drop p).mail k' := by
    intro k'
    simp only [drop, mail_put]
    split_ifs with h1 h2
    · rfl
    · exact absurd (h2 ▸ hp) h1
    · rfl
  have hmail := funext hmail
  rw [drop, drop] at hmail ⊢
  exact congrArg (Ledger.mk · L.taken) hmail

/-- A new thing is put. -/
theorem Valid.put (h : L.Valid bound) {bound' id : ℕ} (k : κ) (hge : bound ≤ id) (hlt : id < bound') :
    (L.put k id).Valid bound' := by
  have hold : ∀ {k id'}, L.mail k = some id' → id' ≠ id := by
    rintro k id' hk rfl
    have := h.mail_lt k id' hk
    omega
  refine ⟨fun k' id' hk' => ?_, fun id' hid' => ?_, fun a b id' ha hb => ?_, fun k' id' hk' => ?_,
    h.once⟩
  · rw [mail_put] at hk'
    split_ifs at hk'
    · cases hk'
      exact hlt
    · have := h.mail_lt k' id' hk'
      omega
  · have := h.taken_lt id' hid'
    omega
  · rw [mail_put] at ha hb
    split_ifs at ha hb with h1 h2
    · rw [h1, h2]
    · cases ha
      exact absurd rfl (hold hb)
    · cases hb
      exact absurd rfl (hold ha)
    · exact h.inj a b id' ha hb
  · rw [mail_put] at hk'
    split_ifs at hk'
    · cases hk'
      intro hcon
      have := h.taken_lt id hcon
      omega
    · exact h.fresh k' id' hk'

/-- What is taken waits nowhere any more. -/
theorem Valid.take (h : L.Valid bound) (k : κ) : (L.take k).Valid bound := by
  have hsub : ∀ k' id, (L.take k).mail k' = some id → k' ≠ k ∧ L.mail k' = some id := by
    intro k' id hk'
    rw [mail_take] at hk'
    split_ifs at hk' with hne
    exact ⟨hne, hk'⟩
  refine ⟨fun k' id hk' => h.mail_lt k' id (hsub k' id hk').2, fun id hid => ?_,
    fun a b id ha hb => h.inj a b id (hsub a id ha).2 (hsub b id hb).2, fun k' id hk' hcon => ?_, ?_⟩
  · rcases List.mem_append.mp hid with hid | hid
    · exact h.taken_lt id hid
    · exact h.mail_lt k id (Option.mem_toList.mp hid)
  · obtain ⟨hne, hk'⟩ := hsub k' id hk'
    rcases List.mem_append.mp hcon with hid | hid
    · exact h.fresh k' id hk' hid
    · exact hne (h.inj k' k id hk' (Option.mem_toList.mp hid))
  · refine List.nodup_append.mpr ⟨h.once, ?_, ?_⟩
    · cases L.mail k with
      | none => exact List.nodup_nil
      | some id => exact List.nodup_singleton id
    · rintro id hid id' hid' rfl
      exact h.fresh k id (Option.mem_toList.mp hid') hid

theorem Valid.collect : ∀ (ks : List κ) {L : Ledger κ}, L.Valid bound → (L.collect ks).Valid bound
  | [], _, h => h
  | k :: ks, L, h => by
    rw [Ledger.collect]
    split_ifs
    · exact h
    · exact Valid.collect ks (h.take k)

end

end Ledger
end NetProg
