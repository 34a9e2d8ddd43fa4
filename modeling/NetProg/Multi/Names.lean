import NetProg.Lib.Run

/-! The names of the users of `np_multi_proc` (`name` and `check_name_exist` in `npshell_3.h`, the
    login in `main`).

    A process that is given a name goes through `user` entry by entry and then copies the name to its
    own entry, and holds no semaphore meanwhile. A login makes a slot valid first and clears the name
    of the last user afterwards; `exit` leaves the name where it is. -/

namespace NetProg.Multi

namespace Names

abbrev Name := List Char

local instance instNeZeroSlots : NeZero 30 := ⟨by decide⟩

/-- What a user is called before the first `name`. -/
def noName : Name := "(no name)".toList

/-- What `name` uses of an entry of `user`. -/
structure Slot where
  valid : Bool
  name : Name
  deriving DecidableEq

/-- Where the process of a client is: between two commands, in `check_name_exist` before the test of
    entry `k` (behind the last one for 30), before the `strcmp` with the name of entry `k`, before the
    `strcpy`, before the broadcast, and ended. -/
inductive Phase where
  | prompt
  | scan (x : Name) (k : ℕ)
  | compare (x : Name) (k : Fin 30)
  | copy (x : Name)
  | broadcast
  | ended

/-- The name is looked for, and entry `i` will not be looked at any more. -/
def Phase.Past (x : Name) (i : Fin 30) : Phase → Prop
  | scan y k => y = x ∧ i < k
  | compare y k => y = x ∧ i < k
  | copy y => y = x
  | _ => False

instance (x : Name) (i : Fin 30) (p : Phase) : Decidable (p.Past x i) := by
  cases p <;> unfold Phase.Past <;> infer_instance

/-- A client with the index `npshell` was called with. -/
structure Client where
  slot : Fin 30
  phase : Phase

/-- Where the loop of `main` is: before the section that takes a slot, inside it before the `strcpy`,
    and before the `fork`. -/
inductive Main where
  | accept
  | rename (i : Fin 30)
  | fork (i : Fin 30)
  deriving DecidableEq

/-- The server: `user`, the clients so far, and where `main` is. -/
structure Server where
  user : Fin 30 → Slot
  count : ℕ
  client : ℕ → Client
  main : Main

/-- What can happen next: a step of `main`, of a client that is given a command, or of a client that
    is at work on one. -/
inductive Action where
  | place (old : Fin 30)
  | rename
  | fork
  | forkError
  | name (c : ℕ) (x : Name)
  | unname (c : ℕ)
  | work (c : ℕ)
  | exit (c : ℕ)
  | signal (c : ℕ)

namespace Server

/-- The server before the first client. The memory of `user` may hold anything else. -/
def start (user : Fin 30 → Slot) : Server where
  user i := { user i with valid := false }
  count := 0
  client _ := ⟨0, .ended⟩
  main := .accept

/-- Change a slot. -/
def modifyUser (s : Server) (i : Fin 30) (f : Slot → Slot) : Server :=
  { s with user := Function.update s.user i (f (s.user i)) }

/-- A client goes on. -/
def setPhase (s : Server) (c : ℕ) (p : Phase) : Server :=
  { s with client := Function.update s.client c { s.client c with phase := p } }

/-- The slot `main` takes: the first that is not valid. -/
def free (s : Server) : Option (Fin 30) := (List.finRange 30).find? fun i => !(s.user i).valid

/-- The loop of `check_name_exist`, before entry `k`. -/
def scan (s : Server) (c : ℕ) (x : Name) (k : ℕ) : Server :=
  if h : k < 30 then
    if (s.user ⟨k, h⟩).valid then s.setPhase c (.compare x ⟨k, h⟩) else s.setPhase c (.scan x (k + 1))
  else s.setPhase c (.copy x)

/-- One action. Without a free slot `space_ind` is not set, and `old` is what it holds. A name is
    shorter than its array. -/
def step (s : Server) : Action → Option Server
  | .place old =>
    if s.main = .accept then
      let i := s.free.getD old
      some { s.modifyUser i fun u => { u with valid := true } with main := .rename i }
    else none
  | .rename =>
    match s.main with
    | .rename i => some { s.modifyUser i fun u => { u with name := noName } with main := .fork i }
    | _ => none
  | .fork =>
    match s.main with
    | .fork i => some { s with
        count := s.count + 1
        client := Function.update s.client s.count ⟨i, .prompt⟩
        main := .accept }
    | _ => none
  | .forkError =>
    match s.main with
    | .fork _ => some { s with main := .accept }
    | _ => none
  | .name c x =>
    match (s.client c).phase with
    | .prompt => if x.length < 30 then some (s.setPhase c (.scan x 0)) else none
    | _ => none
  | .unname c =>
    match (s.client c).phase with
    | .prompt => some (s.modifyUser (s.client c).slot fun u => { u with name := noName })
    | _ => none
  | .work c =>
    match (s.client c).phase with
    | .scan x k => some (s.scan c x k)
    | .compare x k =>
      some (if (s.user k).name = x then s.setPhase c .prompt else s.setPhase c (.scan x (k + 1)))
    | .copy x =>
      some ((s.modifyUser (s.client c).slot fun u => { u with name := x }).setPhase c .broadcast)
    | .broadcast => some (s.setPhase c .prompt)
    | _ => none
  | .exit c =>
    match (s.client c).phase with
    | .prompt =>
      some ((s.modifyUser (s.client c).slot fun u => { u with valid := false }).setPhase c .ended)
    | _ => none
  | .signal c =>
    match (s.client c).phase with
    | .ended => none
    | _ => some (s.setPhase c .ended)

/-- Two valid slots with one name are both without a name. -/
def Unique (s : Server) : Prop :=
  ∀ i j, i ≠ j → (s.user i).valid = true → (s.user j).valid = true → (s.user i).name = (s.user j).name →
    (s.user i).name = noName ∧ (s.user j).name = noName

/-- Nobody overlooks the name `x` in slot `i`: no other process that looks for it is past the slot. -/
def Noticed (s : Server) (i : Fin 30) (x : Name) : Prop :=
  ∀ c < s.count, (s.client c).slot ≠ i → ¬ (s.client c).phase.Past x i

instance (s : Server) (i : Fin 30) (x : Name) : Decidable (s.Noticed i x) :=
  inferInstanceAs (Decidable (∀ c < s.count, _))

/-- A name is copied to a slot when nobody overlooks it there; and a slot becomes valid when its last
    user has left it without a name, or with one that no valid slot has and nobody overlooks. -/
def Timely (s : Server) : Action → Prop
  | .place _ => ∀ i ∈ s.free, (s.user i).name = noName ∨ (s.Noticed i (s.user i).name ∧
      ∀ j, (s.user j).valid = true → (s.user j).name ≠ (s.user i).name)
  | .work c =>
    match (s.client c).phase with
    | .copy x => s.Noticed (s.client c).slot x
    | _ => True
  | _ => True

instance (s : Server) (a : Action) : Decidable (s.Timely a) := by
  cases a with
  | work c =>
    unfold Timely
    dsimp only
    split <;> infer_instance
  | _ =>
    unfold Timely
    infer_instance

/-! ### What timely actions keep -/

/-- Names are unique, and a process that looks for a name has not gone past a valid slot with it. -/
structure Kept (s : Server) : Prop where
  born : ∀ c, (s.client c).phase ≠ .ended → c < s.count
  unique : s.Unique
  unseen : ∀ c < s.count, ∀ i ≠ (s.client c).slot, ∀ x ≠ noName, (s.client c).phase.Past x i →
    (s.user i).valid = true → (s.user i).name ≠ x

variable {s t : Server} {c : ℕ} {i : Fin 30}

theorem kept_start (user : Fin 30 → Slot) : (start user).Kept where
  born c h := absurd rfl h
  unique i j _ hi := by cases hi
  unseen c hc := absurd hc (Nat.not_lt_zero c)

/-- `user` does not change, and the processes go past no valid slot with the name they look for. -/
theorem Kept.frame (h : s.Kept) (huser : t.user = s.user)
    (hborn : ∀ d, (t.client d).phase ≠ .ended → d < t.count)
    (hpast : ∀ d < t.count, ∀ i ≠ (t.client d).slot, ∀ x, (t.client d).phase.Past x i →
      (d < s.count ∧ i ≠ (s.client d).slot ∧ (s.client d).phase.Past x i) ∨
        ((s.user i).valid = true → (s.user i).name ≠ x)) : t.Kept where
  born := hborn
  unique := by
    rw [Unique, huser]
    exact h.unique
  unseen d hd i hi x hx hpassed hvalid := by
    rw [huser] at hvalid ⊢
    rcases hpast d hd i hi x hpassed with ⟨hd', hi', hpassed'⟩ | hfree
    · exact h.unseen d hd' i hi' x hx hpassed' hvalid
    · exact hfree hvalid

/-- One process goes on and passes no valid slot with the name it looks for. -/
theorem Kept.setPhase (h : s.Kept) (p : Phase) (hc : c < s.count)
    (hpast : ∀ i x, p.Past x i → (s.client c).phase.Past x i ∨
      ((s.user i).valid = true → (s.user i).name ≠ x)) : (s.setPhase c p).Kept := by
  refine h.frame rfl (fun d hd => ?_) fun d hd i hi x hpassed => ?_
  · rcases eq_or_ne d c with rfl | hdc
    · exact hc
    · simp only [Server.setPhase, Function.update_of_ne hdc] at hd
      exact h.born d hd
  · rcases eq_or_ne d c with rfl | hdc
    · simp only [Server.setPhase, Function.update_self] at hi hpassed
      exact (hpast i x hpassed).imp_left fun hold => ⟨hd, hi, hold⟩
    · simp only [Server.setPhase, Function.update_of_ne hdc] at hi hpassed
      exact Or.inl ⟨hd, hi, hpassed⟩

/-- A slot changes. The name it has afterwards, if it is valid, is nobody else's and is noticed. -/
theorem Kept.modifyUser (h : s.Kept) (f : Slot → Slot)
    (hnew : (f (s.user i)).valid = true → (f (s.user i)).name ≠ noName →
      s.Noticed i (f (s.user i)).name ∧
        ∀ j ≠ i, (s.user j).valid = true → (s.user j).name ≠ (f (s.user i)).name) :
    (s.modifyUser i f).Kept := by
  have hself : (s.modifyUser i f).user i = f (s.user i) := by simp [Server.modifyUser]
  have hother : ∀ {j}, j ≠ i → (s.modifyUser i f).user j = s.user j := fun hj => by
    simp [Server.modifyUser, hj]
  -- the changed slot and any other one
  have hpair : ∀ j ≠ i, (f (s.user i)).valid = true → (s.user j).valid = true →
      (f (s.user i)).name = (s.user j).name → (f (s.user i)).name = noName := by
    intro j hj hvi hvj heq
    by_contra hne
    exact (hnew hvi hne).2 j hj hvj heq.symm
  refine ⟨h.born, fun a b hab hva hvb heq => ?_, fun d hd j hj x hx hpassed hvalid => ?_⟩
  · rcases eq_or_ne a i with rfl | ha
    · rw [hself] at hva heq ⊢
      rw [hother hab.symm] at hvb heq ⊢
      have hno := hpair b hab.symm hva hvb heq
      exact ⟨hno, heq ▸ hno⟩
    · rw [hother ha] at hva heq ⊢
      rcases eq_or_ne b i with rfl | hb
      · rw [hself] at hvb heq ⊢
        have hno := hpair a ha hvb hva heq.symm
        exact ⟨heq ▸ hno, hno⟩
      · rw [hother hb] at hvb heq ⊢
        exact h.unique a b hab hva hvb heq
  · rcases eq_or_ne j i with rfl | hji
    · rw [hself] at hvalid ⊢
      rintro rfl
      exact (hnew hvalid hx).1 d hd hj.symm hpassed
    · rw [hother hji] at hvalid ⊢
      exact h.unseen d hd j hj x hx hpassed hvalid

/-! ### Runs -/

theorem kept_place (h : s.Kept) {old : Fin 30} (ha : s.Timely (.place old)) :
    (s.modifyUser (s.free.getD old) fun u => { u with valid := true }).Kept := by
  refine h.modifyUser _ fun _ hne => ?_
  cases hfree : s.free with
  | some i =>
    rw [hfree, Option.getD_some] at hne
    obtain ⟨hnoticed, hothers⟩ := (ha i hfree).resolve_left hne
    exact ⟨hnoticed, fun j _ => hothers j⟩
  | none =>
    -- all slots are valid already
    have hall : ∀ j, (s.user j).valid = true := by
      simpa [free] using hfree
    rw [hfree, Option.getD_none] at hne
    refine ⟨fun d hd hslot hpassed => ?_, fun j hj hvalid heq => ?_⟩
    · exact h.unseen d hd old hslot.symm _ hne hpassed (hall old) rfl
    · exact hne (h.unique old j hj.symm (hall old) hvalid heq.symm).1

theorem kept_scan (h : s.Kept) (hc : c < s.count) {x : Name} {k : ℕ} (hphase : (s.client c).phase = .scan x k) :
    (s.scan c x k).Kept := by
  unfold scan
  split_ifs with hk hvalid
  · refine h.setPhase _ hc fun i y hpassed => Or.inl ?_
    rwa [hphase]
  · refine h.setPhase _ hc fun i y hpassed => ?_
    obtain ⟨rfl, hi⟩ := hpassed
    rcases Nat.lt_succ_iff_lt_or_eq.mp hi with hlt | heq
    · rw [hphase]
      exact Or.inl ⟨rfl, hlt⟩
    · obtain rfl : i = ⟨k, hk⟩ := Fin.ext heq
      exact Or.inr fun hv => absurd hv hvalid
  · refine h.setPhase _ hc fun i y hpassed => ?_
    obtain rfl : x = y := hpassed
    rw [hphase]
    exact Or.inl ⟨rfl, by omega⟩

theorem kept_compare (h : s.Kept) (hc : c < s.count) {x : Name} {k : Fin 30}
    (hphase : (s.client c).phase = .compare x k) (hne : (s.user k).name ≠ x) :
    (s.setPhase c (.scan x (k + 1))).Kept := by
  refine h.setPhase _ hc fun i y hpassed => ?_
  obtain ⟨rfl, hi⟩ := hpassed
  rcases Nat.lt_succ_iff_lt_or_eq.mp hi with hlt | heq
  · rw [hphase]
    exact Or.inl ⟨rfl, hlt⟩
  · obtain rfl : i = k := Fin.ext heq
    exact Or.inr fun _ => hne

/-- The name is copied by a process that is past every slot. -/
theorem kept_copy (h : s.Kept) (hc : c < s.count) {x : Name} (hphase : (s.client c).phase = .copy x)
    (hnoticed : s.Noticed (s.client c).slot x) :
    (s.modifyUser (s.client c).slot fun u => { u with name := x }).Kept := by
  refine h.modifyUser _ fun _ hne => ⟨hnoticed, fun j hj hvalid => ?_⟩
  have hpassed : (s.client c).phase.Past x j := by
    rw [hphase]
    exact rfl
  exact h.unseen c hc j hj x hne hpassed hvalid

/-- A process that is between two commands or at work is that of a client. -/
theorem Kept.lt_count (h : s.Kept) {p : Phase} (hp : (s.client c).phase = p) (hne : p ≠ .ended) :
    c < s.count := h.born c (hp ▸ hne)

/-- A step of a client that is at work on a command. -/
theorem kept_work (h : s.Kept) (ha : s.Timely (.work c)) (hs : s.step (.work c) = some t) : t.Kept := by
  cases hphase : (s.client c).phase with
  | prompt => simp [step, hphase] at hs
  | ended => simp [step, hphase] at hs
  | scan x k =>
    obtain rfl : s.scan c x k = t := by simpa [step, hphase] using hs
    exact kept_scan h (h.lt_count hphase (by simp)) hphase
  | compare x k =>
    have hc := h.lt_count hphase (by simp)
    simp only [step, hphase, Option.some.injEq] at hs
    subst hs
    split_ifs with heq
    · exact h.setPhase _ hc fun _ _ hpassed => hpassed.elim
    · exact kept_compare h hc hphase heq
  | copy x =>
    have hc := h.lt_count hphase (by simp)
    simp only [Timely, hphase] at ha
    simp only [step, hphase, Option.some.injEq] at hs
    subst hs
    exact (kept_copy h hc hphase ha).setPhase _ hc fun _ _ hpassed => hpassed.elim
  | broadcast =>
    simp only [step, hphase, Option.some.injEq] at hs
    subst hs
    exact h.setPhase _ (h.lt_count hphase (by simp)) fun _ _ hpassed => hpassed.elim

/-- A timely action keeps the invariant. -/
theorem kept_step (s : Server) (a : Action) (t : Server) (h : s.Kept) (ha : s.Timely a)
    (hs : s.step a = some t) : t.Kept := by
  cases a with
  | place old =>
    simp only [step, Option.ite_none_right_eq_some, Option.some.injEq] at hs
    obtain ⟨-, rfl⟩ := hs
    exact (kept_place h ha).frame rfl (kept_place h ha).born fun d hd i hi x hp => Or.inl ⟨hd, hi, hp⟩
  | rename =>
    cases hmain : s.main with
    | rename i =>
      simp only [step, hmain, Option.some.injEq] at hs
      subst hs
      have hk : (s.modifyUser i fun u => { u with name := noName }).Kept :=
        h.modifyUser _ fun _ hne => absurd rfl hne
      exact hk.frame rfl hk.born fun d hd i hi x hp => Or.inl ⟨hd, hi, hp⟩
    | _ => simp [step, hmain] at hs
  | fork =>
    cases hmain : s.main with
    | fork i =>
      simp only [step, hmain, Option.some.injEq] at hs
      subst hs
      refine h.frame rfl (fun d hd => ?_) fun d hd j hj x hp => ?_
      · rcases eq_or_ne d s.count with rfl | hne
        · exact Nat.lt_succ_self _
        · simp only [Function.update_of_ne hne] at hd
          exact Nat.lt_succ_of_lt (h.born d hd)
      · rcases eq_or_ne d s.count with rfl | hne
        · simp only [Function.update_self] at hp
          exact hp.elim
        · simp only [Function.update_of_ne hne] at hj hp
          exact Or.inl ⟨by simp only at hd; omega, hj, hp⟩
    | _ => simp [step, hmain] at hs
  | forkError =>
    cases hmain : s.main with
    | fork i =>
      simp only [step, hmain, Option.some.injEq] at hs
      subst hs
      exact h.frame rfl h.born fun d hd i hi x hp => Or.inl ⟨hd, hi, hp⟩
    | _ => simp [step, hmain] at hs
  | name c x =>
    cases hphase : (s.client c).phase with
    | prompt =>
      simp only [step, hphase, Option.ite_none_right_eq_some, Option.some.injEq] at hs
      obtain ⟨-, rfl⟩ := hs
      exact h.setPhase _ (h.lt_count hphase (by simp)) fun _ _ hp => absurd hp.2 (Nat.not_lt_zero _)
    | _ => simp [step, hphase] at hs
  | unname c =>
    cases hphase : (s.client c).phase with
    | prompt =>
      simp only [step, hphase, Option.some.injEq] at hs
      subst hs
      exact h.modifyUser _ fun _ hne => absurd rfl hne
    | _ => simp [step, hphase] at hs
  | work c => exact kept_work h ha hs
  | exit c =>
    cases hphase : (s.client c).phase with
    | prompt =>
      simp only [step, hphase, Option.some.injEq] at hs
      subst hs
      have hk : (s.modifyUser (s.client c).slot fun u => { u with valid := false }).Kept :=
        h.modifyUser _ fun hv => by cases hv
      exact hk.setPhase _ (h.lt_count hphase (by simp)) fun _ _ hp => hp.elim
    | _ => simp [step, hphase] at hs
  | signal c =>
    by_cases hended : (s.client c).phase = .ended
    · simp [step, hended] at hs
    · have ht : s.setPhase c .ended = t := by
        cases hphase : (s.client c).phase <;> simp_all [step]
      exact ht ▸ h.setPhase _ (h.born c hended) fun _ _ hp => hp.elim

/-- As long as the actions are timely, no two valid slots have one name. -/
theorem names_unique (user : Fin 30 → Slot) (as : List Action) (h : Meets step Timely (start user) as) :
    Always step Unique (start user) as :=
  always_of_meets kept_step (fun _ => Kept.unique) (kept_start user) h

/-- Two clients log in. -/
def twoLogins : List Action := [.place 0, .rename, .fork, .place 0, .rename, .fork]

/-- One client takes a name, and then the other takes another one. -/
def oneAfterOther : List Action :=
  twoLogins ++ .name 0 ['a'] :: List.replicate 35 (.work 0) ++
    .name 1 ['b'] :: List.replicate 35 (.work 1)

/-- Both have the names they asked for. -/
theorem names_unique_one_after_other :
    ((runWith step (start fun _ => ⟨false, noName⟩) oneAfterOther).map fun t =>
      ((t.user 0).name, (t.user 1).name)) = some (['a'], ['b']) ∧
    Always step Unique (start fun _ => ⟨false, noName⟩) oneAfterOther := by
  refine ⟨by decide +kernel, names_unique _ oneAfterOther ?_⟩
  decide +kernel

/-- Both look for the same name before one of them copies it. -/
def bothAtOnce : List Action :=
  twoLogins ++ [.name 0 ['a'], .name 1 ['a']] ++ List.replicate 33 (.work 0) ++
    List.replicate 33 (.work 1) ++ [.work 0, .work 1]

/-- Both get it. -/
theorem names_taken_twice : ∃ t, runWith step (start fun _ => ⟨false, noName⟩) bothAtOnce = some t ∧
    ¬ t.Unique := by
  have htwice : ((runWith step (start fun _ => ⟨false, noName⟩) bothAtOnce).map fun t =>
      (t.user 0, t.user 1)) = some (⟨true, ['a']⟩, ⟨true, ['a']⟩) := by decide +kernel
  obtain ⟨t, hrun, husers⟩ := Option.map_eq_some_iff.mp htwice
  obtain ⟨h0, h1⟩ := Prod.mk.inj husers
  refine ⟨t, hrun, fun h => ?_⟩
  have hno := (h 0 1 (by decide) (by rw [h0]) (by rw [h1]) (by rw [h0, h1])).1
  rw [h0] at hno
  exact absurd hno (by decide)

end Server

end Names

end NetProg.Multi
