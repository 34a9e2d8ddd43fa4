import NetProg.Multi.Semaphore

/-! What holds in every state of a run of `Multi/Semaphore.lean`: who comes in time keeps the accounts of
    the set, and who does not is seen at once. -/

namespace NetProg.Multi

open Member

namespace Sems

variable {ι : Type*} [DecidableEq ι] [Fintype ι] {initval : ℕ}

/-! ### One action -/

omit [DecidableEq ι] [Fintype ι] in
theorem find_of_set {s : Sems ι} {j : ℕ} {S : SemSet Member ι} (h : s.set = some (j, S)) :
    s.find j = some S := by simp [find, h]

omit [Fintype ι] in
/-- What comes of a `semop`. -/
theorem attempt_cases {s t : Sems ι} {p : ι} {j : ℕ} {bs : List (SemBuf Member)} {ok sleeping gone : Holder}
    (h : s.attempt p j bs ok sleeping gone = some t) :
    (∃ S T, s.set = some (j, S) ∧ S.semop p bs = some T ∧ t = { s.move p ok with set := some (j, T) }) ∨
    ((∃ S, s.set = some (j, S)) ∧ s.place p ≠ sleeping ∧ t = s.move p sleeping) ∨
    (s.find j = none ∧ t = s.move p gone) := by
  unfold attempt at h
  split at h
  · next hset => exact .inr (.inr ⟨by simp [find, hset], (Option.some.inj h).symm⟩)
  · next id S hset =>
    by_cases hj : j = id
    · subst hj
      rw [if_pos rfl] at h
      split at h
      · next T hT => exact .inl ⟨S, T, hset, hT, (Option.some.inj h).symm⟩
      · split_ifs at h with hp
        exact .inr (.inl ⟨⟨S, hset⟩, hp, (Option.some.inj h).symm⟩)
    · rw [if_neg hj] at h
      exact .inr (.inr ⟨by simp [find, hset, hj], (Option.some.inj h).symm⟩)

namespace Kept

variable {s t : Sems ι}

omit [DecidableEq ι] in
/-- A process uses only the set that is there. -/
theorem find_of_uses (h : s.Kept initval) {p : ι} {j : ℕ} (hp : (s.place p).uses = some j) :
    ∃ S, s.set = some (j, S) := by
  cases hset : s.set with
  | none => rw [h.empty hset p] at hp; cases hp
  | some x =>
    obtain ⟨id, S⟩ := x
    obtain rfl := (h.held id S hset).uses p j hp
    exact ⟨S, rfl⟩

/-- A process moves and the set is as before. -/
theorem stay (h : s.Kept initval) {p : ι} {x : Holder} (hlost : x ≠ .lost)
    (hleft : ∀ j, x = .left j → j < s.nextId) (hnone : s.set = none → x.uses = none)
    (hsome : ∀ id S, s.set = some (id, S) → (∀ k, x.owes id k = (s.place p).owes id k) ∧
      (∀ j, x.uses = some j → j = id) ∧
      (SetUp initval (Function.update s.place p x) S ∨ Blank initval (Function.update s.place p x) S)) :
    (s.move p x).Kept initval := by
  refine ⟨fun q => ?_, fun q j => ?_, fun hset q => ?_, fun id S hset => ?_⟩
  · exact forall_update (P := fun y => y ≠ .lost) h.found hlost p q
  · exact forall_update (P := fun y => y = .left j → j < s.nextId) (fun r => h.left r j) (hleft j) p q
  · exact forall_update (P := fun y => y.uses = none) (h.empty hset) (hnone hset) p q
  · obtain ⟨howes, huses, hphase⟩ := hsome id S hset
    have hkept := h.held id S hset
    exact hkept.follow (fun _ _ => rfl) (fun k => by rw [hkept.adj, howes]) huses hkept.even
      hkept.taken hphase

/-- A process moves and changes the set. -/
theorem replace (h : s.Kept initval) {p : ι} {x : Holder} (hlost : x ≠ .lost) {id : ℕ}
    {T : SemSet Member ι} (hleft : ∀ j, x = .left j → j < s.nextId)
    (hT : KeptSet initval (Function.update s.place p x) s.nextId id T) :
    Kept initval { s.move p x with set := some (id, T) } := by
  refine ⟨fun q => ?_, fun q j => ?_, fun hset => ?_, fun id' S hset => ?_⟩
  · exact forall_update (P := fun y => y ≠ .lost) h.found hlost p q
  · exact forall_update (P := fun y => y = .left j → j < s.nextId) (fun r => h.left r j) (hleft j) p q
  · cases hset
  · obtain ⟨rfl, rfl⟩ := Prod.mk.inj (Option.some.inj hset)
    exact hT

/-- One `semop`: what it takes belongs to the place it leads to, and what it would have to wait for is not
    there before the set has its values. -/
theorem attempt (h : s.Kept initval) {p : ι} {j : ℕ} {bs : List (SemBuf Member)} {ok sleeping gone : Holder}
    (ht : s.attempt p j bs ok sleeping gone = some t) (hbs : SemSet.Undone bs)
    (hok : ∀ k, ok.owes j k = (s.place p).owes j k - SemSet.total k bs)
    (huses : ok.uses = some j ∨ ok.uses = none) (hinit : ok.initialises = false)
    (hfound : ok ≠ .lost) (hleft : ∀ i, ok = .left i → i = j)
    (htaken : ∀ S T : SemSet Member ι, S.val Member.lock ≤ 1 → S.semop p bs = some T →
      T.val Member.lock ≤ 1)
    (hblank : ∀ S T : SemSet Member ι, S.val count = 0 → (s.place p).counted = false →
      S.semop p bs = some T →
      SemSet.total count bs = 0 ∧ SemSet.total semaphore bs = 0 ∧ ∀ i, ok ≠ .creating i .ready)
    (hsleep : s.place p ≠ sleeping → (∀ k, sleeping.owes j k = (s.place p).owes j k) ∧
      sleeping.uses = some j ∧ sleeping.initialises = false ∧ ∀ i, sleeping ≠ .creating i .ready)
    (hgone : s.find j = none → gone = .outside ∧ ∀ id k, (s.place p).owes id k = 0) : t.Kept initval := by
  rcases attempt_cases ht with ⟨S, T, hset, hT, rfl⟩ | ⟨⟨S, hset⟩, hp, rfl⟩ | ⟨hfind, rfl⟩
  · have hkept := h.held j S hset
    refine h.replace hfound (fun i hi => hleft i hi ▸ hkept.old) (hkept.semop hbs hT hok ?_
      (htaken S T hkept.taken hT) hinit fun hbl => ?_)
    · intro i hi
      rcases huses with hu | hu
      · exact Option.some.inj (hi.symm.trans hu)
      · rw [hu] at hi
        cases hi
    · refine hblank S T hbl.zero ?_ hT
      have hzero := hbl.adj p count (by decide)
      rw [hkept.adj] at hzero
      cases hp : (s.place p).counted with
      | false => rfl
      | true => simp [Holder.owes, hp] at hzero
  · obtain ⟨howes, hu, hi, hready⟩ := hsleep hp
    refine h.stay (fun hl => ?_) (fun i hl => ?_) (fun hnone => ?_) fun id S' hset' => ?_
    · rw [hl] at hu
      cases hu
    · rw [hl] at hu
      cases hu
    · rw [hset] at hnone
      cases hnone
    · obtain ⟨rfl, rfl⟩ := Prod.mk.inj (Option.some.inj (hset.symm.trans hset'))
      refine ⟨howes, fun i hui => Option.some.inj (hui.symm.trans hu), ?_⟩
      rcases (h.held j S hset).phase with hup | hbl
      · exact .inl (hup.move (fun _ => rfl) hi p)
      · refine .inr (hbl.move (fun _ _ => rfl) (fun _ _ _ => rfl) hready (fun i hv => ?_) p)
        rw [hv] at hi
        cases hi
  · obtain ⟨rfl, howes⟩ := hgone hfind
    refine h.stay (by simp) (by simp) (fun _ => rfl) fun id S hset => ⟨fun k => ?_, by simp [Holder.uses], ?_⟩
    · rw [Holder.owes_outside, howes]
    · rcases (h.held id S hset).phase with hup | hbl
      · exact .inl (hup.move (fun _ => rfl) rfl p)
      · exact .inr (hbl.move (fun _ _ => rfl) (fun _ _ _ => rfl) (by simp) (by simp) p)

/-- A process that has nothing moves to where it has nothing either. -/
theorem idle (h : s.Kept initval) {p : ι} {x : Holder} (hp : ∀ id k, (s.place p).owes id k = 0)
    (hx : ∀ id k, x.owes id k = 0) (huses : x.uses = none) (hlost : x ≠ .lost) : (s.move p x).Kept initval := by
  have hquiet : x.locks = false := by
    have hlock := hx 0 lock
    cases hl : x.locks with
    | false => rfl
    | true => simp [Holder.owes, hl] at hlock
  have hstage : ∀ j stage, x = .creating j stage → stage = .gotten := fun j stage hj => by
    subst hj
    cases stage <;> simp [Holder.uses] at huses ⊢
  have hinit : x.initialises = false := by
    cases x with
    | creating j stage =>
      obtain rfl := hstage j stage rfl
      rfl
    | _ => rfl
  refine h.stay hlost (fun j hj => ?_) (fun _ => huses) fun id S hset =>
    ⟨fun k => by rw [hx, hp], by simp [huses], ?_⟩
  · have hunit := hx j semaphore
    simp [Holder.owes, Holder.hasUnit, hj] at hunit
  · rcases (h.held id S hset).phase with hup | hbl
    · exact .inl (hup.move (fun _ => rfl) hinit p)
    · refine .inr (hbl.move (fun _ _ => rfl) (fun _ _ _ => rfl) (fun j hj => ?_) (fun j hj => ?_) p)
      · cases hstage j .ready hj
      · cases hstage j .valued hj

omit [DecidableEq ι] in
/-- `semget` makes a set that has no values yet, or finds the one that is there. -/
theorem semget (h : s.Kept initval) : s.semget.1.Kept initval := by
  unfold Sems.semget
  cases hset : s.set with
  | some x => exact h
  | none =>
    have hnot : ∀ q, (s.place q).uses = none := h.empty hset
    have hzero : ∀ q k, (s.place q).owes s.nextId k = 0 := fun q k => by
      have hq := hnot q
      have hl := h.left q
      cases hx : s.place q with
      | creating j stage => rw [hx] at hq; cases stage <;> cases k <;> simp [Holder.uses] at hq <;> rfl
      | opening j asleep => cases k <;> rfl
      | left j =>
        have hlt := hl j hx
        cases k with
        | semaphore => simp [Holder.owes, Holder.hasUnit, hlt.ne]
        | _ => rfl
      | counts j inside => simp [hx, Holder.uses] at hq
      | waiting j => simp [hx, Holder.uses] at hq
      | closing j inside stage => simp [hx, Holder.uses] at hq
      | _ => cases k <;> rfl
    refine ⟨h.found, fun q j hq => (h.left q j hq).trans (Nat.lt_succ_self _), (fun hn => by cases hn),
      fun id S hs => ?_⟩
    obtain ⟨rfl, rfl⟩ := Prod.mk.inj (Option.some.inj hs)
    refine ⟨Nat.lt_succ_self _, fun q k => (hzero q k).symm, fun q j hq => ?_, SemSet.balance_zero _,
      Nat.zero_le _, .inr ⟨rfl, fun _ _ _ => rfl, fun q j hq => ?_, fun q j hq => ?_⟩⟩
    · rw [hnot q] at hq
      cases hq
    · have hu := hnot q
      rw [hq] at hu
      cases hu
    · have hu := hnot q
      rw [hq] at hu
      cases hu

theorem create_step (h : s.Kept initval) {p : ι} (ht : s.step initval (.create p) = some t) :
    t.Kept initval := by
  simp only [step] at ht
  split at ht
  · next hp =>
    obtain rfl := Option.some.inj ht
    have hplace : s.semget.1.place p = .outside := by
      rw [← hp]
      unfold Sems.semget
      split <;> rfl
    refine h.semget.idle (fun id k => ?_) (fun id k => ?_) rfl (by simp)
    · rw [hplace, Holder.owes_outside]
    · cases k <;> rfl
  · cases ht

theorem open_step (h : s.Kept initval) {p : ι} (ht : s.step initval (.open p) = some t) :
    t.Kept initval := by
  simp only [step] at ht
  split at ht
  · next id S hp hset =>
    obtain rfl := Option.some.inj ht
    refine h.idle (fun id k => ?_) (fun id k => ?_) rfl (by simp)
    · rw [hp, Holder.owes_outside]
    · cases k <;> rfl
  · rwa [← Option.some.inj ht]
  · cases ht

omit [Fintype ι] in
/-- A `semop` that waits for the lock and takes it. -/
theorem taken_lock {S T : SemSet Member ι} {p : ι} {u : Bool} {bs : List (SemBuf Member)}
    (hbs : SemSet.Undone (⟨lock, 0, u⟩ :: bs)) (htotal : SemSet.total lock (⟨lock, 0, u⟩ :: bs) ≤ 1)
    (hT : S.semop p (⟨lock, 0, u⟩ :: bs) = some T) : T.val lock ≤ 1 := by
  have hzero := SemSet.val_of_semop_zero hT
  have hval := SemSet.semop_val hbs hT lock
  omega

omit [Fintype ι] in
/-- A `semop` that does not take the lock. -/
theorem taken_other {S T : SemSet Member ι} {p : ι} {bs : List (SemBuf Member)} (hbs : SemSet.Undone bs)
    (htotal : SemSet.total lock bs ≤ 0) (hS : S.val lock ≤ 1) (hT : S.semop p bs = some T) :
    T.val lock ≤ 1 := by
  have hval := SemSet.semop_val hbs hT lock
  omega

/-- `op_lock` of `sem_create`. -/
theorem lock_step (h : s.Kept initval) {p : ι} {j : ℕ} {gone : Holder}
    (hp : s.place p = .creating j .gotten ∨ s.place p = .creating j .asleep)
    (hgone : s.find j = none → gone = .outside)
    (ht : s.attempt p j opLock (.creating j .locked) (.creating j .asleep) gone = some t) :
    t.Kept initval := by
  have howes : ∀ id k, (s.place p).owes id k = 0 := fun id k => by
    rcases hp with hp | hp <;> rw [hp] <;> cases k <;> rfl
  refine h.attempt ht (by decide) (fun k => ?_) (.inl rfl) rfl (by simp) (by simp)
    (fun S T _ hT => taken_lock (by decide) (by decide) hT)
    (fun _ _ _ _ _ => ⟨by decide, by decide, by simp⟩)
    (fun _ => ⟨fun k => ?_, rfl, rfl, by simp⟩) (fun hfind => ⟨hgone hfind, howes⟩)
  · rw [howes]
    cases k <;> rfl
  · rw [howes]
    cases k <;> rfl

/-- `op_close`. -/
theorem close_step (h : s.Kept initval) {p : ι} {j : ℕ} {b : Bool}
    (hp : s.place p = .counts j b ∨ s.place p = .closing j b .asleep)
    (ht : s.attempt p j opClose (.closing j b .locked) (.closing j b .asleep) .lost = some t) :
    t.Kept initval := by
  have hcounted : (s.place p).counted = true := by rcases hp with hp | hp <;> rw [hp] <;> rfl
  have huses : (s.place p).uses = some j := by rcases hp with hp | hp <;> rw [hp] <;> rfl
  have howes : ∀ k, (s.place p).owes j k = (Holder.counts j b).owes j k := fun k => by
    rcases hp with hp | hp
    · rw [hp]
    · rw [hp]
      cases k <;> rfl
  obtain ⟨S, hset⟩ := h.find_of_uses huses
  refine h.attempt ht (by decide) (fun k => ?_) (.inl rfl) rfl (by simp) (by simp)
    (fun S T _ hT => taken_lock (by decide) (by decide) hT)
    (fun _ _ _ hno _ => by rw [hcounted] at hno; cases hno)
    (fun _ => ⟨fun k => ?_, rfl, rfl, by simp⟩) (fun hfind => by rw [find_of_set hset] at hfind; cases hfind)
  · rw [howes]
    cases k <;> simp [Holder.owes, Holder.locks, Holder.counted, Holder.hasUnit, SemSet.total, opClose]
  · rw [howes]
    cases k <;> rfl

/-- `sem_wait` and `sem_signal`: a unit is taken and given back. -/
theorem unit_step (h : s.Kept initval) {p : ι} {j : ℕ} {inside : Bool} {value : ℤ} {sleeping : Holder}
    (hp : (s.place p).counted = true) (huses : (s.place p).uses = some j) (hlocks : (s.place p).locks = false)
    (hunit : (if inside then (1 : ℤ) else 0) = (s.place p).owes j semaphore - value)
    (hsleep : sleeping = .waiting j ∧ (s.place p).hasUnit j = false ∨ sleeping = s.place p)
    (ht : s.attempt p j (opOp value) (.counts j inside) sleeping .lost = some t) : t.Kept initval := by
  have hundone : SemSet.Undone (opOp value) := fun b hb => by
    obtain rfl := List.mem_singleton.mp hb
    exact .inr rfl
  have htotal : ∀ k, SemSet.total k (opOp value) = if semaphore = k then value else 0 := fun k => by
    simp [SemSet.total, opOp]
  obtain ⟨S, hset⟩ := h.find_of_uses huses
  refine h.attempt ht hundone (fun k => ?_) (.inl rfl) rfl (by simp) (by simp)
    (fun S T hS hT => taken_other hundone (by rw [htotal]; simp) hS hT)
    (fun _ _ _ hno _ => by rw [hp] at hno; cases hno) (fun hne => ?_)
    (fun hfind => by rw [find_of_set hset] at hfind; cases hfind)
  · rw [htotal]
    cases k with
    | semaphore => simpa [Holder.owes, Holder.hasUnit] using hunit
    | count => simp only [Holder.owes, hp, reduceCtorEq, if_false, sub_zero]; rfl
    | lock => simp only [Holder.owes, hlocks, reduceCtorEq, if_false, sub_zero]; rfl
  · rcases hsleep with ⟨rfl, hno⟩ | rfl
    · refine ⟨fun k => ?_, rfl, rfl, by simp⟩
      cases k with
      | semaphore => simp only [Holder.owes, hno]; rfl
      | count => simp only [Holder.owes, hp]; rfl
      | lock => simp only [Holder.owes, hlocks]; rfl
    · exact absurd rfl hne

theorem semop_step (h : s.Kept initval) {p : ι} (hc : s.Timely (.semop p))
    (ht : s.step initval (.semop p) = some t) : t.Kept initval := by
  simp only [step] at ht
  split at ht
  · next j hp => exact h.lock_step (.inl hp) (fun _ => rfl) ht
  · next j hp =>
    refine h.lock_step (.inr hp) (fun hfind => ?_) ht
    obtain ⟨S, hset⟩ := h.find_of_uses (p := p) (j := j) (by rw [hp]; rfl)
    rw [find_of_set hset] at hfind
    cases hfind
  · next j hp =>
    obtain ⟨S, hset⟩ := h.find_of_uses (p := p) (j := j) (by rw [hp]; rfl)
    refine h.attempt ht (by decide) (fun k => ?_) (.inl rfl) rfl (by simp) (by simp)
      (fun S T hS hT => taken_other (by decide) (by decide) hS hT) (fun S T hzero _ hT => ?_)
      (fun hne => absurd hp hne) (fun hfind => by rw [find_of_set hset] at hfind; cases hfind)
    · rw [hp]
      cases k <;> rfl
    · rw [opEndcreate, SemSet.semop_sub_eq_none (by decide) (by rw [hzero]; decide)] at hT
      cases hT
  · next j b hp =>
    have hfind : s.find j ≠ none := by
      cases b with
      | false => exact hc j hp
      | true =>
        obtain ⟨S, hset⟩ := h.find_of_uses (p := p) (j := j) (by rw [hp]; rfl)
        simp [find_of_set hset]
    refine h.attempt ht (by decide) (fun k => ?_) (.inl rfl) rfl (by simp) (by simp)
      (fun S T hS hT => taken_other (by decide) (by decide) hS hT) (fun S T hzero _ hT => ?_)
      (fun _ => ⟨fun k => ?_, rfl, rfl, by simp⟩) (fun hnone => absurd hnone hfind)
    · rw [hp]
      cases k <;> rfl
    · rw [opOpen, SemSet.semop_sub_eq_none (by decide) (by rw [hzero]; decide)] at hT
      cases hT
    · rw [hp]
      cases k <;> rfl
  · next j hp =>
    exact h.unit_step (by rw [hp]; rfl) (by rw [hp]; rfl) (by rw [hp]; rfl) (by rw [hp]; rfl)
      (.inr hp.symm) ht
  · next j b hp => exact h.close_step (.inr hp) ht
  · next j b hp =>
    obtain ⟨S, hset⟩ := h.find_of_uses (p := p) (j := j) (by rw [hp]; rfl)
    refine h.attempt ht (by decide) (fun k => ?_) ?_ ?_ ?_ ?_
      (fun S T hS hT => taken_other (by decide) (by decide) hS hT)
      (fun S T _ _ _ => ⟨by decide, by decide, ?_⟩)
      (fun hne => absurd hp hne) (fun hfind => by rw [find_of_set hset] at hfind; cases hfind)
    · rw [hp]
      cases b <;> cases k <;>
        simp [Holder.owes, Holder.locks, Holder.counted, Holder.hasUnit, SemSet.total, opUnlock]
    · exact .inr (by cases b <;> rfl)
    · cases b <;> rfl
    · cases b <;> simp
    · cases b <;> simp
    · cases b <;> simp
  · cases ht

theorem getval_step (h : s.Kept initval) {p : ι} (hc : s.Timely (.getval p))
    (ht : s.step initval (.getval p) = some t) : t.Kept initval := by
  simp only [step] at ht
  split at ht
  · next j hp =>
    obtain ⟨S, hset⟩ := h.find_of_uses (p := p) (j := j) (by rw [hp]; rfl)
    have hkept := h.held j S hset
    rw [find_of_set hset] at ht
    obtain rfl := Option.some.inj ht
    refine h.stay (by simp) (by simp) (fun hn => by rw [hset] at hn; cases hn) fun id S' hset' => ?_
    obtain ⟨rfl, rfl⟩ := Prod.mk.inj (Option.some.inj (hset.symm.trans hset'))
    refine ⟨fun k => ?_, fun i hi => ?_, ?_⟩
    · rw [hp]
      split_ifs <;> cases k <;> rfl
    · split_ifs at hi <;> exact (Option.some.inj hi).symm
    · split_ifs with hzero
      · have hbl := hkept.blank_of_none hzero (hc j S hp (find_of_set hset) hzero)
        exact .inr (hbl.move (fun _ _ => rfl) (fun _ _ _ => rfl) (by simp) (by simp) p)
      · rcases hkept.phase with hup | hbl
        · exact .inl (hup.move (fun _ => rfl) rfl p)
        · exact absurd hbl.zero hzero
  · next j b hp =>
    obtain ⟨S, hset⟩ := h.find_of_uses (p := p) (j := j) (by rw [hp]; rfl)
    have hkept := h.held j S hset
    have hle : ¬ bigCount < S.val count := by
      rcases hkept.phase with hup | hbl
      · have hcount := hup.users
        have hsum : 0 ≤ ∑ q, S.adj q count := Finset.sum_nonneg fun q _ => by
          rw [hkept.adj]
          exact Holder.owes_nonneg j _ (by decide)
        simp only [SemSet.balance] at hcount
        omega
      · rw [hbl.zero]
        exact Nat.not_lt_zero _
    rw [find_of_set hset] at ht
    simp only [if_neg hle] at ht
    obtain rfl := Option.some.inj ht
    refine h.stay (by simp) (by simp) (fun hn => by rw [hset] at hn; cases hn) fun id S' hset' => ?_
    obtain ⟨rfl, rfl⟩ := Prod.mk.inj (Option.some.inj (hset.symm.trans hset'))
    refine ⟨fun k => ?_, fun i hi => (Option.some.inj hi).symm, ?_⟩
    · rw [hp]
      split_ifs <;> cases k <;> rfl
    · rcases hkept.phase with hup | hbl
      · exact .inl (hup.move (fun _ => rfl) rfl p)
      · exact .inr (hbl.move (fun _ _ => rfl) (fun _ _ _ => rfl) (by simp) (by simp) p)
  · cases ht

/-- A set is given its values by the process that has the lock. -/
theorem setval_step (h : s.Kept initval) {p : ι} (ht : s.step initval (.setval p) = some t) :
    t.Kept initval := by
  simp only [step] at ht
  split at ht
  · next j hp =>
    obtain ⟨S, hset⟩ := h.find_of_uses (p := p) (j := j) (by rw [hp]; rfl)
    have hkept := h.held j S hset
    rw [find_of_set hset] at ht
    obtain rfl := Option.some.inj ht
    have hbl : Blank initval s.place S := by
      refine hkept.phase.resolve_left fun hup => ?_
      have hdone := hup.done p
      rw [hp] at hdone
      cases hdone
    have hadj : ∀ q, (S.setval semaphore initval).adj q = S.adj q := fun q => by
      rw [SemSet.setval, Function.update_eq_self_iff, hbl.adj q semaphore (by decide)]
    refine h.replace (by simp) (by simp) (hkept.follow (fun q _ => hadj q) (fun k => ?_)
      (fun i hi => (Option.some.inj hi).symm) ?_ hkept.taken (.inr ⟨hbl.zero, fun q k hk => ?_, fun q i => ?_,
        fun q i _ => by simp [SemSet.setval]⟩))
    · rw [hadj, hkept.adj, hp]
      cases k <;> rfl
    · rw [SemSet.balance_setval_of_ne S (by decide), hkept.even]
    · rw [hadj, hbl.adj q k hk]
    · exact forall_update (P := fun y => y ≠ .creating i .ready) (fun r => hbl.ready r i) (by simp) p q
  · next j hp =>
    obtain ⟨S, hset⟩ := h.find_of_uses (p := p) (j := j) (by rw [hp]; rfl)
    have hkept := h.held j S hset
    rw [find_of_set hset] at ht
    obtain rfl := Option.some.inj ht
    have hbl : Blank initval s.place S := by
      refine hkept.phase.resolve_left fun hup => ?_
      have hdone := hup.done p
      rw [hp] at hdone
      cases hdone
    have hadj : ∀ q, (S.setval count bigCount).adj q = S.adj q := fun q => by
      rw [SemSet.setval, Function.update_eq_self_iff, hbl.adj q count (by decide)]
    refine h.replace (by simp) (by simp) (hkept.follow (fun q _ => hadj q) (fun k => ?_)
      (fun i hi => (Option.some.inj hi).symm) ?_ hkept.taken (.inl ⟨SemSet.balance_setval S count bigCount,
        ?_, fun q => ?_⟩))
    · rw [hadj, hkept.adj, hp]
      cases k <;> rfl
    · rw [SemSet.balance_setval_of_ne S (by decide), hkept.even]
    · have hsum : ∑ q, S.adj q semaphore = 0 :=
        Finset.sum_eq_zero fun q _ => hbl.adj q semaphore (by decide)
      rw [SemSet.balance_setval_of_ne S (by decide), SemSet.balance, hsum, hbl.valued p j hp, add_zero]
    · rcases eq_or_ne q p with rfl | hq
      · rw [Function.update_self]
        rfl
      · rw [Function.update_of_ne hq]
        cases hx : s.place q with
        | creating i stage =>
          cases hi : (Holder.creating i stage).initialises with
          | false => rfl
          | true =>
            refine absurd (hkept.locked (p := q) (q := p) ?_ (by rw [hp]; rfl)) hq
            rw [hx]
            cases stage <;> first | rfl | cases hi
        | _ => rfl
  · cases ht

/-- The last one takes the set away. -/
theorem remove_step (h : s.Kept initval) {p : ι} (hc : s.Timely (.remove p))
    (ht : s.step initval (.remove p) = some t) : t.Kept initval := by
  simp only [step] at ht
  split at ht
  · next j b hp =>
    obtain ⟨S, hset⟩ := h.find_of_uses (p := p) (j := j) (by rw [hp]; rfl)
    rw [find_of_set hset] at ht
    obtain rfl := Option.some.inj ht
    have hothers : ∀ q, q ≠ p → (s.place q).woken = s.place q := fun q hq =>
      Holder.woken_of_uses (hc j b q hp hq)
    have hplace : Function.update (fun q => (s.place q).woken) p (if b then .left j else .outside) =
        Function.update s.place p (if b then .left j else .outside) := by
      funext q
      rcases eq_or_ne q p with rfl | hq
      · rw [Function.update_self, Function.update_self]
      · rw [Function.update_of_ne hq, Function.update_of_ne hq, hothers q hq]
    rw [hplace]
    refine ⟨fun q => ?_, fun q i => ?_, fun _ q => ?_, fun id S' hs => by cases hs⟩
    · exact forall_update (P := fun y => y ≠ .lost) h.found (by cases b <;> simp) p q
    · refine forall_update (P := fun y => y = .left i → i < s.nextId) (fun r => h.left r i) (fun hi => ?_) p q
      cases b with
      | false => cases hi
      | true =>
        cases hi
        exact (h.held j S hset).old
    · rcases eq_or_ne q p with rfl | hq
      · simp only [Function.update_self]
        cases b <;> rfl
      · simp only [Function.update_of_ne hq]
        exact hc j b q hp hq
  · cases ht

/-- A process ends: everything it has goes back. -/
theorem exit_step (h : s.Kept initval) {p : ι} (ht : s.step initval (.exit p) = some t) :
    t.Kept initval := by
  obtain rfl := Option.some.inj ht
  cases hset : s.set with
  | none =>
    refine ⟨fun q => ?_, fun q j => ?_, fun _ q => ?_, fun id S hs => by cases hs⟩
    · exact forall_update (P := fun y => y ≠ .lost) h.found (by simp) p q
    · exact forall_update (P := fun y => y = .left j → j < s.nextId) (fun r => h.left r j) (by simp) p q
    · exact forall_update (P := fun y => y.uses = none) (h.empty hset) rfl p q
  | some x =>
    obtain ⟨id, S⟩ := x
    have hkept := h.held id S hset
    have hvalue : ∀ k, 0 ≤ (S.val k : ℤ) + S.adj p k := fun k => by
      cases k with
      | lock =>
        have hnonpos : ∀ r, S.adj r lock ≤ 0 := fun r => by
          rw [hkept.adj]
          exact Holder.owes_lock_nonpos id _
        have hle := SemSet.sum_le_sum_adj hnonpos {p}
        have heven := hkept.even
        rw [Finset.sum_singleton] at hle
        simp only [SemSet.balance] at heven
        omega
      | semaphore =>
        rw [hkept.adj]
        have := Holder.owes_nonneg id (s.place p) (k := semaphore) (by decide)
        omega
      | count =>
        rw [hkept.adj]
        have := Holder.owes_nonneg id (s.place p) (k := count) (by decide)
        omega
    have hself : (S.exit p).adj p = fun _ => 0 := by simp [SemSet.exit]
    have hothers : ∀ q, q ≠ p → (S.exit p).adj q = S.adj q := fun q hq => by
      simp [SemSet.exit, Function.update_of_ne hq]
    have hlockval : ((S.exit p).val lock : ℤ) = S.val lock + S.adj p lock :=
      Int.toNat_of_nonneg (hvalue lock)
    refine h.replace (by simp) (by simp) (hkept.follow hothers (fun k => ?_) (by simp [Holder.uses]) ?_ ?_ ?_)
    · rw [hself, Holder.owes_outside]
    · rw [SemSet.balance_exit (hvalue lock), hkept.even]
    · have hnonpos : S.adj p lock ≤ 0 := by
        rw [hkept.adj]
        exact Holder.owes_lock_nonpos id _
      have htaken := hkept.taken
      have hle : (S.exit p).val lock ≤ 1 := by omega
      exact hle
    · rcases hkept.phase with hup | hbl
      · exact .inl (hup.move (fun k => SemSet.balance_exit (hvalue k)) rfl p)
      · refine .inr (hbl.move (fun k hk => ?_) (fun q k hk => ?_) (by simp) (by simp) p)
        · simp [SemSet.exit, hbl.adj p k hk]
        · rcases eq_or_ne q p with rfl | hq
          · rw [hself, hbl.adj q k hk]
          · rw [hothers q hq]

end Kept

/-- Every action that comes in time keeps the accounts. -/
theorem kept_step (s : Sems ι) (a : SemCall ι) (t : Sems ι) (h : s.Kept initval) (ha : s.Timely a)
    (ht : s.step initval a = some t) : t.Kept initval := by
  cases a with
  | create p => exact h.create_step ht
  | «open» p => exact h.open_step ht
  | semop p => exact h.semop_step ha ht
  | getval p => exact h.getval_step ha ht
  | setval p => exact h.setval_step ht
  | wait p =>
    simp only [step] at ht
    split at ht
    · next j hp =>
      exact h.unit_step (by rw [hp]; rfl) (by rw [hp]; rfl) (by rw [hp]; rfl) (by rw [hp]; rfl)
        (.inl ⟨rfl, by rw [hp]; rfl⟩) ht
    · cases ht
  | signal p =>
    simp only [step] at ht
    split at ht
    · next j hp =>
      exact h.unit_step (by rw [hp]; rfl) (by rw [hp]; rfl) (by rw [hp]; rfl)
        (by rw [hp]; simp [Holder.owes, Holder.hasUnit]) (.inr hp.symm) ht
    · cases ht
  | close p =>
    simp only [step] at ht
    split at ht
    · next j b hp => exact h.close_step (.inl hp) ht
    · cases ht
  | remove p => exact h.remove_step ha ht
  | exit p => exact h.exit_step ht

omit [DecidableEq ι] in
theorem kept_start : (start : Sems ι).Kept initval :=
  ⟨fun _ => by simp [start], fun _ _ => by simp [start], fun _ _ => rfl, fun _ _ h => by cases h⟩

omit [DecidableEq ι] in
/-- Adjustments of 0 and 1 count the processes. -/
theorem sum_adj_eq_card {S : SemSet Member ι} {k : Member} {f : ι → Bool}
    (h : ∀ q, S.adj q k = if f q then 1 else 0) : ∑ q, S.adj q k = (Finset.univ.filter fun q => f q).card := by
  rw [Finset.sum_congr rfl fun q _ => h q]
  simp

theorem Kept.sound {s : Sems ι} (h : s.Kept initval) : s.Sound initval := by
  refine ⟨h.found, fun q j hq => h.find_of_uses hq, fun p q hp hq => ?_, fun p q hp hq => ?_,
    fun id S hset hex => ?_, fun id S hset hex => ?_⟩
  · obtain ⟨j, hj⟩ : ∃ j, (s.place p).uses = some j := by
      cases hx : s.place p with
      | creating j stage =>
        rw [hx] at hp
        cases stage <;> simp [Holder.uses, Holder.locks] at hp ⊢
      | closing j b stage => exact ⟨j, rfl⟩
      | _ => rw [hx] at hp; cases hp
    obtain ⟨S, hset⟩ := h.find_of_uses hj
    exact (h.held j S hset).locked hp hq
  · obtain ⟨j, hj⟩ : ∃ j, (s.place q).uses = some j := by
      cases hx : s.place q with
      | counts j inside => exact ⟨j, rfl⟩
      | waiting j => exact ⟨j, rfl⟩
      | closing j b stage => exact ⟨j, rfl⟩
      | _ => rw [hx] at hq; cases hq
    obtain ⟨S, hset⟩ := h.find_of_uses hj
    have hdone := ((h.held j S hset).setUp_of_counted hq).done p
    rw [hp] at hdone
    cases hdone
  · obtain ⟨q, hq⟩ := hex
    have hkept := h.held id S hset
    have hcount := (hkept.setUp_of_counted hq).users
    rw [SemSet.balance, sum_adj_eq_card fun r => hkept.adj r count] at hcount
    exact_mod_cast hcount
  · obtain ⟨q, hq⟩ := hex
    have hkept := h.held id S hset
    have hunits := (hkept.setUp_of_counted hq).units
    rw [SemSet.balance, sum_adj_eq_card fun r => hkept.adj r semaphore] at hunits
    exact_mod_cast hunits

/-- An action that comes too early or too late is seen at once. -/
theorem untimely_step (s : Sems ι) (a : SemCall ι) (t : Sems ι) (h : s.Kept initval) (ha : ¬ s.Timely a)
    (ht : s.step initval a = some t) : ¬ t.Sound initval := by
  intro hsound
  cases a with
  | semop p =>
    simp only [Timely, not_forall, not_not] at ha
    obtain ⟨j, hp, hfind⟩ := ha
    simp only [step, hp] at ht
    rcases attempt_cases ht with ⟨S, T, hset, -, -⟩ | ⟨⟨S, hset⟩, -, -⟩ | ⟨-, rfl⟩
    · rw [find_of_set hset] at hfind
      cases hfind
    · rw [find_of_set hset] at hfind
      cases hfind
    · exact hsound.found p (Function.update_self ..)
  | getval p =>
    simp only [Timely, not_forall] at ha
    obtain ⟨j, S, hp, hfind, hzero, q, hq⟩ := ha
    simp only [step, hp, hfind, if_pos hzero] at ht
    obtain rfl := Option.some.inj ht
    have hne : q ≠ p := by
      rintro rfl
      simp [hp, Holder.counted] at hq
    refine hsound.alone p q ?_ ?_
    · simp [move, Holder.initialises]
    · simpa [move, Function.update_of_ne hne] using hq
  | remove p =>
    simp only [Timely, not_forall] at ha
    obtain ⟨j, b, q, hp, hne, hq⟩ := ha
    obtain ⟨S, hset⟩ := h.find_of_uses (p := p) (j := j) (by rw [hp]; rfl)
    simp only [step, hp, find_of_set hset] at ht
    obtain rfl := Option.some.inj ht
    rcases (s.place q).woken_cases with hlost | hsame
    · exact hsound.found q (by simp [Function.update_of_ne hne, hlost])
    · obtain ⟨i, hi⟩ := Option.ne_none_iff_exists'.mp hq
      obtain ⟨S', hset'⟩ := hsound.live q i (by simp [Function.update_of_ne hne, hsame, hi])
      cases hset'
  | _ => exact ha trivial

/-- The semaphore works for all its processes in every state of a run, whoever ends when, if and only if
    every action of the run comes in time. -/
theorem semaphore_sound_iff (as : List (SemCall ι)) (t : Sems ι)
    (h : runWith (step initval) start as = some t) :
    Always (step initval) (Sound initval) (start : Sems ι) as ↔ Meets (step initval) Timely (start : Sems ι) as :=
  always_iff_meets kept_step (fun _ => Kept.sound) untimely_step kept_start h

/-- One process sets the semaphore up while another waits for the lock. -/
def twoCreate : List (SemCall Bool) := [.create false, .semop false, .create true, .semop true]

/-- Both then have their sections, the second waiting for the first, and close the semaphore. -/
def twoSections : List (SemCall Bool) :=
  twoCreate ++ [.getval false, .setval false, .setval false, .semop false, .semop true, .getval true, .semop true,
    .wait false, .wait true, .signal false, .semop true, .signal true,
    .close false, .getval false, .semop false, .close true, .getval true, .remove true]

theorem semaphore_sound_iff_two : ∃ t, runWith (step 1) (start : Sems Bool) twoSections = some t ∧
    t.set.isNone = true ∧
    (Always (step 1) (Sound 1) start twoSections ↔ Meets (step 1) Timely start twoSections) :=
  ⟨_, rfl, rfl, semaphore_sound_iff twoSections _ rfl⟩

/-- The second process sleeps in `op_lock` while the first one closes the semaphore and removes it. -/
example : ∃ t, runWith (step 1) (start : Sems Bool) [.create false, .semop false, .getval false,
    .setval false, .setval false, .semop false, .close false, .create true, .semop true, .getval false,
    .remove false] = some t ∧ t.place true = .lost := ⟨_, rfl, rfl⟩

/-! ### Waiting -/

/-- A process sleeps in a `semop` that still cannot be done. -/
def Blocked (initval : ℕ) (s : Sems ι) (p : ι) : Prop :=
  (∃ j, s.place p = .creating j .asleep ∨ s.place p = .creating j .ready ∨ s.place p = .waiting j ∨
    ∃ b, s.place p = .closing j b .asleep ∨ s.place p = .closing j b .notLast) ∧
  s.step initval (.semop p) = none

/-- A process can take the next step of the call or the section it is in. -/
def GoesOn (initval : ℕ) (s : Sems ι) (q : ι) : Prop :=
  ∃ a ∈ [SemCall.semop q, .getval q, .setval q, .signal q, .remove q], s.step initval a ≠ none

omit [Fintype ι] in
theorem attempt_ne_none {s : Sems ι} {p : ι} {j : ℕ} {S : SemSet Member ι} (hset : s.set = some (j, S))
    {bs : List (SemBuf Member)} (hS : S.semop p bs ≠ none) (ok sleeping gone : Holder) :
    s.attempt p j bs ok sleeping gone ≠ none := by
  obtain ⟨T, hT⟩ := Option.ne_none_iff_exists'.mp hS
  simp [attempt, hset, hT]

omit [DecidableEq ι] in
/-- The lock is taken while its value is not 0. -/
theorem KeptSet.exists_locked {place : ι → Holder} {nextId id : ℕ} {S : SemSet Member ι}
    (h : KeptSet initval place nextId id S) (hval : S.val lock ≠ 0) : ∃ q, (place q).locks = true := by
  by_contra hno
  have hsum : ∑ q, S.adj q lock = 0 := Finset.sum_eq_zero fun q _ => by
    rw [h.adj]
    have hq : (place q).locks = false := by simpa using fun hl => hno ⟨q, hl⟩
    simp [Holder.owes, hq]
  have heven := h.even
  simp only [SemSet.balance, hsum] at heven
  omega

/-- The lock is not 0 while it is taken. -/
theorem KeptSet.lock_pos {place : ι → Holder} {nextId id : ℕ} {S : SemSet Member ι}
    (h : KeptSet initval place nextId id S) {q : ι} (hq : (place q).locks = true) : 0 < S.val lock := by
  rcases Nat.eq_zero_or_pos (S.val lock) with hzero | hpos
  · rw [h.free hzero q] at hq
    cases hq
  · exact hpos

omit [DecidableEq ι] in
/-- `[1]` is not 0 in a set with values while fewer than `BIGCOUNT` processes are counted. -/
theorem KeptSet.count_pos {place : ι → Holder} {nextId id : ℕ} {S : SemSet Member ι}
    (h : KeptSet initval place nextId id S) (hup : SetUp initval place S)
    (hfew : (Finset.univ.filter fun q => (place q).counted).card < bigCount) : 0 < S.val count := by
  have hcount := hup.users
  rw [SemSet.balance, sum_adj_eq_card fun r => h.adj r count] at hcount
  omega

/-- Whoever has the lock goes on. -/
theorem Kept.locker_goesOn {s : Sems ι} (h : s.Kept initval)
    (hfew : (Finset.univ.filter fun q => (s.place q).counted).card < bigCount) {q : ι}
    (hq : (s.place q).locks = true) : s.GoesOn initval q := by
  cases hx : s.place q with
  | creating j stage =>
    rw [hx] at hq
    have huses : (s.place q).uses = some j := by
      rw [hx]
      cases stage <;> first | rfl | cases hq
    obtain ⟨S, hset⟩ := h.find_of_uses huses
    have hkept := h.held j S hset
    have hlock := hkept.lock_pos (q := q) (by rw [hx]; exact hq)
    cases stage with
    | gotten => cases hq
    | asleep => cases hq
    | locked => exact ⟨.getval q, by simp, by simp [step, hx, find_of_set hset]⟩
    | fresh => exact ⟨.setval q, by simp, by simp [step, hx, find_of_set hset]⟩
    | valued => exact ⟨.setval q, by simp, by simp [step, hx, find_of_set hset]⟩
    | ready =>
      have hup : SetUp initval s.place S := hkept.phase.resolve_right fun hbl => hbl.ready q j hx
      have hcount := hkept.count_pos hup hfew
      have htwo : ¬ (S.val count : ℤ) - 1 < 0 := by omega
      refine ⟨.semop q, by simp, ?_⟩
      simp only [step, hx]
      refine attempt_ne_none hset ?_ _ _ _
      simp [opEndcreate, SemSet.semop, SemSet.apply, SemSet.add, ← sub_eq_add_neg, htwo, hlock.ne']
  | closing j b stage =>
    rw [hx] at hq
    obtain ⟨S, hset⟩ := h.find_of_uses (p := q) (j := j) (by rw [hx]; rfl)
    have hkept := h.held j S hset
    have hlock := hkept.lock_pos (q := q) (by rw [hx]; exact hq)
    cases stage with
    | asleep => cases hq
    | locked =>
      refine ⟨.getval q, by simp, ?_⟩
      simp only [step, hx, find_of_set hset]
      split_ifs <;> simp
    | last => exact ⟨.remove q, by simp, by simp [step, hx, find_of_set hset]⟩
    | notLast =>
      have hone : ¬ (S.val lock : ℤ) - 1 < 0 := by omega
      refine ⟨.semop q, by simp, ?_⟩
      simp only [step, hx]
      refine attempt_ne_none hset ?_ _ _ _
      simp [opUnlock, SemSet.semop, SemSet.apply, ← sub_eq_add_neg, hone]
  | _ => rw [hx] at hq; cases hq

/-- Whoever has a unit goes on, waits for a lock that somebody goes on with, or is on its way out. -/
theorem Kept.inside_goesOn {s : Sems ι} (h : s.Kept initval)
    (hfew : (Finset.univ.filter fun q => (s.place q).counted).card < bigCount) {id : ℕ}
    {S : SemSet Member ι} (hset : s.set = some (id, S)) {q : ι} (hq : (s.place q).hasUnit id = true) :
    ∃ r, s.GoesOn initval r ∨ ∃ j, s.place r = .left j := by
  cases hx : s.place q with
  | counts j inside =>
    simp only [hx, Holder.hasUnit, Bool.and_eq_true, beq_iff_eq] at hq
    obtain ⟨rfl, rfl⟩ := hq
    refine ⟨q, .inl ⟨.signal q, by simp, ?_⟩⟩
    simp only [step, hx]
    refine attempt_ne_none hset ?_ _ _ _
    have hone : ¬ (S.val semaphore : ℤ) + 1 < 0 := by omega
    simp [opOp, SemSet.semop, SemSet.apply, hone]
  | closing j inside stage =>
    cases hstage : stage with
    | asleep =>
      simp only [hx, Holder.hasUnit, Bool.and_eq_true, beq_iff_eq] at hq
      obtain ⟨rfl, rfl⟩ := hq
      rcases Nat.eq_zero_or_pos (S.val lock) with hzero | hpos
      · refine ⟨q, .inl ⟨.semop q, by simp, ?_⟩⟩
        simp only [step, hx, hstage]
        refine attempt_ne_none hset ?_ _ _ _
        have hone : ¬ (S.val count : ℤ) + 1 < 0 := by omega
        simp [opClose, SemSet.semop, SemSet.apply, SemSet.add, hzero, hone]
      · obtain ⟨r, hr⟩ := (h.held j S hset).exists_locked hpos.ne'
        exact ⟨r, .inl (h.locker_goesOn hfew hr)⟩
    | _ => exact ⟨q, .inl (h.locker_goesOn hfew (by rw [hx, hstage]; rfl))⟩
  | left j => exact ⟨q, .inr ⟨j, hx⟩⟩
  | _ => rw [hx] at hq; cases hq

/-- While fewer than `BIGCOUNT` processes are counted nobody waits for nothing: whenever a process is
    blocked in `sem_create`, `sem_wait` or `sem_close`, another one goes on or is on its way out. -/
theorem semaphore_not_stuck (hinit : 0 < initval) {as : List (SemCall ι)} {t : Sems ι}
    (h : runWith (step initval) start as = some t)
    (htimely : Meets (step initval) Timely (start : Sems ι) as)
    (hfew : (Finset.univ.filter fun q => (t.place q).counted).card < bigCount) {p : ι}
    (hp : t.Blocked initval p) : ∃ q, t.GoesOn initval q ∨ ∃ j, t.place q = .left j := by
  have hkept : t.Kept initval :=
    always_of_meets (P := Kept initval) kept_step (fun _ hk => hk) kept_start htimely as t (List.prefix_refl as) h
  obtain ⟨⟨j, hplace⟩, hnone⟩ := hp
  -- the lock makes `op_lock` and `op_close` wait, and its owner goes on
  have hwaits : ∀ (S : SemSet Member ι), t.set = some (j, S) → S.val lock ≠ 0 →
      ∃ q, t.GoesOn initval q ∨ ∃ j, t.place q = .left j := fun S hset hval => by
    obtain ⟨q, hq⟩ := (hkept.held j S hset).exists_locked hval
    exact ⟨q, .inl (hkept.locker_goesOn hfew hq)⟩
  rcases hplace with hp | hp | hp | ⟨b, hp | hp⟩
  · obtain ⟨S, hset⟩ := hkept.find_of_uses (p := p) (j := j) (by rw [hp]; rfl)
    refine hwaits S hset fun hval => ?_
    simp only [step, hp] at hnone
    exact attempt_ne_none hset (by simp [opLock, SemSet.semop, SemSet.apply, hval]) _ _ _ hnone
  · exact ⟨p, .inl (hkept.locker_goesOn hfew (by rw [hp]; rfl))⟩
  · obtain ⟨S, hset⟩ := hkept.find_of_uses (p := p) (j := j) (by rw [hp]; rfl)
    have hkeptSet := hkept.held j S hset
    have hzero : S.val semaphore = 0 := by
      by_contra hne
      simp only [step, hp] at hnone
      refine attempt_ne_none hset ?_ _ _ _ hnone
      have hone : ¬ (S.val semaphore : ℤ) - 1 < 0 := by omega
      simp [opOp, SemSet.semop, SemSet.apply, ← sub_eq_add_neg, hone]
    have hunits := (hkeptSet.setUp_of_counted (q := p) (by rw [hp]; rfl)).units
    rw [SemSet.balance, sum_adj_eq_card fun r => hkeptSet.adj r semaphore, hzero] at hunits
    have hpos : 0 < (Finset.univ.filter fun q => (t.place q).hasUnit j).card := by omega
    obtain ⟨q, hq⟩ := Finset.card_pos.mp hpos
    exact hkept.inside_goesOn hfew hset (Finset.mem_filter.mp hq).2
  · obtain ⟨S, hset⟩ := hkept.find_of_uses (p := p) (j := j) (by rw [hp]; rfl)
    refine hwaits S hset fun hval => ?_
    simp only [step, hp] at hnone
    have hone : ¬ (S.val count : ℤ) + 1 < 0 := by omega
    exact attempt_ne_none hset (by simp [opClose, SemSet.semop, SemSet.apply, SemSet.add, hval, hone]) _ _ _ hnone
  · exact ⟨p, .inl (hkept.locker_goesOn hfew (by rw [hp]; rfl))⟩

theorem twoCreate_timely : Meets (step 1) Timely (start : Sems Bool) twoCreate := by
  refine .cons trivial fun u hu => .cons ?_ fun v hv => .cons trivial fun w hw => .cons ?_ fun _ _ => .nil
  · obtain rfl := Option.some.inj hu
    rintro j ⟨⟩
  · obtain rfl := Option.some.inj hu
    obtain rfl := Option.some.inj hv
    obtain rfl := Option.some.inj hw
    rintro j ⟨⟩

theorem semaphore_not_stuck_two : ∃ t, runWith (step 1) (start : Sems Bool) twoCreate = some t ∧
    t.Blocked 1 true ∧ ∃ q, t.GoesOn 1 q ∨ ∃ j, t.place q = .left j := by
  refine ⟨_, rfl, (fun hb => ⟨hb, semaphore_not_stuck one_pos rfl twoCreate_timely (by decide) hb⟩)
    ⟨⟨0, .inl rfl⟩, ?_⟩⟩
  simp [step, move, semget, start, attempt, opLock, SemSet.semop, SemSet.apply, SemSet.add, SemSet.zero]

end Sems

end NetProg.Multi
