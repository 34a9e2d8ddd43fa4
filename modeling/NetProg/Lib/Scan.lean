import Mathlib.Data.List.Basic

/-! A scan over a list that carries a state and stops where it has no next state.

    `passed` is what it comes past. `Clear` says that nothing it comes to is wrong, by recursion along the scan; `clear_iff` says the
    same of the elements of the list, each with those in front of it. -/

namespace NetProg.Scan

variable {T α : Type} (next : T → α → Option T) (Fine : List α → α → Prop) (Closed : List α → Prop)

/-- The scan comes past all of these. -/
def Passes (t : T) (l : List α) : Prop := (l.foldlM next t).isSome = true

instance instDecidablePasses (t : T) (l : List α) : Decidable (Passes next t l) :=
  inferInstanceAs (Decidable (_ = true))

/-- The elements the scan comes past. -/
def passed : T → List α → List α
  | _, [] => []
  | t, x :: l =>
    match next t x with
    | none => []
    | some t' => x :: passed t' l

/-- What the scan comes to is fine, behind the elements `done`; so is the list if it gets to its end. -/
def Clear : T → List α → List α → Prop
  | _, done, [] => Closed done
  | t, done, x :: l => Fine done x ∧ ∀ t', next t x = some t' → Clear t' (done ++ [x]) l

theorem passes_nil (t : T) : Passes next t [] := rfl

variable {next} in
theorem passes_cons {t : T} {x : α} {l : List α} :
    Passes next t (x :: l) ↔ ∃ t', next t x = some t' ∧ Passes next t' l := by
  rw [Passes, List.foldlM_cons]
  cases next t x <;> simp [Passes]

variable {next} in
theorem passes_cons_none {t : T} {x : α} {l : List α} (h : next t x = none) :
    ¬ Passes next t (x :: l) := by
  simp [passes_cons, h]

variable {next} in
theorem passes_cons_some {t t' : T} {x : α} {l : List α} (h : next t x = some t') :
    Passes next t (x :: l) ↔ Passes next t' l := by
  simp [passes_cons, h]

variable {next} in
theorem Passes.of_append {t : T} {l l' : List α} (h : Passes next t (l ++ l')) : Passes next t l := by
  induction l generalizing t with
  | nil => exact passes_nil next t
  | cons x l ih =>
    obtain ⟨t', ht', hrest⟩ := passes_cons.mp h
    exact passes_cons.mpr ⟨t', ht', ih hrest⟩

variable {next} in
theorem passed_cons_none {t : T} {x : α} {l : List α} (h : next t x = none) :
    passed next t (x :: l) = [] := by
  simp [passed, h]

variable {next} in
theorem passed_cons_some {t t' : T} {x : α} {l : List α} (h : next t x = some t') :
    passed next t (x :: l) = x :: passed next t' l := by
  simp [passed, h]

variable {next Fine Closed} in
theorem clear_cons_none {t : T} {done l : List α} {x : α} (h : next t x = none) :
    Clear next Fine Closed t done (x :: l) ↔ Fine done x := by
  simp [Clear, h]

variable {next Fine Closed} in
theorem clear_cons_some {t t' : T} {done l : List α} {x : α} (h : next t x = some t') :
    Clear next Fine Closed t done (x :: l) ↔
      Fine done x ∧ Clear next Fine Closed t' (done ++ [x]) l := by
  simp [Clear, h]

theorem clear_iff : ∀ (l : List α) (t : T) (done : List α), Clear next Fine Closed t done l ↔
    (∀ pre x post, l = pre ++ x :: post → Passes next t pre → Fine (done ++ pre) x) ∧
      (Passes next t l → Closed (done ++ l))
  | [], t, done => by simp [Clear, passes_nil]
  | y :: l, t, done => by
    constructor
    · rintro ⟨hy, hrest⟩
      refine ⟨fun pre x post hl hpre => ?_, fun hall => ?_⟩
      · cases pre with
        | nil =>
          obtain ⟨rfl, rfl⟩ := List.cons.inj hl
          rwa [List.append_nil]
        | cons z pre =>
          obtain ⟨rfl, rfl⟩ := List.cons.inj hl
          obtain ⟨t', ht', hpre⟩ := passes_cons.mp hpre
          have h := ((clear_iff _ t' _).mp (hrest t' ht')).1 pre x post rfl hpre
          rwa [List.append_assoc] at h
      · obtain ⟨t', ht', hall⟩ := passes_cons.mp hall
        have h := ((clear_iff l t' _).mp (hrest t' ht')).2 hall
        rwa [List.append_assoc] at h
    · rintro ⟨hfine, hclosed⟩
      refine ⟨?_, fun t' ht' => (clear_iff l t' _).mpr ⟨fun pre x post hl hpre => ?_, fun hall => ?_⟩⟩
      · have h := hfine [] y l rfl (passes_nil ..)
        rwa [List.append_nil] at h
      · have h := hfine (y :: pre) x post (by rw [hl]; rfl) (passes_cons.mpr ⟨t', ht', hpre⟩)
        rwa [List.append_assoc]
      · have h := hclosed (passes_cons.mpr ⟨t', ht', hall⟩)
        rwa [List.append_assoc]

end NetProg.Scan
