import Mathlib.Tactic

/-! Unanchored search for a pattern of character classes, each of them once or repeated.

    The matcher takes as much as it can for a repeated class and gives back one by one; a search takes the first
    position where the pattern matches. A loop that goes on behind each match ends when every match takes
    something. -/

namespace NetProg.Regex

variable {α β : Type*}

/-- `[..]` and `[..]*`. -/
inductive Item (α : Type*) where
  | one (p : α → Bool)
  | many (p : α → Bool)

abbrev Pattern (α : Type*) := List (Item α)

/-- Every character of a word is in the class. -/
def Over (p : α → Bool) (w : List α) : Prop := ∀ c ∈ w, p c = true

/-- The words of the pattern. -/
def Accepts : Pattern α → List α → Prop
  | [], w => w = []
  | .one p :: r, w => ∃ c v, w = c :: v ∧ p c = true ∧ Accepts r v
  | .many p :: r, w => ∃ u v, w = u ++ v ∧ Over p u ∧ Accepts r v

/-- A match at the beginning of a text, and what stands behind it. -/
abbrev Split (α : Type*) := List α × List α

def Split.push (c : α) (m : Split α) : Split α := (c :: m.1, m.2)

/-- A repeated class, and then what `k` matches: the longest stretch first. -/
def greedy (p : α → Bool) (k : List α → Option (Split α)) : List α → Option (Split α)
  | [] => k []
  | c :: s => if p c then ((greedy p k s).map (Split.push c)).or (k (c :: s)) else k (c :: s)

/-- The match at the beginning of a text. -/
def matchAt : Pattern α → List α → Option (Split α)
  | [], s => some ([], s)
  | .one _ :: _, [] => none
  | .one p :: r, c :: s => if p c then (matchAt r s).map (Split.push c) else none
  | .many p :: r, s => greedy p (matchAt r) s

/-- `regex_search(s, m, pattern)` with `m.str()` and `m.suffix().str()`. -/
def search (r : Pattern α) : List α → Option (Split α)
  | [] => matchAt r []
  | c :: s => (matchAt r (c :: s)).or (search r s)

/-- `while (regex_search(s, m, pattern)) { f(m.str()); s = m.suffix().str(); }`; `none` also when `f` throws. -/
def eachMatch (r : Pattern α) (f : β → List α → Option β) : ℕ → List α → β → Option β
  | 0, _, _ => none
  | fuel + 1, s, b =>
    match search r s with
    | none => some b
    | some m => (f b m.1).bind fun b => eachMatch r f fuel m.2 b

variable {p : α → Bool} {k : List α → Option (Split α)} {r : Pattern α} {s t w x : List α} {c : α}
  {m : Split α}

theorem Over.nil : Over p ([] : List α) := List.forall_mem_nil _

theorem Over.cons (hc : p c = true) (h : Over p w) : Over p (c :: w) := List.forall_mem_cons.mpr ⟨hc, h⟩

/-! ### What a match is -/

theorem greedy_sound (h : greedy p k s = some m) :
    ∃ u v, s = u ++ v ∧ Over p u ∧ ∃ n, k v = some n ∧ m = (u ++ n.1, n.2) := by
  induction s generalizing m with
  | nil => exact ⟨[], [], rfl, Over.nil, m, h, rfl⟩
  | cons c s ih =>
    have hstop : k (c :: s) = some m → ∃ u v, c :: s = u ++ v ∧ Over p u ∧ ∃ n, k v = some n ∧
        m = (u ++ n.1, n.2) := fun hk => ⟨[], c :: s, rfl, Over.nil, m, hk, rfl⟩
    rw [greedy] at h
    split at h
    · rename_i hc
      rcases Option.or_eq_some_iff.mp h with hmore | ⟨-, hk⟩
      · obtain ⟨m', hm', rfl⟩ := Option.map_eq_some_iff.mp hmore
        obtain ⟨u, v, rfl, hu, n, hn, rfl⟩ := ih hm'
        exact ⟨c :: u, v, rfl, hu.cons hc, n, hn, rfl⟩
      · exact hstop hk
    · exact hstop h

theorem matchAt_sound (h : matchAt r s = some m) : s = m.1 ++ m.2 ∧ Accepts r m.1 := by
  induction r generalizing s m with
  | nil =>
    obtain rfl := Option.some.inj h
    exact ⟨rfl, rfl⟩
  | cons i r ih =>
    cases i with
    | one p =>
      cases s with
      | nil => exact nomatch h
      | cons c s =>
        rw [matchAt] at h
        split at h
        · rename_i hc
          obtain ⟨m', hm', rfl⟩ := Option.map_eq_some_iff.mp h
          obtain ⟨rfl, haccepts⟩ := ih hm'
          exact ⟨rfl, c, m'.1, rfl, hc, haccepts⟩
        · exact nomatch h
    | many p =>
      obtain ⟨u, v, rfl, hu, n, hn, rfl⟩ := greedy_sound h
      obtain ⟨rfl, haccepts⟩ := ih hn
      exact ⟨(List.append_assoc ..).symm, u, n.1, rfl, hu, haccepts⟩

/-- A match is a word of the pattern somewhere in the text. -/
theorem search_sound (h : search r s = some m) : ∃ b, s = b ++ (m.1 ++ m.2) ∧ Accepts r m.1 := by
  induction s with
  | nil => exact ⟨[], matchAt_sound h⟩
  | cons c s ih =>
    rcases Option.or_eq_some_iff.mp h with hnow | ⟨-, hlater⟩
    · exact ⟨[], matchAt_sound hnow⟩
    · obtain ⟨b, rfl, haccepts⟩ := ih hlater
      exact ⟨c :: b, rfl, haccepts⟩

/-! ### Where the match is -/

theorem search_of_matchAt (h : matchAt r s = some m) : search r s = some m := by
  cases s with
  | nil => exact h
  | cons c s => rw [search, h, Option.some_or]

theorem search_skip (h : matchAt r (c :: s) = none) : search r (c :: s) = search r s := by
  rw [search, h, Option.none_or]

theorem matchAt_one (hc : p c = true) (h : matchAt r s = some m) :
    matchAt (.one p :: r) (c :: s) = some (m.push c) := by
  rw [matchAt, if_pos hc, h, Option.map_some]

theorem matchAt_one_none (hc : p c = false) : matchAt (.one p :: r) (c :: s) = none := by
  rw [matchAt, if_neg (Bool.eq_false_iff.mp hc)]

/-- A repeated class at the end of a pattern takes all it can. -/
theorem matchAt_many (hw : Over p w) (ht : ∀ c ∈ t.head?, p c = false) :
    matchAt [.many p] (w ++ t) = some (w, t) := by
  induction w with
  | nil =>
    cases t with
    | nil => rfl
    | cons c t =>
      rw [matchAt, List.nil_append, greedy, if_neg (Bool.eq_false_iff.mp (ht c rfl)), matchAt]
  | cons c w ih =>
    obtain ⟨hc, hw⟩ := List.forall_mem_cons.mp hw
    have hrest : greedy p (matchAt []) (w ++ t) = some (w, t) := ih hw
    rw [matchAt, List.cons_append, greedy, if_pos hc, hrest, Option.map_some, Option.some_or, Split.push]

/-! ### The loop -/

/-- No match is empty. -/
def Consumes (r : Pattern α) : Prop := ∀ w, Accepts r w → w ≠ []

theorem Consumes.one (p : α → Bool) (r : Pattern α) : Consumes (.one p :: r) := by
  rintro w ⟨c, v, rfl, -⟩
  exact List.cons_ne_nil c v

variable {f : β → List α → Option β} {b : β} {fuel : ℕ}

theorem eachMatch_none (h : search r s = none) : eachMatch r f (fuel + 1) s b = some b := by
  rw [eachMatch, h]

theorem eachMatch_some (h : search r s = some m) :
    eachMatch r f (fuel + 1) s b = (f b m.1).bind fun b => eachMatch r f fuel m.2 b := by
  rw [eachMatch, h]

/-- The loop comes to its end, and keeps what its body keeps on the words of the pattern. -/
theorem eachMatch_total (hr : Consumes r) {I : β → Prop}
    (hf : ∀ b w, I b → Accepts r w → ∃ b', f b w = some b' ∧ I b') (s : List α) (b : β) (hb : I b) :
    ∃ b', (∀ fuel, s.length < fuel → eachMatch r f fuel s b = some b') ∧ I b' := by
  induction hn : s.length using Nat.strong_induction_on generalizing s b with
  | _ n ih =>
    subst hn
    cases hm : search r s with
    | none =>
      refine ⟨b, fun fuel hfuel => ?_, hb⟩
      obtain ⟨fuel, rfl⟩ := Nat.exists_eq_add_one.mpr (Nat.zero_lt_of_lt hfuel)
      exact eachMatch_none hm
    | some m =>
      obtain ⟨l, hl, haccepts⟩ := search_sound hm
      have hpos := List.length_pos_of_ne_nil (hr m.1 haccepts)
      have hlen : s.length = l.length + (m.1.length + m.2.length) := by
        rw [hl, List.length_append, List.length_append]
      obtain ⟨b₁, hb₁, hI₁⟩ := hf b m.1 hb haccepts
      -- the text behind a match is shorter by at least the match
      obtain ⟨b₂, hb₂, hI₂⟩ := ih m.2.length (by omega) m.2 b₁ hI₁ rfl
      refine ⟨b₂, fun fuel hfuel => ?_, hI₂⟩
      obtain ⟨fuel, rfl⟩ := Nat.exists_eq_add_one.mpr (Nat.zero_lt_of_lt hfuel)
      rw [eachMatch_some hm, hb₁, Option.bind_some]
      exact hb₂ fuel (by omega)

end NetProg.Regex
