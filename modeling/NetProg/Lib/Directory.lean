import Mathlib.Logic.Function.Basic
import Mathlib.Logic.Relation

/-! A directory: places, some of which are taken, each under a name.

    One name is free for all; any other name belongs to one place at a time. The directory changes when
    somebody comes in under the free name, leaves, or takes a name that nobody has. -/

namespace NetProg.Directory

variable {ι ν : Type} [DecidableEq ι] (free : ν)

/-- Two places with one name both have the free one. -/
def Distinct (d : ι → Option ν) : Prop := ∀ i j n, i ≠ j → d i = some n → d j = some n → n = free

/-- One change. -/
inductive Change (d : ι → Option ν) : (ι → Option ν) → Prop
  /-- somebody has the free name from now on -/
  | anonymous (i : ι) : Change d (Function.update d i (some free))
  | leave (i : ι) : Change d (Function.update d i none)
  | take (i : ι) (n : ν) : (∀ j, d j ≠ some n) → Change d (Function.update d i (some n))

/-- Any number of changes. -/
abbrev Changes : (ι → Option ν) → (ι → Option ν) → Prop := Relation.ReflTransGen (Change free)

variable {free} {d e : ι → Option ν}

/-- A name that one place gets and no other place has. -/
theorem Distinct.update (h : Distinct free d) (i : ι) {o : Option ν}
    (ho : ∀ n, o = some n → n ≠ free → ∀ j, d j ≠ some n) : Distinct free (Function.update d i o) := by
  intro a b n hab ha hb
  by_contra hn
  rcases eq_or_ne a i with rfl | hai
  · rw [Function.update_self] at ha
    rw [Function.update_of_ne hab.symm] at hb
    exact ho n ha hn b hb
  · rw [Function.update_of_ne hai] at ha
    rcases eq_or_ne b i with rfl | hbi
    · rw [Function.update_self] at hb
      exact ho n hb hn a ha
    · rw [Function.update_of_ne hbi] at hb
      exact hn (h a b n hab ha hb)

theorem Distinct.change (h : Distinct free d) (hc : Change free d e) : Distinct free e := by
  cases hc with
  | anonymous i => exact h.update i fun n hn hne => absurd (Option.some.inj hn).symm hne
  | leave i => exact h.update i fun n hn => by cases hn
  | take i n hfree => exact h.update i fun m hm _ => Option.some.inj hm ▸ hfree

theorem Distinct.changes (h : Distinct free d) (hc : Changes free d e) : Distinct free e := by
  induction hc with
  | refl => exact h
  | tail _ hstep ih => exact ih.change hstep

end NetProg.Directory
