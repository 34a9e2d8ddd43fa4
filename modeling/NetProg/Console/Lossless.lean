import NetProg.Console.Script
import NetProg.Lib.Escaping

/-! What `encode` and `write_to_console` make of a byte string, read as text with entities
    (`console.cpp` and `windows_cgi_server/main.cpp`).

    The two loops of `write_to_console` look for a character from the beginning of the text again and again.
    They keep the position in an `int`, which is enough for what one read brings. -/

namespace NetProg.Console

open Escaping

/-- The entities the console writes. -/
def entities : List (List Char × Char) :=
  [(['&', 'a', 'm', 'p', ';'], '&'), (['&', 'q', 'u', 'o', 't', ';'], '"'),
    (['&', 'a', 'p', 'o', 's', ';'], '\''), (['&', 'l', 't', ';'], '<'), (['&', 'g', 't', ';'], '>'),
    (newLine, '\n')]

/-- The characters of which there are none between the quotes. -/
def forbidden : List Char := ['<', '>', '"', '\'', '\n', '\r']

/-- `int pos = response.find(...)`. -/
def intPos (p : ℕ) : ℤ := (p : ℤ).bmod (2 ^ 32)

/-- The loops of `write_to_console` on the encoded string both end, and leave this text. -/
def Inserts (store : ℕ → ℤ) (s r : List Char) : Prop :=
  ∃ mid, Ends store '\n' newLine (encode s) mid ∧ Ends store '\r' [] mid r

/-- Every `&` of a text starts one of the entities. -/
def Marked (text : List Char) : Prop :=
  ∀ pre post, text = pre ++ '&' :: post → ∃ e ∈ entities, e.1 <+: '&' :: post

/-! ### The loops -/

theorem inserts_iff {store : ℕ → ℤ} {s r : List Char}
    (hfirst : ∀ p ≤ (replaceAll '\n' newLine (encode s)).length, store p = p)
    (hsecond : ∀ p ≤ (quoted (encode s)).length, store p = p) :
    Inserts store s r ↔ r = quoted (encode s) := by
  have hloop : ∀ {mid}, Ends store '\n' newLine (encode s) mid ↔
      mid = replaceAll '\n' newLine (encode s) := ends_iff (by decide) hfirst
  constructor
  · rintro ⟨mid, hmid, hr⟩
    rw [hloop.mp hmid] at hr
    exact (ends_iff List.not_mem_nil hsecond).mp hr
  · rintro rfl
    exact ⟨_, hloop.mpr rfl, (ends_iff List.not_mem_nil hsecond).mpr rfl⟩

theorem length_encodeChar (c : Char) : (encodeChar c).length ≤ 6 := by
  unfold encodeChar
  split <;> simp

theorem length_flatMap_le {f : Char → List Char} {n : ℕ} (hf : ∀ c, (f c).length ≤ n) (s : List Char) :
    (s.flatMap f).length ≤ n * s.length := by
  induction s with
  | nil => simp
  | cons c s ih =>
    have hc := hf c
    rw [List.flatMap_cons, List.length_append, List.length_cons, Nat.mul_succ]
    omega

theorem length_replaceAll (c : Char) (new : List Char) (n : ℕ) (hnew : new.length ≤ n) (hn : 1 ≤ n)
    (s : List Char) : (replaceAll c new s).length ≤ n * s.length := by
  refine length_flatMap_le (fun x => ?_) s
  split_ifs
  · exact hnew
  · exact hn

/-! ### One character -/

/-- A character is written as its entity, or as itself. -/
theorem written_entity {c : Char} (hcr : c ≠ '\r') :
    (written c, c) ∈ entities ∨ (written c = [c] ∧ c ≠ '&' ∧ c ∉ forbidden) := by
  unfold written encodeChar
  split_ifs with hlf
  · left
    rw [hlf]
    decide
  · split
    · left; decide
    · left; decide
    · left; decide
    · left; decide
    · left; decide
    · rename_i hamp hquote hapos hlt hgt
      right
      refine ⟨rfl, hamp, fun hmem => ?_⟩
      simp only [forbidden, List.mem_cons, List.not_mem_nil, or_false] at hmem
      rcases hmem with h | h | h | h | h | h
      · exact hlt h
      · exact hgt h
      · exact hquote h
      · exact hapos h
      · exact hlf h
      · exact hcr h

theorem entity_cons {e : List Char × Char} (he : e ∈ entities) : ∃ name, e.1 = '&' :: name ∧
    '&' ∉ name ∧ ∀ x ∈ e.1, x ∉ forbidden := by
  simp only [entities, List.mem_cons, List.not_mem_nil, or_false] at he
  rcases he with rfl | rfl | rfl | rfl | rfl | rfl <;> exact ⟨_, rfl, by decide, by simp [newLine, forbidden]⟩

/-- No entity begins another one. -/
theorem entity_free {e : List Char × Char} (he : e ∈ entities) :
    ∀ d ∈ entities, d.1 <+: e.1 ∨ e.1 <+: d.1 → d = e := by
  revert e
  decide

/-! ### The whole text -/

theorem marked_nil : Marked [] := by
  intro pre post h
  simp at h

/-- Letters other than `&` in front of a text. -/
theorem Marked.append {word text : List Char} (hword : '&' ∉ word) (h : Marked text) :
    Marked (word ++ text) := by
  induction word with
  | nil => exact h
  | cons x word ih =>
    rintro (_ | ⟨y, pre⟩) post heq
    · obtain ⟨rfl, -⟩ := List.cons.inj heq
      exact absurd List.mem_cons_self hword
    · exact ih (fun hmem => hword (List.mem_cons_of_mem _ hmem)) pre post (List.cons.inj heq).2

/-- An entity in front of a text. -/
theorem Marked.entity {e : List Char × Char} (he : e ∈ entities) {text : List Char} (h : Marked text) :
    Marked (e.1 ++ text) := by
  obtain ⟨name, hname, hfree, -⟩ := entity_cons he
  rw [hname]
  rintro (_ | ⟨y, pre⟩) post heq
  · obtain ⟨-, rfl⟩ := List.cons.inj heq
    exact ⟨e, he, hname ▸ List.prefix_append ('&' :: name) text⟩
  · exact (h.append hfree) pre post (List.cons.inj heq).2

/-- The text written for some characters. -/
structure Faithful (cs text : List Char) : Prop where
  plain : ∀ x ∈ text, x ∉ forbidden
  marked : Marked text
  back : readBack entities text = cs

/-- One more character is written in front of a text. -/
theorem Faithful.cons {cs text : List Char} (h : Faithful cs text) {c : Char} (hcr : c ≠ '\r') :
    Faithful (c :: cs) (written c ++ text) := by
  rcases written_entity hcr with he | ⟨hw, hamp, hforb⟩
  · obtain ⟨name, hname, -, hplain⟩ := entity_cons he
    refine ⟨fun x hx => ?_, h.marked.entity he, ?_⟩
    · exact (List.mem_append.mp hx).elim (hplain x) (h.plain x)
    · have hne : (written c, c).1 ≠ [] := hname ▸ List.cons_ne_nil '&' name
      have hword := readBack_word (s := text) he hne (entity_free he)
      rw [hword, h.back]
  · rw [hw]
    refine ⟨fun x hx => ?_, h.marked.append (by simpa using Ne.symm hamp), ?_⟩
    · rcases List.mem_cons.mp hx with rfl | hx
      · exact hforb
      · exact h.plain x hx
    · have hhead : ∀ e ∈ entities, e.1.head? ≠ some c := by
        intro e he hc
        obtain ⟨name, hname, -⟩ := entity_cons he
        rw [hname] at hc
        exact hamp (Option.some.inj hc).symm
      have hne : ∀ e ∈ entities, e.1 ≠ [] := by decide
      rw [List.singleton_append, readBack_cons hhead hne, h.back]

theorem faithful_written : ∀ {l : List Char}, (∀ c ∈ l, c ≠ '\r') → Faithful l (l.flatMap written)
  | [], _ => ⟨fun _ h => absurd h List.not_mem_nil, marked_nil, rfl⟩
  | c :: _, hcr =>
    (faithful_written fun d hd => hcr d (List.mem_cons_of_mem _ hd)).cons (hcr c List.mem_cons_self)

theorem quoted_append (s t : List Char) :
    quoted (encode (s ++ t)) = quoted (encode s) ++ quoted (encode t) := by
  rw [quoted_encode, quoted_encode, quoted_encode, List.filter_append, List.flatMap_append]

theorem intPos_eq {p : ℕ} (hp : p < 2 ^ 31) : intPos p = p :=
  Int.bmod_eq_of_le (by omega) (by omega)

/-- The text between the quotes is one string for each byte string. Nothing in it means anything in HTML or
    ends the quotes, and the bytes but the carriage returns can be read off it, wherever the output was cut.
    That the position is an `int` makes no difference for a string of up to 32 MiB. -/
theorem escaping_lossless (s : List Char) :
    (∀ r, Inserts (fun p => p) s r ↔ r = quoted (encode s)) ∧
    (s.length ≤ 2 ^ 25 → ∀ r, Inserts intPos s r ↔ r = quoted (encode s)) ∧
    (∀ x ∈ quoted (encode s), x ∉ forbidden) ∧
    Marked (quoted (encode s)) ∧
    readBack entities (quoted (encode s)) = s.filter (· != '\r') ∧
    ∀ t, quoted (encode (s ++ t)) = quoted (encode s) ++ quoted (encode t) := by
  have hfaithful := faithful_written (ne_cr_of_mem_filter s)
  rw [← quoted_encode] at hfaithful
  refine ⟨fun r => inserts_iff (fun _ _ => rfl) fun _ _ => rfl, fun hlen r => ?_, hfaithful.plain,
    hfaithful.marked, hfaithful.back, quoted_append s⟩
  have hencode : (encode s).length ≤ 6 * s.length := length_flatMap_le length_encodeChar s
  have hfirst := length_replaceAll '\n' newLine 9 (by decide) (by decide) (encode s)
  have hsecond := length_replaceAll '\r' [] 1 (by decide) le_rfl
    (replaceAll '\n' newLine (encode s))
  refine inserts_iff (fun p hp => intPos_eq ?_) fun p hp => intPos_eq ?_
  · omega
  · rw [quoted] at hp
    omega

end NetProg.Console
