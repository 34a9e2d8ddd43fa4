import NetProg.Lib.Regex
import NetProg.Lib.StdString

/-! The query string of the console (`console.cpp` of the projects 3 and 4, and the Windows server).

    The loop looks for `[fhp][0-9]{1}=[0-9.a-z]*`, in project 4 for `[sfhp][0-9ph]{1}=[0-9.a-z]*`, anywhere in
    what is left of the string. A value may look like a key, but a match takes the whole of it, so that the next
    search begins at the `&`. The pattern has no groups: a match holds nothing but itself. -/

namespace NetProg.QueryString

open Regex StdString

/-- The three programs with the loop. -/
inductive Console where
  | project3
  | windows
  | project4
  deriving DecidableEq

/-- `[fhp]` or `[sfhp]`. -/
def Console.first : Console → Char → Bool
  | .project3, c | .windows, c => ['f', 'h', 'p'].contains c
  | .project4, c => ['s', 'f', 'h', 'p'].contains c

/-- `[0-9]{1}` or `[0-9ph]{1}`. -/
def Console.second : Console → Char → Bool
  | .project3, c | .windows, c => c.isDigit
  | .project4, c => c.isDigit || ['p', 'h'].contains c

/-- `[0-9.a-z]`. -/
def isValue (c : Char) : Bool := c.isDigit || c == '.' || c.isLower

/-- `pattern`. -/
def Console.pattern (console : Console) : Pattern Char :=
  [.one console.first, .one console.second, .one (· == '='), .many isValue]

/-- `query`; `operator[]` gives the empty string for a key without an entry. -/
abbrev Query := List Char → List Char

/-- `query[x.substr(0,2)] = x.substr(3)`. -/
def store (query : Query) (x : List Char) : Option Query := do
  let key ← substr x 0 2
  let value ← substr x 3 x.length
  some (Function.update query key value)

/-- The loop of `main` and of `parse_query_string`, from an empty map. -/
def Console.parse (console : Console) (fuel : ℕ) (queryString : List Char) : Option Query :=
  eachMatch console.pattern store fuel queryString fun _ => []

/-- `h`, `p` and `f` with `to_string(i)`. -/
def hostKeys (i : ℕ) : List (List Char) := ['h', 'p', 'f'].map fun c => c :: Nat.toDigits 10 i

/-- The keys that `main` looks up. -/
def Console.keys : Console → List (List Char)
  | .project3 | .windows => (List.range 5).flatMap hostKeys
  | .project4 => (List.range 5).flatMap hostKeys ++ [['s', 'h'], ['s', 'p']]

/-- A key with its value. -/
abbrev Pair := List Char × List Char

def Pair.text (p : Pair) : List Char := p.1 ++ '=' :: p.2

/-- The pairs with `&` between them. -/
def joined (pairs : List Pair) : List Char := List.intercalate ['&'] (pairs.map Pair.text)

/-- The pairs with `&` before each. -/
def behind (pairs : List Pair) : List Char := pairs.flatMap fun p => '&' :: p.text

/-- What the pairs say, one after the other. -/
def assign (query : Query) (pairs : List Pair) : Query :=
  pairs.foldl (fun query p => Function.update query p.1 p.2) query

/-- A pair the console has a use for. -/
structure Pair.Of (console : Console) (p : Pair) : Prop where
  key : p.1 ∈ console.keys
  value : Over isValue p.2

variable {console : Console} {query : Query} {p : Pair} {pairs : List Pair} {fuel : ℕ}

theorem joined_cons (p : Pair) (pairs : List Pair) : joined (p :: pairs) = p.text ++ behind pairs := by
  induction pairs generalizing p with
  | nil => simp [joined, behind, List.intercalate]
  | cons q pairs ih =>
    have hsplit : joined (p :: q :: pairs) = p.text ++ '&' :: joined (q :: pairs) := by
      simp [joined, List.intercalate]
    rw [hsplit, ih q, behind, behind, List.flatMap_cons, List.cons_append]

/-- A key is a character of each class. -/
theorem Console.mem_keys {key : List Char} (h : key ∈ console.keys) :
    ∃ a b, key = [a, b] ∧ console.first a = true ∧ console.second b = true := by
  have hall : ∀ key ∈ console.keys, key.length = 2 ∧ key.head?.all console.first = true ∧
      key[1]?.all console.second = true := by
    cases console <;> decide
  obtain ⟨hlength, hfirst, hsecond⟩ := hall key h
  obtain ⟨a, b, rfl⟩ := List.length_eq_two.mp hlength
  exact ⟨a, b, rfl, hfirst, hsecond⟩

/-- What is stored for a key with its value. -/
theorem store_text (a b : Char) (v : List Char) :
    store query (a :: b :: '=' :: v) = some (Function.update query [a, b] v) := by
  have hall : v.take (v.length + 1 + 1 + 1) = v := List.take_of_length_le (by omega)
  simp [store, substr, hall]

theorem accepts_pattern {w : List Char} (h : Accepts console.pattern w) :
    ∃ a b v, w = a :: b :: '=' :: v ∧ Over isValue v := by
  obtain ⟨a, w, rfl, -, b, w, rfl, -, e, w, rfl, he, u, v, rfl, hu, rfl⟩ := h
  obtain rfl := beq_iff_eq.mp he
  exact ⟨a, b, u, by rw [List.append_nil], hu⟩

/-- Behind a value the text ends, or an `&` comes. -/
theorem behind_head {c : Char} (h : c ∈ (behind pairs).head?) : c = '&' := by
  cases pairs with
  | nil => exact nomatch h
  | cons p pairs => exact (Option.some.inj h).symm

theorem Console.first_and (console : Console) : console.first '&' = false := by
  cases console <;> decide

/-- A search that begins with a key takes its whole value and nothing else. -/
theorem search_text (hp : p.Of console) (pairs : List Pair) :
    search console.pattern (p.text ++ behind pairs) = some (p.text, behind pairs) := by
  obtain ⟨key, v⟩ := p
  obtain ⟨a, b, rfl, ha, hb⟩ := console.mem_keys hp.key
  have hvalue : matchAt [.many isValue] (v ++ behind pairs) = some (v, behind pairs) := by
    refine matchAt_many hp.value fun c hc => ?_
    obtain rfl := behind_head hc
    decide
  exact search_of_matchAt (matchAt_one ha (matchAt_one hb (matchAt_one (beq_self_eq_true _) hvalue)))

theorem store_pair (hp : p.Of console) : store query p.text = some (Function.update query p.1 p.2) := by
  obtain ⟨key, v⟩ := p
  obtain ⟨a, b, rfl, -, -⟩ := console.mem_keys hp.key
  exact store_text a b v

theorem loop_behind (hpairs : ∀ p ∈ pairs, p.Of console) (query : Query) (hfuel : pairs.length < fuel) :
    eachMatch console.pattern store fuel (behind pairs) query = some (assign query pairs) := by
  induction pairs generalizing query fuel with
  | nil =>
    obtain ⟨fuel, rfl⟩ := Nat.exists_eq_add_one.mpr hfuel
    exact eachMatch_none rfl
  | cons p pairs ih =>
    obtain ⟨hp, hpairs⟩ := List.forall_mem_cons.mp hpairs
    obtain ⟨fuel, rfl⟩ := Nat.exists_eq_add_one.mpr (Nat.zero_lt_of_lt hfuel)
    -- no key begins with the `&`
    have hskip : search console.pattern (behind (p :: pairs)) = some (p.text, behind pairs) := by
      rw [behind, List.flatMap_cons, List.cons_append]
      exact (search_skip (matchAt_one_none console.first_and)).trans (search_text hp pairs)
    rw [eachMatch_some hskip, store_pair hp, Option.bind_some]
    exact ih hpairs _ (Nat.lt_of_succ_lt_succ hfuel)

theorem length_lt_joined (hpairs : ∀ p ∈ pairs, p.Of console) : pairs.length ≤ (joined pairs).length := by
  have hbehind : ∀ pairs : List Pair, pairs.length ≤ (behind pairs).length := by
    intro pairs
    induction pairs with
    | nil => exact Nat.le_refl 0
    | cons p pairs ih =>
      simp only [behind, List.flatMap_cons, List.length_append, List.length_cons] at ih ⊢
      omega
  cases pairs with
  | nil => exact Nat.zero_le _
  | cons p pairs =>
    have hrest := hbehind pairs
    rw [joined_cons]
    simp only [Pair.text, List.length_append, List.length_cons]
    omega

theorem parse_joined (hpairs : ∀ p ∈ pairs, p.Of console) (hfuel : (joined pairs).length < fuel) :
    console.parse fuel (joined pairs) = some (assign (fun _ => []) pairs) := by
  have hcount := Nat.lt_of_le_of_lt (length_lt_joined hpairs) hfuel
  obtain ⟨fuel, rfl⟩ := Nat.exists_eq_add_one.mpr (Nat.zero_lt_of_lt hfuel)
  cases pairs with
  | nil => exact eachMatch_none rfl
  | cons p pairs =>
    obtain ⟨hp, hpairs⟩ := List.forall_mem_cons.mp hpairs
    rw [Console.parse, joined_cons, eachMatch_some (search_text hp pairs), store_pair hp, Option.bind_some]
    exact loop_behind hpairs _ (Nat.lt_of_succ_lt_succ hcount)

/-! ### The map -/

theorem assign_of_not_mem {key : List Char} (h : key ∉ pairs.map Prod.fst) (query : Query) :
    assign query pairs key = query key := by
  induction pairs generalizing query with
  | nil => rfl
  | cons p pairs ih =>
    obtain ⟨hne, hrest⟩ := not_or.mp (List.mem_cons.not.mp h)
    exact (ih hrest _).trans (Function.update_of_ne hne p.2 query)

theorem assign_of_mem (hkeys : (pairs.map Prod.fst).Nodup) (hp : p ∈ pairs) (query : Query) :
    assign query pairs p.1 = p.2 := by
  induction pairs generalizing query with
  | nil => exact nomatch hp
  | cons q pairs ih =>
    obtain ⟨hq, hrest⟩ := List.nodup_cons.mp hkeys
    rcases List.mem_cons.mp hp with rfl | hmem
    · exact (assign_of_not_mem hq _).trans (Function.update_self p.1 p.2 query)
    · exact ih hrest hmem _

/-- A word of the pattern is stored, and its value is one. -/
theorem store_total {w : List Char} (hquery : ∀ key, Over isValue (query key))
    (hw : Accepts console.pattern w) :
    ∃ query', store query w = some query' ∧ ∀ key, Over isValue (query' key) := by
  obtain ⟨a, b, v, rfl, hv⟩ := accepts_pattern hw
  refine ⟨_, store_text a b v, fun key => ?_⟩
  rcases eq_or_ne key [a, b] with rfl | hne
  · rwa [Function.update_self]
  · rw [Function.update_of_ne hne]
    exact hquery key

/-- Whatever the string is, the loop ends and stores values only. -/
theorem parse_total (console : Console) (queryString : List Char) :
    ∃ query, (∀ fuel, queryString.length < fuel → console.parse fuel queryString = some query) ∧
      ∀ key, Over isValue (query key) :=
  eachMatch_total (Consumes.one _ _) (fun _ _ hquery hw => store_total hquery hw) queryString _
    fun _ => Over.nil

/-- The loop ends on every string with a map of values, and gives every pair of a list of pairs back. -/
theorem query_string_exact (console : Console) :
    (∀ queryString : List Char, ∃ query,
      (∀ fuel, queryString.length < fuel → console.parse fuel queryString = some query) ∧
      ∀ key, ∀ c ∈ query key, isValue c = true) ∧
    ∀ pairs : List Pair, (∀ p ∈ pairs, p.1 ∈ console.keys ∧ ∀ c ∈ p.2, isValue c = true) →
      (pairs.map Prod.fst).Nodup → ∀ fuel, (joined pairs).length < fuel →
      ∃ query, console.parse fuel (joined pairs) = some query ∧ (∀ p ∈ pairs, query p.1 = p.2) ∧
        ∀ key ∈ console.keys, key ∉ pairs.map Prod.fst → query key = [] := by
  refine ⟨parse_total console, fun pairs hpairs hkeys fuel hfuel => ?_⟩
  refine ⟨_, parse_joined (fun p hp => ⟨(hpairs p hp).1, (hpairs p hp).2⟩) hfuel, ?_, ?_⟩
  · exact fun p hp => assign_of_mem hkeys hp _
  · exact fun key _ hkey => assign_of_not_mem hkey _

/-- `p0=h1.x&sh=&h0=a` in project 4. -/
theorem query_string_exact_value_like_key :
    ∃ query, Console.project4.parse 17 (joined [(['p', '0'], ['h', '1', '.', 'x']), (['s', 'h'], []),
      (['h', '0'], ['a'])]) = some query ∧
      (∀ p ∈ [(['p', '0'], ['h', '1', '.', 'x']), (['s', 'h'], []), (['h', '0'], ['a'])], query p.1 = p.2) ∧
      ∀ key ∈ Console.project4.keys, key ∉ [['p', '0'], ['s', 'h'], ['h', '0']] → query key = [] := by
  have hpairs : ∀ p ∈ [(['p', '0'], ['h', '1', '.', 'x']), (['s', 'h'], []), (['h', '0'], ['a'])],
      p.1 ∈ Console.project4.keys ∧ p.2.all isValue = true := by decide
  exact (query_string_exact .project4).2
    [(['p', '0'], ['h', '1', '.', 'x']), (['s', 'h'], []), (['h', '0'], ['a'])]
    (fun p hp => ⟨(hpairs p hp).1, List.all_eq_true.mp (hpairs p hp).2⟩) (by decide) 17 (by decide)

end NetProg.QueryString
