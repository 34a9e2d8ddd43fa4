import Mathlib.Data.List.Infix
import Mathlib.Data.List.Basic
import Mathlib.Tactic
import NetProg.Lib.Run

/-! Networks of programs that read one channel to its end and write another, all at their own pace.

    A channel keeps everything that was ever written to it, each piece with its writer, and how much of
    it has been read. When a writer is always started before the reader of its channel and no channel
    has two readers, a program that has ended has read all that was ever written for it: what it wrote
    is a function of that, however the network ran. -/

namespace NetProg

/-- A list sorted by a number is its parts with each number, one after another. -/
theorem flatMap_filter_of_sorted {β : Type*} (f : β → ℕ) : ∀ (n : ℕ) (l : List β),
    (l.Pairwise fun a b => f a ≤ f b) → (∀ a ∈ l, f a < n) →
    (List.range n).flatMap (fun j => l.filter fun a => f a = j) = l
  | 0, l, _, hlt => by
    cases l with
    | nil => rfl
    | cons a l => exact absurd (hlt a (List.mem_cons_self ..)) (Nat.not_lt_zero _)
  | n + 1, l, hsorted, hlt => by
    have hsplit : ∀ l : List β, (l.Pairwise fun a b => f a ≤ f b) → (∀ a ∈ l, f a < n + 1) →
        (l.filter fun a => f a < n) ++ (l.filter fun a => f a = n) = l := by
      intro l hsorted hlt
      induction l with
      | nil => rfl
      | cons a l ih =>
        obtain ⟨hfirst, hrest⟩ := List.pairwise_cons.1 hsorted
        have ih := ih hrest fun b hb => hlt b (List.mem_cons_of_mem _ hb)
        rcases Nat.lt_or_ge (f a) n with ha | ha
        · rw [List.filter_cons_of_pos (by simpa using ha), List.filter_cons_of_neg (by simp; omega),
            List.cons_append, ih]
        · -- the rest is not below `a`
          have hall : ∀ b ∈ a :: l, f b = n := fun b hb => by
            have hb' := hlt b hb
            rcases List.mem_cons.1 hb with rfl | hb
            · omega
            · have := hfirst b hb
              omega
          rw [List.filter_eq_nil_iff.2 fun b hb => by simp [hall b hb],
            List.filter_eq_self.2 fun b hb => by simp [hall b hb], List.nil_append]
    have ih := flatMap_filter_of_sorted f n (l.filter fun a => f a < n) (hsorted.sublist List.filter_sublist)
      fun a ha => by simpa using (List.mem_filter.1 ha).2
    rw [List.range_succ, List.flatMap_append, List.flatMap_singleton]
    refine Eq.trans ?_ (hsplit l hsorted hlt)
    congr 1
    refine Eq.trans ?_ ih
    refine List.flatMap_congr fun j hj => ?_
    rw [List.filter_filter]
    refine List.filter_congr fun a _ => ?_
    have := List.mem_range.1 hj
    rw [Bool.eq_iff_iff, Bool.and_eq_true, decide_eq_true_iff, decide_eq_true_iff]
    omega

/-- A program that reads its input to the end: what it has written at most after reading so much, and
    what it has written when it ends after reading everything. -/
structure StreamProgram (α : Type*) where
  during : List α → List α
  whole : List α → List α
  grows : ∀ a b, a <+: b → during a <+: during b
  within : ∀ a b, a <+: b → during a <+: whole b

/-- A program that writes something whatever it reads. -/
def StreamProgram.emit {α : Type*} (x : List α) : StreamProgram α where
  during _ := x
  whole _ := x
  grows _ _ _ := List.prefix_rfl
  within _ _ _ := List.prefix_rfl

/-- A program that writes what it reads. -/
def StreamProgram.copy {α : Type*} : StreamProgram α where
  during x := x
  whole x := x
  grows _ _ h := h
  within _ _ h := h

/-- A running program: the channel it reads, the one it writes, the channels it keeps open for writing,
    what it has read and written so far, whether it has seen the end of its input, and whether it has
    ended. -/
structure NetNode (κ α : Type*) where
  program : StreamProgram α
  source : Option κ
  sink : Option κ
  holds : List κ
  got : List α
  eof : Bool
  put : List α
  ended : Bool

/-- A program that has just been started. -/
def NetNode.start {κ α : Type*} (program : StreamProgram α) (source sink : Option κ) (holds : List κ) :
    NetNode κ α :=
  ⟨program, source, sink, holds, [], false, [], false⟩

/-- A running program as it was when it was started. -/
def NetNode.blank {κ α : Type*} (m : NetNode κ α) : NetNode κ α := .start m.program m.source m.sink m.holds

/-- What a node may have written by now. -/
def NetNode.allowed {κ α : Type*} (m : NetNode κ α) : List α :=
  if m.eof then m.program.whole m.got else m.program.during m.got

/-- Some running programs, what was written to every channel and by whom, and how much of it was read. -/
structure Net (ι κ α : Type*) where
  ids : List ι
  node : ι → Option (NetNode κ α)
  sent : κ → List (ι × α)
  taken : κ → ℕ

/-- One thing a program does. -/
inductive NetEvent (ι α : Type*) where
  | read (i : ι) (n : ℕ)
  | eof (i : ι)
  | write (i : ι) (chunk : List α)
  | finish (i : ι)

namespace Net

variable {ι κ α : Type*} [DecidableEq ι] [DecidableEq κ]

/-- Nothing runs and nothing was written. -/
def empty : Net ι κ α := ⟨[], fun _ => none, fun _ => [], fun _ => 0⟩

/-- Everything written to a channel. -/
def content (N : Net ι κ α) (k : κ) : List α := (N.sent k).map (·.2)

/-- The part of a channel written by one program. -/
def part (N : Net ι κ α) (k : κ) (i : ι) : List α := ((N.sent k).filter (·.1 = i)).map (·.2)

def set (N : Net ι κ α) (i : ι) (m : NetNode κ α) : Net ι κ α :=
  { N with node := Function.update N.node i (some m) }

/-- So many more pieces of a channel are read. -/
def advance (N : Net ι κ α) (k : κ) (n : ℕ) : Net ι κ α :=
  { N with taken := Function.update N.taken k (N.taken k + n) }

/-- A program appends to a channel. -/
def append (N : Net ι κ α) (k : κ) (i : ι) (chunk : List α) : Net ι κ α :=
  { N with sent := Function.update N.sent k (N.sent k ++ chunk.map fun x => (i, x)) }

/-- A program is started. -/
def fork (N : Net ι κ α) (i : ι) (m : NetNode κ α) : Net ι κ α := { N.set i m with ids := N.ids ++ [i] }

/-- Nobody among the programs that have not ended keeps the channel open for writing. -/
def closed (N : Net ι κ α) (k : κ) : Bool :=
  N.ids.all fun j => match N.node j with
    | some m => m.ended || !m.holds.contains k
    | none => true

/-- Everything has ended. -/
def quiet (N : Net ι κ α) : Bool :=
  N.ids.all fun j => match N.node j with
    | some m => m.ended
    | none => true

/-- One step. A channel may have room for so many unread pieces only, and somebody outside may keep it
    open for writing. -/
def step [DecidableEq α] (room : κ → Option ℕ) (held : κ → Bool) (N : Net ι κ α) :
    NetEvent ι α → Option (Net ι κ α)
  | .read i n =>
    match N.node i with
    | none => none
    | some m =>
      match m.source with
      | none => none
      | some k =>
        if m.ended = false ∧ m.eof = false ∧ N.taken k + n ≤ (N.sent k).length then
          some ((N.set i { m with got := m.got ++ ((N.content k).drop (N.taken k)).take n }).advance k n)
        else none
  | .eof i =>
    match N.node i with
    | none => none
    | some m =>
      if m.ended = false ∧ ∀ k ∈ m.source, N.taken k = (N.sent k).length ∧ held k = false ∧ N.closed k then
        some (N.set i { m with eof := true })
      else none
  | .write i chunk =>
    match N.node i with
    | none => none
    | some m =>
      match m.sink with
      | none => none
      | some k =>
        if m.ended = false ∧ m.put ++ chunk <+: m.allowed ∧
            ∀ c ∈ room k, (N.sent k).length + chunk.length ≤ N.taken k + c then
          some ((N.set i { m with put := m.put ++ chunk }).append k i chunk)
        else none
  | .finish i =>
    match N.node i with
    | none => none
    | some m =>
      if m.ended = false ∧ m.eof = true ∧ m.put = m.program.whole m.got then
        some (N.set i { m with ended := true })
      else none

/-- What a step can do. -/
inductive Stepped (room : κ → Option ℕ) (held : κ → Bool) (N : Net ι κ α) : NetEvent ι α → Net ι κ α → Prop
  | read {i : ι} {m : NetNode κ α} {k : κ} (n : ℕ) (node : N.node i = some m) (running : m.ended = false)
      (source : m.source = some k) (more : m.eof = false) (there : N.taken k + n ≤ (N.sent k).length) :
      Stepped room held N (.read i n)
        ((N.set i { m with got := m.got ++ ((N.content k).drop (N.taken k)).take n }).advance k n)
  | eof {i : ι} {m : NetNode κ α} (node : N.node i = some m) (running : m.ended = false)
      (past : ∀ k ∈ m.source, N.taken k = (N.sent k).length ∧ held k = false ∧ N.closed k) :
      Stepped room held N (.eof i) (N.set i { m with eof := true })
  | write {i : ι} {m : NetNode κ α} {k : κ} (chunk : List α) (node : N.node i = some m)
      (running : m.ended = false) (sink : m.sink = some k) (allowed : m.put ++ chunk <+: m.allowed)
      (fits : ∀ c ∈ room k, (N.sent k).length + chunk.length ≤ N.taken k + c) :
      Stepped room held N (.write i chunk) ((N.set i { m with put := m.put ++ chunk }).append k i chunk)
  | finish {i : ι} {m : NetNode κ α} (node : N.node i = some m) (running : m.ended = false)
      (past : m.eof = true) (all : m.put = m.program.whole m.got) :
      Stepped room held N (.finish i) (N.set i { m with ended := true })

theorem stepped [DecidableEq α] {room : κ → Option ℕ} {held : κ → Bool} {N N' : Net ι κ α}
    {ev : NetEvent ι α} (hs : N.step room held ev = some N') : Stepped room held N ev N' := by
  cases ev with
  | read i n =>
    simp only [step] at hs
    split at hs
    · cases hs
    · rename_i m hi
      split at hs
      · cases hs
      · rename_i k hk
        split_ifs at hs with hc
        obtain rfl := Option.some.inj hs
        exact .read n hi hc.1 hk hc.2.1 hc.2.2
  | eof i =>
    simp only [step] at hs
    split at hs
    · cases hs
    · rename_i m hi
      split_ifs at hs with hc
      obtain rfl := Option.some.inj hs
      exact .eof hi hc.1 hc.2
  | write i chunk =>
    simp only [step] at hs
    split at hs
    · cases hs
    · rename_i m hi
      split at hs
      · cases hs
      · rename_i k hk
        split_ifs at hs with hc
        obtain rfl := Option.some.inj hs
        exact .write chunk hi hc.1 hk hc.2.1 hc.2.2
  | finish i =>
    simp only [step] at hs
    split at hs
    · cases hs
    · rename_i m hi
      split_ifs at hs with hc
      obtain rfl := Option.some.inj hs
      exact .finish hi hc.1 hc.2.1 hc.2.2

theorem Stepped.step [DecidableEq α] {room : κ → Option ℕ} {held : κ → Bool} {N N' : Net ι κ α}
    {ev : NetEvent ι α} (h : Stepped room held N ev N') : N.step room held ev = some N' := by
  cases h with
  | read n node running source more there => simp only [Net.step, node, source, running, more, there, and_self, if_true]
  | eof node running past =>
    simp only [Net.step, node]
    rw [if_pos ⟨running, past⟩]
  | write chunk node running sink allowed fits =>
    simp only [Net.step, node, sink]
    rw [if_pos ⟨running, allowed, fits⟩]
  | finish node running past all =>
    simp only [Net.step, node]
    rw [if_pos ⟨running, past, all⟩]

namespace Stepped

variable {room : κ → Option ℕ} {held : κ → Bool} {N N' : Net ι κ α} {ev : NetEvent ι α}

theorem ids (h : Stepped room held N ev N') : N'.ids = N.ids := by cases h <;> rfl

/-- A step changes one node, which has not ended, and nothing that node was started with. -/
theorem node (h : Stepped room held N ev N') : ∃ i m m', N'.node = Function.update N.node i (some m') ∧
    N.node i = some m ∧ m.ended = false ∧ m'.blank = m.blank := by
  cases h with
  | read n node running source more there => exact ⟨_, _, _, rfl, node, running, rfl⟩
  | eof node running past => exact ⟨_, _, _, rfl, node, running, rfl⟩
  | write chunk node running sink allowed fits => exact ⟨_, _, _, rfl, node, running, rfl⟩
  | finish node running past all => exact ⟨_, _, _, rfl, node, running, rfl⟩

/-- The programs stay those that were started. -/
theorem blank (h : Stepped room held N ev N') (j : ι) : (N'.node j).map (·.blank) = (N.node j).map (·.blank) := by
  obtain ⟨i, m, m', hnode, hi, -, hm⟩ := h.node
  rcases eq_or_ne j i with rfl | hj
  · rw [hnode, Function.update_self, hi, Option.map_some, Option.map_some, hm]
  · rw [hnode, Function.update_of_ne hj]

/-- A program that has ended does nothing more. -/
theorem ended (h : Stepped room held N ev N') {j : ι} {x : NetNode κ α} (hj : N.node j = some x)
    (hx : x.ended = true) : N'.node j = some x := by
  obtain ⟨i, m, m', hnode, hi, hrun, -⟩ := h.node
  have hne : j ≠ i := by
    rintro rfl
    obtain rfl := Option.some.inj (hi.symm.trans hj)
    rw [hx] at hrun
    cases hrun
  rw [hnode, Function.update_of_ne hne, hj]

/-- Who writes a piece has not ended, and what it writes comes last. -/
theorem sent (h : Stepped room held N ev N') (k : κ) : N'.sent k = N.sent k ∨
    ∃ (i : ι) (m : NetNode κ α) (chunk : List α), N.node i = some m ∧ m.ended = false ∧ m.sink = some k ∧
      N'.sent k = N.sent k ++ chunk.map fun x => (i, x) := by
  cases h with
  | read n node running source more there => exact .inl rfl
  | eof node running past => exact .inl rfl
  | @write i m l chunk node running sink allowed fits =>
    rcases eq_or_ne k l with rfl | hkl
    · exact .inr ⟨i, m, chunk, node, running, sink, Function.update_self ..⟩
    · exact .inl (Function.update_of_ne hkl ..)
  | finish node running past all => exact .inl rfl

end Stepped

/-- What holds of a network in which writers come before readers. -/
structure Sound (N : Net ι κ α) : Prop where
  ids : ∀ i m, N.node i = some m → i ∈ N.ids
  put : ∀ i m k, N.node i = some m → m.sink = some k → m.put = N.part k i
  writer : ∀ k x, x ∈ N.sent k → ∃ m, N.node x.1 = some m ∧ m.sink = some k
  holds : ∀ i m k, N.node i = some m → m.sink = some k → k ∈ m.holds
  reader : ∀ i j m m' k, N.node i = some m → N.node j = some m' → m.source = some k →
    m'.source = some k → i = j
  taken : ∀ k, N.taken k ≤ (N.sent k).length
  got : ∀ i m k, N.node i = some m → m.source = some k → m.got = (N.content k).take (N.taken k)
  unread : ∀ k, (∀ i m, N.node i = some m → m.source ≠ some k) → N.taken k = 0
  alone : ∀ i m, N.node i = some m → m.source = none → m.got = []
  eof : ∀ i m k, N.node i = some m → m.eof = true → m.source = some k →
    N.taken k = (N.sent k).length ∧ ∀ j m', N.node j = some m' → m'.sink = some k → m'.ended = true
  allowed : ∀ i m, N.node i = some m → m.put <+: m.allowed
  done : ∀ i m, N.node i = some m → m.ended = true → m.eof = true ∧ m.put = m.program.whole m.got

/-- What a program gets to read in all. -/
def input (N : Net ι κ α) (m : NetNode κ α) : List α := (m.source.map N.content).getD []

omit [DecidableEq κ] in
theorem sound_empty : (empty : Net ι κ α).Sound where
  ids := by simp [empty]
  put := by simp [empty]
  writer := by simp [empty]
  holds := by simp [empty]
  reader := by simp [empty]
  taken := by simp [empty]
  got := by simp [empty]
  unread := by simp [empty]
  alone := by simp [empty]
  eof := by simp [empty]
  allowed := by simp [empty]
  done := by simp [empty]

omit [DecidableEq κ] in
theorem set_node_self (N : Net ι κ α) (i : ι) (m : NetNode κ α) : (N.set i m).node i = some m := by
  simp [set]

omit [DecidableEq κ] in
theorem set_node_of_ne (N : Net ι κ α) {i j : ι} (h : j ≠ i) (m : NetNode κ α) :
    (N.set i m).node j = N.node j := by simp [set, Function.update_of_ne h]

omit [DecidableEq κ] in
/-- The nodes after one of them has changed. -/
theorem node_set_cases {N : Net ι κ α} {i j : ι} {m m' : NetNode κ α} (h : (N.set i m).node j = some m') :
    (j = i ∧ m' = m) ∨ (j ≠ i ∧ N.node j = some m') := by
  rcases eq_or_ne j i with rfl | hj
  · rw [set_node_self] at h
    exact .inl ⟨rfl, (Option.some.inj h).symm⟩
  · rw [set_node_of_ne N hj] at h
    exact .inr ⟨hj, h⟩

omit [DecidableEq κ] in
@[simp] theorem set_sent (N : Net ι κ α) (i : ι) (m : NetNode κ α) : (N.set i m).sent = N.sent := rfl

omit [DecidableEq κ] in
@[simp] theorem set_taken (N : Net ι κ α) (i : ι) (m : NetNode κ α) : (N.set i m).taken = N.taken := rfl

omit [DecidableEq ι] in
theorem advance_taken_self (N : Net ι κ α) (k : κ) (n : ℕ) : (N.advance k n).taken k = N.taken k + n := by
  simp [advance]

omit [DecidableEq ι] in
theorem advance_taken_of_ne (N : Net ι κ α) {k l : κ} (h : l ≠ k) (n : ℕ) :
    (N.advance k n).taken l = N.taken l := by simp [advance, h]

omit [DecidableEq ι] in
theorem append_sent_self (N : Net ι κ α) (k : κ) (i : ι) (chunk : List α) :
    (N.append k i chunk).sent k = N.sent k ++ chunk.map fun x => (i, x) := by simp [append]

omit [DecidableEq ι] in
theorem append_sent_of_ne (N : Net ι κ α) {k l : κ} (h : l ≠ k) (i : ι) (chunk : List α) :
    (N.append k i chunk).sent l = N.sent l := by simp [append, h]

omit [DecidableEq ι] in
/-- What was written stays there. -/
theorem sent_prefix_append (N : Net ι κ α) (k l : κ) (i : ι) (chunk : List α) :
    N.sent l <+: (N.append k i chunk).sent l := by
  rcases eq_or_ne l k with rfl | hl
  · rw [append_sent_self]
    exact List.prefix_append ..
  · rw [append_sent_of_ne N hl]

omit [DecidableEq κ] in
theorem part_append (N : Net ι κ α) (k : κ) (l : List (ι × α)) (i : ι) :
    ((N.sent k ++ l).filter (·.1 = i)).map (·.2) = N.part k i ++ (l.filter (·.1 = i)).map (·.2) := by
  simp [part]

/-- What a node does by itself: it reads nothing and writes nothing. -/
structure Quietly (m m' : NetNode κ α) : Prop where
  source : m'.source = m.source
  sink : m'.sink = m.sink
  holds : m'.holds = m.holds
  got : m'.got = m.got
  put : m'.put = m.put
  ended : m.ended = true → m'.ended = true

namespace Sound

variable {N N' : Net ι κ α} {room : κ → Option ℕ} {held : κ → Bool} {i : ι} {m : NetNode κ α}

omit [DecidableEq κ] in
/-- A step that only changes what a node knows about itself. -/
theorem quietly (h : N.Sound) {m' : NetNode κ α} (hi : N.node i = some m) (hm : Quietly m m')
    (heof : m'.eof = true → ∀ k, m.source = some k →
      N.taken k = (N.sent k).length ∧ ∀ j x, N.node j = some x → x.sink = some k → x.ended = true)
    (hallowed : m'.put <+: m'.allowed)
    (hdone : m'.ended = true → m'.eof = true ∧ m'.put = m'.program.whole m'.got) :
    (N.set i m').Sound where
  ids j x hj := by
    rcases node_set_cases hj with ⟨rfl, -⟩ | ⟨-, hj⟩
    · exact h.ids _ m hi
    · exact h.ids j x hj
  put j x k hj hk := by
    rcases node_set_cases hj with ⟨rfl, rfl⟩ | ⟨-, hj⟩
    · rw [hm.put]
      exact h.put _ m k hi (hm.sink ▸ hk)
    · exact h.put j x k hj hk
  writer k x hx := by
    obtain ⟨y, hy, hk⟩ := h.writer k x hx
    rcases eq_or_ne x.1 i with hxi | hxi
    · rw [hxi] at hy ⊢
      obtain rfl := Option.some.inj (hy.symm.trans hi)
      exact ⟨m', N.set_node_self i m', hm.sink.trans hk⟩
    · exact ⟨y, (N.set_node_of_ne hxi m').trans hy, hk⟩
  holds j x k hj hk := by
    rcases node_set_cases hj with ⟨rfl, rfl⟩ | ⟨-, hj⟩
    · rw [hm.holds]
      exact h.holds _ m k hi (hm.sink ▸ hk)
    · exact h.holds j x k hj hk
  reader j j' x x' k hj hj' hk hk' := by
    have hold : ∀ {l y}, (N.set i m').node l = some y → y.source = some k →
        ∃ z, N.node l = some z ∧ z.source = some k := fun hl hy => by
      rcases node_set_cases hl with ⟨rfl, rfl⟩ | ⟨-, hl⟩
      · exact ⟨m, hi, hm.source ▸ hy⟩
      · exact ⟨_, hl, hy⟩
    obtain ⟨y, hy, hyk⟩ := hold hj hk
    obtain ⟨z, hz, hzk⟩ := hold hj' hk'
    exact h.reader j j' y z k hy hz hyk hzk
  taken := h.taken
  got j x k hj hk := by
    rcases node_set_cases hj with ⟨rfl, rfl⟩ | ⟨-, hj⟩
    · rw [hm.got]
      exact h.got _ m k hi (hm.source ▸ hk)
    · exact h.got j x k hj hk
  unread k hno := by
    refine h.unread k fun j x hj hk => ?_
    rcases eq_or_ne j i with rfl | hne
    · obtain rfl := Option.some.inj (hi.symm.trans hj)
      exact hno j m' (N.set_node_self j m') (hm.source.trans hk)
    · exact hno j x ((N.set_node_of_ne hne m').trans hj) hk
  alone j x hj hk := by
    rcases node_set_cases hj with ⟨rfl, rfl⟩ | ⟨-, hj⟩
    · rw [hm.got]
      exact h.alone _ m hi (hm.source ▸ hk)
    · exact h.alone j x hj hk
  eof j x k hj he hk := by
    have hended : ∀ {l y}, (∀ j x, N.node j = some x → x.sink = some k → x.ended = true) →
        (N.set i m').node l = some y → y.sink = some k → y.ended = true := fun hall hl hy => by
      rcases node_set_cases hl with ⟨rfl, rfl⟩ | ⟨-, hl⟩
      · exact hm.ended (hall _ m hi (hm.sink ▸ hy))
      · exact hall _ _ hl hy
    rcases node_set_cases hj with ⟨rfl, rfl⟩ | ⟨-, hj⟩
    · obtain ⟨htaken, hall⟩ := heof he k (hm.source ▸ hk)
      exact ⟨htaken, fun _ _ => hended hall⟩
    · obtain ⟨htaken, hall⟩ := h.eof j x k hj he hk
      exact ⟨htaken, fun _ _ => hended hall⟩
  allowed j x hj := by
    rcases node_set_cases hj with ⟨rfl, rfl⟩ | ⟨-, hj⟩
    · exact hallowed
    · exact h.allowed j x hj
  done j x hj he := by
    rcases node_set_cases hj with ⟨rfl, rfl⟩ | ⟨-, hj⟩
    · exact hdone he
    · exact h.done j x hj he

/-- A program reads. -/
theorem read (h : N.Sound) {k : κ} {n : ℕ} (hi : N.node i = some m) (hk : m.source = some k)
    (heof : m.eof = false) (hended : m.ended = false) (hn : N.taken k + n ≤ (N.sent k).length) :
    ((N.set i { m with got := m.got ++ ((N.content k).drop (N.taken k)).take n }).advance k n).Sound := by
  have hgot : m.got ++ ((N.content k).drop (N.taken k)).take n = (N.content k).take (N.taken k + n) := by
    rw [h.got i m k hi hk, List.take_add]
  have halone : ∀ {j x}, j ≠ i → N.node j = some x → x.source ≠ some k := fun hne hj hx =>
    hne (h.reader _ i _ m k hj hi hx hk)
  refine ⟨?_, ?_, ?_, ?_, ?_, ?_, ?_, ?_, ?_, ?_, ?_, ?_⟩
  · intro j x hj
    rcases node_set_cases hj with ⟨rfl, -⟩ | ⟨-, hj⟩
    · exact h.ids _ m hi
    · exact h.ids j x hj
  · intro j x l hj hl
    rcases node_set_cases hj with ⟨rfl, rfl⟩ | ⟨-, hj⟩
    · exact h.put _ m l hi hl
    · exact h.put j x l hj hl
  · intro l x hx
    obtain ⟨y, hy, hyl⟩ := h.writer l x hx
    rcases eq_or_ne x.1 i with hxi | hxi
    · rw [hxi] at hy ⊢
      obtain rfl := Option.some.inj (hy.symm.trans hi)
      exact ⟨_, N.set_node_self i _, hyl⟩
    · exact ⟨y, (N.set_node_of_ne hxi _).trans hy, hyl⟩
  · intro j x l hj hl
    rcases node_set_cases hj with ⟨rfl, rfl⟩ | ⟨-, hj⟩
    · exact h.holds _ m l hi hl
    · exact h.holds j x l hj hl
  · intro j j' x x' l hj hj' hl hl'
    have hold : ∀ {a y}, (N.set i { m with got := m.got ++ ((N.content k).drop (N.taken k)).take n }).node a =
        some y → y.source = some l → ∃ z, N.node a = some z ∧ z.source = some l := fun ha hy => by
      rcases node_set_cases ha with ⟨rfl, rfl⟩ | ⟨-, ha⟩
      · exact ⟨m, hi, hy⟩
      · exact ⟨_, ha, hy⟩
    obtain ⟨y, hy, hyl⟩ := hold hj hl
    obtain ⟨z, hz, hzl⟩ := hold hj' hl'
    exact h.reader j j' y z l hy hz hyl hzl
  · intro l
    rcases eq_or_ne l k with rfl | hl
    · rw [advance_taken_self]
      exact hn
    · rw [advance_taken_of_ne _ hl]
      exact h.taken l
  · intro j x l hj hl
    rcases node_set_cases hj with ⟨rfl, rfl⟩ | ⟨hne, hj⟩
    · obtain rfl : k = l := Option.some.inj (hk.symm.trans hl)
      rw [advance_taken_self]
      exact hgot
    · rw [advance_taken_of_ne _ fun hlk => halone hne hj (hl.trans (congrArg some hlk))]
      exact h.got j x l hj hl
  · intro l hno
    rw [advance_taken_of_ne _ fun hlk => hno i _ (N.set_node_self i _) (hk.trans (congrArg some hlk.symm))]
    refine h.unread l fun j x hj hl => ?_
    rcases eq_or_ne j i with rfl | hne
    · obtain rfl := Option.some.inj (hi.symm.trans hj)
      exact hno j _ (N.set_node_self j _) hl
    · exact hno j x ((N.set_node_of_ne hne _).trans hj) hl
  · intro j x hj hl
    rcases node_set_cases hj with ⟨rfl, rfl⟩ | ⟨-, hj⟩
    · rw [hk] at hl
      cases hl
    · exact h.alone j x hj hl
  · intro j x l hj he hl
    rcases node_set_cases hj with ⟨rfl, rfl⟩ | ⟨hne, hj⟩
    · rw [heof] at he
      cases he
    · obtain ⟨htaken, hall⟩ := h.eof j x l hj he hl
      have hlk : l ≠ k := fun hlk => halone hne hj (hl.trans (congrArg some hlk))
      refine ⟨(advance_taken_of_ne _ hlk _).trans htaken, fun a y ha hy => ?_⟩
      rcases node_set_cases ha with ⟨rfl, rfl⟩ | ⟨-, ha⟩
      · exact hall _ m hi hy
      · exact hall a y ha hy
  · intro j x hj
    rcases node_set_cases hj with ⟨rfl, rfl⟩ | ⟨-, hj⟩
    · have hput := h.allowed _ m hi
      simp only [NetNode.allowed, heof, Bool.false_eq_true, if_false] at hput ⊢
      exact hput.trans (m.program.grows _ _ (List.prefix_append ..))
    · exact h.allowed j x hj
  · intro j x hj he
    rcases node_set_cases hj with ⟨rfl, rfl⟩ | ⟨-, hj⟩
    · rw [hended] at he
      cases he
    · exact h.done j x hj he

/-- A program writes. Nobody has seen the end of the channel, since this writer has not ended. -/
theorem write (h : N.Sound) {k : κ} {chunk : List α} (hi : N.node i = some m) (hk : m.sink = some k)
    (hended : m.ended = false) (hallowed : m.put ++ chunk <+: m.allowed) :
    ((N.set i { m with put := m.put ++ chunk }).append k i chunk).Sound := by
  have htake : ∀ l, (((N.set i { m with put := m.put ++ chunk }).append k i chunk).content l).take
      (N.taken l) = (N.content l).take (N.taken l) := by
    intro l
    obtain ⟨t, ht⟩ := (N.set i { m with put := m.put ++ chunk }).sent_prefix_append k l i chunk
    rw [content, ← ht, List.map_append, List.take_append_of_le_length (by simpa using h.taken l)]
    rfl
  have hopen : ∀ {j x l}, N.node j = some x → x.eof = true → x.source = some l → l ≠ k := fun hj he hl hlk => by
    have := (h.eof _ _ _ hj he hl).2 i m hi (hlk ▸ hk)
    rw [hended] at this
    cases this
  refine ⟨?_, ?_, ?_, ?_, ?_, ?_, ?_, ?_, ?_, ?_, ?_, ?_⟩
  · intro j x hj
    rcases node_set_cases hj with ⟨rfl, -⟩ | ⟨-, hj⟩
    · exact h.ids _ m hi
    · exact h.ids j x hj
  · intro j x l hj hl
    rcases node_set_cases hj with ⟨rfl, rfl⟩ | ⟨hne, hj⟩
    · obtain rfl : k = l := Option.some.inj (hk.symm.trans hl)
      rw [part, append_sent_self, part_append]
      change m.put ++ chunk = N.part k j ++ _
      rw [← h.put _ m k hi hk]
      simp [List.filter_map, Function.comp_def]
    · rw [h.put j x l hj hl]
      rcases eq_or_ne l k with rfl | hl
      · rw [part, part, append_sent_self, List.filter_append, List.map_append]
        simp [List.filter_map, Function.comp_def, hne.symm, set]
      · rw [part, part, append_sent_of_ne _ hl]
        rfl
  · intro l x hx
    have hcase : x ∈ N.sent l ∨ x.1 = i ∧ l = k := by
      rcases eq_or_ne l k with rfl | hl
      · rw [append_sent_self, List.mem_append, List.mem_map] at hx
        rcases hx with hx | ⟨c, -, rfl⟩
        · exact .inl hx
        · exact .inr ⟨rfl, rfl⟩
      · rw [append_sent_of_ne _ hl] at hx
        exact .inl hx
    rcases hcase with hx | ⟨hxi, rfl⟩
    · obtain ⟨y, hy, hyl⟩ := h.writer l x hx
      rcases eq_or_ne x.1 i with hxi | hxi
      · rw [hxi] at hy ⊢
        obtain rfl := Option.some.inj (hy.symm.trans hi)
        exact ⟨_, N.set_node_self i _, hyl⟩
      · exact ⟨y, (N.set_node_of_ne hxi _).trans hy, hyl⟩
    · rw [hxi]
      exact ⟨_, N.set_node_self i _, hk⟩
  · intro j x l hj hl
    rcases node_set_cases hj with ⟨rfl, rfl⟩ | ⟨-, hj⟩
    · exact h.holds _ m l hi hl
    · exact h.holds j x l hj hl
  · intro j j' x x' l hj hj' hl hl'
    have hold : ∀ {a y}, (N.set i { m with put := m.put ++ chunk }).node a = some y → y.source = some l →
        ∃ z, N.node a = some z ∧ z.source = some l := fun ha hy => by
      rcases node_set_cases ha with ⟨rfl, rfl⟩ | ⟨-, ha⟩
      · exact ⟨m, hi, hy⟩
      · exact ⟨_, ha, hy⟩
    obtain ⟨y, hy, hyl⟩ := hold hj hl
    obtain ⟨z, hz, hzl⟩ := hold hj' hl'
    exact h.reader j j' y z l hy hz hyl hzl
  · exact fun l => (h.taken l).trans (sent_prefix_append _ k l i chunk).length_le
  · intro j x l hj hl
    refine Eq.trans ?_ (htake l).symm
    rcases node_set_cases hj with ⟨rfl, rfl⟩ | ⟨-, hj⟩
    · exact h.got _ m l hi hl
    · exact h.got j x l hj hl
  · intro l hno
    refine h.unread l fun j x hj hl => ?_
    rcases eq_or_ne j i with rfl | hne
    · obtain rfl := Option.some.inj (hi.symm.trans hj)
      exact hno j _ (N.set_node_self j _) hl
    · exact hno j x ((N.set_node_of_ne hne _).trans hj) hl
  · intro j x hj hl
    rcases node_set_cases hj with ⟨rfl, rfl⟩ | ⟨-, hj⟩
    · exact h.alone _ m hi hl
    · exact h.alone j x hj hl
  · intro j x l hj he hl
    have hended' : ∀ {a y}, (∀ j x, N.node j = some x → x.sink = some l → x.ended = true) →
        (N.set i { m with put := m.put ++ chunk }).node a = some y → y.sink = some l → y.ended = true :=
      fun hall ha hy => by
        rcases node_set_cases ha with ⟨rfl, rfl⟩ | ⟨-, ha⟩
        · exact hall _ m hi hy
        · exact hall _ _ ha hy
    rcases node_set_cases hj with ⟨rfl, rfl⟩ | ⟨-, hj⟩
    · obtain ⟨htaken, hall⟩ := h.eof _ m l hi he hl
      refine ⟨?_, fun _ _ => hended' hall⟩
      rw [append_sent_of_ne _ (hopen hi he hl)]
      exact htaken
    · obtain ⟨htaken, hall⟩ := h.eof j x l hj he hl
      refine ⟨?_, fun _ _ => hended' hall⟩
      rw [append_sent_of_ne _ (hopen hj he hl)]
      exact htaken
  · intro j x hj
    rcases node_set_cases hj with ⟨rfl, rfl⟩ | ⟨-, hj⟩
    · exact hallowed
    · exact h.allowed j x hj
  · intro j x hj he
    rcases node_set_cases hj with ⟨rfl, rfl⟩ | ⟨-, hj⟩
    · rw [hended] at he
      cases he
    · exact h.done j x hj he

/-- Where the writer of a channel is started before its reader, a channel has one reader, and a program
    keeps open what it writes. -/
structure Wired (N : Net ι κ α) (m : NetNode κ α) : Prop where
  holds : ∀ k, m.sink = some k → k ∈ m.holds
  alone : ∀ j x k, N.node j = some x → x.source = some k → m.source ≠ some k
  after : ∀ j x k, N.node j = some x → x.source = some k → m.sink ≠ some k
  self : ∀ k, m.source = some k → m.sink ≠ some k

omit [DecidableEq κ] in
/-- A program is started before the readers of what it writes. -/
theorem fork (h : N.Sound) {program : StreamProgram α} {source sink : Option κ} {holds : List κ}
    (hi : N.node i = none) (hm : Wired N (.start program source sink holds)) :
    (N.fork i (.start program source sink holds)).Sound := by
  have hnode : (N.fork i (.start program source sink holds)).node =
      (N.set i (.start program source sink holds)).node := rfl
  have hsent : (N.fork i (.start program source sink holds)).sent = N.sent := rfl
  have hne : ∀ {j x}, N.node j = some x → j ≠ i := fun hj hji => by
    rw [hji, hi] at hj
    cases hj
  refine ⟨?_, ?_, ?_, ?_, ?_, h.taken, ?_, ?_, ?_, ?_, ?_, ?_⟩
  · intro j x hj
    rcases node_set_cases (hnode ▸ hj) with ⟨rfl, -⟩ | ⟨-, hj⟩
    · exact List.mem_append_right _ (List.mem_singleton_self j)
    · exact List.mem_append_left _ (h.ids j x hj)
  · intro j x k hj hk
    rcases node_set_cases (hnode ▸ hj) with ⟨rfl, rfl⟩ | ⟨-, hj⟩
    · have hnone : (N.sent k).filter (fun p => decide (p.1 = j)) = [] := by
        refine List.filter_eq_nil_iff.2 fun p hp hpj => ?_
        obtain ⟨y, hy, -⟩ := h.writer k p hp
        exact hne hy (of_decide_eq_true hpj)
      rw [part, hsent, hnone]
      rfl
    · exact h.put j x k hj hk
  · intro k x hx
    obtain ⟨y, hy, hk⟩ := h.writer k x hx
    exact ⟨y, (N.set_node_of_ne (hne hy) _).trans hy, hk⟩
  · intro j x k hj hk
    rcases node_set_cases (hnode ▸ hj) with ⟨rfl, rfl⟩ | ⟨-, hj⟩
    · exact hm.holds k hk
    · exact h.holds j x k hj hk
  · intro j j' x x' k hj hj' hk hk'
    rcases node_set_cases (hnode ▸ hj) with ⟨hji, hx⟩ | ⟨-, hold⟩
    · rcases node_set_cases (hnode ▸ hj') with ⟨hji', -⟩ | ⟨-, hold'⟩
      · exact hji.trans hji'.symm
      · exact absurd (hx ▸ hk) (hm.alone j' x' k hold' hk')
    · rcases node_set_cases (hnode ▸ hj') with ⟨-, hx'⟩ | ⟨-, hold'⟩
      · exact absurd (hx' ▸ hk') (hm.alone j x k hold hk)
      · exact h.reader j j' x x' k hold hold' hk hk'
  · intro j x k hj hk
    rcases node_set_cases (hnode ▸ hj) with ⟨rfl, rfl⟩ | ⟨-, hj⟩
    · have hzero : N.taken k = 0 := h.unread k fun a y ha hy => hm.alone a y k ha hy hk
      change [] = (N.content k).take (N.taken k)
      rw [hzero, List.take_zero]
    · exact h.got j x k hj hk
  · intro k hno
    exact h.unread k fun j x hj hk => hno j x ((N.set_node_of_ne (hne hj) _).trans hj) hk
  · intro j x hj hk
    rcases node_set_cases (hnode ▸ hj) with ⟨rfl, rfl⟩ | ⟨-, hj⟩
    · rfl
    · exact h.alone j x hj hk
  · intro j x k hj he hk
    rcases node_set_cases (hnode ▸ hj) with ⟨rfl, rfl⟩ | ⟨-, hold⟩
    · cases he
    · obtain ⟨htaken, hall⟩ := h.eof j x k hold he hk
      refine ⟨htaken, fun a y ha hy => ?_⟩
      rcases node_set_cases (hnode ▸ ha) with ⟨rfl, rfl⟩ | ⟨-, ha⟩
      · exact absurd hy (hm.after j x k hold hk)
      · exact hall a y ha hy
  · intro j x hj
    rcases node_set_cases (hnode ▸ hj) with ⟨rfl, rfl⟩ | ⟨-, hj⟩
    · exact List.nil_prefix
    · exact h.allowed j x hj
  · intro j x hj he
    rcases node_set_cases (hnode ▸ hj) with ⟨rfl, rfl⟩ | ⟨-, hj⟩
    · cases he
    · exact h.done j x hj he

/-- A program that sees the end of its channel: all who could write to it have ended. -/
theorem closed_writers (h : N.Sound) {k : κ} (hk : N.closed k = true) {j : ι} {x : NetNode κ α}
    (hj : N.node j = some x) (hx : x.sink = some k) : x.ended = true := by
  have hall := List.all_eq_true.1 hk j (h.ids j x hj)
  rw [hj] at hall
  simpa [h.holds j x k hj hx] using hall

/-- Whatever a program does, the network stays sound. -/
theorem step {ev : NetEvent ι α} (h : N.Sound) (hs : Stepped room held N ev N') : N'.Sound := by
  cases hs with
  | read n node running source more there => exact h.read node source more running there
  | @eof i m node running past =>
    refine h.quietly node ⟨rfl, rfl, rfl, rfl, rfl, id⟩ (fun _ k hk => ?_) ?_ fun he => ?_
    · obtain ⟨htaken, -, hclosed⟩ := past k hk
      exact ⟨htaken, fun j x hj hx => h.closed_writers hclosed hj hx⟩
    · have hput := h.allowed i m node
      simp only [NetNode.allowed, if_true] at hput ⊢
      cases hm : m.eof with
      | true => simpa [hm] using hput
      | false =>
        rw [hm] at hput
        exact hput.trans (m.program.within _ _ List.prefix_rfl)
    · rw [show m.ended = true from he] at running
      cases running
  | write chunk node running sink allowed fits => exact h.write node sink running allowed
  | @finish i m node running past all =>
    exact h.quietly node ⟨rfl, rfl, rfl, rfl, rfl, fun _ => rfl⟩ (fun _ k hk => h.eof i m k node past hk)
      (h.allowed i m node) fun _ => ⟨past, all⟩

omit [DecidableEq κ] in
/-- A program that has ended has written what it writes for everything that was ever sent to it. -/
theorem put_eq_whole (h : N.Sound) (hi : N.node i = some m) (hended : m.ended = true) :
    m.put = m.program.whole (N.input m) := by
  obtain ⟨heof, hput⟩ := h.done i m hi hended
  rw [hput]
  cases hk : m.source with
  | none => rw [h.alone i m hi hk, input, hk]; rfl
  | some k =>
    have hlen : (N.content k).length ≤ N.taken k := by
      rw [content, List.length_map, (h.eof i m k hi heof hk).1]
    rw [h.got i m k hi hk, input, hk, List.take_of_length_le hlen]
    rfl

omit [DecidableEq κ] in
/-- A channel with one writer holds what that writer wrote. -/
theorem content_of_writer (h : N.Sound) {k : κ} (hi : N.node i = some m) (hk : m.sink = some k)
    (hone : ∀ j x, N.node j = some x → x.sink = some k → j = i) : N.content k = m.put := by
  rw [h.put i m k hi hk, part, content, List.filter_eq_self.2]
  intro p hp
  obtain ⟨y, hy, hyk⟩ := h.writer k p hp
  exact decide_eq_true (hone p.1 y hy hyk)

end Sound

end Net

end NetProg
