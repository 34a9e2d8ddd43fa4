import Mathlib.Data.DFinsupp.WellFounded
import NetProg.Lib.Network

/-! Networks run out of work.

    When the writer of every channel comes before its reader in some order, no program can go on for
    ever: what a program does brings it closer to its end and only gives more work to programs behind it.
    And a program whose writers have all ended can go on, unless it writes to a channel that is full. -/

namespace NetProg

/-- An event that gets a program further. -/
def NetEvent.Useful {ι κ α : Type*} (N : Net ι κ α) : NetEvent ι α → Prop
  | .read _ n => 0 < n
  | .eof i => ∀ m, N.node i = some m → m.eof = false
  | .write _ chunk => chunk ≠ []
  | .finish _ => True

/-- How far a program is from its end: what it still has to see, to read and, as it is, to write. -/
def NetNode.work {κ α : Type*} (m : NetNode κ α) (unread : ℕ) : ℕ × ℕ × ℕ :=
  ((if m.eof then 0 else 1) + (if m.ended then 0 else 1), unread, m.allowed.length - m.put.length)

namespace Net

variable {ι κ α : Type*} [DecidableEq ι] [DecidableEq κ] {N N' : Net ι κ α}
  {room : κ → Option ℕ} {held : κ → Bool} {ev : NetEvent ι α} {lt : ι → ι → Prop}

/-- The writer of a channel comes before its reader. -/
def Ordered (lt : ι → ι → Prop) (N : Net ι κ α) : Prop :=
  ∀ i j m x k, N.node i = some m → N.node j = some x → m.sink = some k → x.source = some k → lt i j

/-- One useful step. -/
def Works (room : κ → Option ℕ) (held : κ → Bool) (N N' : Net ι κ α) : Prop :=
  ∃ ev, ev.Useful N ∧ Stepped room held N ev N'

/-- What a program has not read of its channel. -/
def unread (N : Net ι κ α) (m : NetNode κ α) : ℕ :=
  (m.source.map fun k => (N.sent k).length - N.taken k).getD 0

/-- How far the program `i` is from its end. -/
def workOf (N : Net ι κ α) (i : ι) : ℕ × ℕ × ℕ := ((N.node i).map fun m => m.work (N.unread m)).getD (0, 0, 0)

/-- Less work for a program. -/
def Less : ℕ × ℕ × ℕ → ℕ × ℕ × ℕ → Prop := Prod.Lex (· < ·) (Prod.Lex (· < ·) (· < ·))

theorem less_wf : WellFounded Less :=
  WellFounded.prod_lex wellFounded_lt (WellFounded.prod_lex wellFounded_lt wellFounded_lt)

theorem Stepped.ordered (h : Stepped room held N ev N') (ho : N.Ordered lt) : N'.Ordered lt := by
  intro i j m x k hi hj hm hx
  have hold : ∀ {a y}, N'.node a = some y → ∃ z, N.node a = some z ∧ z.source = y.source ∧ z.sink = y.sink :=
    fun {a y} ha => by
      have hblank := h.blank a
      rw [ha, Option.map_some] at hblank
      obtain ⟨z, hz, heq⟩ := Option.map_eq_some_iff.1 hblank.symm
      exact ⟨z, hz, (congrArg NetNode.source heq : z.blank.source = y.blank.source),
        (congrArg NetNode.sink heq : z.blank.sink = y.blank.sink)⟩
  obtain ⟨m₀, hm₀, -, hsink⟩ := hold hi
  obtain ⟨x₀, hx₀, hsource, -⟩ := hold hj
  exact ho i j m₀ x₀ k hm₀ hx₀ (hsink.trans hm) (hsource.trans hx)

/-- A useful step brings one program closer to its end, and gives more work only to programs behind it. -/
theorem Works.less (h : N.Works room held N') (hsound : N.Sound) (ho : N.Ordered lt)
    (hirr : ∀ i, ¬ lt i i) (hasymm : ∀ i j, lt i j → ¬ lt j i) :
    N'.ids = N.ids ∧ ∃ i ∈ N.ids, Less (N'.workOf i) (N.workOf i) ∧
      ∀ j, lt j i → N'.workOf j = N.workOf j := by
  obtain ⟨ev, huse, hs⟩ := h
  refine ⟨hs.ids, ?_⟩
  have hread : ∀ {i j : ι} {m' : NetNode κ α}, j ≠ i → ∀ {k : κ} {n : ℕ},
      ((N.set i m').advance k n).node j = N.node j := fun hj => N.set_node_of_ne hj _
  have hwrite : ∀ {i j : ι} {m' : NetNode κ α}, j ≠ i → ∀ {k : κ} {chunk : List α},
      ((N.set i m').append k i chunk).node j = N.node j := fun hj => N.set_node_of_ne hj _
  cases hs with
  | @read i m k n node running source more there =>
    refine ⟨i, hsound.ids i m node, ?_, fun j hj => ?_⟩
    · have hn : 0 < n := huse
      have hnew : ((N.set i { m with got := m.got ++ ((N.content k).drop (N.taken k)).take n }).advance k n).node i =
          some { m with got := m.got ++ ((N.content k).drop (N.taken k)).take n } := N.set_node_self i _
      rw [workOf, workOf, hnew, node]
      simp only [Option.map_some, Option.getD_some, NetNode.work, unread, source, advance_taken_self]
      refine Prod.Lex.right _ (Prod.Lex.left _ _ ?_)
      change (N.sent k).length - (N.taken k + n) < (N.sent k).length - N.taken k
      omega
    · have hji : j ≠ i := fun heq => hirr i (heq ▸ hj)
      rw [workOf, workOf, hread hji]
      cases hx : N.node j with
      | none => rfl
      | some x =>
        simp only [Option.map_some, Option.getD_some]
        congr 1
        rw [unread, unread]
        cases hk : x.source with
        | none => rfl
        | some l =>
          simp only [Option.map_some, Option.getD_some]
          have hlk : l ≠ k := by
            rintro rfl
            exact hji (hsound.reader j i x m l hx node hk source)
          rw [advance_taken_of_ne _ hlk]
          rfl
  | @eof i m node running past =>
    refine ⟨i, hsound.ids i m node, ?_, fun j hj => ?_⟩
    · have heof := huse m node
      rw [workOf, workOf, N.set_node_self, node]
      simp only [Option.map_some, Option.getD_some, NetNode.work, heof, running]
      exact Prod.Lex.left _ _ (by simp)
    · have hji : j ≠ i := fun heq => hirr i (heq ▸ hj)
      rw [workOf, workOf, N.set_node_of_ne hji]
      rfl
  | @write i m k chunk node running sink allowed fits =>
    refine ⟨i, hsound.ids i m node, ?_, fun j hj => ?_⟩
    · have hnew : ((N.set i { m with put := m.put ++ chunk }).append k i chunk).node i =
          some { m with put := m.put ++ chunk } := N.set_node_self i _
      have hlen := allowed.length_le
      have hchunk : 0 < chunk.length := List.length_pos_of_ne_nil huse
      rw [List.length_append] at hlen
      rw [workOf, workOf, hnew, node]
      have hunread : ((N.set i { m with put := m.put ++ chunk }).append k i chunk).unread
          { m with put := m.put ++ chunk } = N.unread m := by
        rw [unread, unread]
        cases hs : m.source with
        | none => rfl
        | some l =>
          simp only [Option.map_some, Option.getD_some]
          have hlk : l ≠ k := by
            rintro rfl
            exact hirr i (ho i i m m l node node sink hs)
          rw [append_sent_of_ne _ hlk]
          rfl
      simp only [Option.map_some, Option.getD_some, hunread, NetNode.work]
      refine Prod.Lex.right _ (Prod.Lex.right _ ?_)
      change m.allowed.length - (m.put ++ chunk).length < m.allowed.length - m.put.length
      rw [List.length_append]
      omega
    · have hji : j ≠ i := fun heq => hirr i (heq ▸ hj)
      rw [workOf, workOf, hwrite hji]
      cases hx : N.node j with
      | none => rfl
      | some x =>
        simp only [Option.map_some, Option.getD_some]
        congr 1
        rw [unread, unread]
        cases hk : x.source with
        | none => rfl
        | some l =>
          simp only [Option.map_some, Option.getD_some]
          have hlk : l ≠ k := by
            rintro rfl
            exact hasymm i j (ho i j m x l node hx sink hk) hj
          rw [append_sent_of_ne _ hlk]
          rfl
  | @finish i m node running past all =>
    refine ⟨i, hsound.ids i m node, ?_, fun j hj => ?_⟩
    · rw [workOf, workOf, N.set_node_self, node]
      simp only [Option.map_some, Option.getD_some, NetNode.work, running, past]
      exact Prod.Lex.left _ _ (by simp)
    · have hji : j ≠ i := fun heq => hirr i (heq ▸ hj)
      rw [workOf, workOf, N.set_node_of_ne hji]
      rfl

/-- There is no endless run of useful steps. -/
theorem Sound.acc [IsStrictTotalOrder ι lt] (h : N.Sound) (ho : N.Ordered lt) :
    Acc (fun b a => a.Works room held b) N := by
  let I := { i // i ∈ N.ids }
  have : Finite I := (List.finite_toSet N.ids).to_subtype
  have : IsStrictTotalOrder I (Subrel lt (· ∈ N.ids)) := (Subrel.relEmbedding lt (· ∈ N.ids)).isStrictTotalOrder
  have hwf : WellFounded (Pi.Lex (Subrel lt (· ∈ N.ids)) fun {_} => Less) := Pi.Lex.wellFounded _ fun _ => less_wf
  have hall : ∀ w : I → ℕ × ℕ × ℕ, ∀ M : Net ι κ α, M.ids = N.ids → M.Sound → M.Ordered lt →
      (fun i : I => M.workOf i.1) = w → Acc (fun b a => a.Works room held b) M := by
    intro w
    induction w using hwf.induction with
    | _ w ih =>
      rintro M hids hM hoM rfl
      refine Acc.intro M fun M' hworks => ?_
      obtain ⟨hids', i, hi, hless, hbefore⟩ :=
        hworks.less hM hoM (fun i => irrefl i) fun i j h h' => asymm h h'
      obtain ⟨ev, -, hs⟩ := hworks
      refine ih _ ⟨⟨i, hids ▸ hi⟩, fun j hj => hbefore j.1 hj, hless⟩ M' (hids'.trans hids) (hM.step hs)
        (hs.ordered hoM) rfl
  exact hall _ N rfl h ho rfl

/-- A program whose channel nobody else can write to any more gets further, or makes the reader of a full
    channel get further, unless it has to write to a full channel that nobody reads. -/
theorem Sound.works_or_full (h : N.Sound) (hroom : ∀ k c, room k = some c → 0 < c) {i : ι} {m : NetNode κ α}
    (hi : N.node i = some m) (hrun : m.ended = false) {k : κ} (hk : m.sink = some k)
    (hclosed : ∀ l, m.source = some l → held l = false ∧ N.closed l = true) :
    (∃ N', N.Works room held N') ∨ (m.eof = true ∧ ∃ c, room k = some c ∧ N.taken k + c ≤ (N.sent k).length ∧
      ∀ j x, N.node j = some x → x.source ≠ some k) := by
  cases heof : m.eof with
  | false =>
    left
    rcases Classical.em (∃ l, m.source = some l ∧ N.taken l < (N.sent l).length) with ⟨l, hl, hlt⟩ | hno
    · exact ⟨_, .read i 1, one_pos, .read 1 hi hrun hl heof hlt⟩
    · -- all is read, and nobody can add anything
      refine ⟨_, .eof i, fun x hx => Option.some.inj (hi.symm.trans hx) ▸ heof, .eof hi hrun fun l hl => ?_⟩
      obtain ⟨hheld, hcl⟩ := hclosed l hl
      refine ⟨le_antisymm (h.taken l) ?_, hheld, hcl⟩
      exact not_lt.1 fun hlt => hno ⟨l, hl, hlt⟩
  | true =>
    have hallowed := h.allowed i m hi
    rw [NetNode.allowed, heof, if_pos rfl] at hallowed
    obtain ⟨rest, hrest⟩ := hallowed
    cases rest with
    | nil =>
      rw [List.append_nil] at hrest
      exact .inl ⟨_, .finish i, trivial, .finish hi hrun heof hrest⟩
    | cons x rest =>
      have hput : m.put ++ [x] <+: m.allowed := by
        rw [NetNode.allowed, heof, if_pos rfl]
        exact ⟨rest, by rw [List.append_assoc]; exact hrest⟩
      rcases Classical.em (∀ c ∈ room k, (N.sent k).length + 1 ≤ N.taken k + c) with hfits | hfull
      · exact .inl ⟨_, .write i [x], List.cons_ne_nil _ _, .write [x] hi hrun hk hput hfits⟩
      · push Not at hfull
        obtain ⟨c, hc, hlt⟩ := hfull
        have hpos := hroom k c hc
        rcases Classical.em (∃ j x, N.node j = some x ∧ x.source = some k) with ⟨j, y, hj, hy⟩ | hno
        · -- somebody reads the channel, and has not seen its end
          have hlive : y.eof = false := by
            by_contra hye
            rw [Bool.not_eq_false] at hye
            have := (h.eof j y k hj hye hy).1
            omega
          have hyrun : y.ended = false := by
            by_contra hye
            rw [Bool.not_eq_false] at hye
            rw [(h.done j y hj hye).1] at hlive
            cases hlive
          exact .inl ⟨_, .read j 1, one_pos, .read 1 hj hyrun hy hlive (by omega)⟩
        · refine .inr ⟨rfl, c, hc, by omega, fun j y hj hy => hno ⟨j, y, hj, hy⟩⟩

end Net
end NetProg
