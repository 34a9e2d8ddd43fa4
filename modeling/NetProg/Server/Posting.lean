import NetProg.Lib.Ledger
import NetProg.Server.UserLine

/-! One line against the ledger of what waits between the users.

    While the tokens are read, the records and the pairs of descriptors say the same as the ledger: each
    `<id` takes what waits there, and `>id` puts a new pipe. The process loop gives the taken pipe to the
    first command and the new one to the last. -/

namespace NetProg.Server

open Shell (Suffix)

/-- The pipe with this number waits from one user to another, by their ids. -/
def Carries (s : Server) (k : Kernel) (sender receiver id : ℕ) : Prop :=
  s.namePipeRecord sender receiver = true ∧
    k.get ((s.user (receiver - 1)).namePipe (sender - 1)).1 = some (.pipeR id)

/-- The ledger says which pipes wait, by the ids of sender and receiver. -/
def Mirrors (L : Ledger (ℕ × ℕ)) (s : Server) (k : Kernel) : Prop :=
  ∀ a r id, L.mail (a, r) = some id ↔ Carries s k a r id

/-- What the line takes from the ledger. -/
def UserLine.keys (l : UserLine) (u : ℕ) : List (ℕ × ℕ) := l.takes.map fun a => (a, u + 1)

/-- Whether the line is accepted: the pipes it takes are there and different, and the one it makes is for
    a user and not there yet. -/
def Accepts (s : Server) (u : ℕ) (l : UserLine) : Prop :=
  (∀ a ∈ l.takes, s.checkNamePipeExist a (u + 1) = true) ∧ l.takes.Nodup ∧
    ∀ r ∈ l.gives, s.checkIdExist r = true ∧
      (s.checkNamePipeExist (u + 1) r = false ∨ (r = u + 1 ∧ u + 1 ∈ l.takes))

instance (s : Server) (u : ℕ) (l : UserLine) : Decidable (Accepts s u l) :=
  inferInstanceAs (Decidable (_ ∧ _))

/-- The line reads one pipe at most, and it does not make the pipe of its user to itself after taking it. -/
def UserLine.Single (l : UserLine) (u : ℕ) : Prop :=
  l.takes.length ≤ 1 ∧ ¬ (u + 1 ∈ l.takes ∧ l.gives = some (u + 1))

instance (l : UserLine) (u : ℕ) : Decidable (l.Single u) := inferInstanceAs (Decidable (_ ∧ _))

/-! ### What waits -/

theorem checkIdExist_natCast {s : Server} {n : ℕ} : s.checkIdExist n = true ↔
    1 ≤ n ∧ n ≤ qlen ∧ (s.user (n - 1)).valid = true := by
  rw [checkIdExist_iff, Int.toNat_natCast]
  simp

/-- What is recorded keeps its pair of descriptors, and these stay what they are. -/
theorem Mirrors.frame {L : Ledger (ℕ × ℕ)} {s s' : Server} {k k' : Kernel} (h : Mirrors L s k)
    (hrec : s'.namePipeRecord = s.namePipeRecord)
    (hpair : ∀ i, (s'.user i).namePipe = (s.user i).namePipe)
    (hget : ∀ a r, s.namePipeRecord a r = true →
      k'.get ((s.user (r - 1)).namePipe (a - 1)).1 = k.get ((s.user (r - 1)).namePipe (a - 1)).1) :
    Mirrors L s' k' := by
  intro a r id
  rw [h a r id, Carries, Carries, hrec, hpair]
  exact and_congr_right fun har => by rw [hget a r har]

/-- The call while the tokens are read, with what waits at this moment. -/
structure Posting (s : Server) (u : ℕ) (L : Ledger (ℕ × ℕ)) (c : Call) : Prop extends Reading s u c where
  mail : Mirrors L c.server c.vars.kernel
  due : c.vars.numPipeInFlag = false
  spawned : c.spawned = []

/-- A recorded pipe is open. -/
theorem Posting.open_named {s : Server} {u a r : ℕ} {L : Ledger (ℕ × ℕ)} {c : Call} (h : Posting s u L c)
    (har : c.server.namePipeRecord a r = true) :
    c.vars.kernel.get ((c.server.user (r - 1)).namePipe (a - 1)).1 ≠ none :=
  h.wired.open_fst (held_named har)

/-- Something waits where a pipe is recorded. -/
theorem Posting.waits {s : Server} {u a r : ℕ} {L : Ledger (ℕ × ℕ)} {c : Call} (h : Posting s u L c)
    (har : c.server.namePipeRecord a r = true) : ∃ id, L.mail (a, r) = some id := by
  obtain ⟨id, -, h1, -⟩ := h.wired.ends (.named a r) _ ⟨har, rfl⟩
  exact ⟨id, (h.mail a r id).mpr ⟨har, h1⟩⟩

theorem Posting.record {s : Server} {u a r id : ℕ} {L : Ledger (ℕ × ℕ)} {c : Call} (h : Posting s u L c)
    (hmail : L.mail (a, r) = some id) : c.server.namePipeRecord a r = true := ((h.mail a r id).mp hmail).1

theorem Posting.push {s : Server} {u : ℕ} {L : Ledger (ℕ × ℕ)} {c : Call} (h : Posting s u L c)
    (argv : List Token) : Posting s u L (c.push argv) :=
  ⟨h.toReading.push argv, h.mail, h.due, h.spawned⟩

theorem Posting.rows {s : Server} {u : ℕ} {L : Ledger (ℕ × ℕ)} {c : Call} (h : Posting s u L c)
    (rows : List (List Token)) : Posting s u L { c with process := rows } :=
  ⟨⟨⟨h.u, h.valid, h.sock, h.vec, h.afds, h.accepted, h.recorded⟩, h.kept, h.pipes, h.fdIn, h.sender,
    h.wired⟩, h.mail, h.due, h.spawned⟩

theorem Posting.print {s : Server} {u : ℕ} {L : Ledger (ℕ × ℕ)} {c : Call} (h : Posting s u L c)
    (entries : List LogEntry) : Posting s u L { c with server := c.server.print entries } :=
  ⟨h.toReading.print entries, h.mail, h.due, h.spawned⟩

/-- A `|N` or `!N` leaves what waits. -/
theorem Posting.pipeOut {s : Server} {u : ℕ} {L : Ledger (ℕ × ℕ)} {c : Call} (h : Posting s u L c)
    (shock : Bool) (n : ℤ) : Posting s u L (c.pipeOut shock n) := by
  refine ⟨h.toReading.pipeOut shock n, ?_, (pipeOut_numPipeInFlag ..).trans h.due, h.spawned⟩
  refine Mirrors.frame h.mail rfl (fun _ => rfl) fun a r har => ?_
  exact pipeOut_get_of_open shock n (h.open_named har)

theorem Posting.file {s : Server} {u : ℕ} {L : Ledger (ℕ × ℕ)} {c : Call} {opens : Opens} {name : Token}
    {v : Vars} (h : Posting s u L c) (hfile : c.vars.createFile opens name = some v) :
    Posting s u L { c with vars := v, server := c.server.print [.fflush] } := by
  obtain ⟨hget, -, -, -, hdue⟩ := createFile_frame hfile
  refine ⟨h.toReading.file hfile, ?_, hdue.trans h.due, h.spawned⟩
  exact Mirrors.frame h.mail rfl (fun _ => rfl) fun a r _ => hget _

/-! ### `<id` -/

theorem Posting.take {s : Server} {u a : ℕ} {L : Ledger (ℕ × ℕ)} {c c' : Call} {inp : LineInput}
    (h : Posting s u L c) (htake : c.takeUserPipe inp.command a = .ok c') :
    Posting s u (L.take (a, u + 1)) c' := by
  have hread := h.toReading.take htake
  obtain ⟨-, -, rfl⟩ := takeUserPipe_ok.mp htake
  refine ⟨hread, fun b r id => ?_, h.due, h.spawned⟩
  have hcu := h.u
  rw [Ledger.mail_take, Carries, record_taken, Int.toNat_natCast, hcu]
  by_cases hkey : b = a ∧ r = u + 1
  · obtain ⟨rfl, rfl⟩ := hkey
    simp
  · rw [if_neg (by simpa using hkey), h.mail b r id, Carries]
    simp [hkey, Call.taken, broadcastMsg, Server.print]

/-- A pipe that cannot be taken does not wait. -/
theorem Posting.missing {s : Server} {u a : ℕ} {L : Ledger (ℕ × ℕ)} {c : Call} {command : List Char}
    {e : PipeError} (h : Posting s u L c) (htake : c.takeUserPipe command a = .error e) :
    L.mail (a, u + 1) = none := by
  rw [Option.eq_none_iff_forall_ne_some]
  intro id hid
  have hrec := h.record hid
  have hexist : c.server.checkIdExist a = true := checkIdExist_natCast.mpr (h.recorded a (u + 1) hrec).1
  have hcu := h.u
  rw [Call.takeUserPipe, if_pos hexist, checkNamePipeExist, Int.toNat_natCast, hcu, if_pos hrec] at htake
  cases htake

/-- Taking all pipes of the line takes them from the ledger, up to the first that is not there. -/
theorem Posting.takeAll {s : Server} {u : ℕ} (inp : LineInput) : ∀ (ids : List ℕ) {L : Ledger (ℕ × ℕ)}
    {c : Call}, Posting s u L c → match c.takeAll inp.command (ids.map Nat.cast) with
      | .error (c', _) => Posting s u (L.collect (ids.map fun a => (a, u + 1))) c'
      | .ok c' => Posting s u (L.collect (ids.map fun a => (a, u + 1))) c' ∧ c'.vars = c.vars ∧
          c'.process = c.process ∧ ids.Nodup ∧
          (∀ a ∈ ids, c.server.namePipeRecord a (u + 1) = true) ∧
          ∀ a r, c'.server.namePipeRecord a r = true ↔
            c.server.namePipeRecord a r = true ∧ ¬ (a ∈ ids ∧ r = u + 1)
  | [], L, c, h => by
    refine ⟨h, rfl, rfl, List.nodup_nil, ?_, ?_⟩ <;> simp
  | a :: ids, L, c, h => by
    rw [List.map_cons, List.map_cons, Call.takeAll, Ledger.collect]
    cases htake : c.takeUserPipe inp.command a with
    | error e =>
      rw [if_pos (h.missing htake)]
      exact h
    | ok c₁ =>
      have hrec : c.server.namePipeRecord a (u + 1) = true := by
        have := (takeUserPipe_ok.mp htake).2.1
        rwa [Int.toNat_natCast, h.u] at this
      obtain ⟨id, hid⟩ := h.waits hrec
      rw [if_neg (by simp [hid])]
      have ih := Posting.takeAll inp ids (h.take htake)
      obtain ⟨-, -, rfl⟩ := takeUserPipe_ok.mp htake
      rw [Int.toNat_natCast] at ih ⊢
      dsimp only
      cases hrest : (c.taken inp.command a).takeAll inp.command (ids.map Nat.cast) with
      | error ce =>
        rw [hrest] at ih
        exact ih
      | ok c' =>
        rw [hrest] at ih
        obtain ⟨hpost, hvars, hproc, hnodup, hall, hiff⟩ := ih
        have hcu := h.u
        have hold : ∀ {b}, b ∈ ids → c.server.namePipeRecord b (u + 1) = true ∧ b ≠ a := by
          intro b hb
          obtain ⟨h1, h2⟩ := record_taken.mp (hall b hb)
          exact ⟨h1, fun hba => h2 ⟨hba, by rw [hcu]⟩⟩
        refine ⟨hpost, hvars, hproc, List.nodup_cons.mpr ⟨fun hm => (hold hm).2 rfl, hnodup⟩, ?_, ?_⟩
        · rintro b hb
          rcases List.mem_cons.mp hb with rfl | hb
          · exact hrec
          · exact (hold hb).1
        · intro b r
          rw [hiff, record_taken, hcu, List.mem_cons]
          tauto

/-- The one pipe the line takes is the one that waits. -/
theorem Posting.taken {s : Server} {u : ℕ} {L : Ledger (ℕ × ℕ)} {c c₁ : Call} {inp : LineInput}
    {ids : List ℕ} (h : Posting s u L c) (hnone : c.sender = none) (hone : ids.length ≤ 1)
    (htake : c.takeAll inp.command (ids.map Nat.cast) = .ok c₁) :
    (∀ a, c₁.sender = some a → a ∈ ids) ∧ ∀ a ∈ ids, ∃ id np, L.mail (a, u + 1) = some id ∧
      c₁.takenPair = some np ∧ c₁.vars.kernel.get np.1 = some (.pipeR id) := by
  rcases ids with - | ⟨a, ids⟩
  · cases htake
    refine ⟨fun a ha => ?_, by simp⟩
    rw [hnone] at ha
    cases ha
  · have hnil : ids = [] := by
      rw [List.length_cons] at hone
      exact List.length_eq_zero_iff.mp (by omega)
    subst hnil
    rw [List.map_cons, List.map_nil, Call.takeAll] at htake
    cases hone : c.takeUserPipe inp.command a with
    | error e =>
      rw [hone] at htake
      cases htake
    | ok c' =>
      rw [hone] at htake
      cases htake
      obtain ⟨-, hrec, rfl⟩ := takeUserPipe_ok.mp hone
      have hcu := h.u
      rw [Int.toNat_natCast, hcu] at hrec
      obtain ⟨id, hid⟩ := h.waits hrec
      have hget := ((h.mail a (u + 1) id).mp hid).2
      rw [Int.toNat_natCast]
      refine ⟨fun b hb => ?_, fun b hb => ?_⟩
      · cases hb
        exact List.mem_singleton_self a
      · obtain rfl := List.mem_singleton.mp hb
        refine ⟨id, (c.server.user c.u).namePipe (b - 1), hid, rfl, ?_⟩
        rw [hcu]
        exact hget

/-! ### The end of the line -/

/-- A new pipe waits where the line puts it. -/
theorem Posting.make {s : Server} {u r : ℕ} {L : Ledger (ℕ × ℕ)} {c c' : Call} (h : Posting s u L c)
    (hu : u < qlen ∧ (s.user u).valid = true) (hmake : c.makeUserPipe r = .ok c')
    (hown : ¬ (c.sender = some (u + 1) ∧ r = u + 1)) :
    Posting s u (L.put (u + 1, r) c.vars.kernel.pipes) c' := by
  have hread := h.toReading.make hu hmake fun hcon => hown ⟨hcon.1, by exact_mod_cast hcon.2⟩
  obtain ⟨hid, -, rfl⟩ := makeUserPipe_ok.mp hmake
  obtain ⟨h1, -⟩ := checkIdExist_natCast.mp hid
  have hcu := h.u
  rw [Int.toNat_natCast] at hread ⊢
  refine ⟨hread, fun a b id => ?_, h.due, h.spawned⟩
  rw [Ledger.mail_put, Carries, record_made, hcu]
  by_cases hkey : a = u + 1 ∧ b = r
  · obtain ⟨rfl, rfl⟩ := hkey
    have hpair := namePipe_made_self c b
    rw [hcu] at hpair
    rw [if_pos rfl, Nat.add_sub_cancel, hpair]
    simp [Call.made, Kernel.get_pipe]
  · rw [if_neg (by simpa using hkey), h.mail a b id, Carries, or_iff_left hkey]
    refine and_congr_right fun hab => ?_
    obtain ⟨⟨ha, -⟩, hb, -⟩ := h.recorded a b hab
    have hpair := namePipe_made (c := c) h1 ha hb (by rw [hcu]; exact hkey)
    rw [hpair]
    exact iff_of_eq (congrArg (· = some (Desc.pipeR id)) (Kernel.get_pipe_of_open (h.open_named hab)).symm)

/-- What the line ends with, when it is no user pipe, leaves what waits. -/
theorem Posting.plain {s : Server} {u : ℕ} {L : Ledger (ℕ × ℕ)} {c : Call} (h : Posting s u L c)
    (inp : LineInput) {suf : Suffix} {last : List Token} (hok : suf.Ok) (hlast : last ≠ []) :
    match combine inp suf.tokens last c with
    | .ok c' => Posting s u L c' ∧ c'.process = c.process ++ [last] ∧ c'.takenPair = c.takenPair ∧
        ∀ x, c.vars.kernel.get x ≠ none → c'.vars.kernel.get x = c.vars.kernel.get x
    | .rejected _ _ => False
    | .crashed => True := by
  have hpush := h.push last
  cases suf with
  | none =>
    rw [Suffix.tokens, combine, if_neg hlast]
    exact ⟨hpush, rfl, rfl, fun _ _ => rfl⟩
  | pipe ds =>
    have hne : ds ≠ [] := hok.1.1
    have htok : strtok '|' ('|' :: ds) = some ds := strtok_cons hne (hok.1.not_mem (by decide))
    have heq : combine inp (Suffix.pipe ds).tokens last c = .ok ((c.push last).pipeOut false (atoi ds)) := by
      simp [Suffix.tokens, combine, ordinary, Shell.ordinary, htok, hne]
    rw [heq]
    exact ⟨hpush.pipeOut false _, rfl, rfl, fun x hx => pipeOut_get_of_open (c := c.push last) _ _ hx⟩
  | shock ds =>
    have hne : ds ≠ [] := hok.1.1
    have htok : strtok '!' ('!' :: ds) = some ds := strtok_cons hne (hok.1.not_mem (by decide))
    have heq : combine inp (Suffix.shock ds).tokens last c = .ok ((c.push last).pipeOut true (atoi ds)) := by
      simp [Suffix.tokens, combine, ordinary, Shell.ordinary, htok]
    rw [heq]
    exact ⟨hpush.pipeOut true _, rfl, rfl, fun x hx => pipeOut_get_of_open (c := c.push last) _ _ hx⟩
  | file name =>
    cases hfile : c.vars.createFile inp.opens name with
    | none =>
      have heq : combine inp (Suffix.file name).tokens last c = .crashed := by
        simp [Suffix.tokens, combine, ordinary, Shell.ordinary, hfile]
      rw [heq]
      trivial
    | some v =>
      have heq : combine inp (Suffix.file name).tokens last c =
          .ok { c.push last with vars := v, server := c.server.print [.fflush] } := by
        simp [Suffix.tokens, combine, ordinary, Shell.ordinary, hfile]
      rw [heq]
      exact ⟨hpush.file hfile, rfl, rfl, fun x _ => (createFile_frame hfile).1 x⟩

/-! ### The whole line -/

/-- The call before the process loop: the commands of the line are its rows, the pipe it takes is the one
    that waited in `L`, and with the pipe it makes `L'` is what waits now. -/
structure Loaded (s : Server) (w : ℕ) (l : UserLine) (L L' : Ledger (ℕ × ℕ)) (c : Call) : Prop
    extends Posting s w L' c where
  process : c.process = l.cmds
  read : ∀ a ∈ l.takes, ∃ id np, L.mail (a, w + 1) = some id ∧ c.takenPair = some np ∧
    c.vars.kernel.get np.1 = some (.pipeR id)
  same : l.gives = none → L' = L.collect (l.keys w)
  made : ∀ r ∈ l.gives, (L.collect (l.keys w)).mail (w + 1, r) = none ∧ c.receiver = some r ∧
    (c.vars.writeFileFlag = false ∧ c.vars.shockPipeOutFlag = false ∧ c.vars.numPipeOutFlag = false) ∧
    ∃ id, s.kernel.pipes ≤ id ∧ id < c.vars.kernel.pipes ∧ L' = (L.collect (l.keys w)).put (w + 1, r) id

theorem UserLine.takes_atoi {l : UserLine} (hok : l.Ok) (hfits : l.Fits) :
    (l.words.filterMap Word.take?).map atoi = l.takes.map Nat.cast := by
  rw [UserLine.takes, List.map_map]
  refine List.map_congr_left fun ds hds => ?_
  obtain ⟨w, hw, hsome⟩ := List.mem_filterMap.mp hds
  cases w with
  | arg t => cases hsome
  | take ds' =>
    cases hsome
    exact atoi_numeral (hok.words _ hw) (hfits.1 _ (List.mem_map_of_mem hds))

/-- Reading a line: it is rejected after taking what was there, or its pipes are as the ledger says. -/
theorem parse_loaded {s : Server} {u : ℕ} {L : Ledger (ℕ × ℕ)} {inp : LineInput} {l : UserLine}
    (hstart : Posting s u L (startCall s u)) (hu : u < qlen ∧ (s.user u).valid = true)
    (htok : tokens ' ' inp.line = l.tokens) (hok : l.Ok) (hfits : l.Fits)
    (hclear : Accepts s u l → l.Single u) :
    match parse s u inp with
    | .ok c => ∃ L', Loaded s u l L L' c
    | .rejected c _ => Posting s u (L.collect (l.keys u)) c
    | .crashed => True := by
  obtain ⟨last, hsplit, hparse⟩ := parse_userLine (s := s) (u := u) htok hok
  have hlast : last ≠ [] := (hok.cmds last (hsplit ▸ List.mem_concat_self)).1
  rw [hparse, UserLine.takes_atoi hok hfits]
  have htake := hstart.takeAll inp l.takes
  cases ht : (startCall s u).takeAll inp.command (l.takes.map Nat.cast) with
  | error ce =>
    rw [ht] at htake
    exact Posting.print htake _
  | ok c₁ =>
    rw [ht] at htake
    obtain ⟨hpost, hvars, hproc, hnodup, hall, hiff⟩ := htake
    have hrows := hpost.rows (c₁.process ++ l.cmds.dropLast)
    have hcmds : c₁.process ++ l.cmds.dropLast ++ [last] = l.cmds := by
      rw [hproc, List.append_assoc, hsplit]
      rfl
    dsimp only
    cases htail : l.tail with
    | plain suf =>
      have hgives : l.gives = none := by rw [UserLine.gives, htail]
      have hsingle := hclear ⟨hall, hnodup, by simp [hgives]⟩
      obtain ⟨-, hread⟩ := hstart.taken rfl hsingle.1 ht
      have hsuf : suf.Ok := by
        have := hok.tail
        rwa [htail] at this
      have hplain := hrows.plain inp hsuf hlast
      rw [Tail.tokens]
      cases hc : combine inp suf.tokens last { c₁ with process := c₁.process ++ l.cmds.dropLast } with
      | crashed => trivial
      | rejected c e =>
        rw [hc] at hplain
        exact hplain.elim
      | ok c =>
        rw [hc] at hplain
        obtain ⟨hc, hprocess, hpair, hkept⟩ := hplain
        refine ⟨_, hc, hprocess.trans hcmds, fun a ha => ?_, fun _ => rfl, by simp [hgives]⟩
        obtain ⟨id, np, hid, hnp, hget⟩ := hread a ha
        exact ⟨id, np, hid, hpair.trans hnp, (hkept np.1 (by simp [hget])).trans hget⟩
    | user ds =>
      have hnum : Numeral ds := by
        have := hok.tail
        rwa [htail] at this
      have hgives : l.gives = some (digitsVal 0 ds) := by rw [UserLine.gives, htail]
      have hatoi : atoi ds = (digitsVal 0 ds : ℕ) := atoi_numeral hnum (hfits.2 _ hgives)
      rw [Tail.tokens, combine_user inp _ _ hnum, hatoi]
      generalize digitsVal 0 ds = r at hgives
      have hpush := hrows.push last
      cases hm : (({ c₁ with process := c₁.process ++ l.cmds.dropLast } : Call).push last).makeUserPipe r with
      | error e => exact hpush.print _
      | ok c =>
        obtain ⟨hexist, hnone, hmade⟩ := makeUserPipe_ok.mp hm
        have hu₁ : c₁.u = u := hpost.u
        have hexist : s.checkIdExist r = true := by
          obtain ⟨h1, h30, hv⟩ := checkIdExist_natCast.mp hexist
          exact checkIdExist_natCast.mpr ⟨h1, h30, (hpost.valid _).symm.trans hv⟩
        have hnone : c₁.server.namePipeRecord (u + 1) r = false := by
          rw [Int.toNat_natCast] at hnone
          rw [← hu₁]
          exact hnone
        have hacc : Accepts s u l := by
          refine ⟨hall, hnodup, fun r' hr' => ?_⟩
          obtain rfl : r = r' := Option.some.inj (hgives.symm.trans hr')
          refine ⟨hexist, ?_⟩
          have hnot := mt (hiff (u + 1) r).mpr (by simp [hnone])
          by_cases hrec : s.namePipeRecord (u + 1) r = true
          · right
            by_contra hcon
            exact hnot ⟨hrec, fun hmem => hcon ⟨hmem.2, hmem.1⟩⟩
          · left
            exact Bool.eq_false_of_not_eq_true hrec
        obtain ⟨hone, hown⟩ := hclear hacc
        obtain ⟨hsender, hread⟩ := hstart.taken rfl hone ht
        have hmine : ¬ (c₁.sender = some (u + 1) ∧ r = u + 1) := by
          rintro ⟨hs, rfl⟩
          exact hown ⟨hsender _ hs, hgives⟩
        have hmake := hpush.make hu hm hmine
        obtain ⟨h1, -⟩ := checkIdExist_natCast.mp hexist
        rw [Int.toNat_natCast] at hmade
        subst hmade
        refine ⟨_, hmake, hcmds, fun a ha => ?_, by simp [hgives], fun r' hr' => ?_⟩
        · obtain ⟨id, np, hid, hnp, hget⟩ := hread a ha
          refine ⟨id, np, hid, (takenPair_made h1 hpush.sender ?_).trans hnp, ?_⟩
          · rintro ⟨hs, hr⟩
            have hr : r = c₁.u + 1 := hr
            have hs : c₁.sender = some (c₁.u + 1) := hs
            rw [hu₁] at hr hs
            exact hmine ⟨hs, hr⟩
          · have hopen : c₁.vars.kernel.get np.1 ≠ none := by simp [hget]
            exact (Kernel.get_pipe_of_open hopen).trans hget
        · obtain rfl : r = r' := Option.some.inj (hgives.symm.trans hr')
          refine ⟨?_, rfl, ?_, c₁.vars.kernel.pipes, hpost.pipes, Nat.lt_succ_self _, rfl⟩
          · rw [Option.eq_none_iff_forall_ne_some]
            intro id hid
            have := hpost.record hid
            rw [hnone] at this
            cases this
          · show c₁.vars.writeFileFlag = false ∧ c₁.vars.shockPipeOutFlag = false ∧
              c₁.vars.numPipeOutFlag = false
            rw [hvars]
            exact ⟨rfl, rfl, rfl⟩

end NetProg.Server
