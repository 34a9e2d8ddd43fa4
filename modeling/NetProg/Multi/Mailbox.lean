import Mathlib.Data.List.GetD
import NetProg.CString
import NetProg.Lib.Run

/-! The mailboxes of `np_multi_proc` (`broadcast_msg`, `tell` and `real_broadcast_msg`).

    A sender writes its message to the slot `msg_count` of the receiver, counts it and signals the
    process of the receiver. The handler prints the slots and then sets `msg_count` to 0, without the
    semaphore that the senders hold. So the moment between the last look at `msg_count` and the reset
    decides whether a message is lost. -/

namespace NetProg.Multi

/-- The index of a user. -/
abbrev Index := Fin 30

local instance instNeZeroIndex : NeZero 30 := ⟨by decide⟩

/-- A message in the buffer of its sender, which has `BROADCAT_MSG_LENGTH` chars. -/
structure Message where
  text : List Char
  fits : text.length < 1500
  deriving DecidableEq

/-- `sprintf(slot, msg, strlen(msg))`, with the message as the format. None stands for a conversion
    other than `%%`: what that writes is no longer the message, or undefined. -/
def sprintf : List Char → Option (List Char)
  | [] => some []
  | ['%'] => none
  | '%' :: '%' :: cs => (sprintf cs).map ('%' :: ·)
  | c :: cs => if c = '%' then none else (sprintf cs).map (c :: ·)

/-- `broadcast_msg` and `msg_count` of a user. -/
structure Mailbox where
  slots : List (List Char)
  msgCount : ℕ
  ten : slots.length = 10

/-- The users while they stay: who is valid, and the pid of each. A process serves one user. -/
structure Users (P : Type*) where
  valid : Index → Bool
  pid : Index → P
  one : ∀ i j, valid i = true → valid j = true → pid i = pid j → i = j

/-- A call of `broadcast_msg`, or the section of a `tell`. -/
inductive Send where
  | broadcastMsg (msg : Message)
  | tell (id : Index) (msg : Message)

/-- The next statement for a receiver: write the slot, count the message, signal the process. -/
inductive Statement where
  | write
  | count
  | signal

/-- The process that holds `clisem`, its message, and the receivers it has still to serve. -/
structure Sender (P : Type*) where
  process : P
  msg : Message
  todo : List Index
  statement : Statement

/-- Where `real_broadcast_msg` is: in its loop, or behind the loop, which has ended at `j`. -/
inductive Handler where
  | loop (j : ℕ)
  | reset (j : ℕ)

/-- The mailboxes, the handlers that run, the sender, and the pending `SIGUSR1`s. `sent` and
    `printed` are kept to speak about: what has been put into each mailbox, and what its process has
    printed. After an overrun `msg_count` itself holds a text. -/
structure Server (P : Type*) where
  mail : Index → Mailbox
  handler : Index → Option Handler
  sender : Option (Sender P)
  pending : P → Bool
  sent : Index → List (List Char)
  printed : Index → List (List Char)
  overrun : Bool

/-- What can happen next: a process enters a section, the one inside executes its next statement, a
    signal is delivered, or a handler executes its next statement. -/
inductive Action (P : Type*) where
  | semWait (p : P) (send : Send)
  | sender
  | deliver (p : P)
  | handler (i : Index)

variable {P : Type*} [DecidableEq P]

/-- The users a section is for. -/
def Users.receivers (u : Users P) : Send → List Index
  | .broadcastMsg _ => (List.finRange 30).filter fun i => u.valid i
  | .tell id _ => [id].filter fun i => u.valid i

/-- The message of a section. -/
def Send.msg : Send → Message
  | broadcastMsg m => m
  | tell _ m => m

/-- The mailbox `real_broadcast_msg` prints in a process: that of the first valid user with its pid. -/
def Users.own (u : Users P) (p : P) : Option Index :=
  (List.finRange 30).find? fun i => u.valid i && u.pid i = p

namespace Server

/-- Mailboxes that are empty. The slots hold old texts. -/
def start (mail : Index → Mailbox) : Server P where
  mail i := { mail i with msgCount := 0 }
  handler _ := none
  sender := none
  pending _ := false
  sent _ := []
  printed _ := []
  overrun := false

/-- The handler runs in this process, which does nothing else. -/
def busy (u : Users P) (s : Server P) (p : P) : Bool := (u.own p).any fun i => (s.handler i).isSome

/-- `sprintf(user[i].broadcast_msg[user[i].msg_count],msg,strlen(msg))`. -/
def write (s : Server P) (i : Index) (msg : Message) : Server P :=
  match sprintf msg.text with
  | some text =>
    if (s.mail i).msgCount < 10 then
      { s with
        mail := Function.update s.mail i
          ⟨(s.mail i).slots.set (s.mail i).msgCount text, (s.mail i).msgCount, by
            rw [List.length_set]
            exact (s.mail i).ten⟩
        sent := Function.update s.sent i (s.sent i ++ [msg.text]) }
    else { s with overrun := true }
  | none => { s with overrun := true }

/-- `user[i].msg_count = n`. -/
def setCount (s : Server P) (i : Index) (n : ℕ) : Server P :=
  { s with mail := Function.update s.mail i { s.mail i with msgCount := n } }

/-- A statement of the process in the section. -/
def senderStep (u : Users P) (s : Server P) (x : Sender P) : Server P :=
  match x.todo, x.statement with
  | [], _ => { s with sender := none }
  | i :: _, .write => { s.write i x.msg with sender := some { x with statement := .count } }
  | i :: _, .count =>
    { s.setCount i ((s.mail i).msgCount + 1) with sender := some { x with statement := .signal } }
  | i :: todo, .signal =>
    { s with
      pending := Function.update s.pending (u.pid i) true
      sender := some { x with todo := todo, statement := .write } }

/-- A statement of `real_broadcast_msg`. -/
def handlerStep (s : Server P) (i : Index) : Handler → Server P
  | .loop j =>
    if j < (s.mail i).msgCount then
      { s with
        printed := Function.update s.printed i (s.printed i ++ [(s.mail i).slots.getD j []])
        handler := Function.update s.handler i (some (.loop (j + 1))) }
    else { s with handler := Function.update s.handler i (some (.reset j)) }
  | .reset _ => { s.setCount i 0 with handler := Function.update s.handler i none }

/-- One action. -/
def step (u : Users P) (s : Server P) (a : Action P) : Option (Server P) :=
  if s.overrun then none
  else
    match a with
    | .semWait p send =>
      if s.sender.isNone ∧ s.busy u p = false ∧ u.receivers send ≠ [] then
        some { s with sender := some ⟨p, send.msg, u.receivers send, .write⟩ }
      else none
    | .sender =>
      s.sender.bind fun x => if s.busy u x.process then none else some (s.senderStep u x)
    | .deliver p =>
      if s.pending p = true ∧ s.busy u p = false then
        let s := { s with pending := Function.update s.pending p false }
        match u.own p with
        | some i => some { s with handler := Function.update s.handler i (some (.loop 0)) }
        | none => some s
      else none
    | .handler i => (s.handler i).map (s.handlerStep i)

/-- Whether a message has been written to the mailbox and not been counted yet. -/
def uncounted (s : Server P) (i : Index) : ℕ :=
  match s.sender with
  | some ⟨_, _, r :: _, .count⟩ => if r = i then 1 else 0
  | _ => 0

/-- How far the handler has come. -/
def progress (s : Server P) (i : Index) : ℕ :=
  match s.handler i with
  | some (.loop j) => j
  | some (.reset j) => j
  | none => 0

/-- The messages in the mailbox that have not been printed yet. -/
def unprinted (s : Server P) (i : Index) : List (List Char) :=
  ((s.mail i).slots.take ((s.mail i).msgCount + s.uncounted i)).drop (s.progress i)

/-- Every message of a valid user has been printed, once and in order, or is still in the mailbox, and
    no mailbox holds more than ten. -/
def Delivered (u : Users P) (s : Server P) : Prop :=
  s.overrun = false ∧ ∀ i, u.valid i = true →
    s.sent i = s.printed i ++ s.unprinted i ∧ (s.mail i).msgCount ≤ 10

/-- No `%` in a message that is written, and a free slot for it; and `msg_count` is set to 0 only when
    everything counted has been printed, and a message that is being put there is in slot 0. -/
def Careful (s : Server P) : Action P → Prop
  | .sender => ∀ p msg i todo, s.sender = some ⟨p, msg, i :: todo, .write⟩ →
      '%' ∉ msg.text ∧ (s.mail i).msgCount < 10
  | .handler i => ∀ j, s.handler i = some (.reset j) → (s.mail i).msgCount = j ∧
      ∀ p msg todo, s.sender = some ⟨p, msg, i :: todo, .count⟩ → (s.mail i).slots[0]? = some msg.text
  | _ => True

end Server

/-! ### `sprintf` -/

theorem sprintf_plain {cs : List Char} (h : '%' ∉ cs) : sprintf cs = some cs := by
  fun_induction sprintf cs with
  | case1 => rfl
  | case2 => simp at h
  | case3 => simp at h
  | case4 => simp at h
  | case5 c cs _ _ hc ih => rw [ih fun hm => h (List.mem_cons_of_mem c hm), Option.map_some]

/-- A text with a `%` is never written as it is. -/
theorem sprintf_shorter {cs text : List Char} (h : sprintf cs = some text) :
    text.length ≤ cs.length ∧ ('%' ∈ cs → text.length < cs.length) := by
  fun_induction sprintf cs generalizing text with
  | case1 =>
    obtain rfl := Option.some.inj h
    simp
  | case2 => cases h
  | case3 cs ih =>
    obtain ⟨rest, hrest, rfl⟩ := Option.map_eq_some_iff.mp h
    have hle := (ih hrest).1
    simp only [List.length_cons]
    omega
  | case4 => cases h
  | case5 c cs _ _ hc ih =>
    obtain ⟨rest, hrest, rfl⟩ := Option.map_eq_some_iff.mp h
    obtain ⟨hle, hlt⟩ := ih hrest
    simp only [List.length_cons, List.mem_cons, Ne.symm hc, false_or]
    exact ⟨by omega, fun hm => by have := hlt hm; omega⟩

/-! ### One mailbox -/

/-- What concerns one mailbox. -/
structure View where
  box : Mailbox
  uncounted : ℕ
  progress : ℕ
  sent : List (List Char)
  printed : List (List Char)

/-- The messages that are there and not printed. -/
def View.unprinted (v : View) : List (List Char) :=
  (v.box.slots.take (v.box.msgCount + v.uncounted)).drop v.progress

/-- Nothing is lost, the slots suffice, and the handler is not ahead of the count. -/
structure View.Good (v : View) : Prop where
  all : v.sent = v.printed ++ v.unprinted
  room : v.box.msgCount + v.uncounted ≤ 10
  ahead : v.progress ≤ v.box.msgCount

namespace View

variable {v : View}

/-- The mailbox after a message has been written to its next slot. -/
def written (v : View) (text : List Char) : View :=
  { v with
    box := ⟨v.box.slots.set v.box.msgCount text, v.box.msgCount, by
      rw [List.length_set]
      exact v.box.ten⟩
    uncounted := 1 }

/-- The slots up to and with the one that is written. -/
theorem unprinted_written (h : v.Good) (hnone : v.uncounted = 0) (hlt : v.box.msgCount < 10)
    (text : List Char) : (v.written text).unprinted = v.unprinted ++ [text] := by
  have hten := v.box.ten
  have htake : (v.box.slots.set v.box.msgCount text).take (v.box.msgCount + 1) =
      v.box.slots.take v.box.msgCount ++ [text] := by
    rw [List.take_add_one, List.take_set_of_le le_rfl, List.getElem?_set_self (by omega)]
    rfl
  have hahead := h.ahead
  simp only [unprinted, written, htake, hnone, Nat.add_zero]
  rw [List.drop_append_of_le_length]
  rw [List.length_take]
  omega

theorem good_written (h : v.Good) (hnone : v.uncounted = 0) (hlt : v.box.msgCount < 10)
    (text : List Char) : Good { v.written text with sent := v.sent ++ [text] } := by
  refine ⟨?_, hlt, h.ahead⟩
  have hun := unprinted_written h hnone hlt text
  show v.sent ++ [text] = v.printed ++ (v.written text).unprinted
  rw [hun, h.all, List.append_assoc]

/-- Only the text of the message itself may be written. -/
theorem text_of_all (h : v.Good) (hnone : v.uncounted = 0) (hlt : v.box.msgCount < 10)
    {text msg : List Char} (hall : v.sent ++ [msg] = v.printed ++ (v.written text).unprinted) :
    text = msg := by
  rw [unprinted_written h hnone hlt, h.all, List.append_assoc] at hall
  have hlast := List.append_cancel_left (List.append_cancel_left hall)
  simpa using hlast.symm

theorem good_count (h : v.Good) (hone : v.uncounted = 1) :
    Good { v with box := { v.box with msgCount := v.box.msgCount + 1 }, uncounted := 0 } := by
  have hall := h.all
  have hroom := h.room
  have hahead := h.ahead
  rw [unprinted, hone] at hall
  exact ⟨hall, by simp only; omega, by simp only; omega⟩

theorem good_print (h : v.Good) (hlt : v.progress < v.box.msgCount) :
    Good { v with progress := v.progress + 1, printed := v.printed ++ [v.box.slots.getD v.progress []] } := by
  have hten := v.box.ten
  have hroom := h.room
  refine ⟨?_, hroom, hlt⟩
  have hdrop : v.unprinted = v.box.slots.getD v.progress [] ::
      (v.box.slots.take (v.box.msgCount + v.uncounted)).drop (v.progress + 1) := by
    have hpos : v.progress < (v.box.slots.take (v.box.msgCount + v.uncounted)).length := by
      rw [List.length_take]
      omega
    have hget : v.box.slots.getD v.progress [] =
        (v.box.slots.take (v.box.msgCount + v.uncounted))[v.progress] := by
      rw [List.getElem_take, List.getD_eq_getElem]
    rw [hget]
    exact List.drop_eq_getElem_cons hpos
  rw [h.all, hdrop]
  simp [unprinted]

/-- The mailbox after `msg_count = 0`. -/
def emptied (v : View) : View :=
  { v with box := { v.box with msgCount := 0 }, progress := 0 }

/-- The reset loses nothing exactly when everything counted has been printed and a message that is
    not counted yet is also in slot 0. -/
theorem good_emptied_iff (h : v.Good) (hone : v.uncounted ≤ 1) :
    v.emptied.Good ↔ v.box.msgCount = v.progress ∧
      (v.uncounted = 1 → v.box.slots[0]? = v.box.slots[v.box.msgCount]?) := by
  have hten := v.box.ten
  have hroom := h.room
  have hahead := h.ahead
  have hnew : v.emptied.unprinted = v.box.slots.take v.uncounted := by
    simp [emptied, unprinted]
  have hlen : v.unprinted.length = v.box.msgCount + v.uncounted - v.progress := by
    rw [unprinted, List.length_drop, List.length_take]
    omega
  have hiff : v.emptied.Good ↔ v.unprinted = v.box.slots.take v.uncounted := by
    constructor
    · intro hgood
      have hall : v.sent = v.printed ++ v.emptied.unprinted := hgood.all
      rw [h.all, hnew] at hall
      exact List.append_cancel_left hall
    · intro heq
      refine ⟨?_, by simp only [emptied]; omega, le_rfl⟩
      show v.sent = v.printed ++ v.emptied.unprinted
      rw [h.all, hnew, heq]
  rw [hiff]
  have hone' : v.uncounted = 0 ∨ v.uncounted = 1 := by omega
  rcases hone' with hunc | hunc
  · rw [hunc, List.take_zero, List.eq_nil_iff_length_eq_zero, hlen, hunc]
    simp only [Nat.zero_ne_one, false_implies, and_true]
    omega
  · constructor
    · intro heq
      have hcount := congrArg List.length heq
      rw [hlen, List.length_take, hunc, hten] at hcount
      have hprog : v.box.msgCount = v.progress := by omega
      refine ⟨hprog, fun _ => ?_⟩
      have hhead := congrArg (·[0]?) heq
      simp only [unprinted, hunc, List.getElem?_drop, List.getElem?_take] at hhead
      simpa [hprog, eq_comm] using hhead
    · rintro ⟨hprog, hslot⟩
      have hslot := hslot hunc
      rw [unprinted, hunc, ← hprog, List.take_add_one, List.drop_append_of_le_length (by simp; omega)]
      rw [← hslot, List.take_add_one]
      simp

end View

/-! ### One action -/

namespace Server

/-- What concerns the mailbox of a user. -/
def view (s : Server P) (i : Index) : View :=
  ⟨s.mail i, s.uncounted i, s.progress i, s.sent i, s.printed i⟩

/-- What holds as long as the actions are `Careful`. -/
structure Sound (u : Users P) (s : Server P) : Prop where
  inside : s.overrun = false
  good : ∀ i, (s.view i).Good
  handled : ∀ i, (s.handler i).isSome = true → u.valid i = true
  todo : ∀ x, s.sender = some x → ∀ i ∈ x.todo, u.valid i = true
  written : ∀ p msg i todo, s.sender = some ⟨p, msg, i :: todo, .count⟩ →
    (s.mail i).slots[(s.mail i).msgCount]? = some msg.text

variable {u : Users P} {s t : Server P}

section

omit [DecidableEq P]

theorem uncounted_le (s : Server P) (i : Index) : s.uncounted i ≤ 1 := by
  unfold uncounted
  split
  · split_ifs <;> omega
  · omega

theorem uncounted_of_count {p : P} {msg : Message} {r : Index} {todo : List Index}
    (h : s.sender = some ⟨p, msg, r :: todo, .count⟩) (i : Index) :
    s.uncounted i = if r = i then 1 else 0 := by
  rw [uncounted, h]

theorem uncounted_of_ne {x : Sender P} (h : s.sender = some x) (hx : x.statement ≠ .count) (i : Index) :
    s.uncounted i = 0 := by
  unfold uncounted
  split
  · next heq =>
    rw [h] at heq
    cases heq
    exact absurd rfl hx
  · rfl

theorem uncounted_of_none (h : s.sender = none) (i : Index) : s.uncounted i = 0 := by
  rw [uncounted, h]

theorem Sound.delivered (h : s.Sound u) : s.Delivered u := by
  refine ⟨h.inside, fun i _ => ⟨(h.good i).all, ?_⟩⟩
  have hroom := (h.good i).room
  simp only [view] at hroom
  omega

theorem sound_start (mail : Index → Mailbox) : (start mail : Server P).Sound u := by
  refine ⟨rfl, fun i => ⟨?_, ?_, ?_⟩, ?_, ?_, ?_⟩
  · simp [view, View.unprinted, start, uncounted]
  · simp [view, start, uncounted]
  · simp [view, start, progress]
  · simp [start]
  · simp [start]
  · simp [start]

theorem receivers_valid {send : Send} {i : Index} (h : i ∈ u.receivers send) : u.valid i = true := by
  cases send with
  | broadcastMsg msg => exact (List.mem_filter.mp h).2
  | tell id msg => exact (List.mem_filter.mp h).2

/-- The next message is written to its slot. -/
theorem sound_write (h : s.Sound u) {p : P} {msg : Message} {i : Index} {todo : List Index}
    (hx : s.sender = some ⟨p, msg, i :: todo, .write⟩) (hplain : '%' ∉ msg.text)
    (hlt : (s.mail i).msgCount < 10) :
    ({ s.write i msg with sender := some ⟨p, msg, i :: todo, .count⟩ } : Server P).Sound u := by
  have hnone : ∀ k, s.uncounted k = 0 := uncounted_of_ne hx (by simp)
  have hten := (s.mail i).ten
  simp only [write, sprintf_plain hplain, if_pos hlt]
  refine ⟨h.inside, fun k => ?_, h.handled, ?_, ?_⟩
  · by_cases hk : k = i
    · subst hk
      have hgood := View.good_written (h.good k) (hnone k) hlt msg.text
      simpa [view, View.written, uncounted, progress] using hgood
    · have hgood := h.good k
      rw [view, hnone k] at hgood
      simpa [view, uncounted, progress, hk, Ne.symm hk] using hgood
  · rintro x hs
    obtain rfl := Option.some.inj hs
    exact fun k hk => h.todo _ hx k hk
  · rintro p' msg' i' todo' hs
    cases hs
    simp only [Function.update_self]
    exact List.getElem?_set_self (by omega)

/-- The message is counted. -/
theorem sound_count (h : s.Sound u) {p : P} {msg : Message} {i : Index} {todo : List Index}
    (hx : s.sender = some ⟨p, msg, i :: todo, .count⟩) :
    Sound u { s.setCount i ((s.mail i).msgCount + 1) with sender := some ⟨p, msg, i :: todo, .signal⟩ } := by
  have hunc := uncounted_of_count hx
  refine ⟨h.inside, fun k => ?_, h.handled, ?_, ?_⟩
  · by_cases hk : k = i
    · subst hk
      have hgood := View.good_count (h.good k) (by rw [view, hunc, if_pos rfl])
      simpa [view, setCount, uncounted, progress] using hgood
    · have hgood := h.good k
      have hzero : s.uncounted k = 0 := by rw [hunc, if_neg (Ne.symm hk)]
      rw [view, hzero] at hgood
      simpa [view, setCount, uncounted, progress, hk] using hgood
  · rintro x hs
    obtain rfl := Option.some.inj hs
    exact fun k hk => h.todo _ hx k hk
  · rintro p' msg' i' todo' hs
    cases hs

/-- The sender moves without touching a mailbox. -/
theorem sound_sender (h : s.Sound u) (hnone : ∀ i, s.uncounted i = 0) (x : Option (Sender P))
    (pending : P → Bool) (hx : ∀ y, x = some y → y.statement ≠ .count ∧ ∀ i ∈ y.todo, u.valid i = true) :
    ({ s with sender := x, pending := pending } : Server P).Sound u := by
  have hzero : ∀ i, uncounted { s with sender := x, pending := pending } i = 0 := by
    intro i
    cases hxs : x with
    | none => exact uncounted_of_none rfl i
    | some y => exact uncounted_of_ne rfl (hx y hxs).1 i
  refine ⟨h.inside, fun i => ?_, h.handled, fun y hy => (hx y hy).2, ?_⟩
  · have hgood := h.good i
    rw [view, hnone i] at hgood
    rw [view, hzero i]
    exact hgood
  · rintro p msg i todo hs
    exact absurd rfl (hx _ hs).1

/-- A statement of the handler's loop. -/
theorem sound_loop (h : s.Sound u) {i : Index} {j : ℕ} (hi : s.handler i = some (.loop j)) :
    (s.handlerStep i (.loop j)).Sound u := by
  have hprog : s.progress i = j := by rw [progress, hi]
  have hvalid : u.valid i = true := h.handled i (by rw [hi]; rfl)
  have hhandled : ∀ x k, (Function.update s.handler i x k).isSome = true → u.valid k = true := by
    intro x k hk
    by_cases hki : k = i
    · exact hki ▸ hvalid
    · rw [Function.update_of_ne hki] at hk
      exact h.handled k hk
  simp only [handlerStep]
  split_ifs with hlt
  · refine ⟨h.inside, fun k => ?_, hhandled _, h.todo, h.written⟩
    by_cases hk : k = i
    · subst hk
      have hgood := View.good_print (h.good k) (by simpa [view, hprog] using hlt)
      simpa [view, uncounted, progress, hi] using hgood
    · simpa [view, uncounted, progress, hk] using h.good k
  · refine ⟨h.inside, fun k => ?_, hhandled _, h.todo, h.written⟩
    by_cases hk : k = i
    · subst hk
      simpa [view, uncounted, progress, hi] using h.good k
    · simpa [view, uncounted, progress, hk] using h.good k

theorem view_reset (s : Server P) (i : Index) (j : ℕ) :
    (s.handlerStep i (.reset j)).view i = (s.view i).emptied ∧
      ∀ k, k ≠ i → (s.handlerStep i (.reset j)).view k = s.view k := by
  refine ⟨?_, fun k hk => ?_⟩
  · simp [view, View.emptied, handlerStep, setCount, uncounted, progress]
  · simp [view, handlerStep, setCount, uncounted, progress, hk]

/-- The reset of a handler, when it is careful. -/
theorem sound_reset (h : s.Sound u) {i : Index} {j : ℕ} (hi : s.handler i = some (.reset j))
    (ha : s.Careful (.handler i : Action P)) : (s.handlerStep i (.reset j)).Sound u := by
  obtain ⟨hcount, hslot⟩ := ha j hi
  have hprog : s.progress i = j := by rw [progress, hi]
  obtain ⟨hview, hothers⟩ := view_reset s i j
  -- a message that is being put there is the one in slot 0
  have hsame : ∀ p msg todo, s.sender = some ⟨p, msg, i :: todo, .count⟩ →
      (s.mail i).slots[0]? = (s.mail i).slots[(s.mail i).msgCount]? := by
    intro p msg todo hx
    rw [hslot p msg todo hx, h.written p msg i todo hx]
  have hunc : s.uncounted i = 1 → (s.mail i).slots[0]? = (s.mail i).slots[(s.mail i).msgCount]? := by
    unfold uncounted
    split
    · next p msg r todo hx =>
      intro hr
      obtain rfl : r = i := by simpa using hr
      exact hsame p msg todo hx
    · intro hr
      cases hr
  refine ⟨h.inside, fun k => ?_, fun k hk => ?_, h.todo, ?_⟩
  · by_cases hk : k = i
    · subst hk
      rw [hview]
      refine (View.good_emptied_iff (h.good k) (uncounted_le s k)).mpr ⟨?_, hunc⟩
      simpa [view, hprog] using hcount
    · rw [hothers k hk]
      exact h.good k
  · by_cases hki : k = i
    · simp [hki, handlerStep] at hk
    · simp only [handlerStep, Function.update_of_ne hki] at hk
      exact h.handled k hk
  · intro p msg k todo hx
    by_cases hk : k = i
    · subst hk
      simpa [handlerStep, setCount] using hslot p msg todo hx
    · simpa [handlerStep, setCount, hk] using h.written p msg k todo hx

end

theorem own_valid {p : P} {i : Index} (h : u.own p = some i) : u.valid i = true := by
  have hfound := List.find?_some h
  simp only [Bool.and_eq_true] at hfound
  exact hfound.1

/-- The handler of a process that is not busy has not been started. -/
theorem handler_of_not_busy {p : P} {i : Index} (hown : u.own p = some i) (hfree : s.busy u p = false) :
    s.handler i = none := by
  rw [busy, hown] at hfree
  simpa using hfree

/-- The statements of the sender, when it is careful. -/
theorem sound_senderStep (h : s.Sound u) {x : Sender P} (hx : s.sender = some x)
    (ha : s.Careful (.sender : Action P)) : (s.senderStep u x).Sound u := by
  obtain ⟨p, msg, todo, statement⟩ := x
  have hvalid := h.todo _ hx
  cases todo with
  | nil =>
    have hnone : ∀ i, s.uncounted i = 0 := fun i => by
      cases statement <;> simp [uncounted, hx]
    exact sound_sender h hnone none s.pending (by simp)
  | cons i todo =>
    cases statement with
    | write =>
      obtain ⟨hplain, hlt⟩ := ha p msg i todo hx
      exact sound_write h hx hplain hlt
    | count => exact sound_count h hx
    | signal =>
      refine sound_sender h (uncounted_of_ne hx (by simp)) (some ⟨p, msg, todo, .write⟩) _ ?_
      rintro y hy
      obtain rfl := Option.some.inj hy
      exact ⟨by simp, fun k hk => hvalid k (List.mem_cons_of_mem i hk)⟩

/-- A careful action loses nothing. -/
theorem sound_step (s : Server P) (a : Action P) (t : Server P) (h : s.Sound u) (ha : s.Careful a)
    (hs : s.step u a = some t) : t.Sound u := by
  unfold step at hs
  rw [if_neg (by simp [h.inside])] at hs
  cases a with
  | semWait p send =>
    simp only [Option.ite_none_right_eq_some, Option.some.injEq, Option.isNone_iff_eq_none] at hs
    obtain ⟨⟨hfree, -, -⟩, rfl⟩ := hs
    refine sound_sender h (uncounted_of_none hfree) (some _) s.pending ?_
    rintro y hy
    obtain rfl := Option.some.inj hy
    exact ⟨by simp, fun i hi => receivers_valid hi⟩
  | sender =>
    obtain ⟨x, hx, hs⟩ := Option.bind_eq_some_iff.mp hs
    split_ifs at hs
    obtain rfl := Option.some.inj hs
    exact sound_senderStep h hx ha
  | deliver p =>
    simp only [Option.ite_none_right_eq_some] at hs
    obtain ⟨⟨-, hfree⟩, hs⟩ := hs
    cases hown : u.own p with
    | none =>
      simp only [hown, Option.some.injEq] at hs
      subst hs
      exact ⟨h.inside, h.good, h.handled, h.todo, h.written⟩
    | some i =>
      simp only [hown, Option.some.injEq] at hs
      subst hs
      have hnone := handler_of_not_busy hown hfree
      refine ⟨h.inside, fun k => ?_, fun k hk => ?_, h.todo, h.written⟩
      · by_cases hk : k = i
        · subst hk
          simpa [view, uncounted, progress, hnone] using h.good k
        · simpa [view, uncounted, progress, hk] using h.good k
      · by_cases hki : k = i
        · exact hki ▸ own_valid hown
        · simp only [Function.update_of_ne hki] at hk
          exact h.handled k hk
  | handler i =>
    obtain ⟨x, hx, rfl⟩ := Option.map_eq_some_iff.mp hs
    cases x with
    | loop j => exact sound_loop h hx
    | reset j => exact sound_reset h hx ha

/-- Any other action loses a message, puts another text in its place, or overruns the mailbox. -/
theorem careless_step (s : Server P) (a : Action P) (t : Server P) (h : s.Sound u) (ha : ¬ s.Careful a)
    (hs : s.step u a = some t) : ¬ t.Delivered u := by
  unfold step at hs
  rw [if_neg (by simp [h.inside])] at hs
  rintro ⟨hinside, hall⟩
  cases a with
  | semWait p send => exact ha trivial
  | deliver p => exact ha trivial
  | sender =>
    obtain ⟨x, hx, hs⟩ := Option.bind_eq_some_iff.mp hs
    split_ifs at hs
    obtain rfl := Option.some.inj hs
    simp only [Careful, not_forall] at ha
    obtain ⟨p, msg, i, todo, hx', hbad⟩ := ha
    obtain rfl := Option.some.inj (hx.symm.trans hx')
    refine hbad ?_
    have hvalid := h.todo _ hx i List.mem_cons_self
    have hnone : s.uncounted i = 0 := uncounted_of_ne hx (by simp) i
    simp only [senderStep, write] at hinside hall
    cases hsprintf : sprintf msg.text with
    | none => simp [hsprintf] at hinside
    | some text =>
      simp only [hsprintf] at hinside hall
      split_ifs at hinside hall with hlt
      refine ⟨fun hmem => ?_, hlt⟩
      have hsent := (hall i hvalid).1
      have htext : text = msg.text := by
        refine View.text_of_all (h.good i) hnone hlt ?_
        simpa [view, View.written, View.unprinted, unprinted, uncounted, progress] using hsent
      have hshort := (sprintf_shorter hsprintf).2 hmem
      rw [htext] at hshort
      exact lt_irrefl _ hshort
  | handler i =>
    obtain ⟨x, hx, rfl⟩ := Option.map_eq_some_iff.mp hs
    simp only [Careful, not_forall] at ha
    obtain ⟨j, hj, hbad⟩ := ha
    obtain rfl := Option.some.inj (hx.symm.trans hj)
    refine hbad ?_
    have hvalid := h.handled i (by rw [hx]; rfl)
    have hprog : s.progress i = j := by rw [progress, hx]
    obtain ⟨hview, -⟩ := view_reset s i j
    have hunc := uncounted_le s i
    have hgood : (s.view i).emptied.Good := by
      rw [← hview]
      refine ⟨(hall i hvalid).1, ?_, ?_⟩
      · rw [hview]
        simp only [View.emptied, view]
        omega
      · rw [hview]
        exact le_rfl
    obtain ⟨hcount, hslot⟩ := (View.good_emptied_iff (h.good i) hunc).mp hgood
    refine ⟨by simpa [view, hprog] using hcount, fun p msg todo hsender => ?_⟩
    have hone : s.uncounted i = 1 := by rw [uncounted_of_count hsender, if_pos rfl]
    exact (hslot hone).trans (h.written p msg i todo hsender)

/-- Users 1 and 2, with the pids 1 and 2. -/
def two : Users ℕ where
  valid i := i.val = 1 ∨ i.val = 2
  pid i := i.val
  one _ _ _ _ h := Fin.ext h

/-- Mailboxes with ten empty slots. -/
def emptySlots : Index → Mailbox := fun _ => ⟨List.replicate 10 [], 0, rfl⟩

/-- User 1 tells user 2 a word. -/
def tellTwo (word : List Char) (h : word.length < 1500) : Action ℕ := .semWait 1 (.tell 2 ⟨word, h⟩)

/-- The whole section of a `tell`. -/
def tellSection (word : List Char) (h : word.length < 1500) : List (Action ℕ) :=
  [tellTwo word h, .sender, .sender, .sender, .sender]

end Server

end NetProg.Multi
