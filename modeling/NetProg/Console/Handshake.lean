import NetProg.Console.Model

/-! How the console reads the reply of the SOCKS server (`NpShellConnect::get_sock_reply`).

    It reads once and looks at the second byte of `_reply`, whatever the length of the read is. What
    came with the reply is lost to the `NpShellRun`, and what did not come is taken from the memory. -/

namespace NetProg.Console

/-- The size of `_reply`. -/
def maxLength : ℕ := 1024

/-- The 90 of a granted request. -/
def granted : Char := 'Z'

/-- An `NpShellConnect` that waits for the reply, with what is in `_reply`; with its `NpShellRun` and
    the bytes this has got; or with nothing more to do. -/
inductive NpShellConnect where
  | getSockReply (reply : List Char)
  | run (shell : NpShellRun) (processed : List Char)
  | ended

namespace NpShellConnect

/-- Some bytes are read. -/
def onRead (id file : List Char) : NpShellConnect → List Char → NpShellConnect
  | getSockReply reply, data =>
    if (data ++ reply.drop data.length)[1]? = some granted then run (.start id file) [] else ended
  | run shell processed, data => run (shell.doRead data) (processed ++ data)
  | ended, _ => ended

/-- Whether the reply has been judged. -/
def decided : NpShellConnect → Bool
  | getSockReply _ => false
  | _ => true

/-- The bytes the `NpShellRun` has got, if there is one. -/
def processed : NpShellConnect → Option (List Char)
  | run _ processed => some processed
  | _ => none

/-- After some reads. -/
def after (id file reply : List Char) (reads : List (List Char)) : NpShellConnect :=
  reads.foldl (onRead id file) (getSockReply reply)

end NpShellConnect

open NpShellConnect

/-- The reads of a stream: one into `_reply`, and the later ones into `buffer`. -/
def readsOf (first : Chunk maxLength) (rest : List (Chunk bufferSize)) : List (List Char) :=
  first.data :: rest.map (·.data)

/-- The handshake as it should be: there is an `NpShellRun` exactly when the second byte grants the
    request, nothing is decided before eight bytes have come, and the `NpShellRun` gets all the rest. -/
structure Handshake (id file reply : List Char) (reads : List (List Char)) : Prop where
  started : (∃ bytes, (after id file reply reads).processed = some bytes) ↔
    reads.flatten[1]? = some granted
  waits : ∀ early, early <+: reads → (after id file reply early).decided = true →
    8 ≤ early.flatten.length
  all : ∀ bytes, (after id file reply reads).processed = some bytes → bytes = reads.flatten.drop 8

theorem processed_run (id file : List Char) : ∀ (reads : List (List Char)) (shell : NpShellRun)
    (bytes : List Char),
    (reads.foldl (onRead id file) (run shell bytes)).processed = some (bytes ++ reads.flatten)
  | [], shell, bytes => by simp [processed]
  | data :: reads, shell, bytes => by
    rw [List.foldl_cons, List.flatten_cons, ← List.append_assoc]
    exact processed_run id file reads (shell.doRead data) (bytes ++ data)

theorem foldl_ended (id file : List Char) : ∀ reads : List (List Char),
    reads.foldl (onRead id file) ended = ended
  | [] => rfl
  | _ :: reads => foldl_ended id file reads

/-- What the first read decides. -/
theorem processed_after (id file reply first : List Char) (rest : List (List Char)) :
    (after id file reply (first :: rest)).processed =
      if (first ++ reply.drop first.length)[1]? = some granted then some rest.flatten else none := by
  rw [after, List.foldl_cons, onRead]
  split_ifs
  · exact processed_run id file rest _ []
  · rw [foldl_ended]
    rfl

theorem decided_after (id file reply first : List Char) :
    (after id file reply [first]).decided = true := by
  rw [after, List.foldl_cons, List.foldl_nil, onRead]
  split_ifs <;> rfl

/-- The handshake is as it should be exactly when the first read is the reply alone, or more than the
    reply of a request that is not granted. -/
theorem handshake_iff (id file reply : List Char) (first : Chunk maxLength)
    (rest : List (Chunk bufferSize)) :
    Handshake id file reply (readsOf first rest) ↔ first.data.length = 8 ∨
      (8 < first.data.length ∧ (readsOf first rest).flatten[1]? ≠ some granted) := by
  set later := rest.map (·.data) with hlater
  have hreads : readsOf first rest = first.data :: later := rfl
  rw [hreads]
  -- with two bytes in the first read the memory does not matter
  have hsecond : 2 ≤ first.data.length → (first.data ++ reply.drop first.data.length)[1]? =
      (first.data :: later).flatten[1]? := by
    intro h2
    rw [List.flatten_cons, List.getElem?_append_left (by omega), List.getElem?_append_left (by omega)]
  constructor
  · rintro ⟨hstarted, hwaits, hall⟩
    have hlen : 8 ≤ first.data.length := by
      have := hwaits [first.data] ⟨later, rfl⟩ (decided_after id file reply first.data)
      simpa using this
    by_cases hgrant : (first.data :: later).flatten[1]? = some granted
    · obtain ⟨bytes, hbytes⟩ := hstarted.mpr hgrant
      have hdrop := hall bytes hbytes
      rw [processed_after, hsecond (by omega), if_pos hgrant] at hbytes
      have hlater' : later.flatten.length = ((first.data :: later).flatten.drop 8).length := by
        rw [Option.some.inj hbytes, hdrop]
      rw [List.length_drop, List.flatten_cons, List.length_append] at hlater'
      exact Or.inl (by omega)
    · rcases Nat.eq_or_lt_of_le hlen with heq | hlt
      · exact Or.inl heq.symm
      · exact Or.inr ⟨hlt, hgrant⟩
  · intro h
    have hlen : 8 ≤ first.data.length := by
      rcases h with h | h
      · exact h.ge
      · exact h.1.le
    have hprocessed := processed_after id file reply first.data later
    rw [hsecond (by omega)] at hprocessed
    refine ⟨?_, fun early hearly hdec => ?_, fun bytes hbytes => ?_⟩
    · rw [hprocessed]
      by_cases hgrant : (first.data :: later).flatten[1]? = some granted
      · rw [if_pos hgrant]
        exact ⟨fun _ => hgrant, fun _ => ⟨_, rfl⟩⟩
      · rw [if_neg hgrant]
        refine ⟨?_, fun h => absurd h hgrant⟩
        rintro ⟨_, ⟨⟩⟩
    · rcases early with - | ⟨data, early⟩
      · cases hdec
      · obtain ⟨rfl, -⟩ := List.cons_prefix_cons.mp hearly
        rw [List.flatten_cons, List.length_append]
        omega
    · rw [hprocessed] at hbytes
      split_ifs at hbytes with hgrant
      obtain rfl := Option.some.inj hbytes
      have heq : first.data.length = 8 := h.resolve_right fun hno => hno.2 hgrant
      rw [List.flatten_cons, ← heq, List.drop_left]

/-- The reply and the first prompt in one read: the prompt is lost. -/
def gluedReply : Chunk maxLength :=
  ⟨['\x00', granted, '\x00', '\x00', '\x00', '\x00', '\x00', '\x00', '%', ' '], by decide, by decide⟩

theorem handshake_loses_prompt : 8 ≤ (readsOf gluedReply []).flatten.length ∧
    ¬ Handshake ['s', '0'] ['l', 's', '\n'] (List.replicate 1024 '\x00') (readsOf gluedReply []) := by
  refine ⟨by decide, fun h => ?_⟩
  have hall := h.all []
  rw [readsOf, List.map_nil, processed_after] at hall
  exact absurd (hall (by decide)) (by decide)

end NetProg.Console
