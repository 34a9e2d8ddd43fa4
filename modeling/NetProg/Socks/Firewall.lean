import NetProg.Lib.Pieces
import NetProg.Socks.Relay

/-! The firewall of the SOCKS server (`parse_request` and `firewall` of `socks_server.cpp`).

    A rule names a command and a pattern of four parts, each an octet or a star. The firewall cuts the
    pattern at its first star and asks whether the rest begins the destination as text. So the parts
    after a star are not looked at, and a last octet is taken for every octet it begins. -/

namespace NetProg.Socks

/-! ### The request -/

/-- The loop of `bytetoint`: the lowest bit counts `r`, and the char is shifted right with its sign. -/
def bytetointLoop : ℕ → BitVec 8 → ℕ → ℕ → ℕ
  | 0, _, _, a => a
  | n + 1, c, r, a => bytetointLoop n (c.sshiftRight 1) (r * 2) (a + (c &&& 1).toNat * r)

/-- `bytetoint`. -/
def bytetoint (c : UInt8) : ℕ := bytetointLoop 8 c.toBitVec 1 0

theorem bytetoint_eq (c : UInt8) : bytetoint c = c.toNat := by
  have h : ∀ b : BitVec 8, bytetointLoop 8 b 1 0 = b.toNat := by decide +kernel
  exact h c.toBitVec

/-- `to_string` of a number that is not negative. -/
def decimalText (n : ℕ) : List Char := Nat.toDigits 10 n

/-- The entries of `_sock_request` that come from the request. An entry that was not set is the
    empty string. -/
structure SockRequest where
  vn : List Char
  cd : List Char
  dstPort : List Char
  dstIp : List Char
  deriving DecidableEq

/-- `_sock_request` before the request is parsed. -/
def SockRequest.empty : SockRequest := ⟨[], [], [], []⟩

/-- One char of `_request`. -/
def byteAt (request : Buffer maxLength) (i : ℕ) : UInt8 := request.bytes.getD i 0

/-- `parse_request`: a command byte other than 1 and 2 leaves `CD` as it was. -/
def parseRequest (request : Buffer maxLength) (q : SockRequest) : SockRequest where
  vn := decimalText (bytetoint (byteAt request 0))
  cd :=
    if bytetoint (byteAt request 1) = 1 then ['c']
    else if bytetoint (byteAt request 1) = 2 then ['b']
    else q.cd
  dstPort := decimalText (bytetoint (byteAt request 2) * 256 + bytetoint (byteAt request 3))
  dstIp := decimalText (bytetoint (byteAt request 4)) ++ ['.'] ++
    decimalText (bytetoint (byteAt request 5)) ++ ['.'] ++
    decimalText (bytetoint (byteAt request 6)) ++ ['.'] ++
    decimalText (bytetoint (byteAt request 7))

/-! ### The rules -/

/-- The word a rule begins with. -/
def permitWord : List Char := ['p', 'e', 'r', 'm', 'i', 't']

/-- Whether one line lets a request pass. A line with too few words is read past the end of
    `socks_vec`. -/
def permitLine (cd dstIp line : List Char) : Option Bool :=
  match pieces isSpace (line.takeWhile (· != '#')) with
  | [] => none
  | word :: rest =>
    if word = permitWord then
      match rest with
      | [] => none
      | command :: rest =>
        if command = cd then
          match rest with
          | [] => none
          | word :: _ =>
            let pattern := word.takeWhile (· != '*')
            some (dstIp.take pattern.length == pattern)
        else some false
    else some false

/-- The loop of `firewall`. -/
def firewallLoop (cd dstIp : List Char) : List (List Char) → Option ℤ
  | [] => some (-1)
  | line :: lines =>
    (permitLine cd dstIp line).bind fun b => if b then some 1 else firewallLoop cd dstIp lines

/-- `firewall`, on the content of `socks.conf` if it can be opened. -/
def firewall (conf : Option (List Char)) (q : SockRequest) (cd : List Char) : Option ℤ :=
  match conf with
  | none => some (-1)
  | some file => firewallLoop cd q.dstIp (getLines file)

/-! ### What the rules mean -/

/-- A part of a pattern. -/
inductive Part where
  | star
  | octet (digits : List Char)
  deriving DecidableEq

/-- How a part is written. -/
def Part.text : Part → List Char
  | star => ['*']
  | octet ds => ds

/-- An octet is written in decimal digits and at most 255. -/
def Part.WellFormed : Part → Prop
  | star => True
  | octet ds => Numeral ds ∧ digitsVal 0 ds ≤ 255

/-- Whether a part lets an octet of the destination pass. -/
def Part.Admits : Part → ℕ → Prop
  | star, _ => True
  | octet ds, o => digitsVal 0 ds = o

/-- Words joined by dots. -/
def dotted : List (List Char) → List Char
  | [] => []
  | [w] => w
  | w :: v :: ws => w ++ '.' :: dotted (v :: ws)

/-- `permit <command> <parts>`. -/
structure Rule where
  command : Char
  parts : List Part

/-- The command is `c` or `b`, and the pattern has four parts. -/
structure Rule.WellFormed (r : Rule) : Prop where
  command : r.command = 'c' ∨ r.command = 'b'
  four : r.parts.length = 4
  parts : ∀ p ∈ r.parts, p.WellFormed

/-- A line that writes a rule, perhaps with a comment. -/
def Writes (line : List Char) (r : Rule) : Prop :=
  ∃ text, '#' ∉ text ∧ (line = text ∨ ∃ comment, line = text ++ '#' :: comment) ∧
    pieces isSpace text = [permitWord, [r.command], dotted (r.parts.map Part.text)]

/-- The letter of a command byte. -/
def commandLetter (b : UInt8) : Option Char :=
  if b.toNat = 1 then some 'c' else if b.toNat = 2 then some 'b' else none

/-- The destination of a request. -/
def octets (request : Buffer maxLength) : List ℕ :=
  [(byteAt request 4).toNat, (byteAt request 5).toNat, (byteAt request 6).toNat,
    (byteAt request 7).toNat]

/-- A rule is for the command of the request and each of its parts lets the octet pass. -/
def Rule.Matches (r : Rule) (request : Buffer maxLength) : Prop :=
  commandLetter (byteAt request 1) = some r.command ∧ List.Forall₂ Part.Admits r.parts (octets request)

/-- Some rule lets the request pass. -/
def Permits (rules : List Rule) (request : Buffer maxLength) : Prop :=
  ∃ r ∈ rules, r.Matches request

/-! ### Where text and octets differ -/

/-- Up to the first star the octets are written as `to_string` writes them, without leading zeros. -/
def Plain : List Part → Prop
  | [] => True
  | .star :: _ => True
  | .octet ds :: ps => decimalText (digitsVal 0 ds) = ds ∧ Plain ps

/-- The parts do not let the destination pass but its text begins like them: an octet after the first
    star is another one, or the last octet is the beginning of that of the destination. -/
def Loose : List Part → List ℕ → Prop
  | .star :: ps, _ :: os => ¬ List.Forall₂ Part.Admits ps os
  | [.octet ds], [o] => ds <+: decimalText o ∧ ds ≠ decimalText o
  | .octet ds :: p :: ps, o :: o' :: os => ds = decimalText o ∧ Loose (p :: ps) (o' :: os)
  | _, _ => False

/-- A rule for the command of the request that is taken for a match and is none. -/
def Rule.Loose (r : Rule) (request : Buffer maxLength) : Prop :=
  commandLetter (byteAt request 1) = some r.command ∧ Socks.Loose r.parts (octets request)

/-- A rule that lets the request pass is written plainly; or no rule is taken for a match that is
    none, and none is missed for its leading zeros (or both happens). -/
def Decided (rules : List Rule) (request : Buffer maxLength) : Prop :=
  (∃ r ∈ rules, r.Matches request ∧ Plain r.parts) ∨
    ((∃ r ∈ rules, r.Loose request) ↔ ∃ r ∈ rules, r.Matches request ∧ ¬ Plain r.parts)

/-! ### Decimal text -/

theorem digitsVal_eq_ofDigitChars : ∀ (ds : List Char) (acc : ℕ), (∀ c ∈ ds, c.isDigit = true) →
    digitsVal acc ds = Nat.ofDigitChars 10 ds acc
  | [], _, _ => rfl
  | c :: cs, acc, h => by
    rw [digitsVal, if_pos (h c List.mem_cons_self),
      digitsVal_eq_ofDigitChars cs _ fun x hx => h x (List.mem_cons_of_mem _ hx)]
    rfl

theorem numeral_decimalText (n : ℕ) : Numeral (decimalText n) :=
  ⟨Nat.toDigits_ne_nil, fun _ hc => Nat.isDigit_of_mem_toDigits (by decide) (by decide) hc⟩

theorem digitsVal_decimalText (n : ℕ) : digitsVal 0 (decimalText n) = n := by
  rw [digitsVal_eq_ofDigitChars _ _ (numeral_decimalText n).2]
  exact Nat.ofDigitChars_ten_toDigits

/-- The beginning of a decimal is a smaller number. -/
theorem digitsVal_ne_of_prefix {ds : List Char} {n : ℕ} (hds : Numeral ds) (hp : ds <+: decimalText n)
    (hne : ds ≠ decimalText n) : digitsVal 0 ds ≠ n := by
  obtain ⟨rest, hrest⟩ := hp
  have hr : rest ≠ [] := by
    rintro rfl
    exact hne (by simpa using hrest)
  have hval : n = 10 ^ rest.length * digitsVal 0 ds + Nat.ofDigitChars 10 rest 0 := by
    have h := Nat.ofDigitChars_append (b := 10) (l := ds) (m := rest) 0
    rw [hrest, Nat.ofDigitChars_eq_ofDigitChars_zero (l := rest),
      ← digitsVal_eq_ofDigitChars ds 0 hds.2,
      ← digitsVal_eq_ofDigitChars _ 0 (numeral_decimalText n).2, digitsVal_decimalText] at h
    exact h
  rintro heq
  rw [heq] at hval
  have hpow : 10 ≤ 10 ^ rest.length := by
    calc 10 = 10 ^ 1 := (pow_one 10).symm
      _ ≤ 10 ^ rest.length := Nat.pow_le_pow_right (by decide) (List.length_pos_of_ne_nil hr)
  have hzero : n = 0 := by nlinarith
  -- the text of 0 has one digit, and so no beginning
  subst hzero
  have hlen := congrArg List.length hrest
  have hpos := List.length_pos_of_ne_nil hds.1
  have hposr := List.length_pos_of_ne_nil hr
  rw [List.length_append, show (decimalText 0).length = 1 from rfl] at hlen
  omega

/-! ### One pattern -/

/-- What the comparison of the texts comes to, part by part. -/
def TextMatches : List Part → List ℕ → Prop
  | .star :: _, _ :: _ => True
  | [.octet ds], [o] => ds <+: decimalText o
  | .octet ds :: p :: ps, o :: o' :: os => ds = decimalText o ∧ TextMatches (p :: ps) (o' :: os)
  | _, _ => False

/-- Words up to a dot are compared as wholes. -/
theorem prefix_dot_iff : ∀ {x y p q : List Char}, '.' ∉ x → '.' ∉ y →
    (x ++ '.' :: p <+: y ++ '.' :: q ↔ x = y ∧ p <+: q)
  | [], [], p, q, _, _ => by simp
  | [], b :: y, p, q, _, hy => by
    have hb : '.' ≠ b := fun h => hy (h ▸ List.mem_cons_self)
    simp [List.cons_prefix_cons, hb]
  | a :: x, [], p, q, hx, _ => by
    have ha : a ≠ '.' := fun h => hx (h ▸ List.mem_cons_self)
    simp [List.cons_prefix_cons, ha]
  | a :: x, b :: y, p, q, hx, hy => by
    have ih := prefix_dot_iff (p := p) (q := q) (fun h => hx (List.mem_cons_of_mem a h))
      fun h => hy (List.mem_cons_of_mem b h)
    rw [List.cons_append, List.cons_append, List.cons_prefix_cons, ih, List.cons.injEq, and_assoc]

theorem takeWhile_append_star {ds rest : List Char} (h : '*' ∉ ds) :
    (ds ++ rest).takeWhile (· != '*') = ds ++ rest.takeWhile (· != '*') := by
  refine List.takeWhile_append_of_pos fun c hc => ?_
  have hne : c ≠ '*' := by
    rintro rfl
    exact h hc
  simpa using hne

/-- The pattern cut at its first star begins the text of the destination exactly when the parts
    agree up to there. -/
theorem cut_prefix_iff : ∀ {ps : List Part} {os : List ℕ}, ps ≠ [] → ps.length = os.length →
    (∀ p ∈ ps, p.WellFormed) →
    ((dotted (ps.map Part.text)).takeWhile (· != '*') <+: dotted (os.map decimalText) ↔
      TextMatches ps os)
  | [], _, h, _, _ => absurd rfl h
  | [.star], [o], _, _, _ => by simp [dotted, Part.text, TextMatches]
  | .star :: p :: ps, o :: o' :: os, _, _, _ => by simp [dotted, Part.text, TextMatches]
  | [.octet ds], [o], _, _, hwf => by
    have hstar : '*' ∉ ds := (hwf _ List.mem_cons_self).1.not_mem (by decide)
    have hcut : (ds ++ []).takeWhile (· != '*') = ds ++ [].takeWhile (· != '*') :=
      takeWhile_append_star hstar
    rw [List.append_nil, List.takeWhile_nil, List.append_nil] at hcut
    simp only [List.map_cons, List.map_nil, dotted, Part.text, TextMatches]
    rw [hcut]
  | .octet ds :: p :: ps, o :: o' :: os, _, hlen, hwf => by
    have hds : Numeral ds := (hwf _ List.mem_cons_self).1
    have ih : _ ↔ TextMatches (p :: ps) (o' :: os) := cut_prefix_iff (by simp) (by simpa using hlen)
      fun x hx => hwf x (List.mem_cons_of_mem _ hx)
    have hdot : (('.' :: dotted ((p :: ps).map Part.text)).takeWhile (· != '*')) =
        '.' :: (dotted ((p :: ps).map Part.text)).takeWhile (· != '*') :=
      List.takeWhile_cons_of_pos (by decide)
    show (ds ++ '.' :: dotted ((p :: ps).map Part.text)).takeWhile (· != '*') <+:
      decimalText o ++ '.' :: dotted ((o' :: os).map decimalText) ↔ _
    rw [takeWhile_append_star (hds.not_mem (by decide)), hdot,
      prefix_dot_iff (hds.not_mem (by decide)) ((numeral_decimalText o).not_mem (by decide)), ih]
    rfl

/-- The texts match when the rule does and is written plainly, or when the rule is loose. -/
theorem textMatches_iff : ∀ {ps : List Part} {os : List ℕ}, ps.length = os.length →
    (∀ p ∈ ps, p.WellFormed) → ps ≠ [] →
    (TextMatches ps os ↔ List.Forall₂ Part.Admits ps os ∧ Plain ps ∨ Loose ps os)
  | .star :: ps, o :: os, _, _, _ => by
    simp only [TextMatches, Plain, Loose, List.forall₂_cons, Part.Admits, true_and, and_true, true_iff]
    exact em _
  | [.octet ds], [o], _, hwf, _ => by
    simp only [TextMatches, Plain, Loose, List.forall₂_cons, Part.Admits, List.forall₂_nil_left_iff,
      and_true]
    constructor
    · intro h
      by_cases heq : ds = decimalText o
      · refine Or.inl ⟨?_, ?_⟩
        · rw [heq, digitsVal_decimalText]
        · rw [heq, digitsVal_decimalText]
      · exact Or.inr ⟨h, heq⟩
    · rintro (⟨hval, hplain⟩ | h)
      · rw [hval] at hplain
        rw [hplain]
      · exact h.1
  | .octet ds :: p :: ps, o :: o' :: os, hlen, hwf, _ => by
    have ih : TextMatches (p :: ps) (o' :: os) ↔ _ := textMatches_iff (by simpa using hlen)
      (fun x hx => hwf x (List.mem_cons_of_mem _ hx)) (by simp)
    have hcons : List.Forall₂ Part.Admits (.octet ds :: p :: ps) (o :: o' :: os) ↔
        digitsVal 0 ds = o ∧ List.Forall₂ Part.Admits (p :: ps) (o' :: os) := List.forall₂_cons
    rw [TextMatches, ih, hcons, Plain, Loose]
    constructor
    · rintro ⟨heq, ⟨hall, hplain⟩ | hloose⟩
      · refine Or.inl ⟨⟨?_, hall⟩, ?_, hplain⟩
        · rw [heq, digitsVal_decimalText]
        · rw [heq, digitsVal_decimalText]
      · exact Or.inr ⟨heq, hloose⟩
    · rintro (⟨⟨hval, hall⟩, hplain, hrest⟩ | ⟨heq, hloose⟩)
      · rw [hval] at hplain
        exact ⟨hplain.symm, Or.inl ⟨hall, hrest⟩⟩
      · exact ⟨heq, Or.inr hloose⟩

/-- A loose rule does not let the destination pass. -/
theorem Loose.not_admits : ∀ {ps : List Part} {os : List ℕ}, (∀ p ∈ ps, p.WellFormed) →
    Loose ps os → ¬ List.Forall₂ Part.Admits ps os
  | .star :: ps, o :: os, _, h => by
    rw [List.forall₂_cons]
    exact fun hcon => h hcon.2
  | [.octet ds], [o], hwf, ⟨hp, hne⟩ => by
    rw [List.forall₂_cons]
    exact fun hcon => digitsVal_ne_of_prefix (hwf _ List.mem_cons_self).1 hp hne hcon.1
  | .octet ds :: p :: ps, o :: o' :: os, hwf, ⟨_, h⟩ => by
    rw [List.forall₂_cons]
    exact fun hcon => Loose.not_admits (fun x hx => hwf x (List.mem_cons_of_mem _ hx)) h hcon.2

/-! ### The file -/

theorem parseRequest_dstIp (request : Buffer maxLength) (q : SockRequest) :
    (parseRequest request q).dstIp = dotted ((octets request).map decimalText) := by
  simp [parseRequest, octets, dotted, bytetoint_eq]

theorem parseRequest_cd (request : Buffer maxLength) (c : Char) :
    (parseRequest request .empty).cd = [c] ↔ commandLetter (byteAt request 1) = some c := by
  simp only [parseRequest, commandLetter, bytetoint_eq, SockRequest.empty]
  split_ifs <;> simp

/-- A line that writes a rule is read to its end. -/
theorem permitLine_writes {line : List Char} {r : Rule} (h : Writes line r) (hwf : r.WellFormed)
    (request : Buffer maxLength) :
    ∃ b, permitLine (parseRequest request .empty).cd (parseRequest request .empty).dstIp line = some b ∧
      (b = true ↔ commandLetter (byteAt request 1) = some r.command ∧
        TextMatches r.parts (octets request)) := by
  obtain ⟨text, hhash, hline, hwords⟩ := h
  have hcut : line.takeWhile (· != '#') = text := by
    have hfree : ∀ c ∈ text, (c != '#') = true := fun c hc => by
      have hne : c ≠ '#' := by
        rintro rfl
        exact hhash hc
      simpa using hne
    rcases hline with rfl | ⟨comment, rfl⟩
    · exact List.takeWhile_eq_self_iff.mpr hfree
    · rw [List.takeWhile_append_of_pos hfree]
      simp
  have hne : r.parts ≠ [] := by
    rintro hnil
    have := hwf.four
    rw [hnil] at this
    cases this
  have hlen : r.parts.length = (octets request).length := hwf.four
  simp only [permitLine, hcut, hwords, if_true]
  by_cases hcd : [r.command] = (parseRequest request .empty).cd
  · rw [if_pos hcd]
    refine ⟨_, rfl, ?_⟩
    rw [beq_iff_eq, ← cut_prefix_iff hne hlen hwf.parts, ← parseRequest_dstIp request .empty,
      List.prefix_iff_eq_take, and_iff_right ((parseRequest_cd request _).mp hcd.symm)]
    exact eq_comm
  · rw [if_neg hcd]
    refine ⟨false, rfl, ?_⟩
    simp only [Bool.false_eq_true, false_iff]
    exact fun hcon => hcd ((parseRequest_cd request _).mpr hcon.1).symm

/-- The loop finds the first line whose text matches. -/
theorem firewallLoop_iff (request : Buffer maxLength) : ∀ {lines : List (List Char)}
    {rules : List Rule}, List.Forall₂ Writes lines rules → (∀ r ∈ rules, r.WellFormed) →
    let q := parseRequest request .empty
    (firewallLoop q.cd q.dstIp lines = some 1 ∨ firewallLoop q.cd q.dstIp lines = some (-1)) ∧
      (firewallLoop q.cd q.dstIp lines = some 1 ↔ ∃ r ∈ rules,
        commandLetter (byteAt request 1) = some r.command ∧ TextMatches r.parts (octets request))
  | [], [], _, _ => by simp [firewallLoop]
  | line :: lines, r :: rules, .cons h hrest, hwf => by
    intro q
    obtain ⟨b, hb, hiff⟩ := permitLine_writes h (hwf r List.mem_cons_self) request
    have ih := firewallLoop_iff request hrest fun x hx => hwf x (List.mem_cons_of_mem _ hx)
    have hstep : firewallLoop q.cd q.dstIp (line :: lines) =
        if b then some 1 else firewallLoop q.cd q.dstIp lines := by
      rw [firewallLoop, hb, Option.bind_some]
    rw [hstep, List.exists_mem_cons_iff, ← hiff]
    cases b with
    | true => simp
    | false =>
      simp only [Bool.false_eq_true, if_false, false_or]
      exact ih

/-- The firewall answers every request, and its answer is the one of the rules exactly under
    `Decided`. -/
theorem firewall_right_iff (file : List Char) (rules : List Rule)
    (hfile : List.Forall₂ Writes (getLines file) rules) (hwf : ∀ r ∈ rules, r.WellFormed)
    (request : Buffer maxLength) :
    let q := parseRequest request .empty
    (firewall (some file) q q.cd = some 1 ∨ firewall (some file) q q.cd = some (-1)) ∧
      ((firewall (some file) q q.cd = some 1 ↔ Permits rules request) ↔ Decided rules request) := by
  intro q
  obtain ⟨hends, hiff⟩ := firewallLoop_iff request hfile hwf
  refine ⟨hends, ?_⟩
  have hclass : ∀ r ∈ rules, (commandLetter (byteAt request 1) = some r.command ∧
      TextMatches r.parts (octets request) ↔
        r.Matches request ∧ Plain r.parts ∨ r.Loose request) := by
    intro r hr
    have hne : r.parts ≠ [] := by
      rintro hnil
      have := (hwf r hr).four
      rw [hnil] at this
      cases this
    have htext : TextMatches r.parts (octets request) ↔ _ :=
      textMatches_iff (hwf r hr).four (hwf r hr).parts hne
    rw [htext, Rule.Matches, Rule.Loose, and_or_left, and_assoc]
  have hfire : firewall (some file) q q.cd = some 1 ↔
      (∃ r ∈ rules, r.Matches request ∧ Plain r.parts) ∨ ∃ r ∈ rules, r.Loose request := by
    rw [← exists_or]
    refine hiff.trans (exists_congr fun r => ?_)
    rw [← and_or_left]
    exact and_congr_right fun hr => hclass r hr
  have hpermits : Permits rules request ↔
      (∃ r ∈ rules, r.Matches request ∧ Plain r.parts) ∨
        ∃ r ∈ rules, r.Matches request ∧ ¬ Plain r.parts := by
    rw [← exists_or]
    refine exists_congr fun r => ?_
    rw [← and_or_left, ← and_or_left]
    simp [em]
  rw [hfire, hpermits, Decided]
  by_cases hplain : ∃ r ∈ rules, r.Matches request ∧ Plain r.parts
  · simp only [hplain, true_or]
  · simp only [hplain, false_or]

/-- A read that stores some bytes in an array of zeros. -/
def zeroRequest (data : List UInt8) (h : data.length ≤ maxLength) : Buffer maxLength :=
  (Buffer.zero maxLength).fill data h

/-- `permit c 140.114.*.*` and a request to connect to 140.114.1.2. -/
theorem firewall_right_iff_stars :
    let file := ['p', 'e', 'r', 'm', 'i', 't', ' ', 'c', ' ', '1', '4', '0', '.', '1', '1', '4', '.',
      '*', '.', '*', '\n']
    let rules : List Rule := [⟨'c', [.octet ['1', '4', '0'], .octet ['1', '1', '4'], .star, .star]⟩]
    let request := zeroRequest [4, 1, 0, 80, 140, 114, 1, 2, 0] (by decide)
    let q := parseRequest request .empty
    firewall (some file) q q.cd = some 1 ↔ Permits rules request := by
  intro file rules request q
  have hline : Writes (file.take 20) rules[0] := by
    refine ⟨file.take 20, by decide, Or.inl rfl, by decide +kernel⟩
  have hfile : List.Forall₂ Writes (getLines file) rules := .cons hline .nil
  have hwf : ∀ r ∈ rules, r.WellFormed := by
    intro r hr
    obtain rfl := List.mem_singleton.mp hr
    refine ⟨Or.inl rfl, rfl, ?_⟩
    intro p hp
    simp only [List.mem_cons, List.not_mem_nil, or_false] at hp
    rcases hp with rfl | rfl | rfl | rfl
    · exact ⟨by decide, by decide⟩
    · exact ⟨by decide, by decide⟩
    · trivial
    · trivial
  refine (firewall_right_iff file rules hfile hwf request).2.mpr (Or.inl ⟨rules[0], by simp, ⟨rfl, ?_⟩, ?_⟩)
  · exact .cons rfl (.cons rfl (.cons trivial (.cons trivial .nil)))
  · exact ⟨by decide, by decide, trivial⟩

/-- `permit c 1.2.3.1` lets a request to 1.2.3.10 pass. -/
theorem firewall_takes_prefix : ∃ file rules request, List.Forall₂ Writes (getLines file) rules ∧
    (∀ r ∈ rules, r.WellFormed) ∧
    firewall (some file) (parseRequest request .empty) (parseRequest request .empty).cd = some 1 ∧
    ¬ Permits rules request := by
  let file := ['p', 'e', 'r', 'm', 'i', 't', ' ', 'c', ' ', '1', '.', '2', '.', '3', '.', '1', '\n']
  let rule : Rule := ⟨'c', [.octet ['1'], .octet ['2'], .octet ['3'], .octet ['1']]⟩
  refine ⟨file, [rule], zeroRequest [4, 1, 0, 80, 1, 2, 3, 10, 0] (by decide), ?_, ?_, ?_, ?_⟩
  · exact .cons ⟨file.take 16, by decide, Or.inl rfl, by decide +kernel⟩ .nil
  · intro r hr
    obtain rfl := List.mem_singleton.mp hr
    refine ⟨Or.inl rfl, rfl, ?_⟩
    intro p hp
    simp only [rule, List.mem_cons, List.not_mem_nil, or_false] at hp
    rcases hp with rfl | rfl | rfl | rfl <;> exact ⟨by decide, by decide⟩
  · decide +kernel
  · rintro ⟨r, hr, -, hall⟩
    obtain rfl := List.mem_singleton.mp hr
    rcases hall with _ | ⟨-, _ | ⟨-, _ | ⟨-, _ | ⟨h, -⟩⟩⟩⟩
    have hval : digitsVal 0 ['1'] = 10 := h
    exact absurd hval (by decide)

end NetProg.Socks
