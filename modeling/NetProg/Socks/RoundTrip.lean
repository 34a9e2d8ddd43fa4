import NetProg.Socks.SockSession

/-! The request the console sends (`NpShellConnect::send_sock_request` of `console.cpp`) as the SOCKS server
    reads it, and the port in the reply of `BIND`.

    A `char` is a number here, from -128 to 127 or from 0 to 255. Storing an `int` in one keeps it modulo 256,
    and so does each way of reading it back, whatever the sign. -/

namespace NetProg.Socks

/-- Whether `char` has a sign. -/
inductive CharKind where
  | signed
  | unsigned
  deriving DecidableEq

/-- An `int` stored in a `char`. -/
def CharKind.ofInt : CharKind → ℤ → ℤ
  | signed, z => z.bmod 256
  | unsigned, z => z % 256

/-- The loop of `bytetoint`. For negative numbers `c & 1` is the remainder and `c >> 1` rounds down. -/
def CharKind.bytetointLoop (k : CharKind) : ℕ → ℤ → ℤ → ℤ → ℤ
  | 0, _, _, a => a
  | n + 1, c, r, a => k.bytetointLoop n (k.ofInt (c / 2)) (r * 2) (a + c % 2 * r)

/-- `bytetoint` of a byte that was received. -/
def CharKind.bytetoint (k : CharKind) (b : UInt8) : ℕ := (k.bytetointLoop 8 (k.ofInt b.toNat) 1 0).toNat

/-- `parse_request` of `SockSession`. -/
def CharKind.parseRequest (k : CharKind) (request : Buffer maxLength) (q : SockRequest) : SockRequest where
  vn := decimalText (k.bytetoint (byteAt request 0))
  cd :=
    if k.bytetoint (byteAt request 1) = 1 then ['c']
    else if k.bytetoint (byteAt request 1) = 2 then ['b']
    else q.cd
  dstPort := decimalText (k.bytetoint (byteAt request 2) * 256 + k.bytetoint (byteAt request 3))
  dstIp := decimalText (k.bytetoint (byteAt request 4)) ++ ['.'] ++
    decimalText (k.bytetoint (byteAt request 5)) ++ ['.'] ++
    decimalText (k.bytetoint (byteAt request 6)) ++ ['.'] ++
    decimalText (k.bytetoint (byteAt request 7))

/-- An IPv4 address, as `to_bytes` gives it. -/
structure Address where
  a : UInt8
  b : UInt8
  c : UInt8
  d : UInt8

/-- `a.b.c.d`, without leading zeros. -/
def Address.text (ep : Address) : List Char :=
  dotted [decimalText ep.a.toNat, decimalText ep.b.toNat, decimalText ep.c.toNat, decimalText ep.d.toNat]

/-- `sock_req` when it is sent. -/
def sendSockRequest (k : CharKind) (port : List Char) (ep : Address) : List ℤ :=
  [k.ofInt 4, k.ofInt 1, k.ofInt ((atoi port).tdiv 256), k.ofInt ((atoi port).tmod 256),
    k.ofInt ep.a.toNat, k.ofInt ep.b.toNat, k.ofInt ep.c.toNat, k.ofInt ep.d.toNat, k.ofInt 0]

/-- The bytes of some chars. -/
def wire (chars : List ℤ) : List UInt8 := chars.map UInt8.ofInt

/-- A port in decimal, of any length, whose value fits an `int`. -/
structure PortText where
  text : List Char
  numeral : Numeral text
  small : digitsVal 0 text < 2 ^ 31

/-- The number a port says. -/
def PortText.value (port : PortText) : ℕ := digitsVal 0 port.text

/-! ### A char keeps a number modulo 256 -/

theorem CharKind.ofInt_emod (k : CharKind) (z : ℤ) : k.ofInt z % 256 = z % 256 := by
  cases k with
  | signed => exact Int.bmod_emod
  | unsigned => exact Int.emod_emod_of_dvd z (dvd_refl _)

/-- A char whose lowest bit is shifted out is a char. -/
theorem CharKind.ofInt_half (k : CharKind) (z : ℤ) : k.ofInt (k.ofInt z / 2) = k.ofInt z / 2 := by
  cases k with
  | signed =>
    have hlow : -128 ≤ z.bmod 256 := Int.le_bmod (by decide)
    have hhigh : z.bmod 256 < 128 := Int.bmod_lt (by decide)
    simp only [CharKind.ofInt]
    exact Int.bmod_eq_of_le (by omega) (by omega)
  | unsigned =>
    simp only [CharKind.ofInt]
    omega

/-- The lowest bit of a number, and the others. -/
theorem emod_two_mul (c : ℤ) {m : ℤ} (hm : 0 < m) : c % (2 * m) = c % 2 + 2 * (c / 2 % m) := by
  have hlow := Int.emod_nonneg c (by decide : (2 : ℤ) ≠ 0)
  have hlow' := Int.emod_lt_of_pos c (by decide : (0 : ℤ) < 2)
  have hhigh := Int.emod_nonneg (c / 2) hm.ne'
  have hhigh' := Int.emod_lt_of_pos (c / 2) hm
  have hc : c % 2 + 2 * (c / 2) = c := Int.emod_add_mul_ediv c 2
  have hhalf : c / 2 % m + m * (c / 2 / m) = c / 2 := Int.emod_add_mul_ediv (c / 2) m
  have hparts : c % 2 + 2 * (c / 2 % m) + 2 * m * (c / 2 / m) = c := by
    calc c % 2 + 2 * (c / 2 % m) + 2 * m * (c / 2 / m)
        = c % 2 + 2 * (c / 2 % m + m * (c / 2 / m)) := by ring
      _ = c := by rw [hhalf, hc]
  exact ((Int.ediv_emod_unique (by omega)).mpr ⟨hparts, by omega, by omega⟩).2

/-- The loop adds the low bits of the char, each with its weight. -/
theorem CharKind.bytetointLoop_eq (k : CharKind) (n : ℕ) (z r a : ℤ) :
    k.bytetointLoop n (k.ofInt z) r a = a + k.ofInt z % 2 ^ n * r := by
  induction n generalizing z r a with
  | zero => simp [CharKind.bytetointLoop]
  | succ n ih =>
    have hstep := ih (k.ofInt z / 2) (r * 2) (a + k.ofInt z % 2 * r)
    rw [k.ofInt_half] at hstep
    rw [CharKind.bytetointLoop, k.ofInt_half, hstep, pow_succ', emod_two_mul _ (by positivity)]
    ring

/-- `bytetoint` gives the byte back, whether chars have a sign or not. -/
theorem CharKind.bytetoint_eq (k : CharKind) (b : UInt8) : k.bytetoint b = b.toNat := by
  have hb := b.toNat_lt
  have hloop := k.bytetointLoop_eq 8 b.toNat 1 0
  have hmod : k.ofInt b.toNat % 2 ^ 8 = b.toNat := by
    rw [show (2 : ℤ) ^ 8 = 256 from rfl, k.ofInt_emod]
    omega
  rw [CharKind.bytetoint, hloop, hmod]
  simp

theorem CharKind.parseRequest_eq (k : CharKind) (request : Buffer maxLength) (q : SockRequest) :
    k.parseRequest request q = Socks.parseRequest request q := by
  simp only [CharKind.parseRequest, Socks.parseRequest, CharKind.bytetoint_eq, Socks.bytetoint_eq]

/-- A number stored in a char arrives as its low byte. -/
theorem toNat_wire (k : CharKind) (n : ℕ) : (UInt8.ofInt (k.ofInt n)).toNat = n % 256 := by
  have hmod := k.ofInt_emod n
  rw [UInt8.ofInt, show (2 : ℤ) ^ 8 = 256 from rfl, hmod, UInt8.toNat_ofNat']
  omega

/-! ### The request and the reply -/

theorem atoi_port (port : PortText) : atoi port.text = port.value :=
  atoi_numeral port.numeral (by
    have hsmall := port.small
    unfold intMax
    omega)

/-- An octet is its own low byte. -/
theorem toNat_wire_octet (k : CharKind) (b : UInt8) : (UInt8.ofInt (k.ofInt b.toNat)).toNat = b.toNat := by
  have hb := b.toNat_lt
  rw [toNat_wire]
  omega

theorem quotient_port (port : PortText) : (atoi port.text).tdiv 256 = ((port.value / 256 : ℕ) : ℤ) := by
  rw [atoi_port]
  rfl

theorem remainder_port (port : PortText) : (atoi port.text).tmod 256 = ((port.value % 256 : ℕ) : ℤ) := by
  rw [atoi_port]
  rfl

/-- The first eight bytes of a request. -/
def requestBytes (k : CharKind) (port : PortText) (ep : Address) : List UInt8 :=
  (wire (sendSockRequest k port.text ep)).take 8

theorem requestBytes_fit (k : CharKind) (port : PortText) (ep : Address) :
    (requestBytes k port ep).length ≤ maxLength :=
  show 8 ≤ 1024 by decide

/-- The request is read as it was meant: a port is cut to its low sixteen bits, and the address is written
    out in full. The port in the reply of `BIND` is read back too. Both sides may or may not have a sign in
    their chars. -/
theorem request_round_trip (k k' : CharKind) :
    (∀ (port : PortText) (ep : Address) (memory : Buffer maxLength) (q : SockRequest),
      let request := memory.fill (requestBytes k port ep) (requestBytes_fit k port ep)
      (k'.parseRequest request q).cd = ['c'] ∧
      (k'.parseRequest request q).dstPort = decimalText (port.value % 65536) ∧
      (port.value ≤ 65535 → (k'.parseRequest request q).dstPort = decimalText port.value) ∧
      (k'.parseRequest request q).dstIp = ep.text) ∧
    ∀ q : UInt16, k'.bytetoint ((bindReply q.toNat).bytes.getD 2 0) * 256 +
      k'.bytetoint ((bindReply q.toNat).bytes.getD 3 0) = q.toNat := by
  constructor
  · intro port ep memory q request
    have hcommand : (UInt8.ofInt (k.ofInt 1)).toNat = 1 := toNat_wire k 1
    have hport : port.value / 256 % 256 * 256 + port.value % 256 % 256 = port.value % 65536 := by omega
    have hcd : (k'.parseRequest request q).cd = ['c'] := by
      rw [k'.parseRequest_eq]
      simp only [parseRequest, bytetoint_eq]
      exact if_pos hcommand
    have hdstPort : (k'.parseRequest request q).dstPort = decimalText (port.value % 65536) := by
      rw [k'.parseRequest_eq, ← hport, ← toNat_wire k (port.value / 256), ← toNat_wire k (port.value % 256),
        ← quotient_port, ← remainder_port]
      simp only [parseRequest, bytetoint_eq]
      rfl
    refine ⟨hcd, hdstPort, fun hsmall => ?_, ?_⟩
    · rw [hdstPort, Nat.mod_eq_of_lt (by omega)]
    · have hoctets : octets request = [ep.a.toNat, ep.b.toNat, ep.c.toNat, ep.d.toNat] := by
        rw [← toNat_wire_octet k ep.a, ← toNat_wire_octet k ep.b, ← toNat_wire_octet k ep.c,
          ← toNat_wire_octet k ep.d]
        rfl
      rw [k'.parseRequest_eq, parseRequest_dstIp, hoctets]
      rfl
  · intro q
    have hq := q.toNat_lt
    have hhigh : (UInt8.ofNat (q.toNat / 256)).toNat = q.toNat / 256 :=
      UInt8.toNat_ofNat_of_lt' (show q.toNat / 256 < 256 by omega)
    have hlow : (UInt8.ofNat (q.toNat % 256)).toNat = q.toNat % 256 :=
      UInt8.toNat_ofNat_of_lt' (show q.toNat % 256 < 256 by omega)
    rw [k'.bytetoint_eq, k'.bytetoint_eq]
    calc (UInt8.ofNat (q.toNat / 256)).toNat * 256 + (UInt8.ofNat (q.toNat % 256)).toNat
        = q.toNat / 256 * 256 + q.toNat % 256 := by rw [hhigh, hlow]
      _ = q.toNat := by omega

end NetProg.Socks
