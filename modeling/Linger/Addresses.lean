import Linger.Names

/-! Addresses as they are written and read, and which of them a request's limits are kept
against. -/
namespace Linger.Addresses
open Names (Text trim)

inductive IpAddr
  | v4 (bits : BitVec 32)
  | v6 (bits : BitVec 128)
deriving DecidableEq

/-- An IPv4 address's four bytes. -/
def octets (bits : BitVec 32) : List ℕ :=
  [24, 16, 8, 0].map fun shift => bits.toNat / 2 ^ shift % 256

/-- An IPv6 address's eight groups. -/
def segments (bits : BitVec 128) : List ℕ :=
  [112, 96, 80, 64, 48, 32, 16, 0].map fun shift => bits.toNat / 2 ^ shift % 65536

def ofOctets (parts : List ℕ) : BitVec 32 :=
  BitVec.ofNat 32 (parts.foldl (fun n part => n * 256 + part) 0)

def ofSegments (parts : List ℕ) : BitVec 128 :=
  BitVec.ofNat 128 (parts.foldl (fun n part => n * 65536 + part) 0)

/-- `to_canonical`: an IPv4 address arriving as IPv6 (`::ffff:a.b.c.d`) counts as the IPv4 one. -/
def IpAddr.toCanonical : IpAddr → IpAddr
  | .v4 bits => .v4 bits
  | .v6 bits => if bits.toNat / 2 ^ 32 = 0xffff then .v4 (BitVec.ofNat 32 bits.toNat) else .v6 bits

section Writing

def decimal (n : ℕ) : Text := Nat.toDigits 10 n

/-- `{:x}`. -/
def hex (n : ℕ) : Text := Nat.toDigits 16 n

def writeV4 (bits : BitVec 32) : Text := ['.'].intercalate ((octets bits).map decimal)

/-- The longest run of zeros among the groups, the first of several: where it starts and its
length. -/
def longestZeros (parts : List ℕ) : ℕ × ℕ :=
  (parts.zipIdx.foldl (fun (runs : (ℕ × ℕ) × (ℕ × ℕ)) (part, i) =>
    if part = 0 then
      let current := (if runs.2.2 = 0 then i else runs.2.1, runs.2.2 + 1)
      (if current.2 > runs.1.2 then current else runs.1, current)
    else (runs.1, (0, 0))) ((0, 0), (0, 0))).1

def groups (parts : List ℕ) : Text := [':'].intercalate (parts.map hex)

def writeV6 (bits : BitVec 128) : Text :=
  if bits.toNat / 2 ^ 32 = 0xffff then "::ffff:".toList ++ writeV4 (BitVec.ofNat 32 bits.toNat)
  else
    let zeros := longestZeros (segments bits)
    if zeros.2 > 1 then
      groups ((segments bits).take zeros.1) ++ "::".toList ++
        groups ((segments bits).drop (zeros.1 + zeros.2))
    else groups (segments bits)

/-- `to_string`. -/
def IpAddr.write : IpAddr → Text
  | .v4 bits => writeV4 bits
  | .v6 bits => writeV6 bits

end Writing

section Reading

/-- `char::to_digit`. -/
def toDigit (radix : ℕ) (c : Char) : Option ℕ :=
  let digit :=
    if '0' ≤ c ∧ c ≤ '9' then c.toNat - '0'.toNat
    else if 'a' ≤ c ∧ c ≤ 'z' then c.toNat - 'a'.toNat + 10
    else if 'A' ≤ c ∧ c ≤ 'Z' then c.toNat - 'A'.toNat + 10
    else radix
  if digit < radix then some digit else none

/-- A number of at most that many digits, and no greater than `most`, at the front of a text. -/
def readNumber (radix maxDigits most : ℕ) (allowZeroPrefix : Bool) (input : Text) :
    Option (ℕ × Text) :=
  let digits := input.takeWhile fun c => (toDigit radix c).isSome
  let number := (digits.filterMap (toDigit radix)).foldl (fun n digit => n * radix + digit) 0
  if digits.length > maxDigits ∨ digits = [] then none
  else if !allowZeroPrefix ∧ digits.head? = some '0' ∧ digits.length > 1 then none
  else if number > most then none
  else some (number, input.drop digits.length)

def readGiven (mark : Char) : Text → Option Text
  | [] => none
  | c :: rest => if c = mark then some rest else none

/-- All but the first of several are read after the mark that separates them. -/
def readSeparator {α : Type} (mark : Char) (first : Bool) (inner : Text → Option (α × Text))
    (input : Text) :
    Option (α × Text) :=
  if first then inner input else (readGiven mark input).bind inner

/-- An octal number is no part of an address. -/
def readOctet (first : Bool) (input : Text) : Option (ℕ × Text) :=
  readSeparator '.' first (readNumber 10 3 255 false) input

def readV4 (input : Text) : Option (List ℕ × Text) := do
  let (one, input) ← readOctet true input
  let (two, input) ← readOctet false input
  let (three, input) ← readOctet false input
  let (four, input) ← readOctet false input
  return ([one, two, three, four], input)

/-- At most `left` groups, an IPv4 address at the end among them, and whether there was one. -/
def readGroups : ℕ → Bool → Text → List ℕ × Bool × Text
  | 0, _, input => ([], false, input)
  | left + 1, first, input =>
    let group := fun _ : Unit =>
      match readSeparator ':' first (readNumber 16 4 65535 true) input with
      | some (group, rest) =>
        let (more, ipv4, rest) := readGroups left false rest
        (group :: more, ipv4, rest)
      | none => ([], false, input)
    if left > 0 then
      match readSeparator ':' first readV4 input with
      | some ([one, two, three, four], rest) => ([one * 256 + two, three * 256 + four], true, rest)
      | _ => group ()
    else group ()

def readV6 (input : Text) : Option (List ℕ × Text) :=
  let (head, ipv4, rest) := readGroups 8 true input
  if head.length = 8 then some (head, rest)
  else if ipv4 then none
  else do
    let rest ← readGiven ':' rest
    let rest ← readGiven ':' rest
    -- What `::` stands for is one group at the least.
    let (tail, _, rest) := readGroups (8 - (head.length + 1)) true rest
    return (head ++ List.replicate (8 - head.length - tail.length) 0 ++ tail, rest)

/-- `parse::<IpAddr>`. -/
def parse (input : Text) : Option IpAddr :=
  let read := (readV4 input).map (fun (parts, rest) => (IpAddr.v4 (ofOctets parts), rest))
    <|> (readV6 input).map (fun (parts, rest) => (IpAddr.v6 (ofSegments parts), rest))
  match read with
  | some (address, []) => some address
  | _ => none

end Reading

section Trusting

inductive ProxyRange
  /-- An address on this machine or on a private network. -/
  | privateNet
  /-- One address, or a range: the first `prefix` bits of `network`. -/
  | net (network : IpAddr) (bits : ℕ)
deriving DecidableEq

/-- `TrustedProxies`. -/
abbrev TrustedProxies := List ProxyRange

def isLoopback : IpAddr → Bool
  | .v4 bits => (octets bits).head? = some 127
  | .v6 bits => bits = 1

/-- `is_private` of an IPv4 address, `is_unique_local` of an IPv6 one. -/
def isPrivate : IpAddr → Bool
  | .v4 bits =>
    match octets bits with
    | 10 :: _ => true
    | 172 :: second :: _ => 16 ≤ second ∧ second ≤ 31
    | 192 :: 168 :: _ => true
    | _ => false
  | .v6 bits => bits.toNat / 2 ^ 121 = 0b1111110

/-- Whether a connection from that address is a proxy that is believed. -/
def trusts (trusted : TrustedProxies) (ip : IpAddr) : Bool :=
  let ip := ip.toCanonical
  trusted.any fun range =>
    match range with
    | .privateNet => isLoopback ip || isPrivate ip
    | .net network bits =>
      match network, ip with
      | .v4 net, .v4 ip =>
        let mask := BitVec.allOnes 32 <<< (32 - bits)
        net &&& mask = ip &&& mask
      | .v6 net, .v6 ip =>
        let mask := BitVec.allOnes 128 <<< (128 - bits)
        net &&& mask = ip &&& mask
      | _, _ => false

/-- `HeaderValue::to_str`: a line of visible ASCII. -/
def toStr (line : Text) : Option Text :=
  if line.all fun c => (32 ≤ c.toNat && c.toNat < 127) || c.toNat = 9 then some line else none

/-- The last `X-Forwarded-For` entry, if it is an address. -/
def lastForwarded (lines : List Text) : Option IpAddr := do
  let line ← lines.getLast?
  let line ← toStr line
  let entry ← (line.splitOn ',').getLast?
  let ip ← parse (trim entry)
  return ip.toCanonical

/-- The address the per-address limits are kept against, of a connection from `peer` with those
`X-Forwarded-For` lines. -/
def clientIp (peer : Option IpAddr) (lines : List Text) (trusted : TrustedProxies) : Text :=
  match peer.map IpAddr.toCanonical with
  | none => "unknown".toList
  | some peer =>
    if !trusts trusted peer then peer.write
    else ((lastForwarded lines).getD peer).write

/-- The key a per-address limit counts against: an IPv6 address counts by its /64. -/
def addressKey (address : Text) : Text :=
  match (parse address).map IpAddr.toCanonical with
  | some (.v6 bits) => [':'].intercalate (((segments bits).take 4).map hex) ++ "::/64".toList
  | some (.v4 bits) => writeV4 bits
  | none => address

/-- What a stranger says it passes on changes nothing. -/
theorem clientIp_untrusted {peer : IpAddr} {trusted : TrustedProxies}
    (h : trusts trusted peer.toCanonical = false)
    (lines : List Text) : clientIp (some peer) lines trusted = peer.toCanonical.write := by
  simp [clientIp, h]

end Trusting

section OwnKey

/-- What a byte is written as: one to three digits, no zero before another, and what they come
to. -/
theorem decimal_byte : ∀ n < 256, (decimal n).all (fun c => (toDigit 10 c).isSome) = true ∧
    ¬ ((decimal n).length > 3 ∨ decimal n = []) ∧
    ¬ ((decimal n).head? = some '0' ∧ (decimal n).length > 1) ∧
    ((decimal n).filterMap (toDigit 10)).foldl (fun n digit => n * 10 + digit) 0 = n := by
  decide +kernel

/-- What comes after a byte does not go on with a digit. -/
def Apart (rest : Text) : Prop := ∀ c ∈ rest.head?, toDigit 10 c = none

theorem readNumber_decimal {n : ℕ} (hn : n < 256) {rest : Text} (hrest : Apart rest) :
    readNumber 10 3 255 false (decimal n ++ rest) = some (n, rest) := by
  obtain ⟨hall, hlength, hzero, hnumber⟩ := decimal_byte n hn
  have hdigits : (decimal n ++ rest).takeWhile (fun c => (toDigit 10 c).isSome) = decimal n := by
    rw [List.takeWhile_append_of_pos fun c hc => List.all_eq_true.mp hall c hc]
    cases rest with
    | nil => simp
    | cons c rest =>
      have hnone := hrest c rfl
      simp [hnone]
  rw [readNumber]
  simp only [hdigits, hnumber]
  rw [if_neg hlength, if_neg (by simpa using hzero), if_neg (by omega), List.drop_left]

theorem readV4_octets {one two three four : ℕ} (h : ∀ n ∈ [one, two, three, four], n < 256) :
    readV4 (['.'].intercalate ([one, two, three, four].map decimal)) =
      some ([one, two, three, four], []) := by
  have hdot : ∀ rest : Text, Apart ('.' :: rest) := by
    intro rest c hc
    rw [← Option.some.inj hc]
    rfl
  have hwritten : ['.'].intercalate ([one, two, three, four].map decimal) =
      decimal one ++ '.' :: (decimal two ++ '.' :: (decimal three ++ '.' :: decimal four)) := by
    simp [List.intercalate, List.intersperse]
  have hfirst := fun rest => readNumber_decimal (h one (by simp)) (hdot rest)
  have hsecond := fun rest => readNumber_decimal (h two (by simp)) (hdot rest)
  have hthird := fun rest => readNumber_decimal (h three (by simp)) (hdot rest)
  have hfourth :=
    readNumber_decimal (h four (by simp)) (show Apart [] from fun c hc => absurd hc (by simp))
  rw [List.append_nil] at hfourth
  rw [hwritten]
  simp [readV4, readOctet, readSeparator, readGiven, hfirst, hsecond, hthird, hfourth]

theorem ofOctets_octets (bits : BitVec 32) : ofOctets (octets bits) = bits := by
  apply BitVec.eq_of_toNat_eq
  have hlt := bits.isLt
  simp only [ofOctets, octets, List.map_cons, List.map_nil, List.foldl_cons, List.foldl_nil,
    BitVec.toNat_ofNat]
  omega

/-- An IPv4 address that is written is read as itself. -/
theorem parse_writeV4 (bits : BitVec 32) : parse (writeV4 bits) = some (.v4 bits) := by
  have hread : readV4 (writeV4 bits) = some (octets bits, []) := by
    apply readV4_octets
    intro n hn
    simp only [List.mem_cons, List.not_mem_nil, or_false] at hn
    omega
  rw [parse]
  simp only [hread]
  simp [ofOctets_octets]

/-- An IPv4 address is its own key. -/
theorem addressKey_writeV4 (bits : BitVec 32) : addressKey (writeV4 bits) = writeV4 bits := by
  rw [addressKey, parse_writeV4]
  rfl

end OwnKey
end Linger.Addresses
