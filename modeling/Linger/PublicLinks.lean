import Linger.Addresses

/-! What a link's preview connects to: which addresses are public, and the loop that resolves,
checks and pins each hop of a fetch anew. -/
namespace Linger.PublicLinks
open Names (Text)
open Addresses (IpAddr octets segments ofOctets ofSegments)

section Judging

/-- `is_public` of an IPv4 address, from its bytes. -/
def isPublicV4 (bits : BitVec 32) : Bool :=
  match octets bits with
  | [a, b, c, d] =>
    -- Loopback, private, link-local, broadcast, multicast and documentation.
    if a = 127 ∨ (a = 10 ∨ (a = 172 ∧ 16 ≤ b ∧ b ≤ 31) ∨ (a = 192 ∧ b = 168)) ∨
      (a = 169 ∧ b = 254) ∨
        (a = 255 ∧ b = 255 ∧ c = 255 ∧ d = 255) ∨ (224 ≤ a ∧ a ≤ 239) ∨
        ((a = 192 ∧ b = 0 ∧ c = 2) ∨ (a = 198 ∧ b = 51 ∧ c = 100) ∨
          (a = 203 ∧ b = 0 ∧ c = 113)) then false
    else if a = 0 then false
    else if a = 100 ∧ 64 ≤ b ∧ b < 128 then false
    else if a = 192 ∧ b = 0 ∧ c = 0 then false
    else if a = 198 ∧ (b = 18 ∨ b = 19) then false
    else if 240 ≤ a then false
    else true
  | _ => false

/-- The IPv4 address an IPv6 address stands for, in the forms where its place is fixed. -/
def embeddedIpv4 (bits : BitVec 128) : Option (BitVec 32) :=
  match segments bits with
  | [a, b, c, d, e, f, g, h] =>
    let join (hi lo : ℕ) : BitVec 32 := BitVec.ofNat 32 (hi * 65536 + lo)
    if (a = 0 ∧ b = 0 ∧ c = 0 ∧ d = 0 ∧ e = 0 ∧ (f = 0xffff ∨ f = 0)) ∨
        (a = 0x64 ∧ b = 0xff9b ∧ c = 0 ∧ d = 0 ∧ e = 0 ∧ f = 0) then some (join g h)
    else if a = 0x2002 then some (join b c)
    else none
  | _ => none

def isPublic : IpAddr → Bool
  | .v4 bits => isPublicV4 bits
  | .v6 bits =>
    if bits = 1 ∨ bits = 0 then false
    else
      match embeddedIpv4 bits with
      | some v4 => isPublicV4 v4
      | none =>
        match segments bits with
        | first :: second :: _ =>
          -- Only 2000::/3 is handed out as global unicast.
          if first &&& 0xe000 ≠ 0x2000 then false
          -- Teredo, and documentation.
          else if first = 0x2001 ∧ (second = 0 ∨ second = 0x0db8) then false
          else true
        | _ => false

end Judging

section Fetching

def MAX_LINK_REDIRECTS : ℕ := 3

/-- An address as the URL parser reads it. -/
structure Url where
  scheme : Text
  host : Option Text
  port : Option ℕ
  serialised : Text

structure Response where
  redirects : Bool
  succeeds : Bool
  location : Option (Option Text)
  contentType : Option (Option Text)
  chunks : List (Option (List UInt8))

/-- What is not this module's: the URL parser, and what the resolver and the far ends answer at each
hop. A client whose pin is for another host, or not for a name, finds on its own where to go. -/
structure Outside where
  parse : Text → Option Url
  join : Url → Text → Option Url
  lookupHost : (hop : ℕ) → (host : Text) → (port : ℕ) → Option (List IpAddr)
  unpinned : (hop : ℕ) → Url → IpAddr
  builds : (hop : ℕ) → Bool
  send : (hop : ℕ) → Url → IpAddr → Option Response

variable (outside : Outside)

/-- A URL's shape: its scheme, its port, and a host that is a name. -/
def parsePublicShape (raw : Text) : Option Url :=
  (outside.parse raw).bind fun url =>
    if url.scheme ≠ "http".toList ∧ url.scheme ≠ "https".toList then none
    else if url.port.isSome then none
    else url.host.bind fun host =>
      if host.isEmpty ∨ '.' ∉ host then none
      else if (Addresses.parse host).isSome then none
      else some url

/-- The address to pin, when every address the host resolves to is public. -/
def resolvePublic (hop : ℕ) (url : Url) : Option IpAddr :=
  url.host.bind fun host =>
    (outside.lookupHost hop host (if url.scheme = "https".toList then 443 else 80)).bind
        fun addrs =>
      if addrs.isEmpty then none
      else if !addrs.all isPublic then none
      else addrs.head?

/-- A client pinned to one checked address, which follows no redirect. -/
structure Client where
  host : Text
  addr : IpAddr

/-- Only a name is looked up, and so pinned: an address is dialled as it stands, and one in brackets
has no dot. -/
def Client.goesTo (client : Client) (hop : ℕ) (url : Url) : IpAddr :=
  if url.host = some client.host ∧ '.' ∈ client.host ∧ (Addresses.parse client.host).isNone then
    client.addr
  else outside.unpinned hop url

/-- A connection that was made: at which hop, for which URL, to where. -/
structure Connection where
  hop : ℕ
  url : Url
  addr : IpAddr

/-- The body's loop, which stops as soon as there is enough. -/
def readBody (maxBytes : ℕ) : List UInt8 → List (Option (List UInt8)) → List UInt8
  | body, some chunk :: chunks =>
    let body := body ++ chunk
    if maxBytes ≤ body.length then body.take maxBytes else readBody maxBytes body chunks
  | body, _ => body

def lowered (text : Text) : Text := text.map Char.toLower

/-- The loop over hops, with the connections it makes. -/
def getFrom (maxBytes : ℕ) :
    (turns hop : ℕ) → Url → Option (Url × Text × List UInt8) × List Connection
  | 0, _, _ => (none, [])
  | turns + 1, hop, current =>
    match resolvePublic outside hop current, current.host with
    | some addr, some host =>
      if outside.builds hop then
        let client : Client := ⟨host, addr⟩
        let connection : Connection := ⟨hop, current, client.goesTo outside hop current⟩
        match outside.send hop current connection.addr with
        | none => (none, [connection])
        | some response =>
          if response.redirects then
            match ((response.location.bind id).bind (outside.join current)).bind fun next =>
                parsePublicShape outside next.serialised with
            | some next =>
              let (page, connections) := getFrom maxBytes turns (hop + 1) next
              (page, connection :: connections)
            | none => (none, [connection])
          else if response.succeeds then
            let contentType := lowered ((response.contentType.bind id).getD [])
            (some (current, contentType, readBody maxBytes [] response.chunks), [connection])
          else (none, [connection])
      else (none, [])
    | _, _ => (none, [])

def guardedGet (url : Url) (maxBytes : ℕ) : Option (Url × Text × List UInt8) × List Connection :=
  getFrom outside maxBytes (MAX_LINK_REDIRECTS + 1) 0 url

end Fetching

section Registry

/-- The addresses whose first `length` bits are those of `base`. -/
def InBlock {width : ℕ} (base : BitVec width) (length : ℕ) (bits : BitVec width) : Prop :=
  bits.toNat / 2 ^ (width - length) = base.toNat / 2 ^ (width - length)

/-- The IPv4 blocks of IANA's special-purpose registry that are not globally reachable. -/
def unreachableV4 : List (List ℕ × ℕ) :=
  [([0, 0, 0, 0], 8), ([10, 0, 0, 0], 8), ([100, 64, 0, 0], 10), ([127, 0, 0, 0], 8),
    ([169, 254, 0, 0], 16), ([172, 16, 0, 0], 12), ([192, 0, 0, 0], 24), ([192, 0, 2, 0], 24),
    ([192, 168, 0, 0], 16), ([198, 18, 0, 0], 15), ([198, 51, 100, 0], 24), ([203, 0, 113, 0], 24),
    ([240, 0, 0, 0], 4), ([255, 255, 255, 255], 32)]

/-- Multicast is refused too. -/
def multicastV4 : List ℕ × ℕ := ([224, 0, 0, 0], 4)

def InV4 (block : List ℕ × ℕ) (bits : BitVec 32) : Prop := InBlock (ofOctets block.1) block.2 bits

def InV6 (block : List ℕ × ℕ) (bits : BitVec 128) : Prop :=
  InBlock (ofSegments block.1) block.2 bits

/-- The IPv6 blocks of the registry that are not globally reachable as a whole: the loopback and
unspecified addresses, local-use NAT64, discard-only, dummy, documentation twice, segment routing,
unique-local and link-local. -/
def unreachableV6 : List (List ℕ × ℕ) :=
  [([0, 0, 0, 0, 0, 0, 0, 1], 128), ([0, 0, 0, 0, 0, 0, 0, 0], 128),
    ([0x64, 0xff9b, 1, 0, 0, 0, 0, 0], 48), ([0x100, 0, 0, 0, 0, 0, 0, 0], 64),
    ([0x100, 0, 0, 1, 0, 0, 0, 0], 64), ([0x2001, 0xdb8, 0, 0, 0, 0, 0, 0], 32),
    ([0x5f00, 0, 0, 0, 0, 0, 0, 0], 16), ([0xfc00, 0, 0, 0, 0, 0, 0, 0], 7),
    ([0xfe80, 0, 0, 0, 0, 0, 0, 0], 10)]

def newDocumentation : List ℕ × ℕ := ([0x3fff, 0, 0, 0, 0, 0, 0, 0], 20)
def v4Mapped : List ℕ × ℕ := ([0, 0, 0, 0, 0, 0xffff, 0, 0], 96)
def protocolAssignments : List ℕ × ℕ := ([0x2001, 0, 0, 0, 0, 0, 0, 0], 23)
def teredo : List ℕ × ℕ := ([0x2001, 0, 0, 0, 0, 0, 0, 0], 32)

/-- What was assigned out of the protocol assignments and is reachable, or marked neither way. -/
def assignedOut : List (List ℕ × ℕ) :=
  [teredo, ([0x2001, 1, 0, 0, 0, 0, 0, 1], 128), ([0x2001, 1, 0, 0, 0, 0, 0, 2], 128),
    ([0x2001, 1, 0, 0, 0, 0, 0, 3], 128), ([0x2001, 3, 0, 0, 0, 0, 0, 0], 32),
    ([0x2001, 4, 0x112, 0, 0, 0, 0, 0], 48),
    ([0x2001, 0x10, 0, 0, 0, 0, 0, 0], 28), ([0x2001, 0x20, 0, 0, 0, 0, 0, 0], 28),
    ([0x2001, 0x30, 0, 0, 0, 0, 0, 0], 28)]

/-- An address the registry marks as not globally reachable. -/
def Unreachable : IpAddr → Prop
  | .v4 bits => ∃ block ∈ unreachableV4, InV4 block bits
  | .v6 bits =>
    (∃ block ∈ unreachableV6, InV6 block bits) ∨ InV6 newDocumentation bits ∨ InV6 v4Mapped bits ∨
      (InV6 protocolAssignments bits ∧ ∀ block ∈ assignedOut, ¬ InV6 block bits)

/-- The forms in which an IPv6 address stands for an IPv4 one: mapped, compatible, well-known NAT64
and 6to4. -/
def StandsFor (bits : BitVec 128) (v4 : BitVec 32) : Prop :=
  ((InV6 v4Mapped bits ∨ InV6 ([0, 0, 0, 0, 0, 0, 0, 0], 96) bits ∨
    InV6 ([0x64, 0xff9b, 0, 0, 0, 0, 0, 0], 96) bits) ∧
      v4.toNat = bits.toNat % 2 ^ 32) ∨
    (InV6 ([0x2002, 0, 0, 0, 0, 0, 0, 0], 16) bits ∧ v4.toNat = bits.toNat / 2 ^ 80 % 2 ^ 32)

/-- An address that is not reachable, or stands for one refused, is refused. -/
def Judged (ip : IpAddr) : Prop :=
  (Unreachable ip → isPublic ip = false) ∧
    ∀ bits v4, ip = .v6 bits → StandsFor bits v4 → isPublic (.v4 v4) = false → isPublic ip = false

/-- The blocks that are let through: the newer documentation block, what is left of the protocol
assignments, and the mapped form of an IPv4 address that is neither in an unreachable block nor
multicast. -/
def Missed : IpAddr → Prop
  | .v4 _ => False
  | .v6 bits => InV6 newDocumentation bits ∨
      (InV6 protocolAssignments bits ∧ ∀ block ∈ assignedOut, ¬ InV6 block bits) ∨
      (InV6 v4Mapped bits ∧
        ∀ block ∈ multicastV4 :: unreachableV4, ¬ InV4 block (BitVec.ofNat 32 bits.toNat))

/-- A URL that passed the shape check. -/
def Shaped (outside : Outside) (url : Url) : Prop := ∃ raw, parsePublicShape outside raw = some url

/-- A connection to an address its hop resolved its URL's host to, when every address resolved then
is public. -/
def Checked (outside : Outside) (connection : Connection) : Prop :=
  ∃ host port addrs, connection.url.host = some host ∧
    outside.lookupHost connection.hop host port = some addrs ∧
    connection.addr ∈ addrs ∧ ∀ addr ∈ addrs, isPublic addr = true

/-- What a fetch of `url` does: each hop makes one checked connection, there are few, and little
comes back. -/
structure Guarded (outside : Outside) (url : Url) (maxBytes : ℕ) : Prop where
  connects : ∀ connection ∈ (guardedGet outside url maxBytes).2, Checked outside connection
  shaped : ∀ connection ∈ (guardedGet outside url maxBytes).2, Shaped outside connection.url
  hops : (guardedGet outside url maxBytes).2.Pairwise fun earlier later => earlier.hop < later.hop
  few : (guardedGet outside url maxBytes).2.length ≤ MAX_LINK_REDIRECTS + 1
  little : ∀ final contentType body,
    (guardedGet outside url maxBytes).1 = some (final, contentType, body) → body.length ≤ maxBytes

end Registry

section Blocks
variable {bits : BitVec 32} {wide : BitVec 128}

theorem octets_split (bits : BitVec 32) :
    ∃ a b c d, octets bits = [a, b, c, d] ∧ a < 256 ∧ b < 256 ∧ c < 256 ∧ d < 256 ∧
    bits.toNat = a * 16777216 + b * 65536 + c * 256 + d := by
  have hlt := bits.isLt
  refine ⟨bits.toNat / 2 ^ 24 % 256, bits.toNat / 2 ^ 16 % 256, bits.toNat / 2 ^ 8 % 256,
    bits.toNat / 2 ^ 0 % 256, rfl, ?_⟩
  omega

theorem ofOctets_toNat (parts : List ℕ) :
    (ofOctets parts).toNat = parts.foldl (fun n part => n * 256 + part) 0 % 2 ^ 32 :=
  BitVec.toNat_ofNat _ _

theorem refused_or {p : Prop} [Decidable p] {b : Bool} :
    (if p then false else b) = false ↔ p ∨ b = false := by
  by_cases hp : p <;> simp [hp]

/-- The blocks by their bytes, in the registry's order. -/
theorem unreachableV4_octets {a b c d : ℕ} (ha : a < 256) (hb : b < 256) (hc : c < 256)
    (hd : d < 256)
    (hbits : bits.toNat = a * 16777216 + b * 65536 + c * 256 + d) :
    (∃ block ∈ multicastV4 :: unreachableV4, InV4 block bits) ↔
      (224 ≤ a ∧ a ≤ 239) ∨ a = 0 ∨ a = 10 ∨
      (a = 100 ∧ 64 ≤ b ∧ b < 128) ∨ a = 127 ∨ (a = 169 ∧ b = 254) ∨ (a = 172 ∧ 16 ≤ b ∧ b ≤ 31) ∨
      (a = 192 ∧ b = 0 ∧ c = 0) ∨ (a = 192 ∧ b = 0 ∧ c = 2) ∨ (a = 192 ∧ b = 168) ∨
      (a = 198 ∧ (b = 18 ∨ b = 19)) ∨
      (a = 198 ∧ b = 51 ∧ c = 100) ∨ (a = 203 ∧ b = 0 ∧ c = 113) ∨ 240 ≤ a ∨
      (a = 255 ∧ b = 255 ∧ c = 255 ∧ d = 255) := by
  simp only [multicastV4, unreachableV4, InV4, InBlock, List.mem_cons, List.not_mem_nil, or_false,
    exists_eq_or_imp, exists_eq_left, ofOctets_toNat, List.foldl_cons, List.foldl_nil,
    Nat.reducePow, Nat.reduceSub, Nat.reduceMul, Nat.reduceAdd, Nat.reduceMod, Nat.reduceDiv, hbits]
  refine or_congr (by omega) <| or_congr (by omega) <| or_congr (by omega) <| or_congr (by omega) <|
    or_congr (by omega) <| or_congr (by omega) <| or_congr (by omega) <| or_congr (by omega) <|
    or_congr (by omega) <| or_congr (by omega) <| or_congr (by omega) <| or_congr (by omega) <|
    or_congr (by omega) <| or_congr (by omega) (by omega)

/-- An IPv4 address is refused just when it is in an unreachable block, or multicast. -/
theorem isPublicV4_false :
    isPublicV4 bits = false ↔ ∃ block ∈ multicastV4 :: unreachableV4, InV4 block bits := by
  obtain ⟨a, b, c, d, hoctets, ha, hb, hc, hd, hbits⟩ := octets_split bits
  rw [unreachableV4_octets ha hb hc hd hbits]
  unfold isPublicV4
  rw [hoctets]
  simp only [refused_or, Bool.true_eq_false, or_false]
  apply iff_of_eq
  ac_rfl

/-- An IPv6 address's groups, and the number they write. -/
structure Groups (wide : BitVec 128) (a b c d e f g h : ℕ) : Prop where
  segments : segments wide = [a, b, c, d, e, f, g, h]
  first : a < 65536
  second : b < 65536
  third : c < 65536
  fourth : d < 65536
  fifth : e < 65536
  sixth : f < 65536
  seventh : g < 65536
  last : h < 65536
  high : wide.toNat / 2 ^ 64 = ((a * 65536 + b) * 65536 + c) * 65536 + d
  low : wide.toNat % 2 ^ 64 = ((e * 65536 + f) * 65536 + g) * 65536 + h

theorem exists_groups (wide : BitVec 128) : ∃ a b c d e f g h, Groups wide a b c d e f g h := by
  have hlt := wide.isLt
  refine ⟨wide.toNat / 2 ^ 112 % 65536, wide.toNat / 2 ^ 96 % 65536, wide.toNat / 2 ^ 80 % 65536,
    wide.toNat / 2 ^ 64 % 65536, wide.toNat / 2 ^ 48 % 65536, wide.toNat / 2 ^ 32 % 65536,
    wide.toNat / 2 ^ 16 % 65536, wide.toNat / 2 ^ 0 % 65536, rfl, ?_, ?_, ?_, ?_, ?_, ?_, ?_, ?_,
    ?_, ?_⟩
  all_goals omega

theorem ofSegments_toNat (parts : List ℕ) :
    (ofSegments parts).toNat = parts.foldl (fun n part => n * 65536 + part) 0 % 2 ^ 128 :=
  BitVec.toNat_ofNat _ _

variable {a b c d e f g h : ℕ}

theorem inV6_iff (parts : List ℕ) (length : ℕ) (wide : BitVec 128) : InV6 (parts, length) wide ↔
    wide.toNat / 2 ^ (128 - length) =
      parts.foldl (fun n part => n * 65536 + part) 0 % 2 ^ 128 / 2 ^ (128 - length) := by
  rw [InV6, InBlock, ofSegments_toNat]

theorem Groups.newDocumentation (hg : Groups wide a b c d e f g h) :
    InV6 PublicLinks.newDocumentation wide ↔ a = 0x3fff ∧ b < 4096 := by
  obtain ⟨-, ha, hb, hc, hd, he, hf, hg, hh, hhigh, hlow⟩ := hg
  rw [PublicLinks.newDocumentation, inV6_iff]
  simp only [List.foldl_cons, List.foldl_nil, Nat.reducePow, Nat.reduceSub, Nat.reduceMul,
    Nat.reduceAdd, Nat.reduceMod, Nat.reduceDiv] at *
  omega

theorem Groups.protocolAssignments (hg : Groups wide a b c d e f g h) :
    InV6 PublicLinks.protocolAssignments wide ↔ a = 0x2001 ∧ b < 512 := by
  obtain ⟨-, ha, hb, hc, hd, he, hf, hg, hh, hhigh, hlow⟩ := hg
  rw [PublicLinks.protocolAssignments, inV6_iff]
  simp only [List.foldl_cons, List.foldl_nil, Nat.reducePow, Nat.reduceSub, Nat.reduceMul,
    Nat.reduceAdd, Nat.reduceMod, Nat.reduceDiv] at *
  omega

theorem Groups.teredo (hg : Groups wide a b c d e f g h) :
    InV6 PublicLinks.teredo wide ↔ a = 0x2001 ∧ b = 0 := by
  obtain ⟨-, ha, hb, hc, hd, he, hf, hg, hh, hhigh, hlow⟩ := hg
  rw [PublicLinks.teredo, inV6_iff]
  simp only [List.foldl_cons, List.foldl_nil, Nat.reducePow, Nat.reduceSub, Nat.reduceMul,
    Nat.reduceAdd, Nat.reduceMod, Nat.reduceDiv] at *
  omega

theorem Groups.v4Mapped (hg : Groups wide a b c d e f g h) :
    InV6 PublicLinks.v4Mapped wide ↔ (a = 0 ∧ b = 0 ∧ c = 0 ∧ d = 0 ∧ e = 0) ∧ f = 0xffff := by
  obtain ⟨-, ha, hb, hc, hd, he, hf, hg, hh, hhigh, hlow⟩ := hg
  rw [PublicLinks.v4Mapped, inV6_iff]
  simp only [List.foldl_cons, List.foldl_nil, Nat.reducePow, Nat.reduceSub, Nat.reduceMul,
    Nat.reduceAdd, Nat.reduceMod, Nat.reduceDiv] at *
  omega

theorem Groups.compatible (hg : Groups wide a b c d e f g h) :
    InV6 ([0, 0, 0, 0, 0, 0, 0, 0], 96) wide ↔ (a = 0 ∧ b = 0 ∧ c = 0 ∧ d = 0 ∧ e = 0) ∧ f = 0 := by
  obtain ⟨-, ha, hb, hc, hd, he, hf, hg, hh, hhigh, hlow⟩ := hg
  rw [inV6_iff]
  simp only [List.foldl_cons, List.foldl_nil, Nat.reducePow, Nat.reduceSub, Nat.reduceMul,
    Nat.reduceAdd, Nat.reduceMod, Nat.reduceDiv] at *
  omega

theorem Groups.nat64 (hg : Groups wide a b c d e f g h) :
    InV6 ([0x64, 0xff9b, 0, 0, 0, 0, 0, 0], 96) wide ↔
      a = 0x64 ∧ b = 0xff9b ∧ c = 0 ∧ d = 0 ∧ e = 0 ∧ f = 0 := by
  obtain ⟨-, ha, hb, hc, hd, he, hf, hg, hh, hhigh, hlow⟩ := hg
  rw [inV6_iff]
  simp only [List.foldl_cons, List.foldl_nil, Nat.reducePow, Nat.reduceSub, Nat.reduceMul,
    Nat.reduceAdd, Nat.reduceMod, Nat.reduceDiv] at *
  omega

theorem Groups.sixToFour (hg : Groups wide a b c d e f g h) :
    InV6 ([0x2002, 0, 0, 0, 0, 0, 0, 0], 16) wide ↔ a = 0x2002 := by
  obtain ⟨-, ha, hb, hc, hd, he, hf, hg, hh, hhigh, hlow⟩ := hg
  rw [inV6_iff]
  simp only [List.foldl_cons, List.foldl_nil, Nat.reducePow, Nat.reduceSub, Nat.reduceMul,
    Nat.reduceAdd, Nat.reduceMod, Nat.reduceDiv] at *
  omega

theorem Groups.unreachableV6 (hg : Groups wide a b c d e f g h) :
    (∃ block ∈ PublicLinks.unreachableV6, InV6 block wide) ↔
    wide.toNat = 1 ∨ wide.toNat = 0 ∨ (a = 0x64 ∧ b = 0xff9b ∧ c = 1) ∨
      (a = 0x100 ∧ b = 0 ∧ c = 0 ∧ d = 0) ∨
      (a = 0x100 ∧ b = 0 ∧ c = 0 ∧ d = 1) ∨ (a = 0x2001 ∧ b = 0xdb8) ∨ a = 0x5f00 ∨ a / 512 = 126 ∨
      a / 64 = 1018 := by
  obtain ⟨-, ha, hb, hc, hd, he, hf, hg, hh, hhigh, hlow⟩ := hg
  simp only [PublicLinks.unreachableV6, List.mem_cons, List.not_mem_nil, or_false, exists_eq_or_imp,
    exists_eq_left, inV6_iff]
  simp only [List.foldl_cons, List.foldl_nil, Nat.reducePow, Nat.reduceSub, Nat.reduceMul,
    Nat.reduceAdd, Nat.reduceMod, Nat.reduceDiv] at *
  refine or_congr (by omega) <| or_congr (by omega) <| or_congr (by omega) <| or_congr (by omega) <|
    or_congr (by omega) <| or_congr (by omega) <| or_congr (by omega) <|
      or_congr (by omega) (by omega)

end Blocks

section Judgement
variable {wide : BitVec 128} {a b c d e f g h : ℕ} {v4 : BitVec 32} {ip : IpAddr}

theorem Groups.embedded (hg : Groups wide a b c d e f g h) : embeddedIpv4 wide =
    if (a = 0 ∧ b = 0 ∧ c = 0 ∧ d = 0 ∧ e = 0 ∧ (f = 0xffff ∨ f = 0)) ∨
        (a = 0x64 ∧ b = 0xff9b ∧ c = 0 ∧ d = 0 ∧ e = 0 ∧ f = 0) then
          some (BitVec.ofNat 32 (g * 65536 + h))
    else if a = 0x2002 then some (BitVec.ofNat 32 (b * 65536 + c)) else none := by
  unfold embeddedIpv4
  rw [hg.segments]

theorem fixedForms_iff :
    ((a = 0 ∧ b = 0 ∧ c = 0 ∧ d = 0 ∧ e = 0) ∧ f = 0xffff ∨
      (a = 0 ∧ b = 0 ∧ c = 0 ∧ d = 0 ∧ e = 0) ∧ f = 0 ∨
      a = 0x64 ∧ b = 0xff9b ∧ c = 0 ∧ d = 0 ∧ e = 0 ∧ f = 0) ↔
      (a = 0 ∧ b = 0 ∧ c = 0 ∧ d = 0 ∧ e = 0 ∧ (f = 0xffff ∨ f = 0)) ∨
      (a = 0x64 ∧ b = 0xff9b ∧ c = 0 ∧ d = 0 ∧ e = 0 ∧ f = 0) := by
  rw [← or_assoc, ← and_or_left]
  simp only [and_assoc]

/-- The forms read are just the forms there are. -/
theorem standsFor_iff : StandsFor wide v4 ↔ embeddedIpv4 wide = some v4 := by
  obtain ⟨a, b, c, d, e, f, g, h, hg⟩ := exists_groups wide
  have hlow : wide.toNat % 2 ^ 32 = g * 65536 + h := by
    have hg7 := hg.seventh
    have hg8 := hg.last
    have hlow := hg.low
    omega
  have hhigh : wide.toNat / 2 ^ 80 % 2 ^ 32 = b * 65536 + c := by
    have hg2 := hg.second
    have hg3 := hg.third
    have hg4 := hg.fourth
    have hhigh := hg.high
    omega
  have hword : ∀ n, v4.toNat = n % 2 ^ 32 ↔ some (BitVec.ofNat 32 (n % 2 ^ 32)) = some v4 := by
    intro n
    rw [Option.some.injEq, ← BitVec.toNat_inj, BitVec.toNat_ofNat, Nat.mod_mod]
    exact eq_comm
  rw [StandsFor, hg.v4Mapped, hg.compatible, hg.nat64, hg.sixToFour, hg.embedded, ← hlow, ← hhigh,
    hword, hword, fixedForms_iff]
  -- The fixed forms leave no room for a 6to4 one.
  by_cases hfixed : (a = 0 ∧ b = 0 ∧ c = 0 ∧ d = 0 ∧ e = 0 ∧ (f = 0xffff ∨ f = 0)) ∨
      (a = 0x64 ∧ b = 0xff9b ∧ c = 0 ∧ d = 0 ∧ e = 0 ∧ f = 0)
  · have hnot : a ≠ 0x2002 := by
      rcases hfixed with ⟨rfl, -⟩ | ⟨rfl, -⟩ <;> decide
    rw [if_pos hfixed, and_iff_right hfixed, or_iff_left fun hsix => hnot hsix.1]
  · rw [if_neg hfixed, or_iff_right fun hform => hfixed hform.1]
    by_cases hsix : a = 0x2002
    · rw [if_pos hsix, and_iff_right hsix]
    · rw [if_neg hsix]
      exact iff_of_false (fun hform => hsix hform.1) (by simp)

theorem isPublic_embedded (hstands : embeddedIpv4 wide = some v4)
    (hrefused : isPublicV4 v4 = false) :
    isPublic (.v6 wide) = false := by
  rw [isPublic]
  split
  · rfl
  · rw [hstands]
    exact hrefused

/-- A group in 2000::/3 begins with these bits. -/
theorem global_bits (ha : a < 65536) (h : a &&& 0xe000 = 0x2000) : a / 8192 = 1 := by
  have hshift := congrArg (· >>> 13) h
  have hmask : (0xe000 : ℕ) >>> 13 = 2 ^ 3 - 1 := rfl
  have hone : (0x2000 : ℕ) >>> 13 = 1 := rfl
  rw [Nat.shiftRight_and_distrib, hmask, hone, Nat.and_two_pow_sub_one_eq_mod,
    Nat.shiftRight_eq_div_pow] at hshift
  omega

theorem Groups.isPublic_plain (hg : Groups wide a b c d e f g h) (hnone : embeddedIpv4 wide = none)
    (hzero : wide.toNat ≠ 1) (hone : wide.toNat ≠ 0) : isPublic (.v6 wide) =
      if a &&& 0xe000 ≠ 0x2000 then false else if a = 0x2001 ∧ (b = 0 ∨ b = 0x0db8) then false
        else true := by
  have hnot : ¬ (wide = 1 ∨ wide = 0) := by
    rintro (rfl | rfl)
    · exact hzero rfl
    · exact hone rfl
  rw [isPublic, if_neg hnot, hnone, hg.segments]

/-- Outside 2000::/3 no address is let through that stands for none. -/
theorem Groups.isPublic_outside (hg : Groups wide a b c d e f g h) (hout : a / 8192 ≠ 1)
    (hfixed : ¬ (a = 0 ∧ b = 0 ∧ c = 0 ∧ d = 0 ∧ e = 0 ∧ (f = 0xffff ∨ f = 0)) ∧
      ¬ (a = 0x64 ∧ b = 0xff9b ∧ c = 0 ∧ d = 0 ∧ e = 0 ∧ f = 0)) : isPublic (.v6 wide) = false := by
  have hnone : embeddedIpv4 wide = none := by
    rw [hg.embedded, if_neg (by rw [not_or]; exact hfixed), if_neg (by omega)]
  rw [isPublic]
  split
  · rfl
  · rw [hnone, hg.segments]
    dsimp only
    rw [if_pos fun hbits => hout (global_bits hg.first hbits)]

/-- Every address is judged right but those in the blocks that are missed. -/
theorem judged_iff (ip : IpAddr) : Judged ip ↔ ¬ Missed ip := by
  have hstands : ∀ bits v4, ip = .v6 bits → StandsFor bits v4 → isPublic (.v4 v4) = false →
      isPublic ip = false := by
    rintro bits v4 rfl hstands hrefused
    exact isPublic_embedded (standsFor_iff.mp hstands) hrefused
  rw [Judged, and_iff_left hstands]
  cases ip with
  | v4 bits =>
    refine iff_of_true ?_ id
    rintro ⟨block, hblock, hin⟩
    exact isPublicV4_false.mpr ⟨block, List.mem_cons_of_mem _ hblock, hin⟩
  | v6 wide =>
    obtain ⟨a, b, c, d, e, f, g, h, hg⟩ := exists_groups wide
    have hhigh := hg.high
    have hlow := hg.low
    -- Outside what is assigned it is no Teredo address.
    have hteredo : (∀ block ∈ assignedOut, ¬ InV6 block wide) → ¬ (a = 0x2001 ∧ b = 0) := by
      intro hout
      rw [← hg.teredo]
      exact hout _ List.mem_cons_self
    have hmapped : InV6 v4Mapped wide → embeddedIpv4 wide = some (BitVec.ofNat 32 wide.toNat) := by
      intro hin
      refine standsFor_iff.mp (Or.inl ⟨Or.inl hin, ?_⟩)
      rw [BitVec.toNat_ofNat]
    constructor
    · intro hjudged hmissed
      -- A missed block is public to the code, though nothing in it is reachable.
      rcases hmissed with hdoc | hprotocol | ⟨hin, hreachable⟩
      · have hrefused := hjudged (Or.inr (Or.inl hdoc))
        obtain ⟨rfl, hb⟩ := hg.newDocumentation.mp hdoc
        have hnone : embeddedIpv4 wide = none := by
          rw [hg.embedded, if_neg (by omega), if_neg (by omega)]
        rw [hg.isPublic_plain hnone (by omega) (by omega), if_neg (by decide),
          if_neg (by omega)] at hrefused
        cases hrefused
      · have hrefused := hjudged (Or.inr (Or.inr (Or.inr hprotocol)))
        obtain ⟨rfl, hb⟩ := hg.protocolAssignments.mp hprotocol.1
        have hnot := hteredo hprotocol.2
        have hnone : embeddedIpv4 wide = none := by
          rw [hg.embedded, if_neg (by omega), if_neg (by omega)]
        rw [hg.isPublic_plain hnone (by omega) (by omega), if_neg (by decide),
          if_neg (by omega)] at hrefused
        cases hrefused
      · have hrefused := hjudged (Or.inr (Or.inr (Or.inl hin)))
        have hgroups := hg.v4Mapped.mp hin
        have hpublic : isPublicV4 (BitVec.ofNat 32 wide.toNat) = true := by
          by_contra hnot
          obtain ⟨block, hblock, hinside⟩ := isPublicV4_false.mp (Bool.eq_false_iff.mpr hnot)
          exact hreachable block hblock hinside
        have hnot : ¬ (wide = 1 ∨ wide = 0) := by
          rintro (rfl | rfl)
          · have hone : (1 : BitVec 128).toNat = 1 := rfl
            omega
          · have hzero : (0 : BitVec 128).toNat = 0 := rfl
            omega
        rw [isPublic, if_neg hnot, hmapped hin] at hrefused
        dsimp only at hrefused
        rw [hpublic] at hrefused
        cases hrefused
    -- Every block that is not reachable is refused, unless it is missed.
    · intro hmissed hunreachable
      rcases hunreachable with hlist | hdoc | hin | hprotocol
      · have hfirst := hg.first
        rcases hg.unreachableV6.mp hlist with
          hone | hzero | hblock | hblock | hblock | hblock | hblock | hblock | hblock
        · have hwide : wide = 1 := BitVec.eq_of_toNat_eq hone
          rw [isPublic, if_pos (Or.inl hwide)]
        · have hwide : wide = 0 := BitVec.eq_of_toNat_eq hzero
          rw [isPublic, if_pos (Or.inr hwide)]
        · exact hg.isPublic_outside (by omega) (by omega)
        · exact hg.isPublic_outside (by omega) (by omega)
        · exact hg.isPublic_outside (by omega) (by omega)
        · have hnone : embeddedIpv4 wide = none := by
            rw [hg.embedded, if_neg (by omega), if_neg (by omega)]
          obtain ⟨rfl, rfl⟩ := hblock
          rw [hg.isPublic_plain hnone (by omega) (by omega), if_neg (by decide), if_pos (by decide)]
        · exact hg.isPublic_outside (by omega) (by omega)
        · exact hg.isPublic_outside (by omega) (by omega)
        · exact hg.isPublic_outside (by omega) (by omega)
      · exact absurd (Or.inl hdoc) hmissed
      · -- A mapped address is refused as the one inside is.
        apply isPublic_embedded (hmapped hin)
        apply isPublicV4_false.mpr
        by_contra hnone
        exact hmissed
          (Or.inr (Or.inr ⟨hin, fun block hblock hinside => hnone ⟨block, hblock, hinside⟩⟩))
      · exact absurd (Or.inr (Or.inl hprotocol)) hmissed

end Judgement

section Hops
variable {outside : Outside} {maxBytes turns hop : ℕ} {current : Url} {addr : IpAddr}
  {connection : Connection}

theorem Shaped.name (hshaped : Shaped outside current) :
    ∃ host, current.host = some host ∧ '.' ∈ host ∧ (Addresses.parse host).isNone := by
  obtain ⟨raw, hraw⟩ := hshaped
  obtain ⟨url, -, hurl⟩ := Option.bind_eq_some_iff.mp hraw
  split_ifs at hurl
  obtain ⟨host, hhost, hname⟩ := Option.bind_eq_some_iff.mp hurl
  split_ifs at hname with hdot hliteral
  obtain rfl := Option.some.inj hname
  rw [not_or, not_not] at hdot
  exact ⟨host, hhost, hdot.2, by simpa using hliteral⟩

theorem resolvePublic_spec (hresolved : resolvePublic outside hop current = some addr) :
    ∃ host port addrs,
    current.host = some host ∧ outside.lookupHost hop host port = some addrs ∧ addr ∈ addrs ∧
      ∀ addr ∈ addrs, isPublic addr = true := by
  obtain ⟨host, hhost, hlooked⟩ := Option.bind_eq_some_iff.mp hresolved
  obtain ⟨addrs, haddrs, hchecked⟩ := Option.bind_eq_some_iff.mp hlooked
  split_ifs at hchecked with hempty hall
  have hpublic : addrs.all isPublic = true := by simpa using hall
  exact ⟨host, _, addrs, hhost, haddrs, List.mem_of_mem_head? hchecked, List.all_eq_true.mp hpublic⟩

/-- The pin holds: the URL's host is the client's, and a name. -/
theorem Client.goesTo_pinned (hshaped : Shaped outside current) {host : Text}
    (hhost : current.host = some host) :
    Client.goesTo outside ⟨host, addr⟩ hop current = addr := by
  obtain ⟨name, hname, hdot, hnone⟩ := hshaped.name
  obtain rfl : host = name := Option.some.inj (hhost.symm.trans hname)
  exact if_pos ⟨hhost, hdot, hnone⟩

theorem readBody_length (chunks : List (Option (List UInt8))) :
    ∀ body : List UInt8, body.length ≤ maxBytes →
    (readBody maxBytes body chunks).length ≤ maxBytes := by
  induction chunks with
  | nil => exact fun body hbody => hbody
  | cons chunk chunks ih =>
    intro body hbody
    cases chunk with
    | none => exact hbody
    | some chunk =>
      rw [readBody]
      split
      · exact List.length_take_le _ _
      · next hless => exact ih _ (by omega)

/-- What one turn of the loop can do: end without a connection, end after one, or go on with a URL
whose shape was checked. -/
theorem getFrom_turn (maxBytes turns hop : ℕ) (hshaped : Shaped outside current) :
    getFrom outside maxBytes (turns + 1) hop current = (none, []) ∨
      ∃ connection, Checked outside connection ∧ connection.hop = hop ∧ connection.url = current ∧
        (getFrom outside maxBytes (turns + 1) hop current = (none, [connection]) ∨
          (∃ contentType chunks, getFrom outside maxBytes (turns + 1) hop current =
            (some (current, contentType, readBody maxBytes [] chunks), [connection])) ∨
          ∃ next, Shaped outside next ∧ getFrom outside maxBytes (turns + 1) hop current =
            ((getFrom outside maxBytes turns (hop + 1) next).1,
              connection :: (getFrom outside maxBytes turns (hop + 1) next).2)) := by
  rw [getFrom]
  split
  · next addr host hresolved hhost =>
    have hpinned : Client.goesTo outside ⟨host, addr⟩ hop current = addr :=
      Client.goesTo_pinned hshaped hhost
    have hchecked :
        Checked outside ⟨hop, current, Client.goesTo outside ⟨host, addr⟩ hop current⟩ := by
      rw [hpinned]
      exact resolvePublic_spec hresolved
    split
    · refine Or.inr ⟨_, hchecked, rfl, rfl, ?_⟩
      dsimp only
      split
      · exact Or.inl rfl
      · split
        · split
          · next next hnext =>
            -- A redirect is followed only through the shape check.
            obtain ⟨joined, -, hshape⟩ := Option.bind_eq_some_iff.mp hnext
            exact Or.inr (Or.inr ⟨next, ⟨_, hshape⟩, rfl⟩)
          · exact Or.inl rfl
        · split
          · exact Or.inr (Or.inl ⟨_, _, rfl⟩)
          · exact Or.inl rfl
    · exact Or.inl rfl
  · exact Or.inl rfl

/-- What the loop does from a hop on, in the turns left. -/
structure Onward (outside : Outside) (maxBytes turns hop : ℕ) (current : Url) : Prop where
  connects :
    ∀ connection ∈ (getFrom outside maxBytes turns hop current).2, Checked outside connection
  shaped :
    ∀ connection ∈ (getFrom outside maxBytes turns hop current).2, Shaped outside connection.url
  later : ∀ connection ∈ (getFrom outside maxBytes turns hop current).2, hop ≤ connection.hop
  hops : (getFrom outside maxBytes turns hop current).2.Pairwise fun earlier later => earlier.hop <
    later.hop
  few : (getFrom outside maxBytes turns hop current).2.length ≤ turns
  little : ∀ final contentType body, (getFrom outside maxBytes turns hop current).1 =
    some (final, contentType, body) → body.length ≤ maxBytes

theorem Onward.ended (hended : getFrom outside maxBytes turns hop current = (none, [])) :
    Onward outside maxBytes turns hop current := by
  constructor <;> simp [hended]

/-- The loop from any hop on, whatever the far ends and the resolver answer. -/
theorem getFrom_onward (turns : ℕ) : ∀ hop current, Shaped outside current →
    Onward outside maxBytes turns hop current := by
  induction turns with
  | zero => exact fun hop current _ => Onward.ended rfl
  | succ turns ih =>
    intro hop current hshaped
    rcases getFrom_turn maxBytes turns hop hshaped with
      hended | ⟨connection, hchecked, rfl, rfl, hturn⟩
    · exact Onward.ended hended
    · rcases hturn with hlast | ⟨contentType, chunks, hpage⟩ | ⟨next, hnext, hgoes⟩
      · constructor <;> simp [hlast, hchecked, hshaped]
      · have hlittle : (readBody maxBytes [] chunks).length ≤ maxBytes :=
          readBody_length chunks [] (Nat.zero_le _)
        constructor <;> simp [hpage, hchecked, hshaped]
        exact hlittle
      · have honward := ih (connection.hop + 1) next hnext
        have hlater : ∀ later ∈ (getFrom outside maxBytes turns (connection.hop + 1) next).2,
            connection.hop < later.hop := honward.later
        constructor <;> rw [hgoes]
        · exact List.forall_mem_cons.mpr ⟨hchecked, honward.connects⟩
        · exact List.forall_mem_cons.mpr ⟨hshaped, honward.shaped⟩
        · exact List.forall_mem_cons.mpr ⟨le_rfl, fun later hmem => (hlater later hmem).le⟩
        · exact List.pairwise_cons.mpr ⟨hlater, honward.hops⟩
        · exact Nat.succ_le_succ honward.few
        · exact honward.little

theorem guardedGet_guarded (hshaped : Shaped outside current) :
    Guarded outside current maxBytes := by
  have honward : Onward outside maxBytes _ 0 current :=
    getFrom_onward (MAX_LINK_REDIRECTS + 1) 0 current hshaped
  exact ⟨honward.connects, honward.shaped, honward.hops, honward.few, honward.little⟩

end Hops

/-- A fetch that starts from a checked shape is guarded, and every address is judged right but those
in the blocks that are missed. -/
theorem fetch_public_iff (outside : Outside) (url : Url) (maxBytes : ℕ) (ip : IpAddr) :
    ((Shaped outside url → Guarded outside url maxBytes) ∧ Judged ip) ↔ ¬ Missed ip := by
  rw [judged_iff]
  exact and_iff_right guardedGet_guarded

/-- The benchmarking block, whose IPv4 twin is refused. -/
theorem benchmarking_public : ¬ Judged (.v6 (ofSegments [0x2001, 2, 0, 0, 0, 0, 0, 1])) := by
  intro hjudged
  have hpublic : isPublic (.v6 (ofSegments [0x2001, 2, 0, 0, 0, 0, 0, 1])) = true := by decide
  have hunreachable : Unreachable (.v6 (ofSegments [0x2001, 2, 0, 0, 0, 0, 0, 1])) := by
    refine Or.inr (Or.inr (Or.inr ⟨rfl, ?_⟩))
    simp only [assignedOut, teredo, List.forall_mem_cons, InV6, InBlock]
    decide
  rw [hjudged.1 hunreachable] at hpublic
  cases hpublic

end Linger.PublicLinks
