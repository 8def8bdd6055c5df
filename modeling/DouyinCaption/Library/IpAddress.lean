import Mathlib.Data.List.SplitOn
import Mathlib.Data.Nat.Notation

/-!
# IP addresses

`ipaddress` of the standard library of Python 3.12: the addresses `ip_address` reads from a text,
and which of them are `is_global`. An address is its number, and a network is its first address
with the number of bits left to its hosts.
-/

namespace DouyinCaption.IpAddress

/-- An `IPv4Address` or an `IPv6Address`. -/
inductive Address where
  | v4 (ip : ℕ)
  | v6 (ip : ℕ) (scopeId : Option (List Char))
  deriving DecidableEq, Repr

/-! ## Reading an address -/

/-- `str.isdigit` and `str.isascii` of a text that is not empty -/
def isDecimal (s : List Char) : Bool := !s.isEmpty && s.all (·.isDigit)

/-- The number a text of decimal digits stands for. -/
def ofDecimal (s : List Char) : ℕ := s.foldl (fun n c => 10 * n + (c.toNat - '0'.toNat)) 0

/-- `_parse_octet` -/
def parseOctet (octet : List Char) : Option ℕ :=
  if !isDecimal octet || 3 < octet.length || (octet != ['0'] && octet.head? == some '0') then none
  else if 255 < ofDecimal octet then none
  else some (ofDecimal octet)

/-- `IPv4Address._ip_int_from_string` -/
def v4OfString (s : List Char) : Option ℕ := do
  let octets ← (s.splitOn '.').mapM parseOctet
  if octets.length = 4 then some (octets.foldl (fun n octet => 256 * n + octet) 0) else none

/-- The value of a hexadecimal digit. -/
def hexDigit (c : Char) : Option ℕ :=
  if c.isDigit then some (c.toNat - '0'.toNat)
  else if 'a' ≤ c ∧ c ≤ 'f' then some (c.toNat - 'a'.toNat + 10)
  else if 'A' ≤ c ∧ c ≤ 'F' then some (c.toNat - 'A'.toNat + 10)
  else none

/-- `_parse_hextet` -/
def parseHextet (hextet : List Char) : Option ℕ := do
  let digits ← hextet.mapM hexDigit
  if digits.isEmpty || 4 < digits.length then none
  else some (digits.foldl (fun n digit => 16 * n + digit) 0)

/-- An IPv4 suffix is rewritten to two hextets. -/
def withoutV4Suffix (parts : List (List Char)) : Option (List (List Char)) :=
  match parts.getLast? with
  | some last =>
    if '.' ∈ last then
      (v4OfString last).map fun ip =>
        parts.dropLast ++ [Nat.toDigits 16 (ip / 65536), Nat.toDigits 16 (ip % 65536)]
    else some parts
  | none => none

/-- The parts before and after `::`, and how many hextets it stands for. -/
def splitSkipped (parts : List (List Char)) :
    Option (List (List Char) × ℕ × List (List Char)) :=
  let skips := (List.range parts.length).filter fun i =>
    1 ≤ i && i + 1 < parts.length && parts[i]? == some []
  match skips with
  | [] =>
    if parts.length ≠ 8 || parts.head? == some [] || parts.getLast? == some [] then none
    else some (parts, 0, [])
  | [i] =>
    let leading := parts.head? == some []
    let trailing := parts.getLast? == some []
    let hi := if leading then i - 1 else i
    let lo := if trailing then parts.length - i - 2 else parts.length - i - 1
    -- a colon in front or at the end is only there as a part of `::`
    if leading && hi != 0 || trailing && lo != 0 || 8 < hi + lo + 1 then none
    else some (parts.take hi, 8 - (hi + lo), parts.drop (parts.length - lo))
  | _ => none

/-- `IPv6Address._ip_int_from_string` -/
def v6OfString (s : List Char) : Option ℕ := do
  let parts := s.splitOn ':'
  if parts.length < 3 then none
  else
    let parts ← withoutV4Suffix parts
    if 9 < parts.length then none
    else
      let (hi, skipped, lo) ← splitSkipped parts
      let hi ← hi.mapM parseHextet
      let lo ← lo.mapM parseHextet
      let shift (n hextet : ℕ) := 65536 * n + hextet
      some (lo.foldl shift (hi.foldl shift 0 <<< (16 * skipped)))

/-- `_split_scope_id` -/
def splitScopeId (s : List Char) : Option (List Char × Option (List Char)) :=
  match s.splitOn '%' with
  | [addr] => some (addr, none)
  | [addr, scopeId] => if scopeId.isEmpty then none else some (addr, some scopeId)
  | _ => none

/-- `ip_address`; `none` is the `ValueError` -/
def ipAddress (s : List Char) : Option Address :=
  if '/' ∈ s then none
  else match v4OfString s with
    | some ip => some (.v4 ip)
    | none => do
      let (addr, scopeId) ← splitScopeId s
      (v6OfString addr).map (.v6 · scopeId)

/-! ## Global addresses -/

/-- A network, by its first address and the number of bits left to its hosts. -/
structure Network where
  first : ℕ
  hostBits : ℕ

/-- The address is one of the network's. -/
def Network.contains (n : Network) (ip : ℕ) : Bool :=
  ip >>> n.hostBits == n.first >>> n.hostBits

/-- An IPv4 address from its octets. -/
def v4Of (a b c d : ℕ) : ℕ := ((a * 256 + b) * 256 + c) * 256 + d

/-- An IPv6 address from its first four hextets and its last. -/
def v6Of (a b c d last : ℕ) : ℕ :=
  ((((a * 65536 + b) * 65536 + c) * 65536 + d) <<< 64) + last

/-- `_IPv4Constants._private_networks` -/
def v4PrivateNetworks : List Network :=
  [⟨v4Of 0 0 0 0, 24⟩, ⟨v4Of 10 0 0 0, 24⟩, ⟨v4Of 127 0 0 0, 24⟩, ⟨v4Of 169 254 0 0, 16⟩,
    ⟨v4Of 172 16 0 0, 20⟩, ⟨v4Of 192 0 0 0, 8⟩, ⟨v4Of 192 0 0 170, 1⟩, ⟨v4Of 192 0 2 0, 8⟩,
    ⟨v4Of 192 168 0 0, 16⟩, ⟨v4Of 198 18 0 0, 17⟩, ⟨v4Of 198 51 100 0, 8⟩,
    ⟨v4Of 203 0 113 0, 8⟩, ⟨v4Of 240 0 0 0, 28⟩, ⟨v4Of 255 255 255 255, 0⟩]

/-- `_IPv4Constants._private_networks_exceptions` -/
def v4PrivateNetworksExceptions : List Network :=
  [⟨v4Of 192 0 0 9, 0⟩, ⟨v4Of 192 0 0 10, 0⟩]

/-- `_IPv4Constants._public_network` -/
def v4PublicNetwork : Network := ⟨v4Of 100 64 0 0, 22⟩

/-- `_IPv6Constants._private_networks` -/
def v6PrivateNetworks : List Network :=
  [⟨1, 0⟩, ⟨0, 0⟩, ⟨v6Of 0 0 0 0 0xffff00000000, 32⟩, ⟨v6Of 0x64 0xff9b 1 0 0, 80⟩,
    ⟨v6Of 0x100 0 0 0 0, 64⟩, ⟨v6Of 0x2001 0 0 0 0, 105⟩, ⟨v6Of 0x2001 0xdb8 0 0 0, 96⟩,
    ⟨v6Of 0x2002 0 0 0 0, 112⟩, ⟨v6Of 0x3fff 0 0 0 0, 108⟩, ⟨v6Of 0xfc00 0 0 0 0, 121⟩,
    ⟨v6Of 0xfe80 0 0 0 0, 118⟩]

/-- `_IPv6Constants._private_networks_exceptions` -/
def v6PrivateNetworksExceptions : List Network :=
  [⟨v6Of 0x2001 1 0 0 1, 0⟩, ⟨v6Of 0x2001 1 0 0 2, 0⟩, ⟨v6Of 0x2001 3 0 0 0, 96⟩,
    ⟨v6Of 0x2001 4 0x112 0 0, 80⟩, ⟨v6Of 0x2001 0x20 0 0 0, 100⟩,
    ⟨v6Of 0x2001 0x30 0 0 0, 100⟩]

/-- `IPv4Address.is_private` -/
def v4IsPrivate (ip : ℕ) : Bool :=
  v4PrivateNetworks.any (·.contains ip) && v4PrivateNetworksExceptions.all (!·.contains ip)

/-- `IPv4Address.is_global` -/
def v4IsGlobal (ip : ℕ) : Bool := !v4PublicNetwork.contains ip && !v4IsPrivate ip

/-- `IPv6Address.is_global`: a mapped IPv4 address is as global as the address itself. -/
def v6IsGlobal (ip : ℕ) : Bool :=
  if ip >>> 32 = 0xffff then v4IsGlobal (ip &&& 0xffffffff)
  else !(v6PrivateNetworks.any (·.contains ip) &&
    v6PrivateNetworksExceptions.all (!·.contains ip))

/-- `is_global` -/
def Address.isGlobal : Address → Bool
  | .v4 ip => v4IsGlobal ip
  | .v6 ip _ => v6IsGlobal ip

end DouyinCaption.IpAddress
