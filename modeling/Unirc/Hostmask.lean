import Unirc.Chars
import Unirc.Decimal

/-!
# Host masks

`parse_netmask` of `hostmask.c` and the comparison of addresses with the result.
Addresses are kept in host order: 32 bits for IPv4, sixteen bytes for IPv6.
-/

namespace Unirc

abbrev V4Addr := BitVec 32

abbrev V6Addr := Fin 16 → BitVec 8

/-- A socket address; the constructor is its family. -/
inductive IpAddr where
  | inet (addr : V4Addr)
  | inet6 (addr : V6Addr)

/-- The result of `parse_netmask`: `HM_HOST`, `HM_IPV4` or `HM_IPV6`, with the
address and the length of the prefix. -/
inductive Netmask where
  | host
  | ipv4 (addr : V4Addr) (bits : ℤ)
  | ipv6 (addr : V6Addr) (bits : ℤ)

/-- An `unsigned long` stored in an `int`. -/
def toCInt (n : ℕ) : ℤ := (n : ℤ).bmod (2 ^ 32)

/-- The scan of `try_parse_v4_netmask`: the starts of the parts and the length
given by `*` or `/`; `none` where the text is not an address. -/
def scanV4 : Str → Option Char → List Str → Option (List Str × ℤ)
  | [], _, digits => some (digits, 0)
  | c :: rest, prev, digits =>
      if c.isDigit then scanV4 rest (some c) digits
      else if c = '.' then
        if 4 ≤ digits.length then none else scanV4 rest (some c) (digits ++ [rest])
      else if c = '*' then
        if rest ≠ [] ∨ prev ≠ some '.' then none
        else some (digits, ((digits.length : ℤ) - 1) * 8)
      else if c = '/' then
        let (value, after) := Decimal.strtoul rest
        let bits := toCInt value
        if bits = 0 ∨ after ≠ [] then none
        else if (digits.length : ℤ) * 8 < bits then none
        else some (digits, bits)
      else none

/-- The `k`-th byte of a prefix of `bits` bits, with the unused bits cleared. -/
def maskByte (bits : ℤ) (k : ℕ) (b : BitVec 8) : BitVec 8 :=
  if bits < 8 * k ∨ bits = 8 * k then 0
  else if bits < 8 * (k + 1) then b &&& ~~~((1#8 <<< (8 - (bits % 8).toNat)) - 1)
  else b

def tryParseV4Netmask (text : Str) : Netmask :=
  match scanV4 text none [text] with
  | none => .host
  | some (digits, bits) =>
      let bits := if digits.length < 4 ∧ bits = 0 then (digits.length : ℤ) * 8 else bits
      let digits := if bits ≠ 0 then digits ++ List.replicate (4 - digits.length) ['0'] else digits
      let bits := if bits = 0 then 32 else bits
      let addb (k : ℕ) : BitVec 8 :=
        maskByte bits k (BitVec.ofNat 8 (Decimal.strtoul (digits.getD k [])).1)
      .ipv4 (addb 0 ++ addb 1 ++ addb 2 ++ addb 3) bits

/-- The variables of `try_parse_v6_netmask`. -/
structure ScanV6 where
  d : ℕ → ℕ
  dp : ℕ
  nyble : ℕ
  finsert : Option ℕ
  bits : ℤ

def hexDigit? (c : Char) : Option ℕ :=
  if '0' ≤ c ∧ c ≤ '9' then some (c.toNat - '0'.toNat)
  else if 'A' ≤ c ∧ c ≤ 'F' then some (c.toNat - 'A'.toNat + 10)
  else if 'a' ≤ c ∧ c ≤ 'f' then some (c.toNat - 'a'.toNat + 10)
  else none

namespace ScanV6

def init : ScanV6 := ⟨fun _ => 0, 0, 4, none, 128⟩

/-- `d[dp] = d[dp] >> 4 * nyble`. -/
def align (s : ScanV6) : ScanV6 :=
  { s with d := Function.update s.d s.dp (s.d s.dp >>> (4 * s.nyble)) }

/-- The scan, with the flag that it ran to the end of the text. -/
def scan : Str → Option Char → ScanV6 → Option (ScanV6 × Bool)
  | [], _, s => some (s, true)
  | c :: rest, prev, s =>
      match hexDigit? c with
      | some v =>
          if s.nyble = 0 then none
          else scan rest (some c) { s with
            d := Function.update s.d s.dp (s.d s.dp ||| v <<< (4 * (s.nyble - 1)))
            nyble := s.nyble - 1 }
      | none =>
          if c = ':' then
            if prev = some ':' then
              if s.finsert.isSome then none
              else scan rest (some c) { s with finsert := some s.dp }
            else if 8 ≤ s.dp + 1 then none
            else scan rest (some c) { s.align with nyble := 4, dp := s.dp + 1 }
          else if c = '*' then
            if s.finsert.isSome ∨ rest ≠ [] ∨ s.dp = 0 ∨ prev ≠ some ':' then none
            else scan rest (some c) { s with bits := s.dp * 16 }
          else if c = '/' then
            let (value, after) := Decimal.strtoul rest
            let bits := toCInt value
            if bits < 0 ∨ after ≠ [] then none
            else if ((s.dp : ℤ) + 1) * 4 < bits ∧ ¬ (s.finsert.isSome ∧ bits ≤ 128) then none
            else some ({ s.align with dp := s.dp + 1, bits := bits }, false)
          else none

/-- The words of the address: `deficit` zero words are inserted at `finsert`. -/
def fill (d : ℕ → ℕ) (finsert : Option ℕ) : ℕ → ℕ → ℤ → List ℕ
  | 0, _, _ => []
  | k + 1, nyble, deficit =>
      if finsert = some nyble ∧ deficit ≠ 0 then 0 :: fill d finsert k nyble (deficit - 1)
      else d nyble :: fill d finsert k (nyble + 1) deficit

/-- A word of the prefix: the last one keeps its upper bits. -/
def maskWord (bits : ℤ) (k : ℕ) (w : BitVec 16) : BitVec 16 :=
  if bits ≤ 16 * k then 0
  else if bits < 16 * (k + 1) then w &&& ~~~((1#16 <<< (15 - (bits % 16).toNat)) - 1)
  else w

end ScanV6

def tryParseV6Netmask (text : Str) : Netmask :=
  match ScanV6.scan text none ScanV6.init with
  | none => .host
  | some (s, ended) =>
      let s := s.align
      let dp := if ended then s.dp + 1 else s.dp
      let bits : ℤ := if s.finsert = none ∧ s.bits = 0 then dp * 16 else s.bits
      let words := (bits + 15) / 16
      let dc := ScanV6.fill s.d s.finsert 8 0 (words - dp)
      let word (k : ℕ) := ScanV6.maskWord bits k (BitVec.ofNat 16 (dc.getD k 0))
      .ipv6 (fun i => if i.val % 2 = 0 then (word (i.val / 2)).extractLsb' 8 8
        else (word (i.val / 2)).extractLsb' 0 8) bits

def parseNetmask (text : Str) : Netmask :=
  if ':' ∈ text then tryParseV6Netmask text
  else if '.' ∈ text then tryParseV4Netmask text
  else .host

/-- `~((1 << (32 - bits)) - 1)`. -/
def v4Mask (bits : ℕ) : BitVec 32 := ~~~((1#32 <<< (32 - bits)) - 1)

/-- `~((1 << (8 - bits)) - 1)` on one byte. -/
def byteMask (bits : ℕ) : BitVec 8 := ~~~((1#8 <<< (8 - bits)) - 1)

def matchIpv4 (addr mask : V4Addr) (bits : ℕ) : Bool := addr &&& v4Mask bits = mask

/-- `match_ipv6`: the whole bytes of the prefix, then the bits of the next one. -/
def matchIpv6 (addr mask : V6Addr) (bits : ℕ) : Bool :=
  decide (∀ i : Fin 16, i.val < bits / 8 → addr i = mask i) &&
    (bits % 8 == 0 ||
      decide (∀ i : Fin 16, i.val = bits / 8 → addr i &&& byteMask (bits % 8) = mask i))

end Unirc
