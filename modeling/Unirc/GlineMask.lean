import Unirc.Hostmask

/-!
# Recognising a G-line

`_find_gline` of `m_gline.c` parses the given mask and every stored one, and matches the one
address against the other as if it were the address of a client. The parser of IPv6 masks
keeps the bit below the prefix, so a mask in which it is set does not match itself.
-/

namespace Unirc

/-- An access item on `temporary_glines`. -/
structure Gline where
  user : Str
  host : Str
  reason : Str
  hold : ℤ

/-- One turn of the loop of `_find_gline`. -/
def sameGline (user host : Str) (aconf : Gline) : Bool :=
  match parseNetmask host, parseNetmask aconf.host with
  | .host, .host => !irccmp user aconf.user && !irccmp aconf.host host
  | .ipv4 addr bits, .ipv4 caddr cbits =>
      !irccmp user aconf.user && bits == cbits && matchIpv4 addr caddr bits.toNat
  | .ipv6 addr bits, .ipv6 caddr cbits =>
      !irccmp user aconf.user && bits == cbits && matchIpv6 addr caddr bits.toNat
  | _, _ => false

def findGline (glines : List Gline) (user host : Str) : Bool := glines.any (sameGline user host)

/-- The parsed address has no bit right below its prefix, or the prefix ends with a byte. -/
def Netmask.ClearBelow : Netmask → Prop
  | .ipv6 addr bits =>
      bits % 8 = 0 ∨ ∀ i : Fin 16, (i.val : ℤ) = bits / 8 →
        (addr i).getLsbD (7 - (bits % 8).toNat) = false
  | _ => True

instance : DecidablePred Netmask.ClearBelow := fun m => by
  cases m <;> unfold Netmask.ClearBelow <;> infer_instance

/-- The byte of `v4Mask` at `k`. -/
def prefixByte (bits k : ℕ) : BitVec 8 :=
  if bits ≤ 8 * k then 0
  else if bits < 8 * (k + 1) then byteMask (bits % 8)
  else BitVec.allOnes 8

theorem v4Mask_eq_append (bits : ℕ) : v4Mask bits =
    prefixByte bits 0 ++ prefixByte bits 1 ++ prefixByte bits 2 ++ prefixByte bits 3 := by
  rcases Nat.lt_or_ge bits 33 with h | h
  · have hfinite : ∀ b : Fin 33, v4Mask b.val =
        prefixByte b.val 0 ++ prefixByte b.val 1 ++ prefixByte b.val 2 ++ prefixByte b.val 3 := by
      decide
    exact hfinite ⟨bits, h⟩
  · have hones : ∀ k < 4, prefixByte bits k = BitVec.allOnes 8 := fun k hk => by
      rw [prefixByte, if_neg (by omega), if_neg (by omega)]
    rw [v4Mask, Nat.sub_eq_zero_of_le (by omega), hones 0 (by decide), hones 1 (by decide),
      hones 2 (by decide), hones 3 (by decide)]
    decide

theorem maskByte_eq (bits : ℤ) (k : ℕ) (b : BitVec 8) :
    maskByte bits k b = b &&& prefixByte bits.toNat k := by
  have hlow : (bits < 8 * k ∨ bits = 8 * k) ↔ bits.toNat ≤ 8 * k := by omega
  unfold maskByte prefixByte
  simp only [hlow]
  split
  · exact BitVec.and_zero.symm
  · rename_i h
    have hin : bits < 8 * (k + 1) ↔ bits.toNat < 8 * (k + 1) := by omega
    simp only [hin]
    split
    · rw [byteMask, show (bits % 8).toNat = bits.toNat % 8 by omega]
    · exact BitVec.and_allOnes.symm

theorem maskByte_and (bits : ℤ) (k : ℕ) (b : BitVec 8) :
    maskByte bits k b &&& prefixByte bits.toNat k = maskByte bits k b := by
  rw [maskByte_eq, BitVec.and_assoc, BitVec.and_self]

/-- The unused bits of a parsed IPv4 address are clear. -/
theorem tryParseV4Netmask_and {text : Str} {addr : V4Addr} {bits : ℤ}
    (h : tryParseV4Netmask text = .ipv4 addr bits) : addr &&& v4Mask bits.toNat = addr := by
  unfold tryParseV4Netmask at h
  split at h
  · cases h
  · cases h
    rw [v4Mask_eq_append]
    rw [BitVec.and_append, BitVec.and_append, BitVec.and_append, maskByte_and, maskByte_and,
      maskByte_and, maskByte_and]

theorem matchIpv6_self (addr : V6Addr) (bits : ℕ) :
    matchIpv6 addr addr bits = true ↔ bits % 8 = 0 ∨
      ∀ i : Fin 16, i.val = bits / 8 → addr i &&& byteMask (bits % 8) = addr i := by
  simp [matchIpv6]

/-- A byte with one bit more than the prefix is its own prefix when that bit is clear. -/
theorem and_byteMask_eq_iff : ∀ m : Fin 8, ∀ b : BitVec 8, b &&& byteMask (m.val + 1) = b →
    (b &&& byteMask m.val = b ↔ b.getLsbD (7 - m.val) = false) := by decide +kernel

theorem wordMask_bytes : ∀ m : Fin 16, m.val % 8 ≠ 0 →
    (~~~((1#16 <<< (15 - m.val)) - 1)).extractLsb' (if m.val < 8 then 8 else 0) 8 =
      byteMask (m.val % 8 + 1) := by decide

/-- The byte at the end of the prefix keeps one bit too many. -/
theorem tryParseV6Netmask_and {text : Str} {addr : V6Addr} {bits : ℤ}
    (h : tryParseV6Netmask text = .ipv6 addr bits) (hbits : bits % 8 ≠ 0) {i : Fin 16}
    (hi : (i.val : ℤ) = bits / 8) :
    addr i &&& byteMask ((bits % 8).toNat + 1) = addr i := by
  unfold tryParseV6Netmask at h
  split at h
  · cases h
  · simp only [Netmask.ipv6.injEq] at h
    obtain ⟨rfl, hlen⟩ := h
    simp only [hlen]
    have hword (w : BitVec 16) : ScanV6.maskWord bits (i.val / 2) w =
        w &&& ~~~((1#16 <<< (15 - (bits % 16).toNat)) - 1) := by
      rw [ScanV6.maskWord, if_neg (by omega), if_pos (by omega)]
    have hmask := wordMask_bytes ⟨(bits % 16).toNat, by omega⟩
      (show (bits % 16).toNat % 8 ≠ 0 by omega)
    rw [show (bits % 16).toNat % 8 = (bits % 8).toNat by omega] at hmask
    split
    · rw [if_pos (show (bits % 16).toNat < 8 by omega)] at hmask
      rw [hword, BitVec.extractLsb'_and, hmask, BitVec.and_assoc, BitVec.and_self]
    · rw [if_neg (show ¬ (bits % 16).toNat < 8 by omega)] at hmask
      rw [hword, BitVec.extractLsb'_and, hmask, BitVec.and_assoc, BitVec.and_self]

theorem tryParseV4Netmask_ne_ipv6 (text : Str) (addr : V6Addr) (bits : ℤ) :
    tryParseV4Netmask text ≠ .ipv6 addr bits := by
  unfold tryParseV4Netmask
  split <;> simp

theorem tryParseV6Netmask_ne_ipv4 (text : Str) (addr : V4Addr) (bits : ℤ) :
    tryParseV6Netmask text ≠ .ipv4 addr bits := by
  unfold tryParseV6Netmask
  split <;> simp

theorem parseNetmask_ipv4 {text : Str} {addr : V4Addr} {bits : ℤ}
    (h : parseNetmask text = .ipv4 addr bits) : tryParseV4Netmask text = .ipv4 addr bits := by
  unfold parseNetmask at h
  split at h
  · exact absurd h (tryParseV6Netmask_ne_ipv4 _ _ _)
  · split at h
    · exact h
    · cases h

theorem parseNetmask_ipv6 {text : Str} {addr : V6Addr} {bits : ℤ}
    (h : parseNetmask text = .ipv6 addr bits) : tryParseV6Netmask text = .ipv6 addr bits := by
  unfold parseNetmask at h
  split at h
  · exact h
  · split at h
    · exact absurd h (tryParseV4Netmask_ne_ipv6 _ _ _)
    · cases h

/-- A stored mask is recognised exactly when nothing is left below its prefix. -/
theorem sameGline_self (g : Gline) :
    sameGline g.user g.host g = true ↔ (parseNetmask g.host).ClearBelow := by
  have hrefl (s : Str) : irccmp s s = false := (irccmp_eq_false_iff s s).mpr rfl
  unfold sameGline
  cases hmask : parseNetmask g.host with
  | host => simp [hrefl, Netmask.ClearBelow]
  | ipv4 addr bits =>
      have hand := tryParseV4Netmask_and (parseNetmask_ipv4 hmask)
      simp [hrefl, Netmask.ClearBelow, matchIpv4, hand]
  | ipv6 addr bits =>
      simp only [hrefl, Bool.not_false, beq_self_eq_true, Bool.and_self, Bool.true_and,
        matchIpv6_self, Netmask.ClearBelow]
      by_cases hwhole : bits % 8 = 0 ∨ bits < 0
      · have hleft : bits.toNat % 8 = 0 := by omega
        refine iff_of_true (Or.inl hleft) (hwhole.imp_right fun hneg i hi => ?_)
        omega
      · have hrem : bits.toNat % 8 = (bits % 8).toNat := by omega
        rw [or_iff_right (by omega), or_iff_right (by omega)]
        refine forall_congr' fun i => ?_
        have hidx : i.val = bits.toNat / 8 ↔ (i.val : ℤ) = bits / 8 := by omega
        rw [hidx]
        refine imp_congr_right fun hi => ?_
        have hkept := tryParseV6Netmask_and (parseNetmask_ipv6 hmask) (by omega) hi
        rw [hrem]
        exact and_byteMask_eq_iff ⟨(bits % 8).toNat, by omega⟩ (addr i) hkept

theorem findGline_cons_self (g : Gline) (glines : List Gline)
    (h : findGline glines g.user g.host = false) :
    findGline (g :: glines) g.user g.host = true ↔ (parseNetmask g.host).ClearBelow := by
  unfold findGline at h ⊢
  rw [List.any_cons, h, Bool.or_false, sameGline_self]

end Unirc
