import Unirc.MaskFields

/-!
# Prefixes of IPv6 addresses

`match_ipv6` compares the first bits of an address with a mask. The mask that
`try_parse_v6_netmask` stores keeps the bit behind its prefix unless the prefix ends with a
word, and what matches depends on that bit unless the prefix ends with a byte.
-/

namespace Unirc

/-- Bit `j` of an address, counted from the first one on the wire. -/
def V6Addr.bit (a : V6Addr) (j : ℕ) : Bool :=
  if h : j / 8 < 16 then (a ⟨j / 8, h⟩).getMsbD (j % 8) else false

def SamePrefix (n : ℕ) (a b : V6Addr) : Prop := ∀ j < n, a.bit j = b.bit j

def wordBit (ws : List ℕ) (j : ℕ) : Bool := (ws.getD (j / 16) 0).testBit (15 - j % 16)

/-- The bytes of eight words in network order. -/
def V6Addr.ofWords (ws : ℕ → BitVec 16) : V6Addr := fun i =>
  if i.val % 2 = 0 then (ws (i.val / 2)).extractLsb' 8 8 else (ws (i.val / 2)).extractLsb' 0 8

theorem V6Addr.bit_ofWords (ws : ℕ → BitVec 16) {j : ℕ} (hj : j < 128) :
    (V6Addr.ofWords ws).bit j = (ws (j / 16)).getMsbD (j % 16) := by
  rw [V6Addr.bit, dif_pos (by omega)]
  unfold V6Addr.ofWords
  simp only [show j / 8 / 2 = j / 16 by omega]
  split
  · rename_i heven
    rw [BitVec.getMsbD_eq_getLsbD, BitVec.getMsbD_eq_getLsbD, BitVec.getLsbD_extractLsb',
      show 8 + (8 - 1 - j % 8) = 16 - 1 - j % 16 by omega,
      decide_eq_true (show j % 8 < 8 by omega), decide_eq_true (show j % 16 < 16 by omega),
      decide_eq_true (show 8 - 1 - j % 8 < 8 by omega), Bool.true_and]
  · rename_i hodd
    rw [BitVec.getMsbD_eq_getLsbD, BitVec.getMsbD_eq_getLsbD, BitVec.getLsbD_extractLsb',
      show 0 + (8 - 1 - j % 8) = 16 - 1 - j % 16 by omega,
      decide_eq_true (show j % 8 < 8 by omega), decide_eq_true (show j % 16 < 16 by omega),
      decide_eq_true (show 8 - 1 - j % 8 < 8 by omega), Bool.true_and]

theorem getMsbD_ofNat_getD (ws : List ℕ) (j : ℕ) :
    (BitVec.ofNat 16 (ws.getD (j / 16) 0)).getMsbD (j % 16) = wordBit ws j := by
  rw [BitVec.getMsbD_eq_getLsbD, BitVec.getLsbD_ofNat, wordBit,
    decide_eq_true (show j % 16 < 16 by omega),
    decide_eq_true (show 16 - 1 - j % 16 < 16 by omega), Bool.true_and, Bool.true_and]

theorem getMsbD_byteMask : ∀ m : Fin 8, ∀ k : Fin 8,
    (byteMask m.val).getMsbD k.val = decide (k.val < m.val) := by decide

theorem getMsbD_wordMask : ∀ m : Fin 16, ∀ k : Fin 16,
    (~~~((1#16 <<< (15 - m.val)) - 1)).getMsbD k.val = decide (k.val ≤ m.val) := by decide

theorem byte_ext_iff {x y : BitVec 8} : x = y ↔ ∀ k < 8, x.getMsbD k = y.getMsbD k :=
  ⟨fun h k _ => by rw [h], fun h => BitVec.eq_of_getMsbD_eq fun k hk => h k hk⟩

/-- `match_ipv6`: the bits of the prefix, and zeros to the end of its last byte. -/
theorem matchIpv6_iff {a mask : V6Addr} {n : ℕ} (hn : n ≤ 128) :
    matchIpv6 a mask n = true ↔
      ∀ j < 8 * ((n + 7) / 8), (decide (j < n) && a.bit j) = mask.bit j := by
  have hbit (b : V6Addr) {i k : ℕ} (hi : i < 16) (hk : k < 8) :
      b.bit (8 * i + k) = (b ⟨i, hi⟩).getMsbD k := by
    rw [V6Addr.bit, dif_pos (by omega)]
    simp only [show (8 * i + k) / 8 = i by omega, show (8 * i + k) % 8 = k by omega]
  simp only [matchIpv6, Bool.and_eq_true, decide_eq_true_eq, Bool.or_eq_true, beq_iff_eq]
  constructor
  · rintro ⟨hwhole, hlast⟩ j hj
    obtain ⟨i, k, hk, rfl⟩ : ∃ i k, k < 8 ∧ j = 8 * i + k := ⟨j / 8, j % 8, by omega, by omega⟩
    have hi : i < 16 := by omega
    rw [hbit a hi hk, hbit mask hi hk]
    by_cases hwholeByte : i < n / 8
    · rw [hwhole ⟨i, hi⟩ hwholeByte, decide_eq_true (by omega), Bool.true_and]
    · rcases hlast with hlast | hlast
      · omega
      · have hm : n % 8 < 8 := by omega
        have hbyte := congrArg (·.getMsbD k) (hlast ⟨i, hi⟩ (show i = n / 8 by omega))
        simp only [BitVec.getMsbD_and, getMsbD_byteMask ⟨n % 8, hm⟩ ⟨k, hk⟩] at hbyte
        rw [← hbyte, Bool.and_comm, decide_eq_decide.mpr (show 8 * i + k < n ↔ k < n % 8 by omega)]
  · intro h
    refine ⟨fun i hi => byte_ext_iff.mpr fun k hk => ?_, ?_⟩
    · have hj := h (8 * i.val + k) (by omega)
      rwa [hbit a i.isLt hk, hbit mask i.isLt hk, decide_eq_true (by omega), Bool.true_and] at hj
    · by_cases hm : n % 8 = 0
      · exact Or.inl hm
      · refine Or.inr fun i hi => byte_ext_iff.mpr fun k hk => ?_
        have hj := h (8 * i.val + k) (by omega)
        rw [hbit a i.isLt hk, hbit mask i.isLt hk] at hj
        rw [← hj, BitVec.getMsbD_and, getMsbD_byteMask ⟨n % 8, by omega⟩ ⟨k, hk⟩, Bool.and_comm,
          decide_eq_decide.mpr (show 8 * i.val + k < n ↔ k < n % 8 by omega)]

/-- What is left of bit `j` in the mask of `n` bits. -/
def Kept (n j : ℕ) : Prop := j < n ∨ j = n ∧ n % 16 ≠ 0

instance (n j : ℕ) : Decidable (Kept n j) := by unfold Kept; infer_instance

theorem getMsbD_maskWord (w : BitVec 16) (n : ℕ) (j : ℕ) :
    (ScanV6.maskWord n (j / 16) w).getMsbD (j % 16) =
      (w.getMsbD (j % 16) && decide (Kept n j)) := by
  unfold ScanV6.maskWord
  split
  · rename_i hlow
    have hkept : ¬ Kept n j := by
      unfold Kept
      omega
    rw [decide_eq_false hkept, Bool.and_false]
    exact BitVec.getMsbD_zero
  · rename_i hlow
    split
    · rename_i hhigh
      have hm : (((n : ℕ) : ℤ) % 16).toNat < 16 := by omega
      have hkept : j % 16 ≤ (((n : ℕ) : ℤ) % 16).toNat ↔ Kept n j := by
        unfold Kept
        omega
      rw [BitVec.getMsbD_and, getMsbD_wordMask ⟨_, hm⟩ ⟨j % 16, by omega⟩,
        decide_eq_decide.mpr hkept]
    · rename_i hhigh
      have hkept : Kept n j := by
        unfold Kept
        omega
      rw [decide_eq_true hkept, Bool.and_true]

/-- A mask with the bits of `words` that are kept has the prefix of an address. -/
theorem forall_matchIpv6_iff {mask t : V6Addr} {n : ℕ} {words : List ℕ} (hn : n ≤ 128)
    (hmask : ∀ j < 128, mask.bit j = (wordBit words j && decide (Kept n j))) :
    (∀ a, matchIpv6 a mask n = true ↔ SamePrefix n a t) ↔
      SamePrefix n t mask ∧ (n % 8 = 0 ∨ wordBit words n = false) := by
  constructor
  · intro h
    have hself := (matchIpv6_iff hn).mp ((h t).mpr fun _ _ => rfl)
    refine ⟨fun j hj => ?_, ?_⟩
    · have hbit := hself j (by omega)
      rwa [decide_eq_true hj, Bool.true_and] at hbit
    · by_cases hbyte : n % 8 = 0
      · exact Or.inl hbyte
      · have hbit := hself n (by omega)
        have hkept : Kept n n := Or.inr ⟨rfl, by omega⟩
        rw [decide_eq_false (by omega), Bool.false_and, hmask n (by omega), decide_eq_true hkept,
          Bool.and_true] at hbit
        exact Or.inr hbit.symm
  · rintro ⟨ hprefix, hbehind⟩ a
    rw [matchIpv6_iff hn]
    constructor
    · intro h j hj
      have hbit := h j (by omega)
      rw [decide_eq_true hj, Bool.true_and] at hbit
      rw [hbit, hprefix j hj]
    · intro h j hj
      by_cases hlt : j < n
      · rw [decide_eq_true hlt, Bool.true_and, h j hlt, hprefix j hlt]
      · rw [decide_eq_false hlt, Bool.false_and, hmask j (by omega)]
        by_cases hkept : Kept n j
        · obtain hlt' | ⟨rfl, -⟩ := hkept
          · exact absurd hlt' hlt
          · rw [hbehind.resolve_left (by omega), Bool.false_and]
        · rw [decide_eq_false hkept, Bool.and_false]

namespace ScanV6

variable {d : ℕ → ℕ} {finsert : Option ℕ}

theorem fill_of_zero (k nyble : ℕ) :
    fill d finsert k nyble 0 = (List.range' nyble k).map d := by
  induction k generalizing nyble with
  | zero => rfl
  | succ k ih => rw [fill, if_neg (by simp), ih, List.range'_succ, List.map_cons]

theorem fill_none (k nyble : ℕ) (deficit : ℤ) :
    fill d none k nyble deficit = (List.range' nyble k).map d := by
  induction k generalizing nyble with
  | zero => rfl
  | succ k ih => rw [fill, if_neg (by simp), ih, List.range'_succ, List.map_cons]

variable {f : ℕ}

theorem fill_before {nyble j : ℕ} (hj : nyble + j ≤ f) (k : ℕ) (deficit : ℤ) :
    fill d (some f) (j + k) nyble deficit =
      (List.range' nyble j).map d ++ fill d (some f) k (nyble + j) deficit := by
  induction j generalizing nyble with
  | zero => simp
  | succ j ih =>
      rw [show j + 1 + k = (j + k) + 1 by omega, fill, if_neg, ih (by omega), List.range'_succ,
        List.map_cons, List.cons_append, show nyble + 1 + j = nyble + (j + 1) by omega]
      rintro ⟨he, -⟩
      have := Option.some.inj he
      omega

theorem fill_zeros (j k : ℕ) :
    fill d (some f) (j + k) f j = List.replicate j 0 ++ (List.range' f k).map d := by
  induction j with
  | zero => simpa using fill_of_zero k f
  | succ j ih =>
      rw [show j + 1 + k = (j + k) + 1 by omega, fill, if_pos ⟨rfl, by omega⟩,
        show ((j + 1 : ℕ) : ℤ) - 1 = j by omega, ih]
      rfl

/-- A negative deficit is never used up. -/
theorem fill_neg (k : ℕ) {deficit : ℤ} (h : deficit < 0) :
    fill d (some f) k f deficit = List.replicate k 0 := by
  induction k generalizing deficit with
  | zero => rfl
  | succ k ih => rw [fill, if_pos ⟨rfl, by omega⟩, ih (by omega)]; rfl

end ScanV6

end Unirc
