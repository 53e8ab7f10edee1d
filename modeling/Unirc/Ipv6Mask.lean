import Unirc.Ipv6Prefix

/-!
# IPv6 masks

The texts of IPv6 addresses, and what `parse_netmask` and `match_ipv6` make of one that is
followed by `/` and a length.
-/

namespace Unirc

/-- The four bytes of an IPv4 address with dots between them. -/
def quadText (quad : V4Addr) : Str :=
  [24, 16, 8, 0].flatMap (fun k => '.' :: Nat.toDigits 10 (quad.extractLsb' k 8).toNat) |>.tail

/-- Eight groups, or fewer with one `::`; an IPv4 address stands for two. -/
def GroupsFit (before : List Str) (after : Option (List Str)) (quad : Option V4Addr) : Prop :=
  match after with
  | none => before.length + 2 * quad.toList.length = 8
  | some after => before.length + after.length + 2 * quad.toList.length ≤ 7

/-- The text of an address: groups of hexadecimal digits before and behind `::`. The last two
groups may be written as an IPv4 address. -/
structure V6Text where
  before : List Str
  after : Option (List Str)
  quad : Option V4Addr
  before_isField : ∀ f ∈ before, f ≠ [] ∧ IsField f
  after_isField : ∀ f ∈ after.getD [], f ≠ [] ∧ IsField f
  count : GroupsFit before after quad

namespace V6Text

variable (t : V6Text)

def text : Str :=
  match t.after with
  | none => joinColons (t.before ++ t.quad.toList.map quadText)
  | some after => joinColons t.before ++ ':' :: ':' :: joinColons (after ++ t.quad.toList.map quadText)

def words : List ℕ :=
  let last := t.quad.toList.flatMap fun quad =>
    [(quad.extractLsb' 16 16).toNat, (quad.extractLsb' 0 16).toNat]
  match t.after with
  | none => t.before.map hexValue ++ last
  | some after =>
      t.before.map hexValue ++
        List.replicate (8 - t.before.length - after.length - last.length) 0 ++
        after.map hexValue ++ last

def addr : V6Addr := V6Addr.ofWords fun k => BitVec.ofNat 16 (t.words.getD k 0)

theorem bit_addr {j : ℕ} (hj : j < 128) : t.addr.bit j = wordBit t.words j := by
  rw [addr, V6Addr.bit_ofWords _ hj, getMsbD_ofNat_getD]

end V6Text

/-- A decimal length of a prefix. -/
structure MaskLength where
  digits : Str
  ne_nil : digits ≠ []
  isDigit : ∀ c ∈ digits, c.isDigit = true
  le : Decimal.readDigits digits ≤ 128

namespace MaskLength

def bits (n : MaskLength) : ℕ := Decimal.readDigits n.digits

variable (n : MaskLength)

theorem strtoul_digits : Decimal.strtoul n.digits = (n.bits, []) := by
  have hlt : Decimal.readDigits n.digits < 2 ^ 64 := by have := n.le; omega
  have hread := Decimal.strtoul_append n.ne_nil n.isDigit hlt Decimal.stops_nil
  rwa [List.append_nil] at hread

theorem toCInt_bits : toCInt n.bits = n.bits := by
  have hle : n.bits ≤ 128 := n.le
  have hmod : ((2 ^ 32 : ℕ) : ℤ) = 4294967296 := by simp
  unfold toCInt
  rw [Int.bmod_eq_of_le] <;> rw [hmod] <;> omega

end MaskLength

/-- The mask is read with its length and matches the addresses with its prefix. -/
def V6Text.MasksPrefix (t : V6Text) (n : MaskLength) : Prop :=
  ∃ mask, parseNetmask (t.text ++ '/' :: n.digits) = .ipv6 mask n.bits ∧
    ∀ a, matchIpv6 a mask n.bits = true ↔ SamePrefix n.bits a t.addr

/-- The end of the bits that the parser keeps and the matcher compares. -/
def comparedEnd (n : ℕ) : ℕ := if n % 8 = 0 then n else n + 1

/-- When a mask is exact. The groups behind `::` are read as the last ones of the words that
the prefix touches, or not at all when there is no room for them there. -/
def V6Text.Exact (t : V6Text) (n : ℕ) : Prop :=
  t.quad = none ∧
    match t.after with
    | none => 0 < n ∧ n ≤ 32 ∧ (n % 8 = 0 ∨ t.addr.bit n = false)
    | some after =>
        if 112 < n then n % 8 = 0 ∨ t.addr.bit n = false
        else if max 1 t.before.length + max 1 after.length ≤ (n + 15) / 16 then
          ∀ j, j + 16 * ((n + 15) / 16 - after.length) < comparedEnd n →
            wordBit (after.map hexValue) j = false
        else
          (∀ j, 16 * t.before.length ≤ j → j < n → t.addr.bit j = false) ∧
            (n % 8 = 0 ∨ 16 * t.before.length ≤ n ∨ t.addr.bit n = false)

namespace ScanV6

variable {ws : List ℕ} {finsert : Option ℕ} {f g : Str} {fs bs : List Str}

theorem layout_append (hbs : ∀ b ∈ bs, b ≠ []) (hlen : ws.length + bs.length ≤ 7) :
    layout ws finsert (bs ++ g :: fs) = layout (ws ++ bs.map hexValue) finsert (g :: fs) := by
  induction bs generalizing ws with
  | nil => simp
  | cons b bs ih =>
      rw [List.length_cons] at hlen
      have ih := @ih (ws ++ [hexValue b]) (fun b hb => hbs b (List.mem_cons_of_mem _ hb))
        (by rw [List.length_append, List.length_singleton]; omega)
      obtain ⟨c, cs, hcs⟩ := List.exists_cons_of_ne_nil (List.append_ne_nil_of_right_ne_nil bs
        (List.cons_ne_nil g fs))
      rw [hcs] at ih
      rw [List.cons_append, hcs, layout, if_neg (hbs b List.mem_cons_self), if_neg (by omega), ih,
        List.map_cons, List.append_assoc]
      rfl

/-- The words of the prefix before the unused bits are cleared. -/
def filled (ws : List ℕ) (finsert : Option ℕ) (bits : ℤ) : List ℕ :=
  fill (fun i => ws.getD i 0) finsert 8 0 ((bits + 15) / 16 - ws.length)

theorem d_align_within (ws : List ℕ) (finsert : Option ℕ) (f : Str) :
    (within ws finsert f).align.d = fun i => (ws ++ [hexValue f]).getD i 0 := by
  have hd := congrArg ScanV6.d (@align_within ws finsert f)
  simp only at hd
  rw [hd]
  show Function.update _ _ _ = _
  rw [hexValue_nil, Nat.zero_shiftLeft]
  refine Function.update_eq_self_iff.mpr ?_
  exact (List.getD_eq_default _ _ le_rfl).symm

/-- The second shift is behind the words. -/
theorem d_align_twice (ws : List ℕ) (finsert : Option ℕ) (g : Str) (nyble : ℕ) (place : Option ℕ)
    (bits : ℤ) : (align ⟨(within ws finsert g).align.d, ws.length + 1, nyble, place, bits⟩).d =
      fun i => (ws ++ [hexValue g]).getD i 0 := by
  show Function.update (within ws finsert g).align.d (ws.length + 1) _ = _
  rw [d_align_within]
  refine Function.update_eq_self_iff.mpr ?_
  have hzero : (ws ++ [hexValue g]).getD (ws.length + 1) 0 = 0 :=
    List.getD_eq_default _ _ (by simp)
  show (ws ++ [hexValue g]).getD (ws.length + 1) 0 >>> _ =
    (ws ++ [hexValue g]).getD (ws.length + 1) 0
  rw [hzero, Nat.zero_shiftRight]

theorem align_dp (s : ScanV6) : s.align.dp = s.dp := rfl

theorem align_finsert (s : ScanV6) : s.align.finsert = s.finsert := rfl

theorem align_bits (s : ScanV6) : s.align.bits = s.bits := rfl

theorem tryParseV6Netmask_layout {h : Str} {num : Str}
    (hfs : ∀ f' ∈ f :: h :: fs, IsField f')
    (hlayout : layout [hexValue f] none (h :: fs) = some (ws, finsert, g)) :
    tryParseV6Netmask (joinColons (f :: h :: fs) ++ '/' :: num) =
      if Accepts finsert (ws.length + 1) num then
        let value := toCInt (Decimal.strtoul num).1
        let bits := if finsert = none ∧ value = 0 then ((ws.length + 1 : ℕ) : ℤ) * 16 else value
        .ipv6 (V6Addr.ofWords fun k => maskWord bits k
          (BitVec.ofNat 16 ((filled (ws ++ [hexValue g]) finsert bits).getD k 0))) bits
      else .host := by
  have hscan : scan (joinColons (f :: h :: fs) ++ '/' :: num) none init =
      scan ('/' :: num) none (within ws finsert g) := by
    rw [scan_start hfs ends_slash, hlayout, Option.bind_some]
  rw [scan_slash] at hscan
  have hwords : (within ws finsert g).dp = ws.length := rfl
  have hplace : (within ws finsert g).finsert = finsert := rfl
  rw [hwords, hplace] at hscan
  unfold tryParseV6Netmask
  by_cases hacc : Accepts finsert (ws.length + 1) num
  · rw [if_pos hacc] at hscan ⊢
    rw [hscan]
    simp only [d_align_twice, align_dp, align_finsert, align_bits, hplace, Bool.false_eq_true,
      if_false, filled, List.length_append, List.length_singleton]
    rfl
  · rw [if_neg hacc] at hscan ⊢
    rw [hscan]

/-- Without a length all 128 bits are kept. -/
theorem tryParseV6Netmask_whole {h : Str} (hfs : ∀ f' ∈ f :: h :: fs, IsField f')
    (hlayout : layout [hexValue f] none (h :: fs) = some (ws, finsert, g)) :
    tryParseV6Netmask (joinColons (f :: h :: fs)) =
      .ipv6 (V6Addr.ofWords fun k => maskWord 128 k
        (BitVec.ofNat 16 ((filled (ws ++ [hexValue g]) finsert 128).getD k 0))) 128 := by
  have hscan : scan (joinColons (f :: h :: fs)) none init = some (within ws finsert g, true) := by
    have hstart := @scan_start [] f h fs hfs ends_nil
    rwa [List.append_nil, hlayout, Option.bind_some] at hstart
  have hbits : (within ws finsert g).bits = 128 := rfl
  have hplace : (within ws finsert g).finsert = finsert := rfl
  have hdp : (within ws finsert g).dp = ws.length := rfl
  unfold tryParseV6Netmask
  rw [hscan]
  simp only [align_dp, align_finsert, align_bits, hbits, hplace, hdp, d_align_within, if_true,
    filled, List.length_append, List.length_singleton]
  rw [if_neg (by simp)]
  rfl

theorem getD_map_range' (d : ℕ → ℕ) (s k i : ℕ) :
    ((List.range' s k).map d).getD i 0 = if i < k then d (s + i) else 0 := by
  split
  · rename_i hi
    rw [List.getD_eq_getElem _ _ (by simpa using hi), List.getElem_map, List.getElem_range',
      Nat.one_mul]
  · rename_i hi
    exact List.getD_eq_default _ _ (by simpa using hi)

theorem getD_replicate_zero (k i : ℕ) : (List.replicate k 0).getD i 0 = 0 := by
  rcases Nat.lt_or_ge i k with h | h
  · rw [List.getD_eq_getElem _ _ (by simpa using h), List.getElem_replicate]
  · exact List.getD_eq_default _ _ (by simpa using h)

theorem getD_append (l l' : List ℕ) (i : ℕ) :
    (l ++ l').getD i 0 = if i < l.length then l.getD i 0 else l'.getD (i - l.length) 0 := by
  split
  · rename_i hi
    exact List.getD_append _ _ _ _ hi
  · rename_i hi
    exact List.getD_append_right _ _ _ _ (by omega)

variable {bits : ℤ} {i place : ℕ}

theorem getD_filled_none (hi : i < 8) : (filled ws none bits).getD i 0 = ws.getD i 0 := by
  rw [filled, fill_none, getD_map_range', if_pos hi, Nat.zero_add]

/-- The words behind `::` end with the last word that the prefix touches. -/
theorem getD_filled {gap : ℕ} (hgap : (bits + 15) / 16 - ws.length = gap) (hplace : place + gap ≤ 8)
    (hi : i < 8) : (filled ws (some place) bits).getD i 0 =
      if i < place then ws.getD i 0 else if i < place + gap then 0 else ws.getD (i - gap) 0 := by
  have hsplit : (8 : ℕ) = place + (gap + (8 - place - gap)) := by omega
  rw [filled, hgap, hsplit, fill_before (by omega), Nat.zero_add, fill_zeros, getD_append,
    getD_map_range', List.length_map, List.length_range', Nat.zero_add]
  by_cases hbefore : i < place
  · rw [if_pos hbefore, if_pos hbefore, if_pos hbefore]
  · rw [if_neg hbefore, if_neg hbefore, getD_append, List.length_replicate, getD_replicate_zero]
    by_cases hgapped : i < place + gap
    · rw [if_pos (by omega), if_pos hgapped]
    · rw [if_neg (by omega), if_neg hgapped, getD_map_range', if_pos (by omega)]
      congr 1
      omega

theorem getD_filled_neg (hgap : (bits + 15) / 16 < ws.length) (hplace : place ≤ 8) :
    (filled ws (some place) bits).getD i 0 = if i < place then ws.getD i 0 else 0 := by
  have hsplit : (8 : ℕ) = place + (8 - place) := by omega
  rw [filled, hsplit, fill_before (by omega), Nat.zero_add, fill_neg _ (by omega), getD_append,
    getD_map_range', List.length_map, List.length_range', Nat.zero_add, getD_replicate_zero]
  by_cases hbefore : i < place
  · rw [if_pos hbefore, if_pos hbefore]
  · rw [if_neg hbefore, if_neg hbefore]

end ScanV6

theorem wordBit_congr {l l' : List ℕ} {j k : ℕ} (h : l.getD (j / 16) 0 = l'.getD (k / 16) 0)
    (hmod : j % 16 = k % 16) : wordBit l j = wordBit l' k := by
  rw [wordBit, wordBit, h, hmod]

theorem wordBit_of_zero {l : List ℕ} {j : ℕ} (h : l.getD (j / 16) 0 = 0) : wordBit l j = false := by
  rw [wordBit, h, Nat.zero_testBit]

theorem joinColons_append {bs : List Str} (hbs : bs ≠ []) (g : Str) (fs : List Str) :
    joinColons (bs ++ g :: fs) = joinColons bs ++ ':' :: joinColons (g :: fs) := by
  induction bs with
  | nil => exact absurd rfl hbs
  | cons b bs ih =>
      cases bs with
      | nil => rfl
      | cons b' bs =>
          have ih := ih (List.cons_ne_nil _ _)
          rw [List.cons_append] at ih
          rw [List.cons_append, List.cons_append, joinColons, ih, joinColons, List.append_assoc]
          rfl

/-- The fields on one side of `::`. -/
def fieldsOr (gs : List Str) : List Str := if gs = [] then [[]] else gs

theorem joinColons_fieldsOr (gs : List Str) : joinColons (fieldsOr gs) = joinColons gs := by
  unfold fieldsOr
  split
  · rename_i h
    rw [h]
    rfl
  · rfl

theorem length_fieldsOr (gs : List Str) : (fieldsOr gs).length = max 1 gs.length := by
  unfold fieldsOr
  split
  · rename_i h
    rw [h]
    rfl
  · rename_i h
    have := List.length_pos_iff.mpr h
    omega

theorem fieldsOr_ne_nil (gs : List Str) : fieldsOr gs ≠ [] := by
  unfold fieldsOr
  split
  · exact List.cons_ne_nil _ _
  · assumption

theorem isField_of_mem_fieldsOr {gs : List Str} (h : ∀ f ∈ gs, f ≠ [] ∧ IsField f) {f : Str}
    (hf : f ∈ fieldsOr gs) : IsField f := by
  unfold fieldsOr at hf
  split at hf
  · rw [List.mem_singleton.mp hf]
    exact isField_nil
  · exact (h f hf).2

theorem ne_nil_of_mem_tail_fieldsOr {gs : List Str} (h : ∀ f ∈ gs, f ≠ [] ∧ IsField f) {b : Str}
    {bs : List Str} (hgs : fieldsOr gs = b :: bs) : ∀ f ∈ bs, f ≠ [] := by
  intro f hf
  unfold fieldsOr at hgs
  split at hgs
  · rw [← (List.cons.inj hgs).2] at hf
    cases hf
  · exact (h f (hgs ▸ List.mem_cons_of_mem b hf)).1

theorem ne_nil_of_mem_dropLast_fieldsOr {gs : List Str} (h : ∀ f ∈ gs, f ≠ [] ∧ IsField f) {a : Str}
    {as : List Str} (hgs : fieldsOr gs = as ++ [a]) : ∀ f ∈ as, f ≠ [] := by
  intro f hf
  unfold fieldsOr at hgs
  split at hgs
  · have hlen := congrArg List.length hgs
    have hpos := List.length_pos_of_mem hf
    rw [List.length_append, List.length_singleton, List.length_singleton] at hlen
    omega
  · exact (h f (hgs ▸ List.mem_append_left [a] hf)).1

theorem joinColons_double (before after : List Str) :
    joinColons (fieldsOr before ++ [] :: fieldsOr after) =
      joinColons before ++ ':' :: ':' :: joinColons after := by
  obtain ⟨a, as, ha⟩ := List.exists_cons_of_ne_nil (fieldsOr_ne_nil after)
  rw [joinColons_append (fieldsOr_ne_nil before), joinColons_fieldsOr, ← joinColons_fieldsOr after, ha]
  rfl

theorem getD_map_fieldsOr (gs : List Str) (i : ℕ) :
    ((fieldsOr gs).map hexValue).getD i 0 = (gs.map hexValue).getD i 0 := by
  unfold fieldsOr
  split
  · rename_i h
    rw [h]
    cases i <;> rfl
  · rfl

namespace V6Text

variable {t : V6Text} {n : MaskLength}

theorem masksPrefix_of_parse {words : List ℕ}
    (hparse : parseNetmask (t.text ++ '/' :: n.digits) =
      .ipv6 (V6Addr.ofWords fun k => ScanV6.maskWord n.bits k
        (BitVec.ofNat 16 (words.getD k 0))) n.bits) :
    t.MasksPrefix n ↔ (∀ j < n.bits, wordBit t.words j = wordBit words j) ∧
      (n.bits % 8 = 0 ∨ wordBit words n.bits = false) := by
  have hle : n.bits ≤ 128 := n.le
  have hmask : ∀ j < 128, (V6Addr.ofWords fun k => ScanV6.maskWord n.bits k
      (BitVec.ofNat 16 (words.getD k 0))).bit j =
      (wordBit words j && decide (Kept n.bits j)) := fun j hj => by
    rw [V6Addr.bit_ofWords _ hj, getMsbD_maskWord, getMsbD_ofNat_getD]
  have hprefix : SamePrefix n.bits t.addr (V6Addr.ofWords fun k => ScanV6.maskWord n.bits k
      (BitVec.ofNat 16 (words.getD k 0))) ↔
      ∀ j < n.bits, wordBit t.words j = wordBit words j := by
    refine forall_congr' fun j => forall_congr' fun hj => ?_
    have hkept : Kept n.bits j := Or.inl hj
    rw [bit_addr t (by omega), hmask j (by omega), decide_eq_true hkept, Bool.and_true]
  rw [← hprefix, ← forall_matchIpv6_iff hle hmask]
  constructor
  · rintro ⟨mask, hmask', h⟩
    obtain ⟨rfl, -⟩ := Netmask.ipv6.inj (hparse.symm.trans hmask')
    exact h
  · exact fun h => ⟨_, hparse, h⟩

theorem parseNetmask_fields {f h : Str} {fs : List Str} {ws : List ℕ} {finsert : Option ℕ} {g : Str}
    (hfs : ∀ f' ∈ f :: h :: fs, IsField f')
    (hlayout : ScanV6.layout [hexValue f] none (h :: fs) = some (ws, finsert, g)) :
    parseNetmask (joinColons (f :: h :: fs) ++ '/' :: n.digits) =
      if n.bits ≤ (ws.length + 1) * 4 ∨ finsert.isSome then
        let bits := if finsert = none ∧ n.bits = 0 then (ws.length + 1) * 16 else n.bits
        .ipv6 (V6Addr.ofWords fun k => ScanV6.maskWord bits k
          (BitVec.ofNat 16 ((ScanV6.filled (ws ++ [hexValue g]) finsert bits).getD k 0))) bits
      else .host := by
  have hle : n.bits ≤ 128 := n.le
  have hcolon : ':' ∈ joinColons (f :: h :: fs) ++ '/' :: n.digits := by simp [joinColons]
  have hacc : ScanV6.Accepts finsert (ws.length + 1) n.digits ↔
      n.bits ≤ (ws.length + 1) * 4 ∨ finsert.isSome = true := by
    unfold ScanV6.Accepts
    rw [n.strtoul_digits, n.toCInt_bits]
    constructor
    · rintro ⟨-, -, h | h⟩
      · exact Or.inl (by omega)
      · exact Or.inr h.1
    · rintro (h | h)
      · exact ⟨by omega, rfl, Or.inl (by omega)⟩
      · exact ⟨by omega, rfl, Or.inr ⟨h, by omega⟩⟩
  rw [parseNetmask, if_pos hcolon, ScanV6.tryParseV6Netmask_layout hfs hlayout]
  simp only [hacc, n.strtoul_digits, n.toCInt_bits, Int.natCast_eq_zero]
  split
  · congr 1 <;> split <;> simp
  · rfl

/-- The fields of a text without `::`. -/
theorem layout_full (hquad : t.quad = none) (hafter : t.after = none) :
    ∃ f h fs ws g, t.text = joinColons (f :: h :: fs) ∧ (∀ f' ∈ f :: h :: fs, IsField f') ∧
      ScanV6.layout [hexValue f] none (h :: fs) = some (ws, none, g) ∧
      ws ++ [hexValue g] = t.words ∧ ws.length = 7 := by
  have hcount : t.before.length = 8 := by simpa [GroupsFit, hafter, hquad] using t.count
  have hwords : t.words = t.before.map hexValue := by
    simp [words, hafter, hquad]
  have htext : t.text = joinColons t.before := by
    simp [text, hafter, hquad]
  obtain ⟨f, bs, g, hfields⟩ : ∃ f bs g, t.before = f :: (bs ++ [g]) := by
    obtain ⟨f, rest, hf⟩ := List.exists_cons_of_ne_nil (l := t.before) fun h => by simp [h] at hcount
    have hrest : rest ≠ [] := fun h => by simp [hf, h] at hcount
    exact ⟨f, rest.dropLast, rest.getLast hrest, by rw [hf, List.dropLast_append_getLast]⟩
  have hbs : bs.length = 6 := by
    rw [hfields] at hcount
    simpa using hcount
  have hlayout : ScanV6.layout [hexValue f] none (bs ++ [g]) =
      some ([hexValue f] ++ bs.map hexValue, none, g) := by
    rw [ScanV6.layout_append (fun b hb => ?_) (by simp [hbs])]
    · rfl
    · exact (t.before_isField b (by rw [hfields]; simp [hb])).1
  have hall : [hexValue f] ++ bs.map hexValue ++ [hexValue g] = t.words := by
    rw [hwords, hfields]
    simp
  obtain ⟨h, fs, hcons⟩ := List.exists_cons_of_ne_nil (List.append_ne_nil_of_right_ne_nil bs
    (List.cons_ne_nil g []))
  rw [hcons] at hlayout hfields
  exact ⟨f, h, fs, _, g, by rw [htext, hfields],
    fun f' hf' => (t.before_isField f' (hfields ▸ hf')).2, hlayout, hall, by simp [hbs]⟩

theorem masksPrefix_full (hquad : t.quad = none) (hafter : t.after = none) :
    t.MasksPrefix n ↔ 0 < n.bits ∧ n.bits ≤ 32 ∧ (n.bits % 8 = 0 ∨ t.addr.bit n.bits = false) := by
  have hle : n.bits ≤ 128 := n.le
  obtain ⟨f, h, fs, ws, g, htext, hfs, hlayout, hall, hlen⟩ := layout_full hquad hafter
  have hparse := parseNetmask_fields (n := n) hfs hlayout
  rw [← htext] at hparse
  simp only [hall, hlen, Option.isSome_none, Bool.false_eq_true, or_false, true_and] at hparse
  by_cases hlong : n.bits ≤ 32
  · rw [if_pos (by omega)] at hparse
    by_cases hzero : n.bits = 0
    · rw [if_pos hzero] at hparse
      refine iff_of_false ?_ fun h => by omega
      rintro ⟨mask, hmask, -⟩
      have hbits := (Netmask.ipv6.inj (hparse.symm.trans hmask)).2
      omega
    · rw [if_neg hzero] at hparse
      have hbit : ∀ j < 128, wordBit t.words j = wordBit (ScanV6.filled t.words none n.bits) j :=
        fun j hj => wordBit_congr (ScanV6.getD_filled_none (by omega)).symm rfl
      rw [masksPrefix_of_parse hparse, bit_addr t (by omega), hbit n.bits (by omega)]
      constructor
      · exact fun h => ⟨by omega, hlong, h.2⟩
      · exact fun h => ⟨fun j hj => hbit j (by omega), h.2.2⟩
  · rw [if_neg (by omega)] at hparse
    refine iff_of_false ?_ fun h => hlong h.2.1
    rintro ⟨mask, hmask, -⟩
    rw [hparse] at hmask
    cases hmask

/-- The words that are stored for a text with `::`. -/
def stored (t : V6Text) (after : List Str) : List ℕ :=
  (fieldsOr t.before).map hexValue ++ (fieldsOr after).map hexValue

/-- The fields of a text with `::`, as the scan meets them. -/
theorem layout_compressed {after : List Str} (hquad : t.quad = none)
    (hafter : t.after = some after) : ∃ f h fs ws g, t.text = joinColons (f :: h :: fs) ∧
      (∀ f' ∈ f :: h :: fs, IsField f') ∧
      ScanV6.layout [hexValue f] none (h :: fs) = some (ws, some (max 1 t.before.length), g) ∧
      ws ++ [hexValue g] = t.stored after := by
  have hcount : t.before.length + after.length ≤ 7 := by
    simpa [GroupsFit, hafter, hquad] using t.count
  have hafterField : ∀ f ∈ after, f ≠ [] ∧ IsField f := by
    simpa [hafter] using t.after_isField
  obtain ⟨b, bs, hb⟩ := List.exists_cons_of_ne_nil (fieldsOr_ne_nil t.before)
  obtain ⟨a, as, ha⟩ : ∃ a as, fieldsOr after = as ++ [a] :=
    ⟨(fieldsOr after).getLast (fieldsOr_ne_nil after), (fieldsOr after).dropLast,
      (List.dropLast_append_getLast _).symm⟩
  have hlenb : bs.length + 1 = max 1 t.before.length := by
    rw [← length_fieldsOr, hb, List.length_cons]
  have hlena : as.length + 1 = max 1 after.length := by
    rw [← length_fieldsOr, ha, List.length_append, List.length_singleton]
  have htext : t.text = joinColons (b :: (bs ++ [] :: (as ++ [a]))) := by
    rw [← ha, ← List.cons_append, ← hb, joinColons_double]
    simp [text, hafter, hquad]
  have hlayout : ScanV6.layout [hexValue b] none (bs ++ [] :: (as ++ [a])) =
      some ([hexValue b] ++ bs.map hexValue ++ as.map hexValue, some (max 1 t.before.length), a) := by
    obtain ⟨c, cs, hc⟩ := List.exists_cons_of_ne_nil (List.append_ne_nil_of_right_ne_nil as
      (List.cons_ne_nil a []))
    have hplace : ([hexValue b] ++ bs.map hexValue).length = max 1 t.before.length := by
      rw [List.length_append, List.length_map, List.length_singleton]
      omega
    rw [ScanV6.layout_append (ne_nil_of_mem_tail_fieldsOr t.before_isField hb)
      (by rw [List.length_singleton]; omega), hc, ScanV6.layout, if_pos rfl, if_neg (by simp), ← hc,
      ScanV6.layout_append (ne_nil_of_mem_dropLast_fieldsOr hafterField ha) (by omega), hplace]
    rfl
  obtain ⟨h, fs, hcons⟩ := List.exists_cons_of_ne_nil (List.append_ne_nil_of_right_ne_nil bs
    (List.cons_ne_nil [] (as ++ [a])))
  have hfs : ∀ f ∈ b :: h :: fs, IsField f := by
    intro f hf
    rw [← hcons, ← ha, ← List.cons_append, ← hb, List.mem_append, List.mem_cons] at hf
    rcases hf with hf | rfl | hf
    · exact isField_of_mem_fieldsOr t.before_isField hf
    · exact isField_nil
    · exact isField_of_mem_fieldsOr hafterField hf
  have hstored : [hexValue b] ++ bs.map hexValue ++ as.map hexValue ++ [hexValue a] =
      t.stored after := by
    rw [stored, hb, ha]
    simp
  rw [hcons] at htext hlayout
  exact ⟨b, h, fs, _, a, htext, hfs, hlayout, hstored⟩

theorem parseNetmask_compressed {after : List Str} (hquad : t.quad = none)
    (hafter : t.after = some after) : parseNetmask (t.text ++ '/' :: n.digits) =
      .ipv6 (V6Addr.ofWords fun k => ScanV6.maskWord n.bits k (BitVec.ofNat 16
        ((ScanV6.filled (t.stored after) (some (max 1 t.before.length)) n.bits).getD k 0))) n.bits := by
  obtain ⟨f, h, fs, ws, g, htext, hfs, hlayout, hstored⟩ := layout_compressed hquad hafter
  rw [htext, parseNetmask_fields hfs hlayout, if_pos (Or.inr Option.isSome_some), hstored]
  simp only [reduceCtorEq, false_and, if_false]

section Compressed

variable {after : List Str}

theorem getD_words (hquad : t.quad = none) (hafter : t.after = some after) (i : ℕ) :
    t.words.getD i 0 =
      if i < t.before.length then (t.before.map hexValue).getD i 0
      else if i < 8 - after.length then 0 else (after.map hexValue).getD (i - (8 - after.length)) 0 := by
  have hcount : t.before.length + after.length ≤ 7 := by
    simpa [GroupsFit, hafter, hquad] using t.count
  have hwords : t.words = t.before.map hexValue ++
      (List.replicate (8 - t.before.length - after.length) 0 ++ after.map hexValue) := by
    simp [words, hafter, hquad]
  rw [hwords, ScanV6.getD_append, ScanV6.getD_append, List.length_map, List.length_replicate,
    ScanV6.getD_replicate_zero]
  split
  · rfl
  · split
    · rw [if_pos (by omega)]
    · rw [if_neg (by omega)]
      congr 1
      omega

theorem getD_stored (i : ℕ) : (t.stored after).getD i 0 =
    if i < max 1 t.before.length then (t.before.map hexValue).getD i 0
    else (after.map hexValue).getD (i - max 1 t.before.length) 0 := by
  rw [stored, ScanV6.getD_append, List.length_map, length_fieldsOr, getD_map_fieldsOr,
    getD_map_fieldsOr]

theorem getD_map_of_le {gs : List Str} {i : ℕ} (h : gs.length ≤ i) :
    (gs.map hexValue).getD i 0 = 0 := List.getD_eq_default _ _ (by simpa using h)

/-- The words that the mask of `n` bits is cut from. -/
def cut (t : V6Text) (after : List Str) (n : ℕ) : List ℕ :=
  ScanV6.filled (t.stored after) (some (max 1 t.before.length)) n

theorem length_stored : (t.stored after).length = max 1 t.before.length + max 1 after.length := by
  rw [stored, List.length_append, List.length_map, List.length_map, length_fieldsOr, length_fieldsOr]

/-- There is room for the groups behind `::`: they end with word `w`. -/
theorem getD_cut_of_fits {n w i : ℕ} (hcount : t.before.length + after.length ≤ 7)
    (hw : w = (n + 15) / 16) (hfits : max 1 t.before.length + max 1 after.length ≤ w) (hw8 : w ≤ 8)
    (hi : i < 8) : (t.cut after n).getD i 0 =
      if i < t.before.length then (t.before.map hexValue).getD i 0
      else if i < w - after.length then 0 else (after.map hexValue).getD (i - (w - after.length)) 0 := by
  have hlen := @length_stored t after
  have hgap : ((n : ℤ) + 15) / 16 - (t.stored after).length =
      ((w - (max 1 t.before.length + max 1 after.length) : ℕ) : ℤ) := by omega
  rw [cut, ScanV6.getD_filled hgap (by omega) hi, getD_stored, getD_stored]
  by_cases hbefore : i < max 1 t.before.length
  · rw [if_pos hbefore, if_pos hbefore]
    split
    · rfl
    · rw [if_pos (by omega), getD_map_of_le (by omega)]
  · have hgroups : ¬ i < t.before.length := by omega
    rw [if_neg hbefore, if_neg hgroups]
    by_cases hgapped : i < w - max 1 after.length
    · have hgap' : i < max 1 t.before.length +
          (w - (max 1 t.before.length + max 1 after.length)) := by omega
      rw [if_pos hgap', if_pos (by omega)]
    · have hgap' : ¬ i < max 1 t.before.length +
          (w - (max 1 t.before.length + max 1 after.length)) := by omega
      have hbehind : ¬ i - (w - (max 1 t.before.length + max 1 after.length)) <
          max 1 t.before.length := by omega
      rw [if_neg hgap', if_neg hbehind]
      by_cases hempty : after.length = 0
      · rw [getD_map_of_le (by omega)]
        split
        · rfl
        · rw [getD_map_of_le (by omega)]
      · rw [if_neg (by omega)]
        congr 1
        omega

theorem getD_cut_of_not_fits {n i : ℕ} (hcount : t.before.length + after.length ≤ 7)
    (hfits : (n + 15) / 16 < max 1 t.before.length + max 1 after.length) :
    (t.cut after n).getD i 0 =
      if i < t.before.length then (t.before.map hexValue).getD i 0 else 0 := by
  have hlen := @length_stored t after
  rw [cut, ScanV6.getD_filled_neg (by omega) (by omega), getD_stored]
  by_cases hbefore : i < max 1 t.before.length
  · rw [if_pos hbefore, if_pos hbefore]
    split
    · rfl
    · exact getD_map_of_le (by omega)
  · rw [if_neg hbefore, if_neg (by omega)]

theorem masksPrefix_cut {n : MaskLength} (hquad : t.quad = none) (hafter : t.after = some after) :
    t.MasksPrefix n ↔ (∀ j < n.bits, wordBit t.words j = wordBit (t.cut after n.bits) j) ∧
      (n.bits % 8 = 0 ∨ wordBit (t.cut after n.bits) n.bits = false) :=
  masksPrefix_of_parse (parseNetmask_compressed hquad hafter)

/-- All words of the address are in the mask. -/
theorem wordBit_cut_of_long {n j : ℕ} (hquad : t.quad = none) (hafter : t.after = some after)
    (hn : 112 < n) (hn128 : n ≤ 128) (hj : j < 128) :
    wordBit t.words j = wordBit (t.cut after n) j := by
  have hcount : t.before.length + after.length ≤ 7 := by
    simpa [GroupsFit, hafter, hquad] using t.count
  refine wordBit_congr ?_ rfl
  rw [getD_words hquad hafter, getD_cut_of_fits (w := 8) hcount (by omega) (by omega) le_rfl
    (by omega)]

theorem wordBit_words_behind {j : ℕ} (hquad : t.quad = none) (hafter : t.after = some after)
    (hj : t.before.length ≤ j / 16) : wordBit t.words j =
      if j < 16 * (8 - after.length) then false
      else wordBit (after.map hexValue) (j - 16 * (8 - after.length)) := by
  split
  · refine wordBit_of_zero ?_
    rw [getD_words hquad hafter, if_neg (by omega), if_pos (by omega)]
  · refine wordBit_congr ?_ (by omega)
    rw [getD_words hquad hafter, if_neg (by omega), if_neg (by omega)]
    congr 1
    omega

/-- Where the groups behind `::` are moved, they have to be zero. -/
theorem exact_of_fits {n : ℕ} (hquad : t.quad = none) (hafter : t.after = some after)
    (hn : n ≤ 112) (hfits : max 1 t.before.length + max 1 after.length ≤ (n + 15) / 16) :
    ((∀ j < n, wordBit t.words j = wordBit (t.cut after n) j) ∧
      (n % 8 = 0 ∨ wordBit (t.cut after n) n = false)) ↔
      ∀ j, j + 16 * ((n + 15) / 16 - after.length) < comparedEnd n →
        wordBit (after.map hexValue) j = false := by
  have hcount : t.before.length + after.length ≤ 7 := by
    simpa [GroupsFit, hafter, hquad] using t.count
  obtain ⟨w, hw⟩ : ∃ w, w = (n + 15) / 16 := ⟨_, rfl⟩
  rw [← hw] at hfits ⊢
  have hend : n ≤ comparedEnd n ∧ comparedEnd n ≤ n + 1 ∧ (comparedEnd n = n ↔ n % 8 = 0) := by
    unfold comparedEnd
    split <;> omega
  have hmoved : ∀ j, t.before.length ≤ j / 16 → j < 128 → wordBit (t.cut after n) j =
      if j < 16 * (w - after.length) then false
      else wordBit (after.map hexValue) (j - 16 * (w - after.length)) := by
    intro j hbefore hj
    have hword := getD_cut_of_fits (i := j / 16) hcount hw hfits (by omega) (by omega)
    rw [if_neg (by omega)] at hword
    split
    · rw [if_pos (by omega)] at hword
      exact wordBit_of_zero hword
    · rw [if_neg (by omega)] at hword
      refine wordBit_congr (hword.trans ?_) (by omega)
      congr 1
      omega
  constructor
  · rintro ⟨hsame, hbehind⟩ j
    induction j using Nat.strongRecOn with
    | ind j ih =>
        intro hj
        have hplace := hmoved (j + 16 * (w - after.length)) (by omega) (by omega)
        rw [if_neg (by omega), Nat.add_sub_cancel] at hplace
        rw [← hplace]
        by_cases hlt : j + 16 * (w - after.length) < n
        · rw [← hsame _ hlt, wordBit_words_behind hquad hafter (by omega)]
          split
          · rfl
          · exact ih _ (by omega) (by omega)
        · obtain heq : j + 16 * (w - after.length) = n := by omega
          rw [heq]
          exact hbehind.resolve_left (by omega)
  · intro hzero
    refine ⟨fun j hj => ?_, ?_⟩
    · by_cases hbefore : j / 16 < t.before.length
      · refine wordBit_congr ?_ rfl
        rw [getD_words hquad hafter, getD_cut_of_fits hcount hw hfits (by omega) (by omega),
          if_pos hbefore, if_pos hbefore]
      · rw [wordBit_words_behind hquad hafter (by omega), hmoved j (by omega) (by omega)]
        split
        · split
          · rfl
          · exact (hzero _ (by omega)).symm
        · rw [if_neg (by omega), hzero _ (by omega), hzero _ (by omega)]
    · by_cases hbyte : n % 8 = 0
      · exact Or.inl hbyte
      · rw [hmoved n (by omega) (by omega)]
        split
        · exact Or.inr rfl
        · exact Or.inr (hzero _ (by omega))

/-- Without room the groups behind `::` are read as zeros. -/
theorem exact_of_not_fits {n : ℕ} (hquad : t.quad = none) (hafter : t.after = some after)
    (hn : n ≤ 112) (hfits : ¬ max 1 t.before.length + max 1 after.length ≤ (n + 15) / 16) :
    ((∀ j < n, wordBit t.words j = wordBit (t.cut after n) j) ∧
      (n % 8 = 0 ∨ wordBit (t.cut after n) n = false)) ↔
      (∀ j, 16 * t.before.length ≤ j → j < n → t.addr.bit j = false) ∧
        (n % 8 = 0 ∨ 16 * t.before.length ≤ n ∨ t.addr.bit n = false) := by
  have hcount : t.before.length + after.length ≤ 7 := by
    simpa [GroupsFit, hafter, hquad] using t.count
  have hbefore : ∀ j, j / 16 < t.before.length →
      wordBit t.words j = wordBit (t.cut after n) j := fun j hj => by
    refine wordBit_congr ?_ rfl
    rw [getD_words hquad hafter, getD_cut_of_not_fits hcount (by omega), if_pos hj, if_pos hj]
  have hbehind : ∀ j, t.before.length ≤ j / 16 → wordBit (t.cut after n) j = false :=
    fun j hj => wordBit_of_zero (by rw [getD_cut_of_not_fits hcount (by omega), if_neg (by omega)])
  rw [bit_addr t (show n < 128 by omega)]
  refine and_congr ?_ ?_
  · constructor
    · intro hsame j hj hlt
      rw [bit_addr t (by omega), hsame j hlt, hbehind j (by omega)]
    · intro hzero j hj
      by_cases hgroup : j / 16 < t.before.length
      · exact hbefore j hgroup
      · rw [hbehind j (by omega), ← bit_addr t (by omega), hzero j (by omega) hj]
  · refine or_congr_right ?_
    by_cases hgroup : n / 16 < t.before.length
    · rw [← hbefore n hgroup]
      exact ⟨Or.inr, fun h => h.resolve_left (by omega)⟩
    · exact iff_of_true (hbehind n (by omega)) (Or.inl (by omega))

end Compressed

end V6Text

theorem mem_joinColons {c : Char} {fs : List Str} :
    c ∈ joinColons fs → c = ':' ∨ ∃ f ∈ fs, c ∈ f := by
  induction fs with
  | nil => simp [joinColons]
  | cons f fs ih =>
      intro hc
      cases fs with
      | nil => exact Or.inr ⟨f, by simp, hc⟩
      | cons g fs =>
          rw [joinColons, List.mem_append, List.mem_cons] at hc
          rcases hc with hc | hc | hc
          · exact Or.inr ⟨f, by simp, hc⟩
          · exact Or.inl hc
          · rcases ih hc with hcolon | ⟨f', hf', hc⟩
            · exact Or.inl hcolon
            · exact Or.inr ⟨f', List.mem_cons_of_mem f hf', hc⟩

theorem mem_joinColons_of_mem {c : Char} {f : Str} {fs : List Str} (hf : f ∈ fs) (hc : c ∈ f) :
    c ∈ joinColons fs := by
  induction fs with
  | nil => cases hf
  | cons g fs ih =>
      cases fs with
      | nil =>
          rw [List.mem_singleton] at hf
          exact hf ▸ hc
      | cons h fs =>
          rw [joinColons, List.mem_append, List.mem_cons]
          rcases List.mem_cons.mp hf with rfl | hf
          · exact Or.inl hc
          · exact Or.inr (Or.inr (ih hf))

/-- A dot before the `/` is not part of an address. -/
theorem ScanV6.scan_dot {body num : Str} (hdot : '.' ∈ body) (hslash : '/' ∉ body)
    (prev : Option Char) (s : ScanV6) : scan (body ++ '/' :: num) prev s = none := by
  induction body generalizing prev s with
  | nil => cases hdot
  | cons c body ih =>
      rw [List.cons_append]
      by_cases hc : c = '.'
      · rw [hc, scan]
        simp [show hexDigit? '.' = none by decide]
      · have ih := ih ((List.mem_cons.mp hdot).resolve_left fun h => hc h.symm)
          fun h => hslash (List.mem_cons_of_mem c h)
        have hne : c ≠ '/' := fun h => hslash (h ▸ List.mem_cons_self)
        rw [scan]
        split
        · split
          · rfl
          · exact ih _ _
        · split
          · split
            · split
              · rfl
              · exact ih _ _
            · split
              · rfl
              · exact ih _ _
          · split
            · rw [if_pos (Or.inr (Or.inl (by simp)))]
            · rfl

theorem quadText_chars (quad : V4Addr) :
    '.' ∈ quadText quad ∧ ∀ c ∈ quadText quad, c = '.' ∨ c.isDigit = true := by
  have hchars : ∀ k, ∀ c ∈ '.' :: Nat.toDigits 10 (quad.extractLsb' k 8).toNat,
      c = '.' ∨ c.isDigit = true := fun k c hc =>
    (List.mem_cons.mp hc).imp_right fun hc => Nat.isDigit_of_mem_toDigits (by decide) (by decide) hc
  refine ⟨?_, fun c hc => ?_⟩
  · simp [quadText]
  · obtain ⟨k, -, hc⟩ := List.mem_flatMap.mp (List.mem_of_mem_tail hc)
    exact hchars k c hc

namespace V6Text

variable {t : V6Text} {n : MaskLength}

theorem not_masksPrefix_of_quad {quad : V4Addr} (hquad : t.quad = some quad) :
    ¬ t.MasksPrefix n := by
  have hfield : ∀ c : Char, isHex c = true → c ≠ '/' := by
    rintro c hc rfl
    exact absurd hc (by decide)
  have hquadText : ∀ c ∈ quadText quad, c ≠ '/' := by
    rintro c hc rfl
    exact absurd ((quadText_chars quad).2 '/' hc) (by decide)
  have hpieces : ∀ gs : List Str, (∀ f ∈ gs, f ≠ [] ∧ IsField f) →
      '/' ∉ joinColons (gs ++ [quadText quad]) := by
    intro gs hgs hmem
    rcases mem_joinColons hmem with h | ⟨f, hf, hc⟩
    · exact absurd h (by decide)
    · rcases List.mem_append.mp hf with hf | hf
      · exact hfield _ ((hgs f hf).2.2 _ hc) rfl
      · rw [List.mem_singleton.mp hf] at hc
        exact hquadText _ hc rfl
  have hdot : ∀ gs : List Str, '.' ∈ joinColons (gs ++ [quadText quad]) := fun gs =>
    mem_joinColons_of_mem (List.mem_append_right gs (by simp)) (quadText_chars quad).1
  have hbefore : '/' ∉ joinColons t.before := fun hmem => by
    rcases mem_joinColons hmem with h | ⟨f, hf, hc⟩
    · exact absurd h (by decide)
    · exact hfield _ ((t.before_isField f hf).2.2 _ hc) rfl
  have htext : '.' ∈ t.text ∧ '/' ∉ t.text := by
    have hafterField := t.after_isField
    unfold text
    rw [hquad]
    split
    · exact ⟨hdot _, hpieces _ t.before_isField⟩
    · rename_i after hafter
      rw [hafter] at hafterField
      refine ⟨List.mem_append_right _ (List.mem_cons_of_mem _ (List.mem_cons_of_mem _ (hdot _))), ?_⟩
      simp only [List.mem_append, List.mem_cons, not_or]
      exact ⟨hbefore, by decide, by decide, hpieces _ hafterField⟩
  rintro ⟨mask, hmask, -⟩
  unfold parseNetmask at hmask
  split at hmask
  · rw [tryParseV6Netmask, ScanV6.scan_dot htext.1 htext.2] at hmask
    cases hmask
  · split at hmask
    · unfold tryParseV4Netmask at hmask
      split at hmask <;> cases hmask
    · cases hmask

theorem masksPrefix_iff (t : V6Text) (n : MaskLength) : t.MasksPrefix n ↔ t.Exact n.bits := by
  have hle : n.bits ≤ 128 := n.le
  unfold Exact
  cases hquad : t.quad with
  | some quad => exact iff_of_false (not_masksPrefix_of_quad hquad) fun h => by cases h.1
  | none =>
      cases hafter : t.after with
      | none => simpa using masksPrefix_full hquad hafter
      | some after =>
          simp only [true_and]
          rw [masksPrefix_cut hquad hafter]
          by_cases hlong : 112 < n.bits
          · have hsame : ∀ j < 128, wordBit t.words j = wordBit (t.cut after n.bits) j :=
              fun j hj => wordBit_cut_of_long hquad hafter hlong hle hj
            rw [if_pos hlong]
            by_cases hbyte : n.bits % 8 = 0
            · exact iff_of_true ⟨fun j hj => hsame j (by omega), Or.inl hbyte⟩ (Or.inl hbyte)
            · rw [bit_addr t (by omega), hsame _ (by omega)]
              exact ⟨fun h => h.2, fun h => ⟨fun j hj => hsame j (by omega), h⟩⟩
          · rw [if_neg hlong]
            by_cases hfits : max 1 t.before.length + max 1 after.length ≤ (n.bits + 15) / 16
            · rw [if_pos hfits]
              exact exact_of_fits hquad hafter (by omega) hfits
            · rw [if_neg hfits]
              exact exact_of_not_fits hquad hafter (by omega) hfits

end V6Text

section Example

/-- `2001:db8:0:1:2:3:4:5/64`. -/
def fullText : V6Text where
  before := ["2001", "db8", "0", "1", "2", "3", "4", "5"].map String.toList
  after := none
  quad := none
  before_isField := by decide
  after_isField := by decide
  count := rfl

def length64 : MaskLength where
  digits := "64".toList
  ne_nil := by decide
  isDigit := List.all_eq_true.mp rfl
  le := by decide

/-- The length of a full address is compared with 32. -/
theorem not_masksPrefix : ¬ ∀ (t : V6Text) (n : MaskLength), t.MasksPrefix n := by
  intro h
  obtain ⟨mask, hmask, -⟩ := h fullText length64
  have hparse : parseNetmask (fullText.text ++ '/' :: length64.digits) = .host := by rfl
  rw [hparse] at hmask
  cases hmask

end Example

end Unirc
