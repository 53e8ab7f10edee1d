import Unirc.Ipv4Mask

/-!
# The text of an address

`inetntop` of `irc_string.c`. An IPv6 address is written with `::` for the first of its longest
runs of zero words, when it has one of two words or more. The addresses that stand for an IPv4
address are written as that address.
-/

namespace Unirc

/-- An entry of `IpQuadTab`. -/
def ipQuadTab (b : BitVec 8) : Str := Nat.toDigits 10 b.toNat

/-- The bytes of an address in network order. -/
def V4Addr.bytes (a : V4Addr) : List (BitVec 8) :=
  [a.extractLsb' 24 8, a.extractLsb' 16 8, a.extractLsb' 8 8, a.extractLsb' 0 8]

def inetntoa (src : List (BitVec 8)) : Str := joinDots (src.map ipQuadTab)

/-- `NULL` where the text might not fit. -/
def inetNtop4 (src : List (BitVec 8)) (size : ℕ) : Option Str :=
  if size < 16 then none else some (inetntoa src)

/-- A `base` of -1 is no run. -/
structure ZeroRun where
  base : ℕ
  len : ℕ

/-- `best` when the run `cur` has ended. -/
def longerRun (best cur : Option ZeroRun) : Option ZeroRun :=
  match cur, best with
  | none, best => best
  | some cur, none => some cur
  | some cur, some best => if best.len < cur.len then some cur else some best

/-- `cur` with the zero word `i`. -/
def extendRun (i : ℕ) : Option ZeroRun → ZeroRun
  | none => ⟨i, 1⟩
  | some cur => { cur with len := cur.len + 1 }

def findRun : List (BitVec 16) → ℕ → Option ZeroRun → Option ZeroRun → Option ZeroRun
  | [], _, best, cur => longerRun best cur
  | w :: ws, i, best, cur =>
      if w = 0 then findRun ws (i + 1) best (some (extendRun i cur))
      else findRun ws (i + 1) (longerRun best cur) none

def bestRun (words : List (BitVec 16)) : Option ZeroRun :=
  match findRun words 0 none none with
  | none => none
  | some best => if best.len < 2 then none else some best

def V6Addr.toWords (a : V6Addr) : List (BitVec 16) :=
  List.ofFn fun k : Fin 8 => a ⟨2 * k.val, by omega⟩ ++ a ⟨2 * k.val + 1, by omega⟩

/-- The bytes from `src[12]` on. -/
def V6Addr.lastBytes (a : V6Addr) : List (BitVec 8) := [a 12, a 13, a 14, a 15]

/-- The size of `tmp`. -/
def tmpSize : ℕ := "ffff:ffff:ffff:ffff:ffff:ffff:255.255.255.255".length + 1

def ZeroRun.Inside (best : Option ZeroRun) (i : ℕ) : Prop :=
  ∃ r ∈ best, r.base ≤ i ∧ i < r.base + r.len

instance (best : Option ZeroRun) (i : ℕ) : Decidable (ZeroRun.Inside best i) := by
  cases best with
  | none => exact isFalse (by simp [ZeroRun.Inside])
  | some r => exact decidable_of_iff (r.base ≤ i ∧ i < r.base + r.len) (by simp [ZeroRun.Inside])

/-- The test of `inet_ntop6` for an encapsulated IPv4 address. -/
def Encapsulated (words : List (BitVec 16)) (best : Option ZeroRun) : Prop :=
  ∃ r ∈ best, r.base = 0 ∧ (r.len = 6 ∨ r.len = 5 ∧ words.getD 5 0 = 0xffff)

instance (words : List (BitVec 16)) (best : Option ZeroRun) :
    Decidable (Encapsulated words best) := by
  cases best with
  | none => exact isFalse (by simp [Encapsulated])
  | some r =>
      exact decidable_of_iff (r.base = 0 ∧ (r.len = 6 ∨ r.len = 5 ∧ words.getD 5 0 = 0xffff))
        (by simp [Encapsulated])

/-- The words from `i` on, behind the text `tp`. -/
def formatWords (src : V6Addr) (best : Option ZeroRun) :
    List (BitVec 16) → ℕ → Str → Option Str
  | [], _, tp => some tp
  | w :: ws, i, tp =>
      if ZeroRun.Inside best i then
        formatWords src best ws (i + 1)
          (if ∃ r ∈ best, i = r.base then tp ++ [':'] else tp)
      else
        let tp := if i = 0 then tp else tp ++ [':']
        if i = 6 ∧ Encapsulated src.toWords best then
          (inetNtop4 src.lastBytes (tmpSize - tp.length)).map (tp ++ ·)
        else formatWords src best ws (i + 1) (tp ++ Nat.toDigits 16 w.toNat)

def inetNtop6 (src : V6Addr) (size : ℕ) : Option Str :=
  let best := bestRun src.toWords
  match formatWords src best src.toWords 0 [] with
  | none => none
  | some tp =>
      let tmp := if ∃ r ∈ best, r.base + r.len = 8 then tp ++ [':'] else tp
      if size < tmp.length + 1 then none else some tmp

/-- `IN6_IS_ADDR_V4MAPPED`. -/
def V6Addr.V4Mapped (a : V6Addr) : Prop :=
  (∀ i : Fin 16, i.val < 10 → a i = 0) ∧ a 10 = 0xff ∧ a 11 = 0xff

/-- `IN6_IS_ADDR_V4COMPAT`: neither `::` nor `::1`. -/
def V6Addr.V4Compat (a : V6Addr) : Prop :=
  (∀ i : Fin 16, i.val < 12 → a i = 0) ∧ 1 < (a 12 ++ a 13 ++ a 14 ++ a 15).toNat

instance (a : V6Addr) : Decidable a.V4Mapped := by unfold V6Addr.V4Mapped; infer_instance

instance (a : V6Addr) : Decidable a.V4Compat := by unfold V6Addr.V4Compat; infer_instance

def inetntop (src : IpAddr) (size : ℕ) : Option Str :=
  match src with
  | .inet a => inetNtop4 a.bytes size
  | .inet6 a =>
      if a.V4Mapped ∨ a.V4Compat then inetNtop4 a.lastBytes size else inetNtop6 a size

/-! ### The numbers -/

theorem hexValue_toDigits (n : ℕ) :
    (∀ c ∈ Nat.toDigits 16 n, isHex c = true) ∧ hexValue (Nat.toDigits 16 n) = n := by
  have hdigit : ∀ d < 16, hexDigit? (Nat.digitChar d) = some d := by decide
  induction n using Nat.base_induction 16 (by decide) with
  | single d hd =>
      rw [Nat.toDigits_of_lt_base hd]
      refine ⟨fun c hc => ?_, by simp [hexValue, hdigit d hd]⟩
      rw [List.mem_singleton.mp hc, isHex, hdigit d hd, Option.isSome_some]
  | digit m d hd hm ih =>
      rw [← Nat.toDigits_append_toDigits (by decide) hm hd, Nat.toDigits_of_lt_base hd]
      refine ⟨fun c hc => ?_, ?_⟩
      · rcases List.mem_append.mp hc with hc | hc
        · exact ih.1 c hc
        · rw [List.mem_singleton.mp hc, isHex, hdigit d hd, Option.isSome_some]
      · rw [hexValue_append_singleton, ih.2, hdigit d hd, Option.getD_some]

theorem isField_toDigits (w : BitVec 16) : Nat.toDigits 16 w.toNat ≠ [] ∧
    IsField (Nat.toDigits 16 w.toNat) :=
  ⟨Nat.toDigits_ne_nil, (Nat.length_toDigits_le_iff (by decide) (by decide)).mpr w.isLt,
    (hexValue_toDigits _).1⟩

/-- The component that is written for a byte. -/
def octetOf (b : BitVec 8) : Octet where
  digits := ipQuadTab b
  ne_nil := Nat.toDigits_ne_nil
  isDigit c hc := Nat.isDigit_of_mem_toDigits (by decide) (by decide) hc
  le := by
    have hread := Decimal.readDigits_toDigits_append b.toNat Decimal.stops_nil
    rw [List.append_nil] at hread
    rw [ipQuadTab, hread]
    omega

theorem value_octetOf (b : BitVec 8) : (octetOf b).value = b.toNat := by
  have hread := Decimal.readDigits_toDigits_append b.toNat Decimal.stops_nil
  rwa [List.append_nil] at hread

/-! ### The run of zeros -/

namespace ZeroRun

variable {words ws : List (BitVec 16)} {best cur : Option ZeroRun} {r : ZeroRun} {i : ℕ}

/-- A run of zeros up to word `i`. -/
def Open (words : List (BitVec 16)) (i : ℕ) (r : ZeroRun) : Prop :=
  0 < r.len ∧ r.base + r.len = i ∧ ∀ k, r.base ≤ k → k < i → words[k]? = some 0

/-- No zero follows. -/
def Ended (words : List (BitVec 16)) (r : ZeroRun) : Prop :=
  Open words (r.base + r.len) r ∧ words[r.base + r.len]? ≠ some 0

theorem Open.ended (h : Open words i r) (hi : words[i]? ≠ some 0) : Ended words r := by
  obtain rfl := h.2.1
  exact ⟨h, hi⟩

theorem ended_longerRun (hbest : ∀ r ∈ best, Ended words r) (hcur : ∀ r ∈ cur, Ended words r) :
    ∀ r ∈ longerRun best cur, Ended words r := by
  unfold longerRun
  split
  · exact hbest
  · exact hcur
  · split
    · exact hcur
    · exact hbest

theorem ended_findRun (hws : words.drop i = ws) (hbest : ∀ r ∈ best, Ended words r)
    (hcur : ∀ r ∈ cur, Open words i r) : ∀ r ∈ findRun ws i best cur, Ended words r := by
  induction ws generalizing i best cur with
  | nil =>
      have hend : words[i]? ≠ some 0 := by
        rw [List.getElem?_eq_none (List.drop_eq_nil_iff.mp hws)]
        simp
      exact ended_longerRun hbest fun r hr => (hcur r hr).ended hend
  | cons w ws ih =>
      have hw : words[i]? = some w := by
        have hhead := @List.getElem?_drop _ words i 0
        rw [hws] at hhead
        exact hhead.symm
      have hdrop : words.drop (i + 1) = ws := by
        rw [← List.tail_drop, hws, List.tail_cons]
      rw [findRun]
      split
      · rename_i hzero
        subst hzero
        refine ih hdrop hbest fun r hr => ?_
        cases cur with
        | none =>
            obtain rfl := Option.some.inj hr
            refine ⟨Nat.one_pos, rfl, fun k hk hki => ?_⟩
            obtain rfl : k = i := by
              have : i ≤ k := hk
              omega
            exact hw
        | some cur =>
            obtain rfl := Option.some.inj hr
            obtain ⟨-, hend, hzeros⟩ := hcur cur rfl
            refine ⟨Nat.succ_pos _, by rw [← hend]; rfl, fun k hk hki => ?_⟩
            rcases Nat.lt_or_eq_of_le (Nat.lt_succ_iff.mp hki) with hlt | rfl
            · exact hzeros k hk hlt
            · exact hw
      · rename_i hzero
        have hend : words[i]? ≠ some 0 := by
          rw [hw]
          exact fun h => hzero (Option.some.inj h)
        exact ih hdrop (ended_longerRun hbest fun r hr => (hcur r hr).ended hend)
          (fun r hr => by cases hr)

theorem ended_bestRun (h : bestRun words = some r) : Ended words r := by
  unfold bestRun at h
  split at h
  · cases h
  · rename_i best hbest
    split at h
    · cases h
    · obtain rfl := Option.some.inj h
      exact ended_findRun (List.drop_zero) (fun r hr => by cases hr) (fun r hr => by cases hr) _
        hbest

end ZeroRun

namespace V6Addr

variable (a : V6Addr)

@[simp] theorem length_toWords : a.toWords.length = 8 := List.length_ofFn

theorem getElem?_toWords {k : ℕ} (hk : k < 8) :
    a.toWords[k]? = some (a ⟨2 * k, by omega⟩ ++ a ⟨2 * k + 1, by omega⟩) := by
  rw [toWords, List.getElem?_ofFn, dif_pos hk]

/-- The address is read back from its words. -/
theorem ofWords_toWords : ofWords (fun k => a.toWords.getD k 0) = a := by
  funext i
  have hword := a.getElem?_toWords (show i.val / 2 < 8 by omega)
  unfold ofWords
  simp only [List.getD_eq_getElem?_getD, hword, Option.getD_some]
  split
  · rename_i heven
    rw [BitVec.extractLsb'_append_eq_left]
    congr 1
    exact Fin.ext (by show 2 * (i.val / 2) = i.val; omega)
  · rename_i hodd
    rw [BitVec.extractLsb'_append_eq_right]
    congr 1
    exact Fin.ext (by show 2 * (i.val / 2) + 1 = i.val; omega)

theorem word_eq_zero_iff {k : ℕ} (hk : k < 8) :
    a.toWords[k]? = some 0 ↔ a ⟨2 * k, by omega⟩ = 0 ∧ a ⟨2 * k + 1, by omega⟩ = 0 := by
  rw [a.getElem?_toWords hk, Option.some.injEq]
  constructor
  · intro h
    have hhigh := congrArg (BitVec.extractLsb' 8 8) h
    have hlow := congrArg (BitVec.extractLsb' 0 8) h
    rw [BitVec.extractLsb'_append_eq_left] at hhigh
    rw [BitVec.extractLsb'_append_eq_right] at hlow
    exact ⟨hhigh, hlow⟩
  · rintro ⟨h₁, h₂⟩
    rw [h₁, h₂]
    rfl

end V6Addr

namespace V6Addr

variable {a : V6Addr}

theorem eq_zero_of_words {n : ℕ} (h : ∀ k < n, a.toWords[k]? = some 0) (i : Fin 16)
    (hi : i.val < 2 * n) : a i = 0 := by
  have hword := (a.word_eq_zero_iff (show i.val / 2 < 8 by omega)).mp (h (i.val / 2) (by omega))
  rcases Nat.mod_two_eq_zero_or_one i.val with hmod | hmod
  · rw [← hword.1]
    exact congrArg a (Fin.ext (by show i.val = 2 * (i.val / 2); omega))
  · rw [← hword.2]
    exact congrArg a (Fin.ext (by show i.val = 2 * (i.val / 2) + 1; omega))

/-- `inetntop` has taken these addresses away before. -/
theorem not_encapsulated (hmapped : ¬ a.V4Mapped) (hcompat : ¬ a.V4Compat) :
    ¬ Encapsulated a.toWords (bestRun a.toWords) := by
  rintro ⟨r, hr, hbase, hlen⟩
  obtain ⟨⟨-, -, hzeros⟩, hend⟩ := ZeroRun.ended_bestRun hr
  rw [hbase, Nat.zero_add] at hzeros hend
  rcases hlen with hlen | ⟨hlen, hones⟩
  · rw [hlen] at hzeros hend
    refine hcompat ⟨eq_zero_of_words (fun k hk => hzeros k (Nat.zero_le k) hk), ?_⟩
    refine Nat.lt_of_not_le fun hle => hend ?_
    have hhigh : a 12 ++ a 13 = (a 12 ++ a 13 ++ a 14 ++ a 15).extractLsb' 16 16 := by
      rw [BitVec.extractLsb'_append_eq_of_le (by decide),
        BitVec.extractLsb'_append_eq_of_le (by decide), BitVec.extractLsb'_eq_self]
    rw [a.getElem?_toWords (by decide)]
    show some (a 12 ++ a 13) = some 0
    rw [hhigh, Option.some.injEq]
    refine BitVec.eq_of_toNat_eq ?_
    rw [BitVec.extractLsb'_toNat, Nat.shiftRight_eq_div_pow, Nat.div_eq_of_lt (by omega)]
    rfl
  · rw [hlen] at hzeros
    rw [List.getD_eq_getElem?_getD, a.getElem?_toWords (by decide), Option.getD_some] at hones
    have hhigh := congrArg (BitVec.extractLsb' 8 8) hones
    have hlow := congrArg (BitVec.extractLsb' 0 8) hones
    rw [BitVec.extractLsb'_append_eq_left] at hhigh
    rw [BitVec.extractLsb'_append_eq_right] at hlow
    exact hmapped ⟨eq_zero_of_words (fun k hk => hzeros k (Nat.zero_le k) hk),
      hhigh, hlow⟩

end V6Addr

/-! ### The text -/

theorem joinColons_eq_flatMap (f : Str) (fs : List Str) :
    joinColons (f :: fs) = f ++ fs.flatMap (':' :: ·) := by
  induction fs generalizing f with
  | nil => simp [joinColons]
  | cons g fs ih => rw [joinColons, ih, List.flatMap_cons, List.cons_append]

/-- `"%x"` of the words. -/
def hexTexts (ws : List (BitVec 16)) : List Str := ws.map fun w => Nat.toDigits 16 w.toNat

section Format

variable {src : V6Addr} {best : Option ZeroRun} {ws rest : List (BitVec 16)} {i : ℕ} {tp : Str}

theorem formatWords_outside (henc : ¬ Encapsulated src.toWords best) (hi : 0 < i)
    (hout : ∀ k, i ≤ k → k < i + ws.length → ¬ ZeroRun.Inside best k) :
    formatWords src best (ws ++ rest) i tp =
      formatWords src best rest (i + ws.length) (tp ++ (hexTexts ws).flatMap (':' :: ·)) := by
  induction ws generalizing i tp with
  | nil => simp [hexTexts]
  | cons w ws ih =>
      rw [List.length_cons] at hout
      rw [List.cons_append, formatWords, if_neg (hout i le_rfl (by omega))]
      simp only [hi.ne', if_false, henc, and_false]
      rw [ih (show 0 < i + 1 by omega) fun k hk hlt => hout k (by omega) (by omega),
        show i + 1 + ws.length = i + (w :: ws).length by rw [List.length_cons]; omega]
      simp only [hexTexts, List.map_cons, List.flatMap_cons, List.append_assoc, List.cons_append,
        List.nil_append]

/-- The words in front of the run. -/
theorem formatWords_front (henc : ¬ Encapsulated src.toWords best)
    (hout : ∀ k < ws.length, ¬ ZeroRun.Inside best k) :
    formatWords src best (ws ++ rest) 0 [] =
      formatWords src best rest ws.length (joinColons (hexTexts ws)) := by
  cases ws with
  | nil => rfl
  | cons w ws =>
      rw [List.length_cons] at hout
      rw [List.cons_append, formatWords, if_neg (hout 0 (Nat.succ_pos _))]
      simp only [if_true, henc, and_false, if_false, List.nil_append]
      rw [formatWords_outside henc Nat.one_pos fun k _ hlt => hout k (by omega), Nat.add_comm]
      simp only [hexTexts, List.map_cons, joinColons_eq_flatMap, List.length_cons]

theorem formatWords_inside {r : ZeroRun} (hi : r.base < i) (hle : i + ws.length ≤ r.base + r.len) :
    formatWords src (some r) (ws ++ rest) i tp =
      formatWords src (some r) rest (i + ws.length) tp := by
  induction ws generalizing i with
  | nil => rfl
  | cons w ws ih =>
      rw [List.length_cons] at hle
      have hin : ZeroRun.Inside (some r) i := ⟨r, rfl, by omega, by omega⟩
      have hbase : ¬ ∃ r' ∈ some r, i = r'.base := by
        rintro ⟨r', hr', heq⟩
        obtain rfl := Option.some.inj hr'
        omega
      rw [List.cons_append, formatWords, if_pos hin, if_neg hbase,
        ih (show r.base < i + 1 by omega) (by omega), List.length_cons,
        show i + 1 + ws.length = i + (ws.length + 1) by omega]

theorem formatWords_run {r : ZeroRun} (hlen : 0 < r.len) (hws : ws.length = r.len) :
    formatWords src (some r) (ws ++ rest) r.base tp =
      formatWords src (some r) rest (r.base + r.len) (tp ++ [':']) := by
  cases ws with
  | nil =>
      rw [List.length_nil] at hws
      omega
  | cons w ws =>
      rw [List.length_cons] at hws
      have hin : ZeroRun.Inside (some r) r.base := ⟨r, rfl, le_rfl, by omega⟩
      rw [List.cons_append, formatWords, if_pos hin, if_pos ⟨r, rfl, rfl⟩,
        formatWords_inside (show r.base < r.base + 1 by omega) (by omega), ← hws,
        show r.base + 1 + ws.length = r.base + (ws.length + 1) by omega]

end Format

theorem length_joinColons_le {fs : List Str} (h : ∀ f ∈ fs, f.length ≤ 4) :
    (joinColons fs).length ≤ 5 * fs.length := by
  induction fs with
  | nil => exact Nat.zero_le _
  | cons f fs ih =>
      have hf := h f List.mem_cons_self
      have ih := ih fun g hg => h g (List.mem_cons_of_mem _ hg)
      cases fs with
      | nil =>
          rw [joinColons, List.length_singleton]
          omega
      | cons g fs =>
          rw [joinColons, List.length_append, List.length_cons, List.length_cons]
          omega

theorem isField_hexTexts {ws : List (BitVec 16)} : ∀ f ∈ hexTexts ws, f ≠ [] ∧ IsField f := by
  intro f hf
  obtain ⟨w, -, rfl⟩ := List.mem_map.mp hf
  exact isField_toDigits w

theorem hexValue_hexTexts (ws : List (BitVec 16)) :
    (hexTexts ws).map hexValue = ws.map BitVec.toNat := by
  rw [hexTexts, List.map_map]
  exact List.map_congr_left fun w _ => (hexValue_toDigits w.toNat).2

@[simp] theorem length_hexTexts (ws : List (BitVec 16)) : (hexTexts ws).length = ws.length :=
  List.length_map _

namespace V6Text

variable {t : V6Text} {a : V6Addr}

theorem addr_eq (h : t.words = a.toWords.map BitVec.toNat) : t.addr = a := by
  have hword : ∀ k, BitVec.ofNat 16 (t.words.getD k 0) = a.toWords.getD k 0 := fun k => by
    have hmap : (a.toWords.map BitVec.toNat).getD k 0 = (a.toWords.getD k 0).toNat := by
      rw [show 0 = BitVec.toNat (0 : BitVec 16) from rfl, List.getD_map]
    rw [h, hmap, BitVec.ofNat_toNat, BitVec.setWidth_eq]
  rw [addr, funext hword, V6Addr.ofWords_toWords]

/-- No `tmp` is too small for it. -/
theorem length_text_lt (hquad : t.quad = none) : t.text.length + 1 ≤ tmpSize := by
  have hlen : ∀ fs : List Str, (∀ f ∈ fs, f ≠ [] ∧ IsField f) →
      (joinColons fs).length ≤ 5 * fs.length := fun fs h =>
    length_joinColons_le fun f hf => (h f hf).2.1
  have hsize : tmpSize = 46 := rfl
  have hbefore := hlen t.before t.before_isField
  have hcount := t.count
  cases hafter : t.after with
  | none =>
      have hfull : t.before.length = 8 := by simpa [GroupsFit, hafter, hquad] using hcount
      have htext : t.text = joinColons t.before := by simp [text, hafter, hquad]
      rw [htext]
      omega
  | some after =>
      have hfit : t.before.length + after.length ≤ 7 := by
        simpa [GroupsFit, hafter, hquad] using hcount
      have hbehind := hlen after (by simpa [hafter] using t.after_isField)
      have htext : t.text = joinColons t.before ++ ':' :: ':' :: joinColons after := by
        simp [text, hafter, hquad]
      rw [htext, List.length_append, List.length_cons, List.length_cons]
      omega

/-- The text of an address is read as the address. -/
theorem parseNetmask_text (hquad : t.quad = none) : parseNetmask t.text = .ipv6 t.addr 128 := by
  have hmask : ∀ k < 8, ∀ w, ScanV6.maskWord 128 k w = w := fun k hk w => by
    rw [ScanV6.maskWord, if_neg (by omega), if_neg (by omega)]
  have hwords : ∀ f g : ℕ → BitVec 16, (∀ k < 8, f k = g k) → V6Addr.ofWords f = V6Addr.ofWords g :=
    fun f g h => funext fun i => by rw [V6Addr.ofWords, V6Addr.ofWords, h _ (by omega)]
  have hcolon : ∀ (f h : Str) fs, ':' ∈ joinColons (f :: h :: fs) := fun f h fs => by
    simp [joinColons]
  cases hafter : t.after with
  | none =>
      obtain ⟨f, h, fs, ws, g, htext, hfs, hlayout, hall, -⟩ := layout_full hquad hafter
      rw [htext, parseNetmask, if_pos (hcolon f h fs), ScanV6.tryParseV6Netmask_whole hfs hlayout,
        hall]
      congr 1
      refine hwords _ _ fun k hk => ?_
      rw [hmask k hk, ScanV6.getD_filled_none hk]
  | some after =>
      obtain ⟨f, h, fs, ws, g, htext, hfs, hlayout, hstored⟩ := layout_compressed hquad hafter
      have hcount : t.before.length + after.length ≤ 7 := by
        simpa [GroupsFit, hafter, hquad] using t.count
      rw [htext, parseNetmask, if_pos (hcolon f h fs), ScanV6.tryParseV6Netmask_whole hfs hlayout,
        hstored]
      congr 1
      refine hwords _ _ fun k hk => ?_
      have hcut := @getD_cut_of_fits t after 128 8 k hcount (by decide) (by omega) le_rfl hk
      rw [hmask k hk, getD_words hquad hafter, ← hcut]
      rfl

end V6Text

theorem two_le_of_bestRun {words : List (BitVec 16)} {r : ZeroRun} (h : bestRun words = some r) :
    2 ≤ r.len := by
  unfold bestRun at h
  split at h
  · cases h
  · split at h
    · cases h
    · rename_i hlen
      obtain rfl := Option.some.inj h
      exact Nat.not_lt.mp hlen

/-- The words around the run. -/
theorem exists_split_of_bestRun {a : V6Addr} {r : ZeroRun} (hbest : bestRun a.toWords = some r) :
    0 < r.len ∧ ∃ before after, a.toWords = before ++ (List.replicate r.len 0 ++ after) ∧
      before.length = r.base ∧ r.base + r.len + after.length = 8 := by
  obtain ⟨⟨hlen, -, hzeros⟩, -⟩ := ZeroRun.ended_bestRun hbest
  have hend : r.base + r.len ≤ 8 := by
    have hlast := hzeros (r.base + r.len - 1) (by omega) (by omega)
    have hlt := (List.getElem?_eq_some_iff.mp hlast).1
    rw [a.length_toWords] at hlt
    omega
  have hrun : (a.toWords.drop r.base).take r.len = List.replicate r.len 0 := by
    refine List.eq_replicate_iff.mpr ⟨?_, fun w hw => ?_⟩
    · rw [List.length_take, List.length_drop, a.length_toWords]
      omega
    · obtain ⟨k, hk⟩ := List.mem_iff_getElem?.mp hw
      obtain ⟨hlt, -⟩ := List.getElem?_eq_some_iff.mp hk
      rw [List.length_take] at hlt
      rw [List.getElem?_take_of_lt (by omega), List.getElem?_drop,
        hzeros (r.base + k) (by omega) (by omega)] at hk
      exact (Option.some.inj hk).symm
  refine ⟨hlen, a.toWords.take r.base, a.toWords.drop (r.base + r.len), ?_, ?_, ?_⟩
  · rw [← hrun, ← List.drop_drop, List.take_append_drop, List.take_append_drop]
  · rw [List.length_take, a.length_toWords]
    omega
  · rw [List.length_drop, a.length_toWords]
    omega

theorem formatWords_split {a : V6Addr} {r : ZeroRun} {before after : List (BitVec 16)}
    (henc : ¬ Encapsulated a.toWords (some r)) (hlen : 0 < r.len) (hbefore : before.length = r.base)
    (hafter : r.base + r.len + after.length = 8) :
    formatWords a (some r) (before ++ (List.replicate r.len 0 ++ after)) 0 [] =
      some (joinColons (hexTexts before) ++ [':'] ++ (hexTexts after).flatMap (':' :: ·)) := by
  have hfront : ∀ k < before.length, ¬ ZeroRun.Inside (some r) k := by
    rintro k hk ⟨r', hr', hin⟩
    obtain rfl := Option.some.inj hr'
    omega
  have hbehind : ∀ k, r.base + r.len ≤ k → k < r.base + r.len + after.length →
      ¬ ZeroRun.Inside (some r) k := by
    rintro k hk - ⟨r', hr', hin⟩
    obtain rfl := Option.some.inj hr'
    omega
  have hpos : 0 < r.base + r.len := by omega
  have hall := @formatWords_outside a (some r) after [] _
    (joinColons (hexTexts before) ++ [':']) henc hpos hbehind
  rw [List.append_nil, formatWords] at hall
  rw [formatWords_front henc hfront, hbefore, formatWords_run hlen List.length_replicate, hall]

/-- The text that `inet_ntop6` writes. -/
theorem exists_text_inetNtop6 (a : V6Addr)
    (henc : ¬ Encapsulated a.toWords (bestRun a.toWords)) :
    ∃ t : V6Text, t.quad = none ∧ t.words = a.toWords.map BitVec.toNat ∧
      (t.after.isSome → t.before.length ≤ 6) ∧
      ∀ size, inetNtop6 a size = if size < t.text.length + 1 then none else some t.text := by
  unfold inetNtop6
  cases hbest : bestRun a.toWords with
  | none =>
      rw [hbest] at henc
      refine ⟨⟨hexTexts a.toWords, none, none, isField_hexTexts, by simp, by simp [GroupsFit]⟩, rfl, ?_,
        nofun, fun size => ?_⟩
      · simp [V6Text.words, hexValue_hexTexts]
      · have hout : ∀ k < a.toWords.length, ¬ ZeroRun.Inside none k := fun k _ => by
          simp [ZeroRun.Inside]
        have hformat := @formatWords_front a none a.toWords [] henc hout
        rw [List.append_nil, formatWords] at hformat
        simp [hformat, V6Text.text]
  | some r =>
      rw [hbest] at henc
      obtain ⟨hlen, before, after, hsplit, hbefore, hafter⟩ := exists_split_of_bestRun hbest
      have hformat := formatWords_split henc hlen hbefore hafter
      rw [← hsplit] at hformat
      refine ⟨⟨hexTexts before, some (hexTexts after), none, isField_hexTexts, isField_hexTexts, ?_⟩,
        rfl, ?_, fun _ => ?_, fun size => ?_⟩
      · simp only [GroupsFit, length_hexTexts, Option.toList_none, List.length_nil]
        omega
      · have hgap : 8 - r.base - after.length = r.len := by omega
        rw [hsplit]
        simp [V6Text.words, hexValue_hexTexts, hbefore, hgap]
      · have hlong := two_le_of_bestRun hbest
        rw [length_hexTexts]
        omega
      · have htrail : (if ∃ r' ∈ some r, r'.base + r'.len = 8 then
              joinColons (hexTexts before) ++ [':'] ++ (hexTexts after).flatMap (':' :: ·) ++ [':']
            else joinColons (hexTexts before) ++ [':'] ++ (hexTexts after).flatMap (':' :: ·)) =
            joinColons (hexTexts before) ++ ':' :: ':' :: joinColons (hexTexts after) := by
          cases after with
          | nil =>
              rw [if_pos ⟨r, rfl, by simpa using hafter⟩]
              simp [hexTexts, joinColons]
          | cons w ws =>
              rw [List.length_cons] at hafter
              rw [if_neg]
              · simp [hexTexts, joinColons_eq_flatMap]
              · rintro ⟨r', hr', hend⟩
                obtain rfl := Option.some.inj hr'
                omega
        simp only [hformat, htrail, V6Text.text, Option.toList_none, List.map_nil, List.append_nil]

/-! ### Reading the text -/

theorem isDigit_of_mem_inetntoa {src : List (BitVec 8)} {c : Char} (h : c ∈ inetntoa src) :
    c.isDigit = true ∨ c = '.' := by
  obtain ⟨part, hpart, hc⟩ := List.mem_flatMap.mp (List.mem_of_mem_tail h)
  obtain ⟨b, -, rfl⟩ := List.mem_map.mp hpart
  rcases List.mem_cons.mp hc with rfl | hc
  · exact Or.inr rfl
  · exact Or.inl ((octetOf b).isDigit c hc)

theorem colon_not_mem_inetntoa (src : List (BitVec 8)) : ':' ∉ inetntoa src := by
  intro h
  rcases isDigit_of_mem_inetntoa h with h | h
  · exact absurd h (by decide)
  · exact absurd h (by decide)

/-- The text of an IPv4 address is read as the address. -/
theorem parseNetmask_inetntoa (b₀ b₁ b₂ b₃ : BitVec 8) :
    parseNetmask (inetntoa [b₀, b₁, b₂, b₃]) = .ipv4 (b₀ ++ b₁ ++ b₂ ++ b₃) 32 := by
  have hcolon := colon_not_mem_inetntoa [b₀, b₁, b₂, b₃]
  have hdot : '.' ∈ inetntoa [b₀, b₁, b₂, b₃] := by simp [inetntoa, joinDots_cons]
  obtain ⟨prev, hscan⟩ := @scanV4_octets (octetOf b₀) [octetOf b₁, octetOf b₂, octetOf b₃] []
    le_rfl
  have hvalues : (starts [octetOf b₀, octetOf b₁, octetOf b₂, octetOf b₃] []).map
      (fun s => (Decimal.strtoul s).1) = [b₀.toNat, b₁.toNat, b₂.toNat, b₃.toNat] := by
    rw [values_starts _ Decimal.stops_nil]
    simp only [List.map_cons, List.map_nil, value_octetOf]
  rw [List.append_nil, scanV4] at hscan
  rw [parseNetmask, if_neg hcolon, if_pos hdot, inetntoa]
  refine (tryParseV4Netmask_whole hscan rfl).trans ?_
  rw [hvalues]
  simp [V4Addr.ofBytes]

/-- The address as `parse_netmask` gives it. -/
def IpAddr.netmask : IpAddr → Netmask
  | .inet a => .ipv4 a 32
  | .inet6 a => .ipv6 a 128

/-- There is room for the text in a `tmp`, and it is read as the address. -/
def IpAddr.ReadBack (src : IpAddr) : Prop :=
  (∀ size, tmpSize ≤ size → (inetntop src size).isSome) ∧
    ∀ size text, inetntop src size = some text → parseNetmask text = src.netmask

/-- The address does not stand for an IPv4 address. -/
def IpAddr.Native : IpAddr → Prop
  | .inet _ => True
  | .inet6 a => ¬ a.V4Mapped ∧ ¬ a.V4Compat

theorem V4Addr.append_bytes (a : V4Addr) : a.extractLsb' 24 8 ++ a.extractLsb' 16 8 ++
    a.extractLsb' 8 8 ++ a.extractLsb' 0 8 = a := by
  rw [BitVec.extractLsb'_append_extractLsb'_eq_extractLsb' (by decide),
    BitVec.extractLsb'_append_extractLsb'_eq_extractLsb' (by decide),
    BitVec.extractLsb'_append_extractLsb'_eq_extractLsb' (by decide), BitVec.extractLsb'_eq_self]

theorem inetNtop4_of_le (src : List (BitVec 8)) {size : ℕ} (h : tmpSize ≤ size) :
    inetNtop4 src size = some (inetntoa src) := by
  have hsize : tmpSize = 46 := rfl
  rw [inetNtop4, if_neg (by omega)]

theorem eq_of_inetNtop4 {src : List (BitVec 8)} {size : ℕ} {text : Str}
    (h : inetNtop4 src size = some text) : inetntoa src = text := by
  unfold inetNtop4 at h
  split at h
  · cases h
  · exact Option.some.inj h

theorem readBack_inet (a : V4Addr) : (IpAddr.inet a).ReadBack := by
  refine ⟨fun size hsize => ?_, fun size text h => ?_⟩
  · rw [inetntop, inetNtop4_of_le _ hsize, Option.isSome_some]
  · rw [← eq_of_inetNtop4 h, V4Addr.bytes, parseNetmask_inetntoa, a.append_bytes, IpAddr.netmask]

theorem readBack_inet6 {a : V6Addr} (hmapped : ¬ a.V4Mapped) (hcompat : ¬ a.V4Compat) :
    (IpAddr.inet6 a).ReadBack := by
  obtain ⟨t, hquad, hwords, -, htext⟩ :=
    exists_text_inetNtop6 a (V6Addr.not_encapsulated hmapped hcompat)
  have hntop : ∀ size, inetntop (.inet6 a) size =
      if size < t.text.length + 1 then none else some t.text := fun size => by
    rw [inetntop, if_neg (not_or.mpr ⟨hmapped, hcompat⟩), htext]
  refine ⟨fun size hsize => ?_, fun size text h => ?_⟩
  · have hroom := V6Text.length_text_lt hquad
    rw [hntop, if_neg (by omega), Option.isSome_some]
  · rw [hntop] at h
    split at h
    · cases h
    · rw [← Option.some.inj h, V6Text.parseNetmask_text hquad, V6Text.addr_eq hwords, IpAddr.netmask]

/-- An address that stands for an IPv4 address is read as that one. -/
theorem parseNetmask_of_not_native {a : V6Addr} (h : a.V4Mapped ∨ a.V4Compat) :
    ∃ text, inetntop (.inet6 a) tmpSize = some text ∧
      parseNetmask text = .ipv4 (a 12 ++ a 13 ++ a 14 ++ a 15) 32 :=
  ⟨inetntoa a.lastBytes, by rw [inetntop, if_pos h, inetNtop4_of_le _ le_rfl],
    parseNetmask_inetntoa _ _ _ _⟩

/-- `parse_netmask` reads what `inetntop` writes, but for the addresses that `inetntop` writes as
an IPv4 address. -/
theorem readBack_iff_native (src : IpAddr) : src.ReadBack ↔ src.Native := by
  cases src with
  | inet a => exact iff_of_true (readBack_inet a) trivial
  | inet6 a =>
      refine ⟨fun h => ?_, fun h => readBack_inet6 h.1 h.2⟩
      rw [IpAddr.Native, ← not_or]
      intro hquad
      obtain ⟨text, htext, hread⟩ := parseNetmask_of_not_native hquad
      rw [h.2 _ _ htext] at hread
      cases hread

/-- Hexadecimal groups with a dotted quad behind them. -/
def MixedDotted (text : Str) : Prop := ':' ∈ text ∧ '.' ∈ text

/-- The address `::ffff:1.2.3.4`. -/
def mappedAddr : V6Addr := fun i =>
  BitVec.ofNat 8 ([0, 0, 0, 0, 0, 0, 0, 0, 0, 0, 255, 255, 1, 2, 3, 4].getD i.val 0)

/-- It is written without a colon, and read as an IPv4 address. -/
theorem not_readBack_of_not_mixedDotted :
    ¬ ∀ src : IpAddr, (∀ size text, inetntop src size = some text → ¬ MixedDotted text) →
      src.ReadBack := by
  intro h
  have hmapped : mappedAddr.V4Mapped := by decide
  have hread := h (.inet6 mappedAddr) fun size text htext hmixed => by
    rw [inetntop, if_pos (Or.inl hmapped)] at htext
    rw [← eq_of_inetNtop4 htext] at hmixed
    exact colon_not_mem_inetntoa _ hmixed.1
  obtain ⟨text, htext, hquad⟩ := parseNetmask_of_not_native (Or.inl hmapped)
  rw [hread.2 _ _ htext] at hquad
  cases hquad

end Unirc
