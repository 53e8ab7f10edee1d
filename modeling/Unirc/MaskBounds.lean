import Unirc.MaskFields

/-!
# The accesses of the mask parsers

Both parsers once more, with the indices they use and the distances they shift by. Their
results are those of `parse_netmask`; the accesses are valid and the length is in range unless
a `/` stands behind eight groups, or a negative length behind an IPv4 address.
-/

namespace Unirc

/-- The arrays of `try_parse_v6_netmask` and `try_parse_v4_netmask`. -/
inductive MaskArray where
  | d | dc | digits | addb
  deriving DecidableEq

def MaskArray.size : MaskArray → ℤ
  | .d | .dc => 8
  | .digits | .addb => 4

/-- An element that is read or written, or the distance of a shift of an `int`. -/
inductive MaskAccess where
  | index (array : MaskArray) (i : ℤ)
  | shift (distance : ℤ)
  deriving DecidableEq

namespace MaskAccess

def Valid : MaskAccess → Prop
  | index array i => 0 ≤ i ∧ i < array.size
  | shift distance => 0 ≤ distance ∧ distance < 32

instance : DecidablePred Valid := fun a => by cases a <;> unfold Valid <;> infer_instance

end MaskAccess

/-- A result with the accesses made for it. -/
structure Traced (α : Type) where
  value : α
  accesses : List MaskAccess

namespace Traced

instance : Monad Traced where
  pure a := ⟨a, []⟩
  bind x f := ⟨(f x.value).value, x.accesses ++ (f x.value).accesses⟩

def touch (accesses : List MaskAccess) : Traced Unit := ⟨(), accesses⟩

def Safe {α : Type} (x : Traced α) : Prop := ∀ a ∈ x.accesses, a.Valid

variable {α β : Type}

@[simp] theorem value_pure (a : α) : (pure a : Traced α).value = a := rfl

@[simp] theorem value_bind (x : Traced α) (f : α → Traced β) :
    (x >>= f).value = (f x.value).value := rfl

@[simp] theorem value_touch (accesses : List MaskAccess) : (touch accesses).value = () := rfl

@[simp] theorem safe_pure (a : α) : (pure a : Traced α).Safe := fun _ h => by cases h

@[simp] theorem safe_bind (x : Traced α) (f : α → Traced β) :
    (x >>= f).Safe ↔ x.Safe ∧ (f x.value).Safe := List.forall_mem_append

@[simp] theorem safe_touch (accesses : List MaskAccess) :
    (touch accesses).Safe ↔ ∀ a ∈ accesses, a.Valid := Iff.rfl

theorem safe_touch_pair {a b : MaskAccess} : (touch [a, b]).Safe ↔ a.Valid ∧ b.Valid := by
  simp [Safe, touch]

end Traced

open Traced

/-- The elements from `start` to the end of an array. -/
def restOf (array : MaskArray) (start : ℤ) : List MaskAccess :=
  (List.range (array.size - start).toNat).map fun k : ℕ => .index array (start + (k : ℤ))

theorem restOf_valid {array : MaskArray} {start : ℤ} (h : 0 ≤ start) :
    ∀ a ∈ restOf array start, a.Valid := by
  intro a ha
  obtain ⟨k, hk, rfl⟩ := List.mem_map.mp ha
  rw [List.mem_range] at hk
  exact ⟨by omega, by omega⟩

/-- The scan of `try_parse_v4_netmask`. -/
def scanV4Traced : Str → Option Char → List Str → Traced (Option (List Str × ℤ))
  | [], _, digits => pure (some (digits, 0))
  | c :: rest, prev, digits =>
      if c.isDigit then scanV4Traced rest (some c) digits
      else if c = '.' then
        if 4 ≤ digits.length then pure none
        else do
          touch [.index .digits digits.length]
          scanV4Traced rest (some c) (digits ++ [rest])
      else if c = '*' then
        if rest ≠ [] ∨ prev ≠ some '.' then pure none
        else pure (some (digits, ((digits.length : ℤ) - 1) * 8))
      else if c = '/' then
        let (value, after) := Decimal.strtoul rest
        let bits := toCInt value
        if bits = 0 ∨ after ≠ [] then pure none
        else if (digits.length : ℤ) * 8 < bits then pure none
        else pure (some (digits, bits))
      else pure none

/-- `try_parse_v4_netmask`; the quotients are those of C. -/
def tryParseV4Traced (text : Str) : Traced Netmask := do
  touch [.index .digits 0]
  match ← scanV4Traced text none [text] with
  | none => pure .host
  | some (digits, bits) =>
      let bits := if digits.length < 4 ∧ bits = 0 then (digits.length : ℤ) * 8 else bits
      touch (if bits ≠ 0 then restOf .digits digits.length else [])
      let digits := if bits ≠ 0 then digits ++ List.replicate (4 - digits.length) ['0'] else digits
      touch (restOf .addb 0 ++ restOf .digits 0)
      let bits := if bits = 0 then 32 else bits
      touch (if bits < 32 ∧ bits.tmod 8 ≠ 0 then
        [.shift (8 - bits.tmod 8), .index .addb (bits.tdiv 8)] else [])
      touch (restOf .addb (bits.tdiv 8 + if bits.tmod 8 ≠ 0 then 1 else 0))
      touch ([.shift 24, .shift 16, .shift 8] ++ restOf .addb 0)
      let addb (k : ℕ) : BitVec 8 :=
        maskByte bits k (BitVec.ofNat 8 (Decimal.strtoul (digits.getD k [])).1)
      pure (.ipv4 (addb 0 ++ addb 1 ++ addb 2 ++ addb 3) bits)

namespace ScanV6

/-- `d[dp] = d[dp] >> 4 * nyble`. -/
def alignAccesses (s : ScanV6) : List MaskAccess := [.shift (4 * s.nyble), .index .d s.dp]

/-- The end of the scan at a `/`, after the shift. -/
def slash (s : ScanV6) (rest : Str) : Option (ScanV6 × Bool) :=
  let (value, after) := Decimal.strtoul rest
  let bits := toCInt value
  if bits < 0 ∨ after ≠ [] then none
  else if ((s.dp : ℤ) + 1) * 4 < bits ∧ ¬ (s.finsert.isSome ∧ bits ≤ 128) then none
  else some ({ s.align with dp := s.dp + 1, bits := bits }, false)

/-- The scan of `try_parse_v6_netmask`. -/
def scanTraced : Str → Option Char → ScanV6 → Traced (Option (ScanV6 × Bool))
  | [], _, s => pure (some (s, true))
  | c :: rest, prev, s =>
      match hexDigit? c with
      | some v =>
          if s.nyble = 0 then pure none
          else do
            touch [.shift (4 * ((s.nyble : ℤ) - 1)), .index .d s.dp]
            scanTraced rest (some c) { s with
              d := Function.update s.d s.dp (s.d s.dp ||| v <<< (4 * (s.nyble - 1)))
              nyble := s.nyble - 1 }
      | none =>
          if c = ':' then
            if prev = some ':' then
              if s.finsert.isSome then pure none
              else scanTraced rest (some c) { s with finsert := some s.dp }
            else do
              touch s.alignAccesses
              if 8 ≤ s.dp + 1 then pure none
              else scanTraced rest (some c) { s.align with nyble := 4, dp := s.dp + 1 }
          else if c = '*' then
            if s.finsert.isSome ∨ rest ≠ [] ∨ s.dp = 0 ∨ prev ≠ some ':' then pure none
            else scanTraced rest (some c) { s with bits := s.dp * 16 }
          else if c = '/' then do
            touch s.alignAccesses
            pure (s.slash rest)
          else pure none

/-- The loop that fills `dc[dp]` and those behind it. -/
def fillTraced (d : ℕ → ℕ) (finsert : Option ℕ) : ℕ → ℕ → ℕ → ℤ → Traced (List ℕ)
  | 0, _, _, _ => pure []
  | k + 1, dp, nyble, deficit =>
      if finsert = some nyble ∧ deficit ≠ 0 then do
        touch [.index .dc dp]
        let words ← fillTraced d finsert k (dp + 1) nyble (deficit - 1)
        pure (0 :: words)
      else do
        touch [.index .d nyble, .index .dc dp]
        let words ← fillTraced d finsert k (dp + 1) (nyble + 1) deficit
        pure (d nyble :: words)

end ScanV6

/-- `try_parse_v6_netmask` -/
def tryParseV6Traced (text : Str) : Traced Netmask := do
  match ← ScanV6.scanTraced text none ScanV6.init with
  | none => pure .host
  | some (s, ended) =>
      touch s.alignAccesses
      let s := s.align
      let dp := if ended then s.dp + 1 else s.dp
      let bits : ℤ := if s.finsert = none ∧ s.bits = 0 then dp * 16 else s.bits
      let words := bits.tdiv 16 + if bits.tmod 16 ≠ 0 then 1 else 0
      let dc ← ScanV6.fillTraced s.d s.finsert 8 0 0 (words - dp)
      touch (if bits < 128 ∧ bits.tmod 16 ≠ 0 then
        [.shift (15 - bits.tmod 16), .index .dc (bits.tdiv 16)] else [])
      touch (restOf .dc words)
      touch (restOf .dc 0)
      let word (k : ℕ) := ScanV6.maskWord bits k (BitVec.ofNat 16 (dc.getD k 0))
      pure (.ipv6 (fun i => if i.val % 2 = 0 then (word (i.val / 2)).extractLsb' 8 8
        else (word (i.val / 2)).extractLsb' 0 8) bits)

def parseNetmaskTraced (text : Str) : Traced Netmask :=
  if ':' ∈ text then tryParseV6Traced text
  else if '.' ∈ text then tryParseV4Traced text
  else pure .host

theorem value_scanV4Traced (text : Str) (prev : Option Char) (digits : List Str) :
    (scanV4Traced text prev digits).value = scanV4 text prev digits := by
  induction text generalizing prev digits with
  | nil => rfl
  | cons c rest ih =>
      rw [scanV4Traced, scanV4]
      split
      · exact ih _ _
      · split
        · split
          · rfl
          · exact ih _ _
        · split
          · split <;> rfl
          · split
            · simp only
              split
              · rfl
              · split <;> rfl
            · rfl

theorem value_tryParseV4Traced (text : Str) :
    (tryParseV4Traced text).value = tryParseV4Netmask text := by
  unfold tryParseV4Traced tryParseV4Netmask
  simp only [value_bind, value_scanV4Traced]
  cases scanV4 text none [text] <;> rfl

namespace ScanV6

theorem scan_eq_slash (s : ScanV6) (prev : Option Char) (rest : Str) :
    scan ('/' :: rest) prev s = s.slash rest := by
  rw [scan]
  simp only [show hexDigit? '/' = none by decide, show ('/' : Char) ≠ ':' by decide,
    show ('/' : Char) ≠ '*' by decide, if_true, if_false, slash]

theorem value_scanTraced (text : Str) (prev : Option Char) (s : ScanV6) :
    (scanTraced text prev s).value = scan text prev s := by
  induction text generalizing prev s with
  | nil => rfl
  | cons c rest ih =>
      by_cases hslash : c = '/'
      · subst hslash
        rw [scan_eq_slash, scanTraced]
        simp only [show hexDigit? '/' = none by decide, show ('/' : Char) ≠ ':' by decide,
          show ('/' : Char) ≠ '*' by decide, if_true, if_false, value_bind, value_pure]
      · rw [scanTraced, scan]
        cases hexDigit? c with
        | some v =>
            simp only
            split
            · rfl
            · exact ih _ _
        | none =>
            simp only [if_neg hslash]
            split
            · split
              · split
                · rfl
                · exact ih _ _
              · rw [value_bind]
                split
                · rfl
                · exact ih _ _
            · split
              · split
                · rfl
                · exact ih _ _
              · rfl

theorem value_fillTraced (d : ℕ → ℕ) (finsert : Option ℕ) (k dp nyble : ℕ) (deficit : ℤ) :
    (fillTraced d finsert k dp nyble deficit).value = fill d finsert k nyble deficit := by
  induction k generalizing dp nyble deficit with
  | zero => rfl
  | succ k ih =>
      rw [fillTraced, fill]
      split
      · rw [value_bind, value_bind, ih]
        rfl
      · rw [value_bind, value_bind, ih]
        rfl

theorem fillTraced_safe {d : ℕ → ℕ} {finsert : Option ℕ} {k dp nyble : ℕ} (deficit : ℤ)
    (hdp : dp + k ≤ 8) (hnyble : nyble ≤ dp) :
    (fillTraced d finsert k dp nyble deficit).Safe := by
  induction k generalizing dp nyble deficit with
  | zero => exact safe_pure _
  | succ k ih =>
      have hdc : (MaskAccess.index .dc dp).Valid := ⟨by omega, show (dp : ℤ) < 8 by omega⟩
      have hd : (MaskAccess.index .d nyble).Valid := ⟨by omega, show (nyble : ℤ) < 8 by omega⟩
      rw [fillTraced]
      split
      · simp only [safe_bind, safe_touch, List.forall_mem_singleton, safe_pure, and_true]
        exact ⟨hdc, ih _ (by omega) (by omega)⟩
      · simp only [safe_bind, safe_touch_pair, safe_pure, and_true]
        exact ⟨⟨hd, hdc⟩, ih _ (by omega) (by omega)⟩

/-- The indices before a step of the scan. -/
structure Bounded (s : ScanV6) : Prop where
  dp : s.dp ≤ 7
  nyble : s.nyble ≤ 4
  nonneg : 0 ≤ s.bits
  le : s.bits ≤ 128

theorem safe_align {s : ScanV6} (h : s.nyble ≤ 4) : (touch s.alignAccesses).Safe ↔ s.dp < 8 := by
  rw [alignAccesses, safe_touch_pair]
  constructor
  · rintro ⟨-, -, hdp⟩
    exact Int.ofNat_lt.mp hdp
  · exact fun hdp => ⟨⟨by omega, by omega⟩, by omega, Int.ofNat_lt.mpr hdp⟩

theorem scanTraced_safe (text : Str) (prev : Option Char) {s : ScanV6} (h : s.Bounded) :
    (scanTraced text prev s).Safe := by
  induction text generalizing prev s with
  | nil => exact safe_pure _
  | cons c rest ih =>
      have hdp := h.dp
      have hnyble := h.nyble
      rw [scanTraced]
      split
      · split
        · exact safe_pure _
        · rw [safe_bind, safe_touch_pair]
          exact ⟨⟨⟨by omega, by omega⟩, by omega, show (s.dp : ℤ) < 8 by omega⟩,
            ih _ ⟨hdp, by simp only; omega, h.nonneg, h.le⟩⟩
      · split
        · split
          · split
            · exact safe_pure _
            · exact ih _ ⟨hdp, hnyble, h.nonneg, h.le⟩
          · rw [safe_bind]
            refine ⟨(safe_align hnyble).mpr (by omega), ?_⟩
            split
            · exact safe_pure _
            · rename_i hnext
              exact ih _ ⟨by simp only; omega, le_rfl, h.nonneg, h.le⟩
        · split
          · split
            · exact safe_pure _
            · exact ih _ ⟨hdp, hnyble, by simp only; omega, by simp only; omega⟩
          · split
            · rw [safe_bind]
              exact ⟨(safe_align hnyble).mpr (by omega), safe_pure _⟩
            · exact safe_pure _

/-- What the scan ends with: only behind a `/` the index may have left the array. -/
theorem scan_bounded {text : Str} {prev : Option Char} {s s' : ScanV6} {ended : Bool}
    (h : s.Bounded) (hscan : scan text prev s = some (s', ended)) :
    s'.dp ≤ (if ended then 7 else 8) ∧ s'.nyble ≤ 4 ∧ 0 ≤ s'.bits ∧ s'.bits ≤ 128 := by
  induction text generalizing prev s with
  | nil =>
      obtain ⟨rfl, rfl⟩ := Prod.mk.inj (Option.some.inj hscan)
      exact ⟨h.dp, h.nyble, h.nonneg, h.le⟩
  | cons c rest ih =>
      have hdp := h.dp
      have hnyble := h.nyble
      rw [scan] at hscan
      split at hscan
      · split at hscan
        · cases hscan
        · refine ih ?_ hscan
          exact ⟨hdp, by simp only; omega, h.nonneg, h.le⟩
      · split at hscan
        · split at hscan
          · split at hscan
            · cases hscan
            · refine ih ?_ hscan
              exact ⟨hdp, hnyble, h.nonneg, h.le⟩
          · split at hscan
            · cases hscan
            · refine ih ?_ hscan
              exact ⟨by simp only; omega, le_rfl, h.nonneg, h.le⟩
        · split at hscan
          · split at hscan
            · cases hscan
            · refine ih ?_ hscan
              exact ⟨hdp, hnyble, by simp only; omega, by simp only; omega⟩
          · split at hscan
            · simp only at hscan
              split at hscan
              · cases hscan
              · split at hscan
                · cases hscan
                · obtain ⟨rfl, rfl⟩ := Prod.mk.inj (Option.some.inj hscan)
                  exact ⟨show s.dp + 1 ≤ 8 by omega, hnyble, by simp only; omega, by simp only; omega⟩
            · cases hscan

end ScanV6

/-- `HM_IPV4` and `HM_IPV6` come with a length of their kind. -/
def Netmask.LengthInRange : Netmask → Prop
  | .host => True
  | .ipv4 _ bits => 0 ≤ bits ∧ bits ≤ 32
  | .ipv6 _ bits => 0 ≤ bits ∧ bits ≤ 128

/-- Every access of the parsers is valid and the length that they report is in range. -/
def ParsesSafely (text : Str) : Prop :=
  (parseNetmaskTraced text).Safe ∧ (parseNetmaskTraced text).value.LengthInRange

/-- The number of words that a prefix touches. -/
theorem words_eq {bits : ℤ} (h : 0 ≤ bits) :
    (bits.tdiv 16 + if bits.tmod 16 ≠ 0 then 1 else 0) = (bits + 15) / 16 := by
  rw [Int.tdiv_eq_ediv_of_nonneg h, Int.tmod_eq_emod_of_nonneg h]
  split <;> omega

theorem init_bounded : ScanV6.init.Bounded := ⟨by decide, by decide, by decide, by decide⟩

theorem value_tryParseV6Traced (text : Str) :
    (tryParseV6Traced text).value = tryParseV6Netmask text := by
  unfold tryParseV6Traced tryParseV6Netmask
  simp only [value_bind, ScanV6.value_scanTraced]
  cases hscan : ScanV6.scan text none ScanV6.init with
  | none => rfl
  | some result =>
      obtain ⟨s, ended⟩ := result
      have hbits := (ScanV6.scan_bounded init_bounded hscan).2.2
      simp only [value_bind, ScanV6.value_fillTraced, value_pure]
      rw [words_eq]
      show 0 ≤ if s.finsert = none ∧ s.bits = 0 then _ else s.bits
      split <;> omega

theorem value_parseNetmaskTraced (text : Str) :
    (parseNetmaskTraced text).value = parseNetmask text := by
  unfold parseNetmaskTraced parseNetmask
  split
  · exact value_tryParseV6Traced text
  · split
    · exact value_tryParseV4Traced text
    · rfl

/-- The one access that can fail is the shift behind the loop. -/
theorem tryParseV6Traced_safe_iff (text : Str) :
    (tryParseV6Traced text).Safe ∧ (tryParseV6Traced text).value.LengthInRange ↔
      ¬ ∃ s, ScanV6.scan text none ScanV6.init = some (s, false) ∧ s.dp = 8 := by
  have hvalue := value_tryParseV6Traced text
  have hsafe := ScanV6.scanTraced_safe text none init_bounded
  rw [hvalue]
  unfold tryParseV6Traced tryParseV6Netmask
  rw [safe_bind, ScanV6.value_scanTraced]
  cases hscan : ScanV6.scan text none ScanV6.init with
  | none => simpa [Netmask.LengthInRange] using hsafe
  | some result =>
      obtain ⟨s, ended⟩ := result
      obtain ⟨hdp, hnyble, hnonneg, hle⟩ := ScanV6.scan_bounded init_bounded hscan
      have hdp8 : s.dp ≤ 8 := hdp.trans (by split <;> decide)
      have hended : s.dp = 8 → ended = false := by
        intro h
        cases ended with
        | false => rfl
        | true => exact absurd hdp (by rw [h]; decide)
      obtain ⟨bits, hbits⟩ : ∃ bits : ℤ, bits = if s.align.finsert = none ∧ s.align.bits = 0 then
          ((if ended = true then s.align.dp + 1 else s.align.dp : ℕ) : ℤ) * 16 else s.align.bits :=
        ⟨_, rfl⟩
      have hrange : 0 ≤ bits ∧ bits ≤ 128 := by
        rw [hbits]
        split
        · have hcount : (if ended = true then s.align.dp + 1 else s.align.dp) ≤ 8 := by
            show (if ended = true then s.dp + 1 else s.dp) ≤ 8
            split at hdp <;> rename_i he <;> simp only [he] <;> simp <;> omega
          omega
        · exact ⟨hnonneg, hle⟩
      have hclear : (touch (if bits < 128 ∧ bits.tmod 16 ≠ 0 then
          [.shift (15 - bits.tmod 16), .index .dc (bits.tdiv 16)] else [])).Safe := by
        split
        · rename_i hpart
          rw [Int.tmod_eq_emod_of_nonneg hrange.1, Int.tdiv_eq_ediv_of_nonneg hrange.1,
            safe_touch_pair]
          exact ⟨⟨by omega, by omega⟩, by omega, show bits / 16 < 8 by omega⟩
        · exact fun a ha => by cases ha
      have hwords : 0 ≤ bits.tdiv 16 + if bits.tmod 16 ≠ 0 then 1 else 0 := by
        rw [words_eq hrange.1]
        omega
      simp only [← hbits, safe_bind, ScanV6.safe_align hnyble, safe_pure, and_true]
      constructor
      · rintro ⟨⟨-, hlt, -⟩, -⟩ ⟨s', hs', h8⟩
        obtain ⟨rfl, -⟩ := Prod.mk.inj (Option.some.inj hs')
        omega
      · intro hnot
        have hlt : s.dp < 8 := by
          refine Nat.lt_of_le_of_ne hdp8 fun h8 => hnot ⟨s, ?_, h8⟩
          rw [hended h8]
        exact ⟨⟨hsafe, hlt, ScanV6.fillTraced_safe _ le_rfl le_rfl, hclear, restOf_valid hwords,
          restOf_valid (Int.le_refl 0)⟩, hrange⟩

namespace ScanV6

variable {ws : List ℕ} {finsert : Option ℕ} {g text : Str} {prev : Option Char} {s : ScanV6}

/-- The fields of a text that the scan takes up to a `/`; `g` is what has been read of the first. -/
theorem fields_of_scan (hg : IsField g) (hprev : prev = some ':' ↔ g = [])
    (hscan : scan text prev (within ws finsert g) = some (s, false)) :
    ∃ fields last num, g ++ text = joinColons (fields ++ [last]) ++ '/' :: num ∧
      (∀ f ∈ fields ++ [last], IsField f) ∧ finsert.isSome.toNat + fields.count [] ≤ 1 ∧
      s.dp = ws.length + (fields.filter (· ≠ [])).length + 1 ∧
      (Decimal.strtoul num).2 = [] ∧ 0 ≤ toCInt (Decimal.strtoul num).1 ∧
      (toCInt (Decimal.strtoul num).1 ≤ s.dp * 4 ∨
        (finsert.isSome = true ∨ [] ∈ fields) ∧ toCInt (Decimal.strtoul num).1 ≤ 128) := by
  induction text generalizing ws finsert g prev with
  | nil => cases (Prod.mk.inj (Option.some.inj hscan)).2
  | cons c rest ih =>
      by_cases hhex : isHex c = true
      · by_cases hlen : g.length = 4
        · obtain ⟨v, hv⟩ := Option.isSome_iff_exists.mp hhex
          rw [scan] at hscan
          simp only [hv, within, hlen, Nat.sub_self, if_true] at hscan
          cases hscan
        · have hg' : IsField (g ++ [c]) := by
            refine ⟨?_, fun x hx => ?_⟩
            · have := hg.1
              rw [List.length_append, List.length_singleton]
              omega
            · rcases List.mem_append.mp hx with hx | hx
              · exact hg.2 x hx
              · rwa [List.mem_singleton.mp hx]
          rw [scan_hex hg'] at hscan
          have hc : c ≠ ':' := by
            rintro rfl
            exact absurd hhex (by decide)
          rw [List.append_cons]
          exact ih hg' (by simp [hc]) hscan
      · by_cases hcolon : c = ':'
        · subst hcolon
          by_cases hdouble : prev = some ':'
          · obtain rfl := hprev.mp hdouble
            rw [hdouble, scan_double] at hscan
            split at hscan
            · cases hscan
            · rename_i hnone
              obtain ⟨fields, last, num, heq, hfields, hcount, hdp, hafter, hnonneg, hle⟩ :=
                ih isField_nil (by simp) hscan
              obtain ⟨h, hs, hcons⟩ := List.exists_cons_of_ne_nil
                (List.append_ne_nil_of_right_ne_nil fields (List.cons_ne_nil last []))
              refine ⟨[] :: fields, last, num, ?_, ?_, ?_, ?_, hafter, hnonneg, ?_⟩
              · rw [List.nil_append] at heq ⊢
                rw [heq, List.cons_append, hcons]
                rfl
              · rw [List.cons_append, List.forall_mem_cons]
                exact ⟨isField_nil, hfields⟩
              · simp only [Option.isSome_some, Bool.toNat_true] at hcount
                simp only [hnone, Bool.toNat_false, List.count_cons_self]
                omega
              · rw [hdp]
                simp
              · exact hle.imp_right fun h => ⟨Or.inr List.mem_cons_self, h.2⟩
          · have hgne : g ≠ [] := fun h => hdouble (hprev.mpr h)
            rw [scan_colon hdouble] at hscan
            split at hscan
            · cases hscan
            · obtain ⟨fields, last, num, heq, hfields, hcount, hdp, hafter, hnonneg, hle⟩ :=
                ih isField_nil (by simp) hscan
              obtain ⟨h, hs, hcons⟩ := List.exists_cons_of_ne_nil
                (List.append_ne_nil_of_right_ne_nil fields (List.cons_ne_nil last []))
              refine ⟨g :: fields, last, num, ?_, ?_, ?_, ?_, hafter, hnonneg, ?_⟩
              · rw [List.nil_append] at heq
                rw [heq, List.cons_append, hcons, joinColons, List.append_assoc]
                rfl
              · rw [List.cons_append, List.forall_mem_cons]
                exact ⟨hg, hfields⟩
              · rwa [List.count_cons_of_ne hgne]
              · rw [hdp, List.filter_cons_of_pos (by simpa using hgne), List.length_cons,
                  List.length_append, List.length_singleton]
                omega
              · exact hle.imp_right fun h => ⟨h.1.imp_right (List.mem_cons_of_mem g), h.2⟩
        · have hnone : hexDigit? c = none := by simpa [isHex] using hhex
          by_cases hslash : c = '/'
          · subst hslash
            rw [scan_slash] at hscan
            split at hscan
            · rename_i hacc
              obtain ⟨hnonneg, hafter, hle⟩ := hacc
              obtain rfl := (Prod.mk.inj (Option.some.inj hscan)).1
              refine ⟨[], g, rest, rfl, by simpa using hg, ?_, rfl, hafter, hnonneg, ?_⟩
              · simpa using Bool.toNat_le finsert.isSome
              · exact hle.imp_right fun h => ⟨Or.inl h.1, h.2⟩
            · cases hscan
          · rw [scan] at hscan
            simp only [hnone, if_neg hcolon, if_neg hslash] at hscan
            split at hscan
            · split at hscan
              · cases hscan
              · rename_i hstar
                simp only [not_or, not_not] at hstar
                rw [hstar.2.1] at hscan
                cases (Prod.mk.inj (Option.some.inj hscan)).2
            · cases hscan

theorem layout_fields {fields : List Str} (last : Str)
    (hcount : finsert.isSome.toNat + fields.count [] ≤ 1)
    (hlen : ws.length + (fields.filter (· ≠ [])).length ≤ 7) :
    ∃ ws' finsert', layout ws finsert (fields ++ [last]) = some (ws', finsert', last) ∧
      ws'.length = ws.length + (fields.filter (· ≠ [])).length ∧
      (finsert'.isSome = true ↔ finsert.isSome = true ∨ [] ∈ fields) := by
  induction fields generalizing ws finsert with
  | nil => exact ⟨ws, finsert, rfl, rfl, by simp⟩
  | cons f fields ih =>
      obtain ⟨h, hs, hcons⟩ := List.exists_cons_of_ne_nil
        (List.append_ne_nil_of_right_ne_nil fields (List.cons_ne_nil last []))
      rw [List.cons_append, hcons, layout, ← hcons]
      by_cases hempty : f = []
      · subst hempty
        rw [List.count_cons_self] at hcount
        have hnone : finsert.isSome = false := by
          cases hsome : finsert.isSome with
          | false => rfl
          | true =>
              rw [hsome, Bool.toNat_true] at hcount
              omega
        rw [if_pos rfl, if_neg (by simp [hnone])]
        obtain ⟨ws', finsert', hlayout, hlen', hplace⟩ := @ih ws (some ws.length)
          (by rw [Option.isSome_some, Bool.toNat_true]; omega) (by simpa using hlen)
        exact ⟨ws', finsert', hlayout, by simpa using hlen', by simpa using hplace⟩
      · rw [List.filter_cons_of_pos (by simpa using hempty), List.length_cons] at hlen ⊢
        rw [List.count_cons_of_ne hempty] at hcount
        rw [if_neg hempty, if_neg (by omega)]
        obtain ⟨ws', finsert', hlayout, hlen', hplace⟩ := @ih (ws ++ [hexValue f]) _ hcount
          (by rw [List.length_append, List.length_singleton]; omega)
        refine ⟨ws', finsert', hlayout, ?_, ?_⟩
        · rw [hlen', List.length_append, List.length_singleton]
          omega
        · rw [hplace, List.mem_cons, or_iff_right (Ne.symm hempty)]

end ScanV6

/-- Eight groups, with or without `::`, and a length that the parser takes. -/
def EightGroups (text : Str) : Prop :=
  ∃ first fields last num, text = joinColons (first :: fields ++ [last]) ++ '/' :: num ∧
    (∀ f ∈ first :: fields ++ [last], IsField f) ∧ fields.count [] ≤ 1 ∧
    (fields.filter (· ≠ [])).length = 6 ∧
    (Decimal.strtoul num).2 = [] ∧ 0 ≤ toCInt (Decimal.strtoul num).1 ∧
    (toCInt (Decimal.strtoul num).1 ≤ 32 ∨ [] ∈ fields ∧ toCInt (Decimal.strtoul num).1 ≤ 128)

theorem scan_of_eightGroups {text : Str} (h : EightGroups text) :
    ∃ s, ScanV6.scan text none ScanV6.init = some (s, false) ∧ s.dp = 8 := by
  obtain ⟨first, fields, last, num, rfl, hfields, hcount, hlen, hafter, hnonneg, hle⟩ := h
  obtain ⟨ws, finsert, hlayout, hws, hplace⟩ := @ScanV6.layout_fields [hexValue first]
    none _ last (by simpa using hcount)
      (by rw [List.length_singleton, hlen])
  obtain ⟨h, hs, hcons⟩ := List.exists_cons_of_ne_nil
    (List.append_ne_nil_of_right_ne_nil fields (List.cons_ne_nil last []))
  rw [hlen, List.length_singleton] at hws
  have hacc : ScanV6.Accepts finsert (7 + 1) num := by
    refine ⟨hnonneg, hafter, hle.imp (fun h => by omega) fun h => ⟨hplace.mpr (Or.inr h.1), h.2⟩⟩
  rw [List.cons_append, hcons] at hfields ⊢
  rw [hcons] at hlayout
  refine ⟨{ (ScanV6.within ws finsert last).align with
    dp := 7 + 1
    bits := toCInt (Decimal.strtoul num).1 }, ?_, rfl⟩
  have hdp : (ScanV6.within ws finsert last).dp = 7 := hws
  have hfinsert : (ScanV6.within ws finsert last).finsert = finsert := rfl
  rw [ScanV6.scan_start hfields ScanV6.ends_slash, hlayout, Option.bind_some]
  simp only [ScanV6.scan_slash]
  rw [hdp, hfinsert, if_pos hacc]

theorem eightGroups_of_scan {text : Str} {s : ScanV6}
    (hscan : ScanV6.scan text none ScanV6.init = some (s, false)) (hdp : s.dp = 8) :
    EightGroups text := by
  cases text with
  | nil => cases (Prod.mk.inj (Option.some.inj hscan)).2
  | cons c rest =>
      rw [ScanV6.init_eq_within] at hscan
      by_cases hhex : isHex c = true
      · have hfield : IsField ([] ++ [c]) := ⟨by simp, by simpa using hhex⟩
        rw [ScanV6.scan_hex hfield] at hscan
        have hc : c ≠ ':' := by
          rintro rfl
          exact absurd hhex (by decide)
        obtain ⟨fields, last, num, heq, hfields, hcount, hdp', hafter, hnonneg, hle⟩ :=
          ScanV6.fields_of_scan hfield (by simp [hc]) hscan
        cases fields with
        | nil => simp [hdp] at hdp'
        | cons first fields =>
            have hfirst : first ≠ [] := by
              rintro rfl
              obtain ⟨h, hs, hcons⟩ := List.exists_cons_of_ne_nil
                (List.append_ne_nil_of_right_ne_nil fields (List.cons_ne_nil last []))
              rw [List.cons_append, hcons] at heq
              exact hc (List.cons.inj heq).1
            rw [List.filter_cons_of_pos (by simpa using hfirst), List.length_cons,
              List.length_nil] at hdp'
            rw [List.count_cons_of_ne hfirst, Option.isSome_none, Bool.toNat_false] at hcount
            refine ⟨first, fields, last, num, heq, hfields, by omega, by omega, hafter, hnonneg, ?_⟩
            rw [hdp] at hle
            refine hle.imp (fun h => by omega) fun h => ⟨?_, h.2⟩
            rcases h.1 with h | h
            · cases h
            · exact (List.mem_cons.mp h).resolve_left (Ne.symm hfirst)
      · by_cases hcolon : c = ':'
        · subst hcolon
          rw [ScanV6.scan_colon (by simp), if_neg (by decide)] at hscan
          obtain ⟨fields, last, num, heq, hfields, hcount, hdp', hafter, hnonneg, hle⟩ :=
            ScanV6.fields_of_scan isField_nil (by simp) hscan
          obtain ⟨h, hs, hcons⟩ := List.exists_cons_of_ne_nil
            (List.append_ne_nil_of_right_ne_nil fields (List.cons_ne_nil last []))
          rw [Option.isSome_none, Bool.toNat_false] at hcount
          rw [List.length_append, List.length_singleton, List.length_nil] at hdp'
          refine ⟨[], fields, last, num, ?_, ?_, by omega, by omega, hafter, hnonneg, ?_⟩
          · rw [List.nil_append] at heq
            rw [heq, List.cons_append, hcons]
            rfl
          · rw [List.cons_append, List.forall_mem_cons]
            exact ⟨isField_nil, hfields⟩
          · rw [hdp] at hle
            refine hle.imp (fun h => by omega) fun h => ⟨?_, h.2⟩
            rcases h.1 with h | h
            · cases h
            · exact h
        · have hnone : hexDigit? c = none := by simpa [isHex] using hhex
          by_cases hslash : c = '/'
          · subst hslash
            rw [ScanV6.scan_slash] at hscan
            split at hscan
            · obtain rfl := (Prod.mk.inj (Option.some.inj hscan)).1
              exact absurd hdp (by simp [ScanV6.within])
            · cases hscan
          · rw [ScanV6.scan] at hscan
            simp only [hnone, if_neg hcolon, if_neg hslash] at hscan
            split at hscan
            · have hstart : (ScanV6.within [] none []).finsert.isSome = true ∨ rest ≠ [] ∨
                  (ScanV6.within [] none []).dp = 0 ∨ (none : Option Char) ≠ some ':' :=
                Or.inr (Or.inr (Or.inl rfl))
              rw [if_pos hstart] at hscan
              cases hscan
            · cases hscan

/-- A length that is negative as an `int`, behind digits and at most three dots. -/
def NegativeLength (text : Str) : Prop :=
  ∃ body num, text = body ++ '/' :: num ∧ (∀ c ∈ body, c.isDigit = true ∨ c = '.') ∧
    body.count '.' ≤ 3 ∧ (Decimal.strtoul num).2 = [] ∧ toCInt (Decimal.strtoul num).1 < 0

theorem scanV4_neg {text : Str} {prev : Option Char} {digits ds : List Str} {bits : ℤ}
    (hdigits : 0 < digits.length ∧ digits.length ≤ 4)
    (hscan : scanV4 text prev digits = some (ds, bits)) (hbits : bits < 0) :
    ∃ body num, text = body ++ '/' :: num ∧ (∀ c ∈ body, c.isDigit = true ∨ c = '.') ∧
      digits.length + body.count '.' ≤ 4 ∧ (Decimal.strtoul num).2 = [] ∧
      toCInt (Decimal.strtoul num).1 < 0 := by
  induction text generalizing prev digits with
  | nil =>
      obtain ⟨-, rfl⟩ := Prod.mk.inj (Option.some.inj hscan)
      omega
  | cons c rest ih =>
      rw [scanV4] at hscan
      split at hscan
      · rename_i hdigit
        obtain ⟨body, num, rfl, hbody, hcount, hafter, hneg⟩ := ih hdigits hscan
        refine ⟨c :: body, num, rfl, ?_, ?_, hafter, hneg⟩
        · exact List.forall_mem_cons.mpr ⟨Or.inl hdigit, hbody⟩
        · rwa [List.count_cons_of_ne]
          rintro rfl
          exact absurd hdigit (by decide)
      · split at hscan
        · rename_i hdot
          split at hscan
          · cases hscan
          · rename_i hlen
            obtain ⟨body, num, rfl, hbody, hcount, hafter, hneg⟩ := ih (by simp; omega) hscan
            rw [List.length_append, List.length_singleton] at hcount
            refine ⟨c :: body, num, rfl, ?_, ?_, hafter, hneg⟩
            · exact List.forall_mem_cons.mpr ⟨Or.inr hdot, hbody⟩
            · rw [hdot, List.count_cons_self]
              omega
        · split at hscan
          · split at hscan
            · cases hscan
            · obtain ⟨-, rfl⟩ := Prod.mk.inj (Option.some.inj hscan)
              omega
          · split at hscan
            · rename_i hslash
              simp only at hscan
              split at hscan
              · cases hscan
              · rename_i hvalue
                split at hscan
                · cases hscan
                · obtain ⟨-, rfl⟩ := Prod.mk.inj (Option.some.inj hscan)
                  rw [not_or, not_not] at hvalue
                  exact ⟨[], rest, by rw [hslash]; rfl, by simp, by simpa using hdigits.2, hvalue.2,
                    hbits⟩
            · cases hscan

theorem scanV4_of_neg {body num : Str} {prev : Option Char} {digits : List Str}
    (hbody : ∀ c ∈ body, c.isDigit = true ∨ c = '.') (hcount : digits.length + body.count '.' ≤ 4)
    (hafter : (Decimal.strtoul num).2 = []) (hneg : toCInt (Decimal.strtoul num).1 < 0) :
    ∃ ds, scanV4 (body ++ '/' :: num) prev digits = some (ds, toCInt (Decimal.strtoul num).1) := by
  induction body generalizing prev digits with
  | nil =>
      refine ⟨digits, ?_⟩
      rw [List.nil_append, scanV4]
      simp only [show ('/' : Char).isDigit = false by decide, show ('/' : Char) ≠ '.' by decide,
        show ('/' : Char) ≠ '*' by decide, Bool.false_eq_true, if_true, if_false]
      rw [if_neg (by rw [not_or, not_not]; exact ⟨by omega, hafter⟩), if_neg (by omega)]
  | cons c body ih =>
      have hrest : ∀ x ∈ body, x.isDigit = true ∨ x = '.' := fun x hx =>
        hbody x (List.mem_cons_of_mem c hx)
      rw [List.cons_append, scanV4]
      rcases hbody c List.mem_cons_self with hc | rfl
      · rw [if_pos hc]
        refine ih hrest ?_
        rwa [List.count_cons_of_ne] at hcount
        rintro rfl
        exact absurd hc (by decide)
      · rw [List.count_cons_self] at hcount
        rw [if_neg (by decide), if_pos rfl, if_neg (by omega)]
        exact ih hrest (by rw [List.length_append, List.length_singleton]; omega)

theorem scanV4_le {text : Str} {prev : Option Char} {digits ds : List Str} {bits : ℤ}
    (hdigits : 0 < digits.length ∧ digits.length ≤ 4)
    (hscan : scanV4 text prev digits = some (ds, bits)) :
    0 < ds.length ∧ ds.length ≤ 4 ∧ bits ≤ 32 := by
  induction text generalizing prev digits with
  | nil =>
      obtain ⟨rfl, rfl⟩ := Prod.mk.inj (Option.some.inj hscan)
      exact ⟨hdigits.1, hdigits.2, by decide⟩
  | cons c rest ih =>
      rw [scanV4] at hscan
      split at hscan
      · exact ih hdigits hscan
      · split at hscan
        · split at hscan
          · cases hscan
          · exact ih (by simp; omega) hscan
        · split at hscan
          · split at hscan
            · cases hscan
            · obtain ⟨rfl, rfl⟩ := Prod.mk.inj (Option.some.inj hscan)
              exact ⟨hdigits.1, hdigits.2, by omega⟩
          · split at hscan
            · simp only at hscan
              split at hscan
              · cases hscan
              · split at hscan
                · cases hscan
                · obtain ⟨rfl, rfl⟩ := Prod.mk.inj (Option.some.inj hscan)
                  exact ⟨hdigits.1, hdigits.2, by omega⟩
            · cases hscan

theorem scanV4Traced_safe {text : Str} {prev : Option Char} {digits : List Str} :
    (scanV4Traced text prev digits).Safe := by
  induction text generalizing prev digits with
  | nil => exact safe_pure _
  | cons c rest ih =>
      rw [scanV4Traced]
      split
      · exact ih
      · split
        · split
          · exact safe_pure _
          · rw [safe_bind, safe_touch, List.forall_mem_singleton]
            exact ⟨⟨by omega, show (digits.length : ℤ) < 4 by omega⟩, ih⟩
        · split
          · split <;> exact safe_pure _
          · split
            · simp only
              split
              · exact safe_pure _
              · split <;> exact safe_pure _
            · exact safe_pure _

theorem tryParseV4Traced_safe_iff (text : Str) :
    (tryParseV4Traced text).Safe ∧ (tryParseV4Traced text).value.LengthInRange ↔
      ¬ NegativeLength text := by
  have hvalue := value_tryParseV4Traced text
  have hstart : 0 < [text].length ∧ [text].length ≤ 4 := ⟨Nat.one_pos, by simp⟩
  have hneg : NegativeLength text ↔ ∃ ds bits, scanV4 text none [text] = some (ds, bits) ∧ bits < 0 := by
    constructor
    · rintro ⟨body, num, rfl, hbody, hcount, hafter, hneg⟩
      obtain ⟨ds, hscan⟩ := @scanV4_of_neg body num none [body ++ '/' :: num] hbody
        (by rw [List.length_singleton]; omega) hafter hneg
      exact ⟨ds, _, hscan, hneg⟩
    · rintro ⟨ds, bits, hscan, hbits⟩
      obtain ⟨body, num, heq, hbody, hcount, hafter, hneg⟩ := scanV4_neg hstart hscan hbits
      rw [List.length_singleton] at hcount
      exact ⟨body, num, heq, hbody, by omega, hafter, hneg⟩
  rw [hneg, hvalue]
  unfold tryParseV4Traced tryParseV4Netmask
  rw [safe_bind, safe_bind, value_scanV4Traced]
  cases hscan : scanV4 text none [text] with
  | none => simpa [Netmask.LengthInRange, safe_touch, MaskAccess.Valid, MaskArray.size]
      using scanV4Traced_safe
  | some result =>
      obtain ⟨digits, bits⟩ := result
      obtain ⟨hpos, hlen, hle⟩ := scanV4_le hstart hscan
      simp only [safe_bind, safe_pure, and_true]
      obtain ⟨bits', hbits'⟩ : ∃ bits' : ℤ, bits' =
          if digits.length < 4 ∧ bits = 0 then (digits.length : ℤ) * 8 else bits := ⟨_, rfl⟩
      obtain ⟨last, hlast⟩ : ∃ last : ℤ, last = if bits' = 0 then 32 else bits' := ⟨_, rfl⟩
      have hsign : 0 ≤ last ∧ last ≤ 32 ↔ 0 ≤ bits := by
        rw [hlast, hbits']
        split <;> split <;> omega
      simp only [← hbits', ← hlast]
      constructor
      · rintro ⟨-, hrange⟩ ⟨ds, value, heq, hvalue⟩
        obtain ⟨-, rfl⟩ := Prod.mk.inj (Option.some.inj heq)
        have := hsign.mp hrange
        omega
      · intro hnot
        have hrange : 0 ≤ last ∧ last ≤ 32 :=
          hsign.mpr (Int.not_lt.mp fun h => hnot ⟨digits, bits, rfl, h⟩)
        have hzero : (touch [.index .digits 0]).Safe := by
          simp [MaskAccess.Valid, MaskArray.size]
        have hpad : (touch (if bits' ≠ 0 then restOf .digits digits.length else [])).Safe := by
          split
          · exact restOf_valid (by omega)
          · exact fun a ha => by cases ha
        have hread : (touch (restOf .addb 0 ++ restOf .digits 0)).Safe :=
          List.forall_mem_append.mpr ⟨restOf_valid (Int.le_refl 0), restOf_valid (Int.le_refl 0)⟩
        have hclear : (touch (if last < 32 ∧ last.tmod 8 ≠ 0 then
            [.shift (8 - last.tmod 8), .index .addb (last.tdiv 8)] else [])).Safe := by
          split
          · rename_i hpart
            rw [Int.tmod_eq_emod_of_nonneg hrange.1, Int.tdiv_eq_ediv_of_nonneg hrange.1,
              safe_touch_pair]
            exact ⟨⟨by omega, by omega⟩, by omega, show last / 8 < 4 by omega⟩
          · exact fun a ha => by cases ha
        have hbytes : 0 ≤ last.tdiv 8 + if last.tmod 8 ≠ 0 then 1 else 0 := by
          rw [Int.tdiv_eq_ediv_of_nonneg hrange.1]
          split <;> omega
        have hstore : (touch ([.shift 24, .shift 16, .shift 8] ++ restOf .addb 0)).Safe := by
          refine List.forall_mem_append.mpr ⟨?_, restOf_valid (Int.le_refl 0)⟩
          simp [MaskAccess.Valid]
        exact ⟨⟨hzero, scanV4Traced_safe, hpad, hread, hclear, restOf_valid hbytes, hstore⟩, hrange⟩

theorem parsesSafely_iff (text : Str) : ParsesSafely text ↔
    (':' ∈ text → ¬ EightGroups text) ∧
      (':' ∉ text → '.' ∈ text → ¬ NegativeLength text) := by
  unfold ParsesSafely parseNetmaskTraced
  by_cases hcolon : ':' ∈ text
  · simp only [if_pos hcolon]
    rw [tryParseV6Traced_safe_iff]
    have hgroups : (∃ s, ScanV6.scan text none ScanV6.init = some (s, false) ∧ s.dp = 8) ↔
        EightGroups text :=
      ⟨fun ⟨_, hscan, hdp⟩ => eightGroups_of_scan hscan hdp, scan_of_eightGroups⟩
    rw [hgroups]
    exact ⟨fun h => ⟨fun _ => h, fun h' => absurd hcolon h'⟩, fun h => h.1 hcolon⟩
  · simp only [if_neg hcolon]
    by_cases hdot : '.' ∈ text
    · simp only [if_pos hdot]
      rw [tryParseV4Traced_safe_iff]
      exact ⟨fun h => ⟨fun h' => absurd h' hcolon, fun _ _ => h⟩, fun h => h.2 hcolon hdot⟩
    · simp only [if_neg hdot]
      exact iff_of_true ⟨safe_pure _, trivial⟩ ⟨fun h => absurd h hcolon, fun _ h => absurd h hdot⟩

/-- A shift of the ninth element of `d`. -/
theorem not_parsesSafely : ¬ ∀ text, ParsesSafely text := by
  intro h
  have hvalid := (h "1:2:3:4:5:6:7:8/32".toList).1 (.index .d 8) (by decide)
  exact absurd hvalid (by decide)

end Unirc
