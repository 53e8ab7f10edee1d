import Mathlib.Algebra.Order.Ring.Nat
import Mathlib.Algebra.BigOperators.Group.List.Basic
import Mathlib.Tactic.Common

/-!
# Cleaning a text

`clean_string` of `irc_string.c` replaces the bytes of a text that are not printable. The count of
the bytes left in `dest` is a `size_t` that is tested at the head of the loop only, and it goes down
by two for a byte that is replaced, so it can step over zero. Both pointers are there, as the two
assertions say.
-/

namespace Unirc

/-- A C string of any bytes, shorter than half of the address space as every object is. -/
structure CString where
  bytes : List UInt8
  no_nul : 0 ∉ bytes
  fits : bytes.length < 2 ^ 63

/-- `IsPrint`: the entries of `CharAttrs` with `PRINT_C` -/
def isPrint (b : UInt8) : Bool := 0x20 ≤ b && b ≤ 0x7e

/-- What `clean_string` leaves: the text in `dest`, before its NUL, and what `src` points at. -/
structure Cleaned where
  dest : List UInt8
  src : List UInt8
deriving DecidableEq

/-- The loop, with the bytes written so far. The end of the list is the NUL of `src`. -/
def cleanLoop (d : List UInt8) : List UInt8 → BitVec 64 → Cleaned
  | [], _ => ⟨d, []⟩
  | b :: src, len =>
      if len = 0 then ⟨d, b :: src⟩
      else if b &&& 0x80 ≠ 0 then cleanLoop (d ++ [0x2e]) src (len - 1 - 1)
      else if isPrint b = false then cleanLoop (d ++ [0x5e] ++ [0x40 + b]) src (len - 1 - 1)
      else cleanLoop (d ++ [b]) src (len - 1)

def cleanString (src : CString) (len : BitVec 64) : Cleaned := cleanLoop [] src.bytes (len - 3)

/-- The text and its NUL fit into `len` bytes, the text is printable, and a prefix of the source
was read. -/
structure Cleaned.Good (c : Cleaned) (src : CString) (len : BitVec 64) : Prop where
  fits : c.dest.length + 1 ≤ len.toNat
  printable : ∀ b ∈ c.dest, isPrint b = true
  read : c.src <:+ src.bytes

section Bytes

/-- What the loop takes off the count for a byte. -/
def cost (b : UInt8) : ℕ := if isPrint b then 1 else 2

/-- How many bytes the loop writes for a byte. -/
def width (b : UInt8) : ℕ := if isPrint b = false ∧ b < 0x80 then 2 else 1

def costs (s : List UInt8) : ℕ := (s.map cost).sum

def widths (s : List UInt8) : ℕ := (s.map width).sum

def cleanByte (b : UInt8) : List UInt8 :=
  if b &&& 0x80 ≠ 0 then [0x2e] else if isPrint b = false then [0x5e, 0x40 + b] else [b]

theorem and_high : ∀ n < 256, n &&& 0x80 ≠ 0 ↔ 0x80 ≤ n := by
  decide +kernel

theorem high_iff (b : UInt8) : b &&& 0x80 ≠ 0 ↔ 0x80 ≤ b.toNat := by
  rw [← and_high b.toNat b.toNat_lt, Ne, ← UInt8.toNat_inj, UInt8.toNat_and]
  rfl

theorem isPrint_iff (b : UInt8) : isPrint b = true ↔ 0x20 ≤ b.toNat ∧ b.toNat ≤ 0x7e := by
  simp [isPrint, UInt8.le_iff_toNat_le]

theorem isPrint_of_high {b : UInt8} (h : b &&& 0x80 ≠ 0) : isPrint b = false := by
  rw [Bool.eq_false_iff, Ne, isPrint_iff]
  have := (high_iff b).mp h
  omega

theorem cleanByte_length (b : UInt8) : (cleanByte b).length = width b := by
  have hlt : b < 0x80 ↔ ¬ b &&& 0x80 ≠ 0 := by
    rw [high_iff, UInt8.lt_iff_toNat_lt, Nat.not_le]
    rfl
  unfold cleanByte width
  simp only [hlt]
  by_cases hh : b &&& 0x80 ≠ 0
  · simp [hh]
  · cases hp : isPrint b <;> simp [hh]

/-- DEL is the one byte whose replacement is not printable. -/
theorem cleanByte_printable (b : UInt8) : (∀ c ∈ cleanByte b, isPrint c = true) ↔ b ≠ 0x7f := by
  have hdel : b = 0x7f ↔ b.toNat = 0x7f := UInt8.toNat_inj.symm
  have hlt := b.toNat_lt
  rw [Ne, hdel]
  unfold cleanByte
  by_cases hh : b &&& 0x80 ≠ 0
  · have := (high_iff b).mp hh
    rw [if_pos hh]
    refine iff_of_true ?_ (by omega)
    simp [isPrint_iff]
  · have hlow := mt (high_iff b).mpr hh
    rw [if_neg hh]
    cases hp : isPrint b with
    | true =>
        have := (isPrint_iff b).mp hp
        refine iff_of_true ?_ (by omega)
        simpa using hp
    | false =>
        have hnot := mt (isPrint_iff b).mpr (by simp [hp])
        simp [isPrint_iff, UInt8.toNat_add]
        omega

theorem cost_pos (b : UInt8) : 0 < cost b := by
  unfold cost
  split <;> omega

theorem cost_le (b : UInt8) : cost b ≤ 2 := by
  unfold cost
  split <;> omega

theorem width_le_cost (b : UInt8) : width b ≤ cost b := by
  unfold width cost
  split <;> split <;> simp_all

@[simp] theorem costs_nil : costs [] = 0 := rfl

@[simp] theorem costs_cons (b : UInt8) (s : List UInt8) : costs (b :: s) = cost b + costs s := by
  simp [costs]

@[simp] theorem costs_append (s t : List UInt8) : costs (s ++ t) = costs s + costs t := by
  simp [costs]

theorem costs_le (s : List UInt8) : costs s ≤ 2 * s.length := by
  induction s with
  | nil => simp
  | cons b s ih =>
      have := cost_le b
      simp only [costs_cons, List.length_cons]
      omega

theorem widths_le_costs (s : List UInt8) : widths s ≤ costs s := by
  induction s with
  | nil => simp [widths]
  | cons b s ih =>
      have := width_le_cost b
      simp only [widths, List.map_cons, List.sum_cons, costs_cons] at ih ⊢
      omega

theorem flatMap_cleanByte_length (s : List UInt8) : (s.flatMap cleanByte).length = widths s := by
  simp [widths, List.length_flatMap, cleanByte_length]

theorem flatMap_cleanByte_printable (s : List UInt8) :
    (∀ c ∈ s.flatMap cleanByte, isPrint c = true) ↔ 0x7f ∉ s := by
  constructor
  · intro h hm
    apply (cleanByte_printable 0x7f).mp _ rfl
    intro c hc
    exact h c (List.mem_flatMap.mpr ⟨_, hm, hc⟩)
  · intro h c hc
    obtain ⟨b, hb, hc⟩ := List.mem_flatMap.mp hc
    exact (cleanByte_printable b).mpr (fun he => h (he ▸ hb)) c hc

end Bytes

section Loop

/-- One byte is left of the count `n` when a byte comes that takes two. -/
def Overruns (n : ℕ) (s : List UInt8) : Prop :=
  ∃ pre b post, s = pre ++ b :: post ∧ isPrint b = false ∧ costs pre + 1 = n

theorem cleanLoop_cons (d : List UInt8) (b : UInt8) (src : List UInt8) {len : BitVec 64}
    (h : len ≠ 0) : cleanLoop d (b :: src) len =
      cleanLoop (d ++ cleanByte b) src (len - BitVec.ofNat 64 (cost b)) := by
  have h2 : len - 1 - 1 = len - BitVec.ofNat 64 2 := by
    rw [BitVec.sub_sub]
    rfl
  rw [cleanLoop, if_neg h, cleanByte, cost]
  by_cases hh : b &&& 0x80 ≠ 0
  · rw [if_pos hh, if_pos hh, isPrint_of_high hh, h2]
    rfl
  · rw [if_neg hh, if_neg hh]
    cases hp : isPrint b with
    | false =>
        rw [if_pos rfl, if_pos rfl, h2, List.append_assoc]
        rfl
    | true => simp

theorem toNat_sub_cost {len : BitVec 64} {n : ℕ} (h : n ≤ len.toNat) :
    (len - BitVec.ofNat 64 n).toNat = len.toNat - n := by
  have := len.isLt
  rw [BitVec.toNat_sub_of_le, BitVec.toNat_ofNat, Nat.mod_eq_of_lt (by omega)]
  rw [BitVec.le_def, BitVec.toNat_ofNat, Nat.mod_eq_of_lt (by omega)]
  exact h

theorem cleanLoop_append (d pre post : List UInt8) {len : BitVec 64}
    (h : costs pre ≤ len.toNat) : cleanLoop d (pre ++ post) len =
      cleanLoop (d ++ pre.flatMap cleanByte) post (len - BitVec.ofNat 64 (costs pre)) := by
  induction pre generalizing d len with
  | nil => simp
  | cons b pre ih =>
      rw [costs_cons] at h
      have hpos := cost_pos b
      have hz : len ≠ 0 := by
        rintro rfl
        simp at h
        omega
      have hle : costs pre ≤ (len - BitVec.ofNat 64 (cost b)).toNat := by
        rw [toNat_sub_cost (by omega)]
        omega
      rw [List.cons_append, cleanLoop_cons _ _ _ hz, ih _ hle, costs_cons, BitVec.ofNat_add,
        BitVec.sub_sub, List.flatMap_cons, List.append_assoc]

theorem cleanLoop_zero (d src : List UInt8) : cleanLoop d src 0 = ⟨d, src⟩ := by
  cases src <;> simp [cleanLoop]

/-- The count comes to zero or the source ends. -/
theorem cleanLoop_stops (d pre post : List UInt8) {len : BitVec 64} (h : costs pre ≤ len.toNat)
    (hp : post = [] ∨ costs pre = len.toNat) :
    cleanLoop d (pre ++ post) len = ⟨d ++ pre.flatMap cleanByte, post⟩ := by
  rw [cleanLoop_append _ _ _ h]
  rcases hp with rfl | hc
  · rfl
  · have hz : len - BitVec.ofNat 64 (costs pre) = 0 := by
      apply BitVec.eq_of_toNat_eq
      rw [toNat_sub_cost h, hc, Nat.sub_self]
      rfl
    rw [hz, cleanLoop_zero]

/-- A count that steps over zero is as good as none: the rest of the source is copied. -/
theorem cleanLoop_overruns (d : List UInt8) {s : List UInt8} {len : BitVec 64}
    (hl : s.length < 2 ^ 63) (h : Overruns len.toNat s) :
    cleanLoop d s len = ⟨d ++ s.flatMap cleanByte, []⟩ := by
  obtain ⟨pre, b, post, rfl, hb, hc⟩ := h
  have hone : len - BitVec.ofNat 64 (costs pre) = 1 := by
    apply BitVec.eq_of_toNat_eq
    rw [toNat_sub_cost (by omega), ← hc, Nat.add_sub_cancel_left]
    rfl
  have htop : costs post ≤ (1 - BitVec.ofNat 64 2 : BitVec 64).toNat := by
    have h1 := costs_le post
    have h2 : (1 - BitVec.ofNat 64 2 : BitVec 64).toNat = 2 ^ 64 - 1 := by decide
    rw [List.length_append, List.length_cons] at hl
    omega
  have htwo : cost b = 2 := by simp [cost, hb]
  have hall := cleanLoop_stops (d ++ pre.flatMap cleanByte ++ cleanByte b) post [] htop (Or.inl rfl)
  rw [List.append_nil] at hall
  rw [cleanLoop_append _ _ _ (by omega), hone, cleanLoop_cons _ _ _ (by decide), htwo, hall]
  simp

theorem not_overruns_of_stop {n : ℕ} {pre post : List UInt8} (h : costs pre ≤ n)
    (hp : post = [] ∨ costs pre = n) : ¬ Overruns n (pre ++ post) := by
  rintro ⟨p, b, q, he, hb, hc⟩
  have htwo : cost b = 2 := by simp [cost, hb]
  rcases List.append_eq_append_iff.mp he with ⟨t, rfl, ht⟩ | ⟨t, rfl, ht⟩
  · rw [costs_append] at hc
    rcases hp with rfl | hp
    · simp at ht
    · omega
  · cases t with
    | nil =>
        rcases hp with rfl | hp
        · simp at ht
        · simp only [List.append_nil] at hp
          omega
    | cons a t =>
        obtain ⟨rfl, -⟩ := List.cons_eq_cons.mp ht
        simp only [costs_append, costs_cons] at h
        omega

/-- The walk along a source ends at a stop or steps over zero. -/
theorem stop_or_overruns (n : ℕ) (s : List UInt8) :
    (∃ pre post, s = pre ++ post ∧ costs pre ≤ n ∧ (post = [] ∨ costs pre = n)) ∨
      Overruns n s := by
  induction s generalizing n with
  | nil => exact Or.inl ⟨[], [], rfl, Nat.zero_le n, Or.inl rfl⟩
  | cons b s ih =>
      by_cases hz : n = 0
      · exact Or.inl ⟨[], b :: s, rfl, Nat.zero_le n, Or.inr hz.symm⟩
      · by_cases hc : cost b ≤ n
        · rcases ih (n - cost b) with ⟨pre, post, rfl, hle, hp⟩ | ⟨pre, a, post, rfl, ha, hp⟩
          · refine Or.inl ⟨b :: pre, post, rfl, ?_, hp.imp_right ?_⟩
            · rw [costs_cons]
              omega
            · intro he
              rw [costs_cons]
              omega
          · refine Or.inr ⟨b :: pre, a, post, rfl, ha, ?_⟩
            rw [costs_cons]
            omega
        · have hb : isPrint b = false := by
            by_contra hb
            rw [Bool.not_eq_false] at hb
            rw [cost, if_pos hb] at hc
            omega
          have htwo : cost b = 2 := by simp [cost, hb]
          exact Or.inr ⟨[], b, s, rfl, hb, by rw [costs_nil]; omega⟩

end Loop

section Main

variable (s : CString) (len : BitVec 64)

theorem cleanString_read : (cleanString s len).src <:+ s.bytes := by
  rcases stop_or_overruns (len - 3).toNat s.bytes with ⟨pre, post, hs, hle, hp⟩ | ho
  · refine ⟨pre, ?_⟩
    rw [cleanString, hs, cleanLoop_stops _ _ _ hle hp]
  · rw [cleanString, cleanLoop_overruns _ s.fits ho]
    exact List.nil_suffix

variable {s len}

theorem good_iff_of_overruns (h : Overruns (len - 3).toNat s.bytes) :
    (cleanString s len).Good s len ↔ widths s.bytes < len.toNat ∧ 0x7f ∉ s.bytes := by
  have he : cleanString s len = ⟨s.bytes.flatMap cleanByte, []⟩ := by
    rw [cleanString, cleanLoop_overruns _ s.fits h, List.nil_append]
  constructor
  · intro hg
    have hfits := hg.fits
    have hprint := hg.printable
    rw [he] at hfits hprint
    rw [flatMap_cleanByte_length] at hfits
    exact ⟨hfits, (flatMap_cleanByte_printable _).mp hprint⟩
  · rintro ⟨hw, hd⟩
    refine ⟨?_, ?_, cleanString_read s len⟩
    · rw [he, flatMap_cleanByte_length]
      exact hw
    · rw [he]
      exact (flatMap_cleanByte_printable _).mpr hd

theorem good_iff_of_stop {pre post : List UInt8} (hlen : 4 ≤ len.toNat)
    (hs : s.bytes = pre ++ post) (hle : costs pre ≤ (len - 3).toNat)
    (hp : post = [] ∨ costs pre = (len - 3).toNat) :
    (cleanString s len).Good s len ↔ 0x7f ∉ pre := by
  have he : cleanString s len = ⟨pre.flatMap cleanByte, post⟩ := by
    rw [cleanString, hs, cleanLoop_stops _ _ _ hle hp, List.nil_append]
  have hsub : (len - 3).toNat = len.toNat - 3 := toNat_sub_cost (n := 3) (by omega)
  constructor
  · intro hg
    have hprint := hg.printable
    rw [he] at hprint
    exact (flatMap_cleanByte_printable _).mp hprint
  · intro hd
    refine ⟨?_, ?_, cleanString_read s len⟩
    · have := widths_le_costs pre
      rw [he, flatMap_cleanByte_length]
      omega
    · rw [he]
      exact (flatMap_cleanByte_printable _).mpr hd

/-- The bytes in front of the stop are those that fewer than `n` were taken off for. -/
theorem notMem_read_iff {n : ℕ} {pre post : List UInt8} {b : UInt8} (hle : costs pre ≤ n)
    (hp : post = [] ∨ costs pre = n) :
    b ∉ pre ↔ ∀ p q, pre ++ post = p ++ b :: q → n ≤ costs p := by
  constructor
  · intro hm p q he
    rcases List.append_eq_append_iff.mp he with ⟨t, rfl, ht⟩ | ⟨t, rfl, ht⟩
    · rcases hp with rfl | hc
      · simp at ht
      · rw [costs_append]
        omega
    · cases t with
      | nil =>
          rcases hp with rfl | hc
          · simp at ht
          · rw [List.append_nil] at hc
            omega
      | cons a t =>
          obtain ⟨rfl, -⟩ := List.cons_eq_cons.mp ht
          simp at hm
  · intro h hm
    obtain ⟨p, q, rfl⟩ := List.mem_iff_append.mp hm
    have hn := h p (q ++ post) (by simp)
    have := cost_pos b
    rw [costs_append, costs_cons] at hle
    omega

end Main

/-- DEL is replaced by a byte that is not printable either, and a replaced byte that comes when one
byte is left of the count has the whole of the source copied. -/
theorem cleanString_good_iff (s : CString) (len : BitVec 64) (hlen : 4 ≤ len.toNat) :
    (cleanString s len).Good s len ↔
      (∀ pre post, s.bytes = pre ++ 0x7f :: post → len.toNat - 3 ≤ costs pre) ∧
      (Overruns (len.toNat - 3) s.bytes → widths s.bytes < len.toNat ∧ 0x7f ∉ s.bytes) := by
  have hsub : (len - 3).toNat = len.toNat - 3 := toNat_sub_cost (n := 3) (by omega)
  rw [← hsub]
  rcases stop_or_overruns (len - 3).toNat s.bytes with ⟨pre, post, hs, hle, hp⟩ | ho
  · have hno : ¬ Overruns (len - 3).toNat s.bytes := hs ▸ not_overruns_of_stop hle hp
    rw [good_iff_of_stop hlen hs hle hp, notMem_read_iff hle hp, ← hs]
    exact (and_iff_left fun ho => absurd ho hno).symm
  · rw [good_iff_of_overruns ho]
    constructor
    · intro h
      refine ⟨?_, fun _ => h⟩
      intro pre post he
      exact absurd (by simp [he]) h.2
    · intro h
      exact h.2 ho

/-- A control byte and text behind it, for the smallest size. -/
def garbage : CString := ⟨[0x01, 0x41, 0x41, 0x41, 0x41], by decide, by decide⟩

theorem garbage_not_good : ¬ (cleanString garbage 4).Good garbage 4 := by
  rw [cleanString_good_iff garbage 4 (by decide)]
  rintro ⟨-, h⟩
  have ho : Overruns 1 garbage.bytes := ⟨[], 0x01, [0x41, 0x41, 0x41, 0x41], rfl, rfl, rfl⟩
  exact absurd (h ho).1 (by decide)

theorem not_forall_cleanString_good :
    ¬ ∀ (s : CString) (len : BitVec 64), 4 ≤ len.toNat → (cleanString s len).Good s len := by
  intro h
  have := (h garbage 4 (by decide)).fits
  revert this
  decide

end Unirc
