import Mathlib.Algebra.Order.Group.Int
import Mathlib.Data.List.Find
import Mathlib.Data.List.TakeWhile
import Unirc.BinarySearch
import Unirc.CsvFields
import Unirc.Decimal

/-!
# Capability names

`find_cap` of `m_cap.c`. A name is searched while it stands inside of a longer text, and the
cursor moves to the end of its element.
-/

namespace Unirc

open Decimal (isSpace)

/-- An entry of `capab_list`. -/
structure Capability where
  cap : U32
  flags : U32
  name : Str
  deriving DecidableEq

abbrev CAPFL_HIDDEN : U32 := 0x0001
abbrev CAPFL_PROHIBIT : U32 := 0x0002
abbrev CAPFL_PROTO : U32 := 0x0004
abbrev CAPFL_STICKY : U32 := 0x0008

abbrev CAP_MULTI_PREFIX : U32 := 0x0001
abbrev CAP_UHNAMES : U32 := 0x0002

/-- A table of capabilities, sorted, with a bit of its own for each. -/
structure CapabTable where
  list : List Capability
  sorted : list.Pairwise fun a b => a.name.map toLower < b.name.map toLower
  printed : ∀ a ∈ list, ∀ c ∈ a.name, ' '.toNat < c.toNat
  named : ∀ a ∈ list, a.name ≠ []
  short : ∀ a ∈ list, a.name.length ≤ 500
  disjoint : list.Pairwise fun a b => a.cap &&& b.cap = 0
  bit : ∀ a ∈ list, a.cap ≠ 0

def capabList : CapabTable where
  list := [⟨CAP_MULTI_PREFIX, 0, "multi-prefix".toList⟩, ⟨CAP_UHNAMES, 0, "uhnames".toList⟩]
  sorted := by decide +kernel
  printed := by
    simp only [List.forall_mem_cons]
    exact ⟨by simp, by simp, by simp⟩
  named := by decide +kernel
  short := by simp
  disjoint := by decide +kernel
  bit := by decide +kernel

/-- `capab_search`. -/
def capabSearch : Str → Str → ℤ
  | [], [] => 0
  | [], r :: _ => -(toLower r).toNat
  | k :: _, [] => if isSpace k then 0 else (toLower k).toNat
  | k :: key, r :: rb =>
      if toLower k = toLower r then capabSearch key rb
      else (toLower k).toNat - (toLower r).toNat

/-- The element at the start of a text, and the text behind it. -/
def element (t : Str) : Str := t.takeWhile (!isSpace ·)

def behind (t : Str) : Str := t.dropWhile (!isSpace ·)

/-- The sign of an element, and what is behind the sign. -/
def splitSign (t : Str) : Bool × Str :=
  match t with
  | '-' :: t => (true, t)
  | t => (false, t)

structure CapFound where
  cap : Option Capability
  neg : Bool
  next : Option Str
  deriving DecidableEq

namespace CapabTable

variable (T : CapabTable)

/-- `find_cap`. -/
def findCap (caplist : Str) : CapFound :=
  let (neg, caplist) := splitSign (caplist.dropWhile isSpace)
  let cap := if caplist = [] then none
    else BinarySearch.bsearch (fun c => capabSearch caplist c.name) T.list
  let caplist := match cap with
    | none => behind caplist
    | some c => caplist.drop c.name.length
  ⟨cap, neg, if caplist = [] then none else some caplist⟩

/-- The capability that an element names. -/
def lookup (e : Str) : Option Capability :=
  T.list.find? fun c => c.name.map toLower = e.map toLower

end CapabTable

/-- The elements of a text. -/
def capWords (t : Str) : List Str := (t.splitOnP isSpace).filter (· ≠ [])

section Search

variable {key name : Str}

theorem toNat_toLower_pos {c : Char} (h : c ≠ NUL) : 0 < (toLower c).toNat := by
  have hc : c.toNat ≠ 0 := fun h0 => h (Char.toNat_inj.mp h0)
  rw [toNat_toLower]
  split_ifs <;> omega

theorem isSpace_le {c : Char} (h : isSpace c = true) : c.toNat ≤ 32 := by
  simp only [isSpace, Bool.or_eq_true, decide_eq_true_eq, Bool.and_eq_true] at h
  rcases h with rfl | ⟨-, h⟩
  · decide
  · omega

theorem isSpace_eq_false {c : Char} (h : ' '.toNat < c.toNat) : isSpace c = false := by
  cases hc : isSpace c with
  | false => rfl
  | true => exact absurd (isSpace_le hc) (Nat.not_le_of_lt h)

theorem toLower_space {c : Char} (h : isSpace c = true) : toLower c = c := by
  have hle := isSpace_le h
  rw [← Char.toNat_inj, toNat_toLower, if_neg (by omega)]

theorem lt_toNat_toLower {c : Char} (h : ' '.toNat < c.toNat) : 32 < (toLower c).toNat := by
  have h32 : 32 < c.toNat := h
  rw [toNat_toLower]
  split_ifs <;> omega

/-- The comparison is the lexicographic order of the element and the name, folded. -/
theorem capabSearch_iff (hkey : NUL ∉ key) (hname : ∀ c ∈ name, ' '.toNat < c.toNat) :
    (capabSearch key name < 0 ↔ (element key).map toLower < name.map toLower) ∧
      (capabSearch key name = 0 ↔ name.map toLower = (element key).map toLower) := by
  fun_induction capabSearch key name with
  | case1 => simp [element]
  | case2 r rb =>
      have hr := lt_toNat_toLower (hname r List.mem_cons_self)
      refine ⟨iff_of_true (by omega) ?_, iff_of_false (by omega) (by simp [element])⟩
      exact List.Lex.nil
  | case3 k key hk => simp [element, hk]
  | case4 k key hk =>
      have hpos := toNat_toLower_pos (fun h => hkey (h ▸ List.mem_cons_self) : k ≠ NUL)
      refine ⟨iff_of_false (by omega) (by simp), iff_of_false (by omega) ?_⟩
      simp [element, hk]
  | case5 k key r rb heq ih =>
      have hr := lt_toNat_toLower (hname r List.mem_cons_self)
      have hk : isSpace k = false := by
        cases hk : isSpace k with
        | false => rfl
        | true =>
            have hle := isSpace_le hk
            rw [← heq, toLower_space hk] at hr
            omega
      have ih := ih (fun h => hkey (List.mem_cons_of_mem _ h))
        (fun c hc => hname c (List.mem_cons_of_mem _ hc))
      have helement : element (k :: key) = k :: element key := by simp [element, hk]
      rw [helement, List.map_cons, List.map_cons, heq, List.cons_lt_cons_self]
      simpa using ih
  | case6 k key r rb hne =>
      have hr := lt_toNat_toLower (hname r List.mem_cons_self)
      have hne' : (toLower k).toNat ≠ (toLower r).toNat := fun h => hne (Char.toNat_inj.mp h)
      cases hk : isSpace k with
      | true =>
          have hle := isSpace_le hk
          have hnil : element (k :: key) = [] := by simp [element, hk]
          rw [hnil, toLower_space hk]
          exact ⟨iff_of_true (by omega) List.Lex.nil, iff_of_false (by omega) (by simp)⟩
      | false =>
          have helement : element (k :: key) = k :: element key := by simp [element, hk]
          rw [helement, List.map_cons, List.map_cons]
          refine ⟨?_, iff_of_false (by omega) fun h => hne (List.cons.inj h).1.symm⟩
          rw [List.cons_lt_cons_iff]
          have hlt : toLower k < toLower r ↔ (toLower k).toNat < (toLower r).toNat := Iff.rfl
          rw [hlt]
          constructor
          · intro h
            exact Or.inl (by omega)
          · rintro (h | ⟨h, -⟩)
            · omega
            · exact absurd h hne

end Search

section Words

variable {c : Char} {e t : Str}

theorem capWords_nil : capWords [] = [] := rfl

theorem capWords_cons (h : isSpace c = true) (t : Str) : capWords (c :: t) = capWords t := by
  have hsplit := @List.splitOnP_append_cons_of_forall_mem _ isSpace [] (by simp) c h t
  rw [capWords, ← List.nil_append (c :: t), hsplit]
  rfl

theorem capWords_dropWhile (t : Str) : capWords (t.dropWhile isSpace) = capWords t := by
  induction t with
  | nil => rfl
  | cons c t ih =>
      cases hc : isSpace c with
      | true => rw [List.dropWhile_cons_of_pos hc, ih, capWords_cons hc]
      | false => rw [List.dropWhile_cons_of_neg (by simp [hc])]

theorem element_append_behind (t : Str) : element t ++ behind t = t :=
  List.takeWhile_append_dropWhile

theorem not_isSpace_of_mem_element (h : c ∈ element t) : isSpace c = false := by
  have hc := List.mem_takeWhile_imp h
  simpa using hc

/-- Behind an element is nothing, or a text that starts with whitespace. -/
theorem behind_cases (t : Str) :
    behind t = [] ∨ ∃ c rest, behind t = c :: rest ∧ isSpace c = true := by
  induction t with
  | nil => exact Or.inl rfl
  | cons c t ih =>
      cases hc : isSpace c with
      | true => exact Or.inr ⟨c, t, by simp [behind, hc], hc⟩
      | false =>
          have hbehind : behind (c :: t) = behind t := by simp [behind, hc]
          rwa [hbehind]

theorem element_dropWhile_ne_nil (h : t.dropWhile isSpace ≠ []) :
    element (t.dropWhile isSpace) ≠ [] := by
  induction t with
  | nil => exact absurd rfl h
  | cons c t ih =>
      cases hc : isSpace c with
      | true =>
          rw [List.dropWhile_cons_of_pos hc] at h ⊢
          exact ih h
      | false =>
          rw [List.dropWhile_cons_of_neg (by simp [hc])]
          simp [element, hc]

theorem length_behind_lt (h : t.dropWhile isSpace ≠ []) :
    (behind (t.dropWhile isSpace)).length < (t.dropWhile isSpace).length := by
  have hpos := List.length_pos_of_ne_nil (element_dropWhile_ne_nil h)
  have hlen := congrArg List.length (element_append_behind (t.dropWhile isSpace))
  rw [List.length_append] at hlen
  omega

theorem capWords_element (h : element t ≠ []) :
    capWords t = element t :: capWords (behind t) := by
  have hfree : ∀ x ∈ element t, isSpace x = false := fun x hx => not_isSpace_of_mem_element hx
  rcases behind_cases t with hb | ⟨c, rest, hb, hc⟩
  · have ht : t = element t := by
      conv_lhs => rw [← element_append_behind t, hb, List.append_nil]
    have hone : t.splitOnP isSpace = [element t] := by
      conv_lhs => rw [ht]
      exact List.splitOnP_eq_singleton hfree
    rw [hb, capWords_nil, capWords, hone]
    simp [h]
  · have hsplit := List.splitOnP_append_cons_of_forall_mem hfree c hc rest
    rw [hb, capWords_cons hc]
    conv_lhs => rw [← element_append_behind t, hb, capWords, hsplit]
    rw [List.filter_cons_of_pos (by simpa using h)]
    rfl

end Words

theorem splitSign_sublist (t : Str) : (splitSign t).2.Sublist t := by
  unfold splitSign
  split
  · exact List.sublist_cons_self _ _
  · exact List.Sublist.refl _

/-- An element and its sign are at the same place. -/
theorem element_splitSign (t : Str) :
    element (splitSign t).2 = (splitSign (element t)).2 ∧
      (splitSign t).1 = (splitSign (element t)).1 ∧ behind (splitSign t).2 = behind t := by
  have hminus : isSpace '-' = false := rfl
  cases t with
  | nil => exact ⟨rfl, rfl, rfl⟩
  | cons c t =>
      by_cases hc : c = '-'
      · subst hc
        have helement : element ('-' :: t) = '-' :: element t := by simp [element, hminus]
        have hbehind : behind ('-' :: t) = behind t := by simp [behind, hminus]
        rw [helement, hbehind]
        exact ⟨rfl, rfl, rfl⟩
      · have hsign (s : Str) : splitSign (c :: s) = (false, c :: s) := by
          unfold splitSign
          split
          · next heq => exact absurd (List.cons.inj heq).1 hc
          · rfl
        rw [hsign]
        cases hsp : isSpace c with
        | true =>
            have hnil : element (c :: t) = [] := by simp [element, hsp]
            rw [hnil]
            exact ⟨rfl, rfl, rfl⟩
        | false =>
            have helement : element (c :: t) = c :: element t := by simp [element, hsp]
            rw [helement, hsign]
            exact ⟨rfl, rfl, rfl⟩

namespace CapabTable

variable (T : CapabTable)

theorem bsearch_eq_lookup {v : Str} (hnul : NUL ∉ v) :
    BinarySearch.bsearch (fun c => capabSearch v c.name) T.list = T.lookup (element v) := by
  have hiff (c : Capability) (hc : c ∈ T.list) := capabSearch_iff hnul (T.printed c hc)
  have hordered : BinarySearch.Ordered (fun c => capabSearch v c.name) T.list := by
    refine T.sorted.imp_of_mem fun {a b} ha hb hlt hle => ?_
    rw [(hiff b hb).1]
    rcases hle.lt_or_eq with h | h
    · exact ((hiff a ha).1.mp h).trans hlt
    · exact (hiff a ha).2.mp h ▸ hlt
  rw [BinarySearch.bsearch_eq_find? hordered, lookup]
  refine List.find?_congr fun c hc => ?_
  rw [decide_eq_decide]
  exact (hiff c hc).2

theorem lookup_nil : T.lookup [] = none := by
  rw [lookup, List.find?_eq_none]
  intro c hc
  simpa using T.named c hc

theorem drop_of_lookup {v : Str} {c : Capability} (h : T.lookup (element v) = some c) :
    v.drop c.name.length = behind v := by
  have hname := List.find?_some h
  rw [decide_eq_true_eq] at hname
  have hlen := congrArg List.length hname
  rw [List.length_map, List.length_map] at hlen
  rw [hlen]
  exact (congrArg (List.drop _) (element_append_behind v).symm).trans List.drop_left

/-- What one call finds, and where it leaves the cursor. -/
theorem findCap_eq {t u : Str} (hnul : NUL ∉ t) (hu : t.dropWhile isSpace = u) :
    T.findCap t = ⟨T.lookup (splitSign (element u)).2, (splitSign (element u)).1,
      if behind u = [] then none else some (behind u)⟩ := by
  have hnulu : NUL ∉ u := fun h => hnul ((List.dropWhile_sublist _).subset (hu ▸ h))
  obtain ⟨helement, hneg, hbehind⟩ := element_splitSign u
  rw [findCap, hu, ← helement, ← hneg, ← hbehind]
  generalize hs : splitSign u = s at *
  obtain ⟨neg, v⟩ := s
  have hnulv : NUL ∉ v := fun h => hnulu ((splitSign_sublist u).subset (hs ▸ h))
  by_cases hv : v = []
  · subst hv
    have hnone : T.lookup (element []) = none := T.lookup_nil
    simp [hnone, behind]
  · simp only [if_neg hv, T.bsearch_eq_lookup hnulv]
    cases hl : T.lookup (element v) with
    | none => rfl
    | some c => simp only [T.drop_of_lookup hl]

/-- Every call consumes a character or ends the loop. -/
theorem findCap_progress {t t' : Str} (h : (T.findCap t).next = some t') :
    t'.length < t.length := by
  have hu := (List.dropWhile_sublist (l := t) isSpace).length_le
  rw [findCap] at h
  generalize hs : splitSign (t.dropWhile isSpace) = s at h
  obtain ⟨neg, v⟩ := s
  have hv : v.length ≤ (t.dropWhile isSpace).length := by
    have := (splitSign_sublist (t.dropWhile isSpace)).length_le
    rwa [hs] at this
  by_cases hnil : v = []
  · simp [hnil, behind] at h
  simp only [if_neg hnil] at h
  have hpos := List.length_pos_of_ne_nil hnil
  cases hb : BinarySearch.bsearch (fun c => capabSearch v c.name) T.list with
  | some c =>
      have hnamed := List.length_pos_of_ne_nil (T.named c (BinarySearch.mem_of_bsearch hb))
      simp only [hb] at h
      split at h
      · cases h
      · cases h
        rw [List.length_drop]
        omega
  | none =>
      simp only [hb] at h
      split at h
      · cases h
      · cases h
        have hbehind := (element_splitSign (t.dropWhile isSpace)).2.2
        have hlt := length_behind_lt (t := t) fun h0 => hnil (by
          rw [h0] at hs
          exact (congrArg Prod.snd hs).symm)
        rw [hs] at hbehind
        rw [hbehind]
        omega

end CapabTable

end Unirc
