import Mathlib.Data.List.Chain
import Unirc.Bans
import Unirc.MatchEsc

/-!
# Runs of stars

`collapse` and `collapse_esc` of `match.c` leave one star of each run, and the masks mean the same.
-/

namespace Unirc

/-- `collapse_esc`: as `collapse`, but what stands behind a backslash is copied as it is. -/
def collapseEsc : Str → Str
  | [] => []
  | '\\' :: c :: cs => '\\' :: c :: collapseEsc cs
  | c :: cs => if c = '*' ∧ cs.head? = some '*' then collapseEsc cs else c :: collapseEsc cs

/-- One star for each run of them. -/
def oneStar : List MaskAtom → List MaskAtom
  | [] => []
  | a :: as => if a = .star ∧ as.head? = some .star then oneStar as else a :: oneStar as

section OneStar

theorem oneStar_of {a : MaskAtom} {as : List MaskAtom} (h : a = .star ∧ as.head? = some .star) :
    oneStar (a :: as) = oneStar as := if_pos h

theorem oneStar_of_not {a : MaskAtom} {as : List MaskAtom}
    (h : ¬(a = .star ∧ as.head? = some .star)) : oneStar (a :: as) = a :: oneStar as := if_neg h

variable {v : MaskAtom → Char → Option Bool} {atoms : List MaskAtom}

theorem head?_oneStar (atoms : List MaskAtom) : (oneStar atoms).head? = atoms.head? := by
  induction atoms with
  | nil => rfl
  | cons a as ih =>
      rw [oneStar]
      split
      · rename_i h
        rw [ih, h.2, List.head?_cons, h.1]
      · rfl

theorem exists_of_head?_star (h : atoms.head? = some .star) : ∃ as, atoms = .star :: as := by
  cases atoms with
  | nil => cases h
  | cons a as => exact ⟨as, by rw [Option.some.inj h]⟩

theorem globs_cons_congr {a : Option MaskAtom} {m m' : List (Option MaskAtom)}
    (h : ∀ n, Globs v m n ↔ Globs v m' n) (n : Str) : Globs v (a :: m) n ↔ Globs v (a :: m') n := by
  cases a with
  | none =>
      constructor
      · intro hg
        obtain ⟨s, t, rfl, ht⟩ := hg.star_cases
        exact (Globs.star ((h t).mp ht)).star_append s
      · intro hg
        obtain ⟨s, t, rfl, ht⟩ := hg.star_cases
        exact (Globs.star ((h t).mpr ht)).star_append s
  | some a =>
      constructor
      · rintro (_ | _ | _ | ⟨hc, hg⟩)
        exact Globs.one hc ((h _).mp hg)
      · rintro (_ | _ | _ | ⟨hc, hg⟩)
        exact Globs.one hc ((h _).mpr hg)

theorem globs_star_star {m : List (Option MaskAtom)} (n : Str) :
    Globs v (none :: none :: m) n ↔ Globs v (none :: m) n := by
  refine ⟨fun h => ?_, Globs.star⟩
  obtain ⟨s, t, rfl, ht⟩ := h.star_cases
  exact ht.star_append s

theorem globs_oneStar (atoms : List MaskAtom) (n : Str) :
    Globs v ((oneStar atoms).map MaskAtom.place) n ↔ Globs v (atoms.map MaskAtom.place) n := by
  induction atoms generalizing n with
  | nil => rfl
  | cons a as ih =>
      rw [oneStar]
      split
      · rename_i h
        obtain ⟨as, rfl⟩ := exists_of_head?_star h.2
        rw [ih, h.1]
        exact (globs_star_star n).symm
      · exact globs_cons_congr ih n

theorem star_mem_oneStar (atoms : List MaskAtom) : .star ∈ oneStar atoms ↔ .star ∈ atoms := by
  induction atoms with
  | nil => rfl
  | cons a as ih =>
      rw [oneStar]
      split
      · rename_i h
        obtain ⟨as, rfl⟩ := exists_of_head?_star h.2
        rw [ih]
        simp
      · rw [List.mem_cons, List.mem_cons, ih]

/-- The last place that is not for any character stays. -/
theorem head_dropWhile_oneStar (atoms : List MaskAtom) :
    ((oneStar atoms).reverse.dropWhile (· = .any)).head? =
      (atoms.reverse.dropWhile (· = .any)).head? := by
  induction atoms with
  | nil => rfl
  | cons a as ih =>
      rw [oneStar]
      split
      · rename_i h
        obtain ⟨as, rfl⟩ := exists_of_head?_star h.2
        rw [ih, head_dropWhile_reverse _ a, head_dropWhile_reverse, h.1]
        cases (as.reverse.dropWhile (· = MaskAtom.any)).head? <;> rfl
      · rw [head_dropWhile_reverse, head_dropWhile_reverse, ih]

theorem isChain_oneStar (atoms : List MaskAtom) :
    (oneStar atoms).IsChain fun a b => ¬(a = .star ∧ b = .star) := by
  induction atoms with
  | nil => exact List.isChain_nil
  | cons a as ih =>
      rw [oneStar]
      split
      · exact ih
      · rename_i h
        refine List.isChain_cons.mpr ⟨fun b hb => ?_, ih⟩
        rw [head?_oneStar] at hb
        exact fun hab => h ⟨hab.1, hb.trans (congrArg some hab.2)⟩

end OneStar

section Collapse

theorem head?_map_of (p : Str) : (p.map MaskAtom.of).head? = some .star ↔ p.head? = some '*' := by
  cases p with
  | nil => simp
  | cons c p => simp [of_eq_star]

theorem map_of_collapse (p : Str) : (collapse p).map MaskAtom.of = oneStar (p.map MaskAtom.of) := by
  induction p with
  | nil => rfl
  | cons c p ih =>
      have hiff : MaskAtom.of c = .star ∧ (p.map MaskAtom.of).head? = some .star ↔
          c = '*' ∧ p.head? = some '*' := and_congr of_eq_star (head?_map_of p)
      rw [collapse, List.map_cons]
      split
      · rename_i h
        rw [oneStar_of (hiff.mpr h), ih]
      · rename_i h
        rw [oneStar_of_not (mt hiff.mp h), List.map_cons, ih]

theorem head?_collapse (p : Str) : (collapse p).head? = p.head? := by
  induction p with
  | nil => rfl
  | cons c p ih =>
      rw [collapse]
      split
      · rename_i h
        rw [ih, h.2, List.head?_cons, h.1]
      · rfl

theorem collapse_collapse (p : Str) : collapse (collapse p) = collapse p := by
  induction p with
  | nil => rfl
  | cons c p ih =>
      rw [collapse]
      split
      · exact ih
      · rename_i h
        rw [collapse, head?_collapse, if_neg h, ih]

theorem length_collapse_le (p : Str) : (collapse p).length ≤ p.length := by
  induction p with
  | nil => exact Nat.le_refl _
  | cons c p ih =>
      rw [collapse]
      split
      · exact Nat.le_succ_of_le ih
      · exact Nat.succ_le_succ ih

theorem isChain_collapse (p : Str) : (collapse p).IsChain fun a b => ¬(a = '*' ∧ b = '*') := by
  have h := isChain_oneStar (p.map MaskAtom.of)
  rw [← map_of_collapse, List.isChain_map] at h
  simpa only [of_eq_star] using h

theorem matchMask_collapse (p n : Str) : matchMask (collapse p) n = matchMask p n := by
  have hplaces : ∀ m : Str, m.map glyph = (m.map MaskAtom.of).map MaskAtom.place := fun m =>
    List.map_map.symm
  rw [Bool.eq_iff_iff, matchMask_iff_globs, matchMask_iff_globs, hplaces, hplaces,
    map_of_collapse, globs_oneStar]

end Collapse

section CollapseEsc

theorem collapseEsc_cons {c : Char} (hc : c ≠ '\\') (cs : Str) : collapseEsc (c :: cs) =
    if c = '*' ∧ cs.head? = some '*' then collapseEsc cs else c :: collapseEsc cs := by
  rw [collapseEsc]
  exact fun d m h _ => hc h

theorem head?_escAtoms (p : Str) : (escAtoms p).head? = some .star ↔ p.head? = some '*' := by
  cases p with
  | nil => simp [escAtoms]
  | cons c p =>
      by_cases hc : c = '\\'
      · subst hc
        cases p <;> simp [escAtoms]
      · simp [escAtoms_cons hc, of_eq_star]

theorem escAtoms_collapseEsc (p : Str) : escAtoms (collapseEsc p) = oneStar (escAtoms p) := by
  induction p using collapseEsc.induct with
  | case1 => rfl
  | case2 c p ih =>
      have h : escAtoms ('\\' :: c :: p) = .lit c :: escAtoms p := rfl
      have h' : escAtoms (collapseEsc ('\\' :: c :: p)) = .lit c :: escAtoms (collapseEsc p) := rfl
      rw [h, h', oneStar_of_not (fun hs => MaskAtom.noConfusion hs.1), ih]
  | case3 c p h hstar ih =>
      obtain ⟨rfl, hp⟩ := hstar
      rw [collapseEsc_cons (by decide), if_pos ⟨rfl, hp⟩, ih, escAtoms_cons (by decide)]
      exact (oneStar_of ⟨rfl, (head?_escAtoms p).mpr hp⟩).symm
  | case4 c p h hstar ih =>
      by_cases hc : c = '\\'
      · subst hc
        cases p with
        | nil => rfl
        | cons d p => exact absurd rfl (h d p rfl)
      · have hiff : MaskAtom.of c = .star ∧ (escAtoms p).head? = some .star ↔
            c = '*' ∧ p.head? = some '*' := and_congr of_eq_star (head?_escAtoms p)
        rw [collapseEsc_cons hc, if_neg hstar, escAtoms_cons hc, escAtoms_cons hc,
          oneStar_of_not (mt hiff.mp hstar), ih]

theorem head?_collapseEsc (p : Str) : (collapseEsc p).head? = p.head? := by
  induction p using collapseEsc.induct with
  | case1 => rfl
  | case2 c p ih => rfl
  | case3 c p h hstar ih =>
      obtain ⟨rfl, hp⟩ := hstar
      rw [collapseEsc_cons (by decide), if_pos ⟨rfl, hp⟩, ih, hp]
      rfl
  | case4 c p h hstar ih =>
      rw [collapseEsc, if_neg hstar]
      · rfl
      · exact h

theorem collapseEsc_collapseEsc (p : Str) : collapseEsc (collapseEsc p) = collapseEsc p := by
  induction p using collapseEsc.induct with
  | case1 => rfl
  | case2 c p ih =>
      have h : collapseEsc ('\\' :: c :: p) = '\\' :: c :: collapseEsc p := rfl
      have h' : collapseEsc ('\\' :: c :: collapseEsc p) =
          '\\' :: c :: collapseEsc (collapseEsc p) := rfl
      rw [h, h', ih]
  | case3 c p h hstar ih =>
      obtain ⟨rfl, hp⟩ := hstar
      rw [collapseEsc_cons (by decide), if_pos ⟨rfl, hp⟩, ih]
  | case4 c p h hstar ih =>
      by_cases hc : c = '\\'
      · subst hc
        cases p with
        | nil => rfl
        | cons d p => exact absurd rfl (h d p rfl)
      · rw [collapseEsc_cons hc, if_neg hstar, collapseEsc_cons hc, head?_collapseEsc,
          if_neg hstar, ih]

theorem length_collapseEsc_le (p : Str) : (collapseEsc p).length ≤ p.length := by
  induction p using collapseEsc.induct with
  | case1 => exact Nat.le_refl _
  | case2 c p ih => exact Nat.succ_le_succ (Nat.succ_le_succ ih)
  | case3 c p h hstar ih =>
      obtain ⟨rfl, hp⟩ := hstar
      rw [collapseEsc_cons (by decide), if_pos ⟨rfl, hp⟩]
      exact Nat.le_succ_of_le ih
  | case4 c p h hstar ih =>
      rw [collapseEsc, if_neg hstar]
      · exact Nat.succ_le_succ ih
      · exact h

theorem matchEsc_collapseEsc (p n : Str) : matchEsc (collapseEsc p) n = matchEsc p n := by
  have hstar : (escPlaces (collapseEsc p)).any Option.isNone = (escPlaces p).any Option.isNone := by
    rw [Bool.eq_iff_iff, escPlaces, escPlaces, any_isNone_iff, any_isNone_iff,
      escAtoms_collapseEsc, star_mem_oneStar]
  have hend : endsInStar (collapseEsc p) = endsInStar p := by
    rw [endsInStar, endsInStar, decide_eq_decide, (endsInStar_iff _).2, (endsInStar_iff _).2,
      escAtoms_collapseEsc, head_dropWhile_oneStar]
  rw [Bool.eq_iff_iff, matchEsc_iff, matchEsc_iff, hstar, hend]
  refine exists_congr fun s => exists_congr fun t => and_congr_right fun _ => and_congr_left' ?_
  rw [escPlaces, escPlaces, escAtoms_collapseEsc, globs_oneStar]

end CollapseEsc

/-- `collapse` and `collapse_esc` keep what a mask means, and leave no two stars together. -/
theorem collapse_matches (p : Str) :
    (∀ n, matchMask (collapse p) n = matchMask p n) ∧
      (∀ n, matchEsc (collapseEsc p) n = matchEsc p n) ∧
      (collapse (collapse p) = collapse p ∧ collapseEsc (collapseEsc p) = collapseEsc p) ∧
      ((collapse p).length ≤ p.length ∧ (collapseEsc p).length ≤ p.length) ∧
      ((collapse p).IsChain fun a b => ¬(a = '*' ∧ b = '*')) ∧
      (escAtoms (collapseEsc p)).IsChain fun a b => ¬(a = .star ∧ b = .star) :=
  ⟨matchMask_collapse p, matchEsc_collapseEsc p,
    ⟨collapse_collapse p, collapseEsc_collapseEsc p⟩,
    ⟨length_collapse_le p, length_collapseEsc_le p⟩, isChain_collapse p,
    escAtoms_collapseEsc p ▸ isChain_oneStar (escAtoms p)⟩

end Unirc
