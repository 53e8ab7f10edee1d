import Mathlib.Computability.Language
import Unirc.GlobLoop
import Unirc.Match

/-!
# The languages of masks

What a mask says of a name, place by place, and that `match` finds the names in its language.
-/

namespace Unirc

/-- A place of a mask; `dangling` is a backslash with nothing behind it. -/
inductive MaskAtom where
  | star | any | digit | lit (c : Char) | dangling
  deriving DecidableEq

namespace MaskAtom

/-- What a character of a mask means. -/
def of (p : Char) : MaskAtom :=
  if p = '*' then star else if p = '?' then any else if p = '#' then digit else lit p

/-- The characters, in lower case, that a place other than a star stands for. -/
def accepts : MaskAtom → Char → Bool
  | any, _ => true
  | digit, c => c.isDigit || c = '#'
  | lit p, c => c = toLower p
  | star, _ | dangling, _ => false

def language : MaskAtom → Language Char
  | star => Set.univ
  | a => {s | ∃ c, s = [c] ∧ a.accepts c = true}

/-- A place for the matcher. -/
def place (a : MaskAtom) : Option MaskAtom := if a = star then none else some a

/-- What a place says to a character of a name. -/
def verdict (a : MaskAtom) (c : Char) : Option Bool :=
  if a = dangling then none else some (a.accepts (toLower c))

theorem verdict_eq_some_true {a : MaskAtom} {c : Char} :
    a.verdict c = some true ↔ a.accepts (toLower c) = true := by
  unfold verdict
  split
  · rename_i h
    subst h
    simp [accepts]
  · exact Option.some_inj

theorem verdict_eq_none {a : MaskAtom} {c : Char} (h : a.verdict c = none) (d : Char) :
    a.verdict d ≠ some true := by
  unfold verdict at *
  split at h
  · rename_i ha
    rw [if_pos ha]
    exact fun he => by cases he
  · cases h

theorem language_of_ne {a : MaskAtom} (ha : a ≠ star) :
    a.language = ({s | ∃ c, s = [c] ∧ a.accepts c = true} : Set Str) := by
  cases a <;> first | exact absurd rfl ha | rfl

end MaskAtom

/-- The names, in lower case, that the places stand for. -/
def atomLanguage (atoms : List MaskAtom) : Language Char := (atoms.map MaskAtom.language).prod

/-- The language of a mask in which nothing is escaped. -/
def maskLanguage (mask : Str) : Language Char := atomLanguage (mask.map MaskAtom.of)

theorem mem_atomLanguage (atoms : List MaskAtom) (name : Str) :
    name.map toLower ∈ atomLanguage atoms ↔
      Globs MaskAtom.verdict (atoms.map MaskAtom.place) name := by
  unfold atomLanguage
  induction atoms generalizing name with
  | nil =>
      rw [List.map_nil, List.prod_nil, Language.mem_one, List.map_eq_nil_iff, List.map_nil]
      constructor
      · rintro rfl
        exact Globs.nil
      · rintro ⟨⟩
        rfl
  | cons a atoms ih =>
      rw [List.map_cons, List.prod_cons, List.map_cons, Language.mem_mul]
      by_cases ha : a = MaskAtom.star
      · subst ha
        constructor
        · rintro ⟨x, -, y, hy, hxy⟩
          obtain ⟨s, t, rfl, -, rfl⟩ := List.map_eq_append_iff.mp hxy.symm
          exact (((ih t).mp hy).star).star_append s
        · intro h
          obtain ⟨s, t, rfl, ht⟩ := Globs.star_cases h
          exact ⟨s.map toLower, Set.mem_univ _, t.map toLower, (ih t).mpr ht,
            List.map_append.symm⟩
      · rw [MaskAtom.place, if_neg ha, MaskAtom.language_of_ne ha]
        constructor
        · rintro ⟨x, ⟨d, rfl, hd⟩, y, hy, hxy⟩
          cases name with
          | nil => cases hxy
          | cons c t =>
              obtain ⟨rfl, rfl⟩ := List.cons.inj hxy
              exact Globs.one (MaskAtom.verdict_eq_some_true.mpr hd) ((ih t).mp hy)
        · rintro (_ | _ | _ | ⟨hc, ht⟩)
          exact ⟨[toLower _], ⟨_, rfl, MaskAtom.verdict_eq_some_true.mp hc⟩, _, (ih _).mpr ht, rfl⟩

/-- `match` as a run of its loop: `none` tells that the rounds were too few. -/
def matchRun (mask : Str) : ℕ → Str → Str → Option (Str × Str) → Option Bool
  | 0, _, _, _ => none
  | fuel + 1, m, n, back =>
      let back := if m.head? = some '*' then some (skipStars m, n) else back
      let retry := back.elim (some false) fun b =>
        matchRun mask fuel b.1 b.2.tail (some (b.1, b.2.tail))
      match skipStars m, n with
      | [], [] => some true
      | [], _ :: _ => if back.isSome && endsInStar mask then some true else retry
      | _ :: _, [] => some false
      | p :: m', c :: n' => if matchChar p c then matchRun mask fuel m' n' back else retry

section Places

/-- A character of a mask in which nothing is escaped, as a place for the matcher. -/
def glyph (p : Char) : Option MaskAtom := (MaskAtom.of p).place

theorem glyph_eq_none {p : Char} : glyph p = none ↔ p = '*' := by
  unfold glyph MaskAtom.place MaskAtom.of
  split_ifs <;> simp_all

theorem accepts_of {p : Char} (hp : p ≠ '*') (c : Char) :
    (MaskAtom.of p).accepts (toLower c) = matchChar p c := by
  have hsharp : toLower c = '#' ↔ c = '#' := toLower_eq_iff_of_lt (by decide)
  unfold MaskAtom.of matchChar
  rw [if_neg hp]
  split_ifs with h₁ h₂
  · simp [MaskAtom.accepts, h₁]
  · have hlower : toLower '#' = toLower c ↔ c = '#' := by
      rw [show toLower '#' = '#' from rfl, eq_comm, hsharp]
    simp [MaskAtom.accepts, h₂, isDigit_toLower, hsharp, hlower, Bool.or_comm]
  · simp [MaskAtom.accepts, h₁, h₂, eq_comm]

theorem skipNone_map (m : Str) : skipNone (m.map glyph) = (skipStars m).map glyph := by
  induction m with
  | nil => rfl
  | cons p m ih =>
      by_cases hp : p = '*'
      · subst hp
        exact ih
      · have hnone : (glyph p).isNone = false := by
          rw [Option.isNone_eq_false_iff, Option.isSome_iff_ne_none]
          exact fun h => hp (glyph_eq_none.mp h)
        rw [skipStars_of_head? (by simpa using hp), List.map_cons, skipNone,
          List.dropWhile_cons_of_neg (by simp [hnone])]

theorem head_map_glyph (m : Str) :
    (m.map glyph).head?.any Option.isNone = true ↔ m.head? = some '*' := by
  cases m with
  | nil => simp
  | cons p m => simp [glyph_eq_none]

/-- The way back, in places. -/
def placesBack (back : Option (Str × Str)) : Option (List (Option MaskAtom) × Str) :=
  back.map fun b => (b.1.map glyph, b.2)

theorem matchRun_eq_globLoop (mask : Str) (fuel : ℕ) (m n : Str) (back : Option (Str × Str)) :
    matchRun mask fuel m n back =
      globLoop MaskAtom.verdict (endsInStar mask) fuel (m.map glyph) n (placesBack back) := by
  induction fuel generalizing m n back with
  | zero => rfl
  | succ fuel ih =>
      have hback : (if (m.map glyph).head?.any Option.isNone then
            some (skipNone (m.map glyph), n) else placesBack back) =
          placesBack (if m.head? = some '*' then some (skipStars m, n) else back) := by
        rw [skipNone_map, apply_ite placesBack]
        exact ite_congr (propext (head_map_glyph m)) (fun _ => rfl) fun _ => rfl
      simp only [matchRun, globLoop]
      rw [hback, skipNone_map]
      have hhead := head?_skipStars m
      generalize (if m.head? = some '*' then some (skipStars m, n) else back) = back'
      generalize skipStars m = m' at hhead
      have hretry : (back'.elim (some false) fun b =>
            matchRun mask fuel b.1 b.2.tail (some (b.1, b.2.tail))) =
          (placesBack back').elim (some false) fun b =>
            globLoop MaskAtom.verdict (endsInStar mask) fuel b.1 b.2.tail
              (some (b.1, b.2.tail)) := by
        cases back' with
        | none => rfl
        | some b => exact ih b.1 b.2.tail (some (b.1, b.2.tail))
      have hsome : (placesBack back').isSome = back'.isSome := by cases back' <;> rfl
      rw [hretry, hsome]
      cases m' with
      | nil => cases n <;> rfl
      | cons p m' =>
          have hp : p ≠ '*' := by simpa using hhead
          obtain ⟨a, ha⟩ := Option.ne_none_iff_exists'.mp fun h => hp (glyph_eq_none.mp h)
          have hof : a = MaskAtom.of p := by
            unfold glyph MaskAtom.place at ha
            split at ha
            · cases ha
            · exact (Option.some.inj ha).symm
          cases n with
          | nil => rw [List.map_cons, ha]
          | cons c n =>
              have hverdict : a.verdict c = some (matchChar p c) := by
                have hne : a ≠ MaskAtom.dangling := by
                  rw [hof]
                  unfold MaskAtom.of
                  split_ifs <;> exact MaskAtom.noConfusion
                rw [MaskAtom.verdict, if_neg hne, hof, accepts_of hp]
              rw [List.map_cons, ha]
              dsimp only
              rw [hverdict]
              cases matchChar p c with
              | true => exact ih m' n back'
              | false => rfl

theorem matchLoop_eq_matchRun (mask : Str) (fuel : ℕ) (m n : Str) (back : Option (Str × Str)) :
    matchLoop mask fuel m n back = (matchRun mask fuel m n back).getD false := by
  induction fuel generalizing m n back with
  | zero => rfl
  | succ fuel ih =>
      simp only [matchLoop, matchRun]
      generalize (if m.head? = some '*' then some (skipStars m, n) else back) = back'
      have hretry : (back'.elim false fun b =>
            matchLoop mask fuel b.1 b.2.tail (some (b.1, b.2.tail))) =
          (back'.elim (some false) fun b =>
            matchRun mask fuel b.1 b.2.tail (some (b.1, b.2.tail))).getD false := by
        cases back' with
        | none => rfl
        | some b => exact ih _ _ _
      rw [hretry]
      cases skipStars m with
      | nil =>
          cases n with
          | nil => rfl
          | cons c n => cases back'.isSome && endsInStar mask <;> simp
      | cons p m' =>
          cases n with
          | nil => rfl
          | cons c n =>
              cases hc : matchChar p c with
              | true => simpa [hc] using ih m' n back'
              | false => simp [hc]

theorem globs_of_glob {m n : Str} (h : Glob m n) : Globs MaskAtom.verdict (m.map glyph) n := by
  induction h with
  | nil => exact Globs.nil
  | star _ ih => exact Globs.star ih
  | skip _ ih => exact Globs.skip ih
  | @char p c m n hc _ ih =>
      by_cases hp : p = '*'
      · subst hp
        exact Globs.skip (Globs.star ih)
      · rw [List.map_cons, glyph, MaskAtom.place, if_neg]
        · exact Globs.one (MaskAtom.verdict_eq_some_true.mpr ((accepts_of hp c).trans hc)) ih
        · intro h
          refine hp (glyph_eq_none.mp ?_)
          rw [glyph, MaskAtom.place, if_pos h]

end Places

/-- `match` ends. -/
theorem matchRun_eq (mask name : Str) :
    matchRun mask ((name.length + 2) * (name.length + 2)) mask name none =
      some (matchMask mask name) := by
  obtain ⟨b, hb, -⟩ := GlobLoop.globLoop_iff MaskAtom.verdict (endsInStar mask)
    (mask.map glyph) name fun a c d h => MaskAtom.verdict_eq_none h d
  have hrun := (matchRun_eq_globLoop mask _ mask name none).trans hb
  rw [hrun, matchMask, matchLoop_eq_matchRun, hrun]
  rfl

theorem matchMask_iff_globs (mask name : Str) :
    matchMask mask name = true ↔ Globs MaskAtom.verdict (mask.map glyph) name := by
  refine ⟨fun h => globs_of_glob (glob_of_matchMask h), fun h => ?_⟩
  obtain ⟨b, hb, hiff⟩ := GlobLoop.globLoop_iff MaskAtom.verdict (endsInStar mask)
    (mask.map glyph) name fun a c d h => MaskAtom.verdict_eq_none h d
  have hrun := (matchRun_eq_globLoop mask _ mask name none).trans hb
  rw [matchMask, matchLoop_eq_matchRun, hrun]
  exact hiff.mpr (GlobLoop.Accepted.of_globs h)

/-- `match` ends, and accepts the names in the language of the mask. -/
theorem matchRun_language (mask name : Str) :
    matchRun mask ((name.length + 2) * (name.length + 2)) mask name none =
        some (matchMask mask name) ∧
      (matchMask mask name = true ↔ name.map toLower ∈ maskLanguage mask) := by
  have hplaces : (mask.map MaskAtom.of).map MaskAtom.place = mask.map glyph := List.map_map
  refine ⟨matchRun_eq mask name, ?_⟩
  rw [matchMask_iff_globs, maskLanguage, mem_atomLanguage, hplaces]

/-- A name is a mask that stands for itself. -/
theorem matchMask_of_irccmp {mask name : Str} (h : irccmp mask name = false) :
    matchMask mask name = true := by
  rw [irccmp_eq_false_iff_lower] at h
  rw [matchMask_iff_globs]
  refine globs_of_glob ?_
  induction mask generalizing name with
  | nil =>
      cases name with
      | nil => exact Glob.nil
      | cons c name => cases h
  | cons p mask ih =>
      cases name with
      | nil => cases h
      | cons c name =>
          obtain ⟨hpc, hrest⟩ := List.cons.inj h
          exact Glob.char (by simp [matchChar, hpc]) (ih hrest)

end Unirc
