import Unirc.MaskLanguage

/-!
# Masks with escapes

`match_esc` of `match.c`, and the masks whose language it decides.
-/

namespace Unirc

/-- The places of a mask in which a backslash makes the next character literal. -/
def escAtoms : Str → List MaskAtom
  | [] => []
  | ['\\'] => [.dangling]
  | '\\' :: c :: m => .lit c :: escAtoms m
  | p :: m => .of p :: escAtoms m

def escLanguage (mask : Str) : Language Char := atomLanguage (escAtoms mask)

/-- `match_esc` as a run of its loop: `none` tells that the rounds were too few. -/
def matchEscRun (mask : Str) : ℕ → Str → Str → Option (Str × Str) → Option Bool
  | 0, _, _, _ => none
  | fuel + 1, m, n, back =>
      let back := if m.head? = some '*' then some (skipStars m, n) else back
      let retry := back.elim (some false) fun b =>
        matchEscRun mask fuel b.1 b.2.tail (some (b.1, b.2.tail))
      match skipStars m, n with
      | [], [] => some true
      | [], _ :: _ => if back.isSome && endsInStar mask then some true else retry
      | _ :: _, [] => some false
      | p :: m', c :: n' =>
          match matchEscChar p c m' with
          | none => some false
          | some (true, m') => matchEscRun mask fuel m' n' back
          | some (false, _) => retry

/-- A mask that ends in a backslash, or one without a `#` that is no literal, in which no star
stands before a literal star that only places for one character follow. -/
def escSafe (mask : Str) : Bool :=
  .dangling ∈ escAtoms mask ||
    .digit ∉ escAtoms mask &&
      !(.star ∈ escAtoms mask &&
        ((escAtoms mask).reverse.dropWhile (· = .any)).head? = some (.lit '*'))

namespace MaskAtom

/-- What a place says to a character in `match_esc`. -/
def escVerdict (a : MaskAtom) (c : Char) : Option Bool :=
  match a with
  | star => some false
  | any => some true
  | digit => some !c.isDigit
  | lit p => some (toLower p = toLower c)
  | dangling => none

theorem escVerdict_eq_none {a : MaskAtom} {c : Char} (h : a.escVerdict c = none) (d : Char) :
    a.escVerdict d ≠ some true := by
  cases a <;> cases h
  exact fun he => by cases he

theorem escVerdict_of_ne {a : MaskAtom} (ha : a ≠ digit) (hs : a ≠ star) (c : Char) :
    a.escVerdict c = a.verdict c := by
  cases a with
  | star => exact absurd rfl hs
  | digit => exact absurd rfl ha
  | any => rfl
  | lit p => simp [escVerdict, verdict, accepts, eq_comm]
  | dangling => rfl

end MaskAtom

/-- The places of a mask with escapes, for the matcher. -/
def escPlaces (mask : Str) : List (Option MaskAtom) := (escAtoms mask).map MaskAtom.place

section Places

theorem escAtoms_cons {p : Char} (hp : p ≠ '\\') (m : Str) :
    escAtoms (p :: m) = .of p :: escAtoms m := by
  rw [escAtoms]
  · exact fun h _ => hp h
  · exact fun c m h _ => hp h

theorem place_of_ne {a : MaskAtom} (ha : a ≠ .star) : a.place = some a := if_neg ha

theorem of_eq_star {p : Char} : MaskAtom.of p = .star ↔ p = '*' := by
  rw [← glyph_eq_none, glyph, MaskAtom.place]
  split_ifs with h <;> simp [h]

theorem escPlaces_cons {p : Char} (hp : p ≠ '*') (m : Str) :
    ∃ a rest, escPlaces (p :: m) = some a :: rest := by
  unfold escPlaces
  by_cases hb : p = '\\'
  · subst hb
    cases m with
    | nil => exact ⟨_, _, rfl⟩
    | cons c m => exact ⟨_, _, rfl⟩
  · rw [escAtoms_cons hb, List.map_cons, place_of_ne (mt of_eq_star.mp hp)]
    exact ⟨_, _, rfl⟩

theorem escPlaces_star (m : Str) : escPlaces ('*' :: m) = none :: escPlaces m := rfl

theorem skipNone_escPlaces (m : Str) : skipNone (escPlaces m) = escPlaces (skipStars m) := by
  induction m with
  | nil => rfl
  | cons p m ih =>
      by_cases hp : p = '*'
      · subst hp
        exact ih
      · obtain ⟨a, rest, h⟩ := escPlaces_cons hp m
        rw [skipStars_of_head? (by simpa using hp), h]
        rfl

theorem head_escPlaces (m : Str) :
    (escPlaces m).head?.any Option.isNone = true ↔ m.head? = some '*' := by
  cases m with
  | nil => simp [escPlaces, escAtoms]
  | cons p m =>
      by_cases hp : p = '*'
      · subst hp
        simp [escPlaces_star]
      · obtain ⟨a, rest, h⟩ := escPlaces_cons hp m
        simp [h, hp]

def escPlacesBack (back : Option (Str × Str)) : Option (List (Option MaskAtom) × Str) :=
  back.map fun b => (escPlaces b.1, b.2)

theorem matchEscRun_eq_globLoop (mask : Str) (fuel : ℕ) (m n : Str) (back : Option (Str × Str)) :
    matchEscRun mask fuel m n back =
      globLoop MaskAtom.escVerdict (endsInStar mask) fuel (escPlaces m) n
        (escPlacesBack back) := by
  induction fuel generalizing m n back with
  | zero => rfl
  | succ fuel ih =>
      have hback : (if (escPlaces m).head?.any Option.isNone then
            some (skipNone (escPlaces m), n) else escPlacesBack back) =
          escPlacesBack (if m.head? = some '*' then some (skipStars m, n) else back) := by
        rw [skipNone_escPlaces, apply_ite escPlacesBack]
        exact ite_congr (propext (head_escPlaces m)) (fun _ => rfl) fun _ => rfl
      simp only [matchEscRun, globLoop]
      rw [hback, skipNone_escPlaces]
      have hhead := head?_skipStars m
      generalize (if m.head? = some '*' then some (skipStars m, n) else back) = back'
      generalize skipStars m = m' at hhead
      have hretry : (back'.elim (some false) fun b =>
            matchEscRun mask fuel b.1 b.2.tail (some (b.1, b.2.tail))) =
          (escPlacesBack back').elim (some false) fun b =>
            globLoop MaskAtom.escVerdict (endsInStar mask) fuel b.1 b.2.tail
              (some (b.1, b.2.tail)) := by
        cases back' with
        | none => rfl
        | some b => exact ih b.1 b.2.tail (some (b.1, b.2.tail))
      have hsome : (escPlacesBack back').isSome = back'.isSome := by cases back' <;> rfl
      rw [hretry, hsome]
      cases m' with
      | nil => cases n <;> rfl
      | cons p m' =>
          have hp : p ≠ '*' := by simpa using hhead
          cases n with
          | nil =>
              obtain ⟨a, rest, h⟩ := escPlaces_cons hp m'
              rw [h]
          | cons c n =>
              by_cases hb : p = '\\'
              · subst hb
                cases m' with
                | nil => rfl
                | cons q m' =>
                    have hq : escPlaces ('\\' :: q :: m') = some (.lit q) :: escPlaces m' := rfl
                    rw [hq]
                    by_cases hqc : toLower q = toLower c
                    · simpa [hqc, matchEscChar, MaskAtom.escVerdict] using ih m' n back'
                    · simp [hqc, matchEscChar, MaskAtom.escVerdict]
              · have hplaces : escPlaces (p :: m') = some (.of p) :: escPlaces m' := by
                  rw [escPlaces, escAtoms_cons hb, List.map_cons,
                    place_of_ne (mt of_eq_star.mp hp)]
                  rfl
                rw [hplaces]
                by_cases hany : p = '?'
                · subst hany
                  simpa [MaskAtom.of, matchEscChar, MaskAtom.escVerdict] using ih m' n back'
                · by_cases hdigit : p = '#'
                  · subst hdigit
                    cases hc : c.isDigit with
                    | true =>
                        have hne : toLower '#' ≠ toLower c := fun h => by
                          have hsharp := (toLower_eq_iff_of_lt (c := c) (d := '#') (by decide)).mp h.symm
                          rw [hsharp] at hc
                          cases hc
                        simp [MaskAtom.of, matchEscChar, MaskAtom.escVerdict, hc, hne]
                    | false =>
                        simpa [MaskAtom.of, matchEscChar, MaskAtom.escVerdict, hc] using
                          ih m' n back'
                  · by_cases hpc : toLower p = toLower c
                    · simpa [MaskAtom.of, matchEscChar, MaskAtom.escVerdict, hp, hany, hdigit, hb,
                        hpc] using ih m' n back'
                    · simp [MaskAtom.of, matchEscChar, MaskAtom.escVerdict, hp, hany, hdigit, hb,
                        hpc]

theorem matchEscLoop_eq_matchEscRun (mask : Str) (fuel : ℕ) (m n : Str)
    (back : Option (Str × Str)) :
    matchEscLoop mask fuel m n back = (matchEscRun mask fuel m n back).getD false := by
  induction fuel generalizing m n back with
  | zero => rfl
  | succ fuel ih =>
      simp only [matchEscLoop, matchEscRun]
      generalize (if m.head? = some '*' then some (skipStars m, n) else back) = back'
      have hretry : (back'.elim false fun b =>
            matchEscLoop mask fuel b.1 b.2.tail (some (b.1, b.2.tail))) =
          (back'.elim (some false) fun b =>
            matchEscRun mask fuel b.1 b.2.tail (some (b.1, b.2.tail))).getD false := by
        cases back' with
        | none => rfl
        | some b => exact ih _ _ _
      rw [hretry]
      cases skipStars m with
      | nil =>
          cases n with
          | nil => rfl
          | cons c n => cases back'.isSome && endsInStar mask <;> simp
      | cons p m' =>
          cases n with
          | nil => rfl
          | cons c n =>
              dsimp only
              rcases matchEscChar p c m' with _ | ⟨_ | _, m''⟩
              · rfl
              · rfl
              · exact ih m'' n back'

/-- `match_esc` ends. -/
theorem matchEscRun_eq (mask name : Str) :
    matchEscRun mask ((name.length + 2) * (name.length + 2)) mask name none =
      some (matchEsc mask name) := by
  obtain ⟨b, hb, -⟩ := GlobLoop.globLoop_iff MaskAtom.escVerdict (endsInStar mask)
    (escPlaces mask) name fun a c d h => MaskAtom.escVerdict_eq_none h d
  have hrun := (matchEscRun_eq_globLoop mask _ mask name none).trans hb
  rw [hrun, matchEsc, matchEscLoop_eq_matchEscRun, hrun]
  rfl

/-- What `match_esc` accepts. -/
theorem matchEsc_iff (mask name : Str) :
    matchEsc mask name = true ↔
      GlobLoop.Accepted MaskAtom.escVerdict
        (endsInStar mask && (escPlaces mask).any Option.isNone) (escPlaces mask) name := by
  obtain ⟨b, hb, hiff⟩ := GlobLoop.globLoop_iff MaskAtom.escVerdict (endsInStar mask)
    (escPlaces mask) name fun a c d h => MaskAtom.escVerdict_eq_none h d
  have hrun := (matchEscRun_eq_globLoop mask _ mask name none).trans hb
  rw [matchEsc, matchEscLoop_eq_matchEscRun, hrun, ← hiff]
  rfl

end Places

section Ends

/-- The last element that is not passed over, from the front. -/
theorem head_dropWhile_reverse {α : Type*} (p : α → Bool) (a : α) (l : List α) :
    ((a :: l).reverse.dropWhile p).head? =
      ((l.reverse.dropWhile p).head?).or (if p a then none else some a) := by
  rw [List.reverse_cons, List.dropWhile_append]
  cases h : l.reverse.dropWhile p with
  | nil =>
      cases hp : p a <;> simp [hp]
  | cons b t => simp

theorem exists_of_head_dropWhile {α : Type*} {p : α → Bool} {a : α} {l : List α}
    (h : (l.reverse.dropWhile p).head? = some a) :
    ∃ pre q, l = pre ++ a :: q ∧ ∀ x ∈ q, p x = true := by
  obtain ⟨t, ht⟩ : ∃ t, l.reverse.dropWhile p = a :: t := by
    cases hd : l.reverse.dropWhile p with
    | nil =>
        rw [hd] at h
        cases h
    | cons b t =>
        rw [hd] at h
        exact ⟨t, by rw [Option.some.inj h]⟩
  refine ⟨t.reverse, (l.reverse.takeWhile p).reverse, ?_, fun x hx => ?_⟩
  · have hl : l.reverse = l.reverse.takeWhile p ++ a :: t := by
      rw [← ht, List.takeWhile_append_dropWhile]
    calc l = l.reverse.reverse := l.reverse_reverse.symm
      _ = (l.reverse.takeWhile p ++ a :: t).reverse := congrArg List.reverse hl
      _ = t.reverse ++ a :: (l.reverse.takeWhile p).reverse := by simp
  · exact List.mem_takeWhile_imp (List.mem_reverse.mp hx)

theorem of_eq_any {p : Char} : MaskAtom.of p = .any ↔ p = '?' := by
  unfold MaskAtom.of
  split_ifs <;> simp_all

theorem of_ne_lit_star (p : Char) : MaskAtom.of p ≠ .lit '*' := by
  unfold MaskAtom.of
  split_ifs <;> simp_all

/-- `endsInStar` does not tell a literal star from one that stands for any text. -/
theorem endsInStar_iff (mask : Str) :
    ((mask.reverse.dropWhile (· = '?')).head? = none ↔
      ((escAtoms mask).reverse.dropWhile (· = .any)).head? = none) ∧
    ((mask.reverse.dropWhile (· = '?')).head? = some '*' ↔
      ((escAtoms mask).reverse.dropWhile (· = .any)).head? = some .star ∨
        ((escAtoms mask).reverse.dropWhile (· = .any)).head? = some (.lit '*')) := by
  induction mask using escAtoms.induct with
  | case1 => simp [escAtoms]
  | case2 => simp [escAtoms]
  | case3 c m ih =>
      have hatoms : escAtoms ('\\' :: c :: m) = .lit c :: escAtoms m := rfl
      simp only [hatoms, head_dropWhile_reverse]
      generalize (m.reverse.dropWhile (· = '?')).head? = x at *
      generalize ((escAtoms m).reverse.dropWhile (· = .any)).head? = y at *
      obtain ⟨hnone, hstar⟩ := ih
      cases x with
      | none =>
          rw [hnone.mp rfl]
          by_cases hc : c = '?' <;> simp [hc]
      | some x =>
          obtain ⟨b, rfl⟩ := Option.ne_none_iff_exists'.mp (mt hnone.mpr (Option.some_ne_none x))
          simpa using hstar
  | case4 p m h₁ h₂ ih =>
      have hp : p ≠ '\\' := by
        rintro rfl
        cases m with
        | nil => exact h₁ rfl rfl
        | cons c m => exact h₂ c m rfl rfl
      simp only [escAtoms_cons hp, head_dropWhile_reverse]
      generalize (m.reverse.dropWhile (· = '?')).head? = x at *
      generalize ((escAtoms m).reverse.dropWhile (· = .any)).head? = y at *
      obtain ⟨hnone, hstar⟩ := ih
      cases x with
      | none =>
          rw [hnone.mp rfl]
          by_cases hany : p = '?'
          · simp [hany, MaskAtom.of]
          · have hne : MaskAtom.of p ≠ .any := mt of_eq_any.mp hany
            simp [hany, hne, of_eq_star, of_ne_lit_star]
      | some x =>
          obtain ⟨b, rfl⟩ := Option.ne_none_iff_exists'.mp (mt hnone.mpr (Option.some_ne_none x))
          simpa using hstar

end Ends

section Decides

variable {atoms : List MaskAtom} {name : Str}

theorem not_globs_dangling {v : MaskAtom → Char → Option Bool}
    (hv : ∀ c, v .dangling c ≠ some true) (h : .dangling ∈ atoms) :
    ¬Globs v (atoms.map MaskAtom.place) name := by
  intro hg
  obtain ⟨pre, q, rfl⟩ := List.append_of_mem h
  rw [List.map_append] at hg
  obtain ⟨s, t, -, -, ht⟩ := hg.append_cases
  rw [List.map_cons, place_of_ne (by decide)] at ht
  cases ht with
  | one hc _ => exact hv _ hc

theorem mem_of_place {a : MaskAtom} (ha : some a ∈ atoms.map MaskAtom.place) :
    a ∈ atoms ∧ a ≠ .star := by
  obtain ⟨b, hb, hab⟩ := List.mem_map.mp ha
  unfold MaskAtom.place at hab
  split at hab
  · cases hab
  · rename_i hs
    obtain rfl := Option.some.inj hab
    exact ⟨hb, hs⟩

/-- The verdicts of `match_esc` are those of the language where no place is for a digit. -/
theorem globs_escVerdict (h : .digit ∉ atoms) :
    Globs MaskAtom.escVerdict (atoms.map MaskAtom.place) name ↔
      Globs MaskAtom.verdict (atoms.map MaskAtom.place) name := by
  have hv : ∀ a, some a ∈ atoms.map MaskAtom.place → ∀ c, a.escVerdict c = a.verdict c :=
    fun a ha => MaskAtom.escVerdict_of_ne (fun hd => h (hd ▸ (mem_of_place ha).1))
      (mem_of_place ha).2
  exact ⟨Globs.imp fun a ha c hc => (hv a ha c).symm.trans hc,
    Globs.imp fun a ha c hc => (hv a ha c).trans hc⟩

/-- A text for a place: nothing for a star, and `d` for a digit. -/
def sampleOf (d : Char) : MaskAtom → Str
  | .star | .dangling => []
  | .any => ['a']
  | .digit => [d]
  | .lit c => [c]

def sample (d : Char) (atoms : List MaskAtom) : Str := atoms.flatMap (sampleOf d)

theorem globs_sample {v : MaskAtom → Char → Option Bool} {d : Char}
    (hv : ∀ a ∈ atoms, ∀ c ∈ sampleOf d a, v a c = some true) (hd : .dangling ∉ atoms) :
    Globs v (atoms.map MaskAtom.place) (sample d atoms) := by
  induction atoms with
  | nil => exact Globs.nil
  | cons a atoms ih =>
      have hrest := ih (fun b hb => hv b (List.mem_cons_of_mem a hb))
        fun h => hd (List.mem_cons_of_mem a h)
      rw [sample, List.flatMap_cons, List.map_cons]
      have hself := hv a List.mem_cons_self
      cases a with
      | star => exact Globs.star hrest
      | dangling => exact absurd List.mem_cons_self hd
      | any => exact Globs.one (hself _ List.mem_cons_self) hrest
      | digit => exact Globs.one (hself _ List.mem_cons_self) hrest
      | lit c => exact Globs.one (hself _ List.mem_cons_self) hrest

/-- No text for a mask is shorter. -/
theorem length_sample_le {v : MaskAtom → Char → Option Bool} (d : Char)
    (h : Globs v (atoms.map MaskAtom.place) name) : (sample d atoms).length ≤ name.length := by
  induction atoms generalizing name with
  | nil => exact Nat.zero_le _
  | cons a atoms ih =>
      rw [sample, List.flatMap_cons, List.length_append]
      by_cases ha : a = .star
      · subst ha
        obtain ⟨s, t, rfl, ht⟩ := Globs.star_cases h
        have hle := ih ht
        rw [sample] at hle
        rw [List.length_append]
        simp only [sampleOf, List.length_nil]
        omega
      · rw [List.map_cons, place_of_ne ha] at h
        cases h with
        | @one _ n _ c hc h =>
            have hle := ih h
            rw [sample] at hle
            have hone : (sampleOf d a).length ≤ 1 := by cases a <;> simp [sampleOf]
            rw [List.length_cons]
            omega

/-- With a digit for it, `match_esc` does not find a place for one. -/
theorem not_accepted_sample {early : Bool} {d : Char} (hdigit : d.isDigit = true)
    (hd : .dangling ∉ atoms) (h : .digit ∈ atoms) :
    ¬GlobLoop.Accepted MaskAtom.escVerdict early (atoms.map MaskAtom.place) (sample d atoms) := by
  rintro ⟨s, t, he, hs, -⟩
  induction atoms generalizing s with
  | nil => cases h
  | cons a atoms ih =>
      have hrest : .dangling ∉ atoms := fun h => hd (List.mem_cons_of_mem a h)
      rw [sample, List.flatMap_cons] at he
      by_cases ha : a = .star
      · subst ha
        obtain ⟨x, y, rfl, hy⟩ := Globs.star_cases hs
        have hle := length_sample_le d hy
        have hlen := congrArg List.length he
        simp only [sampleOf, List.nil_append, List.length_append] at hlen
        rw [sample] at hle
        have hx : x = [] := List.eq_nil_of_length_eq_zero (by omega)
        rw [hx] at he
        exact ih hrest ((List.mem_cons.mp h).resolve_left (by decide)) y he hy
      · rw [List.map_cons, place_of_ne ha] at hs
        cases hs with
        | @one _ n _ c hc hs =>
            cases a with
            | star => exact ha rfl
            | dangling => exact hd List.mem_cons_self
            | digit =>
                obtain ⟨rfl, -⟩ := List.cons.inj he
                simp [MaskAtom.escVerdict, hdigit] at hc
            | any =>
                exact ih hrest ((List.mem_cons.mp h).resolve_left (by decide)) n
                  (List.cons.inj he).2 hs
            | lit p =>
                exact ih hrest ((List.mem_cons.mp h).resolve_left (by simp)) n
                  (List.cons.inj he).2 hs

/-- A literal star with only places for one character behind it does not match earlier. -/
theorem not_globs_longer {pre q : List MaskAtom} (hq : ∀ a ∈ q, a = .any) :
    ¬Globs MaskAtom.verdict ((pre ++ .lit '*' :: q).map MaskAtom.place)
      (sample 'a' (pre ++ .lit '*' :: q) ++ ['a']) := by
  intro hg
  have hrep : q = List.replicate q.length .any := List.eq_replicate_iff.mpr ⟨rfl, hq⟩
  have hplaces : (List.replicate q.length MaskAtom.any).map MaskAtom.place =
      (List.replicate q.length MaskAtom.any).map some := by
    rw [List.map_replicate, List.map_replicate]
    rfl
  have hany : sample 'a' (List.replicate q.length MaskAtom.any) = List.replicate q.length 'a' := by
    induction q.length with
    | zero => rfl
    | succ k ih =>
        rw [List.replicate_succ, List.replicate_succ, ← ih]
        rfl
  have htext : sample 'a' (pre ++ .lit '*' :: q) ++ ['a'] =
      sample 'a' pre ++ '*' :: List.replicate (q.length + 1) 'a' := by
    rw [List.replicate_succ', ← hany, ← hrep]
    simp [sample, sampleOf]
  rw [htext, List.map_append, List.map_cons] at hg
  obtain ⟨s, t, he, -, ht⟩ := hg.append_cases
  rw [place_of_ne (by decide), hrep, hplaces] at ht
  cases ht with
  | @one _ n _ c hc hn =>
      have hlen : n.length = q.length := by
        rw [← (Globs.map_some_iff.mp hn).length_eq, List.length_replicate]
      have hcut : sample 'a' pre ++ ['*'] ++ List.replicate (q.length + 1) 'a' = s ++ c :: n := by
        rw [← he]
        simp
      obtain ⟨-, htail⟩ := List.append_inj' hcut (by simp [hlen])
      rw [List.replicate_succ] at htail
      obtain ⟨rfl, -⟩ := List.cons.inj htail
      revert hc
      decide

theorem escAtoms_of_not_mem {mask : Str} (h : '\\' ∉ mask) :
    escAtoms mask = mask.map MaskAtom.of := by
  induction mask with
  | nil => rfl
  | cons p m ih =>
      have hp : p ≠ '\\' := fun he => h (he ▸ List.mem_cons_self)
      rw [escAtoms_cons hp, List.map_cons, ih fun hm => h (List.mem_cons_of_mem p hm)]

theorem any_isNone_iff : (atoms.map MaskAtom.place).any Option.isNone = true ↔ .star ∈ atoms := by
  rw [List.any_map, List.any_eq_true]
  constructor
  · rintro ⟨a, ha, hnone⟩
    by_cases hs : a = .star
    · exact hs ▸ ha
    · rw [Function.comp_apply, place_of_ne hs] at hnone
      cases hnone
  · exact fun h => ⟨_, h, rfl⟩

theorem matchEsc_iff_globs {mask : Str} (h : escSafe mask = true) :
    matchEsc mask name = true ↔ Globs MaskAtom.verdict (escPlaces mask) name := by
  rw [matchEsc_iff]
  unfold escSafe at h
  rw [Bool.or_eq_true, decide_eq_true_eq] at h
  rcases h with h | h
  · constructor
    · rintro ⟨s, t, -, hs, -⟩
      exact absurd hs (not_globs_dangling (fun c hc => by cases hc) h)
    · exact fun hg => absurd hg (not_globs_dangling (fun c hc => by cases hc) h)
  · rw [Bool.and_eq_true, decide_eq_true_eq, Bool.not_eq_true', Bool.and_eq_false_iff] at h
    obtain ⟨hdigit, hend⟩ := h
    constructor
    · rintro ⟨s, t, rfl, hs, ht⟩
      have hs' : Globs MaskAtom.verdict (escPlaces mask) s := (globs_escVerdict hdigit).mp hs
      cases hearly : endsInStar mask && (escPlaces mask).any Option.isNone with
      | false => rwa [ht hearly, List.append_nil]
      | true =>
          rw [Bool.and_eq_true, escPlaces, any_isNone_iff] at hearly
          have hlast := ((endsInStar_iff mask).2.mp (of_decide_eq_true hearly.1)).resolve_right
            (hend.elim (fun h => absurd hearly.2 (of_decide_eq_false h)) of_decide_eq_false)
          obtain ⟨pre, q, hatoms, hq⟩ := exists_of_head_dropWhile hlast
          have hplaces : escPlaces mask = pre.map MaskAtom.place ++ none :: q.map some := by
            rw [escPlaces, hatoms, List.map_append, List.map_cons]
            refine congrArg _ (congrArg _ (List.map_congr_left fun a ha => place_of_ne ?_))
            rw [of_decide_eq_true (hq a ha)]
            decide
          rw [hplaces] at hs' ⊢
          refine Globs.extend (fun a ha c => ?_) hs' t
          rw [of_decide_eq_true (hq a ha)]
          rfl
    · exact fun hg => GlobLoop.Accepted.of_globs ((globs_escVerdict hdigit).mpr hg)

end Decides

/-- The masks whose language `match_esc` decides. -/
theorem matchEsc_language_iff (mask : Str) :
    ((∀ name, matchEsc mask name = true ↔ name.map toLower ∈ escLanguage mask) ∧
      ('\\' ∉ mask → ∀ name, matchEsc mask name = matchMask mask name)) ↔
        escSafe mask = true := by
  constructor
  · rintro ⟨hall, -⟩
    by_contra hsafe
    have hdangling : .dangling ∉ escAtoms mask := fun h => hsafe (by simp [escSafe, h])
    by_cases hdigit : .digit ∈ escAtoms mask
    · have hname := hall (sample '0' (escAtoms mask))
      rw [matchEsc_iff, escLanguage, mem_atomLanguage] at hname
      refine not_accepted_sample (by decide) hdangling hdigit (hname.mpr ?_)
      refine globs_sample (fun a ha c hc => ?_) hdangling
      cases a <;> simp [sampleOf] at hc <;> subst hc <;> first | decide |
        simp [MaskAtom.verdict, MaskAtom.accepts]
    · obtain ⟨hstar, hlast⟩ : .star ∈ escAtoms mask ∧
          ((escAtoms mask).reverse.dropWhile (· = .any)).head? = some (.lit '*') := by
        simpa [escSafe, hdangling, hdigit] using hsafe
      obtain ⟨pre, q, hatoms, hq⟩ := exists_of_head_dropWhile hlast
      have hname := hall (sample 'a' (escAtoms mask) ++ ['a'])
      rw [matchEsc_iff, escLanguage, mem_atomLanguage] at hname
      refine absurd (hname.mp ⟨_, _, rfl, ?_, fun h => ?_⟩) ?_
      · refine globs_sample (fun a ha c hc => ?_) hdangling
        cases a <;> simp [sampleOf] at hc
        · rfl
        · exact absurd ha hdigit
        · subst hc
          simp [MaskAtom.escVerdict]
      · rw [Bool.and_eq_false_iff, escPlaces] at h
        rcases h with h | h
        · rw [endsInStar, decide_eq_false_iff_not] at h
          exact absurd ((endsInStar_iff mask).2.mpr (.inr hlast)) h
        · rw [any_isNone_iff.mpr hstar] at h
          cases h
      · rw [hatoms]
        exact not_globs_longer fun a ha => of_decide_eq_true (hq a ha)
  · intro hsafe
    refine ⟨fun name => ?_, fun hmask name => ?_⟩
    · rw [matchEsc_iff_globs hsafe, escLanguage, mem_atomLanguage]
      rfl
    · have hplaces : escPlaces mask = mask.map glyph := by
        rw [escPlaces, escAtoms_of_not_mem hmask, List.map_map]
        rfl
      rw [Bool.eq_iff_iff, matchEsc_iff_globs hsafe, matchMask_iff_globs, hplaces]

/-- A digit is no text for `#`. -/
theorem not_matchEsc_language : ¬∀ mask name, matchEsc mask name = true ↔
    name.map toLower ∈ escLanguage mask := by
  intro h
  have hname := h ['#'] ['1']
  rw [escLanguage, mem_atomLanguage] at hname
  have hrun : matchEsc ['#'] ['1'] = false := by decide
  rw [hrun] at hname
  cases hname.mpr (Globs.one (by decide) Globs.nil)

end Unirc
