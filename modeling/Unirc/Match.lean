import Mathlib.Data.List.Forall2
import Mathlib.Data.List.TakeWhile
import Unirc.Chars

/-!
# Wildcard masks

`match` of `match.c`: `*` stands for any text, `?` for any character and `#` for
any digit. The loop keeps the mask behind the last `*` and the place in the name
from which it was last tried.
-/

namespace Unirc

/-- One character of a mask other than `*` against one of a name. -/
def matchChar (p c : Char) : Bool :=
  toLower p = toLower c || p = '?' || (p = '#' && c.isDigit)

def skipStars (m : Str) : Str := m.dropWhile (· = '*')

/-- The walk back over trailing `?` finds a `*`. -/
def endsInStar (mask : Str) : Bool := (mask.reverse.dropWhile (· = '?')).head? = some '*'

/-- The loop of `match` on the rest `m` of `mask` and `n` of the name. A retry
moves `na` forward by one and starts again behind the last `*`. -/
def matchLoop (mask : Str) : ℕ → Str → Str → Option (Str × Str) → Bool
  | 0, _, _, _ => false
  | fuel + 1, m, n, back =>
      let back := if m.head? = some '*' then some (skipStars m, n) else back
      let retry := back.elim false fun b =>
        matchLoop mask fuel b.1 b.2.tail (some (b.1, b.2.tail))
      match skipStars m, n with
      | [], [] => true
      | [], _ :: _ => back.isSome && endsInStar mask || retry
      | _ :: _, [] => false
      | p :: m', c :: n' => if matchChar p c then matchLoop mask fuel m' n' back else retry

/-- `match`. Each retry shortens the rest of the name, so that the square of its
length bounds the number of rounds. -/
def matchMask (mask name : Str) : Bool :=
  matchLoop mask ((name.length + 2) * (name.length + 2)) mask name none

/-- The texts a mask stands for. -/
inductive Glob : Str → Str → Prop
  | nil : Glob [] []
  | star {m n : Str} : Glob m n → Glob ('*' :: m) n
  | skip {m n : Str} {c : Char} : Glob ('*' :: m) n → Glob ('*' :: m) (c :: n)
  | char {p c : Char} {m n : Str} : matchChar p c = true → Glob m n → Glob (p :: m) (c :: n)

namespace Glob

theorem stars {m n : Str} (h : Glob (skipStars m) n) : Glob m n := by
  induction m with
  | nil => exact h
  | cons p m ih =>
      by_cases hp : p = '*'
      · subst hp
        exact star (ih h)
      · rwa [skipStars, List.dropWhile_cons_of_neg (by simpa using hp)] at h

theorem star_append {m n : Str} (s : Str) (h : Glob ('*' :: m) n) : Glob ('*' :: m) (s ++ n) := by
  induction s with
  | nil => exact h
  | cons c s ih => exact skip ih

end Glob

theorem matchChar_question (c : Char) : matchChar '?' c = true := by simp [matchChar]

/-- Only `?` stands behind the last star of a mask that ends in one. -/
theorem eq_replicate_of_endsInStar {pre q : Str} (hq : '*' ∉ q)
    (h : endsInStar (pre ++ '*' :: q) = true) : q = List.replicate q.length '?' := by
  rw [List.eq_replicate_iff]
  refine ⟨rfl, fun c hc => ?_⟩
  by_contra hne
  rw [endsInStar, List.reverse_append, List.reverse_cons, List.append_assoc,
    decide_eq_true_eq] at h
  have hmem : c ∈ q.reverse := List.mem_reverse.mpr hc
  have hd : q.reverse.dropWhile (· = '?') ≠ [] := by
    intro he
    rw [List.dropWhile_eq_nil_iff] at he
    exact hne (by simpa using he c hmem)
  obtain ⟨d, ds, hds⟩ := List.exists_cons_of_ne_nil hd
  rw [List.dropWhile_append, hds] at h
  simp only [List.isEmpty_cons, Bool.false_eq_true, if_false, List.cons_append, List.head?_cons,
    Option.some.injEq] at h
  subst h
  exact hq (List.mem_reverse.mp ((List.dropWhile_sublist _).subset
    (hds ▸ List.mem_cons_self)))

/-- What the loop knows: where it is in the mask, and what it matched since the
last star. -/
def Resumes (mask m n : Str) (back : Option (Str × Str)) : Prop :=
  m <:+ mask ∧ ∀ ma na, back = some (ma, na) → ∃ pre q s, mask = pre ++ '*' :: ma ∧
    ma = q ++ m ∧ na = s ++ n ∧ '*' ∉ q ∧ List.Forall₂ (fun p c => matchChar p c = true) q s

/-- What a successful run of the loop shows. -/
def Found (m n : Str) (back : Option (Str × Str)) : Prop :=
  Glob m n ∨ ∃ ma na, back = some (ma, na) ∧ Glob ('*' :: ma) na

theorem Glob.of_star_skipStars {m n : Str} (h : Glob ('*' :: skipStars m) n) :
    Glob ('*' :: m) n := by
  generalize hp : '*' :: skipStars m = p at h
  induction h with
  | nil => cases hp
  | star h _ =>
      obtain rfl := (List.cons.inj hp).2
      exact star (stars h)
  | skip _ ih => exact skip (ih hp)
  | char hc h _ =>
      obtain ⟨rfl, rfl⟩ := List.cons.inj hp
      exact char hc (stars h)

theorem Resumes.retry {mask m n ma na : Str} (h : Resumes mask m n (some (ma, na))) :
    Resumes mask ma na.tail (some (ma, na.tail)) := by
  obtain ⟨pre, q, s, hmask, -, -, -, -⟩ := h.2 ma na rfl
  have hsuf : ma <:+ mask := ⟨pre ++ ['*'], by rw [hmask]; simp⟩
  refine ⟨hsuf, fun ma' na' he => ?_⟩
  obtain ⟨rfl, rfl⟩ := Prod.mk.inj (Option.some.inj he)
  exact ⟨pre, [], [], hmask, rfl, rfl, by simp, List.Forall₂.nil⟩

theorem skipStars_of_head? {m : Str} (h : m.head? ≠ some '*') : skipStars m = m := by
  cases m with
  | nil => rfl
  | cons p m =>
      rw [skipStars, List.dropWhile_cons_of_neg]
      simpa using h

theorem exists_append_star {m : Str} (h : m.head? = some '*') :
    ∃ init, m = init ++ '*' :: skipStars m := by
  induction m with
  | nil => cases h
  | cons p m ih =>
      obtain rfl : p = '*' := Option.some.inj h
      have hs : skipStars ('*' :: m) = skipStars m := List.dropWhile_cons_of_pos (by simp)
      rw [hs]
      by_cases hm : m.head? = some '*'
      · obtain ⟨init, hinit⟩ := ih hm
        exact ⟨'*' :: init, by rw [List.cons_append, ← hinit]⟩
      · exact ⟨[], by rw [skipStars_of_head? hm]; rfl⟩

theorem Resumes.skipStars {mask m n : Str} {back : Option (Str × Str)}
    (h : Resumes mask m n back) : Resumes mask (skipStars m) n
      (if m.head? = some '*' then some (Unirc.skipStars m, n) else back) := by
  have hsuf : Unirc.skipStars m <:+ mask := (List.dropWhile_suffix _).trans h.1
  split
  · rename_i hm
    refine ⟨hsuf, fun ma na he => ?_⟩
    obtain ⟨rfl, rfl⟩ := Prod.mk.inj (Option.some.inj he)
    obtain ⟨pre, hpre⟩ := h.1
    obtain ⟨init, hinit⟩ := exists_append_star hm
    refine ⟨pre ++ init, [], [], ?_, rfl, rfl, by simp, List.Forall₂.nil⟩
    rw [← hpre, List.append_assoc, ← hinit]
  · rename_i hm
    refine ⟨hsuf, fun ma na he => ?_⟩
    rw [skipStars_of_head? hm]
    exact h.2 ma na he

theorem head?_skipStars (m : Str) : (skipStars m).head? ≠ some '*' := by
  intro h
  have := List.head?_dropWhile_not (· = '*') m
  rw [skipStars] at h
  simp [h] at this

theorem Glob.of_endsInStar {mask n ma na : Str}
    (hr : Resumes mask [] n (some (ma, na))) (he : endsInStar mask = true) :
    Glob ('*' :: ma) na := by
  obtain ⟨pre, q, s, hmask, hma, hna, hq, hqs⟩ := hr.2 ma na rfl
  rw [List.append_nil] at hma
  subst hma
  have hrep := eq_replicate_of_endsInStar hq (hmask ▸ he)
  have hlen : ma.length ≤ na.length := by
    rw [hna, List.length_append, List.Forall₂.length_eq hqs]
    exact Nat.le_add_right _ _
  have hall : ∀ (k : ℕ) (t : Str), t.length = k → Glob (List.replicate k '?') t := by
    intro k
    induction k with
    | zero =>
        intro t ht
        rw [List.length_eq_zero_iff.mp ht]
        exact Glob.nil
    | succ k ih =>
        intro t ht
        cases t with
        | nil => cases ht
        | cons c t => exact Glob.char (matchChar_question c) (ih t (Nat.succ.inj ht))
  have hend : Glob ma (na.drop (na.length - ma.length)) := by
    have h := hall ma.length (na.drop (na.length - ma.length)) (by rw [List.length_drop]; omega)
    rwa [← hrep] at h
  have := Glob.star_append (na.take (na.length - ma.length)) (Glob.star hend)
  rwa [List.take_append_drop] at this

theorem matchLoop_sound {mask : Str} {fuel : ℕ} {m n : Str} {back : Option (Str × Str)}
    (hr : Resumes mask m n back) (h : matchLoop mask fuel m n back = true) : Found m n back := by
  induction fuel generalizing m n back with
  | zero => cases h
  | succ fuel ih =>
      have hr' := hr.skipStars
      simp only [matchLoop] at h
      -- the first star of `m` replaces the way back
      suffices hf : Found (skipStars m) n
          (if m.head? = some '*' then some (skipStars m, n) else back) by
        rcases hf with hg | ⟨ma, na, he, hg⟩
        · exact Or.inl hg.stars
        · split at he
          · rename_i hm
            obtain ⟨rfl, rfl⟩ := Prod.mk.inj (Option.some.inj he)
            cases m with
            | nil => cases hm
            | cons p m =>
                obtain rfl : p = '*' := Option.some.inj hm
                have hs : skipStars ('*' :: m) = skipStars m :=
                  List.dropWhile_cons_of_pos (by simp)
                exact Or.inl (Glob.of_star_skipStars (hs ▸ hg))
          · exact Or.inr ⟨ma, na, he, hg⟩
      generalize (if m.head? = some '*' then some (skipStars m, n) else back) = back' at hr' h ⊢
      have hhead := head?_skipStars m
      generalize skipStars m = m' at hr' h hhead ⊢
      have hretry : (back'.elim false fun b =>
          matchLoop mask fuel b.1 b.2.tail (some (b.1, b.2.tail))) = true → Found m' n back' := by
        intro hret
        cases back' with
        | none => cases hret
        | some b =>
            obtain ⟨ma, na⟩ := b
            rw [Option.elim_some] at hret
            refine Or.inr ⟨ma, na, rfl, ?_⟩
            have hg : Glob ('*' :: ma) na.tail := by
              rcases ih hr'.retry hret with hg | ⟨ma', na', he, hg⟩
              · exact Glob.star hg
              · obtain ⟨rfl, rfl⟩ := Prod.mk.inj (Option.some.inj he)
                exact hg
            cases na with
            | nil => exact hg
            | cons c t => exact Glob.skip hg
      cases m' with
      | nil =>
          cases n with
          | nil => exact Or.inl Glob.nil
          | cons c n =>
              simp only [Bool.or_eq_true, Bool.and_eq_true] at h
              rcases h with ⟨hb, he⟩ | h
              · obtain ⟨⟨ma, na⟩, rfl⟩ := Option.isSome_iff_exists.mp hb
                exact Or.inr ⟨ma, na, rfl, Glob.of_endsInStar hr' he⟩
              · exact hretry h
      | cons p m' =>
          cases n with
          | nil => cases h
          | cons c n =>
              dsimp only at h
              split at h
              · rename_i hc
                have hnext : Resumes mask m' n back' := by
                  refine ⟨(List.suffix_cons p m').trans hr'.1, fun ma na he => ?_⟩
                  obtain ⟨pre, q, s, hmask, hma, hna, hq, hqs⟩ := hr'.2 ma na he
                  refine ⟨pre, q ++ [p], s ++ [c], hmask, by simp [hma], by simp [hna], ?_, ?_⟩
                  · intro hmem
                    rcases List.mem_append.mp hmem with hmem | hmem
                    · exact hq hmem
                    · exact hhead (by rw [List.mem_singleton.mp hmem]; rfl)
                  · exact List.rel_append hqs (List.Forall₂.cons hc List.Forall₂.nil)
                rcases ih hnext h with hg | hg
                · exact Or.inl (Glob.char hc hg)
                · exact Or.inr hg
              · exact hretry h

/-- A name that `match` accepts is one of the texts the mask stands for. -/
theorem glob_of_matchMask {mask name : Str} (h : matchMask mask name = true) :
    Glob mask name := by
  rcases matchLoop_sound ⟨List.suffix_rfl, fun ma na he => by cases he⟩ h with hg | ⟨_, _, he, _⟩
  · exact hg
  · cases he

theorem matchChar_congr (p : Char) {c d : Char} (h : toLower c = toLower d) :
    matchChar p c = matchChar p d := by
  have hd : c.isDigit = d.isDigit := by rw [← isDigit_toLower, h, isDigit_toLower]
  rw [matchChar, matchChar, h, hd]

theorem matchLoop_congr (mask : Str) (fuel : ℕ) (m : Str) {n n' : Str}
    {back back' : Option (Str × Str)} (hn : n.map toLower = n'.map toLower)
    (hb : back.map (Prod.map id (List.map toLower)) = back'.map (Prod.map id (List.map toLower))) :
    matchLoop mask fuel m n back = matchLoop mask fuel m n' back' := by
  induction fuel generalizing m n n' back back' with
  | zero => rfl
  | succ fuel ih =>
      have hb₁ : (if m.head? = some '*' then some (skipStars m, n) else back).map
            (Prod.map id (List.map toLower)) =
          (if m.head? = some '*' then some (skipStars m, n') else back').map
            (Prod.map id (List.map toLower)) := by
        split
        · simp [hn]
        · exact hb
      simp only [matchLoop]
      generalize (if m.head? = some '*' then some (skipStars m, n) else back) = b at hb₁
      generalize (if m.head? = some '*' then some (skipStars m, n') else back') = b' at hb₁
      have hretry : (b.elim false fun x => matchLoop mask fuel x.1 x.2.tail (some (x.1, x.2.tail))) =
          b'.elim false fun x => matchLoop mask fuel x.1 x.2.tail (some (x.1, x.2.tail)) := by
        cases b with
        | none =>
            cases b' with
            | none => rfl
            | some x' => cases hb₁
        | some x =>
            cases b' with
            | none => cases hb₁
            | some x' =>
                obtain ⟨h₁, h₂⟩ := Prod.mk.inj (Option.some.inj hb₁)
                have ht : x.2.tail.map toLower = x'.2.tail.map toLower := by
                  rw [List.map_tail, List.map_tail, h₂]
                simp only [id_eq] at h₁
                rw [Option.elim_some, Option.elim_some, h₁]
                exact ih _ ht (by simp [ht])
      have hsome : b.isSome = b'.isSome := by
        simpa using congrArg Option.isSome hb₁
      rw [hretry, hsome]
      cases skipStars m with
      | nil =>
          cases n with
          | nil =>
              cases n' with
              | nil => rfl
              | cons c' n' => cases hn
          | cons c n =>
              cases n' with
              | nil => cases hn
              | cons c' n' => rfl
      | cons p m' =>
          cases n with
          | nil =>
              cases n' with
              | nil => rfl
              | cons c' n' => cases hn
          | cons c n =>
              cases n' with
              | nil => cases hn
              | cons c' n' =>
                  obtain ⟨hc, hn'⟩ := List.cons.inj hn
                  simp only [matchChar_congr p hc]
                  rw [ih m' hn' hb₁]

/-- `match` does not see the case of the name. -/
theorem matchMask_congr (mask : Str) {n n' : Str} (h : n.map toLower = n'.map toLower) :
    matchMask mask n = matchMask mask n' := by
  have hl : n.length = n'.length := by
    simpa using congrArg List.length h
  rw [matchMask, matchMask, hl]
  exact matchLoop_congr mask _ mask h rfl

theorem matchChar_toLower (p c : Char) : matchChar (toLower p) c = matchChar p c := by
  simp only [matchChar, toLower_toLower, toLower_eq_iff_of_lt (show ('?' : Char).toNat < 0x41 by decide),
    toLower_eq_iff_of_lt (show ('#' : Char).toNat < 0x41 by decide)]

theorem toLower_eq_star (c : Char) : toLower c = '*' ↔ c = '*' := toLower_eq_iff_of_lt (by decide)

theorem skipStars_toLower (m : Str) : skipStars (m.map toLower) = (skipStars m).map toLower := by
  rw [skipStars, skipStars, List.dropWhile_map]
  congr 2
  funext c
  simp only [Function.comp_apply, toLower_eq_star]

theorem head?_toLower (m : Str) : (m.map toLower).head? = some '*' ↔ m.head? = some '*' := by
  cases m with
  | nil => simp
  | cons c m => simp [toLower_eq_star]

theorem endsInStar_toLower (mask : Str) : endsInStar (mask.map toLower) = endsInStar mask := by
  have hquestion : ((fun c : Char => decide (c = '?')) ∘ toLower) = fun c => decide (c = '?') := by
    funext c
    simp only [Function.comp_apply, toLower_eq_iff_of_lt (show ('?' : Char).toNat < 0x41 by decide)]
  rw [endsInStar, endsInStar, ← List.map_reverse, List.dropWhile_map, hquestion]
  exact decide_eq_decide.mpr (head?_toLower _)

theorem matchLoop_toLower (mask : Str) (fuel : ℕ) (m n : Str) (back : Option (Str × Str)) :
    matchLoop (mask.map toLower) fuel (m.map toLower) n (back.map (Prod.map (List.map toLower) id)) =
      matchLoop mask fuel m n back := by
  induction fuel generalizing m n back with
  | zero => rfl
  | succ fuel ih =>
      have hback : (if (m.map toLower).head? = some '*' then some (skipStars (m.map toLower), n)
          else back.map (Prod.map (List.map toLower) id)) =
          (if m.head? = some '*' then some (skipStars m, n) else back).map
            (Prod.map (List.map toLower) id) := by
        simp only [head?_toLower, skipStars_toLower]
        split <;> rfl
      simp only [matchLoop]
      rw [hback, skipStars_toLower, endsInStar_toLower]
      generalize (if m.head? = some '*' then some (skipStars m, n) else back) = b
      have hretry : ((b.map (Prod.map (List.map toLower) id)).elim false fun x =>
          matchLoop (mask.map toLower) fuel x.1 x.2.tail (some (x.1, x.2.tail))) =
          b.elim false fun x => matchLoop mask fuel x.1 x.2.tail (some (x.1, x.2.tail)) := by
        cases b with
        | none => rfl
        | some x => exact ih x.1 x.2.tail (some (x.1, x.2.tail))
      rw [hretry, Option.isSome_map]
      cases skipStars m with
      | nil => cases n <;> rfl
      | cons p m' =>
          cases n with
          | nil => rfl
          | cons c n =>
              simp only [List.map_cons, matchChar_toLower]
              rw [ih]

/-- `match` does not see the case of the mask. -/
theorem matchMask_toLower (mask n : Str) : matchMask (mask.map toLower) n = matchMask mask n :=
  matchLoop_toLower mask _ mask n none

section Escapes

/-- The comparison of a character that is neither `?` nor a `#` for a non-digit, and the rest of
the mask. -/
def matchEscChar (p c : Char) (m : Str) : Option (Bool × Str) :=
  if p ≠ '?' ∧ (p ≠ '#' ∨ c.isDigit = true) then
    if p = '\\' then m.head?.map fun q => (toLower q = toLower c, m.tail)
    else some (toLower p = toLower c, m)
  else some (true, m)

/-- The loop of `match_esc`: a backslash makes the next character of the mask an ordinary one. A
`#` stands for any character but a digit. -/
def matchEscLoop (mask : Str) : ℕ → Str → Str → Option (Str × Str) → Bool
  | 0, _, _, _ => false
  | fuel + 1, m, n, back =>
      let back := if m.head? = some '*' then some (skipStars m, n) else back
      let retry := back.elim false fun b =>
        matchEscLoop mask fuel b.1 b.2.tail (some (b.1, b.2.tail))
      match skipStars m, n with
      | [], [] => true
      | [], _ :: _ => back.isSome && endsInStar mask || retry
      | _ :: _, [] => false
      | p :: m', c :: n' =>
          match matchEscChar p c m' with
          | none => false
          | some (true, m') => matchEscLoop mask fuel m' n' back
          | some (false, _) => retry

def matchEsc (mask name : Str) : Bool :=
  matchEscLoop mask ((name.length + 2) * (name.length + 2)) mask name none

end Escapes

end Unirc
