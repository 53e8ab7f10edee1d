import Mathlib.Data.List.Forall2
import Mathlib.Data.List.TakeWhile
import Mathlib.Tactic.Common

/-!
# A matcher that goes back to the last star

A mask is a list of places: `none` stands for any text, and `some a` for one character. The matcher
keeps the mask behind the last star and the place in the text from which it was last tried; it never
goes back to an earlier star.
-/

section

variable {α β : Type*}

/-- The texts that a mask stands for. `verdict` tells what a place says to a character; `none` is
the verdict of a place at which the matcher gives up. -/
inductive Globs (verdict : α → β → Option Bool) : List (Option α) → List β → Prop
  | nil : Globs verdict [] []
  | star {m : List (Option α)} {n : List β} : Globs verdict m n → Globs verdict (none :: m) n
  | skip {m : List (Option α)} {n : List β} {c : β} :
      Globs verdict (none :: m) n → Globs verdict (none :: m) (c :: n)
  | one {m : List (Option α)} {n : List β} {a : α} {c : β} :
      verdict a c = some true → Globs verdict m n → Globs verdict (some a :: m) (c :: n)

def skipNone (m : List (Option α)) : List (Option α) := m.dropWhile Option.isNone

/-- The matcher on the rest `m` of a mask and `n` of a text; `none` tells that the rounds were too
few. With `early` it accepts when the mask ends before the text does, if there was a star. -/
def globLoop (verdict : α → β → Option Bool) (early : Bool) :
    ℕ → List (Option α) → List β → Option (List (Option α) × List β) → Option Bool
  | 0, _, _, _ => none
  | fuel + 1, m, n, back =>
      let back := if m.head?.any Option.isNone then some (skipNone m, n) else back
      let retry := back.elim (some false) fun b =>
        globLoop verdict early fuel b.1 b.2.tail (some (b.1, b.2.tail))
      match skipNone m, n with
      | [], [] => some true
      | [], _ :: _ => if back.isSome && early then some true else retry
      | _ :: _, [] => some false
      | none :: _, _ :: _ => some false
      | some a :: m', c :: n' =>
          match verdict a c with
          | none => some false
          | some true => globLoop verdict early fuel m' n' back
          | some false => retry

end

namespace Globs

variable {α β : Type*} {verdict : α → β → Option Bool} {m : List (Option α)} {n : List β}

theorem star_append (s : List β) (h : Globs verdict (none :: m) n) :
    Globs verdict (none :: m) (s ++ n) := by
  induction s with
  | nil => exact h
  | cons c s ih => exact skip ih

theorem star_cases (h : Globs verdict (none :: m) n) : ∃ s t, n = s ++ t ∧ Globs verdict m t := by
  generalize hp : none :: m = p at h
  induction h with
  | nil => cases hp
  | star h _ =>
      obtain rfl := (List.cons.inj hp).2
      exact ⟨[], _, rfl, h⟩
  | skip _ ih =>
      obtain ⟨s, t, rfl, ht⟩ := ih hp
      exact ⟨_ :: s, t, rfl, ht⟩
  | one _ _ => cases hp

theorem append_cases {p : List (Option α)} (h : Globs verdict (p ++ m) n) :
    ∃ s t, n = s ++ t ∧ Globs verdict p s ∧ Globs verdict m t := by
  induction p generalizing n with
  | nil => exact ⟨[], n, rfl, nil, h⟩
  | cons a p ih =>
      cases a with
      | none =>
          obtain ⟨s, t, rfl, ht⟩ := star_cases h
          obtain ⟨s', t, rfl, hs', ht⟩ := ih ht
          exact ⟨s ++ s', t, (List.append_assoc s s' t).symm, (star hs').star_append s, ht⟩
      | some a =>
          cases h with
          | one hc h =>
              obtain ⟨s, t, rfl, hs, ht⟩ := ih h
              exact ⟨_ :: s, t, rfl, one hc hs, ht⟩

theorem append {p : List (Option α)} {s : List β} (hs : Globs verdict p s)
    (h : Globs verdict m n) : Globs verdict (p ++ m) (s ++ n) := by
  induction hs with
  | nil => exact h
  | star _ ih => exact star ih
  | skip _ ih => exact skip ih
  | one hc _ ih => exact one hc ih

/-- A mask without stars. -/
theorem map_some_iff {q : List α} :
    Globs verdict (q.map some) n ↔ List.Forall₂ (fun a c => verdict a c = some true) q n := by
  induction q generalizing n with
  | nil =>
      constructor
      · rintro ⟨⟩
        exact List.Forall₂.nil
      · rintro ⟨⟩
        exact nil
  | cons a q ih =>
      constructor
      · rintro (_ | _ | _ | ⟨hc, h⟩)
        exact List.Forall₂.cons hc (ih.mp h)
      · rintro (_ | ⟨hc, h⟩)
        exact one hc (ih.mpr h)

theorem star_skipNone (h : Globs verdict m n) : Globs verdict (none :: skipNone m) n := by
  induction h with
  | nil => exact star nil
  | star _ ih => exact ih
  | skip _ ih => exact skip ih
  | one hc h _ => exact star (one hc h)

theorem of_skipNone (h : Globs verdict (skipNone m) n) : Globs verdict m n := by
  induction m with
  | nil => exact h
  | cons a m ih =>
      cases a with
      | none => exact star (ih h)
      | some a => exact h

theorem of_star_skipNone (h : Globs verdict (none :: skipNone m) n) :
    Globs verdict (none :: m) n := by
  obtain ⟨s, t, rfl, ht⟩ := h.star_cases
  exact (star ht.of_skipNone).star_append s

theorem imp {w : α → β → Option Bool}
    (hv : ∀ a, some a ∈ m → ∀ c, verdict a c = some true → w a c = some true)
    (h : Globs verdict m n) : Globs w m n := by
  induction h with
  | nil => exact nil
  | star _ ih => exact star (ih fun a ha => hv a (List.mem_cons_of_mem _ ha))
  | skip _ ih => exact skip (ih hv)
  | one hc _ ih =>
      exact one (hv _ List.mem_cons_self _ hc) (ih fun a ha => hv a (List.mem_cons_of_mem _ ha))

/-- A mask that ends in a star and places for any character stands for longer texts as well. -/
theorem extend {p : List (Option α)} {q : List α} (hq : ∀ a ∈ q, ∀ c, verdict a c = some true)
    (h : Globs verdict (p ++ none :: q.map some) n) (t : List β) :
    Globs verdict (p ++ none :: q.map some) (n ++ t) := by
  obtain ⟨s, u, rfl, hs, hu⟩ := h.append_cases
  obtain ⟨x, y, rfl, hy⟩ := hu.star_cases
  have hlen := (map_some_iff.mp hy).length_eq
  have hend : Globs verdict (q.map some) ((y ++ t).drop t.length) := by
    refine map_some_iff.mpr (List.forall₂_iff_get.mpr ⟨?_, fun i hi _ => ?_⟩)
    · rw [List.length_drop, List.length_append]
      omega
    · exact hq _ (List.get_mem q ⟨i, hi⟩) _
  have htext : s ++ (x ++ y) ++ t =
      s ++ (x ++ ((y ++ t).take t.length) ++ (y ++ t).drop t.length) := by
    rw [List.append_assoc x, List.take_append_drop]
    simp only [List.append_assoc]
  rw [htext]
  exact hs.append ((star hend).star_append _)

end Globs

namespace GlobLoop

variable {α β : Type*} {verdict : α → β → Option Bool} {early : Bool} {m : List (Option α)}
  {n : List β}

/-- A text that the matcher accepts: one that the mask stands for, or with `early` one that begins
so. -/
def Accepted (verdict : α → β → Option Bool) (early : Bool) (m : List (Option α)) (n : List β) :
    Prop :=
  ∃ s t, n = s ++ t ∧ Globs verdict m s ∧ (early = false → t = [])

theorem Accepted.of_globs (h : Globs verdict m n) : Accepted verdict early m n :=
  ⟨n, [], (List.append_nil n).symm, h, fun _ => rfl⟩

/-- `m` and `n` are what is left after the places `q` accepted the characters since the last
star. -/
def Resumes (verdict : α → β → Option Bool) (m : List (Option α)) (n : List β)
    (back : Option (List (Option α) × List β)) : Prop :=
  ∀ ma na, back = some (ma, na) → ∃ q s, ma = q.map some ++ m ∧ na = s ++ n ∧
    List.Forall₂ (fun a c => verdict a c = some true) q s

/-- The text is accepted from here, or from a later place for the last star. -/
def Found (verdict : α → β → Option Bool) (early : Bool) (m : List (Option α)) (n : List β)
    (back : Option (List (Option α) × List β)) : Prop :=
  Accepted verdict early m n ∨
    ∃ ma na, back = some (ma, na) ∧ Accepted verdict early (none :: ma) na

section Accepts

variable {a : α} {c : β} {ma : List (Option α)} {na : List β}
  {back : Option (List (Option α) × List β)}

theorem Accepted.skip (h : Accepted verdict early (none :: m) n) :
    Accepted verdict early (none :: m) (c :: n) := by
  obtain ⟨s, t, rfl, hs, ht⟩ := h
  exact ⟨c :: s, t, rfl, Globs.skip hs, ht⟩

theorem Accepted.one (hc : verdict a c = some true) (h : Accepted verdict early m n) :
    Accepted verdict early (some a :: m) (c :: n) := by
  obtain ⟨s, t, rfl, hs, ht⟩ := h
  exact ⟨c :: s, t, rfl, Globs.one hc hs, ht⟩

theorem Accepted.cases_one (h : Accepted verdict early (some a :: m) (c :: n)) :
    verdict a c = some true ∧ Accepted verdict early m n := by
  obtain ⟨s, t, he, hs, ht⟩ := h
  cases hs with
  | one hc hs =>
      obtain ⟨rfl, rfl⟩ := List.cons.inj he
      exact ⟨hc, _, t, rfl, hs, ht⟩

theorem not_accepted_nil : ¬Accepted verdict early (some a :: m) [] := by
  rintro ⟨s, t, he, hs, -⟩
  obtain ⟨rfl, -⟩ := List.append_eq_nil_iff.mp he.symm
  cases hs

/-- What the last star stands for may as well be found from where the matcher is now. -/
theorem Resumes.accepted (hr : Resumes verdict m n (some (ma, na)))
    (h : Accepted verdict early (none :: ma) na) :
    ∃ x n', n = x ++ n' ∧ Accepted verdict early m n' := by
  obtain ⟨q, s, rfl, rfl, hqs⟩ := hr ma na rfl
  obtain ⟨u, t, he, hu, ht⟩ := h
  obtain ⟨s₁, u₁, rfl, hu₁⟩ := hu.star_cases
  obtain ⟨s₂, u₂, rfl, hs₂, hu₂⟩ := hu₁.append_cases
  have hlen := (Globs.map_some_iff.mp hs₂).length_eq
  rw [hqs.length_eq] at hlen
  have he' : s ++ n = s₁ ++ s₂ ++ (u₂ ++ t) := by
    rw [he]
    simp only [List.append_assoc]
  rcases List.append_eq_append_iff.mp he' with ⟨x, -, hx⟩ | ⟨x, hs, hx⟩
  · exact ⟨x, u₂ ++ t, hx, u₂, t, rfl, hu₂, ht⟩
  · have hnil : x = [] := by
      have hlength := congrArg List.length hs
      simp only [List.length_append] at hlength
      exact List.eq_nil_of_length_eq_zero (by omega)
    rw [hnil, List.nil_append] at hx
    exact ⟨[], n, rfl, u₂, t, hx.symm, hu₂, ht⟩

/-- A retry finds what the last star stands for, if the rest of the mask accepts nothing here. -/
theorem Resumes.tail_of_not (hr : Resumes verdict m n (some (ma, na)))
    (h : Accepted verdict early (none :: ma) na) (hnot : ¬Accepted verdict early m n) :
    ∃ c t, na = c :: t ∧ Accepted verdict early (none :: ma) t := by
  obtain ⟨u, t, he, hu, ht⟩ := h
  cases hu with
  | star hu =>
      obtain ⟨q, s, rfl, rfl, hqs⟩ := hr ma na rfl
      obtain ⟨s₂, u₂, rfl, hs₂, hu₂⟩ := hu.append_cases
      have hlen := (Globs.map_some_iff.mp hs₂).length_eq
      rw [List.append_assoc] at he
      obtain ⟨-, rfl⟩ := List.append_inj he (hqs.length_eq.symm.trans hlen)
      exact absurd ⟨u₂, t, rfl, hu₂, ht⟩ hnot
  | skip hu => exact ⟨_, _, he, _, t, rfl, hu, ht⟩

theorem skipNone_of_not (hm : ¬m.head?.any Option.isNone = true) : skipNone m = m := by
  cases m with
  | nil => rfl
  | cons a m => exact List.dropWhile_cons_of_neg (by simpa using hm)

theorem head_skipNone (m : List (Option α)) : (skipNone m).head?.any Option.isNone = false := by
  have h := List.head?_dropWhile_not Option.isNone m
  rw [skipNone]
  cases hm : (m.dropWhile Option.isNone).head? with
  | none => rfl
  | some a =>
      rw [hm] at h
      simpa using h

/-- The way back of the matcher once it has skipped the stars before it. -/
def backAt (m : List (Option α)) (n : List β) (back : Option (List (Option α) × List β)) :
    Option (List (Option α) × List β) :=
  if m.head?.any Option.isNone then some (skipNone m, n) else back

theorem Resumes.skipNone (hr : Resumes verdict m n back) :
    Resumes verdict (skipNone m) n (backAt m n back) := by
  intro ma na he
  unfold backAt at he
  split at he
  · obtain ⟨rfl, rfl⟩ := Prod.mk.inj (Option.some.inj he)
    exact ⟨[], [], rfl, rfl, List.Forall₂.nil⟩
  · rename_i hm
    rw [skipNone_of_not hm]
    exact hr ma na he

theorem Accepted.star_append (x : List β) (h : Accepted verdict early (none :: m) n) :
    Accepted verdict early (none :: m) (x ++ n) := by
  induction x with
  | nil => exact h
  | cons c x ih => exact ih.skip

theorem found_skipNone (hr : Resumes verdict m n back) :
    Found verdict early (skipNone m) n (backAt m n back) ↔
      Found verdict early m n back := by
  unfold backAt
  split
  · rename_i hm
    obtain ⟨m, rfl⟩ : ∃ m', m = none :: m' := by
      rcases m with _ | ⟨_ | a, m⟩
      · cases hm
      · exact ⟨m, rfl⟩
      · cases hm
    constructor
    · rintro (⟨s, t, rfl, hs, ht⟩ | ⟨ma, na, he, s, t, rfl, hs, ht⟩)
      · exact .inl ⟨s, t, rfl, hs.of_skipNone, ht⟩
      · obtain ⟨rfl, rfl⟩ := Prod.mk.inj (Option.some.inj he)
        have hs' : Globs verdict (none :: skipNone m) s := hs
        exact .inl ⟨s, t, rfl, hs'.of_star_skipNone, ht⟩
    · intro h
      obtain ⟨x, n', rfl, s, t, rfl, hs, ht⟩ : ∃ x n', n = x ++ n' ∧
          Accepted verdict early (none :: m) n' := by
        rcases h with h | ⟨ma, na, rfl, h⟩
        · exact ⟨[], n, rfl, h⟩
        · exact hr.accepted h
      exact .inr ⟨_, _, rfl, Accepted.star_append x ⟨s, t, rfl, hs.star_skipNone, ht⟩⟩
  · rename_i hm
    rw [skipNone_of_not hm]

end Accepts

/-- The rounds that the matcher has left, for texts of at most `len` characters. -/
def roundsLeft (len : ℕ) (n : List β) (back : Option (List (Option α) × List β)) : ℕ :=
  back.elim (len + 1) (fun b => b.2.length) * (len + 2) + n.length

theorem roundsLeft_retry {len : ℕ} {ma : List (Option α)} {t : List β} {c : β}
    (hlen : t.length ≤ len) :
    roundsLeft len t (some (ma, t)) < roundsLeft len n (some (ma, c :: t)) := by
  simp only [roundsLeft, Option.elim_some, List.length_cons, Nat.add_mul]
  omega

/-- The matcher ends, and accepts what the mask stands for. -/
theorem globLoop_found {e : Bool} (hgive : ∀ a c d, verdict a c = none → verdict a d ≠ some true)
    {len fuel : ℕ} {back : Option (List (Option α) × List β)} (hr : Resumes verdict m n back)
    (hn : n.length ≤ len) (hback : ∀ ma na, back = some (ma, na) → na.length ≤ len)
    (he : e = true ↔ early = true ∧ (m.any Option.isNone = true ∨ back.isSome = true))
    (hfuel : roundsLeft len n back < fuel) :
    ∃ b, globLoop verdict early fuel m n back = some b ∧
      (b = true ↔ Found verdict e m n back) := by
  induction fuel generalizing m n back with
  | zero => exact absurd hfuel (Nat.not_lt_zero _)
  | succ fuel ih =>
      have hr' := hr.skipNone
      have hfound : Found verdict e (skipNone m) n (backAt m n back) ↔ Found verdict e m n back :=
        found_skipNone hr
      have hback' : ∀ ma na, backAt m n back = some (ma, na) → na.length ≤ len := by
        intro ma na h
        unfold backAt at h
        split at h
        · obtain ⟨-, rfl⟩ := Prod.mk.inj (Option.some.inj h)
          exact hn
        · exact hback ma na h
      have he' : e = true ↔ early = true ∧
          ((skipNone m).any Option.isNone = true ∨ (backAt m n back).isSome = true) := by
        rw [he]
        unfold backAt
        split
        · rename_i hm
          have hany : m.any Option.isNone = true := by
            rcases m with _ | ⟨_ | a, m⟩
            · cases hm
            · rfl
            · cases hm
          simp [hany]
        · rename_i hm
          rw [skipNone_of_not hm]
      have hfuel' : roundsLeft len n (backAt m n back) < fuel + 1 := by
        refine lt_of_le_of_lt (Nat.add_le_add_right (Nat.mul_le_mul_right _ ?_) _) hfuel
        unfold backAt
        split
        · cases back with
          | none => exact Nat.le_succ_of_le hn
          | some b =>
              obtain ⟨q, s, -, hna, -⟩ := hr b.1 b.2 rfl
              rw [Option.elim_some, Option.elim_some, hna, List.length_append]
              exact Nat.le_add_left _ _
        · exact Nat.le_refl _
      simp only [globLoop]
      rw [← backAt, ← hfound]
      have hhead := head_skipNone m
      generalize backAt m n back = back' at *
      generalize skipNone m = m' at *
      have hretry : n ≠ [] → ¬Accepted verdict e m' n →
          ∃ b, (back'.elim (some false) fun b =>
            globLoop verdict early fuel b.1 b.2.tail (some (b.1, b.2.tail))) = some b ∧
              (b = true ↔ Found verdict e m' n back') := by
        intro hne hnot
        cases back' with
        | none =>
            refine ⟨false, rfl, ⟨fun h => (by cases h), ?_⟩⟩
            rintro (h | ⟨ma, na, h, -⟩)
            · exact absurd h hnot
            · cases h
        | some b =>
            obtain ⟨ma, na⟩ := b
            obtain ⟨q, s, -, hna, -⟩ := hr' ma na rfl
            obtain ⟨c, t, rfl⟩ : ∃ c t, na = c :: t :=
              List.exists_cons_of_ne_nil (by simp [hna, hne])
            have hlen := hback' ma (c :: t) rfl
            rw [List.length_cons] at hlen
            have hstart : Resumes verdict ma t (some (ma, t)) := fun ma' na' h => by
              obtain ⟨rfl, rfl⟩ := Prod.mk.inj (Option.some.inj h)
              exact ⟨[], [], rfl, rfl, List.Forall₂.nil⟩
            obtain ⟨b, hb, hiff⟩ := ih hstart (Nat.le_of_succ_le hlen)
              (fun ma' na' h => by
                obtain ⟨-, rfl⟩ := Prod.mk.inj (Option.some.inj h)
                exact Nat.le_of_succ_le hlen)
              (he'.trans (by simp))
              (Nat.lt_of_lt_of_le (roundsLeft_retry (Nat.le_of_succ_le hlen))
                (Nat.lt_succ_iff.mp hfuel'))
            refine ⟨b, hb, hiff.trans ⟨fun h => ?_, fun h => ?_⟩⟩
            · have hstar : Accepted verdict e (none :: ma) t := by
                rcases h with ⟨s, u, rfl, hs, hu⟩ | ⟨ma', na', h, ha⟩
                · exact ⟨s, u, rfl, hs.star, hu⟩
                · obtain ⟨rfl, rfl⟩ := Prod.mk.inj (Option.some.inj h)
                  exact ha
              exact .inr ⟨ma, c :: t, rfl, hstar.skip⟩
            · rcases h with h | ⟨ma', na', h, ha⟩
              · exact absurd h hnot
              · obtain ⟨rfl, rfl⟩ := Prod.mk.inj (Option.some.inj h)
                obtain ⟨c', t', hct, ht⟩ := hr'.tail_of_not ha hnot
                obtain ⟨-, rfl⟩ := List.cons.inj hct
                exact .inr ⟨ma, t, rfl, ht⟩
      have hreject : ∀ {a m₁}, m' = some a :: m₁ → n = [] ∨
          (∃ c n₁, n = c :: n₁ ∧ verdict a c = none) → ¬Found verdict e m' n back' := by
        rintro a m₁ rfl hn' hf
        obtain ⟨x, n', hx, hacc⟩ : ∃ x n', n = x ++ n' ∧
            Accepted verdict e (some a :: m₁) n' := by
          rcases hf with h | ⟨ma, na, rfl, h⟩
          · exact ⟨[], n, rfl, h⟩
          · exact hr'.accepted h
        rcases hn' with rfl | ⟨c, n₁, rfl, hc⟩
        · obtain ⟨-, rfl⟩ := List.append_eq_nil_iff.mp hx.symm
          exact not_accepted_nil hacc
        · cases n' with
          | nil => exact not_accepted_nil hacc
          | cons d n' => exact hgive a c d hc hacc.cases_one.1
      rcases m' with _ | ⟨_ | a, m'⟩
      · cases n with
        | nil => exact ⟨true, rfl, by simpa using .inl (.of_globs Globs.nil)⟩
        | cons c n =>
            dsimp only
            split
            · rename_i hb
              rw [Bool.and_eq_true] at hb
              have hearly : e = true := he'.mpr ⟨hb.2, .inr hb.1⟩
              exact ⟨true, rfl, by
                simpa using .inl ⟨[], c :: n, rfl, Globs.nil, by simp [hearly]⟩⟩
            · rename_i hb
              have hearly : e = false := by
                rw [Bool.eq_false_iff, ne_eq, he']
                rintro ⟨h₁, h₂ | h₂⟩
                · cases h₂
                · exact hb (by rw [h₁, h₂]; rfl)
              refine hretry (List.cons_ne_nil c n) ?_
              rintro ⟨s, t, hst, hs, ht⟩
              cases hs
              rw [ht hearly] at hst
              cases hst
      · cases hhead
      · cases n with
        | nil => exact ⟨false, rfl, by simpa using hreject rfl (.inl rfl)⟩
        | cons c n =>
            dsimp only
            split
            · rename_i hc
              exact ⟨false, rfl, by simpa using hreject rfl (.inr ⟨c, n, rfl, hc⟩)⟩
            · rename_i hc
              have hnext : Resumes verdict m' n back' := fun ma na h => by
                obtain ⟨q, s, hma, hna, hqs⟩ := hr' ma na h
                exact ⟨q ++ [a], s ++ [c], by simp [hma], by simp [hna],
                  List.rel_append hqs (List.Forall₂.cons hc List.Forall₂.nil)⟩
              obtain ⟨b, hb, hiff⟩ := ih hnext (Nat.le_of_succ_le hn) hback'
                (he'.trans (by simp)) (Nat.lt_of_succ_lt_succ hfuel')
              refine ⟨b, hb, hiff.trans (or_congr ⟨Accepted.one hc, fun h => h.cases_one.2⟩
                Iff.rfl)⟩
            · rename_i hc
              refine hretry (List.cons_ne_nil c n) fun h => ?_
              rw [h.cases_one.1] at hc
              cases hc

theorem globLoop_iff (verdict : α → β → Option Bool) (early : Bool) (m : List (Option α))
    (n : List β) (hgive : ∀ a c d, verdict a c = none → verdict a d ≠ some true) :
    ∃ b, globLoop verdict early ((n.length + 2) * (n.length + 2)) m n none = some b ∧
      (b = true ↔ Accepted verdict (early && m.any Option.isNone) m n) := by
  have hstart : Resumes verdict m n none := fun ma na h => by cases h
  have he : (early && m.any Option.isNone) = true ↔ early = true ∧
      (m.any Option.isNone = true ∨
        (none : Option (List (Option α) × List β)).isSome = true) := by
    simp
  have hrounds : roundsLeft n.length n (none : Option (List (Option α) × List β)) <
      (n.length + 2) * (n.length + 2) := by
    simp only [roundsLeft, Option.elim_none, Nat.add_mul, Nat.mul_add]
    omega
  obtain ⟨b, hb, hiff⟩ := globLoop_found hgive hstart (Nat.le_refl _)
    (fun ma na h => by cases h) he hrounds
  refine ⟨b, hb, hiff.trans ⟨?_, .inl⟩⟩
  rintro (h | ⟨ma, na, h, -⟩)
  · exact h
  · cases h

end GlobLoop
