import Mathlib.Data.List.TakeWhile
import Unirc.Chars

/-!
# Splitting a line into parameters

`string_to_array` of `parse.c`. At most thirteen parameters are separated by
blanks; the next one, or one that starts with a colon, is the rest of the line.
-/

namespace Unirc

def skipBlanks (s : Str) : Str := s.dropWhile (· = ' ')

def dropColon : Str → Str
  | ':' :: s => s
  | s => s

/-- The loop of `string_to_array` with `n` separated parameters to go, at the
text `p` that follows the last separator. -/
def splitArgs : ℕ → Str → List Str
  | 0, p => if skipBlanks p = [] then [] else [dropColon p]
  | n + 1, p =>
      match skipBlanks p with
      | [] => []
      | c :: buf =>
          if c = ':' then [buf]
          else
            match (c :: buf).dropWhile (· ≠ ' ') with
            | [] => [c :: buf]
            | _ :: p' => (c :: buf).takeWhile (· ≠ ' ') :: splitArgs n p'

/-- `parv[1]`, `parv[2]`, … -/
def stringToArray (s : Str) : List Str := splitArgs 13 s

/-- A parameter that is read back as it was written. -/
structure IsWord (s : Str) : Prop where
  ne_nil : s ≠ []
  blank : ' ' ∉ s
  colon : s.head? ≠ some ':'

instance (s : Str) : Decidable (IsWord s) :=
  decidable_of_iff (s ≠ [] ∧ ' ' ∉ s ∧ s.head? ≠ some ':')
    ⟨fun ⟨hne, hblank, hcolon⟩ => ⟨hne, hblank, hcolon⟩, fun h => ⟨h.1, h.2, h.3⟩⟩

theorem IsWord.exists_cons {s : Str} (h : IsWord s) :
    ∃ c t, s = c :: t ∧ c ≠ ' ' ∧ c ≠ ':' := by
  obtain ⟨c, t, rfl⟩ := List.exists_cons_of_ne_nil h.ne_nil
  refine ⟨c, t, rfl, ?_, ?_⟩
  · rintro rfl
    exact h.blank List.mem_cons_self
  · rintro rfl
    exact h.colon rfl

theorem takeWhile_notBlank {s : Str} (h : ' ' ∉ s) (rest : Str) :
    (s ++ ' ' :: rest).takeWhile (· ≠ ' ') = s := by
  rw [List.takeWhile_append_of_pos]
  · simp
  · intro c hc
    simp only [ne_eq, decide_not, Bool.not_eq_eq_eq_not, Bool.not_true, decide_eq_false_iff_not]
    rintro rfl
    exact h hc

theorem dropWhile_notBlank {s : Str} (h : ' ' ∉ s) (rest : Str) :
    (s ++ ' ' :: rest).dropWhile (· ≠ ' ') = ' ' :: rest := by
  rw [List.dropWhile_append_of_pos]
  · simp
  · intro c hc
    simp only [ne_eq, decide_not, Bool.not_eq_eq_eq_not, Bool.not_true, decide_eq_false_iff_not]
    rintro rfl
    exact h hc

theorem splitArgs_word {s : Str} (h : IsWord s) (n : ℕ) (rest : Str) :
    splitArgs (n + 1) (s ++ ' ' :: rest) = s :: splitArgs n rest := by
  obtain ⟨c, t, rfl, hb, hc⟩ := h.exists_cons
  have hs : skipBlanks (c :: t ++ ' ' :: rest) = c :: (t ++ ' ' :: rest) := by
    simp [skipBlanks, hb]
  have ht := takeWhile_notBlank h.blank rest
  have hd := dropWhile_notBlank h.blank rest
  rw [List.cons_append] at ht hd
  rw [splitArgs, hs]
  simp only [if_neg hc, ht, hd]

theorem splitArgs_colon (n : ℕ) (rest : Str) : splitArgs (n + 1) (':' :: rest) = [rest] := by
  simp [splitArgs, skipBlanks]

theorem splitArgs_words {ws : List Str} (h : ∀ w ∈ ws, IsWord w) (n : ℕ) (rest : Str) :
    splitArgs (n + ws.length) (ws.flatMap (fun w => w ++ [' ']) ++ rest) =
      ws ++ splitArgs n rest := by
  induction ws with
  | nil => rfl
  | cons w ws ih =>
      have hw := splitArgs_word (h w List.mem_cons_self) (n + ws.length)
        (ws.flatMap (fun w => w ++ [' ']) ++ rest)
      rw [ih fun v hv => h v (List.mem_cons_of_mem _ hv)] at hw
      simpa [List.flatMap_cons, List.append_assoc, Nat.add_assoc] using hw

theorem head?_takeWhile_of_pos {c : Char} {s : Str} (h : c ≠ ' ') :
    ((c :: s).takeWhile (· ≠ ' ')).head? = some c := by
  simp [h]

/-- Every parameter but the last was cut at blanks. -/
theorem isWord_of_mem_dropLast {n : ℕ} {p w : Str} (h : w ∈ (splitArgs n p).dropLast) :
    IsWord w := by
  induction n generalizing p with
  | zero =>
      rw [splitArgs] at h
      split at h <;> cases h
  | succ n ih =>
      rw [splitArgs] at h
      split at h
      · cases h
      · rename_i c buf hs
        have hb : c ≠ ' ' := by
          rintro rfl
          have := List.head?_dropWhile_not (· = ' ') p
          rw [skipBlanks] at hs
          simp [hs] at this
        split at h
        · cases h
        · rename_i hc
          split at h
          · cases h
          · rename_i p' _
            cases ht : splitArgs n p' with
            | nil => rw [ht] at h; cases h
            | cons a as =>
                rw [ht, List.dropLast_cons_of_ne_nil (List.cons_ne_nil a as)] at h
                rcases List.mem_cons.mp h with rfl | h
                · refine ⟨by simp [hb], ?_, ?_⟩
                  · intro hm
                    have := List.mem_takeWhile_imp hm
                    simp at this
                  · rw [head?_takeWhile_of_pos hb]
                    intro he
                    exact hc (Option.some.inj he)
                · exact ih (ht ▸ h)

theorem splitArgs_cases {n : ℕ} {p a : Str} {as : List Str} (h : splitArgs (n + 1) p = a :: as) :
    IsWord a ∨ as = [] ∧ ∃ s, p = s ++ ':' :: a := by
  rw [splitArgs] at h
  have hp : p = p.takeWhile (· = ' ') ++ skipBlanks p := (List.takeWhile_append_dropWhile ..).symm
  split at h
  · cases h
  · rename_i c buf hs
    have hb : c ≠ ' ' := by
      rintro rfl
      have := List.head?_dropWhile_not (· = ' ') p
      rw [skipBlanks] at hs
      simp [hs] at this
    split at h
    · rename_i hc
      obtain ⟨rfl, rfl⟩ := List.cons.inj h
      exact Or.inr ⟨rfl, _, hp.trans (by rw [hs, hc])⟩
    · rename_i hc
      have hword : IsWord ((c :: buf).takeWhile (· ≠ ' ')) := by
        refine ⟨by simp [hb], fun hm => ?_, ?_⟩
        · have := List.mem_takeWhile_imp hm
          simp at this
        · rw [head?_takeWhile_of_pos hb]
          exact fun he => hc (Option.some.inj he)
      split at h
      · rename_i hall
        have heq : (c :: buf).takeWhile (· ≠ ' ') = c :: buf := by
          have := @List.takeWhile_append_dropWhile _ (· ≠ ' ') (c :: buf)
          rwa [hall, List.append_nil] at this
        rw [heq] at hword
        exact Or.inl ((List.cons.inj h).1 ▸ hword)
      · exact Or.inl ((List.cons.inj h).1 ▸ hword)

theorem splitArgs_last {s : Str} (h : IsWord s) (n : ℕ) : splitArgs (n + 1) s = [s] := by
  obtain ⟨c, t, rfl, hb, hc⟩ := h.exists_cons
  have hs : skipBlanks (c :: t) = c :: t := by simp [skipBlanks, hb]
  have hd : (c :: t).dropWhile (· ≠ ' ') = [] := by
    rw [List.dropWhile_eq_nil_iff]
    intro d hd
    simpa using fun heq : d = ' ' => h.blank (heq ▸ hd)
  rw [splitArgs, hs]
  simp only [if_neg hc, hd]

theorem splitArgs_nil (n : ℕ) : splitArgs n [] = [] := by
  cases n <;> rfl

theorem IsWord.take {s : Str} (h : IsWord s) {n : ℕ} (hn : 0 < n) : IsWord (s.take n) := by
  obtain ⟨c, t, rfl, hb, hc⟩ := h.exists_cons
  obtain ⟨n, rfl⟩ := Nat.exists_eq_succ_of_ne_zero hn.ne'
  rw [List.take_succ_cons]
  refine ⟨List.cons_ne_nil _ _, fun hmem => h.blank ?_, fun hhead => hc (Option.some.inj hhead)⟩
  exact (List.mem_cons.mp hmem).elim (fun h => h ▸ List.mem_cons_self)
    fun h => List.mem_cons_of_mem _ (List.mem_of_mem_take h)

end Unirc
