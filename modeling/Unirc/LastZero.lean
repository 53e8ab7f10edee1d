import Unirc.Departure
import Unirc.LocalJoin

/-!
# The last channel 0 of JOIN

`last0` of `m_join.c` as it moves its two pointers. The test that was to step over the comma adds
one to the digit and not to the pointer, so the comma is the first character of the text that is
returned, and the next turn of the loop steps over it.
-/

namespace Unirc

section Elements

/-- A list with a separator is one element or an element in front of such a list. -/
theorem separated_induction {α : Type*} [DecidableEq α] (sep : α) {P : List α → Prop}
    (word : ∀ w, sep ∉ w → P w) (cons : ∀ w rest, sep ∉ w → P rest → P (w ++ sep :: rest))
    (s : List α) : P s := by
  induction hn : s.length using Nat.strong_induction_on generalizing s with
  | _ n ih =>
      by_cases hs : sep ∈ s
      · obtain ⟨w, rest, rfl, hw⟩ := List.eq_append_cons_of_mem hs
        refine cons w rest hw (ih rest.length ?_ rest rfl)
        rw [← hn, List.length_append, List.length_cons]
        omega
      · exact word s hs

/-- `suf` is what is left of `s` behind the last element `x`, and `tail` has the elements there. -/
structure Behind (sep : Char) (x s suf : Str) (tail : List Str) : Prop where
  text : ∃ pre front, s = pre ++ suf ∧ pre.splitOn sep = front ++ [x] ∧
    s.splitOn sep = front ++ x :: tail
  elements : suf.splitOn sep = [] :: tail
  last : x ∉ tail

variable {sep : Char} {x s suf : Str} {tail : List Str}

theorem Behind.cons (h : Behind sep x s suf tail) (w : Str) :
    Behind sep x (w ++ sep :: s) suf tail := by
  obtain ⟨pre, front, rfl, hpre, hs⟩ := h.text
  refine ⟨⟨w ++ sep :: pre, w.splitOn sep ++ front, by simp, ?_, ?_⟩, h.elements, h.last⟩
  · rw [List.splitOn_append_cons_self, hpre, List.append_assoc]
  · rw [List.splitOn_append_cons_self, hs, List.append_assoc]

theorem behind_word (hx : sep ∉ x) : Behind sep x x [] [] := by
  have hone : x.splitOn sep = [x] := List.splitOn_eq_singleton hx
  exact ⟨⟨x, [], by simp, hone, hone⟩, List.splitOn_nil sep, List.not_mem_nil⟩

theorem behind_first (hx : sep ∉ x) (hs : x ∉ s.splitOn sep) :
    Behind sep x (x ++ sep :: s) (sep :: s) (s.splitOn sep) := by
  have hone : x.splitOn sep = [x] := List.splitOn_eq_singleton hx
  refine ⟨⟨x, [], rfl, hone, ?_⟩, ?_, hs⟩
  · rw [List.splitOn_append_cons_self, hone]
    rfl
  · exact List.splitOn_append_cons_self [] s

end Elements

section Scan

/-- The loop of `last0`, with `p`, `chanlist` and `join0`. -/
def last0Loop (p chanlist : Str) (join0 : Bool) : Str × Bool :=
  match p with
  | [] => (chanlist, join0)
  | c :: cs =>
      if c = '0' ∧ (cs.head? = some ',' ∨ cs = []) then
        let p := if c.toNat + 1 = ','.toNat then cs else c :: cs
        last0Loop p.tail p.tail true
      else
        let q := (c :: cs).dropWhile (· ≠ ',')
        if q = [] then (chanlist, join0) else last0Loop q.tail chanlist join0
termination_by p.length
decreasing_by
  · rw [List.length_tail]
    split
    · rw [List.length_cons]
      omega
    · simp
  · have := (List.dropWhile_sublist (fun x => decide (x ≠ ',')) (l := c :: cs)).length_le
    rw [List.length_tail]
    simp only [List.length_cons] at this ⊢
    omega

theorem dropWhile_word {w : Str} (hw : ',' ∉ w) (r : Str) :
    (w ++ r).dropWhile (fun x => decide (x ≠ ',')) = r.dropWhile (fun x => decide (x ≠ ',')) := by
  apply List.dropWhile_append_of_pos
  intro c hc
  exact decide_eq_true (ne_of_mem_of_not_mem hc hw)

/-- Whether the element `w` is `0`, read off its first two characters. -/
theorem zero_iff {w r : Str} {c : Char} (hw : ',' ∉ c :: w) (hr : r = [] ∨ r.head? = some ',') :
    (c = '0' ∧ ((w ++ r).head? = some ',' ∨ w ++ r = [])) ↔ c :: w = ['0'] := by
  cases w with
  | nil =>
      simp only [List.nil_append, List.cons.injEq, and_true, and_iff_left_iff_imp]
      exact fun _ => hr.symm
  | cons d w =>
      have hd : d ≠ ',' := by
        rintro rfl
        simp at hw
      simp [hd]

theorem last0Loop_nil (chanlist : Str) (join0 : Bool) :
    last0Loop [] chanlist join0 = (chanlist, join0) := by
  rw [last0Loop]

/-- A turn of the loop. -/
theorem last0Loop_turn (c : Char) (cs chanlist : Str) (join0 : Bool) :
    last0Loop (c :: cs) chanlist join0 =
      if c = '0' ∧ (cs.head? = some ',' ∨ cs = []) then last0Loop cs cs true
      else
        let q := (c :: cs).dropWhile (· ≠ ',')
        if q = [] then (chanlist, join0) else last0Loop q.tail chanlist join0 := by
  rw [last0Loop]
  by_cases h : c = '0' ∧ (cs.head? = some ',' ∨ cs = [])
  · obtain ⟨rfl, -⟩ := h
    rfl
  · rw [if_neg h, if_neg h]

theorem last0Loop_comma (rest chanlist : Str) (join0 : Bool) :
    last0Loop (',' :: rest) chanlist join0 = last0Loop rest chanlist join0 := by
  simp [last0Loop_turn]

theorem last0Loop_word {w : Str} (hw : ',' ∉ w) (chanlist : Str) (join0 : Bool) :
    last0Loop w chanlist join0 = if w = ['0'] then ([], true) else (chanlist, join0) := by
  cases w with
  | nil => simp [last0Loop_nil]
  | cons c w =>
      have hz := zero_iff (r := []) hw (Or.inl rfl)
      have hd := dropWhile_word hw []
      rw [List.append_nil] at hz hd
      rw [last0Loop_turn]
      by_cases h : c :: w = ['0']
      · obtain ⟨rfl, rfl⟩ := List.cons_eq_cons.mp h
        rw [if_pos (hz.mpr h), if_pos h]
        exact last0Loop_nil _ _
      · rw [if_neg (mt hz.mp h), if_neg h]
        simp only [hd, List.dropWhile_nil, if_pos]

theorem last0Loop_cons {w : Str} (hw : ',' ∉ w) (rest chanlist : Str) (join0 : Bool) :
    last0Loop (w ++ ',' :: rest) chanlist join0 =
      if w = ['0'] then last0Loop rest (',' :: rest) true else last0Loop rest chanlist join0 := by
  cases w with
  | nil => exact last0Loop_comma rest chanlist join0
  | cons c w =>
      have hz := zero_iff (r := ',' :: rest) hw (Or.inr rfl)
      have hd := dropWhile_word hw (',' :: rest)
      rw [List.cons_append] at hd ⊢
      rw [last0Loop_turn]
      by_cases h : c :: w = ['0']
      · obtain ⟨rfl, rfl⟩ := List.cons_eq_cons.mp h
        rw [if_pos (hz.mpr h), if_pos h]
        exact last0Loop_comma _ _ _
      · rw [if_neg (mt hz.mp h), if_neg h]
        simp only [hd]
        simp

theorem last0_nil (skip : Bool) : last0 skip [] = none := rfl

theorem last0_skip (c : Char) (cs : Str) : last0 true (c :: cs) = last0 (c ≠ ',') cs := rfl

theorem last0_start (c : Char) (cs : Str) : last0 false (c :: cs) =
    if c = '0' ∧ (cs = [] ∨ cs.head? = some ',') then
      (last0 false cs).orElse fun _ => some cs
    else last0 (c ≠ ',') cs := rfl

theorem last0_true {w : Str} (hw : ',' ∉ w) (r : Str) : last0 true (w ++ r) = last0 true r := by
  induction w with
  | nil => rfl
  | cons c w ih =>
      obtain ⟨hc, hw⟩ := not_or.mp (mt List.mem_cons.mpr hw)
      rw [List.cons_append, last0_skip, decide_eq_true (Ne.symm hc), ih hw]

theorem last0_false {w r : Str} (hw : ',' ∉ w) (hr : r = [] ∨ r.head? = some ',') :
    last0 false (w ++ r) =
      if w = ['0'] then (last0 false r).orElse fun _ => some r else last0 false r := by
  cases w with
  | nil => simp
  | cons c w =>
      have hz := zero_iff hw hr
      have htrue : last0 true r = last0 false r := by
        rcases hr with rfl | hr
        · rfl
        · cases r with
          | nil => rfl
          | cons d r =>
              obtain rfl : d = ',' := Option.some.inj hr
              simp [last0_skip, last0_start]
      obtain ⟨hc, hw⟩ := not_or.mp (mt List.mem_cons.mpr hw)
      rw [or_comm] at hz
      rw [List.cons_append, last0_start]
      by_cases h : c :: w = ['0']
      · obtain ⟨rfl, rfl⟩ := List.cons_eq_cons.mp h
        rw [if_pos (hz.mpr h), if_pos h, List.nil_append]
      · rw [if_neg (mt hz.mp h), if_neg h, decide_eq_true (Ne.symm hc), last0_true hw, htrue]

theorem last0_comma (rest : Str) : last0 false (',' :: rest) = last0 false rest := by
  simp [last0_start]

theorem last0Loop_eq (p chanlist : Str) (join0 : Bool) : last0Loop p chanlist join0 =
    ((last0 false p).getD chanlist, join0 || (last0 false p).isSome) := by
  induction p using separated_induction ',' generalizing chanlist join0 with
  | word w hw =>
      have he := last0_false hw (r := []) (Or.inl rfl)
      rw [List.append_nil] at he
      rw [last0Loop_word hw, he]
      by_cases h : w = ['0'] <;> simp [h, last0_nil]
  | cons w rest hw ih =>
      rw [last0Loop_cons hw, last0_false hw (Or.inr rfl), last0_comma]
      by_cases h : w = ['0']
      · rw [if_pos h, if_pos h, ih]
        cases last0 false rest <;> simp
      · rw [if_neg h, if_neg h, ih]

theorem last0_eq_none_iff (s : Str) : last0 false s = none ↔ ['0'] ∉ s.splitOn ',' := by
  induction s using separated_induction ',' with
  | word w hw =>
      have he := last0_false hw (r := []) (Or.inl rfl)
      rw [List.append_nil] at he
      rw [he, List.splitOn_eq_singleton hw, List.mem_singleton]
      by_cases h : w = ['0'] <;> simp [h, last0_nil, eq_comm]
  | cons w rest hw ih =>
      rw [last0_false hw (Or.inr rfl), last0_comma, List.splitOn_append_cons_self,
        List.splitOn_eq_singleton hw, List.singleton_append, List.mem_cons, not_or]
      by_cases h : w = ['0']
      · rw [if_pos h]
        cases last0 false rest <;> simp [h]
      · rw [if_neg h, ih]
        exact (and_iff_right (Ne.symm h)).symm

theorem last0_behind {s suf : Str} (h : last0 false s = some suf) :
    ∃ tail, Behind ',' ['0'] s suf tail := by
  have hzero : ',' ∉ ['0'] := by simp
  induction s using separated_induction ',' with
  | word w hw =>
      have he := last0_false hw (r := []) (Or.inl rfl)
      rw [List.append_nil, h] at he
      split at he
      · next hz =>
          subst hz
          obtain rfl : suf = [] := by simpa [last0_nil] using he
          exact ⟨[], behind_word hzero⟩
      · simp [last0_nil] at he
  | cons w rest hw ih =>
      rw [last0_false hw (Or.inr rfl), last0_comma] at h
      cases hrest : last0 false rest with
      | some suf' =>
          rw [hrest] at h ih
          have he : suf' = suf := by
            split at h <;> simpa using h
          obtain ⟨tail, ht⟩ := ih (congrArg some he)
          exact ⟨tail, ht.cons w⟩
      | none =>
          rw [hrest] at h
          split at h
          · next hz =>
              obtain rfl : ',' :: rest = suf := by simpa using h
              subst hz
              exact ⟨_, behind_first hzero ((last0_eq_none_iff rest).mp hrest)⟩
          · cases h

end Scan

namespace Server

variable (s : Server) (a : ℕ) (chans : Str)

/-- `last0` of a client. -/
def applyLast0 : Server × Str :=
  let r := last0Loop chans chans false
  (if r.2 then s.doJoin0 a else s, r.1)

theorem applyLast0_eq : s.applyLast0 a chans =
    (if (last0 false chans).isSome then s.doJoin0 a else s, (last0 false chans).getD chans) := by
  rw [applyLast0, last0Loop_eq, Bool.false_or]

/-- The channels that `m_join` goes through, and what it starts from, are what `last0` leaves. -/
theorem mJoin_applyLast0 (cfg : Config) (now : ℤ) (splitmode : Bool) (keys : List ℕ → Option Str)
    (depth : ℕ) (path : List ℕ) {source : Client} (ha : s.client? a = some source)
    (hc : ¬ (chans = [] ∨ (source.gringo = true ∧ source.myClient = true ∧
      matchMask "#Help".toList chans = false))) :
    mJoin cfg now splitmode a keys (depth + 1) path chans s =
      joinLoop cfg now splitmode a (fun i => mJoin cfg now splitmode a keys depth (i :: path)) 0
        (commaTokens (s.applyLast0 a chans).2) (keys path) (s.applyLast0 a chans).1 := by
  rw [mJoin, applyLast0_eq, ha]
  exact if_neg hc

variable {s a}

theorem Inv.memberships_doJoin0 (h : s.Inv none) : (s.doJoin0 a).memberships a = [] := by
  rw [List.eq_nil_iff_forall_not_mem]
  intro m hm
  obtain ⟨r, hr, hleft⟩ := (h.doJoin0 a).mem_memberships.mp hm
  rw [h.links_doJoin0, Option.filter_eq_some_iff] at hr
  simp [hleft] at hr

/-- What is left of the list, its elements, and the memberships that are left. -/
structure ZeroDone (s : Server) (a : ℕ) (chans suf : Str) (tail : List Str) : Prop where
  result : s.applyLast0 a chans = (s.doJoin0 a, suf)
  behind : Behind ',' ['0'] chans suf tail
  tokens : commaTokens suf = tail.filter (· ≠ [])
  left : (s.doJoin0 a).memberships a = []
  others : ∀ m, (s.doJoin0 a).graph.links m = (s.graph.links m).filter fun r => !(r.left == a)

theorem applyLast0_of_zero (h : s.Inv none) (hz : ['0'] ∈ chans.splitOn ',') :
    ∃ suf tail, s.ZeroDone a chans suf tail := by
  cases hl : last0 false chans with
  | none => exact absurd hz ((last0_eq_none_iff chans).mp hl)
  | some suf =>
      obtain ⟨tail, ht⟩ := last0_behind hl
      refine ⟨suf, tail, ?_, ht, ?_, h.memberships_doJoin0, h.links_doJoin0 a⟩
      · rw [applyLast0_eq, hl]
        rfl
      · rw [commaTokens, ht.elements]
        rfl

theorem applyLast0_of_not_zero (hz : ['0'] ∉ chans.splitOn ',') :
    s.applyLast0 a chans = (s, chans) := by
  rw [applyLast0_eq, (last0_eq_none_iff chans).mpr hz]
  rfl

/-- All channels are left for a list with an element that is `0` and for no other list. -/
theorem joinZero_spec (h : s.Inv none) :
    ((last0Loop chans chans false).2 = true ↔ ['0'] ∈ chans.splitOn ',') ∧
      (['0'] ∈ chans.splitOn ',' → ∃ suf tail, s.ZeroDone a chans suf tail) ∧
      (['0'] ∉ chans.splitOn ',' → s.applyLast0 a chans = (s, chans)) := by
  refine ⟨?_, applyLast0_of_zero chans h, applyLast0_of_not_zero chans⟩
  rw [last0Loop_eq, Bool.false_or, ← not_iff_not, Bool.not_eq_true, Option.isSome_eq_false_iff,
    Option.isNone_iff_eq_none]
  exact last0_eq_none_iff chans

theorem joinZero_spec_duelServer : duelServer.memberships 0 ≠ [] ∧ ∃ suf tail,
    duelServer.ZeroDone 0 "0#a,0,#b0,,".toList suf tail ∧ suf = ",#b0,,".toList := by
  refine ⟨by decide, ?_⟩
  obtain ⟨-, hz, -⟩ := joinZero_spec (a := 0) "0#a,0,#b0,,".toList inv_duelServer
  obtain ⟨suf, tail, h⟩ := hz (by decide)
  refine ⟨suf, tail, h, ?_⟩
  have hresult := congrArg Prod.snd h.result
  rw [applyLast0_eq] at hresult
  exact hresult.symm

end Server

end Unirc
