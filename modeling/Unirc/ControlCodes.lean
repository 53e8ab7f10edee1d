import Unirc.StripCodes

/-!
# What the control codes of clients are

The codes that `StripControlCodes` takes out of a text, against those of clients: `^C` with up to
two colours of two digits, and `^D` with one or two colours of six hex digits.
-/

namespace Unirc

open TextCodes

/-- The length of the longest start of a text, up to `n`, that a class of characters makes up. -/
def upTo (p : Char → Bool) : ℕ → Str → ℕ
  | n + 1, c :: t => if p c then 1 + upTo p n t else 0
  | _, _ => 0

/-- The characters behind `^C` that belong to it: up to two digits, and with a comma up to two
more. -/
def colourLength (t : Str) : ℕ :=
  match t.drop (upTo Char.isDigit 2 t) with
  | ',' :: r => upTo Char.isDigit 2 t + 1 + upTo Char.isDigit 2 r
  | _ => upTo Char.isDigit 2 t

/-- Six hex digits. -/
def rgbDigits (t : Str) : Bool := upTo isXDigit 6 t = 6

/-- The characters behind `^D` that belong to it: six hex digits, and with a comma six more. -/
def rgbLength (t : Str) : ℕ :=
  if rgbDigits t then
    match t.drop 6 with
    | ',' :: r => if rgbDigits r then 13 else 6
    | _ => 6
  else 0

/-- The codes of clients. -/
def controlCode (c : Char) (t : Str) : Option ℕ := codeLength colourLength rgbLength c t

theorem upTo_le (p : Char → Bool) (n : ℕ) (t : Str) : upTo p n t ≤ n := by
  induction n generalizing t with
  | zero => exact Nat.zero_le _
  | succ n ih =>
      cases t with
      | nil => exact Nat.zero_le _
      | cons c t =>
          rw [upTo]
          split
          · rw [Nat.add_comm]
            exact Nat.succ_le_succ (ih t)
          · exact Nat.zero_le _

theorem upTo_le_length (p : Char → Bool) (n : ℕ) (t : Str) : upTo p n t ≤ t.length := by
  induction n generalizing t with
  | zero => cases t <;> exact Nat.zero_le _
  | succ n ih =>
      cases t with
      | nil => exact Nat.zero_le _
      | cons c t =>
          rw [upTo]
          split
          · rw [Nat.add_comm]
            exact Nat.succ_le_succ (ih t)
          · exact Nat.zero_le _

theorem upTo_zero (p : Char → Bool) (t : Str) : upTo p 0 t = 0 := by
  cases t <;> rfl

theorem take_upTo {p : Char → Bool} {n : ℕ} {t : Str} : ∀ x ∈ t.take (upTo p n t), p x = true := by
  induction n generalizing t with
  | zero =>
      intro x hx
      rw [upTo_zero, List.take_zero] at hx
      cases hx
  | succ n ih =>
      cases t with
      | nil => exact fun x hx => absurd hx List.not_mem_nil
      | cons c t =>
          intro x hx
          rw [upTo] at hx
          split at hx
          · rw [Nat.add_comm, List.take_succ_cons] at hx
            rcases List.mem_cons.mp hx with rfl | hx
            · assumption
            · exact ih x hx
          · rw [List.take_zero] at hx
            cases hx

/-- Where fewer characters are taken than allowed, the next one is none of the class. -/
theorem drop_upTo {p : Char → Bool} {n : ℕ} {t : Str} (h : upTo p n t < n) {c : Char} {r : Str}
    (hr : t.drop (upTo p n t) = c :: r) : p c = false := by
  induction n generalizing t with
  | zero => exact absurd h (Nat.not_lt_zero _)
  | succ n ih =>
      cases t with
      | nil => cases hr
      | cons d t =>
          rw [upTo] at h hr
          split at h
          · rw [if_pos ‹_›, Nat.add_comm, List.drop_succ_cons] at hr
            exact ih (by omega) hr
          · rw [if_neg ‹_›, List.drop_zero] at hr
            obtain ⟨rfl, rfl⟩ := List.cons.inj hr
            exact Bool.eq_false_iff.mpr ‹_›

theorem upTo_append {p : Char → Bool} {n : ℕ} {t : Str} (ht : ∀ x ∈ t, p x = true)
    (h : t.length ≤ n) {c : Char} (hc : t.length < n → p c = false) (r : Str) :
    upTo p n (t ++ c :: r) = t.length := by
  induction t generalizing n with
  | nil =>
      cases n with
      | zero => rfl
      | succ n => rw [List.nil_append, upTo, hc (Nat.succ_pos n), if_neg Bool.false_ne_true]; rfl
  | cons d t ih =>
      cases n with
      | zero => exact absurd h (Nat.not_succ_le_zero _)
      | succ n =>
          rw [List.cons_append, upTo, if_pos (ht d List.mem_cons_self),
            ih (fun x hx => ht x (List.mem_cons_of_mem d hx)) (Nat.le_of_succ_le_succ h)
              fun hlt => hc (Nat.succ_lt_succ hlt), List.length_cons, Nat.add_comm]

/-- A colour goes on up to two digits, and behind a comma as at its beginning. -/
theorem colourRun_eq {nc : ℕ} (hnc : nc ≤ 2) (t : Str) :
    (∃ r, t.drop (upTo Char.isDigit (2 - nc) t) = ',' :: r ∧
      colourRun nc t = upTo Char.isDigit (2 - nc) t + 1 + colourRun 0 r) ∨
    ((∀ r, t.drop (upTo Char.isDigit (2 - nc) t) ≠ ',' :: r) ∧
      colourRun nc t = upTo Char.isDigit (2 - nc) t) := by
  induction t generalizing nc with
  | nil =>
      refine Or.inr ⟨fun r => ?_, ?_⟩
      · rw [List.drop_nil]
        exact (List.cons_ne_nil _ _).symm
      · cases 2 - nc <;> rfl
  | cons c t ih =>
      by_cases hdigit : c.isDigit = true ∧ nc < 2
      · have hup : upTo Char.isDigit (2 - nc) (c :: t) =
            upTo Char.isDigit (2 - (nc + 1)) t + 1 := by
          rw [show 2 - nc = (2 - (nc + 1)) + 1 by omega, upTo, if_pos hdigit.1, Nat.add_comm]
        rw [hup, List.drop_succ_cons, colourRun, if_pos hdigit]
        rcases ih (show nc + 1 ≤ 2 from hdigit.2) with ⟨r, hr, hrun⟩ | ⟨hr, hrun⟩
        · exact Or.inl ⟨r, hr, by rw [hrun]; omega⟩
        · exact Or.inr ⟨hr, by rw [hrun]; omega⟩
      · have hup : upTo Char.isDigit (2 - nc) (c :: t) = 0 := by
          cases hn : 2 - nc with
          | zero => exact upTo_zero _ _
          | succ n => exact if_neg fun hc => hdigit ⟨hc, by omega⟩
        rw [hup, List.drop_zero, colourRun, if_neg hdigit]
        by_cases hcomma : c = ','
        · subst hcomma
          refine Or.inl ⟨t, rfl, ?_⟩
          rw [if_pos rfl]
        · refine Or.inr ⟨fun r hr => hcomma (List.cons.inj hr).1, ?_⟩
          rw [if_neg hcomma]

theorem colourLength_eq (t : Str) :
    (∃ r, t.drop (upTo Char.isDigit 2 t) = ',' :: r ∧
      colourLength t = upTo Char.isDigit 2 t + 1 + upTo Char.isDigit 2 r) ∨
    ((∀ r, t.drop (upTo Char.isDigit 2 t) ≠ ',' :: r) ∧
      colourLength t = upTo Char.isDigit 2 t) := by
  unfold colourLength
  split
  · exact Or.inl ⟨_, ‹_›, rfl⟩
  · rename_i h
    exact Or.inr ⟨h, rfl⟩

/-- A colour code of the loop is one of clients, unless another comma comes behind it. -/
theorem colourRun_iff (t : Str) :
    colourRun 0 t = colourLength t ↔ (t.drop (colourLength t)).head? ≠ some ',' := by
  have hstart (s : Str) := colourRun_eq (Nat.zero_le 2) s
  rw [Nat.sub_zero] at hstart
  rcases hstart t with ⟨r, hr, hrun⟩ | ⟨hr, hrun⟩
  · rcases colourLength_eq t with ⟨r', hr', hlen⟩ | ⟨hr', hlen⟩
    · obtain rfl := (List.cons.inj (hr.symm.trans hr')).2
      have hdrop : t.drop (colourLength t) = r.drop (upTo Char.isDigit 2 r) := by
        rw [hlen, Nat.add_assoc, ← List.drop_drop, hr, Nat.add_comm, List.drop_succ_cons]
      rw [hdrop, hrun, hlen]
      rcases hstart r with ⟨s, hs, hrun'⟩ | ⟨hs, hrun'⟩
      · rw [hs, hrun']
        exact iff_of_false (by omega) fun h => h rfl
      · rw [hrun']
        refine iff_of_true rfl fun h => ?_
        obtain ⟨s, hs'⟩ := List.head?_eq_some_iff.mp h
        exact hs s hs'
    · exact absurd hr (hr' r)
  · rcases colourLength_eq t with ⟨r', hr', hlen⟩ | ⟨hr', hlen⟩
    · exact absurd hr' (hr r')
    · rw [hrun, hlen]
      refine iff_of_true rfl fun h => ?_
      obtain ⟨s, hs⟩ := List.head?_eq_some_iff.mp h
      exact hr s hs

/-- Up to six hex digits and nothing else. -/
def rgbGroup (g : Str) : Bool := g.length ≤ 6 && g.all isXDigit

theorem rgbRun_eq {nc : ℕ} (hnc : nc ≤ 6) (t : Str) :
    (t.drop (upTo isXDigit (6 - nc) t) = [] ∧
      rgbRun nc t = (nc + upTo isXDigit (6 - nc) t, [])) ∨
    (∃ r, t.drop (upTo isXDigit (6 - nc) t) = ',' :: r ∧ rgbRun nc t = rgbRun 0 r) ∨
    (∃ c r, t.drop (upTo isXDigit (6 - nc) t) = c :: r ∧ c ≠ ',' ∧
      rgbRun nc t = (nc + upTo isXDigit (6 - nc) t, c :: r)) := by
  induction t generalizing nc with
  | nil =>
      have hup : upTo isXDigit (6 - nc) [] = 0 := by cases 6 - nc <;> rfl
      rw [hup]
      exact Or.inl ⟨rfl, rfl⟩
  | cons c t ih =>
      by_cases hdigit : isXDigit c = true ∧ nc < 6
      · have hup : upTo isXDigit (6 - nc) (c :: t) = upTo isXDigit (6 - (nc + 1)) t + 1 := by
          rw [show 6 - nc = (6 - (nc + 1)) + 1 by omega, upTo, if_pos hdigit.1, Nat.add_comm]
        rw [hup, List.drop_succ_cons, rgbRun, if_pos hdigit, ← Nat.add_assoc, Nat.add_right_comm]
        exact ih (show nc + 1 ≤ 6 from hdigit.2)
      · have hup : upTo isXDigit (6 - nc) (c :: t) = 0 := by
          cases hn : 6 - nc with
          | zero => exact upTo_zero _ _
          | succ n => exact if_neg fun hc => hdigit ⟨hc, by omega⟩
        rw [hup, List.drop_zero, rgbRun, if_neg hdigit]
        by_cases hcomma : c = ','
        · subst hcomma
          rw [if_pos rfl]
          exact Or.inr (Or.inl ⟨t, rfl, rfl⟩)
        · rw [if_neg hcomma]
          exact Or.inr (Or.inr ⟨c, t, rfl, hcomma, rfl⟩)

/-- The first of the pieces between commas goes on to the first comma. -/
theorem splitOn_comma_append {s : Str} (hs : ∀ x ∈ s, (x == ',') = false) (r : Str) :
    ∃ r' l, (s ++ r).splitOn ',' = (s ++ r') :: l := by
  by_cases hr : ',' ∈ r
  · obtain ⟨r', rest, rfl, hr'⟩ := List.eq_append_cons_of_mem hr
    have hall : ∀ x ∈ s ++ r', (x == ',') = false := by
      intro x hx
      rcases List.mem_append.mp hx with hx | hx
      · exact hs x hx
      · exact beq_eq_false_iff_ne.mpr (ne_of_mem_of_not_mem hx hr')
    refine ⟨r', rest.splitOn ',', ?_⟩
    rw [List.splitOn_eq_splitOnP, ← List.append_assoc]
    exact List.splitOnP_append_cons_of_forall_mem hall ',' (beq_self_eq_true _) rest
  · refine ⟨r, [], ?_⟩
    rw [List.splitOn_eq_splitOnP]
    refine List.splitOnP_eq_singleton fun x hx => ?_
    rcases List.mem_append.mp hx with hx | hx
    · exact hs x hx
    · exact beq_eq_false_iff_ne.mpr (ne_of_mem_of_not_mem hx hr)

/-- The run ends in the first piece between commas that is not made up of up to six hex digits. -/
theorem rgbRun_pieces (t : Str) :
    ((t.splitOn ',').find? (fun g => !rgbGroup g) = none ∧ (rgbRun 0 t).2 = []) ∨
    (∃ g, (t.splitOn ',').find? (fun g => !rgbGroup g) = some g ∧ (rgbRun 0 t).2 ≠ [] ∧
      ((rgbRun 0 t).1 = 6 ↔ rgbDigits g = true)) := by
  have hcommas {s : Str} (hs : ∀ x ∈ s, isXDigit x = true) : ∀ x ∈ s, (x == ',') = false := by
    intro x hx
    refine beq_eq_false_iff_ne.mpr ?_
    rintro rfl
    exact absurd (hs _ hx) (by decide)
  induction hm : t.length using Nat.strong_induction_on generalizing t with
  | _ m ih =>
      have hrun := rgbRun_eq (Nat.zero_le 6) t
      rw [Nat.sub_zero, Nat.zero_add] at hrun
      have htake : ∀ x ∈ t.take (upTo isXDigit 6 t), isXDigit x = true := take_upTo
      have hle := upTo_le isXDigit 6 t
      have hgroup : rgbGroup (t.take (upTo isXDigit 6 t)) = true := by
        rw [rgbGroup, Bool.and_eq_true, decide_eq_true_eq, List.all_eq_true]
        exact ⟨(List.length_take_le _ _).trans hle, htake⟩
      rcases hrun with ⟨hdrop, hrun⟩ | ⟨r, hdrop, hrun⟩ | ⟨c, r, hdrop, hc, hrun⟩
      · have ht : t = t.take (upTo isXDigit 6 t) := by
          conv_lhs => rw [← List.take_append_drop (upTo isXDigit 6 t) t, hdrop, List.append_nil]
        refine Or.inl ⟨?_, by rw [hrun]⟩
        rw [ht, List.splitOn_eq_splitOnP, List.splitOnP_eq_singleton (hcommas htake),
          List.find?_singleton, hgroup]
        rfl
      · have ht : t = t.take (upTo isXDigit 6 t) ++ ',' :: r := by
          conv_lhs => rw [← List.take_append_drop (upTo isXDigit 6 t) t, hdrop]
        have hlen : r.length < t.length := by
          rw [ht, List.length_append, List.length_cons]
          omega
        have hsplit : t.splitOn ',' = t.take (upTo isXDigit 6 t) :: r.splitOn ',' := by
          conv_lhs => rw [ht]
          rw [List.splitOn_eq_splitOnP,
            List.splitOnP_append_cons_of_forall_mem (hcommas htake) ',' (beq_self_eq_true _) r]
          rfl
        rw [hsplit, List.find?_cons_of_neg (by rw [hgroup]; decide), hrun]
        exact ih r.length (hm ▸ hlen) r rfl
      · have ht : t = t.take (upTo isXDigit 6 t) ++ [c] ++ r := by
          conv_lhs => rw [← List.take_append_drop (upTo isXDigit 6 t) t, hdrop]
          rw [List.append_assoc]
          rfl
        have hnone : ∀ x ∈ t.take (upTo isXDigit 6 t) ++ [c], (x == ',') = false := by
          intro x hx
          rcases List.mem_append.mp hx with hx | hx
          · exact hcommas htake x hx
          · rw [List.mem_singleton.mp hx]
            exact beq_eq_false_iff_ne.mpr hc
        have hlen : (t.take (upTo isXDigit 6 t)).length = upTo isXDigit 6 t := by
          refine List.length_take_of_le (Nat.le_of_not_le fun hlong => ?_)
          rw [List.drop_eq_nil_iff.mpr hlong] at hdrop
          cases hdrop
        obtain ⟨r', l, hsplit⟩ := splitOn_comma_append hnone r
        rw [← ht, List.append_assoc, List.singleton_append] at hsplit
        have hnext : upTo isXDigit 6 t < 6 → isXDigit c = false := fun hlt => drop_upTo hlt hdrop
        have hdigits : upTo isXDigit 6 (t.take (upTo isXDigit 6 t) ++ c :: r') =
            upTo isXDigit 6 t := by
          rw [upTo_append htake (hlen.trans_le hle) (fun hlt => hnext (hlen ▸ hlt)), hlen]
        have hbad : rgbGroup (t.take (upTo isXDigit 6 t) ++ c :: r') = false := by
          refine Bool.eq_false_iff.mpr fun hg => ?_
          rw [rgbGroup, Bool.and_eq_true, decide_eq_true_eq, List.all_eq_true] at hg
          have hx := hg.2 c (List.mem_append_right _ List.mem_cons_self)
          have hlong := hg.1
          rw [List.length_append, hlen, List.length_cons] at hlong
          rw [hnext (by omega)] at hx
          exact Bool.false_ne_true hx
        refine Or.inr ⟨t.take (upTo isXDigit 6 t) ++ c :: r', ?_, ?_, ?_⟩
        · rw [hsplit, List.find?_cons_of_pos]
          rw [hbad]
          rfl
        · rw [hrun]
          exact List.cons_ne_nil c r
        · rw [hrun, rgbDigits, hdigits, decide_eq_true_eq]

/-- Six hex digits behind `^D` are read as its code unless another comma follows. Without them the
`^D` is left alone if the pieces between commas come to one that is longer than six hex digits or
has other characters in it, and that one does not begin with six hex digits. -/
def RgbRegular (t : Str) : Prop :=
  if rgbDigits t then (t.drop (rgbLength t)).head? ≠ some ','
  else t = [] ∨ ∃ g, (t.splitOn ',').find? (fun g => !rgbGroup g) = some g ∧ rgbDigits g = false

theorem length_of_drop {t : Str} {n : ℕ} {c : Char} {r : Str} (h : t.drop n = c :: r) :
    t.length = n + 1 + r.length := by
  have hcut := congrArg List.length h
  rw [List.length_drop, List.length_cons] at hcut
  omega

theorem rgbLength_of_comma {t r : Str} (h : rgbDigits t = true) (hdrop : t.drop 6 = ',' :: r) :
    rgbLength t = if rgbDigits r then 13 else 6 := by
  rw [rgbLength, if_pos h, hdrop]
  rfl

theorem rgbLength_of_no_comma {t : Str} (h : rgbDigits t = true)
    (hdrop : (t.drop 6).head? ≠ some ',') : rgbLength t = 6 := by
  rw [rgbLength, if_pos h]
  split
  · rename_i hcomma
    rw [hcomma] at hdrop
    exact absurd rfl hdrop
  · rfl

/-- The second half of an RGB code. -/
theorem rgbTaken_of_comma {t r : Str} (h : rgbDigits t = true) (hdrop : t.drop 6 = ',' :: r)
    (hrun : rgbRun 0 t = rgbRun 0 r) :
    rgbTaken t = rgbLength t ↔ (t.drop (rgbLength t)).head? ≠ some ',' := by
  have hsecond := rgbRun_eq (Nat.zero_le 6) r
  rw [Nat.sub_zero, Nat.zero_add] at hsecond
  have hlen := length_of_drop hdrop
  have hcomma : ¬(t.drop 6).head? ≠ some ',' := by
    rw [hdrop]
    exact fun h => h rfl
  have hdrop13 : t.drop 13 = r.drop 6 := by
    rw [show 13 = 6 + 7 from rfl, ← List.drop_drop, hdrop, List.drop_succ_cons]
  have hlength := rgbLength_of_comma h hdrop
  by_cases hdigits : rgbDigits r = true
  · have hsix : upTo isXDigit 6 r = 6 := of_decide_eq_true hdigits
    rw [hsix] at hsecond
    rw [hlength, if_pos hdigits, hdrop13, rgbTaken, hrun]
    rcases hsecond with ⟨hend, hrun'⟩ | ⟨s, hend, hrun'⟩ | ⟨c, s, hend, hc, hrun'⟩
    · have hle := upTo_le_length isXDigit 6 r
      have hge := List.drop_eq_nil_iff.mp hend
      rw [hrun', hend, if_pos rfl]
      refine iff_of_true ?_ (by decide)
      omega
    · have hlong := length_of_drop hend
      have hrest := (rgbRun_suffix 0 s).length_le
      rw [hrun', hend]
      refine iff_of_false ?_ fun h => h rfl
      split
      · omega
      · split
        · omega
        · exact (Nat.succ_ne_zero 12).symm
    · have hlong := length_of_drop hend
      rw [hrun', hend, if_neg (List.cons_ne_nil c s), if_pos rfl, List.length_cons]
      refine iff_of_true (by omega) fun h => hc (Option.some.inj h)
  · have hne : upTo isXDigit 6 r ≠ 6 := fun h => hdigits (decide_eq_true h)
    rw [hlength, if_neg hdigits, rgbTaken, hrun]
    refine iff_of_false ?_ hcomma
    rcases hsecond with ⟨hend, hrun'⟩ | ⟨s, hend, hrun'⟩ | ⟨c, s, hend, hc, hrun'⟩
    · rw [hrun', if_pos rfl]
      omega
    · have hlong := length_of_drop hend
      have hrest := (rgbRun_suffix 0 s).length_le
      rw [hrun']
      split
      · omega
      · split
        · omega
        · exact (Nat.succ_ne_zero 5).symm
    · rw [hrun', if_neg (List.cons_ne_nil c s), if_neg hne]
      exact (Nat.succ_ne_zero 5).symm

theorem rgbTaken_of_digits {t : Str} (h : rgbDigits t = true) :
    rgbTaken t = rgbLength t ↔ (t.drop (rgbLength t)).head? ≠ some ',' := by
  have hsix : upTo isXDigit 6 t = 6 := of_decide_eq_true h
  have hstart := rgbRun_eq (Nat.zero_le 6) t
  rw [Nat.sub_zero, Nat.zero_add, hsix] at hstart
  rcases hstart with ⟨hend, hrun⟩ | ⟨r, hend, hrun⟩ | ⟨c, r, hend, hc, hrun⟩
  · have hle := upTo_le_length isXDigit 6 t
    have hge := List.drop_eq_nil_iff.mp hend
    have hhead : (t.drop 6).head? ≠ some ',' := by
      rw [hend]
      exact Option.some_ne_none ',' |>.symm
    rw [rgbLength_of_no_comma h hhead, rgbTaken, hrun, if_pos rfl]
    exact iff_of_true (by omega) hhead
  · exact rgbTaken_of_comma h hend hrun
  · have hlong := length_of_drop hend
    have hhead : (t.drop 6).head? ≠ some ',' := by
      rw [hend]
      exact fun h => hc (Option.some.inj h)
    rw [rgbLength_of_no_comma h hhead, rgbTaken, hrun, if_neg (List.cons_ne_nil c r), if_pos rfl,
      List.length_cons]
    exact iff_of_true (by omega) hhead

theorem rgbTaken_of_not_digits {t : Str} (h : rgbDigits t = false) :
    rgbTaken t = rgbLength t ↔
      t = [] ∨
        ∃ g, (t.splitOn ',').find? (fun g => !rgbGroup g) = some g ∧ rgbDigits g = false := by
  have hlen : rgbLength t = 0 := by rw [rgbLength, h, if_neg Bool.false_ne_true]
  have hshort : (rgbRun 0 t).1 = 6 → (rgbRun 0 t).2.length < t.length := by
    intro hsix
    have hrun := rgbRun_eq (Nat.zero_le 6) t
    rw [Nat.sub_zero, Nat.zero_add] at hrun
    have hne : upTo isXDigit 6 t ≠ 6 := of_decide_eq_false h
    rcases hrun with ⟨-, hrun⟩ | ⟨r, hdrop, hrun⟩ | ⟨c, r, -, -, hrun⟩
    · rw [hrun] at hsix
      exact absurd hsix hne
    · have hr : r.length < t.length := by
        rw [length_of_drop hdrop]
        omega
      rw [hrun]
      exact (rgbRun_suffix 0 r).length_le.trans_lt hr
    · rw [hrun] at hsix
      exact absurd hsix hne
  rw [hlen, rgbTaken]
  rcases rgbRun_pieces t with ⟨hnone, hrest⟩ | ⟨g, hg, hrest, hiff⟩
  · rw [if_pos hrest, hnone, List.length_eq_zero_iff]
    refine ⟨Or.inl, ?_⟩
    rintro (h | ⟨g, hg, -⟩)
    · exact h
    · cases hg
  · have hne : t ≠ [] := by
      rintro rfl
      exact hrest rfl
    rw [if_neg hrest, hg]
    split
    · rename_i hsix
      refine iff_of_false ?_ ?_
      · have hlt := hshort hsix
        omega
      · rintro (h | ⟨g', hg', hdigits⟩)
        · exact hne h
        · obtain rfl := Option.some.inj hg'
          rw [hiff.mp hsix] at hdigits
          cases hdigits
    · rename_i hsix
      exact iff_of_true rfl
        (Or.inr ⟨g, rfl, Bool.eq_false_iff.mpr fun hdigits => hsix (hiff.mpr hdigits)⟩)

theorem le_toNat_of_isXDigit {c : Char} (h : isXDigit c = true) : 32 ≤ c.toNat := by
  simp only [isXDigit, Char.isDigit, Bool.or_eq_true, Bool.and_eq_true, decide_eq_true_eq] at h
  rcases h with (h | h) | h
  · have hle : 48 ≤ c.toNat := UInt32.le_iff_toNat_le.mp h.1
    omega
  · omega
  · omega

theorem le_toNat_of_isDigit {c : Char} (h : c.isDigit = true) : 32 ≤ c.toNat := by
  refine le_toNat_of_isXDigit ?_
  rw [isXDigit, h]
  rfl

theorem le_toNat_comma : 32 ≤ (',' : Char).toNat := by decide

theorem takenCode_eq_none {c : Char} (h : 32 ≤ c.toNat) (t : Str) : takenCode c t = none := by
  unfold takenCode codeLength
  split
  all_goals first
    | omega
    | rfl

theorem colourRun_le (nc : ℕ) (t : Str) : colourRun nc t ≤ t.length := by
  induction t generalizing nc with
  | nil => exact le_rfl
  | cons c t ih =>
      rw [colourRun, List.length_cons, Nat.add_comm t.length]
      split
      · exact Nat.add_le_add_left (ih _) 1
      · split
        · exact Nat.add_le_add_left (ih _) 1
        · exact Nat.zero_le _

theorem take_colourRun (nc : ℕ) (t : Str) : ∀ x ∈ t.take (colourRun nc t), 32 ≤ x.toNat := by
  induction t generalizing nc with
  | nil => exact fun x hx => absurd hx List.not_mem_nil
  | cons c t ih =>
      intro x hx
      rw [colourRun] at hx
      split at hx
      · rename_i hc
        rw [Nat.add_comm, List.take_succ_cons] at hx
        rcases List.mem_cons.mp hx with rfl | hx
        · exact le_toNat_of_isDigit hc.1
        · exact ih _ x hx
      · split at hx
        · rename_i hc
          rw [Nat.add_comm, List.take_succ_cons] at hx
          rcases List.mem_cons.mp hx with rfl | hx
          · exact hc ▸ le_toNat_comma
          · exact ih _ x hx
        · rw [List.take_zero] at hx
          cases hx

theorem rgbRun_split (nc : ℕ) (t : Str) :
    ∃ s, s ++ (rgbRun nc t).2 = t ∧ ∀ x ∈ s, 32 ≤ x.toNat := by
  induction t generalizing nc with
  | nil => exact ⟨[], rfl, fun x hx => absurd hx List.not_mem_nil⟩
  | cons c t ih =>
      have hcons {n : ℕ} (hc : 32 ≤ c.toNat) :
          ∃ s, s ++ (rgbRun n t).2 = c :: t ∧ ∀ x ∈ s, 32 ≤ x.toNat := by
        obtain ⟨s, hs, hall⟩ := ih n
        refine ⟨c :: s, congrArg (c :: ·) hs, fun x hx => ?_⟩
        rcases List.mem_cons.mp hx with rfl | hx
        · exact hc
        · exact hall x hx
      rw [rgbRun]
      split
      · rename_i hc
        exact hcons (le_toNat_of_isXDigit hc.1)
      · split
        · rename_i hc
          exact hcons (hc ▸ le_toNat_comma)
        · exact ⟨[], rfl, fun x hx => absurd hx List.not_mem_nil⟩

theorem rgbTaken_le (t : Str) : rgbTaken t ≤ t.length := by
  rw [rgbTaken]
  split
  · exact le_rfl
  · split
    · exact Nat.sub_le _ _
    · exact Nat.zero_le _

theorem take_rgbTaken (t : Str) : ∀ x ∈ t.take (rgbTaken t), 32 ≤ x.toNat := by
  obtain ⟨s, hs, hall⟩ := rgbRun_split 0 t
  have hcut : t.take (t.length - (rgbRun 0 t).2.length) = s := by
    conv_lhs => rw [← hs]
    rw [List.length_append, hs, Nat.add_sub_cancel]
    conv_lhs => rw [← hs]
    exact List.take_left
  intro x hx
  rw [rgbTaken] at hx
  split at hx
  · rename_i hend
    rw [hend, List.length_nil, Nat.sub_zero] at hcut
    rw [hcut] at hx
    exact hall x hx
  · split at hx
    · rw [hcut] at hx
      exact hall x hx
    · rw [List.take_zero] at hx
      cases hx

theorem colourLength_le (t : Str) : colourLength t ≤ t.length := by
  rcases colourLength_eq t with ⟨r, hr, hlen⟩ | ⟨-, hlen⟩
  · have hlong := length_of_drop hr
    have hle := upTo_le_length Char.isDigit 2 r
    omega
  · rw [hlen]
    exact upTo_le_length _ _ _

theorem take_colourLength (t : Str) : ∀ x ∈ t.take (colourLength t), 32 ≤ x.toNat := by
  rcases colourLength_eq t with ⟨r, hr, hlen⟩ | ⟨-, hlen⟩
  · rw [hlen, Nat.add_assoc, List.take_add, hr, Nat.add_comm 1, List.take_succ_cons]
    intro x hx
    rcases List.mem_append.mp hx with hx | hx
    · exact le_toNat_of_isDigit (take_upTo x hx)
    · rcases List.mem_cons.mp hx with rfl | hx
      · exact le_toNat_comma
      · exact le_toNat_of_isDigit (take_upTo x hx)
  · rw [hlen]
    exact fun x hx => le_toNat_of_isDigit (take_upTo x hx)

theorem rgbLength_cases (t : Str) :
    (rgbDigits t = true ∧ rgbLength t = 6) ∨
    (rgbDigits t = true ∧ rgbLength t = 13 ∧ ∃ r, t.drop 6 = ',' :: r ∧ rgbDigits r = true) ∨
    (rgbDigits t = false ∧ rgbLength t = 0) := by
  by_cases hdigits : rgbDigits t = true
  · by_cases hcomma : (t.drop 6).head? = some ','
    · obtain ⟨r, hr⟩ := List.head?_eq_some_iff.mp hcomma
      rw [rgbLength_of_comma hdigits hr]
      by_cases hr' : rgbDigits r = true
      · exact Or.inr (Or.inl ⟨hdigits, if_pos hr', r, hr, hr'⟩)
      · exact Or.inl ⟨hdigits, if_neg hr'⟩
    · exact Or.inl ⟨hdigits, rgbLength_of_no_comma hdigits hcomma⟩
  · rw [rgbLength, if_neg hdigits]
    exact Or.inr (Or.inr ⟨Bool.eq_false_iff.mpr hdigits, rfl⟩)

theorem length_of_rgbDigits {t : Str} (h : rgbDigits t = true) : 6 ≤ t.length :=
  (of_decide_eq_true h).symm.trans_le (upTo_le_length isXDigit 6 t)

theorem take_of_rgbDigits {t : Str} (h : rgbDigits t = true) : ∀ x ∈ t.take 6, 32 ≤ x.toNat := by
  have hsix : upTo isXDigit 6 t = 6 := of_decide_eq_true h
  intro x hx
  refine le_toNat_of_isXDigit (take_upTo (n := 6) (t := t) x ?_)
  rwa [hsix]

theorem rgbLength_le (t : Str) : rgbLength t ≤ t.length := by
  rcases rgbLength_cases t with ⟨h, hlen⟩ | ⟨-, hlen, r, hr, hr'⟩ | ⟨-, hlen⟩
  · rw [hlen]
    exact length_of_rgbDigits h
  · have hlong := length_of_drop hr
    have hge := length_of_rgbDigits hr'
    omega
  · rw [hlen]
    exact Nat.zero_le _

theorem take_rgbLength (t : Str) : ∀ x ∈ t.take (rgbLength t), 32 ≤ x.toNat := by
  rcases rgbLength_cases t with ⟨h, hlen⟩ | ⟨h, hlen, r, hr, hr'⟩ | ⟨-, hlen⟩
  · rw [hlen]
    exact take_of_rgbDigits h
  · rw [hlen, show 13 = 6 + 7 from rfl, List.take_add, hr, List.take_succ_cons]
    intro x hx
    rcases List.mem_append.mp hx with hx | hx
    · exact take_of_rgbDigits h x hx
    · rcases List.mem_cons.mp hx with rfl | hx
      · exact le_toNat_comma
      · exact take_of_rgbDigits hr' x hx
  · rw [hlen, List.take_zero]
    exact fun x hx => absurd hx List.not_mem_nil

/-- What each reading says of a character. -/
theorem codes_cases (c : Char) (t : Str) :
    (takenCode c t = none ∧ controlCode c t = none) ∨
    (takenCode c t = some 0 ∧ controlCode c t = some 0 ∧ c.toNat ≠ 3 ∧ c.toNat ≠ 4) ∨
    (c.toNat = 3 ∧ takenCode c t = some (colourRun 0 t) ∧
      controlCode c t = some (colourLength t)) ∨
    (c.toNat = 4 ∧ takenCode c t = some (rgbTaken t) ∧ controlCode c t = some (rgbLength t)) := by
  unfold takenCode controlCode codeLength
  split
  · exact Or.inr (Or.inr (Or.inl ⟨‹_›, rfl, rfl⟩))
  · exact Or.inr (Or.inr (Or.inr ⟨‹_›, rfl, rfl⟩))
  all_goals first
    | exact Or.inl ⟨rfl, rfl⟩
    | exact Or.inr (Or.inl ⟨rfl, rfl, by omega, by omega⟩)

theorem codes_closed : Closed takenCode controlCode where
  none_iff c t := by
    rcases codes_cases c t with ⟨h, h'⟩ | ⟨h, h', -, -⟩ | ⟨-, h, h'⟩ | ⟨-, h, h'⟩
    all_goals rw [h, h']
    all_goals exact iff_of_false (Option.some_ne_none _) (Option.some_ne_none _)
  within c t k hk := by
    rcases codes_cases c t with ⟨h, h'⟩ | ⟨h, h', -, -⟩ | ⟨-, h, h'⟩ | ⟨-, h, h'⟩
    · rw [h, h'] at hk
      rcases hk with hk | hk <;> cases hk
    · rw [h, h'] at hk
      rcases hk with hk | hk <;> exact Option.some.inj hk ▸ Nat.zero_le _
    · rw [h, h'] at hk
      rcases hk with hk | hk
      · exact Option.some.inj hk ▸ colourRun_le 0 t
      · exact Option.some.inj hk ▸ colourLength_le t
    · rw [h, h'] at hk
      rcases hk with hk | hk
      · exact Option.some.inj hk ▸ rgbTaken_le t
      · exact Option.some.inj hk ▸ rgbLength_le t
  plain c t k hk x hx r := by
    refine takenCode_eq_none ?_ r
    rcases codes_cases c t with ⟨h, h'⟩ | ⟨h, h', -, -⟩ | ⟨-, h, h'⟩ | ⟨-, h, h'⟩
    · rw [h, h'] at hk
      rcases hk with hk | hk <;> cases hk
    · rw [h, h'] at hk
      rcases hk with hk | hk
      all_goals rw [← Option.some.inj hk, List.take_zero] at hx
      all_goals cases hx
    · rw [h, h'] at hk
      rcases hk with hk | hk
      · exact take_colourRun 0 t x (Option.some.inj hk ▸ hx)
      · exact take_colourLength t x (Option.some.inj hk ▸ hx)
    · rw [h, h'] at hk
      rcases hk with hk | hk
      · exact take_rgbTaken t x (Option.some.inj hk ▸ hx)
      · exact take_rgbLength t x (Option.some.inj hk ▸ hx)

/-- In a text every `^C` has no more than one comma in or behind its colours, and every `^D` is
followed by an RGB code without a comma behind it, or by what the loop can tell from one. -/
def CodesRegular (text : Str) : Prop :=
  ∀ c t, c :: t <:+ text →
    (c.toNat = 3 → (t.drop (colourLength t)).head? ≠ some ',') ∧ (c.toNat = 4 → RgbRegular t)

theorem takenCode_iff (c : Char) (t : Str) :
    takenCode c t = controlCode c t ↔
      (c.toNat = 3 → (t.drop (colourLength t)).head? ≠ some ',') ∧
        (c.toNat = 4 → RgbRegular t) := by
  rcases codes_cases c t with ⟨h, h'⟩ | ⟨h, h', h3, h4⟩ | ⟨h3, h, h'⟩ | ⟨h4, h, h'⟩
  · rw [h, h']
    refine iff_of_true rfl ⟨fun h3 => ?_, fun h4 => ?_⟩
    · rw [takenCode, codeLength, h3] at h
      cases h
    · rw [takenCode, codeLength, h4] at h
      cases h
  · rw [h, h']
    exact iff_of_true rfl ⟨fun h => absurd h h3, fun h => absurd h h4⟩
  · rw [h, h', Option.some.injEq, colourRun_iff, h3]
    exact ⟨fun h => ⟨fun _ => h, fun h => absurd h (by decide)⟩, fun h => h.1 rfl⟩
  · have hrgb : rgbTaken t = rgbLength t ↔ RgbRegular t := by
      rw [RgbRegular]
      split
      · exact rgbTaken_of_digits ‹_›
      · exact rgbTaken_of_not_digits (Bool.eq_false_iff.mpr ‹_›)
    rw [h, h', Option.some.injEq, hrgb, h4]
    exact ⟨fun h => ⟨fun h => absurd h (by decide), fun _ => h⟩, fun h => h.2 rfl⟩

/-- `StripControlCodes` ends with the text without the codes of clients, which is no longer than
the text and fits into `new_str`, and which it leaves as it is. -/
structure StripsExactly (text : Str) (out : List (ℕ × Char)) : Prop where
  ends : StripsTo text out
  kept : out = kept controlCode 0 text
  le : out.length ≤ text.length
  fits : out.length < STRIPLEN
  again : ∃ out', StripsTo (out.map Prod.snd) out' ∧ out'.map Prod.snd = out.map Prod.snd

/-- What is left has no codes, so that stripping it again changes nothing. -/
theorem strips_again (text : Str) :
    ∃ out', StripsTo ((TextCodes.kept takenCode 0 text).map Prod.snd) out' ∧
      out'.map Prod.snd = (TextCodes.kept takenCode 0 text).map Prod.snd := by
  refine ⟨_, (stripsTo_iff _ _).mpr rfl, kept_of_plain fun x hx r => ?_⟩
  obtain ⟨y, hy, rfl⟩ := List.mem_map.mp hx
  have hnone (c : Char) (t r : Str) (h : takenCode c t = none) : takenCode c r = none :=
    codeLength_none h r
  exact plain_of_mem_kept hnone hy r

theorem exists_stripsExactly_iff (text : Buf STRIPLEN) :
    (∃ out, StripsExactly text.val out) ↔ CodesRegular text.val := by
  have hagree : TextCodes.kept takenCode 0 text.val = TextCodes.kept controlCode 0 text.val ↔
      CodesRegular text.val := by
    rw [kept_eq_iff codes_closed, agree_iff codes_closed]
    · exact forall₃_congr fun c t _ => takenCode_iff c t
    · rw [List.take_zero]
      exact fun x hx => absurd hx List.not_mem_nil
  rw [← hagree]
  constructor
  · rintro ⟨out, h⟩
    rw [← (stripsTo_iff _ _).mp h.ends, h.kept]
  · intro h
    have hle := TextCodes.length_kept_le (f := takenCode) 0 text.val
    exact ⟨TextCodes.kept takenCode 0 text.val, (stripsTo_iff _ _).mpr rfl, h, hle,
      hle.trans_lt text.property, strips_again text.val⟩

/-- In `^C1,2,3` the second comma goes with the colours. -/
theorem not_forall_stripsExactly :
    ¬∀ text : Buf STRIPLEN, ∃ out, StripsExactly text.val out := by
  intro hall
  obtain ⟨out, h⟩ := hall ⟨[Char.ofNat 3, '1', ',', '2', ',', '3'], by decide⟩
  have heq := ((stripsTo_iff _ _).mp h.ends).symm.trans h.kept
  exact absurd heq (by decide)

end Unirc
