import Unirc.Chars
import Unirc.TextCodes

/-!
# Control codes of texts

`StripControlCodes` of `m_message.c` takes the codes of clients out of a text, in one loop with
three mode variables. Colour codes go on for as long as commas come, and an RGB code that turns out
to be none is gone back to, unless the text ends first.
-/

namespace Unirc

open TextCodes

/-- `sizeof(new_str)` -/
abbrev STRIPLEN : ℕ := 4096

/-- `isxdigit` -/
def isXDigit (c : Char) : Bool :=
  c.isDigit || (0x41 ≤ c.toNat && c.toNat ≤ 0x46) || (0x61 ≤ c.toNat && c.toNat ≤ 0x66)

/-- The variables of `StripControlCodes`. `text` stands for `len` as well, and `save` for
`save_text` and `save_len`; `out` has `new_str` with the `len` of each character. -/
structure StripState where
  text : Str
  nc : ℕ
  col : Bool
  rgb : Bool
  save : Str
  out : List (ℕ × Char)

namespace StripState

/-- `switch(*text)` and the two lines behind it. -/
def switch (x : StripState) (c : Char) (t : Str) : StripState :=
  match c.toNat with
  | 3 => { x with text := t, col := true, nc := 0 }
  | 4 => { x with text := t, save := c :: t, rgb := true, nc := 0 }
  | 2 | 31 | 22 | 15 => { x with text := t }
  | _ => { x with text := t, out := x.out ++ [(t.length + 1, c)] }

/-- A turn of the loop at the character `c`. -/
def turn (x : StripState) (c : Char) (t : Str) : StripState :=
  if x.col = true ∧ ((c.isDigit = true ∧ x.nc < 2) ∨ (c = ',' ∧ x.nc < 3)) then
    { x with text := t, nc := if c = ',' then 0 else x.nc + 1 }
  else if (x.rgb = true ∧ isXDigit c = true ∧ x.nc < 6) ∨ (x.rgb = true ∧ c = ',' ∧ x.nc < 7) then
    { x with text := t, nc := if c = ',' then 0 else x.nc + 1 }
  else
    let y := { x with col := false }
    if y.rgb then
      if y.nc ≠ 6 then { y with text := y.save.tail, rgb := false }
      else ({ y with rgb := false } : StripState).switch c t
    else y.switch c t

/-- The loop, as far as the number of turns goes. -/
def loop : ℕ → StripState → Option (List (ℕ × Char))
  | 0, x => if x.text = [] then some x.out else none
  | n + 1, x =>
      match x.text with
      | [] => some x.out
      | c :: t => loop n (x.turn c t)

def start (text : Str) : StripState := ⟨text, 0, false, false, [], []⟩

end StripState

/-- `StripControlCodes` ends with a text, whose characters stand at these places. -/
def StripsTo (text : Str) (out : List (ℕ × Char)) : Prop :=
  ∃ n, StripState.loop n (StripState.start text) = some out

/-- The characters that the loop takes for a colour code, which has had `nc` digits. -/
def colourRun : ℕ → Str → ℕ
  | _, [] => 0
  | nc, c :: t =>
      if c.isDigit = true ∧ nc < 2 then 1 + colourRun (nc + 1) t
      else if c = ',' then 1 + colourRun 0 t
      else 0

/-- The longest run of hex digits and commas with no more than six digits in a row, after `nc` of
them: the number of digits at its end, and the text behind it. -/
def rgbRun : ℕ → Str → ℕ × Str
  | nc, [] => (nc, [])
  | nc, c :: t =>
      if isXDigit c = true ∧ nc < 6 then rgbRun (nc + 1) t
      else if c = ',' then rgbRun 0 t
      else (nc, c :: t)

/-- The characters behind `^D` that the loop takes away. -/
def rgbTaken (t : Str) : ℕ :=
  if (rgbRun 0 t).2 = [] then t.length
  else if (rgbRun 0 t).1 = 6 then t.length - (rgbRun 0 t).2.length
  else 0

/-- The codes, with what belongs to a `^C` and to a `^D`. -/
def codeLength (colour rgb : Str → ℕ) (c : Char) (t : Str) : Option ℕ :=
  match c.toNat with
  | 3 => some (colour t)
  | 4 => some (rgb t)
  | 2 | 31 | 22 | 15 => some 0
  | _ => none

theorem codeLength_none {colour rgb : Str → ℕ} {c : Char} {t : Str}
    (h : codeLength colour rgb c t = none) (r : Str) : codeLength colour rgb c r = none := by
  unfold codeLength at h ⊢
  split at h
  all_goals first
    | exact absurd h (Option.some_ne_none _)
    | rfl

/-- The codes that the loop takes out. -/
def takenCode (c : Char) (t : Str) : Option ℕ := codeLength (colourRun 0) rgbTaken c t

namespace StripState

theorem loop_mono {n m : ℕ} (h : n ≤ m) {x : StripState} {out : List (ℕ × Char)}
    (hx : loop n x = some out) : loop m x = some out := by
  induction n generalizing m x with
  | zero =>
      rw [loop] at hx
      split at hx
      · cases m with
        | zero => rwa [loop, if_pos ‹_›]
        | succ m => rwa [loop, ‹x.text = []›]
      · cases hx
  | succ n ih =>
      cases m with
      | zero => exact absurd h (Nat.not_succ_le_zero n)
      | succ m =>
          rw [loop] at hx ⊢
          cases hs : x.text with
          | nil => rwa [hs] at hx
          | cons c t =>
              rw [hs] at hx
              exact ih (Nat.le_of_succ_le_succ h) hx

/-- The loop ends with `out`. -/
def Ends (x : StripState) (out : List (ℕ × Char)) : Prop := ∃ n, loop n x = some out

theorem Ends.unique {x : StripState} {o o' : List (ℕ × Char)} (h : x.Ends o) (h' : x.Ends o') :
    o = o' := by
  obtain ⟨n, hn⟩ := h
  obtain ⟨m, hm⟩ := h'
  have hn' := loop_mono (Nat.le_max_left n m) hn
  rw [loop_mono (Nat.le_max_right n m) hm, Option.some.injEq] at hn'
  exact hn'.symm

theorem ends_of_nil {x : StripState} (h : x.text = []) : x.Ends x.out := by
  refine ⟨0, ?_⟩
  rw [loop, if_pos h]

theorem ends_of_turn {x : StripState} {c : Char} {t : Str} {out : List (ℕ × Char)}
    (hx : x.text = c :: t) (h : (x.turn c t).Ends out) : x.Ends out := by
  obtain ⟨n, hn⟩ := h
  refine ⟨n + 1, ?_⟩
  rw [loop, hx]
  exact hn

/-- From all texts up to a length, the loop between two codes ends with what `takenCode` leaves. -/
def EndsUpTo (m : ℕ) : Prop :=
  ∀ t : Str, t.length ≤ m → ∀ nc save out,
    Ends ⟨t, nc, false, false, save, out⟩ (out ++ kept takenCode 0 t)

/-- A character that the colour mode does not take is read as between two codes. -/
theorem turn_of_not_col {c : Char} {t : Str} {nc : ℕ} (save : Str) (out : List (ℕ × Char))
    (h : ¬((c.isDigit = true ∧ nc < 2) ∨ (c = ',' ∧ nc < 3))) :
    turn ⟨c :: t, nc, true, false, save, out⟩ c t =
      turn ⟨c :: t, nc, false, false, save, out⟩ c t := by
  simp only [turn, h, and_false, Bool.false_eq_true, false_and, or_self, if_false]

theorem ends_col {m : ℕ} (hm : EndsUpTo m) {t : Str} (ht : t.length ≤ m) {nc : ℕ} (hnc : nc ≤ 2)
    (save : Str) (out : List (ℕ × Char)) :
    Ends ⟨t, nc, true, false, save, out⟩ (out ++ kept takenCode (colourRun nc t) t) := by
  induction t generalizing nc with
  | nil =>
      have h := ends_of_nil (x := ⟨[], nc, true, false, save, out⟩) rfl
      rwa [colourRun, kept, List.append_nil]
  | cons c t ih =>
      have ht' : t.length ≤ m := (Nat.le_succ _).trans ht
      by_cases hdigit : c.isDigit = true ∧ nc < 2
      · have hcomma : c ≠ ',' := by
          rintro rfl
          exact absurd hdigit.1 (by decide)
        rw [colourRun, if_pos hdigit, Nat.add_comm, kept]
        refine ends_of_turn rfl ?_
        rw [turn, if_pos ⟨rfl, Or.inl hdigit⟩, if_neg hcomma]
        exact ih ht' hdigit.2
      · by_cases hcomma : c = ','
        · rw [colourRun, if_neg hdigit, if_pos hcomma, Nat.add_comm, kept]
          refine ends_of_turn rfl ?_
          rw [turn, if_pos ⟨rfl, Or.inr ⟨hcomma, Nat.lt_succ_of_le hnc⟩⟩, if_pos hcomma]
          exact ih ht' (Nat.zero_le 2)
        · rw [colourRun, if_neg hdigit, if_neg hcomma]
          obtain ⟨n, hn⟩ := hm (c :: t) ht nc save out
          cases n with
          | zero => cases hn
          | succ n =>
              refine ends_of_turn rfl ⟨n, ?_⟩
              rw [turn_of_not_col save out fun h => h.elim hdigit fun h => hcomma h.1]
              exact hn

/-- What is left behind a `^D` that the text `s` follows, when the loop has come to `t`. -/
def afterRgb (s : Str) (nc : ℕ) (t : Str) : List (ℕ × Char) :=
  if (rgbRun nc t).2 = [] then []
  else if (rgbRun nc t).1 = 6 then kept takenCode 0 (rgbRun nc t).2
  else kept takenCode 0 s

theorem ends_rgb {m : ℕ} (hm : EndsUpTo m) {s t : Str} (hs : s.length ≤ m) (ht : t.length ≤ m)
    {nc : ℕ} (hnc : nc ≤ 6) (d : Char) (out : List (ℕ × Char)) :
    Ends ⟨t, nc, false, true, d :: s, out⟩ (out ++ afterRgb s nc t) := by
  induction t generalizing nc with
  | nil =>
      have h := ends_of_nil (x := ⟨[], nc, false, true, d :: s, out⟩) rfl
      rwa [afterRgb, rgbRun, if_pos rfl, List.append_nil]
  | cons c t ih =>
      have ht' : t.length ≤ m := (Nat.le_succ _).trans ht
      by_cases hdigit : isXDigit c = true ∧ nc < 6
      · have hcomma : c ≠ ',' := by
          rintro rfl
          exact absurd hdigit.1 (by decide)
        have hnext := ih ht' hdigit.2
        rw [afterRgb, rgbRun, if_pos hdigit]
        refine ends_of_turn rfl ?_
        rw [turn, if_neg fun hc => Bool.false_ne_true hc.1, if_pos (Or.inl ⟨rfl, hdigit⟩),
          if_neg hcomma]
        exact hnext
      · by_cases hcomma : c = ','
        · have hnext := ih ht' (Nat.zero_le 6)
          rw [afterRgb, rgbRun, if_neg hdigit, if_pos hcomma]
          refine ends_of_turn rfl ?_
          rw [turn, if_neg fun hc => Bool.false_ne_true hc.1,
            if_pos (Or.inr ⟨rfl, hcomma, Nat.lt_succ_of_le hnc⟩), if_pos hcomma]
          exact hnext
        · have hneg : ¬((true = true ∧ isXDigit c = true ∧ nc < 6) ∨
              (true = true ∧ c = ',' ∧ nc < 7)) := by
            rintro (h | h)
            · exact hdigit h.2
            · exact hcomma h.2.1
          rw [afterRgb, rgbRun, if_neg hdigit, if_neg hcomma, if_neg (List.cons_ne_nil c t)]
          by_cases hsix : nc = 6
          · obtain ⟨n, hn⟩ := hm (c :: t) ht nc (d :: s) out
            cases n with
            | zero => cases hn
            | succ n =>
                refine ends_of_turn rfl ⟨n, ?_⟩
                rw [if_pos hsix, ← hn, loop]
                simp only [turn, hsix, hcomma, Bool.false_eq_true, false_and, and_false, or_self,
                  if_false, if_true, ne_eq, not_true_eq_false, Nat.lt_irrefl]
          · rw [if_neg hsix]
            refine ends_of_turn rfl ?_
            rw [turn, if_neg fun hc => Bool.false_ne_true hc.1, if_neg hneg]
            simp only [if_true, ne_eq, hsix, not_false_eq_true, List.tail_cons]
            exact hm s hs nc (d :: s) out

theorem switch_eq (x : StripState) (c : Char) (t : Str) :
    (takenCode c t = none ∧
      x.switch c t = { x with text := t, out := x.out ++ [(t.length + 1, c)] })
    ∨ (takenCode c t = some 0 ∧ x.switch c t = { x with text := t })
    ∨ (takenCode c t = some (colourRun 0 t) ∧
      x.switch c t = { x with text := t, col := true, nc := 0 })
    ∨ (takenCode c t = some (rgbTaken t) ∧
      x.switch c t = { x with text := t, save := c :: t, rgb := true, nc := 0 }) := by
  unfold takenCode codeLength switch
  split
  · exact Or.inr (Or.inr (Or.inl ⟨rfl, rfl⟩))
  · exact Or.inr (Or.inr (Or.inr ⟨rfl, rfl⟩))
  all_goals first
    | exact Or.inr (Or.inl ⟨rfl, rfl⟩)
    | exact Or.inl ⟨rfl, rfl⟩

end StripState

theorem rgbRun_suffix (nc : ℕ) (t : Str) : (rgbRun nc t).2 <:+ t := by
  induction t generalizing nc with
  | nil => exact List.suffix_rfl
  | cons c t ih =>
      rw [rgbRun]
      split
      · exact (ih _).trans (List.suffix_cons c t)
      · split
        · exact (ih _).trans (List.suffix_cons c t)
        · exact List.suffix_rfl

namespace StripState

theorem afterRgb_eq (t : Str) : afterRgb t 0 t = kept takenCode (rgbTaken t) t := by
  rw [afterRgb, rgbTaken]
  split
  · rw [kept_skip, List.drop_length]
    rfl
  · split
    · rw [kept_skip (_ - _), ← List.suffix_iff_eq_drop.mp (rgbRun_suffix 0 t)]
    · rfl

theorem endsUpTo (m : ℕ) : EndsUpTo m := by
  induction m with
  | zero =>
      intro t ht nc save out
      obtain rfl := List.length_eq_zero_iff.mp (Nat.le_zero.mp ht)
      rw [kept, List.append_nil]
      exact ends_of_nil rfl
  | succ m ih =>
      intro t ht nc save out
      cases t with
      | nil =>
          rw [kept, List.append_nil]
          exact ends_of_nil rfl
      | cons c t =>
          have ht' : t.length ≤ m := Nat.le_of_succ_le_succ ht
          refine ends_of_turn rfl ?_
          have hturn : turn ⟨c :: t, nc, false, false, save, out⟩ c t =
              switch ⟨c :: t, nc, false, false, save, out⟩ c t := by
            simp [turn]
          rw [hturn, kept]
          obtain ⟨hc, hs⟩ | ⟨hc, hs⟩ | ⟨hc, hs⟩ | ⟨hc, hs⟩ :=
            switch_eq ⟨c :: t, nc, false, false, save, out⟩ c t
          · rw [hc, hs]
            have h := ih t ht' nc save (out ++ [(t.length + 1, c)])
            rwa [List.append_assoc] at h
          · rw [hc, hs]
            exact ih t ht' nc save out
          · rw [hc, hs]
            exact ends_col ih ht' (Nat.zero_le 2) save out
          · rw [hc, hs]
            have h := ends_rgb ih ht' ht' (Nat.zero_le 6) c out
            rwa [afterRgb_eq] at h

end StripState

/-- The loop comes to its end, with the text that `takenCode` leaves. -/
theorem stripsTo_iff (text : Str) (out : List (ℕ × Char)) :
    StripsTo text out ↔ out = kept takenCode 0 text := by
  have hends := StripState.endsUpTo text.length text le_rfl 0 [] []
  constructor
  · intro h
    exact StripState.Ends.unique h hends
  · rintro rfl
    exact hends

end Unirc
