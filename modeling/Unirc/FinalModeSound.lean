import Mathlib.Data.Finset.SDiff
import Unirc.SetFinalMode

/-!
# Replaying the mode difference

Both copies of `set_final_mode` print a list of changes that a client replays
one by one. The result is the new mode except for the flood pair, which is
printed only when both of its numbers change.
-/

namespace Unirc

def Change.apply (v : View) (c : Change) : View :=
  v.change c.adding c.letter (c.param.getD [])

/-- The letter is not a sign, and it is printed with a parameter exactly when a
reader takes one. -/
structure Change.Aligned (c : Change) : Prop where
  plus : c.letter ≠ '+'
  minus : c.letter ≠ '-'
  param : c.param.isSome = takesParam c.adding c.letter

/-- Reading one change consumes its own parameter and nothing else. -/
theorem Reader.step_change {c : Change} (hc : c.Aligned) (rest : List Str) (v : View) :
    Reader.step ⟨c.adding, c.param.toList ++ rest, v⟩ c.letter =
      ⟨c.adding, rest, Change.apply v c⟩ := by
  rw [Reader.step, if_neg hc.plus, if_neg hc.minus]
  have hp := hc.param
  cases h : c.param with
  | none =>
      rw [h, Option.isSome_none] at hp
      simp [← hp, Change.apply, h]
  | some p =>
      rw [h, Option.isSome_some] at hp
      simp [← hp, Change.apply, h]

theorem Reader.foldl_letters {a : Bool} {cs : List Change} (ha : ∀ c ∈ cs, c.adding = a)
    (hc : ∀ c ∈ cs, c.Aligned) (rest : List Str) (v : View) :
    (cs.map Change.letter).foldl Reader.step ⟨a, params cs ++ rest, v⟩ =
      ⟨a, rest, cs.foldl Change.apply v⟩ := by
  induction cs generalizing v with
  | nil => rfl
  | cons c cs ih =>
      have hs : c.adding = a := ha c List.mem_cons_self
      rw [List.map_cons, List.foldl_cons, List.foldl_cons, params_cons, List.append_assoc, ← hs,
        Reader.step_change (hc c List.mem_cons_self), hs]
      exact ih (fun d hd => ha d (List.mem_cons_of_mem _ hd))
        (fun d hd => hc d (List.mem_cons_of_mem _ hd)) _

theorem Reader.step_sign (a b : Bool) (args : List Str) (v : View) :
    Reader.step ⟨b, args, v⟩ (sign a) = ⟨a, args, v⟩ := by
  cases a <;> rfl

namespace FinalMode

theorem mem_finalFlags_iff (x : SimpleMode × Char) : x ∈ finalFlags ↔ x ∈ flags := by
  have h₁ : finalFlags ⊆ flags := by decide
  have h₂ : flags ⊆ finalFlags := by decide
  exact ⟨fun h => h₁ h, fun h => h₂ h⟩

theorem flags_letter_unique : ∀ x ∈ flags, ∀ y ∈ flags, x.2 = y.2 → x.1 = y.1 := by decide

theorem simple_of_mem_flags : ∀ x ∈ flags,
    x.2 ≠ 'l' ∧ x.2 ≠ 'k' ∧ x.2 ≠ 'F' ∧ x.2 ≠ 'f' ∧ x.2 ≠ '+' ∧ x.2 ≠ '-' := by decide

theorem simple_of_mem_letters {bits : Finset SimpleMode} {c : Char}
    (h : c ∈ letters finalFlags bits) :
    c ≠ 'l' ∧ c ≠ 'k' ∧ c ≠ 'F' ∧ c ≠ 'f' ∧ c ≠ '+' ∧ c ≠ '-' := by
  obtain ⟨b, -, hb⟩ := mem_letters.mp h
  exact simple_of_mem_flags _ ((mem_finalFlags_iff _).mp hb)

theorem toFinset_letters (bits : Finset SimpleMode) :
    (letters finalFlags bits).toFinset = (letters flags bits).toFinset := by
  ext c
  simp only [List.mem_toFinset, mem_letters, mem_finalFlags_iff]

theorem toFinset_letters_sdiff (s t : Finset SimpleMode) :
    (letters flags (s \ t)).toFinset =
      (letters flags s).toFinset \ (letters flags t).toFinset := by
  ext c
  simp only [List.mem_toFinset, Finset.mem_sdiff, mem_letters]
  constructor
  · rintro ⟨b, ⟨hs, ht⟩, hb⟩
    refine ⟨⟨b, hs, hb⟩, ?_⟩
    rintro ⟨b', ht', hb'⟩
    have he : b' = b := flags_letter_unique _ hb' _ hb rfl
    exact ht (he ▸ ht')
  · rintro ⟨⟨b, hs, hb⟩, hn⟩
    exact ⟨b, ⟨hs, fun ht => hn ⟨b, ht, hb⟩⟩, hb⟩

variable (mode oldmode : Mode)

theorem aligned_flags (a : Bool) (bits : Finset SimpleMode) :
    ∀ c ∈ (letters finalFlags bits).map (fun c => (⟨a, c, none⟩ : Change)), c.Aligned := by
  intro c hc
  obtain ⟨l, hl, rfl⟩ := List.mem_map.mp hc
  obtain ⟨h1, h2, h3, h4, h5, h6⟩ := simple_of_mem_letters hl
  exact ⟨h5, h6, by simp [takesParam, h1, h2, h3, h4]⟩

theorem aligned_of_mem_ite {p : Prop} [Decidable p] {c d : Change} (hd : d.Aligned)
    (h : c ∈ if p then [d] else []) : c.Aligned := by
  split at h
  · rw [List.mem_singleton] at h
    exact h ▸ hd
  · cases h

theorem adding_of_mem_ite {p : Prop} [Decidable p] {c d : Change}
    (h : c ∈ if p then [d] else []) : c.adding = d.adding := by
  split at h
  · rw [List.mem_singleton] at h
    rw [h]
  · cases h

theorem off_adding : ∀ c ∈ Sjoin.off mode oldmode, c.adding = false := by
  intro c hc
  simp only [Sjoin.off, List.mem_append, or_assoc] at hc
  rcases hc with h | h | h | h | h
  · obtain ⟨l, -, rfl⟩ := List.mem_map.mp h
    rfl
  all_goals exact adding_of_mem_ite h

theorem on_adding : ∀ c ∈ Sjoin.on mode oldmode, c.adding = true := by
  intro c hc
  simp only [Sjoin.on, List.mem_append, or_assoc] at hc
  rcases hc with h | h | h | h | h
  · obtain ⟨l, -, rfl⟩ := List.mem_map.mp h
    rfl
  all_goals exact adding_of_mem_ite h

theorem off_aligned : ∀ c ∈ Sjoin.off mode oldmode, c.Aligned := by
  intro c hc
  simp only [Sjoin.off, List.mem_append, or_assoc] at hc
  rcases hc with h | h | h | h | h
  · exact aligned_flags _ _ c h
  all_goals exact aligned_of_mem_ite ⟨by simp, by simp, rfl⟩ h

theorem on_aligned : ∀ c ∈ Sjoin.on mode oldmode, c.Aligned := by
  intro c hc
  simp only [Sjoin.on, List.mem_append, or_assoc] at hc
  rcases hc with h | h | h | h | h
  · exact aligned_flags _ _ c h
  all_goals exact aligned_of_mem_ite ⟨by simp, by simp, rfl⟩ h

theorem mem_changes_iff (c : Change) :
    c ∈ Join.changes mode oldmode ↔ c ∈ Sjoin.off mode oldmode ∨ c ∈ Sjoin.on mode oldmode := by
  simp only [Join.changes, Sjoin.off, Sjoin.on, List.mem_append]
  tauto

theorem changes_aligned : ∀ c ∈ Join.changes mode oldmode, c.Aligned := by
  intro c hc
  rcases (mem_changes_iff mode oldmode c).mp hc with h | h
  · exact off_aligned mode oldmode c h
  · exact on_aligned mode oldmode c h

theorem foldl_simple_off {cs : List Char}
    (h : ∀ c ∈ cs, c ≠ 'l' ∧ c ≠ 'k' ∧ c ≠ 'F' ∧ c ≠ 'f') (v : View) :
    (cs.map fun c => (⟨false, c, none⟩ : Change)).foldl Change.apply v =
      { v with letters := v.letters \ cs.toFinset } := by
  induction cs generalizing v with
  | nil => simp
  | cons c cs ih =>
      obtain ⟨h1, h2, h3, h4⟩ := h c List.mem_cons_self
      rw [List.map_cons, List.foldl_cons, ih fun d hd => h d (List.mem_cons_of_mem _ hd)]
      simp only [Change.apply, View.change, if_neg h1, if_neg h2, if_neg h3, if_neg h4,
        Bool.false_eq_true, if_false, List.toFinset_cons, Finset.sdiff_insert,
        Finset.erase_sdiff_comm]

theorem foldl_simple_on {cs : List Char}
    (h : ∀ c ∈ cs, c ≠ 'l' ∧ c ≠ 'k' ∧ c ≠ 'F' ∧ c ≠ 'f') (v : View) :
    (cs.map fun c => (⟨true, c, none⟩ : Change)).foldl Change.apply v =
      { v with letters := v.letters ∪ cs.toFinset } := by
  induction cs generalizing v with
  | nil => simp
  | cons c cs ih =>
      obtain ⟨h1, h2, h3, h4⟩ := h c List.mem_cons_self
      rw [List.map_cons, List.foldl_cons, ih fun d hd => h d (List.mem_cons_of_mem _ hd)]
      simp only [Change.apply, View.change, if_neg h1, if_neg h2, if_neg h3, if_neg h4,
        if_true, List.toFinset_cons, Finset.insert_union, Finset.union_insert]

theorem foldl_flagsOff (v : View) : (flagsOff mode oldmode).foldl Change.apply v =
    { v with letters := v.letters \
      ((letters flags oldmode.mode).toFinset \ (letters flags mode.mode).toFinset) } := by
  rw [flagsOff, foldl_simple_off, toFinset_letters, toFinset_letters_sdiff]
  intro c hc
  obtain ⟨h1, h2, h3, h4, -⟩ := simple_of_mem_letters hc
  exact ⟨h1, h2, h3, h4⟩

theorem foldl_flagsOn (v : View) : (flagsOn mode oldmode).foldl Change.apply v =
    { v with letters := v.letters ∪
      ((letters flags mode.mode).toFinset \ (letters flags oldmode.mode).toFinset) } := by
  rw [flagsOn, foldl_simple_on, toFinset_letters, toFinset_letters_sdiff]
  intro c hc
  obtain ⟨h1, h2, h3, h4, -⟩ := simple_of_mem_letters hc
  exact ⟨h1, h2, h3, h4⟩

theorem foldl_limitOff (v : View) : (limitOff mode oldmode).foldl Change.apply v =
    { v with limit := if oldmode.limit ≠ 0 ∧ mode.limit = 0 then 0 else v.limit } := by
  unfold limitOff
  split <;> simp [Change.apply, View.change]

theorem foldl_floodOff (v : View) : (floodOff mode oldmode).foldl Change.apply v =
    { v with flood := if FloodOff mode oldmode then none else v.flood } := by
  unfold floodOff
  split <;> simp [Change.apply, View.change]

theorem foldl_keyOff (v : View) : (keyOff mode oldmode).foldl Change.apply v =
    { v with key := if oldmode.key.val ≠ [] ∧ mode.key.val = [] then [] else v.key } := by
  unfold keyOff
  split <;> simp [Change.apply, View.change]

theorem foldl_forwardOff (v : View) : (forwardOff mode oldmode).foldl Change.apply v =
    { v with forward :=
      if oldmode.forward.val ≠ [] ∧ mode.forward.val = [] then [] else v.forward } := by
  unfold forwardOff
  split <;> simp [Change.apply, View.change]

theorem foldl_limitOn (v : View) : (limitOn mode oldmode).foldl Change.apply v =
    { v with limit := if mode.limit ≠ 0 ∧ oldmode.limit ≠ mode.limit then mode.limit
        else v.limit } := by
  unfold limitOn
  split <;> simp [Change.apply, View.change, formatInt, Decimal.ofInt_atoi_print]

theorem foldl_floodOn (v : View) : (floodOn mode oldmode).foldl Change.apply v =
    { v with flood := if FloodOn mode oldmode then some (mode.msgs, mode.per) else v.flood } := by
  unfold floodOn
  split <;> simp [Change.apply, View.change, parseFlood_formatFlood, BitVec.ofInt_toInt]

theorem foldl_keyOn (v : View) : (keyOn mode oldmode).foldl Change.apply v =
    { v with key := if mode.key.val ≠ [] ∧ oldmode.key.val ≠ mode.key.val then mode.key.val
        else v.key } := by
  unfold keyOn
  split <;> simp [Change.apply, View.change]

theorem foldl_forwardOn (v : View) : (forwardOn mode oldmode).foldl Change.apply v =
    { v with forward :=
      if mode.forward.val ≠ [] ∧ oldmode.forward.val ≠ mode.forward.val then mode.forward.val
        else v.forward } := by
  unfold forwardOn
  split <;> simp [Change.apply, View.change]

/-- The flood pair a client holds after the changes. -/
def floodReplayed : Option (U32 × U32) :=
  if FloodOn mode oldmode then some (mode.msgs, mode.per)
  else if FloodOff mode oldmode then none else floodShown oldmode

theorem off_then_on_val {α : Type*} [DecidableEq α] (zero old new : α) :
    (if new ≠ zero ∧ old ≠ new then new else if old ≠ zero ∧ new = zero then zero else old) =
      new := by
  split_ifs with h₁ h₂
  · rfl
  · exact h₂.2.symm
  · by_cases h : old = new
    · exact h
    · have hn : new = zero := by
        by_contra hn
        exact h₁ ⟨hn, h⟩
      have ho : old = zero := by
        by_contra ho
        exact h₂ ⟨ho, hn⟩
      rw [ho, hn]

theorem foldl_sjoin : (Sjoin.off mode oldmode ++ Sjoin.on mode oldmode).foldl Change.apply
    (view oldmode) = { view mode with flood := floodReplayed mode oldmode } := by
  simp only [Sjoin.off, Sjoin.on, List.foldl_append, foldl_flagsOff, foldl_flagsOn,
    foldl_limitOff, foldl_limitOn, foldl_floodOff, foldl_floodOn, foldl_keyOff, foldl_keyOn,
    foldl_forwardOff, foldl_forwardOn, view, off_then_on_val, floodReplayed, View.mk.injEq,
    and_true]
  ext c
  simp only [Finset.mem_union, Finset.mem_sdiff]
  tauto

theorem foldl_join : (Join.changes mode oldmode).foldl Change.apply (view oldmode) =
    { view mode with flood := floodReplayed mode oldmode } := by
  simp only [Join.changes, List.foldl_append, foldl_flagsOff, foldl_flagsOn,
    foldl_limitOff, foldl_limitOn, foldl_floodOff, foldl_floodOn, foldl_keyOff, foldl_keyOn,
    foldl_forwardOff, foldl_forwardOn, view, off_then_on_val, floodReplayed, View.mk.injEq,
    and_true]
  ext c
  simp only [Finset.mem_union, Finset.mem_sdiff]
  tauto

theorem getLast?_letters {c : Char} {cs : List Change} (h : ∀ d ∈ cs, d.letter ≠ c) :
    (c :: cs.map Change.letter).getLast? = some c ↔ cs = [] := by
  constructor
  · intro hl
    by_contra hne
    obtain ⟨l, hl'⟩ := Option.ne_none_iff_exists'.mp
      (mt List.getLast?_eq_none_iff.mp (mt List.map_eq_nil_iff.mp hne))
    rw [List.getLast?_cons, hl'] at hl
    obtain ⟨d, hd, he⟩ := List.mem_map.mp (List.mem_of_getLast? hl')
    exact h d hd (he.trans (Option.some.inj hl))
  · rintro rfl
    rfl

/-- Letters under one sign; nothing is written when there are none. -/
def signed (a : Bool) (cs : List Change) : Str :=
  if cs = [] then [] else sign a :: cs.map Change.letter

/-- The trailing signs are written over exactly when no letter follows them. -/
theorem sjoin_modebuf : (Sjoin.setFinalMode mode oldmode).modebuf =
    signed false (Sjoin.off mode oldmode) ++ signed true (Sjoin.on mode oldmode) := by
  have hoff : ∀ d ∈ Sjoin.off mode oldmode, d.letter ≠ '-' := fun d hd =>
    (off_aligned mode oldmode d hd).minus
  have hon : ∀ d ∈ Sjoin.on mode oldmode, d.letter ≠ '+' := fun d hd =>
    (on_aligned mode oldmode d hd).plus
  have hneg : (if ('-' :: (Sjoin.off mode oldmode).map Change.letter).getLast? = some '-' then
      ('-' :: (Sjoin.off mode oldmode).map Change.letter).dropLast ++ ['+']
      else '-' :: (Sjoin.off mode oldmode).map Change.letter ++ ['+']) =
      signed false (Sjoin.off mode oldmode) ++ ['+'] := by
    simp only [getLast?_letters hoff, signed]
    split
    · rename_i h
      rw [h]
      rfl
    · rfl
  simp only [Sjoin.setFinalMode, hneg, List.append_assoc, List.singleton_append]
  rw [List.getLast?_append_of_ne_nil _ (List.cons_ne_nil _ _)]
  simp only [getLast?_letters hon]
  split
  · rename_i h
    rw [h, List.map_nil, List.dropLast_concat, signed, signed, if_pos rfl, List.append_nil]
  · rename_i h
    rw [signed, signed, if_neg h]
    rfl

theorem foldl_signed {a b : Bool} {cs : List Change} (ha : ∀ c ∈ cs, c.adding = a)
    (hc : ∀ c ∈ cs, c.Aligned) (rest : List Str) (v : View) :
    ∃ b', (signed a cs).foldl Reader.step ⟨b, params cs ++ rest, v⟩ =
      ⟨b', rest, cs.foldl Change.apply v⟩ := by
  by_cases h : cs = []
  · subst h
    exact ⟨b, rfl⟩
  · refine ⟨a, ?_⟩
    rw [signed, if_neg h, List.foldl_cons, Reader.step_sign, Reader.foldl_letters ha hc]

theorem replay_sjoin : replay (Sjoin.setFinalMode mode oldmode) (view oldmode) =
    { view mode with flood := floodReplayed mode oldmode } := by
  obtain ⟨b₁, h₁⟩ := foldl_signed (b := true) (off_adding mode oldmode) (off_aligned mode oldmode)
    (params (Sjoin.on mode oldmode) ++ []) (view oldmode)
  obtain ⟨b₂, h₂⟩ := foldl_signed (b := b₁) (on_adding mode oldmode) (on_aligned mode oldmode)
    [] ((Sjoin.off mode oldmode).foldl Change.apply (view oldmode))
  rw [replay, sjoin_modebuf, List.foldl_append]
  simp only [Sjoin.setFinalMode, params_append]
  rw [List.append_nil] at h₁
  rw [h₁]
  rw [List.append_nil] at h₂
  rw [h₂, ← List.foldl_append, foldl_sjoin]

/-- A change is read in the direction of the last sign written. -/
theorem foldl_render {what : Option Bool} {a : Bool} {cs : List Change}
    (hw : ∀ b, what = some b → b = a) (hc : ∀ c ∈ cs, c.Aligned) (rest : List Str) (v : View) :
    ∃ b', (Join.render what cs).foldl Reader.step ⟨a, params cs ++ rest, v⟩ =
      ⟨b', rest, cs.foldl Change.apply v⟩ := by
  induction cs generalizing what a v with
  | nil => exact ⟨a, rfl⟩
  | cons c cs ih =>
      have hsign : (if what ≠ some c.adding then [sign c.adding] else []).foldl Reader.step
          ⟨a, params (c :: cs) ++ rest, v⟩ = ⟨c.adding, params (c :: cs) ++ rest, v⟩ := by
        split
        · exact Reader.step_sign _ _ _ _
        · rename_i h
          rw [hw c.adding (not_not.mp h)]
          rfl
      rw [Join.render, List.foldl_append, hsign, List.foldl_cons, params_cons, List.append_assoc,
        Reader.step_change (hc c List.mem_cons_self), List.foldl_cons]
      exact ih (fun b hb => (Option.some.inj hb).symm)
        (fun d hd => hc d (List.mem_cons_of_mem _ hd)) _

theorem replay_join : replay (Join.setFinalMode mode oldmode) (view oldmode) =
    { view mode with flood := floodReplayed mode oldmode } := by
  have hnone : ∀ b, (none : Option Bool) = some b → b = true := fun b hb => by cases hb
  obtain ⟨b, h⟩ := foldl_render hnone (changes_aligned mode oldmode) [] (view oldmode)
  rw [List.append_nil] at h
  simp only [replay, Join.setFinalMode, h, foldl_join]

/-- The flood pair shown is unchanged, or it is turned off or set as a whole. -/
def FloodCovered : Prop :=
  floodShown mode = floodShown oldmode ∨ FloodOff mode oldmode ∨ FloodOn mode oldmode

instance : Decidable (FloodCovered mode oldmode) := by
  unfold FloodCovered
  infer_instance

theorem floodReplayed_eq_iff :
    floodReplayed mode oldmode = floodShown mode ↔ FloodCovered mode oldmode := by
  by_cases hon : FloodOn mode oldmode
  · have hs : floodShown mode = some (mode.msgs, mode.per) := if_pos ⟨hon.1.1.1, hon.1.2.1⟩
    rw [floodReplayed, if_pos hon, hs]
    exact ⟨fun _ => Or.inr (Or.inr hon), fun _ => rfl⟩
  · by_cases hoff : FloodOff mode oldmode
    · have hs : floodShown mode = none := if_neg fun h => h.1 hoff.1.2
      rw [floodReplayed, if_neg hon, if_pos hoff, hs]
      exact ⟨fun _ => Or.inr (Or.inl hoff), fun _ => rfl⟩
    · rw [floodReplayed, if_neg hon, if_neg hoff, FloodCovered, eq_comm]
      exact ⟨Or.inl, fun h => h.resolve_right (not_or.mpr ⟨hoff, hon⟩)⟩

/-- Two modes that look alike differ in no change that would be printed. -/
theorem changes_eq_nil (h : view oldmode = view mode) : Join.changes mode oldmode = [] := by
  obtain ⟨hl, hlim, hk, hf, hfl⟩ := View.mk.injEq .. ▸ h
  have hoff : letters finalFlags (oldmode.mode \ mode.mode) = [] := by
    rw [← List.toFinset_eq_empty_iff, toFinset_letters, toFinset_letters_sdiff, hl,
      Finset.sdiff_self]
  have hon : letters finalFlags (mode.mode \ oldmode.mode) = [] := by
    rw [← List.toFinset_eq_empty_iff, toFinset_letters, toFinset_letters_sdiff, hl,
      Finset.sdiff_self]
  have hfoff : ¬ FloodOff mode oldmode := by
    intro hc
    rw [floodShown, floodShown, if_pos ⟨hc.1.1, hc.2.1⟩, if_neg fun hm => hm.1 hc.1.2] at hfl
    cases hfl
  have hfon : ¬ FloodOn mode oldmode := by
    intro hc
    rw [floodShown, floodShown, if_pos (c := mode.msgs ≠ 0 ∧ _) ⟨hc.1.1.1, hc.1.2.1⟩] at hfl
    split at hfl
    · exact hc.1.1.2 (congrArg Prod.fst (Option.some.inj hfl))
    · cases hfl
  simp [Join.changes, flagsOn, flagsOff, limitOn, limitOff, floodOff, floodOn, keyOff, keyOn,
    forwardOff, forwardOn, hoff, hon, hlim, hk, hf, hfoff, hfon]

theorem off_on_eq_nil (h : Join.changes mode oldmode = []) :
    Sjoin.off mode oldmode = [] ∧ Sjoin.on mode oldmode = [] := by
  have hm := mem_changes_iff mode oldmode
  simp only [h, List.not_mem_nil, false_iff, not_or] at hm
  exact ⟨List.eq_nil_iff_forall_not_mem.mpr fun c => (hm c).1,
    List.eq_nil_iff_forall_not_mem.mpr fun c => (hm c).2⟩

end FinalMode

/-- A mode difference is sound when replaying it shows the new mode, and it is
empty exactly when there is nothing to show. -/
def ModeLine.Sound (line : ModeLine) (mode oldmode : Mode) : Prop :=
  replay line (view oldmode) = view mode ∧ (line.modebuf = [] ↔ view oldmode = view mode)

theorem ModeLine.sound_iff {line : ModeLine} {mode oldmode : Mode}
    (hr : replay line (view oldmode) =
      { view mode with flood := FinalMode.floodReplayed mode oldmode })
    (hn : view oldmode = view mode → line.modebuf = []) :
    line.Sound mode oldmode ↔ FinalMode.FloodCovered mode oldmode := by
  rw [← FinalMode.floodReplayed_eq_iff]
  constructor
  · rintro ⟨h, -⟩
    rw [hr] at h
    exact congrArg View.flood h
  · intro h
    have hv : replay line (view oldmode) = view mode := by
      rw [hr, h]
      rfl
    refine ⟨hv, fun he => ?_, hn⟩
    rw [← hv, replay, he]
    rfl

theorem Sjoin.sound_iff (mode oldmode : Mode) :
    (Sjoin.setFinalMode mode oldmode).Sound mode oldmode ↔
      FinalMode.FloodCovered mode oldmode := by
  refine ModeLine.sound_iff (FinalMode.replay_sjoin mode oldmode) fun h => ?_
  obtain ⟨hoff, hon⟩ :=
    FinalMode.off_on_eq_nil mode oldmode (FinalMode.changes_eq_nil mode oldmode h)
  rw [FinalMode.sjoin_modebuf, hoff, hon]
  rfl

theorem Join.sound_iff (mode oldmode : Mode) :
    (Join.setFinalMode mode oldmode).Sound mode oldmode ↔
      FinalMode.FloodCovered mode oldmode := by
  refine ModeLine.sound_iff (FinalMode.replay_join mode oldmode) fun h => ?_
  rw [Join.setFinalMode, FinalMode.changes_eq_nil mode oldmode h]
  rfl

end Unirc
