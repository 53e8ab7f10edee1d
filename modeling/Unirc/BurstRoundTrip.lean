import Unirc.ChannelBurst

/-!
# The burst round trip

The header of a burst is read back as the sender's mode exactly when the mode is
sendable and sets at most one of the parameters that share `pbuf`.
-/

namespace Unirc

namespace SjoinLoop

theorem run_cons (l : SjoinLoop) (c : Char) (s : Str) :
    l.run (c :: s) = (l.step c).bind (·.run s) := List.foldlM_cons

@[simp] theorem run_nil (l : SjoinLoop) : l.run [] = some l := rfl

theorem advance_cons_cons (m : Mode) (a b : Str) (as : List Str) :
    advance m (a :: b :: as) = some ⟨m, b :: as⟩ := rfl

theorem step_simple {l : SjoinLoop} {f : SimpleMode × Char} (h : f ∈ flags) :
    l.step f.2 = some ⟨{ l.mode with mode := insert f.1 l.mode.mode }, l.args⟩ := by
  have hs : ∀ f ∈ flags, f.2 ≠ 'F' ∧ f.2 ≠ 'f' ∧ f.2 ≠ 'k' ∧ f.2 ≠ 'l' ∧
      sjoinFlags.lookup f.2 = some f.1 := by decide
  obtain ⟨h1, h2, h3, h4, h5⟩ := hs f h
  simp only [step, if_neg h1, if_neg h2, if_neg h3, if_neg h4, h5]

theorem run_simple {fs : List (SimpleMode × Char)} (h : ∀ f ∈ fs, f ∈ flags) (m : Mode)
    (args : List Str) : run ⟨m, args⟩ (fs.map Prod.snd) =
      some ⟨{ m with mode := (fs.map Prod.fst).toFinset ∪ m.mode }, args⟩ := by
  induction fs generalizing m with
  | nil => simp
  | cons f fs ih =>
      rw [List.map_cons, run_cons, step_simple (h f List.mem_cons_self)]
      change run ⟨{ m with mode := insert f.1 m.mode }, args⟩ (fs.map Prod.snd) = _
      rw [ih fun g hg => h g (List.mem_cons_of_mem _ hg)]
      simp only [List.map_cons, List.toFinset_cons, Finset.insert_union, Finset.union_insert]

theorem toFinset_fst_filter {bits : Finset SimpleMode} (h : bits ⊆ lettered) :
    ((flags.filter fun f => f.1 ∈ bits).map Prod.fst).toFinset = bits := by
  ext b
  simp only [List.mem_toFinset, List.mem_map, List.mem_filter, decide_eq_true_eq]
  constructor
  · rintro ⟨f, ⟨-, hb⟩, rfl⟩
    exact hb
  · intro hb
    obtain ⟨f, hf, rfl⟩ := List.mem_map.mp (List.mem_toFinset.mp (h hb))
    exact ⟨f, ⟨hf, hb⟩, rfl⟩

theorem run_letters {m : Mode} (h : m.mode ⊆ lettered) (args : List Str) :
    run ⟨Mode.zero, args⟩ ('+' :: letters flags m.mode) =
      some ⟨{ Mode.zero with mode := m.mode }, args⟩ := by
  have hplus : step ⟨Mode.zero, args⟩ '+' = some ⟨Mode.zero, args⟩ := rfl
  rw [run_cons, hplus]
  change run ⟨Mode.zero, args⟩ _ = _
  rw [letters, run_simple (fun f hf => List.mem_of_mem_filter hf), toFinset_fst_filter h]
  simp [Mode.zero]

theorem run_limit (m m₀ : Mode) (h₀ : m₀.limit = 0) (a : Str) (as : List Str) :
    run ⟨m₀, limitParam m ++ a :: as⟩ (if m.limit ≠ 0 then ['l'] else []) =
      some ⟨{ m₀ with limit := m.limit }, a :: as⟩ := by
  unfold limitParam
  split
  · rw [run_cons]
    simp only [List.cons_append, List.nil_append, step, List.headD_cons, advance_cons_cons]
    simp [formatInt, Decimal.ofInt_atoi_print]
  · rename_i h
    rw [not_not] at h
    rw [h, ← h₀]
    rfl

end SjoinLoop

/-- The letters that share the place at `pbuf`, in the order they are written. -/
def tailLetters (m : Mode) : Str :=
  (if m.forward.val ≠ [] then ['F'] else []) ++ (if m.key.val ≠ [] then ['k'] else []) ++
    (if m.msgs ≠ 0 ∧ m.per ≠ 0 then ['f'] else [])

namespace SjoinLoop

variable {m : Mode}

/-- Everything but the parameters that share `pbuf`. -/
def base (m : Mode) : Mode := { Mode.zero with mode := m.mode, limit := m.limit }

theorem run_modes (h : m.mode ⊆ lettered) (nicks : Str) :
    run ⟨Mode.zero, limitParam m ++ lastParam m ++ [nicks]⟩ (channelModes m true).1 =
      run ⟨base m, lastParam m ++ [nicks]⟩ (tailLetters m) := by
  obtain ⟨a, as, has⟩ := List.exists_cons_of_ne_nil
    (List.append_ne_nil_of_right_ne_nil (lastParam m) (List.cons_ne_nil nicks []))
  have hlet : (channelModes m true).1 = ('+' :: letters flags m.mode) ++
      ((if m.limit ≠ 0 then ['l'] else []) ++ tailLetters m) := by
    simp only [channelModes, tailLetters, List.append_assoc]
  rw [hlet, run_append, run_letters h, List.append_assoc, has]
  change run ⟨{ Mode.zero with mode := m.mode }, _⟩ _ = _
  rw [run_append, run_limit m _ rfl]
  rfl

theorem step_forward_cons (m₀ : Mode) (a b : Str) (bs : List Str) :
    step ⟨m₀, a :: b :: bs⟩ 'F' = some ⟨{ m₀ with forward := Buf.strlcpy a }, b :: bs⟩ := rfl

theorem step_key_cons (m₀ : Mode) (a b : Str) (bs : List Str) :
    step ⟨m₀, a :: b :: bs⟩ 'k' = some ⟨{ m₀ with key := Buf.strlcpy a }, b :: bs⟩ := rfl

theorem step_forward (m₀ : Mode) (b : Str) (bs : List Str) :
    step ⟨m₀, m.forward.val :: b :: bs⟩ 'F' = some ⟨{ m₀ with forward := m.forward }, b :: bs⟩ := by
  rw [step_forward_cons, Buf.strlcpy_val]

theorem step_key (m₀ : Mode) (b : Str) (bs : List Str) :
    step ⟨m₀, m.key.val :: b :: bs⟩ 'k' = some ⟨{ m₀ with key := m.key }, b :: bs⟩ := by
  rw [step_key_cons, Buf.strlcpy_val]

theorem step_flood (h : FloodAccepted m.msgs.toInt m.per.toInt) (m₀ : Mode) (b : Str)
    (bs : List Str) : step ⟨m₀, formatFlood m.msgs m.per :: b :: bs⟩ 'f' =
      some ⟨{ m₀ with msgs := m.msgs, per := m.per }, b :: bs⟩ := by
  simp [step, parseFlood_formatFlood, if_pos h, advance_cons_cons]

theorem step_forward_last (m₀ : Mode) (a : Str) : step ⟨m₀, [a]⟩ 'F' = none := rfl

theorem step_key_last (m₀ : Mode) (a : Str) : step ⟨m₀, [a]⟩ 'k' = none := rfl

/-- With no parameter left but the nicks, `f` changes nothing or gives up. -/
theorem step_flood_last {m₀ : Mode} {a : Str} {l : SjoinLoop} (h : step ⟨m₀, [a]⟩ 'f' = some l) :
    l = ⟨m₀, [a]⟩ := by
  simp only [step, List.headD_cons, if_neg (show 'f' ≠ 'F' by decide), if_true] at h
  split at h
  · exact (Option.some.inj h).symm
  · cases h

theorem msgs_ne_zero (h : FloodAccepted m.msgs.toInt m.per.toInt) : m.msgs ≠ 0 ∧ m.per ≠ 0 := by
  constructor
  · intro h0
    rw [h0] at h
    exact absurd h.2.2.1 (by decide)
  · intro h0
    rw [h0] at h
    exact absurd h.2.2.2 (by decide)

theorem eq_empty {n : ℕ} {b : Buf (n + 1)} (h : b.val = []) : Buf.empty = b := Subtype.ext h.symm

theorem run_tail_of_oneParam (hm : m.Sendable) (hone : m.OneParam) (nicks : Str) :
    run ⟨base m, lastParam m ++ [nicks]⟩ (tailLetters m) = some ⟨m, [nicks]⟩ := by
  rcases hm.flood with ⟨hmsgs, hper⟩ | hacc
  · by_cases hk : m.key.val = []
    · by_cases hf : m.forward.val = []
      · simp only [lastParam, tailLetters, hmsgs, hk, hf, ne_eq, not_true_eq_false, false_and,
          if_false, List.nil_append, run_nil, base, Mode.zero, eq_empty hk, eq_empty hf]
        rw [← hmsgs]
        nth_rewrite 2 [hmsgs]
        rw [← hper]
      · simp only [lastParam, tailLetters, hmsgs, hk, hf, ne_eq, not_true_eq_false,
          not_false_eq_true, false_and, if_false, if_true, List.append_nil, run_cons,
          List.cons_append, List.nil_append, step_forward, Option.bind_some, run_nil, base,
          Mode.zero, eq_empty hk]
        rw [← hmsgs]
        nth_rewrite 2 [hmsgs]
        rw [← hper]
    · have hf : m.forward.val = [] := by
        rcases hone with h | h | h
        · exact h.1
        · exact h.1
        · exact absurd h.1 hk
      simp only [lastParam, tailLetters, hmsgs, hk, hf, ne_eq, not_true_eq_false,
        not_false_eq_true, false_and, if_false, if_true, List.append_nil, run_cons,
        List.cons_append, List.nil_append, step_key, Option.bind_some, run_nil, base,
        Mode.zero, eq_empty hf]
      rw [← hmsgs]
      nth_rewrite 2 [hmsgs]
      rw [← hper]
  · have hne := msgs_ne_zero hacc
    obtain ⟨hf, hk⟩ : m.forward.val = [] ∧ m.key.val = [] := by
      rcases hone with h | h | h
      · exact h
      · exact absurd h.2 hne.1
      · exact absurd h.2 hne.1
    simp only [lastParam, tailLetters, hne, hk, hf, ne_eq, not_true_eq_false, not_false_eq_true,
      and_self, if_false, if_true, List.nil_append, List.cons_append, run_cons,
      step_flood hacc, Option.bind_some, run_nil, base, Mode.zero, eq_empty hk, eq_empty hf]

/-- With two parameters at `pbuf` the letters outrun the parameters. -/
theorem run_tail_of_not_oneParam (hm : m.Sendable) (hone : ¬ m.OneParam) {nicks : Str}
    {l : SjoinLoop}
    (h : run ⟨base m, lastParam m ++ [nicks]⟩ (tailLetters m) = some l) :
    l.mode.msgs = 0 ∧ m.msgs ≠ 0 := by
  rcases hm.flood with ⟨hmsgs, hper⟩ | hacc
  · have hf : m.forward.val ≠ [] := fun hf => hone (Or.inr (Or.inl ⟨hf, hmsgs⟩))
    have hk : m.key.val ≠ [] := fun hk => hone (Or.inr (Or.inr ⟨hk, hmsgs⟩))
    simp only [lastParam, tailLetters, hmsgs, hk, hf, ne_eq, not_true_eq_false,
      not_false_eq_true, false_and, if_false, if_true, List.append_nil, run_cons,
      List.cons_append, List.nil_append, step_forward_cons, step_key_last, Option.bind_some,
      Option.bind_none] at h
    cases h
  · have hne := msgs_ne_zero hacc
    refine ⟨?_, hne.1⟩
    by_cases hf : m.forward.val = []
    · have hk : m.key.val ≠ [] := fun hk => hone (Or.inl ⟨hf, hk⟩)
      simp only [lastParam, tailLetters, hne, hk, hf, ne_eq, not_true_eq_false,
        not_false_eq_true, and_self, if_false, if_true, run_cons, List.cons_append,
        List.nil_append, step_key_cons, Option.bind_some] at h
      obtain ⟨l₁, h₁, h₂⟩ := Option.bind_eq_some_iff.mp h
      obtain rfl := step_flood_last h₁
      obtain rfl := Option.some.inj h₂
      rfl
    · by_cases hk : m.key.val = []
      · simp only [lastParam, tailLetters, hne, hk, hf, ne_eq, not_true_eq_false,
          not_false_eq_true, and_self, if_false, if_true, run_cons, List.cons_append,
          List.nil_append, step_forward_cons, Option.bind_some] at h
        obtain ⟨l₁, h₁, h₂⟩ := Option.bind_eq_some_iff.mp h
        obtain rfl := step_flood_last h₁
        obtain rfl := Option.some.inj h₂
        rfl
      · simp only [lastParam, tailLetters, hne, hk, hf, ne_eq, not_false_eq_true, and_self,
          if_true, run_cons, List.cons_append, List.nil_append, step_forward_cons,
          step_key_last, Option.bind_some, Option.bind_none] at h
        cases h

end SjoinLoop

variable {m : Mode} {ts : ℤ} {chname : GlobalName} {nicks : Str}

theorem parseSjoin_cons {tsText modeText : Str} {args : List Str} (hargs : args ≠ []) :
    parseSjoin (tsText :: chname.val :: modeText :: args) =
      (SjoinLoop.run ⟨Mode.zero, args⟩ modeText).map fun l =>
        ⟨Decimal.atol tsText, chname.val, l.mode, modeText, l.args.headD []⟩ := by
  obtain ⟨a, as, rfl⟩ := List.exists_cons_of_ne_nil hargs
  rw [parseSjoin, if_neg (not_not.mpr chname.property.1), if_neg (by simp [chname.property.2])]
  cases SjoinLoop.run ⟨Mode.zero, a :: as⟩ modeText <;> rfl

/-- A sendable mode with one parameter at `pbuf` is read back unchanged. -/
theorem parseSjoin_burstLine (h : m.BurstSafe) :
    parseSjoin (stringToArray (burstLine ts chname m nicks)) =
      some ⟨Decimal.atol (formatULong ts), chname.val, m, (channelModes m true).1, nicks⟩ := by
  rw [stringToArray_burstLine h.1, parseSjoin_cons (by simp), SjoinLoop.run_modes h.1.bits,
    SjoinLoop.run_tail_of_oneParam h.1 h.2]
  rfl

theorem parseSjoin_sendable {line : Str} {s : SjoinHeader}
    (h : parseSjoin (stringToArray line) = some s) : s.mode.Sendable := by
  unfold parseSjoin at h
  split at h
  · rename_i ts' chname' modeText arg args heq
    split at h
    · cases h
    split at h
    · cases h
    cases hr : SjoinLoop.run ⟨Mode.zero, arg :: args⟩ modeText with
    | none => rw [hr] at h; cases h
    | some l =>
        rw [hr] at h
        obtain rfl := Option.some.inj h
        refine SjoinLoop.sendable_run hr Mode.Sendable.zero fun a ha => ?_
        apply isWord_of_mem_dropLast (n := 13) (p := line)
        change a ∈ (stringToArray line).dropLast
        rw [heq]
        simp only [List.dropLast_cons_of_ne_nil (List.cons_ne_nil _ _), List.mem_cons]
        exact Or.inr (Or.inr (Or.inr ha))
  · cases h

/-- Otherwise the flood pair is lost, or the line is not accepted. -/
theorem parseSjoin_burstLine_lossy (hm : m.Sendable) (hone : ¬ m.OneParam) {s : SjoinHeader}
    (h : parseSjoin (stringToArray (burstLine ts chname m nicks)) = some s) :
    s.mode.msgs = 0 ∧ m.msgs ≠ 0 := by
  rw [stringToArray_burstLine hm, parseSjoin_cons (by simp), SjoinLoop.run_modes hm.bits] at h
  obtain ⟨l, hl, rfl⟩ := Option.map_eq_some_iff.mp h
  exact SjoinLoop.run_tail_of_not_oneParam hm hone hl

/-- A property that every line has and that merging keeps holds after a burst. -/
theorem receiveBurst_of_forall {P : Mode → Prop} {ig : Bool} {now : ℤ} {lines : List Str}
    (hparse : ∀ line ∈ lines, ∀ s, parseSjoin (stringToArray line) = some s → P s.mode)
    (hjoin : ∀ a b, P a → P b → P (a.joinSame b)) {chan : Option (ℤ × Mode)}
    (hchan : ∀ c ∈ chan, P c.2) {c : ℤ × Mode}
    (h : lines.foldl (receiveSjoin ig now) chan = some c) : P c.2 := by
  induction lines generalizing chan with
  | nil => exact hchan c h
  | cons line lines ih =>
      refine ih (fun l hl => hparse l (List.mem_cons_of_mem _ hl)) (fun d hd => ?_) h
      unfold receiveSjoin at hd
      split at hd
      · exact hchan d hd
      · rename_i s hs
        have hps := hparse line List.mem_cons_self s hs
        obtain rfl := Option.some.inj hd
        cases chan with
        | none => simpa [tsVerdict, TsVerdict.merge, Mode.joinSame_zero] using hps
        | some old =>
            have hold := hchan old rfl
            dsimp only [TsVerdict.merge, Option.getD_some]
            split
            · exact hold
            split
            · exact hjoin _ _ hps hold
            · exact hps

/-- Lines with the sender's mode leave it in place whatever the timestamps. -/
theorem receiveBurst_safe (h : m.BurstSafe) (ig : Bool) (now : ℤ) (first : Str) (more : List Str) :
    (receiveBurst ig now ((first :: more).map (burstLine ts chname m))).map Prod.snd = some m := by
  have hstep : ∀ (nicks : Str) (chan : Option (ℤ × Mode)), (∀ c ∈ chan, c.2 = m) →
      ∃ t, receiveSjoin ig now chan (burstLine ts chname m nicks) = some (t, m) := by
    intro nicks chan hchan
    rw [receiveSjoin, parseSjoin_burstLine h]
    refine ⟨_, congrArg some (Prod.ext rfl ?_)⟩
    cases chan with
    | none => simp [tsVerdict, TsVerdict.merge, Mode.joinSame_zero]
    | some old =>
        have hold : old.2 = m := hchan old rfl
        simp [TsVerdict.merge, hold, Mode.joinSame_self]
  have hrun : ∀ (nicks : List Str) (t : ℤ),
      ∃ t', (nicks.map (burstLine ts chname m)).foldl (receiveSjoin ig now) (some (t, m)) =
        some (t', m) := by
    intro nicks
    induction nicks with
    | nil => exact fun t => ⟨t, rfl⟩
    | cons n nicks ih =>
        intro t
        obtain ⟨t₁, h₁⟩ := hstep n (some (t, m)) (fun c hc => Option.some.inj hc ▸ rfl)
        rw [List.map_cons, List.foldl_cons, h₁]
        exact ih t₁
  obtain ⟨t₁, h₁⟩ := hstep first none (fun c hc => by cases hc)
  obtain ⟨t', h'⟩ := hrun more t₁
  rw [receiveBurst, List.map_cons, List.foldl_cons, h₁, h']
  rfl

end Unirc
