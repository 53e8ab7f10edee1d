import Unirc.SjoinHeader

/-!
# The modes of a channel burst

`send_channel_modes` sends a channel as SJOIN lines that repeat one header. The
receiver reads the header back with the mode loop of `ms_sjoin` and merges it
into its copy of the channel, which the first line creates.
-/

namespace Unirc

/-- A channel name that is sent to other servers. -/
def GlobalName := {s : Str // s.head? = some '#' ∧ checkChannelName false s false = true}

/-- The parameters of one SJOIN line of `send_members`. -/
def burstLine (channelts : ℤ) (chname : GlobalName) (m : Mode) (nicks : Str) : Str :=
  formatULong channelts ++ ' ' :: (chname.val ++ ' ' :: ((channelModes m true).1 ++
    ' ' :: ((channelModes m true).2 ++ ':' :: nicks)))

/-- What `ms_sjoin` does to the timestamp and the mode of a channel; `make_channel`
stamps a new one with the current time. -/
def receiveSjoin (ignoreBogusTs : Bool) (now : ℤ) (chan : Option (ℤ × Mode)) (line : Str) :
    Option (ℤ × Mode) :=
  match parseSjoin (stringToArray line) with
  | none => chan
  | some s =>
      let old := chan.getD (now, Mode.zero)
      let v := tsVerdict chan.isNone (checkBogusTs ignoreBogusTs s.newts old.1) old.1
      some (v.channelts, v.merge s.mode old.2)

/-- A server without the channel receives the lines of a burst. -/
def receiveBurst (ignoreBogusTs : Bool) (now : ℤ) (lines : List Str) : Option (ℤ × Mode) :=
  lines.foldl (receiveSjoin ignoreBogusTs now) none

def lettered : Finset SimpleMode := (flags.map Prod.fst).toFinset

/-- The values the SJOIN header can carry at all. -/
structure Mode.Sendable (m : Mode) : Prop where
  bits : m.mode ⊆ lettered
  key : ' ' ∉ m.key.val ∧ m.key.val.head? ≠ some ':'
  forward : ' ' ∉ m.forward.val ∧ m.forward.val.head? ≠ some ':'
  flood : (m.msgs = 0 ∧ m.per = 0) ∨ FloodAccepted m.msgs.toInt m.per.toInt

/-- At most one of the forward channel, the key and the flood pair is set. -/
def Mode.OneParam (m : Mode) : Prop :=
  (m.forward.val = [] ∧ m.key.val = []) ∨ (m.forward.val = [] ∧ m.msgs = 0) ∨
    (m.key.val = [] ∧ m.msgs = 0)

instance (m : Mode) : Decidable m.OneParam := by
  unfold Mode.OneParam
  infer_instance

/-- The modes that survive a burst. -/
def Mode.BurstSafe (m : Mode) : Prop := m.Sendable ∧ m.OneParam

namespace SjoinLoop

theorem advance_eq_some {m : Mode} {args : List Str} {l : SjoinLoop}
    (h : advance m args = some l) : l.mode = m ∧ l.args = args.tail ∧ args.headD [] ∈ args.dropLast ∧
      l.args.dropLast ⊆ args.dropLast := by
  unfold advance at h
  split at h
  · cases h
  · rename_i hne
    obtain rfl := Option.some.inj h
    refine ⟨rfl, rfl, ?_⟩
    cases args with
    | nil => exact absurd rfl hne
    | cons a as =>
        rw [List.tail_cons] at hne
        rw [List.dropLast_cons_of_ne_nil hne]
        exact ⟨List.mem_cons_self, List.subset_cons_self _ _⟩

theorem sendable_strlcpy {n : ℕ} {s : Str} (h : IsWord s) :
    ' ' ∉ (Buf.strlcpy s : Buf (n + 2)).val ∧
      (Buf.strlcpy s : Buf (n + 2)).val.head? ≠ some ':' := by
  refine ⟨fun hm => h.blank (List.mem_of_mem_take hm), ?_⟩
  obtain ⟨c, t, rfl, -, hc⟩ := h.exists_cons
  intro he
  exact hc (Option.some.inj he)

theorem mem_lettered_of_lookup {c : Char} {bit : SimpleMode}
    (h : sjoinFlags.lookup c = some bit) : bit ∈ lettered := by
  have hall : ∀ p ∈ sjoinFlags, p.2 ∈ lettered := by decide
  obtain ⟨l₁, l₂, hl, -⟩ := List.lookup_eq_some_iff.mp h
  exact hall (c, bit) (hl ▸ List.mem_append_right _ List.mem_cons_self)

theorem toInt_ofInt_of_floodAccepted {x : ℤ} (h₁ : 0 < x) (h₂ : x < 99) :
    (BitVec.ofInt 32 x).toInt = x := by
  rw [BitVec.toInt_ofInt]
  exact Int.bmod_eq_of_le (by omega) (by omega)

/-- One letter keeps the mode within what a header can carry. -/
theorem sendable_step {l l' : SjoinLoop} {c : Char} (h : l.step c = some l')
    (hm : l.mode.Sendable) (ha : ∀ a ∈ l.args.dropLast, IsWord a) :
    l'.mode.Sendable ∧ ∀ a ∈ l'.args.dropLast, IsWord a := by
  unfold step at h
  split at h
  · obtain ⟨hmode, -, hmem, hsub⟩ := advance_eq_some h
    rw [hmode]
    exact ⟨{ hm with forward := sendable_strlcpy (ha _ hmem) }, fun a h' => ha a (hsub h')⟩
  split at h
  · dsimp only at h
    split at h
    · obtain rfl := Option.some.inj h
      exact ⟨hm, ha⟩
    · obtain ⟨hmode, -, hmem, hsub⟩ := advance_eq_some h
      rw [hmode]
      refine ⟨?_, fun a h' => ha a (hsub h')⟩
      split
      · rename_i hacc
        refine { hm with flood := Or.inr ?_ }
        simp only [toInt_ofInt_of_floodAccepted (show (0 : ℤ) < _ by omega) hacc.1,
          toInt_ofInt_of_floodAccepted hacc.2.2.2 hacc.2.1]
        exact hacc
      · exact hm
  split at h
  · obtain ⟨hmode, -, hmem, hsub⟩ := advance_eq_some h
    rw [hmode]
    exact ⟨{ hm with key := sendable_strlcpy (ha _ hmem) }, fun a h' => ha a (hsub h')⟩
  split at h
  · obtain ⟨hmode, -, -, hsub⟩ := advance_eq_some h
    rw [hmode]
    exact ⟨{ hm with }, fun a h' => ha a (hsub h')⟩
  split at h
  · rename_i bit hbit
    obtain rfl := Option.some.inj h
    refine ⟨{ hm with bits := ?_ }, ha⟩
    exact Finset.insert_subset (mem_lettered_of_lookup hbit) hm.bits
  · obtain rfl := Option.some.inj h
    exact ⟨hm, ha⟩

theorem sendable_run {l l' : SjoinLoop} {letters : Str} (h : l.run letters = some l')
    (hm : l.mode.Sendable) (ha : ∀ a ∈ l.args.dropLast, IsWord a) : l'.mode.Sendable := by
  induction letters generalizing l with
  | nil =>
      obtain rfl := Option.some.inj h
      exact hm
  | cons c letters ih =>
      rw [run, List.foldlM_cons] at h
      obtain ⟨l₁, h₁, h₂⟩ := Option.bind_eq_some_iff.mp h
      obtain ⟨hm₁, ha₁⟩ := sendable_step h₁ hm ha
      exact ih h₂ hm₁ ha₁

end SjoinLoop

namespace Mode

theorem isWord_of_sendable {s : Str} (h : ' ' ∉ s ∧ s.head? ≠ some ':') (hne : s ≠ []) :
    IsWord s := ⟨hne, h.1, h.2⟩

theorem Sendable.zero : zero.Sendable :=
  ⟨Finset.empty_subset _, ⟨by simp [Mode.zero], by simp [Mode.zero]⟩,
    ⟨by simp [Mode.zero], by simp [Mode.zero]⟩, Or.inl ⟨rfl, rfl⟩⟩

theorem toInt_max_of_floodAccepted {x y : U32} (hx : 0 < x.toInt ∧ x.toInt < 99)
    (hy : 0 < y.toInt ∧ y.toInt < 99) : 0 < (max x y).toInt ∧ (max x y).toInt < 99 := by
  rcases max_choice x y with h | h
  · rwa [h]
  · rwa [h]

theorem Sendable.joinSame {m o : Mode} (hm : m.Sendable) (ho : o.Sendable) :
    (m.joinSame o).Sendable := by
  rw [joinSame_eq]
  refine ⟨Finset.union_subset hm.bits ho.bits, ?_, ?_, ?_⟩
  · rcases max_choice m.key o.key with h | h
    · simpa only [h] using hm.key
    · simpa only [h] using ho.key
  · rcases max_choice m.forward o.forward with h | h
    · simpa only [h] using hm.forward
    · simpa only [h] using ho.forward
  · rcases hm.flood with ⟨h₁, h₂⟩ | h
    · simpa only [h₁, h₂, max_eq_right (bitVec_zero_le _)] using ho.flood
    · rcases ho.flood with ⟨h₁, h₂⟩ | h'
      · simpa only [h₁, h₂, max_eq_left (bitVec_zero_le _)] using Or.inr h
      · have hmsgs := toInt_max_of_floodAccepted (x := m.msgs) (y := o.msgs) (by omega) (by omega)
        have hper := toInt_max_of_floodAccepted (x := m.per) (y := o.per) (by omega) (by omega)
        exact Or.inr ⟨hmsgs.2, hper.2, Int.add_one_le_of_lt hmsgs.1, hper.1⟩

end Mode

/-- The parameter printed last at `pbuf`: the later ones overwrite the earlier. -/
def lastParam (m : Mode) : List Str :=
  if m.msgs ≠ 0 ∧ m.per ≠ 0 then [formatFlood m.msgs m.per]
  else if m.key.val ≠ [] then [m.key.val]
  else if m.forward.val ≠ [] then [m.forward.val]
  else []

def limitParam (m : Mode) : List Str := if m.limit ≠ 0 then [formatInt m.limit] else []

theorem channelModes_params (m : Mode) :
    (channelModes m true).2 = (limitParam m ++ lastParam m).flatMap fun w => w ++ [' '] := by
  have hf : formatFlood m.msgs m.per ++ [' '] ≠ [] := by simp
  simp only [channelModes, limitParam, lastParam, and_true, List.flatMap_append, or_true]
  congr 1
  · split <;> simp
  · split
    · simp
    · split
      · simp
      · split <;> simp

theorem isWord_formatInt (x : U32) : IsWord (formatInt x) := by
  refine ⟨Decimal.print_ne_nil _, fun h => ?_, fun h => ?_⟩
  · rcases Decimal.isDigit_of_mem_print h with h | h
    · exact absurd h (by decide)
    · exact absurd h (by decide)
  · exact colon_not_mem_formatInt x (List.mem_of_head? h)

theorem isWord_formatFlood (x y : U32) : IsWord (formatFlood x y) := by
  have hx := isWord_formatInt x
  have hy := isWord_formatInt y
  refine ⟨by simp [formatFlood], ?_, ?_⟩
  · simp [formatFlood, hx.blank, hy.blank]
  · rw [formatFlood, List.head?_append_of_ne_nil _ hx.ne_nil]
    exact hx.colon

theorem isWord_formatULong (t : ℤ) : IsWord (formatULong t) := by
  have hd : ∀ c ∈ formatULong t, c.isDigit = true := fun c hc =>
    Nat.isDigit_of_mem_toDigits (by decide) (by decide) hc
  refine ⟨Nat.toDigits_ne_nil, fun h => absurd (hd _ h) (by decide), fun h => ?_⟩
  exact absurd (hd _ (List.mem_of_head? h)) (by decide)

theorem isWord_globalName (c : GlobalName) : IsWord c.val := by
  obtain ⟨s, hs, hc⟩ := c
  cases s with
  | nil => cases hs
  | cons a s =>
      obtain rfl : a = '#' := Option.some.inj hs
      refine ⟨List.cons_ne_nil _ _, ?_, by simp⟩
      intro h
      rcases List.mem_cons.mp h with h | h
      · exact absurd h (by decide)
      · simp only [checkChannelName, Bool.and_eq_true, Bool.not_false, Bool.true_or, if_true,
          List.all_eq_true] at hc
        exact absurd (hc.1.2 _ h) (by decide)

theorem isWord_modes (m : Mode) : IsWord (channelModes m true).1 := by
  have hl : ∀ f ∈ flags, f.2 ≠ ' ' := by decide
  have hn : ' ' ∉ letters flags m.mode := by
    intro h
    obtain ⟨b, -, hb⟩ := mem_letters.mp h
    exact hl _ hb rfl
  refine ⟨by simp [channelModes], ?_, by simp [channelModes]⟩
  simp only [channelModes, List.mem_append, List.mem_cons, hn]
  split_ifs <;> decide

theorem isWord_burstParams {m : Mode} (hm : m.Sendable) :
    ∀ w ∈ limitParam m ++ lastParam m, IsWord w := by
  intro w hw
  rcases List.mem_append.mp hw with h | h
  · unfold limitParam at h
    split at h
    · exact List.mem_singleton.mp h ▸ isWord_formatInt _
    · cases h
  · unfold lastParam at h
    split at h
    · exact List.mem_singleton.mp h ▸ isWord_formatFlood _ _
    split at h
    · rename_i hk
      exact List.mem_singleton.mp h ▸ Mode.isWord_of_sendable hm.key hk
    split at h
    · rename_i hf
      exact List.mem_singleton.mp h ▸ Mode.isWord_of_sendable hm.forward hf
    · cases h

theorem length_burstParams (m : Mode) : (limitParam m ++ lastParam m).length ≤ 2 := by
  rw [List.length_append, limitParam, lastParam]
  split_ifs <;> simp

/-- A sendable mode is tokenised as it was printed. -/
theorem stringToArray_burstLine {m : Mode} (hm : m.Sendable) (ts : ℤ) (chname : GlobalName)
    (nicks : Str) : stringToArray (burstLine ts chname m nicks) =
      formatULong ts :: chname.val :: (channelModes m true).1 ::
        (limitParam m ++ lastParam m ++ [nicks]) := by
  have hw : ∀ w ∈ limitParam m ++ lastParam m, IsWord w := isWord_burstParams hm
  have hlen := length_burstParams m
  obtain ⟨n, hn⟩ : ∃ n, 10 = n + 1 + (limitParam m ++ lastParam m).length :=
    ⟨9 - (limitParam m ++ lastParam m).length, by omega⟩
  rw [stringToArray, burstLine, splitArgs_word (isWord_formatULong ts),
    splitArgs_word (isWord_globalName chname), splitArgs_word (isWord_modes m), hn,
    channelModes_params, splitArgs_words hw, splitArgs_colon]

end Unirc
