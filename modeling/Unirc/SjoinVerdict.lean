import Unirc.SjoinLines

/-!
# The verdict of the next server

A server that gets a relayed SJOIN compares the timestamp it is sent with the one its neighbour
had, and merges the modes it reads into the modes its neighbour had. It comes to the same result.
-/

namespace Unirc

/-- Whether the next server may take a timestamp for bogus that was sent to it. -/
def StampCarried (ignores ignores' : Bool) (ts : ℤ) : Prop :=
  (0 ≤ ts ∧ ts < 2 ^ 63) ∧ (ignores' = true → ignores = true ∨ 800000000 ≤ ts)

section Verdict

variable {ignores ignores' isnew : Bool} {newts oldts oldts' : ℤ}

/-- What the comparison with an existing channel comes to. -/
theorem tsVerdict_old (newts oldts : ℤ) :
    ((newts = 0 ∨ oldts = 0) ∧ tsVerdict false newts oldts = ⟨0, 0, true, true⟩) ∨
    (oldts ≠ 0 ∧ newts = oldts ∧ tsVerdict false newts oldts = ⟨oldts, oldts, true, true⟩) ∨
    (newts ≠ 0 ∧ oldts ≠ 0 ∧ newts < oldts ∧
      tsVerdict false newts oldts = ⟨newts, newts, false, true⟩) ∨
    (oldts ≠ 0 ∧ oldts < newts ∧ tsVerdict false newts oldts = ⟨oldts, oldts, true, false⟩) := by
  by_cases hzero : newts = 0 ∨ oldts = 0
  · refine Or.inl ⟨hzero, ?_⟩
    rw [tsVerdict, if_neg (by simp), if_pos hzero]
  · obtain ⟨hn, ho⟩ := not_or.mp hzero
    rw [tsVerdict, if_neg (by simp), if_neg hzero]
    rcases lt_trichotomy newts oldts with h | h | h
    · exact Or.inr (Or.inr (Or.inl ⟨hn, ho, h, by rw [if_neg h.ne, if_pos h]⟩))
    · exact Or.inr (Or.inl ⟨ho, h, by rw [if_pos h]⟩)
    · exact Or.inr (Or.inr (Or.inr ⟨ho, h, by rw [if_neg h.ne', if_neg h.not_gt]⟩))

theorem checkBogusTs_of_le {ts : ℤ} (h : ignores = true → 800000000 ≤ ts) (oldts : ℤ) :
    checkBogusTs ignores ts oldts = ts := by
  rw [checkBogusTs, if_neg]
  rintro ⟨hignores, hlt⟩
  have := h hignores
  omega

theorem checkBogusTs_of_lt {ts : ℤ} (h : ts < 800000000) (ho : oldts ≠ 0) :
    checkBogusTs true ts oldts = 800000000 := by
  rw [checkBogusTs, if_pos ⟨rfl, h⟩, if_neg ho]

theorem checkBogusTs_zero (ignores : Bool) : checkBogusTs ignores 0 0 = 0 := by
  rw [checkBogusTs, if_pos rfl]
  split <;> rfl

theorem le_checkBogusTs (newts : ℤ) (ho : oldts ≠ 0) :
    800000000 ≤ checkBogusTs true newts oldts := by
  rw [checkBogusTs, if_neg ho]
  split
  · exact le_rfl
  · rename_i h
    by_contra hlt
    exact h ⟨rfl, by omega⟩

/-- The timestamp that was kept is told again. -/
theorem tsVerdict_again (newts oldts : ℤ) :
    ∃ tosend, tsVerdict false (tsVerdict false newts oldts).tstosend oldts =
      ⟨(tsVerdict false newts oldts).channelts, tosend, (tsVerdict false newts oldts).keepOurModes,
        true⟩ := by
  rcases tsVerdict_old newts oldts with
    ⟨-, hv⟩ | ⟨ho, -, hv⟩ | ⟨hn, ho, hlt, hv⟩ | ⟨ho, -, hv⟩ <;> rw [hv]
  · exact ⟨0, rfl⟩
  · exact ⟨oldts, by simp [tsVerdict, ho]⟩
  · exact ⟨newts, hv⟩
  · exact ⟨oldts, by simp [tsVerdict, ho]⟩

/-- The first line decides on the next server what it decided here. -/
theorem tsVerdict_first {v : TsVerdict}
    (hv : tsVerdict isnew (checkBogusTs ignores newts oldts) oldts = v)
    (hclock : isnew = true → oldts ≠ 0) (hold : isnew = false → oldts' = oldts)
    (hstamp : StampCarried ignores ignores' v.tstosend) :
    ∃ tosend keep, tsVerdict isnew (checkBogusTs ignores' v.tstosend oldts') oldts' =
      ⟨v.channelts, tosend, v.keepOurModes, keep⟩ ∧ (v.keepNewModes = true → keep = true) := by
  cases isnew with
  | true =>
      have hn : v.tstosend = checkBogusTs ignores newts oldts := by rw [← hv]; rfl
      have hsame : checkBogusTs ignores' v.tstosend oldts' = v.tstosend := by
        refine checkBogusTs_of_le (fun hignores' => ?_) oldts'
        rcases hstamp.2 hignores' with hignores | hle
        · rw [hn, hignores]
          exact le_checkBogusTs newts (hclock rfl)
        · exact hle
      refine ⟨v.tstosend, true, ?_, fun _ => rfl⟩
      rw [hsame, ← hv]
      rfl
  | false =>
      obtain rfl := hold rfl
      by_cases hbogus : ignores' = true ∧ v.tstosend < 800000000
      · obtain ⟨rfl, hlt⟩ := hbogus
        obtain rfl : ignores = true := (hstamp.2 rfl).resolve_right (by omega)
        by_cases ho : oldts' = 0
        · subst ho
          have hzero : v = ⟨0, 0, true, true⟩ := by
            rw [← hv, tsVerdict, if_neg (by simp), if_pos (Or.inr rfl)]
          subst hzero
          rw [checkBogusTs_zero]
          exact ⟨0, true, rfl, fun _ => rfl⟩
        · have hle := le_checkBogusTs newts ho
          rw [checkBogusTs_of_lt hlt ho]
          rcases tsVerdict_old (checkBogusTs true newts oldts') oldts' with
            ⟨hz, -⟩ | ⟨-, heq, hv'⟩ | ⟨-, -, -, hv'⟩ | ⟨-, -, hv'⟩
          · rcases hz with hz | hz
            · omega
            · exact absurd hz ho
          all_goals
            obtain rfl := hv'.symm.trans hv
            dsimp only at hlt
          · omega
          · omega
          · refine ⟨oldts', false, ?_, fun h => h⟩
            rw [tsVerdict, if_neg (by simp), if_neg (by omega), if_neg (by omega),
              if_neg (by omega)]
      · have hsame : checkBogusTs ignores' v.tstosend oldts' = v.tstosend := by
          refine checkBogusTs_of_le (fun hignores' => ?_) oldts'
          by_contra hlt
          exact hbogus ⟨hignores', by omega⟩
        obtain ⟨tosend, hagain⟩ := tsVerdict_again (checkBogusTs ignores newts oldts') oldts'
        rw [hv] at hagain
        exact ⟨tosend, true, hsame.symm ▸ hagain, fun _ => rfl⟩

end Verdict

section Header

/-- An SJOIN sets no bits without a letter. -/
theorem SjoinLoop.bits_run {l l' : SjoinLoop} {text : Str} (h : l.run text = some l')
    (hl : l.mode.mode ⊆ lettered) : l'.mode.mode ⊆ lettered := by
  induction text generalizing l with
  | nil =>
      obtain rfl := Option.some.inj h
      exact hl
  | cons c text ih =>
      rw [run_cons] at h
      obtain ⟨l₁, h₁, h₂⟩ := Option.bind_eq_some_iff.mp h
      refine ih h₂ ?_
      unfold step at h₁
      split_ifs at h₁
      · exact (advance_eq_some h₁).1 ▸ hl
      · dsimp only at h₁
        split at h₁
        · exact Option.some.inj h₁ ▸ hl
        · rw [(advance_eq_some h₁).1]
          split <;> exact hl
      · exact (advance_eq_some h₁).1 ▸ hl
      · exact (advance_eq_some h₁).1 ▸ hl
      · split at h₁
        · rename_i bit hbit
          obtain rfl := Option.some.inj h₁
          exact Finset.insert_subset (mem_lettered_of_lookup hbit) hl
        · exact Option.some.inj h₁ ▸ hl

theorem bits_parseSjoin {parv : List Str} {hd : SjoinHeader} (h : parseSjoin parv = some hd) :
    hd.mode.mode ⊆ lettered := by
  unfold parseSjoin at h
  split at h
  · split at h
    · cases h
    split at h
    · cases h
    split at h
    · cases h
    · rename_i l hl
      obtain rfl := Option.some.inj h
      exact SjoinLoop.bits_run hl (Finset.empty_subset _)
  · cases h

/-- With nothing to set and no key or forward channel to take off there are no parameters. -/
theorem params_setFinalMode {mode oldmode : Mode} (h : mode = oldmode ∨
    (mode = Mode.zero ∧ oldmode.key.val = [] ∧ oldmode.forward.val = [])) :
    (Sjoin.setFinalMode mode oldmode).params = [] := by
  have hflags : params (FinalMode.flagsOff mode oldmode) = [] := params_letters _ _
  have hflags' : params (FinalMode.flagsOn mode oldmode) = [] := params_letters _ _
  have hlimit : params (FinalMode.limitOff mode oldmode) = [] := by
    unfold FinalMode.limitOff
    split <;> rfl
  have hflood : params (FinalMode.floodOff mode oldmode) = [] := by
    unfold FinalMode.floodOff
    split <;> rfl
  have hflood' : FinalMode.floodOn mode oldmode = [] := by
    refine if_neg fun hon => ?_
    rcases h with rfl | ⟨rfl, -⟩
    · exact hon.1.1.2 rfl
    · exact hon.1.1.1 rfl
  simp only [Sjoin.setFinalMode, Sjoin.off, Sjoin.on, params_append, hflags, hflags', hlimit,
    hflood, hflood']
  rcases h with rfl | ⟨rfl, hkey, hforward⟩ <;>
    simp [FinalMode.keyOff, FinalMode.forwardOff, FinalMode.limitOn, FinalMode.keyOn,
      FinalMode.forwardOn, params, Mode.zero, *]

section Merge

variable {v : TsVerdict}

theorem TsVerdict.merge_both (hn : v.keepNewModes = true) (ho : v.keepOurModes = true)
    (mode oldmode : Mode) : v.merge mode oldmode = mode.joinSame oldmode := by
  rw [TsVerdict.merge, hn, ho]
  rfl

theorem TsVerdict.merge_new (hn : v.keepNewModes = true) (ho : v.keepOurModes = false)
    (mode oldmode : Mode) : v.merge mode oldmode = mode := by
  rw [TsVerdict.merge, hn, ho]
  rfl

theorem TsVerdict.merge_old (hn : v.keepNewModes = false) (mode oldmode : Mode) :
    v.merge mode oldmode = oldmode := if_pos hn

end Merge

namespace Mode

theorem zero_joinSame (m : Mode) : Mode.zero.joinSame m = m := by
  rw [joinSame_comm, joinSame_zero]

/-- Merging a second time changes nothing, nor do the bits without letters matter. -/
theorem shown_joinSame {m o : Mode} (h : m.mode ⊆ lettered) :
    (m.joinSame o).shown.joinSame o = m.joinSame o := by
  have hbits : (m.mode ∪ o.mode) ∩ lettered ∪ o.mode = m.mode ∪ o.mode := by
    rw [Finset.union_inter_distrib_right, Finset.inter_eq_left.mpr h, Finset.union_assoc,
      Finset.union_eq_right.mpr Finset.inter_subset_left]
  rw [joinSame_eq (m.joinSame o).shown, joinSame_eq m]
  simp only [shown, hbits, max_assoc, max_self]

theorem shown_eq {m : Mode} (h : m.mode ⊆ lettered) : m.shown = m := by
  simp only [shown, Finset.inter_eq_left.mpr h]

end Mode

/-- The header of the relay can say what was merged: behind a leading `0` there are no modes, and
not a key or a forward channel to be taken off; otherwise the modes are sendable with one
parameter behind the limit. -/
def HeaderCarried (hd : SjoinHeader) (v : TsVerdict) (oldmode : Mode) : Prop :=
  v.keepNewModes = true →
    if hd.modeText.head? = some '0' then v.merge hd.mode oldmode = v.merge Mode.zero oldmode ∧
      (v.keepOurModes = false → oldmode.key.val = [] ∧ oldmode.forward.val = [])
    else (v.merge hd.mode oldmode).shown.BurstSafe

theorem sjoinRelayModes_zero {hd : SjoinHeader} {v : TsVerdict} {mode oldmode : Mode}
    (hnot : ¬ (hd.modeText.head? ≠ some '0' ∧ v.keepNewModes = true))
    (h : mode = oldmode ∨ (mode = Mode.zero ∧ oldmode.key.val = [] ∧ oldmode.forward.val = [])) :
    sjoinRelayModes hd v mode oldmode = (['0'], []) := by
  rw [sjoinRelayModes, if_neg hnot, params_setFinalMode h]
  rfl

/-- The next server reads modes that it merges to what was merged here. -/
theorem exists_headerRead {hd : SjoinHeader} {v : TsVerdict} {oldmode : Mode}
    (hbits : hd.mode.mode ⊆ lettered) (hv : v.keepNewModes = false → v.keepOurModes = true)
    (h : HeaderCarried hd v oldmode) :
    ∃ m, HeaderRead (sjoinRelayModes hd v (v.merge hd.mode oldmode) oldmode) m ∧
      ∀ w : TsVerdict, w.keepOurModes = v.keepOurModes →
        (v.keepNewModes = true → w.keepNewModes = true) →
          w.merge m oldmode = v.merge hd.mode oldmode := by
  cases hnew : v.keepNewModes with
  | true =>
      have hcarried := h hnew
      by_cases hzero : hd.modeText.head? = some '0'
      · rw [if_pos hzero] at hcarried
        obtain ⟨hmode, hparams⟩ := hcarried
        refine ⟨Mode.zero, ?_, fun w hw hw' => ?_⟩
        · rw [sjoinRelayModes_zero (fun hand => hand.1 hzero)]
          · exact headerRead_zero
          · rw [hmode]
            cases hkeep : v.keepOurModes with
            | true => exact Or.inl (by rw [v.merge_both hnew hkeep, Mode.zero_joinSame])
            | false => exact Or.inr ⟨v.merge_new hnew hkeep _ _, hparams hkeep⟩
        · rw [hmode, TsVerdict.merge, TsVerdict.merge, hw, hw' rfl, hnew]
      · rw [if_neg hzero] at hcarried
        have hread := headerRead_channelModes hcarried
        rw [channelModes_shown] at hread
        rw [sjoinRelayModes, if_pos ⟨hzero, hnew⟩]
        refine ⟨_, hread, fun w hw hw' => ?_⟩
        cases hkeep : v.keepOurModes with
        | true =>
            rw [w.merge_both (hw' rfl) (hw.trans hkeep), v.merge_both hnew hkeep]
            exact Mode.shown_joinSame hbits
        | false =>
            rw [w.merge_new (hw' rfl) (hw.trans hkeep), v.merge_new hnew hkeep]
            exact Mode.shown_eq hbits
  | false =>
      rw [v.merge_old hnew, sjoinRelayModes_zero (by simp [hnew]) (Or.inl rfl)]
      refine ⟨Mode.zero, headerRead_zero, fun w hw _ => ?_⟩
      cases hw' : w.keepNewModes with
      | true => rw [w.merge_both hw' (hw.trans (hv hnew)), Mode.zero_joinSame]
      | false => exact w.merge_old hw' _ _

theorem atol_formatULong {ts : ℤ} (h : 0 ≤ ts ∧ ts < 2 ^ 63) :
    Decimal.atol (formatULong ts) = ts := by
  obtain ⟨n, rfl⟩ := Int.eq_ofNat_of_zero_le h.1
  have hprint : formatULong (n : ℤ) = Decimal.print n := by
    rw [formatULong, Int.emod_eq_of_lt h.1 (h.2.trans (by decide))]
    rfl
  have hread := Decimal.atol_print_append n (by omega) h.2 Decimal.stops_nil
  rwa [List.append_nil, ← hprint] at hread

/-- The parameters of a relayed SJOIN. -/
def relayedParams (ts : ℤ) (name : GlobalName) (modes : Str × Str) (nicks : Str) : List Str :=
  stringToArray (formatULong ts ++ ' ' :: (name.val ++ ' ' :: (modes.1 ++ ' ' ::
    (modes.2 ++ ':' :: nicks))))

end Header

end Unirc
