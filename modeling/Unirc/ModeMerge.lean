import Mathlib.Data.Finset.Lattice.Basic
import Unirc.ChannelMode
import Unirc.StampedJoin

/-!
# Merging modes under a timestamp

The comparison of timestamps and the merge of modes that `ms_sjoin` and `ms_join`
share. On nonzero timestamps the pair of `channelts` and `mode` is merged as a
stamped value.
-/

namespace Unirc

namespace Mode

/-- Equal timestamps: the bits are added and each parameter keeps the greater
value, texts in the order of `strcmp`. -/
def joinSame (mode oldmode : Mode) : Mode where
  mode := mode.mode ∪ oldmode.mode
  limit := if mode.limit < oldmode.limit then oldmode.limit else mode.limit
  key := if mode.key < oldmode.key then oldmode.key else mode.key
  forward := if mode.forward < oldmode.forward then oldmode.forward else mode.forward
  msgs := if mode.msgs < oldmode.msgs then oldmode.msgs else mode.msgs
  per := if mode.per < oldmode.per then oldmode.per else mode.per

theorem ite_lt_eq_max {α : Type*} [LinearOrder α] (a b : α) [Decidable (a < b)] :
    (if a < b then b else a) = max a b := by
  split
  · rename_i h
    exact (max_eq_right h.le).symm
  · rename_i h
    exact (max_eq_left (not_lt.mp h)).symm

theorem joinSame_eq (m o : Mode) : joinSame m o = ⟨m.mode ∪ o.mode, max m.limit o.limit,
    max m.key o.key, max m.forward o.forward, max m.msgs o.msgs, max m.per o.per⟩ := by
  simp only [joinSame, ite_lt_eq_max]

theorem joinSame_comm (m o : Mode) : joinSame m o = joinSame o m := by
  rw [joinSame_eq, joinSame_eq, Finset.union_comm, max_comm m.limit, max_comm m.key,
    max_comm m.forward, max_comm m.msgs, max_comm m.per]

theorem joinSame_assoc (m o q : Mode) :
    joinSame (joinSame m o) q = joinSame m (joinSame o q) := by
  simp only [joinSame_eq, Finset.union_assoc, max_assoc]

theorem joinSame_self (m : Mode) : joinSame m m = m := by
  simp only [joinSame_eq, Finset.union_self, max_self]

instance : SemilatticeSup Mode :=
  letI : Max Mode := ⟨joinSame⟩
  SemilatticeSup.mk' joinSame_comm joinSame_assoc joinSame_self

theorem sup_def (m o : Mode) : m ⊔ o = joinSame m o := rfl

theorem empty_le {n : ℕ} (b : Buf (n + 1)) : Buf.empty ≤ b := by
  rw [← not_lt]
  exact List.not_lt_nil b.val

theorem joinSame_zero (m : Mode) : joinSame m zero = m := by
  simp only [joinSame_eq, zero, Finset.union_empty, max_eq_left (bitVec_zero_le _),
    max_eq_left (empty_le _)]

end Mode

/-- What the comparison of timestamps decides. -/
structure TsVerdict where
  channelts : ℤ
  tstosend : ℤ
  keepOurModes : Bool
  keepNewModes : Bool
  deriving DecidableEq

/-- With `ignore_bogus_ts`, timestamps before 800000000 are not believed. -/
def checkBogusTs (ignoreBogusTs : Bool) (newts oldts : ℤ) : ℤ :=
  if ignoreBogusTs ∧ newts < 800000000 then (if oldts = 0 then 0 else 800000000) else newts

def tsVerdict (isnew : Bool) (newts oldts : ℤ) : TsVerdict :=
  if isnew then ⟨newts, newts, true, true⟩
  else if newts = 0 ∨ oldts = 0 then ⟨0, 0, true, true⟩
  else if newts = oldts then ⟨oldts, oldts, true, true⟩
  else if newts < oldts then ⟨newts, newts, false, true⟩
  else ⟨oldts, oldts, true, false⟩

def TsVerdict.merge (v : TsVerdict) (mode oldmode : Mode) : Mode :=
  if v.keepNewModes = false then oldmode
  else if v.keepOurModes then mode.joinSame oldmode
  else mode

/-- Nonzero timestamps of an existing channel are merged as stamped values. -/
theorem tsVerdict_merge {newts oldts : ℤ} (hn : newts ≠ 0) (ho : oldts ≠ 0)
    (mode oldmode : Mode) :
    (⟨(tsVerdict false newts oldts).channelts,
      (tsVerdict false newts oldts).merge mode oldmode⟩ : Stamped ℤ Mode) =
      ⟨oldts, oldmode⟩ ⊔ ⟨newts, mode⟩ := by
  rw [Stamped.sup_def, tsVerdict, if_neg (by simp), if_neg (not_or.mpr ⟨hn, ho⟩)]
  rcases lt_trichotomy newts oldts with h | h | h
  · rw [if_neg h.ne, if_pos h, Stamped.merge_of_gt h]
    rfl
  · rw [if_pos h, Stamped.merge_of_eq h.symm, Mode.sup_def, Mode.joinSame_comm]
    rfl
  · rw [if_neg h.ne', if_neg h.not_gt, Stamped.merge_of_lt h]
    rfl

end Unirc
