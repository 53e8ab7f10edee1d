import Mathlib.Data.List.Nodup
import Mathlib.Tactic.Common
import Unirc.Rehash

/-!
# What a rehash keeps

Clearing takes items out of every list, chain and table at once: what is left of each is what was
there without them, in the same order. The temporary bans stay but for the reservations, all of which
are taken out.
-/

namespace Unirc

theorem hashText_lt (s : Str) : hashText s < ATABLE_SIZE := by
  rw [hashText, BitVec.toNat_and]
  exact Nat.lt_succ_of_le Nat.and_le_right

theorem maskHashLoop_lt (rev hp tail : Str) : maskHashLoop rev hp tail < ATABLE_SIZE := by
  induction rev generalizing hp tail with
  | nil => exact hashText_lt tail
  | cons c rev ih =>
      rw [maskHashLoop]
      split
      · exact hashText_lt hp
      · split
        · exact ih tail (c :: tail)
        · exact ih hp (c :: tail)

theorem RecMask.hash_lt (m : RecMask) : m.hash < ATABLE_SIZE := by
  cases m with
  | hostname mask => exact maskHashLoop_lt mask.reverse [] []
  | ipv4 addr bits =>
      rw [hash, hashIpv4]
      split
      · dsimp only
        rw [BitVec.toNat_and]
        exact Nat.lt_succ_of_le Nat.and_le_right
      · exact Nat.succ_pos _
  | ipv6 addr bits =>
      exact (hashBytes (List.ofFn addr) (bits - bits % 16).toNat 0).isLt.trans (by decide)

namespace RehashConf

/-- Some list, chain or table has the item. -/
def Present (s : RehashConf) (a : ℕ) : Prop :=
  (∃ t, a ∈ s.confItems t) ∨ (∃ l, a ∈ s.temporary l) ∨ (∃ i, a ∈ s.resvTable i) ∨
    ∃ i, ∃ r ∈ s.table.atable i, r.aconf = a

/-- The chain of the address table that an item belongs to. -/
def chainOf (item : ℕ → RehashItem) (a : ℕ) : ℕ :=
  (fileMask (filedAddress (fun a => (item a).access) a)).hash

structure Inv (randomKey : U32) (item : ℕ → RehashItem) (s : RehashConf) : Prop where
  items : ∀ t, ∀ a ∈ s.confItems t, (item a).type = t
  itemsNodup : ∀ t, (s.confItems t).Nodup
  unlisted : ∀ t, ∀ a ∈ s.confItems t, t.isAddress = false
  temporary : ∀ l, ∀ a ∈ s.temporary l, a ∈ s.flagged ∧ ∃ t, (item a).type = .ban t ∧ t.list = l
  temporaryNodup : ∀ l, (s.temporary l).Nodup
  resv : ∀ i, ∀ a ∈ s.resvTable i, (item a).type = .ban .cresv ∧
    strhash randomKey (item a).name = i
  resvNodup : ∀ i, (s.resvTable i).Nodup
  records : ∀ i, ∀ r ∈ s.table.atable i, (item r.aconf).type.isAddress = true ∧
    chainOf item r.aconf = i
  recordsNodup : ∀ i, ((s.table.atable i).map AddressRec.aconf).Nodup
  inForce : ∀ l, ∀ a ∈ s.temporary l, (item a).type.isAddress = true →
    ∃ r ∈ s.table.atable (chainOf item a), r.aconf = a
  filed : ∀ a, s.Present a → (item a).type.isAddress = false → a ∈ s.confItems (item a).type
  standing : ∀ a, s.Present a → a ∈ s.flagged →
    ∃ t, (item a).type = .ban t ∧ a ∈ s.temporary t.list
  legal : ∀ t, ∀ a ∈ s.confItems t, a ∉ s.illegal
  freed : ∀ a ∈ s.freed, ¬ s.Present a
  made : ∀ a, s.Present a ∨ a ∈ s.flagged ∨ a ∈ s.illegal ∨ a ∈ s.freed → a ∈ s.made

/-- Some items are taken out wherever they are; each of them is freed, or illegal while a client
has it. -/
structure Removed (s s' : RehashConf) (gone : ℕ → Bool) : Prop where
  items : ∀ t, s'.confItems t = (s.confItems t).filter fun a => !gone a
  temporary : ∀ l, s'.temporary l = (s.temporary l).filter fun a => !gone a
  resv : ∀ i, s'.resvTable i = (s.resvTable i).filter fun a => !gone a
  records : ∀ i, s'.table.atable i = (s.table.atable i).filter fun r => !gone r.aconf
  flagged : s'.flagged = s.flagged
  count : s'.count = s.count
  made : s'.made = s.made
  freedOf : s.freed ⊆ s'.freed
  illegalOf : s.illegal ⊆ s'.illegal
  freed : ∀ a ∈ s'.freed, a ∈ s.freed ∨ s.Present a ∧ gone a = true
  illegal : ∀ a ∈ s'.illegal, a ∈ s.illegal ∨ s.Present a ∧ gone a = true
  fate : ∀ a, s.Present a → gone a = true → a ∈ s'.freed ∨ a ∈ s'.illegal ∧ s.count a ≠ 0

variable {randomKey : U32} {item : ℕ → RehashItem} {s s' s'' : RehashConf} {gone gone' : ℕ → Bool}

namespace Removed

theorem refl (s : RehashConf) : Removed s s fun _ => false := by
  refine ⟨fun t => ?_, fun l => ?_, fun i => ?_, fun i => ?_, rfl, rfl, rfl, fun _ => id,
    fun _ => id, fun a => Or.inl, fun a => Or.inl, fun a _ h => absurd h Bool.false_ne_true⟩
  all_goals rw [Bool.not_false, List.filter_true]

/-- An item is still there when it was there and is not gone. -/
theorem present_iff (h : Removed s s' gone) {a : ℕ} :
    s'.Present a ↔ s.Present a ∧ gone a = false := by
  simp only [Present, h.items, h.temporary, h.resv, h.records, List.mem_filter, Bool.not_eq_true']
  constructor
  · rintro (⟨t, ha, hgone⟩ | ⟨l, ha, hgone⟩ | ⟨i, ha, hgone⟩ | ⟨i, r, ⟨hr, hgone⟩, rfl⟩)
    · exact ⟨Or.inl ⟨t, ha⟩, hgone⟩
    · exact ⟨Or.inr (Or.inl ⟨l, ha⟩), hgone⟩
    · exact ⟨Or.inr (Or.inr (Or.inl ⟨i, ha⟩)), hgone⟩
    · exact ⟨Or.inr (Or.inr (Or.inr ⟨i, r, hr, rfl⟩)), hgone⟩
  · rintro ⟨⟨t, ha⟩ | ⟨l, ha⟩ | ⟨i, ha⟩ | ⟨i, r, hr, rfl⟩, hgone⟩
    · exact Or.inl ⟨t, ha, hgone⟩
    · exact Or.inr (Or.inl ⟨l, ha, hgone⟩)
    · exact Or.inr (Or.inr (Or.inl ⟨i, ha, hgone⟩))
    · exact Or.inr (Or.inr (Or.inr ⟨i, r, ⟨hr, hgone⟩, rfl⟩))

theorem trans (h : Removed s s' gone) (h' : Removed s' s'' gone') :
    Removed s s'' fun a => gone a || gone' a := by
  have hpast {a : ℕ} (ha : s'.Present a) (hgone : gone' a = true) :
      s.Present a ∧ (gone a || gone' a) = true :=
    ⟨(h.present_iff.mp ha).1, by rw [hgone, Bool.or_true]⟩
  refine ⟨fun t => ?_, fun l => ?_, fun i => ?_, fun i => ?_, h'.flagged.trans h.flagged,
    h'.count.trans h.count, h'.made.trans h.made, h.freedOf.trans h'.freedOf,
    h.illegalOf.trans h'.illegalOf, fun a ha => ?_, fun a ha => ?_, fun a ha hgone => ?_⟩
  · rw [h'.items, h.items, List.filter_filter]
    exact List.filter_congr fun a _ => by rw [Bool.not_or, Bool.and_comm]
  · rw [h'.temporary, h.temporary, List.filter_filter]
    exact List.filter_congr fun a _ => by rw [Bool.not_or, Bool.and_comm]
  · rw [h'.resv, h.resv, List.filter_filter]
    exact List.filter_congr fun a _ => by rw [Bool.not_or, Bool.and_comm]
  · rw [h'.records, h.records, List.filter_filter]
    exact List.filter_congr fun r _ => by rw [Bool.not_or, Bool.and_comm]
  · rcases h'.freed a ha with ha | ⟨hpresent, hgone⟩
    · exact (h.freed a ha).imp_right fun hg => ⟨hg.1, by rw [hg.2, Bool.true_or]⟩
    · exact Or.inr (hpast hpresent hgone)
  · rcases h'.illegal a ha with ha | ⟨hpresent, hgone⟩
    · exact (h.illegal a ha).imp_right fun hg => ⟨hg.1, by rw [hg.2, Bool.true_or]⟩
    · exact Or.inr (hpast hpresent hgone)
  · cases hfirst : gone a with
    | true =>
        rcases h.fate a ha hfirst with hfreed | ⟨hillegal, hcount⟩
        · exact Or.inl (h'.freedOf hfreed)
        · exact Or.inr ⟨h'.illegalOf hillegal, hcount⟩
    | false =>
        rw [hfirst, Bool.false_or] at hgone
        rw [← h.count]
        exact h'.fate a (h.present_iff.mpr ⟨ha, hfirst⟩) hgone

/-- Only what is there matters. -/
theorem congr (h : Removed s s' gone) (hgone : ∀ a, s.Present a → gone a = gone' a) :
    Removed s s' gone' := by
  refine ⟨fun t => ?_, fun l => ?_, fun i => ?_, fun i => ?_, h.flagged, h.count, h.made, h.freedOf,
    h.illegalOf, fun a ha => ?_, fun a ha => ?_, fun a ha hg => ?_⟩
  · rw [h.items]
    exact List.filter_congr fun a ha => by rw [hgone a (Or.inl ⟨t, ha⟩)]
  · rw [h.temporary]
    exact List.filter_congr fun a ha => by rw [hgone a (Or.inr (Or.inl ⟨l, ha⟩))]
  · rw [h.resv]
    exact List.filter_congr fun a ha => by rw [hgone a (Or.inr (Or.inr (Or.inl ⟨i, ha⟩)))]
  · rw [h.records]
    exact List.filter_congr fun r hr => by
      rw [hgone r.aconf (Or.inr (Or.inr (Or.inr ⟨i, r, hr, rfl⟩)))]
  · rcases h.freed a ha with hold | ⟨hpresent, hg⟩
    · exact Or.inl hold
    · exact Or.inr ⟨hpresent, (hgone a hpresent).symm.trans hg⟩
  · rcases h.illegal a ha with hold | ⟨hpresent, hg⟩
    · exact Or.inl hold
    · exact Or.inr ⟨hpresent, (hgone a hpresent).symm.trans hg⟩
  · exact h.fate a ha (by rw [hgone a ha, hg])

end Removed

theorem Inv.removed (h : Inv randomKey item s) (hr : Removed s s' gone) :
    Inv randomKey item s' where
  items t a ha := by
    rw [hr.items, List.mem_filter] at ha
    exact h.items t a ha.1
  itemsNodup t := by
    rw [hr.items]
    exact (h.itemsNodup t).filter _
  unlisted t a ha := by
    rw [hr.items, List.mem_filter] at ha
    exact h.unlisted t a ha.1
  temporary l a ha := by
    rw [hr.temporary, List.mem_filter] at ha
    rw [hr.flagged]
    exact h.temporary l a ha.1
  temporaryNodup l := by
    rw [hr.temporary]
    exact (h.temporaryNodup l).filter _
  resv i a ha := by
    rw [hr.resv, List.mem_filter] at ha
    exact h.resv i a ha.1
  resvNodup i := by
    rw [hr.resv]
    exact (h.resvNodup i).filter _
  records i r hrec := by
    rw [hr.records, List.mem_filter] at hrec
    exact h.records i r hrec.1
  recordsNodup i := by
    rw [hr.records]
    exact (h.recordsNodup i).sublist (List.filter_sublist.map AddressRec.aconf)
  inForce l a ha htype := by
    rw [hr.temporary, List.mem_filter] at ha
    obtain ⟨r, hmem, rfl⟩ := h.inForce l a ha.1 htype
    rw [hr.records]
    exact ⟨r, List.mem_filter.mpr ⟨hmem, ha.2⟩, rfl⟩
  filed a ha htype := by
    obtain ⟨hpresent, hgone⟩ := hr.present_iff.mp ha
    rw [hr.items, List.mem_filter, hgone]
    exact ⟨h.filed a hpresent htype, rfl⟩
  standing a ha hflag := by
    obtain ⟨hpresent, hgone⟩ := hr.present_iff.mp ha
    rw [hr.flagged] at hflag
    obtain ⟨t, htype, hmem⟩ := h.standing a hpresent hflag
    refine ⟨t, htype, ?_⟩
    rw [hr.temporary, List.mem_filter, hgone]
    exact ⟨hmem, rfl⟩
  legal t a ha hillegal := by
    rw [hr.items, List.mem_filter, Bool.not_eq_true'] at ha
    rcases hr.illegal a hillegal with hold | ⟨-, hgone⟩
    · exact h.legal t a ha.1 hold
    · rw [ha.2] at hgone
      exact absurd hgone Bool.false_ne_true
  freed a ha hpresent := by
    obtain ⟨hpresent, hgone⟩ := hr.present_iff.mp hpresent
    rcases hr.freed a ha with hold | ⟨-, hgone'⟩
    · exact h.freed a hold hpresent
    · rw [hgone] at hgone'
      exact absurd hgone' Bool.false_ne_true
  made a ha := by
    rw [hr.made]
    refine h.made a ?_
    rcases ha with ha | ha | ha | ha
    · exact Or.inl (hr.present_iff.mp ha).1
    · rw [hr.flagged] at ha
      exact Or.inr (Or.inl ha)
    · rcases hr.illegal a ha with ha | ha
      · exact Or.inr (Or.inr (Or.inl ha))
      · exact Or.inl ha.1
    · rcases hr.freed a ha with ha | ha
      · exact Or.inr (Or.inr (Or.inr ha))
      · exact Or.inl ha.1

/-! ### The lists -/

theorem filter_not_beq {l : List ℕ} {a : ℕ} (h : a ∉ l) : (l.filter fun b => !(b == a)) = l := by
  refine List.filter_eq_self.mpr fun b hb => ?_
  rw [Bool.not_eq_true', beq_eq_false_iff_ne]
  exact ne_of_mem_of_not_mem hb h

theorem erase_eq_filter {l : List ℕ} (h : l.Nodup) (a : ℕ) :
    l.erase a = l.filter fun b => !(b == a) :=
  h.erase_eq_filter a

/-- An item is taken off the list of its type, and from `temporary_resv` when it is there. -/
theorem removed_listed (h : Inv randomKey item s) {t : RehashType} {a : ℕ} (ha : a ∈ s.confItems t)
    (ht : t ≠ .ban .cresv) {temporary : TempList → List ℕ} {illegal freed : Finset ℕ}
    (htemporary : ∀ l, temporary l = (s.temporary l).filter fun b => !(b == a))
    (hfate : freed = insert a s.freed ∧ illegal = s.illegal ∨
      freed = s.freed ∧ illegal = insert a s.illegal ∧ s.count a ≠ 0) :
    Removed s { s with
      confItems := Function.update s.confItems t ((s.confItems t).erase a)
      temporary := temporary
      illegal := illegal
      freed := freed } (· == a) := by
  have htype := h.items t a ha
  have hpresent : s.Present a := Or.inl ⟨t, ha⟩
  refine ⟨fun t' => ?_, htemporary, fun i => ?_, fun i => ?_, rfl, rfl, rfl, ?_, ?_,
    fun b hb => ?_, fun b hb => ?_, fun b _ hb => ?_⟩
  · by_cases htt : t' = t
    · rw [htt]
      exact (Function.update_self _ _ _).trans (erase_eq_filter (h.itemsNodup t) a)
    · refine (Function.update_of_ne htt _ _).trans (filter_not_beq fun hmem => htt ?_).symm
      rw [← h.items t' a hmem, htype]
  · refine (filter_not_beq fun hmem => ht ?_).symm
    rw [← htype, (h.resv i a hmem).1]
  · refine (List.filter_eq_self.mpr fun r hr => ?_).symm
    rw [Bool.not_eq_true', beq_eq_false_iff_ne]
    rintro rfl
    have haddress := (h.records i r hr).1
    rw [htype, h.unlisted t _ ha] at haddress
    exact absurd haddress Bool.false_ne_true
  · rcases hfate with ⟨rfl, -⟩ | ⟨rfl, -, -⟩
    · exact Finset.subset_insert a s.freed
    · exact Finset.Subset.refl _
  · rcases hfate with ⟨-, rfl⟩ | ⟨-, rfl, -⟩
    · exact Finset.Subset.refl _
    · exact Finset.subset_insert a s.illegal
  · rcases hfate with ⟨rfl, -⟩ | ⟨rfl, -, -⟩
    · rcases Finset.mem_insert.mp hb with rfl | hb
      · exact Or.inr ⟨hpresent, beq_self_eq_true b⟩
      · exact Or.inl hb
    · exact Or.inl hb
  · rcases hfate with ⟨-, rfl⟩ | ⟨-, rfl, -⟩
    · exact Or.inl hb
    · rcases Finset.mem_insert.mp hb with rfl | hb
      · exact Or.inr ⟨hpresent, beq_self_eq_true b⟩
      · exact Or.inl hb
  · obtain rfl := beq_iff_eq.mp hb
    rcases hfate with ⟨rfl, -⟩ | ⟨-, rfl, hcount⟩
    · exact Or.inl (Finset.mem_insert_self b _)
    · exact Or.inr ⟨Finset.mem_insert_self b _, hcount⟩

theorem Inv.notMem_temporary (h : Inv randomKey item s) {a : ℕ}
    (ha : a ∉ s.flagged ∨ ∀ t, (item a).type ≠ .ban t) (l : TempList) : a ∉ s.temporary l := by
  intro hmem
  obtain ⟨hflag, t, htype, -⟩ := h.temporary l a hmem
  exact ha.elim (fun hnot => hnot hflag) fun hnot => hnot t htype

/-- An item that is not temporary, or is no ban, leaves the temporary lists as they are. -/
theorem removed_permanent (h : Inv randomKey item s) {t : RehashType} {a : ℕ}
    (ha : a ∈ s.confItems t) (ht : t ≠ .ban .cresv)
    (hperm : a ∉ s.flagged ∨ ∀ t', (item a).type ≠ .ban t') :
    Removed s ((s.unlinkItem t a).free a) (· == a) :=
  removed_listed h ha ht (fun l => (filter_not_beq (h.notMem_temporary hperm l)).symm)
    (Or.inl ⟨rfl, rfl⟩)

theorem removed_attached (h : Inv randomKey item s) {t : RehashType} {a : ℕ}
    (ha : a ∈ s.confItems t) (ht : t ≠ .ban .cresv) (hcount : s.count a ≠ 0)
    (hperm : ∀ t', (item a).type ≠ .ban t') :
    Removed s ((s.setIllegal a).unlinkItem t a) (· == a) :=
  removed_listed h ha ht (fun l => (filter_not_beq (h.notMem_temporary (Or.inr hperm) l)).symm)
    (Or.inr ⟨rfl, rfl, hcount⟩)

theorem removed_nresv (h : Inv randomKey item s) {a : ℕ} (ha : a ∈ s.confItems (.ban .nresv)) :
    Removed s (((s.unlinkItem (.ban .nresv) a).findDeleteResv a).free a) (· == a) := by
  rw [findDeleteResv]
  split
  · refine removed_listed h ha (by decide) (fun l => ?_) (Or.inl ⟨rfl, rfl⟩)
    change Function.update s.temporary .resv ((s.temporary .resv).erase a) l = _
    by_cases hl : l = .resv
    · rw [hl, Function.update_self]
      exact erase_eq_filter (h.temporaryNodup .resv) a
    · rw [Function.update_of_ne hl]
      refine (filter_not_beq fun hmem => hl ?_).symm
      obtain ⟨-, t, htype, rfl⟩ := h.temporary l a hmem
      rw [h.items _ a ha] at htype
      rw [← RehashType.ban.inj htype]
      rfl
  · rename_i hflag
    exact removed_permanent h ha (by decide) (Or.inl hflag)

/-- The types whose temporary items are passed over. -/
def spared : RehashType → Bool
  | .ban .xline | .ban .rxline | .ban .rkline => true
  | _ => false

theorem removed_deleteConfItem (h : Inv randomKey item s) {t : RehashType} {a : ℕ}
    (ha : a ∈ s.confItems t) (ht : t ∈ RehashType.freeItems)
    (hperm : spared t = true → a ∉ s.flagged) :
    Removed s (s.deleteConfItem item a) (· == a) := by
  have htype := h.items t a ha
  have hlegal := h.legal t a ha
  have hother (hban : ∀ t', t ≠ .ban t') (t' : TempType) : (item a).type ≠ .ban t' :=
    htype ▸ hban t'
  rw [deleteConfItem, htype]
  cases t with
  | server | oper | hub | leaf =>
      dsimp only
      rw [if_neg hlegal]
      exact removed_permanent h ha (by decide) (Or.inr (hother nofun))
  | uline | cluster | gdeny =>
      exact removed_permanent h ha (by decide) (Or.inr (hother nofun))
  | client | exemptDline => exact absurd ht (by decide)
  | ban t =>
      cases t with
      | xline | rxline | rkline => exact removed_permanent h ha (by decide) (Or.inl (hperm rfl))
      | nresv => exact removed_nresv h ha
      | cresv | gline | kline | dline => exact absurd ht (by decide)

/-- One turn of the loop. -/
theorem removed_clearItem (h : Inv randomKey item s) {t : RehashType} {a : ℕ}
    (ha : a ∈ s.confItems t) (ht : t ∈ RehashType.freeItems) :
    Removed s (s.clearItem item a)
      fun b => b == a && !(spared t && decide (b ∈ s.flagged)) := by
  have htype := h.items t a ha
  have hother (hban : ∀ t', t ≠ .ban t') (t' : TempType) : (item a).type ≠ .ban t' :=
    htype ▸ hban t'
  have hall {s' : RehashConf} (hspared : spared t = true → a ∉ s.flagged)
      (hr : Removed s s' (· == a)) :
      Removed s s' fun b => b == a && !(spared t && decide (b ∈ s.flagged)) := by
    refine hr.congr fun b _ => ?_
    cases hb : b == a with
    | false => rfl
    | true =>
        rw [beq_iff_eq.mp hb]
        cases hsp : spared t with
        | false => rfl
        | true => rw [decide_eq_false (hspared hsp)]; rfl
  have hdelete (hspared : spared t = true → a ∉ s.flagged) :=
    hall hspared (removed_deleteConfItem h ha ht hspared)
  rw [clearItem, htype]
  cases t with
  | server | oper =>
      dsimp only
      split
      · exact hall nofun (removed_attached h ha (by decide) ‹_› (hother nofun))
      · exact hdelete nofun
  | hub | leaf =>
      dsimp only
      split
      · exact hdelete nofun
      · exact hall nofun (removed_attached h ha (by decide) ‹_› (hother nofun))
  | uline | cluster | gdeny => exact hdelete nofun
  | client | exemptDline => exact absurd ht (by decide)
  | ban t =>
      cases t with
      | xline | rxline | rkline =>
          dsimp only
          split
          · rename_i hflag
            refine (Removed.refl s).congr fun b _ => ?_
            cases hb : b == a with
            | false => rfl
            | true =>
                rw [beq_iff_eq.mp hb, decide_eq_true hflag]
                rfl
          · exact hdelete fun _ => ‹_›
      | nresv => exact hdelete nofun
      | cresv | gline | kline | dline => exact absurd ht (by decide)

/-- A loop over items of a list, in a state that keeps the flags. -/
theorem removed_foldl {step : RehashConf → ℕ → RehashConf} {t : RehashType} {p : ℕ → Bool}
    {flagged : Finset ℕ}
    (hstep : ∀ {s}, Inv randomKey item s → s.flagged = flagged → ∀ a ∈ s.confItems t,
      Removed s (step s a) fun b => b == a && p b)
    {as : List ℕ} (hnodup : as.Nodup) (h : Inv randomKey item s) (hflagged : s.flagged = flagged)
    (has : ∀ a ∈ as, a ∈ s.confItems t) :
    Removed s (as.foldl step s) fun b => decide (b ∈ as) && p b := by
  induction as generalizing s with
  | nil => exact (Removed.refl s).congr fun b _ => by rw [decide_eq_false List.not_mem_nil]; rfl
  | cons a as ih =>
      obtain ⟨hnew, hnodup⟩ := List.nodup_cons.mp hnodup
      have hr := hstep h hflagged a (has a List.mem_cons_self)
      have hrest : ∀ b ∈ as, b ∈ (step s a).confItems t := by
        intro b hb
        have hne : (b == a) = false := beq_eq_false_iff_ne.mpr (ne_of_mem_of_not_mem hb hnew)
        rw [hr.items, List.mem_filter, hne]
        exact ⟨has b (List.mem_cons_of_mem a hb), rfl⟩
      refine (hr.trans (ih hnodup (h.removed hr) (hr.flagged.trans hflagged) hrest)).congr
        fun b _ => ?_
      rw [← Bool.and_or_distrib_right]
      congr 1
      rw [Bool.eq_iff_iff, Bool.or_eq_true, beq_iff_eq, decide_eq_true_eq, decide_eq_true_eq,
        List.mem_cons]

/-- The loop over a list takes out its items but for the temporary ones that it passes over. -/
theorem removed_list (h : Inv randomKey item s) {t : RehashType} (ht : t ∈ RehashType.freeItems) :
    Removed s ((s.confItems t).foldl (clearItem item) s)
      fun b => decide ((item b).type = t) && !(spared t && decide (b ∈ s.flagged)) := by
  refine (removed_foldl (p := fun b => !(spared t && decide (b ∈ s.flagged)))
    (fun h hflagged a ha => ?_) (h.itemsNodup t) h rfl fun a ha => ha).congr fun b hb => ?_
  · rw [← hflagged]
    exact removed_clearItem h ha ht
  · congr 1
    have hlisted : t.isAddress = false := by
      have hall : ∀ t ∈ RehashType.freeItems, t.isAddress = false := by decide
      exact hall t ht
    refine decide_eq_decide.mpr ⟨fun hmem => h.items t b hmem, ?_⟩
    rintro rfl
    exact h.filed b hb hlisted

theorem removed_lists (h : Inv randomKey item s) {ts : List RehashType}
    (hts : ∀ t ∈ ts, t ∈ RehashType.freeItems) :
    Removed s (ts.foldl (fun s t => (s.confItems t).foldl (clearItem item) s) s)
      fun b => decide ((item b).type ∈ ts) &&
        !(spared (item b).type && decide (b ∈ s.flagged)) := by
  induction ts generalizing s with
  | nil => exact (Removed.refl s).congr fun b _ => by rw [decide_eq_false List.not_mem_nil]; rfl
  | cons t ts ih =>
      have hr := removed_list h (hts t List.mem_cons_self)
      have hrest := ih (h.removed hr) fun t' ht' => hts t' (List.mem_cons_of_mem t ht')
      refine (hr.trans hrest).congr fun b _ => ?_
      rw [hr.flagged]
      by_cases htb : (item b).type = t
      · rw [decide_eq_true htb, htb, decide_eq_true (List.mem_cons_self)]
        cases spared t && decide (b ∈ s.flagged) <;>
          simp only [Bool.not_true, Bool.not_false, Bool.and_false, Bool.and_true, Bool.or_false,
            Bool.true_or]
      · rw [decide_eq_false htb, Bool.false_and, Bool.false_or]
        congr 1
        exact decide_eq_decide.mpr ⟨List.mem_cons_of_mem t, fun hmem =>
          (List.mem_cons.mp hmem).resolve_left htb⟩

/-! ### The address table -/

/-- What the walk along a chain does to the items behind its records. -/
structure Walked (s s' : RehashConf) (arecs : List AddressRec) : Prop where
  lists : s'.confItems = s.confItems ∧ s'.temporary = s.temporary ∧ s'.resvTable = s.resvTable ∧
    s'.table = s.table
  flagged : s'.flagged = s.flagged
  count : s'.count = s.count
  made : s'.made = s.made
  freedOf : s.freed ⊆ s'.freed
  illegalOf : s.illegal ⊆ s'.illegal
  freed : ∀ a ∈ s'.freed, a ∈ s.freed ∨ a ∉ s.flagged ∧ ∃ r ∈ arecs, r.aconf = a
  illegal : ∀ a ∈ s'.illegal, a ∈ s.illegal ∨ a ∉ s.flagged ∧ ∃ r ∈ arecs, r.aconf = a
  fate : ∀ r ∈ arecs, r.aconf ∉ s.flagged →
    r.aconf ∈ s'.freed ∨ r.aconf ∈ s'.illegal ∧ s.count r.aconf ≠ 0

theorem deleteConfItem_address {a : ℕ} (ha : (item a).type.isAddress = true) (s : RehashConf) :
    s.deleteConfItem item a = s.free a := by
  rw [deleteConfItem]
  cases htype : (item a).type with
  | client | exemptDline => rfl
  | server | oper | hub | leaf | uline | cluster | gdeny =>
      rw [htype] at ha
      exact absurd ha Bool.false_ne_true
  | ban t =>
      rw [htype] at ha
      cases t with
      | gline | kline | dline => rfl
      | xline | rxline | rkline | nresv | cresv => exact absurd ha Bool.false_ne_true

theorem walked_clearChain {arecs : List AddressRec}
    (h : ∀ r ∈ arecs, (item r.aconf).type.isAddress = true) :
    Walked s (s.clearChain item arecs).1 arecs ∧
      (s.clearChain item arecs).2 = arecs.filter fun r => decide (r.aconf ∈ s.flagged) := by
  induction arecs generalizing s with
  | nil =>
      exact ⟨⟨⟨rfl, rfl, rfl, rfl⟩, rfl, rfl, rfl, fun _ => id, fun _ => id, fun _ => Or.inl,
        fun _ => Or.inl, fun r hr => absurd hr List.not_mem_nil⟩, rfl⟩
  | cons arec arecs ih =>
      have hrest : ∀ r ∈ arecs, (item r.aconf).type.isAddress = true :=
        fun r hr => h r (List.mem_cons_of_mem arec hr)
      have hpast {a : ℕ} (ha : a ∉ s.flagged ∧ ∃ r ∈ arecs, r.aconf = a) :
          a ∉ s.flagged ∧ ∃ r ∈ arec :: arecs, r.aconf = a := by
        obtain ⟨hflag, r, hr, hra⟩ := ha
        exact ⟨hflag, r, List.mem_cons_of_mem arec hr, hra⟩
      rw [clearChain]
      by_cases hflag : arec.aconf ∈ s.flagged
      · rw [if_pos hflag, List.filter_cons_of_pos
          (p := fun r : AddressRec => decide (r.aconf ∈ s.flagged)) (decide_eq_true hflag)]
        obtain ⟨hw, hleft⟩ := ih (s := s) hrest
        refine ⟨⟨hw.lists, hw.flagged, hw.count, hw.made, hw.freedOf, hw.illegalOf,
          fun a ha => (hw.freed a ha).imp_right hpast,
          fun a ha => (hw.illegal a ha).imp_right hpast, fun r hr hnot => ?_⟩,
          congrArg (arec :: ·) hleft⟩
        rcases List.mem_cons.mp hr with rfl | hr
        · exact absurd hflag hnot
        · exact hw.fate r hr hnot
      · rw [if_neg hflag, List.filter_cons_of_neg
          (p := fun r : AddressRec => decide (r.aconf ∈ s.flagged))
          (fun h => hflag (of_decide_eq_true h))]
        have hhead : arec.aconf ∉ s.flagged ∧ ∃ r ∈ arec :: arecs, r.aconf = arec.aconf :=
          ⟨hflag, arec, List.mem_cons_self, rfl⟩
        dsimp only
        rw [deleteConfItem_address (h arec List.mem_cons_self)]
        generalize hs₁ : (if (s.setIllegal arec.aconf).count arec.aconf = 0 then
          (s.setIllegal arec.aconf).free arec.aconf else s.setIllegal arec.aconf) = s₁
        have hfree : s₁.freed = insert arec.aconf s.freed ∨
            s₁.freed = s.freed ∧ s.count arec.aconf ≠ 0 := by
          rw [← hs₁]
          split
          · exact Or.inl rfl
          · exact Or.inr ⟨rfl, ‹_›⟩
        have hsame : (s₁.confItems = s.confItems ∧ s₁.temporary = s.temporary ∧
            s₁.resvTable = s.resvTable ∧ s₁.table = s.table) ∧ s₁.flagged = s.flagged ∧
            s₁.count = s.count ∧ s₁.made = s.made ∧
            s₁.illegal = insert arec.aconf s.illegal := by
          rw [← hs₁]
          split <;> exact ⟨⟨rfl, rfl, rfl, rfl⟩, rfl, rfl, rfl, rfl⟩
        obtain ⟨⟨hitems, htemporary, hresv, htable⟩, hflagged, hcount, hmade, hillegal⟩ := hsame
        obtain ⟨hw, hleft⟩ := ih (s := s₁) hrest
        rw [hflagged] at hleft
        refine ⟨⟨?_, hw.flagged.trans hflagged, hw.count.trans hcount, hw.made.trans hmade, ?_, ?_,
          fun a ha => ?_, fun a ha => ?_, fun r hr hnot => ?_⟩, hleft⟩
        · obtain ⟨h₁, h₂, h₃, h₄⟩ := hw.lists
          exact ⟨h₁.trans hitems, h₂.trans htemporary, h₃.trans hresv, h₄.trans htable⟩
        · refine Finset.Subset.trans ?_ hw.freedOf
          rcases hfree with hfree | ⟨hfree, -⟩ <;> rw [hfree]
          exact Finset.subset_insert arec.aconf s.freed
        · refine Finset.Subset.trans ?_ hw.illegalOf
          rw [hillegal]
          exact Finset.subset_insert arec.aconf s.illegal
        · rcases hw.freed a ha with ha | ha
          · rcases hfree with hfree | ⟨hfree, -⟩
            · rw [hfree] at ha
              rcases Finset.mem_insert.mp ha with rfl | ha
              · exact Or.inr hhead
              · exact Or.inl ha
            · rw [hfree] at ha
              exact Or.inl ha
          · rw [hflagged] at ha
            exact Or.inr (hpast ha)
        · rcases hw.illegal a ha with ha | ha
          · rw [hillegal] at ha
            rcases Finset.mem_insert.mp ha with rfl | ha
            · exact Or.inr hhead
            · exact Or.inl ha
          · rw [hflagged] at ha
            exact Or.inr (hpast ha)
        · rcases List.mem_cons.mp hr with rfl | hr
          · rcases hfree with hfree | ⟨-, hne⟩
            · refine Or.inl (hw.freedOf ?_)
              rw [hfree]
              exact Finset.mem_insert_self _ _
            · refine Or.inr ⟨hw.illegalOf ?_, hne⟩
              rw [hillegal]
              exact Finset.mem_insert_self _ _
          · rw [← hflagged] at hnot
            rw [← hcount]
            exact hw.fate r hr hnot

/-- The permanent items of some chains. -/
def filedIn (item : ℕ → RehashItem) (flagged : Finset ℕ) (is : List ℕ) (a : ℕ) : Bool :=
  (item a).type.isAddress && decide (chainOf item a ∈ is) && !decide (a ∈ flagged)

theorem filedIn_iff {flagged : Finset ℕ} {is : List ℕ} {a : ℕ} :
    filedIn item flagged is a = true ↔
      (item a).type.isAddress = true ∧ chainOf item a ∈ is ∧ a ∉ flagged := by
  rw [filedIn, Bool.and_eq_true, Bool.and_eq_true, Bool.not_eq_true', decide_eq_true_eq,
    decide_eq_false_iff_not, and_assoc]

theorem filter_not_filedIn {flagged : Finset ℕ} {is l : List ℕ}
    (h : ∀ a ∈ l, a ∈ flagged ∨ (item a).type.isAddress = false) :
    (l.filter fun a => !filedIn item flagged is a) = l := by
  refine List.filter_eq_self.mpr fun a ha => ?_
  rw [Bool.not_eq_true', ← Bool.not_eq_true, filedIn_iff]
  rintro ⟨haddress, -, hnot⟩
  rcases h a ha with hflag | htype
  · exact hnot hflag
  · exact absurd (htype.symm.trans haddress) Bool.false_ne_true

theorem Inv.exists_record (h : Inv randomKey item s) {a : ℕ} (ha : s.Present a)
    (haddress : (item a).type.isAddress = true) (hflag : a ∉ s.flagged) :
    ∃ r ∈ s.table.atable (chainOf item a), r.aconf = a := by
  rcases ha with ⟨t, ha⟩ | ⟨l, ha⟩ | ⟨i, ha⟩ | ⟨i, r, hr, rfl⟩
  · have hlisted := h.unlisted t a ha
    rw [h.items t a ha, hlisted] at haddress
    exact absurd haddress Bool.false_ne_true
  · exact absurd (h.temporary l a ha).1 hflag
  · rw [(h.resv i a ha).1] at haddress
    exact absurd haddress Bool.false_ne_true
  · rw [(h.records i r hr).2]
    exact ⟨r, hr, rfl⟩

/-- One chain. -/
theorem removed_chain (h : Inv randomKey item s) (i : ℕ) :
    Removed s
      { (s.clearChain item (s.table.atable i)).1 with
        table := { (s.clearChain item (s.table.atable i)).1.table with
          atable := Function.update (s.clearChain item (s.table.atable i)).1.table.atable i
            (s.clearChain item (s.table.atable i)).2 } }
      (filedIn item s.flagged [i]) := by
  obtain ⟨hw, hleft⟩ := walked_clearChain (s := s)
    fun r hr => (h.records i r hr).1
  obtain ⟨hitems, htemporary, hresv, htable⟩ := hw.lists
  have hgone {r : AddressRec} (hr : r ∈ s.table.atable i) (hflag : r.aconf ∉ s.flagged) :
      s.Present r.aconf ∧ filedIn item s.flagged [i] r.aconf = true := by
    obtain ⟨haddress, hchain⟩ := h.records i r hr
    exact ⟨Or.inr (Or.inr (Or.inr ⟨i, r, hr, rfl⟩)),
      filedIn_iff.mpr ⟨haddress, List.mem_singleton.mpr hchain, hflag⟩⟩
  refine ⟨fun t => ?_, fun l => ?_, fun j => ?_, fun j => ?_, hw.flagged, hw.count, hw.made,
    hw.freedOf, hw.illegalOf, fun a ha => ?_, fun a ha => ?_, fun a ha hg => ?_⟩
  · refine (congrFun hitems t).trans (filter_not_filedIn fun a ha => Or.inr ?_).symm
    rw [h.items t a ha, h.unlisted t a ha]
  · exact (congrFun htemporary l).trans
      (filter_not_filedIn fun a ha => Or.inl (h.temporary l a ha).1).symm
  · refine (congrFun hresv j).trans (filter_not_filedIn fun a ha => Or.inr ?_).symm
    rw [(h.resv j a ha).1]
    rfl
  · dsimp only
    rw [htable]
    by_cases hj : j = i
    · rw [hj, Function.update_self, hleft]
      refine List.filter_congr fun r hr => ?_
      by_cases hflag : r.aconf ∈ s.flagged
      · rw [decide_eq_true hflag, filedIn, decide_eq_true hflag, Bool.not_true, Bool.and_false]
        rfl
      · rw [decide_eq_false hflag, (hgone hr hflag).2]
        rfl
    · rw [Function.update_of_ne hj]
      refine (List.filter_eq_self.mpr fun r hr => ?_).symm
      rw [Bool.not_eq_true', ← Bool.not_eq_true, filedIn_iff]
      rintro ⟨-, hchain, -⟩
      rw [List.mem_singleton, (h.records j r hr).2] at hchain
      exact hj hchain
  · rcases hw.freed a ha with ha | ⟨hflag, r, hr, rfl⟩
    · exact Or.inl ha
    · exact Or.inr (hgone hr hflag)
  · rcases hw.illegal a ha with ha | ⟨hflag, r, hr, rfl⟩
    · exact Or.inl ha
    · exact Or.inr (hgone hr hflag)
  · obtain ⟨haddress, hchain, hflag⟩ := filedIn_iff.mp hg
    obtain ⟨r, hr, rfl⟩ := h.exists_record ha haddress hflag
    rw [List.mem_singleton.mp hchain] at hr
    exact hw.fate r hr hflag

theorem removed_chains (h : Inv randomKey item s) (is : List ℕ) :
    Removed s (is.foldl (fun s i =>
      let r := s.clearChain item (s.table.atable i)
      { r.1 with table := { r.1.table with atable := Function.update r.1.table.atable i r.2 } }) s)
      (filedIn item s.flagged is) := by
  induction is generalizing s with
  | nil =>
      refine (Removed.refl s).congr fun a _ => ?_
      rw [filedIn, decide_eq_false List.not_mem_nil, Bool.and_false, Bool.false_and]
  | cons i is ih =>
      have hr := removed_chain h i
      refine (hr.trans (ih (h.removed hr))).congr fun a _ => ?_
      rw [Bool.eq_iff_iff, Bool.or_eq_true, hr.flagged, filedIn_iff, filedIn_iff, filedIn_iff]
      simp only [List.mem_cons, List.not_mem_nil, or_false]
      grind

/-! ### The reserved channels -/

theorem removed_deleteChannelResv (h : Inv randomKey item s) {a : ℕ}
    (ha : a ∈ s.confItems (.ban .cresv)) :
    Removed s (s.deleteChannelResv randomKey item a) (· == a) := by
  have htype := h.items _ a ha
  have hpresent : s.Present a := Or.inl ⟨_, ha⟩
  have hdelete (s : RehashConf) : s.deleteConfItem item a = (s.findDeleteResv a).free a := by
    rw [deleteConfItem, htype]
  have htemporary (l : TempList) : (s.deleteChannelResv randomKey item a).temporary l =
      (s.temporary l).filter fun b => !(b == a) := by
    rw [deleteChannelResv, hdelete, findDeleteResv]
    split
    · change Function.update s.temporary .resv ((s.temporary .resv).erase a) l = _
      by_cases hl : l = .resv
      · rw [hl, Function.update_self]
        exact erase_eq_filter (h.temporaryNodup .resv) a
      · rw [Function.update_of_ne hl]
        refine (filter_not_beq fun hmem => hl ?_).symm
        obtain ⟨-, t, htype', rfl⟩ := h.temporary l a hmem
        rw [htype] at htype'
        rw [← RehashType.ban.inj htype']
        rfl
    · rename_i hflag
      exact (filter_not_beq (h.notMem_temporary (Or.inl hflag) l)).symm
  have hrest : (s.deleteChannelResv randomKey item a).confItems = Function.update s.confItems
        (.ban .cresv) ((s.confItems (.ban .cresv)).erase a) ∧
      (s.deleteChannelResv randomKey item a).resvTable =
        HashChain.unlink s.resvTable (strhash randomKey (item a).name) (· == a) ∧
      (s.deleteChannelResv randomKey item a).table = s.table ∧
      (s.deleteChannelResv randomKey item a).flagged = s.flagged ∧
      (s.deleteChannelResv randomKey item a).count = s.count ∧
      (s.deleteChannelResv randomKey item a).made = s.made ∧
      (s.deleteChannelResv randomKey item a).illegal = s.illegal ∧
      (s.deleteChannelResv randomKey item a).freed = insert a s.freed := by
    rw [deleteChannelResv, hdelete, findDeleteResv]
    split <;> exact ⟨rfl, rfl, rfl, rfl, rfl, rfl, rfl, rfl⟩
  obtain ⟨hitems, hresv, htable, hflagged, hcount, hmade, hillegal, hfreed⟩ := hrest
  refine ⟨fun t => ?_, htemporary, fun i => ?_, fun i => ?_, hflagged, hcount, hmade, ?_, ?_,
    fun b hb => ?_, fun b hb => ?_, fun b _ hb => ?_⟩
  · rw [hitems]
    by_cases ht : t = .ban .cresv
    · rw [ht, Function.update_self]
      exact erase_eq_filter (h.itemsNodup _) a
    · rw [Function.update_of_ne ht]
      refine (filter_not_beq fun hmem => ht ?_).symm
      rw [← h.items t a hmem, htype]
  · rw [hresv, HashChain.unlink]
    by_cases hi : i = strhash randomKey (item a).name
    · rw [hi, Function.update_self, ← erase_eq_filter (h.resvNodup _), List.erase_eq_eraseP']
    · rw [Function.update_of_ne hi]
      exact (filter_not_beq fun hmem => hi (h.resv i a hmem).2.symm).symm
  · rw [htable]
    refine (List.filter_eq_self.mpr fun r hr => ?_).symm
    rw [Bool.not_eq_true', beq_eq_false_iff_ne]
    rintro rfl
    have haddress := (h.records i r hr).1
    rw [htype] at haddress
    exact absurd haddress Bool.false_ne_true
  · rw [hfreed]
    exact Finset.subset_insert a s.freed
  · rw [hillegal]
  · rw [hfreed] at hb
    rcases Finset.mem_insert.mp hb with rfl | hb
    · exact Or.inr ⟨hpresent, beq_self_eq_true b⟩
    · exact Or.inl hb
  · rw [hillegal] at hb
    exact Or.inl hb
  · rw [beq_iff_eq.mp hb, hfreed]
    exact Or.inl (Finset.mem_insert_self a _)

theorem removed_clearConfResv (h : Inv randomKey item s) :
    Removed s (s.clearConfResv randomKey item) fun b => decide ((item b).type = .ban .cresv) := by
  refine (removed_foldl (p := fun _ => true) (fun h _ a ha => ?_) (h.itemsNodup (.ban .cresv)) h rfl
    fun a ha => ha).congr fun b hb => ?_
  · exact (removed_deleteChannelResv h ha).congr fun b _ => (Bool.and_true _).symm
  · rw [Bool.and_true]
    refine decide_eq_decide.mpr ⟨fun hmem => h.items _ b hmem, fun htype => ?_⟩
    have hlisted := h.filed b hb (by rw [htype]; rfl)
    rwa [htype] at hlisted

end RehashConf

end Unirc
