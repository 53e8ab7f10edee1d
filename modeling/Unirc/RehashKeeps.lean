import Unirc.RehashRun

/-!
# Temporary bans across a rehash

In every state that loading and placing lead to, a rehash leaves the temporary bans as they are if
there is no temporary reservation, and nothing that was freed is on a list, in a chain or in a table.
-/

namespace Unirc

namespace RehashConf

variable {randomKey : U32} {item : ℕ → RehashItem} {s s' : RehashConf}

/-- What clearing takes out: the reservations, and what is not temporary. -/
def cleared (item : ℕ → RehashItem) (flagged : Finset ℕ) (a : ℕ) : Bool :=
  decide ((item a).type = .ban .nresv ∨ (item a).type = .ban .cresv) || !decide (a ∈ flagged)

theorem removed_clearOutOldConf (h : Inv randomKey item s) :
    Removed s (s.clearOutOldConf randomKey item) (cleared item s.flagged) := by
  have hlists : Removed s (s.clearLists item) _ := removed_lists h fun t ht => ht
  have h₁ := h.removed hlists
  have hchains : Removed (s.clearLists item) ((s.clearLists item).clearOutAddressConf item) _ :=
    removed_chains h₁ (List.range ATABLE_SIZE)
  have hresv := removed_clearConfResv (h₁.removed hchains)
  refine ((hlists.trans hchains).trans hresv).congr fun a ha => ?_
  rw [hlists.flagged]
  have hchain : chainOf item a ∈ List.range ATABLE_SIZE :=
    List.mem_range.mpr (RecMask.hash_lt _)
  rw [filedIn, decide_eq_true hchain, cleared]
  by_cases hflag : a ∈ s.flagged
  · obtain ⟨t, htype, -⟩ := h.standing a ha hflag
    rw [htype, decide_eq_true hflag]
    cases t <;> rfl
  · rw [decide_eq_false hflag]
    cases htype : (item a).type with
    | ban t => cases t <;> rfl
    | server | oper | hub | leaf | uline | cluster | gdeny | client | exemptDline => rfl

/-- A new item is filed, and on a temporary list if it is placed. -/
structure Added (randomKey : U32) (item : ℕ → RehashItem) (s s' : RehashConf) (a : ℕ)
    (placed : Option TempType) : Prop where
  items : ∀ t, s'.confItems t =
    if (item a).type.isAddress = false ∧ (item a).type = t then a :: s.confItems t
    else s.confItems t
  temporary : ∀ l, s'.temporary l =
    if placed.map TempType.list = some l then a :: s.temporary l else s.temporary l
  resv : ∀ i, s'.resvTable i =
    if (item a).type = .ban .cresv ∧ strhash randomKey (item a).name = i then a :: s.resvTable i
    else s.resvTable i
  records : ∃ r : AddressRec, r.aconf = a ∧ ∀ i, s'.table.atable i =
    if (item a).type.isAddress = true ∧ chainOf item a = i then r :: s.table.atable i
    else s.table.atable i
  flagged : s'.flagged = if placed.isSome then insert a s.flagged else s.flagged
  illegal : s'.illegal = s.illegal
  freed : s'.freed = s.freed
  made : s'.made = insert a s.made

theorem Added.present {a b : ℕ} {placed : Option TempType} (h : Added randomKey item s s' a placed)
    (hb : s'.Present b) : b = a ∨ s.Present b := by
  have hcons {c : Prop} [Decidable c] {l : List ℕ} (hmem : b ∈ if c then a :: l else l) :
      b = a ∨ b ∈ l := by
    split at hmem
    · exact List.mem_cons.mp hmem
    · exact Or.inr hmem
  rcases hb with ⟨t, hb⟩ | ⟨l, hb⟩ | ⟨i, hb⟩ | ⟨i, r, hr, rfl⟩
  · rw [h.items] at hb
    exact (hcons hb).imp_right fun hb => Or.inl ⟨t, hb⟩
  · rw [h.temporary] at hb
    exact (hcons hb).imp_right fun hb => Or.inr (Or.inl ⟨l, hb⟩)
  · rw [h.resv] at hb
    exact (hcons hb).imp_right fun hb => Or.inr (Or.inr (Or.inl ⟨i, hb⟩))
  · obtain ⟨new, hnew, hrecords⟩ := h.records
    rw [hrecords] at hr
    split at hr
    · rcases List.mem_cons.mp hr with rfl | hr
      · exact Or.inl hnew
      · exact Or.inr (Or.inr (Or.inr (Or.inr ⟨i, r, hr, rfl⟩)))
    · exact Or.inr (Or.inr (Or.inr (Or.inr ⟨i, r, hr, rfl⟩)))

theorem Inv.added (h : Inv randomKey item s) {a : ℕ} {placed : Option TempType}
    (ha : a ∉ s.made) (hplaced : ∀ t ∈ placed, (item a).type = .ban t)
    (hs : Added randomKey item s s' a placed) : Inv randomKey item s' := by
  have habsent : ¬ s.Present a := fun hp => ha (h.made a (Or.inl hp))
  have hunflagged : a ∉ s.flagged := fun hf => ha (h.made a (Or.inr (Or.inl hf)))
  obtain ⟨new, hnew, hrecords⟩ := hs.records
  have hflag {b : ℕ} (hb : b ∈ s.flagged) : b ∈ s'.flagged := by
    rw [hs.flagged]
    split
    · exact Finset.mem_insert_of_mem hb
    · exact hb
  constructor
  · intro t b hb
    rw [hs.items] at hb
    split at hb
    · rename_i ht
      rcases List.mem_cons.mp hb with rfl | hb
      · exact ht.2
      · exact h.items t b hb
    · exact h.items t b hb
  · intro t
    rw [hs.items]
    split
    · exact List.nodup_cons.mpr ⟨fun hmem => habsent (Or.inl ⟨t, hmem⟩), h.itemsNodup t⟩
    · exact h.itemsNodup t
  · intro t b hb
    rw [hs.items] at hb
    split at hb
    · rename_i ht
      exact ht.2 ▸ ht.1
    · exact h.unlisted t b hb
  · intro l b hb
    rw [hs.temporary] at hb
    split at hb
    · rename_i hl
      rcases List.mem_cons.mp hb with rfl | hb
      · obtain ⟨t, ht, rfl⟩ := Option.map_eq_some_iff.mp hl
        rw [hs.flagged, ht]
        exact ⟨Finset.mem_insert_self b _, t, hplaced t ht, rfl⟩
      · exact (h.temporary l b hb).imp_left hflag
    · exact (h.temporary l b hb).imp_left hflag
  · intro l
    rw [hs.temporary]
    split
    · exact List.nodup_cons.mpr
        ⟨fun hmem => habsent (Or.inr (Or.inl ⟨l, hmem⟩)), h.temporaryNodup l⟩
    · exact h.temporaryNodup l
  · intro i b hb
    rw [hs.resv] at hb
    split at hb
    · rename_i hi
      rcases List.mem_cons.mp hb with rfl | hb
      · exact hi
      · exact h.resv i b hb
    · exact h.resv i b hb
  · intro i
    rw [hs.resv]
    split
    · exact List.nodup_cons.mpr
        ⟨fun hmem => habsent (Or.inr (Or.inr (Or.inl ⟨i, hmem⟩))), h.resvNodup i⟩
    · exact h.resvNodup i
  · intro i r hr
    rw [hrecords] at hr
    split at hr
    · rename_i hi
      rcases List.mem_cons.mp hr with rfl | hr
      · rw [hnew]
        exact hi
      · exact h.records i r hr
    · exact h.records i r hr
  · intro i
    rw [hrecords]
    split
    · rw [List.map_cons, hnew]
      refine List.nodup_cons.mpr ⟨fun hmem => ?_, h.recordsNodup i⟩
      obtain ⟨r, hr, hra⟩ := List.mem_map.mp hmem
      exact habsent (Or.inr (Or.inr (Or.inr ⟨i, r, hr, hra⟩)))
    · exact h.recordsNodup i
  · intro l b hb haddress
    have hold (hb : b ∈ s.temporary l) : ∃ r ∈ s'.table.atable (chainOf item b), r.aconf = b := by
      obtain ⟨r, hr, hra⟩ := h.inForce l b hb haddress
      refine ⟨r, ?_, hra⟩
      rw [hrecords]
      split
      · exact List.mem_cons_of_mem new hr
      · exact hr
    rw [hs.temporary] at hb
    split at hb
    · rcases List.mem_cons.mp hb with rfl | hb
      · refine ⟨new, ?_, hnew⟩
        rw [hrecords, if_pos ⟨haddress, rfl⟩]
        exact List.mem_cons_self
      · exact hold hb
    · exact hold hb
  · intro b hb hlisted
    rw [hs.items]
    rcases hs.present hb with rfl | hb
    · rw [if_pos ⟨hlisted, rfl⟩]
      exact List.mem_cons_self
    · split
      · exact List.mem_cons_of_mem a (h.filed b hb hlisted)
      · exact h.filed b hb hlisted
  · intro b hb hflagged
    rcases hs.present hb with rfl | hb
    · rw [hs.flagged] at hflagged
      cases placed with
      | none => exact absurd hflagged hunflagged
      | some t =>
          refine ⟨t, hplaced t rfl, ?_⟩
          rw [hs.temporary, Option.map_some, if_pos rfl]
          exact List.mem_cons_self
    · have hne : b ≠ a := fun hba => habsent (hba ▸ hb)
      have hold : b ∈ s.flagged := by
        rw [hs.flagged] at hflagged
        split at hflagged
        · exact Finset.mem_of_mem_insert_of_ne hflagged hne
        · exact hflagged
      obtain ⟨t, htype, hmem⟩ := h.standing b hb hold
      refine ⟨t, htype, ?_⟩
      rw [hs.temporary]
      split
      · exact List.mem_cons_of_mem a hmem
      · exact hmem
  · intro t b hb hillegal
    rw [hs.illegal] at hillegal
    rw [hs.items] at hb
    split at hb
    · rcases List.mem_cons.mp hb with rfl | hb
      · exact ha (h.made b (Or.inr (Or.inr (Or.inl hillegal))))
      · exact h.legal t b hb hillegal
    · exact h.legal t b hb hillegal
  · intro b hb hpresent
    rw [hs.freed] at hb
    rcases hs.present hpresent with rfl | hpresent
    · exact ha (h.made b (Or.inr (Or.inr (Or.inr hb))))
    · exact h.freed b hb hpresent
  · intro b hb
    rw [hs.made, Finset.mem_insert, or_iff_not_imp_left]
    intro hne
    refine h.made b ?_
    rw [hs.illegal, hs.freed] at hb
    refine hb.imp (fun hp => (hs.present hp).resolve_left hne) (Or.imp_left fun hf => ?_)
    rw [hs.flagged] at hf
    split at hf
    · exact Finset.mem_of_mem_insert_of_ne hf hne
    · exact hf

variable (randomKey item) in
/-- The lists and the table of channels behind `make_conf_item`. -/
theorem makeItem_spec (s : RehashConf) (a : ℕ) :
    (∀ t, (s.makeItem randomKey item a).confItems t =
      if (item a).type.isAddress = false ∧ (item a).type = t then a :: s.confItems t
      else s.confItems t) ∧
    (∀ i, (s.makeItem randomKey item a).resvTable i =
      if (item a).type = .ban .cresv ∧ strhash randomKey (item a).name = i then
        a :: s.resvTable i
      else s.resvTable i) ∧
    s.makeItem randomKey item a =
      { s with
        made := insert a s.made
        confItems := (s.makeItem randomKey item a).confItems
        resvTable := (s.makeItem randomKey item a).resvTable } := by
  have hitems (t : RehashType) : Function.update s.confItems (item a).type
      (a :: s.confItems (item a).type) t =
        if (item a).type = t then a :: s.confItems t else s.confItems t := by
    by_cases ht : (item a).type = t
    · rw [if_pos ht, ← ht, Function.update_self]
    · rw [if_neg ht, Function.update_of_ne (Ne.symm ht)]
  rw [makeItem]
  cases haddress : (item a).type.isAddress with
  | true =>
      have hne : (item a).type ≠ .ban .cresv := by
        intro h
        rw [h] at haddress
        exact absurd haddress.symm (by decide)
      refine ⟨fun t => ?_, fun i => ?_, rfl⟩
      · exact (if_neg fun h => absurd h.1.symm Bool.false_ne_true).symm
      · exact (if_neg fun h => hne h.1).symm
  | false =>
      dsimp only
      rw [if_neg Bool.false_ne_true]
      by_cases hcresv : (item a).type = .ban .cresv
      · rw [if_pos hcresv]
        refine ⟨fun t => ?_, fun i => ?_, rfl⟩
        · exact (hitems t).trans (if_congr (and_iff_right rfl).symm rfl rfl)
        · refine (HashChain.insert_apply _ _ _ _).trans ?_
          by_cases hi : i = strhash randomKey (item a).name
          · rw [if_pos hi, if_pos ⟨hcresv, hi.symm⟩, hi]
          · rw [if_neg hi, if_neg fun h => hi h.2.symm]
      · rw [if_neg hcresv]
        refine ⟨fun t => ?_, fun i => (if_neg fun h => hcresv h.1).symm, rfl⟩
        exact (hitems t).trans (if_congr (and_iff_right rfl).symm rfl rfl)

variable (item) in
/-- The chains behind `add_conf_by_address`, which items with an address go through. -/
theorem file_spec (s : RehashConf) (a : ℕ) {address : Bool}
    (haddress : (item a).type.isAddress = address) :
    (∃ r : AddressRec, r.aconf = a ∧
      ∀ i, (if address then s.addConfByAddress item a else s).table.atable i =
        if (item a).type.isAddress = true ∧ chainOf item a = i then r :: s.table.atable i
        else s.table.atable i) ∧
    (if address then s.addConfByAddress item a else s) =
      { s with table := (if address then s.addConfByAddress item a else s).table } := by
  cases address with
  | true =>
      have hinsert := HashChain.insert_apply s.table.atable (chainOf item a)
        ⟨fileMask (filedAddress (fun a => (item a).access) a), (item a).type.status,
          s.table.precValue, (item a).access.user, a⟩
      generalize hr : (⟨_, _, _, _, a⟩ : AddressRec) = r at hinsert
      refine ⟨⟨r, by rw [← hr], fun i => ?_⟩, rfl⟩
      refine Eq.trans ?_ ((hinsert i).trans ?_)
      · rw [← hr]
        rfl
      by_cases hi : i = chainOf item a
      · rw [if_pos hi, if_pos ⟨haddress, hi.symm⟩, hi]
      · rw [if_neg hi, if_neg fun h => hi h.2.symm]
  | false =>
      refine ⟨⟨⟨.hostname [], 0, 0, [], a⟩, rfl, fun i => ?_⟩, rfl⟩
      rw [haddress, if_neg Bool.false_ne_true, if_neg fun h => Bool.false_ne_true h.1]

theorem added_load (s : RehashConf) (a : ℕ) :
    Added randomKey item s (s.load randomKey item a) a none := by
  obtain ⟨hitems, hresv, hmake⟩ := makeItem_spec randomKey item s a
  rw [load]
  obtain ⟨⟨r, hr, hrecords⟩, hfile⟩ := file_spec item (s.makeItem randomKey item a) a rfl
  generalize s.makeItem randomKey item a = s₁ at *
  have htable : s₁.table = s.table := by rw [hmake]
  rw [htable] at hrecords
  rw [hfile]
  refine ⟨hitems, fun l => ?_, hresv, ⟨r, hr, hrecords⟩, ?_, ?_, ?_, ?_⟩
  · rw [Option.map_none, if_neg (show ¬ (none : Option TempList) = some l from nofun)]
    dsimp only
    rw [hmake]
  · dsimp only
    rw [hmake]
    rfl
  all_goals
    dsimp only
    rw [hmake]

theorem added_addTempLine (s : RehashConf) {a : ℕ} {t : TempType} (ht : (item a).type = .ban t) :
    Added randomKey item s (s.addTempLine randomKey item a t) a (some t) := by
  obtain ⟨hitems, hresv, hmake⟩ := makeItem_spec randomKey item s a
  have haddress : (item a).type.isAddress = t.isAddress := by
    rw [ht]
    rfl
  rw [addTempLine]
  generalize s.makeItem randomKey item a = s₁ at *
  obtain ⟨⟨r, hr, hrecords⟩, hfile⟩ := file_spec item
    { s₁ with
      flagged := insert a s₁.flagged
      temporary := Function.update s₁.temporary t.list (a :: s₁.temporary t.list) } a haddress
  have htable : s₁.table = s.table := by rw [hmake]
  dsimp only at hrecords
  rw [hfile]
  refine ⟨hitems, fun l => ?_, hresv, ⟨r, hr, fun i => (hrecords i).trans (by rw [htable])⟩,
    ?_, ?_, ?_, ?_⟩
  · dsimp only
    rw [Option.map_some, show s₁.temporary = s.temporary by rw [hmake]]
    by_cases hl : t.list = l
    · rw [if_pos (congrArg some hl), ← hl, Function.update_self]
    · rw [if_neg fun h => hl (Option.some.inj h), Function.update_of_ne (Ne.symm hl)]
  · dsimp only
    rw [hmake]
    rfl
  all_goals
    dsimp only
    rw [hmake]

theorem inv_start : Inv randomKey item start := by
  have habsent (a : ℕ) : ¬ start.Present a := by
    rintro (⟨t, h⟩ | ⟨l, h⟩ | ⟨i, h⟩ | ⟨i, r, h, -⟩) <;> exact absurd h List.not_mem_nil
  refine ⟨fun t a ha => absurd ha List.not_mem_nil, fun t => List.nodup_nil,
    fun t a ha => absurd ha List.not_mem_nil, fun l a ha => absurd ha List.not_mem_nil,
    fun l => List.nodup_nil, fun i a ha => absurd ha List.not_mem_nil, fun i => List.nodup_nil,
    fun i r hr => absurd hr List.not_mem_nil, fun i => List.nodup_nil,
    fun l a ha => absurd ha List.not_mem_nil, fun a ha => absurd ha (habsent a),
    fun a ha => absurd ha (habsent a), fun t a ha => absurd ha List.not_mem_nil,
    fun a ha => absurd ha (Finset.notMem_empty a), fun a ha => ?_⟩
  rcases ha with ha | ha | ha | ha
  · exact absurd ha (habsent a)
  all_goals exact absurd ha (Finset.notMem_empty a)

theorem inv_of_reachable (h : Reachable randomKey item s) : Inv randomKey item s := by
  induction h with
  | start => exact inv_start
  | load _ ha ih => exact ih.added ha (fun t ht => absurd ht (Option.not_mem_none t)) (added_load _ _)
  | addTempLine _ ha ht ih =>
      refine ih.added ha (fun t' ht' => ?_) (added_addTempLine _ ht)
      rw [← Option.some.inj ht']
      exact ht
  | attach _ _ ih =>
      exact ⟨ih.items, ih.itemsNodup, ih.unlisted, ih.temporary, ih.temporaryNodup, ih.resv,
        ih.resvNodup, ih.records, ih.recordsNodup, ih.inForce, ih.filed, ih.standing, ih.legal,
        ih.freed, ih.made⟩
  | clear _ ih => exact ih.removed (removed_clearOutOldConf ih)

/-- The temporary items of the address table. -/
def temporaryTable (s : RehashConf) : ConfTable :=
  { s.table with
    atable := fun i => (s.table.atable i).filter fun r => decide (r.aconf ∈ s.flagged) }

/-- What a rehash is to keep: the temporary bans, each once and in their order, in their lists, the
address table and the table of channels. What is permanent is freed, or illegal while a client has
it, and nothing refers to what is freed. -/
structure KeepsTemporary (item : ℕ → RehashItem) (s s' : RehashConf) : Prop where
  temporary : s'.temporary = s.temporary
  items : ∀ t, s'.confItems t = (s.confItems t).filter fun a => decide (a ∈ s.flagged)
  records : s'.table.atable = s.temporaryTable.atable
  resv : ∀ i, s'.resvTable i = (s.resvTable i).filter fun a => decide (a ∈ s.flagged)
  once : (∀ l, (s'.temporary l).Nodup) ∧ (∀ t, (s'.confItems t).Nodup) ∧
    (∀ i, (s'.resvTable i).Nodup) ∧ ∀ i, ((s'.table.atable i).map AddressRec.aconf).Nodup
  inForce : ∀ l, ∀ a ∈ s'.temporary l, ((item a).type.isAddress = false →
    a ∈ s'.confItems (item a).type) ∧ ((item a).type.isAddress = true →
      ∃ r ∈ s'.table.atable (chainOf item a), r.aconf = a)
  lookups : ∀ crypt q, s'.table.findConfByAddress crypt (fun a => (item a).access) q =
    s.temporaryTable.findConfByAddress crypt (fun a => (item a).access) q
  permanent : ∀ a, s.Present a → a ∉ s.flagged →
    a ∈ s'.freed ∨ a ∈ s'.illegal ∧ s.count a ≠ 0
  dangling : ∀ a ∈ s'.freed, ¬ s'.Present a

/-- A rehash keeps the temporary bans exactly when none of them is a reservation. -/
theorem keepsTemporary_iff (h : Reachable randomKey item s) :
    KeepsTemporary item s (s.clearOutOldConf randomKey item) ↔ s.temporary .resv = [] := by
  have hinv := inv_of_reachable h
  have hr := removed_clearOutOldConf hinv
  have hinv' := hinv.removed hr
  constructor
  · intro hkeeps
    rw [← hkeeps.temporary, hr.temporary, List.filter_eq_nil_iff]
    intro a ha
    obtain ⟨-, t, htype, hl⟩ := hinv.temporary .resv a ha
    have hresv : (item a).type = .ban .nresv ∨ (item a).type = .ban .cresv := by
      rw [htype]
      cases t <;> first
        | exact Or.inl rfl
        | exact Or.inr rfl
        | exact nomatch hl
    rw [cleared, decide_eq_true hresv]
    exact Bool.false_ne_true
  · intro hnone
    have hcleared (a : ℕ) (ha : s.Present a) :
        (!cleared item s.flagged a) = decide (a ∈ s.flagged) := by
      by_cases hflag : a ∈ s.flagged
      · obtain ⟨t, htype, hmem⟩ := hinv.standing a ha hflag
        rw [cleared, decide_eq_true hflag, htype]
        cases t with
        | nresv | cresv => exact absurd (hnone ▸ hmem) List.not_mem_nil
        | gline | kline | dline | xline | rxline | rkline => rfl
      · rw [cleared, decide_eq_false hflag, Bool.not_false, Bool.or_true, Bool.not_true]
    have hrecords : (s.clearOutOldConf randomKey item).table.atable = s.temporaryTable.atable := by
      funext i
      rw [hr.records]
      exact List.filter_congr fun r hmem =>
        hcleared r.aconf (Or.inr (Or.inr (Or.inr ⟨i, r, hmem, rfl⟩)))
    refine ⟨?_, fun t => ?_, hrecords, fun i => ?_, ⟨hinv'.temporaryNodup, hinv'.itemsNodup,
      hinv'.resvNodup, hinv'.recordsNodup⟩, fun l a ha => ⟨hinv'.filed a (Or.inr (Or.inl ⟨l, ha⟩)),
        hinv'.inForce l a ha⟩, fun crypt q => ?_, fun a ha hflag => ?_, hinv'.freed⟩
    · funext l
      rw [hr.temporary]
      refine List.filter_eq_self.mpr fun a ha => ?_
      rw [hcleared a (Or.inr (Or.inl ⟨l, ha⟩))]
      exact decide_eq_true (hinv.temporary l a ha).1
    · rw [hr.items]
      exact List.filter_congr fun a ha => hcleared a (Or.inl ⟨t, ha⟩)
    · rw [hr.resv]
      exact List.filter_congr fun a ha => hcleared a (Or.inr (Or.inr (Or.inl ⟨i, ha⟩)))
    · rw [ConfTable.findConfByAddress, ConfTable.findConfByAddress, hrecords]
    · refine hr.fate a ha ?_
      rw [cleared, decide_eq_false hflag, Bool.not_false, Bool.or_true]

/-- The same ban at every address. -/
def bansOf (t : TempType) (_ : ℕ) : RehashItem :=
  ⟨.ban t, ⟨"10.0.0.1".toList, ['*'], none, false, false⟩, ['x']⟩

theorem keepsTemporary_iff_kline :
    KeepsTemporary (bansOf .kline) (start.addTempLine 0 (bansOf .kline) 0 .kline)
      ((start.addTempLine 0 (bansOf .kline) 0 .kline).clearOutOldConf 0 (bansOf .kline)) ↔
        (start.addTempLine 0 (bansOf .kline) 0 .kline).temporary .resv = [] :=
  keepsTemporary_iff (.addTempLine .start (Finset.notMem_empty 0) rfl)

/-- The reservation of a nick does not stay. -/
theorem not_forall_keepsTemporary : ¬ ∀ randomKey item s, Reachable randomKey item s →
    KeepsTemporary item s (s.clearOutOldConf randomKey item) := by
  intro h
  have hreachable : Reachable 0 (bansOf .nresv) (start.addTempLine 0 (bansOf .nresv) 0 .nresv) :=
    .addTempLine .start (Finset.notMem_empty 0) rfl
  have hkeeps := (h 0 (bansOf .nresv) _ hreachable).temporary
  have hr := (removed_clearOutOldConf (inv_of_reachable hreachable)).temporary .resv
  rw [hkeeps] at hr
  exact absurd hr (by decide)

end RehashConf

end Unirc
