import Unirc.ConfCounts

/-!
# The reference counts over a run

Three invariants, of the items and who has them, of the classes of the items, and of the list of
classes. An idle class is the class of no item, so freeing it leaves no pointer behind.
-/

namespace Unirc

namespace ConfCounts

open RefCount

variable {κ : Type*} [DecidableEq κ] [Fintype κ]

structure ItemsOk (items : ℕ → Option ConfItem) (confs : κ → List ℕ) : Prop where
  nodup : ∀ k, (confs k).Nodup
  allocated : ∀ k, ∀ a ∈ confs k, (items a).isSome
  count : ∀ a conf, items a = some conf → conf.count = refs confs (· = a)
  illegal : ∀ a conf, items a = some conf → conf.illegal = true → 0 < refs confs (· = a)

structure ClassesOk (items : ℕ → Option ConfItem) (classes : ℕ → Option ConfClass)
    (confs : κ → List ℕ) : Prop where
  classPtr : ∀ a conf, items a = some conf → conf.kind.isAccess = true →
    ∃ c, conf.classPtr = some c
  noClass : ∀ a conf, items a = some conf → conf.kind.isAccess = false → conf.classPtr = none
  allocated : ∀ a conf c, items a = some conf → conf.classPtr = some c →
    ∃ aclass, classes c = some aclass ∧ (conf.illegal = false → aclass.active = true)
  count : ∀ c aclass, classes c = some aclass →
    aclass.currUserCount = refs confs fun a => classIn items a = some c
  one : ∀ k c, (confs k).countP (fun a => classIn items a = some c) ≤ 1

structure TableOk (classes : ℕ → Option ConfClass) (classItems : List ℕ) : Prop where
  nodup : classItems.Nodup
  mem_iff : ∀ c, c ∈ classItems ↔ (classes c).isSome
  last : ∃ l, classItems = l ++ [classDefault]
  default : ∃ aclass, classes classDefault = some aclass ∧ aclass.active = true

structure Inv (s : ConfCounts κ) : Prop where
  items : ItemsOk s.items s.confs
  classes : ClassesOk s.items s.classes s.confs
  table : TableOk s.classes s.classItems
  fresh : ∀ a, s.next ≤ a → s.items a = none ∧ s.classes a = none

/-- What is allocated was allocated, with the same class, and is illegal if it was. -/
def Renewed (items items' : ℕ → Option ConfItem) : Prop :=
  ∀ a conf', items' a = some conf' → ∃ conf, items a = some conf ∧ conf'.kind = conf.kind ∧
    conf'.classPtr = conf.classPtr ∧ (conf.illegal = true → conf'.illegal = true)

variable {items items' items'' : ℕ → Option ConfItem} {classes classes' : ℕ → Option ConfClass}
  {confs : κ → List ℕ} {classItems : List ℕ} {a c : ℕ} {conf : ConfItem} {aclass : ConfClass}
  {k : κ} {s s' : ConfCounts κ}

omit [DecidableEq κ] in
theorem Inv.counted (h : s.Inv) : s.Counted where
  items a conf hconf := by
    rw [h.items.count a conf hconf, refs_eq_holders fun k => countP_eq_le_one (h.items.nodup k)]
  classes c aclass hclass := by
    rw [h.classes.count c aclass hclass, refs_eq_holders fun k => h.classes.one k c]
    rfl
  allocated := h.items.allocated
  illegal a conf hconf hill := by
    obtain ⟨k, b, hb, rfl⟩ := refs_pos_iff.mp (h.items.illegal a conf hconf hill)
    exact ⟨k, hb⟩

theorem Renewed.refl (items : ℕ → Option ConfItem) : Renewed items items :=
  fun _ conf h => ⟨conf, h, rfl, rfl, id⟩

theorem Renewed.trans (h : Renewed items items') (h' : Renewed items' items'') :
    Renewed items items'' := by
  intro a conf'' hconf''
  obtain ⟨conf', hconf', hkind', hclass', hill'⟩ := h' a conf'' hconf''
  obtain ⟨conf, hconf, hkind, hclass, hill⟩ := h a conf' hconf'
  exact ⟨conf, hconf, hkind'.trans hkind, hclass'.trans hclass, fun hi => hill' (hill hi)⟩

theorem Renewed.classIn (h : Renewed items items') (ha : (items' a).isSome) :
    classIn items' a = classIn items a := by
  obtain ⟨conf', hconf'⟩ := Option.isSome_iff_exists.mp ha
  obtain ⟨conf, hconf, -, hclass, -⟩ := h a conf' hconf'
  simp [ConfCounts.classIn, hconf, hconf', hclass]

omit [DecidableEq κ] in
/-- An illegal item that is allocated before and after the step has a client. -/
theorem FreedAtZero.of_renewed (h' : s'.Inv)
    (hillegal : ∀ a conf, s.items a = some conf → conf.illegal = true →
      ∀ conf', s'.items a = some conf' → conf'.illegal = true) : FreedAtZero s s' := by
  intro a conf hconf hill
  rw [← refs_eq_holders fun k => countP_eq_le_one (h'.items.nodup k)]
  constructor
  · intro hnone
    by_contra hpos
    obtain ⟨k, b, hb, rfl⟩ := refs_pos_iff.mp (Nat.pos_of_ne_zero hpos)
    have halloc := h'.items.allocated k b hb
    rw [hnone] at halloc
    cases halloc
  · intro hzero
    cases hconf' : s'.items a with
    | none => rfl
    | some conf' =>
        exact absurd hzero
          (h'.items.illegal a conf' hconf' (hillegal a conf hconf hill conf' hconf')).ne'

/-! ### An item is attached -/

theorem renewed_update (hconf : items a = some conf) (n : ℤ) :
    Renewed items (Function.update items a (some { conf with count := n })) := by
  intro b conf' hconf'
  by_cases hb : b = a
  · subst hb
    rw [Function.update_self, Option.some.injEq] at hconf'
    subst hconf'
    exact ⟨conf, hconf, rfl, rfl, id⟩
  · rw [Function.update_of_ne hb] at hconf'
    exact ⟨conf', hconf', rfl, rfl, id⟩

theorem ItemsOk.attach (h : ItemsOk items confs) (ha : a ∉ confs k) (hconf : items a = some conf) :
    ItemsOk (Function.update items a (some { conf with count := conf.count + 1 }))
      (hold confs k a) where
  nodup := nodup_hold h.nodup ha
  allocated j b hb := by
    by_cases hba : b = a
    · simp [hba]
    · rw [Function.update_of_ne hba]
      exact h.allocated j b ((mem_hold.mp hb).resolve_left fun hj => hba hj.2)
  count b conf' hconf' := by
    rw [refs_hold]
    by_cases hba : b = a
    · subst hba
      rw [Function.update_self, Option.some.injEq] at hconf'
      subst hconf'
      simp [h.count b conf hconf]
    · rw [Function.update_of_ne hba] at hconf'
      simp [h.count b conf' hconf', Ne.symm hba]
  illegal b conf' hconf' hill := by
    rw [refs_hold]
    by_cases hba : b = a
    · simp [hba]
    · rw [Function.update_of_ne hba] at hconf'
      have := h.illegal b conf' hconf' hill
      omega

omit [DecidableEq κ] in
/-- The items are renewed and every attached one is allocated. -/
theorem ClassesOk.renew (h : ClassesOk items classes confs) (hr : Renewed items items')
    (halloc : ∀ k, ∀ a ∈ confs k, (items' a).isSome) : ClassesOk items' classes confs where
  classPtr a conf' hconf' haccess := by
    obtain ⟨conf, hconf, hkind, hclass, -⟩ := hr a conf' hconf'
    rw [hclass]
    exact h.classPtr a conf hconf (hkind ▸ haccess)
  noClass a conf' hconf' haccess := by
    obtain ⟨conf, hconf, hkind, hclass, -⟩ := hr a conf' hconf'
    rw [hclass]
    exact h.noClass a conf hconf (hkind ▸ haccess)
  allocated a conf' c hconf' hc := by
    obtain ⟨conf, hconf, -, hclass, hill⟩ := hr a conf' hconf'
    obtain ⟨aclass, haclass, hactive⟩ := h.allocated a conf c hconf (hclass ▸ hc)
    refine ⟨aclass, haclass, fun hlegal => hactive ?_⟩
    exact Bool.eq_false_iff.mpr fun hi => by simp [hill hi] at hlegal
  count c aclass haclass := by
    rw [h.count c aclass haclass]
    exact congrArg _ (refs_congr fun k a ha => by rw [hr.classIn (halloc k a ha)])
  one k c := by
    refine le_trans (le_of_eq (List.countP_congr fun a ha => ?_)) (h.one k c)
    rw [hr.classIn (halloc k a ha)]

/-- An item without a class is attached. -/
theorem ClassesOk.attachMatch (h : ClassesOk items classes confs)
    (ha : classIn items a = none) : ClassesOk items classes (hold confs k a) where
  classPtr := h.classPtr
  noClass := h.noClass
  allocated := h.allocated
  count c aclass haclass := by
    rw [h.count c aclass haclass, refs_hold, if_neg (by simp [ha]), Nat.add_zero]
  one j c := by
    by_cases hj : j = k
    · subst hj
      rw [hold_self, List.countP_cons_of_neg (by simp [ha])]
      exact h.one j c
    · rw [hold_of_ne hj]
      exact h.one j c

omit [DecidableEq κ] in
/-- A class changes together with the references to it. -/
theorem ClassesOk.setClass {confs' : κ → List ℕ} {aclass' : ConfClass}
    (h : ClassesOk items classes confs) (haclass : classes c = some aclass)
    (hactive : aclass.active = true → aclass'.active = true)
    (hcount : aclass'.currUserCount = refs confs' fun a => classIn items a = some c)
    (hother : ∀ c', c' ≠ c → refs confs' (fun a => classIn items a = some c') =
      refs confs fun a => classIn items a = some c')
    (hone : ∀ k c, (confs' k).countP (fun a => classIn items a = some c) ≤ 1) :
    ClassesOk items (Function.update classes c (some aclass')) confs' where
  classPtr := h.classPtr
  noClass := h.noClass
  allocated b conf c' hconf hc' := by
    obtain ⟨aclass₀, haclass₀, hactive₀⟩ := h.allocated b conf c' hconf hc'
    by_cases hcc : c' = c
    · subst hcc
      rw [haclass, Option.some.injEq] at haclass₀
      subst haclass₀
      exact ⟨_, Function.update_self .., fun hlegal => hactive (hactive₀ hlegal)⟩
    · exact ⟨aclass₀, by rw [Function.update_of_ne hcc]; exact haclass₀, hactive₀⟩
  count c' aclass₀ haclass₀ := by
    by_cases hcc : c' = c
    · subst hcc
      rw [Function.update_self, Option.some.injEq] at haclass₀
      subst haclass₀
      exact hcount
    · rw [Function.update_of_ne hcc] at haclass₀
      rw [h.count c' aclass₀ haclass₀, hother c' hcc]
  one := hone

theorem ClassesOk.attachAccess (h : ClassesOk items classes confs) (ha : classIn items a = some c)
    (hnew : a ∉ confs k) (haclass : classes c = some aclass)
    (hone : ∀ b ∈ confs k, classIn items b = some c → b = a) :
    ClassesOk items
      (Function.update classes c
        (some { aclass with currUserCount := aclass.currUserCount + 1 })) (hold confs k a) := by
  refine h.setClass haclass id ?_ (fun c' hc' => ?_) fun j c' => ?_
  · rw [refs_hold, if_pos ha, h.count c aclass haclass, Nat.cast_add, Nat.cast_one]
  · rw [refs_hold, if_neg (by simpa [ha] using Ne.symm hc'), Nat.add_zero]
  · by_cases hj : j = k
    · subst hj
      rw [hold_self]
      by_cases hcc : c' = c
      · subst hcc
        have hzero : (confs j).countP (fun b => classIn items b = some c') = 0 :=
          List.countP_eq_zero.mpr fun b hb hb' =>
            hnew (hone b hb (by simpa using hb') ▸ hb)
        rw [List.countP_cons, hzero]
        split <;> omega
      · rw [List.countP_cons_of_neg (by simpa [ha] using Ne.symm hcc)]
        exact h.one j c'
    · rw [hold_of_ne hj]
      exact h.one j c'

/-- A table that changes the counts of a class. -/
theorem TableOk.setClass (h : TableOk classes classItems) (haclass : classes c = some aclass)
    {aclass' : ConfClass} (hactive : aclass.active = true → aclass'.active = true) :
    TableOk (Function.update classes c (some aclass')) classItems where
  nodup := h.nodup
  mem_iff c' := by
    rw [h.mem_iff]
    by_cases hcc : c' = c
    · subst hcc
      simp [haclass]
    · rw [Function.update_of_ne hcc]
  last := h.last
  default := by
    obtain ⟨dclass, hdclass, hdactive⟩ := h.default
    by_cases hcc : classDefault = c
    · subst hcc
      rw [haclass, Option.some.injEq] at hdclass
      subst hdclass
      exact ⟨aclass', Function.update_self .., hactive hdactive⟩
    · exact ⟨dclass, by rw [Function.update_of_ne hcc]; exact hdclass, hdactive⟩

theorem Inv.attachConf (h : s.Inv) (tooMany : Bool) (hposs : (s.items a).isSome)
    (htracked : s.Tracked (.attach k a tooMany)) :
    ∃ s', s.attachConf k a tooMany = some s' ∧ s'.Inv ∧ Renewed s.items s'.items := by
  obtain ⟨conf, hconf⟩ := Option.isSome_iff_exists.mp hposs
  rw [ConfCounts.attachConf]
  by_cases ha : a ∈ s.confs k
  · rw [if_pos ha]
    exact ⟨s, rfl, h, Renewed.refl _⟩
  rw [if_neg ha, hconf, Option.bind_some]
  by_cases href : refused conf tooMany = true
  · rw [if_pos href]
    exact ⟨s, rfl, h, Renewed.refl _⟩
  rw [if_neg href]
  have hrenew := renewed_update hconf (conf.count + 1)
  have hitems := h.items.attach ha hconf
  have hclasses := h.classes.renew hrenew fun j b hb =>
    hitems.allocated j b (mem_hold.mpr (.inr hb))
  have hclass : classIn (Function.update s.items a (some { conf with count := conf.count + 1 })) a =
      conf.classPtr := by simp [classIn]
  have hfresh (b : ℕ) (hb : s.next ≤ b) :
      Function.update s.items a (some { conf with count := conf.count + 1 }) b = none := by
    have hba : b ≠ a := by
      rintro rfl
      rw [(h.fresh b hb).1] at hconf
      cases hconf
    rw [Function.update_of_ne hba]
    exact (h.fresh b hb).1
  cases haccess : conf.kind.isAccess with
  | false =>
      rw [if_neg (by simp)]
      refine ⟨_, rfl, ⟨hitems, hclasses.attachMatch ?_, h.table,
        fun b hb => ⟨hfresh b hb, ?_⟩⟩, hrenew⟩
      · exact hclass.trans (h.classes.noClass a conf hconf haccess)
      · exact (h.fresh b hb).2
  | true =>
      obtain ⟨c, hc⟩ := h.classes.classPtr a conf hconf haccess
      obtain ⟨aclass, haclass, hactive⟩ := h.classes.allocated a conf c hconf hc
      rw [if_pos rfl]
      have hone (b : ℕ) (hb : b ∈ s.confs k) (hbc : classIn (Function.update s.items a
          (some { conf with count := conf.count + 1 })) b = some c) : b = a := by
        by_contra hba
        refine hba (htracked conf hconf (Bool.eq_false_iff.mpr href) c hc b hb ?_)
        rwa [classIn, Function.update_of_ne hba] at hbc
      refine ⟨_, Option.bind_eq_some_iff.mpr
        ⟨c, hc, Option.map_eq_some_iff.mpr ⟨aclass, haclass, rfl⟩⟩,
        ⟨hitems, hclasses.attachAccess (hclass.trans hc) ha haclass hone,
          h.table.setClass haclass id, fun b hb => ⟨hfresh b hb, ?_⟩⟩, hrenew⟩
      have hbc : b ≠ c := by
        rintro rfl
        rw [(h.fresh b hb).2] at haclass
        cases haclass
      exact (Function.update_of_ne hbc ..).trans (h.fresh b hb).2

/-! ### Items are detached -/

/-- What is left of an item with one client less. -/
def released (conf : ConfItem) : Option ConfItem :=
  if conf.count - 1 = 0 ∧ conf.illegal = true then none
  else some { conf with count := conf.count - 1 }

theorem released_eq_some {conf' : ConfItem} (h : released conf = some conf') :
    conf' = { conf with count := conf.count - 1 } ∧
      (conf.illegal = true → conf.count - 1 ≠ 0) := by
  rw [released] at h
  split at h
  · cases h
  · rename_i hkeep
    exact ⟨(Option.some.inj h).symm, fun hill hzero => hkeep ⟨hzero, hill⟩⟩

theorem renewed_released (hconf : items a = some conf) :
    Renewed items (Function.update items a (released conf)) := by
  intro b conf' hconf'
  by_cases hb : b = a
  · subst hb
    rw [Function.update_self] at hconf'
    obtain ⟨rfl, -⟩ := released_eq_some hconf'
    exact ⟨conf, hconf, rfl, rfl, id⟩
  · rw [Function.update_of_ne hb] at hconf'
    exact ⟨conf', hconf', rfl, rfl, id⟩

theorem ItemsOk.detach (h : ItemsOk items confs) (ha : a ∈ confs k) (hconf : items a = some conf) :
    ItemsOk (Function.update items a (released conf)) (drop confs k a) := by
  have hself := refs_drop (p := (· = a)) ha
  rw [if_pos rfl] at hself
  have hcount : conf.count - 1 = refs (drop confs k a) (· = a) := by
    rw [h.count a conf hconf, ← hself]
    push_cast
    exact Int.add_sub_cancel ..
  have hother (b : ℕ) (hb : b ≠ a) : refs (drop confs k a) (· = b) = refs confs (· = b) := by
    have hdrop := refs_drop (p := (· = b)) ha
    rwa [if_neg (Ne.symm hb), Nat.add_zero] at hdrop
  refine ⟨nodup_drop h.nodup, fun j b hb => ?_, fun b conf' hconf' => ?_,
    fun b conf' hconf' hill => ?_⟩
  · by_cases hba : b = a
    · subst hba
      have hpos : 0 < refs (drop confs k b) (· = b) := refs_pos_iff.mpr ⟨j, b, hb, rfl⟩
      rw [Function.update_self, released, if_neg fun hzero => by omega]
      rfl
    · rw [Function.update_of_ne hba]
      exact h.allocated j b (mem_of_mem_drop hb)
  · by_cases hba : b = a
    · subst hba
      rw [Function.update_self] at hconf'
      obtain ⟨rfl, -⟩ := released_eq_some hconf'
      exact hcount
    · rw [Function.update_of_ne hba] at hconf'
      rw [hother b hba]
      exact h.count b conf' hconf'
  · by_cases hba : b = a
    · subst hba
      rw [Function.update_self] at hconf'
      obtain ⟨rfl, hne⟩ := released_eq_some hconf'
      have := hne hill
      omega
    · rw [Function.update_of_ne hba] at hconf'
      rw [hother b hba]
      exact h.illegal b conf' hconf' hill

theorem ClassesOk.detach (h : ClassesOk items classes confs) (ha : a ∈ confs k)
    (hc : classIn items a = some c) (haclass : classes c = some aclass) :
    ClassesOk items
      (Function.update classes c
        (some { aclass with currUserCount := aclass.currUserCount - 1 })) (drop confs k a) := by
  refine h.setClass haclass id ?_ (fun c' hc' => ?_) fun j c' => ?_
  · have hdrop := refs_drop (p := fun a => classIn items a = some c) ha
    rw [if_pos hc] at hdrop
    rw [h.count c aclass haclass, ← hdrop]
    push_cast
    exact Int.add_sub_cancel ..
  · have hdrop := refs_drop (p := fun a => classIn items a = some c') ha
    rwa [if_neg (by simpa [hc] using Ne.symm hc'), Nat.add_zero] at hdrop
  · by_cases hj : j = k
    · subst hj
      rw [drop_self]
      exact ((List.erase_sublist).countP_le ..).trans (h.one j c')
    · rw [drop_of_ne hj]
      exact h.one j c'

omit [DecidableEq κ] in
/-- Classes that are not active and have no users are freed. -/
theorem ClassesOk.prune (h : ClassesOk items classes confs) (hitems : ItemsOk items confs)
    (hsub : ∀ c aclass, classes' c = some aclass → classes c = some aclass)
    (hidle : ∀ c aclass, classes c = some aclass → classes' c = none →
      aclass.active = false ∧ aclass.currUserCount = 0) : ClassesOk items classes' confs where
  classPtr := h.classPtr
  noClass := h.noClass
  allocated a conf c hconf hc := by
    obtain ⟨aclass, haclass, hactive⟩ := h.allocated a conf c hconf hc
    cases hclass' : classes' c with
    | some aclass' =>
        rw [hsub c aclass' hclass', Option.some.injEq] at haclass
        subst haclass
        exact ⟨aclass', rfl, hactive⟩
    | none =>
        obtain ⟨hidle, hzero⟩ := hidle c aclass haclass hclass'
        have hill : conf.illegal = true := by
          by_contra hlegal
          rw [hactive (Bool.eq_false_iff.mpr hlegal)] at hidle
          cases hidle
        obtain ⟨k, b, hb, rfl⟩ := refs_pos_iff.mp (hitems.illegal a conf hconf hill)
        have hpos : 0 < refs confs fun a => classIn items a = some c :=
          refs_pos_iff.mpr ⟨k, b, hb, by simp [classIn, hconf, hc]⟩
        rw [h.count c aclass haclass] at hzero
        omega
  count c aclass haclass := h.count c aclass (hsub c aclass haclass)
  one := h.one

theorem TableOk.prune (h : TableOk classes classItems) {p : ℕ → Bool}
    (hp : ∀ c ∈ classItems, (classes' c).isSome = p c)
    (hsub : ∀ c aclass, classes' c = some aclass → classes c = some aclass)
    (hidle : ∀ c aclass, classes c = some aclass → classes' c = none → aclass.active = false) :
    TableOk classes' (classItems.filter p) := by
  obtain ⟨l, hl⟩ := h.last
  obtain ⟨dclass, hdclass, hdactive⟩ := h.default
  have hkeep : classes' classDefault = some dclass := by
    cases hd : classes' classDefault with
    | none =>
        rw [hidle _ dclass hdclass hd] at hdactive
        cases hdactive
    | some aclass => rw [← hdclass, hsub _ aclass hd]
  have hdefault : p classDefault = true := by
    rw [← hp _ ((h.mem_iff _).mpr (by simp [hdclass])), hkeep]
    rfl
  refine ⟨h.nodup.filter p, fun c => ?_, ⟨l.filter p, ?_⟩, dclass, hkeep, hdactive⟩
  · rw [List.mem_filter]
    constructor
    · rintro ⟨hc, hpc⟩
      rw [hp c hc, hpc]
    · intro hsome
      obtain ⟨aclass, haclass⟩ := Option.isSome_iff_exists.mp hsome
      have hc : c ∈ classItems := (h.mem_iff c).mpr (by simp [hsub c aclass haclass])
      exact ⟨hc, by rw [← hp c hc, hsome]⟩
  · rw [hl, List.filter_append, List.filter_cons_of_pos hdefault, List.filter_nil]

omit [DecidableEq κ] [Fintype κ] in
theorem releaseAccess_eq (s : ConfCounts κ) (a : ℕ) (conf : ConfItem) :
    s.releaseAccess a conf = s.setItem a (released conf) := by
  rw [releaseAccess, released]
  split <;> rfl

theorem isSome_update_none (hsome : (classes c).isSome) (c' : ℕ) :
    (Function.update classes c none c').isSome = ((classes c').isSome && c' != c) := by
  by_cases hcc : c' = c
  · subst hcc
    simp
  · simp [hcc]

omit [DecidableEq κ] in
/-- A class without active items and users is freed from the table. -/
theorem Inv.deleteClass (h : s.Inv) (haclass : s.classes c = some aclass)
    (hactive : aclass.active = false) (hzero : aclass.currUserCount = 0) :
    (s.deleteClass c).Inv := by
  have hsub (c' : ℕ) (aclass' : ConfClass)
      (h' : Function.update s.classes c none c' = some aclass') : s.classes c' = some aclass' := by
    by_cases hcc : c' = c
    · rw [hcc, Function.update_self] at h'
      cases h'
    · rwa [Function.update_of_ne hcc] at h'
  have hidle (c' : ℕ) (aclass' : ConfClass) (hclass' : s.classes c' = some aclass')
      (h' : Function.update s.classes c none c' = none) :
      aclass'.active = false ∧ aclass'.currUserCount = 0 := by
    by_cases hcc : c' = c
    · rw [hcc, haclass, Option.some.injEq] at hclass'
      exact hclass' ▸ ⟨hactive, hzero⟩
    · rw [Function.update_of_ne hcc, hclass'] at h'
      cases h'
  refine ⟨h.items, h.classes.prune h.items hsub hidle, ?_, fun b hb => ⟨(h.fresh b hb).1, ?_⟩⟩
  · rw [ConfCounts.deleteClass, h.table.nodup.erase_eq_filter]
    refine h.table.prune (fun c' hc' => ?_) hsub fun c' aclass' hc hn => (hidle c' aclass' hc hn).1
    rw [isSome_update_none (by simp [haclass]), (h.table.mem_iff c').mp hc', Bool.true_and]
  · by_cases hbc : b = c
    · rw [hbc]
      exact Function.update_self ..
    · exact (Function.update_of_ne hbc ..).trans (h.fresh b hb).2

/-- One item is taken off a client. -/
theorem Inv.release (h : s.Inv) (ha : a ∈ s.confs k) (hconf : s.items a = some conf)
    (haccess : conf.kind.isAccess = true) :
    ∃ s', ConfCounts.release { s with confs := drop s.confs k a } a conf = some s' ∧ s'.Inv ∧
      Renewed s.items s'.items ∧ s'.confs = drop s.confs k a := by
  obtain ⟨c, hc⟩ := h.classes.classPtr a conf hconf haccess
  obtain ⟨aclass, haclass, hactive⟩ := h.classes.allocated a conf c hconf hc
  have hitems := h.items.detach ha hconf
  have hrenew := renewed_released hconf
  have hclasses := (h.classes.detach ha (by simp [classIn, hconf, hc]) haclass).renew hrenew
    hitems.allocated
  have hcounted : ({ s with
      items := Function.update s.items a (released conf)
      classes := Function.update s.classes c
        (some { aclass with currUserCount := aclass.currUserCount - 1 })
      confs := drop s.confs k a } : ConfCounts κ).Inv := by
    refine ⟨hitems, hclasses, h.table.setClass haclass id, fun b hb => ⟨?_, ?_⟩⟩
    · have hba : b ≠ a := by
        rintro rfl
        rw [(h.fresh b hb).1] at hconf
        cases hconf
      exact (Function.update_of_ne hba ..).trans (h.fresh b hb).1
    · have hbc : b ≠ c := by
        rintro rfl
        rw [(h.fresh b hb).2] at haclass
        cases haclass
      exact (Function.update_of_ne hbc ..).trans (h.fresh b hb).2
  rw [ConfCounts.release, if_pos haccess, hc]
  dsimp only
  rw [releaseClass, haclass, Option.map_some, Option.map_some, releaseAccess_eq]
  by_cases hidle : aclass.currUserCount - 1 = 0 ∧ aclass.active = false
  · rw [if_pos hidle]
    refine ⟨_, rfl, ?_, hrenew, rfl⟩
    have hdelete := hcounted.deleteClass (Function.update_self ..) hidle.2 hidle.1
    simpa only [ConfCounts.deleteClass, setItem, Function.update_idem] using hdelete
  · rw [if_neg hidle]
    exact ⟨_, rfl, hcounted, hrenew, rfl⟩

theorem Inv.detachLoop (type : Option ConfKind) (k : κ) (as : List ℕ) (hnodup : as.Nodup)
    (h : s.Inv) (has : ∀ a ∈ as, a ∈ s.confs k)
    (htracked : ∀ a ∈ as, ∀ conf, s.items a = some conf → conf.kind.isAccess = false →
      type ≠ none ∧ type ≠ some conf.kind) :
    ∃ s', detachLoop type k as s = some s' ∧ s'.Inv ∧ Renewed s.items s'.items := by
  induction as generalizing s with
  | nil => exact ⟨s, rfl, h, Renewed.refl _⟩
  | cons a as ih =>
      obtain ⟨conf, hconf⟩ := Option.isSome_iff_exists.mp
        (h.items.allocated k a (has a List.mem_cons_self))
      rw [ConfCounts.detachLoop, hconf, Option.bind_some]
      obtain ⟨hnotin, hnodup⟩ := List.nodup_cons.mp hnodup
      by_cases htype : type = none ∨ type = some conf.kind
      · have haccess : conf.kind.isAccess = true := by
          by_contra hmatch
          obtain ⟨hne, hne'⟩ := htracked a List.mem_cons_self conf hconf
            (Bool.eq_false_iff.mpr hmatch)
          exact htype.elim hne hne'
        obtain ⟨s₁, hs₁, h₁, hrenew₁, hconfs₁⟩ := h.release (has a List.mem_cons_self) hconf haccess
        rw [if_pos htype, hs₁, Option.bind_some]
        by_cases hall : type = none
        · rw [if_pos hall]
          have hleft (b : ℕ) (hb : b ∈ as) : b ∈ s₁.confs k := by
            have hne : b ≠ a := fun hba => hnotin (hba ▸ hb)
            rw [hconfs₁, drop_self]
            exact (List.mem_erase_of_ne hne).mpr (has b (List.mem_cons_of_mem _ hb))
          obtain ⟨s', hs', h', hrenew'⟩ := ih hnodup h₁ hleft fun b hb conf' hconf' hm => by
            obtain ⟨conf₀, hconf₀, hkind, -⟩ := hrenew₁ b conf' hconf'
            rw [hkind] at hm ⊢
            exact htracked b (List.mem_cons_of_mem _ hb) conf₀ hconf₀ hm
          exact ⟨s', hs', h', hrenew₁.trans hrenew'⟩
        · rw [if_neg hall]
          exact ⟨s₁, rfl, h₁, hrenew₁⟩
      · rw [if_neg htype]
        exact ih hnodup h (fun b hb => has b (List.mem_cons_of_mem _ hb))
          fun b hb => htracked b (List.mem_cons_of_mem _ hb)

/-! ### The configuration is read again -/

theorem clearItem_eq (hcount : 0 ≤ conf.count) (hill : conf.illegal = true → 0 < conf.count) :
    clearItem conf = if conf.count = 0 then none else some { conf with illegal := true } := by
  obtain ⟨kind, count, illegal, classPtr⟩ := conf
  dsimp only at hcount hill
  cases illegal with
  | true =>
      have := hill rfl
      rw [clearItem, if_pos rfl, if_neg (by dsimp only; omega)]
  | false =>
      rw [clearItem, if_neg (by simp)]
      dsimp only
      split
      · split <;> simp_all
      · by_cases hzero : count = 0
        · simp [hzero]
        · rw [if_neg (by omega), if_neg hzero]

omit [DecidableEq κ] in
theorem Inv.clearItem (h : s.Inv) (hconf : s.items a = some conf) :
    clearItem conf = if conf.count = 0 then none else some { conf with illegal := true } := by
  have hcount := h.items.count a conf hconf
  refine clearItem_eq (by omega) fun hill => ?_
  have := h.items.illegal a conf hconf hill
  omega

omit [DecidableEq κ] in
theorem Inv.eq_of_clearItem {conf' : ConfItem} (h : s.Inv)
    (hconf' : (s.items a).bind ConfCounts.clearItem = some conf') :
    ∃ conf, s.items a = some conf ∧ conf.count ≠ 0 ∧ conf' = { conf with illegal := true } := by
  obtain ⟨conf, hconf, hclear⟩ := Option.bind_eq_some_iff.mp hconf'
  rw [h.clearItem hconf] at hclear
  split at hclear
  · cases hclear
  · rename_i hne
    exact ⟨conf, hconf, hne, (Option.some.inj hclear).symm⟩

omit [DecidableEq κ] in
theorem Inv.clearOutOldConf (h : s.Inv) : s.clearOutOldConf.Inv := by
  have hrenew : Renewed s.items s.clearOutOldConf.items := by
    intro a conf' hconf'
    obtain ⟨conf, hconf, -, rfl⟩ := h.eq_of_clearItem hconf'
    exact ⟨conf, hconf, rfl, rfl, fun _ => rfl⟩
  have hitems : ItemsOk s.clearOutOldConf.items s.confs := by
    refine ⟨h.items.nodup, fun k a ha => ?_, fun a conf' hconf' => ?_, fun a conf' hconf' _ => ?_⟩
    · obtain ⟨conf, hconf⟩ := Option.isSome_iff_exists.mp (h.items.allocated k a ha)
      have hpos : 0 < refs s.confs (· = a) := refs_pos_iff.mpr ⟨k, a, ha, rfl⟩
      have hcount := h.items.count a conf hconf
      have hkept : (s.items a).bind ConfCounts.clearItem = some { conf with illegal := true } := by
        rw [hconf, Option.bind_some, h.clearItem hconf, if_neg (by omega)]
      exact Option.isSome_iff_exists.mpr ⟨_, hkept⟩
    · obtain ⟨conf, hconf, -, rfl⟩ := h.eq_of_clearItem hconf'
      exact h.items.count a conf hconf
    · obtain ⟨conf, hconf, hne, -⟩ := h.eq_of_clearItem hconf'
      have hcount := h.items.count a conf hconf
      omega
  have hbase := h.classes.renew hrenew hitems.allocated
  obtain ⟨l, hl⟩ := h.table.last
  have hlast : classDefault ∉ s.classItems.dropLast := by
    have hnodup := hl ▸ h.table.nodup
    rw [hl, List.dropLast_concat]
    exact fun hmem => (List.disjoint_of_nodup_append hnodup) hmem List.mem_cons_self
  refine ⟨hitems, ⟨hbase.classPtr, hbase.noClass, fun a conf' c hconf' hc => ?_,
    fun c aclass' haclass' => ?_, hbase.one⟩, ⟨h.table.nodup, fun c => ?_, h.table.last, ?_⟩,
    fun b hb => ⟨?_, ?_⟩⟩
  · obtain ⟨aclass, haclass, -⟩ := hbase.allocated a conf' c hconf' hc
    obtain ⟨conf, -, -, rfl⟩ := h.eq_of_clearItem hconf'
    exact ⟨_, Option.map_eq_some_iff.mpr ⟨aclass, haclass, rfl⟩, nofun⟩
  · obtain ⟨aclass, haclass, rfl⟩ := Option.map_eq_some_iff.mp haclass'
    have hcount := hbase.count c aclass haclass
    split <;> exact hcount
  · rw [ConfCounts.clearOutOldConf, h.table.mem_iff]
    simp
  · obtain ⟨dclass, hdclass, hdactive⟩ := h.table.default
    refine ⟨dclass, ?_, hdactive⟩
    rw [ConfCounts.clearOutOldConf]
    simp [hdclass, hlast]
  · rw [ConfCounts.clearOutOldConf]
    simp [(h.fresh b hb).1]
  · rw [ConfCounts.clearOutOldConf]
    simp [(h.fresh b hb).2]

omit [DecidableEq κ] [Fintype κ] in
theorem findExactClass_mem {name : Str} (h : s.findExactClass name = some c) :
    c ∈ s.classItems := List.mem_of_find?_eq_some h

omit [DecidableEq κ] in
theorem ClassesOk.newClass (h : ClassesOk items classes confs) (hnew : classes c = none)
    (name : Str) :
    ClassesOk items (Function.update classes c (some ⟨name, 0, true⟩)) confs := by
  have hunused (a : ℕ) : classIn items a ≠ some c := by
    intro ha
    obtain ⟨conf, hconf, hc⟩ := Option.bind_eq_some_iff.mp ha
    obtain ⟨aclass, haclass, -⟩ := h.allocated a conf c hconf hc
    rw [hnew] at haclass
    cases haclass
  refine ⟨h.classPtr, h.noClass, fun a conf c' hconf hc' => ?_, fun c' aclass haclass => ?_, h.one⟩
  · have hne : c' ≠ c := by
      rintro rfl
      exact hunused a (Option.bind_eq_some_iff.mpr ⟨conf, hconf, hc'⟩)
    rw [Function.update_of_ne hne]
    exact h.allocated a conf c' hconf hc'
  · by_cases hcc : c' = c
    · subst hcc
      rw [Function.update_self, Option.some.injEq] at haclass
      subst haclass
      have hzero : refs confs (fun a => classIn items a = some c') = 0 :=
        Nat.eq_zero_of_not_pos fun hpos => by
          obtain ⟨k, a, -, ha⟩ := refs_pos_iff.mp hpos
          exact hunused a ha
      rw [hzero]
      rfl
    · rw [Function.update_of_ne hcc] at haclass
      exact h.count c' aclass haclass

theorem TableOk.newClass (h : TableOk classes classItems) (hnew : classes c = none) (name : Str) :
    TableOk (Function.update classes c (some ⟨name, 0, true⟩)) (c :: classItems) := by
  refine ⟨List.nodup_cons.mpr ⟨fun hmem => ?_, h.nodup⟩, fun c' => ?_, ?_, ?_⟩
  · simpa [hnew] using (h.mem_iff c).mp hmem
  · rw [List.mem_cons, h.mem_iff]
    by_cases hcc : c' = c
    · simp [hcc]
    · simp [hcc]
  · obtain ⟨l, hl⟩ := h.last
    exact ⟨c :: l, by rw [hl]; rfl⟩
  · obtain ⟨dclass, hdclass, hdactive⟩ := h.default
    have hne : classDefault ≠ c := by
      rintro rfl
      rw [hnew] at hdclass
      cases hdclass
    exact ⟨dclass, by rw [Function.update_of_ne hne]; exact hdclass, hdactive⟩

omit [DecidableEq κ] in
theorem Inv.classEntry (h : s.Inv) (name : Str) : (s.classEntry name).Inv := by
  rw [ConfCounts.classEntry]
  cases hfind : s.findExactClass name with
  | some c =>
      obtain ⟨aclass, haclass⟩ := Option.isSome_iff_exists.mp
        ((h.table.mem_iff c).mp (findExactClass_mem hfind))
      have hcount := h.classes.count c aclass haclass
      dsimp only
      rw [haclass, Option.map_some]
      refine ⟨h.items, h.classes.setClass haclass (fun _ => rfl) hcount (fun _ _ => rfl)
        h.classes.one, h.table.setClass haclass fun _ => rfl,
        fun b hb => ⟨(h.fresh b hb).1, ?_⟩⟩
      have hbc : b ≠ c := by
        rintro rfl
        rw [(h.fresh b hb).2] at haclass
        cases haclass
      exact (Function.update_of_ne hbc ..).trans (h.fresh b hb).2
  | none =>
      have hnew := (h.fresh s.next le_rfl).2
      refine ⟨h.items, h.classes.newClass hnew name, h.table.newClass hnew name,
        fun b hb => ⟨(h.fresh b (Nat.le_of_succ_le hb)).1, ?_⟩⟩
      exact (Function.update_of_ne (Nat.ne_of_gt hb) ..).trans (h.fresh b (Nat.le_of_succ_le hb)).2

omit [DecidableEq κ] in
theorem Inv.confClass (h : s.Inv) (className : Option Str) :
    ∃ aclass, s.classes (s.confClass className) = some aclass ∧ aclass.active = true := by
  rw [ConfCounts.confClass]
  split
  · rename_i hany
    simpa [Option.any_eq_true] using hany
  · exact h.table.default

omit [DecidableEq κ] in
theorem ItemsOk.ne_of_mem (h : ItemsOk items confs) (hnew : items a = none) {b : ℕ}
    (hb : b ∈ confs k) : b ≠ a := by
  rintro rfl
  simpa [hnew] using h.allocated k b hb

omit [DecidableEq κ] in
theorem ItemsOk.newItem (h : ItemsOk items confs) (hnew : items a = none)
    (hcount : conf.count = 0) (hlegal : conf.illegal = false) :
    ItemsOk (Function.update items a (some conf)) confs := by
  refine ⟨h.nodup, fun k b hb => ?_, fun b conf' hconf' => ?_, fun b conf' hconf' hill => ?_⟩
  · rw [Function.update_of_ne (h.ne_of_mem hnew hb)]
    exact h.allocated k b hb
  · by_cases hba : b = a
    · subst hba
      rw [Function.update_self, Option.some.injEq] at hconf'
      subst hconf'
      have hzero : refs confs (· = b) = 0 := Nat.eq_zero_of_not_pos fun hpos => by
        obtain ⟨k, _, hb, rfl⟩ := refs_pos_iff.mp hpos
        exact h.ne_of_mem hnew hb rfl
      rw [hcount, hzero, Nat.cast_zero]
    · rw [Function.update_of_ne hba] at hconf'
      exact h.count b conf' hconf'
  · by_cases hba : b = a
    · subst hba
      rw [Function.update_self, Option.some.injEq] at hconf'
      subst hconf'
      rw [hlegal] at hill
      cases hill
    · rw [Function.update_of_ne hba] at hconf'
      exact h.illegal b conf' hconf' hill

omit [DecidableEq κ] in
theorem ClassesOk.newItem (h : ClassesOk items classes confs) (hitems : ItemsOk items confs)
    (hnew : items a = none) (haclass : classes c = some aclass) (hactive : aclass.active = true)
    (hclass : conf.classPtr = if conf.kind.isAccess then some c else none) :
    ClassesOk (Function.update items a (some conf)) classes confs := by
  have hsame (k : κ) (b : ℕ) (hb : b ∈ confs k) :
      classIn (Function.update items a (some conf)) b = classIn items b := by
    rw [classIn, Function.update_of_ne (hitems.ne_of_mem hnew hb), classIn]
  refine ⟨fun b conf' hconf' haccess => ?_, fun b conf' hconf' haccess => ?_,
    fun b conf' c' hconf' hc' => ?_, fun c' aclass' haclass' => ?_, fun k c' => ?_⟩
  · by_cases hba : b = a
    · subst hba
      rw [Function.update_self, Option.some.injEq] at hconf'
      subst hconf'
      exact ⟨c, by rw [hclass, if_pos haccess]⟩
    · rw [Function.update_of_ne hba] at hconf'
      exact h.classPtr b conf' hconf' haccess
  · by_cases hba : b = a
    · subst hba
      rw [Function.update_self, Option.some.injEq] at hconf'
      subst hconf'
      rw [hclass, if_neg (by simp [haccess])]
    · rw [Function.update_of_ne hba] at hconf'
      exact h.noClass b conf' hconf' haccess
  · by_cases hba : b = a
    · subst hba
      rw [Function.update_self, Option.some.injEq] at hconf'
      subst hconf'
      rw [hclass, Option.ite_none_right_eq_some, Option.some.injEq] at hc'
      obtain ⟨-, rfl⟩ := hc'
      exact ⟨aclass, haclass, fun _ => hactive⟩
    · rw [Function.update_of_ne hba] at hconf'
      exact h.allocated b conf' c' hconf' hc'
  · rw [h.count c' aclass' haclass']
    exact congrArg _ (refs_congr fun k b hb => by rw [hsame k b hb])
  · refine le_trans (le_of_eq (List.countP_congr fun b hb => ?_)) (h.one k c')
    rw [hsame k b hb]

omit [DecidableEq κ] in
theorem Inv.confEntry (h : s.Inv) (block : ConfKind × Option Str) : (s.confEntry block).Inv := by
  obtain ⟨aclass, haclass, hactive⟩ := h.confClass block.2
  have hnew := (h.fresh s.next le_rfl).1
  refine ⟨h.items.newItem hnew rfl rfl, h.classes.newItem h.items hnew haclass hactive rfl, h.table,
    fun b hb => ⟨?_, (h.fresh b (Nat.le_of_succ_le hb)).2⟩⟩
  exact (Function.update_of_ne (Nat.ne_of_gt hb) ..).trans (h.fresh b (Nat.le_of_succ_le hb)).1

omit [DecidableEq κ] in
theorem Inv.checkClass (h : s.Inv) : s.checkClass.Inv := by
  have hsub (c : ℕ) (aclass : ConfClass) (h' : s.checkClass.classes c = some aclass) :
      s.classes c = some aclass := (Option.filter_eq_some_iff.mp h').1
  have hidle (c : ℕ) (aclass : ConfClass) (haclass : s.classes c = some aclass)
      (h' : s.checkClass.classes c = none) :
      aclass.active = false ∧ aclass.currUserCount = 0 := by
    rw [ConfCounts.checkClass] at h'
    simpa [haclass] using h'
  refine ⟨h.items, h.classes.prune h.items hsub hidle, h.table.prune (fun c _ => ?_) hsub
    fun c aclass hc hn => (hidle c aclass hc hn).1, fun b hb => ⟨(h.fresh b hb).1, ?_⟩⟩
  · exact Option.isSome_filter ..
  · rw [ConfCounts.checkClass]
    simp [(h.fresh b hb).2]

omit [DecidableEq κ] in
theorem Inv.readConf (h : s.Inv) (file : ConfFile) : (s.readConf file).Inv := by
  have hclasses (names : List Str) (s : ConfCounts κ) (h : s.Inv) :
      (names.foldl ConfCounts.classEntry s).Inv := by
    induction names generalizing s with
    | nil => exact h
    | cons name names ih => exact ih _ (h.classEntry name)
  have hblocks (blocks : List (ConfKind × Option Str)) (s : ConfCounts κ) (h : s.Inv) :
      (blocks.foldl ConfCounts.confEntry s).Inv := by
    induction blocks generalizing s with
    | nil => exact h
    | cons block blocks ih => exact ih _ (h.confEntry block)
  exact (hblocks _ _ (hclasses _ _ h.clearOutOldConf)).checkClass

omit [DecidableEq κ] in
/-- An illegal item outlives the reading of the configuration. -/
theorem Inv.readConf_illegal (h : s.Inv) (file : ConfFile) (hconf : s.items a = some conf)
    (hill : conf.illegal = true) : (s.readConf file).items a = some conf := by
  have hnext : a < s.next := by
    by_contra hle
    rw [(h.fresh a (Nat.le_of_not_lt hle)).1] at hconf
    cases hconf
  have hclear : s.clearOutOldConf.items a = some conf := by
    rw [ConfCounts.clearOutOldConf]
    simp [hconf, ConfCounts.clearItem, hill]
  have hclasses (names : List Str) (s : ConfCounts κ) (hitem : s.items a = some conf)
      (hlt : a < s.next) : (names.foldl ConfCounts.classEntry s).items a = some conf ∧
        a < (names.foldl ConfCounts.classEntry s).next := by
    induction names generalizing s with
    | nil => exact ⟨hitem, hlt⟩
    | cons name names ih =>
        refine ih (s.classEntry name) ?_ ?_
        · rw [ConfCounts.classEntry]
          split <;> exact hitem
        · rw [ConfCounts.classEntry]
          split
          · exact hlt
          · exact Nat.lt_succ_of_lt hlt
  have hblocks (blocks : List (ConfKind × Option Str)) (s : ConfCounts κ)
      (hitem : s.items a = some conf) (hlt : a < s.next) :
      (blocks.foldl ConfCounts.confEntry s).items a = some conf := by
    induction blocks generalizing s with
    | nil => exact hitem
    | cons block blocks ih =>
        refine ih (s.confEntry block) ?_ (Nat.lt_succ_of_lt hlt)
        exact (Function.update_of_ne (Nat.ne_of_lt hlt) ..).trans hitem
  obtain ⟨hitem, hlt⟩ := hclasses file.classes s.clearOutOldConf hclear hnext
  exact hblocks file.blocks _ hitem hlt

omit [DecidableEq κ] [Fintype κ] in
theorem start_classes (c : ℕ) : (ConfCounts.start : ConfCounts κ).classes c =
    if c = classDefault then some ⟨['d', 'e', 'f', 'a', 'u', 'l', 't'], 0, true⟩ else none :=
  Function.update_apply (fun _ => none) classDefault _ c

omit [DecidableEq κ] in
theorem Inv.start : (ConfCounts.start : ConfCounts κ).Inv where
  items := ⟨fun _ => List.nodup_nil, nofun, nofun, nofun⟩
  classes := by
    refine ⟨nofun, nofun, nofun, fun c aclass haclass => ?_, fun _ _ => Nat.zero_le _⟩
    have hzero : refs (ConfCounts.start : ConfCounts κ).confs
        (fun a => classIn (ConfCounts.start : ConfCounts κ).items a = some c) = 0 :=
      Nat.eq_zero_of_not_pos fun hpos => by
        obtain ⟨k, a, ha, -⟩ := refs_pos_iff.mp hpos
        cases ha
    rw [hzero]
    rw [start_classes] at haclass
    split at haclass
    · cases haclass
      rfl
    · cases haclass
  table := by
    refine ⟨List.nodup_singleton _, fun c => ?_, ⟨[], rfl⟩, _, (start_classes _).trans (if_pos rfl),
      rfl⟩
    rw [start_classes]
    by_cases hc : c = classDefault <;> simp [hc, ConfCounts.start]
  fresh b hb := ⟨rfl, (start_classes b).trans (if_neg (Nat.ne_of_gt hb))⟩

/-- One step, and the items it frees. -/
theorem Inv.step (h : s.Inv) {e : Event κ} (hposs : s.Possible e) (htracked : s.Tracked e) :
    ∃ s', s.step e = some s' ∧ s'.Inv ∧ FreedAtZero s s' := by
  have hrenewed {s' : ConfCounts κ} (h' : s'.Inv) (hrenew : Renewed s.items s'.items) :
      FreedAtZero s s' := by
    refine .of_renewed h' fun a conf hconf hill conf' hconf' => ?_
    obtain ⟨conf₀, hconf₀, -, -, hkeep⟩ := hrenew a conf' hconf'
    rw [hconf, Option.some.injEq] at hconf₀
    exact hkeep (hconf₀ ▸ hill)
  cases e with
  | attach k a tooMany =>
      obtain ⟨s', hs', h', hrenew⟩ := h.attachConf tooMany hposs htracked
      exact ⟨s', hs', h', hrenewed h' hrenew⟩
  | detach k type =>
      obtain ⟨s', hs', h', hrenew⟩ := h.detachLoop type k (s.confs k) (h.items.nodup k)
        (fun _ => id) htracked
      exact ⟨s', hs', h', hrenewed h' hrenew⟩
  | rehash file =>
      refine ⟨_, rfl, h.readConf file, .of_renewed (h.readConf file) ?_⟩
      intro a conf hconf hill conf' hconf'
      rw [h.readConf_illegal file hconf hill, Option.some.injEq] at hconf'
      exact hconf' ▸ hill

theorem Inv.of_reach (h : Reach (fun s e => s.Possible e ∧ s.Tracked e) s) : s.Inv := by
  induction h with
  | start => exact Inv.start
  | step _ hallowed hstep ih =>
      obtain ⟨s', hs', h', -⟩ := ih.step hallowed.1 hallowed.2
      rw [hstep, Option.some.injEq] at hs'
      exact hs' ▸ h'

/-- In a run that keeps to the condition every count is the number of clients, and each step
returns and frees the illegal items that no client has any more. -/
theorem counted_of_reach (h : Reach (fun s e => s.Possible e ∧ s.Tracked e) s) :
    s.Counted ∧ ∀ e, s.Possible e → s.Tracked e → ∃ s', s.step e = some s' ∧ FreedAtZero s s' := by
  have hinv := Inv.of_reach h
  refine ⟨hinv.counted, fun e hposs htracked => ?_⟩
  obtain ⟨s', hs', -, hfreed⟩ := hinv.step hposs htracked
  exact ⟨s', hs', hfreed⟩

/-- A user with an oper block of another class, and a configuration without either block. -/
theorem counted_of_reach_illegal : ∃ s : ConfCounts (Fin 1),
    s.items 3 = some ⟨.oper, 1, true, some 1⟩ ∧ s.Counted ∧
      ∃ s', s.step (.detach 0 (some .oper)) = some s' ∧ FreedAtZero s s' := by
  let file : ConfFile := ⟨[['s', 't', 'a', 'f', 'f']],
    [(.client, none), (.oper, some ['S', 't', 'a', 'f', 'f'])]⟩
  have hrehash : Reach (fun s e => s.Possible e ∧ s.Tracked e)
      ((start : ConfCounts (Fin 1)).readConf file) :=
    .step .start ⟨trivial, trivial⟩ (e := .rehash file) rfl
  have hclient := Reach.step hrehash (e := .attach 0 2 false)
    ⟨rfl, fun _ _ _ _ _ b hb => by cases hb⟩ rfl
  have hoper := Reach.step hclient (e := .attach 0 3 false) ⟨rfl, by
    rintro conf ⟨⟩ - c ⟨⟩ b hb hbc
    rw [List.mem_singleton.mp hb] at hbc
    cases hbc⟩ rfl
  have hillegal := Reach.step hoper (e := .rehash ⟨[], []⟩) ⟨trivial, trivial⟩ rfl
  have h := counted_of_reach hillegal
  refine ⟨_, rfl, h.1, h.2 _ trivial ?_⟩
  intro a ha
  have ha' : a ∈ [3, 2] := ha
  rcases List.mem_pair.mp ha' with rfl | rfl
  · rintro conf ⟨⟩ ⟨⟩
  · rintro conf ⟨⟩ ⟨⟩

/-- A server with a hub item links and leaves. -/
theorem not_forall_counted :
    ¬ ∀ s : ConfCounts (Fin 1), Reach ConfCounts.Possible s → s.Counted := by
  intro h
  let file : ConfFile := ⟨[], [(.server, none), (.hub, none)]⟩
  have hrehash : Reach ConfCounts.Possible ((start : ConfCounts (Fin 1)).readConf file) :=
    .step .start (e := .rehash file) trivial rfl
  have hserver := Reach.step hrehash (e := .attach 0 1 false) rfl rfl
  have hhub := Reach.step hserver (e := .attach 0 2 false) rfl rfl
  have hleft := Reach.step hhub (e := .detach 0 none) trivial rfl
  have hcount := (h _ hleft).items 2 ⟨.hub, 1, false, none⟩ rfl
  revert hcount
  decide

end ConfCounts

end Unirc
