import Mathlib.Data.List.Nodup
import Mathlib.Data.Set.Insert
import Unirc.ConfTable
import Unirc.NameHash

/-!
# Temporary bans

`add_temp_line` and `cleanup_tklines` of `s_conf.c`. A temporary ban is on a list with the time that
it holds until, and in force through the address table, the list of its type or the table of
reserved channels. What would use freed memory or unlink a node that is not linked is `none`.
-/

namespace Unirc

inductive TempType
  | gline | kline | dline | xline | rxline | rkline | nresv | cresv
  deriving DecidableEq

inductive TempList
  | glines | klines | dlines | xlines | rxlines | rklines | resv
  deriving DecidableEq

namespace TempType

/-- The `temporary_*` list of a type. -/
def list : TempType → TempList
  | gline => .glines
  | kline => .klines
  | dline => .dlines
  | xline => .xlines
  | rxline => .rxlines
  | rkline => .rklines
  | nresv | cresv => .resv

/-- The items of the type are in the address table. -/
def isAddress : TempType → Bool
  | gline | kline | dline => true
  | _ => false

/-- The status that `add_conf_by_address` gets. -/
def status : TempType → U32
  | gline => 0x00008000
  | dline => 0x00000800
  | _ => 0x00000010

end TempType

/-- A temporary ban as it was made. The host of an address is not empty, and no client is attached
to a ban. -/
structure BanItem where
  type : TempType
  hold : ℤ
  access : AccessItem
  name : Str
  clients : ℕ
  host_ne : type.isAddress = true → access.host ≠ []
  unattached : clients = 0

/-- The structures that bans are in, by the address of their `ConfItem`. `confItems` has
`xconf_items`, `rxconf_items`, `rkconf_items`, `nresv_items` and `resv_channel_list`. `flagged` has
`CONF_FLAGS_TEMPORARY`. -/
structure TempBans where
  table : ConfTable
  confItems : TempType → List ℕ
  resvTable : HashChain.Table ℕ ℕ
  temporary : TempList → List ℕ
  flagged : List ℕ
  freed : List ℕ

namespace TempBans

def free (s : TempBans) (a : ℕ) : Option TempBans :=
  if a ∈ s.freed then none else some { s with freed := a :: s.freed }

/-- `dlinkDelete(ptr, tklist)`. -/
def unlinkTemporary (s : TempBans) (l : TempList) (a : ℕ) : Option TempBans :=
  if a ∈ s.temporary l then
    some { s with temporary := Function.update s.temporary l ((s.temporary l).erase a) }
  else none

/-- `dlinkDelete` from the list of a type. -/
def unlinkItem (s : TempBans) (t : TempType) (a : ℕ) : Option TempBans :=
  if a ∈ s.confItems t then
    some { s with confItems := Function.update s.confItems t ((s.confItems t).erase a) }
  else none

/-- `dlinkFindDelete(&temporary_resv, conf)`, for an item with the flag. -/
def findDeleteResv (s : TempBans) (a : ℕ) : TempBans :=
  if a ∈ s.flagged then
    { s with temporary := Function.update s.temporary .resv ((s.temporary .resv).erase a) }
  else s

variable (randomKey : U32) (item : ℕ → BanItem)

def deleteConfItem (s : TempBans) (a : ℕ) : Option TempBans :=
  match (item a).type with
  | .gline | .kline | .dline => s.free a
  | .xline | .rxline | .rkline => (s.unlinkItem (item a).type a).bind fun s => s.free a
  | .nresv => (s.unlinkItem .nresv a).bind fun s => (s.findDeleteResv a).free a
  | .cresv => (s.findDeleteResv a).free a

/-- `delete_one_address_conf(aconf->host, aconf)`. -/
def deleteOneAddressConf (s : TempBans) (a : ℕ) : Option TempBans :=
  if (s.table.atable (fileMask (item a).access.host).hash).any (·.aconf == a) then
    let s := { s with table := s.table.deleteOneAddressConf (fun a => (item a).access) a }
    if (item a).clients = 0 then s.deleteConfItem item a else some s
  else some s

def deleteChannelResv (s : TempBans) (a : ℕ) : Option TempBans :=
  let hashv := strhash randomKey (item a).name
  let s := { s with resvTable := HashChain.unlink s.resvTable hashv (· == a) }
  (s.unlinkItem .cresv a).bind fun s => s.deleteConfItem item a

/-- The body of the loop of `expire_tklines`. -/
def expireItem (now : ℤ) (tklist : TempList) (s : TempBans) (a : ℕ) : Option TempBans :=
  if a ∈ s.freed then none
  else if now < (item a).hold then some s
  else
    match (item a).type with
    | .gline | .kline | .dline =>
        (s.unlinkTemporary tklist a).bind fun s => s.deleteOneAddressConf item a
    | .xline | .rxline | .rkline | .nresv =>
        (s.unlinkTemporary tklist a).bind fun s => s.deleteConfItem item a
    | .cresv => s.deleteChannelResv randomKey item a

def expireTklines (now : ℤ) (s : TempBans) (tklist : TempList) : Option TempBans :=
  (s.temporary tklist).foldlM (expireItem randomKey item now tklist) s

def cleanupTklines (now : ℤ) (s : TempBans) : Option TempBans :=
  [.glines, .klines, .dlines, .xlines, .rxlines, .rklines, .resv].foldlM
    (expireTklines randomKey item now) s

/-- `make_conf_item`, and `create_channel_resv` for a channel. -/
def makeItem (s : TempBans) (a : ℕ) : TempBans :=
  match (item a).type with
  | .gline | .kline | .dline => s
  | .cresv => { s with
      confItems := Function.update s.confItems .cresv (a :: s.confItems .cresv)
      resvTable := HashChain.insert s.resvTable (strhash randomKey (item a).name) a }
  | t => { s with confItems := Function.update s.confItems t (a :: s.confItems t) }

def addTempLine (s : TempBans) (a : ℕ) : TempBans :=
  let l := (item a).type.list
  let s := { s with temporary := Function.update s.temporary l (a :: s.temporary l) }
  if (item a).type.isAddress then
    { s with table :=
        s.table.addConfByAddress (fun a => (item a).access) (item a).type.status a }
  else { s with flagged := a :: s.flagged }

/-- A ban is placed, or the timer runs. -/
inductive Event
  | place (a : ℕ)
  | cleanup (now : ℤ)

def step (s : TempBans) : Event → Option TempBans
  | .place a => some ((s.makeItem randomKey item a).addTempLine item a)
  | .cleanup now => s.cleanupTklines randomKey item now

def run : TempBans → List Event → Option TempBans := List.foldlM (step randomKey item)

/-- The ban is on its list and in force, `n` times: each of its places has it `n` times, and no
other place has it. It is freed when it is in none. -/
structure Standing (s : TempBans) (a n : ℕ) : Prop where
  temporary : ∀ l, (s.temporary l).count a = if (item a).type.list = l then n else 0
  records : ∀ i, (s.table.atable i).countP (·.aconf == a) =
    if (item a).type.isAddress = true ∧ (fileMask (item a).access.host).hash = i then n else 0
  items : ∀ t, (s.confItems t).count a =
    if (item a).type.isAddress = false ∧ (item a).type = t then n else 0
  resv : ∀ i, (s.resvTable i).count a =
    if (item a).type = .cresv ∧ strhash randomKey (item a).name = i then n else 0
  freed : s.freed.count a = 1 - n
  flagged : n = 1 → (item a).type.isAddress = false → a ∈ s.flagged

/-- A ban is where it was. -/
structure SameOf (s s' : TempBans) (b : ℕ) : Prop where
  temporary : ∀ l, (s'.temporary l).count b = (s.temporary l).count b
  records : ∀ i, (s'.table.atable i).countP (·.aconf == b) = (s.table.atable i).countP (·.aconf == b)
  items : ∀ t, (s'.confItems t).count b = (s.confItems t).count b
  resv : ∀ i, (s'.resvTable i).count b = (s.resvTable i).count b
  freed : s'.freed.count b = s.freed.count b
  flagged : b ∈ s'.flagged ↔ b ∈ s.flagged

variable {randomKey item} {s s' s'' : TempBans} {a b n : ℕ}

theorem SameOf.refl (s : TempBans) (b : ℕ) : SameOf s s b :=
  ⟨fun _ => rfl, fun _ => rfl, fun _ => rfl, fun _ => rfl, rfl, Iff.rfl⟩

theorem SameOf.trans (h : SameOf s s' b) (h' : SameOf s' s'' b) : SameOf s s'' b where
  temporary l := (h'.temporary l).trans (h.temporary l)
  records i := (h'.records i).trans (h.records i)
  items t := (h'.items t).trans (h.items t)
  resv i := (h'.resv i).trans (h.resv i)
  freed := h'.freed.trans h.freed
  flagged := h'.flagged.trans h.flagged

theorem Standing.same (h : Standing randomKey item s b n) (hs : SameOf s s' b) :
    Standing randomKey item s' b n where
  temporary l := (hs.temporary l).trans (h.temporary l)
  records i := (hs.records i).trans (h.records i)
  items t := (hs.items t).trans (h.items t)
  resv i := (hs.resv i).trans (h.resv i)
  freed := hs.freed.trans h.freed
  flagged hn ht := hs.flagged.mpr (h.flagged hn ht)

/-! ### Counting -/

theorem count_update_erase {ι : Type*} [DecidableEq ι] (f : ι → List ℕ) (l k : ι) (a b : ℕ) :
    (Function.update f l ((f l).erase a) k).count b =
      (f k).count b - if k = l ∧ b = a then 1 else 0 := by
  rw [Function.update_apply]
  by_cases hk : k = l
  · subst hk
    rw [if_pos rfl]
    by_cases hb : b = a
    · rw [hb, List.count_erase_self, if_pos ⟨rfl, rfl⟩]
    · rw [List.count_erase_of_ne hb, if_neg fun h => hb h.2, Nat.sub_zero]
  · rw [if_neg hk, if_neg fun h => hk h.1, Nat.sub_zero]

theorem count_update_cons {ι : Type*} [DecidableEq ι] (f : ι → List ℕ) (l k : ι) (a b : ℕ) :
    (Function.update f l (a :: f l) k).count b =
      (f k).count b + if k = l ∧ b = a then 1 else 0 := by
  rw [Function.update_apply]
  by_cases hk : k = l
  · subst hk
    rw [if_pos rfl]
    by_cases hb : b = a
    · rw [hb, List.count_cons_self, if_pos ⟨rfl, rfl⟩]
    · rw [List.count_cons_of_ne (Ne.symm hb), if_neg fun h => hb h.2, Nat.add_zero]
  · rw [if_neg hk, if_neg fun h => hk h.1, Nat.add_zero]

theorem countP_eraseP_aconf (l : List AddressRec) (a b : ℕ) :
    (l.eraseP (·.aconf == a)).countP (·.aconf == b) =
      l.countP (·.aconf == b) - if b = a then 1 else 0 := by
  induction l with
  | nil => simp
  | cons r l ih =>
      by_cases hr : r.aconf = a
      · rw [List.eraseP_cons_of_pos (by simpa using hr), List.countP_cons, hr]
        by_cases hb : b = a
        · simp [hb]
        · simp [hb, Ne.symm hb]
      · rw [List.eraseP_cons_of_neg (by simpa using hr), List.countP_cons, List.countP_cons, ih]
        by_cases hb : b = a
        · subst hb
          simp [hr]
        · simp [hb]

theorem countP_unlink (t : HashChain.Table ℕ AddressRec) (i k a b : ℕ) :
    (HashChain.unlink t i (·.aconf == a) k).countP (·.aconf == b) =
      (t k).countP (·.aconf == b) - if k = i ∧ b = a then 1 else 0 := by
  rw [HashChain.unlink, Function.update_apply]
  by_cases hk : k = i
  · subst hk
    rw [if_pos rfl, countP_eraseP_aconf]
    simp
  · rw [if_neg hk, if_neg fun h => hk h.1, Nat.sub_zero]

theorem count_unlink (t : HashChain.Table ℕ ℕ) (i k a b : ℕ) :
    (HashChain.unlink t i (· == a) k).count b =
      (t k).count b - if k = i ∧ b = a then 1 else 0 := by
  have herase : (t i).eraseP (· == a) = (t i).erase a := (List.erase_eq_eraseP' a (t i)).symm
  rw [HashChain.unlink, herase]
  exact count_update_erase t i k a b

/-! ### One ban -/

/-- A ban is gone, and every other one is where it was. -/
structure Dropped (randomKey : U32) (item : ℕ → BanItem) (s s' : TempBans) (a : ℕ) : Prop where
  gone : Standing randomKey item s' a 0
  others : ∀ b, b ≠ a → SameOf s s' b

theorem unlinkTemporary_eq {l : TempList} (h : 0 < (s.temporary l).count a) :
    s.unlinkTemporary l a =
      some { s with temporary := Function.update s.temporary l ((s.temporary l).erase a) } :=
  if_pos (List.count_pos_iff.mp h)

/-- A ban with an address expires. -/
theorem expire_address (h : Standing randomKey item s a 1) (ht : (item a).type.isAddress = true) :
    ∃ s', (s.unlinkTemporary (item a).type.list a).bind (fun s => s.deleteOneAddressConf item a) =
      some s' ∧ Dropped randomKey item s s' a := by
  have hl : 0 < (s.temporary (item a).type.list).count a := by
    rw [h.temporary, if_pos rfl]
    exact Nat.one_pos
  rw [unlinkTemporary_eq hl, Option.bind_some, deleteOneAddressConf]
  have hfound : (s.table.atable (fileMask (item a).access.host).hash).any (·.aconf == a) = true := by
    have hrec := h.records (fileMask (item a).access.host).hash
    rw [if_pos ⟨ht, rfl⟩] at hrec
    obtain ⟨r, hr, hra⟩ := List.countP_pos_iff.mp (hrec ▸ Nat.one_pos)
    exact List.any_eq_true.mpr ⟨r, hr, hra⟩
  rw [if_pos hfound]
  dsimp only
  rw [if_pos (item a).unattached]
  have hfree (s : TempBans) : s.deleteConfItem item a = s.free a := by
    rw [deleteConfItem]
    cases htype : (item a).type <;> first | rfl | (rw [htype] at ht; cases ht)
  rw [hfree, free, if_neg (List.count_eq_zero.mp h.freed)]
  refine ⟨_, rfl, ⟨fun l => ?_, fun i => ?_, fun t => ?_, fun i => ?_, ?_, nofun⟩,
    fun b hb => ⟨fun l => ?_, fun i => ?_, fun _ => rfl, fun _ => rfl, ?_, Iff.rfl⟩⟩
  · rw [count_update_erase, h.temporary]
    grind
  · rw [ConfTable.deleteOneAddressConf, countP_unlink, h.records]
    grind
  · rw [h.items]
    grind
  · rw [h.resv]
    grind [TempType.isAddress]
  · rw [List.count_cons_self, h.freed]
  · rw [count_update_erase, if_neg fun h => hb h.2, Nat.sub_zero]
  · rw [ConfTable.deleteOneAddressConf, countP_unlink, if_neg fun h => hb h.2, Nat.sub_zero]
  · exact List.count_cons_of_ne (Ne.symm hb)

/-- A ban with a list of its own expires. -/
theorem expire_listed (h : Standing randomKey item s a 1)
    (ht : (item a).type = .xline ∨ (item a).type = .rxline ∨ (item a).type = .rkline) :
    ∃ s', (s.unlinkTemporary (item a).type.list a).bind (fun s => s.deleteConfItem item a) =
      some s' ∧ Dropped randomKey item s s' a := by
  have haddr : (item a).type.isAddress = false := by
    rcases ht with ht | ht | ht <;> rw [ht] <;> rfl
  have hl : 0 < (s.temporary (item a).type.list).count a := by
    rw [h.temporary, if_pos rfl]
    exact Nat.one_pos
  have hitem : a ∈ s.confItems (item a).type := by
    rw [← List.count_pos_iff, h.items, if_pos ⟨haddr, rfl⟩]
    exact Nat.one_pos
  have hdelete (s : TempBans) : s.deleteConfItem item a =
      (s.unlinkItem (item a).type a).bind fun s => s.free a := by
    rw [deleteConfItem]
    rcases ht with ht | ht | ht <;> rw [ht]
  rw [unlinkTemporary_eq hl, Option.bind_some, hdelete, unlinkItem, if_pos hitem, Option.bind_some,
    free, if_neg (List.count_eq_zero.mp h.freed)]
  refine ⟨_, rfl, ⟨fun l => ?_, fun i => ?_, fun t => ?_, fun i => ?_, ?_, nofun⟩,
    fun b hb => ⟨fun l => ?_, fun _ => rfl, fun t => ?_, fun _ => rfl, ?_, Iff.rfl⟩⟩
  · rw [count_update_erase, h.temporary]
    grind
  · rw [h.records]
    grind
  · rw [count_update_erase, h.items]
    grind
  · rw [h.resv]
    grind
  · rw [List.count_cons_self, h.freed]
  · rw [count_update_erase, if_neg fun h => hb h.2, Nat.sub_zero]
  · rw [count_update_erase, if_neg fun h => hb h.2, Nat.sub_zero]
  · exact List.count_cons_of_ne (Ne.symm hb)

/-- The reservation of a nick expires: the second search for its node finds none. -/
theorem expire_nresv (h : Standing randomKey item s a 1) (ht : (item a).type = .nresv) :
    ∃ s', (s.unlinkTemporary .resv a).bind (fun s => s.deleteConfItem item a) = some s' ∧
      Dropped randomKey item s s' a := by
  have hl : 0 < (s.temporary .resv).count a := by
    rw [h.temporary, ht]
    exact Nat.one_pos
  have hitem : a ∈ s.confItems .nresv := by
    rw [← List.count_pos_iff, h.items, ht, if_pos ⟨rfl, rfl⟩]
    exact Nat.one_pos
  have hflag : a ∈ s.flagged := h.flagged rfl (by rw [ht]; rfl)
  have hdelete (s : TempBans) : s.deleteConfItem item a =
      (s.unlinkItem .nresv a).bind fun s => (s.findDeleteResv a).free a := by
    rw [deleteConfItem, ht]
  rw [unlinkTemporary_eq hl, Option.bind_some, hdelete, unlinkItem, if_pos hitem, Option.bind_some,
    findDeleteResv, if_pos hflag, free, if_neg (List.count_eq_zero.mp h.freed)]
  refine ⟨_, rfl, ⟨fun l => ?_, fun i => ?_, fun t => ?_, fun i => ?_, ?_, nofun⟩,
    fun b hb => ⟨fun l => ?_, fun _ => rfl, fun t => ?_, fun _ => rfl, ?_, Iff.rfl⟩⟩
  · rw [count_update_erase, count_update_erase, h.temporary]
    grind [TempType.list]
  · rw [h.records]
    grind [TempType.isAddress]
  · rw [count_update_erase, h.items]
    grind [TempType.isAddress]
  · rw [h.resv]
    grind
  · rw [List.count_cons_self, h.freed]
  · rw [count_update_erase, count_update_erase, if_neg fun h => hb h.2, Nat.sub_zero, Nat.sub_zero]
  · rw [count_update_erase, if_neg fun h => hb h.2, Nat.sub_zero]
  · exact List.count_cons_of_ne (Ne.symm hb)

/-- The reservation of a channel expires: `delete_conf_item` takes its node off the list. -/
theorem expire_cresv (h : Standing randomKey item s a 1) (ht : (item a).type = .cresv) :
    ∃ s', s.deleteChannelResv randomKey item a = some s' ∧ Dropped randomKey item s s' a := by
  have hitem : a ∈ s.confItems .cresv := by
    rw [← List.count_pos_iff, h.items, ht, if_pos ⟨rfl, rfl⟩]
    exact Nat.one_pos
  have hflag : a ∈ s.flagged := h.flagged rfl (by rw [ht]; rfl)
  have hdelete (s : TempBans) : s.deleteConfItem item a = (s.findDeleteResv a).free a := by
    rw [deleteConfItem, ht]
  rw [deleteChannelResv, unlinkItem, if_pos hitem, Option.bind_some, hdelete, findDeleteResv, if_pos hflag, free,
    if_neg (List.count_eq_zero.mp h.freed)]
  refine ⟨_, rfl, ⟨fun l => ?_, fun i => ?_, fun t => ?_, fun i => ?_, ?_, nofun⟩,
    fun b hb => ⟨fun l => ?_, fun _ => rfl, fun t => ?_, fun i => ?_, ?_, Iff.rfl⟩⟩
  · rw [count_update_erase, h.temporary]
    grind [TempType.list]
  · rw [h.records]
    grind [TempType.isAddress]
  · rw [count_update_erase, h.items]
    grind [TempType.isAddress]
  · rw [count_unlink, h.resv]
    grind
  · rw [List.count_cons_self, h.freed]
  · rw [count_update_erase, if_neg fun h => hb h.2, Nat.sub_zero]
  · rw [count_update_erase, if_neg fun h => hb h.2, Nat.sub_zero]
  · rw [count_unlink, if_neg fun h => hb h.2, Nat.sub_zero]
  · exact List.count_cons_of_ne (Ne.symm hb)

/-- What one turn of the loop does to the ban it comes to, and to the others. -/
theorem expireItem_spec (h : Standing randomKey item s a 1) (now : ℤ) :
    ∃ s', s.expireItem randomKey item now (item a).type.list a = some s' ∧
      Standing randomKey item s' a (if now < (item a).hold then 1 else 0) ∧
      ∀ b, b ≠ a → SameOf s s' b := by
  rw [expireItem, if_neg (List.count_eq_zero.mp h.freed)]
  by_cases hnow : now < (item a).hold
  · rw [if_pos hnow, if_pos hnow]
    exact ⟨s, rfl, h, fun b _ => SameOf.refl s b⟩
  · rw [if_neg hnow, if_neg hnow]
    have hdropped {r : Option TempBans}
        (hr : ∃ s', r = some s' ∧ Dropped randomKey item s s' a) :
        ∃ s', r = some s' ∧ Standing randomKey item s' a 0 ∧ ∀ b, b ≠ a → SameOf s s' b := by
      obtain ⟨s', hrun, hs'⟩ := hr
      exact ⟨s', hrun, hs'.gone, hs'.others⟩
    cases ht : (item a).type with
    | gline | kline | dline =>
        have hexpire := expire_address h (by rw [ht]; rfl)
        rw [ht] at hexpire
        exact hdropped hexpire
    | xline =>
        have hexpire := expire_listed h (.inl ht)
        rw [ht] at hexpire
        exact hdropped hexpire
    | rxline =>
        have hexpire := expire_listed h (.inr (.inl ht))
        rw [ht] at hexpire
        exact hdropped hexpire
    | rkline =>
        have hexpire := expire_listed h (.inr (.inr ht))
        rw [ht] at hexpire
        exact hdropped hexpire
    | nresv => exact hdropped (expire_nresv h ht)
    | cresv => exact hdropped (expire_cresv h ht)

/-! ### The lists -/

/-- The loop over a list: each ban on it is kept or dropped as its time says. -/
theorem expireLoop_spec {l : TempList} {as : List ℕ} (hnd : as.Nodup)
    (h : ∀ a ∈ as, Standing randomKey item s a 1 ∧ (item a).type.list = l) (now : ℤ) :
    ∃ s', as.foldlM (expireItem randomKey item now l) s = some s' ∧
      (∀ a ∈ as, Standing randomKey item s' a (if now < (item a).hold then 1 else 0)) ∧
      ∀ b, b ∉ as → SameOf s s' b := by
  induction as generalizing s with
  | nil => exact ⟨s, rfl, nofun, fun b _ => SameOf.refl s b⟩
  | cons a as ih =>
      obtain ⟨ha, hnd⟩ := List.nodup_cons.mp hnd
      obtain ⟨hstanding, hl⟩ := h a List.mem_cons_self
      obtain ⟨s₁, hstep, hgone, hothers⟩ := expireItem_spec hstanding now
      rw [hl] at hstep
      have hrest : ∀ b ∈ as, Standing randomKey item s₁ b 1 ∧ (item b).type.list = l := by
        intro b hb
        obtain ⟨hb₁, hbl⟩ := h b (List.mem_cons_of_mem a hb)
        exact ⟨hb₁.same (hothers b (ne_of_mem_of_not_mem hb ha)), hbl⟩
      obtain ⟨s', hrun, hall, hsame⟩ := ih hnd hrest
      refine ⟨s', ?_, List.forall_mem_cons.mpr ⟨hgone.same (hsame a ha), hall⟩, fun b hb => ?_⟩
      · rw [List.foldlM_cons, hstep]
        exact hrun
      · obtain ⟨hne, hb⟩ := not_or.mp (List.mem_cons.not.mp hb)
        exact (hothers b hne).trans (hsame b hb)

/-- The placed bans are where `n` says, and nothing else is on the lists. -/
structure Tally (randomKey : U32) (item : ℕ → BanItem) (placed : Set ℕ) (n : ℕ → ℕ)
    (s : TempBans) : Prop where
  standing : ∀ a ∈ placed, Standing randomKey item s a (n a)
  le_one : ∀ a ∈ placed, n a ≤ 1
  mem : ∀ l, ∀ a ∈ s.temporary l, a ∈ placed

variable {placed : Set ℕ} {m : ℕ → ℕ}

theorem Tally.of_temporary (h : Tally randomKey item placed m s) {l : TempList}
    (ha : a ∈ s.temporary l) : m a = 1 ∧ (item a).type.list = l := by
  have hplaced := h.mem l a ha
  have hcount := List.count_pos_iff.mpr ha
  rw [(h.standing a hplaced).temporary l] at hcount
  split at hcount
  · rename_i hl
    exact ⟨Nat.le_antisymm (h.le_one a hplaced) hcount, hl⟩
  · exact absurd hcount (Nat.lt_irrefl 0)

theorem Tally.nodup (h : Tally randomKey item placed m s) (l : TempList) :
    (s.temporary l).Nodup := by
  refine List.nodup_iff_count_le_one.mpr fun a => ?_
  by_cases ha : a ∈ s.temporary l
  · obtain ⟨hm, hl⟩ := h.of_temporary ha
    rw [(h.standing a (h.mem l a ha)).temporary l, if_pos hl, hm]
  · rw [List.count_eq_zero.mpr ha]
    exact Nat.zero_le 1

theorem Tally.congr {m' : ℕ → ℕ} (h : Tally randomKey item placed m s)
    (hm : ∀ a ∈ placed, m a = m' a) : Tally randomKey item placed m' s where
  standing a ha := hm a ha ▸ h.standing a ha
  le_one a ha := hm a ha ▸ h.le_one a ha
  mem := h.mem

/-- One list. -/
theorem Tally.expire (h : Tally randomKey item placed m s) (now : ℤ) (l : TempList) :
    ∃ s', s.expireTklines randomKey item now l = some s' ∧
      Tally randomKey item placed
        (fun a => if (item a).type.list = l ∧ (item a).hold ≤ now then 0 else m a) s' ∧
      ∀ b, b ∉ placed → SameOf s s' b := by
  have hlist : ∀ a ∈ s.temporary l, Standing randomKey item s a 1 ∧ (item a).type.list = l := by
    intro a ha
    obtain ⟨hm, hl⟩ := h.of_temporary ha
    exact ⟨hm ▸ h.standing a (h.mem l a ha), hl⟩
  obtain ⟨s', hrun, hall, hsame⟩ := expireLoop_spec (h.nodup l) hlist now
  have hframe : ∀ b, b ∉ placed → SameOf s s' b := fun b hb => hsame b fun hbl => hb (h.mem l b hbl)
  refine ⟨s', hrun, ⟨fun a ha => ?_, fun a ha => ?_, fun l' a ha => ?_⟩, hframe⟩
  · by_cases hal : a ∈ s.temporary l
    · obtain ⟨hm, hl⟩ := h.of_temporary hal
      have heq : (if now < (item a).hold then 1 else 0) =
          if (item a).type.list = l ∧ (item a).hold ≤ now then 0 else m a := by grind
      exact heq ▸ hall a hal
    · have hstanding := (h.standing a ha).same (hsame a hal)
      have hzero : (item a).type.list = l → m a = 0 := by
        intro hl
        have hcount := (h.standing a ha).temporary l
        rw [if_pos hl, List.count_eq_zero.mpr hal] at hcount
        exact hcount.symm
      split
      · rename_i hl
        exact hzero hl.1 ▸ hstanding
      · exact hstanding
  · split
    · exact Nat.zero_le 1
    · exact h.le_one a ha
  · by_contra hnot
    have hcount := List.count_pos_iff.mpr ha
    rw [(hframe a hnot).temporary l'] at hcount
    exact hnot (h.mem l' a (List.count_pos_iff.mp hcount))

/-- Several lists. -/
theorem Tally.expireAll (h : Tally randomKey item placed m s) (now : ℤ) (ls : List TempList) :
    ∃ s', ls.foldlM (expireTklines randomKey item now) s = some s' ∧
      Tally randomKey item placed
        (fun a => if (item a).type.list ∈ ls ∧ (item a).hold ≤ now then 0 else m a) s' ∧
      ∀ b, b ∉ placed → SameOf s s' b := by
  induction ls generalizing s m with
  | nil => exact ⟨s, rfl, h.congr fun a _ => by simp, fun b _ => SameOf.refl s b⟩
  | cons l ls ih =>
      obtain ⟨s₁, hstep, h₁, hsame₁⟩ := h.expire now l
      obtain ⟨s', hrun, h', hsame⟩ := ih h₁
      refine ⟨s', ?_, h'.congr fun a _ => ?_, fun b hb => (hsame₁ b hb).trans (hsame b hb)⟩
      · rw [List.foldlM_cons, hstep]
        exact hrun
      · simp only [List.mem_cons]
        grind

/-- The timer runs once. -/
theorem Tally.cleanup (h : Tally randomKey item placed m s) (now : ℤ) :
    ∃ s', s.cleanupTklines randomKey item now = some s' ∧
      Tally randomKey item placed (fun a => if now < (item a).hold then m a else 0) s' ∧
      ∀ b, b ∉ placed → SameOf s s' b := by
  obtain ⟨s', hrun, h', hsame⟩ :=
    h.expireAll now [.glines, .klines, .dlines, .xlines, .rxlines, .rklines, .resv]
  refine ⟨s', hrun, h'.congr fun a _ => ?_, hsame⟩
  have hmem : (item a).type.list ∈
      [.glines, .klines, .dlines, .xlines, .rxlines, .rklines, .resv] := by
    cases (item a).type.list <;> decide
  by_cases hnow : now < (item a).hold
  · rw [if_pos hnow, if_neg fun h => absurd hnow h.2.not_gt]
  · rw [if_neg hnow, if_pos ⟨hmem, not_lt.mp hnow⟩]

/-! ### Runs -/

/-- Nothing has the ban. -/
structure Absent (s : TempBans) (a : ℕ) : Prop where
  temporary : ∀ l, a ∉ s.temporary l
  records : ∀ i, (s.table.atable i).countP (·.aconf == a) = 0
  items : ∀ t, a ∉ s.confItems t
  resv : ∀ i, a ∉ s.resvTable i
  freed : a ∉ s.freed

theorem Absent.same (h : s.Absent a) (hs : SameOf s s' a) : s'.Absent a where
  temporary l := List.count_eq_zero.mp ((hs.temporary l).trans (List.count_eq_zero.mpr (h.temporary l)))
  records i := (hs.records i).trans (h.records i)
  items t := List.count_eq_zero.mp ((hs.items t).trans (List.count_eq_zero.mpr (h.items t)))
  resv i := List.count_eq_zero.mp ((hs.resv i).trans (List.count_eq_zero.mpr (h.resv i)))
  freed := List.count_eq_zero.mp (hs.freed.trans (List.count_eq_zero.mpr h.freed))

theorem count_insert (t : HashChain.Table ℕ ℕ) (i k a b : ℕ) :
    (HashChain.insert t i a k).count b = (t k).count b + if k = i ∧ b = a then 1 else 0 :=
  count_update_cons t i k a b

theorem countP_insert (t : HashChain.Table ℕ AddressRec) (i k : ℕ) (r : AddressRec) (b : ℕ) :
    (HashChain.insert t i r k).countP (·.aconf == b) =
      (t k).countP (·.aconf == b) + if k = i ∧ b = r.aconf then 1 else 0 := by
  rw [HashChain.insert_apply]
  by_cases hk : k = i
  · rw [if_pos hk, List.countP_cons, hk]
    exact congrArg _ (if_congr ⟨fun h => ⟨rfl, (beq_iff_eq.mp h).symm⟩,
      fun h => beq_iff_eq.mpr h.2.symm⟩ rfl rfl)
  · rw [if_neg hk, if_neg fun h => hk h.1, Nat.add_zero]

theorem sameOf_makeItem (hb : b ≠ a) : SameOf s (s.makeItem randomKey item a) b := by
  have hitems (t : TempType) : SameOf s
      { s with confItems := Function.update s.confItems t (a :: s.confItems t) } b :=
    ⟨fun _ => rfl, fun _ => rfl, fun t' => by
      rw [count_update_cons, if_neg fun h => hb h.2, Nat.add_zero], fun _ => rfl, rfl, Iff.rfl⟩
  rw [makeItem]
  split
  · exact SameOf.refl s b
  · exact SameOf.refl s b
  · exact SameOf.refl s b
  · refine (hitems .cresv).trans ⟨fun _ => rfl, fun _ => rfl, fun _ => rfl, fun i => ?_, rfl, Iff.rfl⟩
    rw [count_insert, if_neg fun h => hb h.2, Nat.add_zero]
  · exact hitems _

theorem sameOf_addTempLine (hb : b ≠ a) : SameOf s (s.addTempLine item a) b := by
  have htemporary (l : TempList) :
      (Function.update s.temporary (item a).type.list (a :: s.temporary (item a).type.list) l).count b =
        (s.temporary l).count b := by
    rw [count_update_cons, if_neg fun h => hb h.2, Nat.add_zero]
  rw [addTempLine]
  dsimp only
  split
  · refine ⟨htemporary, fun i => ?_, fun _ => rfl, fun _ => rfl, rfl, Iff.rfl⟩
    rw [ConfTable.addConfByAddress, countP_insert, if_neg fun h => hb h.2, Nat.add_zero]
  · exact ⟨htemporary, fun _ => rfl, fun _ => rfl, fun _ => rfl, rfl, List.mem_cons.trans (or_iff_right hb)⟩

/-- What `make_conf_item` leaves alone. -/
theorem makeItem_frame (s : TempBans) (a : ℕ) : (s.makeItem randomKey item a).temporary = s.temporary ∧
    (s.makeItem randomKey item a).table = s.table ∧ (s.makeItem randomKey item a).freed = s.freed := by
  rw [makeItem]
  split <;> exact ⟨rfl, rfl, rfl⟩

theorem makeItem_items (h : s.Absent a) (t : TempType) :
    ((s.makeItem randomKey item a).confItems t).count a =
      if (item a).type.isAddress = false ∧ (item a).type = t then 1 else 0 := by
  have hzero := List.count_eq_zero.mpr (h.items t)
  rw [makeItem]
  cases (item a).type with
  | gline | kline | dline => exact hzero
  | cresv | xline | rxline | rkline | nresv =>
      dsimp only
      rw [count_update_cons, hzero, Nat.zero_add]
      exact if_congr (by simp [TempType.isAddress, eq_comm]) rfl rfl

theorem makeItem_resv (h : s.Absent a) (i : ℕ) :
    ((s.makeItem randomKey item a).resvTable i).count a =
      if (item a).type = .cresv ∧ strhash randomKey (item a).name = i then 1 else 0 := by
  have hzero := List.count_eq_zero.mpr (h.resv i)
  rw [makeItem]
  cases (item a).type with
  | cresv =>
      dsimp only
      rw [count_insert, hzero, Nat.zero_add]
      exact if_congr (by simp [eq_comm]) rfl rfl
  | _ => exact hzero

/-- A new ban is on its list and in force, and the others are where they were. -/
theorem place_spec (h : s.Absent a) :
    Standing randomKey item ((s.makeItem randomKey item a).addTempLine item a) a 1 ∧
      ∀ b, b ≠ a → SameOf s ((s.makeItem randomKey item a).addTempLine item a) b := by
  refine ⟨?_, fun b hb => (sameOf_makeItem hb).trans (sameOf_addTempLine hb)⟩
  obtain ⟨htemporary, htable, hfreed⟩ := @makeItem_frame randomKey item s a
  have hitems := @makeItem_items randomKey item s a h
  have hresv := @makeItem_resv randomKey item s a h
  generalize s.makeItem randomKey item a = s₁ at *
  have hlist (l : TempList) :
      (Function.update s₁.temporary (item a).type.list (a :: s₁.temporary (item a).type.list) l).count a =
        if (item a).type.list = l then 1 else 0 := by
    rw [count_update_cons, htemporary, List.count_eq_zero.mpr (h.temporary l), Nat.zero_add]
    exact if_congr (by simp [eq_comm]) rfl rfl
  have hzero : s₁.freed.count a = 0 := by
    rw [hfreed]
    exact List.count_eq_zero.mpr h.freed
  rw [addTempLine]
  dsimp only
  split
  · rename_i ht
    refine ⟨hlist, fun i => ?_, hitems, hresv, hzero, fun _ hf => absurd (ht.symm.trans hf) nofun⟩
    have hfiled : filedAddress (fun a => (item a).access) a = (item a).access.host :=
      if_neg ((item a).host_ne ht)
    rw [ConfTable.addConfByAddress, countP_insert, hfiled, htable, h.records, Nat.zero_add]
    exact if_congr (by simp [ht, eq_comm]) rfl rfl
  · rename_i ht
    refine ⟨hlist, fun i => ?_, hitems, hresv, hzero, fun _ _ => List.mem_cons_self⟩
    rw [if_neg fun h => ht h.1, htable]
    exact h.records i

/-- The bans that are placed in a run, and the times at which the timer runs. -/
def placedIn : List Event → List ℕ
  | [] => []
  | .place a :: es => a :: placedIn es
  | .cleanup _ :: es => placedIn es

def timesOf : List Event → List ℤ
  | [] => []
  | .place _ :: es => timesOf es
  | .cleanup now :: es => now :: timesOf es

theorem Tally.place (h : Tally randomKey item placed m s) (ha : a ∉ placed) (habsent : s.Absent a) :
    Tally randomKey item (insert a placed) (Function.update m a 1)
        ((s.makeItem randomKey item a).addTempLine item a) ∧
      ∀ b, b ≠ a → SameOf s ((s.makeItem randomKey item a).addTempLine item a) b := by
  obtain ⟨hplaced, hsame⟩ := @place_spec randomKey item s a habsent
  have hne : ∀ b ∈ placed, b ≠ a := fun b hb => ne_of_mem_of_not_mem hb ha
  refine ⟨⟨?_, ?_, fun l b hb => ?_⟩, hsame⟩
  · rintro b (rfl | hb)
    · rw [Function.update_self]
      exact hplaced
    · rw [Function.update_of_ne (hne b hb)]
      exact (h.standing b hb).same (hsame b (hne b hb))
  · rintro b (rfl | hb)
    · rw [Function.update_self]
    · rw [Function.update_of_ne (hne b hb)]
      exact h.le_one b hb
  · by_cases hba : b = a
    · exact .inl hba
    · have hcount := List.count_pos_iff.mpr hb
      rw [(hsame b hba).temporary l] at hcount
      exact .inr (h.mem l b (List.count_pos_iff.mp hcount))

/-- Behind a run, a ban stands or it was due at one of the times. -/
theorem Tally.run (h : Tally randomKey item placed m s) {es : List Event}
    (hnd : (placedIn es).Nodup) (hnew : ∀ a ∈ placedIn es, a ∉ placed ∧ s.Absent a) :
    ∃ s' m', TempBans.run randomKey item s es = some s' ∧
      Tally randomKey item (placed ∪ {a | a ∈ placedIn es}) m' s' ∧
      (∀ a, m' a = 0 → m a = 0 ∨ ∃ t ∈ timesOf es, (item a).hold ≤ t) ∧
      ∀ b, b ∉ placed → b ∉ placedIn es → SameOf s s' b := by
  induction es generalizing s placed m with
  | nil =>
      refine ⟨s, m, rfl, ?_, fun a ha => .inl ha, fun b _ _ => SameOf.refl s b⟩
      rwa [show placed ∪ {a | a ∈ placedIn []} = placed by simp [placedIn]]
  | cons e es ih =>
      cases e with
      | place a =>
          obtain ⟨hout, hnd⟩ := List.nodup_cons.mp hnd
          obtain ⟨ha, habsent⟩ := hnew a List.mem_cons_self
          obtain ⟨h₁, hsame₁⟩ := h.place ha habsent
          have hnew₁ : ∀ b ∈ placedIn es, b ∉ insert a placed ∧
              ((s.makeItem randomKey item a).addTempLine item a).Absent b := by
            intro b hb
            obtain ⟨hb₁, hb₂⟩ := hnew b (List.mem_cons_of_mem a hb)
            have hne : b ≠ a := ne_of_mem_of_not_mem hb hout
            exact ⟨fun h => h.elim hne hb₁, hb₂.same (hsame₁ b hne)⟩
          obtain ⟨s', m', hrun, h', hdue, hsame⟩ := ih h₁ hnd hnew₁
          refine ⟨s', m', hrun, ?_, fun b hb => ?_, fun b hb hbe => ?_⟩
          · have hset : placed ∪ {b | b ∈ placedIn (.place a :: es)} =
                insert a placed ∪ {b | b ∈ placedIn es} := by
              ext b
              simp [placedIn, or_left_comm, or_assoc]
            rwa [hset]
          · refine (hdue b hb).imp_left fun hzero => ?_
            by_cases hba : b = a
            · rw [hba, Function.update_self] at hzero
              cases hzero
            · rwa [Function.update_of_ne hba] at hzero
          · obtain ⟨hba, hbe⟩ := not_or.mp (List.mem_cons.not.mp hbe)
            exact (hsame₁ b hba).trans (hsame b (fun h => h.elim hba hb) hbe)
      | cleanup now =>
          obtain ⟨s₁, hstep, h₁, hsame₁⟩ := h.cleanup now
          have hnew₁ : ∀ b ∈ placedIn es, b ∉ placed ∧ s₁.Absent b := fun b hb =>
            ⟨(hnew b hb).1, (hnew b hb).2.same (hsame₁ b (hnew b hb).1)⟩
          obtain ⟨s', m', hrun, h', hdue, hsame⟩ := ih h₁ hnd hnew₁
          refine ⟨s', m', ?_, h', fun a ha => ?_, fun b hb hbe =>
            (hsame₁ b hb).trans (hsame b hb hbe)⟩
          · rw [TempBans.run, List.foldlM_cons, TempBans.step, hstep]
            exact hrun
          · rcases hdue a ha with hzero | ⟨t, ht, hhold⟩
            · by_cases hnow : now < (item a).hold
              · rw [if_pos hnow] at hzero
                exact .inl hzero
              · exact .inr ⟨now, List.mem_cons_self, not_lt.mp hnow⟩
            · exact .inr ⟨t, List.mem_cons_of_mem now ht, hhold⟩

/-- After every run of the timer, in every run in which its times do not decrease: of the bans that
were ever placed, those that hold longer are on their list and in force, once each, and not freed;
the others are in no list and in no table, and were freed once. No list has a node of a freed item,
and whatever else was in the tables is where it was. -/
theorem bans_expire (randomKey : U32) (item : ℕ → BanItem) (s : TempBans) (es : List Event) (now : ℤ)
    (hempty : ∀ l, s.temporary l = []) (hnew : ∀ a ∈ placedIn es, s.Absent a)
    (hnd : (placedIn es).Nodup) (htimes : (timesOf es ++ [now]).Pairwise (· ≤ ·)) :
    ∃ s', run randomKey item s (es ++ [.cleanup now]) = some s' ∧
      (∀ a ∈ placedIn es,
        Standing randomKey item s' a (if now < (item a).hold then 1 else 0)) ∧
      (∀ l, ∀ a ∈ s'.temporary l, a ∈ placedIn es ∧ now < (item a).hold ∧ a ∉ s'.freed) ∧
      ∀ b, b ∉ placedIn es → SameOf s s' b := by
  have hstart : Tally randomKey item ∅ (fun _ => 1) s :=
    ⟨nofun, nofun, fun l a ha => by rw [hempty] at ha; cases ha⟩
  obtain ⟨s₁, m, hrun, htally, hdue, hsame⟩ :=
    hstart.run hnd fun a ha => ⟨Set.notMem_empty a, hnew a ha⟩
  rw [Set.empty_union] at htally
  obtain ⟨s', hstep, htally', hsame'⟩ := htally.cleanup now
  have hlast : ∀ t ∈ timesOf es, t ≤ now := fun t ht =>
    (List.pairwise_append.mp htimes).2.2 t ht now List.mem_cons_self
  have hstands : Tally randomKey item {a | a ∈ placedIn es}
      (fun a => if now < (item a).hold then 1 else 0) s' := by
    refine htally'.congr fun a ha => ?_
    split
    · rename_i hnow
      refine Nat.le_antisymm (htally.le_one a ha) (Nat.one_le_iff_ne_zero.mpr fun hzero => ?_)
      rcases hdue a hzero with hone | ⟨t, ht, hhold⟩
      · cases hone
      · exact absurd hnow (hhold.trans (hlast t ht)).not_gt
    · rfl
  refine ⟨s', ?_, hstands.standing, fun l a ha => ?_, fun b hb =>
    (hsame b (Set.notMem_empty b) hb).trans (hsame' b hb)⟩
  · rw [TempBans.run, List.foldlM_append]
    rw [TempBans.run] at hrun
    rw [hrun]
    simp [TempBans.step, hstep]
  · have hplaced := hstands.mem l a ha
    obtain ⟨hone, -⟩ := hstands.of_temporary ha
    have hnow : now < (item a).hold := by
      by_contra hnot
      rw [if_neg hnot] at hone
      cases hone
    refine ⟨hplaced, hnow, List.count_eq_zero.mp ?_⟩
    rw [(hstands.standing a hplaced).freed, hone]

section Example

/-- A reserved channel until 100, and a K-line until 200. -/
def twoBans : ℕ → BanItem
  | 0 => ⟨.cresv, 100, ⟨[], [], none, false, false⟩, "#warez".toList, 0, nofun, rfl⟩
  | _ => ⟨.kline, 200, ⟨"10.0.0.1".toList, ['*'], none, false, false⟩, [], 0, fun _ => by decide, rfl⟩

def noBans : TempBans := ⟨ConfTable.init, fun _ => [], fun _ => [], fun _ => [], [], []⟩

theorem bans_expire_two : ∃ s',
    run 0 twoBans noBans [.place 0, .place 1, .cleanup 50, .cleanup 150] = some s' ∧
      Standing 0 twoBans s' 0 0 ∧ Standing 0 twoBans s' 1 1 := by
  have habsent : ∀ a, noBans.Absent a := fun a =>
    ⟨nofun, fun _ => rfl, nofun, nofun, nofun⟩
  obtain ⟨s', hrun, hstanding, -⟩ := bans_expire 0 twoBans noBans
    [.place 0, .place 1, .cleanup 50] 150 (fun _ => rfl) (fun a _ => habsent a) (by decide)
    (by decide)
  exact ⟨s', hrun, hstanding 0 (by decide), hstanding 1 (by decide)⟩

end Example

end TempBans

end Unirc
