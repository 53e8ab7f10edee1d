import Mathlib.Algebra.Order.Group.Int
import Mathlib.Data.Fintype.Pi
import Unirc.CidrClass

/-!
# The per-CIDR counts over a run

While a list is in use it counts the prefixes of the attached clients, and of no prefix more
clients than the limit were counted without `over_rule`. `rebuild_cidr_class` keeps this unless it
switches the limit on with clients attached or takes over a list that is above the new limit.
-/

namespace Unirc

open KeyCounts

theorem perm_cons_eraseP {β : Type*} {p : β → Bool} {l : List β} {a : β}
    (h : l.find? p = some a) : l.Perm (a :: l.eraseP p) := by
  obtain ⟨ha, l₁, l₂, rfl, hbefore⟩ := List.find?_eq_some_iff_append.mp h
  have hout : ∀ b ∈ l₁, ¬ p b = true := fun b hb => by simpa using hbefore b hb
  rw [List.eraseP_append_right _ hout, List.eraseP_cons_of_pos ha]
  exact List.perm_middle

namespace AddrFamily

variable {α : Type*} [DecidableEq α] (F : AddrFamily α)

/-- The prefixes of clients, each with whether it was counted with `over_rule`. -/
def prefixes (bits : ℤ) (ips : List (α × Bool)) : List α :=
  ips.map fun a => F.maskAddr a.1 bits.toNat

/-- The clients of a prefix that were counted without `over_rule`. -/
def bounded (bits : ℤ) (ips : List (α × Bool)) (mask : α) : ℕ :=
  ips.countP fun a => !a.2 && F.maskAddr a.1 bits.toNat == mask

/-- The items are distinct prefixes of attached clients with the numbers of these clients, and one
is above the limit only with a client that was counted with `over_rule`. -/
structure ListRight (limit bits : ℤ) (ips : List (α × Bool)) (list : List (CidrItem α)) : Prop where
  nodup : (list.map Entry.key).Nodup
  mask : ∀ item ∈ list, ∃ a ∈ ips, F.maskAddr a.1 bits.toNat = item.key
  number : ∀ item ∈ list, 1 ≤ item.number ∧
    item.number = ips.countP fun a => F.maskAddr a.1 bits.toNat == item.key
  limit : ∀ item ∈ list, limit < item.number →
    ∃ a ∈ ips, F.maskAddr a.1 bits.toNat = item.key ∧ a.2 = true

/-- A redefinition that switches the limit on finds nobody attached, and one that takes a list over
leaves no prefix with more clients than the limit that were counted without `over_rule`. -/
def Redefinable (oldLimit newLimit oldBits newBits : ℤ) (ips : List (α × Bool)) : Prop :=
  0 < newLimit → 0 < newBits →
    (0 < oldLimit ∧ 0 < oldBits ∨ ips = []) ∧
      (oldBits = newBits → ∀ mask, (F.bounded newBits ips mask : ℤ) ≤ newLimit)

/-- What the list of a family keeps. -/
structure Kept (limit bits : ℤ) (ips : List (α × Bool)) (list : List (CidrItem α)) : Prop where
  counts : 0 < limit → 0 < bits → Counts (F.prefixes bits ips) list
  within : 0 < limit → 0 < bits → ∀ mask, (F.bounded bits ips mask : ℤ) ≤ limit
  off : limit ≤ 0 ∨ bits ≤ 0 → list = []

variable {F} {limit bits : ℤ} {ips : List (α × Bool)} {list : List (CidrItem α)}

theorem count_prefixes (mask : α) :
    (F.prefixes bits ips).count mask =
      ips.countP fun a => F.maskAddr a.1 bits.toNat == mask := by
  simp [prefixes, List.count, List.countP_map, Function.comp_def]

theorem bounded_le (mask : α) : F.bounded bits ips mask ≤ (F.prefixes bits ips).count mask := by
  rw [count_prefixes]
  exact List.countP_mono_left fun a _ h => (Bool.and_eq_true _ _ ▸ h).2

omit [DecidableEq α] in
theorem hits_prefix (ip : α) :
    ∀ mask ∈ F.prefixes bits ips,
      F.matchAddr ip mask bits.toNat = true ↔ mask = F.maskAddr ip bits.toNat := by
  intro mask hmask
  obtain ⟨a, -, rfl⟩ := List.mem_map.mp hmask
  exact F.match_mask bits.toNat ip a.1

namespace Kept

theorem of_off (hoff : limit ≤ 0 ∨ bits ≤ 0) : F.Kept limit bits ips [] where
  counts := fun _ _ => by omega
  within := fun _ _ => by omega
  off := fun _ => rfl

theorem nil : F.Kept limit bits [] [] where
  counts := fun _ _ => Counts.nil
  within := fun hlimit _ _ => by simpa [bounded] using hlimit.le
  off := fun _ => rfl

theorem perm {ips' : List (α × Bool)} (h : F.Kept limit bits ips list) (hperm : ips.Perm ips') :
    F.Kept limit bits ips' list where
  counts := fun hlimit hbits => (h.counts hlimit hbits).perm (hperm.map _)
  within := fun hlimit hbits mask => by
    rw [bounded, ← hperm.countP_eq]
    exact h.within hlimit hbits mask
  off := h.off

theorem right (h : F.Kept limit bits ips list) : F.ListRight limit bits ips list := by
  by_cases hon : 0 < limit ∧ 0 < bits
  · have hcounts := h.counts hon.1 hon.2
    have hnumber : ∀ item ∈ list, item.number =
        ips.countP fun a => F.maskAddr a.1 bits.toNat == item.key := by
      intro item hitem
      rw [(hcounts.number hitem).2, count_prefixes]
    refine ⟨hcounts.nodup, fun item hitem => ?_, fun item hitem => ?_, fun item hitem habove => ?_⟩
    · exact List.mem_map.mp (hcounts.mem hitem)
    · exact ⟨hcounts.pos item hitem, hnumber item hitem⟩
    · by_contra hnone
      have hsame : F.bounded bits ips item.key = item.number := by
        rw [hnumber item hitem, bounded]
        refine List.countP_congr fun a ha => ?_
        cases hrule : a.2
        · simp
        · have hne : F.maskAddr a.1 bits.toNat ≠ item.key := fun he => hnone ⟨a, ha, he, hrule⟩
          simpa using hne
      have := h.within hon.1 hon.2 item.key
      omega
  · have hnil := h.off (by omega)
    subst hnil
    constructor <;> simp

theorem limitReached (h : F.Kept limit bits ips list) (overRule : Bool) (ip : α) :
    ((F.limitReached limit bits overRule ip list).1 = true →
        overRule = false ∧ (F.limitReached limit bits overRule ip list).2 = list) ∧
      ((F.limitReached limit bits overRule ip list).1 = false →
        F.Kept limit bits ((ip, overRule) :: ips)
          (F.limitReached limit bits overRule ip list).2) := by
  by_cases hon : 0 < limit ∧ 0 < bits
  · obtain ⟨hlimit, hbits⟩ := hon
    have hcounts := h.counts hlimit hbits
    have hhit : ∀ mask ∈ F.prefixes bits ips,
        F.matchAddr ip mask bits.toNat = true ↔ mask = F.maskAddr ip bits.toNat := hits_prefix ip
    simp only [AddrFamily.limitReached, if_neg hlimit.not_ge, if_neg hbits.not_ge]
    constructor
    · intro hfull
      obtain ⟨hsame, hover⟩ := hcounts.enter_full hhit hfull
      have hnot := (Bool.and_eq_true_iff.mp hover).1
      exact ⟨by simpa using hnot, hsame⟩
    · intro hfree
      have hzero : (!overRule && decide (limit ≤ ((0 : ℕ) : ℤ))) = false := by
        have : ¬ limit ≤ 0 := hlimit.not_ge
        simp [this]
      obtain ⟨hentered, hbelow⟩ := hcounts.enter hhit hzero hfree
      refine ⟨fun _ _ => hentered, fun _ _ mask => ?_, fun hoff => by omega⟩
      have hwithin := h.within hlimit hbits mask
      cases overRule with
      | true => simpa [bounded] using hwithin
      | false =>
          have hroom : ¬ limit ≤ ((F.prefixes bits ips).count (F.maskAddr ip bits.toNat) : ℤ) := by
            simpa using hbelow
          have hle : F.bounded bits ips mask ≤ (F.prefixes bits ips).count mask := bounded_le mask
          simp only [bounded, List.countP_cons, Bool.not_false, Bool.true_and, beq_iff_eq]
          simp only [bounded] at hle hwithin
          split
          · rename_i he
            subst he
            push_cast
            omega
          · simpa using hwithin
  · have hoff : limit ≤ 0 ∨ bits ≤ 0 := by omega
    have hsame : F.limitReached limit bits overRule ip list = (false, list) := by
      simp only [AddrFamily.limitReached]
      split_ifs <;> first | rfl | omega
    rw [hsame, h.off hoff]
    exact ⟨fun hfull => Bool.noConfusion hfull, fun _ => of_off hoff⟩

theorem remove {ip : α} {overRule : Bool} (h : F.Kept limit bits ((ip, overRule) :: ips) list) :
    F.Kept limit bits ips (F.remove limit bits ip list) := by
  by_cases hon : 0 < limit ∧ 0 < bits
  · obtain ⟨hlimit, hbits⟩ := hon
    simp only [AddrFamily.remove, if_neg hlimit.ne', if_neg hbits.not_ge]
    have hhit : ∀ mask ∈ F.prefixes bits ((ip, overRule) :: ips),
        F.matchAddr ip mask bits.toNat = true ↔ mask = F.maskAddr ip bits.toNat := hits_prefix ip
    refine ⟨fun _ _ => (h.counts hlimit hbits).leave hhit, fun _ _ mask => ?_,
      fun hoff => by omega⟩
    refine le_trans ?_ (h.within hlimit hbits mask)
    simp only [bounded, List.countP_cons]
    push_cast
    split <;> omega
  · have hoff : limit ≤ 0 ∨ bits ≤ 0 := by omega
    rw [h.off hoff]
    have hnil : F.remove limit bits ip [] = [] := by
      simp only [AddrFamily.remove, leave, ite_self]
    rw [hnil]
    exact of_off hoff

theorem recount (h : F.Kept limit bits ips list) (more : List α) :
    F.Kept limit bits ((more.map fun ip => (ip, true)).reverse ++ ips)
      (more.foldl (fun list ip => (F.limitReached limit bits true ip list).2) list) := by
  induction more generalizing ips list with
  | nil => simpa using h
  | cons ip more ih =>
      have hfree : (F.limitReached limit bits true ip list).1 = false := by
        by_contra hfull
        have := ((h.limitReached true ip).1 (by simpa using hfull)).1
        cases this
      simpa using ih ((h.limitReached true ip).2 hfree)

end Kept

variable (F) in
/-- The list of a family after `rebuild_cidr_class`. -/
def redefined (oldLimit newLimit oldBits newBits : ℤ) (ips : List α) (list : List (CidrItem α)) :
    List (CidrItem α) :=
  if 0 < oldLimit ∧ 0 < newLimit ∧ 0 < oldBits ∧ 0 < newBits then
    F.rebuildCidrList newLimit newBits ips list (oldBits != newBits)
  else []

theorem Kept.redefined {oldLimit newLimit oldBits newBits : ℤ}
    (h : F.Kept oldLimit oldBits ips list)
    (hcond : F.Redefinable oldLimit newLimit oldBits newBits ips) :
    F.Kept newLimit newBits
      (ips.map fun a => (a.1, a.2 || recountedList oldLimit newLimit oldBits newBits))
      (F.redefined oldLimit newLimit oldBits newBits (ips.map Prod.fst) list) := by
  by_cases hboth : 0 < oldLimit ∧ 0 < newLimit ∧ 0 < oldBits ∧ 0 < newBits
  · simp only [AddrFamily.redefined, if_pos hboth, rebuildCidrList]
    have ⟨holdLimit, hnewLimit, holdBits, hnewBits⟩ := hboth
    by_cases hbits : oldBits = newBits
    · subst hbits
      have hlist : recountedList oldLimit newLimit oldBits oldBits = false := by
        simp [recountedList]
      have htaken := (hcond hnewLimit hnewBits).2 rfl
      simp only [hlist, Bool.or_false, Prod.mk.eta, List.map_id', bne_self_eq_false,
        Bool.not_false, if_true]
      exact ⟨fun _ _ => h.counts holdLimit holdBits, fun _ _ => htaken, fun hoff => by omega⟩
    · have hlist : recountedList oldLimit newLimit oldBits newBits = true := by
        simp [recountedList, holdLimit, hnewLimit, holdBits, hnewBits, hbits]
      have hchanged : (!(oldBits != newBits)) = false := by simpa using hbits
      have hstart : F.Kept newLimit newBits [] [] := Kept.nil
      simp only [hlist, Bool.or_true, hchanged, Bool.false_eq_true, if_false]
      refine (hstart.recount (ips.map Prod.fst)).perm ?_
      rw [List.append_nil, List.map_map]
      exact List.reverse_perm _
  · have hnil : F.redefined oldLimit newLimit oldBits newBits (ips.map Prod.fst) list = [] :=
      if_neg hboth
    rw [hnil]
    by_cases hnew : 0 < newLimit ∧ 0 < newBits
    · have hips : ips = [] := by
        rcases (hcond hnew.1 hnew.2).1 with hold | hips
        · exact absurd ⟨hold.1, hnew.1, hold.2, hnew.2⟩ hboth
        · exact hips
      rw [hips]
      exact Kept.nil
    · exact Kept.of_off (by omega)

end AddrFamily

namespace CidrState

variable {κ : Type*} (s : CidrState κ)

def ips4 : List (V4Addr × Bool) :=
  s.attached.filterMap fun a => a.ip.v4?.map fun ip => (ip, a.overRule)

def ips6 : List (V6Addr × Bool) :=
  s.attached.filterMap fun a => a.ip.v6?.map fun ip => (ip, a.overRule)

/-- Both lists are right, and `mask_addr` stays within the address for the lengths of the class. -/
structure Right : Prop where
  ipv4 : ipv4Family.ListRight s.aclass.numberPerCidr s.aclass.cidrBitlenIpv4 s.ips4
    s.aclass.listIpv4
  ipv6 : ipv6Family.ListRight s.aclass.numberPerCidr s.aclass.cidrBitlenIpv6 s.ips6
    s.aclass.listIpv6
  inside : 0 < s.aclass.cidrBitlenIpv6 →
    ∀ w ∈ maskStores6 s.aclass.cidrBitlenIpv6.toNat, w.1 < 16

/-- A redefinition sets no length of 128 and is in order for both lists. -/
def Orderly : CidrEvent κ → Prop
  | .redefine settings =>
      settings.cidrBitlenIpv6 ≠ 128 ∧
        ipv4Family.Redefinable s.aclass.numberPerCidr settings.numberPerCidr
          s.aclass.cidrBitlenIpv4 settings.cidrBitlenIpv4 s.ips4 ∧
        ipv6Family.Redefinable s.aclass.numberPerCidr settings.numberPerCidr
          s.aclass.cidrBitlenIpv6 settings.cidrBitlenIpv6 s.ips6
  | _ => True

structure Inv : Prop where
  ipv4 : ipv4Family.Kept s.aclass.numberPerCidr s.aclass.cidrBitlenIpv4 s.ips4 s.aclass.listIpv4
  ipv6 : ipv6Family.Kept s.aclass.numberPerCidr s.aclass.cidrBitlenIpv6 s.ips6 s.aclass.listIpv6
  bits : s.aclass.cidrBitlenIpv6 ≠ 128

variable {s}

theorem inv_start {settings : CidrSettings} (hbits : settings.cidrBitlenIpv6 ≠ 128) :
    (start settings : CidrState κ).Inv :=
  ⟨AddrFamily.Kept.nil, AddrFamily.Kept.nil, hbits⟩

theorem Inv.right (h : s.Inv) : s.Right where
  ipv4 := h.ipv4.right
  ipv6 := h.ipv6.right
  inside := fun _ => by
    have hle := s.aclass.ipv6_le
    have hne := h.bits
    rw [maskStores6_inside_iff]
    omega

section Steps

variable [DecidableEq κ]

theorem Inv.attachConf (h : s.Inv) (client : κ) (ip : IpAddr) (exempt illegal : Bool) :
    (s.attachConf client ip exempt illegal).Inv := by
  rw [CidrState.attachConf]
  split
  · exact h
  · split
    · exact h
    · cases ip with
      | inet ip =>
          obtain ⟨hfull, hfree⟩ := h.ipv4.limitReached exempt ip
          dsimp only [CidrClass.cidrLimitReached]
          split
          · next hreached => exact ⟨by simpa [(hfull hreached).2] using h.ipv4, h.ipv6, h.bits⟩
          · next hreached => exact ⟨hfree (by simpa using hreached), h.ipv6, h.bits⟩
      | inet6 ip =>
          obtain ⟨hfull, hfree⟩ := h.ipv6.limitReached exempt ip
          dsimp only [CidrClass.cidrLimitReached]
          split
          · next hreached => exact ⟨h.ipv4, by simpa [(hfull hreached).2] using h.ipv6, h.bits⟩
          · next hreached => exact ⟨h.ipv4, hfree (by simpa using hreached), h.bits⟩

theorem Inv.detachConf (h : s.Inv) (client : κ) : (s.detachConf client).Inv := by
  rw [CidrState.detachConf]
  split
  · exact h
  · next a hfind =>
      have hperm : s.attached.Perm (a :: s.attached.eraseP (·.client == client)) :=
        perm_cons_eraseP hfind
      have h4 := h.ipv4.perm (hperm.filterMap _)
      have h6 := h.ipv6.perm (hperm.filterMap _)
      obtain ⟨client', ip, overRule⟩ := a
      cases ip with
      | inet ip => exact ⟨h4.remove, h6, h.bits⟩
      | inet6 ip => exact ⟨h4, h6.remove, h.bits⟩

end Steps

theorem rebuildCidrClass_settings (ips : List IpAddr) (old new : CidrClass) :
    (rebuildCidrClass ips old new).toCidrSettings = new.toCidrSettings := by
  rw [rebuildCidrClass]
  split <;> rfl

theorem rebuildCidrClass_listIpv4 (ips : List IpAddr) (old : CidrClass) (settings : CidrSettings) :
    (rebuildCidrClass ips old (CidrClass.make settings)).listIpv4 =
      ipv4Family.redefined old.numberPerCidr settings.numberPerCidr old.cidrBitlenIpv4
        settings.cidrBitlenIpv4 (ips.filterMap IpAddr.v4?) old.listIpv4 := by
  by_cases hlimit : 0 < old.numberPerCidr ∧ 0 < (CidrClass.make settings).numberPerCidr
  · rw [rebuildCidrClass, if_pos hlimit]
    by_cases hbits : 0 < old.cidrBitlenIpv4 ∧ 0 < (CidrClass.make settings).cidrBitlenIpv4
    · exact (if_pos hbits).trans (if_pos ⟨hlimit.1, hlimit.2, hbits⟩).symm
    · exact (if_neg hbits).trans (if_neg fun h => hbits h.2.2).symm
  · rw [rebuildCidrClass, if_neg hlimit]
    exact (if_neg fun h => hlimit ⟨h.1, h.2.1⟩).symm

theorem rebuildCidrClass_listIpv6 (ips : List IpAddr) (old : CidrClass) (settings : CidrSettings) :
    (rebuildCidrClass ips old (CidrClass.make settings)).listIpv6 =
      ipv6Family.redefined old.numberPerCidr settings.numberPerCidr old.cidrBitlenIpv6
        settings.cidrBitlenIpv6 (ips.filterMap IpAddr.v6?) old.listIpv6 := by
  by_cases hlimit : 0 < old.numberPerCidr ∧ 0 < (CidrClass.make settings).numberPerCidr
  · rw [rebuildCidrClass, if_pos hlimit]
    by_cases hbits : 0 < old.cidrBitlenIpv6 ∧ 0 < (CidrClass.make settings).cidrBitlenIpv6
    · exact (if_pos hbits).trans (if_pos ⟨hlimit.1, hlimit.2, hbits⟩).symm
    · exact (if_neg hbits).trans (if_neg fun h => hbits h.2.2).symm
  · rw [rebuildCidrClass, if_neg hlimit]
    exact (if_neg fun h => hlimit ⟨h.1, h.2.1⟩).symm

theorem filterMap_v4 :
    (s.attached.map Attachment.ip).filterMap IpAddr.v4? = s.ips4.map Prod.fst := by
  simp only [ips4, List.filterMap_map, List.map_filterMap]
  refine List.filterMap_congr fun a _ => ?_
  cases h : a.ip <;> simp [h, IpAddr.v4?]

theorem filterMap_v6 :
    (s.attached.map Attachment.ip).filterMap IpAddr.v6? = s.ips6.map Prod.fst := by
  simp only [ips6, List.filterMap_map, List.map_filterMap]
  refine List.filterMap_congr fun a _ => ?_
  cases h : a.ip <;> simp [h, IpAddr.v6?]

theorem ips4_redefine (settings : CidrSettings) :
    (s.redefine settings).ips4 = s.ips4.map fun a =>
      (a.1, a.2 || recountedList s.aclass.numberPerCidr settings.numberPerCidr
        s.aclass.cidrBitlenIpv4 settings.cidrBitlenIpv4) := by
  simp only [ips4, CidrState.redefine, List.filterMap_map, List.map_filterMap]
  refine List.filterMap_congr fun a _ => ?_
  cases h : a.ip <;> simp [h, IpAddr.v4?, recounted]

theorem ips6_redefine (settings : CidrSettings) :
    (s.redefine settings).ips6 = s.ips6.map fun a =>
      (a.1, a.2 || recountedList s.aclass.numberPerCidr settings.numberPerCidr
        s.aclass.cidrBitlenIpv6 settings.cidrBitlenIpv6) := by
  simp only [ips6, CidrState.redefine, List.filterMap_map, List.map_filterMap]
  refine List.filterMap_congr fun a _ => ?_
  cases h : a.ip <;> simp [h, IpAddr.v6?, recounted]

theorem Inv.redefine (h : s.Inv) {settings : CidrSettings}
    (hcond : s.Orderly (.redefine settings)) : (s.redefine settings).Inv := by
  obtain ⟨hbits, hcond4, hcond6⟩ := hcond
  have hsettings : (s.redefine settings).aclass.toCidrSettings = settings :=
    rebuildCidrClass_settings _ _ _
  constructor
  · rw [ips4_redefine, hsettings]
    have hlist : (s.redefine settings).aclass.listIpv4 = _ := rebuildCidrClass_listIpv4 _ _ _
    rw [hlist, filterMap_v4]
    exact h.ipv4.redefined hcond4
  · rw [ips6_redefine, hsettings]
    have hlist : (s.redefine settings).aclass.listIpv6 = _ := rebuildCidrClass_listIpv6 _ _ _
    rw [hlist, filterMap_v6]
    exact h.ipv6.redefined hcond6
  · rw [hsettings]
    exact hbits

variable [DecidableEq κ]

theorem Inv.step (h : s.Inv) (e : CidrEvent κ) (hcond : s.Orderly e) :
    (CidrState.step s e).Inv := by
  cases e with
  | attach client ip exempt illegal => exact h.attachConf client ip exempt illegal
  | detach client => exact h.detachConf client
  | redefine settings => exact h.redefine hcond

/-- After every run of attachments, detachments and orderly redefinitions of a class that starts
without clients, both lists are right. -/
theorem right_of_orderly (settings : CidrSettings) (hbits : settings.cidrBitlenIpv6 ≠ 128)
    (es : List (CidrEvent κ)) (horderly : Runs.Each CidrState.step Orderly (start settings) es) :
    (es.foldl CidrState.step (start settings)).Right := by
  have hinv : (es.foldl CidrState.step (start settings)).Inv :=
    Runs.invariant (P := Inv) (fun _ e h hcond => h.step e hcond) (inv_start hbits) horderly
  exact hinv.right

def limited (number : ℤ) : CidrSettings := ⟨number, 24, 64, by decide, by decide⟩

/-- Two clients of a /24, of which the class takes one. -/
theorem right_of_orderly_network :
    ([.attach 1 (.inet 0x0a000001#32) false false, .attach 2 (.inet 0x0a000002#32) false false,
      .redefine (limited 2), .attach 2 (.inet 0x0a000002#32) false false, .detach 1].foldl
        CidrState.step (start (limited 1)) : CidrState ℕ).Right := by
  refine right_of_orderly (limited 1) (by decide) _ ⟨trivial, trivial, ⟨by decide, ?_, ?_⟩, ?_⟩
  · refine fun _ _ => ⟨Or.inl (by decide), fun _ _ => ?_⟩
    exact (Int.ofNat_le.mpr List.countP_le_length).trans (by decide)
  · refine fun _ _ => ⟨Or.inl (by decide), fun _ _ => ?_⟩
    exact (Int.ofNat_le.mpr List.countP_le_length).trans (by decide)
  · exact ⟨trivial, trivial, trivial⟩

/-- A class without a limit takes a client and is then given one: the client is not counted. -/
theorem not_forall_right :
    ¬ ∀ (settings : CidrSettings) (es : List (CidrEvent ℕ)),
      (es.foldl CidrState.step (start settings)).Right := by
  intro h
  have hright := (h (limited 0) [.attach 1 (.inet 0x0a000001#32) false false, .redefine (limited 2),
    .attach 2 (.inet 0x0a000002#32) false false]).ipv4.number
  exact absurd hright (by decide)

end CidrState

end Unirc
