import Mathlib.Data.Fintype.Pi
import Unirc.HashChain
import Unirc.Hostmask
import Unirc.Runs

/-!
# The connection counts of addresses

The table of `s_conf.c` that counts the connections of each address: the lookup
that adds, the removal with its trailing pointer, and the sweep.
-/

namespace Unirc

deriving instance DecidableEq for IpAddr

abbrev IP_HASH_SIZE : ℕ := 0x1000

/-- Four bytes as a word of a little-endian machine. -/
def word32 (b : Fin 4 → BitVec 8) : BitVec 32 :=
  (b 0).setWidth 32 ||| (b 1).setWidth 32 <<< 8 ||| (b 2).setWidth 32 <<< 16 |||
    (b 3).setWidth 32 <<< 24

def hashIp : IpAddr → ℕ
  | .inet ip => (((ip >>> 12) + ip) &&& BitVec.ofNat 32 (IP_HASH_SIZE - 1)).toNat
  | .inet6 b =>
      let hash := word32 (fun i => b (i.castAdd 12)) ^^^ word32 (fun i => b (i.natAdd 12))
      let hash := hash ^^^ hash.sshiftRight 16
      let hash := hash ^^^ hash.sshiftRight 8
      (hash &&& BitVec.ofNat 32 (IP_HASH_SIZE - 1)).toNat

structure IpEntry where
  ip : IpAddr
  count : ℕ
  lastAttempt : ℤ
  deriving DecidableEq

/-- `throttle_time` and `hard_fdlimit`. -/
structure IpLimits where
  throttleTime : ℤ
  hardFdlimit : ℕ

/-- `ip_hash_table` and `ip_entries_count`. -/
structure IpTable where
  table : HashChain.Table ℕ IpEntry
  entriesCount : ℕ

namespace IpTable

variable (lim : IpLimits) (now : ℤ) (t : IpTable)

def empty : IpTable := ⟨fun _ => [], 0⟩

/-- An entry that may be freed. -/
def idle (e : IpEntry) : Bool :=
  e.count == 0 && decide (lim.throttleTime ≤ now - e.lastAttempt)

/-- `garbage_collect_ip_entries`. -/
def garbageCollect : IpTable where
  table := fun i => (t.table i).filter fun e => !idle lim now e
  entriesCount := t.entriesCount -
    ((List.range IP_HASH_SIZE).map fun i => (t.table i).countP (idle lim now)).sum

/-- The entry of an address. -/
def find? (ip : IpAddr) : Option IpEntry := (t.table (hashIp ip)).find? (·.ip = ip)

/-- `find_or_add_ip`: the table afterwards, which holds an entry for the address. -/
def findOrAdd (ip : IpAddr) : IpTable :=
  match t.find? ip with
  | some _ => t
  | none =>
      let t := if 2 * lim.hardFdlimit ≤ t.entriesCount then t.garbageCollect lim now else t
      ⟨HashChain.insert t.table (hashIp ip) ⟨ip, 0, 0⟩, t.entriesCount + 1⟩

/-- A write through the pointer that `find_or_add_ip` returns. -/
def update (ip : IpAddr) (f : IpEntry → IpEntry) : IpTable :=
  { t with
    table := Function.update t.table (hashIp ip)
      ((t.table (hashIp ip)).map fun e => if e.ip = ip then f e else e) }

/-- The head of `attach_iline`. -/
def addOne (ip : IpAddr) : IpTable :=
  (t.findOrAdd lim now ip).update ip fun e => { e with count := e.count + 1 }

/-- `conf_connect_allowed` for an address without a D-line. -/
def connectAllowed (ip : IpAddr) : IpTable :=
  (t.findOrAdd lim now ip).update ip fun e => { e with lastAttempt := now }

/-- The loop of `remove_one_ip` on a chain: `walked` is what lies behind `ptr`, and
`last` the part of it up to `last_ptr`, once that is set. An entry of another address
leaves `last_ptr` where it is. -/
def removeWalk (ip : IpAddr) : Option (List IpEntry) → List IpEntry → List IpEntry → List IpEntry
  | _, walked, [] => walked
  | last, walked, e :: es =>
      if e.ip ≠ ip then removeWalk ip last (walked ++ [e]) es
      else
        let e := { e with count := e.count - 1 }
        if idle lim now e then last.getD [] ++ es
        else removeWalk ip (some (walked ++ [e])) (walked ++ [e]) es

/-- Whether the loop frees an entry. -/
def frees (ip : IpAddr) (l : List IpEntry) : Bool :=
  l.any fun e => e.ip == ip && idle lim now { e with count := e.count - 1 }

/-- `remove_one_ip`. -/
def removeOne (ip : IpAddr) : IpTable where
  table := Function.update t.table (hashIp ip)
    (removeWalk lim now ip none [] (t.table (hashIp ip)))
  entriesCount := if frees lim now ip (t.table (hashIp ip)) then t.entriesCount - 1
    else t.entriesCount

section Walk

variable {lim now} {ip : IpAddr}

theorem removeWalk_append (last : Option (List IpEntry)) (walked es : List IpEntry)
    {pre : List IpEntry} (hpre : ∀ e ∈ pre, e.ip ≠ ip) :
    removeWalk lim now ip last walked (pre ++ es) =
      removeWalk lim now ip last (walked ++ pre) es := by
  induction pre generalizing walked with
  | nil => rw [List.nil_append, List.append_nil]
  | cons e pre ih =>
      rw [List.cons_append, removeWalk, if_pos (hpre e List.mem_cons_self),
        ih _ fun x hx => hpre x (List.mem_cons_of_mem e hx), List.append_assoc]
      rfl

/-- Without an entry of the address the chain stays. -/
theorem removeWalk_of_forall (last : Option (List IpEntry)) (walked : List IpEntry)
    {es : List IpEntry} (hes : ∀ e ∈ es, e.ip ≠ ip) :
    removeWalk lim now ip last walked es = walked ++ es := by
  induction es generalizing walked with
  | nil => rw [removeWalk, List.append_nil]
  | cons e es ih =>
      rw [removeWalk, if_pos (hes e List.mem_cons_self),
        ih _ fun x hx => hes x (List.mem_cons_of_mem e hx), List.append_assoc]
      rfl

/-- The count of the address in a chain goes down, and the entry goes when it is idle. -/
def removeSpec (lim : IpLimits) (now : ℤ) (ip : IpAddr) (l : List IpEntry) : List IpEntry :=
  (l.map fun e => if e.ip = ip then { e with count := e.count - 1 } else e).filter
    fun e => e.ip ≠ ip ∨ idle lim now e = false

/-- The entry that the removal frees is the first of its chain. -/
def FreesFirst (lim : IpLimits) (now : ℤ) (ip : IpAddr) (l : List IpEntry) : Prop :=
  ∀ e ∈ l, e.ip = ip → idle lim now { e with count := e.count - 1 } = true → l.head? = some e

/-- The entries of other addresses. -/
def others (ip : IpAddr) (l : List IpEntry) : List IpEntry := l.filter (·.ip ≠ ip)

theorem others_of_forall {l : List IpEntry} (hl : ∀ e ∈ l, e.ip ≠ ip) : others ip l = l :=
  List.filter_eq_self.mpr fun e he => by simpa using hl e he

theorem removeSpec_of_forall {l : List IpEntry} (hl : ∀ e ∈ l, e.ip ≠ ip) :
    removeSpec lim now ip l = l := by
  have hmap : l.map (fun e => if e.ip = ip then { e with count := e.count - 1 } else e) = l := by
    conv_rhs => rw [← List.map_id l]
    exact List.map_congr_left fun e he => if_neg (hl e he)
  rw [removeSpec, hmap]
  exact List.filter_eq_self.mpr fun e he => by simp [hl e he]

theorem removeSpec_append (l m : List IpEntry) :
    removeSpec lim now ip (l ++ m) = removeSpec lim now ip l ++ removeSpec lim now ip m := by
  rw [removeSpec, List.map_append, List.filter_append]
  rfl

theorem others_append (l m : List IpEntry) : others ip (l ++ m) = others ip l ++ others ip m :=
  List.filter_append l m

/-- A chain with an entry of the address, and only one. -/
theorem exists_split {l : List IpEntry} (hl : (l.map IpEntry.ip).Nodup) {e : IpEntry}
    (he : e ∈ l) (hip : e.ip = ip) : ∃ pre post, l = pre ++ e :: post ∧
      (∀ x ∈ pre, x.ip ≠ ip) ∧ ∀ x ∈ post, x.ip ≠ ip := by
  obtain ⟨pre, post, rfl⟩ := List.append_of_mem he
  rw [List.map_append, List.map_cons, List.nodup_append] at hl
  obtain ⟨-, htail, hdisj⟩ := hl
  refine ⟨pre, post, rfl, fun x hx hxip => ?_, fun x hx hxip => ?_⟩
  · exact hdisj x.ip (List.mem_map_of_mem hx) e.ip List.mem_cons_self (hxip.trans hip.symm)
  · exact (List.nodup_cons.mp htail).1 (hip ▸ hxip ▸ List.mem_map_of_mem hx)

theorem removeWalk_split {pre post : List IpEntry} {e : IpEntry} (hip : e.ip = ip)
    (hpre : ∀ x ∈ pre, x.ip ≠ ip) (hpost : ∀ x ∈ post, x.ip ≠ ip) :
    removeWalk lim now ip none [] (pre ++ e :: post) =
      if idle lim now { e with count := e.count - 1 } = true then post
      else pre ++ { e with count := e.count - 1 } :: post := by
  rw [removeWalk_append none [] _ hpre, removeWalk, if_neg (not_not.mpr hip)]
  dsimp only
  split
  · rfl
  · rw [removeWalk_of_forall _ _ hpost, List.nil_append, List.append_assoc]
    rfl

theorem removeSpec_split {pre post : List IpEntry} {e : IpEntry} (hip : e.ip = ip)
    (hpre : ∀ x ∈ pre, x.ip ≠ ip) (hpost : ∀ x ∈ post, x.ip ≠ ip) :
    removeSpec lim now ip (pre ++ e :: post) =
      if idle lim now { e with count := e.count - 1 } = true then pre ++ post
      else pre ++ { e with count := e.count - 1 } :: post := by
  have hcons : e :: post = [e] ++ post := rfl
  rw [hcons, removeSpec_append, removeSpec_append, removeSpec_of_forall hpre,
    removeSpec_of_forall hpost, removeSpec, List.map_singleton, if_pos hip]
  split
  · rename_i hidle
    rw [List.filter_cons_of_neg (by subst hip; simpa using hidle)]
    rfl
  · rename_i hidle
    rw [List.filter_cons_of_pos (by subst hip; simpa using hidle)]
    rfl

/-- The walk is right exactly if it frees at the head of the chain. -/
theorem removeWalk_eq_spec_iff {l : List IpEntry} (hl : (l.map IpEntry.ip).Nodup) :
    removeWalk lim now ip none [] l = removeSpec lim now ip l ↔ FreesFirst lim now ip l := by
  by_cases hex : ∃ e ∈ l, e.ip = ip
  · obtain ⟨e, he, hip⟩ := hex
    obtain ⟨pre, post, rfl, hpre, hpost⟩ := exists_split hl he hip
    have honly : ∀ x ∈ pre ++ e :: post, x.ip = ip → x = e := by
      intro x hx hxip
      rcases List.mem_append.mp hx with hx | hx
      · exact absurd hxip (hpre x hx)
      · rcases List.mem_cons.mp hx with rfl | hx
        · rfl
        · exact absurd hxip (hpost x hx)
    rw [removeWalk_split hip hpre hpost, removeSpec_split hip hpre hpost]
    split
    · rename_i hidle
      constructor
      · intro heq x hx hxip _
        have hnil : pre = [] := by
          have := congrArg List.length heq
          rw [List.length_append] at this
          exact List.length_eq_zero_iff.mp (by omega)
        rw [honly x hx hxip, hnil]
        rfl
      · intro hfirst
        have hhead := hfirst e he hip hidle
        cases pre with
        | nil => rfl
        | cons x pre =>
            obtain rfl : x = e := Option.some.inj hhead
            exact absurd hip (hpre x List.mem_cons_self)
    · rename_i hidle
      refine iff_of_true rfl fun x hx hxip hx' => ?_
      rw [honly x hx hxip] at hx'
      exact absurd hx' hidle
  · have hno : ∀ e ∈ l, e.ip ≠ ip := fun e he hip => hex ⟨e, he, hip⟩
    rw [removeWalk_of_forall none [] hno, removeSpec_of_forall hno]
    exact iff_of_true rfl fun e he hip => absurd hip (hno e he)

/-- The other entries stay exactly in the same case. -/
theorem others_removeWalk_iff {l : List IpEntry} (hl : (l.map IpEntry.ip).Nodup) :
    others ip (removeWalk lim now ip none [] l) = others ip l ↔ FreesFirst lim now ip l := by
  rw [← removeWalk_eq_spec_iff hl]
  by_cases hex : ∃ e ∈ l, e.ip = ip
  · obtain ⟨e, he, hip⟩ := hex
    obtain ⟨pre, post, rfl, hpre, hpost⟩ := exists_split hl he hip
    have hone : ∀ x : IpEntry, x.ip = ip → others ip (x :: post) = post := by
      intro x hx
      rw [others, List.filter_cons_of_neg (by simp [hx])]
      exact others_of_forall hpost
    rw [removeWalk_split hip hpre hpost, removeSpec_split hip hpre hpost]
    rw [others_append, others_of_forall hpre, hone e hip]
    split
    · rw [others_of_forall hpost]
    · have hone' := hone { e with count := e.count - 1 } hip
      rw [others_append, others_of_forall hpre, hone']
      exact iff_of_true rfl rfl
  · have hno : ∀ e ∈ l, e.ip ≠ ip := fun e he hip => hex ⟨e, he, hip⟩
    rw [removeWalk_of_forall none [] hno, removeSpec_of_forall hno]
    exact iff_of_true rfl rfl

end Walk

theorem table_update (ip : IpAddr) (f : IpEntry → IpEntry) (i : ℕ) :
    (t.update ip f).table i = if i = hashIp ip then
      (t.table (hashIp ip)).map fun e => if e.ip = ip then f e else e
    else t.table i := Function.update_apply _ _ _ _

theorem table_removeOne (ip : IpAddr) (i : ℕ) : (t.removeOne lim now ip).table i =
    if i = hashIp ip then removeWalk lim now ip none [] (t.table (hashIp ip))
    else t.table i := Function.update_apply _ _ _ _

/-- Every address has at most one entry, in its chain, with its count; where the count
is positive there is one. -/
structure Counts (t : IpTable) (live : IpAddr → ℕ) : Prop where
  hash : ∀ {i e}, e ∈ t.table i → hashIp e.ip = i
  nodup : ∀ i, ((t.table i).map IpEntry.ip).Nodup
  count : ∀ {i e}, e ∈ t.table i → e.count = live e.ip
  present : ∀ ip, 0 < live ip → ∃ e ∈ t.table (hashIp ip), e.ip = ip

namespace Counts

variable {lim now t} {live : IpAddr → ℕ}

theorem empty : IpTable.empty.Counts fun _ => 0 where
  hash := fun h => by cases h
  nodup := fun _ => List.nodup_nil
  count := fun h => by cases h
  present := fun _ h => absurd h (Nat.lt_irrefl 0)

theorem garbageCollect (h : t.Counts live) (lim : IpLimits) (now : ℤ) :
    (t.garbageCollect lim now).Counts live where
  hash := fun he => h.hash (List.mem_of_mem_filter he)
  nodup := fun i => (h.nodup i).sublist ((List.filter_sublist).map IpEntry.ip)
  count := fun he => h.count (List.mem_of_mem_filter he)
  present := by
    intro ip hip
    obtain ⟨e, he, rfl⟩ := h.present ip hip
    refine ⟨e, List.mem_filter.mpr ⟨he, ?_⟩, rfl⟩
    have hcount : e.count ≠ 0 := by
      rw [h.count he]
      omega
    simp [idle, hcount]

theorem find?_eq_none (h : t.find? ip = none) {e : IpEntry} (he : e ∈ t.table (hashIp ip)) :
    e.ip ≠ ip := by
  have := List.find?_eq_none.mp h e he
  simpa using this

/-- After the lookup there is an entry for the address. -/
theorem findOrAdd (h : t.Counts live) (lim : IpLimits) (now : ℤ) (ip : IpAddr) :
    (t.findOrAdd lim now ip).Counts live ∧
    ∃ e ∈ (t.findOrAdd lim now ip).table (hashIp ip), e.ip = ip := by
  unfold IpTable.findOrAdd
  split
  · rename_i e he
    exact ⟨h, e, List.mem_of_find?_eq_some he, by simpa using List.find?_some he⟩
  · rename_i hnone
    extract_lets t'
    have h' : t'.Counts live := by
      dsimp only [t']
      split
      · exact h.garbageCollect lim now
      · exact h
    have hno : ∀ {e}, e ∈ t'.table (hashIp ip) → e.ip ≠ ip := by
      intro e he
      dsimp only [t'] at he
      split at he
      · exact find?_eq_none hnone (List.mem_of_mem_filter he)
      · exact find?_eq_none hnone he
    have hmem : ∀ {i e}, e ∈ HashChain.insert t'.table (hashIp ip) ⟨ip, 0, 0⟩ i →
        e ∈ t'.table i ∨ (i = hashIp ip ∧ e = ⟨ip, 0, 0⟩) := by
      intro i e he
      rw [HashChain.insert_apply] at he
      split at he
      · rename_i hi
        rcases List.mem_cons.mp he with he | he
        · exact Or.inr ⟨hi, he⟩
        · exact Or.inl (hi ▸ he)
      · exact Or.inl he
    have hin : (⟨ip, 0, 0⟩ : IpEntry) ∈
        HashChain.insert t'.table (hashIp ip) ⟨ip, 0, 0⟩ (hashIp ip) := by
      rw [HashChain.insert_apply, if_pos rfl]
      exact List.mem_cons_self
    have hzero : live ip = 0 := by
      by_contra hne
      obtain ⟨e, he, hip⟩ := h'.present ip (by omega)
      exact hno he hip
    refine ⟨⟨fun he => ?_, fun i => ?_, fun he => ?_, fun q hq => ?_⟩, ⟨ip, 0, 0⟩, hin, rfl⟩
    · rcases hmem he with he | ⟨hi, rfl⟩
      · exact h'.hash he
      · exact hi.symm
    · change ((HashChain.insert t'.table (hashIp ip) ⟨ip, 0, 0⟩ i).map IpEntry.ip).Nodup
      rw [HashChain.insert_apply]
      split
      · refine List.nodup_cons.mpr ⟨fun hm => ?_, h'.nodup _⟩
        obtain ⟨e, he, hip⟩ := List.mem_map.mp hm
        exact hno he hip
      · exact h'.nodup i
    · rcases hmem he with he | ⟨-, rfl⟩
      · exact h'.count he
      · exact hzero.symm
    · obtain ⟨e, he, hip⟩ := h'.present q hq
      refine ⟨e, ?_, hip⟩
      change e ∈ HashChain.insert t'.table (hashIp ip) ⟨ip, 0, 0⟩ (hashIp q)
      rw [HashChain.insert_apply]
      split
      · rename_i heq
        exact List.mem_cons_of_mem _ (heq ▸ he)
      · exact he

theorem mem_update {f : IpEntry → IpEntry} {i : ℕ} {e : IpEntry} :
    e ∈ (t.update ip f).table i ↔ ∃ e₀ ∈ t.table i,
      e = if i = hashIp ip ∧ e₀.ip = ip then f e₀ else e₀ := by
  rw [table_update]
  split
  · rename_i hi
    subst hi
    simp [List.mem_map, eq_comm]
  · rename_i hi
    simp [hi]

theorem update (h : t.Counts live) {live' : IpAddr → ℕ} {f : IpEntry → IpEntry}
    (hex : ∃ e ∈ t.table (hashIp ip), e.ip = ip) (hf : ∀ e, (f e).ip = e.ip)
    (hcount : ∀ e, e.count = live ip → (f e).count = live' ip)
    (hother : ∀ q, q ≠ ip → live' q = live q) : (t.update ip f).Counts live' where
  hash := by
    intro i e he
    obtain ⟨e₀, he₀, rfl⟩ := mem_update.mp he
    split
    · rw [hf]
      exact h.hash he₀
    · exact h.hash he₀
  nodup := by
    intro i
    have hips : ((t.update ip f).table i).map IpEntry.ip = (t.table i).map IpEntry.ip := by
      rw [table_update]
      split
      · rename_i hi
        subst hi
        rw [List.map_map]
        refine List.map_congr_left fun e _ => ?_
        rw [Function.comp_apply]
        split
        · exact hf e
        · rfl
      · rfl
    rw [hips]
    exact h.nodup i
  count := by
    intro i e he
    obtain ⟨e₀, he₀, rfl⟩ := mem_update.mp he
    by_cases hip : e₀.ip = ip
    · have hi : i = hashIp ip := by rw [← h.hash he₀, hip]
      rw [if_pos ⟨hi, hip⟩, hf, hip]
      exact hcount e₀ (hip ▸ h.count he₀)
    · rw [if_neg fun hc => hip hc.2, hother _ hip]
      exact h.count he₀
  present := by
    intro q hq
    by_cases hqip : q = ip
    · subst hqip
      obtain ⟨e, he, hip⟩ := hex
      exact ⟨f e, mem_update.mpr ⟨e, he, by rw [if_pos ⟨rfl, hip⟩]⟩, by rw [hf, hip]⟩
    · rw [hother q hqip] at hq
      obtain ⟨e, he, hip⟩ := h.present q hq
      refine ⟨e, mem_update.mpr ⟨e, he, ?_⟩, hip⟩
      rw [if_neg fun hc => hqip (hip ▸ hc.2)]

theorem removeOne (h : t.Counts live) {ip : IpAddr}
    (hfirst : FreesFirst lim now ip (t.table (hashIp ip))) :
    (t.removeOne lim now ip).Counts fun q => if q = ip then live q - 1 else live q := by
  have hwalk := (removeWalk_eq_spec_iff (h.nodup (hashIp ip))).mpr hfirst
  have hmem : ∀ {i e}, e ∈ (t.removeOne lim now ip).table i ↔ ∃ e₀ ∈ t.table i,
      (e = if e₀.ip = ip then { e₀ with count := e₀.count - 1 } else e₀) ∧
        (e.ip ≠ ip ∨ idle lim now e = false) := by
    intro i e
    rw [table_removeOne]
    split
    · rename_i hi
      subst hi
      simp only [hwalk, removeSpec, List.mem_filter, List.mem_map, decide_eq_true_eq]
      constructor
      · rintro ⟨⟨e₀, he₀, rfl⟩, hkeep⟩
        exact ⟨e₀, he₀, rfl, hkeep⟩
      · rintro ⟨e₀, he₀, rfl, hkeep⟩
        exact ⟨⟨e₀, he₀, rfl⟩, hkeep⟩
    · rename_i hi
      constructor
      · intro he
        have hne : e.ip ≠ ip := fun hip => hi (by rw [← h.hash he, hip])
        exact ⟨e, he, by rw [if_neg hne], Or.inl hne⟩
      · rintro ⟨e₀, he₀, rfl, -⟩
        have hne : e₀.ip ≠ ip := fun hip => hi (by rw [← h.hash he₀, hip])
        rwa [if_neg hne]
  refine ⟨fun he => ?_, fun i => ?_, fun he => ?_, fun q hq => ?_⟩
  · obtain ⟨e₀, he₀, rfl, -⟩ := hmem.mp he
    split
    · exact (h.hash he₀ : hashIp e₀.ip = _)
    · exact h.hash he₀
  · rw [table_removeOne]
    split
    · rename_i hi
      subst hi
      rw [hwalk, removeSpec]
      refine List.Nodup.sublist ((List.filter_sublist).map IpEntry.ip) ?_
      rw [List.map_map]
      have hips : (t.table (hashIp ip)).map (IpEntry.ip ∘ fun e =>
          if e.ip = ip then { e with count := e.count - 1 } else e) =
          (t.table (hashIp ip)).map IpEntry.ip := by
        refine List.map_congr_left fun e _ => ?_
        rw [Function.comp_apply]
        split <;> rfl
      rw [hips]
      exact h.nodup _
    · exact h.nodup i
  · obtain ⟨e₀, he₀, rfl, -⟩ := hmem.mp he
    by_cases hip : e₀.ip = ip
    · simp only [if_pos hip]
      rw [h.count he₀]
    · simp only [if_neg hip]
      exact h.count he₀
  · split at hq
    · rename_i hqip
      subst hqip
      obtain ⟨e, he, hip⟩ := h.present q (by omega)
      refine ⟨{ e with count := e.count - 1 }, hmem.mpr ⟨e, he, by rw [if_pos hip], ?_⟩, hip⟩
      have hcount := h.count he
      rw [hip] at hcount
      have hne : e.count - 1 ≠ 0 := by omega
      exact Or.inr (by simp [idle, hne])
    · rename_i hqip
      obtain ⟨e, he, hip⟩ := h.present q hq
      have hne : e.ip ≠ ip := fun hc => hqip (hip ▸ hc)
      exact ⟨e, hmem.mpr ⟨e, he, by rw [if_neg hne], Or.inl hne⟩, hip⟩

end Counts

/-- The events that touch the table. -/
inductive Event where
  | connect (now : ℤ) (ip : IpAddr)
  | admitted (now : ℤ) (ip : IpAddr)
  | remove (now : ℤ) (ip : IpAddr)
  | collect (now : ℤ)

/-- The table with the number of live admitted connections of every address. -/
structure Tracked where
  table : IpTable
  live : IpAddr → ℕ

def step (lim : IpLimits) (s : Tracked) : Event → Tracked
  | .connect now ip => { s with table := s.table.connectAllowed lim now ip }
  | .admitted now ip =>
      ⟨s.table.addOne lim now ip, fun q => if q = ip then s.live q + 1 else s.live q⟩
  | .remove now ip =>
      ⟨s.table.removeOne lim now ip, fun q => if q = ip then s.live q - 1 else s.live q⟩
  | .collect now => { s with table := s.table.garbageCollect lim now }

def init : Tracked := ⟨empty, fun _ => 0⟩

def run (lim : IpLimits) (events : List Event) : Tracked := events.foldl (step lim) init

/-- A removal that frees an entry frees the first one of a chain. -/
def Event.FreesFirst (lim : IpLimits) (s : Tracked) : Event → Prop
  | .remove now ip => IpTable.FreesFirst lim now ip (s.table.table (hashIp ip))
  | _ => True

instance (lim : IpLimits) (s : Tracked) (e : Event) : Decidable (e.FreesFirst lim s) := by
  unfold Event.FreesFirst IpTable.FreesFirst
  split <;> infer_instance

variable {lim : IpLimits}

theorem Counts.step (s : Tracked) (e : Event) (h : s.table.Counts s.live)
    (he : Event.FreesFirst lim s e) : (step lim s e).table.Counts (step lim s e).live := by
  cases e with
  | connect now ip =>
    have hfound := h.findOrAdd lim now ip
    exact hfound.1.update hfound.2 (fun _ => rfl) (fun _ hc => hc) fun _ _ => rfl
  | admitted now ip =>
    have hfound := h.findOrAdd lim now ip
    refine hfound.1.update hfound.2 (fun _ => rfl) (fun e hc => ?_) fun q hq => if_neg hq
    simp only [hc]
    exact (if_pos rfl).symm
  | remove now ip => exact h.removeOne he
  | collect now => exact h.garbageCollect lim now

/-- What the claim of the connection table says of a state. -/
structure Sound (lim : IpLimits) (s : Tracked) : Prop where
  counted : ∀ ip, 0 < s.live ip → ∃ e, e.count = s.live ip ∧
    (s.table.table (hashIp ip)).filter (·.ip = ip) = [e]
  elsewhere : ∀ ip i, i ≠ hashIp ip → ∀ e ∈ s.table.table i, e.ip ≠ ip
  kept : ∀ now ip i, Event.FreesFirst lim s (.remove now ip) →
    others ip ((s.table.removeOne lim now ip).table i) = others ip (s.table.table i)

theorem Counts.sound {s : Tracked} (h : s.table.Counts s.live) : Sound lim s where
  counted := by
    intro ip hip
    obtain ⟨e, he, rfl⟩ := h.present ip hip
    obtain ⟨pre, post, hl, hpre, hpost⟩ := exists_split (h.nodup _) he rfl
    refine ⟨e, h.count he, ?_⟩
    have hno : ∀ {l : List IpEntry}, (∀ x ∈ l, x.ip ≠ e.ip) → l.filter (·.ip = e.ip) = [] :=
      fun hl => List.filter_eq_nil_iff.mpr fun x hx => by simpa using hl x hx
    rw [hl, List.filter_append, List.filter_cons_of_pos (by simp), hno hpre, hno hpost]
    rfl
  elsewhere := fun ip i hi e he hip => hi (by rw [← h.hash he, hip])
  kept := by
    intro now ip i hfirst
    rw [table_removeOne]
    split
    · rename_i hi
      rw [(others_removeWalk_iff (h.nodup _)).mpr hfirst, hi]
    · rfl

/-- In every run whose removals free at the head of a chain only, the table counts the
live connections of every address. -/
theorem sound_run (events : List Event)
    (h : Runs.Each (step lim) (Event.FreesFirst lim) init events) : Sound lim (run lim events) :=
  Counts.sound (Runs.invariant (P := fun s => s.table.Counts s.live) Counts.step Counts.empty h)

section Collision

/-- Two addresses of one chain. -/
def firstIp : IpAddr := .inet 0x0A000001
def secondIp : IpAddr := .inet 0x0B000001

def someLimits : IpLimits := ⟨30, 1024⟩

/-- Both addresses have one connection, and `ip` loses its own. -/
def collidingRun (ip : IpAddr) : List Event :=
  [.connect 0 firstIp, .admitted 0 firstIp, .connect 0 secondIp, .admitted 0 secondIp, .remove 60 ip]

theorem sound_collidingRun_secondIp : Sound someLimits (run someLimits (collidingRun secondIp)) :=
  sound_run _ ⟨by decide, by decide, by decide, by decide, by decide, trivial⟩

/-- The other connection is forgotten with the entry that is freed. -/
theorem not_sound_collidingRun_firstIp :
    ¬ ∀ events : List Event, Sound someLimits (run someLimits events) := by
  intro h
  obtain ⟨e, -, he⟩ := (h (collidingRun firstIp)).counted secondIp (by decide)
  have hnil : ((run someLimits (collidingRun firstIp)).table.table (hashIp secondIp)).filter
      (·.ip = secondIp) = [] := by decide
  rw [hnil] at he
  cases he

end Collision

end IpTable

end Unirc
