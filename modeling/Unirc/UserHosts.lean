import Unirc.NameHash

/-!
# The userhost table

`count_user_host`, `add_user_host` and `delete_user_host` of `hash.c`: for each host a
list of user names with the numbers of clients of that name.
-/

namespace Unirc

structure NameHost where
  name : Buf (USERLEN + 1)
  icount : ℕ
  gcount : ℕ
  lcount : ℕ

structure UserHost where
  host : Buf (HOSTLEN + 1)
  list : List NameHost

/-- The three numbers that `count_user_host` reports. -/
structure HostCounts where
  globals : ℕ
  locals : ℕ
  idents : ℕ
  deriving DecidableEq

namespace HostCounts

def zero : HostCounts := ⟨0, 0, 0⟩

/-- One client more: `flag` is set for a remote one. -/
def add (c : HostCounts) (flag hasident : Bool) : HostCounts :=
  ⟨c.globals + 1, c.locals + (!flag).toNat, c.idents + (!flag && hasident).toNat⟩

/-- One client less; no number goes below zero. -/
def sub (c : HostCounts) (flag hasident : Bool) : HostCounts :=
  ⟨c.globals - 1, c.locals - (!flag).toNat, c.idents - (!flag && hasident).toNat⟩

/-- What is left of the counts of a name; without clients there are none. -/
def afterSub (c : HostCounts) (flag hasident : Bool) : Option HostCounts :=
  if (c.sub flag hasident).globals = 0 ∧ (c.sub flag hasident).locals = 0 then none
  else some (c.sub flag hasident)

end HostCounts

namespace NameHost

def key (n : NameHost) : Str := fold n.name.val

def counts (n : NameHost) : HostCounts := ⟨n.gcount, n.lcount, n.icount⟩

def setCounts (n : NameHost) (c : HostCounts) : NameHost :=
  ⟨n.name, c.idents, c.globals, c.locals⟩

@[simp] theorem key_setCounts (n : NameHost) (c : HostCounts) : (n.setCounts c).key = n.key := rfl

end NameHost

def UserHost.key (e : UserHost) : Str := fold e.host.val

/-- A user name has an ident answer behind it unless it begins with a tilde. -/
def hasident (user : Str) : Bool := user.head? != some '~'

def stripTilde (user : Str) : Str := if hasident user then user else user.tail

abbrev UserHostTable := HashChain.Table ℕ UserHost

namespace UserHostTable

open Keyed

variable (rk : U32) (t : UserHostTable)

def empty : UserHostTable := fun _ => []

/-- `hash_find_userhost` -/
def find? (host : Str) : Option UserHost :=
  HashChain.lookup UserHost.key (strhash rk) t (fold host)

/-- What `hash_find_userhost` does to the table. -/
def touch (host : Str) : UserHostTable :=
  HashChain.touch UserHost.key (strhash rk) t (fold host)

/-- `count_user_host`, for counts that were zero before. -/
def countUserHost (user host : Str) : HostCounts × UserHostTable :=
  let found := (t.find? rk host).bind fun e => get? NameHost.key (fold user) e.list
  ((found.map NameHost.counts).getD .zero, t.touch rk host)

/-- `find_or_add_userhost` -/
def findOrAddUserhost (host : Buf (HOSTLEN + 1)) : UserHostTable :=
  match t.find? rk host.val with
  | some _ => t.touch rk host.val
  | none => HashChain.insert t (strhash rk (fold host.val)) ⟨host, []⟩

/-- The list of a host in `add_user_host`. -/
def addName (user : Str) (flag hasident : Bool) (l : List NameHost) : List NameHost :=
  match get? NameHost.key (fold user) l with
  | some _ => modify NameHost.key (fold user) (fun n => n.setCounts (n.counts.add flag hasident)) l
  | none => ⟨Buf.strlcpy user, (!flag && hasident).toNat, 1, (!flag).toNat⟩ :: l

/-- The list of a host in `delete_user_host`. -/
def deleteName (user : Str) (flag hasident : Bool) (l : List NameHost) : List NameHost :=
  match get? NameHost.key (fold user) l with
  | some n =>
      let c := n.counts.sub flag hasident
      if c.globals = 0 ∧ c.locals = 0 then remove NameHost.key (fold user) l
      else modify NameHost.key (fold user) (fun n => n.setCounts c) l
  | none => l

/-- Write the list of a host that was found. -/
def modifyList (host : Str) (f : List NameHost → List NameHost) : UserHostTable :=
  HashChain.modify UserHost.key (strhash rk) t (fold host) fun e => { e with list := f e.list }

def addUserHost (user : Str) (host : Buf (HOSTLEN + 1)) (flag : Bool) : UserHostTable :=
  (t.findOrAddUserhost rk host).modifyList rk host.val
    (addName (stripTilde user) flag (hasident user))

def deleteUserHost (user host : Str) (flag : Bool) : UserHostTable :=
  match t.find? rk host with
  | none => t
  | some e =>
      let l := deleteName (stripTilde user) flag (hasident user) e.list
      if l = [] then HashChain.remove UserHost.key (strhash rk) (t.touch rk host) (fold host)
      else (t.touch rk host).modifyList rk host (fun _ => l)

/-- The entry for a host and a user name, by their keys. -/
def entry? (h u : Str) : Option NameHost :=
  (HashChain.lookup UserHost.key (strhash rk) t h).bind fun e => get? NameHost.key u e.list

def counts? (h u : Str) : Option HostCounts := (t.entry? rk h u).map NameHost.counts

/-- Hosts and the names of a host are unique, and a host has names. -/
structure Wf : Prop where
  filed : HashChain.Filed UserHost.key (strhash rk) t
  names : ∀ {h e}, HashChain.lookup UserHost.key (strhash rk) t h = some e →
    Unique NameHost.key e.list ∧ e.list ≠ []

variable {rk t}

section Names

variable {user u : Str} {flag ident : Bool} {l : List NameHost}

theorem counts_addName (hlen : user.length ≤ USERLEN) :
    (get? NameHost.key (fold user) (addName user flag ident l)).map NameHost.counts =
      some ((((get? NameHost.key (fold user) l).map NameHost.counts).getD .zero).add flag ident) := by
  have hval : (Buf.strlcpy user : Buf (USERLEN + 1)).val = user := List.take_of_length_le hlen
  unfold addName
  split
  · rename_i n hn
    rw [get?_modify_self fun n h => (n.key_setCounts _).trans h, hn]
    rfl
  · rename_i hn
    have hkey : NameHost.key ⟨Buf.strlcpy user, (!flag && ident).toNat, 1, (!flag).toNat⟩ =
        fold user := congrArg fold hval
    rw [get?_cons_self hkey, hn]
    simp only [Option.map_some, Option.map_none, Option.getD_none, NameHost.counts,
      HostCounts.add, HostCounts.zero, Nat.zero_add]

theorem get?_addName_of_ne (hlen : user.length ≤ USERLEN) (hu : u ≠ fold user) :
    get? NameHost.key u (addName user flag ident l) = get? NameHost.key u l := by
  have hval : (Buf.strlcpy user : Buf (USERLEN + 1)).val = user := List.take_of_length_le hlen
  unfold addName
  split
  · exact get?_modify_of_ne (fun _ h => h) hu
  · refine get?_cons_of_ne ?_
    rw [NameHost.key, hval]
    exact hu.symm

theorem unique_addName (hlen : user.length ≤ USERLEN) (hl : Unique NameHost.key l) :
    Unique NameHost.key (addName user flag ident l) := by
  have hval : (Buf.strlcpy user : Buf (USERLEN + 1)).val = user := List.take_of_length_le hlen
  unfold addName
  split
  · exact hl.modify fun _ h => h
  · rename_i hn
    refine hl.cons ?_
    rwa [NameHost.key, hval]

theorem addName_ne_nil : addName user flag ident l ≠ [] := by
  unfold addName
  split
  · rename_i n hn
    cases l with
    | nil => cases hn
    | cons a l =>
      unfold Keyed.modify
      split <;> exact List.cons_ne_nil _ _
  · exact List.cons_ne_nil _ _

theorem counts_deleteName (hl : Unique NameHost.key l) :
    (get? NameHost.key (fold user) (deleteName user flag ident l)).map NameHost.counts =
      ((get? NameHost.key (fold user) l).map NameHost.counts).bind
        fun c => c.afterSub flag ident := by
  unfold deleteName
  split
  · rename_i n hn
    dsimp only
    rw [hn, Option.map_some, Option.bind_some, HostCounts.afterSub]
    split
    · rw [hl.get?_remove_self]
      rfl
    · rw [get?_modify_self fun n h => (n.key_setCounts _).trans h, hn]
      rfl
  · rename_i hn
    rw [hn]
    rfl

theorem get?_deleteName_of_ne (hu : u ≠ fold user) :
    get? NameHost.key u (deleteName user flag ident l) = get? NameHost.key u l := by
  unfold deleteName
  split
  · dsimp only
    split
    · exact get?_remove_of_ne hu
    · exact get?_modify_of_ne (fun _ h => h) hu
  · rfl

theorem unique_deleteName (hl : Unique NameHost.key l) :
    Unique NameHost.key (deleteName user flag ident l) := by
  unfold deleteName
  split
  · dsimp only
    split
    · exact hl.remove
    · exact hl.modify fun _ h => h
  · exact hl

end Names

theorem wf_empty : empty.Wf rk := ⟨HashChain.Filed.empty, fun h => by cases h⟩

section ModifyList

variable {host h : Str} {f : List NameHost → List NameHost}

theorem lookup_modifyList_self : HashChain.lookup UserHost.key (strhash rk)
    (t.modifyList rk host f) (fold host) =
      (HashChain.lookup UserHost.key (strhash rk) t (fold host)).map
        fun e => { e with list := f e.list } :=
  HashChain.lookup_modify_self fun _ h => h

theorem lookup_modifyList_of_ne (hh : h ≠ fold host) :
    HashChain.lookup UserHost.key (strhash rk) (t.modifyList rk host f) h =
      HashChain.lookup UserHost.key (strhash rk) t h :=
  HashChain.lookup_modify_of_ne (fun _ h => h) hh

theorem filed_modifyList (ht : HashChain.Filed UserHost.key (strhash rk) t) :
    HashChain.Filed UserHost.key (strhash rk) (t.modifyList rk host f) :=
  ht.modify fun _ h => h

end ModifyList

theorem strhash_key (host : Buf (HOSTLEN + 1)) (l : List NameHost) :
    strhash rk (fold host.val) = strhash rk (UserHost.key ⟨host, l⟩) := rfl

section Add

variable {user : Buf (USERLEN + 1)} {host : Buf (HOSTLEN + 1)} {flag : Bool}

theorem length_stripTilde (user : Buf (USERLEN + 1)) : (stripTilde user.val).length ≤ USERLEN := by
  have := user.property
  unfold stripTilde
  split
  · omega
  · rw [List.length_tail]
    omega

/-- The list of the host before the name is added. -/
def listOf (rk : U32) (t : UserHostTable) (host : Str) : List NameHost :=
  (t.find? rk host).elim [] UserHost.list

theorem find?_findOrAdd (rk : U32) (t : UserHostTable) (host : Buf (HOSTLEN + 1)) :
    ∃ e, HashChain.lookup UserHost.key (strhash rk) (t.findOrAddUserhost rk host)
      (fold host.val) = some e ∧ e.list = t.listOf rk host.val := by
  unfold findOrAddUserhost listOf
  split
  · rename_i e he
    rw [he]
    exact ⟨e, HashChain.lookup_touch.trans he, rfl⟩
  · rename_i he
    rw [he]
    exact ⟨⟨host, []⟩, HashChain.lookup_insert_self rfl, rfl⟩

theorem lookup_findOrAdd_of_ne {h : Str} (hh : h ≠ fold host.val) :
    HashChain.lookup UserHost.key (strhash rk) (t.findOrAddUserhost rk host) h =
      HashChain.lookup UserHost.key (strhash rk) t h := by
  unfold findOrAddUserhost
  split
  · exact HashChain.lookup_touch
  · exact HashChain.lookup_insert_of_ne hh.symm

theorem filed_findOrAdd (ht : HashChain.Filed UserHost.key (strhash rk) t) :
    HashChain.Filed UserHost.key (strhash rk) (t.findOrAddUserhost rk host) := by
  unfold findOrAddUserhost
  split
  · exact ht.touch
  · rename_i hnone
    rw [strhash_key host []]
    exact ht.insert hnone

theorem lookup_add_self (rk : U32) (t : UserHostTable) (user : Buf (USERLEN + 1))
    (host : Buf (HOSTLEN + 1)) (flag : Bool) : ∃ e, HashChain.lookup UserHost.key (strhash rk)
    (t.addUserHost rk user.val host flag) (fold host.val) = some e ∧
      e.list = addName (stripTilde user.val) flag (hasident user.val) (t.listOf rk host.val) := by
  obtain ⟨e, he, hlist⟩ := find?_findOrAdd rk t host
  refine ⟨_, lookup_modifyList_self.trans (congrArg _ he), ?_⟩
  rw [← hlist]

theorem lookup_add_of_ne {h : Str} (hh : h ≠ fold host.val) :
    HashChain.lookup UserHost.key (strhash rk) (t.addUserHost rk user.val host flag) h =
      HashChain.lookup UserHost.key (strhash rk) t h :=
  (lookup_modifyList_of_ne hh).trans (lookup_findOrAdd_of_ne hh)

theorem Wf.unique_listOf (ht : t.Wf rk) (host : Str) : Unique NameHost.key (t.listOf rk host) := by
  unfold listOf
  cases he : t.find? rk host with
  | none => exact List.nodup_nil
  | some e => exact (ht.names he).1

theorem Wf.add (ht : t.Wf rk) (user : Buf (USERLEN + 1)) (host : Buf (HOSTLEN + 1)) (flag : Bool) :
    (t.addUserHost rk user.val host flag).Wf rk where
  filed := filed_modifyList (filed_findOrAdd ht.filed)
  names := by
    intro h e he
    by_cases hh : h = fold host.val
    · subst hh
      obtain ⟨e', he', hlist⟩ := lookup_add_self rk t user host flag
      obtain rfl : e' = e := Option.some.inj (he'.symm.trans he)
      rw [hlist]
      exact ⟨unique_addName (length_stripTilde user) (ht.unique_listOf host.val), addName_ne_nil⟩
    · rw [lookup_add_of_ne hh] at he
      exact ht.names he

theorem entry?_eq_listOf (t : UserHostTable) (host u : Str) :
    t.entry? rk (fold host) u = get? NameHost.key u (t.listOf rk host) := by
  unfold entry? listOf find?
  cases HashChain.lookup UserHost.key (strhash rk) t (fold host) with
  | none => rfl
  | some e => rfl

/-- An add counts one client more for its own pair, and nothing else changes. -/
theorem counts?_add (t : UserHostTable) (user : Buf (USERLEN + 1)) (host : Buf (HOSTLEN + 1))
    (flag : Bool) (h u : Str) : (t.addUserHost rk user.val host flag).counts? rk h u =
      if h = fold host.val ∧ u = fold (stripTilde user.val) then
        some (((t.counts? rk h u).getD .zero).add flag (hasident user.val))
      else t.counts? rk h u := by
  have hlen := length_stripTilde user
  by_cases hh : h = fold host.val
  · subst hh
    obtain ⟨e, he, hlist⟩ := lookup_add_self rk t user host flag
    rw [counts?, counts?, entry?_eq_listOf t, entry?, he, Option.bind_some, hlist]
    by_cases hu : u = fold (stripTilde user.val)
    · rw [if_pos ⟨rfl, hu⟩, hu, counts_addName hlen]
    · rw [if_neg fun hc => hu hc.2, get?_addName_of_ne hlen hu]
  · rw [if_neg fun hc => hh hc.1, counts?, entry?, lookup_add_of_ne hh]
    rfl

end Add

section Delete

variable {user host : Str} {flag : Bool}

/-- What the host becomes. -/
theorem lookup_delete_self (ht : t.Wf rk) (user host : Str) (flag : Bool) :
    (HashChain.lookup UserHost.key (strhash rk) (t.deleteUserHost rk user host flag)
      (fold host)).elim [] UserHost.list =
        deleteName (stripTilde user) flag (hasident user) (t.listOf rk host) ∧
    ∀ e, HashChain.lookup UserHost.key (strhash rk) (t.deleteUserHost rk user host flag)
      (fold host) = some e → e.list ≠ [] := by
  unfold deleteUserHost listOf
  split
  · rename_i hnone
    rw [hnone, show HashChain.lookup UserHost.key (strhash rk) t (fold host) = none from hnone]
    exact ⟨rfl, fun e he => by cases he⟩
  · rename_i e he
    rw [he]
    rw [Option.elim_some]
    dsimp only
    by_cases hnil : deleteName (stripTilde user) flag (hasident user) e.list = []
    · rw [if_pos hnil, touch, ht.filed.touch.lookup_remove_self, hnil]
      exact ⟨rfl, fun e he => by cases he⟩
    · have hfound : HashChain.lookup UserHost.key (strhash rk) (t.touch rk host) (fold host) =
          some e := HashChain.lookup_touch.trans he
      rw [if_neg hnil, lookup_modifyList_self, hfound]
      refine ⟨rfl, fun e' he' => ?_⟩
      rw [← Option.some.inj he']
      exact hnil

theorem lookup_delete_of_ne {h : Str} (hh : h ≠ fold host) :
    HashChain.lookup UserHost.key (strhash rk) (t.deleteUserHost rk user host flag) h =
      HashChain.lookup UserHost.key (strhash rk) t h := by
  unfold deleteUserHost
  split
  · rfl
  · dsimp only
    split
    · exact (HashChain.lookup_remove_of_ne hh).trans HashChain.lookup_touch
    · exact (lookup_modifyList_of_ne hh).trans HashChain.lookup_touch

theorem Wf.delete (ht : t.Wf rk) (user host : Str) (flag : Bool) :
    (t.deleteUserHost rk user host flag).Wf rk where
  filed := by
    unfold deleteUserHost
    split
    · exact ht.filed
    · dsimp only
      split
      · exact ht.filed.touch.remove
      · exact filed_modifyList ht.filed.touch
  names := by
    intro h e he
    by_cases hh : h = fold host
    · subst hh
      obtain ⟨hlist, hne⟩ := lookup_delete_self ht user host flag
      refine ⟨?_, hne e he⟩
      rw [he, Option.elim_some] at hlist
      exact hlist ▸ unique_deleteName (ht.unique_listOf host)
    · rw [lookup_delete_of_ne hh] at he
      exact ht.names he

/-- A delete counts one client less for its own pair, and nothing else changes. -/
theorem counts?_delete (ht : t.Wf rk) (user host : Str) (flag : Bool) (h u : Str) :
    (t.deleteUserHost rk user host flag).counts? rk h u =
      if h = fold host ∧ u = fold (stripTilde user) then
        (t.counts? rk h u).bind fun c => c.afterSub flag (hasident user)
      else t.counts? rk h u := by
  by_cases hh : h = fold host
  · subst hh
    obtain ⟨hlist, -⟩ := lookup_delete_self ht user host flag
    rw [counts?, counts?, entry?_eq_listOf, entry?_eq_listOf, listOf, find?, hlist]
    by_cases hu : u = fold (stripTilde user)
    · rw [if_pos ⟨rfl, hu⟩, hu, counts_deleteName (ht.unique_listOf host)]
    · rw [if_neg fun hc => hu hc.2, get?_deleteName_of_ne hu]
  · rw [if_neg fun hc => hh hc.1, counts?, entry?, lookup_delete_of_ne hh]
    rfl

end Delete

/-- `count_user_host` reports the counts of the name, and moves entries only. -/
theorem countUserHost_eq (t : UserHostTable) (user host : Str) :
    (t.countUserHost rk user host).1 = (t.counts? rk (fold host) (fold user)).getD .zero := rfl

theorem counts?_touch (t : UserHostTable) (host h u : Str) :
    (t.touch rk host).counts? rk h u = t.counts? rk h u := by
  rw [counts?, counts?, entry?, entry?, touch, HashChain.lookup_touch]

theorem Wf.touch (ht : t.Wf rk) (host : Str) : (t.touch rk host).Wf rk where
  filed := ht.filed.touch
  names := fun he => ht.names (HashChain.lookup_touch.symm.trans he)

end UserHostTable

end Unirc
