import Unirc.Departure
import Unirc.Network
import Unirc.RootedTree

/-!
# The tree of servers

What the lists, the tables and the counters say about the tree of servers, and that they go on
saying it when clients go.
-/

namespace Unirc

namespace Network

section

variable (n : Network)

/-- The server `p` is the link that a remote client is behind. -/
def behind (p a : ℕ) : Bool := (n.client? a).any fun k => !k.myConnect && k.from_ == p

/-- The number of clients in a list that are behind a link. -/
def countBehind (p : ℕ) (l : List ℕ) : ℕ := l.countP (n.behind p)

end

/-- The lists and tables are those of the tree of servers under `me`. -/
structure Tree (n : Network) : Prop where
  core : n.core.Inv none
  root : n.isServer n.me = true
  parentMe : n.parent n.me = n.me
  parent : ∀ a, n.isServer (n.parent a) = true
  reaches : ∀ a, ∃ i, n.parent^[i] a = n.me
  nodupServ : n.globalServList.Nodup
  memServ : ∀ a, a ∈ n.globalServList ↔ n.isServer a = true
  nodupServers : ∀ p, (n.servers p).Nodup
  memServers : ∀ p b, b ∈ n.servers p ↔ b ≠ n.me ∧ n.isServer b = true ∧ n.parent b = p
  nodupUsers : ∀ p, (n.users p).Nodup
  memUsers : ∀ p b, b ∈ n.users p ↔ n.isUser b = true ∧ n.parent b = p
  direct : ∀ a k, n.client? a = some k → (k.myConnect = true ↔ k.servptr = n.me)
  from_ : ∀ a k, n.client? a = some k →
    k.from_ = if k.myConnect then a else n.fromOf k.servptr
  nodupClients : n.globalClientList.Nodup
  memClients : ∀ a, a ∈ n.globalClientList ↔
    (n.client? a).isSome = true ∨ (n.pending a).isSome = true
  last : n.globalClientList.getLast? = some n.me
  pending : ∀ a, (n.pending a).isSome = true → n.client? a = none
  nodupUnknown : n.unknownList.Nodup
  memUnknown : ∀ a, a ∈ n.unknownList ↔ (n.pending a).isSome = true
  nodupNames : n.clientTable.Nodup
  memNames : ∀ a, a ∈ n.clientTable ↔ ∃ k, n.client? a = some k ∧ k.name.val ≠ []
  nodupIds : n.idTable.Nodup
  memIds : ∀ a, a ∈ n.idTable ↔ ∃ k, n.client? a = some k ∧ k.hasId = true
  depServers : ∀ p, n.isServer p = true →
    n.depServers p = 1 + n.countBehind p n.globalServList
  depUsers : ∀ p, n.isServer p = true →
    n.depUsers p = n.countBehind p (n.globalClientList.filter n.isUser)

/-- `serv_list` has the servers that are connected to us. -/
structure Linked (n : Network) : Prop where
  nodup : n.servList.Nodup
  mem : ∀ a, a ∈ n.servList ↔
    a ≠ n.me ∧ n.isServer a = true ∧ (n.client? a).any Client.myConnect = true

/-- `n'` is `n` without the clients that are gone. -/
structure Without (gone : ℕ → Bool) (n n' : Network) : Prop where
  core : n.core.Without gone n'.core
  inv : n'.core.Inv none
  me : n'.me = n.me
  pending : n'.pending = n.pending
  clientTable : n'.clientTable = n.clientTable.filter fun a => !gone a
  idTable : n'.idTable = n.idTable.filter fun a => !gone a
  globalClientList : n'.globalClientList = n.globalClientList.filter fun a => !gone a
  globalServList : n'.globalServList = n.globalServList.filter fun a => !gone a
  servList : n'.servList = n.servList
  unknownList : n'.unknownList = n.unknownList
  link : n'.link = n.link
  sent : n'.sent = n.sent
  nextClient : n'.core.nextClient = n.core.nextClient

namespace Without

variable {gone gone' : ℕ → Bool} {n n' n'' : Network}

theorem refl (h : n.core.Inv none) : Without (fun _ => false) n n where
  core := Server.Without.refl n.core
  inv := h
  me := rfl
  pending := rfl
  clientTable := (List.filter_eq_self.mpr fun _ _ => rfl).symm
  idTable := (List.filter_eq_self.mpr fun _ _ => rfl).symm
  globalClientList := (List.filter_eq_self.mpr fun _ _ => rfl).symm
  globalServList := (List.filter_eq_self.mpr fun _ _ => rfl).symm
  servList := rfl
  unknownList := rfl
  link := rfl
  sent := rfl
  nextClient := rfl

theorem filter_trans {l l' l'' : List ℕ} (h : l' = l.filter fun a => !gone a)
    (h' : l'' = l'.filter fun a => !gone' a) : l'' = l.filter fun a => !(gone a || gone' a) := by
  rw [h', h, List.filter_filter]
  exact List.filter_congr fun a _ => by rw [Bool.not_or, Bool.and_comm]

theorem trans (h : Without gone n n') (h' : Without gone' n' n'') :
    Without (fun a => gone a || gone' a) n n'' where
  core := h.core.trans h'.core
  inv := h'.inv
  me := h'.me.trans h.me
  pending := h'.pending.trans h.pending
  clientTable := filter_trans h.clientTable h'.clientTable
  idTable := filter_trans h.idTable h'.idTable
  globalClientList := filter_trans h.globalClientList h'.globalClientList
  globalServList := filter_trans h.globalServList h'.globalServList
  servList := h'.servList.trans h.servList
  unknownList := h'.unknownList.trans h.unknownList
  link := h'.link.trans h.link
  sent := h'.sent.trans h.sent
  nextClient := h'.nextClient.trans h.nextClient

section Lookup

variable (h : Without gone n n')

include h

theorem client (a : ℕ) :
    n'.client? a = if gone a then none else (n.client? a).map (Client.drop gone) :=
  h.core.client a

theorem client_of_not {a : ℕ} (ha : gone a = false) :
    n'.client? a = (n.client? a).map (Client.drop gone) := by
  rw [h.client, if_neg (by simp [ha])]

theorem exists_client {a : ℕ} {k : Client} (hk : n'.client? a = some k) :
    gone a = false ∧ ∃ k₀, n.client? a = some k₀ ∧ k = k₀.drop gone := by
  rw [h.client] at hk
  cases hg : gone a with
  | true =>
      rw [hg, if_pos rfl] at hk
      cases hk
  | false =>
      rw [hg, if_neg Bool.false_ne_true] at hk
      obtain ⟨k₀, hk₀, rfl⟩ := Option.map_eq_some_iff.mp hk
      exact ⟨rfl, k₀, hk₀, rfl⟩

theorem isServer (a : ℕ) : n'.isServer a = (!gone a && n.isServer a) := by
  unfold Network.isServer
  rw [h.client]
  cases gone a <;> cases n.client? a <;> rfl

theorem isUser (a : ℕ) : n'.isUser a = (!gone a && n.isUser a) := by
  unfold Network.isUser
  rw [h.client]
  cases gone a <;> cases n.client? a <;> rfl

theorem parent (a : ℕ) : n'.parent a = if gone a then n.me else n.parent a := by
  unfold Network.parent
  rw [h.client, h.me]
  cases gone a <;> cases n.client? a <;> rfl

theorem users (a : ℕ) :
    n'.users a = if gone a then [] else (n.users a).filter fun b => !gone b := by
  unfold Network.users
  rw [h.client]
  cases gone a <;> cases n.client? a <;> rfl

theorem servers (a : ℕ) :
    n'.servers a = if gone a then [] else (n.servers a).filter fun b => !gone b := by
  unfold Network.servers
  rw [h.client]
  cases gone a <;> cases n.client? a <;> rfl

theorem fromOf {a : ℕ} (ha : gone a = false) : n'.fromOf a = n.fromOf a := by
  unfold Network.fromOf
  rw [h.client_of_not ha]
  cases n.client? a <;> rfl

theorem behind (p a : ℕ) : n'.behind p a = (!gone a && n.behind p a) := by
  unfold Network.behind
  rw [h.client]
  cases gone a <;> cases n.client? a <;> rfl

theorem countBehind_filter (p : ℕ) (l : List ℕ) :
    n'.countBehind p (l.filter fun a => !gone a) = n.countBehind p (l.filter fun a => !gone a) := by
  unfold Network.countBehind
  refine List.countP_congr fun a ha => ?_
  have hg := (List.mem_filter.mp ha).2
  rw [h.behind, hg, Bool.true_and]

end Lookup

end Without

namespace Tree

variable {n n' : Network} {gone : ℕ → Bool}

theorem rooted (h : n.Tree) : ParentTree n.parent n.me := ⟨h.parentMe, h.reaches⟩

theorem isServer_of_not_isUser {a : ℕ} {k : Client} (hk : n.client? a = some k)
    (ha : n.isUser a = false) : n.isServer a = true := by
  simpa [isServer, isUser, hk] using ha

theorem parent_eq {a : ℕ} {k : Client} (hk : n.client? a = some k) : n.parent a = k.servptr := by
  rw [Network.parent, hk]
  rfl

theorem fromOf_eq {a : ℕ} {k : Client} (hk : n.client? a = some k) : n.fromOf a = k.from_ := by
  rw [Network.fromOf, hk]
  rfl

theorem not_child (hclosed : ∀ a, gone (n.parent a) = true → gone a = true) {p b : ℕ}
    (hp : gone p = true) (hb : gone b = false) : n.parent b ≠ p := fun he => by
  rw [hclosed b (he ▸ hp)] at hb
  cases hb

/-- What is left is a tree again, if with a server all goes that hangs off it. -/
theorem of_without (h : n.Tree) (w : Without gone n n') (hme : gone n.me = false)
    (hsome : ∀ a, gone a = true → (n.client? a).isSome = true)
    (hclosed : ∀ a, gone (n.parent a) = true → gone a = true)
    (hservers : ∀ p, n'.isServer p = true →
      n'.depServers p = 1 + n'.countBehind p n'.globalServList)
    (husers : ∀ p, n'.isServer p = true →
      n'.depUsers p = n'.countBehind p (n'.globalClientList.filter n'.isUser)) : n'.Tree where
  core := w.inv
  root := by rw [w.me, w.isServer, hme, h.root]; rfl
  parentMe := by rw [w.me, w.parent, hme, if_neg Bool.false_ne_true, h.parentMe]
  parent := fun a => by
    rw [w.parent, w.isServer]
    split
    · rw [hme, h.root]
      rfl
    · rename_i ha
      have hp : gone (n.parent a) = false :=
        Bool.eq_false_iff.mpr fun hg => ha (hclosed a hg)
      rw [hp, h.parent]
      rfl
  reaches := fun a => by
    rw [w.me]
    cases ha : gone a with
    | true => exact ⟨1, by rw [Function.iterate_one, w.parent, if_pos ha]⟩
    | false =>
        have hiter := ParentTree.iterate_congr (q := n'.parent) (p := n.parent)
          (a := fun b => gone b = false)
          (fun b hb => by rw [w.parent, if_neg (by simp [hb])])
          (fun b hb => Bool.eq_false_iff.mpr fun hg => by rw [hclosed b hg] at hb; cases hb) ha
        obtain ⟨i, hi⟩ := h.reaches a
        exact ⟨i, by rw [hiter, hi]⟩
  nodupServ := w.globalServList ▸ h.nodupServ.filter _
  memServ := fun a => by
    rw [w.globalServList, List.mem_filter, h.memServ, w.isServer]
    simp [and_comm]
  nodupServers := fun p => by
    rw [w.servers]
    split
    · exact List.nodup_nil
    · exact (h.nodupServers p).filter _
  memServers := fun p b => by
    rw [w.servers, w.me, w.isServer, w.parent]
    cases hp : gone p with
    | true =>
        rw [if_pos rfl]
        refine ⟨fun hm => (by cases hm), fun ⟨_, hs, hb⟩ => ?_⟩
        cases hgb : gone b with
        | true =>
            rw [hgb] at hs
            cases hs
        | false =>
            rw [hgb, if_neg Bool.false_ne_true] at hb
            exact absurd hb (not_child hclosed hp hgb)
    | false =>
        rw [if_neg Bool.false_ne_true, List.mem_filter, h.memServers]
        cases hgb : gone b <;> simp
  nodupUsers := fun p => by
    rw [w.users]
    split
    · exact List.nodup_nil
    · exact (h.nodupUsers p).filter _
  memUsers := fun p b => by
    rw [w.users, w.isUser, w.parent]
    cases hp : gone p with
    | true =>
        rw [if_pos rfl]
        refine ⟨fun hm => (by cases hm), fun ⟨hu, hb⟩ => ?_⟩
        cases hgb : gone b with
        | true =>
            rw [hgb] at hu
            cases hu
        | false =>
            rw [hgb, if_neg Bool.false_ne_true] at hb
            exact absurd hb (not_child hclosed hp hgb)
    | false =>
        rw [if_neg Bool.false_ne_true, List.mem_filter, h.memUsers]
        cases hgb : gone b <;> simp
  direct := fun a k hk => by
    obtain ⟨-, k₀, hk₀, rfl⟩ := w.exists_client hk
    rw [w.me]
    exact h.direct a k₀ hk₀
  from_ := fun a k hk => by
    obtain ⟨ha, k₀, hk₀, rfl⟩ := w.exists_client hk
    have hp : gone k₀.servptr = false :=
      Bool.eq_false_iff.mpr fun hg => not_child hclosed hg ha (parent_eq hk₀)
    have hfrom := w.fromOf hp
    exact (h.from_ a k₀ hk₀).trans (by rw [← hfrom]; rfl)
  nodupClients := w.globalClientList ▸ h.nodupClients.filter _
  memClients := fun a => by
    rw [w.globalClientList, List.mem_filter, h.memClients, w.client, w.pending]
    cases ha : gone a with
    | true =>
        refine ⟨fun hm => (by cases hm.2), fun hm => ?_⟩
        rw [if_pos rfl] at hm
        rcases hm with hm | hm
        · cases hm
        · have hclient := hsome a ha
          rw [h.pending a hm] at hclient
          cases hclient
    | false => simp
  last := by
    obtain ⟨init, hinit⟩ := List.getLast?_eq_some_iff.mp h.last
    rw [w.me, w.globalClientList, hinit, List.filter_append]
    simp [hme]
  pending := fun a ha => by
    rw [w.pending] at ha
    rw [w.client, h.pending a ha]
    simp
  nodupUnknown := w.unknownList ▸ h.nodupUnknown
  memUnknown := fun a => by rw [w.unknownList, w.pending, h.memUnknown]
  nodupNames := w.clientTable ▸ h.nodupNames.filter _
  memNames := fun a => by
    rw [w.clientTable, List.mem_filter, h.memNames, w.client]
    cases gone a <;> cases n.client? a <;> simp [Client.drop]
  nodupIds := w.idTable ▸ h.nodupIds.filter _
  memIds := fun a => by
    rw [w.idTable, List.mem_filter, h.memIds, w.client]
    cases gone a <;> cases n.client? a <;> simp [Client.drop, Client.hasId]
  depServers := hservers
  depUsers := husers

end Tree

section Exit

variable {n : Network} {a : ℕ} {k : Client}

theorem check_of {ok : Bool} (h : ok = true) (f : Fault) : n.check ok f = n := if_pos h

/-- A check changes nothing but the faults. -/
theorem check_eq (ok : Bool) (f : Fault) :
    n.check ok f = { n with faults := if ok then n.faults else n.faults ++ [f] } := by
  unfold check
  split <;> rfl

theorem exitOneClient_eq (hk : n.client? a = some k) : n.exitOneClient a =
    { n with
      core := n.core.exitOneClient a
      idTable := if k.hasId then n.idTable.erase a else n.idTable
      clientTable := if k.name.val ≠ [] then n.clientTable.erase a else n.clientTable
      globalClientList :=
        if n.globalClientList.getLast? = some a then n.globalClientList
        else n.globalClientList.erase a
      globalServList := if k.isClient then n.globalServList else n.globalServList.erase a
      depServers :=
        if k.isClient || k.myConnect then n.depServers
        else Function.update n.depServers k.from_ (n.depServers k.from_ - 1)
      depUsers :=
        if !k.isClient || k.myConnect then n.depUsers
        else Function.update n.depUsers k.from_ (n.depUsers k.from_ - 1)
      faults := (n.exitOneClient a).faults } := by
  unfold exitOneClient
  rw [hk]
  cases hc : k.isClient <;> cases hm : k.myConnect <;> simp [check_eq, hc, hm]

theorem faults_exitOneClient (hk : n.client? a = some k) (ha : a ≠ n.me)
    (hservers : k.isClient = false → k.myConnect = false → 1 < n.depServers k.from_)
    (husers : k.isClient = true → k.myConnect = false → 0 < n.depUsers k.from_) :
    (n.exitOneClient a).faults = n.faults := by
  unfold exitOneClient
  rw [hk]
  cases hc : k.isClient <;> cases hm : k.myConnect <;> simp [check_eq, hc, hm, ha]
  · exact hservers hc hm
  · exact husers hc hm

theorem Tree.without_exitOneClient (h : n.Tree) (hk : n.client? a = some k) (ha : a ≠ n.me) :
    Without (· == a) n (n.exitOneClient a) := by
  have herase : ∀ {l : List ℕ}, l.Nodup → l.erase a = l.filter fun b => !(b == a) :=
    fun hl => Server.erase_eq_filter_not hl a
  have hkeep : ∀ {l : List ℕ}, a ∉ l → l = l.filter fun b => !(b == a) := fun hl =>
    (List.filter_eq_self.mpr fun b hb => by
      have hb' : b ≠ a := fun he => hl (he ▸ hb)
      simpa using hb').symm
  have hserver : n.isServer a = !k.isClient := by simp [isServer, hk]
  have huser : n.isUser a = k.isClient := by simp [isUser, hk]
  have hparent : n.parent a = k.servptr := Tree.parent_eq hk
  rw [exitOneClient_eq hk]
  refine ⟨h.core.without_exitOneClient hk (fun p q hq => ?_) fun p q hq => ?_,
    h.core.exitOneClient a, rfl, rfl, ?_, ?_, ?_, ?_, rfl, rfl, rfl, rfl, ?_⟩
  · have husers : n.users p = q.users := by rw [users, client?, hq]; rfl
    refine ⟨husers ▸ h.nodupUsers p, fun hm => ?_⟩
    obtain ⟨hu, hp⟩ := (h.memUsers p a).mp (husers ▸ hm)
    exact ⟨hp.symm.trans hparent, huser ▸ hu⟩
  · have hservers : n.servers p = q.servers := by rw [servers, client?, hq]; rfl
    refine ⟨hservers ▸ h.nodupServers p, fun hm => ?_⟩
    obtain ⟨-, hs, hp⟩ := (h.memServers p a).mp (hservers ▸ hm)
    exact ⟨hp.symm.trans hparent, by simpa [hserver] using hs⟩
  · dsimp only
    split
    · exact herase h.nodupNames
    · rename_i hname
      exact hkeep fun hm => by
        obtain ⟨k', hk', hne⟩ := (h.memNames a).mp hm
        rw [hk] at hk'
        exact hname (Option.some.inj hk' ▸ hne)
  · dsimp only
    split
    · exact herase h.nodupIds
    · rename_i hid
      exact hkeep fun hm => by
        obtain ⟨k', hk', hne⟩ := (h.memIds a).mp hm
        rw [hk] at hk'
        exact hid (Option.some.inj hk' ▸ hne)
  · dsimp only
    rw [if_neg, herase h.nodupClients]
    rw [h.last]
    exact fun he => ha (Option.some.inj he).symm
  · dsimp only
    split
    · rename_i hc
      exact hkeep fun hm => by
        rw [h.memServ, hserver, hc] at hm
        cases hm
    · exact herase h.nodupServ
  · exact Server.nextClient_exitOneClient n.core a

theorem exists_of_isServer (ha : n.isServer a = true) :
    ∃ k, n.client? a = some k ∧ k.isClient = false := by
  unfold isServer at ha
  cases hk : n.client? a with
  | none =>
      rw [hk] at ha
      cases ha
  | some k =>
      rw [hk] at ha
      exact ⟨k, rfl, by simpa using ha⟩

theorem exists_of_isUser (ha : n.isUser a = true) :
    ∃ k, n.client? a = some k ∧ k.isClient = true := by
  unfold isUser at ha
  cases hk : n.client? a with
  | none =>
      rw [hk] at ha
      cases ha
  | some k =>
      rw [hk] at ha
      exact ⟨k, rfl, ha⟩

theorem isServer_of (hk : n.client? a = some k) (hc : k.isClient = false) :
    n.isServer a = true := by
  simp [isServer, hk, hc]

theorem isUser_of (hk : n.client? a = some k) (hc : k.isClient = true) : n.isUser a = true := by
  simp [isUser, hk, hc]

theorem behind_of (hk : n.client? a = some k) (hm : k.myConnect = false) :
    n.behind k.from_ a = true := by
  simp [behind, hk, hm]

theorem filter_not_mem {l : List ℕ} (hl : a ∉ l) : (l.filter fun b => !(b == a)) = l :=
  List.filter_eq_self.mpr fun b hb => by
    have hb' : b ≠ a := fun he => hl (he ▸ hb)
    simpa using hb'

theorem countBehind_of_mem {l : List ℕ} (p : ℕ) (hl : l.Nodup) (hm : a ∈ l) :
    n.countBehind p l =
      n.countBehind p (l.filter fun b => !(b == a)) + if n.behind p a then 1 else 0 := by
  rw [← Server.erase_eq_filter_not hl, countBehind, (List.perm_cons_erase hm).countP_eq,
    List.countP_cons]
  rfl

/-- A counter that is set down by one for a client behind the link. -/
theorem counter_update (base : ℤ) {c : ℕ → ℤ} {l : List ℕ} {p : ℕ} (hk : n.client? a = some k)
    (hl : l.Nodup) (hm : a ∈ l) (hc : c p = base + n.countBehind p l) :
    (if k.myConnect then c else Function.update c k.from_ (c k.from_ - 1)) p =
      base + n.countBehind p (l.filter fun b => !(b == a)) := by
  have hbehind : n.behind p a = (!k.myConnect && k.from_ == p) := by simp [behind, hk]
  have hcount := countBehind_of_mem (n := n) p hl hm
  rw [hbehind] at hcount
  cases hconn : k.myConnect with
  | true =>
      rw [hconn] at hcount
      simp only [if_true, hc, hcount, Bool.not_true, Bool.false_and, Bool.false_eq_true, if_false,
        Nat.add_zero]
  | false =>
      rw [hconn] at hcount
      rw [if_neg Bool.false_ne_true]
      by_cases hp : k.from_ = p
      · subst hp
        rw [Function.update_self, hc, hcount]
        simp
        omega
      · have hne : (k.from_ == p) = false := by simpa using hp
        rw [hne] at hcount
        rw [Function.update_of_ne (Ne.symm hp), hc, hcount]
        simp

namespace Tree

variable (h : n.Tree)

include h

/-- The link that a server is behind is a server. -/
theorem isServer_fromOf (ha : n.isServer a = true) : n.isServer (n.fromOf a) = true := by
  obtain ⟨i, hi⟩ := h.reaches a
  induction i generalizing a with
  | zero =>
      obtain rfl : a = n.me := hi
      obtain ⟨k, hk, -⟩ := exists_of_isServer ha
      have hm : k.myConnect = true := (h.direct _ k hk).mpr (parent_eq hk ▸ h.parentMe)
      rw [fromOf_eq hk, h.from_ _ k hk, if_pos hm]
      exact ha
  | succ i ih =>
      obtain ⟨k, hk, -⟩ := exists_of_isServer ha
      rw [fromOf_eq hk, h.from_ a k hk]
      split
      · exact ha
      · rw [← parent_eq hk]
        exact ih (h.parent a) hi

theorem isServer_from (hk : n.client? a = some k) (hm : k.myConnect = false) :
    n.isServer k.from_ = true := by
  rw [h.from_ a k hk, if_neg (by simp [hm]), ← parent_eq hk]
  exact h.isServer_fromOf (h.parent a)

/-- The counters of a link are those of the clients behind it. -/
theorem depServers_pos (hk : n.client? a = some k) (hc : k.isClient = false)
    (hm : k.myConnect = false) : 1 < n.depServers k.from_ := by
  have hpos : 0 < n.countBehind k.from_ n.globalServList :=
    List.countP_pos_iff.mpr ⟨a, (h.memServ a).mpr (isServer_of hk hc), behind_of hk hm⟩
  rw [h.depServers _ (h.isServer_from hk hm)]
  omega

theorem depUsers_pos (hk : n.client? a = some k) (hc : k.isClient = true)
    (hm : k.myConnect = false) : 0 < n.depUsers k.from_ := by
  have hmem : a ∈ n.globalClientList.filter n.isUser :=
    List.mem_filter.mpr ⟨(h.memClients a).mpr (.inl (by rw [hk]; rfl)), isUser_of hk hc⟩
  have hpos : 0 < n.countBehind k.from_ (n.globalClientList.filter n.isUser) :=
    List.countP_pos_iff.mpr ⟨a, hmem, behind_of hk hm⟩
  rw [h.depUsers _ (h.isServer_from hk hm)]
  omega

theorem faults_exitOneClient (hk : n.client? a = some k) (ha : a ≠ n.me) :
    (n.exitOneClient a).faults = n.faults :=
  Network.faults_exitOneClient hk ha (fun hc hm => h.depServers_pos hk hc hm)
    fun hc hm => h.depUsers_pos hk hc hm

/-- A client goes that no other one hangs off. -/
theorem exitOneClient (hk : n.client? a = some k) (ha : a ≠ n.me)
    (hleaf : ∀ b, n.parent b = a → b = a) : (n.exitOneClient a).Tree := by
  have w := h.without_exitOneClient hk ha
  have hserver : n.isServer a = !k.isClient := by simp [isServer, hk]
  have huser : n.isUser a = k.isClient := by simp [isUser, hk]
  refine h.of_without w (by simpa using Ne.symm ha) (fun b hb => ?_) (fun b hb => ?_)
    (fun p hp => ?_) fun p hp => ?_
  · rw [eq_of_beq hb, hk]
    rfl
  · rw [hleaf b (eq_of_beq hb)]
    exact beq_self_eq_true a
  · rw [w.isServer, Bool.and_eq_true] at hp
    rw [w.globalServList, w.countBehind_filter, exitOneClient_eq hk]
    dsimp only
    have hdep := h.depServers p hp.2
    cases hc : k.isClient with
    | true =>
        rw [filter_not_mem fun hm => by rw [h.memServ, hserver, hc] at hm; cases hm]
        exact hdep
    | false =>
        have hm : a ∈ n.globalServList := (h.memServ a).mpr (by rw [hserver, hc]; rfl)
        exact counter_update 1 hk h.nodupServ hm hdep
  · rw [w.isServer, Bool.and_eq_true] at hp
    have hlist : (n.exitOneClient a).globalClientList.filter (n.exitOneClient a).isUser =
        (n.globalClientList.filter n.isUser).filter fun b => !(b == a) := by
      rw [w.globalClientList, List.filter_filter, List.filter_filter]
      exact List.filter_congr fun b _ => by
        rw [w.isUser]
        cases b == a <;> simp
    rw [hlist, w.countBehind_filter, exitOneClient_eq hk]
    dsimp only
    have hdep := h.depUsers p hp.2
    cases hc : k.isClient with
    | true =>
        have hm : a ∈ n.globalClientList.filter n.isUser :=
          List.mem_filter.mpr ⟨(h.memClients a).mpr (.inl (by rw [hk]; rfl)), by rw [huser, hc]⟩
        have hcount := counter_update 0 hk (h.nodupClients.filter n.isUser) hm
          (hdep.trans (Int.zero_add _).symm)
        exact hcount.trans (Int.zero_add _)
    | false =>
        rw [filter_not_mem fun hm => by
          rw [List.mem_filter, huser, hc] at hm
          cases hm.2]
        exact hdep

end Tree

end Exit

end Network

end Unirc
