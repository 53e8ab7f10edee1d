import Unirc.Netsplit

/-!
# What a netsplit tells the other links

The lines that `recurse_send_quits` sends to a link, and all that `exit_client` does for a server.
-/

namespace Unirc

namespace Network

open ParentTree

variable {n : Network} {a : ℕ}

def sentTo (n : Network) (peer : ℕ) : List Str := (n.sent.filter (·.1 == peer)).map Prod.snd

def withSent (n : Network) (l : List (ℕ × Str)) : Network := { n with sent := l }

section Lines

variable (n) (original : ℕ) (fromLink : Option ℕ) (peer : ℕ) (comment splitstr myname : Str)

def hides (k : Client) : Bool := matchMask myname k.name.val

/-- The lines of `recurse_send_quits`. -/
def quitLines : ℕ → ℕ → List Str
  | 0, _ => []
  | fuel + 1, a =>
      match n.client? a with
      | none => []
      | some k =>
          (if hides myname k || !(n.link peer).caps.qs then
            k.users.map fun b =>
              quitLine ((n.client? b).elim [] fun u => u.name.val) splitstr
          else []) ++
          k.servers.flatMap (quitLines fuel) ++
          if !hides myname k &&
              (a = original && fromLink ≠ some peer || !(n.link peer).caps.qs) then
            [squitLine (n.idOrName k peer) comment]
          else []

variable {n original fromLink peer comment splitstr myname}

theorem sendtoOne_withSent (l : List (ℕ × Str)) (line : Str) :
    (n.withSent l).sendtoOne peer line = n.withSent (l ++ [line].map (Prod.mk peer)) := rfl

theorem foldl_quit (users : List ℕ) (l : List (ℕ × Str)) :
    users.foldl (fun n b => n.sendtoOne peer
      (quitLine ((n.client? b).elim [] fun u => u.name.val) splitstr)) (n.withSent l) =
    n.withSent (l ++ (users.map fun b =>
      quitLine ((n.client? b).elim [] fun u => u.name.val) splitstr).map (Prod.mk peer)) := by
  induction users generalizing l with
  | nil => rw [List.foldl_nil, List.map_nil, List.map_nil, List.append_nil]
  | cons b users ih =>
      rw [List.foldl_cons, sendtoOne_withSent, ih, List.append_assoc, ← List.map_append]
      rfl

theorem mem_servers_below (h : n.Tree) {k : Client} (hk : n.client? a = some k) {b : ℕ}
    (hb : b ∈ k.servers) : b ≠ n.me ∧ n.parent b = a := by
  have hmem : b ∈ n.servers a := by
    rw [servers, hk]
    exact hb
  obtain ⟨hme, -, hp⟩ := (h.memServers a b).mp hmem
  exact ⟨hme, hp⟩

theorem recurseSendQuits_eq (h : n.Tree) (fuel : ℕ) (hpeer : ∀ b, Below n.parent a b → peer ≠ b)
    (l : List (ℕ × Str)) :
    recurseSendQuits original fromLink peer comment splitstr myname fuel a (n.withSent l) =
      n.withSent (l ++ (n.quitLines original fromLink peer comment splitstr myname fuel a).map
        (Prod.mk peer)) := by
  induction fuel generalizing a l with
  | zero => rw [recurseSendQuits, quitLines, List.map_nil, List.append_nil]
  | succ fuel ih =>
      have hclient : (n.withSent l).client? a = n.client? a := rfl
      have hcheck : (n.withSent l).check (peer ≠ a) .squitSource = n.withSent l := by
        rw [check, if_pos (decide_eq_true (hpeer a (Below.refl n.parent a)))]
      have hfold : ∀ (servers : List ℕ) (l : List (ℕ × Str)),
          (∀ b ∈ servers, n.parent b = a) →
          servers.foldl (fun n b => recurseSendQuits original fromLink peer comment splitstr myname
            fuel b n) (n.withSent l) =
          n.withSent (l ++ (servers.flatMap (n.quitLines original fromLink peer comment splitstr
            myname fuel)).map (Prod.mk peer)) := by
        intro servers
        induction servers with
        | nil => intro l _; rw [List.foldl_nil, List.flatMap_nil, List.map_nil, List.append_nil]
        | cons b servers ihs =>
            intro l hs
            have hb := hs b List.mem_cons_self
            have hbelow : ∀ c, Below n.parent b c → peer ≠ c := fun c hc =>
              hpeer c ((Below.of_parent (hb ▸ Below.refl n.parent _)).trans hc)
            rw [List.foldl_cons, ih hbelow, ihs _ fun c hc => hs c (List.mem_cons_of_mem b hc),
              List.flatMap_cons, List.map_append, List.append_assoc]
      rw [recurseSendQuits, quitLines, hclient]
      cases hk : n.client? a with
      | none => rw [List.map_nil, List.append_nil]
      | some k =>
          have hservers : ∀ b ∈ k.servers, n.parent b = a :=
            fun b hb => (mem_servers_below h hk hb).2
          have hlink : (n.withSent l).link = n.link := rfl
          have husers : (if hides myname k || !(n.link peer).caps.qs then
                k.users.foldl (fun n b => n.sendtoOne peer
                  (quitLine ((n.client? b).elim [] fun u => u.name.val) splitstr)) (n.withSent l)
              else n.withSent l) =
              n.withSent (l ++ (if hides myname k || !(n.link peer).caps.qs then
                k.users.map fun b =>
                  quitLine ((n.client? b).elim [] fun u => u.name.val) splitstr
              else []).map (Prod.mk peer)) := by
            split
            · exact foldl_quit k.users l
            · rw [List.map_nil, List.append_nil]
          simp only [hcheck, hlink]
          rw [← hides, husers, hfold k.servers _ hservers]
          split
          · rw [sendtoOne_withSent]
            simp only [List.map_append, List.append_assoc]
            rfl
          · simp only [List.map_append, List.append_assoc, List.append_nil]

/-- A link with QS that no server of the subtree is hidden from hears of the server itself only. -/
theorem quitLines_eq_nil (h : n.Tree) (fuel : ℕ) (hqs : (n.link peer).caps.qs = true)
    (hvisible : ∀ b k, Below n.parent a b → n.client? b = some k → hides myname k = false)
    (hother : ∀ b, Below n.parent a b → b ≠ original) :
    n.quitLines original fromLink peer comment splitstr myname fuel a = [] := by
  induction fuel generalizing a with
  | zero => rfl
  | succ fuel ih =>
      rw [quitLines]
      cases hk : n.client? a with
      | none => rfl
      | some k =>
          have hself := Below.refl n.parent a
          have hservers : k.servers.flatMap
              (n.quitLines original fromLink peer comment splitstr myname fuel) = [] := by
            refine List.flatMap_eq_nil_iff.mpr fun b hb => ?_
            have hab : Below n.parent a b :=
              Below.of_parent ((mem_servers_below h hk hb).2 ▸ Below.refl n.parent _)
            exact ih (fun c k hc => hvisible c k (hab.trans hc)) fun c hc => hother c (hab.trans hc)
          simp [hvisible a k hself hk, hqs, hother a hself, hservers]

theorem quitLines_eq (h : n.Tree) (fuel : ℕ) {k : Client} (hk : n.client? a = some k)
    (hqs : (n.link peer).caps.qs = true) (hfrom : fromLink ≠ some peer)
    (hvisible : ∀ b k, Below n.parent a b → n.client? b = some k → hides myname k = false) :
    n.quitLines a fromLink peer comment splitstr myname (fuel + 1) a =
      [squitLine (n.idOrName k peer) comment] := by
  have hservers : k.servers.flatMap
      (n.quitLines a fromLink peer comment splitstr myname fuel) = [] := by
    refine List.flatMap_eq_nil_iff.mpr fun b hb => ?_
    obtain ⟨hbme, hba⟩ := mem_servers_below h hk hb
    have hab : Below n.parent a b := Below.of_parent (hba ▸ Below.refl n.parent _)
    refine quitLines_eq_nil h fuel hqs (fun c k hc => hvisible c k (hab.trans hc)) fun c hc he => ?_
    rw [he, ← hba] at hc
    exact h.rooted.not_below_parent hbme hc
  rw [quitLines, hk]
  simp [hvisible a k (Below.refl n.parent a) hk, hqs, hfrom, hservers]

end Lines

section Links

theorem foldl_recurseSendQuits (h : n.Tree) {original : ℕ} {fromLink : Option ℕ}
    {comment splitstr : Str} (fuel : ℕ) (peers : List ℕ) (l : List (ℕ × Str))
    (hpeers : ∀ peer ∈ peers, ∀ b, Below n.parent a b → peer ≠ b) :
    peers.foldl (fun s peer => recurseSendQuits original fromLink peer comment splitstr
      (s.myNameForLink peer) fuel a s) (n.withSent l) =
    n.withSent (l ++ peers.flatMap fun peer => (n.quitLines original fromLink peer comment splitstr
      (n.myNameForLink peer) fuel a).map (Prod.mk peer)) := by
  induction peers generalizing l with
  | nil => rw [List.foldl_nil, List.flatMap_nil, List.append_nil]
  | cons peer peers ih =>
      have hname : (n.withSent l).myNameForLink peer = n.myNameForLink peer := rfl
      rw [List.foldl_cons, hname, recurseSendQuits_eq h fuel (hpeers peer List.mem_cons_self),
        ih _ fun p hp => hpeers p (List.mem_cons_of_mem peer hp), List.flatMap_cons,
        List.append_assoc]

/-- Of the lines for all links, those for one. -/
theorem filter_flatMap {peers : List ℕ} (hnodup : peers.Nodup) (lines : ℕ → List Str) {peer : ℕ}
    (hpeer : peer ∈ peers) :
    ((peers.flatMap fun p => (lines p).map (Prod.mk p)).filter (·.1 == peer)).map Prod.snd =
      lines peer := by
  have hnone : ∀ {l : List ℕ}, peer ∉ l →
      (l.flatMap fun p => (lines p).map (Prod.mk p)).filter (·.1 == peer) = [] := fun hl =>
    List.filter_eq_nil_iff.mpr fun x hx => by
      obtain ⟨p, hp, hx⟩ := List.mem_flatMap.mp hx
      obtain ⟨line, -, rfl⟩ := List.mem_map.mp hx
      have hne : p ≠ peer := fun he => hl (he ▸ hp)
      simpa using hne
  have hall : (((lines peer).map (Prod.mk peer)).filter (·.1 == peer)).map Prod.snd =
      lines peer := by
    rw [List.filter_eq_self.mpr fun x hx => by
      obtain ⟨line, -, rfl⟩ := List.mem_map.mp hx
      exact beq_self_eq_true peer, List.map_map]
    exact List.map_id _
  induction peers with
  | nil => cases hpeer
  | cons p peers ih =>
      obtain ⟨hp, hrest⟩ := List.nodup_cons.mp hnodup
      rw [List.flatMap_cons, List.filter_append, List.map_append]
      rcases List.mem_cons.mp hpeer with rfl | hpeer
      · rw [hnone hp, hall, List.map_nil, List.append_nil]
      · have hne : p ≠ peer := fun he => hp (he ▸ hpeer)
        have hfirst : ((lines p).map (Prod.mk p)).filter (·.1 == peer) = [] :=
          List.filter_eq_nil_iff.mpr fun x hx => by
            obtain ⟨line, -, rfl⟩ := List.mem_map.mp hx
            simpa using hne
        rw [hfirst, ih hrest hpeer]
        rfl

end Links

/-- `n'` is `n` without the server `a` and what is below it. -/
structure Netsplit (n : Network) (a : ℕ) (n' : Network) (gone : ℕ → Bool) : Prop where
  below : ∀ b, gone b = true ↔ Below n.parent a b
  core : n.core.Without gone n'.core
  channels : ∀ c, c ∈ n'.core.globalChannelList ↔
    ∃ m r, n.core.graph.links m = some r ∧ r.right = c ∧ gone r.left = false
  clientTable : n'.clientTable = n.clientTable.filter fun b => !gone b
  idTable : n'.idTable = n.idTable.filter fun b => !gone b
  globalClientList : n'.globalClientList = n.globalClientList.filter fun b => !gone b
  globalServList : n'.globalServList = n.globalServList.filter fun b => !gone b
  servList : n'.servList = n.servList.filter fun b => !gone b

section ExitClient

variable {k : Client}

/-- Neither `serv_list` nor what was sent is part of the tree. -/
theorem Tree.relink (h : n.Tree) (l : List ℕ) (sent : List (ℕ × Str)) :
    ({ n with servList := l, sent := sent } : Network).Tree := by
  cases h
  constructor <;> assumption

theorem sendtoOne_sendtoOne (n : Network) (a : ℕ) (x y : Str) :
    (n.sendtoOne a x).sendtoOne a y = { n with sent := n.sent ++ [x, y].map (Prod.mk a) } := by
  simp [sendtoOne]

theorem closeLink_eq (n : Network) (a source : ℕ) (k : Client) (comment : Str) :
    ∃ lines : List Str, n.closeLink a source k comment =
      { n with
        servList := if k.isClient then n.servList else n.servList.erase a
        sent := n.sent ++ lines.map (Prod.mk a) } := by
  unfold closeLink
  cases hc : k.isClient with
  | true =>
      cases hdead : (n.link a).dead with
      | true => exact ⟨[], by simp [hdead]⟩
      | false =>
          simp only [hdead, Bool.false_eq_true, if_false, if_true]
          exact ⟨[_], rfl⟩
  | false =>
      cases hdead : (n.link a).dead with
      | true => exact ⟨[], by simp [hdead]⟩
      | false =>
          simp only [hdead, Bool.false_eq_true, if_false]
          exact ⟨_, sendtoOne_sendtoOne { n with servList := n.servList.erase a } a _ _⟩

/-- A direct link is below a server only if it is that server. -/
theorem Tree.below_direct (h : n.Tree) (hne : a ≠ n.me) {b : ℕ} (hk : n.client? b = some k)
    (hm : k.myConnect = true) (hb : Below n.parent a b) : b = a := by
  by_contra hba
  have hparent := hb.parent hba
  rw [Tree.parent_eq hk, (h.direct b k hk).mp hm] at hparent
  exact h.rooted.not_below_root hne hparent

/-- The fuel of `remove_dependents` lasts. -/
theorem Tree.iterate_lt_length (h : n.Tree) (hne : a ≠ n.me) {i b : ℕ}
    (hb : n.isServer b = true) (hi : n.parent^[i] b = a) : i < n.globalServList.length := by
  have hdepth := h.rooted.lt_depth_of_iterate_ne (x := b) (i := i) (hi ▸ hne)
  refine hdepth.trans (h.rooted.depth_lt_length fun j => (h.memServ _).mpr ?_)
  cases j with
  | zero => exact hb
  | succ j =>
      rw [Function.iterate_succ_apply']
      exact h.parent _

theorem removeDependents_eq (h : n.Tree) (ha : n.isServer a = true) (hne : a ≠ n.me)
    (hpeers : ∀ peer ∈ n.servList, ∀ b, Below n.parent a b → peer ≠ b) (fromLink : Option ℕ)
    (comment splitstr : Str) :
    ∃ gone, Emptied (n.withSent (n.sent ++ n.servList.flatMap fun peer =>
        (n.quitLines a fromLink peer comment splitstr (n.myNameForLink peer)
          n.globalServList.length a).map (Prod.mk peer))) a
      (n.removeDependents a fromLink comment splitstr) gone := by
  rw [removeDependents]
  have hfold : n.servList.foldl (fun s peer => recurseSendQuits a fromLink peer comment splitstr
      (s.myNameForLink peer) n.globalServList.length a s) n = _ :=
    foldl_recurseSendQuits h n.globalServList.length n.servList n.sent hpeers
  rw [hfold]
  exact Tree.recurseRemoveClients (h.relink n.servList _) n.globalServList.length ha hne
    fun i b hb hi => h.iterate_lt_length hne hb hi

/-- A link that has been told that it is closed. -/
def closing (n : Network) (a : ℕ) (lines : List Str) : Network :=
  { n with servList := n.servList.erase a, sent := n.sent ++ lines.map (Prod.mk a) }

theorem exitClient_server (hl : n.Linked) (hk : n.client? a = some k)
    (hserver : k.isClient = false) (hideServers : Bool) (source : ℕ) (killed : Bool)
    (comment : Str) :
    ∃ (lines : List Str) (fromLink : Option ℕ) (splitstr : Str),
      (∀ peer, fromLink = some peer → n.fromOf source = peer) ∧
      n.exitClient hideServers a source killed comment =
        let n' := (n.closing a lines).removeDependents a fromLink comment splitstr
        ((n'.check (a ∉ n'.servList) .onList).check (a ∉ n'.unknownList) .onList).exitOneClient
          a := by
  obtain ⟨lines, hclosed⟩ : ∃ lines : List Str,
      (if k.myConnect then n.closeLink a source k comment else n) = n.closing a lines := by
    cases hm : k.myConnect with
    | true =>
        obtain ⟨lines, hlines⟩ := n.closeLink_eq a source k comment
        exact ⟨lines, by rw [if_pos rfl, hlines, hserver, if_neg Bool.false_ne_true, closing]⟩
    | false =>
        have hnot : a ∉ n.servList := fun hmem => by
          have hany := ((hl.mem a).mp hmem).2.2
          rw [hk, Option.any_some, hm] at hany
          cases hany
        refine ⟨[], ?_⟩
        rw [if_neg Bool.false_ne_true, closing, List.erase_of_not_mem hnot, List.map_nil,
          List.append_nil]
  refine ⟨lines, if k.myConnect && source = a then none else some (n.fromOf source),
    (n.closing a lines).splitstr hideServers k, fun peer hpeer => ?_, ?_⟩
  · split at hpeer
    · cases hpeer
    · exact Option.some.inj hpeer
  · rw [exitClient, hk]
    simp only [hclosed, hserver, Bool.false_eq_true, if_false]
    rfl

end ExitClient

section Trio

def hubNet : Client := { Client.make "hub.net".toList false true with servers := [2, 1] }

def leafNet (a : ℕ) (name : String) : Client :=
  { Client.make name.toList false true with from_ := a }

/-- A server with two links. -/
def trio : Network where
  core := { Server.init with
    graph := ((Server.init.graph.setLeft 0 (some hubNet)).setLeft 1
      (some (leafNet 1 "east.net"))).setLeft 2 (some (leafNet 2 "west.net"))
    nextClient := 3 }
  me := 0
  pending := fun _ => none
  clientTable := [2, 1, 0]
  idTable := []
  globalClientList := [2, 1, 0]
  globalServList := [2, 1, 0]
  servList := [2, 1]
  unknownList := []
  depServers := fun _ => 1
  depUsers := fun _ => 0
  link := fun _ => ⟨some ⟨none, false⟩, ⟨false, true, false, false⟩, false⟩
  sent := []
  faults := []

theorem client?_trio (a : ℕ) : trio.client? a =
    if a = 0 then some hubNet else if a = 1 then some (leafNet 1 "east.net")
    else if a = 2 then some (leafNet 2 "west.net") else none := by
  rcases a with _ | _ | _ | a <;> rfl

theorem isServer_trio (a : ℕ) : trio.isServer a = decide (a < 3) := by
  rcases a with _ | _ | _ | a <;> rfl

theorem tree_trio : trio.Tree where
  core := by
    have h₀ := Server.Inv.init.enter (a := 0) (n := 1) rfl (by decide) (by decide) hubNet
    have h₁ := h₀.enter (a := 1) (n := 2) rfl (by decide) (by decide) (leafNet 1 "east.net")
    exact h₁.enter (a := 2) (n := 3) rfl (by decide) (by decide) (leafNet 2 "west.net")
  root := by decide
  parentMe := by decide
  parent := fun a => by rcases a with _ | _ | _ | a <;> rfl
  reaches := fun a => ⟨1, by rcases a with _ | _ | _ | a <;> rfl⟩
  nodupServ := by decide
  memServ := fun a => by
    rw [isServer_trio]
    rcases a with _ | _ | _ | a <;> simp [trio]
  nodupServers := fun p => by
    rcases p with _ | _ | _ | p <;> simp [servers, client?_trio, hubNet, leafNet, Client.make]
  memServers := fun p b => by
    rcases p with _ | _ | _ | p <;> rcases b with _ | _ | _ | b <;>
      simp [servers, isServer_trio, parent, client?_trio, hubNet, leafNet, Client.make] <;> decide
  nodupUsers := fun p => by
    rcases p with _ | _ | _ | p <;> simp [users, client?_trio, hubNet, leafNet, Client.make]
  memUsers := fun p b => by
    rcases p with _ | _ | _ | p <;> rcases b with _ | _ | _ | b <;>
      simp [users, isUser, parent, client?_trio, hubNet, leafNet, Client.make]
  direct := fun a k hk => by
    rcases a with _ | _ | _ | a <;> simp [client?_trio] at hk <;> subst hk <;>
      simp [hubNet, leafNet, Client.make] <;> rfl
  from_ := fun a k hk => by
    rcases a with _ | _ | _ | a <;> simp [client?_trio] at hk <;> subst hk <;>
      simp [hubNet, leafNet, Client.make]
  nodupClients := by decide
  memClients := fun a => by rcases a with _ | _ | _ | a <;> simp [client?_trio] <;> simp [trio]
  last := rfl
  pending := fun a ha => by cases ha
  nodupUnknown := by decide
  memUnknown := fun a => by simp [trio]
  nodupNames := by decide
  memNames := fun a => by
    rcases a with _ | _ | _ | a <;> simp [client?_trio] <;> first | decide | simp [trio]
  nodupIds := by decide
  memIds := fun a => by
    rcases a with _ | _ | _ | a <;> simp [client?_trio] <;> first | decide | simp [trio]
  depServers := fun p _ => by rcases p with _ | _ | _ | p <;> rfl
  depUsers := fun p _ => by rcases p with _ | _ | _ | p <;> rfl

theorem linked_trio : trio.Linked where
  nodup := by decide
  mem := fun a => by
    rw [isServer_trio]
    rcases a with _ | _ | _ | a <;> simp [client?_trio, hubNet, leafNet, Client.make] <;>
      simp [trio]

end Trio

end Network

end Unirc
