import Unirc.MainLoopFiled

/-!
# What an exit does

A client without dependents that is off the lists of connections goes through `exit_one_client` and
is filed on `dead_list` alone. A server takes with it what hangs off it, all of it introduced later
than the server.
-/

namespace Unirc

namespace MainLoop

variable {s : MainLoop} {busy : ℕ → Prop} {c : ℕ} {k : ClientRecord}

/-- Nothing refers to `c` but its record. -/
structure Off (s : MainLoop) (c : ℕ) : Prop where
  lists : ∀ L, c ∉ s.lists L
  users : ∀ p, c ∉ s.users p
  servers : ∀ p, c ∉ s.servers p
  noUsers : s.users c = []
  noServers : s.servers c = []
  members : ∀ m ∈ s.members, m.2 ≠ c
  accepts : ∀ a ∈ s.accepts, a.1 ≠ c ∧ a.2 ≠ c
  invites : ∀ i ∈ s.invites, i.2 ≠ c

/-- The end of `exit_one_client`. -/
def buried (s : MainLoop) (c : ℕ) : MainLoop :=
  { s.modify c (fun k => { k with dead := true }) with
    deadList := c :: s.deadList
    exited := s.exited ++ [c] }

theorem Filed.servptr_ne (h : s.Filed busy) (hbusy : ∀ x, busy x → x ≤ c) (hoff : s.Off c) {x : ℕ}
    (hx : s.client x = some k) (hexited : x ∉ s.exited)
    (hst : k.status = .client ∨ k.status = .server) : k.servptr ≠ c := by
  intro hp
  obtain ⟨hlt, -, -⟩ := h.parent x k hx hexited hst
  rcases h.child x k hx hexited with hb | ⟨huser, hserver⟩
  · have := hbusy x hb
    omega
  · rw [hp, hoff.noUsers, hoff.noServers] at *
    rcases hst with hst | hst
    · exact absurd (huser hst) List.not_mem_nil
    · exact absurd (hserver hst) List.not_mem_nil

theorem Filed.buried (h : s.Filed busy) (hbusy : ∀ x, busy x → x ≤ c) (hk : s.client c = some k)
    (hexited : c ∉ s.exited) (hme : k.status ≠ .me)
    (hclosing : k.myConnect = true → k.closing = true) (hoff : s.Off c) :
    (s.buried c).Filed busy := by
  have hc : c ≠ me := fun he => hme (h.isMe.of_client (he ▸ hk))
  have hdead : c ∉ s.deadList := fun hd => hexited ((h.left c).mpr (.inl hd))
  have hfreed : c ∉ s.freed := fun hd => hexited ((h.left c).mpr (.inr hd))
  have hmem : ∀ x, x ∈ (s.buried c).exited ↔ x ∈ s.exited ∨ x = c := by
    intro x
    rw [MainLoop.buried, List.mem_append, List.mem_singleton]
  have hother : ∀ x, x ≠ c → (s.buried c).client x = s.client x := by
    intro x hx
    exact Function.update_of_ne hx ..
  have hself : (s.buried c).client c = some { k with dead := true } :=
    (client_modify _ c).trans (by rw [hk, if_pos rfl]; rfl)
  have hlive : ∀ {p : ClientRecord → Prop} {x : ℕ}, x ≠ c → s.Live p x → (s.buried c).Live p x := by
    intro p x hx hlive
    obtain ⟨k', hk', hp, he⟩ := hlive
    exact ⟨k', (hother x hx).trans hk', hp, fun hin => ((hmem x).mp hin).elim he hx⟩
  have hold : ∀ x k', (s.buried c).client x = some k' → x ∉ (s.buried c).exited →
      x ≠ c ∧ s.client x = some k' ∧ x ∉ s.exited := by
    intro x k' hk' he
    have hx : x ≠ c := fun hx => he ((hmem x).mpr (.inr hx))
    exact ⟨hx, (hother x hx).symm.trans hk', fun hin => he ((hmem x).mpr (.inl hin))⟩
  exact {
    isMe := hlive hc.symm h.isMe
    onlyMe := fun x k' hk' hst => by
      by_cases hx : x = c
      · subst hx
        cases hself.symm.trans hk'
        exact absurd hst hme
      · exact h.onlyMe x k' ((hother x hx).symm.trans hk') hst
    fresh := fun x hx => by
      have hlt := h.lt_next hk
      have hxc : x ≠ c := fun he => absurd hx (by rw [he]; exact Nat.not_le.mpr hlt)
      obtain ⟨hnone, he⟩ := h.fresh x hx
      exact ⟨(hother x hxc).trans hnone, fun hin => ((hmem x).mp hin).elim he hxc⟩
    once := h.once.append (List.nodup_singleton c) (by simpa using hexited)
    dead := List.nodup_cons.mpr ⟨hdead, h.dead⟩
    freedOnce := h.freedOnce
    left := fun x => by
      rw [hmem, h.left]
      change _ ↔ x ∈ c :: s.deadList ∨ x ∈ s.freed
      rw [List.mem_cons]
      tauto
    gone := fun x hx => by
      rw [hother x fun he => hfreed (he ▸ hx)]
      exact h.gone x hx
    waiting := fun x hx => by
      rcases List.mem_cons.mp hx with rfl | hx
      · exact ⟨_, hself, rfl, hclosing⟩
      · rw [hother x fun he => hdead (he ▸ hx)]
        exact h.waiting x hx
    listed := fun L x hx => hlive (fun he => hoff.lists L (he ▸ hx)) (h.listed L x hx)
    nodup := h.nodup
    last := h.last
    closing := fun x k' hk' hmy hcl => by
      by_cases hx : x = c
      · exact .inl ((hmem x).mpr (.inr hx))
      · rw [hmem]
        exact (h.closing x k' ((hother x hx).symm.trans hk') hmy hcl).imp_left .inl
    user := fun p x hx => hlive (fun he => hoff.users p (he ▸ hx)) (h.user p x hx)
    server := fun p x hx => hlive (fun he => hoff.servers p (he ▸ hx)) (h.server p x hx)
    usersNodup := h.usersNodup
    serversNodup := h.serversNodup
    child := fun x k' hk' he => by
      obtain ⟨-, hk', he⟩ := hold x k' hk' he
      exact h.child x k' hk' he
    parent := fun x k' hk' he hst => by
      obtain ⟨-, hk', he⟩ := hold x k' hk' he
      obtain ⟨hlt, hp, hmy⟩ := h.parent x k' hk' he hst
      exact ⟨hlt, hlive (h.servptr_ne hbusy hoff hk' he hst) hp, hmy⟩
    member := fun m hm => hlive (hoff.members m hm) (h.member m hm)
    accept := fun a ha => ⟨hlive (hoff.accepts a ha).1 (h.accept a ha).1,
      hlive (hoff.accepts a ha).2 (h.accept a ha).2⟩
    invite := fun i hi => hlive (hoff.invites i hi) (h.invite i hi)
    aborted := fun x hx => by
      obtain ⟨k', hk', hd, hmy, hst⟩ := h.aborted x hx
      by_cases hxc : x = c
      · subst hxc
        cases hk'.symm.trans hk
        exact ⟨_, hself, rfl, hmy, hst⟩
      · exact ⟨k', (hother x hxc).trans hk', hd, hmy, hst⟩
    abortedNodup := h.abortedNodup
    marked := fun x k' hk' hd he => by
      obtain ⟨-, hk', he⟩ := hold x k' hk' he
      exact h.marked x k' hk' hd he
    faults := h.faults }

theorem removes_remove (s : MainLoop) (L : ClientList) (c : ℕ) : Removes c s (s.remove L c) where
  client := rfl
  next := rfl
  abortList := rfl
  eacNext := rfl
  deadList := rfl
  exited := rfl
  freed := rfl
  faults := rfl
  lists := fun L' => by
    by_cases hL : L' = L
    · subst hL
      exact .inr (Function.update_self ..)
    · exact .inl (Function.update_of_ne hL ..)
  users := fun _ => .inl rfl
  servers := fun _ => .inl rfl
  members := List.Subset.refl _
  accepts := List.Subset.refl _
  invites := List.Subset.refl _

theorem Filed.remove (h : s.Filed busy) (hb : busy c) (hme : c ≠ me) (L : ClientList) :
    (s.remove L c).Filed busy ∧ Loses c s (s.remove L c) ∧ c ∉ (s.remove L c).lists L := by
  have hr := removes_remove s L c
  refine ⟨h.removes hr hb hme, hr.loses, ?_⟩
  have herase : (s.remove L c).lists L = (s.lists L).erase c := Function.update_self ..
  rw [herase]
  exact (h.nodup L).not_mem_erase

theorem Filed.removeIf (h : s.Filed busy) (hb : busy c) (hme : c ≠ me) {b : Bool} {L : ClientList}
    (hL : c ∈ s.lists L → b = true) : (s.removeIf b L c).Filed busy ∧
      Loses c s (s.removeIf b L c) ∧ c ∉ (s.removeIf b L c).lists L := by
  rw [MainLoop.removeIf]
  split
  · exact h.remove hb hme L
  · rename_i hfalse
    exact ⟨h, (Sent.refl s).loses c, fun hc => hfalse (hL hc)⟩

/-- `c` is not with its server any more, on no channel and on no accept list. -/
structure Parted (s : MainLoop) (c : ℕ) : Prop where
  globalServ : c ∉ s.lists .globalServ
  users : ∀ p, c ∉ s.users p
  servers : ∀ p, c ∉ s.servers p
  members : ∀ m ∈ s.members, m.2 ≠ c
  accepts : ∀ a ∈ s.accepts, a.1 ≠ c ∧ a.2 ≠ c
  invites : ∀ i ∈ s.invites, i.2 ≠ c

theorem Parted.loses {s' : MainLoop} {d : ℕ} (h : s.Parted c) (hl : Loses d s s') :
    s'.Parted c where
  globalServ := fun hc => h.globalServ (hl.lists _ hc)
  users := fun p hc => h.users p (hl.users p hc)
  servers := fun p hc => h.servers p (hl.servers p hc)
  members := fun m hm => h.members m (hl.members hm)
  accepts := fun a ha => h.accepts a (hl.accepts ha)
  invites := fun i hi => h.invites i (hl.invites hi)

section Kind

variable (h : s.Filed busy) (hk : s.client c = some k)

include h hk

theorem Filed.not_user (hst : k.status ≠ .client) : (∀ p, c ∉ s.users p) ∧
    (∀ m ∈ s.members, m.2 ≠ c) ∧ (∀ a ∈ s.accepts, a.1 ≠ c ∧ a.2 ≠ c) ∧
      ∀ i ∈ s.invites, i.2 ≠ c := by
  refine ⟨fun p hc => hst ((h.user p c hc).of_client hk).1, fun m hm he => ?_, fun a ha => ⟨?_, ?_⟩,
    fun i hi he => ?_⟩
  · exact hst ((he ▸ h.member m hm).of_client hk)
  · exact fun he => hst ((he ▸ (h.accept a ha).1).of_client hk)
  · exact fun he => hst ((he ▸ (h.accept a ha).2).of_client hk)
  · exact hst ((he ▸ h.invite i hi).of_client hk).1

theorem Filed.not_server (hst : k.status ≠ .server) : ∀ p, c ∉ s.servers p :=
  fun p hc => hst ((h.server p c hc).of_client hk).1

theorem Filed.parent_isSome (hexited : c ∉ s.exited)
    (hst : k.status = .client ∨ k.status = .server) : (s.client k.servptr).isSome = true := by
  obtain ⟨-, ⟨k', hk', -⟩, -⟩ := h.parent c k hk hexited hst
  rw [hk']
  rfl

theorem Filed.exitServer (hb : busy c) (hexited : c ∉ s.exited) (hst : k.status = .server) :
    (s.exitServer c k).Filed busy ∧ Loses c s (s.exitServer c k) ∧ (s.exitServer c k).Parted c := by
  have hme : c ≠ me := fun he => by
    have hme := h.isMe.of_client (he ▸ hk)
    rw [hst] at hme
    cases hme
  rw [MainLoop.exitServer, check_of (h.parent_isSome hk hexited (.inr hst))]
  set t : MainLoop :=
    { s with servers := Function.update s.servers k.servptr ((s.servers k.servptr).erase c) }
  have hr : Removes c s t := {
    client := rfl
    next := rfl
    abortList := rfl
    eacNext := rfl
    deadList := rfl
    exited := rfl
    freed := rfl
    faults := rfl
    lists := fun _ => .inl rfl
    users := fun _ => .inl rfl
    servers := fun p => by
      by_cases hp : p = k.servptr
      · rw [hp]
        exact .inr (Function.update_self ..)
      · exact .inl (Function.update_of_ne hp ..)
    members := List.Subset.refl _
    accepts := List.Subset.refl _
    invites := List.Subset.refl _ }
  have ht := h.removes hr hb hme
  obtain ⟨hfiled, hloses, hserv⟩ := ht.remove hb hme .globalServ
  obtain ⟨huser, hmember, haccept, hinvite⟩ := h.not_user hk (by rw [hst]; decide)
  refine ⟨hfiled, hr.loses.trans hloses, ⟨hserv, huser, fun p hc => ?_, hmember, haccept, hinvite⟩⟩
  change c ∈ t.servers p at hc
  have hp : p = k.servptr := ((ht.server p c hc).of_client hk).2.symm
  have herase : t.servers k.servptr = (s.servers k.servptr).erase c := Function.update_self ..
  rw [hp, herase] at hc
  exact (h.serversNodup _).not_mem_erase hc

theorem Filed.exitUser (hb : busy c) (hexited : c ∉ s.exited) (hst : k.status = .client) :
    (s.exitUser c k).Filed busy ∧ Loses c s (s.exitUser c k) ∧ (s.exitUser c k).Parted c := by
  have hme : c ≠ me := fun he => by
    have hme := h.isMe.of_client (he ▸ hk)
    rw [hst] at hme
    cases hme
  unfold MainLoop.exitUser
  extract_lets s0 s1 s2
  have hs0 : s = s0 := (check_of (h.parent_isSome hk hexited (.inl hst)) _).symm
  clear_value s0
  subst hs0
  have hr : Removes c s s1 := {
    client := rfl
    next := rfl
    abortList := rfl
    eacNext := rfl
    deadList := rfl
    exited := rfl
    freed := rfl
    faults := rfl
    lists := fun _ => .inl rfl
    users := fun p => by
      by_cases hp : p = k.servptr
      · rw [hp]
        exact .inr (Function.update_self ..)
      · exact .inl (Function.update_of_ne hp ..)
    servers := fun _ => .inl rfl
    members := List.Subset.refl _
    accepts := List.Subset.refl _
    invites := List.Subset.refl _ }
  have hs1 := h.removes hr hb hme
  obtain ⟨hs2, hsent⟩ := hs1.send
  set s3 : MainLoop := { s2 with
    members := s2.members.filter fun m => m.2 ≠ c
    accepts := s2.accepts.filter fun a => a.1 ≠ c ∧ a.2 ≠ c
    invites := if k.myConnect then s2.invites.filter fun i => i.2 ≠ c else s2.invites }
  have hr3 : Removes c s2 s3 := {
    client := rfl
    next := rfl
    abortList := rfl
    eacNext := rfl
    deadList := rfl
    exited := rfl
    freed := rfl
    faults := rfl
    lists := fun _ => .inl rfl
    users := fun _ => .inl rfl
    servers := fun _ => .inl rfl
    members := List.filter_sublist.subset
    accepts := List.filter_sublist.subset
    invites := by
      change (if k.myConnect then _ else _) ⊆ s2.invites
      split
      · exact List.filter_sublist.subset
      · exact List.Subset.refl _ }
  have hloses := (hr.loses.trans (hsent.loses c)).trans hr3.loses
  have hs3 := hs2.removes hr3 hb hme
  refine ⟨hs3, hloses, ?_⟩
  obtain ⟨k3, hk3, hsame, -, -⟩ := hloses.record c k hk
  exact {
    globalServ := fun hc => by
      have hfits := (h.listed _ c (hloses.lists _ hc)).of_client hk
      rcases hfits with hst' | hst'
      · rw [hst] at hst'
        cases hst'
      · rw [hst] at hst'
        cases hst'
    users := fun p hc => by
      have hp : p = k.servptr := by
        rw [← hsame.servptr]
        exact ((hs3.user p c hc).of_client hk3).2.symm
      have hin := (hsent.loses c).users _ (hr3.loses.users _ hc)
      have herase : s1.users k.servptr = (s.users k.servptr).erase c := Function.update_self ..
      rw [hp, herase] at hin
      exact (h.usersNodup _).not_mem_erase hin
    servers := fun p hc => by
      have hst' := ((hs3.server p c hc).of_client hk3).1
      rw [hsame.status, hst] at hst'
      cases hst'
    members := fun m hm => by simpa using (List.mem_filter.mp hm).2
    accepts := fun a ha => by simpa using (List.mem_filter.mp ha).2
    invites := fun i hi => by
      change i ∈ (if k.myConnect then _ else _) at hi
      split at hi
      · simpa using (List.mem_filter.mp hi).2
      · rename_i hmy
        intro he
        have hlocal := ((he ▸ hs2.invite i hi : s2.Live _ c).of_client hk3).2
        exact hmy (hsame.myConnect ▸ hlocal) }

end Kind

/-- What `exit_one_client` does to the others. -/
structure Exits (c : ℕ) (s s' : MainLoop) : Prop where
  next : s'.next = s.next
  exited : s'.exited = s.exited ++ [c]
  freed : s'.freed = s.freed
  aborts : Aborts s s'
  record : ∀ x k, s.client x = some k →
    ∃ k', s'.client x = some k' ∧ SameKind k k' ∧ k'.closing = k.closing ∧ k'.killed = k.killed
  lists : ∀ L, s'.lists L ⊆ s.lists L
  users : ∀ p, s'.users p ⊆ s.users p
  servers : ∀ p, s'.servers p ⊆ s.servers p
  keepUsers : ∀ p, ∀ x ∈ s.users p, x ≠ c → x ∈ s'.users p
  keepServers : ∀ p, ∀ x ∈ s.servers p, x ≠ c → x ∈ s'.servers p

theorem Loses.buried {s' : MainLoop} (h : Loses c s s') : Exits c s (s'.buried c) where
  next := h.next
  exited := congrArg (· ++ [c]) h.exited
  freed := h.freed
  aborts := ⟨fun x hx => deadAt_modify (fun _ _ => rfl) (h.aborts.stays x hx), h.aborts.fresh,
    h.aborts.head⟩
  record := fun x k hk => by
    obtain ⟨k', hk', hsame, hcl, hkilled⟩ := h.record x k hk
    refine ⟨_, (client_modify _ x).trans (by rw [hk']; rfl), ?_⟩
    split
    · exact ⟨⟨hsame.status, hsame.myConnect, hsame.servptr, hsame.named, hsame.hasId, hsame.oper⟩,
        hcl, hkilled⟩
    · exact ⟨hsame, hcl, hkilled⟩
  lists := h.lists
  users := h.users
  servers := h.servers
  keepUsers := h.keepUsers
  keepServers := h.keepServers

/-- A client without dependents, that is no connection any more, is ready for `exit_one_client`. -/
structure Ready (s : MainLoop) (c : ℕ) (k : ClientRecord) : Prop where
  client : s.client c = some k
  notMe : k.status ≠ .me
  notExited : c ∉ s.exited
  closing : k.myConnect = true → k.closing = true
  unknown : c ∉ s.lists .unknown
  localClient : c ∉ s.lists .localClient
  serv : c ∉ s.lists .serv
  oper : c ∉ s.lists .oper
  users : s.users c = []
  servers : s.servers c = []

theorem Filed.exitOneClient (h : s.Filed busy) (hbusy : ∀ x, busy x → x ≤ c) (hr : s.Ready c k) :
    (s.exitOneClient c).Filed busy ∧ Exits c s (s.exitOneClient c) := by
  have hk := hr.client
  have hme : c ≠ me := fun he => hr.notMe (h.isMe.of_client (he ▸ hk))
  have hrelaxed : s.Filed fun x => busy x ∨ x = c := h.relax fun x hx => .inl (.inl hx)
  unfold MainLoop.exitOneClient
  split
  · rename_i hnone
    rw [hk] at hnone
    cases hnone
  rename_i k' hk'
  cases hk.symm.trans hk'
  extract_lets s0 s1 s2 s3 s4
  have hs0 : s = s0 := (check_of (decide_eq_true hr.notMe) _).symm
  clear_value s0
  subst hs0
  have h1 : s1.Filed (fun x => busy x ∨ x = c) ∧ Loses c s s1 ∧ s1.Parted c := by
    dsimp only [s1]
    split
    · rename_i hst
      exact hrelaxed.exitServer hk (.inr rfl) hr.notExited hst
    · rename_i hserver
      split
      · rename_i hst
        exact hrelaxed.exitUser hk (.inr rfl) hr.notExited hst
      · rename_i huser
        obtain ⟨hu, hm, ha, hi⟩ := hrelaxed.not_user hk huser
        refine ⟨hrelaxed, (Sent.refl s).loses c, fun hc => ?_, hu,
          hrelaxed.not_server hk hserver, hm, ha, hi⟩
        exact ((h.listed _ c hc).of_client hk).elim hserver hr.notMe
  obtain ⟨hs1, hl1, hparted⟩ := h1
  have hid : c ∈ s1.lists .idTable → k.hasId = true := fun hc =>
    ((h.listed _ c (hl1.lists _ hc)).of_client hk).1
  obtain ⟨hsId, hlId, hnotId⟩ := hs1.removeIf (.inr rfl) hme hid
  have hnamed : c ∈ (s1.removeIf k.hasId .idTable c).lists .clientTable → k.named = true :=
    fun hc => (h.listed _ c (hl1.lists _ (hlId.lists _ hc))).of_client hk
  obtain ⟨hs2, hlName, hnotName⟩ := hsId.removeIf (.inr rfl) hme hnamed
  have hlast : c ∈ s2.lists .globalClient →
      decide ((s2.lists .globalClient).getLast? ≠ some c) = true := by
    intro _
    rw [decide_eq_true_iff]
    rw [hs2.last]
    exact fun he => hme (Option.some.inj he).symm
  obtain ⟨hs3, hlGlobal, hnotGlobal⟩ := hs2.removeIf (.inr rfl) hme hlast
  obtain ⟨hs4, hsent⟩ := hs3.send
  have hl3 : Loses c s s3 := ((hl1.trans hlId).trans hlName).trans hlGlobal
  have hl4 : Loses c s s3.send := hl3.trans (hsent.loses c)
  have hdead : c ∉ s3.deadList := by
    rw [hl3.deadList]
    exact fun hd => hr.notExited ((h.left c).mpr (.inl hd))
  have heq : s4 = s3.send := check_of (decide_eq_true hdead) _
  obtain ⟨k4, hk4, hsame, hcl, -⟩ := hl4.record c k hk
  have hpart4 := hparted.loses (((hlId.trans hlName).trans hlGlobal).trans (hsent.loses c))
  have hoff : s3.send.Off c := {
    lists := fun L hc => by
      cases L with
      | unknown => exact hr.unknown (hl4.lists _ hc)
      | localClient => exact hr.localClient (hl4.lists _ hc)
      | serv => exact hr.serv (hl4.lists _ hc)
      | oper => exact hr.oper (hl4.lists _ hc)
      | globalClient => exact hnotGlobal ((hsent.loses c).lists _ hc)
      | globalServ => exact hpart4.globalServ hc
      | clientTable => exact hnotName ((hlGlobal.trans (hsent.loses c)).lists _ hc)
      | idTable => exact hnotId (((hlName.trans hlGlobal).trans (hsent.loses c)).lists _ hc)
    users := hpart4.users
    servers := hpart4.servers
    noUsers := List.eq_nil_of_subset_nil (hr.users ▸ hl4.users c)
    noServers := List.eq_nil_of_subset_nil (hr.servers ▸ hl4.servers c)
    members := hpart4.members
    accepts := hpart4.accepts
    invites := hpart4.invites }
  clear_value s4
  subst heq
  change (s3.send.buried c).Filed busy ∧ Exits c s (s3.send.buried c)
  have hburied := hs4.buried (fun x hx => hx.elim (hbusy x) Nat.le_of_eq) hk4
    (hl4.exited ▸ hr.notExited) (hsame.status ▸ hr.notMe)
    (fun hmy => hcl.trans (hr.closing (hsame.myConnect ▸ hmy))) hoff
  refine ⟨hburied.relax fun x hx => hx.imp_right ?_, hl4.buried⟩
  rintro rfl
  exact List.mem_append_right _ (List.mem_singleton_self _)

/-- Between the states there are exits of clients below `a` only. -/
structure Under (a : ℕ) (s s' : MainLoop) : Prop where
  next : s'.next = s.next
  freed : s'.freed = s.freed
  aborts : Aborts s s'
  exited : s.exited ⊆ s'.exited
  record : ∀ x k, s.client x = some k →
    ∃ k', s'.client x = some k' ∧ SameKind k k' ∧ k'.closing = k.closing ∧ k'.killed = k.killed
  stays : ∀ x k, s.client x = some k → k.servptr < a → x ∉ s.exited → x ∉ s'.exited
  lists : ∀ L, s'.lists L ⊆ s.lists L
  users : ∀ p, s'.users p ⊆ s.users p
  servers : ∀ p, s'.servers p ⊆ s.servers p
  keepUsers : ∀ p < a, s.users p ⊆ s'.users p
  keepServers : ∀ p < a, s.servers p ⊆ s'.servers p

namespace Under

variable {s' s'' : MainLoop} {a b : ℕ}

theorem of_sent (h : Sent s s') (a : ℕ) : Under a s s' where
  next := h.next
  freed := h.freed
  aborts := h.aborts
  exited := h.exited ▸ List.Subset.refl _
  record := h.record
  stays := fun x k _ _ hx => h.exited ▸ hx
  lists := fun L => by rw [h.lists]; exact List.Subset.refl _
  users := fun p => by rw [h.users]; exact List.Subset.refl _
  servers := fun p => by rw [h.servers]; exact List.Subset.refl _
  keepUsers := fun p _ => by rw [h.users]; exact List.Subset.refl _
  keepServers := fun p _ => by rw [h.servers]; exact List.Subset.refl _

theorem trans (h : Under a s s') (h' : Under a s' s'') : Under a s s'' where
  next := h'.next.trans h.next
  freed := h'.freed.trans h.freed
  aborts := h.aborts.trans h'.aborts
  exited := List.Subset.trans h.exited h'.exited
  record := fun x k hk => by
    obtain ⟨k', hk', hsame, hcl, hkilled⟩ := h.record x k hk
    obtain ⟨k'', hk'', hsame', hcl', hkilled'⟩ := h'.record x k' hk'
    exact ⟨k'', hk'', hsame.trans hsame', hcl'.trans hcl, hkilled'.trans hkilled⟩
  stays := fun x k hk hlt hx => by
    obtain ⟨k', hk', hsame, -⟩ := h.record x k hk
    exact h'.stays x k' hk' (hsame.servptr ▸ hlt) (h.stays x k hk hlt hx)
  lists := fun L => List.Subset.trans (h'.lists L) (h.lists L)
  users := fun p => List.Subset.trans (h'.users p) (h.users p)
  servers := fun p => List.Subset.trans (h'.servers p) (h.servers p)
  keepUsers := fun p hp => List.Subset.trans (h.keepUsers p hp) (h'.keepUsers p hp)
  keepServers := fun p hp => List.Subset.trans (h.keepServers p hp) (h'.keepServers p hp)

theorem mono (h : Under b s s') (hab : a ≤ b) : Under a s s' := {
  h with
  stays := fun x k hk hlt hx => h.stays x k hk (hlt.trans_le hab) hx
  keepUsers := fun p hp => h.keepUsers p (hp.trans_le hab)
  keepServers := fun p hp => h.keepServers p (hp.trans_le hab) }

theorem of_exits (hs : s.Filed busy) (h : Exits c s s') (hk : s.client c = some k)
    (ha : a ≤ k.servptr) : Under a s s' where
  next := h.next
  freed := h.freed
  aborts := h.aborts
  exited := h.exited ▸ List.subset_append_left _ _
  record := h.record
  stays := fun x k' hk' hlt hx => by
    rw [h.exited, List.mem_append, List.mem_singleton]
    rintro (he | rfl)
    · exact hx he
    · cases hk.symm.trans hk'
      omega
  lists := h.lists
  users := h.users
  servers := h.servers
  keepUsers := fun p hp x hx => h.keepUsers p x hx fun hxc => by
    have := ((hs.user p x hx).of_client (hxc ▸ hk)).2
    omega
  keepServers := fun p hp x hx => h.keepServers p x hx fun hxc => by
    have := ((hs.server p x hx).of_client (hxc ▸ hk)).2
    omega

end Under

/-- Only servers have dependents. -/
theorem Filed.no_dependents (h : s.Filed busy) (hk : s.client c = some k)
    (hserver : k.status ≠ .server)
    (hme : k.status ≠ .me) : s.users c = [] ∧ s.servers c = [] := by
  have hfree : ∀ x k', s.client x = some k' → x ∉ s.exited →
      k'.status = .client ∨ k'.status = .server → k'.servptr ≠ c := by
    intro x k' hk' hx hst hp
    obtain ⟨-, hlive, -⟩ := h.parent x k' hk' hx hst
    exact ((hp ▸ hlive).of_client hk).elim hserver hme
  constructor
  · rw [List.eq_nil_iff_forall_not_mem]
    intro x hx
    obtain ⟨k', hk', ⟨hst, hp⟩, hexited⟩ := h.user c x hx
    exact hfree x k' hk' hexited (.inl hst) hp
  · rw [List.eq_nil_iff_forall_not_mem]
    intro x hx
    obtain ⟨k', hk', ⟨hst, hp⟩, hexited⟩ := h.server c x hx
    exact hfree x k' hk' hexited (.inr hst) hp

/-- What hangs off a server of the network is not connected to us. -/
theorem Filed.ready_of_remote (h : s.Filed busy) (hk : s.client c = some k) (hexited : c ∉ s.exited)
    (hst : k.status = .client ∨ k.status = .server) (hp : k.servptr ≠ me) (hu : s.users c = [])
    (hs : s.servers c = []) : s.Ready c k := by
  have hmy : k.myConnect ≠ true := fun hmy => hp ((h.parent c k hk hexited hst).2.2 hmy)
  exact {
    client := hk
    notMe := fun hme => by
      rcases hst with hst | hst <;> rw [hme] at hst <;> cases hst
    notExited := hexited
    closing := fun htrue => absurd htrue hmy
    unknown := fun hc => hmy ((h.listed _ c hc).of_client hk).1
    localClient := fun hc => hmy ((h.listed _ c hc).of_client hk).1
    serv := fun hc => hmy ((h.listed _ c hc).of_client hk).1
    oper := fun hc => hmy ((h.listed _ c hc).of_client hk).1
    users := hu
    servers := hs }

end MainLoop

end Unirc
