import Unirc.MainLoopArrival

/-!
# The events between two rounds

What happens between the ends of two rounds leaves every client where it belongs, and nobody in the
middle of an exit.
-/

namespace Unirc

namespace MainLoop

variable {s : MainLoop} {busy : ℕ → Prop} {c : ℕ} {k : ClientRecord}

section Exits

theorem Filed.exitLive (h : s.Idle) (hc : s.Live (fun k => k.status ≠ .me) c) :
    (s.exitClient c).Idle := by
  obtain ⟨k, hk, hst, hexited⟩ := hc
  have hopen : k.myConnect = true → k.closing = false := by
    intro hmy
    rw [← Bool.not_eq_true]
    exact fun hcl => (h.closing c k hk hmy hcl).elim hexited id
  exact (h.exitClient (fun x hx => hx.elim) hk hexited hopen hst).1

theorem Filed.sendExit (h : s.Idle) (hc : s.Live (fun k => k.status ≠ .me) c) :
    (s.send.exitClient c).Idle := by
  obtain ⟨hsend, hsent⟩ := h.send
  exact hsend.exitLive (hc.sent hsent fun k k' hsame _ hst => hsame.status ▸ hst)

theorem Filed.live_connection (h : s.Filed busy) (hc : c ∈ s.connections) :
    s.Live (fun k => k.status ≠ .me) c :=
  (h.mem_connections hc).mono fun _ hk => hk.2.2

theorem Filed.deadLinkOnRead (h : s.Idle) (hc : c ∈ s.connections) :
    (s.deadLinkOnRead c).Idle := by
  obtain ⟨k, hk, -⟩ := h.live_connection hc
  rw [MainLoop.deadLinkOnRead, hk]
  dsimp only
  split
  · exact h
  · exact h.sendExit (h.live_connection hc)

theorem Filed.setKilled (h : s.Filed busy) :
    (s.modify c fun k => { k with killed := true }).Filed busy := by
  refine h.modify (fun k => ⟨rfl, rfl, rfl, rfl, rfl, rfl⟩) (fun _ hd => hd) (fun _ hcl => hcl)
    (fun _ _ hcl => .inl hcl) (fun k _ L _ hfits => ?_) h.abortedNodup (fun _ hx => hx)
    (fun _ hx => .inl hx) (fun _ _ hd => .inl hd)
  have hsame : SameKind k { k with killed := true } := ⟨rfl, rfl, rfl, rfl, rfl, rfl⟩
  exact hsame.fits rfl hfits

theorem Filed.kill (h : s.Idle) (c : ℕ) (marks : Bool) : (s.kill c marks).Idle := by
  rw [MainLoop.kill]
  split
  · rename_i hfound
    obtain ⟨hsend, hsent⟩ := h.send
    have hlive : s.send.Live (fun k => k.status ≠ .me) c :=
      ((Live.of_is hfound.2).mono fun k hk => (of_decide_eq_true hk).2).sent hsent
        fun k k' hsame _ hst => hsame.status ▸ hst
    cases marks with
    | false => exact hsend.exitLive hlive
    | true =>
        obtain ⟨k, hk, hst, hexited⟩ := hlive
        refine hsend.setKilled.exitLive
          ⟨_, (client_modify _ c).trans (by rw [hk]; rfl), ?_, hexited⟩
        rw [if_pos rfl]
        exact hst
  · exact h

end Exits

section Arrivals

@[simp]
theorem lists_add_of_ne {L L' : ClientList} (hL : L' ≠ L) : (s.add L c).lists L' = s.lists L' :=
  Function.update_of_ne hL ..

@[simp]
theorem lists_addIf_of_ne {L L' : ClientList} {b : Bool} (hL : L' ≠ L) :
    (s.addIf b L c).lists L' = s.lists L' := by
  rw [addIf]
  split
  · exact lists_add_of_ne hL
  · rfl

theorem addIf_cases (s : MainLoop) (b : Bool) (L : ClientList) (c : ℕ) :
    ∃ l, s.addIf b L c = { s with lists := l } := by
  rw [addIf]
  split
  · exact ⟨_, rfl⟩
  · exact ⟨s.lists, rfl⟩

theorem mem_addUser (s : MainLoop) (p c : ℕ) : c ∈ (s.addUser p c).users p := by
  have husers : (s.addUser p c).users p = c :: s.users p := Function.update_self ..
  rw [husers]
  exact List.mem_cons_self

theorem mem_addServer (s : MainLoop) (p c : ℕ) : c ∈ (s.addServer p c).servers p := by
  have hservers : (s.addServer p c).servers p = c :: s.servers p := Function.update_self ..
  rw [hservers]
  exact List.mem_cons_self

/-- Nothing refers to a number that was not given yet. -/
theorem Filed.next_new (h : s.Filed busy) : (∀ L, s.next ∉ s.lists L) ∧
    (∀ p, s.next ∉ s.users p) ∧ ∀ p, s.next ∉ s.servers p := by
  have hnone := (h.fresh s.next (Nat.le_refl _)).1
  have hlive : ∀ p, ¬ s.Live p s.next := by
    rintro p ⟨k, hk, -⟩
    rw [hnone] at hk
    cases hk
  exact ⟨fun L hc => hlive _ (h.listed L _ hc), fun p hc => hlive _ (h.user p _ hc),
    fun p hc => hlive _ (h.server p _ hc)⟩

theorem live_make (h : s.Filed busy) {p : ClientRecord → Prop} (hp : p k) :
    (s.make k).Live p s.next :=
  ⟨k, Function.update_self .., hp, (h.fresh s.next (Nat.le_refl _)).2⟩

theorem Filed.connect (h : s.Idle) : s.connect.Idle := by
  obtain ⟨hlists, -⟩ := h.next_new
  have hmade : (s.make blank).Filed fun x => x = s.next :=
    h.make (by decide) fun hst => absurd hst (by decide)
  have hadd : s.connect.Filed fun x => x = s.next :=
    hmade.add (live_make h ⟨rfl, rfl, by decide, by decide, by decide⟩) (hlists .unknown)
  exact hadd.settle (k := blank) (Function.update_self ..) (fun _ => rfl)
    ⟨fun hst => absurd hst (by decide), fun hst => absurd hst (by decide)⟩
    fun hd => absurd hd (by decide)

theorem Filed.connectServer (h : s.Idle) : s.connectServer.Idle := by
  obtain ⟨hlists, -⟩ := h.next_new
  set k : ClientRecord := { blank with status := .connecting, named := true }
  have hmade : (s.make k).Filed fun x => x = s.next :=
    h.make (by decide) fun hst => absurd hst (by decide)
  have hadd : ((s.make k).add .unknown s.next).Filed fun x => x = s.next :=
    hmade.add (live_make h ⟨rfl, rfl, by decide, by decide, by decide⟩) (hlists .unknown)
  have hadd' : s.connectServer.Filed fun x => x = s.next := by
    refine hadd.add (live_make h trivial) ?_
    rw [lists_add_of_ne (by decide)]
    exact hlists .globalClient
  exact hadd'.settle (k := k) (Function.update_self ..) (fun _ => rfl)
    ⟨fun hst => absurd hst (by decide), fun hst => absurd hst (by decide)⟩
    fun hd => absurd hd (by decide)

theorem Filed.finishAuth (h : s.Idle) (c : ℕ) : (s.finishAuth c).Idle := by
  rw [MainLoop.finishAuth]
  split
  · rename_i hc
    exact h.add ((h.listed _ c hc.1).mono fun _ _ => trivial) hc.2
  · exact h

theorem Filed.join (h : s.Idle) (c channel : ℕ) : (s.join c channel).Idle := by
  rw [MainLoop.join]
  split
  · rename_i hc
    exact {
      h with
      member := fun m hm => by
        rcases List.mem_cons.mp hm with rfl | hm
        · exact (Live.of_is hc).mono fun k hk => of_decide_eq_true hk
        · exact h.member m hm }
  · exact h

theorem Filed.accepts (h : s.Idle) (c d : ℕ) : (s.accept c d).Idle := by
  rw [MainLoop.accept]
  split
  · rename_i hc
    exact {
      h with
      accept := fun a ha => by
        rcases List.mem_cons.mp ha with rfl | ha
        · exact ⟨(Live.of_is hc.1).mono fun k hk => of_decide_eq_true hk,
            (Live.of_is hc.2).mono fun k hk => of_decide_eq_true hk⟩
        · exact h.accept a ha }
  · exact h

theorem Filed.invites (h : s.Idle) (c channel : ℕ) : (s.invite c channel).Idle := by
  rw [MainLoop.invite]
  split
  · rename_i hc
    exact {
      h with
      invite := fun i hi => by
        rcases List.mem_cons.mp hi with rfl | hi
        · refine (Live.of_is hc).mono fun k hk => ?_
          rw [Bool.and_eq_true] at hk
          exact ⟨of_decide_eq_true hk.1, hk.2⟩
        · exact h.invite i hi }
  · exact h

theorem Filed.part (h : s.Idle) (c channel : ℕ) : (s.part c channel).Idle := {
  h with
  member := fun m hm => h.member m (List.mem_of_mem_filter hm) }

theorem Filed.unaccept (h : s.Idle) (c d : ℕ) : (s.unaccept c d).Idle := {
  h with
  accept := fun a ha => h.accept a (List.mem_of_mem_filter ha) }

theorem Filed.uninvite (h : s.Idle) (c channel : ℕ) : (s.uninvite c channel).Idle := {
  h with
  invite := fun i hi => h.invite i (List.mem_of_mem_filter hi) }

/-- An open connection that has not registered. -/
structure Fresh (s : MainLoop) (c : ℕ) (k : ClientRecord) : Prop where
  client : s.client c = some k
  notExited : c ∉ s.exited
  unknown : c ∈ s.lists .unknown
  my : k.myConnect = true
  opened : k.closing = false
  notServer : k.status ≠ .server
  notClient : k.status ≠ .client
  notMe : k.status ≠ .me

theorem Filed.unregistered (h : s.Filed busy) (hunknown : c ∈ s.lists .unknown) :
    ∃ k, s.Fresh c k := by
  obtain ⟨k, hk, ⟨hmy, hcl, hserver, hclient, hme⟩, hexited⟩ := h.listed _ c hunknown
  exact ⟨k, ⟨hk, hexited, hunknown, hmy, hcl, hserver, hclient, hme⟩⟩

theorem Fresh.sent {s' : MainLoop} (h : s.Fresh c k) (hsent : Sent s s') :
    ∃ k', s'.Fresh c k' ∧ SameKind k k' := by
  obtain ⟨k', hk', hsame, hcl, -⟩ := hsent.record c k h.client
  exact ⟨k', ⟨hk', hsent.exited ▸ h.notExited, hsent.lists ▸ h.unknown, hsame.myConnect.trans h.my,
    hcl.trans h.opened, hsame.status ▸ h.notServer, hsame.status ▸ h.notClient,
    hsame.status ▸ h.notMe⟩, hsame⟩

theorem Filed.fresh_lists (h : s.Filed busy) (hf : s.Fresh c k) : c ∉ s.lists .localClient ∧
    c ∉ s.lists .serv ∧ c ∉ s.lists .oper ∧ c ∉ s.lists .globalServ ∧ c ∉ s.lists .idTable := by
  have hfits : ∀ {L : ClientList}, c ∈ s.lists L → L.fits k := fun hc =>
    (h.listed _ c hc).of_client hf.client
  have hstatus : k.status ∉ [ClientStatus.server, .client, .me] := by
    simp [hf.notServer, hf.notClient, hf.notMe]
  exact ⟨fun hc => hf.notClient (hfits hc).2.2, fun hc => hf.notServer (hfits hc).2.2,
    fun hc => hf.notClient (hfits hc).2.2.1, fun hc => (hfits hc).elim hf.notServer hf.notMe,
    fun hc => hstatus (hfits hc).2⟩

theorem Filed.marked_aborted (h : s.Idle) (hf : s.Fresh c k) (hd : k.dead = true) :
    c ∈ s.abortList :=
  (h.marked c k hf.client hd hf.notExited).elim id False.elim

/-- An unregistered connection stays where it is when its name or its id is set. -/
theorem Filed.setFresh {f : ClientRecord → ClientRecord} (h : s.Idle) (hf : s.Fresh c k)
    (hstatus : (f k).status = k.status)
    (hflags : (f k).dead = k.dead ∧ (f k).closing = k.closing ∧ (f k).myConnect = k.myConnect)
    (hnamed : c ∈ s.lists .clientTable → (f k).named = true) :
    (s.modify c f).Filed (fun x => x = c) ∧ (s.modify c f).client c = some (f k) := by
  obtain ⟨hlocal, hserv, hoper, hglobal, hid⟩ := h.fresh_lists hf
  have hunknown : ClientList.unknown.fits k := (h.listed _ c hf.unknown).of_client hf.client
  refine ⟨(h.relax fun x hx => hx.elim).setRecord rfl hf.client hf.notExited hf.notMe
    (hstatus ▸ hf.notMe) hflags (fun L hc => ?_) (fun hclient => absurd hclient hf.notClient)
    (fun hserver => absurd hserver hf.notServer) (fun hboth => ?_), ?_⟩
  · cases L with
    | unknown =>
        obtain ⟨hmy, hcl, hst⟩ := hunknown
        exact ⟨hflags.2.2.trans hmy, hflags.2.1.trans hcl, hstatus ▸ hst⟩
    | localClient => exact absurd hc hlocal
    | serv => exact absurd hc hserv
    | oper => exact absurd hc hoper
    | globalClient => trivial
    | globalServ => exact absurd hc hglobal
    | clientTable => exact hnamed hc
    | idTable => exact absurd hc hid
  · rw [hstatus] at hboth
    exact absurd hboth (not_or.mpr ⟨hf.notClient, hf.notServer⟩)
  · rw [client_modify, hf.client, if_pos rfl]
    rfl

theorem Filed.pass (h : s.Idle) (c : ℕ) : (s.pass c).Idle := by
  rw [MainLoop.pass]
  split
  · rename_i hc
    obtain ⟨k, hf⟩ := h.unregistered hc
    have hnamed : c ∈ s.lists .clientTable → k.named = true := fun hin =>
      (h.listed _ c hin).of_client hf.client
    obtain ⟨hset, hself⟩ := h.setFresh (f := fun k => { k with hasId := true }) hf rfl
      ⟨rfl, rfl, rfl⟩ hnamed
    exact hset.settle hself (fun _ => hf.opened)
      ⟨fun hclient => absurd hclient hf.notClient, fun hserver => absurd hserver hf.notServer⟩
      fun hd => h.marked_aborted hf hd
  · exact h

theorem Filed.nick (h : s.Idle) (c : ℕ) : (s.nick c).Idle := by
  rw [MainLoop.nick]
  split
  · rename_i hc
    obtain ⟨k, hf⟩ := h.unregistered hc.1
    obtain ⟨hset, hself⟩ := h.setFresh (f := fun k => { k with named := true }) hf rfl
      ⟨rfl, rfl, rfl⟩ fun _ => rfl
    have hadd := hset.add (L := .clientTable) ⟨_, hself, rfl, hf.notExited⟩ hc.2
    exact hadd.settle hself (fun _ => hf.opened)
      ⟨fun hclient => absurd hclient hf.notClient, fun hserver => absurd hserver hf.notServer⟩
      fun hd => h.marked_aborted hf hd
  · exact h

theorem Filed.operUp (h : s.Idle) (c : ℕ) : (s.operUp c).Idle := by
  rw [MainLoop.operUp]
  split
  · rename_i hc
    obtain ⟨k, hk, hno, hexited⟩ := Live.of_is hc.2
    have hno : k.oper = false := by simpa using hno
    have hfits : ∀ {L : ClientList}, c ∈ s.lists L → L.fits k := fun hc =>
      (h.listed _ c hc).of_client hk
    obtain ⟨hmy, hcl, hst⟩ := hfits hc.1
    have hnew : c ∉ s.lists .oper := fun hin => by
      have hoper := (hfits hin).2.2.2
      rw [hno] at hoper
      cases hoper
    have hset : (s.modify c fun k => { k with oper := true }).Filed fun x => x = c :=
      (h.relax fun x hx => hx.elim).setRecord rfl hk hexited (by rw [hst]; decide)
        (by rw [hst]; decide) ⟨rfl, rfl, rfl⟩ (fun L hc => by
          have hL : L.fits k := hfits hc
          cases L with
          | oper => exact absurd hc hnew
          | _ => exact hL)
        (fun hclient => ⟨hclient, rfl⟩) (fun hserver => ⟨hserver, rfl⟩) (h.parent c k hk hexited)
    have hself : (s.modify c fun k => { k with oper := true }).client c =
        some { k with oper := true } :=
      (client_modify _ c).trans (by rw [hk, if_pos rfl]; rfl)
    have hadd := hset.add (L := .oper) ⟨_, hself, ⟨hmy, hcl, hst, rfl⟩, hexited⟩ hnew
    exact (hadd.settle hself (fun _ => hcl) ((h.child c k hk hexited).resolve_left id)
      fun hd => (h.marked c k hk hd hexited).elim id False.elim).send.1
  · exact h

theorem Filed.deop (h : s.Idle) (c : ℕ) : (s.deop c).Idle := by
  rw [MainLoop.deop]
  split
  · rename_i hc
    obtain ⟨k, hk, ⟨hmy, hcl, hst, -⟩, hexited⟩ := h.listed _ c hc
    have hme : c ≠ me := fun he => by
      have hst' := h.isMe.of_client (he ▸ hk)
      rw [hst] at hst'
      cases hst'
    have hrelaxed : s.Filed fun x => x = c := h.relax fun x hx => hx.elim
    obtain ⟨hremoved, hlose, hnotOper⟩ := hrelaxed.remove rfl hme .oper
    have hset := hremoved.setRecord (f := fun k => { k with oper := false }) rfl hk hexited
      (by rw [hst]; decide) (by rw [hst]; decide) ⟨rfl, rfl, rfl⟩ (fun L hin => by
        have hL : L.fits k := (h.listed _ c (hlose.lists L hin)).of_client hk
        cases L with
        | oper => exact absurd hin hnotOper
        | _ => exact hL)
      (fun hclient => ⟨hclient, rfl⟩) (fun hserver => ⟨hserver, rfl⟩)
      (hremoved.parent c k hk hexited)
    have hself : ((s.remove .oper c).modify c fun k => { k with oper := false }).client c =
        some { k with oper := false } := by
      rw [client_modify, if_pos rfl]
      change (s.client c).map _ = _
      rw [hk]
      rfl
    exact (hset.settle hself (fun _ => hcl) ((h.child c k hk hexited).resolve_left id)
      fun hd => (h.marked c k hk hd hexited).elim id False.elim).send.1
  · exact h

/-- A connection that has got the record of a user or of a server, and is off `unknown_list`. -/
structure Promoted (s t : MainLoop) (c : ℕ) (k : ClientRecord) : Prop where
  filed : t.Filed fun x => x = c
  client : t.client c = some k
  notExited : c ∉ t.exited
  lists : ∀ L, L ≠ .unknown → t.lists L = s.lists L
  users : ∀ p, c ∉ t.users p
  servers : ∀ p, c ∉ t.servers p
  abortList : t.abortList = s.abortList

theorem Filed.promote {f : ClientRecord → ClientRecord} (h : s.Idle) (hf : s.Fresh c k)
    (hst : (f k).status = .client ∨ (f k).status = .server) (hptr : (f k).servptr = me)
    (hflags : (f k).dead = k.dead ∧ (f k).closing = k.closing ∧ (f k).myConnect = k.myConnect)
    (hnamed : c ∈ s.lists .clientTable → (f k).named = true) :
    Promoted s ((s.remove .unknown c).modify c f) c (f k) := by
  have hme : c ≠ me := fun he => hf.notMe (h.isMe.of_client (he ▸ hf.client))
  have hrelaxed : s.Filed fun x => x = c := h.relax fun x hx => hx.elim
  obtain ⟨hremoved, -, hnotUnknown⟩ := hrelaxed.remove rfl hme .unknown
  obtain ⟨hlocal, hserv, hoper, hglobal, hid⟩ := h.fresh_lists hf
  have hlists : ∀ L, L ≠ .unknown → (s.remove .unknown c).lists L = s.lists L := fun L hL =>
    Function.update_of_ne hL ..
  have hset : ((s.remove .unknown c).modify c f).Filed fun x => x = c := by
    refine hremoved.setRecord rfl hf.client hf.notExited hf.notMe ?_ hflags (fun L hc => ?_)
      (fun hclient => absurd hclient hf.notClient) (fun hserver => absurd hserver hf.notServer)
      (fun _ => ?_)
    · rintro hisMe
      rw [hisMe] at hst
      exact absurd hst (by decide)
    · cases L with
      | unknown => exact absurd hc hnotUnknown
      | localClient => exact absurd (hlists .localClient (by decide) ▸ hc) hlocal
      | serv => exact absurd (hlists .serv (by decide) ▸ hc) hserv
      | oper => exact absurd (hlists .oper (by decide) ▸ hc) hoper
      | globalClient => trivial
      | globalServ => exact absurd (hlists .globalServ (by decide) ▸ hc) hglobal
      | clientTable => exact hnamed (hlists .clientTable (by decide) ▸ hc)
      | idTable => exact absurd (hlists .idTable (by decide) ▸ hc) hid
    · rw [hptr]
      exact ⟨Nat.pos_of_ne_zero hme, hremoved.isMe.mono fun _ hk => .inr hk, fun _ => rfl⟩
  exact {
    filed := hset
    client := (client_modify f c).trans (by
      change (s.client c).map _ = _
      rw [hf.client, if_pos rfl]
      rfl)
    notExited := hf.notExited
    lists := hlists
    users := fun p hc => hf.notClient ((h.user p c hc).of_client hf.client).1
    servers := fun p hc => hf.notServer ((h.server p c hc).of_client hf.client).1
    abortList := rfl }

theorem Filed.registerUser (h : s.Idle) (c : ℕ) (id : Bool) : (s.registerUser c id).Idle := by
  rw [MainLoop.registerUser]
  split
  · rename_i hc
    obtain ⟨hsend, hsent⟩ := h.send
    obtain ⟨k0, hf0⟩ := h.unregistered hc.1
    obtain ⟨k, hf, hsame⟩ := hf0.sent hsent
    dsimp only
    set f : ClientRecord → ClientRecord :=
      fun k => { k with status := .client, servptr := me, hasId := k.hasId || id }
    have hnamed : c ∈ s.send.lists .clientTable → k.named = true := fun hin =>
      (hsend.listed _ c hin).of_client hf.client
    have hp := hsend.promote (f := f) hf (.inl rfl) rfl ⟨rfl, rfl, rfl⟩ hnamed
    obtain ⟨hlocal, -, -, -, hnotId⟩ := hsend.fresh_lists hf
    have huser := hp.filed.addUser (p := me) ⟨_, hp.client, ⟨rfl, rfl⟩, hp.notExited⟩ (hp.users me)
    have hadd := huser.add (L := .localClient)
      ⟨_, hp.client, ⟨hf.my, hf.opened, rfl⟩, hp.notExited⟩
      (fun hin => hlocal (hp.lists .localClient (by decide) ▸ hin))
    have hnotId' : c ∉ ((((s.send.remove .unknown c).modify c f).addUser me c).add .localClient
        c).lists .idTable := by
      rw [lists_add_of_ne (by decide)]
      exact fun hin => hnotId (hp.lists .idTable (by decide) ▸ hin)
    have haddId := hadd.addIf (b := id) (L := .idTable)
      (fun hid => ⟨_, hp.client,
        ⟨by simp [f, hid], List.mem_cons_of_mem _ List.mem_cons_self⟩, hp.notExited⟩) hnotId'
    refine Filed.send (?_ : Idle _) |>.1
    obtain ⟨l, hl⟩ := addIf_cases ((((s.send.remove .unknown c).modify c f).addUser me c).add
      .localClient c) id .idTable c
    rw [hl] at haddId ⊢
    refine haddId.settle hp.client (fun _ => hf.opened) ⟨fun _ => ?_, fun hst => ?_⟩ fun hd => ?_
    · exact mem_addUser _ me c
    · cases hst
    · change c ∈ ((s.send.remove .unknown c).modify c f).abortList
      rw [hp.abortList]
      exact hsend.marked_aborted hf hd
  · exact h

/-- What `server_estab` relies on: the connection has given no nick, and an id when it is capable of
one. -/
def CleanEstab (s : MainLoop) (c : ℕ) (ts6 : Bool) : Prop :=
  c ∉ s.lists .clientTable ∧ (ts6 = true → ∃ k, s.client c = some k ∧ k.hasId = true)

theorem Filed.serverEstab {ts6 : Bool} (h : s.Idle)
    (hclean : c ∈ s.lists .unknown → s.CleanEstab c ts6) : (s.serverEstab c ts6).Idle := by
  rw [MainLoop.serverEstab]
  split
  · rename_i hunknown
    obtain ⟨hnotNamed, hts6⟩ := hclean hunknown
    obtain ⟨hsend, hsent⟩ := h.send
    obtain ⟨k0, hf0⟩ := h.unregistered hunknown
    obtain ⟨k, hf, hsame⟩ := hf0.sent hsent
    have hhasId : ts6 = true → k.hasId = true := fun ht => by
      obtain ⟨k', hk', hid⟩ := hts6 ht
      cases hk'.symm.trans hf0.client
      exact hsame.hasId.trans hid
    dsimp only
    set f : ClientRecord → ClientRecord :=
      fun k => { k with status := .server, servptr := me, named := true }
    have hp := hsend.promote (f := f) hf (.inr rfl) rfl ⟨rfl, rfl, rfl⟩ (fun _ => rfl)
    obtain ⟨-, hserv, -, hglobal, hnotId⟩ := hsend.fresh_lists hf
    set t := (s.send.remove .unknown c).modify c f
    have hserver := hp.filed.addServer (p := me) ⟨_, hp.client, ⟨rfl, rfl⟩, hp.notExited⟩
      (hp.servers me)
    have haddId := hserver.addIf (b := ts6) (L := .idTable)
      (fun ht => ⟨_, hp.client, ⟨hhasId ht, List.mem_cons_self⟩, hp.notExited⟩)
      (fun hin => hnotId (hp.lists .idTable (by decide) ▸ hin))
    have hlists : ∀ L, L ≠ .unknown → L ≠ .idTable →
        ((t.addServer me c).addIf ts6 .idTable c).lists L = s.send.lists L := by
      intro L hL hL'
      rw [lists_addIf_of_ne hL']
      exact hp.lists L hL
    obtain ⟨l, hl⟩ := addIf_cases (t.addServer me c) ts6 .idTable c
    rw [hl] at haddId hlists ⊢
    have haddServ := haddId.add (L := .serv) ⟨_, hp.client, ⟨hf.my, hf.opened, rfl⟩, hp.notExited⟩
      (hlists .serv (by decide) (by decide) ▸ hserv)
    have haddGlobal := haddServ.add (L := .globalServ) ⟨_, hp.client, .inl rfl, hp.notExited⟩ (by
      rw [lists_add_of_ne (by decide)]
      exact hlists .globalServ (by decide) (by decide) ▸ hglobal)
    have haddTable := haddGlobal.add (L := .clientTable) ⟨_, hp.client, rfl, hp.notExited⟩ (by
      rw [lists_add_of_ne (by decide), lists_add_of_ne (by decide)]
      rw [hlists .clientTable (by decide) (by decide), hsent.lists]
      exact hnotNamed)
    refine Filed.send (?_ : Idle _) |>.1
    refine haddTable.settle hp.client (fun _ => hf.opened) ⟨fun hst => ?_, fun _ => ?_⟩ fun hd => ?_
    · cases hst
    · exact mem_addServer t me c
    · change c ∈ t.abortList
      rw [hp.abortList]
      exact hsend.marked_aborted hf hd
  · exact h

/-- Where a server is that introduces another client. -/
theorem Filed.introducer {p : ℕ} (h : s.Idle) (hp : p ∈ s.lists .globalServ) :
    p < s.next ∧ s.Live (fun k => k.status = .server ∨ k.status = .me) p := by
  have hlive := h.listed _ p hp
  exact ⟨hlive.elim fun k hk => h.lt_next hk.1, hlive⟩

theorem Filed.introduceServer (h : s.Idle) (p : ℕ) (id : Bool) : (s.introduceServer p id).Idle := by
  rw [MainLoop.introduceServer]
  split
  · rename_i hp
    obtain ⟨hlists, -, hservers⟩ := h.next_new
    obtain ⟨hlt, hlive⟩ := h.introducer hp.1
    dsimp only
    set k : ClientRecord := ⟨.server, false, p, true, id, false, false, false, false⟩
    have hmade : (s.make k).Filed fun x => x = s.next :=
      h.make (by simp [k]) fun _ => ⟨hlt, hlive, fun hmy => absurd hmy (by simp [k])⟩
    have hserver := hmade.addServer (p := p) (live_make h ⟨rfl, rfl⟩) (hservers p)
    have hglobal := hserver.add (L := .globalClient) (live_make h trivial) (hlists _)
    have hserv := hglobal.add (L := .globalServ) (live_make h (.inl rfl)) (by
      rw [lists_add_of_ne (by decide)]
      exact hlists .globalServ)
    have htable := hserv.add (L := .clientTable) (live_make h rfl) (by
      rw [lists_add_of_ne (by decide), lists_add_of_ne (by decide)]
      exact hlists .clientTable)
    have hid := htable.addIf (b := id) (L := .idTable)
      (fun hid => live_make h ⟨hid, List.mem_cons_self⟩) (by
      rw [lists_add_of_ne (by decide), lists_add_of_ne (by decide), lists_add_of_ne (by decide)]
      exact hlists .idTable)
    refine Filed.send (?_ : Idle _) |>.1
    obtain ⟨l, hl⟩ := addIf_cases (((((s.make k).addServer p s.next).add .globalClient s.next).add
      .globalServ s.next).add .clientTable s.next) id .idTable s.next
    rw [hl] at hid ⊢
    refine hid.settle (k := k) (Function.update_self ..) (fun _ => rfl)
      ⟨fun hst => ?_, fun _ => ?_⟩ fun hd => ?_
    · cases hst
    · exact mem_addServer (s.make k) p s.next
    · cases hd
  · exact h

theorem Filed.introduceNick (h : s.Idle) (p : ℕ) : (s.introduceNick p).Idle := by
  rw [MainLoop.introduceNick]
  split
  · obtain ⟨hlists, -⟩ := h.next_new
    dsimp only
    set k : ClientRecord := ⟨.unknown, false, p, true, false, false, false, false, false⟩
    have hmade : (s.make k).Filed fun x => x = s.next :=
      h.make (by simp [k]) fun hst => absurd hst (by simp [k])
    have hglobal := hmade.add (L := .globalClient) (live_make h trivial) (hlists _)
    have htable := hglobal.add (L := .clientTable) (live_make h rfl) (by
      rw [lists_add_of_ne (by decide)]
      exact hlists .clientTable)
    exact htable.settle (k := k) (Function.update_self ..) (fun _ => rfl)
      ⟨fun hst => absurd hst (by simp [k]), fun hst => absurd hst (by simp [k])⟩
      fun hd => absurd hd (by simp [k])
  · exact h

theorem Filed.introduceUser (h : s.Idle) (p : ℕ) (id : Bool) : (s.introduceUser p id).Idle := by
  rw [MainLoop.introduceUser]
  split
  · rename_i hp
    obtain ⟨hlists, husers, -⟩ := h.next_new
    obtain ⟨hlt, hlive⟩ := h.introducer hp.1
    dsimp only
    set k : ClientRecord := ⟨.client, false, p, true, id, false, false, false, false⟩
    have hmade : (s.make k).Filed fun x => x = s.next :=
      h.make (by simp [k]) fun _ => ⟨hlt, hlive, fun hmy => absurd hmy (by simp [k])⟩
    have huser := hmade.addUser (p := p) (live_make h ⟨rfl, rfl⟩) (husers p)
    have hglobal := huser.add (L := .globalClient) (live_make h trivial) (hlists _)
    have htable := hglobal.add (L := .clientTable) (live_make h rfl) (by
      rw [lists_add_of_ne (by decide)]
      exact hlists .clientTable)
    have hid := htable.addIf (b := id) (L := .idTable)
      (fun hid => live_make h ⟨hid, List.mem_cons_of_mem _ List.mem_cons_self⟩) (by
      rw [lists_add_of_ne (by decide), lists_add_of_ne (by decide)]
      exact hlists .idTable)
    refine Filed.send (?_ : Idle _) |>.1
    obtain ⟨l, hl⟩ := addIf_cases ((((s.make k).addUser p s.next).add .globalClient s.next).add
      .clientTable s.next) id .idTable s.next
    rw [hl] at hid ⊢
    refine hid.settle (k := k) (Function.update_self ..) (fun _ => rfl)
      ⟨fun _ => ?_, fun hst => ?_⟩ fun hd => ?_
    · exact mem_addUser (s.make k) p s.next
    · cases hst
    · cases hd
  · exact h

end Arrivals

end MainLoop

end Unirc
