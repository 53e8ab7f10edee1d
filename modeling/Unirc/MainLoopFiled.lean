import Mathlib.Order.Nat
import Mathlib.Tactic.Common
import Unirc.MainLoop

/-!
# Where clients are filed

Every list has clients only that have not exited, of the kind that the list is for. A client that is
in the middle of an exit (`busy`) may be closing already and off its lists, and it may have left the
list of aborted clients.
-/

namespace Unirc

/-- The clients that a list is for. -/
def ClientList.fits : ClientList → ClientRecord → Prop
  | .unknown, k => k.myConnect = true ∧ k.closing = false ∧ k.status ≠ .server ∧
      k.status ≠ .client ∧ k.status ≠ .me
  | .localClient, k => k.myConnect = true ∧ k.closing = false ∧ k.status = .client
  | .serv, k => k.myConnect = true ∧ k.closing = false ∧ k.status = .server
  | .oper, k => k.myConnect = true ∧ k.closing = false ∧ k.status = .client ∧ k.oper = true
  | .globalClient, _ => True
  | .globalServ, k => k.status = .server ∨ k.status = .me
  | .clientTable, k => k.named = true
  | .idTable, k => k.hasId = true ∧ k.status ∈ [ClientStatus.server, .client, .me]

namespace MainLoop

/-- A client of this kind that has not exited. -/
def Live (s : MainLoop) (p : ClientRecord → Prop) (c : ℕ) : Prop :=
  ∃ k, s.client c = some k ∧ p k ∧ c ∉ s.exited

/-- The clients are where they belong. -/
structure Filed (s : MainLoop) (busy : ℕ → Prop) : Prop where
  isMe : s.Live (fun k => k.status = .me) me
  onlyMe : ∀ c k, s.client c = some k → k.status = .me → c = me
  fresh : ∀ c, s.next ≤ c → s.client c = none ∧ c ∉ s.exited
  once : s.exited.Nodup
  dead : s.deadList.Nodup
  freedOnce : s.freed.Nodup
  left : ∀ c, c ∈ s.exited ↔ c ∈ s.deadList ∨ c ∈ s.freed
  gone : ∀ c ∈ s.freed, s.client c = none
  waiting : ∀ c ∈ s.deadList, ∃ k, s.client c = some k ∧ k.dead = true ∧
    (k.myConnect = true → k.closing = true)
  listed : ∀ L, ∀ c ∈ s.lists L, s.Live L.fits c
  nodup : ∀ L, (s.lists L).Nodup
  last : (s.lists .globalClient).getLast? = some me
  closing : ∀ c k, s.client c = some k → k.myConnect = true → k.closing = true →
    c ∈ s.exited ∨ busy c
  user : ∀ p, ∀ c ∈ s.users p, s.Live (fun k => k.status = .client ∧ k.servptr = p) c
  server : ∀ p, ∀ c ∈ s.servers p, s.Live (fun k => k.status = .server ∧ k.servptr = p) c
  usersNodup : ∀ p, (s.users p).Nodup
  serversNodup : ∀ p, (s.servers p).Nodup
  child : ∀ c k, s.client c = some k → c ∉ s.exited → busy c ∨
    (k.status = .client → c ∈ s.users k.servptr) ∧ (k.status = .server → c ∈ s.servers k.servptr)
  parent : ∀ c k, s.client c = some k → c ∉ s.exited → k.status = .client ∨ k.status = .server →
    k.servptr < c ∧ s.Live (fun k => k.status = .server ∨ k.status = .me) k.servptr ∧
      (k.myConnect = true → k.servptr = me)
  member : ∀ m ∈ s.members, s.Live (fun k => k.status = .client) m.2
  accept : ∀ a ∈ s.accepts, s.Live (fun k => k.status = .client) a.1 ∧
    s.Live (fun k => k.status = .client) a.2
  invite : ∀ i ∈ s.invites, s.Live (fun k => k.status = .client ∧ k.myConnect = true) i.2
  aborted : ∀ c ∈ s.abortList, ∃ k, s.client c = some k ∧ k.dead = true ∧ k.myConnect = true ∧
    k.status ≠ .me
  abortedNodup : s.abortList.Nodup
  marked : ∀ c k, s.client c = some k → k.dead = true → c ∉ s.exited → c ∈ s.abortList ∨ busy c
  faults : s.faults = []

variable {s : MainLoop} {busy busy' : ℕ → Prop} {c : ℕ}

theorem check_of {ok : Bool} (hok : ok = true) (f : ExitFault) : s.check ok f = s := by
  rw [MainLoop.check, if_pos hok]

theorem Live.mono {p q : ClientRecord → Prop} (h : s.Live p c) (hpq : ∀ k, p k → q k) :
    s.Live q c := by
  obtain ⟨k, hk, hp, hexited⟩ := h
  exact ⟨k, hk, hpq k hp, hexited⟩

theorem Live.of_client {p : ClientRecord → Prop} (h : s.Live p c) {k : ClientRecord}
    (hk : s.client c = some k) : p k := by
  obtain ⟨k', hk', hp, -⟩ := h
  cases hk'.symm.trans hk
  exact hp

theorem Live.not_exited {p : ClientRecord → Prop} (h : s.Live p c) : c ∉ s.exited :=
  h.elim fun _ hk => hk.2.2

namespace Filed

/-- A client that has exited is not busy any more. -/
theorem relax (h : s.Filed busy) (hbusy : ∀ c, busy c → busy' c ∨ c ∈ s.exited) :
    s.Filed busy' := {
  h with
  closing := fun c k hk hmy hclosing => by
    rcases h.closing c k hk hmy hclosing with hexited | hb
    · exact .inl hexited
    · exact (hbusy c hb).symm
  child := fun c k hk hexited => by
    rcases h.child c k hk hexited with hb | hchild
    · exact .inl ((hbusy c hb).resolve_right hexited)
    · exact .inr hchild
  marked := fun c k hk hdead hexited => by
    rcases h.marked c k hk hdead hexited with hab | hb
    · exact .inl hab
    · exact .inr ((hbusy c hb).resolve_right hexited) }

theorem lt_next (h : s.Filed busy) {k : ClientRecord} (hk : s.client c = some k) : c < s.next := by
  by_contra hge
  rw [(h.fresh c (Nat.le_of_not_lt hge)).1] at hk
  cases hk

end Filed

/-- The records differ in the flags of an exit at most. -/
structure SameKind (k k' : ClientRecord) : Prop where
  status : k'.status = k.status
  myConnect : k'.myConnect = k.myConnect
  servptr : k'.servptr = k.servptr
  named : k'.named = k.named
  hasId : k'.hasId = k.hasId
  oper : k'.oper = k.oper

theorem SameKind.refl (k : ClientRecord) : SameKind k k := ⟨rfl, rfl, rfl, rfl, rfl, rfl⟩

theorem SameKind.trans {k k' k'' : ClientRecord} (h : SameKind k k') (h' : SameKind k' k'') :
    SameKind k k'' :=
  ⟨h'.status.trans h.status, h'.myConnect.trans h.myConnect, h'.servptr.trans h.servptr,
    h'.named.trans h.named, h'.hasId.trans h.hasId, h'.oper.trans h.oper⟩

theorem SameKind.fits {k k' : ClientRecord} (h : SameKind k k') (hclosing : k'.closing = k.closing)
    {L : ClientList} (hfits : L.fits k) : L.fits k' := by
  obtain ⟨h1, h2, -, h4, h5, h6⟩ := h
  cases L <;> simp_all only [ClientList.fits, ne_eq, not_false_eq_true, and_self]

theorem client_modify (f : ClientRecord → ClientRecord) (x : ℕ) :
    (s.modify c f).client x = (s.client x).map (if x = c then f else id) := by
  by_cases hx : x = c
  · rw [hx, if_pos rfl]
    exact Function.update_self ..
  · rw [if_neg hx, Option.map_id]
    exact Function.update_of_ne hx ..

theorem exists_of_modify {f : ClientRecord → ClientRecord} {x : ℕ} {k' : ClientRecord}
    (h : (s.modify c f).client x = some k') :
    ∃ k, s.client x = some k ∧ k' = (if x = c then f else id) k := by
  rw [client_modify, Option.map_eq_some_iff] at h
  obtain ⟨k, hk, rfl⟩ := h
  exact ⟨k, hk, rfl⟩

namespace Filed

section Modify

variable {f : ClientRecord → ClientRecord} {l : List ℕ} {e : Option ℕ}

/-- Flags of `c` change, and `c` may go to the list of aborted clients. -/
theorem modify (h : s.Filed busy) (hkind : ∀ k, SameKind k (f k))
    (hdead : ∀ k, k.dead = true → (f k).dead = true)
    (hstays : ∀ k, k.closing = true → (f k).closing = true)
    (hclosing : ∀ k, s.client c = some k → (f k).closing = true → k.closing = true ∨ busy c)
    (hlisted : ∀ k, s.client c = some k → ∀ L, c ∈ s.lists L → L.fits k → L.fits (f k))
    (hnodup : l.Nodup) (hsub : ∀ x ∈ s.abortList, x ∈ l)
    (hnew : ∀ x ∈ l, x ∈ s.abortList ∨
      x = c ∧ ∃ k, s.client c = some k ∧ (f k).dead = true ∧ k.myConnect = true ∧ k.status ≠ .me)
    (hmarked : ∀ k, s.client c = some k → (f k).dead = true → k.dead = true ∨ c ∈ l ∨ busy c) :
    ({ s.modify c f with abortList := l, eacNext := e } : MainLoop).Filed busy := by
  set s' : MainLoop := { s.modify c f with abortList := l, eacNext := e }
  have hf : ∀ x k, SameKind k ((if x = c then f else id) k) := by
    intro x k
    split
    · exact hkind k
    · exact .refl k
  have hclient : ∀ x k, s.client x = some k →
      s'.client x = some ((if x = c then f else id) k) := by
    intro x k hk
    change (s.modify c f).client x = _
    rw [client_modify, hk]
    rfl
  have hlive : ∀ {p : ClientRecord → Prop} {x : ℕ},
      (∀ k k', SameKind k k' → p k → p k') → s.Live p x → s'.Live p x := by
    intro p x hp hx
    obtain ⟨k, hk, hpk, hexited⟩ := hx
    exact ⟨_, hclient x k hk, hp k _ (hf x k) hpk, hexited⟩
  have hstatus : ∀ st, ∀ k k', SameKind k k' → k.status = st → k'.status = st :=
    fun st k k' hsame hst => hsame.status.trans hst
  have hchild : ∀ st p k k', SameKind k k' → k.status = st ∧ k.servptr = p →
      k'.status = st ∧ k'.servptr = p := fun st p k k' hsame hst =>
    ⟨hsame.status.trans hst.1, hsame.servptr.trans hst.2⟩
  exact {
    isMe := hlive (hstatus _) h.isMe
    onlyMe := fun x k' hk' hst => by
      obtain ⟨k, hk, rfl⟩ := exists_of_modify hk'
      exact h.onlyMe x k hk ((hf x k).status ▸ hst)
    fresh := fun x hx => by
      refine ⟨?_, (h.fresh x hx).2⟩
      change (s.modify c f).client x = none
      rw [client_modify, (h.fresh x hx).1]
      rfl
    once := h.once
    dead := h.dead
    freedOnce := h.freedOnce
    left := h.left
    gone := fun x hx => by
      change (s.modify c f).client x = none
      rw [client_modify, h.gone x hx]
      rfl
    waiting := fun x hx => by
      obtain ⟨k, hk, hd, hcl⟩ := h.waiting x hx
      refine ⟨_, hclient x k hk, ?_, fun hmy => ?_⟩
      · split
        · exact hdead k hd
        · exact hd
      · have hclosed := hcl ((hf x k).myConnect ▸ hmy)
        split
        · exact hstays k hclosed
        · exact hclosed
    listed := fun L x hx => by
      obtain ⟨k, hk, hfits, hexited⟩ := h.listed L x hx
      refine ⟨_, hclient x k hk, ?_, hexited⟩
      split
      · rename_i hxc
        subst hxc
        exact hlisted k hk L hx hfits
      · exact hfits
    nodup := h.nodup
    last := h.last
    closing := fun x k' hk' hmy hcl => by
      obtain ⟨k, hk, rfl⟩ := exists_of_modify hk'
      rw [(hf x k).myConnect] at hmy
      split at hcl
      · rename_i hxc
        subst hxc
        rcases hclosing k hk hcl with hcl | hb
        · exact h.closing x k hk hmy hcl
        · exact .inr hb
      · exact h.closing x k hk hmy hcl
    user := fun p x hx => hlive (hchild _ _) (h.user p x hx)
    server := fun p x hx => hlive (hchild _ _) (h.server p x hx)
    usersNodup := h.usersNodup
    serversNodup := h.serversNodup
    child := fun x k' hk' hexited => by
      obtain ⟨k, hk, rfl⟩ := exists_of_modify hk'
      rw [(hf x k).status, (hf x k).servptr]
      exact h.child x k hk hexited
    parent := fun x k' hk' hexited hst => by
      obtain ⟨k, hk, rfl⟩ := exists_of_modify hk'
      rw [(hf x k).status] at hst
      rw [(hf x k).servptr, (hf x k).myConnect]
      obtain ⟨hlt, hp, hmy⟩ := h.parent x k hk hexited hst
      exact ⟨hlt, hlive (fun k k' hsame hp => by rwa [hsame.status]) hp, hmy⟩
    member := fun m hm => hlive (hstatus _) (h.member m hm)
    accept := fun a ha => ⟨hlive (hstatus _) (h.accept a ha).1, hlive (hstatus _) (h.accept a ha).2⟩
    invite := fun i hi => hlive (fun k k' hsame hp =>
      ⟨hsame.status.trans hp.1, hsame.myConnect.trans hp.2⟩) (h.invite i hi)
    aborted := fun x hx => by
      rcases hnew x hx with hold | ⟨rfl, k, hk, hd, hmy, hst⟩
      · obtain ⟨k, hk, hd, hmy, hst⟩ := h.aborted x hold
        refine ⟨_, hclient x k hk, ?_, (hf x k).myConnect.trans hmy, (hf x k).status ▸ hst⟩
        split
        · exact hdead k hd
        · exact hd
      · refine ⟨_, hclient x k hk, ?_, (hf x k).myConnect.trans hmy, (hf x k).status ▸ hst⟩
        rw [if_pos rfl]
        exact hd
    abortedNodup := hnodup
    marked := fun x k' hk' hd hexited => by
      obtain ⟨k, hk, rfl⟩ := exists_of_modify hk'
      have hold : k.dead = true → x ∈ l ∨ busy x := fun hd =>
        (h.marked x k hk hd hexited).imp_left (hsub x)
      split at hd
      · rename_i hxc
        subst hxc
        exact (hmarked k hk hd).elim hold id
      · exact hold hd
    faults := h.faults }

end Modify

theorem mem_connections (h : s.Filed busy) (hc : c ∈ s.connections) :
    s.Live (fun k => k.myConnect = true ∧ k.closing = false ∧ k.status ≠ .me) c := by
  rw [connections, List.mem_append, List.mem_append] at hc
  rcases hc with (hc | hc) | hc
  · exact (h.listed _ c hc).mono fun k hk => ⟨hk.1, hk.2.1, hk.2.2.2.2⟩
  · exact (h.listed _ c hc).mono fun k hk => ⟨hk.1, hk.2.1, by rw [hk.2.2]; decide⟩
  · exact (h.listed _ c hc).mono fun k hk => ⟨hk.1, hk.2.1, by rw [hk.2.2]; decide⟩

end Filed

/-- The link of `x` is marked as dead. -/
def DeadAt (s : MainLoop) (x : ℕ) : Prop := ∃ k, s.client x = some k ∧ k.dead = true

/-- Dead links do not come to the list of aborted clients again, and `eac_next` stays at the first
of it. -/
structure Aborts (s s' : MainLoop) : Prop where
  stays : ∀ x, s.DeadAt x → s'.DeadAt x
  fresh : ∀ x ∈ s'.abortList, x ∈ s.abortList ∨ ¬ s.DeadAt x
  head : s.eacNext = s.abortList.head? → s'.eacNext = s'.abortList.head?

theorem Aborts.of_eq {s s' : MainLoop} (habort : s'.abortList = s.abortList)
    (hnext : s'.eacNext = s.eacNext) (hdead : ∀ x, s.DeadAt x → s'.DeadAt x) : Aborts s s' :=
  ⟨hdead, fun x hx => .inl (habort ▸ hx), fun h => by rw [habort, hnext, h]⟩

theorem Aborts.trans {s s' s'' : MainLoop} (h : Aborts s s') (h' : Aborts s' s'') :
    Aborts s s'' where
  stays := fun x hx => h'.stays x (h.stays x hx)
  fresh := fun x hx => by
    rcases h'.fresh x hx with hx | hx
    · exact h.fresh x hx
    · exact .inr fun hd => hx (h.stays x hd)
  head := fun heq => h'.head (h.head heq)

theorem deadAt_modify {f : ClientRecord → ClientRecord}
    (hf : ∀ k, k.dead = true → (f k).dead = true) {x : ℕ} (h : s.DeadAt x) : (s.modify c f).DeadAt x := by
  obtain ⟨k, hk, hd⟩ := h
  refine ⟨_, (client_modify f x).trans (by rw [hk]; rfl), ?_⟩
  split
  · exact hf k hd
  · exact hd

/-- What messages leave as it is. -/
structure Sent (s s' : MainLoop) : Prop where
  next : s'.next = s.next
  lists : s'.lists = s.lists
  users : s'.users = s.users
  servers : s'.servers = s.servers
  members : s'.members = s.members
  accepts : s'.accepts = s.accepts
  invites : s'.invites = s.invites
  deadList : s'.deadList = s.deadList
  exited : s'.exited = s.exited
  freed : s'.freed = s.freed
  aborts : Aborts s s'
  record : ∀ x k, s.client x = some k →
    ∃ k', s'.client x = some k' ∧ SameKind k k' ∧ k'.closing = k.closing ∧ k'.killed = k.killed

namespace Sent

theorem refl (s : MainLoop) : Sent s s :=
  ⟨rfl, rfl, rfl, rfl, rfl, rfl, rfl, rfl, rfl, rfl, .of_eq rfl rfl fun _ => id,
    fun _ k hk => ⟨k, hk, .refl k, rfl, rfl⟩⟩

theorem trans {s' s'' : MainLoop} (h : Sent s s') (h' : Sent s' s'') : Sent s s'' where
  next := h'.next.trans h.next
  lists := h'.lists.trans h.lists
  users := h'.users.trans h.users
  servers := h'.servers.trans h.servers
  members := h'.members.trans h.members
  accepts := h'.accepts.trans h.accepts
  invites := h'.invites.trans h.invites
  deadList := h'.deadList.trans h.deadList
  exited := h'.exited.trans h.exited
  freed := h'.freed.trans h.freed
  aborts := h.aborts.trans h'.aborts
  record := fun x k hk => by
    obtain ⟨k', hk', hsame, hcl, hkilled⟩ := h.record x k hk
    obtain ⟨k'', hk'', hsame', hcl', hkilled'⟩ := h'.record x k' hk'
    exact ⟨k'', hk'', hsame.trans hsame', hcl'.trans hcl, hkilled'.trans hkilled⟩

end Sent

theorem Filed.deadLinkOnWrite (h : s.Filed busy) (hc : c ∈ s.connections) :
    (s.deadLinkOnWrite c).Filed busy ∧ Sent s (s.deadLinkOnWrite c) := by
  obtain ⟨k, hk, ⟨hmy, hcl, hst⟩, hexited⟩ := h.mem_connections hc
  rw [MainLoop.deadLinkOnWrite, hk]
  by_cases hdefunct : (k.dead || k.closing || k.killed) = true
  · simp only [hdefunct, if_true]
    exact ⟨h, .refl s⟩
  simp only [hdefunct]
  have hnew : c ∉ s.abortList := by
    intro hc
    obtain ⟨k', hk', hdead, -⟩ := h.aborted c hc
    cases hk'.symm.trans hk
    simp [hdead] at hdefunct
  rw [check_of (decide_eq_true hnew)]
  refine ⟨h.modify (fun k => ⟨rfl, rfl, rfl, rfl, rfl, rfl⟩) (fun _ _ => rfl) (fun _ hcl => hcl)
    (fun _ _ hcl => .inl hcl) (fun k _ L _ hfits => ?_) ?_ ?_ ?_ ?_, ?_⟩
  · have hsame : SameKind k { k with dead := true } := ⟨rfl, rfl, rfl, rfl, rfl, rfl⟩
    exact hsame.fits rfl hfits
  · exact h.abortedNodup.append (List.nodup_singleton c) (by simpa using hnew)
  · exact fun x hx => List.mem_append_left _ hx
  · intro x hx
    rcases List.mem_append.mp hx with hx | hx
    · exact .inl hx
    · exact .inr ⟨List.mem_singleton.mp hx, k, hk, rfl, hmy, hst⟩
  · exact fun _ _ _ => .inr (.inl (List.mem_append_right _ (List.mem_singleton_self c)))
  · refine ⟨rfl, rfl, rfl, rfl, rfl, rfl, rfl, rfl, rfl, rfl, 
      ⟨fun x hx => deadAt_modify (fun _ _ => rfl) hx, fun x hx => ?_, fun hhead => ?_⟩, ?_⟩
    · rcases List.mem_append.mp hx with hx | hx
      · exact .inl hx
      · rw [List.mem_singleton.mp hx]
        refine .inr fun hd => hdefunct ?_
        obtain ⟨k', hk', hd⟩ := hd
        cases hk'.symm.trans hk
        rw [hd]
        rfl
    · change (if s.eacNext.isNone then some c else s.eacNext) = (s.abortList ++ [c]).head?
      rw [hhead]
      cases s.abortList <;> rfl
    intro x k hk
    refine ⟨_, (client_modify _ x).trans (by rw [hk]; rfl), ?_⟩
    split
    · exact ⟨⟨rfl, rfl, rfl, rfl, rfl, rfl⟩, rfl, rfl⟩
    · exact ⟨.refl _, rfl, rfl⟩

/-- Messages keep the clients filed, whatever they overflow. -/
theorem Filed.send (h : s.Filed busy) : s.send.Filed busy ∧ Sent s s.send := by
  have hfold : ∀ (lost : List ℕ) (t : MainLoop), t.Filed busy →
      (lost.foldl (fun s c => if c ∈ s.connections then s.deadLinkOnWrite c else s) t).Filed busy ∧
      Sent t (lost.foldl (fun s c => if c ∈ s.connections then s.deadLinkOnWrite c else s) t) := by
    intro lost
    induction lost with
    | nil => exact fun t ht => ⟨ht, .refl t⟩
    | cons c lost ih =>
        intro t ht
        rw [List.foldl_cons]
        split
        · rename_i hc
          obtain ⟨hdead, hsent⟩ := ht.deadLinkOnWrite hc
          obtain ⟨hfiled, hsent'⟩ := ih _ hdead
          exact ⟨hfiled, hsent.trans hsent'⟩
        · exact ih t ht
  obtain ⟨hfiled, hsent⟩ := hfold (s.tape.headD []) { s with tape := s.tape.tail } { h with }
  exact ⟨hfiled,
    { hsent with aborts := ⟨hsent.aborts.stays, hsent.aborts.fresh, hsent.aborts.head⟩ }⟩

/-- `c` is taken from some of the lists. -/
structure Removes (c : ℕ) (s s' : MainLoop) : Prop where
  client : s'.client = s.client
  next : s'.next = s.next
  abortList : s'.abortList = s.abortList
  eacNext : s'.eacNext = s.eacNext
  deadList : s'.deadList = s.deadList
  exited : s'.exited = s.exited
  freed : s'.freed = s.freed
  faults : s'.faults = s.faults
  lists : ∀ L, s'.lists L = s.lists L ∨ s'.lists L = (s.lists L).erase c
  users : ∀ p, s'.users p = s.users p ∨ s'.users p = (s.users p).erase c
  servers : ∀ p, s'.servers p = s.servers p ∨ s'.servers p = (s.servers p).erase c
  members : s'.members ⊆ s.members
  accepts : s'.accepts ⊆ s.accepts
  invites : s'.invites ⊆ s.invites

theorem sublist_of_erase {l l' : List ℕ} (h : l' = l ∨ l' = l.erase c) : l'.Sublist l := by
  rcases h with rfl | rfl
  · exact List.Sublist.refl _
  · exact List.erase_sublist

theorem mem_of_erase {l l' : List ℕ} (h : l' = l ∨ l' = l.erase c) {x : ℕ} (hx : x ∈ l)
    (hne : x ≠ c) : x ∈ l' := by
  rcases h with rfl | rfl
  · exact hx
  · exact (List.mem_erase_of_ne hne).mpr hx

theorem getLast?_of_erase {l l' : List ℕ} (h : l' = l ∨ l' = l.erase c) {m : ℕ}
    (hlast : l.getLast? = some m) (hne : c ≠ m) : l'.getLast? = some m := by
  rcases h with rfl | rfl
  · exact hlast
  · obtain ⟨init, rfl⟩ := List.getLast?_eq_some_iff.mp hlast
    by_cases hc : c ∈ init
    · rw [List.erase_append_left _ hc, List.getLast?_append_of_ne_nil _ (by simp)]
      rfl
    · rw [List.erase_append_right _ hc, List.erase_of_not_mem (by simpa using hne), hlast]

theorem Filed.removes {s' : MainLoop} (h : s.Filed busy) (hr : Removes c s s') (hb : busy c)
    (hme : c ≠ me) : s'.Filed busy := by
  have hlive : ∀ {p : ClientRecord → Prop} {x : ℕ}, s.Live p x → s'.Live p x := by
    intro p x hx
    obtain ⟨k, hk, hp, hexited⟩ := hx
    exact ⟨k, hr.client ▸ hk, hp, hr.exited ▸ hexited⟩
  exact {
    isMe := hlive h.isMe
    onlyMe := hr.client ▸ h.onlyMe
    fresh := fun x hx => by
      rw [hr.client, hr.exited]
      exact h.fresh x (hr.next ▸ hx)
    once := hr.exited ▸ h.once
    dead := hr.deadList ▸ h.dead
    freedOnce := hr.freed ▸ h.freedOnce
    left := fun x => by
      rw [hr.exited, hr.deadList, hr.freed]
      exact h.left x
    gone := fun x hx => by
      rw [hr.client]
      exact h.gone x (hr.freed ▸ hx)
    waiting := fun x hx => by
      rw [hr.client]
      exact h.waiting x (hr.deadList ▸ hx)
    listed := fun L x hx => hlive (h.listed L x ((sublist_of_erase (hr.lists L)).subset hx))
    nodup := fun L => (h.nodup L).sublist (sublist_of_erase (hr.lists L))
    last := getLast?_of_erase (hr.lists _) h.last hme
    closing := fun x k hk hmy hcl => by
      rw [hr.exited]
      exact h.closing x k (hr.client ▸ hk) hmy hcl
    user := fun p x hx => hlive (h.user p x ((sublist_of_erase (hr.users p)).subset hx))
    server := fun p x hx => hlive (h.server p x ((sublist_of_erase (hr.servers p)).subset hx))
    usersNodup := fun p => (h.usersNodup p).sublist (sublist_of_erase (hr.users p))
    serversNodup := fun p => (h.serversNodup p).sublist (sublist_of_erase (hr.servers p))
    child := fun x k hk hexited => by
      by_cases hx : x = c
      · exact .inl (hx ▸ hb)
      · rcases h.child x k (hr.client ▸ hk) (hr.exited ▸ hexited) with hbx | ⟨huser, hserver⟩
        · exact .inl hbx
        · exact .inr ⟨fun hst => mem_of_erase (hr.users _) (huser hst) hx,
            fun hst => mem_of_erase (hr.servers _) (hserver hst) hx⟩
    parent := fun x k hk hexited hst => by
      obtain ⟨hlt, hp, hmy⟩ := h.parent x k (hr.client ▸ hk) (hr.exited ▸ hexited) hst
      exact ⟨hlt, hlive hp, hmy⟩
    member := fun m hm => hlive (h.member m (hr.members hm))
    accept := fun a ha =>
      ⟨hlive (h.accept a (hr.accepts ha)).1, hlive (h.accept a (hr.accepts ha)).2⟩
    invite := fun i hi => hlive (h.invite i (hr.invites hi))
    aborted := fun x hx => by
      rw [hr.client]
      exact h.aborted x (hr.abortList ▸ hx)
    abortedNodup := hr.abortList ▸ h.abortedNodup
    marked := fun x k hk hd hexited => by
      rw [hr.abortList]
      exact h.marked x k (hr.client ▸ hk) hd (hr.exited ▸ hexited)
    faults := hr.faults ▸ h.faults }

/-- What an exit leaves of the others: their kind, and their places in the lists of their servers.
-/
structure Loses (c : ℕ) (s s' : MainLoop) : Prop where
  next : s'.next = s.next
  deadList : s'.deadList = s.deadList
  exited : s'.exited = s.exited
  freed : s'.freed = s.freed
  aborts : Aborts s s'
  record : ∀ x k, s.client x = some k →
    ∃ k', s'.client x = some k' ∧ SameKind k k' ∧ k'.closing = k.closing ∧ k'.killed = k.killed
  lists : ∀ L, s'.lists L ⊆ s.lists L
  users : ∀ p, s'.users p ⊆ s.users p
  servers : ∀ p, s'.servers p ⊆ s.servers p
  keepUsers : ∀ p, ∀ x ∈ s.users p, x ≠ c → x ∈ s'.users p
  keepServers : ∀ p, ∀ x ∈ s.servers p, x ≠ c → x ∈ s'.servers p
  members : s'.members ⊆ s.members
  accepts : s'.accepts ⊆ s.accepts
  invites : s'.invites ⊆ s.invites

theorem Removes.loses {s' : MainLoop} (h : Removes c s s') : Loses c s s' where
  next := h.next
  deadList := h.deadList
  exited := h.exited
  freed := h.freed
  aborts := .of_eq h.abortList h.eacNext fun x hx => by rwa [DeadAt, h.client]
  record := fun _ k hk => ⟨k, h.client ▸ hk, .refl k, rfl, rfl⟩
  lists := fun L => (sublist_of_erase (h.lists L)).subset
  users := fun p => (sublist_of_erase (h.users p)).subset
  servers := fun p => (sublist_of_erase (h.servers p)).subset
  keepUsers := fun p _ hx hne => mem_of_erase (h.users p) hx hne
  keepServers := fun p _ hx hne => mem_of_erase (h.servers p) hx hne
  members := h.members
  accepts := h.accepts
  invites := h.invites

theorem Sent.loses {s' : MainLoop} (h : Sent s s') (c : ℕ) : Loses c s s' where
  next := h.next
  deadList := h.deadList
  exited := h.exited
  freed := h.freed
  aborts := h.aborts
  record := h.record
  lists := fun L => by rw [h.lists]; exact List.Subset.refl _
  users := fun p => by rw [h.users]; exact List.Subset.refl _
  servers := fun p => by rw [h.servers]; exact List.Subset.refl _
  keepUsers := fun p x hx _ => by rwa [h.users]
  keepServers := fun p x hx _ => by rwa [h.servers]
  members := by rw [h.members]; exact List.Subset.refl _
  accepts := by rw [h.accepts]; exact List.Subset.refl _
  invites := by rw [h.invites]; exact List.Subset.refl _

theorem Loses.trans {s' s'' : MainLoop} (h : Loses c s s') (h' : Loses c s' s'') :
    Loses c s s'' where
  next := h'.next.trans h.next
  deadList := h'.deadList.trans h.deadList
  exited := h'.exited.trans h.exited
  freed := h'.freed.trans h.freed
  aborts := h.aborts.trans h'.aborts
  record := fun x k hk => by
    obtain ⟨k', hk', hsame, hcl, hkilled⟩ := h.record x k hk
    obtain ⟨k'', hk'', hsame', hcl', hkilled'⟩ := h'.record x k' hk'
    exact ⟨k'', hk'', hsame.trans hsame', hcl'.trans hcl, hkilled'.trans hkilled⟩
  lists := fun L => List.Subset.trans (h'.lists L) (h.lists L)
  users := fun p => List.Subset.trans (h'.users p) (h.users p)
  servers := fun p => List.Subset.trans (h'.servers p) (h.servers p)
  keepUsers := fun p x hx hne => h'.keepUsers p x (h.keepUsers p x hx hne) hne
  keepServers := fun p x hx hne => h'.keepServers p x (h.keepServers p x hx hne) hne
  members := List.Subset.trans h'.members h.members
  accepts := List.Subset.trans h'.accepts h.accepts
  invites := List.Subset.trans h'.invites h.invites

end MainLoop

end Unirc
