import Unirc.MainLoopRound

/-!
# Clients that come in

A record is made or changed first, then the client goes to the lists that it fits, and when it is
with its server as well it is filed.
-/

namespace Unirc

namespace MainLoop

variable {s : MainLoop} {busy : ℕ → Prop} {c : ℕ} {k : ClientRecord}

theorem Live.of_is {p : ClientRecord → Bool} (h : s.is c p = true) :
    s.Live (fun k => p k = true) c := by
  rw [is, Bool.and_eq_true, decide_eq_true_eq, Option.any_eq_true] at h
  obtain ⟨⟨k, hk, hp⟩, hexited⟩ := h
  exact ⟨k, hk, hp, hexited⟩

theorem Live.sent {p : ClientRecord → Prop} {s' : MainLoop} (h : s.Live p c) (hsent : Sent s s')
    (hp : ∀ k k', SameKind k k' → k'.closing = k.closing → p k → p k') : s'.Live p c := by
  obtain ⟨k, hk, hpk, hexited⟩ := h
  obtain ⟨k', hk', hsame, hcl, -⟩ := hsent.record c k hk
  exact ⟨k', hk', hp k k' hsame hcl hpk, hsent.exited ▸ hexited⟩

/-- Nobody is busy any more when `c` is with its server, open, and not left behind as dead. -/
theorem Filed.settle (h : s.Filed fun x => x = c) (hk : s.client c = some k)
    (hclosing : k.myConnect = true → k.closing = false)
    (hchild : (k.status = .client → c ∈ s.users k.servptr) ∧
      (k.status = .server → c ∈ s.servers k.servptr))
    (hmarked : k.dead = true → c ∈ s.abortList) : s.Idle := {
  h with
  closing := fun x k' hk' hmy hcl => by
    rcases h.closing x k' hk' hmy hcl with hx | rfl
    · exact .inl hx
    · cases hk'.symm.trans hk
      rw [hclosing hmy] at hcl
      cases hcl
  child := fun x k' hk' hexited => by
    rcases h.child x k' hk' hexited with rfl | hx
    · cases hk'.symm.trans hk
      exact .inr hchild
    · exact .inr hx
  marked := fun x k' hk' hd hexited => by
    rcases h.marked x k' hk' hd hexited with hx | rfl
    · exact .inl hx
    · cases hk'.symm.trans hk
      exact .inl (hmarked hd) }

theorem Filed.add {L : ClientList} (h : s.Filed busy) (hc : s.Live L.fits c)
    (hnew : c ∉ s.lists L) : (s.add L c).Filed busy := by
  have hlists : ∀ L', (s.add L c).lists L' = if L' = L then c :: s.lists L else s.lists L' := by
    intro L'
    by_cases hL : L' = L
    · subst hL
      rw [if_pos rfl]
      exact Function.update_self ..
    · rw [if_neg hL]
      exact Function.update_of_ne hL ..
  exact {
    h with
    listed := fun L' x hx => by
      rw [hlists] at hx
      split at hx
      · rename_i hL
        subst hL
        rcases List.mem_cons.mp hx with rfl | hx
        · exact hc
        · exact h.listed _ x hx
      · exact h.listed L' x hx
    nodup := fun L' => by
      rw [hlists]
      split
      · exact List.nodup_cons.mpr ⟨hnew, h.nodup L⟩
      · exact h.nodup L'
    last := by
      rw [hlists]
      split
      · rename_i hL
        subst hL
        have hne : s.lists .globalClient ≠ [] := fun hnil => by
          have hlast := h.last
          rw [hnil] at hlast
          cases hlast
        rw [List.getLast?_cons_of_ne_nil hne]
        exact h.last
      · exact h.last }

theorem Filed.addIf {b : Bool} {L : ClientList} (h : s.Filed busy)
    (hc : b = true → s.Live L.fits c) (hnew : c ∉ s.lists L) : (s.addIf b L c).Filed busy := by
  rw [MainLoop.addIf]
  split
  · rename_i hb
    exact h.add (hc hb) hnew
  · exact h

theorem Filed.addUser {p : ℕ} (h : s.Filed busy)
    (hc : s.Live (fun k => k.status = .client ∧ k.servptr = p) c) (hnew : c ∉ s.users p) :
    (s.addUser p c).Filed busy := by
  have husers : ∀ q, (s.addUser p c).users q = if q = p then c :: s.users p else s.users q := by
    intro q
    by_cases hq : q = p
    · subst hq
      rw [if_pos rfl]
      exact Function.update_self ..
    · rw [if_neg hq]
      exact Function.update_of_ne hq ..
  exact {
    h with
    user := fun q x hx => by
      rw [husers] at hx
      split at hx
      · rename_i hq
        subst hq
        rcases List.mem_cons.mp hx with rfl | hx
        · exact hc
        · exact h.user _ x hx
      · exact h.user q x hx
    usersNodup := fun q => by
      rw [husers]
      split
      · exact List.nodup_cons.mpr ⟨hnew, h.usersNodup p⟩
      · exact h.usersNodup q
    child := fun x k hk hexited => by
      refine (h.child x k hk hexited).imp_right fun hchild => ⟨fun hst => ?_, hchild.2⟩
      rw [husers]
      split
      · rename_i hp
        exact List.mem_cons_of_mem c (hp ▸ hchild.1 hst)
      · exact hchild.1 hst }

theorem Filed.addServer {p : ℕ} (h : s.Filed busy)
    (hc : s.Live (fun k => k.status = .server ∧ k.servptr = p) c) (hnew : c ∉ s.servers p) :
    (s.addServer p c).Filed busy := by
  have hservers : ∀ q, (s.addServer p c).servers q =
      if q = p then c :: s.servers p else s.servers q := by
    intro q
    by_cases hq : q = p
    · subst hq
      rw [if_pos rfl]
      exact Function.update_self ..
    · rw [if_neg hq]
      exact Function.update_of_ne hq ..
  exact {
    h with
    server := fun q x hx => by
      rw [hservers] at hx
      split at hx
      · rename_i hq
        subst hq
        rcases List.mem_cons.mp hx with rfl | hx
        · exact hc
        · exact h.server _ x hx
      · exact h.server q x hx
    serversNodup := fun q => by
      rw [hservers]
      split
      · exact List.nodup_cons.mpr ⟨hnew, h.serversNodup p⟩
      · exact h.serversNodup q
    child := fun x k hk hexited => by
      refine (h.child x k hk hexited).imp_right fun hchild => ⟨hchild.1, fun hst => ?_⟩
      rw [hservers]
      split
      · rename_i hp
        exact List.mem_cons_of_mem c (hp ▸ hchild.2 hst)
      · exact hchild.2 hst }

/-- Another record for `c`, which fits the lists where `c` is already. -/
theorem Filed.setRecord {f : ClientRecord → ClientRecord} (h : s.Filed busy) (hb : busy c)
    (hk : s.client c = some k) (hexited : c ∉ s.exited) (hme : k.status ≠ .me)
    (hme' : (f k).status ≠ .me) (hflags : (f k).dead = k.dead ∧ (f k).closing = k.closing ∧
      (f k).myConnect = k.myConnect)
    (hfits : ∀ L, c ∈ s.lists L → L.fits (f k))
    (hclient : k.status = .client → (f k).status = .client ∧ (f k).servptr = k.servptr)
    (hserver : k.status = .server → (f k).status = .server ∧ (f k).servptr = k.servptr)
    (hparent : (f k).status = .client ∨ (f k).status = .server → (f k).servptr < c ∧
      s.Live (fun k => k.status = .server ∨ k.status = .me) (f k).servptr ∧
        ((f k).myConnect = true → (f k).servptr = me)) : (s.modify c f).Filed busy := by
  obtain ⟨hdead, hclosing, hmy⟩ := hflags
  have hself : (s.modify c f).client c = some (f k) :=
    (client_modify f c).trans (by rw [hk, if_pos rfl]; rfl)
  have hother : ∀ x, x ≠ c → (s.modify c f).client x = s.client x := fun x hx =>
    Function.update_of_ne hx ..
  have hlive : ∀ {p : ClientRecord → Prop} {x : ℕ}, (p k → p (f k)) → s.Live p x →
      (s.modify c f).Live p x := by
    intro p x hp hx
    obtain ⟨k', hk', hpk, he⟩ := hx
    by_cases hxc : x = c
    · subst hxc
      cases hk'.symm.trans hk
      exact ⟨f k, hself, hp hpk, he⟩
    · exact ⟨k', (hother x hxc).trans hk', hpk, he⟩
  have hold : ∀ x k', (s.modify c f).client x = some k' →
      x = c ∧ k' = f k ∨ x ≠ c ∧ s.client x = some k' := by
    intro x k' hk'
    by_cases hxc : x = c
    · subst hxc
      exact .inl ⟨rfl, Option.some.inj (hk'.symm.trans hself)⟩
    · exact .inr ⟨hxc, (hother x hxc).symm.trans hk'⟩
  have hstatus : k.status = .server ∨ k.status = .me →
      (f k).status = .server ∨ (f k).status = .me :=
    fun hst => hst.elim (fun hst => .inl (hserver hst).1) fun hst => absurd hst hme
  have hchild : ∀ st p, st = .client ∨ st = .server → k.status = st ∧ k.servptr = p →
      (f k).status = st ∧ (f k).servptr = p := by
    rintro st p (rfl | rfl) ⟨hst, rfl⟩
    · exact hclient hst
    · exact hserver hst
  exact {
    isMe := hlive (fun hst => absurd hst hme) h.isMe
    onlyMe := fun x k' hk' hst => by
      rcases hold x k' hk' with ⟨-, rfl⟩ | ⟨-, hk'⟩
      · exact absurd hst hme'
      · exact h.onlyMe x k' hk' hst
    fresh := fun x hx => by
      obtain ⟨hnone, he⟩ := h.fresh x hx
      refine ⟨(hother x fun hxc => ?_).trans hnone, he⟩
      rw [hxc, hk] at hnone
      cases hnone
    once := h.once
    dead := h.dead
    freedOnce := h.freedOnce
    left := h.left
    gone := fun x hx => by
      have hnone := h.gone x hx
      refine (hother x fun hxc => ?_).trans hnone
      rw [hxc, hk] at hnone
      cases hnone
    waiting := fun x hx => by
      obtain ⟨k', hk', hw⟩ := h.waiting x hx
      have hxc : x ≠ c := fun hxc => hexited (hxc ▸ (h.left x).mpr (.inl hx))
      exact ⟨k', (hother x hxc).trans hk', hw⟩
    listed := fun L x hx => by
      by_cases hxc : x = c
      · subst hxc
        exact ⟨f k, hself, hfits L hx, hexited⟩
      · obtain ⟨k', hk', hL, he⟩ := h.listed L x hx
        exact ⟨k', (hother x hxc).trans hk', hL, he⟩
    nodup := h.nodup
    last := h.last
    closing := fun x k' hk' hmy' hcl => by
      rcases hold x k' hk' with ⟨rfl, rfl⟩ | ⟨-, hk'⟩
      · exact .inr hb
      · exact h.closing x k' hk' hmy' hcl
    user := fun p x hx => hlive (hchild _ _ (.inl rfl)) (h.user p x hx)
    server := fun p x hx => hlive (hchild _ _ (.inr rfl)) (h.server p x hx)
    usersNodup := h.usersNodup
    serversNodup := h.serversNodup
    child := fun x k' hk' he => by
      rcases hold x k' hk' with ⟨rfl, rfl⟩ | ⟨-, hk'⟩
      · exact .inl hb
      · exact h.child x k' hk' he
    parent := fun x k' hk' he hst => by
      rcases hold x k' hk' with ⟨rfl, rfl⟩ | ⟨-, hk'⟩
      · obtain ⟨hlt, hp, hmy'⟩ := hparent hst
        exact ⟨hlt, hlive hstatus hp, hmy'⟩
      · obtain ⟨hlt, hp, hmy'⟩ := h.parent x k' hk' he hst
        exact ⟨hlt, hlive hstatus hp, hmy'⟩
    member := fun m hm => hlive (fun hst => (hclient hst).1) (h.member m hm)
    accept := fun a ha => ⟨hlive (fun hst => (hclient hst).1) (h.accept a ha).1,
      hlive (fun hst => (hclient hst).1) (h.accept a ha).2⟩
    invite := fun i hi => hlive (fun hst => ⟨(hclient hst.1).1, hmy.trans hst.2⟩) (h.invite i hi)
    aborted := fun x hx => by
      obtain ⟨k', hk', hd, hmy', hst⟩ := h.aborted x hx
      by_cases hxc : x = c
      · subst hxc
        cases hk'.symm.trans hk
        exact ⟨f k, hself, hdead.trans hd, hmy.trans hmy', hme'⟩
      · exact ⟨k', (hother x hxc).trans hk', hd, hmy', hst⟩
    abortedNodup := h.abortedNodup
    marked := fun x k' hk' hd he => by
      rcases hold x k' hk' with ⟨rfl, rfl⟩ | ⟨-, hk'⟩
      · exact .inr hb
      · exact h.marked x k' hk' hd he
    faults := h.faults }

/-- A client with a new number. -/
theorem Filed.make (h : s.Idle) (hme : k.status ≠ .me)
    (hparent : k.status = .client ∨ k.status = .server → k.servptr < s.next ∧
      s.Live (fun k => k.status = .server ∨ k.status = .me) k.servptr ∧
        (k.myConnect = true → k.servptr = me)) : (s.make k).Filed fun x => x = s.next := by
  obtain ⟨hnone, hexited⟩ := h.fresh s.next (Nat.le_refl _)
  have hself : (s.make k).client s.next = some k := Function.update_self ..
  have hother : ∀ x, x ≠ s.next → (s.make k).client x = s.client x := fun x hx =>
    Function.update_of_ne hx ..
  have hne : ∀ x k', s.client x = some k' → x ≠ s.next := by
    rintro x k' hk' rfl
    rw [hnone] at hk'
    cases hk'
  have hlive : ∀ {p : ClientRecord → Prop} {x : ℕ}, s.Live p x → (s.make k).Live p x := by
    rintro p x ⟨k', hk', hp, he⟩
    exact ⟨k', (hother x (hne x k' hk')).trans hk', hp, he⟩
  have hold : ∀ x k', (s.make k).client x = some k' →
      x = s.next ∧ k' = k ∨ s.client x = some k' := by
    intro x k' hk'
    by_cases hx : x = s.next
    · subst hx
      exact .inl ⟨rfl, Option.some.inj (hk'.symm.trans hself)⟩
    · exact .inr ((hother x hx).symm.trans hk')
  exact {
    isMe := hlive h.isMe
    onlyMe := fun x k' hk' hst => by
      rcases hold x k' hk' with ⟨-, rfl⟩ | hk'
      · exact absurd hst hme
      · exact h.onlyMe x k' hk' hst
    fresh := fun x hx => by
      have hlt : s.next < x := hx
      obtain ⟨hnone', he⟩ := h.fresh x hlt.le
      exact ⟨(hother x hlt.ne').trans hnone', he⟩
    once := h.once
    dead := h.dead
    freedOnce := h.freedOnce
    left := h.left
    gone := fun x hx => by
      rw [hother x fun hxn => hexited ((h.left _).mpr (.inr (hxn ▸ hx)))]
      exact h.gone x hx
    waiting := fun x hx => by
      obtain ⟨k', hk', hw⟩ := h.waiting x hx
      exact ⟨k', (hother x (hne x k' hk')).trans hk', hw⟩
    listed := fun L x hx => hlive (h.listed L x hx)
    nodup := h.nodup
    last := h.last
    closing := fun x k' hk' hmy hcl => by
      rcases hold x k' hk' with ⟨hx, -⟩ | hk'
      · exact .inr hx
      · exact (h.closing x k' hk' hmy hcl).imp_right False.elim
    user := fun p x hx => hlive (h.user p x hx)
    server := fun p x hx => hlive (h.server p x hx)
    usersNodup := h.usersNodup
    serversNodup := h.serversNodup
    child := fun x k' hk' he => by
      rcases hold x k' hk' with ⟨hx, -⟩ | hk'
      · exact .inl hx
      · exact (h.child x k' hk' he).imp_left False.elim
    parent := fun x k' hk' he hst => by
      rcases hold x k' hk' with ⟨rfl, rfl⟩ | hk'
      · obtain ⟨hlt, hp, hmy⟩ := hparent hst
        exact ⟨hlt, hlive hp, hmy⟩
      · obtain ⟨hlt, hp, hmy⟩ := h.parent x k' hk' he hst
        exact ⟨hlt, hlive hp, hmy⟩
    member := fun m hm => hlive (h.member m hm)
    accept := fun a ha => ⟨hlive (h.accept a ha).1, hlive (h.accept a ha).2⟩
    invite := fun i hi => hlive (h.invite i hi)
    aborted := fun x hx => by
      obtain ⟨k', hk', hd⟩ := h.aborted x hx
      exact ⟨k', (hother x (hne x k' hk')).trans hk', hd⟩
    abortedNodup := h.abortedNodup
    marked := fun x k' hk' hd he => by
      rcases hold x k' hk' with ⟨hx, -⟩ | hk'
      · exact .inr hx
      · exact (h.marked x k' hk' hd he).imp_right False.elim
    faults := h.faults }

end MainLoop

end Unirc
