import Unirc.MainLoopExit

/-!
# Exits with all that depends on them

A server takes its users and servers with it, and a connection leaves the lists of connections
before that. A second exit of a connection does nothing.
-/

namespace Unirc

namespace MainLoop

variable {s : MainLoop} {busy : ℕ → Prop} {a c : ℕ} {k : ClientRecord}

/-- What is left of the users of a server in the walk over them. -/
theorem Filed.exitUsers {l : List ℕ} (h : s.Filed busy) (hbusy : ∀ x, busy x → x ≤ a)
    (ha : a ≠ me) (hl : l.Nodup) (husers : ∀ x, x ∈ s.users a ↔ x ∈ l) :
    (l.foldl MainLoop.exitOneClient s).Filed busy ∧
      Under a s (l.foldl MainLoop.exitOneClient s) ∧
      (l.foldl MainLoop.exitOneClient s).users a = [] := by
  induction l generalizing s with
  | nil =>
      refine ⟨h, .of_sent (.refl s) a, ?_⟩
      rw [List.foldl_nil, List.eq_nil_iff_forall_not_mem]
      exact fun x hx => List.not_mem_nil ((husers x).mp hx)
  | cons u l ih =>
      obtain ⟨hul, hl⟩ := List.nodup_cons.mp hl
      have hu : u ∈ s.users a := (husers u).mpr List.mem_cons_self
      obtain ⟨k, hk, ⟨hst, hp⟩, hexited⟩ := h.user a u hu
      obtain ⟨hlt, -, -⟩ := h.parent u k hk hexited (.inl hst)
      obtain ⟨hnoUsers, hnoServers⟩ := h.no_dependents hk (by rw [hst]; decide)
        (by rw [hst]; decide)
      have hready := h.ready_of_remote hk hexited (.inl hst) (hp ▸ ha) hnoUsers hnoServers
      obtain ⟨hfiled, hexits⟩ := h.exitOneClient (fun x hx => by have := hbusy x hx; omega) hready
      have hunder : Under a s (s.exitOneClient u) := .of_exits h hexits hk (Nat.le_of_eq hp.symm)
      have hrest : ∀ x, x ∈ (s.exitOneClient u).users a ↔ x ∈ l := by
        intro x
        constructor
        · intro hx
          have hne : x ≠ u := by
            rintro rfl
            apply (hfiled.user a x hx).not_exited
            rw [hexits.exited]
            exact List.mem_append_right _ (List.mem_singleton_self x)
          exact (List.mem_cons.mp ((husers x).mp (hexits.users a hx))).resolve_left hne
        · intro hx
          exact hexits.keepUsers a x ((husers x).mpr (List.mem_cons_of_mem u hx))
            fun he => hul (he ▸ hx)
      obtain ⟨hdone, hunder', hnil⟩ := ih hfiled hl hrest
      exact ⟨hdone, hunder.trans hunder', hnil⟩

theorem Filed.nothing_below (h : s.Filed busy) (ha : s.next ≤ a) :
    s.users a = [] ∧ s.servers a = [] := by
  have hnext : ∀ x k, s.client x = some k → x ∉ s.exited →
      k.status = .client ∨ k.status = .server → k.servptr ≠ a := by
    intro x k hk hexited hst hp
    have hlt := h.lt_next hk
    obtain ⟨hlt', -, -⟩ := h.parent x k hk hexited hst
    omega
  constructor
  · rw [List.eq_nil_iff_forall_not_mem]
    intro x hx
    obtain ⟨k, hk, ⟨hst, hp⟩, hexited⟩ := h.user a x hx
    exact hnext x k hk hexited (.inl hst) hp
  · rw [List.eq_nil_iff_forall_not_mem]
    intro x hx
    obtain ⟨k, hk, ⟨hst, hp⟩, hexited⟩ := h.server a x hx
    exact hnext x k hk hexited (.inr hst) hp

/-- What is left of the servers of a server in the walk over them. -/
theorem Filed.exitServers {fuel : ℕ} {l : List ℕ} (h : s.Filed busy) (hbusy : ∀ x, busy x → x ≤ a)
    (ha : a ≠ me) (hfuel : s.next ≤ fuel + 1 + a) (hl : l.Nodup)
    (hservers : ∀ x, x ∈ s.servers a ↔ x ∈ l)
    (hrecurse : ∀ (t : MainLoop) (b : ℕ), t.Filed busy → (∀ x, busy x → x ≤ b) → b ≠ me →
      t.next ≤ fuel + b → (MainLoop.recurseRemoveClients fuel t b).Filed busy ∧
        Under b t (MainLoop.recurseRemoveClients fuel t b) ∧
        (MainLoop.recurseRemoveClients fuel t b).users b = [] ∧
        (MainLoop.recurseRemoveClients fuel t b).servers b = []) :
    let body := fun (s : MainLoop) b => (MainLoop.recurseRemoveClients fuel s b).exitOneClient b
    (l.foldl body s).Filed busy ∧ Under a s (l.foldl body s) ∧ (l.foldl body s).servers a = [] := by
  intro body
  induction l generalizing s with
  | nil =>
      refine ⟨h, .of_sent (.refl s) a, ?_⟩
      rw [List.foldl_nil, List.eq_nil_iff_forall_not_mem]
      exact fun x hx => List.not_mem_nil ((hservers x).mp hx)
  | cons b l ih =>
      obtain ⟨hbl, hl⟩ := List.nodup_cons.mp hl
      have hb : b ∈ s.servers a := (hservers b).mpr List.mem_cons_self
      obtain ⟨k, hk, ⟨hst, hp⟩, hexited⟩ := h.server a b hb
      obtain ⟨hlt, -, -⟩ := h.parent b k hk hexited (.inr hst)
      have hab : a < b := hp ▸ hlt
      have hbusy' : ∀ x, busy x → x ≤ b := fun x hx => (hbusy x hx).trans hab.le
      have hbme : b ≠ me := ((Nat.zero_le a).trans_lt hab).ne'
      obtain ⟨hbelow, hunder, hnoUsers, hnoServers⟩ := hrecurse s b h hbusy' hbme (by omega)
      obtain ⟨k', hk', hsame, -, -⟩ := hunder.record b k hk
      have hexited' := hunder.stays b k hk (hp ▸ hab) hexited
      have hready := hbelow.ready_of_remote hk' hexited' (.inr (hsame.status.trans hst))
        (hsame.servptr.trans hp ▸ ha) hnoUsers hnoServers
      obtain ⟨hfiled, hexits⟩ := hbelow.exitOneClient hbusy' hready
      have hstep : Under a s (body s b) := (hunder.mono hab.le).trans
        (.of_exits hbelow hexits hk' (Nat.le_of_eq (hsame.servptr.trans hp).symm))
      have hrest : ∀ x, x ∈ (body s b).servers a ↔ x ∈ l := by
        intro x
        constructor
        · intro hx
          have hne : x ≠ b := by
            rintro rfl
            apply (hfiled.server a x hx).not_exited
            rw [hexits.exited]
            exact List.mem_append_right _ (List.mem_singleton_self x)
          exact (List.mem_cons.mp ((hservers x).mp (hstep.servers a hx))).resolve_left hne
        · intro hx
          exact hexits.keepServers a x (hunder.keepServers a hab
            ((hservers x).mpr (List.mem_cons_of_mem b hx))) fun he => hbl (he ▸ hx)
      obtain ⟨hdone, hunder', hnil⟩ := ih hfiled (hstep.next ▸ hfuel) hl hrest
      exact ⟨hdone, hstep.trans hunder', hnil⟩

/-- `recurse_remove_clients` leaves nothing that hangs off the server. -/
theorem Filed.recurseRemoveClients {fuel : ℕ} (h : s.Filed busy) (hbusy : ∀ x, busy x → x ≤ a)
    (ha : a ≠ me) (hfuel : s.next ≤ fuel + a) :
    (MainLoop.recurseRemoveClients fuel s a).Filed busy ∧
      Under a s (MainLoop.recurseRemoveClients fuel s a) ∧
      (MainLoop.recurseRemoveClients fuel s a).users a = [] ∧
      (MainLoop.recurseRemoveClients fuel s a).servers a = [] := by
  induction fuel generalizing s a with
  | zero =>
      obtain ⟨husers, hservers⟩ := h.nothing_below (by omega : s.next ≤ a)
      exact ⟨h, .of_sent (.refl s) a, husers, hservers⟩
  | succ fuel ih =>
      rw [MainLoop.recurseRemoveClients]
      obtain ⟨husers, hunder, hnil⟩ := h.exitUsers hbusy ha (h.usersNodup a) fun x => Iff.rfl
      obtain ⟨hservers, hunder', hnil'⟩ := husers.exitServers hbusy ha (hunder.next ▸ hfuel)
        (husers.serversNodup a) (fun x => Iff.rfl) fun t b ht hb hne hnext => ih ht hb hne hnext
      exact ⟨hservers, hunder.trans hunder', List.eq_nil_of_subset_nil (hnil ▸ hunder'.users a),
        hnil'⟩

theorem remove_modify (s : MainLoop) (c d : ℕ) (f : ClientRecord → ClientRecord) (L : ClientList) :
    (s.modify c f).remove L d = (s.remove L d).modify c f := rfl

theorem removeIf_modify (s : MainLoop) (c d : ℕ) (f : ClientRecord → ClientRecord) (b : Bool)
    (L : ClientList) : (s.modify c f).removeIf b L d = (s.removeIf b L d).modify c f := by
  rw [MainLoop.removeIf, MainLoop.removeIf]
  split <;> rfl

/-- `c` is on no list of connections. -/
structure Unlisted (s : MainLoop) (c : ℕ) : Prop where
  unknown : c ∉ s.lists .unknown
  localClient : c ∉ s.lists .localClient
  serv : c ∉ s.lists .serv
  oper : c ∉ s.lists .oper

theorem Unlisted.of_subset {s' : MainLoop} (h : s.Unlisted c) (hl : ∀ L, s'.lists L ⊆ s.lists L) :
    s'.Unlisted c :=
  ⟨fun hc => h.unknown (hl _ hc), fun hc => h.localClient (hl _ hc), fun hc => h.serv (hl _ hc),
    fun hc => h.oper (hl _ hc)⟩

/-- What an exit leaves when `c` is not connected any more: everything but its lists. -/
structure Closed (c : ℕ) (s s' : MainLoop) : Prop where
  next : s'.next = s.next
  exited : s'.exited = s.exited
  freed : s'.freed = s.freed
  aborts : Aborts s s'
  users : s'.users = s.users
  servers : s'.servers = s.servers
  record : ∀ k, s.client c = some k → ∃ k', s'.client c = some k' ∧ SameKind k k' ∧
    k'.closing = true

theorem Filed.setClosing (h : s.Filed busy) (hb : busy c) (hun : s.Unlisted c) :
    (s.modify c fun k => { k with closing := true }).Filed busy := by
  refine h.modify (fun k => ⟨rfl, rfl, rfl, rfl, rfl, rfl⟩) (fun _ hd => hd) (fun _ _ => rfl)
    (fun _ _ _ => .inr hb) (fun k _ L hc hfits => ?_) h.abortedNodup (fun _ hx => hx)
    (fun _ hx => .inl hx) (fun _ _ hd => .inl hd)
  cases L with
  | unknown => exact absurd hc hun.unknown
  | localClient => exact absurd hc hun.localClient
  | serv => exact absurd hc hun.serv
  | oper => exact absurd hc hun.oper
  | globalClient => exact hfits
  | globalServ => exact hfits
  | clientTable => exact hfits
  | idTable => exact hfits

theorem closed_setClosing (s : MainLoop) (c : ℕ) :
    Closed c s (s.modify c fun k => { k with closing := true }) where
  next := rfl
  exited := rfl
  freed := rfl
  aborts := .of_eq rfl rfl fun _ hx =>
    deadAt_modify (f := fun k => { k with closing := true }) (fun _ hd => hd) hx
  users := rfl
  servers := rfl
  record := fun k hk => ⟨{ k with closing := true },
    (client_modify _ c).trans (by rw [hk, if_pos rfl]; rfl), ⟨rfl, rfl, rfl, rfl, rfl, rfl⟩, rfl⟩

theorem Closed.sent {s' s'' : MainLoop} (h : Closed c s s') (hsent : Sent s' s'') :
    Closed c s s'' where
  next := hsent.next.trans h.next
  exited := hsent.exited.trans h.exited
  freed := hsent.freed.trans h.freed
  aborts := h.aborts.trans hsent.aborts
  users := hsent.users.trans h.users
  servers := hsent.servers.trans h.servers
  record := fun k hk => by
    obtain ⟨k', hk', hsame, hcl⟩ := h.record k hk
    obtain ⟨k'', hk'', hsame', hcl', -⟩ := hsent.record c k' hk'
    exact ⟨k'', hk'', hsame.trans hsame', hcl'.trans hcl⟩

theorem removeIf_lists (s : MainLoop) (b : Bool) (L : ClientList) (c : ℕ) :
    ∃ l, s.removeIf b L c = { s with lists := l } := by
  rw [MainLoop.removeIf]
  split
  · exact ⟨_, rfl⟩
  · exact ⟨s.lists, rfl⟩

theorem closed_of_lists (s : MainLoop) (l : ClientList → List ℕ) (c : ℕ) :
    Closed c s (({ s with lists := l } : MainLoop).modify c fun k => { k with closing := true }) :=
  { closed_setClosing { s with lists := l } c with
    aborts := .of_eq rfl rfl fun _ hx =>
      deadAt_modify (s := s) (f := fun k => { k with closing := true }) (fun _ hd => hd) hx }

/-- `c` is closing and off the lists of connections. -/
theorem Filed.disconnect (h : s.Filed busy) (hk : s.client c = some k) (hb : busy c)
    (hme : c ≠ me) :
    (s.disconnect c k).Filed busy ∧ (s.disconnect c k).Unlisted c ∧
      Closed c s (s.disconnect c k) := by
  have hfits : ∀ {L : ClientList}, c ∈ s.lists L → L.fits k := fun hc =>
    (h.listed _ c hc).of_client hk
  have hsend : ∀ {t : MainLoop}, t.Filed busy ∧ t.Unlisted c ∧ Closed c s t →
      (if k.dead then t else t.send).Filed busy ∧ (if k.dead then t else t.send).Unlisted c ∧
        Closed c s (if k.dead then t else t.send) := by
    intro t ht
    split
    · exact ht
    · obtain ⟨hfiled, hsent⟩ := ht.1.send
      exact ⟨hfiled, ht.2.1.of_subset fun L => (hsent.loses c).lists L, ht.2.2.sent hsent⟩
  have hclose : ∀ {t : MainLoop}, t.Filed busy → t.Unlisted c → (∃ l, t = { s with lists := l }) →
      (t.modify c fun k => { k with closing := true }).Filed busy ∧
        (t.modify c fun k => { k with closing := true }).Unlisted c ∧
        Closed c s (t.modify c fun k => { k with closing := true }) := by
    rintro t ht hun ⟨l, rfl⟩
    exact ⟨ht.setClosing hb hun, ⟨hun.unknown, hun.localClient, hun.serv, hun.oper⟩,
      closed_of_lists s l c⟩
  unfold MainLoop.disconnect
  extract_lets s1 s2 s3
  apply hsend
  by_cases hclient : k.status = .client
  · have hs3 : s3 = s2 := by
      simp [s3, MainLoop.removeIf, hclient]
    have hs2 : s2 = (((s.removeIf k.oper .oper c).remove .localClient c).modify c
        fun k => { k with closing := true }).send := by
      simp only [s2, s1, hclient, removeIf_modify, remove_modify]
      rfl
    rw [hs3, hs2]
    obtain ⟨ho, hlo, hnotOper⟩ := h.removeIf hb hme (b := k.oper) (L := .oper) fun hc =>
      (hfits hc).2.2.2
    obtain ⟨hl, hll, hnotLocal⟩ := ho.remove hb hme .localClient
    have hun : ((s.removeIf k.oper .oper c).remove .localClient c).Unlisted c := {
      unknown := fun hc => (hfits ((hlo.trans hll).lists _ hc)).2.2.2.1 hclient
      localClient := hnotLocal
      serv := fun hc => by
        have hserver := (hfits ((hlo.trans hll).lists _ hc)).2.2
        rw [hclient] at hserver
        cases hserver
      oper := fun hc => hnotOper (hll.lists _ hc) }
    obtain ⟨l, hlists⟩ := removeIf_lists s k.oper .oper c
    obtain ⟨hfiled, hunlisted, hclosed⟩ := hclose hl hun (by rw [hlists]; exact ⟨_, rfl⟩)
    obtain ⟨hfiled', hsent⟩ := hfiled.send
    exact ⟨hfiled', hunlisted.of_subset fun L => (hsent.loses c).lists L, hclosed.sent hsent⟩
  have hserv : c ∈ s.lists .serv → k.status = .server := fun hc => (hfits hc).2.2
  have hnotLocal : c ∉ s.lists .localClient := fun hc => hclient (hfits hc).2.2
  have hnotOper : c ∉ s.lists .oper := fun hc => hclient (hfits hc).2.2.1
  by_cases hserver : k.status = .server
  · have hs3 : s3 = (s.removeIf true .serv c).modify c fun k => { k with closing := true } := by
      simp [s3, s2, s1, hserver, removeIf_modify]
    rw [hs3]
    obtain ⟨ht, hl, hnotServ⟩ := h.removeIf hb hme (b := true) (L := .serv) fun _ => rfl
    exact hclose ht ⟨fun hc => (hfits (hl.lists _ hc)).2.2.1 hserver,
      fun hc => hnotLocal (hl.lists _ hc),
      hnotServ, fun hc => hnotOper (hl.lists _ hc)⟩ (removeIf_lists s true .serv c)
  · set serving := decide (k.status = .server ∨ k.status = .connecting ∨ k.status = .handshake)
    have hs3 : s3 = ((s.remove .unknown c).removeIf serving .serv c).modify c
        fun k => { k with closing := true } := by
      simp only [s3, s2, s1]
      rw [if_pos ⟨hserver, hclient⟩, remove_modify, removeIf_modify]
    rw [hs3]
    obtain ⟨hu, hlu, hnotUnknown⟩ := h.remove hb hme .unknown
    obtain ⟨ht, hl, hnotServ⟩ := hu.removeIf hb hme (b := serving) (L := .serv) fun hc =>
      absurd (hserv (hlu.lists _ hc)) hserver
    obtain ⟨l, hlists⟩ := removeIf_lists (s.remove .unknown c) serving .serv c
    exact hclose ht ⟨fun hc => hnotUnknown (hl.lists _ hc),
      fun hc => hnotLocal ((hlu.trans hl).lists _ hc), hnotServ,
      fun hc => hnotOper ((hlu.trans hl).lists _ hc)⟩ (by rw [hlists]; exact ⟨_, rfl⟩)

/-- What every exit keeps: nothing is freed or made, nobody comes back. -/
structure Progress (s s' : MainLoop) : Prop where
  next : s'.next = s.next
  freed : s'.freed = s.freed
  exited : s.exited ⊆ s'.exited
  aborts : Aborts s s'

theorem Progress.trans {s s' s'' : MainLoop} (h : Progress s s') (h' : Progress s' s'') :
    Progress s s'' where
  next := h'.next.trans h.next
  freed := h'.freed.trans h.freed
  exited := List.Subset.trans h.exited h'.exited
  aborts := h.aborts.trans h'.aborts

theorem Sent.progress {s s' : MainLoop} (h : Sent s s') : Progress s s' :=
  ⟨h.next, h.freed, h.exited ▸ List.Subset.refl _, h.aborts⟩

/-- A client that is ready but for its dependents, and what happened to it since `s`. -/
structure Leaving (s s' : MainLoop) (c : ℕ) (k : ClientRecord) : Prop where
  progress : Progress s s'
  record : ∃ k', s'.client c = some k' ∧ SameKind k k' ∧ (k'.myConnect = true → k'.closing = true)
  unlisted : s'.Unlisted c
  notExited : c ∉ s'.exited

namespace Leaving

variable {s' s'' : MainLoop}

theorem sent (h : Leaving s s' c k) (hsent : Sent s' s'') : Leaving s s'' c k where
  progress := h.progress.trans hsent.progress
  record := by
    obtain ⟨k', hk', hsame, hcl⟩ := h.record
    obtain ⟨k'', hk'', hsame', hcl', -⟩ := hsent.record c k' hk'
    exact ⟨k'', hk'', hsame.trans hsame', fun hmy =>
      hcl'.trans (hcl (hsame'.myConnect ▸ hmy))⟩
  unlisted := h.unlisted.of_subset fun L => (hsent.loses c).lists L
  notExited := hsent.exited ▸ h.notExited

theorem under (h : Leaving s s' c k) (hu : Under c s' s'') (hlt : k.servptr < c) :
    Leaving s s'' c k where
  progress := h.progress.trans ⟨hu.next, hu.freed, hu.exited, hu.aborts⟩
  record := by
    obtain ⟨k', hk', hsame, hcl⟩ := h.record
    obtain ⟨k'', hk'', hsame', hcl', -⟩ := hu.record c k' hk'
    exact ⟨k'', hk'', hsame.trans hsame', fun hmy =>
      hcl'.trans (hcl (hsame'.myConnect ▸ hmy))⟩
  unlisted := h.unlisted.of_subset hu.lists
  notExited := by
    obtain ⟨k', hk', hsame, -⟩ := h.record
    exact hu.stays c k' hk' (hsame.servptr ▸ hlt) h.notExited

end Leaving

/-- `exit_client` for a client that has not exited and is not in the middle of it. -/
theorem Filed.exitClient (h : s.Filed busy) (hbusy : ∀ x, busy x → x ≤ c)
    (hk : s.client c = some k) (hexited : c ∉ s.exited)
    (hopen : k.myConnect = true → k.closing = false) (hst : k.status ≠ .me) :
    (s.exitClient c).Filed busy ∧ Progress s (s.exitClient c) ∧ c ∈ (s.exitClient c).exited := by
  have hme : c ≠ me := fun he => hst (h.isMe.of_client (he ▸ hk))
  have hrelaxed : s.Filed fun x => busy x ∨ x = c := h.relax fun x hx => .inl (.inl hx)
  have hbusy' : ∀ x, busy x ∨ x = c → x ≤ c := fun x hx => hx.elim (hbusy x) Nat.le_of_eq
  unfold MainLoop.exitClient
  split
  · rename_i hnone
    rw [hk] at hnone
    cases hnone
  rename_i k' hk'
  cases hk.symm.trans hk'
  rw [if_neg (by
    intro hboth
    obtain ⟨hmy, hcl⟩ := Bool.and_eq_true_iff.mp hboth
    rw [hopen hmy] at hcl
    cases hcl)]
  extract_lets s1 split s2 s3
  have h1 : s1.Filed (fun x => busy x ∨ x = c) ∧ Leaving s s1 c k := by
    dsimp only [s1]
    split
    · obtain ⟨hfiled, hun, hclosed⟩ := hrelaxed.disconnect hk (.inr rfl) hme
      obtain ⟨k1, hk1, hsame, hcl⟩ := hclosed.record k hk
      exact ⟨hfiled, ⟨hclosed.next, hclosed.freed, hclosed.exited ▸ List.Subset.refl _,
        hclosed.aborts⟩, ⟨k1, hk1, hsame, fun _ => hcl⟩, hun, hclosed.exited ▸ hexited⟩
    · rename_i hmy
      have hfits : ∀ {L : ClientList}, c ∈ s.lists L → L.fits k := fun hc =>
        (h.listed _ c hc).of_client hk
      exact ⟨hrelaxed, (Sent.refl s).progress, ⟨k, hk, .refl k, fun htrue => absurd htrue hmy⟩,
        ⟨fun hc => hmy (hfits hc).1, fun hc => hmy (hfits hc).1, fun hc => hmy (hfits hc).1,
          fun hc => hmy (hfits hc).1⟩, hexited⟩
  obtain ⟨hs1, hleaving⟩ := h1
  have h2 : s2.Filed (fun x => busy x ∨ x = c) ∧ Leaving s s2 c k ∧ s2.users c = [] ∧
      s2.servers c = [] := by
    have hnone : ∀ {t : MainLoop}, t.Filed (fun x => busy x ∨ x = c) → Leaving s t c k →
        k.status ≠ .server → t.users c = [] ∧ t.servers c = [] := by
      intro t ht hleaving hserver
      obtain ⟨k', hk', hsame, -⟩ := hleaving.record
      exact ht.no_dependents hk' (hsame.status ▸ hserver) (hsame.status ▸ hst)
    dsimp only [s2, split]
    split
    · rename_i hserver
      obtain ⟨hlt, -, -⟩ := h.parent c k hk hexited (.inr hserver)
      obtain ⟨hsend, hsent⟩ := hs1.send
      have hfuel : s1.send.next ≤ s1.next + c := by
        rw [hsent.next]
        omega
      obtain ⟨hfiled, hunder, hu, hs⟩ := hsend.recurseRemoveClients hbusy' hme hfuel
      have hleft := (hleaving.sent hsent).under hunder hlt
      split
      · obtain ⟨hfiled', hsent'⟩ := hfiled.send
        exact ⟨hfiled', hleft.sent hsent', hsent'.users ▸ hu, hsent'.servers ▸ hs⟩
      · exact ⟨hfiled, hleft, hu, hs⟩
    · rename_i hserver
      split
      · obtain ⟨hfiled, hsent⟩ := hs1.send
        exact ⟨hfiled, hleaving.sent hsent, hnone hfiled (hleaving.sent hsent) hserver⟩
      · exact ⟨hs1, hleaving, hnone hs1 hleaving hserver⟩
  obtain ⟨hs2, hleaving2, hu, hs⟩ := h2
  have hun := hleaving2.unlisted
  have hs3 : s3 = s2 :=
    check_of (decide_eq_true ⟨hun.unknown, hun.localClient, hun.serv, hun.oper⟩) _
  obtain ⟨k2, hk2, hsame, hcl⟩ := hleaving2.record
  have hready : s2.Ready c k2 := ⟨hk2, hsame.status ▸ hst, hleaving2.notExited, hcl, hun.unknown,
    hun.localClient, hun.serv, hun.oper, hu, hs⟩
  obtain ⟨hfiled, hexits⟩ := hs2.exitOneClient hbusy' hready
  have hgone : c ∈ (s2.exitOneClient c).exited := by
    rw [hexits.exited]
    exact List.mem_append_right _ (List.mem_singleton_self c)
  rw [hs3]
  refine ⟨hfiled.relax fun x hx => hx.imp_right ?_, hleaving2.progress.trans ?_, hgone⟩
  · rintro rfl
    exact hgone
  · exact ⟨hexits.next, hexits.freed, hexits.exited ▸ List.subset_append_left _ _, hexits.aborts⟩

end MainLoop

end Unirc
