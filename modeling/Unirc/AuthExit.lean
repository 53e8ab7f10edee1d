import Unirc.AuthInvariant

/-!
# The exit of a client that waits

`delete_auth` takes the request of a client that exits out of both lists and frees it, and leaves
all other requests alone.
-/

namespace Unirc

namespace Auth

namespace State

variable {u v busy : Option ℕ} {s s' : State} {a c : ℕ}

section Exit

variable {auth : Request} {conn : Conn}

theorem dlinkDelete_of_mem {l : List ℕ} (h : a ∈ l) : dlinkDelete l a = l.erase a := if_pos h

theorem mem_erase_of_ne {l : List ℕ} {b : ℕ} (hb : b ≠ a) : b ∈ l.erase a ↔ b ∈ l :=
  List.mem_erase_of_ne hb

theorem filter_query {l : List ℕ} (h : l.Nodup) :
    (l.filter fun b => decide (some b ≠ some a)) = l.erase a := by
  rw [h.erase_eq_filter]
  exact List.filter_congr fun b _ => by by_cases hb : b = a <;> simp [hb]

theorem exists_split {l : List ℕ} (ha : a ∈ l) (hl : l.Nodup) :
    ∃ l₁ l₂, l = l₁ ++ a :: l₂ ∧ ∀ b, b ∈ l₁ ∨ b ∈ l₂ → b ∈ l ∧ b ≠ a := by
  obtain ⟨l₁, l₂, rfl⟩ := List.append_of_mem ha
  refine ⟨l₁, l₂, rfl, fun b hb => ⟨?_, fun he => ?_⟩⟩
  · exact List.mem_append.mpr (hb.imp_right (List.mem_cons_of_mem a))
  · exact (List.nodup_cons.mp (List.nodup_middle.mp hl)).1 (List.mem_append.mpr (he ▸ hb))

/-- The request of a client that exits loses its query. -/
theorem Inv.dropDns (h : Inv u (some a) s) (hauth : s.auths a = some auth)
    (ha : a ∈ s.dnsList) (hconn : s.clients auth.client = some conn)
    (hquery : conn.dnsQuery = some a) (hfree : .freed a ∉ s.log) :
    Inv u (some a) (((s.use (.used a)).dropQuery auth.client).dnsUnlink a) := by
  have hdnsList : (((s.use (.used a)).dropQuery auth.client).dnsUnlink a).dnsList =
      s.dnsList.erase a := dlinkDelete_of_mem ha
  have hqueries : (((s.use (.used a)).dropQuery auth.client).dnsUnlink a).queries =
      s.queries.erase a := by
    rw [← filter_query (h.dns ▸ h.nodupDns)]
    simp [dnsUnlink, dropQuery, use, updClient, queryOf, hconn, hquery]
  refine h.touch hauth ⟨fun _ _ => rfl, ⟨auth, hauth, rfl⟩, rfl, fun d hd => ?_, ?_,
    fun b hb => ?_, fun _ _ => Iff.rfl, fun x hx _ _ _ => ?_⟩ (Or.inr rfl) (fun _ _ => Iff.rfl)
    ?_ h.ident ?_ h.nodupIdent (h.order.used hfree)
  · exact Function.update_of_ne hd _ _
  · simp [dnsUnlink, dropQuery, use, updClient, hconn]
  · rw [hdnsList, mem_erase_of_ne hb]
  · simp [dnsUnlink, dropQuery, use, updClient, hx]
  · rw [hdnsList, hqueries, h.dns]
  · rw [hdnsList]
    exact h.nodupDns.erase a

theorem Inv.freeAuth (h : Inv u busy s) (hbusy : busy = none ∨ busy = some a)
    (hauth : s.auths a = some auth) (hfree : .freed a ∉ s.log)
    (hu : ∀ b, b ≠ a → (v = some b ↔ u = some b)) : Inv v (some a) (s.myFree a) :=
  h.touch hauth ⟨fun _ _ => rfl, ⟨auth, hauth, rfl⟩, rfl, fun _ _ => rfl, h.client a auth hauth,
    fun _ _ => Iff.rfl, fun _ _ => Iff.rfl, fun x _ hx _ _ => by simp [State.myFree, use, hx]⟩
    hbusy hu h.dns h.ident h.nodupDns h.nodupIdent (h.order.freed hfree)

theorem Inv.dropIdent (h : Inv u (some a) s) (hauth : s.auths a = some auth)
    (ha : a ∈ s.identList) (hfree : .freed a ∉ s.log) :
    Inv u (some a) (((s.use (.used a)).fdClose a).identUnlink a) := by
  have hidentList : (((s.use (.used a)).fdClose a).identUnlink a).identList =
      s.identList.erase a := dlinkDelete_of_mem ha
  refine h.touch hauth ⟨fun _ _ => rfl, ⟨auth, hauth, rfl⟩, rfl, fun _ _ => rfl,
    h.client a auth hauth, fun _ _ => Iff.rfl, fun b hb => ?_, fun x hx _ _ _ => ?_⟩ (Or.inr rfl)
    (fun _ _ => Iff.rfl) h.dns ?_ h.nodupDns ?_ (h.order.used hfree)
  · rw [hidentList, mem_erase_of_ne hb]
  · simp [identUnlink, fdClose, use, hx]
  · rw [hidentList, h.ident]
    rfl
  · rw [hidentList]
    exact h.nodupIdent.erase a

/-- The state of `exit_client` while `delete_auth` runs, when it began in the state `s`. -/
structure Exiting (u : Option ℕ) (a : ℕ) (auth : Request) (conn : Conn) (s s' : State) :
    Prop where
  inv : Inv u (some a) s'
  auths : s'.auths = s.auths
  nextAuth : s'.nextAuth = s.nextAuth
  dns : ∀ b, b ≠ a → (b ∈ s'.dnsList ↔ b ∈ s.dnsList)
  ident : ∀ b, b ≠ a → (b ∈ s'.identList ↔ b ∈ s.identList)
  conn : ∃ query, s'.clients auth.client = some { conn with closing := true, dnsQuery := query }
  released : .released auth.client ∈ s'.log ↔ .released auth.client ∈ s.log

namespace Exiting

variable {t : State}

theorem others (h : Exiting u a auth conn s t) (hauth : s.auths a = some auth) {b : ℕ}
    (hb : t.Linked b) (hne : b ≠ a) :
    (∃ authb, t.auths b = some authb ∧ authb.client ≠ auth.client) ∧ b < t.nextAuth ∧
      .freed b ∉ t.log := by
  obtain ⟨authb, hauthb⟩ := h.inv.exists_auth hb
  exact ⟨⟨authb, hauthb, fun he => hne (h.inv.inj b authb a auth hauthb (h.auths ▸ hauth) he)⟩,
    h.inv.linked b hb, h.inv.not_freed hb (by simpa using hne.symm)⟩

theorem looks (h : Exiting u a auth conn s t) (hauth : s.auths a = some auth) {l : List ℕ}
    (hl : ∀ b ∈ l, t.Linked b ∧ b ≠ a) : Exiting u a auth conn s (t.looks l) where
  inv := h.inv.looks fun b hb => (h.others hauth (hl b hb).1 (hl b hb).2).2
  auths := h.auths
  nextAuth := h.nextAuth
  dns := h.dns
  ident := h.ident
  conn := h.conn
  released := by rw [mem_looks_log, ← h.released]; simp

theorem myFree (h : Exiting u a auth conn s t) (hauth : s.auths a = some auth)
    (hfree : .freed a ∉ t.log) : Exiting u a auth conn s (t.myFree a) where
  inv := h.inv.freeAuth (Or.inr rfl) (h.auths ▸ hauth) hfree fun _ _ => Iff.rfl
  auths := h.auths
  nextAuth := h.nextAuth
  dns := h.dns
  ident := h.ident
  conn := h.conn
  released := by rw [← h.released]; simp [State.myFree, use]

theorem dropDns (h : Exiting u a auth conn s t) (hauth : s.auths a = some auth)
    (ha : a ∈ t.dnsList) (hquery : t.queryOf auth.client = some a) (hfree : .freed a ∉ t.log) :
    Exiting u a auth conn s (((t.use (.used a)).dropQuery auth.client).dnsUnlink a) := by
  obtain ⟨query, hconn⟩ := h.conn
  have hq : query = some a := by simpa [queryOf, hconn] using hquery
  refine ⟨h.inv.dropDns (h.auths ▸ hauth) ha hconn hq hfree, h.auths, h.nextAuth, fun b hb => ?_,
    h.ident, ⟨none, ?_⟩, ?_⟩
  · rw [← h.dns b hb]
    change b ∈ dlinkDelete t.dnsList a ↔ _
    rw [dlinkDelete_of_mem ha, mem_erase_of_ne hb]
  · simp [dnsUnlink, dropQuery, use, updClient, hconn]
  · rw [← h.released]
    simp [dnsUnlink, dropQuery, use, updClient]

theorem dropIdent (h : Exiting u a auth conn s t) (hauth : s.auths a = some auth)
    (ha : a ∈ t.identList) (hfree : .freed a ∉ t.log) :
    Exiting u a auth conn s (((t.use (.used a)).fdClose a).identUnlink a) := by
  refine ⟨h.inv.dropIdent (h.auths ▸ hauth) ha hfree, h.auths, h.nextAuth, h.dns, fun b hb => ?_,
    h.conn, ?_⟩
  · rw [← h.ident b hb]
    change b ∈ dlinkDelete t.identList a ↔ _
    rw [dlinkDelete_of_mem ha, mem_erase_of_ne hb]
  · rw [← h.released]
    simp [identUnlink, fdClose, use]

/-- The loop over `auth_doing_dns_list` takes the request out of it, and frees it when it is not on
the other list. -/
theorem deleteAuthDns (h : Exiting u a auth conn s t) (hauth : s.auths a = some auth)
    (ha : a ∈ t.dnsList) (hquery : t.queryOf auth.client = some a) (hfree : .freed a ∉ t.log) :
    ∃ t', deleteAuthDns auth.client t.dnsList t = (t', !auth.doingAuth) ∧
      Exiting u a auth conn s t' ∧ a ∉ t'.dnsList ∧ t'.identList = t.identList ∧
      (.freed a ∈ t'.log ↔ auth.doingAuth = false) := by
  obtain ⟨l₁, l₂, hl, hothers⟩ := exists_split ha h.inv.nodupDns
  have hlinked : ∀ b, b ∈ l₁ ∨ b ∈ l₂ → t.Linked b ∧ b ≠ a := fun b hb =>
    ⟨Or.inl (hothers b hb).1, (hothers b hb).2⟩
  have h₁ := h.looks hauth fun b hb => hlinked b (Or.inl hb)
  have hfree₁ : .freed a ∉ (t.looks l₁).log := by simpa [mem_looks_log] using hfree
  have h₂ := h₁.dropDns hauth ha hquery hfree₁
  have hnot : a ∉ dlinkDelete t.dnsList a := by
    rw [dlinkDelete_of_mem ha]
    exact h.inv.nodupDns.not_mem_erase
  have hfree₂ : .freed a ∉
      ((((t.looks l₁).use (.used a)).dropQuery auth.client).dnsUnlink a).log := by
    simpa [dnsUnlink, dropQuery, use, updClient] using hfree₁
  have hauth₁ : (t.looks l₁).auths a = some auth := h₁.auths ▸ hauth
  rw [hl, deleteAuthDns_append fun b hb => (h.others hauth (hlinked b (Or.inl hb)).1
    (hlinked b (Or.inl hb)).2).1, State.deleteAuthDns, hauth₁]
  cases hdoing : auth.doingAuth with
  | false =>
      refine ⟨_, by simp only [hdoing, ↓reduceIte, Bool.not_false]; rfl, ?_⟩
      exact ⟨h₂.myFree hauth hfree₂, hnot, rfl, by simp [State.myFree, use]⟩
  | true =>
      have hlinked₂ : ∀ b ∈ l₂,
          ((((t.looks l₁).use (.used a)).dropQuery auth.client).dnsUnlink a).Linked b ∧ b ≠ a :=
        fun b hb => ⟨Or.inl (((h₂.dns b (hlinked b (Or.inr hb)).2).trans
          (h.dns b (hlinked b (Or.inr hb)).2).symm).mpr (hothers b (Or.inr hb)).1),
          (hlinked b (Or.inr hb)).2⟩
      refine ⟨_, ?_, h₂.looks hauth hlinked₂, hnot, rfl, ?_⟩
      · simp only [hdoing, ↓reduceIte, Bool.true_eq_false, Bool.not_true]
        exact deleteAuthDns_of_ne fun b hb =>
          (h₂.others hauth (hlinked₂ b hb).1 (hlinked₂ b hb).2).1
      · simpa [mem_looks_log] using hfree₂

/-- The loop over `auth_doing_ident_list` takes the request out of it and frees it. -/
theorem deleteAuthIdent (h : Exiting u a auth conn s t) (hauth : s.auths a = some auth)
    (ha : a ∈ t.identList) (hfree : .freed a ∉ t.log) :
    Exiting u a auth conn s (deleteAuthIdent auth.client t.identList t) ∧
      a ∉ (State.deleteAuthIdent auth.client t.identList t).identList ∧
      (State.deleteAuthIdent auth.client t.identList t).dnsList = t.dnsList ∧
      .freed a ∈ (State.deleteAuthIdent auth.client t.identList t).log := by
  obtain ⟨l₁, l₂, hl, hothers⟩ := exists_split ha h.inv.nodupIdent
  have hlinked : ∀ b, b ∈ l₁ ∨ b ∈ l₂ → t.Linked b ∧ b ≠ a := fun b hb =>
    ⟨Or.inr (hothers b hb).1, (hothers b hb).2⟩
  have h₁ := h.looks hauth fun b hb => hlinked b (Or.inl hb)
  have hfree₁ : .freed a ∉ (t.looks l₁).log := by simpa [mem_looks_log] using hfree
  have h₂ := h₁.dropIdent hauth ha hfree₁
  have hfree₂ : .freed a ∉ ((((t.looks l₁).use (.used a)).fdClose a).identUnlink a).log := by
    simpa [identUnlink, fdClose, use] using hfree₁
  have h₃ := h₂.myFree hauth hfree₂
  have hnot : a ∉ dlinkDelete t.identList a := by
    rw [dlinkDelete_of_mem ha]
    exact h.inv.nodupIdent.not_mem_erase
  have hauth₁ : (t.looks l₁).auths a = some auth := h₁.auths ▸ hauth
  have hlinked₂ : ∀ b ∈ l₂,
      (((((t.looks l₁).use (.used a)).fdClose a).identUnlink a).myFree a).Linked b ∧ b ≠ a :=
    fun b hb => ⟨Or.inr (((h₃.ident b (hlinked b (Or.inr hb)).2).trans
      (h.ident b (hlinked b (Or.inr hb)).2).symm).mpr (hothers b (Or.inr hb)).1),
      (hlinked b (Or.inr hb)).2⟩
  rw [hl, deleteAuthIdent_append fun b hb => (h.others hauth (hlinked b (Or.inl hb)).1
    (hlinked b (Or.inl hb)).2).1, State.deleteAuthIdent, hauth₁]
  simp only [↓reduceIte]
  rw [deleteAuthIdent_of_ne fun b hb => (h₃.others hauth (hlinked₂ b hb).1 (hlinked₂ b hb).2).1]
  exact ⟨h₃.looks hauth hlinked₂, hnot, rfl,
    mem_looks_log.mpr (Or.inl (by simp [State.myFree, use]))⟩

end Exiting

/-- The clients in `cs` have exited, and with them their requests have left the lists. -/
structure Left (cs : List ℕ) (s s' : State) : Prop where
  auths : s'.auths = s.auths
  nextAuth : s'.nextAuth = s.nextAuth
  dns : ∀ b auth, s.auths b = some auth →
    (b ∈ s'.dnsList ↔ b ∈ s.dnsList ∧ auth.client ∉ cs)
  ident : ∀ b auth, s.auths b = some auth →
    (b ∈ s'.identList ↔ b ∈ s.identList ∧ auth.client ∉ cs)

theorem Left.trans {cs cs' : List ℕ} {s'' : State} (h : Left cs s s') (h' : Left cs' s' s'') :
    Left (cs ++ cs') s s'' where
  auths := h'.auths.trans h.auths
  nextAuth := h'.nextAuth.trans h.nextAuth
  dns b auth hb := by
    rw [h'.dns b auth (h.auths ▸ hb), h.dns b auth hb, List.mem_append, not_or, and_assoc]
  ident b auth hb := by
    rw [h'.ident b auth (h.auths ▸ hb), h.ident b auth hb, List.mem_append, not_or, and_assoc]

theorem Left.nil (hauths : s'.auths = s.auths) (hnext : s'.nextAuth = s.nextAuth)
    (hdns : s'.dnsList = s.dnsList) (hident : s'.identList = s.identList) : Left [] s s' :=
  ⟨hauths, hnext, fun _ _ _ => by simp [hdns], fun _ _ _ => by simp [hident]⟩

/-- A client without outstanding queries leaves the lists as they are. -/
theorem Inv.left_of_not_linked (h : Inv u none s) {conn : Conn} (hconn : s.clients c = some conn)
    (hoff : conn.closing = true ∨ conn.unknown = false) : Left [c] s s := by
  have hnot : ∀ b auth, s.auths b = some auth → s.Linked b → auth.client ≠ c := by
    rintro b auth hb hl rfl
    have ht := h.tracks b auth conn hb hconn (by simp)
    obtain hoff | hoff := hoff
    · exact Bool.false_ne_true ((ht.stays hl).1.symm.trans hoff)
    · exact Bool.false_ne_true (hoff.symm.trans (ht.unknown hl))
  refine ⟨rfl, rfl, fun b auth hb => ?_, fun b auth hb => ?_⟩
  · simpa using fun hl => hnot b auth hb (Or.inl hl)
  · simpa using fun hl => hnot b auth hb (Or.inr hl)

/-- The second loop, when the request is not on `auth_doing_dns_list` any more. -/
theorem Exiting.identPart {auth : Request} {conn : Conn} {t : State}
    (h : Exiting u a auth conn s t) (hauth : s.auths a = some auth) (ha : a ∉ t.dnsList)
    (hfree : a ∈ t.identList → .freed a ∉ t.log) :
    Exiting u a auth conn s (State.deleteAuthIdent auth.client t.identList t) ∧
      ¬ (State.deleteAuthIdent auth.client t.identList t).Linked a ∧
      (.freed a ∈ (State.deleteAuthIdent auth.client t.identList t).log ↔
        .freed a ∈ t.log ∨ a ∈ t.identList) := by
  by_cases hident : a ∈ t.identList
  · obtain ⟨hex, hnot, hdns, hfreed⟩ := h.deleteAuthIdent hauth hident (hfree hident)
    exact ⟨hex, fun hl => hl.elim (hdns ▸ ha) hnot, by simp [hfreed, hident]⟩
  · have hne : ∀ b ∈ t.identList, t.Linked b ∧ b ≠ a := fun b hb =>
      ⟨Or.inr hb, fun he => hident (he ▸ hb)⟩
    rw [deleteAuthIdent_of_ne fun b hb => (h.others hauth (hne b hb).1 (hne b hb).2).1]
    exact ⟨h.looks hauth hne, fun hl => hl.elim ha hident, by simp [mem_looks_log, hident]⟩

theorem deleteAuth_of_none {conn : Conn} (hunknown : ¬ conn.unknown = false)
    (hq : conn.dnsQuery = none) :
    s.deleteAuth c conn = State.deleteAuthIdent c s.identList s := by
  simp [State.deleteAuth, hunknown, hq]

theorem deleteAuth_of_eq {conn : Conn} (hunknown : ¬ conn.unknown = false)
    (hq : conn.dnsQuery ≠ none) {returned : Bool}
    (heq : State.deleteAuthDns c s.dnsList s = (s', returned)) :
    s.deleteAuth c conn = if returned then s' else State.deleteAuthIdent c s'.identList s' := by
  simp [State.deleteAuth, hunknown, hq, heq]

/-- What `delete_auth` does for a client that has a request. -/
theorem Exiting.deleteAuth {auth : Request} {conn : Conn} {t : State}
    (h : Exiting u a auth conn s t) (hs : Inv u none s) (hauth : s.auths a = some auth)
    (hconn : s.clients auth.client = some conn) (hu : u = some a → ¬ s.Linked a)
    (ht : t = s.updClient auth.client fun conn => { conn with closing := true }) :
    Exiting u a auth conn s (t.deleteAuth auth.client conn) ∧
      ¬ (t.deleteAuth auth.client conn).Linked a ∧
      (.freed a ∈ (t.deleteAuth auth.client conn).log ↔ u ≠ some a) := by
  have htracks := hs.tracks a auth conn hauth hconn (by simp)
  have hlog : t.log = s.log := by rw [ht]; rfl
  have hdnsList : t.dnsList = s.dnsList := by rw [ht]; rfl
  have hidentList : t.identList = s.identList := by rw [ht]; rfl
  have hlinked : t.Linked a ↔ s.Linked a := by rw [Linked, Linked, hdnsList, hidentList]
  have hfreed : .freed a ∈ t.log ↔ ¬ t.Linked a ∧ u ≠ some a := by
    rw [hlog, hlinked, htracks.freed]
  have hu' : t.Linked a → u ≠ some a := fun hl he => hu he (hlinked.mp hl)
  have hquery : t.queryOf auth.client = conn.dnsQuery := by
    simp [ht, queryOf, updClient, hconn]
  by_cases hunknown : conn.unknown = false
  · have hoff : ¬ t.Linked a := fun hl =>
      Bool.false_ne_true (hunknown.symm.trans (htracks.unknown (hlinked.mp hl)))
    rw [State.deleteAuth, if_pos hunknown]
    exact ⟨h, hoff, by rw [hfreed]; simp [hoff]⟩
  by_cases hdns : a ∈ t.dnsList
  · have hq : conn.dnsQuery = some a := by
      rw [htracks.query (hlinked.mp (Or.inl hdns)), if_pos (hdnsList ▸ hdns)]
    have hne := hu' (Or.inl hdns)
    have hdoing := htracks.doing (hlinked.mp (Or.inl hdns))
    rw [← hidentList] at hdoing
    obtain ⟨t', heq, hex, hnot, hident, hfreed'⟩ := h.deleteAuthDns hauth hdns
      (hquery.trans hq) (by rw [hfreed]; exact fun hf => hf.1 (Or.inl hdns))
    rw [deleteAuth_of_eq hunknown (by simp [hq]) heq]
    cases hd : auth.doingAuth with
    | false =>
        rw [hd] at hdoing hfreed'
        refine ⟨hex, fun hl => hl.elim hnot fun hi => ?_, hfreed'.trans (by simp [hne])⟩
        exact Bool.false_ne_true (hdoing.mpr (hident ▸ hi))
    | true =>
        rw [hd] at hdoing hfreed'
        obtain ⟨hex', hoff, hf⟩ := hex.identPart hauth hnot fun _ => by simp [hfreed']
        refine ⟨hex', hoff, hf.trans ?_⟩
        rw [hident]
        simp [hdoing.mp rfl, hne]
  · have hident : a ∈ t.identList → conn.dnsQuery = none ∧ .freed a ∉ t.log := fun hi => by
      rw [hfreed, htracks.query (hlinked.mp (Or.inr hi)), if_neg (hdnsList ▸ hdns)]
      exact ⟨rfl, fun hf => hf.1 (Or.inr hi)⟩
    have hne : ∀ b ∈ t.dnsList, t.Linked b ∧ b ≠ a := fun b hb =>
      ⟨Or.inl hb, fun he => hdns (he ▸ hb)⟩
    by_cases hq : conn.dnsQuery = none
    · rw [deleteAuth_of_none hunknown hq]
      obtain ⟨hex, hoff, hf⟩ := h.identPart hauth hdns fun hi => (hident hi).2
      refine ⟨hex, hoff, hf.trans ?_⟩
      have hcases : t.Linked a ↔ a ∈ t.identList := or_iff_right hdns
      rw [hcases] at hu'
      rw [hfreed, hcases]
      exact ⟨fun hf => hf.elim And.right hu',
        fun hne => (Decidable.em (a ∈ t.identList)).symm.imp_left fun hi => ⟨hi, hne⟩⟩
    · have hi : a ∉ t.identList := fun hi => hq (hident hi).1
      rw [deleteAuth_of_eq hunknown hq (deleteAuthDns_of_ne fun b hb =>
        (h.others hauth (hne b hb).1 (hne b hb).2).1)]
      obtain ⟨hex, hoff, hf⟩ :=
        (h.looks hauth hne).identPart hauth hdns fun hi' => absurd hi' hi
      refine ⟨hex, hoff, hf.trans ?_⟩
      have hoff' : ¬ t.Linked a := fun hl => hl.elim hdns hi
      rw [mem_looks_log, hfreed]
      change (_ ∨ _) ∨ a ∈ t.identList ↔ _
      simp [hi, hoff']

theorem Inv.exitClient (h : Inv u none s) (hu : ∀ b, u = some b → ¬ s.Linked b) (c : ℕ) :
    Inv u none (s.exitClient c) ∧ Left [c] s (s.exitClient c) := by
  unfold State.exitClient
  split
  · rename_i hnone
    have hne : ∀ b auth, s.auths b = some auth → auth.client ≠ c := by
      rintro b auth hb rfl
      obtain ⟨conn, hconn⟩ := h.client b auth hb
      cases hnone.symm.trans hconn
    exact ⟨h, rfl, rfl, fun b auth hb => by simpa using fun _ => hne b auth hb,
      fun b auth hb => by simpa using fun _ => hne b auth hb⟩
  · rename_i conn hconn
    split
    · rename_i hclosing
      exact ⟨h, h.left_of_not_linked hconn (Or.inl hclosing)⟩
    · obtain ⟨a, auth, hauth, rfl⟩ := h.owner c conn hconn
      have htracks := h.tracks a auth conn hauth hconn (by simp)
      have hstart : Exiting u a auth conn s
          (s.updClient auth.client fun conn => { conn with closing := true }) :=
        ⟨h.touch hauth ⟨fun _ _ => rfl, ⟨auth, hauth, rfl⟩, rfl,
          fun d hd => Function.update_of_ne hd _ _, by simp [updClient, hconn],
          fun _ _ => Iff.rfl, fun _ _ => Iff.rfl, fun _ _ _ _ _ => Iff.rfl⟩ (Or.inl rfl)
          (fun _ _ => Iff.rfl) h.dns h.ident h.nodupDns h.nodupIdent h.order, rfl, rfl,
          fun _ _ => Iff.rfl, fun _ _ => Iff.rfl, ⟨conn.dnsQuery, by simp [updClient, hconn]⟩,
          Iff.rfl⟩
      obtain ⟨hex, hoff, hfreed⟩ := hstart.deleteAuth h hauth hconn (hu a) rfl
      generalize State.deleteAuth _ _ _ = t at hex hoff hfreed ⊢
      have hoff' : ¬ (t.use (.exited auth.client)).Linked a := hoff
      obtain ⟨query, hconn'⟩ := hex.conn
      have hauth' := hex.auths ▸ hauth
      refine ⟨Inv.rest (hex.inv.touch (v := u) hauth' ⟨fun _ _ => rfl, ⟨auth, hauth', rfl⟩, rfl,
        fun _ _ => rfl, ⟨_, hconn'⟩, fun _ _ => Iff.rfl, fun _ _ => Iff.rfl,
        fun x _ _ _ hx => by simp [use, hx]⟩ (Or.inr rfl) (fun _ _ => Iff.rfl) hex.inv.dns
        hex.inv.ident hex.inv.nodupDns hex.inv.nodupIdent (hex.inv.order.exited _)) hauth' hconn'
        ?_,
        hex.auths, hex.nextAuth, fun b authb hb => ?_, fun b authb hb => ?_⟩
      · have hreleased := hex.released.trans htracks.released
        exact ⟨fun hl => absurd hl hoff', fun hl => absurd hl hoff', fun hl => absurd hl hoff',
          fun hl => absurd hl hoff', fun hl => absurd hl hoff', fun hl => absurd hl hoff',
          fun _ => Or.inl rfl, by rw [and_iff_right hoff']; simpa [use] using hfreed,
          by simpa [use] using hreleased,
          by simp [use]⟩
      · by_cases hba : b = a
        · subst hba
          obtain rfl := Option.some.inj (hb.symm.trans hauth)
          simpa using fun hl => hoff' (Or.inl hl)
        · rw [List.mem_singleton, ← hex.dns b hba]
          exact ⟨fun hl => ⟨hl, fun he => hba (h.inj b authb a auth hb hauth he)⟩, And.left⟩
      · by_cases hba : b = a
        · subst hba
          obtain rfl := Option.some.inj (hb.symm.trans hauth)
          simpa using fun hl => hoff' (Or.inr hl)
        · rw [List.mem_singleton, ← hex.ident b hba]
          exact ⟨fun hl => ⟨hl, fun he => hba (h.inj b authb a auth hb hauth he)⟩, And.left⟩

end Exit

section Packet

/-- A change of a client that keeps what its request depends on. -/
theorem Inv.changeClient (h : Inv u none s) {f : Conn → Conn}
    (hf : ∀ conn, s.clients c = some conn → (f conn).closing = conn.closing ∧
      (f conn).finishedAuth = conn.finishedAuth ∧ (f conn).dnsQuery = conn.dnsQuery ∧
      (conn.finishedAuth = false → (f conn).unknown = conn.unknown)) :
    Inv u none (s.updClient c f) := by
  cases hconn : s.clients c with
  | none =>
      have heq : s.updClient c f = s := by
        simp only [State.updClient, hconn, Option.map_none]
        rw [← hconn, Function.update_eq_self]
      rwa [heq]
  | some conn =>
      obtain ⟨a, auth, hauth, rfl⟩ := h.owner c conn hconn
      obtain ⟨hclosing, hfinished, hquery, hunknown⟩ := hf conn hconn
      have htracks := h.tracks a auth conn hauth hconn (by simp)
      have hconn' : (s.updClient auth.client f).clients auth.client = some (f conn) := by
        simp [State.updClient, hconn]
      refine Inv.rest (h.touch (v := u) hauth ⟨fun _ _ => rfl, ⟨auth, hauth, rfl⟩, rfl,
        fun d hd => Function.update_of_ne hd _ _, ⟨_, hconn'⟩, fun _ _ => Iff.rfl,
        fun _ _ => Iff.rfl, fun _ _ _ _ _ => Iff.rfl⟩ (Or.inl rfl) (fun _ _ => Iff.rfl) h.dns
        h.ident h.nodupDns h.nodupIdent h.order) hauth hconn' ?_
      exact
        { htracks with
          unknown := fun hl => (hunknown (htracks.stays hl).2).trans (htracks.unknown hl)
          stays := fun hl => by rw [hclosing, hfinished]; exact htracks.stays hl
          query := fun hl => hquery.trans (htracks.query hl)
          leaves := fun hl => by rw [hclosing, hfinished]; exact htracks.leaves hl
          released := htracks.released.trans (by rw [hfinished])
          exited := htracks.exited.trans (by rw [hclosing]) }

theorem Inv.register (h : Inv u none s) (c : ℕ) : Inv u none (s.register c) := by
  refine h.changeClient fun conn _ => ?_
  split
  · rename_i hif
    exact ⟨rfl, rfl, rfl, fun hf => absurd (hf.symm.trans hif.1) Bool.false_ne_true⟩
  · exact ⟨rfl, rfl, rfl, fun _ => rfl⟩

/-- The clients that a packet makes exit. -/
def exits (actions : List Action) : List ℕ :=
  actions.filterMap fun
    | .exit c => some c
    | .register _ => none

/-- What a packet does keeps the invariant, and the requests of the clients that exit leave the
lists. -/
theorem Inv.acts (h : Inv u none s) (hu : ∀ b, u = some b → ¬ s.Linked b) (actions : List Action) :
    Inv u none (actions.foldl act s) ∧ Left (exits actions) s (actions.foldl act s) := by
  induction actions generalizing s with
  | nil => exact ⟨h, Left.nil rfl rfl rfl rfl⟩
  | cons action actions ih =>
      have hstep : Inv u none (s.act action) ∧ Left (exits [action]) s (s.act action) := by
        cases action with
        | exit c => exact h.exitClient hu c
        | register c => exact ⟨h.register c, Left.nil rfl rfl rfl rfl⟩
      obtain ⟨hinv, hleft⟩ := hstep
      have hu' : ∀ b, u = some b → ¬ (s.act action).Linked b := by
        intro b hb hl
        obtain ⟨auth, hauth⟩ := hinv.exists_auth hl
        rw [hleft.auths] at hauth
        refine hu b hb (hl.imp (fun hd => ((hleft.dns b auth hauth).mp hd).1)
          fun hi => ((hleft.ident b auth hauth).mp hi).1)
      obtain ⟨hinv', hleft'⟩ := ih hinv hu'
      refine ⟨hinv', ?_⟩
      rw [← List.singleton_append, exits, List.filterMap_append]
      exact hleft.trans hleft'

end Packet

end State

end Auth

end Unirc
