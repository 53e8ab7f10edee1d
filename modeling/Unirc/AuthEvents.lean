import Unirc.AuthExit

/-!
# The end of a query

An answer of the resolver, news from the ident server and the timeout end a query each. Whoever ends
the last one releases the client and frees the request.
-/

namespace Unirc

namespace Auth

namespace State

variable {u v busy : Option ℕ} {s s' : State} {a c : ℕ}

section Events

variable {auth : Request} {conn : Conn} (packets : Packets)

/-- `release_auth_client` before it reads what the client has sent. -/
def released (s : State) (c : ℕ) : State :=
  (s.updClient c fun conn => { conn with finishedAuth := true }).use (.released c)

theorem Inv.released (h : Inv u (some a) s) (hauth : s.auths a = some auth)
    (hconn : s.clients auth.client = some conn) (hclosing : conn.closing = false)
    (hoff : ¬ s.Linked a) (hfreed : .freed a ∈ s.log ↔ u ≠ some a)
    (hreleased : .released auth.client ∉ s.log) (hexited : .exited auth.client ∉ s.log) :
    Inv u none (s.released auth.client) := by
  have hconn' : (s.released auth.client).clients auth.client =
      some { conn with finishedAuth := true } := by
    simp [State.released, State.updClient, use, hconn]
  have hoff' : ¬ (s.released auth.client).Linked a := hoff
  refine Inv.rest (h.touch (v := u) hauth ⟨fun _ _ => rfl, ⟨auth, hauth, rfl⟩, rfl,
    fun d hd => Function.update_of_ne hd _ _, ⟨_, hconn'⟩, fun _ _ => Iff.rfl, fun _ _ => Iff.rfl,
    fun x _ _ hx _ => by simp [State.released, State.updClient, use, hx]⟩ (Or.inr rfl)
    (fun _ _ => Iff.rfl) h.dns h.ident h.nodupDns h.nodupIdent
    (h.order.released hreleased hexited)) hauth hconn' ?_
  exact ⟨fun hl => absurd hl hoff', fun hl => absurd hl hoff', fun hl => absurd hl hoff',
    fun hl => absurd hl hoff', fun hl => absurd hl hoff', fun hl => absurd hl hoff',
    fun _ => Or.inr rfl, by rw [and_iff_right hoff']; simpa [State.released, State.updClient, use],
    by simp [State.released, State.updClient, use],
    by simpa [State.released, State.updClient, use, hclosing] using hexited⟩

theorem Inv.unfreed (h : Inv none (some a) s) (u : Option ℕ) (hu : u = none ∨ u = some a) :
    Inv u (some a) s where
  __ := h
  tracks b authb connb hb hcb hne :=
    { h.tracks b authb connb hb hcb hne with
      freed := by
        rw [(h.tracks b authb connb hb hcb hne).freed]
        obtain rfl | rfl := hu
        · rfl
        · simp [hne] }

/-- A query of a request has come to an end. -/
structure Closes (a : ℕ) (auth : Request) (s t : State) : Prop where
  auths : ∀ b, b ≠ a → t.auths b = s.auths b
  own : ∃ auth', t.auths a = some auth' ∧ auth'.client = auth.client
  nextAuth : t.nextAuth = s.nextAuth
  clients : ∀ d, d ≠ auth.client → t.clients d = s.clients d
  conn : ∃ conn, t.clients auth.client = some conn ∧ conn.closing = false ∧
    conn.finishedAuth = false
  dnsList : t.dnsList = s.dnsList ∨ a ∈ s.dnsList ∧ t.dnsList = s.dnsList.erase a
  queries : t.queries = t.dnsList
  identList : t.identList = s.identList ∨ a ∈ s.identList ∧ t.identList = s.identList.erase a
  idents : t.idents = t.identList
  log : t.log = s.log ++ [.used a]

namespace Closes

variable {t : State}

theorem mem_dnsList (h : Closes a auth s t) {b : ℕ} (hb : b ≠ a) :
    b ∈ t.dnsList ↔ b ∈ s.dnsList := by
  obtain heq | ⟨-, heq⟩ := h.dnsList
  · rw [heq]
  · rw [heq, mem_erase_of_ne hb]

theorem mem_identList (h : Closes a auth s t) {b : ℕ} (hb : b ≠ a) :
    b ∈ t.identList ↔ b ∈ s.identList := by
  obtain heq | ⟨-, heq⟩ := h.identList
  · rw [heq]
  · rw [heq, mem_erase_of_ne hb]

theorem inv (h : Closes a auth s t) (hs : Inv none none s) (hauth : s.auths a = some auth)
    (ha : s.Linked a) : Inv none (some a) t := by
  obtain ⟨conn, hconn, -⟩ := h.conn
  refine hs.touch hauth ⟨h.auths, h.own, h.nextAuth, h.clients, ⟨conn, hconn⟩,
    fun b hb => h.mem_dnsList hb, fun b hb => h.mem_identList hb,
    fun x hx _ _ _ => by rw [h.log]; simp [hx]⟩ (Or.inl rfl) (fun _ _ => Iff.rfl) h.queries.symm
    h.idents.symm ?_ ?_ ?_
  · obtain heq | ⟨-, heq⟩ := h.dnsList
    · exact heq ▸ hs.nodupDns
    · exact heq ▸ hs.nodupDns.erase a
  · obtain heq | ⟨-, heq⟩ := h.identList
    · exact heq ▸ hs.nodupIdent
    · exact heq ▸ hs.nodupIdent.erase a
  · rw [h.log]
    exact hs.order.used (hs.not_freed ha (by simp))

theorem not_mem_log (h : Closes a auth s t) (hs : Inv none none s) (hauth : s.auths a = some auth)
    (ha : s.Linked a) : .freed a ∉ t.log ∧ .released auth.client ∉ t.log ∧
      .exited auth.client ∉ t.log := by
  obtain ⟨conn, hconn⟩ := hs.client a auth hauth
  have htracks := hs.tracks a auth conn hauth hconn (by simp)
  obtain ⟨hclosing, hfinished⟩ := htracks.stays ha
  have hfree := hs.not_freed ha (by simp)
  have hreleased : .released auth.client ∉ s.log := by simp [htracks.released, hfinished]
  have hexited : .exited auth.client ∉ s.log := by simp [htracks.exited, hclosing]
  simp [h.log, hfree, hreleased, hexited]

/-- The client is released, and the request freed after that. -/
theorem releaseAuthClient_myFree (h : Closes a auth s t) (hs : Inv none none s)
    (hauth : s.auths a = some auth) (ha : s.Linked a) (hoff : ¬ t.Linked a) :
    Inv none none ((t.releaseAuthClient packets auth.client).myFree a) ∧
      Left (exits (packets auth.client)) t
        ((t.releaseAuthClient packets auth.client).myFree a) := by
  obtain ⟨auth', hauth', hclient'⟩ := h.own
  obtain ⟨conn, hconn, hclosing, hfinished⟩ := h.conn
  obtain ⟨hfree, hreleased, hexited⟩ := h.not_mem_log hs hauth ha
  rw [← hclient'] at hconn hreleased hexited ⊢
  have hm := ((h.inv hs hauth ha).unfreed (some a) (Or.inr rfl)).released hauth' hconn hclosing hoff
    (by simp [hfree]) hreleased hexited
  have hoff' : ¬ (t.released auth'.client).Linked a := hoff
  have hu : ∀ b, some a = some b → ¬ (t.released auth'.client).Linked b := by
    rintro b he
    rwa [← Option.some.inj he]
  obtain ⟨hinv, hleft⟩ := hm.acts hu (packets auth'.client)
  have hr : (packets auth'.client).foldl act (t.released auth'.client) =
    t.releaseAuthClient packets auth'.client := rfl
  rw [hr] at hinv hleft
  generalize t.releaseAuthClient packets auth'.client = r at hinv hleft ⊢
  have hauth₂ : r.auths a = some auth' := hleft.auths ▸ hauth'
  obtain ⟨conn₂, hconn₂⟩ := hinv.client a auth' hauth₂
  have htracks := hinv.tracks a auth' conn₂ hauth₂ hconn₂ (by simp)
  have hoff₂ : ¬ (r.myFree a).Linked a := fun hl =>
    hoff' (hl.imp (fun hd => ((hleft.dns a auth' hauth').mp hd).1)
      fun hi => ((hleft.ident a auth' hauth').mp hi).1)
  have hfree₂ : .freed a ∉ r.log := fun hf => (htracks.freed.mp hf).2 rfl
  refine ⟨Inv.rest (hinv.freeAuth (v := none) (Or.inl rfl) hauth₂ hfree₂
    fun b hb => by simpa using hb.symm) hauth₂ hconn₂ ?_, hleft.auths, hleft.nextAuth, hleft.dns,
    hleft.ident⟩
  exact
    { htracks with
      freed := by
        rw [and_iff_right hoff₂]
        simp [State.myFree, use]
      released := by simpa [State.myFree, use] using htracks.released
      exited := by simpa [State.myFree, use] using htracks.exited }

/-- The request is freed, and the client released after that. -/
theorem myFree_releaseAuthClient (h : Closes a auth s t) (hs : Inv none none s)
    (hauth : s.auths a = some auth) (ha : s.Linked a) (hoff : ¬ t.Linked a) :
    Inv none none ((t.myFree a).releaseAuthClient packets auth.client) := by
  obtain ⟨auth', hauth', hclient'⟩ := h.own
  obtain ⟨conn, hconn, hclosing, hfinished⟩ := h.conn
  obtain ⟨hfree, hreleased, hexited⟩ := h.not_mem_log hs hauth ha
  rw [← hclient'] at hconn hreleased hexited ⊢
  have hfreed : Inv none (some a) (t.myFree a) :=
    (h.inv hs hauth ha).freeAuth (Or.inr rfl) hauth' hfree fun _ _ => Iff.rfl
  have hm := hfreed.released hauth' hconn hclosing hoff (by simp [State.myFree, use])
    (by simpa [State.myFree, use] using hreleased) (by simpa [State.myFree, use] using hexited)
  exact (hm.acts (by simp) (packets auth'.client)).1

/-- The request still waits for its other query. -/
theorem waits (h : Closes a auth s t) (hs : Inv none none s) (hauth : s.auths a = some auth)
    (ha : s.Linked a) (hstill : t.Linked a)
    (hown : ∀ auth', t.auths a = some auth' → auth'.crit = auth.crit ∧
      (auth'.dnsPending = true ↔ a ∈ t.dnsList) ∧ (auth'.doingAuth = true ↔ a ∈ t.identList))
    (hclient : ∀ conn conn', s.clients auth.client = some conn →
      t.clients auth.client = some conn' → conn'.unknown = conn.unknown ∧
        conn'.dnsQuery = if a ∈ t.dnsList then some a else none) : Inv none none t := by
  obtain ⟨auth', hauth', hclient'⟩ := h.own
  obtain ⟨conn', hconn', hclosing, hfinished⟩ := h.conn
  obtain ⟨conn, hconn⟩ := hs.client a auth hauth
  have htracks := hs.tracks a auth conn hauth hconn (by simp)
  obtain ⟨hfree, hreleased, hexited⟩ := h.not_mem_log hs hauth ha
  obtain ⟨hcrit, hpending, hdoing⟩ := hown auth' hauth'
  obtain ⟨hunknown, hquery⟩ := hclient conn conn' hconn hconn'
  rw [← hclient'] at hreleased hexited
  refine (h.inv hs hauth ha).rest hauth' (hclient'.symm ▸ hconn') ?_
  exact ⟨fun _ => hpending, fun _ => hdoing, fun _ => hcrit.trans (htracks.crit ha),
    fun _ => hunknown.trans (htracks.unknown ha), fun _ => ⟨hclosing, hfinished⟩, fun _ => hquery,
    fun hl => absurd hstill hl, by simp [hfree, hstill], by simp [hreleased, hfinished],
    by simp [hexited, hclosing]⟩

end Closes

/-- The changes of a client that its request does not depend on. -/
structure Cosmetic (f : Conn → Conn) : Prop where
  unknown : ∀ conn, (f conn).unknown = conn.unknown
  closing : ∀ conn, (f conn).closing = conn.closing
  finishedAuth : ∀ conn, (f conn).finishedAuth = conn.finishedAuth
  dnsQuery : ∀ conn, (f conn).dnsQuery = conn.dnsQuery

theorem Cosmetic.header (header : Header) :
    Cosmetic fun conn => { conn with headers := conn.headers ++ [header] } :=
  ⟨fun _ => rfl, fun _ => rfl, fun _ => rfl, fun _ => rfl⟩

theorem Cosmetic.comp {f g : Conn → Conn} (hf : Cosmetic f) (hg : Cosmetic g) :
    Cosmetic (g ∘ f) :=
  ⟨fun conn => (hg.unknown _).trans (hf.unknown conn),
    fun conn => (hg.closing _).trans (hf.closing conn),
    fun conn => (hg.finishedAuth _).trans (hf.finishedAuth conn),
    fun conn => (hg.dnsQuery _).trans (hf.dnsQuery conn)⟩

theorem Cosmetic.takeReply (reply : Option DnsReply) :
    Cosmetic fun conn => takeReply conn reply := by
  cases reply with
  | none => exact Cosmetic.header .failDns
  | some reply =>
      constructor <;> intro conn <;> simp only [State.takeReply] <;> split_ifs <;> rfl

theorem updClient_updClient (f g : Conn → Conn) :
    (s.updClient c f).updClient c g = s.updClient c (g ∘ f) := by
  simp [updClient, Option.map_map]

/-- `auth_dns_callback` before it looks at the ident query. -/
def answered (s : State) (a c : ℕ) (reply : Option DnsReply) : State :=
  (((({ s with queries := s.queries.erase a } : State).use (.used a)).dnsUnlink a).updAuth a
    fun auth => { auth with dnsPending := false }).updClient c
      ((fun conn => { conn with dnsQuery := none }) ∘ fun conn => takeReply conn reply)

theorem authDnsCallback_eq (hauth : s.auths a = some auth) (reply : Option DnsReply) :
    ({ s with queries := s.queries.erase a } : State).authDnsCallback packets a reply =
      if auth.doingAuth then s.answered a auth.client reply
      else ((s.answered a auth.client reply).myFree a).releaseAuthClient packets auth.client := by
  simp only [authDnsCallback, hauth, updClient_updClient]
  rfl

theorem Inv.closes_answered (h : Inv none none s) (ha : a ∈ s.dnsList)
    (hauth : s.auths a = some auth) (reply : Option DnsReply) :
    Closes a auth s (s.answered a auth.client reply) := by
  obtain ⟨conn, hconn⟩ := h.client a auth hauth
  obtain ⟨hclosing, hfinished⟩ := (h.tracks a auth conn hauth hconn (by simp)).stays (Or.inl ha)
  have hdnsList : (s.answered a auth.client reply).dnsList = s.dnsList.erase a :=
    dlinkDelete_of_mem ha
  refine ⟨fun b hb => Function.update_of_ne hb _ _, ⟨{ auth with dnsPending := false }, ?_, rfl⟩,
    rfl, fun d hd => Function.update_of_ne hd _ _,
    ⟨{ takeReply conn reply with dnsQuery := none }, ?_,
      ((Cosmetic.takeReply reply).closing conn).trans hclosing,
      ((Cosmetic.takeReply reply).finishedAuth conn).trans hfinished⟩, Or.inr ⟨ha, hdnsList⟩, ?_,
    Or.inl rfl, h.ident.symm, rfl⟩
  · simp [answered, updAuth, updClient, dnsUnlink, use, hauth]
  · simp [answered, updAuth, updClient, dnsUnlink, use, hconn]
  · rw [hdnsList, h.dns]
    rfl

/-- The resolver has answered. -/
theorem Inv.authDnsCallback (h : Inv none none s) (ha : a ∈ s.queries) (reply : Option DnsReply) :
    Inv none none
      (({ s with queries := s.queries.erase a } : State).authDnsCallback packets a reply) := by
  have hdns : a ∈ s.dnsList := h.dns ▸ ha
  have hlinked : s.Linked a := Or.inl hdns
  obtain ⟨auth, hauth⟩ := h.exists_auth hlinked
  obtain ⟨conn, hconn⟩ := h.client a auth hauth
  have htracks := h.tracks a auth conn hauth hconn (by simp)
  have hcloses := h.closes_answered hdns hauth reply
  have hnot : a ∉ (s.answered a auth.client reply).dnsList := by
    have hdnsList : (s.answered a auth.client reply).dnsList = s.dnsList.erase a :=
      dlinkDelete_of_mem hdns
    rw [hdnsList]
    exact h.nodupDns.not_mem_erase
  have hdoing := htracks.doing hlinked
  rw [authDnsCallback_eq packets hauth]
  cases hd : auth.doingAuth with
  | false =>
      rw [hd] at hdoing
      refine hcloses.myFree_releaseAuthClient packets h hauth hlinked fun hl => ?_
      exact hl.elim hnot fun hi => Bool.false_ne_true (hdoing.mpr hi)
  | true =>
      rw [hd] at hdoing
      refine hcloses.waits h hauth hlinked (Or.inr (hdoing.mp rfl)) (fun auth' hauth' => ?_)
        fun conn' conn'' hconn' hconn'' => ?_
      · have he : auth' = { auth with dnsPending := false } := by
          simpa [answered, updAuth, updClient, dnsUnlink, use, hauth, eq_comm] using hauth'
        rw [he]
        exact ⟨rfl, by simp [hnot], iff_of_true hd (hdoing.mp rfl)⟩
      · have he : conn'' = { takeReply conn' reply with dnsQuery := none } := by
          simpa [answered, updAuth, updClient, dnsUnlink, use, hconn', eq_comm] using hconn''
        rw [he, if_neg hnot]
        exact ⟨(Cosmetic.takeReply reply).unknown conn', rfl⟩

/-- `auth_error` and `read_auth_reply` before they look at the other query. -/
theorem Inv.closes_identClose (h : Inv none none s) (ha : a ∈ s.identList)
    (hauth : s.auths a = some auth) {f : Conn → Conn} (hf : Cosmetic f) :
    Closes a auth s ((s.identClose a).updClient auth.client f) := by
  obtain ⟨conn, hconn⟩ := h.client a auth hauth
  obtain ⟨hclosing, hfinished⟩ := (h.tracks a auth conn hauth hconn (by simp)).stays (Or.inr ha)
  have hidentList : ((s.identClose a).updClient auth.client f).identList = s.identList.erase a :=
    dlinkDelete_of_mem ha
  refine ⟨fun b hb => Function.update_of_ne hb _ _, ⟨{ auth with doingAuth := false }, ?_, rfl⟩,
    rfl, fun d hd => Function.update_of_ne hd _ _, ⟨f conn, ?_, (hf.closing conn).trans hclosing,
      (hf.finishedAuth conn).trans hfinished⟩, Or.inl rfl, h.dns.symm, Or.inr ⟨ha, hidentList⟩, ?_,
    rfl⟩
  · simp [identClose, identUnlink, fdClose, updAuth, updClient, use, hauth]
  · simp [identClose, identUnlink, fdClose, updAuth, updClient, use, hconn]
  · rw [hidentList, h.ident]
    rfl

theorem Inv.identDone (h : Inv none none s) (ha : a ∈ s.identList)
    (hauth : s.auths a = some auth) {f : Conn → Conn} (hf : Cosmetic f) :
    Inv none none
      (((s.identClose a).updClient auth.client f).identDone packets a auth) := by
  have hlinked : s.Linked a := Or.inr ha
  obtain ⟨conn, hconn⟩ := h.client a auth hauth
  have htracks := h.tracks a auth conn hauth hconn (by simp)
  have hcloses := h.closes_identClose ha hauth hf
  have hnot : a ∉ ((s.identClose a).updClient auth.client f).identList := by
    have hidentList : ((s.identClose a).updClient auth.client f).identList =
        s.identList.erase a := dlinkDelete_of_mem ha
    rw [hidentList]
    exact h.nodupIdent.not_mem_erase
  have hpending := htracks.pending hlinked
  unfold State.identDone
  cases hp : auth.dnsPending with
  | false =>
      rw [hp] at hpending
      rw [if_pos ⟨rfl, htracks.crit hlinked⟩]
      refine (hcloses.releaseAuthClient_myFree packets h hauth hlinked fun hl => ?_).1
      exact hl.elim (fun hd => Bool.false_ne_true (hpending.mpr hd)) hnot
  | true =>
      rw [hp] at hpending
      rw [if_neg (by simp)]
      refine hcloses.waits h hauth hlinked (Or.inl (hpending.mp rfl)) (fun auth' hauth' => ?_)
        fun conn' conn'' hconn' hconn'' => ?_
      · have he : auth' = { auth with doingAuth := false } := by
          simpa [identClose, identUnlink, fdClose, updAuth, updClient, use, hauth, eq_comm]
            using hauth'
        rw [he]
        exact ⟨rfl, iff_of_true hp (hpending.mp rfl), by simp [hnot]⟩
      · obtain rfl := Option.some.inj (hconn'.symm.trans hconn)
        have he : conn'' = f conn' := by
          simpa [identClose, identUnlink, fdClose, updAuth, updClient, use, hconn', eq_comm]
            using hconn''
        rw [he, hf.unknown, hf.dnsQuery]
        exact ⟨rfl, htracks.query hlinked⟩

theorem Inv.useAuth (h : Inv u none s) (ha : s.Linked a) : Inv u none (s.use (.used a)) :=
  h.looks (l := [a]) fun b hb => by
    rw [List.mem_singleton.mp hb]
    exact ⟨h.linked a ha, h.not_freed ha (by simp)⟩

theorem Inv.authError (h : Inv none none s) (ha : a ∈ s.identList)
    (hauth : s.auths a = some auth) : Inv none none (s.authError packets a auth) :=
  h.identDone packets ha hauth (Cosmetic.header .failId)

theorem Inv.readAuthReply (h : Inv none none s) (ha : a ∈ s.identList)
    (hauth : s.auths a = some auth) (read : Read) :
    Inv none none (s.readAuthReply packets a auth read) := by
  have hused := h.useAuth (Or.inr ha)
  cases read with
  | ignored => exact hused
  | failed => exact hused.authError packets ha hauth
  | data buf =>
      unfold State.readAuthReply
      dsimp only
      split
      · exact h.identDone packets ha hauth (Cosmetic.header .failId)
      · rw [sendheader, updClient_updClient, updClient_updClient]
        refine h.identDone packets ha hauth (Cosmetic.comp ?_
          (Cosmetic.comp (Cosmetic.header .finId) ?_)) <;>
          exact ⟨fun _ => rfl, fun _ => rfl, fun _ => rfl, fun _ => rfl⟩

theorem Inv.authConnectCallback (h : Inv none none s) (ha : a ∈ s.identList)
    (hauth : s.auths a = some auth) (result : Connected) :
    Inv none none (s.authConnectCallback packets a auth result) := by
  have hused := h.useAuth (Or.inr ha)
  cases result with
  | error => exact h.authError packets ha hauth
  | noName => exact hused.authError packets ha hauth
  | notSent => exact hused.authError packets ha hauth
  | sent read => exact hused.readAuthReply packets ha hauth read

/-- The state of the loop of `timeout_auth_queries_event` when it releases a client. -/
def timedOut (s : State) (a : ℕ) (auth : Request) : State :=
  let s := ((s.use (.used a)).fdClose a).sendheader auth.client .failId
  let s := if auth.dnsPending then
      ((s.dnsUnlink a).dropQuery auth.client).sendheader auth.client .failDns
    else s
  s.identUnlink a

theorem timedOut_of_not_pending (hp : auth.dnsPending = false) :
    s.timedOut a auth = (((s.use (.used a)).fdClose a).identUnlink a).updClient auth.client
      fun conn => { conn with headers := conn.headers ++ [.failId] } := by
  simp only [timedOut, hp, Bool.false_eq_true, if_false]
  rfl

theorem timedOut_of_pending (hp : auth.dnsPending = true)
    (hconn : s.clients auth.client = some conn) (hquery : conn.dnsQuery = some a)
    (hnodup : s.queries.Nodup) :
    s.timedOut a auth = (({ s.use (.used a) with
      dnsList := dlinkDelete s.dnsList a
      queries := s.queries.erase a
      identList := dlinkDelete s.identList a
      idents := s.idents.erase a } : State).updClient auth.client fun conn =>
        { conn with dnsQuery := none, headers := conn.headers ++ [.failId] ++ [.failDns] }) := by
  simp [timedOut, hp, identUnlink, dropQuery, dnsUnlink, fdClose, sendheader, updClient, use,
    queryOf, hconn, hquery, ← filter_query hnodup]

theorem Inv.closes_timedOut (h : Inv none none s) (ha : a ∈ s.identList)
    (hauth : s.auths a = some auth) :
    Closes a auth s (s.timedOut a auth) ∧ ¬ (s.timedOut a auth).Linked a := by
  obtain ⟨conn, hconn⟩ := h.client a auth hauth
  have htracks := h.tracks a auth conn hauth hconn (by simp)
  obtain ⟨hclosing, hfinished⟩ := htracks.stays (Or.inr ha)
  have hpending := htracks.pending (Or.inr ha)
  have hquery := htracks.query (Or.inr ha)
  have hnot := h.nodupIdent.not_mem_erase (a := a)
  have hident : dlinkDelete s.identList a = s.identList.erase a := dlinkDelete_of_mem ha
  cases hp : auth.dnsPending with
  | false =>
      have hdns : a ∉ s.dnsList := fun hd => by
        rw [hp] at hpending
        exact Bool.false_ne_true (hpending.mpr hd)
      rw [timedOut_of_not_pending hp]
      refine ⟨⟨fun _ _ => rfl, ⟨auth, hauth, rfl⟩, rfl, fun d hd => Function.update_of_ne hd _ _,
        ⟨{ conn with headers := conn.headers ++ [.failId] }, ?_, hclosing, hfinished⟩, Or.inl rfl,
        h.dns.symm, Or.inr ⟨ha, hident⟩, ?_, rfl⟩, fun hl => hl.elim hdns ?_⟩
      · simp [updClient, identUnlink, fdClose, use, hconn]
      · change s.idents.erase a = dlinkDelete s.identList a
        rw [hident, h.ident]
      · change a ∉ dlinkDelete s.identList a
        rwa [hident]
  | true =>
      have hdns : a ∈ s.dnsList := hpending.mp hp
      rw [if_pos hdns] at hquery
      have hdnsList : dlinkDelete s.dnsList a = s.dnsList.erase a := dlinkDelete_of_mem hdns
      rw [timedOut_of_pending hp hconn hquery (h.dns ▸ h.nodupDns)]
      refine ⟨⟨fun _ _ => rfl, ⟨auth, hauth, rfl⟩, rfl, fun d hd => Function.update_of_ne hd _ _,
        ⟨{ conn with dnsQuery := none, headers := conn.headers ++ [.failId] ++ [.failDns] }, ?_,
          hclosing, hfinished⟩, Or.inr ⟨hdns, hdnsList⟩, ?_, Or.inr ⟨ha, hident⟩, ?_, rfl⟩,
        fun hl => ?_⟩
      · simp [updClient, use, hconn]
      · change s.queries.erase a = dlinkDelete s.dnsList a
        rw [hdnsList, h.dns]
      · change s.idents.erase a = dlinkDelete s.identList a
        rw [hident, h.ident]
      · change a ∈ dlinkDelete s.dnsList a ∨ a ∈ dlinkDelete s.identList a at hl
        rw [hdnsList, hident] at hl
        exact hl.elim h.nodupDns.not_mem_erase hnot

theorem timeoutAuth_of_due {now : ℤ} (hauth : s.auths a = some auth) (hdue : auth.timeout ≤ now) :
    timeoutAuth packets now s a =
      ((s.timedOut a auth).releaseAuthClient packets auth.client).myFree a := by
  simp only [timeoutAuth, hauth, if_pos hdue]
  rfl

theorem timeoutAuth_of_not_due {now : ℤ} (hauth : s.auths a = some auth)
    (hdue : ¬ auth.timeout ≤ now) : timeoutAuth packets now s a = s.use (.used a) := by
  simp only [timeoutAuth, hauth, if_neg hdue]

/-- The requests that the timeout event looks at next have clients that no released client makes
exit. -/
abbrev Undisturbed (now : ℤ) : List Request → List ℕ → Prop :=
  SafeLoop.Undisturbed Request.client (fun auth => decide (auth.timeout ≤ now)) fun auth =>
    exits (packets auth.client)

theorem Inv.removal (h : Inv none none s) {now : ℤ} (ha : identLinked s a = true)
    (hauth : s.auths a = some auth) :
    SafeLoop.Removal identLinked Request.client (fun auth => decide (auth.timeout ≤ now))
      (fun auth => exits (packets auth.client)) State.auths (fun _ _ => True) (Inv none none) a
      auth s (timeoutAuth packets now s a) := by
  have hmem : a ∈ s.identList := of_decide_eq_true ha
  by_cases hdue : auth.timeout ≤ now
  · obtain ⟨hcloses, hoff⟩ := h.closes_timedOut hmem hauth
    obtain ⟨hinv, hleft⟩ :=
      hcloses.releaseAuthClient_myFree packets h hauth (Or.inr hmem) hoff
    rw [timeoutAuth_of_due packets hauth hdue]
    refine ⟨hinv, fun _ _ _ => trivial, fun b hb _ => ?_, fun b hb _ authb hauthb => ?_⟩
    · rw [hleft.auths, hcloses.auths b hb]
    · rw [identLinked, identLinked, decide_eq_true_iff, decide_eq_true_iff,
        hleft.ident b authb ((hcloses.auths b hb).trans hauthb), hcloses.mem_identList hb]
      simp [hdue]
  · rw [timeoutAuth_of_not_due packets hauth hdue]
    exact ⟨h.useAuth (Or.inr hmem), fun _ _ _ => trivial, fun _ _ _ => rfl,
      fun _ _ _ _ _ => ⟨fun hl => ⟨hl, fun hd => absurd (of_decide_eq_true hd) hdue⟩, And.left⟩⟩

theorem map_auths_eq (h : Inv none none s) {l : List ℕ} (hl : ∀ b ∈ l, b ∈ s.identList) :
    l.map s.auths = (l.filterMap s.auths).map some := by
  induction l with
  | nil => rfl
  | cons b l ih =>
      obtain ⟨auth, hauth⟩ := h.exists_auth (Or.inr (hl b List.mem_cons_self))
      rw [List.map_cons, List.filterMap_cons_some hauth, List.map_cons, hauth,
        ih fun x hx => hl x (List.mem_cons_of_mem b hx)]

theorem Inv.timeoutAuthQueriesEvent (h : Inv none none s) {now : ℤ}
    (hcond : Undisturbed packets now (s.identList.filterMap s.auths) []) :
    Inv none none (s.timeoutAuthQueriesEvent packets now) :=
  SafeLoop.invariant_of_undisturbed (fun _ _ _ hs ha hauth => hs.removal packets ha hauth) h
    h.nodupIdent (fun _ _ => trivial) (fun _ hb => decide_eq_true hb)
    (map_auths_eq h fun _ hb => hb) hcond

end Events

end State

end Auth

end Unirc
