import Unirc.AuthEvents

/-!
# Every request is freed once and every client released once

A request is on a list for each of its outstanding queries and is freed when it has none. Every
event keeps this as long as no client that `timeout_auth_queries_event` releases makes the client
exit whose request this loop goes to next.
-/

namespace Unirc

namespace Auth

namespace State

variable {u v busy : Option ℕ} {s s' : State} {a c : ℕ}

section Start

variable (packets : Packets)

/-- The state of `start_auth` before the query for the host. -/
structure Starting (a c : ℕ) (t : State) : Prop where
  inv : Inv none (some a) t
  auth : ∃ auth, t.auths a = some auth ∧ auth.client = c ∧ auth.crit = true ∧
    (auth.doingAuth = true ↔ a ∈ t.identList)
  conn : ∃ conn, t.clients c = some conn ∧ conn.unknown = true ∧ conn.closing = false ∧
    conn.finishedAuth = false ∧ conn.dnsQuery = some a
  dns : a ∉ t.dnsList
  log : .freed a ∉ t.log ∧ .released c ∉ t.log ∧ .exited c ∉ t.log

/-- The request and the record of a client that was just accepted. -/
def started (s : State) (c : ℕ) (sockhost : Str) (now : ℤ) : State :=
  { s with
    clients := Function.update s.clients c
      (some { newConn sockhost with dnsQuery := some s.nextAuth, headers := [.doDns] })
    auths := Function.update s.auths s.nextAuth
      (some ⟨c, false, false, true, now + CONNECTTIMEOUT⟩)
    nextAuth := s.nextAuth + 1 }

theorem Inv.starting (h : Inv none none s) (hc : s.clients c = none) (sockhost : Str) (now : ℤ) :
    Starting s.nextAuth c (s.started c sockhost now) := by
  have hfresh : ∀ b, s.Linked b → b ≠ s.nextAuth := fun b hb =>
    (Nat.lt_of_lt_of_eq (h.linked b hb) rfl).ne
  have hclient : ∀ b auth, s.auths b = some auth → auth.client ≠ c ∧ b ≠ s.nextAuth := by
    intro b auth hb
    refine ⟨fun he => ?_, ((h.lt b).mp (by simp [hb])).ne⟩
    obtain ⟨conn, hconn⟩ := h.client b auth hb
    cases (he ▸ hconn).symm.trans hc
  have hcases : ∀ b auth, (s.started c sockhost now).auths b = some auth →
      (b = s.nextAuth ∧ auth = ⟨c, false, false, true, now + CONNECTTIMEOUT⟩) ∨
        s.auths b = some auth := by
    intro b auth hb
    by_cases hbn : b = s.nextAuth
    · subst hbn
      exact Or.inl ⟨rfl, by simpa [started, eq_comm] using hb⟩
    · exact Or.inr (by simpa [started, Function.update_of_ne hbn] using hb)
  have hnot : .freed s.nextAuth ∉ s.log := fun hf => (h.uses _ (Or.inr hf)).ne rfl
  have hlog : .released c ∉ s.log ∧ .exited c ∉ s.log :=
    ⟨fun hr => by simpa [hc] using h.clients c (Or.inl hr),
      fun he => by simpa [hc] using h.clients c (Or.inr he)⟩
  have hclients : ∀ d, d ≠ c → (s.started c sockhost now).clients d = s.clients d :=
    fun d hd => Function.update_of_ne hd _ _
  have hownConn : (s.started c sockhost now).clients c =
      some { newConn sockhost with dnsQuery := some s.nextAuth, headers := [.doDns] } :=
    Function.update_self _ _ _
  have hown : (s.started c sockhost now).auths s.nextAuth =
      some ⟨c, false, false, true, now + CONNECTTIMEOUT⟩ := Function.update_self _ _ _
  refine ⟨⟨h.dns, h.ident, h.nodupDns, h.nodupIdent, fun b => ?_, fun b hb => ?_,
    fun b auth hb => ?_, fun d conn hd => ?_, fun b auth b' auth' hb hb' he => ?_, fun b hb => ?_,
    fun d hd => ?_, h.order, fun b auth conn hb hconn hne => ?_⟩, ⟨_, hown, rfl, rfl, ?_⟩,
    ⟨_, hownConn, rfl, rfl, rfl, rfl⟩, fun hd => hfresh _ (Or.inl hd) rfl, hnot, hlog⟩
  · change _ ↔ b < s.nextAuth + 1
    by_cases hbn : b = s.nextAuth
    · subst hbn
      simp [hown]
    · have heq : (s.started c sockhost now).auths b = s.auths b := Function.update_of_ne hbn _ _
      rw [heq, h.lt]
      omega
  · exact Nat.lt_succ_of_lt (h.linked b hb)
  · obtain ⟨rfl, rfl⟩ | hb := hcases b auth hb
    · exact ⟨_, hownConn⟩
    · rw [hclients _ (hclient b auth hb).1]
      exact h.client b auth hb
  · by_cases hdc : d = c
    · exact ⟨_, _, hown, hdc.symm⟩
    · rw [hclients d hdc] at hd
      obtain ⟨b, auth, hb, he⟩ := h.owner d conn hd
      exact ⟨b, auth, (Function.update_of_ne (hclient b auth hb).2 _ _).trans hb, he⟩
  · obtain ⟨rfl, rfl⟩ | hb := hcases b auth hb <;>
      obtain ⟨rfl, rfl⟩ | hb' := hcases b' auth' hb'
    · rfl
    · exact absurd he.symm (hclient b' auth' hb').1
    · exact absurd he (hclient b auth hb).1
    · exact h.inj b auth b' auth' hb hb' he
  · exact Nat.lt_succ_of_lt (h.uses b hb)
  · by_cases hdc : d = c
    · rw [hdc, hownConn]
      rfl
    · rw [hclients d hdc]
      exact h.clients d hd
  · obtain ⟨rfl, -⟩ | hb := hcases b auth hb
    · exact absurd rfl hne
    · rw [hclients _ (hclient b auth hb).1] at hconn
      have htracks := h.tracks b auth conn hb hconn (by simp)
      exact ⟨htracks.pending, htracks.doing, htracks.crit, htracks.unknown, htracks.stays,
        htracks.query, htracks.leaves, htracks.freed, htracks.released, htracks.exited⟩
  · exact ⟨fun hf => absurd hf Bool.false_ne_true, fun hi => absurd rfl (hfresh _ (Or.inr hi))⟩

namespace Starting

variable {t : State}

theorem touch (h : Starting a c t) {t' : State} (ht : Touches a c t t')
    (hauth : ∃ auth, t'.auths a = some auth ∧ auth.client = c ∧ auth.crit = true ∧
      (auth.doingAuth = true ↔ a ∈ t'.identList))
    (hconn : ∃ conn, t'.clients c = some conn ∧ conn.unknown = true ∧ conn.closing = false ∧
      conn.finishedAuth = false ∧ conn.dnsQuery = some a)
    (hdns : t'.dnsList = t.dnsList ∧ t'.queries = t.queries) (hident : t'.identList = t'.idents)
    (hnodup : t'.identList.Nodup) (hlog : t'.log = t.log ∨ t'.log = t.log ++ [.used a]) :
    Starting a c t' := by
  obtain ⟨auth, hauth₁, rfl, -⟩ := h.auth
  have horder : InOrder t'.log := by
    obtain he | he := hlog
    · exact he ▸ h.inv.order
    · exact he ▸ h.inv.order.used h.log.1
  refine ⟨h.inv.touch hauth₁ ht (Or.inr rfl) (fun _ _ => Iff.rfl)
    (by rw [hdns.1, hdns.2, h.inv.dns]) hident (hdns.1 ▸ h.inv.nodupDns) hnodup horder, hauth,
    hconn, hdns.1 ▸ h.dns, ?_⟩
  obtain he | he := hlog <;> rw [he]
  · exact h.log
  · simpa using h.log

theorem change (h : Starting a c t) {f : Conn → Conn} (hf : Cosmetic f) :
    Starting a c (t.updClient c f) := by
  obtain ⟨auth, hauth, hclient, hcrit, hdoing⟩ := h.auth
  obtain ⟨conn, hconn, hunknown, hclosing, hfinished, hquery⟩ := h.conn
  have hconn' : (t.updClient c f).clients c = some (f conn) := by simp [updClient, hconn]
  exact h.touch ⟨fun _ _ => rfl, ⟨auth, hauth, hclient⟩, rfl,
    fun d hd => Function.update_of_ne hd _ _, ⟨_, hconn'⟩, fun _ _ => Iff.rfl, fun _ _ => Iff.rfl,
    fun _ _ _ _ _ => Iff.rfl⟩ ⟨auth, hauth, hclient, hcrit, hdoing⟩
    ⟨f conn, hconn', (hf.unknown conn).trans hunknown, (hf.closing conn).trans hclosing,
      (hf.finishedAuth conn).trans hfinished, (hf.dnsQuery conn).trans hquery⟩ ⟨rfl, rfl⟩
    h.inv.ident h.inv.nodupIdent (Or.inl rfl)

theorem useAuth (h : Starting a c t) : Starting a c (t.use (.used a)) := by
  obtain ⟨auth, hauth, hclient, hrest⟩ := h.auth
  obtain ⟨conn, hconn, hrest'⟩ := h.conn
  exact h.touch ⟨fun _ _ => rfl, ⟨auth, hauth, hclient⟩, rfl, fun _ _ => rfl, ⟨conn, hconn⟩,
    fun _ _ => Iff.rfl, fun _ _ => Iff.rfl, fun x hx _ _ _ => by simp [use, hx]⟩
    ⟨auth, hauth, hclient, hrest⟩ ⟨conn, hconn, hrest'⟩ ⟨rfl, rfl⟩ h.inv.ident h.inv.nodupIdent
    (Or.inr rfl)

theorem startAuthQuery (h : Starting a c t) (ha : a ∉ t.identList) :
    Starting a c (t.startAuthQuery a c) := by
  have hheader := h.change (Cosmetic.header .doId)
  obtain ⟨auth, hauth, hclient, hcrit, -⟩ := hheader.auth
  obtain ⟨conn, hconn, hrest⟩ := hheader.conn
  have hauth' : (t.startAuthQuery a c).auths a = some { auth with doingAuth := true } := by
    have hauth₀ : t.auths a = some auth := hauth
    simp [State.startAuthQuery, updAuth, sendheader, updClient, hauth₀]
  exact hheader.touch ⟨fun b hb => Function.update_of_ne hb _ _, ⟨_, hauth', hclient⟩, rfl,
    fun _ _ => rfl, ⟨conn, hconn⟩, fun _ _ => Iff.rfl,
    fun b hb => List.mem_cons.trans (or_iff_right hb), fun _ _ _ _ _ => Iff.rfl⟩
    ⟨_, hauth', hclient, hcrit, iff_of_true rfl List.mem_cons_self⟩ ⟨conn, hconn, hrest⟩ ⟨rfl, rfl⟩
    (congrArg (a :: ·) h.inv.ident) (List.nodup_cons.mpr ⟨ha, h.inv.nodupIdent⟩) (Or.inl rfl)

theorem identClose (h : Starting a c t) (ha : a ∈ t.identList) :
    Starting a c (t.identClose a) := by
  obtain ⟨auth, hauth, hclient, hcrit, -⟩ := h.auth
  obtain ⟨conn, hconn, hrest⟩ := h.conn
  have hident : (t.identClose a).identList = t.identList.erase a := dlinkDelete_of_mem ha
  have hauth' : (t.identClose a).auths a = some { auth with doingAuth := false } := by
    simp [State.identClose, updAuth, identUnlink, fdClose, use, hauth]
  refine h.touch ⟨fun b hb => Function.update_of_ne hb _ _, ⟨_, hauth', hclient⟩, rfl,
    fun _ _ => rfl, ⟨conn, hconn⟩, fun _ _ => Iff.rfl,
    fun b hb => by rw [hident, mem_erase_of_ne hb], fun x hx _ _ _ => ?_⟩
    ⟨_, hauth', hclient, hcrit, ?_⟩ ⟨conn, hconn, hrest⟩ ⟨rfl, rfl⟩ ?_ ?_ (Or.inr rfl)
  · simp [State.identClose, updAuth, identUnlink, fdClose, use, hx]
  · rw [hident]
    exact iff_of_false Bool.false_ne_true h.inv.nodupIdent.not_mem_erase
  · rw [hident, h.inv.ident]
    rfl
  · rw [hident]
    exact h.inv.nodupIdent.erase a

theorem identDone {auth : Request} (h : Starting a c t) (hcrit : auth.crit = true) :
    Starting a c (t.identDone packets a auth) := by
  rwa [State.identDone, if_neg (by simp [hcrit])]

variable {auth : Request}

theorem authError (h : Starting a auth.client t) (ha : a ∈ t.identList)
    (hcrit : auth.crit = true) : Starting a auth.client (t.authError packets a auth) :=
  ((h.identClose ha).change (Cosmetic.header .failId)).identDone packets hcrit

theorem readAuthReply (h : Starting a auth.client t) (ha : a ∈ t.identList)
    (hcrit : auth.crit = true) (read : Read) :
    Starting a auth.client (t.readAuthReply packets a auth read) := by
  cases read with
  | ignored => exact h.useAuth
  | failed => exact h.useAuth.authError packets ha hcrit
  | data buf =>
      unfold State.readAuthReply
      dsimp only
      split
      · exact h.authError packets ha hcrit
      · refine ((((h.identClose ha).change ?_).change (Cosmetic.header .finId)).change ?_).identDone
          packets hcrit <;>
          exact ⟨fun _ => rfl, fun _ => rfl, fun _ => rfl, fun _ => rfl⟩

theorem authConnectCallback (h : Starting a auth.client t) (ha : a ∈ t.identList)
    (hcrit : auth.crit = true) (result : Connected) :
    Starting a auth.client (t.authConnectCallback packets a auth result) := by
  cases result with
  | error => exact h.authError packets ha hcrit
  | noName => exact h.useAuth.authError packets ha hcrit
  | notSent => exact h.useAuth.authError packets ha hcrit
  | sent read => exact h.useAuth.readAuthReply packets ha hcrit read

theorem startIdent (h : Starting a c t) (ha : a ∉ t.identList) (ident : IdentStart) :
    Starting a c (t.startIdent packets a c ident) := by
  cases ident with
  | disabled => exact (h.change (Cosmetic.header .doId)).change (Cosmetic.header .finId)
  | notOpened => exact h
  | waits => exact h.startAuthQuery ha
  | atOnce result =>
      have hquery := h.startAuthQuery ha
      obtain ⟨auth, hauth, rfl, hcrit, -⟩ := hquery.auth
      have hmem : a ∈ (t.startAuthQuery a auth.client).identList := List.mem_cons_self
      simp only [State.startIdent, hauth]
      exact hquery.authConnectCallback packets hmem hcrit result

/-- The end of `start_auth`. -/
theorem finish (h : Starting a c t) : Inv none none
    { ((t.use (.used a)).updAuth a fun auth => { auth with dnsPending := true }).updAuth a
        (fun auth => { auth with crit := false }) with
      dnsList := a :: t.dnsList
      queries := a :: t.queries } := by
  obtain ⟨auth, hauth, rfl, hcrit, hdoing⟩ := h.auth
  obtain ⟨conn, hconn, hunknown, hclosing, hfinished, hquery⟩ := h.conn
  have hauth' : Function.update (Function.update t.auths a
      ((t.auths a).map fun auth => { auth with dnsPending := true })) a
      ((Function.update t.auths a ((t.auths a).map fun auth =>
        { auth with dnsPending := true }) a).map fun auth => { auth with crit := false }) a =
      some { auth with dnsPending := true, crit := false } := by simp [hauth]
  refine Inv.rest (h.inv.touch (v := none) hauth ⟨fun b hb => ?_, ⟨_, hauth', rfl⟩, rfl,
    fun _ _ => rfl, ⟨conn, hconn⟩, fun b hb => List.mem_cons.trans (or_iff_right hb),
    fun _ _ => Iff.rfl, fun x hx _ _ _ => ?_⟩ (Or.inr rfl) (fun _ _ => Iff.rfl)
    (congrArg (a :: ·) h.inv.dns) h.inv.ident (List.nodup_cons.mpr ⟨h.dns, h.inv.nodupDns⟩)
    h.inv.nodupIdent (h.inv.order.used h.log.1)) hauth' hconn ?_
  · exact (Function.update_of_ne hb _ _).trans (Function.update_of_ne hb _ _)
  · simp [updAuth, use, hx]
  · have hfirst := List.mem_cons_self (a := a) (l := t.dnsList)
    refine ⟨fun _ => iff_of_true rfl hfirst, fun _ => hdoing, fun _ => rfl, fun _ => hunknown,
      fun _ => ⟨hclosing, hfinished⟩, fun _ => hquery.trans (if_pos hfirst).symm,
      fun hl => absurd (Or.inl hfirst) hl, ?_, ?_, ?_⟩
    · refine iff_of_false (by simpa [updAuth, use] using h.log.1) fun hf => ?_
      exact hf.1 (Or.inl hfirst)
    · exact iff_of_false (by simpa [updAuth, use] using h.log.2.1) (by simp [hfinished])
    · exact iff_of_false (by simpa [updAuth, use] using h.log.2.2) (by simp [hclosing])

end Starting

theorem Inv.connect (h : Inv none none s) (hc : s.clients c = none) (sockhost : Str) (now : ℤ)
    (ident : IdentStart) :
    Inv none none (({ s with
      clients := Function.update s.clients c (some (newConn sockhost)) } : State).startAuth packets
        now c ident) := by
  have hstart := h.starting hc sockhost now
  have hnot : s.nextAuth ∉ (s.started c sockhost now).identList := fun hi =>
    (h.linked _ (Or.inr hi)).ne rfl
  have heq : ((({ s with
      clients := Function.update s.clients c (some (newConn sockhost))
      auths := Function.update s.auths s.nextAuth
        (some ⟨c, false, false, true, now + CONNECTTIMEOUT⟩)
      nextAuth := s.nextAuth + 1 } : State).updClient c fun conn =>
        { conn with dnsQuery := some s.nextAuth }).sendheader c .doDns) =
      s.started c sockhost now := by
    simp [sendheader, updClient, started, newConn]
  unfold State.startAuth
  dsimp only
  rw [heq]
  exact (hstart.startIdent packets hnot ident).finish

end Start

/-- No client that the timeout event releases makes the client exit whose request it looks at
next. -/
def Allowed (s : State) : Event → Prop
  | .timeout packets now => Undisturbed packets now (s.identList.filterMap s.auths) []
  | _ => True

theorem Inv.step (h : Inv none none s) {e : Event} (he : s.Allowed e) :
    Inv none none (s.step e) := by
  cases e with
  | connect packets c sockhost now ident =>
      rw [State.step]
      split
      · rename_i hc
        exact h.connect packets hc sockhost now ident
      · exact h
  | dns packets a reply =>
      rw [State.step]
      split
      · rename_i ha
        exact h.authDnsCallback packets ha reply
      · exact h
  | connected packets a result =>
      rw [State.step]
      split
      · rename_i ha
        split
        · exact h
        · rename_i auth hauth
          exact h.authConnectCallback packets (h.ident ▸ ha) hauth result
      · exact h
  | read packets a read =>
      rw [State.step]
      split
      · rename_i ha
        split
        · exact h
        · rename_i auth hauth
          exact h.readAuthReply packets (h.ident ▸ ha) hauth read
      · exact h
  | timeout packets now => exact h.timeoutAuthQueriesEvent packets he
  | action action => exact (h.acts (by simp) [action]).1

/-- A request is on each list exactly while its query is outstanding, it is freed once when it is
on neither, and its client was then released or has exited. -/
structure HandledOnce (s : State) : Prop where
  dns : ∀ a, a ∈ s.dnsList ↔ a ∈ s.queries
  ident : ∀ a, a ∈ s.identList ↔ a ∈ s.idents
  freed : ∀ a, a < s.nextAuth → s.log.count (.freed a) = if s.Linked a then 0 else 1
  order : InOrder s.log
  waits : ∀ a auth, s.auths a = some auth → s.Linked a →
    .released auth.client ∉ s.log ∧ .exited auth.client ∉ s.log
  done : ∀ a auth, s.auths a = some auth → ¬ s.Linked a →
    .released auth.client ∈ s.log ∨ .exited auth.client ∈ s.log

theorem Inv.handledOnce (h : Inv none none s) : s.HandledOnce := by
  refine ⟨fun a => by rw [h.dns], fun a => by rw [h.ident], fun a ha => ?_, h.order,
    fun a auth hauth hl => ?_, fun a auth hauth hl => ?_⟩
  · obtain ⟨auth, hauth⟩ := Option.isSome_iff_exists.mp ((h.lt a).mpr ha)
    obtain ⟨conn, hconn⟩ := h.client a auth hauth
    have hfreed := (h.tracks a auth conn hauth hconn (by simp)).freed
    split
    · rename_i hl
      exact List.count_eq_zero.mpr fun hf => (hfreed.mp hf).1 hl
    · rename_i hl
      have hpos : 0 < s.log.count (.freed a) := List.count_pos_iff.mpr (hfreed.mpr ⟨hl, by simp⟩)
      have hle := h.order.count_freed_le a
      omega
  · obtain ⟨conn, hconn⟩ := h.client a auth hauth
    have htracks := h.tracks a auth conn hauth hconn (by simp)
    rw [htracks.released, htracks.exited, (htracks.stays hl).1, (htracks.stays hl).2]
    simp
  · obtain ⟨conn, hconn⟩ := h.client a auth hauth
    have htracks := h.tracks a auth conn hauth hconn (by simp)
    rw [htracks.released, htracks.exited]
    exact (htracks.leaves hl).symm

/-- In a run without such a release, requests and clients are dealt with once. -/
theorem handledOnce_run (es : List Event) (h : Runs.Each step Allowed init es) :
    (es.foldl step init).HandledOnce :=
  (Runs.invariant (fun _ _ hs he => hs.step he) Inv.init h).handledOnce

/-- A client connects at the time 0 and its ident server is asked. -/
def connectEvent (c : ℕ) : Event := .connect (fun _ => []) c [] 0 .waits

theorem handledOnce_timeout :
    ([connectEvent 0, .timeout (fun _ => [.register 0]) 30].foldl step init).HandledOnce := by
  have hlist : (init.step (connectEvent 0)).identList.filterMap (init.step (connectEvent 0)).auths =
    [⟨0, true, true, false, 30⟩] := by decide
  refine handledOnce_run _ ⟨trivial, ?_, trivial⟩
  rw [Allowed, hlist, Undisturbed, SafeLoop.Undisturbed, if_neg List.not_mem_nil,
    if_pos (by decide)]
  exact ⟨fun _ hnext => (by cases hnext), trivial⟩

/-- Two clients time out. The one that is released first is registered and makes the other one exit,
whose request is then freed a second time. -/
theorem not_handledOnce_run : ¬ ∀ es : List Event, (es.foldl step init).HandledOnce := by
  intro h
  have hfreed := (h [connectEvent 0, connectEvent 1,
    .timeout (fun c => if c = 1 then [.register 1, .exit 0] else []) 30]).freed 0 (by decide)
  revert hfreed
  decide

end State

end Auth

end Unirc
