import Unirc.MainLoopRun

/-!
# Deferred exits are safe

Whatever the messages overflow, each client goes through `exit_one_client` at most once and is freed
once after that, when nothing refers to it, and a round leaves no dead link that has not exited. The
hash tables are why a run has to be clean: `server_estab` files a connection under its new name, and
under its id when it is capable of one, whether it is filed already and whether it has an id.
-/

namespace Unirc

namespace MainLoop

variable {s t : MainLoop} {c : ℕ}

/-- Something still refers to the client. -/
def Refers (s : MainLoop) (c : ℕ) : Prop :=
  (∃ L, c ∈ s.lists L) ∨ c ∈ s.abortList ∨ (∃ p, c ∈ s.users p ∨ c ∈ s.servers p) ∨
    (∃ m ∈ s.members, m.2 = c) ∨ (∃ a ∈ s.accepts, a.1 = c ∨ a.2 = c) ∨ ∃ i ∈ s.invites, i.2 = c

/-- No client has exited or was freed twice, none was freed before its exit, nothing refers to what
was freed, and no assertion failed. -/
structure Safe (s : MainLoop) : Prop where
  exitedOnce : s.exited.Nodup
  freedOnce : s.freed.Nodup
  exitedFirst : s.freed ⊆ s.exited
  unreferred : ∀ c ∈ s.freed, ¬ s.Refers c
  faults : s.faults = []

/-- No connection that has given a nick is established as a server, and none that is capable of an
id but has given none. -/
def Clean (s : MainLoop) : LoopEvent → Prop
  | .serverEstab c ts6 => c ∈ s.lists .unknown → s.CleanEstab c ts6
  | _ => True

/-- Every step of the run is clean. -/
def CleanRun : MainLoop → List LoopEvent → Prop
  | _, [] => True
  | s, e :: events => s.Clean e ∧ ∀ s' ∈ s.step e, CleanRun s' events

namespace Filed

/-- Only the list of aborted clients can refer to a client that has exited. -/
theorem not_refers (h : s.Idle) (hexited : c ∈ s.exited) (hab : c ∉ s.abortList) :
    ¬ s.Refers c := by
  have hlive : ∀ {p : ClientRecord → Prop}, ¬ s.Live p c := fun hc => hc.not_exited hexited
  rintro (⟨L, hL⟩ | habort | ⟨p, huser | hserver⟩ | ⟨m, hm, rfl⟩ | ⟨a, ha, hac⟩ | ⟨i, hi, rfl⟩)
  · exact hlive (h.listed L c hL)
  · exact hab habort
  · exact hlive (h.user p c huser)
  · exact hlive (h.server p c hserver)
  · exact hlive (h.member m hm)
  · rcases hac with rfl | rfl
    · exact hlive (h.accept a ha).1
    · exact hlive (h.accept a ha).2
  · exact hlive (h.invite i hi)

theorem safe (h : s.Idle) : s.Safe where
  exitedOnce := h.once
  freedOnce := h.freedOnce
  exitedFirst := fun c hc => (h.left c).mpr (.inr hc)
  unreferred := fun c hc => by
    refine h.not_refers ((h.left c).mpr (.inr hc)) fun hab => ?_
    obtain ⟨k, hk, -⟩ := h.aborted c hab
    rw [h.gone c hc] at hk
    cases hk
  faults := h.faults

theorem boot (tape : List (List ℕ)) : (boot tape).Idle := by
  set s : MainLoop := MainLoop.boot tape
  set record : ClientRecord := ⟨.me, true, me, true, true, false, false, false, false⟩
  have hme : s.client me = some record := rfl
  have hlive : ∀ {p : ClientRecord → Prop} {c : ℕ}, p record → c ∈ [me] → s.Live p c :=
    fun hp hc => List.mem_singleton.mp hc ▸ ⟨record, hme, hp, List.not_mem_nil⟩
  have hclient : ∀ c k, s.client c = some k → c = me ∧ k = record := by
    intro c k hk
    by_cases hc : c = me
    · rw [hc, hme] at hk
      cases hk
      exact ⟨hc, rfl⟩
    · have hnone : s.client c = none := if_neg hc
      rw [hnone] at hk
      cases hk
  exact {
    isMe := hlive rfl List.mem_cons_self
    onlyMe := fun c k hk _ => (hclient c k hk).1
    fresh := fun c hc => ⟨if_neg (Nat.ne_of_gt hc), List.not_mem_nil⟩
    once := List.nodup_nil
    dead := List.nodup_nil
    freedOnce := List.nodup_nil
    left := fun c => by simp [s, MainLoop.boot]
    gone := fun c hc => absurd hc List.not_mem_nil
    waiting := fun c hc => absurd hc List.not_mem_nil
    listed := fun L c hc => by
      cases L with
      | unknown | localClient | serv | oper => exact absurd hc List.not_mem_nil
      | globalClient => exact hlive trivial hc
      | globalServ => exact hlive (.inr rfl) hc
      | clientTable => exact hlive rfl hc
      | idTable => exact hlive ⟨rfl, by decide⟩ hc
    nodup := fun L => by
      cases L with
      | unknown | localClient | serv | oper => exact List.nodup_nil
      | globalClient | globalServ | clientTable | idTable => exact List.nodup_singleton me
    last := rfl
    closing := fun c k hk _ hcl => by
      rw [(hclient c k hk).2] at hcl
      cases hcl
    user := fun p c hc => absurd hc List.not_mem_nil
    server := fun p c hc => absurd hc List.not_mem_nil
    usersNodup := fun _ => List.nodup_nil
    serversNodup := fun _ => List.nodup_nil
    child := fun c k hk _ => by
      rw [(hclient c k hk).2]
      exact .inr ⟨nofun, nofun⟩
    parent := fun c k hk _ hst => by
      rw [(hclient c k hk).2] at hst
      rcases hst with hst | hst <;> cases hst
    member := fun m hm => absurd hm List.not_mem_nil
    accept := fun a ha => absurd ha List.not_mem_nil
    invite := fun i hi => absurd hi List.not_mem_nil
    aborted := fun c hc => absurd hc List.not_mem_nil
    abortedNodup := List.nodup_nil
    marked := fun c k hk hd => by
      rw [(hclient c k hk).2] at hd
      cases hd
    faults := rfl }

/-- A clean step comes to an end, with every client where it belongs. -/
theorem step (h : s.Idle) (e : LoopEvent) (hclean : s.Clean e) :
    ∃ s', s.step e = some s' ∧ s'.Idle := by
  cases e with
  | message => exact ⟨_, rfl, h.send.1⟩
  | readError c =>
      refine ⟨_, rfl, ?_⟩
      split
      · rename_i hc
        exact h.deadLinkOnRead hc
      · exact h
  | writeError c =>
      refine ⟨_, rfl, ?_⟩
      split
      · rename_i hc
        exact (h.deadLinkOnWrite hc).1
      · exact h
  | kill c marks => exact ⟨_, rfl, h.kill c marks⟩
  | squit c =>
      refine ⟨_, rfl, ?_⟩
      split
      · rename_i hc
        obtain ⟨k, hk, -, hexited⟩ := h.listed _ c hc.1
        exact h.sendExit ⟨k, hk, fun hst => hc.2 (h.onlyMe c k hk hst), hexited⟩
      · exact h
  | pingTimeout c =>
      refine ⟨_, rfl, ?_⟩
      split
      · rename_i hc
        refine h.sendExit (h.live_connection ?_)
        rw [connections, List.mem_append, List.mem_append]
        rcases hc.1 with hc | hc
        · exact .inl (.inr hc)
        · exact .inr hc
      · exact h
  | registrationTimeout c =>
      refine ⟨_, rfl, ?_⟩
      split
      · rename_i hc
        refine h.exitLive (h.live_connection ?_)
        rw [connections, List.mem_append, List.mem_append]
        exact .inl (.inl hc)
      · exact h
  | quit c =>
      refine ⟨_, rfl, ?_⟩
      split
      · rename_i hc
        exact h.sendExit (h.live_connection hc)
      · exact h
  | lap =>
      obtain ⟨s', hlap, hidle, -⟩ := h.lap
      exact ⟨s', hlap, hidle⟩
  | connect => exact ⟨_, rfl, h.connect⟩
  | connectServer => exact ⟨_, rfl, h.connectServer⟩
  | finishAuth c => exact ⟨_, rfl, h.finishAuth c⟩
  | pass c => exact ⟨_, rfl, h.pass c⟩
  | nick c => exact ⟨_, rfl, h.nick c⟩
  | registerUser c id => exact ⟨_, rfl, h.registerUser c id⟩
  | operUp c => exact ⟨_, rfl, h.operUp c⟩
  | deop c => exact ⟨_, rfl, h.deop c⟩
  | serverEstab c ts6 => exact ⟨_, rfl, h.serverEstab hclean⟩
  | introduceServer p id => exact ⟨_, rfl, h.introduceServer p id⟩
  | introduceNick p => exact ⟨_, rfl, h.introduceNick p⟩
  | introduceUser p id => exact ⟨_, rfl, h.introduceUser p id⟩
  | join c channel => exact ⟨_, rfl, h.join c channel⟩
  | part c channel => exact ⟨_, rfl, h.part c channel⟩
  | accept c d => exact ⟨_, rfl, h.accepts c d⟩
  | unaccept c d => exact ⟨_, rfl, h.unaccept c d⟩
  | invite c channel => exact ⟨_, rfl, h.invites c channel⟩
  | uninvite c channel => exact ⟨_, rfl, h.uninvite c channel⟩

theorem steps {events : List LoopEvent} (h : s.Idle) (hclean : s.CleanRun events) :
    ∃ s', events.foldlM MainLoop.step s = some s' ∧ s'.Idle := by
  induction events generalizing s with
  | nil => exact ⟨s, rfl, h⟩
  | cons e events ih =>
      obtain ⟨he, hrest⟩ := hclean
      obtain ⟨s', hstep, hidle⟩ := h.step e he
      rw [List.foldlM_cons, hstep]
      exact ih hidle (hrest s' hstep)

end Filed

/-- The run gets on, and its state is safe. Its next round first exits every client whose link is
dead, and then it frees what has exited, when nothing refers to it. -/
def ExitsSafely (tape : List (List ℕ)) (events : List LoopEvent) : Prop :=
  ∃ s, run tape events = some s ∧ s.Safe ∧
    ∃ t, s.exitAbortedClients = some t ∧ t.Safe ∧
      (∀ c, s.DeadAt c ∨ t.DeadAt c → c ∈ t.exited) ∧ (∀ c ∈ t.exited, ¬ t.Refers c) ∧
      t.freeExitedClients.Safe ∧ t.freeExitedClients.exited = t.exited ∧
      ∀ c, c ∈ t.freeExitedClients.freed ↔ c ∈ t.exited

end MainLoop

end Unirc
