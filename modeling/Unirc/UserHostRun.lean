import Unirc.CensusRun

/-!
# The userhost table over runs

The table counts the registered clients of every user name and host. The add and the
delete compute their keys from the client each time, and get the same ones, because
nothing that a registered client can do changes them.
-/

namespace Unirc

/-- The host and the user name under which a client is filed. -/
def User.fileKey (u : User) : Str × Str := (fold u.realhost.val, fold (stripTilde u.username.val))

namespace Census

/-- The clients of a host and a user name: all, the local ones, and among them those that
`answered` tells. -/
def tallyBy (answered : User → Bool) (l : List User) (h n : Str) : HostCounts where
  globals := l.countP fun u => u.fileKey = (h, n)
  locals := l.countP fun u => decide (u.fileKey = (h, n)) && u.myConnect
  idents := l.countP fun u => decide (u.fileKey = (h, n)) && u.myConnect && answered u

/-- The table has the numbers of the registered clients, entries for these only, and one
for every client that an exit deletes. -/
structure AccountedBy (answered : User → Bool) (rk : U32) (s : Census) : Prop where
  counts : ∀ h n, s.userhosts.counts? rk h n =
    if tallyBy answered s.clients h n = .zero then none else some (tallyBy answered s.clients h n)
  deletes : ∀ u ∈ s.users, u.userHost = true →
    ∃ c, s.userhosts.counts? rk u.fileKey.1 u.fileKey.2 = some c ∧ 1 ≤ c.globals ∧
      (u.myConnect → 1 ≤ c.locals ∧ (answered u → 1 ≤ c.idents))

/-- The user name has no tilde, which stands for an ident answer. -/
def untilded (u : User) : Bool := hasident u.username.val

section Tally

variable {answered : User → Bool} {l l' : List User} {h n : Str} {u : User}

theorem tallyBy_cons_self (hu : u.fileKey = (h, n)) :
    tallyBy answered (u :: l) h n = (tallyBy answered l h n).add (!u.myConnect) (answered u) := by
  unfold tallyBy HostCounts.add
  simp only [Keyed.countP_cons_toNat, hu, decide_true, Bool.true_and, Bool.not_not,
    Bool.toNat_true]

theorem tallyBy_cons_of_ne (hu : u.fileKey ≠ (h, n)) :
    tallyBy answered (u :: l) h n = tallyBy answered l h n := by
  unfold tallyBy
  simp only [Keyed.countP_cons_toNat, hu, decide_false, Bool.false_and, Bool.toNat_false, add_zero]

theorem tallyBy_perm (hl : l.Perm l') : tallyBy answered l h n = tallyBy answered l' h n := by
  unfold tallyBy
  rw [hl.countP_eq, hl.countP_eq, hl.countP_eq]

theorem fileKey_same {v : User} (hsame : SameUser u v) : v.fileKey = u.fileKey := by
  rw [User.fileKey, hsame.realhost, hsame.username, User.fileKey]

theorem tallyBy_forall₂ (hans : ∀ {u v}, SameUser u v → answered v = answered u)
    (hl : List.Forall₂ SameUser l l') : tallyBy answered l' h n = tallyBy answered l h n := by
  induction hl with
  | nil => rfl
  | @cons u v l l' hsame _ ih =>
      have hkey := fileKey_same hsame
      by_cases hu : u.fileKey = (h, n)
      · rw [tallyBy_cons_self hu, tallyBy_cons_self (hkey.trans hu), ih, hsame.myConnect, hans hsame]
      · rw [tallyBy_cons_of_ne hu, tallyBy_cons_of_ne (hkey ▸ hu), ih]

theorem tallyBy_le (answered : User → Bool) (l : List User) (h n : Str) :
    (tallyBy answered l h n).locals ≤ (tallyBy answered l h n).globals ∧
    (tallyBy answered l h n).idents ≤ (tallyBy answered l h n).locals := by
  unfold tallyBy
  constructor
  · refine List.countP_mono_left fun u _ hu => ?_
    exact (Bool.and_eq_true_iff.mp hu).1
  · refine List.countP_mono_left fun u _ hu => ?_
    exact (Bool.and_eq_true_iff.mp hu).1

theorem tallyBy_eq_zero_iff :
    tallyBy answered l h n = .zero ↔ (tallyBy answered l h n).globals = 0 := by
  have hle := tallyBy_le answered l h n
  constructor
  · intro hzero
    rw [hzero]
    rfl
  · intro hzero
    generalize tallyBy answered l h n = c at hle hzero
    obtain ⟨g, lc, i⟩ := c
    simp only at hle hzero
    obtain rfl : g = 0 := hzero
    obtain rfl : lc = 0 := by omega
    obtain rfl : i = 0 := by omega
    rfl

/-- What the table has for a host and a user name. -/
def filed (answered : User → Bool) (l : List User) (h n : Str) : Option HostCounts :=
  if tallyBy answered l h n = .zero then none else some (tallyBy answered l h n)

theorem getD_filed : (filed answered l h n).getD .zero = tallyBy answered l h n := by
  unfold filed
  split
  · rename_i hzero
    rw [hzero, Option.getD_none]
  · rfl

theorem filed_cons_self (hu : u.fileKey = (h, n)) :
    filed answered (u :: l) h n =
      some (((filed answered l h n).getD .zero).add (!u.myConnect) (answered u)) := by
  rw [getD_filed, filed, tallyBy_cons_self hu, if_neg]
  intro hzero
  exact Nat.succ_ne_zero _ (congrArg HostCounts.globals hzero)

theorem filed_cons_of_ne (hu : u.fileKey ≠ (h, n)) :
    filed answered (u :: l) h n = filed answered l h n := by
  rw [filed, tallyBy_cons_of_ne hu, filed]

theorem sub_add (c : HostCounts) (flag ident : Bool) : (c.add flag ident).sub flag ident = c := by
  obtain ⟨g, lc, i⟩ := c
  unfold HostCounts.add HostCounts.sub
  simp only [Nat.add_sub_cancel]

/-- What a delete leaves of what an add counted. -/
theorem filed_delete (hu : u.fileKey = (h, n)) :
    ((filed answered (u :: l) h n).bind fun c => c.afterSub (!u.myConnect) (answered u)) =
      filed answered l h n := by
  have hle := tallyBy_le answered l h n
  rw [filed_cons_self hu, getD_filed, Option.bind_some, HostCounts.afterSub, sub_add, filed]
  by_cases hzero : (tallyBy answered l h n).globals = 0
  · rw [if_pos ⟨hzero, by omega⟩, if_pos (tallyBy_eq_zero_iff.mpr hzero)]
  · rw [if_neg fun h => hzero h.1, if_neg fun h => hzero (tallyBy_eq_zero_iff.mp h)]

/-- A client that is counted has an entry that counts it. -/
theorem filed_of_mem (hu : u ∈ l) : ∃ c, filed answered l u.fileKey.1 u.fileKey.2 = some c ∧
    1 ≤ c.globals ∧ (u.myConnect → 1 ≤ c.locals ∧ (answered u → 1 ≤ c.idents)) := by
  have hglobals : 1 ≤ (tallyBy answered l u.fileKey.1 u.fileKey.2).globals :=
    List.countP_pos_iff.mpr ⟨u, hu, by simp⟩
  refine ⟨_, if_neg fun hzero => ?_, hglobals, fun hmine => ⟨?_, fun hans => ?_⟩⟩
  · rw [tallyBy_eq_zero_iff.mp hzero] at hglobals
    exact absurd hglobals (by decide)
  · exact List.countP_pos_iff.mpr ⟨u, hu, by simp [hmine]⟩
  · exact List.countP_pos_iff.mpr ⟨u, hu, by simp [hmine, hans]⟩

end Tally

/-- The table has the numbers of the registered clients. -/
def Accounted (rk : U32) (s : Census) : Prop :=
  ∀ h n, s.userhosts.counts? rk h n = filed untilded s.clients h n

variable {cfg : CensusConfig} {rk : U32} {s s' : Census} {u : User}

theorem filed_perm {l l' : List User} (hl : l.Perm l') (h n : Str) :
    filed untilded l h n = filed untilded l' h n := by
  rw [filed, tallyBy_perm hl, filed]

theorem Accounted.still (hs : s.Accounted rk) (h : Still rk s s') : s'.Accounted rk := by
  obtain ⟨l, l', hl, hsame, hl'⟩ := h.clients
  intro host n
  have htally : tallyBy untilded l' host n = tallyBy untilded l host n :=
    tallyBy_forall₂ (fun hsame => by rw [untilded, hsame.username, untilded]) hsame
  rw [h.hosts, hs, filed_perm hl, filed_perm hl', filed, filed, htally]

theorem Accounted.joined (hs : s.Accounted rk) (h : Joined rk s s' u) : s'.Accounted rk := by
  intro host n
  rw [h.hosts, UserHostTable.counts?_add, hs, filed_perm h.clients]
  by_cases hu : u.fileKey = (host, n)
  · obtain ⟨hhost, hn⟩ := Prod.mk.injEq _ _ _ _ ▸ hu
    rw [if_pos ⟨hhost.symm, hn.symm⟩, filed_cons_self hu]
    rfl
  · rw [filed_cons_of_ne hu, if_neg]
    rintro ⟨rfl, rfl⟩
    exact hu rfl

theorem Accounted.left (hs : s.Accounted rk) (hwf : s.userhosts.Wf rk) (h : Left rk s s' u) :
    s'.Accounted rk := by
  intro host n
  rw [h.hosts, UserHostTable.counts?_delete hwf, hs, filed_perm h.clients]
  by_cases hu : u.fileKey = (host, n)
  · obtain ⟨hhost, hn⟩ := Prod.mk.injEq _ _ _ _ ▸ hu
    rw [if_pos ⟨hhost.symm, hn.symm⟩]
    exact filed_delete hu
  · rw [filed_cons_of_ne hu, if_neg]
    rintro ⟨rfl, rfl⟩
    exact hu rfl

theorem Accounted.step (hs : s.Accounted cfg.randomKey) (hwf : s.Wf cfg.randomKey) (e : Event) :
    (s.step cfg e).Accounted cfg.randomKey := by
  rcases (step_spec hwf e).2 with hstill | hadmitted | ⟨-, hjoined⟩ | hleft
  · exact hs.still hstill
  · exact hs.joined hadmitted.enrolled.toJoined
  · exact hs.joined hjoined
  · exact hs.left hwf.hosts hleft

theorem accounted_run (cfg : CensusConfig) (events : List Event) :
    (run cfg events).Accounted cfg.randomKey := by
  induction events using List.reverseRecOn with
  | nil => exact fun h n => rfl
  | append_singleton events e ih =>
      rw [run_concat]
      exact ih.step (wf_run cfg events) e

theorem Wf.isClient_of_userHost (hs : s.Wf rk) (hu : u ∈ s.users) (hflag : u.userHost = true) :
    u ∈ s.clients := by
  refine List.mem_filter.mpr ⟨hu, ?_⟩
  by_contra hclient
  have hfresh := hs.fresh u hu (Bool.not_eq_true _ ▸ hclient)
  rw [hfresh.userHost] at hflag
  cases hflag

/-- In every run the table counts the registered clients, where a user name without a
tilde stands for an ident answer. -/
theorem accountedBy_untilded (cfg : CensusConfig) (events : List Event) :
    AccountedBy untilded cfg.randomKey (run cfg events) where
  counts := accounted_run cfg events
  deletes := by
    intro u hu hflag
    rw [accounted_run cfg events]
    exact filed_of_mem ((wf_run cfg events).isClient_of_userHost hu hflag)

section NoTilde

/-- Settings with one class, of `n` local sessions for each user and host. -/
def someConfig (n : ℕ) : CensusConfig where
  randomKey := 0
  ipLimits := ⟨30, 1024⟩
  classes := fun _ => ⟨0, n, 0, 0⟩
  proxys := []
  ipbrs := []
  makeVirthost := id
  enableCloakSystem := false
  invisibleOnConnect := false
  dotsInIdent := 0
  operOnlyUmodes := ∅

/-- Every check lets a connection through, in a block of the class. -/
def someVerdicts (noTilde : Bool) : Verdicts where
  cookieMissing := false
  access := .iline ⟨some 0, false, noTilde, false, none⟩
  classFull := false
  cidrFull := false
  rejectTime := false
  passwordWrong := false
  serverFull := false
  xlined := false
  deadBefore := false
  deadAfter := false
  ssl := false

/-- A connection without an ident answer that sends a USER name. -/
def arrival (id : ℕ) (noTilde : Bool) (username : Str) : List Event :=
  [.connect id false Buf.empty (Buf.strlcpy "host".toList) "10.0.0.1".toList (.inet 0x0A000001),
    .user 0 id username true (someVerdicts noTilde)]

/-- A block without tildes has its clients counted as if ident had answered for them. -/
theorem not_accountedBy_gotId : ¬ ∀ (cfg : CensusConfig) (events : List Event),
    AccountedBy (·.gotId) cfg.randomKey (run cfg events) := by
  intro h
  have hcounts := (h (someConfig 0) (arrival 1 true "user".toList)).counts "host".toList
    "user".toList
  revert hcounts
  decide

end NoTilde

end Census

end Unirc
