import Unirc.Registration

/-!
# Steps of the census

What each command does to the registered clients: nothing, one more, one less, or one
that changes its modes. The invariants of the census follow from these cases.
-/

namespace Unirc

namespace Census

open Keyed

/-- The registered clients. -/
def clients (s : Census) : List User := s.users.filter (·.isClient)

/-- A connection that is not registered yet. -/
structure Fresh (u : User) : Prop where
  myConnect : u.myConnect = true
  isClient : u.isClient = false
  userHost : u.userHost = false
  umodes : u.umodes = ∅
  realhost : u.realhost = u.host

structure Wf (rk : U32) (s : Census) : Prop where
  ids : Unique User.id s.users
  hosts : s.userhosts.Wf rk
  fresh : ∀ u ∈ s.users, u.isClient = false → Fresh u
  flagged : ∀ u ∈ s.users, u.isClient = true → u.userHost = true

/-- The registered clients stay, and at most their modes change. -/
structure Still (rk : U32) (s s' : Census) : Prop where
  clients : ∃ l l', s.clients.Perm l ∧ List.Forall₂ SameUser l l' ∧ s'.clients.Perm l'
  hosts : ∀ h n, s'.userhosts.counts? rk h n = s.userhosts.counts? rk h n
  total : s'.total = s.total

/-- Nothing that is counted changes. -/
structure Quiet (rk : U32) (s s' : Census) : Prop where
  clients : s'.clients.Perm s.clients
  hosts : ∀ h n, s'.userhosts.counts? rk h n = s.userhosts.counts? rk h n
  total : s'.total = s.total
  invisi : s'.invisi = s.invisi
  oper : s'.oper = s.oper

/-- A client is registered. -/
structure Joined (rk : U32) (s s' : Census) (u : User) : Prop where
  clients : s'.clients.Perm (u :: s.clients)
  hosts : ∀ h n, s'.userhosts.counts? rk h n =
    (s.userhosts.addUserHost rk u.username.val u.realhost !u.myConnect).counts? rk h n
  total : s'.total = s.total + 1

/-- A registered client exits. -/
structure Left (rk : U32) (s s' : Census) (u : User) : Prop where
  clients : s.clients.Perm (u :: s'.clients)
  hosts : ∀ h n, s'.userhosts.counts? rk h n =
    (s.userhosts.deleteUserHost rk u.username.val u.realhost.val !u.myConnect).counts? rk h n
  total : s'.total = s.total - 1
  invisi : s'.invisi = s.invisi - u.isInvisible.toNat
  oper : s'.oper = s.oper - u.isOper.toNat

section Quiet

variable {rk : U32} {s s' s'' : Census}

theorem forall₂_refl (l : List User) : List.Forall₂ SameUser l l := by
  induction l with
  | nil => exact List.Forall₂.nil
  | cons u l ih => exact ih.cons (SameUser.refl u)

theorem Quiet.still (h : Quiet rk s s') : Still rk s s' where
  clients := ⟨s'.clients, s'.clients, h.clients.symm, forall₂_refl _, List.Perm.refl _⟩
  hosts := h.hosts
  total := h.total

theorem Quiet.refl (s : Census) : Quiet rk s s :=
  ⟨List.Perm.refl _, fun _ _ => rfl, rfl, rfl, rfl⟩

theorem Quiet.trans (h : Quiet rk s s') (h' : Quiet rk s' s'') : Quiet rk s s'' where
  clients := h'.clients.trans h.clients
  hosts := fun a n => (h'.hosts a n).trans (h.hosts a n)
  total := h'.total.trans h.total
  invisi := h'.invisi.trans h.invisi
  oper := h'.oper.trans h.oper

end Quiet

variable {cfg : CensusConfig} {rk : U32} {s : Census} {now : ℤ} {u u₀ : User}

theorem perm_clients_remove (h : s.user? u₀.id = some u₀) :
    s.clients.Perm ((u₀ :: remove User.id u₀.id s.users).filter (·.isClient)) :=
  (perm_cons_remove h).filter _

theorem perm_clients_putUser (h : s.user? u.id = some u₀) :
    (s.putUser u).clients.Perm ((u :: remove User.id u.id s.users).filter (·.isClient)) :=
  (perm_modify (f := fun _ => u) h).filter _

theorem user?_putUser (h : s.user? u.id = some u₀) : (s.putUser u).user? u.id = some u := by
  have hmod : (s.putUser u).user? u.id = (s.user? u.id).map fun _ => u :=
    get?_modify_self fun _ _ => rfl
  rw [hmod, h, Option.map_some]

theorem Wf.putUser (hs : s.Wf rk) (hfresh : u.isClient = false → Fresh u)
    (hflag : u.isClient = true → u.userHost = true) : (s.putUser u).Wf rk where
  ids := hs.ids.modify fun _ _ => rfl
  hosts := hs.hosts
  fresh := by
    intro v hv hclient
    rcases mem_modify hv with hv | ⟨a, -, rfl⟩
    · exact hs.fresh v hv hclient
    · exact hfresh hclient
  flagged := by
    intro v hv hclient
    rcases mem_modify hv with hv | ⟨a, -, rfl⟩
    · exact hs.flagged v hv hclient
    · exact hflag hclient

/-- Writing a connection that is not registered, and was not. -/
theorem Quiet.putUser (hu₀ : s.user? u.id = some u₀) (h₀ : u₀.isClient = false)
    (hu : u.isClient = false) : Quiet rk s (s.putUser u) where
  clients := by
    have hid : u₀.id = u.id := key_of_get? hu₀
    have hold := perm_clients_remove (hid ▸ hu₀)
    rw [hid, List.filter_cons_of_neg (by simp [h₀])] at hold
    have hnew := perm_clients_putUser hu₀
    rw [List.filter_cons_of_neg (by simp [hu])] at hnew
    exact hnew.trans hold.symm
  hosts := fun _ _ => rfl
  total := rfl
  invisi := rfl
  oper := rfl

section Exit

variable (hu : s.user? u.id = some u)

include hu

theorem exitClient_eq : s.exitClient cfg now u.id =
    { users := remove User.id u.id s.users
      userhosts :=
        if u.userHost then
          s.userhosts.deleteUserHost cfg.randomKey u.username.val u.realhost.val !u.myConnect
        else s.userhosts
      ips := if u.myConnect && u.ipHash then s.ips.removeOne cfg.ipLimits now u.ip else s.ips
      total := if u.isClient then s.total - 1 else s.total
      invisi := if u.isClient && u.isInvisible then s.invisi - 1 else s.invisi
      oper := if u.isClient && u.isOper then s.oper - 1 else s.oper
      localCount := if u.myClient then s.localCount - 1 else s.localCount } := by
  rw [exitClient, hu]

theorem Wf.exitClient (hs : s.Wf cfg.randomKey) :
    (s.exitClient cfg now u.id).Wf cfg.randomKey := by
  rw [exitClient_eq hu]
  refine ⟨hs.ids.remove, ?_, fun v hv => hs.fresh v (mem_of_mem_remove hv),
    fun v hv => hs.flagged v (mem_of_mem_remove hv)⟩
  dsimp only
  split
  · exact hs.hosts.delete _ _ _
  · exact hs.hosts

theorem Quiet.exitClient (hfresh : Fresh u) :
    Quiet cfg.randomKey s (s.exitClient cfg now u.id) := by
  have hold := perm_clients_remove hu
  rw [List.filter_cons_of_neg (by simp [hfresh.isClient])] at hold
  rw [exitClient_eq hu]
  refine ⟨hold.symm, fun h n => ?_, ?_, ?_, ?_⟩
  · simp only [hfresh.userHost, Bool.false_eq_true, if_false]
  all_goals simp only [hfresh.isClient, Bool.false_and, Bool.false_eq_true, if_false]

theorem Left.exitClient (hclient : u.isClient = true) (hflag : u.userHost = true) :
    Left cfg.randomKey s (s.exitClient cfg now u.id) u := by
  have hold := perm_clients_remove hu
  rw [List.filter_cons_of_pos (by simp [hclient])] at hold
  rw [exitClient_eq hu]
  refine ⟨hold, fun h n => ?_, ?_, ?_, ?_⟩
  · simp only [hflag, if_true]
  · simp only [hclient, if_true]
  · simp only [hclient, Bool.true_and]
    cases u.isInvisible <;> simp
  · simp only [hclient, Bool.true_and]
    cases u.isOper <;> simp

end Exit

section Register

variable {block : AuthBlock} {v : Verdicts} {username : Str}

theorem Fresh.spoofed (hu : Fresh u) (block : AuthBlock) : Fresh (u.spoofed block) := by
  unfold User.spoofed
  split
  · exact hu
  · exact ⟨hu.myConnect, hu.isClient, hu.userHost, hu.umodes, rfl⟩

theorem Fresh.withValidHost (hu : Fresh u) : Fresh u.withValidHost := by
  unfold User.withValidHost
  split
  · exact hu
  · exact ⟨hu.myConnect, hu.isClient, hu.userHost, hu.umodes, rfl⟩

theorem Fresh.withUsername (hu : Fresh u) (block : AuthBlock) (username : Str) :
    Fresh (u.withUsername block username) := by
  unfold User.withUsername
  split
  · exact hu
  · exact ⟨hu.myConnect, hu.isClient, hu.userHost, hu.umodes, hu.realhost⟩

theorem id_spoofed (u : User) (block : AuthBlock) : (u.spoofed block).id = u.id := by
  unfold User.spoofed
  split <;> rfl

theorem id_withValidHost (u : User) : u.withValidHost.id = u.id := by
  unfold User.withValidHost
  split <;> rfl

theorem id_withUsername (u : User) (block : AuthBlock) (username : Str) :
    (u.withUsername block username).id = u.id := by
  unfold User.withUsername
  split <;> rfl

/-- What the last step of a registration leaves as it is. -/
structure RegisteredFrom (u v : User) : Prop where
  id : v.id = u.id
  myConnect : v.myConnect = u.myConnect
  gotId : v.gotId = u.gotId
  username : v.username = u.username
  realhost : v.realhost = u.realhost
  sockhost : v.sockhost = u.sockhost
  iline : v.iline = u.iline
  isClient : v.isClient = true
  userHost : v.userHost = true

theorem registeredFrom (cfg : CensusConfig) (u : User) (ssl : Bool) : RegisteredFrom u (u.registered cfg ssl) := by
  unfold User.registered
  dsimp only
  split_ifs <;> exact ⟨rfl, rfl, rfl, rfl, rfl, rfl, rfl, rfl, rfl⟩

theorem isInvisible_registered (hu : Fresh u) (ssl : Bool) :
    (u.registered cfg ssl).isInvisible = cfg.invisibleOnConnect := by
  unfold User.registered
  dsimp only
  split_ifs <;> simp_all [User.setUMode, User.isInvisible, hu.umodes]

theorem isOper_registered (hu : Fresh u) (ssl : Bool) : (u.registered cfg ssl).isOper = false := by
  unfold User.registered
  dsimp only
  split_ifs <;> simp [User.setUMode, User.isOper, hu.umodes]

/-- `attach_iline` saw room for the client. -/
def PassesLimits (cfg : CensusConfig) (s : Census) (u : User) (block : AuthBlock)
    (classFull : Bool) : Prop :=
  ∃ k perIp, block.classPtr = some k ∧
    (limitReached cfg u (cfg.classes k)
      (s.userhosts.countUserHost cfg.randomKey u.username.val u.host.val).1 perIp classFull &&
        !block.exemptLimits) = false

/-- What `verify_access` does: the registered clients stay, and a client that gets an
auth block passed the limits. -/
structure Verified (cfg : CensusConfig) (s : Census) (u : User) (v : Verdicts)
    (r : Census × User × Attached) : Prop where
  users : r.1.users = s.users
  hosts : r.1.userhosts.Wf cfg.randomKey
  quiet : Quiet cfg.randomKey s r.1
  fresh : Fresh r.2.1
  id : r.2.1.id = u.id
  passes : r.2.2 = .ok → ∃ block, v.access = .iline block ∧
    s.PassesLimits cfg (u.spoofed block) block v.classFull ∧
    r.2.1 = { u.spoofed block with ipHash := true, iline := some block }

theorem verifyAccess_spec (now : ℤ) (v : Verdicts) (hs : s.Wf cfg.randomKey) (hu : Fresh u) :
    Verified cfg s u v (s.verifyAccess cfg now u v) := by
  have hquiet : ∀ ips t, (∀ h n, t.counts? cfg.randomKey h n =
      s.userhosts.counts? cfg.randomKey h n) →
      Quiet cfg.randomKey s { s with ips := ips, userhosts := t } :=
    fun _ _ ht => ⟨List.Perm.refl _, ht, rfl, rfl, rfl⟩
  unfold verifyAccess
  split
  · exact ⟨rfl, hs.hosts, Quiet.refl s, hu, rfl, fun h => by cases h⟩
  · rename_i block hblock
    have hfresh := hu.spoofed block
    have hid := id_spoofed u block
    have hspoofed : Fresh { u.spoofed block with ipHash := true } :=
      ⟨hfresh.myConnect, hfresh.isClient, hfresh.userHost, hfresh.umodes, hfresh.realhost⟩
    unfold attachIline
    dsimp only
    split
    · exact ⟨rfl, hs.hosts, hquiet _ s.userhosts fun _ _ => rfl, hspoofed, hid, fun h => by cases h⟩
    · rename_i k hk
      have htouch := hquiet (s.ips.addOne cfg.ipLimits now (u.spoofed block).ip) _ fun h n =>
        UserHostTable.counts?_touch s.userhosts (u.spoofed block).host.val h n
      have hwf := hs.hosts.touch (u.spoofed block).host.val
      split
      · exact ⟨rfl, hwf, htouch, hspoofed, hid, fun h => by cases h⟩
      · rename_i hlimit
        split
        · exact ⟨rfl, hwf, htouch, hspoofed, hid, fun h => by cases h⟩
        · have hpass : s.PassesLimits cfg (u.spoofed block) block v.classFull :=
            ⟨k, _, hk, Bool.eq_false_iff.mpr hlimit⟩
          exact ⟨rfl, hwf, htouch, ⟨hfresh.myConnect, hfresh.isClient, hfresh.userHost,
            hfresh.umodes, hfresh.realhost⟩, hid, fun _ => ⟨block, hblock, hpass, rfl⟩⟩

/-- A client is registered and counted. -/
structure Enrolled (rk : U32) (s s' : Census) (u : User) : Prop extends Joined rk s s' u where
  invisi : s'.invisi = s.invisi + u.isInvisible.toNat
  oper : s'.oper = s.oper + u.isOper.toNat

theorem Enrolled.ofQuiet {s' s'' : Census} (h : Quiet rk s s') (h' : Enrolled rk s' s'' u) :
    Enrolled rk s s'' u where
  clients := h'.clients.trans (h.clients.cons u)
  hosts := by
    intro a n
    rw [h'.hosts, UserHostTable.counts?_add, UserHostTable.counts?_add, h.hosts]
  total := by rw [h'.total, h.total]
  invisi := by rw [h'.invisi, h.invisi]
  oper := by rw [h'.oper, h.oper]

theorem enrol_spec (hs : s.Wf cfg.randomKey) (hu : s.user? u.id = some u) (hfresh : Fresh u) :
    (s.enrol cfg u v).Wf cfg.randomKey ∧
      Enrolled cfg.randomKey s (s.enrol cfg u v) (u.registered cfg v.ssl) := by
  have hreg := registeredFrom cfg u v.ssl
  have hold := perm_clients_remove hu
  rw [List.filter_cons_of_neg (by simp [hfresh.isClient])] at hold
  have hnew := perm_clients_putUser (u := u.registered cfg v.ssl) (hreg.id ▸ hu)
  rw [List.filter_cons_of_pos (by simp [hreg.isClient]), hreg.id] at hnew
  have hput : (s.putUser (u.registered cfg v.ssl)).Wf cfg.randomKey :=
    hs.putUser (fun h => by rw [hreg.isClient] at h; cases h) fun _ => hreg.userHost
  refine ⟨⟨hput.ids, hs.hosts.add _ _ _, hput.fresh, hput.flagged⟩,
    ⟨hnew.trans (hold.symm.cons _), fun h n => ?_, rfl⟩, ?_, ?_⟩
  · rw [hreg.myConnect, hfresh.myConnect]
    rfl
  · rw [isInvisible_registered hfresh]
    unfold enrol
    cases cfg.invisibleOnConnect <;> simp
  · rw [isOper_registered hfresh]
    simp [enrol, putUser, modifyUser]

/-- The client as it is registered through a block. -/
def admittedUser (cfg : CensusConfig) (u : User) (block : AuthBlock) (username : Str)
    (ssl : Bool) : User :=
  ((({ u.spoofed block with ipHash := true, iline := some block } : User).withValidHost.withUsername
    block username).registered cfg ssl)

/-- A connection in the census that is not registered. -/
def Pending (s : Census) (id : ℕ) : Prop := ∃ u₀, s.user? id = some u₀ ∧ u₀.isClient = false

theorem Pending.put (hs : s.Wf rk) (hp : s.Pending u.id) (hu : Fresh u) :
    (s.putUser u).Wf rk ∧ Quiet rk s (s.putUser u) ∧ (s.putUser u).user? u.id = some u := by
  obtain ⟨u₀, hu₀, h₀⟩ := hp
  refine ⟨hs.putUser (fun _ => hu) fun h => ?_, Quiet.putUser hu₀ h₀ hu.isClient,
    user?_putUser hu₀⟩
  rw [hu.isClient] at h
  cases h

theorem exit_fresh (now : ℤ) (hs : s.Wf cfg.randomKey) (hu : s.user? u.id = some u) (hfresh : Fresh u) :
    (s.exitClient cfg now u.id).Wf cfg.randomKey ∧
      Quiet cfg.randomKey s (s.exitClient cfg now u.id) :=
  ⟨Wf.exitClient hu hs, Quiet.exitClient hu hfresh⟩

theorem checkedRegister_cases (now : ℤ) (block : AuthBlock) (username : Str) (v : Verdicts)
    (hs : s.Wf cfg.randomKey) (hp : s.Pending u.id) (hu : Fresh u) :
    (s.checkedRegister cfg now u block username v).Wf cfg.randomKey ∧
      (Quiet cfg.randomKey s (s.checkedRegister cfg now u block username v) ∨
        Enrolled cfg.randomKey s (s.checkedRegister cfg now u block username v)
          ((u.withValidHost.withUsername block username).registered cfg v.ssl)) := by
  have hhost := hu.withValidHost
  have hname := hhost.withUsername block username
  have hp' : s.Pending u.withValidHost.id := (id_withValidHost u).symm ▸ hp
  obtain ⟨hs₁, hq₁, hget₁⟩ := hp'.put hs hhost
  have hp₁ : (s.putUser u.withValidHost).Pending (u.withValidHost.withUsername block username).id :=
    ⟨_, (id_withUsername _ block username).symm ▸ hget₁, hhost.isClient⟩
  obtain ⟨hs₂, hq₂, hget₂⟩ := hp₁.put hs₁ hname
  have hq := hq₁.trans hq₂
  unfold checkedRegister
  dsimp only
  split
  · obtain ⟨hs', hq'⟩ := exit_fresh now hs₁ hget₁ hhost
    exact ⟨hs', Or.inl (hq₁.trans hq')⟩
  · obtain ⟨hs', hq'⟩ := exit_fresh now hs₂ hget₂ hname
    split
    · exact ⟨hs', Or.inl (hq.trans hq')⟩
    · split
      · split
        · exact ⟨hs₂, Or.inl hq⟩
        · exact ⟨hs', Or.inl (hq.trans hq')⟩
      · split
        · exact ⟨hs₂, Or.inl hq⟩
        · obtain ⟨hs₃, henrol⟩ := enrol_spec (v := v) hs₂ hget₂ hname
          exact ⟨hs₃, Or.inr (Enrolled.ofQuiet hq henrol)⟩

/-- A registration leaves everything as it is, or enrols a client that passed the limits. -/
theorem registerLocalUser_cases (now : ℤ) (username : Str) (v : Verdicts)
    (hs : s.Wf cfg.randomKey) (hp : s.Pending u.id) (hu : Fresh u) :
    (s.registerLocalUser cfg now u username v).Wf cfg.randomKey ∧
      (Quiet cfg.randomKey s (s.registerLocalUser cfg now u username v) ∨
        ∃ block, v.access = .iline block ∧
          s.PassesLimits cfg (u.spoofed block) block v.classFull ∧
          Enrolled cfg.randomKey s (s.registerLocalUser cfg now u username v)
            (admittedUser cfg u block username v.ssl)) := by
  unfold registerLocalUser
  split
  · exact ⟨hs, Or.inl (Quiet.refl s)⟩
  · have hv := verifyAccess_spec now v hs hu
    generalize s.verifyAccess cfg now u v = r at hv
    obtain ⟨s₁, u₁, attached⟩ := r
    have husers : s₁.users = s.users := hv.users
    have hs₁ : s₁.Wf cfg.randomKey := ⟨husers ▸ hs.ids, hv.hosts, husers ▸ hs.fresh,
      husers ▸ hs.flagged⟩
    have hp₁ : s₁.Pending u₁.id := by
      obtain ⟨u₀, hu₀, h₀⟩ := hp
      refine ⟨u₀, ?_, h₀⟩
      rw [user?, husers, show u₁.id = u.id from hv.id]
      exact hu₀
    obtain ⟨hs₂, hq₂, hget₂⟩ := hp₁.put hs₁ hv.fresh
    have hq := hv.quiet.trans hq₂
    have hexit := exit_fresh now hs₂ hget₂ hv.fresh
    rw [show u₁.id = u.id from hv.id] at hexit
    dsimp only
    split
    · rename_i block hiline
      obtain ⟨b, hb, hpass, heq⟩ := hv.passes rfl
      obtain rfl : b = block := by
        rw [show u₁ = _ from heq] at hiline
        exact Option.some.inj hiline
      have hp₂ : (s₁.putUser u₁).Pending u₁.id := ⟨u₁, hget₂, hv.fresh.isClient⟩
      obtain ⟨hs₃, hcases⟩ := checkedRegister_cases now b username v hs₂ hp₂ hv.fresh
      refine ⟨hs₃, ?_⟩
      rcases hcases with hcase | hcase
      · exact Or.inl (hq.trans hcase)
      · refine Or.inr ⟨b, hb, hpass, Enrolled.ofQuiet hq ?_⟩
        rw [admittedUser, ← show u₁ = _ from heq]
        exact hcase
    · exact ⟨hs₂, Or.inl hq⟩
    · exact ⟨hexit.1, Or.inl (hq.trans hexit.2)⟩
    · split
      · exact ⟨hs₂, Or.inl hq⟩
      · exact ⟨hexit.1, Or.inl (hq.trans hexit.2)⟩

end Register

/-- The commands that change the census. -/
inductive Event where
  | connect (id : ℕ) (gotId : Bool) (username : Buf (USERLEN + 1)) (host : Buf (HOSTLEN + 1))
      (sockhost : Str) (ip : IpAddr)
  | cgiirc (id : ℕ) (username : Buf (USERLEN + 1)) (host : Buf (HOSTLEN + 1)) (sockhost : Str)
      (ip : IpAddr)
  | user (now : ℤ) (id : ℕ) (username : Str) (complete : Bool) (v : Verdicts)
  | complete (now : ℤ) (id : ℕ) (v : Verdicts)
  | uid (now : ℤ) (i : Introduction)
  | nick (now : ℤ) (i : Introduction)
  | userMode (id : ℕ) (server services : Bool) (params : List Str)
  | svsmode (id : ℕ) (params : List Str)
  | svsnoop
  | operUp (id : ℕ) (modes : UModes) (flags : OperFlags)
  | chghost (id : ℕ) (host : Str)
  | exit (now : ℤ) (id : ℕ)

/-- A connection that was accepted and whose authentication is over. -/
def connection (id : ℕ) (gotId : Bool) (username : Buf (USERLEN + 1)) (host : Buf (HOSTLEN + 1))
    (sockhost : Str) (ip : IpAddr) : User where
  id := id
  myConnect := true
  isClient := false
  gotId := gotId
  username := username
  host := host
  realhost := host
  sockhost := sockhost
  ip := ip
  umodes := ∅
  userHost := false
  ipHash := false
  ipSpoof := false
  operFlags := .none
  iline := none

/-- `mr_cgiirc`, once it accepts the gateway. -/
def mrCgiirc (s : Census) (id : ℕ) (username : Buf (USERLEN + 1)) (host : Buf (HOSTLEN + 1))
    (sockhost : Str) (ip : IpAddr) : Census :=
  match s.user? id with
  | none => s
  | some u =>
      if !u.myConnect || u.isClient then s
      else s.putUser { u with
        username := username, host := host, realhost := host, sockhost := sockhost, ip := ip }

/-- `me_chghost`, once it found the target. -/
def meChghost (s : Census) (id : ℕ) (host : Str) : Census :=
  match s.user? id with
  | none => s
  | some u => if u.isClient then s.putUser { u with host := Buf.strlcpy host } else s

def step (cfg : CensusConfig) (s : Census) : Event → Census
  | .connect id gotId username host sockhost ip =>
      if (s.user? id).isSome then s
      else { s with users := connection id gotId username host sockhost ip :: s.users }
  | .cgiirc id username host sockhost ip => s.mrCgiirc id username host sockhost ip
  | .user now id username complete v => s.doLocalUser cfg now id username complete v
  | .complete now id v => s.completeRegistration cfg now id v
  | .uid now i => s.clientFromServer cfg now i
  | .nick now i => s.nickFromServer cfg now i
  | .userMode id server services params => s.setUserMode cfg id server services params
  | .svsmode id params => s.meSvsmode cfg id params
  | .svsnoop => s.meSvsnoop cfg
  | .operUp id modes flags => s.operUp id modes flags
  | .chghost id host => s.meChghost id host
  | .exit now id => s.exitClient cfg now id

def run (cfg : CensusConfig) (events : List Event) : Census := events.foldl (step cfg) init

/-- The event has `register_local_user` run for a connection, with a user name. -/
inductive Registers (s : Census) : Event → User → Str → Verdicts → Prop
  | user {id : ℕ} {u : User} (now : ℤ) (username : Str) (v : Verdicts)
      (hu : s.user? id = some u) (hgot : u.gotId = true) :
      Registers s (.user now id username true v) u username v
  | named {id : ℕ} {u : User} (now : ℤ) (username : Str) (v : Verdicts)
      (hu : s.user? id = some u) (hgot : u.gotId = false) :
      Registers s (.user now id username true v) { u with username := Buf.strlcpy username }
        username v
  | complete {id : ℕ} {u : User} (now : ℤ) (v : Verdicts) (hu : s.user? id = some u) :
      Registers s (.complete now id v) u u.username.val v

/-- A connection that was let in through a block. -/
structure Admitted (cfg : CensusConfig) (s s' : Census) (e : Event) (u : User) (block : AuthBlock)
    (username : Str) (v : Verdicts) : Prop where
  registers : Registers s e u username v
  access : v.access = .iline block
  fresh : Fresh u
  passes : s.PassesLimits cfg (u.spoofed block) block v.classFull
  enrolled : Enrolled cfg.randomKey s s' (admittedUser cfg u block username v.ssl)

/-- Some connection was let in. -/
def LetIn (cfg : CensusConfig) (s s' : Census) (e : Event) : Prop :=
  ∃ u block username v, Admitted cfg s s' e u block username v

/-- What a step does to the registered clients and the userhost table. -/
inductive Effect (cfg : CensusConfig) (s s' : Census) (e : Event) : Prop
  | still (h : Still cfg.randomKey s s')
  | admitted {u : User} {block : AuthBlock} {username : Str} {v : Verdicts}
      (h : Admitted cfg s s' e u block username v)
  | introduced {u : User} (hremote : u.myConnect = false) (h : Joined cfg.randomKey s s' u)
  | left {u : User} (h : Left cfg.randomKey s s' u)

section Steps

variable {id : ℕ}

/-- A registered client changes what registration does not write. -/
theorem perm_putUser {w : User} (hu : s.user? u.id = some u) (hclient : u.isClient = true)
    (hsame : SameUser u w) :
    ∃ rest, s.clients.Perm (u :: rest) ∧ (s.putUser w).clients.Perm (w :: rest) := by
  have hold := perm_clients_remove hu
  rw [List.filter_cons_of_pos (by simp [hclient])] at hold
  have hnew := perm_clients_putUser (u := w) (hsame.id ▸ hu)
  rw [List.filter_cons_of_pos (by simp [hsame.isClient, hclient]), hsame.id] at hnew
  exact ⟨_, hold, hnew⟩

theorem Still.ofPerm {s' : Census} {w : User} (hsame : SameUser u w)
    (h : ∃ rest, s.clients.Perm (u :: rest) ∧ s'.clients.Perm (w :: rest))
    (hhosts : s'.userhosts = s.userhosts) (htotal : s'.total = s.total) : Still rk s s' := by
  obtain ⟨rest, hold, hnew⟩ := h
  refine ⟨⟨u :: rest, w :: rest, hold, (forall₂_refl rest).cons hsame, hnew⟩, ?_, htotal⟩
  intro a n
  rw [hhosts]

theorem Wf.put_same {w : User} (hs : s.Wf rk) (hu : s.user? u.id = some u)
    (hclient : u.isClient = true) (hsame : SameUser u w) : (s.putUser w).Wf rk := by
  have hflag := hs.flagged u (mem_of_get? hu) hclient
  refine hs.putUser (fun h => ?_) fun _ => hsame.userHost.trans hflag
  rw [hsame.isClient, hclient] at h
  cases h

theorem user?_id (h : s.user? id = some u) : s.user? u.id = some u := by
  rwa [show u.id = id from key_of_get? h]

theorem putModes_still {w : User} (hs : s.Wf rk) (hu : s.user? u.id = some u)
    (hclient : u.isClient = true) (hsame : SameUser u w) (oper : ℤ) :
    (s.putModes u w oper).Wf rk ∧ Still rk s (s.putModes u w oper) := by
  have heq : s.putModes u w oper =
      { s.putUser w with oper := oper, invisi := s.invisi + invisiDelta u w } := by
    unfold putModes putUser
    rw [hsame.id]
  have hwf := hs.put_same hu hclient hsame
  have hperm := perm_putUser hu hclient hsame
  rw [heq]
  exact ⟨⟨hwf.ids, hwf.hosts, hwf.fresh, hwf.flagged⟩, Still.ofPerm hsame hperm rfl rfl⟩

theorem still_setUserMode (hs : s.Wf rk) (id : ℕ) (server services : Bool) (params : List Str) :
    (s.setUserMode cfg id server services params).Wf rk ∧
      Still rk s (s.setUserMode cfg id server services params) := by
  unfold setUserMode
  split
  · exact ⟨hs, (Quiet.refl s).still⟩
  · rename_i u hu
    split
    · exact ⟨hs, (Quiet.refl s).still⟩
    · rename_i hcond
      have hclient : u.isClient = true := Bool.not_eq_false _ ▸ fun h => hcond (Or.inl h)
      have hkept := ModeScan.Kept.foldl (ModeScan.Kept.setLetter cfg server services)
        ⟨true, u, s.oper⟩ params.flatten
      exact putModes_still hs (user?_id hu) hclient (hkept.same.trans SameUser.dropPrivileged) _

theorem still_meSvsmode (hs : s.Wf rk) (id : ℕ) (params : List Str) :
    (s.meSvsmode cfg id params).Wf rk ∧ Still rk s (s.meSvsmode cfg id params) := by
  unfold meSvsmode
  split
  · exact ⟨hs, (Quiet.refl s).still⟩
  · rename_i u hu
    split
    · exact ⟨hs, (Quiet.refl s).still⟩
    · rename_i hcond
      have hkept := ModeScan.Kept.foldl (ModeScan.Kept.svsLetter cfg)
        ⟨true, u, s.oper⟩ params.flatten
      exact putModes_still hs (user?_id hu) (Bool.not_eq_false _ ▸ hcond) hkept.same _

theorem same_noopUser (u : User) : SameUser u (noopUser cfg u) := by
  unfold noopUser
  split
  · exact SameUser.clearOper
  · exact SameUser.refl u

theorem clients_meSvsnoop : (s.meSvsnoop cfg).clients = s.clients.map (noopUser cfg) := by
  unfold clients meSvsnoop
  rw [List.filter_map]
  congr 1
  exact List.filter_congr fun u _ => (same_noopUser u).isClient

theorem forall₂_map {f : User → User} (hf : ∀ u, SameUser u (f u)) (l : List User) :
    List.Forall₂ SameUser l (l.map f) := by
  induction l with
  | nil => exact List.Forall₂.nil
  | cons u l ih => exact ih.cons (hf u)

theorem still_meSvsnoop (hs : s.Wf rk) :
    (s.meSvsnoop cfg).Wf rk ∧ Still rk s (s.meSvsnoop cfg) := by
  refine ⟨⟨?_, hs.hosts, ?_, ?_⟩, ⟨⟨s.clients, _, List.Perm.refl _, forall₂_map same_noopUser _,
    List.Perm.of_eq clients_meSvsnoop⟩, fun _ _ => rfl, rfl⟩⟩
  · have hmap : (s.users.map (noopUser cfg)).map User.id = s.users.map User.id := by
      rw [List.map_map]
      exact List.map_congr_left fun u _ => (same_noopUser u).id
    unfold Keyed.Unique meSvsnoop
    rw [hmap]
    exact hs.ids
  · intro w hw hclient
    obtain ⟨u, hu, rfl⟩ := List.mem_map.mp hw
    have hclient' : u.isClient = false := (same_noopUser u).isClient ▸ hclient
    have hsame : noopUser cfg u = u := by
      rw [noopUser, if_neg]
      simp [User.myClient, hclient']
    rw [hsame]
    exact hs.fresh u hu hclient'
  · intro w hw hclient
    obtain ⟨u, hu, rfl⟩ := List.mem_map.mp hw
    rw [(same_noopUser u).userHost]
    exact hs.flagged u hu ((same_noopUser u).isClient ▸ hclient)

/-- A registration, from a census that differs in connections only. -/
theorem registerLocalUser_spec {s₁ : Census} {e : Event} {username : Str} {v : Verdicts}
    (hs₁ : s₁.Wf cfg.randomKey) (hp : s₁.Pending u.id) (hu : Fresh u)
    (hq : Quiet cfg.randomKey s s₁) (hhosts : s₁.userhosts = s.userhosts)
    (hreg : Registers s e u username v) :
    (s₁.registerLocalUser cfg now u username v).Wf cfg.randomKey ∧
      (Quiet cfg.randomKey s (s₁.registerLocalUser cfg now u username v) ∨
        LetIn cfg s (s₁.registerLocalUser cfg now u username v) e) := by
  obtain ⟨hs', hcases⟩ := registerLocalUser_cases now username v hs₁ hp hu
  refine ⟨hs', ?_⟩
  rcases hcases with hquiet | ⟨block, haccess, hpass, henrol⟩
  · exact Or.inl (hq.trans hquiet)
  · unfold PassesLimits at hpass
    rw [hhosts] at hpass
    exact Or.inr ⟨u, block, username, v, hreg, haccess, hu, hpass, Enrolled.ofQuiet hq henrol⟩

theorem pending_of_cond {u : User} (hu : s.user? id = some u)
    (hcond : ¬(!u.myConnect || u.isClient) = true) : s.Pending u.id ∧ u.isClient = false := by
  simp only [Bool.or_eq_true, Bool.not_eq_true', not_or, Bool.not_eq_true] at hcond
  exact ⟨⟨u, user?_id hu, hcond.2⟩, hcond.2⟩

theorem doLocalUser_spec (hs : s.Wf cfg.randomKey) (now : ℤ) (id : ℕ) (username : Str)
    (complete : Bool) (v : Verdicts) :
    (s.doLocalUser cfg now id username complete v).Wf cfg.randomKey ∧
      (Quiet cfg.randomKey s (s.doLocalUser cfg now id username complete v) ∨
        LetIn cfg s (s.doLocalUser cfg now id username complete v)
          (.user now id username complete v)) := by
  unfold doLocalUser
  split
  · exact ⟨hs, Or.inl (Quiet.refl s)⟩
  · rename_i u₀ hu₀
    split
    · exact ⟨hs, Or.inl (Quiet.refl s)⟩
    · rename_i hcond
      obtain ⟨hp, h₀⟩ := pending_of_cond hu₀ hcond
      have hfresh₀ := hs.fresh u₀ (mem_of_get? hu₀) h₀
      extract_lets u s₁
      have hid : u.id = u₀.id := by
        dsimp only [u]
        split <;> rfl
      have hfresh : Fresh u := by
        dsimp only [u]
        split
        · exact hfresh₀
        · exact ⟨hfresh₀.myConnect, h₀, hfresh₀.userHost, hfresh₀.umodes, hfresh₀.realhost⟩
      obtain ⟨hs₁, hq, hget⟩ := Pending.put hs (hid ▸ hp) hfresh
      split
      · rename_i hcomplete
        rw [hcomplete]
        refine registerLocalUser_spec hs₁ ⟨u, hget, hfresh.isClient⟩ hfresh hq rfl ?_
        dsimp only [u]
        split
        · rename_i hgot
          exact Registers.user now username v hu₀ hgot
        · rename_i hgot
          exact Registers.named now username v hu₀ (Bool.not_eq_true _ ▸ hgot)
      · exact ⟨hs₁, Or.inl hq⟩

theorem completeRegistration_spec (hs : s.Wf cfg.randomKey) (now : ℤ) (id : ℕ) (v : Verdicts) :
    (s.completeRegistration cfg now id v).Wf cfg.randomKey ∧
      (Quiet cfg.randomKey s (s.completeRegistration cfg now id v) ∨
        LetIn cfg s (s.completeRegistration cfg now id v) (.complete now id v)) := by
  unfold completeRegistration
  split
  · exact ⟨hs, Or.inl (Quiet.refl s)⟩
  · rename_i u hu
    split
    · exact ⟨hs, Or.inl (Quiet.refl s)⟩
    · rename_i hcond
      obtain ⟨hp, h₀⟩ := pending_of_cond hu hcond
      exact registerLocalUser_spec hs hp (hs.fresh u (mem_of_get? hu) h₀) (Quiet.refl s) rfl
        (Registers.complete now v hu)

theorem connect_spec (hs : s.Wf cfg.randomKey) (id : ℕ) (gotId : Bool)
    (username : Buf (USERLEN + 1)) (host : Buf (HOSTLEN + 1)) (sockhost : Str) (ip : IpAddr) :
    (s.step cfg (.connect id gotId username host sockhost ip)).Wf cfg.randomKey ∧
      Quiet cfg.randomKey s (s.step cfg (.connect id gotId username host sockhost ip)) := by
  unfold step
  dsimp only
  split
  · exact ⟨hs, Quiet.refl s⟩
  · rename_i hnone
    have hget : s.user? id = none := by simpa using hnone
    refine ⟨⟨hs.ids.cons hget, hs.hosts, fun u hu hclient => ?_, fun u hu hclient => ?_⟩, ?_⟩
    · rcases List.mem_cons.mp hu with rfl | hu
      · exact ⟨rfl, rfl, rfl, rfl, rfl⟩
      · exact hs.fresh u hu hclient
    · rcases List.mem_cons.mp hu with rfl | hu
      · cases hclient
      · exact hs.flagged u hu hclient
    · exact ⟨List.Perm.refl _, fun _ _ => rfl, rfl, rfl, rfl⟩

theorem mrCgiirc_spec (hs : s.Wf rk) (id : ℕ) (username : Buf (USERLEN + 1))
    (host : Buf (HOSTLEN + 1)) (sockhost : Str) (ip : IpAddr) :
    (s.mrCgiirc id username host sockhost ip).Wf rk ∧
      Quiet rk s (s.mrCgiirc id username host sockhost ip) := by
  unfold mrCgiirc
  split
  · exact ⟨hs, Quiet.refl s⟩
  · rename_i u hu
    split
    · exact ⟨hs, Quiet.refl s⟩
    · rename_i hcond
      obtain ⟨hp, h₀⟩ := pending_of_cond hu hcond
      have hfresh := hs.fresh u (mem_of_get? hu) h₀
      obtain ⟨hs', hq, -⟩ := Pending.put
        (u := { u with
          username := username, host := host, realhost := host, sockhost := sockhost, ip := ip })
        hs hp ⟨hfresh.myConnect, h₀, hfresh.userHost, hfresh.umodes, rfl⟩
      exact ⟨hs', hq⟩

theorem still_meChghost (hs : s.Wf rk) (id : ℕ) (host : Str) :
    (s.meChghost id host).Wf rk ∧ Still rk s (s.meChghost id host) := by
  unfold meChghost
  split
  · exact ⟨hs, (Quiet.refl s).still⟩
  · rename_i u hu
    split
    · rename_i hclient
      have hsame : SameUser u { u with host := Buf.strlcpy host } :=
        ⟨rfl, rfl, rfl, rfl, rfl, rfl, rfl, rfl, rfl⟩
      exact ⟨hs.put_same (user?_id hu) hclient hsame,
        Still.ofPerm hsame (perm_putUser (user?_id hu) hclient hsame) rfl rfl⟩
    · exact ⟨hs, (Quiet.refl s).still⟩

/-- The user that `oper_up` makes. -/
def operUser (u : User) (modes : UModes) (flags : OperFlags) : User :=
  let umodes := insert .oper u.umodes ∪ modes
  let umodes := if flags.operAdmin || flags.operHiddenAdmin then insert .admin umodes else umodes
  let umodes := if flags.operN then umodes else umodes.erase .nchange
  { u with umodes := umodes, operFlags := flags }

theorem same_operUser (u : User) (modes : UModes) (flags : OperFlags) :
    SameUser u (operUser u modes flags) := ⟨rfl, rfl, rfl, rfl, rfl, rfl, rfl, rfl, rfl⟩

theorem operUp_cases (s : Census) (id : ℕ) (modes : UModes) (flags : OperFlags) :
    s.operUp id modes flags = s ∨ ∃ u, s.user? id = some u ∧ u.myClient = true ∧
      u.isOper = false ∧
      s.operUp id modes flags = { s.putUser (operUser u modes flags) with oper := s.oper + 1 } := by
  unfold operUp
  split
  · exact Or.inl rfl
  · rename_i u hu
    split
    · rename_i hcond
      simp only [Bool.and_eq_true, Bool.not_eq_true'] at hcond
      refine Or.inr ⟨u, hu, hcond.1, hcond.2, ?_⟩
      have hid : (operUser u modes flags).id = id :=
        (same_operUser u modes flags).id.trans (key_of_get? hu)
      rw [putUser, hid]
      dsimp only [modifyUser]
      rw [modify_congr fun a ha => ?_]
      obtain rfl : a = u := Option.some.inj (ha.symm.trans hu)
      rfl
    · exact Or.inl rfl

theorem still_operUp (hs : s.Wf rk) (id : ℕ) (modes : UModes) (flags : OperFlags) :
    (s.operUp id modes flags).Wf rk ∧ Still rk s (s.operUp id modes flags) := by
  rcases operUp_cases s id modes flags with heq | ⟨u, hu, hmine, -, heq⟩
  · rw [heq]
    exact ⟨hs, (Quiet.refl s).still⟩
  · have hclient : u.isClient = true := (Bool.and_eq_true_iff.mp hmine).2
    have hsame := same_operUser u modes flags
    have hwf := hs.put_same (user?_id hu) hclient hsame
    rw [heq]
    exact ⟨⟨hwf.ids, hwf.hosts, hwf.fresh, hwf.flagged⟩,
      Still.ofPerm hsame (perm_putUser (user?_id hu) hclient hsame) rfl rfl⟩

/-- The modes and the counters after the letters of an introduction. -/
def Introduction.scan (s : Census) (letter : UModes × ℤ × ℤ → Char → UModes × ℤ × ℤ)
    (i : Introduction) : UModes × ℤ × ℤ :=
  (i.umodes.drop 1).foldl letter (∅, s.invisi, s.oper)

/-- The client that an introduction makes. -/
def introducedUser (i : Introduction) (umodes : UModes) : User :=
  { i.user umodes with isClient := true, userHost := true }

theorem introduce_of_isSome {letter : UModes × ℤ × ℤ → Char → UModes × ℤ × ℤ} {i : Introduction}
    (h : (s.user? i.id).isSome = true) : s.introduce cfg now letter i = s := if_pos h

theorem introduce_of_refused {letter : UModes × ℤ × ℤ → Char → UModes × ℤ × ℤ}
    {i : Introduction} (h : (s.user? i.id).isSome = false) (hrefused : i.refused = true) :
    s.introduce cfg now letter i =
      { s with invisi := (i.scan s letter).2.1, oper := (i.scan s letter).2.2 } := by
  unfold introduce registerRemoteUser
  rw [if_neg (by rw [h]; exact Bool.false_ne_true), if_pos hrefused]
  have hget : user? { s with
      users := i.user (i.scan s letter).1 :: s.users,
      invisi := (i.scan s letter).2.1, oper := (i.scan s letter).2.2 }
      (i.user (i.scan s letter).1).id = some (i.user (i.scan s letter).1) :=
    get?_cons_self rfl
  refine (exitClient_eq hget).trans ?_
  rw [remove_cons_self rfl]
  rfl

theorem introduce_of_new {letter : UModes × ℤ × ℤ → Char → UModes × ℤ × ℤ}
    {i : Introduction} (h : (s.user? i.id).isSome = false) (hrefused : i.refused = false) :
    s.introduce cfg now letter i =
      { s with
        users := introducedUser i (i.scan s letter).1 :: s.users
        userhosts := s.userhosts.addUserHost cfg.randomKey
          (introducedUser i (i.scan s letter).1).username.val
          (introducedUser i (i.scan s letter).1).realhost true
        total := s.total + 1
        invisi := (i.scan s letter).2.1
        oper := (i.scan s letter).2.2 } := by
  unfold introduce registerRemoteUser
  rw [if_neg (by rw [h]; exact Bool.false_ne_true), if_neg (by rw [hrefused]; exact Bool.false_ne_true)]
  unfold putUser modifyUser
  dsimp only
  rw [modify_cons_self rfl]
  rfl

theorem effect_introduce (hs : s.Wf cfg.randomKey) (now : ℤ)
    (letter : UModes × ℤ × ℤ → Char → UModes × ℤ × ℤ) (i : Introduction) (e : Event) :
    (s.introduce cfg now letter i).Wf cfg.randomKey ∧
      Effect cfg s (s.introduce cfg now letter i) e := by
  cases hid : (s.user? i.id).isSome with
  | true =>
      rw [introduce_of_isSome hid]
      exact ⟨hs, Effect.still (Quiet.refl s).still⟩
  | false =>
      cases hrefused : i.refused with
      | true =>
          rw [introduce_of_refused hid hrefused]
          refine ⟨⟨hs.ids, hs.hosts, hs.fresh, hs.flagged⟩, Effect.still ?_⟩
          exact ⟨⟨_, _, List.Perm.refl _, forall₂_refl _, List.Perm.refl _⟩, fun _ _ => rfl, rfl⟩
      | false =>
          rw [introduce_of_new hid hrefused]
          have hget : s.user? i.id = none := by simpa using hid
          refine ⟨⟨hs.ids.cons hget, hs.hosts.add _ _ _, fun u hu hclient => ?_,
            fun u hu hclient => ?_⟩, Effect.introduced rfl ⟨List.Perm.refl _, fun _ _ => rfl, rfl⟩⟩
          · rcases List.mem_cons.mp hu with rfl | hu
            · cases hclient
            · exact hs.fresh u hu hclient
          · rcases List.mem_cons.mp hu with rfl | hu
            · rfl
            · exact hs.flagged u hu hclient

theorem exit_cases (hs : s.Wf cfg.randomKey) (now : ℤ) (id : ℕ) :
    (s.exitClient cfg now id).Wf cfg.randomKey ∧
      (Quiet cfg.randomKey s (s.exitClient cfg now id) ∨
        ∃ u, Left cfg.randomKey s (s.exitClient cfg now id) u) := by
  cases hu : s.user? id with
  | none =>
      unfold exitClient
      rw [hu]
      exact ⟨hs, Or.inl (Quiet.refl s)⟩
  | some u =>
      have hid : u.id = id := key_of_get? hu
      have hmem : u ∈ s.users := mem_of_get? hu
      rw [← hid] at hu ⊢
      refine ⟨Wf.exitClient hu hs, ?_⟩
      cases hclient : u.isClient with
      | false => exact Or.inl (Quiet.exitClient hu (hs.fresh u hmem hclient))
      | true => exact Or.inr ⟨u, Left.exitClient hu hclient (hs.flagged u hmem hclient)⟩

theorem Effect.ofLetIn {s' : Census} {e : Event}
    (h : Quiet cfg.randomKey s s' ∨ LetIn cfg s s' e) : Effect cfg s s' e := by
  rcases h with hquiet | ⟨u, block, username, v, hadmitted⟩
  · exact Effect.still hquiet.still
  · exact Effect.admitted hadmitted

/-- What a step does. -/
theorem step_spec (hs : s.Wf cfg.randomKey) (e : Event) :
    (s.step cfg e).Wf cfg.randomKey ∧ Effect cfg s (s.step cfg e) e := by
  cases e with
  | connect id gotId username host sockhost ip =>
      exact (connect_spec hs id gotId username host sockhost ip).imp_right
        fun h => Effect.still h.still
  | cgiirc id username host sockhost ip =>
      exact (mrCgiirc_spec hs id username host sockhost ip).imp_right
        fun h => Effect.still h.still
  | user now id username complete v =>
      exact (doLocalUser_spec hs now id username complete v).imp_right Effect.ofLetIn
  | complete now id v => exact (completeRegistration_spec hs now id v).imp_right Effect.ofLetIn
  | uid now i => exact effect_introduce hs now uidLetter i _
  | nick now i => exact effect_introduce hs now nickLetter i _
  | userMode id server services params =>
      exact (still_setUserMode hs id server services params).imp_right Effect.still
  | svsmode id params => exact (still_meSvsmode hs id params).imp_right Effect.still
  | svsnoop => exact (still_meSvsnoop hs).imp_right Effect.still
  | operUp id modes flags => exact (still_operUp hs id modes flags).imp_right Effect.still
  | chghost id host => exact (still_meChghost hs id host).imp_right Effect.still
  | exit now id =>
      obtain ⟨hs', hquiet | ⟨u, hleft⟩⟩ := exit_cases hs now id
      · exact ⟨hs', Effect.still hquiet.still⟩
      · exact ⟨hs', Effect.left hleft⟩

end Steps

theorem wf_init (rk : U32) : init.Wf rk where
  ids := List.nodup_nil
  hosts := UserHostTable.wf_empty
  fresh := fun u hu => by cases hu
  flagged := fun u hu => by cases hu

theorem run_concat (cfg : CensusConfig) (events : List Event) (e : Event) :
    run cfg (events ++ [e]) = (run cfg events).step cfg e := by
  rw [run, run, List.foldl_append]
  rfl

theorem wf_run (cfg : CensusConfig) (events : List Event) :
    (run cfg events).Wf cfg.randomKey := by
  induction events using List.reverseRecOn with
  | nil => exact wf_init cfg.randomKey
  | append_singleton events e ih =>
      rw [run_concat]
      exact (step_spec ih e).1

end Census

end Unirc
