import Mathlib.Data.Finset.Basic
import Unirc.ChannelMode
import Unirc.Hostmask
import Unirc.LinkGraph

/-!
# Clients, channels and memberships

The global state of a server: clients and channels joined by memberships, and
the list of the channels that the hash table holds. The primitives are those of
`channel.c` that create and remove channels and memberships.
-/

namespace Unirc

/-- The bits of `Membership.flags`, one for each `CHFL_*` constant. -/
inductive MemberFlag where
  | chflOwner | chflProtected | chflChanop | chflHalfop | chflVoice | chflDeopped
  | chflBanChecked | chflBanSilenced
  deriving DecidableEq, Repr

abbrev MemberFlags := Finset MemberFlag

/-- An entry of a ban, exception or invite list; `type` is the parsed host. -/
structure Ban where
  len : ℕ
  name : Str
  username : Str
  host : Str
  type : Netmask

structure Channel where
  chname : Buf (CHANNELLEN + 1)
  channelts : ℤ
  mode : Mode
  banlist : List Ban
  exceptlist : List Ban
  invexlist : List Ban

/-- A user or a server. `users` and `servers` are those of `serv`, and `invited`
holds channels. `ip` and `sockhost` are set for local users. -/
structure Client where
  name : Buf (HOSTLEN + 1)
  id : Buf (IDLEN + 1)
  username : Str
  host : Str
  realhost : Str
  sockhost : Str
  ip : IpAddr
  isClient : Bool
  myConnect : Bool
  tsinfo : ℤ
  from_ : ℕ
  servptr : ℕ
  users : List ℕ
  servers : List ℕ
  oper : Bool
  exemptResv : Bool
  regNick : Bool
  ssl : Bool
  gringo : Bool
  services : Bool
  hidden : Bool
  cloaked : Bool
  ipSpoof : Bool
  invited : List ℕ

namespace Client

/-- The zeroed record of `make_client` with a name, for a user or a server. -/
def make (name : Str) (isClient myConnect : Bool) : Client where
  name := Buf.strlcpy name
  id := Buf.empty
  username := []
  host := []
  realhost := []
  sockhost := []
  ip := .inet 0
  isClient := isClient
  myConnect := myConnect
  tsinfo := 0
  from_ := 0
  servptr := 0
  users := []
  servers := []
  oper := false
  exemptResv := false
  regNick := false
  ssl := false
  gringo := false
  services := false
  hidden := false
  cloaked := false
  ipSpoof := false
  invited := []

variable (a : Client)

def myClient : Bool := a.myConnect && a.isClient

/-- What never changes of a client. -/
def kind : Bool × Bool := (a.isClient, a.myConnect)

def hasId : Bool := a.id.val ≠ []

/-- `ID(x)`. -/
def idOrName : Str := if a.hasId then a.id.val else a.name.val

end Client

/-- Clients, channels and memberships are named by numbers that are not used
again; `nextChannel` and `nextClient` are the first unused ones. -/
structure Server where
  graph : LinkGraph Client Channel MemberFlags
  globalChannelList : List ℕ
  nextChannel : ℕ
  nextClient : ℕ

namespace Server

def init : Server := ⟨LinkGraph.empty, [], 0, 0⟩

section

variable (s : Server)

def client? (a : ℕ) : Option Client := (s.graph.lefts a).map Node.data

def channel? (c : ℕ) : Option Channel := (s.graph.rights c).map Node.data

/-- `client_p->channel`. -/
def memberships (a : ℕ) : List ℕ := (s.graph.listed .left a).getD []

/-- `chptr->members`. -/
def members (c : ℕ) : List ℕ := (s.graph.listed .right c).getD []

def updClient (a : ℕ) (f : Client → Client) : Server :=
  { s with graph := s.graph.mapLeft a f }

def updChannel (c : ℕ) (f : Channel → Channel) : Server :=
  { s with graph := s.graph.mapRight c f }

def updFlags (m : ℕ) (f : MemberFlags → MemberFlags) : Server :=
  { s with graph := s.graph.mapLabel m f }

/-- `hash_find_channel`. -/
def hashFindChannel (name : Str) : Option ℕ :=
  s.globalChannelList.find? fun c => (s.channel? c).any fun ch => !irccmp ch.chname.val name

/-- `find_channel_link`. -/
def findChannelLink (a c : ℕ) : Option ℕ :=
  if (s.client? a).any Client.isClient then s.graph.between a c else none

def isMember (a c : ℕ) : Bool := (s.findChannelLink a c).isSome

/-- `make_channel` at the time `now`. -/
def makeChannel (now : ℤ) (name : Str) : Server × ℕ :=
  ({ s with
      graph := s.graph.setRight s.nextChannel
        (some ⟨Buf.strlcpy name, now, Mode.zero, [], [], []⟩)
      globalChannelList := s.nextChannel :: s.globalChannelList
      nextChannel := s.nextChannel + 1 }, s.nextChannel)

def destroyChannel (c : ℕ) : Server :=
  { s with graph := s.graph.setRight c none, globalChannelList := s.globalChannelList.erase c }

def addUserToChannel (c a : ℕ) (flags : MemberFlags) : Server :=
  { s with graph := s.graph.link a c flags }

def removeUserFromChannel (m : ℕ) : Server :=
  match s.graph.links m with
  | none => s
  | some r =>
      let s' := { s with graph := s.graph.unlink m }
      if s'.members r.right = [] then s'.destroyChannel r.right else s'

end

section

variable (s : Server)

theorem client?_updClient (a b : ℕ) (f : Client → Client) : (s.updClient a f).client? b =
    if b = a then (s.client? b).map f else s.client? b :=
  LinkGraph.data_mapData s.graph.lefts a b f

theorem channel?_updChannel (c d : ℕ) (f : Channel → Channel) : (s.updChannel c f).channel? d =
    if d = c then (s.channel? d).map f else s.channel? d :=
  LinkGraph.data_mapData s.graph.rights c d f

@[simp] theorem client?_updChannel (c : ℕ) (f : Channel → Channel) (a : ℕ) :
    (s.updChannel c f).client? a = s.client? a := rfl

@[simp] theorem client?_updFlags (m : ℕ) (f : MemberFlags → MemberFlags) (a : ℕ) :
    (s.updFlags m f).client? a = s.client? a := rfl

@[simp] theorem channel?_updClient (a : ℕ) (f : Client → Client) (c : ℕ) :
    (s.updClient a f).channel? c = s.channel? c := rfl

@[simp] theorem channel?_updFlags (m : ℕ) (f : MemberFlags → MemberFlags) (c : ℕ) :
    (s.updFlags m f).channel? c = s.channel? c := rfl

@[simp] theorem client?_addUserToChannel (c a : ℕ) (flags : MemberFlags) (b : ℕ) :
    (s.addUserToChannel c a flags).client? b = s.client? b :=
  LinkGraph.data_mapLinks _ _ _ _

@[simp] theorem channel?_addUserToChannel (c a : ℕ) (flags : MemberFlags) (d : ℕ) :
    (s.addUserToChannel c a flags).channel? d = s.channel? d :=
  LinkGraph.data_mapLinks _ _ _ _

@[simp] theorem client?_makeChannel (now : ℤ) (name : Str) (a : ℕ) :
    (s.makeChannel now name).1.client? a = s.client? a := rfl

@[simp] theorem client?_destroyChannel (c a : ℕ) :
    (s.destroyChannel c).client? a = s.client? a := rfl

theorem client?_unlink (m a : ℕ) :
    ({ s with graph := s.graph.unlink m } : Server).client? a = s.client? a := by
  simp only [client?, LinkGraph.unlink]
  split
  · rfl
  · exact LinkGraph.data_mapLinks _ _ _ (·.erase m)

@[simp] theorem client?_removeUserFromChannel (m a : ℕ) :
    (s.removeUserFromChannel m).client? a = s.client? a := by
  unfold removeUserFromChannel
  split
  · rfl
  · dsimp only
    split
    · rw [client?_destroyChannel, client?_unlink]
    · rw [client?_unlink]

theorem isSome_channel? (c : ℕ) :
    (s.channel? c).isSome = (s.graph.listed .right c).isSome := by
  simp only [channel?, LinkGraph.listed, Side.pick, Option.isSome_map]

theorem isSome_client? (a : ℕ) :
    (s.client? a).isSome = (s.graph.listed .left a).isSome := by
  simp only [client?, LinkGraph.listed, Side.pick, Option.isSome_map]

end

/-- The states differ in the data of clients, channels and memberships only, and
the clients are of the same kinds. -/
structure Relabels (s s' : Server) : Prop where
  shape : s.graph.SameShape s'.graph
  kind : ∀ a, (s'.client? a).map Client.kind = (s.client? a).map Client.kind
  list : s'.globalChannelList = s.globalChannelList
  next : s'.nextChannel = s.nextChannel
  nextClient : s'.nextClient = s.nextClient

namespace Relabels

variable {s s' s'' : Server}

theorem refl (s : Server) : Relabels s s :=
  ⟨LinkGraph.SameShape.refl _, fun _ => rfl, rfl, rfl, rfl⟩

theorem trans (h : Relabels s s') (h' : Relabels s' s'') : Relabels s s'' :=
  ⟨h.shape.trans h'.shape, fun a => (h'.kind a).trans (h.kind a), h'.list.trans h.list,
    h'.next.trans h.next, h'.nextClient.trans h.nextClient⟩

theorem person_any (h : Relabels s s') (a : ℕ) :
    (s'.client? a).any Client.isClient = (s.client? a).any Client.isClient := by
  have hk := congrArg (Option.any Prod.fst) (h.kind a)
  rw [Option.any_map, Option.any_map] at hk
  exact hk

theorem myClient_any (h : Relabels s s') (a : ℕ) :
    (s'.client? a).any Client.myClient = (s.client? a).any Client.myClient := by
  have hk := congrArg (Option.any fun k => k.2 && k.1) (h.kind a)
  rw [Option.any_map, Option.any_map] at hk
  exact hk

theorem findChannelLink (h : Relabels s s') (a c : ℕ) :
    s'.findChannelLink a c = s.findChannelLink a c := by
  rw [Server.findChannelLink, h.person_any, h.shape.between, Server.findChannelLink]

theorem foldl {α : Type*} (f : Server → α → Server) (hf : ∀ s x, Relabels s (f s x)) (l : List α)
    (s : Server) : Relabels s (l.foldl f s) := by
  induction l generalizing s with
  | nil => exact refl s
  | cons x l ih => exact (hf s x).trans (ih (f s x))

theorem updChannel (s : Server) (c : ℕ) (f : Channel → Channel) :
    Relabels s (s.updChannel c f) :=
  ⟨LinkGraph.SameShape.mapRight _ _ _, fun _ => rfl, rfl, rfl, rfl⟩

theorem updFlags (s : Server) (m : ℕ) (f : MemberFlags → MemberFlags) :
    Relabels s (s.updFlags m f) :=
  ⟨LinkGraph.SameShape.mapLabel _ _ _, fun _ => rfl, rfl, rfl, rfl⟩

theorem updClient (s : Server) (a : ℕ) {f : Client → Client}
    (hf : ∀ k, (f k).kind = k.kind) : Relabels s (s.updClient a f) := by
  refine ⟨LinkGraph.SameShape.mapLeft _ _ _, fun b => ?_, rfl, rfl, rfl⟩
  by_cases h : b = a
  · subst h
    simp only [client?, Server.updClient, LinkGraph.mapLeft, LinkGraph.mapData,
      Function.update_self, Option.map_map]
    cases s.graph.lefts b with
    | none => rfl
    | some e => exact congrArg some (hf e.data)
  · simp only [client?, Server.updClient, LinkGraph.mapLeft, LinkGraph.mapData,
      Function.update_of_ne h]

end Relabels

/-- The membership graph is sound; `pending` is a channel that has been made and
has no member yet. -/
structure Inv (s : Server) (pending : Option ℕ) : Prop where
  wf : s.graph.WF
  simple : s.graph.Simple
  person : ∀ {m r}, s.graph.links m = some r → (s.client? r.left).any Client.isClient = true
  list : ∀ c, c ∈ s.globalChannelList ↔ (s.graph.listed .right c).isSome = true
  nodup : s.globalChannelList.Nodup
  member : ∀ {c l}, s.graph.listed .right c = some l → pending ≠ some c → l ≠ []
  fresh : ∀ {c}, (s.graph.listed .right c).isSome = true → c < s.nextChannel
  freshClient : ∀ {a}, (s.client? a).isSome = true → a < s.nextClient

namespace Inv

variable {s : Server} {pending : Option ℕ}

theorem init : Inv init none where
  wf := LinkGraph.wf_empty
  simple := LinkGraph.simple_empty
  person := fun h => by cases h
  list := fun c => by simp [Server.init, LinkGraph.empty, LinkGraph.listed, Side.pick]
  nodup := List.nodup_nil
  member := fun h => by cases h
  fresh := fun h => by cases h
  freshClient := fun h => by cases h

theorem weaken (h : s.Inv none) (pending : Option ℕ) : s.Inv pending :=
  { h with member := fun hl _ => h.member hl (by simp) }

theorem relabel {s' : Server} (h : s.Inv pending) (hr : Relabels s s') : s'.Inv pending where
  wf := hr.shape.wf h.wf
  simple := hr.shape.simple h.simple
  person := by
    intro m r hm
    obtain ⟨r₀, hr₀, hl, -⟩ := hr.shape.links_eq_some hm
    rw [hr.person_any, ← hl]
    exact h.person hr₀
  list := fun c => by rw [hr.list, hr.shape.listed, h.list]
  nodup := hr.list ▸ h.nodup
  member := fun hl => h.member (hr.shape.listed _ _ ▸ hl)
  fresh := fun hl => hr.next ▸ h.fresh (hr.shape.listed _ _ ▸ hl)
  freshClient := fun ha => by
    rw [isSome_client?, hr.shape.listed, ← isSome_client?] at ha
    exact hr.nextClient ▸ h.freshClient ha

/-- A pending channel that has got a member is an ordinary one. -/
theorem settle {c : ℕ} (h : s.Inv (some c)) (hc : s.members c ≠ []) : s.Inv none :=
  { h with
    member := by
      intro d l hl _ hnil
      by_cases hd : d = c
      · rw [hd] at hl
        exact hc (by simp only [members, hl, Option.getD_some, hnil])
      · exact h.member hl (by simpa using Ne.symm hd) hnil }

theorem makeChannel (h : s.Inv none) (now : ℤ) (name : Str) :
    (s.makeChannel now name).1.Inv (some (s.makeChannel now name).2) := by
  have hnew : s.graph.listed .right s.nextChannel = none := by
    by_contra hne
    exact absurd (h.fresh (Option.isSome_iff_ne_none.mpr hne)) (lt_irrefl _)
  refine ⟨h.wf.setRight (fun l hl => ?_) _, h.simple, h.person, fun c => ?_, ?_,
    fun {c l} hl hp => ?_, fun {c} hc => ?_, h.freshClient⟩
  · rw [hnew] at hl
    cases hl
  · simp only [Server.makeChannel, LinkGraph.listed_setRight, true_and, List.mem_cons]
    split
    · rename_i hc
      simp [hc]
    · rename_i hc
      simp [hc, h.list]
  · refine List.nodup_cons.mpr ⟨fun hm => ?_, h.nodup⟩
    rw [h.list, hnew] at hm
    cases hm
  · simp only [Server.makeChannel, LinkGraph.listed_setRight, true_and] at hl hp
    rw [if_neg (by simpa [eq_comm] using hp)] at hl
    exact h.member hl (by simp)
  · simp only [Server.makeChannel, LinkGraph.listed_setRight, true_and] at hc ⊢
    split at hc
    · omega
    · exact Nat.lt_succ_of_lt (h.fresh hc)

theorem destroyChannel {c : ℕ} (h : s.Inv (some c)) (hc : s.members c = []) :
    (s.destroyChannel c).Inv none := by
  refine ⟨h.wf.setRight (fun l hl => ?_) _, h.simple, h.person, fun d => ?_, h.nodup.erase c,
    fun {d l} hl _ => ?_, fun {d} hd => ?_, h.freshClient⟩
  · simpa [members, hl] using hc
  · simp only [Server.destroyChannel, LinkGraph.listed_setRight, true_and, h.nodup.mem_erase_iff]
    split
    · rename_i hd
      simp [hd]
    · rename_i hd
      simp [hd, h.list]
  · simp only [Server.destroyChannel, LinkGraph.listed_setRight, true_and] at hl
    split at hl
    · cases hl
    · rename_i hd
      exact h.member hl (by simpa using Ne.symm hd)
  · simp only [Server.destroyChannel, LinkGraph.listed_setRight, true_and] at hd
    split at hd
    · cases hd
    · exact h.fresh hd

/-- A user who is not a member is added, to a pending channel or another one. -/
theorem addUserToChannel {a c : ℕ} (h : s.Inv pending) (hp : ∀ d, pending = some d → d = c)
    (hc : (s.graph.listed .right c).isSome = true)
    (ha : (s.client? a).any Client.isClient = true) (hm : s.isMember a c = false)
    (flags : MemberFlags) : (s.addUserToChannel c a flags).Inv none := by
  have hlink : s.graph.between a c = none := by
    simpa [isMember, findChannelLink, ha] using hm
  have hlist : ∀ d, ((s.addUserToChannel c a flags).graph.listed .right d).isSome =
      (s.graph.listed .right d).isSome := by
    intro d
    rw [Server.addUserToChannel, LinkGraph.listed_link]
    split
    · rw [Option.isSome_map]
    · rfl
  refine ⟨h.wf.link ?_ ?_ flags, h.simple.link (fun m r hr hl => ?_) flags, fun {m r} hr => ?_,
    fun d => ?_, h.nodup, fun {d l} hl _ => ?_, fun {d} hd => ?_, fun {b} hb => ?_⟩
  · have : (s.client? a).isSome = true := Option.isSome_of_any ha
    simpa [client?] using this
  · simpa [LinkGraph.listed, Side.pick] using hc
  · exact h.wf.between_eq_none hlink hr hl
  · rw [client?_addUserToChannel]
    rw [Server.addUserToChannel, LinkGraph.links_link] at hr
    split at hr
    · obtain rfl := Option.some.inj hr
      exact ha
    · exact h.person hr
  · rw [hlist, ← h.list]
    rfl
  · rw [Server.addUserToChannel, LinkGraph.listed_link] at hl
    split at hl
    · obtain ⟨l₀, -, rfl⟩ := Option.map_eq_some_iff.mp hl
      exact List.cons_ne_nil _ _
    · rename_i hd
      exact h.member hl fun hpd => hd (hp d hpd)
  · rw [hlist] at hd
    exact h.fresh hd
  · rw [client?_addUserToChannel] at hb
    exact h.freshClient hb

theorem unlink (h : s.Inv none) {m : ℕ} {r : Link MemberFlags} (hm : s.graph.links m = some r) :
    Inv { s with graph := s.graph.unlink m } (some r.right) := by
  have hlist : ∀ d, ((s.graph.unlink m).listed .right d).isSome =
      (s.graph.listed .right d).isSome := by
    intro d
    rw [LinkGraph.listed_unlink _ hm]
    split
    · rw [Option.isSome_map]
    · rfl
  refine ⟨h.wf.unlink m, h.simple.unlink m, fun {k q} hq => ?_, fun d => ?_, h.nodup,
    fun {d l} hl hp => ?_, fun {d} hd => ?_, fun {b} hb => ?_⟩
  · rw [client?_unlink]
    rw [LinkGraph.links_unlink] at hq
    split at hq
    · cases hq
    · exact h.person hq
  · rw [hlist, ← h.list]
  · rw [LinkGraph.listed_unlink _ hm, if_neg] at hl
    · exact h.member hl (by simp)
    · rintro rfl
      exact hp rfl
  · rw [hlist] at hd
    exact h.fresh hd
  · rw [client?_unlink] at hb
    exact h.freshClient hb

theorem removeUserFromChannel (h : s.Inv none) (m : ℕ) :
    (s.removeUserFromChannel m).Inv none := by
  unfold Server.removeUserFromChannel
  split
  · exact h
  · rename_i r hm
    dsimp only
    split
    · rename_i hnil
      exact (h.unlink hm).destroyChannel hnil
    · rename_i hne
      exact (h.unlink hm).settle hne

end Inv

end Server

end Unirc
