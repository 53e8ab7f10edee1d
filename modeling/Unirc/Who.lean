import Mathlib.Data.Finset.Lattice.Basic
import Mathlib.Data.Finset.Insert
import Unirc.Bans
import Unirc.SjoinHeader

/-!
# WHO

`m_who` of `m_who.c`. A search over all clients first goes through the channels of the client that
asks and marks the invisible members, so that none is listed twice, and then through all clients,
where the visible ones are listed and the others lose their marks.
-/

namespace Unirc

/-- What `m_who` reads of a client. -/
structure WhoClient where
  name : Str
  username : Str
  host : Str
  info : Str
  servptrName : Str
  isClient : Bool
  invisible : Bool
  oper : Bool
  admin : Bool
  services : Bool
  hideChannels : Bool

/-- A channel, with `get_member_status` of each member. -/
structure WhoChannel (α : Type*) where
  chname : Str
  secret : Bool
  pub : Bool
  members : List (α × Str)

/-- The clients and channels at the time of a `WHO`. Each client is in `global_client_list` once,
and the members of channels are clients. -/
structure WhoWorld (α : Type*) where
  client : α → WhoClient
  globalClientList : List α
  channel : α → List (WhoChannel α)
  findClient : Str → Option α
  hashFindChannel : Str → Option (WhoChannel α)
  hideServers : Bool
  paceWait : ℕ
  currentTime : ℕ
  nodup : globalClientList.Nodup
  member : ∀ c, ∀ ch ∈ channel c, ∀ m ∈ ch.members,
    m.1 ∈ globalClientList ∧ (client m.1).isClient = true

/-- `RPL_WHOREPLY` for a client, with the channel and the flags that are shown. -/
structure WhoReply (α : Type*) where
  target : α
  chname : Option Str
  opFlags : Str

/-- What is kept between commands: the marks on clients, and `last_used`. -/
structure WhoState (α : Type*) where
  marked : Finset α
  lastUsed : ℕ

/-- The variables of a search. -/
structure WhoScan (α : Type*) where
  maxmatches : ℕ
  marked : Finset α
  replies : List (WhoReply α)

/-- What a `WHO` answers. -/
inductive WhoAnswer (α : Type*)
  | load2hi
  | listed (replies : List (WhoReply α))

/-- What a mask asks for: the channel that the asker is on, a channel, a client, or a search. -/
inductive WhoForm (α : Type*)
  | own
  | channel (name : Str)
  | nick (t : α)
  | global (mask : Option Str)

namespace WhoWorld

variable {α : Type*} [DecidableEq α] (w : WhoWorld α) (source : α) (mask : Option Str)
  (serverOper : Bool)

/-- The comparisons with the mask, where that with the server is left out without `gate`. -/
def masked (gate : Bool) (t : α) : Bool :=
  mask.elim true fun mask =>
    matchMask mask (w.client t).name || matchMask mask (w.client t).username ||
      matchMask mask (w.client t).host || (gate && matchMask mask (w.client t).servptrName) ||
      matchMask mask (w.client t).info

/-- `do_who` without a channel, and the limit. -/
def doWho (t : α) (x : WhoScan α) : WhoScan α :=
  { x with replies := x.replies ++ [⟨t, none, []⟩], maxmatches := x.maxmatches - 1 }

/-- The end of the limit is reached with this reply. -/
def exhausted (x : WhoScan α) : Bool := x.maxmatches = 1

def whoCommonChannel : List α → WhoScan α → WhoScan α
  | [], x => x
  | t :: ts, x =>
      if !(w.client t).invisible || t ∈ x.marked then whoCommonChannel ts x
      else if serverOper && !(w.client t).oper then whoCommonChannel ts x
      else
        let x := { x with marked := insert t x.marked }
        if w.masked mask (!w.hideServers || (w.client source).oper) t then
          if exhausted x then doWho t x else whoCommonChannel ts (doWho t x)
        else whoCommonChannel ts x

/-- The second loop of `who_global`. -/
def whoVisible : List α → WhoScan α → WhoScan α
  | [], x => x
  | t :: ts, x =>
      if !(w.client t).isClient then whoVisible ts x
      else if (w.client t).invisible then whoVisible ts { x with marked := x.marked.erase t }
      else if serverOper && !(w.client t).oper then whoVisible ts x
      else if w.masked mask true t then
        if exhausted x then doWho t x else whoVisible ts (doWho t x)
      else whoVisible ts x

/-- `who_global`, behind the limit on the use of `WHO`. -/
def whoScan (marked : Finset α) : WhoScan α :=
  w.whoVisible mask serverOper w.globalClientList
    ((w.channel source).foldl
      (fun x ch => w.whoCommonChannel source mask serverOper (ch.members.map Prod.fst) x)
      ⟨500, marked, []⟩)

def whoGlobal (s : WhoState α) : WhoState α × WhoAnswer α :=
  if !(w.client source).oper && w.currentTime < s.lastUsed + w.paceWait then (s, .load2hi)
  else
    let x := w.whoScan source mask serverOper s.marked
    (⟨x.marked, if (w.client source).oper then s.lastUsed else w.currentTime⟩, .listed x.replies)

def isMember (ch : WhoChannel α) : Bool := source ∈ ch.members.map Prod.fst

def doWhoOnChannel (ch : WhoChannel α) (member : Bool) : List (WhoReply α) :=
  (ch.members.filter fun m =>
    (member || (w.client source).admin || (!(w.client m.1).invisible && !(w.client m.1).services &&
      !(w.client m.1).hideChannels)) && !(serverOper && !(w.client m.1).oper)).map
        fun m => ⟨m.1, some ch.chname, m.2⟩

/-- The reply for a nickname, with the first channel of it that may be shown. -/
def whoNick (t : α) : WhoReply α :=
  match (w.channel t).find? fun ch =>
      (ch.pub && !(w.client t).services && !(w.client t).hideChannels) ||
        isMember source ch || (w.client source).admin with
  | some ch => ⟨t, some ch.chname, ((ch.members.find? fun m => m.1 = t).map Prod.snd).getD []⟩
  | none => ⟨t, none, []⟩

/-- Which search the mask asks for. -/
def form : WhoForm α :=
  match mask with
  | none | some [] => .global mask
  | some m =>
      let m := collapse m
      if m = ['*'] then .own
      else if isChanPrefix (m.headD '\x00') then .channel m
      else
        match (w.findClient m).filter fun t =>
            (w.client t).isClient && (!serverOper || (w.client t).oper) with
        | some t => .nick t
        | none => .global (if m = ['0'] then none else some m)

/-- `m_who` -/
def mWho (s : WhoState α) : WhoState α × WhoAnswer α :=
  match w.form mask serverOper with
  | .global mask => w.whoGlobal source mask serverOper s
  | .own =>
      (s, .listed ((w.channel source).head?.elim [] fun ch =>
        w.doWhoOnChannel source serverOper ch true))
  | .channel m =>
      (s, .listed ((w.hashFindChannel m).elim [] fun ch =>
        if isMember source ch then w.doWhoOnChannel source serverOper ch true
        else if !ch.secret then w.doWhoOnChannel source serverOper ch false
        else []))
  | .nick t => (s, .listed [w.whoNick source t])

end WhoWorld

end Unirc
