import Unirc.GlineRelay
import Unirc.Match
import Unirc.ParamArray

/-!
# KILL

`mo_kill`, `ms_kill` and `relay_kill` of `m_kill.c`: the text that is formatted into `buf` for
`exit_client`, and the lines to the other servers. The notices to operators, the log, and what a
lazy leaf is told in front of a line are left out.
-/

namespace Unirc

abbrev KILLLEN : ℕ := 90

inductive KillStatus
  | me | server | client | unknown
  deriving DecidableEq

/-- A client or server, as far as KILL looks at it. -/
structure KillClient where
  name : Str
  id : Str
  username : Str
  host : Str
  servptr : Str
  vlinkNome : Option Str
  status : KillStatus
  myConnect : Bool
  services : Bool
  netAdmin : Bool
  oper : Bool
  vOper : Bool
  vAdmin : Bool
  operK : Bool
  operGlobalKill : Bool
  hidden : Bool
  lazyLinkClientExists : BitVec 64
  isWord_name : IsWord name
  name_le : name.length ≤ HOSTLEN
  nick_lt : status ≠ .server → name.length < NICKLEN
  isWord_id : id = [] ∨ IsWord id
  digit_id : id = [] ∨ id.head?.any Char.isDigit = true
  id_le : id.length ≤ IDLEN
  username_le : username.length ≤ USERLEN
  host_le : host.length ≤ HOSTLEN
  deriving DecidableEq

/-- A server of `serv_list`. -/
structure KillLink where
  link : ℕ
  name : Str
  ts6 : Bool
  ll : Bool
  serverMask : BitVec 64

/-- The tables, where `history` is `get_history` within `kill_chase_time_limit`. -/
structure KillServer where
  me : Str
  me_le : me.length ≤ HOSTLEN
  hub : Bool
  hideServers : Bool
  links : List KillLink
  findClient : Str → Option KillClient
  hashFindId : Str → Option KillClient
  history : Str → Option KillClient

inductive KillReply
  | needMoreParams
  | noPrivileges
  | noSuchNick (user : Str)
  | changed (user name : Str)
  | cantKillServer
  | notOnYourServer (nick : Str)
  | virtualAdmin
  | notVirtual
  deriving DecidableEq

/-- A KILL that is carried out: the text in `buf`, and the lines to the servers. -/
structure Killed where
  target : KillClient
  text : Str
  lines : List (KillLink × Str)

/-- Whether `find_person` takes a name for an id. -/
def looksLikeId (name : Str) : Bool := name.head?.any Char.isDigit

namespace KillServer

variable (s : KillServer) (source target : KillClient)

/-- `ID_or_name`. -/
def idOrName (c : KillClient) (l : KillLink) : Str := if l.ts6 && c.id ≠ [] then c.id else c.name

/-- `find_person` for a server. -/
def findPerson (name : Str) : Option KillClient :=
  (if looksLikeId name then s.hashFindId name else s.findClient name).filter (·.status = .client)

/-- The part of both handlers for virtual operators. -/
def vlinkCheck : Option KillReply :=
  match source.vlinkNome with
  | none => some .notVirtual
  | some v =>
      match target.vlinkNome with
      | none => some (.notOnYourServer target.name)
      | some w =>
          if !matchMask v w then some (.notOnYourServer target.name)
          else if target.vAdmin && target ≠ source then some .virtualAdmin
          else none

/-- The servers that `relay_kill` does not skip. -/
def relayed (one : Option ℕ) : List KillLink :=
  s.links.filter fun l => some l.link ≠ one && !(source.status = .server && s.hub && l.ll &&
    l.serverMask &&& target.lazyLinkClientExists = 0)

/-- What `relay_kill` sends to one of them. -/
def relayLine (inpath reason : Str) (l : KillLink) : Str :=
  let front := [':' :: idOrName source l, "KILL".toList, idOrName target l]
  if source.myConnect && source.status = .client then
    sendFormat (front ++ [':' :: s.me ++ '!' :: source.host ++ '!' :: source.username ++
      '!' :: source.name, '(' :: reason ++ [')']])
  else sendFormat (front ++ [':' :: inpath, reason])

/-- `relay_kill`. -/
def relayKill (one : Option ℕ) (inpath reason : Str) : List (KillLink × Str) :=
  (s.relayed source target one).map fun l => (l, s.relayLine source target inpath reason l)

/-- The target of `mo_kill`, found and allowed. -/
def moTarget (user : Str) : List KillReply × Option KillClient :=
  if user = [] then ([.needMoreParams], none)
  else if looksLikeId user then ([], none)
  else if !source.vOper && source.status ≠ .server && !source.services &&
      (!source.operK && !source.operGlobalKill) then ([.noPrivileges], none)
  else
    match (s.findClient user).or (s.history user) with
    | none => ([.noSuchNick user], none)
    | some target =>
        let notices := if (s.findClient user).isNone then [.changed user target.name] else []
        if target.status = .server || target.status = .me || target.services || target.netAdmin then
          (notices ++ [.cantKillServer], none)
        else if !source.vOper then
          if !target.myConnect && !source.operGlobalKill then
            (notices ++ [.notOnYourServer target.name], none)
          else (notices, some target)
        else
          match vlinkCheck source target with
          | some reply => (notices ++ [reply], none)
          | none => (notices, some target)

/-- The reason of `mo_kill`. -/
def moReason (reason : Option Str) : Str :=
  if reason.getD [] = [] then "No reason".toList else (reason.getD []).take KILLLEN

/-- `mo_kill`. -/
def moKill (params : List Str) : List KillReply × Option Killed :=
  let reason := moReason params[1]?
  let found := s.moTarget source (params.headD [])
  (found.1, found.2.map fun target =>
    ⟨target, "Killed (".toList ++ source.name ++ " (".toList ++ reason ++ "))".toList,
      if target.myConnect then [] else s.relayKill source target none source.name reason⟩)

/-- The target of `ms_kill`, found and allowed. -/
def msTarget (user : Str) : List KillReply × Option KillClient :=
  if user = [] then ([.needMoreParams], none)
  else if !source.vOper && source.status ≠ .server && !source.services && !source.oper then
    ([.noPrivileges], none)
  else
    match (s.findPerson user).or (if looksLikeId user then none else s.history user) with
    | none => (if looksLikeId user then [] else [.noSuchNick user], none)
    | some target =>
        let notices := if (s.findPerson user).isNone then [.changed user target.name] else []
        match if source.vOper then vlinkCheck source target else none with
        | some reply => (notices ++ [reply], none)
        | none =>
            if target.status = .server || target.status = .me then
              (notices ++ [.cantKillServer], none)
            else (notices, some target)

/-- The path and the reason of `ms_kill`. -/
def pathReason (param : Option Str) : Str × Str :=
  match param with
  | none | some [] => (source.name, "No reason".toList)
  | some text => (text.takeWhile (· ≠ ' '),
      if ' ' ∈ text then (text.dropWhile (· ≠ ' ')).drop 1 else "No reason".toList)

/-- Who the killed user is told has killed him. -/
def shownName : Str :=
  if source.status = .server && (source.hidden || s.hideServers) then s.me else source.name

/-- `ms_kill`. -/
def msKill (one : Option ℕ) (params : List Str) : List KillReply × Option Killed :=
  let pr := pathReason source params[1]?
  let found := s.msTarget source (params.headD [])
  (found.1, found.2.map fun target =>
    ⟨target, "Killed (".toList ++ s.shownName source ++ ' ' :: pr.2 ++ [')'],
      s.relayKill source target one pr.1 pr.2⟩)

/-- A KILL line of this source, over this link or from a client of this server: operators of this
server have `mo_kill` as their handler. -/
def kill (one : Option ℕ) (line : Str) : List KillReply × Option Killed :=
  match commandParams "KILL".toList 2 line with
  | none => ([], none)
  | some params =>
      if source.myConnect && source.status = .client && source.oper then s.moKill source params
      else s.msKill source one params

end KillServer

/-- The tables of the next server, with the names of whom they find. -/
structure KillPeer where
  findClient : Str → Option Str
  hashFindId : Str → Option Str
  findServer : Str → Option Str

namespace KillPeer

variable (p : KillPeer)

/-- A user that was introduced to this server over a link with or without ids. -/
def KnowsUser (ts6 : Bool) (c : KillClient) : Prop :=
  p.findClient c.name = some c.name ∧
    (ts6 = true → c.id ≠ [] → p.hashFindId c.id = some c.name)

/-- A user or a server that was introduced. -/
def Knows (ts6 : Bool) (c : KillClient) : Prop :=
  if c.status = .server then p.findServer c.name = some c.name ∧
    (ts6 = true → c.id ≠ [] → p.findServer c.id = some c.name)
  else p.KnowsUser ts6 c

def findPerson (name : Str) : Option Str :=
  if looksLikeId name then p.hashFindId name else p.findClient name

/-- What `parse` finds for a prefix. -/
def findSender (sender : Str) : Option Str := (p.findPerson sender).or (p.findServer sender)

end KillPeer

/-- The prefix of a line. -/
def linePrefix (line : Str) : Str :=
  match skipBlanks line with
  | ':' :: rest => rest.takeWhile (· ≠ ' ')
  | _ => []

/-- The next server finds the sender, and the victim it was sent for. -/
def ReadBack (ts6 : Bool) (source target : KillClient) (line : Str) : Prop :=
  (∀ p : KillPeer, p.Knows ts6 source → (p.findSender (linePrefix line)).isSome) ∧
    ∀ p : KillPeer, p.KnowsUser ts6 target →
      ((commandParams "KILL".toList 2 line).bind fun params => p.findPerson (params.headD [])) =
        some target.name

/-- The text fits the buffer, and every line names killer and victim and is read back. -/
structure Killed.Tidy (source : KillClient) (k : Killed) : Prop where
  text : k.text.length + 1 ≤ IRCD_BUFSIZE
  names : ∀ x ∈ k.lines, ∃ rest, x.2 = ':' :: (KillServer.idOrName source x.1 ++ ' ' ::
    ("KILL".toList ++ ' ' :: (KillServer.idOrName k.target x.1 ++ ' ' :: ':' :: rest)))
  back : ∀ x ∈ k.lines, ReadBack x.1.ts6 source k.target x.2

/-- An id is sent over the link, or the name is not taken for one. -/
def Addressed (c : KillClient) (l : KillLink) : Prop :=
  (l.ts6 = true ∧ c.id ≠ []) ∨ looksLikeId c.name = false

namespace KillServer

variable (s : KillServer) (source : KillClient)

/-- Killer and victim are addressed over every link that is told. -/
def Addresses (one : Option ℕ) (target : KillClient) : Prop :=
  ∀ l ∈ s.relayed source target one,
    (source.status = .server ∨ Addressed source l) ∧ Addressed target l

/-- The KILL is not carried out, or there is room for it. -/
def Harmless (one : Option ℕ) (line : Str) : Prop :=
  ∀ params, commandParams "KILL".toList 2 line = some params →
    if source.myConnect && source.status = .client && source.oper then
      ∀ target, (s.moTarget source (params.headD [])).2 = some target →
        target.myConnect = false → s.Addresses source none target
    else
      ∀ target, (s.msTarget source (params.headD [])).2 = some target →
        (s.shownName source).length + (pathReason source params[1]?).2.length ≤ 501 ∧
          s.Addresses source one target

section Lines

variable {s source} {target : KillClient} {l : KillLink}

theorem isWord_idOrName (c : KillClient) (l : KillLink) : IsWord (idOrName c l) := by
  rw [idOrName]
  split
  case isTrue h =>
    simp only [Bool.and_eq_true, decide_eq_true_eq] at h
    exact c.isWord_id.resolve_left h.2
  case isFalse => exact c.isWord_name

theorem length_idOrName_le (c : KillClient) (l : KillLink) : (idOrName c l).length ≤ 63 := by
  rw [idOrName]
  split
  · exact c.id_le.trans (by decide)
  · exact c.name_le

/-- What is cut from a line is behind the victim. -/
theorem sendFormat_front {f t x y : Str} (h : f.length + t.length ≤ 126) :
    ∃ rest, sendFormat [':' :: f, "KILL".toList, t, ':' :: x, y] =
      ':' :: (f ++ ' ' :: ("KILL".toList ++ ' ' :: (t ++ ' ' :: ':' :: rest))) := by
  have hwords : List.intercalate [' '] [':' :: f, "KILL".toList, t, ':' :: x, y] =
      ':' :: (f ++ ' ' :: ("KILL".toList ++ ' ' :: (t ++ ' ' :: [':']))) ++ (x ++ ' ' :: y) := by
    simp [List.intercalate]
  refine ⟨(x ++ ' ' :: y).take (501 - (f.length + t.length)), ?_⟩
  have hlen : (':' :: (f ++ ' ' :: ("KILL".toList ++ ' ' :: (t ++ ' ' :: [':'])))).length =
      f.length + t.length + 9 := by
    simp
    omega
  rw [sendFormat, hwords, List.take_append, hlen, List.take_of_length_le (by
    rw [hlen, show IRCD_BUFSIZE = 512 from rfl]
    omega)]
  have hleft : IRCD_BUFSIZE - 2 - (f.length + t.length + 9) = 501 - (f.length + t.length) := by
    rw [show IRCD_BUFSIZE = 512 from rfl]
    omega
  rw [hleft]
  simp

theorem relayLine_front (s : KillServer) (source target : KillClient) (l : KillLink)
    (inpath reason : Str) : ∃ rest, s.relayLine source target inpath reason l =
      ':' :: (idOrName source l ++ ' ' ::
        ("KILL".toList ++ ' ' :: (idOrName target l ++ ' ' :: ':' :: rest))) := by
  have hfront : (idOrName source l).length + (idOrName target l).length ≤ 126 :=
    Nat.add_le_add (length_idOrName_le source l) (length_idOrName_le target l)
  rw [relayLine]
  split
  · exact sendFormat_front hfront
  · exact sendFormat_front hfront

theorem linePrefix_front {f rest : Str} (hf : ' ' ∉ f) :
    linePrefix (':' :: (f ++ ' ' :: rest)) = f := by
  rw [linePrefix, skipBlanks, List.dropWhile_cons_of_neg (by decide)]
  exact takeWhile_notBlank hf rest

theorem commandParams_front {f t rest : Str} (hf : ' ' ∉ f) (ht : IsWord t) :
    commandParams "KILL".toList 2
      (':' :: (f ++ ' ' :: ("KILL".toList ++ ' ' :: (t ++ ' ' :: ':' :: rest)))) =
        some [t, rest] := by
  rw [commandParams, splitLine_command hf (by decide) (by decide), stringToArray,
    splitArgs_word ht, splitArgs_colon]
  exact if_pos ⟨by decide, by simp⟩

end Lines

section ReadBack

variable {source target c : KillClient} {l : KillLink}

theorem looksLikeId_id (h : c.id ≠ []) : looksLikeId c.id = true := c.digit_id.resolve_left h

/-- Whoever is addressed is found by everyone who knows him. -/
theorem findPerson_idOrName_iff : (∀ p : KillPeer, p.KnowsUser l.ts6 c →
    p.findPerson (idOrName c l) = some c.name) ↔ Addressed c l := by
  rw [Addressed, idOrName]
  by_cases hid : l.ts6 = true ∧ c.id ≠ []
  · rw [if_pos (by simpa using hid)]
    refine iff_of_true (fun p hp => ?_) (.inl hid)
    rw [KillPeer.findPerson, if_pos (looksLikeId_id hid.2)]
    exact hp.2 hid.1 hid.2
  · rw [if_neg (by simpa using hid)]
    cases hname : looksLikeId c.name with
    | false =>
        refine iff_of_true (fun p hp => ?_) (.inr rfl)
        rw [KillPeer.findPerson, hname]
        exact hp.1
    | true =>
        refine iff_of_false (fun hall => ?_) (by simpa using hid)
        have hp := hall ⟨some, fun _ => none, fun _ => none⟩
          ⟨rfl, fun hts6 hne => absurd ⟨hts6, hne⟩ hid⟩
        rw [KillPeer.findPerson, hname] at hp
        cases hp

theorem findSender_idOrName_iff : (∀ p : KillPeer, p.Knows l.ts6 c →
    (p.findSender (idOrName c l)).isSome) ↔ c.status = .server ∨ Addressed c l := by
  by_cases hserver : c.status = .server
  · refine iff_of_true (fun p hp => ?_) (.inl hserver)
    rw [KillPeer.Knows, if_pos hserver] at hp
    have hfound : p.findServer (idOrName c l) = some c.name := by
      rw [idOrName]
      split
      case isTrue hid =>
        simp only [Bool.and_eq_true, decide_eq_true_eq] at hid
        exact hp.2 hid.1 hid.2
      case isFalse => exact hp.1
    rw [KillPeer.findSender, hfound]
    cases p.findPerson (idOrName c l) <;> rfl
  · rw [or_iff_right hserver, ← findPerson_idOrName_iff]
    constructor
    · intro hall
      rw [findPerson_idOrName_iff, Addressed]
      by_contra hnot
      rw [not_or, Bool.not_eq_false] at hnot
      have hp := hall ⟨some, fun _ => none, fun _ => none⟩ (by
        rw [KillPeer.Knows, if_neg hserver]
        exact ⟨rfl, fun hts6 hne => absurd ⟨hts6, hne⟩ hnot.1⟩)
      rw [idOrName, if_neg (by simpa using hnot.1), KillPeer.findSender, KillPeer.findPerson,
        hnot.2] at hp
      cases hp
    · intro hall p hp
      rw [KillPeer.Knows, if_neg hserver] at hp
      rw [KillPeer.findSender, hall p hp]
      rfl

theorem readBack_front_iff (rest : Str) : ReadBack l.ts6 source target (':' ::
    (idOrName source l ++ ' ' :: ("KILL".toList ++ ' ' ::
      (idOrName target l ++ ' ' :: ':' :: rest)))) ↔
    (source.status = .server ∨ Addressed source l) ∧ Addressed target l := by
  rw [ReadBack, linePrefix_front (isWord_idOrName source l).blank,
    commandParams_front (isWord_idOrName source l).blank (isWord_idOrName target l)]
  exact and_congr findSender_idOrName_iff findPerson_idOrName_iff

end ReadBack

section Lengths

variable {line text : Str} {params : List Str}

end Lengths

section Main

variable {s source} {target : KillClient} {one : Option ℕ} {text inpath reason : Str}

theorem tidy_relayKill_iff :
    Killed.Tidy source ⟨target, text, s.relayKill source target one inpath reason⟩ ↔
      text.length + 1 ≤ IRCD_BUFSIZE ∧ s.Addresses source one target := by
  constructor
  · intro h
    refine ⟨h.text, fun l hl => ?_⟩
    have hback := h.back _ (List.mem_map_of_mem hl)
    obtain ⟨rest, hrest⟩ := relayLine_front s source target l inpath reason
    rw [hrest] at hback
    exact (readBack_front_iff rest).mp hback
  · rintro ⟨htext, haddr⟩
    refine ⟨htext, fun x hx => ?_, fun x hx => ?_⟩
    · obtain ⟨l, -, rfl⟩ := List.mem_map.mp hx
      exact relayLine_front s source target l inpath reason
    · obtain ⟨l, hl, rfl⟩ := List.mem_map.mp hx
      obtain ⟨rest, hrest⟩ := relayLine_front s source target l inpath reason
      rw [hrest]
      exact (readBack_front_iff rest).mpr (haddr l hl)

theorem length_moReason_le (reason : Option Str) : (moReason reason).length ≤ KILLLEN := by
  rw [moReason]
  split
  · decide
  · exact List.length_take_le _ _

/-- The text of `mo_kill` fits whatever the reason is. -/
theorem length_moText (hsource : source.status ≠ .server) (reason : Option Str) :
    ("Killed (".toList ++ source.name ++ " (".toList ++ moReason reason ++ "))".toList).length + 1 ≤
      IRCD_BUFSIZE := by
  have hname := source.nick_lt hsource
  have hreason := length_moReason_le reason
  simp only [List.length_append, show NICKLEN = 31 from rfl, show KILLLEN = 90 from rfl,
    show IRCD_BUFSIZE = 512 from rfl] at *
  have hconst : "Killed (".toList.length = 8 ∧ " (".toList.length = 2 ∧ "))".toList.length = 2 := by
    decide
  omega

theorem length_msText_iff (shown reason : Str) :
    ("Killed (".toList ++ shown ++ ' ' :: reason ++ [')']).length + 1 ≤ IRCD_BUFSIZE ↔
      shown.length + reason.length ≤ 501 := by
  have hconst : "Killed (".toList.length = 8 := by decide
  simp only [List.length_append, List.length_cons, List.length_nil, hconst,
    show IRCD_BUFSIZE = 512 from rfl]
  omega

/-- A KILL line is handled as it should be exactly when there is room for its text, and killer and
victim are addressed by what the next servers look up. -/
theorem kill_tidy_iff (s : KillServer) (source : KillClient) (one : Option ℕ) (line : Str) :
    (∀ k, (s.kill source one line).2 = some k → k.Tidy source) ↔ s.Harmless source one line := by
  rw [kill, Harmless]
  cases commandParams "KILL".toList 2 line with
  | none => simp
  | some params =>
      simp only [Option.some.injEq, forall_eq']
      split
      case isTrue hoper =>
        have hsource : source.status ≠ .server := by
          simp only [Bool.and_eq_true, decide_eq_true_eq] at hoper
          rw [hoper.1.2]
          decide
        simp only [moKill, Option.map_eq_some_iff]
        constructor
        · intro hall target htarget hlocal
          have htidy := hall _ ⟨target, htarget, rfl⟩
          rw [hlocal] at htidy
          exact (tidy_relayKill_iff.mp htidy).2
        · rintro hall k ⟨target, htarget, rfl⟩
          cases hlocal : target.myConnect with
          | true => exact ⟨length_moText hsource _, fun x hx => by simp at hx,
              fun x hx => by simp at hx⟩
          | false =>
              exact tidy_relayKill_iff.mpr ⟨length_moText hsource _, hall target htarget hlocal⟩
      case isFalse =>
        simp only [msKill, Option.map_eq_some_iff]
        constructor
        · intro hall target htarget
          have htidy := tidy_relayKill_iff.mp (hall _ ⟨target, htarget, rfl⟩)
          exact ⟨(length_msText_iff _ _).mp htidy.1, htidy.2⟩
        · rintro hall k ⟨target, htarget, rfl⟩
          obtain ⟨hlen, haddr⟩ := hall target htarget
          exact tidy_relayKill_iff.mpr ⟨(length_msText_iff _ _).mpr hlen, haddr⟩

end Main

def userAt (name : Str) (status : KillStatus) (h : IsWord name ∧ name.length < NICKLEN) :
    KillClient where
  name := name
  id := []
  username := []
  host := []
  servptr := []
  vlinkNome := none
  status := status
  myConnect := false
  services := false
  netAdmin := false
  oper := false
  vOper := false
  vAdmin := false
  operK := false
  operGlobalKill := false
  hidden := false
  lazyLinkClientExists := 0
  isWord_name := h.1
  name_le := h.2.le.trans (by decide)
  nick_lt _ := h.2
  isWord_id := .inl rfl
  digit_id := .inl rfl
  id_le := Nat.zero_le _
  username_le := Nat.zero_le _
  host_le := Nat.zero_le _

def victim : KillClient := userAt "v".toList .client (by decide)

def farServer : KillClient := userAt "irc.example.org".toList .server (by decide)

def killHub : KillServer where
  me := "hub.example.org".toList
  me_le := by decide
  hub := true
  hideServers := false
  links := []
  findClient _ := some victim
  hashFindId _ := none
  history _ := none

/-- A line without a prefix and with an empty path. -/
def longKill (reason : Str) : Str :=
  "KILL".toList ++ ' ' :: ("v".toList ++ ' ' :: ':' :: ' ' :: reason)

theorem commandParams_longKill (reason : Str) :
    commandParams "KILL".toList 2 (longKill reason) = some ["v".toList, ' ' :: reason] := by
  rw [commandParams, longKill, splitLine_noPrefix (by decide) (by decide) (by decide),
    stringToArray, splitArgs_word (by decide), splitArgs_colon]
  exact if_pos ⟨by decide, Nat.le_succ 2⟩

theorem kill_longKill (reason : Str) : (killHub.kill farServer (some 0) (longKill reason)).2 =
    some ⟨victim, "Killed (".toList ++ farServer.name ++ ' ' :: reason ++ [')'], []⟩ := by
  have hpath : pathReason farServer (some (' ' :: reason)) = ([], reason) := by simp [pathReason]
  have htarget : killHub.msTarget farServer "v".toList = ([], some victim) := by decide +kernel
  have hshown : killHub.shownName farServer = farServer.name := rfl
  have hlocal : farServer.myConnect = false := rfl
  rw [kill, commandParams_longKill]
  simp only [hlocal, Bool.false_and, Bool.false_eq_true, if_false, msKill, List.headD_cons,
    htarget, Option.map_some, hshown]
  rw [show ["v".toList, ' ' :: reason][1]? = some (' ' :: reason) from rfl, hpath]
  rfl

theorem not_forall_tidy : ¬ ∀ (s : KillServer) (source : KillClient) (one : Option ℕ) (line : Str),
    line.length ≤ IRCD_BUFSIZE - 2 → ∀ k, (s.kill source one line).2 = some k → k.Tidy source := by
  intro hall
  have hlen : (longKill (List.replicate 490 'x')).length ≤ IRCD_BUFSIZE - 2 := by
    rw [longKill, List.length_append, List.length_cons, List.length_append]
    simp only [List.length_cons, List.length_replicate]
    decide
  have htidy := hall killHub farServer (some 0) _ hlen _ (kill_longKill _)
  have hfits := (length_msText_iff farServer.name (List.replicate 490 'x')).mp htidy.text
  rw [List.length_replicate] at hfits
  exact absurd hfits (by decide)

end KillServer

end Unirc
