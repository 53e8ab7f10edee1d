import Mathlib.Logic.Relation
import Unirc.Nicknames

/-!
# Nick collisions between two servers

`ms_nick`, `ms_uid` and `perform_nick_collides` of `m_nick.c` for a user that a server introduces,
and `ms_kill` for a KILL from a server, with a link of two queues between two servers. The texts of
a user are as the other server reads them, and pass its checks.
-/

namespace Unirc

/-- `client` says which user it is, on every server. -/
structure NickUser (γ : Type*) where
  client : γ
  name : Str
  id : Str
  tsinfo : ℤ
  username : Str
  host : Str

/-- An entry of the history, of a nick that `online` gave up. -/
structure PastNick (γ : Type*) where
  name : Str
  logoff : ℤ
  online : Option γ

inductive NickLine (γ : Type*)
  | uid (u : NickUser γ)
  | nick (u : NickUser γ)
  | kill (user : Str)

structure NickServer (γ : Type*) where
  id : Str
  clients : List (NickUser γ)
  history : List (PastNick γ)

/-- What both servers have in common: `kill_chase_time_limit`, and `CAP_TS6` of the link. -/
structure NickConfig where
  killChaseTimeLimit : ℤ
  ts6 : Bool

namespace NickServer

variable {γ : Type*} [DecidableEq γ] (cfg : NickConfig) (now : ℤ) (s : NickServer γ)

omit [DecidableEq γ] in
def findClient (name : Str) : Option (NickUser γ) :=
  s.clients.find? fun u => !irccmp name u.name

omit [DecidableEq γ] in
def hashFindId (id : Str) : Option (NickUser γ) :=
  s.clients.find? fun u => !u.id.isEmpty && !irccmp id u.id

omit [DecidableEq γ] in
/-- `find_person` for a server, which is told of invisible users too. -/
def findPerson (name : Str) : Option (NickUser γ) :=
  if name.head?.any Char.isDigit then s.hashFindId name else s.findClient name

omit [DecidableEq γ] in
def getHistory (nick : Str) : Option γ :=
  (s.history.find? fun w =>
    !irccmp nick w.name && !decide (w.logoff < now - cfg.killChaseTimeLimit)).bind (·.online)

/-- `exit_client` of a user with `FLAGS_KILLED`, for whom no QUIT is sent. -/
def exitKilled (u : NickUser γ) : NickServer γ :=
  { s with
    clients := s.clients.filter fun v => v.client ≠ u.client
    history := ⟨u.name, now, none⟩ :: s.history.map fun w =>
      if w.online = some u.client then { w with online := none } else w }

omit [DecidableEq γ] in
/-- The line of `kill_client_ll_serv_butone` for the other server. -/
def killLine (u : NickUser γ) : NickLine γ :=
  .kill (if !u.id.isEmpty && !s.id.isEmpty && cfg.ts6 then u.id else u.name)

omit [DecidableEq γ] in
def add (u : NickUser γ) : NickServer γ := { s with clients := u :: s.clients }

def sameuser (target u : NickUser γ) : Bool :=
  !irccmp target.username u.username && !irccmp target.host u.host

/-- `uid` is the identifier that came with the user. The other server is not sent the KILL of
`target` unless both users go, as it introduces the user that replaces it. -/
def performNickCollides (target u : NickUser γ) (uid : Option Str) :
    NickServer γ × List (NickLine γ) :=
  let killNew := (uid.map NickLine.kill).toList
  if u.tsinfo = 0 ∨ target.tsinfo = 0 ∨ u.tsinfo = target.tsinfo then
    (s.exitKilled now target, killNew ++ [s.killLine cfg target])
  else if (sameuser target u = true ∧ u.tsinfo < target.tsinfo) ∨
      (sameuser target u = false ∧ u.tsinfo > target.tsinfo) then
    (s, killNew)
  else ((s.exitKilled now target).add u, [])

/-- A user of a NICK line has no identifier. -/
def msNick (u : NickUser γ) : NickServer γ × List (NickLine γ) :=
  match s.findClient u.name with
  | none => (s.add { u with id := [] }, [])
  | some target => s.performNickCollides cfg now target { u with id := [] } none

def msUid (u : NickUser γ) : NickServer γ × List (NickLine γ) :=
  match s.hashFindId u.id with
  | some target => (s.exitKilled now target, [s.killLine cfg target])
  | none =>
      match s.findClient u.name with
      | none => (s.add u, [])
      | some target => s.performNickCollides cfg now target u (some u.id)

/-- The user that a KILL is about, or the one that has given up the nick. -/
def killTarget (user : Str) : Option (NickUser γ) :=
  match s.findPerson user with
  | some u => some u
  | none =>
      if user.head?.any Char.isDigit then none
      else (s.getHistory cfg now user).bind fun c => s.clients.find? fun u => u.client = c

def msKill (user : Str) : NickServer γ × List (NickLine γ) :=
  match s.killTarget cfg now user with
  | some target => (s.exitKilled now target, [])
  | none => (s, [])

def process : NickLine γ → NickServer γ × List (NickLine γ)
  | .uid u => s.msUid cfg now u
  | .nick u => s.msNick cfg now u
  | .kill user => s.msKill cfg now user

omit [DecidableEq γ] in
def holder (nick : Str) : Option γ := (s.findClient nick).map (·.client)

end NickServer

/-- Two servers, and what is on its way to each. -/
structure NickLink (γ : Type*) where
  a : NickServer γ
  b : NickServer γ
  toA : List (NickLine γ)
  toB : List (NickLine γ)

namespace NickLink

variable {γ : Type*} [DecidableEq γ]

/-- One of the servers reads its next line. -/
inductive Step (cfg : NickConfig) : NickLink γ → NickLink γ → Prop
  | readA (now : ℤ) (l : NickLine γ) (ls : List (NickLine γ)) (a b : NickServer γ)
      (toB : List (NickLine γ)) :
      Step cfg ⟨a, b, l :: ls, toB⟩ ⟨(a.process cfg now l).1, b, ls, toB ++ (a.process cfg now l).2⟩
  | readB (now : ℤ) (l : NickLine γ) (ls : List (NickLine γ)) (a b : NickServer γ)
      (toA : List (NickLine γ)) :
      Step cfg ⟨a, b, toA, l :: ls⟩ ⟨a, (b.process cfg now l).1, toA ++ (b.process cfg now l).2, ls⟩

omit [DecidableEq γ] in
/-- `sendnick_TS` -/
def introduction (cfg : NickConfig) (u : NickUser γ) : NickLine γ :=
  if !u.id.isEmpty && cfg.ts6 then .uid u else .nick u

omit [DecidableEq γ] in
/-- The server has the user, no other one of its nick, and no other one with the identifier of the
user of the other server, who is not there yet. -/
structure Holds (s : NickServer γ) (own other : NickUser γ) : Prop where
  mem : own ∈ s.clients
  name : ∀ v ∈ s.clients, v.client ≠ own.client → irccmp own.name v.name = true
  id : ∀ v ∈ s.clients, v.client ≠ own.client → v.id = [] ∨ irccmp other.id v.id = true
  eq_of_client : ∀ v ∈ s.clients, v.client = own.client → v = own
  new : ∀ v ∈ s.clients, v.client ≠ other.client

omit [DecidableEq γ] in
/-- An identifier starts with a digit. -/
def IdOk (u : NickUser γ) : Prop := u.id = [] ∨ u.id.head?.any Char.isDigit = true

omit [DecidableEq γ] in
/-- Each server has a user of the nick and has just introduced it to the other one. -/
structure Starts (cfg : NickConfig) (nick : Str) (x y : NickUser γ) (n : NickLink γ) : Prop where
  holdsA : Holds n.a x y
  holdsB : Holds n.b y x
  nameA : irccmp nick x.name = false
  nameB : irccmp nick y.name = false
  idA : IdOk x
  idB : IdOk y
  toA : n.toA = [introduction cfg y]
  toB : n.toB = [introduction cfg x]

end NickLink

namespace NickServer

variable {γ : Type*} [DecidableEq γ] {cfg : NickConfig} {now : ℤ} {s : NickServer γ} {nick : Str}
  {x y : NickUser γ} {c : γ}

/-! ### Who has the nick -/

def Unheld (s : NickServer γ) (nick : Str) : Prop := ∀ v ∈ s.clients, irccmp nick v.name = true

structure HeldBy (s : NickServer γ) (nick : Str) (c : γ) : Prop where
  held : ∃ u ∈ s.clients, u.client = c ∧ irccmp nick u.name = false
  others : ∀ v ∈ s.clients, v.client ≠ c → irccmp nick v.name = true

omit [DecidableEq γ] in
theorem Unheld.holder (h : s.Unheld nick) : s.holder nick = none := by
  have hfind : s.findClient nick = none :=
    List.find?_eq_none.mpr fun v hv => by simp [h v hv]
  rw [NickServer.holder, hfind, Option.map_none]

omit [DecidableEq γ] in
theorem HeldBy.holder (h : s.HeldBy nick c) : s.holder nick = some c := by
  obtain ⟨u, hu, -, hname⟩ := h.held
  obtain ⟨v, hv⟩ := Option.isSome_iff_exists.mp
    (List.find?_isSome (p := fun u : NickUser γ => !irccmp nick u.name).mpr
      ⟨u, hu, by simp [hname]⟩)
  have hvname : irccmp nick v.name = false := by simpa using List.find?_some hv
  have hclient : v.client = c := by
    by_contra hne
    rw [h.others v (List.mem_of_find?_eq_some hv) hne] at hvname
    cases hvname
  rw [NickServer.holder, NickServer.findClient, hv, Option.map_some, hclient]

theorem mem_exitKilled {u v : NickUser γ} :
    v ∈ (s.exitKilled now u).clients ↔ v ∈ s.clients ∧ v.client ≠ u.client := by
  simp [exitKilled]

theorem Unheld.exitKilled (h : s.Unheld nick) (u : NickUser γ) :
    (s.exitKilled now u).Unheld nick := fun v hv => h v (mem_exitKilled.mp hv).1

theorem HeldBy.exitKilled (h : s.HeldBy nick c) {u : NickUser γ} (hu : u.client ≠ c) :
    (s.exitKilled now u).HeldBy nick c where
  held := by
    obtain ⟨v, hv, hclient, hname⟩ := h.held
    exact ⟨v, mem_exitKilled.mpr ⟨hv, hclient ▸ hu.symm⟩, hclient, hname⟩
  others v hv := h.others v (mem_exitKilled.mp hv).1

/-- A KILL removes at most one user and is not passed on. -/
theorem msKill_cases (cfg : NickConfig) (now : ℤ) (s : NickServer γ) (user : Str) :
    s.msKill cfg now user = (s, []) ∨
    ∃ u, s.killTarget cfg now user = some u ∧ s.msKill cfg now user = (s.exitKilled now u, []) := by
  rw [msKill]
  cases htarget : s.killTarget cfg now user with
  | none => exact .inl rfl
  | some u => exact .inr ⟨u, rfl, rfl⟩

theorem Unheld.msKill (h : s.Unheld nick) (user : Str) :
    (s.msKill cfg now user).1.Unheld nick := by
  rcases msKill_cases cfg now s user with hkill | ⟨u, -, hkill⟩
  · rw [hkill]
    exact h
  · rw [hkill]
    exact h.exitKilled u

/-- A KILL by an identifier that is not the holder's. -/
theorem HeldBy.msKill (h : s.HeldBy nick c) {id : Str} (hdigit : id.head?.any Char.isDigit = true)
    (hother : ∀ v ∈ s.clients, v.client = c → v.id = [] ∨ irccmp id v.id = true) :
    (s.msKill cfg now id).1.HeldBy nick c := by
  rcases msKill_cases cfg now s id with hkill | ⟨u, htarget, hkill⟩
  · rw [hkill]
    exact h
  · rw [hkill]
    refine h.exitKilled fun hclient => ?_
    rw [killTarget, findPerson, if_pos hdigit] at htarget
    cases hfind : s.hashFindId id with
    | none =>
        rw [hfind, if_pos hdigit] at htarget
        cases htarget
    | some v =>
        rw [hfind, Option.some.injEq] at htarget
        subst htarget
        have hid := List.find?_some hfind
        rcases hother v (List.mem_of_find?_eq_some hfind) hclient with hv | hv
        · simp [hv] at hid
        · simp [hv] at hid

end NickServer

theorem irccmp_congr_left {s t : Str} (h : irccmp s t = false) (r : Str) :
    irccmp s r = irccmp t r := by
  rw [irccmp, irccmp, (irccmp_eq_false_iff s t).mp h]

theorem irccmp_comm (s t : Str) : irccmp s t = irccmp t s := bne_comm

namespace NickLink

open NickServer

variable {γ : Type*} [DecidableEq γ] {cfg : NickConfig} {now : ℤ} {s : NickServer γ} {nick : Str}
  {x y : NickUser γ} {n n' : NickLink γ}

/-! ### What an introduction does -/

/-- The user came with its identifier. -/
def sentId (cfg : NickConfig) (u : NickUser γ) : Bool := !u.id.isEmpty && cfg.ts6

def received (cfg : NickConfig) (u : NickUser γ) : NickUser γ :=
  if sentId cfg u then u else { u with id := [] }

def sentUid (cfg : NickConfig) (u : NickUser γ) : Option Str :=
  if sentId cfg u then some u.id else none

def SameId (cfg : NickConfig) (x y : NickUser γ) : Prop :=
  sentId cfg x = true ∧ sentId cfg y = true ∧ irccmp x.id y.id = false

instance : Decidable (SameId cfg x y) := inferInstanceAs (Decidable (_ ∧ _ ∧ _))

omit [DecidableEq γ] in
theorem SameId.symm (h : SameId cfg x y) : SameId cfg y x :=
  ⟨h.2.1, h.1, irccmp_comm x.id y.id ▸ h.2.2⟩

omit [DecidableEq γ] in
theorem Holds.findClient (h : Holds s x y) (hx : irccmp nick x.name = false)
    (hy : irccmp nick y.name = false) : s.findClient y.name = some x := by
  have hxy : irccmp y.name x.name = false := irccmp_congr_left hy x.name ▸ hx
  obtain ⟨v, hv⟩ := Option.isSome_iff_exists.mp
    (List.find?_isSome (p := fun u : NickUser γ => !irccmp y.name u.name).mpr
      ⟨x, h.mem, by simp [hxy]⟩)
  have hmem := List.mem_of_find?_eq_some hv
  have hvname : irccmp y.name v.name = false := by simpa using List.find?_some hv
  have hclient : v.client = x.client := by
    by_contra hne
    have hother := h.name v hmem hne
    rw [← irccmp_congr_left hxy, hvname] at hother
    cases hother
  rw [NickServer.findClient, hv, h.eq_of_client v hmem hclient]

omit [DecidableEq γ] in
theorem Holds.hashFindId (h : Holds s x y) (hy : sentId cfg y = true) :
    (SameId cfg x y ∧ s.hashFindId y.id = some x) ∨
      (¬ SameId cfg x y ∧ s.hashFindId y.id = none) := by
  have hts6 : cfg.ts6 = true := (Bool.and_eq_true _ _ ▸ hy).2
  by_cases hsame : SameId cfg x y
  · left
    refine ⟨hsame, ?_⟩
    obtain ⟨hx, -, hid⟩ := hsame
    rw [irccmp_comm] at hid
    obtain ⟨v, hv⟩ := Option.isSome_iff_exists.mp
      (List.find?_isSome (p := fun u : NickUser γ => !u.id.isEmpty && !irccmp y.id u.id).mpr
        ⟨x, h.mem, by simp [hid, (Bool.and_eq_true _ _ ▸ hx).1]⟩)
    have hmem := List.mem_of_find?_eq_some hv
    have hvid := List.find?_some hv
    have hclient : v.client = x.client := by
      by_contra hne
      rcases h.id v hmem hne with hother | hother <;> simp [hother] at hvid
    rw [NickServer.hashFindId, hv, h.eq_of_client v hmem hclient]
  · right
    refine ⟨hsame, List.find?_eq_none.mpr fun v hmem hvid => hsame ?_⟩
    rw [Bool.and_eq_true, Bool.not_eq_true', Bool.not_eq_true'] at hvid
    have hclient : v.client = x.client := by
      by_contra hne
      rcases h.id v hmem hne with hother | hother <;> simp [hother] at hvid
    rw [h.eq_of_client v hmem hclient] at hvid
    exact ⟨by simp [sentId, hts6, hvid.1], hy, irccmp_comm x.id y.id ▸ hvid.2⟩

theorem Holds.process_introduction (h : Holds s x y) (hx : irccmp nick x.name = false)
    (hy : irccmp nick y.name = false) : s.process cfg now (introduction cfg y) =
      if SameId cfg x y then (s.exitKilled now x, [s.killLine cfg x])
      else s.performNickCollides cfg now x (received cfg y) (sentUid cfg y) := by
  have hfind := h.findClient hx hy
  rw [introduction, received, sentUid]
  cases hsent : sentId cfg y with
  | true =>
      have huid : (!y.id.isEmpty && cfg.ts6) = true := hsent
      rw [if_pos huid, if_pos rfl, if_pos rfl, NickServer.process, msUid]
      rcases h.hashFindId hsent with ⟨hsame, hid⟩ | ⟨hsame, hid⟩
      · rw [hid, if_pos hsame]
      · rw [hid, if_neg hsame, hfind]
  | false =>
      have hnick : ¬ (!y.id.isEmpty && cfg.ts6) = true := by
        rw [show (!y.id.isEmpty && cfg.ts6) = false from hsent]
        exact Bool.false_ne_true
      have hsame : ¬ SameId cfg x y := fun hsame => by
        rw [hsame.2.1] at hsent
        cases hsent
      rw [if_neg hnick, if_neg hsame, NickServer.process, msNick, hfind]
      rfl

/-- Both users go. -/
def BothGo (cfg : NickConfig) (x y : NickUser γ) : Prop :=
  SameId cfg x y ∨ x.tsinfo = 0 ∨ y.tsinfo = 0 ∨ x.tsinfo = y.tsinfo

/-- The younger of two users that look the same stays, and the older of two that do not. -/
def Beats (cfg : NickConfig) (x y : NickUser γ) : Prop :=
  ¬ BothGo cfg x y ∧
    ((sameuser x y = true ∧ y.tsinfo < x.tsinfo) ∨ (sameuser x y = false ∧ x.tsinfo < y.tsinfo))

omit [DecidableEq γ] in
theorem BothGo.symm (h : BothGo cfg x y) : BothGo cfg y x := by
  rcases h with h | h | h | h
  · exact .inl h.symm
  · exact .inr (.inr (.inl h))
  · exact .inr (.inl h)
  · exact .inr (.inr (.inr h.symm))

omit [DecidableEq γ] in
theorem sameuser_comm (x y : NickUser γ) : sameuser x y = sameuser y x := by
  rw [sameuser, sameuser, irccmp_comm, irccmp_comm x.host]

omit [DecidableEq γ] in
theorem bothGo_or_beats (cfg : NickConfig) (x y : NickUser γ) :
    BothGo cfg x y ∨ Beats cfg x y ∨ Beats cfg y x := by
  by_cases hboth : BothGo cfg x y
  · exact .inl hboth
  · have hne : x.tsinfo ≠ y.tsinfo := fun heq => hboth (.inr (.inr (.inr heq)))
    have hboth' : ¬ BothGo cfg y x := fun h => hboth h.symm
    right
    rw [Beats, Beats, sameuser_comm y x]
    cases sameuser x y with
    | true =>
        rcases Int.lt_or_gt_of_ne hne with hlt | hgt
        · exact .inr ⟨hboth', .inl ⟨rfl, hlt⟩⟩
        · exact .inl ⟨hboth, .inl ⟨rfl, hgt⟩⟩
    | false =>
        rcases Int.lt_or_gt_of_ne hne with hlt | hgt
        · exact .inl ⟨hboth, .inr ⟨rfl, hlt⟩⟩
        · exact .inr ⟨hboth', .inr ⟨rfl, hgt⟩⟩

omit [DecidableEq γ] in
@[simp] theorem tsinfo_received : (received cfg y).tsinfo = y.tsinfo := by
  rw [received]
  split <;> rfl

omit [DecidableEq γ] in
@[simp] theorem client_received : (received cfg y).client = y.client := by
  rw [received]
  split <;> rfl

omit [DecidableEq γ] in
@[simp] theorem name_received : (received cfg y).name = y.name := by
  rw [received]
  split <;> rfl

omit [DecidableEq γ] in
@[simp] theorem sameuser_received : sameuser x (received cfg y) = sameuser x y := by
  rw [received]
  split <;> rfl

theorem Holds.unheld_exitKilled (h : Holds s x y) (hx : irccmp nick x.name = false) :
    (s.exitKilled now x).Unheld nick := by
  intro v hv
  obtain ⟨hmem, hne⟩ := mem_exitKilled.mp hv
  rw [irccmp_congr_left hx]
  exact h.name v hmem hne

/-- The KILLs that an introduction leads to. -/
def IsKill (K : Str → Prop) (l : NickLine γ) : Prop := ∃ k, l = .kill k ∧ K k

theorem Holds.both (h : Holds s x y) (hx : irccmp nick x.name = false)
    (hy : irccmp nick y.name = false) (hboth : BothGo cfg x y) :
    (s.process cfg now (introduction cfg y)).1.Unheld nick ∧
      ∀ l ∈ (s.process cfg now (introduction cfg y)).2, IsKill (fun _ => True) l := by
  rw [h.process_introduction hx hy]
  by_cases hsame : SameId cfg x y
  · rw [if_pos hsame]
    exact ⟨h.unheld_exitKilled hx, by simp [IsKill, killLine]⟩
  · rw [if_neg hsame, performNickCollides, tsinfo_received]
    have hts : y.tsinfo = 0 ∨ x.tsinfo = 0 ∨ y.tsinfo = x.tsinfo := by
      rcases hboth.resolve_left hsame with h | h | h
      · exact .inr (.inl h)
      · exact .inl h
      · exact .inr (.inr h.symm)
    rw [if_pos hts]
    refine ⟨h.unheld_exitKilled hx, fun l hl => ?_⟩
    rcases List.mem_append.mp hl with hl | hl
    · rw [Option.mem_toList, Option.map_eq_some_iff] at hl
      obtain ⟨k, -, rfl⟩ := hl
      exact ⟨k, rfl, trivial⟩
    · rw [List.mem_singleton.mp hl]
      exact ⟨_, rfl, trivial⟩

omit [DecidableEq γ] in
theorem not_tsinfo_of_not_bothGo (h : ¬ BothGo cfg x y) :
    ¬ (y.tsinfo = 0 ∨ x.tsinfo = 0 ∨ y.tsinfo = x.tsinfo) := fun hts => h <| by
  rcases hts with h | h | h
  · exact .inr (.inr (.inl h))
  · exact .inr (.inl h)
  · exact .inr (.inr (.inr h.symm))

/-- The winner's server ignores the loser, and tells its server when it has an identifier. -/
theorem Holds.wins (h : Holds s x y) (hx : irccmp nick x.name = false)
    (hy : irccmp nick y.name = false) (hbeats : Beats cfg x y) :
    (s.process cfg now (introduction cfg y)).1 = s ∧
      ∀ l ∈ (s.process cfg now (introduction cfg y)).2,
        IsKill (fun k => k = y.id ∧ sentId cfg y = true) l := by
  obtain ⟨hboth, hbeats⟩ := hbeats
  rw [h.process_introduction hx hy, if_neg fun hsame => hboth (.inl hsame), performNickCollides,
    tsinfo_received, if_neg (not_tsinfo_of_not_bothGo hboth), sameuser_received, if_pos hbeats]
  refine ⟨rfl, fun l hl => ?_⟩
  rw [Option.mem_toList, Option.map_eq_some_iff] at hl
  obtain ⟨k, hk, rfl⟩ := hl
  rw [sentUid, Option.ite_none_right_eq_some, Option.some.injEq] at hk
  exact ⟨k, rfl, hk.2.symm, hk.1⟩

/-- The loser's server replaces it. -/
theorem Holds.loses (h : Holds s x y) (hx : irccmp nick x.name = false)
    (hy : irccmp nick y.name = false) (hbeats : Beats cfg y x) :
    (s.process cfg now (introduction cfg y)) = ((s.exitKilled now x).add (received cfg y), []) := by
  obtain ⟨hboth, hbeats⟩ := hbeats
  have hboth' : ¬ BothGo cfg x y := fun h => hboth h.symm
  rw [sameuser_comm] at hbeats
  rw [h.process_introduction hx hy, if_neg fun hsame => hboth' (.inl hsame), performNickCollides,
    tsinfo_received, if_neg (not_tsinfo_of_not_bothGo hboth'), sameuser_received, if_neg]
  rintro (⟨hsame, hlt⟩ | ⟨hsame, hlt⟩) <;> rcases hbeats with ⟨hsame', hlt'⟩ | ⟨hsame', hlt'⟩
  · omega
  · simp [hsame] at hsame'
  · simp [hsame] at hsame'
  · omega

omit [DecidableEq γ] in
theorem Holds.heldBy (h : Holds s x y) (hx : irccmp nick x.name = false) :
    s.HeldBy nick x.client where
  held := ⟨x, h.mem, rfl, hx⟩
  others v hv hne := by
    rw [irccmp_congr_left hx]
    exact h.name v hv hne

/-- The winner as it is on the loser's server: held, and not by the identifier of the loser. -/
structure Replaced (cfg : NickConfig) (nick : Str) (winner loser : NickUser γ) (s : NickServer γ) :
    Prop where
  held : s.HeldBy nick winner.client
  id : sentId cfg loser = true → ∀ v ∈ s.clients, v.client = winner.client →
    v.id = [] ∨ irccmp loser.id v.id = true

theorem Holds.replaced (h : Holds s x y) (hx : irccmp nick x.name = false)
    (hy : irccmp nick y.name = false) (hbeats : Beats cfg y x) :
    Replaced cfg nick y x ((s.exitKilled now x).add (received cfg y)) where
  held :=
    { held := ⟨received cfg y, List.mem_cons_self, client_received, by rwa [name_received]⟩
      others := by
        intro v hv hne
        rcases List.mem_cons.mp hv with rfl | hv
        · exact absurd client_received hne
        · exact h.unheld_exitKilled hx v hv }
  id := by
    intro hsent v hv hclient
    rcases List.mem_cons.mp hv with rfl | hv
    · rw [received]
      split
      · rename_i hy
        right
        rw [irccmp_comm]
        exact (Bool.not_eq_false _).mp fun hid => hbeats.1 (.inl ⟨hy, hsent, hid⟩)
      · exact .inl rfl
    · exact absurd hclient (h.new v (mem_exitKilled.mp hv).1)

theorem Replaced.msKill (h : Replaced cfg nick x y s) (hid : IdOk y) (hsent : sentId cfg y = true) :
    Replaced cfg nick x y (s.msKill cfg now y.id).1 where
  held := by
    have hdigit : y.id.head?.any Char.isDigit = true := hid.resolve_left fun hnil => by
      simp [sentId, hnil] at hsent
    exact h.held.msKill hdigit (h.id hsent)
  id hs v hv := by
    refine h.id hs v ?_
    rcases msKill_cases cfg now s y.id with hkill | ⟨u, -, hkill⟩
    · rwa [hkill] at hv
    · rw [hkill] at hv
      exact (mem_exitKilled.mp hv).1

/-! ### Runs -/

/-- One side: after the introduction `P` holds, the KILLs that come in keep it, and what is sent are
the KILLs that the other side expects. -/
structure Side (cfg : NickConfig) (s₀ : NickServer γ) (intro : NickLine γ) (P : NickServer γ → Prop)
    (arriving leaving : Str → Prop) : Prop where
  first : ∀ now, P (s₀.process cfg now intro).1 ∧
    ∀ l ∈ (s₀.process cfg now intro).2, IsKill leaving l
  kill : ∀ s now k, P s → arriving k → P (s.msKill cfg now k).1

/-- The introduction is still to be read, or is read; only KILLs are behind it. -/
def Waiting (s₀ : NickServer γ) (intro : NickLine γ) (P : NickServer γ → Prop)
    (arriving : Str → Prop) (s : NickServer γ) (queue : List (NickLine γ)) : Prop :=
  (s = s₀ ∧ ∃ ks, queue = intro :: ks ∧ ∀ l ∈ ks, IsKill arriving l) ∨
    (P s ∧ ∀ l ∈ queue, IsKill arriving l)

section Sides

variable {s₀ : NickServer γ} {intro l : NickLine γ} {P : NickServer γ → Prop}
  {arriving leaving : Str → Prop} {queue ls : List (NickLine γ)}

omit [DecidableEq γ] in
theorem Waiting.append (h : Waiting s₀ intro P arriving s queue)
    (hls : ∀ l ∈ ls, IsKill arriving l) : Waiting s₀ intro P arriving s (queue ++ ls) := by
  rcases h with ⟨hs, ks, rfl, hks⟩ | ⟨hs, hqueue⟩
  · exact .inl ⟨hs, ks ++ ls, List.cons_append .., fun l hl =>
      (List.mem_append.mp hl).elim (hks l) (hls l)⟩
  · exact .inr ⟨hs, fun l hl => (List.mem_append.mp hl).elim (hqueue l) (hls l)⟩

theorem Side.read (h : Side cfg s₀ intro P arriving leaving)
    (hw : Waiting s₀ intro P arriving s (l :: queue)) (now : ℤ) :
    Waiting s₀ intro P arriving (s.process cfg now l).1 queue ∧
      ∀ l' ∈ (s.process cfg now l).2, IsKill leaving l' := by
  rcases hw with ⟨rfl, ks, heq, hks⟩ | ⟨hs, hqueue⟩
  · obtain ⟨rfl, rfl⟩ := List.cons.inj heq
    obtain ⟨hP, hleaving⟩ := h.first now
    exact ⟨.inr ⟨hP, hks⟩, hleaving⟩
  · obtain ⟨k, rfl, hk⟩ := hqueue l List.mem_cons_self
    refine ⟨.inr ⟨h.kill s now k hs hk, fun l' hl' => hqueue l' (List.mem_cons_of_mem _ hl')⟩, ?_⟩
    have hnone : (s.process cfg now (.kill k)).2 = [] := by
      rcases msKill_cases cfg now s k with hkill | ⟨u, -, hkill⟩
      · exact congrArg Prod.snd hkill
      · exact congrArg Prod.snd hkill
    rw [hnone]
    exact nofun

end Sides

/-- What both sides promise holds when nothing is on its way any more. -/
theorem run_of_sides {a₀ b₀ : NickServer γ} {lineA lineB : NickLine γ} {P Q : NickServer γ → Prop}
    {toA toB : Str → Prop} (hA : Side cfg a₀ lineA P toA toB) (hB : Side cfg b₀ lineB Q toB toA)
    (hrun : Relation.ReflTransGen (Step cfg) ⟨a₀, b₀, [lineA], [lineB]⟩ n) (htoA : n.toA = [])
    (htoB : n.toB = []) : P n.a ∧ Q n.b := by
  have hboth : Waiting a₀ lineA P toA n.a n.toA ∧ Waiting b₀ lineB Q toB n.b n.toB := by
    clear htoA htoB
    induction hrun with
    | refl => exact ⟨.inl ⟨rfl, [], rfl, nofun⟩, .inl ⟨rfl, [], rfl, nofun⟩⟩
    | tail _ hstep ih =>
        obtain ⟨ha, hb⟩ := ih
        cases hstep with
        | readA now l ls a b toB =>
            obtain ⟨ha', hleaving⟩ := hA.read ha now
            exact ⟨ha', hb.append hleaving⟩
        | readB now l ls a b toA =>
            obtain ⟨hb', hleaving⟩ := hB.read hb now
            exact ⟨ha.append hleaving, hb'⟩
  rw [htoA, htoB] at hboth
  obtain ⟨⟨-, _, hnil, -⟩ | ⟨hP, -⟩, ⟨-, _, hnil, -⟩ | ⟨hQ, -⟩⟩ := hboth
  · cases hnil
  · cases hnil
  · cases hnil
  · exact ⟨hP, hQ⟩

/-! ### The end of a run -/

/-- An introduction and the two KILLs that it can lead to. -/
def weight : NickLine γ → ℕ
  | .uid _ | .nick _ => 3
  | .kill _ => 1

def load (n : NickLink γ) : ℕ := ((n.toA ++ n.toB).map weight).sum

theorem weight_performNickCollides (target u : NickUser γ) (uid : Option Str) :
    ((s.performNickCollides cfg now target u uid).2.map weight).sum ≤ 2 := by
  rw [performNickCollides]
  cases uid <;> split_ifs <;> simp [weight, killLine]

theorem weight_process (cfg : NickConfig) (now : ℤ) (s : NickServer γ) (l : NickLine γ) :
    ((s.process cfg now l).2.map weight).sum < weight l := by
  cases l with
  | uid u =>
      rw [NickServer.process, msUid]
      split
      · simp [weight, killLine]
      · split
        · simp [weight]
        · exact Nat.lt_succ_of_le (weight_performNickCollides ..)
  | nick u =>
      rw [NickServer.process, msNick]
      split
      · simp [weight]
      · exact Nat.lt_succ_of_le (weight_performNickCollides ..)
  | kill k =>
      rcases msKill_cases cfg now s k with hkill | ⟨u, -, hkill⟩
      · rw [NickServer.process, hkill]
        exact Nat.one_pos
      · rw [NickServer.process, hkill]
        exact Nat.one_pos

theorem load_lt_of_step (h : Step cfg n n') : load n' < load n := by
  cases h with
  | readA now l ls a b toB =>
      have := weight_process cfg now a l
      simp only [load, List.map_append, List.sum_append, List.map_cons, List.sum_cons]
      omega
  | readB now l ls a b toA =>
      have := weight_process cfg now b l
      simp only [load, List.map_append, List.sum_append, List.map_cons, List.sum_cons]
      omega

theorem exists_quiet (cfg : NickConfig) (n : NickLink γ) :
    ∃ n', Relation.ReflTransGen (Step cfg) n n' ∧ n'.toA = [] ∧ n'.toB = [] := by
  induction hload : load n using Nat.strong_induction_on generalizing n with
  | _ k ih =>
      have hnext {n' : NickLink γ} (hstep : Step cfg n n') :
          ∃ n'', Relation.ReflTransGen (Step cfg) n n'' ∧ n''.toA = [] ∧ n''.toB = [] := by
        obtain ⟨n'', hrun, hquiet⟩ := ih (load n') (hload ▸ load_lt_of_step hstep) n' rfl
        exact ⟨n'', .head hstep hrun, hquiet⟩
      obtain ⟨a, b, toA, toB⟩ := n
      cases toA with
      | cons l ls => exact hnext (.readA 0 l ls a b toB)
      | nil =>
          cases toB with
          | cons l ls => exact hnext (.readB 0 l ls a b [])
          | nil => exact ⟨_, .refl, rfl, rfl⟩

end NickLink

end Unirc
