import Unirc.ChannelJoin

/-!
# Services joins, PART, KICK and exits

`m_part.c`, `m_kick.c`, SVSJOIN and SVSPART of `m_services.c`, and the removal of
clients and of the servers behind a lost link in `client.c`.
-/

namespace Unirc

open MemberFlag SimpleMode

/-- The first name of a comma list, as `m_kick` cuts it out. -/
def firstName (s : Str) : Str := (s.dropWhile (· = ',')).takeWhile (· ≠ ',')

/-- The prefix of the channel in SVSJOIN, and the channel. -/
def svsjoinPrefix (text : Str) : MemberFlags × Str :=
  match text with
  | [] => (∅, [])
  | x :: xs =>
      match nickPrefixes.lookup x with
      | some flag => ({flag}, xs)
      | none => (∅, x :: xs)

namespace Server

variable (s : Server)

def flags (m : ℕ) : MemberFlags := (s.graph.links m).elim ∅ Link.label

/-- `has_member_flags`, where there may be no membership. -/
def hasMemberFlags (m : Option ℕ) (flags : MemberFlags) : Bool :=
  m.any fun m => !decide (Disjoint (s.flags m) flags)

/-- `part_one_client`. -/
def partOneClient (a : ℕ) (name : Str) : Server :=
  match s.hashFindChannel name with
  | none => s
  | some c => (s.findChannelLink a c).elim s s.removeUserFromChannel

/-- `m_part`. -/
def mPart (a : ℕ) (chans : Str) : Server :=
  if (s.client? a).any Client.isClient then
    (commaTokens chans).foldl (fun s name => s.partOneClient a name) s
  else s

def kickers : MemberFlags := {chflOwner, chflProtected, chflChanop, chflHalfop}

/-- The tests of `m_kick` on a source that is no server and no service. -/
def mayKick (source : Client) (ch : Channel) (ms : Option ℕ) : Bool :=
  s.hasMemberFlags ms kickers || (!source.myConnect && decide (ch.channelts ≠ 0))

/-- The restrictions on local sources. -/
def kickAllowed (a : ℕ) (source : Client) (ch : Channel) (ms : Option ℕ) (target : ℕ)
    (who : Client) (msTarget : ℕ) : Bool :=
  !source.myClient ||
    (!who.services &&
      !(s.hasMemberFlags (some msTarget) {chflOwner, chflProtected} &&
        !s.hasMemberFlags ms {chflOwner} && decide (a ≠ target)) &&
      !(s.hasMemberFlags ms {chflHalfop} &&
        !s.hasMemberFlags ms {chflOwner, chflProtected, chflChanop} &&
        ((decide (modePrivate ∈ ch.mode.mode) &&
          s.hasMemberFlags (some msTarget) {chflChanop, chflHalfop}) ||
          s.hasMemberFlags (some msTarget) {chflChanop})))

/-- `m_kick`; `find` is `find_chasing`. -/
def mKick (find : Str → Option ℕ) (a : ℕ) (chan user : Str) : Server :=
  match s.client? a, s.hashFindChannel (firstName chan) with
  | some source, some c =>
      let ms := if source.isClient && !source.services then s.findChannelLink a c else none
      match s.channel? c, find (firstName user) with
      | some ch, some target =>
          if user = [] ∨ firstName chan = [] ∨ firstName user = [] then s
          else if source.isClient = true ∧ source.services = false ∧
              s.mayKick source ch ms = false then s
          else match s.client? target, s.findChannelLink target c with
            | some who, some msTarget =>
                if s.kickAllowed a source ch ms target who msTarget then
                  s.removeUserFromChannel msTarget
                else s
            | _, _ => s
      | _, _ => s
  | _, _ => s

variable (cfg : Config)

/-- `me_svsjoin`; `find` is `find_client`. -/
def meSvsjoin (now : ℤ) (find : Str → Option ℕ) (a : ℕ) (nick chan : Str) : Server :=
  match s.client? a, find nick with
  | some source, some target =>
      let name := (svsjoinPrefix chan).2
      if source.services = false ∨ (s.client? target).any Client.myClient = false then s
      else match s.hashFindChannel name with
        | some c =>
            if s.isMember target c then s
            else s.addUserToChannel c target (svsjoinPrefix chan).1
        | none =>
            if checkChannelName cfg.disableFakeChannels name true = false then s
            else if cfg.disableLocalChannels = true ∧ name.head? = some '&' then s
            else
              let made := s.makeChannel now name
              (made.1.addUserToChannel made.2 target {chflChanop}).updChannel made.2 fun ch =>
                { ch with
                  mode := { ch.mode with mode := ch.mode.mode ∪ {modeTopicLimit, modeNoPrivMsgs} } }
  | _, _ => s

/-- `me_svspart`; `find` is `find_client`. -/
def meSvspart (find : Str → Option ℕ) (a : ℕ) (nick chan : Str) : Server :=
  match s.client? a, find nick with
  | some source, some target =>
      if source.services = false ∨ (s.client? target).any Client.myClient = false then s
      else s.partOneClient target chan
  | _, _ => s

/-- `exit_one_client`: only users leave their channels. -/
def exitOneClient (a : ℕ) : Server :=
  match s.client? a with
  | none => s
  | some source =>
      let s := s.updClient source.servptr fun k =>
        if source.isClient then { k with users := k.users.erase a }
        else { k with servers := k.servers.erase a }
      let s := if source.isClient then s.doJoin0 a else s
      { s with graph := s.graph.setLeft a none }

/-- `recurse_remove_clients`, for servers at most `depth` links behind. -/
def recurseRemoveClients : ℕ → Server → ℕ → Server
  | 0, s, _ => s
  | depth + 1, s, a =>
      match s.client? a with
      | none => s
      | some source =>
          let s := source.users.foldl exitOneClient s
          source.servers.foldl (fun s b => (recurseRemoveClients depth s b).exitOneClient b) s

/-- `exit_client`. -/
def exitClient (depth a : ℕ) : Server :=
  let s := if (s.client? a).all Client.isClient then s else recurseRemoveClients depth s a
  s.exitOneClient a

/-- A user or server that has been accepted, filed under its server. -/
def introduce (who : Client) : Server :=
  ({ s with
      graph := s.graph.setLeft s.nextClient (some who)
      nextClient := s.nextClient + 1 } : Server).updClient who.servptr fun k =>
    if who.isClient then { k with users := s.nextClient :: k.users }
    else { k with servers := s.nextClient :: k.servers }

variable {s : Server} {cfg : Config}

theorem Inv.partOneClient (h : s.Inv none) (a : ℕ) (name : Str) :
    (s.partOneClient a name).Inv none := by
  unfold Server.partOneClient
  split
  · exact h
  · rename_i c _
    cases s.findChannelLink a c with
    | none => exact h
    | some m => exact h.removeUserFromChannel m

theorem Inv.mPart (h : s.Inv none) (a : ℕ) (chans : Str) : (s.mPart a chans).Inv none := by
  unfold Server.mPart
  split
  · generalize commaTokens chans = l
    clear * - h
    induction l generalizing s with
    | nil => exact h
    | cons name l ih => exact ih (h.partOneClient a name)
  · exact h

theorem Inv.mKick (h : s.Inv none) (find : Str → Option ℕ) (a : ℕ) (chan user : Str) :
    (s.mKick find a chan user).Inv none := by
  unfold Server.mKick
  split
  · extract_lets ms
    split
    · split
      · exact h
      split
      · exact h
      split
      · split
        · exact h.removeUserFromChannel _
        · exact h
      · exact h
    · exact h
  · exact h

theorem Inv.meSvsjoin (h : s.Inv none) (now : ℤ) (find : Str → Option ℕ) (a : ℕ)
    (nick chan : Str) : (s.meSvsjoin cfg now find a nick chan).Inv none := by
  unfold Server.meSvsjoin
  split
  · rename_i target _ _
    extract_lets name made
    split
    · exact h
    rename_i hguard
    have ha : (s.client? target).any Client.isClient = true := by
      cases hw : s.client? target with
      | none => simp [hw] at hguard
      | some who =>
        simp only [hw, Option.any_some, not_or, Bool.not_eq_false, Client.myClient,
          Bool.and_eq_true] at hguard
        exact hguard.2.2
    split
    · rename_i c hc
      split
      · exact h
      · rename_i hm
        exact h.addUserToChannel (by simp) (h.mem_of_find hc) ha (by simpa using hm) _
    · split
      · exact h
      split
      · exact h
      · refine Inv.relabel ?_ (Relabels.updChannel _ _ _)
        exact (h.makeChannel now name).addUserToChannel (by simp)
          (Option.isSome_of_eq_some (listed_makeChannel s now name)) ha
          (h.isMember_makeChannel now name target) _
  · exact h

theorem Inv.meSvspart (h : s.Inv none) (find : Str → Option ℕ) (a : ℕ) (nick chan : Str) :
    (s.meSvspart find a nick chan).Inv none := by
  unfold Server.meSvspart
  split
  · split
    · exact h
    · exact h.partOneClient _ chan
  · exact h

theorem Inv.introduce (h : s.Inv none) (who : Client) : (s.introduce who).Inv none := by
  refine Inv.relabel ?_ (Relabels.updClient _ _ fun k => by split <;> rfl)
  have hnone : s.graph.listed .left s.nextClient = none := by
    by_contra hne
    rw [← ne_eq, ← Option.isSome_iff_ne_none, ← isSome_client?] at hne
    exact absurd (h.freshClient hne) (lt_irrefl _)
  have hclient : ∀ b, b ≠ s.nextClient →
      ({ s with
          graph := s.graph.setLeft s.nextClient (some who)
          nextClient := s.nextClient + 1 } : Server).client? b = s.client? b := by
    intro b hb
    simp only [client?, LinkGraph.setLeft, Function.update_of_ne hb]
  refine ⟨h.wf.setLeft (fun l hl => ?_) _, h.simple, fun {m r} hr => ?_, h.list, h.nodup,
    h.member, h.fresh, fun {b} hb => ?_⟩
  · rw [hnone] at hl
    cases hl
  · have hp := h.person hr
    rw [hclient]
    · exact hp
    · rintro hl
      rw [hl] at hp
      exact absurd (h.freshClient (Option.isSome_of_any hp)) (lt_irrefl _)
  · by_cases hbn : b = s.nextClient
    · exact hbn ▸ Nat.lt_succ_self _
    · rw [hclient b hbn] at hb
      exact Nat.lt_succ_of_lt (h.freshClient hb)

theorem listed_left_removeUser {m : ℕ} {r : Link MemberFlags} (hm : s.graph.links m = some r)
    (a : ℕ) : (s.removeUserFromChannel m).graph.listed .left a =
      if a = r.left then (s.graph.listed .left a).map (·.erase m)
      else s.graph.listed .left a := by
  unfold Server.removeUserFromChannel
  simp only [hm]
  split
  · exact LinkGraph.listed_unlink s.graph hm .left a
  · exact LinkGraph.listed_unlink s.graph hm .left a

/-- Leaving every channel leaves no membership. -/
theorem Inv.listed_doJoin0 (h : s.Inv none) {a : ℕ} {l : List ℕ}
    (hl : s.graph.listed .left a = some l) :
    (s.doJoin0 a).graph.listed .left a = some [] := by
  have hmem : s.memberships a = l := by rw [memberships, hl, Option.getD_some]
  rw [Server.doJoin0, hmem]
  clear hmem
  induction l generalizing s with
  | nil => exact hl
  | cons m l ih =>
      obtain ⟨r, hr, hat⟩ := h.wf.link_at hl List.mem_cons_self
      refine ih (h.removeUserFromChannel m) ?_
      have hleft : a = r.left := hat.symm
      rw [listed_left_removeUser hr, if_pos hleft, hl, Option.map_some, List.erase_cons_head]

/-- A client without memberships can be removed. -/
theorem Inv.removeClient (h : s.Inv none) {a : ℕ}
    (ha : ∀ l, s.graph.listed .left a = some l → l = []) :
    Inv { s with graph := s.graph.setLeft a none } none := by
  have hclient : ∀ b, b ≠ a →
      ({ s with graph := s.graph.setLeft a none } : Server).client? b = s.client? b := by
    intro b hb
    simp only [client?, LinkGraph.setLeft, Function.update_of_ne hb]
  refine ⟨h.wf.setLeft ha _, h.simple, fun {m r} hr => ?_, h.list, h.nodup, h.member, h.fresh,
    fun {b} hb => ?_⟩
  · rw [hclient]
    · exact h.person hr
    · rintro hl
      obtain ⟨l, hl', hm⟩ := h.wf.listed_at hr .left
      have hleft : r.at .left = a := hl
      rw [hleft] at hl'
      rw [ha l hl'] at hm
      cases hm
  · by_cases hba : b = a
    · simp [client?, LinkGraph.setLeft, hba] at hb
    · rw [hclient b hba] at hb
      exact h.freshClient hb

theorem Inv.exitOneClient (h : s.Inv none) (a : ℕ) : (s.exitOneClient a).Inv none := by
  unfold Server.exitOneClient
  split
  · exact h
  · rename_i source hs
    extract_lets s₁ s₂
    have hr : Relabels s s₁ := Relabels.updClient _ _ fun k => by split <;> rfl
    have h₁ : s₁.Inv none := h.relabel hr
    have hperson : (s₁.client? a).any Client.isClient = source.isClient := by
      rw [hr.person_any, hs, Option.any_some]
    refine Inv.removeClient ?_ fun l hl => ?_
    · dsimp only [s₂]
      split
      · exact h₁.doJoin0 a
      · exact h₁
    · dsimp only [s₂] at hl
      split at hl
      · cases hl₁ : s₁.graph.listed .left a with
        | none =>
          have hc : (s₁.doJoin0 a).client? a = none := by
            rw [client?_doJoin0, ← Option.not_isSome_iff_eq_none, isSome_client?, hl₁]
            simp
          have := isSome_client? (s₁.doJoin0 a) a
          rw [hc, hl] at this
          cases this
        | some l₁ =>
          rw [h₁.listed_doJoin0 hl₁] at hl
          exact (Option.some.inj hl).symm
      · rename_i hserver
        cases l with
        | nil => rfl
        | cons m l =>
          obtain ⟨r, hr', hat⟩ := h₁.wf.link_at hl List.mem_cons_self
          have hp := h₁.person hr'
          have hleft : r.left = a := hat
          rw [hleft, hperson] at hp
          exact absurd hp hserver

theorem Inv.exits (h : s.Inv none) (l : List ℕ) :
    (l.foldl Server.exitOneClient s).Inv none := by
  induction l generalizing s with
  | nil => exact h
  | cons a l ih => exact ih (h.exitOneClient a)

theorem Inv.recurseRemoveClients (h : s.Inv none) (depth a : ℕ) :
    (recurseRemoveClients depth s a).Inv none := by
  induction depth generalizing s a with
  | zero => exact h
  | succ depth ih =>
      rw [Server.recurseRemoveClients]
      split
      · exact h
      · rename_i source _
        have h' := h.exits source.users
        generalize source.users.foldl Server.exitOneClient s = t at h'
        dsimp only
        generalize source.servers = l
        induction l generalizing t with
        | nil => exact h'
        | cons b l ihl => exact ihl _ ((ih h' b).exitOneClient b)

theorem Inv.exitClient (h : s.Inv none) (depth a : ℕ) : (s.exitClient depth a).Inv none := by
  unfold Server.exitClient
  refine Inv.exitOneClient ?_ a
  split
  · exact h
  · exact h.recurseRemoveClients depth a

end Server

end Unirc
