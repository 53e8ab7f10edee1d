import Unirc.ConnectBurst
import Unirc.MaskLanguage

/-!
# A burst is complete and in order

Every server stands behind the one that it hangs off on `global_serv_list`, and that is kept when a
server is entered. So is the order of a burst; its marks are gone when it ends, and the next burst
is complete as well.
-/

namespace Unirc

theorem matchMask_self (name : Str) : matchMask name name = true :=
  matchMask_of_irccmp ((irccmp_eq_false_iff name name).mpr rfl)

section Words

theorem infix_dropLast {w t : Str} (h : w ++ [' '] <:+: t) : w <:+: t.dropLast := by
  obtain ⟨u, v, rfl⟩ := h
  rcases List.eq_nil_or_concat v with rfl | ⟨v, c, rfl⟩
  · rw [List.append_nil, ← List.append_assoc, List.dropLast_concat]
    exact (List.suffix_append u w).isInfix
  · rw [List.concat_eq_append, ← List.append_assoc, List.dropLast_concat]
    exact ⟨u, [' '] ++ v, by simp⟩

/-- Whoever is in the buffer or still to come is named in a line. -/
theorem exists_line_membersLoop (start : Str) {m : MemberItem} {t : Str} {ms : List MemberItem}
    (h : m.word ++ [' '] <:+: t ∨ m ∈ ms) :
    ∃ line ∈ membersLoop start t ms, m.word <:+: line := by
  induction ms generalizing t with
  | nil =>
      rcases h with h | h
      · exact ⟨t.dropLast, List.mem_cons_self, infix_dropLast h⟩
      · cases h
  | cons x ms ih =>
      rw [membersLoop]
      have hown (t : Str) (h : m ∈ x :: ms) :
          m.word ++ [' '] <:+: t ++ (x.word ++ [' ']) ∨ m ∈ ms := by
        rcases List.mem_cons.mp h with rfl | h
        · exact Or.inl (List.suffix_append t _).isInfix
        · exact Or.inr h
      split
      · rcases h with h | h
        · exact ⟨t.dropLast, List.mem_cons_self, infix_dropLast h⟩
        · obtain ⟨line, hline, hword⟩ := ih (hown start h)
          exact ⟨line, List.mem_cons_of_mem _ hline, hword⟩
      · refine ih ?_
        rcases h with h | h
        · exact Or.inl (h.trans (List.prefix_append t _).isInfix)
        · exact hown t h

theorem exists_line_sendMembers (start : Str) {m : MemberItem} {ms : List MemberItem}
    (h : m ∈ ms) : ∃ line ∈ sendMembers start ms, m.word <:+: line := by
  rw [sendMembers, if_neg (List.ne_nil_of_mem h)]
  exact exists_line_membersLoop start (Or.inr h)

end Words

theorem Server.Inv.setClient {s : Server} {a : ℕ} (h : s.Inv none) (hnone : s.client? a = none)
    (hlt : a < s.nextClient) (who : Client) :
    ({ s with graph := s.graph.setLeft a (some who) } : Server).Inv none := by
  have hlisted : s.graph.listed .left a = none := by
    rw [← Option.isNone_iff_eq_none, ← Option.not_isSome, ← Server.isSome_client?, hnone]
    rfl
  have hclient : ∀ b, b ≠ a →
      ({ s with graph := s.graph.setLeft a (some who) } : Server).client? b = s.client? b := by
    intro b hb
    simp only [Server.client?, LinkGraph.setLeft, Function.update_of_ne hb]
  refine ⟨h.wf.setLeft (fun l hl => ?_) _, h.simple, fun {m r} hr => ?_, h.list, h.nodup,
    h.member, h.fresh, fun {b} hb => ?_⟩
  · rw [hlisted] at hl
    cases hl
  · have hp := h.person hr
    rw [hclient]
    · exact hp
    · rintro hl
      rw [hl, hnone] at hp
      cases hp
  · by_cases hba : b = a
    · exact hba ▸ hlt
    · rw [hclient b hba] at hb
      exact h.freshClient hb

namespace Network

/-- What a burst relies on: the tree of servers, the lists of all clients, and servers that came
after the one that they hang off. -/
structure Surveyed (n : Network) : Prop where
  core : n.core.Inv none
  root : n.isServer n.me = true
  parentMe : n.parent n.me = n.me
  parent : ∀ a, n.isServer (n.parent a) = true
  direct : ∀ a k, n.client? a = some k → (k.myConnect = true ↔ k.servptr = n.me)
  from_ : ∀ a k, n.client? a = some k →
    k.from_ = if k.myConnect then a else n.fromOf k.servptr
  nodupServ : n.globalServList.Nodup
  memServ : ∀ a, a ∈ n.globalServList ↔ n.isServer a = true
  older : Admitted (fun before a => a = n.me ∨ n.parent a ∈ before) n.globalServList.reverse
  nodupClients : n.globalClientList.Nodup
  memClients : ∀ a, a ∈ n.globalClientList ↔
    (n.client? a).isSome = true ∨ (n.pending a).isSome = true
  pending : ∀ a, (n.pending a).isSome = true → n.client? a = none ∧ a < n.core.nextClient

theorem Surveyed.sent {n : Network} (h : n.Surveyed) (sent : List (ℕ × Str)) :
    ({ n with sent := sent } : Network).Surveyed :=
  ⟨h.core, h.root, h.parentMe, h.parent, h.direct, h.from_, h.nodupServ, h.memServ, h.older,
    h.nodupClients, h.memClients, h.pending⟩

section Enter

variable {n : Network} {link : ℕ} {p : Pending} {hidden services : Bool}

theorem client?_enterServer (hne : link ≠ n.me) (b : ℕ) :
    (n.enterServer link p hidden services).client? b =
      if b = link then some (n.newServer link p hidden services)
      else if b = n.me then (n.client? b).map fun k => { k with servers := link :: k.servers }
      else n.client? b := by
  unfold Network.client? enterServer
  rw [Server.client?_updClient]
  have hset : ({ n.core with
      graph := n.core.graph.setLeft link (some (n.newServer link p hidden services)) } :
        Server).client? b =
      if b = link then some (n.newServer link p hidden services) else n.core.client? b := by
    simp only [Server.client?, LinkGraph.setLeft]
    by_cases hb : b = link
    · subst hb
      rw [Function.update_self, if_pos rfl]
      rfl
    · rw [Function.update_of_ne hb, if_neg hb]
  rw [hset]
  by_cases hb : b = link
  · rw [if_pos hb, if_neg (hb ▸ hne), if_pos hb]
  · rw [if_neg hb, if_neg hb]

theorem isServer_enterServer (hne : link ≠ n.me) (b : ℕ) :
    (n.enterServer link p hidden services).isServer b = (b = link || n.isServer b) := by
  unfold isServer
  rw [client?_enterServer hne]
  split
  · rename_i hb
    simp [hb, newServer, Client.make]
  · rename_i hb
    split
    · simp [hb, Option.any_map]
    · simp [hb]

theorem parent_enterServer (hne : link ≠ n.me) (b : ℕ) :
    (n.enterServer link p hidden services).parent b = if b = link then n.me else n.parent b := by
  unfold parent
  rw [client?_enterServer hne]
  split
  · rfl
  · split
    · cases n.client? b <;> rfl
    · rfl

theorem fromOf_enterServer (hne : link ≠ n.me) (hnone : n.client? link = none) (b : ℕ) :
    (n.enterServer link p hidden services).fromOf b = n.fromOf b := by
  unfold fromOf
  rw [client?_enterServer hne]
  split
  · rename_i hb
    rw [hb, hnone]
    rfl
  · split
    · cases n.client? b <;> rfl
    · rfl

theorem Surveyed.enterServer (h : n.Surveyed) (hlink : n.pending link = some p) :
    (n.enterServer link p hidden services).Surveyed := by
  obtain ⟨hnone, hlt⟩ := h.pending link (by rw [hlink]; rfl)
  have hnot : n.isServer link = false := by
    rw [isServer, hnone]
    rfl
  have hne : link ≠ n.me := by
    rintro rfl
    rw [h.root] at hnot
    cases hnot
  have hserver : ∀ b, (n.enterServer link p hidden services).isServer b =
      (b = link || n.isServer b) := isServer_enterServer hne
  have hparent : ∀ b, (n.enterServer link p hidden services).parent b =
      if b = link then n.me else n.parent b := parent_enterServer hne
  have hfrom : ∀ b, (n.enterServer link p hidden services).fromOf b = n.fromOf b :=
    fromOf_enterServer hne hnone
  have hclient : ∀ b, (n.enterServer link p hidden services).client? b =
      if b = link then some (n.newServer link p hidden services)
      else if b = n.me then (n.client? b).map fun k => { k with servers := link :: k.servers }
      else n.client? b := client?_enterServer hne
  have hold : ∀ b k, (n.enterServer link p hidden services).client? b = some k → b ≠ link →
      ∃ k₀, n.client? b = some k₀ ∧ k.myConnect = k₀.myConnect ∧ k.servptr = k₀.servptr ∧
        k.from_ = k₀.from_ := by
    intro b k hk hb
    rw [hclient, if_neg hb] at hk
    split at hk
    · obtain ⟨k₀, hk₀, rfl⟩ := Option.map_eq_some_iff.mp hk
      exact ⟨k₀, hk₀, rfl, rfl, rfl⟩
    · exact ⟨k, hk, rfl, rfl, rfl⟩
  have hnew : ∀ k, (n.enterServer link p hidden services).client? link = some k →
      k = n.newServer link p hidden services := by
    intro k hk
    rw [hclient, if_pos rfl] at hk
    exact (Option.some.inj hk).symm
  constructor
  case core =>
    refine (h.core.setClient hnone hlt _).relabel (Server.Relabels.updClient _ _ fun k => rfl)
  case root => rw [hserver]; exact (Bool.or_eq_true _ _).mpr (Or.inr h.root)
  case parentMe => rw [hparent]; exact (if_neg hne.symm).trans h.parentMe
  case parent =>
    intro b
    rw [hparent, hserver]
    split
    · rw [h.root, Bool.or_true]
    · rw [h.parent, Bool.or_true]
  case direct =>
    intro b k hk
    by_cases hb : b = link
    · subst hb
      rw [hnew k hk]
      exact iff_of_true rfl rfl
    · obtain ⟨k₀, hk₀, hconn, hptr, -⟩ := hold b k hk hb
      rw [hconn, hptr]
      exact h.direct b k₀ hk₀
  case from_ =>
    intro b k hk
    rw [hfrom]
    by_cases hb : b = link
    · subst hb
      rw [hnew k hk]
      rfl
    · obtain ⟨k₀, hk₀, hconn, hptr, hf⟩ := hold b k hk hb
      rw [hconn, hptr, hf]
      exact h.from_ b k₀ hk₀
  case nodupServ =>
    refine List.nodup_cons.mpr ⟨fun hm => ?_, h.nodupServ⟩
    rw [h.memServ, hnot] at hm
    cases hm
  case memServ =>
    intro b
    rw [hserver, Bool.or_eq_true, decide_eq_true_eq, ← h.memServ]
    exact List.mem_cons
  case older =>
    have hrest := h.older.mono fun k b hb hP => by
      have hb : b ≠ link := by
        rintro rfl
        rw [List.mem_reverse, h.memServ, hnot] at hb
        cases hb
      exact (by rwa [hparent, if_neg hb] :
        b = n.me ∨ (n.enterServer link p hidden services).parent b ∈ k)
    have hlast := hrest.snoc (x := link) (by
      rw [hparent, if_pos rfl, List.mem_reverse, h.memServ]
      exact Or.inr h.root)
    exact (List.reverse_cons ..).symm ▸ hlast
  case nodupClients => exact h.nodupClients
  case memClients =>
    intro b
    refine (h.memClients b).trans ?_
    rw [hclient]
    by_cases hb : b = link
    · subst hb
      simp [hlink]
    · have hpend : (n.enterServer link p hidden services).pending b = n.pending b :=
        Function.update_of_ne hb _ _
      rw [if_neg hb, hpend]
      split <;> simp
  case pending =>
    intro b hb
    by_cases hbl : b = link
    · subst hbl
      have hgone : (n.enterServer b p hidden services).pending b = none :=
        Function.update_self ..
      rw [hgone] at hb
      cases hb
    · have hpend : (n.enterServer link p hidden services).pending b = n.pending b :=
        Function.update_of_ne hbl _ _
      rw [hpend] at hb
      obtain ⟨hb, hlt⟩ := h.pending b hb
      refine ⟨?_, hlt⟩
      rw [hclient, if_neg hbl, hb]
      split <;> rfl

end Enter

end Network

namespace BurstState

section

variable (s : BurstState) (link : ℕ)

/-- The link can be told about what hangs off a server. -/
def Presented (before : List BurstLine) (a : ℕ) : Prop :=
  s.masked link a = true ∨ ∃ text, .server a text ∈ before

/-- A line may follow those before it: a server or a user is sent for the first time and behind its
server, and the members of a channel behind all of them that the link does not know. -/
def MayFollow (before : List BurstLine) : BurstLine → Prop
  | .server a text => (∀ u, .server a u ∉ before) ∧ s.Presented link before (s.net.parent a) ∧
      ∃ k, s.net.client? a = some k ∧ text = s.introLine link a k
  | .user a text => (∀ u, .user a u ∉ before) ∧ s.Presented link before (s.net.parent a) ∧
      ∃ k, s.net.client? a = some k ∧ text = s.nickText link a k
  | .members c _ => ∀ a ∈ s.memberClients c, s.net.fromOf a ≠ link → ∃ text, .user a text ∈ before
  | _ => True

/-- The text of an SJOIN line for a channel. -/
def sjoin? (c : ℕ) : BurstLine → Option Str
  | .members d text => if d = c then some text else none
  | _ => none

/-- A burst introduces what is not behind the link, in order, and says of each channel that is
sent what `send_members` writes. -/
structure Complete (lines : List BurstLine) : Prop where
  inOrder : Admitted (s.MayFollow link) lines
  servers : ∀ a, (∃ text, .server a text ∈ lines) ↔
    s.net.isServer a = true ∧ s.net.fromOf a ≠ link ∧ s.masked link a = false
  users : ∀ a, (∃ text, .user a text ∈ lines) ↔ s.net.isUser a = true ∧ s.net.fromOf a ≠ link
  channels : ∀ c ∈ s.net.core.globalChannelList, ∀ ch, s.net.core.channel? c = some ch →
    ch.chname.val.head? = some '#' →
    lines.filterMap (sjoin? c) =
      s.net.core.burstMemberLines c s.net.self (s.net.link link).caps.ts6 ch
  named : ∀ c ∈ s.net.core.globalChannelList, ∀ ch, s.net.core.channel? c = some ch →
    ch.chname.val.head? = some '#' → ∀ x ∈ s.net.core.burstMembers c,
      ∃ text, .members c text ∈ lines ∧
        (memberItem (s.net.link link).caps.ts6 x.2.1 x.2.2).word <:+: text

end

variable {s : BurstState} {link : ℕ}

theorem masked_me (hsconf : ∃ c, (s.net.link link).sconf = some c ∧ c.fakename = none) :
    s.masked link s.net.me = true := by
  obtain ⟨c, hc, hfake⟩ := hsconf
  have hname : s.net.myNameForLink link = s.net.nameOf s.net.me := by
    have hlen : s.net.myName.length ≤ HOSTLEN := by
      unfold Network.myName
      cases s.net.client? s.net.me with
      | none => exact Nat.zero_le _
      | some k => exact Nat.le_of_lt_succ k.name.property
    rw [Network.myNameForLink, hc, Option.bind_some, hfake, Option.getD_none,
      List.take_of_length_le hlen]
    rfl
  rw [masked, hname]
  exact matchMask_self _

section Servers

theorem introduceServer_eq_some {a : ℕ} {line : BurstLine} :
    s.introduceServer link a = some line ↔ ∃ k, s.net.client? a = some k ∧ k.from_ ≠ link ∧
      s.masked link a = false ∧ line = .server a (s.introLine link a k) := by
  unfold introduceServer
  cases s.net.client? a with
  | none => simp
  | some k =>
      dsimp only
      constructor
      · intro hline
        split at hline
        · cases hline
        split at hline
        · cases hline
        rename_i hfrom hmask
        exact ⟨k, rfl, hfrom, by simpa using hmask, (Option.some.inj hline).symm⟩
      · rintro ⟨k', hk, hfrom, hmask, rfl⟩
        obtain rfl := Option.some.inj hk
        rw [if_neg hfrom, if_neg (by simp [hmask])]

variable (h : s.net.Surveyed)
  (hsconf : ∃ c, (s.net.link link).sconf = some c ∧ c.fakename = none)

include h

theorem mem_introduceServers (a : ℕ) : (∃ text, .server a text ∈ s.introduceServers link) ↔
    s.net.isServer a = true ∧ s.net.fromOf a ≠ link ∧ s.masked link a = false := by
  constructor
  · rintro ⟨text, htext⟩
    obtain ⟨b, hb, hline⟩ := List.mem_filterMap.mp htext
    obtain ⟨k, hk, hfrom, hmask, hline⟩ := introduceServer_eq_some.mp hline
    obtain ⟨rfl, -⟩ := BurstLine.server.inj hline
    rw [List.mem_reverse, h.memServ] at hb
    exact ⟨hb, by rwa [Network.fromOf, hk], hmask⟩
  · rintro ⟨hserver, hfrom, hmask⟩
    cases hk : s.net.client? a with
    | none =>
        rw [Network.isServer, hk] at hserver
        cases hserver
    | some k =>
        rw [Network.fromOf, hk] at hfrom
        refine ⟨s.introLine link a k, List.mem_filterMap.mpr ⟨a, ?_, ?_⟩⟩
        · rw [List.mem_reverse, h.memServ]
          exact hserver
        · exact introduceServer_eq_some.mpr ⟨k, hk, hfrom, hmask, rfl⟩

include hsconf

/-- What a client hangs off has been sent, or is hidden. -/
theorem presented_parent {before : List BurstLine} {a : ℕ} {k : Client}
    (hk : s.net.client? a = some k) (hfrom : k.from_ ≠ link)
    (hbefore : s.net.parent a ≠ s.net.me → s.net.isServer (s.net.parent a) = true →
      s.net.fromOf (s.net.parent a) ≠ link → s.masked link (s.net.parent a) = false →
      ∃ text, .server (s.net.parent a) text ∈ before) :
    s.Presented link before (s.net.parent a) := by
  by_cases hme : s.net.parent a = s.net.me
  · rw [hme]
    exact Or.inl (masked_me hsconf)
  cases hmask : s.masked link (s.net.parent a) with
  | true => exact Or.inl hmask
  | false =>
      have hptr : s.net.parent a = k.servptr := by
        rw [Network.parent, hk]
        rfl
      have hconn : k.myConnect = false := by
        rw [← Bool.not_eq_true, h.direct a k hk, ← hptr]
        exact hme
      have hup := h.from_ a k hk
      rw [hconn, if_neg Bool.false_ne_true, ← hptr] at hup
      exact Or.inr (hbefore hme (h.parent a) (hup ▸ hfrom) hmask)

theorem admitted_introduceServers : Admitted (s.MayFollow link) (s.introduceServers link) := by
  suffices hlist : ∀ l : List ℕ,
      Admitted (fun before a => a = s.net.me ∨ s.net.parent a ∈ before) l →
      l.Nodup → Admitted (s.MayFollow link) (l.filterMap (s.introduceServer link)) from
    hlist _ h.older (List.nodup_reverse.mpr h.nodupServ)
  intro l hl
  induction hl with
  | nil => exact fun _ => Admitted.nil
  | @snoc l a _ holder ih =>
      intro hnodup
      obtain ⟨hnodup, -, hdisj⟩ := List.nodup_append.mp hnodup
      have hrest := ih hnodup
      rw [List.filterMap_append]
      cases hline : s.introduceServer link a with
      | none => simpa [hline] using hrest
      | some line =>
          obtain ⟨k, hk, hfrom, hmask, rfl⟩ := introduceServer_eq_some.mp hline
          rw [List.filterMap_cons_some hline, List.filterMap_nil]
          refine hrest.snoc ⟨fun u hu => ?_, ?_, k, hk, rfl⟩
          · obtain ⟨b, hb, hline⟩ := List.mem_filterMap.mp hu
            obtain ⟨k', -, -, -, heq⟩ := introduceServer_eq_some.mp hline
            obtain ⟨rfl, -⟩ := BurstLine.server.inj heq
            exact hdisj _ hb _ List.mem_cons_self rfl
          · refine presented_parent h hsconf hk hfrom fun hme hserver hpfrom hpmask => ?_
            rcases holder with rfl | hmem
            · rw [masked_me hsconf] at hmask
              cases hmask
            · obtain ⟨f, hf⟩ := Option.isSome_iff_exists.mp (Option.isSome_of_any hserver)
              rw [Network.fromOf, hf] at hpfrom
              exact ⟨_, List.mem_filterMap.mpr
                ⟨_, hmem, introduceServer_eq_some.mpr ⟨f, hf, hpfrom, hpmask, rfl⟩⟩⟩

end Servers

section Pass

/-- The servers have been sent, and of the users not behind the link those who are done with. -/
structure Sent (s : BurstState) (link : ℕ) (lines : List BurstLine) (done : ℕ → Prop) : Prop where
  inOrder : Admitted (s.MayFollow link) lines
  servers : ∀ a, (∃ text, .server a text ∈ lines) ↔
    s.net.isServer a = true ∧ s.net.fromOf a ≠ link ∧ s.masked link a = false
  users : ∀ a, (∃ text, .user a text ∈ lines) ↔
    done a ∧ s.net.isUser a = true ∧ s.net.fromOf a ≠ link

/-- A line that introduces nobody. -/
def Quiet (line : BurstLine) : Prop := (∀ a u, line ≠ .server a u) ∧ ∀ a u, line ≠ .user a u

theorem quiet_of_ne {line : BurstLine} (h : ∀ a u, (line = .server a u → False) ∧
    (line = .user a u → False)) : Quiet line :=
  ⟨fun a u => (h a u).1, fun a u => (h a u).2⟩

variable {lines m : List BurstLine} {done done' : ℕ → Prop} {p : Pass} {a : ℕ}

theorem Sent.congr (h : Sent s link lines done)
    (hdone : ∀ a, s.net.isUser a = true → (done a ↔ done' a)) : Sent s link lines done' where
  inOrder := h.inOrder
  servers := h.servers
  users := fun a => by
    rw [h.users, ← and_assoc, ← and_assoc, and_congr_left]
    intro _
    exact ⟨fun hu => ⟨(hdone a hu.2).mp hu.1, hu.2⟩, fun hu => ⟨(hdone a hu.2).mpr hu.1, hu.2⟩⟩

theorem Sent.append (h : Sent s link lines done) (hquiet : ∀ x ∈ m, Quiet x)
    (hm : ∀ x ∈ m, ∀ k, lines <+: k → s.MayFollow link k x) : Sent s link (lines ++ m) done where
  inOrder := h.inOrder.append hm
  servers := fun a => by
    rw [← h.servers]
    refine exists_congr fun u => ?_
    rw [List.mem_append, or_iff_left]
    exact fun hx => (hquiet _ hx).1 a u rfl
  users := fun a => by
    rw [← h.users]
    refine exists_congr fun u => ?_
    rw [List.mem_append, or_iff_left]
    exact fun hx => (hquiet _ hx).2 a u rfl

/-- A user who was not done with is sent, if not behind the link. -/
theorem Sent.send (h : Sent s link lines done) (hnet : s.net.Surveyed)
    (hsconf : ∃ c, (s.net.link link).sconf = some c ∧ c.fakename = none) (ha : ¬ done a) :
    Sent s link (lines ++ if s.net.fromOf a = link then [] else s.sendnickTS link a)
      fun b => done b ∨ b = a := by
  by_cases hfrom : s.net.fromOf a = link
  · rw [if_pos hfrom, List.append_nil]
    refine ⟨h.inOrder, h.servers, fun b => (h.users b).trans ?_⟩
    refine ⟨fun hb => ⟨Or.inl hb.1, hb.2⟩, ?_⟩
    rintro ⟨hb | rfl, hb'⟩
    · exact ⟨hb, hb'⟩
    · exact absurd hfrom hb'.2
  rw [if_neg hfrom]
  cases hk : s.net.client? a with
  | none =>
      rw [sendnickTS, hk, List.append_nil]
      refine h.congr fun b hb => (or_iff_left ?_).symm
      rintro rfl
      rw [Network.isUser, hk] at hb
      cases hb
  | some k =>
      cases hperson : k.isClient with
      | false =>
          rw [sendnickTS, hk]
          dsimp only
          rw [hperson, if_neg Bool.false_ne_true, List.append_nil]
          refine h.congr fun b hb => (or_iff_left ?_).symm
          rintro rfl
          rw [Network.isUser, hk, Option.any_some, hperson] at hb
          cases hb
      | true =>
          have hfrom' : k.from_ ≠ link := by rwa [Network.fromOf, hk] at hfrom
          have hfollow : s.MayFollow link lines (.user a (s.nickText link a k)) := by
            refine ⟨fun u hu => ha ((h.users a).mp ⟨u, hu⟩).1, ?_, k, hk, rfl⟩
            exact presented_parent hnet hsconf hk hfrom' fun _ hserver hpfrom hmask =>
              (h.servers _).mpr ⟨hserver, hpfrom, hmask⟩
          have huser : Sent s link (lines ++ [.user a (s.nickText link a k)])
              fun b => done b ∨ b = a := by
            refine ⟨h.inOrder.snoc hfollow, fun b => ?_, fun b => ?_⟩
            · rw [← h.servers b]
              simp
            · simp only [List.mem_append, List.mem_singleton, BurstLine.user.injEq, exists_or,
                h.users b]
              constructor
              · rintro (hb | ⟨u, rfl, -⟩)
                · exact ⟨Or.inl hb.1, hb.2⟩
                · exact ⟨Or.inr rfl, by rw [Network.isUser, hk]; exact hperson, hfrom⟩
              · rintro ⟨hb | rfl, hb'⟩
                · exact Or.inl ⟨hb, hb'⟩
                · exact Or.inr ⟨_, rfl, rfl⟩
          rw [sendnickTS, hk]
          dsimp only
          rw [hperson, if_pos rfl, ← List.singleton_append, ← List.append_assoc]
          have haway : ∀ x ∈ (if (s.net.link link).sconf.any Sconf.awayBurst = true ∧
              (s.profile a).away ≠ [] then
              [BurstLine.away a (':' :: (k.name.val ++ " AWAY :".toList ++ (s.profile a).away))]
              else []), ∃ text, x = .away a text := by
            intro x hx
            split at hx
            · exact ⟨_, List.mem_singleton.mp hx⟩
            · cases hx
          refine huser.append (fun x hx => ?_) fun x hx l _ => ?_
          · obtain ⟨text, rfl⟩ := haway x hx
            exact quiet_of_ne (by simp)
          · obtain ⟨text, rfl⟩ := haway x hx
            trivial

theorem bursted_burstMember (b : ℕ) :
    (s.burstMember link p a).bursted b = true ↔ p.bursted b = true ∨ b = a := by
  unfold burstMember
  split
  · rename_i hp
    exact ⟨Or.inl, fun h => h.elim id fun h => h ▸ hp⟩
  · by_cases hb : b = a
    · subst hb
      simp
    · simp [hb]

theorem bursted_members (l : List ℕ) (b : ℕ) :
    (l.foldl (s.burstMember link) p).bursted b = true ↔ p.bursted b = true ∨ b ∈ l := by
  induction l generalizing p with
  | nil => simp
  | cons a l ih => rw [List.foldl_cons, ih, bursted_burstMember, List.mem_cons, or_assoc]

section Walks

variable (hnet : s.net.Surveyed)
  (hsconf : ∃ c, (s.net.link link).sconf = some c ∧ c.fakename = none)

include hnet hsconf

theorem Sent.burstMember (h : Sent s link p.lines fun b => p.bursted b = true) (a : ℕ) :
    Sent s link (s.burstMember link p a).lines
      fun b => (s.burstMember link p a).bursted b = true := by
  by_cases ha : p.bursted a = true
  · rw [BurstState.burstMember, if_pos ha]
    exact h
  · refine Sent.congr ?_ fun b _ => (bursted_burstMember b).symm
    rw [BurstState.burstMember, if_neg ha]
    exact h.send hnet hsconf ha

theorem Sent.members (h : Sent s link p.lines fun b => p.bursted b = true) (l : List ℕ) :
    Sent s link (l.foldl (s.burstMember link) p).lines
      fun b => (l.foldl (s.burstMember link) p).bursted b = true := by
  induction l generalizing p with
  | nil => exact h
  | cons a l ih => exact ih (h.burstMember hnet hsconf a)

omit hnet hsconf in
/-- What is said of a channel is about its members, or about nobody. -/
theorem quiet_of_mem_channel {c : ℕ} {x : BurstLine}
    (hx : x ∈ s.sendChannelModes link c ++ s.sendTb link c) :
    Quiet x ∧ ∀ k, (∀ a ∈ s.memberClients c, s.net.fromOf a ≠ link → ∃ u, .user a u ∈ k) →
      s.MayFollow link k x := by
  have hkinds : (∃ text, x = .members c text) ∨ (∃ text, x = .masks c text) ∨
      ∃ text, x = .topic c text := by
    rcases List.mem_append.mp hx with hx | hx
    · unfold sendChannelModes at hx
      cases hch : s.net.core.channel? c with
      | none =>
          rw [hch] at hx
          cases hx
      | some ch =>
          rw [hch] at hx
          dsimp only at hx
          split at hx
          · cases hx
          have hmap {f : Str → BurstLine} {l : List Str} (hx : x ∈ l.map f) :
              ∃ text, x = f text := by
            obtain ⟨text, -, rfl⟩ := List.mem_map.mp hx
            exact ⟨text, rfl⟩
          rcases List.mem_append.mp hx with hx | hx
          · rcases List.mem_append.mp hx with hx | hx
            · rcases List.mem_append.mp hx with hx | hx
              · exact Or.inl (hmap hx)
              · exact Or.inr (Or.inl (hmap hx))
            · split at hx
              · exact Or.inr (Or.inl (hmap hx))
              · cases hx
          · split at hx
            · exact Or.inr (Or.inl (hmap hx))
            · cases hx
    · refine Or.inr (Or.inr ?_)
      unfold sendTb at hx
      cases hch : s.net.core.channel? c with
      | none =>
          rw [hch] at hx
          cases hx
      | some ch =>
          rw [hch] at hx
          dsimp only at hx
          split at hx
          · cases hx
          split at hx
          · exact ⟨_, List.mem_singleton.mp hx⟩
          split at hx
          · split at hx
            · exact ⟨_, List.mem_singleton.mp hx⟩
            · exact ⟨_, List.mem_singleton.mp hx⟩
          · cases hx
  obtain ⟨text, rfl⟩ | ⟨text, rfl⟩ | ⟨text, rfl⟩ := hkinds
  · exact ⟨quiet_of_ne (by simp), fun k hk => hk⟩
  · exact ⟨quiet_of_ne (by simp), fun k _ => trivial⟩
  · exact ⟨quiet_of_ne (by simp), fun k _ => trivial⟩

omit hnet hsconf in
theorem isUser_of_mem_memberClients (hcore : s.net.core.Inv none) {c a : ℕ}
    (ha : a ∈ s.memberClients c) : s.net.isUser a = true := by
  obtain ⟨x, hx, rfl⟩ := List.mem_map.mp ha
  obtain ⟨m, -, hx⟩ := List.mem_filterMap.mp hx
  obtain ⟨r, hr, hx⟩ := Option.bind_eq_some_iff.mp hx
  obtain ⟨k, -, rfl⟩ := Option.map_eq_some_iff.mp hx
  exact hcore.person hr

theorem Sent.burstChannel (h : Sent s link p.lines fun b => p.bursted b = true) (c : ℕ) :
    Sent s link (s.burstChannel link p c).lines
      fun b => (s.burstChannel link p c).bursted b = true := by
  unfold BurstState.burstChannel
  split
  · exact h
  · have hmembers := h.members hnet hsconf (s.memberClients c)
    refine hmembers.append (fun x hx => (quiet_of_mem_channel hx).1) fun x hx k hk =>
      (quiet_of_mem_channel hx).2 k fun a ha hfrom => ?_
    have huser := isUser_of_mem_memberClients hnet.core ha
    obtain ⟨u, hu⟩ := (hmembers.users a).mpr ⟨(bursted_members _ a).mpr (Or.inr ha), huser, hfrom⟩
    exact ⟨u, hk.subset hu⟩

theorem Sent.channels (h : Sent s link p.lines fun b => p.bursted b = true) (l : List ℕ) :
    Sent s link (l.foldl (s.burstChannel link) p).lines
      fun b => (l.foldl (s.burstChannel link) p).bursted b = true := by
  induction l generalizing p with
  | nil => exact h
  | cons c l ih => exact ih (h.burstChannel hnet hsconf c)

/-- The last pass: who is not marked is sent, and all marks go. -/
theorem Sent.rest {seen : List ℕ}
    (h : Sent s link p.lines fun b => p.bursted b = true ∨ b ∈ seen) (l : List ℕ) (hl : l.Nodup)
    (hseen : ∀ a ∈ l, a ∉ seen) :
    Sent s link (l.foldl (s.burstRest link) p).lines
      fun b => p.bursted b = true ∨ b ∈ seen ∨ b ∈ l := by
  induction l generalizing p seen with
  | nil => simpa using h
  | cons a l ih =>
      obtain ⟨hal, hl⟩ := List.nodup_cons.mp hl
      have hstep : Sent s link (s.burstRest link p a).lines
          fun b => (s.burstRest link p a).bursted b = true ∨ b ∈ a :: seen := by
        have hdone : ∀ b, (s.burstRest link p a).bursted b = true ∨ b ∈ a :: seen ↔
            (p.bursted b = true ∨ b ∈ seen) ∨ b = a := by
          intro b
          by_cases hb : b = a
          · subst hb
            simp
          · simp [burstRest, hb]
        refine Sent.congr ?_ fun b _ => (hdone b).symm
        by_cases ha : p.bursted a = true
        · rw [burstRest]
          dsimp only
          rw [if_pos (Or.inl ha), List.append_nil]
          refine h.congr fun b _ => (or_iff_left_of_imp ?_).symm
          rintro rfl
          exact Or.inl ha
        · have hnew : ¬ (p.bursted a = true ∨ a ∈ seen) :=
            not_or.mpr ⟨ha, hseen a List.mem_cons_self⟩
          have hsend := h.send hnet hsconf hnew
          rw [burstRest]
          dsimp only
          simpa only [ha, Bool.false_eq_true, false_or] using hsend
      have hnext := ih hstep hl fun b hb => by
        rw [List.mem_cons, not_or]
        refine ⟨?_, hseen b (List.mem_cons_of_mem _ hb)⟩
        rintro rfl
        exact hal hb
      refine hnext.congr fun b _ => ?_
      by_cases hb : b = a
      · subst hb
        simp
      · simp [burstRest, hb]

end Walks

theorem bursted_rest (l : List ℕ) (b : ℕ) :
    (l.foldl (s.burstRest link) p).bursted b = (p.bursted b && decide (b ∉ l)) := by
  induction l generalizing p with
  | nil => simp
  | cons a l ih =>
      rw [List.foldl_cons, ih, burstRest]
      by_cases hb : b = a
      · subst hb
        simp
      · simp [hb]

theorem bursted_channels (hcore : s.net.core.Inv none) (l : List ℕ) (b : ℕ)
    (h : (l.foldl (s.burstChannel link) p).bursted b = true) :
    p.bursted b = true ∨ s.net.isUser b = true := by
  induction l generalizing p with
  | nil => exact Or.inl h
  | cons c l ih =>
      rcases ih h with hb | hb
      · unfold burstChannel at hb
        split at hb
        · exact Or.inl hb
        · rcases (bursted_members _ b).mp hb with hb | hb
          · exact Or.inl hb
          · exact Or.inr (isUser_of_mem_memberClients hcore hb)
      · exact Or.inr hb

end Pass

section Sjoins

variable {p : Pass} {a c : ℕ} {ch : Channel}

theorem sjoins_sendnickTS (c a : ℕ) : (s.sendnickTS link a).filterMap (sjoin? c) = [] := by
  unfold sendnickTS
  cases s.net.client? a with
  | none => rfl
  | some k =>
      dsimp only
      split
      · split <;> rfl
      · rfl

theorem sjoins_members (c : ℕ) (l : List ℕ) :
    (l.foldl (s.burstMember link) p).lines.filterMap (sjoin? c) =
      p.lines.filterMap (sjoin? c) := by
  induction l generalizing p with
  | nil => rfl
  | cons a l ih =>
      rw [List.foldl_cons, ih, burstMember]
      split
      · rfl
      · rw [List.filterMap_append]
        split
        · simp
        · rw [sjoins_sendnickTS, List.append_nil]

theorem sjoins_rest (c : ℕ) (l : List ℕ) :
    (l.foldl (s.burstRest link) p).lines.filterMap (sjoin? c) =
      p.lines.filterMap (sjoin? c) := by
  induction l generalizing p with
  | nil => rfl
  | cons a l ih =>
      rw [List.foldl_cons, ih, burstRest, List.filterMap_append]
      split
      · simp
      · rw [sjoins_sendnickTS, List.append_nil]

theorem sjoins_map {f : Str → BurstLine} (hf : ∀ text, sjoin? c (f text) = none) (l : List Str) :
    (l.map f).filterMap (sjoin? c) = [] := by
  rw [List.filterMap_map]
  exact List.filterMap_eq_nil_iff.mpr fun text _ => hf text

theorem sjoins_sendTb (c d : ℕ) : (s.sendTb link d).filterMap (sjoin? c) = [] := by
  unfold sendTb
  cases s.net.core.channel? d with
  | none => rfl
  | some ch =>
      dsimp only
      split
      · rfl
      split
      · rfl
      split
      · split <;> rfl
      · rfl

theorem sjoins_of_ne {c d : ℕ} (hne : d ≠ c) :
    (s.sendChannelModes link d ++ s.sendTb link d).filterMap (sjoin? c) = [] := by
  refine List.filterMap_eq_nil_iff.mpr fun x hx => ?_
  cases x with
  | members e text =>
      have hmem : .members e text ∈ s.sendChannelModes link d := by
        refine (List.mem_append.mp hx).resolve_right fun hx => ?_
        have hnil : sjoin? e (.members e text) = none :=
          List.filterMap_eq_nil_iff.mp (sjoins_sendTb e d) _ hx
        rw [sjoin?, if_pos rfl] at hnil
        cases hnil
      rw [sjoin?, if_neg]
      rintro rfl
      unfold sendChannelModes at hmem
      cases hch : s.net.core.channel? d with
      | none =>
          rw [hch] at hmem
          cases hmem
      | some ch =>
          rw [hch] at hmem
          dsimp only at hmem
          split at hmem
          · cases hmem
          · simp only [List.mem_append, List.mem_map, BurstLine.members.injEq, reduceCtorEq,
              and_false, exists_false, or_false] at hmem
            rcases hmem with (⟨u, -, hd, -⟩ | hmem) | hmem
            · exact hne hd
            · split at hmem
              · simp at hmem
              · cases hmem
            · split at hmem
              · simp at hmem
              · cases hmem
  | _ => rfl

theorem sjoins_self (hch : s.net.core.channel? c = some ch) (hname : ch.chname.val.head? = some '#') :
    (s.sendChannelModes link c ++ s.sendTb link c).filterMap (sjoin? c) =
      s.net.core.burstMemberLines c s.net.self (s.net.link link).caps.ts6 ch := by
  rw [List.filterMap_append, sjoins_sendTb, List.append_nil, sendChannelModes, hch]
  dsimp only
  rw [if_neg (not_not.mpr hname), List.filterMap_append, List.filterMap_append,
    List.filterMap_append, sjoins_map (f := .masks c) fun _ => rfl]
  have hif (q : Bool) (l : List Str) :
      (if q = true then l.map (BurstLine.masks c) else []).filterMap (sjoin? c) = [] := by
    split
    · exact sjoins_map (fun _ => rfl) l
    · rfl
  rw [hif, hif, List.append_nil, List.append_nil, List.append_nil, List.filterMap_map]
  have hsome : sjoin? c ∘ BurstLine.members c = some := by
    funext text
    exact if_pos rfl
  rw [hsome, List.filterMap_some]

theorem sjoins_channels (hch : s.net.core.channel? c = some ch)
    (hname : ch.chname.val.head? = some '#') (hmembers : s.net.core.members c ≠ [])
    (l : List ℕ) (hl : l.Nodup) :
    (l.foldl (s.burstChannel link) p).lines.filterMap (sjoin? c) =
      p.lines.filterMap (sjoin? c) ++ if c ∈ l then
        s.net.core.burstMemberLines c s.net.self (s.net.link link).caps.ts6 ch else [] := by
  induction l generalizing p with
  | nil => simp
  | cons d l ih =>
      obtain ⟨hdl, hl⟩ := List.nodup_cons.mp hl
      have hstep : (s.burstChannel link p d).lines.filterMap (sjoin? c) =
          p.lines.filterMap (sjoin? c) ++ if d = c then
            s.net.core.burstMemberLines c s.net.self (s.net.link link).caps.ts6 ch else [] := by
        by_cases hd : d = c
        · subst hd
          rw [burstChannel, if_neg hmembers, if_pos rfl]
          dsimp only
          rw [List.filterMap_append, sjoins_members, sjoins_self hch hname]
        · rw [if_neg hd, List.append_nil, burstChannel]
          split
          · rfl
          · dsimp only
            rw [List.filterMap_append, sjoins_members, sjoins_of_ne hd, List.append_nil]
      rw [List.foldl_cons, ih hl, hstep, List.append_assoc]
      by_cases hd : d = c
      · subst hd
        rw [if_pos rfl, if_neg hdl, if_pos List.mem_cons_self, List.append_nil]
      · have hiff : c ∈ d :: l ↔ c ∈ l := by simp [Ne.symm hd]
        rw [if_neg hd, List.nil_append]
        simp only [hiff]

end Sjoins

/-- A burst over the lists of the servers and clients is complete, and no marks are left. -/
theorem complete_serverBurst (hnet : s.net.Surveyed)
    (hsconf : ∃ c, (s.net.link link).sconf = some c ∧ c.fakename = none)
    (hll : (s.net.link link).caps.ll = false) (hmarks : ∀ a, s.bursted a = false) :
    s.Complete link (s.serverBurst link ⟨s.bursted, s.introduceServers link⟩).lines ∧
      ∀ a, (s.serverBurst link ⟨s.bursted, s.introduceServers link⟩).bursted a = false := by
  have hstart : Sent s link (s.introduceServers link) fun b => s.bursted b = true := by
    refine ⟨admitted_introduceServers hnet hsconf, mem_introduceServers hnet, fun a => ?_⟩
    rw [hmarks]
    refine iff_of_false ?_ fun h => Bool.false_ne_true h.1
    rintro ⟨u, hu⟩
    obtain ⟨b, -, hline⟩ := List.mem_filterMap.mp hu
    obtain ⟨k, -, -, -, heq⟩ := introduceServer_eq_some.mp hline
    cases heq
  have hchannels := Sent.channels (p := ⟨s.bursted, s.introduceServers link⟩) hnet hsconf hstart
    s.net.core.globalChannelList
  have hnone : Sent s link _ fun b => _ ∨ b ∈ [] := hchannels.congr fun a _ =>
    (or_iff_left List.not_mem_nil).symm
  have hrest := hnone.rest hnet hsconf s.net.globalClientList hnet.nodupClients
    fun a _ => List.not_mem_nil
  have hlast {l : List BurstLine} {done : ℕ → Prop} (h : Sent s link l done) {line : BurstLine}
      (hquiet : Quiet line) (hfollow : ∀ k, s.MayFollow link k line) :
      Sent s link (l ++ [line]) done :=
    h.append (fun x hx => List.mem_singleton.mp hx ▸ hquiet)
      fun x hx k _ => List.mem_singleton.mp hx ▸ hfollow k
  rw [serverBurst, hll]
  dsimp only
  rw [if_neg Bool.false_ne_true, burstAll]
  dsimp only
  generalize hq : s.net.globalClientList.foldl (s.burstRest link)
    (s.net.core.globalChannelList.foldl (s.burstChannel link)
      ⟨s.bursted, s.introduceServers link⟩) = q at hrest ⊢
  have hmarked : ∀ a, q.bursted a = false := by
    intro a
    rw [← hq, bursted_rest, Bool.and_eq_false_iff]
    by_cases ha : a ∈ s.net.globalClientList
    · exact Or.inr (by simpa using ha)
    · refine Or.inl (Bool.eq_false_iff.mpr fun hb => ?_)
      rcases bursted_channels hnet.core _ a hb with hb | hb
      · exact Bool.false_ne_true ((hmarks a).symm.trans hb)
      · exact ha ((hnet.memClients a).mpr (Or.inl (Option.isSome_of_any hb)))
  refine ⟨?_, hmarked⟩
  have hsent : Sent s link (q.lines ++ (if (s.caps link).eob then
      [.eob (':' :: (s.net.self.sentName (s.net.link link).caps.ts6 ++ " EOB".toList))] else []) ++
      [.ping ("PING :".toList ++ s.net.self.sentName (s.net.link link).caps.ts6)])
      fun a => s.net.isUser a = true := by
    have hdone : Sent s link q.lines fun a => s.net.isUser a = true := hrest.congr fun a ha =>
      iff_of_true (Or.inr (Or.inr ((hnet.memClients a).mpr (Or.inl (Option.isSome_of_any ha))))) ha
    refine hlast ?_ (quiet_of_ne (by simp)) fun _ => trivial
    split
    · exact hlast hdone (quiet_of_ne (by simp)) fun _ => trivial
    · rwa [List.append_nil]
  have hsjoins : ∀ c ∈ s.net.core.globalChannelList, ∀ ch, s.net.core.channel? c = some ch →
      ch.chname.val.head? = some '#' →
      (q.lines ++ (if (s.caps link).eob then
        [BurstLine.eob (':' :: (s.net.self.sentName (s.net.link link).caps.ts6 ++
          " EOB".toList))] else []) ++
        [BurstLine.ping ("PING :".toList ++ s.net.self.sentName (s.net.link link).caps.ts6)]).filterMap
          (sjoin? c) =
        s.net.core.burstMemberLines c s.net.self (s.net.link link).caps.ts6 ch := by
    intro c hc ch hch hname
    have hmembers : s.net.core.members c ≠ [] := by
      obtain ⟨l, hl⟩ := Option.isSome_iff_exists.mp ((hnet.core.list c).mp hc)
      rw [Server.members, hl]
      exact hnet.core.member hl fun h => by cases h
    have hintro : (s.introduceServers link).filterMap (sjoin? c) = [] := by
      refine List.filterMap_eq_nil_iff.mpr fun x hx => ?_
      obtain ⟨b, -, hline⟩ := List.mem_filterMap.mp hx
      obtain ⟨k, -, -, -, rfl⟩ := introduceServer_eq_some.mp hline
      rfl
    have heob : (if (s.caps link).eob then
        [BurstLine.eob (':' :: (s.net.self.sentName (s.net.link link).caps.ts6 ++ " EOB".toList))]
        else []).filterMap (sjoin? c) = [] := by
      split <;> rfl
    rw [List.filterMap_append, List.filterMap_append, heob, ← hq, sjoins_rest,
      sjoins_channels hch hname hmembers _ hnet.core.nodup, hintro, if_pos hc]
    simp [sjoin?]
  refine ⟨hsent.inOrder, hsent.servers, fun a => ?_, hsjoins, fun c hc ch hch hname x hx => ?_⟩
  · rw [hsent.users, ← and_assoc, and_self]
  · obtain ⟨text, htext, hword⟩ := exists_line_sendMembers
      (membersStart (s.net.self.sentName (s.net.link link).caps.ts6) ch)
      (List.mem_map_of_mem (f := fun x => memberItem (s.net.link link).caps.ts6 x.2.1 x.2.2) hx)
    rw [← Server.burstMemberLines, ← hsjoins c hc ch hch hname] at htext
    obtain ⟨line, hline, hsome⟩ := List.mem_filterMap.mp htext
    cases line with
    | members d u =>
        rw [sjoin?] at hsome
        split at hsome
        · rename_i hd
          subst hd
          exact ⟨text, Option.some.inj hsome ▸ hline, hword⟩
        · cases hsome
    | _ => cases hsome

/-- A connection that becomes a server: with a connect block, the capability TS6, no fakename and
no lazy link, on a hub or as the only server. -/
structure NewLink (s : BurstState) (link : ℕ) : Prop where
  pending : (s.net.pending link).isSome = true
  sconf : ∃ c, (s.net.link link).sconf = some c ∧ c.fakename = none
  ts6 : (s.net.link link).caps.ts6 = true
  ll : (s.net.link link).caps.ll = false
  leaf : s.hub = true ∨ s.net.servList = []

/-- States of a server between two commands. Nothing but a burst sets the marks, and a new record
has none. -/
inductive Reached : BurstState → Prop
  | init {s : BurstState} : s.net.Surveyed → (∀ a, s.bursted a = false) → Reached s
  | change {s t : BurstState} : Reached s → t.net.Surveyed →
      (∀ a, t.bursted a = true → s.bursted a = true) → Reached t
  | burst {s : BurstState} {link : ℕ} (hidden services : Bool) : Reached s → s.NewLink link →
      Reached (s.serverEstab link hidden services).1

theorem serverEstab_spec (hnet : s.net.Surveyed) (hmarks : ∀ a, s.bursted a = false)
    (hlink : s.NewLink link) (hidden services : Bool) :
    (s.serverEstab link hidden services).1.net.Surveyed ∧
      (s.serverEstab link hidden services).1.Complete link
        (s.serverEstab link hidden services).2 ∧
      ∀ a, (s.serverEstab link hidden services).1.bursted a = false := by
  obtain ⟨p, hp⟩ := Option.isSome_iff_exists.mp hlink.pending
  obtain ⟨c, hc, hfake⟩ := hlink.sconf
  have hleaf : ¬ (s.hub = false ∧ s.net.servList ≠ []) := by
    rintro ⟨hhub, hne⟩
    rcases hlink.leaf with h | h
    · rw [hhub] at h
      cases h
    · exact hne h
  let t : BurstState := { s with net := s.net.enterServer link p hidden services }
  have hannounce : ∃ sent, t.announce link = { t with net := { t.net with sent := sent } } := by
    unfold announce
    cases t.net.client? link with
    | none => exact ⟨t.net.sent, rfl⟩
    | some k => exact ⟨_, rfl⟩
  obtain ⟨sent, hsent⟩ := hannounce
  have hsurveyed : (t.announce link).net.Surveyed := by
    rw [hsent]
    exact (hnet.enterServer hp).sent sent
  have hburst := complete_serverBurst hsurveyed (by rw [hsent]; exact ⟨c, hc, hfake⟩)
    (by rw [hsent]; exact hlink.ll) (by rw [hsent]; exact hmarks)
  have hestab : s.serverEstab link hidden services =
      ({ t.announce link with
          bursted := ((t.announce link).serverBurst link
            ⟨(t.announce link).bursted, (t.announce link).introduceServers link⟩).bursted },
        ((t.announce link).serverBurst link
          ⟨(t.announce link).bursted, (t.announce link).introduceServers link⟩).lines) := by
    rw [serverEstab, hp]
    dsimp only
    rw [hc, if_neg (by simp), if_neg hleaf]
  rw [hestab]
  obtain ⟨hcomplete, hmarked⟩ := hburst
  exact ⟨hsurveyed, ⟨hcomplete.inOrder, hcomplete.servers, hcomplete.users, hcomplete.channels,
    hcomplete.named⟩, hmarked⟩

theorem Reached.surveyed (h : s.Reached) : s.net.Surveyed ∧ ∀ a, s.bursted a = false := by
  induction h with
  | init hnet hmarks => exact ⟨hnet, hmarks⟩
  | change _ hnet hmarks ih =>
      refine ⟨hnet, fun a => Bool.eq_false_iff.mpr fun ha => ?_⟩
      have hold := hmarks a ha
      rw [ih.2] at hold
      cases hold
  | burst hidden services _ hlink ih =>
      obtain ⟨hnet, -, hmarks⟩ := serverEstab_spec ih.1 ih.2 hlink hidden services
      exact ⟨hnet, hmarks⟩

/-- The burst to every new link is complete and in order, and leaves no marks. -/
theorem serverEstab_complete (h : s.Reached) (hlink : s.NewLink link) (hidden services : Bool) :
    (s.serverEstab link hidden services).1.Complete link
        (s.serverEstab link hidden services).2 ∧
      ∀ a, (s.serverEstab link hidden services).1.bursted a = false :=
  (serverEstab_spec h.surveyed.1 h.surveyed.2 hlink hidden services).2

def hubRecord (me : Str) : Client :=
  { Client.make me false true with from_ := 0, servers := [3] }

def aliceRecord : Client := { Client.make "alice".toList true true with from_ := 1 }

def leafRecord : Client := { Client.make "leaf.test".toList false true with from_ := 3 }

/-- Alice is alone on a channel of the server `me`, which has a leaf and gets a second one. -/
def aliceCore (me chan : Str) : Server :=
  let s : Server := { Server.init with nextClient := 4 }
  let s : Server := { s with graph := s.graph.setLeft 0 (some (hubRecord me)) }
  let s : Server := { s with graph := s.graph.setLeft 1 (some aliceRecord) }
  let s : Server := { s with graph := s.graph.setLeft 3 (some leafRecord) }
  (s.makeChannel 100 chan).1.addUserToChannel 0 1 {.chflChanop}

def aliceNet (me chan : Str) : Network where
  core := aliceCore me chan
  me := 0
  pending := fun a => if a = 2 then
    some ⟨Buf.strlcpy "new.test".toList, Buf.strlcpy "2NW".toList, [], false⟩ else none
  clientTable := [0, 1, 3]
  idTable := []
  globalClientList := [2, 3, 1, 0]
  globalServList := [3, 0]
  servList := [3]
  unknownList := [2]
  depServers := fun _ => 1
  depUsers := fun _ => 0
  link := fun _ => ⟨some ⟨none, false⟩, ⟨true, true, false, true⟩, false⟩
  sent := []
  faults := []

def aliceState (me chan : Str) : BurstState where
  net := aliceNet me chan
  profile := fun _ => ⟨0, ∅, 0, Buf.empty, none, false, []⟩
  topic := fun _ => ⟨none, 0⟩
  caps := fun _ => ⟨true, true, false, false, true⟩
  hub := true
  hideServers := false
  topicwho := false
  bursted := fun _ => false

theorem client?_aliceNet (me chan : Str) (a : ℕ) : (aliceNet me chan).client? a =
    if a = 3 then some leafRecord else if a = 1 then some aliceRecord
    else if a = 0 then some (hubRecord me) else none := by
  unfold Network.client? aliceNet aliceCore
  dsimp only
  rw [Server.client?_addUserToChannel, Server.client?_makeChannel]
  simp only [Server.client?, LinkGraph.setLeft, Function.update_apply]
  by_cases h3 : a = 3
  · rw [if_pos h3, if_pos h3]
    rfl
  by_cases h1 : a = 1
  · rw [if_neg h3, if_neg h3, if_pos h1, if_pos h1]
    rfl
  by_cases h0 : a = 0
  · rw [if_neg h3, if_neg h3, if_neg h1, if_neg h1, if_pos h0, if_pos h0]
    rfl
  · rw [if_neg h3, if_neg h3, if_neg h1, if_neg h1, if_neg h0, if_neg h0]
    rfl

theorem inv_aliceCore (me chan : Str) : (aliceCore me chan).Inv none := by
  have hinit : ({ Server.init with nextClient := 4 } : Server).Inv none :=
    { Server.Inv.init with freshClient := fun h => by cases h }
  have h0 := hinit.setClient (a := 0) rfl (show 0 < 4 by decide) (hubRecord me)
  have h1 := h0.setClient (a := 1) rfl (show 1 < 4 by decide) aliceRecord
  have h3 := h1.setClient (a := 3) rfl (show 3 < 4 by decide) leafRecord
  exact (h3.makeChannel 100 chan).addUserToChannel (fun d hd => (Option.some.inj hd).symm) rfl rfl
    rfl _

theorem surveyed_aliceNet (me chan : Str) : (aliceNet me chan).Surveyed := by
  have hclient := client?_aliceNet me chan
  have hcases : ∀ a, (a = 0 ∨ a = 1 ∨ a = 3) ∨
      a ≠ 0 ∧ a ≠ 1 ∧ a ≠ 3 ∧ (aliceNet me chan).client? a = none := by
    intro a
    by_cases h : a = 0 ∨ a = 1 ∨ a = 3
    · exact Or.inl h
    · push Not at h
      rw [hclient, if_neg h.2.2, if_neg h.2.1, if_neg h.1]
      exact Or.inr ⟨h.1, h.2.1, h.2.2, rfl⟩
  have hrecord : ∀ a k, (aliceNet me chan).client? a = some k →
      k.myConnect = true ∧ k.servptr = 0 ∧ k.from_ = a := by
    intro a k hk
    rcases hcases a with (rfl | rfl | rfl) | ⟨-, -, -, hnone⟩
    · exact Option.some.inj ((hclient 0).symm.trans hk) ▸ ⟨rfl, rfl, rfl⟩
    · exact Option.some.inj ((hclient 1).symm.trans hk) ▸ ⟨rfl, rfl, rfl⟩
    · exact Option.some.inj ((hclient 3).symm.trans hk) ▸ ⟨rfl, rfl, rfl⟩
    · rw [hnone] at hk
      cases hk
  have hparent : ∀ a, (aliceNet me chan).parent a = 0 := by
    intro a
    unfold Network.parent
    cases hk : (aliceNet me chan).client? a with
    | none => rfl
    | some k => exact (hrecord a k hk).2.1
  have hroot : (aliceNet me chan).isServer 0 = true := by
    rw [Network.isServer, hclient]
    rfl
  constructor
  case core => exact inv_aliceCore me chan
  case root => exact hroot
  case parentMe => exact hparent 0
  case parent => exact fun a => (hparent a).symm ▸ hroot
  case direct => exact fun a k hk => iff_of_true (hrecord a k hk).1 (hrecord a k hk).2.1
  case from_ =>
    intro a k hk
    obtain ⟨hconn, -, hfrom⟩ := hrecord a k hk
    rw [hconn, if_pos rfl, hfrom]
  case nodupServ => exact (by decide : [3, 0].Nodup)
  case memServ =>
    intro a
    have hmem : a ∈ (aliceNet me chan).globalServList ↔ a = 3 ∨ a = 0 := by
      show a ∈ [3, 0] ↔ _
      simp
    rw [hmem, Network.isServer]
    rcases hcases a with (rfl | rfl | rfl) | ⟨h0, -, h3, hnone⟩
    · exact iff_of_true (Or.inr rfl) hroot
    · rw [hclient]
      exact iff_of_false (by decide) Bool.false_ne_true
    · rw [hclient]
      exact iff_of_true (Or.inl rfl) rfl
    · rw [hnone]
      exact iff_of_false (not_or.mpr ⟨h3, h0⟩) Bool.false_ne_true
  case older =>
    exact (Admitted.nil.snoc (Or.inl rfl)).snoc (Or.inr ((hparent 3).symm ▸ List.mem_cons_self))
  case nodupClients => exact (by decide : [2, 3, 1, 0].Nodup)
  case memClients =>
    intro a
    have hmem : a ∈ (aliceNet me chan).globalClientList ↔ a = 2 ∨ a = 3 ∨ a = 1 ∨ a = 0 := by
      show a ∈ [2, 3, 1, 0] ↔ _
      simp
    rw [hmem]
    rcases hcases a with (rfl | rfl | rfl) | ⟨h0, h1, h3, hnone⟩
    · exact iff_of_true (by decide) (Or.inl (by rw [hclient]; rfl))
    · exact iff_of_true (by decide) (Or.inl (by rw [hclient]; rfl))
    · exact iff_of_true (by decide) (Or.inl (by rw [hclient]; rfl))
    · rw [hnone]
      by_cases h2 : a = 2
      · subst h2
        exact iff_of_true (Or.inl rfl) (Or.inr rfl)
      · have hpending : (aliceNet me chan).pending a = none := if_neg h2
        simp [hpending, h0, h1, h2, h3]
  case pending =>
    intro a ha
    by_cases h2 : a = 2
    · subst h2
      exact ⟨(hclient 2).trans rfl, show 2 < 4 by decide⟩
    · have hpending : (aliceNet me chan).pending a = none := if_neg h2
      rw [hpending] at ha
      cases ha

theorem reached_aliceState (me chan : Str) : (aliceState me chan).Reached :=
  Reached.init (surveyed_aliceNet me chan) fun _ => rfl

theorem newLink_aliceState (me chan : Str) : (aliceState me chan).NewLink 2 :=
  ⟨rfl, ⟨⟨none, false⟩, rfl, rfl⟩, rfl, rfl, Or.inl rfl⟩

theorem serverEstab_complete_alice :
    ((aliceState "hub.test".toList "#a".toList).serverEstab 2 false false).1.Complete 2
        ((aliceState "hub.test".toList "#a".toList).serverEstab 2 false false).2 ∧
      ∀ a, ((aliceState "hub.test".toList "#a".toList).serverEstab 2 false false).1.bursted a =
        false :=
  serverEstab_complete (reached_aliceState _ _) (newLink_aliceState _ _) false false

/-- A server that the name of this one matches is not sent, and neither is a channel of this server
only. -/
theorem not_forall_sent :
    (¬ ∀ (s : BurstState) (link : ℕ) (hidden services : Bool), s.Reached → s.NewLink link →
      ∀ a, s.net.isServer a = true → a ≠ s.net.me →
        ∃ text, .server a text ∈ (s.serverEstab link hidden services).2) ∧
    ¬ ∀ (s : BurstState) (link : ℕ) (hidden services : Bool), s.Reached → s.NewLink link →
      ∀ c ∈ s.net.core.globalChannelList,
        ∃ text, .members c text ∈ (s.serverEstab link hidden services).2 := by
  have hr := reached_aliceState "*.test".toList "&a".toList
  have hl := newLink_aliceState "*.test".toList "&a".toList
  have hlines : ((aliceState "*.test".toList "&a".toList).serverEstab 2 false false).2.all
      (fun x => match x with | .server .. => false | .members .. => false | _ => true) = true := by
    decide +kernel
  refine ⟨fun h => ?_, fun h => ?_⟩
  · obtain ⟨text, htext⟩ := h _ 2 false false hr hl 3 (by decide) (by decide)
    cases List.all_eq_true.mp hlines _ htext
  · obtain ⟨text, htext⟩ := h _ 2 false false hr hl 0 (by decide)
    cases List.all_eq_true.mp hlines _ htext

end BurstState

end Unirc
