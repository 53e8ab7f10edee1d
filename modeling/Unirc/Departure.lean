import Unirc.ChannelPrivilege
import Unirc.Leaving

/-!
# What is left when clients go

The clients, memberships and channels of a server after some of its clients are gone: the rest is as
it was, without them.
-/

namespace Unirc

/-- A client in whose lists the clients that are gone do not stand any more. -/
def Client.drop (gone : ℕ → Bool) (k : Client) : Client :=
  { k with
    users := k.users.filter fun b => !gone b
    servers := k.servers.filter fun b => !gone b }

theorem Client.drop_drop (gone gone' : ℕ → Bool) (k : Client) :
    (k.drop gone).drop gone' = k.drop fun a => gone a || gone' a := by
  simp only [drop, List.filter_filter, Bool.not_or, Bool.and_comm]

theorem Client.drop_false (k : Client) : (k.drop fun _ => false) = k := by
  simp [drop]

namespace Server

/-- `s'` is `s` without the clients that are gone. -/
structure Without (gone : ℕ → Bool) (s s' : Server) : Prop where
  client : ∀ a, s'.client? a = if gone a then none else (s.client? a).map (Client.drop gone)
  links : ∀ m, s'.graph.links m = (s.graph.links m).filter fun r => !gone r.left
  memberships : ∀ a, gone a = false → s'.memberships a = s.memberships a
  channel : ∀ c ch, s'.channel? c = some ch → s.channel? c = some ch

namespace Without

variable {s s' s'' : Server} {gone gone' : ℕ → Bool}

theorem refl (s : Server) : Without (fun _ => false) s s where
  client := fun a => by cases s.client? a <;> simp [Client.drop_false]
  links := fun m => by cases s.graph.links m <;> simp [Option.filter]
  memberships := fun _ _ => rfl
  channel := fun _ _ h => h

theorem trans (h : Without gone s s') (h' : Without gone' s' s'') :
    Without (fun a => gone a || gone' a) s s'' where
  client := fun a => by
    rw [h'.client, h.client]
    cases gone a <;> cases gone' a <;>
      simp [Option.map_map, Function.comp_def, Client.drop_drop]
  links := fun m => by
    rw [h'.links, h.links, Option.filter_filter]
    simp only [Bool.not_or]
  memberships := fun a ha => by
    obtain ⟨hg, hg'⟩ := Bool.or_eq_false_iff.mp ha
    rw [h'.memberships a hg', h.memberships a hg]
  channel := fun c ch hc => h.channel c ch (h'.channel c ch hc)

/-- The channels that have a member left are those that are left. -/
theorem mem_channels (w : Without gone s s') (h' : s'.Inv none) (c : ℕ) :
    c ∈ s'.globalChannelList ↔
      ∃ m r, s.graph.links m = some r ∧ r.right = c ∧ gone r.left = false := by
  rw [h'.list]
  constructor
  · intro hc
    obtain ⟨l, hl⟩ := Option.isSome_iff_exists.mp hc
    obtain ⟨m, hm⟩ := List.exists_mem_of_ne_nil l (h'.member hl (by simp))
    obtain ⟨r, hr, hat⟩ := h'.wf.link_at hl hm
    rw [w.links] at hr
    obtain ⟨hr, hgone⟩ := Option.filter_eq_some_iff.mp hr
    exact ⟨m, r, hr, hat, by simpa using hgone⟩
  · rintro ⟨m, r, hr, rfl, hgone⟩
    have hr' : s'.graph.links m = some r := by
      rw [w.links, hr, Option.filter_eq_some_iff]
      exact ⟨rfl, by simp [hgone]⟩
    obtain ⟨l, hl, -⟩ := h'.wf.listed_at hr' .right
    exact Option.isSome_iff_exists.mpr ⟨l, hl⟩

end Without

/-- A client comes in under a number that no client has. -/
theorem Inv.enter {s : Server} (h : s.Inv none) {a n : ℕ} (ha : s.client? a = none)
    (hlt : a < n) (hn : s.nextClient ≤ n) (who : Client) :
    ({ s with graph := s.graph.setLeft a (some who), nextClient := n } : Server).Inv none := by
  have hnone : s.graph.listed .left a = none := by
    by_contra hne
    rw [← ne_eq, ← Option.isSome_iff_ne_none, ← isSome_client?, ha] at hne
    cases hne
  have hclient : ∀ b, b ≠ a →
      ({ s with graph := s.graph.setLeft a (some who), nextClient := n } : Server).client? b =
        s.client? b := by
    intro b hb
    simp only [client?, LinkGraph.setLeft, Function.update_of_ne hb]
  refine ⟨h.wf.setLeft (fun l hl => ?_) _, h.simple, fun {m r} hr => ?_, h.list, h.nodup,
    h.member, h.fresh, fun {b} hb => ?_⟩
  · rw [hnone] at hl
    cases hl
  · have hp := h.person hr
    rw [hclient]
    · exact hp
    · rintro hl
      rw [hl, ha] at hp
      cases hp
  · by_cases hba : b = a
    · exact hba ▸ hlt
    · rw [hclient b hba] at hb
      exact lt_of_lt_of_le (h.freshClient hb) hn

section Exit

variable {s : Server}

theorem links_leave {l : List ℕ} (m : ℕ) :
    (l.foldl Server.removeUserFromChannel s).graph.links m =
      if m ∈ l then none else s.graph.links m := by
  induction l generalizing s with
  | nil => simp
  | cons k l ih =>
      rw [List.foldl_cons, ih, links_removeUserFromChannel]
      by_cases hl : m ∈ l <;> by_cases hk : m = k <;> simp [hl, hk]

theorem listed_leave {l : List ℕ} {a b : ℕ}
    (hl : ∀ m ∈ l, ∀ r, s.graph.links m = some r → r.left = a) (hb : b ≠ a) :
    (l.foldl Server.removeUserFromChannel s).graph.listed .left b =
      s.graph.listed .left b := by
  induction l generalizing s with
  | nil => rfl
  | cons k l ih =>
      have hrest : ∀ m ∈ l, ∀ r, (s.removeUserFromChannel k).graph.links m = some r →
          r.left = a := fun m hm r hr => by
        rw [links_removeUserFromChannel] at hr
        split at hr
        · cases hr
        · exact hl m (List.mem_cons_of_mem k hm) r hr
      rw [List.foldl_cons, ih hrest]
      cases hk : s.graph.links k with
      | none => rw [Server.removeUserFromChannel, hk]
      | some r =>
          have hleft := hl k List.mem_cons_self r hk
          rw [listed_left_removeUser hk, if_neg (hleft ▸ hb)]

theorem channel?_leave {l : List ℕ} {c : ℕ} {ch : Channel}
    (h : (l.foldl Server.removeUserFromChannel s).channel? c = some ch) :
    s.channel? c = some ch := by
  induction l generalizing s with
  | nil => exact h
  | cons k l ih =>
      have hk := ih h
      rcases channel?_removeUserFromChannel s k c with he | he
      · rwa [he] at hk
      · rw [he] at hk
        cases hk

theorem nextClient_leave {l : List ℕ} :
    (l.foldl Server.removeUserFromChannel s).nextClient = s.nextClient := by
  induction l generalizing s with
  | nil => rfl
  | cons k l ih =>
      rw [List.foldl_cons, ih]
      unfold Server.removeUserFromChannel
      split
      · rfl
      · dsimp only
        split <;> rfl

theorem nextClient_exitOneClient (s : Server) (a : ℕ) :
    (s.exitOneClient a).nextClient = s.nextClient := by
  unfold Server.exitOneClient
  split
  · rfl
  · dsimp only
    split
    · exact nextClient_leave
    · rfl

theorem Inv.mem_memberships (h : s.Inv none) {a m : ℕ} :
    m ∈ s.memberships a ↔ ∃ r, s.graph.links m = some r ∧ r.left = a := by
  constructor
  · intro hm
    unfold Server.memberships at hm
    cases hl : s.graph.listed .left a with
    | none =>
        rw [hl] at hm
        cases hm
    | some l =>
        rw [hl] at hm
        obtain ⟨r, hr, hat⟩ := h.wf.link_at hl hm
        exact ⟨r, hr, hat⟩
  · rintro ⟨r, hr, rfl⟩
    obtain ⟨l, hl, hm⟩ := h.wf.listed_at hr .left
    rw [Server.memberships, show s.graph.listed .left r.left = some l from hl]
    exact hm

theorem Inv.links_doJoin0 (h : s.Inv none) (a m : ℕ) :
    (s.doJoin0 a).graph.links m = (s.graph.links m).filter fun r => !(r.left == a) := by
  rw [Server.doJoin0, links_leave]
  cases hm : s.graph.links m with
  | none => simp
  | some r =>
      have hmem : m ∈ s.memberships a ↔ r.left = a := by
        rw [h.mem_memberships, hm]
        simp
      by_cases hr : r.left = a <;> simp [hmem, hr, Option.filter]

theorem Inv.listed_doJoin0_of_ne (h : s.Inv none) {a b : ℕ} (hb : b ≠ a) :
    (s.doJoin0 a).graph.listed .left b = s.graph.listed .left b := by
  refine listed_leave (fun m hm r hr => ?_) hb
  obtain ⟨r', hr', hat⟩ := h.mem_memberships.mp hm
  rwa [Option.some.inj (hr.symm.trans hr')]

/-- A server has no memberships. -/
theorem Inv.links_filter_of_server (h : s.Inv none) {a : ℕ}
    (ha : (s.client? a).any Client.isClient = false) (m : ℕ) :
    s.graph.links m = (s.graph.links m).filter fun r => !(r.left == a) := by
  cases hm : s.graph.links m with
  | none => rfl
  | some r =>
      have hr : r.left ≠ a := fun he => by
        have hp := h.person hm
        rw [he, ha] at hp
        cases hp
      simp [Option.filter, hr]

theorem erase_eq_filter_not {l : List ℕ} (hl : l.Nodup) (a : ℕ) :
    l.erase a = l.filter fun b => !(b == a) := by
  rw [hl.erase_eq_filter]
  rfl

/-- The client is taken from the one list that it stands in. -/
theorem drop_eq_of_mem (isClient onServer : Bool) {a : ℕ} {q : Client} (hnu : q.users.Nodup)
    (hmu : a ∈ q.users → onServer = true ∧ isClient = true) (hns : q.servers.Nodup)
    (hms : a ∈ q.servers → onServer = true ∧ isClient = false) :
    (if onServer then
        if isClient then { q with users := q.users.erase a }
        else { q with servers := q.servers.erase a }
      else q) = q.drop (· == a) := by
  rw [Client.drop, ← erase_eq_filter_not hnu, ← erase_eq_filter_not hns]
  cases onServer with
  | true =>
      cases isClient with
      | true =>
          have hs : a ∉ q.servers := fun hm => absurd (hms hm).2 (by decide)
          simp [List.erase_of_not_mem hs]
      | false =>
          have hu : a ∉ q.users := fun hm => absurd (hmu hm).2 (by decide)
          simp [List.erase_of_not_mem hu]
  | false =>
      have hs : a ∉ q.servers := fun hm => absurd (hms hm).1 (by decide)
      have hu : a ∉ q.users := fun hm => absurd (hmu hm).1 (by decide)
      simp [List.erase_of_not_mem hs, List.erase_of_not_mem hu]

/-- `exit_one_client` for a client that stands in no list but that of its server. -/
theorem Inv.without_exitOneClient (h : s.Inv none) {a : ℕ} {k : Client} (hk : s.client? a = some k)
    (husers : ∀ p q, s.client? p = some q → q.users.Nodup ∧
      (a ∈ q.users → p = k.servptr ∧ k.isClient = true))
    (hservers : ∀ p q, s.client? p = some q → q.servers.Nodup ∧
      (a ∈ q.servers → p = k.servptr ∧ k.isClient = false)) :
    Without (· == a) s (s.exitOneClient a) := by
  unfold Server.exitOneClient
  split
  · rename_i hnone
    rw [hk] at hnone
    cases hnone
  rename_i source hs
  obtain rfl := Option.some.inj (hk.symm.trans hs)
  extract_lets s₁ s₂
  have hlisted₁ : ∀ b, s₁.graph.listed .left b = s.graph.listed .left b := fun b =>
    (LinkGraph.SameShape.mapLeft s.graph k.servptr _).listed .left b
  have hclient₁ : ∀ b, s₁.client? b = (s.client? b).map (Client.drop (· == a)) := fun b => by
    rw [client?_updClient]
    cases hb : s.client? b with
    | none => split <;> rfl
    | some q =>
        obtain ⟨hnu, hmu⟩ := husers b q hb
        obtain ⟨hns, hms⟩ := hservers b q hb
        rw [Option.map_some, Option.map_some, ← apply_ite some, ← drop_eq_of_mem k.isClient
          (decide (b = k.servptr)) hnu (by simpa using hmu) hns (by simpa using hms)]
        simp only [decide_eq_true_eq]
  have hinv₁ : s₁.Inv none :=
    h.relabel (Relabels.updClient _ _ fun k => by split <;> rfl)
  have hlinks₂ : ∀ m, s₂.graph.links m = (s.graph.links m).filter fun r => !(r.left == a) := by
    intro m
    dsimp only [s₂]
    split
    · exact hinv₁.links_doJoin0 a m
    · rename_i hserver
      exact h.links_filter_of_server (by simpa [hk] using hserver) m
  have hlisted₂ : ∀ b, b ≠ a → s₂.graph.listed .left b = s.graph.listed .left b := by
    intro b hb
    dsimp only [s₂]
    split
    · rw [hinv₁.listed_doJoin0_of_ne hb, hlisted₁]
    · exact hlisted₁ b
  refine ⟨fun b => ?_, hlinks₂, fun b hb => ?_, fun c ch hc => ?_⟩
  · by_cases hb : b = a
    · simp [client?, LinkGraph.setLeft, hb]
    · have hset : ({ s₂ with graph := s₂.graph.setLeft a none } : Server).client? b =
          s₂.client? b := by
        simp only [client?, LinkGraph.setLeft, Function.update_of_ne hb]
      have hbeq : ¬(b == a) = true := by simpa using hb
      rw [hset, if_neg hbeq, ← hclient₁]
      dsimp only [s₂]
      split
      · exact client?_doJoin0 s₁ a b
      · rfl
  · have hba : b ≠ a := by simpa using hb
    have hset : (s₂.graph.setLeft a none).listed .left b = s₂.graph.listed .left b := by
      rw [LinkGraph.listed_setLeft, if_neg (by simpa using hba)]
    rw [Server.memberships, hset, hlisted₂ b hba, Server.memberships]
  · have hs₂ : s₂.channel? c = some ch := hc
    dsimp only [s₂] at hs₂
    split at hs₂
    · exact channel?_leave (s := s₁) hs₂
    · exact hs₂

end Exit

end Server

end Unirc
