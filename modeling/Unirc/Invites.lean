import Mathlib.Data.Finset.Card
import Unirc.RefCount

/-!
# Invite lists

`add_invite`, `del_invite` and `destroy_channel` of `channel.c`, and what `exit_one_client` does to
the invitations of a local client. What would read freed memory, or the entry at the end of an empty
list, is `none`.
-/

namespace Unirc

/-- The channels and local clients by address, with `invites` of each channel and `invited` of each
client. -/
structure Invites (χ κ : Type*) where
  channels : Finset χ
  clients : Finset κ
  invites : χ → List κ
  invited : κ → List χ

namespace Invites

open RefCount

variable {χ κ : Type*}

def start : Invites χ κ := ⟨∅, ∅, fun _ => [], fun _ => []⟩

variable [DecidableEq χ] [DecidableEq κ] (maxChansPerUser : ℕ) (s : Invites χ κ)

def delInvite (c : χ) (k : κ) : Option (Invites χ κ) :=
  if c ∈ s.channels ∧ k ∈ s.clients then
    some { s with invited := drop s.invited k c, invites := drop s.invites c k }
  else none

/-- The oldest invitation goes when the list of the client is full. -/
def evict (k : κ) : Option (Invites χ κ) :=
  if (s.invited k).length ≥ maxChansPerUser then
    (s.invited k).getLast?.bind fun c => s.delInvite c k
  else some s

def addInvite (c : χ) (k : κ) : Option (Invites χ κ) :=
  (s.delInvite c k).bind fun s => (s.evict maxChansPerUser k).map fun s =>
    { s with invites := hold s.invites c k, invited := hold s.invited k c }

def destroyChannel (c : χ) : Option (Invites χ κ) :=
  ((s.invites c).foldlM (fun s k => delInvite s c k) s).map fun s =>
    { s with channels := s.channels.erase c }

def exitOneClient (k : κ) : Option (Invites χ κ) :=
  ((s.invited k).foldlM (fun s c => delInvite s c k) s).map fun s =>
    { s with clients := s.clients.erase k }

/-- A join takes an invitation away, and a channel that loses by its timestamp keeps its own. -/
inductive Event (χ κ : Type*)
  | makeChannel (c : χ)
  | connect (k : κ)
  | addInvite (c : χ) (k : κ)
  | delInvite (c : χ) (k : κ)
  | join (c : χ) (k : κ)
  | timestampLoss (c : χ)
  | destroyChannel (c : χ)
  | exit (k : κ)

def Event.isAddInvite : Event χ κ → Bool
  | .addInvite .. => true
  | _ => false

/-- What is made was not there, and the other events are about what is. -/
def Possible : Event χ κ → Prop
  | .makeChannel c => c ∉ s.channels
  | .connect k => k ∉ s.clients
  | .addInvite c k | .delInvite c k | .join c k => c ∈ s.channels ∧ k ∈ s.clients
  | .timestampLoss c | .destroyChannel c => c ∈ s.channels
  | .exit k => k ∈ s.clients

instance (e : Event χ κ) : Decidable (s.Possible e) :=
  match e with
  | .makeChannel _ | .connect _ => instDecidableNot
  | .addInvite .. | .delInvite .. | .join .. => instDecidableAnd
  | .timestampLoss c | .destroyChannel c => inferInstanceAs (Decidable (c ∈ s.channels))
  | .exit k => inferInstanceAs (Decidable (k ∈ s.clients))

def step : Event χ κ → Option (Invites χ κ)
  | .makeChannel c => some { s with
      channels := insert c s.channels
      invites := Function.update s.invites c [] }
  | .connect k => some { s with
      clients := insert k s.clients
      invited := Function.update s.invited k [] }
  | .addInvite c k => s.addInvite maxChansPerUser c k
  | .delInvite c k | .join c k => s.delInvite c k
  | .timestampLoss _ => some s
  | .destroyChannel c => s.destroyChannel c
  | .exit k => s.exitOneClient k

def run (s : Invites χ κ) (es : List (Event χ κ)) : Option (Invites χ κ) :=
  es.foldlM (step maxChansPerUser) s

/-- Every event of the run is possible when it comes. -/
def PossibleRun : Invites χ κ → List (Event χ κ) → Prop
  | _, [] => True
  | s, e :: es => s.Possible e ∧ ∀ s', s.step maxChansPerUser e = some s' → PossibleRun s' es

/-- The lists agree, without repetitions, within their limits, and about what is there. A channel
has no limit of its own; it has at most one invitation for each client. -/
structure InStep : Prop where
  mem_iff : ∀ c ∈ s.channels, ∀ k ∈ s.clients, k ∈ s.invites c ↔ c ∈ s.invited k
  invites_nodup : ∀ c ∈ s.channels, (s.invites c).Nodup
  invited_nodup : ∀ k ∈ s.clients, (s.invited k).Nodup
  invites_live : ∀ c ∈ s.channels, ∀ k ∈ s.invites c, k ∈ s.clients
  invited_live : ∀ k ∈ s.clients, ∀ c ∈ s.invited k, c ∈ s.channels
  invites_length : ∀ c ∈ s.channels, (s.invites c).length ≤ s.clients.card
  invited_length : ∀ k ∈ s.clients, (s.invited k).length ≤ maxChansPerUser

/-- The lists of a channel or client that is not there are empty. -/
structure Paired : Prop where
  mem_iff : ∀ c k, k ∈ s.invites c ↔ c ∈ s.invited k
  invites_nodup : ∀ c, (s.invites c).Nodup
  invited_nodup : ∀ k, (s.invited k).Nodup
  channel : ∀ c k, k ∈ s.invites c → c ∈ s.channels
  client : ∀ c k, k ∈ s.invites c → k ∈ s.clients
  length : ∀ k, (s.invited k).length ≤ maxChansPerUser

variable {maxChansPerUser s} {s' : Invites χ κ} {c : χ} {k : κ}

omit [DecidableEq χ] [DecidableEq κ] in
theorem Paired.inStep (h : s.Paired maxChansPerUser) : s.InStep maxChansPerUser where
  mem_iff c _ k _ := h.mem_iff c k
  invites_nodup c _ := h.invites_nodup c
  invited_nodup k _ := h.invited_nodup k
  invites_live c _ k hk := h.client c k hk
  invited_live k _ c hc := h.channel c k ((h.mem_iff c k).mpr hc)
  invites_length c _ := by
    have hsub : (⟨s.invites c, h.invites_nodup c⟩ : Finset κ) ⊆ s.clients :=
      fun k hk => h.client c k hk
    exact Finset.card_le_card hsub
  invited_length k _ := h.length k

/-- The invitations that `gone` names are away, and nothing else is. -/
structure Removed (s s' : Invites χ κ) (gone : χ → κ → Prop) : Prop where
  mem_iff : ∀ c k, k ∈ s'.invites c ↔ k ∈ s.invites c ∧ ¬ gone c k
  channels : s'.channels = s.channels
  clients : s'.clients = s.clients

theorem Paired.delInvite (h : s.Paired maxChansPerUser) (hc : c ∈ s.channels) (hk : k ∈ s.clients) :
    ∃ s', s.delInvite c k = some s' ∧ s'.Paired maxChansPerUser ∧
      Removed s s' (fun c' k' => c' = c ∧ k' = k) ∧ s'.invited = drop s.invited k c := by
  rw [Invites.delInvite, if_pos ⟨hc, hk⟩]
  have hmem (c' : χ) (k' : κ) : k' ∈ drop s.invites c k c' ↔
      k' ∈ s.invites c' ∧ ¬ (c' = c ∧ k' = k) := mem_drop (h.invites_nodup c)
  refine ⟨_, rfl, ⟨fun c' k' => ?_, nodup_drop h.invites_nodup, nodup_drop h.invited_nodup,
    fun c' k' hk' => h.channel c' k' (mem_of_mem_drop hk'),
    fun c' k' hk' => h.client c' k' (mem_of_mem_drop hk'),
    fun k' => length_drop_le.trans (h.length k')⟩, ⟨hmem, rfl, rfl⟩, rfl⟩
  rw [hmem, mem_drop (h.invited_nodup k), h.mem_iff]
  tauto

/-- There is something to evict from a full list, as there is room for one invitation at least. -/
theorem Paired.evict (h : s.Paired maxChansPerUser) (hpos : 0 < maxChansPerUser)
    (hk : k ∈ s.clients) :
    ∃ s', s.evict maxChansPerUser k = some s' ∧ s'.Paired maxChansPerUser ∧
      (s'.invited k).length < maxChansPerUser ∧
      (∀ c k', k' ∈ s'.invites c → k' ∈ s.invites c) ∧ s'.channels = s.channels ∧
      s'.clients = s.clients := by
  rw [Invites.evict]
  by_cases hfull : (s.invited k).length ≥ maxChansPerUser
  · rw [if_pos hfull]
    have hne : s.invited k ≠ [] := List.ne_nil_of_length_pos (hpos.trans_le hfull)
    rw [List.getLast?_eq_some_getLast hne, Option.bind_some]
    have hmem := List.getLast_mem hne
    obtain ⟨s', hs', h', hremoved, hinvited⟩ :=
      h.delInvite (h.channel _ k ((h.mem_iff _ k).mpr hmem)) hk
    refine ⟨s', hs', h', ?_, fun c k' hk' => ((hremoved.mem_iff c k').mp hk').1, hremoved.channels,
      hremoved.clients⟩
    rw [hinvited, drop_self, List.length_erase_of_mem hmem]
    have hle := h.length k
    omega
  · rw [if_neg hfull]
    exact ⟨s, rfl, h, Nat.lt_of_not_le hfull, fun _ _ => id, rfl, rfl⟩

theorem Paired.addInvite (h : s.Paired maxChansPerUser) (hpos : 0 < maxChansPerUser)
    (hc : c ∈ s.channels) (hk : k ∈ s.clients) :
    ∃ s', s.addInvite maxChansPerUser c k = some s' ∧ s'.Paired maxChansPerUser := by
  obtain ⟨s₁, hs₁, h₁, hremoved, -⟩ := h.delInvite hc hk
  obtain ⟨s₂, hs₂, h₂, hroom, hsub, hchannels, hclients⟩ :=
    h₁.evict hpos (hremoved.clients ▸ hk)
  have hnew : k ∉ s₂.invites c := fun hmem =>
    ((hremoved.mem_iff c k).mp (hsub c k hmem)).2 ⟨rfl, rfl⟩
  rw [Invites.addInvite, hs₁, Option.bind_some, hs₂, Option.map_some]
  refine ⟨_, rfl, fun c' k' => ?_, nodup_hold h₂.invites_nodup hnew,
    nodup_hold h₂.invited_nodup fun hmem => hnew ((h₂.mem_iff c k).mpr hmem),
    fun c' k' hk' => ?_, fun c' k' hk' => ?_, fun k' => ?_⟩
  · rw [mem_hold, mem_hold, h₂.mem_iff]
    tauto
  · rcases mem_hold.mp hk' with ⟨rfl, -⟩ | hk'
    · exact (hchannels.trans hremoved.channels) ▸ hc
    · exact h₂.channel c' k' hk'
  · rcases mem_hold.mp hk' with ⟨-, rfl⟩ | hk'
    · exact (hclients.trans hremoved.clients) ▸ hk
    · exact h₂.client c' k' hk'
  · by_cases hkk : k' = k
    · subst hkk
      change (hold s₂.invited k' c k').length ≤ maxChansPerUser
      rw [hold_self, List.length_cons]
      exact hroom
    · exact (congrArg List.length (hold_of_ne hkk)).trans_le (h₂.length k')

/-- A loop that takes away the invitations of a list. -/
theorem Paired.delInvites {α : Type*} (channel : α → χ) (client : α → κ) (l : List α)
    (h : s.Paired maxChansPerUser) (hc : ∀ x ∈ l, channel x ∈ s.channels)
    (hk : ∀ x ∈ l, client x ∈ s.clients) :
    ∃ s', l.foldlM (fun s x => Invites.delInvite s (channel x) (client x)) s = some s' ∧
      s'.Paired maxChansPerUser ∧
      Removed s s' fun c k => ∃ x ∈ l, c = channel x ∧ k = client x := by
  induction l generalizing s with
  | nil => exact ⟨s, rfl, h, fun _ _ => by simp, rfl, rfl⟩
  | cons x l ih =>
      obtain ⟨s₁, hs₁, h₁, hremoved₁, -⟩ :=
        h.delInvite (hc x List.mem_cons_self) (hk x List.mem_cons_self)
      obtain ⟨s', hs', h', hremoved'⟩ := ih h₁
        (fun y hy => hremoved₁.channels ▸ hc y (List.mem_cons_of_mem _ hy))
        (fun y hy => hremoved₁.clients ▸ hk y (List.mem_cons_of_mem _ hy))
      refine ⟨s', ?_, h', fun c k => ?_, hremoved'.channels.trans hremoved₁.channels,
        hremoved'.clients.trans hremoved₁.clients⟩
      · rw [List.foldlM_cons, hs₁]
        exact hs'
      · rw [hremoved'.mem_iff, hremoved₁.mem_iff, List.exists_mem_cons_iff, not_or, and_assoc]

theorem Paired.destroyChannel (h : s.Paired maxChansPerUser) (hc : c ∈ s.channels) :
    ∃ s', s.destroyChannel c = some s' ∧ s'.Paired maxChansPerUser := by
  obtain ⟨s₁, hs₁, h₁, hremoved⟩ := h.delInvites (fun _ => c) id (s.invites c) (fun _ _ => hc)
    (fun k hk => h.client c k hk)
  have hempty (k : κ) : k ∉ s₁.invites c := fun hk => by
    obtain ⟨hk, hkept⟩ := (hremoved.mem_iff c k).mp hk
    exact hkept ⟨k, hk, rfl, rfl⟩
  refine ⟨_, Option.map_eq_some_iff.mpr ⟨s₁, hs₁, rfl⟩, h₁.mem_iff, h₁.invites_nodup,
    h₁.invited_nodup, fun c' k hk => ?_, h₁.client, h₁.length⟩
  have hne : c' ≠ c := by
    rintro rfl
    exact hempty k hk
  exact Finset.mem_erase.mpr ⟨hne, h₁.channel c' k hk⟩

theorem Paired.exitOneClient (h : s.Paired maxChansPerUser) (hk : k ∈ s.clients) :
    ∃ s', s.exitOneClient k = some s' ∧ s'.Paired maxChansPerUser := by
  obtain ⟨s₁, hs₁, h₁, hremoved⟩ := h.delInvites id (fun _ => k) (s.invited k)
    (fun c hc => h.channel c k ((h.mem_iff c k).mpr hc)) (fun _ _ => hk)
  have hempty (c : χ) : k ∉ s₁.invites c := fun hmem => by
    obtain ⟨hmem, hkept⟩ := (hremoved.mem_iff c k).mp hmem
    exact hkept ⟨c, (h.mem_iff c k).mp hmem, rfl, rfl⟩
  refine ⟨_, Option.map_eq_some_iff.mpr ⟨s₁, hs₁, rfl⟩, h₁.mem_iff, h₁.invites_nodup,
    h₁.invited_nodup, h₁.channel, fun c k' hk' => ?_, h₁.length⟩
  have hne : k' ≠ k := by
    rintro rfl
    exact hempty c hk'
  exact Finset.mem_erase.mpr ⟨hne, h₁.client c k' hk'⟩

omit [DecidableEq κ] in
theorem Paired.makeChannel (h : s.Paired maxChansPerUser) (hc : c ∉ s.channels) :
    Paired maxChansPerUser { s with
      channels := insert c s.channels
      invites := Function.update s.invites c [] } := by
  have hempty : s.invites c = [] :=
    List.eq_nil_iff_forall_not_mem.mpr fun k hk => hc (h.channel c k hk)
  have hsame : Function.update s.invites c [] = s.invites := by
    rw [← hempty, Function.update_eq_self]
  rw [hsame]
  exact ⟨h.mem_iff, h.invites_nodup, h.invited_nodup,
    fun c' k hk => Finset.mem_insert_of_mem (h.channel c' k hk), h.client, h.length⟩

omit [DecidableEq χ] in
theorem Paired.connect (h : s.Paired maxChansPerUser) (hk : k ∉ s.clients) :
    Paired maxChansPerUser { s with
      clients := insert k s.clients
      invited := Function.update s.invited k [] } := by
  have hempty : s.invited k = [] := List.eq_nil_iff_forall_not_mem.mpr fun c hc =>
    hk (h.client c k ((h.mem_iff c k).mpr hc))
  have hsame : Function.update s.invited k [] = s.invited := by
    rw [← hempty, Function.update_eq_self]
  rw [hsame]
  exact ⟨h.mem_iff, h.invites_nodup, h.invited_nodup, h.channel,
    fun c k' hk' => Finset.mem_insert_of_mem (h.client c k' hk'), h.length⟩

theorem Paired.step (h : s.Paired maxChansPerUser) {e : Event χ κ} (hposs : s.Possible e)
    (hadd : 0 < maxChansPerUser ∨ e.isAddInvite = false) :
    ∃ s', s.step maxChansPerUser e = some s' ∧ s'.Paired maxChansPerUser := by
  cases e with
  | makeChannel c => exact ⟨_, rfl, h.makeChannel hposs⟩
  | connect k => exact ⟨_, rfl, h.connect hposs⟩
  | addInvite c k =>
      exact h.addInvite (hadd.resolve_right (by simp [Event.isAddInvite])) hposs.1 hposs.2
  | delInvite c k | join c k =>
      obtain ⟨s', hs', h', -⟩ := h.delInvite hposs.1 hposs.2
      exact ⟨s', hs', h'⟩
  | timestampLoss c => exact ⟨s, rfl, h⟩
  | destroyChannel c => exact h.destroyChannel hposs
  | exit k => exact h.exitOneClient hposs

/-- With no room for an invitation there is none to evict. -/
theorem Paired.addInvite_zero (h : s.Paired 0) (c : χ) (k : κ) : s.addInvite 0 c k = none := by
  rw [Invites.addInvite]
  cases hdel : s.delInvite c k with
  | none => rfl
  | some s₁ =>
      rw [Invites.delInvite, Option.ite_none_right_eq_some, Option.some.injEq] at hdel
      obtain ⟨-, rfl⟩ := hdel
      have hempty : s.invited k = [] := List.length_eq_zero_iff.mp (Nat.le_zero.mp (h.length k))
      rw [Option.bind_some, Invites.evict, if_pos (Nat.zero_le _)]
      dsimp only
      rw [drop_self, hempty]
      rfl

theorem Paired.run (h : s.Paired maxChansPerUser) {es : List (Event χ κ)}
    (hposs : s.PossibleRun maxChansPerUser es)
    (hadd : 0 < maxChansPerUser ∨ ∀ e ∈ es, e.isAddInvite = false) :
    ∃ s', Invites.run maxChansPerUser s es = some s' ∧ s'.Paired maxChansPerUser := by
  induction es generalizing s with
  | nil => exact ⟨s, rfl, h⟩
  | cons e es ih =>
      obtain ⟨s₁, hs₁, h₁⟩ := h.step hposs.1 (hadd.imp_right fun h => h e List.mem_cons_self)
      obtain ⟨s', hs', h'⟩ := ih h₁ (hposs.2 s₁ hs₁)
        (hadd.imp_right fun h e he => h e (List.mem_cons_of_mem _ he))
      refine ⟨s', ?_, h'⟩
      rw [Invites.run, List.foldlM_cons, hs₁]
      exact hs'

/-- A run that returns has no room for invitations only if it makes none. -/
theorem Paired.of_run (h : s.Paired 0) {es : List (Event χ κ)} (hposs : s.PossibleRun 0 es)
    (hrun : Invites.run 0 s es = some s') : ∀ e ∈ es, e.isAddInvite = false := by
  induction es generalizing s with
  | nil => exact nofun
  | cons e es ih =>
      rw [Invites.run, List.foldlM_cons] at hrun
      obtain ⟨s₁, hs₁, hrun⟩ := Option.bind_eq_some_iff.mp hrun
      have hfirst : e.isAddInvite = false := by
        cases e with
        | addInvite c k =>
            rw [Invites.step, h.addInvite_zero] at hs₁
            cases hs₁
        | _ => rfl
      obtain ⟨s₁', hs₁', h₁⟩ := h.step hposs.1 (.inr hfirst)
      rw [hs₁, Option.some.injEq] at hs₁'
      subst hs₁'
      exact List.forall_mem_cons.mpr ⟨hfirst, ih h₁ (hposs.2 s₁ hs₁) hrun⟩

omit [DecidableEq χ] [DecidableEq κ] in
theorem Paired.start (maxChansPerUser : ℕ) : (start : Invites χ κ).Paired maxChansPerUser :=
  ⟨fun _ _ => by simp [Invites.start], fun _ => List.nodup_nil, fun _ => List.nodup_nil, nofun,
    nofun, fun _ => Nat.zero_le _⟩

/-- The lists are in step after a run if and only if there is room for an invitation, or none was
made. -/
theorem inStep_iff (maxChansPerUser : ℕ) {es : List (Event χ κ)}
    (hposs : (Invites.start : Invites χ κ).PossibleRun maxChansPerUser es) :
    (∃ s, run maxChansPerUser Invites.start es = some s ∧ s.InStep maxChansPerUser) ↔
      0 < maxChansPerUser ∨ ∀ e ∈ es, e.isAddInvite = false := by
  constructor
  · rintro ⟨s, hrun, -⟩
    rcases Nat.eq_zero_or_pos maxChansPerUser with rfl | hpos
    · exact .inr ((Paired.start 0).of_run hposs hrun)
    · exact .inl hpos
  · intro hadd
    obtain ⟨s, hs, h⟩ := (Paired.start maxChansPerUser).run hposs hadd
    exact ⟨s, hs, h.inStep⟩

/-- The second invitation takes the place of the first, and its channel goes. -/
theorem inStep_iff_evicted : ∃ s : Invites Bool Unit,
    run 1 Invites.start [.makeChannel false, .makeChannel true, .connect (), .addInvite false (),
      .addInvite true (), .destroyChannel true] = some s ∧ s.InStep 1 := by
  refine (inStep_iff 1 ?_).mpr (.inl Nat.one_pos)
  refine ⟨by decide, ?_⟩
  rintro _ ⟨⟩
  refine ⟨by decide, ?_⟩
  rintro _ ⟨⟩
  refine ⟨by decide, ?_⟩
  rintro _ ⟨⟩
  refine ⟨by decide, ?_⟩
  rintro _ ⟨⟩
  refine ⟨by decide, ?_⟩
  rintro _ ⟨⟩
  refine ⟨by decide, ?_⟩
  rintro _ ⟨⟩
  trivial

/-- The first invitation, with no room for any. -/
theorem not_forall_inStep : ¬ ∀ (maxChansPerUser : ℕ) (es : List (Event Unit Unit)),
    (Invites.start : Invites Unit Unit).PossibleRun maxChansPerUser es →
      ∃ s, run maxChansPerUser Invites.start es = some s ∧ s.InStep maxChansPerUser := by
  intro h
  obtain ⟨s, hs, -⟩ := h 0 [.makeChannel (), .connect (), .addInvite () ()] (by
    refine ⟨by decide, ?_⟩
    rintro _ ⟨⟩
    refine ⟨by decide, ?_⟩
    rintro _ ⟨⟩
    refine ⟨by decide, ?_⟩
    rintro _ ⟨⟩)
  cases hs

end Invites

end Unirc
