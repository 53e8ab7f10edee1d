import Unirc.Fanout

/-!
# A send reaches everybody once

The stamps of the clients never exceed the counter, so that no client has the stamp of a send before
that send. Within a send, a client or link is stamped exactly when its message has been put in the
queue or the queue was full.
-/

namespace Unirc

namespace Peer

variable (p : Peer) (io : ℕ → ℕ × Bool) (len : ℕ)

@[simp] theorem fixed_deadLinkOnWrite : p.deadLinkOnWrite.fixed = p.fixed := by
  unfold deadLinkOnWrite
  split <;> rfl

@[simp] theorem serial_deadLinkOnWrite : p.deadLinkOnWrite.serial = p.serial := by
  unfold deadLinkOnWrite
  split <;> rfl

@[simp] theorem defunct_deadLinkOnWrite : p.deadLinkOnWrite.defunct = true := by
  unfold deadLinkOnWrite
  split
  · assumption
  · rfl

@[simp] theorem fixed_sendQueuedWrite : (p.sendQueuedWrite io).fixed = p.fixed := by
  unfold sendQueuedWrite
  split
  · rfl
  · split
    · rw [fixed_deadLinkOnWrite]
      rfl
    · rfl

@[simp] theorem serial_sendQueuedWrite : (p.sendQueuedWrite io).serial = p.serial := by
  unfold sendQueuedWrite
  split
  · rfl
  · split
    · rw [serial_deadLinkOnWrite]
    · rfl

theorem defunct_sendQueuedWrite (h : p.defunct = true) :
    (p.sendQueuedWrite io).defunct = true := by
  unfold sendQueuedWrite
  split
  · exact h
  · split
    · rw [defunct_deadLinkOnWrite]
    · exact h

@[simp] theorem fixed_put : (p.put io len).fixed = p.fixed := by
  unfold put
  split
  · rw [fixed_sendQueuedWrite]
    rfl
  · rfl

@[simp] theorem serial_put : (p.put io len).serial = p.serial := by
  unfold put
  split
  · rw [serial_sendQueuedWrite]
  · rfl

theorem defunct_put (h : p.defunct = true) : (p.put io len).defunct = true := by
  unfold put
  split
  · exact defunct_sendQueuedWrite _ _ h
  · exact h

theorem dead_deadLinkOnWrite (h : p.dead = true) : p.deadLinkOnWrite.dead = true := by
  unfold deadLinkOnWrite
  split
  · exact h
  · rfl

theorem dead_put (h : p.dead = true) : (p.put io len).dead = true := by
  unfold put
  split
  · unfold sendQueuedWrite
    rw [if_pos h]
    exact h
  · exact h

/-- A send changes the end, the stamp and the queue of a client. -/
theorem eq_of_fixed {p q : Peer} (h : p.fixed = q.fixed) :
    p = { q with dead := p.dead, serial := p.serial, sendq := p.sendq } := by
  cases p
  cases q
  simp only [fixed, mk.injEq] at h ⊢
  tauto

end Peer

/-- The messages put in the queue of a client. -/
def messagesTo (k : ℕ) (log : List (ℕ × Sent)) : List Str :=
  log.filterMap fun
    | (a, .message buf) => if a = k then some buf else none
    | (_, .notice _) => none

theorem messagesTo_append (k : ℕ) (log log' : List (ℕ × Sent)) :
    messagesTo k (log ++ log') = messagesTo k log ++ messagesTo k log' :=
  List.filterMap_append

namespace Wire

/-- The new state differs in the queues of some clients and of operators who get notices. -/
structure Grows (touched : ℕ → Prop) (w w' : Wire) : Prop where
  cur : w'.currentSerial = w.currentSerial
  kept : ∀ a, (w'.peers a).map (fun p => (p.fixed, p.serial)) =
    (w.peers a).map fun p => (p.fixed, p.serial)
  mono : ∀ a, (w.peers a).any Peer.defunct = true → (w'.peers a).any Peer.defunct = true
  dead : ∀ a, (w.peers a).any Peer.dead = true → (w'.peers a).any Peer.dead = true
  same : ∀ a, ¬ touched a → (w.peers a).any Peer.notices = false → w'.peers a = w.peers a
  log : ∃ new, w'.queued = w.queued ++ new ∧ ∀ a, ¬ touched a → messagesTo a new = []

namespace Grows

variable {touched : ℕ → Prop} {w w' w'' : Wire}

theorem refl (touched : ℕ → Prop) (w : Wire) : Grows touched w w :=
  ⟨rfl, fun _ => rfl, fun _ h => h, fun _ h => h, fun _ _ _ => rfl, [], by simp, fun _ _ => rfl⟩

theorem notices (h : Grows touched w w') (a : ℕ) :
    (w'.peers a).any Peer.notices = (w.peers a).any Peer.notices := by
  have hk := congrArg (Option.any fun x => x.1.notices) (h.kept a)
  rw [Option.any_map, Option.any_map] at hk
  exact hk

theorem remote (h : Grows touched w w') {a : ℕ} (ha : ¬ touched a)
    (hr : (w.peers a).any Peer.myConnect = false) : w'.peers a = w.peers a := by
  refine h.same a ha ?_
  cases hp : w.peers a with
  | none => rfl
  | some p =>
      rw [hp] at hr
      simp [Peer.notices, show p.myConnect = false from hr]

theorem trans (h : Grows touched w w') (h' : Grows touched w' w'') : Grows touched w w'' where
  cur := h'.cur.trans h.cur
  kept := fun a => (h'.kept a).trans (h.kept a)
  mono := fun a ha => h'.mono a (h.mono a ha)
  dead := fun a ha => h'.dead a (h.dead a ha)
  same := by
    intro a ha hn
    rw [h'.same a ha (by rw [h.notices, hn]), h.same a ha hn]
  log := by
    obtain ⟨new, hnew, hno⟩ := h.log
    obtain ⟨new', hnew', hno'⟩ := h'.log
    refine ⟨new ++ new', by rw [hnew', hnew, List.append_assoc], fun a ha => ?_⟩
    rw [messagesTo_append, hno a ha, hno' a ha, List.append_nil]

theorem mono_touched {touched' : ℕ → Prop} (h : Grows touched w w')
    (himp : ∀ a, touched a → touched' a) : Grows touched' w w' where
  cur := h.cur
  kept := h.kept
  mono := h.mono
  dead := h.dead
  same := fun a ha => h.same a fun ht => ha (himp a ht)
  log := by
    obtain ⟨new, hnew, hno⟩ := h.log
    exact ⟨new, hnew, fun a ha => hno a fun ht => ha (himp a ht)⟩

end Grows

variable (io : ℕ → ℕ → ℕ × Bool) (w : Wire)

theorem any_updPeer (k : ℕ) {f : Peer → Peer} {test : Peer → Bool}
    (hf : ∀ p, test p = true → test (f p) = true) {a : ℕ} (ha : (w.peers a).any test = true) :
    ((w.updPeer k f).peers a).any test = true := by
  by_cases hk : a = k
  · subst hk
    simp only [updPeer, Function.update_self, Option.any_map]
    cases hp : w.peers a with
    | none => simp [hp] at ha
    | some p =>
        rw [hp] at ha
        exact hf p ha
  · simpa [updPeer, Function.update_of_ne hk] using ha

theorem grows_updPeer (k : ℕ) {f : Peer → Peer} (hfixed : ∀ p, (f p).fixed = p.fixed)
    (hserial : ∀ p, (f p).serial = p.serial) (hmono : ∀ p, p.defunct = true → (f p).defunct = true)
    (hdead : ∀ p, p.dead = true → (f p).dead = true) : Grows (· = k) w (w.updPeer k f) where
  cur := rfl
  kept := by
    intro a
    by_cases ha : a = k
    · subst ha
      simp [updPeer, Option.map_map, Function.comp_def, hfixed, hserial]
    · simp [updPeer, Function.update_of_ne ha]
  mono := fun _ => any_updPeer w k hmono
  dead := fun _ => any_updPeer w k hdead
  same := fun a ha _ => by simp [updPeer, Function.update_of_ne ha]
  log := ⟨[], by simp [updPeer], fun _ _ => rfl⟩

theorem grows_deadLink (k : ℕ) : Grows (· = k) w (w.updPeer k Peer.deadLinkOnWrite) :=
  w.grows_updPeer k (by simp) (by simp) (by simp) fun p hp => p.dead_deadLinkOnWrite hp

theorem grows_put (k : ℕ) (m : Sent) : Grows (· = k) w (w.put io k m) := by
  have h := w.grows_updPeer k (f := fun p => p.put (io k) m.buf.length) (by simp) (by simp)
    (fun p hp => p.defunct_put _ _ hp) fun p hp => p.dead_put _ _ hp
  refine ⟨h.cur, h.kept, h.mono, h.dead, h.same, [(k, m)], rfl, fun a ha => ?_⟩
  cases m with
  | message buf => simp [messagesTo, Ne.symm ha]
  | notice buf => rfl

theorem grows_sendNotice (text : Str) (k : ℕ) : Grows (fun _ => False) w (w.sendNotice io text k) := by
  unfold sendNotice
  split
  · exact Grows.refl _ w
  · rename_i p hp
    split
    · rename_i hn
      -- an operator is touched, but not by a message
      have key : ∀ {w' : Wire}, Grows (· = k) w w' →
          (∃ new, w'.queued = w.queued ++ new ∧ messagesTo k new = []) →
          Grows (fun _ => False) w w' := by
        intro w' h hlog
        refine ⟨h.cur, h.kept, h.mono, h.dead, fun a _ ha => h.same a ?_ ha, ?_⟩
        · rintro rfl
          simp [hp, hn.1] at ha
        · obtain ⟨new, hnew, hk⟩ := hlog
          obtain ⟨new', hnew', hno⟩ := h.log
          obtain rfl : new' = new := List.append_cancel_left (hnew'.symm.trans hnew)
          refine ⟨new', hnew, fun a _ => ?_⟩
          by_cases ha : a = k
          · rw [ha, hk]
          · exact hno a ha
      dsimp only
      split
      · exact key (w.grows_deadLink k) ⟨[], by simp [updPeer], rfl⟩
      · exact key (grows_put io w k _) ⟨_, rfl, rfl⟩
    · exact Grows.refl _ w

theorem grows_sendtoRealops (text : Str) : Grows (fun _ => False) w (w.sendtoRealops io text) := by
  unfold sendtoRealops
  generalize w.operList = l
  induction l generalizing w with
  | nil => exact Grows.refl _ w
  | cons k l ih => exact (grows_sendNotice io w text k).trans (ih _)

/-- What has come of a message for `k`: it is in the queue, or the queue was full. -/
def Outcome (w w' : Wire) (new : List (ℕ × Sent)) (k : ℕ) (buf : Str) : Prop :=
  messagesTo k new = [buf] ∨ (messagesTo k new = [] ∧ (w'.peers k).any Peer.defunct = true ∧
    (w.peers k).any (fun p => p.full buf.length) = true)

theorem sendMessage_outcome {k : ℕ} {p : Peer} (hp : w.peers k = some p) (buf : Str) :
    Grows (· = k) w (w.sendMessage io k (.message buf)) ∧
      ∃ new, (w.sendMessage io k (.message buf)).queued = w.queued ++ new ∧
        Outcome w (w.sendMessage io k (.message buf)) new k buf := by
  unfold sendMessage
  rw [hp]
  dsimp only
  split
  · rename_i hfull
    generalize hw : (if p.server = true then w.sendtoRealops io _ else w) = w₁
    have hg : Grows (fun _ => False) w w₁ := by
      rw [← hw]
      split
      · exact grows_sendtoRealops io w _
      · exact Grows.refl _ w
    refine ⟨(hg.mono_touched fun _ => False.elim).trans (w₁.grows_deadLink k), ?_⟩
    obtain ⟨new, hnew, hno⟩ := hg.log
    refine ⟨new, hnew, Or.inr ⟨hno k not_false, ?_, by rw [hp]; exact hfull⟩⟩
    have hsome : (w₁.peers k).isSome = true := by
      have := congrArg Option.isSome (hg.kept k)
      simpa [hp] using this
    obtain ⟨p₁, hp₁⟩ := Option.isSome_iff_exists.mp hsome
    simp [updPeer, hp₁]
  · exact ⟨grows_put io w k _, [(k, .message buf)], rfl, Or.inl (by simp [messagesTo])⟩

/-- The message for `k` has been dealt with: `k` is stamped, and nobody else got it. -/
structure Handled (w w' : Wire) (k : ℕ) (result : List (ℕ × Sent) → Prop) : Prop where
  cur : w'.currentSerial = w.currentSerial
  fixed : ∀ a, (w'.peers a).map Peer.fixed = (w.peers a).map Peer.fixed
  mono : ∀ a, (w.peers a).any Peer.defunct = true → (w'.peers a).any Peer.defunct = true
  dead : ∀ a, (w.peers a).any Peer.dead = true → (w'.peers a).any Peer.dead = true
  serial : ∀ a, a ≠ k → (w'.peers a).map Peer.serial = (w.peers a).map Peer.serial
  stamped : (w.peers k).isSome = true → (w'.peers k).map Peer.serial = some w.currentSerial
  same : ∀ a, a ≠ k → (w.peers a).any Peer.notices = false → w'.peers a = w.peers a
  log : ∃ new, w'.queued = w.queued ++ new ∧ (∀ a, a ≠ k → messagesTo a new = []) ∧ result new

theorem Grows.fixed {touched : ℕ → Prop} {w w' : Wire} (h : Grows touched w w') (a : ℕ) :
    (w'.peers a).map Peer.fixed = (w.peers a).map Peer.fixed := by
  have hk := congrArg (Option.map Prod.fst) (h.kept a)
  rw [Option.map_map, Option.map_map] at hk
  exact hk

theorem Grows.serial {touched : ℕ → Prop} {w w' : Wire} (h : Grows touched w w') (a : ℕ) :
    (w'.peers a).map Peer.serial = (w.peers a).map Peer.serial := by
  have hk := congrArg (Option.map Prod.snd) (h.kept a)
  rw [Option.map_map, Option.map_map] at hk
  exact hk

section Mark

variable (k a : ℕ)

theorem peers_mark_ne (h : a ≠ k) : (w.mark k).peers a = w.peers a := by
  simp only [mark, updPeer, Function.update_of_ne h]

theorem peers_mark_self : (w.mark k).peers k =
    (w.peers k).map fun p => { p with serial := w.currentSerial } := by
  simp only [mark, updPeer, Function.update_self]

theorem peers_mark_map {α : Type*} (f : Peer → α) (hf : ∀ p n, f { p with serial := n } = f p) :
    ((w.mark k).peers a).map f = (w.peers a).map f := by
  by_cases h : a = k
  · subst h
    rw [peers_mark_self, Option.map_map]
    congr 1
    funext p
    exact hf p _
  · rw [peers_mark_ne w k a h]

theorem any_mark (f : Peer → Bool) (hf : ∀ p n, f { p with serial := n } = f p) :
    ((w.mark k).peers a).any f = (w.peers a).any f := by
  have h := congrArg (Option.any id) (peers_mark_map w k a f hf)
  rw [Option.any_map, Option.any_map] at h
  exact h

end Mark

theorem handled_mark_after {w w' : Wire} {k : ℕ} {touched : ℕ → Prop}
    {result : List (ℕ × Sent) → Prop} (h : Grows touched w w') (ht : ∀ a, touched a → a = k)
    (hlog : ∃ new, w'.queued = w.queued ++ new ∧ result new) : Handled w (w'.mark k) k result where
  cur := h.cur
  fixed := fun a => (peers_mark_map w' k a _ fun _ _ => rfl).trans (h.fixed a)
  mono := fun a ha => by
    rw [any_mark w' k a Peer.defunct fun _ _ => rfl]
    exact h.mono a ha
  dead := fun a ha => by
    rw [any_mark w' k a Peer.dead fun _ _ => rfl]
    exact h.dead a ha
  serial := fun a ha => by rw [peers_mark_ne w' k a ha, h.serial]
  stamped := by
    intro hk
    have hs := congrArg Option.isSome (h.serial k)
    rw [Option.isSome_map, Option.isSome_map, hk] at hs
    obtain ⟨p, hp⟩ := Option.isSome_iff_exists.mp hs
    rw [peers_mark_self, hp, ← h.cur]
    rfl
  same := fun a ha hn => by rw [peers_mark_ne w' k a ha, h.same a (fun hta => ha (ht a hta)) hn]
  log := by
    obtain ⟨new, hnew, hno⟩ := h.log
    obtain ⟨new', hnew', hresult⟩ := hlog
    obtain rfl : new' = new := List.append_cancel_left (hnew'.symm.trans hnew)
    exact ⟨new', hnew, fun a ha => hno a fun hta => ha (ht a hta), hresult⟩

theorem handled_mark_before {w w' : Wire} {k : ℕ} {touched : ℕ → Prop}
    {result : List (ℕ × Sent) → Prop} (h : Grows touched (w.mark k) w')
    (ht : ∀ a, touched a → a = k) (hlog : ∃ new, w'.queued = w.queued ++ new ∧ result new) :
    Handled w w' k result where
  cur := h.cur
  fixed := fun a => (h.fixed a).trans (peers_mark_map w k a _ fun _ _ => rfl)
  mono := fun a ha => h.mono a (by rwa [any_mark w k a Peer.defunct fun _ _ => rfl])
  dead := fun a ha => h.dead a (by rwa [any_mark w k a Peer.dead fun _ _ => rfl])
  serial := fun a ha => by rw [h.serial, peers_mark_ne w k a ha]
  stamped := by
    intro hk
    obtain ⟨p, hp⟩ := Option.isSome_iff_exists.mp hk
    rw [h.serial, peers_mark_self, hp]
    rfl
  same := fun a ha hn => by
    rw [h.same a (fun hta => ha (ht a hta)) (by rwa [peers_mark_ne w k a ha]),
      peers_mark_ne w k a ha]
  log := by
    obtain ⟨new, hnew, hno⟩ := h.log
    obtain ⟨new', hnew', hresult⟩ := hlog
    obtain rfl : new' = new := List.append_cancel_left (hnew'.symm.trans hnew)
    exact ⟨new', hnew, fun a ha => hno a fun hta => ha (ht a hta), hresult⟩

/-- The client has the stamp of the present send. -/
def Stamped (w : Wire) (k : ℕ) : Prop := (w.peers k).any (fun p => p.serial == w.currentSerial) = true

theorem not_stamped_of_unmarked {w : Wire} {k : ℕ} (h : w.unmarked k = true) : ¬ w.Stamped k := by
  unfold unmarked at h
  unfold Stamped
  cases hp : w.peers k with
  | none => simp
  | some p => simpa [hp] using h

theorem unmarked_of_not_stamped {w : Wire} {k : ℕ} (hk : (w.peers k).isSome = true)
    (h : ¬ w.Stamped k) : w.unmarked k = true := by
  unfold Stamped at h
  unfold unmarked
  obtain ⟨p, hp⟩ := Option.isSome_iff_exists.mp hk
  simpa [hp] using h

/-- Only the stamp of the send is given, and ends of clients stay. -/
structure Persists (w w' : Wire) : Prop where
  cur : w'.currentSerial = w.currentSerial
  serial : ∀ a, (w'.peers a).map Peer.serial = (w.peers a).map Peer.serial ∨
    (w'.peers a).map Peer.serial = some w.currentSerial
  mono : ∀ a, (w.peers a).any Peer.defunct = true → (w'.peers a).any Peer.defunct = true

namespace Persists

variable {w w' w'' : Wire}

theorem refl (w : Wire) : Persists w w := ⟨rfl, fun _ => Or.inl rfl, fun _ h => h⟩

theorem trans (h : Persists w w') (h' : Persists w' w'') : Persists w w'' where
  cur := h'.cur.trans h.cur
  serial := by
    intro a
    obtain hs | hs := h'.serial a
    · rw [hs]
      exact h.serial a
    · rw [hs, h.cur]
      exact Or.inr rfl
  mono := fun a ha => h'.mono a (h.mono a ha)

theorem stamped (h : Persists w w') {a : ℕ} (ha : w.Stamped a) : w'.Stamped a := by
  unfold Stamped at ha ⊢
  rw [h.cur]
  obtain hs | hs := h.serial a
  · have hk := congrArg (Option.any (· == w.currentSerial)) hs
    rw [Option.any_map, Option.any_map] at hk
    exact hk.trans ha
  · obtain ⟨p, hp, hserial⟩ := Option.map_eq_some_iff.mp hs
    simp [hp, hserial]

end Persists

theorem Grows.persists {touched : ℕ → Prop} {w w' : Wire} (h : Grows touched w w') :
    Persists w w' :=
  ⟨h.cur, fun a => Or.inl (h.serial a), h.mono⟩

theorem Handled.stamped_iff {w w' : Wire} {k : ℕ} {result : List (ℕ × Sent) → Prop}
    (h : Handled w w' k result) {a : ℕ} (ha : a ≠ k) : w'.Stamped a ↔ w.Stamped a := by
  have hs := congrArg (Option.any (· == w.currentSerial)) (h.serial a ha)
  rw [Option.any_map, Option.any_map] at hs
  unfold Stamped
  rw [h.cur]
  exact Eq.to_iff (congrArg (· = true) hs)

theorem Handled.stamped_self {w w' : Wire} {k : ℕ} {result : List (ℕ × Sent) → Prop}
    (h : Handled w w' k result) (hk : (w.peers k).isSome = true) : w'.Stamped k := by
  have hs := h.stamped hk
  obtain ⟨p, hp, hserial⟩ := Option.map_eq_some_iff.mp hs
  unfold Stamped
  simp [hp, hserial, h.cur]

theorem Handled.persists {w w' : Wire} {k : ℕ} {result : List (ℕ × Sent) → Prop}
    (h : Handled w w' k result) (hk : (w.peers k).isSome = true) : Persists w w' := by
  refine ⟨h.cur, fun a => ?_, h.mono⟩
  by_cases hak : a = k
  · rw [hak]
    exact Or.inr (h.stamped hk)
  · exact Or.inl (h.serial a hak)

/-- What the send has come to for a client that was dealt with. -/
def Settled (w₀ w : Wire) (target : ℕ → Str → Prop) (new : List (ℕ × Sent)) (k : ℕ) : Prop :=
  (∃ buf, target k buf ∧ (messagesTo k new = [buf] ∨
    (messagesTo k new = [] ∧ (w.peers k).any Peer.defunct = true ∧
      (w₀.peers k).any (fun p => p.full buf.length || p.notices) = true))) ∨
  (messagesTo k new = [] ∧ ∀ buf, ¬ target k buf)

/-- The state within the loop of a send that began in `w₀`. -/
structure Loop (w₀ w : Wire) (target : ℕ → Str → Prop) : Prop where
  cur : w.currentSerial = w₀.currentSerial
  fixed : ∀ a, (w.peers a).map Peer.fixed = (w₀.peers a).map Peer.fixed
  mono : ∀ a, (w₀.peers a).any Peer.defunct = true → (w.peers a).any Peer.defunct = true
  dead : ∀ a, (w₀.peers a).any Peer.dead = true → (w.peers a).any Peer.dead = true
  same : ∀ k, ¬ w.Stamped k → (w₀.peers k).any Peer.notices = false → w.peers k = w₀.peers k
  log : ∃ new, w.queued = w₀.queued ++ new ∧ ∀ k, (w.Stamped k → Settled w₀ w target new k) ∧
    (¬ w.Stamped k → messagesTo k new = [])

namespace Loop

variable {w₀ w w' : Wire} {target : ℕ → Str → Prop}

theorem start (h : ∀ k, ¬ w₀.Stamped k) : Loop w₀ w₀ target where
  cur := rfl
  fixed := fun _ => rfl
  mono := fun _ ha => ha
  dead := fun _ ha => ha
  same := fun _ _ _ => rfl
  log := ⟨[], by simp, fun k => ⟨fun hk => absurd hk (h k), fun _ => rfl⟩⟩

theorem notices (h : Loop w₀ w target) (a : ℕ) :
    (w.peers a).any Peer.notices = (w₀.peers a).any Peer.notices := by
  have hk := congrArg (Option.any Peer.notices) (h.fixed a)
  rw [Option.any_map, Option.any_map] at hk
  exact hk

theorem isSome (h : Loop w₀ w target) (a : ℕ) : (w.peers a).isSome = (w₀.peers a).isSome := by
  have hk := congrArg Option.isSome (h.fixed a)
  rwa [Option.isSome_map, Option.isSome_map] at hk

/-- What a client was like at the beginning. -/
theorem exists_start (h : Loop w₀ w target) {a : ℕ} {p : Peer} (hp : w.peers a = some p) :
    ∃ p₀, w₀.peers a = some p₀ ∧ p.fixed = p₀.fixed ∧ (p₀.defunct = true → p.defunct = true) := by
  have hs : (w₀.peers a).isSome = true := by rw [← h.isSome, hp]; rfl
  obtain ⟨p₀, hp₀⟩ := Option.isSome_iff_exists.mp hs
  have hf := h.fixed a
  have hm := h.mono a
  simp only [hp, hp₀, Option.map_some, Option.some.injEq, Option.any_some] at hf hm
  exact ⟨p₀, hp₀, hf, hm⟩

theorem settled_mono {new new' : List (ℕ × Sent)} {k : ℕ} (h : Settled w₀ w target new k)
    (hdead : (w.peers k).any Peer.defunct = true → (w'.peers k).any Peer.defunct = true)
    (hnew : messagesTo k new' = messagesTo k new) : Settled w₀ w' target new' k := by
  unfold Settled
  rw [hnew]
  obtain ⟨buf, ht, hgot | ⟨hno, hd, hfull⟩⟩ | hnone := h
  · exact Or.inl ⟨buf, ht, Or.inl hgot⟩
  · exact Or.inl ⟨buf, ht, Or.inr ⟨hno, hdead hd, hfull⟩⟩
  · exact Or.inr hnone

/-- A client without the stamp is dealt with. -/
theorem handled {result : List (ℕ × Sent) → Prop} {k : ℕ} (h : Loop w₀ w target)
    (hk : w.unmarked k = true) (hw : Handled w w' k result)
    (hresult : ∀ new, result new → (∃ buf, target k buf ∧ Outcome w w' new k buf) ∨
      (messagesTo k new = [] ∧ ∀ buf, ¬ target k buf)) : Loop w₀ w' target where
  cur := hw.cur.trans h.cur
  fixed := fun a => (hw.fixed a).trans (h.fixed a)
  mono := fun a ha => hw.mono a (h.mono a ha)
  dead := fun a ha => hw.dead a (h.dead a ha)
  same := by
    intro a ha hn
    have hak : a ≠ k := by
      rintro rfl
      refine ha (hw.stamped_self ?_)
      unfold unmarked at hk
      exact Option.isSome_of_any hk
    rw [hw.same a hak (by rw [h.notices, hn]), h.same a (fun hs => ha ((hw.stamped_iff hak).mpr hs)) hn]
  log := by
    obtain ⟨new, hnew, hall⟩ := h.log
    obtain ⟨new', hnew', hno, hr⟩ := hw.log
    have hksome : (w.peers k).isSome = true := by
      unfold unmarked at hk
      exact Option.isSome_of_any hk
    refine ⟨new ++ new', by rw [hnew', hnew, List.append_assoc], fun a => ?_⟩
    by_cases hak : a = k
    · subst hak
      have hold := (hall a).2 (not_stamped_of_unmarked hk)
      refine ⟨fun _ => ?_, fun hs => absurd (hw.stamped_self hksome) hs⟩
      unfold Settled
      rw [messagesTo_append, hold, List.nil_append]
      obtain ⟨buf, ht, hgot | ⟨hnone, hd, hfull⟩⟩ | hnone := hresult new' hr
      · exact Or.inl ⟨buf, ht, Or.inl hgot⟩
      · refine Or.inl ⟨buf, ht, Or.inr ⟨hnone, hd, ?_⟩⟩
        cases hn : (w₀.peers a).any Peer.notices with
        | false =>
            rw [h.same a (not_stamped_of_unmarked hk) hn] at hfull
            obtain ⟨p, hp, hpf⟩ := (Option.any_eq_true _ _).mp hfull
            simp [hp, hpf]
        | true =>
            obtain ⟨p, hp, hpn⟩ := (Option.any_eq_true _ _).mp hn
            simp [hp, hpn]
      · exact Or.inr hnone
    · rw [hw.stamped_iff hak]
      have hmsg : messagesTo a (new ++ new') = messagesTo a new := by
        rw [messagesTo_append, hno a hak, List.append_nil]
      exact ⟨fun hs => settled_mono ((hall a).1 hs) (hw.mono a) hmsg,
        fun hs => hmsg.trans ((hall a).2 hs)⟩

end Loop

/-- What every step of a loop keeps, and what it does for its element, holds at the end. -/
theorem foldl_seen {α : Type*} (step : Wire → α → Wire) (I : Wire → Prop)
    (Seen : Wire → α → Prop) {items : List α}
    (hstep : ∀ w, ∀ a ∈ items, I w → I (step w a) ∧ Persists w (step w a) ∧ Seen (step w a) a)
    (hseen : ∀ w w' a, Persists w w' → Seen w a → Seen w' a) {w : Wire} (hw : I w) :
    I (items.foldl step w) ∧ Persists w (items.foldl step w) ∧
      ∀ a ∈ items, Seen (items.foldl step w) a := by
  induction items generalizing w with
  | nil => exact ⟨hw, Persists.refl w, by simp⟩
  | cons b items ih =>
      obtain ⟨h1, h2, h3⟩ := hstep w b List.mem_cons_self hw
      obtain ⟨i1, i2, i3⟩ := ih (fun w a ha => hstep w a (List.mem_cons_of_mem b ha)) h1
      refine ⟨i1, h2.trans i2, fun a ha => ?_⟩
      obtain rfl | ha := List.mem_cons.mp ha
      · exact hseen _ _ a i2 h3
      · exact i3 a ha

/-- Everybody who shall get a message gets one, and once, unless the queue is full; an operator's
queue may have got notices before. Nobody else gets one. -/
def SentOnce (w w' : Wire) (target : ℕ → Str → Prop) : Prop :=
  ∃ new, w'.queued = w.queued ++ new ∧
    (∀ k, (∀ buf, ¬ target k buf) → messagesTo k new = []) ∧
    ∀ k, (∃ buf, target k buf) → ∃ buf, target k buf ∧ (messagesTo k new = [buf] ∨
      (messagesTo k new = [] ∧ (w'.peers k).any Peer.defunct = true ∧
        (w.peers k).any (fun p => p.full buf.length || p.notices) = true))

/-- Everybody who shall get a message has been dealt with, or was an operator and is gone. -/
theorem Loop.sentOnce {w₀ w : Wire} {target : ℕ → Str → Prop} (h : Loop w₀ w target)
    (hall : ∀ k buf, target k buf → w.Stamped k ∨ ((w.peers k).any Peer.defunct = true ∧
      (w₀.peers k).any Peer.notices = true)) : SentOnce w₀ w target := by
  obtain ⟨new, hnew, hlog⟩ := h.log
  refine ⟨new, hnew, fun k hk => ?_, fun k ⟨buf, hbuf⟩ => ?_⟩
  · by_cases hs : w.Stamped k
    · obtain ⟨buf, ht, -⟩ | hnone := (hlog k).1 hs
      · exact absurd ht (hk buf)
      · exact hnone.1
    · exact (hlog k).2 hs
  · by_cases hs : w.Stamped k
    · obtain hgot | hnone := (hlog k).1 hs
      · exact hgot
      · exact absurd hbuf (hnone.2 buf)
    · obtain hs' | ⟨hd, hn⟩ := hall k buf hbuf
      · exact absurd hs' hs
      · refine ⟨buf, hbuf, Or.inr ⟨(hlog k).2 hs, hd, ?_⟩⟩
        obtain ⟨p, hp, hpn⟩ := (Option.any_eq_true _ _).mp hn
        simp [hp, hpn]

theorem handled_sendMessage {k : ℕ} {p : Peer} (hp : w.peers k = some p) (buf : Str) :
    Handled w ((w.sendMessage io k (.message buf)).mark k) k
      fun new => Outcome w ((w.sendMessage io k (.message buf)).mark k) new k buf := by
  obtain ⟨hg, new, hnew, hout⟩ := sendMessage_outcome io w hp buf
  refine handled_mark_after hg (fun _ ha => ha) ⟨new, hnew, ?_⟩
  unfold Outcome
  rwa [any_mark _ k k Peer.defunct fun _ _ => rfl]

theorem handled_mark_sendMessage {k : ℕ} {p : Peer} (hp : w.peers k = some p) (buf : Str) :
    Handled w ((w.mark k).sendMessage io k (.message buf)) k
      fun new => Outcome w ((w.mark k).sendMessage io k (.message buf)) new k buf := by
  have hp' : (w.mark k).peers k = some { p with serial := w.currentSerial } := by
    rw [peers_mark_self, hp]
    rfl
  obtain ⟨hg, new, hnew, hout⟩ := sendMessage_outcome io (w.mark k) hp' buf
  refine handled_mark_before hg (fun _ ha => ha) ⟨new, hnew, ?_⟩
  unfold Outcome at hout
  rwa [any_mark _ k k (fun p => p.full buf.length) fun _ _ => rfl] at hout

theorem handled_sendMessageRemote (source : Client) {k : ℕ} {p : Peer} (hp : w.peers k = some p)
    (buf : Str) : Handled w ((w.sendMessageRemote io source k (.message buf)).mark k) k
      fun new => if p.myConnect then
        Outcome w ((w.sendMessageRemote io source k (.message buf)).mark k) new k buf
      else messagesTo k new = [] := by
  unfold sendMessageRemote
  rw [hp]
  dsimp only
  split
  · exact handled_sendMessage io w hp buf
  · have hg := grows_sendtoRealops io w ("server send message to ".toList ++ p.name ++
      " dropped from ".toList ++ source.name.val ++ "(Not local server)".toList)
    obtain ⟨new, hnew, hno⟩ := hg.log
    exact handled_mark_after hg (fun _ => False.elim) ⟨new, hnew, hno k not_false⟩

section Butone

variable (one : ℕ) (x : ChannelMessage) (bwSaver : Bool) (now : ℤ) (members : List ℕ)

/-- Local members who take the message, and links to others who do. -/
def ButoneTarget (k : ℕ) (buf : Str) : Prop :=
  (∃ p, k ∈ members ∧ w.peers k = some p ∧ butoneTakes one bwSaver now p = true ∧
    p.myConnect = true ∧ buf = x.localBuf) ∨
  ∃ l, w.peers k = some l ∧ l.myConnect = true ∧ buf = butoneBuf x l ∧
    ∃ a ∈ members, ∃ p, w.peers a = some p ∧ butoneTakes one bwSaver now p = true ∧
      p.myConnect = false ∧ p.from_ = k

/-- A member was seen by the loop. -/
def ButoneSeen (w₀ w : Wire) (a : ℕ) : Prop :=
  ∀ p, w₀.peers a = some p → butoneTakes one bwSaver now p = true →
    if p.myConnect then w.Stamped a ∨ ((w.peers a).any Peer.defunct = true ∧ p.notices = true)
    else (w₀.peers p.from_).isSome = true → w.Stamped p.from_

variable {one x bwSaver now members}

theorem butoneTakes_of_fixed {p p₀ : Peer} (hf : p.fixed = p₀.fixed)
    (hd : p₀.defunct = true → p.defunct = true) (h : butoneTakes one bwSaver now p = true) :
    butoneTakes one bwSaver now p₀ = true := by
  rw [Peer.eq_of_fixed hf] at h hd
  unfold butoneTakes at h ⊢
  simp only [Bool.not_eq_true', Bool.or_eq_false_iff] at h ⊢
  refine ⟨⟨⟨?_, h.1.1.2⟩, h.1.2⟩, h.2⟩
  by_contra hne
  rw [hd (by simpa using hne)] at h
  simp at h

theorem butoneTakes_or_defunct {p p₀ : Peer} (hf : p.fixed = p₀.fixed)
    (h : butoneTakes one bwSaver now p₀ = true) :
    butoneTakes one bwSaver now p = true ∨ p.defunct = true := by
  by_cases hd : p.defunct = true
  · exact Or.inr hd
  · rw [Peer.eq_of_fixed hf] at hd ⊢
    unfold butoneTakes at h ⊢
    simp only [Bool.not_eq_true', Bool.or_eq_false_iff] at h ⊢
    exact Or.inl ⟨⟨⟨by simpa using hd, h.1.1.2⟩, h.1.2⟩, h.2⟩

theorem butoneBuf_of_fixed {l l₀ : Peer} (hf : l.fixed = l₀.fixed) : butoneBuf x l = butoneBuf x l₀ := by
  rw [Peer.eq_of_fixed hf]
  rfl

/-- A client behind a link does not come to an end within a send. -/
def RemoteKept (w₀ w : Wire) : Prop :=
  ∀ a, (w₀.peers a).any Peer.myConnect = false → (w.peers a).any Peer.defunct = true →
    (w₀.peers a).any Peer.defunct = true

theorem Loop.myConnect {w₀ w : Wire} {target : ℕ → Str → Prop} (h : Loop w₀ w target) (a : ℕ) :
    (w.peers a).any Peer.myConnect = (w₀.peers a).any Peer.myConnect := by
  have hk := congrArg (Option.any Peer.myConnect) (h.fixed a)
  rw [Option.any_map, Option.any_map] at hk
  exact hk

theorem remoteKept_mark {w₀ w w' : Wire} {target : ℕ → Str → Prop} (h : Loop w₀ w target)
    (hkept : RemoteKept w₀ w) (k : ℕ)
    (hw : ∀ a, (w.peers a).any Peer.myConnect = false → w'.peers a = w.peers a) :
    RemoteKept w₀ (w'.mark k) := by
  intro a ha hd
  rw [any_mark w' k a Peer.defunct fun _ _ => rfl, hw a (by rw [h.myConnect, ha])] at hd
  exact hkept a ha hd

theorem remote_sendMessage {k : ℕ} {p : Peer} (hp : w.peers k = some p) (hmine : p.myConnect = true)
    (buf : Str) (a : ℕ) (ha : (w.peers a).any Peer.myConnect = false) :
    (w.sendMessage io k (.message buf)).peers a = w.peers a := by
  refine (sendMessage_outcome io w hp buf).1.remote ?_ ha
  rintro rfl
  rw [hp] at ha
  simp [hmine] at ha

theorem remote_sendMessageRemote (source : Client) {k : ℕ} {p : Peer} (hp : w.peers k = some p)
    (buf : Str) (a : ℕ) (ha : (w.peers a).any Peer.myConnect = false) :
    (w.sendMessageRemote io source k (.message buf)).peers a = w.peers a := by
  unfold sendMessageRemote
  rw [hp]
  dsimp only
  split
  · rename_i hmine
    exact remote_sendMessage io w hp hmine buf a ha
  · exact (grows_sendtoRealops io w _).remote not_false ha

theorem butoneStep_loop {w₀ w : Wire} {a : ℕ} (ha : a ∈ members)
    (h : Loop w₀ w (ButoneTarget w₀ one x bwSaver now members)) (hkept : RemoteKept w₀ w) :
    (Loop w₀ (butoneStep io one x bwSaver now w a) (ButoneTarget w₀ one x bwSaver now members) ∧
      RemoteKept w₀ (butoneStep io one x bwSaver now w a)) ∧
      Persists w (butoneStep io one x bwSaver now w a) ∧
      ButoneSeen one bwSaver now w₀ (butoneStep io one x bwSaver now w a) a := by
  unfold butoneStep
  cases hp : w.peers a with
  | none =>
      refine ⟨⟨h, hkept⟩, Persists.refl w, fun p₀ hp₀ => ?_⟩
      have := h.isSome a
      simp [hp, hp₀] at this
  | some p =>
      obtain ⟨p₀, hp₀, hf, hd⟩ := h.exists_start hp
      have hconnect : p.myConnect = p₀.myConnect := by rw [Peer.eq_of_fixed hf]
      have hfrom : p.from_ = p₀.from_ := by rw [Peer.eq_of_fixed hf]
      dsimp only
      split
      · rename_i htakes
        have htakes₀ := butoneTakes_of_fixed hf hd htakes
        split
        · rename_i hlocal
          have hlocal₀ : p₀.myConnect = true := hconnect ▸ hlocal
          have htarget : ButoneTarget w₀ one x bwSaver now members a x.localBuf :=
            Or.inl ⟨p₀, ha, hp₀, htakes₀, hlocal₀, rfl⟩
          have hseen : ∀ {w' : Wire}, w'.Stamped a → ButoneSeen one bwSaver now w₀ w' a := by
            intro w' hs q hq _
            rw [hp₀] at hq
            rw [← Option.some.inj hq, if_pos hlocal₀]
            exact Or.inl hs
          split
          · rename_i hun
            have hw := handled_sendMessage io w hp x.localBuf
            exact ⟨⟨h.handled hun hw fun new hr => Or.inl ⟨_, htarget, hr⟩,
              remoteKept_mark h hkept a (remote_sendMessage io w hp hlocal _)⟩,
              hw.persists (by rw [hp]; rfl), hseen (hw.stamped_self (by rw [hp]; rfl))⟩
          · rename_i hun
            refine ⟨⟨h, hkept⟩, Persists.refl w, hseen ?_⟩
            by_contra hs
            exact hun (unmarked_of_not_stamped (by rw [hp]; rfl) hs)
        · rename_i hremote
          have hremote₀ : p₀.myConnect = false := by simpa [hconnect] using hremote
          have hseen : ∀ {w' : Wire}, ((w₀.peers p₀.from_).isSome = true → w'.Stamped p₀.from_) →
              ButoneSeen one bwSaver now w₀ w' a := by
            intro w' hs q hq _
            rw [hp₀] at hq
            rw [← Option.some.inj hq, hremote₀]
            exact hs
          rw [hfrom]
          cases hl : w.peers p₀.from_ with
          | none =>
              refine ⟨⟨h, hkept⟩, Persists.refl w, hseen fun hsome => ?_⟩
              have := h.isSome p₀.from_
              simp [hl, hsome] at this
          | some l =>
              obtain ⟨l₀, hl₀, hlf, -⟩ := h.exists_start hl
              dsimp only
              split
              · rename_i hun
                have hw := handled_sendMessageRemote io w x.source hl (butoneBuf x l)
                refine ⟨⟨h.handled hun hw fun new hr => ?_,
                  remoteKept_mark h hkept _ (remote_sendMessageRemote io w x.source hl _)⟩,
                  hw.persists (by rw [hl]; rfl),
                  hseen fun _ => hw.stamped_self (by rw [hl]; rfl)⟩
                have hlconnect : l.myConnect = l₀.myConnect := by rw [Peer.eq_of_fixed hlf]
                split at hr
                · rename_i hmine
                  refine Or.inl ⟨butoneBuf x l, Or.inr ⟨l₀, hl₀, hlconnect ▸ hmine,
                    butoneBuf_of_fixed hlf, a, ha, p₀, hp₀, htakes₀, hremote₀, rfl⟩, hr⟩
                · rename_i hmine
                  refine Or.inr ⟨hr, fun buf ht => hmine ?_⟩
                  rw [hlconnect]
                  obtain ⟨q, -, hq, -, hmine', -⟩ | ⟨q, hq, hmine', -⟩ := ht
                  · rwa [← Option.some.inj (hl₀.symm.trans hq)] at hmine'
                  · rwa [← Option.some.inj (hl₀.symm.trans hq)] at hmine'
              · rename_i hun
                refine ⟨⟨h, hkept⟩, Persists.refl w, hseen fun _ => ?_⟩
                by_contra hs
                exact hun (unmarked_of_not_stamped (by rw [hl]; rfl) hs)
      · rename_i htakes
        refine ⟨⟨h, hkept⟩, Persists.refl w, fun q hq hq' => ?_⟩
        rw [hp₀] at hq
        obtain rfl := Option.some.inj hq
        obtain hnow | hdead := butoneTakes_or_defunct hf hq'
        · exact absurd hnow htakes
        · have halive : p₀.defunct = false := by
            unfold butoneTakes at hq'
            simp only [Bool.not_eq_true', Bool.or_eq_false_iff] at hq'
            exact hq'.1.1.1
          split
          · by_cases hs : w.Stamped a
            · exact Or.inl hs
            · refine Or.inr ⟨by rw [hp]; exact hdead, ?_⟩
              by_contra hn
              have hsame := h.same a hs (by rw [hp₀]; simpa using hn)
              rw [hp, hp₀] at hsame
              rw [Option.some.inj hsame, halive] at hdead
              cases hdead
          · rename_i hremote
            have := hkept a (by rw [hp₀]; simpa using hremote) (by rw [hp]; exact hdead)
            rw [hp₀] at this
            exact absurd this (by simp [halive])

theorem sentOnce_channelButone (h : ∀ k, ¬ w.bump.Stamped k) :
    SentOnce w (w.sendtoChannelButone io one x bwSaver now members)
      (w.ButoneTarget one x bwSaver now members) := by
  have hstart : Loop w.bump w.bump (w.ButoneTarget one x bwSaver now members) := Loop.start h
  obtain ⟨⟨hloop, -⟩, -, hseen⟩ := foldl_seen (butoneStep io one x bwSaver now)
    (fun w' => Loop w.bump w' (w.ButoneTarget one x bwSaver now members) ∧ RemoteKept w.bump w')
    (ButoneSeen one bwSaver now w.bump)
    (fun w' a ha hw' => butoneStep_loop io ha hw'.1 hw'.2)
    (fun w' w'' a hp hs p hpa ht => by
      have := hs p hpa ht
      split at this
      · rename_i hmine
        rw [if_pos hmine]
        exact this.imp hp.stamped fun hd => ⟨hp.mono a hd.1, hd.2⟩
      · rename_i hmine
        rw [if_neg hmine]
        exact fun hsome => hp.stamped (this hsome))
    ⟨hstart, fun a _ hd => hd⟩
  refine hloop.sentOnce fun k buf ht => ?_
  obtain ⟨p, hk, hp, htakes, hmine, -⟩ | ⟨l, hl, -, -, a, ha, p, hp, htakes, hmine, rfl⟩ := ht
  · have hs := hseen k hk p hp htakes
    rw [if_pos hmine] at hs
    refine hs.imp id fun hd => ⟨hd.1, ?_⟩
    rw [show w.bump.peers k = some p from hp]
    exact hd.2
  · have hs := hseen a ha p hp htakes
    rw [hmine] at hs
    exact Or.inl (hs (by rw [show w.bump.peers p.from_ = some l from hl]; rfl))

end Butone

section Remote

variable (one : ℕ) (type : MemberFlags) (caps nocaps : ℕ) (text : Str)
  (members : List (ℕ × MemberFlags))

/-- Other links with the capabilities, to a member with the status. -/
def RemoteTarget (k : ℕ) (buf : Str) : Prop :=
  buf = sendLine text ∧ k ≠ one ∧ (∃ l, w.peers k = some l ∧ l.capable caps nocaps = true) ∧
    ∃ a ∈ members, hasType type a.2 ∧
      ∃ p, w.peers a.1 = some p ∧ p.myConnect = false ∧ p.from_ = k

def RemoteSeen (w₀ w : Wire) (a : ℕ × MemberFlags) : Prop :=
  ∀ p l, hasType type a.2 → w₀.peers a.1 = some p → p.myConnect = false → p.from_ ≠ one →
    w₀.peers p.from_ = some l → l.capable caps nocaps = true → w.Stamped p.from_

variable {one type caps nocaps text members}

theorem remoteStep_loop {w₀ w : Wire} {a : ℕ × MemberFlags} (ha : a ∈ members)
    (h : Loop w₀ w (RemoteTarget w₀ one type caps nocaps text members)) :
    Loop w₀ (remoteStep io one type caps nocaps text w a)
        (RemoteTarget w₀ one type caps nocaps text members) ∧
      Persists w (remoteStep io one type caps nocaps text w a) ∧
      RemoteSeen one type caps nocaps w₀ (remoteStep io one type caps nocaps text w a) a := by
  unfold remoteStep
  cases hp : w.peers a.1 with
  | none =>
      refine ⟨h, Persists.refl w, fun p₀ l₀ _ hp₀ => ?_⟩
      have := h.isSome a.1
      simp [hp, hp₀] at this
  | some p =>
      obtain ⟨p₀, hp₀, hf, -⟩ := h.exists_start hp
      have hconnect : p.myConnect = p₀.myConnect := by rw [Peer.eq_of_fixed hf]
      have hfrom : p.from_ = p₀.from_ := by rw [Peer.eq_of_fixed hf]
      dsimp only
      split
      · rename_i htakes
        rw [hfrom]
        cases hl : w.peers p₀.from_ with
        | none =>
            refine ⟨h, Persists.refl w, fun q l₀ _ hq _ _ hl₀ => ?_⟩
            rw [hp₀] at hq
            rw [← Option.some.inj hq] at hl₀
            have := h.isSome p₀.from_
            simp [hl, hl₀] at this
        | some l =>
            obtain ⟨l₀, hl₀, hlf, -⟩ := h.exists_start hl
            have hcaps : l.capable caps nocaps = l₀.capable caps nocaps := by
              rw [Peer.eq_of_fixed hlf]
              rfl
            have hseen : ∀ {w' : Wire}, w'.Stamped p₀.from_ →
                RemoteSeen one type caps nocaps w₀ w' a := by
              intro w' hs q l' _ hq _ _ _ _
              rw [hp₀] at hq
              rwa [← Option.some.inj hq]
            dsimp only
            split
            · rename_i hlink
              split
              · rename_i hun
                have hw := handled_sendMessage io w hl (sendLine text)
                refine ⟨h.handled hun hw fun new hr => Or.inl ⟨_, ?_, hr⟩,
                  hw.persists (by rw [hl]; rfl), hseen (hw.stamped_self (by rw [hl]; rfl))⟩
                exact ⟨rfl, hlink.1, ⟨l₀, hl₀, hcaps ▸ hlink.2⟩, a, ha, htakes.1, p₀, hp₀,
                  hconnect ▸ htakes.2, rfl⟩
              · rename_i hun
                refine ⟨h, Persists.refl w, hseen ?_⟩
                by_contra hs
                exact hun (unmarked_of_not_stamped (by rw [hl]; rfl) hs)
            · rename_i hlink
              refine ⟨h, Persists.refl w, fun q l' _ hq _ hone hl' hcap => ?_⟩
              rw [hp₀] at hq
              obtain rfl := Option.some.inj hq
              rw [hl₀] at hl'
              rw [← Option.some.inj hl'] at hcap
              exact absurd ⟨hone, hcaps ▸ hcap⟩ hlink
      · rename_i htakes
        refine ⟨h, Persists.refl w, fun q l' htype hq hmine _ _ _ => ?_⟩
        rw [hp₀] at hq
        rw [← Option.some.inj hq, ← hconnect] at hmine
        exact absurd ⟨htype, hmine⟩ htakes

theorem sentOnce_channelRemote (h : ∀ k, ¬ w.bump.Stamped k) :
    SentOnce w (w.sendtoChannelRemote io one type caps nocaps text members)
      (w.RemoteTarget one type caps nocaps text members) := by
  have hstart : Loop w.bump w.bump (w.RemoteTarget one type caps nocaps text members) :=
    Loop.start h
  obtain ⟨hloop, -, hseen⟩ := foldl_seen (remoteStep io one type caps nocaps text)
    (fun w' => Loop w.bump w' (w.RemoteTarget one type caps nocaps text members))
    (RemoteSeen one type caps nocaps w.bump)
    (fun w' a ha hw' => remoteStep_loop io ha hw')
    (fun w' w'' a hp hs p l htype hpa hmine hone hl hcap =>
      hp.stamped (hs p l htype hpa hmine hone hl hcap)) hstart
  refine hloop.sentOnce fun k buf ht => ?_
  obtain ⟨-, hone, ⟨l, hl, hcap⟩, a, ha, htype, p, hp, hmine, rfl⟩ := ht
  exact Or.inl (hseen a ha p l htype hp hmine hone hl hcap)

end Remote

section Common

variable (user : ℕ) (touser : Bool) (text : Str) (channels : List (List ℕ))

/-- Local members of the channels, but for the user, who gets the message when `touser` says so. -/
def CommonTarget (k : ℕ) (buf : Str) : Prop :=
  buf = sendLine text ∧ ∃ p, w.peers k = some p ∧
    ((commonTakes user k p = true ∧ ∃ members ∈ channels, k ∈ members) ∨
      (k = user ∧ touser = true ∧ p.myConnect = true ∧ p.dead = false))

/-- Those that the loop sends to. -/
def CommonLoopTarget (members : List ℕ) (k : ℕ) (buf : Str) : Prop :=
  buf = sendLine text ∧ k ∈ members ∧ ∃ p, w.peers k = some p ∧ commonTakes user k p = true

def CommonSeen (w₀ w : Wire) (a : ℕ) : Prop :=
  ∀ p, w₀.peers a = some p → commonTakes user a p = true →
    w.Stamped a ∨ ((w.peers a).any Peer.defunct = true ∧ p.notices = true)

variable {user touser text channels} {members : List ℕ}

theorem commonStep_loop {w₀ w : Wire} {a : ℕ} (ha : a ∈ members)
    (h : Loop w₀ w (CommonLoopTarget w₀ user text members)) (hun : ¬ w.Stamped user) :
    (Loop w₀ (commonStep io user text w a) (CommonLoopTarget w₀ user text members) ∧
      ¬ (commonStep io user text w a).Stamped user) ∧
      Persists w (commonStep io user text w a) ∧
      CommonSeen user w₀ (commonStep io user text w a) a := by
  unfold commonStep
  cases hp : w.peers a with
  | none =>
      refine ⟨⟨h, hun⟩, Persists.refl w, fun p₀ hp₀ => ?_⟩
      have := h.isSome a
      simp [hp, hp₀] at this
  | some p =>
      obtain ⟨p₀, hp₀, hf, hd⟩ := h.exists_start hp
      have hconnect : p.myConnect = p₀.myConnect := by rw [Peer.eq_of_fixed hf]
      dsimp only
      split
      · rename_i htakes
        have hne : a ≠ user := by
          rintro rfl
          simp [commonTakes] at htakes
        have htakes₀ : commonTakes user a p₀ = true := by
          simp only [commonTakes, Bool.and_eq_true, Bool.not_eq_true'] at htakes ⊢
          refine ⟨⟨hconnect ▸ htakes.1.1, htakes.1.2⟩, ?_⟩
          by_contra hdead
          rw [hd (by simpa using hdead)] at htakes
          simp at htakes
        have hseen : ∀ {w' : Wire}, w'.Stamped a → CommonSeen user w₀ w' a :=
          fun hs _ _ _ => Or.inl hs
        split
        · rename_i hfree
          have hw := handled_mark_sendMessage io w hp (sendLine text)
          exact ⟨⟨h.handled hfree hw fun new hr => Or.inl ⟨_, ⟨rfl, ha, p₀, hp₀, htakes₀⟩, hr⟩,
            fun hs => hun ((hw.stamped_iff hne.symm).mp hs)⟩, hw.persists (by rw [hp]; rfl),
            hseen (hw.stamped_self (by rw [hp]; rfl))⟩
        · rename_i hfree
          refine ⟨⟨h, hun⟩, Persists.refl w, hseen ?_⟩
          by_contra hs
          exact hfree (unmarked_of_not_stamped (by rw [hp]; rfl) hs)
      · rename_i htakes
        refine ⟨⟨h, hun⟩, Persists.refl w, fun q hq hq' => ?_⟩
        rw [hp₀] at hq
        obtain rfl := Option.some.inj hq
        by_cases hs : w.Stamped a
        · exact Or.inl hs
        · simp only [commonTakes, Bool.and_eq_true, Bool.not_eq_true'] at hq' htakes
          have hdead : p.defunct = true := by
            by_contra halive
            exact htakes ⟨⟨hconnect ▸ hq'.1.1, hq'.1.2⟩, by simpa using halive⟩
          refine Or.inr ⟨by rw [hp]; exact hdead, ?_⟩
          by_contra hn
          have hsame := h.same a hs (by rw [hp₀]; simpa using hn)
          rw [hp, hp₀] at hsame
          rw [Option.some.inj hsame, hq'.2] at hdead
          cases hdead

theorem loop_commonChannelsLocal (h : ∀ k, ¬ w.bump.Stamped k) :
    (Loop w.bump (members.foldl (commonStep io user text) w.bump)
        (w.CommonLoopTarget user text members) ∧
      ¬ (members.foldl (commonStep io user text) w.bump).Stamped user) ∧
    Persists w.bump (members.foldl (commonStep io user text) w.bump) ∧
    ∀ a ∈ members, CommonSeen user w.bump (members.foldl (commonStep io user text) w.bump) a := by
  have hstart : Loop w.bump w.bump (w.CommonLoopTarget user text members) := Loop.start h
  exact foldl_seen (commonStep io user text)
    (fun w' => Loop w.bump w' (w.CommonLoopTarget user text members) ∧ ¬ w'.Stamped user)
    (CommonSeen user w.bump) (fun w' a ha hw' => commonStep_loop io ha hw'.1 hw'.2)
    (fun w' w'' a hp hs p hpa ht => (hs p hpa ht).imp hp.stamped fun hd => ⟨hp.mono a hd.1, hd.2⟩)
    ⟨hstart, h user⟩

theorem Loop.congr {w₀ w : Wire} {target target' : ℕ → Str → Prop} (h : Loop w₀ w target)
    (himp : ∀ k, w.Stamped k → ∀ buf, target k buf ↔ target' k buf) : Loop w₀ w target' := by
  obtain ⟨new, hnew, hlog⟩ := h.log
  refine ⟨h.cur, h.fixed, h.mono, h.dead, h.same, new, hnew, fun k => ⟨fun hs => ?_, (hlog k).2⟩⟩
  obtain ⟨buf, ht, hgot⟩ | ⟨hno, hnone⟩ := (hlog k).1 hs
  · exact Or.inl ⟨buf, (himp k hs buf).mp ht, hgot⟩
  · exact Or.inr ⟨hno, fun buf ht => hnone buf ((himp k hs buf).mpr ht)⟩

theorem sentOnce_of_mark {w w' : Wire} {k : ℕ} {target : ℕ → Str → Prop}
    (h : SentOnce w (w'.mark k) target) : SentOnce w w' target := by
  obtain ⟨new, hnew, hno, hall⟩ := h
  refine ⟨new, hnew, hno, fun a ha => ?_⟩
  have := hall a ha
  rwa [any_mark w' k a Peer.defunct fun _ _ => rfl] at this

theorem sentOnce_commonChannelsLocal (h : ∀ k, ¬ w.bump.Stamped k) :
    SentOnce w (w.sendtoCommonChannelsLocal io user touser text channels)
      (w.CommonTarget user touser text channels) := by
  unfold sendtoCommonChannelsLocal
  dsimp only
  rw [← List.foldl_flatten]
  obtain ⟨⟨hloop', hun⟩, -, hseen⟩ :=
    @loop_commonChannelsLocal io w user text channels.flatten h
  generalize channels.flatten.foldl (commonStep io user text) w.bump = w₁ at hloop' hun hseen ⊢
  have hmem : ∀ k, k ∈ channels.flatten ↔ ∃ members ∈ channels, k ∈ members := by
    simp
  have hloop : Loop w.bump w₁ (w.CommonTarget user touser text channels) := by
    refine hloop'.congr fun k hs buf => ?_
    have hne : k ≠ user := by
      rintro rfl
      exact hun hs
    constructor
    · rintro ⟨rfl, hk, p, hp, htakes⟩
      exact ⟨rfl, p, hp, Or.inl ⟨htakes, (hmem k).mp hk⟩⟩
    · rintro ⟨rfl, p, hp, ⟨htakes, hk⟩ | ⟨rfl, -⟩⟩
      · exact ⟨rfl, (hmem k).mpr hk, p, hp, htakes⟩
      · exact absurd rfl hne
  -- everybody in the channels has been seen, which leaves the user
  have hothers : ∀ {w' : Wire}, Persists w₁ w' →
      (∀ p, w.peers user = some p → touser = true → p.myConnect = true → p.dead = false →
        w'.Stamped user ∨ ((w'.peers user).any Peer.defunct = true ∧
          (w.peers user).any Peer.notices = true)) →
      ∀ k buf, w.CommonTarget user touser text channels k buf → w'.Stamped k ∨
        ((w'.peers k).any Peer.defunct = true ∧ (w.bump.peers k).any Peer.notices = true) := by
    rintro w' hp huser k buf ⟨-, p, hpk, ⟨htakes, hk⟩ | ⟨rfl, ht, hmine, halive⟩⟩
    · refine (hseen k ((hmem k).mpr hk) p hpk htakes).imp hp.stamped fun hd =>
        ⟨hp.mono k hd.1, ?_⟩
      rw [show w.bump.peers k = some p from hpk]
      exact hd.2
    · exact huser p hpk ht hmine halive
  cases hp : w₁.peers user with
  | none =>
      dsimp only
      refine hloop.sentOnce (hothers (Persists.refl w₁) fun p hpu _ _ _ => ?_)
      have := hloop.isSome user
      rw [hp, show w.bump.peers user = some p from hpu] at this
      cases this
  | some p =>
      have hfree := unmarked_of_not_stamped (by rw [hp]; rfl) hun
      dsimp only
      split
      · have hw := handled_sendMessage io w₁ hp (sendLine text)
        rename_i hcond
        obtain ⟨p₀, hp₀, hf, -⟩ := hloop.exists_start hp
        have hconnect : p.myConnect = p₀.myConnect := by rw [Peer.eq_of_fixed hf]
        have halive : p₀.dead = false := by
          by_contra hdead
          have := hloop.dead user (by rw [hp₀]; simpa using hdead)
          rw [hp] at this
          exact absurd this (by simp [hcond.2.2.1])
        have htarget : w.CommonTarget user touser text channels user (sendLine text) :=
          ⟨rfl, p₀, hp₀, Or.inr ⟨rfl, hcond.1, hconnect ▸ hcond.2.1, halive⟩⟩
        have hend : Loop w.bump ((w₁.sendMessage io user (.message (sendLine text))).mark user)
            (w.CommonTarget user touser text channels) :=
          hloop.handled hfree hw fun new hr => Or.inl ⟨_, htarget, hr⟩
        exact @sentOnce_of_mark _ _ user _ (hend.sentOnce (hothers
          (hw.persists (by rw [hp]; rfl)) fun _ _ _ _ _ =>
            Or.inl (hw.stamped_self (by rw [hp]; rfl))))
      · rename_i hcond
        refine hloop.sentOnce (hothers (Persists.refl w₁) fun p₀ hp₀ ht hmine halive => ?_)
        have hdead : p.dead = true := by
          by_contra hne
          obtain ⟨q, hq, hf, -⟩ := hloop.exists_start hp
          rw [show w.bump.peers user = some p₀ from hp₀] at hq
          have hconnect : p.myConnect = q.myConnect := by rw [Peer.eq_of_fixed hf]
          rw [← Option.some.inj hq, hmine] at hconnect
          exact hcond ⟨ht, hconnect, by simpa using hne, hfree⟩
        refine Or.inr ⟨by rw [hp]; simp [Peer.defunct, hdead], ?_⟩
        by_contra hn
        have hsame := hloop.same user hun (Bool.eq_false_iff.mpr hn)
        rw [hp, show w.bump.peers user = some p₀ from hp₀] at hsame
        rw [Option.some.inj hsame, halive] at hdead
        cases hdead

end Common

/-- No stamp exceeds the counter. -/
def StampsBelow (n : ℕ) (w : Wire) : Prop :=
  w.currentSerial = n ∧ ∀ a p, w.peers a = some p → p.serial ≤ n

theorem Persists.stampsBelow {w w' : Wire} {n : ℕ} (h : Persists w w') (hw : StampsBelow n w) :
    StampsBelow n w' := by
  refine ⟨h.cur.trans hw.1, fun a p hp => ?_⟩
  obtain hs | hs := h.serial a
  · rw [hp] at hs
    obtain ⟨q, hq, hserial⟩ := Option.map_eq_some_iff.mp hs.symm
    exact hserial ▸ hw.2 a q hq
  · rw [hp] at hs
    exact (Option.some.inj hs).trans hw.1 ▸ Nat.le_refl n

theorem stampsBelow_bump {w : Wire} {n : ℕ} (hw : StampsBelow n w) (hn : n + 1 < SERIAL_RANGE) :
    StampsBelow (n + 1) w.bump :=
  ⟨by rw [bump, hw.1, Nat.mod_eq_of_lt hn], fun a p hp => Nat.le_succ_of_le (hw.2 a p hp)⟩

theorem not_stamped_bump {w : Wire} {n : ℕ} (hw : StampsBelow n w) (hn : n + 1 < SERIAL_RANGE)
    (k : ℕ) : ¬ w.bump.Stamped k := by
  intro hs
  obtain ⟨p, hp, hserial⟩ := (Option.any_eq_true _ _).mp hs
  have hle := hw.2 k p hp
  have hcur : w.bump.currentSerial = n + 1 := (stampsBelow_bump hw hn).1
  rw [hcur, beq_iff_eq] at hserial
  omega

theorem persists_foldl {α : Type*} {step : Wire → α → Wire} (h : ∀ w a, Persists w (step w a))
    (items : List α) (w : Wire) : Persists w (items.foldl step w) := by
  induction items generalizing w with
  | nil => exact Persists.refl w
  | cons a items ih => exact (h w a).trans (ih _)

theorem persists_mark (k : ℕ) : Persists w (w.mark k) := by
  refine ⟨rfl, fun a => ?_, fun a ha => by rwa [any_mark w k a Peer.defunct fun _ _ => rfl]⟩
  by_cases ha : a = k
  · subst ha
    rw [peers_mark_self, Option.map_map]
    cases hp : w.peers a with
    | none => exact Or.inl rfl
    | some p => exact Or.inr rfl
  · rw [peers_mark_ne w k a ha]
    exact Or.inl rfl

theorem persists_sendMessage (k : ℕ) (buf : Str) :
    Persists w (w.sendMessage io k (.message buf)) := by
  cases hp : w.peers k with
  | none =>
      unfold sendMessage
      rw [hp]
      exact Persists.refl w
  | some p => exact (sendMessage_outcome io w hp buf).1.persists

theorem persists_sendMessageRemote (source : Client) (k : ℕ) (buf : Str) :
    Persists w (w.sendMessageRemote io source k (.message buf)) := by
  unfold sendMessageRemote
  split
  · exact Persists.refl w
  · split
    · exact persists_sendMessage io w k buf
    · exact (grows_sendtoRealops io w _).persists

theorem persists_butoneStep (one : ℕ) (x : ChannelMessage) (bwSaver : Bool) (now : ℤ) (w : Wire)
    (a : ℕ) : Persists w (butoneStep io one x bwSaver now w a) := by
  unfold butoneStep
  split
  · exact Persists.refl w
  · split
    · split
      · split
        · exact (persists_sendMessage io w _ _).trans (persists_mark _ _)
        · exact Persists.refl w
      · split
        · exact Persists.refl w
        · split
          · exact (persists_sendMessageRemote io w _ _ _).trans (persists_mark _ _)
          · exact Persists.refl w
    · exact Persists.refl w

theorem persists_remoteStep (one : ℕ) (type : MemberFlags) (caps nocaps : ℕ) (text : Str) (w : Wire)
    (a : ℕ × MemberFlags) : Persists w (remoteStep io one type caps nocaps text w a) := by
  unfold remoteStep
  split
  · exact Persists.refl w
  · split
    · split
      · exact Persists.refl w
      · split
        · split
          · exact (persists_sendMessage io w _ _).trans (persists_mark _ _)
          · exact Persists.refl w
        · exact Persists.refl w
    · exact Persists.refl w

theorem persists_commonStep (user : ℕ) (text : Str) (w : Wire) (a : ℕ) :
    Persists w (commonStep io user text w a) := by
  unfold commonStep
  split
  · exact Persists.refl w
  · split
    · split
      · exact (persists_mark w a).trans (persists_sendMessage io _ _ _)
      · exact Persists.refl w
    · exact Persists.refl w

theorem persists_matchStep (source : Client) (mask : Str) (cap : ℕ) (text : Str) (w : Wire) (a : ℕ) :
    Persists w (matchStep io source mask cap text w a) := by
  unfold matchStep
  split
  · exact Persists.refl w
  · split
    · split
      · exact Persists.refl w
      · split
        · exact (persists_mark w _).trans (persists_sendMessage io _ _ _)
        · exact persists_mark w _
    · exact Persists.refl w

theorem persists_commonChannelsLocal (user : ℕ) (touser : Bool) (text : Str)
    (channels : List (List ℕ)) :
    Persists w.bump (w.sendtoCommonChannelsLocal io user touser text channels) := by
  have hloop := persists_foldl (fun w members =>
    persists_foldl (persists_commonStep io user text) members w) channels w.bump
  unfold sendtoCommonChannelsLocal
  dsimp only
  split
  · exact hloop
  · split
    · exact hloop.trans (persists_sendMessage io _ _ _)
    · exact hloop

theorem stampsBelow_step {w : Wire} {n : ℕ} (hw : StampsBelow n w) (e : WireEvent)
    (hn : n + (if e.bumps then 1 else 0) < SERIAL_RANGE) :
    StampsBelow (n + if e.bumps then 1 else 0) (w.step e) := by
  cases e with
  | connect a p =>
      refine ⟨hw.1, fun b q hq => ?_⟩
      simp only [step, Function.update_apply] at hq
      split at hq
      · rw [← Option.some.inj hq]
        exact Nat.zero_le n
      · exact hw.2 b q hq
  | change a f =>
      refine ⟨hw.1, fun b q hq => ?_⟩
      simp only [step, updPeer, Function.update_apply] at hq
      split at hq
      · obtain ⟨p, hp, rfl⟩ := Option.map_eq_some_iff.mp hq
        exact hw.2 a p hp
      · exact hw.2 b q hq
  | exit a =>
      refine ⟨hw.1, fun b q hq => ?_⟩
      simp only [step, Function.update_apply] at hq
      split at hq
      · cases hq
      · exact hw.2 b q hq
  | opers operList => exact hw
  | channelButone io one x bwSaver now members =>
      exact (persists_foldl (persists_butoneStep io one x bwSaver now) members _).stampsBelow
        (stampsBelow_bump hw hn)
  | channelRemote io one type caps nocaps text members =>
      exact (persists_foldl (persists_remoteStep io one type caps nocaps text) members _).stampsBelow
        (stampsBelow_bump hw hn)
  | commonChannelsLocal io user touser text channels =>
      exact (persists_commonChannelsLocal io w user touser text channels).stampsBelow
        (stampsBelow_bump hw hn)
  | matchServs io source mask cap text servers =>
      exact (persists_foldl (persists_matchStep io source mask cap text) servers _).stampsBelow
        (stampsBelow_bump hw hn)

theorem stampsBelow_run (es : List WireEvent) {w : Wire} {n : ℕ} (hw : StampsBelow n w)
    (hn : n + es.countP WireEvent.bumps < SERIAL_RANGE) :
    StampsBelow (n + es.countP WireEvent.bumps) (es.foldl step w) := by
  induction es generalizing w n with
  | nil => exact hw
  | cons e es ih =>
      have hcount : n + (e :: es).countP WireEvent.bumps =
          n + (if e.bumps = true then 1 else 0) + es.countP WireEvent.bumps := by
        rw [List.countP_cons]
        omega
      rw [hcount] at hn ⊢
      exact ih (stampsBelow_step hw e (by omega)) hn

theorem stampsBelow_init (me : Str) : StampsBelow 0 (init me) :=
  ⟨rfl, fun _ _ h => by cases h⟩

theorem not_stamped_run (me : Str) (es : List WireEvent)
    (h : es.countP WireEvent.bumps + 1 < SERIAL_RANGE) (k : ℕ) :
    ¬ (es.foldl step (init me)).bump.Stamped k := by
  have hrun := stampsBelow_run es (stampsBelow_init me) (by omega)
  exact not_stamped_bump hrun (by omega) k

/-- A local client with room for `maxSendq` bytes. -/
def localPeer (a maxSendq : ℕ) : Peer where
  name := ['a']
  shown := ['a']
  from_ := a
  myConnect := true
  server := false
  dead := false
  closing := false
  deaf := false
  away := false
  last := 0
  caps := 0
  umodeAll := false
  serial := 0
  sendq := 0
  maxSendq := maxSendq

def roomMessage : ChannelMessage :=
  ⟨Client.make ['b'] true true, "PRIVMSG".toList, "#c".toList, ":hello".toList⟩

end Wire

end Unirc
