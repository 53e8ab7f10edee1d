import Mathlib.Data.List.Perm.Subperm
import Unirc.MainLoopDependents

/-!
# The end of a round

`exit_aborted_clients` comes to an end with an empty list although the list grows on the way: every
client comes to it at most once. What has exited is freed after that, when nothing refers to it.
-/

namespace Unirc

namespace MainLoop

/-- Nobody is in the middle of an exit. -/
abbrev Idle (s : MainLoop) : Prop := s.Filed fun _ => False

variable {s : MainLoop} {c : ℕ} {k : ClientRecord}

theorem Filed.takeAborted {l : List ℕ} {e : Option ℕ} (h : s.Idle) (hab : s.abortList = c :: l) :
    ({ s with eacNext := e, abortList := l } : MainLoop).Filed fun x => x = c := {
  (h.relax fun _ hx => hx.elim : s.Filed fun x => x = c) with
  aborted := fun x hx => h.aborted x (hab ▸ List.mem_cons_of_mem c hx)
  abortedNodup := (List.nodup_cons.mp (hab ▸ h.abortedNodup)).2
  marked := fun x k hk hd hexited => by
    rcases h.marked x k hk hd hexited with hx | hx
    · rw [hab] at hx
      exact (List.mem_cons.mp hx).symm
    · exact hx.elim }

/-- A client that waits on the list of aborted clients has exited, or it does now. -/
theorem Filed.exitAborted {l : List ℕ} {e : Option ℕ} (h : s.Idle) (hab : s.abortList = c :: l) :
    let t : MainLoop := { s with eacNext := e, abortList := l }
    (t.exitClient c).Idle ∧ Progress t (t.exitClient c) ∧ c ∈ (t.exitClient c).exited := by
  intro t
  have ht : t.Filed fun x => x = c := h.takeAborted hab
  obtain ⟨k, hk, hd, hmy, hst⟩ := h.aborted c (hab ▸ List.mem_cons_self)
  by_cases hexited : c ∈ s.exited
  · have hdeadList : c ∈ s.deadList := ((h.left c).mp hexited).resolve_right fun hf => by
      rw [h.gone c hf] at hk
      cases hk
    obtain ⟨k', hk', -, hcl⟩ := h.waiting c hdeadList
    cases hk'.symm.trans hk
    have hsame : t.exitClient c = t := by
      unfold MainLoop.exitClient
      split
      · rename_i hnone
        cases hk.symm.trans hnone
      · rename_i k' hk'
        cases hk'.symm.trans hk
        rw [if_pos (by rw [hmy, hcl hmy]; rfl)]
    rw [hsame]
    exact ⟨ht.relax fun x hx => .inr (hx ▸ hexited), (Sent.refl t).progress, hexited⟩
  · have hopen : k.myConnect = true → k.closing = false := by
      intro _
      rw [← Bool.not_eq_true]
      intro hcl
      exact (h.closing c k hk hmy hcl).elim hexited id
    obtain ⟨hfiled, hprogress, hgone⟩ := ht.exitClient (fun x hx => Nat.le_of_eq hx) hk hexited
      hopen hst
    exact ⟨hfiled.relax fun x hx => .inr (hx ▸ hgone), hprogress, hgone⟩

theorem nextAborted_cons {l : List ℕ} (hab : s.abortList = c :: l) :
    s.nextAborted c = l.head? := by
  rw [nextAborted, hab, List.dropWhile_cons_of_neg (by simp)]
  rfl

/-- The clients that the loop has been through. -/
structure Walked (done : List ℕ) (s : MainLoop) : Prop where
  idle : s.Idle
  nodup : (done ++ s.abortList).Nodup
  dead : ∀ x ∈ done, s.DeadAt x

theorem Walked.length_le {done : List ℕ} (h : Walked done s) :
    done.length + s.abortList.length ≤ s.next := by
  have hsub : done ++ s.abortList ⊆ List.range s.next := by
    intro x hx
    rw [List.mem_range]
    rcases List.mem_append.mp hx with hx | hx
    · obtain ⟨k, hk, -⟩ := h.dead x hx
      exact h.idle.lt_next hk
    · obtain ⟨k, hk, -⟩ := h.idle.aborted x hx
      exact h.idle.lt_next hk
  have hle := (List.subperm_of_subset h.nodup hsub).length_le
  rwa [List.length_append, List.length_range] at hle

theorem Walked.exitAbortedLoop {done : List ℕ} {fuel : ℕ} (h : Walked done s)
    (hfuel : s.next ≤ fuel + done.length) :
    ∃ s', MainLoop.exitAbortedLoop fuel s.abortList.head? s = some s' ∧ s'.Idle ∧
      s'.abortList = [] ∧ s'.freed = s.freed ∧ s.exited ⊆ s'.exited ∧
        ∀ x, s.DeadAt x → s'.DeadAt x := by
  induction fuel generalizing s done with
  | zero =>
      have hnil : s.abortList = [] := by
        have := h.length_le
        exact List.eq_nil_of_length_eq_zero (by omega)
      rw [hnil]
      exact ⟨s, rfl, h.idle, hnil, rfl, List.Subset.refl _, fun _ => id⟩
  | succ fuel ih =>
      cases hab : s.abortList with
      | nil => exact ⟨s, rfl, h.idle, hab, rfl, List.Subset.refl _, fun _ => id⟩
      | cons c l =>
          rw [List.head?_cons, MainLoop.exitAbortedLoop,
            check_of (decide_eq_true (hab ▸ List.mem_cons_self)), nextAborted_cons hab, hab,
            List.erase_cons_head]
          obtain ⟨hidle, hprogress, -⟩ := h.idle.exitAborted (e := l.head?) hab
          set t : MainLoop :=
            ({ s with eacNext := l.head?, abortList := l } : MainLoop).exitClient c
          set t' : MainLoop := { t with eacNext := t.eacNext.bind t.nextAborted }
          have hhead : t.eacNext = t'.abortList.head? := hprogress.aborts.head rfl
          have hdeadAt : ∀ x, x = c ∨ x ∈ done → s.DeadAt x := by
            rintro x (rfl | hx)
            · obtain ⟨k, hk, hd, -⟩ := h.idle.aborted x (hab ▸ List.mem_cons_self)
              exact ⟨k, hk, hd⟩
            · exact h.dead x hx
          have hnodup : (c :: done ++ l).Nodup :=
            List.perm_middle.nodup_iff.mp (hab ▸ h.nodup)
          have hwalked : Walked (c :: done) t' := {
            idle := { hidle with }
            nodup := by
              obtain ⟨hdone, -, -⟩ := List.nodup_append.mp hnodup
              refine List.Nodup.append hdone hidle.abortedNodup fun x hx hab' => ?_
              rcases hprogress.aborts.fresh x hab' with hl | hfresh
              · exact List.disjoint_of_nodup_append hnodup hx hl
              · exact hfresh (hdeadAt x (List.mem_cons.mp hx))
            dead := fun x hx => hprogress.aborts.stays x (hdeadAt x (List.mem_cons.mp hx)) }
          have hfuel' : t'.next ≤ fuel + (c :: done).length := by
            have hnext : t'.next = s.next := hprogress.next
            rw [hnext, List.length_cons]
            omega
          obtain ⟨s', hloop, hs', hnil, hfreed, hexited, hstays⟩ := ih hwalked hfuel'
          rw [hhead]
          exact ⟨s', hloop, hs', hnil, hfreed.trans hprogress.freed,
            List.Subset.trans hprogress.exited hexited,
            fun x hx => hstays x (hprogress.aborts.stays x hx)⟩

/-- `exit_aborted_clients` comes to an end, and then every client whose link was dead before or died
on the way has exited. -/
theorem Filed.exitAbortedClients (h : s.Idle) : ∃ s', s.exitAbortedClients = some s' ∧ s'.Idle ∧
    s'.abortList = [] ∧ s'.freed = s.freed ∧ s.exited ⊆ s'.exited ∧
      ∀ c, s.DeadAt c ∨ s'.DeadAt c → c ∈ s'.exited := by
  have hwalked : Walked []
      { s with eacNext := s.abortList.head?.bind s.nextAborted } :=
    ⟨{ h with }, h.abortedNodup, fun x hx => absurd hx List.not_mem_nil⟩
  obtain ⟨s', hloop, hs', hnil, hfreed, hexited, hstays⟩ :=
    hwalked.exitAbortedLoop (Nat.le_refl _)
  refine ⟨s', hloop, hs', hnil, hfreed, hexited, fun c hc => ?_⟩
  obtain ⟨k, hk, hd⟩ := hc.elim (hstays c) id
  by_contra hc
  rcases hs'.marked c k hk hd hc with hab | hbusy
  · exact List.not_mem_nil (hnil ▸ hab)
  · exact hbusy

/-- The memory of a client, without the assertions of `free_client`. -/
def release (s : MainLoop) (c : ℕ) : MainLoop :=
  { s with
    client := Function.update s.client c none
    deadList := s.deadList.erase c
    freed := s.freed ++ [c] }

theorem Filed.release (h : s.Idle) (hab : s.abortList = []) (hdead : c ∈ s.deadList) :
    (s.release c).Idle := by
  have hexited : c ∈ s.exited := (h.left c).mpr (.inl hdead)
  obtain ⟨k, hk, -⟩ := h.waiting c hdead
  have hfreed : c ∉ s.freed := fun hf => by
    rw [h.gone c hf] at hk
    cases hk
  have hother : ∀ x, x ≠ c → (s.release c).client x = s.client x := fun x hx =>
    Function.update_of_ne hx ..
  have hself : (s.release c).client c = none := Function.update_self ..
  have hlive : ∀ {p : ClientRecord → Prop} {x : ℕ}, s.Live p x → (s.release c).Live p x := by
    intro p x hx
    obtain ⟨k', hk', hp, he⟩ := hx
    exact ⟨k', (hother x fun hxc => he (hxc ▸ hexited)).trans hk', hp, he⟩
  have hold : ∀ x k', (s.release c).client x = some k' → s.client x = some k' := by
    intro x k' hk'
    have hx : x ≠ c := fun hxc => by
      rw [hxc, hself] at hk'
      cases hk'
    exact (hother x hx).symm.trans hk'
  exact {
    isMe := hlive h.isMe
    onlyMe := fun x k' hk' => h.onlyMe x k' (hold x k' hk')
    fresh := fun x hx => by
      obtain ⟨hnone, he⟩ := h.fresh x hx
      exact ⟨(hother x fun hxc => he (hxc ▸ hexited)).trans hnone, he⟩
    once := h.once
    dead := h.dead.erase c
    freedOnce := h.freedOnce.append (List.nodup_singleton c) (by simpa using hfreed)
    left := fun x => by
      change x ∈ s.exited ↔ x ∈ s.deadList.erase c ∨ x ∈ s.freed ++ [c]
      rw [h.left, List.mem_append, List.mem_singleton, h.dead.mem_erase_iff]
      by_cases hx : x = c
      · simp [hx, hdead]
      · simp [hx]
    gone := fun x hx => by
      rcases List.mem_append.mp hx with hx | hx
      · rw [hother x fun hxc => hfreed (hxc ▸ hx)]
        exact h.gone x hx
      · rw [List.mem_singleton.mp hx]
        exact hself
    waiting := fun x hx => by
      obtain ⟨hne, hx⟩ := (h.dead.mem_erase_iff).mp hx
      rw [hother x hne]
      exact h.waiting x hx
    listed := fun L x hx => hlive (h.listed L x hx)
    nodup := h.nodup
    last := h.last
    closing := fun x k' hk' => h.closing x k' (hold x k' hk')
    user := fun p x hx => hlive (h.user p x hx)
    server := fun p x hx => hlive (h.server p x hx)
    usersNodup := h.usersNodup
    serversNodup := h.serversNodup
    child := fun x k' hk' => h.child x k' (hold x k' hk')
    parent := fun x k' hk' he hst => by
      obtain ⟨hlt, hp, hmy⟩ := h.parent x k' (hold x k' hk') he hst
      exact ⟨hlt, hlive hp, hmy⟩
    member := fun m hm => hlive (h.member m hm)
    accept := fun a ha => ⟨hlive (h.accept a ha).1, hlive (h.accept a ha).2⟩
    invite := fun i hi => hlive (h.invite i hi)
    aborted := fun x hx => absurd (hab ▸ hx : x ∈ []) List.not_mem_nil
    abortedNodup := h.abortedNodup
    marked := fun x k' hk' => h.marked x k' (hold x k' hk')
    faults := h.faults }

/-- Nothing refers to a client that has exited when it is freed. -/
theorem Filed.freeClient (h : s.Idle) (hdead : c ∈ s.deadList) : s.freeClient c = s.release c := by
  have hexited : c ∈ s.exited := (h.left c).mpr (.inl hdead)
  obtain ⟨k, hk, hd, hcl⟩ := h.waiting c hdead
  have hmembers : (s.members.all fun m => m.2 ≠ c) = true := by
    rw [List.all_eq_true]
    exact fun m hm => decide_eq_true fun he => (h.member m hm).not_exited (he ▸ hexited)
  have hinvites : (s.invites.all fun i => i.2 ≠ c) = true := by
    rw [List.all_eq_true]
    exact fun i hi => decide_eq_true fun he => (h.invite i hi).not_exited (he ▸ hexited)
  have hclosed : (!k.myConnect || (k.closing && k.dead &&
      s.invites.all fun i => i.2 ≠ c)) = true := by
    cases hmy : k.myConnect with
    | false => rfl
    | true => rw [hd, hcl hmy, hinvites]; rfl
  unfold MainLoop.freeClient
  split
  · rename_i hnone
    cases hk.symm.trans hnone
  · rename_i k' hk'
    cases hk'.symm.trans hk
    rw [check_of hmembers]
    dsimp only
    rw [check_of hclosed]
    rfl

/-- After `free_exited_clients` every client that has exited is freed. -/
theorem Filed.freeExitedClients (h : s.Idle) (hab : s.abortList = []) :
    s.freeExitedClients.Idle ∧ s.freeExitedClients.exited = s.exited ∧
      s.freeExitedClients.freed = s.freed ++ s.deadList ∧ s.freeExitedClients.deadList = [] := by
  have hfold : ∀ (l : List ℕ) (t : MainLoop), t.Idle → t.abortList = [] → t.deadList = l →
      (l.foldl MainLoop.freeClient t).Idle ∧ (l.foldl MainLoop.freeClient t).exited = t.exited ∧
        (l.foldl MainLoop.freeClient t).freed = t.freed ++ l ∧
        (l.foldl MainLoop.freeClient t).deadList = [] := by
    intro l
    induction l with
    | nil => exact fun t ht _ hdead => ⟨ht, rfl, (List.append_nil _).symm, hdead⟩
    | cons c l ih =>
        intro t ht hab hdead
        have hc : c ∈ t.deadList := hdead ▸ List.mem_cons_self
        have hrest : (t.release c).deadList = l := by
          change t.deadList.erase c = l
          rw [hdead, List.erase_cons_head]
        rw [List.foldl_cons, ht.freeClient hc]
        obtain ⟨hidle, hexited, hfreed, hnil⟩ := ih (t.release c) (ht.release hab hc) hab hrest
        refine ⟨hidle, hexited, hfreed.trans ?_, hnil⟩
        change (t.freed ++ [c]) ++ l = _
        rw [List.append_assoc]
        rfl
  exact hfold s.deadList s h hab rfl

/-- A round ends, and whoever had exited is freed. -/
theorem Filed.lap (h : s.Idle) : ∃ s', s.lap = some s' ∧ s'.Idle ∧ s.exited ⊆ s'.freed := by
  obtain ⟨t, ht, hidle, hab, -, hexited, -⟩ := h.exitAbortedClients
  obtain ⟨hfreeIdle, -, hfreed, -⟩ := hidle.freeExitedClients hab
  obtain ⟨hsend, hsent⟩ := hfreeIdle.send
  refine ⟨t.freeExitedClients.send, by rw [MainLoop.lap, ht]; rfl, hsend, fun c hc => ?_⟩
  rw [hsent.freed, hfreed, List.mem_append]
  exact ((hidle.left c).mp (hexited hc)).symm

end MainLoop

end Unirc
