import Unirc.ChannelPrivilege
import Unirc.SjoinRelay

/-!
# What servers agree on about a channel

The view of a channel is its record with the members and their flags, without the verdicts that a
server keeps about its own users. An SJOIN acts on the view alone.
-/

namespace Unirc

open MemberFlag

/-- The record of a channel and its members, each with its flags. -/
structure ChannelView where
  channel : Channel
  roster : List (ℕ × MemberFlags)

namespace ChannelView

variable (v : ChannelView)

/-- A new member; who is one already stays as it is. -/
def join (x : ℕ × MemberFlags) : ChannelView :=
  if x.1 ∈ v.roster.map Prod.fst then v else { v with roster := x :: v.roster }

def stamp (ts : ℤ) (mode : Mode) : ChannelView :=
  { v with channel := { v.channel with channelts := ts, mode := mode } }

/-- The members without status. -/
def strip : ChannelView := { v with roster := v.roster.map fun x => (x.1, x.2 \ statusFlags) }

/-- The channel without masks. -/
def clear : ChannelView :=
  { v with channel := { v.channel with banlist := [], exceptlist := [], invexlist := [] } }

/-- An SJOIN with the members that it adds. -/
def sjoin (verdict : TsVerdict) (mode : Mode) (clears : Bool) (members : List (ℕ × MemberFlags)) :
    ChannelView :=
  let w := members.foldl join
    ((if verdict.keepOurModes then v else v.strip).stamp verdict.channelts mode)
  if clears = true ∧ verdict.keepOurModes = false then w.clear else w

variable {v}

theorem join_of_mem {x : ℕ × MemberFlags} (h : x.1 ∈ v.roster.map Prod.fst) : v.join x = v :=
  if_pos h

theorem join_of_not_mem {x : ℕ × MemberFlags} (h : x.1 ∉ v.roster.map Prod.fst) :
    v.join x = { v with roster := x :: v.roster } := if_neg h

theorem mem_roster_join {a : ℕ} (x : ℕ × MemberFlags) :
    a ∈ (v.join x).roster.map Prod.fst ↔ a = x.1 ∨ a ∈ v.roster.map Prod.fst := by
  by_cases h : x.1 ∈ v.roster.map Prod.fst
  · rw [join_of_mem h]
    refine ⟨Or.inr, fun ha => ha.elim (fun heq => heq ▸ h) id⟩
  · rw [join_of_not_mem h, List.map_cons, List.mem_cons]

theorem sjoin_eq (verdict : TsVerdict) (mode : Mode) (clears : Bool)
    (members : List (ℕ × MemberFlags)) : v.sjoin verdict mode clears members =
      if clears = true ∧ verdict.keepOurModes = false then
        (v.sjoin verdict mode false members).clear
      else v.sjoin verdict mode false members := by
  have hfalse : v.sjoin verdict mode false members = members.foldl join
      ((if verdict.keepOurModes then v else v.strip).stamp verdict.channelts mode) := by
    simp [sjoin]
  rw [hfalse]
  rfl

theorem roster_foldl_join_ne_nil (v : ChannelView) {members : List (ℕ × MemberFlags)}
    (h : members ≠ []) : (members.foldl join v).roster ≠ [] := by
  have hjoin : ∀ (xs : List (ℕ × MemberFlags)) (w : ChannelView), w.roster ≠ [] →
      (xs.foldl join w).roster ≠ [] := by
    intro xs
    induction xs with
    | nil => exact fun w hw => hw
    | cons x xs ih =>
        intro w hw
        refine ih (w.join x) fun hnil => ?_
        obtain ⟨y, ys, hys⟩ := List.exists_cons_of_ne_nil hw
        have hmem : y.1 ∈ (w.join x).roster.map Prod.fst :=
          (mem_roster_join x).mpr (Or.inr (by simp [hys]))
        simp [hnil] at hmem
  obtain ⟨x, xs, rfl⟩ := List.exists_cons_of_ne_nil h
  refine hjoin xs (v.join x) fun hnil => ?_
  have hmem : x.1 ∈ (v.join x).roster.map Prod.fst := (mem_roster_join x).mpr (Or.inl rfl)
  simp [hnil] at hmem

theorem roster_sjoin_ne_nil {verdict : TsVerdict} {mode : Mode} {clears : Bool}
    {members : List (ℕ × MemberFlags)} (h : members ≠ []) :
    (v.sjoin verdict mode clears members).roster ≠ [] := by
  unfold sjoin
  dsimp only
  split
  · exact roster_foldl_join_ne_nil _ h
  · exact roster_foldl_join_ne_nil _ h

/-- The same channel on two servers, where `known` tells the number that the second server has for
a client of the first. -/
structure Same (known : ℕ → ℕ) (v w : ChannelView) : Prop where
  channel : w.channel = v.channel
  roster : w.roster.Perm (v.roster.map fun x => (known x.1, x.2))

namespace Same

variable {known : ℕ → ℕ} {people : Set ℕ} {w : ChannelView}

theorem mem_iff (h : Same known v w) (hinj : Set.InjOn known people)
    (hv : ∀ a ∈ v.roster.map Prod.fst, a ∈ people) {a : ℕ} (ha : a ∈ people) :
    known a ∈ w.roster.map Prod.fst ↔ a ∈ v.roster.map Prod.fst := by
  have hclients : (w.roster.map Prod.fst).Perm ((v.roster.map Prod.fst).map known) := by
    simpa [Function.comp_def] using h.roster.map Prod.fst
  rw [hclients.mem_iff, List.mem_map]
  constructor
  · rintro ⟨b, hb, heq⟩
    exact hinj (hv b hb) ha heq ▸ hb
  · exact fun hmem => ⟨a, hmem, rfl⟩

theorem join (h : Same known v w) (hinj : Set.InjOn known people)
    (hv : ∀ a ∈ v.roster.map Prod.fst, a ∈ people) {x : ℕ × MemberFlags} (hx : x.1 ∈ people) :
    Same known (v.join x) (w.join (known x.1, x.2)) := by
  have hiff := h.mem_iff hinj hv hx
  by_cases hmem : x.1 ∈ v.roster.map Prod.fst
  · rwa [join_of_mem hmem, join_of_mem (v := w) (x := (known x.1, x.2)) (hiff.mpr hmem)]
  · rw [join_of_not_mem hmem,
      join_of_not_mem (v := w) (x := (known x.1, x.2)) fun hw => hmem (hiff.mp hw)]
    exact ⟨h.channel, h.roster.cons _⟩

theorem foldl_join (h : Same known v w) (hinj : Set.InjOn known people)
    (hv : ∀ a ∈ v.roster.map Prod.fst, a ∈ people) {xs : List (ℕ × MemberFlags)}
    (hxs : ∀ x ∈ xs, x.1 ∈ people) :
    Same known (xs.foldl ChannelView.join v)
      ((xs.map fun x => (known x.1, x.2)).foldl ChannelView.join w) := by
  induction xs generalizing v w with
  | nil => exact h
  | cons x xs ih =>
      have hstep := h.join hinj hv (hxs x List.mem_cons_self)
      refine ih hstep (fun a ha => ?_) fun y hy => hxs y (List.mem_cons_of_mem x hy)
      rcases (mem_roster_join x).mp ha with rfl | ha
      · exact hxs x List.mem_cons_self
      · exact hv a ha

theorem stamp (h : Same known v w) (ts : ℤ) (mode : Mode) :
    Same known (v.stamp ts mode) (w.stamp ts mode) where
  channel := by simp only [ChannelView.stamp, h.channel]
  roster := h.roster

theorem strip (h : Same known v w) : Same known v.strip w.strip where
  channel := h.channel
  roster := by
    have hmap := h.roster.map fun x => (x.1, x.2 \ statusFlags)
    simpa [ChannelView.strip, Function.comp_def] using hmap

theorem clear (h : Same known v w) : Same known v.clear w.clear where
  channel := by simp only [ChannelView.clear, h.channel]
  roster := h.roster

/-- The same SJOIN on both servers. -/
theorem sjoin (h : Same known v w) (hinj : Set.InjOn known people)
    (hv : ∀ a ∈ v.roster.map Prod.fst, a ∈ people) {xs : List (ℕ × MemberFlags)}
    (hxs : ∀ x ∈ xs, x.1 ∈ people) (verdict : TsVerdict) (mode : Mode) (clears : Bool) :
    Same known (v.sjoin verdict mode clears xs)
      (w.sjoin verdict mode clears (xs.map fun x => (known x.1, x.2))) := by
  have hbase : Same known (if verdict.keepOurModes then v else v.strip)
      (if verdict.keepOurModes then w else w.strip) := by
    split
    · exact h
    · exact h.strip
  have hpeople : ∀ a ∈ ((if verdict.keepOurModes then v else v.strip).stamp verdict.channelts
      mode).roster.map Prod.fst, a ∈ people := by
    intro a ha
    refine hv a ?_
    split at ha
    · exact ha
    · simpa [ChannelView.stamp, ChannelView.strip, Function.comp_def] using ha
  have hjoin := (hbase.stamp verdict.channelts mode).foldl_join hinj hpeople hxs
  unfold ChannelView.sjoin
  dsimp only
  split
  · exact hjoin.clear
  · exact hjoin

end Same

end ChannelView

end Unirc
