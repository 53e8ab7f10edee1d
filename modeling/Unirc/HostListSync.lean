import Mathlib.Data.Multiset.MapFold
import Unirc.HostLists
import Unirc.Replicas
import Unirc.Runs

/-!
# Agreement of two linked servers

The lists of services on two servers with a link. Changes come to either of them from its other
neighbours and cross the link in the order they were made.
-/

namespace Unirc

/-- The lists of the two servers, and the lines on the way to each of them. -/
structure HostNet where
  hosts : Bool → List Str
  wire : Bool → List Str

/-- A server reads a line of another neighbour or the next line of the other server. -/
inductive HostEvent
  | command (s : Bool) (privileged : Bool) (source line : Str)
  | deliver (s : Bool) (source : Str)

namespace HostNet

variable (l : HostList)

/-- A server with a list is linked to one that has none. -/
def link (hosts : List Str) : HostNet where
  hosts s := if s then [] else hosts
  wire s := if s then l.burst hosts else []

def step (net : HostNet) : HostEvent → HostNet
  | .command s privileged source line =>
      match (l.read line).bind fun op => l.handle op privileged source (net.hosts s) with
      | none => net
      | some (hosts, out) =>
          { hosts := Function.update net.hosts s hosts
            wire := Function.update net.wire (!s) (net.wire (!s) ++ [out]) }
  | .deliver s source =>
      match net.wire s with
      | [] => net
      | line :: rest =>
          match (l.read line).bind fun op => l.handle op true source (net.hosts s) with
          | none => { net with wire := Function.update net.wire s rest }
          | some (hosts, _) =>
              { hosts := Function.update net.hosts s hosts
                wire := Function.update net.wire s rest }

def Idle (net : HostNet) : Prop := ∀ s, net.wire s = []

/-- The lists match the same addresses. -/
def SameHosts (net : HostNet) : Prop :=
  ∀ host, (l.find (net.hosts false) host).isSome = (l.find (net.hosts true) host).isSome

/-- The two lists match the same addresses whenever all messages are processed. -/
def Synchronises (hosts : List Str) (events : List HostEvent) : Prop :=
  (events.foldl (step l) (link l hosts)).Idle →
    (events.foldl (step l) (link l hosts)).SameHosts l

end HostNet

/-- One of the masks stands for the text of the other. -/
def Related (m m' : Str) : Prop :=
  irccmp m m' = false ∨ matchMask m m' = true ∨ matchMask m' m = true

/-- No entry of the list is matched by a newer one, and all of them fit on a line. -/
structure Burstable (l : HostList) (hosts : List Str) : Prop where
  words : ∀ m ∈ hosts, IsWord m ∧ l.addWord.length + m.length + 1 ≤ IRCD_BUFSIZE - 2
  apart : hosts.Pairwise fun newer older => matchMask newer older = false

/-- A change is made while no related one is on the way to the server. -/
def Calm (l : HostList) (net : HostNet) : HostEvent → Prop
  | .command s _ source line =>
      ∀ op ∈ l.read line, IsWord op.mask ∧ ' ' ∉ source ∧ l.Fits source op ∧
        ∀ line' ∈ net.wire s, ∀ op' ∈ l.read line', ¬ Related op.mask op'.mask
  | .deliver _ _ => True

section Abstract

def foldCase (s : Str) : Str := s.map toLower

open Classical in
/-- A change of a set of folded masks. -/
noncomputable def HostOp.apply : HostOp → Multiset Str → Multiset Str
  | .add m, hosts => if ∃ x ∈ hosts, matchMask x m = true then hosts else foldCase m ::ₘ hosts
  | .del m, hosts => hosts.erase (foldCase m)

theorem irccmp_eq_false_iff_fold (s t : Str) : irccmp s t = false ↔ foldCase s = foldCase t :=
  irccmp_eq_false_iff_lower s t

theorem matchMask_foldCase (m n : Str) : matchMask (foldCase m) n = matchMask m n :=
  matchMask_toLower m n

variable {m m' : Str}

theorem exists_cons_match (h : matchMask m' m = false) (hosts : Multiset Str) :
    (∃ x ∈ foldCase m' ::ₘ hosts, matchMask x m = true) ↔ ∃ x ∈ hosts, matchMask x m = true := by
  simp [matchMask_foldCase, h]

theorem exists_erase_match (h : matchMask m' m = false) (hosts : Multiset Str) :
    (∃ x ∈ hosts.erase (foldCase m'), matchMask x m = true) ↔
      ∃ x ∈ hosts, matchMask x m = true := by
  constructor
  · rintro ⟨x, hx, hmatch⟩
    exact ⟨x, Multiset.mem_of_mem_erase hx, hmatch⟩
  · rintro ⟨x, hx, hmatch⟩
    refine ⟨x, (Multiset.mem_erase_of_ne ?_).mpr hx, hmatch⟩
    rintro rfl
    rw [matchMask_foldCase, h] at hmatch
    cases hmatch

theorem add_of_match {hosts : Multiset Str} (h : ∃ x ∈ hosts, matchMask x m = true) :
    (HostOp.add m).apply hosts = hosts := if_pos h

theorem add_of_not_match {hosts : Multiset Str} (h : ¬ ∃ x ∈ hosts, matchMask x m = true) :
    (HostOp.add m).apply hosts = foldCase m ::ₘ hosts := if_neg h

theorem del_eq (hosts : Multiset Str) : (HostOp.del m).apply hosts = hosts.erase (foldCase m) := rfl

theorem add_add (h : matchMask m m' = false) (h' : matchMask m' m = false) (hosts : Multiset Str) :
    (HostOp.add m).apply ((HostOp.add m').apply hosts) =
      (HostOp.add m').apply ((HostOp.add m).apply hosts) := by
  by_cases hc : ∃ x ∈ hosts, matchMask x m = true
  · rw [add_of_match hc]
    by_cases hc' : ∃ x ∈ hosts, matchMask x m' = true
    · rw [add_of_match hc', add_of_match hc]
    · rw [add_of_not_match hc', add_of_match ((exists_cons_match h' hosts).mpr hc)]
  · rw [add_of_not_match hc]
    by_cases hc' : ∃ x ∈ hosts, matchMask x m' = true
    · rw [add_of_match hc', add_of_not_match hc,
        add_of_match ((exists_cons_match h hosts).mpr hc')]
    · rw [add_of_not_match hc', add_of_not_match (mt (exists_cons_match h' hosts).mp hc),
        add_of_not_match (mt (exists_cons_match h hosts).mp hc'), Multiset.cons_swap]

theorem add_del (hne : foldCase m ≠ foldCase m') (h' : matchMask m' m = false)
    (hosts : Multiset Str) :
    (HostOp.add m).apply ((HostOp.del m').apply hosts) =
      (HostOp.del m').apply ((HostOp.add m).apply hosts) := by
  rw [del_eq, del_eq]
  by_cases hc : ∃ x ∈ hosts, matchMask x m = true
  · rw [add_of_match hc, add_of_match ((exists_erase_match h' hosts).mpr hc)]
  · rw [add_of_not_match hc, add_of_not_match (mt (exists_erase_match h' hosts).mp hc)]
    exact (Multiset.erase_cons_tail _ hne).symm

/-- Changes of unrelated masks can be made in either order. -/
theorem apply_commute {op op' : HostOp} (h : ¬ Related op.mask op'.mask) :
    Function.Commute op.apply op'.apply := by
  rw [Related, not_or, not_or, irccmp_eq_false_iff_fold, Bool.not_eq_true, Bool.not_eq_true] at h
  obtain ⟨hne, hm, hm'⟩ := h
  intro hosts
  cases op with
  | add m =>
      cases op' with
      | add m' => exact add_add hm hm' hosts
      | del m' => exact add_del hne hm' hosts
  | del m =>
      cases op' with
      | add m' => exact (add_del (Ne.symm hne) hm hosts).symm
      | del m' => exact Multiset.erase_comm hosts _ _

end Abstract

section Simulation

variable {l : HostList} {op : HostOp} {privileged : Bool} {source out : Str}
  {hosts hosts' : List Str}

/-- The folded masks of a list. -/
def hostsOf (hosts : List Str) : Multiset Str := hosts.map foldCase

theorem find_isSome (l : HostList) (hosts : List Str) (host : Str) :
    (l.find hosts host).isSome = true ↔ ∃ m ∈ hosts, matchMask m host = true := by
  cases l <;> simp [HostList.find, findProxy, findIpbr, findSpamsg, findHost]

theorem exists_hostsOf (hosts : List Str) (host : Str) :
    (∃ x ∈ hostsOf hosts, matchMask x host = true) ↔ ∃ m ∈ hosts, matchMask m host = true := by
  simp [hostsOf, matchMask_foldCase]

theorem hostsOf_eraseP (hosts : List Str) (mask : Str) :
    hostsOf (hosts.eraseP fun h => !irccmp h mask) = (hostsOf hosts).erase (foldCase mask) := by
  induction hosts with
  | nil => rfl
  | cons h hosts ih =>
      by_cases heq : irccmp h mask = false
      · rw [List.eraseP_cons_of_pos (by simp [heq]), hostsOf, hostsOf, List.map_cons,
          (irccmp_eq_false_iff_fold h mask).mp heq]
        exact (Multiset.erase_cons_head _ _).symm
      · have hne : foldCase h ≠ foldCase mask := mt (irccmp_eq_false_iff_fold h mask).mpr heq
        rw [List.eraseP_cons_of_neg (by simpa using heq)]
        have hih : foldCase h ::ₘ hostsOf (hosts.eraseP fun h => !irccmp h mask) =
            foldCase h ::ₘ (hostsOf hosts).erase (foldCase mask) := congrArg _ ih
        exact hih.trans (Multiset.erase_cons_tail _ hne).symm

theorem handle_eq (l : HostList) (op : HostOp) (privileged : Bool) (source : Str)
    (hosts : List Str) : l.handle op privileged source hosts =
      match op with
      | .add mask => addHost l.addWord privileged source hosts mask
      | .del mask => delHost l.delWord privileged source hosts mask := by
  cases op <;> cases l <;> rfl

theorem handle_some (h : l.handle op privileged source hosts = some (hosts', out)) :
    hostsOf hosts' = op.apply (hostsOf hosts) ∧ out = l.relay source op := by
  rw [handle_eq] at h
  cases op with
  | add mask =>
      simp only [addHost] at h
      split at h
      · rename_i hadd
        obtain ⟨rfl, rfl⟩ := Prod.mk.inj (Option.some.inj h)
        rw [Bool.and_eq_true, Option.isNone_iff_eq_none] at hadd
        have hnone : ¬ ∃ x ∈ hostsOf hosts, matchMask x mask = true := by
          rw [exists_hostsOf]
          rintro ⟨m, hm, hmatch⟩
          exact absurd hmatch (List.find?_eq_none.mp hadd.2 m hm)
        exact ⟨(if_neg hnone).symm, rfl⟩
      · cases h
  | del mask =>
      simp only [delHost] at h
      split at h
      · obtain ⟨rfl, rfl⟩ := Prod.mk.inj (Option.some.inj h)
        exact ⟨hostsOf_eraseP hosts mask, rfl⟩
      · cases h

/-- A change that is not made would have no effect. -/
theorem handle_none (h : l.handle op true source hosts = none) :
    op.apply (hostsOf hosts) = hostsOf hosts := by
  rw [handle_eq] at h
  cases op with
  | add mask =>
      simp only [addHost, Bool.true_and] at h
      split at h
      · cases h
      · rename_i hfound
        have hexists : ∃ m ∈ hosts, matchMask m mask = true := by
          simpa [findHost, List.find?_eq_none] using hfound
        exact if_pos ((exists_hostsOf hosts mask).mpr hexists)
  | del mask =>
      simp only [delHost, Bool.true_and] at h
      split at h
      · cases h
      · rename_i hany
        refine Multiset.erase_of_notMem fun hmem : foldCase mask ∈ hostsOf hosts => hany ?_
        obtain ⟨m, hm, heq⟩ := List.mem_map.mp (Multiset.mem_coe.mp hmem)
        rw [List.any_eq_true]
        exact ⟨m, hm, by rw [(irccmp_eq_false_iff_fold m mask).mpr heq]; rfl⟩

open Replicas

/-- The lists and the lines stand for two replicas and the changes on the way. -/
structure Simulates (l : HostList) (net : HostNet) (p : Pair (Multiset Str) HostOp) : Prop where
  state : ∀ s, p.state s = hostsOf (net.hosts s)
  flight : ∀ s, (net.wire s).map l.read = (p.flight s).map some

def HostNet.Tracked (l : HostList) (net : HostNet) : Prop :=
  ∃ p, Simulates l net p ∧ p.Agree HostOp.apply

theorem Calm.apply_commute {net : HostNet} {p : Pair (Multiset Str) HostOp} {s : Bool}
    {line : Str} (hp : Simulates l net p) (hcalm : Calm l net (.command s privileged source line))
    (hop : l.read line = some op) :
    ∀ op' ∈ p.flight s, Function.Commute op.apply op'.apply := by
  intro op' hop'
  have hmem : some op' ∈ (net.wire s).map l.read := by
    rw [hp.flight]
    exact List.mem_map_of_mem hop'
  obtain ⟨line', hline', hread⟩ := List.mem_map.mp hmem
  exact Unirc.apply_commute ((hcalm op hop).2.2.2 line' hline' op' hread)

theorem HostNet.Tracked.step {net : HostNet} {e : HostEvent} (h : net.Tracked l)
    (hcalm : Calm l net e) : (net.step l e).Tracked l := by
  obtain ⟨p, hp, hagree⟩ := h
  cases e with
  | command s privileged source line =>
      rw [HostNet.step]
      cases hread : l.read line with
      | none => exact ⟨p, hp, hagree⟩
      | some op =>
          rw [Option.bind_some]
          cases hhandle : l.handle op privileged source (net.hosts s) with
          | none => exact ⟨p, hp, hagree⟩
          | some r =>
              obtain ⟨hosts', out⟩ := r
              obtain ⟨hhosts, rfl⟩ := handle_some hhandle
              obtain ⟨hword, hsource, hfits, -⟩ := hcalm op hread
              refine ⟨p.make HostOp.apply s op, ⟨fun t => ?_, fun t => ?_⟩,
                hagree.make (Calm.apply_commute hp hcalm hread)⟩
              · by_cases ht : t = s
                · subst ht
                  simp only [Pair.make, Function.update_self, hhosts, hp.state]
                · simp only [Pair.make, Function.update_of_ne ht, hp.state]
              · by_cases ht : t = !s
                · subst ht
                  simp only [Pair.make, Function.update_self, List.map_append, List.map_singleton,
                    hp.flight, HostList.read_relay_word hsource hfits hword]
                · simp only [Pair.make, Function.update_of_ne ht, hp.flight]
  | deliver s source =>
      have hflight := hp.flight s
      rw [HostNet.step]
      cases hwire : net.wire s with
      | nil => exact ⟨p, hp, hagree⟩
      | cons line rest =>
          rw [hwire] at hflight
          cases hops : p.flight s with
          | nil =>
              rw [hops] at hflight
              cases hflight
          | cons op os =>
              rw [hops] at hflight
              obtain ⟨hread, hrest⟩ := List.cons.inj hflight
              simp only [hread, Option.bind_some]
              refine ⟨p.take HostOp.apply s op os, ?_, hagree.take hops⟩
              cases hhandle : l.handle op true source (net.hosts s) with
              | none =>
                  refine ⟨fun t => ?_, fun t => ?_⟩
                  · by_cases ht : t = s
                    · subst ht
                      simp only [Pair.take, Function.update_self, hp.state, handle_none hhandle]
                    · simp only [Pair.take, Function.update_of_ne ht, hp.state]
                  · by_cases ht : t = s
                    · subst ht
                      simpa only [Pair.take, Function.update_self] using hrest
                    · simp only [Pair.take, Function.update_of_ne ht, hp.flight]
              | some r =>
                  obtain ⟨hosts', out⟩ := r
                  have hhosts := (handle_some hhandle).1
                  refine ⟨fun t => ?_, fun t => ?_⟩
                  · by_cases ht : t = s
                    · subst ht
                      simp only [Pair.take, Function.update_self, hp.state, hhosts]
                    · simp only [Pair.take, Function.update_of_ne ht, hp.state]
                  · by_cases ht : t = s
                    · subst ht
                      simpa only [Pair.take, Function.update_self] using hrest
                    · simp only [Pair.take, Function.update_of_ne ht, hp.flight]

/-- The list that is sent is taken over whole. -/
theorem foldl_add {masks : List Str} {seen : Multiset Str}
    (hseen : ∀ m ∈ masks, ¬ ∃ x ∈ seen, matchMask x m = true)
    (hmasks : masks.Pairwise fun newer older => matchMask newer older = false) :
    (masks.map HostOp.add).foldl (fun hosts op => op.apply hosts) seen = seen + hostsOf masks := by
  induction masks generalizing seen with
  | nil => exact (Multiset.add_zero seen).symm
  | cons m masks ih =>
      rw [List.pairwise_cons] at hmasks
      have hnext : ∀ m' ∈ masks, ¬ ∃ x ∈ foldCase m ::ₘ seen, matchMask x m' = true := by
        intro m' hm'
        rw [exists_cons_match (hmasks.1 m' hm')]
        exact hseen m' (List.mem_cons_of_mem m hm')
      rw [List.map_cons, List.foldl_cons, add_of_not_match (hseen m List.mem_cons_self),
        ih hnext hmasks.2, Multiset.cons_add]
      exact (Multiset.add_cons _ _ _).symm

theorem burst_eq (l : HostList) (hosts : List Str) :
    l.burst hosts = hosts.map fun mask => sendFormat [l.addWord, mask] := by
  cases l <;> rfl

theorem map_read_burst (h : ∀ m ∈ hosts, IsWord m ∧ l.addWord.length + m.length + 1 ≤
    IRCD_BUFSIZE - 2) : (l.burst hosts).map l.read = (hosts.map HostOp.add).map some := by
  rw [burst_eq, List.map_map, List.map_map]
  refine List.map_congr_left fun m hm => ?_
  have hread := HostList.read_burst (h m hm).2
  rw [HostList.stringToArray_word (h m hm).1] at hread
  exact hread

theorem tracked_link (h : Burstable l hosts) : (HostNet.link l hosts).Tracked l := by
  refine ⟨⟨fun s => if s then 0 else hostsOf hosts, fun s => if s then hosts.map .add else []⟩,
    ⟨fun s => ?_, fun s => ?_⟩, ?_⟩
  · cases s <;> rfl
  · cases s with
    | false => rfl
    | true => exact map_read_burst h.words
  · have hfold := @foldl_add hosts 0 (by simp) h.apart
    rw [Multiset.zero_add] at hfold
    exact hfold.symm

theorem HostNet.Tracked.sameHosts {net : HostNet} (h : net.Tracked l) (hidle : net.Idle) :
    net.SameHosts l := by
  obtain ⟨p, hp, hagree⟩ := h
  have hempty : ∀ s, p.flight s = [] := fun s => by
    have hflight := hp.flight s
    rw [hidle s, List.map_nil] at hflight
    exact List.map_eq_nil_iff.mp hflight.symm
  have hstate := hagree.state_eq hempty
  rw [hp.state, hp.state] at hstate
  intro host
  rw [Bool.eq_iff_iff, find_isSome, find_isSome, ← exists_hostsOf, hstate, exists_hostsOf]

end Simulation

/-- The lists agree whenever the lines on the way are processed, if no change crosses a related one
and no entry that the new server is sent covers a later one. -/
theorem hosts_synchronise {l : HostList} {hosts : List Str} {events : List HostEvent}
    (hburst : Burstable l hosts)
    (hcalm : Runs.Each (HostNet.step l) (Calm l) (HostNet.link l hosts) events) :
    HostNet.Synchronises l hosts events :=
  (Runs.invariant (fun _ _ hnet hcalm => hnet.step hcalm) (tracked_link hburst) hcalm).sameHosts

section Examples

instance (m m' : Str) : Decidable (Related m m') := by
  unfold Related
  infer_instance

def oneMask : List Str := ["10.0.0.1".toList]

/-- The new server adds an entry while the list is on the way to it. -/
def addOther : List HostEvent :=
  [.command true true "services".toList "PROXY 192.0.2.9".toList, .deliver true [],
    .deliver false []]

theorem hosts_synchronise_addOther : Burstable .proxys oneMask ∧
    Runs.Each (HostNet.step .proxys) (Calm .proxys) (HostNet.link .proxys oneMask) addOther ∧
      HostNet.Synchronises .proxys oneMask addOther := by
  have hburst : Burstable .proxys oneMask :=
    ⟨fun m hm => by
      rw [List.mem_singleton.mp hm]
      exact ⟨⟨by decide, by decide, by decide⟩, by decide⟩, List.pairwise_singleton _ _⟩
  have hread : HostList.proxys.read "PROXY 192.0.2.9".toList = some (.add "192.0.2.9".toList) := by
    decide
  have hcalm : Runs.Each (HostNet.step .proxys) (Calm .proxys) (HostNet.link .proxys oneMask)
      addOther := by
    refine ⟨fun op hop => ?_, trivial, trivial, trivial⟩
    obtain rfl := Option.some.inj (hread.symm.trans hop)
    exact ⟨⟨by decide, by decide, by decide⟩, by decide, by unfold HostList.Fits; decide, by decide⟩
  exact ⟨hburst, hcalm, hosts_synchronise hburst hcalm⟩

def nestedMasks : List Str := ["10.*".toList, "10.1.2.3".toList]

def removeOuter : List HostEvent :=
  [.deliver true [], .deliver true [], .command false true "services".toList "UNPROXY 10.*".toList,
    .deliver true []]

/-- The new server does not take the older entry, and has none left when the newer one is gone. -/
theorem not_hosts_synchronise : ¬ ∀ (l : HostList) (hosts : List Str) (events : List HostEvent),
    HostNet.Synchronises l hosts events := by
  intro h
  have hidle : (removeOuter.foldl (HostNet.step .proxys) (HostNet.link .proxys nestedMasks)).Idle := by
    unfold HostNet.Idle
    decide
  have hsame := h .proxys nestedMasks removeOuter hidle "10.1.2.3".toList
  revert hsame
  decide

end Examples

end Unirc
