import Unirc.HostListSync

/-!
# Entries along a chain of servers

A spam message, or an entry of one of the other two lists, is written without a colon in front, so
the next server takes its first word for it.
-/

namespace Unirc

section Chain

variable (l : HostList) (source : Str)

/-- A line goes from server to server as long as each of them makes the change; the lists of the
servers are given in order. -/
def passOn : Str → List (List Str) → List (List Str)
  | _, [] => []
  | line, hosts :: chain =>
      match (l.read line).bind fun op => l.handle op true source hosts with
      | none => hosts :: chain
      | some (hosts, out) => hosts :: passOn out chain

/-- The entry is stored and removed all along every chain of servers without one that covers
it, from a server that changes its list and from one that sends it to a new neighbour. -/
def Survives (text : Str) : Prop :=
  ∀ chain : List (List Str), (∀ hosts ∈ chain, l.find hosts text = none) →
    passOn l source (l.relay source (.add text)) chain = chain.map (text :: ·) ∧
      (∀ line ∈ l.burst [text], passOn l source line chain = chain.map (text :: ·)) ∧
      passOn l source (l.relay source (.del text)) (chain.map (text :: ·)) = chain

variable {l} {source} {text : Str}

theorem handle_add {hosts : List Str} (h : l.find hosts text = none) :
    l.handle (.add text) true source hosts = some (text :: hosts, l.relay source (.add text)) := by
  have hfind : findHost hosts text = none := by cases l <;> exact h
  rw [handle_eq]
  simp only [addHost, hfind, Option.isNone_none, Bool.and_true, if_true]
  rfl

theorem handle_del (hosts : List Str) :
    l.handle (.del text) true source (text :: hosts) = some (hosts, l.relay source (.del text)) := by
  have hself : irccmp text text = false := (irccmp_eq_false_iff _ _).mpr rfl
  rw [handle_eq]
  simp only [delHost, List.any_cons, hself, Bool.not_false, Bool.true_or, Bool.and_true, if_true,
    List.eraseP_cons_of_pos]
  rfl

theorem passOn_add {line : Str} {chain : List (List Str)}
    (hread : l.read line = some (.add text))
    (hrelay : l.read (l.relay source (.add text)) = some (.add text))
    (h : ∀ hosts ∈ chain, l.find hosts text = none) :
    passOn l source line chain = chain.map (text :: ·) := by
  induction chain generalizing line with
  | nil => rfl
  | cons hosts chain ih =>
      rw [passOn, hread, Option.bind_some, handle_add (h hosts List.mem_cons_self)]
      exact congrArg _ (ih hrelay fun hosts hmem => h hosts (List.mem_cons_of_mem _ hmem))

theorem passOn_del {chain : List (List Str)}
    (hrelay : l.read (l.relay source (.del text)) = some (.del text)) :
    passOn l source (l.relay source (.del text)) (chain.map (text :: ·)) = chain := by
  induction chain with
  | nil => rfl
  | cons hosts chain ih =>
      rw [List.map_cons, passOn, hrelay, Option.bind_some, handle_del hosts]
      exact congrArg _ ih

theorem HostList.Fits.add (h : l.Fits source (.del text)) : l.Fits source (.add text) := by
  have hword : l.addWord.length ≤ l.delWord.length := by cases l <;> decide
  unfold HostList.Fits at h ⊢
  simp only [HostOp.mask, HostList.word] at h ⊢
  omega

theorem survives_of_isWord (hsource : ' ' ∉ source) (hfits : l.Fits source (.del text))
    (hword : IsWord text) : Survives l source text := by
  intro chain hchain
  have hadd : l.read (l.relay source (.add text)) = some (.add text) :=
    HostList.read_relay_word hsource hfits.add hword
  have hdel : l.read (l.relay source (.del text)) = some (.del text) :=
    HostList.read_relay_word hsource hfits hword
  refine ⟨passOn_add hadd hadd hchain, fun line hline => ?_, passOn_del hdel⟩
  have hroom : l.addWord.length + text.length + 1 ≤ IRCD_BUFSIZE - 2 := by
    have hfits := hfits.add
    unfold HostList.Fits at hfits
    simp only [HostOp.mask, HostList.word] at hfits
    omega
  rw [burst_eq, List.map_singleton, List.mem_singleton] at hline
  subst hline
  have hread := HostList.read_burst hroom
  rw [HostList.stringToArray_word hword] at hread
  exact passOn_add hread hadd hchain

theorem isWord_of_survives (hsource : ' ' ∉ source) (hfits : l.Fits source (.del text))
    (h : Survives l source text) : IsWord text := by
  have hnone : ∀ hosts ∈ [([] : List Str)], l.find hosts text = none := by
    intro hosts hhosts
    rw [List.mem_singleton.mp hhosts]
    cases l <;> rfl
  have hadd := (h [[]] hnone).1
  rw [passOn, HostList.read_relay hsource hfits.add] at hadd
  simp only [HostOp.mask] at hadd
  refine HostList.isWord_of_stringToArray ?_
  cases hparams : (stringToArray text).head? with
  | none =>
      rw [hparams] at hadd
      cases hadd
  | some mask =>
      rw [hparams, Option.map_some, Option.bind_some, HostOp.withMask,
        handle_add (by cases l <;> rfl)] at hadd
      have hstored : [[mask]] = [[text]] := hadd
      simpa using hstored

theorem survives_iff (hsource : ' ' ∉ source) (hfits : l.Fits source (.del text)) :
    Survives l source text ↔ IsWord text :=
  ⟨isWord_of_survives hsource hfits, survives_of_isWord hsource hfits⟩

end Chain

section Examples

def buyNow : Str := "buy now".toList

theorem survives_iff_spam : ' ' ∉ "services".toList ∧
    HostList.spamsgs.Fits "services".toList (.del "*spam*".toList) ∧
      (Survives .spamsgs "services".toList "*spam*".toList ↔ IsWord "*spam*".toList) := by
  have hfits : HostList.spamsgs.Fits "services".toList (.del "*spam*".toList) := by
    unfold HostList.Fits
    decide
  exact ⟨by decide, hfits, survives_iff (by decide) hfits⟩

/-- The next server stores the first word. -/
theorem not_survives : ¬ ∀ source text, ' ' ∉ source →
    HostList.spamsgs.Fits source (.del text) → Survives .spamsgs source text := by
  intro h
  have hfits : HostList.spamsgs.Fits "services".toList (.del buyNow) := by
    unfold HostList.Fits
    decide
  have hadd := (h "services".toList buyNow (by decide) hfits [[]] (by decide)).1
  revert hadd
  decide

end Examples

end Unirc
