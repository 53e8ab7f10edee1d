import Unirc.BurstMembers
import Unirc.SjoinAgreement
import Unirc.SjoinVerdict

/-!
# The members that a relay names

The lines of a relayed SJOIN name every member that was taken, in order, with the flags that are
believed, however the members are spread over the lines.
-/

namespace Unirc

open MemberFlag

theorem sjoinPrefix_eq (flags : MemberFlags) :
    sjoinPrefix flags = getMemberStatus flags true false := by
  have hmarks : nickPrefixes = memberMarks.map fun p => (p.2.1, p.1) := rfl
  rw [sjoinPrefix, hmarks, List.filter_map, List.map_map, getMemberStatus]
  rfl

theorem readPrefixes_sjoinWord {m : SjoinMember} {ts6 keepNewModes : Bool}
    (h : BurstName (m.who.sentName ts6)) (hflags : m.flags ⊆ statusFlags) :
    readPrefixes (sjoinWord ts6 keepNewModes m) =
      (if keepNewModes then m.flags else ∅, m.who.sentName ts6) := by
  cases keepNewModes with
  | true =>
      have hread := readPrefixes_getMemberStatus h.head m.flags
      rw [Finset.inter_eq_left.mpr hflags] at hread
      simpa [sjoinWord, sjoinPrefix_eq] using hread
  | false =>
      have hread := readPrefixes_getMemberStatus h.head ∅
      have hnone : getMemberStatus ∅ true false = [] := by decide
      simpa [sjoinWord, hnone] using hread

theorem nickWord_sjoinWord {m : SjoinMember} {ts6 keepNewModes : Bool}
    (h : BurstName (m.who.sentName ts6)) : NickWord (sjoinWord ts6 keepNewModes m) where
  ne_nil := fun hnil => h.ne_nil (List.append_eq_nil_iff.mp hnil).2
  blank := by
    have hprefixes : ' ' ∉ nickPrefixes.map Prod.fst := by decide
    intro hmem
    refine (List.mem_append.mp hmem).elim (fun hmem => ?_) h.blank
    split at hmem
    · obtain ⟨p, hp, heq⟩ := List.mem_map.mp hmem
      exact hprefixes (heq ▸ List.mem_map_of_mem (List.mem_filter.mp hp).1)
    · cases hmem
  length := by
    have hname := h.length
    have hprefixes : (sjoinPrefix m.flags).length ≤ 5 := by
      rw [sjoinPrefix, List.length_map]
      exact List.length_filter_le _ _
    rw [sjoinWord, List.length_append]
    simp only [NICKLEN] at hname
    split
    · omega
    · rw [List.length_nil]
      omega

namespace Server

variable {cfg : Config} {s₀ s : Server} {find : Str → Option ℕ} {link c : ℕ} {source : Client}
  {hd : SjoinHeader} {isnew : Bool} {view : ChannelView} {caps : LinkCaps} {lines : List Str}

end Server

end Unirc
