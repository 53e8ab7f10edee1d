import Unirc.ChannelFlood
import Unirc.Runs

/-!
# The filter of repeated lines

The tests of `can_send` on the texts of an unprivileged member, with the message that last went to
the channel. Mode `d` turns down a text that is sent again within ten seconds; mode `f` writes the
time of the last message before that test reads it.
-/

namespace Unirc

/-- Without mode `f` the flood test ends at its first line. -/
def FloodLimit.off : FloodLimit := ⟨1, 1, Nat.one_pos, Nat.one_pos⟩

/-- A text with the limit of the channel, if mode `f` is set. -/
abbrev Saying := Option FloodLimit × Sending

/-- Mode `f` is set for two messages or more. -/
def Saying.Limited (m : Saying) : Prop := ∃ limit ∈ m.1, 1 < limit.msgs

/-- What the membership keeps, and the last message of the member that went to the channel, with
its time. -/
structure Talk where
  ms : FloodMember
  last : Option (Str × ℤ)
  deriving DecidableEq

namespace Talk

variable (chname : Str) (s : Talk) (m : Saying)

def new : Talk := ⟨.new, none⟩

/-- The tests with the result of `can_send`, if they turn the text down. -/
def tests : FloodMember × Option ℤ := textTests (m.1.getD .off) chname s.ms m.2

def say : Talk :=
  ⟨(s.tests chname m).1,
    if (s.tests chname m).2 = none then some (m.2.text, m.2.now) else s.last⟩

/-- The text is the one before, and that was less than ten seconds ago. -/
def Repeats : Prop := ∃ p ∈ s.last, p.1 = m.2.text ∧ m.2.now - p.2 < ChanFloodTime

/-- The text is turned down as a repeat if and only if mode `d` is set and it is one. -/
def Filtered : Prop :=
  (s.tests chname m).2 = some (-5) ↔ m.2.noflood = true ∧ s.Repeats m

/-- The tests for spam turn the text down. -/
def Spam : Prop :=
  (m.2.nospam && (checkNospam m.2.text || namesOther chname m.2.text)) = true

instance : Decidable (Spam chname m) := inferInstanceAs (Decidable (_ = true))

/-- Mode `d` is set, so that the text is kept. Under a limit the text is not the one before, does
not reach the limit and is no spam; a repeat is no spam either. -/
structure Undisturbed : Prop where
  noflood : m.2.noflood = true
  fresh : m.Limited → ∀ p ∈ s.last, p.1 ≠ m.2.text
  few : ∀ limit ∈ m.1, 1 < limit.msgs →
    (limit.per : ℤ) ≤ m.2.now - s.ms.lmsgTime ∨ s.ms.nmsg + 1 < limit.msgs
  clean : m.Limited ∨ s.Repeats m → ¬ Spam chname m

/-- The membership keeps the last message with its time. -/
structure Agrees : Prop where
  lmsg : s.ms.lmsg = s.last.map Prod.fst
  time : ∀ p ∈ s.last, s.ms.lmsgTime = p.2

variable {chname s m}

theorem agrees_new : new.Agrees := ⟨rfl, nofun⟩

theorem Agrees.repeats_iff (h : s.Agrees) : s.Repeats m ↔
    s.ms.lmsg = some m.2.text ∧ m.2.now - s.ms.lmsgTime < ChanFloodTime := by
  unfold Repeats
  rw [h.lmsg]
  constructor
  · rintro ⟨p, hp, htext, htime⟩
    rw [Option.mem_def.mp hp, h.time p hp]
    exact ⟨congrArg some htext, htime⟩
  · rintro ⟨htext, htime⟩
    obtain ⟨p, hp, hpt⟩ := Option.map_eq_some_iff.mp htext
    exact ⟨p, hp, hpt, by rwa [← h.time p hp]⟩

/-- The tests behind the one of mode `f`. -/
theorem tests_of_flood {ms : FloodMember}
    (hflood : checkForChanFlood (m.1.getD .off) m.2.now s.ms = (ms, false)) :
    s.tests chname m =
      if Spam chname m then (ms, some (-4))
      else if m.2.noflood = true then
        if ms.lmsg = some m.2.text ∧ m.2.now - ms.lmsgTime < ChanFloodTime then (ms, some (-5))
        else ({ ms with lmsg := some m.2.text, lmsgTime := m.2.now }, none)
      else (ms, none) := by
  rw [tests, textTests, hflood]
  rfl

theorem checkForChanFlood_of_not_limited (h : ¬ m.Limited) :
    checkForChanFlood (m.1.getD .off) m.2.now s.ms = (s.ms, false) := by
  rw [checkForChanFlood, if_pos]
  left
  cases hm : m.1 with
  | none => exact Nat.le_refl 1
  | some limit => exact not_lt.mp fun hlt => h ⟨limit, hm, hlt⟩

/-- The flood test of a text that does not reach the limit. -/
theorem checkForChanFlood_of_few {limit : FloodLimit} {now : ℤ} {ms : FloodMember}
    (hmsgs : 1 < limit.msgs)
    (hfew : (limit.per : ℤ) ≤ now - ms.lmsgTime ∨ ms.nmsg + 1 < limit.msgs) :
    ∃ n, checkForChanFlood limit now ms = (⟨n, ms.lmsg, now⟩, false) := by
  have hon : ¬ (limit.msgs ≤ 1 ∨ limit.per < 1) := by
    have := limit.per_pos
    omega
  rw [checkForChanFlood, if_neg hon]
  split
  · exact ⟨_, rfl⟩
  · rename_i hclose
    refine ⟨_, Prod.ext rfl (decide_eq_false ?_)⟩
    have := hfew.resolve_left hclose
    omega

/-- The text goes to the channel and is kept. -/
theorem say_of_sent {n : ℤ} (h : s.tests chname m = (⟨n, some m.2.text, m.2.now⟩, none)) :
    (s.say chname m).Agrees := by
  rw [say, h, if_pos rfl]
  exact ⟨rfl, fun p hp => by rw [← Option.some.inj hp]⟩

theorem say_of_turnedDown {r : ℤ} (hs : s.Agrees) (h : s.tests chname m = (s.ms, some r)) :
    (s.say chname m).Agrees := by
  rw [say, h, if_neg nofun]
  exact hs

/-- One text. -/
theorem Agrees.step (hs : s.Agrees) (h : s.Undisturbed chname m) :
    (s.say chname m).Agrees ∧ s.Filtered chname m := by
  by_cases hlimited : m.Limited
  · have hspam := h.clean (Or.inl hlimited)
    have hother : s.ms.lmsg ≠ some m.2.text := by
      rw [hs.lmsg]
      intro htext
      obtain ⟨p, hp, hpt⟩ := Option.map_eq_some_iff.mp htext
      exact h.fresh hlimited p hp hpt
    have hnot : ¬ s.Repeats m := fun ⟨p, hp, hpt, _⟩ => h.fresh hlimited p hp hpt
    obtain ⟨limit, hlimit, hmsgs⟩ := hlimited
    obtain ⟨n, hflood⟩ := checkForChanFlood_of_few hmsgs (h.few limit hlimit hmsgs)
    have hget : m.1.getD .off = limit := by rw [Option.mem_def.mp hlimit, Option.getD_some]
    have htests : s.tests chname m = (⟨n, some m.2.text, m.2.now⟩, none) := by
      rw [tests_of_flood (hget ▸ hflood), if_neg hspam, if_pos h.noflood,
        if_neg fun hrepeat => hother hrepeat.1]
    refine ⟨say_of_sent htests, ?_⟩
    rw [Filtered, htests]
    exact iff_of_false nofun fun hrepeat => hnot hrepeat.2
  · have htests := @tests_of_flood chname s m s.ms (checkForChanFlood_of_not_limited hlimited)
    by_cases hspam : Spam chname m
    · rw [if_pos hspam] at htests
      refine ⟨say_of_turnedDown hs htests, ?_⟩
      rw [Filtered, htests]
      have hcode : (some (-4) : Option ℤ) ≠ some (-5) := by decide
      exact iff_of_false hcode fun hrepeat => h.clean (Or.inr hrepeat.2) hspam
    · rw [if_neg hspam, if_pos h.noflood] at htests
      by_cases hrepeat : s.Repeats m
      · rw [if_pos (hs.repeats_iff.mp hrepeat)] at htests
        refine ⟨say_of_turnedDown hs htests, ?_⟩
        rw [Filtered, htests]
        exact iff_of_true rfl ⟨h.noflood, hrepeat⟩
      · rw [if_neg (hs.repeats_iff.not.mp hrepeat)] at htests
        refine ⟨say_of_sent htests, ?_⟩
        rw [Filtered, htests]
        exact iff_of_false nofun fun hboth => hrepeat hboth.2

/-- A member whose texts are not disturbed is never taken for repeating itself where it does not,
and never gets a repeat through. -/
theorem filtered_of_undisturbed (chname : Str) {history : List Saying}
    (h : Runs.Each (say chname) (Undisturbed chname) new history) :
    Runs.Each (say chname) (Filtered chname) new history :=
  h.of_invariant (fun _ _ hs hm => hs.step hm) agrees_new

section Example

/-- `hello`, with mode `d` and the limit `5:10`. -/
def helloAt (limit : Option FloodLimit) (now : ℤ) : Saying :=
  (limit, ⟨now, false, true, "hello".toList⟩)

def fiveTen : FloodLimit := ⟨5, 10, by decide, by decide⟩

theorem filtered_hello : Runs.Each (say "#c".toList) (Filtered "#c".toList) new
    [helloAt (some fiveTen) 1000, helloAt none 1005] := by
  have hclean (s : Talk) (limit : Option FloodLimit) (now : ℤ) :
      ¬ Spam "#c".toList (helloAt limit now) := Bool.false_ne_true
  refine filtered_of_undisturbed _ ⟨⟨rfl, nofun, ?_, fun _ => hclean new _ _⟩,
    ⟨rfl, ?_, nofun, fun _ => hclean new _ _⟩, trivial⟩
  · rintro limit hlimit -
    obtain rfl := Option.some.inj hlimit
    exact Or.inl (by decide)
  · rintro ⟨limit, hlimit, -⟩
    cases hlimit

/-- A hundred seconds are a repeat under mode `f`. -/
theorem not_forall_filtered : ¬ ∀ chname history, Runs.Each (say chname) (Filtered chname) new
    history := by
  intro h
  have hsecond := (h "#c".toList [helloAt (some fiveTen) 1000, helloAt (some fiveTen) 1100]).2.1
  obtain ⟨-, p, hp, -, htime⟩ := hsecond.mp (by decide)
  obtain rfl := Option.some.inj (hp : some ("hello".toList, (1000 : ℤ)) = some p)
  exact absurd htime (by decide)

end Example

end Talk

end Unirc
