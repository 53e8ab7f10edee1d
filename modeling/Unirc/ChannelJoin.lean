import Unirc.Bans
import Unirc.ModeMerge
import Unirc.SjoinHeader

/-!
# What JOIN and SJOIN share

Both look a channel up or make it, and both take the status flags of the members
away when the other side's timestamp wins. `JOIN 0` leaves all channels.
-/

namespace Unirc

open MemberFlag

/-- The tokens of `strtoken` with a comma. -/
def commaTokens (s : Str) : List Str := (s.splitOn ',').filter (· ≠ [])

def nickPrefixes : List (Char × MemberFlag) :=
  [('~', chflOwner), ('&', chflProtected), ('@', chflChanop), ('%', chflHalfop),
    ('+', chflVoice)]

namespace Server

variable (s : Server)

/-- The channel of a name, made when there is none, and whether it is new. -/
def findOrMake (now : ℤ) (name : Str) : Server × ℕ × Bool :=
  match s.hashFindChannel name with
  | some c => (s, c, false)
  | none => ((s.makeChannel now name).1, (s.makeChannel now name).2, true)

/-- The flags that `remove_a_mode` changes. -/
def removeAMode (c : ℕ) (mask : MemberFlag) : Server :=
  (s.members c).foldl (fun s m => s.updFlags m (·.erase mask)) s

/-- The masks of `remove_our_modes`, with their letters. -/
def ourModes : List (MemberFlag × Char) :=
  [(chflOwner, 'q'), (chflProtected, 'a'), (chflChanop, 'o'), (chflHalfop, 'h'),
    (chflVoice, 'v')]

def removeOurModes (c : ℕ) : Server :=
  ourModes.foldl (fun s p => s.removeAMode c p.1) s

/-- `do_join_0`. -/
def doJoin0 (a : ℕ) : Server := (s.memberships a).foldl removeUserFromChannel s

theorem client?_doJoin0 (a b : ℕ) : (s.doJoin0 a).client? b = s.client? b := by
  unfold doJoin0
  generalize s.memberships a = l
  induction l generalizing s with
  | nil => rfl
  | cons m l ih => rw [List.foldl_cons, ih, client?_removeUserFromChannel]

theorem Relabels.removeAMode (c : ℕ) (mask : MemberFlag) : Relabels s (s.removeAMode c mask) :=
  Relabels.foldl _ (fun s m => Relabels.updFlags s m _) _ s

theorem Relabels.removeOurModes (c : ℕ) : Relabels s (s.removeOurModes c) :=
  Relabels.foldl _ (fun s (p : MemberFlag × Char) => Relabels.removeAMode s c p.1) ourModes s

theorem channel?_makeChannel (now : ℤ) (name : Str) :
    (s.makeChannel now name).1.channel? (s.makeChannel now name).2 =
      some ⟨Buf.strlcpy name, now, Mode.zero, [], [], []⟩ := by
  simp [channel?, makeChannel, LinkGraph.setRight]

theorem listed_makeChannel (now : ℤ) (name : Str) :
    (s.makeChannel now name).1.graph.listed .right (s.makeChannel now name).2 = some [] := by
  simp [makeChannel, LinkGraph.listed_setRight]

theorem channel?_findOrMake_new {now : ℤ} {name : Str} {s' : Server} {c : ℕ}
    (hf : s.findOrMake now name = (s', c, true)) :
    s'.channel? c = some ⟨Buf.strlcpy name, now, Mode.zero, [], [], []⟩ := by
  unfold findOrMake at hf
  split at hf
  · cases hf
  · obtain ⟨rfl, rfl, -⟩ := hf
    exact channel?_makeChannel s now name

variable {s}

theorem Inv.doJoin0 (h : s.Inv none) (a : ℕ) : (s.doJoin0 a).Inv none := by
  unfold Server.doJoin0
  generalize s.memberships a = l
  induction l generalizing s with
  | nil => exact h
  | cons m l ih => exact ih (h.removeUserFromChannel m)

theorem Inv.mem_of_find (h : s.Inv none) {name : Str} {c : ℕ}
    (hc : s.hashFindChannel name = some c) : (s.graph.listed .right c).isSome = true :=
  (h.list c).mp (List.mem_of_find?_eq_some hc)

theorem client?_findOrMake (s : Server) (now : ℤ) (name : Str) (a : ℕ) :
    (s.findOrMake now name).1.client? a = s.client? a := by
  unfold Server.findOrMake
  split <;> rfl

/-- After the lookup the channel exists, and only a new one may lack members. -/
theorem Inv.findOrMake (h : s.Inv none) (now : ℤ) (name : Str) {s' : Server} {c : ℕ}
    {isnew : Bool} (hf : s.findOrMake now name = (s', c, isnew)) :
    (s'.graph.listed .right c).isSome = true ∧ s'.Inv (some c) ∧
      (isnew = false → s' = s ∧ s.Inv none) := by
  unfold Server.findOrMake at hf
  split at hf
  · rename_i d hd
    obtain ⟨rfl, rfl, rfl⟩ := hf
    exact ⟨h.mem_of_find hd, h.weaken _, fun _ => ⟨rfl, h⟩⟩
  · obtain ⟨rfl, rfl, rfl⟩ := hf
    refine ⟨?_, h.makeChannel now name, by simp⟩
    rw [listed_makeChannel]
    rfl

/-- A channel with a member among its links is not pending. -/
theorem Inv.settle_of_isMember {a c : ℕ} (h : s.Inv (some c)) (hm : s.isMember a c = true) :
    s.Inv none := by
  refine h.settle fun hnil => ?_
  unfold isMember findChannelLink at hm
  split at hm
  · obtain ⟨m, hm⟩ := Option.isSome_iff_exists.mp hm
    obtain ⟨r, hr, -, hrc⟩ := h.wf.between_eq_some hm
    obtain ⟨l, hl, hml⟩ := h.wf.listed_at hr .right
    have : r.at .right = c := hrc
    rw [this] at hl
    simp only [members, hl, Option.getD_some] at hnil
    rw [hnil] at hml
    cases hml
  · cases hm

/-- No record refers to a channel that has just been made. -/
theorem Inv.isMember_makeChannel (h : s.Inv none) (now : ℤ) (name : Str) (a : ℕ) :
    (s.makeChannel now name).1.isMember a (s.makeChannel now name).2 = false := by
  by_contra hm
  have hs := (h.makeChannel now name).settle_of_isMember (by simpa using hm)
  exact hs.member (listed_makeChannel s now name) (by simp) rfl

end Server

end Unirc
