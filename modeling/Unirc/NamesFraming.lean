import Unirc.LinePacking
import Unirc.NamesReply

/-!
# The lines of NAMES and WHOIS

Every line of the two replies fits, and together they hold each item that the asker may see once, in
the order of the list and with the prefix of its flags: what is reckoned with for an item is what is
written of it, and the start of a line leaves room for any single item.
-/

namespace Unirc

/-- The prefix of a member: all its statuses from the highest on, or only the highest. -/
structure Prefixed (flags : MemberFlags) (multiPrefix : Bool) (p : Str) : Prop where
  order : p.Sublist ['~', '&', '@', '%', '+']
  all : multiPrefix = true → ∀ mark ∈ memberMarks, mark.2.1 ∈ p ↔ mark.1 ∈ flags
  highest : multiPrefix = false → (p = [] ∧ ∀ mark ∈ memberMarks, mark.1 ∉ flags) ∨
    ∃ above mark below, memberMarks = above ++ mark :: below ∧ p = [mark.2.1] ∧ mark.1 ∈ flags ∧
      ∀ mark ∈ above, mark.1 ∉ flags

/-- The lines are short, and are groups of the words of what is shown behind the start. -/
structure FramedReply {β : Type*} (start : Str) (Word : β → Str → Prop) (shown : List β)
    (lines : List Str) : Prop where
  short : ∀ l ∈ lines, l.length ≤ IRCD_BUFSIZE - 2
  whole : ∃ word : β → Str, (∀ x, Word x (word x)) ∧ ∃ gs : List (List β), gs.flatten = shown ∧
    (∀ g ∈ gs, g ≠ []) ∧ lines = gs.map fun g => start ++ List.intercalate [' '] (g.map word)

theorem prefixed_getMemberStatus (flags : MemberFlags) (multiPrefix : Bool) :
    Prefixed flags multiPrefix (getMemberStatus flags multiPrefix false) := by
  have hmarks : getMemberStatus flags true false =
      (memberMarks.filter fun p => p.1 ∈ flags).map fun p => p.2.1 := by
    simp only [getMemberStatus, if_true, Bool.false_eq_true, if_false]
  have hone : getMemberStatus flags false false = (getMemberStatus flags true false).take 1 := by
    simp only [getMemberStatus, if_true, Bool.false_eq_true, if_false]
  have horder : (getMemberStatus flags true false).Sublist ['~', '&', '@', '%', '+'] := by
    rw [hmarks]
    exact (List.filter_sublist (l := memberMarks)).map fun p => p.2.1
  cases multiPrefix with
  | true =>
      have hinj : ∀ a ∈ memberMarks, ∀ b ∈ memberMarks, a.2.1 = b.2.1 → a = b := by decide
      refine ⟨horder, fun _ mark hmark => ?_, fun h => absurd h.symm Bool.false_ne_true⟩
      rw [hmarks, List.mem_map]
      constructor
      · rintro ⟨b, hb, heq⟩
        obtain ⟨hb, hflag⟩ := List.mem_filter.mp hb
        rw [← hinj b hb mark hmark heq]
        exact of_decide_eq_true hflag
      · exact fun h => ⟨mark, List.mem_filter.mpr ⟨hmark, decide_eq_true h⟩, rfl⟩
  | false =>
      refine ⟨?_, fun h => absurd h Bool.false_ne_true, fun _ => ?_⟩
      · rw [hone]
        exact (List.take_sublist 1 _).trans horder
      · rw [hone, hmarks]
        cases hfilter : memberMarks.filter fun p => p.1 ∈ flags with
        | nil =>
            refine Or.inl ⟨rfl, fun mark hmark hflag => ?_⟩
            exact List.filter_eq_nil_iff.mp hfilter mark hmark (decide_eq_true hflag)
        | cons mark rest =>
            obtain ⟨above, below, hsplit, habove, hmark, -⟩ := List.filter_eq_cons_iff.mp hfilter
            exact Or.inr ⟨above, mark, below, hsplit, rfl, of_decide_eq_true hmark,
              fun m hm hflag => habove m hm (decide_eq_true hflag)⟩

section Loops

variable {start : Str}

theorem memberNamesLoop_eq_fill {tlen : ℕ} (htlen : tlen ≠ 0) (t : Str) {xs : List ReplyItem}
    (hxs : ∀ x ∈ xs, x.tlen ≠ 0) : memberNamesLoop start t tlen xs =
      Packing.fill start ' ' ReplyItem.word ReplyItem.tlen (IRCD_BUFSIZE - 2) t xs := by
  induction xs generalizing t tlen with
  | nil => rw [memberNamesLoop, if_pos htlen, Packing.fill]
  | cons x xs ih =>
      have hx := hxs x List.mem_cons_self
      have hrest : ∀ y ∈ xs, y.tlen ≠ 0 := fun y hy => hxs y (List.mem_cons_of_mem x hy)
      rw [memberNamesLoop, Packing.fill, ih hx _ hrest, ih hx _ hrest]

theorem whoisChannelsLoop_eq_fill (t : Str) (xs : List ReplyItem) :
    whoisChannelsLoop start t.length t true xs =
      Packing.fill start ' ' ReplyItem.word ReplyItem.tlen (IRCD_BUFSIZE - 2) t xs := by
  have hlength (t : Str) (x : ReplyItem) :
      t.length + (x.word.length + 1) = (t ++ (x.word ++ [' '])).length := by
    simp only [List.length_append, List.length_singleton]
  induction xs generalizing t with
  | nil => rw [whoisChannelsLoop, if_pos rfl, Packing.fill]
  | cons x xs ih => rw [whoisChannelsLoop, Packing.fill, hlength, hlength, ih, ih]

/-- Lines that are filled with the items that are shown. -/
theorem FramedReply.of_fill {β : Type*} {Word : β → Str → Prop} (item : β → ReplyItem)
    (hword : ∀ x, Word x (item x).word) {x : β} {xs : List β}
    (hroom : ∀ y, (item y).word.length + 1 ≤ (item y).tlen ∧
      start.length + (item y).tlen ≤ IRCD_BUFSIZE - 2) :
    FramedReply start Word (x :: xs)
      (Packing.fill start ' ' ReplyItem.word ReplyItem.tlen (IRCD_BUFSIZE - 2)
        (start ++ ((item x).word ++ [' '])) (xs.map item)) := by
  obtain ⟨gs, hflatten, hne, hshort, hlines⟩ :
      ∃ gs : List (List β), gs.flatten = x :: xs ∧ (∀ g ∈ gs, g ≠ []) ∧
        (∀ g ∈ gs,
          (Packing.line start ' ' (fun y => (item y).word) g).length < IRCD_BUFSIZE - 2) ∧
        Packing.fill start ' ' (fun y => (item y).word) (fun y => (item y).tlen)
            (IRCD_BUFSIZE - 2) (start ++ ((item x).word ++ [' '])) xs =
          gs.map (Packing.line start ' ' fun y => (item y).word) :=
    Packing.exists_groups_fill fun y _ => hroom y
  rw [Packing.fill_map, hlines]
  refine ⟨fun l hl => ?_, _, hword, gs, hflatten, hne, rfl⟩
  obtain ⟨g, hg, rfl⟩ := List.mem_map.mp hl
  exact (hshort g hg).le

end Loops

theorem countP_memberMarks_le (flags : MemberFlags) :
    (memberMarks.countP fun p => p.1 ∈ flags) ≤ 5 :=
  List.countP_le_length

/-- A single prefix is there when a member has any status. -/
theorem length_highest (flags : MemberFlags) : (getMemberStatus flags false false).length =
    if memberMarks.any fun p => p.1 ∈ flags then 1 else 0 := by
  have hlength := length_getMemberStatus flags false
  have hone : getMemberStatus flags false false = (getMemberStatus flags true false).take 1 := by
    simp only [getMemberStatus, if_true, Bool.false_eq_true, if_false]
  rw [hone, List.length_take, hlength]
  split
  · rename_i hany
    obtain ⟨p, hp, hflag⟩ := List.any_eq_true.mp hany
    exact Nat.min_eq_left (List.countP_pos_iff.mpr ⟨p, hp, hflag⟩)
  · rename_i hany
    rw [List.countP_eq_zero.mpr fun p hp hflag => hany (List.any_eq_true.mpr ⟨p, hp, hflag⟩)]
    rfl

namespace NamesServer

variable {α : Type*} [DecidableEq α] (s : NamesServer α) (source target : α) (ch : NamedChannel α)

/-- A member is called by its nick, or by its nick, user and host, behind its prefix. -/
def MemberWord (m : α × MemberFlags) (word : Str) : Prop :=
  ∃ p, Prefixed m.2 (s.client source).multiPrefix p ∧
    word = p ++ if (s.client source).uhnames then
      (s.client m.1).name.val ++ '!' :: ((s.client m.1).username.val ++ '@' ::
        (s.client m.1).host.val)
    else (s.client m.1).name.val

/-- A channel is called by its name behind the prefix that the client has there, and with a mark when
only an administrator is to see it. -/
def ChannelWord (c : NamedChannel α × MemberFlags) (word : Str) : Prop :=
  ∃ p, Prefixed c.2 false p ∧
    word = (if s.showChannel source target c.1 then [] else ['!']) ++ p ++ c.1.chname.val

/-- Who is visible to the asker: nobody of a secret channel that the asker is not on, and those that
hide only to fellow members and administrators. -/
def visibleMembers : List (α × MemberFlags) :=
  ch.members.filter fun m => (!ch.secret || ch.isMember source) && s.showsMember source ch m

def visibleChannels : List (NamedChannel α × MemberFlags) :=
  (s.channel target).filter fun c => s.showsChannel source target c.1

omit [DecidableEq α] in
theorem memberWord_spec (m : α × MemberFlags) :
    s.MemberWord source m (s.memberWord source m) := by
  refine ⟨_, prefixed_getMemberStatus m.2 (s.client source).multiPrefix, ?_⟩
  rw [memberWord]
  cases (s.client source).uhnames with
  | true => exact List.append_assoc _ _ _
  | false => rfl

theorem channelWord_spec (c : NamedChannel α × MemberFlags) :
    s.ChannelWord source target c (s.channelWord source target c) :=
  ⟨_, prefixed_getMemberStatus c.2 false, rfl⟩

omit [DecidableEq α] in
/-- What is reckoned with for a member is what is written of it. -/
theorem memberTlen_eq (m : α × MemberFlags) :
    s.memberTlen source m = (s.memberWord source m).length + 1 := by
  have hall := length_getMemberStatus m.2 false
  have hone := length_highest m.2
  rw [memberTlen, memberWord]
  cases (s.client source).uhnames <;> cases (s.client source).multiPrefix <;>
    simp only [Bool.not_true, Bool.not_false, Bool.false_eq_true, if_true, if_false,
      List.length_append, List.length_cons, hall, hone] <;>
    first
    | omega
    | (split <;> omega)

omit [DecidableEq α] in
theorem memberTlen_le (m : α × MemberFlags) : s.memberTlen source m ≤ 111 := by
  have hmarks := countP_memberMarks_le m.2
  have hname := (s.client m.1).name.property
  have husername := (s.client m.1).username.property
  have hhost := (s.client m.1).host.property
  simp only [NICKLEN, USERLEN, HOSTLEN] at hname husername hhost
  rw [memberTlen]
  split_ifs <;> omega

omit [DecidableEq α] in
theorem length_namesStart_le : (s.namesStart source ch).length ≤ 304 := by
  have hme := s.me.property
  have hname := (s.client source).name.property
  have hchname := ch.chname.property
  have hnumeric : " 353 ".toList.length = 5 := rfl
  simp only [namesStart, NICKLEN, HOSTLEN, CHANNELLEN, List.length_cons, List.length_append,
    List.length_nil] at hme hname hchname ⊢
  omega

omit [DecidableEq α] in
theorem length_whoisStart_le : (s.whoisStart source target).length ≤ 132 := by
  have hme := s.me.property
  have hname := (s.client source).name.property
  have htarget := (s.client target).name.property
  have hnumeric : " 319 ".toList.length = 5 := rfl
  simp only [whoisStart, NICKLEN, HOSTLEN, List.length_cons, List.length_append,
    List.length_nil] at hme hname htarget ⊢
  omega

theorem length_channelWord_le (c : NamedChannel α × MemberFlags) :
    (s.channelWord source target c).length + 1 ≤ 3 + c.1.chname.val.length + 1 := by
  have hone : (getMemberStatus c.2 false false).length ≤ 1 := by
    rw [length_highest]
    split <;> omega
  rw [channelWord]
  simp only [List.length_append]
  split <;> simp only [List.length_nil, List.length_singleton] <;> omega

/-- The lines of `NAMES` fit and hold each visible member once. -/
theorem framedReply_names : FramedReply (s.namesStart source ch) (s.MemberWord source)
    (s.visibleMembers source ch) (s.channelMemberNames source ch) := by
  rw [channelMemberNames, visibleMembers]
  have hnone {Word : α × MemberFlags → Str → Prop} {word : α × MemberFlags → Str}
      (hword : ∀ m, Word m (word m)) :
      FramedReply (s.namesStart source ch) Word [] [] :=
    ⟨fun l hl => absurd hl List.not_mem_nil, word, hword, [], rfl,
      fun g hg => absurd hg List.not_mem_nil, rfl⟩
  cases hshown : !ch.secret || ch.isMember source with
  | false =>
      simp only [Bool.false_and, List.filter_false]
      exact hnone (s.memberWord_spec source)
  | true =>
      simp only [Bool.true_and, if_true]
      cases ch.members.filter (s.showsMember source ch) with
      | nil => exact hnone (s.memberWord_spec source)
      | cons m ms =>
          have hstart := s.length_namesStart_le source ch
          have htlen (m : α × MemberFlags) : s.memberTlen source m ≠ 0 := by
            rw [memberTlen_eq]
            exact Nat.succ_ne_zero _
          have hm := s.memberTlen_le source m
          rw [List.map_cons, memberNamesLoop, if_neg (by simp only [IRCD_BUFSIZE]; omega),
            memberNamesLoop_eq_fill (htlen m)]
          · refine FramedReply.of_fill (fun m => ⟨s.memberTlen source m, s.memberWord source m⟩)
              (s.memberWord_spec source) fun m => ⟨?_, ?_⟩
            · exact (s.memberTlen_eq source m).ge
            · have := s.memberTlen_le source m
              simp only [IRCD_BUFSIZE]
              omega
          · intro x hx
            obtain ⟨m, -, rfl⟩ := List.mem_map.mp hx
            exact htlen m

/-- The lines of the channels fit and hold each visible channel once. -/
theorem framedReply_whois : FramedReply (s.whoisStart source target) (s.ChannelWord source target)
    (s.visibleChannels source target) (s.whoisChannels source target) := by
  rw [whoisChannels, visibleChannels]
  cases (s.channel target).filter fun c => s.showsChannel source target c.1 with
  | nil =>
      exact ⟨fun l hl => absurd hl List.not_mem_nil, _, s.channelWord_spec source target, [], rfl,
        fun g hg => absurd hg List.not_mem_nil, rfl⟩
  | cons c cs =>
      have hstart := s.length_whoisStart_le source target
      have hroom (c : NamedChannel α × MemberFlags) :
          (s.whoisStart source target).length + (3 + c.1.chname.val.length + 1) ≤
            IRCD_BUFSIZE - 2 := by
        have hchname := c.1.chname.property
        simp only [CHANNELLEN, IRCD_BUFSIZE] at hchname ⊢
        omega
      have hlength : (s.whoisStart source target).length +
          ((s.channelWord source target c).length + 1) =
          (s.whoisStart source target ++ (s.channelWord source target c ++ [' '])).length := by
        simp only [List.length_append, List.length_singleton]
      rw [List.map_cons, whoisChannelsLoop, if_neg (not_lt.mpr (hroom c)), hlength,
        whoisChannelsLoop_eq_fill]
      exact FramedReply.of_fill
        (fun c => ⟨3 + c.1.chname.val.length + 1, s.channelWord source target c⟩)
        (s.channelWord_spec source target) fun c =>
          ⟨s.length_channelWord_le source target c, hroom c⟩

/-- Both replies, for all lists and capabilities. -/
theorem framedReply_names_and_whois :
    FramedReply (s.namesStart source ch) (s.MemberWord source) (s.visibleMembers source ch)
        (s.channelMemberNames source ch) ∧
      FramedReply (s.whoisStart source target) (s.ChannelWord source target)
        (s.visibleChannels source target) (s.whoisChannels source target) :=
  ⟨s.framedReply_names source ch, s.framedReply_whois source target⟩

end NamesServer

end Unirc
