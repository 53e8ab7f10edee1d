import Unirc.BurstMembers
import Unirc.Collapse
import Unirc.SetChannelMode

/-!
# The lists of a channel over runs

The letters `b`, `e` and `I` of MODE commands, and BMASK. A list never holds a mask twice, a local
user does not fill the lists past the limit, and `len` is the length of the mask. A mask with an
empty nick part, which `check_string` leaves of a text that begins with a blank, is not removed
with its own text.
-/

namespace Unirc

/-- The mask does not begin with white space. -/
def Unblank (mask : Str) : Prop := ∀ c ∈ mask.head?, Decimal.isSpace c = false

def Channel.banCount (ch : Channel) : ℕ :=
  ch.banlist.length + ch.exceptlist.length + ch.invexlist.length

def Server.banCount (s : Server) (c : ℕ) : ℕ := ((s.channel? c).map Channel.banCount).getD 0

/-- The setting of a list. -/
def BanType.used (cfg : Config) : BanType → Bool
  | .ban => true
  | .exception => cfg.useExcept
  | .invex => cfg.useInvex

section Masks

theorem unblank_collapse (m : Str) : Unblank (collapse m) ↔ Unblank m := by
  rw [Unblank, head?_collapse, Unblank]

theorem checkString_eq_nil_iff (m : Str) : checkString m = [] ↔ ¬ Unblank m := by
  unfold checkString Unblank
  cases m with
  | nil => simp
  | cons c cs =>
      rw [if_neg (List.cons_ne_nil c cs), List.head?_cons]
      by_cases hc : Decimal.isSpace c = true <;> simp [hc]

theorem name_splitNuh_eq_nil_iff (m : Str) : (splitNuh m).1 = [] ↔ m = [] := by
  have hpart (s : Str) : nuhPart (NICKLEN - 1) s ≠ [] := nuhPart_ne_nil (by decide) s
  cases m with
  | nil => exact iff_of_true rfl rfl
  | cons c cs =>
      refine iff_of_false ?_ (List.cons_ne_nil c cs)
      unfold splitNuh
      split
      · split
        · exact hpart _
        · exact hpart _
      · split
        · exact List.cons_ne_nil _ _
        · split
          · exact List.cons_ne_nil _ _
          · exact fun h => by cases h

/-- What `check_string` leaves of a mask with a blank in front has no nick. -/
theorem Ban.name_parse_eq_nil_iff (m : Str) : (Ban.parse m).name = [] ↔ ¬ Unblank m := by
  rw [← checkString_eq_nil_iff]
  exact name_splitNuh_eq_nil_iff (checkString m)

end Masks

namespace Channel

variable {ch : Channel} {t : BanType} {l : List Ban}

theorem banCount_setBans (ch : Channel) (l : List Ban) (t : BanType) :
    (ch.setBans l t).banCount + (ch.bans t).length = ch.banCount + l.length := by
  cases t <;> simp only [banCount, setBans, bans] <;> omega

theorem ListsMade.sublist (h : ch.ListsMade) (hl : l.Sublist (ch.bans t)) :
    (ch.setBans l t).ListsMade := by
  constructor
  · intro u x hx
    by_cases hu : u = t
    · subst hu
      rw [bans_setBans_self] at hx
      exact h.made u x (hl.subset hx)
    · rw [bans_setBans_of_ne ch hu] at hx
      exact h.made u x hx
  · intro u
    by_cases hu : u = t
    · subst hu
      rw [bans_setBans_self]
      exact (h.distinct u).sublist hl
    · rw [bans_setBans_of_ne ch hu]
      exact h.distinct u

/-- The text of a mask takes out that mask. -/
theorem ListsMade.eraseP_text (h : ch.ListsMade) {b : Ban} (hb : b ∈ ch.bans t) (hname : b.name ≠ []) :
    ∃ l₁ l₂, ch.bans t = l₁ ++ b :: l₂ ∧ (ch.bans t).eraseP (Ban.parse b.text).same = l₁ ++ l₂ := by
  obtain ⟨l₁, l₂, hsplit⟩ := List.append_of_mem hb
  have hdistinct := h.distinct t
  rw [hsplit, List.pairwise_append] at hdistinct
  have hbefore : ∀ x ∈ l₁, ¬ b.same x = true := fun x hx => by
    rw [Ban.same_comm, hdistinct.2.2 x hx b List.mem_cons_self]
    exact Bool.false_ne_true
  refine ⟨l₁, l₂, hsplit, ?_⟩
  rw [(h.made t b hb).parse_text hname, hsplit, List.eraseP_append_right _ hbefore,
    List.eraseP_cons_of_pos (Ban.same_self b)]

end Channel

namespace Server

variable {cfg : Config} {s s' s'' : Server} {a c d : ℕ} {m : Str} {t : BanType} {ch : Channel}

/-- Every channel has the lists it had, or empty ones. -/
structure ListsLeft (s s' : Server) : Prop where
  left : ∀ c ch', s'.channel? c = some ch' →
    (∃ ch, s.channel? c = some ch ∧ ∀ t, ch'.bans t = ch.bans t) ∨ ∀ t, ch'.bans t = []

namespace ListsLeft

theorem refl (s : Server) : ListsLeft s s :=
  ⟨fun _ ch hch => Or.inl ⟨ch, hch, fun _ => rfl⟩⟩

theorem of_eq (h : ∀ c, s'.channel? c = s.channel? c) : ListsLeft s s' :=
  ⟨fun c ch' hch' => Or.inl ⟨ch', (h c).symm.trans hch', fun _ => rfl⟩⟩

theorem updChannel (s : Server) (c : ℕ) {f : Channel → Channel}
    (hf : ∀ ch t, (f ch).bans t = ch.bans t) : ListsLeft s (s.updChannel c f) := by
  refine ⟨fun d ch' hch' => ?_⟩
  rw [channel?_updChannel] at hch'
  split at hch'
  · obtain ⟨ch, hch, rfl⟩ := Option.map_eq_some_iff.mp hch'
    exact Or.inl ⟨ch, hch, hf ch⟩
  · exact Or.inl ⟨ch', hch', fun _ => rfl⟩

theorem updFlags (s : Server) (m : ℕ) (f : MemberFlags → MemberFlags) :
    ListsLeft s (s.updFlags m f) := of_eq fun _ => rfl

theorem addUserToChannel (s : Server) (c a : ℕ) (flags : MemberFlags) :
    ListsLeft s (s.addUserToChannel c a flags) := of_eq (channel?_addUserToChannel s c a flags)

theorem introduce (s : Server) (who : Client) : ListsLeft s (s.introduce who) :=
  of_eq fun d => by rw [Server.introduce, channel?_updClient]; rfl

/-- A new channel has no masks. -/
theorem makeChannel (s : Server) (now : ℤ) (name : Str) :
    ListsLeft s (s.makeChannel now name).1 := by
  refine ⟨fun d ch' hch' => ?_⟩
  by_cases hd : d = s.nextChannel
  · subst hd
    obtain rfl := Option.some.inj ((channel?_makeChannel s now name).symm.trans hch')
    exact Or.inr fun t => by cases t <;> rfl
  · have hsame : (s.makeChannel now name).1.channel? d = s.channel? d := by
      simp [channel?, Server.makeChannel, LinkGraph.setRight, hd]
    exact Or.inl ⟨ch', hsame.symm.trans hch', fun _ => rfl⟩

theorem trans (h : ListsLeft s s') (h' : ListsLeft s' s'') : ListsLeft s s'' := by
  refine ⟨fun c ch'' hch'' => ?_⟩
  rcases h'.left c ch'' hch'' with ⟨ch', hch', hbans'⟩ | hempty
  · rcases h.left c ch' hch' with ⟨ch, hch, hbans⟩ | hempty
    · exact Or.inl ⟨ch, hch, fun t => (hbans' t).trans (hbans t)⟩
    · exact Or.inr fun t => (hbans' t).trans (hempty t)
  · exact Or.inr hempty

theorem banCount_le (h : ListsLeft s s') (c : ℕ) : s'.banCount c ≤ s.banCount c := by
  unfold banCount
  cases hch' : s'.channel? c with
  | none => exact Nat.zero_le _
  | some ch' =>
      rcases h.left c ch' hch' with ⟨ch, hch, hbans⟩ | hempty
      · rw [hch]
        have hban := congrArg List.length (hbans .ban)
        have hexcept := congrArg List.length (hbans .exception)
        have hinvex := congrArg List.length (hbans .invex)
        simp only [Channel.bans] at hban hexcept hinvex
        simp only [Option.map_some, Option.getD_some, Channel.banCount]
        omega
      · have hban := congrArg List.length (hempty .ban)
        have hexcept := congrArg List.length (hempty .exception)
        have hinvex := congrArg List.length (hempty .invex)
        simp only [Channel.bans, List.length_nil] at hban hexcept hinvex
        simp only [Option.map_some, Option.getD_some, Channel.banCount]
        omega

end ListsLeft

theorem channel?_ite_clearBanCache (s : Server) (c d : ℕ) (t : BanType) :
    (if t = .invex then s else s.clearBanCache c).channel? d = s.channel? d := by
  split
  · rfl
  · exact channel?_clearBanCache s c d

/-- `del_id` takes the first mask like the given one out of the list. -/
theorem channel?_delId (s : Server) (c d : ℕ) (m : Str) (t : BanType) :
    (s.delId c m t).1.channel? d =
      if d = c then (s.channel? d).map fun ch =>
        ch.setBans ((ch.bans t).eraseP (Ban.parse m).same) t
      else s.channel? d := by
  unfold delId
  cases hch : s.channel? c with
  | none =>
      dsimp only
      split
      · rename_i hd
        rw [hd, hch]
        rfl
      · rfl
  | some ch =>
      dsimp only
      split
      · rw [channel?_updChannel, channel?_ite_clearBanCache]
      · rename_i hany
        rw [channel?_ite_clearBanCache]
        split
        · rename_i hd
          have herase : (ch.bans t).eraseP (Ban.parse m).same = ch.bans t :=
            List.eraseP_of_forall_not fun b hb hsame => hany (List.any_eq_true.mpr ⟨b, hb, hsame⟩)
          rw [hd, hch, Option.map_some, herase, Channel.setBans_bans]
        · rfl

/-- What `add_id` reads: a local user's mask is collapsed. -/
def maskOf (s : Server) (a : ℕ) (m : Str) : Str :=
  if (s.client? a).any Client.myClient then collapse m else m

/-- `add_id` changes nothing, or puts a new mask in front of the list; a local user's only where
the lists have room. -/
theorem channel?_addId_cases (s : Server) (a c : ℕ) (m : Str) (t : BanType) :
    (∀ d, (s.addId cfg a c m t).1.channel? d = s.channel? d) ∨
      ∃ ch, s.channel? c = some ch ∧
        ((s.client? a).any Client.myClient = true → ch.banCount < cfg.maxBans) ∧
        (ch.bans t).any (Ban.parse (s.maskOf a m)).same = false ∧
        ∀ d, (s.addId cfg a c m t).1.channel? d =
          if d = c then some (ch.setBans (Ban.parse (s.maskOf a m) :: ch.bans t) t)
          else s.channel? d := by
  unfold addId
  cases hs : s.client? a with
  | none => exact Or.inl fun _ => rfl
  | some source =>
      cases hch : s.channel? c with
      | none => exact Or.inl fun _ => rfl
      | some ch =>
          dsimp only
          split
          · exact Or.inl fun _ => rfl
          · rename_i hroom
            have hmask : s.maskOf a m = if source.myClient then collapse m else m := by
              rw [maskOf, hs, Option.any_some]
            rw [← hmask]
            split
            · exact Or.inl fun d => channel?_ite_clearBanCache s c d t
            · rename_i hnew
              refine Or.inr ⟨ch, rfl, fun hmy => ?_, by simpa using hnew, fun d => ?_⟩
              · rw [Option.any_some] at hmy
                exact Nat.lt_of_not_le fun hfull => hroom ⟨hmy, hfull⟩
              · rw [channel?_updChannel, channel?_ite_clearBanCache]
                split
                · rename_i hd
                  rw [hd, hch]
                  rfl
                · rfl

end Server

namespace ModeContext

variable {x : ModeContext} {st : ModeState} {t : BanType} {mask : Str}

/-- The tests of the handlers in front of `add_id` and `del_id`. -/
structure Reaches (x : ModeContext) (st : ModeState) (t : BanType) (mask : Str) : Prop where
  level : .halfop ≤ x.alev
  limit : x.source.myClient = true → st.modeLimit < MAXMODEPARAMS
  blank : x.fromServer = true → ' ' ∉ mask
  used : x.source.myClient = true → st.dir = .add → t.used x.cfg = true

/-- The letter of the list gives the mask to `add_id`, and there is room for it. -/
structure Adds (x : ModeContext) (st : ModeState) (t : BanType) (mask : Str) : Prop
    extends x.Reaches st t mask where
  dir : st.dir = .add
  param : st.params.head? = some mask
  room : (st.server.client? x.sourceId).any Client.myClient = true →
    st.server.banCount x.chptr < x.cfg.maxBans

/-- The lists are left alone, and the parameters that are left are the last ones. -/
structure Spares (st st' : ModeState) : Prop where
  lists : st.server.ListsLeft st'.server
  params : st'.params <:+ st.params

namespace Spares

variable {st' : ModeState}

theorem refl (st : ModeState) : Spares st st := ⟨.refl _, List.suffix_rfl⟩

theorem cons {p : Str} {rest : List Str} (h : st.params = p :: rest) :
    Spares st { st with params := rest } := ⟨.refl _, h ▸ List.suffix_cons p rest⟩

theorem tail (st : ModeState) : Spares st { st with params := st.params.tail } :=
  ⟨.refl _, List.tail_suffix _⟩

theorem fail (h : Spares st st') (e : SmErr) : Spares st (st'.fail e) := ⟨h.lists, h.params⟩

theorem record (h : Spares st st') (change : ModeChange) : Spares st (st'.record change) :=
  ⟨h.lists, h.params⟩

theorem updMode (h : Spares st st') (c : ℕ) (f : Mode → Mode) : Spares st (st'.updMode c f) :=
  ⟨h.lists.trans (.updChannel _ c fun ch t => by cases t <;> rfl), h.params⟩

theorem recordParam (h : Spares st st') (c : Char) (arg : ModeArg) :
    Spares st (recordParam st' c arg) := ⟨h.lists, h.params⟩

theorem giveStatus (h : Spares st st') (letter : Char) (flag : MemberFlag) (targ member : ℕ) :
    Spares st (giveStatus st' letter flag targ member) :=
  ⟨h.lists.trans (.updFlags _ member _), h.params⟩

theorem limited {k : ModeState → ModeState} (h : Spares st st')
    (hk : ∀ st₁, Spares st st₁ → Spares st (k st₁)) : Spares st (x.limited st' k) := by
  have hcounted : Spares st { st' with modeLimit := st'.modeLimit + 1 } := ⟨h.lists, h.params⟩
  unfold ModeContext.limited
  split
  · split
    · exact hcounted
    · exact hk _ hcounted
  · exact hk _ h

theorem withMember {level : ChAccess} {k : ℕ → ℕ → ModeState → ModeState}
    (hk : ∀ targ member st', Spares st st' → Spares st (k targ member st')) :
    Spares st (x.withMember st level k) := by
  unfold ModeContext.withMember
  split
  · exact (refl st).fail _
  · split
    · exact refl st
    · exact refl st
    · rename_i hparams _
      have hrest := cons hparams
      dsimp only
      split
      · exact hrest
      · split
        · split
          · exact hrest.fail _
          · exact hk _ _ _ hrest
        · exact hrest

end Spares

section Others

theorem spares_chmSimple (mode : SimpleMode) (c : Char) : Spares st (x.chmSimple st mode c) := by
  have hmask : Spares st { st with simpleModesMask := insert mode st.simpleModesMask } :=
    ⟨.refl _, List.suffix_rfl⟩
  unfold chmSimple
  extract_lets modes st'
  split_ifs
  · exact (Spares.refl st).fail _
  · exact (Spares.refl st).fail _
  · exact (Spares.refl st).fail _
  · exact Spares.refl st
  · exact Spares.refl st
  · exact (hmask.updMode _ _).record _
  · exact (hmask.updMode _ _).record _
  · exact hmask

theorem spares_chmOwner : Spares st (x.chmOwner st) := by
  unfold chmOwner
  refine Spares.withMember fun targ member st' hst' => hst'.limited fun st'' hst'' => ?_
  split
  · exact hst''
  · exact hst''.giveStatus _ _ _ _

theorem spares_chmProtect : Spares st (x.chmProtect st) := by
  unfold chmProtect
  refine Spares.withMember fun targ member st' hst' => ?_
  split
  · exact hst'.fail _
  · refine hst'.limited fun st'' hst'' => ?_
    split
    · exact hst''
    · exact hst''.giveStatus _ _ _ _

theorem spares_chmRank (level : ChAccess) (letter : Char) (flag : MemberFlag) :
    Spares st (x.chmRank st level letter flag) := by
  unfold chmRank
  refine Spares.withMember fun targ member st' hst' => hst'.limited fun st'' hst'' => ?_
  split_ifs
  · exact hst''
  · exact hst''.fail _
  · exact hst''.fail _
  · exact hst''.fail _
  · exact hst''.giveStatus _ _ _ _

theorem spares_chmLimit (c : Char) : Spares st (x.chmLimit st c) := by
  unfold chmLimit
  split
  · exact (Spares.refl st).fail _
  · split
    · rename_i hparams
      have hrest := Spares.cons hparams
      extract_lets st' limit
      split
      · exact hrest
      · exact (hrest.recordParam _ _).updMode _ _
    · split
      · exact Spares.refl st
      · exact ((Spares.refl st).updMode _ _).record _
    · exact Spares.refl st

theorem spares_chmFloodtime (c : Char) : Spares st (x.chmFloodtime st c) := by
  unfold chmFloodtime
  split
  · exact (Spares.refl st).fail _
  · split
    · rename_i hparams
      have hrest := Spares.cons hparams
      extract_lets st'
      split
      · exact hrest
      · split
        · exact hrest
        · exact (hrest.recordParam _ _).updMode _ _
    · split
      · exact Spares.refl st
      · exact ((Spares.refl st).updMode _ _).record _
    · exact Spares.refl st

theorem spares_chmForward (c : Char) : Spares st (x.chmForward st c) := by
  unfold chmForward
  split
  · exact (Spares.refl st).fail _
  · split
    · rename_i hparams
      have hrest := Spares.cons hparams
      extract_lets st' forward
      split
      · exact hrest
      · split
        · exact (hrest.updMode _ _).recordParam _ _
        · exact hrest
    · extract_lets st'
      split
      · exact Spares.tail st
      · exact ((Spares.tail st).updMode _ _).record _
    · exact Spares.refl st

theorem spares_chmKey (c : Char) : Spares st (x.chmKey st c) := by
  unfold chmKey
  split
  · exact (Spares.refl st).fail _
  · split
    · rename_i hparams
      have hrest := Spares.cons hparams
      extract_lets st' key
      split
      · exact hrest
      · exact (hrest.updMode _ _).recordParam _ _
    · extract_lets st'
      split
      · exact Spares.tail st
      · exact ((Spares.tail st).updMode _ _).record _
    · exact Spares.refl st

/-- The other letters leave the lists alone. -/
theorem spares_modeLetter {l : Char} (hl : ∀ t, l ≠ Server.banLetter t) :
    Spares st (x.modeLetter st l) := by
  have hb : l ≠ 'b' := hl .ban
  have he : l ≠ 'e' := hl .exception
  have hI : l ≠ 'I' := hl .invex
  unfold modeLetter
  split
  · exact ⟨.refl _, List.suffix_rfl⟩
  · exact ⟨.refl _, List.suffix_rfl⟩
  · exact ⟨.refl _, List.suffix_rfl⟩
  · unfold modeTable
    split
    all_goals first
      | exact spares_chmSimple _ _
      | exact spares_chmForward _
      | exact spares_chmProtect
      | exact spares_chmFloodtime _
      | exact spares_chmKey _
      | exact spares_chmLimit _
      | exact spares_chmOwner
      | exact spares_chmRank _ _ _
      | exact absurd rfl hb
      | exact absurd rfl he
      | exact absurd rfl hI
      | skip
    unfold chmNosuch
    split
    · exact Spares.refl st
    · exact (Spares.refl st).fail _

end Others

section Given

theorem params_chmMask {rest : List Str} (hst : st.params = mask :: rest) (c : Char)
    (caps : Option ModeCap) (mems : ModeMems) (always : Bool) :
    (x.chmMask st t c caps mems always mask rest).params <:+ st.params := by
  have hrest : rest <:+ st.params := hst ▸ List.suffix_cons mask rest
  unfold chmMask limited
  split
  · split
    · exact List.suffix_rfl
    · dsimp only
      split_ifs <;> exact hrest
  · dsimp only
    split_ifs <;> exact hrest

theorem params_chmBan (c : Char) : (x.chmBan st c).params <:+ st.params := by
  unfold chmBan
  split
  · split <;> exact List.suffix_rfl
  · split <;> exact List.suffix_rfl
  · rename_i hparams _
    split
    · exact List.suffix_rfl
    · exact params_chmMask hparams _ _ _ _

theorem params_chmList (use : Bool) (shown : SmErr) (cap : ModeCap) (c : Char) :
    (x.chmList st t use shown cap c).params <:+ st.params := by
  unfold chmList
  split
  · split <;> exact List.suffix_rfl
  · split
    · exact List.suffix_rfl
    · split
      · split <;> exact List.suffix_rfl
      · split <;> exact List.suffix_rfl
      · rename_i hparams _
        exact params_chmMask hparams _ _ _ _

/-- Every letter leaves the last ones of the parameters. -/
theorem params_modeLetter (l : Char) : (x.modeLetter st l).params <:+ st.params := by
  by_cases hl : ∃ t, l = Server.banLetter t
  · obtain ⟨t, rfl⟩ := hl
    cases t with
    | ban => exact params_chmBan 'b'
    | exception => exact params_chmList x.cfg.useExcept .rplE .ex 'e'
    | invex => exact params_chmList x.cfg.useInvex .rplI .ie 'I'
  · exact (spares_modeLetter fun t ht => hl ⟨t, ht⟩).params

end Given

theorem server_chmMask (c : Char) (caps : Option ModeCap) (mems : ModeMems) (always : Bool)
    (rest : List Str) : (x.chmMask st t c caps mems always mask rest).server =
      if (x.source.myClient = true → st.modeLimit < MAXMODEPARAMS) ∧
          (x.fromServer = true → ' ' ∉ mask) then
        if st.dir = .add then (st.server.addId x.cfg x.sourceId x.chptr mask t).1
        else (st.server.delId x.chptr mask t).1
      else st.server := by
  unfold chmMask limited
  simp only [apply_ite ModeState.server, ModeState.record, ite_self]
  by_cases hblank : x.fromServer = true ∧ ' ' ∈ mask
  · have hstop : ¬ ((x.source.myClient = true → st.modeLimit < MAXMODEPARAMS) ∧
        (x.fromServer = true → ' ' ∉ mask)) := fun h => h.2 hblank.1 hblank.2
    rw [if_pos hblank, if_neg hstop]
    simp only [ite_self]
  · have hmask : x.fromServer = true → ' ' ∉ mask := fun h hmem => hblank ⟨h, hmem⟩
    rw [if_neg hblank]
    by_cases hmy : x.source.myClient = true
    · by_cases hlimit : MAXMODEPARAMS < st.modeLimit + 1
      · rw [if_pos hmy, if_pos hlimit, if_neg fun h => absurd (h.1 hmy) (by omega)]
      · have hpass : (x.source.myClient = true → st.modeLimit < MAXMODEPARAMS) ∧
            (x.fromServer = true → ' ' ∉ mask) := ⟨fun _ => by omega, hmask⟩
        rw [if_pos hmy, if_neg hlimit, if_pos hpass, apply_ite Prod.fst]
    · have hpass : (x.source.myClient = true → st.modeLimit < MAXMODEPARAMS) ∧
          (x.fromServer = true → ' ' ∉ mask) := ⟨fun h => absurd h hmy, hmask⟩
      rw [if_neg hmy, if_pos hpass, apply_ite Prod.fst]

/-- The handler of a list behind the tests on its setting and on the level. -/
theorem server_handler (hlevel : .halfop ≤ x.alev)
    (hused : x.source.myClient = true → st.dir = .add → t.used x.cfg = true) (c : Char)
    (caps : Option ModeCap) (mems : ModeMems) (always : Bool) (rest : List Str)
    (hdir : st.dir ≠ .query) : (x.chmMask st t c caps mems always mask rest).server = st.server ∨
      x.Reaches st t mask ∧
        (st.dir = .add ∧ (x.chmMask st t c caps mems always mask rest).server =
            (st.server.addId x.cfg x.sourceId x.chptr mask t).1 ∨
          st.dir = .del ∧ (x.chmMask st t c caps mems always mask rest).server =
            (st.server.delId x.chptr mask t).1) := by
  rw [server_chmMask]
  split
  · rename_i hpass
    refine Or.inr ⟨⟨hlevel, hpass.1, hpass.2, hused⟩, ?_⟩
    cases hd : st.dir with
    | query => exact absurd hd hdir
    | add => exact Or.inl ⟨rfl, if_pos rfl⟩
    | del => exact Or.inr ⟨rfl, if_neg (by decide)⟩
  · exact Or.inl rfl

theorem server_chmBan (c : Char) : (x.chmBan st c).server = st.server ∨
    ∃ mask rest, st.params = mask :: rest ∧ st.dir ≠ .query ∧ .halfop ≤ x.alev ∧
      x.chmBan st c = x.chmMask st .ban c none .allMembers true mask rest := by
  unfold chmBan
  split
  · split <;> exact Or.inl rfl
  · split <;> exact Or.inl rfl
  · rename_i mask rest hparams hdir
    split
    · exact Or.inl rfl
    · rename_i hlevel
      exact Or.inr ⟨mask, rest, hparams, hdir, not_lt.mp hlevel, rfl⟩

theorem server_chmList (use : Bool) (shown : SmErr) (cap : ModeCap) (c : Char) :
    (x.chmList st t use shown cap c).server = st.server ∨
      ∃ mask rest mems, st.params = mask :: rest ∧ st.dir ≠ .query ∧ .halfop ≤ x.alev ∧
        (x.source.myClient = true → st.dir = .add → use = true) ∧
        x.chmList st t use shown cap c = x.chmMask st t c (some cap) mems false mask rest := by
  unfold chmList
  split
  · split <;> exact Or.inl rfl
  · rename_i huse
    split
    · exact Or.inl rfl
    · rename_i hlevel
      split
      · split <;> exact Or.inl rfl
      · split <;> exact Or.inl rfl
      · rename_i mask rest hparams hdir
        refine Or.inr ⟨mask, rest, _, hparams, hdir, not_lt.mp hlevel, fun hmy hadd => ?_, rfl⟩
        by_contra hoff
        exact huse ⟨by simpa using hoff, hmy, hadd, by simp [hparams]⟩

/-- Nothing, or `add_id` or `del_id` behind the tests. -/
def ListChange (x : ModeContext) (st : ModeState) (t : BanType) (s' : Server) : Prop :=
  s' = st.server ∨ ∃ mask rest, st.params = mask :: rest ∧ x.Reaches st t mask ∧
    (st.dir = .add ∧ s' = (st.server.addId x.cfg x.sourceId x.chptr mask t).1 ∨
      st.dir = .del ∧ s' = (st.server.delId x.chptr mask t).1)

/-- What a letter of the lists does. -/
theorem listChange_banLetter (x : ModeContext) (st : ModeState) (t : BanType) :
    x.ListChange st t (x.modeLetter st (Server.banLetter t)).server := by
  have hlist (use : Bool) (shown : SmErr) (cap : ModeCap) (c : Char) (huse : use = t.used x.cfg)
      (hl : x.modeLetter st (Server.banLetter t) = x.chmList st t use shown cap c) :
      x.ListChange st t (x.modeLetter st (Server.banLetter t)).server := by
    have hcases := @server_chmList x st t use shown cap c
    rw [hl]
    rcases hcases with hsame | ⟨mask, rest, mems, hparams, hdir, hlevel, hused, heq⟩
    · exact Or.inl hsame
    · rw [heq]
      rw [huse] at hused
      rcases server_handler hlevel hused c (some cap) mems false rest hdir with hsame | h
      · exact Or.inl hsame
      · exact Or.inr ⟨mask, rest, hparams, h⟩
  cases t with
  | ban =>
      have hl : x.modeLetter st (Server.banLetter .ban) = x.chmBan st 'b' := rfl
      rw [hl]
      rcases @server_chmBan x st 'b' with hsame | ⟨mask, rest, hparams, hdir, hlevel, heq⟩
      · exact Or.inl hsame
      · rw [heq]
        have hused : x.source.myClient = true → st.dir = .add → BanType.ban.used x.cfg = true :=
          fun _ _ => rfl
        rcases server_handler hlevel hused 'b' none .allMembers true rest hdir with hsame | h
        · exact Or.inl hsame
        · exact Or.inr ⟨mask, rest, hparams, h⟩
  | exception => exact hlist x.cfg.useExcept .rplE .ex 'e' rfl rfl
  | invex => exact hlist x.cfg.useInvex .rplI .ie 'I' rfl rfl

/-- Behind the tests a letter with `-` is `del_id`. -/
theorem server_banLetter_del {rest : List Str} (hdir : st.dir = .del)
    (hparams : st.params = mask :: rest) (h : x.Reaches st t mask) :
    (x.modeLetter st (Server.banLetter t)).server = (st.server.delId x.chptr mask t).1 := by
  have hlevel : ¬ x.alev < .halfop := not_lt.mpr h.level
  have hmask (c : Char) (caps : Option ModeCap) (mems : ModeMems) (always : Bool) :
      (x.chmMask st t c caps mems always mask rest).server =
        (st.server.delId x.chptr mask t).1 := by
    rw [server_chmMask, if_pos ⟨h.limit, h.blank⟩, hdir, if_neg (by decide)]
  have hlist (use : Bool) (shown : SmErr) (cap : ModeCap) (c : Char) :
      (x.chmList st t use shown cap c).server = (st.server.delId x.chptr mask t).1 := by
    unfold chmList
    simp only [hdir, hparams, reduceCtorEq, false_and, and_false, if_false, if_neg hlevel, hmask]
  cases t with
  | ban =>
      have hban : x.modeLetter st (Server.banLetter .ban) =
          x.chmMask st .ban 'b' none .allMembers true mask rest :=
        show x.chmBan st 'b' = _ by
          unfold chmBan
          simp only [hdir, hparams, if_neg hlevel]
      rw [hban, hmask]
  | exception => exact hlist x.cfg.useExcept .rplE .ex 'e'
  | invex => exact hlist x.cfg.useInvex .rplI .ie 'I'

end ModeContext

/-- The masks that the loop of `ms_bmask` gives to `add_id`. -/
def bmaskMasks : List Str → List Str
  | [] => []
  | m :: ms =>
      if MODEBUFLEN < m.length then []
      else
        let taken (m : Str) : List Str := if bmaskTaken m then [m] else []
        match ms, bmaskOverrun m with
        | _ :: _, some m' => taken m ++ if MODEBUFLEN < m'.length then [] else taken m'
        | ms, _ => taken m ++ bmaskMasks ms

namespace Server

variable {cfg : Config} {s s' : Server} {a c : ℕ} {t : BanType}

/-- The masks of a BMASK line that are given to `add_id`. -/
def bmaskGiven (s : Server) : List Str → List Str
  | ts :: chname :: type :: masks :: _ =>
      match s.hashFindChannel chname, bmaskType type with
      | some c, some _ =>
          if (s.channel? c).any fun ch => ch.channelts < Decimal.atol ts then []
          else bmaskMasks ((masks.take (IRCD_BUFSIZE - 1)).splitOn ' ')
      | _, _ => []
  | _ => []

theorem foldl_bmaskMask (s : Server) (m : Str) :
    (if bmaskTaken m then [m] else []).foldl (fun s m => (s.addId cfg a c m t).1) s =
      s.bmaskMask cfg a c t m := by
  unfold bmaskMask
  split <;> rfl

theorem bmaskLoop_eq_foldl (s : Server) (ms : List Str) : s.bmaskLoop cfg a c t ms =
    (bmaskMasks ms).foldl (fun s m => (s.addId cfg a c m t).1) s := by
  induction ms generalizing s with
  | nil => rfl
  | cons m ms ih =>
      unfold bmaskLoop bmaskMasks
      split
      · rfl
      · cases ms with
        | nil =>
            dsimp only
            rw [List.foldl_append, foldl_bmaskMask, ih]
        | cons n ms =>
            cases hover : bmaskOverrun m with
            | none =>
                dsimp only
                rw [List.foldl_append, foldl_bmaskMask, ih]
            | some m' =>
                dsimp only
                rw [List.foldl_append, foldl_bmaskMask]
                split
                · rfl
                · rw [foldl_bmaskMask]

/-- What `ms_bmask` does: it gives masks to `add_id`. -/
theorem msBmask_eq_foldl (s : Server) (parv : List Str) : s.msBmask cfg a parv = s ∨
    ∃ c t, s.msBmask cfg a parv =
      (s.bmaskGiven parv).foldl (fun s m => (s.addId cfg a c m t).1) s := by
  rcases parv with _ | ⟨ts, _ | ⟨chname, _ | ⟨type, _ | ⟨masks, rest⟩⟩⟩⟩
  · exact Or.inl rfl
  · exact Or.inl rfl
  · exact Or.inl rfl
  · exact Or.inl rfl
  · unfold msBmask bmaskGiven
    dsimp only
    cases hc : s.hashFindChannel chname with
    | none => exact Or.inl rfl
    | some c =>
        cases ht : bmaskType type with
        | none => exact Or.inl rfl
        | some t =>
            dsimp only
            split
            · exact Or.inl rfl
            · exact Or.inr ⟨c, t, bmaskLoop_eq_foldl s _⟩

/-- One operation on the lists: a letter of a MODE command, in any context and state of its
handler; BMASK; or another change that leaves the lists alone or empties them. Every mask that is
added is `ok`. -/
inductive ListStep (cfg : Config) (ok : Str → Prop) : Server → Server → Prop
  | letter (x : ModeContext) (st : ModeState) (l : Char) (hcfg : x.cfg = cfg)
      (hok : ∀ t mask, l = banLetter t → x.Adds st t mask → ok mask) :
      ListStep cfg ok st.server (x.modeLetter st l).server
  | bmask (s : Server) (a : ℕ) (parv : List Str) (hok : ∀ mask ∈ s.bmaskGiven parv, ok mask) :
      ListStep cfg ok s (s.msBmask cfg a parv)
  | other {s s' : Server} (h : s.ListsLeft s') : ListStep cfg ok s s'

section Commands

variable {x : ModeContext} {st : ModeState} {ok : Str → Prop}

theorem listSteps_modeLetter (hok : ∀ mask ∈ st.params, ok mask) (modes : Str) :
    Relation.ReflTransGen (ListStep x.cfg ok) st.server (modes.foldl x.modeLetter st).server := by
  induction modes generalizing st with
  | nil => exact .refl
  | cons l modes ih =>
      have hletter : ListStep x.cfg ok st.server (x.modeLetter st l).server :=
        .letter x st l rfl fun _ mask _ hadds => hok mask (List.mem_of_mem_head? hadds.param)
      exact .head hletter (ih fun mask hmask => hok mask ((x.params_modeLetter l).subset hmask))

/-- A MODE command is a run of letters. -/
theorem listSteps_mMode (find : Str → Option ℕ) (fromServer : Bool) (a : ℕ) {parv : List Str}
    (hok : ∀ mask ∈ parv, ok mask) :
    Relation.ReflTransGen (ListStep cfg ok) s (s.mMode cfg find fromServer a parv) := by
  have hset (source : Client) (c : ℕ) (member : Option ℕ) (name modes : Str) (params : List Str)
      (hparams : ∀ mask ∈ params, mask ∈ name :: modes :: params → ok mask) :
      Relation.ReflTransGen (ListStep cfg ok) s
        (s.setChannelMode cfg find fromServer a source c member modes params).server :=
    let x : ModeContext :=
      ⟨cfg, find, fromServer, a, source, c, s.getChannelAccess source member⟩
    let st : ModeState := ⟨s, params, .add, ∅, 0, ∅, []⟩
    have hok (mask : Str) (hmask : mask ∈ params) : ok mask :=
      hparams mask hmask (List.mem_cons_of_mem _ (List.mem_cons_of_mem _ hmask))
    @listSteps_modeLetter x st ok hok modes
  unfold mMode
  split
  · split
    · exact .refl
    · split
      · exact .refl
      · split
        · exact hset _ _ _ _ _ _ fun mask _ => hok mask
        · dsimp only
          split
          · exact .refl
          · exact hset _ _ _ _ _ _ fun mask _ => hok mask
  · exact .refl

end Commands

/-- From a server without channels. -/
def ListRun (cfg : Config) (ok : Str → Prop) : Server → Prop :=
  Relation.ReflTransGen (ListStep cfg ok) init

/-- The entries of all lists are made by `add_id` of masks that are `ok`, no two the same. -/
structure ListsHold (s : Server) (ok : Str → Prop) : Prop where
  lists : ∀ c ch, s.channel? c = some ch → ch.ListsMade
  given : ∀ c ch, s.channel? c = some ch → ∀ t, ∀ b ∈ ch.bans t,
    ∃ mask, ok mask ∧ (b = Ban.parse mask ∨ b = Ban.parse (collapse mask))

namespace ListsHold

variable {ok : Str → Prop}

theorem init : Server.init.ListsHold ok where
  lists := nofun
  given := nofun

theorem of_listsLeft (h : s.ListsHold ok) (hleft : s.ListsLeft s') : s'.ListsHold ok := by
  constructor
  · intro c ch' hch'
    rcases hleft.left c ch' hch' with ⟨ch, hch, hbans⟩ | hempty
    · have hlists := h.lists c ch hch
      constructor
      · intro t
        rw [hbans]
        exact hlists.made t
      · intro t
        rw [hbans]
        exact hlists.distinct t
    · constructor
      · intro t
        rw [hempty]
        exact fun b hb => by cases hb
      · intro t
        rw [hempty]
        exact List.Pairwise.nil
  · intro c ch' hch' t b hb
    rcases hleft.left c ch' hch' with ⟨ch, hch, hbans⟩ | hempty
    · rw [hbans] at hb
      exact h.given c ch hch t b hb
    · rw [hempty] at hb
      cases hb

theorem addId (h : s.ListsHold ok) (a c : ℕ) {m : Str} (t : BanType)
    (hm : ((s.client? a).any Client.myClient = true → s.banCount c < cfg.maxBans) → ok m) :
    (s.addId cfg a c m t).1.ListsHold ok := by
  rcases @channel?_addId_cases cfg s a c m t with hsame | ⟨ch, hch, hroom, hnew, hadd⟩
  · exact h.of_listsLeft (.of_eq hsame)
  · have hok : ok m := hm fun hmy => by
      rw [banCount, hch, Option.map_some, Option.getD_some]
      exact hroom hmy
    constructor
    · intro d ch' hch'
      rw [hadd] at hch'
      split at hch'
      · obtain rfl := Option.some.inj hch'
        exact (h.lists c ch hch).cons hnew
      · exact h.lists d ch' hch'
    · intro d ch' hch' u b hb
      rw [hadd] at hch'
      split at hch'
      · obtain rfl := Option.some.inj hch'
        by_cases hu : u = t
        · subst hu
          rw [Channel.bans_setBans_self] at hb
          rcases List.mem_cons.mp hb with rfl | hb
          · refine ⟨m, hok, ?_⟩
            unfold maskOf
            split
            · exact Or.inr rfl
            · exact Or.inl rfl
          · exact h.given c ch hch u b hb
        · rw [Channel.bans_setBans_of_ne ch hu] at hb
          exact h.given c ch hch u b hb
      · exact h.given d ch' hch' u b hb

theorem addIds (h : s.ListsHold ok) (a c : ℕ) (t : BanType) {ms : List Str}
    (hms : ∀ m ∈ ms, ok m) :
    (ms.foldl (fun s m => (s.addId cfg a c m t).1) s).ListsHold ok := by
  induction ms generalizing s with
  | nil => exact h
  | cons m ms ih =>
      exact ih (h.addId a c t fun _ => hms m List.mem_cons_self)
        fun n hn => hms n (List.mem_cons_of_mem m hn)

theorem delId (h : s.ListsHold ok) (c : ℕ) (m : Str) (t : BanType) :
    (s.delId c m t).1.ListsHold ok := by
  have hsublist (ch : Channel) : ((ch.bans t).eraseP (Ban.parse m).same).Sublist (ch.bans t) :=
    List.eraseP_sublist
  constructor
  · intro d ch' hch'
    rw [channel?_delId] at hch'
    split at hch'
    · obtain ⟨ch, hch, rfl⟩ := Option.map_eq_some_iff.mp hch'
      exact (h.lists d ch hch).sublist (hsublist ch)
    · exact h.lists d ch' hch'
  · intro d ch' hch' u b hb
    rw [channel?_delId] at hch'
    split at hch'
    · obtain ⟨ch, hch, rfl⟩ := Option.map_eq_some_iff.mp hch'
      by_cases hu : u = t
      · subst hu
        rw [Channel.bans_setBans_self] at hb
        exact h.given d ch hch u b ((hsublist ch).subset hb)
      · rw [Channel.bans_setBans_of_ne ch hu] at hb
        exact h.given d ch hch u b hb
    · exact h.given d ch' hch' u b hb

/-- One operation keeps the lists. -/
theorem step (h : s.ListsHold ok) (hstep : ListStep cfg ok s s') : s'.ListsHold ok := by
  cases hstep with
  | letter x st l hcfg hok =>
      by_cases hl : ∃ t, l = banLetter t
      · obtain ⟨t, rfl⟩ := hl
        rcases x.listChange_banLetter st t with hsame | ⟨mask, rest, hparams, hreach, hadd | hdel⟩
        · rw [hsame]
          exact h
        · rw [hadd.2]
          refine h.addId x.sourceId x.chptr t fun hroom => hok t mask rfl ?_
          exact ⟨hreach, hadd.1, by rw [hparams, List.head?_cons], hroom⟩
        · rw [hdel.2]
          exact h.delId _ _ _
      · exact h.of_listsLeft (ModeContext.spares_modeLetter fun t ht => hl ⟨t, ht⟩).lists
  | bmask s a parv hok =>
      rcases @msBmask_eq_foldl cfg a s parv with hsame | ⟨c, t, hfold⟩
      · rw [hsame]
        exact h
      · rw [hfold]
        exact h.addIds a c t hok
  | other hleft => exact h.of_listsLeft hleft

theorem of_run (hrun : ListRun cfg ok s) : s.ListsHold ok := by
  induction hrun with
  | refl => exact .init
  | tail _ hstep ih => exact ih.step hstep

end ListsHold

/-- What the code means to keep of the lists. `limit` is about the letters of a local user, and
`removes` about the letter with `-` and the text of a mask that the list shows. -/
structure BansRight (cfg : Config) (s : Server) : Prop where
  distinct : ∀ c ch, s.channel? c = some ch → ∀ t,
    (ch.bans t).Pairwise fun b b' => b.same b' = false
  len : ∀ c ch, s.channel? c = some ch → ∀ t, ∀ b ∈ ch.bans t, ∀ ts6,
    ModeListBuf.tlen ts6 b = (b.text ++ [' ']).length + ts5Len ts6
  limit : ∀ (x : ModeContext) (st : ModeState) (l : Char), x.cfg = cfg → st.server = s →
    (s.client? x.sourceId).any Client.myClient = true →
      (x.modeLetter st l).server.banCount x.chptr ≤ max cfg.maxBans (s.banCount x.chptr)
  removes : ∀ c ch t b, s.channel? c = some ch → b ∈ ch.bans t →
    ∀ (x : ModeContext) (st : ModeState) (rest : List Str), x.chptr = c → st.server = s →
      st.dir = .del → st.params = b.text :: rest → x.Reaches st t b.text →
        ∃ l₁ l₂, ch.bans t = l₁ ++ b :: l₂ ∧
          (x.modeLetter st (banLetter t)).server.channel? c = some (ch.setBans (l₁ ++ l₂) t)

theorem banCount_addId_le (hmy : (s.client? a).any Client.myClient = true) (m : Str) (t : BanType) :
    (s.addId cfg a c m t).1.banCount c ≤ max cfg.maxBans (s.banCount c) := by
  rcases @channel?_addId_cases cfg s a c m t with hsame | ⟨ch, hch, hroom, -, hadd⟩
  · rw [banCount, hsame c, ← banCount]
    exact le_max_right _ _
  · have hcount := ch.banCount_setBans (Ban.parse (s.maskOf a m) :: ch.bans t) t
    have hfree := hroom hmy
    rw [List.length_cons] at hcount
    rw [banCount, hadd c, if_pos rfl, Option.map_some, Option.getD_some]
    exact le_max_of_le_left (by omega)

theorem banCount_delId_le (s : Server) (c : ℕ) (m : Str) (t : BanType) :
    (s.delId c m t).1.banCount c ≤ s.banCount c := by
  rw [banCount, channel?_delId, if_pos rfl, banCount]
  cases s.channel? c with
  | none => exact le_rfl
  | some ch =>
      have hcount := ch.banCount_setBans ((ch.bans t).eraseP (Ban.parse m).same) t
      have hle : ((ch.bans t).eraseP (Ban.parse m).same).length ≤ (ch.bans t).length :=
        List.eraseP_sublist.length_le
      simp only [Option.map_some, Option.getD_some]
      omega

theorem banCount_modeLetter_le {x : ModeContext} {st : ModeState}
    (hmy : (st.server.client? x.sourceId).any Client.myClient = true) (l : Char) :
    (x.modeLetter st l).server.banCount x.chptr ≤
      max x.cfg.maxBans (st.server.banCount x.chptr) := by
  by_cases hl : ∃ t, l = banLetter t
  · obtain ⟨t, rfl⟩ := hl
    rcases x.listChange_banLetter st t with hsame | ⟨mask, rest, -, -, hadd | hdel⟩
    · rw [hsame]
      exact le_max_right _ _
    · rw [hadd.2]
      exact banCount_addId_le hmy mask t
    · rw [hdel.2]
      exact le_max_of_le_right (banCount_delId_le _ _ _ _)
  · have hleft : st.server.ListsLeft (x.modeLetter st l).server :=
      (ModeContext.spares_modeLetter fun t ht => hl ⟨t, ht⟩).lists
    exact le_max_of_le_right (hleft.banCount_le x.chptr)

/-- A mask without a nick is not taken out by its own text. -/
theorem name_ne_nil_of_eraseP {ch : Channel} (h : ch.ListsMade) {b : Ban} {l₁ l₂ : List Ban}
    (hsplit : ch.bans t = l₁ ++ b :: l₂)
    (herase : (ch.bans t).eraseP (Ban.parse b.text).same = l₁ ++ l₂) : b.name ≠ [] := by
  intro hname
  have hstar : (Ban.parse b.text).name ≠ [] := by
    rw [ne_eq, Ban.name_parse_eq_nil_iff, not_not, Ban.text, hname]
    exact fun c hc => by obtain rfl := Option.some.inj hc; decide
  have hdiffer : ¬ (Ban.parse b.text).same b = true := by
    simp only [Ban.same, hname, Bool.and_eq_true, Bool.not_eq_true', irccmp_eq_false_iff,
      List.map_nil, List.map_eq_nil_iff, not_and]
    exact fun hnil => absurd hnil.1 hstar
  have hmem : b ∈ l₁ ++ l₂ := by
    rw [← herase]
    exact (List.mem_eraseP_of_neg hdiffer).mpr (by rw [hsplit]; simp)
  have hdistinct := h.distinct t
  rw [hsplit, List.pairwise_append, List.pairwise_cons] at hdistinct
  have hself := Ban.same_self b
  rcases List.mem_append.mp hmem with hmem | hmem
  · rw [hdistinct.2.2 b hmem b List.mem_cons_self] at hself
    cases hself
  · rw [hdistinct.2.1.1 b hmem] at hself
    cases hself

/-- In every state that is reached the lists are as they are meant, but for the masks without a
nick part. -/
theorem bansRight_iff_of_run {ok : Str → Prop} (hrun : ListRun cfg ok s) :
    s.BansRight cfg ↔
      ∀ c ch t b, s.channel? c = some ch → b ∈ ch.bans t → b.name ≠ [] := by
  have hholds := ListsHold.of_run hrun
  constructor
  · intro h c ch t b hch hb
    have hreach : ModeContext.Reaches ⟨cfg, fun _ => none, false, 0, Client.make [] false false, c,
        .remote⟩ ⟨s, [b.text], .del, ∅, 0, ∅, []⟩ t b.text :=
      ⟨show ChAccess.halfop ≤ ChAccess.remote by decide, nofun, nofun, nofun⟩
    obtain ⟨l₁, l₂, hsplit, hafter⟩ := h.removes c ch t b hch hb _ _ [] rfl rfl rfl rfl hreach
    rw [ModeContext.server_banLetter_del rfl rfl hreach, channel?_delId, if_pos rfl, hch,
      Option.map_some, Option.some.injEq] at hafter
    have hbans := congrArg (Channel.bans · t) hafter
    simp only [Channel.bans_setBans_self] at hbans
    exact name_ne_nil_of_eraseP (hholds.lists c ch hch) hsplit hbans
  · intro hnames
    constructor
    · exact fun c ch hch t => (hholds.lists c ch hch).distinct t
    · intro c ch hch t b hb ts6
      rw [← ModeListBuf.length_ban_text ts6 ((hholds.lists c ch hch).made t b hb).measured,
        List.length_append, List.length_singleton]
    · rintro x st l rfl rfl hmy
      exact banCount_modeLetter_le hmy l
    · rintro c ch t b hch hb x st rest rfl rfl hdir hparams hreach
      obtain ⟨l₁, l₂, hsplit, herase⟩ :=
        (hholds.lists _ ch hch).eraseP_text hb (hnames _ ch t b hch hb)
      refine ⟨l₁, l₂, hsplit, ?_⟩
      rw [ModeContext.server_banLetter_del hdir hparams hreach, channel?_delId, if_pos rfl, hch,
        Option.map_some, herase]

/-- Where no mask with a blank in front is added, the lists are as they are meant. -/
theorem bansRight_of_run (hrun : ListRun cfg Unblank s) : s.BansRight cfg := by
  refine (bansRight_iff_of_run hrun).mpr fun c ch t b hch hb hname => ?_
  obtain ⟨mask, hmask, rfl | rfl⟩ := (ListsHold.of_run hrun).given c ch hch t b hb
  · exact (Ban.name_parse_eq_nil_iff mask).mp hname hmask
  · exact (Ban.name_parse_eq_nil_iff _).mp hname ((unblank_collapse mask).mpr hmask)

/-- Alice has opened a channel. -/
def banServer : Server :=
  ((init.introduce (Client.make "alice".toList true true)).makeChannel 0
    "#c".toList).1.addUserToChannel 0 0 {MemberFlag.chflChanop}

theorem listRun_banServer {ok : Str → Prop} : ListRun cfg ok banServer :=
  .single (.other (((ListsLeft.introduce ..).trans (.makeChannel ..)).trans (.addUserToChannel ..)))

theorem bansRight_banServer : (banServer.mMode Config.default (fun _ => none) false 0
    ["#c".toList, "+b".toList, "x!y@z".toList]).BansRight Config.default := by
  refine bansRight_of_run (listRun_banServer.trans (listSteps_mMode _ _ _ fun mask hmask => ?_))
  simp only [List.mem_cons, List.not_mem_nil, or_false] at hmask
  rcases hmask with rfl | rfl | rfl <;> exact fun c hc => Option.some.inj hc ▸ rfl

/-- The mask is a blank. -/
theorem not_forall_bansRight : ¬ ∀ cfg s, ListRun cfg (fun _ => True) s → s.BansRight cfg := by
  intro h
  have hrun : ListRun Config.default (fun _ => True) (banServer.mMode Config.default (fun _ => none)
      false 0 ["#c".toList, "+b".toList, " ".toList]) :=
    listRun_banServer.trans (listSteps_mMode _ _ _ fun _ _ => trivial)
  have hempty : ((banServer.mMode Config.default (fun _ => none) false 0
      ["#c".toList, "+b".toList, " ".toList]).channel? 0).any
        (fun ch => ch.banlist.any fun b => b.name.isEmpty) = true := by
    decide
  obtain ⟨ch, hch, hany⟩ := (Option.any_eq_true ..).mp hempty
  obtain ⟨b, hb, hname⟩ := List.any_eq_true.mp hany
  exact (bansRight_iff_of_run hrun).mp (h _ _ hrun) 0 ch .ban b hch hb (List.isEmpty_iff.mp hname)

end Server

end Unirc
