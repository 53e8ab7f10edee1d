import Mathlib.Data.Finset.Card
import Unirc.ChannelPrivilege
import Unirc.ModeSend

/-!
# The bounds of the arrays of a MODE command

A command records fewer changes than `mode_changes` and `modebuf` hold, since each of them uses up a
parameter, a letter of `chm_simple` or a setting of the channel. What a change adds to `parabuf` is
short, except for the parameter of `+f`, which is recorded as it was given.
-/

namespace Unirc

/-- The parameters of the channel that are set. -/
def Mode.settings (m : Mode) : ℕ :=
  (if m.limit = 0 then 0 else 1) + (if m.msgs = 0 then 0 else 1) +
    (if m.key.val = [] then 0 else 1) + (if m.forward.val = [] then 0 else 1)

theorem Mode.settings_le (m : Mode) : m.settings ≤ 4 := by
  unfold settings
  split_ifs <;> decide

theorem card_simpleModes_le (modes : Finset SimpleMode) : modes.card ≤ 18 := by
  let all : Finset SimpleMode := {.modePrivate, .modeSecret, .modeModerated, .modeTopicLimit,
    .modeInviteOnly, .modeNoPrivMsgs, .modeRegOnly, .modeNoCtrl, .modeOperOnly, .modeModReg,
    .modeNoSpam, .modeBwSaver, .modeNoNotices, .modeChanReg, .modeStripColor, .modeNoFlood,
    .modeSslOnly, .modeForward}
  have hall : ∀ m, m ∈ all := fun m => by cases m <;> decide
  exact Finset.card_le_card (t := all) fun m _ => hall m

/-- The texts of a change fit `parabuf`. -/
structure ModeChange.Short (ch : ModeChange) : Prop where
  id : ∀ id ∈ ch.id, id.length + 1 < MODEBUFLEN
  arg : ∀ m, ∀ arg ∈ ch.arg, (arg.get m).length + 1 < MODEBUFLEN

theorem ModeChange.short_text {letter : Option Char} {dir : ModeDir} {caps : Option ModeCap}
    {mems : ModeMems} {id : Option Str} {text : Str} (hid : ∀ i ∈ id, i.length + 1 < MODEBUFLEN)
    (htext : text.length + 1 < MODEBUFLEN) :
    (ModeChange.mk letter dir caps mems id (some (.text text))).Short :=
  ⟨hid, fun _ _ harg => Option.some.inj harg ▸ htext⟩

/-- The changes with those of a letter gone that were to set it. -/
def superseded (c : Char) (changes : List ModeChange) : List ModeChange :=
  changes.map fun change =>
    if change.letter = some c ∧ change.dir = .add then { change with letter := none } else change

@[simp] theorem length_superseded (c : Char) (changes : List ModeChange) :
    (superseded c changes).length = changes.length := List.length_map ..

/-- What a letter records other than a flood setting. -/
inductive Records (changes : List ModeChange) (c : Char) : List ModeChange → Prop
  | same : Records changes c changes
  | more {ch : ModeChange} (short : ch.Short) : Records changes c (changes ++ [ch])
  | latest {ch : ModeChange} (short : ch.Short) (ne : c ≠ 'f') :
      Records changes c (superseded c changes ++ [ch])

/-- The change that `+f` records. -/
def floodChange (lstr : Str) : ModeChange :=
  ⟨some 'f', .add, none, .allMembers, none, some (.text lstr)⟩

namespace ModeContext

variable (x : ModeContext)

/-- The parameter that a letter takes as the setting of `+f`. -/
def acceptedFlood (st : ModeState) (c : Char) : Option Str :=
  if c = 'f' ∧ .halfop ≤ x.alev ∧ st.dir = .add then
    st.params.head?.filter fun lstr => (parseFlood lstr).any fun p =>
      !decide (99 < p.1 ∨ 99 < p.2 ∨ p.1 ≤ 1 ∨ p.2 = 0)
  else none

/-- The last parameter that the letters take as the setting of `+f`. -/
def lastFlood : ModeState → Str → Option Str
  | _, [] => none
  | st, c :: modes => (lastFlood (x.modeLetter st c) modes).or (x.acceptedFlood st c)

/-- What is used up of the changes that a command can record. -/
def spent (st : ModeState) : ℕ :=
  st.changes.length + 2 * st.params.length + (st.mode x.chptr).settings

/-- A letter takes no more than it pays for; a letter of `chm_simple` pays with its bit. -/
structure Pays (st st' : ModeState) : Prop where
  params : st'.params.length ≤ st.params.length
  spent : x.spent st' + st.simpleModesMask.card ≤ x.spent st + st'.simpleModesMask.card

/-- What a letter other than `+f` does. -/
structure Handled (st : ModeState) (c : Char) (st' : ModeState) : Prop extends x.Pays st st' where
  records : Records st.changes c st'.changes

variable {x} {st : ModeState}

section Handlers

theorem mode_updMode (st : ModeState) (c : ℕ) (f : Mode → Mode) :
    (st.updMode c f).mode c = f (st.mode c) ∨
      st.mode c = Mode.zero ∧ (st.updMode c f).mode c = Mode.zero := by
  simp only [ModeState.mode, ModeState.updMode, Server.modeOf, Server.channel?_updChannel, if_true]
  cases st.server.channel? c with
  | none => exact Or.inr ⟨rfl, rfl⟩
  | some ch => exact Or.inl rfl

theorem settings_updMode_le {c : ℕ} {f : Mode → Mode} {n : ℕ}
    (hf : ∀ m, (f m).settings ≤ m.settings + n) :
    ((st.updMode c f).mode c).settings ≤ (st.mode c).settings + n := by
  rcases mode_updMode st c f with h | ⟨h, h'⟩
  · rw [h]
    exact hf _
  · rw [h, h']
    exact Nat.le_add_right _ _

theorem settings_updMode_lt {c : ℕ} {f : Mode → Mode}
    (hf : (f (st.mode c)).settings < (st.mode c).settings) :
    ((st.updMode c f).mode c).settings < (st.mode c).settings := by
  rcases mode_updMode st c f with h | ⟨h, -⟩
  · rw [h]
    exact hf
  · rw [h] at hf
    exact absurd hf (Nat.not_lt_zero _)

theorem Handled.quiet {st' : ModeState} (c : Char) (hchanges : st'.changes = st.changes)
    (hparams : st'.params.length ≤ st.params.length)
    (hmode : st'.mode x.chptr = st.mode x.chptr)
    (hmask : st.simpleModesMask.card ≤ st'.simpleModesMask.card) : x.Handled st c st' where
  params := hparams
  spent := by
    rw [spent, spent, hchanges, hmode]
    omega
  records := hchanges ▸ Records.same

theorem Handled.refl (st : ModeState) (c : Char) : x.Handled st c st :=
  Handled.quiet c rfl le_rfl rfl le_rfl

theorem Handled.fail (st : ModeState) (c : Char) (e : SmErr) : x.Handled st c (st.fail e) :=
  Handled.quiet c rfl le_rfl rfl le_rfl

theorem handled_limited {st₁ : ModeState} {c : Char} {k : ModeState → ModeState}
    (hk : ∀ n, x.Handled st c (k { st₁ with modeLimit := n }))
    (hfull : ∀ n, x.Handled st c { st₁ with modeLimit := n }) :
    x.Handled st c (x.limited st₁ k) := by
  unfold limited
  split
  · split
    · exact hfull _
    · exact hk _
  · exact hk st₁.modeLimit

theorem handled_chmNosuch (c : Char) : x.Handled st c (chmNosuch st) := by
  unfold chmNosuch
  split
  · exact Handled.refl st c
  · exact Handled.fail st c _

/-- A change of `chm_simple`, with the bit of its letter taken. -/
theorem handled_simple {modeType : SimpleMode} (hnew : modeType ∉ st.simpleModesMask) (c : Char)
    {f : Mode → Mode} (hf : ∀ m, (f m).settings ≤ m.settings) (dir : ModeDir) :
    x.Handled st c
      (({ st with simpleModesMask := insert modeType st.simpleModesMask }.updMode x.chptr f).record
        ⟨some c, dir, none, .allMembers, none, none⟩) := by
  have hmode : ((st.updMode x.chptr f).mode x.chptr).settings ≤ (st.mode x.chptr).settings + 0 :=
    settings_updMode_le hf
  refine ⟨⟨le_rfl, ?_⟩, Records.more ⟨fun _ h => (by cases h), fun _ _ h => (by cases h)⟩⟩
  change (st.changes ++ [_]).length + 2 * st.params.length +
    ((st.updMode x.chptr f).mode x.chptr).settings + st.simpleModesMask.card ≤
      spent x st + (insert modeType st.simpleModesMask).card
  rw [Finset.card_insert_of_notMem hnew, List.length_append, List.length_singleton, spent]
  omega

theorem handled_chmSimple (modeType : SimpleMode) (c : Char) :
    x.Handled st c (x.chmSimple st modeType c) := by
  unfold chmSimple
  extract_lets mode st₁
  split
  · exact Handled.fail st c _
  split
  · exact Handled.fail st c _
  split
  · exact Handled.fail st c _
  split
  · exact Handled.refl st c
  split
  · exact Handled.refl st c
  rename_i hnew
  split
  · refine handled_simple hnew c ?_ .add
    exact fun m => le_rfl
  split
  · refine handled_simple hnew c ?_ .del
    exact fun m => le_rfl
  · exact Handled.quiet c rfl le_rfl rfl (Finset.card_le_card (Finset.subset_insert _ _))

/-- A handler that takes a parameter and records a change. -/
theorem Handled.take {st' : ModeState} {p : Str} {rest : List Str} {ch : ModeChange} {c : Char}
    (hparams : st.params = p :: rest) (hrest : st'.params = rest)
    (hmask : st'.simpleModesMask = st.simpleModesMask)
    (hmode : (st'.mode x.chptr).settings ≤ (st.mode x.chptr).settings + 1) (short : ch.Short)
    (hchanges : st'.changes = st.changes ++ [ch] ∨
      c ≠ 'f' ∧ st'.changes = superseded c st.changes ++ [ch]) : x.Handled st c st' := by
  have hlen : st'.changes.length = st.changes.length + 1 := by
    rcases hchanges with h | ⟨-, h⟩
    · rw [h, List.length_append, List.length_singleton]
    · rw [h, List.length_append, length_superseded, List.length_singleton]
  refine ⟨⟨?_, ?_⟩, ?_⟩
  · rw [hparams, hrest]
    exact Nat.le_succ _
  · rw [spent, spent, hlen, hparams, hrest, hmask, List.length_cons]
    omega
  · rcases hchanges with h | ⟨hne, h⟩
    · exact h ▸ Records.more short
    · exact h ▸ Records.latest short hne

/-- A handler that takes a parameter and does nothing with it. -/
theorem Handled.skip {st' : ModeState} {p : Str} {rest : List Str} {c : Char}
    (hparams : st.params = p :: rest) (hrest : st'.params = rest)
    (hchanges : st'.changes = st.changes) (hmode : st'.mode x.chptr = st.mode x.chptr)
    (hmask : st'.simpleModesMask = st.simpleModesMask) : x.Handled st c st' := by
  refine Handled.quiet c hchanges ?_ hmode (hmask ▸ le_rfl)
  rw [hparams, hrest]
  exact Nat.le_succ _

theorem handled_chmMask {mask : Str} {rest : List Str} (hparams : st.params = mask :: rest)
    (type : BanType) (c : Char) (caps : Option ModeCap) (mems : ModeMems) (always : Bool) :
    x.Handled st c (x.chmMask st type c caps mems always mask rest) := by
  refine handled_limited (fun n => ?_) fun n => Handled.quiet c rfl le_rfl rfl le_rfl
  extract_lets st₁ local_ arg r st₂
  have hmode : st₂.mode x.chptr = st.mode x.chptr := by
    change r.1.modeOf x.chptr = _
    dsimp only [r]
    split
    · exact Server.modeOf_addId ..
    · exact Server.modeOf_delId ..
  have hshort : arg.length + 1 < MODEBUFLEN := by
    have hlen : arg.length ≤ 105 := Ban.Made.length_text ⟨_, rfl⟩
    exact (Nat.succ_le_succ hlen).trans_lt (by decide)
  split
  · exact Handled.skip hparams rfl rfl rfl rfl
  split
  · exact Handled.take hparams rfl rfl (hmode ▸ Nat.le_succ _)
      (ModeChange.short_text (fun _ h => by cases h) hshort) (Or.inl rfl)
  · exact Handled.skip hparams rfl rfl hmode rfl

theorem handled_chmBan (c : Char) : x.Handled st c (x.chmBan st c) := by
  unfold chmBan
  split
  · split
    · exact Handled.refl st c
    · exact Handled.fail st c _
  · split
    · exact Handled.refl st c
    · exact Handled.fail st c _
  · rename_i hparams _
    split
    · exact Handled.fail st c _
    · exact handled_chmMask hparams ..

theorem handled_chmList (type : BanType) (use : Bool) (shown : SmErr) (cap : ModeCap) (c : Char) :
    x.Handled st c (x.chmList st type use shown cap c) := by
  unfold chmList
  split
  · split
    · exact Handled.refl st c
    · exact Handled.fail st c _
  split
  · exact Handled.fail st c _
  split
  · split
    · exact Handled.refl st c
    · exact Handled.fail st c _
  · split
    · exact Handled.refl st c
    · exact Handled.fail st c _
  · rename_i hparams _
    exact handled_chmMask hparams ..

theorem handled_withMember {level : ChAccess} {c : Char} {k : ℕ → ℕ → ModeState → ModeState}
    (hk : ∀ opnick rest, st.params = opnick :: rest → ∀ targ member,
      x.Handled st c (k targ member { st with params := rest })) :
    x.Handled st c (x.withMember st level k) := by
  unfold withMember
  split
  · exact Handled.fail st c _
  split
  · exact Handled.refl st c
  · exact Handled.refl st c
  · rename_i opnick rest hparams _
    extract_lets st₁
    have hskip : x.Handled st c st₁ := Handled.skip hparams rfl rfl rfl rfl
    split
    · exact hskip
    · split
      · split
        · exact Handled.skip hparams rfl rfl rfl rfl
        · exact hk opnick rest hparams _ _
      · exact hskip

theorem handled_giveStatus {opnick : Str} {rest : List Str} (hparams : st.params = opnick :: rest)
    (c letter : Char) (flag : MemberFlag) (targ member n : ℕ) :
    x.Handled st c
      (giveStatus { st with params := rest, modeLimit := n } letter flag targ member) := by
  unfold giveStatus
  extract_lets who
  refine Handled.take hparams rfl rfl (Nat.le_succ _) ⟨fun id hid => ?_, fun m arg harg => ?_⟩
    (Or.inl rfl)
  · obtain ⟨a, -, rfl⟩ := Option.map_eq_some_iff.mp hid
    have hlen : a.id.val.length < 13 := a.id.property
    exact (Nat.succ_le_of_lt hlen).trans_lt (by decide)
  · obtain ⟨a, -, rfl⟩ := Option.map_eq_some_iff.mp harg
    have hlen : a.name.val.length < 64 := a.name.property
    exact (Nat.succ_le_of_lt hlen).trans_lt (by decide)

theorem recordParam_updMode (st : ModeState) (c : Char) (arg : ModeArg) (d : ℕ) (f : Mode → Mode) :
    recordParam (st.updMode d f) c arg = (recordParam st c arg).updMode d f := rfl

/-- A setting that a letter takes from a parameter. -/
theorem Handled.set {p : Str} {rest : List Str} {c : Char} {arg : ModeArg} {f : Mode → Mode}
    (hparams : st.params = p :: rest) (hc : c ≠ 'f') (hf : ∀ m, (f m).settings ≤ m.settings + 1)
    (harg : ∀ m, (arg.get m).length + 1 < MODEBUFLEN) :
    x.Handled st c ((recordParam { st with params := rest } c arg).updMode x.chptr f) := by
  have hshort : (ModeChange.mk (some c) .add none .allMembers none (some arg)).Short :=
    ⟨fun _ h => (by cases h), fun m _ h => Option.some.inj h ▸ harg m⟩
  have hmode : ((st.updMode x.chptr f).mode x.chptr).settings ≤ (st.mode x.chptr).settings + 1 :=
    settings_updMode_le hf
  exact Handled.take hparams rfl rfl hmode hshort (Or.inr ⟨hc, rfl⟩)

/-- A setting that a letter takes off. -/
theorem Handled.unset {rest : List Str} {c : Char} {text : Option Str} {f : Mode → Mode}
    (hrest : rest.length ≤ st.params.length)
    (hf : (f (st.mode x.chptr)).settings < (st.mode x.chptr).settings)
    (htext : ∀ t ∈ text, t.length + 1 < MODEBUFLEN) :
    x.Handled st c (recordUnset ({ st with params := rest }.updMode x.chptr f) c text) := by
  have hmode : ((st.updMode x.chptr f).mode x.chptr).settings < (st.mode x.chptr).settings :=
    settings_updMode_lt hf
  refine ⟨⟨hrest, ?_⟩, Records.more ⟨fun _ h => (by cases h), fun m arg harg => ?_⟩⟩
  · change (st.changes ++ [_]).length + 2 * rest.length +
      ((st.updMode x.chptr f).mode x.chptr).settings + st.simpleModesMask.card ≤ _
    rw [List.length_append, List.length_singleton, spent]
    change _ ≤ _ + st.simpleModesMask.card
    omega
  · obtain ⟨t, ht, rfl⟩ := Option.map_eq_some_iff.mp harg
    exact htext t ht

theorem length_print_atoi_le (s : Str) : (Decimal.print (Decimal.atoi s)).length ≤ 11 := by
  have hle : -2 ^ 31 ≤ Decimal.atoi s ∧ Decimal.atoi s < 2 ^ 31 := by
    unfold Decimal.atoi
    exact ⟨Int.le_bmod (by decide), Int.bmod_lt (by decide)⟩
  exact Decimal.length_print_le (by decide) (by omega)

theorem handled_chmLimit {c : Char} (hc : c ≠ 'f') : x.Handled st c (x.chmLimit st c) := by
  unfold chmLimit
  split
  · exact Handled.fail st c _
  split
  · rename_i lstr rest _ hparams
    extract_lets st₁ limit
    split
    · exact Handled.skip hparams rfl rfl rfl rfl
    · refine Handled.set hparams hc (fun m => ?_) fun m => ?_
      · simp only [Mode.settings]
        split_ifs <;> omega
      · exact (Nat.succ_le_succ (length_print_atoi_le lstr)).trans_lt (by decide)
  · split
    · exact Handled.refl st c
    · rename_i hlimit
      refine Handled.unset le_rfl ?_ fun _ h => by cases h
      simp only [Mode.settings, if_neg hlimit, if_true]
      omega
  · exact Handled.refl st c

theorem handled_chmForward {c : Char} (hc : c ≠ 'f') : x.Handled st c (x.chmForward st c) := by
  unfold chmForward
  split
  · exact Handled.fail st c _
  split
  · rename_i text rest _ hparams
    extract_lets st₁ forward
    split
    · exact Handled.skip hparams rfl rfl rfl rfl
    · split
      · rw [recordParam_updMode]
        refine Handled.set hparams hc (fun m => ?_) fun m => ?_
        · simp only [Mode.settings]
          split_ifs <;> omega
        · have hlen : m.forward.val.length < 128 := m.forward.property
          exact (Nat.succ_le_of_lt hlen).trans_lt (by decide)
      · exact Handled.skip hparams rfl rfl rfl rfl
  · extract_lets st₁
    have htail : st.params.tail.length ≤ st.params.length := by
      rw [List.length_tail]
      exact Nat.sub_le _ _
    split
    · exact Handled.quiet c rfl htail rfl le_rfl
    · rename_i hforward
      refine Handled.unset htail ?_ fun t ht => Option.some.inj ht ▸ by decide
      have hne : ¬ (st.mode x.chptr).forward.val = [] := hforward
      simp only [Mode.settings, if_neg hne, Buf.empty, if_true]
      omega
  · exact Handled.refl st c

theorem handled_chmKey {c : Char} (hc : c ≠ 'f') : x.Handled st c (x.chmKey st c) := by
  unfold chmKey
  split
  · exact Handled.fail st c _
  split
  · rename_i text rest _ hparams
    extract_lets st₁ key
    split
    · exact Handled.skip hparams rfl rfl rfl rfl
    · rw [recordParam_updMode]
      refine Handled.set hparams hc (fun m => ?_) fun m => ?_
      · simp only [Mode.settings]
        split_ifs <;> omega
      · have hlen : m.key.val.length < 24 := m.key.property
        exact (Nat.succ_le_of_lt hlen).trans_lt (by decide)
  · extract_lets st₁
    have htail : st.params.tail.length ≤ st.params.length := by
      rw [List.length_tail]
      exact Nat.sub_le _ _
    split
    · exact Handled.quiet c rfl htail rfl le_rfl
    · rename_i hkey
      refine Handled.unset htail ?_ fun t ht => Option.some.inj ht ▸ by decide
      have hne : ¬ (st.mode x.chptr).key.val = [] := hkey
      simp only [Mode.settings, if_neg hne, Buf.empty, if_true]
      omega
  · exact Handled.refl st c

theorem handled_chmOwner (c : Char) : x.Handled st c (x.chmOwner st) := by
  refine handled_withMember fun opnick rest hparams targ member => ?_
  refine handled_limited (fun n => ?_) fun n => Handled.skip hparams rfl rfl rfl rfl
  split
  · exact Handled.skip hparams rfl rfl rfl rfl
  · exact handled_giveStatus hparams ..

theorem handled_chmProtect (c : Char) : x.Handled st c (x.chmProtect st) := by
  refine handled_withMember fun opnick rest hparams targ member => ?_
  split
  · exact Handled.skip hparams rfl rfl rfl rfl
  refine handled_limited (fun n => ?_) fun n => Handled.skip hparams rfl rfl rfl rfl
  split
  · exact Handled.skip hparams rfl rfl rfl rfl
  · exact handled_giveStatus hparams ..

theorem handled_chmRank (level : ChAccess) (letter : Char) (flag : MemberFlag) (c : Char) :
    x.Handled st c (x.chmRank st level letter flag) := by
  refine handled_withMember fun opnick rest hparams targ member => ?_
  refine handled_limited (fun n => ?_) fun n => Handled.skip hparams rfl rfl rfl rfl
  split
  · exact Handled.skip hparams rfl rfl rfl rfl
  split
  · exact Handled.skip hparams rfl rfl rfl rfl
  split
  · exact Handled.skip hparams rfl rfl rfl rfl
  split
  · exact Handled.skip hparams rfl rfl rfl rfl
  · exact handled_giveStatus hparams ..

/-- What a letter does that takes a flood setting. -/
structure TakesFlood (x : ModeContext) (st : ModeState) (lstr : Str) (st' : ModeState) : Prop
    extends x.Pays st st' where
  changes : st'.changes = superseded 'f' st.changes ++ [floodChange lstr]

theorem takesFlood {lstr : Str} {rest : List Str} (hparams : st.params = lstr :: rest)
    {f : Mode → Mode} (hf : ∀ m, (f m).settings ≤ m.settings + 1) :
    x.TakesFlood st lstr
      ((recordParam { st with params := rest } 'f' (.text lstr)).updMode x.chptr f) := by
  have hmode : ((st.updMode x.chptr f).mode x.chptr).settings ≤ (st.mode x.chptr).settings + 1 :=
    settings_updMode_le hf
  refine ⟨⟨?_, ?_⟩, rfl⟩
  · rw [hparams]
    exact Nat.le_succ _
  · change (superseded 'f' st.changes ++ [_]).length + 2 * rest.length +
      ((st.updMode x.chptr f).mode x.chptr).settings + st.simpleModesMask.card ≤
        x.spent st + st.simpleModesMask.card
    rw [List.length_append, length_superseded, List.length_singleton, spent, hparams,
      List.length_cons]
    omega

theorem acceptedFlood_of_ne {c : Char} (hc : c ≠ 'f') : x.acceptedFlood st c = none :=
  if_neg fun h => hc h.1

theorem chmFloodtime_spec : (x.acceptedFlood st 'f' = none ∧ x.Handled st 'f' (x.chmFloodtime st 'f')) ∨
    ∃ lstr, x.acceptedFlood st 'f' = some lstr ∧ x.TakesFlood st lstr (x.chmFloodtime st 'f') := by
  unfold chmFloodtime
  split
  · rename_i hlevel
    exact Or.inl ⟨if_neg fun h => not_le.mpr hlevel h.2.1, Handled.fail st _ _⟩
  rename_i hlevel
  split
  · rename_i lstr rest hdir hparams
    extract_lets st₁
    have hskip : x.Handled st 'f' st₁ := Handled.skip hparams rfl rfl rfl rfl
    have hflood : x.acceptedFlood st 'f' = (some lstr).filter _ :=
      (if_pos ⟨rfl, not_lt.mp hlevel, hdir⟩).trans (by rw [hparams]; rfl)
    split
    · rename_i hparse
      refine Or.inl ⟨?_, hskip⟩
      rw [hflood, Option.filter_some, hparse]
      rfl
    · rename_i xxi xyi hparse
      split
      · rename_i hrange
        refine Or.inl ⟨?_, hskip⟩
        rw [hflood, Option.filter_some, hparse, Option.any_some, decide_eq_true hrange]
        rfl
      · rename_i hrange
        refine Or.inr ⟨lstr, ?_, takesFlood hparams fun m => ?_⟩
        · rw [hflood, Option.filter_some, hparse, Option.any_some, decide_eq_false hrange]
          rfl
        · simp only [Mode.settings]
          split_ifs <;> omega
  · rename_i hdir
    have hnone : x.acceptedFlood st 'f' = none := if_neg fun h => by simp [hdir] at h
    refine Or.inl ⟨hnone, ?_⟩
    split
    · exact Handled.refl st _
    · rename_i hmsgs
      refine Handled.unset le_rfl ?_ fun _ h => by cases h
      simp only [Mode.settings, if_neg hmsgs, if_true]
      omega
  · rename_i hdel hadd
    refine Or.inl ⟨?_, Handled.refl st _⟩
    cases hparams : st.params with
    | nil => simp [acceptedFlood, hparams]
    | cons lstr rest => exact if_neg fun h => hadd lstr rest h.2.2 hparams

end Handlers

theorem modeTable_spec (c : Char) : (x.acceptedFlood st c = none ∧ x.Handled st c (x.modeTable st c)) ∨
    ∃ lstr, x.acceptedFlood st c = some lstr ∧ x.TakesFlood st lstr (x.modeTable st c) := by
  by_cases hc : c = 'f'
  · subst hc
    exact chmFloodtime_spec
  refine Or.inl ⟨acceptedFlood_of_ne hc, ?_⟩
  unfold modeTable
  split
  all_goals first
    | exact absurd rfl hc
    | exact handled_chmSimple _ _
    | exact handled_chmList ..
    | exact handled_chmForward hc
    | exact handled_chmProtect _
    | exact handled_chmOwner _
    | exact handled_chmBan _
    | exact handled_chmKey hc
    | exact handled_chmLimit hc
    | exact handled_chmRank ..
    | exact handled_chmNosuch _

/-- What one character of the mode text records. -/
theorem modeLetter_spec (c : Char) :
    (x.acceptedFlood st c = none ∧ x.Handled st c (x.modeLetter st c)) ∨
      ∃ lstr, x.acceptedFlood st c = some lstr ∧ x.TakesFlood st lstr (x.modeLetter st c) := by
  unfold modeLetter
  split
  · exact Or.inl ⟨acceptedFlood_of_ne (by decide), Handled.quiet _ rfl le_rfl rfl le_rfl⟩
  · exact Or.inl ⟨acceptedFlood_of_ne (by decide), Handled.quiet _ rfl le_rfl rfl le_rfl⟩
  · exact Or.inl ⟨acceptedFlood_of_ne (by decide), Handled.quiet _ rfl le_rfl rfl le_rfl⟩
  · exact modeTable_spec c

section Run

/-- What is known of the changes when `flood` is the last flood setting taken. -/
structure Tracks (flood : Option Str) (changes : List ModeChange) : Prop where
  short : ∀ ch ∈ changes, ch.letter ≠ none → ch.Short ∨ ∃ lstr ∈ flood, ch = floodChange lstr
  kept : ∀ lstr ∈ flood, floodChange lstr ∈ changes

variable {flood : Option Str} {changes changes' : List ModeChange}

theorem Tracks.append (h : Tracks flood changes) {ch : ModeChange} (short : ch.Short) :
    Tracks flood (changes ++ [ch]) where
  short := fun d hd hletter => by
    rcases List.mem_append.mp hd with hd | hd
    · exact h.short d hd hletter
    · exact Or.inl (List.mem_singleton.mp hd ▸ short)
  kept := fun lstr hl => List.mem_append_left _ (h.kept lstr hl)

/-- A change that is left when a letter supersedes. -/
theorem mem_superseded {c : Char} {ch : ModeChange} (hch : ch ∈ superseded c changes)
    (hletter : ch.letter ≠ none) : ch ∈ changes ∧ ¬ (ch.letter = some c ∧ ch.dir = .add) := by
  obtain ⟨d, hd, rfl⟩ := List.mem_map.mp hch
  split at hletter
  · exact absurd rfl hletter
  · rename_i hc
    rw [if_neg hc]
    exact ⟨hd, hc⟩

theorem Tracks.superseded {c : Char} (h : Tracks flood changes) (hc : c ≠ 'f') :
    Tracks flood (Unirc.superseded c changes) where
  short := fun ch hch hletter => h.short ch (mem_superseded hch hletter).1 hletter
  kept := fun lstr hl => by
    refine List.mem_map.mpr ⟨_, h.kept lstr hl, if_neg fun heq => ?_⟩
    exact hc (Option.some.inj heq.1).symm

theorem Tracks.records {c : Char} (h : Tracks flood changes) (hr : Records changes c changes') :
    Tracks flood changes' := by
  cases hr with
  | same => exact h
  | more short => exact h.append short
  | latest short ne => exact (h.superseded ne).append short

theorem Tracks.takesFlood (h : Tracks flood changes) (lstr : Str) :
    Tracks (some lstr) (Unirc.superseded 'f' changes ++ [floodChange lstr]) where
  short := fun ch hch hletter => by
    rcases List.mem_append.mp hch with hch | hch
    · obtain ⟨hmem, hnot⟩ := mem_superseded hch hletter
      refine Or.inl ((h.short ch hmem hletter).resolve_right ?_)
      rintro ⟨l, -, rfl⟩
      exact hnot ⟨rfl, rfl⟩
    · exact Or.inr ⟨lstr, rfl, List.mem_singleton.mp hch⟩
  kept := fun l hl => by
    obtain rfl := Option.some.inj hl
    exact List.mem_append_right _ (List.mem_singleton_self _)

theorem tracks_foldl (modes : Str) (h : Tracks flood st.changes) :
    Tracks ((x.lastFlood st modes).or flood) (modes.foldl x.modeLetter st).changes := by
  induction modes generalizing st flood with
  | nil => exact h
  | cons c modes ih =>
      rw [lastFlood, Option.or_assoc, List.foldl_cons]
      refine ih ?_
      rcases @modeLetter_spec x st c with ⟨hnone, hhandled⟩ | ⟨lstr, hsome, htakes⟩
      · rw [hnone]
        exact h.records hhandled.records
      · rw [hsome, htakes.changes]
        exact h.takesFlood lstr

theorem pays_modeLetter (c : Char) : x.Pays st (x.modeLetter st c) := by
  rcases @modeLetter_spec x st c with ⟨-, h⟩ | ⟨lstr, -, h⟩
  · exact h.toPays
  · exact h.toPays

theorem Pays.trans {st st' st'' : ModeState} (h : x.Pays st st') (h' : x.Pays st' st'') :
    x.Pays st st'' where
  params := h'.params.trans h.params
  spent := by
    have := h.spent
    have := h'.spent
    omega

theorem pays_foldl (modes : Str) : x.Pays st (modes.foldl x.modeLetter st) := by
  induction modes generalizing st with
  | nil => exact ⟨le_rfl, le_rfl⟩
  | cons c modes ih => exact (pays_modeLetter c).trans ih

/-- The changes of a command with few parameters. -/
theorem Pays.length_changes_le {st st' : ModeState} (h : x.Pays st st') {n : ℕ}
    (hchanges : st.changes.length + 2 * st.params.length ≤ n) : st'.changes.length ≤ n + 22 := by
  have hspent := h.spent
  have hsettings := Mode.settings_le (st.mode x.chptr)
  have hmask := card_simpleModes_le st'.simpleModesMask
  simp only [ModeContext.spent] at hspent
  omega

theorem inBounds_letterWrites {parc : ℕ} (c : Char) (hparc : parc < MAXPARA)
    (hchanges : (x.modeLetter st c).changes.length ≤ IRCD_BUFSIZE) :
    ∀ w ∈ x.letterWrites parc st c, w.InBounds := by
  intro w hw
  unfold letterWrites at hw
  rcases List.mem_append.mp hw with hw | hw
  · split at hw
    · rw [List.mem_singleton.mp hw]
      exact (Nat.sub_le _ _).trans_lt hparc
    · cases hw
  · obtain ⟨i, hi, rfl⟩ := List.mem_map.mp hw
    exact (List.mem_range.mp (List.mem_filter.mp hi).1).trans_le hchanges

theorem inBounds_handlerWrites {st₀ : ModeState} {parc : ℕ} (modes : Str) (hparc : parc < MAXPARA)
    (hpays : x.Pays st₀ st) (hchanges : st₀.changes.length + 2 * st₀.params.length ≤ 100) :
    ∀ w ∈ x.handlerWrites parc st modes, w.InBounds := by
  induction modes generalizing st with
  | nil => exact fun _ h => absurd h List.not_mem_nil
  | cons c modes ih =>
      have hnext : x.Pays st₀ (x.modeLetter st c) := hpays.trans (pays_modeLetter c)
      intro w hw
      rcases List.mem_append.mp hw with hw | hw
      · exact inBounds_letterWrites c hparc
          ((hnext.length_changes_le hchanges).trans (by decide)) w hw
      · exact ih hnext w hw

end Run

end ModeContext

section Sending

variable {changes : List ModeChange} {flood : Option Str} {m : Mode}

theorem length_modeStart_le {origin : Str} {n : ℕ} (h : origin.length ≤ n) (ch : Channel) :
    (modeStart origin ch).length ≤ n + 208 := by
  have hname : ch.chname.val.length < 201 := ch.chname.property
  have hmode : " MODE ".toList.length = 6 := rfl
  simp only [modeStart, List.length_cons, List.length_append, List.length_nil]
  omega

theorem length_nuhOrigin_le {who : Client} (huser : who.username.length ≤ USERLEN)
    (hhost : who.host.length ≤ HOSTLEN) : (nuhOrigin who).length ≤ 138 := by
  have hname : who.name.val.length < 64 := who.name.property
  simp only [nuhOrigin, List.length_append, List.length_cons, USERLEN, HOSTLEN] at *
  omega

theorem exists_of_forMembers {ch : ModeChange} {sent : SentChange}
    (h : ch.forMembers m = some sent) :
    ch.letter ≠ none ∧ sent.arg = ch.arg.map (·.get m) := by
  unfold ModeChange.forMembers at h
  split at h
  · cases h
  · rename_i c hc
    split at h
    · cases h
    · obtain rfl := Option.some.inj h
      exact ⟨hc ▸ Option.some_ne_none c, rfl⟩

theorem exists_of_forServers {cap : ChCapCombo} {ch : ModeChange} {sent : SentChange}
    (h : ch.forServers cap m = some sent) :
    ch.letter ≠ none ∧ ∀ a ∈ sent.arg, a ∈ ch.id ∨ a ∈ ch.arg.map (·.get m) := by
  unfold ModeChange.forServers at h
  split at h
  · cases h
  · rename_i c hc
    split at h
    · extract_lets id at h
      obtain rfl := Option.some.inj h
      refine ⟨hc ▸ Option.some_ne_none c, fun a ha => ?_⟩
      rcases Option.or_eq_some_iff.mp ha with hid | ⟨-, harg⟩
      · refine Or.inl ?_
        dsimp only [id] at hid
        split at hid
        · exact (Option.filter_eq_some_iff.mp hid).1
        · cases hid
      · exact Or.inr harg
    · cases h

theorem ModeChange.Short.arg_lt {ch : ModeChange} (h : ch.Short) :
    ∀ a ∈ ch.arg.map (·.get m), a.length + 1 < MODEBUFLEN := by
  intro a ha
  obtain ⟨arg, harg, rfl⟩ := Option.map_eq_some_iff.mp ha
  exact h.arg m arg harg

theorem short_of_tracks (h : ModeContext.Tracks flood changes)
    (hflood : ∀ lstr ∈ flood, lstr.length + 1 < MODEBUFLEN) :
    ∀ ch ∈ changes, ch.letter ≠ none → ch.Short := by
  intro ch hch hletter
  rcases h.short ch hch hletter with hshort | ⟨lstr, hl, rfl⟩
  · exact hshort
  · exact ModeChange.short_text (fun _ h => by cases h) (hflood lstr hl)

theorem inBounds_sendModeChanges {cfg : Config} {source : Client}
    (hme : cfg.meName.length ≤ HOSTLEN) (huser : source.username.length ≤ USERLEN)
    (hhost : source.host.length ≤ HOSTLEN) (combos : List ChCapCombo) (ch : Channel)
    (hlen : changes.length ≤ 50) (hshort : ∀ d ∈ changes, d.letter ≠ none → d.Short) :
    ∀ w ∈ (sendModeChanges cfg combos source ch m changes).flatMap SendState.writes,
      w.InBounds := by
  have hname : source.name.val.length < 64 := source.name.property
  have hid : source.id.val.length < 13 := source.id.property
  have hmap {f : ModeChange → Option SentChange} :
      346 + 2 * (changes.filterMap f).length < IRCD_BUFSIZE := by
    have := List.length_filterMap_le f changes
    simp only [IRCD_BUFSIZE]
    omega
  have hlocal : ∀ w ∈ (sendLocalChanges cfg source ch m changes).writes, w.InBounds := by
    have hnuh := length_nuhOrigin_le huser hhost
    refine SendState.inBounds_run 346 (length_modeStart_le (n := 138) ?_ ch)
      (length_modeStart_le (n := 138) ?_ ch) hmap ?_
    · split
      · exact hnuh
      · split
        · exact hme.trans (by decide)
        · omega
    · split
      · exact hnuh
      · exact hme.trans (by decide)
    · intro sent hsent
      obtain ⟨d, hd, hof⟩ := List.mem_filterMap.mp hsent
      obtain ⟨hletter, harg⟩ := exists_of_forMembers hof
      exact harg ▸ (hshort d hd hletter).arg_lt
  have hcap (cap : ChCapCombo) :
      ∀ w ∈ (sendCapModeChanges cap source ch m changes).writes, w.InBounds := by
    refine SendState.inBounds_run 346 ?_ (length_modeStart_le (n := 138) ?_ ch) hmap ?_
    · split
      · have hts := length_formatULong_le ch.channelts
        have hchname : ch.chname.val.length < 201 := ch.chname.property
        have htmode : " TMODE ".toList.length = 7 := rfl
        simp only [List.length_cons, List.length_append, List.length_nil]
        omega
      · exact length_modeStart_le (n := 138) (by omega) ch
    · split <;> omega
    · intro sent hsent
      obtain ⟨d, hd, hof⟩ := List.mem_filterMap.mp hsent
      obtain ⟨hletter, harg⟩ := exists_of_forServers hof
      intro a ha
      rcases harg a ha with h | h
      · exact (hshort d hd hletter).id a h
      · exact (hshort d hd hletter).arg_lt a h
  intro w hw
  obtain ⟨st, hst, hmem⟩ := List.mem_flatMap.mp hw
  unfold sendModeChanges at hst
  split at hst
  · cases hst
  · rcases List.mem_cons.mp hst with rfl | hst
    · exact hlocal w hmem
    · obtain ⟨cap, -, rfl⟩ := List.mem_map.mp hst
      exact hcap cap w hmem

/-- A flood setting as long as `parabuf` is sent to the members. -/
theorem not_inBounds_sendModeChanges {lstr : Str} (hmem : floodChange lstr ∈ changes)
    (hlong : MODEBUFLEN ≤ lstr.length + 1) (cfg : Config) (combos : List ChCapCombo)
    (source : Client) (ch : Channel) :
    ∃ w ∈ (sendModeChanges cfg combos source ch m changes).flatMap SendState.writes,
      ¬ w.InBounds := by
  have hsent : (⟨'f', .add, some lstr⟩ : SentChange) ∈ changes.filterMap (·.forMembers m) :=
    List.mem_filterMap.mpr ⟨_, hmem, rfl⟩
  obtain ⟨w, hw, hout⟩ : ∃ w ∈ (sendLocalChanges cfg source ch m changes).writes, ¬ w.InBounds :=
    SendState.not_inBounds_run hsent rfl hlong
  refine ⟨w, List.mem_flatMap.mpr ⟨_, ?_, hw⟩, hout⟩
  unfold sendModeChanges
  rw [if_neg (List.ne_nil_of_mem hmem)]
  exact List.mem_cons_self

end Sending

namespace Server

section Command

variable (cfg : Config) (combos : List ChCapCombo) (s : Server) (find : Str → Option ℕ)
  (fromServer : Bool) (a : ℕ) (source : Client) (c : ℕ) (ch : Channel) (member : Option ℕ)

/-- The last parameter that a command takes as the setting of `+f`. -/
def lastFlood (modes : Str) (params : List Str) : Option Str :=
  (⟨cfg, find, fromServer, a, source, c, s.getChannelAccess source member⟩ : ModeContext).lastFlood
    ⟨s, params, .add, ∅, 0, ∅, []⟩ modes

theorem tracks_setChannelMode (modes : Str) (params : List Str) :
    ModeContext.Tracks (s.lastFlood cfg find fromServer a source c member modes params)
      (s.setChannelMode cfg find fromServer a source c member modes params).changes := by
  have h : ModeContext.Tracks
      ((s.lastFlood cfg find fromServer a source c member modes params).or none) _ :=
    ModeContext.tracks_foldl modes ⟨fun _ h => (by cases h), fun _ h => (by cases h)⟩
  rwa [Option.or_none] at h

/-- A flood setting of 199 bytes or more is written behind the end of `parabuf`. -/
theorem not_inBounds_setChannelMode {modes : Str} {params : List Str} {lstr : Str}
    (h : s.lastFlood cfg find fromServer a source c member modes params = some lstr)
    (hlong : 198 < lstr.length) :
    ∃ w ∈ s.setChannelModeWrites cfg combos find fromServer a source c ch member modes params,
      ¬ w.InBounds := by
  have hmem := (tracks_setChannelMode cfg s find fromServer a source c member modes params).kept
    lstr h
  obtain ⟨w, hw, hout⟩ := not_inBounds_sendModeChanges hmem (Nat.succ_le_succ hlong) cfg combos
    source ch
  exact ⟨w, List.mem_append_right _ hw, hout⟩

/-- The arrays of a MODE or TMODE command are kept exactly when the last flood setting it takes has
at most 198 bytes. -/
theorem inBounds_setChannelMode_iff {line modes : Str} {before params : List Str}
    (hme : cfg.meName.length ≤ HOSTLEN) (huser : source.username.length ≤ USERLEN)
    (hhost : source.host.length ≤ HOSTLEN) (hline : (splitLine line).2 = before ++ modes :: params) :
    (∀ w ∈ s.setChannelModeWrites cfg combos find fromServer a source c ch member modes params,
      w.InBounds) ↔
      ∀ lstr ∈ s.lastFlood cfg find fromServer a source c member modes params,
        lstr.length ≤ 198 := by
  constructor
  · intro h lstr hl
    by_contra hlong
    obtain ⟨w, hw, hout⟩ := not_inBounds_setChannelMode cfg combos s find fromServer a source c ch
      member hl (not_le.mp hlong)
    exact hout (h w hw)
  · intro h
    have hparams : params.length + 1 < MAXPARA := by
      have hlen : (splitLine line).2.length < MAXPARA := length_stringToArray _
      rw [hline, List.length_append, List.length_cons] at hlen
      omega
    let x : ModeContext := ⟨cfg, find, fromServer, a, source, c, s.getChannelAccess source member⟩
    have hstart : ([] : List ModeChange).length + 2 * params.length ≤ 28 := by
      simp only [MAXPARA, List.length_nil] at *
      omega
    have hpays : x.Pays ⟨s, params, .add, ∅, 0, ∅, []⟩
        (s.setChannelMode cfg find fromServer a source c member modes params) :=
      ModeContext.pays_foldl modes
    intro w hw
    rcases List.mem_append.mp hw with hw | hw
    · exact ModeContext.inBounds_handlerWrites modes hparams ⟨le_rfl, le_rfl⟩
        (hstart.trans (by decide)) w hw
    · refine inBounds_sendModeChanges hme huser hhost combos ch (hpays.length_changes_le hstart) ?_
        w hw
      exact short_of_tracks (tracks_setChannelMode cfg s find fromServer a source c member modes
        params) fun lstr hl => Nat.lt_succ_of_le (Nat.succ_le_succ (h lstr hl))

end Command

theorem inBounds_setChannelMode_iff_duelServer :
    (∀ w ∈ duelServer.setChannelModeWrites Config.default [⟨true, true, true⟩] (fun _ => none) false
      0 (Client.make "alice".toList true true) 0 ⟨Buf.strlcpy "#c".toList, 1, Mode.zero, [], [], []⟩
      (duelServer.findChannelLink 0 0) "+f".toList ["5:5".toList], w.InBounds) ↔
      ∀ lstr ∈ duelServer.lastFlood Config.default (fun _ => none) false 0
        (Client.make "alice".toList true true) 0 (duelServer.findChannelLink 0 0) "+f".toList
        ["5:5".toList], lstr.length ≤ 198 :=
  inBounds_setChannelMode_iff Config.default _ duelServer _ false 0 _ 0 _ _ (by decide) (by decide)
    (by decide)
    (show (splitLine "MODE #c +f 5:5".toList).2 =
      ["#c".toList] ++ "+f".toList :: ["5:5".toList] by decide)

/-- The text is a setting of 5 messages in 5 seconds. -/
def longFlood : Str := "5:5".toList ++ List.replicate 196 'x'

/-- A half-operator overruns `parabuf` with one line. -/
theorem not_inBounds_duelServer : ¬ ∀ line modes params source ch, line.length ≤ 510 →
    (splitLine line).2 = "#c".toList :: modes :: params → duelServer.client? 0 = some source →
    duelServer.channel? 0 = some ch →
    ∀ w ∈ duelServer.setChannelModeWrites Config.default [] (fun _ => none) false 0 source 0 ch
      (duelServer.findChannelLink 0 0) modes params, w.InBounds := by
  intro h
  obtain ⟨source, hsource⟩ := Option.isSome_iff_exists.mp
    (show (duelServer.client? 0).isSome = true from rfl)
  obtain ⟨ch, hch⟩ := Option.isSome_iff_exists.mp
    (show (duelServer.channel? 0).isSome = true from rfl)
  have hlevel : duelServer.getChannelAccess source (duelServer.findChannelLink 0 0) = .halfop := by
    obtain rfl := Option.some.inj hsource
    decide
  have hflood : duelServer.lastFlood Config.default (fun _ => none) false 0 source 0
      (duelServer.findChannelLink 0 0) "+f".toList [longFlood] = some longFlood := by
    rw [lastFlood, hlevel]
    rfl
  obtain ⟨w, hw, hout⟩ := not_inBounds_setChannelMode Config.default [] duelServer _ false 0 source
    0 ch _ hflood (by decide +kernel)
  exact hout (h ("MODE #c +f ".toList ++ longFlood) _ _ source ch (by decide +kernel)
    (by decide +kernel) hsource hch w hw)

end Server

end Unirc
