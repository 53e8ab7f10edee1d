import Mathlib.Data.Fintype.Defs
import Unirc.ModeFraming

/-!
# The changes that a MODE command records

Each handler records a change with the letter that it is in the table for, in one of the two
directions, and with a parameter exactly when a reader of the line takes one.
-/

namespace Unirc

open MemberFlag SimpleMode

instance : Fintype ModeDir :=
  ⟨{.query, .add, .del}, fun dir => by cases dir <;> decide⟩

theorem ModeChange.Recorded.gone {ch : ModeChange} (h : ch.Recorded) :
    ModeChange.Recorded { ch with letter := none } :=
  ⟨fun _ hc => (by cases hc), h.dir, fun _ hc => (by cases hc), h.id⟩

theorem ModeChange.recorded_plain {c : Char} {dir : ModeDir} (caps : Option ModeCap)
    (mems : ModeMems) (arg : Option ModeArg) (hc : c.isAlpha = true) (hdir : dir ≠ .query)
    (harg : modeTakesParam c dir = arg.isSome) :
    ModeChange.Recorded ⟨some c, dir, caps, mems, none, arg⟩ :=
  ⟨fun _ h => Option.some.inj h ▸ hc, hdir, fun _ h => Option.some.inj h ▸ harg.symm,
    fun h => (by cases h)⟩

namespace ModeContext

/-- What is recorded stays as the handlers record it. -/
structure Keeps (st st' : ModeState) : Prop where
  recorded : (∀ ch ∈ st.changes, ch.Recorded) → ∀ ch ∈ st'.changes, ch.Recorded

variable {x : ModeContext} {st st' : ModeState} {c : Char}

theorem Keeps.quiet (h : st'.changes = st.changes) : Keeps st st' :=
  ⟨fun hst => h ▸ hst⟩

theorem Keeps.more {ch : ModeChange} (hch : ch.Recorded) (h : st'.changes = st.changes ++ [ch]) :
    Keeps st st' := by
  refine ⟨fun hst => ?_⟩
  rw [h]
  exact List.forall_mem_append.mpr ⟨hst, fun d hd => List.mem_singleton.mp hd ▸ hch⟩

theorem keeps_supersede (st : ModeState) (c : Char) : Keeps st (st.supersede c) := by
  refine ⟨fun hst ch hch => ?_⟩
  obtain ⟨d, hd, rfl⟩ := List.mem_map.mp hch
  split
  · exact (hst d hd).gone
  · exact hst d hd

theorem keeps_limited {k : ModeState → ModeState}
    (hk : ∀ st₁ : ModeState, st₁.changes = st.changes → st₁.dir = st.dir →
      st₁.server = st.server → Keeps st₁ (k st₁)) : Keeps st (x.limited st k) := by
  unfold limited
  split
  · split
    · exact Keeps.quiet rfl
    · have hlimit := hk { st with modeLimit := st.modeLimit + 1 } rfl rfl rfl
      exact ⟨hlimit.recorded⟩
  · exact hk st rfl rfl rfl

theorem keeps_chmSimple (modeType : SimpleMode) (hc : c.isAlpha = true)
    (hparam : ∀ dir, modeTakesParam c dir = false) : Keeps st (x.chmSimple st modeType c) := by
  have hadd : ModeChange.Recorded ⟨some c, .add, none, .allMembers, none, none⟩ :=
    ModeChange.recorded_plain none .allMembers none hc (by decide) (hparam .add)
  have hdel : ModeChange.Recorded ⟨some c, .del, none, .allMembers, none, none⟩ :=
    ModeChange.recorded_plain none .allMembers none hc (by decide) (hparam .del)
  unfold chmSimple
  extract_lets mode st₁
  split_ifs
  iterate 5 exact Keeps.quiet rfl
  · exact Keeps.more hadd rfl
  · exact Keeps.more hdel rfl
  · exact Keeps.quiet rfl

theorem keeps_chmMask (hc : c.isAlpha = true) (hparam : ∀ dir, modeTakesParam c dir = true)
    (hdir : st.dir ≠ .query) (type : BanType) (caps : Option ModeCap) (mems : ModeMems)
    (always : Bool) (mask : Str) (rest : List Str) :
    Keeps st (x.chmMask st type c caps mems always mask rest) := by
  refine keeps_limited fun st₁ _ hst₁ _ => ?_
  extract_lets st₂ local_ arg r st₃
  split
  · exact Keeps.quiet rfl
  split
  · exact Keeps.more (ModeChange.recorded_plain caps mems (some _) hc (hst₁ ▸ hdir) (hparam st₁.dir)) rfl
  · exact Keeps.quiet rfl

theorem keeps_chmBan (hc : c.isAlpha = true) (hparam : ∀ dir, modeTakesParam c dir = true) :
    Keeps st (x.chmBan st c) := by
  unfold chmBan
  split
  · split <;> exact Keeps.quiet rfl
  · split <;> exact Keeps.quiet rfl
  · rename_i hdir
    split
    · exact Keeps.quiet rfl
    · exact keeps_chmMask hc hparam hdir ..

theorem keeps_chmList (hc : c.isAlpha = true) (hparam : ∀ dir, modeTakesParam c dir = true)
    (type : BanType) (use : Bool) (shown : SmErr) (cap : ModeCap) :
    Keeps st (x.chmList st type use shown cap c) := by
  unfold chmList
  split
  · split <;> exact Keeps.quiet rfl
  split
  · exact Keeps.quiet rfl
  split
  · split <;> exact Keeps.quiet rfl
  · split <;> exact Keeps.quiet rfl
  · rename_i hdir
    exact keeps_chmMask hc hparam hdir ..

theorem keeps_withMember {level : ChAccess} {k : ℕ → ℕ → ModeState → ModeState}
    (hk : ∀ (st : ModeState) (targ member : ℕ), st.dir ≠ .query →
      (st.server.client? targ).isSome = true → Keeps st (k targ member st)) :
    Keeps st (x.withMember st level k) := by
  unfold withMember
  split
  · exact Keeps.quiet rfl
  split
  · exact Keeps.quiet rfl
  · exact Keeps.quiet rfl
  · rename_i hdir
    extract_lets st₁
    split
    · exact Keeps.quiet rfl
    · split
      · rename_i hany
        split
        · exact Keeps.quiet rfl
        · obtain ⟨who, hwho, -⟩ := (Option.any_eq_true _ _).mp hany
          exact ⟨(hk st₁ _ _ hdir (Option.isSome_iff_exists.mpr ⟨who, hwho⟩)).recorded⟩
      · exact Keeps.quiet rfl

theorem keeps_giveStatus (hc : c.isAlpha = true) (hparam : ∀ dir, modeTakesParam c dir = true)
    (hdir : st.dir ≠ .query) {targ : ℕ} (hwho : (st.server.client? targ).isSome = true)
    (flag : MemberFlag) (member : ℕ) : Keeps st (giveStatus st c flag targ member) := by
  have harg {β : Type} (f : Client → β) : ((st.server.client? targ).map f).isSome = true :=
    Option.isSome_map.trans hwho
  have hch : ModeChange.Recorded ⟨some c, st.dir, none, .allMembers,
      (st.server.client? targ).map (·.id.val),
      (st.server.client? targ).map fun who => .text who.name.val⟩ :=
    ⟨fun _ h => Option.some.inj h ▸ hc, hdir,
      fun _ h => Option.some.inj h ▸ (harg _).trans (hparam st.dir).symm, fun _ => harg _⟩
  exact Keeps.more hch rfl

theorem keeps_chmOwner : Keeps st (x.chmOwner st) := by
  refine keeps_withMember fun st targ member hdir hwho =>
    keeps_limited fun st₁ _ hst₁ hserver => ?_
  split
  · exact Keeps.quiet rfl
  · exact keeps_giveStatus (by decide) (by decide) (hst₁ ▸ hdir) (hserver ▸ hwho) ..

theorem keeps_chmProtect : Keeps st (x.chmProtect st) := by
  refine keeps_withMember fun st targ member hdir hwho => ?_
  split
  · exact Keeps.quiet rfl
  refine keeps_limited fun st₁ _ hst₁ hserver => ?_
  split
  · exact Keeps.quiet rfl
  · exact keeps_giveStatus (by decide) (by decide) (hst₁ ▸ hdir) (hserver ▸ hwho) ..

theorem keeps_chmRank (hc : c.isAlpha = true) (hparam : ∀ dir, modeTakesParam c dir = true)
    (level : ChAccess) (flag : MemberFlag) : Keeps st (x.chmRank st level c flag) := by
  refine keeps_withMember fun st targ member hdir hwho =>
    keeps_limited fun st₁ _ hst₁ hserver => ?_
  split_ifs
  iterate 4 exact Keeps.quiet rfl
  exact keeps_giveStatus hc hparam (hst₁ ▸ hdir) (hserver ▸ hwho) ..

theorem Keeps.set {arg : ModeArg} (hc : c.isAlpha = true) (hparam : modeTakesParam c .add = true)
    (h : st'.changes = (recordParam st c arg).changes) : Keeps st st' := by
  have hch : ModeChange.Recorded ⟨some c, .add, none, .allMembers, none, some arg⟩ :=
    ModeChange.recorded_plain none .allMembers _ hc (by decide) hparam
  have hmore : Keeps (st.supersede c) st' := Keeps.more hch h
  exact ⟨fun hst => hmore.recorded ((keeps_supersede st c).recorded hst)⟩

theorem Keeps.unset (arg : Option Str) (hc : c.isAlpha = true)
    (hparam : modeTakesParam c .del = arg.isSome)
    (h : st'.changes = (recordUnset st c arg).changes) : Keeps st st' :=
  Keeps.more (ModeChange.recorded_plain none .allMembers _ hc (by decide)
    (hparam.trans Option.isSome_map.symm)) h

theorem keeps_chmLimit : Keeps st (x.chmLimit st 'l') := by
  unfold chmLimit
  split
  · exact Keeps.quiet rfl
  split
  · extract_lets st₁ limit
    split
    · exact Keeps.quiet rfl
    · exact Keeps.set (by decide) (by decide) rfl
  · split
    · exact Keeps.quiet rfl
    · exact Keeps.unset none (by decide) (by decide) rfl
  · exact Keeps.quiet rfl

theorem keeps_chmFloodtime : Keeps st (x.chmFloodtime st 'f') := by
  unfold chmFloodtime
  split
  · exact Keeps.quiet rfl
  split
  · extract_lets st₁
    split
    · exact Keeps.quiet rfl
    · split
      · exact Keeps.quiet rfl
      · exact Keeps.set (by decide) (by decide) rfl
  · split
    · exact Keeps.quiet rfl
    · exact Keeps.unset none (by decide) (by decide) rfl
  · exact Keeps.quiet rfl

theorem keeps_chmForward : Keeps st (x.chmForward st 'F') := by
  unfold chmForward
  split
  · exact Keeps.quiet rfl
  split
  · extract_lets st₁ forward
    split_ifs
    · exact Keeps.quiet rfl
    · exact Keeps.set (by decide) (by decide) rfl
    · exact Keeps.quiet rfl
  · extract_lets st₁
    split
    · exact Keeps.quiet rfl
    · exact Keeps.unset (some []) (by decide) (by decide) rfl
  · exact Keeps.quiet rfl

theorem keeps_chmKey : Keeps st (x.chmKey st 'k') := by
  unfold chmKey
  split
  · exact Keeps.quiet rfl
  split
  · extract_lets st₁ key
    split
    · exact Keeps.quiet rfl
    · exact Keeps.set (by decide) (by decide) rfl
  · extract_lets st₁
    split
    · exact Keeps.quiet rfl
    · exact Keeps.unset (some ['*']) (by decide) (by decide) rfl
  · exact Keeps.quiet rfl

theorem keeps_modeLetter (c : Char) : Keeps st (x.modeLetter st c) := by
  unfold modeLetter
  split
  iterate 3 exact Keeps.quiet rfl
  unfold modeTable
  split
  · exact keeps_chmSimple modeBwSaver (by decide) (by decide)
  · exact keeps_chmSimple modeStripColor (by decide) (by decide)
  · exact keeps_chmSimple modeSslOnly (by decide) (by decide)
  · exact keeps_chmForward
  · exact keeps_chmList (by decide) (by decide) ..
  · exact keeps_chmSimple modeModReg (by decide) (by decide)
  · exact keeps_chmSimple modeNoNotices (by decide) (by decide)
  · exact keeps_chmSimple modeOperOnly (by decide) (by decide)
  · exact keeps_chmSimple modeRegOnly (by decide) (by decide)
  · exact keeps_chmSimple modeNoSpam (by decide) (by decide)
  · exact keeps_chmProtect
  · exact keeps_chmBan (by decide) (by decide)
  · exact keeps_chmSimple modeNoCtrl (by decide) (by decide)
  · exact keeps_chmSimple modeNoFlood (by decide) (by decide)
  · exact keeps_chmList (by decide) (by decide) ..
  · exact keeps_chmFloodtime
  · exact keeps_chmRank (by decide) (by decide) ..
  · exact keeps_chmSimple modeInviteOnly (by decide) (by decide)
  · exact keeps_chmKey
  · exact keeps_chmLimit
  · exact keeps_chmSimple modeModerated (by decide) (by decide)
  · exact keeps_chmSimple modeNoPrivMsgs (by decide) (by decide)
  · exact keeps_chmRank (by decide) (by decide) ..
  · exact keeps_chmSimple modePrivate (by decide) (by decide)
  · exact keeps_chmOwner
  · exact keeps_chmSimple modeChanReg (by decide) (by decide)
  · exact keeps_chmSimple modeSecret (by decide) (by decide)
  · exact keeps_chmSimple modeTopicLimit (by decide) (by decide)
  · exact keeps_chmRank (by decide) (by decide) ..
  · unfold chmNosuch
    split <;> exact Keeps.quiet rfl

end ModeContext

/-- What a MODE command records is as the reader of its lines takes it. -/
theorem Server.recorded_setChannelMode (cfg : Config) (s : Server) (find : Str → Option ℕ)
    (fromServer : Bool) (a : ℕ) (source : Client) (c : ℕ) (member : Option ℕ) (modes : Str)
    (params : List Str) :
    (s.setChannelMode cfg find fromServer a source c member modes params).changes.Forall
      ModeChange.Recorded := by
  have hrun (x : ModeContext) (modes : Str) (st : ModeState) :
      ModeContext.Keeps st (modes.foldl x.modeLetter st) := by
    induction modes generalizing st with
    | nil => exact ModeContext.Keeps.quiet rfl
    | cons c modes ih =>
        have hstep : ModeContext.Keeps st (x.modeLetter st c) := ModeContext.keeps_modeLetter c
        exact ⟨fun hst => (ih _).recorded (hstep.recorded hst)⟩
  exact List.forall_iff_forall_mem.mpr
    ((hrun _ modes _).recorded fun ch hch => absurd hch List.not_mem_nil)

end Unirc
