import Unirc.Bmask
import Unirc.SetChannelMode

/-!
# The arrays of a MODE command

`send_mode_changes` and `send_cap_mode_changes` build their lines in `modebuf` and `parabuf`. The
loops are followed with every place of an array they write to.
-/

namespace Unirc

abbrev BAN_FUDGE : ℕ := 10

/-- The static arrays of `channel_mode.c`. -/
inductive ModeArray where
  | modeChanges | nuhMask | modebuf | parabuf
  deriving DecidableEq, Repr

def ModeArray.size : ModeArray → ℕ
  | modeChanges => IRCD_BUFSIZE
  | nuhMask => MAXPARA
  | modebuf => IRCD_BUFSIZE
  | parabuf => MODEBUFLEN

/-- The last place that a store reaches. -/
structure ArrayWrite where
  array : ModeArray
  index : ℕ
  deriving DecidableEq, Repr

abbrev ArrayWrite.InBounds (w : ArrayWrite) : Prop := w.index < w.array.size

/-- A change as the loops send it. -/
structure SentChange where
  letter : Char
  dir : ModeDir
  arg : Option Str

def SentChange.arglen (ch : SentChange) : ℕ := (ch.arg.map List.length).getD 0

/-- The variables of the loops; `mbl` and `pbl` are the lengths of the two texts. -/
structure SendState where
  modebuf : Str
  parabuf : Str
  nc : ℕ
  mc : ℕ
  dir : ModeDir
  lines : List Str
  writes : List ArrayWrite

namespace SendState

def empty : SendState := ⟨[], [], 0, 0, .query, [], []⟩

/-- A new line that starts with `text`. -/
def start (st : SendState) (text : Str) : SendState where
  modebuf := text
  parabuf := []
  nc := 0
  mc := 0
  dir := .query
  lines := st.lines
  writes := st.writes ++ [⟨.modebuf, text.length⟩, ⟨.parabuf, 0⟩]

def send (st : SendState) : SendState :=
  if st.nc = 0 then st else { st with lines := st.lines ++ [st.modebuf ++ ' ' :: st.parabuf] }

/-- A sign without a letter, which `send_mode_changes` alone takes away. -/
def dropSign (st : SendState) : SendState :=
  if st.modebuf.getLast? = some '-' then
    { st with
      modebuf := st.modebuf.dropLast
      writes := st.writes ++ [⟨.modebuf, st.modebuf.length - 1⟩] }
  else st

def Full (st : SendState) (arglen : ℕ) : Prop :=
  st.mc = MAXMODEPARAMS ∨ IRCD_BUFSIZE < arglen + st.modebuf.length + st.parabuf.length + 2 ∨
    MODEBUFLEN ≤ arglen + st.parabuf.length + BAN_FUDGE

instance (st : SendState) (arglen : ℕ) : Decidable (st.Full arglen) := by
  unfold Full
  infer_instance

def flush (trim : Bool) (later : Str) (st : SendState) : SendState :=
  (if trim then st.dropSign else st).send.start later

def putSign (st : SendState) (dir : ModeDir) : SendState :=
  if st.dir = dir then st
  else { st with
    modebuf := st.modebuf ++ [if dir = .add then '+' else '-']
    dir
    writes := st.writes ++ [⟨.modebuf, st.modebuf.length⟩] }

/-- The letter and the NUL behind it. -/
def putLetter (st : SendState) (letter : Char) : SendState :=
  { st with
    modebuf := st.modebuf ++ [letter]
    nc := st.nc + 1
    writes := st.writes ++ [⟨.modebuf, st.modebuf.length + 1⟩] }

def putArg (st : SendState) : Option Str → SendState
  | none => st
  | some arg =>
      { st with
        parabuf := st.parabuf ++ (arg ++ [' '])
        mc := st.mc + 1
        writes := st.writes ++ [⟨.parabuf, st.parabuf.length + arg.length + 1⟩] }

/-- One turn of the loop. -/
def change (trim : Bool) (later : Str) (st : SendState) (ch : SentChange) : SendState :=
  let st := if st.Full ch.arglen then st.flush trim later else st
  ((st.putSign ch.dir).putLetter ch.letter).putArg ch.arg

/-- The last blank becomes the NUL of `parabuf`. -/
def finish (st : SendState) : SendState :=
  if st.parabuf.getLast? = some ' ' then
    send { st with
      parabuf := st.parabuf.dropLast
      writes := st.writes ++ [⟨.parabuf, st.parabuf.length - 1⟩] }
  else st.send

/-- The changes in lines that start with `first` and then with `later`. -/
def run (trim : Bool) (first later : Str) (changes : List SentChange) : SendState :=
  (changes.foldl (change trim later) (empty.start first)).finish

section Bounds

variable {st : SendState} {trim : Bool} {later : Str}

/-- The texts are short, and nothing was written behind the arrays. -/
structure Fits (bound : ℕ) (st : SendState) : Prop where
  modebuf : st.modebuf.length ≤ bound
  parabuf : st.parabuf.length < MODEBUFLEN
  writes : ∀ w ∈ st.writes, w.InBounds

theorem writes_send (st : SendState) : st.send.writes = st.writes := by
  unfold send
  split <;> rfl

theorem Fits.start {bound : ℕ} {text : Str} (h : ∀ w ∈ st.writes, w.InBounds)
    (htext : text.length ≤ bound) (hbound : bound < IRCD_BUFSIZE) : Fits bound (st.start text) := by
  refine ⟨htext, Nat.zero_lt_succ _, fun w hw => ?_⟩
  rcases List.mem_append.mp hw with hw | hw
  · exact h w hw
  · rcases List.mem_cons.mp hw with rfl | hw
    · exact htext.trans_lt hbound
    · rw [List.mem_singleton.mp hw]
      decide

theorem Fits.append {bound : ℕ} (h : Fits bound st) {w : ArrayWrite} (hw : w.InBounds) :
    ∀ v ∈ st.writes ++ [w], v.InBounds := by
  intro v hv
  rcases List.mem_append.mp hv with hv | hv
  · exact h.writes v hv
  · rw [List.mem_singleton.mp hv]
    exact hw

theorem Fits.flush {bound : ℕ} (h : Fits bound st) (hlater : later.length ≤ bound)
    (hbound : bound < IRCD_BUFSIZE) : Fits bound (st.flush trim later) := by
  refine Fits.start ?_ hlater hbound
  rw [writes_send]
  split
  · unfold dropSign
    split
    · exact h.append ((Nat.sub_le _ _).trans h.modebuf |>.trans_lt hbound)
    · exact h.writes
  · exact h.writes

theorem Fits.putSign {bound : ℕ} (h : Fits bound st) (hbound : bound < IRCD_BUFSIZE)
    (dir : ModeDir) : Fits (bound + 1) (st.putSign dir) := by
  unfold SendState.putSign
  split
  · exact ⟨h.modebuf.trans (Nat.le_succ _), h.parabuf, h.writes⟩
  · refine ⟨?_, h.parabuf, h.append (h.modebuf.trans_lt hbound)⟩
    rw [List.length_append, List.length_singleton]
    exact Nat.succ_le_succ h.modebuf

theorem Fits.putLetter {bound : ℕ} (h : Fits bound st) (hbound : bound + 1 < IRCD_BUFSIZE)
    (letter : Char) : Fits (bound + 1) (st.putLetter letter) := by
  have hlen : st.modebuf.length + 1 ≤ bound + 1 := Nat.succ_le_succ h.modebuf
  refine ⟨?_, h.parabuf, h.append (hlen.trans_lt hbound)⟩
  change (st.modebuf ++ [letter]).length ≤ _
  rw [List.length_append, List.length_singleton]
  exact hlen

theorem Fits.putArg {bound : ℕ} (h : Fits bound st) {arg : Option Str}
    (harg : ∀ a ∈ arg, st.parabuf.length + a.length + 1 < MODEBUFLEN) :
    Fits bound (st.putArg arg) := by
  cases arg with
  | none => exact h
  | some a =>
      have hlen := harg a rfl
      refine ⟨h.modebuf, ?_, h.append hlen⟩
      change (st.parabuf ++ (a ++ [' '])).length < _
      rw [List.length_append, List.length_append, List.length_singleton]
      exact hlen

theorem parabuf_putSign (st : SendState) (dir : ModeDir) :
    (st.putSign dir).parabuf = st.parabuf := by
  unfold putSign
  split <;> rfl

/-- The place behind a parameter, once the test for a new line is made. -/
theorem parabuf_flush_lt {ch : SentChange} {arg : Str} (harg : ch.arg = some arg) :
    (if st.Full ch.arglen then st.flush trim later else st).parabuf.length + arg.length + 1 <
      MODEBUFLEN ↔ arg.length + 1 < MODEBUFLEN := by
  have hlen : ch.arglen = arg.length := by simp [SentChange.arglen, harg]
  split
  · change 0 + arg.length + 1 < _ ↔ _
    rw [Nat.zero_add]
  · rename_i hfull
    have hroom : ¬ MODEBUFLEN ≤ arg.length + st.parabuf.length + BAN_FUDGE := fun h =>
      hfull (Or.inr (Or.inr (hlen ▸ h)))
    unfold MODEBUFLEN BAN_FUDGE at hroom
    unfold MODEBUFLEN
    omega

theorem Fits.change {bound : ℕ} (h : Fits bound st) (hlater : later.length ≤ bound)
    (hbound : bound + 2 < IRCD_BUFSIZE) {ch : SentChange}
    (harg : ∀ a ∈ ch.arg, a.length + 1 < MODEBUFLEN) :
    Fits (bound + 2) (st.change trim later ch) := by
  unfold SendState.change
  extract_lets st₁
  have hflush : Fits bound st₁ := by
    dsimp only [st₁]
    split
    · exact h.flush hlater (by omega)
    · exact h
  refine ((hflush.putSign (by omega) _).putLetter hbound _).putArg fun a ha => ?_
  change (st₁.putSign ch.dir).parabuf.length + a.length + 1 < _
  rw [parabuf_putSign]
  exact (parabuf_flush_lt ha).mpr (harg a ha)

theorem Fits.foldl_change {changes : List SentChange} {bound : ℕ} (h : Fits bound st)
    (hlater : later.length ≤ bound) (hbound : bound + 2 * changes.length < IRCD_BUFSIZE)
    (harg : ∀ ch ∈ changes, ∀ a ∈ ch.arg, a.length + 1 < MODEBUFLEN) :
    Fits (bound + 2 * changes.length) (changes.foldl (SendState.change trim later) st) := by
  induction changes generalizing st bound with
  | nil => exact h
  | cons ch changes ih =>
      rw [List.length_cons] at hbound ⊢
      have hstep : Fits (bound + 2) (st.change trim later ch) :=
        h.change hlater (by omega) (harg ch List.mem_cons_self)
      have hrun := ih hstep (by omega) (by omega) fun d hd => harg d (List.mem_cons_of_mem _ hd)
      have heq : bound + 2 * (changes.length + 1) = bound + 2 + 2 * changes.length := by omega
      rw [heq]
      exact hrun

theorem inBounds_finish {bound : ℕ} (h : Fits bound st) : ∀ w ∈ st.finish.writes, w.InBounds := by
  unfold finish
  split
  · rw [writes_send]
    exact h.append ((Nat.sub_le _ _).trans_lt h.parabuf)
  · rw [writes_send]
    exact h.writes

theorem inBounds_run {first : Str} {changes : List SentChange} (bound : ℕ)
    (hfirst : first.length ≤ bound) (hlater : later.length ≤ bound)
    (hbound : bound + 2 * changes.length < IRCD_BUFSIZE)
    (harg : ∀ ch ∈ changes, ∀ a ∈ ch.arg, a.length + 1 < MODEBUFLEN) :
    ∀ w ∈ (run trim first later changes).writes, w.InBounds :=
  inBounds_finish (Fits.foldl_change
    (Fits.start (fun _ hw => absurd hw List.not_mem_nil) hfirst (by omega)) hlater hbound harg)

theorem mem_writes_change (ch : SentChange) {w : ArrayWrite} (hw : w ∈ st.writes) :
    w ∈ (st.change trim later ch).writes := by
  have hflush : w ∈ (st.flush trim later).writes := by
    refine List.mem_append_left _ ?_
    rw [writes_send]
    unfold dropSign
    split_ifs
    · exact List.mem_append_left _ hw
    · exact hw
    · exact hw
  have hsign {t : SendState} (ht : w ∈ t.writes) : w ∈ (t.putSign ch.dir).writes := by
    unfold putSign
    split
    · exact ht
    · exact List.mem_append_left _ ht
  have harg {t : SendState} (ht : w ∈ t.writes) : w ∈ (t.putArg ch.arg).writes := by
    cases ch.arg with
    | none => exact ht
    | some a => exact List.mem_append_left _ ht
  unfold change
  extract_lets st₁
  have hst : w ∈ st₁.writes := by
    dsimp only [st₁]
    split
    · exact hflush
    · exact hw
  exact harg (List.mem_append_left _ (hsign hst))

theorem mem_writes_foldl (changes : List SentChange) {w : ArrayWrite} (hw : w ∈ st.writes) :
    w ∈ (changes.foldl (change trim later) st).writes := by
  induction changes generalizing st with
  | nil => exact hw
  | cons ch changes ih => exact ih (mem_writes_change ch hw)

/-- A parameter that is longer than `parabuf` is written behind its end. -/
theorem not_inBounds_run {first : Str} {changes : List SentChange} {ch : SentChange} {arg : Str}
    (hch : ch ∈ changes) (harg : ch.arg = some arg) (hlong : MODEBUFLEN ≤ arg.length + 1) :
    ∃ w ∈ (run trim first later changes).writes, ¬ w.InBounds := by
  obtain ⟨before, after, rfl⟩ := List.append_of_mem hch
  let st := before.foldl (change trim later) (empty.start first)
  let st₁ := if st.Full ch.arglen then st.flush trim later else st
  have hmem : (⟨.parabuf, st₁.parabuf.length + arg.length + 1⟩ : ArrayWrite) ∈
      (st.change trim later ch).writes := by
    change _ ∈ (((st₁.putSign ch.dir).putLetter ch.letter).putArg ch.arg).writes
    rw [harg, ← parabuf_putSign st₁ ch.dir]
    exact List.mem_append_right _ (List.mem_singleton_self _)
  have hfold := @mem_writes_foldl (st.change trim later ch) trim later after _ hmem
  have hout : ¬ st₁.parabuf.length + arg.length + 1 < MODEBUFLEN := fun h =>
    absurd ((parabuf_flush_lt harg).mp h) (not_lt.mpr hlong)
  refine ⟨⟨.parabuf, st₁.parabuf.length + arg.length + 1⟩, ?_, hout⟩
  unfold run finish
  rw [List.foldl_append, List.foldl_cons]
  split
  · rw [writes_send]
    exact List.mem_append_left _ hfold
  · rw [writes_send]
    exact hfold

end Bounds

end SendState

section Lines

/-- The capabilities of a group of servers, of those that changes may ask for. -/
structure ChCapCombo where
  ex : Bool
  ie : Bool
  ts6 : Bool
  deriving DecidableEq, Repr

def ChCapCombo.has (cap : ChCapCombo) : ModeCap → Bool
  | .ex => cap.ex
  | .ie => cap.ie

def ModeArg.get (m : Mode) : ModeArg → Str
  | text s => s
  | key => m.key.val
  | forward => m.forward.val

/-- The change for the local members, if it is for them. -/
def ModeChange.forMembers (m : Mode) (ch : ModeChange) : Option SentChange :=
  match ch.letter with
  | none => none
  | some c => if ch.mems = .onlyServers then none else some ⟨c, ch.dir, ch.arg.map (·.get m)⟩

/-- The change for the servers with these capabilities; `nocaps` is never set. -/
def ModeChange.forServers (cap : ChCapCombo) (m : Mode) (ch : ModeChange) : Option SentChange :=
  match ch.letter with
  | none => none
  | some c =>
      if ch.caps.all cap.has then
        let id := if cap.ts6 then ch.id.filter (· ≠ []) else none
        some ⟨c, ch.dir, id.or (ch.arg.map (·.get m))⟩
      else none

/-- A line of a MODE from `origin`. -/
def modeStart (origin : Str) (ch : Channel) : Str :=
  ':' :: (origin ++ (" MODE ".toList ++ (ch.chname.val ++ [' '])))

def nuhOrigin (who : Client) : Str := who.name.val ++ '!' :: (who.username ++ '@' :: who.host)

/-- The first loop of `send_mode_changes`. -/
def sendLocalChanges (cfg : Config) (source : Client) (ch : Channel) (m : Mode)
    (changes : List ModeChange) : SendState :=
  let first :=
    if source.isClient then nuhOrigin source
    else if source.hidden || cfg.hideServers then cfg.meName else source.name.val
  let later := if source.isClient then nuhOrigin source else cfg.meName
  SendState.run true (modeStart first ch) (modeStart later ch)
    (changes.filterMap (·.forMembers m))

/-- `send_cap_mode_changes` -/
def sendCapModeChanges (cap : ChCapCombo) (source : Client) (ch : Channel) (m : Mode)
    (changes : List ModeChange) : SendState :=
  let byId := cap.ts6 && source.id.val ≠ []
  let first :=
    if byId then ':' :: (source.id.val ++ (" TMODE ".toList ++ (formatULong ch.channelts ++
      ' ' :: (ch.chname.val ++ [' ']))))
    else modeStart source.name.val ch
  let later := modeStart (if byId then source.id.val else source.name.val) ch
  SendState.run false first later (changes.filterMap (·.forServers cap m))

/-- `send_mode_changes`; `combos` are the combinations of capabilities that some server has. -/
def sendModeChanges (cfg : Config) (combos : List ChCapCombo) (source : Client) (ch : Channel)
    (m : Mode) (changes : List ModeChange) : List SendState :=
  if changes = [] then []
  else sendLocalChanges cfg source ch m changes ::
    combos.map fun cap => sendCapModeChanges cap source ch m changes

end Lines

section Command

namespace ModeContext

variable (x : ModeContext)

/-- What a letter stores in `nuh_mask` and `mode_changes`: a mask is copied to the row `parn` just
before `parn` goes on. -/
def letterWrites (parc : ℕ) (st : ModeState) (c : Char) : List ArrayWrite :=
  let st' := x.modeLetter st c
  (if c ∈ ['b', 'e', 'I'] ∧ st'.params.length < st.params.length then
    [⟨.nuhMask, parc - st.params.length⟩] else []) ++
  ((List.range st'.changes.length).filter fun i => st'.changes[i]? ≠ st.changes[i]?).map
    (⟨.modeChanges, ·⟩)

def handlerWrites (parc : ℕ) : ModeState → Str → List ArrayWrite
  | _, [] => []
  | st, c :: modes => x.letterWrites parc st c ++ handlerWrites parc (x.modeLetter st c) modes

end ModeContext

/-- All that `set_channel_mode` stores in the arrays, for the channel `ch` with the number `c`. -/
def Server.setChannelModeWrites (cfg : Config) (combos : List ChCapCombo) (s : Server)
    (find : Str → Option ℕ) (fromServer : Bool) (a : ℕ) (source : Client) (c : ℕ) (ch : Channel)
    (member : Option ℕ) (modes : Str) (params : List Str) : List ArrayWrite :=
  let x : ModeContext := ⟨cfg, find, fromServer, a, source, c, s.getChannelAccess source member⟩
  let st := s.setChannelMode cfg find fromServer a source c member modes params
  x.handlerWrites (params.length + 1) ⟨s, params, .add, ∅, 0, ∅, []⟩ modes ++
    (sendModeChanges cfg combos source ch (st.mode c) st.changes).flatMap SendState.writes

end Command

end Unirc
