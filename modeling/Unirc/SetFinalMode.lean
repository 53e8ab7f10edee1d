import Unirc.ChannelMode

/-!
# The mode difference shown to local clients

`set_final_mode` of `m_sjoin.c` and of `m_join.c`. Both print the same changes;
they differ in the order of the letters and in how the signs are placed. A
client replays the letters on what `channel_modes` shows of the old mode.
-/

namespace Unirc

open SimpleMode

/-- The table of `m_sjoin.c` and `m_join.c`. -/
def finalFlags : List (SimpleMode × Char) :=
  [(modeBwSaver, 'B'), (modeStripColor, 'C'), (modeModReg, 'M'), (modeNoNotices, 'N'),
    (modeOperOnly, 'O'), (modeRegOnly, 'R'), (modeNoSpam, 'S'), (modeNoCtrl, 'c'),
    (modeNoPrivMsgs, 'n'), (modeTopicLimit, 't'), (modeSecret, 's'), (modeModerated, 'm'),
    (modeInviteOnly, 'i'), (modePrivate, 'p'), (modeChanReg, 'r'), (modeNoFlood, 'd')]

/-- One letter written to `modebuf`, with what `ircsprintf` adds to `parabuf`. -/
structure Change where
  adding : Bool
  letter : Char
  param : Option Str
  deriving DecidableEq

namespace FinalMode

variable (mode oldmode : Mode)

def flagsOff : List Change :=
  (letters finalFlags (oldmode.mode \ mode.mode)).map fun c => ⟨false, c, none⟩

def flagsOn : List Change :=
  (letters finalFlags (mode.mode \ oldmode.mode)).map fun c => ⟨true, c, none⟩

def limitOff : List Change :=
  if oldmode.limit ≠ 0 ∧ mode.limit = 0 then [⟨false, 'l', none⟩] else []

/-- The test for `-f`: both numbers were set and both are now zero. -/
abbrev FloodOff : Prop :=
  (oldmode.msgs ≠ 0 ∧ mode.msgs = 0) ∧ (oldmode.per ≠ 0 ∧ mode.per = 0)

def floodOff : List Change :=
  if FloodOff mode oldmode then [⟨false, 'f', none⟩] else []

def keyOff : List Change :=
  if oldmode.key.val ≠ [] ∧ mode.key.val = [] then [⟨false, 'k', some oldmode.key.val⟩] else []

def forwardOff : List Change :=
  if oldmode.forward.val ≠ [] ∧ mode.forward.val = [] then
    [⟨false, 'F', some oldmode.forward.val⟩] else []

def limitOn : List Change :=
  if mode.limit ≠ 0 ∧ oldmode.limit ≠ mode.limit then
    [⟨true, 'l', some (formatInt mode.limit)⟩] else []

/-- The two tests for `+f`: both numbers are set and both changed, and both are
within the bounds that `SJOIN` accepts. -/
abbrev FloodOn : Prop :=
  ((mode.msgs ≠ 0 ∧ oldmode.msgs ≠ mode.msgs) ∧ (mode.per ≠ 0 ∧ oldmode.per ≠ mode.per)) ∧
    (mode.msgs.toNat < 99 ∧ mode.per.toNat < 99 ∧ 1 ≤ mode.msgs.toNat ∧ 0 < mode.per.toNat)

def floodOn : List Change :=
  if FloodOn mode oldmode then [⟨true, 'f', some (formatFlood mode.msgs mode.per)⟩] else []

def keyOn : List Change :=
  if mode.key.val ≠ [] ∧ oldmode.key.val ≠ mode.key.val then
    [⟨true, 'k', some mode.key.val⟩] else []

def forwardOn : List Change :=
  if mode.forward.val ≠ [] ∧ oldmode.forward.val ≠ mode.forward.val then
    [⟨true, 'F', some mode.forward.val⟩] else []

end FinalMode

/-- What a call leaves in `modebuf`, and the parameters it printed, in order. -/
structure ModeLine where
  modebuf : Str
  params : List Str
  deriving DecidableEq

def params (cs : List Change) : List Str := cs.filterMap Change.param

theorem params_cons (c : Change) (cs : List Change) :
    params (c :: cs) = c.param.toList ++ params cs := by
  cases h : c.param <;> simp [params, h]

theorem params_append (cs ds : List Change) : params (cs ++ ds) = params cs ++ params ds :=
  List.filterMap_append

theorem params_letters (adding : Bool) (cs : List Char) :
    params (cs.map fun c => ⟨adding, c, none⟩) = [] := by
  induction cs with
  | nil => rfl
  | cons c cs ih => rw [List.map_cons, params_cons, ih]; rfl

def sign (adding : Bool) : Char := if adding then '+' else '-'

namespace Sjoin

open FinalMode

def off (mode oldmode : Mode) : List Change :=
  flagsOff mode oldmode ++ limitOff mode oldmode ++ floodOff mode oldmode ++
    keyOff mode oldmode ++ forwardOff mode oldmode

def on (mode oldmode : Mode) : List Change :=
  flagsOn mode oldmode ++ limitOn mode oldmode ++ floodOn mode oldmode ++
    keyOn mode oldmode ++ forwardOn mode oldmode

/-- `set_final_mode` of `m_sjoin.c`: a sign nothing followed is written over. -/
def setFinalMode (mode oldmode : Mode) : ModeLine :=
  let mbuf := '-' :: (off mode oldmode).map Change.letter
  let mbuf := if mbuf.getLast? = some '-' then mbuf.dropLast ++ ['+'] else mbuf ++ ['+']
  let mbuf := mbuf ++ (on mode oldmode).map Change.letter
  let mbuf := if mbuf.getLast? = some '+' then mbuf.dropLast else mbuf
  ⟨mbuf, params (off mode oldmode ++ on mode oldmode)⟩

end Sjoin

namespace Join

open FinalMode

def changes (mode oldmode : Mode) : List Change :=
  flagsOn mode oldmode ++ flagsOff mode oldmode ++ limitOff mode oldmode ++
    floodOff mode oldmode ++ keyOff mode oldmode ++ forwardOff mode oldmode ++
    limitOn mode oldmode ++ floodOn mode oldmode ++ keyOn mode oldmode ++ forwardOn mode oldmode

/-- The letters with a sign wherever `what` differs from the change's direction. -/
def render : Option Bool → List Change → Str
  | _, [] => []
  | what, c :: cs =>
      (if what ≠ some c.adding then [sign c.adding] else []) ++
        c.letter :: render (some c.adding) cs

/-- `set_final_mode` of `m_join.c`. -/
def setFinalMode (mode oldmode : Mode) : ModeLine :=
  ⟨render none (changes mode oldmode), params (changes mode oldmode)⟩

end Join

/-- What `channel_modes` shows a member of a channel's mode. -/
structure View where
  letters : Finset Char
  limit : U32
  key : Str
  forward : Str
  flood : Option (U32 × U32)
  deriving DecidableEq

def floodShown (m : Mode) : Option (U32 × U32) :=
  if m.msgs ≠ 0 ∧ m.per ≠ 0 then some (m.msgs, m.per) else none

def view (m : Mode) : View :=
  ⟨(letters flags m.mode).toFinset, m.limit, m.key.val, m.forward.val, floodShown m⟩

/-- A client reading a mode line: its direction, the parameters left, its view. -/
structure Reader where
  adding : Bool
  args : List Str
  view : View

namespace View

/-- The effect of one letter; `param` is its parameter, when it takes one. -/
def change (v : View) (adding : Bool) (letter : Char) (param : Str) : View :=
  if letter = 'l' then
    { v with limit := if adding then BitVec.ofInt 32 (Decimal.atoi param) else 0 }
  else if letter = 'k' then { v with key := if adding then param else [] }
  else if letter = 'F' then { v with forward := if adding then param else [] }
  else if letter = 'f' then
    { v with flood := if adding then
        (parseFlood param).map fun p => (BitVec.ofInt 32 p.1, BitVec.ofInt 32 p.2) else none }
  else if adding then { v with letters := insert letter v.letters }
  else { v with letters := v.letters.erase letter }

end View

/-- The letters that consume a parameter. -/
def takesParam (adding : Bool) (letter : Char) : Bool :=
  letter = 'k' || letter = 'F' || (adding && (letter = 'l' || letter = 'f'))

namespace Reader

def step (r : Reader) (c : Char) : Reader :=
  if c = '+' then { r with adding := true }
  else if c = '-' then { r with adding := false }
  else if takesParam r.adding c then
    { r with args := r.args.tail, view := r.view.change r.adding c (r.args.headD []) }
  else { r with view := r.view.change r.adding c [] }

end Reader

/-- The view after a client has read a whole mode line. -/
def replay (line : ModeLine) (v : View) : View :=
  (line.modebuf.foldl Reader.step ⟨true, line.params, v⟩).view

end Unirc
