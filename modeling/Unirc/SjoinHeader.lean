import Unirc.ModeMerge
import Unirc.Tokens

/-!
# The parameters of SJOIN

`check_channel_name` and the part of `ms_sjoin` that reads the timestamp, the
channel name and the modes, with the running index into the parameters.
-/

namespace Unirc

open SimpleMode

abbrev LOCAL_CHANNELLEN : ℕ := 50

def isChanPrefix (c : Char) : Bool := c = '#' || c = '&'

def isChanChar (c : Char) : Bool :=
  c.toNat ≠ 0 && c.toNat ≠ 7 && c.toNat ≠ 0x20 && c.toNat ≠ 0x2c

/-- Channel characters without the colour, formatting and space-like codes. -/
def isVisibleChanChar (c : Char) : Bool :=
  isChanChar c && c.toNat ≠ 2 && c.toNat ≠ 3 && c.toNat ≠ 0xf && c.toNat ≠ 0x16 &&
    c.toNat ≠ 0x1f && c.toNat ≠ 0xa0

/-- `check_channel_name`, with the setting `disable_fake_channels`. -/
def checkChannelName (disableFakeChannels : Bool) (name : Str) (local_ : Bool) : Bool :=
  match name with
  | [] => false
  | c :: cs => isChanPrefix c &&
      (if !local_ || !disableFakeChannels then cs.all isChanChar else cs.all isVisibleChanChar) &&
      decide (name.length ≤ if local_ then LOCAL_CHANNELLEN else CHANNELLEN)

/-- The simple modes of the switch in `ms_sjoin`. -/
def sjoinFlags : List (Char × SimpleMode) :=
  [('B', modeBwSaver), ('C', modeStripColor), ('M', modeModReg), ('N', modeNoNotices),
    ('O', modeOperOnly), ('R', modeRegOnly), ('S', modeNoSpam), ('c', modeNoCtrl),
    ('t', modeTopicLimit), ('n', modeNoPrivMsgs), ('s', modeSecret), ('m', modeModerated),
    ('i', modeInviteOnly), ('p', modePrivate), ('r', modeChanReg), ('d', modeNoFlood)]

/-- The bounds of a flood pair in `SJOIN`. -/
abbrev FloodAccepted (msgs per : ℤ) : Prop := msgs < 99 ∧ per < 99 ∧ 1 ≤ msgs ∧ 0 < per

/-- Parameters read so far and those from `parv[4 + args]` on. -/
structure SjoinLoop where
  mode : Mode
  args : List Str

namespace SjoinLoop

/-- The mode after a parameter was read, unless `parc < 5 + args`. -/
def advance (mode : Mode) (args : List Str) : Option SjoinLoop :=
  if args.tail = [] then none else some ⟨mode, args.tail⟩

/-- One letter of `parv[3]`. A flood parameter without a colon is left alone. -/
def step (l : SjoinLoop) (c : Char) : Option SjoinLoop :=
  let param := l.args.headD []
  if c = 'F' then advance { l.mode with forward := Buf.strlcpy param } l.args
  else if c = 'f' then
    match parseFlood param with
    | none => some l
    | some (msgs, per) =>
        advance (if FloodAccepted msgs per then
          { l.mode with msgs := BitVec.ofInt 32 msgs, per := BitVec.ofInt 32 per } else l.mode)
          l.args
  else if c = 'k' then advance { l.mode with key := Buf.strlcpy param } l.args
  else if c = 'l' then
    advance { l.mode with limit := BitVec.ofInt 32 (Decimal.atoi param) } l.args
  else
    match sjoinFlags.lookup c with
    | some bit => some ⟨{ l.mode with mode := insert bit l.mode.mode }, l.args⟩
    | none => some l

def run (l : SjoinLoop) (letters : Str) : Option SjoinLoop := letters.foldlM step l

theorem run_append (l : SjoinLoop) (s t : Str) : l.run (s ++ t) = (l.run s).bind (·.run t) :=
  List.foldlM_append

end SjoinLoop

/-- An accepted SJOIN: the mode text is `parv[3]`, the nicks `parv[4 + args]`. -/
structure SjoinHeader where
  newts : ℤ
  chname : Str
  mode : Mode
  modeText : Str
  nicks : Str

/-- `ms_sjoin` up to the lookup of the channel; `none` where it returns. -/
def parseSjoin : List Str → Option SjoinHeader
  | ts :: chname :: modeText :: arg :: args =>
      if chname.head? ≠ some '#' then none
      else if checkChannelName false chname false = false then none
      else
        match SjoinLoop.run ⟨Mode.zero, arg :: args⟩ modeText with
        | none => none
        | some l => some ⟨Decimal.atol ts, chname, l.mode, modeText, l.args.headD []⟩
  | _ => none

end Unirc
