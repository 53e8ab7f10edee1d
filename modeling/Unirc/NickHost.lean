import Unirc.ChannelJoin

/-!
# Nick and host changes

The operations that change what the bans are compared with: `change_local_nick`,
SVSNICK and remote nick changes, CHGHOST, the user mode `x`, and SVSMODE with its
other letters.
-/

namespace Unirc

namespace Server

variable (cfg : Config) (s : Server) (now : ℤ)

/-- The test of `change_local_nick` that no channel of the client silences it. -/
def speaksEverywhere (a : ℕ) : List ℕ → Server → Server × Bool
  | [], s => (s, true)
  | m :: ms, s =>
      match s.graph.links m with
      | none => (s, true)
      | some r =>
          let (s, result) := s.canSend cfg a r.right ⟨false, false, none⟩
          if result.allows then speaksEverywhere a ms s else (s, false)

def setNick (a : ℕ) (nick : Str) : Server :=
  s.updClient a fun k => { k with name := Buf.strlcpy nick }

/-- What `change_local_nick` and `me_svsnick` do before the name is changed: the
client gets the timestamp, and loses the ban verdicts and its registration. -/
def renewNick (ts : ℤ) (a : ℕ) : Server :=
  (s.clearBanCacheClient a).updClient a fun k => { k with tsinfo := ts, regNick := false }

/-- `change_local_nick`; `tooFast` is the verdict of the nick flood limit. -/
def changeLocalNick (tooFast : Bool) (a : ℕ) (nick : Str) : Server :=
  match s.client? a with
  | none => s
  | some source =>
      let spoken := if cfg.quietOnBan && !source.oper then
          speaksEverywhere cfg a (s.memberships a) s
        else (s, true)
      if spoken.2 = false ∨ tooFast then spoken.1
      else if irccmp source.name.val nick then (spoken.1.renewNick now a).setNick a nick
      else spoken.1.setNick a nick

/-- `me_svsnick` for a target and a nick that nobody holds. -/
def meSvsnick (newts : ℤ) (a : ℕ) (nick : Str) : Server :=
  if (s.client? a).any Client.myClient then
    (s.renewNick (max newts (now - 900)) a).setNick a nick
  else s

/-- A nick change that another server sends for one of its users. -/
def changeRemoteNick (ts : ℤ) (a : ℕ) (nick : Str) : Server :=
  if (s.client? a).any fun k => k.isClient && !k.myConnect then
    (s.updClient a fun k => { k with tsinfo := ts }).setNick a nick
  else s

/-- `me_chghost`; `find` is `find_client`. -/
def meChghost (find : Str → Option ℕ) (a : ℕ) (nick host : Str) : Server :=
  match s.client? a, find nick with
  | some source, some target =>
      if source.isClient then s
      else if HOSTLEN < host.length ∨ host = [] ∨ validHostname host = false then s
      else if (s.client? target).any Client.isClient then
        s.updClient target fun k => { k with host := host }
      else s
  | _, _ => s

/-- The letter `x` of `set_user_mode` and of `me_svsmode`; `virthost` is
`make_virthost`. -/
def cloakLetter (virthost : Str → Str) (a : ℕ) (adding : Bool) : Server :=
  match s.client? a with
  | none => s
  | some who =>
      if adding then
        if who.myClient = true ∧ (cfg.enableCloakSystem = false ∨ who.ipSpoof = true) then s
        else if who.cloaked then s
        else s.updClient a fun k =>
          { k with cloaked := true, host := if k.myClient then virthost k.sockhost else k.host }
      else if who.cloaked = false then s
      else s.updClient a fun k =>
        { k with cloaked := false, host := if k.myClient then k.realhost else k.host }

/-- The letter `x` of `set_user_mode` for a MODE that came over `link`. -/
def setUserModeX (virthost : Str → Str) (link a : ℕ) (adding : Bool) : Server :=
  if (s.client? link).any fun k => k.services && !k.isClient then
    s.cloakLetter cfg virthost a adding
  else s

/-- One letter of `me_svsmode`. -/
def svsmodeLetter (virthost : Str → Str) (a : ℕ) (adding : Bool) (letter : Char) : Server :=
  match s.client? a with
  | none => s
  | some target =>
      if letter = 'x' then s.cloakLetter cfg virthost a adding
      else if letter = 'B' then
        if adding = true ∧ target.regNick = false then
          (s.doJoin0 a).updClient a fun k => { k with gringo := true }
        else s.updClient a fun k => { k with gringo := false }
      else if letter = 'r' then
        if adding then s.updClient a fun k => { k with gringo := false, regNick := true }
        else s.updClient a fun k => { k with regNick := false }
      else if letter = 'o' ∧ adding = false then s.updClient a fun k => { k with oper := false }
      else s

/-- The scan of the mode parameters, with the direction `what`. -/
def svsmodeScan (virthost : Str → Str) (a : ℕ) : Bool → Str → Server → Server
  | _, [], s => s
  | what, c :: cs, s =>
      if c = '+' then svsmodeScan virthost a true cs s
      else if c = '-' then svsmodeScan virthost a false cs s
      else svsmodeScan virthost a what cs (s.svsmodeLetter cfg virthost a what c)

/-- `me_svsmode` for the parameters behind the sender; `find` is `find_person`. -/
def meSvsmode (virthost : Str → Str) (find : Str → Option ℕ) (a : ℕ) (parv : List Str) :
    Server :=
  match s.client? a, parv with
  | some source, nick :: ts :: modes =>
      match find nick with
      | none => s
      | some target =>
          if source.services = false ∨ modes = [] then s
          else if Decimal.atol ts ≠ 0 ∧
              (s.client? target).all fun k => k.tsinfo != Decimal.atol ts then s
          else svsmodeScan cfg virthost target true modes.flatten s
  | _, _ => s

end Server

end Unirc
