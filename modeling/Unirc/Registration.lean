import Unirc.UserModes

/-!
# Registration

How a connection becomes a client: `do_local_user`, `verify_access`, `attach_iline` and
`register_local_user` for local connections, and `client_from_server`,
`nick_from_server` and `register_remote_user` for users of other servers.
-/

namespace Unirc

/-- What `find_address_conf` and the K-line checks find for a connection. -/
inductive Access where
  | refused
  | iline (block : AuthBlock)

/-- The results of what registration asks outside of this model. -/
structure Verdicts where
  cookieMissing : Bool
  access : Access
  classFull : Bool
  cidrFull : Bool
  rejectTime : Bool
  passwordWrong : Bool
  serverFull : Bool
  xlined : Bool
  deadBefore : Bool
  deadAfter : Bool
  ssl : Bool

/-- The loop that copies the user name: at most `room` characters, without `[`. -/
def copyUsername : Str → ℕ → Str
  | [], _ => []
  | c :: cs, room =>
      if room = 0 then []
      else if c ≠ '[' then c :: copyUsername cs (room - 1)
      else copyUsername cs room

theorem copyUsername_eq (username : Str) (room : ℕ) :
    copyUsername username room = (username.filter (· ≠ '[')).take room := by
  induction username generalizing room with
  | nil => rw [copyUsername, List.filter_nil, List.take_nil]
  | cons c cs ih =>
      rw [copyUsername]
      split
      · rename_i hroom
        rw [hroom, List.take_zero]
      · rename_i hroom
        obtain ⟨n, rfl⟩ := Nat.exists_eq_succ_of_ne_zero hroom
        split
        · rename_i hc
          rw [List.filter_cons_of_pos (by simpa using hc), List.take_succ_cons, ih]
          rfl
        · rename_i hc
          rw [List.filter_cons_of_neg (by simpa using hc), ih]

/-- The user name of a connection without an ident answer. -/
def unidentName (noTilde : Bool) (username : Str) : Buf (USERLEN + 1) :=
  ⟨if noTilde then copyUsername username USERLEN else '~' :: copyUsername username (USERLEN - 1), by
    rw [copyUsername_eq, copyUsername_eq]
    split
    · exact Nat.lt_succ_of_le (List.length_take_le _ _)
    · exact Nat.succ_lt_succ (Nat.lt_succ_of_le (List.length_take_le _ _))⟩

namespace User

variable (cfg : CensusConfig) (u : User)

/-- Whether no limit is looked at. -/
def proxied : Bool := cfg.findProxy u.sockhost || cfg.findProxy u.realhost.val

/-- The host that the auth block gives. -/
def spoofed (block : AuthBlock) : User :=
  match block.spoof with
  | none => u
  | some name =>
      { u with host := Buf.strlcpy name, realhost := Buf.strlcpy name, ipSpoof := true }

/-- An invalid host is replaced by the address. -/
def withValidHost : User :=
  if validHostname u.host.val then u
  else { u with host := Buf.strlcpy u.sockhost, realhost := Buf.strlcpy u.sockhost }

/-- The user name as `register_local_user` writes it. -/
def withUsername (block : AuthBlock) (username : Str) : User :=
  if u.gotId then u else { u with username := unidentName block.noTilde username }

/-- The modes that a client gets when it is registered. -/
def registered (ssl : Bool) : User :=
  let u := if ssl then u.setUMode .ssl true else u
  let u := if cfg.enableCloakSystem && !u.ipSpoof then
      { u.setUMode .cloak true with host := Buf.strlcpy (cfg.makeVirthost u.sockhost) }
    else u
  let u := if cfg.invisibleOnConnect then u.setUMode .invisible true else u
  let u := if !u.proxied cfg && !cfg.findIpbr u.sockhost then u.setUMode .gringo true else u
  { u with isClient := true, userHost := true }

end User

namespace Census

variable (cfg : CensusConfig) (s : Census) (now : ℤ)

/-- The limits of `attach_iline`. -/
def limitReached (u : User) (k : ClassItem) (count : HostCounts) (perIp : ℕ) (classFull : Bool) :
    Bool :=
  !u.proxied cfg &&
    (classFull ||
      (k.maxPerIp != 0 && decide (k.maxPerIp < perIp)) ||
      (k.maxLocal != 0 && decide (k.maxLocal ≤ count.locals)) ||
      (k.maxGlobal != 0 && decide (k.maxGlobal ≤ count.globals)) ||
      (k.maxIdent != 0 && decide (k.maxIdent ≤ count.idents) &&
        u.username.val.head? != some '~'))

/-- What `verify_access` returns. -/
inductive Attached where
  | ok
  | tooMany
  | refused
  deriving DecidableEq

/-- `attach_iline`: the census and the client, and whether it was attached. -/
def attachIline (u : User) (block : AuthBlock) (v : Verdicts) : Census × User × Attached :=
  let s := { s with ips := s.ips.addOne cfg.ipLimits now u.ip }
  let u := { u with ipHash := true }
  match block.classPtr with
  | none => (s, u, .refused)
  | some k =>
      let counted := s.userhosts.countUserHost cfg.randomKey u.username.val u.host.val
      let s := { s with userhosts := counted.2 }
      let perIp := ((s.ips.find? u.ip).map IpEntry.count).getD 0
      if limitReached cfg u (cfg.classes k) counted.1 perIp v.classFull && !block.exemptLimits then
        (s, u, .tooMany)
      else if v.cidrFull then (s, u, .tooMany)
      else (s, { u with iline := some block }, .ok)

/-- `verify_access` -/
def verifyAccess (u : User) (v : Verdicts) : Census × User × Attached :=
  match v.access with
  | .refused => (s, u, .refused)
  | .iline block => s.attachIline cfg now (u.spoofed block) block v

def putUser (u : User) : Census := s.modifyUser u.id fun _ => u

/-- The end of `register_local_user`, for a client that passed every check. -/
def enrol (u : User) (v : Verdicts) : Census :=
  let u := u.registered cfg v.ssl
  { s.putUser u with
    userhosts := s.userhosts.addUserHost cfg.randomKey u.username.val u.realhost false
    total := s.total + 1
    invisi := if cfg.invisibleOnConnect then s.invisi + 1 else s.invisi
    localCount := s.localCount + 1 }

/-- `register_local_user` after `check_client` let the client in through a block. -/
def checkedRegister (u : User) (block : AuthBlock) (username : Str) (v : Verdicts) : Census :=
  let u := u.withValidHost
  let s := s.putUser u
  if !u.gotId && block.needIdentd then s.exitClient cfg now u.id
  else
    let u := u.withUsername block username
    let s := s.putUser u
    if v.passwordWrong || v.serverFull || !validUsername cfg.dotsInIdent u.username.val then
      s.exitClient cfg now u.id
    else if v.xlined then if v.rejectTime then s else s.exitClient cfg now u.id
    else if v.deadBefore || v.deadAfter then s
    else s.enrol cfg u v

/-- `register_local_user` -/
def registerLocalUser (u : User) (username : Str) (v : Verdicts) : Census :=
  if v.cookieMissing then s
  else
    let checked := s.verifyAccess cfg now u v
    let s := checked.1.putUser checked.2.1
    match checked.2.2, checked.2.1.iline with
    | .ok, some block => s.checkedRegister cfg now checked.2.1 block username v
    | .ok, none => s
    | .tooMany, _ => s.exitClient cfg now u.id
    | .refused, _ => if v.rejectTime then s else s.exitClient cfg now u.id

/-- `do_local_user`; `complete` tells whether nothing else is missing. -/
def doLocalUser (id : ℕ) (username : Str) (complete : Bool) (v : Verdicts) : Census :=
  match s.user? id with
  | none => s
  | some u =>
      if !u.myConnect || u.isClient then s
      else
        let u := if u.gotId then u else { u with username := Buf.strlcpy username }
        let s := s.putUser u
        if complete then s.registerLocalUser cfg now u username v else s

/-- The other ways to complete a registration: NICK, PONG and CAP END hand the stored
user name over. -/
def completeRegistration (id : ℕ) (v : Verdicts) : Census :=
  match s.user? id with
  | none => s
  | some u =>
      if !u.myConnect || u.isClient then s
      else s.registerLocalUser cfg now u u.username.val v

/-- A user that another server introduces. `refused` tells that `register_remote_user`
finds no server for it, or one of another direction. -/
structure Introduction where
  id : ℕ
  umodes : Str
  username : Str
  host : Str
  realhost : Str
  sockhost : Str
  ip : IpAddr
  refused : Bool

/-- A mode letter of `client_from_server`: the modes, `Count.invisi` and `Count.oper`. -/
def uidLetter (st : UModes × ℤ × ℤ) (c : Char) : UModes × ℤ × ℤ :=
  match userModes c with
  | none => st
  | some flag =>
      (if flag ∈ SEND_UMODES then insert flag st.1 else st.1,
        if flag = .invisible then st.2.1 + 1 else st.2.1,
        if flag = .oper then st.2.2 + 1 else st.2.2)

/-- A mode letter of `nick_from_server`. -/
def nickLetter (st : UModes × ℤ × ℤ) (c : Char) : UModes × ℤ × ℤ :=
  match userModes c with
  | none => st
  | some flag =>
      (if flag ∈ SEND_UMODES then insert flag st.1 else st.1,
        if .invisible ∉ st.1 ∧ flag = .invisible then st.2.1 + 1 else st.2.1,
        if .oper ∉ st.1 ∧ flag = .oper then st.2.2 + 1 else st.2.2)

def Introduction.user (i : Introduction) (umodes : UModes) : User where
  id := i.id
  myConnect := false
  isClient := false
  gotId := false
  username := Buf.strlcpy i.username
  host := Buf.strlcpy i.host
  realhost := Buf.strlcpy i.realhost
  sockhost := i.sockhost
  ip := i.ip
  umodes := umodes
  userHost := false
  ipHash := false
  ipSpoof := false
  operFlags := .none
  iline := none

/-- `register_remote_user` for a client that is in the list already. -/
def registerRemoteUser (u : User) (refused : Bool) : Census :=
  if refused then s.exitClient cfg now u.id
  else
    { s.putUser { u with isClient := true, userHost := true } with
      userhosts := s.userhosts.addUserHost cfg.randomKey u.username.val u.realhost true
      total := s.total + 1 }

/-- `client_from_server` and the part of `nick_from_server` for a new client, which
differ in the loop over the mode letters. -/
def introduce (letter : UModes × ℤ × ℤ → Char → UModes × ℤ × ℤ) (i : Introduction) : Census :=
  if (s.user? i.id).isSome then s
  else
    let st := (i.umodes.drop 1).foldl letter (∅, s.invisi, s.oper)
    let u := i.user st.1
    registerRemoteUser cfg { s with users := u :: s.users, invisi := st.2.1, oper := st.2.2 }
      now u i.refused

def clientFromServer (i : Introduction) : Census := s.introduce cfg now uidLetter i

def nickFromServer (i : Introduction) : Census := s.introduce cfg now nickLetter i

end Census

end Unirc
