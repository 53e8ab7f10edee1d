import Unirc.Census

/-!
# User mode changes

`set_user_mode`, `me_svsmode`, `me_svsnoop` and `oper_up`: the letters change the modes
of a user one by one, and the counters follow.
-/

namespace Unirc

namespace User

variable (cfg : CensusConfig) (u : User)

def setUMode (flag : UMode) (adding : Bool) : User :=
  { u with umodes := if adding then insert flag u.umodes else u.umodes.erase flag }

/-- What taking `+o` away does to the user. -/
def clearOper : User :=
  { u with
    umodes := ((u.umodes \ {.oper, .admin}) \ cfg.operOnlyUmodes).erase .netadmin
    operFlags := if u.myConnect then .none else u.operFlags }

/-- The letter `x`. -/
def cloakLetter (adding : Bool) : User :=
  if adding then
    if u.myClient ∧ (cfg.enableCloakSystem = false ∨ u.ipSpoof) then u
    else if .cloak ∈ u.umodes then u
    else if u.myClient then
      { u.setUMode .cloak true with host := Buf.strlcpy (cfg.makeVirthost u.sockhost) }
    else u.setUMode .cloak true
  else if .cloak ∉ u.umodes then u
  else if u.myClient then { u.setUMode .cloak false with host := u.realhost }
  else u.setUMode .cloak false

/-- A letter that is in the table and has no case of its own. -/
def simpleLetter (c : Char) (adding : Bool) : User :=
  match userModes c with
  | none => u
  | some flag =>
      if u.myConnect ∧ u.isOper = false ∧ flag ∈ cfg.operOnlyUmodes then u
      else u.setUMode flag adding

/-- What `set_user_mode` takes away at its end. -/
def dropPrivileged : User :=
  let u := if .nchange ∈ u.umodes ∧ u.operFlags.operN = false then u.setUMode .nchange false else u
  if u.myConnect ∧ .admin ∈ u.umodes ∧ u.operFlags.operAdmin = false ∧
      u.operFlags.operHiddenAdmin = false then u.setUMode .admin false
  else u

end User

/-- The loop over the letters: `what`, the user, and `Count.oper`. -/
structure ModeScan where
  adding : Bool
  user : User
  oper : ℤ

namespace ModeScan

variable (cfg : CensusConfig)

/-- The letter `o` with `MODE_DEL`. -/
def deoper (st : ModeScan) : ModeScan :=
  if st.user.isOper = false then st
  else { st with user := st.user.clearOper cfg, oper := st.oper - 1 }

/-- A letter of `set_user_mode`; `server` and `services` tell whether the link that it
came over is a server and services. -/
def setLetter (server services : Bool) (st : ModeScan) (c : Char) : ModeScan :=
  match c with
  | '+' => { st with adding := true }
  | '-' => { st with adding := false }
  | 'p' => { st with user := st.user.setUMode .hidechannels st.adding }
  | 'x' =>
      if services && server then { st with user := st.user.cloakLetter cfg st.adding } else st
  | 'o' =>
      if st.adding then
        if server ∧ st.user.isOper = false then
          { st with user := st.user.setUMode .oper true, oper := st.oper + 1 }
        else st
      else deoper cfg st
  | 'r' | 'Z' | 'B' | 'N' | 'a' | 'O' | 'h' | 'S' | 'V' | 'v' | ' ' | '\n' | '\r' | '\t' => st
  | c => { st with user := st.user.simpleLetter cfg c st.adding }

/-- A letter of `me_svsmode`. -/
def svsLetter (st : ModeScan) (c : Char) : ModeScan :=
  match c with
  | '+' => { st with adding := true }
  | '-' => { st with adding := false }
  | 'o' => if st.adding then st else deoper cfg st
  | 'x' => { st with user := st.user.cloakLetter cfg st.adding }
  | 'B' =>
      { st with user := st.user.setUMode .gringo (st.adding && decide (.regnick ∉ st.user.umodes)) }
  | 'r' =>
      if st.adding then { st with user := (st.user.setUMode .gringo false).setUMode .regnick true }
      else { st with user := st.user.setUMode .regnick false }
  | 'd' | 'S' | ' ' | '\n' | '\r' | '\t' => st
  | c => { st with user := st.user.simpleLetter cfg c st.adding }

end ModeScan

namespace Census

variable (cfg : CensusConfig) (s : Census)

/-- The change of `Count.invisi` at the end of a mode command. -/
def invisiDelta (old new : User) : ℤ :=
  (if old.isInvisible = false ∧ new.isInvisible then 1 else 0) -
    (if old.isInvisible ∧ new.isInvisible = false then 1 else 0)

/-- Write the user and the counters back. -/
def putModes (old new : User) (oper : ℤ) : Census :=
  { s.modifyUser old.id fun _ => new with
    oper := oper
    invisi := s.invisi + invisiDelta old new }

/-- `set_user_mode` for a user that changes its own modes. -/
def setUserMode (id : ℕ) (server services : Bool) (params : List Str) : Census :=
  match s.user? id with
  | none => s
  | some u =>
      if u.isClient = false ∨ params = [] then s
      else
        let scan := params.flatten.foldl (ModeScan.setLetter cfg server services) ⟨true, u, s.oper⟩
        s.putModes u scan.user.dropPrivileged scan.oper

/-- `me_svsmode` for a target whose timestamp is right. -/
def meSvsmode (id : ℕ) (params : List Str) : Census :=
  match s.user? id with
  | none => s
  | some u =>
      if u.isClient = false then s
      else
        let scan := params.flatten.foldl (ModeScan.svsLetter cfg) ⟨true, u, s.oper⟩
        s.putModes u scan.user scan.oper

/-- `me_svsnoop` with `+`, for one client. -/
def noopUser (u : User) : User := if u.myClient && u.isOper then u.clearOper cfg else u

def meSvsnoop : Census :=
  { s with
    users := s.users.map (noopUser cfg)
    oper := s.oper - s.users.countP fun u => u.myClient && u.isOper }

/-- `oper_up` with the modes and the flags that the oper block gives. -/
def operUp (id : ℕ) (modes : UModes) (flags : OperFlags) : Census :=
  match s.user? id with
  | none => s
  | some u =>
      if u.myClient && !u.isOper then
        let umodes := insert .oper u.umodes ∪ modes
        let umodes := if flags.operAdmin || flags.operHiddenAdmin then insert .admin umodes
          else umodes
        let umodes := if flags.operN then umodes else umodes.erase .nchange
        { s.modifyUser id fun u => { u with umodes := umodes, operFlags := flags } with
          oper := s.oper + 1 }
      else s

end Census

/-- Nothing that registration wrote differs. -/
structure SameUser (u v : User) : Prop where
  id : v.id = u.id
  myConnect : v.myConnect = u.myConnect
  isClient : v.isClient = u.isClient
  gotId : v.gotId = u.gotId
  username : v.username = u.username
  realhost : v.realhost = u.realhost
  sockhost : v.sockhost = u.sockhost
  userHost : v.userHost = u.userHost
  iline : v.iline = u.iline

namespace SameUser

variable {u v w : User} {cfg : CensusConfig}

theorem refl (u : User) : SameUser u u := ⟨rfl, rfl, rfl, rfl, rfl, rfl, rfl, rfl, rfl⟩

theorem trans (h : SameUser u v) (h' : SameUser v w) : SameUser u w where
  id := h'.id.trans h.id
  myConnect := h'.myConnect.trans h.myConnect
  isClient := h'.isClient.trans h.isClient
  gotId := h'.gotId.trans h.gotId
  username := h'.username.trans h.username
  realhost := h'.realhost.trans h.realhost
  sockhost := h'.sockhost.trans h.sockhost
  userHost := h'.userHost.trans h.userHost
  iline := h'.iline.trans h.iline

theorem setUMode (flag : UMode) (adding : Bool) : SameUser u (u.setUMode flag adding) :=
  ⟨rfl, rfl, rfl, rfl, rfl, rfl, rfl, rfl, rfl⟩

theorem clearOper : SameUser u (u.clearOper cfg) := ⟨rfl, rfl, rfl, rfl, rfl, rfl, rfl, rfl, rfl⟩

theorem cloakLetter (adding : Bool) : SameUser u (u.cloakLetter cfg adding) := by
  unfold User.cloakLetter
  split_ifs <;> exact ⟨rfl, rfl, rfl, rfl, rfl, rfl, rfl, rfl, rfl⟩

theorem simpleLetter (c : Char) (adding : Bool) : SameUser u (u.simpleLetter cfg c adding) := by
  unfold User.simpleLetter
  split
  · exact refl u
  · split
    · exact refl u
    · exact setUMode _ adding

theorem dropPrivileged : SameUser u u.dropPrivileged := by
  unfold User.dropPrivileged
  extract_lets v
  have hv : SameUser u v := by
    dsimp only [v]
    split
    · exact setUMode .nchange false
    · exact refl u
  split
  · exact hv.trans (setUMode .admin false)
  · exact hv

end SameUser

/-- Only `o` stands for the operator mode. -/
theorem eq_of_userModes_oper {c : Char} (h : userModes c = some .oper) : c = 'o' := by
  unfold userModes at h
  split at h <;> first | rfl | cases h

theorem eq_of_userModes_invisible {c : Char} (h : userModes c = some .invisible) : c = 'i' := by
  unfold userModes at h
  split at h <;> first | rfl | cases h

namespace User

variable {cfg : CensusConfig} {u : User}

theorem isOper_setUMode {flag : UMode} (h : flag ≠ .oper) (adding : Bool) :
    (u.setUMode flag adding).isOper = u.isOper := by
  cases adding <;> simp [setUMode, isOper, h.symm]

theorem isOper_clearOper : (u.clearOper cfg).isOper = false := by
  simp [clearOper, isOper]

theorem isOper_cloakLetter (adding : Bool) : (u.cloakLetter cfg adding).isOper = u.isOper := by
  have hset : ∀ b, (u.setUMode .cloak b).isOper = u.isOper :=
    fun b => isOper_setUMode UMode.noConfusion b
  unfold cloakLetter
  split_ifs
  · rfl
  · rfl
  · exact hset true
  · exact hset true
  · exact hset false
  · exact hset false
  · rfl

theorem isOper_simpleLetter {c : Char} (hc : c ≠ 'o') (adding : Bool) :
    (u.simpleLetter cfg c adding).isOper = u.isOper := by
  unfold simpleLetter
  split
  · rfl
  · rename_i flag hflag
    split
    · rfl
    · refine isOper_setUMode (fun hoper => hc (eq_of_userModes_oper ?_)) adding
      rw [hflag, hoper]

theorem isOper_dropPrivileged : u.dropPrivileged.isOper = u.isOper := by
  unfold dropPrivileged
  extract_lets v
  have hv : v.isOper = u.isOper := by
    dsimp only [v]
    split
    · exact isOper_setUMode UMode.noConfusion false
    · rfl
  split
  · rw [isOper_setUMode UMode.noConfusion false, hv]
  · exact hv

end User

namespace ModeScan

variable {cfg : CensusConfig}

/-- The operators that the counter has beside the user. -/
def otherOpers (st : ModeScan) : ℤ := st.oper - st.user.isOper.toNat

/-- What a letter keeps. -/
structure Kept (st st' : ModeScan) : Prop where
  same : SameUser st.user st'.user
  opers : st'.otherOpers = st.otherOpers

theorem Kept.refl (st : ModeScan) : Kept st st := ⟨SameUser.refl _, rfl⟩

theorem Kept.trans {st st' st'' : ModeScan} (h : Kept st st') (h' : Kept st' st'') :
    Kept st st'' := ⟨h.same.trans h'.same, h'.opers.trans h.opers⟩

theorem Kept.ofUser {st : ModeScan} {u : User} (hsame : SameUser st.user u)
    (hoper : u.isOper = st.user.isOper) : Kept st { st with user := u } where
  same := hsame
  opers := by simp only [otherOpers, hoper]

theorem Kept.deoper (st : ModeScan) : Kept st (deoper cfg st) := by
  unfold ModeScan.deoper
  split
  · exact refl st
  · rename_i hoper
    refine ⟨SameUser.clearOper, ?_⟩
    simp only [otherOpers, User.isOper_clearOper, Bool.not_eq_false] at hoper ⊢
    rw [hoper]
    simp

theorem Kept.setUMode {st : ModeScan} {flag : UMode} (h : flag ≠ .oper) (adding : Bool) :
    Kept st { st with user := st.user.setUMode flag adding } :=
  ofUser (SameUser.setUMode flag adding) (User.isOper_setUMode h adding)

theorem Kept.setLetter (cfg : CensusConfig) (server services : Bool) (st : ModeScan) (c : Char) :
    Kept st (setLetter cfg server services st c) := by
  unfold ModeScan.setLetter
  split
  · exact ⟨SameUser.refl _, rfl⟩
  · exact ⟨SameUser.refl _, rfl⟩
  · exact setUMode UMode.noConfusion st.adding
  · split
    · exact ofUser (SameUser.cloakLetter _) (User.isOper_cloakLetter _)
    · exact refl st
  · split
    · split
      · rename_i hoper
        refine ⟨SameUser.setUMode .oper true, ?_⟩
        have hnew : (st.user.setUMode .oper true).isOper = true := by simp [User.setUMode, User.isOper]
        simp only [otherOpers, hnew, hoper.2]
        simp
      · exact refl st
    · exact deoper st
  all_goals try exact refl st
  rename_i hne _ _ _ _ _ _ _ _ _ _ _ _ _ _
  exact ofUser (SameUser.simpleLetter c _) (User.isOper_simpleLetter hne _)

theorem Kept.svsLetter (cfg : CensusConfig) (st : ModeScan) (c : Char) : Kept st (svsLetter cfg st c) := by
  unfold ModeScan.svsLetter
  split
  · exact ⟨SameUser.refl _, rfl⟩
  · exact ⟨SameUser.refl _, rfl⟩
  · split
    · exact refl st
    · exact deoper st
  · exact ofUser (SameUser.cloakLetter _) (User.isOper_cloakLetter _)
  · exact setUMode UMode.noConfusion _
  · split
    · refine ofUser ((SameUser.setUMode .gringo false).trans (SameUser.setUMode .regnick true)) ?_
      rw [User.isOper_setUMode UMode.noConfusion, User.isOper_setUMode UMode.noConfusion]
    · exact setUMode UMode.noConfusion false
  all_goals try exact refl st
  rename_i hne _ _ _ _ _ _ _ _ _
  exact ofUser (SameUser.simpleLetter c _) (User.isOper_simpleLetter hne _)

theorem Kept.foldl {letter : ModeScan → Char → ModeScan} (hletter : ∀ st c, Kept st (letter st c))
    (st : ModeScan) (letters : Str) : Kept st (letters.foldl letter st) := by
  induction letters generalizing st with
  | nil => exact refl st
  | cons c letters ih => exact (hletter st c).trans (ih (letter st c))

end ModeScan

end Unirc
