import Mathlib.Algebra.Order.Group.Int
import Unirc.ChannelJoin
import Unirc.LinePacking
import Unirc.RefCount

/-!
# Accept lists

`ACCEPT` of `m_accept.c`, and the routines of `client.c` that keep the two lists of a user: whom
he accepts, and who accepts him. A walk that meets a node which was freed is `none`.
-/

namespace Unirc

abbrev Nick := {n : Str // n ≠ [] ∧ n.length < NICKLEN}

/-- A parameter of a line. -/
abbrev LineParam := {t : Str // t.length < IRCD_BUFSIZE}

structure AcceptConf where
  me : Str
  me_le : me.length ≤ HOSTLEN
  max_accept : ℕ

structure AcceptNet where
  users : List (ℕ × Nick)
  allowList : ℕ → List ℕ
  onAllowList : ℕ → List ℕ

inductive AcceptReply
  | noSuchNick (nick : Str)
  | acceptNot (target : ℕ)
  | acceptExist (target : ℕ)
  | acceptFull
  | acceptList (lines : List Str)
  deriving DecidableEq

/-- `DLINK_FOREACH_SAFE`: the next node was read before the body ran, and has to be linked still. -/
def walkSafe {σ α : Type*} (linked : σ → α → Bool) (body : σ → α → σ) : List α → σ → Option σ
  | [], s => some s
  | x :: rest, s => if linked s x then walkSafe linked body rest (body s x) else none

/-- `strlcat` to a buffer of `IRCD_BUFSIZE`. -/
def strlcat (buf t : Str) : Str := if IRCD_BUFSIZE ≤ buf.length then buf
  else (buf ++ t).take (IRCD_BUFSIZE - 1)

namespace AcceptNet

variable (cfg : AcceptConf) (s : AcceptNet)

/-- `find_client`, with `IsClient`. -/
def findClient (nick : Str) : Option ℕ :=
  (s.users.find? fun u => !irccmp u.2.val nick).map Prod.fst

def name (a : ℕ) : Str := (s.users.find? (·.1 = a)).elim [] fun u => u.2.val

/-- `accept_message`. -/
def acceptMessage (source target : ℕ) : Bool := (s.allowList target).contains source

/-- `del_from_accept`. -/
def delFromAccept (source target : ℕ) : AcceptNet :=
  if source ∈ s.allowList target then
    { s with
      allowList := Function.update s.allowList target
        ((s.allowList target).filter (· ≠ source))
      onAllowList := Function.update s.onAllowList source
        ((s.onAllowList source).filter (· ≠ target)) }
  else s

/-- `del_all_their_accepts`. -/
def delAllTheirAccepts (a : ℕ) : Option AcceptNet :=
  walkSafe (fun s x => (s.onAllowList a).contains x) (fun s x => s.delFromAccept a x)
    (s.onAllowList a) s

/-- `del_all_accepts`. -/
def delAllAccepts (a : ℕ) : Option AcceptNet :=
  (walkSafe (fun s x => (s.allowList a).contains x) (fun s x => s.delFromAccept x a)
    (s.allowList a) s).bind fun s => s.delAllTheirAccepts a

/-- The loop of `list_accepts`, with what `nicks` holds below `t`. -/
def listLoop (len : ℕ) (header : Str) : Str → List Str → Option (List Str)
  | nicks, [] => some (if nicks = [] then [] else [header ++ nicks.dropLast])
  | nicks, target :: rest =>
      if IRCD_BUFSIZE < nicks.length + target.length + len then
        if nicks = [] then none
        else (listLoop len header (target ++ [' ']) rest).map ((header ++ nicks.dropLast) :: ·)
      else listLoop len header (nicks ++ (target ++ [' '])) rest

/-- `RPL_ACCEPTLIST` in front of the names. -/
def acceptHeader (source : ℕ) : Str :=
  ':' :: cfg.me ++ " 281 ".toList ++ s.name source ++ " :".toList

/-- `list_accepts`: the lines of `RPL_ACCEPTLIST`. -/
def listAccepts (source : ℕ) : Option (List Str) :=
  listLoop (cfg.me.length + (s.name source).length + 12) (s.acceptHeader cfg source) []
    ((s.allowList source).map s.name)

/-- `add_accept`. -/
def addAccept (source target : ℕ) : AcceptNet :=
  { s with
    allowList := RefCount.hold s.allowList source target
    onAllowList := RefCount.hold s.onAllowList target source }

/-- What `build_nicklist` appends to one of its buffers. -/
def catNick (buf name : Str) : Str :=
  strlcat (if buf = [] then buf else strlcat buf [',']) name

/-- Whether a sign is in front of a name, and the name. -/
def signedNick (token : Str) : Bool × Str :=
  match token with
  | '-' :: name => (true, name)
  | name => (false, name)

structure NickBufs where
  addbuf : Str
  delbuf : Str
  replies : List AcceptReply

/-- One turn of `build_nicklist`. -/
def buildNick (b : NickBufs) (token : Str) : NickBufs :=
  let name := (signedNick token).2
  match s.findClient name with
  | none => { b with replies := b.replies ++ [.noSuchNick name] }
  | some _ =>
      if (signedNick token).1 then { b with delbuf := catNick b.delbuf name }
      else { b with addbuf := catNick b.addbuf name }

/-- `build_nicklist`. -/
def buildNicklist (nicks : Str) : NickBufs :=
  (commaTokens nicks).foldl s.buildNick ⟨[], [], []⟩

/-- The loop over the delete list. -/
def deleteLoop (source : ℕ) : List Str → AcceptNet × List AcceptReply → AcceptNet × List AcceptReply
  | [], r => r
  | nick :: rest, (s, replies) =>
      match s.findClient nick with
      | none => deleteLoop source rest (s, replies ++ [.noSuchNick nick])
      | some target =>
          if s.acceptMessage target source then
            deleteLoop source rest (s.delFromAccept target source, replies)
          else deleteLoop source rest (s, replies ++ [.acceptNot target])

/-- The loop over the add list. The count goes up with every name. -/
def addLoop (source : ℕ) : List Str → ℕ → AcceptNet × List AcceptReply →
    Option (AcceptNet × List AcceptReply)
  | [], _, r => some r
  | nick :: rest, acceptNum, (s, replies) =>
      match s.findClient nick with
      | none => addLoop source rest (acceptNum + 1) (s, replies ++ [.noSuchNick nick])
      | some target =>
          if s.acceptMessage target source then
            addLoop source rest (acceptNum + 1) (s, replies ++ [.acceptExist target])
          else if cfg.max_accept ≤ acceptNum then some (s, replies ++ [.acceptFull])
          else do
            let s := s.addAccept source target
            let lines ← s.listAccepts cfg source
            addLoop source rest (acceptNum + 1) (s, replies ++ [.acceptList lines])

/-- `m_accept`. -/
def mAccept (source : ℕ) (parv1 : Option Str) : Option (AcceptNet × List AcceptReply) :=
  match parv1 with
  | none => (s.listAccepts cfg source).map fun lines => (s, [.acceptList lines])
  | some nicks =>
      if nicks.head? = some '*' then
        (s.listAccepts cfg source).map fun lines => (s, [.acceptList lines])
      else
        let b := s.buildNicklist nicks
        let r := deleteLoop source (commaTokens b.delbuf) (s, b.replies)
        addLoop cfg source (commaTokens b.addbuf) (r.1.allowList source).length r

end AcceptNet

/-- What happens to the users and their lists. -/
inductive AcceptEvent
  | accept (source : ℕ) (parv1 : Option LineParam)
  | connect (a : ℕ) (nick : Nick)
  | localNick (a : ℕ) (nick : Nick)
  | servicesNick (a : ℕ) (nick : Nick)
  | remoteNick (a : ℕ) (parv0 : Str) (nick : Nick)
  | exit (a : ℕ)

namespace AcceptNet

variable (cfg : AcceptConf)

/-- The nick is hashed under its new name. -/
def rename (s : AcceptNet) (a : ℕ) (nick : Nick) : AcceptNet :=
  { s with users := s.users.map fun u => if u.1 = a then (a, nick) else u }

/-- The lists after an event: `change_local_nick`, `SVSNICK`, `nick_from_server`,
`exit_one_client`. -/
def step (s : AcceptNet) : AcceptEvent → Option AcceptNet
  | .accept source parv1 => (s.mAccept cfg source (parv1.map Subtype.val)).map Prod.fst
  | .connect a nick => some { s with users := (a, nick) :: s.users }
  | .localNick a nick =>
      (if irccmp (s.name a) nick.val then s.delAllTheirAccepts a else some s).map
        fun s => s.rename a nick
  | .servicesNick a nick => (s.delAllTheirAccepts a).map fun s => s.rename a nick
  | .remoteNick a parv0 nick =>
      (if irccmp parv0 nick.val then s.delAllAccepts a else some s).map fun s => s.rename a nick
  | .exit a => (s.delAllAccepts a).map fun s => { s with users := s.users.filter (·.1 ≠ a) }

def empty : AcceptNet := ⟨[], fun _ => [], fun _ => []⟩

def run (es : List AcceptEvent) : Option AcceptNet := es.foldlM (step cfg) empty

end AcceptNet

section Walk

variable {σ α : Type*} {linked : σ → α → Bool} {body : σ → α → σ}

/-- The rule of a walk that never meets a node that is not linked. -/
theorem walkSafe_invariant {I : List α → σ → Prop}
    (hlinked : ∀ x rest s, I (x :: rest) s → linked s x = true)
    (hbody : ∀ x rest s, I (x :: rest) s → I rest (body s x)) {l : List α} {s : σ} (h : I l s) :
    ∃ s', walkSafe linked body l s = some s' ∧ I [] s' := by
  induction l generalizing s with
  | nil => exact ⟨s, rfl, h⟩
  | cons x rest ih =>
      rw [walkSafe, if_pos (hlinked x rest s h)]
      exact ih (hbody x rest s h)

end Walk

namespace AcceptNet

open RefCount

/-- The two lists agree, nobody is on a list twice, and no list is too long. -/
structure Sound (cfg : AcceptConf) (s : AcceptNet) : Prop where
  symm : ∀ a t, a ∈ s.allowList t ↔ t ∈ s.onAllowList a
  nodup : ∀ t, (s.allowList t).Nodup
  onNodup : ∀ a, (s.onAllowList a).Nodup
  bounded : ∀ t, (s.allowList t).length ≤ cfg.max_accept

variable {cfg : AcceptConf} {s : AcceptNet} {a t : ℕ}

theorem update_filter_eq_drop {h : ℕ → List ℕ} (hn : (h t).Nodup) :
    Function.update h t ((h t).filter (· ≠ a)) = drop h t a := by
  rw [drop, hn.erase_eq_filter]
  congr 1
  refine List.filter_congr fun b _ => ?_
  by_cases hb : b = a <;> simp [hb]

theorem drop_of_not_mem {h : ℕ → List ℕ} (ha : a ∉ h t) : drop h t a = h := by
  rw [drop, List.erase_of_not_mem ha, Function.update_eq_self]

/-- `del_from_accept` takes each out of the other's list. -/
theorem Sound.delFromAccept_eq (h : s.Sound cfg) (a t : ℕ) : s.delFromAccept a t =
    { s with allowList := drop s.allowList t a, onAllowList := drop s.onAllowList a t } := by
  rw [delFromAccept]
  split
  · rw [update_filter_eq_drop (h.nodup t), update_filter_eq_drop (h.onNodup a)]
  · next hmem => rw [drop_of_not_mem hmem, drop_of_not_mem ((h.symm a t).not.mp hmem)]

theorem Sound.allowList_delFromAccept (h : s.Sound cfg) (a t : ℕ) :
    (s.delFromAccept a t).allowList = drop s.allowList t a := by rw [h.delFromAccept_eq]

theorem Sound.onAllowList_delFromAccept (h : s.Sound cfg) (a t : ℕ) :
    (s.delFromAccept a t).onAllowList = drop s.onAllowList a t := by rw [h.delFromAccept_eq]

@[simp] theorem users_delFromAccept (s : AcceptNet) (a t : ℕ) :
    (s.delFromAccept a t).users = s.users := by
  rw [AcceptNet.delFromAccept]
  split <;> rfl

theorem Sound.delFromAccept (h : s.Sound cfg) (a t : ℕ) : (s.delFromAccept a t).Sound cfg := by
  rw [h.delFromAccept_eq]
  refine ⟨fun b u => ?_, fun u => nodup_drop h.nodup u, fun b => nodup_drop h.onNodup b,
    fun u => length_drop_le.trans (h.bounded u)⟩
  rw [mem_drop (h.nodup t), mem_drop (h.onNodup a), h.symm b u, and_comm (a := u = t)]

/-- The walk over those who accept a user, with `l` to go. -/
structure TheirWalk (cfg : AcceptConf) (s : AcceptNet) (a : ℕ) (l : List ℕ) (s' : AcceptNet) :
    Prop where
  sound : s'.Sound cfg
  left : s'.onAllowList a = l
  users : s'.users = s.users
  allow : s.allowList a = [] → s'.allowList a = []

theorem TheirWalk.next {x : ℕ} {rest : List ℕ} {s' : AcceptNet}
    (h : TheirWalk cfg s a (x :: rest) s') : TheirWalk cfg s a rest (s'.delFromAccept a x) := by
  refine ⟨h.sound.delFromAccept a x, ?_, (users_delFromAccept s' a x).trans h.users, fun h0 => ?_⟩
  · rw [h.sound.onAllowList_delFromAccept, drop_self, h.left, List.erase_cons_head]
  · have hnil : (drop s'.allowList x a a).length ≤ 0 := by
      rw [← List.length_nil, ← h.allow h0]
      exact length_drop_le
    rw [h.sound.allowList_delFromAccept]
    exact List.eq_nil_of_length_eq_zero (Nat.eq_zero_of_le_zero hnil)

/-- Nobody has the user on a list any more. -/
theorem Sound.delAllTheirAccepts (h : s.Sound cfg) (a : ℕ) :
    ∃ s', s.delAllTheirAccepts a = some s' ∧ TheirWalk cfg s a [] s' :=
  walkSafe_invariant (fun x rest s' hs' => by simp [hs'.left]) (fun _ _ _ hs' => hs'.next)
    ⟨h, rfl, rfl, id⟩

/-- The walk over those whom a user accepts, with `l` to go. -/
structure OwnWalk (cfg : AcceptConf) (s : AcceptNet) (a : ℕ) (l : List ℕ) (s' : AcceptNet) :
    Prop where
  sound : s'.Sound cfg
  left : s'.allowList a = l
  users : s'.users = s.users

theorem OwnWalk.next {x : ℕ} {rest : List ℕ} {s' : AcceptNet}
    (h : OwnWalk cfg s a (x :: rest) s') : OwnWalk cfg s a rest (s'.delFromAccept x a) := by
  refine ⟨h.sound.delFromAccept x a, ?_, (users_delFromAccept s' x a).trans h.users⟩
  rw [h.sound.allowList_delFromAccept, drop_self, h.left, List.erase_cons_head]

/-- The user has no list and is on no list any more. -/
theorem Sound.delAllAccepts (h : s.Sound cfg) (a : ℕ) :
    ∃ s', s.delAllAccepts a = some s' ∧ s'.Sound cfg ∧ s'.allowList a = [] ∧
      s'.onAllowList a = [] ∧ s'.users = s.users := by
  obtain ⟨s₁, hs₁, hown⟩ : ∃ s₁, walkSafe (fun s x => (s.allowList a).contains x)
      (fun s x => s.delFromAccept x a) (s.allowList a) s = some s₁ ∧ OwnWalk cfg s a [] s₁ :=
    walkSafe_invariant (fun x rest s' hs' => by simp [hs'.left]) (fun _ _ _ hs' => hs'.next)
      ⟨h, rfl, rfl⟩
  obtain ⟨s', hs', htheir⟩ := hown.sound.delAllTheirAccepts a
  refine ⟨s', ?_, htheir.sound, htheir.allow hown.left, htheir.left,
    htheir.users.trans hown.users⟩
  rw [AcceptNet.delAllAccepts, hs₁, Option.bind_some, hs']

/-- A new entry, when there is room for it. -/
theorem Sound.addAccept (h : s.Sound cfg) (hnew : t ∉ s.allowList a)
    (hroom : (s.allowList a).length < cfg.max_accept) : (s.addAccept a t).Sound cfg := by
  refine ⟨fun b u => ?_, fun u => nodup_hold h.nodup hnew u,
    fun b => nodup_hold h.onNodup ((h.symm t a).not.mp hnew) b, fun u => ?_⟩
  · rw [AcceptNet.addAccept, mem_hold, mem_hold, h.symm b u, and_comm (a := u = a)]
  · change (hold s.allowList a t u).length ≤ cfg.max_accept
    by_cases hu : u = a
    · subst hu
      rw [hold_self, List.length_cons]
      exact hroom
    · rw [hold_of_ne hu]
      exact h.bounded u

theorem Sound.users (h : s.Sound cfg) (users : List (ℕ × Nick)) :
    ({ s with users := users } : AcceptNet).Sound cfg := ⟨h.symm, h.nodup, h.onNodup, h.bounded⟩

theorem Sound.empty : AcceptNet.empty.Sound cfg :=
  ⟨fun _ _ => by simp [AcceptNet.empty], fun _ => List.nodup_nil, fun _ => List.nodup_nil,
    fun _ => Nat.zero_le _⟩

end AcceptNet

end Unirc
