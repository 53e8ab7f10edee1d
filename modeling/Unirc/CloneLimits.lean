import Unirc.Runs
import Unirc.UserHostRun

/-!
# Limits for each user and host

`attach_iline` counts the sessions of a connection under the user name and the host that
it has at that time. `register_local_user` rewrites the name, and perhaps the host, before
the client is filed. Where both keys agree, no class holds more sessions of a user and a
host than it allows.
-/

namespace Unirc

/-- From the first `[` of the name on, the characters other than `[` begin with as many
`{` as there is room left. Both brackets are one letter for `irccmp`. -/
def BracketsVanish (room : ℕ) (s : Str) : Prop :=
  '[' ∉ s ∨ ((s.dropWhile (· ≠ '[')).filter (· ≠ '[')).take
      (room - (s.takeWhile (· ≠ '[')).length) =
    List.replicate (room - (s.takeWhile (· ≠ '[')).length) '{'

section Brackets

theorem fold_length (s : Str) : (fold s).length = s.length := List.length_map _

theorem eq_brace {c : Char} (h : toLower c = '{') (hc : c ≠ '[') : c = '{' := by
  have hn := congrArg Char.toNat h
  rw [toNat_toLower] at hn
  have hbrace : '{'.toNat = 0x7b := rfl
  have hbracket : c.toNat ≠ 0x5b := fun h => hc (Char.toNat_inj.mp h)
  rw [← Char.toNat_inj]
  split at hn <;> omega

theorem bracketsVanish_zero (s : Str) : BracketsVanish 0 s := by
  refine Or.inr ?_
  rw [Nat.zero_sub, List.take_zero, List.replicate_zero]

theorem bracketsVanish_cons_of_ne {room : ℕ} {c : Char} {s : Str} (hc : c ≠ '[') :
    BracketsVanish (room + 1) (c :: s) ↔ BracketsVanish room s := by
  have hp : decide (c ≠ '[') = true := decide_eq_true hc
  unfold BracketsVanish
  rw [List.takeWhile_cons_of_pos (p := fun x => decide (x ≠ '[')) hp,
    List.dropWhile_cons_of_pos (p := fun x => decide (x ≠ '[')) hp, List.length_cons,
    Nat.add_sub_add_right, List.mem_cons]
  simp only [hc.symm, false_or]

theorem bracketsVanish_cons_self {room : ℕ} {s : Str} :
    BracketsVanish room ('[' :: s) ↔
      (s.filter (· ≠ '[')).take room = List.replicate room '{' := by
  unfold BracketsVanish
  rw [List.takeWhile_cons_of_neg (by decide), List.dropWhile_cons_of_neg (by decide),
    List.filter_cons_of_neg (by decide), List.length_nil, Nat.sub_zero]
  simp

theorem take_filter_of_fold {n k : ℕ} {s : Str} (hk : 0 < k)
    (h : fold ((s.filter (· ≠ '[')).take (n + k)) = List.replicate k '{' ++ fold (s.take n)) :
    (s.filter (· ≠ '[')).take (n + k) = List.replicate (n + k) '{' := by
  induction s generalizing n k with
  | nil =>
      obtain ⟨j, rfl⟩ := Nat.exists_eq_succ_of_ne_zero hk.ne'
      rw [List.filter_nil, List.take_nil] at h
      cases h
  | cons c s ih =>
      cases n with
      | zero =>
          rw [List.take_zero, show fold [] = [] from rfl, List.append_nil, Nat.zero_add] at h
          rw [Nat.zero_add]
          refine List.eq_replicate_iff.mpr ⟨?_, fun x hx => ?_⟩
          · rw [← fold_length, h, List.length_replicate]
          · have hmem := List.mem_map_of_mem (f := toLower) hx
            change toLower x ∈ fold _ at hmem
            rw [h] at hmem
            have hbrace := List.eq_of_mem_replicate hmem
            exact eq_brace hbrace (by simpa using (List.mem_filter.mp (List.mem_of_mem_take hx)).2)
      | succ n =>
          by_cases hc : c = '['
          · subst hc
            rw [List.filter_cons_of_neg (by decide)] at h ⊢
            rw [show n + 1 + k = n + (k + 1) by omega] at h ⊢
            refine ih (Nat.succ_pos k) (h.trans ?_)
            rw [List.replicate_succ', List.append_assoc, List.take_succ_cons]
            rfl
          · obtain ⟨j, rfl⟩ := Nat.exists_eq_succ_of_ne_zero hk.ne'
            rw [List.filter_cons_of_pos (by simpa using hc),
              show n + 1 + j.succ = (n + (j + 1)) + 1 by omega, List.take_succ_cons] at h ⊢
            rw [List.replicate_succ, List.take_succ_cons] at h
            obtain ⟨hhead, htail⟩ := List.cons.inj h
            have hbrace := eq_brace hhead hc
            rw [List.replicate_succ, hbrace]
            refine congrArg _ (ih (Nat.succ_pos j) (htail.trans ?_))
            rw [List.replicate_succ', List.append_assoc, hbrace]
            rfl

theorem fold_take_of_replicate {n : ℕ} {s : Str}
    (h : (s.filter (· ≠ '[')).take n = List.replicate n '{') :
    fold (s.take n) = List.replicate n '{' := by
  induction s generalizing n with
  | nil =>
      rw [List.filter_nil, List.take_nil] at h
      rw [List.take_nil, ← h]
      rfl
  | cons c s ih =>
      cases n with
      | zero => rfl
      | succ n =>
          rw [List.take_succ_cons, List.replicate_succ]
          by_cases hc : c = '['
          · subst hc
            rw [List.filter_cons_of_neg (by decide)] at h
            have hshort := congrArg (List.take n) h
            rw [List.take_take, List.take_replicate, min_eq_left n.le_succ] at hshort
            exact congrArg _ (ih hshort)
          · rw [List.filter_cons_of_pos (by simpa using hc), List.take_succ_cons,
              List.replicate_succ] at h
            obtain ⟨rfl, htail⟩ := List.cons.inj h
            exact congrArg _ (ih htail)

/-- When dropping `[` from a name does not change its beginning, up to case. -/
theorem fold_take_filter_iff (room : ℕ) (s : Str) :
    fold (s.take room) = fold ((s.filter (· ≠ '[')).take room) ↔ BracketsVanish room s := by
  induction s generalizing room with
  | nil => exact ⟨fun _ => Or.inl (List.not_mem_nil), fun _ => rfl⟩
  | cons c s ih =>
      cases room with
      | zero => exact ⟨fun _ => bracketsVanish_zero _, fun _ => rfl⟩
      | succ n =>
          by_cases hc : c = '['
          · subst hc
            rw [List.filter_cons_of_neg (by decide), bracketsVanish_cons_self, List.take_succ_cons]
            constructor
            · intro h
              exact take_filter_of_fold Nat.one_pos h.symm
            · intro h
              have hshort := congrArg (List.take n) h
              rw [List.take_take, List.take_replicate, min_eq_left n.le_succ] at hshort
              rw [h]
              refine (congrArg _ (fold_take_of_replicate hshort)).trans ?_
              rw [fold, List.map_replicate]
              rfl
          · rw [bracketsVanish_cons_of_ne hc, ← ih n, List.filter_cons_of_pos (by simpa using hc),
              List.take_succ_cons, List.take_succ_cons, fold, fold, List.map_cons, List.map_cons,
              List.cons.injEq]
            exact and_iff_right rfl

end Brackets

/-- The key under which `attach_iline` counts the sessions of a connection. -/
def User.countKey (u : User) (block : AuthBlock) : Str × Str :=
  (fold (u.spoofed block).host.val, fold (u.spoofed block).username.val)

/-- What a connection and its USER name have to look like for both keys to agree. -/
structure SeenAsFiled (u : User) (block : AuthBlock) (username : Str) : Prop where
  host : validHostname (u.spoofed block).host.val = true ∨
    fold (u.spoofed block).host.val = fold (u.sockhost.take HOSTLEN)
  ident : u.gotId = true → u.username.val.head? ≠ some '~'
  tilde : u.gotId = false → block.noTilde = false → username.length < USERLEN ∧ '[' ∉ username
  noTilde : u.gotId = false → block.noTilde = true →
    (username.filter (· ≠ '[')).head? ≠ some '~' ∧ BracketsVanish USERLEN username

section Keys

open Census

theorem length_eq_of_fold {s t : Str} (h : fold s = fold t) : s.length = t.length := by
  rw [← fold_length s, h, fold_length]

theorem stripTilde_of_head {user : Str} (h : user.head? ≠ some '~') : stripTilde user = user := by
  rw [stripTilde, if_pos (by simpa [hasident] using h)]

theorem stripTilde_cons (user : Str) : stripTilde ('~' :: user) = user := rfl

/-- A name and what is left of it without its tilde. -/
theorem fold_stripTilde_iff (user : Str) :
    fold user = fold (stripTilde user) ↔ user.head? ≠ some '~' := by
  refine ⟨fun h htilde => ?_, fun h => by rw [stripTilde_of_head h]⟩
  cases user with
  | nil => cases htilde
  | cons c user =>
      obtain rfl : c = '~' := Option.some.inj htilde
      have hlen := length_eq_of_fold h
      rw [stripTilde_cons, List.length_cons] at hlen
      omega

theorem fold_take_copy_iff (username : Str) :
    fold (username.take USERLEN) = fold ((username.filter (· ≠ '[')).take (USERLEN - 1)) ↔
      username.length < USERLEN ∧ '[' ∉ username := by
  constructor
  · intro h
    have hlen := length_eq_of_fold h
    rw [List.length_take, List.length_take, show USERLEN - 1 = 9 from rfl] at hlen
    have huser : USERLEN = 10 := rfl
    have hle := List.length_filter_le (· ≠ '[') username
    refine ⟨by omega, fun hmem => ?_⟩
    have hlt : (username.filter (· ≠ '[')).length < username.length :=
      List.length_filter_lt_length_iff_exists.mpr ⟨'[', hmem, by decide⟩
    omega
  · rintro ⟨hlen, hmem⟩
    have hfilter : username.filter (· ≠ '[') = username := by
      refine List.filter_eq_self.mpr fun c hc => ?_
      have hne : c ≠ '[' := fun h => hmem (h ▸ hc)
      simpa using hne
    rw [hfilter, List.take_of_length_le hlen.le,
      List.take_of_length_le (Nat.le_sub_one_of_lt hlen)]

theorem fold_take_noTilde_iff (username : Str) :
    fold (username.take USERLEN) =
        fold (stripTilde ((username.filter (· ≠ '[')).take USERLEN)) ↔
      (username.filter (· ≠ '[')).head? ≠ some '~' ∧ BracketsVanish USERLEN username := by
  have hhead : ((username.filter (· ≠ '[')).take USERLEN).head? =
      (username.filter (· ≠ '[')).head? := List.head?_take.trans (if_neg (by decide))
  rw [← fold_take_filter_iff]
  constructor
  · intro h
    have htilde : (username.filter (· ≠ '[')).head? ≠ some '~' := by
      intro htilde
      have hlen := length_eq_of_fold h
      have hle := List.length_filter_le (· ≠ '[') username
      cases hf : username.filter (· ≠ '[') with
      | nil =>
          rw [hf] at htilde
          cases htilde
      | cons c cs =>
          rw [hf] at htilde hlen hle
          obtain rfl : c = '~' := Option.some.inj htilde
          rw [List.take_succ_cons, stripTilde_cons, List.length_take, List.length_take] at hlen
          change min 10 username.length = min 9 cs.length at hlen
          rw [List.length_cons] at hle
          omega
    rw [stripTilde_of_head (by rwa [hhead])] at h
    exact ⟨htilde, h⟩
  · rintro ⟨htilde, h⟩
    rwa [stripTilde_of_head (by rwa [hhead])]

variable {cfg : CensusConfig} {u : User} {block : AuthBlock} {username : Str} {ssl : Bool}

theorem spoofed_kept (u : User) (block : AuthBlock) :
    (u.spoofed block).gotId = u.gotId ∧ (u.spoofed block).username = u.username ∧
      (u.spoofed block).sockhost = u.sockhost := by
  unfold User.spoofed
  split <;> exact ⟨rfl, rfl, rfl⟩

/-- The user name that a client is filed under, with its tilde. -/
def filedName (u : User) (block : AuthBlock) (username : Str) : Str :=
  if u.gotId then u.username.val else (unidentName block.noTilde username).val

theorem username_admittedUser : (admittedUser cfg u block username ssl).username.val =
    filedName u block username := by
  obtain ⟨hgot, hname, -⟩ := spoofed_kept u block
  unfold admittedUser
  rw [(registeredFrom cfg _ ssl).username, filedName, ← hgot, ← hname]
  unfold User.withUsername User.withValidHost
  split_ifs <;> rfl

theorem realhost_admittedUser : (admittedUser cfg u block username ssl).realhost.val =
    if validHostname (u.spoofed block).host.val then (u.spoofed block).realhost.val
    else u.sockhost.take HOSTLEN := by
  obtain ⟨-, -, hsock⟩ := spoofed_kept u block
  unfold admittedUser
  rw [(registeredFrom cfg _ ssl).realhost, ← hsock]
  unfold User.withUsername User.withValidHost
  split_ifs <;> rfl

theorem fold_host_iff (cfg : CensusConfig) (username : Str) (ssl : Bool) (hreal : u.realhost = u.host) :
    fold (u.spoofed block).host.val = fold (admittedUser cfg u block username ssl).realhost.val ↔
      validHostname (u.spoofed block).host.val = true ∨
        fold (u.spoofed block).host.val = fold (u.sockhost.take HOSTLEN) := by
  have hspoof : (u.spoofed block).realhost = (u.spoofed block).host := by
    unfold User.spoofed
    split
    · exact hreal
    · rfl
  rw [realhost_admittedUser, hspoof]
  split
  · rename_i hvalid
    exact iff_of_true rfl (Or.inl hvalid)
  · rename_i hvalid
    exact (or_iff_right hvalid).symm

/-- The connection is counted under the key that it is filed under, exactly then. -/
theorem countKey_eq_fileKey_iff (cfg : CensusConfig) (ssl : Bool) (hreal : u.realhost = u.host)
    (hname : u.gotId = false → u.username.val = username.take USERLEN) :
    u.countKey block = (admittedUser cfg u block username ssl).fileKey ↔
      SeenAsFiled u block username := by
  unfold User.countKey User.fileKey
  rw [Prod.mk.injEq, fold_host_iff cfg username ssl hreal, username_admittedUser, (spoofed_kept u block).2.1,
    filedName]
  cases hgot : u.gotId with
  | true =>
      rw [if_pos rfl, fold_stripTilde_iff]
      refine ⟨fun h => ⟨h.1, fun _ => h.2, fun h => ?_, fun h => ?_⟩,
        fun h => ⟨h.host, h.ident hgot⟩⟩
      all_goals
        rw [hgot] at h
        cases h
  | false =>
      rw [if_neg Bool.false_ne_true, hname hgot]
      cases htilde : block.noTilde with
      | false =>
          have hfiled : stripTilde (unidentName false username).val =
              (username.filter (· ≠ '[')).take (USERLEN - 1) := copyUsername_eq _ _
          rw [hfiled, fold_take_copy_iff]
          refine ⟨fun h => ⟨h.1, fun h => ?_, fun _ _ => h.2, fun _ h => ?_⟩,
            fun h => ⟨h.host, h.tilde hgot htilde⟩⟩
          · rw [hgot] at h
            cases h
          · rw [htilde] at h
            cases h
      | true =>
          have hfiled : (unidentName true username).val =
              (username.filter (· ≠ '[')).take USERLEN := copyUsername_eq _ _
          rw [hfiled, fold_take_noTilde_iff]
          refine ⟨fun h => ⟨h.1, fun h => ?_, fun _ h => ?_, fun _ _ => h.2⟩,
            fun h => ⟨h.host, h.noTilde hgot htilde⟩⟩
          · rw [hgot] at h
            cases h
          · rw [htilde] at h
            cases h

end Keys

namespace Census

/-- A local client of a class whose limits were looked at: neither an exceed_limit block
nor a PROXY entry let it in. -/
def limited (cfg : CensusConfig) (k : ℕ) (u : User) : Bool :=
  u.myConnect && u.iline.any (fun b => decide (b.classPtr = some k) && !b.exemptLimits) &&
    !u.proxied cfg

/-- The number of such sessions of a user and a host. -/
def sessions (cfg : CensusConfig) (k : ℕ) (h n : Str) (l : List User) : ℕ :=
  l.countP fun u => limited cfg k u && decide (u.fileKey = (h, n))

/-- Those that have no tilde. -/
def identSessions (cfg : CensusConfig) (k : ℕ) (h n : Str) (l : List User) : ℕ :=
  l.countP fun u => limited cfg k u && decide (u.fileKey = (h, n)) && untilded u

/-- No class holds more sessions of a user and a host than it allows. -/
structure WithinLimits (cfg : CensusConfig) (s : Census) : Prop where
  locals : ∀ k h n, (cfg.classes k).maxLocal ≠ 0 →
    sessions cfg k h n s.clients ≤ (cfg.classes k).maxLocal
  globals : ∀ k h n, (cfg.classes k).maxGlobal ≠ 0 →
    sessions cfg k h n s.clients ≤ (cfg.classes k).maxGlobal
  idents : ∀ k h n, (cfg.classes k).maxIdent ≠ 0 →
    identSessions cfg k h n s.clients ≤ (cfg.classes k).maxIdent

section Sessions

variable {cfg : CensusConfig} {k : ℕ} {h n : Str} {l l' : List User} {u : User}

theorem sessions_le (cfg : CensusConfig) (k : ℕ) (h n : Str) (l : List User) :
    sessions cfg k h n l ≤ (tallyBy untilded l h n).locals := by
  refine List.countP_mono_left fun u _ hu => ?_
  simp only [limited, Bool.and_eq_true] at hu ⊢
  exact ⟨hu.2, hu.1.1.1⟩

theorem identSessions_le (cfg : CensusConfig) (k : ℕ) (h n : Str) (l : List User) :
    identSessions cfg k h n l ≤ (tallyBy untilded l h n).idents := by
  refine List.countP_mono_left fun u _ hu => ?_
  simp only [limited, Bool.and_eq_true] at hu ⊢
  exact ⟨⟨hu.1.2, hu.1.1.1.1⟩, hu.2⟩

theorem limited_same {v : User} (hsame : SameUser u v) : limited cfg k v = limited cfg k u := by
  unfold limited User.proxied
  rw [hsame.myConnect, hsame.iline, hsame.sockhost, hsame.realhost]

theorem countP_forall₂ {p : User → Bool} (hp : ∀ {u v}, SameUser u v → p v = p u)
    (hl : List.Forall₂ SameUser l l') : l'.countP p = l.countP p := by
  induction hl with
  | nil => rfl
  | cons hsame _ ih => rw [List.countP_cons, List.countP_cons, ih, hp hsame]

/-- A number that depends on nothing a registered client changes. -/
theorem Still.countP_eq {rk : U32} {s s' : Census} {p : User → Bool} (hstill : Still rk s s')
    (hp : ∀ {u v}, SameUser u v → p v = p u) : s'.clients.countP p = s.clients.countP p := by
  obtain ⟨l, l', hl, hsame, hl'⟩ := hstill.clients
  rw [hl'.countP_eq, countP_forall₂ hp hsame, hl.countP_eq]

end Sessions

/-- Every registration that the event may bring is counted under its own key. -/
def Event.Seen (s : Census) (e : Event) : Prop :=
  ∀ u username v block, Registers s e u username v → v.access = .iline block →
    SeenAsFiled u block username

section Run

variable {cfg : CensusConfig} {s s' : Census} {u : User}

theorem withinLimits_init : WithinLimits cfg init where
  locals := fun _ _ _ _ => Nat.zero_le _
  globals := fun _ _ _ _ => Nat.zero_le _
  idents := fun _ _ _ _ => Nat.zero_le _

theorem WithinLimits.mono (hs : WithinLimits cfg s)
    (hle : ∀ k h n, sessions cfg k h n s'.clients ≤ sessions cfg k h n s.clients ∧
      identSessions cfg k h n s'.clients ≤ identSessions cfg k h n s.clients) :
    WithinLimits cfg s' where
  locals := fun k h n hk => (hle k h n).1.trans (hs.locals k h n hk)
  globals := fun k h n hk => (hle k h n).1.trans (hs.globals k h n hk)
  idents := fun k h n hk => (hle k h n).2.trans (hs.idents k h n hk)

theorem WithinLimits.still (hs : WithinLimits cfg s) (h : Still cfg.randomKey s s') :
    WithinLimits cfg s' := by
  refine hs.mono fun k host n => ⟨le_of_eq ?_, le_of_eq ?_⟩
  · refine h.countP_eq fun hsame => ?_
    rw [limited_same hsame, fileKey_same hsame]
  · refine h.countP_eq fun hsame => ?_
    rw [limited_same hsame, fileKey_same hsame, untilded, hsame.username, untilded]

theorem WithinLimits.left (hs : WithinLimits cfg s) (h : Left cfg.randomKey s s' u) :
    WithinLimits cfg s' := by
  refine hs.mono fun k host n => ⟨?_, ?_⟩
  · unfold sessions
    rw [h.clients.countP_eq]
    exact (List.sublist_cons_self u _).countP_le
  · unfold identSessions
    rw [h.clients.countP_eq]
    exact (List.sublist_cons_self u _).countP_le

theorem WithinLimits.introduced (hs : WithinLimits cfg s) (hremote : u.myConnect = false)
    (h : Joined cfg.randomKey s s' u) : WithinLimits cfg s' := by
  have hlimited : ∀ k, limited cfg k u = false := by
    intro k
    rw [limited, hremote, Bool.false_and, Bool.false_and]
  refine hs.mono fun k host n => ⟨le_of_eq ?_, le_of_eq ?_⟩
  · unfold sessions
    rw [h.clients.countP_eq, List.countP_cons, hlimited, Bool.false_and, if_neg Bool.false_ne_true,
      Nat.add_zero]
  · unfold identSessions
    rw [h.clients.countP_eq, List.countP_cons, hlimited, Bool.false_and, Bool.false_and,
      if_neg Bool.false_ne_true, Nat.add_zero]

theorem name_of_registers {e : Event} {username : Str} {v : Verdicts}
    (h : Registers s e u username v) (hgot : u.gotId = false) :
    u.username.val = username.take USERLEN := by
  cases h with
  | user now _ _ hu hgot' =>
      rw [hgot] at hgot'
      cases hgot'
  | named now _ _ hu hgot' => rfl
  | complete now _ hu =>
      exact (List.take_of_length_le (Nat.le_of_lt_succ u.username.property)).symm

theorem iline_admittedUser {block : AuthBlock} {username : Str} {ssl : Bool} :
    (admittedUser cfg u block username ssl).iline = some block := by
  unfold admittedUser
  rw [(registeredFrom cfg _ ssl).iline]
  unfold User.withUsername User.withValidHost
  split_ifs <;> rfl

theorem sockhost_admittedUser {block : AuthBlock} {username : Str} {ssl : Bool} :
    (admittedUser cfg u block username ssl).sockhost = u.sockhost := by
  unfold admittedUser
  rw [(registeredFrom cfg _ ssl).sockhost, ← (spoofed_kept u block).2.2]
  unfold User.withUsername User.withValidHost
  split_ifs <;> rfl

theorem findProxy_congr {host host' : Str} (h : fold host = fold host') :
    cfg.findProxy host = cfg.findProxy host' := by
  unfold CensusConfig.findProxy
  congr 1
  funext mask
  exact matchMask_congr mask h

/-- A PROXY entry is found for the client as it is found for the connection. -/
theorem proxied_admittedUser {block : AuthBlock} {username : Str} {ssl : Bool}
    (hreal : u.realhost = u.host) (hseen : SeenAsFiled u block username) :
    (admittedUser cfg u block username ssl).proxied cfg = (u.spoofed block).proxied cfg := by
  have hhost := (fold_host_iff cfg username ssl hreal).mpr hseen.host
  have hspoof : (u.spoofed block).realhost = (u.spoofed block).host := by
    unfold User.spoofed
    split
    · exact hreal
    · rfl
  unfold User.proxied
  rw [sockhost_admittedUser, (spoofed_kept u block).2.2, hspoof, findProxy_congr hhost]

/-- A client without a tilde did not have one when its sessions were counted. -/
theorem head?_of_untilded {block : AuthBlock} {username : Str} {ssl : Bool}
    (hname : u.gotId = false → u.username.val = username.take USERLEN)
    (hseen : SeenAsFiled u block username)
    (hident : untilded (admittedUser cfg u block username ssl) = true) :
    (u.spoofed block).username.val.head? ≠ some '~' := by
  rw [(spoofed_kept u block).2.1]
  cases hgot : u.gotId with
  | true => exact hseen.ident hgot
  | false =>
      rw [untilded, username_admittedUser, filedName, if_neg (by simp [hgot])] at hident
      cases htilde : block.noTilde with
      | false =>
          rw [htilde] at hident
          cases hident
      | true =>
          intro hhead
          refine (hseen.noTilde hgot htilde).1 ?_
          rw [hname hgot] at hhead
          cases username with
          | nil => cases hhead
          | cons c cs =>
              obtain rfl : c = '~' := Option.some.inj hhead
              rw [List.filter_cons_of_pos (by decide)]
              rfl

/-- There was room in the class for a client that it limits. -/
theorem Admitted.room {e : Event} {block : AuthBlock} {username : Str} {v : Verdicts}
    (h : Admitted cfg s s' e u block username v) (hseen : SeenAsFiled u block username)
    (hacc : s.Accounted cfg.randomKey) {k : ℕ} {host n : Str}
    (hlimited : limited cfg k (admittedUser cfg u block username v.ssl) = true)
    (hkey : (admittedUser cfg u block username v.ssl).fileKey = (host, n)) :
    ((cfg.classes k).maxLocal ≠ 0 →
      (tallyBy untilded s.clients host n).locals < (cfg.classes k).maxLocal) ∧
    ((cfg.classes k).maxGlobal ≠ 0 →
      (tallyBy untilded s.clients host n).globals < (cfg.classes k).maxGlobal) ∧
    ((cfg.classes k).maxIdent ≠ 0 → untilded (admittedUser cfg u block username v.ssl) = true →
      (tallyBy untilded s.clients host n).idents < (cfg.classes k).maxIdent) := by
  have hname := name_of_registers h.registers
  obtain ⟨k', perIp, hclass, hroom⟩ := h.passes
  rw [limited, iline_admittedUser, proxied_admittedUser h.fresh.realhost hseen] at hlimited
  simp only [Option.any_some, Bool.and_eq_true, decide_eq_true_eq, Bool.not_eq_true'] at hlimited
  obtain ⟨⟨-, hclass', hexempt⟩, hproxied⟩ := hlimited
  obtain rfl : k' = k := Option.some.inj (hclass.symm.trans hclass')
  have hcount := (countKey_eq_fileKey_iff cfg v.ssl h.fresh.realhost hname).mpr
    hseen
  rw [hkey] at hcount
  obtain ⟨hhost, hn⟩ := Prod.mk.inj hcount
  rw [hexempt, Bool.not_false, Bool.and_true, UserHostTable.countUserHost_eq, hhost, hn, hacc,
    getD_filed, limitReached, hproxied] at hroom
  simp only [Bool.not_false, Bool.true_and, Bool.or_eq_false_iff, Bool.and_eq_false_iff,
    bne_eq_false_iff_eq, decide_eq_false_iff_not, not_le, not_lt] at hroom
  obtain ⟨⟨⟨-, hlocal⟩, hglobal⟩, hident⟩ := hroom
  refine ⟨fun hk => hlocal.resolve_left hk, fun hk => hglobal.resolve_left hk,
    fun hk huntilded => (hident.resolve_right ?_).resolve_left hk⟩
  exact head?_of_untilded hname hseen huntilded

/-- One client more keeps a bound when there was room for it. -/
theorem countP_joined {p : User → Bool} {l l' : List User} {limit : ℕ} (hperm : l'.Perm (u :: l))
    (hold : l.countP p ≤ limit) (hroom : p u = true → l.countP p < limit) :
    l'.countP p ≤ limit := by
  rw [hperm.countP_eq, List.countP_cons]
  split
  · rename_i hu
    exact hroom hu
  · exact hold

theorem WithinLimits.admitted {e : Event} {block : AuthBlock} {username : Str} {v : Verdicts}
    (hs : WithinLimits cfg s) (hacc : s.Accounted cfg.randomKey)
    (h : Admitted cfg s s' e u block username v) (hseen : SeenAsFiled u block username) :
    WithinLimits cfg s' where
  locals := by
    intro k host n hk
    refine countP_joined h.enrolled.clients (hs.locals k host n hk) fun hu => ?_
    obtain ⟨hlimited, hkey⟩ := Bool.and_eq_true_iff.mp hu
    have hroom := (h.room hseen hacc hlimited (of_decide_eq_true hkey)).1 hk
    exact (sessions_le cfg k host n s.clients).trans_lt hroom
  globals := by
    intro k host n hk
    refine countP_joined h.enrolled.clients (hs.globals k host n hk) fun hu => ?_
    obtain ⟨hlimited, hkey⟩ := Bool.and_eq_true_iff.mp hu
    have hroom := (h.room hseen hacc hlimited (of_decide_eq_true hkey)).2.1 hk
    exact ((sessions_le cfg k host n s.clients).trans (tallyBy_le _ _ _ _).1).trans_lt hroom
  idents := by
    intro k host n hk
    refine countP_joined h.enrolled.clients (hs.idents k host n hk) fun hu => ?_
    obtain ⟨hu, huntilded⟩ := Bool.and_eq_true_iff.mp hu
    obtain ⟨hlimited, hkey⟩ := Bool.and_eq_true_iff.mp hu
    have hroom := (h.room hseen hacc hlimited (of_decide_eq_true hkey)).2.2 hk huntilded
    exact (identSessions_le cfg k host n s.clients).trans_lt hroom

theorem WithinLimits.step (hs : WithinLimits cfg s) (hwf : s.Wf cfg.randomKey)
    (hacc : s.Accounted cfg.randomKey) {e : Event} (hseen : e.Seen s) :
    WithinLimits cfg (s.step cfg e) := by
  rcases (step_spec hwf e).2 with hstill | hadmitted | ⟨hremote, hjoined⟩ | hleft
  · exact hs.still hstill
  · exact hs.admitted hacc hadmitted (hseen _ _ _ _ hadmitted.registers hadmitted.access)
  · exact hs.introduced hremote hjoined
  · exact hs.left hleft

theorem withinLimits_run {events : List Event}
    (h : Runs.Each (Census.step cfg) (fun s e => e.Seen s) init events) :
    WithinLimits cfg (run cfg events) := by
  refine (Runs.invariant (P := fun s => s.Wf cfg.randomKey ∧ s.Accounted cfg.randomKey ∧
    WithinLimits cfg s) ?_ ⟨wf_init cfg.randomKey, fun _ _ => rfl, withinLimits_init⟩ h).2.2
  rintro s e ⟨hwf, hacc, hs⟩ hseen
  exact ⟨(step_spec hwf e).1, hacc.step hwf e, hs.step hwf hacc hseen⟩

end Run

/-- A connection is counted under the key that it is filed under exactly when its name
and its host survive registration, and while all do, the classes keep their limits. -/
theorem limits_seen (cfg : CensusConfig) :
    (∀ s e u username v block, Registers s e u username v → Fresh u →
      (u.countKey block = (admittedUser cfg u block username v.ssl).fileKey ↔
        SeenAsFiled u block username)) ∧
    ∀ events, Runs.Each (step cfg) (fun s e => e.Seen s) init events →
      WithinLimits cfg (run cfg events) :=
  ⟨fun _ _ _ _ _ _ hreg hfresh => countKey_eq_fileKey_iff cfg _ hfresh.realhost
    (name_of_registers hreg), fun _ h => withinLimits_run h⟩

section Clones

/-- What `arrival` connects. -/
def arriving (id : ℕ) : User :=
  connection id false Buf.empty (Buf.strlcpy "host".toList) "10.0.0.1".toList (.inet 0x0A000001)

/-- The same with its USER name. -/
def named (id : ℕ) (username : Str) : User :=
  { arriving id with username := Buf.strlcpy username }

def someBlock : AuthBlock := ⟨some 0, false, false, false, none⟩

theorem seenAsFiled_named (id : ℕ) : SeenAsFiled (named id "user".toList) someBlock "user".toList where
  host := by
    refine Or.inl ?_
    change validHostname "host".toList = true
    decide
  ident := fun h => by cases h
  tilde := fun _ _ => by decide
  noTilde := fun _ h => by cases h

theorem seen_connect (id : ℕ) (s : Census) : Event.Seen s (.connect id false Buf.empty
    (Buf.strlcpy "host".toList) "10.0.0.1".toList (.inet 0x0A000001)) :=
  fun _ _ _ _ h => by cases h

theorem seen_user (id : ℕ) {s : Census} (hs : s.user? id = some (arriving id)) :
    Event.Seen s (.user 0 id "user".toList true (someVerdicts false)) := by
  intro u username v block hreg hblock
  cases hreg with
  | user now _ _ hu hgot =>
      obtain rfl := Option.some.inj (hs.symm.trans hu)
      cases hgot
  | named now _ _ hu hgot =>
      obtain rfl := Option.some.inj (hs.symm.trans hu)
      obtain rfl : someBlock = block := Access.iline.inj hblock
      exact seenAsFiled_named id

theorem limits_seen_user :
    (named 1 "user".toList).countKey someBlock =
        (admittedUser (someConfig 1) (named 1 "user".toList) someBlock "user".toList false).fileKey ∧
      WithinLimits (someConfig 1) (run (someConfig 1)
        (arrival 1 false "user".toList ++ arrival 2 false "user".toList)) :=
  ⟨((limits_seen (someConfig 1)).1 { init with users := [arriving 1] }
      (.user 0 1 "user".toList true (someVerdicts false)) _ _ _ _ (Registers.named 0 _ _ rfl rfl) ⟨rfl, rfl, rfl, rfl, rfl⟩).mpr (seenAsFiled_named 1),
    (limits_seen (someConfig 1)).2 _ ⟨seen_connect 1 _, seen_user 1 rfl, seen_connect 2 _,
      seen_user 2 rfl, trivial⟩⟩

/-- A USER name of ten letters loses one behind the tilde, and its clones are not seen. -/
theorem not_withinLimits : ¬ ∀ cfg events, WithinLimits cfg (run cfg events) := by
  intro h
  have hlocals := (h (someConfig 1) (arrival 1 false "tenletters".toList ++
    arrival 2 false "tenletters".toList)).locals 0 "host".toList "tenletter".toList (by decide)
  revert hlocals
  decide

end Clones

end Census

end Unirc
