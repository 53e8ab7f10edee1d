import Mathlib.Data.Finset.Card
import Unirc.UidLine

/-!
# Reading an introduction back

The UID line that `sendnick_TS` writes gives the receiving server the same client exactly when its
mode letters fit `ubuf`, its fields are words of a line that is not cut, and its timestamp is one
that is printed as it is.
-/

namespace Unirc

section Modes

variable (myClient : Bool) (umodes sendmask : UModes)

/-- The modes that `send_umode` writes where there were none before. -/
def sentModes : UModes := if myClient then umodes ∩ sendmask else umodes

def sentLetters (chars : Str) : Str :=
  chars.filter fun c => (userModes c).any fun flag => flag ∈ sentModes myClient umodes sendmask

variable {myClient umodes sendmask}

theorem mem_sentModes {flag : UMode} : flag ∈ sentModes myClient umodes sendmask ↔
    ¬ (myClient = true ∧ flag ∉ sendmask) ∧ flag ∈ umodes := by
  unfold sentModes
  cases myClient with
  | false => simp
  | true => simp [and_comm]

theorem umodeStep_eq (st : ModeDir × Str) (c : Char) : umodeStep myClient umodes ∅ sendmask st c =
    if (userModes c).any fun flag => flag ∈ sentModes myClient umodes sendmask then
      (.add, st.2 ++ if st.1 = .add then [c] else ['+', c])
    else st := by
  unfold umodeStep
  cases userModes c with
  | none => rfl
  | some flag =>
      simp only [Option.any_some, decide_eq_true_eq, mem_sentModes, Finset.notMem_empty, false_and,
        if_false, not_false_eq_true, true_and]
      by_cases hmask : myClient = true ∧ flag ∉ sendmask
      · rw [if_pos hmask, if_neg fun h => h.1 hmask]
      · rw [if_neg hmask]
        exact if_congr (and_iff_right hmask).symm rfl rfl

theorem sentLetters_cons_of_pos {c : Char} (chars : Str)
    (h : (userModes c).any fun flag => flag ∈ sentModes myClient umodes sendmask) :
    sentLetters myClient umodes sendmask (c :: chars) =
      c :: sentLetters myClient umodes sendmask chars := List.filter_cons_of_pos h

theorem sentLetters_cons_of_neg {c : Char} (chars : Str)
    (h : ¬ (userModes c).any fun flag => flag ∈ sentModes myClient umodes sendmask) :
    sentLetters myClient umodes sendmask (c :: chars) =
      sentLetters myClient umodes sendmask chars := List.filter_cons_of_neg h

theorem foldl_umodeStep_add (chars t : Str) :
    (chars.foldl (umodeStep myClient umodes ∅ sendmask) (.add, t)).2 =
      t ++ sentLetters myClient umodes sendmask chars := by
  induction chars generalizing t with
  | nil => simp [sentLetters]
  | cons c chars ih =>
      rw [List.foldl_cons, umodeStep_eq]
      split
      · rename_i hsent
        rw [if_pos rfl, ih, sentLetters_cons_of_pos chars hsent, List.append_assoc]
        rfl
      · rename_i hsent
        rw [ih, sentLetters_cons_of_neg chars hsent]

theorem foldl_umodeStep (chars : Str) :
    (chars.foldl (umodeStep myClient umodes ∅ sendmask) (.query, [])).2 =
      if sentLetters myClient umodes sendmask chars = [] then []
      else '+' :: sentLetters myClient umodes sendmask chars := by
  induction chars with
  | nil => rfl
  | cons c chars ih =>
      rw [List.foldl_cons, umodeStep_eq]
      by_cases hsent : (userModes c).any fun flag => flag ∈ sentModes myClient umodes sendmask
      · rw [if_pos hsent, sentLetters_cons_of_pos chars hsent, if_neg (List.cons_ne_nil _ _)]
        exact foldl_umodeStep_add chars ['+', c]
      · rw [if_neg hsent, sentLetters_cons_of_neg chars hsent]
        exact ih

theorem length_filter_any {α β : Type*} (f : α → Option β) (p : β → Bool) (l : List α) :
    (l.filter fun a => (f a).any p).length = ((l.filterMap f).filter p).length := by
  induction l with
  | nil => rfl
  | cons a l ih =>
      cases hf : f a with
      | none => simp [hf, ih]
      | some b =>
          cases hp : p b with
          | false => simp [hf, hp, ih]
          | true => simp [hf, hp, ih]

theorem filterMap_umodeChars : umodeChars.filterMap userModes =
    [.admin, .gringo, .deaf, .netadmin, .soper, .regonly, .ssl, .vadmin, .zombie, .sadmin, .bots,
      .cconn, .debug, .full, .helper, .invisible, .rej, .skill, .locops, .nchange, .oper,
      .hidechannels, .regnick, .servnotice, .unauth, .voper, .wallop, .cloak, .spy, .operwall] :=
  rfl

theorem mem_filterMap_umodeChars (flag : UMode) : flag ∈ umodeChars.filterMap userModes := by
  rw [filterMap_umodeChars]
  cases flag <;> decide

theorem length_sentLetters : (sentLetters myClient umodes sendmask umodeChars).length =
    (sentModes myClient umodes sendmask).card := by
  have hnodup : (umodeChars.filterMap userModes).Nodup := by
    rw [filterMap_umodeChars]
    decide
  have hmodes : ((umodeChars.filterMap userModes).filter fun flag =>
      flag ∈ sentModes myClient umodes sendmask).toFinset = sentModes myClient umodes sendmask := by
    ext flag
    simp [mem_filterMap_umodeChars flag]
  rw [sentLetters, length_filter_any, ← List.toFinset_card_of_nodup (hnodup.filter _), hmodes]

/-- A text of modes and its NUL fit `ubuf` as long as there are ten letters or fewer. -/
theorem fits_sendUmode_iff : (sendUmode myClient umodes ∅ sendmask).length < UBUFLEN ↔
    (sentModes myClient umodes sendmask).card ≤ 10 := by
  have hlen := @length_sentLetters myClient umodes sendmask
  unfold sendUmode
  rw [foldl_umodeStep]
  split
  · rename_i hnil
    rw [hnil] at hlen
    rw [← hlen]
    decide
  · rw [List.length_cons, hlen, UBUFLEN]
    omega

end Modes

section Tokens

theorem length_splitArgs_of_not_mem (n : ℕ) {s : Str} (h : ' ' ∉ s) :
    (splitArgs (n + 1) s).length ≤ 1 := by
  have hskip : skipBlanks s = s := by
    cases s with
    | nil => rfl
    | cons c s =>
        have hc : c ≠ ' ' := fun heq => h (heq ▸ List.mem_cons_self)
        simp [skipBlanks, hc]
  rw [splitArgs, hskip]
  split
  · exact Nat.zero_le _
  · rename_i c buf
    split
    · exact le_rfl
    · have hdrop : (c :: buf).dropWhile (· ≠ ' ') = [] := by
        refine List.dropWhile_eq_nil_iff.mpr fun d hd => ?_
        have hne : d ≠ ' ' := fun heq => h (heq ▸ hd)
        simpa using hne
      rw [hdrop]
      exact le_rfl

/-- Words and a last parameter that are cut somewhere: the words are complete, or there are too few
parameters. -/
theorem splitArgs_take_spaced {words : List Str} (h : ∀ w ∈ words, IsWord w) (n k : ℕ)
    (last : Str) :
    (splitArgs (k + words.length + 1)
      ((NetClient.spaced words ++ ':' :: last).take n)).length ≤ words.length ∨
    ∃ m, splitArgs (k + words.length + 1) ((NetClient.spaced words ++ ':' :: last).take n) =
        words ++ [last.take m] ∧ n = (NetClient.spaced words).length + 1 + m := by
  induction words generalizing n with
  | nil =>
      cases n with
      | zero => exact Or.inl le_rfl
      | succ m =>
          refine Or.inr ⟨m, splitArgs_colon _ _, ?_⟩
          change m + 1 = 0 + 1 + m
          omega
  | cons w words ih =>
      have hw := h w List.mem_cons_self
      have htext : NetClient.spaced (w :: words) ++ ':' :: last =
          w ++ ' ' :: (NetClient.spaced words ++ ':' :: last) := by
        simp [NetClient.spaced]
      have hlen : (NetClient.spaced (w :: words)).length =
          w.length + 1 + (NetClient.spaced words).length := by
        simp only [NetClient.spaced, List.flatMap_cons, List.length_append, List.length_singleton]
      rw [htext, hlen]
      by_cases hn : n ≤ w.length
      · refine Or.inl ?_
        rw [List.take_append_of_le_length hn, List.length_cons]
        refine (length_splitArgs_of_not_mem _ fun hmem => ?_).trans (Nat.le_add_left 1 _)
        exact hw.blank (List.mem_of_mem_take hmem)
      · obtain ⟨n, rfl⟩ : ∃ n', n = w.length + (n' + 1) := ⟨n - w.length - 1, by omega⟩
        rw [List.take_length_add_append, List.take_succ_cons, List.length_cons,
          splitArgs_word hw]
        rcases ih (fun v hv => h v (List.mem_cons_of_mem _ hv)) n with hfew | ⟨m, hall, hm⟩
        · exact Or.inl (Nat.succ_le_succ hfew)
        · refine Or.inr ⟨m, congrArg (w :: ·) hall, ?_⟩
          omega

end Tokens

namespace NetClient

variable {me : Str} {u : NetClient}

section Line

theorem ubuf_eq (hadmin : u.hiddenAdmin = false) :
    u.ubuf = '+' :: sentLetters u.myClient u.umodes SEND_UMODES umodeChars := by
  have htext : u.umodeText = if sentLetters u.myClient u.umodes SEND_UMODES umodeChars = [] then []
      else '+' :: sentLetters u.myClient u.umodes SEND_UMODES umodeChars := by
    unfold umodeText
    rw [hadmin]
    exact foldl_umodeStep umodeChars
  unfold ubuf
  rw [htext]
  by_cases hnil : sentLetters u.myClient u.umodes SEND_UMODES umodeChars = []
  · rw [if_pos hnil, if_pos rfl, hnil]
  · rw [if_neg hnil, if_neg (List.cons_ne_nil _ _)]

theorem isWord_ubuf (hadmin : u.hiddenAdmin = false) : IsWord u.ubuf := by
  rw [ubuf_eq hadmin]
  refine ⟨List.cons_ne_nil _ _, fun hmem => ?_, by simp⟩
  rcases List.mem_cons.mp hmem with h | h
  · cases h
  · exact absurd (List.mem_filter.mp h).2 (by simp [userModes])

theorem mem_foldl_letterModes {flag : UMode} (hsend : flag ∈ SEND_UMODES) (letters : Str)
    (m : UModes) : flag ∈ letters.foldl Census.letterModes m ↔
      flag ∈ m ∨ ∃ c ∈ letters, userModes c = some flag := by
  induction letters generalizing m with
  | nil => simp
  | cons c letters ih =>
      rw [List.foldl_cons, ih, Census.mem_letterModes hsend, or_assoc]
      simp

/-- The modes that the letters of the line give. -/
theorem foldl_letterModes_ubuf (hadmin : u.hiddenAdmin = false) :
    (u.ubuf.drop 1).foldl Census.letterModes ∅ ∩ SEND_UMODES = u.umodes ∩ SEND_UMODES := by
  have hchar : ∀ flag, ∃ c ∈ umodeChars, userModes c = some flag := fun flag =>
    List.mem_filterMap.mp (mem_filterMap_umodeChars flag)
  ext flag
  rw [ubuf_eq hadmin, List.drop_one, List.tail_cons, Finset.mem_inter, Finset.mem_inter]
  refine and_congr_left fun hsend => ?_
  rw [mem_foldl_letterModes hsend]
  have hsent : flag ∈ sentModes u.myClient u.umodes SEND_UMODES ↔ flag ∈ u.umodes := by
    rw [mem_sentModes]
    exact and_iff_right fun h => h.2 hsend
  constructor
  · rintro (hmem | ⟨c, hc, hflag⟩)
    · cases hmem
    · have hkept := (List.mem_filter.mp hc).2
      rw [hflag, Option.any_some, decide_eq_true_eq] at hkept
      exact hsent.mp hkept
  · intro hmem
    obtain ⟨c, hc, hflag⟩ := hchar flag
    refine Or.inr ⟨c, List.mem_filter.mpr ⟨hc, ?_⟩, hflag⟩
    rw [hflag, Option.any_some, decide_eq_true_eq]
    exact hsent.mpr hmem

theorem isWord_toDigits (n : ℕ) : IsWord (Nat.toDigits 10 n) := by
  have hd : ∀ c ∈ Nat.toDigits 10 n, c.isDigit = true := fun c hc =>
    Nat.isDigit_of_mem_toDigits (by decide) (by decide) hc
  refine ⟨Nat.toDigits_ne_nil, fun h => absurd (hd _ h) (by decide), fun h => ?_⟩
  exact absurd (hd _ (List.mem_of_head? h)) (by decide)

/-- A service stamp is read back in the base it was printed in. -/
theorem strtoul0_toDigits {n : ℕ} (hn : n < 2 ^ 32) : strtoul0 (Nat.toDigits 10 n) = n := by
  have hdigit : ∀ c ∈ Nat.toDigits 10 n, c.isDigit = true := fun c hc =>
    Nat.isDigit_of_mem_toDigits (by decide) (by decide) hc
  have hread : Decimal.readDigits (Nat.toDigits 10 n) = n := by
    simpa using Decimal.readDigits_toDigits_append n Decimal.stops_nil
  rcases Nat.eq_zero_or_pos n with rfl | hpos
  · decide
  · have hzero := Decimal.head?_toDigits hpos
    obtain ⟨c, cs, hcs⟩ := List.exists_cons_of_ne_nil (Nat.toDigits_ne_nil (b := 10) (n := n))
    rw [hcs] at hdigit hread hzero ⊢
    have hc := hdigit c List.mem_cons_self
    have hspace := Decimal.isDigit_not_isSpace hc
    have hne : c ≠ '-' ∧ c ≠ '+' ∧ c ≠ '0' := by
      refine ⟨?_, ?_, fun h => hzero (h ▸ rfl)⟩
      · rintro rfl
        exact absurd hc (by decide)
      · rintro rfl
        exact absurd hc (by decide)
    have hval : readBase0 (c :: cs) = n := by
      unfold readBase0
      split
      · rename_i heq
        exact absurd (List.cons.inj heq).1 hne.2.2
      · rename_i heq
        exact absurd (List.cons.inj heq).1 hne.2.2
      · rename_i heq
        exact absurd (List.cons.inj heq).1 hne.2.2
      · exact hread
    unfold strtoul0
    rw [List.dropWhile_cons_of_neg (by simp [hspace])]
    simp only [List.head?_cons, Option.some.injEq, hne.1, hne.2.1, or_self, if_false, hval]
    exact if_neg (by omega)

theorem isWord_uidWords (hadmin : u.hiddenAdmin = false) (hspoof : u.ipSpoof = false)
    (hvlink : IsWord (u.sentVlink me)) (hname : IsWord u.name.val) (huser : IsWord u.username.val)
    (hhost : IsWord u.host.val) (hip : IsWord u.sockhost.val) (hid : IsWord u.id.val)
    (hrealhost : IsWord u.realhost.val) : ∀ w ∈ u.uidWords me, IsWord w := by
  intro w hw
  simp only [uidWords, hspoof, Bool.false_eq_true, if_false, List.mem_cons, List.not_mem_nil,
    or_false] at hw
  rcases hw with rfl | rfl | rfl | rfl | rfl | rfl | rfl | rfl | rfl | rfl | rfl
  · exact hname
  · exact isWord_toDigits _
  · exact isWord_formatULong _
  · exact isWord_ubuf hadmin
  · exact huser
  · exact hhost
  · exact hip
  · exact hid
  · exact isWord_toDigits _
  · exact hrealhost
  · exact hvlink

/-- The parameters of the line that is sent. -/
theorem splitLine_sendnickTS (hid : u.id.val ≠ []) (hsid : ' ' ∉ u.servptr.id.val) :
    (splitLine (u.sendnickTS me true)).2 =
      stringToArray ((spaced (u.uidWords me) ++ ':' :: u.info.val).take
        (504 - u.servptr.id.val.length)) := by
  have hlen : u.servptr.id.val.length < 13 := u.servptr.id.property
  have hline : u.sendnickTS me true = ':' :: (u.servptr.id.val ++ ' ' :: ("UID".toList ++ ' ' ::
      (spaced (u.uidWords me) ++ ':' :: u.info.val).take (504 - u.servptr.id.val.length))) := by
    unfold sendnickTS
    rw [if_pos ⟨hid, rfl⟩, uidLine]
    generalize spaced (u.uidWords me) ++ ':' :: u.info.val = body
    have hcut : IRCD_BUFSIZE - 2 =
        u.servptr.id.val.length + (" UID ".toList.length + (504 - u.servptr.id.val.length)) + 1 := by
      simp only [IRCD_BUFSIZE, show " UID ".toList.length = 5 from rfl]
      omega
    rw [hcut, List.take_succ_cons, List.take_length_add_append, List.take_length_add_append]
    rfl
  rw [hline, splitLine_command hsid (by decide) (by decide)]

theorem length_uidLine : (u.uidLine me).length =
    u.servptr.id.val.length + 7 + (spaced (u.uidWords me)).length + u.info.val.length := by
  have huid : " UID ".toList.length = 5 := rfl
  simp only [uidLine, List.length_cons, List.length_append]
  omega

end Line

/-- The client that is introduced is the one that was sent. -/
structure Matches (u v : NetClient) : Prop where
  name : v.name = u.name
  id : v.id = u.id
  tsinfo : v.tsinfo = u.tsinfo
  umodes : v.umodes ∩ SEND_UMODES = u.umodes ∩ SEND_UMODES
  username : v.username = u.username
  host : v.host = u.host
  realhost : v.realhost = u.realhost
  sockhost : v.sockhost = u.sockhost
  servicestamp : v.servicestamp = u.servicestamp
  info : v.info = u.info

/-- The line gives the peer the client that was sent, and its modes fit their buffer. -/
def RoundTrips (p : UidPeer) (me : Str) (u : NetClient) : Prop :=
  u.umodeText.length < UBUFLEN ∧
    ∃ v, p.msUid u.servptr (splitLine (u.sendnickTS me true)).2 = .introduced v ∧ u.Matches v

/-- The clients that survive their introduction. -/
structure UidSafe (me : Str) (u : NetClient) : Prop where
  modes : (sentModes u.myClient u.umodes SEND_UMODES).card ≤ 10
  nick : cleanNickName u.name.val false = true
  nick_length : u.name.val.length < NICKLEN
  username : IsWord u.username.val
  host : IsWord u.host.val
  sockhost : IsWord u.sockhost.val
  id : IsWord u.id.val
  realhost : IsWord u.realhost.val
  tsinfo : 0 ≤ u.tsinfo ∧ u.tsinfo < 2 ^ 63
  line : (u.uidLine me).length ≤ IRCD_BUFSIZE - 2

section RoundTrip

variable {p : UidPeer}

theorem atol_formatULong_eq_iff {t : ℤ} :
    Decimal.atol (formatULong t) = t ↔ 0 ≤ t ∧ t < 2 ^ 63 := by
  have hread : Decimal.readInt (formatULong t) = t % 2 ^ 64 := by
    have hprint : formatULong t = Decimal.print (t % 2 ^ 64) := by
      obtain ⟨n, hn⟩ := Int.eq_ofNat_of_zero_le (Int.emod_nonneg t (by decide : (2 ^ 64 : ℤ) ≠ 0))
      rw [formatULong, hn]
      rfl
    have hexact := Decimal.readInt_print_append (t % 2 ^ 64) Decimal.stops_nil
    rwa [List.append_nil, ← hprint] at hexact
  rw [Decimal.atol, hread]
  omega

/-- What a client that `ms_uid` introduces was made of. -/
theorem exists_of_introduced {source : ServerIdent} {params : List Str} {v : NetClient}
    (h : p.msUid source params = .introduced v) :
    ∃ unick hopcount uts umode uname uhost ip uid stamp urealhost vlink gecos rest,
      params = unick :: hopcount :: uts :: umode :: uname :: uhost :: ip :: uid :: stamp ::
        urealhost :: vlink :: gecos :: rest ∧
      cleanNickName unick false = true ∧ v.name.val = unick ∧ unick.length < NICKLEN ∧
      v.tsinfo = Decimal.atol uts ∧ v.username.val = uname ∧ v.host.val = uhost ∧
      v.sockhost = Buf.strlcpy ip ∧ v.id = Buf.strlcpy uid ∧ v.realhost.val = urealhost ∧
      v.info = Buf.strlcpy gecos := by
  unfold UidPeer.msUid at h
  split at h
  · split at h
    · cases h
    split at h
    · cases h
    · extract_lets nick at h
      split at h
      · cases h
      rename_i hclean
      simp only [not_or, Bool.not_eq_false, not_not, cleanUser, cleanHost, decide_eq_true_eq]
        at hclean
      obtain ⟨hnick, hcut, huser, hhost, hrealhost⟩ := hclean
      split at h
      · cases h
      split at h
      · cases h
      · unfold UidPeer.clientFromServer at h
        split at h
        · obtain rfl := UidOutcome.introduced.inj h
          refine ⟨_, _, _, _, _, _, _, _, _, _, _, _, _, rfl, hcut ▸ hnick, hcut, hcut ▸ nick.property,
            rfl, List.take_of_length_le huser, List.take_of_length_le hhost, rfl, rfl,
            List.take_of_length_le hrealhost, rfl⟩
        · cases h
  · cases h

theorem isWord_of_cleanNickName {nick : Str} (h : cleanNickName nick false = true) :
    IsWord nick := by
  obtain ⟨hne, hchars⟩ := isNickChar_of_cleanNickName h
  refine ⟨hne, fun hmem => absurd (hchars _ hmem) (by decide), fun hhead => ?_⟩
  exact absurd (hchars _ (List.mem_of_head? hhead)) (by decide)

/-- The parameters of a line whose words are complete. -/
theorem splitLine_cases (hid : u.id.val ≠ []) (hsid : ' ' ∉ u.servptr.id.val)
    (hwords : ∀ w ∈ u.uidWords me, IsWord w) :
    (splitLine (u.sendnickTS me true)).2.length ≤ 11 ∨
      ∃ m, (splitLine (u.sendnickTS me true)).2 = u.uidWords me ++ [u.info.val.take m] ∧
        504 - u.servptr.id.val.length = (spaced (u.uidWords me)).length + 1 + m := by
  rw [splitLine_sendnickTS hid hsid]
  exact splitArgs_take_spaced hwords (504 - u.servptr.id.val.length) 1 u.info.val

theorem uidSafe_of_roundTrips (hspoof : u.ipSpoof = false) (hadmin : u.hiddenAdmin = false)
    (hid : u.id.val ≠ []) (hsid : ' ' ∉ u.servptr.id.val) (hvlink : IsWord (u.sentVlink me))
    (h : RoundTrips p me u) : UidSafe me u := by
  obtain ⟨hbuf, v, hv, hmatch⟩ := h
  obtain ⟨unick, hop, uts, umode, uname, uhost, ip, uid, stamp, urealhost, vlink, gecos, rest,
    hparams, hclean, hnick, hlength, hts, huser, hhost, hip, huid, hrealhost, hinfo⟩ :=
    exists_of_introduced hv
  have hword : ∀ w ∈ [uname, uhost, ip, uid, urealhost], IsWord w := by
    intro w hw
    refine isWord_of_mem_dropLast (n := 13) (p := (spaced (u.uidWords me) ++ ':' :: u.info.val).take
      (504 - u.servptr.id.val.length)) ?_
    change w ∈ (stringToArray _).dropLast
    rw [← splitLine_sendnickTS hid hsid, hparams]
    simp only [List.mem_cons, List.not_mem_nil, or_false] at hw
    rcases hw with rfl | rfl | rfl | rfl | rfl <;> simp
  have hname : unick = u.name.val := hnick.symm.trans (congrArg Subtype.val hmatch.name)
  have huname : uname = u.username.val := huser.symm.trans (congrArg Subtype.val hmatch.username)
  have huhost : uhost = u.host.val := hhost.symm.trans (congrArg Subtype.val hmatch.host)
  have hureal : urealhost = u.realhost.val :=
    hrealhost.symm.trans (congrArg Subtype.val hmatch.realhost)
  have hsock : IsWord u.sockhost.val := by
    rw [← hmatch.sockhost, hip]
    exact IsWord.take (hword ip (by simp)) (by decide)
  have hident : IsWord u.id.val := by
    rw [← hmatch.id, huid]
    exact IsWord.take (hword uid (by simp)) (by decide)
  have hwords := isWord_uidWords hadmin hspoof hvlink (isWord_of_cleanNickName (hname ▸ hclean))
    (huname ▸ hword uname (by simp)) (huhost ▸ hword uhost (by simp)) hsock hident
    (hureal ▸ hword urealhost (by simp))
  obtain ⟨m, hread, hcut⟩ : ∃ m, _ ∧ _ := (splitLine_cases hid hsid hwords).resolve_left fun hfew => by
    rw [hparams] at hfew
    simp only [List.length_cons] at hfew
    omega
  rw [hparams] at hread
  simp only [uidWords, List.cons_append, List.nil_append, List.cons.injEq] at hread
  obtain ⟨-, -, hreadTs, -, -, -, -, -, -, -, -, hgecos, -⟩ := hread
  refine ⟨?_, hname ▸ hclean, hname ▸ hlength, huname ▸ hword uname (by simp),
    huhost ▸ hword uhost (by simp), hsock, hident, hureal ▸ hword urealhost (by simp), ?_, ?_⟩
  · rw [← fits_sendUmode_iff]
    simpa [umodeText, hadmin] using hbuf
  · rw [← atol_formatULong_eq_iff, ← hreadTs, ← hts, hmatch.tsinfo]
  · have hlen : u.info.val.length ≤ m := by
      have hval : u.info.val = (u.info.val.take m).take REALLEN := by
        rw [← hgecos]
        exact (congrArg Subtype.val (hmatch.info.symm.trans hinfo))
      have := congrArg List.length hval
      simp only [List.length_take] at this
      omega
    have hsidLength : u.servptr.id.val.length < 13 := u.servptr.id.property
    rw [length_uidLine, IRCD_BUFSIZE]
    omega

theorem roundTrips_of_uidSafe (hspoof : u.ipSpoof = false) (hadmin : u.hiddenAdmin = false)
    (hsid : ' ' ∉ u.servptr.id.val) (hvlink : IsWord (u.sentVlink me))
    (hserver : p.servers u.servptr = true) (hfree : p.findClient u.name.val = none)
    (hnew : p.findId u.id.val = false) (h : UidSafe me u) : RoundTrips p me u := by
  have hname := isWord_of_cleanNickName h.nick
  have hwords := isWord_uidWords hadmin hspoof hvlink hname h.username h.host h.sockhost h.id
    h.realhost
  have hsidLength : u.servptr.id.val.length < 13 := u.servptr.id.property
  have hparams : (splitLine (u.sendnickTS me true)).2 = u.uidWords me ++ [u.info.val] := by
    have hline := h.line
    rw [length_uidLine, IRCD_BUFSIZE] at hline
    have hall : (spaced (u.uidWords me) ++ ':' :: u.info.val).length ≤
        504 - u.servptr.id.val.length := by
      rw [List.length_append, List.length_cons]
      omega
    rw [splitLine_sendnickTS h.id.ne_nil hsid, List.take_of_length_le hall]
    exact (splitArgs_words hwords 2 (':' :: u.info.val)).trans
      (congrArg (u.uidWords me ++ ·) (splitArgs_colon 1 u.info.val))
  have hcut : (Buf.strlcpy u.name.val : Buf NICKLEN).val = u.name.val :=
    List.take_of_length_le (Nat.le_of_lt_succ h.nick_length)
  have huser : u.username.val.length < 11 := u.username.property
  have hhost : u.host.val.length < 64 := u.host.property
  have hrealhost : u.realhost.val.length < 64 := u.realhost.property
  refine ⟨?_, ?_⟩
  · have hmodes := fits_sendUmode_iff.mpr h.modes
    simpa [umodeText, hadmin] using hmodes
  rw [hparams]
  simp only [uidWords, hspoof, Bool.false_eq_true, if_false, List.cons_append, List.nil_append]
  unfold UidPeer.msUid
  dsimp only
  rw [if_neg hname.ne_nil]
  have hclean : ¬ (cleanNickName (Buf.strlcpy u.name.val : Buf NICKLEN).val false = false ∨
      (Buf.strlcpy u.name.val : Buf NICKLEN).val ≠ u.name.val ∨ cleanUser u.username.val = false ∨
      cleanHost u.host.val = false ∨ cleanHost u.realhost.val = false) := by
    rw [hcut, h.nick]
    simp only [cleanUser, cleanHost, USERLEN, HOSTLEN, decide_eq_false_iff_not, Bool.true_eq_false,
      ne_eq, not_true_eq_false, false_or]
    omega
  rw [if_neg hclean, hnew, if_neg Bool.false_ne_true, hfree, if_neg (by simp)]
  unfold UidPeer.clientFromServer
  rw [if_pos hserver]
  refine ⟨_, rfl, ?_⟩
  constructor
  · exact Subtype.ext hcut
  · exact Buf.strlcpy_val u.id
  · exact atol_formatULong_eq_iff.mpr h.tsinfo
  · exact foldl_letterModes_ubuf hadmin
  · exact Buf.strlcpy_val u.username
  · exact Buf.strlcpy_val u.host
  · exact Buf.strlcpy_val u.realhost
  · exact Buf.strlcpy_val u.sockhost
  · exact (congrArg (BitVec.ofNat 32) (strtoul0_toDigits u.servicestamp.isLt)).trans
      (BitVec.ofNat_toNat ..)
  · exact Buf.strlcpy_val u.info

/-- A client with an id survives its introduction exactly when it is one of those. -/
theorem roundTrips_iff (hid : u.id.val ≠ []) (hspoof : u.ipSpoof = false)
    (hadmin : u.hiddenAdmin = false) (hsid : ' ' ∉ u.servptr.id.val)
    (hvlink : IsWord (u.sentVlink me)) (hserver : p.servers u.servptr = true)
    (hfree : p.findClient u.name.val = none) (hnew : p.findId u.id.val = false) :
    RoundTrips p me u ↔ UidSafe me u :=
  ⟨uidSafe_of_roundTrips hspoof hadmin hid hsid hvlink,
    roundTrips_of_uidSafe hspoof hadmin hsid hvlink hserver hfree hnew⟩

/-- A user of the server `0AA` that is connected from `ip`. -/
def connectedFrom (ip : Str) : NetClient where
  name := Buf.strlcpy "alice".toList
  id := Buf.strlcpy "0AAAAAAAA".toList
  hopcount := 0
  tsinfo := 1700000000
  umodes := {.invisible}
  username := Buf.strlcpy "~alice".toList
  host := Buf.strlcpy "localhost".toList
  realhost := Buf.strlcpy "localhost".toList
  sockhost := Buf.strlcpy ip
  servicestamp := 0
  info := Buf.strlcpy "Alice".toList
  vlinkNome := none
  servptr := ⟨Buf.strlcpy "a.unirc.net".toList, Buf.strlcpy "0AA".toList⟩
  myClient := true
  ipSpoof := false
  hiddenAdmin := false

/-- A server that knows all servers and no client. -/
def emptyPeer : UidPeer := ⟨fun _ => none, fun _ => false, fun _ => true, []⟩

theorem roundTrips_connectedFrom :
    RoundTrips emptyPeer "a.unirc.net".toList (connectedFrom "192.0.2.1".toList) ↔
      UidSafe "a.unirc.net".toList (connectedFrom "192.0.2.1".toList) :=
  roundTrips_iff (by decide) rfl rfl (by decide) ⟨by decide, by decide, by decide⟩ rfl rfl rfl

/-- The introduction of a client at `::1` makes the peer drop the link. -/
theorem not_roundTrips : ¬ ∀ u : NetClient, u.id.val ≠ [] → u.ipSpoof = false →
    u.hiddenAdmin = false → u.servptr = (connectedFrom []).servptr →
    RoundTrips emptyPeer "a.unirc.net".toList u := by
  intro h
  obtain ⟨-, v, hv, -⟩ := h (connectedFrom "::1".toList) (by decide) rfl rfl rfl
  have hdropped : emptyPeer.msUid (connectedFrom []).servptr
      (splitLine ((connectedFrom "::1".toList).sendnickTS "a.unirc.net".toList true)).2 =
        .linkDropped := by decide +kernel
  exact UidOutcome.noConfusion (hdropped.symm.trans hv)

end RoundTrip


end NetClient

end Unirc
