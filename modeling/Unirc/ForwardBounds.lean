import Unirc.ForwardJoin

/-!
# Forwarded joins are bounded

Every nested call comes after a join, and the number of channels of a user is limited, so
the calls end when no forward leaves all channels again. The array holds only while the
forwards find the NULL behind the keys.
-/

namespace Unirc

section Keys

theorem cutAt_snd_cons {c : Char} (hc : c ≠ ',') (s : Str) :
    (cutAt ',' (c :: s)).map Prod.snd = (cutAt ',' s).map Prod.snd := by
  have hp : decide (c ≠ ',') = true := decide_eq_true hc
  unfold cutAt
  rw [List.dropWhile_cons_of_pos (p := fun x => decide (x ≠ ',')) hp]
  cases s.dropWhile (· ≠ ',') <;> rfl

/-- A list of keys, as the first of them and the others. -/
theorem splitOn_cutAt (s : Str) : s.splitOn ',' =
    s.takeWhile (· ≠ ',') :: ((cutAt ',' s).map Prod.snd).elim [] fun rest => rest.splitOn ',' := by
  induction s with
  | nil => rfl
  | cons c s ih =>
      rw [List.splitOn_eq_splitOnP, List.splitOnP_cons_eq_if_modifyHead, ← List.splitOn_eq_splitOnP]
      by_cases hc : c = ','
      · subst hc
        rfl
      · have hp : decide (c ≠ ',') = true := decide_eq_true hc
        rw [if_neg (by simpa using hc), ih, cutAt_snd_cons hc,
          List.takeWhile_cons_of_pos (p := fun x => decide (x ≠ ',')) hp, List.modifyHead_cons]

theorem keyAt_of_empty {keys : Option Str} (h : keys.getD [] = []) (i : ℕ) :
    keyAt keys i = none := by
  unfold keyAt
  rw [h]
  cases i <;> rfl

theorem takeKey_empty {keys : Option Str} (h : keys.getD [] = []) :
    (takeKey keys).1 = none ∧ (takeKey keys).2.getD [] = [] := by
  cases keys with
  | none => exact ⟨rfl, rfl⟩
  | some s =>
      obtain rfl : s = [] := h
      exact ⟨rfl, rfl⟩

/-- Each step over a key leaves the later ones in their places. -/
theorem keyAt_takeKey (keys : Option Str) :
    (takeKey keys).1 = keyAt keys 0 ∧ ∀ i, keyAt (takeKey keys).2 i = keyAt keys (i + 1) := by
  by_cases h : keys.getD [] = []
  · obtain ⟨hkey, hrest⟩ := takeKey_empty h
    exact ⟨hkey.trans (keyAt_of_empty h 0).symm,
      fun i => (keyAt_of_empty hrest i).trans (keyAt_of_empty h (i + 1)).symm⟩
  · cases keys with
    | none => exact absurd rfl h
    | some s =>
        cases s with
        | nil => exact absurd rfl h
        | cons k ks =>
            refine ⟨?_, fun i => ?_⟩
            · unfold keyAt
              rw [Option.getD_some, splitOn_cutAt, List.getElem?_cons_zero, takeKey]
              dsimp only
              by_cases hk : (k :: ks).takeWhile (· ≠ ',') = []
              · rw [if_pos hk, hk]
                rfl
              · rw [if_neg hk, Option.filter_some, if_pos (by simpa using hk)]
            · unfold keyAt
              rw [Option.getD_some (a := k :: ks), splitOn_cutAt (k :: ks), List.getElem?_cons_succ,
                takeKey]
              cases (cutAt ',' (k :: ks)).map Prod.snd with
              | none => cases i <;> rfl
              | some rest => rfl

end Keys

/-- The keys of a call, from the `i`-th channel on: none, or those of the user. -/
def KeysGiven (keys : Option Str) (d i : ℕ) (keyList : Option Str) : Prop :=
  keyList.getD [] = [] ∨ (d = 0 ∧ ∀ j, keyAt keyList j = keyAt keys (i + j))

theorem KeysGiven.allowed {parc d i : ℕ} {keys keyList : Option Str}
    (h : KeysGiven keys d i keyList) :
    (ParamRead.key d i (takeKey keyList).1).Allowed parc keys := by
  rcases h with hempty | ⟨hd, hkeys⟩
  · exact Or.inl (takeKey_empty hempty).1
  · exact Or.inr ⟨hd, (keyAt_takeKey keyList).1.trans (hkeys 0)⟩

theorem KeysGiven.next {d i : ℕ} {keys keyList : Option Str} (h : KeysGiven keys d i keyList) :
    KeysGiven keys d (i + 1) (takeKey keyList).2 := by
  rcases h with hempty | ⟨hd, hkeys⟩
  · exact Or.inl (takeKey_empty hempty).2
  · refine Or.inr ⟨hd, fun j => ?_⟩
    rw [(keyAt_takeKey keyList).2, hkeys, Nat.add_right_comm]
    rfl

variable {cfg : Config} {now : ℤ} {splitmode : Bool} {a : ℕ} {junk : Option Str}

/-- What was read between two states is allowed. -/
def ReadsAllowed (parc : ℕ) (keys : Option Str) (st st' : JoinState) : Prop :=
  ∃ l, st'.log = st.log ++ l ∧ ∀ x ∈ l, ParamRead.Allowed parc keys x

section Allowed

variable {parc : ℕ} {keys : Option Str} {st st' st'' : JoinState}

theorem ReadsAllowed.ofEq (h : st'.log = st.log) : ReadsAllowed parc keys st st' :=
  ⟨[], by rw [h, List.append_nil], fun _ hx => by cases hx⟩

theorem ReadsAllowed.trans (h : ReadsAllowed parc keys st st')
    (h' : ReadsAllowed parc keys st' st'') : ReadsAllowed parc keys st st'' := by
  obtain ⟨l, hl, hall⟩ := h
  obtain ⟨l', hl', hall'⟩ := h'
  refine ⟨l ++ l', by rw [hl', hl, List.append_assoc], fun x hx => ?_⟩
  exact (List.mem_append.mp hx).elim (hall x) (hall' x)

theorem ReadsAllowed.note {x : ParamRead} (hx : x.Allowed parc keys) :
    ReadsAllowed parc keys st (st.note x) := by
  refine ⟨[x], rfl, fun y hy => ?_⟩
  rw [List.mem_singleton.mp hy]
  exact hx

theorem log_release (d : ℕ) (junk : Option Str) : (st.release d junk).log = st.log := by
  unfold JoinState.release
  split <;> rfl

theorem server_release (d : ℕ) (junk : Option Str) : (st.release d junk).server = st.server := by
  unfold JoinState.release
  split <;> rfl

end Allowed

/-- A loop whose forwards are as in the join with given keys, and keep an invariant of the
array. -/
theorem enterLoop_of_given {forward : JoinState → Option JoinState}
    {forward' : Str → Server → Option Server} {I : (ℕ → Param) → Prop} {parc d : ℕ}
    {keys : Option Str}
    (hforward : ∀ (st : JoinState) name text s', I st.para → forward' text st.server = some s' →
      ∃ st', forward (st.pass d name text) = some st' ∧ st'.server = s' ∧
        I (st'.release d junk).para ∧ ReadsAllowed parc keys (st.pass d name text) st')
    (chans : List Str) {i : ℕ} {keyList : Option Str} (hkeys : KeysGiven keys d i keyList)
    {st : JoinState} (hI : I st.para) {s' : Server}
    (h : givenLoop cfg now splitmode a forward' chans keyList st.server = some s') :
    ∃ st', enterLoop cfg now splitmode a junk forward d i chans keyList st = some st' ∧
      st'.server = s' ∧ I st'.para ∧ ReadsAllowed parc keys st st' := by
  induction chans generalizing i keyList st with
  | nil => exact ⟨st, rfl, Option.some.inj h, hI, ReadsAllowed.ofEq rfl⟩
  | cons chan chans ih =>
      rw [givenLoop] at h
      rw [enterLoop]
      have hread : ReadsAllowed parc keys st (st.note (.key d i (takeKey keyList).1)) :=
        ReadsAllowed.note hkeys.allowed
      split at h
      · exact ⟨st, rfl, Option.some.inj h, hI, ReadsAllowed.ofEq rfl⟩
      · rename_i source hsource
        dsimp only [JoinState.note]
        split at h
        · rename_i s heq
          exact ⟨_, rfl, Option.some.inj h, hI, hread⟩
        · rename_i s heq
          obtain ⟨st', hrun, hserver, hI', hreads⟩ := @ih _ _ hkeys.next
            { st.note (.key d i (takeKey keyList).1) with server := s } hI h
          exact ⟨st', hrun, hserver, hI', hread.trans hreads⟩
        · rename_i s text heq
          split at h
          · rename_i htext
            rw [if_pos htext]
            obtain ⟨st', hrun, hserver, hI', hreads⟩ := @ih _ _ hkeys.next
              { st.note (.key d i (takeKey keyList).1) with server := s } hI h
            exact ⟨st', hrun, hserver, hI', hread.trans hreads⟩
          · rename_i htext
            rw [if_neg htext]
            obtain ⟨s₁, hs₁, hrest⟩ := Option.bind_eq_some_iff.mp h
            obtain ⟨st₁, hrun₁, hserver₁, hI₁, hreads₁⟩ := hforward
              { st.note (.key d i (takeKey keyList).1) with server := s } source.name.val text s₁
              hI hs₁
            obtain ⟨st', hrun, hserver, hI', hreads⟩ := @ih _ _ hkeys.next (st₁.release d junk) hI₁
              (by rw [server_release, hserver₁]; exact hrest)
            refine ⟨st', Option.bind_eq_some_iff.mpr ⟨st₁, hrun₁, hrun⟩, hserver, hI', ?_⟩
            exact hread.trans (hreads₁.trans ((ReadsAllowed.ofEq (log_release d junk)).trans hreads))

/-- The channels that a call is for. -/
def JoinState.chans (st : JoinState) (d : ℕ) : Str := (st.para (d + 1)).text.getD []

/-- A call that goes on to the loop. -/
def JoinState.opened (st : JoinState) (a d : ℕ) : JoinState :=
  let st' : JoinState :=
    { (st.note (.chans (d + 1) (st.para (d + 1)).origin)).note
        (.keys (d + 2) (st.para (d + 2)).origin) with
      server := st.server.afterZero a (st.chans d) }
  if listTokens (st.chans d) = [] then st' else st'.cutKeys d

theorem enterList_of_refused {st : JoinState} {d : ℕ} (depth : ℕ)
    (h : st.server.listRefused a (st.chans d) = true) :
    enterList cfg now splitmode a junk (depth + 1) d st =
      some (st.note (.chans (d + 1) (st.para (d + 1)).origin)) := if_pos h

theorem enterList_of_accepted {st : JoinState} {d : ℕ} (depth : ℕ)
    (h : st.server.listRefused a (st.chans d) = false) :
    enterList cfg now splitmode a junk (depth + 1) d st =
      enterLoop cfg now splitmode a junk (enterList cfg now splitmode a junk depth (d + 1)) d 0
        (listTokens (st.chans d)) (st.para (d + 2)).text (st.opened a d) :=
  if_neg (Bool.eq_false_iff.mp h)

theorem opened_spec (st : JoinState) (a d : ℕ) :
    (st.opened a d).server = st.server.afterZero a (st.chans d) ∧
    (st.opened a d).log = st.log ++ [.chans (d + 1) (st.para (d + 1)).origin] ++
      [.keys (d + 2) (st.para (d + 2)).origin] ∧
    ((st.opened a d).para = st.para ∨ (st.opened a d).para = (st.cutKeys d).para) := by
  unfold JoinState.opened
  dsimp only
  split
  · exact ⟨rfl, rfl, Or.inl rfl⟩
  · exact ⟨rfl, rfl, Or.inr rfl⟩

/-- A call whose forwards are as in the join with given keys. -/
theorem enterList_of_given (junk : Option Str) (I : (ℕ → Param) → Prop) (depth depth' d : ℕ)
    {parc : ℕ} {keys : Option Str} {st : JoinState} (hlist : (st.para (d + 1)).origin = .message ∨
      (st.para (d + 1)).origin = .copy)
    (hparam : (st.para (d + 2)).origin = .message) (hparc : d + 2 ≤ parc) (hmax : parc ≤ MAXPARA)
    (hkeys : KeysGiven keys d 0 (st.para (d + 2)).text) (hI : I (st.cutKeys d).para)
    (hI' : I st.para)
    (hforward : ∀ (st : JoinState) name text s', I st.para →
      givenJoin cfg now splitmode a depth' text none st.server = some s' →
      ∃ st', enterList cfg now splitmode a junk depth (d + 1) (st.pass d name text) = some st' ∧
        st'.server = s' ∧ I (st'.release d junk).para ∧
        ReadsAllowed parc keys (st.pass d name text) st')
    {s' : Server} (h : givenJoin cfg now splitmode a (depth' + 1) (st.chans d)
      (st.para (d + 2)).text st.server = some s') :
    ∃ st', enterList cfg now splitmode a junk (depth + 1) d st = some st' ∧ st'.server = s' ∧
      I st'.para ∧ ReadsAllowed parc keys st st' := by
  have hchans : ReadsAllowed parc keys st (st.note (.chans (d + 1) (st.para (d + 1)).origin)) :=
    ReadsAllowed.note ⟨by omega, by omega, hlist⟩
  rw [givenJoin] at h
  cases href : st.server.listRefused a (st.chans d) with
  | true =>
      rw [href, if_pos rfl] at h
      exact ⟨_, enterList_of_refused depth href, Option.some.inj h, hI', hchans⟩
  | false =>
      rw [href, if_neg Bool.false_ne_true] at h
      obtain ⟨hserver, hlog, hpara⟩ := opened_spec st a d
      have hread : ReadsAllowed parc keys st (st.opened a d) := by
        have hnotes := hchans.trans (ReadsAllowed.note
          (x := .keys (d + 2) (st.para (d + 2)).origin) ⟨hparc, by omega, hparam⟩)
        exact hnotes.trans (ReadsAllowed.ofEq hlog)
      have hopened : I (st.opened a d).para := by
        rcases hpara with hpara | hpara
        · rwa [hpara]
        · rwa [hpara]
      rw [← hserver] at h
      obtain ⟨st', hrun, hserver', hI₁, hreads⟩ :=
        enterLoop_of_given hforward (listTokens (st.chans d)) hkeys hopened h
      exact ⟨st', (enterList_of_accepted depth href).trans hrun, hserver', hI₁,
        hread.trans hreads⟩

section Arrays

variable {st : JoinState} {params : List Str} {old : ℕ → Option Str} {name text : Str}

theorem para_write_of_ne {i j : ℕ} (h : j ≠ i) (p : Param) : (st.write i p).para j = st.para j := by
  unfold JoinState.write
  exact Function.update_of_ne h p st.para

theorem para_pass_self (st : JoinState) (d : ℕ) (name text : Str) :
    (st.pass d name text).para (d + 2) = ⟨.copy, some text⟩ := Function.update_self _ _ _

theorem para_pass_of_lt {d j : ℕ} (h : d + 2 < j) (name text : Str) :
    (st.pass d name text).para j = st.para j := by
  unfold JoinState.pass
  rw [para_write_of_ne (by omega), para_write_of_ne (by omega)]

theorem para_release_of_ne {d j : ℕ} (h : j ≠ d + 2) (junk : Option Str) :
    (st.release d junk).para j = st.para j := by
  unfold JoinState.release
  split
  · exact para_write_of_ne h _
  · rfl

theorem para_cutKeys_of_none {d : ℕ} (h : st.para (d + 2) = ⟨.message, none⟩) (j : ℕ) :
    (st.cutKeys d).para j = st.para j := by
  unfold JoinState.cutKeys
  rw [h]
  by_cases hj : j = d + 2
  · rw [hj, h]
    exact Function.update_self _ _ _
  · exact para_write_of_ne hj _

theorem para_joinStart (s : Server) (params : List Str) (old : ℕ → Option Str) (name : Str)
    {i : ℕ} (h₀ : 0 < i) (h : i ≤ params.length + 1) :
    (joinStart s params old name).para i = ⟨.message, params[i - 1]?⟩ :=
  paraArray_message h₀ h

end Arrays

theorem keysGiven_start (keys : Option Str) : KeysGiven keys 0 0 keys := by
  refine Or.inr ⟨rfl, fun j => ?_⟩
  rw [Nat.zero_add]

/-- A join whose calls are nested as deep as the parameters allow reads what it may. -/
theorem bounded_of_given {s s' : Server} {params : List Str} (old : ℕ → Option Str) (name : Str)
    (hlen : params.length < MAXPARA) (h : givenJoin cfg now splitmode a (nesting params)
      (params[0]?.getD []) params[1]? s = some s') :
    ∃ st, enterList cfg now splitmode a junk (nesting params) 0 (joinStart s params old name) =
      some st ∧ st.server = s' ∧ ∀ x ∈ st.log, x.Allowed (params.length + 1) params[1]? := by
  have hreads : ∀ st, ReadsAllowed (params.length + 1) params[1]?
      (joinStart s params old name) st → ∀ x ∈ st.log, x.Allowed (params.length + 1) params[1]? := by
    rintro st ⟨l, hl, hall⟩ x hx
    rw [hl] at hx
    exact hall x hx
  have hone := para_joinStart s params old name
    Nat.one_pos (by omega)
  by_cases hnil : params = []
  · subst hnil
    have hchans : (joinStart s [] old name).chans 0 = [] := by
      unfold JoinState.chans
      rw [hone]
      rfl
    have href : (joinStart s [] old name).server.listRefused a
        ((joinStart s [] old name).chans 0) = true := by
      rw [hchans]
      unfold Server.listRefused
      cases (joinStart s [] old name).server.client? a with
      | none => rfl
      | some source => simp
    refine ⟨_, enterList_of_refused 0 href, ?_, hreads _ (ReadsAllowed.note ?_)⟩
    · rw [nesting, if_neg (by decide), givenJoin, if_pos (hchans ▸ href)] at h
      exact Option.some.inj h
    · rw [hone]
      exact ⟨Nat.le_refl _, by omega, Or.inl rfl⟩
  · have hpos : 0 < params.length := List.length_pos_iff.mpr hnil
    have htwo := para_joinStart s params old name
      Nat.two_pos (by omega)
    have hchans : (joinStart s params old name).chans 0 = params[0]?.getD [] := by
      unfold JoinState.chans
      rw [hone]
    have htext : ((joinStart s params old name).para 2).text = params[1]? := by rw [htwo]
    have horigin : ((joinStart s params old name).para 1).origin = .message := by rw [hone]
    have hkeys : KeysGiven params[1]? 0 0 ((joinStart s params old name).para 2).text := by
      rw [htext]
      exact keysGiven_start _
    rw [← hchans, ← htext] at h
    by_cases hlast : params.length = 2
    · -- The first forward channels find the NULL behind the keys, and have no forward.
      have hthree := para_joinStart s params old name
        (show 0 < 3 by decide) (by omega)
      rw [List.getElem?_eq_none (by omega)] at hthree
      rw [nesting, if_pos hlast] at h ⊢
      have hforward : ∀ (st : JoinState) (name text : Str) (s' : Server),
          st.para 3 = ⟨.message, none⟩ →
          givenJoin cfg now splitmode a 1 text none st.server = some s' →
          ∃ st', enterList cfg now splitmode a junk 1 1 (st.pass 0 name text) = some st' ∧
            st'.server = s' ∧ (st'.release 0 junk).para 3 = ⟨.message, none⟩ ∧
            ReadsAllowed (params.length + 1) params[1]? (st.pass 0 name text) st' := by
        intro st name text s' hthree' hgiven
        have hlist := para_pass_self st 0 name text
        have hthree₁ : (st.pass 0 name text).para 3 = ⟨.message, none⟩ :=
          (para_pass_of_lt (by decide) name text).trans hthree'
        have hchans₁ : (st.pass 0 name text).chans 1 = text := by
          unfold JoinState.chans
          rw [hlist]
          rfl
        have hgiven₁ : givenJoin cfg now splitmode a (0 + 1) ((st.pass 0 name text).chans 1)
            ((st.pass 0 name text).para 3).text (st.pass 0 name text).server = some s' := by
          rw [hchans₁, hthree₁]
          exact hgiven
        obtain ⟨st', hrun, hserver, hI, hread⟩ := enterList_of_given junk
          (fun p => p 3 = ⟨.message, none⟩) 0 0 1 (Or.inr (by rw [hlist]))
          (by rw [hthree₁]) (show 1 + 2 ≤ params.length + 1 by omega) (by omega)
          (Or.inl (by rw [hthree₁]; rfl)) ((para_cutKeys_of_none hthree₁ 3).trans hthree₁) hthree₁
          (fun _ _ _ _ _ h => by cases h) hgiven₁
        exact ⟨st', hrun, hserver, (para_release_of_ne (by decide) junk).trans hI, hread⟩
      obtain ⟨st, hrun, hserver, -, hread⟩ := enterList_of_given junk
        (fun p => p 3 = ⟨.message, none⟩) 1 1 0 (Or.inl horigin)
        (by rw [htwo]) (show 0 + 2 ≤ params.length + 1 by omega) (by omega) hkeys
        ((para_write_of_ne (by decide) _).trans hthree) hthree hforward h
      exact ⟨st, hrun, hserver, hreads st hread⟩
    · rw [nesting, if_neg hlast] at h ⊢
      obtain ⟨st, hrun, hserver, -, hread⟩ := enterList_of_given junk (fun _ => True) 0 0 0
        (Or.inl horigin) (by rw [htwo]) (show 0 + 2 ≤ params.length + 1 by omega) (by omega)
        hkeys trivial trivial (fun _ _ _ _ _ h => by cases h) h
      exact ⟨st, hrun, hserver, hreads st hread⟩

section Runs

variable {forward forward₂ : JoinState → Option JoinState} {st st' : JoinState} {d : ℕ}

theorem log_enterLoop (hforward : ∀ st st', forward st = some st' → st.log <+: st'.log)
    (chans : List Str) {i : ℕ} {keyList : Option Str}
    (h : enterLoop cfg now splitmode a junk forward d i chans keyList st = some st') :
    st.log <+: st'.log := by
  induction chans generalizing i keyList st with
  | nil =>
      rw [← Option.some.inj h]
  | cons chan chans ih =>
      have hnote : st.log <+: (st.note (.key d i (takeKey keyList).1)).log :=
        List.prefix_append _ _
      rw [enterLoop] at h
      split at h
      · rw [← Option.some.inj h]
      · dsimp only at h
        split at h
        · rw [← Option.some.inj h]
          exact hnote
        · have hrest := ih h
          exact hnote.trans hrest
        · split at h
          · have hrest := ih h
            exact hnote.trans hrest
          · obtain ⟨st₁, h₁, hrest⟩ := Option.bind_eq_some_iff.mp h
            have hrest' := ih hrest
            rw [log_release] at hrest'
            exact hnote.trans ((hforward _ _ h₁).trans hrest')

theorem log_enterList {depth : ℕ}
    (h : enterList cfg now splitmode a junk depth d st = some st') : st.log <+: st'.log := by
  induction depth generalizing d st st' with
  | zero => cases h
  | succ depth ih =>
      cases href : st.server.listRefused a (st.chans d) with
      | true =>
          rw [enterList_of_refused depth href] at h
          rw [← Option.some.inj h]
          exact List.prefix_append _ _
      | false =>
          rw [enterList_of_accepted depth href] at h
          have hlog := (opened_spec st a d).2.1
          rw [List.append_assoc] at hlog
          refine List.IsPrefix.trans ?_ (log_enterLoop (fun _ _ => ih) _ h)
          rw [hlog]
          exact List.prefix_append _ _

/-- A call that goes on to the loop has read its keys. -/
theorem keys_mem_log {depth : ℕ} (href : st.server.listRefused a (st.chans d) = false)
    (h : enterList cfg now splitmode a junk depth d st = some st') :
    ParamRead.keys (d + 2) (st.para (d + 2)).origin ∈ st'.log := by
  cases depth with
  | zero => cases h
  | succ depth =>
      rw [enterList_of_accepted depth href] at h
      refine (log_enterLoop (fun _ _ => log_enterList) _ h).subset ?_
      rw [(opened_spec st a d).2.1]
      exact List.mem_append_right _ List.mem_cons_self

end Runs

/-- The client is there, and no list is refused to it for its nick. -/
def Server.Plain (s : Server) (a : ℕ) : Prop := (s.client? a).any (fun k => !k.gringo) = true

section Plain

variable {s : Server}

theorem gringo_joinFound (cfg : Config) (s : Server) (now : ℤ) (a : ℕ) (source : Client) (c : ℕ)
    (ch : Channel) (flags : MemberFlags) (key : Option Str) :
    ((s.joinFound cfg now a source c ch flags key).1.client? a).map Client.gringo =
      (s.client? a).map Client.gringo := by
  unfold Server.joinFound
  split
  · rfl
  · extract_lets s₁ s₂
    have hs₂ : s₂.client? a = s.client? a := by
      dsimp only [s₂]
      split
      · exact Server.client?_addUserToChannel s c a flags a
      · exact Server.client?_addUserToChannel s c a flags a
    rw [Server.client?_updClient, if_pos rfl, Option.map_map, hs₂]
    rfl

/-- Where `m_join` lets a client into a channel, found or made. -/
structure JoinTarget (cfg : Config) (s s₁ : Server) (now : ℤ) (a : ℕ) (source : Client)
    (chan : Str) (c : ℕ) (ch : Channel) : Prop where
  room : ¬ (cfg.maxChansPerUser ≤ (s.memberships a).length ∧
    (source.oper = false ∨ cfg.maxChansPerUser * 3 ≤ (s.memberships a).length))
  channel : s₁.channel? c = some ch
  from_ : s₁ = s ∨ s₁ = (s.makeChannel now chan).1 ∧ c = (s.makeChannel now chan).2

theorem joinChannel_cases (cfg : Config) (s : Server) (now : ℤ) (splitmode : Bool) (a : ℕ)
    (source : Client) (chan : Str) (key : Option Str) :
    (s.joinChannel cfg now splitmode a source chan key = (s, .next) ∨
      s.joinChannel cfg now splitmode a source chan key = (s, .stop)) ∨
    ∃ s₁ c ch flags, JoinTarget cfg s s₁ now a source chan c ch ∧
      s.joinChannel cfg now splitmode a source chan key =
        s₁.joinFound cfg now a source c ch flags key := by
  unfold Server.joinChannel
  extract_lets split s' c
  iterate 3
    split
    · exact Or.inl (Or.inl rfl)
  split
  · exact Or.inl (Or.inr rfl)
  · rename_i hroom
    split
    · rename_i d hd
      split
      · exact Or.inl (Or.inl rfl)
      · split
        · exact Or.inl (Or.inl rfl)
        · split
          · rename_i ch hch
            exact Or.inr ⟨s, d, ch, _, ⟨hroom, hch, Or.inl rfl⟩, rfl⟩
          · exact Or.inl (Or.inl rfl)
    · split
      · exact Or.inl (Or.inl rfl)
      · split
        · rename_i ch hch
          exact Or.inr ⟨s', c, ch, _, ⟨hroom, hch, Or.inr ⟨rfl, rfl⟩⟩, rfl⟩
        · exact Or.inl (Or.inl rfl)

theorem gringo_joinChannel (cfg : Config) (s : Server) (now : ℤ) (splitmode : Bool) (a : ℕ)
    (source : Client) (chan : Str) (key : Option Str) :
    ((s.joinChannel cfg now splitmode a source chan key).1.client? a).map Client.gringo =
      (s.client? a).map Client.gringo := by
  rcases joinChannel_cases cfg s now splitmode a source chan key with
    (heq | heq) | ⟨s₁, c, ch, flags, htarget, heq⟩
  · rw [heq]
  · rw [heq]
  · rw [heq, gringo_joinFound]
    rcases htarget.from_ with rfl | ⟨rfl, -⟩
    · rfl
    · rfl

theorem Server.Plain.of_gringo {s' : Server} (hs : s.Plain a)
    (h : (s'.client? a).map Client.gringo = (s.client? a).map Client.gringo) : s'.Plain a := by
  have hany : ∀ o : Option Client, o.any (fun k => !k.gringo) =
      (o.map Client.gringo).any (fun b => !b) := fun o => by cases o <;> rfl
  unfold Server.Plain at hs ⊢
  rw [hany] at hs ⊢
  rw [h]
  exact hs

theorem Server.Plain.not_refused (hs : s.Plain a) {chans : Str} (h : chans ≠ []) :
    s.listRefused a chans = false := by
  unfold Server.Plain at hs
  unfold Server.listRefused
  cases hclient : s.client? a with
  | none =>
      rw [hclient] at hs
      cases hs
  | some source =>
      rw [hclient] at hs
      have hgringo : source.gringo = false := by simpa using hs
      simp [h, hgringo]

theorem Server.Plain.afterZero (hs : s.Plain a) (chans : Str) : (s.afterZero a chans).Plain a := by
  unfold Server.afterZero
  split
  · exact hs.of_gringo (by rw [Server.client?_doJoin0])
  · exact hs

end Plain

/-- A loop that reads what it may, whose forwards are as in the join with given keys. -/
theorem given_of_enterLoop {forward : JoinState → Option JoinState}
    {forward' : Str → Server → Option Server} {I : (ℕ → Param) → Prop} {parc d : ℕ}
    {keys : Option Str}
    (hforward : ∀ (st : JoinState) name text st', I st.para → st.server.Plain a → text ≠ [] →
      forward (st.pass d name text) = some st' → (∀ x ∈ st'.log, x.Allowed parc keys) →
      forward' text st.server = some st'.server ∧ I (st'.release d junk).para ∧ st'.server.Plain a)
    (hlog : ∀ st st', forward st = some st' → st.log <+: st'.log)
    (chans : List Str) {i : ℕ} {keyList : Option Str} {st st' : JoinState} (hI : I st.para)
    (hplain : st.server.Plain a)
    (h : enterLoop cfg now splitmode a junk forward d i chans keyList st = some st')
    (hall : ∀ x ∈ st'.log, x.Allowed parc keys) :
    givenLoop cfg now splitmode a forward' chans keyList st.server = some st'.server ∧
      I st'.para ∧ st'.server.Plain a := by
  induction chans generalizing i keyList st with
  | nil =>
      obtain rfl := Option.some.inj h
      exact ⟨rfl, hI, hplain⟩
  | cons chan chans ih =>
      rw [enterLoop] at h
      rw [givenLoop]
      split at h
      · obtain rfl := Option.some.inj h
        exact ⟨rfl, hI, hplain⟩
      · rename_i source hsource
        have hkept := gringo_joinChannel cfg st.server now splitmode a source chan
          (takeKey keyList).1
        dsimp only [JoinState.note] at h ⊢
        split at h
        · rename_i s heq
          rw [heq] at hkept
          obtain rfl := Option.some.inj h
          exact ⟨rfl, hI, hplain.of_gringo hkept⟩
        · rename_i s heq
          rw [heq] at hkept
          have hrest := ih (by exact hI) (by exact hplain.of_gringo hkept) h
          exact hrest
        · rename_i s text heq
          rw [heq] at hkept
          split at h
          · rename_i htext
            rw [if_pos htext]
            have hrest := ih (by exact hI) (by exact hplain.of_gringo hkept) h
            exact hrest
          · rename_i htext
            rw [if_neg htext]
            obtain ⟨st₁, h₁, hrest⟩ := Option.bind_eq_some_iff.mp h
            have hprefix := log_enterLoop hlog chans hrest
            rw [log_release] at hprefix
            obtain ⟨hgiven, hI₁, hplain₁⟩ := hforward _ _ _ _ (by exact hI)
              (by exact hplain.of_gringo hkept) htext h₁ fun x hx => hall x (List.IsPrefix.subset hprefix hx)
            obtain ⟨hloop, hI', hplain'⟩ := ih hI₁ (by rw [server_release]; exact hplain₁) hrest
            rw [server_release] at hloop
            exact ⟨Option.bind_eq_some_iff.mpr ⟨_, hgiven, hloop⟩, hI', hplain'⟩

/-- A call that reads what it may, whose forwards are as in the join with given keys. -/
theorem given_of_enterList (I : (ℕ → Param) → Prop) (depth depth' d : ℕ) {parc : ℕ}
    {keys : Option Str} {st st' : JoinState} (hI : I st.para) (hcut : I (st.cutKeys d).para)
    (hplain : st.server.Plain a)
    (hforward : ∀ (st : JoinState) name text st', I st.para → st.server.Plain a → text ≠ [] →
      enterList cfg now splitmode a junk depth (d + 1) (st.pass d name text) = some st' →
      (∀ x ∈ st'.log, x.Allowed parc keys) →
      givenJoin cfg now splitmode a depth' text none st.server = some st'.server ∧
        I (st'.release d junk).para ∧ st'.server.Plain a)
    (h : enterList cfg now splitmode a junk (depth + 1) d st = some st')
    (hall : ∀ x ∈ st'.log, x.Allowed parc keys) :
    givenJoin cfg now splitmode a (depth' + 1) (st.chans d) (st.para (d + 2)).text st.server =
      some st'.server ∧ I st'.para ∧ st'.server.Plain a := by
  rw [givenJoin]
  cases href : st.server.listRefused a (st.chans d) with
  | true =>
      rw [enterList_of_refused depth href] at h
      obtain rfl := Option.some.inj h
      exact ⟨if_pos rfl, hI, hplain⟩
  | false =>
      rw [enterList_of_accepted depth href] at h
      rw [if_neg Bool.false_ne_true]
      obtain ⟨hserver, -, hpara⟩ := opened_spec st a d
      have hopened : I (st.opened a d).para := by
        rcases hpara with hpara | hpara
        · rwa [hpara]
        · rwa [hpara]
      rw [← hserver]
      exact given_of_enterLoop hforward (fun _ _ => log_enterList) _ hopened
        (hserver ▸ hplain.afterZero _) h hall

theorem chans_pass (st : JoinState) (d : ℕ) (name text : Str) :
    (st.pass d name text).chans (d + 1) = text := by
  unfold JoinState.chans
  rw [para_pass_self]
  rfl

/-- A call too deep for the parameters reads behind their end. -/
theorem not_allowed_pass {depth d parc : ℕ} {keys : Option Str} {st st' : JoinState}
    {name text : Str} (hplain : st.server.Plain a) (htext : text ≠ []) (hdeep : parc < d + 3)
    (h : enterList cfg now splitmode a junk depth (d + 1) (st.pass d name text) = some st') :
    ¬ ∀ x ∈ st'.log, x.Allowed parc keys := by
  intro hall
  have href : (st.pass d name text).server.listRefused a ((st.pass d name text).chans (d + 1)) =
      false := by
    rw [chans_pass]
    exact hplain.not_refused htext
  have hkeys := hall _ (keys_mem_log href h)
  exact absurd hkeys.1 (not_le.mpr hdeep)

/-- With at most one parameter of keys, a join that reads what it may nests no deeper than
its parameters allow. -/
theorem given_of_bounded {s : Server} {params : List Str} (old : ℕ → Option Str) (name : Str)
    (hlen : params.length ≤ 2) (hplain : s.Plain a) {depth : ℕ} {st : JoinState}
    (h : enterList cfg now splitmode a junk depth 0 (joinStart s params old name) = some st)
    (hall : ∀ x ∈ st.log, x.Allowed (params.length + 1) params[1]?) :
    (givenJoin cfg now splitmode a (nesting params) (params[0]?.getD []) params[1]? s).isSome := by
  have hone := para_joinStart s params old name
    Nat.one_pos (by omega)
  have hchans : (joinStart s params old name).chans 0 = params[0]?.getD [] := by
    unfold JoinState.chans
    rw [hone]
  obtain ⟨depth, rfl⟩ : ∃ k, depth = k + 1 := by
    cases depth with
    | zero => cases h
    | succ k => exact ⟨k, rfl⟩
  cases href : s.listRefused a (params[0]?.getD []) with
  | true =>
      have hrefused : ∀ k, givenJoin cfg now splitmode a (k + 1) (params[0]?.getD []) params[1]? s =
          some s := fun k => if_pos href
      unfold nesting
      split
      · rw [hrefused]
        rfl
      · rw [hrefused]
        rfl
  | false =>
      have hpos : 0 < params.length := by
        have hread := hall _ (keys_mem_log (hchans ▸ href) h)
        have hle := hread.1
        omega
      have htwo := para_joinStart s params old name
        Nat.two_pos (by omega)
      have htext : ((joinStart s params old name).para 2).text = params[1]? := by rw [htwo]
      rw [← hchans, ← htext]
      by_cases hlast : params.length = 2
      · have hthree := para_joinStart s params old name
          (show 0 < 3 by decide) (by omega)
        rw [List.getElem?_eq_none (by omega)] at hthree
        rw [nesting, if_pos hlast]
        have hgiven := given_of_enterList (fun p => p 3 = ⟨.message, none⟩) depth 1 0 hthree
          ((para_write_of_ne (by decide) _).trans hthree) hplain ?_ h hall
        · exact Option.isSome_of_eq_some hgiven.1
        · intro st name text st' hthree' hplain' htext' hrun hall'
          have hthree₁ : (st.pass 0 name text).para 3 = ⟨.message, none⟩ :=
            (para_pass_of_lt (by decide) name text).trans hthree'
          have hchans₁ := chans_pass st 0 name text
          cases depth with
          | zero => cases hrun
          | succ depth =>
              obtain ⟨hgiven, hI, hplain₁⟩ := given_of_enterList (fun p => p 3 = ⟨.message, none⟩)
                depth 0 1 hthree₁ ((para_cutKeys_of_none hthree₁ 3).trans hthree₁) hplain'
                (fun st name text st' _ hplain htext hrun hall =>
                  absurd hall (not_allowed_pass hplain htext (by omega) hrun)) hrun hall'
              rw [hchans₁, hthree₁] at hgiven
              exact ⟨hgiven, (para_release_of_ne (by decide) junk).trans hI, hplain₁⟩
      · rw [nesting, if_neg hlast]
        have hgiven := given_of_enterList (fun _ => True) depth 0 0 trivial trivial hplain
          (fun st name text st' _ hplain htext hrun hall =>
            absurd hall (not_allowed_pass hplain htext (by omega) hrun)) h hall
        exact Option.isSome_of_eq_some hgiven.1

namespace Server

/-- A channel of the table has the forward. -/
def HasForward (s : Server) (text : Str) : Prop :=
  ∃ c ch, s.channel? c = some ch ∧ ch.mode.forward.val = text

/-- No forward has the item `0`, with which JOIN leaves all channels. -/
def NoZero (s : Server) : Prop := ∀ text, s.HasForward text → last0 false text = none

variable {s s' : Server} {a c : ℕ}

theorem NoZero.mono (hs : s.NoZero)
    (h : ∀ text, s'.HasForward text → text = [] ∨ s.HasForward text) : s'.NoZero := by
  intro text htext
  rcases h text htext with rfl | htext
  · rfl
  · exact hs text htext

theorem channel?_removeUser {m d : ℕ} {ch : Channel}
    (h : (s.removeUserFromChannel m).channel? d = some ch) : s.channel? d = some ch := by
  unfold removeUserFromChannel at h
  split at h
  · exact h
  · rename_i r hr
    have hunlink : ({ s with graph := s.graph.unlink m } : Server).channel? d = s.channel? d := by
      unfold channel? LinkGraph.unlink
      rw [hr]
      exact LinkGraph.data_mapLinks s.graph.rights _ d (·.erase m)
    dsimp only at h
    split at h
    · rw [← hunlink]
      unfold destroyChannel channel? LinkGraph.setRight at h
      dsimp only at h
      rw [Function.update_apply] at h
      split at h
      · cases h
      · exact h
    · rw [← hunlink]
      exact h

theorem NoZero.doJoin0 (hs : s.NoZero) (a : ℕ) : (s.doJoin0 a).NoZero := by
  unfold Server.doJoin0
  generalize s.memberships a = l
  induction l generalizing s with
  | nil => exact hs
  | cons m l ih =>
      refine ih (hs.mono fun text h => ?_)
      obtain ⟨c, ch, hch, htext⟩ := h
      exact Or.inr ⟨c, ch, channel?_removeUser hch, htext⟩

theorem hasForward_makeChannel {now : ℤ} {name text : Str}
    (h : (s.makeChannel now name).1.HasForward text) : text = [] ∨ s.HasForward text := by
  obtain ⟨d, ch, hch, htext⟩ := h
  by_cases hd : d = s.nextChannel
  · subst hd
    have hnew := channel?_makeChannel s now name
    rw [show (s.makeChannel now name).2 = s.nextChannel from rfl, hch] at hnew
    rw [← htext, Option.some.inj hnew]
    exact Or.inl rfl
  · refine Or.inr ⟨d, ch, ?_, htext⟩
    unfold makeChannel channel? LinkGraph.setRight at hch
    dsimp only at hch
    rw [Function.update_of_ne hd] at hch
    exact hch

/-- What joining a channel does to the channels of the client and to the forwards. -/
structure JoinSpec (cfg : Config) (s : Server) (a : ℕ) (r : Server × JoinOutcome) : Prop where
  forwards : ∀ text, r.1.HasForward text → text = [] ∨ s.HasForward text
  client : (r.1.client? a).isSome = (s.client? a).isSome
  count : match r.2 with
    | .joined text => (text = [] ∨ s.HasForward text) ∧
        (r.1.memberships a).length = (s.memberships a).length + 1 ∧
        (s.memberships a).length < 3 * cfg.maxChansPerUser
    | _ => (r.1.memberships a).length = (s.memberships a).length

theorem memberships_addUser (ha : (s.client? a).isSome = true) (c : ℕ) (flags : MemberFlags) :
    ((s.addUserToChannel c a flags).memberships a).length = (s.memberships a).length + 1 := by
  rw [isSome_client?] at ha
  obtain ⟨l, hl⟩ := Option.isSome_iff_exists.mp ha
  unfold memberships addUserToChannel
  rw [LinkGraph.listed_link, if_pos (show a = Side.left.pick a c from rfl), hl]
  rfl

theorem memberships_relabel (h : Relabels s s') (a : ℕ) : s'.memberships a = s.memberships a := by
  rw [memberships, h.shape.listed, memberships]

theorem hasForward_updChannel {f : Channel → Channel} {text : Str}
    (h : (s.updChannel c f).HasForward text)
    (hf : ∀ ch, (f ch).mode.forward = ch.mode.forward) : s.HasForward text := by
  obtain ⟨d, ch, hch, htext⟩ := h
  rw [channel?_updChannel] at hch
  split at hch
  · obtain ⟨ch', hch', rfl⟩ := Option.map_eq_some_iff.mp hch
    exact ⟨d, ch', hch', by rw [← htext, hf]⟩
  · exact ⟨d, ch, hch, htext⟩

/-- The join of a channel that is there. -/
theorem joinFound_spec {cfg : Config} (now : ℤ) (source : Client) {ch : Channel}
    (hc : s.channel? c = some ch) (ha : (s.client? a).isSome = true)
    (hroom : (s.memberships a).length < 3 * cfg.maxChansPerUser) (flags : MemberFlags)
    (key : Option Str) : JoinSpec cfg s a (s.joinFound cfg now a source c ch flags key) := by
  unfold joinFound
  split
  · exact ⟨fun text h => Or.inr h, rfl, rfl⟩
  · extract_lets s₁ s₂
    have hs₂ : Relabels s₁ s₂ ∧ (∀ text, s₂.HasForward text → s₁.HasForward text) ∧
        s₂.client? a = s₁.client? a := by
      dsimp only [s₂]
      split
      · exact ⟨Relabels.updChannel s₁ c _, fun _ h => hasForward_updChannel h fun _ => rfl, rfl⟩
      · exact ⟨Relabels.refl s₁, fun _ h => h, rfl⟩
    have hs₃ : Relabels s₂ (s₂.updClient a fun k => { k with invited := k.invited.erase c }) :=
      Relabels.updClient s₂ a fun _ => rfl
    refine ⟨fun text h => ?_, ?_, ?_⟩
    · have hadd : s₁.HasForward text := hs₂.2.1 text h
      obtain ⟨d, ch', hch', htext⟩ := hadd
      rw [channel?_addUserToChannel] at hch'
      exact Or.inr ⟨d, ch', hch', htext⟩
    · rw [client?_updClient, if_pos rfl, Option.isSome_map, hs₂.2.2, client?_addUserToChannel]
    · refine ⟨Or.inr ⟨c, ch, hc, rfl⟩, ?_, hroom⟩
      rw [memberships_relabel (hs₂.1.trans hs₃), memberships_addUser ha]

theorem joinChannel_spec (cfg : Config) (s : Server) (now : ℤ) (splitmode : Bool) {a : ℕ}
    (ha : (s.client? a).isSome = true) (source : Client) (chan : Str) (key : Option Str) :
    JoinSpec cfg s a (s.joinChannel cfg now splitmode a source chan key) := by
  rcases joinChannel_cases cfg s now splitmode a source chan key with
    (heq | heq) | ⟨s₁, c, ch, flags, htarget, heq⟩
  · rw [heq]
    exact ⟨fun text h => Or.inr h, rfl, rfl⟩
  · rw [heq]
    exact ⟨fun text h => Or.inr h, rfl, rfl⟩
  · have hroom := htarget.room
    have hlt : (s.memberships a).length < 3 * cfg.maxChansPerUser := by
      by_contra hge
      exact hroom ⟨by omega, Or.inr (by omega)⟩
    rw [heq]
    rcases htarget.from_ with rfl | ⟨rfl, -⟩
    · exact joinFound_spec now source htarget.channel ha hlt flags key
    · have hspec := joinFound_spec now source htarget.channel ha hlt flags key
      have hforwards : ∀ text, (s.makeChannel now chan).1.HasForward text →
          text = [] ∨ s.HasForward text := fun text => hasForward_makeChannel
      refine ⟨fun text h => ?_, hspec.client, ?_⟩
      · exact (hspec.forwards text h).elim Or.inl (hforwards text)
      · have hcount := hspec.count
        split
        · rename_i text hjoined
          rw [hjoined] at hcount
          exact ⟨hcount.1.elim Or.inl (hforwards text), hcount.2⟩
        · rename_i hjoined
          split at hcount
          · rename_i text htext
            exact absurd htext (hjoined text)
          · exact hcount

end Server

section Termination

variable (cfg now splitmode junk)

/-- The client is there, and no forward leaves all channels. -/
def Server.Ends (s : Server) (a : ℕ) : Prop := s.NoZero ∧ (s.client? a).isSome = true

theorem enterLoop_ends {forward : JoinState → Option JoinState} (d m : ℕ)
    (hforward : ∀ (st : JoinState) name text, st.server.Ends a → last0 false text = none →
      m < (st.server.memberships a).length →
      (st.server.memberships a).length ≤ 3 * cfg.maxChansPerUser →
      ∃ st', forward (st.pass d name text) = some st' ∧ st'.server.Ends a ∧
        (st.server.memberships a).length ≤ (st'.server.memberships a).length)
    (chans : List Str) {i : ℕ} {keyList : Option Str} {st : JoinState} (hst : st.server.Ends a)
    (hm : m ≤ (st.server.memberships a).length) :
    ∃ st', enterLoop cfg now splitmode a junk forward d i chans keyList st = some st' ∧
      st'.server.Ends a ∧
      (st.server.memberships a).length ≤ (st'.server.memberships a).length := by
  induction chans generalizing i keyList st with
  | nil => exact ⟨st, rfl, hst, le_rfl⟩
  | cons chan chans ih =>
      rw [enterLoop]
      split
      · exact ⟨st, rfl, hst, le_rfl⟩
      · rename_i source hsource
        have hspec := Server.joinChannel_spec cfg st.server now splitmode hst.2 source chan
          (takeKey keyList).1
        have hends : (st.server.joinChannel cfg now splitmode a source chan
            (takeKey keyList).1).1.Ends a :=
          ⟨hst.1.mono hspec.forwards, hspec.client.trans hst.2⟩
        have hcount := hspec.count
        dsimp only [JoinState.note]
        split
        · rename_i s heq
          rw [heq] at hends hcount
          exact ⟨_, rfl, hends, hcount.ge⟩
        · rename_i s heq
          rw [heq] at hends hcount
          obtain ⟨st', hrun, hends', hle⟩ := @ih (i + 1) (takeKey keyList).2
            { st.note (.key d i (takeKey keyList).1) with server := s } hends (hm.trans hcount.ge)
          exact ⟨st', hrun, hends', hcount.ge.trans hle⟩
        · rename_i s text heq
          rw [heq] at hends hcount
          obtain ⟨htext, hmore, hroom⟩ := hcount
          split
          · obtain ⟨st', hrun, hends', hle⟩ := @ih (i + 1) (takeKey keyList).2
              { st.note (.key d i (takeKey keyList).1) with server := s } hends (by
                dsimp only at hmore ⊢
                omega)
            refine ⟨st', hrun, hends', ?_⟩
            dsimp only at hmore hle
            omega
          · have hzero : last0 false text = none := by
              rcases htext with rfl | htext
              · rfl
              · exact hst.1 text htext
            dsimp only at hmore
            obtain ⟨st₁, hrun₁, hends₁, hle₁⟩ := hforward
              { st.note (.key d i (takeKey keyList).1) with server := s } source.name.val text
              hends hzero (by dsimp only; omega) (by dsimp only; omega)
            dsimp only at hle₁
            obtain ⟨st', hrun, hends', hle⟩ := @ih (i + 1) (takeKey keyList).2
              (st₁.release d junk) (by rw [server_release]; exact hends₁)
              (by rw [server_release]; omega)
            rw [server_release] at hle
            exact ⟨st', Option.bind_eq_some_iff.mpr ⟨st₁, hrun₁, hrun⟩, hends', by omega⟩

theorem enterList_ends (depth : ℕ) {d : ℕ} {st : JoinState} (hst : st.server.Ends a)
    (hzero : last0 false (st.chans d) = none) (hpos : 0 < depth)
    (hdepth : 3 * cfg.maxChansPerUser < (st.server.memberships a).length + depth) :
    ∃ st', enterList cfg now splitmode a junk depth d st = some st' ∧ st'.server.Ends a ∧
      (st.server.memberships a).length ≤ (st'.server.memberships a).length := by
  induction depth generalizing d st with
  | zero => cases hpos
  | succ depth ih =>
      cases href : st.server.listRefused a (st.chans d) with
      | true => exact ⟨_, enterList_of_refused depth href, hst, le_rfl⟩
      | false =>
          have hserver : (st.opened a d).server = st.server := by
            rw [(opened_spec st a d).1, Server.afterZero, hzero]
            rfl
          rw [enterList_of_accepted depth href]
          obtain ⟨st', hrun, hends, hle⟩ := enterLoop_ends cfg now splitmode junk d
            (st.server.memberships a).length (fun st₁ name text hends hzero hlt hroom =>
              @ih (d + 1) (st₁.pass d name text) hends
                (by rw [chans_pass]; exact hzero) (by omega) (by
                  change _ < (st₁.server.memberships a).length + depth
                  omega))
            (listTokens (st.chans d)) (hserver.symm ▸ hst) (by rw [hserver])
          rw [hserver] at hle
          exact ⟨st', hrun, hends, hle⟩

/-- A join ends when no forward leaves all channels, whatever the array holds. -/
theorem join_ends {s : Server} (hs : s.Ends a) (params : List Str) (old : ℕ → Option Str)
    (name : Str) : ∃ depth st, enterList cfg now splitmode a junk depth 0
      (joinStart s params old name) = some st := by
  refine ⟨3 * cfg.maxChansPerUser + 2, ?_⟩
  cases href : (joinStart s params old name).server.listRefused a
      ((joinStart s params old name).chans 0) with
  | true => exact ⟨_, enterList_of_refused _ href⟩
  | false =>
      have hends : ((joinStart s params old name).opened a 0).server.Ends a := by
        rw [(opened_spec _ a 0).1, Server.afterZero]
        split
        · exact ⟨hs.1.doJoin0 a, by rw [Server.client?_doJoin0]; exact hs.2⟩
        · exact hs
      rw [enterList_of_accepted _ href]
      obtain ⟨st', hrun, -⟩ := enterLoop_ends cfg now splitmode junk 0 0
        (fun st₁ name text hends hzero hlt hroom =>
          @enterList_ends cfg now splitmode a junk (3 * cfg.maxChansPerUser + 1) 1
            (st₁.pass 0 name text) hends (by rw [chans_pass]; exact hzero) (by omega) (by
              change _ < (st₁.server.memberships a).length + _
              omega))
        _ hends (Nat.zero_le _)
      exact ⟨st', hrun⟩

end Termination

section Forwarding

/-- Two users, the second on a channel that forwards to another one. -/
def forwarding : Server :=
  let users := (LinkGraph.empty.setLeft 0 (some (Client.make "user".toList true true))).setLeft 1
    (some (Client.make "other".toList true true))
  let s : Server := { Server.init with graph := users, nextClient := 2 }
  ((s.makeChannel 0 "#from".toList).1.updChannel 0 fun ch =>
    { ch with mode := { ch.mode with forward := Buf.strlcpy "#to".toList } }).addUserToChannel 0 1 ∅

theorem ends_forwarding : forwarding.Ends 0 := by
  refine ⟨fun text h => ?_, by decide⟩
  obtain ⟨c, ch, hch, rfl⟩ := h
  cases c with
  | zero =>
      rw [← Option.some.inj hch]
      decide
  | succ c => cases hch

end Forwarding

end Unirc
