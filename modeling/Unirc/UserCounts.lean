import Unirc.Runs
import Unirc.UserHostRun

/-!
# The global user counters

`Count.total`, `Count.invisi` and `Count.oper` over runs. The mode commands compare the
modes before and after, registration and exit count what the client has. Four commands
do not: they count a letter twice, count for a client that does not come to exist, or
set and take a mode without counting it.
-/

namespace Unirc

namespace Census

/-- The counters are the numbers of the registered clients. -/
structure Balanced (s : Census) : Prop where
  total : s.total = s.clients.length
  invisi : s.invisi = s.clients.countP (·.isInvisible)
  oper : s.oper = s.clients.countP (·.isOper)

/-- Nor does the operator counter fall below zero while a mode command is at work. -/
structure Counted (cfg : CensusConfig) (s : Census) : Prop extends Balanced s where
  setScan : ∀ u ∈ s.clients, ∀ server services, ∀ letters : Str,
    0 ≤ (letters.foldl (ModeScan.setLetter cfg server services) ⟨true, u, s.oper⟩).oper
  svsScan : ∀ u ∈ s.clients, ∀ letters : Str,
    0 ≤ (letters.foldl (ModeScan.svsLetter cfg) ⟨true, u, s.oper⟩).oper

/-- The event counts what it changes: the letters of an introduction count once, and not
at all when it is refused, and neither an oper block nor the end of an operator changes
whether a client is invisible. -/
def Event.Counts (cfg : CensusConfig) (s : Census) : Event → Prop
  | .uid _ i => (s.user? i.id).isSome = true ∨
      ∀ c ∈ ['i', 'o'], (i.umodes.drop 1).count c ≤ if i.refused then 0 else 1
  | .nick _ i => (s.user? i.id).isSome = true ∨
      (i.refused = true → ∀ c ∈ ['i', 'o'], c ∉ i.umodes.drop 1)
  | .svsnoop => .invisible ∈ cfg.operOnlyUmodes →
      ∀ u ∈ s.clients, u.myClient = true → u.isOper = true → u.isInvisible = false
  | .operUp id modes _ => .invisible ∈ modes →
      ∀ u, s.user? id = some u → u.myClient = true → u.isOper = false → u.isInvisible = true
  | _ => True

section Balanced

variable {cfg : CensusConfig} {rk : U32} {s s' : Census} {u w : User}

theorem Balanced.quiet (hs : s.Balanced) (h : Quiet rk s s') : s'.Balanced where
  total := by rw [h.total, hs.total, h.clients.length_eq]
  invisi := by rw [h.invisi, hs.invisi, h.clients.countP_eq]
  oper := by rw [h.oper, hs.oper, h.clients.countP_eq]

theorem Balanced.enrolled (hs : s.Balanced) (h : Enrolled rk s s' u) : s'.Balanced where
  total := by
    rw [h.total, hs.total, h.clients.length_eq, List.length_cons, Int.natCast_succ]
  invisi := by
    rw [h.invisi, hs.invisi, h.clients.countP_eq, Keyed.countP_cons_toNat, Int.natCast_add]
  oper := by
    rw [h.oper, hs.oper, h.clients.countP_eq, Keyed.countP_cons_toNat, Int.natCast_add]

theorem Balanced.left (hs : s.Balanced) (h : Left rk s s' u) : s'.Balanced where
  total := by
    have hlen := h.clients.length_eq
    rw [List.length_cons] at hlen
    rw [h.total, hs.total, hlen]
    omega
  invisi := by
    have hcount := h.clients.countP_eq (·.isInvisible)
    rw [Keyed.countP_cons_toNat] at hcount
    rw [h.invisi, hs.invisi, hcount]
    omega
  oper := by
    have hcount := h.clients.countP_eq (·.isOper)
    rw [Keyed.countP_cons_toNat] at hcount
    rw [h.oper, hs.oper, hcount]
    omega

/-- A registered client changes its modes, and the counters follow. -/
theorem Balanced.changed (hs : s.Balanced)
    (h : ∃ rest, s.clients.Perm (u :: rest) ∧ s'.clients.Perm (w :: rest))
    (htotal : s'.total = s.total)
    (hinvisi : s'.invisi - w.isInvisible.toNat = s.invisi - u.isInvisible.toNat)
    (hoper : s'.oper - w.isOper.toNat = s.oper - u.isOper.toNat) : s'.Balanced := by
  obtain ⟨rest, hold, hnew⟩ := h
  have hlen := hold.length_eq
  have hlen' := hnew.length_eq
  have hi := hold.countP_eq (·.isInvisible)
  have hi' := hnew.countP_eq (·.isInvisible)
  have ho := hold.countP_eq (·.isOper)
  have ho' := hnew.countP_eq (·.isOper)
  rw [Keyed.countP_cons_toNat] at hi hi' ho ho'
  rw [List.length_cons] at hlen hlen'
  obtain ⟨htotal₀, hinvisi₀, hoper₀⟩ := hs
  constructor <;> omega

theorem invisiDelta_eq (u w : User) :
    invisiDelta u w = w.isInvisible.toNat - u.isInvisible.toNat := by
  unfold invisiDelta
  cases u.isInvisible <;> cases w.isInvisible <;> rfl

theorem Balanced.putModes (hs : s.Balanced) (hu : s.user? u.id = some u)
    (hclient : u.isClient = true) (hsame : SameUser u w) {oper : ℤ}
    (hoper : oper - w.isOper.toNat = s.oper - u.isOper.toNat) :
    (s.putModes u w oper).Balanced := by
  have heq : s.putModes u w oper =
      { s.putUser w with oper := oper, invisi := s.invisi + invisiDelta u w } := by
    unfold Census.putModes putUser
    rw [hsame.id]
  rw [heq]
  refine hs.changed (perm_putUser hu hclient hsame) rfl ?_ hoper
  dsimp only
  rw [invisiDelta_eq]
  omega

theorem Balanced.setUserMode (hs : s.Balanced) (id : ℕ) (server services : Bool)
    (params : List Str) : (s.setUserMode cfg id server services params).Balanced := by
  unfold Census.setUserMode
  split
  · exact hs
  · rename_i u hu
    split
    · exact hs
    · rename_i hcond
      have hclient : u.isClient = true := Bool.not_eq_false _ ▸ fun h => hcond (Or.inl h)
      have hkept := ModeScan.Kept.foldl (ModeScan.Kept.setLetter cfg server services)
        ⟨true, u, s.oper⟩ params.flatten
      refine hs.putModes (user?_id hu) hclient (hkept.same.trans SameUser.dropPrivileged) ?_
      rw [User.isOper_dropPrivileged]
      exact hkept.opers

theorem Balanced.meSvsmode (hs : s.Balanced) (id : ℕ) (params : List Str) :
    (s.meSvsmode cfg id params).Balanced := by
  unfold Census.meSvsmode
  split
  · exact hs
  · rename_i u hu
    split
    · exact hs
    · rename_i hcond
      have hkept := ModeScan.Kept.foldl (ModeScan.Kept.svsLetter cfg) ⟨true, u, s.oper⟩
        params.flatten
      exact hs.putModes (user?_id hu) (Bool.not_eq_false _ ▸ hcond) hkept.same hkept.opers

theorem Balanced.meChghost (hs : s.Balanced) (id : ℕ) (host : Str) :
    (s.meChghost id host).Balanced := by
  unfold Census.meChghost
  split
  · exact hs
  · rename_i u hu
    split
    · rename_i hclient
      have hsame : SameUser u { u with host := Buf.strlcpy host } :=
        ⟨rfl, rfl, rfl, rfl, rfl, rfl, rfl, rfl, rfl⟩
      exact hs.changed (perm_putUser (user?_id hu) hclient hsame) rfl rfl rfl
    · exact hs

theorem isOper_operUser (modes : UModes) (flags : OperFlags) :
    (operUser u modes flags).isOper = true := by
  unfold operUser User.isOper
  dsimp only
  split_ifs <;> simp

theorem isInvisible_operUser {modes : UModes} (flags : OperFlags)
    (h : .invisible ∈ modes → u.isInvisible = true) :
    (operUser u modes flags).isInvisible = u.isInvisible := by
  have hmem : .invisible ∈ (operUser u modes flags).umodes ↔
      .invisible ∈ u.umodes ∨ .invisible ∈ modes := by
    unfold operUser
    dsimp only
    split_ifs <;> simp
  unfold User.isInvisible at h ⊢
  rw [decide_eq_decide, hmem]
  exact ⟨fun hor => hor.elim id fun hmodes => of_decide_eq_true (h hmodes), Or.inl⟩

theorem Balanced.operUp (hs : s.Balanced) {id : ℕ} {modes : UModes} {flags : OperFlags}
    (h : Event.Counts cfg s (.operUp id modes flags)) : (s.operUp id modes flags).Balanced := by
  rcases operUp_cases s id modes flags with heq | ⟨u, hu, hmine, hoper, heq⟩
  · rw [heq]
    exact hs
  · have hclient : u.isClient = true := (Bool.and_eq_true_iff.mp hmine).2
    have hinvisible := isInvisible_operUser flags fun hmodes => h hmodes u hu hmine hoper
    rw [heq]
    refine hs.changed (perm_putUser (user?_id hu) hclient (same_operUser u modes flags)) rfl ?_ ?_
    · rw [hinvisible]
      rfl
    · rw [isOper_operUser, hoper]
      dsimp only [Bool.toNat_true, Bool.toNat_false]
      omega

theorem isInvisible_noopUser (h : .invisible ∈ cfg.operOnlyUmodes →
      u.myClient = true → u.isOper = true → u.isInvisible = false) :
    (noopUser cfg u).isInvisible = u.isInvisible := by
  unfold noopUser
  split
  · rename_i hcond
    obtain ⟨hmine, hoper⟩ := Bool.and_eq_true_iff.mp hcond
    have hmem : .invisible ∈ (u.clearOper cfg).umodes ↔
        .invisible ∈ u.umodes ∧ .invisible ∉ cfg.operOnlyUmodes := by
      unfold User.clearOper
      simp
    unfold User.isInvisible at h ⊢
    rw [decide_eq_decide, hmem]
    exact ⟨fun hand => hand.1, fun hinv => ⟨hinv, fun honly =>
      of_decide_eq_false (h honly hmine hoper) hinv⟩⟩
  · rfl

theorem isOper_noopUser (u : User) :
    (noopUser cfg u).isOper = (u.isOper && !(u.myClient && u.isOper)) := by
  unfold noopUser
  cases h : u.myClient && u.isOper with
  | false => rw [if_neg Bool.false_ne_true, Bool.not_false, Bool.and_true]
  | true => rw [if_pos rfl, User.isOper_clearOper, Bool.not_true, Bool.and_false]

theorem countP_noopUser (l : List User) :
    (l.countP (·.isOper) : ℤ) - (l.countP fun u => u.myClient && u.isOper) =
      (l.map (noopUser cfg)).countP (·.isOper) := by
  induction l with
  | nil => rfl
  | cons u l ih =>
      rw [List.map_cons, Keyed.countP_cons_toNat, Keyed.countP_cons_toNat,
        Keyed.countP_cons_toNat, isOper_noopUser]
      cases u.isOper <;> cases u.myClient <;> simp only [Bool.and_true, Bool.and_false,
        Bool.not_true, Bool.not_false, Bool.toNat_true, Bool.toNat_false]
      all_goals omega

theorem Balanced.meSvsnoop (hs : s.Balanced) (h : Event.Counts cfg s .svsnoop) :
    (s.meSvsnoop cfg).Balanced where
  total := by
    rw [clients_meSvsnoop, List.length_map]
    exact hs.total
  invisi := by
    have hsame : ∀ u ∈ s.clients, (noopUser cfg u).isInvisible = u.isInvisible :=
      fun u hu => isInvisible_noopUser fun honly => h honly u hu
    rw [clients_meSvsnoop, List.countP_map]
    refine hs.invisi.trans (congrArg _ (List.countP_congr fun u hu => ?_))
    rw [Function.comp_apply, hsame u hu]
  oper := by
    have hlocal : s.users.countP (fun u => u.myClient && u.isOper) =
        s.clients.countP fun u => u.myClient && u.isOper := by
      unfold clients
      rw [List.countP_filter]
      refine List.countP_congr fun u _ => ?_
      unfold User.myClient
      cases u.isClient <;> simp
    rw [clients_meSvsnoop, ← countP_noopUser, ← hlocal, ← hs.oper]
    rfl

end Balanced

section Introductions

variable {cfg : CensusConfig} {s : Census} {now : ℤ} {i : Introduction}

/-- What a letter does to the modes of a client that is introduced. -/
def letterModes (m : UModes) (c : Char) : UModes :=
  match userModes c with
  | none => m
  | some flag => if flag ∈ SEND_UMODES then insert flag m else m

theorem mem_letterModes {flag : UMode} (hsend : flag ∈ SEND_UMODES) {m : UModes} {c : Char} :
    flag ∈ letterModes m c ↔ flag ∈ m ∨ userModes c = some flag := by
  unfold letterModes
  split
  · rename_i hnone
    rw [hnone]
    simp
  · rename_i flag' hflag
    rw [hflag, Option.some.injEq]
    by_cases heq : flag' = flag
    · rw [heq, if_pos hsend]
      simp
    · split
      · rw [Finset.mem_insert]
        simp [heq, Ne.symm heq]
      · simp [heq]

theorem userModes_eq_invisible {c : Char} : userModes c = some .invisible ↔ c = 'i' :=
  ⟨eq_of_userModes_invisible, fun h => h ▸ rfl⟩

theorem userModes_eq_oper {c : Char} : userModes c = some .oper ↔ c = 'o' :=
  ⟨eq_of_userModes_oper, fun h => h ▸ rfl⟩

theorem uidLetter_eq (m : UModes) (invisi oper : ℤ) (c : Char) :
    uidLetter (m, invisi, oper) c =
      (letterModes m c, invisi + (if c = 'i' then 1 else 0), oper + if c = 'o' then 1 else 0) := by
  simp only [uidLetter, letterModes, ← userModes_eq_invisible, ← userModes_eq_oper]
  cases userModes c with
  | none => simp
  | some flag => simp only [Option.some.injEq, add_ite, add_zero]

theorem nickLetter_eq (m : UModes) (invisi oper : ℤ) (c : Char) :
    nickLetter (m, invisi, oper) c = (letterModes m c,
      invisi + (if .invisible ∉ m ∧ c = 'i' then 1 else 0),
      oper + if .oper ∉ m ∧ c = 'o' then 1 else 0) := by
  simp only [nickLetter, letterModes, ← userModes_eq_invisible, ← userModes_eq_oper]
  cases userModes c with
  | none => simp
  | some flag => simp only [Option.some.injEq, add_ite, add_zero]

/-- `client_from_server` counts every letter. -/
theorem foldl_uidLetter (letters : Str) (m : UModes) (invisi oper : ℤ) :
    letters.foldl uidLetter (m, invisi, oper) = (letters.foldl letterModes m,
      invisi + letters.count 'i', oper + letters.count 'o') := by
  induction letters generalizing m invisi oper with
  | nil => simp
  | cons c letters ih =>
      rw [List.foldl_cons, List.foldl_cons, uidLetter_eq, ih, List.count_cons, List.count_cons]
      simp only [beq_iff_eq]
      refine Prod.ext rfl (Prod.ext ?_ ?_)
      · dsimp only
        split <;> omega
      · dsimp only
        split <;> omega

/-- One for a mode that is set. -/
def has (flag : UMode) (m : UModes) : ℤ := (decide (flag ∈ m)).toNat

theorem has_letterModes {flag : UMode} (hsend : flag ∈ SEND_UMODES) {c c' : Char}
    (hc : userModes c = some flag ↔ c = c') (m : UModes) :
    (if flag ∉ m ∧ c = c' then 1 else 0) = has flag (letterModes m c) - has flag m := by
  unfold has
  simp only [mem_letterModes hsend, hc]
  by_cases hm : flag ∈ m <;> by_cases hcc : c = c' <;> simp [hm, hcc]

/-- `nick_from_server` counts what the client gets. -/
theorem foldl_nickLetter (letters : Str) (m : UModes) (invisi oper : ℤ) :
    letters.foldl nickLetter (m, invisi, oper) = (letters.foldl letterModes m,
      invisi + (has .invisible (letters.foldl letterModes m) - has .invisible m),
      oper + (has .oper (letters.foldl letterModes m) - has .oper m)) := by
  induction letters generalizing m invisi oper with
  | nil => simp
  | cons c letters ih =>
      rw [List.foldl_cons, List.foldl_cons, nickLetter_eq, ih,
        has_letterModes (by decide) userModes_eq_invisible,
        has_letterModes (by decide) userModes_eq_oper]
      refine Prod.ext rfl (Prod.ext ?_ ?_)
      · dsimp only
        omega
      · dsimp only
        omega

theorem mem_foldl_letterModes {flag : UMode} (hsend : flag ∈ SEND_UMODES) {c' : Char}
    (hc : ∀ c, userModes c = some flag ↔ c = c') (letters : Str) (m : UModes) :
    flag ∈ letters.foldl letterModes m ↔ flag ∈ m ∨ c' ∈ letters := by
  induction letters generalizing m with
  | nil => simp
  | cons c letters ih =>
      rw [List.foldl_cons, ih, mem_letterModes hsend, hc, or_assoc, List.mem_cons, eq_comm]

/-- Letters that count once count what the client gets. -/
theorem count_eq_has {flag : UMode} (hsend : flag ∈ SEND_UMODES) {c' : Char}
    (hc : ∀ c, userModes c = some flag ↔ c = c') {letters : Str} (hcount : letters.count c' ≤ 1) :
    (letters.count c' : ℤ) = has flag (letters.foldl letterModes ∅) := by
  unfold has
  simp only [mem_foldl_letterModes hsend hc, Finset.notMem_empty, false_or]
  by_cases hmem : c' ∈ letters
  · have hpos := List.count_pos_iff.mpr hmem
    rw [decide_eq_true hmem]
    simp only [Bool.toNat_true]
    omega
  · rw [List.count_eq_zero_of_not_mem hmem, decide_eq_false hmem]
    rfl

/-- An introduction whose letters count what the client gets. -/
theorem Balanced.introduce {letter : UModes × ℤ × ℤ → Char → UModes × ℤ × ℤ}
    (hs : s.Balanced)
    (hrefused : (s.user? i.id).isSome = false → i.refused = true →
      (i.scan s letter).2 = (s.invisi, s.oper))
    (hnew : (s.user? i.id).isSome = false → i.refused = false →
      (i.scan s letter).2 = (s.invisi + has .invisible (i.scan s letter).1,
        s.oper + has .oper (i.scan s letter).1)) :
    (s.introduce cfg now letter i).Balanced := by
  cases hid : (s.user? i.id).isSome with
  | true =>
      rw [introduce_of_isSome hid]
      exact hs
  | false =>
      cases href : i.refused with
      | true =>
          rw [introduce_of_refused hid href, hrefused hid href]
          exact ⟨hs.total, hs.invisi, hs.oper⟩
      | false =>
          rw [introduce_of_new hid href, hnew hid href]
          have henrolled : Enrolled cfg.randomKey s { s with
              users := introducedUser i (i.scan s letter).1 :: s.users
              userhosts := s.userhosts.addUserHost cfg.randomKey
                (introducedUser i (i.scan s letter).1).username.val
                (introducedUser i (i.scan s letter).1).realhost true
              total := s.total + 1
              invisi := s.invisi + has .invisible (i.scan s letter).1
              oper := s.oper + has .oper (i.scan s letter).1 }
              (introducedUser i (i.scan s letter).1) :=
            ⟨⟨List.Perm.refl _, fun _ _ => rfl, rfl⟩, rfl, rfl⟩
          exact hs.enrolled henrolled

theorem has_empty (flag : UMode) : has flag ∅ = 0 := rfl

theorem Balanced.clientFromServer (hs : s.Balanced) (h : Event.Counts cfg s (.uid now i)) :
    (s.clientFromServer cfg now i).Balanced := by
  have hscan : i.scan s uidLetter = ((i.umodes.drop 1).foldl letterModes ∅,
      s.invisi + (i.umodes.drop 1).count 'i', s.oper + (i.umodes.drop 1).count 'o') :=
    foldl_uidLetter _ _ _ _
  have hcount : (s.user? i.id).isSome = false →
      ∀ c ∈ ['i', 'o'], (i.umodes.drop 1).count c ≤ if i.refused then 0 else 1 :=
    fun hid => h.resolve_left (by rw [hid]; exact Bool.false_ne_true)
  refine hs.introduce (fun hid href => ?_) fun hid href => ?_
  · have hi := hcount hid 'i' (by simp)
    have ho := hcount hid 'o' (by simp)
    rw [href, if_pos rfl] at hi ho
    rw [hscan]
    refine Prod.ext ?_ ?_
    · dsimp only
      omega
    · dsimp only
      omega
  · have hi := hcount hid 'i' (by simp)
    have ho := hcount hid 'o' (by simp)
    rw [href, if_neg Bool.false_ne_true] at hi ho
    rw [hscan]
    dsimp only
    rw [count_eq_has (by decide) (fun _ => userModes_eq_invisible) hi,
      count_eq_has (by decide) (fun _ => userModes_eq_oper) ho]

theorem Balanced.nickFromServer (hs : s.Balanced) (h : Event.Counts cfg s (.nick now i)) :
    (s.nickFromServer cfg now i).Balanced := by
  have hscan : i.scan s nickLetter = ((i.umodes.drop 1).foldl letterModes ∅,
      s.invisi + (has .invisible ((i.umodes.drop 1).foldl letterModes ∅) - has .invisible ∅),
      s.oper + (has .oper ((i.umodes.drop 1).foldl letterModes ∅) - has .oper ∅)) :=
    foldl_nickLetter _ _ _ _
  rw [has_empty, has_empty, sub_zero, sub_zero] at hscan
  refine hs.introduce (fun hid href => ?_) fun hid href => by rw [hscan]
  have hnone := h.resolve_left (by rw [hid]; exact Bool.false_ne_true) href
  have hhas : ∀ {flag c'}, flag ∈ SEND_UMODES → (∀ c, userModes c = some flag ↔ c = c') →
      c' ∈ ['i', 'o'] → has flag ((i.umodes.drop 1).foldl letterModes ∅) = 0 := by
    intro flag c' hsend hc hmem
    unfold has
    simp only [mem_foldl_letterModes hsend hc, Finset.notMem_empty, false_or,
      decide_eq_false (hnone c' hmem)]
    rfl
  rw [hscan, hhas (by decide) (fun _ => userModes_eq_invisible) (by simp),
    hhas (by decide) (fun _ => userModes_eq_oper) (by simp), add_zero, add_zero]

end Introductions

section Run

variable {cfg : CensusConfig} {s : Census}

theorem balanced_init : init.Balanced := ⟨rfl, rfl, rfl⟩

theorem Balanced.registered {s' : Census} {e : Event} (hs : s.Balanced)
    (h : Quiet cfg.randomKey s s' ∨ LetIn cfg s s' e) : s'.Balanced := by
  rcases h with hquiet | ⟨u, block, username, v, hadmitted⟩
  · exact hs.quiet hquiet
  · exact hs.enrolled hadmitted.enrolled

/-- What one event does to the counters. -/
theorem Balanced.step (hs : s.Balanced) (hwf : s.Wf cfg.randomKey) (e : Event)
    (he : e.Counts cfg s) : (s.step cfg e).Balanced := by
  cases e with
  | connect id gotId username host sockhost ip =>
      exact hs.quiet (connect_spec hwf id gotId username host sockhost ip).2
  | cgiirc id username host sockhost ip =>
      exact hs.quiet (mrCgiirc_spec hwf id username host sockhost ip).2
  | user now id username complete v =>
      exact hs.registered (doLocalUser_spec hwf now id username complete v).2
  | complete now id v => exact hs.registered (completeRegistration_spec hwf now id v).2
  | uid now i => exact hs.clientFromServer he
  | nick now i => exact hs.nickFromServer he
  | userMode id server services params => exact hs.setUserMode id server services params
  | svsmode id params => exact hs.meSvsmode id params
  | svsnoop => exact hs.meSvsnoop he
  | operUp id modes flags => exact hs.operUp he
  | chghost id host => exact hs.meChghost id host
  | exit now id =>
      rcases (exit_cases hwf now id).2 with hquiet | ⟨u, hleft⟩
      · exact hs.quiet hquiet
      · exact hs.left hleft

theorem Balanced.counted (hs : s.Balanced) : s.Counted cfg := by
  have hscan : ∀ u ∈ s.clients, ∀ st : ModeScan, ModeScan.Kept ⟨true, u, s.oper⟩ st →
      0 ≤ st.oper := by
    intro u hu st hkept
    have hpos : u.isOper.toNat ≤ s.clients.countP (·.isOper) := by
      cases hoper : u.isOper with
      | false => exact Nat.zero_le _
      | true => exact List.countP_pos_iff.mpr ⟨u, hu, hoper⟩
    have hopers : st.oper - st.user.isOper.toNat = s.oper - u.isOper.toNat := hkept.opers
    rw [hs.oper] at hopers
    omega
  exact ⟨hs, fun u hu server services letters =>
    hscan u hu _ (ModeScan.Kept.foldl (ModeScan.Kept.setLetter cfg server services) _ letters),
    fun u hu letters => hscan u hu _ (ModeScan.Kept.foldl (ModeScan.Kept.svsLetter cfg) _ letters)⟩

/-- In every run whose events count what they change, the counters are right. -/
theorem counted_run {events : List Event}
    (h : Runs.Each (step cfg) (fun s e => e.Counts cfg s) init events) :
    (run cfg events).Counted cfg := by
  refine Balanced.counted (Runs.invariant
    (P := fun s => s.Wf cfg.randomKey ∧ s.Balanced) ?_ ⟨wf_init _, balanced_init⟩ h).2
  rintro s e ⟨hwf, hs⟩ he
  exact ⟨(step_spec hwf e).1, hs.step hwf e he⟩

/-- A user that another server introduces with some mode letters. -/
def newcomer (umodes : Str) : Introduction where
  id := 1
  umodes := umodes
  username := "user".toList
  host := "host".toList
  realhost := "host".toList
  sockhost := "10.0.0.1".toList
  ip := .inet 0x0A000001
  refused := false

theorem counted_newcomer : (run (someConfig 0)
    [.uid 0 (newcomer "+io".toList), .svsmode 1 ["-o".toList], .exit 0 1]).Counted
      (someConfig 0) :=
  counted_run ⟨Or.inr (by simp [newcomer]), trivial, trivial, trivial⟩

/-- `client_from_server` counts a client twice whose letters have `i` twice. -/
theorem not_counted_repeated : ¬ ∀ cfg events, (run cfg events).Counted cfg := by
  intro h
  have hinvisi := (h (someConfig 0) [.uid 0 (newcomer "+ii".toList)]).invisi
  revert hinvisi
  decide

end Run

end Census

end Unirc
