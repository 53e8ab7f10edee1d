import Mathlib.Tactic.Common
import Unirc.CheckServer

/-!
# The connect block that is chosen

The loop finds a block that authenticates the peer if there is one, and the last block of the list if
that one does. The address of the peer goes to the last block of the list whichever was chosen.
-/

namespace Unirc

namespace ConnectTable

variable {α β : Type*}

/-- A block that authenticates a peer without a cryptlink: its name is matched by a name of a server,
its host by the peer's host or address, and it accepts the password, which is not empty. -/
structure Authenticates (t : ConnectTable α β) (crypt : Str → Str → Str) (name : Str)
    (peer : ServerPeer) (c : α) : Prop where
  length : name.length ≤ HOSTLEN
  name : matchMask name (t.block c).name = true
  host : matchMask (t.block c).host peer.host = true ∨
    matchMask (t.block c).host peer.sockhost = true
  plain : (t.block c).cryptLink = false
  nonempty : peer.passwd ≠ []
  password : (t.block c).passwd =
    some (if (t.block c).encrypted then crypt peer.passwd ((t.block c).passwd.getD [])
      else peer.passwd)

variable [DecidableEq α] [DecidableEq β]

/-- What is expected: success when some block authenticates, such a block attached, the capabilities
cleared that it does not have, and the other blocks left alone. -/
structure Picks (t : ConnectTable α β) (crypt : Str → Str → Str) (name : Str) (peer : ServerPeer)
    (x : ConfState α β) (r : ℤ × ConfState α β) : Prop where
  success : r.1 = 0 ↔ ∃ c ∈ t.serverItems, t.Authenticates crypt name peer c
  chosen : r.1 = 0 → ∃ c ∈ t.serverItems, t.Authenticates crypt name peer c ∧
    .block c ∈ r.2.confs ∧ (∀ d, .block d ∈ r.2.confs → d = c ∨ .block d ∈ x.confs) ∧
    r.2.caps = x.caps \ t.clearedCaps c ∧
    ∀ d, d ≠ c → r.2.clients d = x.clients d ∧ r.2.ipnum d = x.ipnum d
  failure : r.1 ≠ 0 → r.2 = x

variable {t : ConnectTable α β} {crypt : Str → Str → Str} {name : Str} {peer : ServerPeer}
  {x : ConfState α β}

/-- What the loop comes to, from the block that was found before. -/
structure Found (t : ConnectTable α β) (crypt : Str → Str → Str) (name : Str) (peer : ServerPeer)
    (cs : List α) (before after : Option α) : Prop where
  kept : (∀ c ∈ cs, ¬ t.Authenticates crypt name peer c) → after = before
  found : (∃ c ∈ cs, t.Authenticates crypt name peer c) →
    ∃ c ∈ cs, t.Authenticates crypt name peer c ∧ after = some c
  last : ∀ c, cs.getLast? = some c → t.Authenticates crypt name peer c → after = some c

omit [DecidableEq α] [DecidableEq β] in
theorem Found.nil (before : Option α) : Found t crypt name peer [] before before :=
  ⟨fun _ => rfl, fun ⟨_, hc, _⟩ => absurd hc List.not_mem_nil, fun _ h => nomatch h⟩

omit [DecidableEq α] [DecidableEq β] in
/-- A block that does not authenticate is passed over. -/
theorem Found.skip {c : α} {cs : List α} {before after : Option α}
    (hc : ¬ t.Authenticates crypt name peer c) (h : Found t crypt name peer cs before after) :
    Found t crypt name peer (c :: cs) before after := by
  refine ⟨fun hall => h.kept fun d hd => hall d (List.mem_cons_of_mem c hd), ?_, ?_⟩
  · rintro ⟨d, hd, hauth⟩
    rcases List.mem_cons.mp hd with rfl | hd
    · exact absurd hauth hc
    · obtain ⟨e, he, hfound⟩ := h.found ⟨d, hd, hauth⟩
      exact ⟨e, List.mem_cons_of_mem c he, hfound⟩
  · intro d hd hauth
    cases cs with
    | nil =>
        obtain rfl := Option.some.inj hd
        exact absurd hauth hc
    | cons e es => exact h.last d hd hauth

omit [DecidableEq α] [DecidableEq β] in
/-- A block that authenticates is found until a later one is. -/
theorem Found.take {c : α} {cs : List α} {before after : Option α}
    (hc : t.Authenticates crypt name peer c) (h : Found t crypt name peer cs (some c) after) :
    Found t crypt name peer (c :: cs) before after := by
  refine ⟨fun hall => absurd hc (hall c List.mem_cons_self), fun _ => ?_, fun d hd hauth => ?_⟩
  · by_cases hex : ∃ d ∈ cs, t.Authenticates crypt name peer d
    · obtain ⟨d, hd, hfound⟩ := h.found hex
      exact ⟨d, List.mem_cons_of_mem c hd, hfound⟩
    · exact ⟨c, List.mem_cons_self, hc, h.kept fun d hd hauth => hex ⟨d, hd, hauth⟩⟩
  · cases cs with
    | nil =>
        obtain rfl := Option.some.inj hd
        exact h.kept fun e he => absurd he List.not_mem_nil
    | cons e es => exact h.last d hd hauth

variable (t crypt peer) in
omit [DecidableEq α] [DecidableEq β] in
/-- The loop returns in the middle only to a peer without a password. -/
theorem checkLoop_spec (hlength : name.length ≤ HOSTLEN) {cs : List α}
    (hcs : ∀ c ∈ cs, c ∈ t.serverItems) {error : ℤ} (herror : error < 0) (before : Option α) :
    (t.checkLoop crypt name peer false cs error before = .error (-2) ∧ peer.passwd = []) ∨
      ∃ error' after, t.checkLoop crypt name peer false cs error before = .ok (error', after) ∧
        error' < 0 ∧ Found t crypt name peer cs before after := by
  induction cs generalizing error before with
  | nil => exact Or.inr ⟨error, before, rfl, herror, Found.nil before⟩
  | cons c cs ih =>
      have ih' {error : ℤ} (herror : error < 0) (before : Option α) :=
        ih (fun d hd => hcs d (List.mem_cons_of_mem c hd)) herror before
      have hskip (hc : ¬ t.Authenticates crypt name peer c) {error : ℤ} (herror : error < 0)
          (before : Option α) :
          (t.checkLoop crypt name peer false cs error before = .error (-2) ∧ peer.passwd = []) ∨
            ∃ error' after, t.checkLoop crypt name peer false cs error before =
              .ok (error', after) ∧ error' < 0 ∧ Found t crypt name peer (c :: cs) before after := by
        rcases ih' herror before with h | ⟨error', after, hloop, herror', hfound⟩
        · exact Or.inl h
        · exact Or.inr ⟨error', after, hloop, herror', hfound.skip hc⟩
      rw [checkLoop]
      by_cases hname : (!matchMask name (t.block c).name) = true
      · rw [if_pos hname]
        refine hskip (fun hauth => ?_) herror before
        rw [hauth.name] at hname
        exact absurd hname (by decide)
      rw [if_neg hname]
      rw [Bool.not_eq_true', Bool.not_eq_false] at hname
      by_cases hhost : (matchMask (t.block c).host peer.host ||
          matchMask (t.block c).host peer.sockhost) = true
      swap
      · rw [if_neg hhost]
        refine hskip (fun hauth => ?_) (by decide) before
        exact hhost (Bool.or_eq_true_iff.mpr hauth.host)
      rw [if_pos hhost, Bool.false_and, if_neg Bool.false_ne_true, Bool.false_or]
      by_cases hplain : (!(t.block c).cryptLink) = true
      swap
      · rw [if_neg hplain]
        refine hskip (fun hauth => ?_) (by decide) before
        exact hplain (by rw [hauth.plain, Bool.not_false])
      rw [if_pos hplain]
      rw [Bool.not_eq_true'] at hplain
      by_cases hempty : peer.passwd.isEmpty = true
      · rw [if_pos hempty]
        exact Or.inl ⟨rfl, List.isEmpty_iff.mp hempty⟩
      rw [if_neg hempty]
      cases hpasswd : (t.block c).passwd with
      | none => exact absurd hpasswd (t.secured c (hcs c List.mem_cons_self) hplain)
      | some passwd =>
          dsimp only
          by_cases hsame : passwd =
              if (t.block c).encrypted then crypt peer.passwd passwd else peer.passwd
          · have hauth : t.Authenticates crypt name peer c := by
              refine ⟨hlength, hname, Bool.or_eq_true_iff.mp hhost, hplain,
                fun h => hempty (List.isEmpty_iff.mpr h), ?_⟩
              rw [hpasswd, Option.getD_some]
              exact congrArg _ hsame
            rw [if_pos hsame]
            rcases ih' (show (-2 : ℤ) < 0 by decide) (some c) with
              h | ⟨error', after, hloop, herror', hfound⟩
            · exact Or.inl h
            · exact Or.inr ⟨error', after, hloop, herror', hfound.take hauth⟩
          · rw [if_neg hsame]
            refine hskip (fun hauth => hsame ?_) (by decide) before
            have hpassword := hauth.password
            rw [hpasswd, Option.getD_some] at hpassword
            exact Option.some.inj hpassword

/-- What attaching hub and leaf items leaves alone. -/
structure Kept (x y : ConfState α β) : Prop where
  confs : ∀ c, .block c ∈ y.confs ↔ .block c ∈ x.confs
  clients : y.clients = x.clients
  ipnum : y.ipnum = x.ipnum
  caps : y.caps = x.caps

omit [DecidableEq α] [DecidableEq β] in
theorem Kept.trans {x y z : ConfState α β} (h : Kept x y) (h' : Kept y z) : Kept x z :=
  ⟨fun c => (h'.confs c).trans (h.confs c), h'.clients.trans h.clients, h'.ipnum.trans h.ipnum,
    h'.caps.trans h.caps⟩

theorem kept_attachMatch (x : ConfState α β) (m : β) : Kept x (attachMatch x m) := by
  rw [attachMatch]
  split
  · exact ⟨fun _ => Iff.rfl, rfl, rfl, rfl⟩
  · refine ⟨fun c => ⟨fun h => ?_, List.mem_cons_of_mem _⟩, rfl, rfl, rfl⟩
    rcases List.mem_cons.mp h with h | h
    · exact nomatch h
    · exact h

theorem kept_foldl_attachMatch (ms : List β) (x : ConfState α β) :
    Kept x (ms.foldl attachMatch x) := by
  induction ms generalizing x with
  | nil => exact ⟨fun _ => Iff.rfl, rfl, rfl, rfl⟩
  | cons m ms ih => exact (kept_attachMatch x m).trans (ih (attachMatch x m))

/-- A block of the list is attached. -/
theorem attachServer_spec {c : α} (hc : c ∈ t.serverItems) (x : ConfState α β) :
    .block c ∈ (t.attachServer c x).confs ∧
      (∀ d, .block d ∈ (t.attachServer c x).confs → d = c ∨ .block d ∈ x.confs) ∧
      (∀ d, d ≠ c → (t.attachServer c x).clients d = x.clients d) ∧
      (t.attachServer c x).ipnum = x.ipnum ∧ (t.attachServer c x).caps = x.caps := by
  rw [attachServer]
  split
  · rename_i hattached
    exact ⟨hattached, fun d => Or.inr, fun _ _ => rfl, rfl, rfl⟩
  · rw [if_neg (by rw [t.legal c hc]; exact Bool.false_ne_true)]
    refine ⟨List.mem_cons_self, fun d hd => ?_, fun d hd => Function.update_of_ne hd _ _, rfl, rfl⟩
    rcases List.mem_cons.mp hd with h | h
    · exact Or.inl (ConfRef.block.inj h)
    · exact Or.inr h

omit [DecidableEq β] in
theorem takeAddress_eq (last : α) (hlast : t.serverItems.getLast? = some last)
    (y : ConfState α β) : t.takeAddress peer y =
      { y with ipnum := if t.unspecified last y then Function.update y.ipnum last peer.ip
                        else y.ipnum } := by
  rw [takeAddress, hlast]
  dsimp only
  split <;> rfl

omit [DecidableEq α] [DecidableEq β] in
/-- Nothing is done when no block authenticates. -/
theorem Picks.of_none {r : ℤ × ConfState α β} (hr : r.1 ≠ 0) (hx : r.2 = x)
    (hnone : ¬ ∃ c ∈ t.serverItems, t.Authenticates crypt name peer c) :
    t.Picks crypt name peer x r :=
  ⟨⟨fun h => absurd h hr, fun h => absurd h hnone⟩, fun h => absurd h hr, fun _ => hx⟩

/-- When a block was found. -/
theorem exists_chosen (hlength : name.length ≤ HOSTLEN)
    (hex : ∃ c ∈ t.serverItems, t.Authenticates crypt name peer c) :
    ∃ c ∈ t.serverItems, t.Authenticates crypt name peer c ∧
      (∀ last, t.serverItems.getLast? = some last → t.Authenticates crypt name peer last →
        c = last) ∧
      ∃ y : ConfState α β, t.checkServer crypt name peer false x = (0, t.takeAddress peer y) ∧
        .block c ∈ y.confs ∧ (∀ d, .block d ∈ y.confs → d = c ∨ .block d ∈ x.confs) ∧
        y.caps = x.caps \ t.clearedCaps c ∧ (∀ d, d ≠ c → y.clients d = x.clients d) ∧
        y.ipnum = x.ipnum := by
  rcases checkLoop_spec t crypt peer hlength (fun c hc => hc)
      (show (-1 : ℤ) < 0 by decide) none with ⟨-, hempty⟩ | ⟨error, after, hloop, -, hfound⟩
  · obtain ⟨c, -, hauth⟩ := hex
    exact absurd hempty hauth.nonempty
  · obtain ⟨c, hc, hauth, rfl⟩ := hfound.found hex
    obtain ⟨hattached, honly, hclients, hipnum, hcaps⟩ := attachServer_spec hc x
    have hkept := (kept_foldl_attachMatch
      (t.hubItems.filter fun m => matchMask name (t.matchName m)) (t.attachServer c x)).trans
      (kept_foldl_attachMatch (t.leafItems.filter fun m => matchMask name (t.matchName m)) _)
    generalize hz : (t.leafItems.filter _).foldl _ _ = z at hkept
    refine ⟨c, hc, hauth, fun last hlast h => Option.some.inj (hfound.last last hlast h),
      { z with caps := z.caps \ t.clearedCaps c }, ?_, (hkept.confs c).mpr hattached,
      fun d hd => honly d ((hkept.confs d).mp hd), ?_,
      fun d hd => (congrFun hkept.clients d).trans (hclients d hd), hkept.ipnum.trans hipnum⟩
    · rw [checkServer, if_neg (not_lt.mpr hlength), hloop]
      dsimp only
      rw [hz]
    · dsimp only
      rw [hkept.caps, hcaps]

/-- The block is the right one for every list of blocks, and the others are left alone exactly when
the last block of the list is the one that was chosen or has an address. -/
theorem picks_iff : t.Picks crypt name peer x (t.checkServer crypt name peer false x) ↔
    ((∃ c ∈ t.serverItems, t.Authenticates crypt name peer c) →
      ∀ last, t.serverItems.getLast? = some last → t.Authenticates crypt name peer last ∨
        t.unspecified last x = false ∨ x.ipnum last = peer.ip) := by
  by_cases hex : ∃ c ∈ t.serverItems, t.Authenticates crypt name peer c
  swap
  · refine iff_of_true ?_ fun h => absurd h hex
    rw [checkServer]
    split
    · exact Picks.of_none (show (-4 : ℤ) ≠ 0 by decide) rfl hex
    · rename_i hlength
      rcases checkLoop_spec t crypt peer (not_lt.mp hlength)
          (fun c hc => hc) (show (-1 : ℤ) < 0 by decide) none with
        ⟨hloop, -⟩ | ⟨error, after, hloop, herror, hfound⟩
      · rw [hloop]
        exact Picks.of_none (show (-2 : ℤ) ≠ 0 by decide) rfl hex
      · obtain rfl := hfound.kept fun c hc hauth => hex ⟨c, hc, hauth⟩
        rw [hloop]
        exact Picks.of_none herror.ne rfl hex
  have hlength : name.length ≤ HOSTLEN := by
    obtain ⟨c, -, hauth⟩ := hex
    exact hauth.length
  obtain ⟨c, hc, hauth, hchosen, y, hcheck, hattached, honly, hcaps, hclients, hipnum⟩ :=
    exists_chosen (x := x) hlength hex
  rw [hcheck]
  constructor
  · intro h _ last hlast
    obtain ⟨d, -, hauth', -, -, -, hothers⟩ := h.chosen rfl
    by_cases hsame : last = d
    · exact Or.inl (hsame ▸ hauth')
    · refine Or.inr ?_
      have hsaved := (hothers last hsame).2
      rw [takeAddress_eq last hlast] at hsaved
      cases hunset : t.unspecified last x with
      | false => exact Or.inl rfl
      | true =>
          have hunset' : t.unspecified last y = true := by
            rw [unspecified, hipnum]
            exact hunset
          dsimp only at hsaved
          rw [hunset', if_pos rfl, Function.update_self] at hsaved
          exact Or.inr hsaved.symm
  · intro h
    obtain ⟨last, hlast⟩ := Option.ne_none_iff_exists'.mp
      (mt List.getLast?_eq_none_iff.mp (List.ne_nil_of_mem hc))
    rw [takeAddress_eq last hlast]
    refine ⟨iff_of_true rfl hex, fun _ => ⟨c, hc, hauth, hattached, honly, hcaps, fun d hd =>
      ⟨hclients d hd, ?_⟩⟩, fun h => absurd rfl h⟩
    have hunset : t.unspecified last y = t.unspecified last x := by
      rw [unspecified, unspecified, hipnum]
    dsimp only
    rw [hunset, hipnum]
    rcases h hex last hlast with hlast' | hset | hsame
    · split
      · exact Function.update_of_ne (hchosen last hlast hlast' ▸ hd) _ _
      · rfl
    · rw [hset, if_neg Bool.false_ne_true]
    · rw [← hsame, Function.update_eq_self, ite_self]

/-- A block with a password, and behind it a block of another server with no address. -/
def twoBlocks : ConnectTable Bool Empty where
  block := fun first => {
    name := if first then ['a', '.', 'b'] else ['c', '.', 'd']
    host := ['*']
    passwd := some ['x']
    encrypted := false
    cryptLink := false
    rsaPublicKey := false
    lazyLink := false
    compressed := false
    topicBurst := false
    illegal := false
    aftype := .inet6
    classPtr := 0 }
  serverItems := [true, false]
  matchName := Empty.elim
  hubItems := []
  leafItems := []
  legal := fun _ _ => rfl
  secured := fun _ _ _ h => nomatch h

def unspecifiedBlocks : ConfState Bool Empty :=
  ⟨fun _ => 0, fun _ => ⟨0, 0, 0, 0⟩, fun _ => 0, fun _ => 0, [], ∅⟩

def firstPeer : ServerPeer := ⟨['h'], ['h'], ['x'], ⟨10, 0, 0, 1⟩⟩

theorem not_forall_picks : ¬ ∀ (t : ConnectTable Bool Empty) crypt name peer x,
    t.Picks crypt name peer x (t.checkServer crypt name peer false x) := by
  intro h
  have hpicks := h twoBlocks (fun _ salt => salt) ['a', '.', 'b'] firstPeer unspecifiedBlocks
  obtain ⟨c, -, hauth, -, -, -, hothers⟩ := hpicks.chosen (by decide)
  cases c with
  | false => exact absurd hauth.name (by decide)
  | true => exact absurd (hothers false (by decide)).2 (by decide)

end ConnectTable

end Unirc
