import Mathlib.Data.Finset.Card
import Unirc.AcceptLists

/-!
# The ACCEPT command

What one `ACCEPT` does to the list of its source. The names go through two buffers that are large
enough, and are looked up a second time with the same result.
-/

namespace Unirc

namespace AcceptNet

variable (s : AcceptNet)

/-- The names of existing users, with or without the sign. -/
def existing (neg : Bool) (tokens : List Str) : List Str :=
  (tokens.filter fun t => (signedNick t).1 = neg ∧ (s.findClient (signedNick t).2).isSome).map
    fun t => (signedNick t).2

/-- The users that a text names. A text that starts with `*` asks for the list and names nobody. -/
def namedUsers (neg : Bool) (nicks : Str) : List ℕ :=
  if nicks.head? = some '*' then []
  else (s.existing neg (commaTokens nicks)).filterMap s.findClient

/-- The additions in order, refused while the list is full. -/
def addUsers (max : ℕ) : List ℕ → List ℕ → List ℕ
  | [], l => l
  | t :: rest, l =>
      if t ∈ l then addUsers max rest l
      else if max ≤ l.length then addUsers max rest l
      else addUsers max rest (t :: l)

/-- The additions with the count of the names. -/
def countedUsers (max : ℕ) : List ℕ → ℕ → List ℕ → List ℕ
  | [], _, l => l
  | t :: rest, n, l =>
      if t ∈ l then countedUsers max rest (n + 1) l
      else if max ≤ n then l
      else countedUsers max rest (n + 1) (t :: l)

/-- What a command is to leave: those with the sign off the list, the others on it while there is
room, and all other lists as they were. -/
def Obeyed (cfg : AcceptConf) (source : ℕ) (nicks : Str) (s' : AcceptNet) : Prop :=
  s'.allowList source = addUsers cfg.max_accept (s.namedUsers false nicks)
      ((s.allowList source).filter (· ∉ s.namedUsers true nicks)) ∧
    ∀ t, t ≠ source → s'.allowList t = s.allowList t

/-- No new user for whom there is room has so many names in front of him, of users that are on the
list or were named before, that the names alone use up the limit. -/
def Roomy (max : ℕ) (l targets : List ℕ) : Prop :=
  ∀ before t behind, targets = before ++ t :: behind → t ∉ l → t ∉ before →
    l.length + (before.toFinset \ l.toFinset).card < max → l.length + before.length < max

section Counting

variable {max n : ℕ} {l targets : List ℕ}

theorem addUsers_of_full (h : max ≤ l.length) : addUsers max targets l = l := by
  induction targets with
  | nil => rfl
  | cons t rest ih =>
      rw [addUsers, if_pos h, ih]
      exact ite_self l

theorem length_le_addUsers : l.length ≤ (addUsers max targets l).length := by
  induction targets generalizing l with
  | nil => rfl
  | cons t rest ih =>
      rw [addUsers]
      split
      · exact ih
      · split
        · exact ih
        · exact (Nat.le_succ _).trans (ih (l := t :: l))

theorem card_sdiff_cons_of_mem {t : ℕ} (ht : t ∈ l) (before : List ℕ) :
    ((t :: before).toFinset \ l.toFinset).card = (before.toFinset \ l.toFinset).card := by
  rw [List.toFinset_cons, Finset.insert_sdiff_of_mem _ (List.mem_toFinset.mpr ht)]

theorem card_sdiff_cons_of_not_mem {t : ℕ} (ht : t ∉ l) (before : List ℕ) :
    ((t :: before).toFinset \ l.toFinset).card =
      (before.toFinset \ (t :: l).toFinset).card + 1 := by
  have hsplit : (t :: before).toFinset \ l.toFinset =
      insert t (before.toFinset \ (t :: l).toFinset) := by
    ext x
    simp only [Finset.mem_sdiff, List.mem_toFinset, List.mem_cons, Finset.mem_insert]
    by_cases hx : x = t
    · subst hx
      simp [ht]
    · simp [hx]
  rw [hsplit, Finset.card_insert_of_notMem (by simp)]

theorem forall_splits_cons {α : Type*} {x : α} {rest : List α} {P : List α → α → Prop} :
    (∀ before t behind, x :: rest = before ++ t :: behind → P before t) ↔
      P [] x ∧ ∀ before t behind, rest = before ++ t :: behind → P (x :: before) t := by
  constructor
  · intro h
    exact ⟨h [] x rest rfl, fun before t behind heq => h (x :: before) t behind (by rw [heq]; rfl)⟩
  · rintro ⟨hx, hrest⟩ before t behind heq
    cases before with
    | nil =>
        obtain ⟨rfl, -⟩ := List.cons.inj heq
        exact hx
    | cons y before =>
        obtain ⟨rfl, hrest'⟩ := List.cons.inj heq
        exact hrest before t behind hrest'

/-- The counted additions are the right ones when no name in front of a new user counts too much. -/
theorem countedUsers_eq_iff (hn : l.length ≤ n) :
    countedUsers max targets n l = addUsers max targets l ↔
      ∀ before t behind, targets = before ++ t :: behind → t ∉ l → t ∉ before →
        l.length + (before.toFinset \ l.toFinset).card < max → n + before.length < max := by
  induction targets generalizing l n with
  | nil => exact iff_of_true rfl fun before t behind h => by simp at h
  | cons x rest ih =>
      rw [countedUsers, addUsers, forall_splits_cons]
      by_cases hx : x ∈ l
      · rw [if_pos hx, if_pos hx, ih (by omega)]
        simp only [card_sdiff_cons_of_mem hx, List.length_cons, List.mem_cons, not_or]
        constructor
        · intro h
          exact ⟨fun hx' => absurd hx hx', fun before t behind heq ht hmem hlt => by
            have := h before t behind heq ht hmem.2 hlt
            omega⟩
        · rintro ⟨-, h⟩ before t behind heq ht hmem hlt
          have := h before t behind heq ht ⟨fun htx => ht (htx ▸ hx), hmem⟩ hlt
          omega
      rw [if_neg hx, if_neg hx]
      by_cases hfull : max ≤ l.length
      · rw [if_pos hfull, if_pos (hfull.trans hn), addUsers_of_full hfull]
        refine iff_of_true rfl ⟨fun _ _ hlt => ?_, fun before t behind _ _ _ hlt => ?_⟩
        · omega
        · omega
      rw [if_neg hfull]
      by_cases hcount : max ≤ n
      · rw [if_pos hcount]
        refine iff_of_false (fun h => ?_) fun h => ?_
        · have hlen := congrArg List.length h
          have hle : (x :: l).length ≤ (addUsers max rest (x :: l)).length := length_le_addUsers
          rw [List.length_cons] at hle
          omega
        · have hlt := h.1 hx (List.not_mem_nil) (by simpa using hfull)
          rw [List.length_nil] at hlt
          omega
      · rw [if_neg hcount, ih (by rw [List.length_cons]; omega)]
        simp only [card_sdiff_cons_of_not_mem hx, List.length_cons, List.mem_cons, not_or]
        constructor
        · intro h
          refine ⟨fun _ _ _ => by rw [List.length_nil]; omega,
            fun before t behind heq ht hmem hlt => ?_⟩
          have := h before t behind heq ⟨hmem.1, ht⟩ hmem.2 (by omega)
          omega
        · rintro ⟨-, h⟩ before t behind heq ht hmem hlt
          have := h before t behind heq ht.2 ⟨ht.1, hmem⟩ (by omega)
          omega

end Counting

section Buffers

variable {s : AcceptNet} {names : List Str}

theorem not_mem_of_mem_splitOn {x : Char} {t w : Str} (hw : w ∈ t.splitOn x) : x ∉ w := by
  induction t generalizing w with
  | nil =>
      rw [List.splitOn_nil, List.mem_singleton] at hw
      simp [hw]
  | cons c t ih =>
      rw [List.splitOn_eq_splitOnP, List.splitOnP_cons_eq_if_modifyHead,
        ← List.splitOn_eq_splitOnP] at hw
      cases hsplit : t.splitOn x with
      | nil =>
          rw [List.splitOn_eq_splitOnP] at hsplit
          exact absurd hsplit (List.splitOnP_ne_nil _ _)
      | cons v vs =>
          rw [hsplit] at hw ih
          split at hw
          · rcases List.mem_cons.mp hw with rfl | hw
            · exact List.not_mem_nil
            · exact ih hw
          · next hc =>
              rw [List.modifyHead_cons, List.mem_cons] at hw
              rcases hw with rfl | hw
              · have hne : x ≠ c := fun h => hc (by simp [h])
                simpa [hne] using ih List.mem_cons_self
              · exact ih (List.mem_cons_of_mem v hw)

/-- The places that some names take with a comma behind each. -/
def taken (names : List Str) : ℕ := (names.map fun n => n.length + 1).sum

theorem taken_splitOn (t : Str) : taken (t.splitOn ',') = t.length + 1 := by
  have hne : t.splitOn ',' ≠ [] := by
    rw [List.splitOn_eq_splitOnP]
    exact List.splitOnP_ne_nil _ _
  have hjoin := dropLast_flatMap_append ',' (t.splitOn ',')
  rw [List.intercalate_splitOn] at hjoin
  have hlen := congrArg List.length hjoin
  obtain ⟨v, vs, hsplit⟩ := List.exists_cons_of_ne_nil hne
  have htaken : ((t.splitOn ',').flatMap (· ++ [','])).length = taken (t.splitOn ',') := by
    rw [List.length_flatMap, taken]
    simp
  have hpos : 0 < taken (t.splitOn ',') := by
    rw [hsplit, taken, List.map_cons, List.sum_cons]
    omega
  rw [List.length_dropLast, htaken] at hlen
  omega

theorem taken_commaTokens_le (t : Str) : taken (commaTokens t) ≤ t.length + 1 := by
  rw [← taken_splitOn t, commaTokens]
  generalize t.splitOn ',' = l
  induction l with
  | nil => exact le_rfl
  | cons w l ih =>
      rw [List.filter_cons]
      split
      · rw [taken, taken, List.map_cons, List.map_cons, List.sum_cons, List.sum_cons]
        exact Nat.add_le_add_left ih _
      · rw [taken, taken, List.map_cons, List.sum_cons]
        exact ih.trans (Nat.le_add_left _ _)

theorem length_signedNick_le (token : Str) : (signedNick token).2.length ≤ token.length := by
  unfold signedNick
  split <;> simp

theorem taken_existing_le (neg : Bool) (tokens : List Str) :
    taken (s.existing neg tokens) ≤ taken tokens := by
  induction tokens with
  | nil => exact le_rfl
  | cons t tokens ih =>
      have hlen := length_signedNick_le t
      rw [existing] at ih ⊢
      rw [List.filter_cons]
      split
      · simp only [taken, List.map_cons, List.sum_cons] at ih ⊢
        omega
      · simp only [taken, List.map_cons, List.sum_cons] at ih ⊢
        omega

theorem mem_existing {neg : Bool} {nicks n : Str} (h : n ∈ s.existing neg (commaTokens nicks)) :
    (s.findClient n).isSome ∧ n ≠ [] ∧ ',' ∉ n := by
  obtain ⟨t, ht, rfl⟩ := List.mem_map.mp h
  obtain ⟨hmem, hcond⟩ := List.mem_filter.mp ht
  have hsome : (s.findClient (signedNick t).2).isSome := (by simpa using hcond : _ ∧ _).2
  refine ⟨hsome, fun h0 => ?_, fun hcomma => ?_⟩
  · rw [h0] at hsome
    have hnone : s.findClient [] = none := by
      rw [findClient, Option.map_eq_none_iff, List.find?_eq_none]
      intro u _
      simpa [irccmp] using u.2.property.1
    rw [hnone] at hsome
    cases hsome
  · refine not_mem_of_mem_splitOn (List.mem_of_mem_filter hmem) ?_
    revert hcomma
    unfold signedNick
    split <;> simp +contextual

/-- A name that fits goes behind a comma. -/
theorem catNick_eq {name : Str} (hnames : ∀ n ∈ names, n ≠ [])
    (hlen : taken names + name.length < IRCD_BUFSIZE) :
    catNick (names.flatMap (· ++ [','])).dropLast name = names.flatMap (· ++ [',']) ++ name := by
  have htaken : (names.flatMap (· ++ [','])).length = taken names := by
    rw [List.length_flatMap, taken]
    simp
  have hfits (buf t : Str) (h : buf.length + t.length < IRCD_BUFSIZE) :
      strlcat buf t = buf ++ t := by
    rw [strlcat, if_neg (by omega), List.take_of_length_le (by rw [List.length_append]; omega)]
  rcases List.eq_nil_or_concat' names with rfl | ⟨init, last, rfl⟩
  · exact hfits [] name (by simpa [taken] using hlen)
  · obtain ⟨v, hv⟩ : ∃ v, init.flatMap (· ++ [',']) ++ last = v := ⟨_, rfl⟩
    have hw : (init ++ [last]).flatMap (· ++ [',']) = v ++ [','] := by simp [← hv]
    have hne : v ≠ [] := hv ▸ List.append_ne_nil_of_right_ne_nil _ (hnames last (by simp))
    rw [hw, List.length_append, List.length_singleton] at htaken
    rw [hw, List.dropLast_concat, catNick, if_neg hne, hfits v [','] (by simp; omega),
      hfits _ name (by simp; omega)]

/-- The buffer holds all names, with commas between them. -/
theorem foldl_catNick (hnames : ∀ n ∈ names, n ≠ []) (hlen : taken names ≤ IRCD_BUFSIZE) :
    names.foldl catNick [] = (names.flatMap (· ++ [','])).dropLast := by
  induction names using List.reverseRecOn with
  | nil => rfl
  | append_singleton names n ih =>
      have hsum : taken (names ++ [n]) = taken names + (n.length + 1) := by simp [taken]
      have hinit : ∀ m ∈ names, m ≠ [] := fun m hm => hnames m (List.mem_append_left _ hm)
      rw [List.foldl_concat, ih hinit (by omega), catNick_eq hinit (by omega)]
      simp [← List.append_assoc]

theorem commaTokens_foldl_catNick (hnames : ∀ n ∈ names, n ≠ [] ∧ ',' ∉ n)
    (hlen : taken names ≤ IRCD_BUFSIZE) : commaTokens (names.foldl catNick []) = names := by
  rw [foldl_catNick (fun n hn => (hnames n hn).1) hlen, dropLast_flatMap_append]
  by_cases hne : names = []
  · subst hne
    rfl
  · rw [commaTokens, List.splitOn_intercalate ',' (fun n hn => (hnames n hn).2) hne]
    exact List.filter_eq_self.mpr fun n hn => by simpa using (hnames n hn).1

theorem buildNicklist_eq (s : AcceptNet) (nicks : Str) :
    (s.buildNicklist nicks).addbuf = (s.existing false (commaTokens nicks)).foldl catNick [] ∧
      (s.buildNicklist nicks).delbuf = (s.existing true (commaTokens nicks)).foldl catNick [] := by
  have hfold (tokens : List Str) (b : NickBufs) :
      (tokens.foldl s.buildNick b).addbuf = (s.existing false tokens).foldl catNick b.addbuf ∧
        (tokens.foldl s.buildNick b).delbuf = (s.existing true tokens).foldl catNick b.delbuf := by
    induction tokens generalizing b with
    | nil => exact ⟨rfl, rfl⟩
    | cons t tokens ih =>
        rw [List.foldl_cons, (ih _).1, (ih _).2, existing, existing, existing, existing,
          List.filter_cons, List.filter_cons]
        cases hfind : s.findClient (signedNick t).2 <;> cases hneg : (signedNick t).1 <;>
          simp [buildNick, hfind, hneg]
  exact hfold _ _

end Buffers

section Lines

variable {cfg : AcceptConf} {s : AcceptNet}

theorem length_name_lt (s : AcceptNet) (a : ℕ) : (s.name a).length < NICKLEN := by
  rw [name]
  cases s.users.find? (·.1 = a) with
  | none => decide
  | some u => exact u.2.property.2

/-- The loop fills lines whose start is the header. -/
theorem listLoop_eq_fill {len : ℕ} {header : Str} (hlen : len = header.length + 4) {nicks : Str}
    (hne : nicks ≠ []) (rest : List Str) : listLoop len header nicks rest =
      some (Packing.fill header ' ' id (fun w => w.length + 2) (IRCD_BUFSIZE - 2)
        (header ++ nicks) rest) := by
  induction rest generalizing nicks with
  | nil => rw [listLoop, if_neg hne, Packing.fill, List.dropLast_append_of_ne_nil hne]
  | cons target rest ih =>
      have hword : target ++ [' '] ≠ [] := List.append_ne_nil_of_right_ne_nil _ (by simp)
      have hiff : IRCD_BUFSIZE < nicks.length + target.length + len ↔
          IRCD_BUFSIZE - 2 < (header ++ nicks).length + (target.length + 2) := by
        rw [List.length_append]
        omega
      rw [listLoop, Packing.fill]
      split
      · next hfull =>
          rw [ih hword, if_pos (hiff.mp hfull), List.dropLast_append_of_ne_nil hne]
          rfl
      · next hroom =>
          rw [ih (List.append_ne_nil_of_left_ne_nil hne _), if_neg (hiff.not.mp hroom),
            List.append_assoc]
          rfl

/-- The lines hold the names of the list in order, and none is too long. -/
theorem listAccepts_spec (cfg : AcceptConf) (s : AcceptNet) (source : ℕ) :
    ∃ groups : List (List ℕ), groups.flatten = s.allowList source ∧ (∀ g ∈ groups, g ≠ []) ∧
      s.listAccepts cfg source = some (groups.map fun g =>
        s.acceptHeader cfg source ++ List.intercalate [' '] (g.map s.name)) ∧
      ∀ g ∈ groups, (s.acceptHeader cfg source ++
        List.intercalate [' '] (g.map s.name)).length ≤ IRCD_BUFSIZE - 2 := by
  have hme : cfg.me.length ≤ 63 := cfg.me_le
  have hname (a : ℕ) : (s.name a).length < 31 := length_name_lt s a
  have hsource := hname source
  have hbuf : IRCD_BUFSIZE = 512 := rfl
  have hheader : (s.acceptHeader cfg source).length =
      cfg.me.length + (s.name source).length + 8 := by
    simp [acceptHeader]
    omega
  rw [listAccepts]
  cases hlist : s.allowList source with
  | nil => exact ⟨[], rfl, by simp, rfl, by simp⟩
  | cons a rest =>
      have ha := hname a
      have hroom : ∀ b ∈ a :: rest, (s.name b).length + 1 ≤ (s.name b).length + 2 ∧
          (s.acceptHeader cfg source).length + ((s.name b).length + 2) ≤ IRCD_BUFSIZE - 2 :=
        fun b _ => by
          have hb := hname b
          omega
      obtain ⟨groups, hflat, hgroups, hshort, hfill⟩ := @Packing.exists_groups_fill _ _
        (s.acceptHeader cfg source) ' ' s.name _ _ a rest hroom
      refine ⟨groups, hflat, hgroups, ?_, fun g hg => (hshort g hg).le⟩
      rw [List.map_cons, listLoop, if_neg (by rw [List.length_nil]; omega), List.nil_append,
        listLoop_eq_fill (by omega) (List.append_ne_nil_of_right_ne_nil _ (by simp)),
        Packing.fill_map]
      exact congrArg some hfill

end Lines

section Command

variable {cfg : AcceptConf} {s s' : AcceptNet} (source : ℕ) {names : List Str}

theorem findClient_congr (h : s'.users = s.users) (nick : Str) :
    s'.findClient nick = s.findClient nick := by rw [findClient, findClient, h]

theorem filter_not_mem_cons (a : ℕ) (as l : List ℕ) :
    l.filter (· ∉ a :: as) = (l.filter (· ≠ a)).filter (· ∉ as) := by
  rw [List.filter_filter]
  refine List.filter_congr fun b _ => ?_
  by_cases hb : b = a <;> simp [hb]

theorem erase_eq_filter_ne {a : ℕ} {l : List ℕ} (hl : l.Nodup) : l.erase a = l.filter (· ≠ a) := by
  rw [hl.erase_eq_filter]
  refine List.filter_congr fun b _ => ?_
  by_cases hb : b = a <;> simp [hb]

theorem deleteLoop_spec (h : s.Sound cfg) (hfind : ∀ n ∈ names, (s.findClient n).isSome)
    (replies : List AcceptReply) :
    (deleteLoop source names (s, replies)).1.Sound cfg ∧
      (deleteLoop source names (s, replies)).1.users = s.users ∧
      (deleteLoop source names (s, replies)).1.allowList source =
        (s.allowList source).filter (· ∉ names.filterMap s.findClient) ∧
      ∀ t, t ≠ source → (deleteLoop source names (s, replies)).1.allowList t = s.allowList t := by
  induction names generalizing s replies with
  | nil => exact ⟨h, rfl, by simp [deleteLoop], fun _ _ => rfl⟩
  | cons n names ih =>
      obtain ⟨target, htarget⟩ := Option.isSome_iff_exists.mp (hfind n List.mem_cons_self)
      have hrest : ∀ m ∈ names, (s.findClient m).isSome := fun m hm =>
        hfind m (List.mem_cons_of_mem n hm)
      have husers := users_delFromAccept s target source
      simp only [deleteLoop, htarget, List.filterMap_cons, filter_not_mem_cons]
      split
      · obtain ⟨hsound, husers', hlist, hothers⟩ := ih (h.delFromAccept target source)
          (fun m hm => by rw [findClient_congr husers]; exact hrest m hm) replies
        refine ⟨hsound, husers'.trans husers, ?_, fun t ht => ?_⟩
        · rw [hlist, h.allowList_delFromAccept, RefCount.drop_self,
            erase_eq_filter_ne (h.nodup source)]
          simp only [findClient_congr husers]
        · rw [hothers t ht, h.allowList_delFromAccept, RefCount.drop_of_ne ht]
      · next hnot =>
          have hmem : target ∉ s.allowList source := by simpa [acceptMessage] using hnot
          rw [← erase_eq_filter_ne (h.nodup source), List.erase_of_not_mem hmem]
          exact ih h hrest _

theorem addLoop_spec (h : s.Sound cfg) (hfind : ∀ n ∈ names, (s.findClient n).isSome) {n : ℕ}
    (hn : (s.allowList source).length ≤ n) (replies : List AcceptReply) :
    ∃ s' replies', addLoop cfg source names n (s, replies) = some (s', replies') ∧ s'.Sound cfg ∧
      s'.allowList source =
        countedUsers cfg.max_accept (names.filterMap s.findClient) n (s.allowList source) ∧
      ∀ t, t ≠ source → s'.allowList t = s.allowList t := by
  induction names generalizing s replies n with
  | nil => exact ⟨s, replies, rfl, h, rfl, fun _ _ => rfl⟩
  | cons m names ih =>
      obtain ⟨target, htarget⟩ := Option.isSome_iff_exists.mp (hfind m List.mem_cons_self)
      have hrest : ∀ m ∈ names, (s.findClient m).isSome := fun m' hm =>
        hfind m' (List.mem_cons_of_mem m hm)
      have hiff : s.acceptMessage target source = true ↔ target ∈ s.allowList source := by
        simp [acceptMessage]
      simp only [addLoop, htarget, List.filterMap_cons, countedUsers, hiff]
      by_cases hmem : target ∈ s.allowList source
      · rw [if_pos hmem, if_pos hmem]
        exact ih h hrest (by omega) _
      rw [if_neg hmem, if_neg hmem]
      by_cases hfull : cfg.max_accept ≤ n
      · rw [if_pos hfull, if_pos hfull]
        exact ⟨s, _, rfl, h, rfl, fun _ _ => rfl⟩
      · have hsound := h.addAccept hmem (by omega)
        have hself : (s.addAccept source target).allowList source = target :: s.allowList source :=
          RefCount.hold_self
        obtain ⟨groups, -, -, hlines, -⟩ := listAccepts_spec cfg (s.addAccept source target) source
        obtain ⟨s', replies', hrun, hsound', hlist, hothers⟩ := ih (n := n + 1) hsound hrest
          (by rw [hself, List.length_cons]; omega) (replies ++ [.acceptList _])
        rw [if_neg hfull, if_neg hfull, hlines]
        refine ⟨s', replies', hrun, hsound', by rw [hlist, hself]; rfl, fun t ht => ?_⟩
        exact (hothers t ht).trans (RefCount.hold_of_ne ht)

/-- What a command with names does: it takes those with the sign off, and adds by the count. -/
theorem mAccept_spec (h : s.Sound cfg) {nicks : Str}
    (hlen : nicks.length < IRCD_BUFSIZE) : ∃ s' replies,
      s.mAccept cfg source (some nicks) = some (s', replies) ∧ s'.Sound cfg ∧
      s'.allowList source = countedUsers cfg.max_accept (s.namedUsers false nicks)
        ((s.allowList source).filter (· ∉ s.namedUsers true nicks)).length
        ((s.allowList source).filter (· ∉ s.namedUsers true nicks)) ∧
      ∀ t, t ≠ source → s'.allowList t = s.allowList t := by
  by_cases hstar : nicks.head? = some '*'
  · obtain ⟨groups, -, -, hlines, -⟩ := listAccepts_spec cfg s source
    refine ⟨s, _, by rw [mAccept, if_pos hstar, hlines]; rfl, h, ?_, fun _ _ => rfl⟩
    simp [namedUsers, hstar, countedUsers]
  have htaken := taken_commaTokens_le nicks
  have hnames (neg : Bool) : commaTokens ((s.existing neg (commaTokens nicks)).foldl catNick []) =
      s.existing neg (commaTokens nicks) :=
    commaTokens_foldl_catNick (fun n hn => (mem_existing hn).2)
      ((taken_existing_le neg _).trans (htaken.trans hlen))
  have hfind (neg : Bool) : ∀ n ∈ s.existing neg (commaTokens nicks), (s.findClient n).isSome :=
    fun n hn => (mem_existing hn).1
  obtain ⟨hadd, hdel⟩ := buildNicklist_eq s nicks
  obtain ⟨hsound, husers, hlist, hothers⟩ := deleteLoop_spec source h (hfind true)
    (s.buildNicklist nicks).replies
  obtain ⟨s', replies, hrun, hsound', hlist', hothers'⟩ := addLoop_spec source hsound
    (fun n hn => by rw [findClient_congr husers]; exact hfind false n hn) le_rfl _
  refine ⟨s', replies, ?_, hsound', ?_, fun t ht => (hothers' t ht).trans (hothers t ht)⟩
  · rw [mAccept, if_neg hstar]
    simp only [hadd, hdel, hnames]
    exact hrun
  · rw [hlist', hlist]
    simp only [findClient_congr husers, namedUsers, if_neg hstar]

/-- A command is obeyed exactly when the names in front of new users leave room for them. -/
theorem mAccept_obeyed_iff (h : s.Sound cfg) {nicks : Str}
    (hlen : nicks.length < IRCD_BUFSIZE) : ∃ s' replies,
      s.mAccept cfg source (some nicks) = some (s', replies) ∧
      (s.Obeyed cfg source nicks s' ↔ Roomy cfg.max_accept
        ((s.allowList source).filter (· ∉ s.namedUsers true nicks))
        (s.namedUsers false nicks)) := by
  obtain ⟨s', replies, hrun, -, hlist, hothers⟩ := mAccept_spec source h hlen
  refine ⟨s', replies, hrun, ?_⟩
  rw [Obeyed, hlist, countedUsers_eq_iff le_rfl, Roomy]
  exact and_iff_left hothers

end Command

/-- Every event keeps the lists sound, and no walk meets a node that was freed. -/
theorem Sound.step {cfg : AcceptConf} {s : AcceptNet} (h : s.Sound cfg) (e : AcceptEvent) :
    ∃ s', s.step cfg e = some s' ∧ s'.Sound cfg := by
  cases e with
  | accept source parv1 =>
      cases parv1 with
      | none =>
          obtain ⟨groups, -, -, hlines, -⟩ := listAccepts_spec cfg s source
          exact ⟨s, by rw [AcceptNet.step, Option.map_none, mAccept, hlines]; rfl, h⟩
      | some nicks =>
          obtain ⟨s', replies, hrun, hsound, -⟩ := mAccept_spec source h nicks.2
          exact ⟨s', by rw [AcceptNet.step, Option.map_some, hrun]; rfl, hsound⟩
  | connect a nick => exact ⟨_, rfl, h.users _⟩
  | localNick a nick =>
      rw [AcceptNet.step]
      split
      · obtain ⟨s', hs', hwalk⟩ := h.delAllTheirAccepts a
        exact ⟨_, by rw [hs']; rfl, hwalk.sound.users _⟩
      · exact ⟨_, rfl, h.users _⟩
  | servicesNick a nick =>
      obtain ⟨s', hs', hwalk⟩ := h.delAllTheirAccepts a
      exact ⟨_, by rw [AcceptNet.step, hs']; rfl, hwalk.sound.users _⟩
  | remoteNick a parv0 nick =>
      rw [AcceptNet.step]
      split
      · obtain ⟨s', hs', hsound, -⟩ := h.delAllAccepts a
        exact ⟨_, by rw [hs']; rfl, hsound.users _⟩
      · exact ⟨_, rfl, h.users _⟩
  | exit a =>
      obtain ⟨s', hs', hsound, -⟩ := h.delAllAccepts a
      exact ⟨_, by rw [AcceptNet.step, hs']; rfl, hsound.users _⟩

/-- In every run the lists agree and keep to their limit, and the lines of a list hold it once and
are short enough. A command is obeyed exactly when the names in front of new users leave room. -/
theorem run_sound (cfg : AcceptConf) (es : List AcceptEvent) :
    ∃ s, run cfg es = some s ∧ s.Sound cfg ∧
      (∀ source, ∃ groups : List (List ℕ), groups.flatten = s.allowList source ∧
        s.listAccepts cfg source = some (groups.map fun g =>
          s.acceptHeader cfg source ++ List.intercalate [' '] (g.map s.name)) ∧
        ∀ g ∈ groups, (s.acceptHeader cfg source ++
          List.intercalate [' '] (g.map s.name)).length ≤ IRCD_BUFSIZE - 2) ∧
      ∀ source (nicks : LineParam), ∃ s' replies,
        s.mAccept cfg source (some nicks.val) = some (s', replies) ∧
        (s.Obeyed cfg source nicks.val s' ↔ Roomy cfg.max_accept
          ((s.allowList source).filter (· ∉ s.namedUsers true nicks.val))
          (s.namedUsers false nicks.val)) := by
  obtain ⟨s, hrun, hsound⟩ : ∃ s, run cfg es = some s ∧ s.Sound cfg := by
    rw [run]
    have hstart : empty.Sound cfg := Sound.empty
    generalize empty = s at hstart ⊢
    induction es generalizing s with
    | nil => exact ⟨s, rfl, hstart⟩
    | cons e es ih =>
        obtain ⟨s', hs', hsound⟩ := hstart.step e
        rw [List.foldlM_cons, hs']
        exact ih s' hsound
  refine ⟨s, hrun, hsound, fun source => ?_, fun source nicks =>
    mAccept_obeyed_iff source hsound nicks.2⟩
  obtain ⟨groups, hflat, -, hlines, hshort⟩ := listAccepts_spec cfg s source
  exact ⟨groups, hflat, hlines, hshort⟩

def twoAccepts : AcceptConf := ⟨"hub".toList, by decide, 2⟩

def acceptRun : List AcceptEvent :=
  [.connect 0 ⟨"carol".toList, by decide⟩, .connect 1 ⟨"alice".toList, by decide⟩,
    .connect 2 ⟨"bob".toList, by decide⟩, .accept 0 (some ⟨"alice".toList, by decide⟩)]

/-- A name that is on the list already uses up the place of a new one. -/
theorem not_forall_obeyed : ¬ ∀ es source (nicks : LineParam), ∀ s ∈ run twoAccepts es,
    ∀ r ∈ s.mAccept twoAccepts source (some nicks.val),
      s.Obeyed twoAccepts source nicks.val r.1 := fun h => by
  have hlists : ((run twoAccepts acceptRun).bind fun s =>
      (s.mAccept twoAccepts 0 (some "alice,bob".toList)).map fun r => (r.1.allowList 0,
        addUsers 2 (s.namedUsers false "alice,bob".toList)
          ((s.allowList 0).filter (· ∉ s.namedUsers true "alice,bob".toList)))) =
      some ([1], [2, 1]) := by decide +kernel
  obtain ⟨s, hs, hmap⟩ := Option.bind_eq_some_iff.mp hlists
  obtain ⟨r, hr, hpair⟩ := Option.map_eq_some_iff.mp hmap
  obtain ⟨hleft, hright⟩ := Prod.mk.inj hpair
  have hobeyed := (h acceptRun 0 ⟨"alice,bob".toList, by decide⟩ s hs r hr).1
  have hlists : ([1] : List ℕ) = [2, 1] := hleft.symm.trans (hobeyed.trans hright)
  cases hlists

end AcceptNet

end Unirc
