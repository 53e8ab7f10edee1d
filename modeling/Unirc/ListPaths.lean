import Unirc.ChannelList
import Unirc.MatchEsc

/-!
# The two ways of a listing

A listing of plain names looks the names up, where another one walks all buckets, and both ask
`list_one_channel`, which wants a channel to match all masks. The two ways differ in a name that is
asked for more than once, and in backslashes, which the matcher reads and the search does not.
-/

namespace Unirc

/-- The text that a mask without wildcards stands for. -/
def unescape : Str → Option Str
  | [] => some []
  | ['\\'] => none
  | '\\' :: c :: m => (unescape m).map (c :: ·)
  | c :: m => (unescape m).map (c :: ·)

theorem unescape_cons {c : Char} (hc : c ≠ '\\') (m : Str) :
    unescape (c :: m) = (unescape m).map (c :: ·) := by
  rw [unescape]
  · exact fun h _ => hc h
  · exact fun d m h _ => hc h

theorem unescape_of_not_mem {m : Str} (h : '\\' ∉ m) : unescape m = some m := by
  induction m with
  | nil => rfl
  | cons c m ih =>
      rw [List.mem_cons, not_or] at h
      rw [unescape_cons (Ne.symm h.1), ih h.2]
      rfl

/-- Backslashes make the text shorter. -/
theorem length_unescape {m u : Str} (h : unescape m = some u) :
    u.length ≤ m.length ∧ ('\\' ∈ m → u.length < m.length) := by
  induction m using unescape.induct generalizing u with
  | case1 =>
      cases h
      exact ⟨le_rfl, fun h => absurd h List.not_mem_nil⟩
  | case2 => cases h
  | case3 c m ih =>
      rw [unescape, Option.map_eq_some_iff] at h
      obtain ⟨v, hv, rfl⟩ := h
      have hle := (ih hv).1
      simp only [List.length_cons]
      exact ⟨by omega, fun _ => by omega⟩
  | case4 c m hone hesc ih =>
      have hc : c ≠ '\\' := by
        rintro rfl
        cases m with
        | nil => exact hone rfl rfl
        | cons d m => exact hesc d m rfl rfl
      rw [unescape_cons hc, Option.map_eq_some_iff] at h
      obtain ⟨v, hv, rfl⟩ := h
      obtain ⟨hle, hlt⟩ := ih hv
      simp only [List.length_cons, List.mem_cons]
      refine ⟨by omega, fun hmem => ?_⟩
      have := hlt (hmem.resolve_left (Ne.symm hc))
      omega

theorem of_plain {c : Char} (hc : isMWildChar c = false) : MaskAtom.of c = .lit c := by
  simp only [isMWildChar, Bool.or_eq_false_iff, decide_eq_false_iff_not] at hc
  rw [MaskAtom.of, if_neg hc.1.2, if_neg hc.2, if_neg hc.1.1]

theorem globs_lit {c d : Char} {m : List (Option MaskAtom)} {n : Str} :
    Globs MaskAtom.escVerdict (some (.lit c) :: m) (d :: n) ↔
      toLower c = toLower d ∧ Globs MaskAtom.escVerdict m n := by
  constructor
  · rintro (_ | _ | _ | ⟨hc, ht⟩)
    exact ⟨of_decide_eq_true (Option.some.inj hc), ht⟩
  · rintro ⟨hc, ht⟩
    exact .one (congrArg some (decide_eq_true hc)) ht

theorem globs_lit_map {c : Char} {v : Option Str} {m : List (Option MaskAtom)} {n : Str}
    (ih : ∀ n : Str, Globs MaskAtom.escVerdict m n ↔
      ∃ u, v = some u ∧ u.map toLower = n.map toLower) :
    Globs MaskAtom.escVerdict (some (.lit c) :: m) n ↔
      ∃ u, v.map (c :: ·) = some u ∧ u.map toLower = n.map toLower := by
  cases n with
  | nil =>
      refine iff_of_false (fun h => by cases h) ?_
      rintro ⟨u, hu, heq⟩
      obtain ⟨w, -, rfl⟩ := Option.map_eq_some_iff.mp hu
      cases heq
  | cons d n =>
      rw [globs_lit, ih]
      constructor
      · rintro ⟨hc, u, rfl, heq⟩
        exact ⟨c :: u, rfl, by rw [List.map_cons, List.map_cons, hc, heq]⟩
      · rintro ⟨u, hu, heq⟩
        obtain ⟨w, hw, rfl⟩ := Option.map_eq_some_iff.mp hu
        rw [List.map_cons, List.map_cons, List.cons.injEq] at heq
        exact ⟨heq.1, w, hw, heq.2⟩

/-- A mask without wildcards matches its text in any case. -/
theorem globs_unescape {m n : Str} (h : ∀ c ∈ m, isMWildChar c = false) :
    Globs MaskAtom.escVerdict (escPlaces m) n ↔
      ∃ u, unescape m = some u ∧ u.map toLower = n.map toLower := by
  induction m using unescape.induct generalizing n with
  | case1 =>
      constructor
      · rintro ⟨⟩
        exact ⟨[], rfl, rfl⟩
      · rintro ⟨u, hu, heq⟩
        cases hu
        rw [List.map_eq_nil_iff.mp heq.symm]
        exact .nil
  | case2 =>
      refine iff_of_false ?_ fun ⟨u, hu, _⟩ => by cases hu
      rintro (_ | _ | _ | ⟨hc, -⟩)
      cases hc
  | case3 c m ih =>
      rw [unescape]
      refine globs_lit_map fun n => ih fun d hd => h d ?_
      exact List.mem_cons_of_mem _ (List.mem_cons_of_mem _ hd)
  | case4 c m hone hesc ih =>
      have hc : c ≠ '\\' := by
        rintro rfl
        cases m with
        | nil => exact hone rfl rfl
        | cons d m => exact hesc d m rfl rfl
      rw [unescape_cons hc, escPlaces, escAtoms_cons hc, of_plain (h c List.mem_cons_self)]
      exact globs_lit_map fun n => ih fun d hd => h d (List.mem_cons_of_mem _ hd)

theorem star_not_mem {m : Str} (h : ∀ c ∈ m, isMWildChar c = false) : .star ∉ escAtoms m := by
  induction m using unescape.induct with
  | case1 => exact List.not_mem_nil
  | case2 => simp [escAtoms]
  | case3 c m ih =>
      rw [escAtoms, List.mem_cons, not_or]
      refine ⟨fun hstar => MaskAtom.noConfusion hstar, ih fun d hd => h d ?_⟩
      exact List.mem_cons_of_mem _ (List.mem_cons_of_mem _ hd)
  | case4 c m hone hesc ih =>
      have hc : c ≠ '\\' := by
        rintro rfl
        cases m with
        | nil => exact hone rfl rfl
        | cons d m => exact hesc d m rfl rfl
      rw [escAtoms_cons hc, of_plain (h c List.mem_cons_self), List.mem_cons, not_or]
      exact ⟨fun hstar => MaskAtom.noConfusion hstar, ih fun d hd => h d (List.mem_cons_of_mem _ hd)⟩

theorem matchEsc_plain {m n : Str} (h : ∀ c ∈ m, isMWildChar c = false) :
    matchEsc m n = true ↔ ∃ u, unescape m = some u ∧ u.map toLower = n.map toLower := by
  have hno : (escPlaces m).any Option.isNone = false := by
    exact Bool.eq_false_iff.mpr fun hany => star_not_mem h (any_isNone_iff.mp hany)
  rw [matchEsc_iff, hno, Bool.and_false]
  constructor
  · rintro ⟨s, t, rfl, hs, ht⟩
    rw [ht rfl, List.append_nil]
    exact (globs_unescape h).mp hs
  · exact fun hu => GlobLoop.Accepted.of_globs ((globs_unescape h).mpr hu)

/-- The wildcards that `do_list` looks for, behind a channel prefix. -/
def isWildMask (m : Str) : Bool :=
  ListTask.Options.hasWildcards (if isChanPrefix (m.headD '\x00') then m.tail else m)

theorem matchChan_plain {m n : Str} (hchan : isChanPrefix (m.headD '\x00') = true)
    (hwild : isWildMask m = false) :
    matchChan m n = true ↔ ∃ u, unescape m = some u ∧ irccmp u n = false := by
  simp only [irccmp_eq_false_iff_lower]
  rw [isWildMask, if_pos hchan, ListTask.Options.hasWildcards, List.any_eq_false] at hwild
  cases m with
  | nil => exact absurd hchan (by decide)
  | cons p m =>
      have hplain : ∀ c ∈ m, isMWildChar c = false := fun c hc => Bool.eq_false_iff.mpr (hwild c hc)
      have hp : p = '#' ∨ p = '&' := by
        simpa [isChanPrefix] using hchan
      rcases hp with rfl | rfl
      · rw [unescape_cons (by decide)]
        by_cases hn : n.head? = some '#'
        · obtain ⟨n, rfl⟩ := List.head?_eq_some_iff.mp hn
          rw [matchChan, matchEsc_plain hplain]
          constructor
          · rintro ⟨u, hu, heq⟩
            refine ⟨'#' :: u, Option.map_eq_some_iff.mpr ⟨u, hu, rfl⟩, ?_⟩
            rw [List.map_cons, List.map_cons, heq]
          · rintro ⟨u, hu, heq⟩
            obtain ⟨w, hw, rfl⟩ := Option.map_eq_some_iff.mp hu
            exact ⟨w, hw, (List.cons.inj heq).2⟩
        · have hfalse : matchChan ('#' :: m) n = false := by
            cases n with
            | nil => rfl
            | cons d n =>
                rw [matchChan]
                intro n' heq
                exact hn (congrArg List.head? heq)
          rw [hfalse]
          refine iff_of_false Bool.false_ne_true ?_
          rintro ⟨u, hu, heq⟩
          obtain ⟨w, hw, rfl⟩ := Option.map_eq_some_iff.mp hu
          cases n with
          | nil => cases heq
          | cons d n =>
              have hd := (List.cons.inj heq).1.symm
              rw [show toLower '#' = '#' by decide, toLower_eq_iff_of_lt (by decide)] at hd
              exact hn (congrArg some hd)
      · have hall : ∀ c ∈ '&' :: m, isMWildChar c = false := by
          intro c hc
          rcases List.mem_cons.mp hc with rfl | hc
          · decide
          · exact hplain c hc
        have hne (t : Str) : '&' :: m ≠ '#' :: t := fun h =>
          absurd (List.cons.inj h).1 (by decide)
        have heq : matchChan ('&' :: m) n = matchEsc ('&' :: m) n := by
          rw [matchChan]
          · exact fun t h => hne t h
          · exact fun t _ h => absurd h (hne t)
        rw [heq, matchEsc_plain hall]

namespace ListTask.Options

/-- Without an error, the masks to show are wild or begin with a channel prefix, and there are
wild ones if `no_masked_channels` is not set. -/
structure MasksRead (o : Options) : Prop where
  chan : ∀ m ∈ o.lt.showMask, isWildMask m = false → isChanPrefix (m.headD '\x00') = true
  plain : o.noMaskedChannels = true ↔ ∀ m ∈ o.lt.showMask, isWildMask m = false

theorem MasksRead.congr {o o' : Options} (h : o.MasksRead)
    (hshow : o'.lt.showMask = o.lt.showMask) (hmasked : o'.noMaskedChannels = o.noMaskedChannels) :
    o'.MasksRead := by
  refine ⟨?_, ?_⟩
  · rw [hshow]
    exact h.chan
  · rw [hshow, hmasked]
    exact h.plain

theorem MasksRead.minutes {o : Options} (h : o.errors = false → o.MasksRead) (now : ℤ) (s : Str)
    {set : ℕ → ListTask} (hset : ∀ t, (set t).showMask = o.lt.showMask) :
    (o.minutes now s set).errors = false → (o.minutes now s set).MasksRead := by
  rw [Options.minutes]
  split
  · exact fun herrors => (h herrors).congr (hset _) rfl
  · exact fun herrors => Bool.noConfusion herrors

/-- A mask is added to those to show. -/
theorem MasksRead.cons {o o' : Options} (h : o.MasksRead) {opt : Str}
    (hchan : isWildMask opt = false → isChanPrefix (opt.headD '\x00') = true)
    (hshow : o'.lt.showMask = opt :: o.lt.showMask)
    (hmasked : o'.noMaskedChannels = (o.noMaskedChannels && !isWildMask opt)) : o'.MasksRead := by
  refine ⟨fun m hm hwild => ?_, ?_⟩
  · rw [hshow] at hm
    rcases List.mem_cons.mp hm with rfl | hm
    · exact hchan hwild
    · exact h.chan m hm hwild
  · rw [hshow, hmasked, Bool.and_eq_true, h.plain, Bool.not_eq_true', List.forall_mem_cons,
      and_comm]

theorem MasksRead.mask {o : Options} (h : o.errors = false → o.MasksRead) (hide : Bool)
    (opt : Str) : (o.mask hide opt).errors = false → (o.mask hide opt).MasksRead := by
  have hmask : o.mask hide opt =
      let o' := if isWildMask opt then { o with noMaskedChannels := o.noMaskedChannels && hide }
        else if isChanPrefix (opt.headD '\x00') then o else o.fail
      if o'.errors then o'
      else if hide then { o' with lt := { o'.lt with hideMask := opt :: o'.lt.hideMask } }
      else { o' with lt := { o'.lt with showMask := opt :: o'.lt.showMask } } := rfl
  rw [hmask]
  dsimp only
  by_cases hwild : isWildMask opt = true
  · rw [if_pos hwild]
    cases herr : o.errors with
    | true =>
        rw [if_pos rfl]
        intro herrors
        cases herrors
    | false =>
        rw [if_neg Bool.false_ne_true]
        intro _
        cases hide with
        | true => exact (h herr).congr rfl (Bool.and_true _)
        | false =>
            refine (h herr).cons (fun hplain => ?_) rfl ?_
            · rw [hwild] at hplain
              cases hplain
            · rw [hwild]
              rfl
  · rw [if_neg hwild]
    by_cases hchan : isChanPrefix (opt.headD '\x00') = true
    · rw [if_pos hchan]
      cases herr : o.errors with
      | true =>
          rw [if_pos rfl]
          intro herrors
          exact absurd (herr.symm.trans herrors) (by decide)
      | false =>
          rw [if_neg Bool.false_ne_true]
          intro _
          cases hide with
          | true => exact (h herr).congr rfl rfl
          | false =>
              refine (h herr).cons (fun _ => hchan) rfl ?_
              rw [Bool.eq_false_iff.mpr hwild]
              exact (Bool.and_true _).symm
    · rw [if_neg hchan]
      intro herrors
      cases herrors

theorem MasksRead.read {o : Options} (h : o.errors = false → o.MasksRead) (now : ℤ) (opt : Str) :
    (o.read now opt).errors = false → (o.read now opt).MasksRead := by
  fun_cases Options.read <;>
    first
      | exact fun herrors => (h herrors).congr rfl rfl
      | (intro herrors; cases herrors)
      | exact MasksRead.minutes h _ _ fun _ => rfl
      | exact MasksRead.mask h _ _

end ListTask.Options

theorem masksRead_options {now : ℤ} {parv1 : Option Str}
    (h : (ListTask.options now parv1).errors = false) : (ListTask.options now parv1).MasksRead := by
  have hfold (opts : List Str) (o : ListTask.Options) (ho : o.errors = false → o.MasksRead) :
      (opts.foldl (ListTask.Options.read now) o).errors = false →
        (opts.foldl (ListTask.Options.read now) o).MasksRead := by
    induction opts generalizing o with
    | nil => exact ho
    | cons opt opts ih => exact ih _ (ListTask.Options.MasksRead.read ho now opt)
  refine hfold _ _ (fun _ => ⟨?_, ?_⟩) h
  · exact fun m hm => absurd hm List.not_mem_nil
  · exact iff_of_true rfl fun m hm => absurd hm List.not_mem_nil

/-- What is left of a list where only one element gives something. -/
theorem filterMap_eq_replicate {α γ : Type*} [DecidableEq α] {f : α → Option γ} {c : α} {r : γ}
    (hc : f c = some r) {l : List α} (h : ∀ d ∈ l, d ≠ c → f d = none) :
    l.filterMap f = List.replicate (l.count c) r := by
  induction l with
  | nil => rfl
  | cons d l ih =>
      have hrest := ih fun e he => h e (List.mem_cons_of_mem d he)
      by_cases hd : d = c
      · subst hd
        rw [List.filterMap_cons_some hc, hrest, List.count_cons_self, List.replicate_succ]
      · rw [List.filterMap_cons_none (h d List.mem_cons_self hd), hrest,
          List.count_cons_of_ne hd]

namespace ChannelLists

variable {β : Type*} [DecidableEq β] [Fintype β] {randomKey : U32} {s : ChannelLists β}
  {call : ListCall β} {lt : ListTask}

/-- The chains hold the channels, and no two of them have one name. -/
structure NamedOnce (randomKey : U32) (s : ChannelLists β) : Prop where
  filed : s.Filed randomKey
  once : ∀ c ∈ s.inChannels, ∀ d ∈ s.inChannels,
    irccmp (s.table.name c) (s.table.name d) = false → c = d

/-- A listing that no send queue holds up. -/
def unhindered (call : ListCall β) : ListCall β := { call with exceedingSendq := fun _ => false }

/-- What a listing says of a channel. -/
def listed (call : ListCall β) (lt : ListTask) (s : ChannelLists β) (c : β) : Option ListReply :=
  listOneChannel call.netAdmin s.remote lt (s.table.name c) (call.view c)

/-- The replies to the options `o`, by looking up the names if `do_list` does that, are those of the
walk over all buckets. -/
def SameReplies (randomKey : U32) (call : ListCall β) (s : ChannelLists β)
    (o : ListTask.Options) : Prop :=
  ∃ s₁ s₂, safeListChannels randomKey (unhindered call) s o.lt o.onlyUnmasked = some s₁ ∧
    safeListChannels randomKey (unhindered call) s o.lt false = some s₂ ∧
      s₁.replies.Perm s₂.replies

variable (call lt) in
omit [DecidableEq β] in
/-- All channels, bucket by bucket. -/
theorem bucketsLoop_replies {lists : ℕ → List β}
    (hfiles : s.table.Files randomKey s.inChannels lists) (n i : ℕ) :
    ∃ s', bucketsLoop (unhindered call) lt n i s = some (s', none) ∧
      s'.replies = s.replies ++ ((List.range' i n).flatMap lists).filterMap (listed call lt s) := by
  induction n generalizing s i with
  | zero => exact ⟨s, rfl, (List.append_nil _).symm⟩
  | succ n ih =>
      have hchain := hfiles.filed.chain i
      obtain ⟨s', hloop, hreplies⟩ := ih (s := { s.examine (unhindered call) lt (lists i) with
        walked := s.walked ++ [i] }) hfiles (i + 1)
      have hfree : ¬(unhindered call).exceedingSendq i = true := Bool.false_ne_true
      rw [bucketsLoop, if_neg hfree, bucketLoop_eq hchain hchain.length_le]
      refine ⟨s', hloop, ?_⟩
      rw [hreplies, List.range'_succ, List.flatMap_cons, List.filterMap_append,
        ← List.append_assoc]
      rfl

omit [Fintype β] in
theorem count_buckets {lists : ℕ → List β} (hfiles : s.table.Files randomKey s.inChannels lists)
    {c : β} (hc : c ∈ s.inChannels) : ((List.range' 0 HASHSIZE).flatMap lists).count c = 1 := by
  refine List.count_eq_one_of_mem ?_ ?_
  · rw [List.nodup_flatMap]
    refine ⟨fun i _ => (hfiles.filed.chain i).nodup, List.Pairwise.imp ?_ List.nodup_range'⟩
    exact fun hij d hi hj => hij (hfiles.filed.disjoint hi hj)
  · refine List.mem_flatMap.mpr ⟨strhash randomKey (s.table.name c), ?_, ?_⟩
    · rw [List.mem_range'_1]
      exact ⟨Nat.zero_le _, (strhash_lt randomKey _).trans_eq (Nat.zero_add _).symm⟩
    · exact (hfiles.mem _ c).mpr ⟨hc, rfl⟩

omit [DecidableEq β] [Fintype β] in
theorem mem_buckets {lists : ℕ → List β} (hfiles : s.table.Files randomKey s.inChannels lists)
    {d : β} (hd : d ∈ (List.range' 0 HASHSIZE).flatMap lists) : d ∈ s.inChannels := by
  obtain ⟨i, -, hi⟩ := List.mem_flatMap.mp hd
  exact ((hfiles.mem i d).mp hi).1

omit [DecidableEq β] [Fintype β] in
/-- A channel that is listed matches all masks. -/
theorem matchChan_of_listed {c : β} (h : listed call lt s c ≠ none) {m : Str}
    (hm : m ∈ lt.showMask) : matchChan m (s.table.name c) = true := by
  by_contra hno
  refine h ?_
  have hallow : listAllowChannel (s.table.name c) lt = false := by
    rw [listAllowChannel, Bool.and_eq_false_iff, List.all_eq_false]
    exact Or.inl ⟨m, hm, hno⟩
  rw [listed, listOneChannel, hallow]
  split_ifs <;> first | rfl | contradiction

omit [DecidableEq β] [Fintype β] in
/-- With plain masks at most one channel is listed. -/
theorem NamedOnce.listed_unique (h : s.NamedOnce randomKey) {m : Str} (hm : m ∈ lt.showMask)
    (hchan : isChanPrefix (m.headD '\x00') = true) (hwild : isWildMask m = false) {c d : β}
    (hc : c ∈ s.inChannels) (hd : d ∈ s.inChannels) (hlc : listed call lt s c ≠ none)
    (hld : listed call lt s d ≠ none) : d = c := by
  obtain ⟨u, hu, hcmp⟩ := (matchChan_plain hchan hwild).mp (matchChan_of_listed hlc hm)
  obtain ⟨v, hv, hcmp'⟩ := (matchChan_plain hchan hwild).mp (matchChan_of_listed hld hm)
  obtain rfl := Option.some.inj (hu.symm.trans hv)
  refine h.once d hd c hc ?_
  rw [irccmp_eq_false_iff] at hcmp hcmp' ⊢
  exact hcmp'.symm.trans hcmp

omit [DecidableEq β] [Fintype β] in
/-- A mask that matches a channel finds it by name, unless it has a backslash. -/
theorem NamedOnce.found_iff (h : s.NamedOnce randomKey) {c : β} (hc : c ∈ s.inChannels) {m : Str}
    {r : Option β} (hr : s.Found m r) (hchan : isChanPrefix (m.headD '\x00') = true)
    (hwild : isWildMask m = false) (hmatch : matchChan m (s.table.name c) = true) :
    r = some c ↔ '\\' ∉ m := by
  obtain ⟨u, hu, hcmp⟩ := (matchChan_plain hchan hwild).mp hmatch
  constructor
  · rintro rfl hback
    have hlt := (length_unescape hu).2 hback
    have hlen := congrArg List.length ((irccmp_eq_false_iff _ _).mp hcmp)
    have hlen' := congrArg List.length ((irccmp_eq_false_iff _ _).mp (hr.1 c rfl).2)
    rw [List.length_map, List.length_map] at hlen hlen'
    omega
  · intro hback
    obtain rfl := Option.some.inj ((unescape_of_not_mem hback).symm.trans hu)
    cases r with
    | none => exact absurd ((hr.2 rfl c hc).symm.trans hcmp) (by decide)
    | some d =>
        obtain ⟨hd, hcmp'⟩ := hr.1 d rfl
        refine congrArg some (h.once d hd c hc ?_)
        rw [irccmp_eq_false_iff] at hcmp hcmp' ⊢
        exact hcmp'.symm.trans hcmp

omit [Fintype β] in
/-- Of the names that a listed channel matches, those without a backslash find it. -/
theorem NamedOnce.count_found (h : s.NamedOnce randomKey) {c : β} (hc : c ∈ s.inChannels)
    {names : List Str} {found : List (Option β)} (hfound : List.Forall₂ s.Found names found)
    (hplain : ∀ m ∈ names, isChanPrefix (m.headD '\x00') = true ∧ isWildMask m = false ∧
      matchChan m (s.table.name c) = true) :
    found.reduceOption.count c = names.countP ('\\' ∉ ·) := by
  induction hfound with
  | nil => rfl
  | @cons m r names found hr hfound ih =>
      obtain ⟨hchan, hwild, hmatch⟩ := hplain m List.mem_cons_self
      have hiff := h.found_iff hc hr hchan hwild hmatch
      have hrest := ih fun m hm => hplain m (List.mem_cons_of_mem _ hm)
      rw [List.countP_cons, ← hrest]
      by_cases hback : '\\' ∉ m
      · obtain rfl := hiff.mpr hback
        rw [List.reduceOption_cons_of_some, List.count_cons_self, if_pos (decide_eq_true hback)]
      · rw [if_neg (by simpa using hback), Nat.add_zero]
        cases r with
        | none => rfl
        | some d =>
            rw [List.reduceOption_cons_of_some,
              List.count_cons_of_ne fun hd => hback (hiff.mp (congrArg some hd))]

omit [DecidableEq β] [Fintype β] in
theorem mem_found {names : List Str} {found : List (Option β)}
    (hfound : List.Forall₂ s.Found names found) {d : β} (hd : d ∈ found.reduceOption) :
    d ∈ s.inChannels := by
  rw [List.reduceOption_mem_iff] at hd
  induction hfound with
  | nil => cases hd
  | cons hr hfound ih =>
      rcases List.mem_cons.mp hd with rfl | hd
      · exact (hr.1 d rfl).1
      · exact ih hd

omit [Fintype β] in
/-- The replies of a listing where the channel `c` is the one that is listed, if any. -/
theorem replies_perm_iff {t₁ t₂ : ChannelLists β} {cs₁ cs₂ : List β} {c : β} {r : ListReply}
    (hr : listed call lt s c = some r) (h₁ : ∀ d ∈ cs₁, d ≠ c → listed call lt s d = none)
    (h₂ : ∀ d ∈ cs₂, d ≠ c → listed call lt s d = none)
    (ht₁ : t₁.replies = s.replies ++ cs₁.filterMap (listed call lt s))
    (ht₂ : t₂.replies = s.replies ++ cs₂.filterMap (listed call lt s)) :
    (t₁.freeListTask.reply .listEnd).replies.Perm (t₂.freeListTask.reply .listEnd).replies ↔
      cs₁.count c = cs₂.count c := by
  have h₁' := filterMap_eq_replicate hr h₁
  have h₂' := filterMap_eq_replicate hr h₂
  change (t₁.replies ++ [ListReply.listEnd]).Perm (t₂.replies ++ [ListReply.listEnd]) ↔ _
  rw [ht₁, ht₂, h₁', h₂', List.perm_append_right_iff, List.perm_append_left_iff]
  constructor
  · intro hperm
    have hlen := hperm.length_eq
    rwa [List.length_replicate, List.length_replicate] at hlen
  · intro hcount
    rw [hcount]

variable (call) in
/-- Both ways, for plain masks of which there is at least one. -/
theorem NamedOnce.ways (h : s.NamedOnce randomKey) {o : ListTask.Options}
    (hindex : o.lt.hashIndex = 0) (honly : o.onlyUnmasked = true) :
    ∃ (s₁ s₂ : ChannelLists β) (found : List (Option β)) (cs : List β),
      List.Forall₂ s.Found o.lt.showMask found ∧
      (∀ c ∈ s.inChannels, cs.count c = 1) ∧ (∀ c ∈ cs, c ∈ s.inChannels) ∧
      s₁.replies = s.replies ++ found.reduceOption.filterMap (listed call o.lt s) ∧
      s₂.replies = s.replies ++ cs.filterMap (listed call o.lt s) ∧
      (SameReplies randomKey call s o ↔ (s₁.freeListTask.reply .listEnd).replies.Perm
        (s₂.freeListTask.reply .listEnd).replies) := by
  obtain ⟨lists, hfiles⟩ := h.filed
  obtain ⟨s₁, found, hloop, -, hfound, -, hreplies₁⟩ :=
    namesLoop_spec (unhindered call) o.lt o.lt.showMask hfiles
  obtain ⟨s₂, hscan, hreplies₂⟩ := bucketsLoop_replies call o.lt hfiles HASHSIZE 0
  have hwalk : safeListChannels randomKey (unhindered call) s o.lt false =
      some (s₂.freeListTask.reply .listEnd) := by
    rw [safeListChannels, if_neg Bool.false_ne_true, hindex, Nat.sub_zero, hscan]
    rfl
  have hfast : safeListChannels randomKey (unhindered call) s o.lt o.onlyUnmasked =
      some (s₁.freeListTask.reply .listEnd) := by
    rw [safeListChannels, honly, if_pos rfl, hloop]
    rfl
  refine ⟨s₁, s₂, found, (List.range' 0 HASHSIZE).flatMap lists, hfound,
    fun c hc => count_buckets hfiles hc, fun c hc => mem_buckets hfiles hc, hreplies₁, hreplies₂,
    ?_⟩
  constructor
  · rintro ⟨t₁, t₂, ht₁, ht₂, hperm⟩
    obtain rfl := Option.some.inj (hfast.symm.trans ht₁)
    obtain rfl := Option.some.inj (hwalk.symm.trans ht₂)
    exact hperm
  · exact fun hperm => ⟨_, _, hfast, hwalk, hperm⟩

/-- Where no channel is listed, neither way lists any. -/
theorem NamedOnce.sameReplies_of_none (h : s.NamedOnce randomKey) {o : ListTask.Options}
    (hindex : o.lt.hashIndex = 0) (honly : o.onlyUnmasked = true)
    (hnone : ∀ c ∈ s.inChannels, listed call o.lt s c = none) : SameReplies randomKey call s o := by
  obtain ⟨s₁, s₂, found, cs, hfound, -, hmem, hreplies₁, hreplies₂, hsame⟩ :=
    h.ways call hindex honly
  have h₁ : found.reduceOption.filterMap (listed call o.lt s) = [] :=
    List.filterMap_eq_nil_iff.mpr fun d hd => hnone d (mem_found hfound hd)
  have h₂ : cs.filterMap (listed call o.lt s) = [] :=
    List.filterMap_eq_nil_iff.mpr fun d hd => hnone d (hmem d hd)
  refine hsame.mpr ?_
  change (s₁.replies ++ [ListReply.listEnd]).Perm (s₂.replies ++ [ListReply.listEnd])
  rw [hreplies₁, hreplies₂, h₁, h₂]

/-- Where a channel is listed, the names without a backslash find it one after the other. -/
theorem NamedOnce.sameReplies_of_listed (h : s.NamedOnce randomKey) {o : ListTask.Options}
    (hindex : o.lt.hashIndex = 0) (honly : o.onlyUnmasked = true) (hnil : o.lt.showMask ≠ [])
    (hplain : ∀ m ∈ o.lt.showMask,
      isChanPrefix (m.headD '\x00') = true ∧ isWildMask m = false)
    {c : β} (hc : c ∈ s.inChannels) (hlisted : listed call o.lt s c ≠ none) :
    SameReplies randomKey call s o ↔ o.lt.showMask.countP ('\\' ∉ ·) = 1 := by
  obtain ⟨s₁, s₂, found, cs, hfound, hcount, hmem, hreplies₁, hreplies₂, hsame⟩ :=
    h.ways call hindex honly
  obtain ⟨r, hr⟩ := Option.ne_none_iff_exists'.mp hlisted
  obtain ⟨m, hm⟩ := List.exists_mem_of_ne_nil _ hnil
  have hother (d : β) (hd : d ∈ s.inChannels) (hne : d ≠ c) : listed call o.lt s d = none := by
    by_contra hld
    exact hne (h.listed_unique hm (hplain m hm).1 (hplain m hm).2 hc hd hlisted hld)
  have hfinds := h.count_found hc hfound fun m hm =>
    ⟨(hplain m hm).1, (hplain m hm).2, matchChan_of_listed hlisted hm⟩
  rw [hsame, replies_perm_iff hr (fun d hd => hother d (mem_found hfound hd))
    (fun d hd => hother d (hmem d hd)) hreplies₁ hreplies₂, hfinds, hcount c hc]

/-- The two ways give the same replies unless a channel is listed, and then if just one of the
masks has no backslash. -/
theorem sameReplies_iff (h : s.NamedOnce randomKey) (parv1 : Option Str)
    (herrors : (ListTask.options call.now parv1).errors = false)
    (hplain : ∀ m ∈ (ListTask.options call.now parv1).lt.showMask, isWildMask m = false) :
    SameReplies randomKey call s (ListTask.options call.now parv1) ↔
      (ListTask.options call.now parv1).lt.showMask = [] ∨
        (ListTask.options call.now parv1).lt.showMask.countP ('\\' ∉ ·) = 1 ∨
        ∀ c ∈ s.inChannels, listed call (ListTask.options call.now parv1).lt s c = none := by
  have hmasks := masksRead_options herrors
  have hindex := ListTask.hashIndex_options call.now parv1
  have honly : (ListTask.options call.now parv1).onlyUnmasked =
      decide ((ListTask.options call.now parv1).lt.showMask ≠ []) := by
    rw [ListTask.Options.onlyUnmasked, hmasks.plain.mpr hplain]
    rfl
  generalize ListTask.options call.now parv1 = o at hmasks hindex hplain honly
  by_cases hnil : o.lt.showMask = []
  · rw [decide_eq_false (not_not.mpr hnil)] at honly
    obtain ⟨lists, hfiles⟩ := h.filed
    obtain ⟨s₂, hscan, -⟩ := bucketsLoop_replies call o.lt hfiles HASHSIZE 0
    have hwalk : safeListChannels randomKey (unhindered call) s o.lt false =
        some (s₂.freeListTask.reply .listEnd) := by
      rw [safeListChannels, if_neg Bool.false_ne_true, hindex, Nat.sub_zero, hscan]
      rfl
    exact iff_of_true ⟨_, _, honly ▸ hwalk, hwalk, .refl _⟩ (Or.inl hnil)
  · rw [decide_eq_true hnil] at honly
    rw [or_iff_right hnil]
    by_cases hnone : ∀ c ∈ s.inChannels, listed call o.lt s c = none
    · exact iff_of_true (h.sameReplies_of_none hindex honly hnone) (Or.inr hnone)
    · push Not at hnone
      obtain ⟨c, hc, hlisted⟩ := hnone
      rw [h.sameReplies_of_listed hindex honly hnil
        (fun m hm => ⟨hmasks.chan m hm (hplain m hm), hplain m hm⟩) hc hlisted]
      exact (or_iff_left fun hall => hlisted (hall c hc)).symm

/-- `get_or_create_channel` adds a channel if none has its name. -/
def Fresh (s : ChannelLists β) : Event β → Prop
  | .add c => ∀ d ∈ s.inChannels, irccmp (s.table.name c) (s.table.name d) = true
  | _ => True

/-- What is done to the table keeps it in order. -/
theorem NamedOnce.step (h : s.NamedOnce randomKey) {e : Event β} (hlegal : s.Legal e)
    (hfresh : s.Fresh e) (he : e.Others) :
    ∃ s', s.step randomKey e = some s' ∧ s'.NamedOnce randomKey := by
  obtain ⟨lists, hfiles⟩ := h.filed
  cases e with
  | list => exact he.elim
  | round => exact he.elim
  | exit => exact he.elim
  | add c =>
      refine ⟨_, rfl, hfiles.add hlegal, fun a ha b hb hab => ?_⟩
      have hsym : irccmp (s.table.name b) (s.table.name a) = false := by
        rw [irccmp_eq_false_iff] at hab ⊢
        exact hab.symm
      rcases Finset.mem_insert.mp ha with rfl | hain
      · rcases Finset.mem_insert.mp hb with rfl | hbin
        · rfl
        · exact absurd ((hfresh b hbin).symm.trans hab) (by decide)
      · rcases Finset.mem_insert.mp hb with rfl | hbin
        · exact absurd ((hfresh a hain).symm.trans hsym) (by decide)
        · exact h.once a hain b hbin hab
  | del c =>
      obtain ⟨t, lists', hrun, hname, hfiles'⟩ := hfiles.del c
      rw [ChannelLists.step, hrun]
      refine ⟨_, rfl, ⟨lists', hfiles'⟩, fun a ha b hb hab => ?_⟩
      exact h.once a (Finset.mem_of_mem_erase ha) b (Finset.mem_of_mem_erase hb) (hname ▸ hab)
  | find name =>
      obtain ⟨t, r, lists', hrun, hname, hfiles', -⟩ := hfiles.find name
      rw [ChannelLists.step, hrun]
      exact ⟨_, rfl, ⟨lists', hfiles'⟩, fun a ha b hb hab => h.once a ha b hb (hname ▸ hab)⟩
  | setChname c name =>
      refine ⟨_, rfl, ⟨lists, hfiles.setName hlegal name⟩, fun a ha b hb hab => ?_⟩
      refine h.once a ha b hb ?_
      have hkept {d : β} (hd : d ∈ s.inChannels) :
          Function.update s.table.name c name d = s.table.name d :=
        Function.update_of_ne (ne_of_mem_of_not_mem hd hlegal) _ _
      change irccmp (Function.update s.table.name c name a)
        (Function.update s.table.name c name b) = false at hab
      rwa [hkept ha, hkept hb] at hab

section Example

/-- A table with the channel `#a`, and a listing of `#a,#a`. -/
def oneName : ChannelLists Unit := cleared (fun _ => ['#', 'a']) false

def twice : Option Str := some ['#', 'a', ',', '#', 'a']

theorem namedOnce_oneName : ∃ s, oneName.step 0 (.add ()) = some s ∧ s.NamedOnce 0 :=
  NamedOnce.step ⟨(settled_cleared (fun _ => ['#', 'a']) false : oneName.Settled 0).1,
    fun _ _ _ _ _ => rfl⟩ (Finset.notMem_empty ()) (fun d hd => absurd hd (Finset.notMem_empty d))
    trivial

theorem sameReplies_iff_oneName : ∃ s : ChannelLists Unit, s.NamedOnce 0 ∧
    (SameReplies 0 (quietCall Unit) s (ListTask.options (quietCall Unit).now (some ['#', 'a'])) ↔
      (ListTask.options (quietCall Unit).now (some ['#', 'a'])).lt.showMask = [] ∨
        (ListTask.options (quietCall Unit).now (some ['#', 'a'])).lt.showMask.countP
          ('\\' ∉ ·) = 1 ∨
        ∀ c ∈ s.inChannels, listed (quietCall Unit)
          (ListTask.options (quietCall Unit).now (some ['#', 'a'])).lt s c = none) := by
  obtain ⟨s, -, h⟩ := namedOnce_oneName
  exact ⟨s, h, sameReplies_iff h (some ['#', 'a']) (by decide) (by decide)⟩

/-- The channel `#a` is listed twice. -/
theorem not_forall_sameReplies : ¬∀ (s : ChannelLists Unit) (call : ListCall Unit)
    (parv1 : Option Str), s.NamedOnce 0 → (ListTask.options call.now parv1).errors = false →
    (∀ m ∈ (ListTask.options call.now parv1).lt.showMask, isWildMask m = false) →
    SameReplies 0 call s (ListTask.options call.now parv1) := by
  intro hall
  obtain ⟨s, hstep, h⟩ := namedOnce_oneName
  have hsame := hall s (quietCall Unit) twice h (by decide) (by decide)
  cases hstep
  have hlisted : listed (quietCall Unit) (ListTask.options (quietCall Unit).now twice).lt
      { oneName with table := oneName.table.add 0 (), inChannels := insert () oneName.inChannels }
      () ≠ none := by decide
  have hone := (h.sameReplies_of_listed (ListTask.hashIndex_options _ _) (by decide) (by decide)
    (by decide) (Finset.mem_insert_self () _) hlisted).mp hsame
  exact absurd hone (by decide)

end Example

end ChannelLists

end Unirc
