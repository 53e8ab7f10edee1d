import Mathlib.Algebra.Order.Group.Nat
import Mathlib.Data.Finset.Card
import Mathlib.Data.Finset.Dedup
import Unirc.Who

/-!
# WHO after WHO

As long as fewer clients are to be listed than the limit, a search lists each of them once and leaves
no marks. Where the limit ends the second loop, the marks of the clients behind it stay, and where it
ends the search of a channel, the limit is no longer there for what follows.
-/

namespace Unirc

namespace WhoScan

variable {α : Type*}

def targets (x : WhoScan α) : List α := x.replies.map WhoReply.target

end WhoScan

namespace WhoWorld

variable {α : Type*} [DecidableEq α] (w : WhoWorld α) (source : α) (mask : Option Str)
  (serverOper : Bool)

/-- A member of a channel that the asker is on. -/
def Common (t : α) : Prop := ∃ ch ∈ w.channel source, t ∈ ch.members.map Prod.fst

/-- A client that is to be listed: a visible one, or an invisible one on a common channel. -/
structure Listed (t : α) : Prop where
  mem : t ∈ w.globalClientList
  isClient : (w.client t).isClient = true
  oper : serverOper = true → (w.client t).oper = true
  seen : (w.client t).invisible = false ∧ w.masked mask true t = true ∨
    (w.client t).invisible = true ∧ w.Common source t ∧
      w.masked mask (!w.hideServers || (w.client source).oper) t = true

instance (t : α) : Decidable (w.Common source t) :=
  inferInstanceAs (Decidable (∃ ch ∈ w.channel source, t ∈ ch.members.map Prod.fst))

instance (t : α) : Decidable (w.Listed source mask serverOper t) :=
  decidable_of_iff
    (t ∈ w.globalClientList ∧ (w.client t).isClient = true ∧
      (serverOper = true → (w.client t).oper = true) ∧
      ((w.client t).invisible = false ∧ w.masked mask true t = true ∨
        (w.client t).invisible = true ∧ w.Common source t ∧
          w.masked mask (!w.hideServers || (w.client source).oper) t = true))
    ⟨fun h => ⟨h.1, h.2.1, h.2.2.1, h.2.2.2⟩, fun h => ⟨h.mem, h.isClient, h.oper, h.seen⟩⟩

/-- Those to be listed. -/
def toList : Finset α :=
  (w.globalClientList.filter fun t => w.Listed source mask serverOper t).toFinset

/-- Those among them that the first loops find. -/
def firstList : Finset α :=
  (w.toList source mask serverOper).filter fun t => (w.client t).invisible = true

/-- A client that the second loop finds. -/
def Seen (t : α) : Prop :=
  (w.client t).invisible = false ∧ w.Listed source mask serverOper t

instance (t : α) : Decidable (w.Seen source mask serverOper t) :=
  inferInstanceAs (Decidable (_ ∧ _))

def visible (l : List α) : List α :=
  l.filter fun t => w.Seen source mask serverOper t

variable {w source mask serverOper} {x : WhoScan α}

theorem mem_toList {t : α} :
    t ∈ w.toList source mask serverOper ↔ w.Listed source mask serverOper t := by
  rw [toList, List.mem_toFinset, List.mem_filter, decide_eq_true_eq]
  exact and_iff_right_of_imp fun h => h.mem

omit [DecidableEq α] in
theorem targets_doWho (t : α) (x : WhoScan α) : (doWho t x).targets = x.targets ++ [t] := by
  rw [WhoScan.targets, doWho, List.map_append]
  rfl

/-- In the first loops: the clients that were listed are those among the marked ones that match, each
once, and the limit counts what is left. -/
structure First (w : WhoWorld α) (source : α) (mask : Option Str) (serverOper : Bool)
    (x : WhoScan α) : Prop where
  nodup : x.targets.Nodup
  listed : ∀ t ∈ x.targets, t ∈ w.firstList source mask serverOper
  count : x.maxmatches + x.targets.length = 500
  targets : ∀ t, t ∈ x.targets ↔
    t ∈ x.marked ∧ w.masked mask (!w.hideServers || (w.client source).oper) t = true

/-- Below the limit the next reply is not the last. -/
theorem First.below (h : First w source mask serverOper x)
    (hfew : (w.firstList source mask serverOper).card < 500) {t : α}
    (ht : t ∈ w.firstList source mask serverOper) (hnew : t ∉ x.targets) :
    (x.targets ++ [t]).Nodup ∧ (∀ d ∈ x.targets ++ [t], d ∈ w.firstList source mask serverOper) ∧
      1 < x.maxmatches := by
  have hnodup : (x.targets ++ [t]).Nodup := List.nodup_append'.mpr
    ⟨h.nodup, List.nodup_singleton t, List.disjoint_singleton.mpr hnew⟩
  have hlisted : ∀ d ∈ x.targets ++ [t], d ∈ w.firstList source mask serverOper := by
    intro d hd
    rcases List.mem_append.mp hd with hd | hd
    · exact h.listed d hd
    · rw [List.mem_singleton.mp hd]
      exact ht
  have hle : (x.targets ++ [t]).length ≤ (w.firstList source mask serverOper).card := by
    rw [← List.toFinset_card_of_nodup hnodup]
    exact Finset.card_le_card fun d hd => hlisted d (List.mem_toFinset.mp hd)
  have hcount := h.count
  rw [List.length_append, List.length_singleton] at hle
  exact ⟨hnodup, hlisted, by omega⟩

/-- An invisible client that is not passed over. -/
def Marks (w : WhoWorld α) (serverOper : Bool) (t : α) : Prop :=
  (w.client t).invisible = true ∧ (serverOper = true → (w.client t).oper = true)

theorem common_spec (hfew : (w.firstList source mask serverOper).card < 500) {ts : List α}
    (hts : ∀ t ∈ ts, w.Common source t) (h : First w source mask serverOper x) :
    First w source mask serverOper (w.whoCommonChannel source mask serverOper ts x) ∧
      ∀ t, t ∈ (w.whoCommonChannel source mask serverOper ts x).marked ↔
        t ∈ x.marked ∨ t ∈ ts ∧ Marks w serverOper t := by
  induction ts generalizing x with
  | nil => exact ⟨h, fun t => by simp [whoCommonChannel]⟩
  | cons t ts ih =>
      have hrest {y : WhoScan α} (hy : First w source mask serverOper y)
          (hmark : ∀ d, d ∈ y.marked ↔ d ∈ x.marked ∨ d = t ∧ Marks w serverOper t) :
          First w source mask serverOper (w.whoCommonChannel source mask serverOper ts y) ∧
            ∀ d, d ∈ (w.whoCommonChannel source mask serverOper ts y).marked ↔
              d ∈ x.marked ∨ d ∈ t :: ts ∧ Marks w serverOper d := by
        obtain ⟨hfirst, hmarked⟩ := ih (fun d hd => hts d (List.mem_cons_of_mem t hd)) hy
        refine ⟨hfirst, fun d => ?_⟩
        rw [hmarked, hmark, List.mem_cons, or_and_right, or_assoc]
        refine or_congr_right (or_congr_left (and_congr_right fun hd => ?_))
        rw [hd]
      rw [whoCommonChannel]
      by_cases hskip : (!(w.client t).invisible || decide (t ∈ x.marked)) = true
      · rw [if_pos hskip]
        refine hrest h fun d => (or_iff_left_of_imp ?_).symm
        rintro ⟨rfl, hmark⟩
        rw [hmark.1, Bool.not_true, Bool.false_or] at hskip
        exact of_decide_eq_true hskip
      · rw [if_neg hskip]
        rw [Bool.or_eq_true, Bool.not_eq_true', decide_eq_true_eq, not_or,
          Bool.not_eq_false] at hskip
        obtain ⟨hinvisible, hunmarked⟩ := hskip
        by_cases hoper : (serverOper && !(w.client t).oper) = true
        · rw [if_pos hoper]
          refine hrest h fun d => (or_iff_left_of_imp ?_).symm
          rintro ⟨rfl, hmark⟩
          rw [Bool.and_eq_true, Bool.not_eq_true'] at hoper
          exact absurd (hmark.2 hoper.1) (by rw [hoper.2]; decide)
        · rw [if_neg hoper]
          have hoper' : serverOper = true → (w.client t).oper = true := by
            intro hserver
            rw [hserver, Bool.true_and, Bool.not_eq_true', Bool.not_eq_false] at hoper
            exact hoper
          have hmark (d : α) : d ∈ insert t x.marked ↔ d ∈ x.marked ∨ d = t ∧ Marks w serverOper t := by
            rw [Finset.mem_insert, or_comm, and_iff_left ⟨hinvisible, hoper'⟩]
          have hnew : t ∉ x.targets := fun ht => hunmarked ((h.targets t).mp ht).1
          dsimp only
          by_cases hmatch :
              w.masked mask (!w.hideServers || (w.client source).oper) t = true
          · rw [if_pos hmatch]
            obtain ⟨ch, hch, htch⟩ := hts t List.mem_cons_self
            obtain ⟨m, hm, rfl⟩ := List.mem_map.mp htch
            obtain ⟨hmem, hclient⟩ := w.member source ch hch m hm
            have hlisted : m.1 ∈ w.firstList source mask serverOper :=
              Finset.mem_filter.mpr ⟨mem_toList.mpr ⟨hmem, hclient, hoper',
                Or.inr ⟨hinvisible, ⟨ch, hch, htch⟩, hmatch⟩⟩, hinvisible⟩
            obtain ⟨hnodup, hall, hlimit⟩ := h.below hfew hlisted hnew
            have hcount := h.count
            have hgoes : exhausted { x with marked := insert m.1 x.marked } = false :=
              decide_eq_false (by dsimp only; omega)
            rw [hgoes, if_neg Bool.false_ne_true]
            refine hrest ⟨?_, ?_, ?_, fun d => ?_⟩ hmark
            · rw [targets_doWho]
              exact hnodup
            · rw [targets_doWho]
              exact hall
            · rw [targets_doWho, List.length_append, List.length_singleton]
              change x.maxmatches - 1 + (x.targets.length + 1) = 500
              omega
            · rw [targets_doWho, List.mem_append, List.mem_singleton]
              change d ∈ x.targets ∨ d = m.1 ↔ d ∈ insert m.1 x.marked ∧ _
              rw [h.targets, Finset.mem_insert, or_and_right, or_comm]
              refine or_congr_left ?_
              constructor
              · rintro rfl
                exact ⟨rfl, hmatch⟩
              · exact fun hd => hd.1
          · rw [if_neg hmatch]
            refine hrest ⟨h.nodup, h.listed, h.count, fun d => ?_⟩ hmark
            change d ∈ x.targets ↔ d ∈ insert t x.marked ∧ _
            rw [h.targets, Finset.mem_insert, or_and_right]
            refine (or_iff_right ?_).symm
            rintro ⟨rfl, hd⟩
            exact hmatch hd

/-- All channels of the asker. -/
theorem channels_spec (hfew : (w.firstList source mask serverOper).card < 500)
    {chs : List (WhoChannel α)} (hchs : ∀ ch ∈ chs, ch ∈ w.channel source)
    (h : First w source mask serverOper x) :
    First w source mask serverOper (chs.foldl (fun x ch =>
      w.whoCommonChannel source mask serverOper (ch.members.map Prod.fst) x) x) ∧
      ∀ t, t ∈ (chs.foldl (fun x ch =>
          w.whoCommonChannel source mask serverOper (ch.members.map Prod.fst) x) x).marked ↔
        t ∈ x.marked ∨ (∃ ch ∈ chs, t ∈ ch.members.map Prod.fst) ∧ Marks w serverOper t := by
  induction chs generalizing x with
  | nil => exact ⟨h, fun t => by simp⟩
  | cons ch chs ih =>
      have hch := hchs ch List.mem_cons_self
      obtain ⟨hfirst, hmarked⟩ := common_spec hfew (fun t ht => ⟨ch, hch, ht⟩) h
      obtain ⟨hfirst', hmarked'⟩ := ih (fun c hc => hchs c (List.mem_cons_of_mem ch hc)) hfirst
      refine ⟨hfirst', fun t => ?_⟩
      rw [List.foldl_cons, hmarked', hmarked, or_assoc, ← or_and_right]
      simp only [List.mem_cons, exists_eq_or_imp]

theorem not_seen {t : α} (h : w.Seen source mask serverOper t → False) (l : List α) :
    w.visible source mask serverOper (t :: l) = w.visible source mask serverOper l :=
  List.filter_cons_of_neg fun ht => h (of_decide_eq_true ht)

variable (source) in
/-- The second loop lists what is left of the limit, and takes the marks of the clients that it comes
to. -/
theorem visible_spec {l : List α} (hmem : ∀ t ∈ l, t ∈ w.globalClientList)
    (hpos : 0 < x.maxmatches) :
    (w.whoVisible mask serverOper l x).targets =
        x.targets ++ (w.visible source mask serverOper l).take x.maxmatches ∧
      ∀ t, t ∈ (w.whoVisible mask serverOper l x).marked → t ∈ x.marked ∧
        (t ∈ l → (w.client t).isClient = true → (w.client t).invisible = true →
          x.maxmatches ≤ (w.visible source mask serverOper (l.takeWhile (· ≠ t))).length) := by
  induction l generalizing x with
  | nil =>
      refine ⟨?_, fun t ht => ⟨ht, fun hin => absurd hin List.not_mem_nil⟩⟩
      rw [whoVisible, visible, List.filter_nil, List.take_nil, List.append_nil]
  | cons t l ih =>
      have hmem' (d : α) (hd : d ∈ l) : d ∈ w.globalClientList :=
        hmem d (List.mem_cons_of_mem t hd)
      have htake {d : α} (hd : t ≠ d) :
          (t :: l).takeWhile (· ≠ d) = t :: l.takeWhile (· ≠ d) :=
        List.takeWhile_cons_of_pos (decide_eq_true hd)
      have hpass {y : WhoScan α} (hmax : y.maxmatches = x.maxmatches)
          (htargets : y.targets = x.targets)
          (hmarked : ∀ d ∈ y.marked, d ∈ x.marked ∧
            (d = t → (w.client t).isClient = true → (w.client t).invisible = true → False))
          (hunseen : w.Seen source mask serverOper t → False) :
          (w.whoVisible mask serverOper l y).targets =
              x.targets ++ (w.visible source mask serverOper (t :: l)).take x.maxmatches ∧
            ∀ d, d ∈ (w.whoVisible mask serverOper l y).marked → d ∈ x.marked ∧
              (d ∈ t :: l → (w.client d).isClient = true → (w.client d).invisible = true →
                x.maxmatches ≤
                  (w.visible source mask serverOper ((t :: l).takeWhile (· ≠ d))).length) := by
        obtain ⟨htargets', hmarked'⟩ := ih (x := y) hmem' (by rw [hmax]; exact hpos)
        refine ⟨by rw [htargets', htargets, hmax, not_seen hunseen], fun d hd => ?_⟩
        obtain ⟨hold, hbehind⟩ := hmarked' d hd
        refine ⟨(hmarked d hold).1, fun hin hclient hinvisible => ?_⟩
        by_cases hdt : d = t
        · subst hdt
          exact ((hmarked d hold).2 rfl hclient hinvisible).elim
        · rw [htake (Ne.symm hdt), not_seen hunseen, ← hmax]
          exact hbehind ((List.mem_cons.mp hin).resolve_left hdt) hclient hinvisible
      rw [whoVisible]
      by_cases hclient : (!(w.client t).isClient) = true
      · rw [if_pos hclient]
        rw [Bool.not_eq_true'] at hclient
        refine hpass rfl rfl (fun d hd => ⟨hd, fun _ h => ?_⟩) fun h => ?_
        · rw [hclient] at h
          exact absurd h Bool.false_ne_true
        · rw [h.2.isClient] at hclient
          exact absurd hclient.symm Bool.false_ne_true
      rw [if_neg hclient]
      rw [Bool.not_eq_true', Bool.not_eq_false] at hclient
      by_cases hinvisible : (w.client t).invisible = true
      · rw [if_pos hinvisible]
        refine hpass rfl rfl (fun d hd => ?_) fun h => ?_
        · obtain ⟨hne, hd⟩ := Finset.mem_erase.mp hd
          exact ⟨hd, fun heq => absurd heq hne⟩
        · rw [h.1] at hinvisible
          exact absurd hinvisible Bool.false_ne_true
      rw [if_neg hinvisible]
      rw [Bool.not_eq_true] at hinvisible
      have hkept (d : α) (hd : d ∈ x.marked) : d ∈ x.marked ∧ (d = t →
          (w.client t).isClient = true → (w.client t).invisible = true → False) :=
        ⟨hd, fun _ _ h => absurd (hinvisible.symm.trans h) Bool.false_ne_true⟩
      by_cases hoper : (serverOper && !(w.client t).oper) = true
      · rw [if_pos hoper]
        refine hpass rfl rfl hkept fun h => ?_
        rw [Bool.and_eq_true, Bool.not_eq_true'] at hoper
        exact absurd (hoper.2.symm.trans (h.2.oper hoper.1)) Bool.false_ne_true
      rw [if_neg hoper]
      by_cases hmatch : w.masked mask true t = true
      · have hseen : w.Seen source mask serverOper t := by
          refine ⟨hinvisible, hmem t List.mem_cons_self, hclient, fun hserver => ?_,
            Or.inl ⟨hinvisible, hmatch⟩⟩
          rw [hserver, Bool.true_and, Bool.not_eq_true', Bool.not_eq_false] at hoper
          exact hoper
        have hvisible (l : List α) : w.visible source mask serverOper (t :: l) =
            t :: w.visible source mask serverOper l :=
          List.filter_cons_of_pos (decide_eq_true hseen)
        have hbehind {d : α} (hinvisible' : (w.client d).invisible = true) :
            (w.visible source mask serverOper ((t :: l).takeWhile (· ≠ d))).length =
              (w.visible source mask serverOper (l.takeWhile (· ≠ d))).length + 1 := by
          rw [htake, hvisible, List.length_cons]
          rintro rfl
          exact absurd (hinvisible.symm.trans hinvisible') Bool.false_ne_true
        rw [if_pos hmatch, hvisible]
        by_cases hlast : exhausted x = true
        · rw [if_pos hlast]
          have hone : x.maxmatches = 1 := of_decide_eq_true hlast
          refine ⟨?_, fun d hd => ⟨hd, fun _ _ hinvisible' => ?_⟩⟩
          · rw [targets_doWho, hone, List.take_succ_cons, List.take_zero]
          · rw [hbehind hinvisible', hone]
            exact Nat.le_add_left 1 _
        · rw [if_neg hlast]
          have hone : x.maxmatches ≠ 1 := fun h => hlast (decide_eq_true h)
          obtain ⟨m, hm⟩ : ∃ m, x.maxmatches = m + 1 := Nat.exists_eq_succ_of_ne_zero hpos.ne'
          have hmax : (doWho t x).maxmatches = m := by
            change x.maxmatches - 1 = m
            omega
          obtain ⟨htargets, hmarked⟩ := ih (x := doWho t x) hmem' (by omega)
          constructor
          · rw [htargets, targets_doWho, hmax, hm, List.take_succ_cons, List.append_assoc]
            rfl
          · intro d hd
            obtain ⟨hold, hrest⟩ := hmarked d hd
            refine ⟨hold, fun hin hclient' hinvisible' => ?_⟩
            rw [hbehind hinvisible', hm, ← hmax]
            refine Nat.succ_le_succ (hrest ((List.mem_cons.mp hin).resolve_left ?_)
              hclient' hinvisible')
            rintro rfl
            exact absurd (hinvisible.symm.trans hinvisible') Bool.false_ne_true
      · rw [if_neg hmatch]
        refine hpass rfl rfl hkept fun h => ?_
        rcases h.2.seen with hseen | hseen
        · exact hmatch hseen.2
        · exact absurd (hinvisible.symm.trans hseen.1) Bool.false_ne_true

/-- At the limit the second loop ends, and the marks of those that follow stay. -/
theorem marked_of_limit {l ts : List α} (hl : ∀ t ∈ l, (w.client t).isClient = true ∧
      (w.client t).invisible = false ∧ (serverOper && !(w.client t).oper) = false ∧
        w.masked mask true t = true)
    (hlength : l.length = x.maxmatches) (hpos : 0 < x.maxmatches) :
    (w.whoVisible mask serverOper (l ++ ts) x).marked = x.marked := by
  induction l generalizing x with
  | nil => exact absurd hlength hpos.ne
  | cons t l ih =>
      obtain ⟨hclient, hvisible, hoper, hmatch⟩ := hl t List.mem_cons_self
      rw [List.cons_append, whoVisible, hclient, hvisible, hoper, hmatch]
      rw [Bool.not_true, if_neg Bool.false_ne_true, if_neg Bool.false_ne_true,
        if_neg Bool.false_ne_true, if_pos rfl]
      split
      · rfl
      · rename_i hlast
        have hone : x.maxmatches ≠ 1 := fun h => hlast (decide_eq_true h)
        have hmax : (doWho t x).maxmatches = x.maxmatches - 1 := rfl
        rw [List.length_cons] at hlength
        exact ih (x := doWho t x) (fun d hd => hl d (List.mem_cons_of_mem t hd)) (by omega)
          (by omega)

/-- Fewer invisible clients than the limit are to be listed, and each one that the first loops mark
stands in `global_client_list` before the client at which the limit is reached. -/
structure Orderly (w : WhoWorld α) (source : α) (mask : Option Str) (serverOper : Bool) :
    Prop where
  few : (w.firstList source mask serverOper).card < 500
  before : ∀ t, w.Common source t → Marks w serverOper t →
    (w.firstList source mask serverOper).card +
      (w.visible source mask serverOper (w.globalClientList.takeWhile (· ≠ t))).length < 500

/-- Clients are listed once, and all those that match are listed up to the limit. -/
structure Right (w : WhoWorld α) (source : α) (mask : Option Str) (serverOper : Bool)
    (targets : List α) : Prop where
  once : targets.Nodup
  listed : ∀ t ∈ targets, w.Listed source mask serverOper t
  total : targets.length = min 500 (w.toList source mask serverOper).card

/-- After the first loops. -/
theorem first_spec (hfew : (w.firstList source mask serverOper).card < 500) :
    ∃ x : WhoScan α,
      w.whoScan source mask serverOper ∅ =
        w.whoVisible mask serverOper w.globalClientList x ∧
      x.targets.toFinset = w.firstList source mask serverOper ∧ x.targets.Nodup ∧
      x.maxmatches + (w.firstList source mask serverOper).card = 500 ∧
      ∀ t, t ∈ x.marked ↔ w.Common source t ∧ Marks w serverOper t := by
  have hstart : First w source mask serverOper ⟨500, ∅, []⟩ :=
    ⟨List.nodup_nil, fun t ht => absurd ht List.not_mem_nil, rfl, fun t =>
      ⟨fun ht => absurd ht List.not_mem_nil, fun ht => absurd ht.1 (Finset.notMem_empty t)⟩⟩
  obtain ⟨hfirst, hmarked⟩ := channels_spec hfew (fun ch hch => hch) hstart
  simp only [Finset.notMem_empty, false_or] at hmarked
  generalize hx : (w.channel source).foldl _ _ = x at hfirst hmarked
  have hall : x.targets.toFinset = w.firstList source mask serverOper := by
    ext t
    rw [List.mem_toFinset]
    refine ⟨hfirst.listed t, fun ht => ?_⟩
    obtain ⟨hlisted, hinvisible⟩ := Finset.mem_filter.mp ht
    have hlisted := mem_toList.mp hlisted
    rcases hlisted.seen with hseen | ⟨-, hcommon, hmatch⟩
    · exact absurd (hseen.1.symm.trans hinvisible) Bool.false_ne_true
    · exact (hfirst.targets t).mpr
        ⟨(hmarked t).mpr ⟨hcommon, hinvisible, hlisted.oper⟩, hmatch⟩
  refine ⟨x, by rw [whoScan, hx], hall, hfirst.nodup, ?_, hmarked⟩
  rw [← hall, List.toFinset_card_of_nodup hfirst.nodup]
  exact hfirst.count

/-- Those to be listed are found by one of the two passes. -/
theorem card_toList : (w.toList source mask serverOper).card =
    (w.firstList source mask serverOper).card +
      (w.visible source mask serverOper w.globalClientList).length := by
  have hcard : (w.visible source mask serverOper w.globalClientList).toFinset.card = _ :=
    List.toFinset_card_of_nodup (w.nodup.filter _)
  rw [← hcard, ← Finset.card_union_of_disjoint]
  · congr 1
    ext t
    rw [Finset.mem_union, firstList, Finset.mem_filter, mem_toList, List.mem_toFinset, visible,
      List.mem_filter, decide_eq_true_eq]
    constructor
    · intro h
      cases hinvisible : (w.client t).invisible with
      | true => exact Or.inl ⟨h, rfl⟩
      | false => exact Or.inr ⟨h.mem, hinvisible, h⟩
    · rintro (h | h)
      · exact h.1
      · exact h.2.2
  · rw [Finset.disjoint_left]
    intro t ht hvisible
    rw [visible, List.mem_toFinset, List.mem_filter, decide_eq_true_eq] at hvisible
    exact absurd (hvisible.2.1.symm.trans (Finset.mem_filter.mp ht).2) Bool.false_ne_true

/-- One search, with no marks before it. -/
theorem scan_spec (h : Orderly w source mask serverOper) :
    (w.whoScan source mask serverOper ∅).marked = ∅ ∧
      Right w source mask serverOper (w.whoScan source mask serverOper ∅).targets := by
  obtain ⟨x, hscan, hall, hnodup, hcount, hmarked⟩ := first_spec h.few
  have hfew := h.few
  obtain ⟨htargets, hleft⟩ := visible_spec source (x := x) (fun t ht => ht)
    (show 0 < x.maxmatches by omega)
  have hlength : x.targets.length = (w.firstList source mask serverOper).card := by
    rw [← hall, List.toFinset_card_of_nodup hnodup]
  have hmem {t : α} (ht : t ∈ x.targets) :
      w.Listed source mask serverOper t ∧ (w.client t).invisible = true := by
    rw [← List.mem_toFinset, hall] at ht
    exact ⟨mem_toList.mp (Finset.mem_filter.mp ht).1, (Finset.mem_filter.mp ht).2⟩
  have htake {t : α}
      (ht : t ∈ (w.visible source mask serverOper w.globalClientList).take x.maxmatches) :
      w.Seen source mask serverOper t :=
    of_decide_eq_true (List.mem_filter.mp (List.mem_of_mem_take ht)).2
  rw [hscan]
  constructor
  · rw [Finset.eq_empty_iff_forall_notMem]
    intro t ht
    obtain ⟨hold, hbehind⟩ := hleft t ht
    obtain ⟨hcommon, hmark⟩ := (hmarked t).mp hold
    have hbefore := h.before t hcommon hmark
    obtain ⟨ch, hch, htch⟩ := hcommon
    obtain ⟨m, hm, rfl⟩ := List.mem_map.mp htch
    obtain ⟨hin, hclient⟩ := w.member source ch hch m hm
    have := hbehind hin hclient hmark.1
    omega
  · rw [htargets]
    refine ⟨?_, ?_, ?_⟩
    · refine List.nodup_append'.mpr
        ⟨hnodup, (w.nodup.filter _).sublist (List.take_sublist _ _), fun t ht hvisible => ?_⟩
      exact absurd ((htake hvisible).1.symm.trans (hmem ht).2) Bool.false_ne_true
    · intro t ht
      rcases List.mem_append.mp ht with ht | ht
      · exact (hmem ht).1
      · exact (htake ht).2
    · rw [List.length_append, List.length_take, hlength, card_toList]
      omega

end WhoWorld

/-- A `WHO`, with the clients and channels of its time. -/
structure WhoCommand (α : Type*) where
  w : WhoWorld α
  source : α
  mask : Option Str
  serverOper : Bool

namespace WhoCommand

variable {α : Type*} [DecidableEq α]

def step (s : WhoState α) (c : WhoCommand α) : WhoState α :=
  (c.w.mWho c.source c.mask c.serverOper s).1

def start : WhoState α := ⟨∅, 0⟩

def run (cs : List (WhoCommand α)) : WhoState α := cs.foldl step start

/-- If the command comes to a search, the clients that it searches are in order. -/
def Orderly (c : WhoCommand α) : Prop :=
  ∀ mask, c.w.form c.mask c.serverOper = .global mask →
    c.w.Orderly c.source mask c.serverOper

/-- If the command comes to a search and is not put off, what is listed is right. -/
def Answered (s : WhoState α) (c : WhoCommand α) : Prop :=
  ∀ mask replies, c.w.form c.mask c.serverOper = .global mask →
    (c.w.mWho c.source c.mask c.serverOper s).2 = .listed replies →
      c.w.Right c.source mask c.serverOper (replies.map WhoReply.target)

theorem marked_step {s : WhoState α} {c : WhoCommand α} {mask : Option Str}
    (hform : c.w.form c.mask c.serverOper = .global mask)
    (hpace : (!(c.w.client c.source).oper &&
      decide (c.w.currentTime < s.lastUsed + c.w.paceWait)) = false) :
    (step s c).marked = (c.w.whoScan c.source mask c.serverOper s.marked).marked := by
  rw [step, WhoWorld.mWho, hform]
  dsimp only
  rw [WhoWorld.whoGlobal, hpace, if_neg Bool.false_ne_true]

theorem step_spec {s : WhoState α} {c : WhoCommand α} (hs : s.marked = ∅) (hc : c.Orderly) :
    (step s c).marked = ∅ ∧ c.Answered s := by
  rw [step, Answered, WhoWorld.mWho]
  cases hform : c.w.form c.mask c.serverOper with
  | own => exact ⟨hs, fun mask replies h => nomatch h⟩
  | channel name => exact ⟨hs, fun mask replies h => nomatch h⟩
  | nick t => exact ⟨hs, fun mask replies h => nomatch h⟩
  | «global» mask =>
      dsimp only
      obtain ⟨hmarked, hright⟩ := WhoWorld.scan_spec (hc mask hform)
      rw [WhoWorld.whoGlobal, hs]
      split
      · exact ⟨hs, fun mask' replies _ h => nomatch h⟩
      · refine ⟨hmarked, fun mask' replies hmask hreplies => ?_⟩
        obtain rfl : mask = mask' := WhoForm.global.inj hmask
        obtain rfl := WhoAnswer.listed.inj hreplies
        exact hright

theorem marked_run {cs : List (WhoCommand α)} (h : ∀ c ∈ cs, c.Orderly) :
    (run cs).marked = ∅ := by
  induction cs using List.reverseRecOn with
  | nil => rfl
  | append_singleton cs c ih =>
      rw [run, List.foldl_append]
      exact (step_spec (ih fun d hd => h d (List.mem_append_left [c] hd))
        (h c (List.mem_append_right cs List.mem_cons_self))).1

/-- In a run whose searches are in order there are no marks between commands, and what the next
command lists is right. -/
theorem answered_of_orderly {cs : List (WhoCommand α)} (h : ∀ c ∈ cs, c.Orderly) :
    (run cs).marked = ∅ ∧ ∀ c : WhoCommand α, c.Orderly → c.Answered (run cs) :=
  ⟨marked_run h, fun _ hc => (step_spec (marked_run h) hc).2⟩

/-- An invisible client alone in a channel, and one visible client. -/
def pair : WhoCommand Bool where
  w := {
    client := fun visible => ⟨[], [], [], [], [], true, !visible, false, false, false, false⟩
    globalClientList := [false, true]
    channel := fun visible => if visible then [] else [⟨['#'], false, true, [(false, [])]⟩]
    findClient := fun _ => none
    hashFindChannel := fun _ => none
    hideServers := false
    paceWait := 0
    currentTime := 1
    nodup := by decide
    member := by decide }
  source := false
  mask := none
  serverOper := false

theorem pair_orderly : pair.Orderly := by
  intro mask hmask
  obtain rfl : none = mask := WhoForm.global.inj hmask
  have hvisible (l : List Bool) : (pair.w.visible false none false l).length ≤ l.length :=
    List.length_filter_le _ l
  refine ⟨by decide, fun t _ _ => ?_⟩
  have hfirst : (pair.w.firstList false none false).card = 1 := by decide
  have := hvisible (pair.w.globalClientList.takeWhile (· ≠ t))
  have := (List.takeWhile_sublist (fun d => decide (d ≠ t))
    (l := pair.w.globalClientList)).length_le
  have : pair.w.globalClientList.length = 2 := rfl
  change (pair.w.firstList false none false).card +
    (pair.w.visible false none false _).length < 500
  omega

theorem answered_of_orderly_pair :
    (run [pair]).marked = ∅ ∧ ∀ c : WhoCommand Bool, c.Orderly → c.Answered (run [pair]) :=
  answered_of_orderly fun c hc => by
    rw [List.mem_singleton.mp hc]
    exact pair_orderly

/-- As many visible clients as the limit leaves, and behind them an invisible client in a channel. -/
def crowd : WhoCommand (Option (Fin 499)) where
  w := {
    client := fun t => ⟨[], [], [], [], [], true, t.isNone, false, false, false, false⟩
    globalClientList := (List.finRange 499).map some ++ [none]
    channel := fun t => t.elim [⟨['#'], false, true, [(none, [])]⟩] fun _ => []
    findClient := fun _ => none
    hashFindChannel := fun _ => none
    hideServers := false
    paceWait := 0
    currentTime := 1
    nodup := by
      refine List.nodup_append'.mpr ⟨(List.nodup_finRange 499).map (Option.some_injective _),
        List.nodup_singleton none, fun t ht hnone => ?_⟩
      obtain ⟨i, -, rfl⟩ := List.mem_map.mp ht
      exact absurd (List.mem_singleton.mp hnone) (Option.some_ne_none i)
    member := by
      intro c ch hch m hm
      cases c with
      | some i => exact absurd hch List.not_mem_nil
      | none =>
          rw [List.mem_singleton.mp hch] at hm
          rw [List.mem_singleton.mp hm]
          exact ⟨List.mem_append_right _ List.mem_cons_self, rfl⟩ }
  source := none
  mask := none
  serverOper := false

theorem not_forall_answered : ¬∀ cs : List (WhoCommand (Option (Fin 499))),
    (run cs).marked = ∅ ∧
      ∀ c : WhoCommand (Option (Fin 499)), c.Answered (run cs) := by
  intro h
  have hempty := (h [crowd]).1
  have hstop : (run [crowd]).marked = {none} := by
    have hscan : (run [crowd]).marked = (crowd.w.whoScan none none false ∅).marked :=
      marked_step (s := start) rfl rfl
    have hfirst : (crowd.w.channel none).foldl (fun x ch =>
        crowd.w.whoCommonChannel none none false (ch.members.map Prod.fst) x) ⟨500, ∅, []⟩ =
          ⟨499, {none}, [⟨none, none, []⟩]⟩ := rfl
    have hclients : crowd.w.globalClientList = (List.finRange 499).map some ++ [none] := rfl
    rw [hscan, WhoWorld.whoScan, hfirst, hclients]
    refine WhoWorld.marked_of_limit (fun t ht => ?_) ?_ (by decide)
    · obtain ⟨i, -, rfl⟩ := List.mem_map.mp ht
      exact ⟨rfl, rfl, rfl, rfl⟩
    · rw [List.length_map, List.length_finRange]
  rw [hstop] at hempty
  exact absurd hempty (Finset.singleton_ne_empty none)

end WhoCommand

end Unirc
