import Mathlib.Data.List.Induction
import Mathlib.Data.List.Nodup
import Mathlib.Data.List.Pairwise
import Unirc.CapScan

/-!
# CAP REQ

`cap_req` and `send_caplist` of `m_cap.c`. The elements of the text are taken one by one, and
nothing is changed before all of them were found acceptable.
-/

namespace Unirc

open Decimal (isSpace)

abbrev REG_NEED_CAP : U32 := 0x4

/-- What `cap_req` reads of a local client, and changes. -/
structure CapClient where
  name : Str
  unknown : Bool
  registration : U32
  cap_client : U32
  cap_active : U32
  deriving DecidableEq

/-- A line of `send_caplist`. -/
structure CapLine where
  cmdbuf : Str
  more : Bool
  capbuf : Str
  deriving DecidableEq

def CapLine.text (l : CapLine) : Str :=
  l.cmdbuf ++ (if l.more then "* :".toList else ":".toList) ++ l.capbuf

structure CapBuf where
  capbuf : Str
  loc : ℕ
  sent : List CapLine

/-- The marks in front of a name. -/
def capMarks (rem : U32) (c : Capability) : Str :=
  if rem &&& c.cap ≠ 0 then ['-']
  else (if c.flags &&& CAPFL_PROTO ≠ 0 then ['~'] else []) ++
    if c.flags &&& CAPFL_STICKY ≠ 0 then ['='] else []

/-- The test of `send_caplist`, which goes over the capabilities that fail it. -/
def capShown (set rem : U32) (c : Capability) : Bool :=
  !(decide (rem &&& c.cap = 0) && decide (set &&& c.cap = 0) &&
    (decide (rem ≠ 0) || decide (set ≠ 0) || decide (c.flags &&& CAPFL_HIDDEN ≠ 0)))

/-- One turn of the loop of `send_caplist`. -/
def CapBuf.add (cmdbuf : Str) (clen : ℕ) (rem : U32) (b : CapBuf) (c : Capability) : CapBuf :=
  let pfx := (if b.loc ≠ 0 then [' '] else []) ++ capMarks rem c
  let len := c.name.length + pfx.length
  let b := if IRCD_BUFSIZE < clen + b.loc + len + 15 then
    ⟨[], 0, b.sent ++ [⟨cmdbuf, true, b.capbuf⟩]⟩ else b
  ⟨b.capbuf ++ (pfx ++ c.name).take (IRCD_BUFSIZE - b.loc - 1), b.loc + len, b.sent⟩

/-- The name of a client that may not have one yet. -/
def CapClient.shownName (s : CapClient) : Str := if s.name = [] then ['*'] else s.name

/-- `send_caplist`. -/
def sendCaplist (T : CapabTable) (me : Str) (s : CapClient) (set rem : U32) (subcmd : Str) :
    List CapLine :=
  let cmd := ':' :: me ++ " CAP ".toList ++ s.shownName ++ ' ' :: subcmd ++ [' ']
  let cmdbuf := cmd.take (IRCD_BUFSIZE - 1)
  let b := (T.list.filter (capShown set rem)).foldl (CapBuf.add cmdbuf cmd.length rem) ⟨[], 0, []⟩
  b.sent ++ [⟨cmdbuf, false, b.capbuf⟩]

inductive CapAnswer
  | ack (lines : List CapLine)
  | nak (line : Str)
  deriving DecidableEq

/-- The sets that `cap_req` works on. -/
structure CapSets where
  set : U32
  rem : U32
  cs : U32
  as : U32
  deriving DecidableEq

def CapSets.change (st : CapSets) (neg : Bool) (c : Capability) : CapSets :=
  if neg then
    ⟨st.set &&& ~~~c.cap, st.rem ||| c.cap, st.cs &&& ~~~c.cap,
      if c.flags &&& CAPFL_PROTO = 0 then st.as &&& ~~~c.cap else st.as⟩
  else
    ⟨st.set ||| c.cap, st.rem &&& ~~~c.cap, st.cs ||| c.cap,
      if c.flags &&& CAPFL_PROTO = 0 then st.as ||| c.cap else st.as⟩

/-- Prohibited to set, or sticky. -/
def capRefused (neg : Bool) (c : Capability) : Bool :=
  (!neg && decide (c.flags &&& CAPFL_PROHIBIT ≠ 0)) ||
    (neg && decide (c.flags &&& CAPFL_STICKY ≠ 0))

namespace CapabTable

variable (T : CapabTable)

/-- The loop of `cap_req`. `none`: the request is refused. -/
def reqLoop (cl : Str) (st : CapSets) : Option CapSets :=
  let r := T.findCap cl
  match r.cap with
  | none => none
  | some c =>
      if capRefused r.neg c then none
      else
        match _h : r.next with
        | none => some (st.change r.neg c)
        | some cl => reqLoop cl (st.change r.neg c)
termination_by cl.length
decreasing_by exact T.findCap_progress _h

/-- `cap_req`. -/
def capReq (me : Str) (s : CapClient) (caplist : Option Str) : CapAnswer × CapClient :=
  let s := if s.unknown then { s with registration := s.registration ||| REG_NEED_CAP } else s
  let st : CapSets := ⟨0, 0, s.cap_client, s.cap_active⟩
  match caplist.elim (some st) (T.reqLoop · st) with
  | none =>
      (.nak (':' :: me ++ " CAP ".toList ++ s.shownName ++ " NAK :".toList ++ caplist.getD []), s)
  | some st => (.ack (sendCaplist T me s st.set st.rem "ACK".toList),
      { s with cap_client := st.cs, cap_active := st.as })

/-- An element names a listed capability that may be set or cleared. -/
def Accepts (e : Str) : Prop :=
  ∃ c ∈ T.list, c.name.map toLower = (splitSign e).2.map toLower ∧
    if (splitSign e).1 then c.flags &&& CAPFL_STICKY = 0 else c.flags &&& CAPFL_PROHIBIT = 0

instance (e : Str) : Decidable (T.Accepts e) := by
  unfold Accepts
  infer_instance

/-- The change of the client's sets by one element. -/
def foldStep (caps : U32 × U32) (e : Str) : U32 × U32 :=
  match T.lookup (splitSign e).2 with
  | none => caps
  | some c =>
      if (splitSign e).1 then
        (caps.1 &&& ~~~c.cap,
          if c.flags &&& CAPFL_PROTO = 0 then caps.2 &&& ~~~c.cap else caps.2)
      else
        (caps.1 ||| c.cap, if c.flags &&& CAPFL_PROTO = 0 then caps.2 ||| c.cap else caps.2)

/-- The sign of the last element that names a capability. -/
def lastMention (es : List Str) (c : Capability) : Option Bool :=
  (es.reverse.find? fun e => T.lookup (splitSign e).2 = some c).map fun e => (splitSign e).1

/-- The net effect of the elements: the names that were set, and those that were removed. -/
def netNames (es : List Str) : List Str :=
  T.list.filterMap fun c => (T.lastMention es c).map fun neg =>
    if neg then '-' :: c.name else capMarks 0 c ++ c.name

/-- What an exact and atomic answer is. -/
def reqSpec (es : List Str) (s : CapClient) : Option (List Str) × U32 × U32 :=
  if ∀ e ∈ es, T.Accepts e then
    (some (T.netNames es), es.foldl T.foldStep (s.cap_client, s.cap_active))
  else (none, s.cap_client, s.cap_active)

end CapabTable

/-- The names of an answer, and the sets of the client. -/
def capOutcome (r : CapAnswer × CapClient) : Option (List Str) × U32 × U32 :=
  (match r.1 with
    | .ack lines => some (lines.flatMap fun l => capWords l.capbuf)
    | .nak _ => none, r.2.cap_client, r.2.cap_active)

theorem capShown_iff (set rem : U32) (c : Capability) : capShown set rem c = true ↔
    rem &&& c.cap ≠ 0 ∨ set &&& c.cap ≠ 0 ∨
      ¬ (rem ≠ 0 ∨ set ≠ 0 ∨ c.flags &&& CAPFL_HIDDEN ≠ 0) := by
  simp only [capShown, Bool.not_eq_true', Bool.and_eq_false_iff, Bool.or_eq_false_iff,
    decide_eq_false_iff_not]
  tauto

section Lines

variable {c : Char} {e t w : Str}

theorem capWords_append (h : isSpace c = true) (t e : Str) :
    capWords (t ++ c :: e) = capWords t ++ capWords e := by
  rw [capWords, List.splitOnP_append_cons _ _ h, List.filter_append]
  rfl

theorem capWords_word (hne : w ≠ []) (hw : ∀ c ∈ w, isSpace c = false) : capWords w = [w] := by
  rw [capWords, List.splitOnP_eq_singleton hw]
  simp [hne]

theorem capMarks_spec (rem : U32) (c : Capability) :
    (capMarks rem c).length ≤ 2 ∧ ∀ x ∈ capMarks rem c, isSpace x = false := by
  unfold capMarks
  split_ifs <;> exact ⟨by simp, by simp [isSpace]⟩

theorem capMarks_of_ne {rem : U32} {c : Capability} (h : rem &&& c.cap ≠ 0) :
    capMarks rem c = ['-'] := if_pos h

theorem capMarks_of_eq {rem : U32} {c : Capability} (h : rem &&& c.cap = 0) :
    capMarks rem c = capMarks 0 c := by
  have h0 : 0 &&& c.cap = 0 := BitVec.zero_and
  rw [capMarks, capMarks, if_neg (not_not.mpr h), if_neg (not_not.mpr h0)]

end Lines

/-- The lines so far hold these names. -/
structure CapBuf.Holds (b : CapBuf) (names : List Str) : Prop where
  loc : b.capbuf.length = b.loc
  names : (b.sent.flatMap fun l => capWords l.capbuf) ++ capWords b.capbuf = names

namespace CapBuf

variable {T : CapabTable} {b : CapBuf} {names : List Str} {cmdbuf : Str} {clen : ℕ} {rem : U32}
  {c : Capability}

theorem Holds.sentLine (h : b.Holds names) :
    (⟨[], 0, b.sent ++ [⟨cmdbuf, true, b.capbuf⟩]⟩ : CapBuf).Holds names :=
  ⟨rfl, by simpa [capWords_nil] using h.names⟩

/-- A name that fits goes behind a blank, or to an empty line with or without a blank. -/
theorem Holds.append {pfx w : Str} (h : b.Holds names) (hw : capWords w = [w])
    (hpfx : pfx = [' '] ∨ pfx = [] ∧ b.loc = 0) (hlen : b.loc + (pfx ++ w).length < IRCD_BUFSIZE) :
    (⟨b.capbuf ++ (pfx ++ w).take (IRCD_BUFSIZE - b.loc - 1), b.loc + (pfx ++ w).length,
      b.sent⟩ : CapBuf).Holds (names ++ [w]) := by
  rw [List.take_of_length_le (by omega)]
  refine ⟨by rw [List.length_append, h.loc], ?_⟩
  rw [← h.names, List.append_assoc]
  refine congrArg _ ?_
  rcases hpfx with rfl | ⟨rfl, hloc⟩
  · rw [← hw]
    exact capWords_append rfl b.capbuf w
  · have hnil : b.capbuf = [] := List.eq_nil_of_length_eq_zero (h.loc.trans hloc)
    rw [hnil, List.nil_append, List.nil_append, hw]
    rfl

theorem Holds.add (h : b.Holds names) (hc : c ∈ T.list) :
    (b.add cmdbuf clen rem c).Holds (names ++ [capMarks rem c ++ c.name]) := by
  obtain ⟨hmarks, hspace⟩ := capMarks_spec rem c
  have hshort := T.short c hc
  have hword : capWords (capMarks rem c ++ c.name) = [capMarks rem c ++ c.name] :=
    capWords_word (by simp [T.named c hc]) fun x hx => by
      rcases List.mem_append.mp hx with hx | hx
      · exact hspace x hx
      · exact isSpace_eq_false (T.printed c hc x hx)
  generalize hpfx : (if b.loc ≠ 0 then [' '] else []) = pfx
  have hcases : pfx = [' '] ∨ pfx = [] ∧ b.loc = 0 := by
    split_ifs at hpfx with h0
    · exact Or.inl hpfx.symm
    · exact Or.inr ⟨hpfx.symm, not_not.mp h0⟩
  have hone : pfx.length ≤ 1 := by
    rcases hcases with rfl | ⟨rfl, -⟩ <;> simp
  have hlen : c.name.length + (pfx ++ capMarks rem c).length =
      (pfx ++ (capMarks rem c ++ c.name)).length := by
    simp only [List.length_append]
    omega
  have htotal : (pfx ++ (capMarks rem c ++ c.name)).length < 512 := by
    simp only [List.length_append]
    omega
  simp only [CapBuf.add, hpfx, hlen, List.append_assoc pfx]
  split
  · refine h.sentLine.append hword ?_ (by simpa using htotal)
    exact hcases.imp_right fun h => ⟨h.1, rfl⟩
  · next hroom => exact h.append hword hcases (by omega)

theorem Holds.foldl {l : List Capability} (hl : ∀ c ∈ l, c ∈ T.list) (h : b.Holds names) :
    (l.foldl (CapBuf.add cmdbuf clen rem) b).Holds
      (names ++ l.map fun c => capMarks rem c ++ c.name) := by
  induction l generalizing b names with
  | nil => simpa using h
  | cons c l ih =>
      have hadd : (b.add cmdbuf clen rem c).Holds _ := h.add (hl c List.mem_cons_self)
      simpa using ih (fun c hc => hl c (List.mem_cons_of_mem _ hc)) hadd

end CapBuf

/-- The lines of a listing hold the names that are shown, once each and in order. -/
theorem sendCaplist_names (T : CapabTable) (me : Str) (s : CapClient) (set rem : U32)
    (subcmd : Str) : ((sendCaplist T me s set rem subcmd).flatMap fun l => capWords l.capbuf) =
      (T.list.filter (capShown set rem)).map fun c => capMarks rem c ++ c.name := by
  have hstart : (⟨[], 0, []⟩ : CapBuf).Holds [] := ⟨rfl, rfl⟩
  have hlist : ∀ c ∈ T.list.filter (capShown set rem), c ∈ T.list := fun c hc =>
    List.mem_of_mem_filter hc
  rw [sendCaplist, List.flatMap_append, List.flatMap_singleton]
  exact (hstart.foldl hlist).names

section Bits

variable {x c d : U32}

theorem or_and_self (x c : U32) : (x ||| c) &&& c = c := by
  ext i
  simp only [BitVec.getElem_and, BitVec.getElem_or]
  grind

theorem and_not_and_self (x c : U32) : x &&& ~~~c &&& c = 0 := by
  ext i
  simp

theorem or_and_of_disjoint (x : U32) (h : d &&& c = 0) : (x ||| d) &&& c = x &&& c := by
  ext i hi
  have hbit := congrArg (fun y : U32 => y[i]) h
  simp at hbit ⊢
  grind

theorem and_not_and_of_disjoint (x : U32) (h : d &&& c = 0) : x &&& ~~~d &&& c = x &&& c := by
  ext i hi
  have hbit := congrArg (fun y : U32 => y[i]) h
  simp at hbit ⊢
  grind

end Bits

namespace CapabTable

variable (T : CapabTable)

theorem nodup_names : (T.list.map fun c => c.name.map toLower).Nodup :=
  List.pairwise_map.mpr (T.sorted.imp fun h => h.ne)

theorem lookup_eq_some_iff {w : Str} {c : Capability} :
    T.lookup w = some c ↔ c ∈ T.list ∧ c.name.map toLower = w.map toLower := by
  constructor
  · intro h
    exact ⟨List.mem_of_find?_eq_some h, by simpa using List.find?_some h⟩
  · rintro ⟨hc, hname⟩
    cases hl : T.lookup w with
    | none =>
        rw [lookup, List.find?_eq_none] at hl
        exact absurd hname (by simpa using hl c hc)
    | some d =>
        have hd := List.mem_of_find?_eq_some hl
        have hdname : d.name.map toLower = w.map toLower := by simpa using List.find?_some hl
        rw [List.inj_on_of_nodup_map T.nodup_names hd hc (hdname.trans hname.symm)]

theorem accepts_iff (e : Str) : T.Accepts e ↔
    ∃ c, T.lookup (splitSign e).2 = some c ∧ capRefused (splitSign e).1 c = false := by
  unfold Accepts
  constructor
  · rintro ⟨c, hc, hname, hflags⟩
    refine ⟨c, T.lookup_eq_some_iff.mpr ⟨hc, hname⟩, ?_⟩
    cases hs : (splitSign e).1 <;> simpa [capRefused, hs] using hflags
  · rintro ⟨c, hl, hflags⟩
    obtain ⟨hc, hname⟩ := T.lookup_eq_some_iff.mp hl
    refine ⟨c, hc, hname, ?_⟩
    cases hs : (splitSign e).1 <;> simpa [capRefused, hs] using hflags

/-- What the loop does with one element. -/
def stepSets (st : CapSets) (e : Str) : CapSets :=
  (T.lookup (splitSign e).2).elim st (st.change (splitSign e).1)

end CapabTable

/-- The text ends in a character of an element. -/
def EndsInElement (t : Str) : Prop := ∃ c, t.getLast? = some c ∧ isSpace c = false

instance (t : Str) : Decidable (EndsInElement t) :=
  decidable_of_iff (t.getLast?.any (!isSpace ·) = true) (by
    unfold EndsInElement
    cases t.getLast? <;> simp)

theorem endsInElement_append {x y : Str} (hy : y ≠ []) :
    EndsInElement (x ++ y) ↔ EndsInElement y := by
  rw [EndsInElement, EndsInElement, List.getLast?_append_of_ne_nil _ hy]

theorem endsInElement_element {t : Str} (h : element t ≠ []) : EndsInElement (element t) :=
  ⟨_, List.getLast?_eq_some_getLast h, not_isSpace_of_mem_element (List.getLast_mem h)⟩

theorem not_endsInElement_space {t : Str} (h : t.dropWhile isSpace = []) : ¬ EndsInElement t := by
  rintro ⟨c, hc, hfalse⟩
  have hall := List.dropWhile_eq_nil_iff.mp h
  rw [hall c (List.mem_of_getLast? hc)] at hfalse
  cases hfalse

/-- A text that is not blank: blanks, the first element, and the text behind it. -/
theorem endsInElement_iff {t u : Str} (hu : t.dropWhile isSpace = u) (hne : u ≠ []) :
    EndsInElement t ↔ behind u = [] ∨ EndsInElement (behind u) := by
  have helement : element u ≠ [] := hu ▸ element_dropWhile_ne_nil (hu ▸ hne)
  have ht : t = t.takeWhile isSpace ++ u := hu ▸ List.takeWhile_append_dropWhile.symm
  rw [ht, endsInElement_append hne]
  by_cases hb : behind u = []
  · have hall : element u = u := by
      have := element_append_behind u
      rwa [hb, List.append_nil] at this
    exact iff_of_true (hall ▸ endsInElement_element helement) (Or.inl hb)
  · conv_lhs => rw [← element_append_behind u]
    rw [endsInElement_append hb]
    exact ⟨Or.inr, fun h => h.resolve_left hb⟩

theorem capWords_ne_nil {t : Str} (h : EndsInElement t) : capWords t ≠ [] := by
  have hne : t.dropWhile isSpace ≠ [] := fun h0 => not_endsInElement_space h0 h
  rw [← capWords_dropWhile, capWords_element (element_dropWhile_ne_nil hne)]
  exact List.cons_ne_nil _ _

namespace CapabTable

variable (T : CapabTable)

/-- One turn of the loop, for a text whose blanks are skipped. -/
theorem reqLoop_unfold {t u : Str} (hnul : NUL ∉ t) (hu : t.dropWhile isSpace = u)
    (st : CapSets) : T.reqLoop t st =
      match T.lookup (splitSign (element u)).2 with
      | none => none
      | some c =>
          if capRefused (splitSign (element u)).1 c then none
          else if behind u = [] then some (st.change (splitSign (element u)).1 c)
          else T.reqLoop (behind u) (st.change (splitSign (element u)).1 c) := by
  have hcall := T.findCap_eq hnul hu
  rw [reqLoop]
  simp only [hcall]
  cases T.lookup (splitSign (element u)).2 with
  | none => rfl
  | some c =>
      simp only
      split
      · rfl
      · split
        · next heq =>
            rw [hcall] at heq
            rw [if_pos (by simpa using heq)]
        · next heq =>
            rw [hcall] at heq
            split at heq
            · cases heq
            · next hb => rw [if_neg hb, ← Option.some.inj heq]

/-- The loop accepts when all elements are acceptable and the text ends in one. -/
theorem reqLoop_eq {t : Str} (hnul : NUL ∉ t) (st : CapSets) : T.reqLoop t st =
    if EndsInElement t ∧ ∀ e ∈ capWords t, T.Accepts e then
      some ((capWords t).foldl T.stepSets st) else none := by
  induction hn : t.length using Nat.strong_induction_on generalizing t st with
  | h n ih =>
      obtain ⟨u, hu⟩ : ∃ u, t.dropWhile isSpace = u := ⟨_, rfl⟩
      have hlookup := T.reqLoop_unfold hnul hu st
      by_cases hnil : u = []
      · subst hnil
        have hnone : T.lookup (splitSign (element [])).2 = none := T.lookup_nil
        rw [if_neg fun h => not_endsInElement_space hu h.1, hlookup, hnone]
      have helement : element u ≠ [] := hu ▸ element_dropWhile_ne_nil (hu ▸ hnil)
      have hwords : capWords t = element u :: capWords (behind u) := by
        rw [← capWords_dropWhile t, hu, capWords_element helement]
      have haccepts := T.accepts_iff (element u)
      simp only [hlookup, endsInElement_iff hu hnil, hwords, List.forall_mem_cons,
        List.foldl_cons, stepSets]
      cases hl : T.lookup (splitSign (element u)).2 with
      | none =>
          rw [hl] at haccepts
          rw [if_neg fun h => by simpa using haccepts.mp h.2.1]
      | some c =>
          cases hrefused : capRefused (splitSign (element u)).1 c with
          | true =>
              rw [if_neg fun h => by simpa [hl, hrefused] using haccepts.mp h.2.1]
              simp only [hrefused, if_true]
          | false =>
              have hyes : T.Accepts (element u) := haccepts.mpr ⟨c, hl, hrefused⟩
              simp only [hyes, hrefused, true_and, Option.elim_some, Bool.false_eq_true, if_false]
              by_cases hb : behind u = []
              · simp [hb, capWords_nil]
              · have hlt : (behind u).length < n := by
                  have h1 := length_behind_lt (hu ▸ hnil)
                  have h2 := (List.dropWhile_sublist (l := t) isSpace).length_le
                  rw [hu] at h1 h2
                  omega
                have hsub : NUL ∉ behind u := fun h => hnul
                  ((List.dropWhile_sublist _).subset (hu ▸ (List.dropWhile_sublist _).subset h))
                simp only [hb, if_false, false_or]
                exact ih _ hlt hsub _ rfl

theorem foldl_stepSets (es : List Str) (st : CapSets) :
    ((es.foldl T.stepSets st).cs, (es.foldl T.stepSets st).as) =
      es.foldl T.foldStep (st.cs, st.as) := by
  induction es generalizing st with
  | nil => rfl
  | cons e es ih =>
      have hstep : ((T.stepSets st e).cs, (T.stepSets st e).as) = T.foldStep (st.cs, st.as) e := by
        rw [stepSets, foldStep]
        cases T.lookup (splitSign e).2 with
        | none => rfl
        | some c => cases hneg : (splitSign e).1 <;> simp [CapSets.change]
      rw [List.foldl_cons, List.foldl_cons, ih, hstep]

theorem disjoint_of_ne {c d : Capability} (hd : d ∈ T.list) (hc : c ∈ T.list) (hne : d ≠ c) :
    d.cap &&& c.cap = 0 := by
  have hsymm : Std.Symm fun a b : Capability => a.cap &&& b.cap = 0 :=
    ⟨fun a b h => (BitVec.and_comm _ _).trans h⟩
  exact T.disjoint.forall hd hc hne

theorem lastMention_concat (es : List Str) (e : Str) (c : Capability) :
    T.lastMention (es ++ [e]) c =
      if T.lookup (splitSign e).2 = some c then some (splitSign e).1 else T.lastMention es c := by
  rw [lastMention, List.reverse_append, List.reverse_singleton, List.singleton_append]
  split
  · next h => rw [List.find?_cons_of_pos (by simpa using h)]; rfl
  · next h => rw [List.find?_cons_of_neg (by simpa using h)]; rfl

/-- The bits of a capability in the two sets tell its last mention. -/
theorem bits_foldl (es : List Str) {c : Capability} (hc : c ∈ T.list) (st : CapSets)
    (hst : st.set = 0 ∧ st.rem = 0) :
    let st := es.foldl T.stepSets st
    (st.rem &&& c.cap ≠ 0 ↔ T.lastMention es c = some true) ∧
      (st.set &&& c.cap ≠ 0 ↔ T.lastMention es c = some false) := by
  induction es using List.reverseRecOn with
  | nil => simp [hst, lastMention]
  | append_singleton es e ih =>
      simp only [List.foldl_concat, lastMention_concat, stepSets] at ih ⊢
      cases hl : T.lookup (splitSign e).2 with
      | none => simpa using ih
      | some d =>
          have hd := (T.lookup_eq_some_iff.mp hl).1
          by_cases hdc : d = c
          · subst hdc
            have hbit := T.bit d hd
            cases hneg : (splitSign e).1 <;>
              simpa [CapSets.change, or_and_self, and_not_and_self] using hbit
          · have hdisj := T.disjoint_of_ne hd hc hdc
            cases hneg : (splitSign e).1 <;>
              simpa [CapSets.change, or_and_of_disjoint _ hdisj, and_not_and_of_disjoint _ hdisj,
                hdc] using ih

/-- After an element something is set or removed. -/
theorem foldl_ne_zero {es : List Str} (hes : es ≠ []) (hall : ∀ e ∈ es, T.Accepts e)
    {st : CapSets} (hst : st.set = 0 ∧ st.rem = 0) :
    (es.foldl T.stepSets st).rem ≠ 0 ∨ (es.foldl T.stepSets st).set ≠ 0 := by
  have hlast := hall _ (List.getLast_mem hes)
  obtain ⟨d, hl, -⟩ := (T.accepts_iff _).mp hlast
  have hmention := T.lastMention_concat es.dropLast (es.getLast hes) d
  rw [List.dropLast_append_getLast, if_pos hl] at hmention
  obtain ⟨hrem, hset⟩ := T.bits_foldl es (T.lookup_eq_some_iff.mp hl).1 st hst
  rw [hmention] at hrem hset
  cases hneg : (splitSign (es.getLast hes)).1 with
  | true =>
      refine Or.inl fun h0 => hrem.mpr (by rw [hneg]) ?_
      rw [h0]
      exact BitVec.zero_and
  | false =>
      refine Or.inr fun h0 => hset.mpr (by rw [hneg]) ?_
      rw [h0]
      exact BitVec.zero_and

/-- The names that are shown are the net effect of the elements. -/
theorem shown_eq_netNames {es : List Str} (hes : es ≠ []) (hall : ∀ e ∈ es, T.Accepts e)
    {st : CapSets} (hst : st.set = 0 ∧ st.rem = 0) :
    ((T.list.filter (capShown (es.foldl T.stepSets st).set (es.foldl T.stepSets st).rem)).map
      fun c => capMarks (es.foldl T.stepSets st).rem c ++ c.name) = T.netNames es := by
  have hne := T.foldl_ne_zero hes hall hst
  have hbits (c : Capability) (hc : c ∈ T.list) := T.bits_foldl es hc st hst
  generalize es.foldl T.stepSets st = st' at *
  rw [netNames, ← List.filterMap_eq_map, List.filterMap_filter]
  refine List.filterMap_congr fun c hc => ?_
  obtain ⟨hrem, hset⟩ := hbits c hc
  have hshown := capShown_iff st'.set st'.rem c
  rw [hrem, hset] at hshown
  cases hm : T.lastMention es c with
  | none =>
      rw [if_neg]
      · rfl
      · rw [hshown, hm]
        rintro (h | h | h)
        · cases h
        · cases h
        · exact h (hne.imp_right Or.inl)
  | some neg =>
      rw [if_pos (hshown.mpr (by cases neg <;> simp [hm]))]
      rw [hm] at hrem
      cases neg with
      | true =>
          rw [Function.comp_apply, capMarks_of_ne (hrem.mpr rfl)]
          rfl
      | false =>
          have h0 : st'.rem &&& c.cap = 0 := by
            by_contra h
            simpa using hrem.mp h
          rw [Function.comp_apply, capMarks_of_eq h0]
          rfl

end CapabTable

/-- `CAP REQ` with a text is exact and atomic when the text ends in an element, or when one of its
elements is not acceptable. -/
theorem capReq_eq_spec_iff (T : CapabTable) (me : Str) (s : CapClient) {text : Str}
    (hnul : NUL ∉ text) :
    (capOutcome (T.capReq me s (some text)) = T.reqSpec (capWords text) s ↔
      EndsInElement text ∨ ∃ e ∈ capWords text, ¬ T.Accepts e) ∧
    ∀ t t', (T.findCap t).next = some t' → t'.length < t.length := by
  refine ⟨?_, fun t t' h => T.findCap_progress h⟩
  have hloop := T.reqLoop_eq hnul ⟨0, 0, s.cap_client, s.cap_active⟩
  generalize hs1 : (if s.unknown then
    { s with registration := s.registration ||| REG_NEED_CAP } else s) = s1
  have hcaps : s1.cap_client = s.cap_client ∧ s1.cap_active = s.cap_active := by
    rw [← hs1]
    split <;> exact ⟨rfl, rfl⟩
  simp only [CapabTable.capReq, hs1, hcaps, Option.elim_some, hloop, CapabTable.reqSpec]
  by_cases hall : ∀ e ∈ capWords text, T.Accepts e
  · have hno : ¬ ∃ e ∈ capWords text, ¬ T.Accepts e := by simpa using hall
    rw [if_pos hall, or_iff_left hno]
    by_cases hend : EndsInElement text
    · have hes := capWords_ne_nil hend
      have hfold := T.foldl_stepSets (capWords text) ⟨0, 0, s.cap_client, s.cap_active⟩
      rw [if_pos ⟨hend, hall⟩]
      refine iff_of_true ?_ hend
      have hnames := @CapabTable.shown_eq_netNames T _ hes hall
        ⟨0, 0, s.cap_client, s.cap_active⟩ ⟨rfl, rfl⟩
      simp only [capOutcome, sendCaplist_names, hnames, ← hfold]
    · rw [if_neg fun h => hend h.1]
      refine iff_of_false (fun h => ?_) hend
      cases congrArg Prod.fst h
  · have hyes : ∃ e ∈ capWords text, ¬ T.Accepts e := by simpa using hall
    rw [if_neg hall, if_neg fun h => hall h.2]
    exact iff_of_true (by rw [capOutcome, hcaps.1, hcaps.2]) (Or.inr hyes)

def capAlice : CapClient := ⟨"alice".toList, true, 0, 0, 0⟩

theorem capReq_eq_spec_iff_contradictory :
    (capOutcome (capabList.capReq "hub".toList capAlice (some "uhnames -uhnames".toList)) =
      capabList.reqSpec (capWords "uhnames -uhnames".toList) capAlice ↔
        EndsInElement "uhnames -uhnames".toList ∨
          ∃ e ∈ capWords "uhnames -uhnames".toList, ¬ capabList.Accepts e) ∧
    ∀ t t', (capabList.findCap t).next = some t' → t'.length < t.length :=
  capReq_eq_spec_iff capabList "hub".toList capAlice (by decide)

/-- A blank at the end makes an acceptable request fail. -/
theorem not_forall_capReq_eq_spec : ¬ ∀ text, NUL ∉ text →
    capOutcome (capabList.capReq "hub".toList capAlice (some text)) =
      capabList.reqSpec (capWords text) capAlice := fun h => by
  have htext := h "multi-prefix ".toList (by decide)
  revert htext
  decide +kernel

end Unirc
