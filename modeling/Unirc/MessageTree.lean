import Mathlib.Algebra.BigOperators.Pi
import Mathlib.Algebra.Order.BigOperators.Group.Finset
import Unirc.NameHash

/-!
# The tree of the commands

`parse.c` keeps the commands in a trie whose nodes count their links, and frees a node when the count
is zero. A character is the index of its low five bits.
-/

namespace Unirc

abbrev MAXPTRLEN : ℕ := 32

inductive MessageTree (μ : Type*)
  | node (links : ℤ) (msg : Option μ) (pointers : Fin MAXPTRLEN → Option (MessageTree μ))

/-- `*cmd & (MAXPTRLEN - 1)`. -/
def ptrIndex (c : Char) : Fin MAXPTRLEN := ⟨c.toNat % 32, Nat.mod_lt _ (by decide)⟩

/-- `IsAlpha`. -/
def isAlpha (c : Char) : Bool :=
  (0x41 ≤ c.toNat && c.toNat ≤ 0x5e) || (0x61 ≤ c.toNat && c.toNat ≤ 0x7e)

namespace MessageTree

variable {μ : Type*}

def links : MessageTree μ → ℤ
  | node links _ _ => links

def msg : MessageTree μ → Option μ
  | node _ msg _ => msg

def pointers : MessageTree μ → Fin MAXPTRLEN → Option (MessageTree μ)
  | node _ _ pointers => pointers

/-- A node that was just allocated. -/
def empty : MessageTree μ := node 0 none fun _ => none

/-- `add_msg_element`. -/
def addMsgElement (m : μ) : Str → MessageTree μ → MessageTree μ
  | [], t => node (t.links + 1) (some m) t.pointers
  | c :: cmd, t =>
      match t.pointers (ptrIndex c) with
      | some ntree => node t.links t.msg
          (Function.update t.pointers (ptrIndex c) (some (addMsgElement m cmd ntree)))
      | none => node (t.links + 1) t.msg
          (Function.update t.pointers (ptrIndex c) (some (addMsgElement m cmd empty)))

/-- `del_msg_element`; `none` if it would read behind the end of the command. -/
def delMsgElement : Str → MessageTree μ → Option (MessageTree μ)
  | [], t =>
      if t.msg.isSome then some (node (t.links - 1) none t.pointers)
      else
        match t.pointers 0 with
        | some _ => none
        | none => some t
  | c :: cmd, t =>
      match t.pointers (ptrIndex c) with
      | some ntree => (delMsgElement cmd ntree).map fun ntree =>
          if ntree.links = 0 then
            node (t.links - 1) t.msg (Function.update t.pointers (ptrIndex c) none)
          else node t.links t.msg (Function.update t.pointers (ptrIndex c) (some ntree))
      | none => some t

/-- `msg_tree_parse`. -/
def msgTreeParse : Str → MessageTree μ → Option μ
  | [], _ => none
  | c :: cmd, t =>
      if isAlpha c then
        match t.pointers (ptrIndex c) with
        | some mtree => if cmd = [] then mtree.msg else msgTreeParse cmd mtree
        | none => none
      else none

/-- The node at the end of a path. -/
def nodeAt : List (Fin MAXPTRLEN) → MessageTree μ → Option (MessageTree μ)
  | [], t => some t
  | i :: path, t => (t.pointers i).bind (nodeAt path)

def msgAt (path : List (Fin MAXPTRLEN)) (t : MessageTree μ) : Option μ := (t.nodeAt path).bind msg

/-- The pointers of a node that are set, and its message. -/
def count (t : MessageTree μ) : ℤ :=
  (∑ i, if (t.pointers i).isSome then 1 else 0) + if t.msg.isSome then 1 else 0

/-- Every node counts its links, and none but the root is without any. -/
structure Counted (t : MessageTree μ) : Prop where
  links : ∀ path n, t.nodeAt path = some n → n.links = n.count
  used : ∀ path n, path ≠ [] → t.nodeAt path = some n → n.links ≠ 0
  zero : ∀ path n, t.nodeAt path = some n → n.pointers 0 = none

@[simp] theorem links_node (links : ℤ) (msg : Option μ)
    (pointers : Fin MAXPTRLEN → Option (MessageTree μ)) : (node links msg pointers).links = links :=
  rfl

@[simp] theorem msg_node (links : ℤ) (msg : Option μ)
    (pointers : Fin MAXPTRLEN → Option (MessageTree μ)) : (node links msg pointers).msg = msg := rfl

@[simp] theorem pointers_node (links : ℤ) (msg : Option μ)
    (pointers : Fin MAXPTRLEN → Option (MessageTree μ)) :
    (node links msg pointers).pointers = pointers := rfl

theorem nodeAt_cons {t c : MessageTree μ} {i : Fin MAXPTRLEN} (hc : t.pointers i = some c)
    (path : List (Fin MAXPTRLEN)) : t.nodeAt (i :: path) = c.nodeAt path := by
  rw [nodeAt, hc]
  rfl

theorem nodeAt_cons_none {t : MessageTree μ} {i : Fin MAXPTRLEN} (hc : t.pointers i = none)
    (path : List (Fin MAXPTRLEN)) : t.nodeAt (i :: path) = none := by
  rw [nodeAt, hc]
  rfl

theorem exists_pointer {t n : MessageTree μ} {i : Fin MAXPTRLEN} {path : List (Fin MAXPTRLEN)}
    (h : t.nodeAt (i :: path) = some n) : ∃ c, t.pointers i = some c ∧ c.nodeAt path = some n :=
  Option.bind_eq_some_iff.mp h

theorem counted_iff {t : MessageTree μ} : Counted t ↔ t.links = t.count ∧ t.pointers 0 = none ∧
    ∀ i c, t.pointers i = some c → Counted c ∧ c.links ≠ 0 := by
  constructor
  · intro h
    refine ⟨h.links [] t rfl, h.zero [] t rfl, fun i c hc => ⟨⟨fun path n hn => ?_,
      fun path n _ hn => ?_, fun path n hn => ?_⟩, ?_⟩⟩
    · exact h.links (i :: path) n ((nodeAt_cons hc path).trans hn)
    · exact h.used (i :: path) n nofun ((nodeAt_cons hc path).trans hn)
    · exact h.zero (i :: path) n ((nodeAt_cons hc path).trans hn)
    · exact h.used [i] c nofun (nodeAt_cons hc [])
  · rintro ⟨hlinks, hzero, hchild⟩
    refine ⟨fun path n hn => ?_, fun path n hpath hn => ?_, fun path n hn => ?_⟩
    · cases path with
      | nil =>
          cases hn
          exact hlinks
      | cons i path =>
          obtain ⟨c, hc, hn⟩ := exists_pointer hn
          exact (hchild i c hc).1.links path n hn
    · cases path with
      | nil => exact absurd rfl hpath
      | cons i path =>
          obtain ⟨c, hc, hn⟩ := exists_pointer hn
          cases path with
          | nil =>
              cases hn
              exact (hchild i _ hc).2
          | cons j path => exact (hchild i c hc).1.used (j :: path) n nofun hn
    · cases path with
      | nil =>
          cases hn
          exact hzero
      | cons i path =>
          obtain ⟨c, hc, hn⟩ := exists_pointer hn
          exact (hchild i c hc).1.zero path n hn

theorem count_update (t : MessageTree μ) (links : ℤ) (i : Fin MAXPTRLEN)
    (v : Option (MessageTree μ)) : (node links t.msg (Function.update t.pointers i v)).count =
      t.count + (if v.isSome then 1 else 0) - if (t.pointers i).isSome then 1 else 0 := by
  have hsum : ∀ f : Fin MAXPTRLEN → Option (MessageTree μ),
      (∑ j, if (f j).isSome then (1 : ℤ) else 0) =
        (if (f i).isSome then 1 else 0) + ∑ j ∈ Finset.univ.erase i,
          if (f j).isSome then (1 : ℤ) else 0 := fun f =>
    (Finset.add_sum_erase Finset.univ _ (Finset.mem_univ i)).symm
  have hrest : ∑ j ∈ Finset.univ.erase i,
      (if (Function.update t.pointers i v j).isSome then (1 : ℤ) else 0) =
        ∑ j ∈ Finset.univ.erase i, if (t.pointers j).isSome then (1 : ℤ) else 0 :=
    Finset.sum_congr rfl fun j hj => by
      rw [Function.update_of_ne (Finset.ne_of_mem_erase hj)]
  rw [count, count, pointers_node, msg_node, hsum, hsum t.pointers, hrest, Function.update_self]
  omega

theorem count_nonneg (t : MessageTree μ) : 0 ≤ t.count := by
  refine add_nonneg (Finset.sum_nonneg fun i _ => ?_) ?_ <;> split <;> decide

/-- A node without links has nothing below it. -/
theorem msgAt_eq_none {t : MessageTree μ} (h : t.count = 0) (path : List (Fin MAXPTRLEN)) :
    t.msgAt path = none := by
  have hsum : 0 ≤ ∑ i, if (t.pointers i).isSome then (1 : ℤ) else 0 :=
    Finset.sum_nonneg fun i _ => by split <;> decide
  have hmsg : 0 ≤ if t.msg.isSome then (1 : ℤ) else 0 := by split <;> decide
  rw [count] at h
  cases path with
  | nil =>
      have : ¬t.msg.isSome := fun hm => by
        rw [if_pos hm] at h
        omega
      simpa [msgAt, nodeAt] using this
  | cons i path =>
      have hzero := (Finset.sum_eq_zero_iff_of_nonneg fun i _ => by split <;> decide).mp
        (show (∑ i, if (t.pointers i).isSome then (1 : ℤ) else 0) = 0 by omega) i
        (Finset.mem_univ i)
      have hnone : t.pointers i = none := by
        by_contra hne
        rw [if_pos (Option.isSome_iff_ne_none.mpr hne)] at hzero
        cases hzero
      rw [msgAt, nodeAt_cons_none hnone]
      rfl

variable {t : MessageTree μ} {cmd : Str} {m : μ}

theorem ptrIndex_ne_zero {c : Char} (hc : isAlpha c = true) : ptrIndex c ≠ 0 := by
  intro h
  have hzero : c.toNat % 32 = 0 := congrArg Fin.val h
  simp only [isAlpha, Bool.or_eq_true, Bool.and_eq_true, decide_eq_true_eq] at hc
  omega

/-- The index of a letter is its letter, whatever the case. -/
theorem ptrIndex_eq_iff {c d : Char} (hc : isAlpha c = true) (hd : isAlpha d = true) :
    ptrIndex c = ptrIndex d ↔ toLower c = toLower d := by
  rw [ptrIndex, ptrIndex, Fin.mk.injEq, ← Char.toNat_inj, toNat_toLower, toNat_toLower]
  simp only [isAlpha, Bool.or_eq_true, Bool.and_eq_true, decide_eq_true_eq] at hc hd
  split_ifs <;> omega

theorem map_ptrIndex_eq_iff {s : Str} (hs : s.all isAlpha = true) (hcmd : cmd.all isAlpha = true) :
    s.map ptrIndex = cmd.map ptrIndex ↔ fold s = fold cmd := by
  induction s generalizing cmd with
  | nil => cases cmd <;> simp [fold]
  | cons c s ih =>
      cases cmd with
      | nil => simp [fold]
      | cons d cmd =>
          rw [List.all_cons, Bool.and_eq_true] at hs hcmd
          have hrest := ih hs.2 hcmd.2
          rw [fold, fold] at hrest ⊢
          rw [List.map_cons, List.map_cons, List.map_cons, List.map_cons, List.cons.injEq,
            List.cons.injEq, hrest, ptrIndex_eq_iff hs.1 hcmd.1]

theorem msgAt_cons (t : MessageTree μ) (i : Fin MAXPTRLEN) (path : List (Fin MAXPTRLEN)) :
    t.msgAt (i :: path) = (t.pointers i).bind (msgAt path) := by
  rw [msgAt, nodeAt, Option.bind_assoc]
  rfl

theorem msgAt_empty (path : List (Fin MAXPTRLEN)) : (empty : MessageTree μ).msgAt path = none := by
  cases path <;> rfl

theorem counted_empty : Counted (empty : MessageTree μ) :=
  counted_iff.mpr ⟨by simp [empty, count], rfl, nofun⟩

theorem Counted.setMsg (h : Counted t) (v : Option μ) {links : ℤ}
    (hlinks : links = t.links + (if v.isSome then 1 else 0) - if t.msg.isSome then 1 else 0) :
    Counted (node links v t.pointers) := by
  obtain ⟨hcount, hzero, hchild⟩ := counted_iff.mp h
  refine counted_iff.mpr ⟨?_, hzero, hchild⟩
  rw [count] at hcount
  rw [count, links_node, msg_node, pointers_node]
  omega

theorem Counted.setPointer (h : Counted t) {i : Fin MAXPTRLEN} (hi : i ≠ 0)
    {v : Option (MessageTree μ)} (hv : ∀ c ∈ v, Counted c ∧ c.links ≠ 0) {links : ℤ}
    (hlinks : links = t.links + (if v.isSome then 1 else 0) -
      if (t.pointers i).isSome then 1 else 0) :
    Counted (node links t.msg (Function.update t.pointers i v)) := by
  obtain ⟨hcount, hzero, hchild⟩ := counted_iff.mp h
  refine counted_iff.mpr ⟨?_, ?_, fun j c hc => ?_⟩
  · rw [count_update, links_node]
    omega
  · rw [pointers_node, Function.update_of_ne hi.symm]
    exact hzero
  · rw [pointers_node, Function.update_apply] at hc
    split at hc
    · exact hv c hc
    · exact hchild j c hc

theorem Counted.links_pos (h : Counted t) {i : Fin MAXPTRLEN} {c : MessageTree μ}
    (hc : t.pointers i = some c) : 0 < t.links := by
  have hcount := count_update t 0 i none
  have hnonneg := count_nonneg (node 0 t.msg (Function.update t.pointers i none))
  rw [hc] at hcount
  have hlinks := (counted_iff.mp h).1
  simp only [Option.isSome_none, Option.isSome_some, if_true, Bool.false_eq_true, if_false] at hcount
  omega

theorem counted_add (h : Counted t) (hcmd : cmd.all isAlpha = true)
    (hfree : t.msgAt (cmd.map ptrIndex) = none) :
    Counted (addMsgElement m cmd t) ∧ 0 < (addMsgElement m cmd t).links := by
  induction cmd generalizing t with
  | nil =>
      have hmsg : t.msg = none := hfree
      have hlinks := (counted_iff.mp h).1
      have hnonneg := count_nonneg t
      refine ⟨h.setMsg (some m) (by simp [hmsg]), ?_⟩
      rw [addMsgElement, links_node]
      omega
  | cons c cmd ih =>
      rw [List.all_cons, Bool.and_eq_true] at hcmd
      rw [List.map_cons, msgAt_cons] at hfree
      rw [addMsgElement]
      cases hc : t.pointers (ptrIndex c) with
      | some ntree =>
          rw [hc] at hfree
          have hntree := ((counted_iff.mp h).2.2 _ ntree hc).1
          obtain ⟨hadd, hpos⟩ := ih hntree hcmd.2 hfree
          refine ⟨h.setPointer (ptrIndex_ne_zero hcmd.1) (fun n hn => ?_) (by simp [hc]),
            h.links_pos hc⟩
          cases hn
          exact ⟨hadd, hpos.ne'⟩
      | none =>
          obtain ⟨hadd, hpos⟩ := ih counted_empty hcmd.2 (msgAt_empty _)
          refine ⟨h.setPointer (ptrIndex_ne_zero hcmd.1) (fun n hn => ?_) (by simp [hc]), ?_⟩
          · cases hn
            exact ⟨hadd, hpos.ne'⟩
          · have hlinks := (counted_iff.mp h).1
            have hnonneg := count_nonneg t
            rw [links_node]
            omega

theorem msgAt_add (path : List (Fin MAXPTRLEN)) : (addMsgElement m cmd t).msgAt path =
    if path = cmd.map ptrIndex then some m else t.msgAt path := by
  induction cmd generalizing t path with
  | nil =>
      cases path with
      | nil => rfl
      | cons i path =>
          rw [if_neg nofun, msgAt_cons, msgAt_cons]
          rfl
  | cons c cmd ih =>
      cases path with
      | nil =>
          rw [if_neg nofun, addMsgElement]
          split <;> rfl
      | cons i path =>
          have hsame : i :: path = (c :: cmd).map ptrIndex ↔
              i = ptrIndex c ∧ path = cmd.map ptrIndex := by
            rw [List.map_cons, List.cons.injEq]
          rw [addMsgElement, msgAt_cons t]
          by_cases hi : i = ptrIndex c
          · subst hi
            cases hc : t.pointers (ptrIndex c) with
            | some ntree =>
                dsimp only
                rw [msgAt_cons, pointers_node, Function.update_self, Option.bind_some, ih]
                simp
            | none =>
                dsimp only
                rw [msgAt_cons, pointers_node, Function.update_self, Option.bind_some, ih,
                  msgAt_empty]
                simp
          · rw [if_neg fun h => hi (hsame.mp h).1]
            cases hc : t.pointers (ptrIndex c) <;> dsimp only <;>
              rw [msgAt_cons, pointers_node, Function.update_of_ne hi]

theorem del_spec (h : Counted t) (hcmd : cmd.all isAlpha = true) :
    ∃ t', delMsgElement cmd t = some t' ∧ Counted t' ∧ ∀ path, t'.msgAt path =
      if path = cmd.map ptrIndex then none else t.msgAt path := by
  induction cmd generalizing t with
  | nil =>
      rw [delMsgElement]
      cases hmsg : t.msg with
      | some m =>
          refine ⟨_, rfl, h.setMsg none (by simp [hmsg]), fun path => ?_⟩
          cases path with
          | nil => rfl
          | cons i path =>
              rw [msgAt_cons, msgAt_cons]
              rfl
      | none =>
          rw [if_neg nofun, (counted_iff.mp h).2.1]
          refine ⟨t, rfl, h, fun path => ?_⟩
          cases path with
          | nil => exact hmsg
          | cons i path => rfl
  | cons c cmd ih =>
      rw [List.all_cons, Bool.and_eq_true] at hcmd
      have hsame : ∀ i path, i :: path = (c :: cmd).map ptrIndex ↔
          i = ptrIndex c ∧ path = cmd.map ptrIndex := fun i path => by
        rw [List.map_cons, List.cons.injEq]
      rw [delMsgElement]
      cases hc : t.pointers (ptrIndex c) with
      | none =>
          refine ⟨t, rfl, h, fun path => ?_⟩
          split
          · rename_i hpath
            rw [hpath, List.map_cons, msgAt_cons, hc]
            rfl
          · rfl
      | some ntree =>
          obtain ⟨ntree', hrun, hcounted, hmsg⟩ := ih ((counted_iff.mp h).2.2 _ ntree hc).1 hcmd.2
          have hbelow : ∀ path, ntree'.msgAt path =
              if ptrIndex c :: path = (c :: cmd).map ptrIndex then none
              else t.msgAt (ptrIndex c :: path) := by
            intro path
            rw [hmsg, msgAt_cons, hc]
            simp
          have hset : ∀ (v : Option (MessageTree μ)) (links : ℤ),
              (∀ path, v.bind (msgAt path) = ntree'.msgAt path) → ∀ path,
              (node links t.msg (Function.update t.pointers (ptrIndex c) v)).msgAt path =
                if path = (c :: cmd).map ptrIndex then none else t.msgAt path := by
            intro v links hv path
            cases path with
            | nil => rfl
            | cons i path =>
                rw [msgAt_cons, pointers_node]
                by_cases hi : i = ptrIndex c
                · rw [hi, Function.update_self, hv, hbelow]
                · rw [Function.update_of_ne hi, if_neg fun h => hi ((hsame i path).mp h).1,
                    msgAt_cons]
          dsimp only
          rw [hrun]
          by_cases hlinks : ntree'.links = 0
          · refine ⟨_, congrArg some (if_pos hlinks), h.setPointer (ptrIndex_ne_zero hcmd.1)
              (fun _ hn => absurd hn (Option.not_mem_none _)) (by simp [hc]), hset none _ fun path => ?_⟩
            exact (msgAt_eq_none (((counted_iff.mp hcounted).1).symm.trans hlinks) path).symm
          · refine ⟨_, congrArg some (if_neg hlinks), h.setPointer (ptrIndex_ne_zero hcmd.1)
              (fun n hn => ?_) (by simp [hc]), hset (some ntree') _ fun path => rfl⟩
            cases hn
            exact ⟨hcounted, hlinks⟩

/-- A command that is not there is not deleted. -/
theorem del_absent (h : Counted t) (hfree : t.msgAt (cmd.map ptrIndex) = none) :
    delMsgElement cmd t = some t := by
  induction cmd generalizing t with
  | nil =>
      have hmsg : t.msg = none := hfree
      rw [delMsgElement, hmsg, if_neg nofun, (counted_iff.mp h).2.1]
  | cons c cmd ih =>
      rw [delMsgElement]
      cases hc : t.pointers (ptrIndex c) with
      | none => rfl
      | some ntree =>
          obtain ⟨hcounted, hlinks⟩ := (counted_iff.mp h).2.2 _ ntree hc
          rw [List.map_cons, msgAt_cons, hc] at hfree
          dsimp only
          rw [ih hcounted hfree, Option.map_some, if_neg hlinks, ← hc, Function.update_eq_self]
          obtain ⟨links, msg, pointers⟩ := t
          rfl

theorem msgTreeParse_eq (s : Str) (t : MessageTree μ) : msgTreeParse s t =
    if s ≠ [] ∧ s.all isAlpha = true then t.msgAt (s.map ptrIndex) else none := by
  induction s generalizing t with
  | nil => rfl
  | cons c s ih =>
      rw [msgTreeParse, List.map_cons, msgAt_cons, List.all_cons]
      cases hc : isAlpha c with
      | false => simp
      | true =>
          rw [if_pos rfl]
          cases t.pointers (ptrIndex c) with
          | none => simp
          | some mtree =>
              by_cases hs : s = []
              · subst hs
                rfl
              · simp [hs, ih]

end MessageTree

/-- The name of a command. -/
abbrev CommandName := {s : Str // s ≠ [] ∧ s.all isAlpha = true}

open MessageTree

section

variable {μ : Type*} (cmd : μ → CommandName)

/-- `mod_add_cmd`. -/
def modAddCmd (t : MessageTree μ) (m : μ) : MessageTree μ :=
  if (msgTreeParse (cmd m).val t).isSome then t else addMsgElement m (cmd m).val t

/-- `mod_del_cmd`. -/
def modDelCmd (t : MessageTree μ) (m : μ) : Option (MessageTree μ) := delMsgElement (cmd m).val t

/-- The tree, and which message is registered under a name. -/
structure CommandRun (μ : Type*) where
  tree : MessageTree μ
  registry : Str → Option μ

inductive CommandEvent (μ : Type*)
  | add (m : μ)
  | del (m : μ)

namespace CommandRun

variable [DecidableEq μ]

def step (s : CommandRun μ) : CommandEvent μ → Option (CommandRun μ)
  | .add m => some {
      tree := modAddCmd cmd s.tree m
      registry :=
        if s.registry (fold (cmd m).val) = none then
          Function.update s.registry (fold (cmd m).val) (some m)
        else s.registry }
  | .del m => (modDelCmd cmd s.tree m).map fun tree => {
      tree := tree
      registry :=
        if s.registry (fold (cmd m).val) = some m then
          Function.update s.registry (fold (cmd m).val) none
        else s.registry }

def run : CommandRun μ → List (CommandEvent μ) → Option (CommandRun μ) := List.foldlM (step cmd)

/-- No command is registered. -/
def start : CommandRun μ := ⟨empty, fun _ => none⟩

/-- A message is deleted when it is registered, or nothing is under its name. -/
def Legal (s : CommandRun μ) : CommandEvent μ → Prop
  | .add _ => True
  | .del m => s.registry (fold (cmd m).val) = some m ∨ s.registry (fold (cmd m).val) = none

def LegalRun (s : CommandRun μ) : List (CommandEvent μ) → Prop
  | [] => True
  | e :: es => s.Legal cmd e ∧ ∀ s', s.step cmd e = some s' → LegalRun s' es

omit [DecidableEq μ] in
/-- The tree finds what is registered, whatever the case. -/
def Refines (s : CommandRun μ) : Prop := ∀ str, msgTreeParse str s.tree =
  if str ≠ [] ∧ str.all isAlpha = true then s.registry (fold str) else none

omit [DecidableEq μ] in
theorem refines_iff (s : CommandRun μ) : s.Refines ↔ ∀ str, str ≠ [] → str.all isAlpha = true →
    s.tree.msgAt (str.map ptrIndex) = s.registry (fold str) := by
  refine ⟨fun h str hne hall => ?_, fun h str => ?_⟩
  · have := h str
    rwa [msgTreeParse_eq, if_pos ⟨hne, hall⟩, if_pos ⟨hne, hall⟩] at this
  · rw [msgTreeParse_eq]
    split
    · rename_i hname
      exact h str hname.1 hname.2
    · rfl

variable {cmd} {s : CommandRun μ}

omit [DecidableEq μ] in
theorem modAddCmd_counted (h : s.tree.Counted) (m : μ) : (modAddCmd cmd s.tree m).Counted := by
  rw [modAddCmd, msgTreeParse_eq, if_pos (cmd m).property]
  split
  · exact h
  · rename_i hfree
    exact (counted_add h (cmd m).property.2 (by simpa using hfree)).1

theorem step_counted (h : s.tree.Counted) (e : CommandEvent μ) :
    ∃ s', s.step cmd e = some s' ∧ s'.tree.Counted := by
  cases e with
  | add m => exact ⟨_, rfl, modAddCmd_counted h m⟩
  | del m =>
      obtain ⟨t', hrun, hcounted, -⟩ := del_spec h (cmd m).property.2
      rw [step, modDelCmd, hrun]
      exact ⟨_, rfl, hcounted⟩

theorem step_refines (hcounted : s.tree.Counted) (h : s.Refines) {e : CommandEvent μ}
    (hlegal : s.Legal cmd e) {s' : CommandRun μ} (hstep : s.step cmd e = some s') :
    s'.Refines := by
  rw [refines_iff] at h ⊢
  intro str hne hall
  cases e with
  | add m =>
      cases hstep
      obtain ⟨hcmdne, hcmdall⟩ := (cmd m).property
      have hm := h (cmd m).val hcmdne hcmdall
      dsimp only
      rw [modAddCmd, msgTreeParse_eq, if_pos (cmd m).property, hm]
      cases hreg : s.registry (fold (cmd m).val) with
      | some m' => exact h str hne hall
      | none =>
          rw [if_neg nofun, if_pos rfl, msgAt_add, Function.update_apply, h str hne hall]
          exact if_congr (map_ptrIndex_eq_iff hall hcmdall) rfl rfl
  | del m =>
      obtain ⟨hcmdne, hcmdall⟩ := (cmd m).property
      obtain ⟨t', hrun, -, hmsg⟩ := del_spec hcounted hcmdall
      rw [step, modDelCmd, hrun] at hstep
      cases hstep
      dsimp only
      rw [hmsg, h str hne hall]
      rcases hlegal with hreg | hreg
      · rw [if_pos hreg, Function.update_apply]
        exact if_congr (map_ptrIndex_eq_iff hall hcmdall) rfl rfl
      · have hnot : ¬s.registry (fold (cmd m).val) = some m := by
          rw [hreg]
          exact nofun
        rw [if_neg hnot]
        simp only [map_ptrIndex_eq_iff hall hcmdall]
        split
        · rename_i hsame
          rw [hsame, hreg]
        · rfl

theorem run_counted (h : s.tree.Counted) (es : List (CommandEvent μ)) :
    ∃ s', s.run cmd es = some s' ∧ s'.tree.Counted := by
  induction es generalizing s with
  | nil => exact ⟨s, rfl, h⟩
  | cons e es ih =>
      obtain ⟨s₁, hstep, h₁⟩ := step_counted h e
      obtain ⟨s', hrun, h'⟩ := ih h₁
      refine ⟨s', ?_, h'⟩
      rw [run, List.foldlM_cons, hstep]
      exact hrun

theorem run_refines (hcounted : s.tree.Counted) (h : s.Refines) {es : List (CommandEvent μ)}
    (hlegal : s.LegalRun cmd es) {s' : CommandRun μ} (hrun : s.run cmd es = some s') :
    s'.Refines := by
  induction es generalizing s with
  | nil =>
      cases hrun
      exact h
  | cons e es ih =>
      obtain ⟨s₁, hstep, h₁⟩ := step_counted hcounted e
      rw [run, List.foldlM_cons, hstep] at hrun
      exact ih h₁ (step_refines hcounted h hlegal.1 hstep) (hlegal.2 s₁ hstep) hrun

/-- In every run the nodes count their links and none is left over; in every run that deletes only
what is registered, or what nobody has, the tree is the registry. -/
theorem commandTree_refines (es : List (CommandEvent μ)) :
    ∃ s, start.run cmd es = some s ∧ s.tree.Counted ∧ (start.LegalRun cmd es → s.Refines ∧
      ∀ m, s.registry (fold (cmd m).val) = none → modDelCmd cmd s.tree m = some s.tree) := by
  obtain ⟨s, hrun, hcounted⟩ := @run_counted _ cmd _ start counted_empty es
  refine ⟨s, hrun, hcounted, fun hlegal => ?_⟩
  have hrefines : s.Refines := by
    refine @run_refines _ cmd _ start counted_empty ?_ es hlegal s hrun
    exact (refines_iff start).mpr fun str _ _ => msgAt_empty _
  refine ⟨hrefines, fun m hm => del_absent hcounted ?_⟩
  rw [(refines_iff s).mp hrefines _ (cmd m).property.1 (cmd m).property.2, hm]

end CommandRun

end

/-- One command in two spellings. -/
def fooCommands : Bool → CommandName
  | true => ⟨['F', 'O', 'O'], by decide⟩
  | false => ⟨['f', 'o', 'o'], by decide⟩

namespace CommandRun

theorem commandTree_refines_foo : start.LegalRun fooCommands [.add true, .add false, .del true] ∧
    ∃ s, start.run fooCommands [.add true, .add false, .del true] = some s ∧ s.Refines := by
  have hlegal : start.LegalRun fooCommands [.add true, .add false, .del true] := by
    refine ⟨trivial, fun s hs => ⟨trivial, fun s' hs' => ⟨.inl ?_, fun _ _ => trivial⟩⟩⟩
    cases hs
    cases hs'
    rfl
  obtain ⟨s, hrun, -, hs⟩ := @commandTree_refines _ fooCommands _ [.add true, .add false, .del true]
  exact ⟨hlegal, s, hrun, (hs hlegal).1⟩

/-- The spelling that was refused is deleted, and the command is gone. -/
theorem not_commandTree_refines : ¬ ∀ (es : List (CommandEvent Bool)) s,
    start.run fooCommands es = some s → s.Refines := by
  intro h
  have := h [.add true, .add false, .del false] _ rfl ['F', 'O', 'O']
  exact nomatch this

end CommandRun

end Unirc
