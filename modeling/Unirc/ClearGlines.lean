import Mathlib.Data.Fintype.Basic
import Unirc.ConfTable
import Unirc.GlineMask

/-!
# Clearing the G-lines

`CLEAR_GLINES` walks every chain of the address table and has `remove_gline_match2` unlink and free
what it finds. The walk goes on with the `next` of the record it stands on.
-/

namespace Unirc

def CONF_GLINE : U32 := 0x00008000

deriving instance DecidableEq for RecMask, AddressRec

/-- The address table, and the access items on `temporary_glines`. -/
structure GlineTable where
  table : ConfTable
  temporaryGlines : List ℕ

namespace GlineTable

variable (item : ℕ → AccessItem)

/-- What the loop over `temporary_glines` reads of an item. -/
def glineOf (a : ℕ) : Gline := ⟨(item a).user, (item a).host, [], 0⟩

def removeGlineMatch2 (s : GlineTable) (user host : Str) : GlineTable × Bool :=
  match s.temporaryGlines.find? fun a => sameGline user host (glineOf item a) with
  | none => (s, false)
  | some a => (⟨s.table.deleteOneAddressConf item a, s.temporaryGlines.erase a⟩, true)

/-- The record is in its chain. When it is not any more, it was freed. -/
def Linked (s : GlineTable) (i : ℕ) (arec : AddressRec) : Prop := arec ∈ s.table.atable i

instance (s : GlineTable) (i : ℕ) (arec : AddressRec) : Decidable (s.Linked i arec) :=
  inferInstanceAs (Decidable (arec ∈ s.table.atable i))

/-- The body of the loop, at a record. -/
def clearRecord (s : GlineTable) (arec : AddressRec) : GlineTable :=
  if arec.type = CONF_GLINE then
    (s.removeGlineMatch2 item (item arec.aconf).user (item arec.aconf).host).1
  else s

/-- The walk along the chain `i`, which comes to the records that are still in it. It is `none` when
it reads the link of a record that was freed. -/
def clearChain (i : ℕ) : List AddressRec → GlineTable → Option GlineTable
  | [], s => some s
  | arec :: arecs, s =>
      if s.Linked i arec then
        let s := s.clearRecord item arec
        if s.Linked i arec then clearChain i arecs s else none
      else clearChain i arecs s

def clearGlines (s : GlineTable) : Option GlineTable :=
  (List.range ATABLE_SIZE).foldlM (fun s i => clearChain item i (s.table.atable i) s) s

/-- No G-line is in the table. -/
def Empty (s : GlineTable) : Prop :=
  ∀ i < ATABLE_SIZE, ∀ arec, s.Linked i arec → arec.type ≠ CONF_GLINE

/-- `CLEAR_GLINES` does what it is for: it follows no link of a freed record, no G-line is left, and
every other record is left and found. -/
structure Clears (crypt : Str → Str → Str) (s s' : GlineTable) : Prop where
  run : s.clearGlines item = some s'
  empty : s'.Empty
  keeps : ∀ i arec, s.Linked i arec → arec.type ≠ CONF_GLINE → s'.Linked i arec
  finds : ∀ q : Lookup, q.type &&& ~~~1 ≠ CONF_GLINE →
    s'.table.findConfByAddress crypt item q = s.table.findConfByAddress crypt item q

variable {item} {s s' : GlineTable} {i : ℕ} {arecs : List AddressRec}

theorem clearRecord_of_ne {arec : AddressRec} (h : arec.type ≠ CONF_GLINE) :
    s.clearRecord item arec = s := if_neg h

/-- Where the walk ends, a G-line is left when there was one: the last one it stood on. -/
theorem not_empty_of_clearChain (hi : i < ATABLE_SIZE) (hrun : clearChain item i arecs s = some s')
    (h : ¬ s.Empty) : ¬ s'.Empty := by
  induction arecs generalizing s with
  | nil =>
      obtain rfl := Option.some.inj hrun
      exact h
  | cons arec arecs ih =>
      rw [clearChain] at hrun
      split at hrun
      · dsimp only at hrun
        split at hrun
        · rename_i hlinked
          refine ih hrun ?_
          by_cases htype : arec.type = CONF_GLINE
          · exact fun hempty => hempty i hi arec hlinked htype
          · rwa [clearRecord_of_ne htype]
        · cases hrun
      · exact ih hrun h

theorem not_empty_of_clearGlines (hrun : s.clearGlines item = some s') (h : ¬ s.Empty) :
    ¬ s'.Empty := by
  have hwalk (is : List ℕ) (his : ∀ i ∈ is, i < ATABLE_SIZE) (s : GlineTable) (h : ¬ s.Empty)
      (hrun : is.foldlM (fun s i => clearChain item i (s.table.atable i) s) s = some s') :
      ¬ s'.Empty := by
    induction is generalizing s with
    | nil =>
        obtain rfl := Option.some.inj hrun
        exact h
    | cons i is ih =>
        rw [List.foldlM_cons] at hrun
        obtain ⟨s₁, hchain, hrest⟩ := Option.bind_eq_some_iff.mp hrun
        exact ih (fun j hj => his j (List.mem_cons_of_mem i hj)) s₁
          (not_empty_of_clearChain (his i List.mem_cons_self) hchain h) hrest
  exact hwalk _ (fun i => List.mem_range.mp) s h hrun

theorem clearChain_of_ne (h : ∀ arec ∈ arecs, arec.type ≠ CONF_GLINE) :
    clearChain item i arecs s = some s := by
  induction arecs with
  | nil => rfl
  | cons arec arecs ih =>
      have ih := ih fun a ha => h a (List.mem_cons_of_mem arec ha)
      rw [clearChain]
      split
      · rename_i hlinked
        rw [clearRecord_of_ne (h arec List.mem_cons_self), if_pos hlinked, ih]
      · exact ih

theorem clearGlines_of_empty (h : s.Empty) : s.clearGlines item = some s := by
  have hwalk (is : List ℕ) (his : ∀ i ∈ is, i < ATABLE_SIZE) :
      is.foldlM (fun s i => clearChain item i (s.table.atable i) s) s = some s := by
    induction is with
    | nil => rfl
    | cons i is ih =>
        have hchain : clearChain item i (s.table.atable i) s = some s :=
          clearChain_of_ne fun arec harec => h i (his i List.mem_cons_self) arec harec
        rw [List.foldlM_cons, hchain]
        exact ih fun j hj => his j (List.mem_cons_of_mem i hj)
  exact hwalk _ fun i => List.mem_range.mp

/-- The G-lines are cleared as they should be when there is none, and only then. -/
theorem clears_iff (crypt : Str → Str → Str) (item : ℕ → AccessItem) (s : GlineTable) :
    (∃ s', Clears item crypt s s') ↔ s.Empty := by
  constructor
  · rintro ⟨s', h⟩
    by_contra hleft
    exact not_empty_of_clearGlines h.run hleft h.empty
  · intro h
    exact ⟨s, clearGlines_of_empty h, h, fun _ _ harec _ => harec, fun _ _ => rfl⟩

section Example

/-- `*@10.0.0.1`. -/
def loneItem : AccessItem := ⟨"10.0.0.1".toList, ['*'], none, false, false⟩

def loneGline : GlineTable :=
  ⟨ConfTable.init.addConfByAddress (fun _ => loneItem) CONF_GLINE 0, [0]⟩

/-- The walk unlinks and frees the record it stands on. -/
theorem not_forall_clears : ¬ ∀ crypt item s, ∃ s', Clears item crypt s s' := by
  intro h
  obtain ⟨s', hclears⟩ := h (fun s _ => s) (fun _ => loneItem) loneGline
  refine not_empty_of_clearGlines hclears.run (fun hempty => ?_) hclears.empty
  have hchain : loneGline.table.atable (fileMask "10.0.0.1".toList).hash =
      [⟨fileMask "10.0.0.1".toList, CONF_GLINE, 0xffffffff, ['*'], 0⟩] := by
    decide
  have hi : (fileMask "10.0.0.1".toList).hash < ATABLE_SIZE := by decide
  exact hempty _ hi _ (by rw [Linked, hchain]; exact List.mem_singleton_self _) rfl

end Example

end GlineTable

end Unirc
