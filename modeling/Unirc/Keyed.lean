import Mathlib.Data.List.Perm.Basic
import Unirc.HashChain

/-!
# Lists and hash tables with keys

A lookup takes the first element with a key. Elements are changed or removed in
place, and a table search moves what it finds to the front of its chain; none of this
changes what any other key finds.
-/

namespace Keyed

variable {α κ : Type*} [DecidableEq κ] (key : α → κ)

/-- No two elements have the same key. -/
def Unique (l : List α) : Prop := (l.map key).Nodup

def get? (k : κ) (l : List α) : Option α := l.find? fun a => key a = k

/-- Change the first element with a key. -/
def modify (k : κ) (f : α → α) : List α → List α
  | [] => []
  | a :: l => if key a = k then f a :: l else a :: modify k f l

/-- Remove the first element with a key. -/
def remove (k : κ) (l : List α) : List α := l.eraseP fun a => key a = k

/-- Move the first element with a key to the front. -/
def touch (k : κ) (l : List α) : List α :=
  match get? key k l with
  | none => l
  | some a => a :: remove key k l

variable {key} {k j : κ} {a : α} {l : List α} {f : α → α}

theorem get?_eq_none_iff : get? key k l = none ↔ ∀ a ∈ l, key a ≠ k := by
  simp [get?, List.find?_eq_none]

theorem key_of_get? (h : get? key k l = some a) : key a = k := by
  simpa using List.find?_some h

theorem mem_of_get? (h : get? key k l = some a) : a ∈ l := List.mem_of_find?_eq_some h

theorem get?_cons_self (h : key a = k) : get? key k (a :: l) = some a :=
  List.find?_cons_of_pos (by simpa using h)

theorem get?_cons_of_ne (h : key a ≠ k) : get? key k (a :: l) = get? key k l :=
  List.find?_cons_of_neg (by simpa using h)

theorem modify_cons_self (h : key a = k) : modify key k f (a :: l) = f a :: l := if_pos h

theorem modify_cons_of_ne (h : key a ≠ k) : modify key k f (a :: l) = a :: modify key k f l :=
  if_neg h

theorem remove_cons_self (h : key a = k) : remove key k (a :: l) = l :=
  List.eraseP_cons_of_pos (by simpa using h)

theorem remove_cons_of_ne (h : key a ≠ k) : remove key k (a :: l) = a :: remove key k l :=
  List.eraseP_cons_of_neg (by simpa using h)

theorem Unique.cons (hl : Unique key l) (h : get? key (key a) l = none) : Unique key (a :: l) := by
  refine List.nodup_cons.mpr ⟨fun hm => ?_, hl⟩
  obtain ⟨b, hb, hkey⟩ := List.mem_map.mp hm
  exact get?_eq_none_iff.mp h b hb hkey

theorem map_key_modify (hf : ∀ a, key a = k → key (f a) = k) :
    (modify key k f l).map key = l.map key := by
  induction l with
  | nil => rfl
  | cons a l ih =>
      by_cases h : key a = k
      · rw [modify_cons_self h, List.map_cons, List.map_cons, hf a h, h]
      · rw [modify_cons_of_ne h, List.map_cons, List.map_cons, ih]

theorem Unique.modify (hl : Unique key l) (hf : ∀ a, key a = k → key (f a) = k) :
    Unique key (modify key k f l) := by
  unfold Unique
  rwa [map_key_modify hf]

theorem get?_modify_self (hf : ∀ a, key a = k → key (f a) = k) :
    get? key k (modify key k f l) = (get? key k l).map f := by
  induction l with
  | nil => rfl
  | cons a l ih =>
      by_cases h : key a = k
      · rw [modify_cons_self h, get?_cons_self (hf a h), get?_cons_self h, Option.map_some]
      · rw [modify_cons_of_ne h, get?_cons_of_ne h, get?_cons_of_ne h, ih]

theorem get?_modify_of_ne (hf : ∀ a, key a = k → key (f a) = k) (hj : j ≠ k) :
    get? key j (modify key k f l) = get? key j l := by
  induction l with
  | nil => rfl
  | cons a l ih =>
      by_cases h : key a = k
      · rw [modify_cons_self h, get?_cons_of_ne (by rw [hf a h]; exact hj.symm),
          get?_cons_of_ne (by rw [h]; exact hj.symm)]
      · rw [modify_cons_of_ne h]
        by_cases h' : key a = j
        · rw [get?_cons_self h', get?_cons_self h']
        · rw [get?_cons_of_ne h', get?_cons_of_ne h', ih]

theorem modify_congr {g : α → α} (h : ∀ a, get? key k l = some a → f a = g a) :
    modify key k f l = modify key k g l := by
  induction l with
  | nil => rfl
  | cons a l ih =>
      by_cases ha : key a = k
      · rw [modify_cons_self ha, modify_cons_self ha, h a (get?_cons_self ha)]
      · rw [get?_cons_of_ne ha] at h
        rw [modify_cons_of_ne ha, modify_cons_of_ne ha, ih h]

theorem mem_modify {b : α} (h : b ∈ modify key k f l) :
    b ∈ l ∨ ∃ a, get? key k l = some a ∧ b = f a := by
  induction l with
  | nil => cases h
  | cons a l ih =>
      by_cases ha : key a = k
      · rw [modify_cons_self ha] at h
        rcases List.mem_cons.mp h with rfl | h
        · exact Or.inr ⟨a, get?_cons_self ha, rfl⟩
        · exact Or.inl (List.mem_cons_of_mem a h)
      · rw [modify_cons_of_ne ha] at h
        rw [get?_cons_of_ne ha]
        rcases List.mem_cons.mp h with rfl | h
        · exact Or.inl List.mem_cons_self
        · exact (ih h).imp_left (List.mem_cons_of_mem a)

theorem perm_cons_remove (h : get? key k l = some a) : l.Perm (a :: remove key k l) := by
  induction l with
  | nil => cases h
  | cons b l ih =>
      by_cases hb : key b = k
      · rw [get?_cons_self hb] at h
        rw [remove_cons_self hb, Option.some.inj h]
      · rw [get?_cons_of_ne hb] at h
        rw [remove_cons_of_ne hb]
        exact ((ih h).cons b).trans (List.Perm.swap a b _)

theorem perm_modify (h : get? key k l = some a) :
    (modify key k f l).Perm (f a :: remove key k l) := by
  induction l with
  | nil => cases h
  | cons b l ih =>
      by_cases hb : key b = k
      · rw [get?_cons_self hb] at h
        rw [modify_cons_self hb, remove_cons_self hb, Option.some.inj h]
      · rw [get?_cons_of_ne hb] at h
        rw [modify_cons_of_ne hb, remove_cons_of_ne hb]
        exact ((ih h).cons b).trans (List.Perm.swap (f a) b _)

theorem mem_of_mem_remove (h : a ∈ remove key k l) : a ∈ l := List.mem_of_mem_eraseP h

theorem Unique.remove (hl : Unique key l) : Unique key (remove key k l) :=
  hl.sublist (List.eraseP_sublist.map key)

theorem Unique.get?_remove_self (hl : Unique key l) : get? key k (Keyed.remove key k l) = none := by
  induction l with
  | nil => rfl
  | cons a l ih =>
      obtain ⟨ha, hl⟩ := List.nodup_cons.mp hl
      by_cases h : key a = k
      · rw [remove_cons_self h, get?_eq_none_iff]
        exact fun b hb he => ha (h ▸ he ▸ List.mem_map_of_mem hb)
      · rw [remove_cons_of_ne h, get?_cons_of_ne h, ih hl]

theorem get?_remove_of_ne (hj : j ≠ k) : get? key j (remove key k l) = get? key j l := by
  induction l with
  | nil => rfl
  | cons a l ih =>
      by_cases h : key a = k
      · rw [remove_cons_self h, get?_cons_of_ne (by rw [h]; exact hj.symm)]
      · rw [remove_cons_of_ne h]
        by_cases h' : key a = j
        · rw [get?_cons_self h', get?_cons_self h']
        · rw [get?_cons_of_ne h', get?_cons_of_ne h', ih]

theorem perm_touch : (touch key k l).Perm l := by
  unfold touch
  split
  · exact List.Perm.refl l
  · rename_i h
    exact (perm_cons_remove h).symm

theorem Unique.touch (hl : Unique key l) : Unique key (touch key k l) :=
  (perm_touch.map key).nodup_iff.mpr hl

theorem get?_touch : get? key j (touch key k l) = get? key j l := by
  unfold touch
  split
  · rfl
  · rename_i a h
    by_cases hj : j = k
    · rw [hj, get?_cons_self (key_of_get? h), h]
    · rw [get?_cons_of_ne (by rw [key_of_get? h]; exact Ne.symm hj), get?_remove_of_ne hj]

theorem countP_cons_toNat {p : α → Bool} (a : α) (l : List α) :
    (a :: l).countP p = l.countP p + (p a).toNat := by
  rw [List.countP_cons]
  cases p a <;> rfl

end Keyed

namespace HashChain

open Keyed

variable {ι α κ : Type*} (key : α → κ) (hash : κ → ι)

/-- Every element is in the chain of its key, and no two have the same. -/
structure Filed (t : Table ι α) : Prop where
  hash : ∀ {i a}, a ∈ t i → hash (key a) = i
  unique : ∀ i, Unique key (t i)

variable {key hash} {t : Table ι α} {k j : κ} {a : α} {f : α → α}

theorem Filed.empty : Filed key hash (fun _ => []) where
  hash := fun h => by cases h
  unique := fun _ => List.nodup_nil

/-- A chain changed to one whose elements belong there. -/
theorem Filed.update [DecidableEq ι] (ht : Filed key hash t) {i : ι} {l : List α}
    (hmem : ∀ a ∈ l, hash (key a) = i) (hl : Unique key l) :
    Filed key hash (Function.update t i l) where
  hash := by
    intro j a ha
    rw [Function.update_apply] at ha
    split at ha
    · rename_i hj
      rw [hj]
      exact hmem a ha
    · exact ht.hash ha
  unique := by
    intro j
    rw [Function.update_apply]
    split
    · exact hl
    · exact ht.unique j

variable [DecidableEq κ]

variable (key hash) in
/-- What a search finds. -/
def lookup (t : Table ι α) (k : κ) : Option α := get? key k (t (hash k))

variable [DecidableEq ι]

section Operations

variable (key hash)

/-- The table after a search. -/
def touch (t : Table ι α) (k : κ) : Table ι α :=
  Function.update t (hash k) (Keyed.touch key k (t (hash k)))

/-- Change the element with a key. -/
def modify (t : Table ι α) (k : κ) (f : α → α) : Table ι α :=
  Function.update t (hash k) (Keyed.modify key k f (t (hash k)))

/-- Unlink the element with a key. -/
def remove (t : Table ι α) (k : κ) : Table ι α :=
  Function.update t (hash k) (Keyed.remove key k (t (hash k)))

end Operations

theorem lookup_update_self (l : List α) :
    lookup key hash (Function.update t (hash k) l) k = get? key k l := by
  rw [lookup, Function.update_self]

theorem lookup_update {l : List α} (h : get? key j l = get? key j (t (hash k))) :
    lookup key hash (Function.update t (hash k) l) j = lookup key hash t j := by
  unfold lookup
  by_cases hj : hash j = hash k
  · rw [hj, Function.update_self, h]
  · rw [Function.update_of_ne hj]

theorem lookup_touch : lookup key hash (touch key hash t k) j = lookup key hash t j :=
  lookup_update get?_touch

theorem lookup_insert_self (h : key a = k) :
    lookup key hash (insert t (hash k) a) k = some a := by
  rw [insert, lookup_update_self, get?_cons_self h]

theorem lookup_insert_of_ne (h : key a ≠ j) :
    lookup key hash (insert t (hash k) a) j = lookup key hash t j :=
  lookup_update (get?_cons_of_ne h)

theorem lookup_modify_self (hf : ∀ a, key a = k → key (f a) = k) :
    lookup key hash (modify key hash t k f) k = (lookup key hash t k).map f := by
  rw [modify, lookup_update_self, get?_modify_self hf, lookup]

theorem lookup_modify_of_ne (hf : ∀ a, key a = k → key (f a) = k) (hj : j ≠ k) :
    lookup key hash (modify key hash t k f) j = lookup key hash t j :=
  lookup_update (get?_modify_of_ne hf hj)

theorem lookup_remove_of_ne (hj : j ≠ k) :
    lookup key hash (remove key hash t k) j = lookup key hash t j :=
  lookup_update (get?_remove_of_ne hj)

namespace Filed

theorem touch (ht : Filed key hash t) : Filed key hash (touch key hash t k) :=
  ht.update (fun _ ha => ht.hash (perm_touch.mem_iff.mp ha)) (ht.unique _).touch

theorem insert (ht : Filed key hash t) (h : lookup key hash t (key a) = none) :
    Filed key hash (insert t (hash (key a)) a) := by
  refine ht.update (fun b hb => ?_) ((ht.unique _).cons h)
  rcases List.mem_cons.mp hb with rfl | hb
  · rfl
  · exact ht.hash hb

theorem modify (ht : Filed key hash t) (hf : ∀ a, key a = k → key (f a) = k) :
    Filed key hash (modify key hash t k f) := by
  refine ht.update (fun b hb => ?_) ((ht.unique _).modify hf)
  rcases mem_modify hb with hb | ⟨a, ha, rfl⟩
  · exact ht.hash hb
  · rw [hf a (key_of_get? ha)]

theorem remove (ht : Filed key hash t) : Filed key hash (remove key hash t k) :=
  ht.update (fun _ ha => ht.hash (mem_of_mem_remove ha)) (ht.unique _).remove

theorem lookup_remove_self (ht : Filed key hash t) :
    lookup key hash (HashChain.remove key hash t k) k = none := by
  rw [HashChain.remove, lookup_update_self]
  exact (ht.unique _).get?_remove_self

end Filed

end HashChain
