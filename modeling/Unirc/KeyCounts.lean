import Mathlib.Data.List.Count
import Mathlib.Data.List.Nodup
import Mathlib.Data.List.Perm.Basic

/-!
# Lists of counted keys

A list of entries, each with a key and a number. Entering a key raises the first entry that is hit
and puts a new one in front when there is none; leaving lowers it and takes it out at one. When a
hit means the same key, the numbers count how often each key is present.
-/

namespace KeyCounts

variable {κ : Type*}

structure Entry (κ : Type*) where
  key : κ
  number : ℕ
  deriving DecidableEq

/-- The first entry that is hit goes up by one unless its number is full. `none`: no hit. -/
def up (hit : κ → Bool) (full : ℕ → Bool) : List (Entry κ) → Option (Bool × List (Entry κ))
  | [] => none
  | x :: xs =>
      if hit x.key then
        if full x.number then some (true, x :: xs)
        else some (false, { x with number := x.number + 1 } :: xs)
      else (up hit full xs).map fun r => (r.1, x :: r.2)

/-- Whether the entry was full, and the list with `k` counted once more if it was not. -/
def enter (hit : κ → Bool) (full : ℕ → Bool) (k : κ) (xs : List (Entry κ)) :
    Bool × List (Entry κ) :=
  (up hit full xs).getD (false, ⟨k, 1⟩ :: xs)

/-- The entries that are hit go down by one, up to the first that is taken out. -/
def leave (hit : κ → Bool) : List (Entry κ) → List (Entry κ)
  | [] => []
  | x :: xs =>
      if hit x.key then
        if x.number = 1 then xs else { x with number := x.number - 1 } :: leave hit xs
      else x :: leave hit xs

variable [DecidableEq κ] {hit : κ → Bool} {full : ℕ → Bool} {k : κ} {keys : List κ}
  {xs : List (Entry κ)}

/-- The number of the first entry of a key. -/
def look (k : κ) : List (Entry κ) → ℕ
  | [] => 0
  | x :: xs => if x.key = k then x.number else look k xs

/-- The entries count the keys: none twice, each at least one, each the right number. -/
structure Counts (keys : List κ) (xs : List (Entry κ)) : Prop where
  nodup : (xs.map Entry.key).Nodup
  pos : ∀ x ∈ xs, 0 < x.number
  look : ∀ j, look j xs = keys.count j

theorem look_eq_zero (h : k ∉ xs.map Entry.key) : look k xs = 0 := by
  induction xs with
  | nil => rfl
  | cons x xs ih =>
      simp only [List.map_cons, List.mem_cons, not_or] at h
      simp [look, Ne.symm h.1, ih h.2]

theorem look_of_mem (hnodup : (xs.map Entry.key).Nodup) {x : Entry κ} (hx : x ∈ xs) :
    look x.key xs = x.number := by
  induction xs with
  | nil => cases hx
  | cons y ys ih =>
      simp only [List.map_cons, List.nodup_cons] at hnodup
      rcases List.mem_cons.mp hx with rfl | hx
      · simp [look]
      · have hne : y.key ≠ x.key := fun he => hnodup.1 (he ▸ List.mem_map_of_mem hx)
        simp [look, hne, ih hnodup.2 hx]

namespace Counts

theorem nil : Counts ([] : List κ) [] where
  nodup := by simp
  pos := by simp
  look := fun _ => by simp [KeyCounts.look]

theorem number (h : Counts keys xs) {x : Entry κ} (hx : x ∈ xs) :
    0 < x.number ∧ x.number = keys.count x.key :=
  ⟨h.pos x hx, by rw [← h.look, look_of_mem h.nodup hx]⟩

theorem mem (h : Counts keys xs) {x : Entry κ} (hx : x ∈ xs) : x.key ∈ keys := by
  obtain ⟨hpos, hcount⟩ := h.number hx
  exact List.count_pos_iff.mp (hcount ▸ hpos)

theorem perm {keys' : List κ} (h : Counts keys xs) (hperm : keys.Perm keys') : Counts keys' xs where
  nodup := h.nodup
  pos := h.pos
  look := fun j => by rw [h.look, hperm.count_eq]

end Counts

/-- On the entries of the list a hit means the key `k`. -/
def Hits (hit : κ → Bool) (k : κ) (xs : List (Entry κ)) : Prop :=
  ∀ x ∈ xs, hit x.key = true ↔ x.key = k

omit [DecidableEq κ] in
theorem Hits.head {x : Entry κ} (h : Hits hit k (x :: xs)) (hx : x.key = k) : hit x.key = true :=
  (h x List.mem_cons_self).mpr hx

omit [DecidableEq κ] in
theorem Hits.miss {x : Entry κ} (h : Hits hit k (x :: xs)) (hx : x.key ≠ k) :
    hit x.key = false := by
  rw [← Bool.not_eq_true, h x List.mem_cons_self]
  exact hx

omit [DecidableEq κ] in
theorem Hits.tail {x : Entry κ} (h : Hits hit k (x :: xs)) : Hits hit k xs :=
  fun y hy => h y (List.mem_cons_of_mem x hy)

theorem up_eq_none_iff (hhit : Hits hit k xs) :
    up hit full xs = none ↔ k ∉ xs.map Entry.key := by
  induction xs with
  | nil => simp [up]
  | cons x xs ih =>
      by_cases hx : x.key = k
      · have : hit x.key = true := hhit.head hx
        simp only [up, this, if_true]
        split <;> simp [hx]
      · have : hit x.key = false := hhit.miss hx
        simpa [up, this, Ne.symm hx] using ih hhit.tail

theorem up_full (hhit : Hits hit k xs) {ys : List (Entry κ)}
    (h : up hit full xs = some (true, ys)) : ys = xs ∧ full (look k xs) = true := by
  induction xs generalizing ys with
  | nil => cases h
  | cons x xs ih =>
      by_cases hx : x.key = k
      · have hh : hit x.key = true := hhit.head hx
        by_cases hf : full x.number = true
        · simp only [up, hh, hf, if_true, Option.some.injEq, Prod.mk.injEq, true_and] at h
          simp [← h, look, hx, hf]
        · simp [up, hh, hf] at h
      · have hh : hit x.key = false := hhit.miss hx
        simp only [up, hh, Option.map_eq_some_iff, Bool.false_eq_true, if_false] at h
        obtain ⟨⟨b, zs⟩, hz, he⟩ := h
        obtain ⟨rfl, rfl⟩ := Prod.mk.inj he
        obtain ⟨rfl, hfull⟩ := ih hhit.tail hz
        simp [look, hx, hfull]

/-- What going up leaves: the same keys, and one more at `k`. -/
theorem up_entered (hhit : Hits hit k xs) {ys : List (Entry κ)}
    (h : up hit full xs = some (false, ys)) :
    ys.map Entry.key = xs.map Entry.key ∧ full (look k xs) = false ∧
      ((∀ x ∈ xs, 0 < x.number) → ∀ y ∈ ys, 0 < y.number) ∧
      ∀ j, look j ys = look j xs + if j = k then 1 else 0 := by
  induction xs generalizing ys with
  | nil => cases h
  | cons x xs ih =>
      by_cases hx : x.key = k
      · have hh : hit x.key = true := hhit.head hx
        by_cases hf : full x.number = true
        · simp [up, hh, hf] at h
        · simp only [up, hh, hf, if_true, Bool.false_eq_true, if_false, Option.some.injEq,
            Prod.mk.injEq, true_and] at h
          subst h
          refine ⟨rfl, by simpa [look, hx] using hf, fun hpos y hy => ?_, fun j => ?_⟩
          · rcases List.mem_cons.mp hy with rfl | hy
            · exact Nat.succ_pos _
            · exact hpos y (List.mem_cons_of_mem _ hy)
          · by_cases hj : j = k
            · simp [look, hx, hj]
            · simp [look, hx, hj, Ne.symm hj]
      · have hh : hit x.key = false := hhit.miss hx
        simp only [up, hh, Option.map_eq_some_iff, Bool.false_eq_true, if_false] at h
        obtain ⟨⟨b, zs⟩, hz, he⟩ := h
        obtain ⟨rfl, rfl⟩ := Prod.mk.inj he
        obtain ⟨hkeys, hfull, hpos, hlook⟩ := ih hhit.tail hz
        refine ⟨by simp [hkeys], by simpa [look, hx] using hfull, fun hp y hy => ?_, fun j => ?_⟩
        · rcases List.mem_cons.mp hy with rfl | hy
          · exact hp y List.mem_cons_self
          · exact hpos (fun z hz' => hp z (List.mem_cons_of_mem _ hz')) y hy
        · by_cases hj : x.key = j
          · have hjk : j ≠ k := fun he => hx (hj.trans he)
            simp [look, hj, hjk]
          · simp [look, hj, hlook]

namespace Counts

theorem hits (h : Counts keys xs) (hhit : ∀ j ∈ keys, hit j = true ↔ j = k) : Hits hit k xs :=
  fun _ hx => hhit _ (h.mem hx)

/-- A full entry is left as it is. -/
theorem enter_full (h : Counts keys xs) (hhit : ∀ j ∈ keys, hit j = true ↔ j = k)
    (hfull : (enter hit full k xs).1 = true) :
    (enter hit full k xs).2 = xs ∧ full (keys.count k) = true := by
  cases hup : up hit full xs with
  | none => simp [enter, hup] at hfull
  | some r =>
      obtain ⟨b, ys⟩ := r
      have hb : b = true := by simpa [enter, hup] using hfull
      subst hb
      obtain ⟨rfl, hf⟩ := up_full (h.hits hhit) hup
      exact ⟨by simp [enter, hup], by rwa [h.look] at hf⟩

/-- Otherwise the key is counted once more. -/
theorem enter (h : Counts keys xs) (hhit : ∀ j ∈ keys, hit j = true ↔ j = k)
    (hzero : full 0 = false) (hfree : (enter hit full k xs).1 = false) :
    Counts (k :: keys) (KeyCounts.enter hit full k xs).2 ∧ full (keys.count k) = false := by
  cases hup : up hit full xs with
  | none =>
      have hk : k ∉ xs.map Entry.key := (up_eq_none_iff (h.hits hhit)).mp hup
      have hlook : keys.count k = 0 := by rw [← h.look, look_eq_zero hk]
      refine ⟨?_, by rw [hlook, hzero]⟩
      simp only [KeyCounts.enter, hup, Option.getD_none]
      refine ⟨by simpa using ⟨by simpa using hk, h.nodup⟩, fun x hx => ?_, fun j => ?_⟩
      · rcases List.mem_cons.mp hx with rfl | hx
        · exact Nat.one_pos
        · exact h.pos x hx
      · by_cases hj : k = j
        · subst hj
          simp [KeyCounts.look, hlook]
        · simp [KeyCounts.look, hj, h.look]
  | some r =>
      obtain ⟨b, ys⟩ := r
      have hb : b = false := by simpa [KeyCounts.enter, hup] using hfree
      subst hb
      obtain ⟨hkeys, hfull, hpos, hlook⟩ := up_entered (h.hits hhit) hup
      simp only [KeyCounts.enter, hup, Option.getD_some]
      refine ⟨⟨hkeys ▸ h.nodup, hpos h.pos, fun j => ?_⟩, by rwa [h.look] at hfull⟩
      rw [hlook, h.look, List.count_cons]
      simp only [beq_iff_eq, eq_comm (a := k)]

end Counts

omit [DecidableEq κ] in
theorem leave_sublist (hit : κ → Bool) (xs : List (Entry κ)) :
    ((leave hit xs).map Entry.key).Sublist (xs.map Entry.key) := by
  induction xs with
  | nil => simp [leave]
  | cons x xs ih =>
      simp only [leave]
      split
      · split
        · exact List.sublist_cons_self _ _
        · exact ih.cons_cons _
      · exact ih.cons_cons _

omit [DecidableEq κ] in
theorem leave_pos (hpos : ∀ x ∈ xs, 0 < x.number) : ∀ x ∈ leave hit xs, 0 < x.number := by
  induction xs with
  | nil => simp [leave]
  | cons x xs ih =>
      have hx := hpos x List.mem_cons_self
      have htail := fun y hy => hpos y (List.mem_cons_of_mem _ hy)
      simp only [leave]
      split
      · split
        · exact htail
        · intro y hy
          rcases List.mem_cons.mp hy with rfl | hy
          · change 0 < x.number - 1
            omega
          · exact ih htail y hy
      · intro y hy
        rcases List.mem_cons.mp hy with rfl | hy
        · exact hx
        · exact ih htail y hy

omit [DecidableEq κ] in
theorem leave_of_notMem (hhit : Hits hit k xs) (h : k ∉ xs.map Entry.key) :
    leave hit xs = xs := by
  induction xs with
  | nil => rfl
  | cons x xs ih =>
      simp only [List.map_cons, List.mem_cons, not_or] at h
      have hh : hit x.key = false := hhit.miss (Ne.symm h.1)
      simp [leave, hh, ih hhit.tail h.2]

theorem look_leave (hhit : Hits hit k xs) (hnodup : (xs.map Entry.key).Nodup) (j : κ) :
    look j (leave hit xs) = look j xs - if j = k then 1 else 0 := by
  induction xs with
  | nil => simp [leave, look]
  | cons x xs ih =>
      simp only [List.map_cons, List.nodup_cons] at hnodup
      by_cases hx : x.key = k
      · have hh : hit k = true := hx ▸ hhit.head hx
        have hk : k ∉ xs.map Entry.key := hx ▸ hnodup.1
        by_cases hj : j = k
        · by_cases hone : x.number = 1
          · simp [leave, look, hh, hx, hj, hone, look_eq_zero hk]
          · simp [leave, look, hh, hx, hj, hone]
        · by_cases hone : x.number = 1
          · simp [leave, look, hh, hx, hj, Ne.symm hj, hone]
          · simp [leave, look, hh, hx, hj, Ne.symm hj, hone, leave_of_notMem hhit.tail hk]
      · have hh : hit x.key = false := hhit.miss hx
        by_cases hj : x.key = j
        · have hjk : j ≠ k := fun he => hx (hj.trans he)
          have hh' : hit j = false := hj ▸ hhit.miss hx
          simp [leave, look, hh', hj, hjk]
        · simp [leave, look, hh, hj, ih hhit.tail hnodup.2]

/-- A key that was present leaves. -/
theorem Counts.leave (h : Counts (k :: keys) xs)
    (hhit : ∀ j ∈ k :: keys, hit j = true ↔ j = k) :
    Counts keys (leave hit xs) where
  nodup := h.nodup.sublist (leave_sublist hit xs)
  pos := leave_pos h.pos
  look := fun j => by
    rw [look_leave (h.hits hhit) h.nodup, h.look, List.count_cons]
    simp only [beq_iff_eq, eq_comm (a := k), Nat.add_sub_cancel]

end KeyCounts
