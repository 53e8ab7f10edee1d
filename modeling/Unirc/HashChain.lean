import Mathlib.Data.List.Basic
import Mathlib.Logic.Function.Basic
import Mathlib.Order.Lattice

/-!
# Chained hash tables

A table keeps one list for each hash value; a new entry goes to the front of its
chain. A search for the entry of greatest rank may go through any chains that
between them hold every candidate.
-/

namespace HashChain

variable {ι α : Type*} [DecidableEq ι]

abbrev Table (ι α : Type*) := ι → List α

def insert (t : Table ι α) (i : ι) (x : α) : Table ι α := Function.update t i (x :: t i)

theorem insert_apply (t : Table ι α) (i : ι) (x : α) (j : ι) :
    insert t i x j = if j = i then x :: t i else t j := Function.update_apply _ _ _ _

/-- Unlink the first entry of a chain that satisfies `p`. -/
def unlink (t : Table ι α) (i : ι) (p : α → Bool) : Table ι α :=
  Function.update t i ((t i).eraseP p)

/-- The entries of a list that hash to `i`, in order. -/
def Chained (h : α → ι) (t : Table ι α) (l : List α) : Prop :=
  ∀ i, t i = l.filter fun x => h x = i

variable {h : α → ι} {t : Table ι α} {l : List α}

theorem chained_nil : Chained h (fun _ => []) [] := fun _ => rfl

theorem Chained.mem_iff (ht : Chained h t l) {i : ι} {x : α} : x ∈ t i ↔ x ∈ l ∧ h x = i := by
  rw [ht i, List.mem_filter, decide_eq_true_eq]

theorem Chained.insert (ht : Chained h t l) (x : α) :
    Chained h (HashChain.insert t (h x) x) (x :: l) := by
  intro i
  by_cases hi : h x = i
  · subst hi
    rw [HashChain.insert, Function.update_self, List.filter_cons_of_pos (by simp), ht]
  · rw [HashChain.insert, Function.update_of_ne (Ne.symm hi),
      List.filter_cons_of_neg (by simpa using hi), ht]

theorem filter_eraseP_of_imp {p q : α → Bool} (l : List α) (hpq : ∀ x ∈ l, p x = true → q x = true) :
    (l.eraseP p).filter q = (l.filter q).eraseP p := by
  induction l with
  | nil => rfl
  | cons x l ih =>
      have ih := ih fun y hy => hpq y (List.mem_cons_of_mem _ hy)
      cases hp : p x with
      | true =>
          have hq := hpq x List.mem_cons_self hp
          rw [List.eraseP_cons_of_pos hp, List.filter_cons_of_pos hq, List.eraseP_cons_of_pos hp]
      | false =>
          have hp' : ¬ p x = true := by simp [hp]
          rw [List.eraseP_cons_of_neg hp']
          cases hq : q x with
          | true =>
              rw [List.filter_cons_of_pos hq, List.filter_cons_of_pos hq,
                List.eraseP_cons_of_neg hp', ih]
          | false =>
              rw [List.filter_cons_of_neg (by simp [hq]), List.filter_cons_of_neg (by simp [hq]), ih]

theorem filter_eraseP_of_not {p q : α → Bool} (l : List α) (hpq : ∀ x ∈ l, p x = true → q x = false) :
    (l.eraseP p).filter q = l.filter q := by
  induction l with
  | nil => rfl
  | cons x l ih =>
      have ih := ih fun y hy => hpq y (List.mem_cons_of_mem _ hy)
      cases hp : p x with
      | true =>
          rw [List.eraseP_cons_of_pos hp,
            List.filter_cons_of_neg (by simp [hpq x List.mem_cons_self hp])]
      | false =>
          rw [List.eraseP_cons_of_neg (by simp [hp]), List.filter_cons, List.filter_cons, ih]

/-- Unlinking in the chain where every match of `p` is filed. -/
theorem Chained.unlink (ht : Chained h t l) {i : ι} {p : α → Bool}
    (hp : ∀ x ∈ l, p x = true → h x = i) : Chained h (HashChain.unlink t i p) (l.eraseP p) := by
  intro j
  by_cases hj : j = i
  · subst hj
    rw [HashChain.unlink, Function.update_self, ht,
      filter_eraseP_of_imp l fun x hx hpx => by simpa using hp x hx hpx]
  · rw [HashChain.unlink, Function.update_of_ne hj, ht, filter_eraseP_of_not l fun x hx hpx => ?_]
    rw [hp x hx hpx]
    simpa using Ne.symm hj

section Best

variable {β : Type*} [LinearOrder β] (rank : α → β) (p : α → Bool)

/-- One comparison of a search for the greatest rank, from a candidate so far. -/
def better (acc : Option α) (x : α) : Option α :=
  if p x ∧ (∀ y ∈ acc, rank y < rank x) then some x else acc

def best (acc : Option α) (l : List α) : Option α := l.foldl (better rank p) acc

/-- `r` is an element of greatest rank of `S`, if there is one. -/
def IsBest (S : α → Prop) (r : Option α) : Prop :=
  (∀ x ∈ r, S x) ∧ ∀ x, S x → ∃ y ∈ r, rank x ≤ rank y

variable {rank p}

theorem isBest_none : IsBest rank (fun _ => False) none :=
  ⟨fun _ h => absurd h (Option.not_mem_none _), fun _ h => h.elim⟩

theorem IsBest.better {S : α → Prop} {acc : Option α} (h : IsBest rank S acc) (x : α) :
    IsBest rank (fun y => S y ∨ (y = x ∧ p x = true)) (HashChain.better rank p acc x) := by
  unfold HashChain.better
  split
  · rename_i hx
    refine ⟨fun y hy => ?_, fun y hy => ⟨x, rfl, ?_⟩⟩
    · obtain rfl : x = y := Option.some.inj hy
      exact Or.inr ⟨rfl, hx.1⟩
    · rcases hy with hy | ⟨rfl, -⟩
      · obtain ⟨z, hz, hyz⟩ := h.2 y hy
        exact hyz.trans (hx.2 z hz).le
      · exact le_rfl
  · rename_i hx
    refine ⟨fun y hy => Or.inl (h.1 y hy), fun y hy => ?_⟩
    rcases hy with hy | ⟨rfl, hpy⟩
    · exact h.2 y hy
    · by_contra hn
      exact hx ⟨hpy, fun z hz => not_le.mp fun hle => hn ⟨z, hz, hle⟩⟩

theorem IsBest.congr {S T : α → Prop} {r : Option α} (h : IsBest rank S r)
    (hST : ∀ x, S x ↔ T x) : IsBest rank T r :=
  ⟨fun x hx => (hST x).mp (h.1 x hx), fun x hx => h.2 x ((hST x).mpr hx)⟩

theorem IsBest.best {S : α → Prop} {acc : Option α} (h : IsBest rank S acc) (l : List α) :
    IsBest rank (fun y => S y ∨ (y ∈ l ∧ p y = true)) (HashChain.best rank p acc l) := by
  induction l generalizing S acc with
  | nil => exact h.congr fun x => by simp
  | cons x l ih =>
      refine (ih (h.better x)).congr fun y => ?_
      simp only [List.mem_cons]
      constructor
      · rintro ((hy | ⟨rfl, hy⟩) | hy)
        · exact Or.inl hy
        · exact Or.inr ⟨Or.inl rfl, hy⟩
        · exact Or.inr ⟨Or.inr hy.1, hy.2⟩
      · rintro (hy | ⟨rfl | hy, hpy⟩)
        · exact Or.inl (Or.inl hy)
        · exact Or.inl (Or.inr ⟨rfl, hpy⟩)
        · exact Or.inr ⟨hy, hpy⟩

/-- A search through several chains. -/
theorem IsBest.foldl_best {S : α → Prop} {acc : Option α} (h : IsBest rank S acc)
    (chains : List (List α)) : IsBest rank (fun y => S y ∨ ∃ c ∈ chains, y ∈ c ∧ p y = true)
      (chains.foldl (HashChain.best rank p) acc) := by
  induction chains generalizing S acc with
  | nil => exact h.congr fun x => by simp
  | cons c chains ih =>
      refine (ih (h.best c)).congr fun y => ?_
      simp only [List.exists_mem_cons_iff, or_assoc]

/-- Ranks that differ make the best element unique. -/
theorem IsBest.unique {S : α → Prop} {r r' : Option α} (h : IsBest rank S r)
    (h' : IsBest rank S r') (hinj : ∀ x y, S x → S y → rank x = rank y → x = y) : r = r' := by
  cases r with
  | none =>
      cases r' with
      | none => rfl
      | some y =>
          obtain ⟨z, hz, -⟩ := h.2 y (h'.1 y rfl)
          cases hz
  | some x =>
      have hx := h.1 x rfl
      obtain ⟨y, hy, hxy⟩ := h'.2 x hx
      obtain rfl : r' = some y := hy
      have hSy := h'.1 y rfl
      obtain ⟨z, hz, hyz⟩ := h.2 y hSy
      obtain rfl : x = z := Option.some.inj hz
      rw [hinj x y hx hSy (le_antisymm hxy hyz)]

end Best

end HashChain
