import Unirc.PointerChain

/-!
# Doubly linked chains

Chains of a table whose cells also point back, so that a cell is unlinked without a search.
-/

namespace PointerChain

variable {σ : Type*}

structure Links (σ : Type*) where
  next : σ → Option σ
  prev : σ → Option σ

namespace Links

variable [DecidableEq σ]

/-- The links after a cell was put to the front of `bucket`. -/
def add (k : Links σ) (bucket : Option σ) (x : σ) : Links σ :=
  let prev := Function.update k.prev x none
  { next := Function.update k.next x bucket
    prev :=
      match bucket with
      | some y => Function.update prev y (some x)
      | none => prev }

/-- The links and the bucket after a cell was taken out. -/
def del (k : Links σ) (bucket : Option σ) (x : σ) : Links σ × Option σ :=
  let next :=
    match k.prev x with
    | some p => Function.update k.next p (k.next x)
    | none => k.next
  let prev :=
    match next x with
    | some n => Function.update k.prev n (k.prev x)
    | none => k.prev
  (⟨next, prev⟩, if (k.prev x).isSome then bucket else k.next x)

end Links

/-- The chains of a table, and the way back through each. -/
structure DoublyFiled {ι : Type*} (k : Links σ) (heads : ι → Option σ) (lists : ι → List σ) :
    Prop where
  filed : Filed k.next heads lists
  back : ∀ i, ∃ q, Chain k.prev q (lists i).reverse

section

variable [DecidableEq σ] {next : σ → Option σ} {p q : Option σ} {x y : σ} {l : List σ}

/-- A chain goes on behind its last cell. -/
theorem Chain.extend (h : Chain next p (l ++ [y])) :
    Segment (Function.update next y q) p (l ++ [y]) q := by
  have hnd := h.nodup
  rw [List.nodup_append] at hnd
  have hy : y ∉ l := fun hy => hnd.2.2 y hy y List.mem_cons_self rfl
  obtain ⟨m, hl, hm, -⟩ := segment_append.mp h
  exact segment_append.mpr ⟨m, hl.update hy q, hm, Function.update_self ..⟩

end

namespace DoublyFiled

variable {ι : Type*} {k : Links σ} {heads : ι → Option σ} {lists : ι → List σ} {i : ι} {x : σ}
  {l₁ l₂ : List σ}

theorem nil : DoublyFiled k (fun _ : ι => none) fun _ => [] := ⟨.nil, fun _ => ⟨none, rfl⟩⟩

variable [DecidableEq σ] [DecidableEq ι]

theorem add (h : DoublyFiled k heads lists) (hx : ∀ j, x ∉ lists j) (i : ι) :
    DoublyFiled (k.add (heads i) x) (Function.update heads i (some x))
      (Function.update lists i (x :: lists i)) := by
  refine ⟨h.filed.push hx i, fun j => ?_⟩
  have hhead : heads i = (lists i).head? := (h.filed.chain i).head
  have hprev : ∀ j, j ≠ i → ∀ a ∈ lists j, (k.add (heads i) x).prev a = k.prev a := by
    intro j hj a ha
    have hax : a ≠ x := ne_of_mem_of_not_mem ha (hx j)
    rw [hhead]
    cases hlist : lists i with
    | nil => exact Function.update_of_ne hax ..
    | cons y l =>
        have hay : a ≠ y := by
          rintro rfl
          exact hj (h.filed.disjoint ha (hlist ▸ List.mem_cons_self))
        exact (Function.update_of_ne hay ..).trans (Function.update_of_ne hax ..)
  by_cases hj : j = i
  · subst hj
    rw [Function.update_self, hhead]
    obtain ⟨q, hq⟩ := h.back j
    cases hlist : lists j with
    | nil => exact ⟨some x, rfl, Function.update_self ..⟩
    | cons y l =>
        have hxl := hx j
        rw [hlist, List.reverse_cons] at hq
        rw [hlist] at hxl
        have hxq : x ∉ l.reverse ++ [y] := by simpa [and_comm] using hxl
        refine ⟨q, ?_⟩
        rw [List.reverse_cons, List.reverse_cons]
        refine segment_append.mpr ⟨some x, Chain.extend (hq.update hxq none), rfl, ?_⟩
        have hxy : x ≠ y := fun he => hxl (he ▸ List.mem_cons_self)
        exact (Function.update_of_ne hxy ..).trans (Function.update_self ..)
  · rw [Function.update_of_ne hj]
    obtain ⟨q, hq⟩ := h.back j
    exact ⟨q, hq.congr fun a ha => hprev j hj a (List.mem_reverse.mp ha)⟩

/-- The way back without one cell. -/
theorem back_del (h : DoublyFiled k heads lists) (hi : lists i = l₁ ++ x :: l₂) (j : ι) :
    ∃ q, Chain (match l₂.head? with
      | some n => Function.update k.prev n (k.prev x)
      | none => k.prev) q (Function.update lists i (l₁ ++ l₂) j).reverse := by
  obtain ⟨q, hq⟩ := h.back j
  by_cases hj : j = i
  · subst hj
    rw [Function.update_self]
    rw [hi, List.reverse_append, List.reverse_cons, List.append_assoc] at hq
    cases l₂ with
    | nil => exact ⟨k.prev x, by rw [List.append_nil]; exact hq.2⟩
    | cons n l₂ =>
        rw [List.reverse_cons, List.append_assoc] at hq
        refine ⟨q, ?_⟩
        rw [List.reverse_append, List.reverse_cons, List.append_assoc]
        exact Chain.unlink hq
  · rw [Function.update_of_ne hj]
    refine ⟨q, hq.congr fun a ha => ?_⟩
    cases l₂ with
    | nil => rfl
    | cons n l₂ =>
        refine Function.update_of_ne ?_ ..
        rintro rfl
        exact hj (h.filed.disjoint (List.mem_reverse.mp ha) (hi ▸ by simp))

theorem del (h : DoublyFiled k heads lists) (hi : lists i = l₁ ++ x :: l₂) :
    DoublyFiled (k.del (heads i) x).1 (Function.update heads i (k.del (heads i) x).2)
      (Function.update lists i (l₁ ++ l₂)) := by
  have hchain := h.filed.chain i
  obtain ⟨q, hback⟩ := h.back i
  have hnd := hchain.nodup
  rw [hi] at hchain hback hnd
  rw [List.reverse_append, List.reverse_cons, List.append_assoc] at hback
  obtain ⟨_, -, -, hrest⟩ := segment_append.mp hchain
  obtain ⟨_, -, -, hbefore⟩ := segment_append.mp hback
  have hnext : k.next x = l₂.head? := Chain.head hrest
  have hprev : k.prev x = l₁.reverse.head? := Chain.head hbefore
  have hprevs := h.back_del hi
  rw [← hnext] at hprevs
  rcases List.eq_nil_or_concat l₁ with rfl | ⟨l₁, p, rfl⟩
  · have hdel : k.del (heads i) x = (⟨k.next, match k.next x with
        | some n => Function.update k.prev n (k.prev x)
        | none => k.prev⟩, k.next x) := by
      rw [Links.del, hprev]
      rfl
    rw [hdel]
    exact ⟨h.filed.pop hi, hprevs⟩
  · rw [List.concat_eq_append] at *
    have hprev : k.prev x = some p := by
      rw [hprev, List.reverse_append]
      rfl
    have hpx : x ≠ p := by
      rintro rfl
      exact (List.nodup_append.mp hnd).2.2 x (by simp) x List.mem_cons_self rfl
    have hdel : k.del (heads i) x = (⟨Function.update k.next p (k.next x), match k.next x with
        | some n => Function.update k.prev n (k.prev x)
        | none => k.prev⟩, heads i) := by
      have hkeep : Function.update k.next p (k.next x) x = k.next x := Function.update_of_ne hpx ..
      rw [Links.del, hprev]
      dsimp only
      rw [hkeep]
      rfl
    rw [hdel, Function.update_eq_self]
    rw [List.append_assoc] at hi ⊢
    refine ⟨h.filed.unlink hi, ?_⟩
    rw [List.append_assoc] at hprevs
    exact hprevs

end DoublyFiled

/-- Every cell of `order` that has a key is in the chain of its key, in that order. -/
structure KeyedChains {ι : Type*} [DecidableEq ι] (k : Links σ) (heads : ι → Option σ)
    (key : σ → Option ι) (order : List σ) : Prop where
  filed : DoublyFiled k heads fun i => order.filter fun w => key w = some i
  nodup : order.Nodup

namespace KeyedChains

variable {ι : Type*} [DecidableEq σ] [DecidableEq ι] {k : Links σ} {heads : ι → Option σ}
  {key : σ → Option ι} {order : List σ} {w : σ} {j : ι}

omit [DecidableEq σ] in
theorem nil : KeyedChains k (fun _ : ι => none) key [] := ⟨.nil, List.nodup_nil⟩

omit [DecidableEq ι] in
theorem update_key_of_mem (hw : w ∉ order) (v : Option ι) :
    ∀ a ∈ order, Function.update key w v a = key a := fun _ ha =>
  Function.update_of_ne (ne_of_mem_of_not_mem ha hw) ..

theorem filter_update (hw : w ∉ order) (v : Option ι) (i : ι) :
    order.filter (fun a => Function.update key w v a = some i) =
      order.filter fun a => key a = some i :=
  List.filter_congr fun a ha => by rw [update_key_of_mem hw v a ha]

/-- A cell is put to the front under a key. -/
theorem push (h : KeyedChains k heads key order) (hw : w ∉ order) (j : ι) :
    KeyedChains (k.add (heads j) w) (Function.update heads j (some w))
      (Function.update key w (some j)) (w :: order) := by
  refine ⟨?_, List.nodup_cons.mpr ⟨hw, h.nodup⟩⟩
  have := h.filed.add (fun i hi => hw (List.mem_filter.mp hi).1) j
  convert this using 1
  funext i
  rw [List.filter_cons, filter_update hw, Function.update_self, Function.update_apply]
  by_cases hi : i = j
  · rw [if_pos hi, hi, if_pos (by simp)]
  · rw [if_neg hi, if_neg (by simpa using Ne.symm hi)]

/-- A cell is put to the front without a key. -/
theorem pushNone (h : KeyedChains k heads key order) (hw : w ∉ order) :
    KeyedChains k heads (Function.update key w none) (w :: order) := by
  refine ⟨?_, List.nodup_cons.mpr ⟨hw, h.nodup⟩⟩
  convert h.filed using 1
  funext i
  rw [List.filter_cons, filter_update hw, Function.update_self, if_neg (by simp)]

/-- The key of a cell is taken away. -/
theorem unkey (h : KeyedChains k heads key order) (hw : w ∈ order) (hj : key w = some j) :
    KeyedChains (k.del (heads j) w).1 (Function.update heads j (k.del (heads j) w).2)
      (Function.update key w none) order := by
  obtain ⟨l₁, l₂, rfl⟩ := List.append_of_mem hw
  have hnd := h.nodup
  rw [List.nodup_middle, List.nodup_cons, List.mem_append, not_or] at hnd
  obtain ⟨⟨hw₁, hw₂⟩, -⟩ := hnd
  have hsplit : (l₁ ++ w :: l₂).filter (fun a => key a = some j) =
      l₁.filter (fun a => key a = some j) ++ w :: l₂.filter fun a => key a = some j := by
    rw [List.filter_append, List.filter_cons_of_pos (by simpa using hj)]
  refine ⟨?_, h.nodup⟩
  have := h.filed.del hsplit
  convert this using 1
  funext i
  rw [List.filter_append, List.filter_cons_of_neg (by simp), filter_update hw₁, filter_update hw₂,
    Function.update_apply]
  split
  · rename_i hi
    rw [hi]
  · rename_i hi
    rw [List.filter_append, List.filter_cons_of_neg]
    simpa [hj] using Ne.symm hi

/-- What is left of a chain whose first cell lost its key. -/
theorem filter_unkey {l : List σ} (hnd : order.Nodup)
    (hl : (order.filter fun a => key a = some j) = w :: l) :
    (order.filter fun a => Function.update key w none a = some j) = l := by
  have hw : w ∉ l := (List.nodup_cons.mp (hl ▸ hnd.filter _)).1
  have : (order.filter fun a => Function.update key w none a = some j) =
      (order.filter fun a => key a = some j).filter (· ≠ w) := by
    rw [List.filter_filter]
    refine List.filter_congr fun a _ => ?_
    by_cases ha : a = w <;> simp [ha]
  rw [this, hl, List.filter_cons_of_neg (by simp), List.filter_eq_self]
  exact fun a ha => by simpa using ne_of_mem_of_not_mem ha hw

/-- A cell without a key is taken out. -/
theorem erase (h : KeyedChains k heads key order) (hw : key w = none) :
    KeyedChains k heads key (order.erase w) := by
  refine ⟨?_, h.nodup.erase w⟩
  convert h.filed using 1
  funext i
  rw [h.nodup.erase_eq_filter, List.filter_filter]
  refine List.filter_congr fun a _ => ?_
  by_cases ha : a = w
  · simp [ha, hw]
  · simp [ha]

end KeyedChains

end PointerChain
