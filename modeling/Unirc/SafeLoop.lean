import Mathlib.Data.List.Nodup

/-!
# Loops that hold the next node

A walk over a linked list that takes the successor of a node before its body runs. It is safe
against the removal of the node itself; when the body removes the successor, the walk goes on to a
node that is not linked any more, and its successor is none.
-/

/-- The walk over the nodes that were linked when it began; it stands at the node `ptr`. -/
def safeLoop {σ α : Type*} [DecidableEq α] (linked : σ → α → Bool) (body : σ → α → σ) :
    List α → Option α → σ → σ
  | [], _, s => s
  | x :: rest, ptr, s =>
      if ptr = some x then
        safeLoop linked body rest (if linked s x then rest.find? (linked s) else none) (body s x)
      else safeLoop linked body rest ptr s

namespace SafeLoop

theorem find?_eq_of_imp {α : Type*} {p q : α → Bool} {l : List α}
    (himp : ∀ x ∈ l, q x = true → p x = true)
    (hfirst : ∀ x, l.find? p = some x → q x = true) : l.find? p = l.find? q := by
  induction l with
  | nil => rfl
  | cons x l ih =>
      by_cases hp : p x = true
      · have hq := hfirst x (List.find?_cons_of_pos hp)
        rw [List.find?_cons_of_pos hp, List.find?_cons_of_pos hq]
      · have hq : ¬ q x = true := fun hq => hp (himp x List.mem_cons_self hq)
        rw [List.find?_cons_of_neg hp, List.find?_cons_of_neg hq]
        rw [List.find?_cons_of_neg hp] at hfirst
        exact ih (fun y hy => himp y (List.mem_cons_of_mem x hy)) hfirst

theorem head?_eq_find? {α : Type*} {p : α → Bool} {l : List α} (hl : ∀ x ∈ l, p x = true) :
    l.head? = l.find? p := by
  cases l with
  | nil => rfl
  | cons x l => rw [List.find?_cons_of_pos (hl x List.mem_cons_self), List.head?_cons]

theorem find?_map {α β : Type*} {f : α → Option β} {p : α → Bool} {q : β → Bool} {l : List α}
    {m : List β} (h : l.map f = m.map some) (hpq : ∀ x ∈ l, ∀ y, f x = some y → p x = q y) {x : α}
    (hx : l.find? p = some x) : ∃ y, f x = some y ∧ m.find? q = some y := by
  induction l generalizing m with
  | nil => cases hx
  | cons a l ih =>
      cases m with
      | nil => cases h
      | cons b m =>
          obtain ⟨hab, hlm⟩ := List.cons_eq_cons.mp h
          have hab' := hpq a List.mem_cons_self b hab
          by_cases hp : p a = true
          · rw [List.find?_cons_of_pos hp] at hx
            obtain rfl := Option.some.inj hx
            exact ⟨b, hab, List.find?_cons_of_pos (hab' ▸ hp)⟩
          · rw [List.find?_cons_of_neg hp] at hx
            obtain ⟨y, hy, hfind⟩ := ih hlm (fun c hc => hpq c (List.mem_cons_of_mem a hc)) hx
            exact ⟨y, hy, by rw [List.find?_cons_of_neg (hab' ▸ hp)]; exact hfind⟩

variable {σ α : Type*} [DecidableEq α] {linked : σ → α → Bool} {body : σ → α → σ}

/-- What a body does at a linked node: it keeps the invariant, links no node of the rest, and leaves
the one that the walk goes to next. -/
structure Step (linked : σ → α → Bool) (body : σ → α → σ) (I : List α → σ → Prop) (x : α)
    (rest : List α) (s : σ) : Prop where
  inv : I rest (body s x)
  old : ∀ y ∈ rest, linked (body s x) y = true → linked s y = true
  next : ∀ y, rest.find? (linked s) = some y → linked (body s x) y = true

/-- The rule of a walk that never leaves the linked nodes. -/
theorem invariant {I : List α → σ → Prop}
    (hbody : ∀ x rest s, I (x :: rest) s → linked s x = true → Step linked body I x rest s)
    (hskip : ∀ x rest s, I (x :: rest) s → linked s x = false → I rest s) {l : List α}
    (hl : l.Nodup) {ptr : Option α} {s : σ} (hptr : ptr = l.find? (linked s)) (hs : I l s) :
    I [] (safeLoop linked body l ptr s) := by
  induction l generalizing ptr s with
  | nil => exact hs
  | cons x rest ih =>
      obtain ⟨hx, hrest⟩ := List.nodup_cons.mp hl
      rw [safeLoop]
      cases hlinked : linked s x with
      | true =>
          have hstep := hbody x rest s hs hlinked
          rw [List.find?_cons_of_pos hlinked] at hptr
          rw [if_pos hptr, if_pos rfl]
          exact ih hrest (find?_eq_of_imp hstep.old hstep.next) hstep.inv
      | false =>
          rw [List.find?_cons_of_neg (by simp [hlinked])] at hptr
          rw [if_neg]
          · exact ih hrest hptr (hskip x rest s hs hlinked)
          · rw [hptr]
            exact fun he => hx (List.mem_of_find?_eq_some he)

section Undisturbed

variable {β κ : Type*} [DecidableEq κ] (key : β → κ) (due : β → Bool) (removes : β → List κ)

/-- No body of a walk over nodes with these contents unlinks the node that stands next, when the
nodes with a key in `gone` have been unlinked already. -/
def Undisturbed : List β → List κ → Prop
  | [], _ => True
  | b :: rest, gone =>
      if key b ∈ gone then Undisturbed rest gone
      else if due b then
        (∀ next, rest.find? (key · ∉ gone) = some next → key next ∉ removes b) ∧
          Undisturbed rest (gone ++ removes b)
      else Undisturbed rest gone

variable (find : σ → α → Option β) (linked) (known : σ → α → Prop) (J : σ → Prop)

/-- What a body does at a node with the contents `b`: it keeps the invariant and what is known of
the other nodes, and unlinks those with a key that it removes. -/
structure Removal (x : α) (b : β) (s s' : σ) : Prop where
  inv : J s'
  knows : ∀ y, y ≠ x → known s y → known s' y
  finds : ∀ y, y ≠ x → known s y → find s' y = find s y
  links : ∀ y, y ≠ x → known s y → ∀ b', find s y = some b' →
    (linked s' y = true ↔ linked s y = true ∧ (due b = true → key b' ∉ removes b))

/-- The walk before the nodes `l` with the contents `bs`. -/
structure Walk (l : List α) (bs : List β) (gone : List κ) (s : σ) : Prop where
  inv : J s
  nodup : l.Nodup
  knows : ∀ x ∈ l, known s x
  found : l.map (find s) = bs.map some
  left : ∀ x ∈ l, ∀ b, find s x = some b → (linked s x = true ↔ key b ∉ gone)
  undisturbed : Undisturbed key due removes bs gone

namespace Walk

omit [DecidableEq α]

variable {key due removes find linked known J} {x : α} {l : List α} {bs : List β} {gone : List κ}
  {s : σ}

theorem exists_found (h : Walk linked key due removes find known J (x :: l) bs gone s) :
    ∃ b rest, bs = b :: rest ∧ find s x = some b ∧ l.map (find s) = rest.map some := by
  have hfound := h.found
  cases bs with
  | nil => cases hfound
  | cons b rest => exact ⟨b, rest, rfl, List.cons_eq_cons.mp hfound⟩

theorem ne (h : Walk linked key due removes find known J (x :: l) bs gone s) {y : α}
    (hy : y ∈ l) : y ≠ x :=
  fun he => (List.nodup_cons.mp h.nodup).1 (he ▸ hy)

theorem skip (h : Walk linked key due removes find known J (x :: l) bs gone s)
    (hx : linked s x = false) :
    ∃ bs gone, Walk linked key due removes find known J l bs gone s := by
  obtain ⟨b, rest, rfl, hfind, hrest⟩ := h.exists_found
  have hmem : key b ∈ gone := by
    by_contra hne
    exact Bool.false_ne_true (hx.symm.trans ((h.left x List.mem_cons_self b hfind).mpr hne))
  have hcond := h.undisturbed
  rw [Undisturbed, if_pos hmem] at hcond
  exact ⟨rest, gone, h.inv, (List.nodup_cons.mp h.nodup).2,
    fun y hy => h.knows y (List.mem_cons_of_mem x hy), hrest,
    fun y hy => h.left y (List.mem_cons_of_mem x hy), hcond⟩

theorem step (h : Walk linked key due removes find known J (x :: l) bs gone s)
    (hx : linked s x = true) (hbody : ∀ b, find s x = some b →
      Removal linked key due removes find known J x b s (body s x)) :
    Step linked body (fun l s => ∃ bs gone, Walk linked key due removes find known J l bs gone s)
      x l s := by
  obtain ⟨b, rest, rfl, hfind, hrest⟩ := h.exists_found
  have hnodup := (List.nodup_cons.mp h.nodup).2
  have hknown : ∀ y ∈ l, known s y := fun y hy => h.knows y (List.mem_cons_of_mem x hy)
  have hleft : ∀ y ∈ l, ∀ b, find s y = some b → (linked s y = true ↔ key b ∉ gone) :=
    fun y hy => h.left y (List.mem_cons_of_mem x hy)
  have hsome : ∀ y ∈ l, ∃ b, find s y = some b := fun y hy => by
    obtain ⟨b, -, hb⟩ := List.mem_map.mp (hrest ▸ List.mem_map_of_mem hy)
    exact ⟨b, hb.symm⟩
  have hstep := hbody b hfind
  have hfound : l.map (find (body s x)) = rest.map some := by
    rw [← hrest]
    exact List.map_congr_left fun y hy => hstep.finds y (h.ne hy) (hknown y hy)
  have hold : ∀ y ∈ l, linked (body s x) y = true → linked s y = true := fun y hy hin => by
    obtain ⟨b', hb'⟩ := hsome y hy
    exact ((hstep.links y (h.ne hy) (hknown y hy) b' hb').mp hin).1
  have hcond := h.undisturbed
  rw [Undisturbed, if_neg ((h.left x List.mem_cons_self b hfind).mp hx)] at hcond
  cases hdue : due b with
  | false =>
      rw [if_neg (by simp [hdue])] at hcond
      have hlinked : ∀ y ∈ l, ∀ b', find s y = some b' →
          (linked (body s x) y = true ↔ linked s y = true) := fun y hy b' hb' => by
        simpa [hdue] using hstep.links y (h.ne hy) (hknown y hy) b' hb'
      refine ⟨⟨rest, gone, hstep.inv, hnodup,
        fun y hy => hstep.knows y (h.ne hy) (hknown y hy), hfound, fun y hy b' hb' => ?_, hcond⟩,
        hold, fun y hy => ?_⟩
      · rw [hstep.finds y (h.ne hy) (hknown y hy)] at hb'
        exact (hlinked y hy b' hb').trans (hleft y hy b' hb')
      · obtain ⟨b', hb'⟩ := hsome y (List.mem_of_find?_eq_some hy)
        exact (hlinked y (List.mem_of_find?_eq_some hy) b' hb').mpr (List.find?_some hy)
  | true =>
      rw [if_pos hdue] at hcond
      have hlinked : ∀ y ∈ l, ∀ b', find s y = some b' →
          (linked (body s x) y = true ↔ linked s y = true ∧ key b' ∉ removes b) :=
        fun y hy b' hb' => by
          simpa [hdue] using hstep.links y (h.ne hy) (hknown y hy) b' hb'
      refine ⟨⟨rest, gone ++ removes b, hstep.inv, hnodup,
        fun y hy => hstep.knows y (h.ne hy) (hknown y hy), hfound, fun y hy b' hb' => ?_,
        hcond.2⟩, hold, fun y hy => ?_⟩
      · rw [hstep.finds y (h.ne hy) (hknown y hy)] at hb'
        rw [hlinked y hy b' hb', hleft y hy b' hb', List.mem_append, not_or]
      · -- the body leaves the node that stands next
        have hyl := List.mem_of_find?_eq_some hy
        obtain ⟨next, hnext, hfirst⟩ := find?_map hrest (q := fun b => decide (key b ∉ gone))
          (fun y hy b hb => Bool.eq_iff_iff.mpr ((hleft y hy b hb).trans decide_eq_true_iff.symm))
          hy
        exact (hlinked y hyl next hnext).mpr ⟨List.find?_some hy, hcond.1 next hfirst⟩

end Walk

variable {key due removes find linked known J}

/-- The rule of a walk whose bodies leave the node that stands next. -/
theorem invariant_of_undisturbed
    (hbody : ∀ x b s, J s → linked s x = true → find s x = some b →
      Removal linked key due removes find known J x b s (body s x)) {l : List α} {bs : List β}
    {s : σ} (hs : J s) (hl : l.Nodup) (hknown : ∀ x ∈ l, known s x)
    (hlinked : ∀ x ∈ l, linked s x = true) (hfound : l.map (find s) = bs.map some)
    (hcond : Undisturbed key due removes bs []) : J (safeLoop linked body l l.head? s) := by
  have hwalk : Walk linked key due removes find known J l bs [] s :=
    ⟨hs, hl, hknown, hfound, fun x hx _ _ => by simp [hlinked x hx], hcond⟩
  obtain ⟨_, _, hend⟩ := invariant
    (I := fun l s => ∃ bs gone, Walk linked key due removes find known J l bs gone s)
    (fun x l s ⟨_, _, hs⟩ hx => hs.step hx fun b => hbody x b s hs.inv hx)
    (fun x l s ⟨_, _, hs⟩ hx => hs.skip hx) hl (head?_eq_find? hlinked) ⟨_, _, hwalk⟩
  exact hend.inv

end Undisturbed

end SafeLoop
