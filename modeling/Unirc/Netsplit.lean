import Unirc.NetworkTree

/-!
# Netsplits

When a server exits, it and all that hangs off it are taken from the lists and the tables, in walks
over the lists that shrink on the way.
-/

namespace Unirc

namespace Network

open ParentTree

variable {n n' s : Network} {a : ℕ} {gone : ℕ → Bool}

namespace Tree

/-- Below a server other than `me` there are clients only. -/
theorem isSome_of_below (h : n.Tree) (ha : (n.client? a).isSome = true) (hne : a ≠ n.me) {b : ℕ}
    (hb : Below n.parent a b) : (n.client? b).isSome = true := by
  cases hk : n.client? b with
  | some k => rfl
  | none =>
      have hba : b ≠ a := fun he => by
        rw [he] at hk
        rw [hk] at ha
        cases ha
      have hparent : n.parent b = n.me := by rw [Network.parent, hk]; rfl
      exact absurd (hparent ▸ hb.parent hba) (h.rooted.not_below_root hne)

/-- What is below a client that is left is what was below it and is left. -/
theorem below_without (h : n.Tree) (w : Without gone n s)
    (hclosed : ∀ b, gone (n.parent b) = true → gone b = true) (hne : a ≠ n.me)
    (ha : gone a = false) (b : ℕ) :
    Below s.parent a b ↔ gone b = false ∧ Below n.parent a b := by
  have hme : s.parent s.me = s.me := by
    rw [w.me, w.parent, h.parentMe]
    split <;> rfl
  cases hb : gone b with
  | false =>
      rw [ParentTree.below_congr (a := fun c => gone c = false) (fun c hc => by
        rw [w.parent, if_neg (by simp [hc])]) (fun c hc => Bool.eq_false_iff.mpr fun hg => by
          rw [hclosed c hg] at hc
          cases hc) hb]
      simp
  | true =>
      refine ⟨fun hbelow => ?_, fun hbelow => by cases hbelow.1⟩
      have hba : b ≠ a := fun he => by
        rw [he, ha] at hb
        cases hb
      have hparent := hbelow.parent hba
      rw [w.parent, if_pos hb, ← w.me] at hparent
      obtain ⟨i, hi⟩ := hparent
      rw [Function.iterate_fixed hme, w.me] at hi
      exact absurd hi.symm hne

end Tree

section Walk

/-- What a walk over the children of a server does: the child `x` goes, with all in `below x`. -/
structure Walk (n : Network) (a : ℕ) (kids : Network → List ℕ) (below : ℕ → ℕ → Prop)
    (body : Network → ℕ → Network) : Prop where
  nodup : (kids n).Nodup
  listed : ∀ s gone, Without gone n s → gone a = false → kids s = (kids n).filter fun b => !gone b
  self : ∀ x ∈ kids n, below x x
  parent : ∀ x ∈ kids n, ¬below x a
  disjoint : ∀ x ∈ kids n, ∀ y ∈ kids n, x ≠ y → ∀ b, below x b → ¬below y b
  exits : ∀ s gone x, Without gone n s → s.Tree → x ∈ kids n → gone a = false →
    (∀ b, below x b → gone b = false) →
    (∃ done : ℕ → Prop, ∀ b, gone b = true ↔ ∃ y, done y ∧ below y b) →
      (body s x).Tree ∧ (body s x).faults = s.faults ∧
        ∃ gone', Without gone' s (body s x) ∧ ∀ b, gone' b = true ↔ below x b

variable {kids : Network → List ℕ} {below : ℕ → ℕ → Prop} {body : Network → ℕ → Network}

/-- The state before the children `rest`. -/
structure Walked (n : Network) (a : ℕ) (kids : Network → List ℕ) (below : ℕ → ℕ → Prop)
    (rest : List ℕ) (s : Network) (gone : ℕ → Bool) : Prop where
  sub : ∀ y ∈ rest, y ∈ kids n
  nodup : rest.Nodup
  without : Without gone n s
  tree : s.Tree
  faults : s.faults = n.faults
  gone : ∀ b, gone b = true ↔ ∃ y ∈ kids n, y ∉ rest ∧ below y b

namespace Walked

variable {x : ℕ} {rest : List ℕ}

theorem parent (hw : Walk n a kids below body) (h : Walked n a kids below rest s gone) :
    gone a = false := by
  refine Bool.eq_false_iff.mpr fun ha => ?_
  obtain ⟨y, hy, -, hb⟩ := (h.gone a).mp ha
  exact hw.parent y hy hb

/-- The subtrees of the children that are left are complete. -/
theorem intact (hw : Walk n a kids below body) (h : Walked n a kids below (x :: rest) s gone)
    {b : ℕ} (hb : below x b) : gone b = false := by
  refine Bool.eq_false_iff.mpr fun hg => ?_
  obtain ⟨y, hy, hrest, hyb⟩ := (h.gone b).mp hg
  have hne : x ≠ y := fun he => hrest (he ▸ List.mem_cons_self)
  exact hw.disjoint x (h.sub x List.mem_cons_self) y hy hne b hb hyb

theorem linked (hw : Walk n a kids below body) (h : Walked n a kids below (x :: rest) s gone) :
    x ∈ kids s := by
  have hx := h.sub x List.mem_cons_self
  rw [hw.listed s gone h.without (h.parent hw), List.mem_filter, h.intact hw (hw.self x hx)]
  exact ⟨hx, rfl⟩

theorem step (hw : Walk n a kids below body) (h : Walked n a kids below (x :: rest) s gone) :
    SafeLoop.Step (fun s b => decide (b ∈ kids s)) body
      (fun rest s => ∃ gone, Walked n a kids below rest s gone) x rest s := by
  obtain ⟨hxrest, hnodup⟩ := List.nodup_cons.mp h.nodup
  have hx := h.sub x List.mem_cons_self
  have ha := h.parent hw
  obtain ⟨htree, hfaults, gone', w, hgone'⟩ := hw.exits s gone x h.without h.tree hx ha
    (fun b hb => h.intact hw hb) ⟨fun y => y ∈ kids n ∧ y ∉ x :: rest, fun b => by
      rw [h.gone]
      simp only [and_assoc]⟩
  have hboth := h.without.trans w
  have hgone : ∀ b, (gone b || gone' b) = true ↔ ∃ y ∈ kids n, y ∉ rest ∧ below y b := by
    intro b
    rw [Bool.or_eq_true, h.gone, hgone']
    constructor
    · rintro (⟨y, hy, hrest, hb⟩ | hb)
      · exact ⟨y, hy, fun hm => hrest (List.mem_cons_of_mem x hm), hb⟩
      · exact ⟨x, hx, hxrest, hb⟩
    · rintro ⟨y, hy, hrest, hb⟩
      by_cases hyx : y = x
      · exact .inr (hyx ▸ hb)
      · exact .inl ⟨y, hy, by simpa [hyx] using hrest, hb⟩
  have hnext : Walked n a kids below rest (body s x) fun b => gone b || gone' b :=
    ⟨fun y hy => h.sub y (List.mem_cons_of_mem x hy), hnodup, hboth, htree,
      hfaults.trans h.faults, hgone⟩
  have hkids : kids (body s x) = (kids s).filter fun b => !gone' b := by
    rw [hw.listed _ _ hboth (hnext.parent hw), hw.listed s gone h.without ha, List.filter_filter]
    exact List.filter_congr fun b _ => by rw [Bool.not_or, Bool.and_comm]
  refine ⟨⟨_, hnext⟩, fun y _ hy => ?_, fun y hy => ?_⟩
  · rw [decide_eq_true_eq, hkids] at hy
    exact decide_eq_true (List.mem_filter.mp hy).1
  · have hyrest := List.mem_of_find?_eq_some hy
    have hlinked : y ∈ kids s := by simpa using List.find?_some hy
    have hyn := h.sub y (List.mem_cons_of_mem x hyrest)
    have hne : x ≠ y := fun he => hxrest (he ▸ hyrest)
    have hkeep : gone' y = false := Bool.eq_false_iff.mpr fun hg =>
      hw.disjoint x hx y hyn hne y ((hgone' y).mp hg) (hw.self y hyn)
    rw [decide_eq_true_eq, hkids, List.mem_filter, hkeep]
    exact ⟨hlinked, rfl⟩

end Walked

/-- All children go. -/
theorem Walk.removes (hw : Walk n a kids below body) (h : n.Tree) :
    (safeLoop (fun s b => decide (b ∈ kids s)) body (kids n) (kids n).head? n).Tree ∧
    (safeLoop (fun s b => decide (b ∈ kids s)) body (kids n) (kids n).head? n).faults = n.faults ∧
    ∃ gone, Without gone n
        (safeLoop (fun s b => decide (b ∈ kids s)) body (kids n) (kids n).head? n) ∧
      ∀ b, gone b = true ↔ ∃ y ∈ kids n, below y b := by
  have hstart : Walked n a kids below (kids n) n fun _ => false :=
    ⟨fun _ hy => hy, hw.nodup, Without.refl h.core, h, rfl, fun b => by
      refine ⟨fun hb => (by cases hb), fun ⟨y, hy, hne, _⟩ => absurd hy hne⟩⟩
  obtain ⟨gone, hend⟩ := SafeLoop.invariant
    (I := fun rest s => ∃ gone, Walked n a kids below rest s gone)
    (fun x rest s ⟨gone, hs⟩ _ => hs.step hw)
    (fun x rest s ⟨gone, hs⟩ hx => absurd (hs.linked hw) (of_decide_eq_false hx)) hw.nodup
    (SafeLoop.head?_eq_find? fun x hx => decide_eq_true hx) ⟨_, hstart⟩
  refine ⟨hend.tree, hend.faults, gone, hend.without, fun b => ?_⟩
  rw [hend.gone]
  simp

end Walk

section Remove

/-- The users of a server go. -/
theorem Tree.walk_users (h : n.Tree) (ha : n.isServer a = true) :
    Walk n a (fun s => s.users a) (fun x b => b = x)
    Network.exitOneClient where
  nodup := h.nodupUsers a
  listed := fun s gone w hgone => by rw [w.users, if_neg (by simp [hgone])]
  self := fun _ _ => rfl
  parent := fun x hx he => by
    subst he
    obtain ⟨k, hk, hc⟩ := exists_of_isServer ha
    have hu := ((h.memUsers a a).mp hx).1
    rw [Network.isUser, hk, Option.any_some, hc] at hu
    cases hu
  disjoint := fun x _ y _ hne b hx hy => hne (hx.symm.trans hy)
  exits := fun s gone x w hs hx hga hkeep _ => by
    obtain ⟨hu, hp⟩ := (h.memUsers a x).mp hx
    have hus : s.isUser x = true := by rw [w.isUser, hkeep x rfl, hu]; rfl
    obtain ⟨k, hk, hc⟩ := exists_of_isUser hus
    have hnot : s.isServer x = false := by rw [Network.isServer, hk, Option.any_some, hc]; rfl
    have hme : x ≠ s.me := fun he => by
      rw [he, hs.root] at hnot
      cases hnot
    have hleaf : ∀ b, s.parent b = x → b = x := fun b hb => by
      have hparent := hs.parent b
      rw [hb, hnot] at hparent
      cases hparent
    refine ⟨hs.exitOneClient hk hme hleaf, hs.faults_exitOneClient hk hme, _,
      hs.without_exitOneClient hk hme, fun b => ?_⟩
    exact beq_iff_eq

/-- What `recurse_remove_clients` does to a server. -/
structure Emptied (n : Network) (a : ℕ) (s : Network) (gone : ℕ → Bool) : Prop where
  tree : s.Tree
  faults : s.faults = n.faults
  without : Without gone n s
  gone : ∀ b, gone b = true ↔ b ≠ a ∧ Below n.parent a b

theorem Emptied.exitOneClient (ha : n.isServer a = true) (hne : a ≠ n.me)
    (he : Emptied n a s gone) :
    (s.exitOneClient a).Tree ∧ (s.exitOneClient a).faults = n.faults ∧
      ∃ gone', Without gone' n (s.exitOneClient a) ∧
        ∀ b, gone' b = true ↔ Below n.parent a b := by
  have hga : gone a = false := Bool.eq_false_iff.mpr fun hg => ((he.gone a).mp hg).1 rfl
  have has : s.isServer a = true := by rw [he.without.isServer, hga, ha]; rfl
  have hme : a ≠ s.me := by rwa [he.without.me]
  obtain ⟨k, hk, -⟩ := exists_of_isServer has
  have hleaf : ∀ b, s.parent b = a → b = a := fun b hb => by
    rw [he.without.parent] at hb
    split at hb
    · exact absurd hb.symm hne
    · rename_i hgb
      by_contra hba
      exact hgb ((he.gone b).mpr ⟨hba, Below.of_parent (hb ▸ Below.refl n.parent _)⟩)
  refine ⟨he.tree.exitOneClient hk hme hleaf, (he.tree.faults_exitOneClient hk hme).trans he.faults,
    _, he.without.trans (he.tree.without_exitOneClient hk hme), fun b => ?_⟩
  rw [Bool.or_eq_true, he.gone, beq_iff_eq]
  constructor
  · rintro (⟨-, hb⟩ | rfl)
    · exact hb
    · exact Below.refl n.parent b
  · intro hb
    by_cases hba : b = a
    · exact .inr hba
    · exact .inl ⟨hba, hb⟩

theorem Tree.below_fromOf (h : n.Tree) (b : ℕ) : Below n.parent (n.fromOf b) b := by
  obtain ⟨i, hi⟩ := h.reaches b
  induction i generalizing b with
  | zero =>
      obtain rfl : b = n.me := hi
      exact ⟨0, by
        obtain ⟨k, hk, -⟩ := exists_of_isServer h.root
        have hm : k.myConnect = true := (h.direct _ k hk).mpr (Tree.parent_eq hk ▸ h.parentMe)
        rw [Tree.fromOf_eq hk, h.from_ _ k hk, if_pos hm]
        rfl⟩
  | succ i ih =>
      cases hk : n.client? b with
      | none =>
          have hfrom : n.fromOf b = b := by rw [fromOf, hk]; rfl
          rw [hfrom]
          exact Below.refl n.parent b
      | some k =>
          rw [Tree.fromOf_eq hk, h.from_ b k hk]
          split
          · exact Below.refl n.parent b
          · rw [← Tree.parent_eq hk]
            exact (ih (n.parent b) hi).of_parent

/-- No client that is left is behind a server that has lost all that hung off it. -/
theorem Emptied.not_behind (h : n.Tree) (hne : a ≠ n.me) (he : Emptied n a s gone) (b : ℕ) :
    s.behind a b = false := by
  refine Bool.eq_false_iff.mpr fun hb => ?_
  rw [he.without.behind, Bool.and_eq_true, Bool.not_eq_true'] at hb
  obtain ⟨hgone, hb⟩ := hb
  unfold behind at hb
  obtain ⟨k, hk, hkb⟩ := Option.any_eq_true .. |>.mp hb
  simp only [Bool.and_eq_true, Bool.not_eq_true', beq_iff_eq] at hkb
  have hfrom : n.fromOf b = a := (Tree.fromOf_eq hk).trans hkb.2
  have hbelow : Below n.parent a b := hfrom ▸ h.below_fromOf b
  obtain rfl : b = a := by
    by_contra hba
    rw [(he.gone b).mpr ⟨hba, hbelow⟩] at hgone
    cases hgone
  have hparent : n.fromOf (n.parent b) = b := by
    rw [Tree.parent_eq hk, ← hkb.2, h.from_ b k hk, if_neg (by simp [hkb.1])]
  have hbelow' := h.below_fromOf (n.parent b)
  rw [hparent] at hbelow'
  exact h.rooted.not_below_parent hne hbelow'

/-- The servers behind a server go, each with what hangs off it. -/
theorem Tree.walk_servers (h : n.Tree) {fuel : ℕ}
    (hrec : ∀ {s : Network} {x : ℕ}, s.Tree → s.isServer x = true → x ≠ s.me →
      (∀ i b, s.isServer b = true → s.parent^[i] b = x → i < fuel) →
        ∃ gone, Emptied s x (Network.recurseRemoveClients fuel x s) gone)
    (hfuel : ∀ i b, n.isServer b = true → n.parent^[i] b = a → i < fuel + 1) :
    Walk n a (fun s => s.servers a) (fun x b => Below n.parent x b)
      fun s x => (Network.recurseRemoveClients fuel x s).exitOneClient x where
  nodup := h.nodupServers a
  listed := fun s gone w hgone => by rw [w.servers, if_neg (by simp [hgone])]
  self := fun x _ => Below.refl n.parent x
  parent := fun x hx hb => by
    obtain ⟨hme, -, hp⟩ := (h.memServers a x).mp hx
    exact h.rooted.not_below_parent hme (hp.symm ▸ hb)
  disjoint := fun x hx y hy hxy b hbx hby => by
    obtain ⟨hxme, -, hxp⟩ := (h.memServers a x).mp hx
    obtain ⟨hyme, -, hyp⟩ := (h.memServers a y).mp hy
    rcases below_total hbx hby with hb | hb
    · exact h.rooted.not_below_of_parent_eq hxme (Ne.symm hxy) (hyp.trans hxp.symm) hb
    · exact h.rooted.not_below_of_parent_eq hyme hxy (hxp.trans hyp.symm) hb
  exits := fun s gone x w hs hx hga hkeep ⟨done, hgone⟩ => by
    obtain ⟨hme, hserver, hp⟩ := (h.memServers a x).mp hx
    have hgx : gone x = false := hkeep x (Below.refl n.parent x)
    have hclosed : ∀ b, gone (n.parent b) = true → gone b = true := fun b hb => by
      obtain ⟨y, hy, hyb⟩ := (hgone _).mp hb
      exact (hgone b).mpr ⟨y, hy, hyb.of_parent⟩
    have hsx : s.isServer x = true := by rw [w.isServer, hgx, hserver]; rfl
    have hsme : x ≠ s.me := by rwa [w.me]
    obtain ⟨gone', he⟩ := hrec hs hsx hsme fun i b hb hi => by
      rw [w.isServer, Bool.and_eq_true, Bool.not_eq_true'] at hb
      rw [ParentTree.iterate_congr (a := fun c => gone c = false) (fun c hc => by
        rw [w.parent, if_neg (by simp [hc])]) (fun c hc => Bool.eq_false_iff.mpr fun hg => by
          rw [hclosed c hg] at hc
          cases hc) hb.1] at hi
      have hstep : n.parent^[i + 1] b = a := by rw [Function.iterate_succ_apply', hi, hp]
      have hlt := hfuel (i + 1) b hb.2 hstep
      omega
    obtain ⟨htree, hfaults, gone'', w', hgone''⟩ := he.exitOneClient hsx hsme
    refine ⟨htree, hfaults, gone'', w', fun b => ?_⟩
    rw [hgone'', h.below_without w hclosed hme hgx]
    exact ⟨fun hb => hb.2, fun hb => ⟨hkeep b hb, hb⟩⟩

/-- The users of a server and what is below its servers is what is below it. -/
theorem Tree.below_iff (h : n.Tree) (ha : n.isServer a = true) (hne : a ≠ n.me) (b : ℕ) :
    b ≠ a ∧ Below n.parent a b ↔ b ∈ n.users a ∨ ∃ x ∈ n.servers a, Below n.parent x b := by
  constructor
  · rintro ⟨hba, i, hi⟩
    cases i with
    | zero => exact absurd hi hba
    | succ i =>
        rw [Function.iterate_succ_apply'] at hi
        have hsome := h.isSome_of_below (a := a) (b := n.parent^[i] b)
          (by obtain ⟨k, hk, -⟩ := exists_of_isServer ha; rw [hk]; rfl) hne ⟨1, hi⟩
        have hme : n.parent^[i] b ≠ n.me := fun he => by
          rw [he, h.parentMe] at hi
          exact hne hi.symm
        cases hu : n.isUser (n.parent^[i] b) with
        | true =>
            cases i with
            | zero => exact .inl ((h.memUsers a b).mpr ⟨hu, hi⟩)
            | succ i =>
                obtain ⟨k, hk, hc⟩ := exists_of_isUser hu
                have hserver := h.parent (n.parent^[i] b)
                rw [← Function.iterate_succ_apply' n.parent, Network.isServer, hk, Option.any_some,
                  hc] at hserver
                cases hserver
        | false =>
            obtain ⟨k, hk⟩ := Option.isSome_iff_exists.mp hsome
            have hserver := Tree.isServer_of_not_isUser hk hu
            exact .inr ⟨_, (h.memServers a _).mpr ⟨hme, hserver, hi⟩, i, rfl⟩
  · rintro (hb | ⟨x, hx, hb⟩)
    · obtain ⟨hu, hp⟩ := (h.memUsers a b).mp hb
      refine ⟨fun he => ?_, Below.of_parent (hp ▸ Below.refl n.parent _)⟩
      obtain ⟨k, hk, hc⟩ := exists_of_isServer ha
      rw [he, Network.isUser, hk, Option.any_some, hc] at hu
      cases hu
    · obtain ⟨hme, -, hp⟩ := (h.memServers a x).mp hx
      have hax : Below n.parent a x := Below.of_parent (hp ▸ Below.refl n.parent _)
      refine ⟨fun he => ?_, hax.trans hb⟩
      rw [he, ← hp] at hb
      exact h.rooted.not_below_parent hme hb

theorem Tree.recurseRemoveClients (h : n.Tree) (fuel : ℕ) (ha : n.isServer a = true)
    (hne : a ≠ n.me) (hfuel : ∀ i b, n.isServer b = true → n.parent^[i] b = a → i < fuel) :
    ∃ gone, Emptied n a (Network.recurseRemoveClients fuel a n) gone := by
  induction fuel generalizing n a with
  | zero => exact absurd (hfuel 0 a ha rfl) (Nat.lt_irrefl 0)
  | succ fuel ih =>
      obtain ⟨htree₁, hfaults₁, gone₁, w₁, hgone₁⟩ := (h.walk_users ha).removes h
      rw [Network.recurseRemoveClients]
      generalize safeLoop (fun s b => decide (b ∈ s.users a)) Network.exitOneClient (n.users a)
        (n.users a).head? n = n₁ at *
      have hnot : ∀ b, n.isServer b = true → gone₁ b = false := fun b hb =>
        Bool.eq_false_iff.mpr fun hg => by
          obtain ⟨y, hy, rfl⟩ := (hgone₁ b).mp hg
          obtain ⟨k, hk, hc⟩ := exists_of_isUser ((h.memUsers a b).mp hy).1
          rw [Network.isServer, hk, Option.any_some, hc] at hb
          cases hb
      have hclosed : ∀ b, gone₁ (n.parent b) = true → gone₁ b = true := fun b hb => by
        rw [hnot _ (h.parent b)] at hb
        cases hb
      have ha₁ : n₁.isServer a = true := by rw [w₁.isServer, hnot a ha, ha]; rfl
      have hne₁ : a ≠ n₁.me := by rwa [w₁.me]
      have hfuel₁ : ∀ i b, n₁.isServer b = true → n₁.parent^[i] b = a → i < fuel + 1 :=
        fun i b hb hi => by
          rw [w₁.isServer, Bool.and_eq_true, Bool.not_eq_true'] at hb
          rw [ParentTree.iterate_congr (a := fun c => gone₁ c = false) (fun c hc => by
            rw [w₁.parent, if_neg (by simp [hc])]) (fun c hc => hnot _ (h.parent c)) hb.1] at hi
          exact hfuel i b hb.2 hi
      obtain ⟨htree₂, hfaults₂, gone₂, w₂, hgone₂⟩ :=
        (htree₁.walk_servers (fun hs hx hxme hi => ih hs hx hxme hi) hfuel₁).removes htree₁
      generalize safeLoop (fun s b => decide (b ∈ s.servers a))
        (fun s x => (Network.recurseRemoveClients fuel x s).exitOneClient x) (n₁.servers a)
        (n₁.servers a).head? n₁ = n₂ at *
      have he : Emptied n a n₂ fun b => gone₁ b || gone₂ b := by
        refine ⟨htree₂, hfaults₂.trans hfaults₁, w₁.trans w₂, fun b => ?_⟩
        rw [Bool.or_eq_true, hgone₁, hgone₂, h.below_iff ha hne]
        refine or_congr exists_eq_right' ?_
        constructor
        · rintro ⟨y, hy, hb⟩
          rw [w₁.servers, hnot a ha, if_neg Bool.false_ne_true, List.mem_filter] at hy
          obtain ⟨hyme, hys, -⟩ := (h.memServers a y).mp hy.1
          exact ⟨y, hy.1, ((h.below_without w₁ hclosed hyme (hnot y hys) b).mp hb).2⟩
        · rintro ⟨y, hy, hb⟩
          obtain ⟨hyme, hys, hyp⟩ := (h.memServers a y).mp hy
          have hgb : gone₁ b = false := Bool.eq_false_iff.mpr fun hg => by
            obtain ⟨u, hu, rfl⟩ := (hgone₁ b).mp hg
            have hup := ((h.memUsers a b).mp hu).2
            have hby : b ≠ y := fun he => by
              rw [he, hnot y hys] at hg
              cases hg
            exact h.rooted.not_below_parent hyme (hyp.symm ▸ hup ▸ hb.parent hby)
          refine ⟨y, ?_, (h.below_without w₁ hclosed hyme (hnot y hys) b).mpr ⟨hgb, hb⟩⟩
          rw [w₁.servers, hnot a ha, if_neg Bool.false_ne_true, List.mem_filter, hnot y hys]
          exact ⟨hy, rfl⟩
      have hcount : ∀ l, n₂.countBehind a l = 0 := fun l =>
        List.countP_eq_zero.mpr fun b _ => by simp [he.not_behind h hne b]
      have ha₂ : n₂.isServer a = true := by
        have hga : (gone₁ a || gone₂ a) = false :=
          Bool.eq_false_iff.mpr fun hg => ((he.gone a).mp hg).1 rfl
        rw [he.without.isServer, hga, ha]
        rfl
      have hservers : n₂.depServers a = 1 := by rw [htree₂.depServers a ha₂, hcount]; rfl
      have husers : n₂.depUsers a = 0 := by rw [htree₂.depUsers a ha₂, hcount]; rfl
      exact ⟨_, by simpa [check, hservers, husers] using he⟩

end Remove

end Network

end Unirc
