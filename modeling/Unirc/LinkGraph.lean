import Mathlib.Data.List.Basic
import Mathlib.Logic.Function.Basic
import Mathlib.Tactic.Common

/-!
# Records linked from both ends

A link joins a left and a right node, and every node keeps the list of its
links, the latest first. The payloads of nodes and links are arbitrary.
-/

namespace Unirc

structure Node (δ : Type*) where
  data : δ
  links : List ℕ

structure Link (φ : Type*) where
  left : ℕ
  right : ℕ
  label : φ

structure LinkGraph (κ χ φ : Type*) where
  lefts : ℕ → Option (Node κ)
  rights : ℕ → Option (Node χ)
  links : ℕ → Option (Link φ)
  nextLink : ℕ

inductive Side where
  | left | right
  deriving DecidableEq

/-- The value for one of the sides. -/
def Side.pick {α : Type*} : Side → α → α → α
  | .left, a, _ => a
  | .right, _, c => c

variable {κ χ φ : Type*}

def Link.at (r : Link φ) (side : Side) : ℕ := side.pick r.left r.right

namespace LinkGraph

def empty : LinkGraph κ χ φ := ⟨fun _ => none, fun _ => none, fun _ => none, 0⟩

/-- The links listed at a node, if it exists. -/
def listed (g : LinkGraph κ χ φ) (side : Side) (n : ℕ) : Option (List ℕ) :=
  side.pick ((g.lefts n).map Node.links) ((g.rights n).map Node.links)

/-- The ends of a link. -/
def joined (g : LinkGraph κ χ φ) (m : ℕ) : Option (ℕ × ℕ) :=
  (g.links m).map fun r => (r.left, r.right)

def mapLinks {δ : Type*} (nodes : ℕ → Option (Node δ)) (n : ℕ) (f : List ℕ → List ℕ) :
    ℕ → Option (Node δ) :=
  Function.update nodes n ((nodes n).map fun e => { e with links := f e.links })

def mapData {δ : Type*} (nodes : ℕ → Option (Node δ)) (n : ℕ) (f : δ → δ) :
    ℕ → Option (Node δ) :=
  Function.update nodes n ((nodes n).map fun e => { e with data := f e.data })

def link (g : LinkGraph κ χ φ) (a c : ℕ) (label : φ) : LinkGraph κ χ φ where
  lefts := mapLinks g.lefts a (g.nextLink :: ·)
  rights := mapLinks g.rights c (g.nextLink :: ·)
  links := Function.update g.links g.nextLink (some ⟨a, c, label⟩)
  nextLink := g.nextLink + 1

def unlink (g : LinkGraph κ χ φ) (m : ℕ) : LinkGraph κ χ φ :=
  match g.links m with
  | none => g
  | some r =>
      { g with
        lefts := mapLinks g.lefts r.left (·.erase m)
        rights := mapLinks g.rights r.right (·.erase m)
        links := Function.update g.links m none }

def mapLeft (g : LinkGraph κ χ φ) (a : ℕ) (f : κ → κ) : LinkGraph κ χ φ :=
  { g with lefts := mapData g.lefts a f }

def mapRight (g : LinkGraph κ χ φ) (c : ℕ) (f : χ → χ) : LinkGraph κ χ φ :=
  { g with rights := mapData g.rights c f }

def mapLabel (g : LinkGraph κ χ φ) (m : ℕ) (f : φ → φ) : LinkGraph κ χ φ :=
  { g with
    links := Function.update g.links m ((g.links m).map fun r => { r with label := f r.label }) }

/-- A node without links, or none, at `a`. -/
def setLeft (g : LinkGraph κ χ φ) (a : ℕ) (d : Option κ) : LinkGraph κ χ φ :=
  { g with lefts := Function.update g.lefts a (d.map fun d => ⟨d, []⟩) }

def setRight (g : LinkGraph κ χ φ) (c : ℕ) (d : Option χ) : LinkGraph κ χ φ :=
  { g with rights := Function.update g.rights c (d.map fun d => ⟨d, []⟩) }

/-- The link between two nodes, searched from the left. -/
def between (g : LinkGraph κ χ φ) (a c : ℕ) : Option ℕ :=
  ((g.lefts a).map Node.links).getD [] |>.find? fun m => (g.links m).any (·.right == c)

/-- Every link is listed at both its ends, and every listed link is one of them. -/
structure WF (g : LinkGraph κ χ φ) : Prop where
  listed_at : ∀ {m r}, g.links m = some r → ∀ side, ∃ l, g.listed side (r.at side) = some l ∧ m ∈ l
  link_at : ∀ {side n l m}, g.listed side n = some l → m ∈ l →
    ∃ r, g.links m = some r ∧ r.at side = n
  nodup : ∀ {side n l}, g.listed side n = some l → l.Nodup
  fresh : ∀ {m r}, g.links m = some r → m < g.nextLink

/-- At most one link between two nodes. -/
def Simple (g : LinkGraph κ χ φ) : Prop :=
  ∀ m m' r r', g.links m = some r → g.links m' = some r' → r.left = r'.left →
    r.right = r'.right → m = m'

/-- The graphs differ in payloads only. -/
structure SameShape (g g' : LinkGraph κ χ φ) : Prop where
  listed : ∀ side n, g'.listed side n = g.listed side n
  joined : ∀ m, g'.joined m = g.joined m
  next : g'.nextLink = g.nextLink

section Listed

variable (g : LinkGraph κ χ φ)

theorem listed_mapLinks {δ : Type*} (nodes : ℕ → Option (Node δ)) (a n : ℕ)
    (f : List ℕ → List ℕ) : (mapLinks nodes a f n).map Node.links =
      if n = a then ((nodes n).map Node.links).map f else (nodes n).map Node.links := by
  unfold mapLinks
  split
  · rename_i h
    subst h
    rw [Function.update_self]
    cases nodes n <;> rfl
  · rename_i h
    rw [Function.update_of_ne h]

theorem data_mapLinks {δ : Type*} (nodes : ℕ → Option (Node δ)) (a n : ℕ)
    (f : List ℕ → List ℕ) :
    (mapLinks nodes a f n).map Node.data = (nodes n).map Node.data := by
  unfold mapLinks
  by_cases h : n = a
  · subst h
    rw [Function.update_self]
    cases nodes n <;> rfl
  · rw [Function.update_of_ne h]

theorem data_mapData {δ : Type*} (nodes : ℕ → Option (Node δ)) (a n : ℕ) (f : δ → δ) :
    (mapData nodes a f n).map Node.data =
      if n = a then ((nodes n).map Node.data).map f else (nodes n).map Node.data := by
  unfold mapData
  split
  · rename_i h
    subst h
    rw [Function.update_self]
    cases nodes n <;> rfl
  · rename_i h
    rw [Function.update_of_ne h]

theorem listed_mapData {δ : Type*} (nodes : ℕ → Option (Node δ)) (a n : ℕ) (f : δ → δ) :
    (mapData nodes a f n).map Node.links = (nodes n).map Node.links := by
  unfold mapData
  by_cases h : n = a
  · subst h
    rw [Function.update_self]
    cases nodes n <;> rfl
  · rw [Function.update_of_ne h]

theorem listed_link (a c : ℕ) (label : φ) (side : Side) (n : ℕ) :
    (g.link a c label).listed side n =
      if n = side.pick a c then (g.listed side n).map (g.nextLink :: ·) else g.listed side n := by
  cases side
  · exact listed_mapLinks g.lefts a n _
  · exact listed_mapLinks g.rights c n _

theorem links_link (a c : ℕ) (label : φ) (m : ℕ) : (g.link a c label).links m =
    if m = g.nextLink then some ⟨a, c, label⟩ else g.links m := by
  simp only [link, Function.update_apply]

theorem unlink_of_none {m : ℕ} (h : g.links m = none) : g.unlink m = g := by
  simp only [unlink, h]

theorem listed_unlink {m : ℕ} {r : Link φ} (h : g.links m = some r) (side : Side) (n : ℕ) :
    (g.unlink m).listed side n =
      if n = r.at side then (g.listed side n).map (·.erase m) else g.listed side n := by
  simp only [unlink, h]
  cases side
  · exact listed_mapLinks g.lefts r.left n (·.erase m)
  · exact listed_mapLinks g.rights r.right n (·.erase m)

theorem links_unlink (m k : ℕ) :
    (g.unlink m).links k = if k = m then none else g.links k := by
  unfold unlink
  split
  · rename_i h
    split
    · rename_i hk
      rw [hk, h]
    · rfl
  · simp only [Function.update_apply]

theorem listed_setLeft (a : ℕ) (d : Option κ) (side : Side) (n : ℕ) :
    (g.setLeft a d).listed side n =
      if side = .left ∧ n = a then d.map fun _ => [] else g.listed side n := by
  cases side
  · simp only [listed, setLeft, Side.pick, Function.update_apply, true_and]
    split
    · cases d <;> rfl
    · rfl
  · simp [listed, setLeft, Side.pick]

theorem listed_setRight (c : ℕ) (d : Option χ) (side : Side) (n : ℕ) :
    (g.setRight c d).listed side n =
      if side = .right ∧ n = c then d.map fun _ => [] else g.listed side n := by
  cases side
  · simp [listed, setRight, Side.pick]
  · simp only [listed, setRight, Side.pick, Function.update_apply, true_and]
    split
    · cases d <;> rfl
    · rfl

end Listed

namespace SameShape

variable {g g' g'' : LinkGraph κ χ φ}

theorem refl (g : LinkGraph κ χ φ) : SameShape g g := ⟨fun _ _ => rfl, fun _ => rfl, rfl⟩

theorem trans (h : SameShape g g') (h' : SameShape g' g'') : SameShape g g'' :=
  ⟨fun side n => (h'.listed side n).trans (h.listed side n),
    fun m => (h'.joined m).trans (h.joined m), h'.next.trans h.next⟩

theorem mapLeft (g : LinkGraph κ χ φ) (a : ℕ) (f : κ → κ) : SameShape g (g.mapLeft a f) := by
  refine ⟨fun side n => ?_, fun _ => rfl, rfl⟩
  cases side
  · exact listed_mapData g.lefts a n f
  · rfl

theorem mapRight (g : LinkGraph κ χ φ) (c : ℕ) (f : χ → χ) : SameShape g (g.mapRight c f) := by
  refine ⟨fun side n => ?_, fun _ => rfl, rfl⟩
  cases side
  · rfl
  · exact listed_mapData g.rights c n f

theorem mapLabel (g : LinkGraph κ χ φ) (m : ℕ) (f : φ → φ) : SameShape g (g.mapLabel m f) := by
  refine ⟨fun _ _ => rfl, fun k => ?_, rfl⟩
  by_cases h : k = m
  · subst h
    simp only [LinkGraph.joined, LinkGraph.mapLabel, Function.update_self]
    cases g.links k <;> rfl
  · simp only [LinkGraph.joined, LinkGraph.mapLabel, Function.update_of_ne h]

theorem links_eq_some (h : SameShape g g') {m : ℕ} {r : Link φ} (hr : g'.links m = some r) :
    ∃ r₀, g.links m = some r₀ ∧ r₀.left = r.left ∧ r₀.right = r.right := by
  have hj := h.joined m
  simp only [LinkGraph.joined, hr, Option.map_some] at hj
  obtain ⟨r₀, hr₀, he⟩ := Option.map_eq_some_iff.mp hj.symm
  exact ⟨r₀, hr₀, congrArg Prod.fst he, congrArg Prod.snd he⟩

theorem between (h : SameShape g g') (a c : ℕ) : g'.between a c = g.between a c := by
  have hjoined : ∀ (g : LinkGraph κ χ φ) (m : ℕ),
      (g.links m).any (·.right == c) = (g.joined m).any (·.2 == c) := by
    intro g m
    rw [LinkGraph.joined, Option.any_map]
  have hlisted : (g'.lefts a).map Node.links = (g.lefts a).map Node.links := h.listed .left a
  simp only [LinkGraph.between, hlisted, hjoined, h.joined]

theorem symm (h : SameShape g g') : SameShape g' g :=
  ⟨fun side n => (h.listed side n).symm, fun m => (h.joined m).symm, h.next.symm⟩

theorem wf (h : SameShape g g') (hg : g.WF) : g'.WF where
  listed_at := by
    intro m r hr side
    obtain ⟨r₀, hr₀, hl, hc⟩ := h.links_eq_some hr
    have hat : r₀.at side = r.at side := by simp only [Link.at, hl, hc]
    rw [h.listed, ← hat]
    exact hg.listed_at hr₀ side
  link_at := by
    intro side n l m hl hm
    obtain ⟨r₀, hr₀, hat⟩ := hg.link_at (h.listed side n ▸ hl) hm
    obtain ⟨r, hr, hl', hc'⟩ := h.symm.links_eq_some hr₀
    exact ⟨r, hr, by rw [← hat]; simp only [Link.at, hl', hc']⟩
  nodup := fun hl => hg.nodup (h.listed _ _ ▸ hl)
  fresh := by
    intro m r hr
    obtain ⟨r₀, hr₀, -, -⟩ := h.links_eq_some hr
    rw [h.next]
    exact hg.fresh hr₀

theorem simple (h : SameShape g g') (hg : g.Simple) : g'.Simple := by
  intro m m' r r' hr hr' hl hc
  obtain ⟨r₀, hr₀, hl₀, hc₀⟩ := h.links_eq_some hr
  obtain ⟨r₁, hr₁, hl₁, hc₁⟩ := h.links_eq_some hr'
  exact hg m m' r₀ r₁ hr₀ hr₁ (by rw [hl₀, hl, hl₁]) (by rw [hc₀, hc, hc₁])

end SameShape

theorem wf_empty : (empty : LinkGraph κ χ φ).WF where
  listed_at := fun h => by cases h
  link_at := fun {side} _ _ _ h _ => by cases side <;> cases h
  nodup := fun {side} _ _ h => by cases side <;> cases h
  fresh := fun h => by cases h

theorem simple_empty : (empty : LinkGraph κ χ φ).Simple := fun _ _ _ _ h => by cases h

namespace WF

variable {g : LinkGraph κ χ φ}

theorem nextLink_not_mem (hg : g.WF) {side : Side} {n : ℕ} {l : List ℕ}
    (hl : g.listed side n = some l) : g.nextLink ∉ l := by
  intro hm
  obtain ⟨r, hr, -⟩ := hg.link_at hl hm
  exact Nat.lt_irrefl _ (hg.fresh hr)

theorem link (hg : g.WF) {a c : ℕ} (ha : (g.lefts a).isSome) (hc : (g.rights c).isSome)
    (label : φ) : (g.link a c label).WF where
  listed_at := by
    intro m r hr side
    rw [links_link] at hr
    split at hr
    · rename_i hm
      obtain rfl := Option.some.inj hr
      obtain ⟨l, hl⟩ : ∃ l, g.listed side (side.pick a c) = some l := by
        cases side
        · exact ⟨_, by simp only [listed, Side.pick]; rw [← Option.some_get ha]; rfl⟩
        · exact ⟨_, by simp only [listed, Side.pick]; rw [← Option.some_get hc]; rfl⟩
      refine ⟨g.nextLink :: l, ?_, hm ▸ List.mem_cons_self⟩
      rw [Link.at, listed_link, if_pos rfl, hl]
      rfl
    · obtain ⟨l, hl, hml⟩ := hg.listed_at hr side
      rw [listed_link, hl]
      split
      · exact ⟨_, rfl, List.mem_cons_of_mem _ hml⟩
      · exact ⟨l, rfl, hml⟩
  link_at := by
    intro side n l m hl hm
    rw [listed_link] at hl
    have hold : ∀ l₀, g.listed side n = some l₀ → m ∈ l₀ →
        ∃ r, (g.link a c label).links m = some r ∧ r.at side = n := by
      intro l₀ hl₀ hm₀
      obtain ⟨r, hr, hat⟩ := hg.link_at hl₀ hm₀
      refine ⟨r, ?_, hat⟩
      rw [links_link, if_neg (Nat.ne_of_lt (hg.fresh hr)), hr]
    split at hl
    · rename_i hn
      obtain ⟨l₀, hl₀, rfl⟩ := Option.map_eq_some_iff.mp hl
      rcases List.mem_cons.mp hm with rfl | hm
      · exact ⟨⟨a, c, label⟩, by rw [links_link, if_pos rfl], hn.symm⟩
      · exact hold l₀ hl₀ hm
    · exact hold l hl hm
  nodup := by
    intro side n l hl
    rw [listed_link] at hl
    split at hl
    · obtain ⟨l₀, hl₀, rfl⟩ := Option.map_eq_some_iff.mp hl
      exact List.nodup_cons.mpr ⟨hg.nextLink_not_mem hl₀, hg.nodup hl₀⟩
    · exact hg.nodup hl
  fresh := by
    intro m r hr
    rw [links_link] at hr
    split at hr
    · rename_i hm
      exact hm ▸ Nat.lt_succ_self _
    · exact Nat.lt_succ_of_lt (hg.fresh hr)

theorem unlink (hg : g.WF) (m : ℕ) : (g.unlink m).WF := by
  cases h : g.links m with
  | none => rwa [unlink_of_none g h]
  | some r =>
    refine ⟨fun {k q} hq side => ?_, fun {side n l k} hl hk => ?_, fun {side n l} hl => ?_,
      fun {k q} hq => ?_⟩
    · rw [links_unlink] at hq
      split at hq
      · cases hq
      · rename_i hkm
        obtain ⟨l, hl, hk⟩ := hg.listed_at hq side
        rw [listed_unlink g h, hl]
        split
        · exact ⟨_, rfl, (List.mem_erase_of_ne hkm).mpr hk⟩
        · exact ⟨l, rfl, hk⟩
    · rw [listed_unlink g h] at hl
      have hkm : k ≠ m ∧ ∃ l₀, g.listed side n = some l₀ ∧ k ∈ l₀ := by
        split at hl
        · obtain ⟨l₀, hl₀, rfl⟩ := Option.map_eq_some_iff.mp hl
          have := (hg.nodup hl₀).mem_erase_iff.mp hk
          exact ⟨this.1, l₀, hl₀, this.2⟩
        · rename_i hn
          refine ⟨?_, l, hl, hk⟩
          rintro rfl
          obtain ⟨r', hr', hat⟩ := hg.link_at hl hk
          obtain rfl := Option.some.inj (h.symm.trans hr')
          exact hn hat.symm
      obtain ⟨hne, l₀, hl₀, hk₀⟩ := hkm
      obtain ⟨q, hq, hat⟩ := hg.link_at hl₀ hk₀
      exact ⟨q, by rw [links_unlink, if_neg hne, hq], hat⟩
    · rw [listed_unlink g h] at hl
      split at hl
      · obtain ⟨l₀, hl₀, rfl⟩ := Option.map_eq_some_iff.mp hl
        exact (hg.nodup hl₀).erase m
      · exact hg.nodup hl
    · rw [links_unlink] at hq
      split at hq
      · cases hq
      · have hnext : (g.unlink m).nextLink = g.nextLink := by simp only [LinkGraph.unlink, h]
        rw [hnext]
        exact hg.fresh hq

/-- A node without links may be replaced or removed. -/
theorem reset (hg : g.WF) {g' : LinkGraph κ χ φ} {side₀ : Side} {n₀ : ℕ} {l₀ : Option (List ℕ)}
    (hlisted : ∀ side n, g'.listed side n =
      if side = side₀ ∧ n = n₀ then l₀ else g.listed side n)
    (hlinks : g'.links = g.links) (hnext : g'.nextLink = g.nextLink)
    (hold : ∀ l, g.listed side₀ n₀ = some l → l = []) (hnew : ∀ l, l₀ = some l → l = []) :
    g'.WF where
  listed_at := by
    intro m r hr side
    obtain ⟨l, hl, hm⟩ := hg.listed_at (hlinks ▸ hr) side
    refine ⟨l, ?_, hm⟩
    rw [hlisted, if_neg, hl]
    rintro ⟨hs, hn⟩
    rw [hold l (by rw [← hs, ← hn, hl])] at hm
    cases hm
  link_at := by
    intro side n l m hl hm
    rw [hlisted] at hl
    rw [hlinks]
    split at hl
    · rw [hnew l hl] at hm
      cases hm
    · exact hg.link_at hl hm
  nodup := by
    intro side n l hl
    rw [hlisted] at hl
    split at hl
    · rw [hnew l hl]
      exact List.nodup_nil
    · exact hg.nodup hl
  fresh := by
    rw [hlinks, hnext]
    exact hg.fresh

theorem setLeft (hg : g.WF) {a : ℕ} (ha : ∀ l, g.listed .left a = some l → l = [])
    (d : Option κ) : (g.setLeft a d).WF :=
  hg.reset (listed_setLeft g a d) rfl rfl ha fun l hl => by cases d <;> cases hl; rfl

theorem setRight (hg : g.WF) {c : ℕ} (hc : ∀ l, g.listed .right c = some l → l = [])
    (d : Option χ) : (g.setRight c d).WF :=
  hg.reset (listed_setRight g c d) rfl rfl hc fun l hl => by cases d <;> cases hl; rfl

theorem between_eq_some (hg : g.WF) {a c m : ℕ} (h : g.between a c = some m) :
    ∃ r, g.links m = some r ∧ r.left = a ∧ r.right = c := by
  have hm := List.mem_of_find?_eq_some h
  have hp := List.find?_some h
  cases hl : g.lefts a with
  | none => simp [hl] at hm
  | some e =>
    have hlisted : g.listed .left a = some e.links := by simp [listed, Side.pick, hl]
    obtain ⟨r, hr, hat⟩ := hg.link_at hlisted (by simpa [hl] using hm)
    refine ⟨r, hr, hat, ?_⟩
    simpa [hr] using hp

theorem between_eq_none (hg : g.WF) {a c : ℕ} (h : g.between a c = none) {m : ℕ} {r : Link φ}
    (hr : g.links m = some r) (ha : r.left = a) : r.right ≠ c := by
  intro hc
  obtain ⟨l, hl, hm⟩ := hg.listed_at hr .left
  have hal : ((g.lefts a).map Node.links).getD [] = l := by
    rw [← ha]
    simp only [listed, Side.pick, Link.at] at hl
    rw [hl]
    rfl
  have := List.find?_eq_none.mp h m (hal ▸ hm)
  simp [hr, hc] at this

end WF

namespace Simple

variable {g : LinkGraph κ χ φ}

theorem link (hg : g.Simple) {a c : ℕ}
    (hac : ∀ m r, g.links m = some r → r.left = a → r.right ≠ c) (label : φ) :
    (g.link a c label).Simple := by
  intro m m' r r' hr hr' hl hc
  rw [links_link] at hr hr'
  split at hr <;> split at hr'
  · rename_i hm hm'
    exact hm.trans hm'.symm
  · obtain rfl := Option.some.inj hr
    exact absurd hc.symm (hac m' r' hr' hl.symm)
  · obtain rfl := Option.some.inj hr'
    exact absurd hc (hac m r hr hl)
  · exact hg m m' r r' hr hr' hl hc

theorem unlink (hg : g.Simple) (m : ℕ) : (g.unlink m).Simple := by
  intro k k' r r' hr hr'
  rw [links_unlink] at hr hr'
  split at hr
  · cases hr
  split at hr'
  · cases hr'
  exact hg k k' r r' hr hr'

end Simple

end LinkGraph

end Unirc
