import Mathlib.Logic.Function.Conjugate
import Mathlib.Tactic.Common

/-!
# Two replicas

Two copies of a state, each with a queue of the updates that were made at the other one. The copies
agree once the queues are empty, if an update is only made at a copy while it commutes with
all that are on the way to that copy.
-/

namespace Replicas

variable {σ ο : Type*}

/-- The two copies, and the updates on the way to each of them. -/
structure Pair (σ ο : Type*) where
  state : Bool → σ
  flight : Bool → List ο

namespace Pair

variable (apply : ο → σ → σ) (p : Pair σ ο)

/-- A copy once the updates on the way to it are made. -/
def settled (s : Bool) : σ := (p.flight s).foldl (fun x o => apply o x) (p.state s)

def Agree : Prop := p.settled apply false = p.settled apply true

/-- An update is made at a copy and sent to the other one. -/
def make (s : Bool) (o : ο) : Pair σ ο where
  state := Function.update p.state s (apply o (p.state s))
  flight := Function.update p.flight (!s) (p.flight (!s) ++ [o])

/-- The first update on the way to a copy is made there. -/
def take (s : Bool) (o : ο) (os : List ο) : Pair σ ο where
  state := Function.update p.state s (apply o (p.state s))
  flight := Function.update p.flight s os

variable {apply} {p} {s : Bool} {o : ο} {os : List ο}

theorem foldl_apply (h : ∀ o' ∈ os, Function.Commute (apply o) (apply o')) (x : σ) :
    os.foldl (fun x o => apply o x) (apply o x) = apply o (os.foldl (fun x o => apply o x) x) := by
  induction os generalizing x with
  | nil => rfl
  | cons o' os ih =>
      have hhead := h o' List.mem_cons_self
      rw [List.foldl_cons, List.foldl_cons, ← hhead x,
        ih fun o'' ho => h o'' (List.mem_cons_of_mem o' ho)]

theorem settled_make (h : ∀ o' ∈ p.flight s, Function.Commute (apply o) (apply o')) (t : Bool) :
    (p.make apply s o).settled apply t = apply o (p.settled apply t) := by
  by_cases ht : t = s
  · subst ht
    have hstate : (p.make apply t o).state t = apply o (p.state t) := Function.update_self _ _ _
    have hflight : (p.make apply t o).flight t = p.flight t :=
      Function.update_of_ne (by cases t <;> decide) _ _
    rw [settled, hflight, hstate, foldl_apply h, settled]
  · obtain rfl : t = !s := Bool.eq_not.mpr ht
    have hstate : (p.make apply s o).state (!s) = p.state (!s) :=
      Function.update_of_ne (by cases s <;> decide) _ _
    have hflight : (p.make apply s o).flight (!s) = p.flight (!s) ++ [o] :=
      Function.update_self _ _ _
    rw [settled, hstate, hflight, List.foldl_append, settled]
    rfl

theorem settled_take (h : p.flight s = o :: os) (t : Bool) :
    (p.take apply s o os).settled apply t = p.settled apply t := by
  by_cases ht : t = s
  · subst ht
    have hstate : (p.take apply t o os).state t = apply o (p.state t) := Function.update_self _ _ _
    have hflight : (p.take apply t o os).flight t = os := Function.update_self _ _ _
    rw [settled, settled, hstate, hflight, h]
    rfl
  · have hstate : (p.take apply s o os).state t = p.state t := Function.update_of_ne ht _ _
    have hflight : (p.take apply s o os).flight t = p.flight t := Function.update_of_ne ht _ _
    rw [settled, settled, hstate, hflight]

theorem Agree.make (hp : p.Agree apply)
    (h : ∀ o' ∈ p.flight s, Function.Commute (apply o) (apply o')) :
    (p.make apply s o).Agree apply := by
  rw [Agree, settled_make h, settled_make h]
  exact congrArg (apply o) hp

theorem Agree.take (hp : p.Agree apply) (h : p.flight s = o :: os) :
    (p.take apply s o os).Agree apply := by
  rw [Agree, settled_take h, settled_take h]
  exact hp

/-- With nothing on the way the copies are equal. -/
theorem Agree.state_eq (hp : p.Agree apply) (hidle : ∀ s, p.flight s = []) :
    p.state false = p.state true := by
  rwa [Agree, settled, settled, hidle, hidle] at hp

end Pair

end Replicas
