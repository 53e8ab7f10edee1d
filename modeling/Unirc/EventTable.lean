import Mathlib.Data.List.FinRange
import Mathlib.Logic.Function.Basic
import Unirc.Chars
import Unirc.Runs

/-!
# Events

`event.c`: a table of functions that are called again and again, with the time at which the first
of them is due. The time is kept when events are added and asked for again after events have run;
`set_back_events` leaves it as it is.
-/

namespace Unirc

abbrev MAX_EVENTS : ℕ := 50

abbrev EventSlot := Fin MAX_EVENTS

/-- `struct ev_entry`, with functions of type `φ` and arguments of type `α`. -/
structure EvEntry (φ α : Type*) where
  func : Option φ
  arg : Option α
  name : Option Str
  frequency : ℕ
  when : ℕ
  active : Bool

/-- `event_time_min` is `none` for `-1`. The slots that were filled since the last `eventRun` began
are `filled`. -/
structure EventTable (φ α : Type*) where
  table : EventSlot → EvEntry φ α
  eventTimeMin : Option ℕ
  lastEventRan : Option Str
  filled : List EventSlot

/-- What a function does to the table when it is called. -/
inductive EventOp (φ α : Type*) where
  | add (name : Str) (func : φ) (arg : Option α) (when : ℕ)
  | addIsh (name : Str) (func : φ) (arg : Option α) (deltaIsh rand : ℕ)
  | delete (func : φ) (arg : Option α)

/-- The calls from outside, at a time. -/
inductive EventStep (φ α : Type*) where
  | op (now : ℕ) (o : EventOp φ α)
  | run (now : ℕ)
  | nextTime
  | setBack (by_ : ℕ)

namespace EventTable

variable {φ α : Type*}

def init : EventTable φ α := ⟨fun _ => ⟨none, none, none, 0, 0, false⟩, none, none, []⟩

variable (s : EventTable φ α)

def set (i : EventSlot) (e : EvEntry φ α) : EventTable φ α :=
  { s with table := Function.update s.table i e }

/-- The first inactive index. -/
def firstFree : Option EventSlot := (List.finRange MAX_EVENTS).find? fun i => !(s.table i).active

def eventAdd (now : ℕ) (name : Str) (func : φ) (arg : Option α) (when : ℕ) : EventTable φ α :=
  match s.firstFree with
  | none => s
  | some i =>
      { s.set i ⟨some func, arg, some name, when, now + when, true⟩ with
        eventTimeMin :=
          if s.eventTimeMin.all fun m => now + when < m then some (now + when) else s.eventTimeMin
        filled := i :: s.filled }

/-- The interval that `eventAddIsh` picks. -/
def deltaOf (deltaIsh rand : ℕ) : ℕ :=
  if 3 ≤ deltaIsh then
    let twoThird := 2 * deltaIsh / 3
    twoThird + rand % 1000 * twoThird / 1000
  else deltaIsh

variable [DecidableEq φ] [DecidableEq α]

def eventFind (func : φ) (arg : Option α) : Option EventSlot :=
  (List.finRange MAX_EVENTS).find? fun i =>
    decide ((s.table i).func = some func) && decide ((s.table i).arg = arg) && (s.table i).active

def eventDelete (func : φ) (arg : Option α) : EventTable φ α :=
  match s.eventFind func arg with
  | none => s
  | some i =>
      s.set i { s.table i with name := none, func := none, arg := none, active := false }

def apply (now : ℕ) (s : EventTable φ α) : EventOp φ α → EventTable φ α
  | .add name func arg when => s.eventAdd now name func arg when
  | .addIsh name func arg deltaIsh rand => s.eventAdd now name func arg (deltaOf deltaIsh rand)
  | .delete func arg => s.eventDelete func arg

section Run

variable (call : Option φ → Option α → EventTable φ α → List (EventOp φ α)) (now : ℕ)

/-- The turn of `eventRun` for an index. -/
def runSlot (s : EventTable φ α) (i : EventSlot) : EventTable φ α :=
  if (s.table i).active = true ∧ (s.table i).when ≤ now then
    let s := { s with lastEventRan := (s.table i).name }
    let s := (call (s.table i).func (s.table i).arg s).foldl (apply now) s
    { s.set i { s.table i with when := now + (s.table i).frequency } with eventTimeMin := none }
  else s

def eventRun : EventTable φ α :=
  (List.finRange MAX_EVENTS).foldl (runSlot call now) { s with filled := [] }

end Run

/-- The loop of `eventNextTime`. -/
def earliest (min : Option ℕ) (i : EventSlot) : Option ℕ :=
  if (s.table i).active = true ∧ min.all fun m => (s.table i).when < m then some (s.table i).when
  else min

def eventNextTime : EventTable φ α :=
  if s.eventTimeMin = none then
    { s with eventTimeMin := (List.finRange MAX_EVENTS).foldl s.earliest none }
  else s

/-- What `eventNextTime` returns. -/
def nextTime : ℤ := s.eventNextTime.eventTimeMin.elim (-1) Nat.cast

def setBackEvents (by_ : ℕ) : EventTable φ α :=
  { s with table := fun i =>
      { s.table i with
        when := if by_ < (s.table i).when then (s.table i).when - by_ else 0 } }

def step (call : Option φ → Option α → EventTable φ α → List (EventOp φ α))
    (s : EventTable φ α) : EventStep φ α → EventTable φ α
  | .op now o => s.apply now o
  | .run now => s.eventRun call now
  | .nextTime => s.eventNextTime
  | .setBack by_ => s.setBackEvents by_

/-- The time that is kept is not later than any event. -/
def Kept : Prop := ∀ m ∈ s.eventTimeMin, ∀ i, (s.table i).active = true → m ≤ (s.table i).when

/-- An event is due an interval after `now`. -/
def Stamped (now : ℕ) (i : EventSlot) : Prop :=
  (s.table i).active = true → (s.table i).when = now + (s.table i).frequency

/-- What the scheduler is for, at one step: no event is before the next time, and an event that is
added while others run is due an interval later. -/
structure Punctual (call : Option φ → Option α → EventTable φ α → List (EventOp φ α))
    (e : EventStep φ α) : Prop where
  next : ∀ i, ((s.step call e).table i).active = true →
    (s.step call e).nextTime ≤ ((s.step call e).table i).when
  added : ∀ now, e = .run now → ∀ i ∈ (s.step call e).filled, (s.step call e).Stamped now i

/-- A time for a new event that none of the others is before, where no time is kept. -/
def Latest (t : ℕ) : Prop :=
  s.firstFree ≠ none → s.eventTimeMin = none → ∀ i, (s.table i).active = true →
    t ≤ (s.table i).when

/-- An event is added from outside while the next time is known, or before all others; and no event
is set back before the time that is kept. -/
def Careful (s : EventTable φ α) : EventStep φ α → Prop
  | .op now (.add _ _ _ when) => s.Latest (now + when)
  | .op now (.addIsh _ _ _ deltaIsh rand) => s.Latest (now + deltaOf deltaIsh rand)
  | .setBack by_ => ∀ m ∈ s.eventTimeMin, ∀ i, (s.table i).active = true →
      m ≤ if by_ < (s.table i).when then (s.table i).when - by_ else 0
  | _ => True

section Time

variable {s} {call : Option φ → Option α → EventTable φ α → List (EventOp φ α)} {now : ℕ}

omit [DecidableEq φ] [DecidableEq α] in
/-- The loop finds a time that is not later than any event it has met. -/
theorem foldl_earliest (l : List EventSlot) (min : Option ℕ) :
    (∀ m ∈ min, ∃ m' ∈ l.foldl s.earliest min, m' ≤ m) ∧
      ∀ i ∈ l, (s.table i).active = true →
        ∃ m ∈ l.foldl s.earliest min, m ≤ (s.table i).when := by
  induction l generalizing min with
  | nil => exact ⟨fun m hm => ⟨m, hm, Nat.le_refl m⟩, nofun⟩
  | cons i l ih =>
      obtain ⟨hmin, hl⟩ := ih (s.earliest min i)
      have hstep : (∀ m ∈ min, ∃ m' ∈ s.earliest min i, m' ≤ m) ∧
          ((s.table i).active = true → ∃ m ∈ s.earliest min i, m ≤ (s.table i).when) := by
        unfold earliest
        split
        · rename_i h
          refine ⟨fun m hm => ⟨_, rfl, ?_⟩, fun _ => ⟨_, rfl, Nat.le_refl _⟩⟩
          have := h.2
          rw [Option.mem_def.mp hm, Option.all_some, decide_eq_true_eq] at this
          exact this.le
        · rename_i h
          refine ⟨fun m hm => ⟨m, hm, Nat.le_refl m⟩, fun hactive => ?_⟩
          cases hm : min with
          | none => exact absurd ⟨hactive, by rw [hm, Option.all_none]⟩ h
          | some m =>
              refine ⟨m, rfl, not_lt.mp fun hlt => h ⟨hactive, ?_⟩⟩
              rw [hm, Option.all_some, decide_eq_true_eq]
              exact hlt
      constructor
      · intro m hm
        obtain ⟨m₁, hm₁, hle₁⟩ := hstep.1 m hm
        obtain ⟨m₂, hm₂, hle₂⟩ := hmin m₁ hm₁
        exact ⟨m₂, hm₂, hle₂.trans hle₁⟩
      · intro j hj hactive
        rcases List.mem_cons.mp hj with rfl | hj
        · obtain ⟨m₁, hm₁, hle₁⟩ := hstep.2 hactive
          obtain ⟨m₂, hm₂, hle₂⟩ := hmin m₁ hm₁
          exact ⟨m₂, hm₂, hle₂.trans hle₁⟩
        · exact hl j hj hactive

omit [DecidableEq φ] [DecidableEq α] in
theorem Kept.eventNextTime (h : s.Kept) : ∀ i, (s.table i).active = true →
    ∃ m ∈ s.eventNextTime.eventTimeMin, m ≤ (s.table i).when := by
  intro i hactive
  unfold EventTable.eventNextTime
  split
  · exact (foldl_earliest _ none).2 i (List.mem_finRange i) hactive
  · rename_i hmin
    obtain ⟨m, hm⟩ := Option.ne_none_iff_exists'.mp hmin
    exact ⟨m, hm, h m hm i hactive⟩

omit [DecidableEq φ] [DecidableEq α] in
theorem table_eventNextTime : s.eventNextTime.table = s.table := by
  unfold eventNextTime
  split <;> rfl

omit [DecidableEq φ] [DecidableEq α] in
theorem Kept.nextTime_le (h : s.Kept) {i : EventSlot} (hactive : (s.table i).active = true) :
    s.nextTime ≤ (s.table i).when := by
  obtain ⟨m, hm, hle⟩ := h.eventNextTime i hactive
  rw [nextTime, Option.mem_def.mp hm, Option.elim_some]
  exact_mod_cast hle

omit [DecidableEq φ] [DecidableEq α] in
theorem Kept.of_none (h : s.eventTimeMin = none) : s.Kept := fun m hm => by
  rw [h] at hm
  cases hm

omit [DecidableEq φ] [DecidableEq α] in
theorem Kept.eventAdd (h : s.Kept) (name : Str) (func : φ) (arg : Option α) {when : ℕ}
    (hlatest : s.Latest (now + when)) : (s.eventAdd now name func arg when).Kept := by
  unfold EventTable.eventAdd
  cases hfree : s.firstFree with
  | none => exact h
  | some i =>
      have hfull : s.firstFree ≠ none := by rw [hfree]; exact Option.some_ne_none i
      intro m hm j hactive
      dsimp only [set] at hm hactive ⊢
      by_cases hj : j = i
      · rw [hj, Function.update_self]
        split at hm
        · exact (Option.some.inj hm).ge
        · rename_i hbefore
          rw [Option.mem_def.mp hm, Option.all_some, decide_eq_true_eq] at hbefore
          exact not_lt.mp hbefore
      · rw [Function.update_of_ne hj] at hactive ⊢
        split at hm
        · rename_i hbefore
          obtain rfl := Option.some.inj hm
          cases hmin : s.eventTimeMin with
          | none => exact hlatest hfull hmin j hactive
          | some m =>
              rw [hmin, Option.all_some, decide_eq_true_eq] at hbefore
              exact hbefore.le.trans (h m hmin j hactive)
        · exact h m hm j hactive

theorem Kept.eventDelete (h : s.Kept) (func : φ) (arg : Option α) :
    (s.eventDelete func arg).Kept := by
  unfold EventTable.eventDelete
  split
  · exact h
  · rename_i i _
    intro m hm j hactive
    dsimp only [set] at hactive ⊢
    by_cases hj : j = i
    · rw [hj, Function.update_self] at hactive
      cases hactive
    · rw [Function.update_of_ne hj] at hactive ⊢
      exact h m hm j hactive

theorem Kept.eventRun (h : s.Kept) : (s.eventRun call now).Kept := by
  have hfold (l : List EventSlot) {s : EventTable φ α} (h : s.Kept) :
      (l.foldl (runSlot call now) s).Kept := by
    induction l generalizing s with
    | nil => exact h
    | cons i l ih =>
        refine ih ?_
        unfold runSlot
        split
        · exact .of_none rfl
        · exact h
  exact hfold _ h

/-- One call keeps the time. -/
theorem Kept.step (h : s.Kept) {e : EventStep φ α} (he : s.Careful e) : (s.step call e).Kept := by
  cases e with
  | op now o =>
      cases o with
      | add name func arg when => exact h.eventAdd name func arg he
      | addIsh name func arg deltaIsh rand => exact h.eventAdd name func arg he
      | delete func arg => exact h.eventDelete func arg
  | run now => exact h.eventRun
  | nextTime =>
      intro m hm i hactive
      change (s.eventNextTime.table i).active = true at hactive
      change m ≤ (s.eventNextTime.table i).when
      rw [table_eventNextTime] at hactive ⊢
      obtain ⟨m', hm', hle⟩ := h.eventNextTime i hactive
      rwa [Option.some.inj (hm.symm.trans hm')]
  | setBack by_ => exact fun m hm i hactive => he m hm i hactive

end Time

section Stamps

variable {s} {call : Option φ → Option α → EventTable φ α → List (EventOp φ α)} {now : ℕ}

/-- The events of the slots that were filled are due an interval after `now`. -/
def FilledStamped (s : EventTable φ α) (now : ℕ) : Prop := ∀ i ∈ s.filled, s.Stamped now i

omit [DecidableEq φ] [DecidableEq α] in
theorem FilledStamped.set (h : s.FilledStamped now) {i : EventSlot} {e : EvEntry φ α}
    (he : e.active = true → e.when = now + e.frequency) : (s.set i e).FilledStamped now := by
  intro j hj hactive
  dsimp only [EventTable.set] at hactive ⊢
  by_cases hji : j = i
  · subst hji
    rw [Function.update_self] at hactive ⊢
    exact he hactive
  · rw [Function.update_of_ne hji] at hactive ⊢
    exact h j hj hactive

omit [DecidableEq φ] [DecidableEq α] in
theorem FilledStamped.eventAdd (h : s.FilledStamped now) (name : Str) (func : φ) (arg : Option α)
    (when : ℕ) : (s.eventAdd now name func arg when).FilledStamped now := by
  unfold EventTable.eventAdd
  split
  · exact h
  · rename_i i _
    intro j hj hactive
    dsimp only [EventTable.set] at hactive ⊢
    by_cases hji : j = i
    · rw [hji, Function.update_self]
    · rw [Function.update_of_ne hji] at hactive ⊢
      exact h j ((List.mem_cons.mp hj).resolve_left hji) hactive

theorem FilledStamped.apply (h : s.FilledStamped now) (o : EventOp φ α) :
    (s.apply now o).FilledStamped now := by
  cases o with
  | add name func arg when => exact h.eventAdd name func arg when
  | addIsh name func arg deltaIsh rand => exact h.eventAdd name func arg _
  | delete func arg =>
      change (s.eventDelete func arg).FilledStamped now
      unfold eventDelete
      split
      · exact h
      · exact h.set nofun

theorem FilledStamped.foldl_apply (h : s.FilledStamped now) (ops : List (EventOp φ α)) :
    (ops.foldl (EventTable.apply now) s).FilledStamped now := by
  induction ops generalizing s with
  | nil => exact h
  | cons o ops ih => exact ih (h.apply o)

theorem FilledStamped.runSlot (h : s.FilledStamped now) (i : EventSlot) :
    (s.runSlot call now i).FilledStamped now := by
  unfold EventTable.runSlot
  split
  · refine FilledStamped.set (FilledStamped.foldl_apply ?_ _) fun _ => rfl
    exact h
  · exact h

theorem filledStamped_eventRun : (s.eventRun call now).FilledStamped now := by
  have hfold (l : List EventSlot) {s : EventTable φ α} (h : s.FilledStamped now) :
      (l.foldl (EventTable.runSlot call now) s).FilledStamped now := by
    induction l generalizing s with
    | nil => exact h
    | cons i l ih => exact ih (h.runSlot i)
  exact hfold _ (show FilledStamped { s with filled := [] } now from nofun)

end Stamps

/-- Where no event comes before the time that is kept without being told, the scheduler does what
it is for at every step. -/
theorem punctual_of_careful
    (call : Option φ → Option α → EventTable φ α → List (EventOp φ α)) {es : List (EventStep φ α)}
    (h : Runs.Each (step call) Careful init es) : Runs.Each (step call) (fun s e => s.Punctual call e) init es := by
  refine h.of_invariant (P := Kept) (fun s e hs he => ?_) (.of_none rfl)
  have hkept : (s.step call e).Kept := hs.step he
  refine ⟨hkept, fun i hactive => hkept.nextTime_le hactive, ?_⟩
  rintro now rfl
  exact filledStamped_eventRun

section Example

/-- The functions do nothing to the table. -/
def idle : Option Unit → Option Unit → EventTable Unit Unit → List (EventOp Unit Unit) :=
  fun _ _ _ => []

def checkPings : EventStep Unit Unit := .op 1000 (.add "check_pings".toList () none 5)

theorem punctual_checkPings : Runs.Each (step idle) (fun s e => s.Punctual idle e) init
    [checkPings, .run 1005, .nextTime] :=
  punctual_of_careful idle ⟨fun _ _ _ hactive => Bool.false_ne_true.elim hactive, trivial, trivial,
    trivial⟩

/-- The clock is set back by a hundred seconds. -/
theorem not_forall_punctual : ¬ ∀ (call : Option Unit → Option Unit → EventTable Unit Unit →
    List (EventOp Unit Unit)) es, Runs.Each (step call) (fun s e => s.Punctual call e) init es := by
  intro h
  have hback := (h idle [checkPings, .setBack 100]).2.1
  have htime : (((init.step idle checkPings).step idle (.setBack 100)).nextTime,
      (((init.step idle checkPings).step idle (.setBack 100)).table 0).active,
      (((init.step idle checkPings).step idle (.setBack 100)).table 0).when) =
        (1005, true, 905) := by decide
  simp only [Prod.mk.injEq] at htime
  have hle := hback.next 0 htime.2.1
  rw [htime.1, htime.2.2] at hle
  exact absurd hle (by decide)

end Example

end EventTable

end Unirc
