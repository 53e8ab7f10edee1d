import Mathlib.Algebra.Order.Group.Int
import Mathlib.Data.List.Pairwise
import Unirc.Chars

/-!
# The flood limit of a target

`flood_attack_client` and `flood_attack_channel` of `m_message.c` count the messages for a target
and take off what has leaked when the last time is more than a second old. Once the limit is reached
a latch keeps the target closed until the counter has drained.
-/

namespace Unirc

/-- A value that is stored in an `int`. -/
def toInt32 (x : ℤ) : ℤ := x.bmod (2 ^ 32)

/-- `first_received_message_time`, `received_number_of_privmsgs` and the latch of a target. -/
structure FloodCounter where
  first : ℤ
  received : ℤ
  noticed : Bool
  deriving DecidableEq

/-- `GlobalSetOptions.floodcount` when it is set. -/
def Floodcount := {n : ℤ // 0 < n ∧ n < 2 ^ 31}

namespace FloodCounter

/-- The record of a new target. -/
def init : FloodCounter := ⟨0, 0, false⟩

/-- What has leaked is taken off. -/
def drain (now : ℤ) (x : FloodCounter) : FloodCounter :=
  if x.first + 1 < now then
    let left := toInt32 (x.received - toInt32 (now - x.first))
    if left ≤ 0 then ⟨now, 0, false⟩ else ⟨now, left, x.noticed⟩
  else x

/-- A message is counted, or turned down. -/
def accept (floodcount : ℤ) (x : FloodCounter) : FloodCounter × Bool :=
  if floodcount ≤ x.received ∨ x.noticed = true then
    if x.noticed then (x, true)
    else ({ x with noticed := true, received := toInt32 (x.received + 2) }, true)
  else ({ x with received := toInt32 (x.received + 1) }, false)

/-- The body of both functions for a sender who is subject to the limit; `true` is an attack. -/
def check (floodcount now : ℤ) (x : FloodCounter) : FloodCounter × Bool :=
  accept floodcount (x.drain now)

/-- `flood_attack_client` for a target that is local or not. -/
def floodAttackClient (floodcount : ℤ) (local_ isClient canFlood : Bool) (now : ℤ)
    (x : FloodCounter) : FloodCounter × Bool :=
  if floodcount ≠ 0 ∧ local_ = true ∧ isClient = true ∧ canFlood = false then
    x.check floodcount now
  else (x, false)

/-- `flood_attack_channel` -/
def floodAttackChannel (floodcount : ℤ) (canFlood : Bool) (now : ℤ) (x : FloodCounter) :
    FloodCounter × Bool :=
  if floodcount ≠ 0 ∧ canFlood = false then x.check floodcount now else (x, false)

section

variable (attack : ℤ → FloodCounter → FloodCounter × Bool)

/-- The counter after messages at the given times. -/
def after (x : FloodCounter) (times : List ℤ) : FloodCounter :=
  times.foldl (fun x now => (attack now x).1) x

/-- The number of messages of a window that are let through. -/
def passed (s t : ℤ) : FloodCounter → List ℤ → ℕ
  | _, [] => 0
  | x, now :: times =>
      (if s ≤ now ∧ now ≤ t ∧ (attack now x).2 = false then 1 else 0) +
        passed s t (attack now x).1 times

/-- In no window more messages come through than the limit and one for each second and one more,
and the counter is never negative. -/
structure Limits (floodcount : ℤ) : Prop where
  window : ∀ times : List ℤ, times.Pairwise (· ≤ ·) → (∀ now ∈ times, 0 ≤ now ∧ now < 2 ^ 31) →
    ∀ s t, s ≤ t → (passed attack s t init times : ℤ) ≤ floodcount + (t - s) + 1
  nonneg : ∀ times : List ℤ, times.Pairwise (· ≤ ·) → (∀ now ∈ times, 0 ≤ now ∧ now < 2 ^ 31) →
    0 ≤ (after attack init times).received

end

theorem toInt32_of_lt {x : ℤ} (hlow : -2 ^ 31 ≤ x) (hhigh : x < 2 ^ 31) : toInt32 x = x :=
  Int.bmod_eq_of_le (by omega) (by omega)

/-- The counter of a run up to the time `now`. -/
structure Sound (floodcount now : ℤ) (x : FloodCounter) : Prop where
  nonneg : 0 ≤ x.received
  bound : x.received ≤ floodcount + 2
  open_ : x.noticed = false → x.received ≤ floodcount
  first : 0 ≤ x.first ∧ x.first ≤ now

variable {floodcount now s t : ℤ} {x : FloodCounter}

section Step

variable (hpos : 0 < floodcount) (hlimit : floodcount < 2 ^ 31 - 2) (h : Sound floodcount now x)
  (hnow : now < 2 ^ 31)

include hpos hlimit h hnow

/-- Draining takes off one for each second that has gone, down to zero. -/
theorem drain_spec : Sound floodcount now (x.drain now) ∧ now ≤ (x.drain now).first + 1 ∧
    x.received - ((x.drain now).first - x.first) ≤ (x.drain now).received := by
  obtain ⟨hnonneg, hbound, hopen, hfirst, hle⟩ := h
  unfold drain
  split
  · rename_i hold
    have hdelta : toInt32 (now - x.first) = now - x.first := toInt32_of_lt (by omega) (by omega)
    have hleft : toInt32 (x.received - (now - x.first)) = x.received - (now - x.first) :=
      toInt32_of_lt (by omega) (by omega)
    dsimp only
    rw [hdelta, hleft]
    split
    · refine ⟨⟨le_rfl, ?_, fun _ => ?_, ?_, le_rfl⟩, ?_, ?_⟩ <;> dsimp only <;> omega
    · refine ⟨⟨?_, ?_, fun hn => ?_, ?_, le_rfl⟩, ?_, ?_⟩
      case refine_3 =>
        have := hopen hn
        dsimp only
        omega
      all_goals dsimp only; omega
  · exact ⟨⟨hnonneg, hbound, hopen, hfirst, hle⟩, by omega, by omega⟩

omit hpos hnow in
/-- A message that comes through finds room and takes one place of it. -/
theorem accept_spec : Sound floodcount now (accept floodcount x).1 ∧
    (accept floodcount x).1.first = x.first ∧
    x.received ≤ (accept floodcount x).1.received ∧
    ((accept floodcount x).2 = false →
      x.received < floodcount ∧ (accept floodcount x).1.received = x.received + 1) := by
  obtain ⟨hnonneg, hbound, hopen, hfirst⟩ := h
  unfold accept
  split
  · rename_i hclosed
    split
    · exact ⟨⟨hnonneg, hbound, hopen, hfirst⟩, rfl, le_rfl, nofun⟩
    · rename_i hnoticed
      have hroom := hopen (by simpa using hnoticed)
      have htwo : toInt32 (x.received + 2) = x.received + 2 := toInt32_of_lt (by omega) (by omega)
      rw [htwo]
      refine ⟨⟨?_, ?_, nofun, hfirst⟩, rfl, ?_, nofun⟩ <;> dsimp only <;> omega
  · rename_i hfree
    rw [not_or, not_le] at hfree
    have hone : toInt32 (x.received + 1) = x.received + 1 := toInt32_of_lt (by omega) (by omega)
    rw [hone]
    refine ⟨⟨?_, ?_, fun _ => ?_, hfirst⟩, rfl, ?_, fun _ => ⟨hfree.1, rfl⟩⟩ <;> dsimp only <;>
      omega

end Step

theorem not_lt_first_drain (now : ℤ) (x : FloodCounter) : ¬ (x.drain now).first + 1 < now := by
  unfold drain
  split
  · dsimp only
    split <;> dsimp only <;> omega
  · assumption

/-- A second drain at the same time does nothing. -/
theorem check_drain (floodcount now : ℤ) (x : FloodCounter) :
    (x.drain now).check floodcount now = x.check floodcount now := by
  have hidem : (x.drain now).drain now = x.drain now := if_neg (not_lt_first_drain now x)
  rw [check, check, hidem]

/-- What can still come through up to the time `t`. -/
def allowance (floodcount t : ℤ) (x : FloodCounter) : ℤ :=
  max 0 (floodcount - x.received + max 0 (t - x.first))

theorem Sound.later (h : Sound floodcount now x) {u : ℤ} (hu : now ≤ u) : Sound floodcount u x :=
  ⟨h.nonneg, h.bound, h.open_, h.first.1, h.first.2.trans hu⟩

theorem passed_of_lt {attack : ℤ → FloodCounter → FloodCounter × Bool} {times : List ℤ}
    (hlater : ∀ u ∈ times, t < u) (x : FloodCounter) : passed attack s t x times = 0 := by
  induction times generalizing x with
  | nil => rfl
  | cons u times ih =>
      have hu := hlater u List.mem_cons_self
      rw [passed, if_neg (by omega), ih fun v hv => hlater v (List.mem_cons_of_mem u hv)]

section Run

variable {times : List ℤ} (hpos : 0 < floodcount) (hlimit : floodcount < 2 ^ 31 - 2)

include hpos hlimit

theorem sound_check (h : Sound floodcount now x) (hnow : now < 2 ^ 31) :
    Sound floodcount now (x.check floodcount now).1 :=
  (accept_spec hlimit (drain_spec hpos hlimit h hnow).1).1

theorem sound_after (hsorted : times.Pairwise (· ≤ ·)) (hrange : ∀ u ∈ times, u < 2 ^ 31)
    (hlater : ∀ u ∈ times, now ≤ u) (h : Sound floodcount now x) :
    0 ≤ (after (check floodcount) x times).received := by
  induction times generalizing x now with
  | nil => exact h.nonneg
  | cons u times ih =>
      obtain ⟨hfirst, hsorted⟩ := List.pairwise_cons.mp hsorted
      have hu := h.later (hlater u List.mem_cons_self)
      exact ih hsorted (fun v hv => hrange v (List.mem_cons_of_mem u hv)) hfirst
        (sound_check hpos hlimit hu (hrange u List.mem_cons_self))

/-- One message takes its place of the allowance. -/
theorem passed_le_allowance (hsorted : times.Pairwise (· ≤ ·)) (hrange : ∀ u ∈ times, u < 2 ^ 31)
    (hlater : ∀ u ∈ times, now ≤ u) (h : Sound floodcount now x) :
    (passed (check floodcount) s t x times : ℤ) ≤ allowance floodcount t x := by
  induction times generalizing x now with
  | nil => exact le_max_left _ _
  | cons u times ih =>
      obtain ⟨hfirst, hsorted⟩ := List.pairwise_cons.mp hsorted
      by_cases hut : t < u
      · have hnone : passed (check floodcount) s t x (u :: times) = 0 := by
          refine passed_of_lt (fun v hv => ?_) x
          rcases List.mem_cons.mp hv with rfl | hv
          · exact hut
          · exact hut.trans_le (hfirst v hv)
        rw [hnone]
        exact le_max_left _ _
      have hu := h.later (hlater u List.mem_cons_self)
      obtain ⟨hdrained, -, hleak⟩ := drain_spec hpos hlimit hu (hrange u List.mem_cons_self)
      obtain ⟨hsound, hkept, hmore, hpass⟩ := accept_spec hlimit hdrained
      have hrest := ih hsorted (fun v hv => hrange v (List.mem_cons_of_mem u hv)) hfirst hsound
      have hold := hu.first.2
      have hnew := hdrained.first.2
      rw [passed, check]
      unfold allowance at hrest ⊢
      rw [hkept] at hrest
      split
      · rename_i hcounted
        obtain ⟨hroom, hone⟩ := hpass hcounted.2.2
        rw [hone] at hrest
        push_cast
        omega
      · push_cast
        omega

theorem passed_le (hst : s ≤ t) (hsorted : times.Pairwise (· ≤ ·))
    (hrange : ∀ u ∈ times, u < 2 ^ 31) (hlater : ∀ u ∈ times, now ≤ u)
    (h : Sound floodcount now x) :
    (passed (check floodcount) s t x times : ℤ) ≤ floodcount + (t - s) + 1 := by
  induction times generalizing x now with
  | nil =>
      rw [passed]
      push_cast
      omega
  | cons u times ih =>
      have hu := h.later (hlater u List.mem_cons_self)
      have huse := hrange u List.mem_cons_self
      by_cases hus : u < s
      · obtain ⟨hfirst, hsorted⟩ := List.pairwise_cons.mp hsorted
        rw [passed, if_neg (by omega), Nat.zero_add]
        exact ih hsorted (fun v hv => hrange v (List.mem_cons_of_mem u hv)) hfirst
          (sound_check hpos hlimit hu huse)
      · -- the window begins with a counter that has been drained
        obtain ⟨hdrained, hrecent, -⟩ := drain_spec hpos hlimit hu huse
        have hsame : passed (check floodcount) s t x (u :: times) =
            passed (check floodcount) s t (x.drain u) (u :: times) := by
          rw [passed, passed, check_drain]
        have hall : ∀ v ∈ u :: times, u ≤ v := by
          intro v hv
          rcases List.mem_cons.mp hv with rfl | hv
          · exact le_rfl
          · exact (List.pairwise_cons.mp hsorted).1 v hv
        have hle := passed_le_allowance (s := s) (t := t) hpos hlimit hsorted hrange hall hdrained
        have hnonneg := hdrained.nonneg
        rw [hsame]
        refine hle.trans ?_
        unfold allowance
        omega

theorem limits_check : Limits (check floodcount) floodcount := by
  have hroom : (0 : ℤ) ≤ floodcount + 2 := by omega
  have hinit : Sound floodcount 0 init := ⟨le_rfl, hroom, fun _ => hpos.le, le_rfl, le_rfl⟩
  exact ⟨fun times hsorted hrange s t hst => passed_le hpos hlimit hst hsorted
      (fun u hu => (hrange u hu).2) (fun u hu => (hrange u hu).1) hinit,
    fun times hsorted hrange => sound_after hpos hlimit hsorted (fun u hu => (hrange u hu).2)
      (fun u hu => (hrange u hu).1) hinit⟩

end Run

/-- Messages that come at once fill the counter up to the limit. -/
theorem after_replicate (hfit : floodcount < 2 ^ 31) {k : ℕ} (hk : (k : ℤ) ≤ floodcount) :
    after (check floodcount) init (List.replicate k 0) = ⟨0, k, false⟩ := by
  induction k with
  | zero => rfl
  | succ k ih =>
      have hlast : after (check floodcount) init (List.replicate (k + 1) 0) =
          (check floodcount 0 (after (check floodcount) init (List.replicate k 0))).1 := by
        rw [List.replicate_succ', after, List.foldl_append]
        rfl
      have hone : toInt32 ((k : ℤ) + 1) = (k : ℤ) + 1 := toInt32_of_lt (by omega) (by omega)
      rw [hlast, ih (by omega), check, drain, if_neg (by decide : ¬ (0 : ℤ) + 1 < 0), accept, if_neg,
        hone]
      · push_cast
        rfl
      · push_cast at hk
        dsimp only
        rw [not_or]
        exact ⟨by omega, Bool.false_ne_true⟩

/-- The penalty does not fit any more. -/
theorem not_limits_check (hpos : 0 < floodcount) (hfit : floodcount < 2 ^ 31)
    (hlimit : 2 ^ 31 - 2 ≤ floodcount) : ¬ Limits (check floodcount) floodcount := by
  intro h
  obtain ⟨k, rfl⟩ := Int.eq_ofNat_of_zero_le hpos.le
  have hnonneg := h.nonneg (List.replicate (k + 1) 0) (List.pairwise_replicate.mpr (Or.inr le_rfl))
    fun u hu => by
      rw [List.eq_of_mem_replicate hu]
      decide
  have hlast : after (check k) init (List.replicate (k + 1) 0) =
      (check k 0 (after (check k) init (List.replicate k 0))).1 := by
    rw [List.replicate_succ', after, List.foldl_append]
    rfl
  rw [hlast, after_replicate hfit le_rfl, check, drain,
    if_neg (by decide : ¬ (0 : ℤ) + 1 < 0), accept, if_pos (Or.inl le_rfl),
    if_neg Bool.false_ne_true] at hnonneg
  have hwrap : toInt32 ((k : ℤ) + 2) = (k : ℤ) + 2 - 2 ^ 32 := by
    have hsame : toInt32 ((k : ℤ) + 2 - 2 ^ 32) = toInt32 ((k : ℤ) + 2) :=
      Int.sub_bmod_right _ (2 ^ 32)
    rw [← hsame]
    exact toInt32_of_lt (by omega) (by omega)
  dsimp only at hnonneg
  rw [hwrap] at hnonneg
  omega

theorem floodAttackClient_eq (floodcount : Floodcount) :
    floodAttackClient floodcount.val true true false = check floodcount.val := by
  funext now x
  have hne : floodcount.val ≠ 0 := floodcount.property.1.ne'
  rw [floodAttackClient, if_pos ⟨hne, rfl, rfl, rfl⟩]

theorem floodAttackChannel_eq (floodcount : Floodcount) :
    floodAttackChannel floodcount.val false = check floodcount.val := by
  funext now x
  have hne : floodcount.val ≠ 0 := floodcount.property.1.ne'
  rw [floodAttackChannel, if_pos ⟨hne, rfl⟩]

/-- Both limits hold exactly when an `int` has room for the limit and the penalty. -/
theorem limits_iff (floodcount : Floodcount) :
    (Limits (floodAttackClient floodcount.val true true false) floodcount.val ∧
      Limits (floodAttackChannel floodcount.val false) floodcount.val) ↔
    floodcount.val + 2 < 2 ^ 31 := by
  obtain ⟨hpos, hfit⟩ := floodcount.property
  rw [floodAttackClient_eq, floodAttackChannel_eq, and_self]
  constructor
  · intro h
    by_contra hover
    exact not_limits_check hpos hfit (by omega) h
  · exact fun hlimit => limits_check hpos (by omega)

/-- With the largest limit the counter gets negative. -/
theorem not_forall_limits : ¬ ∀ floodcount : Floodcount,
    Limits (floodAttackClient floodcount.val true true false) floodcount.val ∧
      Limits (floodAttackChannel floodcount.val false) floodcount.val := fun h => by
  let most : Floodcount := ⟨2 ^ 31 - 1, by decide, by decide⟩
  have hclient := (h most).1
  rw [floodAttackClient_eq most] at hclient
  exact not_limits_check (by decide) (by decide) (by decide) hclient

end FloodCounter

end Unirc
