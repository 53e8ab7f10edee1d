import Mathlib.Algebra.BigOperators.Group.Finset.Basic
import Mathlib.Algebra.Order.Group.Int
import Mathlib.Algebra.Ring.Nat
import Unirc.Fuel
import Unirc.PointerChain
import Unirc.PollTable

/-!
# The sweep over the timeouts

`comm_checktimeouts` of `s_bsd.c` with the hash table of `fdlist.c`, whose chains a handler unlinks
from and adds to while the sweep stands in one of them. What a handler does is left open: it may be
any list of calls, and may depend on all that happened before. A result is none where an assertion
fails, where a null pointer is followed, and where a loop takes more turns than it is given.
-/

namespace Unirc

open PointerChain Fuel

inductive TimerKind where
  | flush | timeout
  deriving DecidableEq

/-- What the sweep needs of an `fde_t`, but for `hnext`. -/
structure TimedFde where
  fd : ℕ
  isOpen : Bool
  timeoutHandler : Option PF
  timeout : ℤ
  flushHandler : Option PF
  flushTimeout : ℤ
  deriving DecidableEq

namespace TimedFde

/-- After `memset`. -/
def cleared : TimedFde := ⟨0, false, none, 0, none, 0⟩

def handler (f : TimedFde) : TimerKind → Option PF
  | .flush => f.flushHandler
  | .timeout => f.timeoutHandler

def deadline (f : TimedFde) : TimerKind → ℤ
  | .flush => f.flushTimeout
  | .timeout => f.timeout

def setTimer (f : TimedFde) (deadline : ℤ) (handler : Option PF) : TimerKind → TimedFde
  | .flush => { f with flushTimeout := deadline, flushHandler := handler }
  | .timeout => { f with timeout := deadline, timeoutHandler := handler }

/-- The handler that the sweep calls. -/
def due (f : TimedFde) (k : TimerKind) (now : ℤ) : Option PF :=
  if 0 < f.deadline k ∧ f.deadline k < now then f.handler k else none

@[simp] theorem cleared_due (k : TimerKind) (now : ℤ) : cleared.due k now = none := by
  cases k <;> rfl

variable (f : TimedFde) (deadline : ℤ) (handler : Option PF) (k k' : TimerKind) (now : ℤ)

@[simp] theorem setTimer_isOpen : (f.setTimer deadline handler k).isOpen = f.isOpen := by
  cases k <;> rfl

@[simp] theorem setTimer_fd : (f.setTimer deadline handler k).fd = f.fd := by
  cases k <;> rfl

variable {k k'} in
theorem setTimer_due_of_ne (h : k' ≠ k) :
    (f.setTimer deadline handler k).due k' now = f.due k' now := by
  cases k <;> cases k' <;> first | rfl | exact absurd rfl h

variable {deadline now} in
/-- A timer that is set is not due. -/
theorem setTimer_due_self (h : now ≤ deadline) :
    (f.setTimer deadline handler k).due k now = none := by
  unfold due
  rw [if_neg]
  rintro ⟨-, hlt⟩
  cases k <;> exact absurd hlt (Int.not_lt.mpr h)

end TimedFde

/-- What happens in a sweep to the descriptor that was opened in `F` as the one of number `gen`. The
sweep comes to it for a timer, and calls a handler; a handler sets a timer or closes it. -/
inductive SweepEntry where
  | reached (k : TimerKind) (F : FdePtr) (gen : ℕ)
  | called (k : TimerKind) (F : FdePtr) (gen : ℕ)
  | set (k : TimerKind) (F : FdePtr) (gen : ℕ)
  | closed (F : FdePtr) (gen : ℕ)
  deriving DecidableEq

/-- A call that a handler makes; timers are set in milliseconds. -/
inductive FdCall where
  | fdOpen (F : FdePtr) (fd : ℕ)
  | fdClose (F : FdePtr)
  | commSettimeout (F : FdePtr) (timeout : ℕ) (callback : Option PF)
  | commSetflush (F : FdePtr) (timeout : ℕ) (callback : Option PF)

/-- The table with all the `fde_t`. `hashSize` is `FD_HASH_SIZE`, which `configure` chooses, and
`gen` counts how often each was opened. -/
structure SweepWorld where
  hashSize : ℕ
  fde : FdePtr → TimedFde
  hnext : FdePtr → Option FdePtr
  fdHash : ℕ → Option FdePtr
  fdNextInLoop : Option FdePtr
  numberFd : ℤ
  currentTime : ℤ
  gen : FdePtr → ℕ
  trace : List SweepEntry

namespace SweepWorld

variable (w : SweepWorld)

def note (e : SweepEntry) : SweepWorld := { w with trace := w.trace ++ [e] }

def put (F : FdePtr) (f : TimedFde) : SweepWorld := { w with fde := Function.update w.fde F f }

def hashFd (fd : ℕ) : ℕ := fd % w.hashSize

/-- `comm_settimeout` and `comm_setflush`. -/
def commSet (k : TimerKind) (F : FdePtr) (timeout : ℕ) (callback : Option PF) :
    Option SweepWorld :=
  if (w.fde F).isOpen then
    some (w.put F ((w.fde F).setTimer (w.currentTime + (timeout / 1000 : ℕ)) callback k))
  else none

def commSettimeout := w.commSet .timeout

def commSetflush := w.commSet .flush

def fdOpen (F : FdePtr) (fd : ℕ) : SweepWorld :=
  let hashv := w.hashFd fd
  { w with
    fde := Function.update w.fde F { w.fde F with fd := fd, isOpen := true }
    hnext := Function.update w.hnext F (w.fdHash hashv)
    fdHash := Function.update w.fdHash hashv (some F)
    numberFd := w.numberFd + 1
    gen := Function.update w.gen F (w.gen F + 1) }

/-- The loop of `fd_close` that looks for the record in front of `F`. -/
def findPrev (hnext : FdePtr → Option FdePtr) (F : FdePtr) : ℕ → Option FdePtr → Option FdePtr
  | n + 1, some prev => if hnext prev = some F then some prev else findPrev hnext F n (hnext prev)
  | _, _ => none

/-- `F` is taken out of its chain. -/
def unlink (n : ℕ) (F : FdePtr) : Option SweepWorld :=
  let hashv := w.hashFd (w.fde F).fd
  if w.fdHash hashv = some F then
    some { w with fdHash := Function.update w.fdHash hashv (w.hnext F) }
  else
    (findPrev w.hnext F n (w.fdHash hashv)).map fun prev =>
      { w with hnext := Function.update w.hnext prev (w.hnext F) }

/-- What is left of `F` when it is out of its chain. -/
def erase (F : FdePtr) : SweepWorld :=
  { w with
    fde := Function.update w.fde F .cleared
    hnext := Function.update w.hnext F none
    numberFd := w.numberFd - 1
    trace := w.trace ++ [.closed F (w.gen F)] }

/-- The loop goes on behind `F` if it was to go on with `F`. -/
def passOver (F : FdePtr) : SweepWorld :=
  { w with fdNextInLoop := if w.fdNextInLoop = some F then w.hnext F else w.fdNextInLoop }

def fdClose (n : ℕ) (F : FdePtr) : Option SweepWorld :=
  ((w.passOver F).unlink n F).map (erase · F)

/-- A call that can be made: an `fde_t` is opened when it is cleared, and the other routines are for
one that is open. -/
def Legal : FdCall → Prop
  | .fdOpen F _ => (w.fde F).isOpen = false
  | .fdClose F => (w.fde F).isOpen = true
  | .commSettimeout F _ _ => (w.fde F).isOpen = true
  | .commSetflush F _ _ => (w.fde F).isOpen = true

instance : DecidablePred w.Legal
  | .fdOpen _ _ => inferInstanceAs (Decidable (_ = _))
  | .fdClose _ => inferInstanceAs (Decidable (_ = _))
  | .commSettimeout _ _ _ => inferInstanceAs (Decidable (_ = _))
  | .commSetflush _ _ _ => inferInstanceAs (Decidable (_ = _))

def perform (n : ℕ) : FdCall → Option SweepWorld
  | .fdOpen F fd => some (w.fdOpen F fd)
  | .fdClose F => w.fdClose n F
  | .commSettimeout F timeout callback =>
      (w.commSettimeout F timeout callback).map (note · (.set .timeout F (w.gen F)))
  | .commSetflush F timeout callback =>
      (w.commSetflush F timeout callback).map (note · (.set .flush F (w.gen F)))

def step (n : ℕ) (c : FdCall) : Option SweepWorld := if w.Legal c then w.perform n c else some w

/-- The sweep comes to what is open in `F`. -/
def reach (k : TimerKind) (F : FdePtr) : SweepWorld :=
  if (w.fde F).isOpen then w.note (.reached k F (w.gen F)) else w

/-- The calls that a handler makes. -/
abbrev Behaviour := SweepWorld → FdePtr → PF → List FdCall

variable (behaviour : Behaviour)

/-- One of the two halves of the loop's body. -/
def check (n : ℕ) (k : TimerKind) (F : FdePtr) : Option SweepWorld :=
  let w := w.reach k F
  match (w.fde F).due k w.currentTime with
  | none => some w
  | some hdl =>
      (w.commSet k F 0 none).bind fun w =>
        let w := w.note (.called k F (w.gen F))
        (behaviour w F hdl).foldlM (fun w c => w.step n c) w

/-- The loop over a chain. -/
def chainLoop (w : SweepWorld) : ℕ → Option FdePtr → Option SweepWorld
  | _, none => some w
  | 0, some _ => none
  | n + 1, some F =>
      if (w.fde F).isOpen then
        let w := { w with fdNextInLoop := w.hnext F }
        (w.check behaviour n .flush F).bind fun w =>
          (w.check behaviour n .timeout F).bind fun w => chainLoop w n w.fdNextInLoop
      else none

def commChecktimeouts (n : ℕ) : Option SweepWorld :=
  (List.range w.hashSize).foldlM (fun w i => w.chainLoop behaviour n (w.fdHash i)) w

/-- The chains hold what is open, each where its number belongs, and `number_fd` counts them. -/
structure Filing (w : SweepWorld) (base : ℤ) (lists : ℕ → List FdePtr) : Prop where
  size : 0 < w.hashSize
  filed : Filed w.hnext w.fdHash lists
  mem : ∀ i F, F ∈ lists i ↔ (w.fde F).isOpen = true ∧ w.hashFd (w.fde F).fd = i
  cleared : ∀ F, (w.fde F).isOpen = false → w.fde F = .cleared
  count : w.numberFd = base + (∑ i ∈ Finset.range w.hashSize, (lists i).length : ℕ)

section Table

variable {w : SweepWorld} {base : ℤ} {lists : ℕ → List FdePtr} {F G : FdePtr}

theorem sum_length_update (lists : ℕ → List FdePtr) {n j : ℕ} (hj : j < n) (l : List FdePtr) :
    (∑ i ∈ Finset.range n, (Function.update lists j l i).length) + (lists j).length =
      (∑ i ∈ Finset.range n, (lists i).length) + l.length := by
  have hmem := Finset.mem_range.mpr hj
  have hrest : ∑ i ∈ (Finset.range n).erase j, (Function.update lists j l i).length =
      ∑ i ∈ (Finset.range n).erase j, (lists i).length := by
    apply Finset.sum_congr rfl
    intro i hi
    rw [Function.update_of_ne (Finset.ne_of_mem_erase hi)]
  rw [← Finset.add_sum_erase _ _ hmem, ← Finset.add_sum_erase _ (fun i => (lists i).length) hmem,
    hrest, Function.update_self]
  omega

theorem Filing.hashFd_lt (h : w.Filing base lists) (fd : ℕ) : w.hashFd fd < w.hashSize :=
  Nat.mod_lt fd h.size

theorem Filing.notMem (h : w.Filing base lists) (hF : (w.fde F).isOpen = false) (i : ℕ) :
    F ∉ lists i := by
  rw [h.mem, hF]
  simp

theorem fdOpen_fde (fd : ℕ) : (w.fdOpen F fd).fde =
    Function.update w.fde F { w.fde F with fd := fd, isOpen := true } := rfl

theorem Filing.fdOpen (h : w.Filing base lists) (hF : (w.fde F).isOpen = false) (fd : ℕ) :
    (w.fdOpen F fd).Filing base
      (Function.update lists (w.hashFd fd) (F :: lists (w.hashFd fd))) := by
  refine ⟨h.size, h.filed.push (h.notMem hF) _, fun i G => ?_, fun G hG => ?_, ?_⟩
  · have hhash : ∀ n, (w.fdOpen F fd).hashFd n = w.hashFd n := fun _ => rfl
    rw [hhash, fdOpen_fde, Function.update_apply, Function.update_apply]
    by_cases hGF : G = F
    · subst hGF
      rw [if_pos rfl]
      by_cases hi : i = w.hashFd fd
      · simp [hi]
      · simp [hi, h.notMem hF, Ne.symm hi]
    · rw [if_neg hGF, ← h.mem]
      split
      · next hi => simp [hGF, hi]
      · rfl
  · by_cases hGF : G = F
    · subst hGF
      simp [SweepWorld.fdOpen] at hG
    · simp only [SweepWorld.fdOpen, Function.update_of_ne hGF] at hG ⊢
      exact h.cleared G hG
  · have hsum := sum_length_update lists (h.hashFd_lt fd) (F :: lists (w.hashFd fd))
    have hcount := h.count
    rw [List.length_cons] at hsum
    simp only [SweepWorld.fdOpen]
    omega

theorem findPrev_halts {hnext : FdePtr → Option FdePtr} {p : Option FdePtr} {l₁ l₂ : List FdePtr}
    {a : FdePtr} (h : Chain hnext p (l₁ ++ a :: F :: l₂)) :
    Halts (fun n => findPrev hnext F n p) a := by
  apply Halts.succ
  induction l₁ generalizing p with
  | nil =>
      obtain ⟨rfl, hnext', -⟩ := h
      simpa [findPrev, hnext'] using halts_const a
  | cons b l₁ ih =>
      obtain ⟨rfl, hrest⟩ := h
      have hne : hnext b ≠ some F := by
        intro he
        have hnd := Chain.nodup hrest
        rw [he] at hrest
        cases l₁ with
        | nil =>
            obtain rfl : F = a := Option.some.inj hrest.1
            simp at hnd
        | cons c l₁ =>
            obtain rfl : F = c := Option.some.inj hrest.1
            simp at hnd
      simp only [findPrev, if_neg hne]
      exact (ih hrest).succ

/-- The chain of `F` is left without `F`. -/
theorem unlink_spec (hf : Filed w.hnext w.fdHash lists) {j : ℕ}
    (hj : w.hashFd (w.fde F).fd = j) (hF : F ∈ lists j) :
    ∃ hnext fdHash, Halts (w.unlink · F) { w with hnext := hnext, fdHash := fdHash } ∧
      Filed hnext fdHash (Function.update lists j ((lists j).erase F)) := by
  simp only [SweepWorld.unlink, hj]
  have hchain := hf.chain j
  obtain ⟨l₁, l₂, hl, hl₁⟩ := List.eq_append_cons_of_mem hF
  have herase : (lists j).erase F = l₁ ++ l₂ := by
    rw [hl, List.erase_append_right _ hl₁, List.erase_cons_head]
  rw [herase]
  rcases List.eq_nil_or_concat l₁ with rfl | ⟨l, a, rfl⟩
  · have hhead : w.fdHash j = some F := by rw [hchain.head, hl]; rfl
    refine ⟨w.hnext, Function.update w.fdHash j (w.hnext F), ?_, hf.pop hl⟩
    simpa only [if_pos hhead] using halts_const _
  · rw [List.concat_eq_append] at hl hl₁
    have hne : w.fdHash j ≠ some F := by
      rw [hchain.head, hl]
      cases l with
      | nil => simpa [eq_comm] using hl₁
      | cons b l =>
          intro he
          obtain rfl : b = F := by simpa using he
          simp at hl₁
    rw [List.append_assoc, List.singleton_append] at hl
    refine ⟨Function.update w.hnext a (w.hnext F), w.fdHash, ?_, ?_⟩
    · simp only [if_neg hne]
      rw [hl] at hchain
      exact (findPrev_halts hchain).map _
    · rw [List.concat_eq_append, List.append_assoc]
      exact hf.unlink hl

/-- What `fd_close` does besides the chains. -/
structure Closes (w : SweepWorld) (F : FdePtr) (w' : SweepWorld) : Prop where
  hashSize : w'.hashSize = w.hashSize
  fde : w'.fde = Function.update w.fde F .cleared
  fdNextInLoop : w'.fdNextInLoop = if w.fdNextInLoop = some F then w.hnext F else w.fdNextInLoop
  currentTime : w'.currentTime = w.currentTime
  gen : w'.gen = w.gen
  trace : w'.trace = w.trace ++ [.closed F (w.gen F)]

theorem Filing.fdClose (h : w.Filing base lists) (hF : (w.fde F).isOpen = true) {j : ℕ}
    (hj : w.hashFd (w.fde F).fd = j) : ∃ w', Halts (w.fdClose · F) w' ∧ w.Closes F w' ∧
      w'.Filing base (Function.update lists j ((lists j).erase F)) := by
  have hmem : F ∈ lists j := (h.mem j F).mpr ⟨hF, hj⟩
  obtain ⟨hnext, fdHash, hhalts, hfiled⟩ := unlink_spec (w := w.passOver F) h.filed hj hmem
  have hnd := (h.filed.chain j).nodup
  have hout : ∀ i, F ∉ Function.update lists j ((lists j).erase F) i := by
    intro i
    rw [Function.update_apply]
    split
    · exact hnd.not_mem_erase
    · next hi => exact fun hm => hi (h.filed.disjoint hm hmem)
  refine ⟨({ w.passOver F with hnext := hnext, fdHash := fdHash } : SweepWorld).erase F,
    hhalts.map (erase · F), ⟨rfl, rfl, rfl, rfl, rfl, rfl⟩, h.size, hfiled.update hout none,
    fun i G => ?_, fun G hG => ?_, ?_⟩
  · change _ ↔ (Function.update w.fde F .cleared G).isOpen = true ∧
      w.hashFd (Function.update w.fde F .cleared G).fd = i
    by_cases hGF : G = F
    · subst hGF
      simp [hout i, TimedFde.cleared]
    · rw [Function.update_of_ne hGF, ← h.mem, Function.update_apply]
      split
      · next hi => rw [List.mem_erase_of_ne hGF, hi]
      · rfl
  · change (Function.update w.fde F .cleared G).isOpen = false at hG
    change Function.update w.fde F .cleared G = .cleared
    by_cases hGF : G = F
    · rw [hGF, Function.update_self]
    · rw [Function.update_of_ne hGF] at hG ⊢
      exact h.cleared G hG
  · have hlt : j < w.hashSize := hj ▸ h.hashFd_lt _
    have hsum := sum_length_update lists hlt ((lists j).erase F)
    have hpos := List.length_pos_of_mem hmem
    have hcount := h.count
    rw [List.length_erase_of_mem hmem] at hsum
    change w.numberFd - 1 = base + (∑ i ∈ Finset.range w.hashSize, _ : ℕ)
    omega

/-- A table that differs in what the chains do not hold. -/
theorem Filing.congr (h : w.Filing base lists) {w' : SweepWorld} (hsize : w'.hashSize = w.hashSize)
    (hnext : w'.hnext = w.hnext) (hhash : w'.fdHash = w.fdHash) (hnumber : w'.numberFd = w.numberFd)
    (hfde : w'.fde = w.fde) : w'.Filing base lists where
  size := by rw [hsize]; exact h.size
  filed := by rw [hnext, hhash]; exact h.filed
  mem i F := by rw [hfde, SweepWorld.hashFd, hsize]; exact h.mem i F
  cleared := by rw [hfde]; exact h.cleared
  count := by rw [hnumber, hsize]; exact h.count

/-- A record changes in its timers only. -/
theorem Filing.put (h : w.Filing base lists) (hF : (w.fde F).isOpen = true) {f : TimedFde}
    (hopen : f.isOpen = true) (hfd : f.fd = (w.fde F).fd) : (w.put F f).Filing base lists where
  size := h.size
  filed := h.filed
  mem i G := by
    rw [h.mem]
    change _ ↔ (Function.update w.fde F f G).isOpen = true ∧
      w.hashFd (Function.update w.fde F f G).fd = i
    by_cases hGF : G = F
    · rw [hGF, Function.update_self, hopen, hfd, hF]
    · rw [Function.update_of_ne hGF]
  cleared G hG := by
    change (Function.update w.fde F f G).isOpen = false at hG
    change Function.update w.fde F f G = .cleared
    by_cases hGF : G = F
    · rw [hGF, Function.update_self, hopen] at hG
      cases hG
    · rw [Function.update_of_ne hGF] at hG ⊢
      exact h.cleared G hG
  count := h.count

end Table

/-- `LEAKED_FDS` -/
abbrev LEAKED_FDS : ℕ := 10

/-- `fdlist_init` with nothing open. -/
def fdlistInit (hashSize : ℕ) (now : ℤ) : SweepWorld where
  hashSize := hashSize
  fde _ := .cleared
  hnext _ := none
  fdHash _ := none
  fdNextInLoop := none
  numberFd := LEAKED_FDS
  currentTime := now
  gen _ := 0
  trace := []

theorem filing_fdlistInit {hashSize : ℕ} (h : 0 < hashSize) (now : ℤ) :
    (fdlistInit hashSize now).Filing LEAKED_FDS fun _ => [] := by
  refine ⟨h, Filed.nil, fun i F => ?_, fun F _ => rfl, ?_⟩
  · simp [fdlistInit, TimedFde.cleared]
  · simp [fdlistInit]

end SweepWorld

end Unirc
