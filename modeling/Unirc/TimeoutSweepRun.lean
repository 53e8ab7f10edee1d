import Unirc.TimeoutSweep

/-!
# What a sweep comes to

A descriptor that was open when the sweep began is followed through the log. It is ahead of the
sweep until it is reached, and as long as it stays open it is neither passed over nor met again.
-/

namespace Unirc

open PointerChain Fuel

namespace SweepEntry

/-- The record that an entry is about. -/
def fde : SweepEntry → FdePtr
  | reached _ F _ | called _ F _ | set _ F _ | closed F _ => F

/-- The descriptor that the sweep is at. -/
def visit : SweepEntry → Option (FdePtr × ℕ)
  | reached _ F g | called _ F g => some (F, g)
  | set _ _ _ | closed _ _ => none

end SweepEntry

section Log

variable {α : Type*} {x : α} {l es pre post : List α}

/-- An entry that is not among the last ones has its place in front of them. -/
theorem split_append (h : l ++ es = pre ++ x :: post) (hx : x ∉ es) :
    ∃ rest, l = pre ++ x :: rest := by
  rcases List.append_eq_append_iff.mp h with ⟨t, rfl, ht⟩ | ⟨t, rfl, ht⟩
  · exact absurd (by simp [ht]) hx
  · cases t with
    | nil => exact absurd (by rw [List.nil_append] at ht; simp [← ht]) hx
    | cons y t =>
        obtain ⟨rfl, -⟩ := List.cons_eq_cons.mp ht
        exact ⟨t, rfl⟩

/-- An entry that comes once has one place. -/
theorem split_unique (h : l ++ x :: es = pre ++ x :: post) (hl : x ∉ l) (hx : x ∉ es) :
    pre = l := by
  rcases List.append_eq_append_iff.mp h with ⟨t, rfl, ht⟩ | ⟨t, rfl, ht⟩
  · cases t with
    | nil => exact List.append_nil l
    | cons y t =>
        obtain ⟨-, rfl⟩ := List.cons_eq_cons.mp ht
        simp at hx
  · cases t with
    | nil => exact (List.append_nil pre).symm
    | cons y t =>
        obtain ⟨rfl, -⟩ := List.cons_eq_cons.mp ht
        simp at hl

/-- The calls for a timer are right: none before it is reached, and from then on one if the timer
was due and no handler had set it. -/
structure Verdict (due : Bool) (k : TimerKind) (F : FdePtr) (g : ℕ) (trace : List SweepEntry) :
    Prop where
  early : .called k F g ∈ trace → .reached k F g ∈ trace
  count : ∀ pre post, trace = pre ++ .reached k F g :: post →
    trace.count (.called k F g) = if due = true ∧ .set k F g ∉ pre then 1 else 0

namespace Verdict

variable {due : Bool} {k : TimerKind} {F : FdePtr} {g : ℕ} {trace es : List SweepEntry}

theorem nil : Verdict due k F g [] := ⟨fun h => (nomatch h), fun pre post h => by simp at h⟩

theorem append (h : Verdict due k F g trace) (hr : .reached k F g ∉ es)
    (hc : .called k F g ∉ es) : Verdict due k F g (trace ++ es) := by
  constructor
  · intro hmem
    rcases List.mem_append.mp hmem with hmem | hmem
    · exact List.mem_append_left es (h.early hmem)
    · exact absurd hmem hc
  · intro pre post he
    obtain ⟨rest, hrest⟩ := split_append he hr
    rw [List.count_append, List.count_eq_zero_of_not_mem hc, Nat.add_zero]
    exact h.count pre rest hrest

/-- The sweep reaches the timer, and calls the handler or does not. -/
theorem reach (h : Verdict due k F g trace) (hr : .reached k F g ∉ trace) {call : Bool}
    (hcall : call = true ↔ due = true ∧ .set k F g ∉ trace) :
    Verdict due k F g (trace ++ .reached k F g :: if call then [.called k F g] else []) := by
  have hes : .reached k F g ∉ (if call then [.called k F g] else [] : List SweepEntry) := by
    split <;> simp
  constructor
  · intro _
    simp
  · intro pre post he
    obtain rfl := split_unique he hr hes
    rw [List.count_append, List.count_eq_zero_of_not_mem (mt h.early hr), Nat.zero_add]
    by_cases hc : call = true
    · rw [if_pos hc, if_pos (hcall.mp hc)]
      simp
    · rw [if_neg hc, if_neg (mt hcall.mpr hc)]
      simp

end Verdict

end Log

namespace SweepWorld

/-- The descriptor that was opened in `F` as the one of number `g` is open. -/
def Here (w : SweepWorld) (F : FdePtr) (g : ℕ) : Prop := (w.fde F).isOpen = true ∧ w.gen F = g

/-- What the log and the table of a sweep that began at `w₀` say of every descriptor. -/
structure Honest (w₀ w : SweepWorld) : Prop where
  now : w.currentTime = w₀.currentTime
  size : w.hashSize = w₀.hashSize
  closed : ∀ F g, .closed F g ∈ w.trace → g ≤ w.gen F ∧ ¬ w.Here F g
  order : ∀ pre e post F g, w.trace = pre ++ e :: post → e.visit = some (F, g) →
    .closed F g ∉ pre
  called : ∀ k F g, .called k F g ∈ w.trace →
    w₀.Here F g ∧ (w₀.fde F).due k w₀.currentTime ≠ none
  due : ∀ k F, (w.fde F).due k w.currentTime ≠ none →
    w₀.Here F (w.gen F) ∧ (w₀.fde F).due k w₀.currentTime ≠ none

/-- What they say of the descriptor that was open in `F` then, where `ahead` says for which timers
it is still to be reached. -/
structure Track (w₀ : SweepWorld) (ahead : TimerKind → FdePtr → Prop) (F : FdePtr)
    (w : SweepWorld) : Prop where
  le : w₀.gen F ≤ w.gen F
  here : .closed F (w₀.gen F) ∉ w.trace →
    w.Here F (w₀.gen F) ∧ (w.fde F).fd = (w₀.fde F).fd
  due : .closed F (w₀.gen F) ∉ w.trace → ∀ k, .reached k F (w₀.gen F) ∉ w.trace →
    (w.fde F).due k w.currentTime =
      if .set k F (w₀.gen F) ∈ w.trace then none else (w₀.fde F).due k w₀.currentTime
  ahead : .closed F (w₀.gen F) ∉ w.trace → ∀ k, (.reached k F (w₀.gen F) ∈ w.trace ↔ ¬ ahead k F)
  verdict : ∀ k, Verdict ((w₀.fde F).due k w₀.currentTime).isSome k F (w₀.gen F) w.trace

variable {w₀ w w' : SweepWorld} {F : FdePtr} {es : List SweepEntry}
  {ahead ahead' : TimerKind → FdePtr → Prop}

/-- Only the record `F` changes, and only it is written of. -/
structure Touches (w : SweepWorld) (F : FdePtr) (es : List SweepEntry) (w' : SweepWorld) :
    Prop where
  now : w'.currentTime = w.currentTime
  size : w'.hashSize = w.hashSize
  trace : w'.trace = w.trace ++ es
  about : ∀ e ∈ es, e.fde = F
  fde : ∀ G, G ≠ F → w'.fde G = w.fde G
  gen : ∀ G, G ≠ F → w'.gen G = w.gen G
  gen_le : w.gen F ≤ w'.gen F

theorem Touches.mem (h : w.Touches F es w') {e : SweepEntry} (he : e.fde ≠ F) :
    e ∈ w'.trace ↔ e ∈ w.trace := by
  rw [h.trace, List.mem_append]
  exact or_iff_left fun hm => he (h.about e hm)

theorem Honest.touch (h : Honest w₀ w) (ht : w.Touches F es w')
    (hclosed : ∀ g, .closed F g ∈ w'.trace → g ≤ w'.gen F ∧ ¬ w'.Here F g)
    (hvisit : ∀ e ∈ es, ∀ g, e.visit = some (F, g) → .closed F g ∉ w'.trace)
    (hcalled : ∀ k g, .called k F g ∈ es →
      w₀.Here F g ∧ (w₀.fde F).due k w₀.currentTime ≠ none)
    (hdue : ∀ k, (w'.fde F).due k w.currentTime ≠ none →
      w₀.Here F (w'.gen F) ∧ (w₀.fde F).due k w₀.currentTime ≠ none) : Honest w₀ w' where
  now := ht.now.trans h.now
  size := ht.size.trans h.size
  closed G g hG := by
    by_cases hGF : G = F
    · subst hGF
      exact hclosed g hG
    · have := h.closed G g ((ht.mem (e := .closed G g) hGF).mp hG)
      rwa [Here, ht.fde G hGF, ht.gen G hGF]
  order pre e post G g he hv := by
    by_cases hmem : e ∈ es
    · have hGF : G = F := by
        rw [← ht.about e hmem]
        cases e <;> simp_all [SweepEntry.visit, SweepEntry.fde]
      subst hGF
      exact fun hm => hvisit e hmem g hv (he ▸ List.mem_append_left _ hm)
    · obtain ⟨rest, hrest⟩ := split_append (ht.trace ▸ he) hmem
      exact h.order pre e rest G g hrest hv
  called k G g hG := by
    rw [ht.trace, List.mem_append] at hG
    rcases hG with hG | hG
    · exact h.called k G g hG
    · obtain rfl : G = F := ht.about _ hG
      exact hcalled k g hG
  due k G hG := by
    rw [ht.now] at hG
    by_cases hGF : G = F
    · subst hGF
      exact hdue k hG
    · rw [ht.fde G hGF] at hG
      rw [ht.gen G hGF]
      exact h.due k G hG

theorem Track.other {G : FdePtr} (h : Track w₀ ahead G w) (ht : w.Touches F es w') (hG : G ≠ F)
    (hahead : ∀ k, ahead' k G ↔ ahead k G) : Track w₀ ahead' G w' := by
  have hmem {e : SweepEntry} (he : e.fde = G) : e ∈ w'.trace ↔ e ∈ w.trace :=
    ht.mem (he ▸ hG)
  have hclosed : .closed G (w₀.gen G) ∉ w'.trace ↔ .closed G (w₀.gen G) ∉ w.trace :=
    not_congr (hmem rfl)
  refine ⟨?_, ?_, ?_, ?_, ?_⟩
  · rw [ht.gen G hG]
    exact h.le
  · rw [hclosed, Here, ht.fde G hG, ht.gen G hG]
    exact h.here
  · intro hc k hr
    rw [ht.fde G hG, ht.now, h.due (hclosed.mp hc) k (mt (hmem rfl).mpr hr)]
    exact if_congr (hmem rfl).symm rfl rfl
  · intro hc k
    rw [hmem rfl, h.ahead (hclosed.mp hc), hahead]
  · intro k
    rw [ht.trace]
    exact (h.verdict k).append (fun hm => hG (ht.about _ hm)) fun hm => hG (ht.about _ hm)

/-- Nothing more is said of a descriptor that is closed. -/
theorem Track.gone (h : Track w₀ ahead F w) (ht : w.Touches F es w')
    (hclosed : .closed F (w₀.gen F) ∈ w'.trace)
    (hes : ∀ e ∈ es, e.visit ≠ some (F, w₀.gen F)) : Track w₀ ahead' F w' where
  le := Nat.le_trans h.le ht.gen_le
  here hc := absurd hclosed hc
  due hc := absurd hclosed hc
  ahead hc := absurd hclosed hc
  verdict k := by
    rw [ht.trace]
    exact (h.verdict k).append (fun hm => hes _ hm rfl) fun hm => hes _ hm rfl

section Calls

theorem fdOpen_touches (fd : ℕ) : w.Touches F [] (w.fdOpen F fd) where
  now := rfl
  size := rfl
  trace := (List.append_nil w.trace).symm
  about e he := absurd he List.not_mem_nil
  fde G hG := Function.update_of_ne hG _ w.fde
  gen G hG := Function.update_of_ne hG _ w.gen
  gen_le := by
    change w.gen F ≤ Function.update w.gen F (w.gen F + 1) F
    rw [Function.update_self]
    omega

theorem Closes.touches (h : w.Closes F w') : w.Touches F [.closed F (w.gen F)] w' where
  now := h.currentTime
  size := h.hashSize
  trace := h.trace
  about e he := by rw [List.mem_singleton.mp he]; rfl
  fde G hG := by rw [h.fde, Function.update_of_ne hG]
  gen G _ := by rw [h.gen]
  gen_le := by rw [h.gen]

theorem put_touches (f : TimedFde) {e : SweepEntry} (he : e.fde = F) :
    w.Touches F [e] ((w.put F f).note e) where
  now := rfl
  size := rfl
  trace := rfl
  about e' he' := by rw [List.mem_singleton.mp he', he]
  fde G hG := Function.update_of_ne hG _ w.fde
  gen _ _ := rfl
  gen_le := Nat.le_refl _

variable {base : ℤ} {lists : ℕ → List FdePtr}

theorem Filing.isOpen_of_due (h : w.Filing base lists) {k : TimerKind}
    (hdue : (w.fde F).due k w.currentTime ≠ none) : (w.fde F).isOpen = true := by
  by_contra hF
  rw [h.cleared F (Bool.eq_false_iff.mpr hF), TimedFde.cleared_due] at hdue
  exact hdue rfl

theorem Honest.fdOpen (h : Honest w₀ w) (hw : w.Filing base lists)
    (hF : (w.fde F).isOpen = false) (fd : ℕ) : Honest w₀ (w.fdOpen F fd) := by
  refine h.touch (fdOpen_touches fd) ?_ (fun e he => absurd he List.not_mem_nil)
    (fun k g hg => absurd hg List.not_mem_nil) ?_
  · intro g hg
    obtain ⟨hle, -⟩ := h.closed F g hg
    have hgen : (w.fdOpen F fd).gen F = w.gen F + 1 := Function.update_self ..
    refine ⟨by omega, ?_⟩
    rintro ⟨-, he⟩
    omega
  · intro k hdue
    rw [fdOpen_fde, Function.update_self, hw.cleared F hF] at hdue
    exact absurd (TimedFde.cleared_due k _) hdue

theorem Track.fdOpen (h : Track w₀ ahead F w) (hF : (w.fde F).isOpen = false) (fd : ℕ) :
    Track w₀ ahead' F (w.fdOpen F fd) := by
  refine h.gone (fdOpen_touches fd) ?_ (fun e he => absurd he List.not_mem_nil)
  by_contra hc
  have := (h.here hc).1.1
  rw [hF] at this
  cases this

theorem Honest.fdClose (h : Honest w₀ w) (hc : w.Closes F w') : Honest w₀ w' := by
  have hF : w'.fde F = .cleared := by rw [hc.fde, Function.update_self]
  refine h.touch hc.touches ?_ ?_ ?_ ?_
  · intro g hg
    refine ⟨?_, fun hhere => ?_⟩
    · rw [hc.gen]
      rw [hc.trace, List.mem_append, List.mem_singleton] at hg
      rcases hg with hg | hg
      · exact (h.closed F g hg).1
      · cases hg
        exact Nat.le_refl _
    · have := hhere.1
      rw [hF] at this
      cases this
  · intro e he g hv
    rw [List.mem_singleton.mp he] at hv
    cases hv
  · intro k g hg
    simp at hg
  · intro k hdue
    rw [hF, TimedFde.cleared_due] at hdue
    exact absurd rfl hdue

theorem Track.fdClose (h : Track w₀ ahead F w) (hc : w.Closes F w') : Track w₀ ahead' F w' := by
  refine h.gone hc.touches ?_ ?_
  · rw [hc.trace, List.mem_append, List.mem_singleton]
    by_cases hm : .closed F (w₀.gen F) ∈ w.trace
    · exact Or.inl hm
    · rw [(h.here hm).1.2]
      exact Or.inr rfl
  · intro e he hv
    rw [List.mem_singleton.mp he] at hv
    cases hv

/-- A timer is set by a handler. -/
def rearm (w : SweepWorld) (k : TimerKind) (F : FdePtr) (timeout : ℕ) (callback : Option PF) :
    SweepWorld :=
  (w.put F ((w.fde F).setTimer (w.currentTime + (timeout / 1000 : ℕ)) callback k)).note
    (.set k F (w.gen F))

variable {k : TimerKind} {timeout : ℕ} {callback : Option PF}

theorem rearm_touches : w.Touches F [.set k F (w.gen F)] (w.rearm k F timeout callback) :=
  put_touches _ rfl

theorem rearm_fde : (w.rearm k F timeout callback).fde F =
    (w.fde F).setTimer (w.currentTime + (timeout / 1000 : ℕ)) callback k :=
  Function.update_self ..

theorem rearm_due (k' : TimerKind) :
    ((w.rearm k F timeout callback).fde F).due k' w.currentTime =
      if k' = k then none else (w.fde F).due k' w.currentTime := by
  rw [rearm_fde]
  split
  · next hk =>
      subst hk
      exact TimedFde.setTimer_due_self _ _ _ (by omega)
  · next hk => exact TimedFde.setTimer_due_of_ne _ _ _ _ hk

theorem rearm_here (g : ℕ) : (w.rearm k F timeout callback).Here F g ↔ w.Here F g := by
  rw [Here, rearm_fde, TimedFde.setTimer_isOpen]
  rfl

theorem Honest.rearm (h : Honest w₀ w) : Honest w₀ (w.rearm k F timeout callback) := by
  refine h.touch rearm_touches ?_ ?_ ?_ ?_
  · intro g hg
    rw [rearm_here]
    refine h.closed F g ?_
    simpa [rearm_touches.trace] using hg
  · intro e he g hv
    rw [List.mem_singleton.mp he] at hv
    cases hv
  · intro k g hg
    simp at hg
  · intro k' hdue
    rw [rearm_due] at hdue
    split at hdue
    · exact absurd rfl hdue
    · exact h.due k' F hdue

theorem Track.rearm (h : Track w₀ ahead F w) :
    Track w₀ ahead F (w.rearm k F timeout callback) := by
  have ht : w.Touches F [.set k F (w.gen F)] (w.rearm k F timeout callback) := rearm_touches
  have hmem {e : SweepEntry} (he : e ≠ .set k F (w.gen F)) :
      e ∈ (w.rearm k F timeout callback).trace ↔ e ∈ w.trace := by
    rw [ht.trace, List.mem_append, List.mem_singleton]
    exact or_iff_left he
  by_cases hc : .closed F (w₀.gen F) ∈ w.trace
  · refine h.gone ht ((hmem (by simp)).mpr hc) ?_
    intro e he hv
    rw [List.mem_singleton.mp he] at hv
    cases hv
  · obtain ⟨hhere, hfd⟩ := h.here hc
    refine ⟨h.le, fun _ => ⟨(rearm_here _).mpr hhere, ?_⟩, fun _ k' hr => ?_, fun _ k' => ?_,
      fun k' => ?_⟩
    · rw [rearm_fde, TimedFde.setTimer_fd, hfd]
    · have hdue := h.due hc k' (mt (hmem (by simp)).mpr hr)
      rw [ht.now, rearm_due, hdue]
      by_cases hk : k' = k
      · rw [if_pos hk, if_pos]
        rw [ht.trace, hk, hhere.2]
        simp
      · rw [if_neg hk]
        exact if_congr (hmem fun he => hk (SweepEntry.set.inj he).1).symm rfl rfl
    · rw [hmem (by simp)]
      exact h.ahead hc k'
    · rw [ht.trace]
      exact (h.verdict k').append (by simp) (by simp)

end Calls

/-- What is ahead in the chain `i`: the records in `current` for some timers, the records `R`, and
those of the chains behind. -/
def Ahead (w₀ : SweepWorld) (i : ℕ) (current : TimerKind → List FdePtr) (R : List FdePtr)
    (k : TimerKind) (F : FdePtr) : Prop :=
  F ∈ current k ∨ F ∈ R ∨ i < w₀.hashFd (w₀.fde F).fd

/-- The sweep in the chain `i`, with the records `R` left of it. -/
structure Sweeping (w₀ : SweepWorld) (base : ℤ) (i : ℕ) (current : TimerKind → List FdePtr)
    (R : List FdePtr) (w : SweepWorld) : Prop where
  table : ∃ lists done, w.Filing base lists ∧ lists i = done ++ R
  honest : Honest w₀ w
  track : ∀ F, (w₀.fde F).isOpen = true → Track w₀ (Ahead w₀ i current R) F w
  passed : ∀ k, ∀ F ∈ current k, F ∉ R
  bucket : ∀ k, ∀ F ∈ current k, (w₀.fde F).isOpen = true → .closed F (w₀.gen F) ∉ w.trace →
    w₀.hashFd (w₀.fde F).fd ≤ i

/-- The loop goes on with the first record that is left. -/
def Held (R : List FdePtr) (w : SweepWorld) : Prop := w.fdNextInLoop = R.head?

variable {base : ℤ} {i : ℕ} {current current' : TimerKind → List FdePtr} {R R' : List FdePtr}

theorem head?_erase {α : Type*} [DecidableEq α] {l : List α} {a : α} (h : l.head? ≠ some a) :
    (l.erase a).head? = l.head? := by
  cases l with
  | nil => rfl
  | cons b l =>
      have hb : b ≠ a := fun he => h (congrArg some he)
      rw [List.erase_cons_tail (by simpa using hb), List.head?_cons, List.head?_cons]

/-- A call that a handler makes changes one record. -/
theorem Sweeping.touch (h : Sweeping w₀ base i current R w) (ht : w.Touches F es w')
    (htable : ∃ lists done, w'.Filing base lists ∧ lists i = done ++ R') (hR : R'.Sublist R)
    (hin : ∀ G, G ≠ F → (G ∈ R' ↔ G ∈ R)) (hhonest : Honest w₀ w')
    (hself : Track w₀ (Ahead w₀ i current R) F w → Track w₀ (Ahead w₀ i current R') F w') :
    Sweeping w₀ base i current R' w' where
  table := htable
  honest := hhonest
  track G hG := by
    by_cases hGF : G = F
    · subst hGF
      exact hself (h.track G hG)
    · refine (h.track G hG).other ht hGF fun k => ?_
      rw [Ahead, Ahead, hin G hGF]
  passed k G hG := fun hm => h.passed k G hG (hR.subset hm)
  bucket k G hG hopen hc := h.bucket k G hG hopen fun hm =>
    hc (ht.trace ▸ List.mem_append_left es hm)

theorem Sweeping.fdOpen (h : Sweeping w₀ base i current R w) (hF : (w.fde F).isOpen = false)
    (fd : ℕ) : Sweeping w₀ base i current R (w.fdOpen F fd) := by
  obtain ⟨lists, done, hfiling, hlist⟩ := h.table
  have hdone : ∃ done', Function.update lists (w.hashFd fd) (F :: lists (w.hashFd fd)) i =
      done' ++ R := by
    by_cases hi : i = w.hashFd fd
    · rw [← hi, Function.update_self, hlist]
      exact ⟨F :: done, rfl⟩
    · rw [Function.update_of_ne hi, hlist]
      exact ⟨done, rfl⟩
  obtain ⟨done', hdone'⟩ := hdone
  exact h.touch (fdOpen_touches fd) ⟨_, done', hfiling.fdOpen hF fd, hdone'⟩ (List.Sublist.refl R)
    (fun _ _ => Iff.rfl) (h.honest.fdOpen hfiling hF fd) fun ht => ht.fdOpen hF fd

/-- The descriptor that is closed goes from the records that are left, and the loop goes on with the
first of the others. -/
theorem Sweeping.fdClose (h : Sweeping w₀ base i current R w) (hnext : w.Held R)
    (hF : (w.fde F).isOpen = true) : ∃ w', Halts (w.fdClose · F) w' ∧
      Sweeping w₀ base i current (R.erase F) w' ∧ w'.Held (R.erase F) := by
  obtain ⟨lists, done, hfiling, hlist⟩ := h.table
  obtain ⟨j, hj⟩ : ∃ j, w.hashFd (w.fde F).fd = j := ⟨_, rfl⟩
  obtain ⟨w', hhalts, hcloses, hfiling'⟩ := hfiling.fdClose hF hj
  have hmem : F ∈ lists j := (hfiling.mem j F).mpr ⟨hF, hj⟩
  have hchain := hfiling.filed.chain i
  have hnd := hchain.nodup
  rw [hlist] at hchain hnd
  have hR : F ∈ R → i = j := fun hm =>
    hfiling.filed.disjoint (hlist ▸ List.mem_append_right done hm) hmem
  have herase : ∃ done', Function.update lists j ((lists j).erase F) i = done' ++ R.erase F := by
    by_cases hi : i = j
    · rw [← hi, Function.update_self, hlist]
      by_cases hd : F ∈ done
      · have hout : F ∉ R := fun hm => (List.nodup_append.mp hnd).2.2 F hd F hm rfl
        exact ⟨done.erase F, by rw [List.erase_append_left _ hd, List.erase_of_not_mem hout]⟩
      · exact ⟨done, List.erase_append_right _ hd⟩
    · rw [Function.update_of_ne hi, hlist, List.erase_of_not_mem (mt hR hi)]
      exact ⟨done, rfl⟩
  obtain ⟨done', hdone'⟩ := herase
  refine ⟨w', hhalts, ?_, ?_⟩
  · exact h.touch hcloses.touches ⟨_, done', hfiling', hdone'⟩ (List.erase_sublist ..)
      (fun G hG => List.mem_erase_of_ne hG) (h.honest.fdClose hcloses) fun ht => ht.fdClose hcloses
  · rw [Held, hcloses.fdNextInLoop, hnext]
    split
    · next hhead =>
        obtain ⟨R₂, rfl⟩ := List.head?_eq_some_iff.mp hhead
        obtain ⟨m, -, -, hrest⟩ := segment_append.mp hchain
        rw [List.erase_cons_head]
        exact Chain.head hrest
    · next hhead => exact (head?_erase hhead).symm

theorem Filing.rearm {lists : ℕ → List FdePtr} (h : w.Filing base lists) {k : TimerKind}
    {timeout : ℕ} {callback : Option PF} (hF : (w.fde F).isOpen = true) :
    (w.rearm k F timeout callback).Filing base lists := by
  refine (h.put hF ?_ (TimedFde.setTimer_fd ..)).congr rfl rfl rfl rfl rfl
  rw [TimedFde.setTimer_isOpen, hF]

theorem Sweeping.rearm (h : Sweeping w₀ base i current R w) {k : TimerKind} {timeout : ℕ}
    {callback : Option PF} (hF : (w.fde F).isOpen = true) :
    Sweeping w₀ base i current R (w.rearm k F timeout callback) := by
  obtain ⟨lists, done, hfiling, hlist⟩ := h.table
  exact h.touch rearm_touches ⟨lists, done, hfiling.rearm hF, hlist⟩ (List.Sublist.refl R)
    (fun _ _ => Iff.rfl) h.honest.rearm Track.rearm

theorem commSet_map (hF : (w.fde F).isOpen = true) (k : TimerKind) (timeout : ℕ)
    (callback : Option PF) :
    (w.commSet k F timeout callback).map (note · (.set k F (w.gen F))) =
      some (w.rearm k F timeout callback) := by
  rw [commSet, if_pos hF]
  rfl

/-- A call that a handler makes. -/
theorem Sweeping.step (h : Sweeping w₀ base i current R w) (hnext : w.Held R) (c : FdCall) :
    ∃ w' R', Halts (w.step · c) w' ∧ Sweeping w₀ base i current R' w' ∧ w'.Held R' ∧
      R'.Sublist R := by
  unfold SweepWorld.step
  by_cases hlegal : w.Legal c
  · simp only [if_pos hlegal]
    cases c with
    | fdOpen F fd =>
        exact ⟨_, R, halts_const _, h.fdOpen hlegal fd, hnext, List.Sublist.refl R⟩
    | fdClose F =>
        obtain ⟨w', hhalts, hs, hn⟩ := h.fdClose hnext hlegal
        exact ⟨w', _, hhalts, hs, hn, List.erase_sublist ..⟩
    | commSettimeout F timeout callback =>
        refine ⟨w.rearm .timeout F timeout callback, R, ?_, h.rearm hlegal, hnext,
          List.Sublist.refl R⟩
        simpa only [perform, commSettimeout, commSet_map hlegal] using halts_const _
    | commSetflush F timeout callback =>
        refine ⟨w.rearm .flush F timeout callback, R, ?_, h.rearm hlegal, hnext,
          List.Sublist.refl R⟩
        simpa only [perform, commSetflush, commSet_map hlegal] using halts_const _
  · simp only [if_neg hlegal]
    exact ⟨w, R, halts_const w, h, hnext, List.Sublist.refl R⟩

/-- The calls of a handler. -/
theorem Sweeping.steps (h : Sweeping w₀ base i current R w) (hnext : w.Held R)
    (calls : List FdCall) : ∃ w', Halts (fun n => calls.foldlM (fun w c => w.step n c) w) w' ∧
      ∃ R', Sweeping w₀ base i current R' w' ∧ w'.Held R' ∧ R'.Sublist R := by
  refine halts_foldlM (fun n w c => w.step n c) (P := fun _ w' =>
    ∃ R', Sweeping w₀ base i current R' w' ∧ w'.Held R' ∧ R'.Sublist R) ?_
    ⟨R, h, hnext, List.Sublist.refl R⟩
  rintro c calls w' ⟨R', hs, hn, hsub⟩
  obtain ⟨w'', R'', hhalts, hs', hn', hsub'⟩ := hs.step hn c
  exact ⟨w'', hhalts, R'', hs', hn', hsub'.trans hsub⟩

section Visits

/-- The sweep reaches the timer `k` of what is open in `F`, and leaves the record as `f`. -/
def visit (w : SweepWorld) (k : TimerKind) (F : FdePtr) (f : TimedFde) (call : Bool) : SweepWorld :=
  { w.put F f with
    trace := w.trace ++
      .reached k F (w.gen F) :: if call then [.called k F (w.gen F)] else [] }

/-- The record is as before but for the timer `k`, which is not due any more. -/
structure Cleared (k : TimerKind) (now : ℤ) (f f' : TimedFde) : Prop where
  isOpen : f'.isOpen = f.isOpen
  fd : f'.fd = f.fd
  due : ∀ k', f'.due k' now = if k' = k then none else f.due k' now

variable {k : TimerKind} {f : TimedFde} {call : Bool}

theorem visit_touches (w : SweepWorld) (k : TimerKind) (F : FdePtr) (f : TimedFde) (call : Bool) :
    ∃ es, w.Touches F es (w.visit k F f call) ∧
    es = .reached k F (w.gen F) :: (if call then [.called k F (w.gen F)] else []) := by
  refine ⟨_, ⟨rfl, rfl, rfl, ?_, fun G hG => Function.update_of_ne hG _ w.fde, fun _ _ => rfl,
    Nat.le_refl _⟩, rfl⟩
  intro e he
  rcases List.mem_cons.mp he with rfl | he
  · rfl
  · split at he
    · rw [List.mem_singleton.mp he]
      rfl
    · cases he

theorem visit_fde : (w.visit k F f call).fde F = f := Function.update_self ..

theorem mem_visit {e : SweepEntry} (he : e.visit = none) :
    e ∈ (w.visit k F f call).trace ↔ e ∈ w.trace := by
  have hr : e ≠ .reached k F (w.gen F) := by
    rintro rfl
    cases he
  have hc : e ≠ .called k F (w.gen F) := by
    rintro rfl
    cases he
  rw [visit, List.mem_append, List.mem_cons]
  cases call <;> simp [hr, hc]

theorem visit_here (hf : Cleared k w.currentTime (w.fde F) f) (g : ℕ) :
    (w.visit k F f call).Here F g ↔ w.Here F g := by
  rw [Here, visit_fde, hf.isOpen]
  rfl

theorem Honest.visit (h : Honest w₀ w) (hF : (w.fde F).isOpen = true)
    (hf : Cleared k w.currentTime (w.fde F) f)
    (hcall : call = true → (w.fde F).due k w.currentTime ≠ none) :
    Honest w₀ (w.visit k F f call) := by
  obtain ⟨es, ht, hes⟩ := visit_touches w k F f call
  refine h.touch ht ?_ ?_ ?_ ?_
  · intro g hg
    rw [visit_here hf]
    exact h.closed F g ((mem_visit rfl).mp hg)
  · intro e he g hv hm
    have hg : g = w.gen F := by
      rw [hes, List.mem_cons] at he
      rcases he with rfl | he
      · exact (Prod.mk.inj (Option.some.inj hv)).2.symm
      · split at he
        · rw [List.mem_singleton.mp he] at hv
          exact (Prod.mk.inj (Option.some.inj hv)).2.symm
        · cases he
    exact (h.closed F g ((mem_visit rfl).mp hm)).2 ⟨hF, hg.symm⟩
  · intro k' g hg
    rw [hes, List.mem_cons] at hg
    rcases hg with hg | hg
    · cases hg
    · split at hg
      · next hc =>
          obtain ⟨rfl, -, rfl⟩ := SweepEntry.called.inj (List.mem_singleton.mp hg)
          exact h.due k' F (hcall hc)
      · cases hg
  · intro k' hdue
    rw [visit_fde, hf.due] at hdue
    split at hdue
    · exact absurd rfl hdue
    · exact h.due k' F hdue

theorem Track.visit (h : Track w₀ ahead F w) (hw : Honest w₀ w) (hF : (w.fde F).isOpen = true)
    (hf : Cleared k w.currentTime (w.fde F) f)
    (hcall : call = ((w.fde F).due k w.currentTime).isSome) (hnow : ahead k F)
    (hpassed : .closed F (w₀.gen F) ∉ w.trace → ¬ ahead' k F)
    (hahead : ∀ k', k' ≠ k → (ahead' k' F ↔ ahead k' F)) :
    Track w₀ ahead' F (w.visit k F f call) := by
  obtain ⟨es, ht, hes⟩ := visit_touches w k F f call
  by_cases hc : .closed F (w₀.gen F) ∈ w.trace
  · refine h.gone ht ((mem_visit rfl).mpr hc) ?_
    have hne : w.gen F ≠ w₀.gen F := fun hg => (hw.closed F _ hc).2 ⟨hF, hg⟩
    intro e he hv
    rw [hes, List.mem_cons] at he
    rcases he with rfl | he
    · exact hne (Prod.mk.inj (Option.some.inj hv)).2
    · split at he
      · rw [List.mem_singleton.mp he] at hv
        exact hne (Prod.mk.inj (Option.some.inj hv)).2
      · cases he
  · obtain ⟨hhere, hfd⟩ := h.here hc
    have hnot : .reached k F (w₀.gen F) ∉ w.trace := fun hr => (h.ahead hc k).mp hr hnow
    have hdue := h.due hc k hnot
    have hother {k' : TimerKind} (hk : k' ≠ k) :
        .reached k' F (w₀.gen F) ∈ (w.visit k F f call).trace ↔
          .reached k' F (w₀.gen F) ∈ w.trace := by
      rw [ht.trace, hes, List.mem_append, List.mem_cons]
      cases call <;> simp [hk]
    have hself : .reached k F (w₀.gen F) ∈ (w.visit k F f call).trace := by
      rw [ht.trace, hes, hhere.2]
      simp
    refine ⟨h.le, fun _ => ⟨(visit_here hf _).mpr hhere, ?_⟩, fun _ k' hr => ?_, fun _ k' => ?_,
      fun k' => ?_⟩
    · rw [visit_fde, hf.fd, hfd]
    · have hk : k' ≠ k := fun hk => hr (hk ▸ hself)
      rw [ht.now, visit_fde, hf.due, if_neg hk, h.due hc k' (mt (hother hk).mpr hr)]
      exact if_congr (mem_visit rfl).symm rfl rfl
    · by_cases hk : k' = k
      · subst hk
        exact iff_of_true hself (hpassed hc)
      · rw [hother hk, h.ahead hc k', hahead k' hk]
    · by_cases hk : k' = k
      · subst hk
        rw [ht.trace, hes, hhere.2]
        refine (h.verdict k').reach hnot ?_
        rw [hcall, hdue]
        split <;> simp_all
      · rw [ht.trace, hes]
        apply (h.verdict k').append <;> cases call <;> simp [hk]

theorem Filing.visit {lists : ℕ → List FdePtr} (h : w.Filing base lists)
    (hF : (w.fde F).isOpen = true) (hf : Cleared k w.currentTime (w.fde F) f) :
    (w.visit k F f call).Filing base lists :=
  (h.put hF (hf.isOpen.trans hF) hf.fd).congr rfl rfl rfl rfl rfl

/-- The timer of the record that the loop stands at is not ahead any more. -/
theorem Sweeping.pass (h : Sweeping w₀ base i current R w) (hk : current k = [F])
    (ht : w.Touches F es w') (htable : ∃ lists done, w'.Filing base lists ∧ lists i = done ++ R)
    (hhonest : Honest w₀ w')
    (hself : (w₀.fde F).isOpen = true →
      Track w₀ (Ahead w₀ i (Function.update current k []) R) F w') :
    Sweeping w₀ base i (Function.update current k []) R w' := by
  have hsub : ∀ k', ∀ G ∈ Function.update current k [] k', G ∈ current k' := by
    intro k' G hG
    rw [Function.update_apply] at hG
    split at hG
    · cases hG
    · exact hG
  refine ⟨htable, hhonest, fun G hG => ?_, fun k' G hG => h.passed k' G (hsub k' G hG),
    fun k' G hG hopen hc => h.bucket k' G (hsub k' G hG) hopen fun hm =>
      hc (ht.trace ▸ List.mem_append_left es hm)⟩
  by_cases hGF : G = F
  · subst hGF
    exact hself hG
  · refine (h.track G hG).other ht hGF fun k' => ?_
    rw [Ahead, Ahead, Function.update_apply]
    split
    · next hk' =>
        rw [hk', hk]
        simp [hGF]
    · rfl

theorem Sweeping.visit (h : Sweeping w₀ base i current R w) (hk : current k = [F])
    (hF : (w.fde F).isOpen = true) (hf : Cleared k w.currentTime (w.fde F) f)
    (hcall : call = ((w.fde F).due k w.currentTime).isSome) :
    Sweeping w₀ base i (Function.update current k []) R (w.visit k F f call) := by
  obtain ⟨lists, done, hfiling, hlist⟩ := h.table
  obtain ⟨es, ht, -⟩ := visit_touches w k F f call
  have hmem : F ∈ current k := hk ▸ List.mem_singleton_self F
  refine h.pass hk ht ⟨lists, done, hfiling.visit hF hf, hlist⟩ ?_ fun hopen => ?_
  · refine h.honest.visit hF hf fun hc => ?_
    rw [hcall] at hc
    exact Option.isSome_iff_ne_none.mp hc
  · refine (h.track F hopen).visit h.honest hF hf hcall (Or.inl hmem) ?_ ?_
    · rintro hc (hm | hm | hm)
      · rw [Function.update_self] at hm
        cases hm
      · exact h.passed k F hmem hm
      · exact absurd (h.bucket k F hmem hopen hc) (Nat.not_le.mpr hm)
    · intro k' hk'
      rw [Ahead, Ahead, Function.update_of_ne hk']

/-- What the loop stands at was closed. -/
theorem Sweeping.skip (h : Sweeping w₀ base i current R w) (hk : current k = [F])
    (hF : (w.fde F).isOpen = false) :
    Sweeping w₀ base i (Function.update current k []) R w := by
  have ht : w.Touches F [] w := ⟨rfl, rfl, (List.append_nil w.trace).symm,
    fun e he => absurd he List.not_mem_nil, fun _ _ => rfl, fun _ _ => rfl, Nat.le_refl _⟩
  refine h.pass hk ht h.table h.honest fun hopen => ?_
  refine (h.track F hopen).gone ht ?_ fun e he => absurd he List.not_mem_nil
  by_contra hc
  have := ((h.track F hopen).here hc).1.1
  rw [hF] at this
  cases this

variable (behaviour : Behaviour)

theorem visit_false (k : TimerKind) (F : FdePtr) :
    w.visit k F (w.fde F) false = w.note (.reached k F (w.gen F)) := by
  simp [visit, put, note]

theorem reach_eq (k : TimerKind) (F : FdePtr) :
    (w.reach k F).fde = w.fde ∧ (w.reach k F).currentTime = w.currentTime := by
  unfold SweepWorld.reach
  split <;> exact ⟨rfl, rfl⟩

theorem check_of_none (n : ℕ) (hdue : (w.fde F).due k w.currentTime = none) :
    w.check behaviour n k F = some (w.reach k F) := by
  obtain ⟨hfde, hnow⟩ := reach_eq (w := w) k F
  rw [SweepWorld.check, hfde, hnow, hdue]

/-- The timer is taken off before its handler is called. -/
theorem check_of_some (n : ℕ) {hdl : PF} (hF : (w.fde F).isOpen = true)
    (hdue : (w.fde F).due k w.currentTime = some hdl) :
    w.check behaviour n k F =
      (behaviour (w.visit k F ((w.fde F).setTimer w.currentTime none k) true) F hdl).foldlM
        (fun w c => w.step n c) (w.visit k F ((w.fde F).setTimer w.currentTime none k) true) := by
  have hreach : w.reach k F = w.note (.reached k F (w.gen F)) := if_pos hF
  have hset : ((w.note (.reached k F (w.gen F))).commSet k F 0 none) =
      some ((w.put F ((w.fde F).setTimer w.currentTime none k)).note
        (.reached k F (w.gen F))) := by
    simp [commSet, put, note, hF]
  have hvisit : ((w.put F ((w.fde F).setTimer w.currentTime none k)).note
      (.reached k F (w.gen F))).note (.called k F (w.gen F)) =
        w.visit k F ((w.fde F).setTimer w.currentTime none k) true := by
    simp [visit, put, note]
  obtain ⟨hfde, hnow⟩ := reach_eq (w := w) k F
  rw [SweepWorld.check, hfde, hnow, hdue, hreach]
  dsimp only
  rw [hset, Option.bind_some, ← hvisit]
  rfl

theorem check_halts (h : Sweeping w₀ base i current R w) (hnext : w.Held R)
    (hk : current k = [F]) : ∃ w', Halts (fun n => w.check behaviour n k F) w' ∧
      ∃ R', Sweeping w₀ base i (Function.update current k []) R' w' ∧ w'.Held R' ∧
        R'.Sublist R := by
  obtain ⟨lists, done, hfiling, -⟩ := h.table
  cases hF : (w.fde F).isOpen with
  | false =>
      refine ⟨w, ?_, R, h.skip hk hF, hnext, List.Sublist.refl R⟩
      have hdue : (w.fde F).due k w.currentTime = none := by
        rw [hfiling.cleared F hF, TimedFde.cleared_due]
      have hreach : w.reach k F = w := if_neg (by simp [hF])
      simpa only [check_of_none behaviour _ hdue, hreach] using halts_const w
  | true =>
      cases hdue : (w.fde F).due k w.currentTime with
      | none =>
          have hf : Cleared k w.currentTime (w.fde F) (w.fde F) := by
            refine ⟨rfl, rfl, fun k' => ?_⟩
            split
            · next hk' => rw [hk', hdue]
            · rfl
          have hs : Sweeping w₀ base i (Function.update current k []) R
              (w.visit k F (w.fde F) false) := h.visit hk hF hf (by rw [hdue]; rfl)
          rw [visit_false] at hs
          refine ⟨_, ?_, R, hs, hnext, List.Sublist.refl R⟩
          have hreach : w.reach k F = w.note (.reached k F (w.gen F)) := if_pos hF
          simpa only [check_of_none behaviour _ hdue, hreach] using halts_const _
      | some hdl =>
          have hf : Cleared k w.currentTime (w.fde F)
              ((w.fde F).setTimer w.currentTime none k) := by
            refine ⟨TimedFde.setTimer_isOpen .., TimedFde.setTimer_fd .., fun k' => ?_⟩
            split
            · next hk' =>
                rw [hk']
                exact TimedFde.setTimer_due_self _ _ _ (Int.le_refl _)
            · next hk' => exact TimedFde.setTimer_due_of_ne _ _ _ _ hk'
          have hs : Sweeping w₀ base i (Function.update current k []) R
              (w.visit k F ((w.fde F).setTimer w.currentTime none k) true) :=
            h.visit hk hF hf (by rw [hdue]; rfl)
          have hn : (w.visit k F ((w.fde F).setTimer w.currentTime none k) true).Held R := hnext
          simpa only [check_of_some behaviour _ hF hdue] using hs.steps hn _

end Visits

section Loop

theorem Honest.hashFd (h : Honest w₀ w) (fd : ℕ) : w.hashFd fd = w₀.hashFd fd := by
  rw [SweepWorld.hashFd, h.size, SweepWorld.hashFd]

/-- What is filed in a chain belongs there from the start. -/
theorem Track.bucket {lists : ℕ → List FdePtr} (h : Track w₀ ahead F w) (hw : Honest w₀ w)
    (hfiling : w.Filing base lists) (hc : .closed F (w₀.gen F) ∉ w.trace) :
    F ∈ lists i ↔ w₀.hashFd (w₀.fde F).fd = i := by
  obtain ⟨hhere, hfd⟩ := h.here hc
  rw [hfiling.mem, hw.hashFd, hfd]
  exact and_iff_right hhere.1

theorem Track.mono (h : Track w₀ ahead F w)
    (hahead : .closed F (w₀.gen F) ∉ w.trace → ∀ k, ahead' k F ↔ ahead k F) :
    Track w₀ ahead' F w :=
  ⟨h.le, h.here, h.due, fun hc k => by rw [h.ahead hc k, hahead hc k], h.verdict⟩

/-- The loop takes the next record of the chain. -/
theorem Sweeping.advance (h : Sweeping w₀ base i (fun _ => []) (F :: R) w) (p : Option FdePtr) :
    Sweeping w₀ base i (fun _ => [F]) R { w with fdNextInLoop := p } := by
  obtain ⟨lists, done, hfiling, hlist⟩ := h.table
  have hmem : F ∈ lists i := by simp [hlist]
  have hnd := (hfiling.filed.chain i).nodup
  rw [hlist] at hnd
  have hw := h.honest
  refine ⟨⟨lists, done ++ [F], hfiling.congr rfl rfl rfl rfl rfl, by simp [hlist]⟩,
    ⟨hw.now, hw.size, hw.closed, hw.order, hw.called, hw.due⟩,
    fun G hG => ?_, fun k G hG => ?_, fun k G hG hopen hc => ?_⟩
  · have ht : Track w₀ (Ahead w₀ i (fun _ => [F]) R) G w :=
      (h.track G hG).mono fun _ k => by simp [Ahead, or_assoc]
    exact ⟨ht.le, ht.here, ht.due, ht.ahead, ht.verdict⟩
  · obtain rfl := List.mem_singleton.mp hG
    exact (List.nodup_cons.mp (List.nodup_append.mp hnd).2.1).1
  · obtain rfl := List.mem_singleton.mp hG
    exact Nat.le_of_eq (((h.track G hopen).bucket hw hfiling hc).mp hmem)

variable (behaviour : Behaviour)

/-- The loop over what is left of a chain comes to its end. -/
theorem chainLoop_halts (h : Sweeping w₀ base i (fun _ => []) R w) :
    ∃ w', Halts (fun n => w.chainLoop behaviour n R.head?) w' ∧
      Sweeping w₀ base i (fun _ => []) [] w' := by
  induction hlen : R.length using Nat.strong_induction_on generalizing R w with
  | _ len ih =>
      cases R with
      | nil =>
          refine ⟨w, ?_, h⟩
          simpa [chainLoop] using halts_const w
      | cons F R =>
          obtain ⟨lists, done, hfiling, hlist⟩ := h.table
          have hmem : F ∈ lists i := by simp [hlist]
          have hchain := hfiling.filed.chain i
          rw [hlist] at hchain
          obtain ⟨m, -, hm⟩ := segment_append.mp hchain
          obtain ⟨hopen, -⟩ := (hfiling.mem i F).mp hmem
          obtain ⟨w₂, hcheck₂, R₂, h₂, hn₂, hsub₂⟩ :=
            check_halts behaviour (k := .flush) (h.advance _) (Chain.head hm.2) rfl
          obtain ⟨w₃, hcheck₃, R₃, h₃, hn₃, hsub₃⟩ :=
            check_halts behaviour (k := .timeout) (F := F) h₂ hn₂ rfl
          have hcurrent : Function.update (Function.update (fun _ => [F]) .flush []) .timeout [] =
              fun _ : TimerKind => ([] : List FdePtr) := by
            funext k
            cases k <;> rfl
          rw [hcurrent] at h₃
          have hlt : R₃.length < len := by
            have := (hsub₃.trans hsub₂).length_le
            rw [← hlen, List.length_cons]
            omega
          obtain ⟨w₄, hloop, h₄⟩ := ih R₃.length hlt h₃ rfl
          refine ⟨w₄, ?_, h₄⟩
          apply Halts.succ
          rw [← hn₃] at hloop
          simpa only [List.head?_cons, chainLoop, if_pos hopen]
            using hcheck₂.bind (hcheck₃.bind hloop)

/-- The sweep before the chain `i`. -/
structure Between (w₀ : SweepWorld) (base : ℤ) (i : ℕ) (w : SweepWorld) : Prop where
  table : ∃ lists, w.Filing base lists
  honest : Honest w₀ w
  track : ∀ F, (w₀.fde F).isOpen = true →
    Track w₀ (fun _ F => i ≤ w₀.hashFd (w₀.fde F).fd) F w

theorem Between.start {lists : ℕ → List FdePtr} (h : w.Filing base lists) (ht : w.trace = []) :
    Between w base 0 w where
  table := ⟨lists, h⟩
  honest := by
    refine ⟨rfl, rfl, ?_, ?_, ?_, fun k F hdue => ⟨⟨h.isOpen_of_due hdue, rfl⟩, hdue⟩⟩
    · simp [ht]
    · intro pre e post F g he
      simp [ht] at he
    · simp [ht]
  track F hF := by
    refine ⟨Nat.le_refl _, fun _ => ⟨⟨hF, rfl⟩, rfl⟩, ?_, ?_, ?_⟩
    · simp [ht]
    · simp [ht]
    · intro k
      rw [ht]
      exact Verdict.nil

theorem Between.chain (h : Between w₀ base i w) :
    ∃ w', Halts (fun n => w.chainLoop behaviour n (w.fdHash i)) w' ∧
      Between w₀ base (i + 1) w' := by
  obtain ⟨lists, hfiling⟩ := h.table
  have hs : Sweeping w₀ base i (fun _ => []) (lists i) w := by
    refine ⟨⟨lists, [], hfiling, rfl⟩, h.honest, fun F hF => ?_,
      fun _ _ hF => absurd hF List.not_mem_nil, fun _ _ hF => absurd hF List.not_mem_nil⟩
    refine (h.track F hF).mono fun hc k => ?_
    rw [Ahead, (h.track F hF).bucket h.honest hfiling hc]
    have hnil : F ∉ ([] : List FdePtr) := List.not_mem_nil
    simp only [hnil, false_or]
    omega
  obtain ⟨w', hhalts, h'⟩ := chainLoop_halts behaviour hs
  rw [← Chain.head (hfiling.filed.chain i)] at hhalts
  obtain ⟨lists', -, hfiling', -⟩ := h'.table
  refine ⟨w', hhalts, ⟨lists', hfiling'⟩, h'.honest, fun F hF => ?_⟩
  refine (h'.track F hF).mono fun _ k => ?_
  have hnil : F ∉ ([] : List FdePtr) := List.not_mem_nil
  simp only [Ahead, hnil, false_or]
  exact Nat.succ_le_iff

/-- What a sweep from `w` to `w'` does. -/
structure Swept (w w' : SweepWorld) : Prop where
  stays : ∀ F, (w.fde F).isOpen = true →
    (.closed F (w.gen F) ∉ w'.trace ↔ w'.Here F (w.gen F))
  reaches : ∀ F, (w.fde F).isOpen = true → .closed F (w.gen F) ∉ w'.trace →
    ∀ k, .reached k F (w.gen F) ∈ w'.trace
  calls : ∀ F, (w.fde F).isOpen = true → ∀ k pre post,
    w'.trace = pre ++ .reached k F (w.gen F) :: post →
      w'.trace.count (.called k F (w.gen F)) =
        if ((w.fde F).due k w.currentTime).isSome = true ∧ .set k F (w.gen F) ∉ pre then 1 else 0
  called : ∀ k F g, .called k F g ∈ w'.trace →
    w.Here F g ∧ (w.fde F).due k w.currentTime ≠ none ∧ .reached k F g ∈ w'.trace
  order : ∀ pre e post F g, w'.trace = pre ++ e :: post → e.visit = some (F, g) →
    .closed F g ∉ pre

theorem Between.swept (h : Between w₀ base w₀.hashSize w) : Swept w₀ w where
  stays F hF :=
    ⟨fun hc => ((h.track F hF).here hc).1, fun hhere hc => (h.honest.closed F _ hc).2 hhere⟩
  reaches F hF hc k := by
    obtain ⟨lists, hfiling⟩ := h.table
    have hlt := hfiling.hashFd_lt (w₀.fde F).fd
    rw [h.honest.hashFd, h.honest.size] at hlt
    exact ((h.track F hF).ahead hc k).mpr (Nat.not_le.mpr hlt)
  calls F hF k pre post he := ((h.track F hF).verdict k).count pre post he
  called k F g hm := by
    obtain ⟨hhere, hdue⟩ := h.honest.called k F g hm
    refine ⟨hhere, hdue, ?_⟩
    rw [← hhere.2] at hm ⊢
    exact ((h.track F hhere.1).verdict k).early hm
  order := h.honest.order

/-- The sweep ends for all that handlers do, calls what was due once and leaves nothing out that
stays open. -/
theorem commChecktimeouts_swept {lists : ℕ → List FdePtr} (h : w.Filing base lists)
    (ht : w.trace = []) : ∃ w', Halts (w.commChecktimeouts behaviour) w' ∧
      (∃ lists', w'.Filing base lists') ∧ Swept w w' := by
  have hstep : ∀ j js (s : SweepWorld),
      (∃ i ≤ w.hashSize, j :: js = List.range' i (w.hashSize - i) ∧ Between w base i s) →
      ∃ s', Halts (fun n => s.chainLoop behaviour n (s.fdHash j)) s' ∧
        ∃ i ≤ w.hashSize, js = List.range' i (w.hashSize - i) ∧ Between w base i s' := by
    rintro j js s ⟨i, hi, hrange, hb⟩
    obtain ⟨m, hm⟩ : ∃ m, w.hashSize - i = m + 1 := by
      have hlen := congrArg List.length hrange
      rw [List.length_cons, List.length_range'] at hlen
      exact ⟨js.length, hlen.symm⟩
    rw [hm, List.range'_succ] at hrange
    obtain ⟨rfl, rfl⟩ := List.cons_eq_cons.mp hrange
    obtain ⟨s', hhalts, hb'⟩ := hb.chain behaviour
    refine ⟨s', hhalts, j + 1, by omega, ?_, hb'⟩
    rw [show w.hashSize - (j + 1) = m by omega]
  obtain ⟨w', hhalts, i, hi, hrange, hb⟩ := halts_foldlM
    (fun n (s : SweepWorld) j => s.chainLoop behaviour n (s.fdHash j))
    (P := fun js s => ∃ i ≤ w.hashSize, js = List.range' i (w.hashSize - i) ∧ Between w base i s)
    hstep
    ⟨0, Nat.zero_le _, List.range_eq_range', Between.start h ht⟩
  have hend : i = w.hashSize := by
    have hlen := congrArg List.length hrange
    rw [List.length_nil, List.length_range'] at hlen
    omega
  subst hend
  exact ⟨w', hhalts, hb.table, hb.swept⟩

end Loop

/-- Two descriptors in one chain. -/
def pairOpened : SweepWorld := ((fdlistInit 256 100).fdOpen 1 5).fdOpen 2 261

/-- Both are due, and the handler of the first closes both. -/
def pairTable : SweepWorld :=
  (pairOpened.put 1 ((pairOpened.fde 1).setTimer 90 (some 8) .timeout)).put 2
    ((pairOpened.fde 2).setTimer 90 (some 7) .timeout)

def closePair : Behaviour := fun _ _ hdl =>
  if hdl = 7 then [.fdClose 1, .fdClose 2, .fdOpen 1 9] else []

theorem filing_pairTable : ∃ lists, pairTable.Filing LEAKED_FDS lists := by
  have hinit := filing_fdlistInit (show 0 < 256 by decide) 100
  have hopened := (hinit.fdOpen (F := 1) rfl 5).fdOpen (F := 2) rfl 261
  have hone := hopened.put (F := 1) (f := (pairOpened.fde 1).setTimer 90 (some 8) .timeout)
    rfl rfl rfl
  exact ⟨_, hone.put rfl rfl rfl⟩

theorem commChecktimeouts_swept_pair : ∃ w', Halts (pairTable.commChecktimeouts closePair) w' ∧
    (∃ lists', w'.Filing LEAKED_FDS lists') ∧ Swept pairTable w' := by
  obtain ⟨lists, h⟩ := filing_pairTable
  exact commChecktimeouts_swept closePair h rfl

end SweepWorld

end Unirc
