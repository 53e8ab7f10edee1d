import Mathlib.Logic.Function.Basic
import Mathlib.Tactic.Common

/-!
# Transducers and pipes

A function on streams, given by what a state and one letter put out. The outputs of two pieces of
a stream are put side by side, and two transducers in a row are one. A pipe reads pieces of a stream
and writes their image, and its log tells what it read and wrote.
-/

/-- The output for a letter, with the state after it. -/
structure Transducer (σ α β : Type*) where
  step : σ → α → List β × σ

namespace Transducer

variable {σ τ α β γ : Type*}

def run (M : Transducer σ α β) : σ → List α → List β × σ
  | s, [] => ([], s)
  | s, a :: l => ((M.step s a).1 ++ (M.run (M.step s a).2 l).1, (M.run (M.step s a).2 l).2)

@[simp]
theorem run_nil (M : Transducer σ α β) (s : σ) : M.run s [] = ([], s) := rfl

theorem run_cons (M : Transducer σ α β) (s : σ) (a : α) (l : List α) :
    M.run s (a :: l) =
      ((M.step s a).1 ++ (M.run (M.step s a).2 l).1, (M.run (M.step s a).2 l).2) := rfl

theorem run_append (M : Transducer σ α β) (s : σ) (l m : List α) :
    M.run s (l ++ m) = ((M.run s l).1 ++ (M.run (M.run s l).2 m).1, (M.run (M.run s l).2 m).2) := by
  induction l generalizing s with
  | nil => rfl
  | cons a l ih => rw [List.cons_append, run_cons, ih, run_cons, List.append_assoc]

theorem run_singleton (M : Transducer σ α β) (s : σ) (a : α) : M.run s [a] = M.step s a := by
  rw [run_cons, run_nil, List.append_nil]

/-- One letter for a letter. -/
def Lengthwise (M : Transducer σ α β) : Prop := ∀ s a, (M.step s a).1.length = 1

theorem Lengthwise.length_run {M : Transducer σ α β} (h : M.Lengthwise) (s : σ) (l : List α) :
    (M.run s l).1.length = l.length := by
  induction l generalizing s with
  | nil => rfl
  | cons a l ih => rw [run_cons, List.length_append, h, ih, List.length_cons, Nat.add_comm]

/-- The second one reads what the first one puts out. -/
def comp (M : Transducer σ α β) (N : Transducer τ β γ) : Transducer (σ × τ) α γ where
  step s a := ((N.run s.2 (M.step s.1 a).1).1, (M.step s.1 a).2, (N.run s.2 (M.step s.1 a).1).2)

theorem run_comp (M : Transducer σ α β) (N : Transducer τ β γ) (s : σ) (t : τ) (l : List α) :
    (M.comp N).run (s, t) l =
      ((N.run t (M.run s l).1).1, (M.run s l).2, (N.run t (M.run s l).1).2) := by
  induction l generalizing s t with
  | nil => rfl
  | cons a l ih =>
      rw [run_cons, run_cons, run_append]
      simp only [comp] at ih ⊢
      rw [ih]

/-- The state in the other order. -/
def swap (M : Transducer (σ × τ) α β) : Transducer (τ × σ) α β where
  step s a := ((M.step s.swap a).1, (M.step s.swap a).2.swap)

theorem run_swap (M : Transducer (σ × τ) α β) (s : τ × σ) (l : List α) :
    M.swap.run s l = ((M.run s.swap l).1, (M.run s.swap l).2.swap) := by
  induction l generalizing s with
  | nil => rfl
  | cons a l ih =>
      rw [run_cons, run_cons]
      simp only [swap] at ih ⊢
      rw [ih, Prod.swap_swap]

/-- The letters themselves. -/
def pass : Transducer σ α α := ⟨fun s a => ([a], s)⟩

@[simp]
theorem run_pass (s : σ) (l : List α) : (pass : Transducer σ α α).run s l = (l, s) := by
  induction l with
  | nil => rfl
  | cons a l ih =>
      rw [run_cons, show (pass : Transducer σ α α).step s a = ([a], s) from rfl, ih]
      rfl

/-- A transducer on the letters of the words it is given. -/
def onWords (M : Transducer σ α β) : Transducer σ (List α) β := ⟨fun s w => M.run s w⟩

theorem onWords_step (M : Transducer σ α β) (s : σ) (w : List α) :
    M.onWords.step s w = M.run s w := rfl

theorem run_onWords (M : Transducer σ α β) (s : σ) (ws : List (List α)) :
    M.onWords.run s ws = M.run s ws.flatten := by
  induction ws generalizing s with
  | nil => rfl
  | cons w ws ih =>
      rw [run_cons, List.flatten_cons, run_append, ← ih, onWords_step]

end Transducer

/-- What a pipe does: it reads a piece, and it writes some letters. -/
inductive PipeOp (α β : Type*) where
  | read (chunk : List α)
  | wrote (letters : List β)

namespace PipeOp

variable {α β : Type*}

def chunk? : PipeOp α β → Option (List α)
  | read chunk => some chunk
  | wrote _ => none

def letters : PipeOp α β → List β
  | read _ => []
  | wrote letters => letters

/-- The pieces that were read. -/
def chunks (log : List (PipeOp α β)) : List (List α) := log.filterMap chunk?

/-- All that was written. -/
def written (log : List (PipeOp α β)) : List β := log.flatMap letters

theorem chunks_append_read (log : List (PipeOp α β)) (chunk : List α) :
    chunks (log ++ [read chunk]) = chunks log ++ [chunk] := by
  rw [chunks, List.filterMap_append]
  rfl

theorem chunks_append_wrote (log : List (PipeOp α β)) (l : List β) :
    chunks (log ++ [wrote l]) = chunks log := by
  rw [chunks, List.filterMap_append]
  exact List.append_nil _

theorem written_append_read (log : List (PipeOp α β)) (chunk : List α) :
    written (log ++ [read chunk]) = written log := by
  rw [written, List.flatMap_append]
  exact List.append_nil _

theorem written_append_wrote (log : List (PipeOp α β)) (l : List β) :
    written (log ++ [wrote l]) = written log ++ l := by
  rw [written, List.flatMap_append, List.flatMap_singleton]
  rfl

/-- What was written, with what is left to write, is the image of what was read; and at each read
nothing was left. -/
structure Carries (image : List (List α) → List β) (log : List (PipeOp α β)) (left : List β) :
    Prop where
  whole : written log ++ left = image (chunks log)
  drained : ∀ before chunk after, log = before ++ read chunk :: after →
    written before = image (chunks before)

namespace Carries

variable {image : List (List α) → List β} {log : List (PipeOp α β)} {left : List β}

theorem start (h : image [] = []) : Carries image [] [] where
  whole := h.symm
  drained before chunk after heq := by
    cases before <;> cases heq

theorem read (h : Carries image log []) (chunk : List α) {out : List β}
    (hout : image (chunks log ++ [chunk]) = image (chunks log) ++ out) :
    Carries image (log ++ [.read chunk]) out where
  whole := by
    rw [written_append_read, chunks_append_read, hout, ← h.whole, List.append_nil]
  drained before chunk' after heq := by
    rcases List.eq_nil_or_concat after with rfl | ⟨after', op, rfl⟩
    · have hsplit := List.append_inj_left' heq rfl
      rw [← hsplit, ← h.whole, List.append_nil]
    · rw [List.concat_eq_append, ← List.cons_append, ← List.append_assoc] at heq
      exact h.drained before chunk' after' (List.append_inj_left' heq rfl)

theorem wrote {out : List β} (h : Carries image log (out ++ left)) :
    Carries image (log ++ [.wrote out]) left where
  whole := by rw [written_append_wrote, chunks_append_wrote, List.append_assoc, h.whole]
  drained before chunk after heq := by
    rcases List.eq_nil_or_concat after with rfl | ⟨after', op, rfl⟩
    · cases List.append_inj_right' heq rfl
    · rw [List.concat_eq_append, ← List.cons_append, ← List.append_assoc] at heq
      exact h.drained before chunk after' (List.append_inj_left' heq rfl)

theorem isPrefix (h : Carries image log left) : written log <+: image (chunks log) :=
  ⟨left, h.whole⟩

end Carries

end PipeOp
