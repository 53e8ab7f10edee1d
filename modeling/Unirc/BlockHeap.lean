import Mathlib.Algebra.Order.BigOperators.Group.List
import Mathlib.Algebra.Ring.Int.Defs
import Unirc.PointerChain

/-!
# Block heaps

`balloc.c`: elements of one size are handed out from blocks, each with its list of free elements;
a block that is all free is given back by the garbage collection. The records of the blocks are at
pointers of a finite type, and the elements at addresses.
-/

namespace Unirc

open PointerChain

/-- `sizeof(MemBlock)`: a node and the pointer to the block, in front of every element. -/
abbrev sizeofMemBlock : ℕ := 32

inductive HeapFault
  | outofmemory
  | invalid
  deriving DecidableEq, Repr

/-- A block apart from its link. -/
structure Block where
  freeElems : ℤ
  elems : ℕ
  allocSize : ℕ
  freeList : List ℕ

structure BlockHeap (β : Type*) where
  elemSize : ℕ
  elemsPerBlock : ℕ
  freeElems : ℤ
  blocksAllocated : ℤ
  base : Option β
  block : β → Option Block
  next : β → Option β
  owner : ℕ → Option β

/-- What `calloc` and `get_block` return to `newblock`. -/
abbrev NewMemory (β : Type*) := Option (β × Option ℕ)

namespace BlockHeap

variable {β : Type*}

def stride (h : BlockHeap β) : ℕ := h.elemSize + sizeofMemBlock

/-- `data` of the element `i` of the memory at `elems`. -/
def data (h : BlockHeap β) (elems i : ℕ) : ℕ := elems + i * h.stride + sizeofMemBlock

def Holds (k : Block) (p : ℕ) : Prop := k.elems ≤ p ∧ p < k.elems + k.allocSize

instance (k : Block) (p : ℕ) : Decidable (Holds k p) := inferInstanceAs (Decidable (_ ∧ _))

/-- `free_block`, after which nothing can be read there. -/
def freeBlock (h : BlockHeap β) (k : Block) : BlockHeap β :=
  { h with owner := fun p => if Holds k p then none else h.owner p }

variable [DecidableEq β]

/-- `newblock`; `none` is the return value 1. -/
def newblock (h : BlockHeap β) : NewMemory β → Option (BlockHeap β)
  | some (b, some elems) =>
      let setup := (List.range h.elemsPerBlock).foldl
        (fun s i => (h.data elems i :: s.1,
          Function.update s.2 (h.data elems i - sizeofMemBlock) (some b)))
        (([] : List ℕ), h.owner)
      some { h with
        freeElems := h.freeElems + h.elemsPerBlock
        blocksAllocated := h.blocksAllocated + 1
        base := some b
        block := Function.update h.block b
          (some ⟨h.elemsPerBlock, elems, h.elemsPerBlock * h.stride, setup.1⟩)
        next := Function.update h.next b h.base
        owner := setup.2 }
  | _ => none

/-- `BlockHeapCreate`. -/
def blockHeapCreate (elemsize elemsperblock : ℕ) (m : NewMemory β) :
    Except HeapFault (BlockHeap β) :=
  if elemsize = 0 ∨ elemsperblock = 0 then .error .outofmemory
  else
    let elemSize := if elemsize % 8 ≠ 0 then (elemsize + 8) / 8 * 8 else elemsize
    match newblock ⟨elemSize, elemsperblock, 0, 0, none, fun _ => none, fun _ => none,
      fun _ => none⟩ m with
    | some h => .ok h
    | none => .error .outofmemory

/-- The loop of the garbage collection, at `walker` behind `last`. -/
def collectLoop : ℕ → BlockHeap β → Option β → Option β → Except HeapFault (BlockHeap β)
  | _, h, _, none => .ok h
  | 0, _, _, some _ => .error .invalid
  | n + 1, h, last, some w =>
      match h.block w with
      | none => .error .invalid
      | some k =>
          if k.freeElems = h.elemsPerBlock then
            let after := h.next w
            let h := freeBlock h k
            match last with
            | some l =>
                if h.block l = none then .error .invalid
                else collectLoop n { h with
                  next := Function.update h.next l after
                  block := Function.update h.block w none
                  blocksAllocated := h.blocksAllocated - 1
                  freeElems := h.freeElems - h.elemsPerBlock } last after
            | none => collectLoop n { h with
                base := after
                block := Function.update h.block w none
                blocksAllocated := h.blocksAllocated - 1
                freeElems := h.freeElems - h.elemsPerBlock } none after
          else collectLoop n h (some w) (h.next w)

/-- The loop of `BlockHeapAlloc`, at `walker`. -/
def allocLoop : ℕ → BlockHeap β → Option β → Except HeapFault (BlockHeap β × ℕ)
  | _, _, none => .error .invalid
  | 0, _, some _ => .error .invalid
  | n + 1, h, some w =>
      match h.block w with
      | none => .error .invalid
      | some k =>
          if 0 < k.freeElems then
            match k.freeList with
            | [] => .error .invalid
            | p :: rest => .ok ({ h with
                freeElems := h.freeElems - 1
                block := Function.update h.block w
                  (some { k with freeElems := k.freeElems - 1, freeList := rest }) }, p)
          else allocLoop n h (h.next w)

/-- `BlockHeapFree`. -/
def blockHeapFree (h : BlockHeap β) (p : ℕ) : Except HeapFault (BlockHeap β) :=
  match h.owner (p - sizeofMemBlock) with
  | none => .error .invalid
  | some b =>
      match h.block b with
      | none => .error .invalid
      | some k => .ok { h with
          freeElems := h.freeElems + 1
          block := Function.update h.block b
            (some { k with freeElems := k.freeElems + 1, freeList := p :: k.freeList }) }

variable [Fintype β]

/-- `BlockHeapGarbageCollect`. -/
def blockHeapGarbageCollect (h : BlockHeap β) : Except HeapFault (BlockHeap β) :=
  if h.freeElems < h.elemsPerBlock ∨ h.blocksAllocated = 1 then .ok h
  else collectLoop (Fintype.card β) h none h.base

/-- The start of `BlockHeapAlloc`, with the memory for the first and the second call of
`newblock`. -/
def refill (h : BlockHeap β) (m₁ m₂ : NewMemory β) : Except HeapFault (BlockHeap β) :=
  if h.freeElems = 0 then
    match newblock h m₁ with
    | some h => .ok h
    | none =>
        match blockHeapGarbageCollect h with
        | .error e => .error e
        | .ok h =>
            match newblock h m₂ with
            | some h => .ok h
            | none => .error .outofmemory
  else .ok h

/-- `BlockHeapAlloc`. -/
def blockHeapAlloc (h : BlockHeap β) (m₁ m₂ : NewMemory β) :
    Except HeapFault (BlockHeap β × ℕ) := do
  let h ← refill h m₁ m₂
  allocLoop (Fintype.card β) h h.base

end BlockHeap

open BlockHeap

/-- A heap and the elements that are handed out. -/
structure HeapRun (β : Type*) where
  heap : BlockHeap β
  allocated : List ℕ

inductive HeapEvent (β : Type*)
  | alloc (m₁ m₂ : NewMemory β)
  | free (p : ℕ)
  | collect

namespace HeapRun

variable {β : Type*} [DecidableEq β] [Fintype β]

def step (s : HeapRun β) : HeapEvent β → Except HeapFault (HeapRun β)
  | .alloc m₁ m₂ => do
      let (h, p) ← blockHeapAlloc s.heap m₁ m₂
      return ⟨h, p :: s.allocated⟩
  | .free p => do
      let h ← blockHeapFree s.heap p
      return ⟨h, s.allocated.erase p⟩
  | .collect => do
      let h ← blockHeapGarbageCollect s.heap
      return ⟨h, s.allocated⟩

end HeapRun

/-- The system hands out memory that is not in use. -/
def BlockHeap.Fresh {β : Type*} (h : BlockHeap β) (m : NewMemory β) : Prop :=
  ∀ b ∈ m, h.block b.1 = none ∧ ∀ elems ∈ b.2, ∀ c k, h.block c = some k →
    elems + h.elemsPerBlock * h.stride ≤ k.elems ∨ k.elems + k.allocSize ≤ elems

/-- What the callers and the system promise. -/
def HeapRun.Legal {β : Type*} [DecidableEq β] [Fintype β] (s : HeapRun β) : HeapEvent β → Prop
  | .alloc m₁ m₂ => s.heap.Fresh m₁ ∧ ∀ h, blockHeapGarbageCollect s.heap = .ok h → h.Fresh m₂
  | .free p => p ∈ s.allocated
  | .collect => True

/-- The runs from a heap that was just created. -/
inductive HeapRun.Reachable {β : Type*} [DecidableEq β] [Fintype β] : HeapRun β → Prop
  | create {elemsize elemsperblock : ℕ} {m : NewMemory β} {h : BlockHeap β}
      (hcreate : blockHeapCreate elemsize elemsperblock m = .ok h) : Reachable ⟨h, []⟩
  | step {s s' : HeapRun β} {e : HeapEvent β} (hs : Reachable s) (hlegal : s.Legal e)
      (hstep : s.step e = .ok s') : Reachable s'

namespace BlockHeap

variable {β : Type*} {h : BlockHeap β} {k : Block} {p : ℕ}

/-- The elements of a block. -/
def elements (h : BlockHeap β) (k : Block) : List ℕ :=
  (List.range h.elemsPerBlock).map (h.data k.elems)

/-- The free count of the block at a pointer. -/
def frees (h : BlockHeap β) (b : β) : ℤ := ((h.block b).map Block.freeElems).getD 0

theorem data_injective (h : BlockHeap β) (elems : ℕ) : Function.Injective (h.data elems) := by
  intro i j hij
  have hpos : 0 < h.stride := Nat.add_pos_right _ (by decide)
  have : i * h.stride = j * h.stride := by rw [data, data] at hij; omega
  exact Nat.eq_of_mul_eq_mul_right hpos this

theorem nodup_elements (h : BlockHeap β) (k : Block) : (h.elements k).Nodup :=
  List.nodup_range.map (h.data_injective k.elems)

theorem holds_of_mem (hsize : k.allocSize = h.elemsPerBlock * h.stride) (hpos : 0 < h.elemSize)
    (hp : p ∈ h.elements k) : Holds k p ∧ Holds k (p - sizeofMemBlock) ∧ sizeofMemBlock ≤ p := by
  obtain ⟨i, hi, rfl⟩ := List.mem_map.mp hp
  have hmul : (i + 1) * h.stride ≤ h.elemsPerBlock * h.stride :=
    Nat.mul_le_mul_right _ (List.mem_range.mp hi)
  have hstride : h.stride = h.elemSize + 32 := rfl
  rw [Nat.succ_mul] at hmul
  simp only [Holds, data, sizeofMemBlock] at *
  omega

/-- What the loop of `newblock` sets up. -/
theorem setup_spec (h : BlockHeap β) (b : β) (elems : ℕ) (is : List ℕ)
    (s : List ℕ × (ℕ → Option β)) :
    let setup := is.foldl (fun s i => (h.data elems i :: s.1,
      Function.update s.2 (h.data elems i - sizeofMemBlock) (some b))) s
    setup.1 = (is.map (h.data elems)).reverse ++ s.1 ∧
      ∀ q, setup.2 q = if ∃ p ∈ is.map (h.data elems), q = p - sizeofMemBlock then some b
        else s.2 q := by
  induction is generalizing s with
  | nil => exact ⟨rfl, fun q => by simp⟩
  | cons i is ih =>
      obtain ⟨hlist, howner⟩ := ih (h.data elems i :: s.1,
        Function.update s.2 (h.data elems i - sizeofMemBlock) (some b))
      refine ⟨by rw [List.foldl_cons, hlist]; simp, fun q => ?_⟩
      rw [List.foldl_cons, howner q]
      dsimp only
      rw [Function.update_apply]
      by_cases hq : q = h.data elems i - sizeofMemBlock
      · rw [if_pos hq, ite_self, List.map_cons, if_pos ⟨_, List.mem_cons_self, hq⟩]
      · simp only [List.map_cons, List.exists_mem_cons_iff, hq, false_or, if_false]

end BlockHeap

/-- A block and its element lists. -/
structure BlockInv {β : Type*} (h : BlockHeap β) (allocated : List ℕ) (b : β) (k : Block) :
    Prop where
  size : k.allocSize = h.elemsPerBlock * h.stride
  count : k.freeElems = k.freeList.length
  nodup : k.freeList.Nodup
  free : ∀ p, p ∈ k.freeList ↔ p ∈ h.elements k ∧ p ∉ allocated
  owner : ∀ p ∈ h.elements k, h.owner (p - sizeofMemBlock) = some b

/-- The heap's list is `l`, and every element is free or handed out. -/
structure HeapRun.Inv {β : Type*} (s : HeapRun β) (l : List β) : Prop where
  pos : 0 < s.heap.elemSize ∧ 0 < s.heap.elemsPerBlock
  chain : Chain s.heap.next s.heap.base l
  live : ∀ b, b ∈ l ↔ ∃ k, s.heap.block b = some k
  block : ∀ b k, s.heap.block b = some k → BlockInv s.heap s.allocated b k
  apart : ∀ b c k k', s.heap.block b = some k → s.heap.block c = some k' → b ≠ c →
    k.elems + k.allocSize ≤ k'.elems ∨ k'.elems + k'.allocSize ≤ k.elems
  held : ∀ p ∈ s.allocated, ∃ b k, s.heap.block b = some k ∧ p ∈ s.heap.elements k
  nodup : s.allocated.Nodup
  freeElems : s.heap.freeElems = (l.map s.heap.frees).sum
  blocksAllocated : s.heap.blocksAllocated = l.length

namespace HeapRun.Inv

variable {β : Type*} {h : BlockHeap β} {allocated : List ℕ} {l : List β} {b c : β} {k k' : Block}
  {p : ℕ}

theorem holds (hinv : Inv ⟨h, allocated⟩ l) (hb : h.block b = some k) (hp : p ∈ h.elements k) :
    Holds k p ∧ Holds k (p - sizeofMemBlock) ∧ sizeofMemBlock ≤ p :=
  holds_of_mem (hinv.block b k hb).size hinv.pos.1 hp

/-- An address is held by one block. -/
theorem holds_unique (hinv : Inv ⟨h, allocated⟩ l) (hb : h.block b = some k)
    (hc : h.block c = some k') (hp : Holds k p) (hp' : Holds k' p) : b = c := by
  by_contra hne
  have := hinv.apart b c k k' hb hc hne
  rw [Holds] at hp hp'
  omega

variable [DecidableEq β]

omit [DecidableEq β] in
theorem elements_disjoint (hinv : Inv ⟨h, allocated⟩ l) (hb : h.block b = some k)
    (hc : h.block c = some k') (hne : b ≠ c) (hp : p ∈ h.elements k) : p ∉ h.elements k' :=
  fun hp' => hne (hinv.holds_unique hb hc (hinv.holds hb hp).1 (hinv.holds hc hp').1)

theorem sum_update {f g : β → ℤ} (hl : l.Nodup) (hb : b ∈ l) (hfg : ∀ c, c ≠ b → g c = f c) :
    (l.map g).sum = (l.map f).sum + (g b - f b) := by
  have hrest : (l.erase b).map g = (l.erase b).map f :=
    List.map_congr_left fun c hc => hfg c ((hl.mem_erase_iff.mp hc).1)
  rw [← List.sum_map_erase g hb, ← List.sum_map_erase f hb, hrest]
  omega

omit [DecidableEq β] in
theorem frees_eq (hb : h.block b = some k) : h.frees b = k.freeElems := by
  rw [frees, hb]
  rfl

/-- The list and the count of one block are written. -/
theorem setBlock (k' : Block) (allocated' : List ℕ) (hinv : Inv ⟨h, allocated⟩ l)
    (hb : h.block b = some k) (hk : BlockInv h allocated' b k') (helems : k'.elems = k.elems)
    (hout : ∀ p ∉ h.elements k, p ∈ allocated' ↔ p ∈ allocated) (hnodup : allocated'.Nodup) :
    Inv ⟨{ h with
      freeElems := h.freeElems + (k'.freeElems - k.freeElems)
      block := Function.update h.block b (some k') }, allocated'⟩ l := by
  have helements : h.elements k' = h.elements k := by rw [elements, helems, elements]
  have hsize : k'.allocSize = k.allocSize := hk.size.trans (hinv.block b k hb).size.symm
  have hcase : ∀ {c m}, Function.update h.block b (some k') c = some m →
      c = b ∧ m = k' ∨ c ≠ b ∧ h.block c = some m := by
    intro c m hc
    rw [Function.update_apply] at hc
    split at hc
    · rename_i hcb
      exact .inl ⟨hcb, (Option.some.inj hc).symm⟩
    · rename_i hcb
      exact .inr ⟨hcb, hc⟩
  refine ⟨hinv.pos, hinv.chain, fun c => ?_, fun c m hc => ?_, fun c d m m' hc hd hne => ?_,
    fun p hp => ?_, hnodup, ?_, hinv.blocksAllocated⟩
  · rw [hinv.live c]
    by_cases hcb : c = b
    · subst hcb
      exact iff_of_true ⟨k, hb⟩ ⟨k', Function.update_self ..⟩
    · dsimp only
      rw [Function.update_of_ne hcb]
  · rcases hcase hc with ⟨rfl, rfl⟩ | ⟨hcb, hc⟩
    · exact ⟨hk.size, hk.count, hk.nodup, hk.free, hk.owner⟩
    · have hm := hinv.block c m hc
      refine ⟨hm.size, hm.count, hm.nodup, fun p => (hm.free p).trans ?_, hm.owner⟩
      exact and_congr_right fun hp =>
        not_congr (hout p (hinv.elements_disjoint hc hb hcb hp)).symm
  · rcases hcase hc with ⟨rfl, rfl⟩ | ⟨-, hc'⟩ <;> rcases hcase hd with ⟨rfl, rfl⟩ | ⟨-, hd'⟩
    · exact absurd rfl hne
    · rw [helems, hsize]
      exact hinv.apart _ _ _ _ hb hd' hne
    · rw [helems, hsize]
      exact hinv.apart _ _ _ _ hc' hb hne
    · exact hinv.apart _ _ _ _ hc' hd' hne
  · by_cases hpk : p ∈ h.elements k
    · exact ⟨b, k', Function.update_self .., helements ▸ hpk⟩
    · obtain ⟨c, m, hc, hpm⟩ := hinv.held p ((hout p hpk).mp hp)
      have hcb : c ≠ b := by
        rintro rfl
        rw [Option.some.inj (hc.symm.trans hb)] at hpm
        exact hpk hpm
      exact ⟨c, m, (Function.update_of_ne hcb ..).trans hc, hpm⟩
  · have hsum := sum_update (f := h.frees) (g := frees { h with
        freeElems := h.freeElems + (k'.freeElems - k.freeElems)
        block := Function.update h.block b (some k') }) hinv.chain.nodup
        ((hinv.live b).mpr ⟨k, hb⟩) fun c hc => by
      rw [frees, frees]
      dsimp only
      rw [Function.update_of_ne hc]
    have hnew : frees { h with
        freeElems := h.freeElems + (k'.freeElems - k.freeElems)
        block := Function.update h.block b (some k') } b = k'.freeElems :=
      frees_eq (Function.update_self ..)
    rw [hsum, hnew, frees_eq hb, ← hinv.freeElems]

/-- A free element is handed out. -/
theorem take (hinv : Inv ⟨h, allocated⟩ l) (hb : h.block b = some k) {rest : List ℕ}
    (hfree : k.freeList = p :: rest) :
    p ∉ allocated ∧ Inv ⟨{ h with
      freeElems := h.freeElems - 1
      block := Function.update h.block b
        (some { k with freeElems := k.freeElems - 1, freeList := rest }) }, p :: allocated⟩ l := by
  have hk := hinv.block b k hb
  obtain ⟨hpk, hp⟩ := (hk.free p).mp (hfree ▸ List.mem_cons_self)
  have hnd := hk.nodup
  have hcount := hk.count
  rw [hfree] at hnd hcount
  rw [List.length_cons] at hcount
  obtain ⟨hprest, hnd⟩ := List.nodup_cons.mp hnd
  refine ⟨hp, ?_⟩
  have := hinv.setBlock { k with freeElems := k.freeElems - 1, freeList := rest }
    (p :: allocated) hb
    ⟨hk.size, by dsimp only; omega, hnd, fun q => ?_, hk.owner⟩ rfl (fun q hq => ?_)
    (List.nodup_cons.mpr ⟨hp, hinv.nodup⟩)
  · simpa only [sub_sub_cancel_left, ← sub_eq_add_neg] using this
  · have hq := hk.free q
    rw [hfree, List.mem_cons] at hq
    rw [List.mem_cons, not_or]
    constructor
    · intro hqrest
      obtain ⟨hqk, hqa⟩ := hq.mp (.inr hqrest)
      exact ⟨hqk, fun he => hprest (he ▸ hqrest), hqa⟩
    · rintro ⟨hqk, hne, hqa⟩
      exact (hq.mpr ⟨hqk, hqa⟩).resolve_left hne
  · rw [List.mem_cons, or_iff_right]
    rintro rfl
    exact hq hpk

theorem free (hinv : Inv ⟨h, allocated⟩ l) (hp : p ∈ allocated) :
    ∃ h', blockHeapFree h p = .ok h' ∧ Inv ⟨h', allocated.erase p⟩ l := by
  obtain ⟨b, k, hb, hpk⟩ := hinv.held p hp
  have hk := hinv.block b k hb
  have hne : ∀ q ∉ h.elements k, q ∈ allocated.erase p ↔ q ∈ allocated := fun q hq =>
    List.mem_erase_of_ne fun he => hq (he ▸ hpk)
  rw [blockHeapFree, hk.owner p hpk]
  dsimp only at hb ⊢
  rw [hb]
  refine ⟨_, rfl, ?_⟩
  have := hinv.setBlock { k with freeElems := k.freeElems + 1, freeList := p :: k.freeList }
    (allocated.erase p) hb
    ⟨hk.size, ?_, ?_, fun q => ?_, hk.owner⟩ rfl hne (hinv.nodup.erase p)
  · simpa only [add_sub_cancel_left] using this
  · have := hk.count
    dsimp only
    rw [List.length_cons]
    omega
  · exact List.nodup_cons.mpr ⟨fun hpf => ((hk.free p).mp hpf).2 hp, hk.nodup⟩
  · have hfree := hk.free q
    have herase := hinv.nodup.mem_erase_iff (a := q) (b := p)
    have hq : q = p → q ∈ h.elements k := fun he => he ▸ hpk
    dsimp only at hfree herase hq ⊢
    rw [List.mem_cons]
    change _ ↔ q ∈ h.elements k ∧ _
    tauto

theorem newblock_eq {elems : ℕ} (hinv : Inv ⟨h, allocated⟩ l)
    (hfresh : h.Fresh (some (b, some elems))) :
    ∃ h', newblock h (some (b, some elems)) = some h' ∧ Inv ⟨h', allocated⟩ (b :: l) ∧
      h'.freeElems = h.freeElems + h.elemsPerBlock := by
  obtain ⟨hb, hfresh⟩ := hfresh _ rfl
  have hapart := hfresh elems rfl
  obtain ⟨hlist, howner⟩ := h.setup_spec b elems (List.range h.elemsPerBlock) ([], h.owner)
  refine ⟨_, rfl, ?_, rfl⟩
  generalize List.foldl _ _ _ = setup at hlist howner ⊢
  rw [List.append_nil] at hlist
  generalize hK : (⟨h.elemsPerBlock, elems, h.elemsPerBlock * h.stride, setup.1⟩ : Block) = K
  have hKelements : h.elements K = (List.range h.elemsPerBlock).map (h.data elems) := by
    rw [← hK, elements]
  have hKsize : K.allocSize = h.elemsPerBlock * h.stride := by rw [← hK]
  have hKelems : K.elems = elems := by rw [← hK]
  have hKfree : K.freeList = (h.elements K).reverse := by rw [hKelements, ← hlist, ← hK]
  have hbl : b ∉ l := fun hm => by
    obtain ⟨k, hk⟩ := (hinv.live b).mp hm
    exact nomatch hk.symm.trans hb
  have hout : ∀ {c m q}, h.block c = some m → Holds m q → ¬ Holds K q := by
    intro c m q hc hq hq'
    have := hapart c m hc
    rw [Holds] at hq hq'
    omega
  have hKholds : ∀ p ∈ h.elements K, Holds K p ∧ Holds K (p - sizeofMemBlock) := fun p hp =>
    ⟨(holds_of_mem hKsize hinv.pos.1 hp).1, (holds_of_mem hKsize hinv.pos.1 hp).2.1⟩
  have hcase : ∀ {c m}, Function.update h.block b (some K) c = some m →
      c = b ∧ m = K ∨ h.block c = some m := by
    intro c m hc
    rw [Function.update_apply] at hc
    split at hc
    · rename_i hcb
      exact .inl ⟨hcb, (Option.some.inj hc).symm⟩
    · exact .inr hc
  have hold : ∀ {c m}, h.block c = some m → c ≠ b := by
    rintro c m hc rfl
    exact nomatch hc.symm.trans hb
  refine ⟨hinv.pos, hinv.chain.push hbl, fun c => ?_, fun c m hc => ?_,
    fun c d m m' hc hd hne => ?_, fun p hp => ?_, hinv.nodup, ?_, ?_⟩
  · rw [List.mem_cons, hinv.live c]
    by_cases hcb : c = b
    · subst hcb
      exact iff_of_true (.inl rfl) ⟨K, Function.update_self ..⟩
    · dsimp only
      rw [or_iff_right hcb, Function.update_of_ne hcb]
  · rcases hcase hc with ⟨rfl, rfl⟩ | hc
    · refine ⟨hKsize, ?_, hKfree ▸ List.nodup_reverse.mpr (h.nodup_elements m), fun p => ?_,
        fun p hp => ?_⟩
      · rw [hKfree, List.length_reverse, hKelements, List.length_map, List.length_range, ← hK]
      · rw [hKfree, List.mem_reverse]
        refine (and_iff_left_of_imp fun hp hpa => ?_).symm
        obtain ⟨d, k, hd, hpk⟩ := hinv.held p hpa
        exact hout hd (hinv.holds hd hpk).1 (hKholds p hp).1
      · exact (howner _).trans (if_pos ⟨p, hKelements ▸ hp, rfl⟩)
    · have hm := hinv.block c m hc
      refine ⟨hm.size, hm.count, hm.nodup, hm.free, fun p hp => ?_⟩
      refine ((howner _).trans (if_neg ?_)).trans (hm.owner p hp)
      rintro ⟨q, hq, he⟩
      rw [← hKelements] at hq
      exact hout hc (hinv.holds hc hp).2.1 (he ▸ (hKholds q hq).2)
  · rcases hcase hc with ⟨rfl, rfl⟩ | hc' <;> rcases hcase hd with ⟨rfl, rfl⟩ | hd'
    · exact absurd rfl hne
    · have := hapart d m' hd'
      omega
    · have := hapart c m hc'
      omega
    · exact hinv.apart _ _ _ _ hc' hd' hne
  · obtain ⟨c, m, hc, hpm⟩ := hinv.held p hp
    exact ⟨c, m, (Function.update_of_ne (hold hc) ..).trans hc, hpm⟩
  · have hsame : ∀ {h' : BlockHeap β}, h'.block = Function.update h.block b (some K) →
        (l.map h'.frees).sum = (l.map h.frees).sum ∧ h'.frees b = h.elemsPerBlock := by
      intro h' hblock
      refine ⟨congrArg _ (List.map_congr_left fun c hc => ?_), ?_⟩
      · rw [frees, frees, hblock, Function.update_of_ne (ne_of_mem_of_not_mem hc hbl)]
      · have := frees_eq (h := h') (k := K) (b := b) (by rw [hblock, Function.update_self])
        rw [this, ← hK]
    have htotal := hinv.freeElems
    rw [List.map_cons, List.sum_cons, (hsame rfl).1, (hsame rfl).2]
    dsimp only at *
    omega
  · have hcount := hinv.blocksAllocated
    rw [List.length_cons]
    dsimp only at *
    omega

/-- A block that is all free leaves the list. -/
theorem eraseBlock (base' : Option β) (next' : β → Option β) (hinv : Inv ⟨h, allocated⟩ l)
    (hb : h.block b = some k) (hfree : k.freeElems = h.elemsPerBlock)
    (hchain : Chain next' base' (l.erase b)) :
    Inv ⟨{ freeBlock h k with
      base := base'
      next := next'
      block := Function.update h.block b none
      blocksAllocated := h.blocksAllocated - 1
      freeElems := h.freeElems - h.elemsPerBlock }, allocated⟩ (l.erase b) := by
  have hk := hinv.block b k hb
  have hmem := (hinv.live b).mpr ⟨k, hb⟩
  have hall : ∀ p ∈ h.elements k, p ∉ allocated := by
    have hsub : k.freeList ⊆ h.elements k := fun p hp => ((hk.free p).mp hp).1
    have hlen : (h.elements k).length ≤ k.freeList.length := by
      have := hk.count
      simp only [elements, List.length_map, List.length_range]
      omega
    have hperm := (hk.nodup.subperm hsub).perm_of_length_le hlen
    exact fun p hp => ((hk.free p).mp (hperm.symm.subset hp)).2
  have hcase : ∀ {c m}, Function.update h.block b none c = some m → c ≠ b ∧ h.block c = some m := by
    intro c m hc
    rw [Function.update_apply] at hc
    split at hc
    · cases hc
    · rename_i hcb
      exact ⟨hcb, hc⟩
  refine ⟨hinv.pos, hchain, fun c => ?_, fun c m hc => ?_, fun c d m m' hc hd hne => ?_,
    fun p hp => ?_, hinv.nodup, ?_, ?_⟩
  · rw [hinv.chain.nodup.mem_erase_iff, hinv.live c]
    by_cases hcb : c = b
    · subst hcb
      refine iff_of_false (fun h => h.1 rfl) fun ⟨k, hk⟩ => (hcase hk).1 rfl
    · dsimp only
      rw [Function.update_of_ne hcb]
      exact and_iff_right hcb
  · obtain ⟨hcb, hc⟩ := hcase hc
    have hm := hinv.block c m hc
    refine ⟨hm.size, hm.count, hm.nodup, hm.free, fun p hp => ?_⟩
    have hout : ¬ Holds k (p - sizeofMemBlock) := fun hp' =>
      hcb (hinv.holds_unique hc hb (hinv.holds hc hp).2.1 hp')
    exact (if_neg hout).trans (hm.owner p hp)
  · exact hinv.apart _ _ _ _ (hcase hc).2 (hcase hd).2 hne
  · obtain ⟨c, m, hc, hpm⟩ := hinv.held p hp
    have hcb : c ≠ b := by
      rintro rfl
      rw [Option.some.inj (hc.symm.trans hb)] at hpm
      exact hall p hpm hp
    exact ⟨c, m, (Function.update_of_ne hcb ..).trans hc, hpm⟩
  · have hsame : (l.erase b).map (frees { freeBlock h k with
        base := base'
        next := next'
        block := Function.update h.block b none
        blocksAllocated := h.blocksAllocated - 1
        freeElems := h.freeElems - h.elemsPerBlock }) = (l.erase b).map h.frees := by
      refine List.map_congr_left fun c hc => ?_
      rw [frees, frees]
      dsimp only
      rw [Function.update_of_ne (hinv.chain.nodup.mem_erase_iff.mp hc).1]
    have hsum := List.sum_map_erase h.frees hmem
    have htotal := hinv.freeElems
    rw [frees_eq hb, hfree] at hsum
    rw [hsame]
    dsimp only at *
    omega
  · have hcount := hinv.blocksAllocated
    have hpos := List.length_pos_of_mem hmem
    rw [List.length_erase_of_mem hmem]
    dsimp only at *
    omega

/-- The collection, behind the blocks that stay. -/
theorem collectLoop_spec (l₁ : List β) {l₂ : List β} {n : ℕ} (hinv : Inv ⟨h, allocated⟩ (l₁ ++ l₂))
    (hn : l₂.length ≤ n) : ∃ h' l', collectLoop n h l₁.getLast? l₂.head? = .ok h' ∧
      Inv ⟨h', allocated⟩ l' ∧ ∀ c k, h'.block c = some k → h.block c = some k := by
  induction l₂ generalizing l₁ h n with
  | nil => exact ⟨h, l₁ ++ [], by cases n <;> rfl, hinv, fun _ _ hc => hc⟩
  | cons w l₂ ih =>
      obtain ⟨n, rfl⟩ : ∃ m, n = m + 1 := ⟨n - 1, by rw [List.length_cons] at hn; omega⟩
      have hn : l₂.length ≤ n := Nat.le_of_succ_le_succ hn
      obtain ⟨k, hk⟩ := (hinv.live w).mp (by simp)
      obtain ⟨m, -, -, hrest⟩ := segment_append.mp hinv.chain
      have hnext : h.next w = l₂.head? := Chain.head hrest
      have hnd := hinv.chain.nodup
      have hw : w ∉ l₁ := fun hw =>
        (List.nodup_append.mp hnd).2.2 w hw w List.mem_cons_self rfl
      have herase : (l₁ ++ w :: l₂).erase w = l₁ ++ l₂ := by
        rw [List.erase_append_right _ hw, List.erase_cons_head]
      rw [List.head?_cons, collectLoop]
      dsimp only at hk
      rw [hk]
      dsimp only
      by_cases hfree : k.freeElems = h.elemsPerBlock
      · rw [if_pos hfree]
        have hsub : ∀ c m, Function.update h.block w none c = some m → h.block c = some m := by
          intro c m hc
          rw [Function.update_apply] at hc
          split at hc
          · cases hc
          · exact hc
        rcases List.eq_nil_or_concat l₁ with rfl | ⟨l₁, a, rfl⟩
        · have hH := hinv.eraseBlock (h.next w) h.next hk hfree
            (by rw [herase]; exact hrest)
          rw [herase] at hH
          obtain ⟨h', l', hrun, hinv', hkeep⟩ := ih _ hH hn
          rw [List.getLast?_nil] at hrun ⊢
          dsimp only
          rw [hnext] at hrun ⊢
          exact ⟨h', l', hrun, hinv', fun c m hc => hsub c m (hkeep c m hc)⟩
        · rw [List.concat_eq_append] at *
          have hchain := hinv.chain
          rw [List.append_assoc] at hchain
          have hH := hinv.eraseBlock h.base (Function.update h.next a (h.next w)) hk hfree
            (by rw [herase, List.append_assoc]; exact hchain.unlink)
          rw [herase] at hH
          obtain ⟨h', l', hrun, hinv', hkeep⟩ := ih _ hH hn
          obtain ⟨ka, hka⟩ := (hinv.live a).mp (by simp)
          rw [List.getLast?_concat] at hrun ⊢
          dsimp only at hka ⊢
          rw [if_neg (by rw [freeBlock, hka]; exact nofun)]
          refine ⟨h', l', ?_, hinv', fun c m hc => hsub c m (hkeep c m hc)⟩
          rw [hnext] at hrun ⊢
          exact hrun
      · rw [if_neg hfree, hnext]
        have hH : Inv ⟨h, allocated⟩ ((l₁ ++ [w]) ++ l₂) := by
          rwa [List.append_assoc]
        obtain ⟨h', l', hrun, hinv', hkeep⟩ := ih _ hH hn
        rw [List.getLast?_concat] at hrun
        exact ⟨h', l', hrun, hinv', hkeep⟩

variable [Fintype β]

theorem collect (hinv : Inv ⟨h, allocated⟩ l) : ∃ h' l', blockHeapGarbageCollect h = .ok h' ∧
    Inv ⟨h', allocated⟩ l' ∧ ∀ c k, h'.block c = some k → h.block c = some k := by
  rw [blockHeapGarbageCollect]
  split
  · exact ⟨h, l, rfl, hinv, fun _ _ hc => hc⟩
  · have hhead : h.base = l.head? := Chain.head hinv.chain
    rw [hhead]
    exact collectLoop_spec [] hinv hinv.chain.length_le

omit [Fintype β] in
theorem allocLoop_spec {n : ℕ} {w : Option β} (hchain : Chain h.next w l) (hn : l.length ≤ n)
    (hlive : ∀ b ∈ l, ∃ k, h.block b = some k ∧ k.freeElems = k.freeList.length)
    (hsum : 0 < (l.map h.frees).sum) : ∃ b k p rest, h.block b = some k ∧
      k.freeList = p :: rest ∧ allocLoop n h w = .ok ({ h with
        freeElems := h.freeElems - 1
        block := Function.update h.block b
          (some { k with freeElems := k.freeElems - 1, freeList := rest }) }, p) := by
  induction l generalizing n w with
  | nil => exact absurd hsum (lt_irrefl 0)
  | cons b l ih =>
      obtain ⟨n, rfl⟩ : ∃ m, n = m + 1 := ⟨n - 1, by rw [List.length_cons] at hn; omega⟩
      obtain ⟨rfl, hchain⟩ := hchain
      obtain ⟨k, hb, hcount⟩ := hlive b List.mem_cons_self
      rw [allocLoop, hb]
      dsimp only
      by_cases hpos : 0 < k.freeElems
      · rw [if_pos hpos]
        obtain ⟨p, rest, hfree⟩ : ∃ p rest, k.freeList = p :: rest :=
          List.exists_cons_of_length_pos (by omega)
        rw [hfree]
        exact ⟨b, k, p, rest, hb, hfree, rfl⟩
      · rw [if_neg hpos]
        rw [List.map_cons, List.sum_cons, frees_eq hb] at hsum
        exact ih hchain (Nat.le_of_succ_le_succ hn)
          (fun c hc => hlive c (List.mem_cons_of_mem b hc)) (by omega)

omit [Fintype β] in
theorem newblock_cases (hinv : Inv ⟨h, allocated⟩ l) {m : NewMemory β} (hfresh : h.Fresh m) :
    newblock h m = none ∨ ∃ h' l', newblock h m = some h' ∧ Inv ⟨h', allocated⟩ l' ∧
      h'.freeElems = h.freeElems + h.elemsPerBlock := by
  match m, hfresh with
  | none, _ => exact .inl rfl
  | some (b, none), _ => exact .inl rfl
  | some (b, some elems), hfresh =>
      obtain ⟨h', hnew, hinv', hfree⟩ := hinv.newblock_eq hfresh
      exact .inr ⟨h', b :: l, hnew, hinv', hfree⟩

omit [DecidableEq β] [Fintype β] in
theorem freeElems_nonneg (hinv : Inv ⟨h, allocated⟩ l) : 0 ≤ h.freeElems := by
  have hsum := hinv.freeElems
  dsimp only at hsum
  rw [hsum]
  refine List.sum_nonneg fun x hx => ?_
  obtain ⟨b, hb, rfl⟩ := List.mem_map.mp hx
  obtain ⟨k, hk⟩ := (hinv.live b).mp hb
  rw [frees_eq hk, (hinv.block b k hk).count]
  exact Int.natCast_nonneg _

theorem refill (hinv : Inv ⟨h, allocated⟩ l) {m₁ m₂ : NewMemory β} (hfresh₁ : h.Fresh m₁)
    (hfresh₂ : ∀ h', blockHeapGarbageCollect h = .ok h' → h'.Fresh m₂) :
    BlockHeap.refill h m₁ m₂ = .error .outofmemory ∨ ∃ h' l', BlockHeap.refill h m₁ m₂ = .ok h' ∧
      Inv ⟨h', allocated⟩ l' ∧ h'.freeElems ≠ 0 := by
  have hgrown : ∀ {h₁ h' : BlockHeap β} {l₁}, Inv ⟨h₁, allocated⟩ l₁ →
      h'.freeElems = h₁.freeElems + h₁.elemsPerBlock → h'.freeElems ≠ 0 := by
    intro h₁ h' l₁ hinv₁ hfree
    have hpos := hinv₁.pos.2
    have hnonneg := hinv₁.freeElems_nonneg
    dsimp only at hpos
    omega
  rw [BlockHeap.refill]
  by_cases hzero : h.freeElems = 0
  · rw [if_pos hzero]
    rcases hinv.newblock_cases hfresh₁ with hnone | ⟨h₁, l₁, hnew, hinv₁, hfree⟩
    · obtain ⟨h', l', hcollect, hinv', -⟩ := hinv.collect
      rw [hnone, hcollect]
      dsimp only
      rcases hinv'.newblock_cases (hfresh₂ h' hcollect) with hnone' | ⟨h₁, l₁, hnew, hinv₁, hfree⟩
      · rw [hnone']
        exact .inl rfl
      · rw [hnew]
        exact .inr ⟨h₁, l₁, rfl, hinv₁, hgrown hinv' hfree⟩
    · rw [hnew]
      exact .inr ⟨h₁, l₁, rfl, hinv₁, hgrown hinv hfree⟩
  · rw [if_neg hzero]
    exact .inr ⟨h, l, rfl, hinv, hzero⟩

theorem alloc (hinv : Inv ⟨h, allocated⟩ l) {m₁ m₂ : NewMemory β} (hfresh₁ : h.Fresh m₁)
    (hfresh₂ : ∀ h', blockHeapGarbageCollect h = .ok h' → h'.Fresh m₂) :
    blockHeapAlloc h m₁ m₂ = .error .outofmemory ∨ ∃ h' p l', blockHeapAlloc h m₁ m₂ = .ok (h', p) ∧
      p ∉ allocated ∧ Inv ⟨h', p :: allocated⟩ l' := by
  rcases hinv.refill hfresh₁ hfresh₂ with hfault | ⟨h', l', hrun, hinv', hne⟩
  · rw [blockHeapAlloc, hfault]
    exact .inl rfl
  · have hnonneg := hinv'.freeElems_nonneg
    have hsum := hinv'.freeElems
    obtain ⟨b, k, p, rest, hb, hfree, htake⟩ := allocLoop_spec hinv'.chain hinv'.chain.length_le
      (fun b hb => by
        obtain ⟨k, hk⟩ := (hinv'.live b).mp hb
        exact ⟨k, hk, (hinv'.block b k hk).count⟩)
      (by dsimp only at hsum ⊢; omega)
    obtain ⟨hp, hinv₁⟩ := hinv'.take hb hfree
    rw [blockHeapAlloc, hrun]
    exact .inr ⟨_, p, l', htake, hp, hinv₁⟩

omit [Fintype β] in
/-- A heap that was just created. -/
theorem create {elemsize elemsperblock : ℕ} {m : NewMemory β}
    (hcreate : blockHeapCreate elemsize elemsperblock m = .ok h) : ∃ l, Inv ⟨h, []⟩ l := by
  rw [blockHeapCreate] at hcreate
  split at hcreate
  · cases hcreate
  · rename_i hsize
    rw [not_or] at hsize
    dsimp only at hcreate
    have hempty : Inv (⟨⟨if elemsize % 8 ≠ 0 then (elemsize + 8) / 8 * 8 else elemsize,
        elemsperblock, 0, 0, none, fun _ => none, fun _ => none, fun _ => none⟩, []⟩ :
        HeapRun β) [] := by
      refine ⟨⟨?_, Nat.pos_of_ne_zero hsize.2⟩, rfl, fun b => ?_, nofun, nofun, nofun,
        List.nodup_nil, rfl, rfl⟩
      · dsimp only
        split <;> omega
      · exact iff_of_false List.not_mem_nil nofun
    rcases hempty.newblock_cases (m := m) (fun b _ => ⟨rfl, fun _ _ _ _ => nofun⟩) with
      hnone | ⟨h', l', hnew, hinv, -⟩
    · rw [hnone] at hcreate
      cases hcreate
    · rw [hnew] at hcreate
      cases hcreate
      exact ⟨l', hinv⟩

end HeapRun.Inv

namespace HeapRun

variable {β : Type*} [DecidableEq β] [Fintype β] {s s' : HeapRun β} {l : List β}

/-- One operation fails for want of memory only, and keeps the invariant. -/
theorem Inv.step (hinv : s.Inv l) {e : HeapEvent β} (hlegal : s.Legal e) :
    s.step e = .error .outofmemory ∨ ∃ s' l', s.step e = .ok s' ∧ s'.Inv l' := by
  cases e with
  | alloc m₁ m₂ =>
      rcases hinv.alloc hlegal.1 hlegal.2 with hfault | ⟨h', p, l', hrun, -, hinv'⟩
      · rw [HeapRun.step, hfault]
        exact .inl rfl
      · rw [HeapRun.step, hrun]
        exact .inr ⟨_, l', rfl, hinv'⟩
  | free p =>
      obtain ⟨h', hrun, hinv'⟩ := hinv.free hlegal
      rw [HeapRun.step, hrun]
      exact .inr ⟨_, l, rfl, hinv'⟩
  | collect =>
      obtain ⟨h', l', hrun, hinv', -⟩ := hinv.collect
      rw [HeapRun.step, hrun]
      exact .inr ⟨_, l', rfl, hinv'⟩

theorem Reachable.inv (hs : Reachable s) : ∃ l, s.Inv l := by
  induction hs with
  | create hcreate => exact Inv.create hcreate
  | step hs hlegal hstep ih =>
      obtain ⟨l, hinv⟩ := ih
      rcases hinv.step hlegal with hfault | ⟨s', l', hstep', hinv'⟩
      · rw [hfault] at hstep
        cases hstep
      · rw [hstep'] at hstep
        cases hstep
        exact ⟨l', hinv'⟩

/-- In every run: what is handed out was not handed out before, the collection gives no block back
that holds an element in use, both counters are right, and nothing else goes wrong. -/
theorem blockHeap_safe (hs : Reachable s) :
    (∀ m₁ m₂ h' p, s.Legal (.alloc m₁ m₂) → blockHeapAlloc s.heap m₁ m₂ = .ok (h', p) →
      p ∉ s.allocated) ∧
    (∀ h', blockHeapGarbageCollect s.heap = .ok h' → ∀ b k, s.heap.block b = some k →
      h'.block b = none → ∀ p ∈ s.allocated, ¬ Holds k p) ∧
    (∃ l, Chain s.heap.next s.heap.base l ∧
      s.heap.freeElems = (l.map s.heap.frees).sum ∧ s.heap.blocksAllocated = l.length) ∧
    ∀ e, s.Legal e → s.step e ≠ .error .invalid := by
  obtain ⟨l, hinv⟩ := hs.inv
  refine ⟨fun m₁ m₂ h' p hlegal hrun => ?_, fun h' hrun b k hb hb' p hp hpk => ?_,
    ⟨l, hinv.chain, hinv.freeElems, hinv.blocksAllocated⟩, fun e hlegal hfault => ?_⟩
  · rcases hinv.alloc hlegal.1 hlegal.2 with hfault | ⟨h₁, p₁, l₁, hrun₁, hp, -⟩
    · rw [hfault] at hrun
      cases hrun
    · rw [hrun₁] at hrun
      cases hrun
      exact hp
  · obtain ⟨h₁, l₁, hrun₁, hinv₁, hkeep⟩ := hinv.collect
    rw [hrun₁] at hrun
    cases hrun
    obtain ⟨c, m, hc, hpm⟩ := hinv₁.held p hp
    have hcb : c = b :=
      hinv.holds_unique (hkeep c m hc) hb (hinv₁.holds hc hpm).1 hpk
    rw [hcb] at hc
    exact nomatch hc.symm.trans hb'
  · rcases hinv.step hlegal with h | ⟨s', l', h, -⟩ <;> rw [h] at hfault <;> cases hfault

theorem blockHeap_safe_first : ∃ s : HeapRun (Fin 2), s.Reachable ∧ s.allocated = [4168] ∧
    (∀ m₁ m₂ h' p, s.Legal (.alloc m₁ m₂) → blockHeapAlloc s.heap m₁ m₂ = .ok (h', p) →
      p ∉ s.allocated) ∧
    ∀ e, s.Legal e → s.step e ≠ .error .invalid := by
  obtain ⟨s, hs, hallocated⟩ : ∃ s : HeapRun (Fin 2), s.Reachable ∧ s.allocated = [4168] :=
    ⟨_, .step (e := .alloc none none)
      (.create (@rfl _ (blockHeapCreate 5 2 (some (0, some 4096))))) ⟨nofun, fun _ _ => nofun⟩ rfl,
      rfl⟩
  exact ⟨s, hs, hallocated, (blockHeap_safe hs).1, (blockHeap_safe hs).2.2.2⟩

end HeapRun

end Unirc
