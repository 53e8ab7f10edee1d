import Unirc.Chars

/-!
# Queues of blocks

The receive and send queues of `dbuf.c`: bytes in a list of blocks of bounded size.
A put fills the last block and allocates others; a delete frees the blocks that it
covers and moves what is left of the next one to its start.
-/

namespace Unirc

abbrev DBUF_BLOCK_SIZE : ℕ := 1024

structure DbufBlock where
  data : Str
  size_le : data.length ≤ DBUF_BLOCK_SIZE

namespace DbufBlock

abbrev size (b : DbufBlock) : ℕ := b.data.length

def empty : DbufBlock := ⟨[], Nat.zero_le _⟩

/-- As much of the bytes as there is room for, copied behind the others. -/
def fill (b : DbufBlock) (data : Str) : DbufBlock where
  data := b.data ++ data.take (DBUF_BLOCK_SIZE - b.size)
  size_le := by
    have := b.size_le
    simp only [size, List.length_append, List.length_take]
    omega

/-- The `memmove` of `dbuf_delete`. -/
def drop (b : DbufBlock) (count : ℕ) : DbufBlock where
  data := b.data.drop count
  size_le := by
    have := b.size_le
    rw [List.length_drop]
    omega

end DbufBlock

structure DbufQueue where
  blocks : List DbufBlock
  totalSize : ℕ

namespace DbufQueue

def empty : DbufQueue := ⟨[], 0⟩

/-- The bytes of the queue, in order. -/
def unread (q : DbufQueue) : Str := q.blocks.flatMap (·.data)

def alloc (q : DbufQueue) : DbufQueue := { q with blocks := q.blocks ++ [.empty] }

/-- The block that the tail points to. -/
def last (q : DbufQueue) : DbufBlock := q.blocks.getLastD .empty

/-- One round of the loop of `dbuf_put`: the queue, and the bytes that are left. -/
def putRound (q : DbufQueue) (data : Str) : DbufQueue × Str :=
  let q := if DBUF_BLOCK_SIZE - q.last.size = 0 then q.alloc else q
  let amount := min (DBUF_BLOCK_SIZE - q.last.size) data.length
  (⟨q.blocks.dropLast ++ [q.last.fill data], q.totalSize + amount⟩, data.drop amount)

theorem room_pos (q : DbufQueue) : 0 < DBUF_BLOCK_SIZE -
    (if DBUF_BLOCK_SIZE - q.last.size = 0 then q.alloc else q).last.size := by
  split
  · simp [alloc, last, DbufBlock.empty, DbufBlock.size]
  · omega

theorem length_putRound_lt (q : DbufQueue) {data : Str} (h : data ≠ []) :
    (q.putRound data).2.length < data.length := by
  have hroom := q.room_pos
  have hlen := List.length_pos_iff.mpr h
  simp only [putRound, List.length_drop]
  omega

/-- `dbuf_put`: a loop that runs at least once. -/
def put (q : DbufQueue) (data : Str) : DbufQueue :=
  if (q.putRound data).2 = [] then (q.putRound data).1
  else (q.putRound data).1.put (q.putRound data).2
termination_by data.length
decreasing_by
  rename_i hleft
  apply length_putRound_lt
  rintro rfl
  exact hleft (List.drop_nil)

/-- The loop of `dbuf_delete`; without a block left it dereferences the null pointer. -/
def deleteLoop : List DbufBlock → ℕ → ℕ → Option DbufQueue
  | blocks, total, 0 => some ⟨blocks, total⟩
  | [], _, _ + 1 => none
  | b :: blocks, total, count + 1 =>
      if count + 1 < b.size then some ⟨b.drop (count + 1) :: blocks, total - (count + 1)⟩
      else deleteLoop blocks (total - b.size) (count + 1 - b.size)

/-- `dbuf_delete`, with its assertion. -/
def delete (q : DbufQueue) (count : ℕ) : Option DbufQueue :=
  if count ≤ q.totalSize then deleteLoop q.blocks q.totalSize count else none

/-- `total_size` is the number of the bytes. -/
def Counted (q : DbufQueue) : Prop := q.totalSize = q.unread.length

theorem counted_empty : empty.Counted := rfl

theorem unread_alloc (q : DbufQueue) : q.alloc.unread = q.unread := by
  simp [unread, alloc, DbufBlock.empty]

/-- The bytes before the last block, and those in it. -/
theorem unread_eq_last (q : DbufQueue) :
    q.unread = q.blocks.dropLast.flatMap (·.data) ++ q.last.data := by
  rcases List.eq_nil_or_concat q.blocks with h | ⟨init, b, h⟩
  · simp [unread, last, h, DbufBlock.empty]
  · simp [unread, last, h]

theorem unread_putRound (q : DbufQueue) (data : Str) :
    (q.putRound data).1.unread ++ (q.putRound data).2 = q.unread ++ data := by
  have hsame : (if DBUF_BLOCK_SIZE - q.last.size = 0 then q.alloc else q).unread = q.unread := by
    split
    · exact q.unread_alloc
    · rfl
  unfold putRound
  extract_lets q' amount
  have hq' : q'.unread = q.unread := hsame
  rw [← hq', unread_eq_last q']
  have htake : data.take (DBUF_BLOCK_SIZE - q'.last.size) = data.take amount := by
    dsimp only [amount]
    rw [← List.take_take, List.take_length]
  simp only [unread, List.flatMap_append, List.flatMap_cons, List.flatMap_nil, List.append_nil,
    DbufBlock.fill, List.append_assoc, htake, List.take_append_drop]

theorem Counted.putRound {q : DbufQueue} (h : q.Counted) (data : Str) :
    (q.putRound data).1.Counted := by
  have hbytes := congrArg List.length (q.unread_putRound data)
  have htotal : (q.putRound data).1.totalSize + (q.putRound data).2.length =
      q.totalSize + data.length := by
    have hsize : (if DBUF_BLOCK_SIZE - q.last.size = 0 then q.alloc else q).totalSize =
        q.totalSize := by
      split <;> rfl
    simp only [DbufQueue.putRound, List.length_drop, hsize]
    omega
  rw [List.length_append, List.length_append] at hbytes
  unfold Counted at h ⊢
  omega

/-- A put adds its bytes at the end. -/
theorem unread_put (q : DbufQueue) (data : Str) : (q.put data).unread = q.unread ++ data := by
  induction q, data using put.induct with
  | case1 q data hnil =>
      rw [put, if_pos hnil, ← q.unread_putRound data, hnil, List.append_nil]
  | case2 q data hne ih =>
      rw [put, if_neg hne, ih, q.unread_putRound data]

theorem Counted.put {q : DbufQueue} (h : q.Counted) (data : Str) : (q.put data).Counted := by
  induction q, data using DbufQueue.put.induct with
  | case1 q data hnil =>
      rw [DbufQueue.put, if_pos hnil]
      exact h.putRound data
  | case2 q data hne ih =>
      rw [DbufQueue.put, if_neg hne]
      exact ih (h.putRound data)

theorem deleteLoop_spec {blocks : List DbufBlock} {total count : ℕ}
    (htotal : total = (DbufQueue.mk blocks total).unread.length) (hcount : count ≤ total) :
    ∃ q', deleteLoop blocks total count = some q' ∧ q'.Counted ∧
      q'.unread = (blocks.flatMap (·.data)).drop count := by
  induction blocks generalizing total count with
  | nil =>
      obtain rfl : count = 0 := by
        simp only [unread, List.flatMap_nil, List.length_nil] at htotal
        omega
      exact ⟨_, rfl, htotal, rfl⟩
  | cons b blocks ih =>
      have hlen : total = b.size + (blocks.flatMap (·.data)).length := by
        rw [htotal]
        simp [unread]
      have hsize : b.size = b.data.length := rfl
      cases count with
      | zero => exact ⟨_, rfl, htotal, rfl⟩
      | succ count =>
        rw [deleteLoop, List.flatMap_cons]
        split
        · rename_i hlt
          refine ⟨_, rfl, ?_, ?_⟩
          · simp only [Counted, unread, DbufBlock.drop, List.flatMap_cons, List.length_append,
              List.length_drop]
            omega
          · rw [List.drop_append_of_le_length hlt.le]
            rfl
        · rename_i hge
          obtain ⟨q', hq', hcounted, hunread⟩ := @ih (total - b.size)
            (count + 1 - b.size) (by simp only [unread]; omega) (by omega)
          refine ⟨q', hq', hcounted, ?_⟩
          rw [hunread, List.drop_append, List.drop_eq_nil_of_le (not_lt.mp hge), List.nil_append]

/-- A delete of bytes that are there takes them from the front. -/
theorem Counted.delete {q : DbufQueue} (h : q.Counted) (count : ℕ)
    (hcount : count ≤ q.unread.length) : ∃ q', q.delete count = some q' ∧ q'.Counted ∧
      q'.unread = q.unread.drop count := by
  rw [← h] at hcount
  rw [DbufQueue.delete, if_pos hcount]
  exact deleteLoop_spec h hcount

/-- No block is empty. -/
def Filled (q : DbufQueue) : Prop := ∀ b ∈ q.blocks, b.data ≠ []

theorem Filled.putRound {q : DbufQueue} (h : q.Filled) {data : Str} (hne : data ≠ []) :
    (q.putRound data).1.Filled := by
  have hroom := q.room_pos
  unfold DbufQueue.putRound
  extract_lets q' amount
  have hinit : ∀ b ∈ q'.blocks.dropLast, b.data ≠ [] := by
    intro b hb
    dsimp only [q'] at hb
    split at hb
    · rw [alloc, List.dropLast_concat] at hb
      exact h b hb
    · exact h b ((List.dropLast_sublist _).subset hb)
  intro b hb
  rcases List.mem_append.mp hb with hold | hnew
  · exact hinit b hold
  · rw [List.mem_singleton.mp hnew]
    refine List.append_ne_nil_of_right_ne_nil _ ?_
    rw [Ne, List.take_eq_nil_iff]
    exact not_or.mpr ⟨hroom.ne', hne⟩

theorem Filled.put {q : DbufQueue} (h : q.Filled) {data : Str} (hne : data ≠ []) :
    (q.put data).Filled := by
  induction q, data using DbufQueue.put.induct with
  | case1 q data hnil =>
      rw [DbufQueue.put, if_pos hnil]
      exact h.putRound hne
  | case2 q data hleft ih =>
      rw [DbufQueue.put, if_neg hleft]
      exact ih (h.putRound hne) hleft

theorem Filled.deleteLoop {blocks : List DbufBlock} {total count : ℕ} {q : DbufQueue}
    (h : ∀ b ∈ blocks, b.data ≠ []) (hdelete : deleteLoop blocks total count = some q) :
    q.Filled := by
  induction blocks generalizing total count with
  | nil =>
      cases count with
      | zero =>
          cases hdelete
          exact h
      | succ count => cases hdelete
  | cons b blocks ih =>
      cases count with
      | zero =>
          cases hdelete
          exact h
      | succ count =>
          rw [DbufQueue.deleteLoop] at hdelete
          split at hdelete
          · rename_i hlt
            cases hdelete
            intro c hc
            rcases List.mem_cons.mp hc with rfl | hc
            · rw [DbufBlock.drop, Ne, List.drop_eq_nil_iff]
              exact not_le.mpr hlt
            · exact h c (List.mem_cons_of_mem b hc)
          · exact ih (fun c hc => h c (List.mem_cons_of_mem b hc)) hdelete

/-- A delete keeps the blocks non-empty and `total_size` the sum of their sizes. -/
theorem delete_spec {q : DbufQueue} (hc : q.Counted) (hf : q.Filled) {count : ℕ}
    (hcount : count ≤ q.totalSize) : ∃ q', q.delete count = some q' ∧ q'.Counted ∧ q'.Filled ∧
      q'.unread = q.unread.drop count := by
  obtain ⟨q', hq', hcounted, hunread⟩ := hc.delete count (hc ▸ hcount)
  refine ⟨q', hq', hcounted, ?_, hunread⟩
  rw [DbufQueue.delete, if_pos hcount] at hq'
  exact Filled.deleteLoop hf hq'

theorem counted_iff {q : DbufQueue} :
    q.Counted ↔ q.totalSize = (q.blocks.map DbufBlock.size).sum := by
  rw [Counted, unread, List.length_flatMap]

end DbufQueue

end Unirc
