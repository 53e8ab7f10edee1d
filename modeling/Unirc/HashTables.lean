import Mathlib.Data.Finset.Insert
import Unirc.NameHash
import Unirc.PointerChain

/-!
# The tables of names

`hash.c`: clients by name and by id and channels by name, in chains that are linked through the
records. A search moves what it finds to the front of its chain. A loop that would go round for ever
is `none`.
-/

namespace Unirc

open PointerChain

/-- A table with the field of its key and the field of its links. -/
structure Hashed (α : Type*) where
  name : α → Str
  hnext : α → Option α
  table : ℕ → Option α

namespace Hashed

variable {α : Type*} [DecidableEq α]

def add (randomKey : U32) (t : Hashed α) (c : α) : Hashed α :=
  let hashv := strhash randomKey (t.name c)
  { t with
    hnext := Function.update t.hnext c (t.table hashv)
    table := Function.update t.table hashv (some c) }

/-- The loop of a deletion, at `tmp`. -/
def delLoop : ℕ → Hashed α → α → α → Option (Hashed α)
  | 0, _, _, _ => none
  | n + 1, t, c, tmp =>
      if t.hnext tmp = some c then
        let hnext := Function.update t.hnext tmp (t.hnext c)
        some { t with hnext := Function.update hnext c (some c) }
      else
        match t.hnext tmp with
        | none => some t
        | some tmp => delLoop n t c tmp

/-- The loop of a search, behind `prev`. -/
def findLoop : ℕ → Hashed α → ℕ → Str → α → Option (Hashed α × Option α)
  | 0, _, _, _, _ => none
  | n + 1, t, hashv, name, prev =>
      match t.hnext prev with
      | none => some (t, none)
      | some c =>
          if irccmp name (t.name c) then findLoop n t hashv name c
          else
            let hnext := Function.update t.hnext prev (t.hnext c)
            some ({ t with
              hnext := Function.update hnext c (t.table hashv)
              table := Function.update t.table hashv (some c) }, some c)

variable [Fintype α]

def del (randomKey : U32) (t : Hashed α) (c : α) : Option (Hashed α) :=
  let hashv := strhash randomKey (t.name c)
  match t.table hashv with
  | none => some t
  | some tmp =>
      if tmp = c then
        some { t with
          table := Function.update t.table hashv (t.hnext c)
          hnext := Function.update t.hnext c (some c) }
      else delLoop (Fintype.card α) t c tmp

def find (randomKey : U32) (t : Hashed α) (name : Str) : Option (Hashed α × Option α) :=
  let hashv := strhash randomKey name
  match t.table hashv with
  | none => some (t, none)
  | some c =>
      if irccmp name (t.name c) then findLoop (Fintype.card α) t hashv name c
      else some (t, some c)

end Hashed

/-- `clientTable` with `name` and `hnext`, `idTable` with `id` and `idhnext`, and `channelTable` with
`chname` and `hnextch`. -/
structure NameTables (α β : Type*) where
  clients : Hashed α
  ids : Hashed α
  channels : Hashed β

namespace NameTables

variable {α β : Type*} [DecidableEq α] [DecidableEq β] (randomKey : U32) (s : NameTables α β)

def hashAddClient (c : α) : NameTables α β := { s with clients := s.clients.add randomKey c }

def hashAddId (c : α) : NameTables α β := { s with ids := s.ids.add randomKey c }

def hashAddChannel (c : β) : NameTables α β := { s with channels := s.channels.add randomKey c }

variable [Fintype α] [Fintype β]

def hashDelClient (c : α) : Option (NameTables α β) :=
  (s.clients.del randomKey c).map fun t => { s with clients := t }

def hashDelId (c : α) : Option (NameTables α β) :=
  (s.ids.del randomKey c).map fun t => { s with ids := t }

def hashDelChannel (c : β) : Option (NameTables α β) :=
  (s.channels.del randomKey c).map fun t => { s with channels := t }

def findClient (name : Str) : Option (NameTables α β × Option α) :=
  (s.clients.find randomKey name).map fun r => ({ s with clients := r.1 }, r.2)

def hashFindId (name : Str) : Option (NameTables α β × Option α) :=
  (s.ids.find randomKey name).map fun r => ({ s with ids := r.1 }, r.2)

def hashFindChannel (name : Str) : Option (NameTables α β × Option β) :=
  (s.channels.find randomKey name).map fun r => ({ s with channels := r.1 }, r.2)

end NameTables

namespace Hashed

variable {α : Type*} {randomKey : U32} {t t' : Hashed α} {entries : Finset α} {lists : ℕ → List α}
  {c : α} {name : Str}

/-- The chains hold the entries, each where its name belongs. -/
structure Files (randomKey : U32) (t : Hashed α) (entries : Finset α) (lists : ℕ → List α) :
    Prop where
  filed : Filed t.hnext t.table lists
  mem : ∀ i c, c ∈ lists i ↔ c ∈ entries ∧ strhash randomKey (t.name c) = i

theorem strhash_eq_of_irccmp (randomKey : U32) {s t : Str} (h : irccmp s t = false) :
    strhash randomKey s = strhash randomKey t := by
  rw [← strhash_fold, (fold_eq_iff s t).mpr h, strhash_fold]

variable [DecidableEq α]

omit [DecidableEq α] in
/-- One chain is written. -/
theorem Files.update (h : Files randomKey t entries lists) {entries' : Finset α} {j : ℕ} {l : List α}
    (hname : t'.name = t.name) (hfiled : Filed t'.hnext t'.table (Function.update lists j l))
    (hl : ∀ d, d ∈ l ↔ d ∈ entries' ∧ strhash randomKey (t.name d) = j)
    (hother : ∀ d, strhash randomKey (t.name d) ≠ j → (d ∈ entries' ↔ d ∈ entries)) :
    Files randomKey t' entries' (Function.update lists j l) := by
  refine ⟨hfiled, fun i d => ?_⟩
  rw [hname, Function.update_apply]
  split
  · rename_i hi
    rw [hl, hi]
  · rename_i hi
    rw [h.mem]
    exact and_congr_left fun hd => (hother d (hd ▸ hi)).symm

theorem Files.add (h : Files randomKey t entries lists) (hc : c ∉ entries) :
    ∃ lists', Files randomKey (t.add randomKey c) (insert c entries) lists' := by
  have hout : ∀ i, c ∉ lists i := fun i hi => hc ((h.mem i c).mp hi).1
  refine ⟨_, h.update rfl (h.filed.push hout (strhash randomKey (t.name c))) (fun d => ?_)
    fun d hd => ?_⟩
  · rw [List.mem_cons, h.mem, Finset.mem_insert, or_and_right]
    exact or_congr_left (and_iff_left_of_imp fun hd => by rw [hd]).symm
  · rw [Finset.mem_insert, or_iff_right]
    rintro rfl
    exact hd rfl

/-- The loop finds the record in front of `c`, or the end. -/
theorem delLoop_spec {n : ℕ} {tmp : α} {l : List α} (hchain : Chain t.hnext (some tmp) (tmp :: l))
    (hn : l.length < n) : c ∉ l ∧ delLoop n t c tmp = some t ∨
      ∃ l₁ a l₂, tmp :: l = l₁ ++ a :: c :: l₂ ∧ delLoop n t c tmp = some { t with
        hnext := Function.update (Function.update t.hnext a (t.hnext c)) c (some c) } := by
  induction l generalizing tmp n with
  | nil =>
      obtain ⟨n, rfl⟩ := Nat.exists_eq_add_one.mpr hn
      have hnext : t.hnext tmp = none := hchain.2
      rw [delLoop, hnext, if_neg nofun]
      exact .inl ⟨List.not_mem_nil, rfl⟩
  | cons b l ih =>
      obtain ⟨n, rfl⟩ := Nat.exists_eq_add_one.mpr (Nat.zero_lt_of_lt hn)
      obtain ⟨hnext, hrest⟩ := hchain.2
      rw [delLoop, hnext]
      by_cases hbc : b = c
      · subst hbc
        rw [if_pos rfl]
        exact .inr ⟨[], tmp, l, rfl, rfl⟩
      · rw [if_neg fun h => hbc (Option.some.inj h)]
        rcases ih ⟨rfl, hrest⟩ (Nat.lt_of_succ_lt_succ hn) with
          ⟨hcl, hrun⟩ | ⟨l₁, a, l₂, hl, hrun⟩
        · exact .inl ⟨List.not_mem_cons_of_ne_of_not_mem (Ne.symm hbc) hcl, hrun⟩
        · exact .inr ⟨tmp :: l₁, a, l₂, congrArg (tmp :: ·) hl, hrun⟩

theorem findLoop_spec {n hashv : ℕ} {prev : α} {l : List α}
    (hchain : Chain t.hnext (some prev) (prev :: l)) (hn : l.length < n) :
    (∀ c ∈ l, irccmp name (t.name c) = true) ∧ findLoop n t hashv name prev = some (t, none) ∨
      ∃ l₁ a c l₂, prev :: l = l₁ ++ a :: c :: l₂ ∧ irccmp name (t.name c) = false ∧
        findLoop n t hashv name prev = some ({ t with
          hnext := Function.update (Function.update t.hnext a (t.hnext c)) c (t.table hashv)
          table := Function.update t.table hashv (some c) }, some c) := by
  induction l generalizing prev n with
  | nil =>
      obtain ⟨n, rfl⟩ := Nat.exists_eq_add_one.mpr hn
      have hnext : t.hnext prev = none := hchain.2
      rw [findLoop, hnext]
      exact .inl ⟨fun c hc => absurd hc List.not_mem_nil, rfl⟩
  | cons b l ih =>
      obtain ⟨n, rfl⟩ := Nat.exists_eq_add_one.mpr (Nat.zero_lt_of_lt hn)
      obtain ⟨hnext, hrest⟩ := hchain.2
      rw [findLoop, hnext]
      dsimp only
      cases hb : irccmp name (t.name b) with
      | false =>
          rw [if_neg Bool.false_ne_true]
          exact .inr ⟨[], prev, b, l, rfl, hb, rfl⟩
      | true =>
          rw [if_pos rfl]
          rcases ih ⟨rfl, hrest⟩ (Nat.lt_of_succ_lt_succ hn) with
            ⟨hall, hrun⟩ | ⟨l₁, a, c, l₂, hl, hc, hrun⟩
          · exact .inl ⟨List.forall_mem_cons.mpr ⟨hb, hall⟩, hrun⟩
          · exact .inr ⟨prev :: l₁, a, c, l₂, congrArg (prev :: ·) hl, hc, hrun⟩

omit [DecidableEq α] in
/-- What leaves its chain is in none. -/
theorem Files.notMem_update (h : Files randomKey t entries lists) {j : ℕ} {l : List α}
    (hc : c ∈ lists j) (hl : c ∉ l) (i : ℕ) : c ∉ Function.update lists j l i := by
  rw [Function.update_apply]
  split
  · exact hl
  · rename_i hi
    exact fun hci => hi (h.filed.disjoint hci hc)

/-- A chain without one of its records. -/
theorem Files.mem_rest (h : Files randomKey t entries lists) {j : ℕ} {l₁ l₂ : List α}
    (hl : lists j = l₁ ++ c :: l₂) : c ∉ l₁ ++ l₂ ∧ ∀ d, d ∈ l₁ ++ l₂ ↔
      d ∈ entries.erase c ∧ strhash randomKey (t.name d) = j := by
  have hnd := (h.filed.chain j).nodup
  rw [hl, List.nodup_middle, List.nodup_cons] at hnd
  refine ⟨hnd.1, fun d => ?_⟩
  have hmem := h.mem j d
  rw [hl, List.mem_append, List.mem_cons, or_left_comm, ← List.mem_append] at hmem
  rw [Finset.mem_erase]
  constructor
  · intro hd
    obtain ⟨he, hj⟩ := hmem.mp (.inr hd)
    exact ⟨⟨ne_of_mem_of_not_mem hd hnd.1, he⟩, hj⟩
  · rintro ⟨⟨hne, he⟩, hj⟩
    exact (hmem.mpr ⟨he, hj⟩).resolve_left hne

variable [Fintype α]

theorem Files.del (h : Files randomKey t entries lists) (c : α) :
    ∃ t' lists', t.del randomKey c = some t' ∧ t'.name = t.name ∧
      Files randomKey t' (entries.erase c) lists' := by
  have habsent : ∀ j, strhash randomKey (t.name c) = j → c ∉ lists j →
      entries.erase c = entries := fun j hj hc =>
    Finset.erase_eq_of_notMem fun he => hc ((h.mem j c).mpr ⟨he, hj⟩)
  have hother : ∀ d, strhash randomKey (t.name d) ≠ strhash randomKey (t.name c) →
      (d ∈ entries.erase c ↔ d ∈ entries) := by
    intro d hd
    rw [Finset.mem_erase, and_iff_right]
    rintro rfl
    exact hd rfl
  have hchain := h.filed.chain (strhash randomKey (t.name c))
  generalize hj : strhash randomKey (t.name c) = j at hchain hother
  rw [Hashed.del, hj]
  cases hlist : lists j with
  | nil =>
      rw [hlist] at hchain
      rw [show t.table j = none from hchain, habsent j hj (by rw [hlist]; exact List.not_mem_nil)]
      exact ⟨t, lists, rfl, rfl, h⟩
  | cons tmp l =>
      rw [hlist] at hchain
      rw [hchain.1]
      dsimp only
      by_cases htmp : tmp = c
      · subst htmp
        rw [if_pos rfl]
        obtain ⟨hc, hl⟩ := h.mem_rest (show lists j = [] ++ tmp :: l from hlist)
        have hout := h.notMem_update (hlist ▸ List.mem_cons_self) hc
        exact ⟨_, _, rfl, rfl, h.update rfl ((h.filed.pop hlist).update hout _) hl hother⟩
      · rw [if_neg htmp]
        have hchain' : Chain t.hnext (some tmp) (tmp :: l) := ⟨rfl, hchain.2⟩
        rcases delLoop_spec (c := c) hchain' (Nat.lt_of_succ_le hchain'.length_le) with
          ⟨hc, hrun⟩ | ⟨l₁, a, l₂, hl, hrun⟩
        · have hc : c ∉ lists j := by
            rw [hlist]
            exact List.not_mem_cons_of_ne_of_not_mem (Ne.symm htmp) hc
          rw [hrun, habsent j hj hc]
          exact ⟨t, lists, rfl, rfl, h⟩
        · rw [hl] at hlist
          have hlist' : lists j = (l₁ ++ [a]) ++ c :: l₂ := by rw [hlist]; simp
          obtain ⟨hc, hmem⟩ := h.mem_rest hlist'
          rw [List.append_assoc] at hc hmem
          have hout := h.notMem_update (j := j) (by rw [hlist]; simp) hc
          exact ⟨_, _, hrun, rfl, h.update rfl ((h.filed.unlink hlist).update hout _) hmem hother⟩

/-- A search gives the entry of the name, and leaves every chain with what it had. -/
theorem Files.find (h : Files randomKey t entries lists) (name : Str) :
    ∃ t' r lists', t.find randomKey name = some (t', r) ∧ t'.name = t.name ∧
      Files randomKey t' entries lists' ∧ (∀ i, (lists' i).Perm (lists i)) ∧
      (∀ c ∈ r, c ∈ entries ∧ irccmp name (t.name c) = false) ∧
      (r = none → ∀ c ∈ entries, irccmp name (t.name c) = true) := by
  have hchain := h.filed.chain (strhash randomKey name)
  have hin : ∀ c ∈ entries, irccmp name (t.name c) = false →
      c ∈ lists (strhash randomKey name) := fun c hc he =>
    (h.mem _ c).mpr ⟨hc, (strhash_eq_of_irccmp randomKey he).symm⟩
  have hent : ∀ c ∈ lists (strhash randomKey name), c ∈ entries := fun c hc =>
    ((h.mem _ c).mp hc).1
  rw [Hashed.find]
  generalize strhash randomKey name = j at hchain hin hent
  have hnone : (∀ c ∈ lists j, irccmp name (t.name c) = true) →
      ∀ c ∈ entries, irccmp name (t.name c) = true := by
    intro hall c hc
    by_contra he
    exact he (hall c (hin c hc (Bool.eq_false_of_not_eq_true he)))
  cases hlist : lists j with
  | nil =>
      rw [hlist] at hchain hnone
      rw [show t.table j = none from hchain]
      exact ⟨t, none, lists, rfl, rfl, h, fun _ => List.Perm.refl _, nofun,
        fun _ => hnone fun c hc => absurd hc List.not_mem_nil⟩
  | cons b l =>
      rw [hlist] at hchain hnone hent
      rw [hchain.1]
      dsimp only
      cases hb : irccmp name (t.name b) with
      | false =>
          rw [if_neg Bool.false_ne_true]
          refine ⟨t, some b, lists, rfl, rfl, h, fun _ => List.Perm.refl _, fun c hc => ?_, nofun⟩
          cases hc
          exact ⟨hent b List.mem_cons_self, hb⟩
      | true =>
          rw [if_pos rfl]
          have hchain' : Chain t.hnext (some b) (b :: l) := ⟨rfl, hchain.2⟩
          rcases @findLoop_spec _ t name _ _ j b l hchain'
            (Nat.lt_of_succ_le hchain'.length_le) with
            ⟨hall, hrun⟩ | ⟨l₁, a, c, l₂, hl, hc, hrun⟩
          · exact ⟨t, none, lists, hrun, rfl, h, fun _ => List.Perm.refl _, nofun,
              fun _ => hnone (List.forall_mem_cons.mpr ⟨hb, hall⟩)⟩
          · rw [hl] at hlist hent
            have hmem : c ∈ lists j := by rw [hlist]; simp
            have hlist' : lists j = (l₁ ++ [a]) ++ c :: l₂ := by rw [hlist]; simp
            obtain ⟨hcl, -⟩ := h.mem_rest hlist'
            rw [List.append_assoc] at hcl
            have hout := h.notMem_update hmem hcl
            have hfiled := (h.filed.unlink hlist).push hout j
            rw [Function.update_self, Function.update_idem] at hfiled
            have hent' : c ∈ entries := hent c (by simp)
            refine ⟨_, _, _, hrun, rfl, h.update rfl hfiled (fun d => ?_) fun _ _ => Iff.rfl,
              fun i => ?_, fun d hd => ?_, nofun⟩
            · have hd := h.mem j d
              rw [hlist] at hd
              rw [← hd]
              simp
              tauto
            · rw [Function.update_apply]
              split
              · rename_i hi
                rw [hi, hlist]
                simpa using (@List.perm_middle _ c (l₁ ++ [a]) l₂).symm
              · exact List.Perm.refl _
            · cases hd
              exact ⟨hent', hc⟩

omit [Fintype α] in
theorem Files.setName (h : Files randomKey t entries lists) (hc : c ∉ entries) (name : Str) :
    Files randomKey { t with name := Function.update t.name c name } entries lists := by
  refine ⟨h.filed, fun i d => (h.mem i d).trans (and_congr_right fun hd => ?_)⟩
  dsimp only
  rw [Function.update_of_ne (ne_of_mem_of_not_mem hd hc)]

/-- A search finds what is in the table and nothing else, and no chain loses or doubles anything by
it. -/
structure Sound (randomKey : U32) (t : Hashed α) (entries : Finset α) : Prop where
  finds : ∀ name, ∃ t' r, t.find randomKey name = some (t', r) ∧
    (r.isSome ↔ ∃ c ∈ entries, irccmp name (t.name c) = false) ∧
    ∀ c ∈ r, c ∈ entries ∧ irccmp name (t.name c) = false
  keeps : ∀ name t' r, t.find randomKey name = some (t', r) → ∀ hashv, ∃ l l',
    Chain t.hnext (t.table hashv) l ∧ Chain t'.hnext (t'.table hashv) l' ∧ l.Nodup ∧ l'.Perm l ∧
    ∀ c, c ∈ l ↔ c ∈ entries ∧ strhash randomKey (t.name c) = hashv

theorem Files.sound (h : Files randomKey t entries lists) : Sound randomKey t entries where
  finds name := by
    obtain ⟨t', r, lists', hrun, -, -, -, hsome, hnone⟩ := h.find name
    refine ⟨t', r, hrun, ⟨fun hr => ?_, fun ⟨c, hc, he⟩ => ?_⟩, hsome⟩
    · obtain ⟨c, hc⟩ := Option.isSome_iff_exists.mp hr
      exact ⟨c, hsome c hc⟩
    · rw [Option.isSome_iff_ne_none]
      intro hr
      rw [hnone hr c hc] at he
      cases he
  keeps name t' r hrun hashv := by
    obtain ⟨t₁, r₁, lists', hrun', -, h', hperm, -⟩ := h.find name
    rw [hrun'] at hrun
    cases hrun
    exact ⟨lists hashv, lists' hashv, h.filed.chain hashv, h'.filed.chain hashv,
      (h.filed.chain hashv).nodup, hperm hashv, h.mem hashv⟩

end Hashed

/-- The tables, and what was added to each and not deleted since. -/
structure TableRun (α β : Type*) where
  tables : NameTables α β
  inClients : Finset α
  inIds : Finset α
  inChannels : Finset β

inductive TableEvent (α β : Type*)
  | addClient (c : α)
  | delClient (c : α)
  | findClient (name : Str)
  | setName (c : α) (name : Str)
  | addId (c : α)
  | delId (c : α)
  | findId (name : Str)
  | setId (c : α) (id : Str)
  | addChannel (c : β)
  | delChannel (c : β)
  | findChannel (name : Str)
  | setChname (c : β) (name : Str)

namespace TableRun

variable {α β : Type*} [DecidableEq α] [DecidableEq β] [Fintype α] [Fintype β]

/-- One operation; `none` when it does not return. -/
def step (randomKey : U32) (s : TableRun α β) : TableEvent α β → Option (TableRun α β)
  | .addClient c => some { s with
      tables := NameTables.hashAddClient randomKey s.tables c, inClients := insert c s.inClients }
  | .delClient c => (NameTables.hashDelClient randomKey s.tables c).map fun t => { s with
      tables := t, inClients := s.inClients.erase c }
  | .findClient name => (NameTables.findClient randomKey s.tables name).map fun r => { s with
      tables := r.1 }
  | .setName c name => some { s with tables := { s.tables with
      clients := { s.tables.clients with name := Function.update s.tables.clients.name c name } } }
  | .addId c => some { s with
      tables := NameTables.hashAddId randomKey s.tables c, inIds := insert c s.inIds }
  | .delId c => (NameTables.hashDelId randomKey s.tables c).map fun t => { s with
      tables := t, inIds := s.inIds.erase c }
  | .findId name => (NameTables.hashFindId randomKey s.tables name).map fun r => { s with tables := r.1 }
  | .setId c id => some { s with tables := { s.tables with
      ids := { s.tables.ids with name := Function.update s.tables.ids.name c id } } }
  | .addChannel c => some { s with
      tables := NameTables.hashAddChannel randomKey s.tables c, inChannels := insert c s.inChannels }
  | .delChannel c => (NameTables.hashDelChannel randomKey s.tables c).map fun t => { s with
      tables := t, inChannels := s.inChannels.erase c }
  | .findChannel name => (NameTables.hashFindChannel randomKey s.tables name).map fun r => { s with
      tables := r.1 }
  | .setChname c name => some { s with tables := { s.tables with
      channels :=
        { s.tables.channels with name := Function.update s.tables.channels.name c name } } }

def run (randomKey : U32) : TableRun α β → List (TableEvent α β) → Option (TableRun α β) :=
  List.foldlM (step randomKey)

/-- Tables that were just cleared. -/
def cleared (name id : α → Str) (chname : β → Str) : TableRun α β where
  tables := ⟨⟨name, fun _ => none, fun _ => none⟩, ⟨id, fun _ => none, fun _ => none⟩,
    ⟨chname, fun _ => none, fun _ => none⟩⟩
  inClients := ∅
  inIds := ∅
  inChannels := ∅

/-- A record is added and its key written while it is not in the table. -/
def Legal (s : TableRun α β) : TableEvent α β → Prop
  | .addClient c | .setName c _ => c ∉ s.inClients
  | .addId c | .setId c _ => c ∉ s.inIds
  | .addChannel c | .setChname c _ => c ∉ s.inChannels
  | _ => True

def LegalRun (randomKey : U32) (s : TableRun α β) : List (TableEvent α β) → Prop
  | [] => True
  | e :: es => s.Legal e ∧ ∀ s', s.step randomKey e = some s' → LegalRun randomKey s' es

/-- All three tables are right. -/
structure Sound (randomKey : U32) (s : TableRun α β) : Prop where
  clients : s.tables.clients.Sound randomKey s.inClients
  ids : s.tables.ids.Sound randomKey s.inIds
  channels : s.tables.channels.Sound randomKey s.inChannels

structure Inv (randomKey : U32) (s : TableRun α β) : Prop where
  clients : ∃ lists, s.tables.clients.Files randomKey s.inClients lists
  ids : ∃ lists, s.tables.ids.Files randomKey s.inIds lists
  channels : ∃ lists, s.tables.channels.Files randomKey s.inChannels lists

variable {randomKey : U32} {s : TableRun α β}

omit [DecidableEq α] [DecidableEq β] [Fintype α] [Fintype β] in
theorem cleared_inv (name id : α → Str) (chname : β → Str) :
    Inv randomKey (cleared name id chname) :=
  ⟨⟨_, .nil, fun _ _ => by simp [cleared]⟩, ⟨_, .nil, fun _ _ => by simp [cleared]⟩,
    ⟨_, .nil, fun _ _ => by simp [cleared]⟩⟩

theorem Inv.step (h : Inv randomKey s) {e : TableEvent α β} (hlegal : s.Legal e) :
    ∃ s', s.step randomKey e = some s' ∧ Inv randomKey s' := by
  obtain ⟨⟨l₁, hclients⟩, ⟨l₂, hids⟩, l₃, hchannels⟩ := h
  cases e with
  | addClient c => exact ⟨_, rfl, hclients.add hlegal, ⟨l₂, hids⟩, l₃, hchannels⟩
  | delClient c =>
      obtain ⟨t, lists, hrun, -, h⟩ := hclients.del c
      rw [TableRun.step, NameTables.hashDelClient, hrun]
      exact ⟨_, rfl, ⟨lists, h⟩, ⟨l₂, hids⟩, l₃, hchannels⟩
  | findClient name =>
      obtain ⟨t, r, lists, hrun, -, h, -⟩ := hclients.find name
      rw [TableRun.step, NameTables.findClient, hrun]
      exact ⟨_, rfl, ⟨lists, h⟩, ⟨l₂, hids⟩, l₃, hchannels⟩
  | setName c name =>
      exact ⟨_, rfl, ⟨l₁, hclients.setName hlegal name⟩, ⟨l₂, hids⟩, l₃, hchannels⟩
  | addId c => exact ⟨_, rfl, ⟨l₁, hclients⟩, hids.add hlegal, l₃, hchannels⟩
  | delId c =>
      obtain ⟨t, lists, hrun, -, h⟩ := hids.del c
      rw [TableRun.step, NameTables.hashDelId, hrun]
      exact ⟨_, rfl, ⟨l₁, hclients⟩, ⟨lists, h⟩, l₃, hchannels⟩
  | findId name =>
      obtain ⟨t, r, lists, hrun, -, h, -⟩ := hids.find name
      rw [TableRun.step, NameTables.hashFindId, hrun]
      exact ⟨_, rfl, ⟨l₁, hclients⟩, ⟨lists, h⟩, l₃, hchannels⟩
  | setId c id => exact ⟨_, rfl, ⟨l₁, hclients⟩, ⟨l₂, hids.setName hlegal id⟩, l₃, hchannels⟩
  | addChannel c => exact ⟨_, rfl, ⟨l₁, hclients⟩, ⟨l₂, hids⟩, hchannels.add hlegal⟩
  | delChannel c =>
      obtain ⟨t, lists, hrun, -, h⟩ := hchannels.del c
      rw [TableRun.step, NameTables.hashDelChannel, hrun]
      exact ⟨_, rfl, ⟨l₁, hclients⟩, ⟨l₂, hids⟩, lists, h⟩
  | findChannel name =>
      obtain ⟨t, r, lists, hrun, -, h, -⟩ := hchannels.find name
      rw [TableRun.step, NameTables.hashFindChannel, hrun]
      exact ⟨_, rfl, ⟨l₁, hclients⟩, ⟨l₂, hids⟩, lists, h⟩
  | setChname c name =>
      exact ⟨_, rfl, ⟨l₁, hclients⟩, ⟨l₂, hids⟩, l₃, hchannels.setName hlegal name⟩

theorem Inv.run (h : Inv randomKey s) {es : List (TableEvent α β)}
    (hlegal : LegalRun randomKey s es) : ∃ s', run randomKey s es = some s' ∧ Inv randomKey s' := by
  induction es generalizing s with
  | nil => exact ⟨s, rfl, h⟩
  | cons e es ih =>
      obtain ⟨s₁, hstep, h₁⟩ := h.step hlegal.1
      obtain ⟨s', hrun, h'⟩ := ih h₁ (hlegal.2 s₁ hstep)
      refine ⟨s', ?_, h'⟩
      rw [TableRun.run, List.foldlM_cons, hstep]
      exact hrun

/-- In every run that adds no record twice: each operation returns, the tables are right behind it,
and names that are equal to `irccmp` have one bucket. -/
theorem nameTables_sound (randomKey : U32) (name id : α → Str) (chname : β → Str)
    (es : List (TableEvent α β)) (hlegal : LegalRun randomKey (cleared name id chname) es) :
    (∃ s, run randomKey (cleared name id chname) es = some s ∧ Sound randomKey s) ∧
      ∀ a b, irccmp a b = false → strhash randomKey a = strhash randomKey b := by
  obtain ⟨s, hrun, ⟨_, hclients⟩, ⟨_, hids⟩, _, hchannels⟩ :=
    (cleared_inv name id chname).run hlegal
  exact ⟨⟨s, hrun, hclients.sound, hids.sound, hchannels.sound⟩,
    fun a b h => Hashed.strhash_eq_of_irccmp randomKey h⟩

theorem nameTables_sound_nick : ∃ s, run 0
    (cleared (fun _ : Fin 2 => ['a']) (fun _ => []) fun _ : Fin 1 => [])
    [.addClient 0, .setName 1 ['b'], .addClient 1, .findClient ['A']] = some s ∧ Sound 0 s := by
  refine (nameTables_sound 0 _ _ _ _ ?_).1
  refine ⟨Finset.notMem_empty 0, fun s hs => ?_⟩
  cases hs
  refine ⟨(by decide : (1 : Fin 2) ∉ ({0} : Finset (Fin 2))), fun s hs => ?_⟩
  cases hs
  exact ⟨(by decide : (1 : Fin 2) ∉ ({0} : Finset (Fin 2))),
    fun _ _ => ⟨trivial, fun _ _ => trivial⟩⟩

/-- A client that is added twice and deleted twice is still found. -/
theorem not_nameTables_sound : ¬ ∀ (randomKey : U32) (name id chname : Fin 1 → Str)
    (es : List (TableEvent (Fin 1) (Fin 1))) (s : TableRun (Fin 1) (Fin 1)),
    run randomKey (cleared name id chname) es = some s → Sound randomKey s := by
  intro h
  have hsound := h 0 (fun _ => ['a']) (fun _ => []) (fun _ => [])
    [.addClient 0, .addClient 0, .delClient 0, .delClient 0] _ rfl
  obtain ⟨t', r, hrun, hfound, hmem⟩ := hsound.clients.finds ['a']
  have : (t', r).2 = some 0 := by
    have hfind : (Hashed.find 0 _ ['a']).map Prod.snd = (some (t', r)).map Prod.snd :=
      congrArg (Option.map Prod.snd) hrun
    exact (Option.some.inj hfind).symm
  exact absurd (hmem 0 this).1 (by decide)

end TableRun

end Unirc
