import Unirc.DoublyLinked
import Unirc.NameHash

/-!
# The ring of past nicks

`whowas.c`: the slots of the ring are linked by the hash of the nick and by the client that still
uses them. The abstract history is the list of the last `n` entries, the most recent first.
-/

namespace Unirc

open PointerChain

/-- The ring, its tables, and of the clients their name, their list and how they stand. -/
structure Whowas (n : ℕ) (α : Type*) where
  hashv : Fin n → Option ℕ
  logoff : Fin n → ℤ
  name : Fin n → Buf NICKLEN
  online : Fin n → Option α
  links : Links (Fin n)
  clinks : Links (Fin n)
  whowasHash : ℕ → Option (Fin n)
  whowasNext : Fin n
  clientName : α → Buf (HOSTLEN + 1)
  whowas : α → Option (Fin n)
  live : α → Bool
  isClient : α → Bool

/-- `whowas_next++`, from the end to the start. -/
def nextSlot {n : ℕ} (w : Fin n) : Fin n :=
  if h : w + 1 = n then ⟨0, by omega⟩ else ⟨w + 1, by omega⟩

namespace Whowas

variable {n : ℕ} {α : Type*} [DecidableEq α]

def addWhowasToClist (s : Whowas n α) (c : α) (who : Fin n) : Whowas n α :=
  { s with
    clinks := s.clinks.add (s.whowas c) who
    whowas := Function.update s.whowas c (some who) }

def delWhowasFromClist (s : Whowas n α) (c : α) (who : Fin n) : Whowas n α :=
  let d := s.clinks.del (s.whowas c) who
  { s with clinks := d.1, whowas := Function.update s.whowas c d.2 }

omit [DecidableEq α] in
def addWhowasToList (s : Whowas n α) (hashv : ℕ) (who : Fin n) : Whowas n α :=
  { s with
    links := s.links.add (s.whowasHash hashv) who
    whowasHash := Function.update s.whowasHash hashv (some who) }

def delWhowasFromList (s : Whowas n α) (hashv : ℕ) (who : Fin n) : Whowas n α :=
  let d := s.links.del (s.whowasHash hashv) who
  { s with links := d.1, whowasHash := Function.update s.whowasHash hashv d.2 }

/-- A slot that is used again leaves its chains; `none` when its client is gone. -/
def reuse (s : Whowas n α) (who : Fin n) : Option (Whowas n α) :=
  match s.hashv who with
  | none => some s
  | some hashv =>
      match s.online who with
      | none => some (s.delWhowasFromList hashv who)
      | some c =>
          if s.live c then some ((s.delWhowasFromClist c who).delWhowasFromList hashv who)
          else none

/-- `add_history`. -/
def addHistory (randomKey : U32) (now : ℤ) (s : Whowas n α) (c : α) (online : Bool) :
    Option (Whowas n α) := do
  let who := s.whowasNext
  let s ← s.reuse who
  let hashv := strhash randomKey (s.clientName c).val
  let s := { s with
    hashv := Function.update s.hashv who (some hashv)
    logoff := Function.update s.logoff who now
    name := Function.update s.name who (Buf.strlcpy (s.clientName c).val) }
  let s :=
    if online then { s with online := Function.update s.online who (some c) }.addWhowasToClist c who
    else { s with online := Function.update s.online who none }
  let s := s.addWhowasToList hashv who
  return { s with whowasNext := nextSlot who }

/-- The loop of `off_history`, at `temp`. -/
def offLoop : ℕ → Whowas n α → α → Option (Fin n) → Option (Whowas n α)
  | _, s, _, none => some s
  | 0, _, _, some _ => none
  | m + 1, s, c, some temp =>
      let next := s.clinks.next temp
      let s := { s with online := Function.update s.online temp none }
      offLoop m (s.delWhowasFromClist c temp) c next

def offHistory (s : Whowas n α) (c : α) : Option (Whowas n α) := offLoop n s c (s.whowas c)

/-- The loop of `get_history`, at `temp`. -/
def getLoop (s : Whowas n α) (nick : Str) (timelimit : ℤ) :
    ℕ → Option (Fin n) → Option (Option α)
  | _, none => some none
  | 0, some _ => none
  | m + 1, some temp =>
      if irccmp nick (s.name temp).val then getLoop s nick timelimit m (s.links.next temp)
      else if s.logoff temp < timelimit then getLoop s nick timelimit m (s.links.next temp)
      else some (s.online temp)

/-- `get_history`; `none` when the chain does not end. -/
def getHistory (randomKey : U32) (now : ℤ) (s : Whowas n α) (nick : Str) (timelimit : ℤ) :
    Option (Option α) :=
  getLoop s nick (now - timelimit) n (s.whowasHash (strhash randomKey nick))

/-- What `exit_one_client` does to the history, and to the client. -/
def exitOneClient (randomKey : U32) (now : ℤ) (s : Whowas n α) (c : α) : Option (Whowas n α) := do
  let s ←
    if s.isClient c then do
      let s ← s.addHistory randomKey now c false
      s.offHistory c
    else some s
  return { s with
    live := Function.update s.live c false
    isClient := Function.update s.isClient c false }

end Whowas

/-- An entry of the abstract history. -/
structure HistoryEntry (α : Type*) where
  name : Str
  logoff : ℤ
  online : Option α

namespace History

variable {α : Type*} [DecidableEq α]

/-- The last `n` entries. -/
def record (n : ℕ) (e : HistoryEntry α) (history : List (HistoryEntry α)) :
    List (HistoryEntry α) := (e :: history).take n

def forget (c : α) (history : List (HistoryEntry α)) : List (HistoryEntry α) :=
  history.map fun e => if e.online = some c then { e with online := none } else e

omit [DecidableEq α] in
/-- The client of the most recent entry for the nick that is not too old. -/
def lookup (nick : Str) (limit : ℤ) (history : List (HistoryEntry α)) : Option α :=
  (history.find? fun e => !irccmp nick e.name && limit ≤ e.logoff).bind HistoryEntry.online

end History

/-- The ring and the abstract history. -/
structure WhowasRun (n : ℕ) (α : Type*) where
  ring : Whowas n α
  history : List (HistoryEntry α)

inductive WhowasEvent (α : Type*)
  | make (c : α)
  | nick (c : α) (nick : Buf NICKLEN)
  | register (c : α)
  | add (c : α) (online : Bool) (now : ℤ)
  | off (c : α)
  | exit (c : α) (now : ℤ)

namespace WhowasRun

variable {n : ℕ} {α : Type*} [DecidableEq α]

def step (randomKey : U32) (s : WhowasRun n α) : WhowasEvent α → Option (WhowasRun n α)
  | .make c => some { s with ring := { s.ring with
      live := Function.update s.ring.live c true
      isClient := Function.update s.ring.isClient c false
      clientName := Function.update s.ring.clientName c Buf.empty
      whowas := Function.update s.ring.whowas c none } }
  | .nick c nick => some { s with ring := { s.ring with
      clientName := Function.update s.ring.clientName c (Buf.strlcpy nick.val) } }
  | .register c => some { s with ring := { s.ring with
      isClient := Function.update s.ring.isClient c true } }
  | .add c online now => do
      let ring ← s.ring.addHistory randomKey now c online
      let e := ⟨(s.ring.clientName c).val, now, if online then some c else none⟩
      return ⟨ring, History.record n e s.history⟩
  | .off c => do
      let ring ← s.ring.offHistory c
      return ⟨ring, History.forget c s.history⟩
  | .exit c now => do
      let ring ← s.ring.exitOneClient randomKey now c
      let e := ⟨(s.ring.clientName c).val, now, none⟩
      return ⟨ring, if s.ring.isClient c then History.forget c (History.record n e s.history)
        else s.history⟩

/-- Only clients that are there do anything, and the history is theirs that are registered. -/
def Legal (s : WhowasRun n α) : WhowasEvent α → Prop
  | .make c => s.ring.live c = false
  | .nick c _ | .register c | .exit c _ => s.ring.live c = true
  | .add c _ _ | .off c => s.ring.isClient c = true

/-- `init_whowas`, without any client. -/
def initWhowas (h : 0 < n) (links clinks : Links (Fin n)) (logoff : Fin n → ℤ)
    (name : Fin n → Buf NICKLEN) : WhowasRun n α where
  ring := ⟨fun _ => none, logoff, name, fun _ => none, links, clinks, fun _ => none, ⟨0, h⟩,
    fun _ => Buf.empty, fun _ => none, fun _ => false, fun _ => false⟩
  history := []

inductive Reachable (randomKey : U32) : WhowasRun n α → Prop
  | init (h : 0 < n) (links clinks : Links (Fin n)) (logoff : Fin n → ℤ)
      (name : Fin n → Buf NICKLEN) : Reachable randomKey (initWhowas h links clinks logoff name)
  | step {s s' : WhowasRun n α} {e : WhowasEvent α} (hs : Reachable randomKey s)
      (hlegal : s.Legal e) (hstep : s.step randomKey e = some s') : Reachable randomKey s'

end WhowasRun

/-- Each slot of the list is followed by the one that was used before it. -/
def Ring {n : ℕ} : Fin n → List (Fin n) → Prop
  | _, [] => True
  | next, w :: l => nextSlot w = next ∧ Ring w l

namespace Ring

variable {n : ℕ} {next w : Fin n} {l : List (Fin n)}

theorem nextSlot_injective : Function.Injective (nextSlot : Fin n → Fin n) := by
  intro a b h
  have ha := a.isLt
  have hb := b.isLt
  simp only [nextSlot] at h
  split at h <;> split at h <;> rw [Fin.ext_iff] at h ⊢ <;> simp only at h <;> omega

/-- A set of slots that the step stays in is all of them. -/
theorem mem_of_closed {p : Fin n → Prop} (hw : p w) (hstep : ∀ a, p a → p (nextSlot a))
    (b : Fin n) : p b := by
  have hup : ∀ (k : ℕ) (a : Fin n), p a → ∀ h : (a : ℕ) + k < n, p ⟨a + k, h⟩ := by
    intro k
    induction k with
    | zero => exact fun a ha _ => ha
    | succ k ih =>
        intro a ha h
        have hne : ¬((a : ℕ) + k + 1 = n) := by omega
        have hk := hstep _ (ih a ha (by omega))
        rwa [nextSlot, dif_neg hne] at hk
  have hpos : 0 < n := b.pos
  have hzero : p ⟨0, hpos⟩ := by
    have hlt := w.isLt
    have he : (w : ℕ) + (n - 1 - w) + 1 = n := by omega
    have hlast := hstep _ (hup (n - 1 - w) w hw (by omega))
    rwa [nextSlot, dif_pos he] at hlast
  have := hup b ⟨0, hpos⟩ hzero (by simp)
  simpa using this

theorem closed (h : Ring next l) (ha : w ∈ l) : nextSlot w = next ∨ nextSlot w ∈ l := by
  induction l generalizing next with
  | nil => cases ha
  | cons a l ih =>
      rcases List.mem_cons.mp ha with rfl | ha
      · exact .inl h.1
      · rcases ih h.2 ha with he | he
        · exact .inr (he ▸ List.mem_cons_self)
        · exact .inr (List.mem_cons_of_mem a he)

theorem nextSlot_eq {b : Fin n} {l₁ l₂ : List (Fin n)} (h : Ring next (l₁ ++ w :: b :: l₂)) :
    nextSlot b = w := by
  induction l₁ generalizing next with
  | nil => exact h.2.1
  | cons a l₁ ih => exact ih h.2

/-- The slot that comes next is unused, or the oldest of all. -/
theorem eq_concat (h : Ring next l) (hnd : l.Nodup) (hnext : next ∈ l) :
    (∀ w, w ∈ l) ∧ ∃ l', l = l' ++ [next] := by
  refine ⟨fun w => mem_of_closed (p := (· ∈ l)) hnext (fun a ha => ?_) w, ?_⟩
  · rcases h.closed ha with he | he
    · exact he ▸ hnext
    · exact he
  · obtain ⟨l₁, l₂, rfl⟩ := List.append_of_mem hnext
    cases l₂ with
    | nil => exact ⟨l₁, rfl⟩
    | cons b l₂ =>
        have hb := h.nextSlot_eq
        cases l₁ with
        | nil =>
            have : b = next := nextSlot_injective (hb.trans h.1.symm)
            simp [this] at hnd
        | cons a l₁ =>
            have : b = a := nextSlot_injective (hb.trans h.1.symm)
            simp [this] at hnd

theorem erase_last {l' : List (Fin n)} (h : Ring next (l' ++ [w])) : Ring next l' := by
  induction l' generalizing next with
  | nil => trivial
  | cons a l' ih => exact ⟨h.1, ih h.2⟩

end Ring

namespace Whowas

variable {n : ℕ} {α : Type*} [DecidableEq α]

def entry (s : Whowas n α) (w : Fin n) : HistoryEntry α := ⟨(s.name w).val, s.logoff w, s.online w⟩

/-- The slots of `order` are in use, the most recent first. -/
structure Inv (randomKey : U32) (s : Whowas n α) (order : List (Fin n)) : Prop where
  hash : KeyedChains s.links s.whowasHash s.hashv order
  client : KeyedChains s.clinks s.whowas s.online order
  used : ∀ w, w ∈ order ↔ s.hashv w ≠ none
  hashv : ∀ w i, s.hashv w = some i → i = strhash randomKey (s.name w).val
  online : ∀ w c, s.online w = some c → w ∈ order ∧ s.isClient c = true
  live : ∀ c, s.isClient c = true → s.live c = true
  fits : ∀ c, (s.clientName c).val.length < NICKLEN
  ring : Ring s.whowasNext order

namespace Inv

variable {randomKey : U32} {s : Whowas n α} {order : List (Fin n)} {c : α}

theorem reuse (h : Inv randomKey s order) : ∃ links heads clinks bucket,
    s.reuse s.whowasNext = some { s with
      links := links, whowasHash := heads, clinks := clinks, whowas := bucket } ∧
    KeyedChains links heads (Function.update s.hashv s.whowasNext none)
      (order.erase s.whowasNext) ∧
    KeyedChains clinks bucket (Function.update s.online s.whowasNext none)
      (order.erase s.whowasNext) := by
  rw [Whowas.reuse]
  cases hhash : s.hashv s.whowasNext with
  | none =>
      have hout : s.online s.whowasNext = none := by
        by_contra hne
        obtain ⟨c, hc⟩ := Option.ne_none_iff_exists'.mp hne
        exact (h.used _).mp (h.online _ c hc).1 hhash
      have hkey := Function.update_eq_self s.whowasNext s.hashv
      have hkey' := Function.update_eq_self s.whowasNext s.online
      rw [hhash] at hkey
      rw [hout] at hkey'
      rw [hkey, hkey']
      exact ⟨s.links, s.whowasHash, s.clinks, s.whowas, rfl, h.hash.erase hhash,
        h.client.erase hout⟩
  | some i =>
      have hmem : s.whowasNext ∈ order := (h.used _).mpr (by rw [hhash]; exact nofun)
      have hhash' := (h.hash.unkey hmem hhash).erase (Function.update_self ..)
      dsimp only
      cases honline : s.online s.whowasNext with
      | none =>
          have hkey := Function.update_eq_self s.whowasNext s.online
          rw [honline] at hkey
          rw [hkey]
          exact ⟨_, _, s.clinks, s.whowas, rfl, hhash', h.client.erase honline⟩
      | some c =>
          dsimp only
          rw [if_pos (h.live c (h.online _ c honline).2)]
          exact ⟨_, _, _, _, rfl, hhash',
            (h.client.unkey hmem honline).erase (Function.update_self ..)⟩

omit [DecidableEq α] in
theorem map_entry_congr {s' : Whowas n α} {who : Fin n} {l : List (Fin n)}
    (hsame : ∀ w, w ≠ who → s'.entry w = s.entry w) (hl : who ∉ l) :
    l.map s'.entry = l.map s.entry :=
  List.map_congr_left fun w hw => hsame w (ne_of_mem_of_not_mem hw hl)

theorem length_le (h : Inv randomKey s order) : order.length ≤ n := by
  simpa using h.hash.nodup.length_le_card

/-- The slot that is taken is not in use, or its entry is the last of the history. -/
theorem last_or_unused (h : Inv randomKey s order) : s.whowasNext ∉ order ∨
    order.length = n ∧ ∃ l, order = l ++ [s.whowasNext] ∧ order.erase s.whowasNext = l := by
  by_cases hmem : s.whowasNext ∈ order
  · obtain ⟨hall, l, hl⟩ := h.ring.eq_concat h.hash.nodup hmem
    refine .inr ⟨le_antisymm h.length_le ?_, l, hl, ?_⟩
    · have hsub : List.finRange n ⊆ order := fun w _ => hall w
      simpa using ((List.nodup_finRange n).subperm hsub).length_le
    · have hnd := h.hash.nodup
      rw [hl] at hnd ⊢
      rw [List.erase_append_right _ fun hw =>
        (List.nodup_append.mp hnd).2.2 _ hw _ List.mem_cons_self rfl]
      simp
  · exact .inl hmem

/-- The ring records what the abstract history does. -/
theorem record (h : Inv randomKey s order) {s' : Whowas n α}
    (hsame : ∀ w, w ≠ s.whowasNext → s'.entry w = s.entry w) :
    (s.whowasNext :: order.erase s.whowasNext).map s'.entry =
      History.record n (s'.entry s.whowasNext) (order.map s.entry) := by
  rw [List.map_cons, map_entry_congr hsame (h.hash.nodup.not_mem_erase), History.record]
  rcases h.last_or_unused with hout | ⟨hlen, l, hl, herase⟩
  · have hnd : (s.whowasNext :: order).Nodup := List.nodup_cons.mpr ⟨hout, h.hash.nodup⟩
    have hlen : (s.whowasNext :: order).length ≤ n := by simpa using hnd.length_le_card
    rw [List.erase_of_not_mem hout, List.take_of_length_le]
    simpa using hlen
  · rw [herase]
    have hl' : order.map s.entry = l.map s.entry ++ [s.entry s.whowasNext] := by
      rw [hl, List.map_append, List.map_singleton]
    rw [hl] at hlen
    rw [hl', ← List.cons_append, List.take_left']
    simpa using hlen

theorem ring_erase (h : Inv randomKey s order) :
    Ring (nextSlot s.whowasNext) (s.whowasNext :: order.erase s.whowasNext) := by
  refine ⟨rfl, ?_⟩
  have hring := h.ring
  rcases h.last_or_unused with hout | ⟨-, l, hl, herase⟩
  · rwa [List.erase_of_not_mem hout]
  · rw [hl] at hring
    rw [herase]
    exact hring.erase_last

theorem add (h : Inv randomKey s order) (hc : s.isClient c = true) (online : Bool) (now : ℤ) :
    ∃ s', s.addHistory randomKey now c online = some s' ∧
      Inv randomKey s' (s.whowasNext :: order.erase s.whowasNext) ∧
      (s.whowasNext :: order.erase s.whowasNext).map s'.entry = History.record n
        ⟨(s.clientName c).val, now, if online then some c else none⟩ (order.map s.entry) ∧
      s'.isClient = s.isClient ∧ s'.live = s.live ∧ s'.clientName = s.clientName := by
  obtain ⟨links, heads, clinks, bucket, hreuse, hhash, hclient⟩ := h.reuse
  have hnd := h.hash.nodup
  have hring := h.ring_erase
  have hrec := @record _ _ _ randomKey s order h
  have hused := h.used
  have hhashv := h.hashv
  have honline := h.online
  have hname : (Buf.strlcpy (s.clientName c).val : Buf NICKLEN).val = (s.clientName c).val :=
    List.take_of_length_le (Nat.le_of_lt_succ (h.fits c))
  have hlive := h.live
  have hfits := h.fits
  generalize hwho : s.whowasNext = who at *
  have hout : who ∉ order.erase who := hnd.not_mem_erase
  have hpush := hhash.push hout (strhash randomKey (s.clientName c).val)
  rw [Function.update_idem] at hpush
  rw [addHistory, hwho, hreuse]
  have hused' : ∀ w, w ∈ who :: order.erase who ↔ Function.update s.hashv who
      (some (strhash randomKey (s.clientName c).val)) w ≠ none := by
    intro w
    rw [List.mem_cons, hnd.mem_erase_iff, hused, Function.update_apply]
    by_cases hw : w = who <;> simp [hw]
  have hhashv' : ∀ w i, Function.update s.hashv who
      (some (strhash randomKey (s.clientName c).val)) w = some i → i = strhash randomKey
        (Function.update s.name who (Buf.strlcpy (s.clientName c).val) w).val := by
    intro w i hw
    rw [Function.update_apply] at hw ⊢
    split at hw
    · rename_i hw'
      rw [if_pos hw', hname]
      exact (Option.some.inj hw).symm
    · rename_i hw'
      rw [if_neg hw']
      exact hhashv w i hw
  have honline' : ∀ v : Option α, (∀ d ∈ v, s.isClient d = true) → ∀ w d,
      Function.update s.online who v w = some d → w ∈ who :: order.erase who ∧
        s.isClient d = true := by
    intro v hv w d hw
    rw [Function.update_apply] at hw
    split at hw
    · rename_i hw'
      exact ⟨hw' ▸ List.mem_cons_self, hv d hw⟩
    · rename_i hw'
      obtain ⟨hmem, hd⟩ := honline w d hw
      exact ⟨List.mem_cons_of_mem _ (hnd.mem_erase_iff.mpr ⟨hw', hmem⟩), hd⟩
  have hother : ∀ {s' : Whowas n α} {v : Option α} {w}, w ≠ who →
      s'.name = Function.update s.name who (Buf.strlcpy (s.clientName c).val) →
      s'.logoff = Function.update s.logoff who now → s'.online = Function.update s.online who v →
      s'.entry w = s.entry w := by
    intro s' v w hw h₁ h₂ h₃
    rw [entry, entry, h₁, h₂, h₃, Function.update_of_ne hw, Function.update_of_ne hw,
      Function.update_of_ne hw]
  have hself : ∀ {s' : Whowas n α} {v : Option α},
      s'.name = Function.update s.name who (Buf.strlcpy (s.clientName c).val) →
      s'.logoff = Function.update s.logoff who now → s'.online = Function.update s.online who v →
      s'.entry who = ⟨(s.clientName c).val, now, v⟩ := by
    intro s' v h₁ h₂ h₃
    rw [entry, h₁, h₂, h₃, Function.update_self, Function.update_self, Function.update_self, hname]
  cases online with
  | false =>
      have hclient' := hclient.pushNone hout
      rw [Function.update_idem] at hclient'
      refine ⟨_, rfl, ⟨hpush, hclient', hused', hhashv', honline' none nofun, hlive, hfits, hring⟩,
        ?_, rfl, rfl, rfl⟩
      refine (hrec fun w hw => hother hw rfl rfl rfl).trans ?_
      exact congrArg (History.record n · _) (hself rfl rfl rfl)
  | true =>
      have hclient' := hclient.push hout c
      rw [Function.update_idem] at hclient'
      refine ⟨_, rfl, ⟨hpush, hclient', hused', hhashv', honline' (some c) ?_, hlive, hfits, hring⟩,
        ?_, rfl, rfl, rfl⟩
      · intro d hd
        cases hd
        exact hc
      refine (hrec fun w hw => hother hw rfl rfl rfl).trans ?_
      exact congrArg (History.record n · _) (hself rfl rfl rfl)

/-- The loop of `off_history` clears what is left of the client's list. -/
theorem offLoop_spec {m : ℕ} {l : List (Fin n)}
    (h : KeyedChains s.clinks s.whowas s.online order)
    (hin : ∀ w, s.online w = some c → w ∈ order) (hl : (order.filter fun w => s.online w = some c) = l) (hm : l.length ≤ m) :
    ∃ clinks bucket, offLoop m s c l.head? = some { s with
      online := fun w => if s.online w = some c then none else s.online w
      clinks := clinks
      whowas := bucket } ∧
    KeyedChains clinks bucket (fun w => if s.online w = some c then none else s.online w) order := by
  induction l generalizing s m with
  | nil =>
      have hnone : (fun w => if s.online w = some c then none else s.online w) = s.online := by
        funext w
        split
        · rename_i hw
          have hmem : w ∈ order.filter fun w => s.online w = some c :=
            List.mem_filter.mpr ⟨hin w hw, by simpa using hw⟩
          rw [hl] at hmem
          cases hmem
        · rfl
      rw [hnone]
      exact ⟨s.clinks, s.whowas, by cases m <;> rfl, h⟩
  | cons temp l ih =>
      obtain ⟨m, rfl⟩ : ∃ k, m = k + 1 := ⟨m - 1, by rw [List.length_cons] at hm; omega⟩
      have hmem : temp ∈ order.filter fun w => s.online w = some c := hl ▸ List.mem_cons_self
      obtain ⟨htemp, honline⟩ := List.mem_filter.mp hmem
      have honline : s.online temp = some c := of_decide_eq_true honline
      have hchain := h.filed.filed.chain c
      rw [hl] at hchain
      have hnext : s.clinks.next temp = l.head? := Chain.head hchain.2
      have hstep := h.unkey htemp honline
      obtain ⟨clinks, bucket, hrun, hkeyed⟩ := @ih
        ({ s with online := Function.update s.online temp none }.delWhowasFromClist c temp) m hstep
        (fun w hw => hin w (by
          have hw : Function.update s.online temp none w = some c := hw
          rw [Function.update_apply] at hw
          split at hw
          · cases hw
          · exact hw)) (KeyedChains.filter_unkey h.nodup hl) (Nat.le_of_succ_le_succ hm)
      have hsame : (fun w => if Function.update s.online temp none w = some c then none else
          Function.update s.online temp none w) =
          fun w => if s.online w = some c then none else s.online w := by
        funext w
        by_cases hw : w = temp
        · rw [hw, Function.update_self, honline, if_neg nofun, if_pos rfl]
        · rw [Function.update_of_ne hw]
      refine ⟨clinks, bucket, ?_, ?_⟩
      · rw [List.head?_cons, offLoop, hnext, hrun, ← hsame]
        rfl
      · rw [← hsame]
        exact hkeyed

theorem off (h : Inv randomKey s order) (c : α) :
    ∃ s', s.offHistory c = some s' ∧ Inv randomKey s' order ∧
      order.map s'.entry = History.forget c (order.map s.entry) ∧ (∀ w, s'.online w ≠ some c) ∧
      s'.isClient = s.isClient ∧ s'.live = s.live ∧ s'.clientName = s.clientName := by
  have hhead := (h.client.filed.filed.chain c).head
  have hlen := List.length_filter_le (fun w => s.online w = some c) order
  obtain ⟨clinks, bucket, hrun, hkeyed⟩ := offLoop_spec h.client
    (fun w hw => (h.online w c hw).1) rfl (hlen.trans h.length_le)
  rw [offHistory, hhead, hrun]
  refine ⟨_, rfl, ⟨h.hash, hkeyed, h.used, h.hashv, fun w d hw => ?_, h.live, h.fits, h.ring⟩, ?_,
    fun w => ?_, rfl, rfl, rfl⟩
  · dsimp only at hw
    split at hw
    · cases hw
    · exact h.online w d hw
  · rw [History.forget, List.map_map]
    refine List.map_congr_left fun w _ => ?_
    by_cases hw : s.online w = some c <;> simp [entry, hw]
  · dsimp only
    split
    · exact nofun
    · assumption

omit [DecidableEq α] in
theorem getLoop_spec {nick : Str} {limit : ℤ} {m : ℕ} {p : Option (Fin n)} {l : List (Fin n)}
    (hchain : Chain s.links.next p l) (hm : l.length ≤ m) :
    s.getLoop nick limit m p = some (History.lookup nick limit (l.map s.entry)) := by
  induction l generalizing p m with
  | nil =>
      cases hchain
      cases m <;> rfl
  | cons w l ih =>
      obtain ⟨m, rfl⟩ : ∃ k, m = k + 1 := ⟨m - 1, by rw [List.length_cons] at hm; omega⟩
      obtain ⟨rfl, hchain⟩ := hchain
      have ih := ih hchain (Nat.le_of_succ_le_succ hm)
      rw [getLoop, List.map_cons, History.lookup, List.find?_cons]
      rw [History.lookup] at ih
      cases hname : irccmp nick (s.name w).val with
      | true =>
          rw [if_pos rfl, ih]
          simp [entry, hname]
      | false =>
          rw [if_neg Bool.false_ne_true]
          by_cases hold : s.logoff w < limit
          · have hlt : ¬limit ≤ s.logoff w := not_le.mpr hold
            rw [if_pos hold, ih]
            simp [entry, hname, hlt]
          · rw [if_neg hold]
            simp [entry, hname, not_lt.mp hold]

/-- The chain of the nick is searched for what the whole history has. -/
theorem get (h : Inv randomKey s order) (nick : Str) (now timelimit : ℤ) :
    s.getHistory randomKey now nick timelimit =
      some (History.lookup nick (now - timelimit) (order.map s.entry)) := by
  have hchain := h.hash.filed.filed.chain (strhash randomKey nick)
  rw [getHistory, getLoop_spec hchain ((List.length_filter_le ..).trans h.length_le)]
  rw [History.lookup, History.lookup, List.find?_map, List.find?_map, ← List.head?_filter,
    ← List.head?_filter, List.filter_filter]
  congr 4
  refine List.filter_congr fun w hw => ?_
  rw [Bool.and_eq_left_iff_imp]
  intro hmatch
  have hname : irccmp nick (s.name w).val = false := by
    simp [entry] at hmatch
    exact hmatch.1
  obtain ⟨i, hi⟩ := Option.ne_none_iff_exists'.mp ((h.used w).mp hw)
  have hsame := h.hashv w i hi
  rw [← strhash_fold, ← (fold_eq_iff _ _).mpr hname, strhash_fold] at hsame
  exact decide_eq_true (hsame ▸ hi)

/-- A client without a slot has an empty list. -/
theorem whowas_eq_none (h : Inv randomKey s order) (hc : s.isClient c = false) :
    s.whowas c = none := by
  have hempty : (order.filter fun w => s.online w = some c) = [] := by
    refine List.filter_eq_nil_iff.mpr fun w _ hw => ?_
    have := (h.online w c (of_decide_eq_true hw)).2
    rw [hc] at this
    cases this
  have hchain := h.client.filed.filed.chain c
  rw [hempty] at hchain
  exact hchain

/-- A client that no slot names leaves. -/
theorem leave (h : Inv randomKey s order) (hc : ∀ w, s.online w ≠ some c) :
    Inv randomKey { s with
      live := Function.update s.live c false
      isClient := Function.update s.isClient c false } order where
  hash := h.hash
  client := h.client
  used := h.used
  hashv := h.hashv
  online w d hw := by
    have hd : d ≠ c := fun hd => hc w (hd ▸ hw)
    exact ⟨(h.online w d hw).1, (Function.update_of_ne hd ..).trans (h.online w d hw).2⟩
  live d hd := by
    dsimp only at hd ⊢
    rw [Function.update_apply] at hd ⊢
    split at hd
    · cases hd
    · rename_i hdc
      rw [if_neg hdc]
      exact h.live d hd
  fits := h.fits
  ring := h.ring

theorem exit (h : Inv randomKey s order) (c : α) (now : ℤ) :
    ∃ s' order', s.exitOneClient randomKey now c = some s' ∧ Inv randomKey s' order' ∧
      order'.map s'.entry = if s.isClient c then
        History.forget c (History.record n ⟨(s.clientName c).val, now, none⟩ (order.map s.entry))
        else order.map s.entry := by
  rw [exitOneClient]
  cases hc : s.isClient c with
  | false =>
      refine ⟨_, order, rfl, h.leave fun w hw => ?_, rfl⟩
      have := (h.online w c hw).2
      rw [hc] at this
      cases this
  | true =>
      obtain ⟨s₁, hadd, h₁, hentries, -⟩ := h.add hc false now
      obtain ⟨s₂, hoff, h₂, hentries₂, hnone, -⟩ := h₁.off c
      refine ⟨_, _, ?_, h₂.leave hnone, ?_⟩
      · rw [if_pos rfl, hadd]
        exact congrArg (Option.bind · _) hoff
      · rw [hentries] at hentries₂
        exact hentries₂

end Inv

end Whowas

namespace WhowasRun

variable {n : ℕ} {α : Type*} [DecidableEq α] {randomKey : U32} {s s' : WhowasRun n α}

/-- The ring has what the abstract history has. -/
def Inv (randomKey : U32) (s : WhowasRun n α) : Prop :=
  ∃ order, Whowas.Inv randomKey s.ring order ∧ order.map s.ring.entry = s.history

theorem Inv.step (h : Inv randomKey s) {e : WhowasEvent α} (hlegal : s.Legal e) :
    ∃ s', s.step randomKey e = some s' ∧ Inv randomKey s' := by
  obtain ⟨order, h, hhistory⟩ := h
  cases e with
  | make c =>
      have hc : s.ring.isClient c = false := by
        by_contra hne
        have := h.live c (by simpa using hne)
        rw [hlegal] at this
        cases this
      have hwhowas := Function.update_eq_self c s.ring.whowas
      rw [h.whowas_eq_none hc] at hwhowas
      have hisClient := Function.update_eq_self c s.ring.isClient
      rw [hc] at hisClient
      refine ⟨_, rfl, order, ⟨h.hash, ?_, h.used, h.hashv, ?_, fun d hd => ?_, fun d => ?_, h.ring⟩,
        hhistory⟩
      · dsimp only
        rw [hwhowas]
        exact h.client
      · dsimp only
        rw [hisClient]
        exact h.online
      · dsimp only at hd ⊢
        rw [hisClient] at hd
        rw [Function.update_apply]
        split
        · rfl
        · exact h.live d hd
      · dsimp only
        rw [Function.update_apply]
        split
        · decide
        · exact h.fits d
  | nick c nick =>
      refine ⟨_, rfl, order, ⟨h.hash, h.client, h.used, h.hashv, h.online, h.live, fun d => ?_,
        h.ring⟩, hhistory⟩
      dsimp only
      rw [Function.update_apply]
      split
      · exact (List.length_take_le' ..).trans_lt nick.property
      · exact h.fits d
  | register c =>
      refine ⟨_, rfl, order, ⟨h.hash, h.client, h.used, h.hashv, fun w d hw => ⟨(h.online w d hw).1,
        ?_⟩, fun d hd => ?_, h.fits, h.ring⟩, hhistory⟩
      · dsimp only
        rw [Function.update_apply]
        split
        · rfl
        · exact (h.online w d hw).2
      · dsimp only at hd
        rw [Function.update_apply] at hd
        split at hd
        · rename_i hdc
          exact hdc ▸ hlegal
        · exact h.live d hd
  | add c online now =>
      obtain ⟨ring, hrun, h', hentries, -⟩ := h.add hlegal online now
      rw [hhistory] at hentries
      rw [WhowasRun.step, hrun]
      exact ⟨_, rfl, _, h', hentries⟩
  | off c =>
      obtain ⟨ring, hrun, h', hentries, -⟩ := h.off c
      rw [hhistory] at hentries
      rw [WhowasRun.step, hrun]
      exact ⟨_, rfl, _, h', hentries⟩
  | exit c now =>
      obtain ⟨ring, order', hrun, h', hentries⟩ := h.exit c now
      rw [hhistory] at hentries
      rw [WhowasRun.step, hrun]
      exact ⟨_, rfl, order', h', hentries⟩

theorem Reachable.inv (hs : Reachable randomKey s) : Inv randomKey s := by
  induction hs with
  | init h links clinks logoff name =>
      exact ⟨[], ⟨.nil, .nil, fun w => iff_of_false List.not_mem_nil fun h => h rfl, nofun, nofun,
        nofun, fun _ => (by decide : 0 < NICKLEN), trivial⟩, rfl⟩
  | step hs hlegal hstep ih =>
      obtain ⟨s', hstep', h'⟩ := ih.step hlegal
      rw [hstep'] at hstep
      cases hstep
      exact h'

/-- What holds of the ring between two calls. -/
structure Sound (randomKey : U32) (s : WhowasRun n α) : Prop where
  hashChain : ∀ i, ∃ l, Chain s.ring.links.next (s.ring.whowasHash i) l ∧ l.Nodup ∧
    ∀ w, w ∈ l ↔ s.ring.hashv w = some i
  hashv : ∀ w i, s.ring.hashv w = some i → i = strhash randomKey (s.ring.name w).val
  clientChain : ∀ c, ∃ l, Chain s.ring.clinks.next (s.ring.whowas c) l ∧ l.Nodup ∧
    ∀ w, w ∈ l ↔ s.ring.online w = some c
  live : ∀ w c, s.ring.online w = some c → s.ring.live c = true
  oldest : s.ring.hashv s.ring.whowasNext ≠ none →
    s.history.length = n ∧ s.history.getLast? = some (s.ring.entry s.ring.whowasNext)
  reuse : ∀ c online now, s.ring.isClient c = true → ∃ s',
    s.ring.addHistory randomKey now c online = some s' ∧
    (∀ i l, Chain s'.links.next (s'.whowasHash i) l →
      (s.ring.whowasNext ∈ l ↔ i = strhash randomKey (s.ring.clientName c).val)) ∧
    ∀ d l, Chain s'.clinks.next (s'.whowas d) l →
      (s.ring.whowasNext ∈ l ↔ online = true ∧ d = c)
  get : ∀ nick now timelimit, s.ring.getHistory randomKey now nick timelimit =
    some (History.lookup nick (now - timelimit) s.history)
  returns : ∀ e, s.Legal e → (s.step randomKey e).isSome

theorem Inv.oldest (h : Inv randomKey s) (hused : s.ring.hashv s.ring.whowasNext ≠ none) :
    s.history.length = n ∧ s.history.getLast? = some (s.ring.entry s.ring.whowasNext) := by
  obtain ⟨order, h, hhistory⟩ := h
  rw [← hhistory]
  rcases h.last_or_unused with hout | ⟨hlen, l, hl, -⟩
  · exact absurd ((h.used _).mpr hused) hout
  · rw [List.length_map]
    refine ⟨hlen, ?_⟩
    rw [hl]
    simp

theorem Inv.reuse (h : Inv randomKey s) {c : α} (hc : s.ring.isClient c = true) (online : Bool)
    (now : ℤ) : ∃ s', s.ring.addHistory randomKey now c online = some s' ∧
      (∀ i l, Chain s'.links.next (s'.whowasHash i) l →
        (s.ring.whowasNext ∈ l ↔ i = strhash randomKey (s.ring.clientName c).val)) ∧
      ∀ d l, Chain s'.clinks.next (s'.whowas d) l →
        (s.ring.whowasNext ∈ l ↔ online = true ∧ d = c) := by
  obtain ⟨order, h, -⟩ := h
  obtain ⟨s', hrun, h', hentries, -⟩ := h.add hc online now
  have hentry : s'.entry s.ring.whowasNext =
      ⟨(s.ring.clientName c).val, now, if online then some c else none⟩ := by
    have hhead := congrArg List.head? hentries
    rw [List.map_cons, List.head?_cons, History.record, List.head?_take,
      if_neg s.ring.whowasNext.pos.ne'] at hhead
    exact Option.some.inj hhead
  have hname := congrArg HistoryEntry.name hentry
  have honline := congrArg HistoryEntry.online hentry
  dsimp only [Whowas.entry] at hname honline
  refine ⟨s', hrun, fun i l hl => ?_, fun d l hl => ?_⟩
  · rw [hl.unique (h'.hash.filed.filed.chain i), List.mem_filter,
      and_iff_right List.mem_cons_self, decide_eq_true_eq]
    obtain ⟨j, hj⟩ := Option.ne_none_iff_exists'.mp ((h'.used _).mp List.mem_cons_self)
    have hhashv := h'.hashv _ j hj
    rw [hname] at hhashv
    rw [hj, ← hhashv, Option.some.injEq, eq_comm]
  · rw [hl.unique (h'.client.filed.filed.chain d), List.mem_filter,
      and_iff_right List.mem_cons_self, decide_eq_true_eq, honline]
    cases online <;> simp [eq_comm]

/-- The ring in every run. -/
theorem whowas_sound (hs : Reachable randomKey s) : Sound randomKey s := by
  have hinv := hs.inv
  obtain ⟨order, h, hhistory⟩ := hs.inv
  have hmem : ∀ {w}, s.ring.hashv w ≠ none → w ∈ order := fun hw => (h.used _).mpr hw
  exact {
    hashChain := fun i => ⟨_, h.hash.filed.filed.chain i, (h.hash.filed.filed.chain i).nodup,
      fun w => by
        rw [List.mem_filter, decide_eq_true_eq]
        exact and_iff_right_of_imp fun hw => hmem (by rw [hw]; exact nofun)⟩
    hashv := h.hashv
    clientChain := fun c => ⟨_, h.client.filed.filed.chain c,
      (h.client.filed.filed.chain c).nodup, fun w => by
        rw [List.mem_filter, decide_eq_true_eq]
        exact and_iff_right_of_imp fun hw => (h.online w c hw).1⟩
    live := fun w c hw => h.live c (h.online w c hw).2
    oldest := hinv.oldest
    reuse := fun c online now hc => hinv.reuse hc online now
    get := fun nick now timelimit => by rw [h.get nick now timelimit, hhistory]
    returns := fun e hlegal => by
      obtain ⟨s', hstep, -⟩ := hinv.step hlegal
      rw [hstep]
      rfl }

theorem whowas_sound_first : ∃ s : WhowasRun 2 (Fin 1), Reachable 0 s ∧ Sound 0 s ∧
    s.ring.getHistory 0 7 ['A'] 2 = some (some 0) := by
  have h₀ : Reachable 0 (@initWhowas 2 (Fin 1) (by decide) ⟨fun _ => none, fun _ => none⟩
    ⟨fun _ => none, fun _ => none⟩ (fun _ => 0) fun _ => Buf.empty) := .init ..
  obtain ⟨s, hs, hget⟩ : ∃ s : WhowasRun 2 (Fin 1), Reachable 0 s ∧
      s.ring.getHistory 0 7 ['A'] 2 = some (some 0) :=
    ⟨_, .step (e := .add 0 true 6) (.step (e := .register 0) (.step (e := .nick 0 ⟨['a'], by decide⟩)
      (.step (e := .make 0) h₀ rfl rfl) rfl rfl) rfl rfl) rfl rfl, rfl⟩
  exact ⟨s, hs, whowas_sound hs, hget⟩

end WhowasRun

end Unirc
