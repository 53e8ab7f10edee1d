import Mathlib.Data.List.ReduceOption
import Unirc.ChannelJoin
import Unirc.ConfTable
import Unirc.Decimal
import Unirc.HashTables
import Unirc.Match
import Unirc.SjoinHeader

/-!
# Listing the channels

`do_list` and `safe_list_channels`. A listing walks the buckets of the channel table and stops before
a bucket when the send queue is too full; the main loop takes it up there again. A listing of plain
names looks the names up instead.
-/

namespace Unirc

def HASHSIZE : ℕ := 2 ^ 16

theorem strhash_lt (randomKey : U32) (name : Str) : strhash randomKey name < HASHSIZE := by
  rw [strhash]
  split
  · exact Nat.two_pow_pos 16
  · dsimp only
    rw [BitVec.toNat_xor]
    refine Nat.xor_lt_two_pow ?_ ?_
    · rw [BitVec.toNat_ushiftRight, Nat.shiftRight_eq_div_pow]
      exact Nat.div_lt_of_lt_mul (BitVec.isLt _)
    · rw [BitVec.toNat_and]
      exact Nat.and_lt_two_pow _ (by decide)

def matchChan : Str → Str → Bool
  | '#' :: mask, '#' :: name => matchEsc mask name
  | '#' :: _, _ => false
  | mask, name => matchEsc mask name

/-- `struct ListTask`. -/
structure ListTask where
  showMask : List Str
  hideMask : List Str
  hashIndex : ℕ
  usersMin : ℕ
  usersMax : ℕ
  createdMin : ℕ
  createdMax : ℕ
  topictsMin : ℕ
  topictsMax : ℕ

def UINT_MAX : ℕ := 2 ^ 32 - 1

/-- A cast to `unsigned int`. -/
def toUnsigned (t : ℤ) : ℕ := (t % 2 ^ 32).toNat

namespace ListTask

def empty : ListTask where
  showMask := []
  hideMask := []
  hashIndex := 0
  usersMin := 0
  usersMax := UINT_MAX
  createdMin := 0
  createdMax := UINT_MAX
  topictsMin := 0
  topictsMax := UINT_MAX

/-- What `do_list` has read of its options: the task, `no_masked_channels` and `errors`. -/
structure Options where
  lt : ListTask
  noMaskedChannels : Bool
  errors : Bool

namespace Options

def hasWildcards (s : Str) : Bool := s.any isMWildChar

def fail (o : Options) : Options := { o with errors := true }

/-- A number of minutes back from `now`. -/
def minutes (o : Options) (now : ℤ) (s : Str) (set : ℕ → ListTask) : Options :=
  if 0 ≤ Decimal.atoi s then { o with lt := set (toUnsigned (now - 60 * Decimal.atoi s)) }
  else o.fail

def mask (o : Options) (hide : Bool) (opt : Str) : Options :=
  let chan := isChanPrefix (opt.headD '\x00')
  let wild := hasWildcards (if chan then opt.tail else opt)
  let o := if wild then { o with noMaskedChannels := o.noMaskedChannels && hide }
    else if chan then o else o.fail
  if o.errors then o
  else if hide then { o with lt := { o.lt with hideMask := opt :: o.lt.hideMask } }
  else { o with lt := { o.lt with showMask := opt :: o.lt.showMask } }

def read (now : ℤ) (o : Options) : Str → Options
  | '<' :: s =>
      if 0 < Decimal.atoi s then
        { o with lt := { o.lt with usersMax := toUnsigned (Decimal.atoi s - 1) } }
      else o.fail
  | '>' :: s =>
      if 0 ≤ Decimal.atoi s then
        { o with lt := { o.lt with usersMin := toUnsigned (Decimal.atoi s + 1) } }
      else o.fail
  | '-' :: _ => o
  | 'C' :: '<' :: s | 'c' :: '<' :: s => o.minutes now s fun t => { o.lt with createdMax := t }
  | 'C' :: '>' :: s | 'c' :: '>' :: s => o.minutes now s fun t => { o.lt with createdMin := t }
  | 'C' :: _ | 'c' :: _ => o.fail
  | 'T' :: '<' :: s | 't' :: '<' :: s => o.minutes now s fun t => { o.lt with topictsMin := t }
  | 'T' :: '>' :: s | 't' :: '>' :: s => o.minutes now s fun t => { o.lt with topictsMax := t }
  | 'T' :: _ | 't' :: _ => o.fail
  | '!' :: opt => o.mask true opt
  | opt => o.mask false opt

end Options

def options (now : ℤ) (parv1 : Option Str) : Options :=
  (commaTokens (parv1.getD [])).foldl (Options.read now) ⟨empty, true, false⟩

/-- Names without wildcards and nothing else was asked for. -/
def Options.onlyUnmasked (o : Options) : Bool := o.noMaskedChannels && o.lt.showMask ≠ []

theorem Options.hashIndex_minutes (o : Options) (now : ℤ) (s : Str) {set : ℕ → ListTask}
    (hset : ∀ t, (set t).hashIndex = o.lt.hashIndex) :
    (o.minutes now s set).lt.hashIndex = o.lt.hashIndex := by
  rw [minutes]
  split
  · exact hset _
  · rfl

theorem Options.hashIndex_mask (o : Options) (hide : Bool) (opt : Str) :
    (o.mask hide opt).lt.hashIndex = o.lt.hashIndex := by
  rw [mask]
  dsimp only
  split_ifs <;> rfl

theorem Options.hashIndex_read (now : ℤ) (o : Options) (opt : Str) :
    (o.read now opt).lt.hashIndex = o.lt.hashIndex := by
  fun_cases Options.read <;>
    first
      | rfl
      | exact o.hashIndex_minutes _ _ fun _ => rfl
      | exact o.hashIndex_mask _ _

theorem hashIndex_options (now : ℤ) (parv1 : Option Str) :
    (options now parv1).lt.hashIndex = 0 := by
  have hfold (opts : List Str) (o : Options) :
      (opts.foldl (Options.read now) o).lt.hashIndex = o.lt.hashIndex := by
    induction opts generalizing o with
    | nil => rfl
    | cons opt opts ih => rw [List.foldl_cons, ih, Options.hashIndex_read]
  exact hfold _ _

end ListTask

/-- What a listing reads of a channel, for the client that asked. -/
structure ListedChannel where
  isMember : Bool
  secret : Bool
  members : ℕ
  channelts : ℤ
  topicTime : ℤ
  topic : Option Str
  modes : Str

inductive ListReply
  | listStart
  | list (chname : Str) (members : ℕ) (modes topic : Str)
  | listEnd
  | listSyntax

def listAllowChannel (chname : Str) (lt : ListTask) : Bool :=
  lt.showMask.all (matchChan · chname) && !lt.hideMask.any (matchChan · chname)

def listOneChannel (netAdmin remote : Bool) (lt : ListTask) (chname : Str) (ch : ListedChannel) :
    Option ListReply :=
  if (remote && chname.head? = some '&') || (ch.secret && !ch.isMember && !netAdmin) then none
  else if ch.members < lt.usersMin ∨ lt.usersMax < ch.members ∨
      (ch.channelts ≠ 0 ∧ (toUnsigned ch.channelts < lt.createdMin ∨
        lt.createdMax < toUnsigned ch.channelts)) ∨
      toUnsigned ch.topicTime < lt.topictsMin ∨
      lt.topictsMax < (if ch.topicTime ≠ 0 then toUnsigned ch.topicTime else UINT_MAX) then none
  else if !listAllowChannel chname lt then none
  else
    let modes := if 1 < ch.modes.length then '[' :: ch.modes ++ "] ".toList else []
    some (.list chname ch.members modes (ch.topic.getD []))

/-- What surrounds one call: which checks before a bucket find the send queue too full, what is read
of the channels, and `CurrentTime`. -/
structure ListCall (β : Type*) where
  exceedingSendq : ℕ → Bool
  view : β → ListedChannel
  netAdmin : Bool
  now : ℤ

/-- The channel table with what is in it, the task of one client, and whether it is in
`listing_client_list`. `walked` has the buckets and `examined` the channels that its last listing
went through. -/
structure ChannelLists (β : Type*) where
  table : Hashed β
  inChannels : Finset β
  remote : Bool
  task : Option ListTask
  listing : Bool
  replies : List ListReply
  walked : List ℕ
  examined : List β

namespace ChannelLists

variable {β : Type*} [DecidableEq β]

def examine (call : ListCall β) (lt : ListTask) (s : ChannelLists β) (cs : List β) :
    ChannelLists β :=
  { s with
    replies := s.replies ++ cs.filterMap fun c =>
      listOneChannel call.netAdmin s.remote lt (s.table.name c) (call.view c)
    examined := s.examined ++ cs }

def reply (s : ChannelLists β) (r : ListReply) : ChannelLists β :=
  { s with replies := s.replies ++ [r] }

def freeListTask (s : ChannelLists β) : ChannelLists β := { s with task := none, listing := false }

/-- The loop over one bucket, from a pointer. -/
def bucketLoop (hnextch : β → Option β) : ℕ → Option β → Option (List β)
  | _, none => some []
  | 0, some _ => none
  | n + 1, some c => (bucketLoop hnextch n (hnextch c)).map (c :: ·)

variable [Fintype β]

/-- The loop over `n` buckets from `i` on, with the bucket that it stops at. -/
def bucketsLoop (call : ListCall β) (lt : ListTask) :
    ℕ → ℕ → ChannelLists β → Option (ChannelLists β × Option ℕ)
  | 0, _, s => some (s, none)
  | n + 1, i, s =>
      if call.exceedingSendq i then some (s, some i)
      else do
        let cs ← bucketLoop s.table.hnext (Fintype.card β) (s.table.table i)
        bucketsLoop call lt n (i + 1) { s.examine call lt cs with walked := s.walked ++ [i] }

def namesLoop (randomKey : U32) (call : ListCall β) (lt : ListTask) :
    List Str → ChannelLists β → Option (ChannelLists β)
  | [], s => some s
  | name :: names, s => do
      let (table, r) ← s.table.find randomKey name
      namesLoop randomKey call lt names ({ s with table := table }.examine call lt r.toList)

def safeListChannels (randomKey : U32) (call : ListCall β) (s : ChannelLists β) (lt : ListTask)
    (onlyUnmasked : Bool) : Option (ChannelLists β) :=
  if onlyUnmasked then
    (namesLoop randomKey call lt lt.showMask s).map fun s => s.freeListTask.reply .listEnd
  else
    (bucketsLoop call lt (HASHSIZE - lt.hashIndex) lt.hashIndex s).map fun
      | (s, some i) => { s with task := some { lt with hashIndex := i } }
      | (s, none) => s.freeListTask.reply .listEnd

def doList (randomKey : U32) (call : ListCall β) (parv1 : Option Str) (s : ChannelLists β) :
    Option (ChannelLists β) :=
  if !s.remote && s.task.isSome then some (s.freeListTask.reply .listEnd)
  else
    let o := ListTask.options call.now parv1
    if o.errors then some (s.freeListTask.reply .listSyntax)
    else
      let s := { s with task := some o.lt, listing := !s.remote, walked := [], examined := [] }
      safeListChannels randomKey call (s.reply .listStart) o.lt o.onlyUnmasked

/-- What the main loop does for a client in `listing_client_list`. -/
def resume (randomKey : U32) (call : ListCall β) (s : ChannelLists β) : Option (ChannelLists β) :=
  match s.listing, s.task with
  | true, some lt => safeListChannels randomKey call s lt false
  | _, _ => some s

/-- A command of the client, a round of the main loop, the exit of the client, and what others do to
the table. -/
inductive Event (β : Type*)
  | list (call : ListCall β) (parv1 : Option Str)
  | round (call : ListCall β)
  | exit
  | add (c : β)
  | del (c : β)
  | find (name : Str)
  | setChname (c : β) (name : Str)

def step (randomKey : U32) (s : ChannelLists β) : Event β → Option (ChannelLists β)
  | .list call parv1 => s.doList randomKey call parv1
  | .round call => s.resume randomKey call
  | .exit => some (if !s.remote && s.task.isSome then s.freeListTask else s)
  | .add c => some { s with table := s.table.add randomKey c, inChannels := insert c s.inChannels }
  | .del c => (s.table.del randomKey c).map fun t => { s with
      table := t, inChannels := s.inChannels.erase c }
  | .find name => (s.table.find randomKey name).map fun r => { s with table := r.1 }
  | .setChname c name => some { s with table := { s.table with
      name := Function.update s.table.name c name } }

def run (randomKey : U32) : ChannelLists β → List (Event β) → Option (ChannelLists β) :=
  List.foldlM (step randomKey)

/-- A channel is added and named while it is not in the table. -/
def Legal (s : ChannelLists β) : Event β → Prop
  | .add c | .setChname c _ => c ∉ s.inChannels
  | _ => True

def LegalRun (randomKey : U32) (s : ChannelLists β) : List (Event β) → Prop
  | [] => True
  | e :: es => s.Legal e ∧ ∀ s', s.step randomKey e = some s' → LegalRun randomKey s' es

def cleared (chname : β → Str) (remote : Bool) : ChannelLists β where
  table := ⟨chname, fun _ => none, fun _ => none⟩
  inChannels := ∅
  remote := remote
  task := none
  listing := false
  replies := []
  walked := []
  examined := []

/-- The client does not send `LIST` again, and does not exit. -/
def Event.Waits : Event β → Prop
  | .list .. | .exit => False
  | _ => True

/-- Something that others do to the table. -/
def Event.Others : Event β → Prop
  | .add _ | .del _ | .find _ | .setChname .. => True
  | _ => False

/-- How far a listing has come that began in `s`, behind the events `after`. -/
structure ListedOnce (randomKey : U32) (s : ChannelLists β) (after : List (Event β))
    (s' : ChannelLists β) : Prop where
  released : s'.task = none ↔ s'.walked = List.range HASHSIZE
  listing : s'.listing = (!s'.remote && s'.task.isSome)
  atMost : ∀ c ∈ s.inChannels, .del c ∉ after → s'.examined.count c ≤ 1
  exactly : s'.task = none → ∀ c ∈ s.inChannels, .del c ∉ after → s'.examined.count c = 1
  goesOn : s'.remote = false → ∀ call : ListCall β, (∀ i, call.exceedingSendq i = false) →
    ∃ s'', s'.step randomKey (.round call) = some s'' ∧ s''.task = none

/-- What a search for a name gives. -/
def Found (s : ChannelLists β) (name : Str) (r : Option β) : Prop :=
  (∀ c ∈ r, c ∈ s.inChannels ∧ irccmp name (s.table.name c) = false) ∧
    (r = none → ∀ c ∈ s.inChannels, irccmp name (s.table.name c) = true)

/-- The listing is over, and has looked at the channels of these names. -/
structure LookedUp (s : ChannelLists β) (names : List Str) (s' : ChannelLists β) : Prop where
  released : s'.task = none
  listing : s'.listing = false
  examined : ∃ found, List.Forall₂ s.Found names found ∧ s'.examined = found.reduceOption

/-- The buckets below `i` are done, and of the channels that stay all in them were examined. -/
structure Progress (randomKey : U32) (stays : Set β) (s : ChannelLists β) (i : ℕ) : Prop where
  filed : ∃ lists, s.table.Files randomKey s.inChannels lists
  walked : s.walked = List.range i
  stays : ∀ c ∈ stays, c ∈ s.inChannels ∧
    s.examined.count c = if strhash randomKey (s.table.name c) < i then 1 else 0

/-- The task says how far the listing has come. -/
structure Going (randomKey : U32) (stays : Set β) (s : ChannelLists β) : Prop where
  progress : ∃ i, Progress randomKey stays s i ∧
    (s.task = none ∧ i = HASHSIZE ∨ ∃ lt ∈ s.task, lt.hashIndex = i ∧ i < HASHSIZE)
  listing : s.listing = (!s.remote && s.task.isSome)

variable {randomKey : U32} {stays : Set β} {s s' : ChannelLists β} {call : ListCall β}
  {lt : ListTask} {i : ℕ}

omit [DecidableEq β] [Fintype β] in
theorem bucketLoop_eq {hnextch : β → Option β} {p : Option β} {l : List β} {n : ℕ}
    (h : PointerChain.Chain hnextch p l) (hn : l.length ≤ n) :
    bucketLoop hnextch n p = some l := by
  induction l generalizing p n with
  | nil =>
      rw [show p = none from h]
      cases n <;> rfl
  | cons c l ih =>
      obtain ⟨n, rfl⟩ := Nat.exists_eq_add_one.mpr (Nat.zero_lt_of_lt hn)
      rw [h.1, bucketLoop, ih h.2 (Nat.le_of_succ_le_succ hn)]
      rfl

/-- One bucket: every channel in it is examined once. -/
theorem Progress.bucket (h : Progress randomKey stays s i) (call : ListCall β) (lt : ListTask) :
    ∃ cs, bucketLoop s.table.hnext (Fintype.card β) (s.table.table i) = some cs ∧
      Progress randomKey stays { s.examine call lt cs with walked := s.walked ++ [i] } (i + 1) := by
  obtain ⟨lists, hfiles⟩ := h.filed
  have hchain := hfiles.filed.chain i
  refine ⟨lists i, bucketLoop_eq hchain hchain.length_le, ⟨lists, hfiles⟩, ?_, fun c hc => ?_⟩
  · rw [h.walked, List.range_succ]
  · obtain ⟨hin, hcount⟩ := h.stays c hc
    have hmem : c ∈ lists i ↔ strhash randomKey (s.table.name c) = i :=
      (hfiles.mem i c).trans (and_iff_right hin)
    refine ⟨hin, ?_⟩
    change (s.examined ++ lists i).count c =
      if strhash randomKey (s.table.name c) < i + 1 then 1 else 0
    rw [List.count_append, hcount]
    by_cases hi : strhash randomKey (s.table.name c) = i
    · rw [List.count_eq_one_of_mem hchain.nodup (hmem.mpr hi), hi, if_neg (lt_irrefl i),
        if_pos i.lt_succ_self]
    · rw [List.count_eq_zero_of_not_mem fun hc => hi (hmem.mp hc), Nat.add_zero]
      exact if_congr (by omega) rfl rfl

theorem Progress.buckets (h : Progress randomKey stays s i) (call : ListCall β) (lt : ListTask)
    (n : ℕ) : ∃ s' stop j, bucketsLoop call lt n i s = some (s', stop) ∧
      Progress randomKey stays s' j ∧ s'.remote = s.remote ∧ s'.listing = s.listing ∧
      (stop = some j ∧ j < i + n ∨ stop = none ∧ j = i + n) ∧
      ((∀ i, call.exceedingSendq i = false) → stop = none) := by
  induction n generalizing s i with
  | zero => exact ⟨s, none, i, rfl, h, rfl, rfl, .inr ⟨rfl, rfl⟩, fun _ => rfl⟩
  | succ n ih =>
      rw [bucketsLoop]
      by_cases hi : call.exceedingSendq i = true
      · rw [if_pos hi]
        refine ⟨s, some i, i, rfl, h, rfl, rfl, .inl ⟨rfl, by omega⟩, fun hall => ?_⟩
        rw [hall i] at hi
        cases hi
      · rw [if_neg hi]
        obtain ⟨cs, hloop, h'⟩ := h.bucket call lt
        obtain ⟨s', stop, j, hrun, hp, hremote, hlisting, hstop, hall⟩ := ih h'
        rw [hloop]
        refine ⟨s', stop, j, hrun, hp, hremote, hlisting, ?_, hall⟩
        rw [Nat.add_assoc, Nat.add_comm 1 n] at hstop
        exact hstop

/-- One call of `safe_list_channels` over the buckets. -/
theorem Progress.safeListChannels (h : Progress randomKey stays s lt.hashIndex)
    (hle : lt.hashIndex ≤ HASHSIZE) (hlisting : s.listing = !s.remote) (call : ListCall β) :
    ∃ s', s.safeListChannels randomKey call lt false = some s' ∧ Going randomKey stays s' ∧
      ((∀ i, call.exceedingSendq i = false) → s'.task = none) := by
  obtain ⟨s', stop, j, hrun, hp, hremote, hlist, hstop, hall⟩ :=
    h.buckets call lt (HASHSIZE - lt.hashIndex)
  rw [Nat.add_sub_cancel' hle] at hstop
  rw [ChannelLists.safeListChannels, if_neg Bool.false_ne_true, hrun]
  rcases hstop with ⟨rfl, hj⟩ | ⟨rfl, rfl⟩
  · refine ⟨_, rfl, ⟨⟨j, ⟨hp.filed, hp.walked, hp.stays⟩, .inr ⟨_, rfl, rfl, hj⟩⟩, ?_⟩,
      fun h => absurd (hall h) nofun⟩
    change s'.listing = (!s'.remote && true)
    rw [hlist, hlisting, hremote, Bool.and_true]
  · exact ⟨_, rfl, ⟨⟨_, ⟨hp.filed, hp.walked, hp.stays⟩, .inl ⟨rfl, rfl⟩⟩,
      (Bool.and_false _).symm⟩, fun _ => rfl⟩

theorem Going.resume (h : Going randomKey stays s) (call : ListCall β) :
    ∃ s', s.resume randomKey call = some s' ∧ Going randomKey stays s' ∧
      (s.remote = false → (∀ i, call.exceedingSendq i = false) → s'.task = none) := by
  obtain ⟨⟨i, hp, htask⟩, hlisting⟩ := h
  rcases htask with ⟨htask, hi⟩ | ⟨lt, htask, rfl, hi⟩
  · have hend : s.resume randomKey call = some s := by
      rw [ChannelLists.resume, htask]
      split <;> first | rfl | contradiction
    exact ⟨s, hend, ⟨⟨i, hp, .inl ⟨htask, hi⟩⟩, hlisting⟩, fun _ _ => htask⟩
  · rw [Option.mem_def.mp htask, Option.isSome_some, Bool.and_true] at hlisting
    rw [ChannelLists.resume, Option.mem_def.mp htask, hlisting]
    cases hremote : s.remote with
    | true =>
        refine ⟨s, rfl, ⟨⟨_, hp, .inr ⟨lt, htask, rfl, hi⟩⟩, ?_⟩, nofun⟩
        rw [hlisting, Option.mem_def.mp htask, Option.isSome_some, Bool.and_true]
    | false =>
        obtain ⟨s', hrun, hgoing, hall⟩ := hp.safeListChannels hi.le hlisting call
        exact ⟨s', hrun, hgoing, fun _ => hall⟩

omit [Fintype β] in
/-- The table changes around a listing, and the channels that stay do not. -/
theorem Going.frame (h : Going randomKey stays s) {t : Hashed β} {inChannels : Finset β}
    (hfiled : ∃ lists, t.Files randomKey inChannels lists)
    (hstays : ∀ c ∈ stays, c ∈ inChannels ∧ t.name c = s.table.name c) :
    Going randomKey stays { s with table := t, inChannels := inChannels } := by
  obtain ⟨⟨i, hp, htask⟩, hlisting⟩ := h
  refine ⟨⟨i, ⟨hfiled, hp.walked, fun c hc => ⟨(hstays c hc).1, ?_⟩⟩, htask⟩, hlisting⟩
  dsimp only
  rw [(hstays c hc).2]
  exact (hp.stays c hc).2

/-- The channel table is in order. -/
def Filed (randomKey : U32) (s : ChannelLists β) : Prop :=
  ∃ lists, s.table.Files randomKey s.inChannels lists

/-- What others do to the table leaves the channels that they do not delete. -/
theorem Filed.others (h : s.Filed randomKey) {e : Event β} (hlegal : s.Legal e) (he : e.Others) :
    ∃ t inChannels, s.step randomKey e = some { s with table := t, inChannels := inChannels } ∧
      (∃ lists, t.Files randomKey inChannels lists) ∧
      ∀ c ∈ s.inChannels, e ≠ .del c → c ∈ inChannels ∧ t.name c = s.table.name c := by
  obtain ⟨lists, hfiles⟩ := h
  cases e with
  | list => exact he.elim
  | round => exact he.elim
  | exit => exact he.elim
  | add c =>
      exact ⟨_, _, rfl, hfiles.add hlegal, fun d hd _ => ⟨Finset.mem_insert_of_mem hd, rfl⟩⟩
  | del c =>
      obtain ⟨t, lists', hrun, hname, hfiles'⟩ := hfiles.del c
      rw [ChannelLists.step, hrun]
      refine ⟨t, _, rfl, ⟨lists', hfiles'⟩, fun d hd hdel => ⟨?_, by rw [hname]⟩⟩
      exact Finset.mem_erase_of_ne_of_mem (fun hdc => hdel (hdc ▸ rfl)) hd
  | find name =>
      obtain ⟨t, r, lists', hrun, hname, hfiles', -⟩ := hfiles.find name
      rw [ChannelLists.step, hrun]
      exact ⟨t, _, rfl, ⟨lists', hfiles'⟩, fun d hd _ => ⟨hd, by rw [hname]⟩⟩
  | setChname c name =>
      refine ⟨_, _, rfl, ⟨lists, hfiles.setName hlegal name⟩, fun d hd _ => ⟨hd, ?_⟩⟩
      exact Function.update_of_ne (ne_of_mem_of_not_mem hd hlegal) _ _

omit [Fintype β] in
theorem Going.filed (h : Going randomKey stays s) : s.Filed randomKey :=
  let ⟨_, hp, _⟩ := h.progress
  hp.filed

theorem Going.step (h : Going randomKey stays s) {e : Event β} (hlegal : s.Legal e)
    (hwaits : e.Waits) (hdel : ∀ c ∈ stays, e ≠ .del c) :
    ∃ s', s.step randomKey e = some s' ∧ Going randomKey stays s' := by
  have hothers (he : e.Others) : ∃ s', s.step randomKey e = some s' ∧ Going randomKey stays s' := by
    obtain ⟨t, inChannels, hrun, hfiled, hkept⟩ := h.filed.others hlegal he
    obtain ⟨i, hp, -⟩ := h.progress
    exact ⟨_, hrun, h.frame hfiled fun c hc => hkept c (hp.stays c hc).1 (hdel c hc)⟩
  cases e with
  | list => exact hwaits.elim
  | exit => exact hwaits.elim
  | round call =>
      obtain ⟨s', hrun, hgoing, -⟩ := h.resume call
      exact ⟨s', hrun, hgoing⟩
  | add | del | find | setChname => exact hothers trivial

theorem Going.run (h : Going randomKey stays s) {es : List (Event β)}
    (hlegal : LegalRun randomKey s es) (hwaits : ∀ e ∈ es, e.Waits)
    (hdel : ∀ c ∈ stays, .del c ∉ es) :
    ∃ s', run randomKey s es = some s' ∧ Going randomKey stays s' := by
  induction es generalizing s with
  | nil => exact ⟨s, rfl, h⟩
  | cons e es ih =>
      obtain ⟨s₁, hstep, h₁⟩ := h.step hlegal.1 (hwaits e List.mem_cons_self)
        fun c hc he => hdel c hc (he ▸ List.mem_cons_self)
      obtain ⟨s', hrun, h'⟩ := ih h₁ (hlegal.2 s₁ hstep)
        (fun e he => hwaits e (List.mem_cons_of_mem _ he))
        fun c hc he => hdel c hc (List.mem_cons_of_mem _ he)
      refine ⟨s', ?_, h'⟩
      rw [ChannelLists.run, List.foldlM_cons, hstep]
      exact hrun

/-- What was examined, read off the invariant. -/
theorem Going.listedOnce {after : List (Event β)} (s : ChannelLists β)
    (h : Going randomKey {c | c ∈ s.inChannels ∧ .del c ∉ after} s') :
    ListedOnce randomKey s after s' where
  released := by
    obtain ⟨⟨i, hp, htask⟩, -⟩ := h
    rw [hp.walked]
    rcases htask with ⟨htask, rfl⟩ | ⟨lt, htask, -, hi⟩
    · exact iff_of_true htask rfl
    · refine iff_of_false (fun hnone => ?_) fun heq => ?_
      · rw [hnone] at htask
        cases htask
      · have hlen := congrArg List.length heq
        rw [List.length_range, List.length_range] at hlen
        exact hi.ne hlen
  listing := h.listing
  atMost c hc hdel := by
    obtain ⟨i, hp, -⟩ := h.progress
    rw [(hp.stays c ⟨hc, hdel⟩).2]
    split
    · exact le_rfl
    · exact Nat.zero_le 1
  exactly hnone c hc hdel := by
    obtain ⟨i, hp, htask⟩ := h.progress
    rcases htask with ⟨-, rfl⟩ | ⟨lt, htask, -, -⟩
    · rw [(hp.stays c ⟨hc, hdel⟩).2, if_pos (strhash_lt randomKey _)]
    · rw [hnone] at htask
      cases htask
  goesOn hremote call hall := by
    obtain ⟨s'', hrun, -, hend⟩ := h.resume call
    exact ⟨s'', hrun, hend hremote hall⟩

/-- The names of a listing of plain names are looked up one after the other. -/
theorem namesLoop_spec (call : ListCall β) (lt : ListTask) (names : List Str)
    {lists : ℕ → List β} (hfiles : s.table.Files randomKey s.inChannels lists) :
    ∃ s' found, namesLoop randomKey call lt names s = some s' ∧ s'.Filed randomKey ∧
      List.Forall₂ s.Found names found ∧ s'.examined = s.examined ++ found.reduceOption ∧
      s'.replies = s.replies ++ found.reduceOption.filterMap fun c =>
        listOneChannel call.netAdmin s.remote lt (s.table.name c) (call.view c) := by
  induction names generalizing s lists with
  | nil =>
      exact ⟨s, [], rfl, ⟨lists, hfiles⟩, .nil, (List.append_nil _).symm, (List.append_nil _).symm⟩
  | cons name names ih =>
      obtain ⟨t, r, lists', hrun, hname, hfiles', -, hsome, hnone⟩ := hfiles.find name
      obtain ⟨s', found, hloop, hfiled, hfound, hexamined, hreplies⟩ :=
        ih (s := { s with table := t }.examine call lt r.toList) hfiles'
      have hjoin : (r :: found).reduceOption = r.toList ++ found.reduceOption := by
        cases r <;> rfl
      rw [namesLoop, hrun]
      refine ⟨s', r :: found, hloop, hfiled, .cons ⟨hsome, hnone⟩ ?_, ?_, ?_⟩
      · refine hfound.imp fun name r h => ?_
        rw [Found, ← hname]
        exact h
      · rw [hexamined, hjoin, ← List.append_assoc]
        rfl
      · rw [hreplies, hjoin, List.filterMap_append, ← List.append_assoc, ← hname]
        rfl

/-- A listing that looks at the buckets begins. -/
theorem Filed.begin (h : s.Filed randomKey) (hidle : (!s.remote && s.task.isSome) = false)
    {parv1 : Option Str} (herrors : (ListTask.options call.now parv1).errors = false)
    (honly : (ListTask.options call.now parv1).onlyUnmasked = false)
    (hstays : ∀ c ∈ stays, c ∈ s.inChannels) :
    ∃ s', s.step randomKey (.list call parv1) = some s' ∧ Going randomKey stays s' := by
  rw [ChannelLists.step, doList, hidle, if_neg Bool.false_ne_true]
  dsimp only
  rw [herrors, if_neg Bool.false_ne_true, honly]
  have hindex := ListTask.hashIndex_options call.now parv1
  generalize (ListTask.options call.now parv1).lt = lt at hindex
  have hp : Progress randomKey stays (reply { s with
      task := some lt, listing := !s.remote, walked := [], examined := [] } .listStart)
      lt.hashIndex := by
    rw [hindex]
    exact ⟨h, rfl, fun c hc => ⟨hstays c hc, rfl⟩⟩
  obtain ⟨s', hrun, hgoing, -⟩ := hp.safeListChannels (by omega) rfl call
  exact ⟨s', hrun, hgoing⟩

/-- A listing of plain names. -/
theorem Filed.lookUp (h : s.Filed randomKey) (hidle : (!s.remote && s.task.isSome) = false)
    {parv1 : Option Str} (herrors : (ListTask.options call.now parv1).errors = false)
    (honly : (ListTask.options call.now parv1).onlyUnmasked = true) :
    ∃ s', s.step randomKey (.list call parv1) = some s' ∧ s'.Filed randomKey ∧
      s.LookedUp (ListTask.options call.now parv1).lt.showMask s' := by
  rw [ChannelLists.step, doList, hidle, if_neg Bool.false_ne_true]
  dsimp only
  rw [herrors, if_neg Bool.false_ne_true, honly]
  generalize (ListTask.options call.now parv1).lt = lt
  obtain ⟨lists, hfiles⟩ := h
  obtain ⟨s', found, hloop, hfiled, hfound, hexamined, -⟩ := namesLoop_spec call lt lt.showMask
    (s := reply { s with
      task := some lt, listing := !s.remote, walked := [], examined := [] } .listStart) hfiles
  rw [ChannelLists.safeListChannels, if_pos rfl, hloop]
  exact ⟨_, rfl, hfiled, rfl, rfl, found, hfound, hexamined⟩

omit [DecidableEq β] [Fintype β] in
theorem LookedUp.named {names : List Str} (h : s.LookedUp names s') {c : β}
    (hc : c ∈ s'.examined) : ∃ name ∈ names, irccmp name (s.table.name c) = false := by
  obtain ⟨found, hfound, hexamined⟩ := h.examined
  rw [hexamined, List.reduceOption_mem_iff] at hc
  clear h hexamined
  induction hfound with
  | nil => cases hc
  | cons h hfound ih =>
      rcases List.mem_cons.mp hc with rfl | hc
      · exact ⟨_, List.mem_cons_self, (h.1 c rfl).2⟩
      · obtain ⟨name, hname, hcmp⟩ := ih hc
        exact ⟨name, List.mem_cons_of_mem _ hname, hcmp⟩

/-- What holds between the events: the client is not listing, or its listing is under way. -/
def Settled (randomKey : U32) (s : ChannelLists β) : Prop :=
  s.Filed randomKey ∧ (s.task = none ∧ s.listing = false ∨ Going randomKey ∅ s)

theorem Settled.step (h : s.Settled randomKey) {e : Event β} (hlegal : s.Legal e) :
    ∃ s', s.step randomKey e = some s' ∧ s'.Settled randomKey := by
  obtain ⟨hfiled, hstate⟩ := h
  have hothers (he : e.Others) : ∃ s', s.step randomKey e = some s' ∧ s'.Settled randomKey := by
    obtain ⟨t, inChannels, hrun, hfiled', -⟩ := hfiled.others hlegal he
    exact ⟨_, hrun, hfiled', hstate.imp_right fun h => h.frame hfiled' nofun⟩
  cases e with
  | list call parv1 =>
      cases hidle : !s.remote && s.task.isSome with
      | true =>
          rw [ChannelLists.step, doList, hidle, if_pos rfl]
          exact ⟨_, rfl, hfiled, .inl ⟨rfl, rfl⟩⟩
      | false =>
          cases herrors : (ListTask.options call.now parv1).errors with
          | true =>
              rw [ChannelLists.step, doList, hidle, if_neg Bool.false_ne_true]
              dsimp only
              rw [herrors, if_pos rfl]
              exact ⟨_, rfl, hfiled, .inl ⟨rfl, rfl⟩⟩
          | false =>
              cases honly : (ListTask.options call.now parv1).onlyUnmasked with
              | false =>
                  obtain ⟨s', hrun, hgoing⟩ := @Filed.begin _ _ _ randomKey ∅ s call hfiled hidle parv1
                    herrors honly nofun
                  exact ⟨s', hrun, hgoing.filed, .inr hgoing⟩
              | true =>
                  obtain ⟨s', hrun, hfiled', hlooked⟩ := hfiled.lookUp hidle herrors honly
                  exact ⟨s', hrun, hfiled', .inl ⟨hlooked.released, hlooked.listing⟩⟩
  | round call =>
      rcases hstate with ⟨htask, hlisting⟩ | hgoing
      · rw [ChannelLists.step, ChannelLists.resume, htask, hlisting]
        exact ⟨s, rfl, hfiled, .inl ⟨htask, hlisting⟩⟩
      · obtain ⟨s', hrun, hgoing', -⟩ := hgoing.resume call
        exact ⟨s', hrun, hgoing'.filed, .inr hgoing'⟩
  | exit =>
      rw [ChannelLists.step]
      split
      · exact ⟨_, rfl, hfiled, .inl ⟨rfl, rfl⟩⟩
      · exact ⟨_, rfl, hfiled, hstate⟩
  | add | del | find | setChname => exact hothers trivial

theorem Settled.run (h : s.Settled randomKey) {es : List (Event β)}
    (hlegal : LegalRun randomKey s es) :
    ∃ s', run randomKey s es = some s' ∧ s'.Settled randomKey := by
  induction es generalizing s with
  | nil => exact ⟨s, rfl, h⟩
  | cons e es ih =>
      obtain ⟨s₁, hstep, h₁⟩ := h.step hlegal.1
      obtain ⟨s', hrun, h'⟩ := ih h₁ (hlegal.2 s₁ hstep)
      refine ⟨s', ?_, h'⟩
      rw [ChannelLists.run, List.foldlM_cons, hstep]
      exact hrun

omit [Fintype β] in
theorem settled_cleared (chname : β → Str) (remote : Bool) :
    (cleared chname remote).Settled randomKey :=
  ⟨⟨fun _ => [], .nil, fun _ _ => by simp [cleared]⟩, .inl ⟨rfl, rfl⟩⟩

/-- From any table that can come up: a listing with no names or with masks goes through every
channel that stays once, in as many rounds as it takes, and one of plain names looks them up. -/
theorem listing_once (randomKey : U32) (chname : β → Str) (remote : Bool)
    (before after : List (Event β)) (call : ListCall β) (parv1 : Option Str)
    (hbefore : LegalRun randomKey (cleared chname remote) before) {s : ChannelLists β}
    (hs : run randomKey (cleared chname remote) before = some s)
    (hidle : (!s.remote && s.task.isSome) = false)
    (herrors : (ListTask.options call.now parv1).errors = false)
    (hafter : LegalRun randomKey s (.list call parv1 :: after)) (hwaits : ∀ e ∈ after, e.Waits) :
    ((ListTask.options call.now parv1).onlyUnmasked = false →
      ∃ s', run randomKey s (.list call parv1 :: after) = some s' ∧
        ListedOnce randomKey s after s') ∧
    ((ListTask.options call.now parv1).onlyUnmasked = true →
      ∃ s', s.step randomKey (.list call parv1) = some s' ∧
        s.LookedUp (ListTask.options call.now parv1).lt.showMask s') := by
  obtain ⟨s₁, hrun, hfiled, -⟩ := (settled_cleared chname remote).run hbefore
  obtain rfl : s₁ = s := Option.some.inj (hrun.symm.trans hs)
  refine ⟨fun honly => ?_, fun honly => ?_⟩
  · have hstays : ∀ c ∈ {c | c ∈ s₁.inChannels ∧ .del c ∉ after}, c ∈ s₁.inChannels :=
      fun c hc => hc.1
    obtain ⟨s₂, hstep, hgoing⟩ := hfiled.begin hidle herrors honly hstays
    obtain ⟨s', hrun', hgoing'⟩ := hgoing.run (hafter.2 s₂ hstep) hwaits fun c hc => hc.2
    refine ⟨s', ?_, hgoing'.listedOnce⟩
    rw [ChannelLists.run, List.foldlM_cons, hstep]
    exact hrun'
  · obtain ⟨s', hstep, -, hlooked⟩ := hfiled.lookUp hidle herrors honly
    exact ⟨s', hstep, hlooked⟩

section Example

def quietCall (β : Type*) : ListCall β where
  exceedingSendq _ := false
  view _ := ⟨false, false, 1, 0, 0, none, ['+']⟩
  netAdmin := false
  now := 0

/-- `#a` and `#b`. -/
def twoNames : Fin 2 → Str
  | 0 => ['#', 'a']
  | 1 => ['#', 'b']

theorem listing_once_two : ∃ s s', run 0 (cleared twoNames false) [.add 0, .add 1] = some s ∧
    run 0 s [.list (quietCall _) none, .del 1] = some s' ∧ ListedOnce 0 s [.del 1] s' := by
  have hbefore : LegalRun 0 (cleared twoNames false) [.add 0, .add 1] := by
    refine ⟨Finset.notMem_empty 0, fun s hs => ?_⟩
    cases hs
    exact ⟨(by decide : (1 : Fin 2) ∉ ({0} : Finset (Fin 2))), fun _ _ => trivial⟩
  obtain ⟨s', hrun, hlisted⟩ := (listing_once 0 twoNames false [.add 0, .add 1] [.del 1]
    (quietCall _) none hbefore rfl rfl rfl ⟨trivial, fun _ _ => ⟨trivial, fun _ _ => trivial⟩⟩
    (fun e he => by rw [List.mem_singleton.mp he]; trivial)).1 rfl
  exact ⟨_, s', rfl, hrun, hlisted⟩

/-- A listing of `#a` does not go through `#b`. -/
theorem not_forall_listedOnce : ¬ ∀ (randomKey : U32) (chname : Fin 2 → Str) (remote : Bool)
    (before after : List (Event (Fin 2))) (call : ListCall (Fin 2)) (parv1 : Option Str),
    LegalRun randomKey (cleared chname remote) before → ∀ s,
    run randomKey (cleared chname remote) before = some s →
    (!s.remote && s.task.isSome) = false →
    (ListTask.options call.now parv1).errors = false →
    LegalRun randomKey s (.list call parv1 :: after) → (∀ e ∈ after, e.Waits) →
    ∃ s', run randomKey s (.list call parv1 :: after) = some s' ∧
      ListedOnce randomKey s after s' := by
  intro h
  have hbefore : LegalRun 0 (cleared twoNames false) [.add 0, .add 1] := by
    refine ⟨Finset.notMem_empty 0, fun s hs => ?_⟩
    cases hs
    exact ⟨(by decide : (1 : Fin 2) ∉ ({0} : Finset (Fin 2))), fun _ _ => trivial⟩
  obtain ⟨s, hs, hfiled, -⟩ := Settled.run (settled_cleared twoNames false) hbefore
  have hs₀ := hs
  cases hs₀
  obtain ⟨s', hrun, hlisted⟩ := h 0 twoNames false [.add 0, .add 1] [] (quietCall _)
    (some ['#', 'a']) hbefore _ hs rfl (by decide) ⟨trivial, fun _ _ => trivial⟩ nofun
  have herrors : (ListTask.options (quietCall (Fin 2)).now (some ['#', 'a'])).errors = false := by
    decide
  obtain ⟨s₁, hstep, -, hlooked⟩ := hfiled.lookUp rfl herrors (by decide)
  rw [run, List.foldlM_cons, hstep] at hrun
  obtain rfl : s₁ = s' := Option.some.inj hrun
  have hcount := hlisted.exactly hlooked.released 1 (by decide) nofun
  have hmem : (1 : Fin 2) ∈ s₁.examined :=
    List.count_pos_iff.mp (by rw [hcount]; exact Nat.one_pos)
  obtain ⟨name, hname, hcmp⟩ := hlooked.named hmem
  rw [show (ListTask.options (quietCall (Fin 2)).now (some ['#', 'a'])).lt.showMask = [['#', 'a']]
    by decide, List.mem_singleton] at hname
  subst hname
  exact absurd hcmp (by decide)

end Example

end ChannelLists

end Unirc
