import Mathlib.Data.List.Basic
import Mathlib.Logic.Function.Basic
import Unirc.Runs

/-!
# LazyLink masks

The masks of lazy leaves on a hub, from `s_serv.c`, `m_server.c`, `m_drop.c`, `channel.c` and
`client.c`, for a build without `HAVE_LIBCRYPTO`. Servers, channels and clients stand for their
addresses; a freed channel keeps an address that may be read, and handed out again.
-/

namespace Unirc

abbrev LazyMask := BitVec 64

/-- The capabilities that `mr_server` and `server_estab` look at. -/
structure LazyCaps where
  ll : Bool
  hub : Bool
  enc : Bool
  zip : Bool
  deriving DecidableEq

structure LazyServer where
  caps : LazyCaps
  serverMask : LazyMask
  deriving DecidableEq

structure LazyHub where
  freeMask : LazyMask
  servers : ℕ → Option LazyServer
  channels : List ℕ
  lazyLinkChannelExists : ℕ → LazyMask
  lazylinkChannels : List ℕ
  clients : List ℕ
  lazyLinkClientExists : ℕ → LazyMask

/-- What `server_estab` meets: the connect block still attached, the result of `fork_server`, and
`IsClosing` behind what was sent. -/
structure EstabEnv where
  conf : Bool
  fork : Bool
  closing : Bool

namespace LazyHub

/-- `initServerMask`. -/
def initServerMask : LazyMask := 0xFFFFFFFF

def start : LazyHub where
  freeMask := initServerMask
  servers _ := none
  channels := []
  lazyLinkChannelExists _ := 0
  lazylinkChannels := []
  clients := []
  lazyLinkClientExists _ := 0

def nextFreeMaskLoop (freeMask : LazyMask) : ℕ → LazyMask → LazyMask × LazyMask
  | 0, _ => (0, freeMask)
  | n + 1, mask =>
      if mask &&& freeMask ≠ 0 then (mask, freeMask &&& ~~~mask)
      else nextFreeMaskLoop freeMask n (mask <<< 1)

/-- `nextFreeMask`: the mask, and what is left of `freeMask`. -/
def nextFreeMask (freeMask : LazyMask) : LazyMask × LazyMask := nextFreeMaskLoop freeMask 32 1

/-- `DLINK_FOREACH_SAFE` over `lazylink_channels`: the nodes that stay, and the masks. -/
def clearLoop (clear : LazyMask) : List ℕ → (ℕ → LazyMask) → List ℕ × (ℕ → LazyMask)
  | [], exist => ([], exist)
  | p :: rest, exist =>
      let cleared := Function.update exist p (exist p &&& clear)
      let r := clearLoop clear rest cleared
      (if cleared p = 0 then r.1 else p :: r.1, r.2)

def clearOne (clear : LazyMask) (exist : ℕ → LazyMask) (k : ℕ) : ℕ → LazyMask :=
  Function.update exist k (exist k &&& clear)

variable (s : LazyHub)

/-- `remove_lazylink_flags`. -/
def removeLazylinkFlags (mask : LazyMask) : LazyHub :=
  if mask = 0 then s
  else
    let r := clearLoop (~~~mask) s.lazylinkChannels s.lazyLinkChannelExists
    { s with
      freeMask := s.freeMask ||| mask
      lazylinkChannels := r.1
      lazyLinkChannelExists := r.2
      lazyLinkClientExists := s.clients.foldl (clearOne (~~~mask)) s.lazyLinkClientExists }

/-- `exit_client` for a connection with this mask. -/
def exitClient (isServer : Bool) (serverMask : LazyMask) : LazyHub :=
  if isServer then s.removeLazylinkFlags serverMask else s

/-- The part of `mr_server` in front of `server_estab`. -/
def takeMask (caps : LazyCaps) : LazyHub × LazyServer :=
  if caps.ll then
    if caps.hub then (s, ⟨{ caps with ll := false }, 0⟩)
    else
      let r := nextFreeMask s.freeMask
      ({ s with freeMask := r.2 }, ⟨{ caps with ll := r.1 ≠ 0 }, r.1⟩)
  else (s, ⟨caps, 0⟩)

/-- `server_estab`. -/
def serverEstab (c : ℕ) (client : LazyServer) (env : EstabEnv) : LazyHub :=
  if !env.conf then s.exitClient false client.serverMask
  else if (client.caps.enc || client.caps.zip) && !env.fork then
    s.exitClient false client.serverMask
  else if env.closing then s.exitClient false client.serverMask
  else { s with servers := Function.update s.servers c (some client) }

/-- `mr_server`, for a server that passed the checks. -/
def mrServer (c : ℕ) (caps : LazyCaps) (env : EstabEnv) : LazyHub :=
  (s.takeMask caps).1.serverEstab c (s.takeMask caps).2 env

/-- `exit_client` for a server of `serv_list`. -/
def exitServer (c : ℕ) (a : LazyServer) : LazyHub :=
  { s with servers := Function.update s.servers c none }.exitClient true a.serverMask

/-- `add_lazylinkchannel`. -/
def addLazylinkchannel (a : LazyServer) (p : ℕ) : LazyHub :=
  { s with
    lazyLinkChannelExists := Function.update s.lazyLinkChannelExists p
      (s.lazyLinkChannelExists p ||| a.serverMask)
    lazylinkChannels := p :: s.lazylinkChannels }

/-- `add_lazylinkclient`. -/
def addLazylinkclient (a : LazyServer) (k : ℕ) : LazyHub :=
  { s with
    lazyLinkClientExists := Function.update s.lazyLinkClientExists k
      (s.lazyLinkClientExists k ||| a.serverMask) }

/-- `client_burst_if_needed`, and a turn of `burst_ll_members`. -/
def clientBurstIfNeeded (a : LazyServer) (k : ℕ) : LazyHub :=
  if s.lazyLinkClientExists k &&& a.serverMask = 0 then s.addLazylinkclient a k else s

/-- `burst_channel`, with the members that are not behind the leaf. -/
def burstChannel (a : LazyServer) (p : ℕ) (members : List ℕ) : LazyHub :=
  (members.foldl (clientBurstIfNeeded · a ·) s).addLazylinkchannel a p

/-- `make_channel`. -/
def makeChannel (p : ℕ) : LazyHub :=
  { s with
    channels := p :: s.channels
    lazyLinkChannelExists := Function.update s.lazyLinkChannelExists p 0 }

/-- `destroy_channel`, with what the freed block reads as. -/
def destroyChannel (p : ℕ) (freed : LazyMask) : LazyHub :=
  { s with
    channels := s.channels.filter (· ≠ p)
    lazylinkChannels := s.lazylinkChannels.erase p
    lazyLinkChannelExists := Function.update s.lazyLinkChannelExists p freed }

/-- `make_client`. -/
def makeClient (k : ℕ) : LazyHub :=
  { s with
    clients := k :: s.clients
    lazyLinkClientExists := Function.update s.lazyLinkClientExists k 0 }

/-- `ms_drop`, for a channel that exists. -/
def msDrop (a : LazyServer) (p : ℕ) : LazyHub :=
  if a.serverMask ≠ 0 then
    { s with
      lazyLinkChannelExists := Function.update s.lazyLinkChannelExists p
        (s.lazyLinkChannelExists p &&& ~~~a.serverMask) }
  else s

end LazyHub

inductive LazyEvent
  | server (c : ℕ) (caps : LazyCaps) (env : EstabEnv)
  | exitServer (c : ℕ)
  | makeChannel (p : ℕ)
  | destroyChannel (p : ℕ) (freed : LazyMask)
  | makeClient (k : ℕ)
  | exitUser (k : ℕ)
  | addClient (c k : ℕ)
  | burstClient (c k : ℕ)
  | burstChannel (c p : ℕ) (members : List ℕ)
  | drop (c p : ℕ)

namespace LazyHub

variable (s : LazyHub)

def step (s : LazyHub) : LazyEvent → LazyHub
  | .server c caps env => if s.servers c = none then s.mrServer c caps env else s
  | .exitServer c => (s.servers c).elim s (s.exitServer c)
  | .makeChannel p => if p ∈ s.channels then s else s.makeChannel p
  | .destroyChannel p freed => if p ∈ s.channels then s.destroyChannel p freed else s
  | .makeClient k => if k ∈ s.clients then s else s.makeClient k
  | .exitUser k => { s with clients := s.clients.filter (· ≠ k) }
  | .addClient c k => (s.servers c).elim s fun a =>
      if a.caps.ll then s.addLazylinkclient a k else s
  | .burstClient c k => (s.servers c).elim s fun a =>
      if a.caps.ll then s.clientBurstIfNeeded a k else s
  | .burstChannel c p members => (s.servers c).elim s fun a =>
      if a.caps.ll ∧ p ∈ s.channels then s.burstChannel a p members else s
  | .drop c p => (s.servers c).elim s fun a => if p ∈ s.channels then s.msDrop a p else s

/-- Some server of `serv_list` holds the bit. -/
def Held (i : ℕ) : Prop := ∃ c a, s.servers c = some a ∧ a.serverMask.getLsbD i = true

structure Bookkept : Prop where
  apart : ∀ c d a b, s.servers c = some a → s.servers d = some b → c ≠ d →
    a.serverMask &&& b.serverMask = 0
  free : ∀ i < 32, s.freeMask.getLsbD i = true ↔ ¬ s.Held i
  channels : ∀ p ∈ s.channels, ∀ i, (s.lazyLinkChannelExists p).getLsbD i = true → s.Held i
  clients : ∀ k ∈ s.clients, ∀ i, (s.lazyLinkClientExists k).getLsbD i = true → s.Held i
  listed : ∀ p, p ∈ s.lazylinkChannels ↔ p ∈ s.channels ∧ s.lazyLinkChannelExists p ≠ 0

/-- `mr_server` is about to take a bit. -/
def TakesMask (caps : LazyCaps) : Prop :=
  caps.ll = true ∧ caps.hub = false ∧ ∃ i < 32, s.freeMask.getLsbD i = true

/-- `server_estab` gets to `SetServer`. -/
def Established (caps : LazyCaps) (env : EstabEnv) : Prop :=
  env.conf = true ∧ ((caps.enc = true ∨ caps.zip = true) → env.fork = true) ∧ env.closing = false

/-- What an event has to meet for the masks to stay in order. -/
def Orderly : LazyEvent → Prop
  | .server c caps env => s.servers c = none → s.TakesMask caps → Established caps env
  | .destroyChannel p _ => s.lazylinkChannels.count p ≤ 1
  | .drop c p => ∀ a, s.servers c = some a → p ∈ s.channels → s.lazyLinkChannelExists p ≠ 0 →
      s.lazyLinkChannelExists p &&& ~~~a.serverMask ≠ 0
  | _ => True

section NextFreeMask

variable {f : LazyMask}

theorem twoPow_ne_zero {k : ℕ} (hk : k < 64) : BitVec.twoPow 64 k ≠ 0 := by
  intro h
  have hbit := congrArg (·.getLsbD k) h
  simp [hk] at hbit

theorem and_eq_zero {a b : LazyMask}
    (h : ∀ i, a.getLsbD i = true → b.getLsbD i = true → False) : a &&& b = 0 := by
  refine BitVec.eq_of_getLsbD_eq fun i hi => ?_
  rw [BitVec.getLsbD_and, show BitVec.getLsbD (0 : LazyMask) i = false from BitVec.getLsbD_zero]
  by_contra hboth
  simp only [Bool.and_eq_false_iff, not_or, Bool.not_eq_false] at hboth
  exact h i hboth.1 hboth.2

theorem and_not_zero (f : LazyMask) : f &&& ~~~(0 : LazyMask) = f := by
  rw [show ~~~(0 : LazyMask) = BitVec.allOnes 64 from rfl, BitVec.and_allOnes]

theorem twoPow_shiftLeft_one (k : ℕ) : BitVec.twoPow 64 k <<< 1 = BitVec.twoPow 64 (k + 1) := by
  rw [BitVec.twoPow_eq, BitVec.twoPow_eq, BitVec.shiftLeft_add]

theorem nextFreeMaskLoop_spec (n k : ℕ) (hk : k + n ≤ 64) :
    (nextFreeMaskLoop f n (BitVec.twoPow 64 k) = (0, f) ∧
      ∀ i, k ≤ i → i < k + n → f.getLsbD i = false) ∨
    ∃ i, i < k + n ∧ f.getLsbD i = true ∧ nextFreeMaskLoop f n (BitVec.twoPow 64 k) =
      (BitVec.twoPow 64 i, f &&& ~~~BitVec.twoPow 64 i) := by
  induction n generalizing k with
  | zero => exact .inl ⟨rfl, fun i _ _ => by omega⟩
  | succ n ih =>
      rw [nextFreeMaskLoop, BitVec.twoPow_and]
      cases hbit : f.getLsbD k with
      | true =>
          refine .inr ⟨k, by omega, hbit, ?_⟩
          rw [if_pos rfl, if_pos (twoPow_ne_zero (by omega))]
      | false =>
          rw [twoPow_shiftLeft_one]
          obtain ⟨hloop, hnone⟩ | ⟨i, hi, hset, hloop⟩ := ih (k + 1) (by omega)
          · refine .inl ⟨by simpa using hloop, fun i hle hlt => ?_⟩
            obtain rfl | hne := eq_or_ne i k
            · exact hbit
            · exact hnone i (by omega) (by omega)
          · exact .inr ⟨i, by omega, hset, by simpa using hloop⟩

theorem nextFreeMask_spec (f : LazyMask) :
    (nextFreeMask f = (0, f) ∧ ∀ i < 32, f.getLsbD i = false) ∨
    ∃ i < 32, f.getLsbD i = true ∧
      nextFreeMask f = (BitVec.twoPow 64 i, f &&& ~~~BitVec.twoPow 64 i) := by
  obtain ⟨hloop, hnone⟩ | ⟨i, hi, hset, hloop⟩ :=
    nextFreeMaskLoop_spec (f := f) 32 0 (by omega)
  · exact .inl ⟨hloop, fun i hi => hnone i (Nat.zero_le _) (by omega)⟩
  · exact .inr ⟨i, by omega, hset, hloop⟩

end NextFreeMask

section Clearing

variable {clear : LazyMask} {exist : ℕ → LazyMask}

theorem foldl_clearOne (l : List ℕ) (q : ℕ) :
    l.foldl (clearOne clear) exist q = if q ∈ l then exist q &&& clear else exist q := by
  induction l generalizing exist with
  | nil => rfl
  | cons p l ih =>
      rw [List.foldl_cons, ih]
      obtain rfl | hne := eq_or_ne q p
      · simp [clearOne, BitVec.and_assoc]
      · simp [clearOne, hne]

theorem clearLoop_snd (l : List ℕ) :
    (clearLoop clear l exist).2 = l.foldl (clearOne clear) exist := by
  induction l generalizing exist with
  | nil => rfl
  | cons p l ih => exact ih

theorem clearLoop_fst (l : List ℕ) :
    (clearLoop clear l exist).1 = l.filter (exist · &&& clear ≠ 0) := by
  induction l generalizing exist with
  | nil => rfl
  | cons p l ih =>
      have hrest : l.filter (Function.update exist p (exist p &&& clear) · &&& clear ≠ 0) =
          l.filter (exist · &&& clear ≠ 0) := by
        refine List.filter_congr fun q _ => ?_
        obtain rfl | hne := eq_or_ne q p
        · simp [BitVec.and_assoc]
        · simp [hne]
      simp only [clearLoop, Function.update_self]
      rw [ih, hrest, List.filter_cons]
      split <;> simp_all

end Clearing

section Fields

variable {s : LazyHub}

theorem foldl_clientBurstIfNeeded (s : LazyHub) (a : LazyServer) (members : List ℕ) :
    ∃ exist, members.foldl (clientBurstIfNeeded · a ·) s =
      { s with lazyLinkClientExists := exist } ∧
    ∀ k i, (exist k).getLsbD i = true →
      (s.lazyLinkClientExists k).getLsbD i = true ∨ a.serverMask.getLsbD i = true := by
  induction members generalizing s with
  | nil => exact ⟨_, rfl, fun k i hi => .inl hi⟩
  | cons k members ih =>
      obtain ⟨exist, heq, hbits⟩ := ih (s.clientBurstIfNeeded a k)
      refine ⟨exist, ?_, fun q i hi => ?_⟩
      · rw [List.foldl_cons, heq, clientBurstIfNeeded]
        split <;> rfl
      · obtain hold | hold := hbits q i hi
        · rw [clientBurstIfNeeded] at hold
          split at hold
          · obtain rfl | hne := eq_or_ne q k
            · simpa [addLazylinkclient] using hold
            · exact .inl (by simpa [addLazylinkclient, hne] using hold)
          · exact .inl hold
        · exact .inr hold

theorem takeMask_of_not {caps : LazyCaps} (h : ¬ s.TakesMask caps) :
    s.takeMask caps = (s, ⟨{ caps with ll := false }, 0⟩) := by
  obtain ⟨ll, hub, enc, zip⟩ := caps
  cases ll with
  | false => rfl
  | true =>
      cases hub with
      | true => rfl
      | false =>
          obtain ⟨hnext, -⟩ | ⟨i, hi, hset, -⟩ := nextFreeMask_spec s.freeMask
          · simp [takeMask, hnext]
          · exact absurd ⟨rfl, rfl, i, hi, hset⟩ h

theorem takeMask_of {caps : LazyCaps} (h : s.TakesMask caps) :
    ∃ i < 32, s.freeMask.getLsbD i = true ∧ s.takeMask caps =
      ({ s with freeMask := s.freeMask &&& ~~~BitVec.twoPow 64 i },
        ⟨caps, BitVec.twoPow 64 i⟩) := by
  obtain ⟨ll, hub, enc, zip⟩ := caps
  obtain ⟨rfl, rfl, j, hj, hbit⟩ : ll = true ∧ hub = false ∧ _ := h
  obtain ⟨-, hnone⟩ | ⟨i, hi, hset, hnext⟩ := nextFreeMask_spec s.freeMask
  · rw [hnone j hj] at hbit
    cases hbit
  · refine ⟨i, hi, hset, ?_⟩
    have hne : BitVec.twoPow 64 i ≠ 0 := twoPow_ne_zero (by omega)
    simp only [takeMask, hnext, if_true, Bool.false_eq_true, if_false]
    rw [decide_eq_true hne]

theorem serverEstab_of {client : LazyServer} {env : EstabEnv} {c : ℕ}
    (h : Established client.caps env) :
    s.serverEstab c client env =
      { s with servers := Function.update s.servers c (some client) } := by
  obtain ⟨hconf, hfork, hclosing⟩ := h
  have hforked : ((client.caps.enc || client.caps.zip) && !env.fork) = false := by
    cases hf : env.fork with
    | true => simp
    | false =>
        rw [hf] at hfork
        simpa using hfork
  simp [serverEstab, hconf, hforked, hclosing]

theorem serverEstab_of_not {client : LazyServer} {env : EstabEnv} {c : ℕ}
    (h : ¬ Established client.caps env) : s.serverEstab c client env = s := by
  simp only [serverEstab, exitClient, Bool.false_eq_true, if_false]
  split
  · rfl
  · split
    · rfl
    · split
      · rfl
      · refine absurd ⟨by simp_all, ?_, by simp_all⟩ h
        intro hcap
        simp_all

end Fields

section Steps

variable {s : LazyHub} {a : LazyServer} {c p k : ℕ}

theorem held_insert (hc : s.servers c = none) {f : LazyMask} {i : ℕ} :
    Held { s with freeMask := f, servers := Function.update s.servers c (some a) } i ↔
      a.serverMask.getLsbD i = true ∨ s.Held i := by
  constructor
  · rintro ⟨d, b, hd, hbit⟩
    obtain rfl | hne := eq_or_ne d c
    · obtain rfl : a = b := by simpa using hd
      exact .inl hbit
    · exact .inr ⟨d, b, by simpa [hne] using hd, hbit⟩
  · rintro (hbit | ⟨d, b, hd, hbit⟩)
    · exact ⟨c, a, by simp, hbit⟩
    · have hne : d ≠ c := by
        rintro rfl
        rw [hc] at hd
        cases hd
      exact ⟨d, b, by simpa [hne] using hd, hbit⟩

theorem Bookkept.insert (h : s.Bookkept) (hc : s.servers c = none)
    (hfree : ∀ i, a.serverMask.getLsbD i = true → i < 32 ∧ s.freeMask.getLsbD i = true) :
    Bookkept { s with
      freeMask := s.freeMask &&& ~~~a.serverMask
      servers := Function.update s.servers c (some a) } := by
  have hheld {i : ℕ} (hbit : a.serverMask.getLsbD i = true) : ¬ s.Held i :=
    (h.free i (hfree i hbit).1).mp (hfree i hbit).2
  have hnew (d : ℕ) (b : LazyServer) (hd : s.servers d = some b) :
      a.serverMask &&& b.serverMask = 0 := by
    exact and_eq_zero fun i ha hb => hheld ha ⟨d, b, hd, hb⟩
  refine ⟨fun d e b b' hd he hne => ?_, fun i hi => ?_, fun p hp i hbit => ?_,
    fun k hk i hbit => ?_, h.listed⟩
  · obtain rfl | hdc := eq_or_ne d c
    · obtain rfl : a = b := by simpa using hd
      exact hnew e b' (by simpa [hne.symm] using he)
    · obtain rfl | hec := eq_or_ne e c
      · obtain rfl : a = b' := by simpa using he
        rw [BitVec.and_comm]
        exact hnew d b (by simpa [hdc] using hd)
      · exact h.apart d e b b' (by simpa [hdc] using hd) (by simpa [hec] using he) hne
  · rw [held_insert hc, not_or, ← h.free i hi]
    simp [show i < 64 by omega, and_comm]
  · exact (held_insert hc).mpr (.inr (h.channels p hp i hbit))
  · exact (held_insert hc).mpr (.inr (h.clients k hk i hbit))

theorem Bookkept.mrServer_iff (h : s.Bookkept) (hc : s.servers c = none) {caps : LazyCaps}
    {env : EstabEnv} :
    (s.mrServer c caps env).Bookkept ↔ (s.TakesMask caps → Established caps env) := by
  by_cases htakes : s.TakesMask caps
  · obtain ⟨i, hi, hset, htake⟩ := takeMask_of htakes
    rw [mrServer, htake]
    by_cases hestab : Established caps env
    · rw [serverEstab_of hestab]
      refine iff_of_true ?_ fun _ => hestab
      refine h.insert (a := ⟨caps, BitVec.twoPow 64 i⟩) hc fun j hj => ?_
      obtain ⟨-, rfl⟩ : i < 64 ∧ i = j := by simpa [BitVec.getLsbD_twoPow] using hj
      exact ⟨hi, hset⟩
    · rw [serverEstab_of_not hestab]
      refine iff_of_false (fun hkept => ?_) fun himp => hestab (himp htakes)
      have hnot := (h.free i hi).mp hset
      have hset' := (hkept.free i hi).mpr hnot
      simp [show i < 64 by omega] at hset'
  · rw [mrServer, takeMask_of_not htakes]
    refine iff_of_true ?_ fun himp => absurd himp htakes
    by_cases hestab : Established { caps with ll := false } env
    · rw [serverEstab_of hestab]
      have hinsert := h.insert (a := ⟨{ caps with ll := false }, 0⟩) hc fun i hi => by simp at hi
      rwa [and_not_zero] at hinsert
    · rw [serverEstab_of_not hestab]
      exact h

theorem held_remove (h : s.Bookkept) (hc : s.servers c = some a) {i : ℕ} :
    Held { s with servers := Function.update s.servers c none } i ↔
      s.Held i ∧ a.serverMask.getLsbD i = false := by
  constructor
  · rintro ⟨d, b, hd, hbit⟩
    have hne : d ≠ c := by
      rintro rfl
      simp at hd
    have hd : s.servers d = some b := by simpa [hne] using hd
    refine ⟨⟨d, b, hd, hbit⟩, ?_⟩
    have hand := congrArg (·.getLsbD i) (h.apart d c b a hd hc hne)
    simpa [hbit] using hand
  · rintro ⟨⟨d, b, hd, hbit⟩, hnot⟩
    have hne : d ≠ c := by
      rintro rfl
      obtain rfl : a = b := by simpa [hc] using hd
      rw [hnot] at hbit
      cases hbit
    exact ⟨d, b, by simpa [hne] using hd, hbit⟩

theorem Bookkept.apart_remove (h : s.Bookkept) (d e : ℕ) (b b' : LazyServer)
    (hd : Function.update s.servers c none d = some b)
    (he : Function.update s.servers c none e = some b') (hne : d ≠ e) :
    b.serverMask &&& b'.serverMask = 0 := by
  have hsub {d : ℕ} {b : LazyServer} (hd : Function.update s.servers c none d = some b) :
      s.servers d = some b := by
    obtain rfl | hdc := eq_or_ne d c
    · simp at hd
    · simpa [hdc] using hd
  exact h.apart d e b b' (hsub hd) (hsub he) hne

theorem Bookkept.exitServer (h : s.Bookkept) (hc : s.servers c = some a) :
    (s.exitServer c a).Bookkept := by
  have hgone {i : ℕ} := held_remove h hc (i := i)
  simp only [LazyHub.exitServer, exitClient, removeLazylinkFlags, if_true]
  split
  case isTrue hmask =>
    have hheld {i : ℕ} : Held { s with servers := Function.update s.servers c none } i ↔
        s.Held i := by simp [hgone, hmask]
    refine ⟨h.apart_remove, fun i hi => ?_, fun p hp i hbit => ?_, fun k hk i hbit => ?_,
      h.listed⟩
    · rw [hheld]
      exact h.free i hi
    · exact hheld.mpr (h.channels p hp i hbit)
    · exact hheld.mpr (h.clients k hk i hbit)
  case isFalse hmask =>
    have hand {m : LazyMask} {i : ℕ} (hbit : (m &&& ~~~a.serverMask).getLsbD i = true) :
        m.getLsbD i = true ∧ a.serverMask.getLsbD i = false := by
      simp only [BitVec.getLsbD_and, BitVec.getLsbD_not, Bool.and_eq_true,
        Bool.not_eq_true'] at hbit
      exact ⟨hbit.1, hbit.2.2⟩
    have hexist {p : ℕ} (hp : p ∈ s.channels) :
        s.lazylinkChannels.foldl (clearOne (~~~a.serverMask)) s.lazyLinkChannelExists p =
          s.lazyLinkChannelExists p &&& ~~~a.serverMask := by
      rw [foldl_clearOne]
      split
      · rfl
      case isFalse hnot =>
        have hzero : s.lazyLinkChannelExists p = 0 := by
          by_contra hne
          exact hnot ((h.listed p).mpr ⟨hp, hne⟩)
        simp [hzero]
    rw [clearLoop_snd, clearLoop_fst]
    refine ⟨h.apart_remove, fun i hi => ?_, fun p hp i hbit => ?_, fun k hk i hbit => ?_,
      fun p => ?_⟩
    · refine Iff.trans ?_ (not_congr hgone).symm
      rw [BitVec.getLsbD_or, Bool.or_eq_true, h.free i hi]
      cases a.serverMask.getLsbD i <;> simp
    · change (s.lazylinkChannels.foldl _ s.lazyLinkChannelExists p).getLsbD i = true at hbit
      rw [hexist hp] at hbit
      exact hgone.mpr ⟨h.channels p hp i (hand hbit).1, (hand hbit).2⟩
    · change (s.clients.foldl _ s.lazyLinkClientExists k).getLsbD i = true at hbit
      rw [foldl_clearOne, if_pos hk] at hbit
      exact hgone.mpr ⟨h.clients k hk i (hand hbit).1, (hand hbit).2⟩
    · change p ∈ s.lazylinkChannels.filter _ ↔ p ∈ s.channels ∧ s.lazylinkChannels.foldl _
        s.lazyLinkChannelExists p ≠ 0
      rw [List.mem_filter, h.listed]
      constructor
      · rintro ⟨⟨hp, -⟩, hne⟩
        rw [hexist hp]
        exact ⟨hp, by simpa using hne⟩
      · rintro ⟨hp, hne⟩
        rw [hexist hp] at hne
        refine ⟨⟨hp, fun hzero => hne ?_⟩, by simpa using hne⟩
        simp [hzero]

theorem Bookkept.makeChannel (h : s.Bookkept) (hp : p ∉ s.channels) :
    (s.makeChannel p).Bookkept := by
  refine ⟨h.apart, h.free, fun q hq i hbit => ?_, h.clients, fun q => ?_⟩
  · obtain rfl | hne := eq_or_ne q p
    · simp [LazyHub.makeChannel] at hbit
    · exact h.channels q (by simpa [LazyHub.makeChannel, hne] using hq) i
        (by simpa [LazyHub.makeChannel, hne] using hbit)
  · change q ∈ s.lazylinkChannels ↔ _
    rw [h.listed]
    obtain rfl | hne := eq_or_ne q p
    · simp [LazyHub.makeChannel, hp]
    · simp [LazyHub.makeChannel, hne]

theorem Bookkept.destroyChannel_iff (h : s.Bookkept) (freed : LazyMask) :
    (s.destroyChannel p freed).Bookkept ↔ s.lazylinkChannels.count p ≤ 1 := by
  constructor
  · intro hkept
    have hnot : p ∉ s.lazylinkChannels.erase p := fun hmem =>
      absurd ((hkept.listed p).mp hmem).1 (by simp [LazyHub.destroyChannel])
    have hcount := List.count_eq_zero.mpr hnot
    rw [List.count_erase_self] at hcount
    omega
  · intro hcount
    have hnot : p ∉ s.lazylinkChannels.erase p := by
      rw [← List.count_eq_zero, List.count_erase_self]
      omega
    refine ⟨h.apart, h.free, fun q hq i hbit => ?_, h.clients, fun q => ?_⟩
    · obtain ⟨hq, hne⟩ : q ∈ s.channels ∧ q ≠ p := by simpa [LazyHub.destroyChannel] using hq
      exact h.channels q hq i (by simpa [LazyHub.destroyChannel, hne] using hbit)
    · change q ∈ s.lazylinkChannels.erase p ↔ _
      obtain rfl | hne := eq_or_ne q p
      · simp [LazyHub.destroyChannel, hnot]
      · rw [List.mem_erase_of_ne hne, h.listed]
        simp [LazyHub.destroyChannel, hne]

theorem Bookkept.makeClient (h : s.Bookkept) : (s.makeClient k).Bookkept := by
  refine ⟨h.apart, h.free, h.channels, fun q hq i hbit => ?_, h.listed⟩
  obtain rfl | hne := eq_or_ne q k
  · simp [LazyHub.makeClient] at hbit
  · exact h.clients q (by simpa [LazyHub.makeClient, hne] using hq) i
      (by simpa [LazyHub.makeClient, hne] using hbit)

/-- Clients that get bits of a connected leaf. -/
theorem Bookkept.addClients (h : s.Bookkept) (hc : s.servers c = some a) {exist : ℕ → LazyMask}
    (hbits : ∀ k i, (exist k).getLsbD i = true →
      (s.lazyLinkClientExists k).getLsbD i = true ∨ a.serverMask.getLsbD i = true) :
    Bookkept { s with lazyLinkClientExists := exist } := by
  refine ⟨h.apart, h.free, h.channels, fun k hk i hbit => ?_, h.listed⟩
  obtain hold | hnew := hbits k i hbit
  · exact h.clients k hk i hold
  · exact ⟨c, a, hc, hnew⟩

theorem addLazylinkclient_bits (q i : ℕ)
    (hbit : ((s.addLazylinkclient a k).lazyLinkClientExists q).getLsbD i = true) :
    (s.lazyLinkClientExists q).getLsbD i = true ∨ a.serverMask.getLsbD i = true := by
  obtain rfl | hne := eq_or_ne q k
  · simpa [addLazylinkclient] using hbit
  · exact .inl (by simpa [addLazylinkclient, hne] using hbit)

theorem Bookkept.addLazylinkclient (h : s.Bookkept) (hc : s.servers c = some a) :
    (s.addLazylinkclient a k).Bookkept :=
  h.addClients hc addLazylinkclient_bits

theorem Bookkept.clientBurstIfNeeded (h : s.Bookkept) (hc : s.servers c = some a) :
    (s.clientBurstIfNeeded a k).Bookkept := by
  rw [LazyHub.clientBurstIfNeeded]
  split
  · exact h.addLazylinkclient hc
  · exact h

theorem Bookkept.burstChannel (h : s.Bookkept) (hc : s.servers c = some a)
    (ha : a.serverMask ≠ 0) (hp : p ∈ s.channels) (members : List ℕ) :
    (s.burstChannel a p members).Bookkept := by
  obtain ⟨exist, heq, hbits⟩ := foldl_clientBurstIfNeeded s a members
  have h' := h.addClients hc hbits
  rw [LazyHub.burstChannel, heq]
  refine ⟨h'.apart, h'.free, fun q hq i hbit => ?_, h'.clients, fun q => ?_⟩
  · obtain rfl | hne := eq_or_ne q p
    · obtain hold | hnew : (s.lazyLinkChannelExists q).getLsbD i = true ∨
          a.serverMask.getLsbD i = true := by simpa [addLazylinkchannel] using hbit
      · exact h.channels q hq i hold
      · exact ⟨c, a, hc, hnew⟩
    · exact h.channels q hq i (by simpa [addLazylinkchannel, hne] using hbit)
  · change q ∈ p :: s.lazylinkChannels ↔ _
    obtain rfl | hne := eq_or_ne q p
    · simpa [addLazylinkchannel, hp] using fun _ => ha
    · rw [List.mem_cons, h.listed]
      simp [addLazylinkchannel, hne]

theorem Bookkept.msDrop_iff (h : s.Bookkept) (hp : p ∈ s.channels) :
    (s.msDrop a p).Bookkept ↔ (s.lazyLinkChannelExists p ≠ 0 →
      s.lazyLinkChannelExists p &&& ~~~a.serverMask ≠ 0) := by
  rw [LazyHub.msDrop]
  split
  case isFalse hmask =>
    refine iff_of_true h fun hne => ?_
    rwa [not_not.mp hmask, and_not_zero]
  case isTrue hmask =>
    constructor
    · intro hkept hne
      have hlisted := (hkept.listed p).mp ((h.listed p).mpr ⟨hp, hne⟩)
      simpa using hlisted.2
    · intro hne
      refine ⟨h.apart, h.free, fun q hq i hbit => ?_, h.clients, fun q => ?_⟩
      · obtain rfl | hqp := eq_or_ne q p
        · have hold : (s.lazyLinkChannelExists q).getLsbD i = true := by
            simp only [Function.update_self, BitVec.getLsbD_and, Bool.and_eq_true] at hbit
            exact hbit.1
          exact h.channels q hq i hold
        · exact h.channels q hq i (by simpa [hqp] using hbit)
      · change q ∈ s.lazylinkChannels ↔ _
        rw [h.listed]
        obtain rfl | hqp := eq_or_ne q p
        · simp only [Function.update_self]
          refine and_congr_right fun _ => ⟨hne, fun hleft hzero => hleft ?_⟩
          simp [hzero]
        · simp [hqp]

end Steps

/-- A server that kept `CAP_LL` has a bit. -/
def LeavesMasked (s : LazyHub) : Prop :=
  ∀ c a, s.servers c = some a → a.caps.ll = true → a.serverMask ≠ 0

section Runs

variable {s : LazyHub}

theorem takeMask_masked {caps : LazyCaps} (hll : (s.takeMask caps).2.caps.ll = true) :
    (s.takeMask caps).2.serverMask ≠ 0 := by
  by_cases htakes : s.TakesMask caps
  · obtain ⟨i, hi, -, htake⟩ := takeMask_of htakes
    rw [htake]
    exact twoPow_ne_zero (by omega)
  · rw [takeMask_of_not htakes] at hll
    cases hll

theorem servers_takeMask (caps : LazyCaps) : (s.takeMask caps).1.servers = s.servers := by
  rw [takeMask]
  split
  · split <;> rfl
  · rfl

theorem LeavesMasked.congr (h : s.LeavesMasked) {t : LazyHub} (ht : t.servers = s.servers) :
    t.LeavesMasked := by
  intro c a hc
  rw [ht] at hc
  exact h c a hc

theorem LeavesMasked.step (h : s.LeavesMasked) (e : LazyEvent) : (s.step e).LeavesMasked := by
  cases e with
  | server c caps env =>
      rw [LazyHub.step]
      split
      · by_cases hestab : Established (s.takeMask caps).2.caps env
        · rw [mrServer, serverEstab_of hestab]
          intro d b hd hll
          obtain rfl | hne := eq_or_ne d c
          · obtain rfl : (s.takeMask caps).2 = b := by simpa using hd
            exact takeMask_masked hll
          · exact h d b (by simpa [hne, servers_takeMask] using hd) hll
        · rw [mrServer, serverEstab_of_not hestab]
          exact h.congr (servers_takeMask caps)
      · exact h
  | exitServer c =>
      rw [LazyHub.step]
      cases hc : s.servers c with
      | none => exact h
      | some a =>
          intro d b hd
          have hd : Function.update s.servers c none d = some b := by
            simp only [Option.elim, LazyHub.exitServer, exitClient, removeLazylinkFlags] at hd
            split at hd
            · split at hd <;> exact hd
            · exact hd
          obtain rfl | hne := eq_or_ne d c
          · simp at hd
          · exact h d b (by simpa [hne] using hd)
  | makeChannel p => exact h.congr (by rw [LazyHub.step]; split <;> rfl)
  | destroyChannel p freed => exact h.congr (by rw [LazyHub.step]; split <;> rfl)
  | makeClient k => exact h.congr (by rw [LazyHub.step]; split <;> rfl)
  | exitUser k => exact h
  | addClient c k =>
      refine h.congr ?_
      rw [LazyHub.step]
      cases s.servers c with
      | none => rfl
      | some a => simp only [Option.elim]; split <;> rfl
  | burstClient c k =>
      refine h.congr ?_
      rw [LazyHub.step]
      cases s.servers c with
      | none => rfl
      | some a =>
          simp only [Option.elim, clientBurstIfNeeded]
          split
          · split <;> rfl
          · rfl
  | burstChannel c p members =>
      refine h.congr ?_
      rw [LazyHub.step]
      cases s.servers c with
      | none => rfl
      | some a =>
          obtain ⟨exist, heq, -⟩ := foldl_clientBurstIfNeeded s a members
          simp only [Option.elim, LazyHub.burstChannel, heq]
          split <;> rfl
  | drop c p =>
      refine h.congr ?_
      rw [LazyHub.step]
      cases s.servers c with
      | none => rfl
      | some a =>
          simp only [Option.elim, LazyHub.msDrop]
          split
          · split <;> rfl
          · rfl

theorem Bookkept.step_iff (h : s.Bookkept) (hm : s.LeavesMasked) (e : LazyEvent) :
    (s.step e).Bookkept ↔ s.Orderly e := by
  cases e with
  | server c caps env =>
      rw [LazyHub.step, Orderly]
      split
      case isTrue hc => simp [h.mrServer_iff hc, hc]
      case isFalse hc => simp [h, hc]
  | exitServer c =>
      refine iff_of_true ?_ trivial
      rw [LazyHub.step]
      cases hc : s.servers c with
      | none => exact h
      | some a => exact h.exitServer hc
  | makeChannel p =>
      refine iff_of_true ?_ trivial
      rw [LazyHub.step]
      split
      case isTrue => exact h
      case isFalse hp => exact h.makeChannel hp
  | destroyChannel p freed =>
      rw [LazyHub.step, Orderly]
      split
      case isTrue => exact h.destroyChannel_iff freed
      case isFalse hp =>
        have hnot : p ∉ s.lazylinkChannels := fun hmem => hp ((h.listed p).mp hmem).1
        exact iff_of_true h (by simp [List.count_eq_zero.mpr hnot])
  | makeClient k =>
      refine iff_of_true ?_ trivial
      rw [LazyHub.step]
      split
      · exact h
      · exact h.makeClient
  | exitUser k =>
      exact iff_of_true ⟨h.apart, h.free, h.channels,
        fun q hq => h.clients q (List.mem_of_mem_filter hq), h.listed⟩ trivial
  | addClient c k =>
      refine iff_of_true ?_ trivial
      rw [LazyHub.step]
      cases hc : s.servers c with
      | none => exact h
      | some a =>
          simp only [Option.elim]
          split
          · exact h.addLazylinkclient hc
          · exact h
  | burstClient c k =>
      refine iff_of_true ?_ trivial
      rw [LazyHub.step]
      cases hc : s.servers c with
      | none => exact h
      | some a =>
          simp only [Option.elim]
          split
          · exact h.clientBurstIfNeeded hc
          · exact h
  | burstChannel c p members =>
      refine iff_of_true ?_ trivial
      rw [LazyHub.step]
      cases hc : s.servers c with
      | none => exact h
      | some a =>
          simp only [Option.elim]
          split
          case isTrue hburst => exact h.burstChannel hc (hm c a hc hburst.1) hburst.2 members
          case isFalse => exact h
  | drop c p =>
      rw [LazyHub.step, Orderly]
      cases hc : s.servers c with
      | none => simp [h]
      | some a =>
          simp only [Option.elim, Option.some.injEq, forall_eq']
          split
          case isTrue hp => simp [h.msDrop_iff hp, hp]
          case isFalse hp => simp [h, hp]

theorem start_bookkept : start.Bookkept where
  apart _ _ _ _ hd := by cases hd
  free i hi := by
    refine iff_of_true ?_ ?_
    · decide +revert
    · rintro ⟨c, a, hc, -⟩
      cases hc
  channels _ hp := by cases hp
  clients _ hk := by cases hk
  listed p := by simp [start]

/-- The masks are in order all along a run exactly when every event was orderly. -/
theorem run_bookkept_iff (es : List LazyEvent) :
    (∀ n, ((es.take n).foldl step start).Bookkept) ↔ Runs.Each step Orderly start es :=
  Runs.forall_take_iff (P := Bookkept) (I := LeavesMasked) (fun _ e hm => hm.step e)
    (fun _ e hm h => h.step_iff hm e) (fun _ _ hc => by cases hc) start_bookkept

def leafCaps : LazyCaps := ⟨true, false, false, false⟩

/-- A leaf that is refused after its `SERVER`, and a channel burst to two leaves and destroyed. -/
theorem not_forall_bookkept :
    (¬ ∀ (es : List LazyEvent) (n : ℕ), ((es.take n).foldl step start).Bookkept) ∧
      ∃ p, p ∈ ([.server 0 leafCaps ⟨true, true, false⟩, .server 1 leafCaps ⟨true, true, false⟩,
        .makeChannel 7, .burstChannel 0 7 [], .burstChannel 1 7 [],
        .destroyChannel 7 0].foldl step start).lazylinkChannels := by
  refine ⟨fun hall => ?_, 7, by decide⟩
  have hleak := (hall [.server 0 leafCaps ⟨false, true, false⟩] 1).free 0 (by decide)
  refine absurd (hleak.mpr ?_) (by decide)
  rintro ⟨c, a, hc, -⟩
  have hnone : (start.step (.server 0 leafCaps ⟨false, true, false⟩)).servers = fun _ => none := rfl
  have hc : (start.step (.server 0 leafCaps ⟨false, true, false⟩)).servers c = some a := hc
  rw [hnone] at hc
  cases hc

end Runs

end LazyHub

end Unirc
