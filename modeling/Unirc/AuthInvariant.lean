import Unirc.Auth

/-!
# What the fields of a request say about its queries

The invariant of the requests and their clients. An operation that touches one request only keeps it
for all the others.
-/

namespace Unirc

namespace Auth

/-- Whether `y` may follow `x`: a request is not used once it was freed, and a client not released
once it was released or has exited. -/
def MayFollow (x y : Use) : Prop :=
  ∀ n, (x = .freed n → y ≠ .used n ∧ y ≠ .freed n) ∧
    (x = .released n ∨ x = .exited n → y ≠ .released n)

abbrev InOrder (log : List Use) : Prop := log.Pairwise MayFollow

theorem InOrder.append {log : List Use} (h : InOrder log) {x : Use}
    (hx : ∀ y ∈ log, MayFollow y x) : InOrder (log ++ [x]) :=
  List.pairwise_append.mpr ⟨h, List.pairwise_singleton _ _, fun y hy z hz => by
    rw [List.mem_singleton.mp hz]
    exact hx y hy⟩

theorem InOrder.used {log : List Use} (h : InOrder log) {a : ℕ} (ha : .freed a ∉ log) :
    InOrder (log ++ [.used a]) :=
  h.append fun y hy n => ⟨fun he => ⟨fun hu => ha (by rw [Use.used.inj hu, ← he]; exact hy),
    by simp⟩, by simp⟩

theorem InOrder.freed {log : List Use} (h : InOrder log) {a : ℕ} (ha : .freed a ∉ log) :
    InOrder (log ++ [.freed a]) :=
  h.append fun y hy n => ⟨fun he => ⟨by simp,
    fun hu => ha (by rw [Use.freed.inj hu, ← he]; exact hy)⟩, by simp⟩

theorem InOrder.released {log : List Use} (h : InOrder log) {c : ℕ} (hc : .released c ∉ log)
    (hc' : .exited c ∉ log) : InOrder (log ++ [.released c]) := by
  refine h.append fun y hy n => ⟨by simp, fun he hu => ?_⟩
  obtain rfl := Use.released.inj hu
  obtain rfl | rfl := he
  · exact hc hy
  · exact hc' hy

theorem InOrder.exited {log : List Use} (h : InOrder log) (c : ℕ) :
    InOrder (log ++ [.exited c]) :=
  h.append fun y hy n => by simp

theorem InOrder.count_freed_le {log : List Use} (h : InOrder log) (a : ℕ) :
    log.count (.freed a) ≤ 1 := by
  by_contra hlt
  have hsub : List.Sublist (List.replicate 2 (Use.freed a)) log :=
    List.replicate_sublist_iff.mpr (by omega)
  exact ((List.pairwise_pair.mp (h.sublist hsub) a).1 rfl).2 rfl

namespace State

def Linked (s : State) (a : ℕ) : Prop := a ∈ s.dnsList ∨ a ∈ s.identList

instance (s : State) (a : ℕ) : Decidable (s.Linked a) := inferInstanceAs (Decidable (_ ∨ _))

/-- What the fields of a request and of its client say about its queries. The request `u` is not
freed yet although it has no outstanding query. -/
structure Tracks (u : Option ℕ) (s : State) (a : ℕ) (auth : Request) (conn : Conn) : Prop where
  pending : s.Linked a → (auth.dnsPending = true ↔ a ∈ s.dnsList)
  doing : s.Linked a → (auth.doingAuth = true ↔ a ∈ s.identList)
  crit : s.Linked a → auth.crit = false
  unknown : s.Linked a → conn.unknown = true
  stays : s.Linked a → conn.closing = false ∧ conn.finishedAuth = false
  query : s.Linked a → conn.dnsQuery = if a ∈ s.dnsList then some a else none
  leaves : ¬ s.Linked a → conn.closing = true ∨ conn.finishedAuth = true
  freed : .freed a ∈ s.log ↔ ¬ s.Linked a ∧ u ≠ some a
  released : .released auth.client ∈ s.log ↔ conn.finishedAuth = true
  exited : .exited auth.client ∈ s.log ↔ conn.closing = true

/-- The request `busy` is being worked on. -/
structure Inv (u busy : Option ℕ) (s : State) : Prop where
  dns : s.dnsList = s.queries
  ident : s.identList = s.idents
  nodupDns : s.dnsList.Nodup
  nodupIdent : s.identList.Nodup
  lt : ∀ a, (s.auths a).isSome ↔ a < s.nextAuth
  linked : ∀ a, s.Linked a → a < s.nextAuth
  client : ∀ a auth, s.auths a = some auth → ∃ conn, s.clients auth.client = some conn
  owner : ∀ c conn, s.clients c = some conn → ∃ a auth, s.auths a = some auth ∧ auth.client = c
  inj : ∀ a auth a' auth', s.auths a = some auth → s.auths a' = some auth' →
    auth.client = auth'.client → a = a'
  uses : ∀ a, .used a ∈ s.log ∨ .freed a ∈ s.log → a < s.nextAuth
  clients : ∀ c, .released c ∈ s.log ∨ .exited c ∈ s.log → (s.clients c).isSome
  order : InOrder s.log
  tracks : ∀ a auth conn, s.auths a = some auth → s.clients auth.client = some conn →
    busy ≠ some a → Tracks u s a auth conn

theorem Inv.init : Inv none none init := by
  constructor <;> simp [State.init, Linked]

variable {u v busy : Option ℕ} {s s' : State} {a c : ℕ}

/-- Nothing changes but a request, its places in the lists, and its client. -/
structure Touches (a c : ℕ) (s s' : State) : Prop where
  auths : ∀ b, b ≠ a → s'.auths b = s.auths b
  own : ∃ auth, s'.auths a = some auth ∧ auth.client = c
  nextAuth : s'.nextAuth = s.nextAuth
  clients : ∀ d, d ≠ c → s'.clients d = s.clients d
  conn : ∃ conn, s'.clients c = some conn
  dns : ∀ b, b ≠ a → (b ∈ s'.dnsList ↔ b ∈ s.dnsList)
  ident : ∀ b, b ≠ a → (b ∈ s'.identList ↔ b ∈ s.identList)
  log : ∀ x, x ≠ .used a → x ≠ .freed a → x ≠ .released c → x ≠ .exited c →
    (x ∈ s'.log ↔ x ∈ s.log)

theorem Touches.linked (h : Touches a c s s') {b : ℕ} (hb : b ≠ a) :
    s'.Linked b ↔ s.Linked b :=
  or_congr (h.dns b hb) (h.ident b hb)

theorem Tracks.touches {auth : Request} {conn : Conn} {b : ℕ} (h : Tracks u s b auth conn)
    (ht : Touches a c s s') (hb : b ≠ a) (hc : auth.client ≠ c) (hu : v = some b ↔ u = some b) :
    Tracks v s' b auth conn where
  pending hl := (h.pending ((ht.linked hb).mp hl)).trans (ht.dns b hb).symm
  doing hl := (h.doing ((ht.linked hb).mp hl)).trans (ht.ident b hb).symm
  crit hl := h.crit ((ht.linked hb).mp hl)
  unknown hl := h.unknown ((ht.linked hb).mp hl)
  stays hl := h.stays ((ht.linked hb).mp hl)
  query hl := by
    rw [h.query ((ht.linked hb).mp hl)]
    exact if_congr (ht.dns b hb).symm rfl rfl
  leaves hl := h.leaves fun hl' => hl ((ht.linked hb).mpr hl')
  freed := by
    rw [ht.log _ (by simp) (by simpa using hb) (by simp) (by simp), h.freed, ht.linked hb, Ne, Ne,
      hu]
  released := by
    rw [ht.log _ (by simp) (by simp) (by simpa using hc) (by simp), h.released]
  exited := by
    rw [ht.log _ (by simp) (by simp) (by simp) (by simpa using hc), h.exited]

/-- What touches one request keeps everything about the others. -/
theorem Inv.touch (h : Inv u busy s) {auth : Request} (hauth : s.auths a = some auth)
    (ht : Touches a auth.client s s') (hbusy : busy = none ∨ busy = some a)
    (hu : ∀ b, b ≠ a → (v = some b ↔ u = some b)) (hdns : s'.dnsList = s'.queries)
    (hident : s'.identList = s'.idents) (hnodupDns : s'.dnsList.Nodup)
    (hnodupIdent : s'.identList.Nodup) (horder : InOrder s'.log) : Inv v (some a) s' := by
  obtain ⟨auth', hauth', hclient'⟩ := ht.own
  have ha : a < s.nextAuth := (h.lt a).mp (by simp [hauth])
  have hcases : ∀ b authb, s'.auths b = some authb → (b = a ∧ authb = auth') ∨
      (b ≠ a ∧ s.auths b = some authb ∧ authb.client ≠ auth.client) := by
    intro b authb hb
    by_cases hba : b = a
    · subst hba
      exact Or.inl ⟨rfl, Option.some.inj (hb.symm.trans hauth')⟩
    · rw [ht.auths b hba] at hb
      exact Or.inr ⟨hba, hb, fun hc => hba (h.inj b authb a auth hb hauth hc)⟩
  refine ⟨hdns, hident, hnodupDns, hnodupIdent, fun b => ?_, fun b hl => ?_, fun b authb hb => ?_,
    fun d conn hd => ?_, fun b authb b' authb' hb hb' hc => ?_, fun b hb => ?_, fun d hd => ?_,
    horder, fun b authb conn hb hconn hne => ?_⟩
  · by_cases hba : b = a
    · subst hba
      simp [hauth', ht.nextAuth, ha]
    · rw [ht.auths b hba, ht.nextAuth, h.lt]
  · rw [ht.nextAuth]
    by_cases hba : b = a
    · exact hba ▸ ha
    · exact h.linked b ((ht.linked hba).mp hl)
  · obtain ⟨-, rfl⟩ | ⟨-, hb', hc⟩ := hcases b authb hb
    · rw [hclient']
      exact ht.conn
    · rw [ht.clients _ hc]
      exact h.client b authb hb'
  · by_cases hdc : d = auth.client
    · exact ⟨a, auth', hauth', hclient'.trans hdc.symm⟩
    · rw [ht.clients d hdc] at hd
      obtain ⟨b, authb, hb, rfl⟩ := h.owner d conn hd
      refine ⟨b, authb, ?_, rfl⟩
      rwa [ht.auths b fun hba => hdc (by rw [hba, hauth] at hb; rw [Option.some.inj hb])]
  · obtain ⟨rfl, rfl⟩ | ⟨hba, hbs, hcb⟩ := hcases b authb hb <;>
      obtain ⟨rfl, rfl⟩ | ⟨hba', hbs', hcb'⟩ := hcases b' authb' hb'
    · rfl
    · exact absurd (hc.symm.trans hclient') hcb'
    · exact absurd (hc.trans hclient') hcb
    · exact h.inj b authb b' authb' hbs hbs' hc
  · rw [ht.nextAuth]
    by_cases hba : b = a
    · exact hba ▸ ha
    · rw [ht.log _ (by simpa using hba) (by simp) (by simp) (by simp),
        ht.log _ (by simp) (by simpa using hba) (by simp) (by simp)] at hb
      exact h.uses b hb
  · by_cases hdc : d = auth.client
    · subst hdc
      obtain ⟨conn, hconn⟩ := ht.conn
      simp [hconn]
    · rw [ht.log _ (by simp) (by simp) (by simpa using hdc) (by simp),
        ht.log _ (by simp) (by simp) (by simp) (by simpa using hdc)] at hd
      rw [ht.clients d hdc]
      exact h.clients d hd
  · obtain ⟨rfl, -⟩ | ⟨hba, hbs, hcb⟩ := hcases b authb hb
    · exact absurd rfl hne
    · rw [ht.clients _ hcb] at hconn
      refine (h.tracks b authb conn hbs hconn ?_).touches ht hba hcb (hu b hba)
      obtain rfl | rfl := hbusy
      · simp
      · simpa using fun he : a = b => hba he.symm

/-- The work on a request ends. -/
theorem Inv.rest (h : Inv u (some a) s) {auth : Request} {conn : Conn}
    (hauth : s.auths a = some auth) (hconn : s.clients auth.client = some conn)
    (ht : Tracks u s a auth conn) : Inv u none s where
  __ := h
  tracks b authb connb hb hcb _ := by
    by_cases hba : b = a
    · subst hba
      obtain rfl := Option.some.inj (hb.symm.trans hauth)
      obtain rfl := Option.some.inj (hcb.symm.trans hconn)
      exact ht
    · exact h.tracks b authb connb hb hcb (by simpa using fun he : a = b => hba he.symm)

/-- What a loop over requests that leaves them alone does. -/
def looks (s : State) (l : List ℕ) : State := { s with log := s.log ++ l.map .used }

theorem mem_looks_log {l : List ℕ} {x : Use} :
    x ∈ (s.looks l).log ↔ x ∈ s.log ∨ ∃ b ∈ l, x = .used b := by
  simp [looks, eq_comm]

theorem Inv.looks (h : Inv u busy s) {l : List ℕ}
    (hl : ∀ b ∈ l, b < s.nextAuth ∧ .freed b ∉ s.log) : Inv u busy (s.looks l) where
  __ := h
  uses b hb := by
    rw [mem_looks_log, mem_looks_log] at hb
    obtain (hb | ⟨b', hb', he⟩) | (hb | ⟨b', -, he⟩) := hb
    · exact h.uses b (Or.inl hb)
    · exact Use.used.inj he ▸ (hl b' hb').1
    · exact h.uses b (Or.inr hb)
    · cases he
  clients d hd := h.clients d (by simpa [mem_looks_log] using hd)
  order := by
    refine List.pairwise_append.mpr ⟨h.order, ?_, fun x hx y hy n => ?_⟩
    · rw [List.pairwise_map]
      exact List.pairwise_of_forall fun x y n => by simp
    · obtain ⟨b, hb, rfl⟩ := List.mem_map.mp hy
      refine ⟨fun he => ⟨fun hu => ?_, by simp⟩, by simp⟩
      exact (hl b hb).2 (by rw [Use.used.inj hu, ← he]; exact hx)
  tracks b auth conn hb hconn hne :=
    { h.tracks b auth conn hb hconn hne with
      freed := (by simp [mem_looks_log] : _ ↔ _).trans (h.tracks b auth conn hb hconn hne).freed
      released :=
        (by simp [mem_looks_log] : _ ↔ _).trans (h.tracks b auth conn hb hconn hne).released
      exited :=
        (by simp [mem_looks_log] : _ ↔ _).trans (h.tracks b auth conn hb hconn hne).exited }

theorem Inv.exists_auth (h : Inv u busy s) {b : ℕ} (hb : s.Linked b) :
    ∃ auth, s.auths b = some auth :=
  Option.isSome_iff_exists.mp ((h.lt b).mpr (h.linked b hb))

theorem Inv.not_freed (h : Inv u busy s) {b : ℕ} (hb : s.Linked b) (hne : busy ≠ some b) :
    .freed b ∉ s.log := by
  obtain ⟨auth, hauth⟩ := h.exists_auth hb
  obtain ⟨conn, hconn⟩ := h.client b auth hauth
  rw [(h.tracks b auth conn hauth hconn hne).freed]
  exact fun hf => hf.1 hb

section Loops

variable {auth : Request}

theorem deleteAuthDns_append {l₁ l₂ : List ℕ}
    (hl : ∀ b ∈ l₁, ∃ authb, s.auths b = some authb ∧ authb.client ≠ c) :
    deleteAuthDns c (l₁ ++ l₂) s = deleteAuthDns c l₂ (s.looks l₁) := by
  induction l₁ generalizing s with
  | nil => simp [looks]
  | cons b l ih =>
      obtain ⟨authb, hb, hne⟩ := hl b List.mem_cons_self
      rw [List.cons_append, deleteAuthDns, hb]
      simp only [if_neg hne]
      rw [ih (s := s.use (.used b)) fun b' hb' => hl b' (List.mem_cons_of_mem b hb')]
      simp [looks, use]

theorem deleteAuthDns_of_ne {l : List ℕ}
    (hl : ∀ b ∈ l, ∃ authb, s.auths b = some authb ∧ authb.client ≠ c) :
    deleteAuthDns c l s = (s.looks l, false) := by
  have happ : deleteAuthDns c (l ++ []) s = deleteAuthDns c [] (s.looks l) :=
    deleteAuthDns_append hl
  rwa [List.append_nil] at happ

theorem deleteAuthIdent_append {l₁ l₂ : List ℕ}
    (hl : ∀ b ∈ l₁, ∃ authb, s.auths b = some authb ∧ authb.client ≠ c) :
    deleteAuthIdent c (l₁ ++ l₂) s = deleteAuthIdent c l₂ (s.looks l₁) := by
  induction l₁ generalizing s with
  | nil => simp [looks]
  | cons b l ih =>
      obtain ⟨authb, hb, hne⟩ := hl b List.mem_cons_self
      rw [List.cons_append, deleteAuthIdent, hb]
      simp only [if_neg hne]
      rw [ih (s := s.use (.used b)) fun b' hb' => hl b' (List.mem_cons_of_mem b hb')]
      simp [looks, use]

theorem deleteAuthIdent_of_ne {l : List ℕ}
    (hl : ∀ b ∈ l, ∃ authb, s.auths b = some authb ∧ authb.client ≠ c) :
    deleteAuthIdent c l s = s.looks l := by
  have happ : deleteAuthIdent c (l ++ []) s = deleteAuthIdent c [] (s.looks l) :=
    deleteAuthIdent_append hl
  rwa [List.append_nil] at happ

end Loops

end State

end Auth

end Unirc
