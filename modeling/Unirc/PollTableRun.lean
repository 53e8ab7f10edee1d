import Unirc.PollTable

/-!
# The poll table all along a run

A descriptor that is registered holds the slot of its index, and the other slots are free. While its
handler runs only that descriptor may be out of step with its slot, and a slot that is taken or
changed within a pass is not looked at any more. The table does not survive a limit that goes up
where memory holds anything but `-1`, or down below a slot in use, nor the end of a registered
descriptor that is not a socket.
-/

namespace Unirc

open SlotArray

namespace FdeT

/-- It has a slot. -/
def Registered (f : FdeT) : Prop := f.isOpen = true ∧ f.evcache ≠ 0

theorem newEvents_ne_zero_iff {f : FdeT} : f.newEvents ≠ 0 ↔ f.Wanted := by
  unfold newEvents Wanted
  cases f.readHandler.isSome <;> cases f.writeHandler.isSome <;> decide

theorem newEvents_of_none {f : FdeT} (hr : f.readHandler = none) (hw : f.writeHandler = none) :
    f.newEvents = 0 := by
  rw [newEvents, hr, hw]
  decide

end FdeT

theorem PollFd.used_iff {slot : PollFd} : slot.used = true ↔ slot.fd ≠ -1 := bne_iff_ne

namespace PollWorld

variable {w w' : PollWorld} {F G : FdePtr}

structure Table (w : PollWorld) : Prop where
  length : w.pollfds.length = w.hardFdlimit
  slot : ∀ F, (w.fde F).Registered → ∃ i : ℕ, (w.fde F).commIndex = i ∧
    ∃ slot, w.pollfds[i]? = some slot ∧ slot.fd = (w.fde F).fd ∧ slot.events = (w.fde F).evcache
  owner : ∀ i, UsedAt PollFd.used w.pollfds i →
    ∃ F, (w.fde F).Registered ∧ (w.fde F).commIndex = i
  numbers : ∀ F G, (w.fde F).isOpen = true → (w.fde G).isOpen = true →
    (w.fde F).fd = (w.fde G).fd → F = G
  cleared : ∀ F, (w.fde F).isOpen = false → w.fde F = .cleared
  hash : ∀ F, F ∈ w.fdHash ↔ (w.fde F).isOpen = true
  nodup : w.fdHash.Nodup
  top : IsTop PollFd.used w.pollfds w.pollmax

namespace Table

theorem usedAt (h : Table w) (hF : (w.fde F).Registered) {i : ℕ} (hi : (w.fde F).commIndex = i) :
    ∃ slot, w.pollfds[i]? = some slot ∧ slot.fd = (w.fde F).fd ∧
      slot.events = (w.fde F).evcache := by
  obtain ⟨j, hj, hslot⟩ := h.slot F hF
  have hij : i = j := by omega
  exact hij ▸ hslot

theorem index_inj (h : Table w) (hF : (w.fde F).Registered) (hG : (w.fde G).Registered)
    (heq : (w.fde F).commIndex = (w.fde G).commIndex) : F = G := by
  obtain ⟨i, hi, slot, hslot, hfd, -⟩ := h.slot F hF
  obtain ⟨slot', hslot', hfd', -⟩ := h.usedAt hG (heq.symm.trans hi)
  have : slot = slot' := Option.some.inj (hslot.symm.trans hslot')
  subst this
  exact h.numbers F G hF.1 hG.1 (by omega)

/-- Handlers, and what is reported for the slots, are no part of the table. -/
theorem congr (h : Table w)
    (hfde : ∀ F, (w'.fde F).isOpen = (w.fde F).isOpen ∧ (w'.fde F).fd = (w.fde F).fd ∧
      (w'.fde F).commIndex = (w.fde F).commIndex ∧ (w'.fde F).evcache = (w.fde F).evcache)
    (hcleared : ∀ F, (w.fde F).isOpen = false → w'.fde F = w.fde F)
    (hslots : ∀ i : ℕ, (w'.pollfds[i]?).map (fun s => (s.fd, s.events)) =
      (w.pollfds[i]?).map (fun s => (s.fd, s.events)))
    (hlen : w'.pollfds.length = w.pollfds.length) (hmax : w'.pollmax = w.pollmax)
    (hlimit : w'.hardFdlimit = w.hardFdlimit) (hhash : w'.fdHash = w.fdHash) : Table w' := by
  have hreg : ∀ F, (w'.fde F).Registered ↔ (w.fde F).Registered := by
    intro F
    rw [FdeT.Registered, FdeT.Registered, (hfde F).1, (hfde F).2.2.2]
  have hused : ∀ i, UsedAt PollFd.used w'.pollfds i ↔ UsedAt PollFd.used w.pollfds i := by
    intro i
    have hi := hslots i
    constructor
    · rintro ⟨x, hx, hu⟩
      rw [hx] at hi
      obtain ⟨y, hy, heq⟩ := Option.map_eq_some_iff.mp hi.symm
      refine ⟨y, hy, ?_⟩
      rw [PollFd.used_iff] at hu ⊢
      exact (Prod.mk.inj heq).1 ▸ hu
    · rintro ⟨x, hx, hu⟩
      rw [hx] at hi
      obtain ⟨y, hy, heq⟩ := Option.map_eq_some_iff.mp hi
      refine ⟨y, hy, ?_⟩
      rw [PollFd.used_iff] at hu ⊢
      exact (Prod.mk.inj heq).1 ▸ hu
  constructor
  · rw [hlen, hlimit, h.length]
  · intro F hF
    obtain ⟨i, hi, slot, hslot, hfd, hev⟩ := h.slot F ((hreg F).mp hF)
    have hs := hslots i
    rw [hslot] at hs
    obtain ⟨slot', hslot', heq⟩ := Option.map_eq_some_iff.mp hs
    obtain ⟨hfd', hev'⟩ := Prod.mk.inj heq
    obtain ⟨-, h₁, h₂, h₃⟩ := hfde F
    exact ⟨i, h₂.trans hi, slot', hslot', by rw [hfd', hfd, h₁], by rw [hev', hev, h₃]⟩
  · intro i hi
    obtain ⟨F, hF, hidx⟩ := h.owner i ((hused i).mp hi)
    exact ⟨F, (hreg F).mpr hF, (hfde F).2.2.1.trans hidx⟩
  · intro F G hF hG heq
    rw [(hfde F).1] at hF
    rw [(hfde G).1] at hG
    rw [(hfde F).2.1, (hfde G).2.1] at heq
    exact h.numbers F G hF hG heq
  · intro F hF
    rw [(hfde F).1] at hF
    rw [hcleared F hF, h.cleared F hF]
  · intro F
    rw [hhash, (hfde F).1]
    exact h.hash F
  · exact hhash ▸ h.nodup
  · rw [hmax]
    exact h.top.congr hused

/-- A slot of one descriptor changes. -/
theorem modify (h : Table w) {f : FdeT} {i : ℕ} {g : PollFd → PollFd}
    (hopen : (w.fde F).isOpen = true)
    (hapart : ∀ G, G ≠ F → (w.fde G).Registered → (w.fde G).commIndex ≠ i)
    (hown : (w.fde F).Registered → (w.fde F).commIndex = i)
    (hfde : w'.fde = Function.update w.fde F f) (hfopen : f.isOpen = true)
    (hfd : f.fd = (w.fde F).fd) (hslots : w'.pollfds = w.pollfds.modify i g)
    (hslot : f.evcache = 0 ∧ (∀ s, (g s).used = false) ∨
      f.evcache ≠ 0 ∧ f.commIndex = i ∧ i < w.pollfds.length ∧
        ∀ s, w.pollfds[i]? = some s → (g s).fd = f.fd ∧ (g s).events = f.evcache)
    (hlimit : w'.hardFdlimit = w.hardFdlimit) (hhash : w'.fdHash = w.fdHash)
    (htop : IsTop PollFd.used w'.pollfds w'.pollmax) : Table w' := by
  have hF : w'.fde F = f := by rw [hfde, Function.update_self]
  have hG : ∀ G, G ≠ F → w'.fde G = w.fde G := fun G hne => by
    rw [hfde, Function.update_of_ne hne]
  have hsame : ∀ j, j ≠ i → w'.pollfds[j]? = w.pollfds[j]? := fun j hne => by
    rw [hslots, List.getElem?_modify_ne g _ (Ne.symm hne)]
  constructor
  · rw [hslots, List.length_modify, hlimit, h.length]
  · intro G hreg
    by_cases hne : G = F
    · subst hne
      rw [hF] at hreg ⊢
      rcases hslot with ⟨h0, -⟩ | ⟨-, hidx, hlt, hval⟩
      · exact absurd h0 hreg.2
      · refine ⟨i, hidx, g w.pollfds[i], ?_, hval _ (List.getElem?_eq_getElem hlt)⟩
        rw [hslots, List.getElem?_modify_eq, List.getElem?_eq_getElem hlt]
        rfl
    · rw [hG G hne] at hreg ⊢
      obtain ⟨j, hj, hs⟩ := h.slot G hreg
      have hji : j ≠ i := fun heq => hapart G hne hreg (heq ▸ hj)
      rw [← hsame j hji] at hs
      exact ⟨j, hj, hs⟩
  · intro j hj
    by_cases hji : j = i
    · subst hji
      rcases hslot with ⟨-, hfree⟩ | ⟨h0, hidx, -⟩
      · rw [hslots, usedAt_modify_free hfree] at hj
        exact absurd rfl hj.2
      · exact ⟨F, by rw [hF]; exact ⟨hfopen, h0⟩, by rw [hF, hidx]⟩
    · rw [hslots, usedAt_modify_of_ne hji] at hj
      obtain ⟨G, hreg, hidx⟩ := h.owner j hj
      have hne : G ≠ F := by
        rintro rfl
        have := hown hreg
        omega
      exact ⟨G, by rwa [hG G hne], by rwa [hG G hne]⟩
  · intro G H hGo hHo heq
    have hopen' : ∀ G, (w'.fde G).isOpen = true → (w.fde G).isOpen = true ∧
        (w'.fde G).fd = (w.fde G).fd := by
      intro G hGo
      by_cases hne : G = F
      · subst hne
        exact ⟨hopen, by rw [hF, hfd]⟩
      · rw [hG G hne] at hGo ⊢
        exact ⟨hGo, rfl⟩
    obtain ⟨hGo, hGfd⟩ := hopen' G hGo
    obtain ⟨hHo, hHfd⟩ := hopen' H hHo
    exact h.numbers G H hGo hHo (by omega)
  · intro G hGo
    have hne : G ≠ F := by
      rintro rfl
      rw [hF, hfopen] at hGo
      cases hGo
    rw [hG G hne] at hGo ⊢
    exact h.cleared G hGo
  · intro G
    rw [hhash, h.hash]
    by_cases hne : G = F
    · subst hne
      rw [hF, hfopen, hopen]
    · rw [hG G hne]
  · exact hhash ▸ h.nodup
  · exact htop

end Table

/-- The pass that looks at the slots from `b` on does not get to this descriptor any more. -/
def Past (w : PollWorld) (b : ℕ) (F : FdePtr) : Prop :=
  (w.fde F).Registered → (w.fde F).commIndex < b ∨
    ∃ slot, w.pollfds[(w.fde F).commIndex.toNat]? = some slot ∧ slot.revents = 0

/-- Every slot is in use. -/
def Full (w : PollWorld) : Prop := ∀ slot ∈ w.pollfds, slot.fd ≠ -1

theorem pollFindslot_eq_none_iff : w.pollFindslot = none ↔ Full w := by
  rw [pollFindslot, List.findIdx?_eq_none_iff]
  exact forall₂_congr fun slot _ => by rw [beq_eq_false_iff_ne]

theorem pollFindslot_some {i : ℕ} (h : w.pollFindslot = some i) :
    i < w.pollfds.length ∧ ¬ UsedAt PollFd.used w.pollfds i := by
  obtain ⟨hi, hfree, -⟩ := List.findIdx?_eq_some_iff_getElem.mp h
  refine ⟨hi, ?_⟩
  rintro ⟨slot, hslot, hu⟩
  rw [List.getElem?_eq_getElem hi] at hslot
  rw [Option.some.inj hslot, beq_iff_eq] at hfree
  exact PollFd.used_iff.mp hu hfree

theorem modifySlot_eq {i : ℕ} (hi : i < w.pollfds.length) (f : PollFd → PollFd) :
    w.modifySlot i f = { w with pollfds := w.pollfds.modify i f } :=
  if_pos ⟨Int.natCast_nonneg i, by rwa [Int.toNat_natCast]⟩

theorem giveSlot_eq {i : ℕ} (hi : i < w.pollfds.length) :
    w.giveSlot i = { w with
      pollfds := w.pollfds.modify i fun slot => { slot with fd := -1, revents := 0 }
      pollmax := if w.pollmax = i then lower PollFd.used
        (w.pollfds.modify i fun slot => { slot with fd := -1, revents := 0 })
        (w.pollmax + 1).toNat else w.pollmax } := by
  rw [giveSlot, modifySlot_eq hi]
  dsimp only
  split <;> rfl

theorem takeSlot_new {i : ℕ} {newEvents : ℕ} (h0 : (w.fde F).evcache = 0)
    (hi : w.pollFindslot = some i) : w.takeSlot F newEvents =
      { w.put F { w.fde F with commIndex := i } with
        pollmax := if (i : ℤ) > w.pollmax then i else w.pollmax
        pollfds := w.pollfds.modify i fun _ => ⟨(w.fde F).fd, newEvents, 0⟩ } := by
  rw [takeSlot]
  dsimp only
  rw [if_pos h0, hi]
  refine (modifySlot_eq ?_ _).trans rfl
  exact (pollFindslot_some hi).1

theorem takeSlot_old {i : ℕ} {newEvents : ℕ} (h0 : (w.fde F).evcache ≠ 0)
    (hidx : (w.fde F).commIndex = i) (hi : i < w.pollfds.length) : w.takeSlot F newEvents =
      { w with pollfds :=
          w.pollfds.modify i fun slot => { slot with events := newEvents, revents := 0 } } := by
  rw [takeSlot]
  dsimp only
  rw [if_neg h0, hidx, modifySlot_eq hi]

/-- What `comm_setselect` does when it does not fail. -/
structure Reset (w w' : PollWorld) (F : FdePtr) (ev : ℕ) : Prop where
  table : Table w'
  fault : w'.fault = w.fault
  same : ∀ G, G ≠ F → w'.fde G = w.fde G
  isOpen : (w'.fde F).isOpen = true
  fd : (w'.fde F).fd = (w.fde F).fd
  events : (w'.fde F).newEvents = ev
  evcache : (w'.fde F).evcache = ev
  pass : w'.pass = w.pass
  gen : w'.gen = w.gen
  trace : w'.trace = w.trace
  past : ∀ b G, Past w b G → Past w' b G

/-- The slot of one descriptor changed, and is not to be looked at. -/
theorem reset_of_modify {f : FdeT} {i : ℕ} {g : PollFd → PollFd} (h : Table w)
    (hopen : (w.fde F).isOpen = true)
    (hapart : ∀ G, G ≠ F → (w.fde G).Registered → (w.fde G).commIndex ≠ i)
    (hown : (w.fde F).Registered → (w.fde F).commIndex = i) (hi : i < w.pollfds.length)
    (hfde : w'.fde = Function.update w.fde F f)
    (hf : f.isOpen = true ∧ f.fd = (w.fde F).fd ∧ f.evcache = f.newEvents)
    (hslots : w'.pollfds = w.pollfds.modify i g) (hg : ∀ s, (g s).revents = 0)
    (hslot : f.evcache = 0 ∧ (∀ s, (g s).used = false) ∨
      f.evcache ≠ 0 ∧ f.commIndex = i ∧
        ∀ s, w.pollfds[i]? = some s → (g s).fd = f.fd ∧ (g s).events = f.evcache)
    (htop : IsTop PollFd.used w'.pollfds w'.pollmax)
    (hrest : w'.hardFdlimit = w.hardFdlimit ∧ w'.fdHash = w.fdHash ∧ w'.fault = w.fault ∧
      w'.pass = w.pass ∧ w'.gen = w.gen ∧ w'.trace = w.trace) : Reset w w' F f.newEvents := by
  obtain ⟨hlimit, hhash, hfault, hpass, hgen, htrace⟩ := hrest
  have hF : w'.fde F = f := by rw [hfde, Function.update_self]
  have hG : ∀ G, G ≠ F → w'.fde G = w.fde G := fun G hne => by
    rw [hfde, Function.update_of_ne hne]
  have htable := h.modify hopen hapart hown hfde hf.1 hf.2.1 hslots
    (hslot.imp_right fun ⟨h0, hidx, hval⟩ => ⟨h0, hidx, hi, hval⟩) hlimit hhash htop
  refine ⟨htable, hfault, hG, hF ▸ hf.1, hF ▸ hf.2.1, hF ▸ rfl, hF ▸ hf.2.2, hpass, hgen, htrace,
    fun b G hpast hreg => ?_⟩
  by_cases hne : G = F
  · subst hne
    rw [hF] at hreg ⊢
    have hidx : f.commIndex = i := by
      rcases hslot with ⟨h0, -⟩ | ⟨-, hidx, -⟩
      · exact absurd h0 hreg.2
      · exact hidx
    refine .inr ⟨g w.pollfds[i], ?_, hg _⟩
    rw [hidx, Int.toNat_natCast, hslots, List.getElem?_modify_eq, List.getElem?_eq_getElem hi]
    rfl
  · rw [hG G hne] at hreg ⊢
    refine (hpast hreg).imp_right ?_
    rintro ⟨slot, hslot, h0⟩
    obtain ⟨j, hj, -⟩ := h.slot G hreg
    refine ⟨slot, ?_, h0⟩
    have hji : i ≠ (w.fde G).commIndex.toNat := by
      have := hapart G hne hreg
      omega
    rw [hslots, List.getElem?_modify_ne g _ hji, hslot]

theorem setHandlers_isOpen (f : FdeT) (rd wr : Bool) (handler : Option PF) :
    (f.setHandlers rd wr handler).isOpen = f.isOpen ∧ (f.setHandlers rd wr handler).fd = f.fd ∧
      (f.setHandlers rd wr handler).commIndex = f.commIndex ∧
      (f.setHandlers rd wr handler).evcache = f.evcache := by
  cases rd <;> cases wr <;> exact ⟨rfl, rfl, rfl, rfl⟩

theorem put_fde_self (w : PollWorld) (F : FdePtr) (f : FdeT) : (w.put F f).fde F = f :=
  Function.update_self _ _ _

theorem update_put (w : PollWorld) (F : FdePtr) (f : FdeT) (c : ℕ) :
    Function.update (Function.update w.fde F f) F
        { Function.update w.fde F f F with evcache := c } =
      Function.update w.fde F { f with evcache := c } := by
  rw [Function.update_idem, Function.update_self]

theorem Table.index_ne (h : Table w) {i : ℕ} (hF : (w.fde F).Registered)
    (hi : (w.fde F).commIndex = i) : ∀ G, G ≠ F → (w.fde G).Registered → (w.fde G).commIndex ≠ i :=
  fun _ hne hG heq => hne (h.index_inj hG hF (heq.trans hi.symm))

theorem Table.index_ne_of_free (h : Table w) {i : ℕ} (hi : ¬ UsedAt PollFd.used w.pollfds i) :
    ∀ G, (w.fde G).Registered → (w.fde G).commIndex ≠ i := by
  intro G hG heq
  obtain ⟨slot, hslot, hfd, -⟩ := h.usedAt hG heq
  exact hi ⟨slot, hslot, PollFd.used_iff.mpr (by omega)⟩

/-- Only handlers change. -/
theorem reset_put (h : Table w) (hopen : (w.fde F).isOpen = true) {f : FdeT}
    (hf : f.isOpen = true ∧ f.fd = (w.fde F).fd ∧ f.commIndex = (w.fde F).commIndex ∧
      f.evcache = (w.fde F).evcache) (hsame : f.newEvents = f.evcache) :
    Reset w (w.put F f) F f.newEvents := by
  have hF := put_fde_self w F f
  have hG : ∀ G, G ≠ F → (w.put F f).fde G = w.fde G := fun G hne => Function.update_of_ne hne _ _
  have hall : ∀ G, ((w.put F f).fde G).isOpen = (w.fde G).isOpen ∧
      ((w.put F f).fde G).fd = (w.fde G).fd ∧
      ((w.put F f).fde G).commIndex = (w.fde G).commIndex ∧
      ((w.put F f).fde G).evcache = (w.fde G).evcache := by
    intro G
    by_cases hne : G = F
    · subst hne
      rw [hF, hopen]
      exact hf
    · rw [hG G hne]
      exact ⟨rfl, rfl, rfl, rfl⟩
  refine ⟨h.congr hall (fun G hGo => hG G ?_) (fun _ => rfl) rfl rfl rfl rfl, rfl, hG,
    by rw [hF]; exact hf.1, by rw [hF]; exact hf.2.1, by rw [hF], by rw [hF]; exact hsame.symm,
    rfl, rfl, rfl, fun b G hpast => ?_⟩
  · rintro rfl
    rw [hopen] at hGo
    cases hGo
  · rw [Past, FdeT.Registered, (hall G).1, (hall G).2.2.1, (hall G).2.2.2]
    exact hpast

/-- `comm_setselect` keeps the table, or there is no slot left. -/
theorem commSetselect_spec (h : Table w) (hopen : (w.fde F).isOpen = true) (rd wr : Bool)
    (handler : Option PF) :
    ((w.commSetselect F rd wr handler).fault = true ∧ Full (w.commSetselect F rd wr handler)) ∨
      Reset w (w.commSetselect F rd wr handler) F
        ((w.fde F).setHandlers rd wr handler).newEvents := by
  obtain ⟨hfopen, hffd, hfidx, hfcache⟩ := setHandlers_isOpen (w.fde F) rd wr handler
  unfold commSetselect
  dsimp only
  generalize (w.fde F).setHandlers rd wr handler = f at *
  rw [hopen] at hfopen
  split
  · rename_i hsame
    exact .inr (reset_put h hopen ⟨hfopen, hffd, hfidx, hfcache⟩ hsame)
  · rename_i hchange
    by_cases h0 : (w.fde F).evcache = 0
    · have hne : f.newEvents ≠ 0 := fun hz => hchange (hz.trans (hfcache.trans h0).symm)
      rw [if_neg hne]
      rcases hfind : (w.put F f).pollFindslot with _ | i
      · refine .inl ⟨?_, ?_⟩
        · rw [takeSlot]
          dsimp only
          rw [if_pos (by rw [put_fde_self, hfcache, h0]), hfind]
          rfl
        · rw [takeSlot]
          dsimp only
          rw [if_pos (by rw [put_fde_self, hfcache, h0]), hfind]
          exact pollFindslot_eq_none_iff.mp hfind
      · obtain ⟨hi, hfree⟩ := pollFindslot_some hfind
        rw [takeSlot_new (by rw [put_fde_self, hfcache, h0]) hfind]
        refine .inr (reset_of_modify (f := { f with commIndex := i, evcache := f.newEvents }) h
          hopen (fun G _ => h.index_ne_of_free hfree G) (fun hreg => absurd h0 hreg.2) hi ?_
          ⟨hfopen, hffd, rfl⟩ rfl (fun _ => rfl) (.inr ⟨hne, rfl, fun s _ => ⟨?_, rfl⟩⟩) ?_
          ⟨rfl, rfl, rfl, rfl, rfl, rfl⟩)
        · simp only [put, Function.update_idem, Function.update_self]
        · rw [put_fde_self]
        · refine h.top.take fun j => usedAt_modify_take hi (fun s => ?_) j
          rw [PollFd.used_iff]
          dsimp only
          omega
    · obtain ⟨i, hidx, slot, hslot, hsfd, -⟩ := h.slot F ⟨hopen, h0⟩
      have hi : i < w.pollfds.length := (List.getElem?_eq_some_iff.mp hslot).1
      have hapart := h.index_ne ⟨hopen, h0⟩ hidx
      right
      split
      · rename_i hzero
        rw [hfidx, hidx, giveSlot_eq (show i < (w.put F f).pollfds.length from hi)]
        refine reset_of_modify (f := { f with evcache := f.newEvents }) h hopen hapart
          (fun _ => hidx) hi (update_put w F f _) ⟨hfopen, hffd, rfl⟩ rfl (fun _ => rfl)
          (.inl ⟨hzero, fun _ => rfl⟩) ?_ ⟨rfl, rfl, rfl, rfl, rfl, rfl⟩
        exact h.top.free (usedAt_modify_free fun _ => rfl)
      · rename_i hne
        have hcache : ((w.put F f).fde F).evcache ≠ 0 := by rw [put_fde_self, hfcache]; exact h0
        have hindex : ((w.put F f).fde F).commIndex = i := by rw [put_fde_self, hfidx, hidx]
        rw [takeSlot_old hcache hindex (show i < (w.put F f).pollfds.length from hi)]
        refine reset_of_modify (f := { f with evcache := f.newEvents }) h hopen hapart
          (fun _ => hidx) hi (update_put w F f _) ⟨hfopen, hffd, rfl⟩ rfl (fun _ => rfl)
          (.inr ⟨hne, hfidx.trans hidx, fun s hs => ⟨?_, rfl⟩⟩) ?_ ⟨rfl, rfl, rfl, rfl, rfl, rfl⟩
        · have : s = slot := Option.some.inj (hs.symm.trans hslot)
          rw [this, hsfd]
          exact congrArg _ hffd.symm
        · exact h.top.congr (usedAt_modify_same fun _ => rfl)

/-- A later call is of a handler that was not called yet, of a descriptor that is not closed. -/
def Admits (earlier later : PollEntry) : Prop :=
  ∀ F gen kind, later = .called F gen kind →
    earlier ≠ .called F gen kind ∧ earlier ≠ .closed F gen

/-- What happened in the pass so far, where the slots from `b` on are still to be looked at. -/
structure Log (w : PollWorld) (b : ℕ) : Prop where
  admits : w.trace.Pairwise Admits
  called : ∀ F gen kind, .called F gen kind ∈ w.trace → gen ≤ w.gen F
  closed : ∀ F gen, .closed F gen ∈ w.trace →
    gen ≤ w.gen F ∧ (gen = w.gen F → (w.fde F).isOpen = false)
  past : ∀ F kind, .called F (w.gen F) kind ∈ w.trace → Past w b F

/-- Before a handler is called, or after it returned. -/
structure Scans (w : PollWorld) (b : ℕ) : Prop where
  table : Table w
  sync : ∀ F, (w.fde F).evcache = (w.fde F).newEvents
  log : Log w b

def InPass (w : PollWorld) (F : FdePtr) : Prop := ∃ p ∈ w.pass, p.F = F

/-- Whatever handler runs, or none. -/
structure Sound (w : PollWorld) : Prop where
  table : Table w
  sync : ∀ F, ¬ InPass w F → (w.fde F).evcache = (w.fde F).newEvents
  log : ∀ p ∈ w.pass, Log w (p.ci + 1)
  idle : w.pass = none → w.trace.Pairwise Admits
  past : ∀ p ∈ w.pass, Past w (p.ci + 1) p.F
  reading : ∀ p ∈ w.pass, p.kind = .read → .called p.F (w.gen p.F) .write ∉ w.trace

theorem Log.mono {b c : ℕ} (h : Log w b) (hbc : b ≤ c) : Log w c where
  admits := h.admits
  called := h.called
  closed := h.closed
  past F kind hmem hreg := (h.past F kind hmem hreg).imp_left fun hlt => by omega

theorem Log.reset {b ev : ℕ} (h : Log w b) (hr : Reset w w' F ev)
    (hopen : (w.fde F).isOpen = true) : Log w' b := by
  constructor
  · rw [hr.trace]
    exact h.admits
  · rw [hr.trace, hr.gen]
    exact h.called
  · rw [hr.trace, hr.gen]
    intro G gen hmem
    obtain ⟨hle, heq⟩ := h.closed G gen hmem
    refine ⟨hle, fun hgen => ?_⟩
    have hclosed := heq hgen
    have hne : G ≠ F := by
      rintro rfl
      rw [hopen] at hclosed
      cases hclosed
    rw [hr.same G hne]
    exact hclosed
  · rw [hr.trace, hr.gen]
    exact fun G kind hmem => hr.past b G (h.past G kind hmem)

theorem Sound.reset {ev : ℕ} (h : Sound w) (hr : Reset w w' F ev)
    (hopen : (w.fde F).isOpen = true) : Sound w' := by
  constructor
  · exact hr.table
  · intro G hG
    by_cases hne : G = F
    · rw [hne, hr.evcache, hr.events]
    · rw [hr.same G hne]
      refine h.sync G ?_
      rwa [InPass, hr.pass] at hG
  · rw [hr.pass]
    exact fun p hp => (h.log p hp).reset hr hopen
  · rw [hr.pass, hr.trace]
    exact h.idle
  · rw [hr.pass]
    exact fun p hp => hr.past _ _ (h.past p hp)
  · rw [hr.pass, hr.trace, hr.gen]
    exact h.reading

theorem Scans.of_reset {b ev : ℕ} (hlog : Log w b)
    (hsync : ∀ G, G ≠ F → (w.fde G).evcache = (w.fde G).newEvents) (hr : Reset w w' F ev)
    (hopen : (w.fde F).isOpen = true) : Scans w' b := by
  refine ⟨hr.table, fun G => ?_, hlog.reset hr hopen⟩
  by_cases hne : G = F
  · rw [hne, hr.evcache, hr.events]
  · rw [hr.same G hne]
    exact hsync G hne

/-- A descriptor without a slot comes or goes. -/
theorem Table.replace (h : Table w) {f : FdeT} (hF : ¬ (w.fde F).Registered)
    (hf : ¬ f.Registered) (hfde : w'.fde = Function.update w.fde F f)
    (hnumber : f.isOpen = true → ∀ G, (w.fde G).isOpen = true → (w.fde G).fd ≠ f.fd)
    (hcleared : f.isOpen = false → f = .cleared)
    (hhash : ∀ G, G ∈ w'.fdHash ↔ (w'.fde G).isOpen = true) (hnodup : w'.fdHash.Nodup)
    (hslots : w'.pollfds = w.pollfds) (hmax : w'.pollmax = w.pollmax)
    (hlimit : w'.hardFdlimit = w.hardFdlimit) : Table w' := by
  have hself : w'.fde F = f := by rw [hfde, Function.update_self]
  have hG : ∀ G, G ≠ F → w'.fde G = w.fde G := fun G hne => by
    rw [hfde, Function.update_of_ne hne]
  have hopen : ∀ G H, (w'.fde G).isOpen = true → (w'.fde H).isOpen = true →
      (w'.fde G).fd = (w'.fde H).fd → G ≠ F → G = H := by
    intro G H hGo hHo heq hne
    rw [hG G hne] at hGo heq
    by_cases hH : H = F
    · subst hH
      rw [hself] at hHo heq
      exact absurd heq (hnumber hHo G hGo)
    · rw [hG H hH] at hHo heq
      exact h.numbers G H hGo hHo heq
  constructor
  · rw [hslots, hlimit, h.length]
  · intro G hreg
    have hne : G ≠ F := by
      rintro rfl
      exact hf (hself ▸ hreg)
    rw [hG G hne] at hreg ⊢
    rw [hslots]
    exact h.slot G hreg
  · intro i hi
    rw [hslots] at hi
    obtain ⟨G, hreg, hidx⟩ := h.owner i hi
    have hne : G ≠ F := by
      rintro rfl
      exact hF hreg
    exact ⟨G, by rwa [hG G hne], by rwa [hG G hne]⟩
  · intro G H hGo hHo heq
    by_cases hne : G = F
    · by_cases hH : H = F
      · rw [hne, hH]
      · exact (hopen H G hHo hGo heq.symm hH).symm
    · exact hopen G H hGo hHo heq hne
  · intro G hGo
    by_cases hne : G = F
    · subst hne
      rw [hself] at hGo ⊢
      exact hcleared hGo
    · rw [hG G hne] at hGo ⊢
      exact h.cleared G hGo
  · exact hhash
  · exact hnodup
  · rw [hslots, hmax]
    exact h.top

/-- The other descriptors, and the slots, are as they were. -/
theorem Past.congr {b : ℕ} (h : Past w b G) (hfde : w'.fde G = w.fde G)
    (hslots : w'.pollfds = w.pollfds) : Past w' b G := by
  rw [Past, hfde, hslots]
  exact h

theorem Past.of_free {b : ℕ} (h : ¬ (w.fde G).Registered) : Past w b G := fun hreg => absurd hreg h

theorem evcache_eq_zero (h : Table w) (hopen : (w.fde F).isOpen = false) :
    (w.fde F).evcache = 0 := by
  rw [h.cleared F hopen]
  rfl

theorem Sound.fdOpen (h : Sound w) {fd : ℕ} (isSocket : Bool) (hopen : (w.fde F).isOpen = false)
    (hfd : ∀ G ∈ w.fdHash, (w.fde G).fd ≠ fd) : Sound (w.fdOpen F fd isSocket) := by
  have h0 := evcache_eq_zero h.table hopen
  have hself : (w.fdOpen F fd isSocket).fde F =
      { w.fde F with fd := fd, commIndex := -1, isOpen := true, isSocket := isSocket } :=
    put_fde_self _ _ _
  have hG : ∀ G, G ≠ F → (w.fdOpen F fd isSocket).fde G = w.fde G := fun G hne =>
    Function.update_of_ne hne _ _
  have hgen : ∀ G, w.gen G ≤ (w.fdOpen F fd isSocket).gen G ∧
      (G ≠ F → (w.fdOpen F fd isSocket).gen G = w.gen G) := by
    intro G
    by_cases hne : G = F
    · subst hne
      refine ⟨?_, fun hne => absurd rfl hne⟩
      exact (Nat.le_succ _).trans_eq (Function.update_self (f := w.gen) _ _).symm
    · have heq : (w.fdOpen F fd isSocket).gen G = w.gen G := Function.update_of_ne hne _ _
      exact ⟨heq.ge, fun _ => heq⟩
  have hnew : (w.fdOpen F fd isSocket).gen F = w.gen F + 1 := Function.update_self _ _ _
  have hfree : ¬ ((w.fdOpen F fd isSocket).fde F).Registered := by
    rw [hself]
    exact fun hreg => hreg.2 h0
  constructor
  · refine h.table.replace (fun hreg => hreg.2 h0) (hself ▸ hfree) rfl (fun _ G hGo => ?_)
      (fun hf => by cases hf) (fun G => ?_) ?_ rfl rfl rfl
    · exact hfd G ((h.table.hash G).mpr hGo)
    · by_cases hne : G = F
      · rw [hne, hself]
        exact iff_of_true List.mem_cons_self rfl
      · rw [hG G hne, ← h.table.hash]
        exact List.mem_cons.trans (or_iff_right hne)
    · refine List.nodup_cons.mpr ⟨fun hmem => ?_, h.table.nodup⟩
      rw [(h.table.hash F).mp hmem] at hopen
      cases hopen
  · intro G hGp
    by_cases hne : G = F
    · rw [hne, hself]
      have hcl := h.table.cleared F hopen
      rw [hcl]
      exact (FdeT.newEvents_of_none rfl rfl).symm
    · rw [hG G hne]
      exact h.sync G hGp
  · intro p hp
    have hlog := h.log p hp
    constructor
    · exact hlog.admits
    · exact fun G gen kind hmem => (hlog.called G gen kind hmem).trans (hgen G).1
    · intro G gen hmem
      obtain ⟨hle, heq⟩ := hlog.closed G gen hmem
      refine ⟨hle.trans (hgen G).1, fun hg => ?_⟩
      by_cases hne : G = F
      · rw [hne] at hg hle
        omega
      · rw [hG G hne]
        exact heq (hg.trans ((hgen G).2 hne))
    · intro G kind hmem
      by_cases hne : G = F
      · exact .of_free (hne ▸ hfree)
      · rw [(hgen G).2 hne] at hmem
        exact (hlog.past G kind hmem).congr (hG G hne) rfl
  · exact h.idle
  · intro p hp
    by_cases hne : p.F = F
    · exact .of_free (hne ▸ hfree)
    · exact (h.past p hp).congr (hG _ hne) rfl
  · intro p hp hkind hmem
    by_cases hne : p.F = F
    · have hle := (h.log p hp).called _ _ _ hmem
      rw [hne] at hle
      omega
    · rw [(hgen _).2 hne] at hmem
      exact h.reading p hp hkind hmem

/-- The end of `fd_close`, for a descriptor without a slot. -/
theorem Sound.clear (h : Sound w) (h0 : (w.fde F).evcache = 0) : Sound { w.put F .cleared with
      fdHash := w.fdHash.erase F
      trace := w.trace ++ [.closed F (w.gen F)] } := by
  set w' : PollWorld := { w.put F .cleared with
    fdHash := w.fdHash.erase F
    trace := w.trace ++ [.closed F (w.gen F)] } with hw'
  have hself : w'.fde F = .cleared := put_fde_self _ _ _
  have hG : ∀ G, G ≠ F → w'.fde G = w.fde G := fun G hne => Function.update_of_ne hne _ _
  have hfree : ¬ (w'.fde F).Registered := by
    rw [hself]
    exact fun hreg => hreg.2 rfl
  have hadmits : w.trace.Pairwise Admits → w'.trace.Pairwise Admits := by
    intro hadm
    refine List.pairwise_append.mpr ⟨hadm, List.pairwise_singleton _ _, fun x _ y hy => ?_⟩
    rw [List.mem_singleton.mp hy]
    exact fun _ _ _ heq => by cases heq
  have hcalled : ∀ {G gen kind}, .called G gen kind ∈ w'.trace →
      .called G gen kind ∈ w.trace := by
    intro G gen kind hmem
    rcases List.mem_append.mp hmem with hmem | hmem
    · exact hmem
    · cases List.mem_singleton.mp hmem
  constructor
  · refine h.table.replace (fun hreg => hreg.2 h0) (hself ▸ hfree) rfl (fun hf => by cases hf)
      (fun _ => rfl) (fun G => ?_) (h.table.nodup.erase F) rfl rfl rfl
    rw [h.table.nodup.mem_erase_iff, h.table.hash]
    by_cases hne : G = F
    · rw [hne, hself]
      exact iff_of_false (fun hh => hh.1 rfl) (fun hh => by cases hh)
    · rw [hG G hne]
      exact and_iff_right hne
  · intro G hGp
    by_cases hne : G = F
    · rw [hne, hself]
      exact (FdeT.newEvents_of_none rfl rfl).symm
    · rw [hG G hne]
      exact h.sync G hGp
  · intro p hp
    have hlog := h.log p hp
    refine ⟨hadmits hlog.admits, fun G gen kind hmem => hlog.called G gen kind (hcalled hmem),
      fun G gen hmem => ?_, fun G kind hmem => ?_⟩
    · rcases List.mem_append.mp hmem with hmem | hmem
      · obtain ⟨hle, heq⟩ := hlog.closed G gen hmem
        refine ⟨hle, fun hg => ?_⟩
        by_cases hne : G = F
        · rw [hne, hself]
          rfl
        · rw [hG G hne]
          exact heq hg
      · cases List.mem_singleton.mp hmem
        exact ⟨le_rfl, fun _ => by rw [hself]; rfl⟩
    · by_cases hne : G = F
      · exact .of_free (hne ▸ hfree)
      · exact (hlog.past G kind (hcalled hmem)).congr (hG G hne) rfl
  · exact fun hp => hadmits (h.idle hp)
  · intro p hp
    by_cases hne : p.F = F
    · exact .of_free (hne ▸ hfree)
    · exact (h.past p hp).congr (hG _ hne) rfl
  · exact fun p hp hkind hmem => h.reading p hp hkind (hcalled hmem)

theorem setHandlers_none (f : FdeT) : (f.setHandlers true true none).newEvents = 0 :=
  FdeT.newEvents_of_none rfl rfl

/-- A socket without handlers gives its slot back, and needs none. -/
theorem reset_none (h : Table w) (hfault : w.fault = false) (hopen : (w.fde F).isOpen = true) :
    Reset w (w.commSetselect F true true none) F 0 := by
  have hspec := commSetselect_spec h hopen true true none
  rw [setHandlers_none] at hspec
  refine hspec.resolve_left fun hfull => ?_
  have hnofault : (w.commSetselect F true true none).fault = false := by
    unfold commSetselect
    dsimp only
    rw [setHandlers_none]
    split
    · exact hfault
    · rename_i hne
      have hcache := (setHandlers_isOpen (w.fde F) true true none).2.2.2
      have hreg : (w.fde F).Registered := ⟨hopen, fun h0 => hne (hcache.trans h0).symm⟩
      obtain ⟨i, hidx, slot, hslot, -⟩ := h.slot F hreg
      have hi : i < w.pollfds.length := (List.getElem?_eq_some_iff.mp hslot).1
      rw [if_pos rfl, (setHandlers_isOpen (w.fde F) true true none).2.2.1, hidx,
        giveSlot_eq (show i < (w.put F _).pollfds.length from hi)]
      exact hfault
  rw [hnofault] at hfull
  cases hfull.1

theorem Sound.fdClose (h : Sound w) (hfault : w.fault = false) (hopen : (w.fde F).isOpen = true)
    (hclean : (w.fde F).evcache ≠ 0 → (w.fde F).isSocket = true) :
    Sound (w.fdClose F) ∧ (w.fdClose F).fault = false := by
  unfold PollWorld.fdClose
  split
  · have hr := reset_none h.table hfault hopen
    have hsound := (h.reset hr hopen).clear hr.evcache
    exact ⟨hsound, hr.fault.trans hfault⟩
  · rename_i hsock
    have h0 : (w.fde F).evcache = 0 := by
      by_contra hne
      exact hsock (hclean hne)
    exact ⟨h.clear h0, hfault⟩

theorem getElem?_changing {limit : ℕ} {memory : ℕ → PollFd} (i : ℕ) :
    ((List.range limit).map fun i => (w.pollfds[i]?).getD (memory i))[i]? =
      if i < limit then some ((w.pollfds[i]?).getD (memory i)) else none := by
  rw [List.getElem?_map]
  split
  · rename_i hi
    rw [List.getElem?_range hi]
    rfl
  · rename_i hi
    rw [List.getElem?_eq_none (by simpa using hi)]
    rfl

/-- New slots are free, and no slot in use is cut off. -/
structure FitLimit (w : PollWorld) (limit : ℕ) (memory : ℕ → PollFd) : Prop where
  fresh : ∀ i, w.hardFdlimit ≤ i → i < limit → (memory i).fd = -1
  cut : ∀ i, limit ≤ i → ¬ UsedAt PollFd.used w.pollfds i

theorem Table.changing (h : Table w) {limit : ℕ} {memory : ℕ → PollFd}
    (hfit : FitLimit w limit memory) : Table (w.changingFdlimit limit memory) := by
  unfold changingFdlimit
  split
  · have hused : ∀ i, UsedAt PollFd.used
        ((List.range limit).map fun i => (w.pollfds[i]?).getD (memory i)) i ↔
        UsedAt PollFd.used w.pollfds i := by
      intro i
      rw [UsedAt, getElem?_changing]
      split
      · rename_i hi
        by_cases hlt : i < w.pollfds.length
        · rw [List.getElem?_eq_getElem hlt, UsedAt, List.getElem?_eq_getElem hlt]
          rfl
        · rw [List.getElem?_eq_none (Nat.le_of_not_lt hlt)]
          refine iff_of_false ?_ fun hu => hlt hu.lt_length
          rintro ⟨x, hx, hu⟩
          rw [← Option.some.inj hx] at hu
          exact PollFd.used_iff.mp hu (hfit.fresh i (by rw [← h.length]; omega) hi)
      · rename_i hi
        refine iff_of_false ?_ (hfit.cut i (Nat.le_of_not_lt hi))
        rintro ⟨x, hx, -⟩
        cases hx
    constructor
    · rw [List.length_map, List.length_range]
    · intro F hF
      obtain ⟨i, hi, slot, hslot, hfd, hev⟩ := h.slot F hF
      have hu : UsedAt PollFd.used w.pollfds i :=
        ⟨slot, hslot, PollFd.used_iff.mpr (by omega)⟩
      have hlt : i < limit := by
        by_contra hge
        exact hfit.cut i (Nat.le_of_not_lt hge) hu
      refine ⟨i, hi, slot, ?_, hfd, hev⟩
      rw [getElem?_changing, if_pos hlt, hslot]
      rfl
    · exact fun i hi => h.owner i ((hused i).mp hi)
    · exact h.numbers
    · exact h.cleared
    · exact h.hash
    · exact h.nodup
    · exact h.top.congr hused
  · exact h

theorem Past.changing {b limit : ℕ} {memory : ℕ → PollFd} (hp : Past w b F) (h : Table w)
    (hfit : FitLimit w limit memory) : Past (w.changingFdlimit limit memory) b F := by
  unfold changingFdlimit
  split
  · intro hreg
    refine (hp hreg).imp_right ?_
    rintro ⟨slot, hslot, h0⟩
    obtain ⟨i, hi, slot', hslot', hfd, -⟩ := h.slot F hreg
    have hu : UsedAt PollFd.used w.pollfds i :=
      ⟨slot', hslot', PollFd.used_iff.mpr (by omega)⟩
    have hlt : (w.fde F).commIndex.toNat < limit := by
      by_contra hge
      exact hfit.cut i (by omega) hu
    refine ⟨slot, ?_, h0⟩
    dsimp only
    rw [getElem?_changing, if_pos hlt, hslot]
    rfl
  · exact hp

theorem changing_same (w : PollWorld) (limit : ℕ) (memory : ℕ → PollFd) :
    (w.changingFdlimit limit memory).fde = w.fde ∧ (w.changingFdlimit limit memory).pass = w.pass ∧
      (w.changingFdlimit limit memory).gen = w.gen ∧
      (w.changingFdlimit limit memory).trace = w.trace ∧
      (w.changingFdlimit limit memory).fault = w.fault ∧
      (w.changingFdlimit limit memory).pollmax = w.pollmax := by
  unfold changingFdlimit
  split <;> exact ⟨rfl, rfl, rfl, rfl, rfl, rfl⟩

theorem Sound.changing (h : Sound w) {limit : ℕ} {memory : ℕ → PollFd}
    (hfit : FitLimit w limit memory) : Sound (w.changingFdlimit limit memory) := by
  obtain ⟨hfde, hpass, hgen, htrace, -⟩ := changing_same w limit memory
  constructor
  · exact h.table.changing hfit
  · intro F hF
    rw [hfde]
    refine h.sync F ?_
    rwa [InPass, hpass] at hF
  · rw [hpass]
    intro p hp
    have hlog := h.log p hp
    constructor
    · rw [htrace]
      exact hlog.admits
    · rw [htrace, hgen]
      exact hlog.called
    · rw [htrace, hgen, hfde]
      exact hlog.closed
    · rw [htrace, hgen]
      exact fun F kind hmem => (hlog.past F kind hmem).changing h.table hfit
  · rw [hpass, htrace]
    exact h.idle
  · rw [hpass]
    exact fun p hp => (h.past p hp).changing h.table hfit
  · rw [hpass, htrace, hgen]
    exact h.reading

/-- The call of a handler that was not called before in this pass. -/
theorem Log.sound_call {p : PollPass} (hlog : Log w (p.ci + 1)) (htable : Table w)
    (hsync : ∀ G, G ≠ p.F → (w.fde G).evcache = (w.fde G).newEvents)
    (hopen : (w.fde p.F).isOpen = true) (hpast : Past w (p.ci + 1) p.F)
    (hnew : .called p.F (w.gen p.F) p.kind ∉ w.trace)
    (hreading : p.kind = .read → .called p.F (w.gen p.F) .write ∉ w.trace) :
    Sound (w.call p) := by
  have hG : ∀ G, G ≠ p.F → (w.call p).fde G = w.fde G := fun G hne =>
    Function.update_of_ne hne _ _
  have hsame : ∀ G, ((w.call p).fde G).isOpen = (w.fde G).isOpen ∧
      ((w.call p).fde G).fd = (w.fde G).fd ∧
      ((w.call p).fde G).commIndex = (w.fde G).commIndex ∧
      ((w.call p).fde G).evcache = (w.fde G).evcache := by
    intro G
    by_cases hne : G = p.F
    · subst hne
      have heq : (w.call p).fde p.F = (w.fde p.F).takeHandler p.kind := put_fde_self _ _ _
      rw [heq]
      cases p.kind <;> exact ⟨rfl, rfl, rfl, rfl⟩
    · rw [hG G hne]
      exact ⟨rfl, rfl, rfl, rfl⟩
  have hpast' : ∀ {b G}, Past w b G → Past (w.call p) b G := by
    intro b G hp
    rw [Past, FdeT.Registered, (hsame G).1, (hsame G).2.2.1, (hsame G).2.2.2]
    exact hp
  have hmem : ∀ {x}, x ∈ (w.call p).trace ↔
      x ∈ w.trace ∨ x = .called p.F (w.gen p.F) p.kind :=
    List.mem_append.trans (or_congr Iff.rfl List.mem_singleton)
  have hadmits : (w.call p).trace.Pairwise Admits := by
    refine List.pairwise_append.mpr ⟨hlog.admits, List.pairwise_singleton _ _, fun x hx y hy => ?_⟩
    rw [List.mem_singleton.mp hy]
    rintro F gen kind ⟨⟩
    refine ⟨fun heq => hnew (heq ▸ hx), fun heq => ?_⟩
    have hclosed := (hlog.closed _ _ (heq ▸ hx)).2 rfl
    rw [hopen] at hclosed
    cases hclosed
  constructor
  · refine htable.congr hsame (fun G hGo => hG G ?_) (fun _ => rfl) rfl rfl rfl rfl
    rintro rfl
    rw [hopen] at hGo
    cases hGo
  · intro G hGp
    have hne : G ≠ p.F := fun heq => hGp ⟨p, rfl, heq.symm⟩
    rw [hG G hne]
    exact hsync G hne
  · rintro q ⟨⟩
    refine ⟨hadmits, fun G gen kind hx => ?_, fun G gen hx => ?_, fun G kind hx => ?_⟩
    · rcases hmem.mp hx with hx | hx
      · exact hlog.called G gen kind hx
      · cases hx
        exact le_rfl
    · rcases hmem.mp hx with hx | hx
      · rw [(hsame G).1]
        exact hlog.closed G gen hx
      · cases hx
    · rcases hmem.mp hx with hx | hx
      · exact hpast' (hlog.past G kind hx)
      · obtain ⟨rfl, -⟩ := PollEntry.called.inj hx
        exact hpast' hpast
  · exact fun hp => by cases hp
  · rintro q ⟨⟩
    exact hpast' hpast
  · rintro q ⟨⟩ hkind hx
    rcases hmem.mp hx with hx | hx
    · exact hreading hkind hx
    · rw [hkind] at hx
      cases hx

theorem callRead_some {p : PollPass} (h : w.callRead p = some w') :
    ∃ hdl, w' = w.call { p with kind := .read, hdl := hdl } := by
  unfold callRead at h
  split at h
  · obtain ⟨hdl, -, rfl⟩ := Option.map_eq_some_iff.mp h
    exact ⟨hdl, rfl⟩
  · cases h

theorem callWrite_some {p : PollPass} (h : w.callWrite p = some w') :
    ∃ hdl, w' = w.call { p with kind := .write, hdl := hdl } := by
  unfold callWrite at h
  split at h
  · obtain ⟨hdl, -, rfl⟩ := Option.map_eq_some_iff.mp h
    exact ⟨hdl, rfl⟩
  · cases h

/-- The table is kept, or there is no slot left for a descriptor that needs one. -/
def Going (w : PollWorld) : Prop :=
  (w.fault = false → Sound w) ∧ (w.fault = true → Full w)

theorem Sound.going (h : Sound w) (hfault : w.fault = false) : Going w :=
  ⟨fun _ => h, fun hf => (Bool.false_ne_true (hfault.symm.trans hf)).elim⟩

theorem resync_eq (h : (w.fde F).evcache = (w.fde F).newEvents) : w.resync F = w := by
  have hput : w.put F (w.fde F) = w := by
    rw [put, Function.update_eq_self]
  rw [resync, commSetselect]
  exact (if_pos h.symm).trans hput

theorem Scans.idle {b : ℕ} (h : Scans w b) : Sound { w with pass := none } where
  table := h.table.congr (fun _ => ⟨rfl, rfl, rfl, rfl⟩) (fun _ _ => rfl) (fun _ => rfl) rfl rfl
    rfl rfl
  sync F _ := h.sync F
  log p hp := by cases hp
  idle _ := h.log.admits
  past p hp := by cases hp
  reading p hp := by cases hp

theorem Scans.next {b : ℕ} (h : Scans w b) : Scans w (b + 1) :=
  ⟨h.table, h.sync, h.log.mono (Nat.le_succ b)⟩

/-- The descriptor of a slot that is looked at has no call in this pass. -/
theorem Scans.sound_call {b num rev hdl : ℕ} {kind : PollKind} {slot : PollFd} (h : Scans w b)
    (hslot : w.pollfds[b]? = some slot) (hready : ¬ (slot.revents = 0 ∨ slot.fd = -1))
    (hF : w.lookupFd slot.fd = some F) : Sound (w.call ⟨b, num, rev, F, kind, hdl⟩) := by
  rw [lookupFd] at hF
  have hfd : ((w.fde F).fd : ℤ) = slot.fd := by simpa using List.find?_some hF
  have hopen : (w.fde F).isOpen = true := (h.table.hash F).mp (List.mem_of_find?_eq_some hF)
  obtain ⟨G, hG, hidx⟩ := h.table.owner b ⟨slot, hslot, PollFd.used_iff.mpr (not_or.mp hready).2⟩
  obtain ⟨slot', hslot', hfd', -⟩ := h.table.usedAt hG hidx
  obtain rfl : slot' = slot := Option.some.inj (hslot'.symm.trans hslot)
  obtain rfl : F = G := h.table.numbers F G hopen hG.1 (by omega)
  have hnew : ∀ kind, .called F (w.gen F) kind ∉ w.trace := by
    intro kind hmem
    rcases h.log.past F kind hmem hG with hlt | ⟨slot'', hslot'', h0⟩
    · omega
    · rw [hidx, Int.toNat_natCast, hslot] at hslot''
      exact hready (.inl (Option.some.inj hslot'' ▸ h0))
  refine (h.log.mono (Nat.le_succ b)).sound_call h.table (fun G _ => h.sync G) hopen ?_ (hnew _)
    (fun _ => hnew _)
  exact fun _ => .inl (by dsimp only; omega)

theorem Scans.scan {b num : ℕ} (h : Scans w b) (hfault : w.fault = false) :
    Going (w.scan b num) := by
  induction hk : (w.pollmax + 1 - b).toNat generalizing b num with
  | zero =>
      rw [PollWorld.scan, if_neg (by omega)]
      exact h.idle.going hfault
  | succ k ih =>
      have hnext : ∀ num, Going (w.scan (b + 1) num) := fun num => ih h.next (by omega)
      rw [PollWorld.scan]
      split
      · rename_i hcond
        have hlt : b < w.pollfds.length := by
          rcases h.table.top.attained with htop | ⟨i, hi, htop⟩
          · omega
          · have := hi.lt_length
            omega
        have hslot := List.getElem?_eq_getElem hlt
        rw [hslot]
        dsimp only
        split
        · exact hnext _
        · rename_i hready
          split
          · exact hnext _
          · rename_i F hlookup
            split
            · exact hnext _
            · split
              · rename_i w' hread
                obtain ⟨hdl, rfl⟩ := callRead_some hread
                exact (h.sound_call hslot hready hlookup).going hfault
              · split
                · rename_i w' hwrite
                  obtain ⟨hdl, rfl⟩ := callWrite_some hwrite
                  exact (h.sound_call hslot hready hlookup).going hfault
                · rw [resync_eq (h.sync F), hfault]
                  exact hnext _
      · exact h.idle.going hfault

theorem Sound.handlerReturns (h : Sound w) (hfault : w.fault = false) {p : PollPass}
    (hp : w.pass = some p) : Going (w.handlerReturns p) := by
  have hlog := h.log p hp
  have hsync : ∀ G, G ≠ p.F → (w.fde G).evcache = (w.fde G).newEvents := by
    intro G hne
    refine h.sync G ?_
    rintro ⟨q, hq, hqF⟩
    rw [hp] at hq
    cases hq
    exact hne hqF.symm
  unfold PollWorld.handlerReturns
  split
  · rename_i hclosed
    refine Scans.scan ⟨h.table, fun G => ?_, hlog⟩ hfault
    by_cases hne : G = p.F
    · rw [hne, h.table.cleared p.F hclosed]
      exact (FdeT.newEvents_of_none rfl rfl).symm
    · exact hsync G hne
  · rename_i hopen
    rw [Bool.not_eq_false] at hopen
    have hrest : Going (if (w.resync p.F).fault then w.resync p.F
        else (w.resync p.F).scan (p.ci + 1) p.num) := by
      rcases commSetselect_spec h.table hopen false false none with ⟨hf, hfull⟩ | hr
      · rw [resync, if_pos hf]
        exact ⟨fun hf' => (Bool.false_ne_true (hf'.symm.trans hf)).elim, fun _ => hfull⟩
      · have hnofault : (w.resync p.F).fault = false := hr.fault.trans hfault
        rw [hnofault]
        exact (Scans.of_reset hlog hsync hr hopen).scan hnofault
    dsimp only
    split
    · rename_i w' hcalled
      split at hcalled
      · rename_i hkind
        obtain ⟨hdl, rfl⟩ := callWrite_some hcalled
        refine (Log.sound_call (p := { p with kind := .write, hdl := hdl }) hlog h.table hsync
          hopen (h.past p hp) ?_ ?_).going hfault
        · exact h.reading p hp hkind
        · exact fun hk => by cases hk
      · cases hcalled
    · exact hrest

theorem Sound.commSelect (h : Sound w) (hfault : w.fault = false) (hp : w.pass = none)
    (revents : ℕ → ℕ) : Going (w.commSelect revents) := by
  unfold PollWorld.commSelect
  refine Scans.scan ⟨?_, fun F => ?_, ?_⟩ hfault
  · refine h.table.congr (fun _ => ⟨rfl, rfl, rfl, rfl⟩) (fun _ _ => rfl) (fun i => ?_) ?_ rfl rfl
      rfl
    · rw [List.getElem?_mapIdx, Option.map_map]
      refine congrArg (Option.map · _) (funext fun slot => ?_)
      dsimp only [Function.comp]
      split <;> rfl
    · rw [List.length_mapIdx]
  · refine h.sync F ?_
    rintro ⟨p, hmem, -⟩
    rw [hp] at hmem
    cases hmem
  · exact ⟨.nil, fun _ _ _ hmem => (List.not_mem_nil hmem).elim,
      fun _ _ hmem => (List.not_mem_nil hmem).elim, fun _ _ hmem => (List.not_mem_nil hmem).elim⟩

/-- The descriptors that have a slot. -/
def registered (w : PollWorld) : List FdePtr := w.fdHash.filter fun F => (w.fde F).evcache ≠ 0

/-- The slot has the number of a descriptor and exactly its events. -/
def Shows (w : PollWorld) (i : ℕ) (f : FdeT) : Prop :=
  ∃ slot, w.pollfds[i]? = some slot ∧ slot.fd = f.fd ∧ slot.events = f.newEvents

/-- The table as it should be. -/
structure Kept (w : PollWorld) : Prop where
  owns : ∀ F, (w.fde F).isOpen = true → (w.fde F).Wanted → ¬ InPass w F →
    ∃ i < w.hardFdlimit, w.Shows i (w.fde F) ∧
      ∀ (j : ℕ) (slot : PollFd), w.pollfds[j]? = some slot → slot.fd = (w.fde F).fd → j = i
  others : ∀ (i : ℕ) (slot : PollFd), w.pollfds[i]? = some slot → slot.fd ≠ -1 →
    ∃ F, (w.fde F).isOpen = true ∧ slot.fd = (w.fde F).fd ∧ ((w.fde F).Wanted ∨ InPass w F)
  length : w.pollfds.length = w.hardFdlimit
  pollmax : IsTop PollFd.used w.pollfds w.pollmax
  findslot : w.registered.length < w.hardFdlimit → w.pollFindslot.isSome = true
  calls : w.trace.Pairwise Admits

/-- A step after which the table is as it should be: a registered descriptor that is closed is a
socket, and the limit leaves free slots only. -/
def Clean (w : PollWorld) : PollEvent → Prop
  | .fdClose F => (w.fde F).evcache ≠ 0 → (w.fde F).isSocket = true
  | .changingFdlimit limit memory => FitLimit w limit memory
  | _ => True

theorem Table.exists_slot (h : Table w) (hlt : w.registered.length < w.hardFdlimit) :
    w.pollFindslot.isSome = true := by
  rw [← h.length] at hlt
  have howned : ∀ i, UsedAt PollFd.used w.pollfds i →
      ∃ F ∈ w.registered, (w.fde F).commIndex = i := by
    intro i hi
    obtain ⟨F, hF, hidx⟩ := h.owner i hi
    exact ⟨F, List.mem_filter.mpr ⟨(h.hash F).mpr hF.1, decide_eq_true hF.2⟩, hidx⟩
  obtain ⟨i, hi, hfree⟩ := exists_free howned hlt
  rw [Option.isSome_iff_ne_none, Ne, pollFindslot_eq_none_iff]
  intro hfull
  exact hfree ⟨_, List.getElem?_eq_getElem hi, PollFd.used_iff.mpr (hfull _ (List.getElem_mem hi))⟩

theorem Sound.kept (h : Sound w) : Kept w := by
  constructor
  · intro F hopen hwanted hpass
    have hsync := h.sync F hpass
    have hreg : (w.fde F).Registered :=
      ⟨hopen, hsync ▸ FdeT.newEvents_ne_zero_iff.mpr hwanted⟩
    obtain ⟨i, hidx, slot, hslot, hfd, hev⟩ := h.table.slot F hreg
    have hi : i < w.hardFdlimit := h.table.length ▸ (List.getElem?_eq_some_iff.mp hslot).1
    refine ⟨i, hi, ⟨slot, hslot, hfd, hev.trans hsync⟩, fun j slot' hslot' hfd' => ?_⟩
    obtain ⟨G, hG, hGidx⟩ := h.table.owner j ⟨slot', hslot', PollFd.used_iff.mpr (by omega)⟩
    obtain ⟨slot'', hslot'', hGfd, -⟩ := h.table.usedAt hG hGidx
    obtain rfl : slot'' = slot' := Option.some.inj (hslot''.symm.trans hslot')
    obtain rfl : G = F := h.table.numbers G F hG.1 hopen (by omega)
    omega
  · intro i slot hslot hfd
    obtain ⟨F, hF, hidx⟩ := h.table.owner i ⟨slot, hslot, PollFd.used_iff.mpr hfd⟩
    obtain ⟨slot', hslot', hFfd, -⟩ := h.table.usedAt hF hidx
    obtain rfl : slot' = slot := Option.some.inj (hslot'.symm.trans hslot)
    refine ⟨F, hF.1, hFfd, ?_⟩
    by_cases hpass : InPass w F
    · exact .inr hpass
    · exact .inl (FdeT.newEvents_ne_zero_iff.mp (h.sync F hpass ▸ hF.2))
  · exact h.table.length
  · exact h.table.top
  · exact h.table.exists_slot
  · rcases hp : w.pass with _ | p
    · exact h.idle hp
    · exact (h.log p hp).admits

theorem sound_initNetio (limit : ℕ) : Sound (initNetio limit) := by
  have hfree : ∀ i, ¬ UsedAt PollFd.used (List.replicate limit ⟨-1, 0, 0⟩) i := by
    rintro i ⟨slot, hslot, hu⟩
    rw [List.eq_of_mem_replicate (List.mem_of_getElem? hslot)] at hu
    exact PollFd.used_iff.mp hu rfl
  have hclosed : ∀ F, ¬ ((initNetio limit).fde F).Registered := fun F hF => hF.2 rfl
  constructor
  · constructor
    · exact List.length_replicate
    · exact fun F hF => absurd hF (hclosed F)
    · exact fun i hi => absurd hi (hfree i)
    · exact fun F G hF => by cases hF
    · exact fun F _ => rfl
    · exact fun F => iff_of_false List.not_mem_nil (fun hF => by cases hF)
    · exact .nil
    · exact ⟨fun i hi => absurd hi (hfree i), .inl rfl⟩
  · exact fun F _ => (FdeT.newEvents_of_none rfl rfl).symm
  · exact fun p hp => by cases hp
  · exact fun _ => .nil
  · exact fun p hp => by cases hp
  · exact fun p hp => by cases hp

theorem Going.step (h : Going w) {e : PollEvent}
    (hclean : w.fault = false → w.Legal e → Clean w e) : Going (w.step e) := by
  unfold PollWorld.step
  split
  · rename_i hstep
    obtain ⟨hfault, hlegal⟩ := hstep
    have hsound := h.1 hfault
    cases e with
    | fdOpen F fd isSocket => exact (hsound.fdOpen isSocket hlegal.1 hlegal.2).going hfault
    | fdClose F =>
        obtain ⟨hs, hf⟩ := hsound.fdClose hfault hlegal (hclean hfault hlegal)
        exact hs.going hf
    | commSetselect F rd wr handler =>
        rcases commSetselect_spec hsound.table hlegal rd wr handler with ⟨hf, hfull⟩ | hr
        · exact ⟨fun hf' => (Bool.false_ne_true (hf'.symm.trans hf)).elim, fun _ => hfull⟩
        · exact (hsound.reset hr hlegal).going (hr.fault.trans hfault)
    | changingFdlimit limit memory =>
        refine (hsound.changing (hclean hfault hlegal)).going ?_
        exact (changing_same w limit memory).2.2.2.2.1.trans hfault
    | commSelect revents =>
        cases revents with
        | none => exact h
        | some revents => exact hsound.commSelect hfault hlegal revents
    | handlerReturns =>
        obtain ⟨p, hp⟩ := Option.ne_none_iff_exists'.mp hlegal
        rw [perform, hp]
        exact hsound.handlerReturns hfault hp
  · exact h

/-- The table is as it should be; it can only fail when every slot is in use. -/
structure Good (w : PollWorld) : Prop where
  kept : w.fault = false → Kept w
  full : w.fault = true → Full w

theorem Going.good (h : Going w) : Good w := ⟨fun hf => (h.1 hf).kept, h.2⟩

theorem clean_of_fdClose (h : Table w) (hopen : (w.fde F).isOpen = true)
    (hkept : Kept (w.fdClose F)) : w.Clean (.fdClose F) := by
  intro hev
  by_contra hsock
  obtain ⟨i, -, slot, hslot, hfd, -⟩ := h.slot F ⟨hopen, hev⟩
  unfold fdClose at hkept
  rw [if_neg hsock] at hkept
  obtain ⟨G, hGo, hGfd, -⟩ := hkept.others i slot hslot (by omega)
  have hne : G ≠ F := by
    rintro rfl
    have hself := put_fde_self w G .cleared
    rw [show _ = FdeT.cleared from hself] at hGo
    cases hGo
  have hsame : (w.put F .cleared).fde G = w.fde G := Function.update_of_ne hne _ _
  rw [show _ = w.fde G from hsame] at hGo hGfd
  exact hne (h.numbers G F hGo hopen (by omega))

theorem fit_of_changing (h : Table w) {limit : ℕ} {memory : ℕ → PollFd}
    (hkept : Kept (w.changingFdlimit limit memory)) : FitLimit w limit memory := by
  have hmax : (w.changingFdlimit limit memory).pollmax = w.pollmax :=
    (changing_same w limit memory).2.2.2.2.2
  have htop := hkept.pollmax
  rw [hmax] at htop
  by_cases hsame : limit = w.hardFdlimit
  · refine ⟨fun i hi hlt => by omega, fun i hi hu => ?_⟩
    have := hu.lt_length
    rw [h.length] at this
    omega
  · have hchange : (w.changingFdlimit limit memory).pollfds =
        (List.range limit).map fun i => (w.pollfds[i]?).getD (memory i) := by
      rw [changingFdlimit, if_pos hsame]
    rw [hchange] at htop
    refine ⟨fun i hi hlt => ?_, fun i hi hu => ?_⟩
    · by_contra hfd
      have hu : UsedAt PollFd.used
          ((List.range limit).map fun i => (w.pollfds[i]?).getD (memory i)) i := by
        refine ⟨memory i, ?_, PollFd.used_iff.mpr hfd⟩
        rw [getElem?_changing, if_pos hlt, List.getElem?_eq_none (by rw [h.length]; exact hi)]
        rfl
      have hle := htop.le i hu
      rcases h.top.attained with hneg | ⟨j, hj, heq⟩
      · omega
      · have := hj.lt_length
        rw [h.length] at this
        omega
    · have hle := h.top.le i hu
      rcases htop.attained with hneg | ⟨j, hj, heq⟩
      · omega
      · have := hj.lt_length
        rw [List.length_map, List.length_range] at this
        omega

theorem Going.clean (h : Going w) {e : PollEvent} (hgood : Good (w.step e))
    (hfault : w.fault = false) (hlegal : w.Legal e) : Clean w e := by
  have hstep : w.step e = w.perform e := if_pos ⟨hfault, hlegal⟩
  rw [hstep] at hgood
  cases e with
  | fdClose F =>
      by_cases hclean : w.Clean (.fdClose F)
      · exact hclean
      · have hsock : (w.fde F).isSocket ≠ true := fun hs => hclean fun _ => hs
        refine clean_of_fdClose (h.1 hfault).table hlegal (hgood.kept ?_)
        rw [perform, fdClose, if_neg hsock]
        exact hfault
  | changingFdlimit limit memory =>
      refine fit_of_changing (h.1 hfault).table (hgood.kept ?_)
      exact (changing_same w limit memory).2.2.2.2.1.trans hfault
  | fdOpen => trivial
  | commSetselect => trivial
  | commSelect => trivial
  | handlerReturns => trivial

/-- All along a run, exactly when no step breaks it. -/
theorem run_good_iff (limit : ℕ) (events : List PollEvent) :
    (∀ n, Good ((events.take n).foldl step (initNetio limit))) ↔
      Runs.Each step (fun w e => w.fault = false → w.Legal e → Clean w e) (initNetio limit)
        events :=
  Runs.forall_take_iff_of_strong (P := Good) (Q := Going) (fun _ => Going.good)
    (fun _ _ h hclean => h.step hclean)
    (fun _ _ h hgood hfault hlegal => h.clean hgood hfault hlegal)
    ((sound_initNetio limit).going rfl)

/-- The limit goes up by one, and memory holds zeros there. -/
theorem not_forall_good : ¬ ∀ (limit : ℕ) (events : List PollEvent) (n : ℕ),
    Good ((events.take n).foldl step (initNetio limit)) := by
  intro hall
  have hgood := hall 1 [.changingFdlimit 2 fun _ => ⟨0, 0, 0⟩] 1
  have hle := (hgood.kept rfl).pollmax.le 1 ⟨⟨0, 0, 0⟩, rfl, rfl⟩
  exact absurd hle (by decide)

end PollWorld

end Unirc
