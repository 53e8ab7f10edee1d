import Mathlib.Logic.Function.Iterate
import Mathlib.Order.Nat
import Unirc.Servlink
import Unirc.SlinkReply

/-!
# Whether the replies come through

Nothing outside a buffer is used, and the handlers are called with the replies in their order. But
where a receive finds only a part of a length or of the data, `read_ctrl_packet` returns without
having itself called again, and the replies from there on are not read.
-/

namespace Unirc

/-- The next receive that finds something. -/
def RecvSchedule.next (f : RecvSchedule) (i : ℕ) : ℕ := Nat.find (f.again i)

namespace CtrlLink

/-- The receive that finds the length of a reply. -/
def lengthRecv (f : RecvSchedule) (i : ℕ) : ℕ := f.next (f.next i + 1)

/-- The one that finds the data, or the length if there is none. -/
def dataRecv (f : RecvSchedule) (i : ℕ) (r : SlinkReply) : ℕ :=
  if r.data = [] then lengthRecv f i else f.next (lengthRecv f i + 1)

/-- From receive `i` on, each length and the data of each reply are found by one receive. -/
def Whole (f : RecvSchedule) : ℕ → List SlinkReply → Prop
  | _, [] => True
  | i, r :: rest =>
      2 ≤ f.found (lengthRecv f i) ∧ r.data.length ≤ f.found (dataRecv f i r) ∧
        (r.isError = true ∨ Whole f (dataRecv f i r + 1) rest)

/-- What the handlers are to be called with. -/
def expected (replies : List SlinkReply) : List (ℕ × ℕ × List ℕ) :=
  (untilError replies).map SlinkReply.call

/-- From the state on, no buffer is overrun and the calls are as expected; and all of them are made
if `p` holds and only then. -/
structure Runs (f : RecvSchedule) (e : List (ℕ × ℕ × List ℕ)) (p : Prop) (s : CtrlLink) :
    Prop where
  fault : ∀ n, ((poll f)^[n] s).fault = false
  calls : ∀ n, ((poll f)^[n] s).calls <+: e
  all : (∃ n, ((poll f)^[n] s).calls = e) ↔ p

variable {f : RecvSchedule} {e : List (ℕ × ℕ × List ℕ)} {p q : Prop} {s : CtrlLink}

theorem Runs.congr (h : s.Runs f e p) (hpq : p ↔ q) : s.Runs f e q :=
  ⟨h.fault, h.calls, h.all.trans hpq⟩

theorem runs_of_poll (hfault : s.fault = false) (hcalls : s.calls <+: e) (hp : s.calls = e → p)
    (h : (s.poll f).Runs f e p) : s.Runs f e p where
  fault n := by
    cases n with
    | zero => exact hfault
    | succ n => exact h.fault n
  calls n := by
    cases n with
    | zero => exact hcalls
    | succ n => exact h.calls n
  all := by
    constructor
    · rintro ⟨n, hn⟩
      cases n with
      | zero => exact hp hn
      | succ n => exact h.all.mp ⟨n, hn⟩
    · intro hp'
      obtain ⟨n, hn⟩ := h.all.mpr hp'
      exact ⟨n + 1, hn⟩

/-- Without the handler nothing happens any more. -/
theorem runs_of_stopped (hhandler : s.handler = false) (hfault : s.fault = false)
    (hcalls : s.calls <+: e) : s.Runs f e (s.calls = e) := by
  have hstay (n : ℕ) : (poll f)^[n] s = s := by
    refine Function.iterate_fixed ?_ n
    rw [poll, hhandler, if_neg Bool.false_ne_true]
  refine ⟨fun n => ?_, fun n => ?_, ?_⟩
  · rw [hstay]
    exact hfault
  · rw [hstay]
    exact hcalls
  · simp only [hstay, exists_const]

/-- Between two replies. -/
structure Between (s : CtrlLink) (todo : List SlinkReply) : Prop where
  defunct : s.defunct = false
  fault : s.fault = false
  command : s.command = 0
  input : s.input = todo.flatMap SlinkReply.encode

theorem recv_of_zero {s : CtrlLink} {n : ℕ} (h : f.found s.recvs = 0) :
    s.recv f n = ([], { s with recvs := s.recvs + 1 }) := by
  rw [recv, h, Nat.min_zero, List.take_zero, List.drop_zero]

/-- Nothing is to come. -/
theorem runs_of_between_nil (h : s.Between []) (hcalls : s.calls = e) : s.Runs f e True := by
  have hstep {t : CtrlLink} (ht : t.Between []) (hc : t.calls = e) :
      (t.poll f).Between [] ∧ (t.poll f).calls = e := by
    have hinput : t.input = [] := ht.input
    rw [poll]
    split
    · rw [readCtrlPacket, if_neg (by simp [ht.defunct]), if_pos ht.command]
      simp only [recv, hinput, List.take_nil, List.drop_nil, nodata]
      exact ⟨⟨ht.defunct, ht.fault, ht.command, rfl⟩, hc⟩
    · exact ⟨ht, hc⟩
  have hrun (n : ℕ) : ((poll f)^[n] s).Between [] ∧ ((poll f)^[n] s).calls = e := by
    induction n with
    | zero => exact ⟨h, hcalls⟩
    | succ n ih =>
        rw [Function.iterate_succ_apply']
        exact hstep ih.1 ih.2
  exact ⟨fun n => (hrun n).1.fault, fun n => (hrun n).2 ▸ List.prefix_rfl,
    iff_of_true ⟨0, hcalls⟩ trivial⟩

/-- The receives that find nothing are passed over. -/
theorem runs_of_next {F : CtrlLink → CtrlLink} (hcalls : s.calls <+: e) (hne : s.calls ≠ e)
    (hfault : s.fault = false)
    (hzero : ∀ i, f.found i = 0 →
      F { s with recvs := i } = { s with recvs := i + 1, handler := true } ∧
        ({ s with recvs := i + 1, handler := true } : CtrlLink).poll f =
          F { s with recvs := i + 1 })
    (i : ℕ) (h : (F { s with recvs := f.next i }).Runs f e p) :
    (F { s with recvs := i }).Runs f e p := by
  induction hd : f.next i - i generalizing i with
  | zero =>
      have hle : i ≤ f.next i := (Nat.find_spec (f.again i)).1
      rwa [show f.next i = i by omega] at h
  | succ d ih =>
      have hi : f.found i = 0 := by
        by_contra hne
        have hmin : f.next i ≤ i := Nat.find_min' (f.again i) ⟨le_rfl, hne⟩
        omega
      have hnext : f.next (i + 1) = f.next i := by
        refine le_antisymm (Nat.find_min' _ ⟨by omega, (Nat.find_spec (f.again i)).2⟩) ?_
        exact Nat.find_mono fun m hm => ⟨Nat.le_of_succ_le hm.1, hm.2⟩
      obtain ⟨hwait, hpoll⟩ := hzero i hi
      rw [hwait]
      refine runs_of_poll hfault hcalls (fun heq => absurd heq hne) ?_
      rw [hpoll]
      exact ih (i + 1) (hnext ▸ h) (by omega)

theorem found_next_ne_zero (f : RecvSchedule) (i : ℕ) : f.found (f.next i) ≠ 0 :=
  (Nat.find_spec (f.again i)).2

/-- The handler gets the reply. -/
theorem runs_handle {r : SlinkReply} {rest : List SlinkReply} (hdefunct : s.defunct = false)
    (hfault : s.fault = false) (hhandler : s.handler = false)
    (hcommand : s.command = r.replydef.replyid) (hlen : s.datalen = r.data.length)
    (hdata : s.data.getD [] = r.data) (hinput : s.input = rest.flatMap SlinkReply.encode)
    (he : e = s.calls ++ expected (r :: rest))
    (ih : ∀ t : CtrlLink, t.Between rest → t.handler = true → e = t.calls ++ expected rest →
      t.Runs f e (Whole f t.recvs rest)) :
    s.handle.Runs f e (r.isError = true ∨ Whole f s.recvs rest) := by
  have hcall : (s.command, s.datalen, s.data.getD []) = r.call := by
    rw [hcommand, hlen, hdata]
    rfl
  have hdead : (s.defunct || decide (s.command = SLINKRPL_ERROR)) = r.isError := by
    rw [hdefunct, hcommand]
    rfl
  rw [handle, hcall, hdead]
  by_cases herror : r.isError = true
  · have hall : e = s.calls ++ [r.call] := by
      rw [he, expected, untilError, if_pos herror]
      rfl
    rw [herror, if_pos rfl]
    refine (runs_of_stopped ?_ ?_ ?_).congr ?_
    · exact hhandler
    · exact hfault
    · exact hall ▸ List.prefix_rfl
    · exact iff_of_true hall.symm (Or.inl rfl)
  · have hall : e = s.calls ++ [r.call] ++ expected rest := by
      rw [he, expected, untilError, if_neg herror, List.append_assoc]
      rfl
    rw [Bool.eq_false_iff.mpr herror, if_neg Bool.false_ne_true]
    refine (ih _ ?_ ?_ ?_).congr ?_
    · exact ⟨rfl, hfault, rfl, hinput⟩
    · rfl
    · exact hall
    · exact (or_iff_right Bool.false_ne_true).symm

/-- Before the data, of which nothing was received. -/
structure BeforeData (s : CtrlLink) (r : SlinkReply) (rest : List SlinkReply) : Prop where
  defunct : s.defunct = false
  fault : s.fault = false
  handler : s.handler = false
  hasData : r.replydef.hasData = true
  command : s.command = r.replydef.replyid
  gotdatalen : s.gotdatalen = 2
  datalen : s.datalen = r.data.length
  readdata : s.readdata = 0
  data : s.data = if r.data = [] then none else some (List.replicate r.data.length 0)
  input : s.input = r.data ++ rest.flatMap SlinkReply.encode

theorem find_replydef {r : SlinkReply} :
    slinkrpltab.find? (fun d => d.replyid = r.replydef.replyid) = some r.replydef := by
  have hmem := r.mem
  generalize r.replydef = d at hmem
  revert d
  decide

theorem replyid_ne_zero (r : SlinkReply) : r.replydef.replyid ≠ 0 := by
  have hmem := r.mem
  generalize r.replydef = d at hmem
  revert d
  decide

theorem withCommand_of_hasData {r : SlinkReply} (hcommand : s.command = r.replydef.replyid)
    (hdata : r.replydef.hasData = true) : s.withCommand f = s.withLength f := by
  rw [withCommand, hcommand, find_replydef]
  exact if_pos hdata

theorem BeforeData.poll_eq {r : SlinkReply} {rest : List SlinkReply} (h : s.BeforeData r rest)
    (i : ℕ) : ({ s with recvs := i, handler := true } : CtrlLink).poll f =
      ({ s with recvs := i } : CtrlLink).withData f := by
  have hstate : ({ s with recvs := i, handler := false } : CtrlLink) = { s with recvs := i } := by
    rw [← h.handler]
  have hgot : ¬s.gotdatalen < 2 := by
    rw [h.gotdatalen]
    decide
  rw [poll, if_pos rfl, hstate, readCtrlPacket, if_neg (by simp [h.defunct]),
    if_neg (h.command ▸ replyid_ne_zero r)]
  refine Eq.trans (withCommand_of_hasData ?_ h.hasData) ?_
  · exact h.command
  · exact if_neg hgot

theorem expected_ne {r : SlinkReply} {rest : List SlinkReply}
    (he : e = s.calls ++ expected (r :: rest)) : s.calls <+: e ∧ s.calls ≠ e := by
  refine ⟨he ▸ List.prefix_append _ _, fun heq => ?_⟩
  rw [he] at heq
  have hnil : expected (r :: rest) = [] :=
    List.append_cancel_left (heq.symm.trans (List.append_nil _).symm)
  rw [expected, List.map_eq_nil_iff, untilError] at hnil
  split at hnil <;> cases hnil

/-- A receive that finds something stores it in the buffer. -/
theorem BeforeData.withData_eq {r : SlinkReply} {rest : List SlinkReply} (h : s.BeforeData r rest)
    (hne : r.data ≠ []) {i k : ℕ} (hk : min r.data.length (f.found i) = k) (hkpos : k ≠ 0) :
    ({ s with recvs := i } : CtrlLink).withData f =
      let t : CtrlLink := { s with
        input := s.input.drop k
        recvs := i + 1
        data := some (r.data.take k ++ List.replicate (r.data.length - k) 0)
        readdata := k }
      if k < r.data.length then t else t.handle := by
  have hdata : s.data = some (List.replicate r.data.length 0) := by rw [h.data, if_neg hne]
  have hlt : s.readdata < s.datalen := by
    rw [h.readdata, h.datalen]
    exact List.length_pos_iff.mpr hne
  have hkle : k ≤ r.data.length := hk ▸ min_le_left _ _
  have htake : s.input.take k = r.data.take k := by
    rw [h.input, List.take_append_of_le_length hkle]
  have hlength : (r.data.take k).length = k := List.length_take_of_le hkle
  have hrest : (List.replicate r.data.length 0).drop k = List.replicate (r.data.length - k) 0 :=
    List.drop_replicate
  rw [withData, if_pos hlt, recv]
  dsimp only
  rw [h.datalen, h.readdata, Nat.sub_zero, hk, htake]
  split
  · rename_i hnil
    rw [(Prod.mk.inj hnil).1, List.length_nil] at hlength
    exact absurd hlength.symm hkpos
  · rename_i bytes t hbytes
    obtain ⟨rfl, rfl⟩ := Prod.mk.inj hbytes
    simp only [hdata, List.length_replicate, lt_irrefl, if_false, List.take_zero,
      List.nil_append, Nat.zero_add, hlength, hrest]

/-- All of the data is received at once, or `read_ctrl_packet` is not called again. -/
theorem runs_withData {r : SlinkReply} {rest : List SlinkReply} (h : s.BeforeData r rest)
    (hne : r.data ≠ []) (he : e = s.calls ++ expected (r :: rest))
    (ih : ∀ t : CtrlLink, t.Between rest → t.handler = true → e = t.calls ++ expected rest →
      t.Runs f e (Whole f t.recvs rest)) :
    (s.withData f).Runs f e (r.data.length ≤ f.found (f.next s.recvs) ∧
      (r.isError = true ∨ Whole f (f.next s.recvs + 1) rest)) := by
  obtain ⟨hpre, hcalls⟩ := expected_ne he
  have hpos : 0 < r.data.length := List.length_pos_iff.mpr hne
  have hlt : s.readdata < s.datalen := by
    rw [h.readdata, h.datalen]
    exact hpos
  refine runs_of_next hpre hcalls h.fault (fun i hi => ⟨?_, h.poll_eq (i + 1)⟩) s.recvs ?_
  · rw [withData, if_pos hlt, recv_of_zero hi]
    rfl
  · have hfound := found_next_ne_zero f s.recvs
    generalize f.next s.recvs = i at hfound
    by_cases hall : r.data.length ≤ f.found i
    · rw [h.withData_eq hne (min_eq_left hall) hpos.ne']
      dsimp only
      rw [if_neg (lt_irrefl _), List.take_length, Nat.sub_self, List.replicate_zero,
        List.append_nil, h.input, List.drop_left]
      refine (runs_handle (r := r) ?_ ?_ ?_ ?_ ?_ ?_ ?_ ?_ ih).congr ?_
      · exact h.defunct
      · exact h.fault
      · exact h.handler
      · exact h.command
      · exact h.datalen
      · rfl
      · rfl
      · exact he
      · exact (and_iff_right hall).symm
    · rw [h.withData_eq hne (min_eq_right (le_of_not_ge hall)) hfound]
      dsimp only
      rw [if_pos (lt_of_not_ge hall)]
      refine (runs_of_stopped ?_ ?_ ?_).congr ?_
      · exact h.handler
      · exact h.fault
      · exact hpre
      · exact iff_of_false hcalls fun hp => hall hp.1

/-- Before the length. -/
structure BeforeLength (s : CtrlLink) (r : SlinkReply) (rest : List SlinkReply) : Prop where
  defunct : s.defunct = false
  fault : s.fault = false
  handler : s.handler = false
  hasData : r.replydef.hasData = true
  command : s.command = r.replydef.replyid
  gotdatalen : s.gotdatalen = 0
  readdata : s.readdata = 0
  data : s.data = none
  input : s.input = (r.data.length >>> 8) % 256 :: r.data.length % 256 ::
    (r.data ++ rest.flatMap SlinkReply.encode)

theorem BeforeLength.poll_eq {r : SlinkReply} {rest : List SlinkReply} (h : s.BeforeLength r rest)
    (i : ℕ) : ({ s with recvs := i, handler := true } : CtrlLink).poll f =
      ({ s with recvs := i } : CtrlLink).withLength f := by
  have hstate : ({ s with recvs := i, handler := false } : CtrlLink) = { s with recvs := i } := by
    rw [← h.handler]
  rw [poll, if_pos rfl, hstate, readCtrlPacket, if_neg (by simp [h.defunct]),
    if_neg (h.command ▸ replyid_ne_zero r)]
  exact withCommand_of_hasData h.command h.hasData

/-- Both bytes of the length are received at once. -/
theorem BeforeLength.withLength_eq {r : SlinkReply} {rest : List SlinkReply}
    (h : s.BeforeLength r rest) {i : ℕ} (hfound : 2 ≤ f.found i) : ∃ t : CtrlLink,
      t.BeforeData r rest ∧ t.recvs = i + 1 ∧ t.calls = s.calls ∧
        ({ s with recvs := i } : CtrlLink).withLength f = t.withData f := by
  have hlen := length_of_bytes r.length_lt
  refine ⟨({ s with
    input := r.data ++ rest.flatMap SlinkReply.encode
    recvs := i + 1
    datalen := ((r.data.length >>> 8) % 256) <<< 8
    gotdatalen := 1 } : CtrlLink).lowByte (r.data.length % 256), ?_, rfl, rfl, ?_⟩
  · refine ⟨h.defunct, h.fault, h.handler, h.hasData, h.command, rfl, hlen, h.readdata, ?_, rfl⟩
    rw [lowByte]
    dsimp only
    rw [hlen, h.data]
    by_cases hnil : r.data = []
    · rw [if_pos hnil, hnil, if_neg (by simp)]
    · rw [if_neg hnil, if_pos (List.length_pos_iff.mpr hnil)]
  · rw [withLength, if_pos (by rw [h.gotdatalen]; decide), recv]
    dsimp only
    rw [h.gotdatalen, h.input, Nat.sub_zero, min_eq_left hfound]
    rfl

/-- The length and the data. -/
theorem runs_withLength {r : SlinkReply} {rest : List SlinkReply} (h : s.BeforeLength r rest)
    (he : e = s.calls ++ expected (r :: rest))
    (ih : ∀ t : CtrlLink, t.Between rest → t.handler = true → e = t.calls ++ expected rest →
      t.Runs f e (Whole f t.recvs rest)) {l d : ℕ} (hl : f.next s.recvs = l)
    (hd : (if r.data = [] then l else f.next (l + 1)) = d) :
    (s.withLength f).Runs f e (2 ≤ f.found l ∧ r.data.length ≤ f.found d ∧
      (r.isError = true ∨ Whole f (d + 1) rest)) := by
  obtain ⟨hpre, hcalls⟩ := expected_ne he
  have hlt : s.gotdatalen < 2 := by
    rw [h.gotdatalen]
    decide
  refine runs_of_next hpre hcalls h.fault (fun i hi => ⟨?_, h.poll_eq (i + 1)⟩) s.recvs ?_
  · rw [withLength, if_pos hlt, recv_of_zero hi]
    rfl
  · have hfound := found_next_ne_zero f s.recvs
    rw [hl] at hfound ⊢
    by_cases hboth : 2 ≤ f.found l
    · obtain ⟨t, ht, hrecvs, htcalls, heq⟩ := h.withLength_eq hboth
      rw [heq]
      by_cases hnil : r.data = []
      · rw [if_pos hnil] at hd
        subst hd
        have hlen : t.datalen = 0 := by rw [ht.datalen, hnil, List.length_nil]
        rw [withData, if_neg (by omega)]
        refine (runs_handle (r := r) ?_ ?_ ?_ ?_ ?_ ?_ ?_ ?_ ih).congr ?_
        · exact ht.defunct
        · exact ht.fault
        · exact ht.handler
        · exact ht.command
        · exact ht.datalen
        · rw [ht.data, if_pos hnil, hnil]
          rfl
        · rw [ht.input, hnil, List.nil_append]
        · rw [htcalls]
          exact he
        · rw [hrecvs, hnil]
          simp [hboth]
      · rw [if_neg hnil] at hd
        have hruns := runs_withData ht hnil (htcalls ▸ he) ih
        rw [hrecvs, hd] at hruns
        exact hruns.congr (and_iff_right hboth).symm
    · have hone : f.found l = 1 := by omega
      rw [withLength, if_pos hlt, recv]
      dsimp only
      rw [h.gotdatalen, h.input, Nat.sub_zero, hone]
      refine (runs_of_stopped ?_ ?_ ?_).congr ?_
      · exact h.handler
      · exact h.fault
      · exact hpre
      · exact iff_of_false hcalls fun hp => absurd hp.1 (by decide)

/-- A new command, whatever `slinkrpl` still has of the last reply. -/
theorem readCtrlPacket_of_command (hdefunct : s.defunct = false) (hcommand : s.command = 0) :
    s.readCtrlPacket f =
      match ({ s with gotdatalen := 0, readdata := 0, data := none } : CtrlLink).recv f 1 with
      | ([], s) => s.nodata
      | (b :: _, s) => ({ s with command := b } : CtrlLink).withCommand f := by
  have hlive : ¬ s.defunct = true := by simp [hdefunct]
  exact (if_neg hlive).trans (if_pos hcommand)

/-- A command, and the reply that it begins. -/
theorem runs_command {r : SlinkReply} {rest : List SlinkReply} (h : s.Between (r :: rest))
    (hhandler : s.handler = false) (hgot : s.gotdatalen = 0) (hread : s.readdata = 0)
    (hbuf : s.data = none) (he : e = s.calls ++ expected (r :: rest))
    (ih : ∀ t : CtrlLink, t.Between rest → t.handler = true → e = t.calls ++ expected rest →
      t.Runs f e (Whole f t.recvs rest)) :
    (s.readCtrlPacket f).Runs f e (Whole f s.recvs (r :: rest)) := by
  obtain ⟨hpre, hcalls⟩ := expected_ne he
  have hdata : r.replydef.hasData = true := by
    have hmem := r.mem
    generalize r.replydef = d at hmem
    revert d
    decide
  have hinput : s.input = r.replydef.replyid :: (r.data.length >>> 8) % 256 ::
      r.data.length % 256 :: (r.data ++ rest.flatMap SlinkReply.encode) := by
    rw [h.input, List.flatMap_cons, SlinkReply.encode, if_pos hdata]
    rfl
  refine runs_of_next hpre hcalls h.fault (fun i hi => ⟨?_, ?_⟩) s.recvs ?_
  · refine (readCtrlPacket_of_command ?_ ?_).trans ?_
    · exact h.defunct
    · exact h.command
    · rw [recv_of_zero hi]
      simp only [nodata, hgot, hread, hbuf]
  · rw [poll, if_pos rfl, ← hhandler]
  · have hfound := found_next_ne_zero f s.recvs
    obtain ⟨i, hi⟩ : ∃ i, f.next s.recvs = i := ⟨_, rfl⟩
    rw [hi] at hfound ⊢
    have hmin : min 1 (f.found i) = 1 := min_eq_left (Nat.one_le_iff_ne_zero.mpr hfound)
    have hrecv : ({ s with recvs := i, gotdatalen := 0, readdata := 0, data := none } :
        CtrlLink).recv f 1 = ([r.replydef.replyid], { s with
          input := (r.data.length >>> 8) % 256 :: r.data.length % 256 ::
            (r.data ++ rest.flatMap SlinkReply.encode)
          recvs := i + 1
          gotdatalen := 0
          readdata := 0
          data := none }) := by
      simp only [recv, hmin, hinput, List.take_succ_cons, List.drop_succ_cons, List.take_zero,
        List.drop_zero]
    rw [readCtrlPacket_of_command (s := { s with recvs := i }) h.defunct h.command, hrecv]
    dsimp only
    rw [withCommand_of_hasData (r := r) rfl hdata]
    refine (runs_withLength (r := r) ?_ ?_ ih rfl rfl).congr ?_
    · exact ⟨h.defunct, h.fault, hhandler, hdata, rfl, rfl, rfl, rfl, rfl⟩
    · exact he
    · rw [Whole, dataRecv, lengthRecv, hi]

/-- Between two replies, all of those to come are handed over if the receives find them whole. -/
theorem runs_between {todo : List SlinkReply} (h : s.Between todo) (hhandler : s.handler = false)
    (he : e = s.calls ++ expected todo) : (s.readCtrlPacket f).Runs f e (Whole f s.recvs todo) := by
  induction todo generalizing s with
  | nil =>
      have hinput : s.input = [] := h.input
      have hidle : (s.readCtrlPacket f).Between [] ∧ (s.readCtrlPacket f).calls = s.calls := by
        rw [readCtrlPacket_of_command h.defunct h.command]
        simp only [recv, hinput, List.take_nil, List.drop_nil, nodata, and_true]
        exact ⟨h.defunct, h.fault, h.command, rfl⟩
      refine (runs_of_between_nil hidle.1 ?_).congr ?_
      · rw [hidle.2, he]
        exact (List.append_nil _).symm
      · rw [Whole]
  | cons r rest ih =>
      have hready (t : CtrlLink) (ht : t.Between rest) (hpolled : t.handler = true)
          (heq : e = t.calls ++ expected rest) : t.Runs f e (Whole f t.recvs rest) := by
        have hpre : t.calls <+: e := heq ▸ List.prefix_append _ _
        refine runs_of_poll ht.fault hpre (fun hall => ?_) ?_
        · cases rest with
          | nil => trivial
          | cons r' rest => exact absurd hall (expected_ne heq).2
        · rw [poll, hpolled, if_pos rfl]
          exact ih (s := { t with handler := false })
            ⟨ht.defunct, ht.fault, ht.command, ht.input⟩ rfl heq
      have hrun := runs_command (s := { s with gotdatalen := 0, readdata := 0, data := none })
        (f := f) (r := r) ⟨h.defunct, h.fault, h.command, h.input⟩ hhandler rfl rfl
        rfl he hready
      rw [readCtrlPacket_of_command (s := { s with gotdatalen := 0, readdata := 0, data := none })
        h.defunct h.command] at hrun
      rw [readCtrlPacket_of_command h.defunct h.command]
      exact hrun

/-- The calls of the handlers: the replies in their order, with nothing outside the buffers, and
all of them in the end. -/
structure Delivers (f : RecvSchedule) (replies : List SlinkReply) : Prop where
  fault : ∀ n, (after f replies n).fault = false
  calls : ∀ n, (after f replies n).calls <+: expected replies
  all : ∃ n, (after f replies n).calls = expected replies

theorem delivers_iff (f : RecvSchedule) (replies : List SlinkReply) :
    Delivers f replies ↔ Whole f 0 replies := by
  have hruns := runs_between (f := f) (s := start (replies.flatMap SlinkReply.encode))
    ⟨rfl, rfl, rfl, rfl⟩ rfl rfl
  constructor
  · intro h
    exact hruns.all.mp h.all
  · intro h
    exact ⟨hruns.fault, hruns.calls, hruns.all.mpr h⟩

/-- Each receive finds one byte, so that the first of the length comes alone. -/
theorem not_forall_delivers :
    ¬∀ (f : RecvSchedule) (replies : List SlinkReply), Delivers f replies := by
  intro hall
  let f : RecvSchedule := ⟨fun _ => 1, fun n => ⟨n, le_rfl, Nat.one_ne_zero⟩⟩
  let r : SlinkReply :=
    ⟨⟨SLINKRPL_ERROR, true⟩, [120, 0], by decide, by decide, fun h => absurd h (by decide)⟩
  have hruns := runs_between (f := f) (s := start ([r].flatMap SlinkReply.encode))
    ⟨rfl, rfl, rfl, rfl⟩ rfl rfl
  have hwhole := hruns.all.mp (hall f [r]).all
  have htwo : 2 ≤ 1 := hwhole.1
  exact absurd htwo (by decide)

end CtrlLink

end Unirc
