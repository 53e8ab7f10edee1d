import Mathlib.Logic.Function.Iterate
import Unirc.Servlink

/-!
# Whether servlink gets what is handed over

The commands come through as long as no read ends between the two bytes of a length: `read_ctrl`
goes on with the upper byte alone. Where that is zero the handler is called without its data, and
otherwise the data is read to a buffer that is not there, unless the pipe is empty just then.
-/

namespace Unirc

/-- A call of a handler: the command with its data. -/
abbrev SlinkCall := SlinkCommand × List ℕ

namespace SlinkCall

/-- The bytes of a command on the pipe. -/
def encode (call : SlinkCall) : List ℕ :=
  call.1.commandid :: if call.1.hasData then
    (call.2.length >>> 8) % 256 :: call.2.length % 256 :: call.2 else []

/-- Only commands with a length have data, of a length that two bytes hold. -/
structure Fits (call : SlinkCall) : Prop where
  data : call.1.hasData = false → call.2 = []
  length : call.2.length < 2 ^ 16

theorem Fits.or_eq {call : SlinkCall} (h : call.Fits) :
    ((call.2.length >>> 8) % 256) <<< 8 ||| call.2.length % 256 = call.2.length :=
  length_of_bytes h.length

end SlinkCall

theorem commandDef_commandid {s : Servlink} {c : SlinkCommand} (h : s.command = c.commandid) :
    s.commandDef = some c := by
  unfold Servlink.commandDef
  rw [h]
  cases c <;> decide

theorem SlinkCommand.commandid_injective : Function.Injective SlinkCommand.commandid := by
  intro b c h
  let s : Servlink := { Servlink.start [] [] with command := b.commandid }
  have hb : s.commandDef = some b := commandDef_commandid rfl
  exact Option.some.inj (hb.symm.trans (commandDef_commandid h))

theorem SlinkCommand.commandid_ne_zero (c : SlinkCommand) : c.commandid ≠ 0 := by
  cases c <;> decide

namespace Servlink

/-- What `read_ctrl` stopped at, with the calls to come: before a command, before its length, within
its length, or within its data. -/
inductive Waits : Servlink → List SlinkCall → Prop
  | command {s : Servlink} {todo : List SlinkCall} (hcommand : s.command = 0)
      (hinput : s.input = todo.flatMap SlinkCall.encode) : Waits s todo
  | length {s : Servlink} {call : SlinkCall} {todo : List SlinkCall}
      (hdata : call.1.hasData = true) (hcommand : s.command = call.1.commandid)
      (hgot : s.gotdatalen = 0) (hlen : s.datalen = 0) (hread : s.readdata = 0)
      (hbuf : s.data = none) (hinput : s.input = (call.2.length >>> 8) % 256 ::
        call.2.length % 256 :: (call.2 ++ todo.flatMap SlinkCall.encode)) : Waits s (call :: todo)
  | low {s : Servlink} {call : SlinkCall} {todo : List SlinkCall}
      (hdata : call.1.hasData = true) (hcommand : s.command = call.1.commandid)
      (hgot : s.gotdatalen = 1) (hlen : s.datalen = ((call.2.length >>> 8) % 256) <<< 8)
      (hread : s.readdata = 0) (hbuf : s.data = none) (hinput : s.input =
        call.2.length % 256 :: (call.2 ++ todo.flatMap SlinkCall.encode)) : Waits s (call :: todo)
  | data {s : Servlink} {call : SlinkCall} {todo : List SlinkCall} {left : List ℕ}
      (got : List ℕ) (hdata : call.1.hasData = true) (hcommand : s.command = call.1.commandid)
      (hgot : s.gotdatalen = 2) (hlen : s.datalen = call.2.length) (hread : s.readdata = got.length)
      (hbuf : s.data = some got) (hsplit : call.2 = got ++ left) (hleft : left ≠ [])
      (hinput : s.input = left ++ todo.flatMap SlinkCall.encode) : Waits s (call :: todo)

/-- The calls that were made and those to come. -/
structure OnTrack (expected : List SlinkCall) (s : Servlink) : Prop where
  fault : s.fault = none
  waits : ∃ todo, expected = s.calls ++ todo ∧ s.Waits todo

/-- The handlers were called as they should, all of them once the pipe is empty. -/
structure Handed (expected : List SlinkCall) (s : Servlink) : Prop where
  fault : s.fault = none
  calls : s.calls <+: expected
  done : s.input = [] → s.calls = expected

/-- The next byte to come is the upper one of a length, and `chunks` is for the reads from there. -/
def BeforeLength (s : Servlink) (hi : ℕ) (chunks : List ℕ) : Prop :=
  ∃ c : SlinkCommand, c.hasData = true ∧ ∃ rest,
    ((s.command = c.commandid ∧ s.gotdatalen = 0 ∧ s.input = hi :: rest ∧ s.chunks = chunks) ∨
      (s.command = 0 ∧ s.input = c.commandid :: hi :: rest ∧ ∃ k, s.chunks = (k + 1) :: chunks))

/-- A read gets the upper byte of a length without the lower one, and that byte is zero or the next
read finds something. -/
def SplitsLength (s : Servlink) : Prop :=
  ∃ hi chunks, s.BeforeLength hi chunks ∧ chunks.headD 0 = 1 ∧
    (hi = 0 ∨ 0 < chunks.tail.headD 0)

theorem OnTrack.handed {expected : List SlinkCall} {s : Servlink} (h : s.OnTrack expected) :
    s.Handed expected := by
  obtain ⟨todo, hexpected, hwaits⟩ := h.waits
  refine ⟨h.fault, ⟨todo, hexpected.symm⟩, fun hempty => ?_⟩
  have hnil : todo = [] := by
    cases hwaits with
    | command _ hinput =>
        cases todo with
        | nil => rfl
        | cons call todo =>
            rw [hempty, List.flatMap_cons, SlinkCall.encode] at hinput
            cases hinput
    | length _ _ _ _ _ _ hinput =>
        rw [hempty] at hinput
        cases hinput
    | low _ _ _ _ _ _ hinput =>
        rw [hempty] at hinput
        cases hinput
    | data _ _ _ _ _ _ _ _ hleft hinput =>
        rw [hempty] at hinput
        exact absurd (List.append_eq_nil_iff.mp hinput.symm).1 hleft
  rw [hexpected, hnil, List.append_nil]

theorem read_append {s : Servlink} {left rest : List ℕ} (hinput : s.input = left ++ rest) :
    ∃ k ≤ left.length, s.read left.length = (left.take k,
      { s with input := left.drop k ++ rest, chunks := s.chunks.tail }) := by
  refine ⟨min left.length (s.chunks.headD 0), min_le_left _ _, ?_⟩
  rw [read, hinput, List.take_append_of_le_length (min_le_left _ _),
    List.drop_append_of_le_length (min_le_left _ _)]

theorem readData_of_le {s : Servlink} (h : s.datalen ≤ s.readdata) : s.readData = (s, true) :=
  if_neg (not_lt.mpr h)

theorem readData_of_empty {s : Servlink} (hlt : s.readdata < s.datalen)
    (hchunk : s.chunks.headD 0 = 0) :
    s.readData = ({ s with chunks := s.chunks.tail }, false) := by
  have hread : s.read (s.datalen - s.readdata) = ([], { s with chunks := s.chunks.tail }) := by
    rw [read, hchunk, Nat.min_zero, List.take_zero, List.drop_zero]
  rw [readData, if_pos hlt, hread]

/-- Some of the data that is left is read; the handler is called with the last of it. -/
theorem readData_of_lt {s : Servlink} {got left rest : List ℕ} (hleft : left ≠ [])
    (hlen : s.datalen = s.readdata + left.length) (hbuf : s.data = some got)
    (hinput : s.input = left ++ rest) : ∃ k ≤ left.length, s.readData =
      if k = 0 then ({ s with chunks := s.chunks.tail }, false)
      else ({ s with
        input := left.drop k ++ rest
        chunks := s.chunks.tail
        data := some (got ++ left.take k)
        readdata := s.readdata + k }, decide (k = left.length)) := by
  have hpos := List.length_pos_iff.mpr hleft
  obtain ⟨k, hk, hreads⟩ := read_append hinput
  refine ⟨k, hk, ?_⟩
  have hlt : s.readdata < s.datalen := by omega
  have hsub : s.datalen - s.readdata = left.length := by omega
  have hlength : (left.take k).length = k := List.length_take_of_le hk
  rw [readData, if_pos hlt, hsub, hreads]
  split
  · rename_i hbytes
    obtain ⟨hnil, rfl⟩ := Prod.mk.inj hbytes
    have hk0 : k = 0 := by rw [← hlength, hnil, List.length_nil]
    rw [if_pos hk0, hk0, List.drop_zero, ← hinput]
  · rename_i hne hbytes
    obtain ⟨rfl, rfl⟩ := Prod.mk.inj hbytes
    have hk0 : k ≠ 0 := fun h => hne (by rw [h, List.take_zero])
    rw [if_neg hk0]
    simp only [hbuf, hlength, Prod.mk.injEq, true_and, decide_eq_decide]
    omega

theorem withData_of_readData {s t : Servlink} {go : Bool} (c : SlinkCommand)
    (h : s.readData = (t, go)) : s.withData c =
      if go then { t with calls := t.calls ++ [(c, t.data.getD [])], command := 0 } else t := by
  rw [withData, h]

/-- The data of a command from `got` on, and the call of its handler. -/
theorem onTrack_withData {expected : List SlinkCall} {s : Servlink} {call : SlinkCall}
    {todo : List SlinkCall} {got left : List ℕ} (hfault : s.fault = none)
    (hexpected : expected = s.calls ++ call :: todo) (hdata : call.1.hasData = true)
    (hcommand : s.command = call.1.commandid) (hgot : s.gotdatalen = 2)
    (hlen : s.datalen = call.2.length) (hread : s.readdata = got.length)
    (hbuf : s.data = if call.2 = [] then none else some got) (hsplit : call.2 = got ++ left)
    (hinput : s.input = left ++ todo.flatMap SlinkCall.encode) :
    (s.withData call.1).OnTrack expected := by
  have hdone : expected = (s.calls ++ [call]) ++ todo := by
    rw [hexpected, List.append_assoc]
    rfl
  have hlength : s.datalen = s.readdata + left.length := by
    rw [hlen, hread, hsplit, List.length_append]
  by_cases hleft : left = []
  · subst hleft
    rw [List.append_nil] at hsplit
    have hget : s.data.getD [] = call.2 := by
      rw [hbuf]
      split
      · rename_i hnil
        rw [hnil]
        rfl
      · exact hsplit.symm
    rw [withData_of_readData call.1 (readData_of_le hlength.le), if_pos rfl, hget]
    exact ⟨hfault, todo, hdone, .command rfl hinput⟩
  · have hne : call.2 ≠ [] := by
      rw [hsplit]
      exact List.append_ne_nil_of_right_ne_nil _ hleft
    rw [if_neg hne] at hbuf
    obtain ⟨k, hk, hreads⟩ := readData_of_lt hleft hlength hbuf hinput
    split at hreads
    · rw [withData_of_readData call.1 hreads, if_neg Bool.false_ne_true]
      exact ⟨hfault, call :: todo, hexpected,
        .data got hdata hcommand hgot hlen hread hbuf hsplit hleft hinput⟩
    · rw [withData_of_readData call.1 hreads]
      have hjoin : call.2 = (got ++ left.take k) ++ left.drop k := by
        rw [List.append_assoc, List.take_append_drop, hsplit]
      by_cases hall : k = left.length
      · rw [if_pos (decide_eq_true hall)]
        have hcalled : got ++ left.take k = call.2 := by
          rw [hall, List.take_length, hsplit]
        refine ⟨hfault, todo, ?_, .command rfl ?_⟩
        · change expected = (s.calls ++ [(call.1, got ++ left.take k)]) ++ todo
          rw [hcalled]
          exact hdone
        · change left.drop k ++ _ = _
          rw [hall, List.drop_length, List.nil_append]
      · rw [if_neg (by simp [hall])]
        have hdrop : left.drop k ≠ [] := by
          rw [Ne, List.drop_eq_nil_iff]
          omega
        refine ⟨hfault, call :: todo, hexpected,
          .data (got ++ left.take k) hdata hcommand hgot hlen ?_ rfl hjoin hdrop rfl⟩
        change s.readdata + k = _
        rw [hread, List.length_append, List.length_take_of_le hk]

theorem readLength_of_empty {s : Servlink} (hgot : s.gotdatalen < 2)
    (hchunk : s.chunks.headD 0 = 0) :
    s.readLength = ({ s with chunks := s.chunks.tail }, false) := by
  have hread : s.read (2 - s.gotdatalen) = ([], { s with chunks := s.chunks.tail }) := by
    rw [read, hchunk, Nat.min_zero, List.take_zero, List.drop_zero]
  rw [readLength, if_pos hgot, hread]

theorem readLength_of_one {s : Servlink} {hi : ℕ} {rest : List ℕ} (hgot : s.gotdatalen = 0)
    (hinput : s.input = hi :: rest) (hchunk : s.chunks.headD 0 = 1) :
    s.readLength = ({ s with
      input := rest, chunks := s.chunks.tail, datalen := hi <<< 8, gotdatalen := 1 }, true) := by
  have hread : s.read 2 = ([hi], { s with input := rest, chunks := s.chunks.tail }) := by
    rw [read, hchunk, hinput]
    rfl
  rw [readLength, hgot, if_pos (by decide), hread]
  exact if_pos hgot

theorem readLength_of_both {s : Servlink} {hi lo : ℕ} {rest : List ℕ} (hgot : s.gotdatalen = 0)
    (hinput : s.input = hi :: lo :: rest) (hchunk : 2 ≤ s.chunks.headD 0) :
    s.readLength = ({ s with
      input := rest
      chunks := s.chunks.tail
      datalen := hi <<< 8 ||| lo
      gotdatalen := 2
      data := if 0 < hi <<< 8 ||| lo then some [] else s.data }, true) := by
  have hread : s.read 2 = ([hi, lo], { s with input := rest, chunks := s.chunks.tail }) := by
    rw [read, min_eq_left hchunk, hinput]
    rfl
  rw [readLength, hgot, if_pos (by decide), hread]
  exact if_pos hgot

theorem readLength_of_low {s : Servlink} {lo : ℕ} {rest : List ℕ} (hgot : s.gotdatalen = 1)
    (hinput : s.input = lo :: rest) (hchunk : s.chunks.headD 0 ≠ 0) :
    s.readLength = ({ s with
      input := rest
      chunks := s.chunks.tail
      datalen := s.datalen ||| lo
      gotdatalen := 2
      data := if 0 < s.datalen ||| lo then some [] else s.data }, true) := by
  have hread : s.read 1 = ([lo], { s with input := rest, chunks := s.chunks.tail }) := by
    rw [read, min_eq_left (Nat.one_le_iff_ne_zero.mpr hchunk), hinput]
    rfl
  rw [readLength, hgot, if_pos (by decide), hread]
  exact if_neg (show s.gotdatalen ≠ 0 by omega)

theorem withCommand_of_readLength {s t : Servlink} {c : SlinkCommand} {go : Bool}
    (hdata : c.hasData = true) (h : s.readLength = (t, go)) :
    s.withCommand c = if go then t.withData c else t := by
  rw [withCommand, if_pos hdata, h]

/-- The length is complete. -/
theorem buffer_of_length {call : SlinkCall} (h : call.Fits) {data : Option (List ℕ)}
    (hbuf : data = none) :
    (if 0 < ((call.2.length >>> 8) % 256) <<< 8 ||| call.2.length % 256 then some [] else data) =
      if call.2 = [] then none else some [] := by
  rw [h.or_eq, hbuf]
  by_cases hnil : call.2 = []
  · rw [hnil]
    rfl
  · rw [if_pos (List.length_pos_iff.mpr hnil), if_neg hnil]

/-- From the length of a command on, unless a read gets half of it. -/
theorem onTrack_withLength {expected : List SlinkCall} {s : Servlink} {call : SlinkCall}
    {todo : List SlinkCall} (hfault : s.fault = none)
    (hexpected : expected = s.calls ++ call :: todo) (hfits : call.Fits)
    (hdata : call.1.hasData = true) (hcommand : s.command = call.1.commandid)
    (hgot : s.gotdatalen = 0) (hlen : s.datalen = 0) (hread : s.readdata = 0)
    (hbuf : s.data = none) (hinput : s.input = (call.2.length >>> 8) % 256 ::
      call.2.length % 256 :: (call.2 ++ todo.flatMap SlinkCall.encode))
    (hcut : s.chunks.headD 0 = 1 →
      (call.2.length >>> 8) % 256 ≠ 0 ∧ s.chunks.tail.headD 0 = 0) :
    (s.withCommand call.1).OnTrack expected := by
  rcases Nat.lt_trichotomy (s.chunks.headD 0) 1 with hchunk | hchunk | hchunk
  · have hempty := readLength_of_empty (by omega) (by omega : s.chunks.headD 0 = 0)
    rw [withCommand_of_readLength hdata hempty, if_neg Bool.false_ne_true]
    exact ⟨hfault, call :: todo, hexpected,
      .length hdata hcommand hgot hlen hread hbuf hinput⟩
  · obtain ⟨hhi, hnext⟩ := hcut hchunk
    rw [withCommand_of_readLength hdata (readLength_of_one hgot hinput hchunk), if_pos rfl]
    have hlt : 0 < ((call.2.length >>> 8) % 256) <<< 8 := by
      rw [Nat.shiftLeft_eq]
      exact Nat.mul_pos (Nat.pos_of_ne_zero hhi) (by decide)
    rw [withData_of_readData call.1 (readData_of_empty (hread ▸ hlt) hnext),
      if_neg Bool.false_ne_true]
    exact ⟨hfault, call :: todo, hexpected, .low hdata hcommand rfl rfl hread hbuf rfl⟩
  · rw [withCommand_of_readLength hdata (readLength_of_both hgot hinput hchunk), if_pos rfl]
    refine onTrack_withData hfault hexpected hdata hcommand rfl hfits.or_eq ?_
      (buffer_of_length hfits hbuf) rfl rfl
    exact hread

/-- After the upper byte alone the handler is called without its data, or there is no buffer. -/
theorem not_handed_withLength {expected : List SlinkCall} {s : Servlink} {call : SlinkCall}
    {todo : List SlinkCall} {hi lo : ℕ} {rest : List ℕ}
    (hexpected : expected = s.calls ++ call :: todo) (hne : call.2 ≠ [])
    (hdata : call.1.hasData = true) (hgot : s.gotdatalen = 0) (hread : s.readdata = 0)
    (hbuf : s.data = none) (hinput : s.input = hi :: lo :: rest) (hchunk : s.chunks.headD 0 = 1)
    (hcut : hi = 0 ∨ 0 < s.chunks.tail.headD 0) : ¬ (s.withCommand call.1).Handed expected := by
  rw [withCommand_of_readLength hdata (readLength_of_one hgot hinput hchunk), if_pos rfl]
  intro h
  by_cases hhi : hi = 0
  · rw [withData_of_readData call.1 (readData_of_le (by simp [hhi])), if_pos rfl] at h
    have hprefix : s.calls ++ [(call.1, s.data.getD [])] <+: s.calls ++ call :: todo :=
      hexpected ▸ h.calls
    rw [List.prefix_append_right_inj, List.cons_prefix_cons, hbuf] at hprefix
    exact hne (congrArg Prod.snd hprefix.1).symm
  · have hlt : 0 < hi <<< 8 := by
      rw [Nat.shiftLeft_eq]
      exact Nat.mul_pos (Nat.pos_of_ne_zero hhi) (by decide)
    have hfault : ((({ s with
        input := lo :: rest, chunks := s.chunks.tail, datalen := hi <<< 8, gotdatalen := 1 } :
        Servlink).withData call.1)).fault = some .noBuffer := by
      obtain ⟨j, hj⟩ : ∃ j, min (hi <<< 8) (s.chunks.tail.headD 0) = j + 1 :=
        ⟨_, (Nat.succ_pred_eq_of_pos (lt_min hlt (hcut.resolve_left hhi))).symm⟩
      simp only [withData, readData, hread, if_pos hlt, read, Nat.sub_zero, hj, List.take_succ_cons,
        hbuf, Bool.false_eq_true, if_false]
    rw [h.fault] at hfault
    cases hfault

theorem readCtrl_of_command {s : Servlink} {c : SlinkCommand} (hfault : s.fault = none)
    (hcommand : s.command = c.commandid) : s.readCtrl = s.withCommand c := by
  have hne : s.command ≠ 0 := hcommand ▸ c.commandid_ne_zero
  rw [readCtrl, hfault, if_neg (by decide), readCommand, if_neg hne, if_pos rfl,
    commandDef_commandid hcommand]

/-- The command `b` was read. -/
def gotCommand (s : Servlink) (b : ℕ) : Servlink :=
  { s with
    input := s.input.tail
    chunks := s.chunks.tail
    command := b
    datalen := 0
    gotdatalen := 0
    readdata := 0
    data := none }

theorem readCtrl_of_waiting {s : Servlink} (hfault : s.fault = none) (hcommand : s.command = 0)
    (hempty : s.input = [] ∨ s.chunks.headD 0 = 0) : s.readCtrl = { s with
      chunks := s.chunks.tail, gotdatalen := 0, datalen := 0, readdata := 0, data := none } := by
  have hread : s.input.take (min 1 (s.chunks.headD 0)) = [] ∧
      s.input.drop (min 1 (s.chunks.headD 0)) = s.input := by
    rcases hempty with hnil | hchunk
    · rw [hnil, List.take_nil, List.drop_nil]
      exact ⟨rfl, rfl⟩
    · rw [hchunk, Nat.min_zero]
      exact ⟨rfl, rfl⟩
  rw [readCtrl, hfault, if_neg (by decide), readCommand, if_pos hcommand]
  simp only [read, hread.1, hread.2, hfault, Bool.false_eq_true, if_false]

theorem readCtrl_of_read {s : Servlink} {c : SlinkCommand} {rest : List ℕ}
    (hfault : s.fault = none) (hcommand : s.command = 0) (hinput : s.input = c.commandid :: rest)
    (hchunk : s.chunks.headD 0 ≠ 0) :
    s.readCtrl = (s.gotCommand c.commandid).withCommand c := by
  have hone : min 1 (s.chunks.headD 0) = 1 := min_eq_left (Nat.one_le_iff_ne_zero.mpr hchunk)
  have hgot : s.readCommand = (s.gotCommand c.commandid, true) := by
    rw [readCommand, if_pos hcommand]
    simp only [read, hone, hinput, List.take_succ_cons, List.drop_one, gotCommand]
  rw [readCtrl, hfault, if_neg (by decide), hgot, if_pos rfl]
  simp only [commandDef_commandid (s := s.gotCommand c.commandid) rfl]

/-- A command without data. -/
theorem onTrack_withCommand {expected : List SlinkCall} {s : Servlink} {call : SlinkCall}
    {todo : List SlinkCall} (hfault : s.fault = none)
    (hexpected : expected = s.calls ++ call :: todo) (hfits : call.Fits)
    (hdata : call.1.hasData = false) (hlen : s.datalen = 0) (hbuf : s.data = none)
    (hinput : s.input = todo.flatMap SlinkCall.encode) :
    (s.withCommand call.1).OnTrack expected := by
  have hcalled : s.data.getD [] = call.2 := by
    rw [hbuf, hfits.data hdata]
    rfl
  rw [withCommand, hdata, if_neg Bool.false_ne_true, if_pos rfl,
    withData_of_readData call.1 (readData_of_le (by rw [hlen]; exact Nat.zero_le _)), if_pos rfl,
    hcalled]
  refine ⟨hfault, todo, ?_, .command rfl hinput⟩
  rw [hexpected, List.append_assoc]
  rfl

theorem SplitsLength.of_not {s : Servlink} {hi : ℕ} {chunks : List ℕ} (hcut : ¬ s.SplitsLength)
    (h : s.BeforeLength hi chunks) (hone : chunks.headD 0 = 1) :
    hi ≠ 0 ∧ chunks.tail.headD 0 = 0 := by
  by_contra hbad
  exact hcut ⟨hi, chunks, h, hone, by omega⟩

theorem beforeLength_gotCommand {s : Servlink} {c : SlinkCommand} {hi : ℕ} {rest : List ℕ}
    (hdata : c.hasData = true) (hcommand : s.command = 0)
    (hinput : s.input = c.commandid :: hi :: rest) (hchunk : s.chunks.headD 0 ≠ 0) :
    s.BeforeLength hi (s.gotCommand c.commandid).chunks := by
  obtain ⟨k, hk⟩ : ∃ k, s.chunks = (k + 1) :: s.chunks.tail := by
    rcases hchunks : s.chunks with _ | ⟨_ | k, chunks⟩
    · exact absurd (by rw [hchunks]; rfl) hchunk
    · exact absurd (by rw [hchunks]; rfl) hchunk
    · exact ⟨k, rfl⟩
  exact ⟨c, hdata, rest, .inr ⟨hcommand, hinput, k, hk⟩⟩

/-- What one call of `read_ctrl` keeps. -/
theorem OnTrack.readCtrl {expected : List SlinkCall} {s : Servlink} (h : s.OnTrack expected)
    (hfits : ∀ call ∈ expected, call.Fits) (hcut : ¬ s.SplitsLength) :
    s.readCtrl.OnTrack expected := by
  have hfault := h.fault
  obtain ⟨todo, hexpected, hwaits⟩ := h.waits
  cases hwaits with
  | command hcommand hinput =>
      by_cases hempty : s.input = [] ∨ s.chunks.headD 0 = 0
      · rw [readCtrl_of_waiting hfault hcommand hempty]
        exact ⟨hfault, todo, hexpected, .command hcommand hinput⟩
      obtain ⟨hne, hchunk⟩ := not_or.mp hempty
      obtain _ | ⟨call, todo⟩ := todo
      · exact absurd hinput hne
      have hcall : call.Fits := hfits call (by simp [hexpected])
      rw [List.flatMap_cons, SlinkCall.encode, List.cons_append] at hinput
      rw [readCtrl_of_read hfault hcommand hinput hchunk]
      by_cases hdata : call.1.hasData = true
      · rw [if_pos hdata, List.cons_append, List.cons_append] at hinput
        refine onTrack_withLength hfault hexpected hcall hdata rfl rfl rfl rfl rfl ?_ ?_
        · rw [gotCommand, hinput]
          rfl
        · exact SplitsLength.of_not hcut (beforeLength_gotCommand hdata hcommand hinput hchunk)
      · rw [if_neg hdata, List.nil_append] at hinput
        refine onTrack_withCommand hfault hexpected hcall (Bool.not_eq_true _ ▸ hdata) rfl rfl ?_
        rw [gotCommand, hinput]
        rfl
  | length hdata hcommand hgot hlen hread hbuf hinput =>
      rw [readCtrl_of_command hfault hcommand]
      exact onTrack_withLength hfault hexpected (hfits _ (by simp [hexpected])) hdata hcommand
        hgot hlen hread hbuf hinput
        (SplitsLength.of_not hcut ⟨_, hdata, _, .inl ⟨hcommand, hgot, hinput, rfl⟩⟩)
  | @low call todo hdata hcommand hgot hlen hread hbuf hinput =>
      have hcall : call.Fits := hfits call (by simp [hexpected])
      rw [readCtrl_of_command hfault hcommand]
      by_cases hchunk : s.chunks.headD 0 = 0
      · rw [withCommand_of_readLength hdata (readLength_of_empty (by omega) hchunk),
          if_neg Bool.false_ne_true]
        exact ⟨hfault, _, hexpected, .low hdata hcommand hgot hlen hread hbuf hinput⟩
      · rw [withCommand_of_readLength hdata (readLength_of_low hgot hinput hchunk), if_pos rfl]
        have hread' : s.readdata = ([] : List ℕ).length := hread
        refine onTrack_withData hfault hexpected hdata hcommand rfl ?_ hread' ?_ rfl rfl
        · change s.datalen ||| _ = _
          rw [hlen, hcall.or_eq]
        · change (if 0 < s.datalen ||| _ then _ else _) = _
          rw [hlen]
          exact buffer_of_length hcall hbuf
  | @data call todo left got hdata hcommand hgot hlen hread hbuf hsplit hleft hinput =>
      have hne : call.2 ≠ [] := by
        rw [hsplit]
        exact List.append_ne_nil_of_right_ne_nil _ hleft
      have hlength : s.readLength = (s, true) := if_neg (by omega)
      rw [readCtrl_of_command hfault hcommand, withCommand_of_readLength hdata hlength, if_pos rfl]
      exact onTrack_withData hfault hexpected hdata hcommand hgot hlen hread
        (by rw [hbuf, if_neg hne]) hsplit hinput

/-- A call of `read_ctrl` that gets half of a length goes wrong. -/
theorem OnTrack.not_handed_readCtrl {expected : List SlinkCall} {s : Servlink}
    (h : s.OnTrack expected) (hne : ∀ call ∈ expected, call.1.hasData = true → call.2 ≠ [])
    (hcut : s.SplitsLength) : ¬ s.readCtrl.Handed expected := by
  have hfault := h.fault
  obtain ⟨hi, chunks, ⟨c, hdata, rest, hbefore⟩, hone, hnext⟩ := hcut
  obtain ⟨todo, hexpected, hwaits⟩ := h.waits
  rcases hbefore with ⟨hc, hgot0, hhi, rfl⟩ | ⟨hc, hhi, k, hchunks⟩
  · cases hwaits with
    | command hcommand _ => exact absurd (hc.symm.trans hcommand) c.commandid_ne_zero
    | length hdata' hcommand hgot hlen hread hbuf hinput =>
        rw [readCtrl_of_command hfault hcommand]
        rw [hinput] at hhi
        obtain ⟨rfl, rfl⟩ := List.cons.inj hhi
        exact not_handed_withLength hexpected (hne _ (by simp [hexpected]) hdata') hdata' hgot
          hread hbuf hinput hone hnext
    | low _ _ hgot _ _ _ _ => omega
    | data _ _ _ hgot _ _ _ _ _ _ => omega
  · cases hwaits with
    | command hcommand hinput =>
        obtain _ | ⟨call, todo⟩ := todo
        · rw [hhi] at hinput
          cases hinput
        rw [hhi, List.flatMap_cons, SlinkCall.encode, List.cons_append] at hinput
        obtain ⟨hid, htail⟩ := List.cons.inj hinput
        obtain rfl : call.1 = c := SlinkCommand.commandid_injective hid.symm
        rw [if_pos hdata, List.cons_append, List.cons_append] at htail
        obtain ⟨rfl, rfl⟩ := List.cons.inj htail
        have hchunk : s.chunks.headD 0 ≠ 0 := by
          rw [hchunks]
          exact Nat.succ_ne_zero k
        have htailChunks : (s.gotCommand call.1.commandid).chunks = chunks := by
          rw [gotCommand, hchunks]
          rfl
        have hinput' : (s.gotCommand call.1.commandid).input = (call.2.length >>> 8) % 256 ::
            call.2.length % 256 :: (call.2 ++ todo.flatMap SlinkCall.encode) := by
          rw [gotCommand, hhi]
          rfl
        rw [readCtrl_of_read hfault hcommand hhi hchunk]
        exact not_handed_withLength hexpected (hne _ (by simp [hexpected]) hdata) hdata rfl rfl
          rfl hinput' (htailChunks ▸ hone) (htailChunks ▸ hnext)
    | length _ hcommand _ _ _ _ _ =>
        exact absurd (hcommand.symm.trans hc) (SlinkCommand.commandid_ne_zero _)
    | low _ hcommand _ _ _ _ _ =>
        exact absurd (hcommand.symm.trans hc) (SlinkCommand.commandid_ne_zero _)
    | data _ _ hcommand _ _ _ _ _ _ _ =>
        exact absurd (hcommand.symm.trans hc) (SlinkCommand.commandid_ne_zero _)

/-- There are as many reads to come that find something as bytes on the pipe. -/
def Fed (s : Servlink) : Prop := s.input.length ≤ s.chunks.countP (0 < ·)

/-- `k` reads lie between. -/
structure Later (k : ℕ) (s t : Servlink) : Prop where
  chunks : t.chunks = s.chunks.drop k
  fed : s.Fed → t.Fed

theorem Later.trans {j k : ℕ} {s t u : Servlink} (h : Later j s t) (h' : Later k t u) :
    Later (j + k) s u :=
  ⟨by rw [h'.chunks, h.chunks, List.drop_drop], fun hfed => h'.fed (h.fed hfed)⟩

theorem later_read (s : Servlink) {n : ℕ} (hn : 0 < n) : Later 1 s (s.read n).2 := by
  refine ⟨List.drop_one.symm, fun hfed => ?_⟩
  unfold Fed at hfed ⊢
  change (s.input.drop (min n (s.chunks.headD 0))).length ≤ s.chunks.tail.countP (0 < ·)
  rw [List.length_drop]
  rcases hchunks : s.chunks with _ | ⟨k, chunks⟩
  · rw [hchunks] at hfed
    exact (Nat.sub_le _ _).trans hfed
  · rw [hchunks, List.countP_cons] at hfed
    change s.input.length - min n k ≤ chunks.countP (0 < ·)
    by_cases hk : 0 < k
    · rw [if_pos (decide_eq_true hk)] at hfed
      omega
    · rw [if_neg (by simpa using hk)] at hfed
      omega

theorem later_readCommand (s : Servlink) :
    ∃ k, Later k s s.readCommand.1 ∧ (s.command = 0 → 0 < k) := by
  by_cases hcommand : s.command = 0
  · refine ⟨1, ?_, fun _ => Nat.one_pos⟩
    rw [readCommand, if_pos hcommand]
    extract_lets t
    have hread : Later 1 t (t.read 1).2 := t.later_read Nat.one_pos
    split
    · rename_i heq
      rw [heq] at hread
      exact ⟨hread.chunks, hread.fed⟩
    · rename_i heq
      rw [heq] at hread
      exact ⟨hread.chunks, hread.fed⟩
  · rw [readCommand, if_neg hcommand]
    exact ⟨0, ⟨rfl, id⟩, fun h => absurd h hcommand⟩

theorem later_readLength (s : Servlink) :
    ∃ k, Later k s s.readLength.1 ∧ (s.gotdatalen < 2 → 0 < k) := by
  by_cases hgot : s.gotdatalen < 2
  · refine ⟨1, ?_, fun _ => Nat.one_pos⟩
    have hread := s.later_read (Nat.sub_pos_of_lt hgot)
    rw [readLength, if_pos hgot]
    split
    · rename_i heq
      rw [heq] at hread
      exact hread
    · rename_i heq
      rw [heq] at hread
      split
      · split
        · exact ⟨hread.chunks, hread.fed⟩
        · exact ⟨hread.chunks, hread.fed⟩
      · exact ⟨hread.chunks, hread.fed⟩
  · rw [readLength, if_neg hgot]
    exact ⟨0, ⟨rfl, id⟩, fun h => absurd h hgot⟩

theorem later_readData (s : Servlink) :
    ∃ k, Later k s s.readData.1 ∧ (s.readdata < s.datalen → 0 < k) := by
  by_cases hlt : s.readdata < s.datalen
  · refine ⟨1, ?_, fun _ => Nat.one_pos⟩
    have hread := s.later_read (Nat.sub_pos_of_lt hlt)
    rw [readData, if_pos hlt]
    split
    · rename_i heq
      rw [heq] at hread
      exact hread
    · rename_i heq
      rw [heq] at hread
      split
      · exact ⟨hread.chunks, hread.fed⟩
      · exact ⟨hread.chunks, hread.fed⟩
  · rw [readData, if_neg hlt]
    exact ⟨0, ⟨rfl, id⟩, fun h => absurd h hlt⟩

theorem later_withData (s : Servlink) (c : SlinkCommand) :
    ∃ k, Later k s (s.withData c) ∧ (s.readdata < s.datalen → 0 < k) := by
  obtain ⟨k, hlater, hk⟩ := s.later_readData
  refine ⟨k, ?_, hk⟩
  rw [withData]
  split
  · exact ⟨hlater.chunks, hlater.fed⟩
  · exact hlater

theorem later_withCommand (s : Servlink) (c : SlinkCommand) :
    ∃ k, Later k s (s.withCommand c) ∧ (c.hasData = true → s.gotdatalen < 2 → 0 < k) := by
  rw [withCommand]
  split
  · obtain ⟨j, hlength, hj⟩ := s.later_readLength
    split
    · obtain ⟨k, hdata, -⟩ := s.readLength.1.later_withData c
      exact ⟨j + k, hlength.trans hdata, fun _ hgot => Nat.add_pos_left (hj hgot) k⟩
    · exact ⟨j, hlength, fun _ hgot => hj hgot⟩
  · rename_i hdata
    obtain ⟨k, hlater, -⟩ := s.later_withData c
    exact ⟨k, hlater, fun h => absurd h hdata⟩

/-- `read_ctrl` does read. -/
theorem OnTrack.later_readCtrl {expected : List SlinkCall} {s : Servlink}
    (h : s.OnTrack expected) : ∃ k, 0 < k ∧ Later k s s.readCtrl := by
  have hfault := h.fault
  obtain ⟨todo, -, hwaits⟩ := h.waits
  cases hwaits with
  | command hcommand hinput =>
      obtain ⟨j, hread, hj⟩ := s.later_readCommand
      rw [Servlink.readCtrl, hfault, if_neg (by decide)]
      dsimp only
      split
      · split
        · exact ⟨j, hj hcommand, hread.chunks, hread.fed⟩
        · rename_i c _
          obtain ⟨k, hlater, -⟩ := s.readCommand.1.later_withCommand c
          exact ⟨j + k, Nat.add_pos_left (hj hcommand) k, hread.trans hlater⟩
      · exact ⟨j, hj hcommand, hread⟩
  | length hdata hcommand hgot _ _ _ _ =>
      rw [readCtrl_of_command hfault hcommand]
      obtain ⟨k, hlater, hk⟩ := s.later_withCommand _
      exact ⟨k, hk hdata (by omega), hlater⟩
  | low hdata hcommand hgot _ _ _ _ =>
      rw [readCtrl_of_command hfault hcommand]
      obtain ⟨k, hlater, hk⟩ := s.later_withCommand _
      exact ⟨k, hk hdata (by omega), hlater⟩
  | @data call todo left got hdata hcommand hgot hlen hread hbuf hsplit hleft hinput =>
      have hlength : s.readLength = (s, true) := if_neg (by omega)
      have hpos := List.length_pos_iff.mpr hleft
      rw [readCtrl_of_command hfault hcommand, withCommand_of_readLength hdata hlength, if_pos rfl]
      obtain ⟨k, hlater, hk⟩ := s.later_withData call.1
      exact ⟨k, hk (by rw [hread, hlen, hsplit, List.length_append]; omega), hlater⟩

theorem OnTrack.run {expected : List SlinkCall} {s : Servlink} (h : s.OnTrack expected)
    (hfits : ∀ call ∈ expected, call.Fits) {n : ℕ}
    (hcut : ∀ m < n, ¬ (Servlink.readCtrl^[m] s).SplitsLength) :
    (Servlink.readCtrl^[n] s).OnTrack expected := by
  induction n with
  | zero => exact h
  | succ n ih =>
      rw [Function.iterate_succ_apply']
      exact (ih fun m hm => hcut m (by omega)).readCtrl hfits (hcut n n.lt_succ_self)

/-- The calls are right at every moment of a run exactly when no read gets half of a length. -/
theorem OnTrack.handed_run_iff {expected : List SlinkCall} {s : Servlink} (h : s.OnTrack expected)
    (hfits : ∀ call ∈ expected, call.Fits)
    (hne : ∀ call ∈ expected, call.1.hasData = true → call.2 ≠ []) :
    (∀ n, (Servlink.readCtrl^[n] s).Handed expected) ↔
      ∀ n, ¬ (Servlink.readCtrl^[n] s).SplitsLength := by
  constructor
  · intro hhanded n
    induction n using Nat.strong_induction_on with
    | _ n ih =>
        intro hsplits
        have hnext := hhanded (n + 1)
        rw [Function.iterate_succ_apply'] at hnext
        exact (h.run hfits ih).not_handed_readCtrl hne hsplits hnext
  · exact fun hcut n => (h.run hfits fun m _ => hcut m).handed

theorem OnTrack.later_run {expected : List SlinkCall} {s : Servlink} (h : s.OnTrack expected)
    (hfits : ∀ call ∈ expected, call.Fits)
    (hcut : ∀ n, ¬ (Servlink.readCtrl^[n] s).SplitsLength) (n : ℕ) :
    ∃ k, n ≤ k ∧ Later k s (Servlink.readCtrl^[n] s) := by
  induction n with
  | zero => exact ⟨0, le_rfl, rfl, id⟩
  | succ n ih =>
      obtain ⟨k, hk, hlater⟩ := ih
      obtain ⟨j, hj, hnext⟩ := (h.run hfits fun m _ => hcut m : OnTrack _ _).later_readCtrl
      rw [Function.iterate_succ_apply']
      exact ⟨k + j, by omega, hlater.trans hnext⟩

/-- With enough to read all calls are made. -/
theorem OnTrack.complete {expected : List SlinkCall} {s : Servlink} (h : s.OnTrack expected)
    (hfits : ∀ call ∈ expected, call.Fits)
    (hcut : ∀ n, ¬ (Servlink.readCtrl^[n] s).SplitsLength) (hfed : s.Fed) :
    (Servlink.readCtrl^[s.chunks.length] s).calls = expected := by
  obtain ⟨k, hk, hlater⟩ := h.later_run hfits hcut s.chunks.length
  have hleft := hlater.fed hfed
  rw [Fed, hlater.chunks, List.drop_eq_nil_of_le hk, List.countP_nil, Nat.le_zero,
    List.length_eq_zero_iff] at hleft
  exact (h.run hfits fun m _ => hcut m).handed.done hleft

end Servlink

end Unirc
