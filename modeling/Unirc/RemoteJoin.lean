import Unirc.ChannelJoin
import Unirc.SetFinalMode

/-!
# JOIN from another server

`ms_join` of `m_join.c` with the buffers of the module, which keep their
contents from one call to the next, and the MODE lines sent to local members.
-/

namespace Unirc

abbrev MODEBUFLEN : ℕ := 200
abbrev MAXMODEPARAMS : ℕ := 4

/-- `modebuf`, `parabuf` and `sendbuf` of `m_join.c`. -/
structure JoinBuffers where
  modebuf : Str
  parabuf : Str
  sendbuf : Str

/-- A line `":%s MODE %s %s"`. -/
structure ModeMessage where
  source : Str
  chname : Str
  text : Str
  deriving DecidableEq

namespace JoinBuffers

def init : JoinBuffers := ⟨[], [], []⟩

/-- What `set_final_mode` writes. Nothing is written to `parabuf` when there is no
parameter to print. -/
def final (b : JoinBuffers) (line : ModeLine) : JoinBuffers :=
  { b with
    modebuf := line.modebuf
    parabuf := if line.params = [] then b.parabuf else line.params.flatMap (· ++ [' ']) }

end JoinBuffers

/-- `strlcat` of a blank and a name to `sendbuf`. -/
def catName (sendbuf name : Str) : Str := (sendbuf ++ ' ' :: name).take (MODEBUFLEN - 1)

def removalText (letter : Char) (names : List Str) (sendbuf : Str) : Str :=
  '-' :: List.replicate names.length letter ++ sendbuf

/-- The loop of `remove_a_mode` over the names of the members that had the flag:
a line for every `MAXMODEPARAMS` names and one for the rest, and `sendbuf`. -/
def removalLoop (letter : Char) : List Str → Str → List Str → List Str × Str
  | pending, sendbuf, [] =>
      if pending = [] then ([], sendbuf)
      else
        let sendbuf := pending.foldl catName sendbuf
        ([removalText letter pending sendbuf], sendbuf)
  | pending, sendbuf, name :: names =>
      let pending := pending ++ [name]
      if MAXMODEPARAMS ≤ pending.length then
        let line := removalText letter pending (pending.foldl catName sendbuf)
        let (lines, sendbuf) := removalLoop letter [] [] names
        (line :: lines, sendbuf)
      else removalLoop letter pending sendbuf names

namespace Server

variable (s : Server)

/-- The members of a channel, each with its flags and name. -/
def roster (c : ℕ) : List (MemberFlags × Str) :=
  (s.members c).filterMap fun m => (s.graph.links m).bind fun r =>
    (s.client? r.left).map fun who => (r.label, who.name.val)

/-- The texts that `remove_our_modes` sends, and what it leaves in `sendbuf`. -/
def removalTexts (roster : List (MemberFlags × Str)) (sendbuf : Str) : List Str × Str :=
  ourModes.foldl (fun acc p =>
    let names := (roster.filter fun e => p.1 ∈ e.1).map Prod.snd
    let (lines, sendbuf) := removalLoop p.2 [] [] names
    (acc.1 ++ lines, sendbuf)) ([], sendbuf)

variable (cfg : Config)

/-- `ms_join` from the merge on, for a channel found or made. -/
def msJoinMerge (b : JoinBuffers) (a : ℕ) (source : Client) (newts : ℤ) (isnew : Bool) (c : ℕ)
    (ch : Channel) : Server × JoinBuffers × List ModeMessage :=
  let v := tsVerdict isnew (checkBogusTs cfg.ignoreBogusTs newts ch.channelts) ch.channelts
  let mode := v.merge Mode.zero ch.mode
  let b := b.final (Join.setFinalMode mode ch.mode)
  let s := s.updChannel c fun ch => { ch with channelts := v.channelts, mode := mode }
  let servername := if cfg.hideServers || source.hidden then cfg.meName else source.name.val
  let removal := if v.keepOurModes then ([], b.sendbuf)
    else removalTexts (s.roster c) b.sendbuf
  let s := if v.keepOurModes then s else s.removeOurModes c
  let texts := removal.1 ++ if b.modebuf = [] then [] else [b.modebuf ++ ' ' :: b.parabuf]
  let s := if s.isMember a c then s else s.addUserToChannel c a ∅
  (s, { b with sendbuf := removal.2 }, texts.map (ModeMessage.mk servername ch.chname.val))

/-- `ms_join` for the parameters behind the sender. -/
def msJoin (now : ℤ) (b : JoinBuffers) (a : ℕ) (parv : List Str) :
    Server × JoinBuffers × List ModeMessage :=
  match s.client? a, parv with
  | some _, [arg] => if irccmp arg ['0'] then (s, b, []) else (s.doJoin0 a, b, [])
  | some source, ts :: chname :: _ :: _ =>
      if chname.head? = some '&' ∨ checkChannelName false chname false = false then (s, b, [])
      else
        let (s', c, isnew) := s.findOrMake now chname
        match s'.channel? c with
        | some ch => s'.msJoinMerge cfg b a source (Decimal.atol ts) isnew c ch
        | none => (s, b, [])
  | _, _ => (s, b, [])

variable {s cfg}

theorem Inv.msJoinMerge {b : JoinBuffers} {a : ℕ} {source : Client} {newts : ℤ} {isnew : Bool}
    {c : ℕ} {ch : Channel} (h : s.Inv (some c)) (hc : (s.graph.listed .right c).isSome = true)
    (ha : (s.client? a).any Client.isClient = true) :
    (s.msJoinMerge cfg b a source newts isnew c ch).1.Inv none := by
  unfold Server.msJoinMerge
  extract_lets v mode b₁ s₁ servername removal s₂ texts s₃
  have hr : Relabels s s₂ := by
    have h₁ : Relabels s s₁ := Relabels.updChannel s c _
    refine h₁.trans ?_
    dsimp only [s₂]
    split
    · exact Relabels.refl s₁
    · exact Relabels.removeOurModes s₁ c
  have h₂ : s₂.Inv (some c) := h.relabel hr
  change s₃.Inv none
  dsimp only [s₃]
  split
  · rename_i hm
    exact h₂.settle_of_isMember hm
  · rename_i hm
    exact h₂.addUserToChannel (by simp) (hr.shape.listed _ _ ▸ hc) (hr.person_any a ▸ ha)
      (by simpa using hm) ∅

theorem Inv.msJoin {now : ℤ} {b : JoinBuffers} {a : ℕ} {parv : List Str} (h : s.Inv none)
    (ha : (s.client? a).all Client.isClient = true) : (s.msJoin cfg now b a parv).1.Inv none := by
  unfold Server.msJoin
  split
  · split
    · exact h
    · exact h.doJoin0 a
  · rename_i source ts chname _ _ hs
    split
    · exact h
    · cases hf : s.findOrMake now chname with
      | mk s' rest =>
        obtain ⟨hc, hs', hold⟩ := h.findOrMake now chname hf
        dsimp only
        split
        · refine hs'.msJoinMerge hc ?_
          have hcl := client?_findOrMake s now chname a
          rw [hf] at hcl
          rw [hcl]
          simpa [hs] using ha
        · exact h
  · exact h

end Server

end Unirc
