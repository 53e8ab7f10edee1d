import Unirc.LocalJoin
import Unirc.Parse

/-!
# Forwarded joins

A join with a forward channel calls `m_join` again, with the caller's parameter array one
element further on: it writes the forward channel behind its own parameters and finds its
keys behind that. The calls are followed with the array and with what they read of it.
-/

namespace Unirc

open MemberFlag SimpleMode

/-- What is read: the list of channels, the list of keys, and the key for the `i`-th
channel that a call enters. -/
inductive ParamRead where
  | chans (index : ℕ) (origin : Origin)
  | keys (index : ℕ) (origin : Origin)
  | key (depth i : ℕ) (used : Option Str)
  deriving DecidableEq

structure JoinState where
  server : Server
  para : ℕ → Param
  log : List ParamRead

/-- The tests at the beginning of `m_join`. -/
def Server.listRefused (s : Server) (a : ℕ) (chans : Str) : Bool :=
  (s.client? a).all fun source => decide (chans = [] ∨ (source.gringo = true ∧
    source.myClient = true ∧ matchMask "#Help".toList chans = false))

/-- The channels behind the last `0`, which has all channels left. -/
def Server.afterZero (s : Server) (a : ℕ) (chans : Str) : Server :=
  if (last0 false chans).isSome then s.doJoin0 a else s

def listTokens (chans : Str) : List Str := commaTokens ((last0 false chans).getD chans)

namespace JoinState

variable (st : JoinState)

def note (x : ParamRead) : JoinState := { st with log := st.log ++ [x] }

def write (i : ℕ) (p : Param) : JoinState := { st with para := Function.update st.para i p }

/-- The first key is cut off in place. -/
def cutKeys (d : ℕ) : JoinState :=
  st.write (d + 2) ⟨(st.para (d + 2)).origin, (st.para (d + 2)).text.map (·.takeWhile (· ≠ ','))⟩

/-- The parameters of the call for a forward channel. -/
def pass (d : ℕ) (name text : Str) : JoinState :=
  (st.write (d + 1) ⟨.name, some name⟩).write (d + 2) ⟨.copy, some text⟩

/-- Free the copy of the forward channel, which may still be in the array; `junk` is what
is found there then. -/
def release (d : ℕ) (junk : Option Str) : JoinState :=
  if (st.para (d + 2)).origin = .copy then st.write (d + 2) ⟨.freed, junk⟩ else st

end JoinState

variable (cfg : Config) (now : ℤ) (splitmode : Bool) (a : ℕ) (junk : Option Str)

/-- The loop of `m_join` in a call whose `parv` is the array from `d` on. -/
def enterLoop (forward : JoinState → Option JoinState) (d : ℕ) :
    ℕ → List Str → Option Str → JoinState → Option JoinState
  | _, [], _, st => some st
  | i, chan :: chans, keyList, st =>
      match st.server.client? a with
      | none => some st
      | some source =>
          let key := (takeKey keyList).1
          let st := st.note (.key d i key)
          match st.server.joinChannel cfg now splitmode a source chan key with
          | (s, .stop) => some { st with server := s }
          | (s, .next) => enterLoop forward d (i + 1) chans (takeKey keyList).2
              { st with server := s }
          | (s, .joined text) =>
              if text = [] then
                enterLoop forward d (i + 1) chans (takeKey keyList).2 { st with server := s }
              else
                (forward (({ st with server := s } : JoinState).pass d source.name.val text)).bind
                  fun st => enterLoop forward d (i + 1) chans (takeKey keyList).2
                    (st.release d junk)

/-- `m_join` with the array from `d` on, with room for `depth` nested calls. -/
def enterList : ℕ → ℕ → JoinState → Option JoinState
  | 0, _, _ => none
  | depth + 1, d, st =>
      let list := st.para (d + 1)
      let chans := list.text.getD []
      let st := st.note (.chans (d + 1) list.origin)
      if st.server.listRefused a chans then some st
      else
        let keys := st.para (d + 2)
        let st := st.note (.keys (d + 2) keys.origin)
        let st := { st with server := st.server.afterZero a chans }
        let st := if listTokens chans = [] then st else st.cutKeys d
        enterLoop cfg now splitmode a junk (enterList depth (d + 1)) d 0 (listTokens chans)
          keys.text st

/-- The same without the array: the calls for forward channels have no keys. -/
def givenLoop (forward : Str → Server → Option Server) :
    List Str → Option Str → Server → Option Server
  | [], _, s => some s
  | chan :: chans, keyList, s =>
      match s.client? a with
      | none => some s
      | some source =>
          match s.joinChannel cfg now splitmode a source chan (takeKey keyList).1 with
          | (s, .stop) => some s
          | (s, .next) => givenLoop forward chans (takeKey keyList).2 s
          | (s, .joined text) =>
              if text = [] then givenLoop forward chans (takeKey keyList).2 s
              else (forward text s).bind (givenLoop forward chans (takeKey keyList).2)

/-- A join in which the calls for forward channels are nested less than `depth` deep, and
none when they are deeper. -/
def givenJoin : ℕ → Str → Option Str → Server → Option Server
  | 0, _, _, _ => none
  | depth + 1, chans, keys, s =>
      if s.listRefused a chans then some s
      else givenLoop cfg now splitmode a (fun text => givenJoin depth text none)
        (listTokens chans) keys (s.afterZero a chans)

/-- The key that the user gave for the `i`-th channel, where an empty one is none. -/
def keyAt (keys : Option Str) (i : ℕ) : Option Str :=
  (((keys.getD []).splitOn ',')[i]?).filter (· ≠ [])

/-- What a call may read: parameters of the message and the NULL behind them, the channels
that it was called for, and the key that the user gave for a channel. -/
def ParamRead.Allowed (parc : ℕ) (keys : Option Str) : ParamRead → Prop
  | .chans index origin => index ≤ parc ∧ index ≤ MAXPARA ∧ (origin = .message ∨ origin = .copy)
  | .keys index origin => index ≤ parc ∧ index ≤ MAXPARA ∧ origin = .message
  | .key depth i used => used = none ∨ (depth = 0 ∧ used = keyAt keys i)

/-- JOIN with the parameters of a message. -/
def joinStart (s : Server) (params : List Str) (old : ℕ → Option Str) (name : Str) : JoinState :=
  ⟨s, paraArray params old name, []⟩

/-- The join ends, and it reads what it may. -/
def ForwardsBounded (s : Server) (params : List Str) (old : ℕ → Option Str) (name : Str) : Prop :=
  ∃ depth st, enterList cfg now splitmode a junk depth 0 (joinStart s params old name) = some st ∧
    ∀ x ∈ st.log, x.Allowed (params.length + 1) params[1]?

/-- How deep calls may nest: with one parameter of keys the NULL behind it is left for the
first forward channels, which have no forward of their own then. -/
def nesting (params : List Str) : ℕ := if params.length = 2 then 2 else 1

end Unirc
