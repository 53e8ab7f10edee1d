import Mathlib.Logic.Function.Basic
import Unirc.Runs
import Unirc.SlotArray

/-!
# The poll table

`s_bsd_poll.c` with `fd_open`, `fd_close` and `lookup_fd` of `fdlist.c`. What a handler does is left
open: a pass of `comm_select` stops where it calls one, any of the routines may be called then, and
the pass goes on when the handler returns.
-/

namespace Unirc

def POLLIN : ℕ := 0x001
def POLLOUT : ℕ := 0x004
def POLLERR : ℕ := 0x008
def POLLHUP : ℕ := 0x010
def POLLRDNORM : ℕ := 0x040
def POLLWRNORM : ℕ := 0x100

/-- A `struct pollfd`, free where `fd` is `-1`. -/
structure PollFd where
  fd : ℤ
  events : ℕ
  revents : ℕ
  deriving DecidableEq

def PollFd.used (slot : PollFd) : Bool := slot.fd != -1

/-- The place of an `fde_t` in memory. -/
abbrev FdePtr := ℕ

/-- A handler with its data. -/
abbrev PF := ℕ

inductive PollKind where
  | read | write
  deriving DecidableEq

/-- What the poll table needs of an `fde_t`. -/
structure FdeT where
  fd : ℕ
  commIndex : ℤ
  evcache : ℕ
  readHandler : Option PF
  writeHandler : Option PF
  isOpen : Bool
  isSocket : Bool
  deriving DecidableEq

namespace FdeT

/-- After `memset`. -/
def cleared : FdeT := ⟨0, 0, 0, none, none, false, false⟩

def newEvents (f : FdeT) : ℕ :=
  (if f.readHandler.isSome then POLLRDNORM else 0) |||
    (if f.writeHandler.isSome then POLLWRNORM else 0)

def setHandlers (f : FdeT) (rd wr : Bool) (handler : Option PF) : FdeT :=
  let f := if rd then { f with readHandler := handler } else f
  if wr then { f with writeHandler := handler } else f

/-- A handler is taken off before it is called. -/
def takeHandler (f : FdeT) : PollKind → FdeT
  | .read => { f with readHandler := none }
  | .write => { f with writeHandler := none }

/-- A registered interest. -/
def Wanted (f : FdeT) : Prop := f.readHandler.isSome = true ∨ f.writeHandler.isSome = true

end FdeT

/-- Where `comm_select` called a handler: its variables `ci`, `num`, `revents`, `F` and `hdl`. -/
structure PollPass where
  ci : ℕ
  num : ℕ
  revents : ℕ
  F : FdePtr
  kind : PollKind
  hdl : PF

/-- What happens in a pass to the descriptor that was opened in `F` as the one of number `gen`. -/
inductive PollEntry where
  | called (F : FdePtr) (gen : ℕ) (kind : PollKind)
  | closed (F : FdePtr) (gen : ℕ)
  deriving DecidableEq

/-- The table with all the `fde_t`, where `gen` counts how often each was opened, and `fault` says
that an assertion failed or an index was out of range. -/
structure PollWorld where
  fde : FdePtr → FdeT
  fdHash : List FdePtr
  pollfds : List PollFd
  pollmax : ℤ
  hardFdlimit : ℕ
  fault : Bool
  pass : Option PollPass
  gen : FdePtr → ℕ
  trace : List PollEntry

namespace PollWorld

/-- `init_netio` with nothing open. -/
def initNetio (hardFdlimit : ℕ) : PollWorld where
  fde _ := .cleared
  fdHash := []
  pollfds := List.replicate hardFdlimit ⟨-1, 0, 0⟩
  pollmax := -1
  hardFdlimit := hardFdlimit
  fault := false
  pass := none
  gen _ := 0
  trace := []

def put (w : PollWorld) (F : FdePtr) (f : FdeT) : PollWorld :=
  { w with fde := Function.update w.fde F f }

def modifySlot (w : PollWorld) (i : ℤ) (f : PollFd → PollFd) : PollWorld :=
  if 0 ≤ i ∧ i.toNat < w.pollfds.length then { w with pollfds := w.pollfds.modify i.toNat f }
  else { w with fault := true }

/-- None where the assertion fails. -/
def pollFindslot (w : PollWorld) : Option ℕ := w.pollfds.findIdx? fun slot => slot.fd == -1

/-- The branch of `comm_setselect` for no events. -/
def giveSlot (w : PollWorld) (i : ℤ) : PollWorld :=
  let w := w.modifySlot i fun slot => { slot with fd := -1, revents := 0 }
  if w.pollmax = i then
    { w with pollmax := SlotArray.lower PollFd.used w.pollfds (w.pollmax + 1).toNat }
  else w

/-- The other branch: a descriptor without a slot takes one. -/
def takeSlot (w : PollWorld) (F : FdePtr) (newEvents : ℕ) : PollWorld :=
  let f := w.fde F
  if f.evcache = 0 then
    match w.pollFindslot with
    | none => { w with fault := true }
    | some i =>
        let w := w.put F { f with commIndex := i }
        let w := { w with pollmax := if (i : ℤ) > w.pollmax then i else w.pollmax }
        w.modifySlot i fun _ => ⟨f.fd, newEvents, 0⟩
  else w.modifySlot f.commIndex fun slot => { slot with events := newEvents, revents := 0 }

def commSetselect (w : PollWorld) (F : FdePtr) (rd wr : Bool) (handler : Option PF) : PollWorld :=
  let f := (w.fde F).setHandlers rd wr handler
  let w := w.put F f
  if f.newEvents = f.evcache then w
  else
    let w := if f.newEvents = 0 then w.giveSlot f.commIndex else w.takeSlot F f.newEvents
    w.put F { w.fde F with evcache := f.newEvents }

def lookupFd (w : PollWorld) (fd : ℤ) : Option FdePtr :=
  w.fdHash.find? fun F => ((w.fde F).fd : ℤ) = fd

def fdOpen (w : PollWorld) (F : FdePtr) (fd : ℕ) (isSocket : Bool) : PollWorld :=
  { w.put F { w.fde F with fd := fd, commIndex := -1, isOpen := true, isSocket := isSocket } with
    fdHash := F :: w.fdHash
    gen := Function.update w.gen F (w.gen F + 1) }

def fdClose (w : PollWorld) (F : FdePtr) : PollWorld :=
  let w := if (w.fde F).isSocket then w.commSetselect F true true none else w
  { w.put F .cleared with
    fdHash := w.fdHash.erase F
    trace := w.trace ++ [.closed F (w.gen F)] }

/-- `MyRealloc` leaves in a slot beyond the old ones what `memory` holds there. -/
def changingFdlimit (w : PollWorld) (limit : ℕ) (memory : ℕ → PollFd) : PollWorld :=
  if limit ≠ w.hardFdlimit then
    { w with
      hardFdlimit := limit
      pollfds := (List.range limit).map fun i => (w.pollfds[i]?).getD (memory i) }
  else w

/-- The call of a handler. -/
def call (w : PollWorld) (p : PollPass) : PollWorld :=
  { w.put p.F ((w.fde p.F).takeHandler p.kind) with
    pass := some p
    trace := w.trace ++ [.called p.F (w.gen p.F) p.kind] }

def callRead (w : PollWorld) (p : PollPass) : Option PollWorld :=
  if p.revents &&& (POLLRDNORM ||| POLLIN ||| POLLHUP ||| POLLERR) ≠ 0 then
    (w.fde p.F).readHandler.map fun hdl => w.call { p with kind := .read, hdl := hdl }
  else none

def callWrite (w : PollWorld) (p : PollPass) : Option PollWorld :=
  if p.revents &&& (POLLWRNORM ||| POLLOUT ||| POLLHUP ||| POLLERR) ≠ 0 then
    (w.fde p.F).writeHandler.map fun hdl => w.call { p with kind := .write, hdl := hdl }
  else none

/-- The end of the loop's body. -/
def resync (w : PollWorld) (F : FdePtr) : PollWorld := w.commSetselect F false false none

/-- The loop from `ci` on, up to the next call of a handler or to its end. -/
def scan (w : PollWorld) (ci num : ℕ) : PollWorld :=
  if (ci : ℤ) ≤ w.pollmax ∧ 0 < num then
    match w.pollfds[ci]? with
    | none => { w with fault := true }
    | some slot =>
        if slot.revents = 0 ∨ slot.fd = -1 then w.scan (ci + 1) num
        else match w.lookupFd slot.fd with
          | none => w.scan (ci + 1) (num - 1)
          | some F =>
              if (w.fde F).isOpen = false then w.scan (ci + 1) (num - 1)
              else
                let p := PollPass.mk ci (num - 1) slot.revents F .read 0
                match w.callRead p with
                | some w' => w'
                | none =>
                    match w.callWrite p with
                    | some w' => w'
                    | none =>
                        let w' := w.resync F
                        if w'.fault then w' else w'.scan (ci + 1) (num - 1)
  else { w with pass := none }
  termination_by (num, (w.pollmax + 1 - ci).toNat)

/-- `comm_select` up to its first call of a handler, when `poll` reports `revents`. -/
def commSelect (w : PollWorld) (revents : ℕ → ℕ) : PollWorld :=
  let polled := w.pollfds.mapIdx fun i slot =>
    if (i : ℤ) ≤ w.pollmax then { slot with revents := if slot.fd < 0 then 0 else revents i }
    else slot
  let num := (polled.take (w.pollmax + 1).toNat).countP fun slot => slot.revents ≠ 0
  { w with pollfds := polled, trace := [] }.scan 0 num

/-- `comm_select` from the return of a handler on. -/
def handlerReturns (w : PollWorld) (p : PollPass) : PollWorld :=
  if (w.fde p.F).isOpen = false then w.scan (p.ci + 1) p.num
  else
    let called := match p.kind with
      | .read => w.callWrite p
      | .write => none
    match called with
    | some w' => w'
    | none =>
        let w' := w.resync p.F
        if w'.fault then w' else w'.scan (p.ci + 1) p.num

end PollWorld

/-- A routine that is called, within a handler or outside, a pass of `comm_select` with what `poll`
reports, or none where it fails, and the return of the handler that was called. -/
inductive PollEvent where
  | fdOpen (F : FdePtr) (fd : ℕ) (isSocket : Bool)
  | fdClose (F : FdePtr)
  | commSetselect (F : FdePtr) (rd wr : Bool) (handler : Option PF)
  | changingFdlimit (limit : ℕ) (memory : ℕ → PollFd)
  | commSelect (revents : Option (ℕ → ℕ))
  | handlerReturns

namespace PollWorld

/-- A call that can be made: an `fde_t` is opened when it is cleared, with a number that no other
has, and the other routines are for one that is open. -/
def Legal (w : PollWorld) : PollEvent → Prop
  | .fdOpen F fd _ => (w.fde F).isOpen = false ∧ ∀ G ∈ w.fdHash, (w.fde G).fd ≠ fd
  | .fdClose F => (w.fde F).isOpen = true
  | .commSetselect F _ _ _ => (w.fde F).isOpen = true
  | .changingFdlimit _ _ => True
  | .commSelect _ => w.pass = none
  | .handlerReturns => w.pass ≠ none

instance (w : PollWorld) : DecidablePred w.Legal
  | .fdOpen _ _ _ => inferInstanceAs (Decidable (_ ∧ _))
  | .fdClose _ => inferInstanceAs (Decidable (_ = _))
  | .commSetselect _ _ _ _ => inferInstanceAs (Decidable (_ = _))
  | .changingFdlimit _ _ => .isTrue trivial
  | .commSelect _ => decidable_of_iff (w.pass.isNone = true) Option.isNone_iff_eq_none
  | .handlerReturns => decidable_of_iff (w.pass.isSome = true) Option.isSome_iff_ne_none

def perform (w : PollWorld) : PollEvent → PollWorld
  | .fdOpen F fd isSocket => w.fdOpen F fd isSocket
  | .fdClose F => w.fdClose F
  | .commSetselect F rd wr handler => w.commSetselect F rd wr handler
  | .changingFdlimit limit memory => w.changingFdlimit limit memory
  | .commSelect revents => (revents.map w.commSelect).getD w
  | .handlerReturns => (w.pass.map w.handlerReturns).getD w

/-- Nothing happens after a fault, and only what can. -/
def step (w : PollWorld) (e : PollEvent) : PollWorld :=
  if w.fault = false ∧ w.Legal e then w.perform e else w

end PollWorld

end Unirc
