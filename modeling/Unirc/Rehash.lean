import Mathlib.Data.Finset.Insert
import Unirc.TempBans

/-!
# Clearing the configuration

`clear_out_old_conf` of `s_conf.c` with `clear_out_address_conf` of `hostmask.c` and `clear_conf_resv`
of `resv.c`, which a rehash runs before it reads the configuration again, and how items come to be
loaded and temporary bans to be placed.
-/

namespace Unirc

/-- The types of items that the lists and the address table hold. -/
inductive RehashType
  | server | oper | hub | leaf | uline | cluster | gdeny | client | exemptDline
  | ban (t : TempType)
  deriving DecidableEq

namespace RehashType

/-- The items of the type are in the address table. -/
def isAddress : RehashType → Bool
  | client | exemptDline => true
  | ban t => t.isAddress
  | _ => false

/-- The status that `add_conf_by_address` gets. -/
def status : RehashType → U32
  | client => 0x00000002
  | exemptDline => 0x00004000
  | ban t => t.status
  | _ => 0

/-- `free_items`. -/
def freeItems : List RehashType :=
  [server, oper, hub, leaf, uline, ban .xline, ban .rxline, ban .rkline, ban .nresv, cluster, gdeny]

/-- Clients attach items of the type. -/
def attached : RehashType → Bool
  | server | oper | hub | leaf | client => true
  | _ => false

end RehashType

structure RehashItem where
  type : RehashType
  access : AccessItem
  name : Str

/-- The configuration, by the address of each `ConfItem`. `confItems` has the list of each type, with
`resv_channel_list`; `flagged` has `CONF_FLAGS_TEMPORARY`, and `count` is `clients` or `ref_count`.
An address in `made` was allocated. -/
structure RehashConf where
  table : ConfTable
  confItems : RehashType → List ℕ
  resvTable : HashChain.Table ℕ ℕ
  temporary : TempList → List ℕ
  flagged : Finset ℕ
  illegal : Finset ℕ
  count : ℕ → ℕ
  made : Finset ℕ
  freed : Finset ℕ

namespace RehashConf

variable (randomKey : U32) (item : ℕ → RehashItem)

def start : RehashConf :=
  ⟨ConfTable.init, fun _ => [], fun _ => [], fun _ => [], ∅, ∅, fun _ => 0, ∅, ∅⟩

def free (s : RehashConf) (a : ℕ) : RehashConf := { s with freed := insert a s.freed }

/-- `dlinkDelete` from the list of a type. -/
def unlinkItem (s : RehashConf) (t : RehashType) (a : ℕ) : RehashConf :=
  { s with confItems := Function.update s.confItems t ((s.confItems t).erase a) }

/-- `dlinkFindDelete(&temporary_resv, conf)`, for an item with the flag. -/
def findDeleteResv (s : RehashConf) (a : ℕ) : RehashConf :=
  if a ∈ s.flagged then
    { s with temporary := Function.update s.temporary .resv ((s.temporary .resv).erase a) }
  else s

def setIllegal (s : RehashConf) (a : ℕ) : RehashConf := { s with illegal := insert a s.illegal }

def deleteConfItem (s : RehashConf) (a : ℕ) : RehashConf :=
  match (item a).type with
  | .client | .exemptDline | .ban .gline | .ban .kline | .ban .dline => s.free a
  | .server | .oper | .hub | .leaf =>
      if a ∈ s.illegal then s.free a else (s.unlinkItem (item a).type a).free a
  | .ban .nresv => ((s.unlinkItem (.ban .nresv) a).findDeleteResv a).free a
  | .ban .cresv => (s.findDeleteResv a).free a
  | t => (s.unlinkItem t a).free a

/-- The body of the loop over `free_items`. -/
def clearItem (s : RehashConf) (a : ℕ) : RehashConf :=
  match (item a).type with
  | .server | .oper =>
      if s.count a ≠ 0 then (s.setIllegal a).unlinkItem (item a).type a else s.deleteConfItem item a
  | .client => if s.count a ≠ 0 then s.setIllegal a else s.deleteConfItem item a
  | .ban .xline | .ban .rxline | .ban .rkline =>
      if a ∈ s.flagged then s else s.deleteConfItem item a
  | .hub | .leaf =>
      if s.count a = 0 then s.deleteConfItem item a
      else (s.setIllegal a).unlinkItem (item a).type a
  | _ => s.deleteConfItem item a

def clearLists (s : RehashConf) : RehashConf :=
  RehashType.freeItems.foldl (fun s t => (s.confItems t).foldl (clearItem item) s) s

/-- The walk along a chain of the address table, with what is left of the chain. -/
def clearChain : RehashConf → List AddressRec → RehashConf × List AddressRec
  | s, [] => (s, [])
  | s, arec :: arecs =>
      if arec.aconf ∈ s.flagged then
        let r := clearChain s arecs
        (r.1, arec :: r.2)
      else
        let s := s.setIllegal arec.aconf
        clearChain (if s.count arec.aconf = 0 then s.deleteConfItem item arec.aconf else s) arecs

def clearOutAddressConf (s : RehashConf) : RehashConf :=
  (List.range ATABLE_SIZE).foldl (fun s i =>
    let r := s.clearChain item (s.table.atable i)
    { r.1 with table := { r.1.table with atable := Function.update r.1.table.atable i r.2 } }) s

def deleteChannelResv (s : RehashConf) (a : ℕ) : RehashConf :=
  let s := { s with
    resvTable := HashChain.unlink s.resvTable (strhash randomKey (item a).name) (· == a) }
  (s.unlinkItem (.ban .cresv) a).deleteConfItem item a

def clearConfResv (s : RehashConf) : RehashConf :=
  (s.confItems (.ban .cresv)).foldl (deleteChannelResv randomKey item) s

def clearOutOldConf (s : RehashConf) : RehashConf :=
  ((s.clearLists item).clearOutAddressConf item).clearConfResv randomKey item

/-- `make_conf_item`, and `create_channel_resv` for a channel. -/
def makeItem (s : RehashConf) (a : ℕ) : RehashConf :=
  let s := { s with made := insert a s.made }
  if (item a).type.isAddress then s
  else
    let s := { s with
      confItems := Function.update s.confItems (item a).type (a :: s.confItems (item a).type) }
    if (item a).type = .ban .cresv then
      { s with resvTable := HashChain.insert s.resvTable (strhash randomKey (item a).name) a }
    else s

def addConfByAddress (s : RehashConf) (a : ℕ) : RehashConf :=
  { s with table :=
      s.table.addConfByAddress (fun a => (item a).access) (item a).type.status a }

/-- A permanent item is loaded. -/
def load (s : RehashConf) (a : ℕ) : RehashConf :=
  let s := s.makeItem randomKey item a
  if (item a).type.isAddress then s.addConfByAddress item a else s

/-- A temporary ban is made, and `add_temp_line`. -/
def addTempLine (s : RehashConf) (a : ℕ) (t : TempType) : RehashConf :=
  let s := s.makeItem randomKey item a
  let s := { s with
    flagged := insert a s.flagged
    temporary := Function.update s.temporary t.list (a :: s.temporary t.list) }
  if t.isAddress then s.addConfByAddress item a else s

def attach (s : RehashConf) (a : ℕ) : RehashConf :=
  { s with count := Function.update s.count a (s.count a + 1) }

/-- The states that loading, placing temporary bans, attaching clients and clearing lead to. -/
inductive Reachable : RehashConf → Prop
  | start : Reachable start
  | load {s : RehashConf} {a : ℕ} : Reachable s → a ∉ s.made →
      Reachable (s.load randomKey item a)
  | addTempLine {s : RehashConf} {a : ℕ} {t : TempType} : Reachable s → a ∉ s.made →
      (item a).type = .ban t → Reachable (s.addTempLine randomKey item a t)
  | attach {s : RehashConf} {a : ℕ} : Reachable s → (item a).type.attached = true →
      Reachable (s.attach a)
  | clear {s : RehashConf} : Reachable s → Reachable (s.clearOutOldConf randomKey item)

end RehashConf

end Unirc
