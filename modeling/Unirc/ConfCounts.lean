import Unirc.Chars
import Unirc.RefCount

/-!
# Reference counts of the configuration

`attach_conf` and `detach_conf` of `s_conf.c`, and what a rehash does to items and classes:
`clear_out_old_conf`, the class and item blocks of the parser, and `check_class`. What would read
freed memory is `none`.
-/

namespace Unirc

inductive ConfKind
  | client | oper | server | hub | leaf
  deriving DecidableEq

namespace ConfKind

/-- The item has an `AccessItem`; the others have a `MatchItem`. -/
def isAccess : ConfKind → Bool
  | client | oper | server => true
  | hub | leaf => false

end ConfKind

/-- A `ConfItem` that clients attach. `count` is the `clients` of an `AccessItem` and the
`ref_count` of a `MatchItem`. An illegal item is on no list. -/
structure ConfItem where
  kind : ConfKind
  count : ℤ
  illegal : Bool
  classPtr : Option ℕ
  deriving DecidableEq

structure ConfClass where
  name : Str
  currUserCount : ℤ
  active : Bool

/-- Items and classes by address, and `confs` of each client. The addresses from `next` on were
never used. -/
structure ConfCounts (κ : Type*) where
  items : ℕ → Option ConfItem
  classes : ℕ → Option ConfClass
  classItems : List ℕ
  confs : κ → List ℕ
  next : ℕ

namespace ConfCounts

open RefCount

variable {κ : Type*} [DecidableEq κ] (s : ConfCounts κ)

def classDefault : ℕ := 0

/-- `init_class`. -/
def start : ConfCounts κ where
  items := fun _ => none
  classes := Function.update (fun _ => none) classDefault
    (some ⟨['d', 'e', 'f', 'a', 'u', 'l', 't'], 0, true⟩)
  classItems := [classDefault]
  confs := fun _ => []
  next := 1

def setItem (a : ℕ) (conf : Option ConfItem) : ConfCounts κ :=
  { s with items := Function.update s.items a conf }

def setClass (c : ℕ) (aclass : ConfClass) : ConfCounts κ :=
  { s with classes := Function.update s.classes c (some aclass) }

/-- `delete_conf_item` of a class. -/
def deleteClass (c : ℕ) : ConfCounts κ :=
  { s with classes := Function.update s.classes c none, classItems := s.classItems.erase c }

/-- The answers of `attach_conf` that leave everything as it was. `tooMany` is the answer of
`cidr_limit_reached`. -/
def refused (conf : ConfItem) (tooMany : Bool) : Bool :=
  conf.kind.isAccess && (conf.illegal || conf.kind == .client && tooMany)

def attachConf (k : κ) (a : ℕ) (tooMany : Bool) : Option (ConfCounts κ) :=
  if a ∈ s.confs k then some s
  else (s.items a).bind fun conf =>
    if refused conf tooMany then some s
    else
      let attached := { s with
        items := Function.update s.items a (some { conf with count := conf.count + 1 })
        confs := hold s.confs k a }
      if conf.kind.isAccess then
        conf.classPtr.bind fun c => (s.classes c).map fun aclass =>
          attached.setClass c { aclass with currUserCount := aclass.currUserCount + 1 }
      else some attached

def releaseClass (c : ℕ) : Option (ConfCounts κ) :=
  (s.classes c).map fun aclass =>
    if aclass.currUserCount - 1 = 0 ∧ aclass.active = false then s.deleteClass c
    else s.setClass c { aclass with currUserCount := aclass.currUserCount - 1 }

def releaseAccess (a : ℕ) (conf : ConfItem) : ConfCounts κ :=
  if conf.count - 1 = 0 ∧ conf.illegal = true then s.setItem a none
  else s.setItem a (some { conf with count := conf.count - 1 })

/-- The switch of `detach_conf`. -/
def release (a : ℕ) (conf : ConfItem) : Option (ConfCounts κ) :=
  if conf.kind.isAccess then
    match conf.classPtr with
    | none => some (s.releaseAccess a conf)
    | some c => (s.releaseClass c).map fun s => s.releaseAccess a conf
  else some (if conf.count = 0 ∧ conf.illegal = true then s.setItem a none else s)

/-- The loop of `detach_conf`, on the items that are left. `none` as the type is `CONF_TYPE`. -/
def detachLoop (type : Option ConfKind) (k : κ) : List ℕ → ConfCounts κ → Option (ConfCounts κ)
  | [], s => some s
  | a :: as, s => (s.items a).bind fun conf =>
      if type = none ∨ type = some conf.kind then
        (release { s with confs := drop s.confs k a } a conf).bind fun s =>
          if type = none then detachLoop type k as s else some s
      else detachLoop type k as s

def detachConf (k : κ) (type : Option ConfKind) : Option (ConfCounts κ) :=
  detachLoop type k (s.confs k) s

/-- `clear_out_old_conf` and `clear_out_address_conf` of one item; `none` frees it. -/
def clearItem (conf : ConfItem) : Option ConfItem :=
  if conf.illegal then some conf
  else if conf.kind.isAccess then
    if conf.count ≠ 0 then some { conf with illegal := true } else none
  else if conf.count ≤ 0 then none else some { conf with illegal := true }

/-- The last class is the default one and stays active. -/
def clearOutOldConf : ConfCounts κ :=
  { s with
    items := fun a => (s.items a).bind clearItem
    classes := fun c => (s.classes c).map fun aclass =>
      if c ∈ s.classItems.dropLast then { aclass with active := false } else aclass }

/-- `find_exact_name_conf` of a class. -/
def findExactClass (name : Str) : Option ℕ :=
  s.classItems.find? fun c => (s.classes c).any fun aclass =>
    !aclass.name.isEmpty && !irccmp aclass.name name

/-- A class block with a name. -/
def classEntry (name : Str) : ConfCounts κ :=
  match s.findExactClass name with
  | some c =>
      { s with
        classes := Function.update s.classes c
          ((s.classes c).map fun aclass => { aclass with name := name, active := true }) }
  | none =>
      { s with
        classes := Function.update s.classes s.next (some ⟨name, 0, true⟩)
        classItems := s.next :: s.classItems
        next := s.next + 1 }

def findClass (name : Str) : ℕ := (s.findExactClass name).getD classDefault

/-- The class that `conf_add_class_to_conf` gives an item. -/
def confClass (className : Option Str) : ℕ :=
  let c := (className.map s.findClass).getD classDefault
  if (s.classes c).any (·.active) then c else classDefault

/-- A block that makes an item. -/
def confEntry (block : ConfKind × Option Str) : ConfCounts κ :=
  { s with
    items := Function.update s.items s.next (some
      { kind := block.1
        count := 0
        illegal := false
        classPtr := if block.1.isAccess then some (s.confClass block.2) else none })
    next := s.next + 1 }

def checkClass : ConfCounts κ :=
  let kept (aclass : ConfClass) : Bool := aclass.active || aclass.currUserCount != 0
  { s with
    classes := fun c => (s.classes c).filter kept
    classItems := s.classItems.filter fun c => (s.classes c).any kept }

/-- The classes and the items of a configuration, in the order of the file. -/
structure ConfFile where
  classes : List Str
  blocks : List (ConfKind × Option Str)

/-- `read_conf_files`. The classes are read in a first pass. -/
def readConf (file : ConfFile) : ConfCounts κ :=
  (file.blocks.foldl confEntry (file.classes.foldl classEntry s.clearOutOldConf)).checkClass

inductive Event (κ : Type*)
  | attach (k : κ) (a : ℕ) (tooMany : Bool)
  | detach (k : κ) (type : Option ConfKind)
  | rehash (file : ConfFile)

def step : Event κ → Option (ConfCounts κ)
  | .attach k a tooMany => s.attachConf k a tooMany
  | .detach k type => s.detachConf k type
  | .rehash file => some (s.readConf file)

/-- What is attached was found in the configuration. -/
def Possible : Event κ → Prop
  | .attach _ a _ => (s.items a).isSome
  | .detach .. | .rehash _ => True

def classIn (items : ℕ → Option ConfItem) (a : ℕ) : Option ℕ := (items a).bind (·.classPtr)

/-- The class that a client has attached with an item. -/
def classOf (a : ℕ) : Option ℕ := classIn s.items a

/-- No client gets a second item of a class, and no call takes a hub or leaf item off a client. -/
def Tracked : Event κ → Prop
  | .attach k a tooMany => ∀ conf, s.items a = some conf → refused conf tooMany = false →
      ∀ c, conf.classPtr = some c → ∀ b ∈ s.confs k, s.classOf b = some c → b = a
  | .detach k type => ∀ a ∈ s.confs k, ∀ conf, s.items a = some conf → conf.kind.isAccess = false →
      type ≠ none ∧ type ≠ some conf.kind
  | .rehash _ => True

/-- The states that events can lead to. -/
inductive Reach (allowed : ConfCounts κ → Event κ → Prop) : ConfCounts κ → Prop
  | start : Reach allowed start
  | step {s s' : ConfCounts κ} {e : Event κ} : Reach allowed s → allowed s e → s.step e = some s' →
      Reach allowed s'

variable [Fintype κ]

/-- The counts are the numbers of clients, what a client has is allocated, and an illegal item is
one that some client has. -/
structure Counted : Prop where
  items : ∀ a conf, s.items a = some conf → conf.count = holders s.confs (· = a)
  classes : ∀ c aclass, s.classes c = some aclass →
    aclass.currUserCount = holders s.confs fun a => s.classOf a = some c
  allocated : ∀ k, ∀ a ∈ s.confs k, (s.items a).isSome
  illegal : ∀ a conf, s.items a = some conf → conf.illegal = true → ∃ k, a ∈ s.confs k

/-- The step frees an illegal item if and only if no client has it any more. -/
def FreedAtZero (s s' : ConfCounts κ) : Prop :=
  ∀ a conf, s.items a = some conf → conf.illegal = true →
    (s'.items a = none ↔ holders s'.confs (· = a) = 0)

end ConfCounts

end Unirc
