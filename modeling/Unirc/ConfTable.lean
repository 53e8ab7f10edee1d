import Unirc.HashChain
import Unirc.Hostmask
import Unirc.Match

/-!
# The table of access items

`add_conf_by_address`, `delete_one_address_conf` and `find_conf_by_address` of
`hostmask.c`. A record is filed under the hash of its address prefix, cut to
whole words, or of the domain behind the last wildcard of its host mask.
-/

namespace Unirc

abbrev ATABLE_SIZE : ℕ := 0x1000

/-- The fields of an access item that the table reads. -/
structure AccessItem where
  host : Str
  user : Str
  passwd : Option Str
  needPassword : Bool
  encrypted : Bool

inductive RecMask where
  | hostname (mask : Str)
  | ipv4 (addr : V4Addr) (bits : ℤ)
  | ipv6 (addr : V6Addr) (bits : ℤ)

/-- `aconf` is the address of the access item. -/
structure AddressRec where
  mask : RecMask
  type : U32
  precedence : BitVec 64
  username : Str
  aconf : ℕ

def hashIpv4 (addr : V4Addr) (bits : ℕ) : ℕ :=
  if bits ≠ 0 then
    let av := addr &&& v4Mask bits
    ((av ^^^ (av >>> 12) ^^^ (av >>> 24)) &&& 0xfff).toNat
  else 0

/-- The loop of `hash_ipv6` over the bytes of the address. -/
def hashBytes : List (BitVec 8) → ℕ → BitVec 8 → BitVec 8
  | [], _, v => v
  | x :: xs, bits, v =>
      if 8 ≤ bits then hashBytes xs (bits - 8) (v ^^^ x)
      else if bits ≠ 0 then v ^^^ (x &&& byteMask bits)
      else v

def hashIpv6 (addr : V6Addr) (bits : ℕ) : ℕ := (hashBytes (List.ofFn addr) bits 0).toNat

def hashText (s : Str) : ℕ :=
  (s.foldl (fun (h : BitVec 64) c => h <<< 4 - (h + BitVec.ofNat 64 (toLower c).toNat)) 0 &&&
    0xfff).toNat

def isMWildChar (c : Char) : Bool := c = '#' || c = '*' || c = '?'

/-- The backward scan of `get_mask_hash`: `tail` is the text behind the scanned
character, `hp` the text behind the last dot met. -/
def maskHashLoop : Str → Str → Str → ℕ
  | [], _, tail => hashText tail
  | c :: rev, hp, tail =>
      if isMWildChar c then hashText hp
      else if c = '.' then maskHashLoop rev tail (c :: tail)
      else maskHashLoop rev hp (c :: tail)

def getMaskHash (text : Str) : ℕ := maskHashLoop text.reverse [] []

/-- The mask stored for an address text. -/
def fileMask (address : Str) : RecMask :=
  match parseNetmask address with
  | .host => .hostname address
  | .ipv4 addr bits => .ipv4 addr bits
  | .ipv6 addr bits => .ipv6 addr bits

/-- The chain of a mask; prefixes are cut to whole words or bytes. -/
def RecMask.hash : RecMask → ℕ
  | .hostname mask => getMaskHash mask
  | .ipv4 addr bits => hashIpv4 addr (bits - bits % 8).toNat
  | .ipv6 addr bits => hashIpv6 addr (bits - bits % 16).toNat

/-- The prefix length is one of the family. -/
def RecMask.InRange : RecMask → Prop
  | .hostname _ => True
  | .ipv4 _ bits => 0 ≤ bits ∧ bits ≤ 32
  | .ipv6 _ bits => 0 ≤ bits ∧ bits ≤ 128

instance : DecidablePred RecMask.InRange := fun m => by
  cases m <;> unfold RecMask.InRange <;> infer_instance

structure ConfTable where
  atable : HashChain.Table ℕ AddressRec
  precValue : BitVec 64

section

variable (crypt : Str → Str → Str) (item : ℕ → AccessItem)

/-- The address an item is filed under. -/
def filedAddress (a : ℕ) : Str :=
  if (item a).host = [] then "/NOMATCH!/".toList else (item a).host

namespace ConfTable

def init : ConfTable := ⟨fun _ => [], 0xffffffff⟩

def addConfByAddress (t : ConfTable) (type : U32) (a : ℕ) : ConfTable :=
  let mask := fileMask (filedAddress item a)
  ⟨HashChain.insert t.atable mask.hash ⟨mask, type, t.precValue, (item a).user, a⟩,
    t.precValue - 1⟩

/-- `delete_one_address_conf(aconf->host, aconf)`, as every caller has it. -/
def deleteOneAddressConf (t : ConfTable) (a : ℕ) : ConfTable :=
  { t with atable := HashChain.unlink t.atable (fileMask (item a).host).hash (·.aconf == a) }

end ConfTable

def matchConfPassword (password : Str) (aconf : AccessItem) : Bool :=
  match aconf.passwd with
  | none => false
  | some passwd =>
      let encr := if aconf.encrypted then (if passwd ≠ [] then crypt password passwd else [])
        else password
      encr == passwd

/-- The arguments of `find_conf_by_address`. -/
structure Lookup where
  name : Option Str
  addr : Option IpAddr
  type : U32
  username : Option Str
  password : Option Str

namespace Lookup

variable (q : Lookup)

/-- The tests on the type, the user name and the password. Bit 0 of the type
means that the user name is ignored. -/
def eligible (type : U32) (username : Str) (aconf : AccessItem) : Bool :=
  type == q.type &&& ~~~1 &&
    (q.type &&& 1 != 0 || matchMask username (q.username.getD [])) &&
    (aconf.needPassword || aconf.passwd.isNone ||
      matchConfPassword crypt (q.password.getD []) aconf)

/-- The test on the mask, for the address and for the name of the lookup. -/
def maskMatches : RecMask → Bool
  | .hostname mask =>
      match q.name with
      | some name => matchMask mask name
      | none => false
  | .ipv4 mask bits =>
      match q.addr with
      | some (.inet addr) => matchIpv4 addr mask bits.toNat
      | _ => false
  | .ipv6 mask bits =>
      match q.addr with
      | some (.inet6 addr) => matchIpv6 addr mask bits.toNat
      | _ => false

/-- A record that may replace the best one so far; `hprecv` starts at zero. -/
def accepts (r : AddressRec) : Bool :=
  decide (0 < r.precedence) && q.maskMatches r.mask &&
    q.eligible crypt r.type r.username (item r.aconf)

end Lookup

/-- The name and the texts behind its dots. -/
def domains : Str → List Str
  | [] => []
  | c :: cs => if c = '.' then cs :: domains cs else domains cs

def isHostMask : RecMask → Bool
  | .hostname _ => true
  | _ => false

/-- The chains probed for the address, from the longest prefix to the empty one. -/
def addrProbes : Option IpAddr → List ℕ
  | some (.inet6 addr) => (List.range 9).map fun k => hashIpv6 addr (128 - 16 * k)
  | some (.inet addr) => (List.range 5).map fun k => hashIpv4 addr (32 - 8 * k)
  | none => []

/-- The chains probed for the name, the chain of the bare wildcards last. -/
def nameProbes : Option Str → List ℕ
  | some name => (name :: domains name).map hashText ++ [0]
  | none => []

namespace ConfTable

/-- `find_conf_by_address`: the probes for the address compare address masks,
those for the name compare host masks. -/
def findConfByAddress (t : ConfTable) (q : Lookup) : Option ℕ :=
  let search (p : AddressRec → Bool) (acc : Option AddressRec) (probes : List ℕ) :=
    (probes.map t.atable).foldl (HashChain.best AddressRec.precedence p) acc
  let acc := search (fun r => !isHostMask r.mask && q.accepts crypt item r) none
    (addrProbes q.addr)
  let acc := search (fun r => isHostMask r.mask && q.accepts crypt item r) acc
    (nameProbes q.name)
  acc.map AddressRec.aconf

end ConfTable

inductive ConfOp where
  | add (type : U32) (a : ℕ)
  | delete (a : ℕ)

def ConfTable.step (t : ConfTable) : ConfOp → ConfTable
  | .add type a => t.addConfByAddress item type a
  | .delete a => t.deleteOneAddressConf item a

def ConfTable.run (ops : List ConfOp) : ConfTable := ops.foldl (ConfTable.step item) ConfTable.init

/-- The live entries, the latest first. -/
def liveStep (live : List (U32 × ℕ)) : ConfOp → List (U32 × ℕ)
  | .add type a => (type, a) :: live
  | .delete a => live.eraseP (·.2 == a)

def liveEntries (ops : List ConfOp) : List (U32 × ℕ) := ops.foldl liveStep []

/-- The scan the table replaces: the earliest live entry that matches. -/
def linearScan (live : List (U32 × ℕ)) (q : Lookup) : Option ℕ :=
  (live.reverse.find? fun e => q.maskMatches (fileMask (filedAddress item e.2)) &&
    q.eligible crypt e.1 (item e.2).user (item e.2)).map Prod.snd

end

end Unirc
