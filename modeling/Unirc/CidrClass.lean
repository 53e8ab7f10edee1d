import Mathlib.Logic.Function.Basic
import Unirc.Hostmask
import Unirc.KeyCounts
import Unirc.Runs

/-!
# Per-CIDR counts of a class

`mask_addr` of `hostmask.c`, `cidr_limit_reached`, `remove_from_cidr_check` and
`rebuild_cidr_class` of `s_conf.c`, and the parts of `attach_conf`, `detach_conf` and of the class
block of the parser that call them. The two address families differ in how a prefix is cut and
compared.
-/

namespace Unirc

open KeyCounts

abbrev CidrItem (α : Type*) := Entry α

/-- The IPv4 branch of `mask_addr` assigns the word of the address. -/
def maskAddr4 (ip : V4Addr) (bits : ℕ) : V4Addr := ip &&& v4Mask bits

/-- The bytes that the IPv6 branch of `mask_addr` assigns, counted from `s6_addr`, in order. -/
def maskStores6 (bits : ℕ) : List (ℕ × (BitVec 8 → BitVec 8)) :=
  (bits / 8, fun byte => byte &&& byteMask (bits % 8)) ::
    (List.range' (bits / 8 + 1) (16 - (bits / 8 + 1))).map fun i => (i, fun _ => 0)

def store (bytes : ℕ → BitVec 8) (w : ℕ × (BitVec 8 → BitVec 8)) : ℕ → BitVec 8 :=
  Function.update bytes w.1 (w.2 (bytes w.1))

/-- `mask_addr` on the memory from `s6_addr` on. -/
def maskBytes6 (bytes : ℕ → BitVec 8) (bits : ℕ) : ℕ → BitVec 8 :=
  (maskStores6 bits).foldl store bytes

def maskAddr6 (ip : V6Addr) (bits : ℕ) : V6Addr := fun i =>
  maskBytes6 (fun n => if h : n < 16 then ip ⟨n, h⟩ else 0) bits i

theorem foldl_store_zero (l : List ℕ) (bytes : ℕ → BitVec 8) (i : ℕ) :
    (l.map fun i => (i, fun _ => 0)).foldl store bytes i = if i ∈ l then 0 else bytes i := by
  induction l generalizing bytes with
  | nil => simp
  | cons n l ih =>
      rw [List.map_cons, List.foldl_cons, ih]
      by_cases hn : i = n
      · simp [store, hn]
      · simp [store, hn]

theorem maskBytes6_apply (bytes : ℕ → BitVec 8) (bits i : ℕ) :
    maskBytes6 bytes bits i =
      if i = bits / 8 then bytes i &&& byteMask (bits % 8)
      else if bits / 8 < i ∧ i < 16 then 0 else bytes i := by
  rw [maskBytes6, maskStores6, List.foldl_cons, foldl_store_zero]
  by_cases hi : i = bits / 8
  · have hout : i ∉ List.range' (bits / 8 + 1) (16 - (bits / 8 + 1)) := by
      simp only [List.mem_range'_1]
      omega
    rw [if_neg hout, if_pos hi]
    simp [hi, store]
  · have hin : i ∈ List.range' (bits / 8 + 1) (16 - (bits / 8 + 1)) ↔ bits / 8 < i ∧ i < 16 := by
      simp only [List.mem_range'_1]
      omega
    rw [if_neg hi]
    simp only [hin]
    simp [hi, store]

theorem maskAddr6_apply (ip : V6Addr) (bits : ℕ) (i : Fin 16) :
    maskAddr6 ip bits i =
      if i.val = bits / 8 then ip i &&& byteMask (bits % 8)
      else if bits / 8 < i.val then 0 else ip i := by
  simp [maskAddr6, maskBytes6_apply, i.isLt]

/-- The bytes that `mask_addr` touches are those of the address, except at 128 bits. -/
theorem maskStores6_inside_iff (bits : ℕ) :
    (∀ w ∈ maskStores6 bits, w.1 < 16) ↔ bits < 128 := by
  simp only [maskStores6, List.mem_cons, List.mem_map, List.mem_range'_1, forall_eq_or_imp,
    forall_exists_index, and_imp]
  constructor
  · rintro ⟨h, -⟩
    omega
  · intro h
    refine ⟨by omega, ?_⟩
    rintro w i hlow hhigh rfl
    change i < 16
    omega

/-- How prefixes of an address family are cut and compared. -/
structure AddrFamily (α : Type*) where
  matchAddr : α → α → ℕ → Bool
  maskAddr : α → ℕ → α
  match_mask : ∀ bits a b,
    matchAddr a (maskAddr b bits) bits = true ↔ maskAddr b bits = maskAddr a bits

theorem matchIpv4_mask (bits : ℕ) (a b : V4Addr) :
    matchIpv4 a (maskAddr4 b bits) bits = true ↔ maskAddr4 b bits = maskAddr4 a bits := by
  exact decide_eq_true_iff.trans eq_comm

theorem byteMask_zero : byteMask 0 = 0 := by decide

theorem matchIpv6_mask (bits : ℕ) (a b : V6Addr) :
    matchIpv6 a (maskAddr6 b bits) bits = true ↔ maskAddr6 b bits = maskAddr6 a bits := by
  simp only [matchIpv6, Bool.and_eq_true, Bool.or_eq_true, decide_eq_true_eq, beq_iff_eq,
    funext_iff, maskAddr6_apply]
  constructor
  · rintro ⟨hlow, hbyte⟩ i
    rcases lt_trichotomy i.val (bits / 8) with hi | hi | hi
    · have := hlow i hi
      simp only [hi.ne, hi.not_gt, if_false] at this ⊢
      exact this.symm
    · simp only [hi, if_true]
      rcases hbyte with hm | hbyte
      · simp [hm, byteMask_zero]
      · have := hbyte i hi
        simp only [hi, if_true] at this
        exact this.symm
    · simp [hi, hi.ne']
  · intro h
    refine ⟨fun i hi => ?_, Or.inr fun i hi => ?_⟩
    · have := h i
      simp only [hi.ne, hi.not_gt, if_false] at this ⊢
      exact this.symm
    · have := h i
      simp only [hi, if_true] at this ⊢
      exact this.symm

def ipv4Family : AddrFamily V4Addr := ⟨matchIpv4, maskAddr4, matchIpv4_mask⟩

def ipv6Family : AddrFamily V6Addr := ⟨matchIpv6, maskAddr6, matchIpv6_mask⟩

namespace AddrFamily

variable {α : Type*} (F : AddrFamily α) (limit bits : ℤ)

/-- One branch of `cidr_limit_reached`: whether the limit is reached, and the list. -/
def limitReached (overRule : Bool) (ip : α) (list : List (CidrItem α)) :
    Bool × List (CidrItem α) :=
  if limit ≤ 0 then (false, list)
  else if bits ≤ 0 then (false, list)
  else
    enter (fun mask => F.matchAddr ip mask bits.toNat)
      (fun number => !overRule && decide (limit ≤ number)) (F.maskAddr ip bits.toNat) list

/-- One branch of `remove_from_cidr_check`. -/
def remove (ip : α) (list : List (CidrItem α)) : List (CidrItem α) :=
  if limit = 0 then list
  else if bits ≤ 0 then list
  else leave (fun mask => F.matchAddr ip mask bits.toNat) list

/-- `rebuild_cidr_list` for the new definition, over the attached clients of the family. -/
def rebuildCidrList (ips : List α) (oldList : List (CidrItem α)) (changed : Bool) :
    List (CidrItem α) :=
  if !changed then oldList
  else ips.foldl (fun list ip => (F.limitReached limit bits true ip list).2) []

end AddrFamily

/-- The settings of a class block. The lexer reads `number_per_cidr` and the lengths as decimals. -/
structure CidrSettings where
  numberPerCidr : ℤ
  cidrBitlenIpv4 : ℤ
  cidrBitlenIpv6 : ℤ
  ipv4_le : cidrBitlenIpv4 ≤ 32
  ipv6_le : cidrBitlenIpv6 ≤ 128

structure CidrClass extends CidrSettings where
  listIpv4 : List (CidrItem V4Addr)
  listIpv6 : List (CidrItem V6Addr)

namespace CidrClass

/-- `make_conf_item` of a class and the assignments of its block. -/
def make (settings : CidrSettings) : CidrClass := { settings with listIpv4 := [], listIpv6 := [] }

variable (aclass : CidrClass)

def cidrLimitReached (overRule : Bool) : IpAddr → Bool × CidrClass
  | .inet ip =>
      let r := ipv4Family.limitReached aclass.numberPerCidr aclass.cidrBitlenIpv4 overRule ip
        aclass.listIpv4
      (r.1, { aclass with listIpv4 := r.2 })
  | .inet6 ip =>
      let r := ipv6Family.limitReached aclass.numberPerCidr aclass.cidrBitlenIpv6 overRule ip
        aclass.listIpv6
      (r.1, { aclass with listIpv6 := r.2 })

def removeFromCidrCheck : IpAddr → CidrClass
  | .inet ip =>
      { aclass with
        listIpv4 := ipv4Family.remove aclass.numberPerCidr aclass.cidrBitlenIpv4 ip
          aclass.listIpv4 }
  | .inet6 ip =>
      { aclass with
        listIpv6 := ipv6Family.remove aclass.numberPerCidr aclass.cidrBitlenIpv6 ip
          aclass.listIpv6 }

end CidrClass

def IpAddr.v4? : IpAddr → Option V4Addr
  | .inet ip => some ip
  | .inet6 _ => none

def IpAddr.v6? : IpAddr → Option V6Addr
  | .inet _ => none
  | .inet6 ip => some ip

/-- `rebuild_cidr_class` with the addresses of the clients that are attached. The lists that are
not rebuilt stay empty. -/
def rebuildCidrClass (ips : List IpAddr) (old new : CidrClass) : CidrClass :=
  if 0 < old.numberPerCidr ∧ 0 < new.numberPerCidr then
    { new with
      listIpv4 :=
        if 0 < old.cidrBitlenIpv4 ∧ 0 < new.cidrBitlenIpv4 then
          ipv4Family.rebuildCidrList new.numberPerCidr new.cidrBitlenIpv4 (ips.filterMap IpAddr.v4?)
            old.listIpv4 (old.cidrBitlenIpv4 != new.cidrBitlenIpv4)
        else new.listIpv4
      listIpv6 :=
        if 0 < old.cidrBitlenIpv6 ∧ 0 < new.cidrBitlenIpv6 then
          ipv6Family.rebuildCidrList new.numberPerCidr new.cidrBitlenIpv6 (ips.filterMap IpAddr.v6?)
            old.listIpv6 (old.cidrBitlenIpv6 != new.cidrBitlenIpv6)
        else new.listIpv6 }
  else new

/-- `rebuild_cidr_list` makes the list of the family anew. -/
def recountedList (oldLimit newLimit oldBits newBits : ℤ) : Bool :=
  0 < oldLimit && 0 < newLimit && 0 < oldBits && 0 < newBits && oldBits != newBits

/-- A client with an item of the class on `confs`. `overRule` is not stored by the server: it says
that the client was last counted with `over_rule`. -/
structure Attachment (κ : Type*) where
  client : κ
  ip : IpAddr
  overRule : Bool

structure CidrState (κ : Type*) where
  aclass : CidrClass
  attached : List (Attachment κ)

inductive CidrEvent (κ : Type*)
  | attach (client : κ) (ip : IpAddr) (exempt illegal : Bool)
  | detach (client : κ)
  | redefine (settings : CidrSettings)

namespace CidrState

variable {κ : Type*} [DecidableEq κ] (s : CidrState κ)

def start (settings : CidrSettings) : CidrState κ := ⟨CidrClass.make settings, []⟩

/-- `attach_conf` of a client item. -/
def attachConf (client : κ) (ip : IpAddr) (exempt illegal : Bool) : CidrState κ :=
  if s.attached.any (·.client == client) then s
  else if illegal then s
  else
    let r := s.aclass.cidrLimitReached exempt ip
    if r.1 then { s with aclass := r.2 }
    else ⟨r.2, ⟨client, ip, exempt⟩ :: s.attached⟩

/-- `detach_conf`. -/
def detachConf (client : κ) : CidrState κ :=
  match s.attached.find? (·.client == client) with
  | none => s
  | some a => ⟨s.aclass.removeFromCidrCheck a.ip, s.attached.eraseP (·.client == client)⟩

def recounted (old new : CidrSettings) : IpAddr → Bool
  | .inet _ =>
      recountedList old.numberPerCidr new.numberPerCidr old.cidrBitlenIpv4 new.cidrBitlenIpv4
  | .inet6 _ =>
      recountedList old.numberPerCidr new.numberPerCidr old.cidrBitlenIpv6 new.cidrBitlenIpv6

/-- The end of a class block for a class that existed. -/
def redefine (settings : CidrSettings) : CidrState κ where
  aclass := rebuildCidrClass (s.attached.map Attachment.ip) s.aclass (CidrClass.make settings)
  attached := s.attached.map fun a =>
    { a with overRule := a.overRule || recounted s.aclass.toCidrSettings settings a.ip }

def step (s : CidrState κ) : CidrEvent κ → CidrState κ
  | .attach client ip exempt illegal => s.attachConf client ip exempt illegal
  | .detach client => s.detachConf client
  | .redefine settings => s.redefine settings

end CidrState

end Unirc
