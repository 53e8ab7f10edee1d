import Unirc.GlineRelay
import Unirc.MemberRoundTrip

/-!
# Lists of services

The lists of proxies, of Brazilian addresses and of spam messages in `unirc.c`: an entry is added
unless one in the list covers it, is removed by its name, and each change is forwarded to the
other servers. A new server is sent the list from its newest entry on.
-/

namespace Unirc

section Entries

def findHost (hosts : List Str) (host : Str) : Option Str :=
  hosts.find? fun mask => matchMask mask host

/-- The new list, and the line for the other servers. -/
def addHost (command : Str) (privileged : Bool) (source : Str) (hosts : List Str) (mask : Str) :
    Option (List Str × Str) :=
  if privileged && (findHost hosts mask).isNone then
    some (mask :: hosts, sendFormat [':' :: source, command, mask])
  else none

def delHost (command : Str) (privileged : Bool) (source : Str) (hosts : List Str) (mask : Str) :
    Option (List Str × Str) :=
  if privileged && hosts.any fun h => !irccmp h mask then
    some (hosts.eraseP fun h => !irccmp h mask, sendFormat [':' :: source, command, mask])
  else none

def sendHosts (command : Str) (hosts : List Str) : List Str :=
  hosts.map fun mask => sendFormat [command, mask]

def findProxy := findHost
def proxy := addHost "PROXY".toList
def unproxy := delHost "UNPROXY".toList
def sendProxys := sendHosts "PROXY".toList

def findIpbr := findHost
def ipbr := addHost "IPBR".toList
def unipbr := delHost "UNIPBR".toList
def sendIpbrs := sendHosts "IPBR".toList

def findSpamsg := findHost
def spamsg := addHost "SPAMSG".toList
def unspamsg := delHost "UNSPAMSG".toList
def sendSpamsgs := sendHosts "SPAMSG".toList

end Entries

inductive HostList
  | proxys | ipbrs | spamsgs
  deriving DecidableEq

inductive HostOp
  | add (mask : Str)
  | del (mask : Str)
  deriving DecidableEq

namespace HostOp

def mask : HostOp → Str
  | add mask => mask
  | del mask => mask

def withMask : HostOp → Str → HostOp
  | add _, mask => add mask
  | del _, mask => del mask

end HostOp

namespace HostList

variable (l : HostList)

def addWord : HostList → Str
  | proxys => "PROXY".toList
  | ipbrs => "IPBR".toList
  | spamsgs => "SPAMSG".toList

def delWord : HostList → Str
  | proxys => "UNPROXY".toList
  | ipbrs => "UNIPBR".toList
  | spamsgs => "UNSPAMSG".toList

def word : HostOp → Str
  | .add _ => l.addWord
  | .del _ => l.delWord

def find : HostList → List Str → Str → Option Str
  | proxys => findProxy
  | ipbrs => findIpbr
  | spamsgs => findSpamsg

/-- The handlers. -/
def handle : HostList → HostOp → Bool → Str → List Str → Option (List Str × Str)
  | proxys, .add mask, privileged, source, hosts => proxy privileged source hosts mask
  | proxys, .del mask, privileged, source, hosts => unproxy privileged source hosts mask
  | ipbrs, .add mask, privileged, source, hosts => ipbr privileged source hosts mask
  | ipbrs, .del mask, privileged, source, hosts => unipbr privileged source hosts mask
  | spamsgs, .add mask, privileged, source, hosts => spamsg privileged source hosts mask
  | spamsgs, .del mask, privileged, source, hosts => unspamsg privileged source hosts mask

def burst : HostList → List Str → List Str
  | proxys => sendProxys
  | ipbrs => sendIpbrs
  | spamsgs => sendSpamsgs

/-- The change that a line asks for. Without a parameter the handlers do not come back. -/
def read (line : Str) : Option HostOp :=
  match commandParams l.addWord 1 line with
  | some (mask :: _) => some (.add mask)
  | _ =>
      match commandParams l.delWord 1 line with
      | some (mask :: _) => some (.del mask)
      | _ => none

def relay (source : Str) (op : HostOp) : Str := sendFormat [':' :: source, l.word op, op.mask]

section Lines

variable {l : HostList} {op : HostOp} {source mask : Str}

/-- The line has room for the entry. -/
def Fits (l : HostList) (source : Str) (op : HostOp) : Prop :=
  (':' :: source).length + (l.word op).length + op.mask.length + 2 ≤ IRCD_BUFSIZE - 2

theorem word_ne (l : HostList) (op : HostOp) :
    ' ' ∉ l.word op ∧ l.word op ≠ [] ∧ (l.word op).head? ≠ some ':' := by
  have hwords : ∀ w ∈ [l.addWord, l.delWord], ' ' ∉ w ∧ w ≠ [] ∧ w.head? ≠ some ':' := by
    cases l <;> decide
  cases op with
  | add mask => exact hwords l.addWord List.mem_cons_self
  | del mask => exact hwords l.delWord (List.mem_cons_of_mem _ List.mem_cons_self)

theorem relay_eq (h : l.Fits source op) :
    l.relay source op = ':' :: (source ++ ' ' :: (l.word op ++ ' ' :: op.mask)) := by
  have hline : List.intercalate [' '] [':' :: source, l.word op, op.mask] =
      ':' :: (source ++ ' ' :: (l.word op ++ ' ' :: op.mask)) := by
    simp [List.intercalate, List.intersperse]
  rw [relay, sendFormat, hline, List.take_of_length_le]
  rw [Fits, List.length_cons] at h
  simp only [List.length_cons, List.length_append]
  omega

/-- What is read from the parameters behind a command. -/
theorem read_of_splitLine {line rest : Str} (op : HostOp)
    (h : splitLine line = (l.word op, stringToArray rest)) :
    l.read line = (stringToArray rest).head?.map op.withMask := by
  have hadd : irccmp l.addWord l.addWord = false := by cases l <;> decide
  have hdel : irccmp l.delWord l.delWord = false := by cases l <;> decide
  have hne : irccmp l.delWord l.addWord = true := by cases l <;> decide
  have hne' : irccmp l.addWord l.delWord = true := by cases l <;> decide
  cases op with
  | add m =>
      have h : splitLine line = (l.addWord, stringToArray rest) := h
      cases hp : stringToArray rest <;>
        simp [read, commandParams, h, hadd, hne', hp, HostOp.withMask]
  | del m =>
      have h : splitLine line = (l.delWord, stringToArray rest) := h
      cases hp : stringToArray rest <;>
        simp [read, commandParams, h, hdel, hne, hp, HostOp.withMask]

theorem read_relay (hsource : ' ' ∉ source) (h : l.Fits source op) :
    l.read (l.relay source op) = (stringToArray op.mask).head?.map op.withMask := by
  rw [relay_eq h]
  exact read_of_splitLine op (splitLine_command hsource (l.word_ne op).1 (l.word_ne op).2.1 _)

theorem read_burst (h : l.addWord.length + mask.length + 1 ≤ IRCD_BUFSIZE - 2) :
    l.read (sendFormat [l.addWord, mask]) = (stringToArray mask).head?.map HostOp.add := by
  have hline : List.intercalate [' '] [l.addWord, mask] = l.addWord ++ ' ' :: mask := by
    simp [List.intercalate, List.intersperse]
  have hword := l.word_ne (.add mask)
  rw [sendFormat, hline, List.take_of_length_le]
  · exact read_of_splitLine (.add mask) (splitLine_noPrefix hword.1 hword.2.1 hword.2.2 mask)
  · rw [List.length_append, List.length_cons]
    omega

theorem stringToArray_word (h : IsWord mask) : stringToArray mask = [mask] := by
  obtain ⟨c, t, rfl, hb, hc⟩ := h.exists_cons
  have hskip : skipBlanks (c :: t) = c :: t := by simp [skipBlanks, hb]
  have hdrop : (c :: t).dropWhile (· ≠ ' ') = [] :=
    List.dropWhile_eq_nil_iff.2 fun d hd => by simpa using fun heq : d = ' ' => h.blank (heq ▸ hd)
  rw [stringToArray, splitArgs, hskip]
  simp only [if_neg hc, hdrop]

theorem read_relay_word (hsource : ' ' ∉ source) (h : l.Fits source op) (hword : IsWord op.mask) :
    l.read (l.relay source op) = some op := by
  rw [read_relay hsource h, stringToArray_word hword]
  cases op <;> rfl

/-- A text with blanks, with a colon in front or without characters is read as another one. -/
theorem isWord_of_stringToArray (h : (stringToArray mask).head? = some mask) : IsWord mask := by
  rw [stringToArray, splitArgs] at h
  cases hskip : skipBlanks mask with
  | nil =>
      rw [hskip] at h
      cases h
  | cons c buf =>
      have hb : c ≠ ' ' := by
        rintro rfl
        have hhead := List.head?_dropWhile_not (· = ' ') mask
        rw [skipBlanks] at hskip
        simp [hskip] at hhead
      rw [hskip] at h
      simp only at h
      split at h
      · have hlen := (List.dropWhile_sublist (p := (· = ' ')) (l := mask)).length_le
        rw [← skipBlanks, hskip, List.length_cons, Option.some.inj h] at hlen
        omega
      · rename_i hc
        have htake : mask = (c :: buf).takeWhile (· ≠ ' ') := by
          split at h
          · rename_i hdrop
            have hsplit := List.takeWhile_append_dropWhile (p := (· ≠ ' ')) (l := c :: buf)
            rw [hdrop, List.append_nil] at hsplit
            exact (Option.some.inj h).symm.trans hsplit.symm
          · exact (Option.some.inj h).symm
        rw [htake]
        refine ⟨by simp [hb], fun hmem => ?_, ?_⟩
        · simpa using List.mem_takeWhile_imp hmem
        · rw [head?_takeWhile_of_pos hb]
          exact fun he => hc (Option.some.inj he)

end Lines

end HostList

end Unirc
