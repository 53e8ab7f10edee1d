import Mathlib.Tactic.NormNum
import Unirc.Chars
import Unirc.FullCycle

/-!
# Ids of local users

`uid_get` counts through the ids that start with the id of the server. The last six characters are
an odometer: a letter, then five times a letter or a digit, where the digits come behind the
letters.
-/

namespace Unirc

abbrev IRC_MAXSID : ℕ := 3
abbrev IRC_MAXUID : ℕ := 6
abbrev TOTALSIDUID : ℕ := IRC_MAXSID + IRC_MAXUID

/-- `++c` -/
def succChar (c : Char) : Char := Char.ofNat (c.toNat + 1)

/-- `add_one_to_uid` on `new_uid`; the places below that of the first letter are the server's. -/
def addOneToUid : ℕ → Str → Str
  | 0, uid => uid
  | i + 1, uid =>
      if i + 1 ≠ IRC_MAXSID then
        if uid.getD (i + 1) '\x00' = 'Z' then uid.set (i + 1) '0'
        else if uid.getD (i + 1) '\x00' = '9' then addOneToUid i (uid.set (i + 1) 'A')
        else uid.set (i + 1) (succChar (uid.getD (i + 1) '\x00'))
      else if uid.getD (i + 1) '\x00' = 'Z' then
        uid.take IRC_MAXSID ++ List.replicate IRC_MAXUID 'A'
      else uid.set (i + 1) (succChar (uid.getD (i + 1) '\x00'))

/-- `uid_get`; the new id is what the counter holds. -/
def uidGet (uid : Str) : Str := addOneToUid (TOTALSIDUID - 1) uid

/-- `init_uid` -/
def initUid (sid : Str) : Str :=
  (sid.take IRC_MAXSID).rightpad IRC_MAXSID 'A' ++ ['A', 'A', 'A', 'A', 'A', '@']

/-- `hash_find_id` finds a client, among those with these ids. -/
def hashFindId (ids : List Str) (id : Str) : Bool := ids.any fun other => !irccmp id other

/-- How `register_local_user` finds an id, for so many calls of `uid_get`. -/
def newUid (ids : List Str) (calls : ℕ) (uid : Str) : Option Str :=
  FullCycle.search (hashFindId ids) uidGet calls (uidGet uid)

def isUidLetter (c : Char) : Bool := 0x41 ≤ c.toNat && c.toNat ≤ 0x5a

def isUidDigit (c : Char) : Bool := isUidLetter c || (0x30 ≤ c.toNat && c.toNat ≤ 0x39)

/-- The part of an id that is behind the server's. -/
def isUidTail : Str → Bool
  | c :: cs => isUidLetter c && cs.all isUidDigit && cs.length == 5
  | [] => false

/-- An id of this server. -/
structure IsUid (sid id : Str) : Prop where
  prefixed : id.take IRC_MAXSID = sid
  tail : isUidTail (id.drop IRC_MAXSID) = true

/-- The number of ids. -/
def uidCount : ℕ := 26 * 36 ^ 5

namespace Uid

variable {sid ds : Str} {c d : Char} {j : ℕ}

/-- The value of a place. -/
def digit (c : Char) : ℕ := if c.toNat < 0x41 then c.toNat - 0x30 + 26 else c.toNat - 0x41

/-- The value of the odometer. -/
def value (ds : Str) : ℕ := ds.foldl (fun v c => v * 36 + digit c) 0

theorem value_append (ds : Str) (c : Char) : value (ds ++ [c]) = value ds * 36 + digit c := by
  rw [value, List.foldl_append]
  rfl

/-- The first places of an odometer. -/
def IsDigits (ds : Str) (j : ℕ) : Prop :=
  ∃ c cs, ds = c :: cs ∧ isUidLetter c = true ∧ (∀ d ∈ cs, isUidDigit d = true) ∧ cs.length = j

theorem isUidTail_iff : isUidTail ds = true ↔ IsDigits ds 5 := by
  constructor
  · intro h
    cases ds with
    | nil => cases h
    | cons c cs =>
        simp only [isUidTail, Bool.and_eq_true, List.all_eq_true, beq_iff_eq] at h
        exact ⟨c, cs, rfl, h.1.1, h.1.2, h.2⟩
  · rintro ⟨c, cs, rfl, hc, hcs, hlen⟩
    simp only [isUidTail, Bool.and_eq_true, List.all_eq_true, beq_iff_eq]
    exact ⟨⟨hc, hcs⟩, hlen⟩

theorem toNat_of_isUidLetter (h : isUidLetter c = true) : 0x41 ≤ c.toNat ∧ c.toNat ≤ 0x5a := by
  simpa [isUidLetter] using h

theorem toNat_of_isUidDigit (h : isUidDigit c = true) :
    (0x41 ≤ c.toNat ∧ c.toNat ≤ 0x5a) ∨ (0x30 ≤ c.toNat ∧ c.toNat ≤ 0x39) := by
  simpa [isUidDigit, isUidLetter] using h

theorem digit_letter_lt (h : isUidLetter c = true) : digit c < 26 := by
  have := toNat_of_isUidLetter h
  rw [digit, if_neg (by omega)]
  omega

theorem digit_lt (h : isUidDigit c = true) : digit c < 36 := by
  have := toNat_of_isUidDigit h
  rw [digit]
  split <;> omega

theorem digit_inj (hc : isUidDigit c = true) (hd : isUidDigit d = true)
    (h : digit c = digit d) : c = d := by
  have hc' := toNat_of_isUidDigit hc
  have hd' := toNat_of_isUidDigit hd
  rw [← Char.toNat_inj]
  rw [digit, digit] at h
  split at h <;> split at h <;> omega

theorem isUidDigit_of_letter (h : isUidLetter c = true) : isUidDigit c = true := by
  rw [isUidDigit, h, Bool.true_or]

theorem toNat_succChar (h : isUidDigit c = true) : (succChar c).toNat = c.toNat + 1 := by
  have := toNat_of_isUidDigit h
  exact toNat_ofNat (by omega)

/-- A place that does not carry. -/
theorem succChar_spec (h : isUidDigit c = true) (hZ : c ≠ 'Z') (h9 : c ≠ '9') :
    isUidDigit (succChar c) = true ∧ digit (succChar c) = digit c + 1 := by
  have hc := toNat_of_isUidDigit h
  have hs := toNat_succChar h
  have hZ' : c.toNat ≠ 0x5a := fun he => hZ (Char.toNat_inj.mp he)
  have h9' : c.toNat ≠ 0x39 := fun he => h9 (Char.toNat_inj.mp he)
  constructor
  · simp only [isUidDigit, isUidLetter, hs, Bool.or_eq_true, Bool.and_eq_true, decide_eq_true_eq]
    omega
  · rw [digit, digit, hs]
    split <;> split <;> omega

theorem succChar_letter (h : isUidLetter c = true) (hZ : c ≠ 'Z') :
    isUidLetter (succChar c) = true := by
  have hc := toNat_of_isUidLetter h
  have hs := toNat_succChar (isUidDigit_of_letter h)
  have hZ' : c.toNat ≠ 0x5a := fun he => hZ (Char.toNat_inj.mp he)
  simp only [isUidLetter, hs, Bool.and_eq_true, decide_eq_true_eq]
  omega

namespace IsDigits

theorem length_eq (h : IsDigits ds j) : ds.length = j + 1 := by
  obtain ⟨c, cs, rfl, -, -, hlen⟩ := h
  rw [List.length_cons, hlen]

theorem snoc (h : IsDigits ds j) (hc : isUidDigit c = true) : IsDigits (ds ++ [c]) (j + 1) := by
  obtain ⟨d, cs, rfl, hd, hcs, hlen⟩ := h
  refine ⟨d, cs ++ [c], rfl, hd, fun x hx => ?_, by simp [hlen]⟩
  rcases List.mem_append.mp hx with hx | hx
  · exact hcs x hx
  · rw [List.mem_singleton.mp hx]
    exact hc

theorem exists_snoc (h : IsDigits ds (j + 1)) :
    ∃ es c, ds = es ++ [c] ∧ IsDigits es j ∧ isUidDigit c = true := by
  obtain ⟨d, cs, rfl, hd, hcs, hlen⟩ := h
  rcases List.eq_nil_or_concat' cs with rfl | ⟨es, c, rfl⟩
  · cases hlen
  · refine ⟨d :: es, c, rfl, ⟨d, es, rfl, hd, fun x hx => hcs x (by simp [hx]), ?_⟩, hcs c (by simp)⟩
    simpa using hlen

theorem value_lt (h : IsDigits ds j) : value ds < 26 * 36 ^ j := by
  induction j generalizing ds with
  | zero =>
      obtain ⟨c, cs, rfl, hc, -, hlen⟩ := h
      rw [List.length_eq_zero_iff.mp hlen]
      have := digit_letter_lt hc
      simpa [value] using this
  | succ j ih =>
      obtain ⟨es, c, rfl, hes, hc⟩ := h.exists_snoc
      have hlt := ih hes
      have hdigit := digit_lt hc
      rw [value_append, Nat.pow_succ, ← Nat.mul_assoc]
      omega

theorem eq_of_value_eq {es : Str} (hd : IsDigits ds j) (he : IsDigits es j)
    (heq : value ds = value es) : ds = es := by
  induction j generalizing ds es with
  | zero =>
      obtain ⟨c, cs, rfl, hc, -, hlen⟩ := hd
      obtain ⟨c', cs', rfl, hc', -, hlen'⟩ := he
      rw [List.length_eq_zero_iff.mp hlen, List.length_eq_zero_iff.mp hlen'] at heq ⊢
      have hdigit : digit c = digit c' := by simpa [value] using heq
      rw [digit_inj (isUidDigit_of_letter hc) (isUidDigit_of_letter hc') hdigit]
  | succ j ih =>
      obtain ⟨xs, c, rfl, hxs, hc⟩ := hd.exists_snoc
      obtain ⟨ys, c', rfl, hys, hc'⟩ := he.exists_snoc
      rw [value_append, value_append] at heq
      have hlt := digit_lt hc
      have hlt' := digit_lt hc'
      have hdigit : digit c = digit c' := by omega
      rw [ih hxs hys (by omega), digit_inj hc hc' hdigit]

end IsDigits

theorem getD_length (pre post : Str) (c : Char) :
    (pre ++ c :: post).getD pre.length '\x00' = c := by
  simp

theorem set_length (pre post : Str) (c d : Char) :
    (pre ++ c :: post).set pre.length d = pre ++ d :: post := by
  rw [List.set_append_right _ _ (Nat.le_refl _), Nat.sub_self]
  rfl

/-- One step from the place with index `j` of the odometer, where the places behind it are at their
first character. -/
theorem addOneToUid_spec (hsid : sid.length = IRC_MAXSID) (hj : j ≤ 5) (hds : IsDigits ds j) :
    ∃ es, addOneToUid (IRC_MAXSID + j) (sid ++ ds ++ List.replicate (5 - j) 'A') =
      sid ++ es ++ List.replicate (5 - j) 'A' ∧ IsDigits es j ∧
        value es = (value ds + 1) % (26 * 36 ^ j) := by
  induction j generalizing ds with
  | zero =>
      obtain ⟨c, cs, rfl, hc, -, hlen⟩ := hds
      rw [List.length_eq_zero_iff.mp hlen]
      set post := List.replicate (5 - 0) 'A'
      have hget : (sid ++ [c] ++ post).getD (2 + 1) '\x00' = c := by
        have h := getD_length sid post c
        rw [hsid] at h
        rwa [List.append_assoc]
      have hset : ∀ d, (sid ++ [c] ++ post).set (2 + 1) d = sid ++ [d] ++ post := by
        intro d
        have h := set_length sid post c d
        rw [hsid] at h
        rw [List.append_assoc, List.append_assoc]
        exact h
      change ∃ es, addOneToUid (2 + 1) _ = _ ∧ _
      rw [addOneToUid, if_neg (not_not.mpr rfl), hget]
      by_cases hZ : c = 'Z'
      · refine ⟨['A'], ?_, ⟨'A', [], rfl, rfl, by simp, rfl⟩, ?_⟩
        · rw [if_pos hZ, List.append_assoc, ← hsid, List.take_left, List.append_assoc]
          rfl
        · subst hZ
          rfl
      · refine ⟨[succChar c], ?_, ⟨succChar c, [], rfl, succChar_letter hc hZ, by simp, rfl⟩, ?_⟩
        · rw [if_neg hZ, hset]
        · have h9 : c ≠ '9' := by
            rintro rfl
            exact absurd hc (by decide)
          obtain ⟨hdigit, hsucc⟩ := succChar_spec (isUidDigit_of_letter hc) hZ h9
          have hlt := digit_letter_lt (succChar_letter hc hZ)
          have hmod : (digit c + 1) % 26 = digit c + 1 := Nat.mod_eq_of_lt (hsucc ▸ hlt)
          simpa [value, hsucc] using hmod.symm
  | succ j ih =>
      obtain ⟨es, c, rfl, hes, hc⟩ := hds.exists_snoc
      set post := List.replicate (5 - (j + 1)) 'A'
      have hlen : (sid ++ es).length = IRC_MAXSID + j + 1 := by
        rw [List.length_append, hsid, hes.length_eq, Nat.add_assoc]
      have happend : ∀ d, sid ++ (es ++ [d]) ++ post = sid ++ es ++ d :: post := by
        intro d
        simp
      have hget : (sid ++ (es ++ [c]) ++ post).getD (IRC_MAXSID + j + 1) '\x00' = c := by
        rw [happend, ← hlen]
        exact getD_length (sid ++ es) post c
      have hset : ∀ d, (sid ++ (es ++ [c]) ++ post).set (IRC_MAXSID + j + 1) d =
          sid ++ (es ++ [d]) ++ post := by
        intro d
        rw [happend, happend, ← hlen]
        exact set_length (sid ++ es) post c d
      have hne : IRC_MAXSID + j + 1 ≠ IRC_MAXSID := by omega
      have hvalue := value_append es c
      rw [← Nat.add_assoc, addOneToUid, if_pos hne, hget]
      by_cases hZ : c = 'Z'
      · refine ⟨es ++ ['0'], ?_, hes.snoc rfl, ?_⟩
        · rw [if_pos hZ, hset]
        · subst hZ
          have hlt := (hes.snoc (c := '0') rfl).value_lt
          have hdigit : digit '0' = digit 'Z' + 1 := rfl
          rw [value_append] at hlt ⊢
          rw [hvalue, Nat.add_assoc, ← hdigit, Nat.mod_eq_of_lt hlt]
      · rw [if_neg hZ]
        by_cases h9 : c = '9'
        · obtain ⟨fs, hstep, hfs, hval⟩ := ih (Nat.le_of_succ_le hj) hes
          have hpost : List.replicate (5 - j) 'A' = 'A' :: post := by
            rw [show 5 - j = 5 - (j + 1) + 1 by omega, List.replicate_succ]
          refine ⟨fs ++ ['A'], ?_, hfs.snoc rfl, ?_⟩
          · rw [hpost] at hstep
            rw [if_pos h9, hset, happend 'A']
            simpa using hstep
          · subst h9
            have hdigit : digit '9' + 1 = 36 := rfl
            rw [value_append, hval, hvalue, Nat.add_assoc, hdigit, Nat.pow_succ, ← Nat.mul_assoc,
              ← Nat.succ_mul, Nat.mul_mod_mul_right]
            rfl
        · obtain ⟨hdigit, hsucc⟩ := succChar_spec hc hZ h9
          refine ⟨es ++ [succChar c], ?_, hes.snoc hdigit, ?_⟩
          · rw [if_neg h9, hset]
          · have hlt := (hes.snoc hdigit).value_lt
            rw [value_append, hsucc] at hlt ⊢
            rw [hvalue, Nat.add_assoc, Nat.mod_eq_of_lt hlt]

theorem isUid_append (hsid : sid.length = IRC_MAXSID) (hds : IsDigits ds 5) :
    IsUid sid (sid ++ ds) where
  prefixed := by rw [← hsid, List.take_left]
  tail := by
    rw [← hsid, List.drop_left]
    exact isUidTail_iff.mpr hds

theorem isDigits_of_isUid {id : Str} (h : IsUid sid id) :
    IsDigits (id.drop IRC_MAXSID) 5 ∧ id = sid ++ id.drop IRC_MAXSID := by
  refine ⟨isUidTail_iff.mp h.tail, ?_⟩
  conv_lhs => rw [← List.take_append_drop IRC_MAXSID id, h.prefixed]

/-- The odometer is a counter through all ids of the server. -/
theorem counts (hsid : sid.length = IRC_MAXSID) :
    FullCycle.Counts (IsUid sid) uidGet (fun id => value (id.drop IRC_MAXSID)) uidCount := by
  have hstep : ∀ id, IsUid sid id → ∃ es, uidGet id = sid ++ es ∧ IsDigits es 5 ∧
      value es = (value (id.drop IRC_MAXSID) + 1) % uidCount := by
    intro id h
    obtain ⟨hds, hid⟩ := isDigits_of_isUid h
    obtain ⟨es, hes, hdigits, hvalue⟩ := addOneToUid_spec hsid (Nat.le_refl 5) hds
    rw [← hid, Nat.sub_self, List.replicate_zero, List.append_nil, List.append_nil] at hes
    exact ⟨es, hes, hdigits, hvalue⟩
  constructor
  case closed =>
    intro id h
    obtain ⟨es, hes, hdigits, -⟩ := hstep id h
    rw [hes]
    exact isUid_append hsid hdigits
  case lt => exact fun id h => (isDigits_of_isUid h).1.value_lt
  case step =>
    intro id h
    obtain ⟨es, hes, -, hvalue⟩ := hstep id h
    rw [hes, ← hsid, List.drop_left, hsid]
    exact hvalue
  case inj =>
    intro id id' h h' heq
    obtain ⟨hds, hid⟩ := isDigits_of_isUid h
    obtain ⟨hds', hid'⟩ := isDigits_of_isUid h'
    rw [hid, hid', hds.eq_of_value_eq hds' heq]

/-- The state of `init_uid`, where no id was given yet. -/
def unused (sid : Str) : Str := sid ++ ['A', 'A', 'A', 'A', 'A', '@']

/-- The first id comes as if it was behind the last one. -/
theorem uidGet_unused (hsid : sid.length = IRC_MAXSID) :
    uidGet (unused sid) = uidGet (sid ++ ['Z', '9', '9', '9', '9', '9']) := by
  obtain ⟨a, b, c, rfl⟩ := List.length_eq_three.mp hsid
  rfl

theorem toUpper_of_isUidDigit (h : isUidDigit c = true) : toUpper c = c := by
  have := toNat_of_isUidDigit h
  rw [toUpper, if_neg (by omega)]

theorem map_toUpper_digits (h : IsDigits ds j) : ds.map toUpper = ds := by
  obtain ⟨c, cs, rfl, hc, hcs, -⟩ := h
  have hmap : cs.map toUpper = cs.map id :=
    List.map_congr_left fun d hd => toUpper_of_isUidDigit (hcs d hd)
  rw [List.map_cons, toUpper_of_isUidDigit (isUidDigit_of_letter hc), hmap, List.map_id]

end Uid

/-- An entry that is in the way of one of the ids, as the names are compared. -/
def blocksUid (sid other : Str) : Bool :=
  (other.take IRC_MAXSID).map toUpper == sid.map toUpper &&
    isUidTail ((other.drop IRC_MAXSID).map toUpper)

open Uid in
theorem blocksUid_of_irccmp {sid id other : Str} (hid : IsUid sid id)
    (h : irccmp id other = false) : blocksUid sid other = true ∧
      (other.drop IRC_MAXSID).map toUpper = id.drop IRC_MAXSID := by
  rw [irccmp_eq_false_iff] at h
  have htail : (other.drop IRC_MAXSID).map toUpper = id.drop IRC_MAXSID := by
    rw [List.map_drop, ← h, ← List.map_drop]
    exact map_toUpper_digits (isDigits_of_isUid hid).1
  have hhead : (other.take IRC_MAXSID).map toUpper = sid.map toUpper := by
    rw [List.map_take, ← h, ← List.map_take, hid.prefixed]
  refine ⟨?_, htail⟩
  rw [blocksUid, htail, hhead, hid.tail, Bool.and_true, beq_self_eq_true]

open Uid in
/-- From any state of the counter every id of the server comes exactly once before one comes again,
and a new user gets an id that is not in use when fewer entries of the table than there are ids are
in the way. -/
theorem uidGet_exhaustive {sid uid : Str} (hsid : sid.length = IRC_MAXSID)
    (huid : IsUid sid uid ∨ uid = unused sid) :
    (∀ k, IsUid sid (uidGet^[k + 1] uid)) ∧
      (∀ id, IsUid sid id → ∃! k, k < uidCount ∧ uidGet^[k + 1] uid = id) ∧
      ∀ ids : List Str, (ids.filter (blocksUid sid)).length < uidCount →
        ∃ id, newUid ids uidCount uid = some id ∧ IsUid sid id ∧ hashFindId ids id = false := by
  obtain ⟨x, hx, hstart⟩ : ∃ x, IsUid sid x ∧ uidGet uid = uidGet x := by
    rcases huid with huid | rfl
    · exact ⟨uid, huid, rfl⟩
    · exact ⟨_, isUid_append hsid ⟨'Z', _, rfl, rfl, List.all_eq_true.mp rfl, rfl⟩, uidGet_unused hsid⟩
  have hcounts := counts hsid
  have hiterate : ∀ k, uidGet^[k + 1] uid = uidGet^[k + 1] x := by
    intro k
    rw [Function.iterate_succ_apply, Function.iterate_succ_apply, hstart]
  simp only [hiterate]
  refine ⟨fun k => hcounts.iterate_closed hx _, fun id hid => hcounts.existsUnique_iterate hx hid,
    fun ids hids => ?_⟩
  have hkey : ∀ y z, IsUid sid y → IsUid sid z → y.drop IRC_MAXSID = z.drop IRC_MAXSID → y = z := by
    intro y z hy hz heq
    rw [(isDigits_of_isUid hy).2, (isDigits_of_isUid hz).2, heq]
  set marks := (ids.filter (blocksUid sid)).map fun other => (other.drop IRC_MAXSID).map toUpper
  have hmarks : marks.length < uidCount := by
    rw [List.length_map]
    exact hids
  obtain ⟨k, hk, hfree⟩ := hcounts.exists_free hx (fun id => id.drop IRC_MAXSID) hkey hmarks
  have hnot : hashFindId ids (uidGet^[k] (uidGet x)) = false := by
    rw [← Bool.not_eq_true, hashFindId, List.any_eq_true]
    rintro ⟨other, hother, hcmp⟩
    rw [Bool.not_eq_true'] at hcmp
    obtain ⟨hblocks, heq⟩ := blocksUid_of_irccmp (hcounts.iterate_closed hx (k + 1)) hcmp
    exact hfree (List.mem_map.mpr ⟨other, List.mem_filter.mpr ⟨hother, hblocks⟩, heq⟩)
  obtain ⟨id, hsearch, hnotTaken, j, -, rfl⟩ := FullCycle.search_of_free hk hnot
  rw [newUid, hstart]
  exact ⟨_, hsearch, hcounts.iterate_closed (hcounts.closed x hx) j, hnotTaken⟩

/-- The first user of a server whose first id another one has, written in lower case. -/
theorem uidGet_exhaustive_first :
    ∃ id, newUid [['0', 'a', 'a', 'A', 'A', 'A', 'A', 'A', 'A']] uidCount
      (initUid ['0', 'A', 'A']) = some id ∧ IsUid ['0', 'A', 'A'] id ∧
        hashFindId [['0', 'a', 'a', 'A', 'A', 'A', 'A', 'A', 'A']] id = false :=
  (uidGet_exhaustive rfl (.inr rfl)).2.2 _
    (Nat.lt_of_le_of_lt (List.length_filter_le _ _) (by norm_num [uidCount]))

end Unirc
