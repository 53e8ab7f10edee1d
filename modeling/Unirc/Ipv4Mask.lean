import Unirc.GlineMask
import Unirc.Ipv6Mask

/-!
# IPv4 masks

A dotted quad with a length behind `/`, and the forms in which the last components are
written as `*`. `try_parse_v4_netmask` wants nothing behind a `*`, so a second one makes the
text a host name.
-/

namespace Unirc

/-- A component of a dotted quad. -/
structure Octet where
  digits : Str
  ne_nil : digits ≠ []
  isDigit : ∀ c ∈ digits, c.isDigit = true
  le : Decimal.readDigits digits ≤ 255

namespace Octet

def value (o : Octet) : ℕ := Decimal.readDigits o.digits

theorem strtoul_append (o : Octet) {rest : Str} (hr : Decimal.Stops rest) :
    (Decimal.strtoul (o.digits ++ rest)).1 = o.value := by
  have hlt : Decimal.readDigits o.digits < 2 ^ 64 := by have := o.le; omega
  rw [Decimal.strtoul_append o.ne_nil o.isDigit hlt hr, value]

end Octet

/-- Components with dots between them. -/
def joinDots (parts : List Str) : Str := (parts.flatMap ('.' :: ·)).tail

theorem joinDots_cons (part : Str) (parts : List Str) :
    joinDots (part :: parts) = part ++ parts.flatMap ('.' :: ·) := by simp [joinDots]

/-- The masks of `doc/hostmask.txt`: four components and a length, or some components with
`*` for the ones behind them. -/
inductive V4Form where
  | slash (octets : List Octet) (n : MaskLength) (four : octets.length = 4)
      (pos : 0 < n.bits) (le : n.bits ≤ 32)
  | stars (octets : List Octet) (k : ℕ) (pos : 0 < k) (le : octets.length + k ≤ 4)

namespace V4Form

def octets : V4Form → List Octet
  | slash octets _ _ _ _ => octets
  | stars octets _ _ _ => octets

def text : V4Form → Str
  | slash octets n _ _ _ => joinDots (octets.map Octet.digits) ++ '/' :: n.digits
  | stars octets k _ _ => joinDots (octets.map Octet.digits ++ List.replicate k ['*'])

/-- The length that the form stands for. -/
def bits : V4Form → ℕ
  | slash _ n _ _ _ => n.bits
  | stars octets _ _ _ => 8 * octets.length

end V4Form

/-- Four bytes in network order; the missing ones are zero. -/
def V4Addr.ofBytes (bytes : List ℕ) : V4Addr :=
  let byte (k : ℕ) := BitVec.ofNat 8 (bytes.getD k 0)
  byte 0 ++ byte 1 ++ byte 2 ++ byte 3

def V4Form.addr (f : V4Form) : V4Addr := V4Addr.ofBytes (f.octets.map Octet.value)

/-- The mask is read with its length and matches the addresses with its prefix. -/
def V4Form.MasksPrefix (f : V4Form) : Prop :=
  ∃ mask, tryParseV4Netmask f.text = .ipv4 mask f.bits ∧
    ∀ a, matchIpv4 a mask f.bits = true ↔ ∀ j < f.bits, a.getMsbD j = f.addr.getMsbD j

/-- There is one `*` at most, and something in front of it. -/
def V4Form.Plain : V4Form → Prop
  | .slash _ _ _ _ _ => True
  | .stars octets k _ _ => octets ≠ [] ∧ k = 1

/-! ### Matching -/

theorem getMsbD_v4Mask : ∀ n : Fin 33, ∀ j : Fin 32,
    (v4Mask n.val).getMsbD j.val = decide (j.val < n.val) := by decide +kernel

theorem matchIpv4_and_iff (a t : V4Addr) {n : ℕ} (hn : n ≤ 32) :
    matchIpv4 a (t &&& v4Mask n) n = true ↔ ∀ j < n, a.getMsbD j = t.getMsbD j := by
  have hmask : ∀ j < 32, (v4Mask n).getMsbD j = decide (j < n) := fun j hj =>
    getMsbD_v4Mask ⟨n, by omega⟩ ⟨j, hj⟩
  rw [matchIpv4, decide_eq_true_eq]
  constructor
  · intro h j hj
    have hbit := congrArg (fun x : V4Addr => x.getMsbD j) h
    simpa [hmask j (by omega), hj] using hbit
  · intro h
    refine BitVec.eq_of_getMsbD_eq fun j hj => ?_
    rw [BitVec.getMsbD_and, BitVec.getMsbD_and, hmask j hj]
    by_cases hlt : j < n
    · rw [h j hlt]
    · simp [hlt]

theorem ofBytes_and (bytes : List ℕ) (n : ℕ) :
    let byte (k : ℕ) := maskByte n k (BitVec.ofNat 8 (bytes.getD k 0))
    byte 0 ++ byte 1 ++ byte 2 ++ byte 3 = V4Addr.ofBytes bytes &&& v4Mask n := by
  rw [V4Addr.ofBytes, v4Mask_eq_append, BitVec.and_append, BitVec.and_append, BitVec.and_append]
  simp only [maskByte_eq, Int.toNat_natCast]

/-! ### Reading -/

theorem scanV4_digits {ds rest : Str} (hd : ∀ c ∈ ds, c.isDigit = true) (prev : Option Char)
    (starts : List Str) :
    ∃ prev', scanV4 (ds ++ rest) prev starts = scanV4 rest prev' starts := by
  induction ds generalizing prev with
  | nil => exact ⟨prev, rfl⟩
  | cons c ds ih =>
      obtain ⟨prev', h⟩ := ih (fun c hc => hd c (List.mem_cons_of_mem _ hc)) (some c)
      exact ⟨prev', by rw [List.cons_append, scanV4, if_pos (hd c List.mem_cons_self), h]⟩

/-- Where the components behind a dot start. -/
def starts : List Octet → Str → List Str
  | [], _ => []
  | o :: os, rest =>
      (o.digits ++ ((os.map Octet.digits).flatMap ('.' :: ·) ++ rest)) :: starts os rest

@[simp] theorem length_starts (os : List Octet) (rest : Str) :
    (starts os rest).length = os.length := by
  induction os with
  | nil => rfl
  | cons o os ih => rw [starts, List.length_cons, ih, List.length_cons]

theorem scanV4_dots {os : List Octet} {rest : Str} (prev : Option Char) {ss : List Str}
    (hle : ss.length + os.length ≤ 4) :
    ∃ prev', scanV4 ((os.map Octet.digits).flatMap ('.' :: ·) ++ rest) prev ss =
      scanV4 rest prev' (ss ++ starts os rest) := by
  induction os generalizing prev ss with
  | nil => exact ⟨prev, by simp [starts]⟩
  | cons o os ih =>
      rw [List.length_cons] at hle
      obtain ⟨prev₁, hdigits⟩ := scanV4_digits o.isDigit (some '.')
        (ss ++ [o.digits ++ ((os.map Octet.digits).flatMap ('.' :: ·) ++ rest)])
      obtain ⟨prev₂, hdots⟩ := @ih prev₁
        (ss ++ [o.digits ++ ((os.map Octet.digits).flatMap ('.' :: ·) ++ rest)])
        (by rw [List.length_append, List.length_singleton]; omega)
      refine ⟨prev₂, ?_⟩
      rw [List.map_cons, List.flatMap_cons, List.append_assoc, List.cons_append, scanV4,
        if_neg (by decide), if_pos rfl, if_neg (by omega), hdigits, hdots, starts,
        List.append_assoc, List.singleton_append]

theorem stops_dots (parts : List Str) {rest : Str} (hr : Decimal.Stops rest) :
    Decimal.Stops (parts.flatMap ('.' :: ·) ++ rest) := by
  cases parts with
  | nil => exact hr
  | cons part parts => exact Decimal.stops_cons (by decide)

theorem values_starts (os : List Octet) {rest : Str} (hr : Decimal.Stops rest) :
    (starts os rest).map (fun s => (Decimal.strtoul s).1) = os.map Octet.value := by
  induction os with
  | nil => rfl
  | cons o os ih =>
      rw [starts, List.map_cons, List.map_cons, ih, o.strtoul_append (stops_dots _ hr)]

theorem scanV4_octets (o : Octet) {os : List Octet} (rest : Str) (hle : os.length ≤ 3) :
    let text := joinDots ((o :: os).map Octet.digits) ++ rest
    ∃ prev, scanV4 text none [text] = scanV4 rest prev (starts (o :: os) rest) := by
  intro text
  have htext : text = o.digits ++ ((os.map Octet.digits).flatMap ('.' :: ·) ++ rest) := by
    rw [← List.append_assoc, ← joinDots_cons, ← List.map_cons]
  obtain ⟨prev₁, hdigits⟩ := @scanV4_digits o.digits
    ((os.map Octet.digits).flatMap ('.' :: ·) ++ rest) o.isDigit none [text]
  obtain ⟨prev₂, hdots⟩ := @scanV4_dots os rest prev₁ [text] (by rw [List.length_singleton]; omega)
  refine ⟨prev₂, ?_⟩
  rw [htext] at hdots hdigits ⊢
  rw [hdigits, hdots, starts, List.singleton_append]

theorem getD_append_zeros (l : List ℕ) {zeros : List ℕ} (hz : ∀ z ∈ zeros, z = 0) (k : ℕ) :
    (l ++ zeros).getD k 0 = l.getD k 0 := by
  rcases Nat.lt_or_ge k l.length with hk | hk
  · rw [List.getD_append _ _ _ _ hk]
  · rw [List.getD_append_right _ _ _ _ hk, List.getD_eq_default l 0 hk]
    rcases Nat.lt_or_ge (k - l.length) zeros.length with hk' | hk'
    · rw [List.getD_eq_getElem _ _ hk']
      exact hz _ (List.getElem_mem hk')
    · exact List.getD_eq_default _ _ hk'

theorem ofBytes_append_zeros (l : List ℕ) {zeros : List ℕ} (hz : ∀ z ∈ zeros, z = 0) :
    V4Addr.ofBytes (l ++ zeros) = V4Addr.ofBytes l := by
  simp only [V4Addr.ofBytes, getD_append_zeros l hz]

theorem strtoul_getD (ss : List Str) (k : ℕ) : (Decimal.strtoul (ss.getD k [])).1 =
    (ss.map fun s => (Decimal.strtoul s).1).getD k 0 := by
  rw [show 0 = (Decimal.strtoul []).1 by rfl, List.getD_map]

/-- The address is made of the values at the starts, and its host bits are cleared. -/
theorem tryParseV4Netmask_of_scanV4 {text : Str} {ss : List Str} {n : ℕ}
    (h : scanV4 text none [text] = some (ss, (n : ℤ))) (hn : n ≠ 0) :
    tryParseV4Netmask text =
      .ipv4 (V4Addr.ofBytes (ss.map fun s => (Decimal.strtoul s).1) &&& v4Mask n) n := by
  have hn' : (n : ℤ) ≠ 0 := by exact_mod_cast hn
  have hzero : ∀ z ∈ (List.replicate (4 - ss.length) ['0']).map (fun s => (Decimal.strtoul s).1),
      z = 0 := by
    intro z hz
    rw [List.map_replicate] at hz
    rw [(List.mem_replicate.mp hz).2]
    decide
  rw [← ofBytes_append_zeros _ hzero, ← List.map_append, ← ofBytes_and]
  unfold tryParseV4Netmask
  rw [h]
  simp only [hn', and_false, if_false, ne_eq, not_false_eq_true, if_true, strtoul_getD]

/-- Four components without a length are a whole address. -/
theorem tryParseV4Netmask_whole {text : Str} {ss : List Str}
    (h : scanV4 text none [text] = some (ss, 0)) (hlen : ss.length = 4) :
    tryParseV4Netmask text = .ipv4 (V4Addr.ofBytes (ss.map fun s => (Decimal.strtoul s).1)) 32 := by
  have hmask := ofBytes_and (ss.map fun s => (Decimal.strtoul s).1) 32
  rw [show v4Mask 32 = BitVec.allOnes 32 by decide, BitVec.and_allOnes] at hmask
  rw [← hmask]
  unfold tryParseV4Netmask
  rw [h]
  simp only [hlen, Nat.lt_irrefl, false_and, if_false, if_true, ne_eq, not_true_eq_false,
    strtoul_getD]
  rfl

theorem masksPrefix_slash (octets : List Octet) (n : MaskLength) (four : octets.length = 4)
    (pos : 0 < n.bits) (le : n.bits ≤ 32) : (V4Form.slash octets n four pos le).MasksPrefix := by
  obtain ⟨o, os, rfl⟩ := List.exists_cons_of_length_eq_add_one four
  rw [List.length_cons] at four
  obtain ⟨prev, hscan⟩ := scanV4_octets o ('/' :: n.digits) (show os.length ≤ 3 by omega)
  have hend : scanV4 ('/' :: n.digits) prev (starts (o :: os) ('/' :: n.digits)) =
      some (starts (o :: os) ('/' :: n.digits), (n.bits : ℤ)) := by
    rw [scanV4, if_neg (by decide), if_neg (by decide), if_neg (by decide), if_pos rfl]
    simp only [n.strtoul_digits, n.toCInt_bits, length_starts, List.length_cons, ne_eq,
      not_true_eq_false, or_false]
    rw [if_neg (by omega), if_neg (by omega)]
  refine ⟨_, tryParseV4Netmask_of_scanV4 (hscan.trans hend) pos.ne', fun a => ?_⟩
  rw [values_starts _ (Decimal.stops_cons (by decide))]
  exact matchIpv4_and_iff a _ le

theorem joinDots_stars (o : Octet) (os : List Octet) (k : ℕ) :
    joinDots ((o :: os).map Octet.digits ++ List.replicate (k + 1) ['*']) =
      joinDots ((o :: os).map Octet.digits) ++
        '.' :: '*' :: (List.replicate k ['*']).flatMap ('.' :: ·) := by
  rw [List.map_cons, List.cons_append, joinDots_cons, joinDots_cons, List.flatMap_append,
    List.replicate_succ, List.flatMap_cons, List.append_assoc]
  rfl

/-- The scan of a form with `*`: it stops at the first one. -/
theorem scanV4_stars (o : Octet) {os : List Octet} {k : ℕ} (hle : os.length + k ≤ 2) :
    let text := joinDots ((o :: os).map Octet.digits ++ List.replicate (k + 1) ['*'])
    let behind := (List.replicate k ['*']).flatMap ('.' :: ·)
    scanV4 text none [text] = if behind ≠ [] then none else
      some (starts (o :: os) ('.' :: '*' :: behind) ++ ['*' :: behind],
        ((os.length + 1 : ℕ) : ℤ) * 8) := by
  intro text behind
  obtain ⟨prev, hscan⟩ := scanV4_octets o ('.' :: '*' :: behind) (show os.length ≤ 3 by omega)
  have htext : text = joinDots ((o :: os).map Octet.digits) ++ '.' :: '*' :: behind :=
    joinDots_stars o os k
  rw [htext, hscan, scanV4, if_neg (by decide), if_pos rfl,
    if_neg (by rw [length_starts, List.length_cons]; omega), scanV4, if_neg (by decide),
    if_neg (by decide), if_pos rfl]
  simp only [ne_eq, not_true_eq_false, or_false, List.length_append, length_starts,
    List.length_cons, List.length_nil]
  by_cases h : behind = [] <;> simp [h]

theorem masksPrefix_stars_iff (octets : List Octet) (k : ℕ) (pos : 0 < k)
    (le : octets.length + k ≤ 4) :
    (V4Form.stars octets k pos le).MasksPrefix ↔ octets ≠ [] ∧ k = 1 := by
  obtain ⟨k, rfl⟩ := Nat.exists_eq_add_one_of_ne_zero pos.ne'
  cases octets with
  | nil =>
      have htext : (V4Form.stars [] (k + 1) pos le).text =
          '*' :: (List.replicate k ['*']).flatMap ('.' :: ·) := by
        rw [V4Form.text, List.map_nil, List.nil_append, List.replicate_succ, joinDots_cons]
        rfl
      have hhost : tryParseV4Netmask (V4Form.stars [] (k + 1) pos le).text = .host := by
        rw [htext, tryParseV4Netmask, scanV4, if_neg (by decide), if_neg (by decide), if_pos rfl,
          if_pos (Or.inr (by simp))]
      exact iff_of_false (fun ⟨mask, h, _⟩ => by rw [hhost] at h; cases h) (fun h => h.1 rfl)
  | cons o os =>
      rw [List.length_cons] at le
      have hscan := scanV4_stars o (show os.length + k ≤ 2 by omega)
      constructor
      · rintro ⟨mask, h, -⟩
        refine ⟨List.cons_ne_nil _ _, ?_⟩
        cases k with
        | zero => rfl
        | succ k =>
            rw [tryParseV4Netmask, V4Form.text, hscan, if_pos (by simp [List.replicate_succ])] at h
            cases h
      · rintro ⟨-, hk⟩
        obtain rfl : k = 0 := by omega
        have hone := hscan.trans (if_neg (by simp))
        have hbits : (V4Form.stars (o :: os) (0 + 1) pos le).bits = 8 * (os.length + 1) := rfl
        have hcast : ((os.length + 1 : ℕ) : ℤ) * 8 = ((8 * (os.length + 1) : ℕ) : ℤ) := by
          omega
        rw [hcast] at hone
        refine ⟨_, tryParseV4Netmask_of_scanV4 hone (by omega), fun a => ?_⟩
        rw [hbits, List.map_append, values_starts _ (Decimal.stops_cons (by decide)),
          ofBytes_append_zeros _ (by decide)]
        exact matchIpv4_and_iff a _ (by omega)

/-- A mask is read as the prefix it stands for unless it has more than one `*`. -/
theorem masksPrefix_iff_plain (f : V4Form) : f.MasksPrefix ↔ f.Plain := by
  cases f with
  | slash octets n four pos le => exact iff_of_true (masksPrefix_slash octets n four pos le) trivial
  | stars octets k pos le => exact masksPrefix_stars_iff octets k pos le

/-- The form `1.2.*.*` of `doc/hostmask.txt` is taken for a host name. -/
theorem not_forall_masksPrefix : ¬ ∀ f : V4Form, f.MasksPrefix := by
  intro h
  obtain ⟨mask, hmask, -⟩ := h (.stars [⟨['1'], by decide, List.all_eq_true.mp rfl, by decide⟩,
    ⟨['2'], by decide, List.all_eq_true.mp rfl, by decide⟩] 2 (by decide) (by decide))
  have hhost : tryParseV4Netmask "1.2.*.*".toList = .host := rfl
  exact absurd (hhost.symm.trans hmask) (by simp)

end Unirc
