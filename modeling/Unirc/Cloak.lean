import Unirc.Inetntop

/-!
# Cloaked IPv6 addresses

`hidehost_ipv6` of `cloak.c` reads the eight groups of an address with one `sscanf`, which stops at
`::`. The groups behind it keep whatever their variables had.
-/

namespace Unirc

/-- A digest of `DoMD5`. -/
abbrev Digest := Fin 16 → BitVec 8

namespace Digest

/-- The digest as the first 16 bytes of a buffer. -/
def text (d : Digest) : Str := List.ofFn fun i => Char.ofNat (d i).toNat

theorem neZero_sixteen : NeZero 16 := ⟨Nat.succ_ne_zero 15⟩

attribute [local instance] neZero_sixteen

/-- `downsample`, whose bytes are signed. -/
def downsample (i : Digest) : BitVec 32 :=
  let r₀ := i 0 ^^^ i 1 ^^^ i 2 ^^^ i 3
  let r₁ := i 4 ^^^ i 5 ^^^ i 6 ^^^ i 7
  let r₂ := i 8 ^^^ i 9 ^^^ i 10 ^^^ i 11
  let r₃ := i 12 ^^^ i 13 ^^^ i 14 ^^^ i 15
  (r₀.signExtend 32 <<< 24) + (r₁.signExtend 32 <<< 16) + (r₂.signExtend 32 <<< 8) +
    r₃.signExtend 32

end Digest

/-- `KEY1`, `KEY2` and `KEY3`. -/
structure CloakKeys where
  key1 : Str
  key2 : Str
  key3 : Str

/-- `alpha`, `beta` and `gamma`. -/
structure Ipv6Cloak where
  alpha : BitVec 32
  beta : BitVec 32
  gamma : BitVec 32

/-- `"%X"`. -/
def upperHex (n : ℕ) : Str := (Nat.toDigits 16 n).map Char.toUpper

/-- `result`. -/
def Ipv6Cloak.text (c : Ipv6Cloak) : Str :=
  upperHex c.alpha.toNat ++ ':' :: upperHex c.beta.toNat ++ ':' :: upperHex c.gamma.toNat ++
    ":IP".toList

/-- `"%x"` of `sscanf`: the number, and what stands behind it. -/
def scanHex (s : Str) : Option (BitVec 32 × Str) :=
  let s := s.dropWhile Decimal.isSpace
  let negative := s.head? = some '-'
  let s := if s.head? = some '-' ∨ s.head? = some '+' then s.tail else s
  let s := match s with
    | '0' :: 'x' :: s | '0' :: 'X' :: s => s
    | s => s
  let digits := s.takeWhile isHex
  if digits = [] then none
  else
    let v := BitVec.ofNat 32 (min (hexValue digits) (2 ^ 64 - 1))
    some (if negative then -v else v, s.dropWhile isHex)

/-- `"%x:%x:"` and so on, `n` times `%x`. -/
def scanGroups : ℕ → Str → List (BitVec 32)
  | 0, _ => []
  | n + 1, s =>
      match scanHex s with
      | none => []
      | some (v, rest) =>
          v :: match rest with
            | ':' :: rest => scanGroups n rest
            | _ => []

/-- The variables `a` to `h`, which had the values of `junk`. -/
def scanned (junk : Fin 8 → BitVec 32) (host : Str) (i : Fin 8) : BitVec 32 :=
  (scanGroups 8 host).getD i (junk i)

/-- `"%s:..:%s"` with numbers as `%x` between two keys. -/
def keyedGroups (before : Str) (groups : List (BitVec 32)) (behind : Str) : Str :=
  before ++ ':' :: joinColons (groups.map fun g => Nat.toDigits 16 g.toNat) ++ ':' :: behind

section

variable (md5 : Str → Digest)

/-- `downsample(md5(md5(buf) + key))`. -/
def doubleMd5 (buf key : Str) : BitVec 32 := (md5 ((md5 buf).text ++ key)).downsample

def hidehostIpv6 (keys : CloakKeys) (junk : Fin 8 → BitVec 32) (host : Str) : Ipv6Cloak :=
  let g := scanned junk host
  { alpha := doubleMd5 md5 (keys.key2 ++ ':' :: host ++ ':' :: keys.key3) keys.key1
    beta := doubleMd5 md5 (keyedGroups keys.key3 [g 0, g 1, g 2, g 3, g 4, g 5, g 6] keys.key1) keys.key2
    gamma := doubleMd5 md5 (keyedGroups keys.key1 [g 0, g 1, g 2, g 3] keys.key2) keys.key3 }

end

/-- An address with the text of it that `inetntop` produces, and that `hidehost` takes for the text
of an IPv6 address. -/
structure Ipv6Host where
  addr : V6Addr
  host : Str
  size : ℕ
  produced : inetntop (.inet6 addr) size = some host
  colon : ':' ∈ host

/-- The cloaks of two addresses: each address has one, and they agree as far as the claimed part of
the addresses does. -/
structure CloakPrefixes (md5 : Str → Digest) (keys : CloakKeys) (x y : Ipv6Host) : Prop where
  left : ∀ junk junk', hidehostIpv6 md5 keys junk x.host = hidehostIpv6 md5 keys junk' x.host
  right : ∀ junk junk', hidehostIpv6 md5 keys junk y.host = hidehostIpv6 md5 keys junk' y.host
  address : x.addr = y.addr → ∀ junk junk',
    hidehostIpv6 md5 keys junk x.host = hidehostIpv6 md5 keys junk' y.host
  gamma : SamePrefix 64 x.addr y.addr → ∀ junk junk',
    (hidehostIpv6 md5 keys junk x.host).gamma = (hidehostIpv6 md5 keys junk' y.host).gamma
  beta : SamePrefix 112 x.addr y.addr → ∀ junk junk',
    (hidehostIpv6 md5 keys junk x.host).beta = (hidehostIpv6 md5 keys junk' y.host).beta ∧
      (hidehostIpv6 md5 keys junk x.host).gamma = (hidehostIpv6 md5 keys junk' y.host).gamma

/-- The text has no `::`. -/
def Ipv6Host.Uncompressed (x : Ipv6Host) : Prop := ¬ [':', ':'] <:+: x.host

/-! ### Scanning -/

theorem isHex_ne {c d : Char} (h : isHex c = true) (hd : isHex d = false) : c ≠ d := by
  rintro rfl
  exact absurd h (by rw [hd]; exact Bool.false_ne_true)

theorem isHex_not_isSpace {c : Char} (h : isHex c = true) : Decimal.isSpace c = false := by
  have hge : 48 ≤ c.toNat := by
    by_contra hlt
    have hnot : hexDigit? c = none := by
      have hzero : ¬ '0' ≤ c := fun h => hlt (Char.le_def.mp h)
      have hA : ¬ 'A' ≤ c := fun h => hlt (le_trans (by decide) (Char.le_def.mp h))
      have ha : ¬ 'a' ≤ c := fun h => hlt (le_trans (by decide) (Char.le_def.mp h))
      rw [hexDigit?, if_neg fun h => hzero h.1, if_neg fun h => hA h.1, if_neg fun h => ha h.1]
    rw [isHex, hnot] at h
    cases h
  have hne : c ≠ ' ' := isHex_ne h (by decide)
  rw [Decimal.isSpace, decide_eq_false hne, Bool.false_or, Bool.and_eq_false_iff]
  exact .inr (decide_eq_false (by omega))

/-- One group is read to its end. -/
theorem scanHex_field {f rest : Str} (hne : f ≠ []) (hf : IsField f)
    (hrest : ∀ c ∈ rest.head?, c = ':') :
    scanHex (f ++ rest) = some (BitVec.ofNat 32 (hexValue f), rest) := by
  obtain ⟨c, f', rfl⟩ := List.exists_cons_of_ne_nil hne
  have hc := hf.2 c List.mem_cons_self
  have hspace : (c :: f' ++ rest).dropWhile Decimal.isSpace = c :: f' ++ rest := by
    rw [List.cons_append, List.dropWhile_cons_of_neg (by simp [isHex_not_isSpace hc])]
  have hsign (d : Char) (hd : isHex d = false) : (c :: f' ++ rest).head? ≠ some d := fun h =>
    isHex_ne hc hd (Option.some.inj h)
  have hx : ∀ d ∈ (f' ++ rest).head?, d ≠ 'x' ∧ d ≠ 'X' := by
    intro d hd
    cases f' with
    | nil =>
        rw [hrest d hd]
        decide
    | cons e f' =>
        obtain rfl : e = d := Option.some.inj hd
        have he := hf.2 e (List.mem_cons_of_mem c List.mem_cons_self)
        exact ⟨isHex_ne he (by decide), isHex_ne he (by decide)⟩
  have hstop : rest.takeWhile isHex = [] ∧ rest.dropWhile isHex = rest := by
    cases rest with
    | nil => exact ⟨rfl, rfl⟩
    | cons d rest =>
        obtain rfl := hrest d rfl
        exact ⟨rfl, rfl⟩
  have hlt : hexValue (c :: f') < 16 ^ 4 :=
    lt_of_lt_of_le hexValue_lt (Nat.pow_le_pow_right (by decide) hf.1)
  have hdigits : (c :: f' ++ rest).takeWhile isHex = c :: f' := by
    rw [List.takeWhile_append_of_pos hf.2, hstop.1, List.append_nil]
  have hbehind : (c :: f' ++ rest).dropWhile isHex = rest := by
    rw [List.dropWhile_append_of_pos hf.2, hstop.2]
  rw [scanHex, hspace]
  dsimp only
  rw [if_neg (not_or.mpr ⟨hsign '-' (by decide), hsign '+' (by decide)⟩)]
  split
  · rename_i s' heq
    rw [List.cons_append] at heq
    exact absurd rfl (hx 'x' (by rw [(List.cons.inj heq).2]; rfl)).1
  · rename_i s' heq
    rw [List.cons_append] at heq
    exact absurd rfl (hx 'X' (by rw [(List.cons.inj heq).2]; rfl)).2
  · rw [hdigits, hbehind, if_neg (List.cons_ne_nil c f'), if_neg (by simpa using hsign '-' (by decide)),
      Nat.min_eq_left (by omega)]

theorem scanGroups_gap (n : ℕ) {rest : Str} (h : rest = [] ∨ ∃ r, rest = ':' :: r) :
    scanGroups n rest = [] := by
  rcases h with rfl | ⟨r, rfl⟩ <;> cases n <;> rfl

/-- The groups up to a `::` or the end are read. -/
theorem scanGroups_fields {fs : List Str} (hfs : ∀ f ∈ fs, f ≠ [] ∧ IsField f) {n : ℕ}
    (hn : fs.length ≤ n) {rest : Str} (hrest : rest = [] ∨ ∃ r, rest = ':' :: ':' :: r) :
    scanGroups n (joinColons fs ++ rest) = fs.map fun f => BitVec.ofNat 32 (hexValue f) := by
  induction fs generalizing n with
  | nil => exact scanGroups_gap n (hrest.imp_right fun ⟨r, hr⟩ => ⟨_, hr⟩)
  | cons f fs ih =>
      obtain ⟨n, rfl⟩ := Nat.exists_eq_add_one.mpr (Nat.zero_lt_of_lt hn)
      obtain ⟨hne, hf⟩ := hfs f List.mem_cons_self
      have hfs' := fun g hg => hfs g (List.mem_cons_of_mem f hg)
      have hn' := Nat.le_of_succ_le_succ hn
      cases fs with
      | nil =>
          have hhead : ∀ c ∈ rest.head?, c = ':' := by
            rcases hrest with rfl | ⟨r, rfl⟩
            · exact nofun
            · exact fun c hc => (Option.some.inj hc).symm
          rw [joinColons, scanGroups, scanHex_field hne hf hhead]
          rcases hrest with rfl | ⟨r, rfl⟩
          · rfl
          · exact congrArg _ (scanGroups_gap n (.inr ⟨r, rfl⟩))
      | cons g fs =>
          have hjoin : joinColons (f :: g :: fs) ++ rest =
              f ++ ':' :: (joinColons (g :: fs) ++ rest) := by
            rw [joinColons, List.append_assoc, List.cons_append]
          have hhead : ∀ c ∈ (':' :: (joinColons (g :: fs) ++ rest)).head?, c = ':' :=
            fun c hc => (Option.some.inj hc).symm
          rw [hjoin, scanGroups, scanHex_field hne hf hhead]
          exact congrArg _ (ih hfs' hn')

/-! ### The texts of `inetntop` -/

theorem not_gap_joinColons {fs : List Str} (hfs : ∀ f ∈ fs, f ≠ [] ∧ IsField f) :
    ¬ [':', ':'] <:+: joinColons fs := by
  have hfield (f rest : Str) (hf : ∀ c ∈ f, isHex c = true) (hrest : ¬ [':', ':'] <:+: rest) :
      ¬ [':', ':'] <:+: f ++ rest := by
    induction f with
    | nil => exact hrest
    | cons c f ih =>
        rw [List.cons_append, List.infix_cons_iff]
        refine not_or.mpr ⟨fun h => ?_, ih fun c hc => hf c (List.mem_cons_of_mem _ hc)⟩
        exact isHex_ne (hf c List.mem_cons_self) (by decide) (List.cons_prefix_cons.mp h).1.symm
  induction fs with
  | nil => simp [joinColons]
  | cons f fs ih =>
      have hf := (hfs f List.mem_cons_self).2.2
      have hfs' := fun g hg => hfs g (List.mem_cons_of_mem f hg)
      cases fs with
      | nil =>
          rw [joinColons, ← List.append_nil f]
          exact hfield f [] hf (by simp)
      | cons g fs =>
          rw [joinColons]
          refine hfield f _ hf ?_
          rw [List.infix_cons_iff]
          refine not_or.mpr ⟨fun h => ?_, ih hfs'⟩
          obtain ⟨hne, hg⟩ := hfs' g List.mem_cons_self
          obtain ⟨c, g', rfl⟩ := List.exists_cons_of_ne_nil hne
          rw [joinColons_cons_append] at h
          have hc := (List.cons_prefix_cons.mp (List.cons_prefix_cons.mp h).2).1
          exact isHex_ne (hg.2 c List.mem_cons_self) (by decide) hc.symm

namespace Ipv6Host

/-- What is written for the address. -/
theorem exists_text (x : Ipv6Host) :
    ∃ t : V6Text, t.quad = none ∧ t.words = x.addr.toWords.map BitVec.toNat ∧
      (t.after.isSome → t.before.length ≤ 6) ∧ ∀ y : Ipv6Host, y.addr = x.addr → y.host = t.text := by
  have hnative (y : Ipv6Host) : ¬ (y.addr.V4Mapped ∨ y.addr.V4Compat) := fun h => by
    have hproduced := y.produced
    rw [inetntop, if_pos h] at hproduced
    have hcolon := y.colon
    rw [← eq_of_inetNtop4 hproduced] at hcolon
    exact colon_not_mem_inetntoa _ hcolon
  obtain ⟨hmapped, hcompat⟩ := not_or.mp (hnative x)
  obtain ⟨t, hquad, hwords, hlen, htext⟩ :=
    exists_text_inetNtop6 x.addr (V6Addr.not_encapsulated hmapped hcompat)
  refine ⟨t, hquad, hwords, hlen, fun y hy => ?_⟩
  have hproduced := y.produced
  rw [inetntop, if_neg (hnative y), hy, htext] at hproduced
  split at hproduced
  · cases hproduced
  · exact (Option.some.inj hproduced).symm

theorem host_eq {x y : Ipv6Host} (h : x.addr = y.addr) : x.host = y.host := by
  obtain ⟨t, -, -, -, htext⟩ := x.exists_text
  rw [htext x rfl, htext y h.symm]

/-- Without a `::` all groups are written, and all are read. -/
theorem Uncompressed.scanned {x : Ipv6Host} (h : x.Uncompressed) (junk : Fin 8 → BitVec 32)
    (i : Fin 8) : scanned junk x.host i = BitVec.ofNat 32 (x.addr.toWords.getD i 0).toNat := by
  obtain ⟨t, hquad, hwords, -, htext⟩ := x.exists_text
  rw [Uncompressed, htext x rfl] at h
  cases hafter : t.after with
  | some after =>
      refine absurd ?_ h
      simp only [V6Text.text, hafter]
      exact ⟨joinColons t.before, joinColons (after ++ t.quad.toList.map quadText), by simp⟩
  | none =>
      have hbefore : t.before.length = 8 := by simpa [GroupsFit, hafter, hquad] using t.count
      have hhost : x.host = joinColons t.before ++ [] := by
        rw [htext x rfl]
        simp [V6Text.text, hafter, hquad]
      have hmap : t.before.map hexValue = x.addr.toWords.map BitVec.toNat := by
        rw [← hwords]
        simp [V6Text.words, hafter, hquad]
      have hread := scanGroups_fields t.before_isField hbefore.le (.inl rfl : ([] : Str) = [] ∨ _)
      rw [← hhost] at hread
      have hlist : scanGroups 8 x.host =
          x.addr.toWords.map fun w => BitVec.ofNat 32 w.toNat := by
        rw [hread, ← Function.comp_def (BitVec.ofNat 32) hexValue, ← List.map_map, hmap,
          List.map_map]
        rfl
      have hi : i.val < x.addr.toWords.length := by
        rw [V6Addr.length_toWords]
        exact i.isLt
      rw [Unirc.scanned, hlist, List.getD_eq_getElem _ _ (by rwa [List.length_map]),
        List.getElem_map, List.getD_eq_getElem _ _ hi]

/-- Behind a `::` the seventh group is whatever it was. -/
theorem scanned_junk {x : Ipv6Host} (h : ¬ x.Uncompressed) (junk : Fin 8 → BitVec 32) :
    scanned junk x.host 6 = junk 6 := by
  obtain ⟨t, hquad, -, hlen, htext⟩ := x.exists_text
  cases hafter : t.after with
  | none =>
      refine absurd ?_ h
      have hhost : x.host = joinColons t.before := by
        rw [htext x rfl]
        simp [V6Text.text, hafter, hquad]
      rw [Uncompressed, hhost]
      exact not_gap_joinColons t.before_isField
  | some after =>
      have hlen := hlen (by rw [hafter]; rfl)
      have hread := scanGroups_fields (n := 8) t.before_isField (by omega)
        (.inr ⟨joinColons after, rfl⟩ : ':' :: ':' :: joinColons after = [] ∨ _)
      have hhost : x.host = joinColons t.before ++ ':' :: ':' :: joinColons after := by
        rw [htext x rfl]
        simp [V6Text.text, hafter, hquad]
      rw [scanned, hhost, hread, List.getD_eq_default]
      rw [List.length_map]
      exact hlen

end Ipv6Host

theorem getD_toWords_of_samePrefix {a b : V6Addr} {n k : ℕ} (h : SamePrefix n a b) (hk : k < 8)
    (hn : 16 * (k + 1) ≤ n) : a.toWords.getD k 0 = b.toWords.getD k 0 := by
  have hbyte (m : ℕ) (hm : m < 16) (hmn : 8 * (m + 1) ≤ n) : a ⟨m, hm⟩ = b ⟨m, hm⟩ := by
    refine byte_ext_iff.mpr fun j hj => ?_
    have hbit := h (8 * m + j) (by omega)
    rw [V6Addr.bit, V6Addr.bit, dif_pos (by omega), dif_pos (by omega)] at hbit
    simp only [show (8 * m + j) / 8 = m by omega, show (8 * m + j) % 8 = j by omega] at hbit
    exact hbit
  rw [List.getD_eq_getElem?_getD, List.getD_eq_getElem?_getD, a.getElem?_toWords hk,
    b.getElem?_toWords hk, hbyte (2 * k) (by omega) (by omega),
    hbyte (2 * k + 1) (by omega) (by omega)]

/-! ### Digests -/

/-- Some byte is not the first one of a text. -/
theorem exists_byte (s : Str) : ∃ b : BitVec 8, s.head? ≠ some (Char.ofNat b.toNat) := by
  by_cases h : s.head? = some '\x01'
  · exact ⟨2, by rw [h]; decide⟩
  · exact ⟨1, h⟩

/-- Two equal bytes, which cancel, and one behind them. -/
def Digest.twin (p v : BitVec 8) : Digest := fun i =>
  if i.val < 2 then p else if i.val = 4 then v else 0

theorem Digest.downsample_twin (p v : BitVec 8) :
    (twin p v).downsample = v.signExtend 32 <<< 16 := by
  change (p ^^^ p ^^^ 0 ^^^ 0).signExtend 32 <<< 24 + (v ^^^ 0 ^^^ 0 ^^^ 0).signExtend 32 <<< 16 +
    (0 ^^^ 0 ^^^ 0 ^^^ 0 : BitVec 8).signExtend 32 <<< 8 +
    (0 ^^^ 0 ^^^ 0 ^^^ 0 : BitVec 8).signExtend 32 = _
  simp

/-- Some function tells two texts apart through both of its rounds. -/
theorem exists_doubleMd5_ne {s t : Str} (key : Str) (h : s ≠ t) :
    ∃ md5, doubleMd5 md5 s key ≠ doubleMd5 md5 t key := by
  obtain ⟨p, hp⟩ := exists_byte s
  obtain ⟨q, hq⟩ := exists_byte t
  let d₀ := Digest.twin p 0
  let d₁ := Digest.twin q 1
  have hhead₀ : (d₀.text ++ key).head? = some (Char.ofNat p.toNat) := rfl
  have hhead₁ : (d₁.text ++ key).head? = some (Char.ofNat q.toNat) := rfl
  have hs : d₀.text ++ key ≠ s := fun heq => hp (heq ▸ hhead₀)
  have ht : t ≠ d₁.text ++ key := fun heq => hq (heq ▸ hhead₁)
  have hd : d₀.text ++ key ≠ d₁.text ++ key := by
    intro heq
    have hfive := congrArg (·[4]?) heq
    exact absurd hfive (by decide : some (Char.ofNat 0) ≠ some (Char.ofNat 1))
  let md5 : Str → Digest := fun u => if u = s ∨ u = d₁.text ++ key then d₁ else d₀
  have hs₁ : md5 s = d₁ := if_pos (.inl rfl)
  have hs₂ : md5 (d₁.text ++ key) = d₁ := if_pos (.inr rfl)
  have ht₁ : md5 t = d₀ := if_neg (not_or.mpr ⟨h.symm, ht⟩)
  have ht₂ : md5 (d₀.text ++ key) = d₀ := if_neg (not_or.mpr ⟨hs, hd⟩)
  refine ⟨md5, ?_⟩
  rw [doubleMd5, doubleMd5, hs₁, hs₂, ht₁, ht₂, Digest.downsample_twin, Digest.downsample_twin]
  decide

/-- The last of seven groups can be told from the text between the keys. -/
theorem keyedGroups_ne (before behind : Str) (a b c d e f : BitVec 32) :
    keyedGroups before [a, b, c, d, e, f, 0] behind ≠
      keyedGroups before [a, b, c, d, e, f, 1] behind := by
  have hone : Nat.toDigits 16 1 = ['1'] := rfl
  simp [keyedGroups, joinColons, hone]

namespace Ipv6Host

variable {keys : CloakKeys} {x y : Ipv6Host}

/-- A group behind a `::` makes two cloaks of one address. -/
theorem exists_cloaks_ne (keys : CloakKeys) (h : ¬ x.Uncompressed) : ∃ md5 junk junk',
    hidehostIpv6 md5 keys junk x.host ≠ hidehostIpv6 md5 keys junk' x.host := by
  let junk : Fin 8 → BitVec 32 := fun _ => 0
  let junk' := Function.update junk 6 1
  have hother (i : Fin 8) (hi : i ≠ 6) : scanned junk' x.host i = scanned junk x.host i :=
    congrArg _ (Function.update_of_ne hi 1 junk)
  obtain ⟨md5, hmd5⟩ := exists_doubleMd5_ne keys.key2 (keyedGroups_ne keys.key3 keys.key1
    (scanned junk x.host 0) (scanned junk x.host 1) (scanned junk x.host 2)
    (scanned junk x.host 3) (scanned junk x.host 4) (scanned junk x.host 5))
  refine ⟨md5, junk, junk', fun heq => hmd5 ?_⟩
  have hbeta := congrArg Ipv6Cloak.beta heq
  rw [hidehostIpv6, hidehostIpv6] at hbeta
  dsimp only at hbeta
  rw [scanned_junk h, scanned_junk h, hother 0 (by decide), hother 1 (by decide),
    hother 2 (by decide), hother 3 (by decide), hother 4 (by decide), hother 5 (by decide)] at hbeta
  exact hbeta

theorem Uncompressed.hidehostIpv6_eq (hx : x.Uncompressed) (md5 : Str → Digest)
    (junk junk' : Fin 8 → BitVec 32) :
    hidehostIpv6 md5 keys junk x.host = hidehostIpv6 md5 keys junk' x.host := by
  have hscan : Unirc.scanned junk x.host = Unirc.scanned junk' x.host := funext fun i => by
    rw [hx.scanned, hx.scanned]
  rw [hidehostIpv6, hidehostIpv6, hscan]

theorem Uncompressed.gamma_eq (hx : x.Uncompressed) (hy : y.Uncompressed)
    (h : SamePrefix 64 x.addr y.addr) (md5 : Str → Digest) (junk junk' : Fin 8 → BitVec 32) :
    (hidehostIpv6 md5 keys junk x.host).gamma = (hidehostIpv6 md5 keys junk' y.host).gamma := by
  have hgroup (i : Fin 8) (hi : i.val < 4) :
      Unirc.scanned junk x.host i = Unirc.scanned junk' y.host i := by
    rw [hx.scanned, hy.scanned, getD_toWords_of_samePrefix h i.isLt (by omega)]
  rw [hidehostIpv6, hidehostIpv6]
  dsimp only
  rw [hgroup 0 (by decide), hgroup 1 (by decide), hgroup 2 (by decide), hgroup 3 (by decide)]

theorem Uncompressed.beta_eq (hx : x.Uncompressed) (hy : y.Uncompressed)
    (h : SamePrefix 112 x.addr y.addr) (md5 : Str → Digest) (junk junk' : Fin 8 → BitVec 32) :
    (hidehostIpv6 md5 keys junk x.host).beta = (hidehostIpv6 md5 keys junk' y.host).beta := by
  have hgroup (i : Fin 8) (hi : i.val < 7) :
      Unirc.scanned junk x.host i = Unirc.scanned junk' y.host i := by
    rw [hx.scanned, hy.scanned, getD_toWords_of_samePrefix h i.isLt (by omega)]
  rw [hidehostIpv6, hidehostIpv6]
  dsimp only
  rw [hgroup 0 (by decide), hgroup 1 (by decide), hgroup 2 (by decide), hgroup 3 (by decide),
    hgroup 4 (by decide), hgroup 5 (by decide), hgroup 6 (by decide)]

end Ipv6Host

/-- With every function for MD5, the cloaks of two addresses are what they should be when no `::`
stands in their texts, and only then. -/
theorem cloakPrefixes_iff (keys : CloakKeys) (x y : Ipv6Host) :
    (∀ md5, CloakPrefixes md5 keys x y) ↔ x.Uncompressed ∧ y.Uncompressed := by
  constructor
  · intro h
    refine ⟨?_, ?_⟩
    · by_contra hx
      obtain ⟨md5, junk, junk', hne⟩ := Ipv6Host.exists_cloaks_ne keys hx
      exact hne ((h md5).left junk junk')
    · by_contra hy
      obtain ⟨md5, junk, junk', hne⟩ := Ipv6Host.exists_cloaks_ne keys hy
      exact hne ((h md5).right junk junk')
  · rintro ⟨hx, hy⟩ md5
    have h64 : SamePrefix 112 x.addr y.addr → SamePrefix 64 x.addr y.addr := fun h j hj =>
      h j (by omega)
    refine ⟨hx.hidehostIpv6_eq md5, hy.hidehostIpv6_eq md5, fun h junk junk' => ?_,
      fun h => hx.gamma_eq hy h md5, fun h junk junk' =>
        ⟨hx.beta_eq hy h md5 junk junk', hx.gamma_eq hy (h64 h) md5 junk junk'⟩⟩
    rw [Ipv6Host.host_eq h]
    exact hy.hidehostIpv6_eq md5 junk junk'

section Example

/-- `2001:db8::1`. -/
def shortAddr : V6Addr := V6Addr.ofWords fun k => ([0x2001, 0xdb8, 0, 0, 0, 0, 0, 1] : List _).getD k 0

def shortHost : Ipv6Host where
  addr := shortAddr
  host := "2001:db8::1".toList
  size := 54
  produced := by decide
  colon := by decide

theorem not_forall_cloakPrefixes : ¬ ∀ keys x y md5, CloakPrefixes md5 keys x y := by
  intro h
  have hgap : ¬ shortHost.Uncompressed := fun hnone => hnone ⟨"2001:db8".toList, ['1'], rfl⟩
  obtain ⟨md5, junk, junk', hne⟩ := Ipv6Host.exists_cloaks_ne ⟨['a'], ['b'], ['c']⟩ hgap
  exact hne ((h ⟨['a'], ['b'], ['c']⟩ shortHost shortHost md5).left junk junk')

end Example

end Unirc
