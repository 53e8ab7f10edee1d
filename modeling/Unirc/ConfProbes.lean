import Unirc.ConfTable

/-!
# The probes reach every matching record

For each kind of mask, the chain a record is filed under is one of the chains a
lookup probes when the mask matches the looked-up address or name.
-/

namespace Unirc

theorem v4Mask_and_le : ∀ b : Fin 33,
    v4Mask b.val &&& v4Mask (b.val - b.val % 8) = v4Mask (b.val - b.val % 8) := by decide

theorem hashIpv4_congr {addr mask : V4Addr} {bits : ℕ} (hb : bits ≤ 32)
    (h : matchIpv4 addr mask bits = true) :
    hashIpv4 mask (bits - bits % 8) = hashIpv4 addr (bits - bits % 8) := by
  have hm : addr &&& v4Mask bits = mask := by simpa [matchIpv4] using h
  have hand : mask &&& v4Mask (bits - bits % 8) = addr &&& v4Mask (bits - bits % 8) := by
    rw [← hm, BitVec.and_assoc, v4Mask_and_le ⟨bits, Nat.lt_succ_of_le hb⟩]
  simp only [hashIpv4, hand]

theorem hashBytes_congr {l l' : List (BitVec 8)} {k : ℕ} (v : BitVec 8)
    (h : l.take k = l'.take k) : hashBytes l (8 * k) v = hashBytes l' (8 * k) v := by
  induction k generalizing l l' v with
  | zero =>
      have hz : ∀ l : List (BitVec 8), hashBytes l 0 v = v := by
        intro l
        cases l <;> rfl
      rw [Nat.mul_zero, hz, hz]
  | succ k ih =>
      cases l with
      | nil =>
          cases l' with
          | nil => rfl
          | cons x' l' => cases h
      | cons x l =>
          cases l' with
          | nil => cases h
          | cons x' l' =>
              obtain ⟨rfl, ht⟩ := List.cons.inj h
              have h8 : 8 ≤ 8 * (k + 1) := by omega
              have hk : 8 * (k + 1) - 8 = 8 * k := by omega
              rw [hashBytes, hashBytes, if_pos h8, if_pos h8, hk]
              exact ih _ ht

theorem take_ofFn_congr {a m : V6Addr} {k : ℕ} (h : ∀ i : Fin 16, i.val < k → a i = m i) :
    (List.ofFn a).take k = (List.ofFn m).take k := by
  apply List.ext_getElem?
  intro i
  simp only [List.getElem?_take, List.getElem?_ofFn]
  split
  · rename_i hi
    split
    · rename_i hlt
      rw [h ⟨i, hlt⟩ hi]
    · rfl
  · rfl

theorem hashIpv6_congr {addr mask : V6Addr} {bits : ℕ} (h : matchIpv6 addr mask bits = true) :
    hashIpv6 mask (bits - bits % 16) = hashIpv6 addr (bits - bits % 16) := by
  simp only [matchIpv6, Bool.and_eq_true, decide_eq_true_eq] at h
  have hbits : bits - bits % 16 = 8 * (2 * (bits / 16)) := by omega
  rw [hbits, hashIpv6, hashIpv6, hashBytes_congr 0 (take_ofFn_congr (k := 2 * (bits / 16)) ?_)]
  intro i hi
  exact (h.1 i (by omega)).symm

theorem toNat_sub_emod {bits : ℤ} (k : ℕ) (h : 0 ≤ bits) :
    (bits - bits % k).toNat = bits.toNat - bits.toNat % k := by
  obtain ⟨n, rfl⟩ := Int.eq_ofNat_of_zero_le h
  have hm : ((n : ℤ) % k) = ((n % k : ℕ) : ℤ) := (Int.natCast_mod n k).symm
  rw [hm, Int.toNat_natCast, ← Int.natCast_sub (Nat.mod_le n k), Int.toNat_natCast]

theorem hash_ipv4_mem_probes {addr mask : V4Addr} {bits : ℤ} (hr : (RecMask.ipv4 mask bits).InRange)
    (h : matchIpv4 addr mask bits.toNat = true) :
    (RecMask.ipv4 mask bits).hash ∈ addrProbes (some (.inet addr)) := by
  obtain ⟨h₀, h₁⟩ := hr
  have h8 := toNat_sub_emod 8 h₀
  rw [RecMask.hash]
  change hashIpv4 mask (bits - bits % (8 : ℕ)).toNat ∈ _
  rw [h8, hashIpv4_congr (by omega) h, addrProbes, List.mem_map]
  refine ⟨4 - bits.toNat / 8, List.mem_range.mpr (by omega), ?_⟩
  congr 1
  omega

theorem hash_ipv6_mem_probes {addr mask : V6Addr} {bits : ℤ} (hr : (RecMask.ipv6 mask bits).InRange)
    (h : matchIpv6 addr mask bits.toNat = true) :
    (RecMask.ipv6 mask bits).hash ∈ addrProbes (some (.inet6 addr)) := by
  obtain ⟨h₀, h₁⟩ := hr
  have h16 := toNat_sub_emod 16 h₀
  rw [RecMask.hash]
  change hashIpv6 mask (bits - bits % (16 : ℕ)).toNat ∈ _
  rw [h16, hashIpv6_congr h, addrProbes, List.mem_map]
  refine ⟨8 - bits.toNat / 16, List.mem_range.mpr (by omega), ?_⟩
  congr 1
  omega

theorem Glob.literal {lit name : Str} (hl : ∀ c ∈ lit, isMWildChar c = false)
    (h : Glob lit name) : name.map toLower = lit.map toLower := by
  induction h with
  | nil => rfl
  | star => exact absurd (hl '*' List.mem_cons_self) (by decide)
  | skip => exact absurd (hl '*' List.mem_cons_self) (by decide)
  | @char p c m n hpc _ ih =>
      have hp := hl p List.mem_cons_self
      simp only [isMWildChar, Bool.or_eq_false_iff, decide_eq_false_iff_not] at hp
      have heq : toLower p = toLower c := by
        simpa [matchChar, hp.2, hp.1.1] using hpc
      rw [List.map_cons, List.map_cons, heq, ih fun d hd => hl d (List.mem_cons_of_mem _ hd)]

theorem Glob.split {a b name : Str} (h : Glob (a ++ b) name) :
    ∃ x y, name = x ++ y ∧ Glob a x ∧ Glob b y := by
  generalize hm : a ++ b = mask at h
  induction h generalizing a with
  | nil =>
      obtain ⟨rfl, rfl⟩ := List.append_eq_nil_iff.mp hm
      exact ⟨[], [], rfl, Glob.nil, Glob.nil⟩
  | @star m n h ih =>
      cases a with
      | nil =>
          rw [List.nil_append] at hm
          exact ⟨[], n, rfl, Glob.nil, hm.symm ▸ Glob.star h⟩
      | cons p a =>
          obtain ⟨rfl, rfl⟩ := List.cons.inj hm
          obtain ⟨x, y, hxy, hx, hy⟩ := ih rfl
          exact ⟨x, y, hxy, Glob.star hx, hy⟩
  | @skip m n c h ih =>
      cases a with
      | nil =>
          rw [List.nil_append] at hm
          exact ⟨[], c :: n, rfl, Glob.nil, hm.symm ▸ Glob.skip h⟩
      | cons p a =>
          obtain ⟨rfl, -⟩ := List.cons.inj hm
          obtain ⟨x, y, hxy, hx, hy⟩ := ih hm
          exact ⟨c :: x, y, by rw [hxy]; rfl, Glob.skip hx, hy⟩
  | @char p c m n hpc h ih =>
      cases a with
      | nil =>
          rw [List.nil_append] at hm
          exact ⟨[], c :: n, rfl, Glob.nil, hm.symm ▸ Glob.char hpc h⟩
      | cons q a =>
          obtain ⟨rfl, rfl⟩ := List.cons.inj hm
          obtain ⟨x, y, hxy, hx, hy⟩ := ih rfl
          exact ⟨c :: x, y, by rw [hxy]; rfl, Glob.char hpc hx, hy⟩

/-- The literal end of a mask is, up to case, the end of every text it stands for. -/
theorem Glob.literal_suffix {a lit name : Str} (hl : ∀ c ∈ lit, isMWildChar c = false)
    (h : Glob (a ++ lit) name) : ∃ x y, name = x ++ y ∧ y.map toLower = lit.map toLower := by
  obtain ⟨x, y, hxy, -, hy⟩ := h.split
  exact ⟨x, y, hxy, hy.literal hl⟩

theorem hashText_congr {s t : Str} (h : s.map toLower = t.map toLower) :
    hashText s = hashText t := by
  have hf : ∀ (s : Str) (v : BitVec 64),
      s.foldl (fun (h : BitVec 64) c => h <<< 4 - (h + BitVec.ofNat 64 (toLower c).toNat)) v =
      (s.map toLower).foldl (fun (h : BitVec 64) c => h <<< 4 - (h + BitVec.ofNat 64 c.toNat)) v := by
    intro s v
    rw [List.foldl_map]
  rw [hashText, hashText, hf, hf, h]

/-- The text behind the first dot. -/
def behindDot (s : Str) : Str := (s.dropWhile (· ≠ '.')).tail

/-- The scan hashes the whole text, or what is behind the first dot after the
last wildcard. -/
theorem maskHashLoop_eq (rev hp tail : Str) (hhp : hp = behindDot tail)
    (ht : ∀ c ∈ tail, isMWildChar c = false) :
    (∀ c ∈ rev.reverse ++ tail, isMWildChar c = false) ∧
        maskHashLoop rev hp tail = hashText (rev.reverse ++ tail) ∨
      ∃ pre lit, rev.reverse ++ tail = pre ++ lit ∧ (∀ c ∈ lit, isMWildChar c = false) ∧
        maskHashLoop rev hp tail = hashText (behindDot lit) := by
  induction rev generalizing hp tail with
  | nil => exact Or.inl ⟨ht, rfl⟩
  | cons c rev ih =>
      rw [List.reverse_cons, List.append_assoc, List.singleton_append, maskHashLoop]
      by_cases hc : isMWildChar c = true
      · rw [if_pos hc]
        exact Or.inr ⟨rev.reverse ++ [c], tail, by simp, ht, by rw [hhp]⟩
      · have ht' : ∀ d ∈ c :: tail, isMWildChar d = false := by
          intro d hd
          rcases List.mem_cons.mp hd with rfl | hd
          · exact Bool.eq_false_iff.mpr hc
          · exact ht d hd
        rw [if_neg hc]
        by_cases hdot : c = '.'
        · subst hdot
          rw [if_pos rfl]
          exact ih tail _ (by simp [behindDot]) ht'
        · rw [if_neg hdot]
          exact ih hp _ (by rw [hhp]; simp [behindDot, hdot]) ht'

theorem toLower_eq_dot {c : Char} (h : toLower c = '.') : c = '.' := by
  have hdot : '.'.toNat = 46 := rfl
  rw [← Char.toNat_inj, toNat_toLower, hdot] at h
  rw [← Char.toNat_inj, hdot]
  split_ifs at h <;> omega

theorem dropWhile_dot_map (s : Str) :
    (s.map toLower).dropWhile (· ≠ '.') = (s.dropWhile (· ≠ '.')).map toLower := by
  induction s with
  | nil => rfl
  | cons c s ih =>
      by_cases hc : c = '.'
      · subst hc
        rfl
      · have hl : toLower c ≠ '.' := fun h => hc (toLower_eq_dot h)
        rw [List.map_cons, List.dropWhile_cons_of_pos (by simpa using hl),
          List.dropWhile_cons_of_pos (by simpa using hc), ih]

theorem behindDot_map (s : Str) : behindDot (s.map toLower) = (behindDot s).map toLower := by
  rw [behindDot, dropWhile_dot_map, behindDot, List.map_tail]

theorem behindDot_mem_domains {s : Str} (h : '.' ∈ s) : behindDot s ∈ domains s := by
  induction s with
  | nil => cases h
  | cons c s ih =>
      by_cases hc : c = '.'
      · subst hc
        rw [domains, if_pos rfl]
        exact List.mem_cons_self
      · rw [domains, if_neg hc]
        have hb : behindDot (c :: s) = behindDot s := by simp [behindDot, hc]
        rw [hb]
        exact ih ((List.mem_cons.mp h).resolve_left (Ne.symm hc))

theorem domains_append (x y : Str) : domains y ⊆ domains (x ++ y) := by
  induction x with
  | nil => exact fun _ h => h
  | cons c x ih =>
      rw [List.cons_append, domains]
      split
      · exact fun d hd => List.mem_cons_of_mem _ (ih hd)
      · exact ih

theorem behindDot_of_not_mem {s : Str} (h : '.' ∉ s) : behindDot s = [] := by
  have hn : s.dropWhile (· ≠ '.') = [] := by
    rw [List.dropWhile_eq_nil_iff]
    intro c hc
    simp only [ne_eq, decide_eq_true_eq]
    rintro rfl
    exact h hc
  rw [behindDot, hn]
  rfl

theorem hash_hostname_mem_probes {mask name : Str} (h : matchMask mask name = true) :
    (RecMask.hostname mask).hash ∈ nameProbes (some name) := by
  have hg := glob_of_matchMask h
  have hloop := maskHashLoop_eq mask.reverse [] [] rfl (by simp)
  simp only [List.reverse_reverse, List.append_nil] at hloop
  rw [nameProbes, RecMask.hash, getMaskHash, List.mem_append, List.mem_map]
  rcases hloop with ⟨hlit, heq⟩ | ⟨pre, lit, rfl, hlit, heq⟩
  · rw [heq]
    exact Or.inl ⟨name, List.mem_cons_self, hashText_congr (hg.literal hlit)⟩
  · rw [heq]
    obtain ⟨x, y, rfl, hy⟩ := hg.literal_suffix hlit
    have hcongr : hashText (behindDot y) = hashText (behindDot lit) := by
      apply hashText_congr
      rw [← behindDot_map, hy, behindDot_map]
    rw [← hcongr]
    by_cases hdot : '.' ∈ y
    · exact Or.inl ⟨behindDot y, List.mem_cons_of_mem _
        (domains_append x y (behindDot_mem_domains hdot)), rfl⟩
    · rw [behindDot_of_not_mem hdot]
      exact Or.inr (List.mem_singleton.mpr rfl)

/-- A record whose mask matches is filed in a chain the lookup probes. -/
theorem hash_mem_probes {q : Lookup} {mask : RecMask} (hr : mask.InRange)
    (h : q.maskMatches mask = true) :
    mask.hash ∈ if isHostMask mask then nameProbes q.name else addrProbes q.addr := by
  cases mask with
  | hostname m =>
      rw [Lookup.maskMatches] at h
      split at h
      · rename_i name hname
        rw [hname]
        exact hash_hostname_mem_probes h
      · cases h
  | ipv4 m bits =>
      rw [Lookup.maskMatches] at h
      split at h
      · rename_i addr haddr
        rw [haddr]
        exact hash_ipv4_mem_probes hr h
      · cases h
  | ipv6 m bits =>
      rw [Lookup.maskMatches] at h
      split at h
      · rename_i addr haddr
        rw [haddr]
        exact hash_ipv6_mem_probes hr h
      · cases h

end Unirc
