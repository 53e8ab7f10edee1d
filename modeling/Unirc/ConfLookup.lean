import Mathlib.Data.List.Find
import Mathlib.Data.List.Nodup
import Unirc.ConfProbes

/-!
# The hashed search and the linear scan

Along a run the chains hold the live entries, the latest first, with precedences
that fall from each entry to the next. A search through the probed chains then
finds the earliest live entry that matches.
-/

namespace Unirc

variable (crypt : Str → Str → Str) (item : ℕ → AccessItem)

/-- The records behind a table and the live entries they stand for. -/
structure Tracks (t : ConfTable) (live : List (U32 × ℕ)) (recs : List AddressRec) : Prop where
  chained : HashChain.Chained (fun r : AddressRec => r.mask.hash) t.atable recs
  live : recs.map (fun r => (r.type, r.aconf)) = live
  mask : ∀ r ∈ recs, r.mask = fileMask (filedAddress item r.aconf)
  user : ∀ r ∈ recs, r.username = (item r.aconf).user
  inRange : ∀ r ∈ recs, r.mask.InRange
  sorted : recs.Pairwise fun newer older => newer.precedence < older.precedence
  fresh : ∀ r ∈ recs, t.precValue < r.precedence

/-- The calls the table is meant for: the prefix length of an added mask is one
of its family, and a deleted item has a host. -/
def ConfOp.Proper : ConfOp → Prop
  | .add _ a => (fileMask (filedAddress item a)).InRange
  | .delete a => (item a).host ≠ []

def additions (ops : List ConfOp) : ℕ :=
  (ops.filter fun | .add _ _ => true | .delete _ => false).length

variable {item} {t : ConfTable} {live : List (U32 × ℕ)} {recs : List AddressRec}

theorem tracks_init : Tracks item ConfTable.init [] [] :=
  ⟨HashChain.chained_nil, rfl, by simp, by simp, by simp, List.Pairwise.nil, by simp⟩

theorem Tracks.add (ht : Tracks item t live recs) (hp : t.precValue ≠ 0) (type : U32) {a : ℕ}
    (hr : (fileMask (filedAddress item a)).InRange) :
    Tracks item (t.addConfByAddress item type a) ((type, a) :: live)
      (⟨fileMask (filedAddress item a), type, t.precValue, (item a).user, a⟩ :: recs) := by
  have hlt : t.precValue - 1 < t.precValue := by bv_omega
  refine ⟨ht.chained.insert ⟨fileMask (filedAddress item a), type, t.precValue, (item a).user, a⟩,
    by rw [List.map_cons, ht.live], ?_, ?_, ?_, ?_, ?_⟩
  · exact List.forall_mem_cons.mpr ⟨rfl, ht.mask⟩
  · exact List.forall_mem_cons.mpr ⟨rfl, ht.user⟩
  · exact List.forall_mem_cons.mpr ⟨hr, ht.inRange⟩
  · exact List.pairwise_cons.mpr ⟨ht.fresh, ht.sorted⟩
  · exact List.forall_mem_cons.mpr ⟨hlt, fun r h => hlt.trans (ht.fresh r h)⟩

theorem Tracks.delete (ht : Tracks item t live recs) {a : ℕ} (hh : (item a).host ≠ []) :
    Tracks item (t.deleteOneAddressConf item a) (live.eraseP (·.2 == a))
      (recs.eraseP (·.aconf == a)) := by
  have hsub : recs.eraseP (·.aconf == a) ⊆ recs := List.eraseP_subset
  refine ⟨ht.chained.unlink fun r hr ha => ?_, ?_, fun r hr => ht.mask r (hsub hr),
    fun r hr => ht.user r (hsub hr), fun r hr => ht.inRange r (hsub hr),
    ht.sorted.sublist List.eraseP_sublist, fun r hr => ht.fresh r (hsub hr)⟩
  · rw [beq_iff_eq] at ha
    rw [ht.mask r hr, ha, filedAddress, if_neg hh]
  · rw [← ht.live, List.eraseP_map]
    rfl

theorem Tracks.run (ht : Tracks item t live recs) {ops : List ConfOp}
    (hops : ∀ op ∈ ops, op.Proper item) (hn : additions ops ≤ t.precValue.toNat) :
    ∃ recs', Tracks item (ops.foldl (ConfTable.step item) t) (ops.foldl liveStep live) recs' := by
  induction ops generalizing t live recs with
  | nil => exact ⟨recs, ht⟩
  | cons op ops ih =>
      have hop := hops op List.mem_cons_self
      have hrest := fun o ho => hops o (List.mem_cons_of_mem _ ho)
      cases op with
      | add type a =>
          rw [additions, List.filter_cons_of_pos rfl, List.length_cons] at hn
          have hp : t.precValue ≠ 0 := by bv_omega
          refine ih (ht.add hp type hop) hrest ?_
          change additions ops ≤ (t.precValue - 1).toNat
          rw [additions]
          bv_omega
      | delete a =>
          rw [additions, List.filter_cons_of_neg (by simp)] at hn
          exact ih (ht.delete hop) hrest hn

namespace Tracks

variable (ht : Tracks item t live recs) (q : Lookup)
include ht

theorem accepts_iff {r : AddressRec} (hr : r ∈ recs) : q.accepts crypt item r = true ↔
    (q.maskMatches (fileMask (filedAddress item r.aconf)) &&
      q.eligible crypt r.type (item r.aconf).user (item r.aconf)) = true := by
  have hpos : (0 : BitVec 64) < r.precedence := (bitVec_zero_le _).trans_lt (ht.fresh r hr)
  rw [Lookup.accepts, decide_eq_true hpos, Bool.true_and, ht.mask r hr, ht.user r hr]

theorem precedence_inj {x y : AddressRec} (hx : x ∈ recs) (hy : y ∈ recs)
    (h : x.precedence = y.precedence) : x = y := by
  have hn : (recs.map AddressRec.precedence).Nodup :=
    List.pairwise_map.mpr (ht.sorted.imp fun h => h.ne)
  exact List.inj_on_of_nodup_map hn hx hy h

/-- The search through the probed chains finds the best matching record. -/
theorem isBest_search : HashChain.IsBest AddressRec.precedence
    (fun r => r ∈ recs ∧ q.accepts crypt item r = true)
    (((nameProbes q.name).map t.atable).foldl
      (HashChain.best AddressRec.precedence fun r => isHostMask r.mask && q.accepts crypt item r)
      (((addrProbes q.addr).map t.atable).foldl
        (HashChain.best AddressRec.precedence fun r =>
          !isHostMask r.mask && q.accepts crypt item r) none)) := by
  refine ((HashChain.isBest_none.foldl_best _).foldl_best _).congr fun r => ?_
  simp only [List.mem_map, exists_exists_and_eq_and, ht.chained.mem_iff, Bool.and_eq_true, Bool.not_eq_true',
    false_or]
  constructor
  · rintro (⟨c, -, ⟨hr, -⟩, -, ha⟩ | ⟨c, -, ⟨hr, -⟩, -, ha⟩)
    · exact ⟨hr, ha⟩
    · exact ⟨hr, ha⟩
  · rintro ⟨hr, ha⟩
    have hm : q.maskMatches r.mask = true := by
      simp only [Lookup.accepts, Bool.and_eq_true] at ha
      exact ha.1.2
    have hmem := hash_mem_probes (ht.inRange r hr) hm
    cases hhost : isHostMask r.mask with
    | true =>
        rw [hhost, if_pos rfl] at hmem
        exact Or.inr ⟨_, hmem, ⟨hr, rfl⟩, rfl, ha⟩
    | false =>
        rw [hhost, if_neg (by simp)] at hmem
        exact Or.inl ⟨_, hmem, ⟨hr, rfl⟩, rfl, ha⟩

/-- The earliest matching record has the greatest precedence. -/
theorem isBest_find : HashChain.IsBest AddressRec.precedence
    (fun r => r ∈ recs ∧ q.accepts crypt item r = true)
    (recs.reverse.find? (q.accepts crypt item)) := by
  refine ⟨fun r hr => ⟨List.mem_reverse.mp (List.mem_of_find?_eq_some hr),
    List.find?_some hr⟩, fun r ⟨hr, ha⟩ => ?_⟩
  cases hf : recs.reverse.find? (q.accepts crypt item) with
  | none =>
      rw [List.find?_eq_none] at hf
      exact absurd ha (hf r (List.mem_reverse.mpr hr))
  | some x =>
      refine ⟨x, rfl, ?_⟩
      obtain ⟨-, as, bs, hsplit, has⟩ := List.find?_eq_some_iff_append.mp hf
      have hs := List.pairwise_reverse.mpr ht.sorted
      rw [hsplit] at hs
      have hmem : r ∈ as ++ x :: bs := hsplit ▸ List.mem_reverse.mpr hr
      rcases List.mem_append.mp hmem with h | h
      · exact absurd ha (by simpa using has r h)
      rcases List.mem_cons.mp h with rfl | h
      · exact le_rfl
      · exact ((List.pairwise_cons.mp (List.pairwise_append.mp hs).2.1).1 r h).le

theorem find_eq_linearScan : t.findConfByAddress crypt item q = linearScan crypt item live q := by
  have heq := (ht.isBest_search crypt q).unique (ht.isBest_find crypt q)
    fun x y hx hy h => ht.precedence_inj hx.1 hy.1 h
  have hscan : (recs.reverse.find? (q.accepts crypt item)).map AddressRec.aconf =
      linearScan crypt item live q := by
    rw [linearScan, ← ht.live, ← List.map_reverse, List.find?_map, Option.map_map]
    congr 1
    refine List.find?_congr fun r hr => ?_
    rw [Bool.eq_iff_iff, ht.accepts_iff crypt q (List.mem_reverse.mp hr)]
    rfl
  rw [← hscan, ← heq]
  rfl

end Tracks

/-- After any run of proper calls the hashed search returns what the linear scan
over the live entries returns, for every lookup. -/
theorem findConfByAddress_run (ops : List ConfOp) (hn : additions ops < 2 ^ 32)
    (hops : ∀ op ∈ ops, op.Proper item) (q : Lookup) :
    (ConfTable.run item ops).findConfByAddress crypt item q =
      linearScan crypt item (liveEntries ops) q := by
  have hbudget : additions ops ≤ ConfTable.init.precValue.toNat := by
    change additions ops ≤ 0xffffffff
    omega
  obtain ⟨recs, ht⟩ := tracks_init.run hops hbudget
  exact ht.find_eq_linearScan crypt q

/-- Two items are added, the later one is deleted, and the search sees the rest. -/
theorem findConfByAddress_run_deleted :
    (ConfTable.run (fun a => ⟨if a = 0 then "*.net".toList else "10.0.0.0/8".toList, ['*'], none,
        false, false⟩) [.add 16 0, .add 16 1, .delete 1]).findConfByAddress (fun _ s => s)
      (fun a => ⟨if a = 0 then "*.net".toList else "10.0.0.0/8".toList, ['*'], none, false, false⟩)
      ⟨some "a.net".toList, some (.inet 0x0a000001), 16, some ['u'], none⟩ =
    linearScan (fun _ s => s)
      (fun a => ⟨if a = 0 then "*.net".toList else "10.0.0.0/8".toList, ['*'], none, false, false⟩)
      (liveEntries [.add 16 0, .add 16 1, .delete 1])
      ⟨some "a.net".toList, some (.inet 0x0a000001), 16, some ['u'], none⟩ :=
  findConfByAddress_run (fun _ s => s) [.add 16 0, .add 16 1, .delete 1] (by decide) (by
    intro op hop
    simp only [List.mem_cons, List.not_mem_nil, or_false] at hop
    rcases hop with rfl | rfl | rfl <;> simp only [ConfOp.Proper] <;> decide) _

/-- An item without a host is filed under `/NOMATCH!/` and looked for under the
empty text when it is deleted, so that it stays in the table. -/
theorem findConfByAddress_empty_host_kept :
    (ConfTable.run (fun _ => ⟨[], ['*'], none, false, false⟩) [.add 16 0, .delete 0]
      ).findConfByAddress (fun _ s => s) (fun _ => ⟨[], ['*'], none, false, false⟩)
      ⟨some "/NOMATCH!/".toList, none, 16, some ['u'], none⟩ ≠
    linearScan (fun _ s => s) (fun _ => ⟨[], ['*'], none, false, false⟩)
      (liveEntries [.add 16 0, .delete 0]) ⟨some "/NOMATCH!/".toList, none, 16, some ['u'], none⟩ := by
  decide

end Unirc
