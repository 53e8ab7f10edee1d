import Unirc.Chars
import Unirc.Keyed

/-!
# Hashed names

The tables of `hash.c` compare names with `irccmp`, which is equality of the folded
names, and hash them with `strhash`, which folds every character.
-/

namespace Unirc

/-- The key under which a name is filed. -/
def fold (s : Str) : Str := s.map toLower

theorem fold_eq_iff (s t : Str) : fold s = fold t ↔ irccmp s t = false :=
  (irccmp_eq_false_iff_lower s t).symm

/-- One character of the hash. -/
def strhashStep (randomKey hval : U32) (c : Char) : U32 :=
  (hval + ((hval <<< 1) + (hval <<< 4) + (hval <<< 7) + (hval <<< 8) + (hval <<< 24))) ^^^
    (BitVec.ofNat 32 (toLower c).toNat ^^^ randomKey)

/-- `strhash`, with `ircd_random_key`. -/
def strhash (randomKey : U32) (name : Str) : ℕ :=
  if name = [] then 0
  else
    let hval := name.foldl (strhashStep randomKey) 0x811c9dc5
    ((hval >>> 16) ^^^ (hval &&& 0xffff)).toNat

theorem strhash_fold (randomKey : U32) (name : Str) :
    strhash randomKey (fold name) = strhash randomKey name := by
  have hstep : ∀ hval c, strhashStep randomKey hval (toLower c) = strhashStep randomKey hval c := by
    intro hval c
    rw [strhashStep, toLower_toLower, strhashStep]
  unfold strhash fold
  rw [List.foldl_map]
  simp only [hstep, List.map_eq_nil_iff]

end Unirc
