import Unirc.BurstRoundTrip
import Unirc.SjoinRelay

/-!
# The lines of the relay read

The buffer of the relay is cut into lines that name groups of the members. A line is read with its
timestamp, its modes and its words when it names somebody and is not read at all otherwise.
-/

namespace Unirc

open MemberFlag

section Words

/-- Words with a blank behind each. -/
def wordsText (ws : List Str) : Str := ws.flatMap (· ++ [' '])

theorem nickWords_append (x y : Str) : nickWords (x ++ ' ' :: y) = nickWords x ++ nickWords y := by
  rw [nickWords, List.splitOn_append_cons_self, List.filter_append]
  rfl

/-- What a word of a line may be. -/
structure NickWord (w : Str) : Prop where
  ne_nil : w ≠ []
  blank : ' ' ∉ w
  length : w.length ≤ 36

theorem nickWords_dropLast {ws : List Str} (hne : ws ≠ []) (h : ∀ w ∈ ws, NickWord w) :
    nickWords (wordsText ws).dropLast = ws := by
  rw [wordsText, dropLast_flatMap_append]
  exact nickWords_intercalate (fun w hw => ⟨(h w hw).ne_nil, (h w hw).blank⟩) hne

theorem wordsText_eq {ws : List Str} (hne : ws ≠ []) :
    wordsText ws = (wordsText ws).dropLast ++ [' '] := by
  obtain ⟨vs, w, rfl⟩ := (List.eq_nil_or_concat' ws).resolve_left hne
  have hlast : wordsText (vs ++ [w]) = wordsText vs ++ w ++ [' '] := by simp [wordsText]
  rw [hlast, List.dropLast_concat]

theorem nickWords_wordsText {ws : List Str} (hne : ws ≠ []) (h : ∀ w ∈ ws, NickWord w) :
    nickWords (wordsText ws) = ws := by
  rw [wordsText_eq hne, nickWords_append, nickWords_dropLast hne h]
  exact List.append_nil ws

end Words

namespace SjoinBuf

variable {start : Str}

/-- The test before a word is added. -/
def fits (start : Str) (ws : List Str) (w : Str) : Prop :=
  ¬ IRCD_BUFSIZE - 2 < (start ++ wordsText ws).length + w.length

instance (ws : List Str) (w : Str) : Decidable (fits start ws w) := by
  unfold fits
  infer_instance

theorem foldl_add_eq_pack (cur ws : List Str) (sent : List Str) :
    ∃ gs g, Packing.pack (fits start) cur ws = gs ++ [g] ∧
      ws.foldl (add start) ⟨sent, start ++ wordsText cur⟩ =
        ⟨sent ++ gs.map (start ++ wordsText ·), start ++ wordsText g⟩ := by
  induction ws generalizing cur sent with
  | nil => exact ⟨[], cur, rfl, by simp⟩
  | cons w ws ih =>
      rw [Packing.pack, List.foldl_cons, add]
      by_cases hfit : fits start cur w
      · have hjoin : start ++ wordsText cur ++ (w ++ [' ']) = start ++ wordsText (cur ++ [w]) := by
          simp [wordsText]
        rw [if_pos hfit, if_neg hfit, hjoin]
        exact ih (cur ++ [w]) sent
      · obtain ⟨gs, g, hpack, hfold⟩ := ih [w] (sent ++ [start ++ wordsText cur])
        have hopen : start ++ (w ++ [' ']) = start ++ wordsText [w] := by simp [wordsText]
        rw [if_neg hfit, if_pos (not_not.mp hfit), hopen, hfold, hpack]
        exact ⟨cur :: gs, g, rfl, by simp⟩

/-- A buffer that is one byte too long loses the blank behind its last word. -/
theorem take_buf {ws : List Str} (hne : ws ≠ []) (h : ∀ w ∈ ws, NickWord w)
    (hlen : (start ++ wordsText ws).length ≤ IRCD_BUFSIZE - 1) :
    ∃ t, (start ++ wordsText ws).take (IRCD_BUFSIZE - 2) = start ++ t ∧ nickWords t = ws := by
  by_cases hfit : (start ++ wordsText ws).length ≤ IRCD_BUFSIZE - 2
  · exact ⟨wordsText ws, List.take_of_length_le hfit, nickWords_wordsText hne h⟩
  · refine ⟨(wordsText ws).dropLast, ?_, nickWords_dropLast hne h⟩
    have hsplit : start ++ wordsText ws = start ++ (wordsText ws).dropLast ++ [' '] := by
      rw [List.append_assoc, ← wordsText_eq hne]
    rw [hsplit] at hlen hfit ⊢
    rw [List.length_append, List.length_singleton] at hlen hfit
    simp only [IRCD_BUFSIZE] at hlen hfit ⊢
    exact List.take_left' (by omega)

theorem take_dropLast_buf {ws : List Str} (hne : ws ≠ []) (h : ∀ w ∈ ws, NickWord w)
    (hlen : (start ++ wordsText ws).length ≤ IRCD_BUFSIZE - 1) :
    ∃ t, (start ++ wordsText ws).dropLast.take (IRCD_BUFSIZE - 2) = start ++ t ∧
      nickWords t = ws := by
  have htext : wordsText ws ≠ [] := by
    rw [wordsText_eq hne]
    simp
  refine ⟨(wordsText ws).dropLast, ?_, nickWords_dropLast hne h⟩
  rw [← List.dropLast_append_of_ne_nil htext]
  refine List.take_of_length_le ?_
  rw [List.length_dropLast]
  omega

/-- The lines name groups of the members, and are short. -/
theorem exists_groups {α : Type*} (word : α → Str) {xs : List α} (hne : xs ≠ [])
    (hstart : start.length ≤ 472) (hwords : ∀ x ∈ xs, NickWord (word x)) :
    ∃ gs : List (Str × List α), (gs.map Prod.snd).flatten = xs ∧
      (∀ g ∈ gs, nickWords g.1 = g.2.map word) ∧
      (((xs.map word).foldl (add start) ⟨[], start⟩).sent ++
        [((xs.map word).foldl (add start) ⟨[], start⟩).buf.dropLast]).map
          (List.take (IRCD_BUFSIZE - 2)) = gs.map (start ++ ·.1) := by
  obtain ⟨x, xs, rfl⟩ := List.exists_cons_of_ne_nil hne
  let groups := Packing.pack (fun l y => fits start (l.map word) (word y)) [x] xs
  have hflatten : groups.flatten = x :: xs := Packing.flatten_pack [x] xs
  have hgroups : ∀ g ∈ groups, g ≠ [] := Packing.pack_ne_nil (List.cons_ne_nil x [])
  have hfill : ∀ g ∈ groups, (start ++ wordsText (g.map word)).length ≤ IRCD_BUFSIZE - 1 := by
    have hsingle : ∀ y ∈ x :: xs,
        (start ++ wordsText ([y].map word)).length ≤ IRCD_BUFSIZE - 1 := by
      intro y hy
      have hlen := (hwords y hy).length
      simp only [List.map_singleton, wordsText, List.flatMap_singleton, List.length_append,
        List.length_singleton, IRCD_BUFSIZE]
      omega
    refine Packing.forall_pack (hsingle x List.mem_cons_self)
      (fun y hy => hsingle y (List.mem_cons_of_mem x hy)) fun g y _ _ hfit => ?_
    have hroom := not_lt.mp hfit
    simp only [List.map_append, List.map_singleton, wordsText, List.flatMap_append,
      List.flatMap_singleton, List.length_append, List.length_singleton, IRCD_BUFSIZE] at hroom ⊢
    omega
  have hnick : ∀ g ∈ groups, g.map word ≠ [] ∧ ∀ w ∈ g.map word, NickWord w := by
    intro g hg
    refine ⟨by simpa using hgroups g hg, fun w hw => ?_⟩
    obtain ⟨y, hy, rfl⟩ := List.mem_map.mp hw
    exact hwords y (hflatten ▸ List.mem_flatten_of_mem hg hy)
  have hread : ∀ g ∈ groups, ∃ t,
      (start ++ wordsText (g.map word)).take (IRCD_BUFSIZE - 2) = start ++ t ∧
        nickWords t = g.map word :=
    fun g hg => take_buf (hnick g hg).1 (hnick g hg).2 (hfill g hg)
  have hfirst : add start ⟨[], start⟩ (word x) = ⟨[], start ++ wordsText [word x]⟩ := by
    have hlen := (hwords x List.mem_cons_self).length
    rw [add, if_neg (by simp only [IRCD_BUFSIZE]; omega)]
    simp [wordsText]
  have hpack : Packing.pack (fits start) [word x] (xs.map word) = groups.map (List.map word) :=
    Packing.pack_map word [x] xs
  obtain ⟨ws, w, hws, hfold⟩ := @foldl_add_eq_pack start [word x] (xs.map word) []
  rw [hpack] at hws
  obtain ⟨gs, last, hsplit, hgs, hlast⟩ := List.map_eq_append_iff.mp hws
  obtain ⟨g, rfl, hg⟩ := List.map_eq_singleton_iff.mp hlast
  have hmem : ∀ k ∈ gs, k ∈ groups := fun k hk => hsplit ▸ List.mem_append_left _ hk
  have hmemLast : g ∈ groups := hsplit ▸ List.mem_append_right _ List.mem_cons_self
  choose! text htext hwordsOf using hread
  obtain ⟨t, ht, htwords⟩ := take_dropLast_buf (hnick g hmemLast).1 (hnick g hmemLast).2
    (hfill g hmemLast)
  refine ⟨gs.map (fun k => (text k, k)) ++ [(t, g)], ?_, fun p hp => ?_, ?_⟩
  · rw [← hflatten, hsplit]
    simp [Function.comp_def]
  · rcases List.mem_append.mp hp with hp | hp
    · obtain ⟨k, hk, rfl⟩ := List.mem_map.mp hp
      exact hwordsOf k (hmem k hk)
    · rw [List.mem_singleton.mp hp]
      exact htwords
  · rw [List.map_cons, List.foldl_cons, hfirst, hfold, ← hgs, ← hg]
    simp only [List.nil_append, List.map_append, List.map_map, List.map_singleton, ht]
    refine congrArg (· ++ [start ++ t]) (List.map_congr_left fun k hk => ?_)
    exact htext k (hmem k hk)

end SjoinBuf

/-- The part of a mode that `channel_modes` has letters for. -/
def Mode.shown (m : Mode) : Mode := { m with mode := m.mode ∩ lettered }

theorem channelModes_shown (m : Mode) : channelModes m.shown true = channelModes m true := by
  have hlet : letters flags (m.mode ∩ lettered) = letters flags m.mode := by
    unfold letters
    refine congrArg (List.map Prod.snd) (List.filter_congr fun f hf => ?_)
    have hmem : f.1 ∈ lettered := List.mem_toFinset.mpr (List.mem_map_of_mem hf)
    simp [hmem]
  simp only [channelModes, Mode.shown, hlet]
  rfl

/-- A header with `modes` is read as the mode `m`. -/
def HeaderRead (modes : Str × Str) (m : Mode) : Prop :=
  ∀ (ts : ℤ) (name : GlobalName) (nicks : Str), parseSjoin (stringToArray
    (formatULong ts ++ ' ' :: (name.val ++ ' ' :: (modes.1 ++ ' ' :: (modes.2 ++ ':' :: nicks))))) =
      some ⟨Decimal.atol (formatULong ts), name.val, m, modes.1, nicks⟩

theorem headerRead_channelModes {m : Mode} (h : m.BurstSafe) :
    HeaderRead (channelModes m true) m := fun _ _ _ => parseSjoin_burstLine h

theorem headerRead_zero : HeaderRead (['0'], []) Mode.zero := by
  intro ts name nicks
  have hzero : IsWord ['0'] := ⟨by decide, by decide, by decide⟩
  rw [stringToArray, splitArgs_word (isWord_formatULong ts),
    splitArgs_word (isWord_globalName name), splitArgs_word hzero, List.nil_append,
    splitArgs_colon, parseSjoin_cons (List.cons_ne_nil _ _)]
  rfl

end Unirc
