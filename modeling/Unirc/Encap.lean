import Unirc.ParamArray

/-!
# ENCAP

`ms_encap` of `m_encap.c` writes the parameters it got into a buffer and sends them on. What the
next server reads is the same command, unless the line has two parameters and the second one is
no word.
-/

namespace Unirc

/-- The loop over all parameters but the last, where `cur_len` is the length of the text; `none`
where it returns. -/
def encapWords : Str → List Str → Option Str
  | text, [] => some text
  | text, p :: ps =>
      if IRCD_BUFSIZE ≤ text.length + (p.length + 1) then none
      else encapWords (text ++ (p ++ [' '])) ps

/-- The text that is printed into `buffer`, for the parameters behind the sender. -/
def encapText (params : List Str) : Option Str :=
  (encapWords [] params.dropLast).map fun text =>
    text ++ (if params.length = 2 then params.getLastD [] else ':' :: params.getLastD [])

/-- The line that goes to a server which sees `sender`; `handle_command` wants two parameters. -/
def encapRelay (sender line : Str) : Option Str :=
  if (splitLine line).2.length < 2 then none
  else (encapText (splitLine line).2).map fun text =>
    (':' :: (sender ++ ' ' :: ("ENCAP".toList ++ ' ' :: text))).take (IRCD_BUFSIZE - 2)

/-- The line for a sender is not cut. -/
def EncapFits (params : List Str) (sender : Str) : Prop :=
  ' ' ∉ sender ∧ sender.length + (params.map fun p => p.length + 1).sum + 8 ≤ IRCD_BUFSIZE - 2

instance (params : List Str) (sender : Str) : Decidable (EncapFits params sender) := by
  unfold EncapFits
  infer_instance

theorem sum_length_splitArgs (n : ℕ) (p : Str) :
    ((splitArgs n p).map fun a => a.length + 1).sum ≤ p.length + 1 := by
  induction n generalizing p with
  | zero =>
      rw [splitArgs]
      split
      · exact Nat.zero_le _
      · simpa using ParamArray.length_dropColon_le p
  | succ n ih =>
      have hp : (skipBlanks p).length ≤ p.length := List.length_dropWhile_le _ _
      rw [splitArgs]
      split
      · exact Nat.zero_le _
      · rename_i c buf hbuf
        rw [hbuf, List.length_cons] at hp
        split
        · simp only [List.map_cons, List.map_nil, List.sum_cons, List.sum_nil]
          omega
        split
        · simp only [List.map_cons, List.map_nil, List.sum_cons, List.sum_nil, List.length_cons]
          omega
        · rename_i p' hdrop
          have hsplit := congrArg List.length
            (@List.takeWhile_append_dropWhile _ (· ≠ ' ') (c :: buf))
          have hrest := ih p'
          rw [List.length_append, hdrop, List.length_cons, List.length_cons] at hsplit
          rw [List.map_cons, List.sum_cons]
          omega

/-- The words fit when there is room for all of them. -/
theorem encapWords_eq (text : Str) {ps : List Str}
    (h : text.length + (ps.map fun p => p.length + 1).sum < IRCD_BUFSIZE) :
    encapWords text ps = some (text ++ ps.flatMap (· ++ [' '])) := by
  induction ps generalizing text with
  | nil => simp [encapWords]
  | cons p ps ih =>
      rw [List.map_cons, List.sum_cons] at h
      rw [encapWords, if_neg (by omega), ih, List.flatMap_cons, List.append_assoc]
      simp only [List.length_append, List.length_singleton]
      omega

theorem splitArgs_eq_self_iff (n : ℕ) (p : Str) : splitArgs (n + 1) p = [p] ↔ IsWord p := by
  refine ⟨fun h => (splitArgs_cases h).resolve_right ?_, fun h => splitArgs_last h n⟩
  rintro ⟨-, s, hs⟩
  have hlen := congrArg List.length hs
  rw [List.length_append, List.length_cons] at hlen
  omega

theorem splitArgs_colon_any (n : ℕ) (p : Str) : splitArgs n (':' :: p) = [p] := by
  cases n with
  | zero => simp [splitArgs, skipBlanks, dropColon]
  | succ n => exact splitArgs_colon n p

/-- All parameters of a line, with the last one apart. -/
theorem exists_params (line : Str) (hcount : 2 ≤ (splitLine line).2.length) :
    ∃ ps last, (splitLine line).2 = ps ++ [last] ∧ (∀ p ∈ ps, IsWord p) ∧ ps ≠ [] ∧
      ps.length ≤ 13 := by
  obtain ⟨t, ht⟩ : ∃ t, (splitLine line).2 = stringToArray t := ⟨_, rfl⟩
  obtain ⟨ps, last, hps⟩ := (List.eq_nil_or_concat' (splitLine line).2).resolve_left fun hnil => by
    rw [hnil, List.length_nil] at hcount
    omega
  have hwords := fun p (hp : p ∈ (splitArgs 13 t).dropLast) => isWord_of_mem_dropLast hp
  have hlen := length_splitArgs 13 t
  rw [← stringToArray, ← ht, hps] at hwords hlen
  rw [List.dropLast_concat] at hwords
  rw [List.length_append, List.length_singleton] at hlen
  rw [hps, List.length_append, List.length_singleton] at hcount
  refine ⟨ps, last, hps, hwords, ?_, by omega⟩
  rintro rfl
  rw [List.length_nil] at hcount
  omega

theorem exists_encapText {ps : List Str} {last : Str}
    (h : ((ps ++ [last]).map fun p => p.length + 1).sum < IRCD_BUFSIZE) :
    ∃ text, encapText (ps ++ [last]) = some text ∧
      text.length ≤ ((ps ++ [last]).map fun p => p.length + 1).sum ∧
      text = ps.flatMap (· ++ [' ']) ++ if ps.length = 1 then last else ':' :: last := by
  simp only [List.map_append, List.map_singleton, List.sum_append, List.sum_singleton] at h ⊢
  have hwords := @encapWords_eq [] ps (by rw [List.length_nil]; omega)
  have hcount : (ps ++ [last]).length = 2 ↔ ps.length = 1 := by
    rw [List.length_append, List.length_singleton]
    omega
  refine ⟨_, ?_, ?_, rfl⟩
  · rw [encapText, List.dropLast_concat, hwords, Option.map_some, List.nil_append,
      if_congr hcount rfl rfl]
    simp
  · have hflat : (ps.flatMap (· ++ [' '])).length = (ps.map fun p => p.length + 1).sum := by
      rw [List.length_flatMap]
      simp
    have htail : (if ps.length = 1 then last else ':' :: last).length ≤ last.length + 1 := by
      split <;> simp
    rw [List.length_append, hflat]
    omega

/-- One relay. -/
theorem encapRelay_params {line sender : Str} (hcount : 2 ≤ (splitLine line).2.length)
    (hfits : EncapFits (splitLine line).2 sender) :
    ∃ line', encapRelay sender line = some line' ∧ ((splitLine line').2 = (splitLine line).2 ↔
      ((splitLine line).2.length = 2 → ∀ p ∈ (splitLine line).2, IsWord p)) := by
  obtain ⟨ps, last, hps, hwords, hne, hlen⟩ := exists_params line hcount
  obtain ⟨hsender, hroom⟩ := hfits
  rw [hps] at hroom
  simp only [IRCD_BUFSIZE] at hroom
  obtain ⟨_, htext, hlength, rfl⟩ :=
    @exists_encapText ps last (by simp only [IRCD_BUFSIZE]; omega)
  rw [encapRelay, if_neg (by omega), hps, htext, Option.map_some]
  refine ⟨_, rfl, ?_⟩
  rw [List.take_of_length_le, splitLine_command hsender (by decide) (by decide), stringToArray]
  · obtain ⟨n, hn⟩ := Nat.exists_eq_add_of_le' hlen
    have hsplit (rest : Str) : splitArgs 13 (ps.flatMap (· ++ [' ']) ++ rest) =
        ps ++ splitArgs n rest := by rw [hn, splitArgs_words hwords]
    rw [hsplit, List.append_right_inj, List.length_append, List.length_singleton]
    by_cases hone : ps.length = 1
    · obtain ⟨n, rfl⟩ := Nat.exists_eq_add_of_lt (show 0 < n by omega)
      rw [if_pos hone, Nat.zero_add, splitArgs_eq_self_iff]
      exact ⟨fun h _ p hp => (List.mem_append.mp hp).elim (hwords p)
        fun hp => List.mem_singleton.mp hp ▸ h, fun h => h (by omega) last (by simp)⟩
    · rw [if_neg hone, splitArgs_colon_any]
      exact iff_of_true rfl fun h => absurd h (by omega)
  · have hcommand : "ENCAP".toList.length = 5 := rfl
    rw [List.length_cons, List.length_append, List.length_cons, List.length_append,
      List.length_cons, hcommand]
    simp only [IRCD_BUFSIZE]
    omega

/-- Any number of relays. -/
theorem encapRelay_path {params : List Str} (hcount : 2 ≤ params.length)
    (hwords : params.length = 2 → ∀ p ∈ params, IsWord p) {senders : List Str}
    (hfits : ∀ sender ∈ senders, EncapFits params sender) {line : Str}
    (hline : (splitLine line).2 = params) :
    ∃ line', senders.foldlM (fun line sender => encapRelay sender line) line = some line' ∧
      (splitLine line').2 = params := by
  induction senders generalizing line with
  | nil => exact ⟨line, rfl, hline⟩
  | cons sender senders ih =>
      subst hline
      obtain ⟨line', hrelay, hiff⟩ := encapRelay_params hcount (hfits sender List.mem_cons_self)
      rw [List.foldlM_cons, hrelay]
      exact ih (fun s hs => hfits s (List.mem_cons_of_mem sender hs)) (hiff.mpr hwords)

/-- The parameters of a line are no longer than the line. -/
theorem sum_length_params (line : Str) :
    ((splitLine line).2.map fun p => p.length + 1).sum ≤ line.length + 1 := by
  have hskip (s : Str) : (skipBlanks s).length ≤ s.length := List.length_dropWhile_le _ _
  have hdrop (s : Str) : ((s.dropWhile (· ≠ ' ')).drop 1).length ≤ s.length :=
    (List.drop_suffix _ _).length_le.trans (List.length_dropWhile_le _ _)
  refine (sum_length_splitArgs 13 _).trans (Nat.succ_le_succ ((hdrop _).trans ?_))
  have hline := hskip line
  split
  · rename_i sender hsender
    rw [hsender, List.length_cons] at hline
    refine (hskip _).trans (le_trans ?_ (Nat.le_of_succ_le hline))
    split
    · exact hdrop sender
    · exact Nat.le_refl _
  · exact hline

/-- The buffer is not overrun, and all servers that an ENCAP comes to read the same parameters. -/
theorem encap_params {line : Str} (hlen : line.length ≤ IRCD_BUFSIZE - 2)
    (hcount : 2 ≤ (splitLine line).2.length) :
    (∃ text, encapText (splitLine line).2 = some text ∧ text.length < IRCD_BUFSIZE) ∧
      (∀ sender, EncapFits (splitLine line).2 sender → ∃ line',
        encapRelay sender line = some line' ∧ ((splitLine line').2 = (splitLine line).2 ↔
          ((splitLine line).2.length = 2 → ∀ p ∈ (splitLine line).2, IsWord p))) ∧
      (((splitLine line).2.length = 2 → ∀ p ∈ (splitLine line).2, IsWord p) →
        ∀ senders : List Str, (∀ sender ∈ senders, EncapFits (splitLine line).2 sender) →
          ∃ line', senders.foldlM (fun line sender => encapRelay sender line) line = some line' ∧
            (splitLine line').2 = (splitLine line).2) := by
  refine ⟨?_, fun sender hfits => encapRelay_params hcount hfits,
    fun hwords senders hfits => encapRelay_path hcount hwords hfits rfl⟩
  obtain ⟨ps, last, hps, -, -, -⟩ := exists_params line hcount
  have hsum := sum_length_params line
  rw [hps] at hsum ⊢
  simp only [IRCD_BUFSIZE] at hlen ⊢
  obtain ⟨text, htext, hlength, -⟩ :=
    @exists_encapText ps last (by simp only [IRCD_BUFSIZE]; omega)
  exact ⟨text, htext, by omega⟩

/-- A subcommand with one parameter, through two servers. -/
theorem encap_params_chghost :
    ∃ line', ["1AA".toList, "irc.b".toList].foldlM (fun line sender => encapRelay sender line)
        ":svc ENCAP * CHGHOST al :a b".toList = some line' ∧
      (splitLine line').2 = [['*'], "CHGHOST".toList, "al".toList, "a b".toList] :=
  (@encap_params ":svc ENCAP * CHGHOST al :a b".toList (by decide) (by decide)).2.2
    (by decide) _ (by decide)

end Unirc
