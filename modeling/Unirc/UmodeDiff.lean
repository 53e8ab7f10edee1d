import Unirc.UidLine

/-!
# The difference of two user modes

The text that `send_umode` writes for a local user. Read with its signs it turns the old word into
one that agrees with the new word on the modes of the mask, and it is empty where they agree.
-/

namespace Unirc

namespace UMode

/-- The constant `UMODE_*`. -/
def word : UMode → U32
  | servnotice => 0x00000001
  | rej => 0x00000002
  | skill => 0x00000004
  | full => 0x00000008
  | spy => 0x00000010
  | debug => 0x00000020
  | nchange => 0x00000040
  | wallop => 0x00000080
  | operwall => 0x00000100
  | invisible => 0x00000200
  | bots => 0x00000400
  | unauth => 0x00000800
  | locops => 0x00001000
  | deaf => 0x00002000
  | cloak => 0x00004000
  | ssl => 0x00008000
  | regnick => 0x00010000
  | regonly => 0x00020000
  | cconn => 0x00040000
  | hidechannels => 0x00080000
  | gringo => 0x00100000
  | zombie => 0x00200000
  | oper => 0x00400000
  | admin => 0x00800000
  | netadmin => 0x01000000
  | sadmin => 0x02000000
  | soper => 0x04000000
  | helper => 0x08000000
  | vadmin => 0x10000000
  | voper => 0x20000000

theorem word_ne_zero (flag : UMode) : flag.word ≠ 0 := by cases flag <;> decide

theorem exists_word_eq_twoPow (flag : UMode) : ∃ i, flag.word = BitVec.twoPow 32 i := by
  cases flag with
  | servnotice => exact ⟨0, rfl⟩
  | rej => exact ⟨1, rfl⟩
  | skill => exact ⟨2, rfl⟩
  | full => exact ⟨3, rfl⟩
  | spy => exact ⟨4, rfl⟩
  | debug => exact ⟨5, rfl⟩
  | nchange => exact ⟨6, rfl⟩
  | wallop => exact ⟨7, rfl⟩
  | operwall => exact ⟨8, rfl⟩
  | invisible => exact ⟨9, rfl⟩
  | bots => exact ⟨10, rfl⟩
  | unauth => exact ⟨11, rfl⟩
  | locops => exact ⟨12, rfl⟩
  | deaf => exact ⟨13, rfl⟩
  | cloak => exact ⟨14, rfl⟩
  | ssl => exact ⟨15, rfl⟩
  | regnick => exact ⟨16, rfl⟩
  | regonly => exact ⟨17, rfl⟩
  | cconn => exact ⟨18, rfl⟩
  | hidechannels => exact ⟨19, rfl⟩
  | gringo => exact ⟨20, rfl⟩
  | zombie => exact ⟨21, rfl⟩
  | oper => exact ⟨22, rfl⟩
  | admin => exact ⟨23, rfl⟩
  | netadmin => exact ⟨24, rfl⟩
  | sadmin => exact ⟨25, rfl⟩
  | soper => exact ⟨26, rfl⟩
  | helper => exact ⟨27, rfl⟩
  | vadmin => exact ⟨28, rfl⟩
  | voper => exact ⟨29, rfl⟩

/-- A mode is one bit. -/
theorem word_and (flag : UMode) (w : U32) : flag.word &&& w = 0 ∨ flag.word &&& w = flag.word := by
  obtain ⟨i, hi⟩ := flag.exists_word_eq_twoPow
  rw [hi, BitVec.twoPow_and]
  split
  · exact Or.inr rfl
  · exact Or.inl rfl

end UMode

/-- The modes that are set in a word. -/
def modesOf (w : U32) : UModes :=
  ((List.range 128).filterMap fun i => userModes (Char.ofNat i)).toFinset.filter
    fun flag => flag.word &&& w ≠ 0

/-- A turn of the loop of `send_umode`, on the words. -/
def umodeWordStep (myClient : Bool) (umodes old sendmask : U32) (st : ModeDir × Str) (c : Char) :
    ModeDir × Str :=
  match userModes c with
  | none => st
  | some flag =>
      if myClient = true ∧ flag.word &&& sendmask = 0 then st
      else if flag.word &&& old ≠ 0 ∧ flag.word &&& umodes = 0 then
        (.del, st.2 ++ if st.1 = .del then [c] else ['-', c])
      else if flag.word &&& old = 0 ∧ flag.word &&& umodes ≠ 0 then
        (.add, st.2 ++ if st.1 = .add then [c] else ['+', c])
      else st

/-- `send_umode`, on the words. -/
def sendUmodeWord (myClient : Bool) (umodes old sendmask : U32) : Str :=
  (umodeChars.foldl (umodeWordStep myClient umodes old sendmask) (.query, [])).2

/-- One character of a text of modes: the last sign says whether a letter sets or clears. -/
def readLetter (st : ModeDir × U32) (c : Char) : ModeDir × U32 :=
  match c with
  | '+' => (.add, st.2)
  | '-' => (.del, st.2)
  | c =>
      match userModes c, st.1 with
      | some flag, .add => (.add, st.2 ||| flag.word)
      | some flag, .del => (.del, st.2 &&& ~~~flag.word)
      | _, _ => st

def readUmode (text : Str) (w : U32) : U32 := (text.foldl readLetter (.query, w)).2

/-- All modes of the table. -/
def allUmodes : U32 := 0x3fffffff

section Words

theorem mem_modesOf {w : U32} {flag : UMode} : flag ∈ modesOf w ↔ flag.word &&& w ≠ 0 := by
  have hall : flag ∈ (List.range 128).filterMap fun i => userModes (Char.ofNat i) := by
    cases flag <;> decide
  rw [modesOf, Finset.mem_filter, List.mem_toFinset, and_iff_right hall]

/-- The loop on the words is the one on the sets of modes. -/
theorem sendUmodeWord_eq (myClient : Bool) (umodes old sendmask : U32) :
    sendUmodeWord myClient umodes old sendmask =
      sendUmode myClient (modesOf umodes) (modesOf old) (modesOf sendmask) := by
  have hstep : umodeWordStep myClient umodes old sendmask =
      umodeStep myClient (modesOf umodes) (modesOf old) (modesOf sendmask) := by
    funext st c
    unfold umodeWordStep umodeStep
    cases userModes c with
    | none => rfl
    | some flag => simp only [mem_modesOf, not_not, ne_eq]
  rw [sendUmodeWord, hstep, sendUmode]

end Words

/-- The old word with the bits of `p` taken from the new one. -/
def blend (umodes old p : U32) : U32 := (old &&& ~~~p) ||| (umodes &&& p)

section Blend

variable {umodes old p f : U32}

theorem blend_zero : blend umodes old 0 = old := by
  ext i hi
  simp only [blend, BitVec.getElem_or, BitVec.getElem_and, BitVec.getElem_not, BitVec.ofNat_eq_ofNat,
    BitVec.getElem_zero, Bool.not_false, Bool.and_true, Bool.and_false, Bool.or_false]

theorem blend_and (umodes old p : U32) : blend umodes old p &&& p = umodes &&& p := by
  ext i hi
  simp only [blend, BitVec.getElem_or, BitVec.getElem_and, BitVec.getElem_not]
  cases p[i] <;> simp

theorem blend_and_not (umodes old p : U32) : blend umodes old p &&& ~~~p = old &&& ~~~p := by
  ext i hi
  simp only [blend, BitVec.getElem_or, BitVec.getElem_and, BitVec.getElem_not]
  cases p[i] <;> simp

/-- Bits that are the same in both words. -/
theorem blend_or_of_eq (h : f &&& old = f &&& umodes) :
    blend umodes old (p ||| f) = blend umodes old p := by
  ext i hi
  have hbit : (f &&& old)[i] = (f &&& umodes)[i] := by rw [h]
  simp only [BitVec.getElem_and] at hbit
  simp only [blend, BitVec.getElem_or, BitVec.getElem_and, BitVec.getElem_not]
  generalize f[i] = a, p[i] = b, old[i] = c, umodes[i] = d at hbit ⊢
  revert a b c d
  decide

theorem blend_or_of_clear (h : f &&& umodes = 0) :
    blend umodes old (p ||| f) = blend umodes old p &&& ~~~f := by
  ext i hi
  have hbit : (f &&& umodes)[i] = false := by rw [h, BitVec.ofNat_eq_ofNat, BitVec.getElem_zero]
  simp only [BitVec.getElem_and] at hbit
  simp only [blend, BitVec.getElem_or, BitVec.getElem_and, BitVec.getElem_not]
  generalize f[i] = a, p[i] = b, old[i] = c, umodes[i] = d at hbit ⊢
  revert a b c d
  decide

theorem blend_or_of_set (h : f &&& umodes = f) :
    blend umodes old (p ||| f) = blend umodes old p ||| f := by
  ext i hi
  have hbit : (f &&& umodes)[i] = f[i] := by rw [h]
  simp only [BitVec.getElem_and] at hbit
  simp only [blend, BitVec.getElem_or, BitVec.getElem_and, BitVec.getElem_not]
  generalize f[i] = a, p[i] = b, old[i] = c, umodes[i] = d at hbit ⊢
  revert a b c d
  decide

theorem and_or_eq_iff : old &&& (p ||| f) = umodes &&& (p ||| f) ↔
    old &&& p = umodes &&& p ∧ f &&& old = f &&& umodes := by
  simp only [BitVec.and_or_distrib_left]
  constructor
  · intro h
    constructor
    · ext i hi
      have hbit : (old &&& p ||| old &&& f)[i] = (umodes &&& p ||| umodes &&& f)[i] := by rw [h]
      simp only [BitVec.getElem_or, BitVec.getElem_and] at hbit ⊢
      generalize f[i] = a, p[i] = b, old[i] = c, umodes[i] = d at hbit ⊢
      revert a b c d
      decide
    · ext i hi
      have hbit : (old &&& p ||| old &&& f)[i] = (umodes &&& p ||| umodes &&& f)[i] := by rw [h]
      simp only [BitVec.getElem_or, BitVec.getElem_and] at hbit ⊢
      generalize f[i] = a, p[i] = b, old[i] = c, umodes[i] = d at hbit ⊢
      revert a b c d
      decide
  · rintro ⟨hp, hf⟩
    rw [hp, BitVec.and_comm old f, hf, BitVec.and_comm f umodes]

end Blend

section Loop

variable {umodes old sendmask : U32}

/-- The bits that the loop has gone through after some letters. -/
def passed (sendmask : U32) (chars : Str) : U32 :=
  chars.foldl (fun p c => p ||| ((userModes c).elim 0 fun flag => flag.word &&& sendmask)) 0

/-- What the text so far says: `st.2` reads as the old word with the bits of `p` from the new one,
and ends behind the sign `st.1`. -/
structure Reads (umodes old p : U32) (st : ModeDir × Str) : Prop where
  read : st.2.foldl readLetter (.query, old) = (st.1, blend umodes old p)
  empty : st.2 = [] ↔ old &&& p = umodes &&& p

theorem readLetter_of_userModes {c : Char} {flag : UMode} (h : userModes c = some flag)
    (st : ModeDir × U32) : readLetter st c =
      match st.1 with
      | .add => (.add, st.2 ||| flag.word)
      | .del => (.del, st.2 &&& ~~~flag.word)
      | .query => st := by
  unfold readLetter
  split
  · cases h
  · cases h
  · rw [h]
    cases st.1 <;> rfl

/-- A letter with its sign, behind a text that ends behind the sign `dir`. -/
theorem foldl_readLetter_signed {c sign : Char} {dir dir' : ModeDir} {t : Str} {w : U32}
    (hsign : ∀ st, readLetter st sign = (dir', st.2))
    (h : t.foldl readLetter (.query, old) = (dir, w)) :
    (t ++ if dir = dir' then [c] else [sign, c]).foldl readLetter (.query, old) =
      readLetter (dir', w) c := by
  rw [List.foldl_append, h]
  split
  · rename_i hdir
    rw [hdir, List.foldl_cons, List.foldl_nil]
  · rw [List.foldl_cons, List.foldl_cons, List.foldl_nil, hsign]

theorem Reads.step {p : U32} {st : ModeDir × Str} (h : Reads umodes old p st) (c : Char) :
    Reads umodes old (p ||| ((userModes c).elim 0 fun flag => flag.word &&& sendmask))
      (umodeWordStep true umodes old sendmask st c) := by
  have hskip {f : U32} (hf : f &&& old = f &&& umodes) : Reads umodes old (p ||| f) st :=
    ⟨by rw [blend_or_of_eq hf, h.read], by rw [and_or_eq_iff, h.empty, and_iff_left hf]⟩
  have hletter {f : U32} {dir : ModeDir} {sign : Char} (hf : f &&& old ≠ f &&& umodes)
      (hread : (st.2 ++ if st.1 = dir then [c] else [sign, c]).foldl readLetter (.query, old) =
        (dir, blend umodes old (p ||| f))) :
      Reads umodes old (p ||| f) (dir, st.2 ++ if st.1 = dir then [c] else [sign, c]) := by
    refine ⟨hread, ?_⟩
    rw [and_or_eq_iff]
    refine iff_of_false (fun hnil => ?_) fun heq => hf heq.2
    split at hnil <;> exact absurd (List.append_eq_nil_iff.mp hnil).2 (by simp)
  unfold umodeWordStep
  cases hc : userModes c with
  | none =>
      rw [Option.elim_none, BitVec.ofNat_eq_ofNat, BitVec.or_zero]
      exact h
  | some flag =>
      rw [Option.elim_some]
      dsimp only
      rcases flag.word_and sendmask with hmask | hmask
      · rw [if_pos ⟨rfl, hmask⟩, hmask, BitVec.ofNat_eq_ofNat, BitVec.or_zero]
        exact h
      · rw [hmask, if_neg fun hno => flag.word_ne_zero hno.2]
        rcases flag.word_and old with hold | hold <;> rcases flag.word_and umodes with hnew | hnew
        · rw [if_neg fun hno => hno.1 hold, if_neg fun hno => hno.2 hnew]
          exact hskip (hold.trans hnew.symm)
        · have hne : flag.word &&& umodes ≠ 0 := by rw [hnew]; exact flag.word_ne_zero
          rw [if_neg fun hno => hno.1 hold, if_pos ⟨hold, hne⟩]
          refine hletter (fun heq => hne (heq.symm.trans hold)) ?_
          rw [foldl_readLetter_signed (fun _ => rfl) h.read, readLetter_of_userModes hc,
            blend_or_of_set hnew]
        · have hne : flag.word &&& old ≠ 0 := by rw [hold]; exact flag.word_ne_zero
          rw [if_pos ⟨hne, hnew⟩]
          refine hletter (fun heq => hne (heq.trans hnew)) ?_
          rw [foldl_readLetter_signed (fun _ => rfl) h.read, readLetter_of_userModes hc,
            blend_or_of_clear hnew]
        · have hne : flag.word &&& umodes ≠ 0 := by rw [hnew]; exact flag.word_ne_zero
          rw [if_neg fun hno => hne hno.2, if_neg fun hno => (hold ▸ flag.word_ne_zero) hno.1]
          exact hskip (hold.trans hnew.symm)

theorem Reads.foldl {p : U32} {st : ModeDir × Str} (h : Reads umodes old p st) (chars : Str) :
    Reads umodes old
      (chars.foldl (fun p c => p ||| ((userModes c).elim 0 fun flag => flag.word &&& sendmask)) p)
      (chars.foldl (umodeWordStep true umodes old sendmask) st) := by
  induction chars generalizing p st with
  | nil => exact h
  | cons c chars ih => exact ih (h.step c)

theorem foldl_or_and (chars : Str) (p q : U32) (hp : p = q &&& sendmask) :
    chars.foldl (fun p c => p ||| ((userModes c).elim 0 fun flag => flag.word &&& sendmask)) p =
      chars.foldl (fun p c => p ||| ((userModes c).elim 0 UMode.word)) q &&& sendmask := by
  induction chars generalizing p q with
  | nil => exact hp
  | cons c chars ih =>
      refine ih _ _ ?_
      cases hc : userModes c with
      | none => simp [hp, hc]
      | some flag => simp [hp, hc, BitVec.and_or_distrib_right]

/-- The loop goes through the modes of the mask. -/
theorem passed_umodeChars : passed sendmask umodeChars = allUmodes &&& sendmask := by
  have hall : umodeChars.foldl (fun p c => p ||| ((userModes c).elim 0 UMode.word)) 0 =
      allUmodes := by decide +kernel
  rw [passed, foldl_or_and umodeChars 0 0 (by simp), hall]

theorem reads_sendUmode (umodes old sendmask : U32) :
    Reads umodes old (allUmodes &&& sendmask)
      (umodeChars.foldl (umodeWordStep true umodes old sendmask) (.query, [])) := by
  have hstart : Reads umodes old 0 (.query, []) :=
    ⟨by rw [blend_zero, List.foldl_nil], by simp⟩
  rw [← passed_umodeChars]
  exact hstart.foldl umodeChars

end Loop

/-- The text of `send_umode` for a local user takes the modes of the mask from the old word to the
new one, and nothing else; it is empty if and only if there is nothing to take. -/
theorem readUmode_sendUmodeWord (umodes old sendmask : U32) :
    let text := sendUmodeWord true umodes old sendmask
    let modes := allUmodes &&& sendmask
    readUmode text old &&& modes = umodes &&& modes ∧
      readUmode text old &&& ~~~modes = old &&& ~~~modes ∧
      (text = [] ↔ old &&& modes = umodes &&& modes) := by
  have h := reads_sendUmode umodes old sendmask
  have hread : readUmode (sendUmodeWord true umodes old sendmask) old =
      blend umodes old (allUmodes &&& sendmask) := by
    rw [readUmode, sendUmodeWord, h.read]
  dsimp only
  rw [hread]
  exact ⟨blend_and .., blend_and_not .., h.empty⟩

end Unirc
