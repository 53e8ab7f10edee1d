import Mathlib.Logic.Function.Basic
import Unirc.Parse

/-!
# The array of the parameters

`string_to_array` on its buffer: it ends the words by NULs where the blanks were, and the array
has pointers into the buffer. What the pointers read is `stringToArray` of the text.
-/

namespace Unirc

/-- The text at a pointer. -/
def textAt (mem : Str) (p : ℕ) : Str := (mem.drop p).takeWhile (· ≠ '\x00')

/-- The byte at a pointer. -/
def byteAt (mem : Str) (p : ℕ) : Char := mem.getD p '\x00'

/-- `strchr`, for a character that is not NUL. -/
def strchr (mem : Str) (p : ℕ) (c : Char) : Option ℕ :=
  let s := textAt mem p
  if c ∈ s then some (p + (s.takeWhile (· ≠ c)).length) else none

/-- `while(*buf == ' ') buf++;` -/
def skipFrom (mem : Str) (p : ℕ) : ℕ := p + ((mem.drop p).takeWhile (· = ' ')).length

/-- The buffer, `parv` and the counter `x`; `none` is `NULL`. -/
structure ParamArray where
  mem : Str
  parv : ℕ → Option ℕ
  x : ℕ

namespace ParamArray

/-- `parv[x++] = p; parv[x] = NULL;` -/
def put (s : ParamArray) (p : ℕ) : ParamArray :=
  { s with
    parv := Function.update (Function.update s.parv s.x (some p)) (s.x + 1) none
    x := s.x + 1 }

/-- The loop at the pointer `buf`, for so many rounds at most. -/
def loop : ℕ → ParamArray → ℕ → ParamArray
  | 0, s, _ => s
  | n + 1, s, buf =>
      if byteAt s.mem buf = ':' then s.put (buf + 1)
      else
        let s := s.put buf
        match strchr s.mem buf ' ' with
        | none => s
        | some p =>
            let s := { s with mem := s.mem.set p '\x00' }
            let p := p + 1
            let buf := skipFrom s.mem p
            if byteAt s.mem buf = '\x00' then s
            else if s.x < MAXPARA - 1 then loop n s buf
            else s.put (if byteAt s.mem p = ':' then p + 1 else p)

/-- `string_to_array`, for an array with some contents. -/
def stringToParv (parv : ℕ → Option ℕ) (string : Str) : ParamArray :=
  let s : ParamArray := ⟨string, Function.update parv 1 none, 1⟩
  let buf := skipFrom string 0
  if byteAt string buf = '\x00' then s else loop MAXPARA s buf

/-- What `parv[1]` to `parv[x - 1]` read. -/
def params (s : ParamArray) : List (Option Str) :=
  (List.range' 1 (s.x - 1)).map fun i => (s.parv i).map (textAt s.mem)

/-- The array with more pointers from `x` on and a `NULL` behind them. -/
def fill (parv : ℕ → Option ℕ) (x : ℕ) (ps : List ℕ) : ℕ → Option ℕ := fun i =>
  if i < x ∨ x + ps.length < i then parv i else ps[i - x]?

variable {parv : ℕ → Option ℕ} {x p : ℕ} {ps : List ℕ} {rest w : Str}

theorem fill_nil : fill parv x [] = Function.update parv x none := by
  funext i
  rw [fill, Function.update_apply]
  by_cases hi : i = x
  · rw [if_pos hi, if_neg (by simp [hi])]
    rfl
  · rw [if_neg hi, if_pos (by simp; omega)]

theorem fill_put : fill (Function.update (Function.update parv x (some p)) (x + 1) none) (x + 1) ps =
    fill parv x (p :: ps) := by
  funext i
  rw [fill, fill, List.length_cons]
  by_cases hi : i = x
  · subst hi
    rw [if_pos (by omega), if_neg (by omega), Function.update_of_ne (by omega),
      Function.update_self, Nat.sub_self]
    rfl
  · by_cases hout : i < x + 1 ∨ x + 1 + ps.length < i
    · rw [if_pos hout, if_pos (by omega), Function.update_of_ne (by omega),
        Function.update_of_ne hi]
    · rw [if_neg hout, if_neg (by omega)]
      obtain ⟨j, rfl⟩ : ∃ j, i = x + (j + 1) := ⟨i - x - 1, by omega⟩
      rw [Nat.add_sub_cancel_left, List.getElem?_cons_succ]
      congr 1
      omega

theorem fill_one : fill parv x [p] =
    Function.update (Function.update parv x (some p)) (x + 1) none := by
  rw [← fill_put, fill_nil, Function.update_idem]

variable {pre : Str}

theorem byteAt_length : byteAt (pre ++ rest) pre.length = rest.head?.getD '\x00' := by
  rw [byteAt, List.getD_eq_getElem?_getD, List.getElem?_append_right (Nat.le_refl _), Nat.sub_self,
    List.head?_eq_getElem?]

theorem byteAt_ne_nul {c : Char} {t : Str} (hnul : '\x00' ∉ c :: t) :
    byteAt (pre ++ c :: t) pre.length ≠ '\x00' := by
  rw [byteAt_length]
  exact fun h => hnul (h ▸ List.mem_cons_self)

theorem textAt_length : textAt (pre ++ rest) pre.length = rest.takeWhile (· ≠ '\x00') := by
  rw [textAt, List.drop_left]

theorem takeWhile_nul (hnul : '\x00' ∉ w) : w.takeWhile (· ≠ '\x00') = w := by
  rw [List.takeWhile_eq_self_iff]
  intro c hc
  simpa using fun h : c = '\x00' => hnul (h ▸ hc)

theorem textAt_whole (hnul : '\x00' ∉ rest) : textAt (pre ++ rest) pre.length = rest :=
  textAt_length.trans (takeWhile_nul hnul)

theorem textAt_ended (hnul : '\x00' ∉ w) (m : Str) :
    textAt (pre ++ (w ++ '\x00' :: m)) pre.length = w := by
  rw [textAt_length, List.takeWhile_append_of_pos]
  · simp
  · intro c hc
    simpa using fun h : c = '\x00' => hnul (h ▸ hc)

theorem strchr_none (hnul : '\x00' ∉ rest) (hblank : ' ' ∉ rest) :
    strchr (pre ++ rest) pre.length ' ' = none := by
  rw [strchr, textAt_whole hnul, if_neg hblank]

theorem strchr_blank (hnul : '\x00' ∉ w ++ ' ' :: rest) (hblank : ' ' ∉ w) :
    strchr (pre ++ (w ++ ' ' :: rest)) pre.length ' ' = some (pre ++ w).length := by
  rw [strchr, textAt_whole hnul, if_pos (by simp), takeWhile_notBlank hblank, List.length_append]

theorem skipFrom_length : skipFrom (pre ++ rest) pre.length =
    (pre ++ rest.takeWhile (· = ' ')).length := by
  rw [skipFrom, List.drop_left, List.length_append]

theorem skipBlanks_append (pre rest : Str) :
    pre ++ rest = (pre ++ rest.takeWhile (· = ' ')) ++ skipBlanks rest := by
  rw [List.append_assoc, skipBlanks, List.takeWhile_append_dropWhile]

/-- What comes at the start of a word. -/
theorem word_cases {c : Char} {t : Str} (hc : c ≠ ' ') (hcolon : c ≠ ':') :
    IsWord (c :: t) ∨ ∃ w p, c :: t = w ++ ' ' :: p ∧ IsWord w := by
  have hsplit := @List.takeWhile_append_dropWhile _ (· ≠ ' ') (c :: t)
  have hword : IsWord ((c :: t).takeWhile (· ≠ ' ')) := by
    refine ⟨by simp [hc], fun hm => ?_, ?_⟩
    · simpa using List.mem_takeWhile_imp hm
    · rw [head?_takeWhile_of_pos hc]
      exact fun he => hcolon (Option.some.inj he)
  cases hrest : (c :: t).dropWhile (· ≠ ' ') with
  | nil =>
      rw [hrest, List.append_nil] at hsplit
      exact .inl (hsplit ▸ hword)
  | cons b p =>
      have hb : b = ' ' := by
        have := List.head?_dropWhile_not (· ≠ ' ') (c :: t)
        rw [hrest] at this
        simpa using this
      rw [hrest, hb] at hsplit
      exact .inr ⟨_, p, hsplit.symm, hword⟩

theorem head_skipBlanks {s t : Str} {c : Char} (h : skipBlanks s = c :: t) : c ≠ ' ' := by
  have := List.head?_dropWhile_not (· = ' ') s
  rw [skipBlanks] at h
  simpa [h] using this

theorem skipBlanks_of_head {t : Str} {c : Char} (hc : c ≠ ' ') : skipBlanks (c :: t) = c :: t := by
  simp [skipBlanks, hc]

theorem splitArgs_skipBlanks (n : ℕ) (p : Str) :
    splitArgs (n + 1) (skipBlanks p) = splitArgs (n + 1) p := by
  have hskip : skipBlanks (skipBlanks p) = skipBlanks p := by
    cases h : skipBlanks p with
    | nil => rfl
    | cons c t => exact skipBlanks_of_head (head_skipBlanks h)
  rw [splitArgs, splitArgs, hskip]

theorem splitArgs_of_blank {p : Str} (h : skipBlanks p = []) (n : ℕ) : splitArgs n p = [] := by
  cases n with
  | zero => rw [splitArgs, if_pos h]
  | succ n => rw [splitArgs, h]

/-- The loop adds pointers to what the text is split into, and leaves the buffer before it. -/
theorem loop_spec (n : ℕ) {c : Char} {t : Str} (hc : c ≠ ' ') (hnul : '\x00' ∉ c :: t) (hx : x < 14)
    (hn : 14 ≤ x + n) : ∃ m ps, loop n ⟨pre ++ c :: t, parv, x⟩ pre.length =
      ⟨pre ++ m, fill parv x ps, x + ps.length⟩ ∧
        ps.map (textAt (pre ++ m)) = splitArgs (14 - x) (c :: t) ∧ x + ps.length ≤ MAXPARA := by
  induction n generalizing pre parv x c t with
  | zero => omega
  | succ n ih =>
      obtain ⟨k, hk⟩ : ∃ k, 14 - x = k + 1 := ⟨13 - x, by omega⟩
      have hmax : MAXPARA = 15 := rfl
      rw [hk, loop, byteAt_length]
      by_cases hcolon : c = ':'
      · subst hcolon
        rw [List.head?_cons, Option.getD_some, if_pos rfl]
        have hread : textAt (pre ++ ':' :: t) (pre.length + 1) = t := by
          have happend : pre ++ ':' :: t = (pre ++ [':']) ++ t := by simp
          have hlength : pre.length + 1 = (pre ++ [':']).length := by simp
          rw [happend, hlength]
          exact textAt_whole fun h => hnul (List.mem_cons_of_mem _ h)
        refine ⟨':' :: t, [pre.length + 1], ?_, ?_, by simp; omega⟩
        · rw [put, fill_one]
          rfl
        · rw [List.map_singleton, hread, splitArgs_colon]
      · rw [if_neg (by simpa using hcolon)]
        dsimp only
        rcases word_cases (t := t) hc hcolon with hword | ⟨w, p, hsplit, hword⟩
        · rw [put]
          dsimp only
          rw [strchr_none hnul hword.blank]
          refine ⟨c :: t, [pre.length], ?_, ?_, by simp; omega⟩
          · rw [fill_one]
            rfl
          · rw [List.map_singleton, textAt_whole hnul, splitArgs_last hword]
        · rw [hsplit] at hnul ⊢
          have hnulw : '\x00' ∉ w := fun h => hnul (List.mem_append_left _ h)
          have hnulp : '\x00' ∉ p := fun h =>
            hnul (List.mem_append_right _ (List.mem_cons_of_mem _ h))
          have hset : (pre ++ (w ++ ' ' :: p)).set (pre ++ w).length '\x00' =
              (pre ++ (w ++ ['\x00'])) ++ p := by
            rw [← List.append_assoc, List.set_append_right _ _ (Nat.le_refl _), Nat.sub_self]
            simp
          have hnext : (pre ++ w).length + 1 = (pre ++ (w ++ ['\x00'])).length := by simp; omega
          rw [put]
          dsimp only
          rw [strchr_blank hnul hword.blank]
          dsimp only
          rw [hset, hnext, skipFrom_length, splitArgs_word hword]
          set pre' := pre ++ (w ++ ['\x00'])
          rw [skipBlanks_append pre' p, byteAt_length]
          cases hrest : skipBlanks p with
          | nil =>
              rw [List.head?_nil, Option.getD_none, if_pos rfl, splitArgs_of_blank hrest]
              refine ⟨w ++ '\x00' :: p.takeWhile (· = ' '), [pre.length], ?_, ?_, by simp; omega⟩
              · rw [fill_one]
                simp [pre']
              · rw [List.map_singleton, textAt_ended hnulw]
          | cons d s =>
              have hd : d ≠ ' ' := head_skipBlanks hrest
              have hnuld : '\x00' ∉ d :: s := fun h => hnulp ((List.dropWhile_suffix _).subset
                (hrest ▸ h : '\x00' ∈ skipBlanks p))
              rw [List.head?_cons, Option.getD_some,
                if_neg fun h : d = '\x00' => hnuld (h ▸ List.mem_cons_self)]
              by_cases hmore : x + 1 < MAXPARA - 1
              · rw [if_pos hmore]
                obtain ⟨m, ps, hloop, hps, hle⟩ :=
                  @ih (Function.update (Function.update parv x (some pre.length)) (x + 1) none)
                    (x + 1) (pre' ++ p.takeWhile (· = ' ')) d s hd hnuld hmore (by omega)
                obtain ⟨j, hj⟩ : ∃ j, k = j + 1 := ⟨k - 1, by omega⟩
                have hbuffer : pre' ++ p.takeWhile (· = ' ') ++ m =
                    pre ++ (w ++ '\x00' :: (p.takeWhile (· = ' ') ++ m)) := by simp [pre']
                refine ⟨w ++ '\x00' :: (p.takeWhile (· = ' ') ++ m), pre.length :: ps, ?_, ?_,
                  by rw [List.length_cons]; omega⟩
                · rw [hloop, fill_put, hbuffer, List.length_cons, Nat.add_assoc, Nat.add_comm 1]
                · rw [List.map_cons, textAt_ended hnulw, ← hbuffer, hps]
                  have hk' : 14 - (x + 1) = k := by omega
                  rw [hk', hj, ← hrest, splitArgs_skipBlanks]
              · rw [if_neg hmore]
                have hk0 : k = 0 := by omega
                have hne : skipBlanks p ≠ [] := by rw [hrest]; exact List.cons_ne_nil d s
                rw [hk0, splitArgs, if_neg hne, ← hrest, ← skipBlanks_append, byteAt_length]
                have hbuffer : pre' ++ p = pre ++ (w ++ '\x00' :: p) := by simp [pre']
                refine ⟨w ++ '\x00' :: p, [pre.length, if p.head?.getD '\x00' = ':'
                  then pre'.length + 1 else pre'.length], ?_, ?_, ?_⟩
                · rw [put, hbuffer, ← fill_put, fill_one]
                  rfl
                · rw [List.map_cons, textAt_ended hnulw, List.map_singleton, ← hbuffer]
                  congr 2
                  cases p with
                  | nil => exact absurd rfl hne
                  | cons e p =>
                      rw [List.head?_cons, Option.getD_some]
                      split
                      · rename_i he
                        subst he
                        have happend : pre' ++ ':' :: p = (pre' ++ [':']) ++ p := by simp
                        have hlength : pre'.length + 1 = (pre' ++ [':']).length := by simp
                        rw [happend, hlength,
                          textAt_whole fun h => hnulp (List.mem_cons_of_mem _ h)]
                        rfl
                      · rename_i he
                        rw [textAt_whole hnulp]
                        unfold dropColon
                        split
                        · rename_i heq
                          exact absurd (List.cons.inj heq).1 he
                        · rfl
                · simp
                  omega

theorem fill_update (v : Option ℕ) : fill (Function.update parv x v) x ps = fill parv x ps := by
  funext i
  rw [fill, fill]
  split
  · rw [Function.update_of_ne (by omega)]
  · rfl

theorem fill_end : fill parv x ps (x + ps.length) = none := by
  rw [fill, if_neg (by omega), Nat.add_sub_cancel_left, List.getElem?_eq_none (Nat.le_refl _)]

theorem map_range'_fill {f : ℕ → Str} : (List.range' x ps.length).map
    (fun i => (fill parv x ps i).map f) = ps.map fun q => some (f q) := by
  refine List.ext_getElem (by simp) fun i h _ => ?_
  rw [List.length_map, List.length_range'] at h
  rw [List.getElem_map, List.getElem_map, List.getElem_range', Nat.one_mul, fill,
    if_neg (by omega), Nat.add_sub_cancel_left, List.getElem?_eq_getElem h]
  rfl

/-- The pointers are to what the text is split into. -/
theorem stringToParv_eq (parv : ℕ → Option ℕ) {string : Str} (hnul : '\x00' ∉ string) :
    ∃ m ps, stringToParv parv string = ⟨m, fill parv 1 ps, 1 + ps.length⟩ ∧
      ps.map (textAt m) = stringToArray string ∧ 1 + ps.length ≤ MAXPARA := by
  have hskip := @skipFrom_length string []
  have hsplit := skipBlanks_append [] string
  rw [List.nil_append, List.nil_append, List.length_nil] at hskip
  rw [List.nil_append, List.nil_append] at hsplit
  rw [stringToParv, hskip]
  cases hrest : skipBlanks string with
  | nil =>
      have hend := @byteAt_length [] (string.takeWhile (· = ' '))
      rw [hrest] at hsplit
      rw [← hsplit, List.head?_nil, Option.getD_none] at hend
      rw [if_pos hend, stringToArray, splitArgs_of_blank hrest, ← fill_nil]
      exact ⟨string, [], rfl, rfl, by decide⟩
  | cons c t =>
      rw [hrest] at hsplit
      have hnul' : '\x00' ∉ c :: t := fun h => hnul (hsplit ▸ List.mem_append_right _ h)
      have hne := @byteAt_ne_nul (string.takeWhile (· = ' ')) c t hnul'
      rw [← hsplit] at hne
      rw [if_neg hne]
      obtain ⟨m, ps, hloop, hps, hle⟩ := @loop_spec (Function.update parv 1 none) 1
        (string.takeWhile (· = ' ')) MAXPARA c t (head_skipBlanks hrest) hnul' (by decide)
        (by decide)
      rw [← hsplit] at hloop
      refine ⟨string.takeWhile (· = ' ') ++ m, ps, ?_, ?_, hle⟩
      · rw [hloop, fill_update]
      · rw [hps, stringToArray, ← hrest]
        exact splitArgs_skipBlanks 12 string

/-- The array holds what the text is split into, with a `NULL` behind it, in its bounds, and what is
behind that is as it was. -/
theorem stringToParv_spec (parv : ℕ → Option ℕ) {string : Str} (hnul : '\x00' ∉ string) :
    (stringToParv parv string).params = (stringToArray string).map some ∧
      (stringToParv parv string).x ≤ MAXPARA ∧
      (stringToParv parv string).parv (stringToParv parv string).x = none ∧
      ∀ i, i < 1 ∨ (stringToParv parv string).x < i →
        (stringToParv parv string).parv i = parv i := by
  obtain ⟨m, ps, hrun, hps, hle⟩ := stringToParv_eq parv hnul
  rw [hrun, params, ← hps]
  refine ⟨?_, hle, fill_end, fun i hi => ?_⟩
  · rw [Nat.add_sub_cancel_left, map_range'_fill, List.map_map]
    rfl
  · exact if_pos hi

/-- The parameters, `n` words before the limit: a word, the rest of the line from the word with the
colon or the limit on. -/
def rfcSplit : ℕ → Str → List Str
  | 0, p => if skipBlanks p = [] then [] else [dropColon (skipBlanks p)]
  | n + 1, p =>
      match skipBlanks p with
      | [] => []
      | c :: buf =>
          if c = ':' then [buf]
          else
            (c :: buf).takeWhile (· ≠ ' ') :: rfcSplit n ((c :: buf).dropWhile (· ≠ ' '))

/-- What is behind the blank after the `n`th word. -/
def atLimit : ℕ → Str → Option Str
  | 0, p => some p
  | n + 1, p =>
      match skipBlanks p with
      | [] => none
      | c :: buf =>
          if c = ':' then none
          else
            match (c :: buf).dropWhile (· ≠ ' ') with
            | [] => none
            | _ :: p' => atLimit n p'

/-- The second text has more blanks somewhere before a parameter. -/
inductive Doubles : ℕ → Str → Str → Prop
  | here {n : ℕ} {p : Str} (k : ℕ) (h : skipBlanks p ≠ []) : Doubles n p (List.replicate k ' ' ++ p)
  | later {n : ℕ} {b w p t : Str} (hb : skipBlanks b = []) (hw : IsWord w) (h : Doubles n p t) :
      Doubles (n + 1) (b ++ (w ++ ' ' :: p)) (b ++ (w ++ ' ' :: t))

/-- `parv` has the parameters, a `NULL` in its bounds, and nothing is written behind them. -/
structure IsSplit (text : Str) : Prop where
  params : ∀ parv, (stringToParv parv text).params = (rfcSplit 13 text).map some
  bound : ∀ parv, (stringToParv parv text).x ≤ MAXPARA
  ended : ∀ parv, (stringToParv parv text).parv (stringToParv parv text).x = none
  within : ∀ parv i, i = 0 ∨ MAXPARA < i → (stringToParv parv text).parv i = parv i

/-- More blanks change no parameter. -/
def KeepsSpacing (text : Str) : Prop := ∀ t, Doubles 13 text t →
  ∀ parv, (stringToParv parv t).params = (stringToParv parv text).params

theorem text_cases (s : Str) : skipBlanks s = [] ∨ (∃ t, skipBlanks s = ':' :: t) ∨
    IsWord (skipBlanks s) ∨ ∃ w p, skipBlanks s = w ++ ' ' :: p ∧ IsWord w := by
  cases h : skipBlanks s with
  | nil => exact .inl rfl
  | cons c t =>
      by_cases hc : c = ':'
      · exact .inr (.inl ⟨t, by rw [hc]⟩)
      · exact .inr (.inr (word_cases (head_skipBlanks h) hc))

theorem skipBlanks_skipBlanks (s : Str) : skipBlanks (skipBlanks s) = skipBlanks s := by
  cases h : skipBlanks s with
  | nil => rfl
  | cons c t => exact skipBlanks_of_head (head_skipBlanks h)

theorem skipBlanks_blanks {b s : Str} (hb : skipBlanks b = []) :
    skipBlanks (b ++ s) = skipBlanks s := by
  rw [skipBlanks, List.dropWhile_append_of_pos, skipBlanks]
  rwa [skipBlanks, List.dropWhile_eq_nil_iff] at hb

theorem skipBlanks_replicate (k : ℕ) : skipBlanks (List.replicate k ' ') = [] := by
  rw [skipBlanks, List.dropWhile_eq_nil_iff]
  exact fun c hc => by simpa using List.eq_of_mem_replicate hc

theorem skipBlanks_word (hw : IsWord w) : skipBlanks (w ++ rest) = w ++ rest := by
  obtain ⟨c, t, rfl, hc, -⟩ := hw.exists_cons
  exact skipBlanks_of_head hc

theorem rfcSplit_skipBlanks (n : ℕ) (s : Str) : rfcSplit n (skipBlanks s) = rfcSplit n s := by
  cases n <;> simp only [rfcSplit, skipBlanks_skipBlanks]

theorem rfcSplit_word (hw : IsWord w) (n : ℕ) :
    rfcSplit (n + 1) (w ++ ' ' :: rest) = w :: rfcSplit n rest := by
  have ht := takeWhile_notBlank hw.blank rest
  have hd := dropWhile_notBlank hw.blank rest
  have hs := @skipBlanks_word (' ' :: rest) w hw
  obtain ⟨c, t, rfl, -, hc⟩ := hw.exists_cons
  rw [List.cons_append] at ht hd hs ⊢
  rw [rfcSplit, hs]
  dsimp only
  rw [if_neg hc, ht, hd, ← rfcSplit_skipBlanks n (' ' :: rest)]
  exact congrArg _ (rfcSplit_skipBlanks n rest)

theorem rfcSplit_last (hw : IsWord w) (n : ℕ) : rfcSplit (n + 1) w = [w] := by
  have hs := @skipBlanks_word [] w hw
  have ht : w.takeWhile (· ≠ ' ') = w := by
    rw [List.takeWhile_eq_self_iff]
    exact fun c hc => by simpa using fun h : c = ' ' => hw.blank (h ▸ hc)
  have hd : w.dropWhile (· ≠ ' ') = [] := by
    rw [List.dropWhile_eq_nil_iff]
    exact fun c hc => by simpa using fun h : c = ' ' => hw.blank (h ▸ hc)
  obtain ⟨c, t, rfl, -, hc⟩ := hw.exists_cons
  rw [List.append_nil] at hs
  rw [rfcSplit, hs]
  dsimp only
  rw [if_neg hc, ht, hd]
  cases n <;> rfl

theorem atLimit_skipBlanks (n : ℕ) (s : Str) :
    atLimit (n + 1) (skipBlanks s) = atLimit (n + 1) s := by
  rw [atLimit, atLimit, skipBlanks_skipBlanks]

theorem atLimit_word (hw : IsWord w) (n : ℕ) :
    atLimit (n + 1) (w ++ ' ' :: rest) = atLimit n rest := by
  have hd := dropWhile_notBlank hw.blank rest
  have hs := @skipBlanks_word (' ' :: rest) w hw
  obtain ⟨c, t, rfl, -, hc⟩ := hw.exists_cons
  rw [List.cons_append] at hd hs ⊢
  rw [atLimit, hs]
  dsimp only
  rw [if_neg hc, hd]

theorem atLimit_last (hw : IsWord w) (n : ℕ) : atLimit (n + 1) w = none := by
  have hs := @skipBlanks_word [] w hw
  have hd : w.dropWhile (· ≠ ' ') = [] := by
    rw [List.dropWhile_eq_nil_iff]
    exact fun c hc => by simpa using fun h : c = ' ' => hw.blank (h ▸ hc)
  obtain ⟨c, t, rfl, -, hc⟩ := hw.exists_cons
  rw [List.append_nil] at hs
  rw [atLimit, hs]
  dsimp only
  rw [if_neg hc, hd]

theorem length_dropColon_le (s : Str) : (dropColon s).length ≤ s.length := by
  unfold dropColon
  split <;> simp

/-- The limit is where the words behind one blank more are not skipped. -/
theorem splitArgs_zero_iff (p : Str) : splitArgs 0 p = rfcSplit 0 p ↔
    (skipBlanks p ≠ [] → p.head? ≠ some ' ') := by
  rw [splitArgs, rfcSplit]
  by_cases hp : skipBlanks p = []
  · rw [if_pos hp, if_pos hp]
    exact ⟨fun _ h => absurd hp h, fun _ => rfl⟩
  · rw [if_neg hp, if_neg hp, List.singleton_inj]
    cases p with
    | nil => exact absurd rfl hp
    | cons c p =>
        by_cases hc : c = ' '
        · subst hc
          have hskip : skipBlanks (' ' :: p) = skipBlanks p := rfl
          rw [hskip]
          have hlt : (dropColon (skipBlanks p)).length < (' ' :: p).length :=
            ((length_dropColon_le _).trans (List.dropWhile_suffix _).length_le).trans_lt
              (Nat.lt_succ_self _)
          exact iff_of_false (fun h => hlt.ne' (congrArg _ h)) fun h => h hp rfl
        · rw [skipBlanks_of_head hc]
          exact iff_of_true rfl fun _ h => hc (Option.some.inj h)

theorem splitArgs_eq_iff (n : ℕ) (s : Str) : splitArgs n s = rfcSplit n s ↔
    ∀ p ∈ atLimit n s, skipBlanks p ≠ [] → p.head? ≠ some ' ' := by
  induction n generalizing s with
  | zero =>
      rw [splitArgs_zero_iff, atLimit]
      exact ⟨fun h p hp => Option.some.inj hp ▸ h, fun h => h s rfl⟩
  | succ n ih =>
      rw [← splitArgs_skipBlanks, ← rfcSplit_skipBlanks, ← atLimit_skipBlanks]
      obtain hs | ⟨t, hs⟩ | hs | ⟨w, p, hs, hw⟩ := text_cases s
      · rw [hs]
        exact iff_of_true rfl fun p hp => nomatch hp
      · rw [hs, splitArgs_colon]
        exact iff_of_true rfl fun p hp => nomatch hp
      · rw [splitArgs_last hs, rfcSplit_last hs, atLimit_last hs]
        exact iff_of_true rfl fun p hp => nomatch hp
      · rw [hs, splitArgs_word hw, rfcSplit_word hw, atLimit_word hw, ← ih]
        exact List.cons_inj_right w

theorem splitArgs_blanks {b : Str} (hb : skipBlanks b = []) (n : ℕ) (s : Str) :
    splitArgs (n + 1) (b ++ s) = splitArgs (n + 1) s := by
  rw [← splitArgs_skipBlanks, skipBlanks_blanks hb, splitArgs_skipBlanks]

theorem exists_blanks (s : Str) : ∃ b, s = b ++ skipBlanks s ∧ skipBlanks b = [] := by
  refine ⟨s.takeWhile (· = ' '), List.takeWhile_append_dropWhile.symm, ?_⟩
  rw [skipBlanks, List.dropWhile_eq_nil_iff]
  intro c hc
  exact List.mem_takeWhile_imp (p := (· = ' ')) hc

/-- More blanks are kept where the limit is behind all the parameters. -/
theorem splitArgs_doubles_iff (n : ℕ) (s : Str) :
    (∀ t, Doubles n s t → splitArgs n t = splitArgs n s) ↔
      ∀ p ∈ atLimit n s, skipBlanks p = [] := by
  induction n generalizing s with
  | zero =>
      refine ⟨fun h p hp => ?_, fun h t ht => ?_⟩
      · cases hp
        by_contra hs
        have hblanks : skipBlanks ([' '] ++ s) ≠ [] := by rwa [skipBlanks_blanks rfl]
        have hsame := h _ (.here 1 hs)
        rw [List.replicate_one, splitArgs, splitArgs, if_neg hblanks, if_neg hs,
          List.singleton_inj] at hsame
        have hlt : (dropColon s).length < (' ' :: s).length :=
          (length_dropColon_le s).trans_lt (Nat.lt_succ_self _)
        exact hlt.ne' (congrArg _ hsame)
      · cases ht with
        | here k hs => exact absurd (h s rfl) hs
  | succ n ih =>
      refine ⟨fun h => ?_, fun h t ht => ?_⟩
      · rw [← atLimit_skipBlanks]
        obtain hs | ⟨t, hs⟩ | hs | ⟨w, p, hs, hw⟩ := text_cases s
        · rw [hs]
          exact fun p hp => by cases hp
        · rw [hs]
          exact fun p hp => by cases hp
        · rw [atLimit_last hs]
          exact fun p hp => by cases hp
        · rw [hs, atLimit_word hw, ← ih]
          intro t ht
          obtain ⟨b, hsplit, hb⟩ := exists_blanks s
          rw [hs] at hsplit
          subst hsplit
          have hsame := h _ (.later hb hw ht)
          rw [splitArgs_blanks hb, splitArgs_blanks hb, splitArgs_word hw,
            splitArgs_word hw] at hsame
          exact List.cons_inj_right w |>.mp hsame
      · cases ht with
        | here k hs => exact splitArgs_blanks (skipBlanks_replicate k) n s
        | later hb hw hd =>
            rw [← atLimit_skipBlanks, skipBlanks_blanks hb, atLimit_skipBlanks,
              atLimit_word hw, ← ih] at h
            rw [splitArgs_blanks hb, splitArgs_blanks hb, splitArgs_word hw, splitArgs_word hw,
              h _ hd]

theorem Doubles.nul {n : ℕ} {s t : Str} (h : Doubles n s t) (hnul : '\x00' ∉ s) : '\x00' ∉ t := by
  induction h with
  | here k hs =>
      rw [List.mem_append, not_or]
      exact ⟨fun h => absurd (List.eq_of_mem_replicate h) (by decide), hnul⟩
  | later hb hw hd ih =>
      simp only [List.mem_append, List.mem_cons, not_or] at hnul ih ⊢
      exact ⟨hnul.1, hnul.2.1, hnul.2.2.1, ih hnul.2.2.2⟩

/-- The split is the one of the protocol where no second blank is before what the limit leaves, and
blanks do not count where there is nothing at the limit. -/
theorem stringToParv_iff {text : Str} (hnul : '\x00' ∉ text) :
    (IsSplit text ↔ ∀ p ∈ atLimit 13 text, skipBlanks p ≠ [] → p.head? ≠ some ' ') ∧
      (KeepsSpacing text ↔ ∀ p ∈ atLimit 13 text, skipBlanks p = []) := by
  have hinj : Function.Injective (List.map (some : Str → Option Str)) :=
    List.map_injective_iff.mpr fun _ _ => Option.some.inj
  rw [← splitArgs_eq_iff, ← splitArgs_doubles_iff]
  refine ⟨⟨fun h => ?_, fun h => ?_⟩, fun h t ht => ?_, fun h t ht parv => ?_⟩
  · have := h.params fun _ => none
    rw [(stringToParv_spec _ hnul).1] at this
    exact hinj this
  · exact {
      params := fun parv => by rw [(stringToParv_spec parv hnul).1, stringToArray, h]
      bound := fun parv => (stringToParv_spec parv hnul).2.1
      ended := fun parv => (stringToParv_spec parv hnul).2.2.1
      within := fun parv i hi => (stringToParv_spec parv hnul).2.2.2 i <|
        hi.imp (fun h => by omega) (stringToParv_spec parv hnul).2.1.trans_lt }
  · have := h t ht fun _ => none
    rw [(stringToParv_spec _ hnul).1, (stringToParv_spec _ (ht.nul hnul)).1] at this
    exact hinj this
  · rw [(stringToParv_spec parv hnul).1, (stringToParv_spec parv (ht.nul hnul)).1, stringToArray,
      stringToArray, h t ht]

theorem stringToParv_iff_words : '\x00' ∉ "#a #b :c d".toList ∧ IsSplit "#a #b :c d".toList ∧
    KeepsSpacing "#a #b :c d".toList := by
  have h := @stringToParv_iff "#a #b :c d".toList (by decide)
  have hnone : atLimit 13 "#a #b :c d".toList = none := by decide
  refine ⟨by decide, h.1.mpr ?_, h.2.mpr ?_⟩ <;> rw [hnone] <;> exact fun p hp => nomatch hp

/-- Two blanks before the fourteenth parameter: it begins with a blank. -/
theorem not_isSplit : ¬ ∀ text : Str, '\x00' ∉ text → IsSplit text ∧ KeepsSpacing text := by
  intro h
  have := (h "1 2 3 4 5 6 7 8 9 10 11 12 13  14".toList (by decide)).1.params fun _ => none
  revert this
  decide

end ParamArray

end Unirc
