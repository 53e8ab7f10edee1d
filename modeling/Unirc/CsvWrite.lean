import Unirc.CsvFields
import Unirc.Decimal

/-!
# Written lines of a ban file

`write_csv_line` of `csvlib.c`: strings are quoted as they are, and the digit loop of `%d` ends
at ten, so that a numeral which begins with the digits ten loses the first of them.
-/

namespace Unirc

/-- A string on one line. -/
structure CsvText where
  text : Str
  nul : NUL ∉ text
  newline : '\n' ∉ text

/-- An argument of `write_csv_line`: `%s`, or `%d` that is not negative. -/
inductive CsvField
  | string (s : CsvText)
  | int (v : ℕ)

/-- The digits in the order of the loop, the last one first. -/
def pushDigits (v : ℕ) : Str :=
  if 10 < v then Nat.digitChar (v % 10) :: pushDigits (v / 10) else [Nat.digitChar (v % 10)]
termination_by v
decreasing_by omega

namespace CsvField

def text : CsvField → Str
  | string s => s.text
  | int v => Nat.toDigits 10 v

def written : CsvField → Str
  | string s => s.text
  | int v => (pushDigits v).reverse

end CsvField

def writeCsvLine (fields : List CsvField) : Str :=
  let str := fields.flatMap fun f => dquote :: (f.written ++ [dquote, ','])
  if str.getLast? = some ',' then str.dropLast ++ ['\n'] else str ++ ['\n']

/-- `fbgets` on a file and `n` calls of `getfield`. -/
def readCsvLine (n : ℕ) (file : Str) (memory : List Char) : List Str :=
  match fbgets IRCD_BUFSIZE file with
  | none => []
  | some (chunk, _) =>
      let (positions, buffer) := parseCsvLine n (overlay chunk memory) 0
      textsAt positions buffer

/-- The fields of the written line are read and nothing behind them, whatever the line buffer
held before. -/
def ReadsBack (fields : List CsvField) : Prop :=
  ∀ memory, memory.length = IRCD_BUFSIZE →
    readCsvLine (fields.length + 1) (writeCsvLine fields) memory = fields.map CsvField.text

/-- The text is made of pairs of a backslash and a character, and of other characters than the
quote. -/
def paired : Str → Bool
  | [] => true
  | [c] => c ≠ backslash && c ≠ dquote
  | c :: d :: t => if c = backslash then paired t else c ≠ dquote && paired (d :: t)

/-- The decimal digits of a number begin with those of ten. -/
def StartsWithTen (v : ℕ) : Prop := ∃ k ≤ v, v / 10 ^ k = 10

instance (v : ℕ) : Decidable (StartsWithTen v) := Nat.decidableExistsLE _

def CsvField.Plain : CsvField → Prop
  | .string s => paired s.text = true ∧ '\r' ∉ s.text
  | .int v => ¬ StartsWithTen v

section Digits

theorem startsWithTen_iff {v : ℕ} (hv : 10 < v) : StartsWithTen v ↔ StartsWithTen (v / 10) := by
  constructor
  · rintro ⟨_ | k, hk, hten⟩
    · rw [Nat.pow_zero, Nat.div_one] at hten
      omega
    · rw [Nat.pow_succ', ← Nat.div_div_eq_div_mul] at hten
      refine ⟨k, ?_, hten⟩
      have hpow : 10 ^ k ≤ v / 10 := Nat.le_of_not_lt fun h => by
        rw [Nat.div_eq_of_lt h] at hten
        omega
      exact (Nat.lt_pow_self (by decide)).le.trans hpow
  · rintro ⟨k, hk, hten⟩
    refine ⟨k + 1, by omega, ?_⟩
    rw [Nat.pow_succ', ← Nat.div_div_eq_div_mul, hten]

theorem pushDigits_eq_iff (v : ℕ) :
    (pushDigits v).reverse = Nat.toDigits 10 v ↔ ¬ StartsWithTen v := by
  induction v using pushDigits.induct with
  | case1 v hv ih =>
      rw [startsWithTen_iff hv, ← ih, pushDigits, if_pos hv, List.reverse_cons,
        Nat.toDigits_of_base_le (by decide) hv.le]
      exact List.append_left_inj _
  | case2 v hv =>
      rw [pushDigits, if_neg hv]
      have hle : v ≤ 10 := Nat.le_of_not_lt hv
      clear hv
      revert v
      decide

theorem isDigit_of_mem_pushDigits {v : ℕ} {c : Char} (h : c ∈ pushDigits v) :
    c.isDigit = true := by
  have hchar (v : ℕ) : (Nat.digitChar (v % 10)).isDigit = true := by
    have hv : v % 10 < 10 := Nat.mod_lt _ (by decide)
    revert hv
    generalize v % 10 = d
    revert d
    decide
  induction v using pushDigits.induct with
  | case1 v hv ih =>
      rw [pushDigits, if_pos hv] at h
      rcases List.mem_cons.mp h with rfl | h
      · exact hchar v
      · exact ih h
  | case2 v hv =>
      rw [pushDigits, if_neg hv, List.mem_singleton] at h
      exact h ▸ hchar v

end Digits

section Paired

variable {t : Str} {rest : List Char}

theorem closeField_of_paired (h : paired t = true) (hnul : NUL ∉ t) (hline : '\n' ∉ t) :
    closeField (t ++ dquote :: rest) = some (t, rest) := by
  induction t using paired.induct with
  | case1 => cases rest <;> rfl
  | case2 c =>
      rw [paired, Bool.and_eq_true, decide_eq_true_eq, decide_eq_true_eq] at h
      rw [List.mem_singleton] at hnul hline
      rw [List.singleton_append, closeField, if_neg (not_or.mpr ⟨Ne.symm hnul, Ne.symm hline⟩),
        if_neg h.1, if_neg h.2]
      cases rest <;> rfl
  | case3 d t ih =>
      rw [paired, if_pos rfl] at h
      rw [List.cons_append, List.cons_append, closeField, if_neg (by decide), if_pos rfl,
        ih h (fun hmem => hnul (by simp [hmem])) (fun hmem => hline (by simp [hmem]))]
      rfl
  | case4 c d t hc ih =>
      rw [paired, if_neg hc, Bool.and_eq_true, decide_eq_true_eq] at h
      have hctl : ¬ (c = NUL ∨ c = '\n') := by
        rintro (rfl | rfl)
        · exact hnul List.mem_cons_self
        · exact hline List.mem_cons_self
      rw [List.cons_append, List.cons_append, closeField, if_neg hctl, if_neg hc, if_neg h.1,
        ← List.cons_append, ih h.2 (fun hmem => hnul (List.mem_cons_of_mem c hmem))
          (fun hmem => hline (List.mem_cons_of_mem c hmem))]
      rfl

theorem paired_of_closeField {rest' : List Char}
    (h : closeField (t ++ dquote :: rest) = some (t, rest')) : paired t = true := by
  induction t using paired.induct generalizing rest with
  | case1 => rfl
  | case2 c =>
      rw [List.singleton_append, closeField] at h
      split at h
      · cases h
      · split at h
        · obtain ⟨r, -, heq⟩ := Option.map_eq_some_iff.mp h
          cases congrArg (fun p => p.1.length) heq
        · rename_i hb
          split at h
          · cases h
          · rename_i hq
            rw [paired, Bool.and_eq_true]
            exact ⟨decide_eq_true hb, decide_eq_true hq⟩
  | case3 d t ih =>
      rw [List.cons_append, List.cons_append, closeField, if_neg (by decide), if_pos rfl] at h
      obtain ⟨⟨field, rest''⟩, hclose, heq⟩ := Option.map_eq_some_iff.mp h
      cases heq
      rw [paired, if_pos rfl, ih hclose]
  | case4 c d t hc ih =>
      rw [List.cons_append, List.cons_append, closeField, if_neg hc] at h
      split at h
      · cases h
      · split at h
        · cases h
        · rename_i hq
          obtain ⟨⟨field, rest''⟩, hclose, heq⟩ := Option.map_eq_some_iff.mp h
          cases heq
          rw [paired, if_neg hc, decide_eq_true hq, Bool.true_and]
          exact ih hclose

end Paired

theorem paired_of_not_mem {t : Str} (hb : backslash ∉ t) (hq : dquote ∉ t) : paired t = true := by
  induction t using paired.induct with
  | case1 => rfl
  | case2 c =>
      rw [List.mem_singleton] at hb hq
      rw [paired, decide_eq_true (Ne.symm hb), decide_eq_true (Ne.symm hq)]
      rfl
  | case3 d t => exact absurd List.mem_cons_self hb
  | case4 c d t hc ih =>
      have hcq : c ≠ dquote := fun h => hq (h ▸ List.mem_cons_self)
      rw [paired, if_neg hc, decide_eq_true hcq, Bool.true_and]
      exact ih (fun h => hb (List.mem_cons_of_mem c h)) fun h => hq (List.mem_cons_of_mem c h)

section Fbgets

variable {file body : Str} {n : ℕ}

theorem fbgetsLoop_body (hline : '\n' ∉ body) (hcr : '\r' ∉ body) :
    (fbgetsLoop n (body ++ ['\n'])).1 = (body ++ ['\n']).take n := by
  induction body generalizing n with
  | nil =>
      cases n with
      | zero => rfl
      | succ n => rw [List.nil_append, fbgetsLoop, if_pos rfl, List.take_of_length_le (by simp)]
  | cons c body ih =>
      cases n with
      | zero => rfl
      | succ n =>
          have hc : c ≠ '\n' := fun h => hline (h ▸ List.mem_cons_self)
          have hc' : c ≠ '\r' := fun h => hcr (h ▸ List.mem_cons_self)
          rw [List.cons_append, fbgetsLoop, if_neg hc, if_neg hc', List.take_succ_cons,
            ← ih (fun h => hline (List.mem_cons_of_mem c h)) fun h => hcr (List.mem_cons_of_mem c h)]

/-- What is in front of the end of a chunk is the front of the file. -/
theorem fbgetsLoop_eq_append {chunk : Str} (hline : '\n' ∉ body)
    (h : (fbgetsLoop n file).1 = body ++ chunk) :
    body.length ≤ n ∧ '\r' ∉ body ∧ ∃ file', file = body ++ file' ∧
      (fbgetsLoop (n - body.length) file').1 = chunk := by
  induction body generalizing n file with
  | nil => exact ⟨Nat.zero_le n, by simp, file, rfl, h⟩
  | cons c body ih =>
      have hc : c ≠ '\n' := fun h => hline (h ▸ List.mem_cons_self)
      cases n with
      | zero => cases h
      | succ n =>
          cases file with
          | nil => cases h
          | cons d file =>
              rw [fbgetsLoop] at h
              split at h
              · exact absurd (List.cons.inj h).1.symm hc
              · split at h
                · exact absurd (List.cons.inj h).1.symm hc
                · rename_i hd
                  obtain ⟨hdc, htail⟩ := List.cons.inj (h : d :: (fbgetsLoop n file).1 = _)
                  subst hdc
                  obtain ⟨hlen, hcr, file', rfl, hrest⟩ :=
                    ih (fun h => hline (List.mem_cons_of_mem d h)) htail
                  refine ⟨Nat.succ_le_succ hlen, ?_, file', rfl, ?_⟩
                  · rw [List.mem_cons, not_or]
                    exact ⟨Ne.symm hd, hcr⟩
                  · rwa [List.length_cons, Nat.add_sub_add_right]

theorem readCsvLine_eq (hfile : file ≠ []) (n : ℕ) (memory : List Char) :
    readCsvLine n file memory =
      csvFields n (overlay (fbgetsLoop (IRCD_BUFSIZE - 1) file).1 memory) := by
  rw [readCsvLine, fbgets, if_neg hfile]
  exact (parseCsvLine_spec (Nat.zero_le _)).1

end Fbgets

section Line

variable {fields : List CsvField}

def CsvField.quoted (f : CsvField) : Str := dquote :: (f.written ++ [dquote])

def csvBody : List CsvField → Str
  | [] => []
  | [f] => f.quoted
  | f :: g :: fields => f.quoted ++ ',' :: csvBody (g :: fields)

theorem flatMap_written (f : CsvField) (fields : List CsvField) :
    ((f :: fields).flatMap fun f => dquote :: (f.written ++ [dquote, ','])) =
      csvBody (f :: fields) ++ [','] := by
  induction fields generalizing f with
  | nil => simp [csvBody, CsvField.quoted]
  | cons g fields ih =>
      rw [List.flatMap_cons, ih, csvBody]
      simp [CsvField.quoted]

theorem writeCsvLine_eq (fields : List CsvField) : writeCsvLine fields = csvBody fields ++ ['\n'] := by
  cases fields with
  | nil => rfl
  | cons f fields =>
      rw [writeCsvLine, flatMap_written, List.getLast?_concat, if_pos rfl, List.dropLast_concat]

theorem mem_csvBody {c : Char} (h : c ∈ csvBody fields) (hq : c ≠ dquote) (hs : c ≠ ',') :
    ∃ f ∈ fields, c ∈ f.written := by
  induction fields using csvBody.induct with
  | case1 => cases h
  | case2 f => exact ⟨f, List.mem_singleton_self f, by simpa [csvBody, CsvField.quoted, hq] using h⟩
  | case3 f g fields ih =>
      rw [csvBody, List.mem_append, List.mem_cons] at h
      rcases h with h | h | h
      · exact ⟨f, List.mem_cons_self, by simpa [CsvField.quoted, hq] using h⟩
      · exact absurd h hs
      · obtain ⟨f', hf', hmem⟩ := ih h
        exact ⟨f', List.mem_cons_of_mem f hf', hmem⟩

theorem CsvField.not_mem_text (f : CsvField) : NUL ∉ f.text ∧ '\n' ∉ f.text := by
  cases f with
  | string s => exact ⟨s.nul, s.newline⟩
  | int v =>
      constructor <;> intro h <;>
        cases (Nat.isDigit_of_mem_toDigits (by decide) (by decide) h : Char.isDigit _ = true)

theorem CsvField.not_mem_written (f : CsvField) : NUL ∉ f.written ∧ '\n' ∉ f.written := by
  cases f with
  | string s => exact ⟨s.nul, s.newline⟩
  | int v =>
      constructor <;> intro h <;> cases isDigit_of_mem_pushDigits (List.mem_reverse.mp h)

namespace CsvField

variable {f : CsvField}

theorem Plain.written_eq (h : f.Plain) : f.written = f.text := by
  cases f with
  | string s => rfl
  | int v => exact (pushDigits_eq_iff v).mpr h

theorem Plain.paired (h : f.Plain) : Unirc.paired f.written = true := by
  cases f with
  | string s => exact h.1
  | int v =>
      refine paired_of_not_mem ?_ ?_ <;> intro h <;>
        cases isDigit_of_mem_pushDigits (List.mem_reverse.mp h)

theorem Plain.not_mem_written (h : f.Plain) : '\r' ∉ f.written := by
  cases f with
  | string s => exact h.2
  | int v =>
      intro h
      cases isDigit_of_mem_pushDigits (List.mem_reverse.mp h)

theorem Plain.closeField (h : f.Plain) (rest : List Char) :
    Unirc.closeField (f.written ++ dquote :: rest) = some (f.written, rest) :=
  closeField_of_paired h.paired f.not_mem_written.1 f.not_mem_written.2

end CsvField

theorem csvFields_quoted {f : CsvField} (hplain : f.Plain) {skip : Str}
    (hskip : NUL ∉ skip ∧ dquote ∉ skip) (n : ℕ) (memory : List Char) :
    csvFields (n + 1) (skip ++ (f.quoted ++ memory)) = f.text :: csvFields n memory := by
  have hread : readField (skip ++ (f.quoted ++ memory)) = some (f.written, memory) := by
    rw [CsvField.quoted, List.cons_append, List.append_assoc, readField_append hskip.1 hskip.2]
    exact hplain.closeField memory
  rw [csvFields, hread]
  simp only
  rw [cstring_of_not_mem f.not_mem_written.1, hplain.written_eq]

theorem csvFields_csvBody (hplain : ∀ f ∈ fields, f.Plain) {skip tail : Str}
    (hskip : NUL ∉ skip ∧ dquote ∉ skip) (htail : NUL ∉ tail ∧ dquote ∉ tail)
    (stale : List Char) : csvFields (fields.length + 1)
      (skip ++ (csvBody fields ++ (tail ++ NUL :: stale))) = fields.map CsvField.text := by
  have hend (skip : Str) (hskip : NUL ∉ skip ∧ dquote ∉ skip) :
      csvFields 1 (skip ++ (tail ++ NUL :: stale)) = [] := by
    have hread : readField (skip ++ (tail ++ NUL :: stale)) = none := by
      rw [← List.append_assoc]
      refine readField_no_quote ?_ ?_ stale <;> rw [List.mem_append, not_or]
      · exact ⟨hskip.1, htail.1⟩
      · exact ⟨hskip.2, htail.2⟩
    rw [csvFields, hread]
  induction fields using csvBody.induct generalizing skip with
  | case1 => exact hend skip hskip
  | case2 f =>
      rw [csvBody, List.length_singleton, csvFields_quoted (hplain f List.mem_cons_self) hskip]
      exact congrArg (f.text :: ·) (hend [] (by simp))
  | case3 f g fields ih =>
      have hrest := @ih (fun g hg => hplain g (List.mem_cons_of_mem f hg)) [','] (by decide)
      rw [csvBody, List.append_assoc, List.length_cons,
        csvFields_quoted (hplain f List.mem_cons_self) hskip]
      exact congrArg (f.text :: ·) hrest

theorem readsBack_of_plain (hplain : ∀ f ∈ fields, f.Plain)
    (hlen : (writeCsvLine fields).length ≤ IRCD_BUFSIZE) : ReadsBack fields := by
  intro memory _
  rw [writeCsvLine_eq] at hlen ⊢
  rw [List.length_append, List.length_singleton] at hlen
  have hline : '\n' ∉ csvBody fields := fun h => by
    obtain ⟨f, -, hmem⟩ := mem_csvBody h (by decide) (by decide)
    exact f.not_mem_written.2 hmem
  have hcr : '\r' ∉ csvBody fields := fun h => by
    obtain ⟨f, hf, hmem⟩ := mem_csvBody h (by decide) (by decide)
    exact (hplain f hf).not_mem_written hmem
  have htake : (csvBody fields ++ ['\n']).take (IRCD_BUFSIZE - 1) =
      csvBody fields ++ ['\n'].take (IRCD_BUFSIZE - 1 - (csvBody fields).length) := by
    rw [List.take_append, List.take_of_length_le (by omega)]
  have hsub {c : Char} {k : ℕ} (h : c ∈ ['\n'].take k) : c = '\n' :=
    List.mem_singleton.mp (List.mem_of_mem_take h)
  rw [readCsvLine_eq (by simp), fbgetsLoop_body hline hcr, overlay, htake, List.append_assoc]
  exact @csvFields_csvBody fields hplain [] _ (by simp)
    ⟨fun h => absurd (hsub h) (by decide), fun h => absurd (hsub h) (by decide)⟩ _

theorem fbgetsLoop_not_mem {c : Char} {file : Str} {n : ℕ} (hc : c ≠ '\n')
    (h : c ∈ (fbgetsLoop n file).1) : c ∈ file := by
  induction n generalizing file with
  | zero => cases h
  | succ n ih =>
      cases file with
      | nil => cases h
      | cons d file =>
          rw [fbgetsLoop] at h
          split at h
          · exact absurd (List.mem_singleton.mp h) hc
          · split at h
            · exact absurd (List.mem_singleton.mp h) hc
            · rcases List.mem_cons.mp (h : c ∈ d :: (fbgetsLoop n file).1) with rfl | h
              · exact List.mem_cons_self
              · exact List.mem_cons_of_mem d (ih h)

/-- With nothing but NULs behind a chunk, its fields lie inside of it. -/
theorem exists_of_replicate {chunk field memory : List Char} {k : ℕ}
    (h : chunk ++ List.replicate k NUL = field ++ dquote :: memory) :
    ∃ chunk', chunk = field ++ dquote :: chunk' ∧ memory = chunk' ++ List.replicate k NUL := by
  have hquote : dquote ∉ List.replicate k NUL := fun h => absurd (List.eq_of_mem_replicate h)
    (by decide)
  rcases List.append_eq_append_iff.mp h with ⟨a, -, ha⟩ | ⟨a, ha, hmem⟩
  · exact absurd (ha ▸ by simp) hquote
  · cases a with
    | nil =>
        have hmem : dquote :: memory = List.replicate k NUL := hmem
        exact absurd (hmem ▸ List.mem_cons_self) hquote
    | cons c a =>
        obtain ⟨hc, hmem⟩ := List.cons.inj hmem
        exact ⟨a, hc ▸ ha, hmem⟩

theorem append_cons_inj {c : Char} {a b x y : Str} (ha : c ∉ a) (hb : c ∉ b)
    (h : a ++ c :: x = b ++ c :: y) : a = b ∧ x = y := by
  rcases List.append_eq_append_iff.mp h with ⟨d, rfl, hd⟩ | ⟨d, rfl, hd⟩
  · cases d with
    | nil => exact ⟨(List.append_nil a).symm, (List.cons.inj hd).2⟩
    | cons e d => exact absurd ((List.cons.inj hd).1 ▸ by simp) hb
  · cases d with
    | nil => exact ⟨List.append_nil b, (List.cons.inj hd).2.symm⟩
    | cons e d => exact absurd ((List.cons.inj hd).1 ▸ by simp) ha

theorem csvFields_replicate (n k : ℕ) : csvFields n (List.replicate k NUL) = [] := by
  cases n with
  | zero => rfl
  | succ n =>
      rw [csvFields, readField_of_not_mem]
      exact fun h => absurd (List.eq_of_mem_replicate h) (by decide)

theorem CsvField.plain_of_closeField {f : CsvField} {file' tail : Str} {memory rest : List Char}
    (hfile : f.written ++ dquote :: tail = f.text ++ dquote :: file') (hcr : '\r' ∉ f.text)
    (hclose : Unirc.closeField (f.text ++ dquote :: memory) = some (f.text, rest)) :
    f.Plain ∧ file' = tail := by
  cases f with
  | string s =>
      have hfile : s.text ++ dquote :: tail = s.text ++ dquote :: file' := hfile
      exact ⟨⟨paired_of_closeField hclose, hcr⟩, by simpa using hfile.symm⟩
  | int v =>
      have hwritten : dquote ∉ (int v).written := fun h => by
        cases isDigit_of_mem_pushDigits (List.mem_reverse.mp h)
      have htext : dquote ∉ (int v).text := fun h => by
        cases (Nat.isDigit_of_mem_toDigits (by decide) (by decide) h : Char.isDigit _ = true)
      obtain ⟨heq, htail⟩ := append_cons_inj hwritten htext hfile
      exact ⟨(pushDigits_eq_iff v).mp heq, htail.symm⟩

/-- One field and what is written behind it. -/
theorem plain_of_reads {f : CsvField} {tail : Str} {n m k : ℕ} {texts : List Str}
    (hnul : NUL ∉ tail) (hreads : csvFields (m + 1) ((fbgetsLoop n (f.quoted ++ tail)).1 ++
      List.replicate k NUL) = f.text :: texts) :
    f.Plain ∧ f.quoted.length ≤ n ∧ csvFields m
      ((fbgetsLoop (n - f.quoted.length) tail).1 ++ List.replicate k NUL) = texts := by
  cases n with
  | zero =>
      rw [fbgetsLoop, List.nil_append, csvFields_replicate] at hreads
      cases hreads
  | succ n =>
      have hchunk : (fbgetsLoop (n + 1) (f.quoted ++ tail)).1 =
          dquote :: (fbgetsLoop n (f.written ++ dquote :: tail)).1 := by
        rw [CsvField.quoted, List.cons_append, List.append_assoc]
        rfl
      have hfree : NUL ∉ (fbgetsLoop n (f.written ++ dquote :: tail)).1 := fun h => by
        rcases List.mem_append.mp (fbgetsLoop_not_mem (by decide) h) with h | h
        · exact f.not_mem_written.1 h
        · exact hnul (((List.mem_cons.mp h).resolve_left (by decide)))
      rw [hchunk, csvFields, List.cons_append] at hreads
      have hread := @readField_append [] ((fbgetsLoop n (f.written ++ dquote :: tail)).1 ++
        List.replicate k NUL) (by simp) (by simp)
      rw [List.nil_append] at hread
      rw [hread] at hreads
      split at hreads
      · cases hreads
      · rename_i field memory hclose
        obtain ⟨htext, hrest⟩ := List.cons.inj hreads
        obtain ⟨chunk, heq, rfl⟩ := exists_of_replicate (closeField_eq_some hclose)
        have hfield : field = f.text := by
          rw [← htext, cstring_of_not_mem fun h => hfree (heq ▸ List.mem_append_left _ h)]
        subst hfield
        have hsplit : f.text ++ dquote :: chunk = (f.text ++ [dquote]) ++ chunk := by simp
        rw [hsplit] at heq
        have hline : '\n' ∉ f.text ++ [dquote] := by
          rw [List.mem_append, List.mem_singleton, not_or]
          exact ⟨f.not_mem_text.2, by decide⟩
        obtain ⟨hlen, hcr, file', hfile, hnext⟩ := fbgetsLoop_eq_append hline heq
        rw [List.append_assoc] at hfile
        rw [heq, List.append_assoc, List.append_assoc] at hclose
        obtain ⟨hplain, htail⟩ := CsvField.plain_of_closeField hfile
          (fun h => hcr (List.mem_append_left _ h)) hclose
        have hquoted : f.quoted.length = (f.text ++ [dquote]).length + 1 := by
          rw [CsvField.quoted, hplain.written_eq, List.length_cons]
        rw [hquoted, Nat.add_sub_add_right, ← htail]
        exact ⟨hplain, Nat.succ_le_succ hlen, hnext ▸ hrest⟩

theorem plain_of_csvFields {n k : ℕ} (hreads : csvFields fields.length
      ((fbgetsLoop n (csvBody fields ++ ['\n'])).1 ++ List.replicate k NUL) =
        fields.map CsvField.text) :
    (∀ f ∈ fields, f.Plain) ∧ (csvBody fields).length ≤ n := by
  induction fields using csvBody.induct generalizing n with
  | case1 => exact ⟨fun f hf => (List.not_mem_nil hf).elim, Nat.zero_le n⟩
  | case2 f =>
      obtain ⟨hplain, hlen, -⟩ := plain_of_reads (by decide) hreads
      exact ⟨List.forall_mem_singleton.mpr hplain, hlen⟩
  | case3 f g fields ih =>
      have hnul : NUL ∉ ',' :: csvBody (g :: fields) ++ ['\n'] := by
        rw [List.cons_append, List.mem_cons, List.mem_append, List.mem_singleton]
        rintro (h | h | h)
        · cases h
        · obtain ⟨f, -, hmem⟩ := mem_csvBody h (by decide) (by decide)
          exact f.not_mem_written.1 hmem
        · cases h
      rw [csvBody, List.append_assoc] at hreads
      obtain ⟨hplain, hlen, hrest⟩ := plain_of_reads hnul hreads
      rw [csvBody, List.length_append, List.length_cons]
      obtain ⟨m, hm⟩ : ∃ m, m = n - f.quoted.length := ⟨_, rfl⟩
      rw [← hm] at hrest
      cases m with
      | zero =>
          rw [fbgetsLoop, List.nil_append, csvFields_replicate] at hrest
          cases hrest
      | succ m =>
          have hskip (memory : List Char) : csvFields (fields.length + 1) (',' :: memory) =
              csvFields (fields.length + 1) memory := rfl
          obtain ⟨hplains, hlens⟩ := ih ((hskip _).symm.trans hrest)
          exact ⟨List.forall_mem_cons.mpr ⟨hplain, hplains⟩, by omega⟩

theorem csvFields_take {n m : ℕ} {memory : List Char} (h : m ≤ n) :
    csvFields m memory = (csvFields n memory).take m := by
  induction n generalizing m memory with
  | zero =>
      rw [Nat.le_zero.mp h]
      rfl
  | succ n ih =>
      cases m with
      | zero => rfl
      | succ m =>
          rw [csvFields, csvFields]
          cases readField memory with
          | none => rfl
          | some r => exact congrArg (cstring r.1 :: ·) (ih (Nat.le_of_succ_le_succ h))

theorem plain_of_readsBack (h : ReadsBack fields) :
    (∀ f ∈ fields, f.Plain) ∧ (writeCsvLine fields).length ≤ IRCD_BUFSIZE := by
  have hreads := h (List.replicate IRCD_BUFSIZE NUL) List.length_replicate
  rw [writeCsvLine_eq, readCsvLine_eq (by simp), overlay, List.drop_replicate,
    ← List.replicate_succ] at hreads
  have hfields := (csvFields_take (Nat.le_succ fields.length)).trans (congrArg (List.take _) hreads)
  rw [List.take_of_length_le (by rw [List.length_map])] at hfields
  obtain ⟨hplain, hlen⟩ := plain_of_csvFields hfields
  rw [writeCsvLine_eq, List.length_append, List.length_singleton]
  exact ⟨hplain, Nat.succ_le_succ hlen⟩

theorem readsBack_iff (fields : List CsvField) : ReadsBack fields ↔
    (∀ f ∈ fields, f.Plain) ∧ (writeCsvLine fields).length ≤ IRCD_BUFSIZE :=
  ⟨plain_of_readsBack, fun h => readsBack_of_plain h.1 h.2⟩

/-- Ten itself is written as nought. -/
theorem not_readsBack : ¬ ∀ fields, ReadsBack fields := by
  intro h
  have hplain := (plain_of_readsBack (h [.int 10])).1 (.int 10) List.mem_cons_self
  exact hplain (by decide : StartsWithTen 10)

end Line

end Unirc
