import Unirc.CsvWrite

/-!
# Reading a file through a buffer

`fbfill` and `fbgets` of `fileio.c` on a file that `read` hands out in pieces. The lines that come
out are those of the whole file, whatever the sizes of the pieces are.
-/

namespace Unirc

/-- How many bytes each `read` finds when there are as many left. -/
structure ReadSizes where
  size : ℕ → ℕ
  pos : ∀ i, 0 < size i

/-- An `FBFILE`: what is between `ptr` and `endp`, what was not read yet, the flag `FB_EOF`, and
the number of the next `read`. -/
structure FbFile where
  buffer : Str
  file : Str
  eof : Bool
  reads : ℕ
  deriving DecidableEq

namespace FbFile

variable (sizes : ReadSizes)

/-- `fbopen`. -/
def fbopen (content : Str) : FbFile := ⟨[], content, false, 0⟩

/-- `fbfill`, which is called on an empty buffer only; the answer is whether it is positive. -/
def fbfill (fb : FbFile) : Bool × FbFile :=
  if fb.eof then (false, fb)
  else if fb.file = [] then (false, { fb with eof := true, reads := fb.reads + 1 })
  else
    (true, { fb with
      buffer := fb.file.take (sizes.size fb.reads)
      file := fb.file.drop (sizes.size fb.reads)
      reads := fb.reads + 1 })

/-- `fb->ptr < fb->endp || fbfill(fb) > 0`. -/
def more (fb : FbFile) : Bool × FbFile := if fb.buffer = [] then fb.fbfill sizes else (true, fb)

/-- The loop of `fbgets`. `none` is a read at `endp`. -/
def getsLoop : ℕ → FbFile → Option (Str × FbFile)
  | 0, fb => some ([], fb)
  | n + 1, fb =>
      match fb.buffer with
      | [] => none
      | c :: buffer =>
          let fb := { fb with buffer }
          if c = '\n' then some (['\n'], fb)
          else if c = '\r' then
            let r := fb.more sizes
            if r.1 = true ∧ r.2.buffer.head? = some '\n' then
              some (['\n'], { r.2 with buffer := r.2.buffer.tail })
            else some (['\n'], r.2)
          else
            let r := fb.more sizes
            if r.1 then (getsLoop n r.2).map fun g => (c :: g.1, g.2)
            else some ([c], r.2)

/-- `fbgets` where nothing was pushed back. The text is what is in the array up to the NUL that
`fbgets` puts behind it. -/
def gets (len : ℕ) (fb : FbFile) : Option (Option Str × FbFile) :=
  let r := fb.more sizes
  if r.1 then (r.2.getsLoop sizes (len - 1)).map fun g => (some (cstring (g.1 ++ [NUL])), g.2)
  else some (none, r.2)

/-- The results of `k` calls of `fbgets`. -/
def getsRun (len : ℕ) : ℕ → FbFile → Option (List (Option Str))
  | 0, _ => some []
  | k + 1, fb =>
      match fb.gets sizes len with
      | none => none
      | some (line, fb) => (getsRun len k fb).map (line :: ·)

end FbFile

/-- The lines of a file, each with a single LF; the last line may have no terminator. -/
def fileLines : Str → List Str
  | [] => []
  | '\n' :: file => ['\n'] :: fileLines file
  | '\r' :: '\n' :: file => ['\n'] :: fileLines file
  | '\r' :: file => ['\n'] :: fileLines file
  | c :: file =>
      match fileLines file with
      | [] => [[c]]
      | line :: lines => (c :: line) :: lines

/-- A line in pieces of `n + 1` characters; the last one has what is left. -/
def pieces (n : ℕ) : Str → List Str
  | [] => []
  | c :: line => (c :: line.take n) :: pieces n (line.drop n)
  termination_by line => line.length
  decreasing_by
    rw [List.length_drop, List.length_cons]
    omega

/-- What buffers of `len` bytes get of a file, for `len` above one. -/
def splitContent (len : ℕ) (content : Str) : List Str :=
  (fileLines content).flatMap (pieces (len - 2))

theorem fileLines_cr (file : Str) :
    fileLines ('\r' :: file) =
      ['\n'] :: fileLines (if file.head? = some '\n' then file.tail else file) := by
  rcases file with _ | ⟨c, file⟩
  · rfl
  · by_cases hc : c = '\n'
    · subst hc
      rfl
    · have hhead : (c :: file).head? ≠ some '\n' := fun h => hc (Option.some.inj h)
      rw [if_neg hhead, fileLines]
      exact fun t ht => hc (List.cons.inj ht).1

theorem fileLines_of_ne {c : Char} (hc : c ≠ '\n') (hcr : c ≠ '\r') (file : Str) :
    fileLines (c :: file) =
      match fileLines file with
      | [] => [[c]]
      | line :: lines => (c :: line) :: lines := by
  rw [fileLines]
  · exact hc
  · exact fun t h _ => hcr h
  · exact hcr

theorem fileLines_eq_nil_iff {file : Str} : fileLines file = [] ↔ file = [] := by
  refine ⟨fun h => ?_, fun h => h ▸ rfl⟩
  rcases file with _ | ⟨c, file⟩
  · rfl
  · by_cases hc : c = '\n'
    · subst hc
      cases h
    · by_cases hcr : c = '\r'
      · rw [hcr, fileLines_cr] at h
        cases h
      · rw [fileLines_of_ne hc hcr] at h
        split at h <;> cases h

theorem ne_nil_of_mem_fileLines {file line : Str} (h : line ∈ fileLines file) : line ≠ [] := by
  fun_induction fileLines file with
  | case1 => cases h
  | case2 file ih | case3 file ih | case4 file _ ih =>
      rcases List.mem_cons.mp h with rfl | h
      · exact List.cons_ne_nil _ _
      · exact ih h
  | case5 c file =>
      rw [List.mem_singleton.mp h]
      exact List.cons_ne_nil _ _
  | case6 c file _ _ _ first lines hlines ih =>
      rcases List.mem_cons.mp h with rfl | h
      · exact List.cons_ne_nil _ _
      · exact ih (hlines ▸ List.mem_cons_of_mem first h)

/-- The loop gets the first line, or as much of it as there is room for. -/
theorem fbgetsLoop_fileLines {m : ℕ} {file line : Str} {lines : List Str}
    (h : fileLines file = line :: lines) :
    (fbgetsLoop m file).1 = line.take m ∧ fileLines (fbgetsLoop m file).2 =
      if line.length ≤ m then lines else line.drop m :: lines := by
  have hne : line ≠ [] := ne_nil_of_mem_fileLines (h ▸ List.mem_cons_self)
  induction m generalizing file line with
  | zero =>
      rw [if_neg (by simpa using hne)]
      exact ⟨rfl, h⟩
  | succ m ih =>
      rcases file with _ | ⟨c, file⟩
      · cases h
      by_cases hc : c = '\n'
      · subst hc
        obtain ⟨rfl, rfl⟩ := List.cons.inj h
        rw [fbgetsLoop, if_pos rfl]
        simp
      by_cases hcr : c = '\r'
      · subst hcr
        rw [fileLines_cr] at h
        obtain ⟨rfl, rfl⟩ := List.cons.inj h
        rw [fbgetsLoop, if_neg hc, if_pos rfl]
        simp
      rw [fileLines_of_ne hc hcr] at h
      rw [fbgetsLoop, if_neg hc, if_neg hcr]
      dsimp only
      split at h
      · rename_i hnil
        obtain ⟨rfl, rfl⟩ := List.cons.inj h
        rw [fileLines_eq_nil_iff.mp hnil]
        cases m <;> simp [fbgetsLoop, fileLines]
      · rename_i line' lines' hlines
        obtain ⟨rfl, rfl⟩ := List.cons.inj h
        obtain ⟨htake, hrest⟩ := ih hlines (ne_nil_of_mem_fileLines (hlines ▸ List.mem_cons_self))
        rw [htake, hrest]
        simp

theorem pieces_of_ne_nil {n : ℕ} {line : Str} (h : line ≠ []) :
    pieces n line = line.take (n + 1) :: pieces n (line.drop (n + 1)) := by
  obtain ⟨c, line, rfl⟩ := List.exists_cons_of_ne_nil h
  rw [pieces, List.take_succ_cons, List.drop_succ_cons]

/-- One turn of the loop takes the first piece of what is left of the file. -/
theorem splitContent_of_ne_nil {len : ℕ} (hlen : 1 < len) {file : Str} (h : file ≠ []) :
    splitContent len file =
      (fbgetsLoop (len - 1) file).1 :: splitContent len (fbgetsLoop (len - 1) file).2 := by
  obtain ⟨line, lines, hlines⟩ := List.exists_cons_of_ne_nil (mt fileLines_eq_nil_iff.mp h)
  have hne : line ≠ [] := ne_nil_of_mem_fileLines (hlines ▸ List.mem_cons_self)
  obtain ⟨htake, hrest⟩ := fbgetsLoop_fileLines (m := len - 1) hlines
  have hroom : len - 2 + 1 = len - 1 := by omega
  rw [splitContent, splitContent, htake, hrest, hlines, List.flatMap_cons, pieces_of_ne_nil hne,
    hroom]
  split
  · rename_i hfits
    rw [List.drop_of_length_le hfits, pieces]
    rfl
  · rfl

theorem fbgetsLoop_suffix (n : ℕ) (file : Str) : (fbgetsLoop n file).2 <:+ file := by
  induction n generalizing file with
  | zero => exact List.suffix_rfl
  | succ n ih =>
      rcases file with _ | ⟨c, file⟩
      · exact List.suffix_rfl
      rw [fbgetsLoop]
      split
      · exact List.suffix_cons c file
      · split
        · dsimp only
          split
          · exact (List.tail_suffix file).trans (List.suffix_cons c file)
          · exact List.suffix_cons c file
        · exact (ih file).trans (List.suffix_cons c file)

namespace FbFile

variable {sizes : ReadSizes} {fb : FbFile}

/-- What is still to come. -/
def content (fb : FbFile) : Str := fb.buffer ++ fb.file

/-- `FB_EOF` is set at the end of the file only. -/
def Sound (fb : FbFile) : Prop := fb.eof = true → fb.file = []

theorem fbfill_spec (h : fb.Sound) (hempty : fb.buffer = []) :
    (fb.fbfill sizes).2.Sound ∧ (fb.fbfill sizes).2.content = fb.content ∧
      ((fb.fbfill sizes).1 = true ↔ (fb.fbfill sizes).2.buffer ≠ []) ∧
      ((fb.fbfill sizes).1 = true ↔ fb.content ≠ []) := by
  have hcontent : fb.content = fb.file := by rw [content, hempty, List.nil_append]
  rw [fbfill, hcontent]
  split
  · rename_i heof
    simp [Sound, content, hempty, h heof]
  · split
    · rename_i hfile
      simp [Sound, content, hempty, hfile]
    · rename_i heof hfile
      have hpos := sizes.pos fb.reads
      simp [Sound, content, hfile, heof, hpos.ne']

theorem more_spec (h : fb.Sound) :
    (fb.more sizes).2.Sound ∧ (fb.more sizes).2.content = fb.content ∧
      ((fb.more sizes).1 = true ↔ (fb.more sizes).2.buffer ≠ []) ∧
      ((fb.more sizes).1 = true ↔ fb.content ≠ []) := by
  rw [more]
  split
  · rename_i hempty
    exact fbfill_spec h hempty
  · rename_i hbuffer
    simp [h, hbuffer, content]

/-- The loop does on the buffer what it does on the whole file. -/
theorem getsLoop_spec {n : ℕ} (h : fb.Sound) (hbuffer : fb.buffer ≠ []) :
    ∃ fb', fb.getsLoop sizes n = some ((fbgetsLoop n fb.content).1, fb') ∧ fb'.Sound ∧
      fb'.content = (fbgetsLoop n fb.content).2 := by
  induction n generalizing fb with
  | zero => exact ⟨fb, rfl, h, rfl⟩
  | succ n ih =>
      obtain ⟨c, buffer, hc⟩ := List.exists_cons_of_ne_nil hbuffer
      have hcontent : fb.content = c :: (⟨buffer, fb.file, fb.eof, fb.reads⟩ : FbFile).content := by
        rw [content, hc]
        rfl
      have hnext : (⟨buffer, fb.file, fb.eof, fb.reads⟩ : FbFile).Sound := h
      rw [getsLoop, hc, hcontent, fbgetsLoop]
      dsimp only
      generalize (⟨buffer, fb.file, fb.eof, fb.reads⟩ : FbFile) = fb₁ at hnext
      by_cases hc : c = '\n'
      · rw [if_pos hc, if_pos hc]
        exact ⟨fb₁, rfl, hnext, rfl⟩
      rw [if_neg hc, if_neg hc]
      obtain ⟨hsound, hsame, hfull, hmore⟩ : (fb₁.more sizes).2.Sound ∧ _ := more_spec hnext
      generalize fb₁.more sizes = r at *
      rw [← hsame] at hmore ⊢
      by_cases hcr : c = '\r'
      · rw [if_pos hcr, if_pos hcr]
        have hhead : r.1 = true → r.2.content.head? = r.2.buffer.head? := fun hr =>
          List.head?_append_of_ne_nil _ (hfull.mp hr)
        by_cases hlf : r.2.content.head? = some '\n'
        · have hr : r.1 = true := hmore.mpr fun hnil => by simp [hnil] at hlf
          rw [if_pos ⟨hr, hhead hr ▸ hlf⟩, if_pos hlf]
          exact ⟨_, rfl, hsound, (List.tail_append_of_ne_nil (hfull.mp hr)).symm⟩
        · have hno : ¬ (r.1 = true ∧ r.2.buffer.head? = some '\n') := fun hr =>
            hlf ((hhead hr.1).trans hr.2)
          rw [if_neg hno, if_neg hlf]
          exact ⟨_, rfl, hsound, rfl⟩
      · rw [if_neg hcr, if_neg hcr]
        by_cases hr : r.1 = true
        · obtain ⟨fb', hloop, hsound', hrest⟩ := ih hsound (hfull.mp hr)
          rw [if_pos hr, hloop]
          exact ⟨fb', rfl, hsound', hrest⟩
        · have hnil : r.2.content = [] := not_not.mp (mt hmore.mpr hr)
          rw [if_neg hr, hnil]
          refine ⟨r.2, ?_, hsound, ?_⟩ <;> cases n <;> simp [fbgetsLoop, hnil]

/-- A call of `fbgets` returns the next line of the split, or NULL when there is none. -/
theorem gets_spec {len : ℕ} (hlen : 1 < len) (h : fb.Sound) (hnul : NUL ∉ fb.content) :
    ∃ fb', fb.gets sizes len = some ((splitContent len fb.content).head?, fb') ∧ fb'.Sound ∧
      NUL ∉ fb'.content ∧ splitContent len fb'.content = (splitContent len fb.content).tail := by
  obtain ⟨hsound, hsame, hfull, hmore⟩ : (fb.more sizes).2.Sound ∧ _ := more_spec h
  rw [gets]
  generalize fb.more sizes = r at *
  rw [← hsame] at hmore hnul ⊢
  by_cases hr : r.1 = true
  · obtain ⟨fb', hloop, hsound', hrest⟩ := getsLoop_spec (n := len - 1) hsound (hfull.mp hr)
    have hline : NUL ∉ (fbgetsLoop (len - 1) r.2.content).1 := fun hmem =>
      hnul (fbgetsLoop_not_mem (by decide) hmem)
    rw [if_pos hr, hloop, splitContent_of_ne_nil hlen (hmore.mp hr)]
    refine ⟨fb', ?_, hsound', ?_, by rw [hrest]; rfl⟩
    · rw [Option.map_some, cstring_append hline]
      rfl
    · rw [hrest]
      exact fun hmem => hnul ((fbgetsLoop_suffix _ _).subset hmem)
  · have hnil : r.2.content = [] := not_not.mp (mt hmore.mpr hr)
    rw [if_neg hr]
    exact ⟨r.2, by rw [hnil]; rfl, hsound, hnul, by rw [hnil]; rfl⟩

theorem getsRun_of_sound {len : ℕ} (hlen : 1 < len) (h : fb.Sound) (hnul : NUL ∉ fb.content)
    (k : ℕ) : fb.getsRun sizes len k =
      some ((List.range k).map fun i => (splitContent len fb.content)[i]?) := by
  induction k generalizing fb with
  | zero => rfl
  | succ k ih =>
      obtain ⟨fb', hget, hsound, hnul', htail⟩ := @gets_spec sizes fb len hlen h hnul
      rw [getsRun, hget, List.range_succ_eq_map, List.map_cons, List.map_map]
      dsimp only
      rw [ih hsound hnul', htail, Option.map_some, List.head?_eq_getElem?]
      refine congrArg (fun l => some (_ :: l)) (List.map_congr_left fun i _ => ?_)
      rw [Function.comp_apply, List.getElem?_tail]

/-- Whatever the reads find, the calls of `fbgets` return the split of the content one line after
the other, and NULL from then on. -/
theorem getsRun_eq_splitContent (sizes : ReadSizes) {len : ℕ} (hlen : 1 < len) {content : Str}
    (hnul : NUL ∉ content) (k : ℕ) : (fbopen content).getsRun sizes len k =
      some ((List.range k).map fun i => (splitContent len content)[i]?) := by
  have hsound : (fbopen content).Sound := fun heof => by cases heof
  exact getsRun_of_sound hlen hsound hnul k

/-- `ab CR LF c` in reads of three bytes with a buffer of three: the CR is the last byte of a read
and of a piece. -/
theorem getsRun_eq_splitContent_cr :
    (fbopen ['a', 'b', '\r', '\n', 'c']).getsRun ⟨fun _ => 3, fun _ => by decide⟩ 3 4 =
      some ((List.range 4).map fun i => (splitContent 3 ['a', 'b', '\r', '\n', 'c'])[i]?) :=
  getsRun_eq_splitContent ⟨fun _ => 3, fun _ => by decide⟩ (by decide) (by decide) 4

end FbFile

end Unirc
