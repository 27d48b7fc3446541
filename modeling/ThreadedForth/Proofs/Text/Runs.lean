
import ThreadedForth.Proofs.Text.Lines
import ThreadedForth.Proofs.Text.Words

/-!
# Maximal runs of a text

A word of a text is a run of bytes none of which is blank, with a blank or an end of the text on either side. The
words that are taken from a text one after the other are its runs, all of them and in order. No character but a blank
has a blank among its bytes, so in a well-formed text every run is a well-formed text of its own.
-/

namespace ThreadedForth.Text

open Blank Utf8 List

/-- The byte at a place is there and is no blank. -/
def SolidAt (bytes : List UInt8) (place : Nat) : Prop := ∃ byte, bytes[place]? = some byte ∧ isBlankByte byte = false

/-- The byte at a place is blank, or the text has ended there. -/
def OpenAt (bytes : List UInt8) (place : Nat) : Prop := ∀ byte, bytes[place]? = some byte → isBlankByte byte = true

/-- The `length` bytes from `start` on are no blanks, and the run cannot be made longer on either side. -/
structure IsRun (bytes : List UInt8) (start length : Nat) : Prop where
  nonempty : 0 < length
  solid : ∀ place, start ≤ place → place < start + length → SolidAt bytes place
  before : 0 < start → OpenAt bytes (start - 1)
  behind : OpenAt bytes (start + length)

/-- The bytes of a run. -/
def slice (bytes : List UInt8) (run : Nat × Nat) : List UInt8 := (bytes.drop run.1).take run.2

variable {bytes : List UInt8} {place count : Nat} {byte : UInt8} {chars : List Char}

theorem SolidAt.not_openAt (hsolid : SolidAt bytes place) : ¬ OpenAt bytes place := by
  obtain ⟨byte, hbyte, hblank⟩ := hsolid
  intro hopen
  rw [hopen byte hbyte] at hblank
  cases hblank

theorem SolidAt.lt (hsolid : SolidAt bytes place) : place < bytes.length := by
  obtain ⟨byte, hbyte, _⟩ := hsolid
  exact (List.getElem?_eq_some_iff.1 hbyte).1

theorem solidAt_drop : SolidAt (bytes.drop count) place ↔ SolidAt bytes (count + place) := by
  rw [SolidAt, SolidAt, List.getElem?_drop]

theorem openAt_drop : OpenAt (bytes.drop count) place ↔ OpenAt bytes (count + place) := by
  rw [OpenAt, OpenAt, getElem?_drop]

namespace IsRun

variable {bytes : List UInt8} {start length other count : Nat}

theorem le_length (hrun : IsRun bytes start length) : start + length ≤ bytes.length := by
  have hpositive := hrun.nonempty
  have hlast := (hrun.solid (start + length - 1) (by omega) (by omega)).lt
  omega

theorem of_drop (hrun : IsRun (bytes.drop count) start length) (hopen : OpenAt bytes (count - 1)) :
    IsRun bytes (count + start) length := by
  refine ⟨hrun.nonempty, fun place hlow hhigh => ?_, fun hpositive => ?_, ?_⟩
  · have hsolid := solidAt_drop.1 (hrun.solid (place - count) (by omega) (by omega))
    rwa [Nat.add_sub_cancel' (by omega)] at hsolid
  · by_cases hstart : start = 0
    · rw [hstart, Nat.add_zero]
      exact hopen
    · have hbefore := openAt_drop.1 (hrun.before (by omega))
      rwa [← Nat.add_sub_assoc (by omega)] at hbefore
  · rw [Nat.add_assoc]
    exact openAt_drop.1 hrun.behind

theorem eq_of_mem {width place : Nat} (hrun : IsRun bytes start length) (hother : IsRun bytes other width)
    (hlow : start ≤ place) (hhigh : place < start + length) (hfst : other ≤ place) (hlast : place < other + width) :
    start = other ∧ length = width := by
  have hstart : start = other := by
    rcases Nat.lt_trichotomy start other with hless | heq | hless
    · exact absurd (hother.before (by omega)) (hrun.solid (other - 1) (by omega) (by omega)).not_openAt
    · exact heq
    · exact absurd (hrun.before (by omega)) (hother.solid (start - 1) (by omega) (by omega)).not_openAt
  refine ⟨hstart, ?_⟩
  rcases Nat.lt_trichotomy length width with hless | heq | hless
  · exact absurd hrun.behind (hother.solid (start + length) (by omega) (by omega)).not_openAt
  · exact heq
  · exact absurd hother.behind (hrun.solid (other + width) (by omega) (by omega)).not_openAt

end IsRun

/-! ### The next run -/

section Next

variable (bytes : List UInt8)

/-- The blanks before the next word. -/
def skipped (bytes : List UInt8) : Nat := (bytes.takeWhile isBlankByte).length

theorem drop_skipped : bytes.drop (skipped bytes) = bytes.dropWhile isBlankByte := by
  have hdrop := @drop_left _ (bytes.takeWhile isBlankByte) (bytes.dropWhile isBlankByte)
  rwa [takeWhile_append_dropWhile] at hdrop

theorem slice_nextWord : slice bytes (skipped bytes, (nextWord bytes).length) = nextWord bytes := by
  rw [slice, drop_skipped]
  exact (prefix_iff_eq_take.1 (List.takeWhile_prefix _)).symm

theorem skipped_add_length_le : skipped bytes + (nextWord bytes).length ≤ bytes.length := by
  have hparts := congrArg List.length (@takeWhile_append_dropWhile _ isBlankByte bytes)
  have hword : (nextWord bytes).length ≤ (bytes.dropWhile isBlankByte).length := (List.takeWhile_prefix _).length_le
  rw [length_append] at hparts
  rw [skipped]
  omega

theorem afterWord_eq_drop : afterWord bytes = bytes.drop (skipped bytes + ((nextWord bytes).length + 1)) := by
  rw [afterWord, ← drop_skipped, drop_drop]

variable {bytes}

theorem openAt_of_lt_skipped {place : Nat} (hplace : place < skipped bytes) : OpenAt bytes place := by
  intro byte hbyte
  rw [← @takeWhile_append_dropWhile _ isBlankByte bytes, getElem?_append_left hplace] at hbyte
  exact all_eq_true.1 all_takeWhile byte (mem_of_getElem? hbyte)

theorem getElem?_takeWhile_length {test : UInt8 → Bool} {text : List UInt8} {byte : UInt8}
    (hbyte : text[(text.takeWhile test).length]? = some byte) : test byte = false := by
  have hhead := head?_dropWhile_not test text
  rw [← @takeWhile_append_dropWhile _ test text, getElem?_append_right (by simp),
    takeWhile_append_dropWhile, Nat.sub_self, ← head?_eq_getElem?] at hbyte
  rw [hbyte] at hhead
  exact hhead

theorem isRun_nextWord (hword : nextWord bytes ≠ []) : IsRun bytes (skipped bytes) (nextWord bytes).length := by
  refine ⟨length_pos_iff.2 hword, fun place hlow hhigh => ?_, fun hpositive => ?_, fun byte hbyte => ?_⟩
  · have hins : place - skipped bytes < (nextWord bytes).length := by omega
    refine ⟨(nextWord bytes)[place - skipped bytes], ?_, ?_⟩
    · have hplace : bytes[place]? = (bytes.dropWhile isBlankByte)[place - skipped bytes]? := by
        rw [← drop_skipped, getElem?_drop, Nat.add_sub_cancel' hlow]
      rw [hplace, ← @takeWhile_append_dropWhile _ (!isBlankByte ·) (bytes.dropWhile isBlankByte)]
      exact (getElem?_append_left hins).trans (getElem?_eq_getElem hins)
    · simpa using all_eq_true.1 all_takeWhile _ (getElem_mem hins)
  · exact openAt_of_lt_skipped (by omega)
  · rw [← getElem?_drop, drop_skipped] at hbyte
    simpa using getElem?_takeWhile_length hbyte

theorem dropWhile_of_nextWord_nil (hword : nextWord bytes = []) : bytes.dropWhile isBlankByte = [] := by
  cases hrest : bytes.dropWhile isBlankByte with
  | nil => rfl
  | cons first rest =>
    have hhead := head?_dropWhile_not isBlankByte bytes
    rw [hrest] at hhead
    rw [nextWord, hrest, takeWhile_cons, show isBlankByte first = false from hhead] at hword
    cases hword

theorem openAt_of_nextWord_nil (hword : nextWord bytes = []) (place : Nat) : OpenAt bytes place := by
  intro byte hbyte
  by_cases hplace : place < skipped bytes
  · exact openAt_of_lt_skipped hplace byte hbyte
  · rw [← Nat.add_sub_cancel' (Nat.le_of_not_lt hplace), ← getElem?_drop, drop_skipped,
      dropWhile_of_nextWord_nil hword] at hbyte
    cases hbyte

variable (bytes)

theorem words_head? : (words bytes)[0]? = if nextWord bytes = [] then none else some (nextWord bytes) := by
  rw [words_eq]
  split <;> rfl

theorem words_afterWord : words (afterWord bytes) = (words bytes).tail := by
  rw [words_eq bytes]
  split
  · next hword =>
    rw [afterWord, dropWhile_of_nextWord_nil hword, drop_nil]
    rfl
  · rfl

end Next

/-! ### All runs -/

/-- The words of a text are its runs, all of them and in order. -/
theorem exists_runs (bytes : List UInt8) : ∃ runs : List (Nat × Nat),
    runs.Pairwise (fun run next => run.1 + run.2 < next.1) ∧
      (∀ start length, (start, length) ∈ runs ↔ IsRun bytes start length) ∧
      runs.map (slice bytes) = words bytes := by
  -- It is enough that the listed runs are runs and that no solid byte is missed: runs that share a byte are one.
  suffices hcovered : ∃ runs : List (Nat × Nat), runs.Pairwise (fun run next => run.1 + run.2 < next.1) ∧
      (∀ run ∈ runs, IsRun bytes run.1 run.2) ∧
      (∀ place, SolidAt bytes place → ∃ run ∈ runs, run.1 ≤ place ∧ place < run.1 + run.2) ∧
      runs.map (slice bytes) = words bytes by
    obtain ⟨runs, hsorted, hruns, hcover, hwords⟩ := hcovered
    refine ⟨runs, hsorted, fun start length => ⟨hruns (start, length), fun hrun => ?_⟩, hwords⟩
    have hpositive := hrun.nonempty
    obtain ⟨run, hmem, hlow, hhigh⟩ := hcover start (hrun.solid start (Nat.le_refl _) (by omega))
    obtain ⟨hstart, hlen⟩ :=
      hrun.eq_of_mem (hruns run hmem) (Nat.le_refl _) (by omega) hlow hhigh
    rwa [hstart, hlen]
  induction hcount : bytes.length using Nat.strongRecOn generalizing bytes with
  | ind count ih =>
    by_cases hword : nextWord bytes = []
    · refine ⟨[], List.Pairwise.nil, by simp, fun place hsolid => ?_, ?_⟩
      · exact absurd (openAt_of_nextWord_nil hword place) hsolid.not_openAt
      · rw [words_eq, if_pos hword, map_nil]
    have hrun := isRun_nextWord hword
    have hbound := hrun.le_length
    have hpositive := hrun.nonempty
    generalize hpassed : skipped bytes + ((nextWord bytes).length + 1) = passed
    have hafter : afterWord bytes = bytes.drop passed := by rw [afterWord_eq_drop, hpassed]
    have hopen : OpenAt bytes (passed - 1) := by
      rw [← hpassed, ← Nat.add_assoc, Nat.add_sub_cancel]
      exact hrun.behind
    obtain ⟨runs, hsorted, hruns, hcover, hwords⟩ :=
      ih (bytes.drop passed).length (by rw [length_drop]; omega) (bytes.drop passed) rfl
    refine ⟨(skipped bytes, (nextWord bytes).length) :: runs.map (fun run => (passed + run.1, run.2)), ?_, ?_, ?_, ?_⟩
    · refine List.Pairwise.cons (fun next hnext => ?_) (pairwise_map.2 (hsorted.imp fun hless => ?_))
      · obtain ⟨run, _, rfl⟩ := mem_map.1 hnext
        simp only
        omega
      · simp only
        omega
    · intro run hmem
      rcases List.mem_cons.1 hmem with rfl | hmem
      · exact hrun
      · obtain ⟨later, hlater, rfl⟩ := mem_map.1 hmem
        exact (hruns later hlater).of_drop hopen
    · intro place hsolid
      rcases Nat.lt_or_ge place passed with hplace | hplace
      · refine ⟨_, mem_cons_self, ?_, ?_⟩
        · exact Nat.le_of_not_lt fun hless => hsolid.not_openAt (openAt_of_lt_skipped hless)
        · refine Nat.lt_of_not_le fun hle => hsolid.not_openAt ?_
          rwa [show place = passed - 1 by simp only at hle; omega]
      · obtain ⟨run, hmem, hlow, hhigh⟩ := hcover (place - passed)
          (solidAt_drop.2 (by rwa [Nat.add_sub_cancel' hplace]))
        refine ⟨(passed + run.1, run.2), mem_cons_of_mem _ (mem_map_of_mem hmem), ?_, ?_⟩
        · simp only
          omega
        · simp only
          omega
    · rw [words_eq, if_neg hword, map_cons, slice_nextWord, hafter, ← hwords, map_map]
      congr 1
      refine map_congr_left fun run _ => ?_
      rw [Function.comp_apply, slice, slice, drop_drop]

/-! ### Runs of well-formed text -/

theorem exists_char_of_ascii
    (hbyte : (chars.flatMap String.utf8EncodeChar)[place]? = some byte) (hascii : byte.toNat < 128) :
    ∃ before c behind, chars = before ++ c :: behind ∧ (before.flatMap String.utf8EncodeChar).length = place ∧
      (String.utf8EncodeChar c).length = 1 := by
  induction chars generalizing place with
  | nil => cases hbyte
  | cons c chars ih =>
    rw [flatMap_cons] at hbyte
    by_cases hplace : place < (String.utf8EncodeChar c).length
    · rw [getElem?_append_left hplace] at hbyte
      have hsame := toNat_of_mem_encodeChar (mem_of_getElem? hbyte) hascii
      have hone : (String.utf8EncodeChar c).length = 1 := by
        have hsmall : c.val.toNat ≤ 127 := by
          change c.toNat ≤ 127
          omega
        rw [String.utf8EncodeChar, if_pos hsmall]
        rfl
      exact ⟨[], c, chars, rfl, by simp only [flatMap_nil, length_nil]; omega, hone⟩
    · rw [getElem?_append_right (by omega)] at hbyte
      obtain ⟨before, other, behind, rfl, hlen, hone⟩ := ih hbyte
      refine ⟨c :: before, other, behind, rfl, ?_, hone⟩
      rw [flatMap_cons, length_append, hlen]
      omega

theorem isBlankByte_lt (hblank : isBlankByte byte = true) : byte.toNat < 128 := by
  simp only [isBlankByte, Bool.or_eq_true, beq_iff_eq] at hblank
  rcases hblank with (((rfl | rfl) | rfl) | rfl) | rfl <;> decide

theorem exists_cut_of_openAt (hplace : place ≤ (chars.flatMap String.utf8EncodeChar).length)
    (hopen : OpenAt (chars.flatMap String.utf8EncodeChar) place) :
    ∃ before behind, chars = before ++ behind ∧ (before.flatMap String.utf8EncodeChar).length = place := by
  rcases Nat.lt_or_eq_of_le hplace with hless | heq
  · have hbyte := getElem?_eq_getElem hless
    obtain ⟨before, c, behind, hchars, hlen, _⟩ :=
      exists_char_of_ascii hbyte (isBlankByte_lt (hopen _ hbyte))
    exact ⟨before, c :: behind, hchars, hlen⟩
  · exact ⟨chars, [], (append_nil _).symm, heq.symm⟩

/-- The runs of an encoded text are parts of the text. -/
theorem IsRun.exists_text {line : String} {start length : Nat} (hrun : IsRun (encode line) start length) :
    ∃ before token behind : String, line = before ++ token ++ behind ∧ (encode before).length = start ∧
      slice (encode line) (start, length) = encode token := by
  have hbound := hrun.le_length
  have hpositive := hrun.nonempty
  -- The text is cut behind the blank before the run, and then at the end of the run.
  obtain ⟨before, rest, hline, hstart⟩ : ∃ before rest, line.toList = before ++ rest ∧
      (before.flatMap String.utf8EncodeChar).length = start := by
    rcases Nat.eq_zero_or_pos start with rfl | hlate
    · exact ⟨[], line.toList, rfl, rfl⟩
    · have hbyte := getElem?_eq_getElem (show start - 1 < (encode line).length by omega)
      obtain ⟨before, c, behind, hchars, hlen, hone⟩ :=
        exists_char_of_ascii hbyte (isBlankByte_lt (hrun.before hlate _ hbyte))
      refine ⟨before ++ [c], behind, by rw [hchars, append_assoc]; rfl, ?_⟩
      rw [flatMap_append, length_append, hlen, flatMap_cons, flatMap_nil, append_nil, hone]
      omega
  have hdrop : (encode line).drop start = rest.flatMap String.utf8EncodeChar := by
    rw [encode, hline, flatMap_append, ← hstart, drop_left]
  obtain ⟨token, behind, hrest, hlen⟩ : ∃ token behind, rest = token ++ behind ∧
      (token.flatMap String.utf8EncodeChar).length = length := by
    refine exists_cut_of_openAt ?_ ?_
    · rw [← hdrop, length_drop]
      omega
    · rw [← hdrop]
      exact openAt_drop.2 hrun.behind
  refine ⟨String.ofList before, String.ofList token, String.ofList behind, ?_, ?_, ?_⟩
  · rw [← String.ofList_append, ← String.ofList_append, append_assoc, ← hrest, ← hline, String.ofList_toList]
  · rw [encode, String.toList_ofList, hstart]
  · rw [slice, hdrop, hrest, flatMap_append, ← hlen, take_left, encode, String.toList_ofList]

end ThreadedForth.Text
