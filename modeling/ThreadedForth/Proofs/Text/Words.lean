
import ThreadedForth.Text.Blank

/-!
# Words of a text

A text is cut into words at its blanks. Words are taken one at a time: blanks are skipped, a word is taken,
and the blank behind it is passed. Doing so until nothing is left gives all the words of the text.
-/

namespace ThreadedForth.Text

open Blank List

/-- The words of a text. -/
def words (bytes : List UInt8) : List (List UInt8) :=
  (bytes.splitOnP isBlankByte).filter (· ≠ [])

/-- The next word of a text, which is empty if there is none. -/
def nextWord (bytes : List UInt8) : List UInt8 :=
  (bytes.dropWhile isBlankByte).takeWhile (!isBlankByte ·)

/-- What follows the next word and the blank behind it. -/
def afterWord (bytes : List UInt8) : List UInt8 :=
  (bytes.dropWhile isBlankByte).drop ((nextWord bytes).length + 1)

variable {byte : UInt8} {bytes word : List UInt8}

theorem words_cons_of_blank (hblank : isBlankByte byte = true) (rest : List UInt8) :
    words (byte :: rest) = words rest := by
  rw [words, splitOnP_cons_eq_if_modifyHead, if_pos hblank, filter_cons_of_neg (by simp), words]

theorem words_append_cons_of_blank (hblank : isBlankByte byte = true) (text rest : List UInt8) :
    words (text ++ byte :: rest) = words text ++ words rest := by
  rw [words, splitOnP_append_cons _ _ hblank, filter_append, words, words]

theorem words_dropWhile (bytes : List UInt8) : words (bytes.dropWhile isBlankByte) = words bytes := by
  induction bytes with
  | nil => rfl
  | cons byte rest ih =>
    by_cases hblank : isBlankByte byte = true
    · rw [dropWhile_cons_of_pos hblank, ih, words_cons_of_blank hblank]
    · rw [dropWhile_cons_of_neg hblank]

/-- A text has no word left, or a first one and the words behind it. -/
theorem words_eq (bytes : List UInt8) :
    words bytes = if nextWord bytes = [] then [] else nextWord bytes :: words (afterWord bytes) := by
  rw [← words_dropWhile]
  have hstart : ∀ byte ∈ (bytes.dropWhile isBlankByte).head?, isBlankByte byte = false := by
    intro byte hbyte
    have hhead := head?_dropWhile_not isBlankByte bytes
    rw [Option.mem_def.1 hbyte] at hhead
    exact hhead
  have hrun : ∀ byte ∈ nextWord bytes, isBlankByte byte = false := fun byte hbyte => by
    simpa using all_eq_true.1 all_takeWhile byte hbyte
  rw [afterWord]
  have hword : nextWord bytes = (bytes.dropWhile isBlankByte).takeWhile (!isBlankByte ·) := rfl
  have hparts := @takeWhile_append_dropWhile _ (!isBlankByte ·) (bytes.dropWhile isBlankByte)
  rw [← hword] at hparts
  generalize bytes.dropWhile isBlankByte = text at hstart hword hparts
  generalize nextWord bytes = word at hrun hword hparts
  cases hrest : text.dropWhile (!isBlankByte ·) with
  | nil =>
    rw [hrest, append_nil] at hparts
    subst hparts
    rw [drop_eq_nil_of_le (Nat.le_succ _), words, splitOnP_eq_singleton hrun]
    by_cases hempty : word = []
    · rw [if_pos hempty, hempty]
      rfl
    · rw [if_neg hempty, filter_cons_of_pos (by simpa using hempty)]
      rfl
  | cons byte rest =>
    have hblank : isBlankByte byte = true := by
      have hhead := head?_dropWhile_not (!isBlankByte ·) text
      rw [hrest] at hhead
      simpa using hhead
    rw [hrest] at hparts
    have hempty : word ≠ [] := by
      rintro rfl
      rw [← hparts] at hstart
      have hfst := hstart byte rfl
      rw [hblank] at hfst
      cases hfst
    rw [if_neg hempty, ← hparts, words, splitOnP_append_cons_of_forall_mem hrun byte hblank,
      filter_cons_of_pos (by simpa using hempty), drop_append, drop_eq_nil_of_le (Nat.le_succ _),
      Nat.add_sub_cancel_left]
    rfl

theorem nextWord_of_words_cons {rest : List (List UInt8)} (hwords : words bytes = word :: rest) :
    nextWord bytes = word ∧ word ≠ [] ∧ words (afterWord bytes) = rest := by
  rw [words_eq] at hwords
  split at hwords
  · cases hwords
  · next hword =>
    obtain ⟨hfst, hrest⟩ := List.cons.inj hwords
    exact ⟨hfst, hfst ▸ hword, hrest⟩

end ThreadedForth.Text
