
import ThreadedForth.Disk
import ThreadedForth.Proofs.Text.Utf8RoundTrip

/-!
# The lines of a text and of its bytes

A text is cut into lines at its line feeds, and so are the bytes of a file. No other character has the byte of a line
feed or of a carriage return among its own, so a file that holds a text without carriage returns has the lines of the
text.
-/

namespace ThreadedForth

open Lines List Utf8

/-! ### Bytes of characters -/

namespace Utf8

variable {c : Char}

/-- A byte of ASCII is the character that it is part of. -/
theorem toNat_of_mem_encodeChar {byte : UInt8} (hmem : byte ∈ String.utf8EncodeChar c)
    (hascii : byte.toNat < 128) : byte.toNat = c.toNat := by
  change _ = c.val.toNat
  have hvalid : c.val.toNat < 0x110000 := by
    have : c.val.toNat < 0xD800 ∨ (0xDFFF < c.val.toNat ∧ c.val.toNat < 0x110000) := c.valid
    omega
  rw [String.utf8EncodeChar] at hmem
  generalize c.val.toNat = v at hmem hvalid ⊢
  have hlater {n : Nat} (hhigh : 128 ≤ n) (hbyte : n < 256) : byte ≠ UInt8.ofNat n := by
    rintro rfl
    rw [UInt8.toNat_ofNat_of_lt' hbyte] at hascii
    omega
  by_cases hone : v ≤ 127
  · rw [if_pos hone] at hmem
    have hbyte : v < 256 := by omega
    rw [mem_singleton.1 hmem, UInt8.toNat_ofNat_of_lt' hbyte]
  rw [if_neg hone] at hmem
  by_cases htwo : v ≤ 2047
  · simp only [if_pos htwo, List.mem_cons, not_mem_nil, or_false] at hmem
    rcases hmem with hbyte | hbyte <;> exact absurd hbyte (hlater (by omega) (by omega))
  rw [if_neg htwo] at hmem
  by_cases hthree : v ≤ 65535
  · simp only [if_pos hthree, List.mem_cons, not_mem_nil, or_false] at hmem
    rcases hmem with hbyte | hbyte | hbyte <;> exact absurd hbyte (hlater (by omega) (by omega))
  · simp only [if_neg hthree, List.mem_cons, not_mem_nil, or_false] at hmem
    rcases hmem with hbyte | hbyte | hbyte | hbyte <;> exact absurd hbyte (hlater (by omega) (by omega))

theorem mem_of_mem_encodeChars {chars : List Char} (hascii : c.toNat < 128)
    (hmem : UInt8.ofNat c.toNat ∈ chars.flatMap String.utf8EncodeChar) : c ∈ chars := by
  obtain ⟨other, hother, hbyte⟩ := mem_flatMap.1 hmem
  have hsmall : (UInt8.ofNat c.toNat).toNat = c.toNat := UInt8.toNat_ofNat_of_lt' (Nat.lt_trans hascii (by decide))
  have hsame := toNat_of_mem_encodeChar hbyte (by rwa [hsmall])
  rw [hsmall] at hsame
  rwa [← Char.ofNat_toNat c, hsame, Char.ofNat_toNat]

theorem encodeChar_ne_nil (c : Char) : String.utf8EncodeChar c ≠ [] := by
  rw [String.utf8EncodeChar]
  repeat' split
  all_goals exact cons_ne_nil _ _

theorem decode?_encode (text : String) : decode? (encode text) = some text := by
  have hwhole (chars : List Char) : (chars.map some).mapM id = some chars := by
    induction chars with
    | nil => rfl
    | cons c chars ih =>
      rw [map_cons, mapM_cons, ih]
      rfl
  rw [decode?, decode_encode, hwhole, Option.map_some, String.ofList_toList]

end Utf8

/-! ### Cutting -/

namespace Text

variable {α : Type}

theorem cut_cons [BEq α] (separator item : α) (items : List α) :
    cut separator (item :: items) =
      if item == separator then ([], true) :: cut separator items
      else
        match cut separator items with
        | [] => [([item], false)]
        | (piece, ended) :: rest => (item :: piece, ended) :: rest :=
  rfl

theorem cut_map {α β : Type} [BEq α] [BEq β] (f : α → β) (separator : α) {items : List α}
    (hsame : ∀ item ∈ items, (f item == f separator) = (item == separator)) :
    cut (f separator) (items.map f) = (cut separator items).map fun piece => (piece.1.map f, piece.2) := by
  induction items with
  | nil => rfl
  | cons item items ih =>
    rw [map_cons, cut_cons, cut_cons, hsame item mem_cons_self,
      ih fun other hother => hsame other (mem_cons_of_mem _ hother)]
    split
    · rfl
    · cases cut separator items <;> rfl

theorem mem_of_mem_cut [BEq α] {separator : α} {items : List α} {piece : List α × Bool}
    (hpiece : piece ∈ cut separator items) : ∀ item ∈ piece.1, item ∈ items := by
  induction items generalizing piece with
  | nil => cases hpiece
  | cons first items ih =>
    rw [cut_cons] at hpiece
    split at hpiece
    · rcases List.mem_cons.1 hpiece with rfl | hlater
      · exact fun _ hnone => by cases hnone
      · exact fun item hitem => mem_cons_of_mem _ (ih hlater item hitem)
    · cases hcut : cut separator items with
      | nil =>
        rw [hcut] at hpiece
        cases mem_singleton.1 hpiece
        exact fun item hitem => mem_singleton.1 hitem ▸ mem_cons_self
      | cons head rest =>
        rw [hcut] at hpiece
        rcases List.mem_cons.1 hpiece with rfl | hlater
        · intro item hitem
          rcases List.mem_cons.1 hitem with rfl | hin
          · exact mem_cons_self
          · exact mem_cons_of_mem _ (ih (hcut ▸ mem_cons_self) item hin)
        · exact fun item hitem => mem_cons_of_mem _ (ih (hcut ▸ mem_cons_of_mem _ hlater) item hitem)

theorem cut_append [BEq α] [LawfulBEq α] {separator : α} {items : List α} (hitems : separator ∉ items)
    (hsome : items ≠ []) (rest : List α) :
    cut separator (items ++ rest) =
      match cut separator rest with
      | [] => [(items, false)]
      | (piece, ended) :: more => (items ++ piece, ended) :: more := by
  induction items with
  | nil => exact absurd rfl hsome
  | cons item items ih =>
    have hitem : item ≠ separator := fun heq => hitems (heq ▸ mem_cons_self)
    have hothers : separator ∉ items := fun hmem => hitems (mem_cons_of_mem _ hmem)
    rw [cons_append, cut_cons, if_neg (by simpa using hitem)]
    by_cases hlast : items = []
    · subst hlast
      rw [nil_append]
      cases cut separator rest <;> rfl
    · rw [ih hothers hlast]
      cases cut separator rest <;> rfl

theorem cut_encodeChars (chars : List Char) :
    cut 0x0A (chars.flatMap String.utf8EncodeChar) =
      (cut '\n' chars).map fun piece => (piece.1.flatMap String.utf8EncodeChar, piece.2) := by
  induction chars with
  | nil => rfl
  | cons c chars ih =>
    rw [flatMap_cons, cut_cons]
    by_cases hfeed : c = '\n'
    · subst hfeed
      rw [show String.utf8EncodeChar '\n' = [0x0A] by decide, singleton_append, cut_cons, ih]
      rfl
    · have hfree : (0x0A : UInt8) ∉ String.utf8EncodeChar c := by
        intro hmem
        have hsame : (0x0A : UInt8).toNat = c.toNat := toNat_of_mem_encodeChar hmem (by decide)
        exact hfeed (by rw [← Char.ofNat_toNat c, ← hsame]; rfl)
      rw [cut_append hfree (encodeChar_ne_nil c), ih, if_neg (by simpa using hfeed)]
      cases cut '\n' chars <;> simp

theorem dropTrailing_eq_self [BEq α] [LawfulBEq α] {item : α} {items : List α} (hitems : item ∉ items) :
    dropTrailing item items = items := by
  rw [dropTrailing]
  cases hreverse : items.reverse with
  | nil => rw [reverse_eq_nil_iff.1 hreverse]; rfl
  | cons last rest =>
    have hlast : last ≠ item := by
      rintro rfl
      exact hitems (mem_reverse.1 (hreverse ▸ mem_cons_self))
    rw [dropWhile_cons_of_neg (by simpa using hlast), ← hreverse, reverse_reverse]

end Text

theorem DiskFile.lines_encode {text : String} (hreturn : '\r' ∉ text.toList) :
    (DiskFile.regular (encode text)).lines = (ofText text).map .ok := by
  rw [DiskFile.lines, ofBytes, encode, Text.cut_encodeChars, ofText, map_map, map_map,
    map_map]
  refine map_congr_left fun piece hpiece => ?_
  obtain ⟨line, ended⟩ := piece
  have hline : '\r' ∉ line := fun hmem => hreturn (Text.mem_of_mem_cut hpiece _ hmem)
  have hbytes : (0x0D : UInt8) ∉ line.flatMap String.utf8EncodeChar := by
    intro hmem
    exact hline (mem_of_mem_encodeChars (by decide) hmem)
  have hdecode : decode? (line.flatMap String.utf8EncodeChar) = some (String.ofList line) := by
    rw [← decode?_encode (String.ofList line), encode, String.toList_ofList]
  have hlast : ¬ (ended = true ∧ line.getLast? = some '\r') := by
    rintro ⟨-, hlast⟩
    exact hline (mem_of_getLast? hlast)
  simp only [Function.comp_apply, Text.dropTrailing_eq_self hbytes, hdecode, if_neg hlast]

end ThreadedForth
