
import ThreadedForth.Text.Utf8

/-!
# Text that was encoded reads back

Reading the bytes of a text gives the text: each character is taken whole, whatever stands before
it, so lossy and strict reading agree on encoded text. The reader is followed byte by byte on the
one to four bytes of a character; the ranges it allows for the second byte are those that the
encoding of a character can give.
-/

namespace ThreadedForth.Utf8

open List

theorem lead_ofNat {n : Nat} (hn : n < 256) :
    lead (UInt8.ofNat n) =
      if n < 0x80 then .whole (Char.ofNat n)
      else if n < 0xC2 then .broken
      else if n < 0xE0 then .partly ⟨1, n - 0xC0, 0x80, 0xBF⟩
      else if n = 0xE0 then .partly ⟨2, 0, 0xA0, 0xBF⟩
      else if n = 0xED then .partly ⟨2, 13, 0x80, 0x9F⟩
      else if n < 0xF0 then .partly ⟨2, n - 0xE0, 0x80, 0xBF⟩
      else if n = 0xF0 then .partly ⟨3, 0, 0x90, 0xBF⟩
      else if n < 0xF4 then .partly ⟨3, n - 0xF0, 0x80, 0xBF⟩
      else if n = 0xF4 then .partly ⟨3, 4, 0x80, 0x8F⟩
      else .broken := by
  have hnat : (UInt8.ofNat n).toNat = n := UInt8.toNat_ofNat_of_lt' hn
  simp only [lead, UInt8.lt_iff_toNat_lt, ← UInt8.toNat_inj, hnat, UInt8.reduceToNat]

theorem next_of_lead_partly (done : Array (Option Char)) {byte : UInt8} {pending : Pending}
    (hlead : lead byte = .partly pending) : Reading.next ⟨done, none⟩ byte = ⟨done, some pending⟩ := by
  simp only [Reading.next, Reading.begin, hlead]

theorem next_of_between (done : Array (Option Char)) {missing value least most n : Nat}
    (hn : n < 256) (hleast : least ≤ n) (hmost : n ≤ most) (hbyte : most < 256) :
    Reading.next ⟨done, some ⟨missing, value, UInt8.ofNat least, UInt8.ofNat most⟩⟩ (UInt8.ofNat n) =
      if missing ≤ 1 then ⟨done.push (some (Char.ofNat (64 * value + (n - 0x80)))), none⟩
      else ⟨done, some ⟨missing - 1, 64 * value + (n - 0x80), 0x80, 0xBF⟩⟩ := by
  have hin : UInt8.ofNat least ≤ UInt8.ofNat n ∧ UInt8.ofNat n ≤ UInt8.ofNat most := by
    rw [UInt8.le_iff_toNat_le, UInt8.le_iff_toNat_le, UInt8.toNat_ofNat_of_lt' hn,
      UInt8.toNat_ofNat_of_lt' hbyte, UInt8.toNat_ofNat_of_lt' (Nat.lt_of_le_of_lt hleast hn)]
    exact ⟨hleast, hmost⟩
  simp only [Reading.next, hin, and_self, if_true, UInt8.toNat_ofNat_of_lt' hn]

theorem next_tail (done : Array (Option Char)) (missing value n : Nat) :
    Reading.next ⟨done, some ⟨missing, value, 0x80, 0xBF⟩⟩ (UInt8.ofNat (n % 64 + 0x80)) =
      if missing ≤ 1 then ⟨done.push (some (Char.ofNat (64 * value + n % 64))), none⟩
      else ⟨done, some ⟨missing - 1, 64 * value + n % 64, 0x80, 0xBF⟩⟩ := by
  have hnext := @next_of_between done missing value 0x80 0xBF (n % 64 + 0x80) (by omega) (by omega)
    (by omega) (by omega)
  rwa [Nat.add_sub_cancel] at hnext

variable {v : Nat}

theorem lead_three (hlow : 0x7ff < v) (hhigh : v ≤ 0xffff) (hvalid : v < 0xD800 ∨ 0xDFFF < v) :
    ∃ least most, lead (UInt8.ofNat (v / 4096 % 0x10 + 0xe0)) =
        .partly ⟨2, v / 4096, UInt8.ofNat least, UInt8.ofNat most⟩ ∧
      least ≤ v / 64 % 64 + 0x80 ∧ v / 64 % 64 + 0x80 ≤ most ∧ most < 256 := by
  have hmod : v / 4096 % 16 = v / 4096 := by omega
  rw [hmod, lead_ofNat (by omega), if_neg (by omega), if_neg (by omega), if_neg (by omega)]
  by_cases hzero : v / 4096 = 0
  · exact ⟨0xA0, 0xBF, by rw [if_pos (by omega), hzero]; rfl, by omega, by omega, by omega⟩
  rw [if_neg (by omega)]
  by_cases hsurrogate : v / 4096 = 13
  · exact ⟨0x80, 0x9F, by rw [if_pos (by omega), hsurrogate]; rfl, by omega, by omega, by omega⟩
  rw [if_neg (by omega), if_pos (by omega), Nat.add_sub_cancel]
  exact ⟨0x80, 0xBF, rfl, by omega, by omega, by omega⟩

theorem lead_four (hlow : 0xffff < v) (hhigh : v < 0x110000) :
    ∃ least most, lead (UInt8.ofNat (v / 262144 % 0x08 + 0xf0)) =
        .partly ⟨3, v / 262144, UInt8.ofNat least, UInt8.ofNat most⟩ ∧
      least ≤ v / 4096 % 64 + 0x80 ∧ v / 4096 % 64 + 0x80 ≤ most ∧ most < 256 := by
  have hmod : v / 262144 % 8 = v / 262144 := by omega
  rw [hmod, lead_ofNat (by omega), if_neg (by omega), if_neg (by omega), if_neg (by omega),
    if_neg (by omega), if_neg (by omega), if_neg (by omega)]
  by_cases hzero : v / 262144 = 0
  · exact ⟨0x90, 0xBF, by rw [if_pos (by omega), hzero]; rfl, by omega, by omega, by omega⟩
  rw [if_neg (by omega)]
  by_cases hlast : v / 262144 = 4
  · exact ⟨0x80, 0x8F, by rw [if_neg (by omega), if_pos (by omega), hlast]; rfl, by omega, by omega,
      by omega⟩
  rw [if_pos (by omega), Nat.add_sub_cancel]
  exact ⟨0x80, 0xBF, rfl, by omega, by omega, by omega⟩

/-- The bytes of a character are read as that character. -/
theorem foldl_next_encodeChar (c : Char) (done : Array (Option Char)) :
    (String.utf8EncodeChar c).foldl Reading.next ⟨done, none⟩ = ⟨done.push (some c), none⟩ := by
  have hofNat : Char.ofNat c.val.toNat = c := Char.ofNat_toNat c
  have hvalid : c.val.toNat < 0xD800 ∨ (0xDFFF < c.val.toNat ∧ c.val.toNat < 0x110000) := c.valid
  rw [String.utf8EncodeChar]
  generalize c.val.toNat = v at hofNat hvalid
  by_cases hone : v ≤ 0x7f
  · have hlead : lead (UInt8.ofNat v) = .whole c := by
      rw [lead_ofNat (by omega), if_pos (by omega), hofNat]
    simp only [hone, if_true, foldl_cons, foldl_nil, Reading.next, Reading.begin, hlead]
  rw [if_neg hone]
  by_cases htwo : v ≤ 0x7ff
  · have hlead : lead (UInt8.ofNat (v / 64 % 0x20 + 0xc0)) = .partly ⟨1, v / 64, 0x80, 0xBF⟩ := by
      rw [lead_ofNat (by omega), if_neg (by omega), if_neg (by omega), if_pos (by omega),
        show v / 64 % 0x20 + 0xc0 - 0xC0 = v / 64 by omega]
    rw [if_pos htwo, foldl_cons, next_of_lead_partly done hlead, foldl_cons, next_tail,
      if_pos (by omega), foldl_nil, show 64 * (v / 64) + v % 64 = v by omega, hofNat]
  rw [if_neg htwo]
  by_cases hthree : v ≤ 0xffff
  · obtain ⟨least, most, hlead, hleast, hmost, hbyte⟩ :=
      lead_three (v := v) (by omega) hthree (by omega)
    rw [if_pos hthree, foldl_cons, next_of_lead_partly done hlead, foldl_cons,
      next_of_between done (by omega) hleast hmost hbyte, if_neg (by omega), foldl_cons,
      next_tail, if_pos (by omega), foldl_nil,
      show 64 * (64 * (v / 4096) + (v / 64 % 64 + 128 - 128)) + v % 64 = v by omega, hofNat]
  rw [if_neg hthree]
  obtain ⟨least, most, hlead, hleast, hmost, hbyte⟩ := lead_four (v := v) (by omega) (by omega)
  rw [foldl_cons, next_of_lead_partly done hlead, foldl_cons,
    next_of_between done (by omega) hleast hmost hbyte, if_neg (by omega), foldl_cons,
    next_tail, if_neg (by omega), foldl_cons, next_tail, if_pos (by omega), foldl_nil]
  have hsum : 64 * (64 * (64 * (v / 262144) + (v / 4096 % 64 + 128 - 128)) + v / 64 % 64) +
      v % 64 = v := by omega
  rw [hsum, hofNat]

theorem foldl_next_encodeChars (chars : List Char) (done : Array (Option Char)) :
    (chars.flatMap String.utf8EncodeChar).foldl Reading.next ⟨done, none⟩ =
      ⟨done ++ chars.map some, none⟩ := by
  induction chars generalizing done with
  | nil => simp
  | cons c rest ih =>
    rw [flatMap_cons, foldl_append, foldl_next_encodeChar, ih]
    simp

theorem decode_encode (text : String) : decode (encode text) = text.toList.map some := by
  rw [decode, encode, foldl_next_encodeChars]
  simp [Reading.finish]

theorem decodeLossy_encode (text : String) : decodeLossy (encode text) = text := by
  rw [decodeLossy, decode_encode, map_map]
  have hid : (fun c : Option Char => c.getD (Char.ofNat 0xFFFD)) ∘ some = id := rfl
  rw [hid, map_id, String.ofList_toList]

theorem encode_injective {left right : String} (hencode : encode left = encode right) : left = right := by
  rw [← decodeLossy_encode left, hencode, decodeLossy_encode]

end ThreadedForth.Utf8
