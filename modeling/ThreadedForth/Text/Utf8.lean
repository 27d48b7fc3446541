/-!
# Text from bytes

Bytes are read as UTF-8 one at a time. A byte either starts a character, continues the one that was
started, or breaks it. A broken character is the longest run of bytes that could still have become
one; it is reported as a single `none`, and the byte that broke it is looked at afresh. Lossy
reading puts the replacement character in its place, strict reading refuses the text.
-/

namespace ThreadedForth.Utf8

/-- A character that was started: how many bytes it still needs, the value of those read so far, and
the range its next byte must lie in. Only the second byte of a character has a narrower range than
`0x80` to `0xBF`: that is what rules out overlong forms, surrogates and values above the last
character. -/
structure Pending where
  missing : Nat
  value : Nat
  least : UInt8
  most : UInt8
  deriving DecidableEq, Repr

/-- What a byte that starts a character begins. -/
inductive Lead where
  | whole (c : Char)
  | partly (pending : Pending)
  | broken
  deriving DecidableEq, Repr

def lead (byte : UInt8) : Lead :=
  if byte < 0x80 then .whole (Char.ofNat byte.toNat)
  else if byte < 0xC2 then .broken
  else if byte < 0xE0 then .partly ⟨1, byte.toNat - 0xC0, 0x80, 0xBF⟩
  else if byte = 0xE0 then .partly ⟨2, 0, 0xA0, 0xBF⟩
  else if byte = 0xED then .partly ⟨2, 13, 0x80, 0x9F⟩
  else if byte < 0xF0 then .partly ⟨2, byte.toNat - 0xE0, 0x80, 0xBF⟩
  else if byte = 0xF0 then .partly ⟨3, 0, 0x90, 0xBF⟩
  else if byte < 0xF4 then .partly ⟨3, byte.toNat - 0xF0, 0x80, 0xBF⟩
  else if byte = 0xF4 then .partly ⟨3, 4, 0x80, 0x8F⟩
  else .broken

/-- What has been read so far: the characters, with `none` for each broken one, and the character
under way, if there is one. -/
structure Reading where
  done : Array (Option Char)
  pending : Option Pending

namespace Reading

def begin (reading : Reading) (byte : UInt8) : Reading :=
  match lead byte with
  | .whole c => ⟨reading.done.push (some c), none⟩
  | .partly pending => ⟨reading.done, some pending⟩
  | .broken => ⟨reading.done.push none, none⟩

def next (reading : Reading) (byte : UInt8) : Reading :=
  match reading.pending with
  | none => reading.begin byte
  | some pending =>
    if pending.least ≤ byte ∧ byte ≤ pending.most then
      let value := 64 * pending.value + (byte.toNat - 0x80)
      if pending.missing ≤ 1 then ⟨reading.done.push (some (Char.ofNat value)), none⟩
      else ⟨reading.done, some ⟨pending.missing - 1, value, 0x80, 0xBF⟩⟩
    else Reading.begin ⟨reading.done.push none, none⟩ byte

/-- All that was read. A character still under way at the end is broken. -/
def finish (reading : Reading) : Array (Option Char) :=
  if reading.pending.isSome then reading.done.push none else reading.done

end Reading

/-- The characters of `bytes`, with `none` for each broken one. -/
def decode (bytes : List UInt8) : List (Option Char) :=
  (bytes.foldl Reading.next ⟨#[], none⟩).finish.toList

/-- The text of `bytes`, each broken character replaced by U+FFFD. -/
def decodeLossy (bytes : List UInt8) : String :=
  String.ofList ((decode bytes).map (·.getD (Char.ofNat 0xFFFD)))

def decode? (bytes : List UInt8) : Option String :=
  ((decode bytes).mapM id).map String.ofList

def encode (text : String) : List UInt8 := text.toList.flatMap String.utf8EncodeChar

end ThreadedForth.Utf8
