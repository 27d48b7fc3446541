import ThreadedForth.Text.Unseen

/-!
# Quoted text

Text in a report stands between double quotes, so that its bounds and all its characters can be
seen. A quote or a backslash in it gets a backslash, and a character that does not show is written
by its name or its number.
-/

namespace ThreadedForth.Quoted

/-- A character by its number, in hexadecimal between braces. -/
def byNumber (c : Char) : String := "\\u\x7b" ++ String.ofList (Nat.toDigits 16 c.toNat) ++ "\x7d"

def encodeChar (c : Char) : String :=
  if c = '"' then "\\\""
  else if c = '\\' then "\\\\"
  else if c = '\n' then "\\n"
  else if c = '\r' then "\\r"
  else if c = '\t' then "\\t"
  else if c.toNat = 0 then "\\0"
  else if Unseen.isUnseen c then byNumber c
  else String.singleton c

def encode (text : String) : String := "\"" ++ String.join (text.toList.map encodeChar) ++ "\""

end ThreadedForth.Quoted
