import ResourceShards.Text.Hidden

/-!
# ResourceShards.Text.Quoted

**Quoted text.** Messages show a text between double quotes. Quotes and backslashes are escaped,
some controls have a letter, and hidden characters are written by number, so that a quoted text
shows what it holds.
-/

namespace ResourceShards.Text

/-- The digits of a number in base 16, in small letters. -/
def hexDigits (n : Nat) : String :=
  String.ofList (Nat.toDigits 16 n)

/-- How a character is written between quotes. -/
def quoteChar (c : Char) : String :=
  if c == '"' then "\\\""
  else if c == '\\' then "\\\\"
  else if c == '\n' then "\\n"
  else if c == '\r' then "\\r"
  else if c == '\t' then "\\t"
  else if c == '\x00' then "\\0"
  else if isHidden c then "\\u\x7b" ++ hexDigits c.toNat ++ "\x7d"
  else String.singleton c

/-- The text between double quotes. -/
def quote (text : String) : String :=
  "\"" ++ String.join (text.toList.map quoteChar) ++ "\""

end ResourceShards.Text
