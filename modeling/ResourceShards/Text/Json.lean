import ResourceShards.Text.Quoted

/-!
# ResourceShards.Text.Json

**Writing JSON.** Values are written over several lines, two blanks deeper in every list and object.
In strings only quotes, backslashes and controls are escaped.
-/

namespace ResourceShards

/-- What is written. -/
inductive Json where
  /-- A string. -/
  | string (content : String)
  /-- A list. -/
  | list (items : List Json)
  /-- An object: its members in order. -/
  | object (members : List (String × Json))

namespace Json

/-- A control by its number, in four digits. -/
def controlNumber (c : Char) : String :=
  let digits := Text.hexDigits c.toNat
  "\\u" ++ String.ofList (List.replicate (4 - digits.length) '0') ++ digits

/-- How a character is written between quotes. -/
def escapeChar (c : Char) : String :=
  if c == '"' then "\\\""
  else if c == '\\' then "\\\\"
  else if c == '\n' then "\\n"
  else if c == '\r' then "\\r"
  else if c == '\t' then "\\t"
  else if c == '\x08' then "\\b"
  else if c == '\x0c' then "\\f"
  else if c.val < 0x20 then controlNumber c
  else String.singleton c

/-- A string as it is written. -/
def quote (content : String) : String :=
  "\"" ++ String.join (content.toList.map escapeChar) ++ "\""

/-- The beginning of a line. -/
def line (depth : Nat) : String :=
  "\n" ++ String.ofList (List.replicate (2 * depth) ' ')

/-- Parts between brackets, each on a line of its own; without parts the brackets meet. -/
def bracketed (left right : String) (depth : Nat) (parts : List String) : String :=
  if parts.isEmpty then left ++ right
  else left ++ String.intercalate "," (parts.map (line (depth + 1) ++ ·)) ++ line depth ++ right

mutual

/-- A value as it is written at some depth. -/
def render (depth : Nat) : Json → String
  | string content => quote content
  | list items => bracketed "[" "]" depth (renderItems (depth + 1) items)
  | object members => bracketed "\x7b" "\x7d" depth (renderMembers (depth + 1) members)

/-- The items of a list as they are written. -/
def renderItems (depth : Nat) : List Json → List String
  | [] => []
  | item :: rest => render depth item :: renderItems depth rest

/-- The members of an object as they are written. -/
def renderMembers (depth : Nat) : List (String × Json) → List String
  | [] => []
  | (key, value) :: rest => (quote key ++ ": " ++ render depth value) :: renderMembers depth rest

end

end Json

end ResourceShards
