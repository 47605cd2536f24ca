/-!
# ResourceShards.Text.Blank

**Blank characters.** The characters with the Unicode property `White_Space`, as they are cut from
the front of a text.
-/

namespace ResourceShards.Text

/-- Characters with the property `White_Space`. -/
def isBlank (c : Char) : Bool :=
  (0x09 ≤ c.val && c.val ≤ 0x0d) || c.val == 0x20 || c.val == 0x85 || c.val == 0xa0 ||
    c.val == 0x1680 || (0x2000 ≤ c.val && c.val ≤ 0x200a) || c.val == 0x2028 ||
    c.val == 0x2029 || c.val == 0x202f || c.val == 0x205f || c.val == 0x3000

/-- `text` without the blanks at its front. -/
def trimStart (text : String) : String :=
  String.ofList (text.toList.dropWhile isBlank)

end ResourceShards.Text
