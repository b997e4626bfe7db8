/-!
# White space

The characters that Unicode calls white space, and texts without them at either end.
-/

namespace Significance.Text

/-- The property `White_Space` of the Unicode standard: twenty-five characters. -/
def isBlank (c : Char) : Bool :=
  let n := c.toNat
  (9 ≤ n && n ≤ 13) || n = 0x20 || n = 0x85 || n = 0xA0 || n = 0x1680 ||
    (0x2000 ≤ n && n ≤ 0x200A) || n = 0x2028 || n = 0x2029 || n = 0x202F || n = 0x205F ||
    n = 0x3000

/-- A text without its leading and trailing white space. -/
def trimChars (text : List Char) : List Char :=
  ((text.dropWhile isBlank).reverse.dropWhile isBlank).reverse

/-- A text without its leading and trailing white space. -/
def trim (text : String) : String :=
  String.ofList (trimChars text.toList)

example : trim "\t two words\u00a0\u3000" = "two words" := by decide +kernel
example : trim "\u200b" = "\u200b" := by decide +kernel

end Significance.Text
