import Significance.Text.Blank

/-!
# Texts without parenthesised parts
-/

namespace Significance.Text

/-- A text without what stands from an opening parenthesis to the next closing one. An opening
parenthesis that none closes stays. `inside` tells whether such a part has begun. -/
def dropParenthesized (inside : Bool) : List Char → List Char
  | [] => []
  | c :: rest =>
    if inside then dropParenthesized (c != ')') rest
    else if c == '(' && rest.contains ')' then dropParenthesized true rest
    else c :: dropParenthesized false rest

/-- A label without its parenthesised parts and without white space around the rest. -/
def withoutParentheses (label : String) : String :=
  String.ofList (trimChars (dropParenthesized false label.toList))

example : withoutParentheses "GA (pop=50)" = "GA" := by decide +kernel
example : withoutParentheses "HEFT(a)(b) v2" = "HEFT v2" := by decide +kernel
example : withoutParentheses "open (paren" = "open (paren" := by decide +kernel

end Significance.Text
