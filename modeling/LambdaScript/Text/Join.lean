/-! # Joined text

Lists written with a mark between neighbours, and names in two spellings.
-/

namespace LambdaScript.Text

/-- The texts one after the other, with a mark between neighbours. -/
def joinWith (mark : String) : List String → String
  | [] => ""
  | [s] => s
  | s :: t :: rest => s ++ mark ++ joinWith mark (t :: rest)

def commas (texts : List String) : String := joinWith "," texts

/-- Drops underscores and makes the letter after each of them, and the first one, upper case. -/
def titleChars : Bool → List Char → List Char
  | _, [] => []
  | upper, c :: cs =>
    if c = '_' then titleChars true cs
    else (if upper then c.toUpper else c) :: titleChars false cs

/-- A name in words joined by underscores, as one word with capitals: `and_also` is `AndAlso`. -/
def title (name : String) : String := String.ofList (titleChars true name.toList)

end LambdaScript.Text
