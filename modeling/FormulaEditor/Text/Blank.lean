import FormulaEditor.Unicode.Class

/-!
# Blanks at the ends and inside of text
-/

namespace FormulaEditor.Text

open Unicode (isWhitespace)

/-- Text without the blanks it ends in. -/
def trimEnd (cs : List Char) : List Char :=
  (cs.reverse.dropWhile isWhitespace).reverse

/-- Text without the blanks at either end. -/
def trim (cs : List Char) : List Char :=
  trimEnd (cs.dropWhile isWhitespace)

/-- Writes the rest of a text with one space for every run of blanks between words. `gap` is the
separator owed before the next word: nothing before the first one. -/
def joinWords (gap : List Char) (inGap : Bool) : List Char → List Char
  | [] => []
  | c :: cs =>
    if isWhitespace c then joinWords gap true cs
    else (if inGap then gap else []) ++ c :: joinWords [' '] false cs

/-- The words of a text with a single space between any two. -/
def collapseBlanks (s : String) : String :=
  String.ofList (joinWords [] false s.toList)

end FormulaEditor.Text
