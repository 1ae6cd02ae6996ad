import FormulaEditor.Unicode.Alphabetic
import FormulaEditor.Unicode.DecimalDigit
import FormulaEditor.Unicode.GraphemeExtend
import FormulaEditor.Unicode.Invisible
import FormulaEditor.Unicode.Mark
import FormulaEditor.Unicode.Numeral
import FormulaEditor.Unicode.Recent

/-!
# Character classes

The classes that formula text, identifiers and quoted text are made of. Each is decided on the ASCII
block by core's test and above it by the property tables.
-/

namespace FormulaEditor.Unicode

/-- The property White_Space: the characters that formula text ignores. -/
def whitespace : CodeRanges :=
  [(0x9, 0xd), (0x20, 0x20), (0x85, 0x85), (0xa0, 0xa0), (0x1680, 0x1680), (0x2000, 0x200a),
    (0x2028, 0x2029), (0x202f, 0x202f), (0x205f, 0x205f), (0x3000, 0x3000)]

/-- Connector punctuation, general category Pc. -/
def connector : CodeRanges :=
  [(0x5f, 0x5f), (0x203f, 0x2040), (0x2054, 0x2054), (0xfe33, 0xfe34), (0xfe4d, 0xfe4f),
    (0xff3f, 0xff3f)]

/-- The two joiners, property Join_Control. -/
def joinControl : CodeRanges :=
  [(0x200c, 0x200d)]

/-- The Hangul fillers, letters that are drawn as nothing: property Default_Ignorable_Code_Point. -/
def hangulFiller : CodeRanges :=
  [(0x115f, 0x1160), (0x3164, 0x3164), (0xffa0, 0xffa0)]

/-- The halfwidth voiced sound marks, letters with Grapheme_Extend that take a cell of their own. -/
def halfwidthSoundMark : CodeRanges :=
  [(0xff9e, 0xff9f)]

/-- Blank characters separate tokens and never become one. -/
def isWhitespace (c : Char) : Bool :=
  whitespace.contains c

/-- Letters and numbers of any script. -/
def isAlphanumeric (c : Char) : Bool :=
  if c.toNat < 128 then c.isAlphanum
  else alphabetic.contains c || decimalDigit.contains c || numeral.contains c

/-- The characters an identifier may go on with: word characters, as far as Unicode 16.0 knows
them. -/
def isWordChar (c : Char) : Bool :=
  if c.toNat < 128 then c.isAlphanum || c == '_'
  else !recent.contains c && (alphabetic.contains c || mark.contains c ||
    decimalDigit.contains c || connector.contains c || joinControl.contains c)

/-- Characters that merge with the one before them when drawn. -/
def isCombining (c : Char) : Bool :=
  graphemeExtend.contains c && !halfwidthSoundMark.contains c

/-- Characters that quoted text shows as they are: with a glyph of their own, and not one that
merges with the character before it. -/
def isPrintable (c : Char) : Bool :=
  if c.toNat < 128 then 0x20 ≤ c.toNat && c.toNat ≤ 0x7e
  else !isCombining c && !invisible.contains c && !hangulFiller.contains c

end FormulaEditor.Unicode
