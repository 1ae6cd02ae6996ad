/-!
# Mathematical italics

Letters of a formula are kept in their mathematical italic form. Latin letters and the lower-case
Greek letters from α to ς have one; italic h is the Planck constant `ℎ`, which fills the hole in the
italic alphabet. Everything that leaves a formula as text is put back into plain letters.
-/

namespace FormulaEditor.Text

/-- First code point of the italic small Latin letters. -/
def italicSmall : Nat := 0x1d44e

/-- First code point of the italic capital Latin letters. -/
def italicCapital : Nat := 0x1d434

/-- First code point of the italic small Greek letters. -/
def italicGreek : Nat := 0x1d6fc

/-- Code point of α. -/
def plainGreek : Nat := 0x3b1

/-- How many Greek letters, from α on, have an italic form here. -/
def greekSpan : Nat := 18

/-- The italic form of a letter; any other character is its own. -/
def italic (c : Char) : Char :=
  if c = 'h' then 'ℎ'
  else if c.isLower then Char.ofNat (c.toNat - 'a'.toNat + italicSmall)
  else if c.isUpper then Char.ofNat (c.toNat - 'A'.toNat + italicCapital)
  else if plainGreek ≤ c.toNat && c.toNat < plainGreek + greekSpan then
    Char.ofNat (c.toNat - plainGreek + italicGreek)
  else c

/-- The plain form of an italic letter; any other character is its own. -/
def plain (c : Char) : Char :=
  if c = 'ℎ' then 'h'
  else if italicSmall ≤ c.toNat && c.toNat < italicSmall + 26 then
    Char.ofNat (c.toNat - italicSmall + 'a'.toNat)
  else if italicCapital ≤ c.toNat && c.toNat < italicCapital + 26 then
    Char.ofNat (c.toNat - italicCapital + 'A'.toNat)
  else if italicGreek ≤ c.toNat && c.toNat < italicGreek + greekSpan then
    Char.ofNat (c.toNat - italicGreek + plainGreek)
  else c

/-- Every letter of a text in italics. -/
def italicize (s : String) : String :=
  String.ofList (s.toList.map italic)

/-- Every letter of a text out of italics. -/
def unitalicize (s : String) : String :=
  String.ofList (s.toList.map plain)

end FormulaEditor.Text
