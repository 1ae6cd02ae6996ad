/-!
# Raised and lowered glyphs

Characters that are their own script: a run of them reads as an exponent or a subscript of the plain
characters behind them.
-/

namespace FormulaEditor.Symbol

/-- Raised glyphs and their plain characters. -/
def superscriptGlyphs : List (Char × Char) :=
  [('⁰', '0'), ('¹', '1'), ('²', '2'), ('³', '3'), ('⁴', '4'), ('⁵', '5'), ('⁶', '6'),
    ('⁷', '7'), ('⁸', '8'), ('⁹', '9'), ('ⁱ', 'i'), ('ⁿ', 'n'), ('⁺', '+'), ('⁻', '-'),
    ('⁽', '('), ('⁾', ')')]

/-- Lowered glyphs and their plain characters. -/
def subscriptGlyphs : List (Char × Char) :=
  [('₀', '0'), ('₁', '1'), ('₂', '2'), ('₃', '3'), ('₄', '4'), ('₅', '5'), ('₆', '6'),
    ('₇', '7'), ('₈', '8'), ('₉', '9'), ('ₐ', 'a'), ('ₑ', 'e'), ('ₒ', 'o'), ('ₓ', 'x'),
    ('ₕ', 'h'), ('ₖ', 'k'), ('ₗ', 'l'), ('ₘ', 'm'), ('ₙ', 'n'), ('ₚ', 'p'), ('ₛ', 's'),
    ('ₜ', 't'), ('₊', '+'), ('₋', '-'), ('₍', '('), ('₎', ')')]

/-- The plain character of a raised glyph. -/
def superscript? (c : Char) : Option Char :=
  superscriptGlyphs.lookup c

/-- The plain character of a lowered glyph. -/
def subscript? (c : Char) : Option Char :=
  subscriptGlyphs.lookup c

/-- Raised digits, each at the place of its value. -/
def superscriptDigits : List Char :=
  ['⁰', '¹', '²', '³', '⁴', '⁵', '⁶', '⁷', '⁸', '⁹']

end FormulaEditor.Symbol
