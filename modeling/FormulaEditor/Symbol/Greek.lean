/-!
# Greek letters and their names

The table is ordered: the words typed into a formula are looked up in it from the top, so a name
that another one ends in comes after it. Two names share φ.
-/

namespace FormulaEditor.Symbol

/-- Greek letters by name, in the order in which typed words are tried. -/
def greekLetters : List (String × Char) :=
  [("Alpha", 'Α'), ("Beta", 'Β'), ("Chi", 'Χ'), ("Delta", 'Δ'), ("Epsilon", 'Ε'), ("Eta", 'Η'),
    ("Gamma", 'Γ'), ("Iota", 'Ι'), ("Kappa", 'Κ'), ("Lambda", 'Λ'), ("Mu", 'Μ'), ("Nu", 'Ν'),
    ("Omega", 'Ω'), ("Omicron", 'Ο'), ("Phi", 'Φ'), ("Pi", 'Π'), ("Psi", 'Ψ'), ("Rho", 'Ρ'),
    ("Sigma", 'Σ'), ("Tau", 'Τ'), ("Theta", 'Θ'), ("Upsilon", 'Υ'), ("Xi", 'Ξ'), ("Zeta", 'Ζ'),
    ("alpha", 'α'), ("beta", 'β'), ("chi", 'χ'), ("delta", 'δ'), ("epsilon", 'ε'), ("eta", 'η'),
    ("gamma", 'γ'), ("iota", 'ι'), ("kappa", 'κ'), ("lambda", 'λ'), ("mu", 'μ'), ("nu", 'ν'),
    ("omega", 'ω'), ("omicron", 'ο'), ("phi", 'φ'), ("varphi", 'φ'), ("pi", 'π'), ("rho", 'ρ'),
    ("sigma", 'σ'), ("tau", 'τ'), ("theta", 'θ'), ("upsilon", 'υ'), ("xi", 'ξ'), ("zeta", 'ζ'),
    ("psi", 'ψ')]

/-- Spellings that only a control word has. -/
def variantMacros : List (String × Char) :=
  [("varepsilon", 'ε'), ("varsigma", 'ς')]

/-- The letter with a given name. -/
def greekLetter? (name : String) : Option Char :=
  greekLetters.lookup name

/-- The letter that a control word stands for. -/
def greekMacro? (name : String) : Option Char :=
  (greekLetters ++ variantMacros).lookup name

/-- The identifier that generated text uses for a Greek letter: the last of its names. -/
def greekIdentifier? (c : Char) : Option String :=
  (greekLetters.reverse.find? fun entry => entry.2 == c).map Prod.fst

end FormulaEditor.Symbol
