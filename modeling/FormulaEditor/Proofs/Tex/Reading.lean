import FormulaEditor.Proofs.Tex.Offsets
import Mathlib.Data.List.Forall2

/-!
# Reading tokens

Since offsets and fuel do not matter to what is read, reading is a relation between tokens: `Reads`
says that tokens are read as a list up to an ending, with some fuel. Formula text is read as its
tokens are.
-/

namespace FormulaEditor.Tex

/-- Tokens as lexemes, with their offsets blank. -/
def bare (ts : List Token) : List Lexeme :=
  ts.map fun t => ⟨t, 0⟩

@[simp] theorem bare_nil : bare [] = [] := rfl

@[simp] theorem bare_cons (t : Token) (ts : List Token) : bare (t :: ts) = ⟨t, 0⟩ :: bare ts := rfl

@[simp] theorem map_token_bare (ts : List Token) : (bare ts).map Lexeme.token = ts := by
  simp [bare, Function.comp_def]

theorem bare_injective {ts ts' : List Token} (h : bare ts = bare ts') : ts = ts' := by
  have := congrArg (List.map Lexeme.token) h
  simpa using this

/-- Lists are read with as much fuel as it takes. -/
def reading : ListReading := fun ending lexemes ns rest =>
  ∃ fuel, readListWith 0 fuel ending 0 lexemes = .ok (ns, rest)

/-- Tokens are read as a list up to an ending, some brackets being open already. -/
def Reads (ending : Ending) (openBrackets : Nat) (ts : List Token) (ns : List Node)
    (rest : List Token) : Prop :=
  ∃ fuel, readListWith 0 fuel ending openBrackets (bare ts) = .ok (ns, bare rest)

variable {ending : Ending} {openBrackets : Nat} {ts rest : List Token} {ns : List Node}
  {lexemes m : List Lexeme}

/-- The same lexeme, with its offset blank. -/
def SameBare (a b : Lexeme) : Prop :=
  a = b ∧ a.offset = 0

theorem SameBare.token {a b : Lexeme} (h : SameBare a b) : a.token = b.token :=
  congrArg Lexeme.token h.1

theorem sameBare_bare (ts : List Token) : List.Forall₂ SameBare (bare ts) (bare ts) := by
  induction ts with
  | nil => exact .nil
  | cons t ts ih => exact .cons ⟨rfl, rfl⟩ ih

theorem eq_bare_of_sameBare (h : List.Forall₂ SameBare lexemes m) :
    lexemes = bare (lexemes.map Lexeme.token) ∧ m = lexemes := by
  induction h with
  | nil => exact ⟨rfl, rfl⟩
  | @cons a b _ _ hab _ ih =>
    obtain ⟨rfl, ho⟩ := hab
    obtain ⟨token, o⟩ := a
    obtain rfl : o = 0 := ho
    exact ⟨congrArg (_ :: ·) ih.1, congrArg (_ :: ·) ih.2⟩

theorem carries_reading (fuel size : Nat) :
    Carries SameBare (listsInside 0 fuel).reading reading size := by
  intro ending lexemes ns rest lexemes' _ h hl
  obtain ⟨rest', hr, hleaves⟩ :=
    readListWith_carries SameBare.token 0 h (Nat.lt_succ_self _) hl
  exact ⟨rest', ⟨_, hr⟩, hleaves⟩

theorem reading_carries (fuel : Nat) :
    Carries SameBare reading (listsInside 0 fuel).reading fuel := by
  intro ending lexemes ns rest lexemes' hlt ⟨_, h⟩ hl
  exact readListWith_carries SameBare.token 0 h hlt hl

/-- What reading leaves of bare tokens is bare. -/
theorem eq_bare_of_reading (h : reading ending (bare ts) ns m) : ∃ rest, m = bare rest := by
  obtain ⟨fuel, h⟩ := h
  obtain ⟨rest', -, hleaves⟩ :=
    readListWith_carries SameBare.token 0 h (Nat.lt_succ_self _) (sameBare_bare ts)
  exact ⟨_, (eq_bare_of_sameBare hleaves.1).1⟩

/-- Tokens are read item by item until the list closes. -/
theorem reads_iff : Reads ending openBrackets ts ns rest ↔
    ending.close? openBrackets (bare ts) = some (bare rest) ∧ ns = [] ∨
    ending.close? openBrackets (bare ts) = none ∧ ∃ first middle more,
      ItemBy reading 0 (bare ts) first (bare middle) ∧
      Reads ending (bracketsAfter openBrackets (bare ts)) middle more rest ∧
      ns = first ++ more := by
  constructor
  · rintro ⟨_ | fuel, h⟩
    · cases h
    · obtain hclose | ⟨hc, first, middle, more, hi, hm, rfl⟩ := (readListWith_iff 0).mp h
      · exact .inl hclose
      · obtain ⟨middle', hi', hleaves⟩ := hi.carries SameBare.token 0
          (carries_reading fuel _) (Nat.le_refl _) (sameBare_bare ts)
        obtain ⟨hbare, rfl⟩ := eq_bare_of_sameBare hleaves.1
        rw [hbare] at hi' hm
        exact .inr ⟨hc, first, _, more, hi', ⟨fuel, hm⟩, rfl⟩
  · rintro (hclose | ⟨hc, first, middle, more, hi, ⟨fuel, hm⟩, rfl⟩)
    · exact ⟨1, (readListWith_iff 0).mpr (.inl hclose)⟩
    · have hlen : (bare ts).length = ts.length := by simp [bare]
      obtain ⟨middle', hi', hleaves⟩ := hi.carries SameBare.token 0
        (reading_carries ts.length) (Nat.le_of_eq hlen) (sameBare_bare ts)
      obtain ⟨-, rfl⟩ := eq_bare_of_sameBare hleaves.1
      have hpos : (bare ts).length ≠ 0 := fun hnil => by
        rw [List.eq_nil_of_length_eq_zero hnil] at hi
        cases hi
      have hlt : (bare middle).length < ts.length := by
        have := hleaves.2
        omega
      obtain ⟨rest', hr, hleaves'⟩ :=
        readListWith_carries SameBare.token 0 hm hlt (sameBare_bare middle)
      obtain ⟨-, rfl⟩ := eq_bare_of_sameBare hleaves'.1
      exact ⟨ts.length + 1, (readListWith_iff 0).mpr
        (.inr ⟨hc, first, bare middle, more, hi', hr, rfl⟩)⟩

/-- A list up to the end of the text leaves nothing. -/
theorem eq_nil_of_readListWith {finish fuel : Nat} {after : List Lexeme}
    (h : readListWith finish fuel .input openBrackets lexemes = .ok (ns, after)) : after = [] := by
  induction fuel generalizing openBrackets lexemes ns with
  | zero => cases h
  | succ fuel ih =>
    obtain ⟨hc, -⟩ | ⟨-, _, _, _, -, hm, -⟩ := (readListWith_iff finish).mp h
    · cases lexemes <;> simp_all [Ending.close?]
    · exact ih hm

/-- Formula text is read as its tokens are. -/
theorem read_iff {text : String} :
    read text = .ok ns ↔ Reads .input 0 ((lex text).items.map Lexeme.token) ns [] := by
  have hmatch : ∀ lexemes : List Lexeme,
      List.Forall₂ (fun a b => a.token = b.token) lexemes (bare (lexemes.map Lexeme.token)) := by
    intro lexemes
    induction lexemes with
    | nil => exact .nil
    | cons l lexemes ih => exact .cons rfl ih
  constructor
  · intro h
    obtain ⟨⟨ns', rest⟩, hr, h⟩ := bind_eq_ok.mp h
    cases h
    obtain rfl := eq_nil_of_readListWith hr
    obtain ⟨rest', hr', -⟩ := readListWith_carries (fun h => h) 0 hr
      (Nat.lt_succ_self _) (hmatch _)
    obtain rfl := eq_nil_of_readListWith hr'
    exact ⟨_, hr'⟩
  · rintro ⟨fuel, h⟩
    have hl := (hmatch (lex text).items).flip
    obtain ⟨rest', hr, -⟩ := readListWith_carries
      (S := flip fun a b => a.token = b.token) (fun h => h.symm) (lex text).finish h
      (show _ < (lex text).items.length + 1 by simp [bare]) hl
    exact bind_eq_ok.mpr ⟨_, hr, rfl⟩

end FormulaEditor.Tex
