import FormulaEditor.Proofs.Expression.Excess

/-!
# Text with names in it

Generated text mentions accumulators, whose names depend on the compiler: on what names begin with,
where numbers start again, and which number is next. Marked text keeps mentions apart from the
characters around them. What compiling does to text can be done to marked text, whatever the names
are.
-/

namespace FormulaEditor

/-! ## Names -/

/-- The characters of ASCII identifiers. -/
def Text.isNameChar (c : Char) : Bool :=
  c.isAlphanum || c == '_'

/-- An ASCII identifier. -/
def Text.IsIdentifier (s : String) : Prop :=
  s.toList.all isNameChar = true ∧ ∃ c ∈ s.toList.head?, c.isDigit = false

/-- How accumulators are named and numbered: their names begin with a word, their numbers go up to a
largest one and start again, and one of them is the next. -/
structure Numbering where
  word : String
  identifier : Text.IsIdentifier word
  largest : Nat
  next : Nat
  next_le : next ≤ largest

namespace Numbering

/-- The number of the accumulator that comes after `fold` others. -/
def number (ν : Numbering) (fold : Nat) : Nat :=
  (ν.next + fold) % (ν.largest + 1)

/-- The name of the accumulator that comes after `fold` others. -/
def name (ν : Numbering) (fold : Nat) : String :=
  ν.word ++ toString (ν.number fold)

/-- The options with accumulators named in this way. -/
def options (ν : Numbering) (o : ExprOptions) : ExprOptions :=
  { o with accumulatorPrefix := ν.word, counterWrap := ν.largest }

/-- The compiler that names accumulators in this way. -/
def compiler (ν : Numbering) (o : ExprOptions) : Compiler :=
  ⟨ν.options o, ν.next⟩

/-- Accumulators as the standard options name them, before the first. -/
def standard : Numbering :=
  ⟨"sum", ⟨rfl, 's', rfl, rfl⟩, 100000, 0, Nat.zero_le _⟩

variable {ν : Numbering} {fold : Nat} {c : Char}

theorem number_zero : ν.number 0 = ν.next :=
  Nat.mod_eq_of_lt (Nat.lt_succ_of_le ν.next_le)

theorem nextNumber_options (o : ExprOptions) :
    OpenSum.nextNumber (ν.options o) (ν.number fold) = ν.number (fold + 1) := by
  have hlt : ν.number fold < ν.largest + 1 := Nat.mod_lt _ (Nat.succ_pos _)
  have hsucc : ν.number (fold + 1) = (ν.number fold + 1) % (ν.largest + 1) := by
    simp [number, ← Nat.add_assoc]
  rw [hsucc]
  change (if ν.largest < ν.number fold + 1 then 0 else ν.number fold + 1) = _
  by_cases hwrap : ν.largest < ν.number fold + 1
  · have heq : ν.number fold + 1 = ν.largest + 1 := by omega
    rw [if_pos hwrap, heq, Nat.mod_self]
  · rw [if_neg hwrap, Nat.mod_eq_of_lt (by omega)]

/-! ## Characters of names -/

theorem toList_toString (n : Nat) : (toString n).toList ≠ [] ∧
    ∀ c ∈ (toString n).toList, c.isDigit = true := by
  rw [Nat.toString_eq_repr, Nat.toList_repr]
  exact ⟨Nat.toDigits_ne_nil, fun c hc => Nat.isDigit_of_mem_toDigits (by decide) (by decide) hc⟩

theorem isNameChar_of_isDigit (h : c.isDigit = true) : Text.isNameChar c = true := by
  simp [Text.isNameChar, Char.isAlphanum, h]

theorem gluesDigits_of_isNameChar (h : Text.isNameChar c = true) : Text.gluesDigits c = true := by
  rcases (Bool.or_eq_true _ _).mp h with h | h <;> simp [Text.gluesDigits, h]

theorem isNameChar_of_mem (h : c ∈ (ν.name fold).toList) : Text.isNameChar c = true := by
  rw [name, String.toList_append, List.mem_append] at h
  obtain h | h := h
  · exact List.all_eq_true.mp ν.identifier.1 c h
  · exact isNameChar_of_isDigit ((toList_toString _).2 c h)

theorem ne_of_mem {d : Char} (h : c ∈ (ν.name fold).toList) (hd : Text.isNameChar d = false) :
    c ≠ d := by
  rintro rfl
  rw [isNameChar_of_mem h] at hd
  cases hd

theorem parenFree_name : ParenFree (ν.name fold) := fun _ hc =>
  ⟨ne_of_mem hc (by decide), ne_of_mem hc (by decide)⟩

/-- A name begins with a letter or underscore and ends in a digit. -/
theorem exists_cons_name (ν : Numbering) (fold : Nat) : ∃ c cs, (ν.name fold).toList = c :: cs ∧ c.isDigit = false ∧
    ∃ d ∈ cs.getLast?, d.isDigit = true := by
  obtain ⟨c, hc, hdigit⟩ := ν.identifier.2
  obtain ⟨cs, hcs⟩ := List.head?_eq_some_iff.mp hc
  obtain ⟨hne, hdigits⟩ := toList_toString (ν.number fold)
  refine ⟨c, cs ++ (toString (ν.number fold)).toList, by simp [name, hcs], hdigit,
    (toString (ν.number fold)).toList.getLast hne, ?_, hdigits _ (List.getLast_mem hne)⟩
  rw [List.getLast?_append, List.getLast?_eq_some_getLast hne]
  rfl

theorem isWhitespace_of_mem (h : c ∈ (ν.name fold).toList) : Unicode.isWhitespace c = false := by
  refine Bool.eq_false_iff.mpr fun hblank => ?_
  have hnot : Text.isNameChar c = false :=
    Text.of_contains (p := fun c => Text.isNameChar c = false) (by decide +kernel) hblank
  exact absurd (isNameChar_of_mem h) (by simp [hnot])

/-- Behind characters of a name that end in a digit, digits belong to the name. -/
theorem promoteFrom_nameChars {state : Text.NumeralState} {cs rest : List Char}
    (hstate : state = .outside true ∨ state = .inside false)
    (hcs : ∀ c ∈ cs, Text.isNameChar c = true) (hlast : ∃ c ∈ cs.getLast?, c.isDigit = true) :
    Text.promoteFrom state (cs ++ rest) = cs ++ Text.promoteFrom (.inside false) rest := by
  -- Behind any character but a digit a name is gone on with, so no digit in it begins an integer.
  induction cs generalizing state with
  | nil => simp at hlast
  | cons c cs ih =>
    obtain ⟨hc, hcs⟩ := List.forall_mem_cons.mp hcs
    have hnot : state ≠ .inside true := by rintro rfl; simp at hstate
    have hglue : Text.gluesDigits c = true := gluesDigits_of_isNameChar hc
    have hdigit : state.afterDigit = .inside false := by
      obtain rfl | rfl := hstate <;> rfl
    cases cs with
    | nil =>
      have hc : c.isDigit = true := by simpa using hlast
      simp [Text.promoteFrom, hc, hdigit]
    | cons d ds =>
      have hlast : ∃ c ∈ (d :: ds).getLast?, c.isDigit = true := by
        simpa [List.getLast?_cons] using hlast
      rw [List.cons_append, Text.promoteFrom]
      · by_cases hc : c.isDigit = true
        · rw [if_pos hc, hdigit, ih (.inr rfl) hcs hlast]
          rfl
        · rw [if_neg hc, if_neg (by simp [hnot]), hglue, ih (.inl rfl) hcs hlast]
          rfl

/-- A name ends an integer before it, and digits behind it belong to the name. -/
theorem promoteFrom_name (ν : Numbering) (fold : Nat) (state : Text.NumeralState) (rest : List Char) :
    Text.promoteFrom state ((ν.name fold).toList ++ rest) =
      (if state = .inside true then ['.', '0'] else []) ++
        (ν.name fold).toList ++ Text.promoteFrom (.inside false) rest := by
  obtain ⟨c, cs, hcs, hc, hlast⟩ := exists_cons_name ν fold
  have hchars : ∀ d ∈ c :: cs, Text.isNameChar d = true := fun d hd =>
    isNameChar_of_mem (hcs ▸ hd)
  have hdot : (c != '.') = true := bne_iff_ne.mpr (ne_of_mem (hcs ▸ List.mem_cons_self) (by decide))
  have hglue : Text.gluesDigits c = true :=
    gluesDigits_of_isNameChar (hchars c List.mem_cons_self)
  have hrest : Text.promoteFrom (.outside true) (cs ++ rest) =
      cs ++ Text.promoteFrom (.inside false) rest :=
    promoteFrom_nameChars (.inl rfl) (fun d hd => hchars d (List.mem_cons_of_mem _ hd)) hlast
  by_cases hstate : state = .inside true
  · simp [hcs, Text.promoteFrom, hc, hstate, hdot, hglue, hrest]
  · simp [hcs, Text.promoteFrom, hc, hstate, hglue, hrest]

theorem promoteIntegers_name : Text.promoteIntegers (ν.name fold) = ν.name fold := by
  have h := promoteFrom_name ν fold (.outside false) []
  have hnil : Text.promoteFrom (.inside false) [] = [] := rfl
  rw [hnil, List.append_nil, List.append_nil] at h
  apply String.ext
  simpa [Text.promoteIntegers] using h

end Numbering

/-! ## Marked text -/

/-- A character, or a mention of the accumulator that comes after so many others. -/
inductive Piece
  | char (c : Char)
  | name (fold : Nat)
deriving DecidableEq, Repr

/-- Text whose mentions of accumulators are marked. -/
abbrev Marked := List Piece

/-- The characters of a piece, given the names of accumulators. -/
def Piece.chars (ν : Numbering) : Piece → List Char
  | char c => [c]
  | name fold => (ν.name fold).toList

/-- Whether the piece is a blank. -/
def Piece.isBlank : Piece → Bool
  | char c => Unicode.isWhitespace c
  | name _ => false

namespace Marked

/-- The characters of marked text, given the names of accumulators. -/
def chars (ν : Numbering) (text : Marked) : List Char :=
  text.flatMap (Piece.chars ν)

/-- The text, given the names of accumulators. -/
def text (ν : Numbering) (marked : Marked) : String :=
  String.ofList (chars ν marked)

/-- Text that mentions nothing. -/
def ofText (s : String) : Marked :=
  s.toList.map .char

/-- The accumulators that are mentioned are among those given. -/
def Mentions (folds : List Nat) (marked : Marked) : Prop :=
  ∀ fold, .name fold ∈ marked → fold ∈ folds

variable {ν μ : Numbering} {marked more : Marked} {s : String} {folds : List Nat} {p : Piece}

@[simp] theorem chars_nil : chars ν [] = [] := rfl

@[simp] theorem chars_cons : chars ν (p :: marked) = p.chars ν ++ chars ν marked := rfl

@[simp] theorem chars_append : chars ν (marked ++ more) = chars ν marked ++ chars ν more :=
  List.flatMap_append

@[simp] theorem toList_text : (text ν marked).toList = chars ν marked :=
  String.toList_ofList

@[simp] theorem text_nil : text ν [] = "" := rfl

@[simp] theorem text_append : text ν (marked ++ more) = text ν marked ++ text ν more := by
  simp [text, String.ofList_append]

theorem text_cons : text ν (p :: marked) = String.ofList (p.chars ν) ++ text ν marked := by
  simp [text, String.ofList_append]

theorem text_flatten {tokens : List Marked} :
    text ν tokens.flatten = String.join (tokens.map (text ν)) := by
  induction tokens with
  | nil => rfl
  | cons token tokens ih => simp [String.join_cons, ih]

@[simp] theorem text_ofText : text ν (ofText s) = s := by
  have hchars : ∀ cs : List Char, chars ν (cs.map .char) = cs := by
    intro cs
    induction cs with
    | nil => rfl
    | cons c cs ih => simp [Piece.chars, ih]
  rw [text, ofText, hchars, String.ofList_toList]

theorem chars_ne_nil (p : Piece) : p.chars ν ≠ [] := by
  cases p with
  | char c => exact List.cons_ne_nil _ _
  | name fold =>
    obtain ⟨c, cs, h, -⟩ := Numbering.exists_cons_name ν fold
    simp [Piece.chars, h]

theorem isEmpty_text : (text ν marked).isEmpty = marked.isEmpty := by
  cases marked with
  | nil => rfl
  | cons p marked =>
    have hne : text ν (p :: marked) ≠ "" := by
      rw [ne_eq, ← String.toList_eq_nil_iff, toList_text]
      simp [chars_ne_nil]
    simpa using hne

/-- No name is a single sign. -/
theorem text_eq_singleton_iff {c : Char} (hc : Text.isNameChar c = false) :
    text ν marked = String.singleton c ↔ marked = [.char c] := by
  rw [← String.toList_inj, toList_text, String.toList_singleton]
  constructor
  · intro h
    cases marked with
    | nil => cases h
    | cons p marked =>
      cases p with
      | char d =>
        obtain ⟨rfl, hrest⟩ : d = c ∧ chars ν marked = [] := by simpa [Piece.chars] using h
        cases marked with
        | nil => rfl
        | cons p marked =>
          rw [chars_cons] at hrest
          exact absurd (List.append_eq_nil_iff.mp hrest).1 (chars_ne_nil p)
      | name fold =>
        obtain ⟨d, ds, hds, -⟩ := Numbering.exists_cons_name ν fold
        have hd : d = c := by
          simp only [chars_cons, Piece.chars, hds, List.cons_append, List.cons.injEq] at h
          exact h.1
        have hname := Numbering.isNameChar_of_mem (hds ▸ List.mem_cons_self (a := d))
        rw [hd, hc] at hname
        cases hname
  · rintro rfl
    rfl

/-! ## What is mentioned -/

theorem mentions_nil : Mentions folds [] := fun _ h => nomatch h

theorem mentions_cons : Mentions folds (p :: marked) ↔
    (∀ fold, p = .name fold → fold ∈ folds) ∧ Mentions folds marked := by
  simp only [Mentions, List.mem_cons]
  constructor
  · exact fun h => ⟨fun fold hp => h fold (.inl hp.symm), fun fold hm => h fold (.inr hm)⟩
  · rintro ⟨hp, hm⟩ fold (rfl | hmem)
    · exact hp fold rfl
    · exact hm fold hmem

theorem mentions_ofText : Mentions folds (ofText s) := by
  intro fold h
  simp [ofText] at h

theorem Mentions.append (h : Mentions folds marked) (h' : Mentions folds more) :
    Mentions folds (marked ++ more) := fun fold hmem =>
  (List.mem_append.mp hmem).elim (h fold) (h' fold)

theorem Mentions.mono {folds' : List Nat} (h : Mentions folds marked) (hsub : folds ⊆ folds') :
    Mentions folds' marked := fun fold hmem => hsub (h fold hmem)

theorem Mentions.of_subset (h : Mentions folds marked) (hsub : more ⊆ marked) :
    Mentions folds more := fun fold hmem => h fold (hsub hmem)

/-! ## Integers as floats -/

/-- Writes `.0` after bare integers. -/
def promoteFrom : Text.NumeralState → Marked → Marked
  | .inside true, [] => ofText ".0"
  | _, [] => []
  | state, .char c :: marked =>
    if c.isDigit then .char c :: promoteFrom state.afterDigit marked
    else if state = .inside true && c != '.' then
      ofText ".0" ++ .char c :: promoteFrom (.outside (Text.gluesDigits c)) marked
    else .char c :: promoteFrom (.outside (Text.gluesDigits c)) marked
  | state, .name fold :: marked =>
    (if state = .inside true then ofText ".0" else []) ++
      .name fold :: promoteFrom (.inside false) marked

/-- Gives every bare integer a fractional part. -/
def promoteIntegers (marked : Marked) : Marked :=
  promoteFrom (.outside false) marked

theorem chars_promoteFrom (state : Text.NumeralState) :
    chars ν (promoteFrom state marked) = Text.promoteFrom state (chars ν marked) := by
  have hpoint : chars ν (ofText ".0") = ['.', '0'] := rfl
  induction marked generalizing state with
  | nil =>
    by_cases hstate : state = .inside true
    · subst hstate
      rfl
    · have hmarked : promoteFrom state [] = [] := by
        rw [promoteFrom]
        exact hstate
      have hplain : Text.promoteFrom state [] = [] := by
        rw [Text.promoteFrom]
        exact hstate
      rw [hmarked, chars_nil, hplain]
  | cons p marked ih =>
    cases p with
    | char c =>
      simp only [promoteFrom, chars_cons, Piece.chars, List.singleton_append, Text.promoteFrom]
      split
      · simp [Piece.chars, ih]
      · split <;> simp [Piece.chars, hpoint, ih]
    | name fold =>
      rw [chars_cons, Piece.chars, Numbering.promoteFrom_name, promoteFrom]
      split <;> simp [Piece.chars, hpoint, ih]

@[simp] theorem text_promoteIntegers :
    text ν (promoteIntegers marked) = Text.promoteIntegers (text ν marked) := by
  rw [text, promoteIntegers, chars_promoteFrom, Text.promoteIntegers, toList_text]

theorem Mentions.promoteFrom (h : Mentions folds marked) (state : Text.NumeralState) :
    Mentions folds (Marked.promoteFrom state marked) := by
  have hpoint : Mentions folds (ofText ".0") := mentions_ofText
  induction marked generalizing state with
  | nil =>
    by_cases hstate : state = .inside true
    · exact hstate ▸ hpoint
    · rw [Marked.promoteFrom]
      · exact mentions_nil
      · exact hstate
  | cons p marked ih =>
    obtain ⟨hp, hmarked⟩ := mentions_cons.mp h
    cases p with
    | char c =>
      rw [Marked.promoteFrom]
      split
      · exact mentions_cons.mpr ⟨hp, ih hmarked _⟩
      · split
        · exact hpoint.append (mentions_cons.mpr ⟨hp, ih hmarked _⟩)
        · exact mentions_cons.mpr ⟨hp, ih hmarked _⟩
    | name fold =>
      rw [Marked.promoteFrom]
      have hname := mentions_cons.mpr ⟨hp, ih hmarked (.inside false)⟩
      split
      · exact hpoint.append hname
      · exact hname

/-! ## Loop variables -/

/-- The text before its equals sign. -/
def beforeEquals (marked : Marked) : Marked :=
  marked.takeWhile (· != .char '=')

/-- The text without the blanks it begins with. -/
def trimStart (marked : Marked) : Marked :=
  marked.dropWhile Piece.isBlank

/-- The text without the blanks it ends in. -/
def trimEnd (marked : Marked) : Marked :=
  (marked.reverse.dropWhile Piece.isBlank).reverse

/-- The variable that a lower limit assigns. -/
def loopVariable (marked : Marked) : Marked :=
  trimEnd (trimStart (beforeEquals marked))

theorem chars_beforeEquals :
    chars ν (beforeEquals marked) = (chars ν marked).takeWhile (· != '=') := by
  induction marked with
  | nil => rfl
  | cons p marked ih =>
    cases p with
    | char c =>
      by_cases hc : c = '='
      · subst hc
        rfl
      · have hne : (Piece.char c != .char '=') = true := by simpa using hc
        have hne' : (c != '=') = true := by simpa using hc
        simp only [beforeEquals] at ih
        simp [beforeEquals, hne, hne', Piece.chars, ih]
    | name fold =>
      have hne : (Piece.name fold != .char '=') = true := by simp
      have hname : ∀ c ∈ (ν.name fold).toList, (c != '=') = true := fun c hc =>
        bne_iff_ne.mpr (Numbering.ne_of_mem hc (by decide))
      simp only [beforeEquals] at ih
      simp only [beforeEquals, List.takeWhile_cons, hne, if_true, chars_cons, Piece.chars, ih,
        List.takeWhile_append_of_pos hname]

theorem chars_trimStart :
    chars ν (trimStart marked) = (chars ν marked).dropWhile Unicode.isWhitespace := by
  induction marked with
  | nil => rfl
  | cons p marked ih =>
    cases p with
    | char c =>
      cases hc : Unicode.isWhitespace c <;>
        simp_all [trimStart, Piece.isBlank, Piece.chars]
    | name fold =>
      obtain ⟨c, cs, hcs, -⟩ := Numbering.exists_cons_name ν fold
      have hc : Unicode.isWhitespace c = false :=
        Numbering.isWhitespace_of_mem (hcs ▸ List.mem_cons_self)
      simp [trimStart, Piece.isBlank, Piece.chars, hcs, hc]

theorem chars_trimEnd : chars ν (trimEnd marked) = Text.trimEnd (chars ν marked) := by
  induction marked using List.reverseRecOn with
  | nil => rfl
  | append_singleton marked p ih =>
    cases p with
    | char c =>
      cases hc : Unicode.isWhitespace c <;>
        simp_all [trimEnd, Text.trimEnd, Piece.isBlank, Piece.chars]
    | name fold =>
      obtain ⟨c, cs, hcs, -, d, hd, -⟩ := Numbering.exists_cons_name ν fold
      obtain ⟨cs, rfl⟩ := List.getLast?_eq_some_iff.mp hd
      have hmem : d ∈ (ν.name fold).toList := by simp [hcs]
      have hblank := Numbering.isWhitespace_of_mem hmem
      simp [trimEnd, Text.trimEnd, Piece.isBlank, Piece.chars, hcs, hblank]

theorem text_loopVariable :
    text ν (loopVariable marked) = OpenSum.loopVariable (text ν marked) := by
  rw [text, loopVariable, OpenSum.loopVariable, Text.trim, chars_trimEnd, chars_trimStart,
    chars_beforeEquals, toList_text]

theorem Mentions.loopVariable (h : Mentions folds marked) :
    Mentions folds (Marked.loopVariable marked) := by
  refine h.of_subset fun p hp => ?_
  have hend : p ∈ (trimStart (beforeEquals marked)).reverse :=
    (List.dropWhile_sublist _).subset (List.mem_reverse.mp hp)
  have hstart : p ∈ beforeEquals marked :=
    (List.dropWhile_sublist _).subset (List.mem_reverse.mp hend)
  exact (List.takeWhile_sublist _).subset hstart

end Marked

end FormulaEditor
