import FormulaEditor.Proofs.Decimal.Plain
import FormulaEditor.Row.Basic
import Mathlib.Data.List.DropRight

/-!
# The shape of a row

An expression on one line is told apart by its first equals sign: what is in front of it, spaces at
the end aside, names an axis, a slider or a variable. The shapes are tried one after the other, and
yet each expression has exactly one of them.
-/

namespace FormulaEditor.Row

open Decimal (IsDigits)

variable {cs name other rest : List Char} {c : Char} {e : Expression} {row : Row}

/-! ## Names -/

/-- An identifier: a letter or an underscore, and word characters behind it. -/
def IsName (name : List Char) : Prop :=
  ∃ c cs, name = c :: cs ∧ (c.isAlpha || c == '_') = true ∧ ∀ d ∈ cs, Unicode.isWordChar d = true

/-- No sign and no blank is part of an identifier. -/
theorem IsName.ne (h : IsName name) : ∀ c ∈ name, c ≠ '=' ∧ c ≠ ' ' ∧ c ≠ '\n' := by
  obtain ⟨first, cs, rfl, hfirst, hcs⟩ := h
  intro c hc
  rcases List.mem_cons.mp hc with rfl | hc
  · refine ⟨?_, ?_, ?_⟩ <;> (rintro rfl; revert hfirst; decide)
  · have hword := hcs c hc
    refine ⟨?_, ?_, ?_⟩ <;> (rintro rfl; revert hword; decide +kernel)

theorem IsName.isDigit_head (h : IsName name) : ∀ c ∈ name.head?, c.isDigit = false := by
  obtain ⟨first, cs, rfl, hfirst, -⟩ := h
  rintro c ⟨⟩
  by_contra hdigit
  have hnone : (first.isAlpha || first == '_') = false :=
    Text.of_isDigit (p := fun c => (c.isAlpha || c == '_') = false) (by decide)
      (by simpa using hdigit)
  rw [hnone] at hfirst
  cases hfirst

theorem isName_of_identifier? (h : identifier? cs = some name) : IsName name := by
  cases cs with
  | nil => cases h
  | cons c cs =>
    rw [identifier?] at h
    split at h
    · rename_i hc
      cases h
      exact ⟨c, _, rfl, hc, fun d hd => List.mem_takeWhile_imp hd⟩
    · cases h

theorem isName_axis (axis : Axis) : IsName axis.name.toList := by
  cases axis
  · exact ⟨'y', [], rfl, rfl, by simp⟩
  · exact ⟨'x', [], rfl, rfl, by simp⟩
  · exact ⟨'r', [], rfl, rfl, by simp⟩
  · exact ⟨'t', ['h', 'e', 't', 'a'], rfl, rfl, by decide⟩

/-! ## Numerals -/

/-- Digits, maybe with a point in front of them, and more digits before it. -/
inductive IsMagnitude : List Char → Prop
  | whole {ds : List Char} (h : IsDigits ds) : IsMagnitude ds
  | point {ds places : List Char} (h : ∀ c ∈ ds, c.isDigit = true) (hp : IsDigits places) :
    IsMagnitude (ds ++ '.' :: places)

/-- A magnitude, maybe behind a sign. -/
inductive IsNumeral : List Char → Prop
  | unsigned {cs : List Char} (h : IsMagnitude cs) : IsNumeral cs
  | signed {sign : Char} {cs : List Char} (hs : sign = '+' ∨ sign = '-') (h : IsMagnitude cs) :
    IsNumeral (sign :: cs)

theorem isMagnitude_iff :
    (match cs.dropWhile Char.isDigit with
      | [] => !cs.isEmpty
      | '.' :: fraction => !fraction.isEmpty && fraction.all Char.isDigit
      | _ => false) = true ↔ IsMagnitude cs := by
  constructor
  · have hsplit : cs = cs.takeWhile Char.isDigit ++ cs.dropWhile Char.isDigit := by simp
    have hdigits : ∀ c ∈ cs.takeWhile Char.isDigit, c.isDigit = true :=
      fun c hc => List.mem_takeWhile_imp hc
    intro h
    split at h
    · rename_i hrest
      rw [hrest, List.append_nil] at hsplit
      exact .whole ⟨by simpa using h, hsplit ▸ hdigits⟩
    · rename_i fraction hrest
      rw [hrest] at hsplit
      rw [hsplit]
      exact .point hdigits (by simpa [IsDigits] using h)
    · cases h
  · intro h
    cases h with
    | whole h =>
      rw [Decimal.dropWhile_isDigit h.2]
      simpa using h.1
    | @point ds places h hp =>
      have hrest : (ds ++ '.' :: places).dropWhile Char.isDigit = '.' :: places := by
        rw [List.dropWhile_append_of_pos h]
        simp
      rw [hrest]
      simpa [IsDigits] using hp

theorem IsMagnitude.takeSign_eq (h : IsMagnitude cs) : Decimal.takeSign cs = (false, cs) := by
  have hhead : ∀ c ∈ cs.head?, c.isDigit = true ∨ c = '.' := by
    cases h with
    | whole h => exact fun c hc => .inl (h.2 c (List.mem_of_mem_head? hc))
    | @point ds places h hp =>
      intro c hc
      cases ds with
      | nil => exact .inr (by simpa using hc.symm)
      | cons d ds =>
        obtain rfl : d = c := by simpa using hc
        exact .inl (h d (by simp))
  unfold Decimal.takeSign
  split
  · simpa using hhead '-' rfl
  · simpa using hhead '+' rfl
  · rfl

theorem takeSign_eq_or (cs : List Char) : cs = (Decimal.takeSign cs).2 ∨
    ∃ sign, (sign = '+' ∨ sign = '-') ∧ cs = sign :: (Decimal.takeSign cs).2 := by
  unfold Decimal.takeSign
  split
  · exact .inr ⟨'-', .inr rfl, rfl⟩
  · exact .inr ⟨'+', .inl rfl, rfl⟩
  · exact .inl rfl

theorem isNumeral_iff : IsNumeral cs ↔ IsMagnitude (Decimal.takeSign cs).2 := by
  constructor
  · intro h
    cases h with
    | unsigned h =>
      rw [h.takeSign_eq]
      exact h
    | signed hs h => obtain rfl | rfl := hs <;> exact h
  · intro h
    obtain hcs | ⟨sign, hs, hcs⟩ := takeSign_eq_or cs
    · rw [hcs]
      exact .unsigned h
    · rw [hcs]
      exact .signed hs h

theorem isNumber_iff : isNumber cs = true ↔ IsNumeral cs := by
  rw [isNumeral_iff]
  exact isMagnitude_iff

theorem IsMagnitude.exists_readMagnitude? (h : IsMagnitude cs) :
    ∃ x, Decimal.readMagnitude? cs = some x := by
  cases h with
  | whole h => exact ⟨_, Decimal.readMagnitude?_whole h⟩
  | point h hp => exact ⟨_, Decimal.readMagnitude?_point h hp⟩

theorem IsNumeral.newline_not_mem (h : IsNumeral cs) : '\n' ∉ cs := by
  have hdigits : ∀ {ds : List Char}, (∀ c ∈ ds, c.isDigit = true) → '\n' ∉ ds := fun h hmem => by
    simpa using h _ hmem
  have hmagnitude : ∀ {cs}, IsMagnitude cs → '\n' ∉ cs := by
    intro cs h
    cases h with
    | whole h => exact hdigits h.2
    | point h hp => simp [hdigits h, hdigits hp.2]
  cases h with
  | unsigned h => exact hmagnitude h
  | signed hs h => obtain rfl | rfl := hs <;> simp [hmagnitude h]

/-- Every numeral names a float. -/
theorem IsNumeral.exists_read? (h : IsNumeral cs) :
    ∃ x, Decimal.read? (String.ofList cs) = some x := by
  obtain ⟨x, hx⟩ := (isNumeral_iff.mp h).exists_readMagnitude?
  rw [← Option.isSome_iff_exists, Decimal.read?, String.toList_ofList, Option.isSome_map]
  split
  · rfl
  · split
    · rfl
    · rw [hx]
      rfl

/-! ## Assignments -/

/-- The text has a first equals sign: `name` in front of it, spaces at the end aside, and `rest`
behind it. -/
structure Assigns (cs name rest : List Char) : Prop where
  split : ∃ spaces, cs = name ++ List.replicate spaces ' ' ++ '=' :: rest
  sign_not_mem : '=' ∉ name
  getLast?_ne : name.getLast? ≠ some ' '

theorem dropWhile_space (k : Nat) (h : cs.head? ≠ some ' ') :
    (List.replicate k ' ' ++ cs).dropWhile (· == ' ') = cs := by
  rw [List.dropWhile_append_of_pos (by simp +contextual [List.mem_replicate])]
  cases cs with
  | nil => rfl
  | cons c cs =>
    have hc : c ≠ ' ' := by simpa using h
    simp [hc]

/-- Spaces at the end come apart in one way. -/
theorem eq_of_append_spaces {k l : Nat} (hn : name.getLast? ≠ some ' ')
    (ho : other.getLast? ≠ some ' ')
    (h : name ++ List.replicate k ' ' = other ++ List.replicate l ' ') : name = other := by
  have hreverse := congrArg (fun l => l.reverse.dropWhile (· == ' ')) h
  simp only [List.reverse_append, List.reverse_replicate] at hreverse
  rw [dropWhile_space k (by simpa using hn), dropWhile_space l (by simpa using ho)] at hreverse
  exact List.reverse_injective hreverse

theorem exists_assigns (h : '=' ∈ cs) : ∃ name rest, Assigns cs name rest := by
  obtain ⟨front, rest, rfl, hfront⟩ := List.eq_append_cons_of_mem h
  have hsplit : front.rdropWhile (· == ' ') ++ front.rtakeWhile (· == ' ') = front :=
    List.rdropWhile_append_rtakeWhile
  have hspaces : front.rtakeWhile (· == ' ') =
      List.replicate (front.rtakeWhile (· == ' ')).length ' ' :=
    List.eq_replicate_iff.mpr ⟨rfl, fun c hc => by simpa using List.mem_rtakeWhile_imp hc⟩
  refine ⟨front.rdropWhile (· == ' '), rest, ⟨_, by rw [← hspaces, hsplit]⟩, ?_, ?_⟩
  · exact fun hmem => hfront (hsplit ▸ List.mem_append_left _ hmem)
  · intro hlast
    obtain ⟨hne, hlast⟩ := List.mem_getLast?_eq_getLast hlast
    have := List.rdropWhile_last_not (· == ' ') front hne
    simp [← hlast] at this

theorem assigned?_eq_some_iff :
    assigned? other cs = some rest ↔
      ∃ k, cs = other ++ List.replicate k ' ' ++ '=' :: rest := by
  constructor
  · intro h
    unfold assigned? at h
    split at h
    · rename_i hprefix
      obtain ⟨tail, rfl⟩ := List.isPrefixOf_iff_prefix.mp hprefix
      rw [List.drop_left] at h
      have hspaces : tail.takeWhile (· == ' ') =
          List.replicate (tail.takeWhile (· == ' ')).length ' ' :=
        List.eq_replicate_iff.mpr ⟨rfl, fun c hc => by simpa using List.mem_takeWhile_imp hc⟩
      have hsplit := (List.takeWhile_append_dropWhile (p := (· == ' ')) (l := tail)).symm
      split at h
      · rename_i hrest
        cases h
        rw [hrest, hspaces] at hsplit
        exact ⟨_, by rw [List.append_assoc, ← hsplit]⟩
      · cases h
    · cases h
  · rintro ⟨k, rfl⟩
    have hprefix : other.isPrefixOf (other ++ List.replicate k ' ' ++ '=' :: rest) = true := by
      rw [List.isPrefixOf_iff_prefix, List.append_assoc]
      exact List.prefix_append _ _
    rw [assigned?, if_pos hprefix, List.append_assoc, List.drop_left, dropWhile_space k (by simp)]
    rfl

namespace Assigns

/-- Something is assigned to the whole name in front of the sign, and to nothing else. -/
theorem assigned?_eq (h : Assigns cs name rest) (hsign : '=' ∉ other)
    (hlast : other.getLast? ≠ some ' ') :
    assigned? other cs = if other = name then some rest else none := by
  obtain ⟨k, hcs⟩ := h.split
  split
  · rename_i heq
    exact assigned?_eq_some_iff.mpr ⟨k, by rw [heq, hcs]⟩
  · rename_i hne
    rw [Option.eq_none_iff_forall_ne_some]
    intro rest' hassigned
    obtain ⟨l, hcs'⟩ := assigned?_eq_some_iff.mp hassigned
    have hspace : ∀ {n k}, '=' ∉ n → '=' ∉ n ++ List.replicate k ' ' := fun hn => by
      simp [hn, List.mem_replicate]
    rw [hcs] at hcs'
    obtain ⟨hfront, -⟩ := Text.append_cons_inj (hspace hsign) (hspace h.sign_not_mem) hcs'.symm
    exact hne (eq_of_append_spaces hlast h.getLast?_ne hfront)

theorem assigned?_isName (h : Assigns cs name rest) (ho : IsName other) :
    assigned? other cs = if other = name then some rest else none :=
  h.assigned?_eq (fun hc => (ho.ne _ hc).1 rfl)
    fun hc => (ho.ne _ (List.mem_of_getLast? hc)).2.1 rfl

/-- The text begins with the whole name in front of the sign, if this is an identifier. -/
theorem identifier?_eq (h : Assigns cs name rest) (hname : IsName name) :
    identifier? cs = some name := by
  obtain ⟨k, rfl⟩ := h.split
  obtain ⟨c, tail, rfl, hc, htail⟩ := hname
  have hend : (List.replicate k ' ' ++ '=' :: rest).takeWhile Unicode.isWordChar = [] := by
    have hsign : Unicode.isWordChar '=' = false := by decide +kernel
    have hblank : Unicode.isWordChar ' ' = false := by decide +kernel
    cases k <;> simp [List.replicate_succ, hsign, hblank]
  rw [List.append_assoc, List.cons_append, identifier?, if_pos hc,
    List.takeWhile_append_of_pos htail, hend, List.append_nil]

variable (h : Assigns e.expr.toList name rest)

include h

theorem sign_mem : '=' ∈ e.expr.toList := by
  obtain ⟨k, hcs⟩ := h.split
  simp [hcs]

theorem rest_line (hline : '\n' ∉ e.expr.toList) : '\n' ∉ rest := by
  obtain ⟨k, hcs⟩ := h.split
  intro hmem
  exact hline (by simp [hcs, hmem])

theorem yGraph?_eq (hline : '\n' ∉ e.expr.toList) :
    yGraph? e = if name = ['y'] ∧ rest ≠ [] ∧ '=' ∉ rest then
      some (.graph .y e.body (String.ofList rest)) else none := by
  have hy : assigned? ['y'] e.expr.toList = if ['y'] = name then some rest else none :=
    h.assigned?_isName (isName_axis .y)
  have hrest := h.rest_line hline
  by_cases hname : name = ['y'] ∧ rest ≠ []
  · obtain ⟨rfl, hne⟩ := hname
    simp [yGraph?, hy, Option.filter_some, isLine, hne, hrest]
  · -- The whole text is the line then, and it has the sign.
    have hfilter : (assigned? ['y'] e.expr.toList).filter (!·.isEmpty) = none := by
      rw [hy]
      split
      · have hnil : rest = [] := by
          by_contra hne
          exact hname ⟨Eq.symm ‹_›, hne⟩
        simp [hnil, Option.filter_some]
      · rfl
    rw [if_neg fun hc => hname ⟨hc.1, hc.2.1⟩, yGraph?]
    simp [hfilter, h.sign_mem]

theorem axisGraph?_eq (hline : '\n' ∉ e.expr.toList) (axis : Axis) :
    axisGraph? axis e = if name = axis.name.toList ∧ rest ≠ [] then
      some (.graph axis e.body (String.ofList rest)) else none := by
  have hrest := h.rest_line hline
  rw [axisGraph?, assignedLine?, h.assigned?_isName (isName_axis axis)]
  by_cases hname : name = axis.name.toList
  · by_cases hne : rest = []
    · simp [hname, hne, Option.filter_some, isLine]
    · simp [hname, hne, Option.filter_some, isLine, hrest]
  · simp [hname, Ne.symm hname]

theorem nothing_assigned (hname : ¬IsName name) {other : List Char}
    (hother : identifier? e.expr.toList = some other) : assigned? other e.expr.toList = none := by
  have ho := isName_of_identifier? hother
  rw [h.assigned?_isName ho, if_neg]
  rintro rfl
  exact hname ho

theorem slider?_eq_none (hno : ¬IsName name ∨ isAxisName name = true ∨
    ¬IsNumeral (rest.dropWhile (· == ' '))) : slider? e = none := by
  by_cases hname : IsName name
  · have hself : assigned? name e.expr.toList = some rest := by
      rw [h.assigned?_isName hname, if_pos rfl]
    have htest : isAxisName name = true ∨ isNumber (rest.dropWhile (· == ' ')) = false := by
      obtain hnot | haxis | hnumber := hno
      · exact absurd hname hnot
      · exact .inl haxis
      · exact .inr (Bool.eq_false_iff.mpr fun h => hnumber (isNumber_iff.mp h))
    simp [slider?, h.identifier?_eq hname, hself, htest]
  · unfold slider?
    cases hother : identifier? e.expr.toList with
    | none => rfl
    | some other => simp [h.nothing_assigned hname hother]

theorem slider?_eq_some {x : Float} (hname : IsName name) (haxis : isAxisName name = false)
    (hread : Decimal.read? (String.ofList (rest.dropWhile (· == ' '))) = some x)
    (hnumber : IsNumeral (rest.dropWhile (· == ' '))) :
    slider? e = some (.slider (String.ofList name) x) := by
  have hself : assigned? name e.expr.toList = some rest := by
    rw [h.assigned?_isName hname, if_pos rfl]
  simp [slider?, h.identifier?_eq hname, hself, haxis, isNumber_iff.mpr hnumber, hread]

theorem computed?_eq (hline : '\n' ∉ e.expr.toList) (hname : IsName name)
    (haxis : isAxisName name = false) :
    computed? e = some (.computed (String.ofList name) e.body e.expr) := by
  have hself : assigned? name e.expr.toList = some rest := by
    rw [h.assigned?_isName hname, if_pos rfl]
  simp [computed?, h.identifier?_eq hname, hself, haxis, h.rest_line hline]

theorem computed?_eq_none (hno : ¬IsName name ∨ isAxisName name = true) : computed? e = none := by
  by_cases hname : IsName name
  · have haxis := hno.resolve_left (not_not_intro hname)
    simp [computed?, h.identifier?_eq hname, haxis]
  · unfold computed?
    cases hother : identifier? e.expr.toList with
    | none => rfl
    | some other => simp [h.nothing_assigned hname hother]

end Assigns

/-! ## Shapes -/

/-- The shape of an expression, told by its text from left to right. -/
inductive Shape (e : Expression) : Row → Prop
  | noLine (h : e.expr = "" ∨ '\n' ∈ e.expr.toList) : Shape e .empty
  | unassigned (hne : e.expr ≠ "") (hline : '\n' ∉ e.expr.toList) (h : '=' ∉ e.expr.toList) :
    Shape e (.graph .y e.body e.expr)
  | y {rest : List Char} (hline : '\n' ∉ e.expr.toList) (h : Assigns e.expr.toList ['y'] rest)
    (hne : rest ≠ []) (hsign : '=' ∉ rest) : Shape e (.graph .y e.body (String.ofList rest))
  | noY {rest : List Char} (hline : '\n' ∉ e.expr.toList) (h : Assigns e.expr.toList ['y'] rest)
    (hno : rest = [] ∨ '=' ∈ rest) : Shape e .empty
  | x {rest : List Char} (hline : '\n' ∉ e.expr.toList) (h : Assigns e.expr.toList ['x'] rest)
    (hne : rest ≠ []) : Shape e (.graph .x e.body (String.ofList rest))
  | noX (hline : '\n' ∉ e.expr.toList) (h : Assigns e.expr.toList ['x'] []) : Shape e .empty
  | polar {axis : Axis} {rest : List Char} (hline : '\n' ∉ e.expr.toList)
    (haxis : axis = .r ∨ axis = .theta) (h : Assigns e.expr.toList axis.name.toList rest)
    (hne : rest ≠ []) : Shape e (.graph axis e.body (String.ofList rest))
  | noPolar {axis : Axis} (hline : '\n' ∉ e.expr.toList) (haxis : axis = .r ∨ axis = .theta)
    (h : Assigns e.expr.toList axis.name.toList []) : Shape e (.computed axis.name e.body e.expr)
  | slider {name rest : List Char} {x : Float} (hline : '\n' ∉ e.expr.toList)
    (h : Assigns e.expr.toList name rest) (haxis : ∀ axis : Axis, name ≠ axis.name.toList)
    (hname : IsName name) (hnumber : IsNumeral (rest.dropWhile (· == ' ')))
    (hread : Decimal.read? (String.ofList (rest.dropWhile (· == ' '))) = some x) :
    Shape e (.slider (String.ofList name) x)
  | computed {name rest : List Char} (hline : '\n' ∉ e.expr.toList)
    (h : Assigns e.expr.toList name rest) (haxis : ∀ axis : Axis, name ≠ axis.name.toList)
    (hname : IsName name) (hnumber : ¬IsNumeral (rest.dropWhile (· == ' '))) :
    Shape e (.computed (String.ofList name) e.body e.expr)
  | nameless {name rest : List Char} (hline : '\n' ∉ e.expr.toList)
    (h : Assigns e.expr.toList name rest) (hname : ¬IsName name) : Shape e .empty

theorem Shape.total (e : Expression) : ∃ row, Shape e row := by
  by_cases hno : e.expr = "" ∨ '\n' ∈ e.expr.toList
  · exact ⟨_, .noLine hno⟩
  obtain ⟨hne, hline⟩ := not_or.mp hno
  by_cases hsign : '=' ∈ e.expr.toList
  swap
  · exact ⟨_, .unassigned hne hline hsign⟩
  obtain ⟨name, rest, h⟩ := exists_assigns hsign
  by_cases haxis : ∀ axis : Axis, name ≠ axis.name.toList
  · by_cases hname : IsName name
    swap
    · exact ⟨_, .nameless hline h hname⟩
    by_cases hnumber : IsNumeral (rest.dropWhile (· == ' '))
    · obtain ⟨x, hx⟩ := hnumber.exists_read?
      exact ⟨_, .slider hline h haxis hname hnumber hx⟩
    · exact ⟨_, .computed hline h haxis hname hnumber⟩
  · obtain ⟨axis, hname⟩ := not_forall.mp haxis
    obtain rfl := not_not.mp hname
    by_cases hrest : rest = []
    · subst hrest
      cases axis with
      | y => exact ⟨_, .noY hline h (.inl rfl)⟩
      | x => exact ⟨_, .noX hline h⟩
      | r => exact ⟨_, .noPolar hline (.inl rfl) h⟩
      | theta => exact ⟨_, .noPolar hline (.inr rfl) h⟩
    · cases axis with
      | y =>
        by_cases hsign : '=' ∈ rest
        · exact ⟨_, .noY hline h (.inr hsign)⟩
        · exact ⟨_, .y hline h hrest hsign⟩
      | x => exact ⟨_, .x hline h hrest⟩
      | r => exact ⟨_, .polar hline (.inl rfl) h hrest⟩
      | theta => exact ⟨_, .polar hline (.inr rfl) h hrest⟩

/-- Text that is empty or has several lines has none of the other shapes. -/
theorem classify_noLine (h : e.expr = "" ∨ '\n' ∈ e.expr.toList) : classify e = .empty := by
  have hline : isLine e.expr.toList = false := by
    obtain h | h := h <;> simp [isLine, h]
  have hassigned : ∀ {name rest}, IsName name → assigned? name e.expr.toList = some rest →
      '\n' ∈ rest := by
    intro name rest hname hsome
    obtain ⟨k, hcs⟩ := assigned?_eq_some_iff.mp hsome
    have hmem : '\n' ∈ e.expr.toList := h.resolve_left fun hempty => by simp [hempty] at hcs
    have hfront : '\n' ∉ name := fun hc => (hname.ne _ hc).2.2 rfl
    simpa [hcs, hfront, List.mem_replicate] using hmem
  have hgraph : ∀ axis, axisGraph? axis e = none := by
    intro axis
    cases hsome : assigned? axis.name.toList e.expr.toList with
    | none => simp [axisGraph?, assignedLine?, hsome]
    | some rest =>
      have hmem := hassigned (isName_axis axis) hsome
      simp [axisGraph?, assignedLine?, hsome, Option.filter_some, isLine, hmem]
  have hy : yGraph? e = none := by
    cases hsome : assigned? ['y'] e.expr.toList with
    | none => simp [yGraph?, hsome, hline]
    | some rest =>
      have hmem := hassigned (isName_axis .y) hsome
      have hne : rest ≠ [] := List.ne_nil_of_mem hmem
      simp [yGraph?, hsome, Option.filter_some, hne, isLine, hmem]
  have hslider : slider? e = none := by
    unfold slider?
    cases hname : identifier? e.expr.toList with
    | none => rfl
    | some name =>
      cases hsome : assigned? name e.expr.toList with
      | none => simp [hsome]
      | some rest =>
        have hnumber : isNumber (rest.dropWhile (· == ' ')) = false := by
          refine Bool.eq_false_iff.mpr fun hnumber => ?_
          have hmem := hassigned (isName_of_identifier? hname) hsome
          rw [← List.takeWhile_append_dropWhile (p := (· == ' ')) (l := rest)] at hmem
          obtain hmem | hmem := List.mem_append.mp hmem
          · simpa using List.mem_takeWhile_imp hmem
          · exact (isNumber_iff.mp hnumber).newline_not_mem hmem
        simp [hsome, hnumber]
  have hcomputed : computed? e = none := by
    unfold computed?
    cases hname : identifier? e.expr.toList with
    | none => rfl
    | some name =>
      cases hsome : assigned? name e.expr.toList with
      | none => simp [hsome]
      | some rest => simp [hsome, hassigned (isName_of_identifier? hname) hsome]
  simp [classify, hy, hgraph, hslider, hcomputed]

/-- Text without an equals sign is a graph of y as it stands. -/
theorem classify_unassigned (hne : e.expr ≠ "") (hline : '\n' ∉ e.expr.toList)
    (h : '=' ∉ e.expr.toList) : classify e = .graph .y e.body e.expr := by
  have hassigned : assigned? ['y'] e.expr.toList = none := by
    rw [Option.eq_none_iff_forall_ne_some]
    intro rest hsome
    obtain ⟨k, hcs⟩ := assigned?_eq_some_iff.mp hsome
    exact h (by simp [hcs])
  have hy : yGraph? e = some (.graph .y e.body e.expr) := by
    simp [yGraph?, hassigned, isLine, hne, hline, h]
  simp [classify, hy]

theorem isAxisName_eq_false (h : ∀ axis : Axis, name ≠ axis.name.toList) :
    isAxisName name = false := by
  have hx : name ≠ ['x'] := h .x
  have hy : name ≠ ['y'] := h .y
  simp [isAxisName, hx, hy]

/-- An assignment to the name of no axis is no graph. -/
theorem Assigns.classify_eq (h : Assigns e.expr.toList name rest) (hline : '\n' ∉ e.expr.toList)
    (haxis : ∀ axis : Axis, name ≠ axis.name.toList) :
    classify e = (slider? e <|> computed? e).getD .empty := by
  have hy : name ≠ ['y'] := haxis .y
  simp [classify, h.yGraph?_eq hline, h.axisGraph?_eq hline, haxis, hy]

/-- The row of an expression is the one of its shape. -/
theorem Shape.classify_eq (h : Shape e row) : classify e = row := by
  cases h with
  | noLine h => exact classify_noLine h
  | unassigned hne hline h => exact classify_unassigned hne hline h
  | y hline h hne hsign => simp [classify, h.yGraph?_eq hline, hne, hsign]
  | noY hline h hno =>
    have hslider := h.slider?_eq_none (.inr (.inl rfl))
    have hcomputed := h.computed?_eq_none (.inr rfl)
    obtain rfl | hsign := hno
    · simp [classify, h.yGraph?_eq hline, h.axisGraph?_eq hline, hslider, hcomputed]
    · simp [classify, h.yGraph?_eq hline, h.axisGraph?_eq hline, hslider, hcomputed, hsign,
        Axis.name]
  | x hline h hne =>
    simp [classify, h.yGraph?_eq hline, h.axisGraph?_eq hline, hne, Axis.name]
  | noX hline h =>
    have hslider := h.slider?_eq_none (.inr (.inl rfl))
    have hcomputed := h.computed?_eq_none (.inr rfl)
    simp [classify, h.yGraph?_eq hline, h.axisGraph?_eq hline, hslider, hcomputed]
  | polar hline haxis h hne =>
    obtain rfl | rfl := haxis <;>
      simp [classify, h.yGraph?_eq hline, h.axisGraph?_eq hline, hne, Axis.name]
  | @noPolar axis hline haxis h =>
    have hnumber : ¬IsNumeral ([].dropWhile (· == ' ')) := fun hnumber =>
      absurd (isNumber_iff.mpr hnumber) (by decide)
    have hslider := h.slider?_eq_none (.inr (.inr hnumber))
    have haxis : isAxisName axis.name.toList = false := by
      obtain rfl | rfl := haxis <;> decide
    have hcomputed := h.computed?_eq hline (isName_axis axis) haxis
    simp [classify, h.yGraph?_eq hline, h.axisGraph?_eq hline, hslider, hcomputed]
  | slider hline h haxis hname hnumber hread =>
    rw [h.classify_eq hline haxis,
      h.slider?_eq_some hname (isAxisName_eq_false haxis) hread hnumber]
    rfl
  | computed hline h haxis hname hnumber =>
    rw [h.classify_eq hline haxis, h.slider?_eq_none (.inr (.inr hnumber)),
      h.computed?_eq hline hname (isAxisName_eq_false haxis)]
    rfl
  | @nameless name rest hline h hname =>
    have haxis : ∀ axis : Axis, name ≠ axis.name.toList := by
      rintro axis rfl
      exact hname (isName_axis axis)
    rw [h.classify_eq hline haxis, h.slider?_eq_none (.inl hname), h.computed?_eq_none (.inl hname)]
    rfl

/-- An expression has one shape, and its row is the one of that shape. -/
theorem classify_eq_iff : classify e = row ↔ Shape e row := by
  constructor
  · rintro rfl
    obtain ⟨row, hrow⟩ := Shape.total e
    rw [hrow.classify_eq]
    exact hrow
  · exact Shape.classify_eq

end FormulaEditor.Row
