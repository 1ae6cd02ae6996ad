import FormulaEditor.Proofs.Expression.Naming
import FormulaEditor.Proofs.Expression.Statements

/-!
# Loops

The statements that an expression depends on are loops. Each of them adds up one accumulator, which
it declares right before. The limits of a loop may depend on loops of their own, in front of the
declaration, and its argument on loops inside. Accumulators go by how many came before them, so they
are different even where numbers start again.
-/

namespace FormulaEditor

/-- Loops, one behind the other. -/
inductive Loops
  | none
  /-- The loops before one, and the loop: what it does, the accumulator it adds up, the loops that
  its lower and upper limit depend on, the texts of its header, the loops that its argument depends
  on and the argument. -/
  | loop (before : Loops) (op : BigOp) (fold : Nat) (lower upper : Loops)
    (init index last : Marked) (inner : Loops) (argument : Marked)

namespace Loops

/-- The loops as statements, given the names of accumulators. -/
def text (ν : Numbering) : Loops → String
  | none => ""
  | loop before op fold lower upper init index last inner argument =>
    text ν before ++ "\n" ++ text ν lower ++ "\n" ++ text ν upper ++ "\nfloat " ++ ν.name fold ++
      " = " ++ (OpenSum.startAndStep op).1 ++ ";\nfor (float " ++ init.text ν ++ "; " ++
      index.text ν ++ " <= " ++ last.text ν ++ "; " ++ index.text ν ++ "++) \x7b\n    " ++
      text ν inner ++ "\n    " ++ ν.name fold ++ " " ++ (OpenSum.startAndStep op).2 ++ " " ++
      argument.text ν ++ ";\n\x7d"

/-- How often the accumulator is declared. -/
def declarations (fold : Nat) : Loops → Nat
  | none => 0
  | loop before _ own lower upper _ _ _ inner _ =>
    declarations fold before + declarations fold lower + declarations fold upper +
      (if own = fold then 1 else 0) + declarations fold inner

/-- The accumulators that are declared in the block itself and so can be used behind the loops. -/
def declared : Loops → List Nat
  | none => []
  | loop before _ fold lower upper _ _ _ _ _ =>
    declared before ++ declared lower ++ declared upper ++ [fold]

/-- Whatever the loops mention is declared before, in the same block or in one around it. The
accumulators declared before the loops are given. -/
def InScope (outer : List Nat) : Loops → Prop
  | none => True
  | loop before _ fold lower upper init index last inner argument =>
    InScope outer before ∧
    InScope (outer ++ declared before) lower ∧
    InScope (outer ++ declared before ++ declared lower) upper ∧
    let inside := outer ++ declared before ++ declared lower ++ declared upper ++ [fold]
    (init.Mentions inside ∧ index.Mentions inside ∧ last.Mentions inside) ∧
    InScope inside inner ∧ argument.Mentions (inside ++ declared inner)

/-- Loops and then more loops. -/
def append (loops : Loops) : Loops → Loops
  | none => loops
  | loop before op fold lower upper init index last inner argument =>
    loop (append loops before) op fold lower upper init index last inner argument

/-- The loops with a fractional part for every integer. -/
def promoteIntegers : Loops → Loops
  | none => none
  | loop before op fold lower upper init index last inner argument =>
    loop (promoteIntegers before) op fold (promoteIntegers lower) (promoteIntegers upper)
      init.promoteIntegers index.promoteIntegers last.promoteIntegers (promoteIntegers inner)
      argument.promoteIntegers

variable {ν : Numbering} {loops more : Loops} {fold : Nat} {outer outer' : List Nat}

theorem text_none : text ν none = "" := rfl

theorem text_loop {before lower upper inner : Loops} {op : BigOp}
    {init index last argument : Marked} :
    text ν (loop before op fold lower upper init index last inner argument) =
      text ν before ++ "\n" ++ text ν lower ++ "\n" ++ text ν upper ++ "\nfloat " ++ ν.name fold ++
        " = " ++ (OpenSum.startAndStep op).1 ++ ";\nfor (float " ++ init.text ν ++ "; " ++
        index.text ν ++ " <= " ++ last.text ν ++ "; " ++ index.text ν ++ "++) \x7b\n    " ++
        text ν inner ++ "\n    " ++ ν.name fold ++ " " ++ (OpenSum.startAndStep op).2 ++ " " ++
        argument.text ν ++ ";\n\x7d" := rfl

theorem text_loop_eq_loopLines {before lower upper inner : Loops} {op : BigOp}
    {init index last argument : Marked} :
    text ν (loop before op fold lower upper init index last inner argument) =
      text ν before ++ "\n" ++ text ν lower ++ "\n" ++ text ν upper ++
        OpenSum.loopLines op (ν.name fold) (init.text ν) (index.text ν) (last.text ν)
          (text ν inner) (argument.text ν) := by
  unfold OpenSum.loopLines
  simp only [text_loop, String.append_assoc]

/-! ## One behind the other -/

@[simp] theorem text_append : (loops.append more).text ν = loops.text ν ++ more.text ν := by
  induction more with
  | none => exact String.append_empty.symm
  | loop before _ _ _ _ _ _ _ _ _ ih => simp only [append, text_loop, ih, String.append_assoc]

@[simp] theorem declarations_append :
    (loops.append more).declarations fold = loops.declarations fold + more.declarations fold := by
  induction more with
  | none => rfl
  | loop before _ _ _ _ _ _ _ _ _ ih => simp [append, declarations, ih, Nat.add_assoc]

@[simp] theorem declared_append :
    (loops.append more).declared = loops.declared ++ more.declared := by
  induction more with
  | none => simp [append, declared]
  | loop before _ _ _ _ _ _ _ _ _ ih => simp [append, declared, ih]

theorem InScope.mono (h : loops.InScope outer) (hsub : outer ⊆ outer') : loops.InScope outer' := by
  induction loops generalizing outer outer' with
  | none => trivial
  | loop before op fold lower upper init index last inner argument ihb ihl ihu ihi =>
    obtain ⟨hbefore, hlower, hupper, ⟨hinit, hindex, hlast⟩, hinner, hargument⟩ := h
    have hmore : ∀ {xs ys : List Nat} (zs : List Nat), xs ⊆ ys → xs ++ zs ⊆ ys ++ zs :=
      fun zs hxy => List.append_subset.mpr
        ⟨fun _ hx => List.mem_append_left zs (hxy hx), List.subset_append_right _ zs⟩
    have hinside := hmore [fold] (hmore upper.declared (hmore lower.declared
      (hmore before.declared hsub)))
    exact ⟨ihb hbefore hsub, ihl hlower (hmore _ hsub), ihu hupper (hmore _ (hmore _ hsub)),
      ⟨hinit.mono hinside, hindex.mono hinside, hlast.mono hinside⟩, ihi hinner hinside,
      hargument.mono (hmore _ hinside)⟩

theorem InScope.append (h : loops.InScope outer) (h' : more.InScope (outer ++ loops.declared)) :
    (loops.append more).InScope outer := by
  induction more with
  | none => exact h
  | loop before op fold lower upper init index last inner argument ihb =>
    obtain ⟨hbefore, hrest⟩ := h'
    refine ⟨ihb hbefore, ?_⟩
    simpa [List.append_assoc] using hrest

/-! ## Integers as floats -/

theorem text_promoteIntegers :
    loops.promoteIntegers.text ν = Text.promoteIntegers (loops.text ν) := by
  induction loops with
  | none => rfl
  | loop before op fold lower upper init index last inner argument ihb ihl ihu ihi =>
    have hname : Text.promoteIntegers (ν.name fold) = ν.name fold :=
      Numbering.promoteIntegers_name
    have hline : Text.isSeparator "\n" = true := by decide +kernel
    simp only [promoteIntegers, text_loop_eq_loopLines, Marked.text_promoteIntegers, ihb, ihl, ihu,
      ihi, OpenSum.promoteIntegers_append_loopLines, hname, Text.promoteIntegers_separator hline]

@[simp] theorem declarations_promoteIntegers :
    loops.promoteIntegers.declarations fold = loops.declarations fold := by
  induction loops with
  | none => rfl
  | loop _ _ _ _ _ _ _ _ _ _ ihb ihl ihu ihi =>
    simp only [promoteIntegers, declarations, ihb, ihl, ihu, ihi]

@[simp] theorem declared_promoteIntegers : loops.promoteIntegers.declared = loops.declared := by
  induction loops with
  | none => rfl
  | loop _ _ _ _ _ _ _ _ _ _ ihb ihl ihu _ =>
    simp only [promoteIntegers, declared, ihb, ihl, ihu]

theorem InScope.promoteIntegers (h : loops.InScope outer) :
    loops.promoteIntegers.InScope outer := by
  induction loops generalizing outer with
  | none => trivial
  | loop before op fold lower upper init index last inner argument ihb ihl ihu ihi =>
    obtain ⟨hbefore, hlower, hupper, ⟨hinit, hindex, hlast⟩, hinner, hargument⟩ := h
    simp only [Loops.promoteIntegers, InScope, declared_promoteIntegers]
    exact ⟨ihb hbefore, ihl hlower, ihu hupper, ⟨hinit.promoteFrom _, hindex.promoteFrom _,
      hlast.promoteFrom _⟩, ihi hinner, hargument.promoteFrom _⟩

end Loops

end FormulaEditor
