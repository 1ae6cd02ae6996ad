import FormulaEditor.Formula.Basic

/-!
# Finding lists and elements

A path names a list by the way to it: from the root, an element's index, the number of one of its
lists, and so on. Lists and elements also have numbers in the order in which they are met on a walk
through the formula.
-/

namespace FormulaEditor

/-- The way to a list: element indices and list numbers in turn, from the root on. -/
abbrev Path := List Nat

namespace Formula

/-- The list that a path leads to from a given one. -/
def listFrom? (f : Formula) (l : ListId) : Path → Option ListId
  | [] => some l
  | [_] => none
  | i :: j :: path => do
    let e ← (f.elements l)[i]?
    let inner ← (f.listsOf e)[j]?
    f.listFrom? inner path

/-- The list at a path. -/
def listAt? (f : Formula) (path : Path) : Option ListId :=
  f.listFrom? f.root path

/-- The element at the end of a path to its list and its index there. -/
def elementAt? (f : Formula) (path : Path) : Option ElementId := do
  let i ← path.getLast?
  let l ← f.listAt? path.dropLast
  (f.elements l)[i]?

/-- The path to a list, climbing through at most `depth` elements. -/
def pathWithin? (f : Formula) : Nat → ListId → Option Path
  | 0, _ => none
  | depth + 1, l =>
    if l = f.root then some []
    else do
      let e ← f.owner l
      let outer ← f.parent e
      let number ← (f.listsOf e).idxOf? l
      let path ← f.pathWithin? depth outer
      some (path ++ [f.position e, number])

/-- The path to a list; none for a detached one. -/
def pathTo? (f : Formula) (l : ListId) : Option Path :=
  f.pathWithin? f.listSlots.size l

/-- Whether a list is part of the formula. -/
def isAttached (f : Formula) (l : ListId) : Bool :=
  (f.pathTo? l).isSome

/-- A list and all lists inside it, each before those it holds, down to a given depth. -/
def listsWithin (f : Formula) : Nat → ListId → List ListId
  | 0, _ => []
  | depth + 1, l =>
    l :: (f.elements l).flatMap fun e => (f.listsOf e).flatMap (f.listsWithin depth)

/-- The elements of a list and of all lists inside it, each before those it holds. -/
def elementsWithin (f : Formula) : Nat → ListId → List ElementId
  | 0, _ => []
  | depth + 1, l =>
    (f.elements l).flatMap fun e => e :: (f.listsOf e).flatMap (f.elementsWithin depth)

/-- Every list of the formula, in walking order. -/
def allLists (f : Formula) : List ListId :=
  f.listsWithin f.listSlots.size f.root

/-- Every element of the formula, in walking order. -/
def allElements (f : Formula) : List ElementId :=
  f.elementsWithin f.listSlots.size f.root

/-- Whether the two directions of every link agree: each element knows its list and index, and each
list its owner. -/
def checkLinks (f : Formula) : Bool :=
  f.allLists.all fun l =>
    (f.elements l).zipIdx.all fun (e, i) =>
      f.parent e = some l && f.position e = i &&
        (f.listsOf e).all fun inner => f.owner inner = some e

end Formula

end FormulaEditor
