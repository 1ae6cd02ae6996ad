import FormulaEditor.Proofs.Document.Compact
import FormulaEditor.Proofs.Session.Keyboard

/-!
# Sessions store what text can say

Characters and keys store legible elements only. So do the other actions: formula text is read as
legible nodes, the value of a slider is written in digits, and compaction leaves elements as they
are but for handles. Whatever is reached is legible.
-/

namespace FormulaEditor

/-- Renaming changes no symbol and no name. -/
theorem Element.Legible.renameLists? {x y : Element} {ρ : ListId → Option ListId} (hx : x.Legible)
    (h : x.renameLists? ρ = some y) : y.Legible := by
  rcases x with _ | _ | _ | _ | _ | ⟨_ | _, _⟩ | ⟨_ | _, _ | _, _ | _⟩ | _ | _ <;>
    simp only [Element.renameLists?, Option.bind_eq_bind, Option.bind_eq_some_iff,
      Option.map_eq_some_iff, Option.some.injEq] at h <;>
    grind [Legible]

/-- What is stored under new handles is legible if what survives is. -/
theorem Formula.Stores.renamed {f g : Formula} {ρ : ListId → Option ListId}
    {σ : ElementId → Option ElementId} (h : f.Stores Element.Legible []) (hr : f.Renamed g ρ σ)
    (hσ : ∀ {e e'}, σ e = some e' → f.HasElement e) : g.Stores Element.Legible [] where
  element e' he' _ := by
    obtain ⟨e, he⟩ := hr.element_source he'
    exact (h.element e (hσ he) List.not_mem_nil).renameLists? (hr.element he)

namespace Document.Legible

variable {doc : Document} {ns : List Node} {b : Bool}

theorem ofNodes (hns : Node.EveryNode Node.Legible ns) : (Document.ofNodes ns b).Legible :=
  ⟨(Formula.Stores.empty.plantAll (Node.legible_elements hns)).replaceRange⟩

theorem pasteNodes (h : doc.Legible) (hns : Node.EveryNode Node.Legible ns) :
    Yields (doc.pasteNodes ns) Legible := by
  have hput : ∀ doc : Document, doc.Legible → Yields (Document.insertElements
      { doc with formula := (doc.formula.plantAll ns).1 } doc.caret.place.list
      doc.caret.place.pos (doc.formula.plantAll ns).2 true) Legible := by
    intro doc h
    have hplant : Legible { doc with formula := (doc.formula.plantAll ns).1 } :=
      ⟨h.stores.plantAll (Node.legible_elements hns)⟩
    exact hplant.insertElements
  unfold Document.pasteNodes
  split
  · exact h.delete.map.bind hput
  · exact hput doc h

theorem paste (h : doc.Legible) (text : String) :
    Yields (doc.paste text) fun r => ∀ doc', r = .ok doc' → doc'.Legible := by
  unfold Document.paste
  cases hr : Tex.read text with
  | error e => exact .ok (by simp)
  | ok ns =>
    have hpaste := h.pasteNodes (Tex.legible_of_read hr)
    exact Yields.map fun doc' hdoc => by simpa using hpaste doc' hdoc

theorem insertNodes (h : doc.Legible) (hns : ∀ n ∈ ns, Node.EveryNode Node.Legible [n])
    {d : Direction} : Yields (doc.insertNodes ns d) Legible := by
  induction ns generalizing doc with
  | nil => exact .ok h
  | cons n ns ih =>
    obtain ⟨hn, hns⟩ := List.forall_mem_cons.mp hns
    exact (h.insertNode hn).bind fun doc' h' => ih h' hns

/-- Compaction stores nothing new. -/
theorem compact (h : doc.Legible) (hf : doc.formula.Tidy) :
    Yields doc.compact fun r => r.1.Legible := by
  obtain ⟨g, hg, hr⟩ := (Survivors.closed_of hf).formula?_spec
  have hstored : ∀ {e e'}, (Survivors.of doc.formula).element? e = some e' →
      doc.formula.HasElement e := by
    intro e e' he
    have hmem : e ∈ doc.formula.allElements :=
      List.mem_of_getElem? (Survivors.getElem?_of_element? he)
    obtain ⟨l, hl, -⟩ := hf.mem_allElements.mp hmem
    exact Formula.hasElement_of_parent hl
  unfold Document.compact
  simp only [hg]
  exact .ok ⟨h.stores.renamed hr hstored⟩

end Document.Legible

namespace Session

variable {s s' : Session}

theorem setTex_legible {text : String} (h : s.setTex text = .ok s') : s'.document.Legible := by
  obtain ⟨ns, hns, ⟨⟩⟩ := bind_eq_ok.mp h
  exact (Document.Legible.ofNodes (Tex.legible_of_read hns)).moveCaret

/-- The value of a slider is written in digits, a point and a minus. -/
theorem legible_sliderNodes (text : String) :
    ∀ n ∈ sliderNodes text, Node.EveryNode Node.Legible [n] := by
  intro n hn
  obtain ⟨c, -, hc⟩ := List.mem_filterMap.mp hn
  by_cases hminus : c = '-'
  · obtain rfl : Node.binary .minus = n := by simpa [hminus] using hc
    exact Tex.legible_single trivial (by simp [Node.lists])
  · obtain ⟨hchar, rfl⟩ : (c.isDigit = true ∨ c = '.') ∧ Node.ofChar c = n := by
      simpa [hminus] using hc
    have hatom : Tex.isAtomChar c = true := by
      rcases hchar with hdigit | rfl
      · exact Text.of_isDigit (p := fun c => Tex.isAtomChar c = true) (by decide +kernel) hdigit
      · decide
    exact Tex.legible_single (Tex.legible_ofChar hatom) (by simp [Node.lists, Node.ofChar])

theorem setSlider_legible (h : s.document.Legible) (value : Float) :
    Yields (s.setSlider value) fun r => r.1.document.Legible := by
  unfold setSlider
  split
  · exact .ok h
  · dsimp only
    split
    · exact .ok h
    · refine h.cancelSelection.splice.bind fun x hx => ?_
      exact (hx.moveCaret.insertNodes (legible_sliderNodes _)).bind fun doc' h' => .ok h'

/-- What an operation reports besides does not matter to the store. -/
theorem fst_legible {α : Type} {x : Except Misuse (Session × α)}
    (h : Yields x fun r => r.1.document.Legible) :
    Yields (x.map Prod.fst) fun s' => s'.document.Legible :=
  Yields.map (q := fun s' : Session => s'.document.Legible) h

/-- No action stores what is not legible. -/
theorem perform_legible (h : s.document.Legible) (hv : s.document.Valid) (action : Action) :
    Yields (s.perform action) fun s' => s'.document.Legible := by
  cases action with
  | type c => exact fst_legible (typeChar_legible h c)
  | press key => exact fst_legible (press_legible h key)
  | move d select =>
    have hmove : Yields (s.moveCaret d select) fun r => r.1.document.Legible :=
      h.move.bind fun _ hr => .ok hr
    exact fst_legible hmove
  | point target side drag => exact .ok ⟨h.stores⟩
  | paste text =>
    have hpaste : Yields (s.paste text) fun r => ∀ s', r = .ok s' → s'.document.Legible := by
      refine (h.paste text).bind fun r hr => ?_
      cases r with
      | error error => exact .ok (by simp)
      | ok doc => exact .ok (by simpa using hr doc rfl)
    refine hpaste.bind fun r hr => ?_
    cases r with
    | ok s' => exact .ok (hr s' rfl)
    | error error => exact .ok h
  | setTex text =>
    simp only [perform]
    cases hs : s.setTex text with
    | ok s' => exact .ok (setTex_legible hs)
    | error error => exact .ok h
  | setSlider value => exact fst_legible (setSlider_legible h value)
  | copy => exact Yields.map fun _ _ => h
  | cut =>
    have hcut : Yields s.cut fun r => r.1.document.Legible := h.cut.bind fun _ hr => .ok hr
    exact fst_legible hcut
  | compact =>
    have hcompact : Yields s.compact fun r => r.1.document.Legible :=
      (h.compact hv.formula).bind fun _ hr => .ok hr
    exact fst_legible hcompact

/-- Whatever is reached stores nothing but what formula text can be read as. -/
theorem Reached.legible (h : s.Reached) : s.document.Legible := by
  induction h with
  | new options => exact .empty
  | ofTex h => exact setTex_legible h
  | perform hs _ h ih => exact perform_legible ih hs.valid _ _ h

end Session

end FormulaEditor
