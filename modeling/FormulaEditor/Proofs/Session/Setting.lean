import FormulaEditor.Proofs.Session.Reached

/-!
# The setting of a document

A document is told once whether it reads words. No edit changes that, so throughout a session the
document does what the options say.
-/

namespace FormulaEditor

namespace Document

variable {doc : Document} {l : ListId} {e : ElementId} {d : Direction}

theorem convertsWords_splice {start stop : Nat} {es : List ElementId} :
    Yields (doc.splice l start stop es) fun r => r.1.convertsWords = doc.convertsWords :=
  .bind_any fun _ => .ok rfl

theorem convertsWords_insertElements {pos : Nat} {es : List ElementId} {behind : Bool} :
    Yields (doc.insertElements l pos es behind) fun doc' =>
      doc'.convertsWords = doc.convertsWords :=
  convertsWords_splice.bind fun _ hr => .ok hr

theorem convertsWords_move {select : Bool} :
    Yields (doc.move d select) fun r => r.1.convertsWords = doc.convertsWords :=
  .bind_any fun _ => .ok rfl

/-! ## Deleting -/

theorem convertsWords_dissolve {caller : ListId} :
    Yields (doc.dissolve e caller) fun doc' => doc'.convertsWords = doc.convertsWords := by
  unfold Document.dissolve
  split
  · exact .ok rfl
  · split
    · unfold Document.dropHalf
      dsimp only
      split
      · exact convertsWords_insertElements
      · exact convertsWords_insertElements
    · exact convertsWords_splice.bind fun _ hr => .ok hr

theorem convertsWords_deleteIn :
    Yields (doc.deleteIn l d) fun doc' => doc'.convertsWords = doc.convertsWords := by
  unfold Document.deleteIn
  split
  · exact .error _
  · unfold Document.deleteFrom
    dsimp only
    split
    · exact convertsWords_splice.bind fun _ hr => .ok hr
    · split
      · exact convertsWords_dissolve
      · exact .ok rfl

theorem convertsWords_delete :
    Yields (doc.delete d) fun r => r.1.convertsWords = doc.convertsWords := by
  unfold Document.delete
  refine .bind_any fun selected => ?_
  split
  · exact convertsWords_splice.bind fun _ hr => .ok hr
  · refine Yields.bind convertsWords_deleteIn fun doc' hdoc' => .ok (hdoc'.trans ?_)
    split
    · rfl
    · rfl

/-! ## Inserting -/

theorem convertsWords_convertWords :
    Yields (doc.convertWords l) fun doc' => doc'.convertsWords = doc.convertsWords := by
  unfold Document.convertWords
  refine .bind_any fun run => ?_
  dsimp only
  split
  · exact .ok rfl
  · refine convertsWords_splice.bind fun r hr => ?_
    split
    · exact .ok hr
    · exact convertsWords_move.bind fun _ hr' => .ok (hr'.trans hr)

theorem convertsWords_acceptSelection {es : List ElementId} :
    Yields (doc.acceptSelection e es d) fun doc' => doc'.convertsWords = doc.convertsWords := by
  unfold Document.acceptSelection
  dsimp only
  split
  · exact .error _
  · split
    · exact .ok rfl
    · exact convertsWords_splice.bind fun _ hr => .ok hr

theorem convertsWords_giveSelection :
    Yields (doc.giveSelection e d) fun r => r.1.convertsWords = doc.convertsWords := by
  unfold Document.giveSelection
  split
  · exact convertsWords_delete.bind fun _ hr =>
      convertsWords_acceptSelection.bind fun _ hr' => .ok (hr'.trans hr)
  · exact .ok rfl

theorem convertsWords_place :
    Yields (doc.place e) fun doc' => doc'.convertsWords = doc.convertsWords := by
  unfold Document.place
  split
  · exact .error _
  · refine convertsWords_splice.bind fun r hr => ?_
    dsimp only
    split
    · refine convertsWords_convertWords.bind fun doc' hdoc' => ?_
      split
      · exact .ok (hdoc'.trans hr)
      · exact .ok (hdoc'.trans hr)
    · refine Yields.bind (p := fun doc' => doc'.convertsWords = r.1.convertsWords) (.ok rfl)
        fun doc' hdoc' => ?_
      split
      · exact .ok (hdoc'.trans hr)
      · exact .ok (hdoc'.trans hr)

theorem convertsWords_insert :
    Yields (doc.insert e d) fun doc' => doc'.convertsWords = doc.convertsWords :=
  convertsWords_giveSelection.bind fun _ hr =>
    fun _ hdoc' => (convertsWords_place _ hdoc').trans hr

theorem convertsWords_insertNodes {ns : List Node} :
    Yields (doc.insertNodes ns d) fun doc' => doc'.convertsWords = doc.convertsWords := by
  induction ns generalizing doc with
  | nil => exact .ok rfl
  | cons n ns ih =>
    exact convertsWords_insert.bind fun _ hr => fun _ hdoc' => (ih _ hdoc').trans hr

theorem convertsWords_insertScript {superscript : Bool} :
    Yields (doc.insertScript superscript) fun doc' => doc'.convertsWords = doc.convertsWords := by
  unfold Document.insertScript
  refine .bind_any fun selected => ?_
  split
  · refine .bind_any fun opened => ?_
    refine convertsWords_giveSelection.bind fun r hr => ?_
    dsimp only
    split
    · exact .ok hr
    · exact .ok hr
  · refine .bind_any fun opened => ?_
    exact convertsWords_insert

/-- Once the new element is there it is put in, and the caret goes into it. -/
theorem convertsWords_placed {doc' : Document} (h : doc'.convertsWords = doc.convertsWords)
    {side : Direction} :
    Yields (do
      let doc ← doc'.place e
      match (doc.formula.element e).boundary? side with
      | some l => .ok (doc.moveCaret (Formula.startOf l))
      | none => .ok doc) fun doc' => doc'.convertsWords = doc.convertsWords := by
  refine convertsWords_place.bind fun _ hplaced => ?_
  split
  · exact .ok (hplaced.trans h)
  · exact .ok (hplaced.trans h)

theorem convertsWords_insertAround {kind : GreedyKind} :
    Yields (doc.insertAround kind) fun doc' => doc'.convertsWords = doc.convertsWords := by
  unfold Document.insertAround
  dsimp only
  split
  · exact .error _
  · refine convertsWords_splice.bind fun r hr => ?_
    refine convertsWords_splice.bind fun r' hr' => ?_
    have hthen := hr'.trans hr
    split
    · refine convertsWords_splice.bind fun r₁ hr₁ => ?_
      refine convertsWords_splice.bind fun r₂ hr₂ => ?_
      exact convertsWords_placed ((hr₂.trans hr₁).trans hthen)
    · refine convertsWords_splice.bind fun r₁ hr₁ => ?_
      refine .bind_any fun opened => ?_
      refine (Yields.ok rfl : Yields _ fun doc' => doc'.convertsWords = r₁.1.convertsWords).bind
        fun doc' hdoc' => ?_
      exact convertsWords_placed ((hdoc'.trans hr₁).trans hthen)
    · refine (Yields.ok rfl : Yields _ fun doc' => doc'.convertsWords = r'.1.convertsWords).bind
        fun doc' hdoc' => ?_
      exact convertsWords_placed (hdoc'.trans hthen)

theorem convertsWords_insertGreedy {kind : GreedyKind} :
    Yields (doc.insertGreedy kind) fun doc' => doc'.convertsWords = doc.convertsWords := by
  unfold Document.insertGreedy
  split
  · cases kind with
    | frac => exact convertsWords_insert
    | superscript => exact .bind_any fun opened => convertsWords_insert
  · exact convertsWords_insertAround

/-! ## The clipboard and compaction -/

theorem convertsWords_cut :
    Yields doc.cut fun r => r.1.convertsWords = doc.convertsWords := by
  unfold Document.cut
  refine .bind_any fun text => ?_
  split
  · exact convertsWords_delete.bind fun _ hr => .ok hr
  · exact .ok rfl

theorem convertsWords_pasteNodes {ns : List Node} :
    Yields (doc.pasteNodes ns) fun doc' => doc'.convertsWords = doc.convertsWords := by
  unfold Document.pasteNodes
  split
  · have hdelete : Yields ((doc.delete .left).map Prod.fst) fun doc' =>
        doc'.convertsWords = doc.convertsWords := .map convertsWords_delete
    exact hdelete.bind fun _ hr => fun _ hdoc' => (convertsWords_insertElements _ hdoc').trans hr
  · exact convertsWords_insertElements

theorem convertsWords_compact :
    Yields doc.compact fun r => r.1.convertsWords = doc.convertsWords := by
  unfold Document.compact
  dsimp only
  split
  · exact .error _
  · exact .ok rfl

end Document

namespace Session

open Document

/-- The document reads words just if the options say so. -/
def Agrees (s : Session) : Prop :=
  s.document.convertsWords = s.options.convertSpecials

variable {s : Session}

theorem Agrees.edit (h : s.Agrees) {change : Document → Except Misuse Document}
    (hchange : Yields (change s.document) fun doc =>
      doc.convertsWords = s.document.convertsWords) :
    Yields (s.edit change) Agrees :=
  hchange.bind fun _ hdoc => .ok (hdoc.trans h)

theorem convertsWords_apply {doc : Document} {greedy : Bool} (typed : Typed) :
    Yields (typed.apply greedy doc) fun doc' => doc'.convertsWords = doc.convertsWords := by
  cases typed with
  | raised digit =>
    refine convertsWords_insertScript.bind fun doc₁ h₁ => ?_
    refine Yields.bind convertsWords_insert fun doc₂ h₂ => ?_
    exact convertsWords_move.bind fun _ h₃ => .ok ((h₃.trans h₂).trans h₁)
  | node n => exact convertsWords_insert
  | fraction =>
    cases greedy with
    | true => exact convertsWords_insertGreedy
    | false => exact convertsWords_insert
  | superscript => exact convertsWords_insertScript
  | subscript => exact convertsWords_insertScript

theorem Agrees.typeChar (h : s.Agrees) (c : Char) :
    Yields (s.typeChar c) fun r => r.1.Agrees := by
  unfold Session.typeChar
  split
  · exact .ok h
  · exact (h.edit (convertsWords_apply _)).bind fun _ hs => .ok hs

theorem Agrees.moveCaret (h : s.Agrees) (d : Direction) (select : Bool) :
    Yields (s.moveCaret d select) fun r => r.1.Agrees :=
  convertsWords_move.bind fun _ hr => .ok (hr.trans h)

theorem Agrees.cut (h : s.Agrees) : Yields s.cut fun r => r.1.Agrees :=
  convertsWords_cut.bind fun _ hr => .ok (hr.trans h)

theorem Agrees.press (h : s.Agrees) (key : Key) : Yields (s.press key) fun r => r.1.Agrees := by
  cases key with
  | move d select => exact (h.moveCaret d select).bind fun _ hr => .ok hr
  | backspace => exact (h.edit (.map convertsWords_delete)).bind fun _ hs => .ok hs
  | delete => exact (h.edit (.map convertsWords_delete)).bind fun _ hs => .ok hs
  | selectAll => exact .ok h
  | copy => exact .bind_any fun text => .ok h
  | cut => exact h.cut.bind fun _ hr => .ok hr

theorem Agrees.paste (h : s.Agrees) (text : String) :
    Yields (s.paste text) fun r => ∀ s', r = .ok s' → s'.Agrees := by
  unfold Session.paste Document.paste
  split
  · refine .ok ?_
    rintro s' ⟨⟩
  · refine Yields.bind (p := fun r => ∀ doc, r = .ok doc →
      doc.convertsWords = s.document.convertsWords) (.map ?_) fun r hr => ?_
    · rintro doc hdoc _ ⟨⟩
      exact convertsWords_pasteNodes doc hdoc
    · cases r with
      | error error =>
        refine .ok ?_
        rintro s' ⟨⟩
      | ok doc =>
        refine .ok ?_
        rintro s' ⟨⟩
        exact (hr doc rfl).trans h

/-- A new document is told what the options say. -/
theorem agrees_of_setTex {s' : Session} {text : String} (h : s.setTex text = .ok s') :
    s'.Agrees := by
  obtain ⟨ns, -, ⟨⟩⟩ := bind_eq_ok.mp h
  rfl

theorem Agrees.setSlider (h : s.Agrees) (value : Float) :
    Yields (s.setSlider value) fun r => r.1.Agrees := by
  unfold Session.setSlider
  split
  · exact .ok h
  · dsimp only
    split
    · exact .ok h
    · refine convertsWords_splice.bind fun r hr => ?_
      exact convertsWords_insertNodes.bind fun _ hdoc => .ok ((hdoc.trans hr).trans h)

theorem Agrees.perform (h : s.Agrees) (action : Action) : Yields (s.perform action) Agrees := by
  cases action with
  | type c => exact .map (h.typeChar c)
  | press key => exact .map (h.press key)
  | move d select => exact .map (h.moveCaret d select)
  | point target side drag => exact .ok h
  | paste text =>
    refine (h.paste text).bind fun r hr => ?_
    cases r with
    | ok s' => exact .ok (hr s' rfl)
    | error error => exact .ok h
  | setTex text =>
    simp only [Session.perform]
    cases hs : s.setTex text with
    | ok s' => exact .ok (agrees_of_setTex hs)
    | error error => exact .ok h
  | setSlider value => exact .map (h.setSlider value)
  | copy => exact .map fun _ _ => h
  | cut => exact .map h.cut
  | compact => exact .map (convertsWords_compact.bind fun _ hr => .ok (hr.trans h))

/-- Whatever is reached reads words just if its options say so. -/
theorem Reached.agrees (h : s.Reached) : s.Agrees := by
  induction h with
  | new options => rfl
  | ofTex h => exact agrees_of_setTex h
  | perform _ _ h ih => exact ih.perform _ _ h

end Session

end FormulaEditor
