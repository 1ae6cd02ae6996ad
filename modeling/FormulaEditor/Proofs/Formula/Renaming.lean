import FormulaEditor.Proofs.Caret.Movement

/-!
# Formulas under new handles

A renaming gives new handles to some elements and lists of a formula. `Renamed` says that a second
formula stores just these, each with the links it had, written in the new handles. Such a formula is
tidy as the first one is, and its places are the places of the first one.
-/

namespace FormulaEditor

/-- All steps of a sequence of partial steps have results when these line up. -/
theorem mapM_eq_some_iff {α β : Type} {k : α → Option β} {as : List α} {bs : List β} :
    as.mapM k = some bs ↔ as.map k = bs.map some := by
  induction as generalizing bs with
  | nil => cases bs <;> simp
  | cons a as ih =>
    rw [List.mapM_cons]
    cases hk : k a with
    | none => cases bs <;> simp [hk]
    | some b =>
      cases hks : as.mapM k with
      | none =>
        cases bs with
        | nil => simp
        | cons b' bs =>
          have := mt (@ih bs).mpr (by simp [hks])
          simp [hk, this]
      | some bs' =>
        cases bs with
        | nil => simp
        | cons b' bs =>
          have := @ih bs
          simp only [hks, Option.some.injEq] at this
          simp [hk, this]

section Lines

variable {α β : Type} {k : α → Option β} {as : List α} {bs : List β} {a : α} {b : β}

theorem exists_map_some (h : ∀ a ∈ as, ∃ b, k a = some b) : ∃ bs : List β, as.map k = bs.map some := by
  induction as with
  | nil => exact ⟨[], rfl⟩
  | cons a as ih =>
    obtain ⟨b, hb⟩ := h a (by simp)
    obtain ⟨bs, hbs⟩ := ih fun a ha => h a (by simp [ha])
    exact ⟨b :: bs, by simp [hb, hbs]⟩

theorem exists_of_mem_left (h : as.map k = bs.map some) (ha : a ∈ as) :
    ∃ b ∈ bs, k a = some b := by
  obtain ⟨b, hb, hk⟩ := List.mem_map.mp (h ▸ List.mem_map_of_mem (f := k) ha)
  exact ⟨b, hb, hk.symm⟩

theorem exists_of_mem_right (h : as.map k = bs.map some) (hb : b ∈ bs) :
    ∃ a ∈ as, k a = some b :=
  List.mem_map.mp (h ▸ List.mem_map_of_mem (f := some) hb)

theorem getElem?_of_map (h : as.map k = bs.map some) (i : Nat) :
    as[i]?.map k = bs[i]?.map some := by
  rw [← List.getElem?_map, h, List.getElem?_map]

end Lines

namespace Element

variable {x y : Element} {ρ : ListId → Option ListId}

/-- The lists of a renamed element are its lists, renamed. -/
theorem lists_renameLists? (h : x.renameLists? ρ = some y) : x.lists.map ρ = y.lists.map some := by
  rcases x with _ | _ | _ | _ | _ | ⟨_ | _, _⟩ | ⟨_ | _, _ | _, _ | _⟩ | _ | _ <;>
    simp only [renameLists?, Option.bind_eq_bind, Option.bind_eq_some_iff, Option.map_eq_some_iff,
      Option.some.injEq] at h <;>
    grind [lists]

/-- An acceptor goes on being one of the halves. -/
theorem Filled.renameLists? (hx : x.Filled) (h : x.renameLists? ρ = some y) : y.Filled := by
  rcases x with _ | _ | _ | _ | _ | ⟨_ | _, _⟩ | ⟨_ | _, _ | _, _ | _⟩ | _ | _ <;>
    simp only [Element.renameLists?, Option.bind_eq_bind, Option.bind_eq_some_iff,
      Option.map_eq_some_iff, Option.some.injEq] at h <;>
    grind [Filled]

/-- An element can be renamed once its lists can. -/
theorem Filled.exists_renameLists? (hx : x.Filled) (h : ∀ l ∈ x.lists, ∃ l', ρ l = some l') :
    ∃ y, x.renameLists? ρ = some y := by
  obtain ⟨r, hr⟩ : ∃ r : ListId → ListId, ∀ l ∈ x.lists, ρ l = some (r l) :=
    ⟨fun l => (ρ l).getD l, fun l hl => by
      obtain ⟨l', hl'⟩ := h l hl
      simp [hl']⟩
  clear h
  rcases x with _ | _ | _ | _ | _ | ⟨_ | _, _⟩ | ⟨_ | _, _ | _, _ | _⟩ | _ | _ <;>
    simp_all [lists, Filled, Element.renameLists?]
  obtain rfl | rfl := hx <;> simp [hr]

end Element

namespace Formula

variable {f g : Formula} {ρ : ListId → Option ListId} {σ : ElementId → Option ElementId}
  {e e' : ElementId} {a a' l l' : ListId} {n : Nat} {p : Place}

/-- The second formula stores what has a new handle, with the links it had in the first one. -/
structure Renamed (f g : Formula) (ρ : ListId → Option ListId) (σ : ElementId → Option ElementId) :
    Prop where
  list_inj : ∀ {l m l'}, ρ l = some l' → ρ m = some l' → l = m
  element_inj : ∀ {e d e'}, σ e = some e' → σ d = some e' → e = d
  /-- Nothing else is stored. -/
  list_source : ∀ {l'}, g.HasList l' → ∃ l, ρ l = some l'
  element_source : ∀ {e'}, g.HasElement e' → ∃ e, σ e = some e'
  hasList : ∀ {l l'}, ρ l = some l' → g.HasList l'
  root : ρ f.root = some g.root
  elements : ∀ {l l'}, ρ l = some l' → (f.elements l).map σ = (g.elements l').map some
  owner : ∀ {l l'}, ρ l = some l' → (f.owner l).map σ = (g.owner l').map some
  element : ∀ {e e'}, σ e = some e' → (f.element e).renameLists? ρ = some (g.element e')
  parent : ∀ {e e'}, σ e = some e' → (f.parent e).map ρ = (g.parent e').map some
  position : ∀ {e e'}, σ e = some e' → g.position e' = f.position e

namespace Renamed

theorem listsOf (h : f.Renamed g ρ σ) (he : σ e = some e') :
    (f.listsOf e).map ρ = (g.listsOf e').map some :=
  Element.lists_renameLists? (h.element he)

theorem length (h : f.Renamed g ρ σ) (hl : ρ l = some l') : g.length l' = f.length l := by
  simpa [Formula.length] using (congrArg List.length (h.elements hl)).symm

theorem parent_eq (h : f.Renamed g ρ σ) (hp : g.parent e' = some l') :
    ∃ e l, σ e = some e' ∧ ρ l = some l' ∧ f.parent e = some l := by
  obtain ⟨e, he⟩ := h.element_source (hasElement_of_parent hp)
  have hparent := h.parent he
  rw [hp, Option.map_some, Option.map_eq_some_iff] at hparent
  obtain ⟨l, hl, hρ⟩ := hparent
  exact ⟨e, l, he, hρ, hl⟩

theorem owner_eq (h : f.Renamed g ρ σ) (ho : g.owner l' = some e') :
    ∃ l e, ρ l = some l' ∧ σ e = some e' ∧ f.owner l = some e := by
  obtain ⟨l, hl⟩ := h.list_source (hasList_of_owner ho)
  have howner := h.owner hl
  rw [ho, Option.map_some, Option.map_eq_some_iff] at howner
  obtain ⟨e, he, hσ⟩ := howner
  exact ⟨l, e, hl, hσ, he⟩

theorem mem_listsOf (h : f.Renamed g ρ σ) (hl : l' ∈ g.listsOf e') :
    ∃ e l, σ e = some e' ∧ ρ l = some l' ∧ l ∈ f.listsOf e := by
  obtain ⟨e, he⟩ := h.element_source (hasElement_of_mem_listsOf hl)
  obtain ⟨l, hmem, hl⟩ := exists_of_mem_right (h.listsOf he) hl
  exact ⟨e, l, he, hl, hmem⟩

/-- Elements stand where they stood. -/
theorem getElem?_elements (h : f.Renamed g ρ σ) (hl : ρ l = some l') (he : σ e = some e') (i : Nat) :
    (g.elements l')[i]? = some e' ↔ (f.elements l)[i]? = some e := by
  have hget := getElem?_of_map (h.elements hl) i
  constructor
  · intro hi
    rw [hi, Option.map_some, Option.map_eq_some_iff] at hget
    obtain ⟨d, hd, hσ⟩ := hget
    rw [hd, h.element_inj hσ he]
  · intro hi
    rw [hi, Option.map_some, he] at hget
    simpa using (Option.map_eq_some_iff.mp hget.symm)

theorem linked (h : f.Renamed g ρ σ) (hf : f.Linked []) : g.Linked [] where
  link e' l' i := by
    constructor
    · intro hi
      obtain ⟨l, hl⟩ := h.list_source (hasList_of_mem (List.mem_of_getElem? hi))
      obtain ⟨e, -, he⟩ := exists_of_mem_right (h.elements hl) (List.mem_of_getElem? hi)
      obtain ⟨hp, hpos⟩ := (hf.link e l i).mp ((h.getElem?_elements hl he i).mp hi)
      have hparent := h.parent he
      rw [hp, Option.map_some, hl] at hparent
      exact ⟨by simpa using Option.map_eq_some_iff.mp hparent.symm, (h.position he).trans hpos⟩
    · rintro ⟨hp, hpos⟩
      obtain ⟨e, l, he, hl, hparent⟩ := h.parent_eq hp
      exact (h.getElem?_elements hl he i).mpr
        ((hf.link e l i).mpr ⟨hparent, (h.position he).symm.trans hpos⟩)
  owned l' e' ho := by
    obtain ⟨l, e, hl, he, howner⟩ := h.owner_eq ho
    obtain ⟨m, hm, hρ⟩ := exists_of_mem_left (h.listsOf he)
      ((hf.owned l e howner).resolve_right List.not_mem_nil)
    rw [hl] at hρ
    cases hρ
    exact .inl hm
  allocated e' l' hl' := by
    obtain ⟨e, l, -, hl, -⟩ := h.mem_listsOf hl'
    exact h.hasList hl
  root_owner := by
    have howner := h.owner h.root
    rw [hf.root_owner, Option.map_none] at howner
    exact Option.map_eq_none_iff.mp howner.symm
  root_hasList := h.hasList h.root

theorem whole (h : f.Renamed g ρ σ) (he : σ e = some e') (hw : f.Whole e) : g.Whole e' where
  owns l' hl' := by
    obtain ⟨l, hmem, hl⟩ := exists_of_mem_right (h.listsOf he) hl'
    have howner := h.owner hl
    rw [hw.owns l hmem, Option.map_some, he] at howner
    simpa using Option.map_eq_some_iff.mp howner.symm
  nodup := by
    have hlists := h.listsOf he
    refine List.Nodup.of_map some (hlists ▸ hw.nodup.map_on ?_)
    intro l hl m _ hlm
    obtain ⟨l', -, hl'⟩ := exists_of_mem_left hlists hl
    exact h.list_inj hl' (hlm ▸ hl')

/-- A tidy formula is tidy under new handles. -/
theorem tidy (h : f.Renamed g ρ σ) (hf : f.Tidy) : g.Tidy where
  toLinked := h.linked hf.toLinked
  whole e' l' hp := by
    obtain ⟨e, l, he, -, hparent⟩ := h.parent_eq hp
    exact h.whole he (hf.whole e l hparent)
  filled e' l' hp := by
    obtain ⟨e, l, he, -, hparent⟩ := h.parent_eq hp
    exact (hf.filled e l hparent).renameLists? (h.element he)

/-- What lies below a renamed list is renamed and lies below its new handle. -/
theorem below (h : f.Renamed g ρ σ) (ha : ρ a = some a') (hn : f.Below n a l) :
    ∃ l', ρ l = some l' ∧ g.Below n a' l' := by
  induction hn with
  | here => exact ⟨a', ha, .here a'⟩
  | inside _ he hi ih =>
    obtain ⟨outer, houter, hb⟩ := ih ha
    obtain ⟨e', he', hσ⟩ := exists_of_mem_left (h.elements houter) he
    obtain ⟨i', hi', hρ⟩ := exists_of_mem_left (h.listsOf hσ) hi
    exact ⟨i', hρ, hb.inside he' hi'⟩

theorem reachable (h : f.Renamed g ρ σ) (hl : f.Reachable l) : ∃ l', ρ l = some l' ∧ g.Reachable l' := by
  obtain ⟨n, hn⟩ := hl
  obtain ⟨l', hl', hb⟩ := h.below h.root hn
  exact ⟨l', hl', n, hb⟩

/-- A place of the formula is a place under new handles. -/
theorem isPlace (h : f.Renamed g ρ σ) (hp : f.IsPlace p) :
    ∃ l', ρ p.list = some l' ∧ g.IsPlace ⟨l', p.pos⟩ := by
  obtain ⟨l', hl', hr⟩ := h.reachable hp.reachable
  exact ⟨l', hl', hr, (h.length hl').symm ▸ hp.le_length⟩

end Renamed

end Formula

end FormulaEditor
