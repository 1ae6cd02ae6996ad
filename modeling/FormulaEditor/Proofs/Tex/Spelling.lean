import FormulaEditor.Proofs.Tex.Layout
import FormulaEditor.Proofs.Tex.RoundTrip

/-!
# Spellings of notation

Some notation can be spelled in more than one way: absolute values with bars, roundings with
corners, both with and without sizing hints, scripts and limits in either order. Each of the lists
in it ends in its own way, and canonical notation has none of the tokens that end them. So all
spellings are read the same.
-/

namespace FormulaEditor.Tex

open Node (EveryNode Legible)

/-- The control word that opens a pair. -/
def Corner.opener : Corner → String
  | floor => "lfloor"
  | ceil => "lceil"

/-- A script behind its mark, in braces. -/
def scriptPieces (mark : Token) (script : List Node) : List Piece :=
  [.token mark, .token .beginGroup, .list script, .token .endGroup]

/-- The pieces in which notation can be spelled. -/
inductive Spelling : List Node → List Piece → Prop
  | group (argument : List Node) :
    Spelling argument [.token .beginGroup, .list argument, .token .endGroup]
  | word (wrap : Wrap) (argument : List Node) : Spelling [.wrapped wrap argument]
    [.token (.command wrap.name), .token .beginGroup, .list argument, .token .endGroup]
  | bars (argument : List Node) : Spelling [.wrapped .abs argument]
    [.token (.char '|'), .list argument, .token (.char '|')]
  | sizedBars (argument : List Node) : Spelling [.wrapped .abs argument]
    [.token (.command "left"), .token (.char '|'), .list argument, .token (.command "right"),
      .token (.char '|')]
  | corners (corner : Corner) (argument : List Node) : Spelling [.wrapped corner.wrap argument]
    [.token (.command corner.opener), .list argument, .token (.command corner.closer)]
  | sizedCorners (corner : Corner) (argument : List Node) :
    Spelling [.wrapped corner.wrap argument]
      [.token (.command "left"), .token (.command corner.opener), .list argument,
        .token (.command "right"), .token (.command corner.closer)]
  | subscriptFirst (exponent subscript : List Node) :
    Spelling [.scripts (some exponent) (some subscript)]
      (scriptPieces .subscript subscript ++ scriptPieces .superscript exponent)
  | exponentFirst (exponent subscript : List Node) :
    Spelling [.scripts (some exponent) (some subscript)]
      (scriptPieces .superscript exponent ++ scriptPieces .subscript subscript)
  | bottomFirst (op : BigOp) (top bottom : List Node) : Spelling [.big op top bottom]
    (.token (.command (bigName op)) ::
      (scriptPieces .subscript bottom ++ scriptPieces .superscript top))
  | topFirst (op : BigOp) (top bottom : List Node) : Spelling [.big op top bottom]
    (.token (.command (bigName op)) ::
      (scriptPieces .superscript top ++ scriptPieces .subscript bottom))

variable {ns more : List Node} {n : Node} {ps : List Piece} {tail closing after rest : List Token}
  {ending : Ending} {k : Nat}

/-! ## Lists -/

/-- The tokens with which a list ends that no brace and no bracket closes. -/
inductive ClosedBy : Ending → List Token → Prop
  | bar : ClosedBy .bar [.char '|']
  | sizedBar : ClosedBy .sizedBar [.command "right", .char '|']
  | corner (c : Corner) : ClosedBy (.corner c) [.command c.closer]
  | sizedCorner (c : Corner) : ClosedBy (.corner c) [.command "right", .command c.closer]

theorem ClosedBy.close? (h : ClosedBy ending closing) (after : List Token) :
    ending.close? k (bare (closing ++ after)) = some (bare after) := by
  cases h with
  | bar | sizedBar => rfl
  | corner c => cases c <;> rfl
  | sizedCorner c => cases c <;> rfl

/-- The tokens with which the end of a list may begin, brackets aside. -/
def endTokens : List Token :=
  [.endGroup, .char '|', .command "right", .command Corner.floor.closer,
    .command Corner.ceil.closer]

/-- A list does not end where none of these tokens stands. -/
theorem close?_eq_none {t : Token} {ts : List Token} (ht : t ∉ endTokens) (he : ending ≠ .bracket) :
    ending.close? k (bare (t :: ts)) = none := by
  have hcloser : ∀ c : Corner, t ≠ .command c.closer := by
    rintro c rfl
    cases c <;> simp [endTokens] at ht
  simp only [endTokens, List.mem_cons, not_or] at ht
  unfold Ending.close?
  split <;> simp_all

/-- No notation begins with a token that ends a list. -/
theorem exists_not_mem_endTokens (hn : n.Legible) :
    ∃ t ts, tokens n = t :: ts ∧ t ∉ endTokens := by
  rcases n with text | op | _ | c | _ | ⟨_ | _, _⟩ | ⟨_ | _, _ | _⟩ | wrap | op
  case atom =>
    obtain ⟨c, rfl, hc⟩ := hn.exists_char
    have hbar := (isAtomChar_ne (isAtomChar_plain hc)).1
    exact ⟨.char (Text.plain c), [], by simp [tokens], by simpa [endTokens] using hbar⟩
  case binary => cases op <;> exact ⟨_, [], rfl, by decide⟩
  case paren =>
    obtain rfl | rfl | rfl | rfl | rfl | rfl := isParen_iff.mp hn <;> exact ⟨_, [], rfl, by decide⟩
  case scripts.none.none => exact absurd hn (by simp [Node.Legible])
  case wrapped => cases wrap <;> exact ⟨_, _, rfl, by decide⟩
  case big => cases op <;> exact ⟨_, _, rfl, by decide⟩
  all_goals exact ⟨_, _, rfl, by decide⟩

theorem follows_congr (h : tail.head? = rest.head?) : Follows n tail ↔ Follows n rest := by
  rcases n with _ | _ | _ | _ | _ | _ | ⟨_ | _, _ | _⟩ | _ | _ <;> simp [Follows, h]

theorem follows_of_head? (h : tail.head? ≠ some .superscript ∧ tail.head? ≠ some .subscript) :
    Follows n tail := by
  rcases n with _ | _ | _ | _ | _ | _ | ⟨_ | _, _ | _⟩ | _ | _ <;> simp [Follows, h]

/-- A node of canonical notation is read from its tokens. -/
theorem Canonical.itemBy (h : Canonical [n]) (hfollows : Follows n tail) :
    ItemBy reading 0 (bare (tokens n ++ tail)) [n] (bare tail) := by
  obtain ⟨⟨hn, hlists⟩, -, -⟩ := canonical_cons.mp h
  exact (itemBy_iff (legible_of_canonical hn) fun l hl => returns (hlists l hl).legible).mpr
    ⟨⟨hn, hlists⟩, hfollows, rfl⟩

/-- After canonical notation, reading goes on with what follows. -/
theorem Canonical.reads_append (h : Canonical ns) (he : ending ≠ .bracket)
    (hlast : ∀ n ∈ ns.getLast?, Follows n tail) (htail : ∀ k, Reads ending k tail more rest) :
    ∀ k, Reads ending k (tokensAll ns ++ tail) (ns ++ more) rest := by
  induction ns with
  | nil => exact htail
  | cons n ns ih =>
    intro k
    obtain ⟨⟨hn, hlists⟩, hapart, hns⟩ := canonical_cons.mp h
    have hn : Canonical [n] := canonical_cons.mpr ⟨⟨hn, hlists⟩, by simp, canonical_nil⟩
    obtain ⟨t, ts, htokens, hends⟩ :=
      exists_not_mem_endTokens (hn.legible.here n List.mem_cons_self)
    have hfollows : Follows n (tokensAll ns ++ tail) := by
      cases ns with
      | nil => exact hlast n rfl
      | cons m ns =>
        have hnext : Follows n (tokensAll (m :: ns) ++ []) :=
          (follows_iff hns.legible (by simp)).mpr hapart
        obtain ⟨t, ts, htokens, -⟩ :=
          exists_not_mem_endTokens (hns.legible.here m List.mem_cons_self)
        refine (follows_congr ?_).mp hnext
        simp [tokensAll, htokens]
    rw [tokensAll, List.append_assoc, reads_iff]
    refine .inr ⟨?_, [n], _, ns ++ more, hn.itemBy hfollows, ih hns (fun m hm => hlast m ?_) _, rfl⟩
    · rw [htokens]
      exact close?_eq_none hends he
    · simp [List.getLast?_cons, Option.mem_def.mp hm]

/-- A list of canonical notation is read up to the tokens that end it. -/
theorem ClosedBy.reading (h : ClosedBy ending closing) (hns : Canonical ns) (after : List Token) :
    reading ending (bare (tokensAll ns ++ (closing ++ after))) ns (bare after) := by
  have he : ending ≠ .bracket := by
    cases h <;> simp
  have hmarks : (closing ++ after).head? ≠ some .superscript ∧
      (closing ++ after).head? ≠ some .subscript := by
    cases h <;> simp
  have hclosed : ∀ k, Reads ending k (closing ++ after) [] after := fun k =>
    reads_iff.mpr (.inl ⟨h.close? after, rfl⟩)
  have hread := hns.reads_append he (fun n _ => follows_of_head? hmarks) hclosed 0
  rw [List.append_nil] at hread
  exact hread

/-! ## Spellings -/

theorem Canonical.of_mem_lists (h : Canonical [n]) {l : List Node} (hl : l ∈ n.lists) :
    Canonical l :=
  (canonical_cons.mp h).1.2 l hl

theorem ofName?_opener (c : Corner) : Command.ofName? c.opener = some (.corner c) := by
  cases c <;> rfl

theorem ofName?_bigName (op : BigOp) : Command.ofName? (bigName op) = some (.big op) := by
  cases op <;> rfl

/-- The tokens of a script. -/
theorem tokens_scriptPieces (mark : Token) (script : List Node) :
    (scriptPieces mark script).flatMap Piece.tokens = mark :: grouped (tokensAll script) := by
  simp [scriptPieces, Piece.tokens, grouped]

/-- A pair of scripts is read with the exponent first. -/
theorem pairBy_exponentFirst {exponent subscript : List Node} (he : Canonical exponent)
    (hs : Canonical subscript) (tail : List Token) :
    PairBy reading (bare ((scriptPieces .superscript exponent ++
        scriptPieces .subscript subscript).flatMap Piece.tokens ++ tail))
      (some exponent) (some subscript) (bare tail) := by
  simp only [List.flatMap_append, tokens_scriptPieces, List.append_assoc]
  exact .exponentFirst ((returns he.legible).scriptBy_iff.mpr ⟨he, rfl⟩)
    ((returns hs.legible).scriptBy_iff.mpr ⟨hs, rfl⟩)

/-- Each spelling of canonical notation is read as that. -/
theorem Spelling.itemBy (h : Spelling ns ps) (hns : Canonical ns) (tail : List Token) :
    ItemBy reading 0 (bare (ps.flatMap Piece.tokens ++ tail)) ns (bare tail) := by
  have hleft : Command.ofName? "left" = some .left := rfl
  cases h with
  | group =>
    have hread := ((returns hns.legible).reading_iff (m := bare tail) (.group tail)).mpr
      ⟨hns, nofun, rfl⟩
    simpa [Piece.tokens] using ItemBy.group hread
  -- In these orders notation is written out.
  | word => simpa [Piece.tokens, tokens, grouped] using @Canonical.itemBy _ tail hns trivial
  | subscriptFirst =>
    simpa [tokens_scriptPieces, tokens] using @Canonical.itemBy _ tail hns trivial
  | bottomFirst =>
    simpa [tokens_scriptPieces, Piece.tokens, tokens] using @Canonical.itemBy _ tail hns trivial
  | bars argument =>
    have hl := hns.of_mem_lists (l := argument) (by simp [Node.lists])
    simpa [Piece.tokens] using ItemBy.bar (ClosedBy.bar.reading hl tail)
  | sizedBars argument =>
    have hl := hns.of_mem_lists (l := argument) (by simp [Node.lists])
    simpa [Piece.tokens] using
      ItemBy.command hleft (.left (.bar (ClosedBy.sizedBar.reading hl tail)))
  | corners corner argument =>
    have hl := hns.of_mem_lists (l := argument) (by simp [Node.lists])
    simpa [Piece.tokens] using
      ItemBy.command (ofName?_opener corner) (.corner ((ClosedBy.corner corner).reading hl tail))
  | sizedCorners corner argument =>
    have hl := hns.of_mem_lists (l := argument) (by simp [Node.lists])
    simpa [Piece.tokens] using ItemBy.command hleft
      (.left (.corner (ofName?_opener corner) ((ClosedBy.sizedCorner corner).reading hl tail)))
  | exponentFirst exponent subscript =>
    have he := hns.of_mem_lists (l := exponent) (by simp [Node.lists])
    have hs := hns.of_mem_lists (l := subscript) (by simp [Node.lists])
    exact .scripts (.inl rfl) (pairBy_exponentFirst he hs tail)
  | topFirst op top bottom =>
    have ht := hns.of_mem_lists (l := top) (by simp [Node.lists])
    have hb := hns.of_mem_lists (l := bottom) (by simp [Node.lists])
    exact .command (ofName?_bigName op) (.big (pairBy_exponentFirst ht hb tail))

theorem proper_command {name : String} (h : name ≠ "" ∧ name.toList.all Char.isAlpha = true) :
    (Piece.token (.command name)).Proper :=
  ⟨h.1, List.all_eq_true.mp h.2⟩

/-- Spellings can be laid out as text. -/
theorem Spelling.proper (h : Spelling ns ps) (hns : Canonical ns) : ∀ p ∈ ps, p.Proper := by
  have hbar : (Piece.token (.char '|')).Proper := ⟨⟨by decide, by decide, by decide⟩, rfl⟩
  have hmarks : (Piece.token .beginGroup).Proper ∧ (Piece.token .endGroup).Proper ∧
      (Piece.token .superscript).Proper ∧ (Piece.token .subscript).Proper :=
    ⟨trivial, trivial, trivial, trivial⟩
  have hsizes : (Piece.token (.command "left")).Proper ∧ (Piece.token (.command "right")).Proper :=
    ⟨proper_command (by decide), proper_command (by decide)⟩
  have hcorner : ∀ c : Corner, (Piece.token (.command c.opener)).Proper ∧
      (Piece.token (.command c.closer)).Proper := fun c => by
    cases c <;> exact ⟨proper_command (by decide), proper_command (by decide)⟩
  have hwrap : ∀ wrap : Wrap, (Piece.token (.command wrap.name)).Proper := fun wrap => by
    cases wrap <;> exact proper_command (by decide)
  have hbig : ∀ op, (Piece.token (.command (bigName op))).Proper := fun op => by
    cases op <;> exact proper_command (by decide)
  cases h with
  | group =>
    have hargument : (Piece.list ns).Proper := hns
    simp [hmarks, hargument]
  | word wrap argument | bars argument | sizedBars argument | corners corner argument
  | sizedCorners corner argument =>
    have hargument : (Piece.list argument).Proper := hns.of_mem_lists (by simp [Node.lists])
    simp [hbar, hmarks, hsizes, hcorner, hwrap, hargument]
  | subscriptFirst exponent subscript | exponentFirst exponent subscript =>
    have hexponent : (Piece.list exponent).Proper := hns.of_mem_lists (by simp [Node.lists])
    have hsubscript : (Piece.list subscript).Proper := hns.of_mem_lists (by simp [Node.lists])
    simp [scriptPieces, hmarks, hexponent, hsubscript]
  | bottomFirst op top bottom | topFirst op top bottom =>
    have htop : (Piece.list top).Proper := hns.of_mem_lists (by simp [Node.lists])
    have hbottom : (Piece.list bottom).Proper := hns.of_mem_lists (by simp [Node.lists])
    simp [scriptPieces, hmarks, hbig, htop, hbottom]

/-- Between canonical notation, each spelling of a construct is read as the construct, however the
pieces are laid out. A list in braces is read as if there were no braces. -/
theorem read_spelling {front back : List Node} {text : String} (hfront : Canonical front)
    (hns : Canonical ns) (hback : Canonical back)
    (hlast : ∀ n ∈ front.getLast?, n.kind.isScripts = false) (h : Spelling ns ps)
    (htext : Laid (.list front :: (ps ++ [.list back])) text.toList) :
    read text = .ok (front ++ ns ++ back) := by
  have hproper : ∀ p ∈ Piece.list front :: (ps ++ [.list back]), p.Proper := by
    intro p hp
    simp only [List.mem_cons, List.mem_append, List.not_mem_nil, or_false] at hp
    obtain rfl | hp | rfl := hp
    · exact hfront
    · exact h.proper hns p hp
    · exact hback
  have hitem := h.itemBy hns (tokensAll back)
  have hopen : ∀ k,
      Ending.input.close? k (bare (ps.flatMap Piece.tokens ++ tokensAll back)) = none := by
    intro k
    cases hts : ps.flatMap Piece.tokens ++ tokensAll back with
    | nil =>
      rw [hts] at hitem
      cases hitem
    | cons t ts => rfl
  have hrest : ∀ k, Reads .input k (tokensAll back) back [] := fun k => by
    have hread : Reads .input k (tokensAll back ++ []) back [] :=
      ((returns hback.legible).reads_iff .input).mpr ⟨hback, nofun, rfl⟩
    rwa [List.append_nil] at hread
  have hmore : ∀ k, Reads .input k (ps.flatMap Piece.tokens ++ tokensAll back) (ns ++ back) [] :=
    fun k => reads_iff.mpr (.inr ⟨hopen k, ns, _, back, hitem, hrest _, rfl⟩)
  have hfollows : ∀ n ∈ front.getLast?, ∀ tail, Follows n tail := by
    intro n hn tail
    have hscripts := hlast n hn
    cases n with
    | scripts => cases hscripts
    | _ => trivial
  rw [htext.read_iff hproper]
  simpa [Piece.tokens] using
    hfront.reads_append (by simp) (fun n hn => hfollows n hn _) hmore 0

/-- A rounding between corners with sizing hints, around the sum of two symbols. -/
theorem read_spelling_corners : ∃ ps,
    Canonical [.atom "x"] ∧ Canonical [.wrapped .floor [.atom "y", .binary .plus, .atom "z"]] ∧
      Canonical [.scripts (some [.atom "2"]) none] ∧
      Spelling [.wrapped .floor [.atom "y", .binary .plus, .atom "z"]] ps ∧
      Laid (.list [.atom "x"] :: (ps ++ [.list [.scripts (some [.atom "2"]) none]]))
        "x \\left \\lfloor y+z \\right \\rfloor ^\x7b2\x7d".toList ∧
      read "x \\left \\lfloor y+z \\right \\rfloor ^\x7b2\x7d" =
        .ok [.atom "x", .wrapped .floor [.atom "y", .binary .plus, .atom "z"],
          .scripts (some [.atom "2"]) none] := by
  have hatoms : (Node.atom "x").Canonical ∧ (Node.atom "y").Canonical ∧
      (Node.atom "z").Canonical ∧ (Node.atom "2").Canonical :=
    ⟨⟨'x', rfl, by decide +kernel⟩, ⟨'y', rfl, by decide +kernel⟩, ⟨'z', rfl, by decide +kernel⟩,
      ⟨'2', rfl, by decide +kernel⟩⟩
  have hnodes : (∀ op, (Node.binary op).Canonical) ∧ (∀ wrap l, (Node.wrapped wrap l).Canonical) ∧
      ∀ l, (Node.scripts (some l) none).Canonical :=
    ⟨fun _ => trivial, fun _ _ => trivial, fun _ => trivial⟩
  have hx : Canonical [.atom "x"] := by simp [canonical_cons, canonical_nil, Node.lists, hatoms]
  have hfloor : Canonical [.wrapped .floor [.atom "y", .binary .plus, .atom "z"]] := by
    simp [canonical_cons, canonical_nil, Node.lists, Node.Apart, hatoms, hnodes]
  have hsquare : Canonical [.scripts (some [.atom "2"]) none] := by
    simp [canonical_cons, canonical_nil, Node.lists, hatoms, hnodes]
  have hspelling : Spelling [.wrapped .floor [.atom "y", .binary .plus, .atom "z"]] _ :=
    .sizedCorners .floor [.atom "y", .binary .plus, .atom "z"]
  have hjoined : List.intercalate [' '] ([.list [.atom "x"], .token (.command "left"),
      .token (.command "lfloor"), .list [.atom "y", .binary .plus, .atom "z"],
      .token (.command "right"), .token (.command "rfloor"),
      .list [.scripts (some [.atom "2"]) none]].map Piece.chars) =
        "x \\left \\lfloor y+z \\right \\rfloor ^\x7b2\x7d".toList := by
    decide +kernel
  have hlaid := hjoined ▸ laid_intercalate _
  exact ⟨_, hx, hfloor, hsquare, hspelling, hlaid,
    read_spelling hx hfloor hsquare (by simp [Node.kind, Kind.isScripts]) hspelling hlaid⟩

end FormulaEditor.Tex
