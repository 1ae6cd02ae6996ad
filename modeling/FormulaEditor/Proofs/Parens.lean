import FormulaEditor.Proofs.Balance
import Mathlib.Tactic.ByContra

/-!
# Which parens belong together

Two parens belong together when the parens strictly between them are balanced. The scan finds these
pairs with a stack alone: behind any beginning of a list, an opening paren lies under `d` others
just if the beginning leaves `d` parens open behind it.
-/

namespace FormulaEditor.ParenMatches

variable {kinds before rest : List Kind} {kind : Kind} {opened : List Nat}
  {d i i' j j' k o : Nat} {found : ParenMatch}

/-! ## Pairs of parens -/

/-- An opening paren stands at the index. -/
def OpensAt (kinds : List Kind) (i : Nat) : Prop :=
  ∃ kind, kinds[i]? = some kind ∧ kind.isLeftParen = true

/-- A closing paren stands at the index. -/
def ClosesAt (kinds : List Kind) (i : Nat) : Prop :=
  ∃ kind, kinds[i]? = some kind ∧ kind.isRightParen = true

/-- As many parens close as open, and no beginning closes more than it opens. -/
def InBalance (kinds : List Kind) : Prop :=
  kinds.countP Kind.isLeftParen = kinds.countP Kind.isRightParen ∧
    ∀ p, p <+: kinds → p.countP Kind.isRightParen ≤ p.countP Kind.isLeftParen

/-- What stands strictly between two indices. -/
def between (kinds : List Kind) (i j : Nat) : List Kind :=
  (kinds.take j).drop (i + 1)

/-- An opening and a closing paren that belong together. -/
structure Pair (kinds : List Kind) (i j : Nat) : Prop where
  lt : i < j
  opens : OpensAt kinds i
  closes : ClosesAt kinds j
  inBalance : InBalance (between kinds i j)

theorem isRightParen_of_isLeftParen (h : kind.isLeftParen = true) : kind.isRightParen = false := by
  cases kind with
  | paren c =>
    have hc : isLeftParen c = true := h
    simp [Kind.isRightParen, hc]
  | _ => rfl

theorem isLeftParen_of_isRightParen (h : kind.isRightParen = true) : kind.isLeftParen = false := by
  by_contra hleft
  rw [isRightParen_of_isLeftParen (by simpa using hleft)] at h
  cases h

theorem OpensAt.lt_length (h : OpensAt kinds i) : i < kinds.length := by
  obtain ⟨kind, hkind, -⟩ := h
  exact (List.getElem?_eq_some_iff.mp hkind).1

theorem ClosesAt.lt_length (h : ClosesAt kinds i) : i < kinds.length := by
  obtain ⟨kind, hkind, -⟩ := h
  exact (List.getElem?_eq_some_iff.mp hkind).1

/-- How many parens are open behind a list, if `k` are open before it. -/
def openBehind (k : Nat) (kinds : List Kind) : Option Nat :=
  openAfter Kind.isLeftParen Kind.isRightParen k kinds

theorem openBehind_append : openBehind k (before ++ rest) =
    (openBehind k before).bind fun d => openBehind d rest :=
  openAfter_append

theorem openBehind_left (h : kind.isLeftParen = true) (k : Nat) (kinds : List Kind) :
    openBehind k (kind :: kinds) = openBehind (k + 1) kinds := by
  rw [openBehind, openAfter, if_pos h, openBehind]

theorem openBehind_right (h : kind.isRightParen = true) (k : Nat) (kinds : List Kind) :
    openBehind k (kind :: kinds) = if k = 0 then none else openBehind (k - 1) kinds := by
  rw [openBehind, openAfter, isLeftParen_of_isRightParen h, if_neg Bool.false_ne_true, if_pos h,
    openBehind]

theorem openBehind_other (hl : ¬kind.isLeftParen = true) (hr : ¬kind.isRightParen = true)
    (k : Nat) (kinds : List Kind) : openBehind k (kind :: kinds) = openBehind k kinds := by
  rw [openBehind, openAfter, if_neg hl, if_neg hr, openBehind]

theorem inBalance_iff : InBalance kinds ↔ openBehind 0 kinds = some 0 := by
  rw [openBehind, openAfter_eq_some_iff_countP fun kind => isRightParen_of_isLeftParen]
  simp [InBalance]

theorem drop_split (hi : i < j) (hkind : kinds[j]? = some kind) :
    kinds.drop (i + 1) = between kinds i j ++ kind :: kinds.drop (j + 1) := by
  obtain ⟨hlt, hget⟩ := List.getElem?_eq_some_iff.mp hkind
  have hdrop : kinds.drop j = kind :: kinds.drop (j + 1) := by
    rw [List.drop_eq_getElem_cons hlt, hget]
  have htake := List.take_append_drop (j - (i + 1)) (kinds.drop (i + 1))
  rw [List.drop_drop, Nat.add_sub_cancel' hi, hdrop, ← List.drop_take] at htake
  exact htake.symm

theorem between_split (hi : i < i') (hj : i' < j) (hkind : kinds[i']? = some kind) :
    between kinds i j = between kinds i i' ++ kind :: between kinds i' j := by
  have hkind' : (kinds.take j)[i']? = some kind := by
    rw [List.getElem?_take_of_lt hj, hkind]
  have hsplit := drop_split hi hkind'
  rw [between, List.take_take, Nat.min_eq_left (Nat.le_of_lt hj)] at hsplit
  exact hsplit

namespace Pair

/-- Behind a paren opened inside a pair, more closes than opens before the pair ends. -/
theorem openBehind_inside (h : Pair kinds i j) (hi : i < i') (hj : i' < j)
    (hopens : OpensAt kinds i') : openBehind 0 (between kinds i' j) = none := by
  obtain ⟨kind, hkind, hleft⟩ := hopens
  have hwhole := inBalance_iff.mp h.inBalance
  rw [between_split hi hj hkind, openBehind_append] at hwhole
  obtain ⟨k, -, hrest⟩ := Option.bind_eq_some_iff.mp hwhole
  rw [openBehind_left hleft] at hrest
  cases hinner : openBehind 0 (between kinds i' j) with
  | none => rfl
  | some b =>
    have hmore : openBehind (0 + (k + 1)) (between kinds i' j) = some (b + (k + 1)) :=
      openAfter_add hinner (k + 1)
    rw [Nat.zero_add, hrest, Option.some.injEq] at hmore
    omega

/-- The paren that ends a pair was not opened behind the beginning of the pair. -/
theorem openBehind_beyond (h : Pair kinds i j) (hj : j < j') :
    openBehind 0 (between kinds i j') = none := by
  obtain ⟨kind, hkind, hright⟩ := h.closes
  rw [between_split h.lt hj hkind, openBehind_append, inBalance_iff.mp h.inBalance,
    Option.bind_some, openBehind_right hright, if_pos rfl]

/-- A closing paren belongs to one opening paren only. -/
theorem opener_unique (h : Pair kinds i j) (h' : Pair kinds i' j) : i = i' := by
  have hnot : ∀ {i i'}, Pair kinds i j → Pair kinds i' j → ¬i < i' := by
    intro i i' h h' hlt
    have hnone := h.openBehind_inside hlt h'.lt h'.opens
    rw [inBalance_iff.mp h'.inBalance] at hnone
    cases hnone
  exact Nat.le_antisymm (Nat.le_of_not_lt (hnot h' h)) (Nat.le_of_not_lt (hnot h h'))

/-- An opening paren belongs to one closing paren only. -/
theorem closer_unique (h : Pair kinds i j) (h' : Pair kinds i j') : j = j' := by
  have hnot : ∀ {j j'}, Pair kinds i j → Pair kinds i j' → ¬j < j' := by
    intro j j' h h' hlt
    have hnone := h.openBehind_beyond hlt
    rw [inBalance_iff.mp h'.inBalance] at hnone
    cases hnone
  exact Nat.le_antisymm (Nat.le_of_not_lt (hnot h' h)) (Nat.le_of_not_lt (hnot h h'))

/-- A pair that begins inside another one ends inside it. -/
theorem not_crossing (h : Pair kinds i j) (h' : Pair kinds i' j') (hi : i < i') (hj : i' < j) :
    j' < j := by
  by_contra hge
  obtain rfl | hlt := Nat.eq_or_lt_of_le (Nat.le_of_not_lt hge)
  · exact absurd (h.opener_unique h') (Nat.ne_of_lt hi)
  · obtain ⟨kind, hkind, -⟩ := h.closes
    have hinner := inBalance_iff.mp h'.inBalance
    rw [between_split hj hlt hkind, openBehind_append, h.openBehind_inside hi hj h'.opens] at hinner
    cases hinner

end Pair

/-- An opening paren belongs to none just if what follows it leaves it open. -/
theorem no_pair_iff (h : OpensAt kinds i) :
    (∀ j, ¬Pair kinds i j) ↔ ∃ d, openBehind 0 (kinds.drop (i + 1)) = some d := by
  constructor
  · intro hno
    by_contra hnone
    have hnone : openBehind 0 (kinds.drop (i + 1)) = none := by
      simpa [Option.eq_none_iff_forall_not_mem] using hnone
    obtain ⟨inner, kind, rest, hrest, hinner, -, hright⟩ := exists_of_openAfter_eq_none hnone
    have hkinds : kinds = kinds.take (i + 1) ++ (inner ++ kind :: rest) := by
      rw [← hrest, List.take_append_drop]
    have hlength : (kinds.take (i + 1)).length = i + 1 := by
      have := h.lt_length
      rw [List.length_take]
      omega
    refine hno (i + 1 + inner.length) ⟨by omega, h, ⟨kind, ?_, hright⟩, inBalance_iff.mpr ?_⟩
    · rw [hkinds, List.getElem?_append_right (by omega), hlength, Nat.add_sub_cancel_left]
      simp
    · have hbetween : between kinds i (i + 1 + inner.length) = inner := by
        rw [between, List.drop_take, hrest, Nat.add_sub_cancel_left, List.take_left]
      rw [hbetween]
      exact hinner
  · rintro ⟨d, hd⟩ j hpair
    obtain ⟨kind, hkind, hright⟩ := hpair.closes
    rw [drop_split hpair.lt hkind, openBehind_append, inBalance_iff.mp hpair.inBalance,
      Option.bind_some, openBehind_right hright, if_pos rfl] at hd
    cases hd

/-! ## The stack -/

/-- The stack behind a beginning of a list: an opening paren lies under `d` others just if the
beginning leaves `d` parens open behind it. -/
def Stacked (before : List Kind) (opened : List Nat) : Prop :=
  ∀ o d, opened[d]? = some o ↔
    OpensAt before o ∧ openBehind 0 (before.drop (o + 1)) = some d

theorem stacked_nil : Stacked [] [] := by
  simp [Stacked, OpensAt]

theorem opensAt_concat : OpensAt (before ++ [kind]) o ↔
    OpensAt before o ∨ o = before.length ∧ kind.isLeftParen = true := by
  unfold OpensAt
  rcases Nat.lt_trichotomy o before.length with hlt | rfl | hgt
  · simp [List.getElem?_append_left hlt, Nat.ne_of_lt hlt]
  · simp
  · have hlong : (before ++ [kind]).length ≤ o := by simpa using Nat.succ_le_of_lt hgt
    simp [List.getElem?_eq_none hlong, List.getElem?_eq_none (Nat.le_of_lt hgt), Nat.ne_of_gt hgt]

/-- What one more element leaves of the stack. -/
theorem Stacked.concat_iff (h : Stacked before opened) :
    OpensAt (before ++ [kind]) o ∧ openBehind 0 ((before ++ [kind]).drop (o + 1)) = some d ↔
      (∃ k, opened[k]? = some o ∧ openBehind k [kind] = some d) ∨
        o = before.length ∧ kind.isLeftParen = true ∧ d = 0 := by
  have hbefore : OpensAt before o →
      openBehind 0 ((before ++ [kind]).drop (o + 1)) =
        (openBehind 0 (before.drop (o + 1))).bind fun k => openBehind k [kind] := by
    intro hopens
    rw [List.drop_append_of_le_length hopens.lt_length, openBehind_append]
  have hbehind : openBehind 0 ((before ++ [kind]).drop (before.length + 1)) = some 0 := by
    rw [List.drop_eq_nil_of_le (by simp)]
    rfl
  rw [opensAt_concat]
  constructor
  · rintro ⟨hopens | ⟨rfl, hleft⟩, hd⟩
    · rw [hbefore hopens] at hd
      obtain ⟨k, hk, hd⟩ := Option.bind_eq_some_iff.mp hd
      exact .inl ⟨k, (h o k).mpr ⟨hopens, hk⟩, hd⟩
    · rw [hbehind, Option.some.injEq] at hd
      exact .inr ⟨rfl, hleft, hd.symm⟩
  · rintro (⟨k, hk, hd⟩ | ⟨rfl, hleft, rfl⟩)
    · obtain ⟨hopens, hk⟩ := (h o k).mp hk
      refine ⟨.inl hopens, ?_⟩
      rw [hbefore hopens, hk, Option.bind_some, hd]
    · exact ⟨.inr ⟨rfl, hleft⟩, hbehind⟩

theorem Stacked.push (h : Stacked before opened) (hleft : kind.isLeftParen = true) :
    Stacked (before ++ [kind]) (before.length :: opened) := by
  intro o d
  have hstep : ∀ k, openBehind k [kind] = some d ↔ k + 1 = d := fun k => by
    rw [openBehind_left hleft]
    exact Option.some_inj
  rw [h.concat_iff]
  cases d with
  | zero => simp [hstep, hleft, eq_comm]
  | succ d => simp [hstep]

theorem Stacked.pop (h : Stacked before opened) (hright : kind.isRightParen = true) :
    Stacked (before ++ [kind]) opened.tail := by
  intro o d
  have hstep : ∀ k, openBehind k [kind] = some d ↔ k = d + 1 := fun k => by
    rw [openBehind_right hright]
    cases k with
    | zero => simp
    | succ k => simp [openBehind, openAfter]
  rw [h.concat_iff]
  simp [hstep, isLeftParen_of_isRightParen hright]

theorem Stacked.keep (h : Stacked before opened) (hl : ¬kind.isLeftParen = true)
    (hr : ¬kind.isRightParen = true) : Stacked (before ++ [kind]) opened := by
  intro o d
  have hstep : ∀ k, openBehind k [kind] = some d ↔ k = d := fun k => by
    rw [openBehind_other hl hr]
    exact Option.some_inj
  rw [h.concat_iff]
  simp [hstep, hl]

/-! ## The scan -/

/-- What a closing paren without a partner is sized to: the element before it, if there is one. -/
def loneMatch (j : Nat) : ParenMatch :=
  if j = 0 then .unmatched else .ambient (j - 1)

/-- What the closing paren at an index is matched with. -/
inductive Matched (kinds : List Kind) (j : Nat) : ParenMatch → Prop
  | paren {i : Nat} (h : Pair kinds i j) : Matched kinds j (.paren i)
  | lone (hcloses : ClosesAt kinds j) (hno : ∀ i, ¬Pair kinds i j) :
    Matched kinds j (loneMatch j)

theorem Matched.closesAt (h : Matched kinds j found) : ClosesAt kinds j := by
  cases h with
  | paren h => exact h.closes
  | lone hcloses => exact hcloses

/-- A closing paren is matched in one way only. -/
theorem Matched.unique {found' : ParenMatch} (h : Matched kinds j found)
    (h' : Matched kinds j found') : found = found' := by
  cases h with
  | paren h =>
    cases h' with
    | paren h' => rw [h.opener_unique h']
    | lone _ hno => exact absurd h (hno _)
  | lone _ hno =>
    cases h' with
    | paren h' => exact absurd h' (hno _)
    | lone => rfl

/-- The paren on top of the stack is the one that the next closing paren belongs to. -/
theorem Stacked.pair_iff (h : Stacked before opened) (hright : kind.isRightParen = true) :
    Pair (before ++ kind :: rest) i before.length ↔ opened[0]? = some i := by
  have hbetween : between (before ++ kind :: rest) i before.length = before.drop (i + 1) := by
    rw [between, List.take_left]
  have hopens : i < before.length → (OpensAt (before ++ kind :: rest) i ↔ OpensAt before i) :=
    fun hlt => by rw [OpensAt, OpensAt, List.getElem?_append_left hlt]
  have hcloses : ClosesAt (before ++ kind :: rest) before.length := ⟨kind, by simp, hright⟩
  rw [h i 0]
  constructor
  · intro hpair
    refine ⟨(hopens hpair.lt).mp hpair.opens, ?_⟩
    rw [← hbetween, ← inBalance_iff]
    exact hpair.inBalance
  · rintro ⟨ho, hinner⟩
    refine ⟨ho.lt_length, (hopens ho.lt_length).mpr ho, hcloses, ?_⟩
    rw [hbetween, inBalance_iff]
    exact hinner

theorem Stacked.matched (h : Stacked before opened) (hright : kind.isRightParen = true)
    (rest : List Kind) : Matched (before ++ kind :: rest) before.length
      (opened.head?.elim (loneMatch before.length) .paren) := by
  cases opened with
  | nil =>
    refine .lone ⟨kind, by simp, hright⟩ fun i hpair => ?_
    have := (h.pair_iff hright).mp hpair
    cases this
  | cons o opened => exact .paren ((h.pair_iff hright).mpr rfl)

theorem scan_left (hleft : kind.isLeftParen = true) (i : Nat) (opened : List Nat) :
    scan i opened (kind :: rest) = scan (i + 1) (i :: opened) rest := by
  conv_lhs => unfold scan
  rw [if_pos hleft]

theorem scan_right (hright : kind.isRightParen = true) (i : Nat) (opened : List Nat) :
    scan i opened (kind :: rest) =
      ⟨(i, opened.head?.elim (loneMatch i) .paren) :: (scan (i + 1) opened.tail rest).closing,
        (scan (i + 1) opened.tail rest).unclosed⟩ := by
  conv_lhs => unfold scan
  rw [isLeftParen_of_isRightParen hright, if_neg Bool.false_ne_true, if_pos hright]
  cases opened <;> rfl

theorem scan_other (hl : ¬kind.isLeftParen = true) (hr : ¬kind.isRightParen = true) (i : Nat)
    (opened : List Nat) : scan i opened (kind :: rest) = scan (i + 1) opened rest := by
  conv_lhs => unfold scan
  rw [if_neg hl, if_neg hr]

/-- The scan matches the closing parens from where it stands on, and leaves open what the stack
holds in the end. -/
theorem scan_matches (h : Stacked before opened) (rest : List Kind) :
    (∀ j found, (j, found) ∈ (scan before.length opened rest).closing ↔
      before.length ≤ j ∧ Matched (before ++ rest) j found) ∧
    ∃ final, Stacked (before ++ rest) final ∧
      (scan before.length opened rest).unclosed = final.reverse := by
  induction rest generalizing before opened with
  | nil =>
    refine ⟨fun j found => ?_, opened, by simpa using h, rfl⟩
    simp only [scan, List.not_mem_nil, List.append_nil, false_iff, not_and]
    intro hle hmatched
    have := hmatched.closesAt.lt_length
    omega
  | cons kind rest ih =>
    have hwhole : before ++ kind :: rest = before ++ [kind] ++ rest := by simp
    have hlength : before.length + 1 = (before ++ [kind]).length := by simp
    -- Without a closing paren here, nothing is matched here.
    have hpass : ¬kind.isRightParen = true → ∀ j found,
        (before.length + 1 ≤ j ∧ Matched (before ++ kind :: rest) j found ↔
          before.length ≤ j ∧ Matched (before ++ kind :: rest) j found) := by
      intro hr j found
      refine and_congr_left fun hm => ⟨Nat.le_of_succ_le, fun hle => Nat.lt_of_le_of_ne hle ?_⟩
      rintro rfl
      obtain ⟨kind', hkind, hright⟩ := hm.closesAt
      have hsame : kind = kind' := by simpa using hkind
      exact hr (hsame ▸ hright)
    by_cases hl : kind.isLeftParen = true
    · obtain ⟨hclosing, hunclosed⟩ := ih (h.push hl)
      rw [← hlength, ← hwhole] at hclosing hunclosed
      have hr : ¬kind.isRightParen = true := by simp [isRightParen_of_isLeftParen hl]
      rw [scan_left hl]
      exact ⟨fun j found => (hclosing j found).trans (hpass hr j found), hunclosed⟩
    · by_cases hr : kind.isRightParen = true
      · obtain ⟨hclosing, hunclosed⟩ := ih (h.pop hr)
        rw [← hlength, ← hwhole] at hclosing hunclosed
        have hhere := h.matched hr rest
        rw [scan_right hr]
        refine ⟨fun j found => ?_, hunclosed⟩
        rw [List.mem_cons, hclosing]
        constructor
        · rintro (heq | ⟨hle, hm⟩)
          · cases heq
            exact ⟨Nat.le_refl _, hhere⟩
          · exact ⟨Nat.le_of_succ_le hle, hm⟩
        · rintro ⟨hle, hm⟩
          obtain rfl | hlt := Nat.eq_or_lt_of_le hle
          · exact .inl (by rw [hm.unique hhere])
          · exact .inr ⟨hlt, hm⟩
      · obtain ⟨hclosing, hunclosed⟩ := ih (h.keep hl hr)
        rw [← hlength, ← hwhole] at hclosing hunclosed
        rw [scan_other hl hr]
        exact ⟨fun j found => (hclosing j found).trans (hpass hr j found), hunclosed⟩

/-! ## The matching of a list -/

theorem mem_closing_iff : (j, found) ∈ (of kinds).closing ↔ Matched kinds j found := by
  have h := (scan_matches stacked_nil kinds).1 j found
  simpa [of] using h

theorem get?_eq_some_iff : (of kinds).get? j = some found ↔ Matched kinds j found := by
  rw [← mem_closing_iff, get?]
  constructor
  · intro h
    obtain ⟨before, behind, hsplit, -⟩ := List.lookup_eq_some_iff.mp h
    simp [hsplit]
  · intro h
    cases hlookup : (of kinds).closing.lookup j with
    | none =>
      have := List.lookup_eq_none_iff.mp hlookup _ h
      simp at this
    | some found' =>
      obtain ⟨before, behind, hsplit, -⟩ := List.lookup_eq_some_iff.mp hlookup
      have hmem : (j, found') ∈ (of kinds).closing := by simp [hsplit]
      rw [(mem_closing_iff.mp h).unique (mem_closing_iff.mp hmem)]

theorem get?_paren_iff : (of kinds).get? j = some (.paren i) ↔ Pair kinds i j := by
  rw [get?_eq_some_iff]
  constructor
  · intro h
    generalize hfound : ParenMatch.paren i = found at h
    cases h with
    | paren h =>
      cases hfound
      exact h
    | lone =>
      unfold loneMatch at hfound
      split at hfound <;> cases hfound
  · exact .paren

theorem closerOf?_iff : (of kinds).closerOf? i = some j ↔ Pair kinds i j := by
  rw [closerOf?, Option.map_eq_some_iff]
  constructor
  · rintro ⟨⟨j', found⟩, hfind, rfl⟩
    obtain rfl : found = .paren i := by simpa using List.find?_some hfind
    exact get?_paren_iff.mp
      (get?_eq_some_iff.mpr (mem_closing_iff.mp (List.mem_of_find?_eq_some hfind)))
  · intro h
    have hmem : (j, ParenMatch.paren i) ∈ (of kinds).closing := mem_closing_iff.mpr (.paren h)
    cases hfind : (of kinds).closing.find? fun entry => entry.2 = .paren i with
    | none => simpa using List.find?_eq_none.mp hfind _ hmem
    | some entry =>
      obtain ⟨j', found⟩ := entry
      obtain rfl : found = .paren i := by simpa using List.find?_some hfind
      have h' := get?_paren_iff.mp
        (get?_eq_some_iff.mpr (mem_closing_iff.mp (List.mem_of_find?_eq_some hfind)))
      exact ⟨_, rfl, h'.closer_unique h⟩

/-- The stack grows by elements further back. -/
theorem Stacked.pairwise (h : Stacked before opened) : opened.Pairwise (· > ·) := by
  rw [List.pairwise_iff_getElem]
  intro d d' hd hd' hlt
  obtain ⟨-, hbehind⟩ := (h opened[d] d).mp (List.getElem?_eq_getElem hd)
  obtain ⟨⟨kind, hkind, hleft⟩, hbehind'⟩ := (h opened[d'] d').mp (List.getElem?_eq_getElem hd')
  by_contra hnot
  obtain heq | hbefore := Nat.eq_or_lt_of_le (Nat.le_of_not_lt hnot)
  · rw [heq, hbehind', Option.some.injEq] at hbehind
    omega
  · rw [drop_split hbefore hkind, openBehind_append] at hbehind
    obtain ⟨k, -, hrest⟩ := Option.bind_eq_some_iff.mp hbehind
    have hmore : openBehind (0 + (k + 1)) (before.drop (opened[d'] + 1)) = some (d' + (k + 1)) :=
      openAfter_add hbehind' (k + 1)
    rw [openBehind_left hleft, ← Nat.zero_add (k + 1), hmore, Option.some.injEq] at hrest
    omega

/-- The unclosed parens are those that the stack holds in the end. -/
theorem exists_stacked (kinds : List Kind) :
    ∃ final, Stacked kinds final ∧ (of kinds).unclosed = final.reverse := by
  simpa [of] using (scan_matches stacked_nil kinds).2

/-- The opening parens without a partner are listed in order. -/
theorem unclosed_sorted : (of kinds).unclosed.Pairwise (· < ·) := by
  obtain ⟨final, hfinal, hunclosed⟩ := exists_stacked kinds
  rw [hunclosed, List.pairwise_reverse]
  exact hfinal.pairwise

theorem mem_unclosed_iff : i ∈ (of kinds).unclosed ↔ OpensAt kinds i ∧ ∀ j, ¬Pair kinds i j := by
  obtain ⟨final, hfinal, hunclosed⟩ := exists_stacked kinds
  rw [hunclosed, List.mem_reverse, List.mem_iff_getElem?]
  constructor
  · rintro ⟨d, hd⟩
    obtain ⟨hopens, hbehind⟩ := (hfinal i d).mp hd
    exact ⟨hopens, (no_pair_iff hopens).mpr ⟨d, hbehind⟩⟩
  · rintro ⟨hopens, hno⟩
    obtain ⟨d, hbehind⟩ := (no_pair_iff hopens).mp hno
    exact ⟨d, (hfinal i d).mpr ⟨hopens, hbehind⟩⟩

/-- In a list of any kinds, a closing paren is matched with the opening paren before it that has
balanced parens in between, whatever their shapes. No paren has two partners, and pairs do not
cross. Opening parens without a partner are the unclosed ones, in order, and a closing paren without
one falls back to the element before it. The list is balanced just if all parens have partners. -/
theorem of_matches_pairs (kinds : List Kind) :
    (∀ i j, (of kinds).get? j = some (.paren i) ↔
      i < j ∧ OpensAt kinds i ∧ ClosesAt kinds j ∧ InBalance (between kinds i j)) ∧
    (∀ i j, (of kinds).closerOf? i = some j ↔ (of kinds).get? j = some (.paren i)) ∧
    (∀ i j j', (of kinds).get? j = some (.paren i) → (of kinds).get? j' = some (.paren i) →
      j = j') ∧
    (∀ i i' j j', (of kinds).get? j = some (.paren i) → (of kinds).get? j' = some (.paren i') →
      i < i' → i' < j → j' < j) ∧
    (of kinds).unclosed.Pairwise (· < ·) ∧
    (∀ i, i ∈ (of kinds).unclosed ↔
      OpensAt kinds i ∧ ∀ j, (of kinds).get? j ≠ some (.paren i)) ∧
    (∀ j, ClosesAt kinds j → (∀ i, (of kinds).get? j ≠ some (.paren i)) →
      (of kinds).get? j = some (if j = 0 then .unmatched else .ambient (j - 1))) ∧
    (∀ j, ¬ClosesAt kinds j → (of kinds).get? j = none) ∧
    ((of kinds).isBalanced = true ↔ InBalance kinds) := by
  have hbalanced : (of kinds).isBalanced = true ↔ InBalance kinds := by
    rw [of, isBalanced_scan_iff, inBalance_iff]
    rfl
  simp only [ne_eq, get?_paren_iff, closerOf?_iff]
  refine ⟨fun i j => ?_, fun _ _ => trivial, fun i j j' h h' => h.closer_unique h',
    fun i i' j j' h h' hi hj => h.not_crossing h' hi hj, unclosed_sorted,
    fun i => mem_unclosed_iff, fun j hcloses hno => ?_, fun j hcloses => ?_, hbalanced⟩
  · exact ⟨fun h => ⟨h.lt, h.opens, h.closes, h.inBalance⟩,
      fun ⟨hlt, hopens, hcloses, hbalance⟩ => ⟨hlt, hopens, hcloses, hbalance⟩⟩
  · exact get?_eq_some_iff.mpr (.lone hcloses hno)
  · rw [Option.eq_none_iff_forall_ne_some]
    intro found hfound
    exact hcloses (get?_eq_some_iff.mp hfound).closesAt

/-- In `)x(a[b)` the last paren closes the bracket, and the first one has nothing to close and
nothing before it. -/
theorem of_matches_pairs_mixed :
    let kinds : List Kind := [.paren ')', .atom "x", .paren '(', .atom "a", .paren '[', .atom "b",
      .paren ')']
    (of kinds).get? 6 = some (.paren 4) ∧ (of kinds).closerOf? 4 = some 6 ∧
      (of kinds).get? 0 = some .unmatched ∧ (of kinds).isBalanced ≠ true := by
  intro kinds
  obtain ⟨hpair, hcloser, -, -, -, -, hlone, -, hbalanced⟩ := of_matches_pairs kinds
  have hinner : (of kinds).get? 6 = some (.paren 4) := (hpair 4 6).mpr
    ⟨by decide, ⟨_, rfl, rfl⟩, ⟨_, rfl, rfl⟩, inBalance_iff.mpr rfl⟩
  refine ⟨hinner, (hcloser 4 6).mpr hinner, hlone 0 ⟨_, rfl, rfl⟩ fun i hi => ?_, fun h => ?_⟩
  · have := ((hpair i 0).mp hi).1
    omega
  · have hopen : openBehind 0 kinds = none := rfl
    rw [inBalance_iff.mp (hbalanced.mp h)] at hopen
    cases hopen

end FormulaEditor.ParenMatches
