import FormulaEditor.Parens

/-!
# Balance

Whether what opens is closed again, in a list of anything. Characters of a text, parens of a formula
and brackets of an index are all counted in this way. Of texts it is enough to know how many parens
they leave open, so what is known of pieces of a text tells about the whole.
-/

namespace FormulaEditor

section Openings

variable {α : Type} (opens closes : α → Bool)

/-- How many are open behind a list, if `k` are open before it; nothing if the list closes one that
is not open. -/
def openAfter (k : Nat) : List α → Option Nat
  | [] => some k
  | a :: as =>
    if opens a then openAfter (k + 1) as
    else if closes a then if k = 0 then none else openAfter (k - 1) as
    else openAfter k as

variable {opens closes} {k i j : Nat} {as bs : List α}

theorem openAfter_append :
    openAfter opens closes k (as ++ bs) =
      (openAfter opens closes k as).bind fun j => openAfter opens closes j bs := by
  induction as generalizing k with
  | nil => rfl
  | cons a as ih =>
    simp only [List.cons_append, openAfter, ih]
    split
    · rfl
    · split
      · split <;> rfl
      · rfl

/-- More that is open before stays open. -/
theorem openAfter_add (h : openAfter opens closes k as = some j) (i : Nat) :
    openAfter opens closes (k + i) as = some (j + i) := by
  induction as generalizing k with
  | nil =>
    cases h
    rfl
  | cons a as ih =>
    simp only [openAfter] at h ⊢
    split at h
    · rw [if_pos ‹_›, Nat.add_right_comm]
      exact ih h
    · rw [if_neg ‹_›]
      split at h
      · rw [if_pos ‹_›]
        split at h
        · cases h
        · rw [if_neg (by omega), Nat.sub_add_comm (by omega)]
          exact ih h
      · rw [if_neg ‹_›]
        exact ih h

/-- Only what opens or closes counts. -/
theorem openAfter_filter :
    openAfter opens closes k (as.filter fun a => opens a || closes a) =
      openAfter opens closes k as := by
  induction as generalizing k with
  | nil => rfl
  | cons a as ih =>
    cases ho : opens a <;> cases hc : closes a <;> simp [ho, hc, openAfter, ih]

theorem openAfter_eq_self (h : ∀ a ∈ as, opens a = false ∧ closes a = false) :
    openAfter opens closes k as = some k := by
  rw [← openAfter_filter, List.filter_eq_nil_iff.mpr]
  · rfl
  · simpa using h

theorem openAfter_map {β : Type} {g : β → α} {bs : List β} :
    openAfter opens closes k (bs.map g) =
      openAfter (fun b => opens (g b)) (fun b => closes (g b)) k bs := by
  induction bs generalizing k with
  | nil => rfl
  | cons b bs ih => simp only [List.map_cons, openAfter, ih]

/-- Read backwards, what opens closes and what closes opens. -/
theorem openAfter_reverse (hd : ∀ a, opens a = true → closes a = false)
    (h : openAfter opens closes k as = some j) :
    openAfter closes opens j as.reverse = some k := by
  induction as generalizing k with
  | nil =>
    cases h
    rfl
  | cons a as ih =>
    rw [List.reverse_cons, openAfter_append]
    unfold openAfter at h
    by_cases ho : opens a = true
    · rw [if_pos ho] at h
      rw [ih h]
      simp [openAfter, ho, hd a ho]
    · rw [if_neg ho] at h
      by_cases hc : closes a = true
      · rw [if_pos hc] at h
        by_cases hk : k = 0
        · simp [hk] at h
        · rw [if_neg hk] at h
          rw [ih h]
          simp only [Option.bind_some, openAfter, if_pos hc, Option.some.injEq]
          omega
      · rw [if_neg hc] at h
        rw [ih h]
        simp [openAfter, ho, hc]

/-- What a list leaves open, in numbers. -/
theorem openAfter_eq_some_iff_countP (hd : ∀ a, opens a = true → closes a = false) :
    openAfter opens closes k as = some j ↔
      k + as.countP opens = j + as.countP closes ∧
        ∀ p, p <+: as → p.countP closes ≤ k + p.countP opens := by
  induction as generalizing k with
  | nil => simp [openAfter]
  | cons a as ih =>
    have hstart : (∀ p, p <+: a :: as → p.countP closes ≤ k + p.countP opens) ↔
        ∀ p, p <+: as → (a :: p).countP closes ≤ k + (a :: p).countP opens := by
      constructor
      · exact fun h p hp => h _ ((List.prefix_cons_inj a).mpr hp)
      · intro h p hp
        obtain rfl | ⟨p, rfl, hp⟩ := List.prefix_cons_iff.mp hp
        · simp
        · exact h p ((List.prefix_cons_inj a).mp hp)
    rw [hstart, openAfter]
    by_cases ho : opens a = true
    · simp [ho, hd a ho, ih, Nat.add_assoc, Nat.add_comm 1]
    · by_cases hc : closes a = true
      · cases k with
        | zero =>
          refine iff_of_false (by simp [ho, hc]) fun h => ?_
          simpa [ho, hc] using h.2 [] List.nil_prefix
        | succ k => simp [ho, hc, ih, Nat.add_right_comm k 1, ← Nat.add_assoc]
      · simp [ho, hc, ih]

/-- A list that closes what is not open does so behind a beginning that closes all it opens. -/
theorem exists_of_openAfter_eq_none (h : openAfter opens closes k as = none) :
    ∃ inner a rest, as = inner ++ a :: rest ∧ openAfter opens closes k inner = some 0 ∧
      opens a = false ∧ closes a = true := by
  induction as generalizing k with
  | nil => cases h
  | cons a as ih =>
    unfold openAfter at h
    by_cases ho : opens a = true
    · rw [if_pos ho] at h
      obtain ⟨inner, c, rest, rfl, hinner, hc⟩ := ih h
      exact ⟨a :: inner, c, rest, rfl, by rwa [openAfter, if_pos ho], hc⟩
    · rw [if_neg ho] at h
      by_cases hc : closes a = true
      · rw [if_pos hc] at h
        by_cases hk : k = 0
        · subst hk
          exact ⟨[], a, as, rfl, rfl, by simpa using ho, hc⟩
        · rw [if_neg hk] at h
          obtain ⟨inner, c, rest, rfl, hinner, hc'⟩ := ih h
          exact ⟨a :: inner, c, rest, rfl, by rwa [openAfter, if_neg ho, if_pos hc, if_neg hk], hc'⟩
      · rw [if_neg hc] at h
        obtain ⟨inner, c, rest, rfl, hinner, hc'⟩ := ih h
        exact ⟨a :: inner, c, rest, rfl, by rwa [openAfter, if_neg ho, if_neg hc], hc'⟩

end Openings

/-! ## Texts -/

/-- The parens of a text are balanced: there are as many of one direction as of the other, and no
beginning of the text has more that close than open. -/
def Balanced (s : String) : Prop :=
  s.toList.count '(' = s.toList.count ')' ∧
    ∀ cs, cs <+: s.toList → cs.count ')' ≤ cs.count '('

/-- The text has no parens. -/
def ParenFree (s : String) : Prop :=
  ∀ c ∈ s.toList, c ≠ '(' ∧ c ≠ ')'

/-- Where `k` parens are open before the text, `j` are open behind it. -/
def Leads (s : String) (k j : Nat) : Prop :=
  openAfter (· == '(') (· == ')') k s.toList = some j

/-- What a text leaves open, in numbers. -/
theorem openAfter_eq_some_iff {cs : List Char} {k j : Nat} :
    openAfter (· == '(') (· == ')') k cs = some j ↔
      k + cs.count '(' = j + cs.count ')' ∧
        ∀ p, p <+: cs → p.count ')' ≤ k + p.count '(' :=
  openAfter_eq_some_iff_countP fun c hc => by simp [eq_of_beq hc]

theorem balanced_iff {s : String} : Balanced s ↔ Leads s 0 0 := by
  rw [Leads, openAfter_eq_some_iff]
  simp [Balanced]

namespace Leads

variable {s t : String} {k j i : Nat}

theorem append (hs : Leads s k j) (ht : Leads t j i) : Leads (s ++ t) k i := by
  rw [Leads, String.toList_append, openAfter_append, hs]
  exact ht

theorem shift (hs : Leads s k j) (i : Nat) : Leads s (k + i) (j + i) :=
  openAfter_add hs i

end Leads

theorem Balanced.leads {s : String} (h : Balanced s) (k : Nat) : Leads s k k := by
  simpa using (balanced_iff.mp h).shift k

theorem ParenFree.leads {s : String} (h : ParenFree s) (k : Nat) : Leads s k k :=
  openAfter_eq_self (by simpa [ParenFree] using h)

theorem ParenFree.balanced {s : String} (h : ParenFree s) : Balanced s :=
  balanced_iff.mpr (h.leads 0)

/-! ## Formulas -/

/-- Parens that are matched leave none open. -/
theorem openAfter_of_isBalanced {i : Nat} {opened : List Nat} {kinds : List Kind}
    (h : (ParenMatches.scan i opened kinds).isBalanced) :
    openAfter Kind.isLeftParen Kind.isRightParen opened.length kinds = some 0 := by
  induction kinds generalizing i opened with
  | nil => simpa [ParenMatches.scan, ParenMatches.isBalanced, openAfter] using h
  | cons kind kinds ih =>
    unfold ParenMatches.scan at h
    rw [openAfter]
    split at h
    · rw [if_pos ‹_›]
      exact ih h
    · rw [if_neg ‹_›]
      split at h
      · rw [if_pos ‹_›]
        cases opened with
        | nil =>
          exfalso
          revert h
          cases i <;> simp [ParenMatches.isBalanced, ParenMatch.isParen]
        | cons opener opened =>
          rw [if_neg (by simp)]
          exact ih (by simpa [ParenMatches.isBalanced, ParenMatch.isParen] using h)
      · rw [if_neg ‹_›]
        exact ih h

/-- Parens are matched just if they leave none open and close none that is not. -/
theorem isBalanced_scan_iff {i : Nat} {opened : List Nat} {kinds : List Kind} :
    (ParenMatches.scan i opened kinds).isBalanced = true ↔
      openAfter Kind.isLeftParen Kind.isRightParen opened.length kinds = some 0 := by
  refine ⟨openAfter_of_isBalanced, fun h => ?_⟩
  induction kinds generalizing i opened with
  | nil => simpa [ParenMatches.scan, ParenMatches.isBalanced, openAfter] using h
  | cons kind kinds ih =>
    unfold openAfter at h
    unfold ParenMatches.scan
    by_cases hl : kind.isLeftParen = true
    · rw [if_pos hl] at h ⊢
      exact ih h
    · rw [if_neg hl] at h ⊢
      by_cases hr : kind.isRightParen = true
      · rw [if_pos hr] at h ⊢
        cases opened with
        | nil => simp at h
        | cons opener opened =>
          have hrest : (ParenMatches.scan (i + 1) opened kinds).isBalanced = true :=
            ih (by simpa using h)
          simpa [ParenMatches.isBalanced, ParenMatch.isParen] using hrest
      · rw [if_neg hr] at h ⊢
        exact ih h

end FormulaEditor
