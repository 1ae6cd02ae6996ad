import FormulaEditor.Proofs.Balance
import FormulaEditor.Proofs.Operand

/-!
# What the scans beside the caret take

An operand is a run of numbers, a single symbol or a group in matching parens. Both scans take one
operand with its scripts, but for a run of numbers which touches a paren: a paren that opens there
has its group taken as well, and one that closes makes the scan give up.
-/

namespace FormulaEditor.OperandToken

variable {k j n s level taken : Nat} {token : OperandToken}
  {tokens rest operand inner base after : List OperandToken}

/-- A paren of either direction. -/
def isParen (token : OperandToken) : Bool :=
  token == leftParen || token == rightParen

/-- How many groups are open behind tokens, if `k` are open before them. -/
abbrev opened (k : Nat) (tokens : List OperandToken) : Option Nat :=
  openAfter (· == leftParen) (· == rightParen) k tokens

/-- The parens among the tokens match. -/
def Matched (tokens : List OperandToken) : Prop :=
  opened 0 tokens = some 0

instance : DecidablePred Matched := fun tokens =>
  inferInstanceAs (Decidable (opened 0 tokens = some 0))

/-- One operand, the scripts that belong to it aside: a run of numbers, a single symbol, or a group
in matching parens. -/
inductive IsOperand : List OperandToken → Prop
  | numbers (n : Nat) : IsOperand (List.replicate (n + 1) number)
  | symbol : IsOperand [symbol]
  | group {inner : List OperandToken} (h : Matched inner) :
    IsOperand (leftParen :: (inner ++ [rightParen]))

/-! ## The scan -/

theorem operandLengthFrom_numbers (n : Nat) :
    operandLengthFrom level taken (List.replicate n number ++ rest) =
      operandLengthFrom level (taken + n) rest := by
  induction n generalizing taken with
  | zero => rfl
  | succ n ih =>
    have hstep : operandLengthFrom level taken (number :: (List.replicate n number ++ rest)) =
        operandLengthFrom level (taken + 1) (List.replicate n number ++ rest) := by
      cases level <;> rfl
    rw [List.replicate_succ, List.cons_append, hstep, ih, Nat.add_assoc, Nat.add_comm 1 n]

/-- While a group is open, everything is taken in. -/
theorem operandLengthFrom_inside (h : opened k inner = some j) :
    operandLengthFrom (k + 1) taken (inner ++ rest) =
      operandLengthFrom (j + 1) (taken + inner.length) rest := by
  induction inner generalizing k taken with
  | nil =>
    cases h
    rfl
  | cons token inner ih =>
    have hnext : ∀ k', opened k' inner = some j →
        operandLengthFrom (k' + 1) (taken + 1) (inner ++ rest) =
          operandLengthFrom (j + 1) (taken + (token :: inner).length) rest := by
      intro k' hk'
      rw [ih hk', List.length_cons, Nat.add_assoc, Nat.add_comm 1 inner.length]
    cases token with
    | leftParen => exact hnext (k + 1) h
    | rightParen =>
      cases k with
      | zero => cases h
      | succ k => exact hnext k h
    | number | symbol | scripts | other => exact hnext k h

/-- A group is taken in up to the paren that closes it. -/
theorem operandLengthFrom_group (h : Matched inner) :
    operandLengthFrom 0 taken (leftParen :: (inner ++ rightParen :: rest)) =
      taken + inner.length + 2 := by
  have hopen : operandLengthFrom 0 taken (leftParen :: (inner ++ rightParen :: rest)) =
      operandLengthFrom 1 (taken + 1) (inner ++ rightParen :: rest) := rfl
  have hclose : operandLengthFrom 1 (taken + 1 + inner.length) (rightParen :: rest) =
      taken + 1 + inner.length + 1 := rfl
  rw [hopen, operandLengthFrom_inside h, hclose]
  omega

/-- A group that never closes reaches to the end. -/
theorem operandLengthFrom_unclosed (h : opened 0 inner = some j) :
    operandLengthFrom 0 taken (leftParen :: inner) = taken + inner.length + 1 := by
  have hopen : operandLengthFrom 0 taken (leftParen :: inner) =
      operandLengthFrom 1 (taken + 1) (inner ++ []) := by
    rw [List.append_nil]
    rfl
  have hend : operandLengthFrom (j + 1) (taken + 1 + inner.length) [] =
      max (taken + 1 + inner.length) 1 := rfl
  rw [hopen, operandLengthFrom_inside h, hend]
  omega

/-- Outside groups the scan stops at what is no number and no paren. -/
theorem operandLengthFrom_stop (hn : rest.head? ≠ some number)
    (hp : rest.head?.any isParen = false) : operandLengthFrom 0 taken rest = max taken 1 := by
  cases rest with
  | nil => rfl
  | cons token rest =>
    cases token with
    | number => simp at hn
    | leftParen | rightParen => simp [isParen] at hp
    | symbol | scripts | other => rfl

theorem operandLength_numbers (n : Nat) :
    operandLength (List.replicate (n + 1) number ++ rest) = operandLengthFrom 0 (n + 1) rest := by
  have hfrom : operandLength (List.replicate (n + 1) number ++ rest) =
      operandLengthFrom 0 0 (List.replicate (n + 1) number ++ rest) := rfl
  rw [hfrom, operandLengthFrom_numbers, Nat.zero_add]

theorem operandLength_group (h : Matched inner) :
    operandLength (leftParen :: (inner ++ rightParen :: rest)) = inner.length + 2 := by
  have hfrom : operandLength (leftParen :: (inner ++ rightParen :: rest)) =
      operandLengthFrom 0 0 (leftParen :: (inner ++ rightParen :: rest)) := rfl
  rw [hfrom, operandLengthFrom_group h, Nat.zero_add]

/-- What follows an opening paren either closes it or leaves it open. -/
theorem closes_or_not (rest : List OperandToken) :
    (∃ inner rest', rest = inner ++ rightParen :: rest' ∧ Matched inner) ∨
      ∃ j, opened 0 rest = some j := by
  cases h : opened 0 rest with
  | some j => exact .inr ⟨j, rfl⟩
  | none =>
    obtain ⟨inner, token, rest', rfl, hinner, -, hc⟩ := exists_of_openAfter_eq_none h
    obtain rfl : token = rightParen := by simpa using hc
    exact .inl ⟨inner, rest', rfl, hinner⟩

/-- Behind numbers a paren that opens begins an operand of its own, which is taken too. -/
theorem operandLengthFrom_leftParen :
    operandLengthFrom 0 taken (leftParen :: rest) = taken + operandLength (leftParen :: rest) := by
  have hfrom : operandLength (leftParen :: rest) = operandLengthFrom 0 0 (leftParen :: rest) := rfl
  rw [hfrom]
  obtain ⟨inner, rest, rfl, hinner⟩ | ⟨j, hj⟩ := closes_or_not rest
  · rw [operandLengthFrom_group hinner, operandLengthFrom_group hinner]
    omega
  · rw [operandLengthFrom_unclosed hj, operandLengthFrom_unclosed hj]
    omega

theorem operandLength_run_leftParen (n : Nat) (h : rest.head? = some leftParen) :
    operandLength (List.replicate (n + 1) number ++ rest) = n + 1 + operandLength rest := by
  obtain ⟨rest, rfl⟩ := List.head?_eq_some_iff.mp h
  rw [operandLength_numbers, operandLengthFrom_leftParen]

theorem operandLength_run_rightParen (n : Nat) (h : rest.head? = some rightParen) :
    operandLength (List.replicate (n + 1) number ++ rest) = 0 := by
  obtain ⟨rest, rfl⟩ := List.head?_eq_some_iff.mp h
  rw [operandLength_numbers]
  rfl

/-- The scan takes one operand if that is not a run of numbers which touches a paren. -/
theorem operandLength_operand (h : IsOperand operand)
    (hmax : operand.head? = some number → rest.head? ≠ some number)
    (hfree : operand.head? = some number → rest.head?.any isParen = false) :
    operandLength (operand ++ rest) = operand.length := by
  cases h with
  | numbers n =>
    rw [operandLength_numbers, operandLengthFrom_stop (hmax rfl) (hfree rfl), List.length_replicate]
    omega
  | symbol => rfl
  | group hinner =>
    rw [List.cons_append, List.append_assoc, List.singleton_append, operandLength_group hinner]
    simp

theorem operandLength_pos (h : tokens.head? = some leftParen) : 0 < operandLength tokens := by
  obtain ⟨rest, rfl⟩ := List.head?_eq_some_iff.mp h
  obtain ⟨inner, rest, rfl, hinner⟩ | ⟨j, hj⟩ := closes_or_not rest
  · rw [operandLength_group hinner]
    omega
  · have hfrom : operandLength (leftParen :: rest) = operandLengthFrom 0 0 (leftParen :: rest) := rfl
    rw [hfrom, operandLengthFrom_unclosed hj]
    omega

theorem IsOperand.length_pos (h : IsOperand operand) : 0 < operand.length := by
  cases h <;> simp

/-- Tokens none of which is the beginning of an operand. -/
theorem operandLength_eq_zero (h : ∀ token, tokens.head? = some token →
    token = rightParen ∨ token = scripts ∨ token = other) : operandLength tokens = 0 := by
  cases tokens with
  | nil => rfl
  | cons token rest => obtain rfl | rfl | rfl := h token rfl <;> rfl

/-! ## To the left -/

/-- The tokens as a scan to the left meets them. -/
def mirrored (tokens : List OperandToken) : List OperandToken :=
  tokens.reverse.map flipped

theorem mirrored_append (tokens rest : List OperandToken) :
    mirrored (tokens ++ rest) = mirrored rest ++ mirrored tokens := by
  simp [mirrored]

theorem mirrored_numbers (n : Nat) :
    mirrored (List.replicate n number) = List.replicate n number := by
  simp [mirrored, flipped]

@[simp] theorem length_mirrored (tokens : List OperandToken) :
    (mirrored tokens).length = tokens.length := by
  simp [mirrored]

theorem head?_mirrored (tokens : List OperandToken) :
    (mirrored tokens).head? = tokens.getLast?.map flipped := by
  simp [mirrored]

@[simp] theorem flipped_eq_number : flipped token = number ↔ token = number := by
  cases token <;> simp [flipped]

@[simp] theorem isParen_flipped : isParen (flipped token) = isParen token := by
  cases token <;> rfl

theorem opened_mirrored (h : opened k tokens = some j) :
    openAfter (· == rightParen) (· == leftParen) j tokens.reverse = some k :=
  openAfter_reverse (by simp) h

theorem opened_mirrored_eq :
    opened j (mirrored tokens) =
      openAfter (· == rightParen) (· == leftParen) j tokens.reverse := by
  have hopens : (fun token => flipped token == leftParen) = (· == rightParen) := by
    funext token
    cases token <;> rfl
  have hcloses : (fun token => flipped token == rightParen) = (· == leftParen) := by
    funext token
    cases token <;> rfl
  rw [mirrored, opened, openAfter_map, hopens, hcloses]

theorem Matched.mirrored (h : Matched inner) : Matched (mirrored inner) := by
  rw [Matched, opened_mirrored_eq]
  exact opened_mirrored h

theorem mirrored_group (inner : List OperandToken) :
    mirrored (leftParen :: (inner ++ [rightParen])) =
      leftParen :: (mirrored inner ++ [rightParen]) := by
  simp [OperandToken.mirrored, flipped]

theorem IsOperand.mirrored (h : IsOperand operand) : IsOperand (mirrored operand) := by
  cases h with
  | numbers n =>
    rw [mirrored_numbers]
    exact .numbers n
  | symbol => exact .symbol
  | group hinner =>
    rw [mirrored_group]
    exact .group hinner.mirrored

theorem IsOperand.head?_mirrored (h : IsOperand operand) :
    (OperandToken.mirrored operand).head? = some number ↔ operand.head? = some number := by
  cases h with
  | numbers n => rw [mirrored_numbers]
  | symbol => rfl
  | group hinner =>
    rw [mirrored_group]
    simp

/-- The scan to the left is the scan of the mirrored tokens, the scripts at the caret put back. -/
theorem absorbLeft_eq (hlast : base.getLast? ≠ some scripts) (s : Nat) :
    absorbLeft (base ++ List.replicate s scripts) =
      if operandLength (mirrored base) = 0 then 0 else operandLength (mirrored base) + s := by
  have hback : (base ++ List.replicate s scripts).reverse =
      List.replicate s scripts ++ base.reverse := by
    rw [List.reverse_append, List.reverse_replicate]
  have hdrop : (List.replicate s scripts ++ base.reverse).dropWhile (· == scripts) =
      base.reverse := by
    rw [List.dropWhile_append_of_pos (by simp)]
    rw [← List.head?_reverse] at hlast
    cases hbase : base.reverse with
    | nil => rfl
    | cons token tokens =>
      rw [hbase] at hlast
      exact List.dropWhile_cons_of_neg (by simpa using hlast)
  unfold absorbLeft mirrored
  simp only [hback, hdrop, List.length_append, List.length_replicate, Nat.add_sub_cancel]
  cases operandLength (base.reverse.map flipped) with
  | zero => rfl
  | succ n => simp

theorem absorbRight_eq (after : List OperandToken) :
    absorbRight after = if operandLength after = 0 then 0 else
      operandLength after + ((after.drop (operandLength after)).takeWhile (· == scripts)).length := by
  unfold absorbRight
  cases operandLength after with
  | zero => rfl
  | succ n => simp

/-! ## One operand -/

/-- The operand does not go on in the token next to it. -/
def EndsBeside (operand : List OperandToken) (next : Option OperandToken) : Prop :=
  operand.head? = some number → next ≠ some number

/-- The operand is a run of numbers, and the token next to it is a paren. -/
def TouchesParen (operand : List OperandToken) (next : Option OperandToken) : Prop :=
  operand.head? = some number ∧ next.any isParen = true

theorem IsOperand.eq_numbers (h : IsOperand operand) (hn : operand.head? = some number) :
    ∃ n, operand = List.replicate (n + 1) number := by
  cases h with
  | numbers n => exact ⟨n, rfl⟩
  | symbol => cases hn
  | group => cases hn

theorem IsOperand.getLast?_ne_scripts (h : IsOperand operand) (rest : List OperandToken) :
    (rest ++ operand).getLast? ≠ some scripts := by
  cases h with
  | numbers n => simp [List.replicate_succ', List.getLast?_append]
  | symbol => simp
  | group => simp [List.getLast?_append, List.getLast?_cons]

theorem not_touchesParen {next : Option OperandToken} (h : ¬ TouchesParen operand next)
    (hn : operand.head? = some number) : next.any isParen = false := by
  simpa [TouchesParen, hn] using h

/-- The token a run of numbers touches opens a group or closes one. -/
theorem TouchesParen.left_or_right {next : Option OperandToken} (h : TouchesParen operand next) :
    next = some leftParen ∨ next = some rightParen := by
  obtain ⟨-, h⟩ := h
  cases next with
  | none => cases h
  | some token => cases token <;> simp [isParen] at h ⊢

/-- A run of numbers with scripts behind it touches no paren. -/
theorem TouchesParen.scripts_eq_zero
    (h : TouchesParen operand (List.replicate s scripts ++ rest).head?) : s = 0 := by
  cases s with
  | zero => rfl
  | succ s => cases h.2

/-- A paren that closes directly at the caret begins an operand for the scan to the left. -/
theorem absorbLeft_rightParen (h : rest.getLast? = some rightParen) :
    absorbLeft rest = operandLength (mirrored rest) ∧ 0 < absorbLeft rest := by
  have hpos : 0 < operandLength (mirrored rest) := operandLength_pos (by simp [head?_mirrored, h, flipped])
  have hlast : rest.getLast? ≠ some scripts := by simp [h]
  have hs := absorbLeft_eq hlast 0
  rw [List.replicate_zero, List.append_nil, if_neg (by omega), Nat.add_zero] at hs
  exact ⟨hs, hs ▸ hpos⟩

/-- To the left, the group that a run of numbers touches is taken with it. -/
theorem absorbLeft_run_rightParen (h : IsOperand operand) (hn : operand.head? = some number)
    (hr : rest.getLast? = some rightParen) (s : Nat) :
    absorbLeft (rest ++ operand ++ List.replicate s scripts) =
      operand.length + absorbLeft rest + s := by
  rw [absorbLeft_eq (h.getLast?_ne_scripts rest), mirrored_append]
  obtain ⟨n, rfl⟩ := h.eq_numbers hn
  rw [mirrored_numbers, operandLength_run_leftParen n (by simp [head?_mirrored, hr, flipped]),
    if_neg (by omega), (absorbLeft_rightParen hr).1, List.length_replicate]

/-- To the left, a run of numbers that touches an opened paren is not taken. -/
theorem absorbLeft_run_leftParen (h : IsOperand operand) (hn : operand.head? = some number)
    (hr : rest.getLast? = some leftParen) (s : Nat) :
    absorbLeft (rest ++ operand ++ List.replicate s scripts) = 0 := by
  rw [absorbLeft_eq (h.getLast?_ne_scripts rest), mirrored_append]
  obtain ⟨n, rfl⟩ := h.eq_numbers hn
  rw [mirrored_numbers, operandLength_run_rightParen n (by simp [head?_mirrored, hr, flipped]), if_pos rfl]

theorem absorbLeft_operand_iff (h : IsOperand operand) (hends : EndsBeside operand rest.getLast?)
    (s : Nat) :
    absorbLeft (rest ++ operand ++ List.replicate s scripts) = operand.length + s ↔
      ¬ TouchesParen operand rest.getLast? := by
  have hpos := h.length_pos
  by_cases ht : TouchesParen operand rest.getLast?
  · refine iff_of_false ?_ (not_not_intro ht)
    obtain hr | hr := ht.left_or_right
    · rw [absorbLeft_run_leftParen h ht.1 hr]
      omega
    · have hrest := (absorbLeft_rightParen hr).2
      rw [absorbLeft_run_rightParen h ht.1 hr]
      omega
  · refine iff_of_true ?_ ht
    have hlength : operandLength (mirrored operand ++ mirrored rest) = operand.length := by
      rw [← length_mirrored operand]
      refine operandLength_operand h.mirrored (fun hn => ?_) fun hn => ?_
      · have hnext := hends (h.head?_mirrored.mp hn)
        simpa [head?_mirrored] using hnext
      · have hfree := not_touchesParen ht (h.head?_mirrored.mp hn)
        simpa [head?_mirrored, Option.any_map, Function.comp_def] using hfree
    rw [absorbLeft_eq (h.getLast?_ne_scripts rest), mirrored_append, hlength, if_neg (by omega)]

/-- To the left there is no operand behind an opened paren or behind what is no operand. -/
theorem absorbLeft_eq_zero (h : ∀ token, base.getLast? = some token →
    token = leftParen ∨ token = other) (s : Nat) :
    absorbLeft (base ++ List.replicate s scripts) = 0 := by
  have hlast : base.getLast? ≠ some scripts := fun hc => by simpa using h _ hc
  rw [absorbLeft_eq hlast, if_pos]
  refine operandLength_eq_zero fun token ht => ?_
  rw [head?_mirrored, Option.map_eq_some_iff] at ht
  obtain ⟨last, hlast, rfl⟩ := ht
  obtain rfl | rfl := h last hlast <;> simp [flipped]

/-! ## To the right -/

/-- The scripts after an operand are all that follows it up to the next token of another kind. -/
theorem length_takeWhile_scripts (h : rest.head? ≠ some scripts) (s : Nat) :
    ((List.replicate s scripts ++ rest).takeWhile (· == scripts)).length = s := by
  rw [List.takeWhile_append_of_pos (by simp)]
  cases rest with
  | nil => simp
  | cons token rest =>
    rw [List.takeWhile_cons_of_neg (by simpa using h), List.append_nil, List.length_replicate]

/-- To the right, the group that a run of numbers touches is taken with it. -/
theorem absorbRight_run_leftParen (h : IsOperand operand) (hn : operand.head? = some number)
    (hr : rest.head? = some leftParen) :
    absorbRight (operand ++ rest) = operand.length + absorbRight rest := by
  have hpos := operandLength_pos hr
  obtain ⟨n, rfl⟩ := h.eq_numbers hn
  rw [absorbRight_eq, absorbRight_eq, operandLength_run_leftParen n hr, if_neg (by omega),
    if_neg (by omega), List.length_replicate, List.drop_append, List.length_replicate,
    List.drop_of_length_le (by simp), List.nil_append, Nat.add_sub_cancel_left, Nat.add_assoc]

/-- To the right, a run of numbers that touches a paren that closes is not taken. -/
theorem absorbRight_run_rightParen (h : IsOperand operand) (hn : operand.head? = some number)
    (hr : rest.head? = some rightParen) : absorbRight (operand ++ rest) = 0 := by
  obtain ⟨n, rfl⟩ := h.eq_numbers hn
  rw [absorbRight_eq, operandLength_run_rightParen n hr, if_pos rfl]

theorem absorbRight_operand_iff (h : IsOperand operand) (hr : rest.head? ≠ some scripts)
    (hends : EndsBeside operand (List.replicate s scripts ++ rest).head?) :
    absorbRight (operand ++ (List.replicate s scripts ++ rest)) = operand.length + s ↔
      ¬ TouchesParen operand (List.replicate s scripts ++ rest).head? := by
  have hpos := h.length_pos
  by_cases ht : TouchesParen operand (List.replicate s scripts ++ rest).head?
  · refine iff_of_false ?_ (not_not_intro ht)
    obtain rfl := ht.scripts_eq_zero
    rw [List.replicate_zero, List.nil_append] at ht ⊢
    obtain hl | hl := ht.left_or_right
    · have hrest := operandLength_pos hl
      rw [absorbRight_run_leftParen h ht.1 hl, absorbRight_eq rest, if_neg (by omega)]
      omega
    · rw [absorbRight_run_rightParen h ht.1 hl]
      omega
  · refine iff_of_true ?_ ht
    rw [absorbRight_eq, operandLength_operand h hends (not_touchesParen ht), if_neg (by omega),
      List.drop_left, length_takeWhile_scripts hr]

/-- To the right there is no operand where a paren closes, at scripts and at what is no operand. -/
theorem absorbRight_eq_zero (h : ∀ token, tokens.head? = some token →
    token = rightParen ∨ token = scripts ∨ token = other) : absorbRight tokens = 0 := by
  rw [absorbRight_eq, if_pos (operandLength_eq_zero h)]

/-! ## Both scans -/

/-- A scan takes one operand and the scripts that follow it just if the operand is not a run of
numbers which touches a paren. With a run that touches one, it takes the operand behind the paren as
well where that opens as seen from the caret, and nothing where it closes. Where no operand is at
the caret, it takes nothing. -/
theorem absorb_one_operand_iff (h : IsOperand operand) (s : Nat) :
    (∀ rest : List OperandToken, EndsBeside operand rest.getLast? →
      (absorbLeft (rest ++ operand ++ List.replicate s scripts) = operand.length + s ↔
        ¬ TouchesParen operand rest.getLast?) ∧
      (operand.head? = some number → rest.getLast? = some rightParen →
        absorbLeft (rest ++ operand ++ List.replicate s scripts) =
          operand.length + absorbLeft rest + s) ∧
      (operand.head? = some number → rest.getLast? = some leftParen →
        absorbLeft (rest ++ operand ++ List.replicate s scripts) = 0)) ∧
    (∀ rest : List OperandToken, rest.head? ≠ some scripts →
      EndsBeside operand (List.replicate s scripts ++ rest).head? →
      (absorbRight (operand ++ (List.replicate s scripts ++ rest)) = operand.length + s ↔
        ¬ TouchesParen operand (List.replicate s scripts ++ rest).head?) ∧
      (operand.head? = some number → rest.head? = some leftParen →
        absorbRight (operand ++ rest) = operand.length + absorbRight rest) ∧
      (operand.head? = some number → rest.head? = some rightParen →
        absorbRight (operand ++ rest) = 0)) ∧
    (∀ base : List OperandToken,
      (∀ token, base.getLast? = some token → token = leftParen ∨ token = other) →
      absorbLeft (base ++ List.replicate s scripts) = 0) ∧
    ∀ after : List OperandToken,
      (∀ token, after.head? = some token →
        token = rightParen ∨ token = scripts ∨ token = other) →
      absorbRight after = 0 :=
  ⟨fun _ hends => ⟨absorbLeft_operand_iff h hends s,
      fun hn hr => absorbLeft_run_rightParen h hn hr s,
      fun hn hr => absorbLeft_run_leftParen h hn hr s⟩,
    fun _ hr hends => ⟨absorbRight_operand_iff h hr hends,
      absorbRight_run_leftParen h, absorbRight_run_rightParen h⟩,
    fun _ hbase => absorbLeft_eq_zero hbase s, fun _ hafter => absorbRight_eq_zero hafter⟩

/-- Beside `(a)²` the whole group is taken with its exponent, in front of it a `3` stays behind. -/
theorem absorb_one_operand_group :
    IsOperand [leftParen, symbol, rightParen] ∧
      absorbLeft [number, leftParen, symbol, rightParen, scripts] = 4 ∧
      absorbRight [leftParen, symbol, rightParen, scripts, number] = 4 := by
  have hgroup : IsOperand (leftParen :: ([symbol] ++ [rightParen])) := .group (by decide)
  obtain ⟨hleft, hright, -⟩ := absorb_one_operand_iff hgroup 1
  refine ⟨hgroup, (hleft [number] ?_).1.mpr ?_, (hright [number] ?_ ?_).1.mpr ?_⟩
  · simp [EndsBeside]
  · simp [TouchesParen]
  · simp
  · simp [EndsBeside]
  · simp [TouchesParen]

/-- Of a number in front of parens the parens are taken too, and of one behind a paren nothing. -/
theorem absorb_numbers_touching_parens :
    IsOperand [number] ∧ absorbRight [number, leftParen, rightParen] = 3 ∧
      absorbLeft [leftParen, number] = 0 :=
  ⟨.numbers 0, by decide, by decide⟩


end FormulaEditor.OperandToken
