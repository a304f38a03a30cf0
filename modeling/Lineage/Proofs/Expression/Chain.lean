import Lineage.Fault
import Lineage.Proofs.Expression.Operand
import Lineage.Proofs.Expression.Splice
/-!
# Chains of numerals

A chain is a numeral with operators and further numerals behind it. It is evaluated from left to
right, without precedence: each operator takes what the chain before it came to, as it is written,
and the numeral behind it (`evaluate_chain`).

The reader of literals and the scan for operators are two readings of one grammar. They agree on
every literal that is not torn: no sign of it is an operator, it is its own result, and an operator
between two such literals is applied to these two numbers (`operands_of_literals`).
-/
namespace Lineage.Expression

/-- A text that is read as a number. -/
structure Term where
  text : Text
  value : Float
  read : Number.parse? text = some value

/-- The number that a text is read as, if it is one. -/
def Term.ofText (t : Text) (h : (Number.parse? t).isSome = true) : Term :=
  ⟨t, (Number.parse? t).get h, (Option.some_get h).symm⟩

/-- A finite double, as it is written. -/
def Term.ofFloat (x : Float) (h : x.isFinite = true) : Term :=
  .ofText (Number.format x) (by
    obtain ⟨y, hy, -⟩ := Number.parse?_format h
    rw [hy]
    rfl)

/-- An operator with the number of spaces before and after it, and the term behind it. -/
structure Link where
  op : Operator
  before : Nat
  after : Nat
  term : Term

/-- The text of a link. -/
def Link.text (l : Link) : Text :=
  List.replicate l.before ' ' ++ l.op.char :: (List.replicate l.after ' ' ++ l.term.text)

/-- The text of a chain. -/
def chain (first : Term) (links : List Link) : Text := first.text ++ links.flatMap Link.text

/-- The operator stands between spaces, or directly between its operands, where the term behind it
has no sign. -/
def Link.Written (l : Link) : Prop :=
  (0 < l.before ∧ 0 < l.after ∧ Number.Signed l.term.text) ∨
    (l.before = 0 ∧ l.after = 0 ∧ Number.Unsigned l.term.text)

/-- What a chain comes to, from left to right. -/
def fold (a : Term) : List Link → Except Failure Term
  | [] => .ok a
  | l :: links =>
    match h : arithmetic a.value l.op l.term.value with
    | .error e => .error e
    | .ok x => fold (.ofFloat x (isFinite_of_arithmetic h)) links

/-- An operation that divides by zero, or has no finite result. -/
def HasNoResult (a : Float) (op : Operator) (b : Float) : Prop :=
  (op = .divided ∧ (b == 0) = true) ∨ (op.apply a b).isFinite = false

variable {a : Term} {l : Link} {links : List Link} {c : Char} {e : Failure} {x : Float} {t : Text}
  {op : Operator} {n : Nat} {r : Except Failure Text}

/-! ## Folding -/

theorem arithmetic_error_iff {a b : Float} :
    (∃ e, arithmetic a op b = .error e) ↔ HasNoResult a op b := by
  unfold arithmetic HasNoResult
  split
  · next hz => simp [hz]
  · next hz =>
    split
    · next hf => simp [hz, hf]
    · next hf => simpa [hz] using hf

theorem fold_cons_error (h : arithmetic a.value l.op l.term.value = .error e) :
    fold a (l :: links) = .error e := by
  rw [fold]
  split
  · next e' he =>
    obtain rfl : e = e' := by simpa [h] using he
    rfl
  · next x hx => simp [h] at hx

theorem fold_cons_ok (h : arithmetic a.value l.op l.term.value = .ok x) :
    fold a (l :: links) = fold (.ofFloat x (isFinite_of_arithmetic h)) links := by
  rw [fold]
  split
  · next e he => simp [h] at he
  · next y hy =>
    obtain rfl : x = y := by simpa [h] using hy
    rfl

theorem fold_single (a : Term) (l : Link) : (fold a [l]).map Term.text =
    (arithmetic a.value l.op l.term.value).map Number.format := by
  cases h : arithmetic a.value l.op l.term.value with
  | error e => rw [fold_cons_error h]; rfl
  | ok x => rw [fold_cons_ok h]; rfl

/-- Folding fails exactly at a first link that has no result. -/
theorem fold_error_iff : (∃ e, fold a links = .error e) ↔
    ∃ done l rest b, links = done ++ l :: rest ∧ fold a done = .ok b ∧
      HasNoResult b.value l.op l.term.value := by
  induction links generalizing a with
  | nil => simp [fold]
  | cons l links ih =>
    cases hx : arithmetic a.value l.op l.term.value with
    | error e =>
      rw [fold_cons_error hx]
      exact ⟨fun _ => ⟨[], l, links, a, rfl, rfl, arithmetic_error_iff.1 ⟨e, hx⟩⟩,
        fun _ => ⟨e, rfl⟩⟩
    | ok x =>
      -- the first link goes through, so the one that fails stands behind it
      rw [fold_cons_ok hx, ih]
      constructor
      · rintro ⟨done, m, rest, b, rfl, hdone, hno⟩
        exact ⟨l :: done, m, rest, b, rfl, (fold_cons_ok hx).trans hdone, hno⟩
      · rintro ⟨done, m, rest, b, hsplit, hdone, hno⟩
        cases done with
        | nil =>
          obtain ⟨rfl, rfl⟩ := List.cons.inj hsplit
          cases hdone
          obtain ⟨e, he⟩ := arithmetic_error_iff.2 hno
          simp [hx] at he
        | cons k done =>
          obtain ⟨rfl, rfl⟩ := List.cons.inj hsplit
          rw [fold_cons_ok hx] at hdone
          exact ⟨done, m, rest, b, rfl, hdone, hno⟩

/-! ## The text of a chain -/

/-- The term behind the operator is an operand, and the operator is one wherever it stands behind
an operand. -/
structure Link.Stands (l : Link) : Prop where
  operand : Operand l.term.text
  apart : Apart l.before l.after l.term.text

theorem startsNumber_of_unsigned (h : Number.Unsigned t) : startsNumber t = true := by
  obtain ⟨hm, -⟩ := h
  exact startsNumber_of_digits (digits_of_mantissa hm) (ne_nil_of_mantissa hm) _

theorem Link.Written.stands (h : l.Written) : l.Stands := by
  rcases h with ⟨-, hafter, hs⟩ | ⟨hbefore, -, hu⟩
  · exact ⟨operand_of_signed hs, .inl hafter⟩
  · exact ⟨operand_of_signed (.signed .none hu), .inr ⟨hbefore, startsNumber_of_unsigned hu⟩⟩

theorem chain_cons (a : Term) (l : Link) (links : List Link) : chain a (l :: links) =
    a.text ++ (List.replicate l.before ' ' ++
      l.op.char :: (List.replicate l.after ' ' ++ chain l.term links)) := by
  simp [chain, Link.text]

theorem chars_of_chain (ha : Operand a.text) (hl : ∀ l ∈ links, l.Stands)
    (hc : c ∈ chain a links) : LiteralChar c ∨ c = ' ' ∨ isOperatorChar c = true := by
  induction links generalizing a with
  | nil => exact .inl (ha.chars c (by simpa [chain] using hc))
  | cons l links ih =>
    simp only [chain_cons, List.mem_append, List.mem_cons] at hc
    rcases hc with hc | hc | rfl | hc | hc
    · exact .inl (ha.chars c hc)
    · exact .inr (.inl (List.eq_of_mem_replicate hc))
    · exact .inr (.inr (isOperatorChar_char l.op))
    · exact .inr (.inl (List.eq_of_mem_replicate hc))
    · exact ih (hl l List.mem_cons_self).operand (fun k hk => hl k (by simp [hk])) hc

theorem noParens_chain (ha : Operand a.text) (hl : ∀ l ∈ links, l.Stands) :
    NoParens (chain a links) := by
  constructor <;> intro hc
  · rcases chars_of_chain ha hl hc with h | h | h
    · exact h.ne_paren.1 rfl
    · exact absurd h (by decide)
    · exact absurd h (by decide)
  · rcases chars_of_chain ha hl hc with h | h | h
    · exact h.ne_paren.2 rfl
    · exact absurd h (by decide)
    · exact absurd h (by decide)

theorem chain_ne_nil (ha : Operand a.text) : chain a links ≠ [] := by
  simp [chain, ha.ne_nil]

theorem trim_chain (ha : Operand a.text) (hl : ∀ l ∈ links, l.Stands) :
    (chain a links).trim = chain a links := by
  refine Text.trim_eq_self_iff.2 ⟨fun c hc => ?_, fun c hc => ?_⟩
  · exact (ha.chars c (mem_of_head?_append ha.ne_nil hc)).isBlank
  · induction links generalizing a with
    | nil => exact (ha.chars c (by simpa [chain] using List.mem_of_getLast? hc)).isBlank
    | cons l links ih =>
      have hlast := hl l List.mem_cons_self
      rw [chain_cons, ← List.cons_append, ← List.append_assoc, ← List.append_assoc,
        Text.getLast?_append_right (chain_ne_nil hlast.operand)] at hc
      exact ih hlast.operand (fun k hk => hl k (by simp [hk])) hc

/-- An operator alone is no chain. -/
theorem chain_ne_char (ha : Operand a.text) (op : Operator) : chain a links ≠ [op.char] := by
  intro h
  rw [chain, List.append_eq_singleton_iff] at h
  rcases h with ⟨hnil, -⟩ | ⟨hchar, -⟩
  · exact ha.ne_nil hnil
  · have := ha.ends []
    simp [hchar, allowsSign] at this

/-! ## Running a chain -/

theorem isPostfix_links (links : List Link) : isPostfix (links.flatMap Link.text) = true := by
  cases links with
  | nil => rfl
  | cons l links =>
    rw [List.flatMap_cons, Link.text]
    cases l.before with
    | zero => simp [isPostfix]
    | succ n => rfl

theorem combine_terms (a b : Term) (op : Operator) : combine a.text op b.text =
    (arithmetic a.value op b.value).map Number.format := by
  rw [combine, a.read, b.read]

/-- The first operator of a chain takes the first two terms, and its result, as it is written,
begins the rest of the chain. -/
theorem runs_chain (ha : Operand a.text) (hl : ∀ l ∈ links, l.Stands) :
    ∃ n, Runs (chain a links) n ((fold a links).map Term.text) := by
  induction links generalizing a with
  | nil =>
    refine ⟨0, ?_⟩
    rw [chain, List.flatMap_nil, List.append_nil]
    exact .done (firstOperator?_of_operators (ha.clear [] rfl []))
  | cons l links ih =>
    obtain ⟨hterm, hapart⟩ := hl l List.mem_cons_self
    have hfirst := firstOperator?_operands ha hapart l.op (links.flatMap Link.text)
    have happly := apply_operands ha hterm (.inl rfl) (isPostfix_links links) hapart l.op
    rw [combine_terms] at happly
    cases hx : arithmetic a.value l.op l.term.value with
    | error e =>
      rw [fold_cons_error hx, chain_cons]
      rw [hx] at happly
      exact ⟨1, .failed hfirst happly⟩
    | ok x =>
      -- the result is written as an operand, so it begins a chain like any other term
      have hfinite := isFinite_of_arithmetic hx
      have hplain := operand_of_isPlain (Number.isPlain_format hfinite)
      have hrest : ∀ k ∈ links, k.Stands := fun k hk => hl k (by simp [hk])
      obtain ⟨n, hn⟩ := @ih (.ofFloat x hfinite) hplain hrest
      rw [fold_cons_ok hx, chain_cons]
      rw [hx] at happly
      refine ⟨n + 1, .step hfirst happly ?_⟩
      change Runs (chain (.ofFloat x hfinite) links).trim n _
      rw [@trim_chain (.ofFloat x hfinite) links hplain hrest]
      exact hn

theorem evaluate_of_runs (h : Runs t n r) (ht : t.trim = t) (hp : NoParens t)
    (hw : ¬ (t = ['+'] ∨ t = ['-'])) : evaluate t = r := by
  obtain ⟨m, r', hr, -, heq⟩ := exists_reduce t
  rw [ht] at hr heq
  rw [evaluate_of_noParens hp, heq, if_neg hw, hr.unique h]

theorem evaluate_of_stands (a : Term) (links : List Link) (ha : Operand a.text)
    (hl : ∀ l ∈ links, l.Stands) : evaluate (chain a links) = (fold a links).map Term.text := by
  obtain ⟨n, hn⟩ := runs_chain ha hl
  refine evaluate_of_runs hn (trim_chain ha hl) (noParens_chain ha hl) ?_
  rw [not_or]
  exact ⟨chain_ne_char ha .plus, chain_ne_char ha .minus⟩

/-- A chain comes to what it is folded to from left to right, as it is written. It fails exactly if
some operation on the way divides by zero or has no finite result. -/
theorem evaluate_chain (first : Term) (links : List Link) (hfirst : Number.Signed first.text)
    (hlinks : ∀ l ∈ links, l.Written) :
    evaluate (chain first links) = (fold first links).map Term.text ∧
      ((∃ e, evaluate (chain first links) = .error e ∧
          (Cause.expression e).kind = .malformedExpression) ↔
        ∃ done l rest a, links = done ++ l :: rest ∧ fold first done = .ok a ∧
          HasNoResult a.value l.op l.term.value) := by
  have heval := evaluate_of_stands first links (operand_of_signed hfirst) fun l hl =>
    (hlinks l hl).stands
  refine ⟨heval, ?_⟩
  rw [← fold_error_iff, heval]
  constructor
  · rintro ⟨e, he, -⟩
    cases hf : fold first links with
    | ok a => simp [hf, Except.map] at he
    | error f => exact ⟨f, rfl⟩
  · rintro ⟨e, he⟩
    exact ⟨e, by rw [he]; rfl, rfl⟩

theorem evaluate_chain_mixed :
    let first := Term.ofText "-2.5e1".toList (by decide +kernel)
    let links : List Link :=
      [⟨.times, 1, 2, .ofText "+2".toList (by decide +kernel)⟩,
        ⟨.minus, 0, 0, .ofText ".5".toList (by decide +kernel)⟩]
    chain first links = "-2.5e1 *  +2-.5".toList ∧ Number.Signed first.text ∧
      (∀ l ∈ links, l.Written) ∧ (fold first links).map Term.text = .ok "-50.5".toList := by
  intro first links
  have hdigit : ∀ c : Char, c.isDigit = true → Number.Digits [c] := fun c hc =>
    ⟨List.cons_ne_nil c [], by simpa [Number.AllDigits] using hc⟩
  have hfirst : Number.Signed first.text := by
    have hw : Number.AllDigits ['2'] := (hdigit '2' rfl).2
    exact .signed .minus (.unsigned (.fraction hw (hdigit '5' rfl))
      (.some (.inl rfl) .none (hdigit '1' rfl)))
  have htwo : Number.Signed "+2".toList :=
    .signed .plus (.unsigned (.whole (hdigit '2' rfl)) .none)
  have hhalf : Number.Unsigned ".5".toList :=
    .unsigned (.fraction (w := []) (by simp [Number.AllDigits]) (hdigit '5' rfl)) .none
  have hlinks : ∀ l ∈ links, l.Written := by
    intro l hl
    simp only [links, List.mem_cons, List.not_mem_nil, or_false] at hl
    rcases hl with rfl | rfl
    · exact .inl ⟨Nat.one_pos, Nat.two_pos, htwo⟩
    · exact .inr ⟨rfl, rfl, hhalf⟩
  have htext : chain first links = "-2.5e1 *  +2-.5".toList := by rfl
  have heval := (evaluate_chain first links hfirst hlinks).1
  refine ⟨htext, hfirst, hlinks, ?_⟩
  rw [← heval, htext]
  exact toOption_eq_some_iff.1 (by decide +kernel)

/-! ## Literals as operands -/

variable {u : Text} {y : Float}

theorem not_torn_of_firstOperator? (h : firstOperator? [] t = none) : ¬ Torn t := by
  intro htorn
  obtain ⟨before, c, after, heq, hop⟩ := exists_operator_of_torn htorn
  have hnone := operatorAt?_of_firstOperator? h heq
  rw [List.append_nil] at hnone
  exact hop hnone

theorem not_torn_of_evaluate (h : evaluate t = .ok t) : ¬ Torn t := by
  rcases (isResult_of_evaluate h).done with hword | hnone
  · rintro ⟨before, mark, sign, after, rfl, -⟩
    have hlen : 1 < (before ++ '.' :: mark :: sign :: after).length := by
      simp only [List.length_append, List.length_cons]
      omega
    rcases hword with hword | hword <;> simp [hword] at hlen
  · exact not_torn_of_firstOperator? hnone

/-- A literal is one operand, and its own result, exactly if it is not torn. An operator with spaces
around it takes two such literals as the numbers that they are read as, if nothing or a space stands
before them, and nothing, a space or an operator behind them. -/
theorem operands_of_literals (ht : Number.parse? t = some x) (hu : Number.parse? u = some y) :
    ((∀ b, allowsSign b = true → ∀ a, operators b t a = 0) ↔ ¬ Torn t) ∧
      (evaluate t = .ok t ↔ ¬ Torn t) ∧
      (¬ Torn t → ¬ Torn u → ∀ op m n, 0 < n →
        (∀ b a, (b = [] ∨ ∃ r, b = ' ' :: r) → isPostfix a = true →
          Place.apply ⟨List.replicate m ' ' ++ (t.reverse ++ b), op,
            List.replicate n ' ' ++ (u ++ a)⟩ =
              (arithmetic x op y).map fun z => b.reverse ++ Number.format z ++ a) ∧
        evaluate (t ++ (List.replicate m ' ' ++ op.char :: (List.replicate n ' ' ++ u))) =
          (arithmetic x op y).map Number.format) := by
  refine ⟨⟨fun h => ?_, fun hn => ?_⟩, ⟨not_torn_of_evaluate, fun hn => ?_⟩, ?_⟩
  · exact not_torn_of_firstOperator? (firstOperator?_of_operators (h [] rfl []))
  · exact (operand_of_parse? ht hn).clear
  · -- a literal alone is a chain without links
    have hchain := evaluate_of_stands ⟨t, x, ht⟩ [] (operand_of_parse? ht hn) fun l hl => by
      cases hl
    simpa [chain, fold, Except.map] using hchain
  intro hnt hnu op m n hspace
  have hot := operand_of_parse? ht hnt
  have hou := operand_of_parse? hu hnu
  have hcombine := combine_terms ⟨t, x, ht⟩ ⟨u, y, hu⟩ op
  constructor
  · intro b a hb ha
    rw [apply_operands hot hou hb ha (.inl hspace), hcombine]
    cases arithmetic x op y <;> rfl
  · have hchain := evaluate_of_stands ⟨t, x, ht⟩ [⟨op, m, n, ⟨u, y, hu⟩⟩] hot fun l hl => by
      obtain rfl := List.mem_singleton.1 hl
      exact ⟨hou, .inl hspace⟩
    rw [fold_single] at hchain
    simpa [chain, Link.text] using hchain

theorem operands_of_literals_signed :
    let t := "-2.5e+3".toList
    let u := "+5.".toList
    let before := "x ".toList
    ¬ Torn t ∧ ¬ Torn u ∧ evaluate t = .ok t ∧
      Place.apply ⟨' ' :: (t.reverse ++ before.reverse), .divided, ' ' :: (u ++ " ^ 2".toList)⟩ =
        .ok "x -500 ^ 2".toList ∧
      evaluate "-2.5e+3 / +5.".toList = .ok "-500".toList := by
  intro t u before
  have ht : ¬ Torn t := not_torn_of_firstOperator? rfl
  have hu : ¬ Torn u := not_torn_of_firstOperator? rfl
  obtain ⟨-, hself, hboth⟩ := operands_of_literals (Term.ofText t (by decide +kernel)).read
    (Term.ofText u (by decide +kernel)).read
  obtain ⟨happly, heval⟩ := hboth ht hu .divided 1 1 Nat.one_pos
  refine ⟨ht, hu, hself.2 ht, ?_, ?_⟩
  · exact (happly before.reverse " ^ 2".toList (.inr ⟨['x'], rfl⟩) rfl).trans
      (toOption_eq_some_iff.1 (by decide +kernel))
  · exact heval.trans (toOption_eq_some_iff.1 (by decide +kernel))

/-- The sign of a torn literal is taken for an operator between texts. -/
example : (evaluate "5.e-3".toList).toOption = some "5.e".toList := by decide +kernel

end Lineage.Expression
