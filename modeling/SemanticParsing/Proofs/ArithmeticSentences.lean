import SemanticParsing.Proofs.ExactArithmetic
import SemanticParsing.Proofs.ParseTree
/-! Sentences about integers. A grammar of words for numbers and signs gives them meanings that the
evaluator can always work out. -/
namespace SemanticParsing

namespace Arithmetic

theorem negate_whole {n r : Int64} (exact : -n.toInt = r.toInt) :
    subtraction.combine (.int 0) (.int n) = .ok (.int r) :=
  combine_whole (Whole.subtract?_eq_some_iff.mpr (by simp [exact]))

theorem fold_from_unit {a : Arithmetic} {unit m n r : Int64} (start : a.whole unit m = some m)
    (result : a.whole m n = some r) : a.fold (.int unit) [.int m, .int n] = .ok (.int r) := by
  rw [fold_cons _ (combine_whole start), fold_singleton]
  exact combine_whole result

end Arithmetic

inductive Connective where
  | plus | minus | times
  deriving DecidableEq, Repr

namespace Connective

def sign : Connective → Sign
  | plus => .plus
  | minus => .minus
  | times => .times

def name (k : Connective) : String := k.sign.operation.name

def onIntegers : Connective → Int → Int → Int
  | plus, m, n => m + n
  | minus, m, n => m - n
  | times, m, n => m * n

theorem call_isNumber (k : Connective) {v w : Value} (first : v.isNumber) (second : w.isNumber) :
    ∃ u, k.sign.operation.call [v, w] = .ok u ∧ u.isNumber := by
  cases k with
  | plus | times => exact Arithmetic.fold_isNumber rfl (by simp [first, second])
  | minus => exact Arithmetic.fold_isNumber first (by simp [second])

theorem call_whole (k : Connective) {m n r : Int64}
    (exact : k.onIntegers m.toInt n.toInt = r.toInt) :
    k.sign.operation.call [.int m, .int n] = .ok (.int r) := by
  cases k with
  | plus =>
    have start : Arithmetic.addition.whole 0 m = some m :=
      Whole.add?_eq_some_iff.mpr (Int.zero_add _)
    exact Arithmetic.fold_from_unit start (Whole.add?_eq_some_iff.mpr exact)
  | minus =>
    change Arithmetic.subtraction.fold (.int m) [.int n] = _
    rw [Arithmetic.fold_singleton]
    exact Arithmetic.combine_whole (Whole.subtract?_eq_some_iff.mpr exact)
  | times =>
    have start : Arithmetic.multiplication.whole 1 m = some m :=
      Whole.multiply?_eq_some_iff.mpr (Int.one_mul _)
    exact Arithmetic.fold_from_unit start (Whole.multiply?_eq_some_iff.mpr exact)

theorem name_injective {j k : Connective} (h : j.name = k.name) : j = k := by
  cases j <;> cases k <;> first | rfl | exact absurd h (by decide)

end Connective

inductive Calculation where
  | literal (n : Int64)
  | negate (body : Calculation)
  | combine (k : Connective) (left right : Calculation)

namespace Calculation

def expression : Calculation → Value
  | literal n => .int n
  | negate body => .list [.symbol "-", body.expression]
  | combine k left right => .list [.symbol k.name, left.expression, right.expression]

def value : Calculation → Int
  | literal n => n.toInt
  | negate body => -body.value
  | combine k left right => k.onIntegers left.value right.value

/-- No operation has a result that is not an integer of 64 bits. -/
def NoOverflow : Calculation → Prop
  | literal _ => True
  | negate body => body.NoOverflow ∧ Whole.InRange (-body.value)
  | combine k left right =>
    left.NoOverflow ∧ right.NoOverflow ∧ Whole.InRange (k.onIntegers left.value right.value)

def term : Calculation → Term
  | literal n => .literal n
  | negate body => .apply .minus [body.term]
  | combine k left right => .apply k.sign [left.term, right.term]

theorem expression_term (c : Calculation) : c.term.expression = c.expression := by
  induction c with
  | literal n => rw [term, Term.expression, expression]
  | negate body ih =>
    simp only [term, Term.expression, expression, List.map_cons, List.map_nil, ih]
    rfl
  | combine k left right ihLeft ihRight =>
    simp only [term, Term.expression, expression, List.map_cons, List.map_nil, ihLeft, ihRight]
    rfl

theorem expression_injective {c d : Calculation} (h : c.expression = d.expression) : c = d := by
  induction c generalizing d with
  | literal n => cases d <;> simp_all [expression]
  | negate body ih =>
    cases d with
    | negate other =>
      have same : body.expression = other.expression := by simpa [expression] using h
      rw [ih same]
    | _ => simp [expression] at h
  | combine k left right ihLeft ihRight =>
    cases d with
    | combine j first second =>
      obtain ⟨names, sameLeft, sameRight⟩ : k.name = j.name ∧
          left.expression = first.expression ∧ right.expression = second.expression := by
        simpa [expression] using h
      rw [Connective.name_injective names, ihLeft sameLeft, ihRight sameRight]
    | _ => simp [expression] at h

theorem outcome_negate {body : Calculation} {v : Value} (given : body.term.outcome = .ok v) :
    (negate body).term.outcome = Arithmetic.subtraction.combine (.int 0) v := by
  simp only [term, Term.outcome, List.mapM_cons, List.mapM_nil, given]
  rfl

theorem outcome_combine {k : Connective} {left right : Calculation} {v w : Value}
    (first : left.term.outcome = .ok v) (second : right.term.outcome = .ok w) :
    (combine k left right).term.outcome = k.sign.operation.call [v, w] := by
  simp only [term, Term.outcome, List.mapM_cons, List.mapM_nil, first, second]
  rfl

theorem exists_outcome (c : Calculation) :
    ∃ v, c.term.outcome = .ok v ∧ v.isNumber ∧
      (c.NoOverflow → ∃ n : Int64, v = .int n ∧ n.toInt = c.value) := by
  induction c with
  | literal n =>
    refine ⟨.int n, ?_, rfl, fun _ => ⟨n, rfl, rfl⟩⟩
    rw [term, Term.outcome]
  | negate body ih =>
    obtain ⟨v, given, number, exactly⟩ := ih
    have zero : (Value.int 0).isNumber := rfl
    rw [outcome_negate given]
    obtain ⟨u, result, isNumber⟩ :=
      Arithmetic.combine_isNumber (a := Arithmetic.subtraction) zero number
    refine ⟨u, result, isNumber, fun noOverflow => ?_⟩
    obtain ⟨n, rfl, same⟩ := exactly noOverflow.1
    obtain ⟨r, inRange⟩ := noOverflow.2.exists_toInt
    have exact : -n.toInt = r.toInt := by rw [same, inRange]
    rw [Arithmetic.negate_whole exact] at result
    exact ⟨r, (Except.ok.inj result).symm, inRange.symm⟩
  | combine k left right ihLeft ihRight =>
    obtain ⟨v, givenLeft, numberLeft, exactlyLeft⟩ := ihLeft
    obtain ⟨w, givenRight, numberRight, exactlyRight⟩ := ihRight
    rw [outcome_combine givenLeft givenRight]
    obtain ⟨u, result, isNumber⟩ := k.call_isNumber numberLeft numberRight
    refine ⟨u, result, isNumber, fun noOverflow => ?_⟩
    obtain ⟨m, rfl, sameLeft⟩ := exactlyLeft noOverflow.1
    obtain ⟨n, rfl, sameRight⟩ := exactlyRight noOverflow.2.1
    obtain ⟨r, inRange⟩ := noOverflow.2.2.exists_toInt
    have exact : k.onIntegers m.toInt n.toInt = r.toInt := by rw [sameLeft, sameRight, inRange]
    rw [k.call_whole exact] at result
    exact ⟨r, (Except.ok.inj result).symm, inRange.symm⟩

end Calculation

/-- The rules of arithmetic: words for integers and signs, and three ways to put them together. A
sign after its left operand waits for the right one. -/
inductive ArithmeticRule : Rule → Prop
  | number (phrase : String) (n : Int64) : ArithmeticRule (.lexical "$E" phrase (.int n))
  | negative (phrase : String) : ArithmeticRule (.lexical "$UnOp" phrase (.symbol "-"))
  | connective (phrase : String) (k : Connective) :
      ArithmeticRule (.lexical "$BinOp" phrase (.symbol k.name))
  | negation (c : Combinator) (builds : ∀ sign e, c.build [sign, e] = .list [sign, e]) :
      ArithmeticRule (.ofText "$E" "$UnOp $E" (.combinator c))
  | waiting (c : Combinator) (builds : ∀ e sign, c.build [e, sign] = .list [sign, e]) :
      ArithmeticRule (.ofText "$EBO" "$E $BinOp" (.combinator c))
  | combination (c : Combinator) (builds : ∀ sign left right,
      c.build [.list [sign, left], right] = .list [sign, left, right]) :
      ArithmeticRule (.ofText "$E" "$EBO $E" (.combinator c))

/-- What the meanings of the four categories are. -/
structure Sense (category : String) (v : Value) : Prop where
  calculation : category = "$E" → ∃ c : Calculation, v = c.expression
  negative : category = "$UnOp" → v = .symbol "-"
  connective : category = "$BinOp" → ∃ k : Connective, v = .symbol k.name
  waiting : category = "$EBO" →
    ∃ (k : Connective) (left : Calculation), v = .list [.symbol k.name, left.expression]

namespace Sense

theorem of_calculation (c : Calculation) : Sense "$E" c.expression :=
  ⟨fun _ => ⟨c, rfl⟩, by simp, by simp, by simp⟩

theorem of_negative : Sense "$UnOp" (.symbol "-") :=
  ⟨by simp, fun _ => rfl, by simp, by simp⟩

theorem of_connective (k : Connective) : Sense "$BinOp" (.symbol k.name) :=
  ⟨by simp, by simp, fun _ => ⟨k, rfl⟩, by simp⟩

theorem of_waiting (k : Connective) (left : Calculation) :
    Sense "$EBO" (.list [.symbol k.name, left.expression]) :=
  ⟨by simp, by simp, by simp, fun _ => ⟨k, left, rfl⟩⟩

end Sense

namespace ArithmeticRule

variable {rule : Rule}

theorem sense_leaf (h : ArithmeticRule rule) (lexical : rule.isLexical) :
    Sense rule.lhs (rule.semantics.meaning []) := by
  cases h with
  | number phrase n => exact .of_calculation (.literal n)
  | negative phrase => exact .of_negative
  | connective phrase k => exact .of_connective k
  | negation c builds => cases lexical
  | waiting c builds => cases lexical
  | combination c builds => cases lexical

theorem sense_node (h : ArithmeticRule rule) {left right : String} {v w : Value}
    (pair : rule.pair? = some (left, right)) (first : Sense left v) (second : Sense right w) :
    Sense rule.lhs (rule.semantics.meaning [v, w]) := by
  cases h with
  | number phrase n => exact .of_calculation (.literal n)
  | negative phrase => exact .of_negative
  | connective phrase k => exact .of_connective k
  | negation c builds =>
    cases pair
    obtain rfl := first.negative rfl
    obtain ⟨body, rfl⟩ := second.calculation rfl
    change Sense "$E" (c.build [.symbol "-", body.expression])
    rw [builds]
    exact .of_calculation (.negate body)
  | waiting c builds =>
    cases pair
    obtain ⟨e, rfl⟩ := first.calculation rfl
    obtain ⟨k, rfl⟩ := second.connective rfl
    change Sense "$EBO" (c.build [e.expression, .symbol k.name])
    rw [builds]
    exact .of_waiting k e
  | combination c builds =>
    cases pair
    obtain ⟨k, e, rfl⟩ := first.waiting rfl
    obtain ⟨f, rfl⟩ := second.calculation rfl
    change Sense "$E" (c.build [.list [.symbol k.name, e.expression], f.expression])
    rw [builds]
    exact .of_calculation (.combine k e f)

end ArithmeticRule

theorem ParseTree.sense {rules : List Rule} (arithmetic : ∀ rule ∈ rules, ArithmeticRule rule)
    {t : ParseTree} (well : t.WellFormed rules) : Sense t.category t.derivation.meaning := by
  induction t with
  | leaf use tokens =>
    obtain ⟨occurs, lexical, -⟩ := well
    exact (arithmetic _ (rule_mem_of_mem_occurrences occurs)).sense_leaf lexical
  | node use left right ihLeft ihRight =>
    obtain ⟨occurs, pair, wellLeft, wellRight⟩ := well
    exact (arithmetic _ (rule_mem_of_mem_occurrences occurs)).sense_node pair (ihLeft wellLeft)
      (ihRight wellRight)

/-- A grammar of arithmetic gives a sentence nothing but calculations as meanings. A new evaluator
works each of them out to a number, and to its value when no operation overflows. -/
theorem Grammar.arithmetic_executes {rules : List Rule} {grammar : Grammar}
    (arithmetic : ∀ rule ∈ rules, ArithmeticRule rule) (accepted : ofRules rules = .ok grammar)
    {sentence : String} {d : Derivation} (isParse : d ∈ grammar.parse sentence) (heap : Heap) :
    ∃ c : Calculation, d.meaning = c.expression ∧ ∃ v : Value, v.isNumber ∧
      (∀ fuel, c.term.depth < fuel →
        (Evaluator.executor fuel heap.pushStandard.1 d.meaning).run.run heap.pushStandard.2 =
          (.ok v, heap.pushStandard.2)) ∧
      (c.NoOverflow → ∃ n : Int64, v = .int n ∧ n.toInt = c.value) := by
  rw [parse_eq (built_of_ofRules accepted), startCategory_ofRules accepted] at isParse
  obtain ⟨t, well, start, -, rfl⟩ := exists_tree_of_mem_enumerate isParse
  obtain ⟨c, meaning⟩ := (t.sense arithmetic well).calculation start
  obtain ⟨v, outcome, number, exactly⟩ := c.exists_outcome
  refine ⟨c, meaning, v, number, fun fuel deep => ?_, exactly⟩
  have gives := Term.eval_gives (Term.bindsArithmetic_pushStandard heap) c.term deep
  rw [c.expression_term, outcome] at gives
  rw [meaning]
  exact gives

namespace Grammar

def productRules : List Rule :=
  [Rule.lexical "$E" "two" (.int 2), Rule.lexical "$E" "three" (.int 3),
    Rule.lexical "$UnOp" "minus" (.symbol "-"), Rule.lexical "$BinOp" "times" (.symbol "*"),
    Rule.ofText "$E" "$UnOp $E" (.combinator ⟨0, fun children => .list children⟩),
    Rule.ofText "$EBO" "$E $BinOp" (.combinator ⟨1, fun children => .list children.reverse⟩),
    Rule.ofText "$E" "$EBO $E" (.combinator ⟨2, fun children =>
      .list ((children[0]?.bind Value.asList?).getD [] ++ children.tail)⟩)]

theorem productRules_arithmetic : ∀ rule ∈ productRules, ArithmeticRule rule := by
  simp only [productRules, List.forall_mem_cons, List.not_mem_nil, false_implies, implies_true,
    and_true]
  exact ⟨.number "two" 2, .number "three" 3, .negative "minus", .connective "times" .times,
    .negation _ fun _ _ => rfl, .waiting _ fun _ _ => rfl, .combination _ fun _ _ _ => rfl⟩

def productTree : ParseTree :=
  .node ⟨4, productRules[4]⟩ (.leaf ⟨2, productRules[2]⟩ ["minus"])
    (.node ⟨6, productRules[6]⟩
      (.node ⟨5, productRules[5]⟩ (.leaf ⟨0, productRules[0]⟩ ["two"])
        (.leaf ⟨3, productRules[3]⟩ ["times"]))
      (.leaf ⟨1, productRules[1]⟩ ["three"]))

theorem productTree_wellFormed : productTree.WellFormed productRules := by
  have known := getElem_mem_occurrences productRules
  exact ⟨known 4 (by decide), rfl, ⟨known 2 (by decide), rfl, rfl⟩, known 6 (by decide), rfl,
    ⟨known 5 (by decide), rfl, ⟨known 0 (by decide), rfl, rfl⟩, known 3 (by decide), rfl, rfl⟩,
    known 1 (by decide), rfl, rfl⟩

theorem productTree_executes :
    (∀ rule ∈ productRules, ArithmeticRule rule) ∧
      ∃ grammar, ofRules productRules = .ok grammar ∧
        productTree.derivation ∈ grammar.parse "minus two times three" ∧
        (Evaluator.executor 3 Heap.empty.pushStandard.1 productTree.derivation.meaning).run.run
          Heap.empty.pushStandard.2 = (.ok (.int (-6)), Heap.empty.pushStandard.2) := by
  obtain ⟨grammar, accepted⟩ : ∃ grammar, ofRules productRules = .ok grammar := ⟨_, rfl⟩
  have found : productTree.derivation ∈ grammar.parse "minus two times three" := by
    rw [parse_eq (built_of_ofRules accepted), startCategory_ofRules accepted]
    exact derivation_mem_enumerate productTree_wellFormed
  refine ⟨productRules_arithmetic, grammar, accepted, found, ?_⟩
  obtain ⟨c, meaning, v, -, evaluates, exactly⟩ :=
    arithmetic_executes productRules_arithmetic accepted found Heap.empty
  have same : c = .negate (.combine .times (.literal 2) (.literal 3)) :=
    Calculation.expression_injective meaning.symm
  subst same
  obtain ⟨n, rfl, value⟩ := exactly ⟨⟨trivial, trivial, by decide⟩, by decide⟩
  obtain rfl : n = -6 := Int64.toInt_inj.mp value
  exact evaluates 3 (by simp [Calculation.term, Term.depth])

end Grammar

end SemanticParsing
