import Scriptlet.Proofs.Lexical.Layout
import Scriptlet.Proofs.Parsing.Exactness
import Scriptlet.Proofs.Script.Shape

/-!
# What is read is well formed

The trees that come from source text have the shape of scripts, and every name in them has the form of a
name, whichever rules the text was read by. Reserved words are names too where only a name can stand. So
the sign of an operator gets into a tree in one way only: as what is called.

## What is proved

* `Token.wellFormed_of_mem`: the words of a text are spelled like what they are.
* `Rule.wellFormed_build`: a rule makes a well formed phrase of well formed parts.
* `fits_of_parse`: what is read has the shape of a script.
-/

namespace Scriptlet

open Lexical

/-! ### Words -/

namespace Lexical

/-- The word is spelled like what it is, as far as trees show. -/
structure Token.WellFormed (t : Token) : Prop where
  /-- A name has the form of a name. -/
  name : t.kind = .name → isName t.text = true
  /-- An operator is the sign of one. -/
  operator : t.kind = .sign ∨ t.kind = .factor ∨ t.kind = .comparison →
    (Operator.ofSign? t.text).isSome = true

theorem isNameForm_of_split? {cs word rest : List Char}
    (h : Terminal.name.split? cs = some (word, rest)) : isNameForm word = true := by
  cases cs with
  | nil => cases h
  | cons c cs =>
    simp only [Terminal.split?, splitHead, Option.ite_none_right_eq_some, Option.some.injEq,
      Prod.mk.injEq] at h
    obtain ⟨hc, rfl, -⟩ := h
    rw [isNameForm, hc, Bool.true_and, List.all_takeWhile]

theorem splitOne_eq_some {p : Char → Bool} {cs word rest : List Char}
    (h : splitOne p cs = some (word, rest)) : ∃ c, p c = true ∧ word = [c] := by
  cases cs with
  | nil => cases h
  | cons c cs =>
    simp only [splitOne, Option.ite_none_right_eq_some, Option.some.injEq, Prod.mk.injEq] at h
    exact ⟨c, h.1, h.2.1.symm⟩

/-- The words of the terminals of operators are the signs of operators. -/
theorem isSome_ofSign?_of_split? {t : Terminal} {cs word rest : List Char}
    (ht : t = .sign ∨ t = .factor ∨ t = .comparison) (h : t.split? cs = some (word, rest)) :
    (Operator.ofSign? (String.ofList word)).isSome = true := by
  rcases ht with rfl | rfl | rfl
  · obtain ⟨c, hc, rfl⟩ := splitOne_eq_some h
    simp only [Bool.or_eq_true, decide_eq_true_eq] at hc
    rcases hc with rfl | rfl <;> decide
  · obtain ⟨c, hc, rfl⟩ := splitOne_eq_some h
    simp only [Bool.or_eq_true, decide_eq_true_eq, or_assoc] at hc
    rcases hc with rfl | rfl | rfl <;> decide
  · simp only [Terminal.split?, splitComparison] at h
    split at h <;> cases h <;> decide

theorem Token.wellFormed_of_stands {t : Token} {c d : Cursor} (h : t.Stands c d) :
    t.WellFormed := by
  refine ⟨fun ht => ?_, fun ht => isSome_ofSign?_of_split? ht h.word⟩
  have hword := h.word
  rw [ht] at hword
  rw [isName, Token.text, String.toList_ofList]
  exact isNameForm_of_split? hword

/-- The words of a text are spelled like what they are. -/
theorem Token.wellFormed_of_mem {c : Cursor} {ts : List Token} (h : Tiled c ts) :
    ∀ t ∈ ts, t.WellFormed := by
  induction h with
  | nil => exact List.forall_mem_nil _
  | cons hstands _ ih => exact List.forall_mem_cons.mpr ⟨wellFormed_of_stands hstands, ih⟩

end Lexical

/-! ### Phrases -/

namespace Grammar

/-- The value of a phrase has the shape of what the phrase is. -/
def Category.WellFormed : (c : Category) → c.Value → Prop
  | .program, script => Block.fits isName (Script.body script) = true
  | .statements, es => fitAll isName .statement es = true
  | .block, body => Block.fits isName body = true
  | .parameters, names | .moreParameters, names => List.all names isName = true
  | .fields, fs | .moreFields, fs => fitFields isName fs = true
  | .field, f => Expr.fits isName .operand (Prod.snd f) = true
  | .arguments, es | .moreArguments, es => fitAll isName .operand es = true
  | .statement, e | .functionStatement, e | .declaration, e | .conditional, e
  | .returnStatement, e | .assignment, e | .fieldAssignment, e | .expressionStatement, e =>
    Expr.fits isName .statement e = true
  | .expression, e | .sum, e | .product, e | .chain, e | .primary, e | .functionExpression, e
  | .object, e => Expr.fits isName .operand e = true

/-- A word is well formed and of its kind, and a phrase has the shape of what it is. -/
def Symbol.WellFormed : (s : Symbol) → s.Value → Prop
  | .word t, token => Token.WellFormed token ∧ Token.kind token = t
  | .phrase c, v => c.WellFormed v

/-- All values of a row are well formed. -/
def Values.WellFormed : (ss : List Symbol) → Values ss → Prop
  | [], _ => True
  | s :: ss, (v, vs) => s.WellFormed v ∧ Values.WellFormed ss vs

theorem isName_of_wellFormed {t : Token} (h : Symbol.WellFormed (.word .name) t) :
    isName t.text = true :=
  h.1.name h.2

section Build

variable {line : Int} {t : Token} {left right : Expr} {es : List Expr}

theorem fitAll_concat {role : Role} {e : Expr} (h : fitAll isName role es = true)
    (he : e.fits isName role = true) : fitAll isName role (es.concat e) = true := by
  rw [fitAll_iff] at h ⊢
  rw [List.concat_eq_append]
  exact List.forall_mem_append.mpr ⟨h, List.forall_mem_singleton.mpr he⟩

theorem fitAll_cons {role : Role} {e : Expr} (he : e.fits isName role = true)
    (h : fitAll isName role es = true) : fitAll isName role (e :: es) = true := by
  rw [fitAll, he, h, Bool.and_true]

theorem fitFields_cons {f : String × Expr} {fs : List (String × Expr)}
    (hf : f.2.fits isName .operand = true) (h : fitFields isName fs = true) :
    fitFields isName (f :: fs) = true := by
  rw [fitFields, hf, h, Bool.and_true]

theorem fitFields_concat {f : String × Expr} {fs : List (String × Expr)}
    (h : fitFields isName fs = true) (hf : f.2.fits isName .operand = true) :
    fitFields isName (fs.concat f) = true := by
  rw [fitFields_iff] at h ⊢
  rw [List.concat_eq_append, List.map_append]
  exact List.forall_mem_append.mpr ⟨h, List.forall_mem_singleton.mpr hf⟩

theorem names_cons {name : String} {names : List String} (hname : isName name = true)
    (h : names.all isName = true) : (name :: names).all isName = true := by
  rw [List.all_cons, hname, h, Bool.and_true]

theorem names_concat {name : String} {names : List String} (h : names.all isName = true)
    (hname : isName name = true) : (names.concat name).all isName = true := by
  rw [List.concat_eq_append, List.all_append, h, List.all_cons, hname]
  rfl

/-- The call of what a word of an operator names. -/
theorem fits_operatorCall {l : Int} (ht : Symbol.WellFormed (.word t.kind) t)
    (hkind : t.kind = .sign ∨ t.kind = .factor ∨ t.kind = .comparison)
    (h : fitAll isName .operand es = true) :
    (Expr.call (.identifier t.text l) es line).fits isName .operand = true := by
  rw [Expr.fits, Expr.operator?, ht.1.operator hkind, Bool.true_or, Bool.true_and, h]

theorem fits_plainCall {callee : Expr} (hcallee : callee.fits isName .operand = true)
    (h : fitAll isName .operand es = true) :
    (Expr.call callee es line).fits isName .operand = true := by
  rw [Expr.fits, hcallee, Bool.or_true, h, Bool.and_true]

theorem fits_method {receiver : Expr} {name : String}
    (hreceiver : receiver.fits isName .operand = true) (hname : isName name = true)
    (h : fitAll isName .operand es = true) :
    (Expr.method receiver name es line).fits isName .operand = true := by
  rw [Expr.fits, hreceiver, hname, h, Bool.and_true, Bool.and_true]

theorem fits_field {receiver : Expr} {name : String}
    (hreceiver : receiver.fits isName .operand = true) (hname : isName name = true) :
    (Expr.field receiver name line).fits isName .operand = true := by
  rw [Expr.fits, hreceiver, hname, Bool.and_true]

theorem fits_setField {receiver value : Expr} {name : String}
    (hreceiver : receiver.fits isName .operand = true) (hname : isName name = true)
    (hvalue : value.fits isName .operand = true) :
    (Expr.setField receiver name value line).fits isName .statement = true := by
  rw [Expr.fits, hreceiver, hname, hvalue]
  rfl

theorem fits_assign {name : String} {value : Expr} {declares : Bool} (hname : isName name = true)
    (hvalue : value.fits isName .operand = true) :
    (Expr.assign name value declares line).fits isName .statement = true := by
  rw [Expr.fits, hname, hvalue, Bool.true_or]
  rfl

theorem fits_declaration {name : String} {l : Int} (hname : isName name = true) :
    (Expr.assign name (noValue l) true line).fits isName .statement = true := by
  rw [Expr.fits, hname]
  rfl

theorem fits_function {name : String} {params : List String} {body : Block}
    (hname : isName name = true) (hparams : params.all isName = true)
    (hbody : body.fits isName = true) :
    (Expr.function name params true body line).fits isName .statement = true := by
  rw [Expr.fits, hname, hparams, hbody]
  rfl

theorem fits_lambda {params : List String} {body : Block} (hparams : params.all isName = true)
    (hbody : body.fits isName = true) :
    (Expr.function anonymousName params false body line).fits isName .operand = true := by
  rw [Expr.fits, hparams, hbody]
  rfl

theorem fits_returns {value : Expr} (hvalue : value.fits isName .operand = true) :
    (Expr.returns value line).fits isName .statement = true := by
  rw [Expr.fits, hvalue]
  rfl

theorem fits_choose {condition : Expr} {yes no : Block}
    (hcondition : condition.fits isName .operand = true) (hyes : yes.fits isName = true)
    (hno : no.fits isName = true) :
    (Expr.choose condition yes no line).fits isName .statement = true := by
  rw [Expr.fits, hcondition, hyes, hno]
  rfl

end Build

/-- A rule makes a well formed phrase of well formed parts. -/
theorem Rule.wellFormed_build (r : Rule) (line : Int) (vs : Values r.parts)
    (h : Values.WellFormed r.parts vs) : r.makes.WellFormed (r.build line vs) := by
  cases r
  -- phrases that are what their only part is
  case programStatements | statementFunction | statementDeclaration | statementConditional |
      statementReturn | statementAssignment | statementFieldAssignment | statementExpression |
      expressionSum | sumProduct | productChain | chainPrimary | primaryFunction |
      primaryObject =>
    exact h.1
  case primaryParenthesised | blockStatements | objectFields => exact h.2.1
  case expressionStatement => exact Expr.fits_statement h.1
  case programEmpty | blockEmpty | objectEmpty | primaryNumber | primarySignedNumber |
      primaryString | returnPlain =>
    exact (rfl : true = true)
  -- rows
  case statementsOne | argumentsOne => exact fitAll_cons h.1 rfl
  case moreArgumentsOne => exact fitAll_cons h.2.1 rfl
  case argumentsMore => exact fitAll_cons h.1 h.2.1
  case statementsMore => exact fitAll_concat h.1 h.2.1
  case moreArgumentsMore => exact fitAll_concat h.1 h.2.2.1
  case fieldsOne | fieldsOneComma => exact fitFields_cons h.1 rfl
  case moreFieldsOne => exact fitFields_cons h.2.1 rfl
  case fieldsMore | fieldsMoreComma => exact fitFields_cons h.1 h.2.1
  case moreFieldsMore => exact fitFields_concat h.1 h.2.2.1
  case fieldName | fieldString => exact h.2.2.1
  -- names
  case parametersOne => exact names_cons (isName_of_wellFormed h.1) rfl
  case parametersMore => exact names_cons (isName_of_wellFormed h.1) h.2.1
  case moreParametersOne => exact names_cons (isName_of_wellFormed h.2.1) rfl
  case moreParametersMore => exact names_concat h.1 (isName_of_wellFormed h.2.2.1)
  case primaryName => exact isName_of_wellFormed h.1
  -- operators
  case expressionComparison | sumSign | productFactor =>
    refine fits_operatorCall (by rw [h.2.1.2]; exact h.2.1) ?_
      (fitAll_cons h.1 (fitAll_cons h.2.2.1 rfl))
    rw [h.2.1.2]
    decide
  case primarySignCall | primaryFactorCall | primaryComparisonCall =>
    refine fits_operatorCall (by rw [h.1.2]; exact h.1) ?_ rfl
    rw [h.1.2]
    decide
  case primarySignCallArguments | primaryFactorCallArguments | primaryComparisonCallArguments =>
    refine fits_operatorCall (by rw [h.1.2]; exact h.1) ?_ h.2.2.1
    rw [h.1.2]
    decide
  -- chains
  case chainCall => exact fits_plainCall h.1 rfl
  case chainCallArguments => exact fits_plainCall h.1 h.2.2.1
  case chainMethod => exact fits_method h.1 (isName_of_wellFormed h.2.2.1) rfl
  case chainMethodArguments =>
    exact fits_method h.1 (isName_of_wellFormed h.2.2.1) h.2.2.2.2.1
  case chainField => exact fits_field h.1 (isName_of_wellFormed h.2.2.1)
  -- functions
  case functionStatementPlain =>
    exact fits_function (isName_of_wellFormed h.2.1) rfl h.2.2.2.2.1
  case functionStatementParameters =>
    exact fits_function (isName_of_wellFormed h.2.1) h.2.2.2.1 h.2.2.2.2.2.1
  case functionExpressionPlain => exact fits_lambda rfl h.2.2.2.1
  case functionExpressionParameters => exact fits_lambda h.2.2.1 h.2.2.2.2.1
  -- statements
  case declarationVar | declarationLet => exact fits_declaration (isName_of_wellFormed h.2.1)
  case declarationVarValue | declarationLetValue =>
    exact fits_assign (isName_of_wellFormed h.2.1) h.2.2.2.1
  case assignmentName => exact fits_assign (isName_of_wellFormed h.1) h.2.2.1
  case assignmentField => exact fits_setField h.1 (isName_of_wellFormed h.2.2.1) h.2.2.2.2.1
  case returnValue => exact fits_returns h.2.1
  case conditionalPlain => exact fits_choose h.2.2.1 h.2.2.2.2.1 rfl
  case conditionalElse => exact fits_choose h.2.2.1 h.2.2.2.2.1 h.2.2.2.2.2.2.1
  case conditionalElseIf =>
    exact fits_choose h.2.2.1 h.2.2.2.2.1 (fitAll_cons h.2.2.2.2.2.2.1 rfl)

mutual

/-- A phrase made of well formed words has the shape of what it is. -/
theorem Derivation.wellFormed_value {s : Symbol} (d : Derivation s)
    (h : ∀ t ∈ d.tokens, t.WellFormed) : s.WellFormed d.value := by
  cases d with
  | leaf token => exact ⟨h token List.mem_cons_self, rfl⟩
  | node rule parts => exact rule.wellFormed_build _ _ (parts.wellFormed_values h)

theorem Derivations.wellFormed_values {ss : List Symbol} (ds : Derivations ss)
    (h : ∀ t ∈ ds.tokens, t.WellFormed) : Values.WellFormed ss ds.values := by
  cases ds with
  | nil => trivial
  | cons first others =>
    obtain ⟨hfirst, hothers⟩ := List.forall_mem_append.mp h
    exact ⟨first.wellFormed_value hfirst, others.wellFormed_values hothers⟩

end

end Grammar

/-! ### Scripts -/

namespace Parsing

open Grammar

/-- What is read is what the words of the text mean. -/
theorem exists_sentence_of_parse {source : String} {script : Script}
    (h : parse source = .ok script) :
    ∃ (ts : List Token) (d : Sentence), Tiled (Cursor.ofString source) ts ∧
      d.tokens = significant ts ∧ d.script = script := by
  obtain ⟨d, hd, hscript⟩ := parse_eq_ok_iff.mp h
  obtain ⟨ts, hts, hacc⟩ := accepts_of_parseFrom hd
  exact ⟨ts, d, hts, hacc.tokens ofGrammar_obeys .nil, hscript⟩

/-- What is read has the shape of a script, and its names have the form of names. -/
theorem fits_of_parse {source : String} {script : Script} (h : parse source = .ok script) :
    script.body.fits isName = true := by
  obtain ⟨ts, d, hts, htokens, rfl⟩ := exists_sentence_of_parse h
  refine d.wellFormed_value fun t ht => Token.wellFormed_of_mem hts t ?_
  rw [htokens] at ht
  exact List.mem_of_mem_filter ht

end Parsing

end Scriptlet
