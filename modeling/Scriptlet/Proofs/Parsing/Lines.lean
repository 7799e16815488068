import Scriptlet.Proofs.Parsing.WellFormed

/-!
# The lines of what is read

Constructs carry the lines of words of the text they were read from, so whatever is read from a text lies on
lines of that text. Line `0`, by which constructs say that they know no line, is none of them.

## What is proved

* `Token.line_of_mem`: the words of a text start on its lines.
* `Rule.placed_build`: a rule puts what it makes on the lines of its words.
* `onLines_of_parse`: all constructs that are read lie on lines of the text.
-/

namespace Scriptlet

open Lexical

/-! ### Words -/

namespace Text.Position

theorem line_le_advance (p : Position) (cs : List Char) : p.line ≤ (p.advance cs).line := by
  rw [line_advance]
  exact Nat.le_add_right _ _

end Text.Position

namespace Lexical

/-- The line on which a text from a cursor on ends. -/
def Cursor.lastLine (c : Cursor) : Nat := (c.position.advance c.rest).line

theorem Token.Stands.lastLine_eq {t : Token} {c d : Cursor} (h : t.Stands c d) :
    d.lastLine = c.lastLine := by
  rw [Cursor.lastLine, Cursor.lastLine, ← Terminal.append_of_split h.word, Text.Position.advance_append,
    h.after, h.stop]

/-- The words of a text start on its lines. -/
theorem Token.line_of_mem {c : Cursor} {ts : List Token} (h : Tiled c ts) :
    ∀ t ∈ ts, c.position.line ≤ t.start.line ∧ t.start.line ≤ c.lastLine := by
  induction h with
  | nil => exact List.forall_mem_nil _
  | @cons c d t ts hstands _ ih =>
    refine List.forall_mem_cons.mpr ⟨?_, fun u hu => ?_⟩
    · rw [hstands.start]
      exact ⟨Nat.le_refl _, Text.Position.line_le_advance _ _⟩
    · obtain ⟨hfirst, hlast⟩ := ih u hu
      rw [hstands.lastLine_eq] at hlast
      rw [hstands.after, hstands.stop] at hfirst
      exact ⟨Nat.le_trans (Text.Position.line_le_advance _ _) hfirst, hlast⟩

end Lexical

/-! ### Constructs -/

/-- The lines that a construct carries: its own and those of its blocks. -/
def Expr.lines : Expr → List Int
  | .function _ _ _ body line => [line, body.line]
  | .choose _ yes no line => [line, yes.line, no.line]
  | e => [e.line]

/-- A construct carries allowed lines only. -/
def Expr.isOn (allowed : Int → Bool) (e : Expr) : Bool := e.lines.all allowed

variable {allowed : Int → Bool}

theorem Expr.allowed_line {e : Expr} (h : e.all (Expr.isOn allowed) = true) :
    allowed e.line = true := by
  refine List.all_eq_true.mp (Expr.all_self h) _ ?_
  cases e <;> exact List.mem_cons_self

namespace Grammar

/-- All constructs in the value of a phrase, and its blocks, lie on allowed lines. -/
def Category.Placed (allowed : Int → Bool) : (c : Category) → c.Value → Prop
  | .program, script =>
    allowed (Script.body script).line = true ∧ (Script.body script).all (Expr.isOn allowed) = true
  | .block, body => allowed (Block.line body) = true ∧ Block.all (Expr.isOn allowed) body = true
  | .parameters, _ | .moreParameters, _ => True
  | .fields, fs | .moreFields, fs => allInFields (Expr.isOn allowed) fs = true
  | .field, f => Expr.all (Expr.isOn allowed) (Prod.snd f) = true
  | .statements, es | .arguments, es | .moreArguments, es => allIn (Expr.isOn allowed) es = true
  | .statement, e | .functionStatement, e | .declaration, e | .conditional, e
  | .returnStatement, e | .assignment, e | .fieldAssignment, e | .expressionStatement, e
  | .expression, e | .sum, e | .product, e | .chain, e | .primary, e | .functionExpression, e
  | .object, e => Expr.all (Expr.isOn allowed) e = true

/-- A word starts on an allowed line, and so does all that a phrase holds. -/
def Symbol.Placed (allowed : Int → Bool) : (s : Symbol) → s.Value → Prop
  | .word _, token => allowed (lineOf token) = true
  | .phrase c, v => c.Placed allowed v

/-- All values of a row are on allowed lines. -/
def Values.Placed (allowed : Int → Bool) : (ss : List Symbol) → Values ss → Prop
  | [], _ => True
  | s :: ss, (v, vs) => s.Placed allowed v ∧ Values.Placed allowed ss vs

section Build

variable {line : Int}

theorem placed_plain {e : Expr} (hlines : e.lines = [e.line]) (hline : allowed e.line = true) :
    e.isOn allowed = true := by
  rw [Expr.isOn, hlines, List.all_cons, hline]
  rfl

theorem placed_literal {value : Literal} (hline : allowed line = true) :
    (Expr.literal value line).all (Expr.isOn allowed) = true :=
  placed_plain rfl hline

theorem placed_call {callee : Expr} {args : List Expr} (hline : allowed line = true)
    (hcallee : callee.all (Expr.isOn allowed) = true) (hargs : allIn (Expr.isOn allowed) args = true) :
    (Expr.call callee args line).all (Expr.isOn allowed) = true := by
  rw [Expr.all, placed_plain rfl hline, hcallee, hargs]
  rfl

/-- The call of an operator, whose name may have a line of its own. -/
theorem placed_operatorCall {operator : String} {args : List Expr} {l : Int}
    (hline : allowed line = true) (hoperator : allowed l = true)
    (hargs : allIn (Expr.isOn allowed) args = true) :
    (Expr.call (.identifier operator l) args line).all (Expr.isOn allowed) = true :=
  placed_call hline (placed_plain rfl hoperator) hargs

theorem placed_infixCall {left right : Expr} {operator : Token} (hline : allowed line = true)
    (hleft : left.all (Expr.isOn allowed) = true) (hoperator : allowed (lineOf operator) = true)
    (hright : right.all (Expr.isOn allowed) = true) :
    (infixCall line left operator right).all (Expr.isOn allowed) = true := by
  refine placed_operatorCall hline hoperator ?_
  rw [allIn, allIn, hleft, hright]
  rfl

theorem placed_method {receiver : Expr} {name : String} {args : List Expr}
    (hline : allowed line = true) (hreceiver : receiver.all (Expr.isOn allowed) = true)
    (hargs : allIn (Expr.isOn allowed) args = true) :
    (Expr.method receiver name args line).all (Expr.isOn allowed) = true := by
  rw [Expr.all, placed_plain rfl hline, hreceiver, hargs]
  rfl

theorem placed_field {receiver : Expr} {name : String} (hline : allowed line = true)
    (hreceiver : receiver.all (Expr.isOn allowed) = true) :
    (Expr.field receiver name line).all (Expr.isOn allowed) = true := by
  rw [Expr.all, placed_plain rfl hline, hreceiver]
  rfl

theorem placed_setField {receiver value : Expr} {name : String} (hline : allowed line = true)
    (hreceiver : receiver.all (Expr.isOn allowed) = true)
    (hvalue : value.all (Expr.isOn allowed) = true) :
    (Expr.setField receiver name value line).all (Expr.isOn allowed) = true := by
  rw [Expr.all, placed_plain rfl hline, hreceiver, hvalue]
  rfl

theorem placed_object {fields : List (String × Expr)} (hline : allowed line = true)
    (hfields : allInFields (Expr.isOn allowed) fields = true) :
    (Expr.object fields line).all (Expr.isOn allowed) = true := by
  rw [Expr.all, placed_plain rfl hline, hfields]
  rfl

theorem placed_assign {name : String} {value : Expr} {declares : Bool} (hline : allowed line = true)
    (hvalue : value.all (Expr.isOn allowed) = true) :
    (Expr.assign name value declares line).all (Expr.isOn allowed) = true := by
  rw [Expr.all, placed_plain rfl hline, hvalue]
  rfl

theorem placed_returns {value : Expr} (hline : allowed line = true)
    (hvalue : value.all (Expr.isOn allowed) = true) :
    (Expr.returns value line).all (Expr.isOn allowed) = true := by
  rw [Expr.all, placed_plain rfl hline, hvalue]
  rfl

theorem placed_function {name : String} {params : List String} {binds : Bool} {body : Block}
    (hline : allowed line = true) (hbody : Category.Placed allowed .block body) :
    (Expr.function name params binds body line).all (Expr.isOn allowed) = true := by
  have hlines : (Expr.function name params binds body line).isOn allowed = true := by
    simp [Expr.isOn, Expr.lines, hline, hbody.1]
  rw [Expr.all, hlines, hbody.2]
  rfl

theorem placed_choose {condition : Expr} {yes no : Block} (hline : allowed line = true)
    (hcondition : condition.all (Expr.isOn allowed) = true)
    (hyes : Category.Placed allowed .block yes) (hno : Category.Placed allowed .block no) :
    (Expr.choose condition yes no line).all (Expr.isOn allowed) = true := by
  have hlines : (Expr.choose condition yes no line).isOn allowed = true := by
    simp [Expr.isOn, Expr.lines, hline, hyes.1, hno.1]
  rw [Expr.all, hlines, hcondition, hyes.2, hno.2]
  rfl

theorem placed_cons {e : Expr} {es : List Expr} (he : e.all (Expr.isOn allowed) = true)
    (hes : allIn (Expr.isOn allowed) es = true) : allIn (Expr.isOn allowed) (e :: es) = true := by
  rw [allIn, he, hes]
  rfl

theorem placed_concat {e : Expr} {es : List Expr} (hes : allIn (Expr.isOn allowed) es = true)
    (he : e.all (Expr.isOn allowed) = true) : allIn (Expr.isOn allowed) (es.concat e) = true := by
  rw [allIn_iff] at hes ⊢
  rw [List.concat_eq_append]
  exact List.forall_mem_append.mpr ⟨hes, List.forall_mem_singleton.mpr he⟩

theorem placed_fieldsCons {f : String × Expr} {fs : List (String × Expr)}
    (hf : f.2.all (Expr.isOn allowed) = true) (hfs : allInFields (Expr.isOn allowed) fs = true) :
    allInFields (Expr.isOn allowed) (f :: fs) = true := by
  rw [allInFields, hf, hfs]
  rfl

theorem placed_fieldsConcat {f : String × Expr} {fs : List (String × Expr)}
    (hfs : allInFields (Expr.isOn allowed) fs = true) (hf : f.2.all (Expr.isOn allowed) = true) :
    allInFields (Expr.isOn allowed) (fs.concat f) = true := by
  rw [allInFields_iff] at hfs ⊢
  rw [List.concat_eq_append, List.map_append]
  exact List.forall_mem_append.mpr ⟨hfs, List.forall_mem_singleton.mpr hf⟩

end Build

/-- A rule puts what it makes on the lines of its words. -/
theorem Rule.placed_build (r : Rule) {line : Int} (hline : allowed line = true) (vs : Values r.parts)
    (h : Values.Placed allowed r.parts vs) : r.makes.Placed allowed (r.build line vs) := by
  cases r
  -- phrases that are what their only part is
  case statementFunction | statementDeclaration | statementConditional | statementReturn |
      statementAssignment | statementFieldAssignment | statementExpression | expressionStatement |
      expressionSum | sumProduct | productChain | chainPrimary | primaryFunction | primaryObject =>
    exact h.1
  case primaryParenthesised => exact h.2.1
  -- names
  case parametersOne | parametersMore | moreParametersOne | moreParametersMore => trivial
  -- rows
  case statementsOne | argumentsOne => exact placed_cons h.1 rfl
  case moreArgumentsOne => exact placed_cons h.2.1 rfl
  case argumentsMore => exact placed_cons h.1 h.2.1
  case statementsMore => exact placed_concat h.1 h.2.1
  case moreArgumentsMore => exact placed_concat h.1 h.2.2.1
  case fieldsOne | fieldsOneComma => exact placed_fieldsCons h.1 rfl
  case moreFieldsOne => exact placed_fieldsCons h.2.1 rfl
  case fieldsMore | fieldsMoreComma => exact placed_fieldsCons h.1 h.2.1
  case moreFieldsMore => exact placed_fieldsConcat h.1 h.2.2.1
  case fieldName | fieldString => exact h.2.2.1
  -- blocks
  case programEmpty | blockEmpty => exact ⟨hline, rfl⟩
  case programStatements => exact ⟨hline, h.1⟩
  case blockStatements => exact ⟨hline, h.2.1⟩
  -- operands
  case primaryNumber | primarySignedNumber | primaryString => exact placed_literal hline
  case primaryName => exact placed_plain (e := .identifier _ _) rfl hline
  case objectEmpty => exact placed_object hline rfl
  case objectFields => exact placed_object hline h.2.1
  case expressionComparison | sumSign | productFactor =>
    exact placed_infixCall hline h.1 h.2.1 h.2.2.1
  case primarySignCall | primaryFactorCall | primaryComparisonCall =>
    exact placed_operatorCall hline hline rfl
  case primarySignCallArguments | primaryFactorCallArguments | primaryComparisonCallArguments =>
    exact placed_operatorCall hline hline h.2.2.1
  case chainCall => exact placed_call hline h.1 rfl
  case chainCallArguments => exact placed_call hline h.1 h.2.2.1
  case chainMethod => exact placed_method hline h.1 rfl
  case chainMethodArguments => exact placed_method hline h.1 h.2.2.2.2.1
  case chainField => exact placed_field hline h.1
  -- functions
  case functionStatementPlain => exact placed_function hline h.2.2.2.2.1
  case functionStatementParameters => exact placed_function hline h.2.2.2.2.2.1
  case functionExpressionPlain => exact placed_function hline h.2.2.2.1
  case functionExpressionParameters => exact placed_function hline h.2.2.2.2.1
  -- statements
  case declarationVar | declarationLet => exact placed_assign hline (placed_literal hline)
  case declarationVarValue | declarationLetValue => exact placed_assign hline h.2.2.2.1
  case assignmentName => exact placed_assign hline h.2.2.1
  case assignmentField => exact placed_setField hline h.1 h.2.2.2.2.1
  case returnPlain => exact placed_returns hline (placed_literal hline)
  case returnValue => exact placed_returns hline h.2.1
  case conditionalPlain => exact placed_choose hline h.2.2.1 h.2.2.2.2.1 ⟨hline, rfl⟩
  case conditionalElse => exact placed_choose hline h.2.2.1 h.2.2.2.2.1 h.2.2.2.2.2.2.1
  case conditionalElseIf =>
    have hother := h.2.2.2.2.2.2.1
    exact placed_choose hline h.2.2.1 h.2.2.2.2.1
      ⟨Expr.allowed_line hother, placed_cons hother rfl⟩

/-- A row of symbols is on an allowed line if its words are. -/
theorem Derivations.allowed_line {ss : List Symbol} (ds : Derivations ss)
    (hnone : ds.tokens = [] → allowed 1 = true) (h : ∀ t ∈ ds.tokens, allowed (lineOf t) = true) :
    allowed ds.line = true := by
  rw [ds.line_eq]
  cases htokens : ds.tokens with
  | nil => exact hnone htokens
  | cons t ts => exact h t (by rw [htokens]; exact List.mem_cons_self)

mutual

/-- A phrase lies on the lines of its words, if it has any. -/
theorem Derivation.placed_value {s : Symbol} (d : Derivation s)
    (hnone : d.tokens = [] → allowed 1 = true) (h : ∀ t ∈ d.tokens, allowed (lineOf t) = true) :
    s.Placed allowed d.value := by
  cases d with
  | leaf token => exact h token List.mem_cons_self
  | node rule parts =>
    exact rule.placed_build (parts.allowed_line hnone h) _
      (parts.placed_values rule.program_notMem_parts h)

theorem Derivations.placed_values {ss : List Symbol} (ds : Derivations ss)
    (hss : .phrase .program ∉ ss) (h : ∀ t ∈ ds.tokens, allowed (lineOf t) = true) :
    Values.Placed allowed ss ds.values := by
  cases ds with
  | nil => trivial
  | cons first others =>
    obtain ⟨hfirst, hothers⟩ := List.forall_mem_append.mp h
    obtain ⟨hs, hss⟩ := not_or.mp (List.mem_cons.not.mp hss)
    -- only the program can be empty, and it is no part of anything
    have hsome : first.tokens ≠ [] := first.tokens_ne_nil (Ne.symm hs)
    exact ⟨first.placed_value (absurd · hsome) hfirst, others.placed_values hss hothers⟩

end

/-- The value is a script without statements, if it is a script. -/
def Symbol.Blank : (s : Symbol) → s.Value → Prop
  | .phrase .program, script => (Script.body script).statements = []
  | _, _ => True

/-- A script without words has no statements. -/
theorem Derivation.blank_value {s : Symbol} (d : Derivation s) (h : d.tokens = []) :
    s.Blank d.value := by
  cases d with
  | leaf token => trivial
  | node rule parts =>
    cases rule
    case programEmpty => rfl
    case programStatements =>
      obtain ⟨t, ts, htokens, -⟩ := parts.exists_head_starts rfl (by decide)
      rw [Derivation.tokens, htokens] at h
      cases h
    all_goals trivial

end Grammar

/-! ### Scripts -/

namespace Parsing

open Grammar

/-- **All constructs that are read lie on lines of the text**, and so do their blocks. -/
theorem onLines_of_parse {source : String} {script : Script} (h : parse source = .ok script)
    (hlines : ∀ n : Nat, 1 ≤ n → n ≤ (Cursor.ofString source).lastLine → allowed n = true) :
    allowed script.body.line = true ∧ script.body.all (Expr.isOn allowed) = true := by
  obtain ⟨ts, d, hts, htokens, rfl⟩ := exists_sentence_of_parse h
  have hone : allowed 1 = true :=
    hlines 1 (Nat.le_refl 1) (Text.Position.line_le_advance .start source.toList)
  refine d.placed_value (fun _ => hone) fun t ht => ?_
  rw [htokens] at ht
  obtain ⟨hfirst, hlast⟩ := Token.line_of_mem hts t (List.mem_of_mem_filter ht)
  exact hlines _ hfirst hlast

end Parsing

end Scriptlet
