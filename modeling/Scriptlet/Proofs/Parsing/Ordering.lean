import Mathlib.Data.Int.Order.Basic
import Mathlib.Order.Basic
import Scriptlet.Proofs.Parsing.Origins

/-!
# The order of lines

Words come one after the other, so their lines never fall, and the parts of a phrase lie one after the
other between the first line of the phrase and its last one. A construct carries the line of the first word
of its phrase: nothing in it lies above it, and what stands in a row in it goes down the lines.

Between parentheses an operand carries the line of its own first word and not of the parenthesis, which
moves it down only. What the text leaves out, and the name of an operator that is called like a function,
carry the line of the construct around them.

## What is proved

* `rising_significant`: the lines of the words of a text never fall.
* `Rule.within_build`: if the parts of a rule lie one after the other, what it makes lies between the line
  that it gets and the last line of its parts.
* `lines_ordered`: where the constructs of a script lie.
-/

namespace Scriptlet

open Lexical

/-! ### Constructs between two lines -/

/-- The parts of a construct that stand in a row: the statements of a block, the arguments of a call and the
values of the fields of an object. -/
def Expr.row : Expr → List Expr
  | .block body => body.statements
  | .call _ args _ | .method _ _ args _ => args
  | .object fields _ => fields.map Prod.snd
  | .literal _ _ | .identifier _ _ | .assign _ _ _ _ | .function _ _ _ _ _ | .returns _ _
  | .choose _ _ _ _ | .field _ _ _ | .setField _ _ _ _ => []

/-- Constructs go down the lines. -/
def Descends (es : List Expr) : Prop := es.Pairwise fun e e' => e.line ≤ e'.line

/-- A construct lies between two lines with all its parts, none of which lies above it, and everything in it
that stands in a row goes down the lines. -/
inductive Expr.Within (last : Int) : Int → Expr → Prop where
  /-- The parts lie between the line of the construct and the last line. -/
  | intro {first : Int} {e : Expr} (hfirst : first ≤ e.line) (hlast : e.line ≤ last)
      (hparts : ∀ p ∈ e.parts, Within last e.line p.2) (hrow : Descends e.row) : Within last first e

namespace Expr.Within

variable {first first' last last' : Int} {e : Expr}

theorem first_le (h : e.Within last first) : first ≤ e.line := by
  obtain ⟨hfirst, -, -, -⟩ := h
  exact hfirst

theorem le_last (h : e.Within last first) : e.line ≤ last := by
  obtain ⟨-, hlast, -, -⟩ := h
  exact hlast

/-- A construct lies below its own line. -/
theorem self (h : e.Within last first) : e.Within last e.line := by
  obtain ⟨-, hlast, hparts, hrow⟩ := h
  exact .intro le_rfl hlast hparts hrow

theorem mono (h : e.Within last first) (hfirst : first' ≤ first) (hlast : last ≤ last') :
    e.Within last' first' := by
  induction h generalizing first' with
  | intro hf hl _ hrow ih =>
    exact .intro (hfirst.trans hf) (hl.trans hlast) (fun p hp => ih p hp le_rfl) hrow

/-- All that stands in a block lies between the lines between which the block lies. -/
theorem of_has {root : Block} {place : Place} (hroot : (Expr.block root).Within last first)
    (h : root.Has place e) : e.Within last first := by
  induction h with
  | root => exact hroot
  | part _ hpart ih =>
    obtain ⟨hfirst, -, hparts, -⟩ := ih
    exact (hparts _ hpart).mono hfirst le_rfl

end Expr.Within

/-- Constructs lie between two lines and go down the lines. -/
structure RowWithin (last first : Int) (es : List Expr) : Prop where
  /-- Each of them lies there. -/
  each : ∀ e ∈ es, e.Within last first
  /-- They go down the lines. -/
  descends : Descends es

namespace RowWithin

variable {first first' middle last last' : Int} {e : Expr} {es es' : List Expr}

theorem nil : RowWithin last first [] := ⟨List.forall_mem_nil _, .nil⟩

theorem single (h : e.Within last first) : RowWithin last first [e] :=
  ⟨List.forall_mem_singleton.mpr h, List.pairwise_singleton _ _⟩

theorem mono (h : RowWithin last first es) (hfirst : first' ≤ first) (hlast : last ≤ last') :
    RowWithin last' first' es :=
  ⟨fun e he => (h.each e he).mono hfirst hlast, h.descends⟩

/-- Two rows, the second of which starts where the first one ends. -/
theorem append (h : RowWithin middle first es) (h' : RowWithin last middle es')
    (hfirst : first ≤ middle) (hlast : middle ≤ last) : RowWithin last first (es ++ es') := by
  refine ⟨List.forall_mem_append.mpr ⟨(h.mono le_rfl hlast).each, (h'.mono hfirst le_rfl).each⟩, ?_⟩
  refine List.pairwise_append.mpr ⟨h.descends, h'.descends, fun e he e' he' => ?_⟩
  exact (h.each e he).le_last.trans (h'.each e' he').first_le

theorem concat (h : RowWithin middle first es) (h' : e.Within last middle)
    (hfirst : first ≤ middle) (hlast : middle ≤ last) : RowWithin last first (es.concat e) := by
  rw [List.concat_eq_append]
  exact h.append (.single h') hfirst hlast

end RowWithin

/-! ### Words -/

/-- Words lie between two lines and their lines never fall. -/
def Rising (last : Int) : Int → List Token → Prop
  | first, [] => first ≤ last
  | first, t :: ts => first ≤ Grammar.lineOf t ∧ Rising last (Grammar.lineOf t) ts

theorem Rising.le {first last : Int} {ts : List Token} (h : Rising last first ts) : first ≤ last := by
  induction ts generalizing first with
  | nil => exact h
  | cons t ts ih => exact h.1.trans (ih h.2)

/-- Words that lie one after the other can be cut in two at a line. -/
theorem Rising.exists_middle {first last : Int} {ts us : List Token}
    (h : Rising last first (ts ++ us)) :
    ∃ middle, Rising middle first ts ∧ Rising last middle us := by
  induction ts generalizing first with
  | nil => exact ⟨first, le_refl first, h⟩
  | cons t ts ih =>
    obtain ⟨middle, hts, hus⟩ := ih h.2
    exact ⟨middle, ⟨h.1, hts⟩, hus⟩

/-- The lines of the words of a text never fall. -/
theorem rising_significant {c : Cursor} {ts : List Token} (h : Tiled c ts) :
    ∀ {first : Int}, first ≤ c.position.line → Rising c.lastLine first (significant ts) := by
  induction h with
  | nil p => exact fun hfirst => hfirst
  | @cons c d t ts hstands _ ih =>
    intro first hfirst
    have hline : c.position.line ≤ d.position.line := by
      rw [hstands.after, hstands.stop]
      exact Text.Position.line_le_advance _ _
    rw [← hstands.lastLine_eq]
    cases hignored : t.kind.isIgnored with
    | true =>
      rw [significant_cons_of_ignored hignored]
      exact ih (hfirst.trans (Int.ofNat_le.mpr hline))
    | false =>
      rw [significant_cons_of_not_ignored hignored]
      rw [← hstands.start] at hfirst hline
      exact ⟨hfirst, ih (Int.ofNat_le.mpr hline)⟩

namespace Grammar

variable {first first' middle last last' : Int}

/-! ### Phrases -/

/-- What the value of a phrase holds lies between two lines. -/
def Category.Within (last first : Int) : (c : Category) → c.Value → Prop
  | .program, script => (Expr.block (Script.body script)).Within last first
  | .block, body => (Expr.block body).Within last first
  | .parameters, _ | .moreParameters, _ => True
  | .fields, fs | .moreFields, fs => RowWithin last first (List.map Prod.snd fs)
  | .field, f => Expr.Within last first (Prod.snd f)
  | .statements, es | .arguments, es | .moreArguments, es => RowWithin last first es
  | .statement, e | .functionStatement, e | .declaration, e | .conditional, e
  | .returnStatement, e | .assignment, e | .fieldAssignment, e | .expressionStatement, e
  | .expression, e | .sum, e | .product, e | .chain, e | .primary, e | .functionExpression, e
  | .object, e => Expr.Within last first e

/-- A word lies between two lines, and so does what a phrase holds. -/
def Symbol.Within (last first : Int) : (s : Symbol) → s.Value → Prop
  | .word _, token => first ≤ lineOf token ∧ lineOf token ≤ last
  | .phrase c, v => c.Within last first v

/-- The values of a row of symbols lie between two lines, one after the other. -/
def Values.Within (last : Int) : (first : Int) → (ss : List Symbol) → Values ss → Prop
  | first, [], _ => first ≤ last
  | first, s :: ss, (v, vs) =>
    ∃ middle, first ≤ middle ∧ s.Within middle first v ∧ Values.Within last middle ss vs

theorem Category.Within.mono {c : Category} {v : c.Value} (h : c.Within last first v)
    (hfirst : first' ≤ first) (hlast : last ≤ last') : c.Within last' first' v := by
  cases c
  case parameters | moreParameters => trivial
  case fields | moreFields | statements | arguments | moreArguments =>
    exact RowWithin.mono h hfirst hlast
  all_goals exact Expr.Within.mono h hfirst hlast

theorem Symbol.Within.mono {s : Symbol} {v : s.Value} (h : s.Within last first v)
    (hfirst : first' ≤ first) (hlast : last ≤ last') : s.Within last' first' v := by
  cases s with
  | word t => exact ⟨hfirst.trans h.1, h.2.trans hlast⟩
  | phrase c => exact Category.Within.mono h hfirst hlast

theorem Values.Within.le {ss : List Symbol} {vs : Values ss} (h : Values.Within last first ss vs) :
    first ≤ last := by
  induction ss generalizing first with
  | nil => exact h
  | cons s ss ih =>
    obtain ⟨middle, hmiddle, -, hothers⟩ := h
    exact hmiddle.trans (ih hothers)

theorem Values.Within.mono {ss : List Symbol} {vs : Values ss} (h : Values.Within last first ss vs)
    (hfirst : first' ≤ first) : Values.Within last first' ss vs := by
  cases ss with
  | nil => exact hfirst.trans h
  | cons s ss =>
    obtain ⟨middle, hmiddle, hv, hothers⟩ := h
    exact ⟨middle, hfirst.trans hmiddle, hv.mono hfirst le_rfl, hothers⟩

/-- The first value lies between the two lines, and so do the others. -/
theorem Values.Within.head {s : Symbol} {ss : List Symbol} {vs : Values (s :: ss)}
    (h : Values.Within last first (s :: ss) vs) : s.Within last first vs.1 := by
  obtain ⟨middle, -, hv, hothers⟩ := h
  exact hv.mono le_rfl hothers.le

theorem Values.Within.tail {s : Symbol} {ss : List Symbol} {vs : Values (s :: ss)}
    (h : Values.Within last first (s :: ss) vs) : Values.Within last first ss vs.2 := by
  obtain ⟨middle, hmiddle, -, hothers⟩ := h
  exact hothers.mono hmiddle

/-! ### What rules make -/

section Build

variable {line : Int}

/-- A construct on the first line of its parts. -/
theorem within_of_parts {e : Expr} (hlast : e.line ≤ last)
    (hparts : ∀ p ∈ e.parts, p.2.Within last e.line) (hrow : Descends e.row) :
    e.Within last e.line :=
  .intro le_rfl hlast hparts hrow

theorem within_literal {value : Literal} (hlast : line ≤ last) :
    (Expr.literal value line).Within last line :=
  within_of_parts (e := .literal value line) hlast (List.forall_mem_nil _) .nil

theorem within_identifier {name : String} {l : Int} (hfirst : line ≤ l) (hlast : l ≤ last) :
    (Expr.identifier name l).Within last line :=
  .intro hfirst hlast (List.forall_mem_nil _) .nil

theorem within_block {es : List Expr} (hlast : line ≤ last) (hes : RowWithin last line es) :
    (Expr.block ⟨es, line⟩).Within last line :=
  within_of_parts (e := .block ⟨es, line⟩) hlast (List.forall_mem_map.mpr hes.each) hes.descends

theorem within_call {callee : Expr} {args : List Expr} (hcallee : callee.Within last line)
    (hargs : RowWithin last line args) (hlast : line ≤ last) :
    (Expr.call callee args line).Within last line :=
  within_of_parts (e := .call callee args line) hlast
    (List.forall_mem_cons.mpr ⟨hcallee, List.forall_mem_map.mpr hargs.each⟩) hargs.descends

theorem within_method {receiver : Expr} {name : String} {args : List Expr}
    (hreceiver : receiver.Within last line) (hargs : RowWithin last line args) (hlast : line ≤ last) :
    (Expr.method receiver name args line).Within last line :=
  within_of_parts (e := .method receiver name args line) hlast
    (List.forall_mem_cons.mpr ⟨hreceiver, List.forall_mem_map.mpr hargs.each⟩) hargs.descends

theorem within_object {fields : List (String × Expr)} (hlast : line ≤ last)
    (hfields : RowWithin last line (fields.map Prod.snd)) :
    (Expr.object fields line).Within last line := by
  refine within_of_parts (e := .object fields line) hlast ?_ hfields.descends
  exact List.forall_mem_map.mpr (List.forall_mem_map.mp hfields.each)

theorem within_field {receiver : Expr} {name : String} (hreceiver : receiver.Within last line)
    (hlast : line ≤ last) : (Expr.field receiver name line).Within last line :=
  within_of_parts (e := .field receiver name line) hlast (List.forall_mem_singleton.mpr hreceiver) .nil

theorem within_setField {receiver value : Expr} {name : String}
    (hreceiver : receiver.Within last line) (hvalue : value.Within last line) (hlast : line ≤ last) :
    (Expr.setField receiver name value line).Within last line :=
  within_of_parts (e := .setField receiver name value line) hlast
    (List.forall_mem_cons.mpr ⟨hreceiver, List.forall_mem_singleton.mpr hvalue⟩) .nil

theorem within_assign {name : String} {value : Expr} {declares : Bool}
    (hvalue : value.Within last line) (hlast : line ≤ last) :
    (Expr.assign name value declares line).Within last line := by
  refine within_of_parts (e := .assign name value declares line) hlast ?_ .nil
  cases declares <;> exact List.forall_mem_singleton.mpr hvalue

theorem within_returns {value : Expr} (hvalue : value.Within last line) (hlast : line ≤ last) :
    (Expr.returns value line).Within last line :=
  within_of_parts (e := .returns value line) hlast (List.forall_mem_singleton.mpr hvalue) .nil

theorem within_function {name : String} {params : List String} {binds : Bool} {body : Block}
    (hbody : (Expr.block body).Within last line) (hlast : line ≤ last) :
    (Expr.function name params binds body line).Within last line :=
  within_of_parts (e := .function name params binds body line) hlast
    (List.forall_mem_singleton.mpr hbody) .nil

theorem within_choose {condition : Expr} {yes no : Block} (hcondition : condition.Within last line)
    (hyes : (Expr.block yes).Within last line) (hno : (Expr.block no).Within last line)
    (hlast : line ≤ last) : (Expr.choose condition yes no line).Within last line :=
  within_of_parts (e := .choose condition yes no line) hlast
    (List.forall_mem_cons.mpr ⟨hcondition, List.forall_mem_cons.mpr
      ⟨hyes, List.forall_mem_singleton.mpr hno⟩⟩) .nil

theorem within_fieldsConcat {f : String × Expr} {fs : List (String × Expr)}
    (hfs : RowWithin middle first (fs.map Prod.snd)) (hf : f.2.Within last middle)
    (hfirst : first ≤ middle) (hlast : middle ≤ last) :
    RowWithin last first ((fs.concat f).map Prod.snd) := by
  rw [List.concat_eq_append, List.map_append]
  exact hfs.append (.single hf) hfirst hlast

/-- An operator between its operands, which lie before and after it. -/
theorem within_infixCall {left right : Expr} {operator : Token} {l l' : Int}
    (hleft : left.Within l line) (hoperator : l ≤ lineOf operator ∧ lineOf operator ≤ l')
    (hright : right.Within last l') (hline : line ≤ l) (hlast : l' ≤ last) :
    (infixCall line left operator right).Within last line := by
  have hmiddle : l ≤ l' := hoperator.1.trans hoperator.2
  refine within_call ?_ ?_ (hline.trans (hmiddle.trans hlast))
  · exact within_identifier (hline.trans hoperator.1) (hoperator.2.trans hlast)
  · exact (RowWithin.single (hleft.mono le_rfl hmiddle)).append (.single hright)
      (hline.trans hmiddle) hlast

end Build

/-- If the parts of a rule lie one after the other, what it makes lies between the line that it gets and the
last line of its parts. -/
theorem Rule.within_build (r : Rule) {line : Int} (vs : Values r.parts)
    (h : Values.Within last line r.parts vs) : r.makes.Within last line (r.build line vs) := by
  have hlast : line ≤ last := h.le
  cases r
  -- phrases that are what their only part is
  case statementFunction | statementDeclaration | statementConditional | statementReturn |
      statementAssignment | statementFieldAssignment | statementExpression | expressionStatement |
      expressionSum | sumProduct | productChain | chainPrimary | primaryFunction | primaryObject =>
    exact h.head
  case primaryParenthesised => exact h.tail.head
  -- names
  case parametersOne | parametersMore | moreParametersOne | moreParametersMore => trivial
  -- rows
  case statementsOne | argumentsOne => exact .single h.head
  case fieldsOne | fieldsOneComma => exact RowWithin.single h.head
  case moreArgumentsOne => exact .single h.tail.head
  case moreFieldsOne => exact RowWithin.single h.tail.head
  case argumentsMore | fieldsMore | fieldsMoreComma =>
    obtain ⟨middle, hmiddle, hfirst, hothers⟩ := h
    exact (RowWithin.single hfirst).append hothers.head hmiddle hothers.le
  case statementsMore =>
    obtain ⟨middle, hmiddle, hfirst, hothers⟩ := h
    exact hfirst.concat hothers.head hmiddle hothers.le
  case moreArgumentsMore =>
    obtain ⟨middle, hmiddle, hfirst, hothers⟩ := h
    exact hfirst.concat hothers.tail.head hmiddle hothers.le
  case moreFieldsMore =>
    obtain ⟨middle, hmiddle, hfirst, hothers⟩ := h
    exact within_fieldsConcat hfirst hothers.tail.head hmiddle hothers.le
  case fieldName | fieldString => exact h.tail.tail.head
  -- blocks
  case programEmpty | blockEmpty => exact within_block hlast .nil
  case programStatements => exact within_block hlast h.head
  case blockStatements => exact within_block hlast h.tail.head
  -- operands
  case primaryNumber | primarySignedNumber | primaryString => exact within_literal hlast
  case primaryName => exact within_identifier le_rfl hlast
  case objectEmpty => exact within_object hlast .nil
  case objectFields => exact within_object hlast h.tail.head
  case expressionComparison | sumSign | productFactor =>
    obtain ⟨l, hl, hleft, l', hl', hoperator, hright⟩ := h
    exact within_infixCall hleft hoperator hright.head hl hright.le
  case primarySignCall | primaryFactorCall | primaryComparisonCall =>
    exact within_call (within_identifier le_rfl hlast) .nil hlast
  case primarySignCallArguments | primaryFactorCallArguments | primaryComparisonCallArguments =>
    exact within_call (within_identifier le_rfl hlast) h.tail.tail.head hlast
  case chainCall => exact within_call h.head .nil hlast
  case chainCallArguments => exact within_call h.head h.tail.tail.head hlast
  case chainMethod => exact within_method h.head .nil hlast
  case chainMethodArguments => exact within_method h.head h.tail.tail.tail.tail.head hlast
  case chainField => exact within_field h.head hlast
  -- functions
  case functionStatementPlain => exact within_function h.tail.tail.tail.tail.head hlast
  case functionStatementParameters => exact within_function h.tail.tail.tail.tail.tail.head hlast
  case functionExpressionPlain => exact within_function h.tail.tail.tail.head hlast
  case functionExpressionParameters => exact within_function h.tail.tail.tail.tail.head hlast
  -- statements
  case declarationVar | declarationLet => exact within_assign (within_literal hlast) hlast
  case declarationVarValue | declarationLetValue => exact within_assign h.tail.tail.tail.head hlast
  case assignmentName => exact within_assign h.tail.tail.head hlast
  case assignmentField => exact within_setField h.head h.tail.tail.tail.tail.head hlast
  case returnPlain => exact within_returns (within_literal hlast) hlast
  case returnValue => exact within_returns h.tail.head hlast
  case conditionalPlain =>
    exact within_choose h.tail.tail.head h.tail.tail.tail.tail.head (within_block hlast .nil) hlast
  case conditionalElse =>
    exact within_choose h.tail.tail.head h.tail.tail.tail.tail.head
      h.tail.tail.tail.tail.tail.tail.head hlast
  case conditionalElseIf =>
    -- the block of the other choice lies on the line of that choice
    have hother : Expr.Within last line _ := h.tail.tail.tail.tail.tail.tail.head
    refine within_choose h.tail.tail.head h.tail.tail.tail.tail.head ?_ hlast
    exact (within_block hother.le_last (.single hother.self)).mono hother.first_le le_rfl

mutual

/-- A phrase lies between the lines of its words, if it has any. -/
theorem Derivation.within_value {s : Symbol} {first last : Int} (d : Derivation s)
    (hnone : d.tokens = [] → first ≤ 1 ∧ 1 ≤ last) (h : Rising last first d.tokens) :
    s.Within last first d.value := by
  cases d with
  | leaf token => exact h
  | node rule parts =>
    have hline : first ≤ parts.line ∧ Rising last parts.line parts.tokens := by
      rw [parts.line_eq]
      rw [Derivation.tokens] at h hnone
      cases htokens : parts.tokens with
      | nil => exact hnone htokens
      | cons t ts =>
        rw [htokens] at h
        exact ⟨h.1, le_rfl, h.2⟩
    have hvalues := parts.within_values rule.program_notMem_parts hline.2
    exact (rule.within_build _ hvalues).mono hline.1 le_rfl

theorem Derivations.within_values {ss : List Symbol} {first last : Int} (ds : Derivations ss)
    (hss : .phrase .program ∉ ss) (h : Rising last first ds.tokens) :
    Values.Within last first ss ds.values := by
  cases ds with
  | nil => exact h
  | cons d others =>
    obtain ⟨middle, hfirst, hothers⟩ := Rising.exists_middle h
    obtain ⟨hs, hss⟩ := not_or.mp (List.mem_cons.not.mp hss)
    -- only the program can be empty, and it is no part of anything
    have hsome : d.tokens ≠ [] := d.tokens_ne_nil (Ne.symm hs)
    exact ⟨middle, hfirst.le, d.within_value (absurd · hsome) hfirst,
      others.within_values hss hothers⟩

end

end Grammar

/-! ### Scripts -/

namespace Parsing

open Grammar

/-- **The lines of a script are in order.** Every construct of a script that is read from a text, the blocks
that it is made of and what the text leaves out included, lies on a line of the text. None of its parts lies
above it, and the statements of a block, the arguments of a call and the values of an object go down the
lines. -/
theorem lines_ordered {source : String} {script : Script} (h : parse source = .ok script)
    {place : Place} {e : Expr} (he : script.body.Has place e) :
    (1 ≤ e.line ∧ e.line ≤ Text.lineCount source) ∧ (∀ p ∈ e.parts, e.line ≤ p.2.line) ∧
      e.row.Pairwise fun a b => a.line ≤ b.line := by
  obtain ⟨ts, d, hts, htokens, rfl⟩ := exists_sentence_of_parse h
  have hrising : Rising (Cursor.ofString source).lastLine 1 d.tokens := by
    rw [htokens]
    exact rising_significant hts le_rfl
  have hroot : (Expr.block d.script.body).Within (Cursor.ofString source).lastLine 1 :=
    d.within_value (fun _ => ⟨le_rfl, hrising.le⟩) hrising
  have hcount : (Cursor.ofString source).lastLine = Text.lineCount source := by
    rw [Cursor.lastLine, Text.Position.line_advance]
    exact Nat.add_comm _ _
  obtain ⟨hfirst, hlast, hparts, hrow⟩ := Expr.Within.of_has hroot he
  rw [hcount] at hlast
  exact ⟨⟨hfirst, hlast⟩, fun p hp => (hparts p hp).first_le, hrow⟩

/-- The derivation of `f(1,` with `2);` on the next line. -/
def brokenCall : Sentence :=
  let word (kind : Terminal) (c : Char) (n line column : Nat) : Token :=
    ⟨kind, [c], ⟨n, line, column⟩, ⟨n + 1, line, column + 1⟩⟩
  let expression (d : Derivation (.phrase .chain)) : Derivation (.phrase .expression) :=
    .node .expressionSum (.cons (.node .sumProduct (.cons (.node .productChain (.cons d .nil)) .nil))
      .nil)
  let number (t : Derivation (.word .number)) : Derivation (.phrase .expression) :=
    expression (.node .chainPrimary (.cons (.node .primaryNumber (.cons t .nil)) .nil))
  let callee : Derivation (.phrase .chain) :=
    .node .chainPrimary (.cons (.node .primaryName (.cons (.leaf (word .name 'f' 0 1 1)) .nil)) .nil)
  let others : Derivation (.phrase .moreArguments) := .node .moreArgumentsOne
    (.cons (.leaf (word .comma ',' 3 1 4)) (.cons (number (.leaf (word .number '2' 5 2 1))) .nil))
  let arguments : Derivation (.phrase .arguments) :=
    .node .argumentsMore (.cons (number (.leaf (word .number '1' 2 1 3))) (.cons others .nil))
  let call : Derivation (.phrase .chain) := .node .chainCallArguments
    (.cons callee (.cons (.leaf (word .leftParen '(' 1 1 2)) (.cons arguments
      (.cons (.leaf (word .rightParen ')' 6 2 2)) .nil))))
  let statement : Derivation (.phrase .statement) := .node .statementExpression
    (.cons (.node .expressionStatement
      (.cons (expression call) (.cons (.leaf (word .semicolon ';' 7 2 3)) .nil))) .nil)
  .node .programStatements (.cons (.node .statementsOne (.cons statement .nil)) .nil)

/-- The second argument of that call lies below the first one. -/
theorem lines_ordered_brokenCall :
    let one : Expr := .literal (.int 1) 1
    let two : Expr := .literal (.int 2) 2
    let call : Expr := .call (.identifier "f" 1) [one, two] 1
    parse "f(1,\n2);" = .ok ⟨⟨[call], 1⟩⟩ ∧ Block.Has ⟨[call], 1⟩ .statement call ∧
      (1 ≤ call.line ∧ call.line ≤ Text.lineCount "f(1,\n2);") ∧
      (∀ p ∈ call.parts, call.line ≤ p.2.line) ∧ [one, two].Pairwise fun a b => a.line ≤ b.line := by
  intro one two call
  have hwords : words "f(1,\n2);" = ((words "f(1,\n2);").1, none) := by decide
  have hprefers : brokenCall.PrefersMethods := by
    simp [brokenCall, Derivation.PrefersMethods, Derivations.PreferMethods, Rule.isCall,
      Derivations.NoField, Derivation.fieldParts?]
  have hparse : parse "f(1,\n2);" = .ok brokenCall.script :=
    parse_of_words hprefers hwords (by decide)
  have hcall : Block.Has ⟨[call], 1⟩ .statement call :=
    .part .root (List.mem_singleton.mpr rfl)
  exact ⟨hparse, hcall, lines_ordered hparse hcall⟩

end Parsing

end Scriptlet
