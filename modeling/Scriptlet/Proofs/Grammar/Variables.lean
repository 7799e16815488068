import Scriptlet.Proofs.Parsing.Rejection
import Scriptlet.Proofs.Parsing.WellFormed
import Scriptlet.Proofs.Script.Nodes

/-!
# Where the variables of a script stand

Every variable that a script names, operators that are called apart, is the text of a name among its
words. How the script uses it tells where this name stands: a variable that is read is an operand, and one
that is assigned to starts a statement. What else could stand in its place is then known too: functions
are operands, and declarations, choices and the ends of functions are statements.

A phrase is looked at together with the words before and after it. It `Fits` between them if any phrase of
the kind makes a sentence there, and then its parts do, each between the words of the others.

## What is proved

* `Rule.names_build`: a rule names the variables of its parts, and its own words.
* `Derivation.names_value`: the variables of a phrase that fits stand in their places.
* `Sentence.accounted_of_mem_variables`: so do those of a script.
-/

namespace Scriptlet

open Lexical

/-! ### Variables -/

/-- What a variable is named for. -/
inductive Use where
  /-- Its value is read. -/
  | reading
  /-- It is assigned to. -/
  | assignment
  /-- It is declared. -/
  | declaration
  /-- It is the name of a function that is declared. -/
  | function
  /-- It is a parameter. -/
  | parameter
  deriving DecidableEq, Repr

/-- The variables that a construct names itself, not those of the constructs in it. -/
def Expr.variables : Expr → List (Use × String)
  | .identifier name _ => [(.reading, name)]
  | .assign name _ declares _ => [(if declares then .declaration else .assignment, name)]
  | .function name params binds _ _ =>
    (if binds then [(.function, name)] else []) ++ params.map fun param => (.parameter, param)
  | .block _ | .literal _ _ | .call _ _ _ | .returns _ _ | .choose _ _ _ _ | .object _ _
  | .field _ _ _ | .setField _ _ _ _ | .method _ _ _ _ => []

/-- The variables that a script names. -/
def Script.variables (script : Script) : List (Use × String) :=
  script.body.nodes.flatMap Expr.variables

/-- The reserved words that can stand wherever a variable is named for the use: what they begin can stand
there. -/
def Use.rivals : Use → List Terminal
  | .reading => [.functionWord]
  | .assignment => [.functionWord, .varWord, .letWord, .ifWord, .returnWord]
  | .declaration | .function | .parameter => []

namespace Grammar

/-! ### What rules name -/

section Names

variable {P : Use × String → Prop}

/-- A property holds of all variables that a construct and the constructs in it name. -/
def AllNamed (P : Use × String → Prop) (e : Expr) : Prop := ∀ x ∈ e.nodes, ∀ v ∈ x.variables, P v

/-- A property holds of all variables that what a phrase stands for names. -/
def Category.Names (P : Use × String → Prop) : (c : Category) → c.Value → Prop
  | .program, script => ∀ x ∈ (Script.body script).nodes, ∀ v ∈ x.variables, P v
  | .block, body => ∀ x ∈ Block.nodes body, ∀ v ∈ x.variables, P v
  | .parameters, names | .moreParameters, names =>
    ∀ name ∈ (show List String from names), P (.parameter, name)
  | .fields, fs | .moreFields, fs => ∀ f ∈ (show List (String × Expr) from fs), AllNamed P f.2
  | .field, f => AllNamed P (Prod.snd f)
  | .statements, es | .arguments, es | .moreArguments, es =>
    ∀ e ∈ (show List Expr from es), AllNamed P e
  | .statement, e | .functionStatement, e | .declaration, e | .conditional, e
  | .returnStatement, e | .assignment, e | .fieldAssignment, e | .expressionStatement, e
  | .expression, e | .sum, e | .product, e | .chain, e | .primary, e | .functionExpression, e
  | .object, e => AllNamed P e

/-- A property holds of the variables of a phrase. A name has it for the uses that have no rivals, and the
sign of an operator as what is read. -/
def Symbol.Names (P : Use × String → Prop) : (s : Symbol) → s.Value → Prop
  | .word k, token =>
    (k = .name → ∀ u : Use, u.rivals = [] → P (u, Token.text token)) ∧
      (k = .sign ∨ k = .factor ∨ k = .comparison → P (.reading, Token.text token))
  | .phrase c, x => c.Names P x

/-- A property holds of the variables of all values of a row. -/
def Values.Names (P : Use × String → Prop) : (ss : List Symbol) → Values ss → Prop
  | [], _ => True
  | s :: ss, (x, xs) => s.Names P x ∧ Values.Names P ss xs

/-- The word that a row starts with, if it starts with one. -/
def Values.firstWord? : (ss : List Symbol) → Values ss → Option Token
  | .word _ :: _, (token, _) => some token
  | _, _ => none

/-- What the word that a rule starts with is named for, where it names a variable that has rivals. -/
def Rule.use? : Rule → Option Use
  | .primaryName => some .reading
  | .assignmentName => some .assignment
  | _ => none

variable {line : Int} {es : List Expr} {e : Expr} {body : Block}

theorem allNamed_literal (value : Literal) : AllNamed P (.literal value line) :=
  List.forall_mem_singleton.mpr (List.forall_mem_nil _)

theorem allNamed_identifier {name : String} (h : P (.reading, name)) :
    AllNamed P (.identifier name line) :=
  List.forall_mem_singleton.mpr (List.forall_mem_singleton.mpr h)

theorem allNamed_call (h : AllNamed P e) (hes : ∀ e ∈ es, AllNamed P e) :
    AllNamed P (.call e es line) := by
  rw [AllNamed, Expr.nodes, List.forall_mem_cons, List.forall_mem_append]
  exact ⟨List.forall_mem_nil _, h, forall_mem_nodesIn.mpr hes⟩

theorem allNamed_assign {name : String} {declares : Bool}
    (hname : P (if declares then .declaration else .assignment, name)) (h : AllNamed P e) :
    AllNamed P (.assign name e declares line) := by
  rw [AllNamed, Expr.nodes, List.forall_mem_cons]
  exact ⟨List.forall_mem_singleton.mpr hname, h⟩

theorem allNamed_function {name : String} {params : List String} {binds : Bool}
    (hname : binds = true → P (.function, name)) (hparams : ∀ param ∈ params, P (.parameter, param))
    (h : Category.block.Names P body) : AllNamed P (.function name params binds body line) := by
  rw [AllNamed, Expr.nodes, List.forall_mem_cons, Expr.variables, List.forall_mem_append,
    List.forall_mem_map]
  refine ⟨⟨?_, hparams⟩, h⟩
  cases binds with
  | false => exact List.forall_mem_nil _
  | true => exact List.forall_mem_singleton.mpr (hname rfl)

theorem allNamed_returns (h : AllNamed P e) : AllNamed P (.returns e line) := by
  rw [AllNamed, Expr.nodes, List.forall_mem_cons]
  exact ⟨List.forall_mem_nil _, h⟩

theorem allNamed_choose {yes no : Block} (h : AllNamed P e) (hyes : Category.block.Names P yes)
    (hno : Category.block.Names P no) : AllNamed P (.choose e yes no line) := by
  rw [AllNamed, Expr.nodes, List.forall_mem_cons, List.forall_mem_append, List.forall_mem_append]
  exact ⟨List.forall_mem_nil _, ⟨h, hyes⟩, hno⟩

theorem allNamed_object {fields : List (String × Expr)} (h : ∀ f ∈ fields, AllNamed P f.2) :
    AllNamed P (.object fields line) := by
  rw [AllNamed, Expr.nodes, List.forall_mem_cons]
  exact ⟨List.forall_mem_nil _, forall_mem_nodesInFields.mpr h⟩

theorem allNamed_field {name : String} (h : AllNamed P e) : AllNamed P (.field e name line) := by
  rw [AllNamed, Expr.nodes, List.forall_mem_cons]
  exact ⟨List.forall_mem_nil _, h⟩

theorem allNamed_setField {name : String} {value : Expr} (h : AllNamed P e)
    (hvalue : AllNamed P value) : AllNamed P (.setField e name value line) := by
  rw [AllNamed, Expr.nodes, List.forall_mem_cons, List.forall_mem_append]
  exact ⟨List.forall_mem_nil _, h, hvalue⟩

theorem allNamed_method {name : String} (h : AllNamed P e) (hes : ∀ e ∈ es, AllNamed P e) :
    AllNamed P (.method e name es line) := by
  rw [AllNamed, Expr.nodes, List.forall_mem_cons, List.forall_mem_append]
  exact ⟨List.forall_mem_nil _, h, forall_mem_nodesIn.mpr hes⟩

theorem names_block (h : ∀ e ∈ es, AllNamed P e) : Category.block.Names P (Block.mk es line) :=
  List.forall_mem_cons.mpr ⟨List.forall_mem_nil _, forall_mem_nodesIn.mpr h⟩

theorem forall_mem_concat {α : Type} {p : α → Prop} {as : List α} {a : α} (h : ∀ b ∈ as, p b)
    (ha : p a) : ∀ b ∈ as.concat a, p b := by
  rw [List.concat_eq_append]
  exact List.forall_mem_append.mpr ⟨h, List.forall_mem_singleton.mpr ha⟩

/-- A rule names the variables of its parts and its own words. -/
theorem Rule.names_build (r : Rule) (line : Int) (xs : Values r.parts)
    (hfirst : ∀ u ∈ r.use?, ∀ t ∈ Values.firstWord? r.parts xs, P (u, t.text))
    (h : Values.Names P r.parts xs) : r.makes.Names P (r.build line xs) := by
  cases r
  -- phrases that are what their only part is
  case statementFunction | statementDeclaration | statementConditional | statementReturn |
      statementAssignment | statementFieldAssignment | statementExpression | expressionSum |
      sumProduct | productChain | chainPrimary | primaryFunction | primaryObject |
      expressionStatement =>
    exact h.1
  case primaryParenthesised => exact h.2.1
  case programStatements => exact names_block h.1
  case blockStatements => exact names_block h.2.1
  case programEmpty | blockEmpty => exact names_block (List.forall_mem_nil _)
  case primaryNumber | primarySignedNumber | primaryString => exact allNamed_literal _
  case objectEmpty => exact allNamed_object (List.forall_mem_nil _)
  case objectFields => exact allNamed_object h.2.1
  -- rows
  case statementsOne | argumentsOne | fieldsOne | fieldsOneComma =>
    exact List.forall_mem_singleton.mpr h.1
  case moreArgumentsOne | moreFieldsOne => exact List.forall_mem_singleton.mpr h.2.1
  case argumentsMore | fieldsMore | fieldsMoreComma => exact List.forall_mem_cons.mpr ⟨h.1, h.2.1⟩
  case statementsMore => exact forall_mem_concat h.1 h.2.1
  case moreArgumentsMore | moreFieldsMore => exact forall_mem_concat h.1 h.2.2.1
  case fieldName | fieldString => exact h.2.2.1
  -- names
  case parametersOne => exact List.forall_mem_singleton.mpr (h.1.1 rfl _ rfl)
  case parametersMore => exact List.forall_mem_cons.mpr ⟨h.1.1 rfl _ rfl, h.2.1⟩
  case moreParametersOne => exact List.forall_mem_singleton.mpr (h.2.1.1 rfl _ rfl)
  case moreParametersMore => exact forall_mem_concat h.1 (h.2.2.1.1 rfl _ rfl)
  case primaryName => exact allNamed_identifier (hfirst _ rfl _ rfl)
  -- operators
  case expressionComparison | sumSign | productFactor =>
    exact allNamed_call (allNamed_identifier (h.2.1.2 (by decide)))
      (List.forall_mem_cons.mpr ⟨h.1, List.forall_mem_singleton.mpr h.2.2.1⟩)
  case primarySignCall | primaryFactorCall | primaryComparisonCall =>
    exact allNamed_call (allNamed_identifier (h.1.2 (by decide))) (List.forall_mem_nil _)
  case primarySignCallArguments | primaryFactorCallArguments | primaryComparisonCallArguments =>
    exact allNamed_call (allNamed_identifier (h.1.2 (by decide))) h.2.2.1
  -- chains
  case chainCall => exact allNamed_call h.1 (List.forall_mem_nil _)
  case chainCallArguments => exact allNamed_call h.1 h.2.2.1
  case chainMethod => exact allNamed_method h.1 (List.forall_mem_nil _)
  case chainMethodArguments => exact allNamed_method h.1 h.2.2.2.2.1
  case chainField => exact allNamed_field h.1
  -- functions
  case functionStatementPlain =>
    exact allNamed_function (fun _ => h.2.1.1 rfl _ rfl) (List.forall_mem_nil _) h.2.2.2.2.1
  case functionStatementParameters =>
    exact allNamed_function (fun _ => h.2.1.1 rfl _ rfl) h.2.2.2.1 h.2.2.2.2.2.1
  case functionExpressionPlain =>
    exact allNamed_function (fun hbinds => Bool.noConfusion hbinds) (List.forall_mem_nil _) h.2.2.2.1
  case functionExpressionParameters =>
    exact allNamed_function (fun hbinds => Bool.noConfusion hbinds) h.2.2.1 h.2.2.2.2.1
  -- statements
  case declarationVar | declarationLet =>
    exact allNamed_assign (h.2.1.1 rfl _ rfl) (allNamed_literal _)
  case declarationVarValue | declarationLetValue =>
    exact allNamed_assign (h.2.1.1 rfl _ rfl) h.2.2.2.1
  case assignmentName => exact allNamed_assign (hfirst _ rfl _ rfl) h.2.2.1
  case assignmentField => exact allNamed_setField h.1 h.2.2.2.2.1
  case returnPlain => exact allNamed_returns (allNamed_literal _)
  case returnValue => exact allNamed_returns h.2.1
  case conditionalPlain =>
    exact allNamed_choose h.2.2.1 h.2.2.2.2.1 (names_block (List.forall_mem_nil _))
  case conditionalElse => exact allNamed_choose h.2.2.1 h.2.2.2.2.1 h.2.2.2.2.2.2.1
  case conditionalElseIf =>
    exact allNamed_choose h.2.2.1 h.2.2.2.2.1
      (names_block (List.forall_mem_singleton.mpr h.2.2.2.2.2.2.1))

end Names

/-! ### Phrases in their places -/

/-- What can stand wherever a symbol can: assignments to names stand where any statement can. -/
def Symbol.opened : Symbol → Symbol
  | .phrase .assignment => .phrase .statement
  | s => s

/-- Whatever can stand in the place of a symbol makes a sentence between these words. -/
def Fits (s : Symbol) (before after : List Token) : Prop :=
  ∀ d : Derivation s.opened, ∃ e : Sentence, e.tokens = before ++ d.tokens ++ after

/-- Whatever can stand in the places of a row of symbols makes a sentence between these words. -/
def FitsRow (ss : List Symbol) (before after : List Token) : Prop :=
  ∀ ds : Derivations (ss.map Symbol.opened), ∃ e : Sentence, e.tokens = before ++ ds.tokens ++ after

/-- What derives a symbol can stand wherever the symbol can. -/
theorem Derivation.exists_opened {s : Symbol} (d : Derivation s) :
    ∃ d' : Derivation s.opened, d'.tokens = d.tokens := by
  by_cases hs : s = .phrase .assignment
  · subst hs
    exact ⟨.node .statementAssignment (.cons d .nil), List.append_nil _⟩
  · have hopened : s.opened = s := by
      cases s with
      | word t => rfl
      | phrase c => cases c <;> first | rfl | exact absurd rfl hs
    rw [hopened]
    exact ⟨d, rfl⟩

theorem Derivations.exists_opened {ss : List Symbol} (ds : Derivations ss) :
    ∃ ds' : Derivations (ss.map Symbol.opened), ds'.tokens = ds.tokens := by
  induction ss with
  | nil => exact ⟨ds, rfl⟩
  | cons s ss ih =>
    cases ds with
    | cons first others =>
      obtain ⟨first', hfirst⟩ := first.exists_opened
      obtain ⟨others', hothers⟩ := ih others
      exact ⟨.cons first' others', by rw [Derivations.tokens, hfirst, hothers, Derivations.tokens]⟩

/-- What can stand in the places of the parts of a rule can stand in the place of what it makes. -/
theorem Rule.exists_opened (r : Rule) (ds : Derivations (r.parts.map Symbol.opened)) :
    ∃ d : Derivation (Symbol.phrase r.makes).opened, d.tokens = ds.tokens := by
  by_cases hr : r = .statementAssignment
  · subst hr
    cases ds with
    | cons first others =>
      cases others
      exact ⟨first, (List.append_nil _).symm⟩
  · have hparts : r.parts.map Symbol.opened = r.parts := by
      cases r <;> first | rfl | exact absurd rfl hr
    obtain ⟨parts, htokens⟩ : ∃ parts : Derivations r.parts, parts.tokens = ds.tokens := by
      revert ds
      rw [hparts]
      exact fun ds => ⟨ds, rfl⟩
    obtain ⟨d, hd⟩ := (Derivation.node r parts).exists_opened
    exact ⟨d, hd.trans htokens⟩

variable {before after ts : List Token}

/-- The parts of a rule fit where the phrase does that it makes. -/
theorem Fits.parts {r : Rule} (h : Fits (.phrase r.makes) before after) :
    FitsRow r.parts before after := by
  intro ds
  obtain ⟨d, hd⟩ := r.exists_opened ds
  rw [← hd]
  exact h d

/-- The first of a row fits before the words of the others. -/
theorem FitsRow.first {s : Symbol} {ss : List Symbol} (h : FitsRow (s :: ss) before after)
    (others : Derivations ss) : Fits s before (others.tokens ++ after) := by
  intro d
  obtain ⟨others', hothers⟩ := others.exists_opened
  obtain ⟨e, he⟩ := h (.cons d others')
  refine ⟨e, ?_⟩
  rw [he, Derivations.tokens, hothers, List.append_assoc, List.append_assoc, List.append_assoc]

/-- The others of a row fit after the words of the first. -/
theorem FitsRow.others {s : Symbol} {ss : List Symbol} (h : FitsRow (s :: ss) before after)
    (first : Derivation s) : FitsRow ss (before ++ first.tokens) after := by
  intro ds
  obtain ⟨first', hfirst⟩ := first.exists_opened
  obtain ⟨e, he⟩ := h (.cons first' ds)
  exact ⟨e, by rw [he, Derivations.tokens, hfirst, ← List.append_assoc]⟩

/-! ### Rivals -/

/-- Some phrase of a kind starts with the first word of any rule that leads to the kind. -/
theorem Category.LeadsTo.exists_head {c : Category} {r : Rule} (h : c.LeadsTo r.makes) {k : Terminal}
    {ss : List Symbol} (hr : r.parts = .word k :: ss) :
    ∃ d : Derivation (.phrase c), ∃ rest, d.tokens.map Token.kind = k :: rest := by
  obtain ⟨others⟩ := Derivations.nonempty ss
  obtain ⟨parts, hparts⟩ : ∃ parts : Derivations r.parts,
      parts.tokens = ⟨k, [], .start, .start⟩ :: others.tokens :=
    hr ▸ ⟨.cons (.leaf ⟨k, [], .start, .start⟩) others, rfl⟩
  obtain ⟨d, rest, hd⟩ := h.exists_derivation (.node r parts)
  refine ⟨d, (others.tokens ++ rest).map Token.kind, ?_⟩
  rw [hd, Derivation.tokens, hparts]
  rfl

/-- A rival can start what stands in the place of a phrase whose rule names a variable. -/
theorem Rule.exists_rival {r : Rule} {u : Use} (hu : r.use? = some u) {k : Terminal}
    (hk : k ∈ u.rivals) :
    ∃ d : Derivation (Symbol.phrase r.makes).opened, ∃ rest, d.tokens.map Token.kind = k :: rest := by
  cases r
  case primaryName =>
    cases hu
    have hfunction : Category.primary.LeadsTo Rule.functionExpressionPlain.makes :=
      .single ⟨.primaryFunction, rfl, [], rfl⟩
    obtain rfl := List.mem_singleton.mp hk
    exact hfunction.exists_head rfl
  case assignmentName =>
    cases hu
    have hfunction : Category.statement.LeadsTo Rule.functionStatementPlain.makes :=
      .single ⟨.statementFunction, rfl, [], rfl⟩
    have hvar : Category.statement.LeadsTo Rule.declarationVar.makes :=
      .single ⟨.statementDeclaration, rfl, [], rfl⟩
    have hlet : Category.statement.LeadsTo Rule.declarationLet.makes :=
      .single ⟨.statementDeclaration, rfl, [], rfl⟩
    have hif : Category.statement.LeadsTo Rule.conditionalPlain.makes :=
      .single ⟨.statementConditional, rfl, [], rfl⟩
    have hreturn : Category.statement.LeadsTo Rule.returnPlain.makes :=
      .single ⟨.statementReturn, rfl, [], rfl⟩
    simp only [Use.rivals, List.mem_cons, List.not_mem_nil, or_false] at hk
    rcases hk with rfl | rfl | rfl | rfl | rfl
    · exact hfunction.exists_head rfl
    · exact hvar.exists_head rfl
    · exact hlet.exists_head rfl
    · exact hif.exists_head rfl
    · exact hreturn.exists_head rfl
  all_goals cases hu

/-! ### Variables in their places -/

/-- A name among the words stands for a variable, and in its place the words before it could go on to a
sentence with any of the rivals of its use. -/
def StandsFor (ts : List Token) (v : Use × String) : Prop :=
  ∃ before t after, ts = before ++ t :: after ∧ t.kind = .name ∧ t.text = v.2 ∧
    ∀ k ∈ v.1.rivals, Begins (before.map Token.kind ++ [k])

/-- A name among the words stands for a variable, or the variable is the sign of an operator. -/
def Accounted (ts : List Token) (v : Use × String) : Prop :=
  StandsFor ts v ∨ (Operator.ofSign? v.2).isSome = true

theorem names_leaf {t : Token} (h : t.WellFormed) (hts : ts = before ++ [t] ++ after) :
    Symbol.Names (Accounted ts) (.word t.kind) t := by
  refine ⟨fun hname u hu => .inl ?_, fun hoperator => .inr (h.operator hoperator)⟩
  refine ⟨before, t, after, by rw [hts, List.append_assoc]; rfl, hname, rfl, ?_⟩
  rw [hu]
  exact List.forall_mem_nil _

/-- The word that a row of values starts with is the first of the words. -/
theorem Derivations.head_of_firstWord? {ss : List Symbol} (ds : Derivations ss) {t : Token}
    (h : Values.firstWord? ss ds.values = some t) :
    ∃ k, ss.head? = some (.word k) ∧ t.kind = k ∧ ∃ rest, ds.tokens = t :: rest := by
  cases ds with
  | nil => cases h
  | cons first others =>
    cases first with
    | leaf token =>
      cases h
      exact ⟨_, rfl, rfl, others.tokens, rfl⟩
    | node rule parts => cases h

/-- Where a rule that names a variable fits, its first word stands for it. -/
theorem Fits.standsFor {r : Rule} {u : Use} (hu : r.use? = some u) {parts : Derivations r.parts} {t : Token}
    (hfits : Fits (.phrase r.makes) before after) (ht : Values.firstWord? r.parts parts.values = some t)
    (hts : ts = before ++ parts.tokens ++ after) : StandsFor ts (u, t.text) := by
  obtain ⟨k, hhead, hkind, rest, htokens⟩ := parts.head_of_firstWord? ht
  have hname : t.kind = .name := by
    cases r
    case primaryName | assignmentName =>
      cases hhead
      exact hkind
    all_goals cases hu
  refine ⟨before, t, rest ++ after, ?_, hname, rfl, fun k hk => ?_⟩
  · rw [hts, htokens, List.append_assoc]
    rfl
  · obtain ⟨d, others, hd⟩ := r.exists_rival hu hk
    obtain ⟨e, he⟩ := hfits d
    refine ⟨e, others ++ after.map Token.kind, ?_⟩
    rw [he, List.map_append, List.map_append, hd, List.append_assoc, List.append_assoc]
    rfl

mutual

/-- **The variables of a phrase that fits stand in their places.** -/
theorem Derivation.names_value {s : Symbol} (d : Derivation s) {before after : List Token}
    (hfits : Fits s before after) (hts : ts = before ++ d.tokens ++ after)
    (hwords : ∀ t ∈ d.tokens, t.WellFormed) :
    s.Names (Accounted ts) d.value := by
  cases d with
  | leaf token => exact names_leaf (hwords token List.mem_cons_self) hts
  | node rule parts =>
    refine rule.names_build _ _ (fun u hu t ht => .inl ?_) (parts.names_values hfits.parts hts hwords)
    exact hfits.standsFor hu ht hts

/-- The variables of phrases that fit in a row stand in their places. -/
theorem Derivations.names_values {ss : List Symbol} (ds : Derivations ss) {before after : List Token}
    (hfits : FitsRow ss before after) (hts : ts = before ++ ds.tokens ++ after)
    (hwords : ∀ t ∈ ds.tokens, t.WellFormed) :
    Values.Names (Accounted ts) ss ds.values := by
  cases ds with
  | nil => trivial
  | cons first others =>
    rw [Derivations.tokens] at hts hwords
    obtain ⟨hfirst, hothers⟩ := List.forall_mem_append.mp hwords
    refine ⟨first.names_value (hfits.first others) ?_ hfirst,
      others.names_values (hfits.others first) ?_ hothers⟩
    · rw [hts, List.append_assoc, List.append_assoc, List.append_assoc]
    · rw [hts, List.append_assoc before first.tokens]

end

/-- **The variables of a script stand in their places** among the words of its sentence. -/
theorem Sentence.accounted_of_mem_variables (d : Sentence) (hwords : ∀ t ∈ d.tokens, t.WellFormed) :
    ∀ v ∈ d.script.variables, Accounted d.tokens v := by
  have hfits : Fits (.phrase .program) [] [] := fun e => ⟨e, (List.append_nil _).symm⟩
  have hnames := d.names_value hfits (List.append_nil _).symm hwords
  intro v hv
  obtain ⟨x, hx, hv⟩ := List.mem_flatMap.mp hv
  exact hnames x hx v hv

end Grammar

end Scriptlet
