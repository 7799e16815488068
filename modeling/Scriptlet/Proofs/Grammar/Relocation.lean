import Scriptlet.Proofs.Grammar.Items

/-!
# The same words in other places

If the words of a phrase move to other places, the phrase means the same, except that its constructs carry
the lines that their words have moved to. The words may also be placed on lines that are no lines of a text:
with every word on a line of its own, the lines of a construct tell which words they are taken from.

## What is proved

* `Derivation.tokens_place`, `Derivation.prefersMethods_place`: a moved phrase is derived in the same way.
* `Rule.build_mapLines`: a rule makes the moved phrase of the moved parts.
* `Sentence.script_place`: what a moved sentence means.
-/

namespace Scriptlet

/-! ### Constructs on other lines -/

mutual

/-- The construct with every line in it replaced. -/
def Expr.mapLines (f : Int → Int) : Expr → Expr
  | .block body => .block (body.mapLines f)
  | .literal value line => .literal value (f line)
  | .call callee args line => .call (callee.mapLines f) (mapLinesAll f args) (f line)
  | .identifier name line => .identifier name (f line)
  | .assign name value declares line => .assign name (value.mapLines f) declares (f line)
  | .function name params binds body line =>
    .function name params binds (body.mapLines f) (f line)
  | .returns value line => .returns (value.mapLines f) (f line)
  | .choose condition yes no line =>
    .choose (condition.mapLines f) (yes.mapLines f) (no.mapLines f) (f line)
  | .object fields line => .object (mapLinesFields f fields) (f line)
  | .field receiver name line => .field (receiver.mapLines f) name (f line)
  | .setField receiver name value line =>
    .setField (receiver.mapLines f) name (value.mapLines f) (f line)
  | .method receiver name args line =>
    .method (receiver.mapLines f) name (mapLinesAll f args) (f line)

/-- The block with every line in it replaced. -/
def Block.mapLines (f : Int → Int) : Block → Block
  | ⟨statements, line⟩ => ⟨mapLinesAll f statements, f line⟩

/-- The constructs with every line in them replaced. -/
def mapLinesAll (f : Int → Int) : List Expr → List Expr
  | [] => []
  | e :: es => e.mapLines f :: mapLinesAll f es

/-- The fields with every line in them replaced. -/
def mapLinesFields (f : Int → Int) : List (String × Expr) → List (String × Expr)
  | [] => []
  | (name, e) :: fields => (name, e.mapLines f) :: mapLinesFields f fields

end

/-- The script with every line in it replaced. -/
def Script.mapLines (f : Int → Int) (script : Script) : Script := ⟨script.body.mapLines f⟩

variable {f : Int → Int}

@[simp] theorem Expr.line_mapLines (e : Expr) : (e.mapLines f).line = f e.line := by
  cases e with
  | block body =>
    obtain ⟨statements, line⟩ := body
    rfl
  | _ => rfl

@[simp] theorem mapLinesAll_concat (es : List Expr) (e : Expr) :
    mapLinesAll f (es.concat e) = (mapLinesAll f es).concat (e.mapLines f) := by
  induction es with
  | nil => rfl
  | cons d es ih => rw [List.concat_cons, mapLinesAll, ih]; rfl

@[simp] theorem mapLinesFields_concat (fields : List (String × Expr)) (name : String) (e : Expr) :
    mapLinesFields f (fields.concat (name, e)) =
      (mapLinesFields f fields).concat (name, e.mapLines f) := by
  induction fields with
  | nil => rfl
  | cons d fields ih => rw [List.concat_cons, mapLinesFields, ih]; rfl

namespace Grammar

open Lexical

/-! ### Moved words and what they mean -/

/-- The word of a token in the place of another one. -/
def Token.atPlaceOf (t u : Token) : Token := ⟨t.kind, t.word, u.start, u.stop⟩

/-- What a kind of phrase stands for, with every line in it replaced. -/
def Category.mapLines (f : Int → Int) : (c : Category) → c.Value → c.Value
  | .program, script => Script.mapLines f script
  | .statements, es | .arguments, es | .moreArguments, es => mapLinesAll f es
  | .block, body => Block.mapLines f body
  | .parameters, names | .moreParameters, names => names
  | .fields, fs | .moreFields, fs => mapLinesFields f fs
  | .field, (name, e) => (name, Expr.mapLines f e)
  | .statement, e | .functionStatement, e | .declaration, e | .conditional, e
  | .returnStatement, e | .assignment, e | .fieldAssignment, e | .expressionStatement, e
  | .expression, e | .sum, e | .product, e | .chain, e | .primary, e | .functionExpression, e
  | .object, e => Expr.mapLines f e

/-- A word moved, or what a phrase stands for with every line in it replaced. -/
def Symbol.move (f : Int → Int) (place : Token → Token) : (s : Symbol) → s.Value → s.Value
  | .word _, t => Token.atPlaceOf t (place t)
  | .phrase c, v => c.mapLines f v

/-- Values moved one by one. -/
def Values.move (f : Int → Int) (place : Token → Token) : (ss : List Symbol) → Values ss → Values ss
  | [], _ => ()
  | s :: ss, (v, vs) => (s.move f place v, Values.move f place ss vs)

variable {place : Token → Token}

/-- **A rule makes the moved phrase of the moved parts.** -/
theorem Rule.build_mapLines (hplace : ∀ t, lineOf (place t) = f (lineOf t)) (r : Rule) (line : Int)
    (vs : Values r.parts) :
    r.build (f line) (Values.move f place r.parts vs) = r.makes.mapLines f (r.build line vs) := by
  cases r
  case statementsMore => exact (mapLinesAll_concat vs.1 vs.2.1).symm
  case moreArgumentsMore => exact (mapLinesAll_concat vs.1 vs.2.2.1).symm
  case moreFieldsMore => exact (mapLinesFields_concat vs.1 _ _).symm
  -- the name of an operator between operands is on the line of the operator
  case expressionComparison | sumSign | productFactor =>
    exact congrArg (fun l => Expr.call (.identifier _ l) [_, _] (f line)) (hplace vs.2.1)
  -- a choice that another one is taken up by has it on the line of that one
  case conditionalElseIf =>
    exact congrArg (fun l => Expr.choose _ _ ⟨[_], l⟩ (f line)) (Expr.line_mapLines _)
  all_goals rfl

/-! ### Moved phrases -/

mutual

/-- The derivation with its words moved. -/
def Derivation.place (place : Token → Token) {s : Symbol} : Derivation s → Derivation s
  | .leaf t => .leaf (Token.atPlaceOf t (place t))
  | .node rule parts => .node rule (parts.place place)

/-- The derivations with their words moved. -/
def Derivations.place (place : Token → Token) {ss : List Symbol} : Derivations ss → Derivations ss
  | .nil => .nil
  | .cons first others => .cons (first.place place) (others.place place)

end

mutual

theorem Derivation.tokens_place {s : Symbol} (d : Derivation s) :
    (d.place place).tokens = d.tokens.map fun t => Token.atPlaceOf t (place t) := by
  cases d with
  | leaf t => rfl
  | node rule parts => exact parts.tokens_place

theorem Derivations.tokens_place {ss : List Symbol} (ds : Derivations ss) :
    (ds.place place).tokens = ds.tokens.map fun t => Token.atPlaceOf t (place t) := by
  cases ds with
  | nil => rfl
  | cons first others =>
    rw [Derivations.place, Derivations.tokens, Derivations.tokens, List.map_append,
      first.tokens_place, others.tokens_place]

end

theorem Derivation.fieldParts?_place {s : Symbol} {d : Derivation s} (h : d.fieldParts? = none) :
    (d.place place).fieldParts? = none := by
  cases d with
  | leaf t => rfl
  | node rule parts =>
    cases rule
    case chainField => cases h
    all_goals rfl

theorem Derivations.noField_place {ss : List Symbol} (ds : Derivations ss) (h : ds.NoField) :
    (ds.place place).NoField := by
  induction ss with
  | nil => cases ds; trivial
  | cons s ss ih =>
    cases ds with
    | cons first others => exact ⟨first.fieldParts?_place h.1, ih others h.2⟩

mutual

/-- A moved phrase prefers methods if the phrase does. -/
theorem Derivation.prefersMethods_place {s : Symbol} (d : Derivation s) (h : d.PrefersMethods) :
    (d.place place).PrefersMethods := by
  cases d with
  | leaf t => trivial
  | node rule parts =>
    exact ⟨fun hcall => parts.noField_place (h.1 hcall), parts.preferMethods_place h.2⟩

theorem Derivations.preferMethods_place {ss : List Symbol} (ds : Derivations ss)
    (h : ds.PreferMethods) : (ds.place place).PreferMethods := by
  cases ds with
  | nil => trivial
  | cons first others => exact ⟨first.prefersMethods_place h.1, others.preferMethods_place h.2⟩

end

/-- A row of symbols is on the line that its first word has moved to. -/
theorem Derivations.line_place (hplace : ∀ t, lineOf (place t) = f (lineOf t)) {ss : List Symbol}
    (ds : Derivations ss) (hnone : ds.tokens = [] → f 1 = 1) :
    (ds.place place).line = f ds.line := by
  rw [Derivations.line_eq, Derivations.line_eq, ds.tokens_place]
  cases htokens : ds.tokens with
  | nil => exact (hnone htokens).symm
  | cons t ts => exact hplace t

mutual

/-- A moved phrase means what the phrase means, on other lines. -/
theorem Derivation.value_place (hplace : ∀ t, lineOf (place t) = f (lineOf t)) {s : Symbol}
    (d : Derivation s) (hnone : d.tokens = [] → f 1 = 1) :
    (d.place place).value = s.move f place d.value := by
  cases d with
  | leaf t => rfl
  | node rule parts =>
    rw [Derivation.place, Derivation.value, Derivation.value, parts.line_place hplace hnone,
      parts.values_place hplace rule.program_notMem_parts, rule.build_mapLines hplace]
    rfl

theorem Derivations.values_place (hplace : ∀ t, lineOf (place t) = f (lineOf t)) {ss : List Symbol}
    (ds : Derivations ss) (hss : .phrase .program ∉ ss) :
    (ds.place place).values = Values.move f place ss ds.values := by
  cases ds with
  | nil => rfl
  | cons first others =>
    obtain ⟨hs, hss⟩ := not_or.mp (List.mem_cons.not.mp hss)
    have hsome : first.tokens ≠ [] := first.tokens_ne_nil (Ne.symm hs)
    rw [Derivations.place, Derivations.values, Derivations.values,
      first.value_place hplace (absurd · hsome), others.values_place hplace hss]
    rfl

end

/-- **A moved sentence means the same script on other lines.** -/
theorem Sentence.script_place (hplace : ∀ t, lineOf (place t) = f (lineOf t)) (d : Sentence)
    (hnone : d.tokens = [] → f 1 = 1) :
    Sentence.script (d.place place) = d.script.mapLines f :=
  d.value_place hplace hnone

end Grammar

end Scriptlet
