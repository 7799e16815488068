import Scriptlet.Grammar.Rule
import Scriptlet.Lexical.StringLiteral
import Scriptlet.Lexical.Token
import Scriptlet.Script.Expr

/-!
# What phrases mean

Every kind of phrase stands for a value of a type of its own, and every rule says how the value of
the phrase it makes comes from the values of its parts. A construct gets the line of the first word
of its phrase; in parentheses an operand keeps the line of its own first word.

Operators mean calls: an operator between operands is the call of the function of that name, whose
name carries the line of the operator.

## Honest scope

A number may have any number of digits. The bound that an interpreter can set on the digits of an integer
that it reads from a text is a guard of its resources and is left out, so every number has a value.
-/

namespace Scriptlet.Grammar

open Scriptlet.Lexical

/-- What a kind of phrase stands for. -/
def Category.Value : Category → Type
  | .program => Script
  | .statements => List Expr
  | .block => Block
  | .parameters | .moreParameters => List String
  | .fields | .moreFields => List (String × Expr)
  | .field => String × Expr
  | .arguments | .moreArguments => List Expr
  | .statement | .functionStatement | .declaration | .conditional | .returnStatement
  | .assignment | .fieldAssignment | .expressionStatement | .expression | .sum | .product
  | .chain | .primary | .functionExpression | .object => Expr

/-- What a part of a rule stands for: a word for itself, a phrase for its value. -/
def Symbol.Value : Symbol → Type
  | .word _ => Token
  | .phrase c => c.Value

/-- One value for every symbol of a list. -/
def Values : List Symbol → Type
  | [] => Unit
  | s :: ss => s.Value × Values ss

/-! ### The pieces that rules build with -/

/-- The name of a function that is given none. -/
def anonymousName : String := "lambda"

/-- The number that decimal digits denote. -/
def decimal (digits : List Char) : Nat :=
  digits.foldl (fun n c => 10 * n + (c.toNat - '0'.toNat)) 0

/-- The integer that digits after a sign denote. -/
def signed (mark : Token) (digits : Token) : Int :=
  if mark.word = ['-'] then -(decimal digits.word : Int) else decimal digits.word

/-- The line of a word. -/
def lineOf (t : Token) : Int := t.start.line

/-- An operator between two operands. -/
def infixCall (line : Int) (left : Expr) (operator : Token) (right : Expr) : Expr :=
  .call (.identifier operator.text (lineOf operator)) [left, right] line

/-- An operator called like a function. -/
def operatorCall (line : Int) (operator : Token) (args : List Expr) : Expr :=
  .call (.identifier operator.text line) args line

/-- What stands for a value left out. -/
def noValue (line : Int) : Expr := .literal .undefined line

/-- What a rule makes of the values of its parts, for a phrase that starts on the given line. -/
def Rule.build : (r : Rule) → (line : Int) → Values r.parts → r.makes.Value
  | programEmpty, line, _ => ⟨⟨[], line⟩⟩
  | programStatements, line, (statements, _) => ⟨⟨statements, line⟩⟩
  | statementsOne, _, (e, _) => [e]
  | statementsMore, _, (es, e, _) => List.concat es e
  | statementFunction, _, (e, _) => e
  | statementDeclaration, _, (e, _) => e
  | statementConditional, _, (e, _) => e
  | statementReturn, _, (e, _) => e
  | statementAssignment, _, (e, _) => e
  | statementFieldAssignment, _, (e, _) => e
  | statementExpression, _, (e, _) => e
  | functionStatementPlain, line, (_, name, _, _, body, _) =>
    .function name.text [] true body line
  | functionStatementParameters, line, (_, name, _, params, _, body, _) =>
    .function name.text params true body line
  | parametersOne, _, (name, _) => [name.text]
  | parametersMore, _, (name, names, _) => name.text :: names
  | moreParametersOne, _, (_, name, _) => [name.text]
  | moreParametersMore, _, (names, _, name, _) => List.concat names name.text
  | declarationVar, line, (_, name, _, _) => .assign name.text (noValue line) true line
  | declarationVarValue, line, (_, name, _, value, _, _) => .assign name.text value true line
  | declarationLet, line, (_, name, _, _) => .assign name.text (noValue line) true line
  | declarationLetValue, line, (_, name, _, value, _, _) => .assign name.text value true line
  | assignmentName, line, (name, _, value, _, _) => .assign name.text value false line
  | assignmentField, line, (receiver, _, name, _, value, _, _) =>
    .setField receiver name.text value line
  | conditionalPlain, line, (_, _, condition, _, yes, _) =>
    .choose condition yes ⟨[], line⟩ line
  | conditionalElse, line, (_, _, condition, _, yes, _, no, _) => .choose condition yes no line
  | conditionalElseIf, line, (_, _, condition, _, yes, _, other, _) =>
    .choose condition yes ⟨[other], Expr.line other⟩ line
  | returnPlain, line, _ => .returns (noValue line) line
  | returnValue, line, (_, value, _, _) => .returns value line
  | expressionStatement, _, (e, _, _) => e
  | blockStatements, line, (_, statements, _, _) => ⟨statements, line⟩
  | blockEmpty, line, _ => ⟨[], line⟩
  | expressionSum, _, (e, _) => e
  | expressionComparison, line, (left, operator, right, _) => infixCall line left operator right
  | sumProduct, _, (e, _) => e
  | sumSign, line, (left, operator, right, _) => infixCall line left operator right
  | productChain, _, (e, _) => e
  | productFactor, line, (left, operator, right, _) => infixCall line left operator right
  | chainPrimary, _, (e, _) => e
  | chainCall, line, (callee, _, _, _) => .call callee [] line
  | chainCallArguments, line, (callee, _, args, _, _) => .call callee args line
  | chainMethod, line, (receiver, _, name, _, _, _) => .method receiver name.text [] line
  | chainMethodArguments, line, (receiver, _, name, _, args, _, _) =>
    .method receiver name.text args line
  | chainField, line, (receiver, _, name, _) => .field receiver name.text line
  | primaryNumber, line, (digits, _) => .literal (.int (decimal digits.word)) line
  | primarySignedNumber, line, (mark, digits, _) => .literal (.int (signed mark digits)) line
  | primaryString, line, (quoted, _) => .literal (.str (unquote quoted.word)) line
  | primaryName, line, (name, _) => .identifier name.text line
  | primarySignCall, line, (operator, _, _, _) => operatorCall line operator []
  | primarySignCallArguments, line, (operator, _, args, _, _) => operatorCall line operator args
  | primaryFactorCall, line, (operator, _, _, _) => operatorCall line operator []
  | primaryFactorCallArguments, line, (operator, _, args, _, _) =>
    operatorCall line operator args
  | primaryComparisonCall, line, (operator, _, _, _) => operatorCall line operator []
  | primaryComparisonCallArguments, line, (operator, _, args, _, _) =>
    operatorCall line operator args
  | primaryFunction, _, (e, _) => e
  | primaryObject, _, (e, _) => e
  | primaryParenthesised, _, (_, e, _, _) => e
  | functionExpressionPlain, line, (_, _, _, body, _) =>
    .function anonymousName [] false body line
  | functionExpressionParameters, line, (_, _, params, _, body, _) =>
    .function anonymousName params false body line
  | objectEmpty, line, _ => .object [] line
  | objectFields, line, (_, fields, _, _) => .object fields line
  | fieldsOne, _, (f, _) => [f]
  | fieldsOneComma, _, (f, _, _) => [f]
  | fieldsMore, _, (f, fs, _) => f :: fs
  | fieldsMoreComma, _, (f, fs, _, _) => f :: fs
  | moreFieldsOne, _, (_, f, _) => [f]
  | moreFieldsMore, _, (fs, _, f, _) => List.concat fs f
  | fieldName, _, (name, _, value, _) => (name.text, value)
  | fieldString, _, (quoted, _, value, _) => (unquote quoted.word, value)
  | argumentsOne, _, (e, _) => [e]
  | argumentsMore, _, (e, es, _) => e :: es
  | moreArgumentsOne, _, (_, e, _) => [e]
  | moreArgumentsMore, _, (es, _, e, _) => List.concat es e

end Scriptlet.Grammar
