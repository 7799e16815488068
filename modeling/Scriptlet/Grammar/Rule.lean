import Scriptlet.Lexical.Terminal

/-!
# The grammar of scripts

The grammar is a table of rules. Its categories are the kinds of phrase; the three of them that
repeat a phrase without a separator or after a comma (`statements` and the `more` categories) recur
on the left, so that a reader can work from left to right with a bounded look ahead.

An optional part is spelled out: a rule with it and a rule without it. Only the program itself may be
empty.

The grammar is ambiguous in one place. After `receiver . name` an opening parenthesis may belong to
a call of the field or to a call of the method; the reader takes it for the method.
-/

namespace Scriptlet.Grammar

open Scriptlet.Lexical

/-- The kinds of phrase. -/
inductive Category where
  /-- A whole script. -/
  | program
  /-- One or more statements. -/
  | statements
  /-- A statement. -/
  | statement
  /-- A function with a name, as a statement. -/
  | functionStatement
  /-- A declaration of a variable. -/
  | declaration
  /-- A choice between blocks. -/
  | conditional
  /-- The end of a function. -/
  | returnStatement
  /-- An assignment to a name. -/
  | assignment
  /-- An assignment to a field. -/
  | fieldAssignment
  /-- An expression as a statement. -/
  | expressionStatement
  /-- A block. -/
  | block
  /-- The names of parameters. -/
  | parameters
  /-- Parameters after the first. -/
  | moreParameters
  /-- An expression: a chain of comparisons. -/
  | expression
  /-- A chain of additions. -/
  | sum
  /-- A chain of multiplications. -/
  | product
  /-- A chain of calls and field accesses. -/
  | chain
  /-- An operand that nothing can split. -/
  | primary
  /-- A function without a name, as an expression. -/
  | functionExpression
  /-- An object. -/
  | object
  /-- The fields of an object. -/
  | fields
  /-- Fields after the first. -/
  | moreFields
  /-- A field of an object. -/
  | field
  /-- The arguments of a call. -/
  | arguments
  /-- Arguments after the first. -/
  | moreArguments
  deriving DecidableEq, Repr

/-- What a rule can ask for: a word or a phrase. -/
inductive Symbol where
  /-- A word of the given kind. -/
  | word (t : Terminal)
  /-- A phrase of the given kind. -/
  | phrase (c : Category)
  deriving DecidableEq, Repr

instance : Coe Terminal Symbol := ⟨.word⟩

instance : Coe Category Symbol := ⟨.phrase⟩

/-- The rules. Each is named for the phrase it makes, and for what tells it apart from the others
that make the same kind of phrase. -/
inductive Rule where
  | programEmpty | programStatements
  | statementsOne | statementsMore
  | statementFunction | statementDeclaration | statementConditional | statementReturn
  | statementAssignment | statementFieldAssignment | statementExpression
  | functionStatementPlain | functionStatementParameters
  | parametersOne | parametersMore
  | moreParametersOne | moreParametersMore
  | declarationVar | declarationVarValue | declarationLet | declarationLetValue
  | assignmentName | assignmentField
  | conditionalPlain | conditionalElse | conditionalElseIf
  | returnPlain | returnValue
  | expressionStatement
  | blockStatements | blockEmpty
  | expressionSum | expressionComparison
  | sumProduct | sumSign
  | productChain | productFactor
  | chainPrimary | chainCall | chainCallArguments
  | chainMethod | chainMethodArguments | chainField
  | primaryNumber | primarySignedNumber | primaryString | primaryName
  | primarySignCall | primarySignCallArguments
  | primaryFactorCall | primaryFactorCallArguments
  | primaryComparisonCall | primaryComparisonCallArguments
  | primaryFunction | primaryObject | primaryParenthesised
  | functionExpressionPlain | functionExpressionParameters
  | objectEmpty | objectFields
  | fieldsOne | fieldsOneComma | fieldsMore | fieldsMoreComma
  | moreFieldsOne | moreFieldsMore
  | fieldName | fieldString
  | argumentsOne | argumentsMore
  | moreArgumentsOne | moreArgumentsMore
  deriving DecidableEq, Repr

namespace Rule

open Category Terminal in
/-- What a rule makes, and out of what. -/
def shape : Rule → Category × List Symbol
  | programEmpty => (program, [])
  | programStatements => (program, [statements])
  | statementsOne => (statements, [statement])
  | statementsMore => (statements, [statements, statement])
  | statementFunction => (statement, [functionStatement])
  | statementDeclaration => (statement, [declaration])
  | statementConditional => (statement, [conditional])
  | statementReturn => (statement, [returnStatement])
  | statementAssignment => (statement, [assignment])
  | statementFieldAssignment => (statement, [fieldAssignment])
  | statementExpression => (statement, [Category.expressionStatement])
  | functionStatementPlain =>
    (functionStatement, [functionWord, name, leftParen, rightParen, block])
  | functionStatementParameters =>
    (functionStatement, [functionWord, name, leftParen, parameters, rightParen, block])
  | parametersOne => (parameters, [name])
  | parametersMore => (parameters, [name, moreParameters])
  | moreParametersOne => (moreParameters, [comma, name])
  | moreParametersMore => (moreParameters, [moreParameters, comma, name])
  | declarationVar => (declaration, [varWord, name, semicolon])
  | declarationVarValue => (declaration, [varWord, name, equals, expression, semicolon])
  | declarationLet => (declaration, [letWord, name, semicolon])
  | declarationLetValue => (declaration, [letWord, name, equals, expression, semicolon])
  | assignmentName => (assignment, [name, equals, expression, semicolon])
  | assignmentField =>
    (fieldAssignment, [chain, dot, name, equals, expression, semicolon])
  | conditionalPlain => (conditional, [ifWord, leftParen, expression, rightParen, block])
  | conditionalElse =>
    (conditional, [ifWord, leftParen, expression, rightParen, block, elseWord, block])
  | conditionalElseIf =>
    (conditional, [ifWord, leftParen, expression, rightParen, block, elseWord, conditional])
  | returnPlain => (returnStatement, [returnWord, semicolon])
  | returnValue => (returnStatement, [returnWord, expression, semicolon])
  | expressionStatement => (Category.expressionStatement, [expression, semicolon])
  | blockStatements => (block, [leftBrace, statements, rightBrace])
  | blockEmpty => (block, [leftBrace, rightBrace])
  | expressionSum => (expression, [sum])
  | expressionComparison => (expression, [expression, comparison, sum])
  | sumProduct => (sum, [product])
  | sumSign => (sum, [sum, sign, product])
  | productChain => (product, [chain])
  | productFactor => (product, [product, factor, chain])
  | chainPrimary => (chain, [primary])
  | chainCall => (chain, [chain, leftParen, rightParen])
  | chainCallArguments => (chain, [chain, leftParen, arguments, rightParen])
  | chainMethod => (chain, [chain, dot, name, leftParen, rightParen])
  | chainMethodArguments => (chain, [chain, dot, name, leftParen, arguments, rightParen])
  | chainField => (chain, [chain, dot, name])
  | primaryNumber => (primary, [number])
  | primarySignedNumber => (primary, [sign, number])
  | primaryString => (primary, [string])
  | primaryName => (primary, [name])
  | primarySignCall => (primary, [sign, leftParen, rightParen])
  | primarySignCallArguments => (primary, [sign, leftParen, arguments, rightParen])
  | primaryFactorCall => (primary, [factor, leftParen, rightParen])
  | primaryFactorCallArguments => (primary, [factor, leftParen, arguments, rightParen])
  | primaryComparisonCall => (primary, [comparison, leftParen, rightParen])
  | primaryComparisonCallArguments => (primary, [comparison, leftParen, arguments, rightParen])
  | primaryFunction => (primary, [functionExpression])
  | primaryObject => (primary, [object])
  | primaryParenthesised => (primary, [leftParen, expression, rightParen])
  | functionExpressionPlain =>
    (functionExpression, [functionWord, leftParen, rightParen, block])
  | functionExpressionParameters =>
    (functionExpression, [functionWord, leftParen, parameters, rightParen, block])
  | objectEmpty => (object, [leftBrace, rightBrace])
  | objectFields => (object, [leftBrace, fields, rightBrace])
  | fieldsOne => (fields, [field])
  | fieldsOneComma => (fields, [field, comma])
  | fieldsMore => (fields, [field, moreFields])
  | fieldsMoreComma => (fields, [field, moreFields, comma])
  | moreFieldsOne => (moreFields, [comma, field])
  | moreFieldsMore => (moreFields, [moreFields, comma, field])
  | fieldName => (field, [name, colon, expression])
  | fieldString => (field, [string, colon, expression])
  | argumentsOne => (arguments, [expression])
  | argumentsMore => (arguments, [expression, moreArguments])
  | moreArgumentsOne => (moreArguments, [comma, expression])
  | moreArgumentsMore => (moreArguments, [moreArguments, comma, expression])

/-- The kind of phrase that a rule makes. -/
def makes (r : Rule) : Category := r.shape.1

/-- What a rule makes it of. -/
def parts (r : Rule) : List Symbol := r.shape.2

/-- The rules that make a kind of phrase. -/
def making : Category → List Rule
  | .program => [programEmpty, programStatements]
  | .statements => [statementsOne, statementsMore]
  | .statement =>
    [statementFunction, statementDeclaration, statementConditional, statementReturn,
     statementAssignment, statementFieldAssignment, statementExpression]
  | .functionStatement => [functionStatementPlain, functionStatementParameters]
  | .parameters => [parametersOne, parametersMore]
  | .moreParameters => [moreParametersOne, moreParametersMore]
  | .declaration => [declarationVar, declarationVarValue, declarationLet, declarationLetValue]
  | .assignment => [assignmentName]
  | .fieldAssignment => [assignmentField]
  | .conditional => [conditionalPlain, conditionalElse, conditionalElseIf]
  | .returnStatement => [returnPlain, returnValue]
  | .expressionStatement => [expressionStatement]
  | .block => [blockStatements, blockEmpty]
  | .expression => [expressionSum, expressionComparison]
  | .sum => [sumProduct, sumSign]
  | .product => [productChain, productFactor]
  | .chain =>
    [chainPrimary, chainCall, chainCallArguments, chainMethod, chainMethodArguments, chainField]
  | .primary =>
    [primaryNumber, primarySignedNumber, primaryString, primaryName,
     primarySignCall, primarySignCallArguments, primaryFactorCall, primaryFactorCallArguments,
     primaryComparisonCall, primaryComparisonCallArguments,
     primaryFunction, primaryObject, primaryParenthesised]
  | .functionExpression => [functionExpressionPlain, functionExpressionParameters]
  | .object => [objectEmpty, objectFields]
  | .fields => [fieldsOne, fieldsOneComma, fieldsMore, fieldsMoreComma]
  | .moreFields => [moreFieldsOne, moreFieldsMore]
  | .field => [fieldName, fieldString]
  | .arguments => [argumentsOne, argumentsMore]
  | .moreArguments => [moreArgumentsOne, moreArgumentsMore]

/-- Every rule is listed with the kind of phrase that it makes. -/
theorem mem_making (r : Rule) : r ∈ making r.makes := by
  cases r <;> decide

/-- Only the rules that make a kind of phrase are listed with it. -/
theorem makes_of_mem_making {r : Rule} {c : Category} (h : r ∈ making c) : r.makes = c := by
  have all : ∀ r ∈ making c, r.makes = c := by cases c <;> decide
  exact all r h

end Rule

/-- All kinds of phrase, each before those it can start with, itself apart. -/
def Category.all : List Category :=
  [program, statements, statement, functionStatement, declaration, conditional, returnStatement,
   assignment, fieldAssignment, expressionStatement, moreParameters, parameters, block,
   moreArguments, arguments, expression, sum, product, chain, primary, functionExpression, object,
   moreFields, fields, field]

/-- The number of a kind of phrase in that list. -/
def Category.number : Category → Nat
  | program => 0
  | statements => 1
  | statement => 2
  | functionStatement => 3
  | declaration => 4
  | conditional => 5
  | returnStatement => 6
  | assignment => 7
  | fieldAssignment => 8
  | expressionStatement => 9
  | moreParameters => 10
  | parameters => 11
  | block => 12
  | moreArguments => 13
  | arguments => 14
  | expression => 15
  | sum => 16
  | product => 17
  | chain => 18
  | primary => 19
  | functionExpression => 20
  | object => 21
  | moreFields => 22
  | fields => 23
  | field => 24

theorem Category.getElem?_number (c : Category) : all[c.number]? = some c := by
  cases c <;> rfl

theorem Category.mem_all (c : Category) : c ∈ all := by
  cases c <;> decide

end Scriptlet.Grammar
