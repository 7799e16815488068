import Scriptlet.Proofs.Lexical.Layout
import Scriptlet.Proofs.Script.Shape

/-!
# Scripts as source text

A script is written down word by word and the words are laid out. The call of an operator with two
arguments is written as the operator between its operands, and any other call of an operator as the
call of a function. Parentheses stand where the text would be read in another way without them: around
an operand whose own operator binds less tightly, or just as tightly on the right, and around a field
that is called, as it would be taken for a method.

A choice without statements to take otherwise has no second part, and one whose only such statement is
a choice goes on with it right away.

## What is stated

* `Expr.onLine`: a construct as it would be if all of it stood on one line.
* `Script.text`: the source text of a script.
* `words_plainCall`, `words_between`, `words_operatorCall`: how calls are written.
-/

namespace Scriptlet

open Lexical

/-! ### Lines -/

mutual

/-- The construct with the given line in place of every line in it. -/
def Expr.onLine (line : Int) : Expr → Expr
  | .block body => .block (body.onLine line)
  | .literal value _ => .literal value line
  | .call callee args _ => .call (callee.onLine line) (allOnLine line args) line
  | .identifier name _ => .identifier name line
  | .assign name value declares _ => .assign name (value.onLine line) declares line
  | .function name params binds body _ => .function name params binds (body.onLine line) line
  | .returns value _ => .returns (value.onLine line) line
  | .choose condition yes no _ =>
    .choose (condition.onLine line) (yes.onLine line) (no.onLine line) line
  | .object fields _ => .object (fieldsOnLine line fields) line
  | .field receiver name _ => .field (receiver.onLine line) name line
  | .setField receiver name value _ =>
    .setField (receiver.onLine line) name (value.onLine line) line
  | .method receiver name args _ => .method (receiver.onLine line) name (allOnLine line args) line

/-- The block with the given line in place of every line in it. -/
def Block.onLine (line : Int) : Block → Block
  | ⟨statements, _⟩ => ⟨allOnLine line statements, line⟩

/-- The constructs with the given line in place of every line in them. -/
def allOnLine (line : Int) : List Expr → List Expr
  | [] => []
  | e :: es => e.onLine line :: allOnLine line es

/-- The fields with the given line in place of every line in them. -/
def fieldsOnLine (line : Int) : List (String × Expr) → List (String × Expr)
  | [] => []
  | (name, e) :: fields => (name, e.onLine line) :: fieldsOnLine line fields

end

/-- The script with the given line in place of every line in it. -/
def Script.onLine (line : Int) (script : Script) : Script := ⟨script.body.onLine line⟩

mutual

/-- Only the last line counts. -/
theorem Expr.onLine_onLine (e : Expr) (line line' : Int) :
    (e.onLine line').onLine line = e.onLine line := by
  cases e with
  | block body => rw [Expr.onLine, Expr.onLine, body.onLine_onLine, Expr.onLine]
  | literal value l => rfl
  | call callee args l =>
    rw [Expr.onLine, Expr.onLine, callee.onLine_onLine, allOnLine_allOnLine args, Expr.onLine]
  | identifier name l => rfl
  | assign name value declares l => rw [Expr.onLine, Expr.onLine, value.onLine_onLine, Expr.onLine]
  | function name params binds body l =>
    rw [Expr.onLine, Expr.onLine, body.onLine_onLine, Expr.onLine]
  | returns value l => rw [Expr.onLine, Expr.onLine, value.onLine_onLine, Expr.onLine]
  | choose condition yes no l =>
    rw [Expr.onLine, Expr.onLine, condition.onLine_onLine, yes.onLine_onLine, no.onLine_onLine,
      Expr.onLine]
  | object fields l => rw [Expr.onLine, Expr.onLine, fieldsOnLine_fieldsOnLine fields, Expr.onLine]
  | field receiver name l => rw [Expr.onLine, Expr.onLine, receiver.onLine_onLine, Expr.onLine]
  | setField receiver name value l =>
    rw [Expr.onLine, Expr.onLine, receiver.onLine_onLine, value.onLine_onLine, Expr.onLine]
  | method receiver name args l =>
    rw [Expr.onLine, Expr.onLine, receiver.onLine_onLine, allOnLine_allOnLine args, Expr.onLine]

theorem Block.onLine_onLine (body : Block) (line line' : Int) :
    (body.onLine line').onLine line = body.onLine line := by
  obtain ⟨statements, l⟩ := body
  rw [Block.onLine, Block.onLine, allOnLine_allOnLine statements, Block.onLine]

theorem allOnLine_allOnLine (es : List Expr) (line line' : Int) :
    allOnLine line (allOnLine line' es) = allOnLine line es := by
  cases es with
  | nil => rfl
  | cons e es => rw [allOnLine, allOnLine, e.onLine_onLine, allOnLine_allOnLine es, allOnLine]

theorem fieldsOnLine_fieldsOnLine (fields : List (String × Expr)) (line line' : Int) :
    fieldsOnLine line (fieldsOnLine line' fields) = fieldsOnLine line fields := by
  cases fields with
  | nil => rfl
  | cons field fields =>
    obtain ⟨name, e⟩ := field
    rw [fieldsOnLine, fieldsOnLine, e.onLine_onLine, fieldsOnLine_fieldsOnLine fields, fieldsOnLine]

end

theorem Script.onLine_onLine (script : Script) (line line' : Int) :
    (script.onLine line').onLine line = script.onLine line := by
  rw [onLine, onLine, Block.onLine_onLine, onLine]

/-! ### How tightly a construct is bound -/

/-- How tightly an operator binds. -/
def Operator.rank : Operator → Nat
  | eq | ne | lt | le | gt | ge => 0
  | add | sub => 1
  | mul | div | mod => 2

/-- The rank of what no operator can split. -/
def Operator.tight : Nat := 3

/-- How tightly a construct is bound: like the operator that is written between its operands. -/
def Expr.rank : Expr → Nat
  | .call callee [_, _] _ =>
    match callee.operator? with
    | some o => o.rank
    | none => Operator.tight
  | _ => Operator.tight

/-- The construct is a field access. -/
def Expr.isField : Expr → Bool
  | .field _ _ _ => true
  | _ => false

/-! ### Words -/

/-- Words between parentheses. -/
def parenthesised (ws : List Word) : List Word :=
  Word.only .leftParen :: (ws ++ [Word.only .rightParen])

/-- Words between parentheses if these are needed. -/
def enclosed (needed : Bool) (ws : List Word) : List Word :=
  if needed then parenthesised ws else ws

/-- Words between braces. -/
def braced (ws : List Word) : List Word :=
  Word.only .leftBrace :: (ws ++ [Word.only .rightBrace])

/-- The word of a name. -/
def nameWord (name : String) : Word := ⟨.name, name.toList⟩

/-- The word of a string. -/
def stringWord (s : String) : Word := ⟨.string, '"' :: (escape s.toList ++ ['"'])⟩

/-- The word of a number. -/
def numberWord (n : Nat) : Word := ⟨.number, Nat.toDigits 10 n⟩

/-- The words of a literal; there are none for no value. -/
def Literal.words : Literal → List Word
  | undefined => []
  | int n => if n < 0 then [Operator.word .sub, numberWord n.natAbs] else [numberWord n.natAbs]
  | str s => [stringWord s]

/-- The words of names after the first, each after a comma. -/
def moreNames (names : List String) : List Word :=
  names.flatMap fun name => [Word.only .comma, nameWord name]

/-- The words of names, with commas between them. -/
def nameList : List String → List Word
  | [] => []
  | name :: names => nameWord name :: moreNames names

/-- The words of what is done otherwise, where `ws` are the words of its statements. -/
def otherwise (no : Block) (ws : List Word) : List Word :=
  match no.statements with
  | [] => []
  | [.choose _ _ _ _] => Word.only .elseWord :: ws
  | _ => Word.only .elseWord :: braced ws

/-- What ends a construct that stands as a statement. -/
def Expr.ending : Expr → List Word
  | .choose _ _ _ _ | .function _ _ true _ _ => []
  | _ => [Word.only .semicolon]

mutual

/-- The words of a construct, without what ends it as a statement. -/
def Expr.words : Expr → List Word
  | .block body => braced body.words
  | .literal value _ => value.words
  | .call callee args _ =>
    match callee.operator?, args with
    | some o, [left, right] =>
      enclosed (left.rank < o.rank) left.words ++
        Operator.word o :: enclosed (right.rank ≤ o.rank) right.words
    | some o, args => Operator.word o :: parenthesised (argumentWords args)
    | none, args =>
      enclosed (callee.rank < Operator.tight || callee.isField) callee.words ++
        parenthesised (argumentWords args)
  | .identifier name _ => [nameWord name]
  | .assign name value declares _ =>
    (if declares then [Word.only .letWord, nameWord name] else [nameWord name]) ++
      if value.isNothing then [] else Word.only .equals :: value.words
  | .function name params binds body _ =>
    Word.only .functionWord :: (if binds then [nameWord name] else []) ++
      parenthesised (nameList params) ++ braced body.words
  | .returns value _ => Word.only .returnWord :: value.words
  | .choose condition yes no _ =>
    Word.only .ifWord :: parenthesised condition.words ++ braced yes.words ++
      otherwise no no.words
  | .object fields _ => braced (fieldWords fields)
  | .field receiver name _ =>
    enclosed (receiver.rank < Operator.tight) receiver.words ++ [Word.only .dot, nameWord name]
  | .setField receiver name value _ =>
    enclosed (receiver.rank < Operator.tight) receiver.words ++
      Word.only .dot :: nameWord name :: Word.only .equals :: value.words
  | .method receiver name args _ =>
    enclosed (receiver.rank < Operator.tight) receiver.words ++
      Word.only .dot :: nameWord name :: parenthesised (argumentWords args)

/-- The words of the statements of a block. -/
def Block.words : Block → List Word
  | ⟨statements, _⟩ => statementWords statements

/-- The words of statements. -/
def statementWords : List Expr → List Word
  | [] => []
  | e :: es => e.words ++ e.ending ++ statementWords es

/-- The words of arguments, with commas between them. -/
def argumentWords : List Expr → List Word
  | [] => []
  | e :: es => e.words ++ moreArgumentWords es

/-- The words of arguments after the first, each after a comma. -/
def moreArgumentWords : List Expr → List Word
  | [] => []
  | e :: es => Word.only .comma :: e.words ++ moreArgumentWords es

/-- The words of fields, with commas between them. -/
def fieldWords : List (String × Expr) → List Word
  | [] => []
  | (name, e) :: fields =>
    stringWord name :: Word.only .colon :: e.words ++ moreFieldWords fields

/-- The words of fields after the first, each after a comma. -/
def moreFieldWords : List (String × Expr) → List Word
  | [] => []
  | (name, e) :: fields =>
    Word.only .comma :: stringWord name :: Word.only .colon :: e.words ++ moreFieldWords fields

end

/-! ### Calls -/

section Call

variable {callee left right : Expr} {args : List Expr} {o : Operator} {line : Int}

theorem words_plainCall (ho : callee.operator? = none) :
    (Expr.call callee args line).words =
      enclosed (callee.rank < Operator.tight || callee.isField) callee.words ++
        parenthesised (argumentWords args) := by
  simp only [Expr.words, ho]

theorem words_between (ho : callee.operator? = some o) :
    (Expr.call callee [left, right] line).words =
      enclosed (left.rank < o.rank) left.words ++
        Operator.word o :: enclosed (right.rank ≤ o.rank) right.words := by
  rw [Expr.words]
  exact ho

theorem words_operatorCall (ho : callee.operator? = some o)
    (htwo : ∀ left right, args ≠ [left, right]) :
    (Expr.call callee args line).words = Operator.word o :: parenthesised (argumentWords args) := by
  rw [Expr.words]
  · exact ho
  · exact htwo

end Call

/-! ### Rows -/

theorem allOnLine_eq (line : Int) (es : List Expr) :
    allOnLine line es = es.map (Expr.onLine line) := by
  induction es with
  | nil => rfl
  | cons e es ih => rw [allOnLine, ih, List.map_cons]

theorem fieldsOnLine_eq (line : Int) (fields : List (String × Expr)) :
    fieldsOnLine line fields = fields.map fun field => (field.1, field.2.onLine line) := by
  induction fields with
  | nil => rfl
  | cons field fields ih => rw [fieldsOnLine, ih, List.map_cons]

theorem statementWords_eq (es : List Expr) :
    statementWords es = es.flatMap fun e => e.words ++ e.ending := by
  induction es with
  | nil => rfl
  | cons e es ih => rw [statementWords, ih, List.flatMap_cons]

theorem moreArgumentWords_eq (es : List Expr) :
    moreArgumentWords es = es.flatMap fun e => Word.only .comma :: e.words := by
  induction es with
  | nil => rfl
  | cons e es ih => rw [moreArgumentWords, ih, List.flatMap_cons]

theorem moreFieldWords_eq (fields : List (String × Expr)) :
    moreFieldWords fields = fields.flatMap fun field =>
      Word.only .comma :: stringWord field.1 :: Word.only .colon :: field.2.words := by
  induction fields with
  | nil => rfl
  | cons field fields ih => rw [moreFieldWords, ih, List.flatMap_cons]

/-! ### Source text -/

/-- The source text of a script. -/
def Script.text (script : Script) : String := String.ofList (layOut script.body.words)

end Scriptlet
