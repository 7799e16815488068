import Scriptlet.Grammar.Automaton
import Scriptlet.Grammar.Derivation
import Scriptlet.Parsing.SyntaxError

/-!
# Parsing

A text is read word by word with the states of the grammar's automaton. What has been read is kept on
a stack of derivations, each with the state that it led to. In every state only those words are
looked for that the state can do something with, so the same characters may be one word here and two
words there. Before a word is put on the stack, the derivations on top are joined by the rules that
come to their end there.

What a successful reading returns is a derivation, so that nothing but a sentence of the grammar can
be accepted.

## Errors

* If nothing that is looked for fits, the place is looked at with all terminals. A word found then is
  reported together with what was looked for, and otherwise the character is.
* If a word fits but the rules that end before it lead to a state that cannot go on with it, the
  word is reported together with what that state can do something with.
* If the text ends too early, the error is located at the last word.
-/

namespace Scriptlet.Parsing

open Scriptlet.Grammar Scriptlet.Lexical Scriptlet.Text

/-! ### The stack -/

/-- A derivation on the stack with the number of the state it led to. -/
structure Cell where
  /-- The number of the state. -/
  state : Nat
  /-- The symbol derived. -/
  symbol : Symbol
  /-- Its derivation. -/
  derivation : Derivation symbol

/-- What has been read, the last first. -/
abbrev Stack := List Cell

namespace Stack

/-- The number of the state reached. -/
def number : Stack → Nat
  | [] => 0
  | cell :: _ => cell.state

/-- The state reached. -/
def state (auto : Automaton) (stack : Stack) : State := auto.state stack.number

end Stack

/-- The derivations of the given symbols, if these are the symbols derived by the cells. -/
def derivationsOf : (ss : List Symbol) → List Cell → Option (Derivations ss)
  | [], [] => some .nil
  | s :: ss, cell :: cells =>
    if h : cell.symbol = s then
      (derivationsOf ss cells).map fun others => .cons (h ▸ cell.derivation) others
    else none
  | _, _ => none

/-- Joins the topmost derivations by a rule. The result is the derivation of the rule and the stack
below it. -/
def Stack.join (stack : Stack) (r : Rule) : Option (Derivation (.phrase r.makes) × Stack) :=
  let n := r.parts.length
  (derivationsOf r.parts (stack.take n).reverse).map fun parts => (.node r parts, stack.drop n)

/-! ### One lookahead -/

/-- What joining by a rule leads to. -/
inductive Joined where
  /-- A stack with the derivation on top. -/
  | stack (stack : Stack)
  /-- A whole sentence. -/
  | sentence (d : Sentence)
  /-- Nothing: the rule does not fit the stack. -/
  | misfit

/-- Joins the topmost derivations by a rule and goes to the state that the phrase leads to. The
phrase that leads nowhere is the program. -/
def Stack.joinBy (auto : Automaton) (stack : Stack) (r : Rule) : Joined :=
  match stack.join r with
  | none => .misfit
  | some (d, below) =>
    match (below.state auto).after? (.phrase r.makes) with
    | some number => .stack (⟨number, .phrase r.makes, d⟩ :: below)
    | none =>
      match sentence? r.makes d with
      | some d => .sentence d
      | none => .misfit

/-- What becomes of a stack before a lookahead. -/
inductive Answer where
  /-- The lookahead can be put on the stack and leads to the state of that number. -/
  | goOn (stack : Stack) (number : Nat)
  /-- The stack is a sentence. -/
  | done (d : Sentence)
  /-- Neither, in a state that expected other lookaheads. -/
  | stop (expected : LookaheadSet)

/-- Joins derivations until the lookahead can be put on the stack, at most as often as the fuel
says. -/
def settle (auto : Automaton) (a : Lookahead) : Nat → Stack → Answer
  | 0, stack => .stop (stack.state auto).lookaheads
  | fuel + 1, stack =>
    let state := stack.state auto
    match state.read? a with
    | some number => .goOn stack number
    | none =>
      match state.complete? a with
      | none => .stop state.lookaheads
      | some r =>
        match stack.joinBy auto r with
        | .stack joined => settle auto a fuel joined
        | .sentence d => .done d
        | .misfit => .stop state.lookaheads

/-- A bound on the number of rules that can end before one word: at every height of the stack, those
that lead from a name to the longest chain of phrases of one part, and one that joins several. -/
def settleFuel (stack : Stack) : Nat := 16 * (stack.length + 1)

/-! ### The next word -/

/-- What comes next in a text. -/
inductive Reading where
  /-- A word that is not ignored, and the text after it. -/
  | token (t : Token) (after : Cursor)
  /-- The end. -/
  | finish
  /-- A place where nothing that is looked for fits. -/
  | misfit (c : Cursor)

/-- Reads past what is ignored, at most past as many words as the fuel says. -/
def readFrom (v : Vocabulary) : Nat → Cursor → Reading
  | 0, _ => .finish
  | fuel + 1, c =>
    if c.rest.isEmpty then .finish
    else match c.next? v with
      | none => .misfit c
      | some (t, d) => if t.kind.isIgnored then readFrom v fuel d else .token t d

/-- What comes next in a text, if the given terminals are looked for. -/
def read (v : Vocabulary) (c : Cursor) : Reading := readFrom v (c.rest.length + 1) c

/-- The lookaheads to report where nothing that was looked for fits: those for which something was
tried. A reserved word beside names was not, as a name is taken first. -/
def lookedFor (v : Vocabulary) : LookaheadSet :=
  (v.tried.filter fun t => !t.isIgnored).foldl
    (fun set t => set.union (.singleton (.word t))) .empty

/-- The error where nothing that was looked for fits. -/
def misfitError (v : Vocabulary) (c : Cursor) : SyntaxError :=
  match c.next? .full with
  | some (t, _) => ⟨.unexpectedToken t.word (lookedFor v), c.position⟩
  | none => ⟨.unexpectedCharacter (c.rest.headD ' '), c.position⟩

/-! ### Whole texts -/

/-- Reads a text to its end. `last` is where the last word started. -/
def parseFrom (auto : Automaton) : Nat → Stack → Position → Cursor → Except SyntaxError Sentence
  | 0, stack, last, _ => .error ⟨.unexpectedEnd (stack.state auto).lookaheads, last⟩
  | fuel + 1, stack, last, c =>
    let v := (stack.state auto).vocabulary
    match read v c with
    | .misfit c => .error (misfitError v c)
    | .finish =>
      match settle auto .finish (settleFuel stack) stack with
      | .done d => .ok d
      | .goOn stack _ => .error ⟨.unexpectedEnd (stack.state auto).lookaheads, last⟩
      | .stop expected => .error ⟨.unexpectedEnd expected, last⟩
    | .token t c =>
      match settle auto (.word t.kind) (settleFuel stack) stack with
      | .goOn stack number =>
        parseFrom auto fuel (⟨number, .word t.kind, .leaf t⟩ :: stack) t.start c
      | .done _ => .error ⟨.unexpectedToken t.word .empty, t.start⟩
      | .stop expected => .error ⟨.unexpectedToken t.word expected, t.start⟩

/-- The sentence that a text is, read with the given automaton. -/
def parseWith (auto : Automaton) (source : String) : Except SyntaxError Sentence :=
  let c := Cursor.ofString source
  parseFrom auto (c.rest.length + 1) [] c.position c

/-- The sentence that a text is. -/
def parseSentence (source : String) : Except SyntaxError Sentence := parseWith .ofGrammar source

/-- The script that a text stands for. -/
def parse (source : String) : Except SyntaxError Script :=
  (parseSentence source).map Sentence.script

/-- The words of a text, white space and comments included, up to the first place where there is
none; that place is an error. -/
def words (source : String) : List Token × Option SyntaxError :=
  let c := cut source
  (c.tokens, c.stuck.map fun position => ⟨.notAWord, position⟩)

end Scriptlet.Parsing
