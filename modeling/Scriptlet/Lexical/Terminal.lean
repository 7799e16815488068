/-!
# Terminals

The kinds of word a script is made of, and for each kind which stretch at the start of a text
belongs to it. A terminal takes the longest stretch that it can, except that a block comment ends at
the first closing mark. Two terminals that can start at the same place are told apart by the order
in which they are tried.

## What is stated

* `Terminal.append_of_split`: a terminal cuts the text in two, so that the word it takes and the rest
  make up the text again.
* `Terminal.ne_nil_of_split`: a word is never empty.
-/

namespace Scriptlet.Lexical

/-- The kinds of word. -/
inductive Terminal where
  /-- A letter, underscore or dollar sign, and letters, digits and those after it. -/
  | name
  /-- Decimal digits. -/
  | number
  /-- A text between single or double quotes, on one line. -/
  | string
  /-- Two slashes and the rest of the line. -/
  | lineComment
  /-- All from a slash and a star to the first star and slash. -/
  | blockComment
  /-- White space. -/
  | blank
  /-- The word `function`. -/
  | functionWord
  /-- The word `return`. -/
  | returnWord
  /-- The word `else`. -/
  | elseWord
  /-- The word `var`. -/
  | varWord
  /-- The word `let`. -/
  | letWord
  /-- The word `if`. -/
  | ifWord
  /-- `==`, `!=`, `<=`, `>=`, `<` or `>`. -/
  | comparison
  /-- `+` or `-`. -/
  | sign
  /-- `*`, `/` or `%`. -/
  | factor
  /-- `(`. -/
  | leftParen
  /-- `)`. -/
  | rightParen
  /-- An opening brace. -/
  | leftBrace
  /-- A closing brace. -/
  | rightBrace
  /-- `,`. -/
  | comma
  /-- `;`. -/
  | semicolon
  /-- `:`. -/
  | colon
  /-- `.`. -/
  | dot
  /-- `=`. -/
  | equals
  deriving DecidableEq, Repr, Inhabited

namespace Terminal

/-- All terminals in the order in which they are tried: those of unbounded length, the reserved
words, and the rest from the longest to the shortest. -/
def inOrder : List Terminal :=
  [name, number, string, lineComment, blockComment, blank,
   functionWord, returnWord, elseWord, varWord, letWord, ifWord,
   comparison, sign, factor, leftParen, rightParen, leftBrace, rightBrace,
   comma, semicolon, colon, dot, equals]

theorem mem_inOrder (t : Terminal) : t ∈ inOrder := by
  cases t <;> decide

/-- The name by which messages call a terminal. -/
def label : Terminal → String
  | name => "NAME"
  | number => "NUMBER"
  | string => "STRING"
  | lineComment => "LINE_COMMENT"
  | blockComment => "BLOCK_COMMENT"
  | blank => "WS"
  | functionWord => "FUNCTION"
  | returnWord => "RETURN"
  | elseWord => "ELSE"
  | varWord => "VAR"
  | letWord => "LET"
  | ifWord => "IF"
  | comparison => "CMP_OP"
  | sign => "ADD_OP"
  | factor => "MUL_OP"
  | leftParen => "LPAR"
  | rightParen => "RPAR"
  | leftBrace => "LBRACE"
  | rightBrace => "RBRACE"
  | comma => "COMMA"
  | semicolon => "SEMICOLON"
  | colon => "COLON"
  | dot => "DOT"
  | equals => "EQUAL"

/-- The spelling of a reserved word. -/
def reserved? : Terminal → Option (List Char)
  | functionWord => some ['f', 'u', 'n', 'c', 't', 'i', 'o', 'n']
  | returnWord => some ['r', 'e', 't', 'u', 'r', 'n']
  | elseWord => some ['e', 'l', 's', 'e']
  | varWord => some ['v', 'a', 'r']
  | letWord => some ['l', 'e', 't']
  | ifWord => some ['i', 'f']
  | _ => none

/-- The terminal is a reserved word. -/
def isReserved (t : Terminal) : Bool := t.reserved?.isSome

/-- The terminal separates words and means nothing. -/
def isIgnored : Terminal → Bool
  | lineComment | blockComment | blank => true
  | _ => false

end Terminal

/-! ### Classes of characters -/

/-- A name may start with this character. -/
def isNameStart (c : Char) : Bool := c.isAlpha || c = '_' || c = '$'

/-- A name may go on with this character. -/
def isNamePart (c : Char) : Bool := isNameStart c || c.isDigit

/-- White space between words. -/
def isSpace (c : Char) : Bool := c = ' ' || c = '\t' || c = '\x0c' || c = '\r' || c = '\n'

/-! ### Stretches at the start of a text

Each function returns the word at the start of a text and what follows it. -/

/-- A word found later in the text, with the characters before it. -/
def before (cs : List Char) (found : Option (List Char × List Char)) :
    Option (List Char × List Char) :=
  found.map fun (word, rest) => (cs ++ word, rest)

/-- A character of one class and a stretch of characters of another. -/
def splitHead (p q : Char → Bool) : List Char → Option (List Char × List Char)
  | [] => none
  | c :: cs => if p c then some (c :: cs.takeWhile q, cs.dropWhile q) else none

/-- A stretch of characters of a class, not empty. -/
def splitRun (p : Char → Bool) : List Char → Option (List Char × List Char) := splitHead p p

/-- The given characters. -/
def splitExact : List Char → List Char → Option (List Char × List Char)
  | [], cs => some ([], cs)
  | _ :: _, [] => none
  | d :: ds, c :: cs =>
    if c = d then before [c] (splitExact ds cs) else none

/-- One character of a class. -/
def splitOne (p : Char → Bool) : List Char → Option (List Char × List Char)
  | [] => none
  | c :: cs => if p c then some ([c], cs) else none

/-- A quoted text after its opening quote: a backslash takes the next character along, and neither
may be a line feed. -/
def splitQuoted (mark : Char) : List Char → Option (List Char × List Char)
  | [] => none
  | '\\' :: [] => none
  | '\\' :: c :: cs =>
    if c = '\n' then none else before ['\\', c] (splitQuoted mark cs)
  | c :: cs =>
    if c = mark then some ([c], cs)
    else if c = '\n' then none
    else before [c] (splitQuoted mark cs)

/-- A quoted text. -/
def splitString : List Char → Option (List Char × List Char)
  | [] => none
  | c :: cs =>
    if c = '"' || c = '\'' then before [c] (splitQuoted c cs) else none

/-- A comment up to the end of its line. -/
def splitLineComment : List Char → Option (List Char × List Char)
  | '/' :: '/' :: cs =>
    some ('/' :: '/' :: cs.takeWhile fun c => c ≠ '\n', cs.dropWhile fun c => c ≠ '\n')
  | _ => none

/-- All up to the first star that a slash follows, these two included. -/
def splitCommentEnd : List Char → Option (List Char × List Char)
  | [] => none
  | '*' :: '/' :: cs => some (['*', '/'], cs)
  | c :: cs => before [c] (splitCommentEnd cs)

/-- A comment between marks. -/
def splitBlockComment : List Char → Option (List Char × List Char)
  | '/' :: '*' :: cs => before ['/', '*'] (splitCommentEnd cs)
  | _ => none

/-- A comparison sign, the longer one where two fit. -/
def splitComparison : List Char → Option (List Char × List Char)
  | '=' :: '=' :: cs => some (['=', '='], cs)
  | '!' :: '=' :: cs => some (['!', '='], cs)
  | '<' :: '=' :: cs => some (['<', '='], cs)
  | '>' :: '=' :: cs => some (['>', '='], cs)
  | '<' :: cs => some (['<'], cs)
  | '>' :: cs => some (['>'], cs)
  | _ => none

/-- The word of a terminal at the start of a text, and what follows it. -/
def Terminal.split? : Terminal → List Char → Option (List Char × List Char)
  | .name => splitHead isNameStart isNamePart
  | .number => splitRun Char.isDigit
  | .string => splitString
  | .lineComment => splitLineComment
  | .blockComment => splitBlockComment
  | .blank => splitRun isSpace
  | .functionWord => splitExact ['f', 'u', 'n', 'c', 't', 'i', 'o', 'n']
  | .returnWord => splitExact ['r', 'e', 't', 'u', 'r', 'n']
  | .elseWord => splitExact ['e', 'l', 's', 'e']
  | .varWord => splitExact ['v', 'a', 'r']
  | .letWord => splitExact ['l', 'e', 't']
  | .ifWord => splitExact ['i', 'f']
  | .comparison => splitComparison
  | .sign => splitOne fun c => c = '+' || c = '-'
  | .factor => splitOne fun c => c = '*' || c = '/' || c = '%'
  | .leftParen => splitExact ['(']
  | .rightParen => splitExact [')']
  | .leftBrace => splitExact ['\x7b']
  | .rightBrace => splitExact ['\x7d']
  | .comma => splitExact [',']
  | .semicolon => splitExact [';']
  | .colon => splitExact [':']
  | .dot => splitExact ['.']
  | .equals => splitExact ['=']

/-! ### Nothing is lost -/

theorem append_of_before {cs ds word rest : List Char} {found : Option (List Char × List Char)}
    (h : before cs found = some (word, rest))
    (hf : ∀ {word rest}, found = some (word, rest) → word ++ rest = ds) :
    word ++ rest = cs ++ ds := by
  simp only [before, Option.map_eq_some_iff, Prod.mk.injEq] at h
  obtain ⟨⟨w, r⟩, hw, rfl, rfl⟩ := h
  rw [List.append_assoc, hf hw]

theorem append_of_splitHead {p q : Char → Bool} {cs word rest : List Char}
    (h : splitHead p q cs = some (word, rest)) : word ++ rest = cs := by
  cases cs with
  | nil => simp [splitHead] at h
  | cons c cs =>
    simp only [splitHead, Option.ite_none_right_eq_some, Option.some.injEq, Prod.mk.injEq] at h
    obtain ⟨-, rfl, rfl⟩ := h
    rw [List.cons_append, List.takeWhile_append_dropWhile]

theorem append_of_splitExact {ds cs word rest : List Char}
    (h : splitExact ds cs = some (word, rest)) : word ++ rest = cs := by
  fun_induction splitExact ds cs generalizing word rest with
  | case1 => simp_all
  | case2 => simp at h
  | case3 ds c cs ih => exact append_of_before h ih
  | case4 => simp at h

theorem append_of_splitOne {p : Char → Bool} {cs word rest : List Char}
    (h : splitOne p cs = some (word, rest)) : word ++ rest = cs := by
  cases cs with
  | nil => simp [splitOne] at h
  | cons c cs =>
    simp only [splitOne, Option.ite_none_right_eq_some, Option.some.injEq, Prod.mk.injEq] at h
    obtain ⟨-, rfl, rfl⟩ := h
    rfl

theorem append_of_splitQuoted {mark : Char} {cs word rest : List Char}
    (h : splitQuoted mark cs = some (word, rest)) : word ++ rest = cs := by
  fun_induction splitQuoted mark cs generalizing word rest with
  | case1 => simp at h
  | case2 => simp at h
  | case3 => simp at h
  | case4 c cs _ ih => exact append_of_before h ih
  | case5 =>
    simp only [Option.some.injEq, Prod.mk.injEq] at h
    obtain ⟨rfl, rfl⟩ := h
    rfl
  | case6 => simp at h
  | case7 c cs _ _ _ _ ih => exact append_of_before h ih

theorem append_of_splitString {cs word rest : List Char}
    (h : splitString cs = some (word, rest)) : word ++ rest = cs := by
  cases cs with
  | nil => simp [splitString] at h
  | cons c cs =>
    simp only [splitString, Option.ite_none_right_eq_some] at h
    exact append_of_before h.2 append_of_splitQuoted

theorem append_of_splitLineComment {cs word rest : List Char}
    (h : splitLineComment cs = some (word, rest)) : word ++ rest = cs := by
  unfold splitLineComment at h
  split at h
  · simp only [Option.some.injEq, Prod.mk.injEq] at h
    obtain ⟨rfl, rfl⟩ := h
    simp
  · simp at h

theorem append_of_splitCommentEnd {cs word rest : List Char}
    (h : splitCommentEnd cs = some (word, rest)) : word ++ rest = cs := by
  fun_induction splitCommentEnd cs generalizing word rest with
  | case1 => simp at h
  | case2 cs =>
    simp only [Option.some.injEq, Prod.mk.injEq] at h
    obtain ⟨rfl, rfl⟩ := h
    rfl
  | case3 c cs _ ih => exact append_of_before h ih

theorem append_of_splitBlockComment {cs word rest : List Char}
    (h : splitBlockComment cs = some (word, rest)) : word ++ rest = cs := by
  unfold splitBlockComment at h
  split at h
  · exact append_of_before h append_of_splitCommentEnd
  · simp at h

theorem append_of_splitComparison {cs word rest : List Char}
    (h : splitComparison cs = some (word, rest)) : word ++ rest = cs := by
  unfold splitComparison at h
  split at h <;> simp_all <;> obtain ⟨rfl, rfl⟩ := h <;> rfl

/-- The word of a terminal and the rest make up the text. -/
theorem Terminal.append_of_split {t : Terminal} {cs word rest : List Char}
    (h : t.split? cs = some (word, rest)) : word ++ rest = cs := by
  cases t
  case name => exact append_of_splitHead h
  case number => exact append_of_splitHead h
  case blank => exact append_of_splitHead h
  case string => exact append_of_splitString h
  case lineComment => exact append_of_splitLineComment h
  case blockComment => exact append_of_splitBlockComment h
  case comparison => exact append_of_splitComparison h
  case sign | factor => exact append_of_splitOne h
  all_goals exact append_of_splitExact h

/-! ### A word is never empty -/

theorem ne_nil_of_before {c : Char} {cs word rest : List Char}
    {found : Option (List Char × List Char)} (h : before (c :: cs) found = some (word, rest)) :
    word ≠ [] := by
  simp only [before, Option.map_eq_some_iff, Prod.mk.injEq] at h
  obtain ⟨_, _, rfl, _⟩ := h
  simp

theorem ne_nil_of_splitHead {p q : Char → Bool} {cs word rest : List Char}
    (h : splitHead p q cs = some (word, rest)) : word ≠ [] := by
  cases cs with
  | nil => simp [splitHead] at h
  | cons c cs =>
    simp only [splitHead, Option.ite_none_right_eq_some, Option.some.injEq, Prod.mk.injEq] at h
    simp [← h.2.1]

theorem ne_nil_of_splitExact {d : Char} {ds cs word rest : List Char}
    (h : splitExact (d :: ds) cs = some (word, rest)) : word ≠ [] := by
  cases cs with
  | nil => simp [splitExact] at h
  | cons c cs =>
    simp only [splitExact, Option.ite_none_right_eq_some] at h
    exact ne_nil_of_before h.2

/-- The word of a terminal holds at least one character. -/
theorem Terminal.ne_nil_of_split {t : Terminal} {cs word rest : List Char}
    (h : t.split? cs = some (word, rest)) : word ≠ [] := by
  cases t
  case name => exact ne_nil_of_splitHead h
  case number => exact ne_nil_of_splitHead h
  case blank => exact ne_nil_of_splitHead h
  case string =>
    cases cs with
    | nil => simp [split?, splitString] at h
    | cons c cs =>
      simp only [split?, splitString, Option.ite_none_right_eq_some] at h
      exact ne_nil_of_before h.2
  case lineComment =>
    simp only [split?, splitLineComment] at h
    split at h <;> simp at h
    simp [← h.1]
  case blockComment =>
    simp only [split?, splitBlockComment] at h
    split at h
    · exact ne_nil_of_before h
    · simp at h
  case comparison =>
    simp only [split?, splitComparison] at h
    split at h <;> simp at h <;> simp [← h.1]
  case sign | factor =>
    cases cs with
    | nil => simp [split?, splitOne] at h
    | cons c cs =>
      simp only [split?, splitOne, Option.ite_none_right_eq_some, Option.some.injEq,
        Prod.mk.injEq] at h
      simp [← h.2.1]
  all_goals exact ne_nil_of_splitExact h

end Scriptlet.Lexical
