import Scriptlet.Proofs.Parsing.RoundTrip
import Scriptlet.Proofs.Script.DumpLines
import Scriptlet.Store.Rendering

/-!
# What literals stand for

A literal before a semicolon is a script. A string can be spelled in many ways and each of them is read as
the string; an integer is read from the text that shows it, where a sign is a word of its own.

## What is proved

* `parse_expressionStatement`: the words of an expression before a semicolon are read as a script of one
  statement.
* `words_single`: a readable word is the only word of its text.
* `literals_denote`: every spelling of a string and every integer shown is read as what it stands for.
-/

namespace Scriptlet.Grammar

open Lexical Dump

/-! ### One statement -/

/-- An expression before a semicolon is a script. -/
theorem denotes_program_of_expression {ws : List Word} {e : Expr} (h : Denotes .expression ws e) :
    Denotes .program (ws ++ [Word.only .semicolon]) ⟨⟨[e], 1⟩⟩ := by
  have hstatements : Denotes .statements (ws ++ [Word.only .semicolon]) [e] := by
    refine Denotes.node (r := .statementsOne) rfl (.last (denotes_expressionStatement h)) ?_
    rintro ⟨_, _⟩ rfl
    rfl
  refine Denotes.node (r := .programStatements) rfl (.last hstatements) ?_
  rintro ⟨_, _⟩ rfl
  rfl

theorem means_program_of_expression {ws : List Word} {e : Expr} (h : Means .expression ws e) :
    Means .program (ws ++ [Word.only .semicolon]) ⟨⟨[e], 1⟩⟩ :=
  ⟨(means_expressionStatement h).1, denotes_program_of_expression h.2⟩

/-- Any spelling of a string is read as the string. -/
theorem means_string {mark : Char} {cs s : List Char} (hmark : mark = '"' ∨ mark = '\'')
    (h : Spells mark cs s) :
    Means .primary [⟨.string, mark :: (cs ++ [mark])⟩] (.literal (.str (String.ofList s)) 1) := by
  refine Means.node (r := .primaryString) rfl (.word (Word.readable_string hmark h) .nil) ?_
  rintro ⟨t, _⟩ ⟨⟨ht, hline⟩, -⟩
  have hvalue : unquote (Token.word t) = String.ofList s := by rw [ht, unquote_of_spells h]
  exact congrArg (fun s => Expr.literal (.str s) 1) hvalue

/-- An integer is read from its digits, with a sign in front of them if it is negative. -/
theorem means_integer (n : Int) :
    Means .expression (Literal.int n).words (.literal (.int n) 1) := by
  have hread : IsRead (.literal (.int n) 1) := isRead_literal (.int n)
  exact hread.isExpression rfl

/-! ### The text of an integer -/

/-- The digits of an integer, with a sign in front of them if it is negative, are the text that shows it. -/
theorem toList_toString_int (n : Int) :
    (toString n).toList = (Literal.int n).words.flatMap Word.chars := by
  cases n with
  | ofNat n => exact (toList_toString_nat n).trans (List.append_nil _).symm
  | negSucc n =>
    rw [toList_toString_negSucc, Literal.words, if_pos (Int.negSucc_lt_zero n)]
    exact congrArg ('-' :: ·) (List.append_nil _).symm

/-- A word is written right before a text that it does not go on with. -/
theorem layOut_cons_of_endsBefore {w : Word} {ws : List Word} (h : w.kind.EndsBefore (layOut ws)) :
    layOut (w :: ws) = w.chars ++ layOut ws := by
  rw [layOut, if_neg]
  rw [Option.any_eq_true_iff_get]
  rintro ⟨hsome, hgoes⟩
  have hends := h _ (Option.get_mem hsome)
  rw [hgoes] at hends
  cases hends

/-- The words of an integer do not run together with one another or with a semicolon. -/
theorem layOut_integer (n : Int) :
    layOut ((Literal.int n).words ++ [Word.only .semicolon]) = (toString n).toList ++ [';'] := by
  have hdigits : layOut [numberWord n.natAbs, Word.only .semicolon] =
      Nat.toDigits 10 n.natAbs ++ [';'] := by
    refine layOut_cons_of_endsBefore (w := numberWord _) ?_
    rintro _ ⟨⟩
    rfl
  rw [toList_toString_int, Literal.words]
  split
  · rw [List.cons_append, List.singleton_append, layOut_cons_of_endsBefore (fun _ _ => rfl), hdigits]
    simp [numberWord]
  · rw [List.singleton_append, hdigits]
    simp [numberWord]

end Scriptlet.Grammar

namespace Scriptlet.Parsing

open Grammar Lexical Text

/-- The words of an expression before a semicolon are read as a script of one statement. -/
theorem parse_expressionStatement {ws : List Word} {e : Expr} (h : Means .expression ws e) :
    parse (String.ofList (layOut (ws ++ [Word.only .semicolon]))) = .ok ⟨⟨[e], 1⟩⟩ :=
  parse_layOut (means_program_of_expression h)

theorem ofList_append_semicolon (cs : List Char) :
    String.ofList (cs ++ [';']) = String.ofList cs ++ ";" :=
  String.ofList_append

/-- A readable word is the only word of its text. -/
theorem words_single {w : Word} (h : w.Readable) :
    words (String.ofList w.chars) =
      ([⟨w.kind, w.chars, .start, Position.start.advance w.chars⟩], none) := by
  have hends : w.kind.EndsBefore [] := nofun
  have hnext := h.next? hends .start
  rw [List.append_nil] at hnext
  have hcut : CutInto .full (Cursor.ofString (String.ofList w.chars))
      [⟨w.kind, w.chars, .start, Position.start.advance w.chars⟩] := by
    rw [Cursor.ofString, String.toList_ofList]
    exact .cons hnext (.nil _)
  rw [words, hcut.cut_eq]
  rfl

/-- **Literals stand for every value.** However a string is spelled between quotes of either kind, the text
is one word, which denotes the string, and before a semicolon it is read as the string. So is the text that
shows an integer as the integer. -/
theorem literals_denote :
    (∀ (mark : Char) (cs s : List Char), mark = '"' ∨ mark = '\'' → Spells mark cs s →
      words (String.ofList (mark :: (cs ++ [mark]))) =
        ([⟨.string, mark :: (cs ++ [mark]), .start,
          Position.start.advance (mark :: (cs ++ [mark]))⟩], none) ∧
      unquote (mark :: (cs ++ [mark])) = String.ofList s ∧
      parse (String.ofList (mark :: (cs ++ [mark])) ++ ";") =
        .ok ⟨⟨[.literal (.str (String.ofList s)) 1], 1⟩⟩) ∧
    ∀ (h : Heap) (n : Int),
      parse (h.display (.int n) ++ ";") = .ok ⟨⟨[.literal (.int n) 1], 1⟩⟩ := by
  refine ⟨fun mark cs s hmark hspells => ⟨?_, unquote_of_spells hspells, ?_⟩, fun h n => ?_⟩
  · have hword := words_single (Word.readable_string hmark hspells)
    exact hword
  · have htext : layOut [⟨.string, mark :: (cs ++ [mark])⟩, Word.only .semicolon] =
        mark :: (cs ++ [mark]) ++ [';'] := rfl
    have hread := parse_expressionStatement (readsAs_of_primary (means_string hmark hspells) 0)
    rw [← ofList_append_semicolon, ← htext]
    exact hread
  · have htext : h.display (.int n) = String.ofList (toString n).toList := String.ofList_toList.symm
    rw [htext, ← ofList_append_semicolon, ← layOut_integer]
    exact parse_expressionStatement (means_integer n)

/-- A backslash before a quote, one before another backslash, and one that does nothing. -/
theorem literals_denote_escapes :
    words "'\\'\\\\\\q'" = ([⟨.string, "'\\'\\\\\\q'".toList, .start, ⟨8, 1, 9⟩⟩], none) ∧
    parse "'\\'\\\\\\q';" = .ok ⟨⟨[.literal (.str "'\\q") 1], 1⟩⟩ ∧
    parse "-10;" = .ok ⟨⟨[.literal (.int (-10)) 1], 1⟩⟩ := by
  have hspells : Spells '\'' ['\\', '\'', '\\', '\\', '\\', 'q'] ['\'', '\\', 'q'] :=
    .escape (by decide) (.escape (by decide) (.escape (by decide) .nil))
  obtain ⟨hword, -, hread⟩ := literals_denote.1 '\'' _ _ (.inr rfl) hspells
  have hshown : Heap.initial.display (.int (-10)) ++ ";" = "-10;" := by decide
  exact ⟨hword, hread, hshown ▸ literals_denote.2 .initial (-10)⟩

end Scriptlet.Parsing
