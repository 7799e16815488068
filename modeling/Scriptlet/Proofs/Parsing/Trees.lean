import Scriptlet.Proofs.Parsing.Keys
import Scriptlet.Proofs.Parsing.Literals
import Scriptlet.Proofs.Script.DumpReading
import Scriptlet.Proofs.Store.Trees

/-!
# Reading trees

The text of a tree before a semicolon is a script of one expression, which writes the tree down. Its words
are those of that expression; keys stand right before their colons, so that they may be spelled like reserved
words, and blanks stand after colons and commas.

## What is proved

* `Tree.denotes`: the words of a tree mean the construct that writes it down.
* `laid_tree`: the text of a tree is laid out from its words.
* `parse_tree`: the text of a tree is read as the construct that writes it down.
-/

namespace Scriptlet

open Lexical

namespace Tree

mutual

/-- The construct that writes a tree down, on the first line. -/
def expr : Tree → Expr
  | int n => .literal (.int n) 1
  | str s => .literal (.str s) 1
  | object fields => .object (fieldExprs fields) 1

/-- The constructs that write the values of fields down. -/
def fieldExprs : List (String × Tree) → List (String × Expr)
  | [] => []
  | (name, tree) :: fields => (name, tree.expr) :: fieldExprs fields

end

mutual

/-- The words of a tree. -/
def words : Tree → List Word
  | int n => (Literal.int n).words
  | str s => [⟨.string, '"' :: (s.toList ++ ['"'])⟩]
  | object fields => braced (fieldWords fields)

/-- The words of fields, with commas between them. -/
def fieldWords : List (String × Tree) → List Word
  | [] => []
  | (name, tree) :: fields =>
    nameWord name :: Word.only .colon :: (tree.words ++ moreFieldWords fields)

/-- The words of fields after the first, each after a comma. -/
def moreFieldWords : List (String × Tree) → List Word
  | [] => []
  | (name, tree) :: fields =>
    Word.only .comma :: nameWord name :: Word.only .colon :: (tree.words ++ moreFieldWords fields)

end

variable {fields : List (String × Tree)}

theorem fieldExprs_eq : fieldExprs fields = fields.map fun f => (f.1, f.2.expr) := by
  induction fields with
  | nil => rfl
  | cons f fields ih => exact congrArg ((f.1, f.2.expr) :: ·) ih

theorem moreFieldWords_eq : moreFieldWords fields =
    fields.flatMap fun f => Word.only .comma :: nameWord f.1 :: Word.only .colon :: f.2.words := by
  induction fields with
  | nil => rfl
  | cons f fields ih =>
    rw [List.flatMap_cons, ← ih]
    rfl

end Tree

/-! ### What the words mean -/

namespace Grammar

variable {ws : List Word} {e : Expr}

theorem denotes_expression_of_primary (h : Denotes .primary ws e) : Denotes .expression ws e := by
  have hchain : Denotes .chain ws e := Denotes.node (r := .chainPrimary) rfl (.last h) fun _ hv => hv
  have hproduct : Denotes .product ws e :=
    Denotes.node (r := .productChain) rfl (.last hchain) fun _ hv => hv
  have hsum : Denotes .sum ws e := Denotes.node (r := .sumProduct) rfl (.last hproduct) fun _ hv => hv
  exact Denotes.node (r := .expressionSum) rfl (.last hsum) fun _ hv => hv

/-- A key, its colon and an expression. -/
theorem denotes_key (name : String) (h : Denotes .expression ws e) :
    Denotes .field (nameWord name :: Word.only .colon :: ws) (name, e) := by
  refine Denotes.node (r := .fieldName) rfl
    (.word (nameWord name) (.mark (.last h))) ?_
  rintro ⟨t, _, v, _⟩ ⟨⟨ht, -⟩, rfl⟩
  have hname : Token.text t = name := (congrArg String.ofList ht).trans String.ofList_toList
  exact congrArg (·, v) hname

theorem denotes_object {fields : List (String × Tree)}
    (h : ∀ f ∈ fields, Denotes .expression f.2.words f.2.expr) :
    Denotes .expression (Tree.object fields).words (Tree.object fields).expr := by
  have hobject : Denotes .object (Tree.object fields).words (Tree.object fields).expr := by
    cases fields with
    | nil => exact Denotes.node (r := .objectEmpty) rfl (.mark (.mark .nil)) fun _ _ => rfl
    | cons field fields =>
      have hfields := denotes_fields fun f hf => denotes_key f.1 (h f hf)
      rw [Tree.words, Tree.fieldWords, Tree.moreFieldWords_eq, Tree.expr, Tree.fieldExprs_eq]
      refine Denotes.node (r := .objectFields) rfl (.mark (.phrase hfields (.mark .nil))) ?_
      rintro ⟨_, _, _⟩ ⟨rfl, -⟩
      rfl
  exact denotes_expression_of_primary
    (Denotes.node (r := .primaryObject) rfl (.last hobject) fun _ hv => hv)

end Grammar

open Grammar

theorem NeedsNoEscape.spells {s : String} (h : NeedsNoEscape s) : Spells '"' s.toList s.toList := by
  rw [NeedsNoEscape] at h
  generalize s.toList = cs at h
  induction cs with
  | nil => exact .nil
  | cons c cs ih =>
    obtain ⟨⟨hmark, hback, hfeed⟩, hothers⟩ := List.forall_mem_cons.mp h
    exact .plain hmark hback hfeed (ih hothers)

mutual

/-- The words of a tree mean the construct that writes it down. -/
theorem Tree.denotes (tree : Tree) (h : tree.IsWritable) :
    Denotes .expression tree.words tree.expr := by
  cases tree with
  | int n => exact (means_integer n).2
  | str s =>
    have hread := means_string (.inl rfl) h.spells
    rw [String.ofList_toList] at hread
    exact denotes_expression_of_primary hread.2
  | object fields => exact denotes_object (Tree.denotes_fields fields h.2)

theorem Tree.denotes_fields (fields : List (String × Tree)) (h : Tree.AreWritable fields) :
    ∀ f ∈ fields, Denotes .expression f.2.words f.2.expr := by
  cases fields with
  | nil => exact List.forall_mem_nil _
  | cons field fields =>
    obtain ⟨name, tree⟩ := field
    exact List.forall_mem_cons.mpr ⟨tree.denotes h.1.2, Tree.denotes_fields fields h.2⟩

end

/-! ### How the words are laid out -/

theorem Heap.toList_fieldLine (name text : String) :
    (fieldLine name text).toList = name.toList ++ ':' :: ' ' :: text.toList := by
  rw [fieldLine, String.toList_append, String.toList_append, List.append_assoc]
  rfl

theorem Heap.toList_bracedLines (line : String) (lines : List String) :
    (bracedLines (line :: lines)).toList =
      '\x7b' :: (line.toList ++ (Dump.moreText lines ++ ['\x7d'])) := by
  rw [bracedLines, String.toList_append, String.toList_append, Dump.toList_intercalate_cons,
    List.append_assoc, List.append_assoc]
  rfl

namespace Parsing

variable {ws : List Word} {cs : List Char}

/-- A text that does not go on with digits. -/
def NoDigitAhead (cs : List Char) : Prop := ∀ c ∈ cs.head?, c.isDigit = false

theorem noDigitAhead_cons {c : Char} (h : c.isDigit = false) (cs : List Char) : NoDigitAhead (c :: cs) := by
  rintro _ ⟨⟩
  exact h

theorem noDigitAhead_moreText (lines : List String) (h : NoDigitAhead cs) :
    NoDigitAhead (Dump.moreText lines ++ cs) := by
  cases lines with
  | nil => exact h
  | cons line lines => exact noDigitAhead_cons rfl _

theorem laid_integer (n : Int) (hcs : NoDigitAhead cs) (h : Laid ws cs) :
    Laid ((Literal.int n).words ++ ws) ((toString n).toList ++ cs) := by
  have hdigits : Laid (numberWord n.natAbs :: ws) ((numberWord n.natAbs).chars ++ cs) :=
    .word (Word.readable_number _) hcs h
  rw [toList_toString_int, Literal.words]
  split
  · have hsigned := Laid.word (Word.readable_operator .sub) (fun _ _ => rfl) hdigits
    simpa using hsigned
  · simpa using hdigits

/-- A mark is written right before any text. -/
theorem Laid.mark {t : Terminal} (ht : t.spelling ≠ []) (hends : t.EndsBefore cs) (h : Laid ws cs) :
    Laid (Word.only t :: ws) (t.spelling ++ cs) :=
  .word (Word.readable_only ht) hends h

mutual

/-- The text of a tree is laid out from its words. -/
theorem laid_tree (tree : Tree) {ws : List Word} {cs : List Char} (h : tree.IsWritable)
    (hcs : NoDigitAhead cs) (hrest : Laid ws cs) : Laid (tree.words ++ ws) (tree.text.toList ++ cs) := by
  cases tree with
  | int n => exact laid_integer n hcs hrest
  | str s =>
    have hword := Laid.word (Word.readable_string (.inl rfl) h.spells) (fun _ _ => rfl) hrest
    simpa [Tree.words, Tree.text] using hword
  | object fields =>
    have hclose : Laid (Word.only .rightBrace :: ws) ('\x7d' :: cs) :=
      Laid.mark (by decide) (fun _ _ => rfl) hrest
    cases fields with
    | nil => exact Laid.mark (by decide) (fun _ _ => rfl) hclose
    | cons field fields =>
      obtain ⟨name, tree⟩ := field
      have hfields := laid_moreFields fields h.2.2 (noDigitAhead_cons rfl cs) hclose
      have hvalue := laid_tree tree h.2.1.2
        (noDigitAhead_moreText _ (noDigitAhead_cons rfl cs)) hfields
      have hopen := Laid.mark (t := .leftBrace) (by decide) (fun _ _ => rfl) (.key h.2.1.1 hvalue)
      rw [Tree.text, Tree.fieldLines, Heap.toList_bracedLines, Heap.toList_fieldLine]
      simpa [Tree.words, Tree.fieldWords, braced, nameWord, Terminal.spelling] using hopen

/-- The texts of fields after the first are laid out from their words. -/
theorem laid_moreFields (fields : List (String × Tree)) {ws : List Word} {cs : List Char}
    (h : Tree.AreWritable fields) (hcs : NoDigitAhead cs) (hrest : Laid ws cs) :
    Laid (Tree.moreFieldWords fields ++ ws) (Dump.moreText (Tree.fieldLines fields) ++ cs) := by
  cases fields with
  | nil => exact hrest
  | cons field fields =>
    obtain ⟨name, tree⟩ := field
    have hfields := laid_moreFields fields h.2 hcs hrest
    have hvalue := laid_tree tree h.1.2 (noDigitAhead_moreText _ hcs) hfields
    have hcomma := Laid.spaced (Word.readable_only (t := .comma) (by decide)) (.key h.1.1 hvalue)
    simpa [Tree.moreFieldWords, Tree.fieldLines, Dump.moreText, Heap.toList_fieldLine, nameWord,
      Word.only, Terminal.spelling] using hcomma

end

/-- **The text of a tree is read as the construct that writes it down**, as a script of one statement. -/
theorem parse_tree (tree : Tree) (h : tree.IsWritable) :
    parse (tree.text ++ ";") = .ok ⟨⟨[tree.expr], 1⟩⟩ := by
  have hsemicolon : Laid [Word.only .semicolon] [';'] :=
    Laid.mark (by decide) (fun _ _ => rfl) .nil
  have hlaid := laid_tree tree h (noDigitAhead_cons rfl []) hsemicolon
  have hparse := parse_of_laid hlaid (denotes_program_of_expression (tree.denotes h))
  rwa [ofList_append_semicolon, String.ofList_toList] at hparse

end Parsing

end Scriptlet
