import Scriptlet.Proofs.Parsing.RoundTrip
import Scriptlet.Proofs.Parsing.WellFormed
import Scriptlet.Proofs.Script.Nodes
import Scriptlet.Proofs.Text.Quoted
import Scriptlet.Script.Dump

/-!
# How many lines a dump has

A dump has one line for the script, one for every construct in it and one for every list that a construct
holds. Strings and names are quoted, or cannot break a line; the keys of objects alone are written down as
they are, so every line feed in a key breaks the line that it stands on.

## What is proved

* `length_exprLines`: a construct is shown by a line for every construct and every list in it.
* `feeds_exprLines`: line feeds within these lines are those of keys.
* `count_newline_dump`: how many line feeds there are in the dump of a script that was read.
-/

namespace Scriptlet

open Lexical

/-! ### Lists and keys -/

namespace Expr

/-- The construct holds a list: of statements, of arguments, of parameters or of fields. -/
def holdsList : Expr → Bool
  | block _ | call _ _ _ | function _ _ _ _ _ | object _ _ | method _ _ _ _ => true
  | literal _ _ | identifier _ _ | assign _ _ _ _ | returns _ _ | choose _ _ _ _ | field _ _ _
  | setField _ _ _ _ => false

/-- The keys of the fields of an object. -/
def keys : Expr → List String
  | object fields _ => fields.map Prod.fst
  | _ => []

end Expr

/-- The keys of the objects in a script. -/
def Script.keys (script : Script) : List String := script.body.nodes.flatMap Expr.keys

/-- All characters of a name are parts of names. -/
theorem isNamePart_of_isName {s : String} (h : isName s = true) :
    ∀ c ∈ s.toList, isNamePart c = true := by
  rw [isName] at h
  cases hs : s.toList with
  | nil => exact List.forall_mem_nil _
  | cons c cs =>
    rw [hs, isNameForm, Bool.and_eq_true] at h
    refine List.forall_mem_cons.mpr ⟨?_, List.all_eq_true.mp h.2⟩
    rw [isNamePart, h.1, Bool.true_or]

namespace Dump

/-! ### Lines -/

section Length

variable {indent : String}

mutual

/-- **A construct is shown by a line for every construct in it and one for every list that they hold.** -/
theorem length_exprLines (level : Nat) (label : String) (e : Expr) :
    (exprLines indent level label e).length = e.nodes.length + e.nodes.countP Expr.holdsList := by
  cases e with
  | block body => exact length_blockLines level label body
  | literal value line => rfl
  | call callee args line =>
    have hcallee := length_exprLines (level + 1) "qualifier" callee
    have hargs := length_listLines (level + 2) args
    simp only [exprLines, Expr.nodes, List.length_cons, List.length_append, List.countP_cons,
      List.countP_append, Expr.holdsList, ↓reduceIte, hcallee, hargs]
    omega
  | identifier name line => rfl
  | assign name value declares line =>
    have hvalue := length_exprLines (level + 1) "expr" value
    simp only [exprLines, Expr.nodes, List.length_cons, List.countP_cons, Expr.holdsList,
      Bool.false_eq_true, ↓reduceIte, hvalue]
    omega
  | function name params binds body line =>
    have hbody := length_blockLines (level + 1) "body" body
    simp only [exprLines, Expr.nodes, List.length_cons, List.countP_cons, Expr.holdsList, ↓reduceIte,
      hbody]
    omega
  | returns value line =>
    have hvalue := length_exprLines (level + 1) "expr" value
    simp only [exprLines, Expr.nodes, List.length_cons, List.countP_cons, Expr.holdsList,
      Bool.false_eq_true, ↓reduceIte, hvalue]
    omega
  | choose condition yes no line =>
    have hcondition := length_exprLines (level + 1) "condition" condition
    have hyes := length_blockLines (level + 1) "true_block" yes
    have hno := length_blockLines (level + 1) "false_block" no
    simp only [exprLines, Expr.nodes, List.length_cons, List.length_append, List.countP_cons,
      List.countP_append, Expr.holdsList, Bool.false_eq_true, ↓reduceIte, hcondition, hyes, hno]
    omega
  | object fields line =>
    have hfields := length_fieldLines (level + 2) fields
    simp only [exprLines, Expr.nodes, List.length_cons, List.countP_cons, Expr.holdsList, ↓reduceIte,
      hfields]
    omega
  | field receiver name line =>
    have hreceiver := length_exprLines (level + 1) "receiver" receiver
    simp only [exprLines, Expr.nodes, List.length_cons, List.countP_cons, Expr.holdsList,
      Bool.false_eq_true, ↓reduceIte, hreceiver]
    omega
  | setField receiver name value line =>
    have hreceiver := length_exprLines (level + 1) "receiver" receiver
    have hvalue := length_exprLines (level + 1) "expr" value
    simp only [exprLines, Expr.nodes, List.length_cons, List.length_append, List.countP_cons,
      List.countP_append, Expr.holdsList, Bool.false_eq_true, ↓reduceIte, hreceiver, hvalue]
    omega
  | method receiver name args line =>
    have hreceiver := length_exprLines (level + 1) "receiver" receiver
    have hargs := length_listLines (level + 2) args
    simp only [exprLines, Expr.nodes, List.length_cons, List.length_append, List.countP_cons,
      List.countP_append, Expr.holdsList, ↓reduceIte, hreceiver, hargs]
    omega

theorem length_blockLines (level : Nat) (label : String) (body : Block) :
    (blockLines indent level label body).length =
      body.nodes.length + body.nodes.countP Expr.holdsList := by
  obtain ⟨statements, line⟩ := body
  have hstatements := length_listLines (level + 2) statements
  simp only [blockLines, Block.nodes, List.length_cons, List.countP_cons, Expr.holdsList, ↓reduceIte,
    hstatements]
  omega

theorem length_listLines (level : Nat) (es : List Expr) :
    (listLines indent level es).length = (nodesIn es).length + (nodesIn es).countP Expr.holdsList := by
  cases es with
  | nil => rfl
  | cons e es =>
    have hfirst := length_exprLines level "" e
    simp only [listLines, nodesIn, List.length_append, List.countP_append, hfirst, length_listLines level es]
    omega

theorem length_fieldLines (level : Nat) (fields : List (String × Expr)) :
    (fieldLines indent level fields).length =
      (nodesInFields fields).length + (nodesInFields fields).countP Expr.holdsList := by
  cases fields with
  | nil => rfl
  | cons field fields =>
    obtain ⟨name, e⟩ := field
    have hfirst := length_exprLines level name e
    simp only [fieldLines, nodesInFields, List.length_append, List.countP_append, hfirst,
      length_fieldLines level fields]
    omega

end

end Length

/-! ### Head lines -/

/-- What the head line of a construct tells of it, but for its label and its line number. -/
inductive Heading where
  | block
  | literal (value : Literal)
  | call
  | identifier (name : String)
  | assign (name : String) (declares : Bool)
  | function (name : String) (binds : Bool)
  | returns
  | choose
  | object
  | field (name : String)
  | setField (name : String)
  | method (name : String)

/-- How a heading is written down. -/
def Heading.text : Heading → String
  | block => "Block"
  | literal value => "Literal value=" ++ value.dump
  | call => "Call"
  | identifier name => "Identifier name=" ++ Text.quote name
  | assign name declares => "VarAssignment name=" ++ Text.quote name ++ " declaration=" ++ flag declares
  | function name binds => "Fun name=" ++ Text.quote name ++ " toplevel=" ++ flag binds
  | returns => "Return"
  | choose => "If"
  | object => "ObjectLiteral"
  | field name => "FieldAccess name=" ++ Text.quote name
  | setField name => "FieldAssignment name=" ++ Text.quote name
  | method name => "MethodCall name=" ++ Text.quote name

/-- The heading of a construct. -/
def Heading.of : Expr → Heading
  | .block _ => block
  | .literal value _ => literal value
  | .call _ _ _ => call
  | .identifier name _ => identifier name
  | .assign name _ declares _ => assign name declares
  | .function name _ binds _ _ => function name binds
  | .returns _ _ => returns
  | .choose _ _ _ _ => choose
  | .object _ _ => object
  | .field _ name _ => field name
  | .setField _ name _ _ => setField name
  | .method _ name _ _ => method name

/-- The first line of a construct is its head line. -/
theorem exprLines_eq_cons (indent : String) (level : Nat) (label : String) (e : Expr) :
    exprLines indent level label e =
      headLine indent level label (Heading.of e).text e.line ::
        (exprLines indent level label e).tail := by
  cases e with
  | block body =>
    obtain ⟨statements, line⟩ := body
    rfl
  | _ => rfl

/-! ### Line feeds -/

/-- How many line feeds there are in a text. -/
def feeds (s : String) : Nat := s.toList.count '\n'

/-- How many line feeds there are in texts. -/
def feedsIn (texts : List String) : Nat := (texts.map feeds).sum

theorem feedsIn_cons (s : String) (texts : List String) :
    feedsIn (s :: texts) = feeds s + feedsIn texts := rfl

theorem feedsIn_append (texts others : List String) :
    feedsIn (texts ++ others) = feedsIn texts + feedsIn others := by
  rw [feedsIn, List.map_append, List.sum_append]
  rfl

theorem feeds_eq_zero_iff {s : String} : feeds s = 0 ↔ '\n' ∉ s.toList := List.count_eq_zero

theorem feeds_append (s t : String) : feeds (s ++ t) = feeds s + feeds t := by
  rw [feeds, String.toList_append, List.count_append]
  rfl

theorem feeds_quote (s : String) : feeds (Text.quote s) = 0 := by
  rw [feeds_eq_zero_iff, Text.quote, String.toList_ofList]
  exact Text.newline_notMem_quoteList s.toList

theorem toList_toString_nat (n : Nat) : (toString n).toList = Nat.toDigits 10 n := by
  show n.repr.toList = _
  rw [Nat.repr_eq_ofList_toDigits, String.toList_ofList]

theorem toList_toString_negSucc (n : Nat) :
    (toString (Int.negSucc n)).toList = '-' :: Nat.toDigits 10 (n + 1) :=
  String.toList_append.trans (congrArg (['-'] ++ ·) (toList_toString_nat (n + 1)))

theorem isDigit_of_mem_toDigits {n : Nat} {c : Char} (h : c ∈ Nat.toDigits 10 n) :
    c.isDigit = true :=
  Nat.isDigit_of_mem_toDigits (by decide) (by decide) h

/-- A number is written down in digits, after a sign if it is negative. -/
theorem isDigit_or_of_mem_toString {n : Int} {c : Char} (h : c ∈ (toString n).toList) :
    c.isDigit = true ∨ c = '-' := by
  cases n with
  | ofNat n => exact .inl (isDigit_of_mem_toDigits (toList_toString_nat n ▸ h))
  | negSucc n =>
    rcases List.mem_cons.mp (toList_toString_negSucc n ▸ h) with h | h
    · exact .inr h
    · exact .inl (isDigit_of_mem_toDigits h)

theorem feeds_toString_int (n : Int) : feeds (toString n) = 0 := by
  rw [feeds_eq_zero_iff]
  intro h
  rcases isDigit_or_of_mem_toString h with h | h
  · exact absurd h (by decide)
  · exact absurd h (by decide)

theorem feeds_toString_nat (n : Nat) : feeds (toString n) = 0 := feeds_toString_int n

theorem feeds_join (texts : List String) : feeds (String.join texts) = feedsIn texts := by
  rw [feeds, String.toList_join, List.count_flatMap]
  rfl

/-- Every line of a text ends with a line feed. -/
theorem feeds_text (lines : List String) :
    feeds (text lines) = lines.length + feedsIn lines := by
  rw [text, feeds_join]
  induction lines with
  | nil => rfl
  | cons line lines ih =>
    have hend : feeds "\n" = 1 := rfl
    rw [List.map_cons, feedsIn_cons, ih, feeds_append, hend, feedsIn_cons, List.length_cons]
    omega

theorem feeds_flag (b : Bool) : feeds (flag b) = 0 := by
  cases b with
  | false => rfl
  | true => rfl

theorem feeds_dump (value : Literal) : feeds value.dump = 0 := by
  cases value with
  | undefined => rfl
  | int n => exact feeds_toString_int n
  | str s => exact feeds_quote s

/-- A stem of one line before a quoted name stays on one line. -/
theorem feeds_quoted {stem : String} (h : feeds stem = 0) (name : String) :
    feeds (stem ++ Text.quote name) = 0 := by
  rw [feeds_append, h, feeds_quote]

/-- No heading breaks a line. -/
theorem feeds_heading (h : Heading) : feeds h.text = 0 := by
  cases h with
  | literal value =>
    show feeds ("Literal value=" ++ value.dump) = 0
    rw [feeds_append, feeds_dump]
    rfl
  | identifier name => exact feeds_quoted rfl name
  | field name => exact feeds_quoted rfl name
  | setField name => exact feeds_quoted rfl name
  | method name => exact feeds_quoted rfl name
  | assign name declares =>
    show feeds ("VarAssignment name=" ++ Text.quote name ++ " declaration=" ++ flag declares) = 0
    rw [feeds_append, feeds_append, feeds_quoted rfl, feeds_flag]
    rfl
  | function name binds =>
    show feeds ("Fun name=" ++ Text.quote name ++ " toplevel=" ++ flag binds) = 0
    rw [feeds_append, feeds_append, feeds_quoted rfl, feeds_flag]
    rfl
  | _ => rfl

section Feeds

variable {indent : String} (hindent : feeds indent = 0)

include hindent

theorem feeds_margin (level : Nat) (label : String) :
    feeds (margin indent level label) = feeds label := by
  have hindents : feeds (String.join (List.replicate level indent)) = 0 := by
    rw [feeds_join, feedsIn, List.map_replicate, hindent, List.sum_replicate_nat, Nat.mul_zero]
  rw [margin, feeds_append, hindents, Nat.zero_add]
  split
  next h => rw [h]
  next =>
    rw [feeds_append]
    rfl

theorem feeds_headLine (level : Nat) (label : String) (h : Heading) (line : Int) :
    feeds (headLine indent level label h.text line) = feeds label := by
  rw [headLine, feeds_append, feeds_append, feeds_append, feeds_margin hindent, feeds_heading,
    feeds_toString_int]
  rfl

theorem feeds_namesLine (level : Nat) (label : String) {names : List String}
    (h : ∀ name ∈ names, feeds name = 0) :
    feeds (namesLine indent level label names) = feeds label := by
  have hnames : feeds (String.intercalate ", " names) = 0 := by
    induction names with
    | nil => rfl
    | cons name names ih =>
      obtain ⟨hname, hnames⟩ := List.forall_mem_cons.mp h
      cases names with
      | nil => rw [String.intercalate_singleton, hname]
      | cons next names =>
        rw [String.intercalate_cons_cons, feeds_append, feeds_append, hname, ih hnames]
        rfl
  rw [namesLine, feeds_append, feeds_append, feeds_append, feeds_margin hindent, hnames]
  rfl

theorem feeds_countLine (level : Nat) (label : String) (n : Nat) :
    feeds (countLine indent level label n) = feeds label := by
  rw [countLine]
  split
  next => exact feeds_namesLine hindent level label (List.forall_mem_nil _)
  next =>
    rw [feeds_append, feeds_append, feeds_append, feeds_margin hindent, feeds_toString_nat]
    rfl

/-- A construct adds no line feeds to those of what is shown below its head line. -/
theorem feeds_exprLines_of_tail {level : Nat} {label : String} {e : Expr}
    (h : feedsIn (exprLines indent level label e).tail = feedsIn (e.nodes.flatMap Expr.keys)) :
    feedsIn (exprLines indent level label e) = feeds label + feedsIn (e.nodes.flatMap Expr.keys) := by
  rw [exprLines_eq_cons, feedsIn_cons, feeds_headLine hindent, h]

end Feeds

mutual

/-- **The line feeds within the lines of a construct are those of its label and of the keys in it**, if no
name breaks a line. -/
theorem feeds_exprLines {indent : String} (hindent : feeds indent = 0) (level : Nat) (label : String)
    (e : Expr) (h : e.all (Expr.bindsOnly isName) = true) :
    feedsIn (exprLines indent level label e) = feeds label + feedsIn (e.nodes.flatMap Expr.keys) := by
  have hreceiver : feeds "receiver" = 0 := rfl
  have hexpr : feeds "expr" = 0 := rfl
  have hlist : feeds "args" = 0 := rfl
  cases e with
  | block body => exact feeds_blockLines hindent level label body (Expr.all_block.mp h).2
  | literal value line => exact feeds_exprLines_of_tail hindent rfl
  | call callee args line =>
    rw [Expr.all, Bool.and_eq_true, Bool.and_eq_true] at h
    have hlabel : feeds "qualifier" = 0 := rfl
    have hcallee := feeds_exprLines hindent (level + 1) "qualifier" callee h.1.2
    have hargs := feeds_listLines hindent (level + 2) args h.2
    refine feeds_exprLines_of_tail hindent ?_
    simp only [exprLines, List.cons_append, List.tail_cons, Expr.nodes, List.flatMap_cons, Expr.keys,
      List.nil_append, List.flatMap_append, feedsIn_append, feedsIn_cons, feeds_countLine hindent,
      hlabel, hlist, hcallee, hargs, Nat.zero_add]
  | identifier name line => exact feeds_exprLines_of_tail hindent rfl
  | assign name value declares line =>
    rw [Expr.all, Bool.and_eq_true] at h
    have hvalue := feeds_exprLines hindent (level + 1) "expr" value h.2
    refine feeds_exprLines_of_tail hindent ?_
    rw [exprLines, List.tail_cons, hvalue, hexpr, Nat.zero_add]
    rfl
  | function name params binds body line =>
    rw [Expr.all, Bool.and_eq_true, Expr.bindsOnly, Bool.and_eq_true, List.all_eq_true] at h
    have hlabel : feeds "parameters" = 0 := rfl
    have hbody : feeds "body" = 0 := rfl
    have hparams : ∀ param ∈ params, feeds param = 0 := by
      intro param hparam
      refine feeds_eq_zero_iff.mpr fun hn => ?_
      exact absurd (isNamePart_of_isName (h.1.2 param hparam) _ hn) (by decide)
    have hblock := feeds_blockLines hindent (level + 1) "body" body h.2
    refine feeds_exprLines_of_tail hindent ?_
    rw [exprLines, List.tail_cons, feedsIn_cons, feeds_namesLine hindent _ _ hparams, hlabel, hblock,
      hbody, Nat.zero_add, Nat.zero_add]
    rfl
  | returns value line =>
    rw [Expr.all, Bool.and_eq_true] at h
    have hvalue := feeds_exprLines hindent (level + 1) "expr" value h.2
    refine feeds_exprLines_of_tail hindent ?_
    rw [exprLines, List.tail_cons, hvalue, hexpr, Nat.zero_add]
    rfl
  | choose condition yes no line =>
    simp only [Expr.all, Bool.and_eq_true] at h
    have hlabel : feeds "condition" = 0 := rfl
    have hlabelYes : feeds "true_block" = 0 := rfl
    have hlabelNo : feeds "false_block" = 0 := rfl
    have hcondition := feeds_exprLines hindent (level + 1) "condition" condition h.1.1.2
    have hyes := feeds_blockLines hindent (level + 1) "true_block" yes h.1.2
    have hno := feeds_blockLines hindent (level + 1) "false_block" no h.2
    refine feeds_exprLines_of_tail hindent ?_
    simp only [exprLines, List.cons_append, List.tail_cons, Expr.nodes, List.flatMap_cons, Expr.keys,
      List.nil_append, List.flatMap_append, feedsIn_append, hlabel, hlabelYes, hlabelNo, hcondition,
      hyes, hno, Nat.zero_add]
  | object fields line =>
    rw [Expr.all, Bool.and_eq_true] at h
    have hlabel : feeds "fields" = 0 := rfl
    have hfields := feeds_fieldLines hindent (level + 2) fields h.2
    refine feeds_exprLines_of_tail hindent ?_
    rw [exprLines, List.tail_cons, feedsIn_cons, feeds_countLine hindent, hlabel, hfields, Nat.zero_add,
      Expr.nodes, List.flatMap_cons, feedsIn_append]
    rfl
  | field receiver name line =>
    rw [Expr.all, Bool.and_eq_true] at h
    have hinner := feeds_exprLines hindent (level + 1) "receiver" receiver h.2
    refine feeds_exprLines_of_tail hindent ?_
    rw [exprLines, List.tail_cons, hinner, hreceiver, Nat.zero_add]
    rfl
  | setField receiver name value line =>
    simp only [Expr.all, Bool.and_eq_true] at h
    have hinner := feeds_exprLines hindent (level + 1) "receiver" receiver h.1.2
    have hvalue := feeds_exprLines hindent (level + 1) "expr" value h.2
    refine feeds_exprLines_of_tail hindent ?_
    simp only [exprLines, List.cons_append, List.tail_cons, Expr.nodes, List.flatMap_cons, Expr.keys,
      List.nil_append, List.flatMap_append, feedsIn_append, hexpr, hreceiver, hinner, hvalue,
      Nat.zero_add]
  | method receiver name args line =>
    simp only [Expr.all, Bool.and_eq_true] at h
    have hinner := feeds_exprLines hindent (level + 1) "receiver" receiver h.1.2
    have hargs := feeds_listLines hindent (level + 2) args h.2
    refine feeds_exprLines_of_tail hindent ?_
    simp only [exprLines, List.cons_append, List.tail_cons, Expr.nodes, List.flatMap_cons, Expr.keys,
      List.nil_append, List.flatMap_append, feedsIn_append, feedsIn_cons, feeds_countLine hindent,
      hlist, hreceiver, hinner, hargs, Nat.zero_add]

theorem feeds_blockLines {indent : String} (hindent : feeds indent = 0) (level : Nat) (label : String)
    (body : Block) (h : body.all (Expr.bindsOnly isName) = true) :
    feedsIn (blockLines indent level label body) =
      feeds label + feedsIn (body.nodes.flatMap Expr.keys) := by
  obtain ⟨statements, line⟩ := body
  have hlist : feeds "exprs" = 0 := rfl
  have hhead := feeds_headLine hindent level label .block line
  have hstatements := feeds_listLines hindent (level + 2) statements h
  have hkeys : ((Block.mk statements line).nodes).flatMap Expr.keys =
      (nodesIn statements).flatMap Expr.keys := rfl
  rw [blockLines, feedsIn_cons, feedsIn_cons, feeds_countLine hindent, hlist, hstatements, hkeys,
    Nat.zero_add]
  exact congrArg (· + _) hhead

theorem feeds_listLines {indent : String} (hindent : feeds indent = 0) (level : Nat) (es : List Expr)
    (h : allIn (Expr.bindsOnly isName) es = true) :
    feedsIn (listLines indent level es) = feedsIn ((nodesIn es).flatMap Expr.keys) := by
  cases es with
  | nil => rfl
  | cons e es =>
    rw [allIn, Bool.and_eq_true] at h
    have hlabel : feeds "" = 0 := rfl
    rw [listLines, nodesIn, feedsIn_append, List.flatMap_append, feedsIn_append,
      feeds_exprLines hindent level "" e h.1, hlabel, Nat.zero_add, feeds_listLines hindent level es h.2]

theorem feeds_fieldLines {indent : String} (hindent : feeds indent = 0) (level : Nat)
    (fields : List (String × Expr)) (h : allInFields (Expr.bindsOnly isName) fields = true) :
    feedsIn (fieldLines indent level fields) =
      feedsIn (fields.map Prod.fst) + feedsIn ((nodesInFields fields).flatMap Expr.keys) := by
  cases fields with
  | nil => rfl
  | cons field fields =>
    obtain ⟨name, e⟩ := field
    rw [allInFields, Bool.and_eq_true] at h
    have hfirst := feeds_exprLines hindent level name e h.1
    rw [fieldLines, nodesInFields, feedsIn_append, List.flatMap_append, feedsIn_append, hfirst,
      feeds_fieldLines hindent level fields h.2, List.map_cons, feedsIn_cons, Nat.add_add_add_comm]

end

theorem feedsIn_eq_zero_iff {texts : List String} :
    feedsIn texts = 0 ↔ ∀ s ∈ texts, '\n' ∉ s.toList := by
  induction texts with
  | nil => exact ⟨fun _ => List.forall_mem_nil _, fun _ => rfl⟩
  | cons s texts ih =>
    rw [feedsIn_cons, Nat.add_eq_zero_iff, ih, feeds_eq_zero_iff, List.forall_mem_cons]

end Dump

/-! ### Scripts -/

namespace Parsing

open Dump

/-- The line feeds within the lines of a script that was read are those of its keys. -/
theorem feeds_scriptLines {source : String} {script : Script} (h : parse source = .ok script) :
    feedsIn (scriptLines standardIndent script) = feedsIn script.keys := by
  have hnames : script.body.all (Expr.bindsOnly isName) = true :=
    script.body.all_bindsOnly (fits_of_parse h)
  have htitle : feeds "Script" = 0 := rfl
  have hlabel : feeds "" = 0 := rfl
  rw [scriptLines, feedsIn_cons, htitle, feeds_blockLines rfl 1 "" _ hnames, hlabel, Nat.zero_add,
    Nat.zero_add]
  rfl

/-- **How many lines the dump of a script has**: one for the script, one for every construct and one for
every list in it, and one more for every line feed in a key of an object. So there is one line for each of
them just where no key breaks its line. -/
theorem count_newline_dump {source : String} {script : Script} (h : parse source = .ok script) :
    (script.dump standardIndent).toList.count '\n' =
        1 + script.body.nodes.length + script.body.nodes.countP Expr.holdsList +
          feedsIn script.keys ∧
      ((script.dump standardIndent).toList.count '\n' =
          1 + script.body.nodes.length + script.body.nodes.countP Expr.holdsList ↔
        ∀ key ∈ script.keys, '\n' ∉ key.toList) := by
  have hcount : feeds (script.dump standardIndent) =
      1 + script.body.nodes.length + script.body.nodes.countP Expr.holdsList +
        feedsIn script.keys := by
    rw [Script.dump, feeds_text, feeds_scriptLines h, scriptLines, List.length_cons, length_blockLines]
    omega
  refine ⟨hcount, ?_⟩
  rw [← feedsIn_eq_zero_iff]
  show feeds _ = _ ↔ _
  omega

/-- A line feed in a string breaks no line. -/
theorem count_newline_dump_string :
    ∃ script, parse "\x7b\"k\":\"a\\nb\"\x7d;" = .ok script ∧
      (script.dump standardIndent).toList.count '\n' =
          1 + script.body.nodes.length + script.body.nodes.countP Expr.holdsList +
            feedsIn script.keys ∧
        ((script.dump standardIndent).toList.count '\n' =
            1 + script.body.nodes.length + script.body.nodes.countP Expr.holdsList ↔
          ∀ key ∈ script.keys, '\n' ∉ key.toList) := by
  let script : Script := ⟨⟨[.object [("k", .literal (.str "a\nb") 1)] 1], 1⟩⟩
  have htext : script.text = "\x7b\"k\":\"a\\nb\"\x7d;" := by decide
  have hparse : parse "\x7b\"k\":\"a\\nb\"\x7d;" = .ok (script.onLine 1) :=
    htext ▸ parse_text (by decide)
  exact ⟨_, hparse, count_newline_dump hparse⟩

/-- A line feed in a key breaks the line of its value. -/
theorem count_newline_dump_key :
    ∃ script, parse "\x7b\"a\\nb\":1\x7d;" = .ok script ∧
      (script.dump standardIndent).toList.count '\n' ≠
        1 + script.body.nodes.length + script.body.nodes.countP Expr.holdsList := by
  let script : Script := ⟨⟨[.object [("a\nb", .literal (.int 1) 1)] 1], 1⟩⟩
  have htext : script.text = "\x7b\"a\\nb\":1\x7d;" := by decide
  have hparse : parse "\x7b\"a\\nb\":1\x7d;" = .ok (script.onLine 1) :=
    htext ▸ parse_text (by decide)
  exact ⟨_, hparse, by decide +kernel⟩

end Parsing

end Scriptlet
