import Scriptlet.Proofs.Parsing.Wording
import Scriptlet.Proofs.Script.DumpLines

/-!
# Dumps read back

A dump tells all of a script that is read, line numbers included, unless a key breaks a line. Labels are the
difficulty: keys of objects are written down as they are, and whatever a line can show can also be part
of a key. So a line is read from the back. Its number comes after the last `@`. Before it, the last
character tells whether the heading ends with a quoted text, which is found from the back, with digits
or with a word, and no heading has a colon before a quoted text, so the last one belongs to the label. Which
lines follow is then known from the heading, and how many items a list has from the line that announces it.

## What is proved

* `headLine_inj`: a head line tells label, heading and line number.
* `tells_of_all`: lines that begin with those of a construct tell the construct.
* `eq_of_text_eq`: a text tells its lines, if none of them is broken.
* `eq_of_dump_eq`: scripts with the same dump are equal.
-/

namespace Scriptlet

open Lexical

namespace Dump

/-! ### Texts cut at their last parts -/

section Cut

variable {α : Type} {front front' back back' : List α} {m : α}

/-- A text is cut at the last occurrence of a character in one way. -/
theorem eq_of_append_cons (hback : m ∉ back) (hback' : m ∉ back')
    (h : front ++ m :: back = front' ++ m :: back') : front = front' ∧ back = back' := by
  rcases List.append_eq_append_iff.mp h with ⟨between, hfront, hrest⟩ | ⟨between, hfront, hrest⟩
  · cases between with
    | nil => exact ⟨by rw [hfront, List.append_nil], (List.cons.inj hrest).2⟩
    | cons c between =>
      refine absurd ?_ hback
      rw [(List.cons.inj hrest).2]
      exact List.mem_append_right _ List.mem_cons_self
  · cases between with
    | nil => exact ⟨by rw [hfront, List.append_nil], (List.cons.inj hrest).2.symm⟩
    | cons c between =>
      refine absurd ?_ hback'
      rw [(List.cons.inj hrest).2]
      exact List.mem_append_right _ List.mem_cons_self

/-- Endings none of which ends another are told apart at the end of a text. -/
theorem eq_of_append_mem {endings : List (List α)}
    (hendings : ∀ a ∈ endings, ∀ b ∈ endings, a <:+ b → a = b) (hback : back ∈ endings)
    (hback' : back' ∈ endings) (h : front ++ back = front' ++ back') :
    front = front' ∧ back = back' := by
  have hsame : back = back' := by
    rcases List.append_eq_append_iff.mp h with ⟨between, -, hrest⟩ | ⟨between, -, hrest⟩
    · exact (hendings _ hback' _ hback ⟨between, hrest.symm⟩).symm
    · exact hendings _ hback _ hback' ⟨between, hrest.symm⟩
  subst hsame
  exact ⟨List.append_cancel_right h, rfl⟩

end Cut

/-! ### Labels -/

/-- What a label adds to a line. -/
def tag (label : String) : List Char := if label = "" then [] else label.toList ++ [':', ' ']

theorem toList_margin (indent : String) (level : Nat) (label : String) :
    (margin indent level label).toList =
      (String.join (List.replicate level indent)).toList ++ tag label := by
  rw [margin, String.toList_append, tag]
  split
  next => rfl
  next => rw [String.toList_append]; rfl

/-- A label ends before what has no colon. -/
theorem eq_of_tag_append {label label' : String} {cs cs' : List Char} (hcs : ':' ∉ cs)
    (hcs' : ':' ∉ cs') (h : tag label ++ cs = tag label' ++ cs') : label = label' ∧ cs = cs' := by
  have hnone : ∀ {label cs cs'}, ':' ∉ cs → ¬[] ++ cs = (label ++ [':', ' ']) ++ cs' := by
    intro label cs cs' hcs h
    rw [List.nil_append, List.append_assoc] at h
    refine hcs (h ▸ List.mem_append_right _ List.mem_cons_self)
  rw [tag, tag] at h
  split at h
  next hl =>
    split at h
    next hl' => exact ⟨hl.trans hl'.symm, h⟩
    next => exact absurd h (hnone hcs)
  next =>
    split at h
    next => exact absurd h.symm (hnone hcs')
    next =>
      rw [List.append_assoc, List.append_assoc] at h
      have hspace : ∀ {cs : List Char}, ':' ∉ cs → ':' ∉ ' ' :: cs := by
        intro cs hcs
        exact List.mem_cons.not.mpr (not_or.mpr ⟨by decide, hcs⟩)
      obtain ⟨hlabel, hrest⟩ := eq_of_append_cons (hspace hcs) (hspace hcs') h
      exact ⟨String.toList_inj.mp hlabel, (List.cons.inj hrest).2⟩

/-! ### Forms of headings -/

/-- How the text of a heading is made up. -/
inductive Form where
  /-- Words alone. -/
  | words (text : String)
  /-- A number after the words of a literal. -/
  | number (n : Int)
  /-- A quoted text between words. -/
  | named (stem s suffix : String)

namespace Form

/-- The text of a heading of the form. -/
def text : Form → String
  | words text => text
  | number n => "Literal value=" ++ toString n
  | named stem s suffix => stem ++ "=" ++ Text.quote s ++ suffix

/-- What can follow a quoted text in a heading. -/
def suffixes : List String :=
  ["", " declaration=True", " declaration=False", " toplevel=True", " toplevel=False"]

/-- What a heading is made up of, told by its last character: words, a number or a quoted text and what
follows it. -/
def sortOf : Option Char → Option (Fin 3)
  | none => none
  | some c =>
    if c.isDigit then some 1 else if ['\'', '"', 'e'].contains c then some 2 else some 0

/-- The form of the same kind. -/
def sort : Form → Fin 3
  | words _ => 0
  | number _ => 1
  | named _ _ _ => 2

/-- The words are some that headings are made of. -/
def isProper : Form → Bool
  | words text => !text.toList.contains ':' && sortOf text.toList.getLast? == some 0
  | number _ => true
  | named stem _ suffix => !stem.toList.contains ':' && suffixes.contains suffix

end Form

/-- The form of a heading. -/
def Heading.form : Heading → Form
  | block => .words "Block"
  | literal .undefined => .words "Literal value=undefined"
  | literal (.int n) => .number n
  | literal (.str s) => .named "Literal value" s ""
  | call => .words "Call"
  | identifier name => .named "Identifier name" name ""
  | assign name declares => .named "VarAssignment name" name (" declaration=" ++ flag declares)
  | function name binds => .named "Fun name" name (" toplevel=" ++ flag binds)
  | returns => .words "Return"
  | choose => .words "If"
  | object => .words "ObjectLiteral"
  | field name => .named "FieldAccess name" name ""
  | setField name => .named "FieldAssignment name" name ""
  | method name => .named "MethodCall name" name ""

theorem text_named (stem s : String) : (Form.named stem s "").text = stem ++ "=" ++ Text.quote s :=
  String.append_empty

/-- A heading is written down in its form. -/
theorem Heading.text_form (h : Heading) : h.form.text = h.text := by
  cases h with
  | literal value =>
    cases value with
    | undefined => rfl
    | int n => rfl
    | str s => exact text_named ..
  | identifier name => exact text_named ..
  | field name => exact text_named ..
  | setField name => exact text_named ..
  | method name => exact text_named ..
  | assign name declares => exact String.append_assoc.symm
  | function name binds => exact String.append_assoc.symm
  | _ => rfl

theorem Heading.isProper_form (h : Heading) : h.form.isProper = true := by
  cases h with
  | literal value => cases value <;> rfl
  | assign name declares => cases declares <;> rfl
  | function name binds => cases binds <;> rfl
  | _ => rfl

/-- The heading that has the form. -/
def Form.heading : Form → Heading
  | words text =>
    if text = "Block" then .block else if text = "Call" then .call
    else if text = "Return" then .returns else if text = "If" then .choose
    else if text = "ObjectLiteral" then .object else .literal .undefined
  | number n => .literal (.int n)
  | named stem s suffix =>
    if stem = "Literal value" then .literal (.str s)
    else if stem = "Identifier name" then .identifier s
    else if stem = "FieldAccess name" then .field s
    else if stem = "FieldAssignment name" then .setField s
    else if stem = "MethodCall name" then .method s
    else if stem = "VarAssignment name" then .assign s (suffix == " declaration=True")
    else .function s (suffix == " toplevel=True")

theorem Heading.heading_form (h : Heading) : h.form.heading = h := by
  cases h with
  | literal value => cases value <;> rfl
  | assign name declares => cases declares <;> rfl
  | function name binds => cases binds <;> rfl
  | _ => rfl

/-! ### Headings at the end of a line -/

theorem toDigits_injective {n n' : Nat} (h : Nat.toDigits 10 n = Nat.toDigits 10 n') : n = n' := by
  rw [← Grammar.decimal_toDigits n, h, Grammar.decimal_toDigits]

theorem minus_notMem_toDigits (n : Nat) : '-' ∉ Nat.toDigits 10 n := fun h =>
  absurd (isDigit_of_mem_toDigits h) (by decide)

/-- Different numbers are written down differently. -/
theorem toString_injective {n n' : Int} (h : (toString n).toList = (toString n').toList) :
    n = n' := by
  cases n with
  | ofNat n =>
    have hn : (toString (Int.ofNat n)).toList = Nat.toDigits 10 n := toList_toString_nat n
    cases n' with
    | ofNat n' =>
      exact congrArg Int.ofNat (toDigits_injective (hn.symm.trans (h.trans (toList_toString_nat n'))))
    | negSucc n' =>
      rw [hn, toList_toString_negSucc] at h
      exact absurd (h ▸ List.mem_cons_self) (minus_notMem_toDigits n)
  | negSucc n =>
    cases n' with
    | ofNat n' =>
      have hn' : (toString (Int.ofNat n')).toList = Nat.toDigits 10 n' := toList_toString_nat n'
      rw [hn', toList_toString_negSucc] at h
      exact absurd (h ▸ List.mem_cons_self) (minus_notMem_toDigits n')
    | negSucc n' =>
      rw [toList_toString_negSucc, toList_toString_negSucc] at h
      exact congrArg Int.negSucc (Nat.succ.inj (toDigits_injective (List.cons.inj h).2))

theorem sortOf_toString (n : Int) : Form.sortOf (toString n).toList.getLast? = some 1 := by
  have hdigits : ∀ n, Form.sortOf (Nat.toDigits 10 n).getLast? = some 1 := by
    intro n
    rw [List.getLast?_eq_some_getLast Nat.toDigits_ne_nil, Form.sortOf]
    exact if_pos (isDigit_of_mem_toDigits (List.getLast_mem _))
  cases n with
  | ofNat n => exact (toList_toString_nat n).symm ▸ hdigits n
  | negSucc n =>
    rw [toList_toString_negSucc, ← List.singleton_append,
      List.getLast?_append_of_ne_nil _ Nat.toDigits_ne_nil, hdigits]

theorem Form.sortOf_suffix : ∀ suffix ∈ suffixes,
    suffix.toList = [] ∨ suffix.toList ≠ [] ∧ sortOf suffix.toList.getLast? = some 2 := by
  decide

/-- What stands in a quoted text before the quote that closes it, and this quote. -/
theorem toList_quote (s : String) :
    (Text.quote s).toList =
      (Text.quoteMark s.toList :: s.toList.flatMap (Text.quoteChar (Text.quoteMark s.toList))) ++
        [Text.quoteMark s.toList] :=
  String.toList_ofList

/-- A form ends with a character of its sort, whatever it stands behind. -/
theorem Form.sortOf_text {f : Form} (hf : f.isProper = true) (front : List Char) :
    sortOf (front ++ f.text.toList).getLast? = some f.sort := by
  cases f with
  | words text =>
    rw [isProper, Bool.and_eq_true, beq_iff_eq] at hf
    have hne : text.toList ≠ [] := by
      intro h
      cases h ▸ hf.2
    rw [Form.text, List.getLast?_append_of_ne_nil _ hne, hf.2]
    rfl
  | number n =>
    have hne : (toString n).toList ≠ [] := by
      intro h
      cases h ▸ sortOf_toString n
    rw [text, String.toList_append, ← List.append_assoc, List.getLast?_append_of_ne_nil _ hne,
      sortOf_toString]
    rfl
  | named stem s suffix =>
    rw [isProper, Bool.and_eq_true, List.contains_iff_mem] at hf
    rw [text, String.toList_append, String.toList_append, toList_quote]
    rcases sortOf_suffix suffix hf.2 with h | ⟨hne, hsort⟩
    · rw [h, List.append_nil, ← List.append_assoc, ← List.append_assoc, List.getLast?_concat]
      rcases Text.quoteMark_eq s.toList with hmark | hmark <;> rw [hmark] <;> rfl
    · rw [← List.append_assoc, List.getLast?_append_of_ne_nil _ hne, hsort]
      rfl

/-- What can stand at the end of a heading from its last quote on. -/
def endings : List (List Char) :=
  ['\'', '"'].flatMap fun mark => Form.suffixes.map fun suffix => mark :: suffix.toList

theorem endings_suffixFree : ∀ a ∈ endings, ∀ b ∈ endings, a <:+ b → a = b := by decide

theorem mem_endings (s : List Char) {suffix : String} (h : suffix ∈ Form.suffixes) :
    Text.quoteMark s :: suffix.toList ∈ endings := by
  refine List.mem_flatMap.mpr ⟨Text.quoteMark s, ?_, List.mem_map_of_mem h⟩
  rcases Text.quoteMark_eq s with hmark | hmark <;> rw [hmark] <;> decide

theorem toList_named (front : List Char) (stem s suffix : String) :
    front ++ (Form.named stem s suffix).text.toList =
      ((front ++ stem.toList) ++ '=' :: Text.quoteMark s.toList ::
          s.toList.flatMap (Text.quoteChar (Text.quoteMark s.toList))) ++
        Text.quoteMark s.toList :: suffix.toList := by
  rw [Form.text, String.toList_append, String.toList_append, String.toList_append, toList_quote]
  show front ++ ((stem.toList ++ ['=']) ++ _ ++ _) = _
  simp only [List.append_assoc, List.cons_append, List.nil_append]

/-- A heading is found at the end of a line, whatever the label is that it stands behind. -/
theorem Form.eq_of_tag_append {label label' : String} {f f' : Form} (hf : f.isProper = true)
    (hf' : f'.isProper = true) (h : tag label ++ f.text.toList = tag label' ++ f'.text.toList) :
    label = label' ∧ f = f' := by
  have hsort : f.sort = f'.sort := by
    have hends := sortOf_text hf (tag label)
    rw [h, sortOf_text hf'] at hends
    exact (Option.some.inj hends).symm
  cases f with
  | words text =>
    cases f' with
    | words text' =>
      rw [isProper, Bool.and_eq_true, Bool.not_eq_true', List.contains_eq_mem,
        decide_eq_false_iff_not] at hf hf'
      obtain ⟨hlabel, htext⟩ := Dump.eq_of_tag_append hf.1 hf'.1 h
      exact ⟨hlabel, congrArg words (String.toList_inj.mp htext)⟩
    | _ => cases hsort
  | number n =>
    cases f' with
    | number n' =>
      have hcolon : ∀ n : Int, ':' ∉ (number n).text.toList := by
        intro n hn
        rw [text, String.toList_append] at hn
        rcases List.mem_append.mp hn with hn | hn
        · exact absurd hn (by decide)
        · rcases isDigit_or_of_mem_toString hn with hn | hn
          · exact absurd hn (by decide)
          · exact absurd hn (by decide)
      obtain ⟨hlabel, htext⟩ := Dump.eq_of_tag_append (hcolon n) (hcolon n') h
      rw [text, text, String.toList_append, String.toList_append] at htext
      exact ⟨hlabel, congrArg number (toString_injective (List.append_cancel_left htext))⟩
    | _ => cases hsort
  | named stem s suffix =>
    cases f' with
    | named stem' s' suffix' =>
      rw [isProper, Bool.and_eq_true, Bool.not_eq_true', List.contains_eq_mem,
        decide_eq_false_iff_not, List.contains_iff_mem] at hf hf'
      rw [toList_named, toList_named] at h
      obtain ⟨hfront, hend⟩ := eq_of_append_mem endings_suffixFree (mem_endings s.toList hf.2)
        (mem_endings s'.toList hf'.2) h
      obtain ⟨hmark, hsuffix⟩ := List.cons.inj hend
      have hquoted : tag label ++ stem.toList ++ '=' :: Text.quoteList s.toList =
          tag label' ++ stem'.toList ++ '=' :: Text.quoteList s'.toList := by
        rw [Text.append_quoteList, Text.append_quoteList, hfront, hmark]
      obtain ⟨hstem, hs⟩ := Text.eq_of_append_quoteList hquoted
      obtain ⟨hlabel, hstem⟩ := Dump.eq_of_tag_append hf.1 hf'.1 hstem
      rw [String.toList_inj] at hstem hs hsuffix
      exact ⟨hlabel, by rw [hstem, hs, hsuffix]⟩
    | _ => cases hsort

/-! ### Lines -/

section Lines

variable {indent label label' : String} {level : Nat}

theorem toList_headLine (label : String) (h : Heading) (line : Int) :
    (headLine indent level label h.text line).toList =
      (String.join (List.replicate level indent)).toList ++
        ((tag label ++ h.form.text.toList ++ [' ']) ++ '@' :: (toString line).toList) := by
  rw [headLine, String.toList_append, String.toList_append, String.toList_append, toList_margin,
    h.text_form]
  show _ ++ tag label ++ h.text.toList ++ [' ', '@'] ++ _ = _
  simp only [List.append_assoc, List.cons_append, List.nil_append]

/-- **A head line tells its label, its heading and its line number.** -/
theorem headLine_inj {h h' : Heading} {line line' : Int}
    (heq : headLine indent level label h.text line = headLine indent level label' h'.text line') :
    label = label' ∧ h = h' ∧ line = line' := by
  have hat : ∀ n : Int, '@' ∉ (toString n).toList := by
    intro n hn
    rcases isDigit_or_of_mem_toString hn with hn | hn
    · exact absurd hn (by decide)
    · exact absurd hn (by decide)
  have hlists := congrArg String.toList heq
  rw [toList_headLine, toList_headLine] at hlists
  obtain ⟨hfront, hline⟩ := eq_of_append_cons (hat line) (hat line') (List.append_cancel_left hlists)
  obtain ⟨hlabel, hform⟩ := Form.eq_of_tag_append h.isProper_form h'.isProper_form
    (List.append_cancel_right hfront)
  refine ⟨hlabel, ?_, toString_injective hline⟩
  rw [← h.heading_form, hform, h'.heading_form]

/-- How many items follow, as the line that announces a list says it. -/
def countText (n : Nat) : List Char :=
  if n = 0 then ['(', ')'] else '[' :: (Nat.toDigits 10 n ++ [']'])

theorem toList_countLine (n : Nat) :
    (countLine indent level label n).toList = (margin indent level label).toList ++ countText n := by
  rw [countLine, countText]
  split
  next =>
    rw [namesLine, String.toList_append, String.toList_append, String.toList_append,
      String.intercalate_nil, List.append_assoc, List.append_assoc]
    rfl
  next =>
    rw [String.toList_append, String.toList_append, String.toList_append, toList_toString_nat,
      List.append_assoc, List.append_assoc]
    rfl

/-- The line that announces a list tells how many items follow. -/
theorem countLine_inj {n n' : Nat}
    (heq : countLine indent level label n = countLine indent level label n') : n = n' := by
  have hlists := congrArg String.toList heq
  rw [toList_countLine, toList_countLine] at hlists
  have htexts := List.append_cancel_left hlists
  rw [countText, countText] at htexts
  split at htexts
  next hn =>
    split at htexts
    next hn' => rw [hn, hn']
    next => exact absurd (List.cons.inj htexts).1 (by decide)
  next =>
    split at htexts
    next => exact absurd (List.cons.inj htexts).1 (by decide)
    next => exact toDigits_injective (List.append_cancel_right (List.cons.inj htexts).2)

/-- Names after the first, each after a comma. -/
def moreText (names : List String) : List Char :=
  names.flatMap fun name => ',' :: ' ' :: name.toList

theorem toList_intercalate_cons (name : String) (names : List String) :
    (String.intercalate ", " (name :: names)).toList = name.toList ++ moreText names := by
  induction names generalizing name with
  | nil => rw [String.intercalate_singleton]; exact (List.append_nil _).symm
  | cons next names ih =>
    rw [String.intercalate_cons_cons, String.toList_append, String.toList_append, ih, List.append_assoc]
    rfl

/-- A name ends where a comma follows, or nothing does. -/
theorem eq_of_append_moreText {cs cs' : List Char} {names names' : List String} (hcs : ',' ∉ cs)
    (hcs' : ',' ∉ cs') (h : cs ++ moreText names = cs' ++ moreText names') :
    cs = cs' ∧ moreText names = moreText names' := by
  have htake : ∀ {cs : List Char} {names}, ',' ∉ cs →
      (cs ++ moreText names).takeWhile (· != ',') = cs := by
    intro cs names hcs
    rw [List.takeWhile_append_of_pos fun c hc => bne_iff_ne.mpr (ne_of_mem_of_not_mem hc hcs)]
    cases names <;> exact List.append_nil _
  have hsame : cs = cs' := by rw [← htake hcs, h, htake hcs']
  subst hsame
  exact ⟨rfl, List.append_cancel_left h⟩

theorem moreText_injective {names names' : List String} (h : ∀ name ∈ names, ',' ∉ name.toList)
    (h' : ∀ name ∈ names', ',' ∉ name.toList) (heq : moreText names = moreText names') :
    names = names' := by
  induction names generalizing names' with
  | nil =>
    cases names' with
    | nil => rfl
    | cons name' names' => cases heq
  | cons name names ih =>
    cases names' with
    | nil => cases heq
    | cons name' names' =>
      obtain ⟨hname, hnames⟩ := List.forall_mem_cons.mp h
      obtain ⟨hname', hnames'⟩ := List.forall_mem_cons.mp h'
      obtain ⟨hsame, hmore⟩ := eq_of_append_moreText hname hname'
        (List.cons.inj (List.cons.inj heq).2).2
      rw [String.toList_inj.mp hsame, ih hnames hnames' hmore]

/-- The line of a list of names tells the names. -/
theorem namesLine_inj {names names' : List String} (h : ∀ name ∈ names, isName name = true)
    (h' : ∀ name ∈ names', isName name = true)
    (heq : namesLine indent level label names = namesLine indent level label names') :
    names = names' := by
  have hcomma : ∀ {name}, isName name = true → ',' ∉ name.toList := by
    intro name hname hmem
    exact absurd (isNamePart_of_isName hname _ hmem) (by decide)
  have hnonempty : ∀ {name names}, isName name = true →
      (String.intercalate ", " (name :: names)).toList ≠ [] := by
    intro name names hname hnil
    rw [toList_intercalate_cons, List.append_eq_nil_iff, String.toList_eq_nil_iff] at hnil
    cases hnil.1 ▸ hname
  have hlists := congrArg String.toList heq
  simp only [namesLine, String.toList_append, List.append_assoc] at hlists
  have hnames := List.append_cancel_right (List.append_cancel_left (List.append_cancel_left hlists))
  cases names with
  | nil =>
    cases names' with
    | nil => rfl
    | cons name' names' => exact absurd hnames.symm (hnonempty (h' _ List.mem_cons_self))
  | cons name names =>
    cases names' with
    | nil => exact absurd hnames (hnonempty (h _ List.mem_cons_self))
    | cons name' names' =>
      rw [toList_intercalate_cons, toList_intercalate_cons] at hnames
      obtain ⟨hname, hmore⟩ := eq_of_append_moreText (hcomma (h _ List.mem_cons_self))
        (hcomma (h' _ List.mem_cons_self)) hnames
      rw [String.toList_inj.mp hname, moreText_injective (fun n hn => hcomma (h n (.tail _ hn)))
        (fun n hn => hcomma (h' n (.tail _ hn))) hmore]

end Lines

/-! ### Constructs -/

section Constructs

variable {indent : String}

/-- Lines that begin with those of a construct tell what is on its head line, and what follows there. -/
theorem exprLines_inj_head {e e' : Expr} {level : Nat} {label label' : String}
    {rest rest' : List String}
    (heq : exprLines indent level label e ++ rest = exprLines indent level label' e' ++ rest') :
    label = label' ∧ Heading.of e = Heading.of e' ∧ e.line = e'.line ∧
      (exprLines indent level label e).tail ++ rest =
        (exprLines indent level label' e').tail ++ rest' := by
  have hhead := exprLines_eq_cons indent level label e
  have hhead' := exprLines_eq_cons indent level label' e'
  generalize exprLines indent level label e = lines at heq hhead ⊢
  generalize exprLines indent level label' e' = lines' at heq hhead' ⊢
  cases lines with
  | nil => cases hhead
  | cons head inner =>
    cases lines' with
    | nil => cases hhead'
    | cons head' inner' =>
      obtain ⟨rfl, htail⟩ := List.cons.inj heq
      obtain ⟨hlabel, hheading, hline⟩ :=
        headLine_inj ((List.cons.inj hhead).1.symm.trans (List.cons.inj hhead').1)
      exact ⟨hlabel, hheading, hline, htail⟩

/-- Lines that begin with those of the construct tell the construct, its label and what follows. -/
def Tells (indent : String) (e : Expr) : Prop :=
  ∀ {e' : Expr}, e'.all (Expr.bindsOnly isName) = true →
    ∀ {level : Nat} {label label' : String} {rest rest' : List String},
      exprLines indent level label e ++ rest = exprLines indent level label' e' ++ rest' →
        label = label' ∧ e = e' ∧ rest = rest'

/-- Lines that begin with those of the block tell the block, its label and what follows. -/
def TellsBlock (indent : String) (body : Block) : Prop :=
  ∀ {body' : Block}, body'.all (Expr.bindsOnly isName) = true →
    ∀ {level : Nat} {label label' : String} {rest rest' : List String},
      blockLines indent level label body ++ rest = blockLines indent level label' body' ++ rest' →
        label = label' ∧ body = body' ∧ rest = rest'

/-- The lines of a list tell the list, if they tell how long it is. -/
theorem listLines_inj {es es' : List Expr} (h : ∀ e ∈ es, Tells indent e)
    (h' : allIn (Expr.bindsOnly isName) es' = true) (hlength : es.length = es'.length) {level : Nat}
    {rest rest' : List String}
    (heq : listLines indent level es ++ rest = listLines indent level es' ++ rest') :
    es = es' ∧ rest = rest' := by
  induction es generalizing es' with
  | nil =>
    cases es' with
    | nil => exact ⟨rfl, heq⟩
    | cons e' es' => cases hlength
  | cons e es ih =>
    cases es' with
    | nil => cases hlength
    | cons e' es' =>
      obtain ⟨he, hes⟩ := List.forall_mem_cons.mp h
      rw [allIn, Bool.and_eq_true] at h'
      rw [listLines, listLines, List.append_assoc, List.append_assoc] at heq
      obtain ⟨-, rfl, htail⟩ := he h'.1 heq
      obtain ⟨rfl, hrest⟩ := ih hes h'.2 (Nat.succ.inj hlength) htail
      exact ⟨rfl, hrest⟩

theorem fieldLines_inj {fields fields' : List (String × Expr)}
    (h : ∀ field ∈ fields, Tells indent field.2)
    (h' : allInFields (Expr.bindsOnly isName) fields' = true)
    (hlength : fields.length = fields'.length) {level : Nat} {rest rest' : List String}
    (heq : fieldLines indent level fields ++ rest = fieldLines indent level fields' ++ rest') :
    fields = fields' ∧ rest = rest' := by
  induction fields generalizing fields' with
  | nil =>
    cases fields' with
    | nil => exact ⟨rfl, heq⟩
    | cons field' fields' => cases hlength
  | cons field fields ih =>
    cases fields' with
    | nil => cases hlength
    | cons field' fields' =>
      obtain ⟨name, e⟩ := field
      obtain ⟨name', e'⟩ := field'
      obtain ⟨he, hfields⟩ := List.forall_mem_cons.mp h
      rw [allInFields, Bool.and_eq_true] at h'
      rw [fieldLines, fieldLines, List.append_assoc, List.append_assoc] at heq
      obtain ⟨rfl, rfl, htail⟩ := he h'.1 heq
      obtain ⟨rfl, hrest⟩ := ih hfields h'.2 (Nat.succ.inj hlength) htail
      exact ⟨rfl, hrest⟩

/-- Lines that announce a list and show its items tell the list. -/
theorem countLine_listLines_inj {es es' : List Expr} (h : ∀ e ∈ es, Tells indent e)
    (h' : allIn (Expr.bindsOnly isName) es' = true) {level level' : Nat} {label : String}
    {rest rest' : List String}
    (heq : countLine indent level label es.length :: (listLines indent level' es ++ rest) =
      countLine indent level label es'.length :: (listLines indent level' es' ++ rest')) :
    es = es' ∧ rest = rest' := by
  obtain ⟨hcount, htail⟩ := List.cons.inj heq
  exact listLines_inj h h' (countLine_inj hcount) htail

theorem tellsBlock {statements : List Expr} (h : ∀ e ∈ statements, Tells indent e) (line : Int) :
    TellsBlock indent ⟨statements, line⟩ := by
  intro body' h' level label label' rest rest' heq
  obtain ⟨statements', line'⟩ := body'
  obtain ⟨hhead, htail⟩ := List.cons.inj heq
  have hheads : headLine indent level label Heading.block.text line =
      headLine indent level label' Heading.block.text line' := hhead
  obtain ⟨hlabel, -, rfl⟩ := headLine_inj hheads
  obtain ⟨rfl, hrest⟩ := countLine_listLines_inj h h' htail
  exact ⟨hlabel, rfl, hrest⟩

theorem tells_block {body : Block} (h : TellsBlock indent body) : Tells indent (.block body) := by
  intro e' h' level label label' rest rest' heq
  obtain ⟨-, hheading, -, -⟩ := exprLines_inj_head heq
  cases e' with
  | block body' =>
    obtain ⟨hlabel, rfl, hrest⟩ := h (Expr.all_block.mp h').2 heq
    exact ⟨hlabel, rfl, hrest⟩
  | _ => cases hheading

theorem tells_literal (value : Literal) (line : Int) : Tells indent (.literal value line) := by
  intro e' h' level label label' rest rest' heq
  obtain ⟨hlabel, hheading, hline, htail⟩ := exprLines_inj_head heq
  cases e' with
  | literal value' line' =>
    cases hheading
    cases hline
    exact ⟨hlabel, rfl, htail⟩
  | _ => cases hheading

theorem tells_call {callee : Expr} {args : List Expr} (hcallee : Tells indent callee)
    (hargs : ∀ e ∈ args, Tells indent e) (line : Int) : Tells indent (.call callee args line) := by
  intro e' h' level label label' rest rest' heq
  obtain ⟨hlabel, hheading, hline, htail⟩ := exprLines_inj_head heq
  cases e' with
  | call callee' args' line' =>
    cases hline
    simp only [Expr.all, Bool.and_eq_true] at h'
    simp only [exprLines, List.cons_append, List.tail_cons, List.append_assoc] at htail
    obtain ⟨-, rfl, hmore⟩ := hcallee h'.1.2 htail
    obtain ⟨rfl, hrest⟩ := countLine_listLines_inj hargs h'.2 hmore
    exact ⟨hlabel, rfl, hrest⟩
  | _ => cases hheading

theorem tells_identifier (name : String) (line : Int) : Tells indent (.identifier name line) := by
  intro e' h' level label label' rest rest' heq
  obtain ⟨hlabel, hheading, hline, htail⟩ := exprLines_inj_head heq
  cases e' with
  | identifier name' line' =>
    cases hheading
    cases hline
    exact ⟨hlabel, rfl, htail⟩
  | _ => cases hheading

theorem tells_assign {value : Expr} (hvalue : Tells indent value) (name : String) (declares : Bool)
    (line : Int) : Tells indent (.assign name value declares line) := by
  intro e' h' level label label' rest rest' heq
  obtain ⟨hlabel, hheading, hline, htail⟩ := exprLines_inj_head heq
  cases e' with
  | assign name' value' declares' line' =>
    cases hheading
    cases hline
    rw [Expr.all, Bool.and_eq_true] at h'
    simp only [exprLines, List.tail_cons] at htail
    obtain ⟨-, rfl, hrest⟩ := hvalue h'.2 htail
    exact ⟨hlabel, rfl, hrest⟩
  | _ => cases hheading

theorem tells_function {params : List String} {body : Block} (hbody : TellsBlock indent body)
    (hparams : ∀ param ∈ params, isName param = true) (name : String) (binds : Bool) (line : Int) :
    Tells indent (.function name params binds body line) := by
  intro e' h' level label label' rest rest' heq
  obtain ⟨hlabel, hheading, hline, htail⟩ := exprLines_inj_head heq
  cases e' with
  | function name' params' binds' body' line' =>
    cases hheading
    cases hline
    simp only [Expr.all, Expr.bindsOnly, Bool.and_eq_true, List.all_eq_true] at h'
    simp only [exprLines, List.cons_append, List.tail_cons] at htail
    obtain ⟨hnames, hmore⟩ := List.cons.inj htail
    have hsame := namesLine_inj hparams h'.1.2 hnames
    obtain ⟨-, rfl, hrest⟩ := hbody h'.2 hmore
    exact ⟨hlabel, by rw [hsame], hrest⟩
  | _ => cases hheading

theorem tells_returns {value : Expr} (hvalue : Tells indent value) (line : Int) :
    Tells indent (.returns value line) := by
  intro e' h' level label label' rest rest' heq
  obtain ⟨hlabel, hheading, hline, htail⟩ := exprLines_inj_head heq
  cases e' with
  | returns value' line' =>
    cases hline
    rw [Expr.all, Bool.and_eq_true] at h'
    simp only [exprLines, List.tail_cons] at htail
    obtain ⟨-, rfl, hrest⟩ := hvalue h'.2 htail
    exact ⟨hlabel, rfl, hrest⟩
  | _ => cases hheading

theorem tells_choose {condition : Expr} {yes no : Block} (hcondition : Tells indent condition)
    (hyes : TellsBlock indent yes) (hno : TellsBlock indent no) (line : Int) :
    Tells indent (.choose condition yes no line) := by
  intro e' h' level label label' rest rest' heq
  obtain ⟨hlabel, hheading, hline, htail⟩ := exprLines_inj_head heq
  cases e' with
  | choose condition' yes' no' line' =>
    cases hline
    simp only [Expr.all, Bool.and_eq_true] at h'
    simp only [exprLines, List.cons_append, List.tail_cons, List.append_assoc] at htail
    obtain ⟨-, rfl, hbranches⟩ := hcondition h'.1.1.2 htail
    obtain ⟨-, rfl, hmore⟩ := hyes h'.1.2 hbranches
    obtain ⟨-, rfl, hrest⟩ := hno h'.2 hmore
    exact ⟨hlabel, rfl, hrest⟩
  | _ => cases hheading

theorem tells_object {fields : List (String × Expr)} (h : ∀ field ∈ fields, Tells indent field.2)
    (line : Int) : Tells indent (.object fields line) := by
  intro e' h' level label label' rest rest' heq
  obtain ⟨hlabel, hheading, hline, htail⟩ := exprLines_inj_head heq
  cases e' with
  | object fields' line' =>
    cases hline
    rw [Expr.all, Bool.and_eq_true] at h'
    simp only [exprLines, List.cons_append, List.tail_cons] at htail
    obtain ⟨hcount, hmore⟩ := List.cons.inj htail
    obtain ⟨rfl, hrest⟩ := fieldLines_inj h h'.2 (countLine_inj hcount) hmore
    exact ⟨hlabel, rfl, hrest⟩
  | _ => cases hheading

theorem tells_field {receiver : Expr} (hreceiver : Tells indent receiver) (name : String)
    (line : Int) : Tells indent (.field receiver name line) := by
  intro e' h' level label label' rest rest' heq
  obtain ⟨hlabel, hheading, hline, htail⟩ := exprLines_inj_head heq
  cases e' with
  | field receiver' name' line' =>
    cases hheading
    cases hline
    rw [Expr.all, Bool.and_eq_true] at h'
    simp only [exprLines, List.tail_cons] at htail
    obtain ⟨-, rfl, hrest⟩ := hreceiver h'.2 htail
    exact ⟨hlabel, rfl, hrest⟩
  | _ => cases hheading

theorem tells_setField {receiver value : Expr} (hreceiver : Tells indent receiver)
    (hvalue : Tells indent value) (name : String) (line : Int) :
    Tells indent (.setField receiver name value line) := by
  intro e' h' level label label' rest rest' heq
  obtain ⟨hlabel, hheading, hline, htail⟩ := exprLines_inj_head heq
  cases e' with
  | setField receiver' name' value' line' =>
    cases hheading
    cases hline
    simp only [Expr.all, Bool.and_eq_true] at h'
    simp only [exprLines, List.cons_append, List.tail_cons, List.append_assoc] at htail
    obtain ⟨-, rfl, hmore⟩ := hreceiver h'.1.2 htail
    obtain ⟨-, rfl, hrest⟩ := hvalue h'.2 hmore
    exact ⟨hlabel, rfl, hrest⟩
  | _ => cases hheading

theorem tells_method {receiver : Expr} {args : List Expr} (hreceiver : Tells indent receiver)
    (hargs : ∀ e ∈ args, Tells indent e) (name : String) (line : Int) :
    Tells indent (.method receiver name args line) := by
  intro e' h' level label label' rest rest' heq
  obtain ⟨hlabel, hheading, hline, htail⟩ := exprLines_inj_head heq
  cases e' with
  | method receiver' name' args' line' =>
    cases hheading
    cases hline
    simp only [Expr.all, Bool.and_eq_true] at h'
    simp only [exprLines, List.cons_append, List.tail_cons, List.append_assoc] at htail
    obtain ⟨-, rfl, hmore⟩ := hreceiver h'.1.2 htail
    obtain ⟨rfl, hrest⟩ := countLine_listLines_inj hargs h'.2 hmore
    exact ⟨hlabel, rfl, hrest⟩
  | _ => cases hheading

mutual

/-- **Lines that begin with those of a construct tell the construct**, if its parameters have the form of
names. -/
theorem tells_of_all (e : Expr) (h : e.all (Expr.bindsOnly isName) = true) : Tells indent e := by
  cases e with
  | block body => exact tells_block (tellsBlock_of_all body (Expr.all_block.mp h).2)
  | literal value line => exact tells_literal value line
  | call callee args line =>
    simp only [Expr.all, Bool.and_eq_true] at h
    exact tells_call (tells_of_all callee h.1.2) (tells_of_allIn args h.2) line
  | identifier name line => exact tells_identifier name line
  | assign name value declares line =>
    simp only [Expr.all, Bool.and_eq_true] at h
    exact tells_assign (tells_of_all value h.2) name declares line
  | function name params binds body line =>
    simp only [Expr.all, Expr.bindsOnly, Bool.and_eq_true, List.all_eq_true] at h
    exact tells_function (tellsBlock_of_all body h.2) h.1.2 name binds line
  | returns value line =>
    simp only [Expr.all, Bool.and_eq_true] at h
    exact tells_returns (tells_of_all value h.2) line
  | choose condition yes no line =>
    simp only [Expr.all, Bool.and_eq_true] at h
    exact tells_choose (tells_of_all condition h.1.1.2) (tellsBlock_of_all yes h.1.2)
      (tellsBlock_of_all no h.2) line
  | object fields line =>
    simp only [Expr.all, Bool.and_eq_true] at h
    exact tells_object (tells_of_allInFields fields h.2) line
  | field receiver name line =>
    simp only [Expr.all, Bool.and_eq_true] at h
    exact tells_field (tells_of_all receiver h.2) name line
  | setField receiver name value line =>
    simp only [Expr.all, Bool.and_eq_true] at h
    exact tells_setField (tells_of_all receiver h.1.2) (tells_of_all value h.2) name line
  | method receiver name args line =>
    simp only [Expr.all, Bool.and_eq_true] at h
    exact tells_method (tells_of_all receiver h.1.2) (tells_of_allIn args h.2) name line

theorem tellsBlock_of_all (body : Block) (h : body.all (Expr.bindsOnly isName) = true) :
    TellsBlock indent body := by
  obtain ⟨statements, line⟩ := body
  exact tellsBlock (tells_of_allIn statements h) line

theorem tells_of_allIn (es : List Expr) (h : allIn (Expr.bindsOnly isName) es = true) :
    ∀ e ∈ es, Tells indent e := by
  cases es with
  | nil => exact List.forall_mem_nil _
  | cons e es =>
    rw [allIn, Bool.and_eq_true] at h
    exact List.forall_mem_cons.mpr ⟨tells_of_all e h.1, tells_of_allIn es h.2⟩

theorem tells_of_allInFields (fields : List (String × Expr))
    (h : allInFields (Expr.bindsOnly isName) fields = true) :
    ∀ field ∈ fields, Tells indent field.2 := by
  cases fields with
  | nil => exact List.forall_mem_nil _
  | cons field fields =>
    obtain ⟨name, e⟩ := field
    rw [allInFields, Bool.and_eq_true] at h
    exact List.forall_mem_cons.mpr ⟨tells_of_all e h.1, tells_of_allInFields fields h.2⟩

end

end Constructs

/-! ### Texts of lines -/

theorem toList_text_cons (line : String) (lines : List String) :
    (text (line :: lines)).toList = line.toList ++ '\n' :: (text lines).toList := by
  rw [text, List.map_cons, String.toList_join, List.flatMap_cons, String.toList_append,
    List.append_assoc, text, String.toList_join]
  rfl

theorem text_cons_ne_nil (line : String) (lines : List String) : text (line :: lines) ≠ text [] := by
  intro h
  have hlists := congrArg String.toList h
  rw [toList_text_cons] at hlists
  exact absurd hlists (List.append_ne_nil_of_right_ne_nil _ (List.cons_ne_nil _ _))

/-- The first line of a text ends where the first line feed stands. -/
theorem text_cons_inj {line line' : String} {lines lines' : List String}
    (h : '\n' ∉ line.toList) (h' : '\n' ∉ line'.toList)
    (heq : text (line :: lines) = text (line' :: lines')) :
    line = line' ∧ text lines = text lines' := by
  have htake : ∀ {line lines}, '\n' ∉ String.toList line →
      (text (line :: lines)).toList.takeWhile (· != '\n') = line.toList := by
    intro line lines hline
    rw [toList_text_cons,
      List.takeWhile_append_of_pos fun c hc => bne_iff_ne.mpr (ne_of_mem_of_not_mem hc hline)]
    exact List.append_nil _
  have hsame : line = line' := String.toList_inj.mp (by rw [← htake h, heq, htake h'])
  subst hsame
  have hlists := congrArg String.toList heq
  rw [toList_text_cons, toList_text_cons] at hlists
  exact ⟨rfl, String.toList_inj.mp (List.cons.inj (List.append_cancel_left hlists)).2⟩

/-- A text tells its lines, if none of them is broken. -/
theorem eq_of_text_eq {lines lines' : List String} (h : ∀ line ∈ lines, '\n' ∉ line.toList)
    (h' : ∀ line ∈ lines', '\n' ∉ line.toList) (heq : text lines = text lines') : lines = lines' := by
  induction lines generalizing lines' with
  | nil =>
    cases lines' with
    | nil => rfl
    | cons line' lines' => exact absurd heq.symm (text_cons_ne_nil line' lines')
  | cons line lines ih =>
    cases lines' with
    | nil => exact absurd heq (text_cons_ne_nil line lines)
    | cons line' lines' =>
      obtain ⟨hline, hlines⟩ := List.forall_mem_cons.mp h
      obtain ⟨hline', hlines'⟩ := List.forall_mem_cons.mp h'
      obtain ⟨rfl, hrest⟩ := text_cons_inj hline hline' heq
      rw [ih hlines hlines' hrest]

end Dump

/-! ### Scripts -/

namespace Parsing

open Dump

/-- **Scripts with the same dump are equal**, down to line numbers, kinds of literals and the spelling of
keys, if no key breaks its line. -/
theorem eq_of_dump_eq {source source' : String} {script script' : Script}
    (h : parse source = .ok script) (h' : parse source' = .ok script')
    (hkeys : ∀ key ∈ script.keys, '\n' ∉ key.toList)
    (hkeys' : ∀ key ∈ script'.keys, '\n' ∉ key.toList)
    (heq : script.dump standardIndent = script'.dump standardIndent) : script = script' := by
  have hlines : scriptLines standardIndent script = scriptLines standardIndent script' := by
    refine eq_of_text_eq (feedsIn_eq_zero_iff.mp ?_) (feedsIn_eq_zero_iff.mp ?_) heq
    · rw [feeds_scriptLines h, feedsIn_eq_zero_iff.mpr hkeys]
    · rw [feeds_scriptLines h', feedsIn_eq_zero_iff.mpr hkeys']
  have hnames := script.body.all_bindsOnly (fits_of_parse h)
  have hnames' := script'.body.all_bindsOnly (fits_of_parse h')
  have hblocks := congrArg (· ++ []) (List.cons.inj hlines).2
  obtain ⟨-, hbody, -⟩ := tellsBlock_of_all script.body hnames hnames' hblocks
  obtain ⟨body⟩ := script
  obtain ⟨body'⟩ := script'
  exact congrArg Script.mk hbody

/-- Two texts with the same words on the same lines, and a key that looks like a construct. -/
theorem eq_of_dump_eq_key :
    ∃ script script', parse "\x7b\"a: 'b' @1\":1\x7d;" = .ok script ∧
      parse "\x7b\"a: 'b' @1\" : 1 \x7d ;" = .ok script' ∧
      (∀ key ∈ script.keys, '\n' ∉ key.toList) ∧ (∀ key ∈ script'.keys, '\n' ∉ key.toList) ∧
      script.dump standardIndent = script'.dump standardIndent ∧ script = script' := by
  let object : Script := ⟨⟨[.object [("a: 'b' @1", .literal (.int 1) 1)] 1], 1⟩⟩
  have hread : ∀ source : String, cut source = ⟨(cut source).tokens, none⟩ →
      Occurrence object.body.words (significant (cut source).tokens) →
        parse source = .ok (object.onLine 1) :=
    fun source hcut hoccurs => parse_of_occurrence hcut (by decide) hoccurs
  have hclose := hread "\x7b\"a: 'b' @1\":1\x7d;" (by decide +kernel) ⟨by decide +kernel, by decide +kernel⟩
  have hwide := hread "\x7b\"a: 'b' @1\" : 1 \x7d ;" (by decide +kernel)
    ⟨by decide +kernel, by decide +kernel⟩
  have hkeys : ∀ key ∈ (object.onLine 1).keys, '\n' ∉ key.toList := by decide
  exact ⟨_, _, hclose, hwide, hkeys, hkeys, rfl, eq_of_dump_eq hclose hwide hkeys hkeys rfl⟩

end Parsing

end Scriptlet
