import Scriptlet.Proofs.Lexical.Literals
import Scriptlet.Proofs.Lexical.Tiling
import Scriptlet.Store.Builtin

/-!
# Laying out words

Words can be written one after the other, as long as no two of them run together: where the first
character of the next word would be taken for a part of the word before it, or where both would be
cut in some other way, a blank keeps them apart. All terminals cut the text that is written so into
the words again.

## What is proved

* `Word.Readable`: a word that is cut off from any text that does not go on with it; names, reserved
  words, numbers, strings, operators and marks are such words.
* `exists_cutInto_layOut`: what readable words are laid out as is cut into them.
* `CutInto.cut_eq`: a cut that gets stuck nowhere is the one that cutting gives.
-/

namespace Scriptlet.Lexical

open Scriptlet.Text

/-! ### The form of names -/

/-- The characters have the form of a name. -/
def isNameForm : List Char → Bool
  | [] => false
  | c :: cs => isNameStart c && cs.all isNamePart

/-- The characters spell a reserved word. -/
def isReservedForm (cs : List Char) : Bool :=
  Terminal.inOrder.any fun t => t.reserved? == some cs

/-- The text has the form of a name. -/
def isName (s : String) : Bool := isNameForm s.toList

/-- The text has the form of a name and is no reserved word. -/
def isPlainName (s : String) : Bool := isName s && !isReservedForm s.toList

theorem reserved?_ne_of_not_isReservedForm {cs : List Char} (h : isReservedForm cs = false)
    (t : Terminal) : t.reserved? ≠ some cs := by
  intro ht
  have hany : isReservedForm cs = true :=
    List.any_eq_true.mpr ⟨t, t.mem_inOrder, by rw [ht, beq_self_eq_true]⟩
  rw [h] at hany
  cases hany

/-! ### Words -/

/-- A word: its kind and its characters. -/
structure Word where
  /-- Its kind. -/
  kind : Terminal
  /-- Its characters. -/
  chars : List Char
  deriving DecidableEq, Repr

/-- The word that a token is, wherever it stands. -/
def Token.toWord (t : Token) : Word := ⟨t.kind, t.word⟩

/-- A word of the kind does not end, or is another word, where this character follows it. -/
def Terminal.goesOn : Terminal → Char → Bool
  | .name, c | .functionWord, c | .returnWord, c | .elseWord, c | .varWord, c | .letWord, c
  | .ifWord, c => isNamePart c
  | .number, c => c.isDigit
  | .comparison, c | .equals, c => c = '='
  | .factor, c => c = '/' || c = '*'
  | .string, _ | .lineComment, _ | .blockComment, _ | .blank, _ | .sign, _ | .leftParen, _
  | .rightParen, _ | .leftBrace, _ | .rightBrace, _ | .comma, _ | .semicolon, _ | .colon, _
  | .dot, _ => false

/-- A text right after a word of the kind is not taken for a part of it. -/
def Terminal.EndsBefore (t : Terminal) (rest : List Char) : Prop :=
  ∀ c ∈ rest.head?, t.goesOn c = false

/-- The word is cut off from any text that does not go on with it. It means something, and holds no
line feed and no blank at its start. -/
structure Word.Readable (w : Word) : Prop where
  /-- All terminals find it. -/
  split : ∀ rest, w.kind.EndsBefore rest →
    Vocabulary.full.split? (w.chars ++ rest) = some (w.kind, w.chars, rest)
  /-- It means something. -/
  significant : w.kind.isIgnored = false
  /-- It stands on one line. -/
  line : '\n' ∉ w.chars
  /-- It does not start with a blank. -/
  start : ∀ c ∈ w.chars.head?, isSpace c = false

/-- The first terminal that fits is found. -/
theorem Vocabulary.split?_of_first {v : Vocabulary} {t : Terminal} (sooner : List Terminal)
    {later : List Terminal} {cs word rest : List Char} (htried : v.tried = sooner ++ t :: later)
    (hn : (t == .name) = false)
    (ht : t.split? cs = some (word, rest)) (hsooner : ∀ u ∈ sooner, u.split? cs = none) :
    v.split? cs = some (t, word, rest) := by
  rw [split?, htried, List.findSome?_append, List.findSome?_eq_none_iff.mpr, Option.none_or,
    List.findSome?_cons, ht]
  · rw [beq_eq_false_iff_ne] at hn
    simp [kindOf, hn]
  · intro u hu
    rw [hsooner u hu]
    rfl

/-- A stretch ends where a character follows it that is not of its class. -/
theorem splitHead_append {p q : Char → Bool} {c : Char} {cs rest : List Char} (hc : p c = true)
    (hcs : ∀ d ∈ cs, q d = true) (hrest : ∀ d ∈ rest.head?, q d = false) :
    splitHead p q (c :: cs ++ rest) = some (c :: cs, rest) := by
  rw [List.cons_append, splitHead, if_pos hc, List.takeWhile_append_of_pos hcs,
    List.dropWhile_append_of_pos hcs]
  cases rest with
  | nil => simp
  | cons d rest => simp [hrest d rfl]

theorem isSpace_iff {c : Char} :
    isSpace c = true ↔ c = ' ' ∨ c = '\t' ∨ c = '\x0c' ∨ c = '\r' ∨ c = '\n' := by
  simp only [isSpace, Bool.or_eq_true, decide_eq_true_eq, or_assoc]

theorem isSpace_eq_false_of_isNamePart {c : Char} (h : isNamePart c = true) : isSpace c = false := by
  rw [Bool.eq_false_iff]
  intro hs
  rcases isSpace_iff.mp hs with rfl | rfl | rfl | rfl | rfl <;> exact absurd h (by decide)

theorem isNamePart_of_isDigit {c : Char} (h : c.isDigit = true) : isNamePart c = true := by
  rw [isNamePart, h, Bool.or_true]

/-- What starts with a character that is no space does not start with a space. -/
theorem isSpace_head {c : Char} {cs : List Char} (h : isSpace c = false) :
    ∀ d ∈ (c :: cs).head?, isSpace d = false := by
  rintro _ ⟨⟩
  exact h

/-- A terminal takes nothing where none of its words can start. -/
theorem Terminal.split?_eq_none {t : Terminal} {c : Char} {cs : List Char}
    (h : t.starts c = false) : t.split? (c :: cs) = none := by
  rw [← Option.not_isSome_iff_eq_none]
  intro hs
  rw [Terminal.starts_of_split? hs] at h
  cases h

/-- A text of the form of a name is made of parts of names. -/
theorem isNamePart_of_isNameForm {cs : List Char} (h : isNameForm cs = true) :
    ∀ c ∈ cs, isNamePart c = true := by
  cases cs with
  | nil => cases h
  | cons c cs =>
    rw [isNameForm, Bool.and_eq_true, List.all_eq_true] at h
    refine List.forall_mem_cons.mpr ⟨?_, h.2⟩
    rw [isNamePart, h.1, Bool.true_or]

theorem not_mem_of_isNameForm {cs : List Char} (h : isNameForm cs = true) : '\n' ∉ cs :=
  fun hm => absurd (isNamePart_of_isNameForm h _ hm) (by decide)

/-! ### Readable words -/

namespace Word

/-- Names and reserved words end where a character follows that is no part of a name. -/
theorem readable_of_isNameForm {t : Terminal} {cs : List Char} (hform : isNameForm cs = true)
    (hkind : Vocabulary.full.kindOfName cs = t) (hgoes : t.goesOn = isNamePart)
    (hsignificant : t.isIgnored = false) : Readable ⟨t, cs⟩ := by
  have hpart := isNamePart_of_isNameForm hform
  have hline := not_mem_of_isNameForm hform
  cases cs with
  | nil => cases hform
  | cons c cs =>
    rw [isNameForm, Bool.and_eq_true, List.all_eq_true] at hform
    obtain ⟨hc, hcs⟩ := hform
    have hspace := isSpace_eq_false_of_isNamePart (hpart c List.mem_cons_self)
    refine ⟨fun rest hrest => ?_, hsignificant, hline, isSpace_head hspace⟩
    have hname : Terminal.name.split? (c :: cs ++ rest) = some (c :: cs, rest) :=
      splitHead_append hc hcs fun d hd => hgoes ▸ hrest d hd
    rw [Vocabulary.split?_of_name (v := .full) rfl hname, hkind]

theorem readable_name {cs : List Char} (hform : isNameForm cs = true)
    (hreserved : isReservedForm cs = false) : Readable ⟨.name, cs⟩ :=
  readable_of_isNameForm hform
    (Vocabulary.kindOfName_of_not_reserved (reserved?_ne_of_not_isReservedForm hreserved)) rfl rfl

theorem readable_reserved {t : Terminal} {cs : List Char} (ht : t.reserved? = some cs) :
    Readable ⟨t, cs⟩ := by
  have hform : isNameForm cs = true := by
    obtain ⟨c, ds, rfl, hc, hds⟩ := Terminal.reserved_form ht
    rw [isNameForm, hc, List.all_eq_true.mpr hds, Bool.and_true]
  refine readable_of_isNameForm hform (Vocabulary.kindOfName_of_reserved ht rfl) ?_ ?_
  · cases t <;> first | rfl | cases ht
  · cases t <;> first | rfl | cases ht

theorem readable_number (n : Nat) : Readable ⟨.number, Nat.toDigits 10 n⟩ := by
  have hdigits : ∀ d ∈ Nat.toDigits 10 n, d.isDigit = true := fun d =>
    Nat.isDigit_of_mem_toDigits (by decide) (by decide)
  obtain ⟨c, cs, hcs⟩ := List.exists_cons_of_ne_nil (Nat.toDigits_ne_nil (n := n) (b := 10))
  rw [hcs] at hdigits ⊢
  have hc := hdigits c List.mem_cons_self
  have hname : isNameStart c = false := by
    rw [Bool.eq_false_iff]
    intro hs
    rcases Terminal.eq_name_or_isReserved (t := .number) hs hc with h | h
    · cases h
    · cases h
  have hspace := isSpace_eq_false_of_isNamePart (isNamePart_of_isDigit hc)
  refine ⟨fun rest hrest => ?_, rfl, fun hm => ?_, isSpace_head hspace⟩
  · have hnumber := splitHead_append hc (fun d hd => hdigits d (List.mem_cons_of_mem _ hd)) hrest
    refine Vocabulary.split?_of_first [.name] rfl rfl hnumber fun u hu => ?_
    obtain rfl := List.mem_singleton.mp hu
    exact Terminal.split?_eq_none hname
  · exact absurd (hdigits _ hm) (by decide)

theorem readable_string {mark : Char} {cs s : List Char} (hmark : mark = '"' ∨ mark = '\'')
    (h : Spells mark cs s) : Readable ⟨.string, mark :: (cs ++ [mark])⟩ := by
  have hstarts : Terminal.name.starts mark = false ∧ Terminal.number.starts mark = false ∧
      mark ≠ '\n' ∧ isSpace mark = false := by
    rcases hmark with rfl | rfl
    · decide
    · decide
  obtain ⟨hname, hnumber, hline, hspace⟩ := hstarts
  refine ⟨fun rest _ => ?_, rfl, fun hm => ?_, isSpace_head hspace⟩
  · have hstring := splitString_of_spells h hmark rest
    have hcs : mark :: (cs ++ [mark]) ++ rest = mark :: (cs ++ mark :: rest) := by simp
    rw [hcs]
    refine Vocabulary.split?_of_first [.name, .number] rfl rfl hstring
      fun u hu => ?_
    rcases List.mem_cons.mp hu with rfl | hu
    · exact Terminal.split?_eq_none hname
    · obtain rfl := List.mem_singleton.mp hu
      exact Terminal.split?_eq_none hnumber
  · simp only [List.mem_cons, List.mem_append, List.not_mem_nil, or_false] at hm
    rcases hm with hm | hm | hm
    · exact hline hm.symm
    · exact not_mem_of_spells h hm
    · exact hline hm.symm

/-! ### Words with one spelling -/

end Word

/-- The spelling of a terminal that has only one. -/
def Terminal.spelling : Terminal → List Char
  | .leftParen => ['(']
  | .rightParen => [')']
  | .leftBrace => ['\x7b']
  | .rightBrace => ['\x7d']
  | .comma => [',']
  | .semicolon => [';']
  | .colon => [':']
  | .dot => ['.']
  | .equals => ['=']
  | t => t.reserved?.getD []

/-- The word of a terminal that has only one. -/
def Word.only (t : Terminal) : Word := ⟨t, t.spelling⟩

/-- The terminal of an operator. -/
def Operator.terminal : Operator → Terminal
  | .add | .sub => .sign
  | .mul | .div | .mod => .factor
  | .eq | .ne | .lt | .le | .gt | .ge => .comparison

/-- The word of an operator. -/
def Operator.word (o : Operator) : Word := ⟨Operator.terminal o, o.sign.toList⟩

namespace Word

/-- Right after an equals sign stands no other one. -/
theorem readable_equals : Readable ⟨.equals, ['=']⟩ := by
  refine ⟨fun rest hrest => ?_, rfl, by decide, isSpace_head rfl⟩
  have hcomparison : Terminal.comparison.split? ('=' :: rest) = none := by
    cases rest with
    | nil => rfl
    | cons c rest =>
      have hc : c ≠ '=' := by simpa [Terminal.goesOn] using hrest c rfl
      simp [Terminal.split?, splitComparison, hc]
  refine Vocabulary.split?_of_first [.name, .number, .string, .lineComment,
    .blockComment, .blank, .comparison, .sign, .factor, .leftParen, .rightParen, .leftBrace,
    .rightBrace, .comma, .semicolon, .colon, .dot] rfl rfl rfl fun u hu => ?_
  by_cases h : u = .comparison
  · rw [h]
    exact hcomparison
  · exact Terminal.split?_eq_none (by revert u; decide)

theorem readable_only {t : Terminal} (ht : t.spelling ≠ []) : Readable (only t) := by
  cases t
  case functionWord | returnWord | elseWord | varWord | letWord | ifWord =>
    exact readable_reserved rfl
  case equals => exact readable_equals
  case leftParen | rightParen | leftBrace | rightBrace | comma | semicolon | colon | dot =>
    exact ⟨fun rest _ => rfl, rfl, by decide, isSpace_head rfl⟩
  all_goals exact absurd rfl ht

/-- Right after a division sign stands nothing that would make a comment of it. -/
theorem readable_div : Readable (Operator.word .div) := by
  refine ⟨fun rest hrest => ?_, rfl, by decide, isSpace_head rfl⟩
  have hcomment : Terminal.lineComment.split? ('/' :: rest) = none ∧
      Terminal.blockComment.split? ('/' :: rest) = none := by
    cases rest with
    | nil => exact ⟨rfl, rfl⟩
    | cons c rest =>
      have hc : c ≠ '/' ∧ c ≠ '*' := by
        simpa [Operator.word, Operator.terminal, Terminal.goesOn] using hrest c rfl
      constructor
      · simp [Terminal.split?, splitLineComment, hc.1]
      · simp [Terminal.split?, splitBlockComment, hc.2]
  refine Vocabulary.split?_of_first [.name, .number, .string, .lineComment,
    .blockComment, .blank, .comparison, .sign] rfl rfl rfl fun u hu => ?_
  by_cases hline : u = .lineComment
  · rw [hline]
    exact hcomment.1
  by_cases hblock : u = .blockComment
  · rw [hblock]
    exact hcomment.2
  · exact Terminal.split?_eq_none (by revert u; decide)

/-- Right after a comparison of one character stands no equals sign. -/
theorem readable_comparison {c : Char} (hc : c = '<' ∨ c = '>') : Readable ⟨.comparison, [c]⟩ := by
  have hline : '\n' ≠ c ∧ isSpace c = false := by
    rcases hc with rfl | rfl
    · decide
    · decide
  refine ⟨fun rest hrest => ?_, rfl, ?_, isSpace_head hline.2⟩
  · have hsplit : Terminal.comparison.split? (c :: rest) = some ([c], rest) := by
      cases rest with
      | nil => rcases hc with rfl | rfl <;> rfl
      | cons d rest =>
        have hd : d ≠ '=' := by simpa [Terminal.goesOn] using hrest d rfl
        rcases hc with rfl | rfl <;> simp [Terminal.split?, splitComparison, hd]
    refine Vocabulary.split?_of_first [.name, .number, .string, .lineComment,
      .blockComment, .blank] rfl rfl hsplit fun u hu => Terminal.split?_eq_none ?_
    rcases hc with rfl | rfl
    · revert u; decide
    · revert u; decide
  · simpa using hline.1

theorem readable_operator (o : Operator) : Readable (Operator.word o) := by
  cases o
  case div => exact readable_div
  case lt => exact readable_comparison (.inl rfl)
  case gt => exact readable_comparison (.inr rfl)
  all_goals exact ⟨fun rest _ => rfl, rfl, by decide, isSpace_head rfl⟩

end Word

/-! ### Laying out -/

/-- Words one after the other, with a blank between those that would run together. -/
def layOut : List Word → List Char
  | [] => []
  | w :: ws =>
    if (layOut ws).head?.any w.kind.goesOn then w.chars ++ ' ' :: layOut ws
    else w.chars ++ layOut ws

theorem line_advance {p : Position} {cs : List Char} (h : '\n' ∉ cs) :
    (p.advance cs).line = p.line := by
  rw [Position.line_advance, List.count_eq_zero.mpr h, Nat.add_zero]

/-- The tokens are the words, all on the first line. -/
def Occurrence (ws : List Word) (ts : List Token) : Prop :=
  ts.map Token.toWord = ws ∧ ∀ t ∈ ts, t.start.line = 1

/-- A readable word is cut off. -/
theorem Word.Readable.next? {w : Word} (h : w.Readable) {rest : List Char}
    (hrest : w.kind.EndsBefore rest) (p : Position) :
    Cursor.next? .full ⟨p, w.chars ++ rest⟩ =
      some (⟨w.kind, w.chars, p, p.advance w.chars⟩, ⟨p.advance w.chars, rest⟩) := by
  rw [Cursor.next?, h.split rest hrest]
  rfl

/-- A blank ends every word. -/
theorem Terminal.endsBefore_blank (t : Terminal) (rest : List Char) : t.EndsBefore (' ' :: rest) := by
  intro c hc
  obtain rfl := Option.some.inj hc
  cases t <;> rfl

/-- A text that starts with a readable word does not start with a blank. -/
theorem Word.Readable.head?_append {w : Word} (h : w.Readable) (rest : List Char) :
    ∀ c ∈ (w.chars ++ rest).head?, isSpace c = false := by
  have hne : w.chars ≠ [] := (Vocabulary.append_of_split (h.split [] nofun)).2
  obtain ⟨c, cs, hcs⟩ := List.exists_cons_of_ne_nil hne
  have hc := h.start c (by rw [hcs]; rfl)
  rw [hcs]
  exact isSpace_head hc

/-- What readable words are laid out as does not start with a blank. -/
theorem head?_layOut {ws : List Word} (h : ∀ w ∈ ws, w.Readable) :
    ∀ c ∈ (layOut ws).head?, isSpace c = false := by
  cases ws with
  | nil => nofun
  | cons w ws =>
    have hw := h w List.mem_cons_self
    rw [layOut]
    split
    · exact hw.head?_append _
    · exact hw.head?_append _

/-- A blank before what does not start with one is cut off. -/
theorem next?_blank {rest : List Char} (hrest : ∀ c ∈ rest.head?, isSpace c = false)
    (p : Position) : Cursor.next? .full ⟨p, ' ' :: rest⟩ =
      some (⟨.blank, [' '], p, p.advance [' ']⟩, ⟨p.advance [' '], rest⟩) := by
  have hblank : Terminal.blank.split? (' ' :: rest) = some ([' '], rest) :=
    splitHead_append (p := isSpace) (c := ' ') rfl (List.forall_mem_nil _) hrest
  have hsplit : Vocabulary.full.split? (' ' :: rest) = some (.blank, [' '], rest) :=
    Vocabulary.split?_of_first [.name, .number, .string, .lineComment, .blockComment]
      rfl rfl hblank fun u hu => Terminal.split?_eq_none (by revert u; decide)
  rw [Cursor.next?, hsplit]
  rfl

/-- **What readable words are laid out as is cut into them.** -/
theorem exists_cutInto_layOut {ws : List Word} (h : ∀ w ∈ ws, w.Readable) {p : Position}
    (hp : p.line = 1) :
    ∃ ts, CutInto .full ⟨p, layOut ws⟩ ts ∧ Occurrence ws (significant ts) := by
  induction ws generalizing p with
  | nil => exact ⟨[], .nil p, rfl, nofun⟩
  | cons w ws ih =>
    obtain ⟨hw, hws⟩ := List.forall_mem_cons.mp h
    have hline : (p.advance w.chars).line = 1 := (line_advance hw.line).trans hp
    rw [layOut]
    split
    · -- the blank is a word of its own, which means nothing
      have hends := w.kind.endsBefore_blank (layOut ws)
      have hblank := next?_blank (head?_layOut hws) (p.advance w.chars)
      have hline' : ((p.advance w.chars).advance [' ']).line = 1 :=
        (line_advance (by decide)).trans hline
      obtain ⟨ts, hcut, hread, hlines⟩ := ih hws hline'
      refine ⟨_, .cons (hw.next? hends p) (.cons hblank hcut), ?_⟩
      rw [significant_cons_of_not_ignored hw.significant, significant_cons_of_ignored rfl]
      exact ⟨congrArg (w :: ·) hread, List.forall_mem_cons.mpr ⟨hp, hlines⟩⟩
    · next hends =>
      obtain ⟨ts, hcut, hread, hlines⟩ := ih hws hline
      have hends' : w.kind.EndsBefore (layOut ws) := by
        intro c hc
        rw [Option.mem_def] at hc
        simpa [hc] using hends
      refine ⟨_, .cons (hw.next? hends' p) hcut, ?_⟩
      rw [significant_cons_of_not_ignored hw.significant]
      exact ⟨congrArg (w :: ·) hread, List.forall_mem_cons.mpr ⟨hp, hlines⟩⟩

/-! ### Cutting -/

/-- A cut that gets stuck nowhere is the one that cutting gives, given one unit of fuel per
character. -/
theorem CutInto.cutFrom_eq {v : Vocabulary} {c : Cursor} {ts : List Token} (h : CutInto v c ts)
    {fuel : Nat} (hfuel : c.rest.length ≤ fuel) : cutFrom v fuel c = ⟨ts, none⟩ := by
  induction h generalizing fuel with
  | nil p => cases fuel <;> rfl
  | @cons c d t ts hnext _ ih =>
    have hlen := Cursor.next?_length hnext
    obtain ⟨fuel, rfl⟩ := Nat.exists_eq_succ_of_ne_zero (Nat.ne_of_gt (Nat.zero_lt_of_lt
      (Nat.lt_of_lt_of_le hlen hfuel)))
    have hne : c.rest.isEmpty = false := by
      cases hc : c.rest with
      | nil => rw [hc] at hlen; cases hlen
      | cons => rfl
    have hcut : cutFrom v fuel d = ⟨ts, none⟩ := ih (by omega)
    rw [cutFrom, hne, if_neg Bool.false_ne_true, hnext]
    simp only [hcut]

theorem CutInto.cut_eq {s : String} {ts : List Token} (h : CutInto .full (Cursor.ofString s) ts) :
    cut s = ⟨ts, none⟩ :=
  h.cutFrom_eq (Nat.le_refl _)

end Scriptlet.Lexical
