import Scriptlet.Proofs.Parsing.Phrases

/-!
# Reading what was written

A script that is written down and read again is the same script, all of it on the first line. The proof
follows the tree: every construct is read as an operand as tight as its own rank, or as a statement with
what ends it, given that this is so of its parts.

## What is proved

* `IsRead`: how a construct is read, with one lemma for every construct.
* `parse_text`: the source text of a script is read as the script, on the first line.
* `parse_text_onLine`: reading undoes writing, up to lines.
-/

namespace Scriptlet.Grammar

open Lexical

/-- How a construct is read where it may stand. -/
structure IsRead (e : Expr) : Prop where
  /-- As an operand it is as tight as its rank. -/
  operand : e.fits isPlainName .operand = true → ReadsAs e.words (e.onLine 1) e.rank
  /-- As a statement it goes to its end. -/
  statement : e.fits isPlainName .statement = true → IsStatement e
  /-- A choice can go on another one. -/
  conditional : ∀ condition yes no line, e = .choose condition yes no line →
    e.fits isPlainName .statement = true → Means .conditional e.words (e.onLine 1)

variable {e : Expr} {es : List Expr} {body : Block} {line : Int}

theorem IsRead.isExpression (h : IsRead e) (he : e.fits isPlainName .operand = true) :
    IsExpression e :=
  (h.operand he).mono (Nat.zero_le _)

theorem isExpression_of_fitAll (h : ∀ a ∈ es, IsRead a)
    (hes : fitAll isPlainName .operand es = true) : ∀ a ∈ es, IsExpression a :=
  fun a ha => (h a ha).isExpression (fitAll_iff.mp hes a ha)

theorem isStatement_of_fits (h : ∀ a ∈ body.statements, IsRead a)
    (hbody : body.fits isPlainName = true) : ∀ a ∈ body.statements, IsStatement a :=
  fun a ha => (h a ha).statement (Block.fits_iff.mp hbody a ha)

/-! ### Expressions -/

/-- An expression before a semicolon is a statement. -/
theorem denotes_expressionStatement {ws : List Word} {v : Expr} (h : Denotes .expression ws v) :
    Denotes .statement (ws ++ [Word.only .semicolon]) v := by
  have hstatement : Denotes .expressionStatement (ws ++ [Word.only .semicolon]) v := by
    refine Denotes.node (r := .expressionStatement) rfl (.phrase h (.mark .nil)) ?_
    rintro ⟨_, _⟩ ⟨rfl, -⟩
    rfl
  exact Denotes.node (r := .statementExpression) rfl (.last hstatement) fun _ hv => hv

theorem means_expressionStatement {ws : List Word} {v : Expr} (h : Means .expression ws v) :
    Means .statement (ws ++ [Word.only .semicolon]) v := by
  have hsemicolon : (Word.only .semicolon).Readable := Word.readable_only (by decide)
  exact ⟨List.forall_mem_append.mpr ⟨h.1, List.forall_mem_singleton.mpr hsemicolon⟩,
    denotes_expressionStatement h.2⟩

/-- What has a value may stand as a statement. -/
theorem isRead_of_operand (hending : e.ending = [Word.only .semicolon])
    (hchoice : ∀ condition yes no line, e ≠ .choose condition yes no line)
    (h : e.fits isPlainName .statement = true → ReadsAs e.words (e.onLine 1) e.rank) :
    IsRead e := by
  refine ⟨fun he => h (Expr.fits_statement he), fun he => ?_, fun c y n l hc => ?_⟩
  · rw [IsStatement, hending]
    exact means_expressionStatement ((h he).mono (Nat.zero_le _))
  · exact absurd hc (hchoice c y n l)

theorem decimal_of_isWord {t : Token} {k : Nat} (h : IsWord (numberWord k) t) :
    decimal t.word = k := by
  rw [h.1]
  exact decimal_toDigits k

theorem signed_of_isWord {mark digits : Token} {k : Nat} (hmark : IsWord (Operator.word .sub) mark)
    (hdigits : IsWord (numberWord k) digits) : signed mark digits = -(k : Int) := by
  have hminus : mark.word = ['-'] := hmark.1
  rw [signed, if_pos hminus, decimal_of_isWord hdigits]

theorem isRead_literal (value : Literal) : IsRead (.literal value line) := by
  refine isRead_of_operand rfl nofun fun h => readsAs_of_primary ?_ _
  cases value with
  | undefined => cases h
  | int n =>
    have hword : (numberWord n.natAbs).Readable := Word.readable_number n.natAbs
    rw [Expr.words, Literal.words]
    split
    · next hn =>
      refine Means.node (r := .primarySignedNumber) rfl
        (.word (Word.readable_operator .sub) (.word hword .nil)) ?_
      rintro ⟨mark, digits, _⟩ ⟨hmark, hdigits, -⟩
      have hvalue : signed mark digits = n := (signed_of_isWord hmark hdigits).trans (by omega)
      exact congrArg (fun k => Expr.literal (.int k) 1) hvalue
    · next hn =>
      refine Means.node (r := .primaryNumber) rfl (.word hword .nil) ?_
      rintro ⟨digits, _⟩ ⟨hdigits, -⟩
      have hvalue : (decimal (Token.word digits) : Int) = n := by
        rw [decimal_of_isWord hdigits]
        omega
      exact congrArg (fun k => Expr.literal (.int k) 1) hvalue
  | str s =>
    refine Means.node (r := .primaryString) rfl (.word (readable_stringWord s) .nil) ?_
    rintro ⟨t, _⟩ ⟨⟨ht, -⟩, -⟩
    have hvalue : unquote (Token.word t) = s := by rw [ht, unquote_stringWord]
    exact congrArg (fun s => Expr.literal (.str s) 1) hvalue

theorem isRead_identifier (name : String) : IsRead (.identifier name line) := by
  refine isRead_of_operand rfl nofun fun h => readsAs_of_primary ?_ _
  refine Means.node (r := .primaryName) rfl (.name h .nil) ?_
  rintro ⟨t, _⟩ ⟨⟨rfl, -⟩, -⟩
  rfl

theorem isRead_object {fields : List (String × Expr)} (h : ∀ f ∈ fields, IsRead f.2) :
    IsRead (.object fields line) := by
  refine isRead_of_operand rfl nofun fun hfits => readsAs_of_primary ?_ _
  rw [Expr.fits, fitFields_iff] at hfits
  have hobject : Means .object (braced (fieldWords fields)) (.object (fieldsOnLine 1 fields) 1) := by
    cases fields with
    | nil =>
      exact Means.node (r := .objectEmpty) rfl (.mark (by decide) (.mark (by decide) .nil))
        fun _ _ => rfl
    | cons field fields =>
      have hfields := means_fields fun f hf =>
        (h f hf).isExpression (hfits f.2 (List.mem_map_of_mem hf))
      refine Means.node (r := .objectFields) rfl
        (.mark (by decide) (.phrase hfields (.mark (by decide) .nil))) ?_
      rintro ⟨_, _, _⟩ ⟨rfl, -⟩
      rfl
  exact Means.node (r := .primaryObject) rfl (.last hobject) fun _ hv => hv

/-- What is before a dot. -/
theorem IsRead.receiver (h : IsRead e) (he : e.fits isPlainName .operand = true) :
    Means .chain (enclosed (e.rank < Operator.tight) e.words) (e.onLine 1) := by
  refine (h.operand he).enclosed (n := 3) fun hn => ?_
  exact Nat.not_lt.mp (of_decide_eq_false hn)

theorem isRead_field {receiver : Expr} {name : String} (h : IsRead receiver) :
    IsRead (.field receiver name line) := by
  refine isRead_of_operand rfl nofun fun hfits => readsAs_of_chain ?_ _
  rw [Expr.fits, Bool.and_eq_true] at hfits
  refine Means.node (r := .chainField) rfl
    (.phrase (h.receiver hfits.1) (.mark (by decide) (.name hfits.2 .nil))) ?_
  rintro ⟨_, _, t, _⟩ ⟨rfl, ⟨rfl, -⟩, -⟩
  rfl

theorem isRead_method {receiver : Expr} {name : String} {args : List Expr} (h : IsRead receiver)
    (hargs : ∀ a ∈ args, IsRead a) : IsRead (.method receiver name args line) := by
  refine isRead_of_operand rfl nofun fun hfits => readsAs_of_chain ?_ _
  rw [Expr.fits, Bool.and_eq_true, Bool.and_eq_true] at hfits
  exact means_method (h.receiver hfits.1.1) hfits.1.2 (isExpression_of_fitAll hargs hfits.2)

/-! ### Calls -/

section Call

variable {callee left right : Expr} {args : List Expr} {o : Operator}

theorem isField_onLine (line : Int) (e : Expr) : (e.onLine line).isField = e.isField := by
  cases e <;> rfl

theorem rank_call (ho : callee.operator? = none) :
    (Expr.call callee args line).rank = Operator.tight := by
  unfold Expr.rank
  split
  · simp_all
  · rfl

/-- The call of a function. -/
theorem isRead_plainCall (ho : callee.operator? = none) (h : IsRead callee)
    (hargs : ∀ a ∈ args, IsRead a) : IsRead (.call callee args line) := by
  refine isRead_of_operand rfl nofun fun hfits => ?_
  rw [Expr.fits, Bool.and_eq_true, ho, Option.isSome_none, Bool.false_or] at hfits
  have hcallee : ReadsCallee (enclosed (callee.rank < Operator.tight || callee.isField) callee.words)
      (callee.onLine 1) := by
    refine readsCallee_enclosed (h.operand hfits.1) fun hn => ?_
    rw [Bool.or_eq_false_iff, decide_eq_false_iff_not, Nat.not_lt] at hn
    rw [isField_onLine]
    exact hn
  rw [rank_call ho, words_plainCall ho]
  exact means_call hcallee (isExpression_of_fitAll hargs hfits.2)

/-- An operator between its operands. -/
theorem isRead_between (hleft : IsRead left) (hright : IsRead right) (l : Int) :
    IsRead (.call (.identifier o.sign l) [left, right] line) := by
  have ho : (Expr.identifier o.sign l).operator? = some o := Operator.ofSign?_eq_some.mpr rfl
  refine isRead_of_operand rfl nofun fun hfits => ?_
  rw [Expr.fits, Bool.and_eq_true, fitAll_iff, List.forall_mem_cons, List.forall_mem_singleton]
    at hfits
  have hrank : (Expr.call (.identifier o.sign l) [left, right] line).rank = o.rank := by
    rw [Expr.rank, ho]
  rw [hrank, words_between ho]
  refine readsAs_between ((hleft.operand hfits.2.1).enclosed fun hn => ?_)
    ((hright.operand hfits.2.2).enclosed fun hn => ?_)
  · exact Nat.not_lt.mp (of_decide_eq_false hn)
  · exact Nat.not_le.mp (of_decide_eq_false hn)

/-- An operator called like a function. -/
theorem isRead_operatorCall (hargs : ∀ a ∈ args, IsRead a) (htwo : ∀ left right, args ≠ [left, right])
    (l : Int) : IsRead (.call (.identifier o.sign l) args line) := by
  have ho : (Expr.identifier o.sign l).operator? = some o := Operator.ofSign?_eq_some.mpr rfl
  refine isRead_of_operand rfl nofun fun hfits => readsAs_of_primary ?_ _
  rw [Expr.fits, Bool.and_eq_true] at hfits
  rw [words_operatorCall ho htwo]
  exact means_operatorCall o (isExpression_of_fitAll hargs hfits.2)

theorem isRead_call (h : IsRead callee) (hargs : ∀ a ∈ args, IsRead a) :
    IsRead (.call callee args line) := by
  cases ho : callee.operator? with
  | none => exact isRead_plainCall ho h hargs
  | some o =>
    obtain ⟨l, rfl⟩ := Expr.eq_identifier_of_operator? ho
    by_cases htwo : ∃ left right, args = [left, right]
    · obtain ⟨left, right, rfl⟩ := htwo
      rw [List.forall_mem_cons, List.forall_mem_singleton] at hargs
      exact isRead_between hargs.1 hargs.2 l
    · exact isRead_operatorCall hargs (fun left right he => htwo ⟨left, right, he⟩) l

end Call

/-! ### Functions -/

section Function

variable {name param : String} {params : List String}

/-- No parameters, and the body of a function. -/
theorem readsAll_body (hbody : Means .block (braced body.words) (body.onLine 1)) :
    ReadsAll [.word .leftParen, .word .rightParen, .phrase .block]
      (parenthesised (nameList []) ++ braced body.words) fun vs => vs.2.2.1 = body.onLine 1 :=
  .mark (by decide) (.mark (by decide) (.last hbody))

/-- Parameters, and the body of a function. -/
theorem readsAll_parameters (hbody : Means .block (braced body.words) (body.onLine 1))
    (hparams : ∀ n ∈ param :: params, isPlainName n = true) :
    ReadsAll [.word .leftParen, .phrase .parameters, .word .rightParen, .phrase .block]
      (parenthesised (nameList (param :: params)) ++ braced body.words)
      fun vs => vs.2.1 = param :: params ∧ vs.2.2.2.1 = body.onLine 1 := by
  have hwords : parenthesised (nameList (param :: params)) ++ braced body.words =
      Word.only .leftParen :: (nameList (param :: params) ++
        Word.only .rightParen :: braced body.words) := by
    rw [parenthesised, List.cons_append, List.append_assoc, List.singleton_append]
  rw [hwords]
  exact .mark (by decide) (.phrase (means_parameters hparams) (.mark (by decide) (.last hbody)))

theorem isRead_lambda (h : ∀ a ∈ body.statements, IsRead a) :
    IsRead (.function name params false body line) := by
  refine isRead_of_operand rfl nofun fun hfits => readsAs_of_primary ?_ _
  rw [Expr.fits, if_neg Bool.false_ne_true, Bool.and_eq_true, Bool.and_eq_true, beq_iff_eq,
    List.all_eq_true] at hfits
  obtain ⟨⟨rfl, hparams⟩, hbody⟩ := hfits
  have hblock := means_block (isStatement_of_fits h hbody)
  have hfunction : Means .functionExpression
      (Word.only .functionWord :: (parenthesised (nameList params) ++ braced body.words))
      (.function anonymousName params false (body.onLine 1) 1) := by
    cases params with
    | nil =>
      refine Means.node (r := .functionExpressionPlain) rfl
        (.mark (by decide) (readsAll_body hblock)) ?_
      rintro ⟨_, _, _, _, _⟩ rfl
      rfl
    | cons param params =>
      refine Means.node (r := .functionExpressionParameters) rfl
        (.mark (by decide) (readsAll_parameters hblock hparams)) ?_
      rintro ⟨_, _, _, _, _, _⟩ ⟨rfl, rfl⟩
      rfl
  exact Means.node (r := .primaryFunction) rfl (.last hfunction) fun _ hv => hv

/-- What is only ever a statement. -/
theorem isRead_of_statement (hoperand : e.fits isPlainName .operand = false)
    (hchoice : ∀ condition yes no line, e ≠ .choose condition yes no line)
    (h : e.fits isPlainName .statement = true → IsStatement e) : IsRead e := by
  refine ⟨fun he => ?_, h, fun c y n l hc => absurd hc (hchoice c y n l)⟩
  rw [hoperand] at he
  cases he

theorem isRead_function (h : ∀ a ∈ body.statements, IsRead a) :
    IsRead (.function name params true body line) := by
  refine isRead_of_statement rfl nofun fun hfits => ?_
  rw [Expr.fits, if_pos rfl, Bool.and_eq_true, Bool.and_eq_true, Bool.and_eq_true,
    List.all_eq_true] at hfits
  obtain ⟨⟨⟨-, hname⟩, hparams⟩, hbody⟩ := hfits
  have hblock := means_block (isStatement_of_fits h hbody)
  have hfunction : Means .functionStatement
      (Word.only .functionWord :: nameWord name :: (parenthesised (nameList params) ++
        braced body.words))
      (.function name params true (body.onLine 1) 1) := by
    cases params with
    | nil =>
      refine Means.node (r := .functionStatementPlain) rfl
        (.mark (by decide) (.name hname (readsAll_body hblock))) ?_
      rintro ⟨_, t, _, _, _, _⟩ ⟨⟨rfl, -⟩, rfl⟩
      rfl
    | cons param params =>
      refine Means.node (r := .functionStatementParameters) rfl
        (.mark (by decide) (.name hname (readsAll_parameters hblock hparams))) ?_
      rintro ⟨_, t, _, _, _, _, _⟩ ⟨⟨rfl, -⟩, rfl, rfl⟩
      rfl
  rw [IsStatement, Expr.ending, List.append_nil]
  exact Means.node (r := .statementFunction) rfl (.last hfunction) fun _ hv => hv

end Function

/-! ### Statements -/

section Statement

variable {name : String} {value condition receiver : Expr} {yes no : Block}

/-- The value of a declaration or a return that has none. -/
theorem words_of_isNothing (h : value.isNothing = true) :
    value.words = [] ∧ value.onLine 1 = noValue 1 := by
  cases value with
  | literal value l =>
    cases value with
    | undefined => exact ⟨rfl, rfl⟩
    | _ => cases h
  | _ => cases h

/-- What has a value is not a value left out. -/
theorem isNothing_of_fits (h : value.fits isPlainName .operand = true) : value.isNothing = false := by
  cases value with
  | literal value l =>
    cases value with
    | undefined => cases h
    | _ => rfl
  | _ => rfl

theorem isRead_declaration (h : IsRead value) : IsRead (.assign name value true line) := by
  refine isRead_of_statement rfl nofun fun hfits => ?_
  rw [Expr.fits, Bool.and_eq_true, Bool.and_eq_true, Bool.true_and, Bool.or_eq_true] at hfits
  obtain ⟨⟨-, hname⟩, hvalue⟩ := hfits
  have hdeclaration : Means .declaration
      ((Expr.assign name value true line).words ++ [Word.only .semicolon])
      (.assign name (value.onLine 1) true 1) := by
    rcases hvalue with hvalue | hvalue
    · have hwords : (Expr.assign name value true line).words =
          Word.only .letWord :: nameWord name :: Word.only .equals :: value.words := by
        rw [Expr.words, isNothing_of_fits hvalue]
        rfl
      rw [hwords]
      refine Means.node (r := .declarationLetValue) rfl (.mark (by decide) (.name hname
        (.mark (by decide) (.phrase (h.isExpression hvalue) (.mark (by decide) .nil))))) ?_
      rintro ⟨_, t, _, _, _⟩ ⟨⟨rfl, -⟩, rfl, -⟩
      rfl
    · have hwords : (Expr.assign name value true line).words =
          [Word.only .letWord, nameWord name] := by
        rw [Expr.words, hvalue]
        rfl
      rw [hwords, (words_of_isNothing hvalue).2]
      refine Means.node (r := .declarationLet) rfl
        (.mark (by decide) (.name hname (.mark (by decide) .nil))) ?_
      rintro ⟨_, t, _⟩ ⟨⟨rfl, -⟩, -⟩
      rfl
  exact Means.node (r := .statementDeclaration) rfl (.last hdeclaration) fun _ hv => hv

theorem isRead_assignment (h : IsRead value) : IsRead (.assign name value false line) := by
  refine isRead_of_statement rfl nofun fun hfits => ?_
  rw [Expr.fits, Bool.and_eq_true, Bool.and_eq_true, Bool.false_and, Bool.or_false] at hfits
  obtain ⟨⟨-, hname⟩, hvalue⟩ := hfits
  have hwords : (Expr.assign name value false line).words =
      nameWord name :: Word.only .equals :: value.words := by
    rw [Expr.words, isNothing_of_fits hvalue]
    rfl
  have hassignment : Means .assignment
      ((Expr.assign name value false line).words ++ [Word.only .semicolon])
      (.assign name (value.onLine 1) false 1) := by
    rw [hwords]
    refine Means.node (r := .assignmentName) rfl (.name hname
      (.mark (by decide) (.phrase (h.isExpression hvalue) (.mark (by decide) .nil)))) ?_
    rintro ⟨t, _, _, _⟩ ⟨⟨rfl, -⟩, rfl, -⟩
    rfl
  exact Means.node (r := .statementAssignment) rfl (.last hassignment) fun _ hv => hv

theorem isRead_setField (hreceiver : IsRead receiver) (h : IsRead value) :
    IsRead (.setField receiver name value line) := by
  refine isRead_of_statement rfl nofun fun hfits => ?_
  simp only [Expr.fits, Bool.and_eq_true] at hfits
  obtain ⟨⟨⟨-, hr⟩, hname⟩, hvalue⟩ := hfits
  have hassignment : Means .fieldAssignment
      (enclosed (receiver.rank < Operator.tight) receiver.words ++
        Word.only .dot :: nameWord name :: Word.only .equals ::
          (value.words ++ [Word.only .semicolon]))
      (.setField (receiver.onLine 1) name (value.onLine 1) 1) := by
    refine Means.node (r := .assignmentField) rfl (.phrase (hreceiver.receiver hr)
      (.mark (by decide) (.name hname (.mark (by decide) (.phrase (h.isExpression hvalue)
        (.mark (by decide) .nil)))))) ?_
    rintro ⟨_, _, t, _, _, _⟩ ⟨rfl, ⟨rfl, -⟩, rfl, -⟩
    rfl
  rw [IsStatement, Expr.words, List.append_assoc]
  exact Means.node (r := .statementFieldAssignment) rfl (.last hassignment) fun _ hv => hv

theorem isRead_returns (h : IsRead value) : IsRead (.returns value line) := by
  refine isRead_of_statement rfl nofun fun hfits => ?_
  rw [Expr.fits, Bool.and_eq_true, Bool.or_eq_true] at hfits
  have hreturn : Means .returnStatement
      (Word.only .returnWord :: (value.words ++ [Word.only .semicolon]))
      (.returns (value.onLine 1) 1) := by
    rcases hfits.2 with hvalue | hvalue
    · refine Means.node (r := .returnValue) rfl (.mark (by decide)
        (.phrase (h.isExpression hvalue) (.mark (by decide) .nil))) ?_
      rintro ⟨_, _, _⟩ ⟨rfl, -⟩
      rfl
    · rw [(words_of_isNothing hvalue).1, (words_of_isNothing hvalue).2]
      exact Means.node (r := .returnPlain) rfl (.mark (by decide) (.mark (by decide) .nil))
        fun _ _ => rfl
  exact Means.node (r := .statementReturn) rfl (.last hreturn) fun _ hv => hv

/-- What is done otherwise is left out, or is a choice, or stands between braces. -/
theorem otherwise_cases (no : Block) :
    (no.statements = [] ∧ otherwise no no.words = []) ∨
      (∃ c y n l, no.statements = [.choose c y n l] ∧
        otherwise no no.words = Word.only .elseWord :: (Expr.choose c y n l).words) ∨
      otherwise no no.words = Word.only .elseWord :: braced no.words := by
  obtain ⟨statements, l⟩ := no
  unfold otherwise
  split
  · next h => exact .inl ⟨h, rfl⟩
  · next c y n l' h =>
    obtain rfl : statements = [.choose c y n l'] := h
    refine .inr (.inl ⟨c, y, n, l', rfl, ?_⟩)
    rw [Block.words, statementWords, statementWords, Expr.ending, List.append_nil, List.append_nil]
  · exact .inr (.inr rfl)

theorem means_choose (line : Int) (hcondition : IsRead condition)
    (hyes : ∀ a ∈ yes.statements, IsRead a) (hno : ∀ a ∈ no.statements, IsRead a)
    (hfits : (Expr.choose condition yes no line).fits isPlainName .statement = true) :
    Means .conditional (Expr.choose condition yes no line).words
      ((Expr.choose condition yes no line).onLine 1) := by
  simp only [Expr.fits, Bool.and_eq_true] at hfits
  obtain ⟨⟨⟨-, hc⟩, hy⟩, hn⟩ := hfits
  have hcond := hcondition.isExpression hc
  have hyes' := means_block (isStatement_of_fits hyes hy)
  have hwords : (Expr.choose condition yes no line).words =
      Word.only .ifWord :: Word.only .leftParen :: (condition.words ++
        Word.only .rightParen :: (braced yes.words ++ otherwise no no.words)) := by
    rw [Expr.words, parenthesised]
    simp only [List.cons_append, List.append_assoc, List.nil_append]
  rw [hwords]
  rcases otherwise_cases no with ⟨hnil, hw⟩ | ⟨c, y, n, l, hone, hw⟩ | hw
  · have hline : no.onLine 1 = ⟨[], 1⟩ := by
      obtain ⟨statements, l⟩ := no
      obtain rfl : statements = [] := hnil
      rfl
    rw [hw, List.append_nil, Expr.onLine, hline]
    refine Means.node (r := .conditionalPlain) rfl (.mark (by decide) (.mark (by decide)
      (.phrase hcond (.mark (by decide) (.last hyes'))))) ?_
    rintro ⟨_, _, _, _, _, _⟩ ⟨rfl, rfl⟩
    rfl
  · have hother : Means .conditional (Expr.choose c y n l).words
        ((Expr.choose c y n l).onLine 1) := by
      have hmem : Expr.choose c y n l ∈ no.statements := by
        rw [hone]
        exact List.mem_singleton_self _
      exact (hno _ hmem).conditional c y n l rfl (Block.fits_iff.mp hn _ hmem)
    have hline : no.onLine 1 = ⟨[(Expr.choose c y n l).onLine 1], 1⟩ := by
      obtain ⟨statements, l'⟩ := no
      obtain rfl : statements = [.choose c y n l] := hone
      rfl
    rw [hw, Expr.onLine, hline]
    refine Means.node (r := .conditionalElseIf) rfl (.mark (by decide) (.mark (by decide)
      (.phrase hcond (.mark (by decide) (.phrase hyes' (.mark (by decide) (.last hother))))))) ?_
    rintro ⟨_, _, _, _, _, _, _, _⟩ ⟨rfl, rfl, rfl⟩
    rfl
  · rw [hw]
    have hno' := means_block (isStatement_of_fits hno hn)
    refine Means.node (r := .conditionalElse) rfl (.mark (by decide) (.mark (by decide)
      (.phrase hcond (.mark (by decide) (.phrase hyes' (.mark (by decide) (.last hno'))))))) ?_
    rintro ⟨_, _, _, _, _, _, _, _⟩ ⟨rfl, rfl, rfl⟩
    rfl

theorem isRead_choose (hcondition : IsRead condition) (hyes : ∀ a ∈ yes.statements, IsRead a)
    (hno : ∀ a ∈ no.statements, IsRead a) : IsRead (.choose condition yes no line) := by
  have hmeans := means_choose line hcondition hyes hno
  refine ⟨fun hfits => ?_, fun hfits => ?_, fun c y n l _ hfits => hmeans hfits⟩
  · cases hfits
  · rw [IsStatement, Expr.ending, List.append_nil]
    exact Means.node (r := .statementConditional) rfl (.last (hmeans hfits)) fun _ hv => hv

end Statement

/-! ### Scripts -/

mutual

/-- Every construct is read as itself. -/
theorem isRead (e : Expr) : IsRead e := by
  cases e with
  | block body => exact ⟨nofun, nofun, nofun⟩
  | literal value line => exact isRead_literal value
  | call callee args line => exact isRead_call (isRead callee) (isRead_all args)
  | identifier name line => exact isRead_identifier name
  | assign name value declares line =>
    cases declares with
    | false => exact isRead_assignment (isRead value)
    | true => exact isRead_declaration (isRead value)
  | function name params binds body line =>
    cases binds with
    | false => exact isRead_lambda (isRead_statements body)
    | true => exact isRead_function (isRead_statements body)
  | returns value line => exact isRead_returns (isRead value)
  | choose condition yes no line =>
    exact isRead_choose (isRead condition) (isRead_statements yes) (isRead_statements no)
  | object fields line => exact isRead_object (isRead_fields fields)
  | field receiver name line => exact isRead_field (isRead receiver)
  | setField receiver name value line => exact isRead_setField (isRead receiver) (isRead value)
  | method receiver name args line => exact isRead_method (isRead receiver) (isRead_all args)

theorem isRead_statements (body : Block) : ∀ a ∈ body.statements, IsRead a := by
  obtain ⟨statements, line⟩ := body
  exact isRead_all statements

theorem isRead_all (es : List Expr) : ∀ a ∈ es, IsRead a := by
  cases es with
  | nil => exact List.forall_mem_nil _
  | cons e es => exact List.forall_mem_cons.mpr ⟨isRead e, isRead_all es⟩

theorem isRead_fields (fields : List (String × Expr)) : ∀ f ∈ fields, IsRead f.2 := by
  cases fields with
  | nil => exact List.forall_mem_nil _
  | cons field fields =>
    obtain ⟨name, e⟩ := field
    exact List.forall_mem_cons.mpr ⟨isRead e, isRead_fields fields⟩

end

end Scriptlet.Grammar

namespace Scriptlet.Parsing

open Grammar Lexical Text

variable {script : Script}

/-- What words that are read as a script are laid out as is read as the script. -/
theorem parse_layOut {ws : List Word} (h : Means .program ws script) :
    parse (String.ofList (layOut ws)) = .ok script := by
  obtain ⟨hreadable, hreads⟩ := h
  obtain ⟨ts, hcut, hoccurs⟩ := exists_cutInto_layOut hreadable (p := .start) rfl
  obtain ⟨d, htokens, hprefers, hvalue⟩ := hreads _ hoccurs
  have hcut' : CutInto .full (Cursor.ofString (String.ofList (layOut ws))) ts := by
    rw [Cursor.ofString, String.toList_ofList]
    exact hcut
  have hwords : words (String.ofList (layOut ws)) = (ts, none) := by
    rw [words, hcut'.cut_eq]
    rfl
  rw [parse_of_words hprefers hwords htokens, Sentence.script, hvalue]

/-- The source text of a script is read as the script. -/
theorem parse_text (h : script.body.fits isPlainName = true) :
    parse script.text = .ok (script.onLine 1) :=
  parse_layOut (means_program script (isStatement_of_fits (isRead_statements _) h))

/-- **Reading undoes writing.** The source text of a script that may be written down is read, and what
is read differs from the script in nothing but lines. -/
theorem parse_text_onLine (script : Script) (h : script.body.fits isPlainName = true) :
    ∃ read, parse script.text = .ok read ∧ ∀ line, read.onLine line = script.onLine line :=
  ⟨script.onLine 1, parse_text h, fun line => script.onLine_onLine line 1⟩

/-- A script in which operators, signs, calls of fields, objects and choices stand side by side. -/
def specimen : Script :=
  let name (s : String) : Expr := .identifier s 7
  let number (n : Int) : Expr := .literal (.int n) 7
  let between (l : Expr) (o : Operator) (r : Expr) : Expr := .call (name o.sign) [l, r] 7
  let choice : Expr := .choose (between (name "a") .lt (name "b"))
    ⟨[.returns (between (between (number 1) .sub (number (-2))) .sub
      (between (number 3) .sub (number 4))) 7], 7⟩
    ⟨[.choose (name "c") ⟨[], 7⟩ ⟨[.returns (.literal .undefined 7) 7], 7⟩ 7], 7⟩ 7
  let objects : Expr := .object
    [("a \"\\\nb", .call (.field (name "a") "m" 7) [] 7), ("if", .method (name "a") "m" [number 5] 7)] 7
  ⟨⟨[.function "f" ["a", "b"] true ⟨[choice], 7⟩ 7,
    .assign "x" (.literal .undefined 7) true 7,
    .assign "x" (.function "lambda" [] false ⟨[objects], 7⟩ 7) true 7,
    .setField (.call (name "f") [.literal (.str "'") 7] 7) "k"
      (.call (name "*") [between (between (number 1) .add (number 2)) .mul (number 3)] 7) 7], 7⟩⟩

theorem parse_text_onLine_specimen :
    specimen.body.fits isPlainName = true ∧
      ∃ read, parse specimen.text = .ok read ∧ ∀ line, read.onLine line = specimen.onLine line :=
  ⟨by decide, parse_text_onLine specimen (by decide)⟩

/-- The text of that script. -/
example : specimen.text =
    "function f(a,b)\x7bif(a<b)\x7breturn 1--2-(3-4);\x7delse if(c)\x7b\x7delse\x7breturn;\x7d\x7d" ++
    "let x;let x=function()\x7b\x7b\"a \\\"\\\\\\nb\":(a.m)(),\"if\":a.m(5)\x7d;\x7d;" ++
    "f(\"'\").k=*((1+2)*3);" := by
  decide +kernel

end Scriptlet.Parsing
