import Scriptlet.Proofs.Parsing.Exactness
import Scriptlet.Proofs.Script.Spelling

/-!
# Words that are read as phrases

For every kind of phrase, which words are read as it and with what meaning. The words are taken to
stand on the first line, in whatever place, so that all constructs get that line.

## What is proved

* `Denotes.node`, `Means.node`: the words of its parts are read as the phrase that a rule makes of them.
* `ReadsAs.enclosed`: an operand is read at any rank once it is between parentheses where it has to be.
* `readsAs_between`, `means_arguments` and the like: the phrases that operators, rows and calls make.
-/

namespace Scriptlet.Grammar

open Lexical

/-- Wherever they stand on the first line, words derive a symbol, so that methods are preferred and the
derivation is as stated. -/
def Derives (s : Symbol) (ws : List Word) (P : Derivation s → Prop) : Prop :=
  ∀ ts, Occurrence ws ts → ∃ d : Derivation s, d.tokens = ts ∧ d.PrefersMethods ∧ P d

/-- Words derive a row of symbols, in the same way. -/
def DerivesRow (ss : List Symbol) (ws : List Word) (Q : Derivations ss → Prop) : Prop :=
  ∀ ts, Occurrence ws ts → ∃ ds : Derivations ss, ds.tokens = ts ∧ ds.PreferMethods ∧ Q ds

/-- Words derive a row of symbols, whose values are as stated. -/
def DerivesAll (ss : List Symbol) (ws : List Word) (Q : Values ss → Prop) : Prop :=
  DerivesRow ss ws fun ds => Q ds.values

/-- Words derive a phrase with the given meaning. -/
def Denotes (c : Category) (ws : List Word) (v : c.Value) : Prop :=
  Derives (.phrase c) ws fun d => d.value = v

/-- Wherever they stand on the first line, readable words derive a symbol, so that methods are
preferred and the derivation is as stated. -/
def Reads (s : Symbol) (ws : List Word) (P : Derivation s → Prop) : Prop :=
  (∀ w ∈ ws, w.Readable) ∧
    ∀ ts, Occurrence ws ts → ∃ d : Derivation s, d.tokens = ts ∧ d.PrefersMethods ∧ P d

/-- Readable words derive a row of symbols, in the same way. -/
def ReadsRow (ss : List Symbol) (ws : List Word) (Q : Derivations ss → Prop) : Prop :=
  (∀ w ∈ ws, w.Readable) ∧
    ∀ ts, Occurrence ws ts → ∃ ds : Derivations ss, ds.tokens = ts ∧ ds.PreferMethods ∧ Q ds

/-- Readable words derive a row of symbols, whose values are as stated. -/
def ReadsAll (ss : List Symbol) (ws : List Word) (Q : Values ss → Prop) : Prop :=
  ReadsRow ss ws fun ds => Q ds.values

/-- Readable words are read as a phrase with the given meaning. -/
def Means (c : Category) (ws : List Word) (v : c.Value) : Prop :=
  Reads (.phrase c) ws fun d => d.value = v

/-- The token is spelled like the word and stands on the first line. -/
def IsWord (w : Word) (t : Token) : Prop := t.word = w.chars ∧ lineOf t = 1

variable {ws ws' : List Word}

/-! ### Rows of words -/

theorem Occurrence.append {ts : List Token} (h : Occurrence (ws ++ ws') ts) :
    ∃ us us', ts = us ++ us' ∧ Occurrence ws us ∧ Occurrence ws' us' := by
  obtain ⟨hmap, hlines⟩ := h
  obtain ⟨us, us', rfl, hus, hus'⟩ := List.map_eq_append_iff.mp hmap
  exact ⟨us, us', rfl, ⟨hus, fun t ht => hlines t (List.mem_append_left _ ht)⟩, hus',
    fun t ht => hlines t (List.mem_append_right _ ht)⟩

theorem derives_word (w : Word) :
    Derives (.word w.kind) [w] fun d => d.value.toWord = w ∧ lineOf d.value = 1 := by
  intro ts hts
  obtain ⟨hmap, hlines⟩ := hts
  obtain ⟨t, rfl, rfl⟩ := List.map_eq_singleton_iff.mp hmap
  have hline : lineOf t = 1 := by rw [lineOf, hlines t List.mem_cons_self]; rfl
  exact ⟨.leaf t, rfl, trivial, rfl, hline⟩

theorem DerivesRow.mono {ss : List Symbol} {Q Q' : Derivations ss → Prop} (h : DerivesRow ss ws Q)
    (hQ : ∀ ds, Q ds → Q' ds) : DerivesRow ss ws Q' := by
  intro ts hts
  obtain ⟨ds, htokens, hds, hq⟩ := h ts hts
  exact ⟨ds, htokens, hds, hQ ds hq⟩

namespace DerivesAll

theorem nil : DerivesAll [] [] fun _ => True := by
  intro ts hts
  obtain rfl := List.map_eq_nil_iff.mp hts.1
  exact ⟨.nil, rfl, trivial, trivial⟩

variable {s : Symbol} {ss : List Symbol} {Q : Values ss → Prop}

theorem cons {P : s.Value → Prop} (h : Derives s ws fun d => P d.value) (hs : DerivesAll ss ws' Q) :
    DerivesAll (s :: ss) (ws ++ ws') fun vs => P vs.1 ∧ Q vs.2 := by
  intro ts hts
  obtain ⟨us, us', rfl, hus, hus'⟩ := Occurrence.append hts
  obtain ⟨d, rfl, hd, hP⟩ := h us hus
  obtain ⟨ds, rfl, hds, hQ⟩ := hs us' hus'
  exact ⟨.cons d ds, rfl, ⟨hd, hds⟩, hP, hQ⟩

/-- A phrase and what follows it. -/
theorem phrase {c : Category} {v : c.Value} (h : Denotes c ws v) (hs : DerivesAll ss ws' Q) :
    DerivesAll (.phrase c :: ss) (ws ++ ws') fun vs => vs.1 = v ∧ Q vs.2 :=
  cons (s := .phrase c) (P := fun u => u = v) h hs

/-- A phrase with nothing after it. -/
theorem last {c : Category} {v : c.Value} (h : Denotes c ws v) :
    DerivesAll [.phrase c] ws fun vs => vs.1 = v := by
  have hs := DerivesRow.mono (phrase h nil) fun ds hds => hds.1
  rwa [List.append_nil] at hs

/-- A word and what follows it. -/
theorem word (w : Word) (hs : DerivesAll ss ws Q) :
    DerivesAll (.word w.kind :: ss) (w :: ws) fun vs => IsWord w vs.1 ∧ Q vs.2 := by
  refine DerivesRow.mono (cons (s := .word w.kind)
    (P := fun t => Token.toWord t = w ∧ lineOf t = 1) (derives_word w) hs) ?_
  rintro ds ⟨⟨hword, hline⟩, hQ⟩
  exact ⟨⟨congrArg Word.chars hword, hline⟩, hQ⟩

/-- A word with one spelling and what follows it. -/
theorem mark {t : Terminal} (hs : DerivesAll ss ws Q) :
    DerivesAll (.word t :: ss) (Word.only t :: ws) fun vs => Q vs.2 :=
  DerivesRow.mono (word (Word.only t) hs) fun _ hds => hds.2

end DerivesAll

/-! ### Rows of readable words -/

theorem ReadsRow.mono {ss : List Symbol} {Q Q' : Derivations ss → Prop} (h : ReadsRow ss ws Q)
    (hQ : ∀ ds, Q ds → Q' ds) : ReadsRow ss ws Q' :=
  ⟨h.1, DerivesRow.mono h.2 hQ⟩

namespace ReadsAll

theorem nil : ReadsAll [] [] fun _ => True := ⟨List.forall_mem_nil _, DerivesAll.nil⟩

variable {s : Symbol} {ss : List Symbol} {Q : Values ss → Prop}

theorem mono {Q' : Values ss → Prop} (h : ReadsAll ss ws Q) (hQ : ∀ vs, Q vs → Q' vs) :
    ReadsAll ss ws Q' :=
  ReadsRow.mono h fun ds => hQ ds.values

/-- A phrase and what follows it. -/
theorem phrase {c : Category} {v : c.Value} (h : Means c ws v) (hs : ReadsAll ss ws' Q) :
    ReadsAll (.phrase c :: ss) (ws ++ ws') fun vs => vs.1 = v ∧ Q vs.2 :=
  ⟨List.forall_mem_append.mpr ⟨h.1, hs.1⟩, DerivesAll.phrase h.2 hs.2⟩

/-- A phrase with nothing after it. -/
theorem last {c : Category} {v : c.Value} (h : Means c ws v) :
    ReadsAll [.phrase c] ws fun vs => vs.1 = v :=
  ⟨h.1, DerivesAll.last h.2⟩

/-- A word and what follows it. -/
theorem word {w : Word} (hw : w.Readable) (hs : ReadsAll ss ws Q) :
    ReadsAll (.word w.kind :: ss) (w :: ws) fun vs => IsWord w vs.1 ∧ Q vs.2 :=
  ⟨List.forall_mem_cons.mpr ⟨hw, hs.1⟩, DerivesAll.word w hs.2⟩

/-- A word with one spelling and what follows it. -/
theorem mark {t : Terminal} (ht : t.spelling ≠ []) (hs : ReadsAll ss ws Q) :
    ReadsAll (.word t :: ss) (Word.only t :: ws) fun vs => Q vs.2 :=
  ⟨List.forall_mem_cons.mpr ⟨Word.readable_only ht, hs.1⟩, DerivesAll.mark hs.2⟩

/-- A name and what follows it. -/
theorem name {n : String} (hn : isPlainName n = true) (hs : ReadsAll ss ws Q) :
    ReadsAll (.word .name :: ss) (nameWord n :: ws)
      fun vs => (Token.text vs.1 = n ∧ lineOf vs.1 = 1) ∧ Q vs.2 := by
  rw [isPlainName, Bool.and_eq_true, Bool.not_eq_true'] at hn
  refine (word (w := nameWord n) (Word.readable_name hn.1 hn.2) hs).mono fun vs hvs => ?_
  exact ⟨⟨(congrArg String.ofList hvs.1.1).trans String.ofList_toList, hvs.1.2⟩, hvs.2⟩

end ReadsAll

/-! ### Phrases made by rules -/

/-- The line of a phrase on the first line. -/
theorem line_eq_one {ss : List Symbol} {ds : Derivations ss} (h : Occurrence ws ds.tokens) :
    ds.line = 1 := by
  rw [ds.line_eq]
  cases hts : ds.tokens with
  | nil => rfl
  | cons t ts =>
    have ht : t.start.line = 1 := h.2 t (by rw [hts]; exact List.mem_cons_self)
    simp [lineOf, ht]

/-- The words of its parts derive the phrase that a rule makes of them, if no field access is called
there. -/
theorem Denotes.of_row {r : Rule} {v : r.makes.Value}
    (h : DerivesRow r.parts ws fun ds => (r.isCall → ds.NoField) ∧ r.build 1 ds.values = v) :
    Denotes r.makes ws v := by
  intro ts hts
  obtain ⟨ds, rfl, hds, hcall, hv⟩ := h ts hts
  refine ⟨.node r ds, rfl, ⟨hcall, hds⟩, ?_⟩
  show r.build ds.line ds.values = v
  rw [line_eq_one hts, hv]

/-- The words of its parts derive the phrase that a rule other than a call makes of them. -/
theorem Denotes.node {r : Rule} {Q : Values r.parts → Prop} {v : r.makes.Value}
    (hr : r.isCall = false) (h : DerivesAll r.parts ws Q) (hv : ∀ vs, Q vs → r.build 1 vs = v) :
    Denotes r.makes ws v := by
  refine Denotes.of_row (DerivesRow.mono h fun ds hds => ⟨fun hcall => ?_, hv _ hds⟩)
  rw [hr] at hcall
  cases hcall

/-- The words of its parts are read as the phrase that a rule makes of them, if no field access is
called there. -/
theorem Means.of_row {r : Rule} {v : r.makes.Value}
    (h : ReadsRow r.parts ws fun ds => (r.isCall → ds.NoField) ∧ r.build 1 ds.values = v) :
    Means r.makes ws v :=
  ⟨h.1, Denotes.of_row h.2⟩

/-- The words of its parts are read as the phrase that a rule other than a call makes of them. -/
theorem Means.node {r : Rule} {Q : Values r.parts → Prop} {v : r.makes.Value}
    (hr : r.isCall = false) (h : ReadsAll r.parts ws Q) (hv : ∀ vs, Q vs → r.build 1 vs = v) :
    Means r.makes ws v :=
  ⟨h.1, Denotes.node hr h.2 hv⟩

/-! ### Operands -/

/-- The words are read as an operand: of a comparison, an addition, a multiplication, or of anything
that binds tighter. -/
def ReadsAs (ws : List Word) (e : Expr) : Nat → Prop
  | 0 => Means .expression ws e
  | 1 => Means .sum ws e
  | 2 => Means .product ws e
  | _ => Means .chain ws e

variable {e e' : Expr} {n m : Nat}

/-- What binds tighter is an operand of what binds less tightly. -/
theorem ReadsAs.loosen (h : ReadsAs ws e (n + 1)) : ReadsAs ws e n := by
  match n with
  | 0 => exact Means.node (r := .expressionSum) rfl (.last h) fun _ hv => hv
  | 1 => exact Means.node (r := .sumProduct) rfl (.last h) fun _ hv => hv
  | 2 => exact Means.node (r := .productChain) rfl (.last h) fun _ hv => hv
  | n + 3 => exact h

theorem ReadsAs.mono (h : ReadsAs ws e m) (hn : n ≤ m) : ReadsAs ws e n := by
  induction hn with
  | refl => exact h
  | step _ ih => exact ih h.loosen

theorem readsAs_of_chain (h : Means .chain ws e) (n : Nat) : ReadsAs ws e n :=
  ReadsAs.mono (m := n + 3) h (Nat.le_add_right n 3)

theorem readsAs_of_primary (h : Means .primary ws e) (n : Nat) : ReadsAs ws e n :=
  readsAs_of_chain (Means.node (r := .chainPrimary) rfl (.last h) fun _ hv => hv) n

theorem means_parenthesised (h : Means .expression ws e) :
    Means .primary (parenthesised ws) e := by
  refine Means.node (r := .primaryParenthesised) rfl
    (.mark (by decide) (.phrase h (.mark (by decide) .nil))) ?_
  rintro ⟨_, v, _⟩ ⟨rfl, -⟩
  rfl

/-- An operand is read at any rank once it is between parentheses where it has to be. -/
theorem ReadsAs.enclosed {needed : Bool} (h : ReadsAs ws e m) (hn : needed = false → n ≤ m) :
    ReadsAs (enclosed needed ws) e n := by
  cases needed with
  | false => exact h.mono (hn rfl)
  | true => exact readsAs_of_primary (means_parenthesised (h.mono (Nat.zero_le m))) n

/-- An operator between its operands; chains of operators group to the left. -/
theorem readsAs_between {o : Operator} (h : ReadsAs ws e o.rank)
    (h' : ReadsAs ws' e' (o.rank + 1)) :
    ReadsAs (ws ++ Operator.word o :: ws') (.call (.identifier o.sign 1) [e, e'] 1) o.rank := by
  have hword := Word.readable_operator o
  have hcall : ∀ t : Token, IsWord (Operator.word o) t →
      infixCall 1 e t e' = .call (.identifier o.sign 1) [e, e'] 1 := by
    rintro t ⟨hword, hline⟩
    rw [infixCall, Token.text, hword, hline, Operator.word, String.ofList_toList]
  cases o
  case add | sub =>
    refine Means.node (r := .sumSign) rfl (.phrase h (.word hword (.last h'))) ?_
    rintro ⟨_, t, _⟩ ⟨rfl, ht, rfl⟩
    exact hcall t ht
  case mul | div | mod =>
    refine Means.node (r := .productFactor) rfl (.phrase h (.word hword (.last h'))) ?_
    rintro ⟨_, t, _⟩ ⟨rfl, ht, rfl⟩
    exact hcall t ht
  case eq | ne | lt | le | gt | ge =>
    refine Means.node (r := .expressionComparison) rfl (.phrase h (.word hword (.last h'))) ?_
    rintro ⟨_, t, _⟩ ⟨rfl, ht, rfl⟩
    exact hcall t ht

/-! ### Rows of phrases -/

/-- What is read one piece after the other: if one more piece can always be read, so can a whole row of
them. -/
theorem reads_row {α β : Type} {M : List Word → List β → Prop} {words : α → List Word}
    (value : α → β) {as : List α} {vs : List β}
    (hmore : ∀ a ∈ as, ∀ ws vs, M ws vs → M (ws ++ words a) (vs ++ [value a])) (h : M ws vs) :
    M (ws ++ as.flatMap words) (vs ++ as.map value) := by
  induction as generalizing ws vs with
  | nil => simpa using h
  | cons a as ih =>
    have ha := hmore a List.mem_cons_self ws vs h
    have has := ih (fun b hb => hmore b (List.mem_cons_of_mem _ hb)) ha
    simpa using has

variable {name : String} {names : List String}

theorem means_moreParameters (h : ∀ n ∈ name :: names, isPlainName n = true) :
    Means .moreParameters (moreNames (name :: names)) (name :: names) := by
  rw [List.forall_mem_cons] at h
  have hone : Means .moreParameters [Word.only .comma, nameWord name] [name] := by
    refine Means.node (r := .moreParametersOne) rfl (.mark (by decide) (.name h.1 .nil)) ?_
    rintro ⟨_, t, _⟩ ⟨⟨rfl, -⟩, -⟩
    rfl
  have hmore : ∀ n ∈ names, ∀ (ws : List Word) (vs : List String), Means .moreParameters ws vs →
      Means .moreParameters (ws ++ [Word.only .comma, nameWord n]) (vs ++ [n]) := by
    intro n hn ws vs hvs
    refine Means.node (r := .moreParametersMore) rfl
      (.phrase hvs (.mark (by decide) (.name (h.2 n hn) .nil))) ?_
    rintro ⟨_, _, t, _⟩ ⟨rfl, ⟨rfl, -⟩, -⟩
    exact List.concat_eq_append
  have hrow := reads_row id hmore hone
  rwa [List.map_id] at hrow

theorem means_parameters (h : ∀ n ∈ name :: names, isPlainName n = true) :
    Means .parameters (nameList (name :: names)) (name :: names) := by
  have hname := h name List.mem_cons_self
  cases names with
  | nil =>
    refine Means.node (r := .parametersOne) rfl (.name hname .nil) ?_
    rintro ⟨t, _⟩ ⟨⟨rfl, -⟩, -⟩
    rfl
  | cons other names =>
    have hothers := means_moreParameters fun n hn => h n (List.mem_cons_of_mem _ hn)
    refine Means.node (r := .parametersMore) rfl (.name hname (.last hothers)) ?_
    rintro ⟨t, _, _⟩ ⟨⟨rfl, -⟩, rfl⟩
    rfl

variable {es : List Expr}

/-- The construct is read as an expression with the meaning that it has on the first line. -/
def IsExpression (e : Expr) : Prop := Means .expression e.words (e.onLine 1)

theorem means_moreArguments (h : ∀ a ∈ e :: es, IsExpression a) :
    Means .moreArguments (moreArgumentWords (e :: es)) (allOnLine 1 (e :: es)) := by
  rw [List.forall_mem_cons] at h
  have hone : Means .moreArguments (Word.only .comma :: e.words) [e.onLine 1] := by
    refine Means.node (r := .moreArgumentsOne) rfl (.mark (by decide) (.last h.1)) ?_
    rintro ⟨_, v, _⟩ rfl
    rfl
  have hmore : ∀ a ∈ es, ∀ (ws : List Word) (vs : List Expr), Means .moreArguments ws vs →
      Means .moreArguments (ws ++ Word.only .comma :: a.words) (vs ++ [a.onLine 1]) := by
    intro a ha ws vs hvs
    refine Means.node (r := .moreArgumentsMore) rfl
      (.phrase hvs (.mark (by decide) (.last (h.2 a ha)))) ?_
    rintro ⟨_, _, v, _⟩ ⟨rfl, rfl⟩
    exact List.concat_eq_append
  rw [moreArgumentWords, moreArgumentWords_eq, allOnLine, allOnLine_eq]
  exact reads_row _ hmore hone

theorem means_arguments (h : ∀ a ∈ e :: es, IsExpression a) :
    Means .arguments (argumentWords (e :: es)) (allOnLine 1 (e :: es)) := by
  have he := h e List.mem_cons_self
  cases es with
  | nil =>
    rw [argumentWords, moreArgumentWords, List.append_nil]
    refine Means.node (r := .argumentsOne) rfl (.last he) ?_
    rintro ⟨v, _⟩ rfl
    rfl
  | cons e' es =>
    have hothers := means_moreArguments fun a ha => h a (List.mem_cons_of_mem _ ha)
    refine Means.node (r := .argumentsMore) rfl (.phrase he (.last hothers)) ?_
    rintro ⟨v, _, _⟩ ⟨rfl, rfl⟩
    rfl

variable {field : String × Expr} {fields : List (String × Expr)}

theorem unquote_stringWord (s : String) : unquote (stringWord s).chars = s := by
  rw [stringWord, unquote_of_spells (spells_escape s.toList), String.ofList_toList]

theorem readable_stringWord (s : String) : (stringWord s).Readable :=
  Word.readable_string (.inl rfl) (spells_escape s.toList)

theorem means_field (h : IsExpression field.2) :
    Means .field (stringWord field.1 :: Word.only .colon :: field.2.words)
      (field.1, field.2.onLine 1) := by
  refine Means.node (r := .fieldString) rfl
    (.word (readable_stringWord field.1) (.mark (by decide) (.last h))) ?_
  rintro ⟨t, _, v, _⟩ ⟨⟨ht, -⟩, rfl⟩
  show (unquote (Token.word t), _) = _
  rw [ht, unquote_stringWord]

section Fields

variable {α : Type} {words : α → List Word} {value : α → String × Expr} {a : α} {as : List α}

/-- Fields after the first, each after a comma. -/
theorem denotes_moreFields (h : ∀ b ∈ a :: as, Denotes .field (words b) (value b)) :
    Denotes .moreFields ((a :: as).flatMap fun b => Word.only .comma :: words b)
      ((a :: as).map value) := by
  rw [List.forall_mem_cons] at h
  have hone : Denotes .moreFields (Word.only .comma :: words a) [value a] := by
    refine Denotes.node (r := .moreFieldsOne) rfl (.mark (.last h.1)) ?_
    rintro ⟨_, v, _⟩ rfl
    rfl
  have hmore : ∀ b ∈ as, ∀ (ws : List Word) (vs : List (String × Expr)),
      Denotes .moreFields ws vs →
      Denotes .moreFields (ws ++ Word.only .comma :: words b) (vs ++ [value b]) := by
    intro b hb ws vs hvs
    refine Denotes.node (r := .moreFieldsMore) rfl (.phrase hvs (.mark (.last (h.2 b hb)))) ?_
    rintro ⟨_, _, v, _⟩ ⟨rfl, rfl⟩
    exact List.concat_eq_append
  exact reads_row value hmore hone

/-- Fields with commas between them. -/
theorem denotes_fields (h : ∀ b ∈ a :: as, Denotes .field (words b) (value b)) :
    Denotes .fields (words a ++ as.flatMap fun b => Word.only .comma :: words b)
      ((a :: as).map value) := by
  have ha := h a List.mem_cons_self
  cases as with
  | nil =>
    rw [List.flatMap_nil, List.append_nil]
    refine Denotes.node (r := .fieldsOne) rfl (.last ha) ?_
    rintro ⟨v, _⟩ rfl
    rfl
  | cons b as =>
    have hothers := denotes_moreFields fun b hb => h b (List.mem_cons_of_mem _ hb)
    refine Denotes.node (r := .fieldsMore) rfl (.phrase ha (.last hothers)) ?_
    rintro ⟨v, _, _⟩ ⟨rfl, rfl⟩
    rfl

end Fields

theorem means_fields (h : ∀ f ∈ field :: fields, IsExpression f.2) :
    Means .fields (fieldWords (field :: fields)) (fieldsOnLine 1 (field :: fields)) := by
  have hmeans := fun f hf => means_field (h f hf)
  rw [fieldWords, moreFieldWords_eq, fieldsOnLine_eq]
  refine ⟨List.forall_mem_append.mpr ⟨(hmeans field List.mem_cons_self).1, fun w hw => ?_⟩,
    denotes_fields fun f hf => (hmeans f hf).2⟩
  obtain ⟨f, hf, hw⟩ := List.mem_flatMap.mp hw
  have hreadable := List.forall_mem_cons.mpr
    ⟨Word.readable_only (t := .comma) (by decide), (hmeans f (List.mem_cons_of_mem _ hf)).1⟩
  exact hreadable w hw

/-- The construct is read as a statement with the meaning that it has on the first line. -/
def IsStatement (e : Expr) : Prop := Means .statement (e.words ++ e.ending) (e.onLine 1)

theorem means_statements (h : ∀ a ∈ e :: es, IsStatement a) :
    Means .statements (statementWords (e :: es)) (allOnLine 1 (e :: es)) := by
  rw [List.forall_mem_cons] at h
  have hone : Means .statements (e.words ++ e.ending) [e.onLine 1] := by
    refine Means.node (r := .statementsOne) rfl (.last h.1) ?_
    rintro ⟨v, _⟩ rfl
    rfl
  have hmore : ∀ a ∈ es, ∀ (ws : List Word) (vs : List Expr), Means .statements ws vs →
      Means .statements (ws ++ (a.words ++ a.ending)) (vs ++ [a.onLine 1]) := by
    intro a ha ws vs hvs
    refine Means.node (r := .statementsMore) rfl (.phrase hvs (.last (h.2 a ha))) ?_
    rintro ⟨_, v, _⟩ ⟨rfl, rfl⟩
    exact List.concat_eq_append
  rw [statementWords, statementWords_eq, allOnLine, allOnLine_eq]
  exact reads_row _ hmore hone

theorem means_block {body : Block} (h : ∀ a ∈ body.statements, IsStatement a) :
    Means .block (braced body.words) (body.onLine 1) := by
  obtain ⟨statements, line⟩ := body
  cases statements with
  | nil =>
    exact Means.node (r := .blockEmpty) rfl (.mark (by decide) (.mark (by decide) .nil))
        fun _ _ => rfl
  | cons e es =>
    refine Means.node (r := .blockStatements) rfl
      (.mark (by decide) (.phrase (means_statements h) (.mark (by decide) .nil))) ?_
    rintro ⟨_, vs, _⟩ ⟨rfl, -⟩
    rfl

theorem means_program (script : Script) (h : ∀ a ∈ script.body.statements, IsStatement a) :
    Means .program script.body.words (script.onLine 1) := by
  obtain ⟨⟨statements, line⟩⟩ := script
  cases statements with
  | nil => exact Means.node (r := .programEmpty) rfl .nil fun _ _ => rfl
  | cons e es =>
    refine Means.node (r := .programStatements) rfl (.last (means_statements h)) ?_
    rintro ⟨vs, _⟩ rfl
    rfl

/-! ### Calls -/

/-- The words are read as what is called, where a field access would be taken for a method. -/
def ReadsCallee (ws : List Word) (e : Expr) : Prop :=
  Reads (.phrase .chain) ws fun d => d.value = e ∧ d.fieldParts? = none

theorem Derivations.noField_of_notMem {ss : List Symbol} (ds : Derivations ss)
    (h : .phrase .chain ∉ ss) : ds.NoField := by
  induction ss with
  | nil =>
    obtain _ | _ := ds
    trivial
  | cons s ss ih =>
    obtain _ | ⟨d, ds⟩ := ds
    rw [List.mem_cons, not_or] at h
    exact ⟨d.fieldParts?_eq_none (Ne.symm h.1), ih ds h.2⟩

/-- A derivation that is a field access means one. -/
theorem Derivation.isField_of_fieldParts? {s : Symbol} (d : Derivation s)
    {parts : Derivations Rule.chainField.parts} (hs : s = .phrase .chain)
    (h : d.fieldParts? = some parts) :
    Expr.isField (hs ▸ d : Derivation (.phrase .chain)).value = true := by
  cases d with
  | leaf token => cases h
  | node rule ps =>
    cases rule
    case chainField =>
      obtain _ | ⟨receiver, _ | ⟨dot, _ | ⟨name, _ | _⟩⟩⟩ := ps
      rfl
    all_goals cases h

/-- What is called is read as such once it is between parentheses where it has to be. -/
theorem readsCallee_enclosed {needed : Bool} (h : ReadsAs ws e m)
    (hn : needed = false → Operator.tight ≤ m ∧ e.isField = false) :
    ReadsCallee (enclosed needed ws) e := by
  cases needed with
  | false =>
    obtain ⟨hm, hfield⟩ := hn rfl
    have hchain : Means .chain ws e := h.mono (n := 3) hm
    refine ⟨hchain.1, fun ts hts => ?_⟩
    obtain ⟨d, htokens, hd, rfl⟩ := hchain.2 ts hts
    refine ⟨d, htokens, hd, rfl, ?_⟩
    cases hparts : d.fieldParts? with
    | none => rfl
    | some parts =>
      rw [d.isField_of_fieldParts? rfl hparts] at hfield
      cases hfield
  | true =>
    have hprimary := means_parenthesised (h.mono (Nat.zero_le m))
    refine ⟨hprimary.1, fun ts hts => ?_⟩
    obtain ⟨d, rfl, hd, rfl⟩ := hprimary.2 ts hts
    exact ⟨.node .chainPrimary (.cons d .nil), List.append_nil _, ⟨nofun, hd, trivial⟩, rfl, rfl⟩

/-- What is called and what follows it, in which nothing else could be a field access. -/
theorem ReadsCallee.cons {ss : List Symbol} {Q : Values ss → Prop} (h : ReadsCallee ws e)
    (hss : .phrase .chain ∉ ss) (hs : ReadsAll ss ws' Q) :
    ReadsRow (.phrase .chain :: ss) (ws ++ ws')
      fun ds => ds.NoField ∧ ds.values.1 = e ∧ Q ds.values.2 := by
  refine ⟨List.forall_mem_append.mpr ⟨h.1, hs.1⟩, fun ts hts => ?_⟩
  obtain ⟨us, us', rfl, hus, hus'⟩ := Occurrence.append hts
  obtain ⟨d, rfl, hd, hvalue, hfield⟩ := h.2 us hus
  obtain ⟨ds, rfl, hds, hQ⟩ := hs.2 us' hus'
  exact ⟨.cons d ds, rfl, ⟨hd, hds⟩, ⟨hfield, ds.noField_of_notMem hss⟩, hvalue, hQ⟩

/-- Arguments between parentheses, if there are any. -/
theorem readsAll_arguments (h : ∀ a ∈ e :: es, IsExpression a) :
    ReadsAll [.word .leftParen, .phrase .arguments, .word .rightParen]
      (parenthesised (argumentWords (e :: es))) fun vs => vs.2.1 = allOnLine 1 (e :: es) := by
  refine (ReadsAll.mark (by decide) (.phrase (means_arguments h) (.mark (by decide) .nil))).mono ?_
  exact fun vs hvs => hvs.1

/-- Parentheses without arguments. -/
theorem readsAll_noArguments :
    ReadsAll [.word .leftParen, .word .rightParen] (parenthesised (argumentWords []))
      fun _ => True :=
  .mark (by decide) (.mark (by decide) .nil)

theorem means_call (hcallee : ReadsCallee ws e) (h : ∀ a ∈ es, IsExpression a) :
    Means .chain (ws ++ parenthesised (argumentWords es)) (.call e (allOnLine 1 es) 1) := by
  cases es with
  | nil =>
    refine Means.of_row (r := .chainCall)
      ((hcallee.cons (by decide) readsAll_noArguments).mono fun ds hds => ⟨fun _ => hds.1, ?_⟩)
    obtain ⟨-, rfl, -⟩ := hds
    rfl
  | cons a as =>
    refine Means.of_row (r := .chainCallArguments)
      ((hcallee.cons (by decide) (readsAll_arguments h)).mono fun ds hds => ⟨fun _ => hds.1, ?_⟩)
    obtain ⟨-, rfl, hargs⟩ := hds
    rw [← hargs]
    rfl

theorem means_method (he : Means .chain ws e) (hname : isPlainName name = true)
    (h : ∀ a ∈ es, IsExpression a) :
    Means .chain (ws ++ Word.only .dot :: nameWord name :: parenthesised (argumentWords es))
      (.method e name (allOnLine 1 es) 1) := by
  cases es with
  | nil =>
    refine Means.node (r := .chainMethod) rfl
      (.phrase he (.mark (by decide) (.name hname readsAll_noArguments))) ?_
    rintro ⟨_, _, t, _⟩ ⟨rfl, ⟨rfl, -⟩, -⟩
    rfl
  | cons a as =>
    refine Means.node (r := .chainMethodArguments) rfl
      (.phrase he (.mark (by decide) (.name hname (readsAll_arguments h)))) ?_
    rintro ⟨_, _, t, _, _, _⟩ ⟨rfl, ⟨rfl, -⟩, rfl⟩
    rfl

/-- An operator called like a function. -/
theorem means_operatorCall (o : Operator) (h : ∀ a ∈ es, IsExpression a) :
    Means .primary (Operator.word o :: parenthesised (argumentWords es))
      (.call (.identifier o.sign 1) (allOnLine 1 es) 1) := by
  have hword := Word.readable_operator o
  have hcall : ∀ t : Token, IsWord (Operator.word o) t → ∀ args,
      operatorCall 1 t args = .call (.identifier o.sign 1) args 1 := by
    rintro t ⟨hword, -⟩ args
    rw [operatorCall, Token.text, hword, Operator.word, String.ofList_toList]
  cases es with
  | nil =>
    cases o
    case add | sub =>
      exact Means.node (r := .primarySignCall) rfl (.word hword readsAll_noArguments)
        fun vs hvs => hcall vs.1 hvs.1 []
    case mul | div | mod =>
      exact Means.node (r := .primaryFactorCall) rfl (.word hword readsAll_noArguments)
        fun vs hvs => hcall vs.1 hvs.1 []
    case eq | ne | lt | le | gt | ge =>
      exact Means.node (r := .primaryComparisonCall) rfl (.word hword readsAll_noArguments)
        fun vs hvs => hcall vs.1 hvs.1 []
  | cons a as =>
    have hargs := readsAll_arguments h
    cases o
    case add | sub =>
      refine Means.node (r := .primarySignCallArguments) rfl (.word hword hargs) ?_
      rintro ⟨t, _, _, _⟩ ⟨ht, rfl⟩
      exact hcall t ht _
    case mul | div | mod =>
      refine Means.node (r := .primaryFactorCallArguments) rfl (.word hword hargs) ?_
      rintro ⟨t, _, _, _⟩ ⟨ht, rfl⟩
      exact hcall t ht _
    case eq | ne | lt | le | gt | ge =>
      refine Means.node (r := .primaryComparisonCallArguments) rfl (.word hword hargs) ?_
      rintro ⟨t, _, _, _⟩ ⟨ht, rfl⟩
      exact hcall t ht _

end Scriptlet.Grammar
