import Scriptlet.Proofs.Grammar.Variables
import Scriptlet.Proofs.Parsing.Expected
import Scriptlet.Proofs.Parsing.Insertion

/-!
# Reserved words as names

The reader looks for a reserved word only where it can do something with it. Everywhere else the same
characters are a name. So where a reserved word names a variable, no sentence could have gone on with the
word itself. This rules out all but `else` for a variable that is assigned to, and `function` for one that
is read. Nothing is ruled out where only a name can stand: after `var` every word of the form of a name is
declared.

## What is proved

* `Reads.namesYield`: a word is a name only where the reserved word of its spelling cannot come as itself.
* `reserved_of_parse`: so it is with all names of a text, and this rules out reserved words for variables.
* `parse_declaration`: after `var` any name is declared.
-/

namespace Scriptlet.Lexical

/-- A word is not found as a name if it is looked for as a reserved one. -/
theorem Vocabulary.eq_false_of_split?_name {v : Vocabulary} {cs word rest : List Char}
    (h : v.split? cs = some (.name, word, rest)) {k : Terminal} (hk : k.reserved? = some word) :
    v k = false := by
  rw [Bool.eq_false_iff]
  intro hv
  obtain ⟨u, -, hu⟩ := List.exists_of_findSome?_eq_some h
  simp only [Option.map_eq_some_iff, Prod.mk.injEq, Prod.exists] at hu
  obtain ⟨w, r, -, hkind, rfl, rfl⟩ := hu
  rw [Vocabulary.kindOf] at hkind
  split at hkind
  next =>
    rw [Vocabulary.kindOfName_of_reserved hk hv] at hkind
    rw [hkind] at hk
    cases hk
  next hname => exact hname hkind

/-- A name stands before what does not go on with it, if it is looked for and not as a reserved word. -/
theorem next?_name {v : Vocabulary} {word rest : List Char} (hform : isNameForm word = true)
    (hrest : ∀ d ∈ rest.head?, isNamePart d = false) (hv : v .name = true)
    (hreserved : ∀ k : Terminal, k.reserved? = some word → v k = false) (p : Text.Position) :
    Cursor.next? v ⟨p, word ++ rest⟩ =
      some (⟨.name, word, p, p.advance word⟩, ⟨p.advance word, rest⟩) := by
  have hkind : v.kindOfName word = .name := by
    rw [Vocabulary.kindOfName, List.find?_eq_none.mpr, Option.getD_none]
    intro k _ hk
    rw [Bool.and_eq_true, beq_iff_eq] at hk
    rw [hreserved k hk.2] at hk
    cases hk.1
  have hsplit : Terminal.name.split? (word ++ rest) = some (word, rest) := by
    cases word with
    | nil => cases hform
    | cons first others =>
      rw [isNameForm, Bool.and_eq_true, List.all_eq_true] at hform
      exact splitHead_append hform.1 hform.2 hrest
  rw [Cursor.next?, Vocabulary.split?_of_name hv hsplit, hkind]
  rfl

theorem isSpace_head_of_isNameForm {word : List Char} (h : isNameForm word = true) (rest : List Char) :
    ∀ d ∈ (word ++ rest).head?, isSpace d = false := by
  have hpart := isNamePart_of_isNameForm h
  cases word with
  | nil => cases h
  | cons first others =>
    exact isSpace_head (isSpace_eq_false_of_isNamePart (hpart first List.mem_cons_self))

/-- No reserved word is the sign of an operator. -/
theorem ofSign?_eq_none_of_reserved {k : Terminal} {s : String} (hk : k.reserved? = some s.toList) :
    Operator.ofSign? s = none := by
  rw [← String.ofList_toList (s := s)]
  revert hk
  generalize s.toList = w
  cases k <;> intro hk <;> cases hk <;> decide

end Scriptlet.Lexical

namespace Scriptlet.Parsing

open Scriptlet.Grammar Scriptlet.Lexical Scriptlet.Text

variable {stack : Stack} {c c' d : Cursor} {t : Token}
  {ts before after : List Token} {source : String} {script : Script}

/-! ### Declarations -/

/-- After `var` nothing is looked for but a name. -/
theorem eq_name_of_vocabulary_after_var {n : Nat} {var : Derivation (.word .varWord)} {below : Stack}
    (hvalid : Stack.Valid .ofGrammar (⟨n, .word .varWord, var⟩ :: below)) {k : Terminal}
    (hi : k.isIgnored = false)
    (h : Stack.vocabulary .ofGrammar (⟨n, .word .varWord, var⟩ :: below) k = true) : k = .name := by
  have hname : ∀ f ∈ followers (.word .varWord), f = some (.word .name) := by decide
  obtain ⟨i, -, hfollows, hword⟩ :=
    exists_follower_of_vocabulary ofGrammar_obeys ofGrammar_grounded hvalid hi h
  exact (hword .name (hname _ hfollows)).symm

/-- A word that a sentence goes on with after those taken is taken too. -/
theorem Takes.exists_word {stack' : Stack} (h : Takes .ofGrammar [] c ts stack' c')
    (hnext : c'.next? (stack'.vocabulary .ofGrammar) = some (t, d)) (hi : t.kind.isIgnored = false)
    (hbegins : Begins (kinds ts ++ [t.kind])) :
    ∃ n settled, Takes .ofGrammar [] c (ts ++ [t]) (⟨n, .word t.kind, .leaf t⟩ :: settled) d := by
  obtain ⟨⟨settled, n, hsettle⟩, -⟩ := h.exists_goOn hbegins
  exact ⟨n, settled, h.append (.word hnext hi hsettle .nil)⟩

theorem Takes.exists_full {stack' : Stack} (h : Takes .ofGrammar [] c ts stack' c')
    (hnext : c'.next? .full = some (t, d)) (hi : t.kind.isIgnored = false)
    (hbegins : Begins (kinds ts ++ [t.kind])) :
    ∃ n settled, Takes .ofGrammar [] c (ts ++ [t]) (⟨n, .word t.kind, .leaf t⟩ :: settled) d :=
  h.exists_word (Cursor.next?_of_full hnext (h.exists_goOn hbegins).2) hi hbegins

/-- What is taken up to the end of a text is read, if it is a sentence. -/
theorem Takes.parse_eq (h : Takes .ofGrammar [] (Cursor.ofString source) ts stack c) (hend : c.rest = [])
    {e : Sentence} (he : e.PrefersMethods) (htokens : e.tokens = significant ts) :
    parse source = .ok e.script := by
  have hacc := accepts_tokens ofGrammar_obeys he
  rw [htokens, ← List.append_nil (significant ts)] at hacc
  have hdone := (h.accepts ofGrammar_obeys hacc).settle_finish ofGrammar_obeys stack.potential_lt
  rw [parse, parseSentence, parseWith, h.parseFrom_eq hend hdone (Nat.lt_succ_self _)]
  rfl

/-- The sentence that declares a variable. -/
def declarationOf (word : List Char) (p q r : Position) : Sentence :=
  let declaration : Derivation (.phrase .declaration) :=
    .node .declarationVar (.cons (.leaf ⟨.varWord, ['v', 'a', 'r'], p, p.advance ['v', 'a', 'r']⟩)
      (.cons (.leaf ⟨.name, word, q, q.advance word⟩)
        (.cons (.leaf ⟨.semicolon, [';'], r, r.advance [';']⟩) .nil)))
  .node .programStatements
    (.cons (.node .statementsOne (.cons (.node .statementDeclaration (.cons declaration .nil)) .nil)) .nil)

theorem prefersMethods_declarationOf (word : List Char) (p q r : Position) :
    (declarationOf word p q r).PrefersMethods := by
  simp [declarationOf, Derivation.PrefersMethods, Derivations.PreferMethods, Rule.isCall]

theorem begins_varWord : Begins [.varWord] :=
  ⟨declarationOf [] .start .start .start, [.name, .semicolon], rfl⟩

theorem begins_varWord_name : Begins [.varWord, .name] :=
  ⟨declarationOf [] .start .start .start, [.semicolon], rfl⟩

theorem begins_varWord_name_semicolon : Begins [.varWord, .name, .semicolon] :=
  ⟨declarationOf [] .start .start .start, [], rfl⟩

/-- The place after `var` at the start of a text. -/
def afterVar : Position := Position.start.advance ['v', 'a', 'r']

/-- The place after `var` and a blank. -/
def afterVarBlank : Position := afterVar.advance [' ']

/-- After `var` and a blank a name is looked for, and nothing else that means something. -/
theorem exists_takes_var {rest : List Char} (hrest : ∀ d ∈ rest.head?, isSpace d = false) :
    ∃ ts stack, Takes .ofGrammar [] ⟨.start, 'v' :: 'a' :: 'r' :: ' ' :: rest⟩ ts stack
        ⟨afterVarBlank, rest⟩ ∧
      significant ts = [⟨.varWord, ['v', 'a', 'r'], .start, afterVar⟩] ∧
      ∀ k : Terminal, k.isIgnored = false → (stack.vocabulary .ofGrammar k = true ↔ k = .name) := by
  have hvar : Cursor.next? .full ⟨.start, 'v' :: 'a' :: 'r' :: ' ' :: rest⟩ =
      some (⟨.varWord, ['v', 'a', 'r'], .start, afterVar⟩, ⟨afterVar, ' ' :: rest⟩) :=
    (Word.readable_reserved (t := .varWord) rfl).next? (fun d hd => by cases hd; rfl) _
  have hnone : Takes .ofGrammar [] ⟨.start, 'v' :: 'a' :: 'r' :: ' ' :: rest⟩ [] [] _ := .nil
  obtain ⟨n, below, htakes⟩ := hnone.exists_full hvar rfl begins_varWord
  have hblank := htakes.append (.ignored (Cursor.next?_of_full (next?_blank hrest _)
    (State.vocabulary_of_isIgnored _ rfl)) rfl .nil)
  refine ⟨_, _, hblank, rfl, fun k hi => ⟨eq_name_of_vocabulary_after_var (hblank.valid .nil).1 hi, ?_⟩⟩
  rintro rfl
  exact (hblank.exists_goOn (t := ⟨.name, [], .start, .start⟩) begins_varWord_name).2

/-- **After `var` any word of the form of a name is declared**, reserved ones included. -/
theorem parse_declaration {name : String} (h : isName name = true) :
    parse ("var " ++ name ++ ";") = .ok ⟨⟨[.assign name (.literal .undefined 1) true 1], 1⟩⟩ := by
  obtain ⟨word, hword⟩ : ∃ word, name.toList = word := ⟨_, rfl⟩
  rw [isName, hword] at h
  have hsource : Cursor.ofString ("var " ++ name ++ ";") =
      ⟨.start, 'v' :: 'a' :: 'r' :: ' ' :: (word ++ [';'])⟩ := by
    rw [Cursor.ofString, String.toList_append, String.toList_append, hword]
    rfl
  obtain ⟨ts, stack, hvar, hts, hlooked⟩ := exists_takes_var (isSpace_head_of_isNameForm h [';'])
  have hkinds : kinds ts = [.varWord] := congrArg (List.map Token.kind) hts
  -- no reserved word is looked for, so the word is a name
  have hreserved : ∀ k : Terminal, k.reserved? = some word → stack.vocabulary .ofGrammar k = false := by
    intro k hk
    rw [Bool.eq_false_iff]
    intro hv
    have hi : k.isIgnored = false := by
      cases k <;> first | rfl | cases hk
    obtain rfl := (hlooked k hi).mp hv
    cases hk
  have hend : ∀ d ∈ [';'].head?, isNamePart d = false := by
    rintro d ⟨⟩
    rfl
  have hname := next?_name h hend ((hlooked .name rfl).mpr rfl) hreserved afterVarBlank
  obtain ⟨_, _, hnamed⟩ := hvar.exists_word hname rfl (hkinds ▸ begins_varWord_name)
  have hsemicolon : Cursor.next? .full ⟨afterVarBlank.advance word, [';']⟩ =
      some (⟨.semicolon, [';'], afterVarBlank.advance word, (afterVarBlank.advance word).advance [';']⟩,
        ⟨(afterVarBlank.advance word).advance [';'], []⟩) := rfl
  obtain ⟨_, _, hall⟩ := hnamed.exists_full hsemicolon rfl (by
    rw [kinds_append, hkinds]
    exact begins_varWord_name_semicolon)
  rw [← hsource] at hall
  rw [hall.parse_eq rfl
    (prefersMethods_declarationOf word .start afterVarBlank (afterVarBlank.advance word)) ?_]
  · show Except.ok (Script.mk ⟨[.assign (String.ofList word) (.literal .undefined 1) true 1], 1⟩) = _
    rw [← hword, String.ofList_toList]
  · rw [significant_append, significant_append, hts]
    rfl

/-! ### Names that could be reserved words -/

/-- The words of a sentence that is read are spelled like what they are. -/
theorem Reads.wellFormed {e : Sentence} (h : Reads source ts e) : ∀ t ∈ e.tokens, t.WellFormed := by
  rw [h.sentence.1]
  obtain ⟨stack, c, htakes, hend, -⟩ := h
  have htiled := Tiled.of_readInto (htakes.readUpTo.readInto hend)
  exact fun t ht => Token.wellFormed_of_mem htiled t (List.mem_of_mem_filter ht)

theorem exists_of_significant_eq (h : significant ts = before ++ t :: after) :
    ∃ us vs, ts = us ++ t :: vs ∧ significant us = before := by
  obtain ⟨us, vs, rfl, hus, hvs⟩ := List.filter_eq_append_iff.mp h
  obtain ⟨ignored, vs, rfl, hignored, -, -⟩ := List.filter_eq_cons_iff.mp hvs
  refine ⟨us ++ ignored, vs, (List.append_assoc _ _ _).symm, ?_⟩
  have hnone : significant ignored = [] := List.filter_eq_nil_iff.mpr hignored
  rw [significant_append, hnone, List.append_nil]
  exact hus

/-- Where a name stands among words, no sentence goes on with a reserved word of the same spelling. -/
def NamesYield (ts : List Token) : Prop :=
  ∀ before t after, ts = before ++ t :: after → t.kind = .name →
    ∀ k : Terminal, k.reserved? = some t.word → ¬ Begins (before.map Token.kind ++ [k])

/-- A word of a text that is read is a name only where the reserved word cannot come as itself. -/
theorem Reads.namesYield {e : Sentence} (h : Reads source ts e) : NamesYield e.tokens := by
  intro before t after htokens hname k hk hbegins
  obtain ⟨us, vs, rfl, rfl⟩ := exists_of_significant_eq (h.sentence.1.symm.trans htokens)
  obtain ⟨stack, c, htakes, -, -⟩ := h
  obtain ⟨middle, d, hus, hvs⟩ := htakes.split
  have hlooked := (hus.exists_goOn (t := ⟨k, [], .start, .start⟩) hbegins).2
  have hnext : ∃ e, d.next? (middle.vocabulary .ofGrammar) = some (t, e) := by
    cases hvs with
    | ignored hnext | word hnext => exact ⟨_, hnext⟩
  obtain ⟨e, hnext⟩ := hnext
  simp only [Cursor.next?, Option.map_eq_some_iff, Prod.mk.injEq, Prod.exists] at hnext
  obtain ⟨kind, word, rest, hsplit, rfl, -⟩ := hnext
  obtain rfl : kind = .name := hname
  rw [Vocabulary.eq_false_of_split?_name hsplit hk] at hlooked
  cases hlooked

/-- **A reserved word is a name only where it cannot come as itself.** This holds of every name among the
words of a text that is read. If a variable of the script is spelled like a reserved word, then this word is no
rival of names of its use, so it is not `function` where the variable is read, and it is `else` where the
variable is assigned to; and one of those names spells it. -/
theorem reserved_of_parse (h : parse source = .ok script) :
    ∃ ts e, Reads source ts e ∧ e.script = script ∧ NamesYield e.tokens ∧
      ∀ v ∈ script.variables, ∀ k : Terminal, k.reserved? = some v.2.toList →
        k ∉ v.1.rivals ∧
          ∃ before t after, e.tokens = before ++ t :: after ∧ t.kind = .name ∧ t.text = v.2 ∧
            ¬ Begins (before.map Token.kind ++ [k]) := by
  obtain ⟨ts, e, hreads, rfl⟩ := exists_reads_of_parse h
  refine ⟨ts, e, hreads, rfl, hreads.namesYield, fun v hv k hk => ?_⟩
  rcases e.accounted_of_mem_variables hreads.wellFormed v hv with hstands | hsign
  · obtain ⟨before, t, after, htokens, hname, htext, hrivals⟩ := hstands
    have hspelled : k.reserved? = some t.word := by
      rw [hk, ← htext, Token.text, String.toList_ofList]
    have hnot := hreads.namesYield before t after htokens hname k hspelled
    exact ⟨fun hrival => hnot (hrivals k hrival), before, t, after, htokens, hname, htext, hnot⟩
  · rw [ofSign?_eq_none_of_reserved hk] at hsign
    cases hsign

/-- A reserved word is declared, and the statement of names is true of it. -/
theorem reserved_of_parse_declaration :
    ∃ script, parse "var if;" = .ok script ∧ (.declaration, "if") ∈ script.variables ∧
      ∃ ts e, Reads "var if;" ts e ∧ e.script = script ∧ NamesYield e.tokens ∧
        ∀ v ∈ script.variables, ∀ k : Terminal, k.reserved? = some v.2.toList →
          k ∉ v.1.rivals ∧
            ∃ before t after, e.tokens = before ++ t :: after ∧ t.kind = .name ∧ t.text = v.2 ∧
              ¬ Begins (before.map Token.kind ++ [k]) := by
  have hname : isName "if" = true := by decide
  have hparse := parse_declaration hname
  exact ⟨_, hparse, by decide, reserved_of_parse hparse⟩

/-- **A reserved word is declared**: nothing else is looked for after `var`. -/
theorem if_declared :
    ∃ script, parse "var if;" = .ok script ∧
      ∃ v ∈ script.variables, v = (.declaration, "if") ∧ Terminal.ifWord.reserved? = some v.2.toList := by
  have hname : isName "if" = true := by decide
  have hparse := parse_declaration hname
  exact ⟨_, hparse, _, List.mem_singleton.mpr rfl, rfl, by decide⟩

end Scriptlet.Parsing
