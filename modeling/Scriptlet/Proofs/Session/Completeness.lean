import Scriptlet.Proofs.Lexical.Brackets
import Scriptlet.Proofs.Parsing.RoundTrip
import Scriptlet.Session.Completeness

/-!
# Scripts are complete entries

Whether an entry goes on in another line is told from the words that all terminals cut it into; the reader
cuts it with those that can come next. All that counts are brackets, and both find the same ones. A rule of
the grammar closes each bracket that it opens, and none before it has opened it, so what the reader accepts
leaves no bracket open.

## What is proved

* `depthAfter_derivation`: the words of a phrase leave the depth as it is.
* `openDepth_of_parse`: a text that the reader accepts leaves no bracket open.
-/

namespace Scriptlet.Session

open Scriptlet.Lexical Scriptlet.Grammar Scriptlet.Parsing

/-! ### Depth -/

/-- How many brackets are open after a word of the given kind. There is no answer if it closes one and
none is open. -/
def depthStep (depth : Nat) : Terminal → Option Nat
  | .leftParen | .leftBrace => some (depth + 1)
  | .rightParen | .rightBrace => if depth = 0 then none else some (depth - 1)
  | _ => some depth

theorem depthStep_of_not_isBracket {t : Terminal} (h : t.isBracket = false) (depth : Nat) :
    depthStep depth t = some depth := by
  revert h
  cases t <;> first | exact fun _ => rfl | nofun

theorem depthAfter_cons (depth : Nat) (t : Token) (ts : List Token) :
    depthAfter depth (t :: ts) = (depthStep depth t.kind).bind (depthAfter · ts) := by
  obtain ⟨kind, word, start, stop⟩ := t
  cases kind
  case rightParen | rightBrace => cases depth <;> rfl
  all_goals rfl

theorem depthAfter_append (depth : Nat) (ts us : List Token) :
    depthAfter depth (ts ++ us) = (depthAfter depth ts).bind (depthAfter · us) := by
  induction ts generalizing depth with
  | nil => rfl
  | cons t ts ih =>
    simp only [List.cons_append, depthAfter_cons, ih, Option.bind_assoc]

/-- Only brackets count. -/
theorem depthAfter_eq_foldlM (depth : Nat) (ts : List Token) :
    depthAfter depth ts = (brackets ts).foldlM depthStep depth := by
  induction ts generalizing depth with
  | nil => rfl
  | cons t ts ih =>
    rw [depthAfter_cons]
    cases hbracket : t.kind.isBracket with
    | true =>
      have hcons : brackets (t :: ts) = t.kind :: brackets ts := by simp [brackets, hbracket]
      rw [hcons, List.foldlM_cons]
      exact congrArg _ (funext ih)
    | false =>
      rw [brackets_cons_of_not_isBracket ts hbracket, depthStep_of_not_isBracket hbracket]
      exact ih depth

/-! ### Phrases -/

/-- How many brackets are open after what a list of symbols derives, if phrases leave the depth as it
is. -/
def rowDepth : Nat → List Symbol → Option Nat
  | depth, [] => some depth
  | depth, .word t :: ss => (depthStep depth t).bind (rowDepth · ss)
  | depth, .phrase _ :: ss => rowDepth depth ss

/-- A rule closes each bracket that it opens, after it has opened it, and no other one. -/
theorem rowDepth_parts (rule : Rule) (depth : Nat) : rowDepth depth rule.parts = some depth := by
  cases rule <;> rfl

mutual

/-- A word counts as its kind, and a phrase leaves the depth as it is. -/
theorem depthAfter_derivation {s : Symbol} (d : Derivation s) (depth : Nat) :
    depthAfter depth d.tokens = rowDepth depth [s] := by
  cases d with
  | leaf token => exact depthAfter_cons depth token []
  | node rule parts => exact (depthAfter_derivations parts depth).trans (rowDepth_parts rule depth)

/-- The words that symbols derive count as the symbols do. -/
theorem depthAfter_derivations {ss : List Symbol} (ds : Derivations ss) (depth : Nat) :
    depthAfter depth ds.tokens = rowDepth depth ss := by
  cases ds with
  | nil => rfl
  | @cons s ss first others =>
    rw [Derivations.tokens, depthAfter_append, depthAfter_derivation first]
    cases s with
    | word t =>
      simp only [rowDepth, Option.bind_assoc, Option.bind_some, depthAfter_derivations others]
    | phrase c => exact depthAfter_derivations others depth

end

/-! ### Texts -/

/-- **A text that the reader accepts leaves no bracket open**, though the brackets are counted among words
that are found with all terminals, and the reader looks only for those that can come next. -/
theorem openDepth_of_parse {source : String} {script : Script} (h : parse source = .ok script) :
    openDepth source = some 0 := by
  obtain ⟨d, hparse, -⟩ : ∃ d, parseSentence source = .ok d ∧ d.script = script := by
    rw [parse] at h
    cases hp : parseSentence source with
    | error => rw [hp] at h; cases h
    | ok d => rw [hp] at h; exact ⟨d, rfl, Except.ok.inj h⟩
  obtain ⟨ts, hread, haccepts⟩ := readInto_of_parseFrom hparse
  obtain ⟨us, hcut, hbrackets⟩ := hread.exists_cutInto
  have htokens : d.tokens = significant ts := haccepts.tokens ofGrammar_obeys .nil
  have hdepth : depthAfter 0 us = some 0 := by
    calc depthAfter 0 us = depthAfter 0 d.tokens := by
          rw [depthAfter_eq_foldlM, depthAfter_eq_foldlM, htokens, brackets_significant, hbrackets]
      _ = some 0 := depthAfter_derivation d 0
  rw [openDepth, hcut.cut_eq]
  exact hdepth

/-- A script with both kinds of bracket. -/
theorem openDepth_of_parse_identity :
    ∃ script, parse "function id(x)\x7breturn x;\x7d" = .ok script ∧
      openDepth "function id(x)\x7breturn x;\x7d" = some 0 := by
  let script : Script := ⟨⟨[.function "id" ["x"] true ⟨[.returns (.identifier "x" 1) 1], 1⟩ 1], 1⟩⟩
  have htext : script.text = "function id(x)\x7breturn x;\x7d" := by decide
  have hparse : parse "function id(x)\x7breturn x;\x7d" = .ok (script.onLine 1) :=
    htext ▸ parse_text (by decide)
  exact ⟨_, hparse, openDepth_of_parse hparse⟩

end Scriptlet.Session
