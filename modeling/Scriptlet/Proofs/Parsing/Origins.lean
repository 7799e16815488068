import Scriptlet.Proofs.Parsing.Lines
import Scriptlet.Proofs.Script.Places

/-!
# The lines that constructs stand on

A construct of a script carries the line of one of the words it was read from. So there is something on
that line of the text, whichever way the lines of a text are counted: as many as there are line feeds and
one more, or without the last one if nothing stands on it.

## What is proved

* `Text.HasLine.bounds`: a line that something stands on is one of the lines.
* `Parsing.hasLine_of_parse`: something stands on the line of every construct that is read.
-/

namespace Scriptlet

open Lexical

/-! ### Lines -/

namespace Text

/-- A character other than a line feed stands on this line of a text. -/
def HasLine (text : String) (n : Nat) : Prop :=
  ∃ before c after, text.toList = before ++ c :: after ∧ c ≠ '\n' ∧ n = before.count '\n' + 1

/-- How many lines a text has: one more than it has line feeds. -/
def lineCount (text : String) : Nat := text.toList.count '\n' + 1

theorem HasLine.bounds {text : String} {n : Nat} (h : HasLine text n) :
    1 ≤ n ∧ n ≤ lineCount text := by
  obtain ⟨before, c, after, htext, -, rfl⟩ := h
  refine ⟨Nat.le_add_left 1 _, Nat.succ_le_succ ?_⟩
  rw [htext, List.count_append]
  exact Nat.le_add_right _ _

end Text

namespace Lexical

/-- A word of a text has characters before it and after it. -/
theorem Token.exists_around_of_mem {c : Cursor} {ts : List Token} (h : Tiled c ts) :
    ∀ t ∈ ts, ∃ before after, c.rest = before ++ (t.word ++ after) ∧
      t.start = c.position.advance before ∧ t.kind.split? (t.word ++ after) = some (t.word, after) := by
  induction h with
  | nil => exact List.forall_mem_nil _
  | @cons c d t ts hstands _ ih =>
    have happend := Terminal.append_of_split hstands.word
    refine List.forall_mem_cons.mpr ⟨⟨[], d.rest, ?_, hstands.start, ?_⟩, fun u hu => ?_⟩
    · exact happend.symm
    · rw [happend]
      exact hstands.word
    · obtain ⟨before, after, hrest, hstart, hsplit⟩ := ih u hu
      refine ⟨t.word ++ before, after, ?_, ?_, hsplit⟩
      · rw [← happend, hrest, List.append_assoc]
      · rw [hstart, hstands.after, hstands.stop, Text.Position.advance_append]

/-- A word that means something does not start with a line feed. -/
theorem Terminal.starts_newline {t : Terminal} (h : t.isIgnored = false) :
    t.starts '\n' = false := by
  cases t <;> first | rfl | cases h

/-- Something stands on the line on which a word starts that means something. -/
theorem Token.hasLine_of_mem {source : String} {ts : List Token}
    (hts : Tiled (Cursor.ofString source) ts) {t : Token} (ht : t ∈ significant ts) :
    Text.HasLine source t.start.line := by
  obtain ⟨hmem, hignored⟩ := List.mem_filter.mp ht
  obtain ⟨before, after, hrest, hstart, hsplit⟩ := Token.exists_around_of_mem hts t hmem
  cases hword : t.word with
  | nil => exact absurd hword (Terminal.ne_nil_of_split hsplit)
  | cons c word =>
    refine ⟨before, c, word ++ after, ?_, ?_, ?_⟩
    · show source.toList = _
      rw [← List.cons_append, ← hword]
      exact hrest
    · rintro rfl
      rw [hword, List.cons_append] at hsplit
      have hstarts := Terminal.starts_of_split? (t := t.kind) (by rw [hsplit]; rfl)
      rw [Terminal.starts_newline (by simpa using hignored)] at hstarts
      cases hstarts
    · rw [hstart, Text.Position.line_advance]
      exact Nat.add_comm _ _

end Lexical

/-! ### Constructs -/

variable {allowed : Int → Bool}

/-- A body is on the line that its construct carries for it. -/
theorem Expr.all_isOn_body {body : Block} (hline : allowed body.line = true)
    (h : body.all (Expr.isOn allowed) = true) :
    (Expr.block body).all (Expr.isOn allowed) = true := by
  rw [Expr.all, h, Bool.and_true, Expr.isOn]
  exact List.all_eq_true.mpr (List.forall_mem_singleton.mpr hline)

/-- What is on allowed lines is made of parts that are. -/
theorem Expr.all_isOn_parts {e : Expr} (h : e.all (Expr.isOn allowed) = true) :
    ∀ p ∈ e.parts, p.2.all (Expr.isOn allowed) = true := by
  have hself := List.all_eq_true.mp (Expr.all_self h)
  have hoperands : ∀ part ∈ e.operands, part.all (Expr.isOn allowed) = true :=
    fun _ hpart => Expr.all_operand h hpart
  cases e with
  | block body => exact List.forall_mem_map.mpr (Block.all_iff.mp (Expr.all_block.mp h).2)
  | literal value line => exact List.forall_mem_nil _
  | identifier name line => exact List.forall_mem_nil _
  | call callee args line =>
    obtain ⟨hcallee, hargs⟩ := List.forall_mem_cons.mp hoperands
    exact List.forall_mem_cons.mpr ⟨hcallee, List.forall_mem_map.mpr hargs⟩
  | assign name value declares line =>
    cases declares <;> exact List.forall_mem_singleton.mpr (hoperands _ List.mem_cons_self)
  | function name params binds body line =>
    refine List.forall_mem_singleton.mpr (Expr.all_isOn_body ?_ (Expr.all_body h))
    exact hself _ (List.mem_cons_of_mem _ List.mem_cons_self)
  | returns value line => exact List.forall_mem_singleton.mpr (hoperands _ List.mem_cons_self)
  | choose condition yes no line =>
    obtain ⟨hyes, hno⟩ := Expr.all_branches h
    refine List.forall_mem_cons.mpr ⟨hoperands _ List.mem_cons_self, List.forall_mem_cons.mpr
      ⟨Expr.all_isOn_body ?_ hyes, List.forall_mem_singleton.mpr (Expr.all_isOn_body ?_ hno)⟩⟩
    · exact hself _ (List.mem_cons_of_mem _ List.mem_cons_self)
    · exact hself _ (List.mem_cons_of_mem _ (List.mem_cons_of_mem _ List.mem_cons_self))
  | object fields line =>
    refine List.forall_mem_map.mpr fun field hfield => ?_
    exact hoperands field.2 (List.mem_map_of_mem hfield)
  | field receiver name line => exact List.forall_mem_singleton.mpr (hoperands _ List.mem_cons_self)
  | setField receiver name value line =>
    obtain ⟨hreceiver, hvalue⟩ := List.forall_mem_cons.mp hoperands
    exact List.forall_mem_cons.mpr
      ⟨hreceiver, List.forall_mem_singleton.mpr (hvalue _ List.mem_cons_self)⟩
  | method receiver name args line =>
    obtain ⟨hreceiver, hargs⟩ := List.forall_mem_cons.mp hoperands
    exact List.forall_mem_cons.mpr ⟨hreceiver, List.forall_mem_map.mpr hargs⟩

/-- All that stands in a block is on allowed lines if the statements of the block are. -/
theorem Block.Has.all_isOn {root : Block} (hroot : root.all (Expr.isOn allowed) = true)
    {place : Place} {e : Expr} (h : root.Has place e) :
    e = .block root ∨ e.all (Expr.isOn allowed) = true := by
  induction h with
  | root => exact .inl rfl
  | part _ hpart ih =>
    rcases ih with rfl | hall
    · obtain ⟨statement, hmem, heq⟩ := List.mem_map.mp hpart
      cases heq
      exact .inr (Block.all_iff.mp hroot _ hmem)
    · exact .inr (Expr.all_isOn_parts hall _ hpart)

namespace Parsing

open Grammar

/-- **Something stands on the line of every construct that is read**, the script itself apart. -/
theorem hasLine_of_parse {source : String} {script : Script} (h : parse source = .ok script)
    {place : Place} {e : Expr} (he : script.body.Has place e) (hne : e ≠ .block script.body) :
    ∃ n : Nat, e.line = n ∧ Text.HasLine source n := by
  obtain ⟨ts, d, hts, htokens, rfl⟩ := exists_sentence_of_parse h
  -- the lines of words, and all others for a text without words, which has no statements
  let allowed : Int → Bool := fun line =>
    d.tokens.isEmpty || d.tokens.any fun t => decide (lineOf t = line)
  have hplaced : d.script.body.all (Expr.isOn allowed) = true := by
    refine (d.placed_value (fun hnil => ?_) fun t ht => ?_).2
    · simp [allowed, hnil]
    · exact Bool.or_eq_true_iff.mpr (.inr (List.any_eq_true.mpr ⟨t, ht, decide_eq_true rfl⟩))
  have hline : allowed e.line = true :=
    Expr.allowed_line ((he.all_isOn hplaced).resolve_left hne)
  rcases Bool.or_eq_true_iff.mp hline with hempty | hany
  · have hnone : d.script.body.statements = [] := d.blank_value (List.isEmpty_iff.mp hempty)
    have hall : d.script.body.all (Expr.isOn fun _ => false) = true := by
      rw [Block.all_iff, hnone]
      exact List.forall_mem_nil _
    cases Expr.allowed_line ((he.all_isOn hall).resolve_left hne)
  · obtain ⟨t, ht, hdecide⟩ := List.any_eq_true.mp hany
    rw [htokens] at ht
    exact ⟨t.start.line, (of_decide_eq_true hdecide).symm, Token.hasLine_of_mem hts ht⟩

end Parsing

end Scriptlet
