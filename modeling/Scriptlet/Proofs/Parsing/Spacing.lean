import Mathlib.Data.List.Forall2
import Scriptlet.Proofs.Grammar.Relocation
import Scriptlet.Proofs.Lexical.Gaps
import Scriptlet.Proofs.Parsing.Course

/-!
# White space between words

White space put into a text between two words, at its start or at its end changes the course of reading only
in what is ignored. The words before it are taken as they were; it becomes a blank, or a part of the blanks
and of the line comment around it; and after it the same words are taken further on. The stack that they
are taken from is another one, because the words on it have moved, but it has the same states and symbols,
and the automaton looks at nothing else.

## What is proved

* `settle_goOn_of_shape`, `settle_done_of_shape`: stacks with the same states and symbols settle alike.
* `Takes.widen`: the words before the white space are taken as they were.
* `Takes.elsewhere`, `Takes.after_gap`: the words after it are taken further on.
* `Takes.insert`: the course of a text with white space put in between two words.
-/

namespace Scriptlet.Lexical

open Scriptlet.Text

theorem Cursor.split?_of_next? {v : Vocabulary} {c d : Cursor} {t : Token}
    (h : c.next? v = some (t, d)) : v.split? c.rest = some (t.kind, t.word, d.rest) := by
  simp only [next?, Option.map_eq_some_iff, Prod.mk.injEq, Prod.exists] at h
  obtain ⟨kind, word, rest, hs, rfl, rfl⟩ := h
  exact hs

theorem Cursor.next?_of_split? {v : Vocabulary} {kind : Terminal} {cs word rest : List Char}
    (h : v.split? cs = some (kind, word, rest)) (p : Position) :
    Cursor.next? v ⟨p, cs⟩ =
      some (⟨kind, word, p, p.advance word⟩, ⟨p.advance word, rest⟩) := by
  rw [next?, h]
  rfl

/-- The second token is the word of the first one, `k` lines further down. -/
def Token.Lowered (k : Nat) (t t' : Token) : Prop :=
  t'.toWord = t.toWord ∧ t'.start.line = t.start.line + k

theorem Token.Lowered.kind_eq {k : Nat} {t t' : Token} (h : Token.Lowered k t t') :
    t'.kind = t.kind :=
  congrArg Word.kind h.1

/-- A word that stands further down, at a place with as many lines above it, is the word lowered. -/
theorem Token.Stands.lowered {t : Token} {c d : Cursor} (h : t.Stands c d) {p : Position} {k : Nat}
    (hline : p.line = c.position.line + k) :
    Token.Lowered k t ⟨t.kind, t.word, p, p.advance t.word⟩ ∧
      (p.advance t.word).line = d.position.line + k := by
  refine ⟨⟨rfl, ?_⟩, ?_⟩
  · rw [h.start]
    exact hline
  · rw [h.after, h.stop, Position.line_advance, Position.line_advance, hline]
    omega

/-- The words that mean something are moved with the others. -/
theorem significant_lowered {k : Nat} {ts ts' : List Token}
    (h : List.Forall₂ (Token.Lowered k) ts ts') :
    List.Forall₂ (Token.Lowered k) (significant ts) (significant ts') := by
  induction h with
  | nil => exact .nil
  | @cons t t' ts ts' ht _ ih =>
    cases hi : t.kind.isIgnored with
    | true =>
      rw [significant_cons_of_ignored hi, significant_cons_of_ignored (ht.kind_eq ▸ hi)]
      exact ih
    | false =>
      rw [significant_cons_of_not_ignored hi, significant_cons_of_not_ignored (ht.kind_eq ▸ hi)]
      exact .cons ht ih

end Scriptlet.Lexical

namespace Scriptlet.Parsing

open Scriptlet.Grammar Scriptlet.Lexical Scriptlet.Text

/-! ### Stacks with the same states and symbols -/

/-- The states and symbols of a stack. -/
def Stack.shape (stack : Stack) : List (Nat × Symbol) :=
  stack.map fun cell => (cell.state, cell.symbol)

variable {auto : Automaton} {s s' : Stack}

theorem Stack.number_of_shape (h : s.shape = s'.shape) : s.number = s'.number := by
  cases s with
  | nil =>
    cases s' with
    | nil => rfl
    | cons => cases h
  | cons cell s =>
    cases s' with
    | nil => cases h
    | cons cell' s' =>
      rw [shape, shape, List.map_cons, List.map_cons, List.cons.injEq, Prod.mk.injEq] at h
      exact h.1.1

theorem Stack.state_of_shape (h : s.shape = s'.shape) : s.state auto = s'.state auto := by
  rw [state, state, number_of_shape h]

theorem Stack.drop_of_shape (h : s.shape = s'.shape) (n : Nat) :
    Stack.shape (s.drop n) = Stack.shape (s'.drop n) := by
  rw [shape, shape, List.map_drop, List.map_drop]
  exact congrArg (List.drop n) h

theorem settleFuel_of_shape (h : s.shape = s'.shape) : settleFuel s = settleFuel s' := by
  have hlen := congrArg List.length h
  simp only [Stack.shape, List.length_map] at hlen
  rw [settleFuel, settleFuel, hlen]

/-- Cells hold derivations of their symbols. -/
theorem exists_derivationsOf {ss : List Symbol} {cells : List Cell}
    (h : cells.map Cell.symbol = ss) : ∃ ds, derivationsOf ss cells = some ds := by
  induction cells generalizing ss with
  | nil =>
    subst h
    exact ⟨.nil, rfl⟩
  | cons cell cells ih =>
    subst h
    obtain ⟨ds, hds⟩ := ih rfl
    refine ⟨.cons cell.derivation ds, ?_⟩
    show derivationsOf (cell.symbol :: cells.map Cell.symbol) (cell :: cells) = _
    simp only [derivationsOf, dif_pos, hds, Option.map_some]

theorem exists_derivationsOf_of_shape (h : s.shape = s'.shape) {ss : List Symbol} {n : Nat}
    {ds : Derivations ss} (hds : derivationsOf ss (s.take n).reverse = some ds) :
    ∃ ds', derivationsOf ss (s'.take n).reverse = some ds' := by
  refine exists_derivationsOf ?_
  rw [← symbols_of_derivationsOf hds]
  have hsymbols : ∀ s : Stack, ((s.take n).reverse).map Cell.symbol =
      ((s.shape.map Prod.snd).take n).reverse := by
    intro s
    rw [List.map_reverse, List.map_take, Stack.shape, List.map_map]
    rfl
  rw [hsymbols, hsymbols, h]

theorem Stack.joinBy_stack_of_shape (h : s.shape = s'.shape) {r : Rule} {joined : Stack}
    (hj : s.joinBy auto r = .stack joined) :
    ∃ joined', s'.joinBy auto r = .stack joined' ∧ joined.shape = joined'.shape := by
  obtain ⟨parts, n, hparts, ha, rfl⟩ := Stack.joinBy_eq_stack.mp hj
  obtain ⟨parts', hparts'⟩ := exists_derivationsOf_of_shape h hparts
  have hdrop := drop_of_shape h r.parts.length
  refine ⟨_, Stack.joinBy_eq_stack.mpr ⟨parts', n, hparts', ?_, rfl⟩, ?_⟩
  · rw [← state_of_shape hdrop]
    exact ha
  · rw [shape, shape, List.map_cons, List.map_cons]
    exact congrArg (_ :: ·) hdrop

theorem exists_sentence? {c : Category} (hc : c = .program) (d : Derivation (.phrase c)) :
    ∃ e, sentence? c d = some e := by
  subst hc
  exact ⟨d, rfl⟩

theorem Stack.joinBy_sentence_of_shape (h : s.shape = s'.shape) {r : Rule} {d : Sentence}
    (hj : s.joinBy auto r = .sentence d) : ∃ d', s'.joinBy auto r = .sentence d' := by
  obtain ⟨parts, hparts, ha, hd⟩ := Stack.joinBy_eq_sentence.mp hj
  obtain ⟨parts', hparts'⟩ := exists_derivationsOf_of_shape h hparts
  have hdrop := drop_of_shape h r.parts.length
  obtain ⟨d', hd'⟩ := exists_sentence? (eq_program_of_sentence? hd).1 (.node r parts')
  refine ⟨d', Stack.joinBy_eq_sentence.mpr ⟨parts', hparts', ?_, hd'⟩⟩
  rw [← state_of_shape hdrop]
  exact ha

/-- Stacks with the same states and symbols settle alike before a word. -/
theorem settle_goOn_of_shape (h : s.shape = s'.shape) {a : Lookahead} {fuel n : Nat}
    {settled : Stack} (hs : settle auto a fuel s = .goOn settled n) :
    ∃ settled', settle auto a fuel s' = .goOn settled' n ∧ settled.shape = settled'.shape := by
  induction fuel generalizing s s' with
  | zero => cases hs
  | succ fuel ih =>
    rw [settle, Stack.state_of_shape h] at hs
    rw [settle]
    split at hs
    · next hread =>
      simp only [Answer.goOn.injEq] at hs
      obtain ⟨rfl, rfl⟩ := hs
      exact ⟨s', rfl, h⟩
    · next hread =>
      split at hs
      · cases hs
      · next r hc =>
        split at hs
        · next joined hj =>
          obtain ⟨joined', hj', hjoined⟩ := Stack.joinBy_stack_of_shape h hj
          simp only [hj']
          exact ih hjoined hs
        · cases hs
        · cases hs

/-- Stacks with the same states and symbols settle alike at the end. -/
theorem settle_done_of_shape (h : s.shape = s'.shape) {a : Lookahead} {fuel : Nat} {d : Sentence}
    (hs : settle auto a fuel s = .done d) : ∃ d', settle auto a fuel s' = .done d' := by
  induction fuel generalizing s s' with
  | zero => cases hs
  | succ fuel ih =>
    rw [settle, Stack.state_of_shape h] at hs
    rw [settle]
    split at hs
    · cases hs
    · next hread =>
      split at hs
      · cases hs
      · next r hc =>
        split at hs
        · next joined hj =>
          obtain ⟨joined', hj', hjoined⟩ := Stack.joinBy_stack_of_shape h hj
          simp only [hj']
          exact ih hjoined hs
        · next e hj =>
          obtain ⟨d', hj'⟩ := Stack.joinBy_sentence_of_shape h hj
          simp only [hj']
          exact ⟨d', rfl⟩
        · cases hs

/-! ### The same words further on -/

variable {s₁ s₂ : Stack} {c c₁ c₂ : Cursor} {ts us : List Token} {k : Nat}

/-- **The same words are taken further on in a text**, from a stack with the same states and symbols. -/
theorem Takes.elsewhere (h : Takes auto s c ts s₁ c₁) (hshape : s.shape = s'.shape) {p : Position}
    (hline : p.line = c.position.line + k) :
    ∃ ts' s₁' p₁, Takes auto s' ⟨p, c.rest⟩ ts' s₁' ⟨p₁, c₁.rest⟩ ∧ s₁.shape = s₁'.shape ∧
      List.Forall₂ (Token.Lowered k) ts ts' := by
  induction h generalizing s' p with
  | nil => exact ⟨[], s', p, .nil, hshape, .nil⟩
  | @ignored s s₁ c d c₁ t ts hnext hi _ ih =>
    have hnext' := Cursor.next?_of_split? (Cursor.split?_of_next? hnext) p
    obtain ⟨hlowered, hafter⟩ := (Cursor.stands_of_next? hnext).lowered hline
    obtain ⟨ts', s₁', p₁, htakes, hend, hts⟩ := ih hshape hafter
    rw [Stack.vocabulary, Stack.state_of_shape hshape] at hnext'
    exact ⟨_, s₁', p₁, .ignored hnext' hi htakes, hend, .cons hlowered hts⟩
  | @word s s₁ settled c d c₁ t ts n hnext hi hsettle _ ih =>
    have hnext' := Cursor.next?_of_split? (Cursor.split?_of_next? hnext) p
    obtain ⟨hlowered, hafter⟩ := (Cursor.stands_of_next? hnext).lowered hline
    obtain ⟨settled', hsettle', hsettled⟩ := settle_goOn_of_shape hshape hsettle
    rw [settleFuel_of_shape hshape] at hsettle'
    have hpushed : Stack.shape (⟨n, .word t.kind, .leaf t⟩ :: settled) = Stack.shape
        (⟨n, .word t.kind, .leaf ⟨t.kind, t.word, p, p.advance t.word⟩⟩ :: settled') :=
      congrArg ((n, Symbol.word t.kind) :: ·) hsettled
    obtain ⟨ts', s₁', p₁, htakes, hend, hts⟩ := ih hpushed hafter
    rw [Stack.vocabulary, Stack.state_of_shape hshape] at hnext'
    exact ⟨_, s₁', p₁, .word hnext' hi hsettle' htakes, hend, .cons hlowered hts⟩

/-! ### The words before the white space -/

theorem Takes.ne_nil (h : Takes auto s c ts s₁ c₁) : ∀ t ∈ ts, t.word ≠ [] := by
  induction h with
  | nil => exact List.forall_mem_nil _
  | ignored hnext _ _ ih | word hnext _ _ _ ih =>
    exact List.forall_mem_cons.mpr ⟨(Cursor.next?_append hnext).2, ih⟩

/-- A word is found again before other words and a text with white space put in. -/
theorem next?_widen {v : Vocabulary} {d : Cursor} {t : Token} {cs rest : List Char}
    (hnext : c.next? v = some (t, d)) (hd : d.rest = spelled ts ++ cs)
    (hne : ∀ t ∈ ts, t.word ≠ []) (hw : Widened cs rest)
    (hlast : (∀ u ∈ (t :: ts).getLast?, u.kind.takesSpaces = false) ∨ rest.head? = cs.head?) :
    Cursor.next? v ⟨c.position, spelled (t :: ts) ++ rest⟩ =
      some (t, ⟨d.position, spelled ts ++ rest⟩) := by
  obtain ⟨kind, word, start, stop⟩ := t
  have hstands := Cursor.stands_of_next? hnext
  obtain ⟨rfl, rfl⟩ : start = c.position ∧ stop = c.position.advance word :=
    ⟨hstands.start, hstands.stop⟩
  have hsplit := Cursor.split?_of_next? hnext
  rw [← (Cursor.next?_append hnext).1, hd] at hsplit
  have hthere := Vocabulary.split?_widen hsplit (hw.append_left (spelled ts)) (by
    cases ts with
    | nil =>
      refine hlast.imp (fun hlast => hlast _ rfl) fun hhead => ?_
      rw [spelled_nil, List.nil_append, List.nil_append, hhead]
      exact fun _ => id
    | cons u us =>
      -- another word stands between them
      obtain ⟨b, bs, hu⟩ := List.exists_cons_of_ne_nil (hne u List.mem_cons_self)
      exact .inr (by rw [spelled_cons, hu]; exact fun _ => id))
  rw [spelled_cons, List.append_assoc, Cursor.next?_of_split? hthere]
  rw [hstands.after]

/-- **The words before white space are taken as they were**, if the last of them does not go on with it or
something stands between them. -/
theorem Takes.widen (h : Takes auto s c ts s₁ c₁) {rest : List Char} (hw : Widened c₁.rest rest)
    (hlast : (∀ t ∈ ts.getLast?, t.kind.takesSpaces = false) ∨ rest.head? = c₁.rest.head?) :
    Takes auto s ⟨c.position, spelled ts ++ rest⟩ ts s₁ ⟨c₁.position, rest⟩ := by
  induction h with
  | nil => exact .nil
  | ignored hnext hi htakes ih =>
    refine .ignored (next?_widen hnext htakes.rest htakes.ne_nil hw hlast) hi (ih hw ?_)
    exact hlast.imp_left fun hlast t ht => hlast t (List.mem_getLast?_cons ht)
  | word hnext hi hsettle htakes ih =>
    refine .word (next?_widen hnext htakes.rest htakes.ne_nil hw hlast) hi hsettle (ih hw ?_)
    exact hlast.imp_left fun hlast t ht => hlast t (List.mem_getLast?_cons ht)

/-! ### The white space -/

/-- The white space at the start of a text is left behind. -/
theorem Takes.exists_after_spaces (h : Takes auto s c ts s₁ c₁) (hend : c₁.rest = []) :
    ∃ spaces us d, Takes auto s d us s₁ c₁ ∧ significant us = significant ts ∧ Spaces spaces ∧
      c.rest = spaces ++ d.rest ∧ d.position = c.position.advance spaces ∧
      ∀ a ∈ d.rest.head?, isSpace a = false := by
  by_cases hhead : ∀ a ∈ c.rest.head?, isSpace a = false
  · exact ⟨[], ts, c, h, rfl, List.forall_mem_nil _, rfl, rfl, hhead⟩
  · obtain ⟨a, ha, hspace⟩ : ∃ a ∈ c.rest.head?, isSpace a = true := by simpa using hhead
    obtain ⟨as, has⟩ := List.head?_eq_some_iff.mp ha
    have hblank : ∀ {t d}, c.next? (s.vocabulary auto) = some (t, d) → t.kind = .blank := by
      intro t d hnext
      have hword := (Cursor.stands_of_next? hnext).word
      rw [has] at hword
      exact Terminal.eq_blank_of_isSpace hspace (Terminal.starts_of_split?_eq hword)
    cases h with
    | nil => rw [hend] at has; cases has
    | @ignored _ _ _ d _ t us hnext hi htakes =>
      have hstands := Cursor.stands_of_next? hnext
      have hword := hstands.word
      rw [hblank hnext] at hword
      obtain ⟨hspaces, hrest⟩ := spaces_of_split?_blank hword
      exact ⟨t.word, us, d, htakes, (significant_cons_of_ignored hi).symm, hspaces,
        (Cursor.next?_append hnext).1.symm, hstands.after.trans hstands.stop, hrest⟩
    | word hnext hi => rw [hblank hnext] at hi; cases hi

/-- **After white space the same words are taken**, but for the blank that it becomes a part of. -/
theorem Takes.after_gap (h : Takes auto s c ts s₁ c₁) (hend : c₁.rest = [])
    (hshape : s.shape = s'.shape) {gap : List Char} (hgap : Spaces gap) {p : Position}
    (hline : (p.advance gap).line = c.position.line + k) :
    ∃ ts' s₁' p₁, Takes auto s' ⟨p, gap ++ c.rest⟩ ts' s₁' ⟨p₁, []⟩ ∧ s₁.shape = s₁'.shape ∧
      List.Forall₂ (Token.Lowered k) (significant ts) (significant ts') := by
  obtain ⟨spaces, us, d, htakes, hus, hspaces, hrest, hposition, hhead⟩ :=
    h.exists_after_spaces hend
  have hlines : (p.advance (gap ++ spaces)).line = d.position.line + k := by
    rw [Position.advance_append, Position.line_advance, hline, hposition, Position.line_advance]
    omega
  obtain ⟨us', s₁', p₁, htakes', hsame, hlowered⟩ := htakes.elsewhere hshape hlines
  rw [hend] at htakes'
  rw [← hus, hrest, ← List.append_assoc]
  by_cases hnil : gap ++ spaces = []
  · rw [hnil] at htakes' ⊢
    exact ⟨us', s₁', p₁, htakes', hsame, significant_lowered hlowered⟩
  · have hblank := Vocabulary.split?_spaces (v := s'.vocabulary auto)
      (State.vocabulary_of_isIgnored _ rfl) hnil (List.forall_mem_append.mpr ⟨hgap, hspaces⟩) hhead
    refine ⟨_, s₁', p₁, .ignored (Cursor.next?_of_split? hblank p) rfl htakes', hsame, ?_⟩
    rw [significant_cons_of_ignored rfl]
    exact significant_lowered hlowered

/-- After white space right behind a blank or a line comment the same words are taken. -/
theorem Takes.after_wider {t : Token} (hnext : c.next? (s.vocabulary auto) = some (t, c₁))
    (ht : t.kind.takesSpaces = true) (h : Takes auto s c₁ us s₂ c₂) (hend : c₂.rest = [])
    {gap : List Char} (hgap : Spaces gap) :
    ∃ us' s₂' p₂, Takes auto s ⟨c.position, t.word ++ (gap ++ c₁.rest)⟩ us' s₂' ⟨p₂, []⟩ ∧
      s₂.shape = s₂'.shape ∧
      List.Forall₂ (Token.Lowered (gap.count '\n')) (significant us) (significant us') := by
  have hstands := Cursor.stands_of_next? hnext
  have hposition : c₁.position = c.position.advance t.word := hstands.after.trans hstands.stop
  have hword := hstands.word
  cases hkind : t.kind with
  | blank =>
    rw [hkind] at hword
    have hspaces := (spaces_of_split?_blank hword).1
    have hline : (c.position.advance (t.word ++ gap)).line =
        c₁.position.line + gap.count '\n' := by
      rw [Position.advance_append, Position.line_advance, hposition]
    rw [← List.append_assoc]
    exact h.after_gap hend rfl (List.forall_mem_append.mpr ⟨hspaces, hgap⟩) hline
  | lineComment =>
    rw [hkind] at hword
    obtain ⟨taken, left, rfl, hsplit⟩ := Vocabulary.split?_lineComment (v := s.vocabulary auto)
      (State.vocabulary_of_isIgnored _ rfl) hword gap
    have hline : ((c.position.advance (t.word ++ taken)).advance left).line =
        c₁.position.line + (taken ++ left).count '\n' := by
      rw [← Position.advance_append, List.append_assoc, Position.advance_append,
        Position.line_advance, hposition]
    obtain ⟨us', s₂', p₂, htakes, hsame, hlowered⟩ := h.after_gap hend rfl
      (fun b hb => hgap b (List.mem_append_right _ hb)) hline
    refine ⟨_, s₂', p₂, .ignored (Cursor.next?_of_split? hsplit c.position) rfl htakes, hsame, ?_⟩
    rw [significant_cons_of_ignored rfl]
    exact hlowered
  | _ => rw [hkind] at ht; cases ht

/-! ### Whole texts -/

/-- **The course of a text with white space put in between two words.** -/
theorem Takes.insert (hbefore : Takes auto s c ts s₁ c₁) (hafter : Takes auto s₁ c₁ us s₂ c₂)
    (hend : c₂.rest = []) {gap : List Char} (hgap : Spaces gap) :
    ∃ ts' us' s₂' p₂, Takes auto s ⟨c.position, spelled ts ++ (gap ++ c₁.rest)⟩ ts' s₂' ⟨p₂, []⟩ ∧
      s₂.shape = s₂'.shape ∧ significant ts' = significant ts ++ us' ∧
      List.Forall₂ (Token.Lowered (gap.count '\n')) (significant us) us' := by
  by_cases hlast : ∀ t ∈ ts.getLast?, t.kind.takesSpaces = false
  · have hwide := hbefore.widen (.here hgap) (.inl hlast)
    obtain ⟨us', s₂', p₂, htakes, hsame, hlowered⟩ :=
      hafter.after_gap hend rfl hgap (Position.line_advance c₁.position gap)
    exact ⟨ts ++ us', significant us', s₂', p₂, hwide.append htakes, hsame, significant_append ts us',
      hlowered⟩
  · obtain ⟨t, ht, htakes⟩ : ∃ t ∈ ts.getLast?, t.kind.takesSpaces = true := by simpa using hlast
    obtain ⟨pre, rfl⟩ := List.getLast?_eq_some_iff.mp ht
    obtain ⟨m, d, hpre, hone⟩ := hbefore.split
    cases hone with
    | word _ hi => rw [Terminal.isIgnored_of_takesSpaces htakes] at hi; cases hi
    | ignored hnext hi hnone =>
      cases hnone
      obtain ⟨happ, hne⟩ := Cursor.next?_append hnext
      have hwider : Widened d.rest (t.word ++ (gap ++ c₁.rest)) :=
        happ ▸ Widened.append_left (.here hgap) t.word
      have hwide := hpre.widen hwider (.inr (by
        obtain ⟨b, bs, hb⟩ := List.exists_cons_of_ne_nil hne
        rw [← happ, hb]
        rfl))
      obtain ⟨us', s₂', p₂, htakes', hsame, hlowered⟩ := hafter.after_wider hnext htakes hend hgap
      refine ⟨pre ++ us', significant us', s₂', p₂, ?_, hsame, ?_, hlowered⟩
      · rw [spelled_append, spelled_cons, spelled_nil, List.append_nil, List.append_assoc]
        exact hwide.append htakes'
      · rw [significant_append, significant_append, significant_cons_of_ignored hi, significant_nil,
          List.append_nil]

end Scriptlet.Parsing
