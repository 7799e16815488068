import Scriptlet.Proofs.Grammar.Adjacency
import Scriptlet.Proofs.Parsing.Expected
import Scriptlet.Proofs.Parsing.Wording

/-!
# Comments that are not closed

A slash and a star begin a comment only if the star and the slash that close it follow. If none do, the
reader takes them for two factor signs. In a sentence there is no operand between the two, so the star is
called: an opening parenthesis follows. And the slash is the sign of a division, so it stands where a
division can. Everywhere else the text is rejected.

The place where the two characters stand is reached by words that are cut off the text one after the
other. With which terminals does not matter: readings part ways only inside names and rows of equals
signs, and neither has a slash in it.

## What is proved

* `exists_meet`: two readings of a text pass the same places, those inside names and rows of equals signs
  apart.
* `Takes.begins_division`: where two factor signs can come, a division can.
* `rejected_of_open_comment`: a text with a comment that is not closed is rejected, unless a division can
  stand there and a parenthesis comes next.
* `open_comment_accepted`: there it may be read.
-/

namespace Scriptlet.Parsing

open Scriptlet.Grammar Scriptlet.Lexical Scriptlet.Text

/-! ### Readings of one text -/

/-- A reading passes the end of a row of characters that words do not lead out of. -/
theorem exists_readUpTo_row {p : Char → Bool} (hp : Confines p) {ch : Char} {cs : List Char}
    (hch : p ch = true) {pos : Position} {ts : List Token} {c : Cursor}
    (h : ReadUpTo ⟨pos, ch :: cs⟩ ts c) (hout : ∀ d ∈ c.rest.head?, p d = false) :
    ∃ us vs, ts = us ++ vs ∧
      ReadUpTo ⟨pos, ch :: cs⟩ us ⟨pos.advance (ch :: cs.takeWhile p), cs.dropWhile p⟩ ∧
      ReadUpTo ⟨pos.advance (ch :: cs.takeWhile p), cs.dropWhile p⟩ vs c := by
  have hcs : ch :: cs = (ch :: cs.takeWhile p) ++ cs.dropWhile p := by
    rw [List.cons_append, List.takeWhile_append_dropWhile]
  have hrun : ∀ d ∈ ch :: cs.takeWhile p, p d = true :=
    List.forall_mem_cons.mpr ⟨hch, List.all_eq_true.mp List.all_takeWhile⟩
  rw [hcs] at h ⊢
  obtain ⟨us, vs, hts, hus, hvs, -⟩ := h.skip hp hrun (head?_dropWhile cs) hout
  exact ⟨us, vs, hts, hus, hvs⟩

/-- **Readings of a text pass the same places**, but for those inside names and rows of equals signs. -/
theorem exists_meet {c m e : Cursor} {ts us : List Token} (h : ReadUpTo c ts e) (hend : e.rest = [])
    (h' : ReadUpTo c us m) (hhead : ∀ d ∈ m.rest.head?, isNamePart d = false ∧ d ≠ '=') :
    ∃ before others, ts = before ++ others ∧ ReadUpTo c before m ∧ ReadUpTo m others e := by
  obtain ⟨pos, cs⟩ := c
  induction hlen : cs.length using Nat.strongRecOn generalizing pos cs ts us with
  | ind n ih =>
    subst hlen
    -- both readings pass the end of a row, where they go on in the same way
    have hrow : ∀ {p : Char → Bool} {ch : Char} {rest : List Char}, Confines p → cs = ch :: rest →
        p ch = true → (∀ d ∈ m.rest.head?, p d = false) →
        ∃ before others, ts = before ++ others ∧ ReadUpTo ⟨pos, cs⟩ before m ∧
          ReadUpTo m others e := by
      rintro p ch rest hp rfl hch hout
      obtain ⟨us₁, vs₁, rfl, hus₁, hvs₁⟩ :=
        exists_readUpTo_row hp hch h fun d hd => by rw [hend] at hd; cases hd
      obtain ⟨us₂, vs₂, rfl, -, hvs₂⟩ := exists_readUpTo_row hp hch h' hout
      obtain ⟨before, others, rfl, hbefore, hothers⟩ :=
        ih _ (Nat.lt_succ_of_le (List.dropWhile_sublist _).length_le) _ _ hvs₁ hvs₂ rfl
      exact ⟨us₁ ++ before, others, (List.append_assoc ..).symm, hus₁.append hbefore, hothers⟩
    cases h' with
    | nil => exact ⟨[], ts, rfl, .nil _, h⟩
    | @cons v' _ d' _ t' us hv' hnext' hs' =>
      cases cs with
      | nil => cases Cursor.next?_length hnext'
      | cons ch cs =>
        by_cases hname : isNamePart ch = true
        · exact hrow confines_isNamePart rfl hname fun d hd => (hhead d hd).1
        by_cases hequals : ch = '='
        · exact hrow confines_equals rfl (decide_eq_true hequals) fun d hd =>
            decide_eq_false (hhead d hd).2
        -- everywhere else both find the same word
        cases h with
        | nil => cases hend
        | @cons v _ d _ t ts hv hnext hs =>
          have hstart : isNameStart ch = false := by
            rw [isNamePart, Bool.or_eq_true, not_or] at hname
            exact eq_false_of_ne_true hname.1
          have hsame : (t, d) = (t', d') := Option.some.inj
            ((next?_full_of_next? hv hstart hequals hnext).symm.trans
              (next?_full_of_next? hv' hstart hequals hnext'))
          obtain ⟨rfl, rfl⟩ := Prod.mk.inj hsame
          obtain ⟨before, others, rfl, hbefore, hothers⟩ :=
            ih _ (Cursor.next?_length hnext) _ _ hs hs' rfl
          exact ⟨t :: before, others, rfl, .cons hv hnext hbefore, hothers⟩

/-! ### A slash and a star -/

theorem isInfix_of_splitCommentEnd {cs word rest : List Char}
    (h : splitCommentEnd cs = some (word, rest)) : ['*', '/'] <:+: cs := by
  fun_induction splitCommentEnd cs generalizing word rest with
  | case1 => cases h
  | case2 cs => exact List.infix_append' [] ['*', '/'] cs
  | case3 c cs _ ih =>
    simp only [before, Option.map_eq_some_iff, Prod.exists] at h
    obtain ⟨w, r, hw, -⟩ := h
    exact (ih hw).trans (List.suffix_cons c cs).isInfix

variable {rest : List Char}

/-- Where a comment is not closed, its slash is a factor sign. -/
theorem eq_factor_of_slash {t : Token} {c d : Cursor} (hclose : ¬ ['*', '/'] <:+: rest)
    (hopen : c.rest = '/' :: '*' :: rest) (h : t.Stands c d) :
    t.kind = .factor ∧ d = ⟨c.position.advance ['/'], '*' :: rest⟩ := by
  obtain ⟨hword, -, hstop, hafter⟩ := h
  rw [hopen] at hword
  have hstarts := Terminal.starts_of_split?_eq hword
  have ht : t.kind = .factor ∨ t.kind = .lineComment ∨ t.kind = .blockComment := by
    revert hstarts
    cases t.kind <;> decide
  obtain ⟨pos, left⟩ := d
  rcases ht with ht | ht | ht
  · rw [ht] at hword
    obtain ⟨hslash, rfl⟩ := Prod.mk.inj (Option.some.inj hword)
    have hpos : pos = c.position.advance t.word := hafter.trans hstop
    exact ⟨ht, by rw [hpos, ← hslash]⟩
  · rw [ht] at hword
    cases hword
  · have hnone : splitCommentEnd rest = none := by
      cases hend : splitCommentEnd rest with
      | none => rfl
      | some found => exact absurd (isInfix_of_splitCommentEnd hend) hclose
    rw [ht, Terminal.split?, splitBlockComment, hnone] at hword
    cases hword

theorem eq_factor_of_star {t : Token} {c d : Cursor} (hstar : c.rest = '*' :: rest)
    (h : t.Stands c d) : t.kind = .factor ∧ d = ⟨c.position.advance ['*'], rest⟩ := by
  obtain ⟨hword, -, hstop, hafter⟩ := h
  rw [hstar] at hword
  have hstarts := Terminal.starts_of_split?_eq hword
  have ht : t.kind = .factor := by
    revert hstarts
    cases t.kind <;> decide
  obtain ⟨pos, left⟩ := d
  rw [ht] at hword
  obtain ⟨hstar, rfl⟩ := Prod.mk.inj (Option.some.inj hword)
  have hpos : pos = c.position.advance t.word := hafter.trans hstop
  exact ⟨ht, by rw [hpos, ← hstar]⟩

/-- The first thing that is neither white space nor a comment is an opening parenthesis. -/
def opensCall (c : Cursor) : Bool :=
  match read .full c with
  | .token t _ => t.kind == .leftParen
  | _ => false

theorem start_of_isIgnored {t : Terminal} {ch : Char} (hi : t.isIgnored = true)
    (h : t.starts ch = true) : isNameStart ch = false ∧ ch ≠ '=' := by
  cases t with
  | lineComment => exact of_decide_eq_true h ▸ by decide
  | blockComment => exact of_decide_eq_true h ▸ by decide
  | blank =>
    have hspace : isSpace ch = true := h
    refine ⟨?_, by rintro rfl; cases hspace⟩
    rcases isSpace_iff.mp hspace with rfl | rfl | rfl | rfl | rfl <;> rfl
  | _ => cases hi

/-- If an opening parenthesis is read first, all terminals find it. -/
theorem opensCall_of_readUpTo {c e : Cursor} {ts : List Token} (h : ReadUpTo c ts e)
    (hhead : (kinds ts).head? = some .leftParen) : opensCall c = true := by
  induction h with
  | nil => cases hhead
  | @cons v c d c' t ts hv hnext hs ih =>
    have hword := (Cursor.stands_of_next? hnext).word
    obtain ⟨pos, cs⟩ := c
    cases cs with
    | nil => cases Cursor.next?_length hnext
    | cons ch cs =>
      have hstarts : t.kind.starts ch = true := Terminal.starts_of_split?_eq hword
      cases hi : t.kind.isIgnored with
      | true =>
        obtain ⟨hname, hequals⟩ := start_of_isIgnored hi hstarts
        rw [kinds, significant_cons_of_ignored hi] at hhead
        rw [opensCall, read_of_ignored (next?_full_of_next? hv hname hequals hnext) hi]
        exact ih hhead
      | false =>
        rw [kinds, significant_cons_of_not_ignored hi, List.map_cons, List.head?_cons,
          Option.some.injEq] at hhead
        obtain rfl : ch = '(' := by
          rw [hhead] at hstarts
          exact of_decide_eq_true hstarts
        rw [opensCall,
          read_of_significant (next?_full_of_next? hv (by decide) (by decide) hnext) hi]
        exact beq_iff_eq.mpr hhead

/-- The words of a text that is read are a sentence. -/
theorem Reads.isSentence {source : String} {ts : List Token} {e : Sentence} (h : Reads source ts e) :
    IsSentence (kinds ts) :=
  ⟨e, congrArg (List.map Token.kind) h.sentence.1⟩

/-- Where a comment is not closed, its slash and star are read as factor signs. -/
theorem kinds_of_open_comment {c e : Cursor} {ts : List Token} (h : ReadUpTo c ts e) (hend : e.rest = [])
    (hopen : c.rest = '/' :: '*' :: rest) (hclose : ¬ ['*', '/'] <:+: rest) :
    ∃ us, kinds ts = .factor :: .factor :: kinds us ∧
      ReadUpTo ⟨c.position.advance ['/', '*'], rest⟩ us e := by
  cases h with
  | nil =>
    rw [hend] at hopen
    cases hopen
  | @cons _ _ d _ t ts _ hnext hs =>
    obtain ⟨ht, rfl⟩ := eq_factor_of_slash hclose hopen (Cursor.stands_of_next? hnext)
    cases hs with
    | nil => cases hend
    | @cons _ _ d' _ t' us _ hnext' hus =>
      obtain ⟨ht', rfl⟩ := eq_factor_of_star rfl (Cursor.stands_of_next? hnext')
      refine ⟨us, ?_, hus⟩
      have hi : t.kind.isIgnored = false := by rw [ht]; rfl
      have hi' : t'.kind.isIgnored = false := by rw [ht']; rfl
      rw [kinds, significant_cons_of_not_ignored hi, significant_cons_of_not_ignored hi',
        List.map_cons, List.map_cons, ht, ht']
      rfl

/-! ### Divisions -/

section Divisions

variable {stack : Stack} {c c' : Cursor} {ts : List Token} {k next : Terminal}

/-- If a sentence goes on with two words after those taken, the first of them comes on the stack, and the
second is looked for then. -/
theorem Takes.exists_next (h : Takes .ofGrammar [] c ts stack c') (hbegins : Begins (kinds ts ++ [k, next])) :
    ∃ (n : Nat) (top : Derivation (.word k)) (below : Stack),
      Stack.Valid .ofGrammar (⟨n, .word k, top⟩ :: below) ∧ below.tokens = significant ts ∧
        Stack.vocabulary .ofGrammar (⟨n, .word k, top⟩ :: below) next = true := by
  let first : Token := ⟨k, [], .start, .start⟩
  let second : Token := ⟨next, [], .start, .start⟩
  have hkinds : kinds ts ++ [k, next] = (significant ts ++ [first, second]).map Token.kind := by
    rw [List.map_append]
    rfl
  obtain ⟨e, rest, he, hprefers⟩ := (hkinds ▸ hbegins).exists_prefersMethods
  have hacc := accepts_tokens ofGrammar_obeys hprefers
  rw [he, List.append_assoc] at hacc
  obtain ⟨below, n, hsettle, hnext⟩ := (h.accepts ofGrammar_obeys hacc).settle_word ofGrammar_obeys
  obtain ⟨hvalid, htokens⟩ := h.valid .nil
  obtain ⟨hbelow, hsame, hread⟩ := hvalid.settle (hsettle stack.potential_lt)
  exact ⟨n, .leaf first, below, .cons hread hbelow, hsame.trans htokens, hnext.vocabulary⟩

/-- A number is a chain. -/
theorem exists_chain_of_number : ∃ d : Derivation (.phrase .chain), d.tokens.map Token.kind = [.number] :=
  ⟨.node .chainPrimary
    (.cons (.node .primaryNumber (.cons (.leaf ⟨.number, [], .start, .start⟩) .nil)) .nil), rfl⟩

/-- **Where two factor signs can come, a division can**: the first is the sign of it. -/
theorem Takes.begins_division (h : Takes .ofGrammar [] c ts stack c')
    (hbegins : Begins (kinds ts ++ [.factor, .factor])) : Begins (kinds ts ++ [.factor, .number]) := by
  obtain ⟨n, top, below, hvalid, hbelow, hlooked⟩ := h.exists_next hbegins
  obtain ⟨i, hi, hfollows, hword⟩ :=
    exists_follower_of_vocabulary ofGrammar_obeys ofGrammar_grounded hvalid rfl hlooked
  have hoperand : ∀ f ∈ followers (.word .factor),
      f = some (.word .leftParen) ∨ f = some (.phrase .chain) := by decide
  rcases hoperand _ hfollows with hparen | hchain
  · cases hword _ hparen
  · -- the item of a division is there, and it goes on with a number
    obtain ⟨ss, hunread⟩ := List.head?_eq_some_iff.mp hchain
    obtain ⟨number, hnumber⟩ := exists_chain_of_number
    obtain ⟨others⟩ := Derivations.nonempty ss
    obtain ⟨ds, hds⟩ : ∃ ds : Derivations i.unread, ds.tokens = number.tokens ++ others.tokens := by
      rw [hunread]
      exact ⟨.cons number others, rfl⟩
    obtain ⟨d, rest, hd⟩ := hvalid.exists_sentence_of_holds ofGrammar_obeys ofGrammar_grounded hi ds
    refine ⟨d, (others.tokens ++ rest).map Token.kind, ?_⟩
    rw [hd, hds, Stack.tokens_cons, hbelow]
    simp only [kinds, List.map_append, kinds_word, hnumber, List.append_assoc, List.cons_append,
      List.nil_append]

end Divisions

/-- The reader comes to a place where a division can stand. -/
def Divides (source : String) (c : Cursor) : Prop :=
  ∃ ts stack, Takes .ofGrammar [] (Cursor.ofString source) ts stack c ∧
    Begins (kinds ts ++ [.factor, .number])

/-- **A comment that is not closed is rejected**, wherever its slash and star stand at the start of a
word, unless a division can stand there and an opening parenthesis is what comes next. -/
theorem rejected_of_open_comment {source : String} {before : List Token} {c : Cursor}
    (hplace : ReadUpTo (Cursor.ofString source) before c) (hopen : c.rest = '/' :: '*' :: rest)
    (hclose : ¬ ['*', '/'] <:+: rest)
    (hcall : ¬ Divides source c ∨ opensCall ⟨c.position.advance ['/', '*'], rest⟩ = false) :
    ∃ e, parse source = .error e := by
  cases hparse : parse source with
  | error e => exact ⟨e, rfl⟩
  | ok script =>
    exfalso
    obtain ⟨ts, d, hreads, -⟩ := exists_reads_of_parse hparse
    have hsentence := hreads.isSentence
    obtain ⟨stack, e, htakes, hend, -⟩ := hreads
    have hhead : ∀ d ∈ c.rest.head?, isNamePart d = false ∧ d ≠ '=' := by
      rw [hopen]
      rintro d ⟨⟩
      decide
    -- the reader passes the place too
    obtain ⟨pre, post, rfl, hpre, hpost⟩ := exists_meet htakes.readUpTo hend hplace hhead
    obtain ⟨middle, m, hleft, -⟩ := htakes.split
    obtain rfl := hleft.readUpTo.unique hpre
    obtain ⟨us, hkinds, hus⟩ := kinds_of_open_comment hpost hend hopen hclose
    rw [kinds_append, hkinds] at hsentence
    rcases hcall with hdivides | hnone
    · refine hdivides ⟨pre, middle, hleft, hleft.begins_division ?_⟩
      obtain ⟨d, hd⟩ := hsentence
      exact ⟨d, kinds us, by rw [hd, List.append_assoc]; rfl⟩
    · -- the slash is before the star, so the star is called
      have hplaced := hsentence.placed
      rw [← List.singleton_append, ← List.append_assoc] at hplaced
      have hstar : endsAfter false (kinds pre ++ [.factor]) = false := by
        rw [endsAfter_append]
        rfl
      rw [opensCall_of_readUpTo hus (head?_eq_of_placed hstar hplaced)] at hnone
      cases hnone

/-- A number comes after the slash and the star, so the text is rejected. -/
theorem rejected_of_open_comment_number :
    ∃ before c, ReadUpTo (Cursor.ofString "1 /* 2;") before c ∧
      c.rest = '/' :: '*' :: " 2;".toList ∧ ¬ ['*', '/'] <:+: " 2;".toList ∧
      opensCall ⟨c.position.advance ['/', '*'], " 2;".toList⟩ = false ∧
      ∃ e, parse "1 /* 2;" = .error e := by
  have hplace : ∃ before, ReadUpTo (Cursor.ofString "1 /* 2;") before ⟨⟨2, 1, 3⟩, "/* 2;".toList⟩ :=
    ⟨_, .cons (v := .full) (fun _ _ => rfl) rfl (.cons (v := .full) (fun _ _ => rfl) rfl (.nil _))⟩
  obtain ⟨before, hplace⟩ := hplace
  have hclose : ¬ ['*', '/'] <:+: " 2;".toList := by decide
  have hcall : opensCall ⟨Position.advance ⟨2, 1, 3⟩ ['/', '*'], " 2;".toList⟩ = false := rfl
  exact ⟨before, _, hplace, rfl, hclose, hcall, rejected_of_open_comment hplace rfl hclose (.inr hcall)⟩

/-- **Elsewhere it may be read**: here the rest of the text is a call of the star, by which the number is
divided. -/
theorem open_comment_accepted :
    ∃ before c script, ReadUpTo (Cursor.ofString "1 /*(2);") before c ∧
      c.rest = '/' :: '*' :: "(2);".toList ∧ ¬ ['*', '/'] <:+: "(2);".toList ∧
      parse "1 /*(2);" = .ok script := by
  let star : Expr := .call (.identifier "*" 1) [.literal (.int 2) 1] 1
  let script : Script := ⟨⟨[.call (.identifier "/" 1) [.literal (.int 1) 1, star] 1], 1⟩⟩
  have hcut : cut "1 /*(2);" = ⟨(cut "1 /*(2);").tokens, none⟩ := by decide +kernel
  have hplace : ∃ before, ReadUpTo (Cursor.ofString "1 /*(2);") before ⟨⟨2, 1, 3⟩, "/*(2);".toList⟩ :=
    ⟨_, .cons (v := .full) (fun _ _ => rfl) rfl (.cons (v := .full) (fun _ _ => rfl) rfl (.nil _))⟩
  obtain ⟨before, hplace⟩ := hplace
  refine ⟨before, _, script.onLine 1, hplace, rfl, by decide, ?_⟩
  exact parse_of_occurrence hcut (by decide) ⟨by decide +kernel, by decide +kernel⟩

end Scriptlet.Parsing
