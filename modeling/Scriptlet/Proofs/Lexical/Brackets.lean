import Scriptlet.Proofs.Lexical.Layout

/-!
# Brackets under any vocabulary

Cutting a text with all terminals and reading it with those that can come next may give different words:
the start of a name can be read as a reserved word, and a row of equals signs can be divided up in several
ways. But the two only part ways inside such a name or row. They are together again at its end, and neither
finds a bracket in it.

## What is proved

* `Vocabulary.split?_full_of_split?`: everywhere else, what is read is what all terminals find.
* `ReadUpTo.skip`: a row of characters that words do not lead out of is read to its end.
* `ReadInto.exists_cutInto`: a text that can be read is cut to its end, into words with the same brackets.
-/

namespace Scriptlet.Lexical

open Scriptlet.Text

/-! ### Brackets -/

/-- Parentheses and braces. -/
def Terminal.isBracket : Terminal → Bool
  | .leftParen | .rightParen | .leftBrace | .rightBrace => true
  | _ => false

/-- The brackets among words, in order. -/
def brackets (ts : List Token) : List Terminal := (ts.map Token.kind).filter Terminal.isBracket

@[simp] theorem brackets_append (ts us : List Token) :
    brackets (ts ++ us) = brackets ts ++ brackets us := by
  simp [brackets]

theorem brackets_cons_of_not_isBracket {t : Token} (ts : List Token)
    (h : t.kind.isBracket = false) : brackets (t :: ts) = brackets ts := by
  simp [brackets, h]

theorem brackets_cons_congr (t : Token) {ts us : List Token} (h : brackets ts = brackets us) :
    brackets (t :: ts) = brackets (t :: us) := by
  have hsplit : ∀ vs : List Token, brackets (t :: vs) = brackets [t] ++ brackets vs :=
    fun vs => brackets_append [t] vs
  rw [hsplit ts, hsplit us, h]

/-- What is ignored is no bracket. -/
theorem brackets_significant (ts : List Token) : brackets (significant ts) = brackets ts := by
  induction ts with
  | nil => rfl
  | cons t ts ih =>
    by_cases hi : t.kind.isIgnored
    · have hbracket : t.kind.isBracket = false := by
        revert hi
        cases t.kind <;> decide
      rw [significant_cons_of_ignored hi, brackets_cons_of_not_isBracket ts hbracket, ih]
    · rw [significant_cons_of_not_ignored (by simpa using hi)]
      exact brackets_cons_congr t ih

/-! ### What starts with a character -/

theorem Terminal.starts_of_split?_eq {t : Terminal} {c : Char} {cs word rest : List Char}
    (h : t.split? (c :: cs) = some (word, rest)) : t.starts c = true :=
  Terminal.starts_of_split? (by rw [h]; rfl)

/-- The terminal of the words that start with a character, where neither a name nor a comment nor an
equals sign stands. -/
def Terminal.ofStart (c : Char) : Terminal :=
  if c.isDigit then .number
  else if isSpace c then .blank
  else match c with
    | '"' | '\'' => .string
    | '!' | '<' | '>' => .comparison
    | '+' | '-' => .sign
    | '*' | '/' | '%' => .factor
    | '(' => .leftParen
    | ')' => .rightParen
    | '\x7b' => .leftBrace
    | '\x7d' => .rightBrace
    | ',' => .comma
    | ';' => .semicolon
    | ':' => .colon
    | _ => .dot

theorem Terminal.eq_ofStart {t : Terminal} {c : Char} (hname : isNameStart c = false)
    (hequals : c ≠ '=') (hline : t ≠ .lineComment) (hblock : t ≠ .blockComment)
    (h : t.starts c = true) : t = ofStart c := by
  cases t
  case name =>
    rw [starts, hname] at h
    cases h
  case number =>
    have hdigit : c.isDigit = true := h
    unfold ofStart
    rw [if_pos hdigit]
  case lineComment => exact absurd rfl hline
  case blockComment => exact absurd rfl hblock
  case blank => rcases isSpace_iff.mp h with rfl | rfl | rfl | rfl | rfl <;> rfl
  case equals => exact absurd (of_decide_eq_true h) hequals
  case functionWord | returnWord | elseWord | varWord | letWord | ifWord =>
    obtain rfl := of_decide_eq_true h
    exact absurd hname (by decide)
  all_goals
    simp only [starts, Bool.or_eq_true, decide_eq_true_eq, or_assoc] at h
    rcases h with rfl | rfl | rfl | rfl <;> first | rfl | exact absurd rfl hequals

/-- Where a number can start and no name, only numbers can. -/
theorem Terminal.eq_number_of_isDigit {t : Terminal} {c : Char} (hdigit : c.isDigit = true)
    (h : t.starts c = true) : t = .number := by
  cases t
  case number => rfl
  case name =>
    rcases eq_name_or_isReserved (t := .number) h hdigit with hnumber | hnumber
    · cases hnumber
    · cases hnumber
  all_goals
    simp only [starts, isSpace, Bool.or_eq_true, decide_eq_true_eq, or_assoc] at h
    rcases h with rfl | rfl | rfl | rfl | rfl <;> exact absurd hdigit (by decide)

namespace Vocabulary

theorem isNameStart_of_split?_name {c : Char} {cs word rest : List Char}
    (h : Terminal.name.split? (c :: cs) = some (word, rest)) : isNameStart c = true :=
  Terminal.starts_of_split?_eq h

/-- Where no name starts, what is found is one of the terminals that are tried. -/
theorem mem_tried_of_split? {v : Vocabulary} {t : Terminal} {c : Char} {cs word rest : List Char}
    (hname : isNameStart c = false) (h : v.split? (c :: cs) = some (t, word, rest)) :
    t ∈ v.tried := by
  obtain ⟨u, hu, h⟩ := List.exists_of_findSome?_eq_some h
  simp only [Option.map_eq_some_iff, Prod.mk.injEq, Prod.exists] at h
  obtain ⟨w, r, hs, hkind, -, -⟩ := h
  have hne : u ≠ .name := by
    rintro rfl
    rw [isNameStart_of_split?_name hs] at hname
    cases hname
  rw [kindOf, if_neg hne] at hkind
  exact hkind ▸ hu

/-- Where a word of any kind stands, all terminals find one. -/
theorem exists_split?_full {t : Terminal} {cs word rest : List Char}
    (hs : t.split? cs = some (word, rest)) : ∃ found, full.split? cs = some found := by
  cases hn : Terminal.name.split? cs with
  | some found => exact ⟨_, split?_of_name (v := full) rfl hn⟩
  | none =>
    have hreserved : t.isReserved = false := not_isReserved_of_split? hn (by rw [hs]; rfl)
    have hmem : t ∈ full.tried := mem_tried.mpr ⟨rfl, by simp [hreserved]⟩
    refine Option.isSome_iff_exists.mp (List.findSome?_isSome_iff.mpr ⟨t, hmem, ?_⟩)
    rw [hs]
    rfl

/-- Where all terminals find no word, none of them takes one. -/
theorem split?_eq_none_of_full {cs : List Char} (h : full.split? cs = none) (t : Terminal) :
    t.split? cs = none := by
  rw [← Option.not_isSome_iff_eq_none]
  intro hsome
  obtain ⟨⟨word, rest⟩, hsplit⟩ := Option.isSome_iff_exists.mp hsome
  obtain ⟨found, hfound⟩ := exists_split?_full hsplit
  rw [h] at hfound
  cases hfound

/-- Comments are found with every vocabulary. -/
theorem split?_full_of_comment {t : Terminal} {cs word rest : List Char}
    (ht : t = .lineComment ∨ t = .blockComment) (h : t.split? cs = some (word, rest)) :
    full.split? cs = some (t, word, rest) := by
  rcases ht with rfl | rfl
  · simp only [Terminal.split?, splitLineComment] at h
    split at h
    · exact split?_of_first [.name, .number, .string] rfl rfl h
        fun u hu => Terminal.split?_eq_none (by revert u; decide)
    · cases h
  · have hs := h
    simp only [Terminal.split?, splitBlockComment] at h
    split at h
    · refine split?_of_first [.name, .number, .string, .lineComment] rfl rfl hs fun u hu => ?_
      by_cases hline : u = .lineComment
      · rw [hline]
        rfl
      · exact Terminal.split?_eq_none (by revert u; decide)
    · cases h

/-- **Where neither a name nor an equals sign stands, all terminals find what a vocabulary finds** that
holds all that is ignored. -/
theorem split?_full_of_split? {v : Vocabulary} (hv : ∀ t : Terminal, t.isIgnored → v t) {t : Terminal}
    {c : Char} {cs word rest : List Char} (hname : isNameStart c = false) (hequals : c ≠ '=')
    (h : v.split? (c :: cs) = some (t, word, rest)) :
    full.split? (c :: cs) = some (t, word, rest) := by
  by_cases hcomment : t = .lineComment ∨ t = .blockComment
  · exact split?_full_of_comment hcomment (split?_kind h)
  · obtain ⟨⟨u, w, r⟩, hfull⟩ := exists_split?_full (split?_kind h)
    -- both terminals start with the character, so they are the same one
    have htu : v u = true := by
      by_cases hi : u.isIgnored
      · exact hv u hi
      · have hu : u = .ofStart c := by
          refine Terminal.eq_ofStart hname hequals ?_ ?_
            (Terminal.starts_of_split?_eq (split?_kind hfull))
          · rintro rfl
            exact hi rfl
          · rintro rfl
            exact hi rfl
        have ht : t = .ofStart c := by
          rw [not_or] at hcomment
          exact Terminal.eq_ofStart hname hequals hcomment.1 hcomment.2
            (Terminal.starts_of_split?_eq (split?_kind h))
        rw [hu, ← ht]
        exact (mem_tried.mp (mem_tried_of_split? hname h)).1
    rw [split?_of_full hfull htu] at h
    rw [hfull, h]

end Vocabulary

/-! ### Rows of characters that words do not lead out of -/

/-- Words that start in a class of characters stay in it, and are no brackets. -/
def Confines (p : Char → Bool) : Prop :=
  ∀ (t : Terminal) (c : Char) (cs word rest : List Char), p c = true →
    t.split? (c :: cs) = some (word, rest) → t.isBracket = false ∧ ∀ d ∈ word, p d = true

theorem mem_of_splitHead {p q : Char → Bool} {cs word rest : List Char}
    (h : splitHead p q cs = some (word, rest)) (hpq : ∀ c, p c = true → q c = true) :
    ∀ d ∈ word, q d = true := by
  cases cs with
  | nil => cases h
  | cons c cs =>
    simp only [splitHead, Option.ite_none_right_eq_some, Option.some.injEq, Prod.mk.injEq] at h
    obtain ⟨hc, rfl, -⟩ := h
    refine List.forall_mem_cons.mpr ⟨hpq c hc, fun d hd => ?_⟩
    exact List.all_eq_true.mp List.all_takeWhile d hd

theorem isNamePart_of_split?_name {cs word rest : List Char}
    (h : Terminal.name.split? cs = some (word, rest)) : ∀ d ∈ word, isNamePart d = true := by
  have hsplit : splitHead isNameStart isNamePart cs = some (word, rest) := h
  refine mem_of_splitHead hsplit fun d hd => ?_
  rw [isNamePart, hd, Bool.true_or]

theorem isDigit_of_split?_number {cs word rest : List Char}
    (h : Terminal.number.split? cs = some (word, rest)) : ∀ d ∈ word, d.isDigit = true := by
  have hsplit : splitHead Char.isDigit Char.isDigit cs = some (word, rest) := h
  exact mem_of_splitHead hsplit fun _ => id

/-- In a name there are only names, reserved words and numbers. -/
theorem confines_isNamePart : Confines isNamePart := by
  intro t c cs word rest hc h
  have hstarts := Terminal.starts_of_split?_eq h
  have ht : t = .name ∨ t.isReserved = true ∨ t = .number := by
    rw [isNamePart, Bool.or_eq_true] at hc
    by_cases hname : isNameStart c = true
    · exact (Terminal.eq_name_or_isReserved hname hstarts).imp_right .inl
    · have hdigit : c.isDigit = true := hc.resolve_left hname
      exact .inr (.inr (Terminal.eq_number_of_isDigit hdigit hstarts))
  rcases ht with rfl | ht | rfl
  · exact ⟨rfl, isNamePart_of_split?_name h⟩
  · obtain ⟨w, hw⟩ := Option.isSome_iff_exists.mp ht
    rw [Terminal.split?_of_reserved hw] at h
    obtain ⟨rfl, -⟩ := splitExact_eq_some h
    obtain ⟨d, ds, rfl, hd, hds⟩ := Terminal.reserved_form hw
    refine ⟨?_, List.forall_mem_cons.mpr ⟨?_, hds⟩⟩
    · cases t <;> first | rfl | cases hw
    · rw [isNamePart, hd, Bool.true_or]
  · exact ⟨rfl, fun d hd => isNamePart_of_isDigit (isDigit_of_split?_number h d hd)⟩

/-- In a row of equals signs there are only such signs and comparisons. -/
theorem confines_equals : Confines (· = '=') := by
  intro t c cs word rest hc h
  obtain rfl := of_decide_eq_true hc
  have hstarts := Terminal.starts_of_split?_eq h
  have ht : t = .comparison ∨ t = .equals := by
    revert hstarts
    cases t <;> decide
  rcases ht with rfl | rfl
  · refine ⟨rfl, ?_⟩
    simp only [Terminal.split?, splitComparison] at h
    split at h <;> simp_all
    simp [← h.1]
  · obtain ⟨rfl, -⟩ := splitExact_eq_some h
    exact ⟨rfl, fun d hd => decide_eq_true (List.mem_singleton.mp hd)⟩

/-- A row of characters that words do not lead out of is read to its end, in words that start in it and
are no brackets. -/
theorem ReadUpTo.skip {p : Char → Bool} (hp : Confines p) {run rest : List Char}
    (hrun : ∀ d ∈ run, p d = true) (hrest : ∀ d ∈ rest.head?, p d = false) {pos : Position}
    {ts : List Token} {c' : Cursor} (h : ReadUpTo ⟨pos, run ++ rest⟩ ts c')
    (hout : ∀ d ∈ c'.rest.head?, p d = false) :
    ∃ us vs, ts = us ++ vs ∧ ReadUpTo ⟨pos, run ++ rest⟩ us ⟨pos.advance run, rest⟩ ∧
      ReadUpTo ⟨pos.advance run, rest⟩ vs c' ∧
      ∀ t ∈ us, t.kind.isBracket = false ∧ ∃ d, p d = true ∧ t.kind.starts d = true := by
  generalize hc : (⟨pos, run ++ rest⟩ : Cursor) = c at h
  induction h generalizing pos run with
  | nil c =>
    subst hc
    cases run with
    | nil => exact ⟨[], [], rfl, .nil _, .nil _, List.forall_mem_nil _⟩
    | cons e run =>
      have hin := hrun e List.mem_cons_self
      rw [hout e rfl] at hin
      cases hin
  | @cons v c d c' t ts hv hnext hs ih =>
    subst hc
    cases run with
    | nil => exact ⟨[], t :: ts, rfl, .nil _, .cons hv hnext hs, List.forall_mem_nil _⟩
    | cons e run =>
      have hin := hrun e List.mem_cons_self
      obtain ⟨hword, -, hstop, hafter⟩ := Cursor.stands_of_next? hnext
      obtain ⟨hbracket, hmem⟩ := hp t.kind e (run ++ rest) _ _ hin hword
      have hstarts : t.kind.starts e = true := Terminal.starts_of_split?_eq hword
      have hd : ∀ more, d.rest = more → d = ⟨pos.advance t.word, more⟩ := by
        rintro more rfl
        rw [← hstop, ← hafter]
      -- the word ends in the row, or with it
      obtain ⟨more, hsplit, hmore⟩ : ∃ more, e :: run = t.word ++ more ∧ d.rest = more ++ rest := by
        rcases List.append_eq_append_iff.mp (Cursor.next?_append hnext).1 with
          ⟨more, hsplit, hmore⟩ | ⟨more, hsplit, hmore⟩
        · exact ⟨more, hsplit, hmore⟩
        · have hnone : more = [] := by
            cases more with
            | nil => rfl
            | cons f more =>
              have hfalse := hrest f (by rw [hmore]; rfl)
              rw [hmem f (by rw [hsplit]; simp)] at hfalse
              cases hfalse
          subst hnone
          exact ⟨[], by rw [hsplit, List.append_nil, List.append_nil], hmore.symm⟩
      have hadvance : pos.advance (e :: run) = (pos.advance t.word).advance more := by
        rw [hsplit, Position.advance_append]
      obtain ⟨us, vs, rfl, hus, hvs, hkinds⟩ :=
        ih (fun f hf => hrun f (hsplit ▸ List.mem_append_right _ hf)) hout (hd _ hmore).symm
      rw [hadvance]
      refine ⟨t :: us, vs, rfl, .cons hv hnext (hd _ hmore ▸ hus), hvs, ?_⟩
      exact List.forall_mem_cons.mpr ⟨⟨hbracket, e, hin, hstarts⟩, hkinds⟩

/-- A row of characters that words do not lead out of is read to its end, and holds no bracket. -/
theorem ReadInto.skip {p : Char → Bool} (hp : Confines p) {run rest : List Char}
    (hrun : ∀ d ∈ run, p d = true) (hrest : ∀ d ∈ rest.head?, p d = false) {pos : Position}
    {ts : List Token} (h : ReadInto ⟨pos, run ++ rest⟩ ts) :
    ∃ us, ReadInto ⟨pos.advance run, rest⟩ us ∧ brackets us = brackets ts := by
  obtain ⟨e, hend, hread⟩ := h.exists_readUpTo
  obtain ⟨us, vs, rfl, -, hvs, hkinds⟩ := hread.skip hp hrun hrest fun d hd => by rw [hend] at hd; cases hd
  refine ⟨vs, hvs.readInto hend, ?_⟩
  have hnone : brackets us = [] := by
    refine List.filter_eq_nil_iff.mpr (List.forall_mem_map.mpr fun t ht => ?_)
    rw [(hkinds t ht).1]
    exact Bool.false_ne_true
  have happend : brackets (us ++ vs) = brackets us ++ brackets vs := by
    rw [brackets, List.map_append, List.filter_append]
    rfl
  rw [happend, hnone, List.nil_append]

/-! ### Cutting what can be read -/

/-- All terminals cut a row of equals signs into pairs and a last one. -/
theorem exists_cutInto_equals {n : Nat} {rest : List Char} (hrest : ∀ d ∈ rest.head?, d ≠ '=')
    {pos : Position} {us : List Token}
    (h : CutInto .full ⟨pos.advance (List.replicate n '='), rest⟩ us) :
    ∃ ts, CutInto .full ⟨pos, List.replicate n '=' ++ rest⟩ ts ∧ brackets ts = brackets us := by
  induction n using Nat.strongRecOn generalizing pos with
  | ind n ih =>
    match n with
    | 0 => exact ⟨us, h, rfl⟩
    | 1 =>
      have hsplit := Word.readable_equals.split rest fun d hd => by
        simpa [Terminal.goesOn] using hrest d hd
      have hnext : Cursor.next? .full ⟨pos, ['='] ++ rest⟩ =
          some (⟨.equals, ['='], pos, pos.advance ['=']⟩, ⟨pos.advance ['='], rest⟩) := by
        rw [Cursor.next?, hsplit]
        rfl
      exact ⟨_, .cons hnext h, brackets_cons_of_not_isBracket us rfl⟩
    | n + 2 =>
      have hrest : CutInto .full
          ⟨((pos.step '=').step '=').advance (List.replicate n '='), rest⟩ us := h
      obtain ⟨ts, hcut, hts⟩ := ih n (by omega) hrest
      have hnext : Cursor.next? .full ⟨pos, List.replicate (n + 2) '=' ++ rest⟩ =
          some (⟨.comparison, ['=', '='], pos, pos.advance ['=', '=']⟩,
            ⟨pos.advance ['=', '='], List.replicate n '=' ++ rest⟩) := rfl
      exact ⟨_, .cons hnext hcut, (brackets_cons_of_not_isBracket ts rfl).trans hts⟩

/-- A text that starts with an equals sign starts with a row of them. -/
theorem cons_equals_eq (cs : List Char) :
    '=' :: cs =
      List.replicate ((cs.takeWhile (· = '=')).length + 1) '=' ++ cs.dropWhile (· = '=') := by
  have hall : cs.takeWhile (· = '=') = List.replicate (cs.takeWhile (· = '=')).length '=' :=
    List.eq_replicate_of_mem fun d hd =>
      of_decide_eq_true (List.all_eq_true.mp List.all_takeWhile d hd)
  rw [List.replicate_succ, List.cons_append, ← hall, List.takeWhile_append_dropWhile]

/-- A kind that a name can have is no bracket. -/
theorem Vocabulary.isBracket_kindOfName (v : Vocabulary) (word : List Char) :
    (v.kindOfName word).isBracket = false := by
  by_cases h : v.kindOfName word = .name
  · rw [h]
    rfl
  · have hr := reserved_kindOfName h
    revert hr
    cases v.kindOfName word <;> first | exact fun _ => rfl | nofun

theorem head?_dropWhile {p : Char → Bool} (cs : List Char) :
    ∀ d ∈ (cs.dropWhile p).head?, p d = false := by
  intro d hd
  have hnot := List.head?_dropWhile_not p cs
  rw [Option.mem_def] at hd
  simpa [hd] using hnot

/-- Where neither a name nor an equals sign stands, all terminals find what a vocabulary finds that holds
all that is ignored. -/
theorem next?_full_of_next? {v : Vocabulary} (hv : ∀ t : Terminal, t.isIgnored → v t) {pos : Position}
    {ch : Char} {cs : List Char} {found : Token × Cursor} (hname : isNameStart ch = false)
    (hequals : ch ≠ '=') (h : Cursor.next? v ⟨pos, ch :: cs⟩ = some found) :
    Cursor.next? .full ⟨pos, ch :: cs⟩ = some found := by
  simp only [Cursor.next?, Option.map_eq_some_iff, Prod.exists] at h ⊢
  obtain ⟨kind, word, rest, hsplit, heq⟩ := h
  exact ⟨kind, word, rest, Vocabulary.split?_full_of_split? hv hname hequals hsplit, heq⟩

/-- **A text that can be read is cut to its end**, into words with the same brackets. -/
theorem ReadInto.exists_cutInto {c : Cursor} {ts : List Token} (h : ReadInto c ts) :
    ∃ us, CutInto .full c us ∧ brackets us = brackets ts := by
  obtain ⟨pos, cs⟩ := c
  induction hlen : cs.length using Nat.strongRecOn generalizing pos cs ts with
  | ind n ih =>
    subst hlen
    cases cs with
    | nil =>
      cases h with
      | nil => exact ⟨[], .nil pos, rfl⟩
      | cons _ hnext _ => cases Cursor.next?_length hnext
    | cons c cs =>
      by_cases hname : isNameStart c = true
      · -- a name: the whole of it is one word
        have hword : Terminal.name.split? (c :: cs) =
            some (c :: cs.takeWhile isNamePart, cs.dropWhile isNamePart) := if_pos hname
        have happend := Terminal.append_of_split hword
        rw [← happend] at h
        obtain ⟨us, hread, hus⟩ := h.skip confines_isNamePart
          (isNamePart_of_split?_name hword) (head?_dropWhile cs)
        obtain ⟨vs, hcut, hvs⟩ := ih _ (Nat.lt_succ_of_le (List.dropWhile_sublist _).length_le)
          _ _ hread rfl
        have hnext := Vocabulary.split?_of_name (v := .full) rfl hword
        refine ⟨_ :: vs, .cons (by rw [Cursor.next?, hnext]; rfl) hcut, ?_⟩
        rw [brackets_cons_of_not_isBracket vs (Vocabulary.isBracket_kindOfName _ _), hvs, hus]
      · by_cases hequals : c = '='
        · -- a row of equals signs
          subst hequals
          rw [cons_equals_eq cs] at h ⊢
          obtain ⟨us, hread, hus⟩ := h.skip confines_equals
            (fun d hd => decide_eq_true (List.eq_of_mem_replicate hd)) (head?_dropWhile cs)
          obtain ⟨vs, hcut, hvs⟩ := ih _ (Nat.lt_succ_of_le (List.dropWhile_sublist _).length_le)
            _ _ hread rfl
          obtain ⟨ws, hcut, hws⟩ := exists_cutInto_equals
            (fun d hd => of_decide_eq_false (head?_dropWhile cs d hd)) hcut
          exact ⟨ws, hcut, hws.trans (hvs.trans hus)⟩
        · cases h with
          | @cons v _ d t ts hv hnext hs =>
            have hlen := Cursor.next?_length hnext
            obtain ⟨us, hcut, hus⟩ := ih _ hlen _ _ hs rfl
            have hnext := next?_full_of_next? hv (eq_false_of_ne_true hname) hequals hnext
            exact ⟨t :: us, .cons hnext hcut, brackets_cons_congr t hus⟩

/-- Of three equals signs all terminals take the first two together. Where no comparison can come next,
the first is a word by itself. -/
example : (cut "===").tokens.map Token.kind = [.comparison, .equals] ∧
    ((Cursor.ofString "===").next? (· ≠ .comparison)).map (·.1.kind) = some .equals := by
  decide

end Scriptlet.Lexical
