import Scriptlet.Proofs.Lexical.Gaps

/-!
# Indented texts

While a text is typed line by line, every line but the first is indented. Only blanks and comments between
marks can go over the end of a line, and with white space put in after its line feeds either is the same kind
of word that it was. Every other word stays as it is, even where the text is typed only up to some place
behind it.

A comment of which only the start has been typed is none: its end is missing. It is cut into words as if it
were script. As long as a word that is no bracket can start with each of its characters, this comes to an end
and finds no bracket.

## What is proved

* `Terminal.eq_of_feed`: which words can hold line feeds.
* `Vocabulary.split?_indent`: the word at the start of a text, in the indented text.
* `exists_readInto_of_isBland`: a text of such characters is read, and has no brackets.
-/

namespace Scriptlet.Lexical

/-- The second text is the first one with white space put in after line feeds. -/
inductive Indented : List Char → List Char → Prop where
  /-- Nothing is left. -/
  | nil : Indented [] []
  /-- A line goes on. -/
  | char {c : Char} {cs cs' : List Char} (hc : c ≠ '\n') (h : Indented cs cs') :
    Indented (c :: cs) (c :: cs')
  /-- Another line starts. -/
  | feed {gap cs cs' : List Char} (hgap : Spaces gap) (h : Indented cs cs') :
    Indented ('\n' :: cs) ('\n' :: (gap ++ cs'))

namespace Indented

variable {cs cs' ds ds' : List Char}

theorem append (h : Indented cs cs') (hs : Indented ds ds') : Indented (cs ++ ds) (cs' ++ ds') := by
  induction h with
  | nil => exact hs
  | char hc _ ih => exact .char hc ih
  | @feed gap cs cs' hgap _ ih =>
    rw [List.cons_append, List.cons_append, List.append_assoc]
    exact .feed hgap ih

/-- The parts of a text are indented one by one. -/
theorem exists_append (h : Indented (cs ++ ds) cs') :
    ∃ es fs, cs' = es ++ fs ∧ Indented cs es ∧ Indented ds fs := by
  induction cs generalizing cs' with
  | nil => exact ⟨[], cs', rfl, .nil, h⟩
  | cons c cs ih =>
    cases h with
    | char hc h =>
      obtain ⟨es, fs, rfl, hes, hfs⟩ := ih h
      exact ⟨_, fs, rfl, .char hc hes, hfs⟩
    | @feed gap _ _ hgap h =>
      obtain ⟨es, fs, rfl, hes, hfs⟩ := ih h
      exact ⟨_, fs, by rw [List.cons_append, List.append_assoc], .feed hgap hes, hfs⟩

theorem head? (h : Indented cs cs') : cs'.head? = cs.head? := by
  cases h <;> rfl

/-- A text of one line stays as it is. -/
theorem eq_of_line (h : Indented cs cs') (hline : '\n' ∉ cs) : cs' = cs := by
  induction h with
  | nil => rfl
  | char _ _ ih => rw [ih fun hm => hline (List.mem_cons_of_mem _ hm)]
  | feed => exact absurd List.mem_cons_self hline

theorem spaces (h : Indented cs cs') (hcs : Spaces cs) : Spaces cs' := by
  induction h with
  | nil => exact hcs
  | char _ _ ih =>
    obtain ⟨hc, hcs⟩ := List.forall_mem_cons.mp hcs
    exact List.forall_mem_cons.mpr ⟨hc, ih hcs⟩
  | feed hgap _ ih =>
    obtain ⟨hc, hcs⟩ := List.forall_mem_cons.mp hcs
    exact List.forall_mem_cons.mpr ⟨hc, List.forall_mem_append.mpr ⟨hgap, ih hcs⟩⟩

/-- The start of a text, indented, is the text with white space put in. -/
theorem widened (h : Indented cs cs') (more : List Char) : Widened (cs ++ more) cs' := by
  induction h with
  | nil => exact .stop
  | char _ _ ih => exact .cons ih
  | @feed gap cs cs' hgap _ ih =>
    refine .cons ?_
    induction gap with
    | nil => exact ih
    | cons g gap ihgap =>
      obtain ⟨hg, hgap⟩ := List.forall_mem_cons.mp hgap
      exact .space hg (ihgap hgap)

end Indented

/-! ### Words over several lines -/

theorem line_of_splitQuoted {mark : Char} {cs word rest : List Char} (hmark : mark ≠ '\n')
    (h : splitQuoted mark cs = some (word, rest)) : '\n' ∉ word := by
  fun_induction splitQuoted mark cs generalizing word rest with
  | case1 | case2 | case3 | case6 => cases h
  | case4 c cs hn ih =>
    simp only [before, Option.map_eq_some_iff, Prod.mk.injEq, Prod.exists] at h
    obtain ⟨w, r, hw, rfl, rfl⟩ := h
    simpa [Ne.symm hn] using ih hw
  | case5 cs hback hescape =>
    simp only [Option.some.injEq, Prod.mk.injEq] at h
    obtain ⟨rfl, rfl⟩ := h
    simpa using Ne.symm hmark
  | case7 c cs hback hescape hquote hn ih =>
    simp only [before, Option.map_eq_some_iff, Prod.mk.injEq, Prod.exists] at h
    obtain ⟨w, r, hw, rfl, rfl⟩ := h
    simpa [Ne.symm hn] using ih hw

theorem line_of_splitString {cs word rest : List Char} (h : splitString cs = some (word, rest)) :
    '\n' ∉ word := by
  cases cs with
  | nil => cases h
  | cons c cs =>
    simp only [splitString, Option.ite_none_right_eq_some, before, Option.map_eq_some_iff,
      Prod.mk.injEq, Prod.exists] at h
    obtain ⟨hc, w, r, hw, rfl, rfl⟩ := h
    have hquote : c ≠ '\n' := by rintro rfl; cases hc
    simpa [Ne.symm hquote] using line_of_splitQuoted hquote hw

/-- **Only blanks and comments between marks go over the end of a line.** -/
theorem Terminal.eq_of_feed {t : Terminal} {cs word rest : List Char}
    (h : t.split? cs = some (word, rest)) (hfeed : '\n' ∈ word) : t = .blank ∨ t = .blockComment := by
  cases t
  case blank => exact .inl rfl
  case blockComment => exact .inr rfl
  case name => exact absurd (isNamePart_of_split?_name h _ hfeed) (by decide)
  case number => exact absurd (isDigit_of_split?_number h _ hfeed) (by decide)
  case string => exact absurd hfeed (line_of_splitString h)
  case lineComment =>
    obtain ⟨ds, rfl, hds, -⟩ := splitLineComment_eq_some h
    have hm : '\n' ∈ ds := by simpa using hfeed
    exact absurd rfl (hds _ hm)
  case comparison =>
    simp only [split?, splitComparison] at h
    split at h <;> simp_all
    all_goals
      obtain ⟨rfl, -⟩ := h
      simp at hfeed
  case sign | factor =>
    cases cs with
    | nil => cases h
    | cons c cs =>
      simp only [split?, splitOne, Option.ite_none_right_eq_some, Option.some.injEq,
        Prod.mk.injEq] at h
      obtain ⟨hc, rfl, -⟩ := h
      obtain rfl := List.mem_singleton.mp hfeed
      exact absurd hc (by decide)
  all_goals
    obtain ⟨rfl, -⟩ := splitExact_eq_some h
    exact absurd hfeed (by decide)

/-! ### Words of indented texts -/

theorem splitCommentEnd_spaces {gap cs : List Char} (hgap : Spaces gap)
    (h : splitCommentEnd cs = some (cs, [])) :
    splitCommentEnd (gap ++ cs) = some (gap ++ cs, []) := by
  induction gap with
  | nil => exact h
  | cons g gap ih =>
    obtain ⟨hg, hgap⟩ := List.forall_mem_cons.mp hgap
    have hstar : g ≠ '*' := by rintro rfl; cases hg
    rw [List.cons_append, splitCommentEnd_cons (absurd · hstar), ih hgap]
    rfl

theorem splitCommentEnd_tail {c : Char} {cs : List Char} (hc : c = '*' → cs.head? ≠ some '/')
    (h : splitCommentEnd (c :: cs) = some (c :: cs, [])) : splitCommentEnd cs = some (cs, []) := by
  rw [splitCommentEnd_cons hc] at h
  simp only [before, Option.map_eq_some_iff, Prod.mk.injEq, Prod.exists] at h
  obtain ⟨w, r, hw, hword, rfl⟩ := h
  obtain ⟨-, rfl⟩ := List.cons.inj hword
  exact hw

/-- A comment ends at the same mark when it is indented. -/
theorem splitCommentEnd_indent {cs cs' : List Char} (hi : Indented cs cs')
    (h : splitCommentEnd cs = some (cs, [])) : splitCommentEnd cs' = some (cs', []) := by
  induction hi with
  | nil => cases h
  | @char c cs cs' hc hi ih =>
    by_cases hend : c = '*' → cs.head? ≠ some '/'
    · rw [splitCommentEnd_cons (hi.head? ▸ hend), ih (splitCommentEnd_tail hend h)]
      rfl
    · obtain ⟨rfl, hslash⟩ : c = '*' ∧ cs.head? = some '/' := by simpa using hend
      obtain ⟨ds, rfl⟩ := List.head?_eq_some_iff.mp hslash
      obtain rfl : ds = [] := congrArg Prod.snd (Option.some.inj h)
      rw [hi.eq_of_line (by decide)]
      rfl
  | @feed gap cs cs' hgap hi ih =>
    have hfeed : ∀ ds : List Char, '\n' = '*' → ds.head? ≠ some '/' :=
      fun _ heq => absurd heq (by decide)
    have hrest := splitCommentEnd_spaces hgap (ih (splitCommentEnd_tail (hfeed _) h))
    rw [splitCommentEnd_cons (hfeed _), hrest]
    rfl

theorem splitBlockComment_eq_some {word : List Char} (h : splitBlockComment word = some (word, [])) :
    ∃ cs, word = ['/', '*'] ++ cs ∧ splitCommentEnd cs = some (cs, []) := by
  unfold splitBlockComment at h
  split at h
  · simp only [before, Option.map_eq_some_iff, Prod.mk.injEq, Prod.exists] at h
    obtain ⟨w, r, hw, hword, rfl⟩ := h
    exact ⟨w, hword.symm, by rw [List.append_cancel_left hword] at hw ⊢; exact hw⟩
  · cases h

/-- A comment between marks is one when it is indented, whatever comes after it. -/
theorem splitBlockComment_indent {word word' rest : List Char} (hi : Indented word word')
    (h : splitBlockComment (word ++ rest) = some (word, rest)) (rest' : List Char) :
    splitBlockComment (word' ++ rest') = some (word', rest') := by
  have hword := splitBlockComment_before h []
  rw [List.append_nil] at hword
  obtain ⟨cs, rfl, hcs⟩ := splitBlockComment_eq_some hword
  obtain ⟨mark, cs', rfl, hmark, hcs'⟩ := hi.exists_append
  obtain rfl := hmark.eq_of_line (by decide)
  have hcomment : splitBlockComment (['/', '*'] ++ cs' ++ []) = some (['/', '*'] ++ cs', []) := by
    rw [List.append_nil]
    show before ['/', '*'] (splitCommentEnd cs') = _
    rw [splitCommentEnd_indent hcs' hcs]
    rfl
  exact splitBlockComment_before hcomment rest'

/-- **The word at the start of a text is also found in the indented text**, or in the start of it. -/
theorem Vocabulary.split?_indent {v : Vocabulary} (hv : ∀ t : Terminal, t.isIgnored → v t)
    {k : Terminal} {word word' rest more rest' : List Char}
    (h : v.split? (word ++ (rest ++ more)) = some (k, word, rest ++ more))
    (hword : Indented word word') (hrest : Indented rest rest') :
    v.split? (word' ++ rest') = some (k, word', rest') := by
  have hkind := split?_kind h
  have hhead : ∀ c ∈ rest'.head?, c ∈ (rest ++ more).head? := by
    intro c hc
    rw [hrest.head?] at hc
    rw [List.head?_append, Option.mem_def.mp hc]
    rfl
  by_cases hblank : k = .blank
  · subst hblank
    obtain ⟨hspaces, hend⟩ := spaces_of_split?_blank hkind
    have hne : word' ≠ [] := by
      intro hnil
      have hnone := hword.head?
      rw [hnil] at hnone
      exact (append_of_split h).2 (List.head?_eq_none_iff.mp hnone.symm)
    exact split?_spaces (hv _ rfl) hne (hword.spaces hspaces) fun c hc => hend c (hhead c hc)
  · by_cases hblock : k = .blockComment
    · subst hblock
      have hcomment := splitBlockComment_indent hword hkind rest'
      exact split?_of_full (split?_full_of_comment (.inr rfl) hcomment) (hv _ rfl)
    · have hline : '\n' ∉ word := fun hm => (Terminal.eq_of_feed hkind hm).elim hblank hblock
      rw [hword.eq_of_line hline]
      exact split?_widen h (hrest.widened more) (.inr hhead)

/-! ### Texts without brackets -/

/-- A word starts with the character, whatever comes after it, and that word is no bracket. -/
def isBland (c : Char) : Bool :=
  isNamePart c || isSpace c ||
    ['=', '<', '>', '+', '-', '*', '/', '%', ',', ';', ':', '.'].contains c

/-- All characters of a text are such that words start with them. -/
def Bland (cs : List Char) : Prop := ∀ c ∈ cs, isBland c = true

theorem Spaces.bland {cs : List Char} (h : Spaces cs) : Bland cs := by
  intro c hc
  rw [isBland, h c hc, Bool.or_true, Bool.true_or]

theorem Indented.bland {cs cs' : List Char} (h : Indented cs cs') (hcs : Bland cs) : Bland cs' := by
  induction h with
  | nil => exact hcs
  | char _ _ ih =>
    obtain ⟨hc, hcs⟩ := List.forall_mem_cons.mp hcs
    exact List.forall_mem_cons.mpr ⟨hc, ih hcs⟩
  | feed hgap _ ih =>
    obtain ⟨hc, hcs⟩ := List.forall_mem_cons.mp hcs
    exact List.forall_mem_cons.mpr ⟨hc, List.forall_mem_append.mpr ⟨hgap.bland, ih hcs⟩⟩

theorem isSome_splitComparison {c : Char} (hc : c = '<' ∨ c = '>') (cs : List Char) :
    (splitComparison (c :: cs)).isSome = true := by
  rcases hc with rfl | rfl
  all_goals
    unfold splitComparison
    split <;> simp_all

/-- A word starts there. -/
theorem exists_isSome_split? {c : Char} (hc : isBland c = true) (cs : List Char) :
    ∃ t : Terminal, (t.split? (c :: cs)).isSome = true := by
  simp only [isBland, isNamePart, Bool.or_eq_true, List.contains_iff_mem, List.mem_cons,
    List.not_mem_nil, or_false] at hc
  rcases hc with ((hname | hdigit) | hspace) | rfl | hless | hmore | hmark
  · exact ⟨.name, Option.isSome_of_eq_some (if_pos hname)⟩
  · exact ⟨.number, Option.isSome_of_eq_some (if_pos hdigit)⟩
  · exact ⟨.blank, Option.isSome_of_eq_some (if_pos hspace)⟩
  · exact ⟨.equals, rfl⟩
  · exact ⟨.comparison, isSome_splitComparison (.inl hless) cs⟩
  · exact ⟨.comparison, isSome_splitComparison (.inr hmore) cs⟩
  · refine ⟨.ofStart c, ?_⟩
    rcases hmark with rfl | rfl | rfl | rfl | rfl | rfl | rfl | rfl | rfl
    all_goals rfl

/-- It is no bracket. -/
theorem Terminal.isBracket_eq_false {t : Terminal} {c : Char} {cs word rest : List Char}
    (hc : isBland c = true) (h : t.split? (c :: cs) = some (word, rest)) : t.isBracket = false := by
  have hstarts := starts_of_split?_eq h
  cases t
  case leftParen | rightParen | leftBrace | rightBrace =>
    obtain rfl := of_decide_eq_true hstarts
    exact absurd hc (by decide)
  all_goals rfl

/-- **A text of characters that words start with is read to its end**, and has no brackets. -/
theorem exists_readInto_of_isBland {cs : List Char} (h : Bland cs) (p : Text.Position) :
    ∃ ts, ReadInto ⟨p, cs⟩ ts ∧ brackets ts = [] := by
  induction hlen : cs.length using Nat.strongRecOn generalizing cs p with
  | ind n ih =>
    subst hlen
    cases cs with
    | nil => exact ⟨[], .nil p, rfl⟩
    | cons c cs =>
      obtain ⟨t, hsome⟩ := exists_isSome_split? (h c List.mem_cons_self) cs
      obtain ⟨_, hword⟩ := Option.isSome_iff_exists.mp hsome
      obtain ⟨⟨k, word, rest⟩, hfull⟩ := Vocabulary.exists_split?_full hword
      obtain ⟨happend, hne⟩ := Vocabulary.append_of_split hfull
      have hnext : Cursor.next? .full ⟨p, c :: cs⟩ =
          some (⟨k, word, p, p.advance word⟩, ⟨p.advance word, rest⟩) := by
        rw [Cursor.next?, hfull]
        rfl
      have hrest : Bland rest := fun d hd => h d (happend ▸ List.mem_append_right _ hd)
      obtain ⟨ts, hts, hbrackets⟩ := ih _ (Cursor.next?_length hnext) hrest (p.advance word) rfl
      have hbracket : k.isBracket = false :=
        Terminal.isBracket_eq_false (h c List.mem_cons_self) (Vocabulary.split?_kind hfull)
      exact ⟨_, .cons (fun _ _ => rfl) hnext hts,
        (brackets_cons_of_not_isBracket ts hbracket).trans hbrackets⟩

end Scriptlet.Lexical
