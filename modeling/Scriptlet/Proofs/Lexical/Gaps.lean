import Scriptlet.Proofs.Lexical.Brackets

/-!
# White space after a word

White space put into a text after a word does not change that word: what goes on with a word is never
white space, except that white space goes on with white space, and all but a line feed with a comment up to
the end of its line. So it matters only to a word of these two kinds that the white space comes right
after. Nor does white space make a comment, or a comparison sign, of what was none.

## What is proved

* `Terminal.split?_before`: a word is taken from any text that starts in the same way after it, or with a
  space.
* `Vocabulary.split?_widen`: the same for what a vocabulary finds, with white space put in further on.
* `Vocabulary.split?_spaces`: a row of spaces is one word.
* `Vocabulary.split?_lineComment`: a line comment goes on with white space behind it.
-/

namespace Scriptlet.Lexical

/-- The characters are white space. -/
def Spaces (cs : List Char) : Prop := ∀ c ∈ cs, isSpace c = true

/-- White space right after a word of the kind is taken for a part of it. -/
def Terminal.takesSpaces : Terminal → Bool
  | .blank | .lineComment => true
  | _ => false

theorem Terminal.isIgnored_of_takesSpaces {t : Terminal} (h : t.takesSpaces = true) :
    t.isIgnored = true := by
  cases t <;> first | rfl | cases h

/-! ### Words of one terminal -/

/-- A stretch ends before another text too, if this starts in the same way or not with its class. -/
theorem splitHead_before {p q : Char → Bool} {word rest rest' : List Char}
    (h : splitHead p q (word ++ rest) = some (word, rest))
    (hrest : ∀ d ∈ rest'.head?, d ∈ rest.head? ∨ q d = false) :
    splitHead p q (word ++ rest') = some (word, rest') := by
  obtain ⟨c, ds, rfl⟩ := List.exists_cons_of_ne_nil (ne_nil_of_splitHead h)
  rw [List.cons_append] at h
  simp only [splitHead, Option.ite_none_right_eq_some, Option.some.injEq, Prod.mk.injEq,
    List.cons.injEq, true_and] at h
  obtain ⟨hc, htake, hdrop⟩ := h
  refine splitHead_append hc (fun d hd => ?_) fun d hd => ?_
  · rw [← htake] at hd
    exact List.all_eq_true.mp List.all_takeWhile d hd
  · refine (hrest d hd).elim (fun hd => ?_) id
    have hnot := List.head?_dropWhile_not q (ds ++ rest)
    rw [hdrop, Option.mem_def.mp hd] at hnot
    exact hnot

theorem splitQuoted_cons {mark c : Char} {cs : List Char} (hc : c ≠ '\\') :
    splitQuoted mark (c :: cs) =
      if c = mark then some ([c], cs) else if c = '\n' then none
        else before [c] (splitQuoted mark cs) := by
  rw [splitQuoted]
  · exact fun h _ => hc h
  · exact fun _ _ h _ => hc h

/-- A quoted text ends at its quote, whatever comes after it. -/
theorem splitQuoted_before {mark : Char} {cs word rest : List Char}
    (h : splitQuoted mark cs = some (word, rest)) (rest' : List Char) :
    splitQuoted mark (word ++ rest') = some (word, rest') := by
  fun_induction splitQuoted mark cs generalizing word rest with
  | case1 | case2 | case3 | case6 => cases h
  | case4 c cs hn ih =>
    simp only [before, Option.map_eq_some_iff, Prod.mk.injEq, Prod.exists] at h
    obtain ⟨w, r, hw, rfl, rfl⟩ := h
    show splitQuoted mark ('\\' :: c :: (w ++ rest')) = _
    rw [splitQuoted, if_neg hn, ih hw]
    rfl
  | case5 cs hback hescape =>
    simp only [Option.some.injEq, Prod.mk.injEq] at h
    obtain ⟨rfl, rfl⟩ := h
    have hc : mark ≠ '\\' := by
      rintro rfl
      cases cs with
      | nil => exact hback rfl rfl
      | cons d cs => exact hescape d cs rfl rfl
    rw [List.singleton_append, splitQuoted_cons hc, if_pos rfl]
  | case7 c cs hback hescape hmark hn ih =>
    simp only [before, Option.map_eq_some_iff, Prod.mk.injEq, Prod.exists] at h
    obtain ⟨w, r, hw, rfl, rfl⟩ := h
    have hc : c ≠ '\\' := by
      rintro rfl
      cases cs with
      | nil => exact hback rfl rfl
      | cons d cs => exact hescape d cs rfl rfl
    rw [List.singleton_append, List.cons_append, splitQuoted_cons hc, if_neg hmark, if_neg hn, ih hw]
    rfl

theorem ne_nil_of_splitCommentEnd {cs word rest : List Char}
    (h : splitCommentEnd cs = some (word, rest)) : word ≠ [] := by
  unfold splitCommentEnd at h
  split at h
  · cases h
  · simp only [Option.some.injEq, Prod.mk.injEq] at h
    exact h.1 ▸ List.cons_ne_nil _ _
  · exact ne_nil_of_before h

/-- A comment between marks ends at its mark, whatever comes after it. -/
theorem splitCommentEnd_before {cs word rest : List Char}
    (h : splitCommentEnd cs = some (word, rest)) (rest' : List Char) :
    splitCommentEnd (word ++ rest') = some (word, rest') := by
  fun_induction splitCommentEnd cs generalizing word rest with
  | case1 => cases h
  | case2 cs =>
    simp only [Option.some.injEq, Prod.mk.injEq] at h
    obtain ⟨rfl, rfl⟩ := h
    rfl
  | case3 c cs hend ih =>
    simp only [before, Option.map_eq_some_iff, Prod.mk.injEq, Prod.exists] at h
    obtain ⟨w, r, hw, rfl, rfl⟩ := h
    have happend := append_of_splitCommentEnd hw
    rw [List.singleton_append, List.cons_append, splitCommentEnd, ih hw]
    · rfl
    · -- the star and slash would have been the end of the comment before
      rintro ds rfl hds
      obtain ⟨d, w, rfl⟩ := List.exists_cons_of_ne_nil (ne_nil_of_splitCommentEnd hw)
      obtain ⟨rfl, -⟩ := List.cons.inj hds
      exact hend (w ++ r) rfl happend.symm

theorem splitString_before {word rest : List Char} (h : splitString (word ++ rest) = some (word, rest))
    (rest' : List Char) : splitString (word ++ rest') = some (word, rest') := by
  cases word with
  | nil => exact absurd rfl (Terminal.ne_nil_of_split (t := .string) h)
  | cons c word =>
    simp only [List.cons_append, splitString, Option.ite_none_right_eq_some, before,
      Option.map_eq_some_iff, Prod.mk.injEq, Prod.exists] at h ⊢
    obtain ⟨hc, w, r, hw, hword, -⟩ := h
    obtain rfl : w = word := by simpa using hword
    refine ⟨hc, w, rest', ?_, rfl, rfl⟩
    have happend := append_of_splitQuoted hw
    rw [← happend] at hw
    exact splitQuoted_before hw rest'

theorem splitBlockComment_before {word rest : List Char}
    (h : splitBlockComment (word ++ rest) = some (word, rest)) (rest' : List Char) :
    splitBlockComment (word ++ rest') = some (word, rest') := by
  generalize hcs : word ++ rest = cs at h
  unfold splitBlockComment at h
  split at h
  · simp only [before, Option.map_eq_some_iff, Prod.mk.injEq, Prod.exists] at h
    obtain ⟨w, r, hw, rfl, rfl⟩ := h
    show before ['/', '*'] (splitCommentEnd (w ++ rest')) = _
    rw [splitCommentEnd_before hw]
    rfl
  · cases h

/-- A line comment goes up to the next line feed. -/
theorem splitLineComment_append {cs rest : List Char} (hcs : ∀ c ∈ cs, c ≠ '\n')
    (hrest : ∀ c ∈ rest.head?, c = '\n') :
    splitLineComment ('/' :: '/' :: cs ++ rest) = some ('/' :: '/' :: cs, rest) := by
  have hline : ∀ c ∈ cs, decide (c ≠ '\n') = true := fun c hc => decide_eq_true (hcs c hc)
  show some ('/' :: '/' :: (cs ++ rest).takeWhile _, (cs ++ rest).dropWhile _) = _
  rw [List.takeWhile_append_of_pos hline, List.dropWhile_append_of_pos hline]
  cases rest with
  | nil => simp
  | cons c rest =>
    obtain rfl := hrest c rfl
    simp

/-- A text has a part up to its first line feed and one from there on. -/
theorem exists_lineParts (cs : List Char) :
    ∃ line others, cs = line ++ others ∧ (∀ c ∈ line, c ≠ '\n') ∧ ∀ c ∈ others.head?, c = '\n' := by
  refine ⟨_, _, (List.takeWhile_append_dropWhile (p := fun c => decide (c ≠ '\n'))).symm,
    fun c hc => ?_, fun c hc => ?_⟩
  · exact of_decide_eq_true (List.all_eq_true.mp List.all_takeWhile c hc)
  · have hnot := List.head?_dropWhile_not (fun c => decide (c ≠ '\n')) cs
    rw [Option.mem_def.mp hc] at hnot
    exact Decidable.of_not_not (of_decide_eq_false hnot)

theorem splitLineComment_eq_some {cs word rest : List Char}
    (h : splitLineComment cs = some (word, rest)) :
    ∃ ds, word = '/' :: '/' :: ds ∧ (∀ c ∈ ds, c ≠ '\n') ∧ ∀ c ∈ rest.head?, c = '\n' := by
  unfold splitLineComment at h
  split at h
  · rename_i cs
    simp only [Option.some.injEq, Prod.mk.injEq] at h
    obtain ⟨rfl, rfl⟩ := h
    refine ⟨_, rfl, fun c hc => ?_, fun c hc => ?_⟩
    · exact of_decide_eq_true (List.all_eq_true.mp List.all_takeWhile c hc)
    · have hnot := List.head?_dropWhile_not (fun c => decide (c ≠ '\n')) cs
      rw [Option.mem_def.mp hc] at hnot
      exact Decidable.of_not_not (of_decide_eq_false hnot)
  · cases h

theorem splitComparison_before {word rest rest' : List Char}
    (h : splitComparison (word ++ rest) = some (word, rest))
    (hrest : ∀ d ∈ rest'.head?, d ∈ rest.head? ∨ d ≠ '=') :
    splitComparison (word ++ rest') = some (word, rest') := by
  -- a sign of one character stands where no equals sign comes after it
  have hone : ∀ c, c = '<' ∨ c = '>' → (∀ ds, rest ≠ '=' :: ds) →
      splitComparison ([c] ++ rest') = some ([c], rest') := by
    intro c hc hne
    cases rest' with
    | nil => rcases hc with rfl | rfl <;> rfl
    | cons d rest' =>
      have hd : d ≠ '=' := by
        rintro rfl
        refine (hrest '=' rfl).elim (fun hd => ?_) fun hd => hd rfl
        obtain ⟨ds, hds⟩ := List.head?_eq_some_iff.mp hd
        exact hne ds hds
      rcases hc with rfl | rfl <;> simp [splitComparison, hd]
  generalize hcs : word ++ rest = cs at h
  unfold splitComparison at h
  split at h
  case h_1 | h_2 | h_3 | h_4 =>
    simp only [Option.some.injEq, Prod.mk.injEq] at h
    obtain ⟨rfl, rfl⟩ := h
    rfl
  case h_5 hne =>
    simp only [Option.some.injEq, Prod.mk.injEq] at h
    obtain ⟨rfl, rfl⟩ := h
    exact hone _ (.inl rfl) fun ds hds => hne ds (by rw [hds])
  case h_6 hne =>
    simp only [Option.some.injEq, Prod.mk.injEq] at h
    obtain ⟨rfl, rfl⟩ := h
    exact hone _ (.inr rfl) fun ds hds => hne ds (by rw [hds])
  case h_7 => cases h

/-- A terminal takes a word from any text that starts in the same way after it, or, unless the word goes
on with it, with a space. -/
theorem Terminal.split?_before {t : Terminal} {word rest rest' : List Char}
    (h : t.split? (word ++ rest) = some (word, rest))
    (hrest : ∀ c ∈ rest'.head?, c ∈ rest.head? ∨ t.takesSpaces = false ∧ isSpace c = true) :
    t.split? (word ++ rest') = some (word, rest') := by
  cases t
  case name =>
    refine splitHead_before h fun d hd => (hrest d hd).imp_right fun hspace => ?_
    rw [Bool.eq_false_iff]
    intro hpart
    rw [isSpace_eq_false_of_isNamePart hpart] at hspace
    cases hspace.2
  case number =>
    refine splitHead_before h fun d hd => (hrest d hd).imp_right fun hspace => ?_
    rw [Bool.eq_false_iff]
    intro hdigit
    rw [isSpace_eq_false_of_isNamePart (isNamePart_of_isDigit hdigit)] at hspace
    cases hspace.2
  case blank => exact splitHead_before h fun d hd => (hrest d hd).imp_right fun hd => nomatch hd.1
  case string => exact splitString_before h rest'
  case lineComment =>
    obtain ⟨ds, rfl, hds, hend⟩ := splitLineComment_eq_some h
    exact splitLineComment_append hds fun d hd =>
      (hrest d hd).elim (hend d) fun hd => nomatch hd.1
  case blockComment => exact splitBlockComment_before h rest'
  case comparison =>
    refine splitComparison_before h fun d hd => (hrest d hd).imp_right ?_
    rintro ⟨-, hspace⟩ rfl
    cases hspace
  case sign | factor =>
    obtain ⟨c, word, rfl⟩ := List.exists_cons_of_ne_nil (Terminal.ne_nil_of_split h)
    simp only [split?, List.cons_append, splitOne, Option.ite_none_right_eq_some,
      Option.some.injEq, Prod.mk.injEq, List.cons.injEq, true_and] at h ⊢
    obtain ⟨hc, rfl, -⟩ := h
    exact ⟨hc, rfl, rfl⟩
  all_goals
    obtain ⟨rfl, -⟩ := splitExact_eq_some h
    exact splitExact_append _ _

/-! ### Where no word stands -/

/-- The second text is the first one with white space put in here and there, as far as it goes: it may end
before the first one does. -/
inductive Widened : List Char → List Char → Prop where
  /-- It ends here. -/
  | stop {cs : List Char} : Widened cs []
  /-- A space is put in here. -/
  | space {c : Char} {cs cs' : List Char} (hc : isSpace c = true) (h : Widened cs cs') :
    Widened cs (c :: cs')
  /-- Both go on with the same character. -/
  | cons {c : Char} {cs cs' : List Char} (h : Widened cs cs') : Widened (c :: cs) (c :: cs')

theorem Widened.refl (cs : List Char) : Widened cs cs := by
  induction cs with
  | nil => exact .stop
  | cons c cs ih => exact .cons ih

/-- White space is put in at the start. -/
theorem Widened.here {gap cs : List Char} (hgap : Spaces gap) : Widened cs (gap ++ cs) := by
  induction gap with
  | nil => exact .refl cs
  | cons g gap ih =>
    obtain ⟨hg, hgap⟩ := List.forall_mem_cons.mp hgap
    exact .space hg (ih hgap)

theorem Widened.append_left {cs cs' : List Char} (h : Widened cs cs') (ds : List Char) :
    Widened (ds ++ cs) (ds ++ cs') := by
  induction ds with
  | nil => exact h
  | cons d ds ih => exact .cons ih

/-- A text with white space put in starts as it did, or with a space. -/
theorem Widened.head {cs cs' : List Char} (h : Widened cs cs') :
    ∀ c ∈ cs'.head?, c ∈ cs.head? ∨ isSpace c = true := by
  cases h with
  | stop => rintro _ ⟨⟩
  | space hc =>
    rintro _ ⟨⟩
    exact .inr hc
  | cons => exact fun c hc => .inl hc

/-- Before what is no space, no white space has been put in. -/
theorem Widened.exists_tail {c : Char} {cs cs' : List Char} (h : Widened cs (c :: cs'))
    (hc : isSpace c = false) : ∃ ds, cs = c :: ds ∧ Widened ds cs' := by
  cases h with
  | space hspace =>
    rw [hc] at hspace
    cases hspace
  | cons h => exact ⟨_, rfl, h⟩

theorem splitCommentEnd_cons {c : Char} {cs : List Char} (h : c = '*' → cs.head? ≠ some '/') :
    splitCommentEnd (c :: cs) = before [c] (splitCommentEnd cs) := by
  rw [splitCommentEnd]
  rintro ds rfl rfl
  exact h rfl rfl

/-- White space makes no end of a comment. -/
theorem splitCommentEnd_widen {cs cs' : List Char} (hw : Widened cs cs')
    (h : splitCommentEnd cs = none) : splitCommentEnd cs' = none := by
  induction hw with
  | stop => rfl
  | @space c cs cs' hc hw ih =>
    have hstar : c ≠ '*' := by rintro rfl; cases hc
    rw [splitCommentEnd_cons (absurd · hstar), ih h]
    rfl
  | @cons c cs cs' hw ih =>
    have hend : c = '*' → cs.head? ≠ some '/' := by
      rintro rfl hslash
      obtain ⟨ds, rfl⟩ := List.head?_eq_some_iff.mp hslash
      cases h
    rw [splitCommentEnd_cons hend, before, Option.map_eq_none_iff] at h
    rw [splitCommentEnd_cons, ih h]
    · rfl
    · intro hc hslash
      obtain ⟨ds', rfl⟩ := List.head?_eq_some_iff.mp hslash
      obtain ⟨ds, rfl, -⟩ := hw.exists_tail rfl
      exact hend hc rfl

/-- White space makes no comment up to the end of the line. -/
theorem splitLineComment_widen {c : Char} {cs cs' : List Char} (hw : Widened cs cs')
    (h : splitLineComment (c :: cs) = none) : splitLineComment (c :: cs') = none := by
  unfold splitLineComment
  split
  · rename_i ds' heq
    obtain ⟨rfl, rfl⟩ := List.cons.inj heq
    obtain ⟨ds, rfl, -⟩ := hw.exists_tail rfl
    cases h
  · rfl

/-- White space makes no comment between marks. -/
theorem splitBlockComment_widen {c : Char} {cs cs' : List Char} (hw : Widened cs cs')
    (h : splitBlockComment (c :: cs) = none) : splitBlockComment (c :: cs') = none := by
  unfold splitBlockComment
  split
  · rename_i ds' heq
    obtain ⟨rfl, rfl⟩ := List.cons.inj heq
    obtain ⟨ds, rfl, hds⟩ := hw.exists_tail rfl
    rw [splitBlockComment, before, Option.map_eq_none_iff] at h
    rw [splitCommentEnd_widen hds h]
    rfl
  · rfl

/-- White space makes no comparison sign. -/
theorem splitComparison_widen {c : Char} {cs cs' : List Char} (hw : Widened cs cs')
    (h : splitComparison (c :: cs) = none) : splitComparison (c :: cs') = none := by
  unfold splitComparison
  split
  case h_1 | h_2 | h_3 | h_4 =>
    rename_i ds' heq
    obtain ⟨rfl, rfl⟩ := List.cons.inj heq
    obtain ⟨ds, rfl, -⟩ := hw.exists_tail rfl
    cases h
  case h_5 | h_6 =>
    rename_i heq
    obtain ⟨rfl, rfl⟩ := List.cons.inj heq
    cases cs with
    | nil => cases h
    | cons d ds =>
      by_cases hd : d = '='
      · subst hd
        cases h
      · simp [splitComparison, hd] at h
  case h_7 => rfl

/-- Where a word stands, another terminal that takes nothing there takes nothing in the text with white
space put in after the first character either. Between reserved words their spellings decide. -/
theorem Terminal.split?_widen {t u : Terminal} {c : Char} {cs cs' : List Char}
    (hw : Widened cs cs') (ht : t.isReserved = false) (h : t.split? (c :: cs) = none)
    (hu : (u.split? (c :: cs)).isSome) : t.split? (c :: cs') = none := by
  have hstarts := Terminal.starts_of_split? hu
  cases t
  case lineComment => exact splitLineComment_widen hw h
  case blockComment => exact splitBlockComment_widen hw h
  case comparison => exact splitComparison_widen hw h
  case string =>
    -- where a quote stands, nothing but a string can
    refine Terminal.split?_eq_none (Bool.eq_false_iff.mpr fun hquote => ?_)
    have hstring : u = .string := by
      simp only [starts, Bool.or_eq_true, decide_eq_true_eq] at hquote
      rcases hquote with rfl | rfl
      · revert hstarts
        cases u <;> decide
      · revert hstarts
        cases u <;> decide
    rw [hstring, h] at hu
    cases hu
  case functionWord | returnWord | elseWord | varWord | letWord | ifWord => cases ht
  all_goals
    refine Terminal.split?_eq_none (Bool.eq_false_iff.mpr fun hc => ?_)
    simp only [starts, decide_eq_true_eq] at hc
    simp [split?, splitRun, splitHead, splitOne, splitExact, before, hc] at h

/-- Where a reserved word stands, no other one does in a text that starts with its spelling. -/
theorem Terminal.split?_reserved_eq_none {t u : Terminal} {word rest cs : List Char}
    (ht : t.isReserved = true) (hu : u ≠ .name) (hs : u.split? (word ++ cs) = some (word, cs))
    (hne : t ≠ u) : t.split? (word ++ rest) = none := by
  obtain ⟨x, hx⟩ := Option.isSome_iff_exists.mp ht
  rw [← Option.not_isSome_iff_eq_none]
  intro hsome
  obtain ⟨⟨w, r⟩, hw⟩ := Option.isSome_iff_exists.mp hsome
  obtain ⟨c, word, rfl⟩ := List.exists_cons_of_ne_nil (Terminal.ne_nil_of_split hs)
  -- the other word starts with the same character as the reserved one, so it is reserved too
  have hc : isNameStart c = true := by
    obtain ⟨w', r', hname, -⟩ := split?_name_of_reserved hx hsome
    exact starts_of_split?_eq hname
  have hreserved := (eq_name_or_isReserved hc (starts_of_split?_eq hs)).resolve_left hu
  obtain ⟨y, hy⟩ := Option.isSome_iff_exists.mp hreserved
  rw [split?_of_reserved hx] at hw
  rw [split?_of_reserved hy] at hs
  obtain ⟨rfl, hcs⟩ := splitExact_eq_some hw
  obtain ⟨rfl, -⟩ := splitExact_eq_some hs
  have hprefix : w <+: c :: word ++ rest := ⟨r, hcs.symm⟩
  rcases List.prefix_or_prefix_of_prefix hprefix (List.prefix_append _ _) with h | h
  · exact hne (eq_of_reserved_isPrefix hx hy h)
  · exact hne (eq_of_reserved_isPrefix hy hx h).symm

/-- **White space put in after a word does not change the word**, as long as the word does not go on with
it. -/
theorem Vocabulary.split?_widen {v : Vocabulary} {k : Terminal} {word rest rest' : List Char}
    (h : v.split? (word ++ rest) = some (k, word, rest)) (hw : Widened rest rest')
    (hrest : k.takesSpaces = false ∨ ∀ c ∈ rest'.head?, c ∈ rest.head?) :
    v.split? (word ++ rest') = some (k, word, rest') := by
  have hthere : ∀ {u : Terminal}, u.split? (word ++ rest) = some (word, rest) →
      u.takesSpaces = false ∨ (∀ c ∈ rest'.head?, c ∈ rest.head?) →
      u.split? (word ++ rest') = some (word, rest') := by
    intro u hs hu
    refine Terminal.split?_before hs fun c hc => ?_
    rcases hu with hu | hu
    · exact (hw.head c hc).imp_right fun hspace => ⟨hu, hspace⟩
    · exact .inl (hu c hc)
  by_cases hname : v .name = true ∧ (Terminal.name.split? (word ++ rest)).isSome
  · obtain ⟨hv, hsome⟩ := hname
    obtain ⟨⟨w, r⟩, hs⟩ := Option.isSome_iff_exists.mp hsome
    rw [split?_of_name hv hs] at h
    simp only [Option.some.injEq, Prod.mk.injEq] at h
    obtain ⟨rfl, rfl, rfl⟩ := h
    rw [split?_of_name hv (hthere hs (.inl rfl))]
  · obtain ⟨sooner, u, later, htried, hfound, hsooner⟩ := List.findSome?_eq_some_iff.mp h
    simp only [Option.map_eq_some_iff, Prod.mk.injEq, Prod.exists] at hfound
    obtain ⟨w, r, hs, hkind, rfl, rfl⟩ := hfound
    have hmem : ∀ t ∈ sooner ++ u :: later, t ∈ v.tried := fun t ht => htried ▸ ht
    have hu : u ≠ .name := by
      rintro rfl
      refine hname ⟨(mem_tried.mp (hmem _ ?_)).1, by rw [hs]; rfl⟩
      exact List.mem_append_right _ List.mem_cons_self
    rw [kindOf, if_neg hu] at hkind
    subst hkind
    refine split?_of_first sooner htried (beq_eq_false_iff_ne.mpr hu) (hthere hs hrest)
      fun t ht => ?_
    have hnone : t.split? (w ++ r) = none := Option.map_eq_none_iff.mp (hsooner t ht)
    cases hreserved : t.isReserved with
    | true =>
      refine Terminal.split?_reserved_eq_none hreserved hu hs ?_
      rintro rfl
      rw [hs] at hnone
      cases hnone
    | false =>
      obtain ⟨c, word, rfl⟩ := List.exists_cons_of_ne_nil (Terminal.ne_nil_of_split hs)
      exact Terminal.split?_widen (hw.append_left word) hreserved hnone
        (Option.isSome_iff_exists.mpr ⟨_, hs⟩)

/-! ### Words that take white space -/

/-- Where white space stands, nothing else does. -/
theorem Terminal.eq_blank_of_isSpace {t : Terminal} {c : Char} (hc : isSpace c = true)
    (h : t.starts c = true) : t = .blank := by
  rcases isSpace_iff.mp hc with rfl | rfl | rfl | rfl | rfl
  all_goals
    revert h
    cases t <;> decide

/-- A blank is white space up to what is none. -/
theorem spaces_of_split?_blank {cs word rest : List Char}
    (h : Terminal.blank.split? cs = some (word, rest)) :
    Spaces word ∧ ∀ c ∈ rest.head?, isSpace c = false := by
  cases cs with
  | nil => cases h
  | cons c cs =>
    simp only [Terminal.split?, splitRun, splitHead, Option.ite_none_right_eq_some,
      Option.some.injEq, Prod.mk.injEq] at h
    obtain ⟨hc, rfl, rfl⟩ := h
    refine ⟨List.forall_mem_cons.mpr ⟨hc, List.all_eq_true.mp List.all_takeWhile⟩, fun d hd => ?_⟩
    have hnot := List.head?_dropWhile_not isSpace cs
    rw [Option.mem_def.mp hd] at hnot
    exact hnot

/-- **A row of spaces is one word**, up to what is none. -/
theorem Vocabulary.split?_spaces {v : Vocabulary} (hv : v .blank = true) {gap rest : List Char}
    (hne : gap ≠ []) (hgap : Spaces gap) (hrest : ∀ c ∈ rest.head?, isSpace c = false) :
    v.split? (gap ++ rest) = some (.blank, gap, rest) := by
  obtain ⟨c, gap, rfl⟩ := List.exists_cons_of_ne_nil hne
  obtain ⟨hc, hgap⟩ := List.forall_mem_cons.mp hgap
  have hblank : Terminal.blank.split? (c :: gap ++ rest) = some (c :: gap, rest) :=
    splitHead_append hc hgap hrest
  refine split?_of_only nofun (mem_tried.mpr ⟨hv, nofun⟩) hblank fun u _ hu => ?_
  exact Terminal.eq_blank_of_isSpace hc (Terminal.starts_of_split? hu)

/-- A text of spaces is one word. -/
theorem Vocabulary.split?_full_of_spaces {gap : List Char} (hne : gap ≠ []) (hgap : Spaces gap) :
    full.split? gap = some (.blank, gap, []) := by
  have hend : ∀ c ∈ ([] : List Char).head?, isSpace c = false := fun c hc => by cases hc
  have hblank := split?_spaces (v := full) rfl hne hgap hend
  rwa [List.append_nil] at hblank

/-- **A line comment goes on with white space behind it** up to the first line feed. -/
theorem Vocabulary.split?_lineComment {v : Vocabulary} (hv : v .lineComment = true)
    {cs word rest : List Char} (h : Terminal.lineComment.split? cs = some (word, rest))
    (gap : List Char) :
    ∃ taken left, gap = taken ++ left ∧
      v.split? (word ++ (gap ++ rest)) = some (.lineComment, word ++ taken, left ++ rest) := by
  obtain ⟨ds, rfl, hds, hfeed⟩ := splitLineComment_eq_some h
  obtain ⟨taken, left, rfl, htaken, hleft⟩ := exists_lineParts gap
  have hends : ∀ b ∈ (left ++ rest).head?, b = '\n' := by
    cases left with
    | nil => exact hfeed
    | cons b left => exact hleft
  have hcomment := splitLineComment_append (List.forall_mem_append.mpr ⟨hds, htaken⟩) hends
  have htext : '/' :: '/' :: ds ++ (taken ++ left ++ rest) =
      '/' :: '/' :: (ds ++ taken) ++ (left ++ rest) := by
    simp only [List.cons_append, List.append_assoc]
  refine ⟨taken, left, rfl, ?_⟩
  rw [htext]
  exact split?_of_full (split?_full_of_comment (.inl rfl) hcomment) hv

end Scriptlet.Lexical
