import Mathlib.Tactic.ByContra
import Scriptlet.Lexical.Token

/-!
# Words under a narrower vocabulary

A text is cut into words with all terminals when it is only looked at, and with those that can come
next when it is parsed. The two ways agree as long as the kind of the word that all terminals give is
among those that can come next.

## What is proved

* `Vocabulary.split?_of_full`, `Cursor.next?_of_full`: a word found with all terminals is found with
  any vocabulary that holds its kind.
* `Vocabulary.split?_kind`: a word found with any vocabulary is one that its own kind takes there.
-/

namespace Scriptlet.Lexical

/-! ### First characters -/

/-- A word of the terminal can start with this character. -/
def Terminal.starts : Terminal → Char → Bool
  | .name, c => isNameStart c
  | .number, c => c.isDigit
  | .string, c => c = '"' || c = '\''
  | .lineComment, c | .blockComment, c => c = '/'
  | .blank, c => isSpace c
  | .functionWord, c => c = 'f'
  | .returnWord, c => c = 'r'
  | .elseWord, c => c = 'e'
  | .varWord, c => c = 'v'
  | .letWord, c => c = 'l'
  | .ifWord, c => c = 'i'
  | .comparison, c => c = '=' || c = '!' || c = '<' || c = '>'
  | .sign, c => c = '+' || c = '-'
  | .factor, c => c = '*' || c = '/' || c = '%'
  | .leftParen, c => c = '('
  | .rightParen, c => c = ')'
  | .leftBrace, c => c = '\x7b'
  | .rightBrace, c => c = '\x7d'
  | .comma, c => c = ','
  | .semicolon, c => c = ';'
  | .colon, c => c = ':'
  | .dot, c => c = '.'
  | .equals, c => c = '='

theorem head_of_splitExact {d c : Char} {ds cs : List Char}
    (h : (splitExact (d :: ds) (c :: cs)).isSome) : c = d := by
  by_contra hc
  simp [splitExact, hc] at h

/-- A word starts with a character that its terminal can start with. -/
theorem Terminal.starts_of_split? {t : Terminal} {c : Char} {cs : List Char}
    (h : (t.split? (c :: cs)).isSome) : t.starts c := by
  cases t
  case name | number | blank =>
    by_contra hc
    simp only [starts, Bool.not_eq_true] at hc
    simp [split?, splitRun, splitHead, hc] at h
  case string =>
    by_contra hc
    simp only [starts, Bool.not_eq_true] at hc
    simp [split?, splitString, hc] at h
  case lineComment =>
    simp only [split?, splitLineComment] at h
    split at h
    · rename_i heq
      simp [(List.cons.inj heq).1, starts]
    · cases h
  case blockComment =>
    simp only [split?, splitBlockComment] at h
    split at h
    · rename_i heq
      simp [(List.cons.inj heq).1, starts]
    · cases h
  case comparison =>
    simp only [split?, splitComparison] at h
    split at h
    case h_7 => cases h
    all_goals
      rename_i heq
      simp [(List.cons.inj heq).1, starts]
  case sign | factor =>
    by_contra hc
    simp only [starts, Bool.not_eq_true] at hc
    simp [split?, splitOne, hc] at h
  all_goals simpa [starts] using head_of_splitExact h

theorem isNameStart_iff {c : Char} :
    isNameStart c ↔
      65 ≤ c.toNat ∧ c.toNat ≤ 90 ∨ 97 ≤ c.toNat ∧ c.toNat ≤ 122 ∨ c = '_' ∨ c = '$' := by
  have halpha : c.isAlpha = (c.isUpper || c.isLower) := rfl
  have hupper : c.isUpper = decide (65 ≤ c.val ∧ c.val ≤ 90) := rfl
  have hlower : c.isLower = (decide (97 ≤ c.val) && decide (c.val ≤ 122)) := rfl
  simp only [isNameStart, halpha, hupper, hlower, Bool.or_eq_true, Bool.and_eq_true,
    decide_eq_true_eq, UInt32.le_iff_toNat_le, Char.toNat, or_assoc]
  rfl

theorem isDigit_iff {c : Char} : c.isDigit ↔ 48 ≤ c.toNat ∧ c.toNat ≤ 57 := by
  simp only [Char.isDigit, Bool.and_eq_true, decide_eq_true_eq, UInt32.le_iff_toNat_le, Char.toNat]
  rfl

/-- Where a name can start, only names and reserved words can. -/
theorem Terminal.eq_name_or_isReserved {t : Terminal} {c : Char} (hc : isNameStart c)
    (ht : t.starts c) : t = .name ∨ t.isReserved := by
  cases t
  case name => exact Or.inl rfl
  case functionWord | returnWord | elseWord | varWord | letWord | ifWord => exact Or.inr rfl
  case number =>
    rw [starts, isDigit_iff] at ht
    rw [isNameStart_iff] at hc
    rcases hc with h | h | rfl | rfl
    · omega
    · omega
    · exact absurd ht (by decide)
    · exact absurd ht (by decide)
  all_goals
    simp only [starts, isSpace, Bool.or_eq_true, decide_eq_true_eq, or_assoc] at ht
    rcases ht with rfl | rfl | rfl | rfl | rfl <;> exact absurd hc (by decide)

/-! ### Reserved words -/

namespace Terminal

/-- A reserved word is looked for by its spelling. -/
theorem split?_of_reserved {t : Terminal} {w : List Char} (h : t.reserved? = some w) :
    t.split? = splitExact w := by
  cases t <;> simp only [reserved?, Option.some.injEq, reduceCtorEq] at h <;> rw [← h] <;> rfl

/-- No reserved word is the start of another one. -/
theorem eq_of_reserved_isPrefix {t u : Terminal} {w x : List Char} (ht : t.reserved? = some w)
    (hu : u.reserved? = some x) (h : w <+: x) : t = u := by
  cases t <;> simp only [reserved?, Option.some.injEq, reduceCtorEq] at ht <;> subst ht <;>
    cases u <;> simp only [reserved?, Option.some.injEq, reduceCtorEq] at hu <;> subst hu <;>
    first | rfl | exact absurd h (by decide)

/-- Reserved words have different spellings. -/
theorem eq_of_reserved {t u : Terminal} {w : List Char} (ht : t.reserved? = some w)
    (hu : u.reserved? = some w) : t = u :=
  eq_of_reserved_isPrefix ht hu (List.prefix_refl w)

/-- A reserved word has the form of a name. -/
theorem reserved_form {t : Terminal} {w : List Char} (h : t.reserved? = some w) :
    ∃ c cs, w = c :: cs ∧ isNameStart c ∧ ∀ d ∈ cs, isNamePart d := by
  cases t <;> simp only [reserved?, Option.some.injEq, reduceCtorEq] at h <;> subst h <;>
    exact ⟨_, _, rfl, by decide, List.all_eq_true.mp (by decide)⟩

end Terminal

theorem splitExact_eq_some {ds cs word rest : List Char} (h : splitExact ds cs = some (word, rest)) :
    word = ds ∧ cs = ds ++ rest := by
  fun_induction splitExact ds cs generalizing word rest with
  | case1 => simp_all
  | case2 => simp at h
  | case3 ds c cs ih =>
    simp only [before, Option.map_eq_some_iff, Prod.mk.injEq, Prod.exists] at h
    obtain ⟨w, r, hw, rfl, rfl⟩ := h
    obtain ⟨rfl, rfl⟩ := ih hw
    exact ⟨rfl, rfl⟩
  | case4 => simp at h

theorem splitExact_append (ds rest : List Char) : splitExact ds (ds ++ rest) = some (ds, rest) := by
  induction ds with
  | nil => rfl
  | cons d ds ih => simp [splitExact, before, ih]

/-- Where a reserved word stands, a name stands that starts with it. -/
theorem split?_name_of_reserved {t : Terminal} {w cs : List Char} (h : t.reserved? = some w)
    (hs : (t.split? cs).isSome) :
    ∃ word rest, Terminal.name.split? cs = some (word, rest) ∧ w <+: word := by
  obtain ⟨c, ds, rfl, hc, hds⟩ := Terminal.reserved_form h
  rw [Terminal.split?_of_reserved h] at hs
  obtain ⟨⟨word, rest⟩, hs⟩ := Option.isSome_iff_exists.mp hs
  obtain ⟨-, rfl⟩ := splitExact_eq_some hs
  refine ⟨_, _, by simp only [Terminal.split?, List.cons_append, splitHead, hc, if_true]; rfl, ?_⟩
  rw [List.takeWhile_append_of_pos hds]
  exact ⟨rest.takeWhile isNamePart, by simp⟩

/-! ### The kind of a name -/

namespace Vocabulary

theorem kindOfName_of_reserved {v : Vocabulary} {t : Terminal} {w : List Char}
    (h : t.reserved? = some w) (hv : v t) : v.kindOfName w = t := by
  have found : (Terminal.inOrder.find? fun u => v u && u.reserved? == some w).isSome := by
    rw [List.find?_isSome]
    exact ⟨t, t.mem_inOrder, by simp [hv, h]⟩
  obtain ⟨u, hu⟩ := Option.isSome_iff_exists.mp found
  have hp := List.find?_some hu
  simp only [Bool.and_eq_true, beq_iff_eq] at hp
  rw [kindOfName, hu, Option.getD_some]
  exact Terminal.eq_of_reserved hp.2 h

theorem kindOfName_of_not_reserved {v : Vocabulary} {w : List Char}
    (h : ∀ t : Terminal, t.reserved? ≠ some w) : v.kindOfName w = .name := by
  have none : (Terminal.inOrder.find? fun u => v u && u.reserved? == some w) = none := by
    rw [List.find?_eq_none]
    intro t _
    simp [h t]
  rw [kindOfName, none, Option.getD_none]

/-- A name that is a reserved word to all terminals is one to every vocabulary that holds it. -/
theorem kindOfName_of_full {v : Vocabulary} {w : List Char} (hv : v (full.kindOfName w)) :
    v.kindOfName w = full.kindOfName w := by
  by_cases h : ∃ t : Terminal, t.reserved? = some w
  · obtain ⟨t, ht⟩ := h
    rw [kindOfName_of_reserved (v := full) ht rfl] at hv ⊢
    exact kindOfName_of_reserved ht hv
  · have h' : ∀ t : Terminal, t.reserved? ≠ some w := fun t ht => h ⟨t, ht⟩
    rw [kindOfName_of_not_reserved h', kindOfName_of_not_reserved h']

/-- The kind of a name is a reserved word of that spelling or a name. -/
theorem reserved_kindOfName {v : Vocabulary} {w : List Char} (h : v.kindOfName w ≠ .name) :
    (v.kindOfName w).reserved? = some w := by
  by_cases hr : ∃ t : Terminal, t.reserved? = some w ∧ v t
  · obtain ⟨t, ht, hv⟩ := hr
    rw [kindOfName_of_reserved ht hv, ht]
  · refine absurd ?_ h
    have none : (Terminal.inOrder.find? fun u => v u && u.reserved? == some w) = none := by
      rw [List.find?_eq_none]
      intro t _ ht
      simp only [Bool.and_eq_true, beq_iff_eq] at ht
      exact hr ⟨t, ht.2, ht.1⟩
    rw [kindOfName, none, Option.getD_none]

/-! ### The first terminal that fits -/

theorem mem_tried {v : Vocabulary} {t : Terminal} :
    t ∈ v.tried ↔ v t ∧ ¬(t.isReserved ∧ v .name) := by
  rw [tried, List.mem_filter, ← Bool.and_eq_true t.isReserved]
  simp only [t.mem_inOrder, true_and, Bool.and_eq_true (v t), Bool.not_eq_true', Bool.not_eq_true]

/-- If names are looked for and one stands there, it is found. -/
theorem split?_of_name {v : Vocabulary} {cs word rest : List Char} (hv : v .name)
    (h : Terminal.name.split? cs = some (word, rest)) :
    v.split? cs = some (v.kindOfName word, word, rest) := by
  have first : v.tried = .name :: v.tried.tail := by
    simp [tried, Terminal.inOrder, List.filter_cons, hv, Terminal.isReserved, Terminal.reserved?]
  rw [split?, first, List.findSome?_cons, h]
  simp [kindOf]

/-- If one of the terminals tried fits and no other one does, it is the one found. -/
theorem split?_of_only {v : Vocabulary} {t : Terminal} {cs word rest : List Char}
    (hn : t ≠ .name) (ht : t ∈ v.tried) (h : t.split? cs = some (word, rest))
    (only : ∀ u ∈ v.tried, (u.split? cs).isSome → u = t) :
    v.split? cs = some (t, word, rest) := by
  have found : ∀ l : List Terminal, t ∈ l → (∀ u ∈ l, (u.split? cs).isSome → u = t) →
      (l.findSome? fun u => (u.split? cs).map fun found => (v.kindOf u found.1, found)) =
        some (t, word, rest) := by
    intro l
    induction l with
    | nil => intro ht; cases ht
    | cons u l ih =>
      intro ht only
      rw [List.findSome?_cons]
      cases hu : u.split? cs with
      | none =>
        have hut : u ≠ t := by rintro rfl; rw [h] at hu; cases hu
        simpa using ih ((List.mem_cons.mp ht).resolve_left (Ne.symm hut))
          fun x hx => only x (List.mem_cons_of_mem _ hx)
      | some found =>
        obtain rfl := only u List.mem_cons_self (by rw [hu]; rfl)
        rw [h, Option.some.injEq] at hu
        subst hu
        simp [kindOf, hn]
  exact found v.tried ht only

/-- Among the terminals of a list that pass one test, the first that fits is also the first that fits
among those that pass another test, if this one keeps it and lets no others that fit in. -/
theorem findSome?_filter_of_filter {α β : Type} {p q : α → Bool} {f : α → Option β} {b : β}
    {l : List α} (h : (l.filter p).findSome? f = some b) (keeps : ∀ a, p a → f a = some b → q a)
    (lets : ∀ a, q a → (f a).isSome → p a) : (l.filter q).findSome? f = some b := by
  induction l with
  | nil => exact h
  | cons a l ih =>
    rw [List.filter_cons] at h ⊢
    cases hf : f a with
    | none =>
      have hp : (l.filter p).findSome? f = some b := by
        split at h
        · simpa [List.findSome?_cons, hf] using h
        · exact h
      split
      · simpa [List.findSome?_cons, hf] using ih hp
      · exact ih hp
    | some c =>
      by_cases hp : p a
      · rw [if_pos hp, List.findSome?_cons, hf, Option.some.injEq] at h
        subst h
        rw [if_pos (keeps a hp hf), List.findSome?_cons, hf]
      · have hq : ¬ q a := fun hq => hp (lets a hq (by rw [hf]; rfl))
        rw [if_neg hp] at h
        rw [if_neg hq]
        exact ih h

/-- Where no name stands, no reserved word stands. -/
theorem not_isReserved_of_split? {t : Terminal} {cs : List Char}
    (hn : Terminal.name.split? cs = none) (h : (t.split? cs).isSome) : t.isReserved = false := by
  cases hr : t.reserved? with
  | none => simp [Terminal.isReserved, hr]
  | some w =>
    obtain ⟨_, _, hs, -⟩ := split?_name_of_reserved hr h
    rw [hn] at hs
    cases hs

/-- Where a name stands, only names and reserved words do. -/
theorem reserved_of_split? {t : Terminal} {cs word rest : List Char}
    (hn : Terminal.name.split? cs = some (word, rest)) (ht : t ≠ .name)
    (hs : (t.split? cs).isSome) : ∃ w, t.reserved? = some w ∧ w <+: word := by
  cases cs with
  | nil => cases hn
  | cons c cs =>
    have hc : isNameStart c := Terminal.starts_of_split? (t := .name) (by rw [hn]; rfl)
    have hr := (Terminal.eq_name_or_isReserved hc (Terminal.starts_of_split? hs)).resolve_left ht
    obtain ⟨w, hw⟩ := Option.isSome_iff_exists.mp hr
    obtain ⟨_, _, hn', hpre⟩ := split?_name_of_reserved hw hs
    rw [hn, Option.some.injEq, Prod.mk.injEq] at hn'
    exact ⟨w, hw, hn'.1 ▸ hpre⟩

/-- **A word found with all terminals is found with fewer**, as long as its own kind is among
them. -/
theorem split?_of_full {v : Vocabulary} {cs word rest : List Char} {t : Terminal}
    (h : full.split? cs = some (t, word, rest)) (hv : v t) : v.split? cs = some (t, word, rest) := by
  cases hn : Terminal.name.split? cs with
  | some found =>
    obtain ⟨w, r⟩ := found
    rw [split?_of_name rfl hn] at h
    simp only [Option.some.injEq, Prod.mk.injEq] at h
    obtain ⟨rfl, rfl, rfl⟩ := h
    by_cases hname : v .name
    · rw [split?_of_name hname hn, kindOfName_of_full hv]
    · -- only the spellings of reserved words are tried, and just one of them can fit
      have hk : full.kindOfName w ≠ .name := fun e => hname (e ▸ hv)
      have hr := reserved_kindOfName hk
      refine split?_of_only hk (mem_tried.mpr ⟨hv, fun h => hname h.2⟩) ?_ fun u hu hs => ?_
      · rw [Terminal.split?_of_reserved hr, ← Terminal.append_of_split hn, splitExact_append]
      · have hu' : u ≠ .name := fun e => hname (e ▸ (mem_tried.mp hu).1)
        obtain ⟨x, hx, hpre⟩ := reserved_of_split? hn hu' hs
        exact Terminal.eq_of_reserved_isPrefix hx hr hpre
  | none =>
    -- no reserved word fits either, so both vocabularies try the terminals that fit in one order
    have plain : ∀ (v : Vocabulary), v.split? cs =
        v.tried.findSome? fun u => (u.split? cs).map fun found => (u, found) := by
      intro v
      rw [split?]
      congr 1
      funext u
      by_cases hu : u = .name
      · rw [hu, hn]; rfl
      · simp [kindOf, hu]
    rw [plain] at h ⊢
    refine findSome?_filter_of_filter h (fun u hu hf => ?_) fun u hu hf => ?_
    · simp only [Option.map_eq_some_iff, Prod.mk.injEq, Prod.exists] at hf
      obtain ⟨w, r, hs, rfl, -⟩ := hf
      have := not_isReserved_of_split? hn (by rw [hs]; rfl)
      simp [hv, this]
    · have := not_isReserved_of_split? hn (t := u) (by simpa using hf)
      simp [full, this]

/-- A word found with any vocabulary is one that its own kind takes there. -/
theorem split?_kind {v : Vocabulary} {cs word rest : List Char} {t : Terminal}
    (h : v.split? cs = some (t, word, rest)) : t.split? cs = some (word, rest) := by
  obtain ⟨u, -, h⟩ := List.exists_of_findSome?_eq_some h
  simp only [Option.map_eq_some_iff, Prod.mk.injEq, Prod.exists] at h
  obtain ⟨w, r, hs, rfl, rfl, rfl⟩ := h
  by_cases hk : v.kindOf u w = u
  · rw [hk, hs]
  · -- the kind is a reserved word only where a name of its spelling was found
    have hu : u = .name := by
      by_contra hu
      exact hk (by simp [kindOf, hu])
    subst hu
    have hr : (v.kindOf .name w).reserved? = some w := by
      simp only [kindOf, if_true] at hk ⊢
      exact reserved_kindOfName hk
    rw [Terminal.split?_of_reserved hr, ← Terminal.append_of_split hs, splitExact_append]

end Vocabulary

namespace Cursor

/-- A token found with all terminals is found with fewer, as long as its kind is among them. -/
theorem next?_of_full {v : Vocabulary} {c d : Cursor} {t : Token}
    (h : c.next? .full = some (t, d)) (hv : v t.kind) : c.next? v = some (t, d) := by
  simp only [next?, Option.map_eq_some_iff, Prod.mk.injEq, Prod.exists] at h ⊢
  obtain ⟨kind, word, rest, hs, rfl, rfl⟩ := h
  exact ⟨kind, word, rest, Vocabulary.split?_of_full hs hv, rfl, rfl⟩

end Cursor

end Scriptlet.Lexical
