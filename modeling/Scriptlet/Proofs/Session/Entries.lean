import Scriptlet.Proofs.Parsing.WellFormed
import Scriptlet.Proofs.Parsing.Wording
import Scriptlet.Proofs.Session.Reset

/-!
# Scripts as entries of a session

A session looks at the characters of an entry before it runs it: it takes out those that cannot be seen, does
nothing if the entry is blank then, and takes it for a command if it starts with a slash. An entry that is a
script and no command has the effect of running it without the characters that cannot be seen. All that is
added is what has become of it: the message of a failure, or a value of interest.

Scripts can start with a slash as well, with a comment or with an operator. They are never run.

## What is proved

* `parse_of_blank`: a script that is blank without the characters that cannot be seen is empty.
* `silent_eq_false_iff`: which values are of interest.
* `submit_runs_entry`: what a script does as an entry of a session.
* `headed_spread_not_run`: scripts that are not run when they are entered, or not as they are.
-/

namespace Scriptlet

open Lexical Parsing

namespace Session

/-! ### Blank scripts -/

theorem not_mem_range_of_isBlank {c : Char} (h : Text.isBlank c = true) :
    c.toNat ≤ 32 ∨ 127 ≤ c.toNat := by
  simp only [Text.isBlank, Text.blankRanges, List.any_cons, List.any_nil, Bool.or_eq_true,
    Bool.and_eq_true, decide_eq_true_eq, Bool.false_eq_true, or_false] at h
  omega

theorem not_mem_range_of_isInvisible {c : Char} (h : isInvisible c = true) :
    c.toNat ≤ 32 ∨ 127 ≤ c.toNat := by
  simp only [isInvisible, List.contains_iff_mem, List.mem_cons, List.not_mem_nil, or_false] at h
  rcases h with rfl | rfl | rfl | rfl | rfl | rfl <;> decide

/-- A word that is no white space starts with a character that can be seen. -/
theorem mem_range_of_starts {t : Terminal} {c : Char} (h : t.starts c = true) (ht : t ≠ .blank) :
    33 ≤ c.toNat ∧ c.toNat ≤ 126 := by
  cases t
  case name =>
    rcases isNameStart_iff.mp h with hc | hc | rfl | rfl
    · omega
    · omega
    · decide
    · decide
  case number =>
    have hc := isDigit_iff.mp h
    omega
  case blank => exact absurd rfl ht
  all_goals
    simp only [Terminal.starts, Bool.or_eq_true, decide_eq_true_eq, or_assoc] at h
    rcases h with rfl | rfl | rfl | rfl <;> decide

/-- If only blank characters can be seen in the words of a script, they are white space. -/
theorem spaces_of_isBlank {auto : Grammar.Automaton} {s s' : Stack} {c d : Cursor} {ts : List Token}
    (h : Takes auto s c ts s' d)
    (hblank : ∀ a ∈ spelled ts, isInvisible a = false → Text.isBlank a = true) :
    Spaces (spelled ts) := by
  have hword : ∀ {v : Vocabulary} {c d : Cursor} {t : Token}, c.next? v = some (t, d) →
      (∀ a ∈ t.word, isInvisible a = false → Text.isBlank a = true) → Spaces t.word := by
    intro v c d t hnext hblank
    have hstands := (Cursor.stands_of_next? hnext).word
    obtain ⟨a, word, hcons⟩ := List.exists_cons_of_ne_nil (Cursor.next?_append hnext).2
    have hkind : t.kind = .blank := by
      by_contra hkind
      rw [← (Cursor.next?_append hnext).1, hcons] at hstands
      obtain ⟨hlow, hhigh⟩ := mem_range_of_starts (Terminal.starts_of_split?_eq hstands) hkind
      have hvisible : isInvisible a = false := by
        rw [Bool.eq_false_iff]
        intro ha
        have := not_mem_range_of_isInvisible ha
        omega
      have := not_mem_range_of_isBlank (hblank a (hcons ▸ List.mem_cons_self) hvisible)
      omega
    rw [hkind] at hstands
    exact (spaces_of_split?_blank hstands).1
  induction h with
  | nil => exact List.forall_mem_nil _
  | ignored hnext _ _ ih | word hnext _ _ _ ih =>
    rw [spelled_cons, List.forall_mem_append] at hblank
    rw [spelled_cons]
    exact List.forall_mem_append.mpr ⟨hword hnext hblank.1, ih hblank.2⟩

/-- White space is read as the empty script. -/
theorem parse_of_spaces {source : String} (h : Spaces source.toList) :
    parse source = .ok ⟨⟨[], 1⟩⟩ := by
  obtain ⟨ts, hcut, hts⟩ : ∃ ts, CutInto .full (Cursor.ofString source) ts ∧ significant ts = [] := by
    by_cases hnil : source.toList = []
    · exact ⟨[], by rw [Cursor.ofString, hnil]; exact .nil _, rfl⟩
    · have hblank := Vocabulary.split?_full_of_spaces hnil h
      exact ⟨_, .cons (Cursor.next?_of_split? hblank .start) (.nil _), rfl⟩
  have hoccurs : Occurrence (Block.mk [] 1).words (significant ts) :=
    hts ▸ ⟨rfl, List.forall_mem_nil _⟩
  exact parse_of_occurrence hcut.cut_eq rfl hoccurs

/-- **A script that is blank without the characters that cannot be seen is empty**, also without them. -/
theorem parse_of_blank {source : String} {script : Script} (h : parse source = .ok script)
    (hblank : Text.isAllBlank (normalize source) = true) :
    parse (normalize source) = .ok ⟨⟨[], 1⟩⟩ := by
  obtain ⟨ts, e, ⟨stack, c, htakes, hend, hsettle⟩, -⟩ := exists_reads_of_parse h
  have hreads : Reads source ts e := ⟨stack, c, htakes, hend, hsettle⟩
  have hspaces : Spaces source.toList := by
    rw [hreads.toList_eq]
    refine spaces_of_isBlank htakes fun a ha hvisible => ?_
    rw [← hreads.toList_eq] at ha
    refine List.all_eq_true.mp hblank a ?_
    rw [normalize, String.toList_ofList, List.mem_filter]
    exact ⟨ha, by rw [hvisible]; rfl⟩
  refine parse_of_spaces fun a ha => hspaces a ?_
  rw [normalize, String.toList_ofList] at ha
  exact List.mem_of_mem_filter ha

/-- Without characters that cannot be seen, a text is what is left of it. -/
theorem normalize_eq_self {text : String} (h : ∀ c ∈ text.toList, isInvisible c = false) :
    normalize text = text := by
  have hall : text.toList.filter (fun c => !isInvisible c) = text.toList :=
    List.filter_eq_self.mpr fun c hc => by rw [h c hc]; rfl
  rw [normalize, hall, String.ofList_toList]

end Session

/-! ### Values of interest -/

/-- Of what may stand as a statement, expressions declare and control nothing. -/
theorem Expr.isSilent_eq_false_iff {e : Expr} (he : e.fits isName .statement = true) :
    e.isSilent = false ↔ e.fits isName .operand = true := by
  cases e with
  | block body => cases he
  | function name params binds body line =>
    cases binds with
    | true => simp [Expr.isSilent, Expr.fits]
    | false => exact ⟨fun _ => he, fun _ => rfl⟩
  | assign name value declares line => simp [Expr.isSilent, Expr.fits]
  | returns value line => simp [Expr.isSilent, Expr.fits]
  | choose condition yes no line => simp [Expr.isSilent, Expr.fits]
  | setField receiver name value line => simp [Expr.isSilent, Expr.fits]
  | _ => exact ⟨fun _ => he, fun _ => rfl⟩

theorem Block.isSilent_eq_false_iff {body : Block} (hbody : body.fits isName = true) :
    body.isSilent = false ↔
      ∃ e, body.statements.getLast? = some e ∧ e.fits isName .operand = true := by
  unfold Block.isSilent
  cases hlast : body.statements.getLast? with
  | none => simp
  | some e =>
    have he := Block.fits_iff.mp hbody e (List.mem_of_getLast? hlast)
    simp [Expr.isSilent_eq_false_iff he]

namespace Session

variable {depth : Nat} {scope : Loc} {m : Machine}

/-- The value of an entry is of interest: a return ends it, or its last statement is an expression. -/
def Answers (depth : Nat) (scope : Loc) (body : Block) (m : Machine) : Prop :=
  (∃ v m', (do
      Eval.declare scope body.declared
      lastValue (eval depth scope) .undefined body.statements : Eval Value) m =
        .error (.returned v) m') ∨
    ∃ e, body.statements.getLast? = some e ∧ e.fits isName .operand = true

/-- The value of an entry is kept silent unless it is of interest. -/
theorem silent_eq_false_iff {body : Block} (hbody : body.fits isName = true) {reply : Reply}
    (h : (runBody depth scope body m).1 = .ok reply) :
    reply.silent = false ↔ Answers depth scope body m := by
  unfold runBody at h
  unfold Answers
  dsimp only at h
  generalize (do
    Eval.declare scope body.declared
    lastValue (eval depth scope) .undefined body.statements : Eval Value) m = r at h ⊢
  cases r with
  | ok v m' =>
    obtain rfl := Except.ok.inj h
    simp [Block.isSilent_eq_false_iff hbody]
  | error abrupt m' =>
    cases abrupt with
    | returned v =>
      obtain rfl := Except.ok.inj h
      exact ⟨fun _ => .inl ⟨v, m', rfl⟩, fun _ => rfl⟩
    | failed f => cases h
    | tooDeep => cases h

/-! ### Scripts as entries -/

/-- What has become of an entry is written after what it has written itself, and nothing else is changed. -/
structure Tells (o : Outcome Reply) (m : Machine) : Prop where
  /-- The bindings are those that the entry leaves. -/
  heap : m.heap = o.2.heap
  /-- Entries run in the same scope. -/
  root : m.root = o.2.root
  /-- Tracing is as it was. -/
  tracing : m.tracing = o.2.tracing
  /-- The message of a failure is written, and the heading of a trace if tracing is on. -/
  failure : ∀ f, o.1 = .error f →
    m.written = o.2.written.push (.diagnostic, "Error: " ++ f.message ++ "\n") ++
      if o.2.tracing then #[(.diagnostic, "\nPython traceback:\n")] else #[]
  /-- A value of interest is written. -/
  value : ∀ reply, o.1 = .ok reply → reply.silent = false → reply.value ≠ .undefined →
    m.written = o.2.written.push (.program, o.2.heap.display reply.value ++ "\n")
  /-- No other value is. -/
  nothing : ∀ reply, o.1 = .ok reply → reply.silent = true ∨ reply.value = .undefined →
    m.written = o.2.written

theorem tells_echo (r : Reply) (m : Machine) : Tells (.ok r, m) (echo m r) := by
  have hfailure : ∀ f, (Except.ok r : Except Failure Reply) ≠ .error f := fun f hf => by cases hf
  unfold echo
  split
  · next hquiet =>
    rw [Bool.or_eq_true, decide_eq_true_eq] at hquiet
    refine ⟨rfl, rfl, rfl, fun f hf => absurd hf (hfailure f), fun r' hr hspoken hvalue => ?_,
      fun _ _ _ => rfl⟩
    obtain rfl := Except.ok.inj hr
    rcases hquiet with hsilent | hundefined
    · rw [hsilent] at hspoken
      cases hspoken
    · exact absurd hundefined hvalue
  · next hquiet =>
    rw [Bool.or_eq_true, decide_eq_true_eq] at hquiet
    refine ⟨rfl, rfl, rfl, fun f hf => absurd hf (hfailure f), fun r' hr _ _ => ?_,
      fun r' hr hquiet' => ?_⟩
    · obtain rfl := Except.ok.inj hr
      rfl
    · obtain rfl := Except.ok.inj hr
      exact absurd hquiet' hquiet

theorem tells_report (f : Failure) (m : Machine) : Tells (.error f, m) (m.report f) := by
  have hvalue : ∀ r, (Except.error f : Except Failure Reply) ≠ .ok r := fun r hr => by cases hr
  obtain ⟨heap, written, tracing, root⟩ := m
  have hfailure : ∀ g, (Except.error f : Except Failure Reply) = .error g →
      (Machine.report ⟨heap, written, tracing, root⟩ f).written =
        written.push (.diagnostic, "Error: " ++ g.message ++ "\n") ++
          if tracing then #[(.diagnostic, "\nPython traceback:\n")] else #[] := by
    intro g hg
    obtain rfl := Except.error.inj hg
    cases tracing with
    | true => rfl
    | false => rfl
  refine ⟨?_, ?_, ?_, hfailure, fun r hr => absurd hr (hvalue r), fun r hr => absurd hr (hvalue r)⟩
  all_goals
    cases tracing with
    | true => rfl
    | false => rfl

theorem tells_answer (o : Outcome Reply) : Tells o (answer o) := by
  obtain ⟨result, m⟩ := o
  cases result with
  | ok r => exact tells_echo r m
  | error f => exact tells_report f m

/-- What does not start with a slash is no command. -/
theorem ofEntry?_eq_none {text : String} (h : (Text.trim text).toList.head? ≠ some '/') :
    Command.ofEntry? text = none := by
  unfold Command.ofEntry?
  dsimp only
  split
  · next cs hcs =>
    rw [hcs] at h
    exact absurd rfl h
  · rfl

/-- The empty script does nothing. -/
theorem runEntry_of_empty {source : String} (h : parse source = .ok ⟨⟨[], 1⟩⟩) :
    runEntry depth scope source m = (.ok ⟨.undefined, true⟩, m) := by
  rw [runEntry, h]
  rfl

/-- **A script that is entered is run**, without the characters that cannot be seen, unless it starts with a
slash then. The entry changes nothing else and writes what has become of the run: the message of a failure,
and the value if that is of interest. A script in which all characters can be seen is run as it is. -/
theorem submit_runs_entry {source : String} {script : Script} (h : parse source = .ok script)
    (hslash : (Text.trim (normalize source)).toList.head? ≠ some '/') (depth : Nat) (m : Machine) :
    Tells (runEntry depth m.root (normalize source) m) (submit depth source m) ∧
    (∀ read reply, parse (normalize source) = .ok read →
      (runEntry depth m.root (normalize source) m).1 = .ok reply →
        (reply.silent = false ↔ Answers depth m.root read.body m)) ∧
    ((∀ c ∈ source.toList, isInvisible c = false) → normalize source = source) := by
  refine ⟨?_, fun read reply hread hreply => ?_, normalize_eq_self⟩
  · by_cases hblank : Text.isAllBlank (normalize source) = true
    · rw [submit_of_blank hblank m, runEntry_of_empty (parse_of_blank h hblank)]
      exact tells_echo ⟨.undefined, true⟩ m
    · rw [submit_of_script (Bool.eq_false_iff.mpr hblank) (ofEntry?_eq_none hslash)]
      exact tells_answer _
  · rw [runEntry, hread] at hreply
    exact silent_eq_false_iff (fits_of_parse hread) hreply

/-- A sum, and a comment with a zero-width space in it. -/
def noted : String := "1 + 2; // \u200b"

/-- The sum. -/
def sum : Script :=
  ⟨⟨[.call (.identifier "+" 1) [.literal (.int 1) 1, .literal (.int 2) 1] 1], 1⟩⟩

/-- Its value is written. -/
theorem submit_runs_entry_noted :
    parse noted = .ok sum ∧ (Text.trim (normalize noted)).toList.head? ≠ some '/' ∧
      runEntry 9 Heap.globals (normalize noted) (.start false) = (.ok ⟨.int 3, false⟩, .start false) ∧
      (submit 9 noted (.start false)).written = #[(.program, "3\n")] := by
  have hread : ∀ source : String, cut source = ⟨(cut source).tokens, none⟩ →
      Occurrence sum.body.words (significant (cut source).tokens) → parse source = .ok sum :=
    fun source hcut hoccurs => parse_of_occurrence hcut (by decide) hoccurs
  have hparse : parse noted = .ok sum :=
    hread noted (by decide +kernel) ⟨by decide +kernel, by decide +kernel⟩
  have hnormal : parse (normalize noted) = .ok sum :=
    hread _ (by decide +kernel) ⟨by decide +kernel, by decide +kernel⟩
  have hslash : (Text.trim (normalize noted)).toList.head? ≠ some '/' := by decide +kernel
  have hrun : runEntry 9 Heap.globals (normalize noted) (.start false) =
      (.ok ⟨.int 3, false⟩, .start false) := by
    rw [runEntry, hnormal]
    rfl
  obtain ⟨htells, -, -⟩ := submit_runs_entry hparse hslash 9 (.start false)
  refine ⟨hparse, hslash, hrun, ?_⟩
  have hroot : (Machine.start false).root = Heap.globals := rfl
  rw [hroot, hrun] at htells
  exact htells.value ⟨.int 3, false⟩ rfl rfl fun hvalue => by cases hvalue

/-- An integer, with a comment before it. -/
def headed : String := "/* one */ 1;"

/-- A string with a zero-width space in it. -/
def spread : String := "\"a\u200bb\";"

/-- **Not every script is run when it is entered.** One that starts with a comment is taken for a command, and
a string loses its characters that cannot be seen, although either script is read and runs without failure. -/
theorem headed_spread_not_run :
    (parse headed = .ok ⟨⟨[.literal (.int 1) 1], 1⟩⟩ ∧
      runEntry 9 Heap.globals headed (.start false) = (.ok ⟨.int 1, false⟩, .start false) ∧
      submit 9 headed (.start false) = (Machine.start false).writeLine .diagnostic "Unknown command: /*" ∧
      ¬ Tells (runEntry 9 Heap.globals headed (.start false)) (submit 9 headed (.start false))) ∧
    parse spread = .ok ⟨⟨[.literal (.str "a\u200bb") 1], 1⟩⟩ ∧
      runEntry 9 Heap.globals spread (.start false) = (.ok ⟨.str "a\u200bb", false⟩, .start false) ∧
      submit 9 spread (.start false) = (Machine.start false).writeLine .program "ab" ∧
      ¬ Tells (runEntry 9 Heap.globals spread (.start false)) (submit 9 spread (.start false)) := by
  have hread : ∀ (source : String) (literal : Literal), cut source = ⟨(cut source).tokens, none⟩ →
      (Block.mk [.literal literal 1] 1).fits isPlainName = true →
      Occurrence (Block.mk [.literal literal 1] 1).words (significant (cut source).tokens) →
        parse source = .ok ⟨⟨[.literal literal 1], 1⟩⟩ :=
    fun source literal hcut hfits hoccurs => parse_of_occurrence hcut hfits hoccurs
  have hheaded : parse headed = .ok ⟨⟨[.literal (.int 1) 1], 1⟩⟩ :=
    hread _ _ (by decide +kernel) (by decide) ⟨by decide +kernel, by decide +kernel⟩
  have hspread : parse spread = .ok ⟨⟨[.literal (.str "a\u200bb") 1], 1⟩⟩ :=
    hread _ _ (by decide +kernel) (by decide) ⟨by decide +kernel, by decide +kernel⟩
  have hnarrow : parse (normalize spread) = .ok ⟨⟨[.literal (.str "ab") 1], 1⟩⟩ :=
    hread _ _ (by decide +kernel) (by decide) ⟨by decide +kernel, by decide +kernel⟩
  have hrun : runEntry 9 Heap.globals headed (.start false) = (.ok ⟨.int 1, false⟩, .start false) := by
    rw [runEntry, hheaded]
    rfl
  have hrun' : runEntry 9 Heap.globals spread (.start false) =
      (.ok ⟨.str "a\u200bb", false⟩, .start false) := by
    rw [runEntry, hspread]
    rfl
  have hsubmit : submit 9 headed (.start false) =
      (Machine.start false).writeLine .diagnostic "Unknown command: /*" := by
    have hcommand : Command.ofEntry? (normalize headed) = some (.unknown "/*") := by decide +kernel
    exact submit_of_command (by decide +kernel) hcommand _
  have hsubmit' : submit 9 spread (.start false) = (Machine.start false).writeLine .program "ab" := by
    rw [submit_of_script (by decide +kernel) (by decide +kernel), runEntry, hnarrow]
    rfl
  refine ⟨⟨hheaded, hrun, hsubmit, fun htells => ?_⟩, hspread, hrun', hsubmit', fun htells => ?_⟩
  · rw [hrun, hsubmit] at htells
    have hvalue := htells.value ⟨.int 1, false⟩ rfl rfl fun hvalue => by cases hvalue
    exact absurd hvalue (by decide)
  · rw [hrun', hsubmit'] at htells
    have hvalue := htells.value ⟨.str "a\u200bb", false⟩ rfl rfl fun hvalue => by cases hvalue
    exact absurd hvalue (by decide)

end Session

end Scriptlet
