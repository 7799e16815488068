import Scriptlet.Proofs.Evaluation.Encapsulation
import Scriptlet.Proofs.Parsing.Exactness
import Scriptlet.Proofs.Script.WellScoped

/-!
# Names of well scoped scripts have values

While a well scoped script runs, every name that it looks for is found. Names that are declared are
bound before anything in their block runs, and from then on they stay bound. A function may run in any
scope at all, but it looks for names from a scope of its own, whose parent is the scope in which it was
made, and there they were declared.

## What is proved

* `Heap.Binds.enter`: in the scope of a call, the receiver, the parameters and all names around the
  function are bound.
* `scoping`: well scoped code never looks for a name without finding it.
* `runScript_resolves_names`: no run of a well scoped script fails because a name has no value.
-/

namespace Scriptlet

namespace Heap

variable {h h' : Heap} {place : Loc} {names names' : List String}

/-- From an object, all the names are found. -/
def Binds (h : Heap) (place : Loc) (names : List String) : Prop :=
  ∀ name ∈ names, (h.lookup? place name).isSome

theorem Binds.mono (hb : h.Binds place names) (he : h.Extends h') : h'.Binds place names := by
  intro name hm
  exact he.isSome_lookup? (hb name hm)

theorem Binds.append (hb : h.Binds place names) (hb' : h.Binds place names') :
    h.Binds place (names ++ names') := by
  intro name hm
  rcases List.mem_append.mp hm with hm | hm
  · exact hb name hm
  · exact hb' name hm

theorem binds_declare {body : Block} (hp : place < h.next) :
    (h.declare place body).Binds place body.declared := by
  intro name hm
  refine isSome_lookup?_of_mem (mem_names_bindAll hp ?_)
  rw [List.map_map]
  exact List.mem_map.mpr ⟨name, hm, rfl⟩

/-- In the scope of a call, the receiver, the parameters and all names around the function are bound. -/
theorem Binds.enter {params : List String} {captured : Loc} {receiver : Value} {args : List Value}
    (hb : h.Binds captured names) (hlength : args.length = params.length) :
    (h.enter params captured receiver args).Binds h.next
      (Eval.receiverName :: params ++ names) := by
  have hpush : h.next < (h.push ⟨.scope (some captured), []⟩).next := by simp
  have hlt : h.next < ((h.push ⟨.scope (some captured), []⟩).bind h.next Eval.receiverName
      receiver).next := by simp
  intro name hm
  rcases List.mem_append.mp hm with hm | hm
  · refine isSome_lookup?_of_mem ?_
    rcases List.mem_cons.mp hm with rfl | hm
    · refine ((extends_bindAll _ _ _).names h.next hlt).subset ?_
      rw [get_bind_self _ _ hpush]
      exact Slots.mem_names_set _ _ _
    · refine mem_names_bindAll hlt ?_
      rwa [List.map_fst_zip (Nat.le_of_eq hlength.symm)]
  · have he := extends_enter h params captured receiver args
    have hparent : ((h.enter params captured receiver args).get h.next).parent? = some captured := by
      rw [Object.parent?, nature_enter]
    exact isSome_lookup?_of_parent hparent (lt_of_isSome_lookup? (hb name hm))
      (he.isSome_lookup? (hb name hm))

/-- A function is well scoped with names that are bound where it was made. -/
def ScopesFunction (h : Heap) (params : List String) (body : Block) (scope : Loc) : Prop :=
  ∃ names, h.Binds scope names ∧
    body.wellScoped (body.declared ++ (Eval.receiverName :: params ++ names)) = true

theorem closures_scopesFunction_mono (he : h.Extends h') (hi : h'.Closures h.ScopesFunction) :
    h'.Closures h'.ScopesFunction := by
  refine hi.mono fun params body scope hf => ?_
  obtain ⟨names, hb, hw⟩ := hf
  exact ⟨names, hb.mono he, hw⟩

/-- A construct is well scoped with names that are bound. -/
def ScopesCode (h : Heap) (scope : Loc) (e : Expr) : Prop :=
  scope < h.next ∧ ∃ names, h.Binds scope names ∧ e.wellScoped names = true

/-- A block is well scoped with names that are bound, its own among them. -/
def ScopesBlock (h : Heap) (scope : Loc) (body : Block) : Prop :=
  scope < h.next ∧ ∃ names, h.Binds scope names ∧ body.wellScoped names = true

end Heap

open Heap in
/-- Well scoped code never looks for a name without finding it. -/
def scoping : Discipline where
  inv h := h.Closures h.ScopesFunction
  value _ _ := True
  code := ScopesCode
  runs := ScopesBlock
  change _ := Extends
  fault cause := ∀ name, cause ≠ .undefinedName name
  change_refl _ := Extends.refl
  change_trans := Extends.trans
  value_change _ _ := trivial
  code_change he hc := by
    obtain ⟨hs, names, hb, hw⟩ := hc
    exact ⟨Nat.lt_of_lt_of_le hs he.next_le, names, hb.mono he, hw⟩
  runs_change he hc := by
    obtain ⟨hs, names, hb, hw⟩ := hc
    exact ⟨Nat.lt_of_lt_of_le hs he.next_le, names, hb.mono he, hw⟩
  value_plain _ := trivial
  value_lookup _ _ := trivial
  fault_other hc := hc
  fault_name {h scope e name} _ hc hn hl := by
    obtain ⟨-, names, hb, hw⟩ := hc
    have hs := hb name (Expr.mem_of_wellScoped hw hn)
    rw [hl] at hs
    cases hs
  code_operand hc hp := by
    obtain ⟨hs, names, hb, hw⟩ := hc
    exact ⟨hs, names, hb, Expr.wellScoped_operand hw hp⟩
  runs_branches hc := by
    obtain ⟨hs, names, hb, hw⟩ := hc
    obtain ⟨hyes, hno⟩ := Expr.wellScoped_branches hw
    exact ⟨⟨hs, names, hb, hyes⟩, hs, names, hb, hno⟩
  runs_nested hc hm := by
    obtain ⟨hs, names, hb, hw⟩ := hc
    exact ⟨hs, names, hb, Block.wellScoped_iff.mp hw _ hm⟩
  code_statement {_ _ _ e} hc hm hne := by
    obtain ⟨hs, names, hb, hw⟩ := hc
    have he := Block.wellScoped_iff.mp hw e hm
    rw [Expr.wellScopedStatement_of_ne hne] at he
    exact ⟨hs, names, hb, he⟩
  declare {h scope body} hi hc := by
    obtain ⟨hs, names, hb, hw⟩ := hc
    have he : h.Extends (h.declare scope body) := extends_bindAll h scope _
    refine ⟨closures_scopesFunction_mono he (hi.bindAll scope _), he, ?_⟩
    exact ⟨Nat.lt_of_lt_of_le hs he.next_le, body.declared ++ names,
      (binds_declare hs).append (hb.mono he), hw⟩
  bind {h scope _ name v} hi _ _ _ := by
    have he := extends_bind h scope name v
    exact ⟨closures_scopesFunction_mono he (hi.bind scope name v), he⟩
  make {h scope name params _ body _} hi hc := by
    obtain ⟨hs, names, hb, hw⟩ := hc
    have he := extends_push h ⟨.function name (.closure params body scope), []⟩
    refine ⟨closures_scopesFunction_mono he (hi.push ?_), he, trivial⟩
    rintro _ _ _ _ ⟨⟩
    exact ⟨names, hb, hw⟩
  collect {h _ slots} hi _ _ := by
    have he := extends_push h ⟨.plain, slots⟩
    have hi' := hi.push (o := ⟨.plain, slots⟩) fun _ _ _ _ => Nature.noConfusion
    exact ⟨closures_scopesFunction_mono he hi', he, trivial⟩
  setField {h _ place _ _ name _ v} hi _ _ _ := by
    have he := extends_bind h place name v
    exact ⟨closures_scopesFunction_mono he (hi.bind place name v), he⟩
  enter {h scope place captured name params body receiver args} hi hn _ _ hlength := by
    obtain ⟨names, hb, hw⟩ := hi place name params body captured hn
    have he := extends_enter h params captured receiver args
    have hs : (h.enter params captured receiver args).IsScope h.next := ⟨_, nature_enter ..⟩
    have hi' := ((hi.push (o := ⟨.scope (some captured), []⟩)
      fun _ _ _ _ => Nature.noConfusion).bind h.next Eval.receiverName receiver).bindAll h.next
        (params.zip args)
    refine ⟨closures_scopesFunction_mono he hi', ⟨hs.lt, _, hb.enter hlength, hw⟩, ?_⟩
    exact fun h' he' => he.trans he'

/-! ### Runs -/

namespace Script

open Heap

variable {script : Script}

/-- A well scoped script may be run in the global scope of the first heap. -/
theorem scopesCode_initial (hs : script.isWellScoped = true) :
    initial.ScopesCode globals (.block script.body) :=
  ⟨by decide, globalSlots.names, fun _ hm => isSome_lookup?_of_mem hm, hs⟩

/-- The statements of a well scoped block may also be run as those of an entry. -/
theorem scopesCode_statement {h : Heap} {scope : Loc} {body : Block}
    (hb : h.ScopesBlock scope body) {e : Expr} (hm : e ∈ body.statements) :
    h.ScopesCode scope e := by
  by_cases hblock : ∃ inner, e = .block inner
  · obtain ⟨inner, rfl⟩ := hblock
    obtain ⟨hs, names, hnames, hw⟩ := hb
    exact ⟨hs, names, hnames,
      Block.wellScoped_mono (List.subset_append_right _ _) inner (Block.wellScoped_iff.mp hw _ hm)⟩
  · exact scoping.code_statement hb hm fun inner heq => hblock ⟨inner, heq⟩

end Script

open Parsing in
/-- **Well scoped scripts never fail because a name has no value**, however deeply constructs may be
nested, whether the source text is run as a script or as the first entry of a session. -/
theorem runScript_resolves_names {source : String} {script : Script}
    (hp : parse source = .ok script) (hs : script.isWellScoped = true) (depth : Nat) (m : Machine)
    (name : String) (line : Option Int) :
    (runScript depth source m).1 ≠ .error (.failed ⟨.undefinedName name, line⟩) ∧
    (runEntry depth Heap.globals source { m with heap := .initial }).1 ≠
      .error (.failed ⟨.undefinedName name, line⟩) := by
  let m' : Machine := { m with heap := .initial }
  have hi : scoping.inv m'.heap := Heap.closures_initial _
  have hc : scoping.code m'.heap Heap.globals (.block script.body) := Script.scopesCode_initial hs
  constructor
  · intro hf
    rw [runScript, runSource, hp] at hf
    exact (scoping.results_execute depth hi hc).2 _ hf name rfl
  · intro hf
    rw [runEntry, hp] at hf
    exact (scoping.results_runBody depth hi hc
      fun _ hb _ hm => Script.scopesCode_statement hb hm).2 _ hf name rfl

/-- A function that reads the name it is bound to, and a call of it. -/
def selfReading : String := "let f=function(n)\x7breturn f;\x7d;f(1);"

open Grammar Lexical in
/-- The derivation of `selfReading`. -/
def selfReadingSentence : Sentence :=
  let word (kind : Terminal) (text : String) (n : Nat) : Token :=
    ⟨kind, text.toList, ⟨n, 1, n + 1⟩, ⟨n + text.length, 1, n + text.length + 1⟩⟩
  let name (text : String) (n : Nat) : Derivation (.phrase .chain) :=
    .node .chainPrimary (.cons (.node .primaryName (.cons (.leaf (word .name text n)) .nil)) .nil)
  let expression (chain : Derivation (.phrase .chain)) : Derivation (.phrase .expression) :=
    .node .expressionSum (.cons (.node .sumProduct (.cons (.node .productChain
      (.cons chain .nil)) .nil)) .nil)
  let returned : Derivation (.phrase .statement) :=
    .node .statementReturn (.cons (.node .returnValue (.cons (.leaf (word .returnWord "return" 18))
      (.cons (expression (name "f" 25)) (.cons (.leaf (word .semicolon ";" 26)) .nil)))) .nil)
  let body : Derivation (.phrase .block) :=
    .node .blockStatements (.cons (.leaf (word .leftBrace "\x7b" 17))
      (.cons (.node .statementsOne (.cons returned .nil))
        (.cons (.leaf (word .rightBrace "\x7d" 27)) .nil)))
  let function : Derivation (.phrase .chain) :=
    .node .chainPrimary (.cons (.node .primaryFunction (.cons (.node .functionExpressionParameters
      (.cons (.leaf (word .functionWord "function" 6)) (.cons (.leaf (word .leftParen "(" 14))
        (.cons (.node .parametersOne (.cons (.leaf (word .name "n" 15)) .nil))
          (.cons (.leaf (word .rightParen ")" 16)) (.cons body .nil)))))) .nil)) .nil)
  let declaration : Derivation (.phrase .statement) :=
    .node .statementDeclaration (.cons (.node .declarationLetValue
      (.cons (.leaf (word .letWord "let" 0)) (.cons (.leaf (word .name "f" 4))
        (.cons (.leaf (word .equals "=" 5)) (.cons (expression function)
          (.cons (.leaf (word .semicolon ";" 28)) .nil)))))) .nil)
  let argument : Derivation (.phrase .chain) :=
    .node .chainPrimary (.cons (.node .primaryNumber (.cons (.leaf (word .number "1" 31)) .nil))
      .nil)
  let call : Derivation (.phrase .chain) :=
    .node .chainCallArguments (.cons (name "f" 29) (.cons (.leaf (word .leftParen "(" 30))
      (.cons (.node .argumentsOne (.cons (expression argument) .nil))
        (.cons (.leaf (word .rightParen ")" 32)) .nil))))
  let called : Derivation (.phrase .statement) :=
    .node .statementExpression (.cons (.node .expressionStatement (.cons (expression call)
      (.cons (.leaf (word .semicolon ";" 33)) .nil))) .nil)
  .node .programStatements (.cons (.node .statementsMore
    (.cons (.node .statementsOne (.cons declaration .nil)) (.cons called .nil))) .nil)

open Parsing Grammar Lexical in
/-- The function of `selfReading` finds its name, at every depth. -/
theorem runScript_resolves_names_selfReading :
    (parse selfReading = .ok selfReadingSentence.script ∧
      selfReadingSentence.script.isWellScoped = true) ∧
    ∀ (depth : Nat) (line : Option Int),
      (runScript depth selfReading (.start false)).1 ≠
        .error (.failed ⟨.undefinedName "f", line⟩) := by
  have hwords : words selfReading = ((words selfReading).1, none) := by decide
  have htokens : selfReadingSentence.tokens = significant (words selfReading).1 := by decide
  have hprefers : selfReadingSentence.PrefersMethods := by
    simp [selfReadingSentence, Derivation.PrefersMethods, Derivations.PreferMethods, Rule.isCall,
      Derivations.NoField, Derivation.fieldParts?]
  have hparse := parse_of_words hprefers hwords htokens
  have hscoped : selfReadingSentence.script.isWellScoped = true := by decide
  refine ⟨⟨hparse, hscoped⟩, fun depth line => ?_⟩
  exact (runScript_resolves_names hparse hscoped depth (.start false) "f" line).1

end Scriptlet
