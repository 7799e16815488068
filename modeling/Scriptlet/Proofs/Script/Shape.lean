import Scriptlet.Grammar.Meaning
import Scriptlet.Proofs.Script.Constructs
import Scriptlet.Store.Builtin

/-!
# The shape of scripts

Trees can be put together in more ways than source text can. In a script that is written down,
declarations, assignments, choices, returns and functions with a name are statements of a block;
operands have values, so the literal without a value only stands where a value was left out; and the
name of an operator is only called. `Expr.fits` says so of a construct, and of the names in it that they
pass a test.

## What is proved

* `Expr.fits_statement`: what may be an operand may be a statement.
* `Expr.all_bindsOnly`: in what may stand somewhere, only names that pass the test are bound.
* `Operator.ofSign?_eq_some`: an operator is known by its sign.
-/

namespace Scriptlet

/-! ### Operators by their signs -/

namespace Operator

/-- All operators. -/
def all : List Operator := [add, sub, mul, div, mod, eq, ne, lt, le, gt, ge]

/-- The operator with the given sign. -/
def ofSign? (s : String) : Option Operator := all.find? fun o => o.sign == s

theorem ofSign?_eq_some {s : String} {o : Operator} : ofSign? s = some o ↔ o.sign = s := by
  constructor
  · intro h
    simpa using List.find?_some h
  · rintro rfl
    cases o <;> rfl

end Operator

/-- The operator whose sign a construct is. -/
def Expr.operator? : Expr → Option Operator
  | .identifier name _ => Operator.ofSign? name
  | _ => none

theorem Expr.eq_identifier_of_operator? {e : Expr} {o : Operator} (h : e.operator? = some o) :
    ∃ line, e = .identifier o.sign line := by
  cases e with
  | identifier name line => exact ⟨line, by rw [Operator.ofSign?_eq_some.mp h]⟩
  | _ => cases h

/-- The construct stands for a value left out. -/
def Expr.isNothing : Expr → Bool
  | .literal .undefined _ => true
  | _ => false

/-! ### What may stand where -/

/-- What a construct is to what is around it. -/
inductive Role where
  /-- A part with a value. -/
  | operand
  /-- A statement of a block. -/
  | statement
  deriving DecidableEq, Repr

mutual

/-- A construct may stand in its role, and the names in it pass a test. Names of operators and of
functions without a name are not tested, and neither are the names of fields of objects. -/
def Expr.fits (names : String → Bool) (role : Role) : Expr → Bool
  | .block _ => false
  | .literal value _ => value != .undefined
  | .call callee args _ =>
    (callee.operator?.isSome || callee.fits names .operand) && fitAll names .operand args
  | .identifier name _ => names name
  | .assign name value declares _ =>
    role == .statement && names name &&
      (value.fits names .operand || declares && value.isNothing)
  | .function name params binds body _ =>
    (if binds then role == .statement && names name else name == Grammar.anonymousName) &&
      params.all names && body.fits names
  | .returns value _ =>
    role == .statement && (value.fits names .operand || value.isNothing)
  | .choose condition yes no _ =>
    role == .statement && condition.fits names .operand && yes.fits names && no.fits names
  | .object fields _ => fitFields names fields
  | .field receiver name _ => receiver.fits names .operand && names name
  | .setField receiver name value _ =>
    role == .statement && receiver.fits names .operand && names name && value.fits names .operand
  | .method receiver name args _ =>
    receiver.fits names .operand && names name && fitAll names .operand args

/-- The statements of a block may stand there. -/
def Block.fits (names : String → Bool) : Block → Bool
  | ⟨statements, _⟩ => fitAll names .statement statements

/-- Constructs may stand in a role. -/
def fitAll (names : String → Bool) (role : Role) : List Expr → Bool
  | [] => true
  | e :: es => e.fits names role && fitAll names role es

/-- The values of fields may stand there. -/
def fitFields (names : String → Bool) : List (String × Expr) → Bool
  | [] => true
  | (_, e) :: fields => e.fits names .operand && fitFields names fields

end

section Fits

variable {names : String → Bool} {role : Role}

theorem fitAll_iff {es : List Expr} :
    fitAll names role es = true ↔ ∀ e ∈ es, e.fits names role = true := by
  induction es with
  | nil => exact ⟨fun _ => List.forall_mem_nil _, fun _ => rfl⟩
  | cons e es ih => rw [fitAll, Bool.and_eq_true, ih, List.forall_mem_cons]

theorem fitFields_iff {fields : List (String × Expr)} :
    fitFields names fields = true ↔
      ∀ e ∈ fields.map Prod.snd, e.fits names .operand = true := by
  induction fields with
  | nil => exact ⟨fun _ => List.forall_mem_nil _, fun _ => rfl⟩
  | cons field fields ih =>
    rw [fitFields, Bool.and_eq_true, ih, List.map_cons, List.forall_mem_cons]

theorem Block.fits_iff {body : Block} :
    body.fits names = true ↔ ∀ e ∈ body.statements, e.fits names .statement = true := by
  obtain ⟨statements, line⟩ := body
  exact fitAll_iff

/-- What may be an operand may be a statement. -/
theorem Expr.fits_statement {e : Expr} (h : e.fits names .operand = true) :
    e.fits names .statement = true := by
  cases e with
  | function name params binds body line =>
    cases binds with
    | false => exact h
    | true => cases h
  | assign name value declares line => cases h
  | returns value line => cases h
  | choose condition yes no line => cases h
  | setField receiver name value line => cases h
  | _ => exact h

end Fits

/-! ### Names that are bound -/

/-- The names that a construct binds, sets as fields or has for parameters pass a test. -/
def Expr.bindsOnly (names : String → Bool) : Expr → Bool
  | .assign name _ _ _ => names name
  | .function name params binds _ _ => (!binds || names name) && params.all names
  | .setField _ name _ _ => names name
  | _ => true

section Binds

variable {names : String → Bool}

theorem Expr.all_bindsOnly_of_isNothing {e : Expr} (h : e.isNothing = true) :
    e.all (Expr.bindsOnly names) = true := by
  cases e with
  | literal value line => rfl
  | _ => cases h

mutual

/-- In what may stand somewhere, the names that are bound pass the test, in all constructs. -/
theorem Expr.all_bindsOnly (e : Expr) {role : Role} (h : e.fits names role = true) :
    e.all (Expr.bindsOnly names) = true := by
  cases e with
  | block body => cases h
  | literal value line => rfl
  | call callee args line =>
    rw [Expr.fits, Bool.and_eq_true, Bool.or_eq_true] at h
    have hcallee : callee.all (Expr.bindsOnly names) = true := by
      rcases h.1 with ho | hfits
      · obtain ⟨o, ho⟩ := Option.isSome_iff_exists.mp ho
        obtain ⟨l, rfl⟩ := Expr.eq_identifier_of_operator? ho
        rfl
      · exact callee.all_bindsOnly hfits
    rw [Expr.all, hcallee, allIn_bindsOnly args h.2]
    rfl
  | identifier name line => rfl
  | assign name value declares line =>
    simp only [Expr.fits, Bool.and_eq_true, Bool.or_eq_true] at h
    have hvalue : value.all (Expr.bindsOnly names) = true := by
      rcases h.2 with hfits | ⟨-, hnothing⟩
      · exact value.all_bindsOnly hfits
      · exact Expr.all_bindsOnly_of_isNothing hnothing
    rw [Expr.all, hvalue, Expr.bindsOnly, h.1.2]
    rfl
  | function name params binds body line =>
    simp only [Expr.fits, Bool.and_eq_true] at h
    obtain ⟨⟨hname, hparams⟩, hbody⟩ := h
    have hbinds : (!binds || names name) = true := by
      cases binds with
      | false => rfl
      | true => exact (Bool.and_eq_true .. ▸ hname).2
    rw [Expr.all, body.all_bindsOnly hbody, Expr.bindsOnly, hparams, hbinds]
    rfl
  | returns value line =>
    rw [Expr.fits, Bool.and_eq_true, Bool.or_eq_true] at h
    rcases h.2 with hfits | hnothing
    · rw [Expr.all, value.all_bindsOnly hfits]
      rfl
    · rw [Expr.all, Expr.all_bindsOnly_of_isNothing hnothing]
      rfl
  | choose condition yes no line =>
    simp only [Expr.fits, Bool.and_eq_true] at h
    rw [Expr.all, condition.all_bindsOnly h.1.1.2, yes.all_bindsOnly h.1.2, no.all_bindsOnly h.2]
    rfl
  | object fields line =>
    rw [Expr.all, allInFields_bindsOnly fields h]
    rfl
  | field receiver name line =>
    rw [Expr.fits, Bool.and_eq_true] at h
    rw [Expr.all, receiver.all_bindsOnly h.1]
    rfl
  | setField receiver name value line =>
    simp only [Expr.fits, Bool.and_eq_true] at h
    obtain ⟨⟨⟨-, hreceiver⟩, hname⟩, hvalue⟩ := h
    rw [Expr.all, Expr.bindsOnly, hname, receiver.all_bindsOnly hreceiver,
      value.all_bindsOnly hvalue]
    rfl
  | method receiver name args line =>
    simp only [Expr.fits, Bool.and_eq_true] at h
    rw [Expr.all, receiver.all_bindsOnly h.1.1, allIn_bindsOnly args h.2]
    rfl

theorem Block.all_bindsOnly (body : Block) (h : body.fits names = true) :
    body.all (Expr.bindsOnly names) = true := by
  obtain ⟨statements, line⟩ := body
  exact allIn_bindsOnly statements h

theorem allIn_bindsOnly (es : List Expr) {role : Role} (h : fitAll names role es = true) :
    allIn (Expr.bindsOnly names) es = true := by
  cases es with
  | nil => rfl
  | cons e es =>
    rw [fitAll, Bool.and_eq_true] at h
    rw [allIn, e.all_bindsOnly h.1, allIn_bindsOnly es h.2]
    rfl

theorem allInFields_bindsOnly (fields : List (String × Expr)) (h : fitFields names fields = true) :
    allInFields (Expr.bindsOnly names) fields = true := by
  cases fields with
  | nil => rfl
  | cons field fields =>
    obtain ⟨name, e⟩ := field
    rw [fitFields, Bool.and_eq_true] at h
    rw [allInFields, e.all_bindsOnly h.1, allInFields_bindsOnly fields h.2]
    rfl

end

mutual

/-- Names that are declared are bound by a declaration. -/
theorem Expr.names_of_mem_declared (e : Expr) (h : e.all (Expr.bindsOnly names) = true) :
    ∀ name ∈ e.declared, names name = true := by
  cases e with
  | block body => exact body.names_of_mem_declared (Expr.all_block.mp h).2
  | assign name value declares line =>
    cases declares with
    | false => exact List.forall_mem_nil _
    | true => exact List.forall_mem_singleton.mpr (Expr.all_self h)
  | choose condition yes no line =>
    obtain ⟨hyes, hno⟩ := Expr.all_branches h
    exact List.forall_mem_append.mpr
      ⟨yes.names_of_mem_declared hyes, no.names_of_mem_declared hno⟩
  | _ => exact List.forall_mem_nil _

theorem Block.names_of_mem_declared (body : Block) (h : body.all (Expr.bindsOnly names) = true) :
    ∀ name ∈ body.declared, names name = true := by
  obtain ⟨statements, line⟩ := body
  exact names_of_mem_declaredIn statements h

theorem names_of_mem_declaredIn (es : List Expr) (h : allIn (Expr.bindsOnly names) es = true) :
    ∀ name ∈ declaredIn es, names name = true := by
  cases es with
  | nil => exact List.forall_mem_nil _
  | cons e es =>
    rw [allIn, Bool.and_eq_true] at h
    exact List.forall_mem_append.mpr
      ⟨e.names_of_mem_declared h.1, names_of_mem_declaredIn es h.2⟩

end

end Binds

end Scriptlet
