import Scriptlet.Proofs.Lexical.Layout
import Scriptlet.Proofs.Script.Shape

/-!
# What stands where in a script

`Expr.fits` goes through a script from above. Here the same is said from below, of every construct that
stands somewhere in a script: which place it has there, and what its place allows it to be. Blocks are
bodies and nothing else, statements that do something stand in blocks only, and what is evaluated for its
value is something that has one.

## What is proved

* `Place.fits_part`: what is found in a part that fits fits too.
* `Place.fits.admits`: what fits in a place is allowed there.
* `Block.Has.admits`: whatever stands in a block of the right shape is allowed where it stands.
-/

namespace Scriptlet

open Lexical

/-- What a construct is to the construct that it is a part of. -/
inductive Place where
  /-- The block that a script, a function or a branch of a choice is made of. -/
  | body
  /-- A statement of a block. -/
  | statement
  /-- A part that must have a value: an argument, a condition, a receiver, the value of a field. -/
  | operand
  /-- What is called. -/
  | callee
  /-- The value of a declaration or of a return, which may be left out. -/
  | value
  deriving DecidableEq, Repr

/-- The parts in this place are evaluated for their values. -/
def Place.hasValue : Place → Bool
  | body | statement => false
  | operand | callee | value => true

namespace Expr

/-- The parts of a construct, each with its place. -/
def parts : Expr → List (Place × Expr)
  | block body => body.statements.map fun e => (.statement, e)
  | literal _ _ | identifier _ _ => []
  | call callee args _ => (.callee, callee) :: args.map fun e => (.operand, e)
  | assign _ value true _ => [(.value, value)]
  | assign _ value false _ => [(.operand, value)]
  | function _ _ _ body _ => [(.body, block body)]
  | returns value _ => [(.value, value)]
  | choose condition yes no _ =>
    [(.operand, condition), (.body, block yes), (.body, block no)]
  | object fields _ => fields.map fun field => (.operand, field.2)
  | field receiver _ _ => [(.operand, receiver)]
  | setField receiver _ value _ => [(.operand, receiver), (.operand, value)]
  | method receiver _ args _ => (.operand, receiver) :: args.map fun e => (.operand, e)

/-- The names that a construct writes down itself, those of the fields of an object apart. -/
def names : Expr → List String
  | identifier name _ | assign name _ _ _ | field _ name _ | setField _ name _ _
  | method _ name _ _ => [name]
  | function name params _ _ _ => name :: params
  | block _ | literal _ _ | call _ _ _ | returns _ _ | choose _ _ _ _ | object _ _ => []

/-- The construct does something rather than have a value: a return, a choice, an assignment, or a
function that is bound to its name. -/
def isAction : Expr → Bool
  | returns _ _ | choose _ _ _ _ | assign _ _ _ _ | setField _ _ _ _ => true
  | function _ _ binds _ _ => binds
  | block _ | literal _ _ | call _ _ _ | identifier _ _ | object _ _ | field _ _ _
  | method _ _ _ _ => false

/-- The construct has a value: an integer or a string, a call, a name, a function that is not bound, an
object, a field or the call of one. -/
def isOperand : Expr → Bool
  | literal value _ => value != .undefined
  | call _ _ _ | identifier _ _ | object _ _ | field _ _ _ | method _ _ _ _ => true
  | function _ _ binds _ _ => !binds
  | block _ | returns _ _ | choose _ _ _ _ | assign _ _ _ _ | setField _ _ _ _ => false

end Expr

/-- A construct stands somewhere in a block, in a place. -/
inductive Block.Has (root : Block) : Place → Expr → Prop where
  /-- The block itself is a body. -/
  | root : root.Has .body (.block root)
  /-- What stands there has parts. -/
  | part {place inner : Place} {e part : Expr} :
    root.Has place e → (inner, part) ∈ e.parts → root.Has inner part

/-- A construct is allowed in a place. -/
structure Place.Admits (place : Place) (e : Expr) : Prop where
  /-- Bodies are blocks, and blocks stand nowhere else. -/
  block : place = Place.body ↔ ∃ inner, e = .block inner
  /-- What does something is a statement. -/
  action : e.isAction = true → place = .statement
  /-- What is called, and what must have a value, is something that has one. -/
  operand : place = .operand ∨ place = .callee → e.isOperand = true
  /-- So is what may be left out, if it is there. -/
  value : place = .value → e.isOperand = true ∨ e.isNothing = true
  /-- Nothing else can be left out. -/
  nothing : e.isNothing = true → place = .value
  /-- The sign of an operator is only written down as the name that is called. -/
  sign : ∀ o : Operator, o.sign ∈ e.names → place = .callee ∧ ∃ line, e = .identifier o.sign line
  /-- All that is written down besides has the form of a name. -/
  name : ∀ name ∈ e.names, isName name = true ∨ ∃ o : Operator, name = o.sign

/-! ### Shape from above -/

/-- What a construct has to be, with all its parts, to stand in a place. -/
def Place.fits : Place → Expr → Bool
  | .body, .block inner => inner.fits isName
  | .body, _ => false
  | .statement, e => e.fits isName .statement
  | .operand, e => e.fits isName .operand
  | .callee, e => e.operator?.isSome || e.fits isName .operand
  | .value, e => e.fits isName .operand || e.isNothing

section Parts

variable {role : Role} {e : Expr}

theorem Block.fits_parts {body : Block} (h : body.fits isName = true) :
    ∀ p ∈ (Expr.block body).parts, p.1.fits p.2 = true :=
  List.forall_mem_map.mpr (Block.fits_iff.mp h)

/-- The parts of what may stand somewhere may stand in their places. -/
theorem Expr.fits_parts (h : e.fits isName role = true) : ∀ p ∈ e.parts, p.1.fits p.2 = true := by
  cases e with
  | block body => cases h
  | literal value line => exact List.forall_mem_nil _
  | identifier name line => exact List.forall_mem_nil _
  | call callee args line =>
    obtain ⟨hcallee, hargs⟩ := Bool.and_eq_true_iff.mp h
    exact List.forall_mem_cons.mpr ⟨hcallee, List.forall_mem_map.mpr (fitAll_iff.mp hargs)⟩
  | assign name value declares line =>
    simp only [Expr.fits, Bool.and_eq_true] at h
    obtain ⟨-, hvalue⟩ := h
    cases declares with
    | true => exact List.forall_mem_singleton.mpr hvalue
    | false =>
      rw [Bool.false_and, Bool.or_false] at hvalue
      exact List.forall_mem_singleton.mpr hvalue
  | function name params binds body line =>
    exact List.forall_mem_singleton.mpr (Bool.and_eq_true_iff.mp h).2
  | returns value line => exact List.forall_mem_singleton.mpr (Bool.and_eq_true_iff.mp h).2
  | choose condition yes no line =>
    simp only [Expr.fits, Bool.and_eq_true] at h
    obtain ⟨⟨⟨-, hcondition⟩, hyes⟩, hno⟩ := h
    exact List.forall_mem_cons.mpr
      ⟨hcondition, List.forall_mem_cons.mpr ⟨hyes, List.forall_mem_singleton.mpr hno⟩⟩
  | object fields line =>
    refine List.forall_mem_map.mpr fun field hfield => ?_
    exact fitFields_iff.mp h field.2 (List.mem_map_of_mem hfield)
  | field receiver name line => exact List.forall_mem_singleton.mpr (Bool.and_eq_true_iff.mp h).1
  | setField receiver name value line =>
    simp only [Expr.fits, Bool.and_eq_true] at h
    obtain ⟨⟨⟨-, hreceiver⟩, -⟩, hvalue⟩ := h
    exact List.forall_mem_cons.mpr ⟨hreceiver, List.forall_mem_singleton.mpr hvalue⟩
  | method receiver name args line =>
    simp only [Expr.fits, Bool.and_eq_true] at h
    obtain ⟨⟨hreceiver, -⟩, hargs⟩ := h
    exact List.forall_mem_cons.mpr ⟨hreceiver, List.forall_mem_map.mpr (fitAll_iff.mp hargs)⟩

theorem Expr.parts_of_isNothing (h : e.isNothing = true) : e.parts = [] := by
  cases e with
  | literal value line => rfl
  | _ => cases h

theorem Place.body_fits (h : Place.body.fits e = true) :
    ∃ body, e = .block body ∧ body.fits isName = true := by
  cases e with
  | block body => exact ⟨body, rfl, h⟩
  | _ => cases h

/-- What is found in a part that fits fits too. -/
theorem Place.fits_part {place : Place} (h : place.fits e = true) :
    ∀ p ∈ e.parts, p.1.fits p.2 = true := by
  cases place with
  | body =>
    obtain ⟨body, rfl, hbody⟩ := Place.body_fits h
    exact Block.fits_parts hbody
  | statement => exact Expr.fits_parts h
  | operand => exact Expr.fits_parts h
  | callee =>
    rcases Bool.or_eq_true_iff.mp h with hoperator | hfits
    · obtain ⟨o, ho⟩ := Option.isSome_iff_exists.mp hoperator
      obtain ⟨line, rfl⟩ := Expr.eq_identifier_of_operator? ho
      exact List.forall_mem_nil _
    · exact Expr.fits_parts hfits
  | value =>
    rcases Bool.or_eq_true_iff.mp h with hfits | hnothing
    · exact Expr.fits_parts hfits
    · rw [Expr.parts_of_isNothing hnothing]
      exact List.forall_mem_nil _

/-- Whatever stands in a block that fits fits in its place. -/
theorem Block.Has.fits {root : Block} {place : Place} (h : root.Has place e)
    (hroot : root.fits isName = true) : place.fits e = true := by
  induction h with
  | root => exact hroot
  | part _ hpart ih => exact Place.fits_part ih _ hpart

end Parts

/-! ### What fits is allowed -/

section Admits

variable {role : Role} {e : Expr}

theorem Expr.ne_block_of_fits (h : e.fits isName role = true) : ¬∃ body, e = .block body := by
  rintro ⟨body, rfl⟩
  cases h

theorem Expr.isNothing_of_fits (h : e.fits isName role = true) : e.isNothing = false := by
  cases e with
  | literal value line =>
    cases value with
    | undefined => cases h
    | int n => rfl
    | str s => rfl
  | _ => rfl

theorem Expr.isOperand_of_fits (h : e.fits isName .operand = true) : e.isOperand = true := by
  cases e with
  | literal value line => exact h
  | function name params binds body line =>
    cases binds with
    | false => rfl
    | true => cases h
  | call _ _ _ => rfl
  | identifier _ _ => rfl
  | object _ _ => rfl
  | field _ _ _ => rfl
  | method _ _ _ _ => rfl
  | _ => cases h

theorem Expr.isAction_of_isOperand (h : e.isOperand = true) : e.isAction = false := by
  cases e with
  | function name params binds body line =>
    cases binds with
    | false => rfl
    | true => cases h
  | returns _ _ => cases h
  | choose _ _ _ _ => cases h
  | assign _ _ _ _ => cases h
  | setField _ _ _ _ => cases h
  | _ => rfl

theorem Expr.isName_of_fits (h : e.fits isName role = true) :
    ∀ name ∈ e.names, isName name = true := by
  cases e with
  | block body => cases h
  | literal value line => exact List.forall_mem_nil _
  | call callee args line => exact List.forall_mem_nil _
  | identifier name line => exact List.forall_mem_singleton.mpr h
  | assign name value declares line =>
    simp only [Expr.fits, Bool.and_eq_true] at h
    exact List.forall_mem_singleton.mpr h.1.2
  | function name params binds body line =>
    simp only [Expr.fits, Bool.and_eq_true, List.all_eq_true] at h
    obtain ⟨⟨hname, hparams⟩, -⟩ := h
    refine List.forall_mem_cons.mpr ⟨?_, hparams⟩
    cases binds with
    | true => exact (Bool.and_eq_true_iff.mp hname).2
    | false =>
      rw [eq_of_beq hname]
      decide
  | returns value line => exact List.forall_mem_nil _
  | choose condition yes no line => exact List.forall_mem_nil _
  | object fields line => exact List.forall_mem_nil _
  | field receiver name line => exact List.forall_mem_singleton.mpr (Bool.and_eq_true_iff.mp h).2
  | setField receiver name value line =>
    simp only [Expr.fits, Bool.and_eq_true] at h
    exact List.forall_mem_singleton.mpr h.1.2
  | method receiver name args line =>
    simp only [Expr.fits, Bool.and_eq_true] at h
    exact List.forall_mem_singleton.mpr h.1.2

/-- A sign does not have the form of a name. -/
theorem Operator.sign_notMem_of_isName {names : List String}
    (h : ∀ name ∈ names, isName name = true) (o : Operator) : o.sign ∉ names := by
  intro hmem
  have hsign := h _ hmem
  cases o <;> cases hsign

theorem Place.admits_block (body : Block) : Place.body.Admits (.block body) where
  block := iff_of_true rfl ⟨body, rfl⟩
  action h := by cases h
  operand h := by rcases h with h | h <;> cases h
  value h := by cases h
  nothing h := by cases h
  sign _ h := by cases h
  name := List.forall_mem_nil _

theorem Place.admits_statement (h : e.fits isName .statement = true) :
    Place.statement.Admits e where
  block := iff_of_false Place.noConfusion (Expr.ne_block_of_fits h)
  action _ := rfl
  operand h := by rcases h with h | h <;> cases h
  value h := by cases h
  nothing hn := by rw [Expr.isNothing_of_fits h] at hn; cases hn
  sign o hm := absurd hm (o.sign_notMem_of_isName (Expr.isName_of_fits h))
  name name hm := .inl (Expr.isName_of_fits h name hm)

/-- An operand is allowed wherever there must be a value. -/
theorem Place.admits_operand {place : Place} (hplace : place.hasValue = true)
    (h : e.fits isName .operand = true) : place.Admits e where
  block := by
    refine iff_of_false ?_ (Expr.ne_block_of_fits h)
    rintro rfl
    cases hplace
  action ha := by rw [Expr.isAction_of_isOperand (Expr.isOperand_of_fits h)] at ha; cases ha
  operand _ := Expr.isOperand_of_fits h
  value _ := .inl (Expr.isOperand_of_fits h)
  nothing hn := by rw [Expr.isNothing_of_fits h] at hn; cases hn
  sign o hm := absurd hm (o.sign_notMem_of_isName (Expr.isName_of_fits h))
  name name hm := .inl (Expr.isName_of_fits h name hm)

theorem Place.admits_operator {o : Operator} (line : Int) :
    Place.callee.Admits (.identifier o.sign line) where
  block := iff_of_false Place.noConfusion (by rintro ⟨body, ⟨⟩⟩)
  action h := by cases h
  operand _ := rfl
  value h := by cases h
  nothing h := by cases h
  sign o' hm := by
    rw [List.mem_singleton.mp hm]
    exact ⟨rfl, line, rfl⟩
  name name hm := .inr ⟨o, List.mem_singleton.mp hm⟩

theorem Place.admits_nothing (h : e.isNothing = true) : Place.value.Admits e := by
  cases e with
  | literal value line =>
    exact {
      block := iff_of_false Place.noConfusion (by rintro ⟨body, ⟨⟩⟩)
      action := fun ha => by cases ha
      operand := fun hp => by rcases hp with hp | hp <;> cases hp
      value := fun _ => .inr h
      nothing := fun _ => rfl
      sign := fun _ hm => by cases hm
      name := List.forall_mem_nil _ }
  | _ => cases h

/-- What fits in a place is allowed there. -/
theorem Place.fits.admits {place : Place} (h : place.fits e = true) : place.Admits e := by
  cases place with
  | body =>
    obtain ⟨body, rfl, -⟩ := Place.body_fits h
    exact Place.admits_block body
  | statement => exact Place.admits_statement h
  | operand => exact Place.admits_operand rfl h
  | callee =>
    rcases Bool.or_eq_true_iff.mp h with hoperator | hfits
    · obtain ⟨o, ho⟩ := Option.isSome_iff_exists.mp hoperator
      obtain ⟨line, rfl⟩ := Expr.eq_identifier_of_operator? ho
      exact Place.admits_operator line
    · exact Place.admits_operand rfl hfits
  | value =>
    rcases Bool.or_eq_true_iff.mp h with hfits | hnothing
    · exact Place.admits_operand rfl hfits
    · exact Place.admits_nothing hnothing

/-- **Whatever stands in a block of the right shape is allowed where it stands.** -/
theorem Block.Has.admits {root : Block} {place : Place} (h : root.Has place e)
    (hroot : root.fits isName = true) : place.Admits e :=
  Place.fits.admits (h.fits hroot)

end Admits

end Scriptlet
