import Scriptlet.Script.Declared
import Mathlib.Data.List.Basic

/-!
# Declarations and their places

Which names a construct declares for the block that it belongs to, said without the walk that finds them:
an assignment may declare its name, a block passes on what its statements declare, and a choice what its two
blocks declare. Nothing else passes anything on, so neither conditions nor operands nor the bodies of
functions declare names.

A name may be declared in several places. Places are ordered as they are written down, and the walk lists
the names in this order, so that of two names the one whose first declaration comes first is listed first.

## What is proved

* `ListsInOrder.embed`, `ListsInOrder.append`: how lists of names in order are put together.
* `Expr.listsInOrder_declared`: the walk lists the names that a construct declares, in order.
* `Expr.mem_declared_iff`, `Expr.declaresBefore_of_idxOf_lt`: what is listed, and what is listed first.
-/

namespace Scriptlet

/-- A construct declares a name at a place below it. A place is the list of turns that lead there: the
number of a statement in a block, and `0` for the first or `1` for the second block of a choice. -/
inductive Expr.DeclaresAt : Expr → List Nat → String → Prop where
  /-- The construct is the declaration. -/
  | here {name : String} {value : Expr} {line : Int} :
    DeclaresAt (.assign name value true line) [] name
  /-- A statement of a block declares the name. -/
  | statement {statements : List Expr} {line : Int} {i : Nat} {e : Expr} {place : List Nat}
    {name : String} : statements[i]? = some e → e.DeclaresAt place name →
      DeclaresAt (.block ⟨statements, line⟩) (i :: place) name
  /-- The first block of a choice declares the name. -/
  | yes {condition : Expr} {yes no : Block} {line : Int} {place : List Nat} {name : String} :
    DeclaresAt (.block yes) place name →
      DeclaresAt (.choose condition yes no line) (0 :: place) name
  /-- The second block of a choice declares the name. -/
  | no {condition : Expr} {yes no : Block} {line : Int} {place : List Nat} {name : String} :
    DeclaresAt (.block no) place name →
      DeclaresAt (.choose condition yes no line) (1 :: place) name

/-- A construct declares a name somewhere. -/
def Expr.Declares (e : Expr) (name : String) : Prop := ∃ place, e.DeclaresAt place name

/-- A place comes before another one. -/
abbrev ComesBefore : List Nat → List Nat → Prop := List.Lex (· < ·)

/-- A construct declares one name before it declares another one for the first time. -/
def Expr.DeclaresBefore (e : Expr) (name other : String) : Prop :=
  ∃ place, e.DeclaresAt place name ∧
    ∀ place', e.DeclaresAt place' other → ComesBefore place place'

/-! ### Lists of names in order -/

/-- The names found at some places, listed in the order in which they are found first. -/
structure ListsInOrder (names : List String) (At : List Nat → String → Prop) : Prop where
  /-- What is found is listed. -/
  mem : ∀ place name, At place name → name ∈ names
  /-- What is listed is found, and before all that is listed behind it. -/
  first : ∀ name ∈ names, ∃ place, At place name ∧ ∀ other place',
    names.idxOf name < names.idxOf other → At place' other → ComesBefore place place'

section ListsInOrder

variable {names names' : List String} {At At' : List Nat → String → Prop} {name other : String}

/-- Of two joined lists, what comes up first in them comes up first in one of them. -/
theorem idxOf_lt_of_append (h : (names ++ names').idxOf name < (names ++ names').idxOf other) :
    (name ∈ names ∧ names.idxOf name < names.idxOf other) ∨
      (name ∉ names ∧ other ∉ names ∧ names'.idxOf name < names'.idxOf other) := by
  rw [List.idxOf_append, List.idxOf_append] at h
  by_cases hname : name ∈ names
  · rw [if_pos hname] at h
    have hlt := List.idxOf_lt_length_of_mem hname
    by_cases hother : other ∈ names
    · rw [if_pos hother] at h
      exact .inl ⟨hname, h⟩
    · rw [← List.idxOf_eq_length_iff] at hother
      exact .inl ⟨hname, hother ▸ hlt⟩
  · rw [if_neg hname] at h
    by_cases hother : other ∈ names
    · have hlt := List.idxOf_lt_length_of_mem hother
      rw [if_pos hother] at h
      omega
    · rw [if_neg hother] at h
      exact .inr ⟨hname, hother, by omega⟩

theorem ListsInOrder.congr (h : ListsInOrder names At)
    (hiff : ∀ place name, At' place name ↔ At place name) : ListsInOrder names At' := by
  obtain rfl : At' = At := funext fun place => funext fun name => propext (hiff place name)
  exact h

/-- Nothing is found, and nothing is listed. -/
theorem ListsInOrder.nil (h : ∀ place name, ¬ At place name) : ListsInOrder [] At where
  mem place name hat := absurd hat (h place name)
  first _ hname := absurd hname List.not_mem_nil

/-- Places may be moved if they keep their order. -/
theorem ListsInOrder.embed (h : ListsInOrder names At) {f : List Nat → List Nat}
    (hf : ∀ p q, ComesBefore p q → ComesBefore (f p) (f q)) :
    ListsInOrder names fun place name => ∃ p, place = f p ∧ At p name where
  mem := by
    rintro _ name ⟨p, rfl, hat⟩
    exact h.mem p name hat
  first name hname := by
    obtain ⟨p, hat, hfirst⟩ := h.first name hname
    refine ⟨f p, ⟨p, rfl, hat⟩, ?_⟩
    rintro other _ hlt ⟨q, rfl, hq⟩
    exact hf p q (hfirst other q hlt hq)

/-- Lists are joined if all places of one come before those of the other. -/
theorem ListsInOrder.append (h : ListsInOrder names At) (h' : ListsInOrder names' At')
    (hbefore : ∀ p q name other, At p name → At' q other → ComesBefore p q) :
    ListsInOrder (names ++ names') fun place name => At place name ∨ At' place name where
  mem := by
    rintro place name (hat | hat)
    · exact List.mem_append_left _ (h.mem place name hat)
    · exact List.mem_append_right _ (h'.mem place name hat)
  first name hname := by
    by_cases hleft : name ∈ names
    · obtain ⟨p, hat, hfirst⟩ := h.first name hleft
      refine ⟨p, .inl hat, ?_⟩
      rintro other q hlt (hq | hq)
      · rcases idxOf_lt_of_append hlt with ⟨-, hlt⟩ | ⟨hnot, -⟩
        · exact hfirst other q hlt hq
        · exact absurd hleft hnot
      · exact hbefore p q name other hat hq
    · obtain ⟨p, hat, hfirst⟩ := h'.first name ((List.mem_append.mp hname).resolve_left hleft)
      refine ⟨p, .inr hat, ?_⟩
      rintro other q hlt hq
      rcases idxOf_lt_of_append hlt with ⟨hin, -⟩ | ⟨-, hnot, hlt⟩
      · exact absurd hin hleft
      · rcases hq with hq | hq
        · exact absurd (h.mem q other hq) hnot
        · exact hfirst other q hlt hq

end ListsInOrder

/-! ### The walk -/

/-- The place in a list of statements that has one more in front. -/
def nextStatement : List Nat → List Nat
  | [] => []
  | i :: place => (i + 1) :: place

theorem comesBefore_nextStatement {p q : List Nat} (h : ComesBefore p q) :
    ComesBefore (nextStatement p) (nextStatement q) := by
  cases h with
  | nil => exact .nil
  | rel hlt => exact .rel (Nat.succ_lt_succ hlt)
  | cons h => exact .cons h

/-- A block declares what its first statement declares, and what the others declare. -/
theorem declaresAt_block_cons {e : Expr} {es : List Expr} {line : Int} {place : List Nat}
    {name : String} :
    (Expr.block ⟨e :: es, line⟩).DeclaresAt place name ↔
      (∃ p, place = 0 :: p ∧ e.DeclaresAt p name) ∨
        ∃ p, place = nextStatement p ∧ (Expr.block ⟨es, line⟩).DeclaresAt p name := by
  constructor
  · rintro (_ | @⟨_, _, i, e', p, _, hi, hat⟩)
    cases i with
    | zero =>
      obtain rfl : e = e' := Option.some.inj hi
      exact .inl ⟨p, rfl, hat⟩
    | succ i => exact .inr ⟨i :: p, rfl, .statement hi hat⟩
  · rintro (⟨p, rfl, hat⟩ | ⟨p, rfl, hat⟩)
    · exact .statement rfl hat
    · cases hat with
      | statement hi hat => exact .statement hi hat

theorem declaresAt_choose {condition : Expr} {yes no : Block} {line : Int} {place : List Nat}
    {name : String} :
    (Expr.choose condition yes no line).DeclaresAt place name ↔
      (∃ p, place = 0 :: p ∧ (Expr.block yes).DeclaresAt p name) ∨
        ∃ p, place = 1 :: p ∧ (Expr.block no).DeclaresAt p name := by
  constructor
  · intro h
    cases h with
    | yes hat => exact .inl ⟨_, rfl, hat⟩
    | no hat => exact .inr ⟨_, rfl, hat⟩
  · rintro (⟨p, rfl, hat⟩ | ⟨p, rfl, hat⟩)
    · exact .yes hat
    · exact .no hat

mutual

/-- The walk lists the names that a construct declares in order. -/
theorem Expr.listsInOrder_declared (e : Expr) : ListsInOrder e.declared e.DeclaresAt := by
  match e with
  | .block body => exact body.listsInOrder_declared
  | .assign name value true line =>
    refine ⟨?_, ?_⟩
    · rintro _ _ ⟨⟩
      exact List.mem_singleton_self _
    · intro other hother
      obtain rfl := List.mem_singleton.mp hother
      refine ⟨[], .here, ?_⟩
      rintro _ _ hlt ⟨⟩
      exact absurd hlt (Nat.lt_irrefl _)
  | .choose condition yes no line =>
    -- the turn into a block stands in front of all places in it, so the first block comes first
    have hyes := yes.listsInOrder_declared.embed fun _ _ => List.Lex.cons (a := 0)
    have hno := no.listsInOrder_declared.embed fun _ _ => List.Lex.cons (a := 1)
    refine (hyes.append hno ?_).congr fun _ _ => declaresAt_choose
    rintro _ _ _ _ ⟨p, rfl, -⟩ ⟨q, rfl, -⟩
    exact .rel Nat.zero_lt_one
  | .assign _ _ false _ | .literal _ _ | .call _ _ _ | .identifier _ _ | .function _ _ _ _ _
  | .returns _ _ | .object _ _ | .field _ _ _ | .setField _ _ _ _ | .method _ _ _ _ =>
    exact .nil fun _ _ h => by cases h

theorem Block.listsInOrder_declared (body : Block) :
    ListsInOrder body.declared (Expr.block body).DeclaresAt := by
  obtain ⟨statements, line⟩ := body
  exact listsInOrder_declaredIn statements line

theorem listsInOrder_declaredIn (es : List Expr) (line : Int) :
    ListsInOrder (declaredIn es) (Expr.block ⟨es, line⟩).DeclaresAt := by
  match es with
  | [] =>
    refine .nil ?_
    rintro _ _ (_ | ⟨hi, -⟩)
    cases hi
  | e :: es =>
    have hhead := e.listsInOrder_declared.embed fun _ _ => List.Lex.cons (a := 0)
    have htail := (listsInOrder_declaredIn es line).embed fun _ _ => comesBefore_nextStatement
    refine (hhead.append htail ?_).congr fun _ _ => declaresAt_block_cons
    rintro _ _ _ _ ⟨p, rfl, -⟩ ⟨q, rfl, hat⟩
    cases hat with
    | statement => exact .rel (Nat.succ_pos _)

end

namespace Expr

variable {e : Expr} {name other : String}

/-- The walk finds the names that a construct declares, and no others. -/
theorem mem_declared_iff : name ∈ e.declared ↔ e.Declares name := by
  constructor
  · intro h
    obtain ⟨place, hat, -⟩ := e.listsInOrder_declared.first name h
    exact ⟨place, hat⟩
  · rintro ⟨place, hat⟩
    exact e.listsInOrder_declared.mem place name hat

/-- What the walk finds first is declared first. -/
theorem declaresBefore_of_idxOf_lt (h : e.declared.idxOf name < e.declared.idxOf other) :
    e.DeclaresBefore name other := by
  have hmem : name ∈ e.declared :=
    List.idxOf_lt_length_iff.mp (Nat.lt_of_lt_of_le h List.idxOf_le_length)
  obtain ⟨place, hat, hfirst⟩ := e.listsInOrder_declared.first name hmem
  exact ⟨place, hat, fun place' hat' => hfirst other place' h hat'⟩

end Expr

end Scriptlet
