import Scriptlet.Proofs.Lexical.Layout
import Scriptlet.Proofs.Store.Cycles

/-!
# Objects as trees

What can be written down are integers, strings that need no escapes, and objects whose fields hold nothing
else. If no such object holds itself, it is a tree: its fields with all that is bound in them. An object that
is bound several times stands in the tree as often, and two values with the same tree are alike: no way from
field to field tells them apart.

## What is proved

* `Heap.exists_unfolds`: an object in which there is nothing but what can be written down, and nothing that
  holds itself, is a tree.
* `Heap.Unfolds.display_eq`: such an object is shown as its tree is.
* `Heap.Unfolds.mono`: it stays the tree that it is while objects stay what they are.
* `Heap.unfolds_build`: what a tree is written down as on a heap is the tree, and `Heap.intact_build`: no
  object changes for it.
-/

namespace Scriptlet

open Lexical

/-- A value with all that is bound in it. -/
inductive Tree where
  /-- An integer. -/
  | int (n : Int)
  /-- A string. -/
  | str (s : String)
  /-- An object with its fields, in order. -/
  | object (fields : List (String × Tree))

/-- The string can stand between double quotes as it is. -/
def NeedsNoEscape (s : String) : Prop := ∀ c ∈ s.toList, c ≠ '"' ∧ c ≠ '\\' ∧ c ≠ '\n'

instance : DecidablePred NeedsNoEscape :=
  fun s => List.decidableBAll (fun c => c ≠ '"' ∧ c ≠ '\\' ∧ c ≠ '\n') s.toList

namespace Tree

mutual

/-- The text of a tree. -/
def text : Tree → String
  | int n => toString n
  | str s => "\"" ++ s ++ "\""
  | object fields => Heap.bracedLines (fieldLines fields)

/-- The texts of fields. -/
def fieldLines : List (String × Tree) → List String
  | [] => []
  | (name, tree) :: fields => Heap.fieldLine name tree.text :: fieldLines fields

end

mutual

/-- The tree can be written down: the fields of objects have different names that have the form of a name,
and strings need no escapes. -/
def IsWritable : Tree → Prop
  | int _ => True
  | str s => NeedsNoEscape s
  | object fields => (fields.map Prod.fst).Nodup ∧ AreWritable fields

/-- The names of fields have the form of a name, and what they hold can be written down. -/
def AreWritable : List (String × Tree) → Prop
  | [] => True
  | (name, tree) :: fields => (isName name = true ∧ tree.IsWritable) ∧ AreWritable fields

end

end Tree

namespace Heap

mutual

/-- A value is a tree on a heap. -/
inductive Unfolds (h : Heap) : Value → Tree → Prop where
  /-- An integer. -/
  | int (n : Int) : Unfolds h (.int n) (.int n)
  /-- A string. -/
  | str (s : String) : Unfolds h (.str s) (.str s)
  /-- A plain object on the heap, if its fields are trees. -/
  | object {place : Loc} {fields : List (String × Tree)} (hlt : place < h.next)
      (hn : (h.get place).nature = .plain) (hs : UnfoldsFields h (h.get place).slots fields) :
      Unfolds h (.ref place) (.object fields)

/-- The values of fields are trees, one after the other. -/
inductive UnfoldsFields (h : Heap) : Slots → List (String × Tree) → Prop where
  /-- No fields. -/
  | nil : UnfoldsFields h [] []
  /-- A field and those after it. -/
  | cons {name : String} {value : Value} {tree : Tree} {slots : Slots}
      {fields : List (String × Tree)} (hv : Unfolds h value tree) (hs : UnfoldsFields h slots fields) :
      UnfoldsFields h ((name, value) :: slots) ((name, tree) :: fields)

end

/-- Values on two heaps are alike: they are the same integer, the same string, or plain objects with the same
names in the same order and with values that are alike. -/
def Alike (h : Heap) (value : Value) (h' : Heap) (value' : Value) : Prop :=
  ∃ tree, h.Unfolds value tree ∧ h'.Unfolds value' tree

variable {h h' h'' : Heap}

theorem UnfoldsFields.names_eq {slots : Slots} {fields : List (String × Tree)} :
    h.UnfoldsFields slots fields → slots.names = fields.map Prod.fst
  | .nil => rfl
  | .cons _ hs => congrArg (_ :: ·) hs.names_eq

/-! ### How trees are shown -/

mutual

theorem Unfolds.showsField {value : Value} {tree : Tree} {name : String} {slots : Slots}
    {lines : List String} : h.Unfolds value tree → h.ShowsFieldsInFull slots lines →
      h.ShowsFieldsInFull ((name, value) :: slots) (fieldLine name tree.text :: lines)
  | .int _, hs => .simple rfl hs
  | .str _, hs => .simple rfl hs
  | .object _ hn hfields, hs => .object (.plain hn hfields.showsFieldsInFull) hs

theorem UnfoldsFields.showsFieldsInFull {slots : Slots} {fields : List (String × Tree)} :
    h.UnfoldsFields slots fields → h.ShowsFieldsInFull slots (Tree.fieldLines fields)
  | .nil => .nil
  | .cons hv hs => hv.showsField hs.showsFieldsInFull

end

/-- An object that is a tree is shown as the tree is. -/
theorem Unfolds.display_eq {place : Loc} {tree : Tree} (h' : h.Unfolds (.ref place) tree) :
    h.display (.ref place) = tree.text := by
  cases h' with
  | object _ hn hs => exact (showsInFull_iff.mp (.plain hn hs.showsFieldsInFull)).2.symm

/-! ### Later heaps -/

/-- On a later heap the objects of a heap are what they were. -/
structure Intact (h h' : Heap) : Prop where
  /-- No object goes. -/
  next_le : h.next ≤ h'.next
  /-- No object changes. -/
  get : ∀ place < h.next, h'.get place = h.get place

theorem Intact.refl (h : Heap) : h.Intact h := ⟨Nat.le_refl _, fun _ _ => rfl⟩

theorem Intact.trans (a : h.Intact h') (b : h'.Intact h'') : h.Intact h'' where
  next_le := Nat.le_trans a.next_le b.next_le
  get place hlt := (b.get place (Nat.lt_of_lt_of_le hlt a.next_le)).trans (a.get place hlt)

theorem intact_push (h : Heap) (o : Object) : h.Intact (h.push o) where
  next_le := by rw [next_push]; exact Nat.le_succ _
  get place hlt := get_push_of_lt o hlt

mutual

/-- A value stays the tree that it is while objects stay what they are. -/
theorem Unfolds.mono {value : Value} {tree : Tree} (hi : h.Intact h') :
    h.Unfolds value tree → h'.Unfolds value tree
  | .int n => .int n
  | .str s => .str s
  | .object hlt hn hs => by
    have hget := hi.get _ hlt
    exact .object (Nat.lt_of_lt_of_le hlt hi.next_le) (hget ▸ hn) (hget ▸ hs.mono hi)

theorem UnfoldsFields.mono {slots : Slots} {fields : List (String × Tree)} (hi : h.Intact h') :
    h.UnfoldsFields slots fields → h'.UnfoldsFields slots fields
  | .nil => .nil
  | .cons hv hs => .cons (hv.mono hi) (hs.mono hi)

end

/-! ### Writing trees down -/

mutual

/-- A tree written down on a heap: its value, and the heap with one more object for each one in it. -/
def build (h : Heap) : Tree → Value × Heap
  | .int n => (.int n, h)
  | .str s => (.str s, h)
  | .object fields =>
    let built := h.buildFields fields
    (.ref built.2.next, built.2.push ⟨.plain, built.1⟩)

/-- Fields written down, one after the other. -/
def buildFields (h : Heap) : List (String × Tree) → Slots × Heap
  | [] => ([], h)
  | (name, tree) :: fields =>
    let built := h.build tree
    let others := built.2.buildFields fields
    ((name, built.1) :: others.1, others.2)

end

mutual

theorem intact_build (h : Heap) (tree : Tree) : h.Intact (h.build tree).2 := by
  cases tree with
  | int n => exact .refl h
  | str s => exact .refl h
  | object fields => exact (h.intact_buildFields fields).trans (intact_push _ _)

theorem intact_buildFields (h : Heap) (fields : List (String × Tree)) :
    h.Intact (h.buildFields fields).2 := by
  cases fields with
  | nil => exact .refl h
  | cons field fields => exact (h.intact_build field.2).trans ((h.build field.2).2.intact_buildFields fields)

end

/-- An object with the fields is a tree once it is put on the heap. -/
theorem UnfoldsFields.push {slots : Slots} {fields : List (String × Tree)}
    (hs : h.UnfoldsFields slots fields) :
    (h.push ⟨.plain, slots⟩).Unfolds (.ref h.next) (.object fields) := by
  have hget := get_push_self h ⟨.plain, slots⟩
  refine .object (next_push h _ ▸ Nat.lt_succ_self _) ?_ ?_
  · rw [hget]
  · rw [hget]
    exact hs.mono (intact_push h _)

mutual

/-- What is written down is the tree. -/
theorem unfolds_build (h : Heap) (tree : Tree) : (h.build tree).2.Unfolds (h.build tree).1 tree := by
  cases tree with
  | int n => exact .int n
  | str s => exact .str s
  | object fields => exact (h.unfolds_buildFields fields).push

theorem unfolds_buildFields (h : Heap) (fields : List (String × Tree)) :
    (h.buildFields fields).2.UnfoldsFields (h.buildFields fields).1 fields := by
  cases fields with
  | nil => exact .nil
  | cons field fields =>
    obtain ⟨name, tree⟩ := field
    exact .cons ((h.unfolds_build tree).mono (intact_buildFields _ fields))
      ((h.build tree).2.unfolds_buildFields fields)

end

/-! ### Which objects are trees -/

/-- A value can be written down in a field: an integer, a string that needs no escapes, or a plain object. -/
def CanBeWritten (h : Heap) : Value → Prop
  | .undefined => False
  | .int _ => True
  | .str s => NeedsNoEscape s
  | .ref inner => (h.get inner).nature = .plain

/-- An object is a plain one whose fields can be written down. -/
structure IsRecord (h : Heap) (place : Loc) : Prop where
  /-- It is on the heap. -/
  lt : place < h.next
  /-- It is plain. -/
  plain : (h.get place).nature = .plain
  /-- No name is bound twice. -/
  nodup : (h.get place).slots.names.Nodup
  /-- Names have the form of a name and are bound to what can be written down. -/
  slots : ∀ slot ∈ (h.get place).slots, isName slot.1 = true ∧ h.CanBeWritten slot.2

theorem exists_unfoldsFields {slots : Slots}
    (hslots : ∀ slot ∈ slots, isName slot.1 = true ∧ ∃ tree, h.Unfolds slot.2 tree ∧ tree.IsWritable) :
    ∃ fields, h.UnfoldsFields slots fields ∧ Tree.AreWritable fields := by
  induction slots with
  | nil => exact ⟨[], .nil, trivial⟩
  | cons slot slots ih =>
    obtain ⟨⟨hname, tree, htree, hwritable⟩, hothers⟩ := List.forall_mem_cons.mp hslots
    obtain ⟨fields, hfields, hareWritable⟩ := ih hothers
    exact ⟨(slot.1, tree) :: fields, .cons htree hfields, ⟨hname, hwritable⟩, hareWritable⟩

/-- Where the way down comes to its end, an object is a tree. -/
theorem exists_unfolds_of_acc {place : Loc}
    (hacc : Acc (fun inner outer => h.Holds outer inner) place)
    (hrecords : ∀ inner, h.Reaches place inner → h.IsRecord inner) :
    ∃ tree, h.Unfolds (.ref place) tree ∧ tree.IsWritable := by
  induction hacc with
  | intro place _ ih =>
    have hrecord := hrecords place .refl
    have hslots : ∀ slot ∈ (h.get place).slots,
        isName slot.1 = true ∧ ∃ tree, h.Unfolds slot.2 tree ∧ tree.IsWritable := by
      rintro ⟨name, value⟩ hslot
      obtain ⟨hname, hvalue⟩ := hrecord.slots _ hslot
      refine ⟨hname, ?_⟩
      cases value with
      | undefined => cases hvalue
      | int n => exact ⟨.int n, .int n, trivial⟩
      | str s => exact ⟨.str s, .str s, hvalue⟩
      | ref inner =>
        have hholds : h.Holds place inner := ⟨hrecord.plain, hvalue, name, hslot⟩
        exact ih inner hholds fun deeper hreach => hrecords deeper (hreach.head hholds)
    obtain ⟨fields, hfields, hwritable⟩ := exists_unfoldsFields hslots
    have hnodup := hrecord.nodup
    rw [hfields.names_eq] at hnodup
    exact ⟨.object fields, .object hrecord.lt hrecord.plain hfields, hnodup, hwritable⟩

/-- **An object in which there is nothing but what can be written down, and nothing that holds itself, is a
tree** that can be written down. -/
theorem exists_unfolds {place : Loc} (hrecords : ∀ inner, h.Reaches place inner → h.IsRecord inner)
    (hcircles : ¬ h.Circles place) : ∃ tree, h.Unfolds (.ref place) tree ∧ tree.IsWritable := by
  have hshows : h.ShowsInFull place (h.render place) := showsInFull_iff.mpr ⟨hcircles, rfl⟩
  exact exists_unfolds_of_acc hshows.acc hrecords

end Heap

end Scriptlet
