import Mathlib.Data.Finset.Card
import Mathlib.Data.Finset.SDiff
import Mathlib.Logic.Relation
import Scriptlet.Proofs.Store.Rendering

/-!
# What the mark for an object inside itself stands for

An object is shown by going through the objects bound in it depth first, with a set of those that are being
shown. All objects share the set: an object is put into it on the way in and taken out of it on the way out.
`Renders` is such a run, with the set before and after it and with a note of whether a mark was written.
Nothing in it bounds the run, so that a run is one that comes to its end.

The set is needed for objects that hold themselves, at whatever distance. An object that two others hold is
not shown twice at a time, and nobody looks into functions and scopes. Without such a circle the set is not
needed: `ShowsInFull` goes without it, and comes to its end with the same text.

## What is proved

* `Renders.seen_eq`, `Renders.unique`: a run leaves the set as it was, and there is only one.
* `exists_renders`: whatever the set, there is one; `renderFrom` gives its text.
* `Renders.marked_iff`: a mark is written for an object that is being shown, or that holds itself.
* `showsInFull_iff`: without the set there is a run if nothing holds itself, and it gives the same text.
* `rendering_elides_cycles`: how objects are shown.
-/

namespace Scriptlet

/-- The text of a value in a field, if it is no object. -/
def Value.fieldText? : Value → Option String
  | .undefined => some "undefined"
  | .int n => some (toString n)
  | .str s => some ("\"" ++ s ++ "\"")
  | .ref _ => none

namespace Heap

/-- A field with the text of its value. -/
def fieldLine (name text : String) : String := name ++ ": " ++ text

/-- Fields between braces. -/
def bracedLines (lines : List String) : String := "\x7b" ++ String.intercalate ", " lines ++ "\x7d"

/-! ### Runs -/

mutual

/-- The object at a place is shown while those in a set are. The text, whether a mark has been written, and
the set afterwards. -/
inductive Renders (h : Heap) : Finset Loc → Loc → String → Bool → Finset Loc → Prop where
  /-- Nobody looks into a function. -/
  | function {seen : Finset Loc} {place : Loc} {name : String} {code : Code}
      (hn : (h.get place).nature = .function name code) :
      Renders h seen place ("function " ++ name) false seen
  /-- Nobody looks into a scope. -/
  | scope {seen : Finset Loc} {place : Loc} {parent : Option Loc}
      (hn : (h.get place).nature = .scope parent) : Renders h seen place "[env]" false seen
  /-- A mark stands for an object that is being shown. -/
  | again {seen : Finset Loc} {place : Loc} (hn : (h.get place).nature = .plain)
      (hm : place ∈ seen) : Renders h seen place cycleMark true seen
  /-- Any other object is put into the set, its fields are shown, and it is taken out again. -/
  | plain {seen seen' : Finset Loc} {place : Loc} {lines : List String} {marked : Bool}
      (hn : (h.get place).nature = .plain) (hm : place ∉ seen)
      (hs : RendersFields h (insert place seen) (h.get place).slots lines marked seen') :
      Renders h seen place (bracedLines lines) marked (seen'.erase place)

/-- Fields are shown one after the other. -/
inductive RendersFields (h : Heap) :
    Finset Loc → Slots → List String → Bool → Finset Loc → Prop where
  /-- No fields. -/
  | nil {seen : Finset Loc} : RendersFields h seen [] [] false seen
  /-- The value of the first field is no object. -/
  | simple {seen seen' : Finset Loc} {name text : String} {value : Value} {slots : Slots}
      {lines : List String} {marked : Bool} (hv : value.fieldText? = some text)
      (hs : RendersFields h seen slots lines marked seen') :
      RendersFields h seen ((name, value) :: slots) (fieldLine name text :: lines) marked seen'
  /-- The value of the first field is an object. -/
  | object {seen seen' seen'' : Finset Loc} {name text : String} {inner : Loc} {slots : Slots}
      {lines : List String} {marked marked' : Bool} (hi : Renders h seen inner text marked seen')
      (hs : RendersFields h seen' slots lines marked' seen'') :
      RendersFields h seen ((name, .ref inner) :: slots) (fieldLine name text :: lines)
        (marked || marked') seen''

end

mutual

/-- The object at a place is shown with all that is bound in it, whatever is being shown already. -/
inductive ShowsInFull (h : Heap) : Loc → String → Prop where
  /-- Nobody looks into a function. -/
  | function {place : Loc} {name : String} {code : Code}
      (hn : (h.get place).nature = .function name code) : ShowsInFull h place ("function " ++ name)
  /-- Nobody looks into a scope. -/
  | scope {place : Loc} {parent : Option Loc} (hn : (h.get place).nature = .scope parent) :
      ShowsInFull h place "[env]"
  /-- The fields of any other object are shown. -/
  | plain {place : Loc} {lines : List String} (hn : (h.get place).nature = .plain)
      (hs : ShowsFieldsInFull h (h.get place).slots lines) : ShowsInFull h place (bracedLines lines)

/-- Fields are shown with all that is bound in their values. -/
inductive ShowsFieldsInFull (h : Heap) : Slots → List String → Prop where
  /-- No fields. -/
  | nil : ShowsFieldsInFull h [] []
  /-- The value of the first field is no object. -/
  | simple {name text : String} {value : Value} {slots : Slots} {lines : List String}
      (hv : value.fieldText? = some text) (hs : ShowsFieldsInFull h slots lines) :
      ShowsFieldsInFull h ((name, value) :: slots) (fieldLine name text :: lines)
  /-- The value of the first field is an object. -/
  | object {name text : String} {inner : Loc} {slots : Slots} {lines : List String}
      (hi : ShowsInFull h inner text) (hs : ShowsFieldsInFull h slots lines) :
      ShowsFieldsInFull h ((name, .ref inner) :: slots) (fieldLine name text :: lines)

end

variable {h : Heap}

/-! ### There is one run -/

mutual

/-- **A run leaves the set as it was.** -/
theorem Renders.seen_eq {seen seen' : Finset Loc} {place : Loc} {text : String} {marked : Bool} :
    h.Renders seen place text marked seen' → seen' = seen
  | .function _ => rfl
  | .scope _ => rfl
  | .again _ _ => rfl
  | .plain _ hm hs => by rw [hs.seen_eq, Finset.erase_insert hm]

theorem RendersFields.seen_eq {seen seen' : Finset Loc} {slots : Slots} {lines : List String}
    {marked : Bool} : h.RendersFields seen slots lines marked seen' → seen' = seen
  | .nil => rfl
  | .simple _ hs => hs.seen_eq
  | .object hi hs => hs.seen_eq.trans hi.seen_eq

end

mutual

/-- There is only one run. -/
theorem Renders.unique {seen seen' seen'' : Finset Loc} {place : Loc} {text text' : String}
    {marked marked' : Bool} :
    h.Renders seen place text marked seen' → h.Renders seen place text' marked' seen'' →
      text = text' ∧ marked = marked' ∧ seen' = seen''
  | .function hn, hr' => by cases hr' <;> simp_all
  | .scope hn, hr' => by cases hr' <;> simp_all
  | .again hn hm, hr' => by cases hr' <;> simp_all
  | .plain hn hm hs, hr' => by
    cases hr' with
    | plain _ _ hs' =>
      obtain ⟨rfl, rfl, rfl⟩ := hs.unique hs'
      exact ⟨rfl, rfl, rfl⟩
    | again _ hm' => exact absurd hm' hm
    | function hn' | scope hn' => rw [hn] at hn'; cases hn'

theorem RendersFields.unique {seen seen' seen'' : Finset Loc} {slots : Slots}
    {lines lines' : List String} {marked marked' : Bool} :
    h.RendersFields seen slots lines marked seen' → h.RendersFields seen slots lines' marked' seen'' →
      lines = lines' ∧ marked = marked' ∧ seen' = seen''
  | .nil, hr' => by cases hr'; exact ⟨rfl, rfl, rfl⟩
  | .simple hv hs, hr' => by
    cases hr' with
    | simple hv' hs' =>
      obtain ⟨rfl, rfl, rfl⟩ := hs.unique hs'
      obtain rfl := Option.some.inj (hv.symm.trans hv')
      exact ⟨rfl, rfl, rfl⟩
    | object => cases hv
  | .object hi hs, hr' => by
    cases hr' with
    | simple hv' => cases hv'
    | object hi' hs' =>
      obtain ⟨rfl, rfl, rfl⟩ := hi.unique hi'
      obtain ⟨rfl, rfl, rfl⟩ := hs.unique hs'
      exact ⟨rfl, rfl, rfl⟩

end

variable {seen seen' : Finset Loc} {place inner : Loc}

/-! ### Every object is shown -/

/-- The text of a field, given the texts of objects. -/
def slotLine (show' : Loc → String) : String × Value → String
  | (name, .ref inner) => fieldLine name (show' inner)
  | (name, value) => fieldLine name (value.fieldText?.getD "")

/-- Fields are shown if the objects in them are. -/
theorem exists_rendersFields {slots : Slots} {show' : Loc → String}
    (hshow : ∀ inner, (∃ name, (name, .ref inner) ∈ slots) →
      ∃ marked, h.Renders seen inner (show' inner) marked seen) :
    ∃ marked, h.RendersFields seen slots (slots.map (slotLine show')) marked seen := by
  induction slots with
  | nil => exact ⟨false, .nil⟩
  | cons slot slots ih =>
    obtain ⟨name, value⟩ := slot
    obtain ⟨marked, hs⟩ := ih fun inner ⟨n, hm⟩ => hshow inner ⟨n, List.mem_cons_of_mem _ hm⟩
    cases value with
    | ref inner =>
      obtain ⟨marked', hi⟩ := hshow inner ⟨name, List.mem_cons_self⟩
      exact ⟨marked' || marked, .object hi hs⟩
    | undefined => exact ⟨marked, .simple rfl hs⟩
    | int n => exact ⟨marked, .simple rfl hs⟩
    | str s => exact ⟨marked, .simple rfl hs⟩

theorem renderFrom_plain {fuel : Nat} {path : List Loc} (hn : (h.get place).nature = .plain)
    (hm : place ∉ path) :
    h.renderFrom (fuel + 1) path place =
      bracedLines ((h.get place).slots.map (slotLine (h.renderFrom fuel (place :: path)))) := by
  have hcontains : path.contains place = false := by simpa using hm
  rw [renderFrom, hn]
  simp only [hcontains, Bool.false_eq_true, if_false, bracedLines]
  congr 3
  refine List.map_congr_left fun slot _ => ?_
  obtain ⟨name, value⟩ := slot
  cases value <;> rfl

/-- **Every object is shown**, whatever is being shown already. There are fewer and fewer objects on the heap
that are not in the set. -/
theorem renders_renderFrom {fuel : Nat} (path : List Loc) (place : Loc)
    (hfuel : (Finset.range h.next \ path.toFinset).card < fuel) :
    ∃ marked, h.Renders path.toFinset place (h.renderFrom fuel path place) marked path.toFinset := by
  induction fuel generalizing path place with
  | zero => cases hfuel
  | succ fuel ih =>
    cases hn : (h.get place).nature with
    | function name code =>
      refine ⟨false, ?_⟩
      rw [renderFrom, hn]
      exact .function hn
    | scope parent =>
      refine ⟨false, ?_⟩
      rw [renderFrom, hn]
      exact .scope hn
    | plain =>
      by_cases hm : place ∈ path
      · refine ⟨true, ?_⟩
        have hcontains : path.contains place = true := by simpa using hm
        rw [renderFrom, hn]
        simp only [hcontains, if_true]
        exact .again hn (List.mem_toFinset.mpr hm)
      · have hm' : place ∉ path.toFinset := mt List.mem_toFinset.mp hm
        have hinner : ∀ inner, (∃ name, (name, .ref inner) ∈ (h.get place).slots) →
            ∃ marked, h.Renders (insert place path.toFinset) inner
              (h.renderFrom fuel (place :: path) inner) marked (insert place path.toFinset) := by
          rintro inner ⟨name, hslot⟩
          rw [← List.toFinset_cons]
          refine ih _ inner (Nat.lt_of_lt_of_le (Finset.card_lt_card ?_) (Nat.le_of_lt_succ hfuel))
          rw [List.toFinset_cons, Finset.sdiff_insert]
          exact Finset.erase_ssubset
            (Finset.mem_sdiff.mpr ⟨Finset.mem_range.mpr (lt_of_mem_slots hslot), hm'⟩)
        obtain ⟨marked, hs⟩ := exists_rendersFields hinner
        have hr := Renders.plain hn hm' hs
        rw [Finset.erase_insert hm'] at hr
        rw [renderFrom_plain hn hm]
        exact ⟨marked, hr⟩

theorem exists_renders (seen : Finset Loc) (place : Loc) :
    ∃ text marked, h.Renders seen place text marked seen := by
  obtain ⟨marked, hr⟩ := renders_renderFrom (h := h) seen.toList place (Nat.lt_succ_self _)
  rw [Finset.toList_toFinset] at hr
  exact ⟨_, marked, hr⟩

/-- The text of an object is what a run writes before which nothing is being shown. -/
theorem exists_renders_render (h : Heap) (place : Loc) :
    ∃ marked, h.Renders ∅ place (h.render place) marked ∅ :=
  renders_renderFrom [] place (by simp [next])

/-! ### When a mark is written -/

/-- A plain object holds another one: one of its fields has it for its value. -/
def Holds (h : Heap) (place inner : Loc) : Prop :=
  (h.get place).nature = .plain ∧ (h.get inner).nature = .plain ∧
    ∃ name, (name, .ref inner) ∈ (h.get place).slots

/-- A plain object holds another one, at any distance or at none. -/
abbrev Reaches (h : Heap) : Loc → Loc → Prop := Relation.ReflTransGen h.Holds

/-- A plain object holds itself, at some distance. -/
def HoldsItself (h : Heap) (place : Loc) : Prop := Relation.TransGen h.Holds place place

/-- Somewhere in an object there is one that holds itself. -/
def Circles (h : Heap) (place : Loc) : Prop := ∃ inner, h.Reaches place inner ∧ h.HoldsItself inner

theorem HoldsItself.nature (hi : h.HoldsItself inner) : (h.get inner).nature = .plain := by
  obtain ⟨_, hstep, -⟩ := Relation.TransGen.head'_iff.mp hi
  exact hstep.1

theorem Reaches.nature (hr : h.Reaches place inner) (hi : (h.get inner).nature = .plain) :
    (h.get place).nature = .plain := by
  obtain rfl | ⟨_, hstep, -⟩ := hr.cases_head
  · exact hi
  · exact hstep.1

mutual

theorem Renders.exists_of_marked {seen seen' : Finset Loc} {place : Loc} {text : String}
    {marked : Bool} :
    h.Renders seen place text marked seen' → marked = true →
      ∃ inner, h.Reaches place inner ∧ (h.get inner).nature = .plain ∧
        (inner ∈ seen ∨ h.HoldsItself inner)
  | .function _, hmarked => by cases hmarked
  | .scope _, hmarked => by cases hmarked
  | .again hn hm, _ => ⟨_, .refl, hn, .inl hm⟩
  | .plain hn _ hs, hmarked => by
    obtain ⟨name, middle, inner, hslot, hreach, hi, hseen⟩ := hs.exists_of_marked hmarked
    have hholds : h.Holds _ middle := ⟨hn, hreach.nature hi, name, hslot⟩
    refine ⟨inner, hreach.head hholds, hi, ?_⟩
    rcases hseen with hseen | hself
    · obtain rfl | hseen := Finset.mem_insert.mp hseen
      · exact .inr (.head' hholds hreach)
      · exact .inl hseen
    · exact .inr hself

theorem RendersFields.exists_of_marked {seen seen' : Finset Loc} {slots : Slots}
    {lines : List String} {marked : Bool} :
    h.RendersFields seen slots lines marked seen' → marked = true →
      ∃ name middle inner, (name, Value.ref middle) ∈ slots ∧
        h.Reaches middle inner ∧ (h.get inner).nature = .plain ∧
        (inner ∈ seen ∨ h.HoldsItself inner)
  | .nil, hmarked => by cases hmarked
  | .simple _ hs, hmarked => by
    obtain ⟨name, middle, inner, hslot, hinner⟩ := hs.exists_of_marked hmarked
    exact ⟨name, middle, inner, List.mem_cons_of_mem _ hslot, hinner⟩
  | .object hi hs, hmarked => by
    rcases Bool.or_eq_true_iff.mp hmarked with hfirst | hothers
    · obtain ⟨inner, hinner⟩ := hi.exists_of_marked hfirst
      exact ⟨_, _, inner, List.mem_cons_self, hinner⟩
    · obtain ⟨name, middle, inner, hslot, hinner⟩ := hs.exists_of_marked hothers
      rw [hi.seen_eq] at hinner
      exact ⟨name, middle, inner, List.mem_cons_of_mem _ hslot, hinner⟩

end

mutual

theorem Renders.marked_of_reaches {seen seen' : Finset Loc} {place inner : Loc} {text : String}
    {marked : Bool} (hi : (h.get inner).nature = .plain) :
    h.Renders seen place text marked seen' → h.Reaches place inner →
      inner ∈ seen ∨ h.HoldsItself inner → marked = true
  | .function hn, hreach, _ => by rw [hreach.nature hi] at hn; cases hn
  | .scope hn, hreach, _ => by rw [hreach.nature hi] at hn; cases hn
  | .again _ _, _, _ => rfl
  | .plain hn hm hs, hreach, hseen => by
    obtain heq | ⟨middle, ⟨-, -, name, hslot⟩, hrest⟩ := hreach.cases_head
    · -- the object is not being shown, so it holds itself and comes up in one of its fields
      rw [← heq] at hseen
      obtain ⟨middle, ⟨-, -, name, hslot⟩, hback⟩ :=
        Relation.TransGen.head'_iff.mp (hseen.resolve_left hm)
      exact hs.marked_of_reaches hi hslot (heq ▸ hback) (.inl (heq ▸ Finset.mem_insert_self _ _))
    · exact hs.marked_of_reaches hi hslot hrest (hseen.imp_left Finset.mem_insert_of_mem)

theorem RendersFields.marked_of_reaches {seen seen' : Finset Loc} {slots : Slots}
    {lines : List String} {marked : Bool} {name : String} {middle inner : Loc}
    (hi : (h.get inner).nature = .plain) :
    h.RendersFields seen slots lines marked seen' → (name, Value.ref middle) ∈ slots →
      h.Reaches middle inner → inner ∈ seen ∨ h.HoldsItself inner → marked = true
  | .nil, hslot, _, _ => by cases hslot
  | .simple hv hs, hslot, hreach, hseen => by
    obtain heq | hslot := List.mem_cons.mp hslot
    · obtain ⟨-, rfl⟩ := Prod.mk.inj heq
      cases hv
    · exact hs.marked_of_reaches hi hslot hreach hseen
  | .object hfirst hs, hslot, hreach, hseen => by
    obtain heq | hslot := List.mem_cons.mp hslot
    · rw [Value.ref.inj (Prod.mk.inj heq).2] at hreach
      rw [hfirst.marked_of_reaches hi hreach hseen, Bool.true_or]
    · rw [← hfirst.seen_eq] at hseen
      rw [hs.marked_of_reaches hi hslot hreach hseen, Bool.or_true]

end

/-- **A mark is written for an object that is being shown, or that holds itself**, wherever it is found in
the object shown. -/
theorem Renders.marked_iff {text : String} {marked : Bool}
    (hr : h.Renders seen place text marked seen') :
    marked = true ↔ ∃ inner, h.Reaches place inner ∧ (h.get inner).nature = .plain ∧
      (inner ∈ seen ∨ h.HoldsItself inner) :=
  ⟨hr.exists_of_marked, fun ⟨_, hreach, hi, hseen⟩ => hr.marked_of_reaches hi hreach hseen⟩

theorem Renders.marked_iff_circles {text : String} {marked : Bool}
    (hr : h.Renders ∅ place text marked seen') : marked = true ↔ h.Circles place := by
  rw [hr.marked_iff]
  constructor
  · rintro ⟨inner, hreach, -, hseen⟩
    exact ⟨inner, hreach, hseen.resolve_left (Finset.notMem_empty _)⟩
  · rintro ⟨inner, hreach, hself⟩
    exact ⟨inner, hreach, hself.nature, .inr hself⟩

/-! ### Without the set -/

mutual

/-- A run that writes no mark does not need the set. -/
theorem Renders.showsInFull {seen seen' : Finset Loc} {place : Loc} {text : String} {marked : Bool} :
    h.Renders seen place text marked seen' → marked = false → h.ShowsInFull place text
  | .function hn, _ => .function hn
  | .scope hn, _ => .scope hn
  | .again _ _, hmarked => by cases hmarked
  | .plain hn _ hs, hmarked => .plain hn (hs.showsFieldsInFull hmarked)

theorem RendersFields.showsFieldsInFull {seen seen' : Finset Loc} {slots : Slots}
    {lines : List String} {marked : Bool} :
    h.RendersFields seen slots lines marked seen' → marked = false → h.ShowsFieldsInFull slots lines
  | .nil, _ => .nil
  | .simple hv hs, hmarked => .simple hv (hs.showsFieldsInFull hmarked)
  | .object hi hs, hmarked =>
    have hboth := Bool.or_eq_false_iff.mp hmarked
    .object (hi.showsInFull hboth.1) (hs.showsFieldsInFull hboth.2)

end

mutual

theorem ShowsInFull.unique {place : Loc} {text text' : String} :
    h.ShowsInFull place text → h.ShowsInFull place text' → text = text'
  | .function hn, hr' => by cases hr' <;> simp_all
  | .scope hn, hr' => by cases hr' <;> simp_all
  | .plain hn hs, hr' => by
    cases hr' with
    | plain _ hs' => rw [hs.unique hs']
    | function hn' | scope hn' => rw [hn] at hn'; cases hn'

theorem ShowsFieldsInFull.unique {slots : Slots} {lines lines' : List String} :
    h.ShowsFieldsInFull slots lines → h.ShowsFieldsInFull slots lines' → lines = lines'
  | .nil, hr' => by cases hr'; rfl
  | .simple hv hs, hr' => by
    cases hr' with
    | simple hv' hs' => rw [Option.some.inj (hv.symm.trans hv'), hs.unique hs']
    | object => cases hv
  | .object hi hs, hr' => by
    cases hr' with
    | simple hv' => cases hv'
    | object hi' hs' => rw [hi.unique hi', hs.unique hs']

end

mutual

/-- What is shown without the set goes down to objects that hold nothing. -/
theorem ShowsInFull.acc {place : Loc} {text : String} :
    h.ShowsInFull place text → Acc (fun inner outer => h.Holds outer inner) place
  | .function hn => .intro _ fun _ hholds => by rw [hholds.1] at hn; cases hn
  | .scope hn => .intro _ fun _ hholds => by rw [hholds.1] at hn; cases hn
  | .plain _ hs => .intro _ fun _ ⟨_, _, _, hslot⟩ => hs.acc hslot

theorem ShowsFieldsInFull.acc {slots : Slots} {lines : List String} {name : String} {inner : Loc} :
    h.ShowsFieldsInFull slots lines → (name, Value.ref inner) ∈ slots →
      Acc (fun inner outer => h.Holds outer inner) inner
  | .nil, hslot => by cases hslot
  | .simple hv hs, hslot => by
    obtain heq | hslot := List.mem_cons.mp hslot
    · obtain ⟨-, rfl⟩ := Prod.mk.inj heq
      cases hv
    · exact hs.acc hslot
  | .object hi hs, hslot => by
    obtain heq | hslot := List.mem_cons.mp hslot
    · rw [Value.ref.inj (Prod.mk.inj heq).2]
      exact hi.acc
    · exact hs.acc hslot

end

/-- Where there is a bottom nothing holds itself. -/
theorem not_circles_of_acc (hacc : Acc (fun inner outer => h.Holds outer inner) place) :
    ¬ h.Circles place := by
  induction hacc with
  | intro place _ ih =>
    rintro ⟨inner, hreach, hself⟩
    obtain rfl | ⟨middle, hholds, hrest⟩ := hreach.cases_head
    · -- the first object on its way back to itself holds itself too
      obtain ⟨middle, hholds, hback⟩ := Relation.TransGen.head'_iff.mp hself
      exact ih middle hholds ⟨middle, .refl, .tail' hback hholds⟩
    · exact ih middle hholds ⟨inner, hrest, hself⟩

/-- **Without the set an object is shown if nothing in it holds itself**, and then as it is with the set. -/
theorem showsInFull_iff {text : String} :
    h.ShowsInFull place text ↔ ¬ h.Circles place ∧ text = h.render place := by
  obtain ⟨marked, hr⟩ := h.exists_renders_render place
  have hfull : ¬ h.Circles place → h.ShowsInFull place (h.render place) := fun hnot =>
    hr.showsInFull (Bool.eq_false_iff.mpr (mt hr.marked_iff_circles.mp hnot))
  constructor
  · intro hs
    have hnot := not_circles_of_acc hs.acc
    exact ⟨hnot, hs.unique (hfull hnot)⟩
  · rintro ⟨hnot, rfl⟩
    exact hfull hnot

/-- **Showing an object comes to its end and leaves out nothing but circles.** Whatever is being shown, there
is exactly one run, and it leaves the set as it was. A run before which nothing is being shown writes the text
of the object, and writes a mark if and only if some plain object is found in it, going through plain objects
only, that holds itself in this way. If there is none, the text is the one that is written without the set,
where an object that is bound several times is shown in full each time. -/
theorem rendering_elides_cycles (h : Heap) (place : Loc) :
    (∀ seen, ∃ text marked, h.Renders seen place text marked seen ∧
      ∀ text' marked' seen', h.Renders seen place text' marked' seen' →
        text = text' ∧ marked = marked' ∧ seen = seen') ∧
    (∃ marked, h.Renders ∅ place (h.display (.ref place)) marked ∅ ∧
      (marked = true ↔ ∃ inner, h.Reaches place inner ∧ h.HoldsItself inner)) ∧
    ((¬ ∃ inner, h.Reaches place inner ∧ h.HoldsItself inner) →
      ∀ text, h.ShowsInFull place text ↔ text = h.display (.ref place)) := by
  refine ⟨fun seen => ?_, ?_, fun hnot text => ?_⟩
  · obtain ⟨text, marked, hr⟩ := exists_renders (h := h) seen place
    exact ⟨text, marked, hr, fun _ _ _ hr' => hr.unique hr'⟩
  · obtain ⟨marked, hr⟩ := h.exists_renders_render place
    exact ⟨marked, hr, hr.marked_iff_circles⟩
  · rw [showsInFull_iff, and_iff_right (show ¬ h.Circles place from hnot)]
    rfl

/-- An object that holds itself and, twice, another one. -/
example :
    let shared : Object := ⟨.plain, [("x", .int 1)]⟩
    let whole : Object := ⟨.plain, [("a", .ref 0), ("b", .ref 0), ("self", .ref 1)]⟩
    Heap.display ⟨#[shared, whole]⟩ (.ref 1) =
      "\x7ba: \x7bx: 1\x7d, b: \x7bx: 1\x7d, self: \x7b...\x7d\x7d" := by
  decide +kernel

end Heap

end Scriptlet
