import Mathlib.Data.List.Perm.Subperm
import Scriptlet.Proofs.Store.Objects
import Scriptlet.Store.Rendering

/-!
# How objects are shown

An object is shown with the objects bound in it, and these with those bound in them, until one comes up that
is being shown already. So the objects around one that is shown are different ones, there are no more of them
than there are on the heap, and a reader that may go deeper than that never does.

## What is proved

* `Heap.renderFrom_of_le`: an object looks the same with more fuel than there are objects.
-/

namespace Scriptlet

namespace Heap

variable {h : Heap} {path : List Loc} {place : Loc}

/-- Objects that are being shown: different ones, all of them on the heap. -/
structure IsPath (h : Heap) (path : List Loc) : Prop where
  /-- They are different. -/
  nodup : path.Nodup
  /-- They are on the heap. -/
  lt : ∀ place ∈ path, place < h.next

theorem IsPath.nil (h : Heap) : h.IsPath [] := ⟨List.nodup_nil, List.forall_mem_nil _⟩

theorem IsPath.cons (hp : h.IsPath path) (hlt : place < h.next) (hnew : place ∉ path) :
    h.IsPath (place :: path) :=
  ⟨List.nodup_cons.mpr ⟨hnew, hp.nodup⟩, List.forall_mem_cons.mpr ⟨hlt, hp.lt⟩⟩

/-- There are no more of them than there are objects. -/
theorem IsPath.length_le (hp : h.IsPath path) : path.length ≤ h.objects.size := by
  have hsubset : path ⊆ List.range h.next := fun place hm => List.mem_range.mpr (hp.lt place hm)
  have hsub : path.Subperm (List.range h.next) := List.subperm_of_subset hp.nodup hsubset
  have hlength := hsub.length_le
  rwa [List.length_range] at hlength

/-- An object in which something is bound is on the heap. -/
theorem lt_of_mem_slots {slot : String × Value} (hm : slot ∈ (h.get place).slots) :
    place < h.next := by
  by_contra hlt
  rw [get_of_next_le (Nat.le_of_not_lt hlt)] at hm
  cases hm

/-- **An object looks the same with more fuel** than there are objects that it is not shown in. -/
theorem renderFrom_of_le {fuel fuel' : Nat} (hp : h.IsPath path)
    (hfuel : h.objects.size < fuel + path.length) (hle : fuel ≤ fuel') :
    h.renderFrom fuel' path place = h.renderFrom fuel path place := by
  induction fuel generalizing fuel' path place with
  | zero =>
    have hlength := hp.length_le
    omega
  | succ fuel ih =>
    obtain ⟨fuel', rfl⟩ := Nat.exists_eq_add_one.mpr (Nat.lt_of_lt_of_le (Nat.succ_pos fuel) hle)
    simp only [Heap.renderFrom]
    cases hn : (h.get place).nature with
    | scope parent => rfl
    | function name code => rfl
    | plain =>
      dsimp only
      split
      · rfl
      · next hnew =>
        have hnew' : place ∉ path := by simpa using hnew
        have hslots : ∀ slot ∈ (h.get place).slots, ∀ inner : Loc,
            h.renderFrom fuel' (place :: path) inner = h.renderFrom fuel (place :: path) inner := by
          intro slot hm inner
          refine ih (hp.cons (lt_of_mem_slots hm) hnew') ?_ (Nat.le_of_succ_le_succ hle)
          rw [List.length_cons]
          omega
        congr 3
        refine List.map_congr_left fun slot hm => ?_
        obtain ⟨name, value⟩ := slot
        cases value with
        | ref inner => simp only [hslots _ hm inner]
        | _ => rfl

/-- An object looks the same with any fuel that is more than there are objects. -/
theorem renderFrom_eq_render {fuel : Nat} (hfuel : h.objects.size < fuel) :
    h.renderFrom fuel [] place = h.render place :=
  renderFrom_of_le (.nil h) (Nat.lt_succ_self _) hfuel

end Heap

end Scriptlet
