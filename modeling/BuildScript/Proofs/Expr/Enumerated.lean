import BuildScript.Expr.Kind
import BuildScript.Proofs.Expr.Place

/-!
The ways to list what a node holds: its children, its slots, either of them by index, and their
number. All of them speak of the same places, and what is put into one place leaves everything else
as it was (`slots_agree`).
-/
namespace BuildScript

/-- What a shape is apart from its children: the kind, the text, name or operator of its own, and
how many children there are. -/
def Shape.frame {α : Type} (s : Shape α) : Shape Unit := s.map fun _ => ()

theorem Shape.frame_mapIdx {α β : Type} (f : Nat → α → β) (s : Shape α) :
    (s.mapIdx f).frame = s.frame := by
  rw [frame, map_mapIdx, mapIdx_eq_map, frame]

theorem Shape.kind_eq_of_frame {α : Type} {s t : Shape α} (h : s.frame = t.frame) :
    s.kind = t.kind := by
  have hkind (s : Shape α) : s.frame.kind = s.kind := by cases s <;> rfl
  rw [← hkind s, h, hkind]

namespace Expr

/-- `f` is `e` with `x` in slot `i` and no other change. -/
structure Refilled (e : Expr) (i : Nat) (x f : Expr) : Prop where
  filled : f.child? i = some x
  others : ∀ j, j ≠ i → f.child? j = e.child? j
  childCount : f.childCount = e.childCount
  span : f.span = e.span
  kind : f.kind = e.kind
  frame : f.shape.frame = e.shape.frame

theorem refilled_withChild {e c : Expr} {i : Nat} (h : e.child? i = some c) (x : Expr) :
    e.Refilled i x (e.withChild i x) where
  filled := child?_withChild h x
  others _ hj := child?_withChild_of_ne hj x
  childCount := childCount_withChild e i x
  span := rfl
  kind := Shape.kind_eq_of_frame (Shape.frame_mapIdx (fun j z => if j = i then x else z) e.shape)
  frame := Shape.frame_mapIdx (fun j z => if j = i then x else z) e.shape

theorem setChild?_eq (e : Expr) (i : Nat) (x : Expr) :
    e.setChild? i x = (e.child? i).map fun _ => e.withChild i x := by
  rw [setChild?, Shape.slot?_eq, Option.map_map]
  rfl

theorem child?_mapChildren (f : Nat → Expr → Expr) (e : Expr) (i : Nat) :
    (e.mapChildren f).child? i = (e.child? i).map (f i) :=
  Shape.child?_mapIdx f e.shape i

theorem child?_eq_none {e : Expr} {i : Nat} : e.child? i = none ↔ e.childCount ≤ i := by
  rw [child?, Shape.child?_eq, List.getElem?_eq_none_iff, childCount, Shape.childCount_eq]

theorem map_content_slot? (e : Expr) (i : Nat) :
    (e.shape.slot? i).map Slot.content = e.child? i := by
  rw [Shape.slot?_eq, Option.map_map]
  exact Option.map_id'

theorem slot?_eq_none {e : Expr} {i : Nat} : e.shape.slot? i = none ↔ e.childCount ≤ i := by
  rw [← child?_eq_none, ← map_content_slot?, Option.map_eq_none_iff]

theorem length_slots (e : Expr) : e.shape.slots.length = e.childCount := by
  have hends (i : Nat) : e.shape.slots.length ≤ i ↔ e.childCount ≤ i := by
    rw [← slot?_eq_none, ← Shape.getElem?_slots, List.getElem?_eq_none_iff]
  exact Nat.le_antisymm ((hends _).2 (Nat.le_refl _)) ((hends _).1 (Nat.le_refl _))

/-- The children and the slots of a node are as many as are counted and stand at the same indices.
What is put into a slot by its index, or into the slots one after the other while only one index is
changed, is found there again and changes nothing else. -/
theorem slots_agree (e : Expr) (i : Nat) :
    e.children.length = e.childCount ∧ e.shape.slots.length = e.childCount ∧
    e.child? i = e.children[i]? ∧ e.shape.slot? i = e.shape.slots[i]? ∧
    (e.shape.slot? i).map Slot.content = e.child? i ∧
    (e.child? i = none ↔ e.childCount ≤ i) ∧ (e.shape.slot? i = none ↔ e.childCount ≤ i) ∧
    (∀ f, (e.mapChildren f).child? i = (e.child? i).map (f i)) ∧
    ∀ c, e.child? i = some c → e.setChild? i c = some e ∧ ∀ x, ∃ e', e.setChild? i x = some e' ∧
      e.mapChildren (fun j y => if j = i then x else y) = e' ∧ e.Refilled i x e' := by
  refine ⟨(Shape.childCount_eq e.shape).symm, e.length_slots, Shape.child?_eq e.shape i,
    (Shape.getElem?_slots e.shape i).symm, e.map_content_slot? i, child?_eq_none, slot?_eq_none,
    fun f => child?_mapChildren f e i, fun c hc => ⟨?_, fun x => ⟨e.withChild i x, ?_, rfl, ?_⟩⟩⟩
  · rw [setChild?_eq, hc, Option.map_some, withChild_self hc]
  · rw [setChild?_eq, hc, Option.map_some]
  · exact refilled_withChild hc x

example (m a b c d x : Expr) :
    (ofShape (.load m [⟨a, b⟩, ⟨c, d⟩])).setChild? 2 x =
      some (ofShape (.load m [⟨a, x⟩, ⟨c, d⟩])) := rfl

end Expr
end BuildScript
