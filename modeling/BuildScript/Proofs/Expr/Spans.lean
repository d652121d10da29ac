import BuildScript.Proofs.Expr.Grouped

/-!
What does not depend on spans. Two trees with equal `eraseSpans` are the same but for the places
that they were read from, and whether and how a tree is grouped is the same for both.
-/
namespace BuildScript

theorem Shape.child?_map {α β : Type} (f : α → β) (s : Shape α) (i : Nat) :
    (s.map f).child? i = (s.child? i).map f := by
  rw [child?_eq, child?_eq, children_map, List.getElem?_map]

namespace Expr

theorem eraseSpans_eq (e : Expr) : e.eraseSpans = ⟨none, e.shape.map eraseSpans⟩ :=
  mapSpans_eq _ e

theorem mapSpans_mapSpans (f g : Option Span → Option Span) (e : Expr) :
    (e.mapSpans f).mapSpans g = e.mapSpans fun s => g (f s) := by
  induction e using induct with
  | step e ih =>
    rw [mapSpans_eq, mapSpans_eq, mapSpans_eq, Shape.map_map]
    exact congrArg _ (Shape.map_congr ih)

theorem eraseSpans_mapSpans (f : Option Span → Option Span) (e : Expr) :
    (e.mapSpans f).eraseSpans = e.eraseSpans :=
  mapSpans_mapSpans f _ e

theorem child?_eraseSpans (e : Expr) (i : Nat) :
    e.eraseSpans.child? i = (e.child? i).map eraseSpans := by
  rw [eraseSpans_eq, child?, Shape.child?_map]
  rfl

@[simp] theorem precedence_eraseSpans (e : Expr) : e.eraseSpans.precedence = e.precedence := by
  rw [eraseSpans_eq]
  obtain ⟨s, shape⟩ := e
  cases shape <;> rfl

theorem children_eraseSpans (e : Expr) : e.eraseSpans.children = e.children.map eraseSpans := by
  rw [eraseSpans_eq, children, Shape.children_map]
  rfl

/-- A property of nodes that does not look at spans holds of trees without regard to them. -/
theorem every_eraseSpans {test : Expr → Prop} (h : ∀ e, test e.eraseSpans ↔ test e) {e : Expr} :
    e.eraseSpans.Every test ↔ e.Every test := by
  induction e using induct with
  | step e ih =>
    rw [every_iff, every_iff (e := e), h, children_eraseSpans]
    simp only [List.forall_mem_map]
    exact and_congr_right fun _ => forall₂_congr ih

theorem lexical_eraseSpans {e : Expr} : e.eraseSpans.Lexical ↔ e.Lexical := by
  apply every_eraseSpans
  intro e
  rw [eraseSpans_eq]
  cases e.shape <;> rfl

theorem grouped_eraseSpans_iff {e : Expr} : e.eraseSpans.Grouped ↔ e.Grouped := by
  apply every_eraseSpans
  intro e
  have hwraps (i : Nat) (x : Expr) :
      e.eraseSpans.shape.wraps i x.eraseSpans = e.shape.wraps i x := by
    rw [eraseSpans_eq, Shape.wraps_map, Shape.wraps_congr _ _ (precedence_eraseSpans x)]
  simp only [child?_eraseSpans, Option.map_eq_some_iff]
  constructor
  · intro h i x hx
    rw [← hwraps]
    exact h i _ ⟨x, hx, rfl⟩
  · rintro h i y ⟨x, hx, rfl⟩
    rw [hwraps]
    exact h i x hx

end Expr
end BuildScript
