import BuildScript.Expr.Grouping
import BuildScript.Proofs.Expr.Spans

/-!
Trees without their parentheses. Stripping forgets the parentheses that grouping puts
(`strip_grouped`), and looks at no spans (`strip_mapSpans`).
-/
namespace BuildScript

namespace Shape
variable {α β : Type}

def isParen : Shape α → Bool
  | paren _ => true
  | _ => false

theorem isParen_map (f : α → β) (s : Shape α) : (s.map f).isParen = s.isParen := by
  cases s <;> rfl

theorem isParen_mapIdx (f : Nat → α → β) (s : Shape α) : (s.mapIdx f).isParen = s.isParen := by
  cases s <;> rfl

end Shape

namespace Expr

@[simp] theorem strip_paren (s : Option Span) (x : Expr) : strip ⟨s, .paren x⟩ = x.strip := rfl

theorem strip_of_not_paren {e : Expr} (h : e.shape.isParen = false) :
    e.strip = ⟨e.span, e.shape.map strip⟩ := by
  unfold strip
  rw [fold_eq]
  obtain ⟨s, shape⟩ := e
  cases shape with
  | paren x => cases h
  | _ => rfl

theorem paren_or_strip (e : Expr) : (∃ s x, e = ⟨s, .paren x⟩) ∨
    e.shape.isParen = false ∧ e.strip = ⟨e.span, e.shape.map strip⟩ := by
  obtain ⟨s, shape⟩ := e
  cases shape with
  | paren x => exact .inl ⟨s, x, rfl⟩
  | _ => exact .inr ⟨rfl, strip_of_not_paren rfl⟩

theorem strip_mapSpans (f : Option Span → Option Span) (e : Expr) :
    (e.mapSpans f).strip = e.strip.mapSpans f := by
  induction e using induct with
  | step e ih =>
    rcases paren_or_strip e with ⟨s, x, rfl⟩ | ⟨he, hstrip⟩
    · rw [mapSpans_eq]
      exact ih x (by simp [children, Shape.children])
    · have hnode : (e.mapSpans f).shape.isParen = false := by
        rw [mapSpans_eq]
        exact (Shape.isParen_map _ _).trans he
      rw [strip_of_not_paren hnode, hstrip, mapSpans_eq, mapSpans_eq, Shape.map_map, Shape.map_map]
      exact congrArg _ (Shape.map_congr ih)

theorem strip_eraseSpans (e : Expr) : e.eraseSpans.strip = e.strip.eraseSpans :=
  strip_mapSpans _ e

theorem strip_wrappedIf (needed : Bool) (e : Expr) : (wrappedIf needed e).strip = e.strip := by
  cases needed <;> rfl

theorem strip_grouped (e : Expr) : e.grouped.strip = e.strip := by
  induction e using induct with
  | step e ih =>
    rcases paren_or_strip e with ⟨s, x, rfl⟩ | ⟨he, hstrip⟩
    · rw [grouped_eq_paren]
      exact ih x (by simp [children, Shape.children])
    · have hnode : e.grouped.shape.isParen = false := by
        rw [grouped_eq, Shape.isParen_mapIdx]
        exact he
      rw [strip_of_not_paren hnode, hstrip, grouped_eq, Shape.map_mapIdx, ← Shape.mapIdx_eq_map]
      refine congrArg _ (Shape.mapIdx_congr fun i x hx => ?_)
      rw [strip_wrappedIf, ih x (Shape.mem_children.2 ⟨i, hx⟩)]

def Bare : Expr → Prop := Every fun n => n.shape.isParen = false

theorem Bare.strip_eq_self {e : Expr} (h : e.Bare) : e.strip = e := by
  induction e using induct with
  | step e ih =>
    obtain ⟨hnode, hbelow⟩ := every_iff.1 h
    rw [strip_of_not_paren hnode, Shape.map_congr fun c hc => ih c hc (hbelow c hc), Shape.map_id]
    cases e
    rfl

/-- Stripping passes on what does not depend on parentheses. -/
theorem every_strip {test : Expr → Prop}
    (hnode : ∀ e : Expr, e.shape.isParen = false → test e → test ⟨e.span, e.shape.map strip⟩)
    {e : Expr} (h : e.Every test) : e.strip.Every test := by
  induction e using induct with
  | step e ih =>
    obtain ⟨htest, hbelow⟩ := every_iff.1 h
    rcases paren_or_strip e with ⟨s, x, rfl⟩ | ⟨he, hstrip⟩
    · have hx : x ∈ children ⟨s, .paren x⟩ := .head _
      exact ih x hx (hbelow x hx)
    · rw [hstrip, every_iff]
      refine ⟨hnode e he htest, fun y hy => ?_⟩
      rw [children, Shape.children_map] at hy
      obtain ⟨x, hx, rfl⟩ := List.mem_map.1 hy
      exact ih x hx (hbelow x hx)

theorem bare_strip (e : Expr) : e.strip.Bare := by
  induction e using induct with
  | step e ih =>
    rcases paren_or_strip e with ⟨s, x, rfl⟩ | ⟨he, hstrip⟩
    · exact ih x (by simp [children, Shape.children])
    · rw [hstrip]
      refine every_iff.2 ⟨(Shape.isParen_map _ _).trans he, fun y hy => ?_⟩
      rw [children, Shape.children_map] at hy
      obtain ⟨x, hx, rfl⟩ := List.mem_map.1 hy
      exact ih x hx

theorem strip_strip (e : Expr) : e.strip.strip = e.strip := (bare_strip e).strip_eq_self

theorem Lexical.strip {e : Expr} (h : e.Lexical) : e.strip.Lexical := by
  refine every_strip (fun e _ he => ?_) h
  cases hs : e.shape <;> simp_all [Shape.map, Shape.isLexical]

theorem strip_of_isLoad {e : Expr} (h : e.isLoad = true) : e.strip = e := by
  refine Bare.strip_eq_self (every_iff.2 ⟨?_, fun c hc => every_iff.2 ⟨?_, ?_⟩⟩)
  · obtain ⟨origin, value, bindings, hshape, -⟩ := isLoad_iff.1 h
    rw [hshape]
    rfl
  · obtain ⟨s, shape⟩ := c
    have hleaf := isLoad_children h _ hc
    cases shape with
    | paren x => cases hleaf
    | _ => rfl
  · rw [isLoad_children h c hc]
    simp

end Expr
end BuildScript
