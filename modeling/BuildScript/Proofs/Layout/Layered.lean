import BuildScript.Proofs.Layout.Fused
import BuildScript.Proofs.Layout.Lines

/-!
How much of the spans shows in the text. Only which brackets cover several lines does
(`spelled_respan`), and a tree as it was read is `Layered`: what stands on several lines stands in
nodes that cover as many. So the text of a tree that was read is the text of the drawn tree
(`spelled_drawn`), also if parentheses are stripped from it.
-/
namespace BuildScript

theorem Shape.breaks_mapIdx {α β : Type} (f : Nat → α → β) (s : Shape α) :
    (s.mapIdx f).breaks = s.breaks := by
  cases s with
  | list xs => cases xs <;> simp [mapIdx, breaks]
  | call k xs => cases xs <;> simp [mapIdx, breaks]
  | _ => rfl

namespace Layout

theorem bracketText_congr {indent : Indentation} {bracket : Bracket}
    {items : List (Nat → List Char)} {broken broken' trailing : Bool} {level : Nat}
    (h : items.isEmpty = false → broken = broken') :
    bracketText indent bracket items broken trailing level =
      bracketText indent bracket items broken' trailing level := by
  unfold bracketText
  cases hitems : items.isEmpty with
  | true => simp
  | false => rw [h hitems]

end Layout

namespace Expr
variable {indent : Indentation}

theorem spelled_congr {s t : Option Span} {shape : Shape Expr} {f g : Nat → Expr → Expr}
    (hlexical : shape.isLexical = true)
    (hlines : shape.breaks = true → s.any Span.isMultiline = t.any Span.isMultiline)
    (h : ∀ i x, shape.child? i = some x → (f i x).spelled indent = (g i x).spelled indent) :
    spelled indent ⟨s, shape.mapIdx f⟩ = spelled indent ⟨t, shape.mapIdx g⟩ := by
  funext level
  have hbelow : (shape.mapIdx f).map (spelled indent) = (shape.mapIdx g).map (spelled indent) := by
    rw [Shape.map_mapIdx, Shape.map_mapIdx]
    exact Shape.mapIdx_congr h
  have hbracket {xs : List Expr} (k : Nat → Nat) (hxs : xs.isEmpty = false → shape.breaks = true) :
      ((xs.mapIdx fun i x => f (k i) x).map (spelled indent)).isEmpty = false →
        s.any Span.isMultiline = t.any Span.isMultiline := by
    intro hne
    refine hlines (hxs ?_)
    cases xs
    · cases hne
    · rfl
  cases shape with
  | binary op l r =>
    rw [Shape.mapIdx, Shape.mapIdx, spelled_binary, spelled_binary, h 0 l rfl, h 1 r rfl]
  | unary op x => rw [Shape.mapIdx, Shape.mapIdx, spelled_unary, spelled_unary, h 0 x rfl]
  | paren x =>
    rw [Shape.mapIdx, Shape.mapIdx, spelled_paren, spelled_paren, h 0 x rfl, isMultiline_eq,
      isMultiline_eq]
    exact Layout.bracketText_congr fun _ => hlines rfl
  | list xs =>
    simp only [Shape.mapIdx, Shape.map, Shape.list.injEq] at hbelow
    rw [Shape.mapIdx, Shape.mapIdx, spelled_list, spelled_list, ← hbelow, isMultiline_eq,
      isMultiline_eq]
    exact Layout.bracketText_congr (hbracket id fun hne => by simp [Shape.breaks, hne])
  | call k xs =>
    simp only [Shape.mapIdx, Shape.map, Shape.call.injEq] at hbelow
    rw [Shape.mapIdx, Shape.mapIdx, spelled_call, spelled_call, ← hbelow.1, ← hbelow.2,
      isMultiline_eq, isMultiline_eq]
    exact congrArg _
      (Layout.bracketText_congr (hbracket (· + 1) fun hne => by simp [Shape.breaks, hne]))
  | dot x n => rw [Shape.mapIdx, Shape.mapIdx, spelled_dot, spelled_dot, h 0 x rfl]
  | load m bs => cases hlexical
  | _ => rfl

def respan (span : Expr → Option Span) : Expr → Expr := fold fun e below => ⟨span e, below⟩

theorem respan_eq (span : Expr → Option Span) (e : Expr) :
    e.respan span = ⟨span e, e.shape.map (respan span)⟩ := fold_eq _ e

theorem precedence_respan (span : Expr → Option Span) (e : Expr) :
    (e.respan span).precedence = e.precedence := by
  rw [respan_eq, precedence, precedence]
  cases e.shape <;> rfl

theorem onLines_eq_respan (e : Expr) :
    e.onLines = e.respan fun n => lineSpan (n.span.any Span.isMultiline) := rfl

theorem drawn_eq_respan (e : Expr) : e.drawn = e.respan fun n => lineSpan n.spreads := rfl

theorem any_lineSpan (several : Bool) : (lineSpan several).any Span.isMultiline = several := by
  cases several <;> rfl

/-- Of the spans, no more shows in the text than which nodes are broken. -/
theorem spelled_respan {span : Expr → Option Span} {e : Expr} (h : e.Lexical)
    (hspan : e.Every fun n => n.shape.breaks = true →
      (span n).any Span.isMultiline = n.isMultiline) :
    (e.respan span).grouped.spelled indent = e.grouped.spelled indent := by
  induction e using induct with
  | step e ih =>
    obtain ⟨hnode, hbelow⟩ := every_iff.1 h
    obtain ⟨hlines, hspans⟩ := every_iff.1 hspan
    rw [grouped_eq, grouped_eq e, respan_eq, Shape.mapIdx_map]
    refine spelled_congr hnode (fun hbreaks => ?_) fun i x hx => ?_
    · rw [hlines hbreaks, isMultiline_eq]
    · have hmem := Shape.mem_children.2 ⟨i, hx⟩
      have htext := ih x hmem (hbelow x hmem) (hspans x hmem)
      rw [Shape.wraps_map, Shape.wraps_congr _ _ (precedence_respan span x)]
      cases e.shape.wraps i x with
      | false => exact htext
      | true =>
        funext level
        rw [wrappedIf, wrappedIf, if_pos rfl, if_pos rfl, paren, ofShape, spelled_paren, htext]
        rfl

section Load
variable (span : Expr → Option Span)

theorem string?_respan (e : Expr) : (e.respan span).string? = e.string? := by
  rw [respan_eq, string?, string?]
  cases e.shape <;> rfl

theorem ident?_respan (e : Expr) : (e.respan span).ident? = e.ident? := by
  rw [respan_eq, ident?, ident?]
  cases e.shape <;> rfl

theorem isLoad_respan (e : Expr) : (e.respan span).isLoad = e.isLoad := by
  have hbinding (b : Binding Expr) :
      Binding.isWritable ⟨b.source.respan span, b.target.respan span⟩ = b.isWritable := by
    simp only [Binding.isWritable, ident?_respan]
  rw [respan_eq, isLoad, isLoad]
  cases e.shape with
  | load m bs => simp [Shape.map, string?_respan, List.all_map, Function.comp_def, hbinding]
  | _ => rfl

theorem spelled_respan_load {e : Expr} (h : e.isLoad = true)
    (hspan : (span e).any Span.isMultiline = e.isMultiline) :
    (e.respan span).grouped.spelled indent = e.grouped.spelled indent := by
  have hload := (isLoad_respan span e).trans h
  rw [(grouped_of_isLoad hload).grouped_eq_self, (grouped_of_isLoad h).grouped_eq_self]
  funext level
  obtain ⟨origin, value, bindings, hshape, -⟩ := isLoad_iff.1 h
  obtain ⟨s, shape⟩ := e
  obtain rfl : shape = .load origin bindings := hshape
  have hbinding (b : Binding Expr) :
      bindingText ⟨b.source.respan span, b.target.respan span⟩ = bindingText b := by
    simp only [bindingText, ident?_respan]
  rw [respan_eq]
  simp only [Shape.map]
  rw [spelled_load, spelled_load, string?_respan, isMultiline_eq, hspan, List.map_map]
  simp only [Function.comp_def, hbinding]

end Load

theorem Legible.spelled_onLines {e : Expr} (h : e.Legible) :
    e.onLines.grouped.spelled indent = e.grouped.spelled indent := by
  rw [onLines_eq_respan]
  rcases h with h | h
  · exact spelled_respan_load _ h (by rw [any_lineSpan, isMultiline_eq])
  · exact spelled_respan h fun n _ _ => by rw [any_lineSpan, isMultiline_eq]

def Flat : Expr → Prop := Every fun n => n.isMultiline = false

def Layered : Expr → Prop := Every fun n => n.isMultiline = false → n.Flat

theorem Flat.spreads {e : Expr} (h : e.Flat) : e.spreads = false := by
  rw [Expr.spreads, List.any_eq_false]
  intro n hn
  simp [isBroken, h n hn]

/-- A bracket around a broken one is broken itself, so that spans are as good as the text. -/
def Expanded : Expr → Prop := Every fun n => n.shape.breaks = true → n.spreads = n.isMultiline

theorem Layered.expanded {e : Expr} (h : e.Layered) : e.Expanded := by
  intro n hn hbreaks
  cases hlines : n.isMultiline with
  | false => exact (h n hn hlines).spreads
  | true => rw [spreads_eq, isBroken, hlines, hbreaks, Bool.true_and, Bool.true_or]

/-- An expanded tree is drawn as it is. -/
theorem Expanded.spelled_drawn {e : Expr} (h : e.Expanded) (hlexical : e.Lexical) :
    e.drawn.grouped.spelled indent = e.grouped.spelled indent := by
  rw [drawn_eq_respan]
  refine spelled_respan hlexical fun n hn hbreaks => ?_
  rw [any_lineSpan, h n hn hbreaks]

/-- A statement that is broken wherever it covers several lines. -/
def Unfolded (e : Expr) : Prop := e.isLoad = true ∨ e.Lexical ∧ e.Layered

theorem Unfolded.spelled_drawn {e : Expr} (h : e.Unfolded) :
    e.drawn.grouped.spelled indent = e.grouped.spelled indent := by
  rcases h with h | ⟨h, hlayered⟩
  · rw [drawn_eq_respan]
    exact spelled_respan_load _ h (by rw [any_lineSpan, spreads_of_isLoad h])
  · exact hlayered.expanded.spelled_drawn h

theorem spreads_grouped (e : Expr) : e.grouped.spreads = e.spreads := by
  induction e using induct with
  | step e ih =>
    have hwrapped (b : Bool) (x : Expr) : (wrappedIf b x).spreads = x.spreads := by
      cases b with
      | false => rfl
      | true =>
        rw [spreads_eq]
        simp [wrappedIf, paren, ofShape, children, Shape.children, isBroken, isMultiline,
          layoutSpan?]
    have hbroken : e.grouped.isBroken = e.isBroken := by
      rw [grouped_eq, isBroken, isBroken, Shape.breaks_mapIdx, isMultiline_eq, isMultiline_eq]
    rw [spreads_eq, spreads_eq e, hbroken]
    congr 1
    rw [Bool.eq_iff_iff, List.any_eq_true, List.any_eq_true]
    simp only [children, Shape.mem_children, grouped_eq e, Shape.child?_mapIdx,
      Option.map_eq_some_iff]
    constructor
    · rintro ⟨y, ⟨i, x, hx, rfl⟩, hy⟩
      rw [hwrapped, ih x (Shape.mem_children.2 ⟨i, hx⟩)] at hy
      exact ⟨x, ⟨i, hx⟩, hy⟩
    · rintro ⟨x, ⟨i, hx⟩, hs⟩
      refine ⟨_, ⟨i, x, hx, rfl⟩, ?_⟩
      rw [hwrapped, ih x (Shape.mem_children.2 ⟨i, hx⟩)]
      exact hs

theorem Bare.strip_drawn_grouped {e : Expr} (h : e.Bare) : e.grouped.drawn.strip = e.drawn := by
  induction e using induct with
  | step e ih =>
    obtain ⟨hnode, hbelow⟩ := every_iff.1 h
    have hwrapped (b : Bool) (x : Expr) : (wrappedIf b x).drawn.strip = x.drawn.strip := by
      cases b <;> rfl
    have hparen : e.grouped.drawn.shape.isParen = false := by
      rw [drawn_eq, Shape.isParen_map, grouped_eq, Shape.isParen_mapIdx]
      exact hnode
    rw [strip_of_not_paren hparen, drawn_eq, drawn_eq e, spreads_grouped]
    apply congrArg (Expr.node _)
    simp only [grouped_eq e]
    rw [Shape.map_mapIdx, Shape.map_mapIdx, ← Shape.mapIdx_eq_map]
    apply Shape.mapIdx_congr
    intro i x hx
    have hmem := Shape.mem_children.2 ⟨i, hx⟩
    rw [hwrapped, ih x hmem (hbelow x hmem)]

theorem Flat.strip {e : Expr} (h : e.Flat) : e.strip.Flat :=
  every_strip (fun e _ he => by rw [isMultiline_eq] at he ⊢; exact he) h

theorem Layered.strip {e : Expr} (h : e.Layered) : e.strip.Layered := by
  refine every_strip (fun e hparen he hlines => ?_) h
  rw [← strip_of_not_paren hparen]
  refine Flat.strip (he ?_)
  rw [isMultiline_eq] at hlines ⊢
  exact hlines

theorem Flat.fused {e : Expr} (h : e.Flat) : e.fused.Flat :=
  every_fused (fun e he => by rw [isMultiline_eq] at he ⊢; exact he)
    (fun e _ he => by rw [isMultiline_eq] at he ⊢; exact he) h

theorem Layered.fused {e : Expr} (h : e.Layered) : e.fused.Layered := by
  refine every_fused (fun e he hlines => ?_) (fun e t _ hlines => ?_) h
  · rw [isMultiline_eq] at hlines
    have hflat := he (by rw [isMultiline_eq]; exact hlines)
    refine every_iff.2 ⟨by rw [isMultiline_eq]; exact hlines, fun y hy => ?_⟩
    rw [children, Shape.children_map] at hy
    obtain ⟨x, hx, rfl⟩ := List.mem_map.1 hy
    exact Flat.fused ((every_iff.1 hflat).2 x hx)
  · unfold Flat
    exact every_literal.2 hlines

theorem Bare.fused {e : Expr} (h : e.Bare) : e.fused.Bare :=
  every_fused (fun _ he => (Shape.isParen_map _ _).trans he) (fun _ _ _ => rfl) h

theorem Grouped.fused {e : Expr} (h : e.Grouped) : e.fused.Grouped := by
  have hself := fused_grouped e
  rw [h.grouped_eq_self] at hself
  rw [hself]
  exact grouped_grouped _

end Expr
end BuildScript
