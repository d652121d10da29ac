import BuildScript.Proofs.Layout.Spelled

/-!
Which nodes of a tree cover several lines when it is spelled out: those that hold a broken bracket
(`newline_spelled`). So the printed text of a tree tells where it was broken; `drawn` is the tree
with spans that say as much, and `onLines` forgets all else of the spans that a parse has left.
-/
namespace BuildScript

def Shape.breaks {α : Type} : Shape α → Bool
  | paren _ | load _ _ => true
  | list xs | call _ xs => !xs.isEmpty
  | _ => false

namespace Expr

def isBroken (e : Expr) : Bool := e.isMultiline && e.shape.breaks

def spreads (e : Expr) : Bool := e.preorder.any isBroken

theorem spreads_eq (e : Expr) : e.spreads = (e.isBroken || e.children.any spreads) := by
  unfold spreads
  rw [preorder_eq, List.any_cons, List.any_flatMap]

def lineSpan (several : Bool) : Option Span :=
  if several then some ⟨⟨1, 1, 0⟩, ⟨2, 1, 1⟩⟩ else none

def onLines : Expr → Expr :=
  mapSpans fun s => lineSpan (s.any Span.isMultiline)

theorem onLines_eq (e : Expr) :
    e.onLines = ⟨lineSpan (e.span.any Span.isMultiline), e.shape.map onLines⟩ :=
  mapSpans_eq _ e

/-- The tree with spans as if it had been read from its own text. -/
def drawn : Expr → Expr :=
  fold fun e below => ⟨lineSpan e.spreads, below⟩

theorem drawn_eq (e : Expr) : e.drawn = ⟨lineSpan e.spreads, e.shape.map drawn⟩ :=
  fold_eq _ e

theorem isMultiline_eq (e : Expr) : e.isMultiline = e.span.any Span.isMultiline := by
  unfold isMultiline layoutSpan?
  cases e.span with
  | none => rfl
  | some s => cases h : s.isEmpty <;> simp [Option.filter, Span.isMultiline, h]

end Expr

theorem newline_not_mem_margin (indent : Indentation) (level : Nat) :
    '\n' ∉ indent.margin level := by
  cases indent <;> simp [Indentation.margin]

theorem newline_not_mem_number {t : String} (h : Lexeme.isNumber t = true) : '\n' ∉ t.toList := by
  obtain ⟨d, ds, ht, hd, hds⟩ := Lexeme.isNumber_iff.1 h
  rw [ht, List.mem_cons]
  rintro (rfl | hn)
  · exact absurd hd (by decide)
  · exact absurd (hds _ hn) (by decide)

theorem newline_not_mem_word {w : String} (h : Lexeme.isWord w = true) : '\n' ∉ w.toList := by
  obtain ⟨c, cs, hw, hc, hcs⟩ := Lexeme.isWord_iff.1 h
  rw [hw, List.mem_cons]
  rintro (rfl | hn)
  · exact absurd hc (by decide)
  · exact absurd (hcs _ hn) (by decide)

namespace Layout

theorem mem_inlineText {x : Char} (hx : x ≠ ',' ∧ x ≠ ' ') {texts : List (List Char)} :
    x ∈ inlineText texts ↔ ∃ text ∈ texts, x ∈ text := by
  induction texts with
  | nil => simp [inlineText]
  | cons text texts ih =>
    cases texts with
    | nil => simp [inlineText]
    | cons next texts =>
      rw [inlineText, if_neg (by simp), List.mem_append, List.mem_cons, List.mem_cons, ih]
      simp [hx]

theorem newline_mem_bracketText (indent : Indentation) (bracket : Bracket)
    (items : List (Nat → List Char)) (broken trailing : Bool) (level : Nat) :
    '\n' ∈ bracketText indent bracket items broken trailing level ↔
      (broken = true ∧ items.isEmpty = false) ∨ ∃ item ∈ items, '\n' ∈ item level := by
  have hopen : '\n' ≠ bracket.opening := by cases bracket <;> decide
  have hclose : '\n' ≠ bracket.closing := by cases bracket <;> decide
  unfold bracketText
  rw [List.mem_append, List.mem_cons, List.mem_singleton]
  simp only [hopen, hclose, false_or, or_false]
  cases hb : (broken && !items.isEmpty) with
  | true =>
    simp only [Bool.and_eq_true, Bool.not_eq_true'] at hb
    simp [hb]
  | false =>
    have hb' : ¬ (broken = true ∧ items.isEmpty = false) := by
      rintro ⟨rfl, he⟩
      simp [he] at hb
    simp only [Bool.false_eq_true, if_false, hb', false_or]
    rw [mem_inlineText (by decide)]
    constructor
    · rintro ⟨text, htext, hn⟩
      obtain ⟨item, hitem, rfl⟩ := List.mem_map.1 htext
      exact ⟨item, hitem, hn⟩
    · rintro ⟨item, hitem, hn⟩
      exact ⟨_, List.mem_map.2 ⟨item, hitem, rfl⟩, hn⟩

theorem newline_mem_bracketText_map {indent : Indentation} {bracket : Bracket} {xs : List Expr}
    {level : Nat} (h : ∀ x ∈ xs, '\n' ∈ x.spelled indent level ↔ x.spreads = true)
    {broken trailing : Bool} :
    '\n' ∈ bracketText indent bracket (xs.map (Expr.spelled indent)) broken trailing level ↔
      (broken = true ∧ xs.isEmpty = false) ∨ ∃ x ∈ xs, x.spreads = true := by
  rw [newline_mem_bracketText, List.isEmpty_map]
  refine or_congr_right ⟨?_, ?_⟩
  · rintro ⟨item, hitem, hn⟩
    obtain ⟨x, hx, rfl⟩ := List.mem_map.1 hitem
    exact ⟨x, hx, (h x hx).1 hn⟩
  · rintro ⟨x, hx, hs⟩
    exact ⟨_, List.mem_map.2 ⟨x, hx, rfl⟩, (h x hx).2 hs⟩

end Layout

namespace Expr

theorem newline_spelled (indent : Indentation) {e : Expr} (h : e.Lexical) (level : Nat) :
    '\n' ∈ e.spelled indent level ↔ e.spreads = true := by
  induction e using induct generalizing level with
  | step e ih =>
    obtain ⟨hnode, hbelow⟩ := every_iff.1 h
    have ih (c : Expr) (hc : c ∈ e.children) (level : Nat) := ih c hc (hbelow c hc) level
    rw [spreads_eq]
    obtain ⟨s, shape⟩ := e
    cases shape with
    | literal t =>
      rw [spelled_literal]
      simp [newline_not_mem_number hnode, isBroken, Shape.breaks, children, Shape.children]
    | string v =>
      rw [spelled_string]
      simp [not_mem_quote (.inl rfl), isBroken, Shape.breaks, children, Shape.children]
    | ident n =>
      rw [spelled_ident]
      simp [newline_not_mem_word (Lexeme.isName_iff.1 hnode).1, isBroken, Shape.breaks, children,
        Shape.children]
    | binary op l r =>
      have hl := ih l (by simp [children, Shape.children]) level
      have hr := ih r (by simp [children, Shape.children]) level
      have hop : '\n' ∉ op.symbol.toList := by cases op <;> decide
      rw [spelled_binary]
      simp [hl, hr, hop, isBroken, Shape.breaks, children, Shape.children]
    | unary op x =>
      have hx := ih x (by simp [children, Shape.children]) level
      have hop : '\n' ∉ (Layout.signText op).toList := by cases op <;> decide
      rw [spelled_unary]
      simp [hx, hop, isBroken, Shape.breaks, children, Shape.children]
    | paren x =>
      have hx := ih x (by simp [children, Shape.children]) level
      rw [spelled_paren, ← List.map_singleton (f := spelled indent),
        Layout.newline_mem_bracketText_map (by simpa using hx)]
      simp [isBroken, Shape.breaks, children, Shape.children]
    | list xs =>
      rw [spelled_list, Layout.newline_mem_bracketText_map fun x hx =>
        ih x (by simpa [children, Shape.children] using hx) level]
      simp [isBroken, Shape.breaks, children, Shape.children]
    | call f xs =>
      have hf := ih f (by simp [children, Shape.children]) level
      rw [spelled_call, List.mem_append, hf, Layout.newline_mem_bracketText_map fun x hx =>
        ih x (by simp [children, Shape.children, hx]) level]
      simp [isBroken, Shape.breaks, children, Shape.children, or_left_comm]
    | dot x n =>
      have hx := ih x (by simp [children, Shape.children]) level
      rw [spelled_dot]
      simp [hx, newline_not_mem_word (Lexeme.isName_iff.1 hnode).1, isBroken, Shape.breaks,
        children, Shape.children]
    | load m bs => cases hnode

theorem spreads_of_leaf {e : Expr} (h : e.children = []) : e.spreads = false := by
  rw [spreads_eq, h, List.any_nil, Bool.or_false, isBroken]
  obtain ⟨s, shape⟩ := e
  cases shape <;> simp_all [children, Shape.children, Shape.breaks]

theorem spreads_of_isLoad {e : Expr} (h : e.isLoad = true) : e.spreads = e.isMultiline := by
  have hbelow : e.children.any spreads = false := by
    rw [List.any_eq_false]
    intro c hc
    simp [spreads_of_leaf (isLoad_children h c hc)]
  obtain ⟨origin, value, bindings, hshape, -⟩ := isLoad_iff.1 h
  rw [spreads_eq, hbelow, Bool.or_false, isBroken, hshape]
  exact Bool.and_true _

theorem newline_not_mem_bindingText {b : Binding Expr} (h : b.isWritable = true) :
    '\n' ∉ bindingText b := by
  obtain ⟨source, target, hs, ht, hname⟩ := isWritable_iff.1 h
  unfold bindingText
  rw [ident?_eq_some.2 hs, ident?_eq_some.2 ht]
  dsimp only
  have hquote := not_mem_quote (c := '\n') (.inl rfl) source.toList
  split
  · exact hquote
  next hne =>
    have htarget := newline_not_mem_word (Lexeme.isName_iff.1 (hname.resolve_left hne)).1
    simp [hquote, htarget]

theorem newline_load (indent : Indentation) {e : Expr} (h : e.isLoad = true) (level : Nat) :
    '\n' ∈ e.spelled indent level ↔ e.spreads = true := by
  rw [spreads_of_isLoad h]
  obtain ⟨origin, value, bindings, hshape, -, hall⟩ := isLoad_iff.1 h
  obtain ⟨s, shape⟩ := e
  obtain rfl : shape = .load origin bindings := hshape
  have hquote := not_mem_quote (c := '\n') (.inl rfl) (origin.string?.getD "").toList
  have hword : '\n' ∉ "load".toList := by decide
  rw [spelled_load, List.mem_append, Layout.newline_mem_bracketText]
  constructor
  · rintro (hn | ⟨hb, -⟩ | ⟨item, hitem, hn⟩)
    · exact absurd hn hword
    · exact hb
    · rcases List.mem_cons.1 hitem with rfl | hitem
      · exact absurd hn hquote
      · obtain ⟨b, hb, rfl⟩ := List.mem_map.1 hitem
        exact absurd hn (newline_not_mem_bindingText (hall b hb))
  · intro hb
    exact .inr (.inl ⟨hb, rfl⟩)

theorem Writable.newline_spelled (indent : Indentation) {e : Expr} (h : e.Writable) (level : Nat) :
    '\n' ∈ e.spelled indent level ↔ e.spreads = true := by
  rcases h with h | ⟨h, -⟩
  · exact newline_load indent h level
  · exact Expr.newline_spelled indent h level

end Expr
end BuildScript
