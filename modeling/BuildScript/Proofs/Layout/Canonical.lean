import BuildScript.Proofs.Layout.Meaning

/-!
What the parser makes is in the form that the renderer wants. The two know the precedence of
operators separately; since they agree on it, laying out what was read puts no parenthesis of its
own, and the groupings in the layout are those of the tree, one for one (`canonical_of_parse`).
-/
namespace BuildScript
open BuildScript.Grammar

namespace Layout

mutual
/-- The brackets in a layout that group, in the order in which they open. The sequences of lists,
arguments and load statements have a trailing comma; a broken parenthesis has none. -/
def groupings : Layout → List Layout
  | token _ => []
  | joined parts => groupingsAll parts
  | unary _ operand => groupings operand
  | binary _ left right => groupings left ++ groupings right
  | wrapped bracket body => wrapped bracket body :: groupings body
  | sequence bracket items multiline trailing =>
    (if trailing then [] else [sequence bracket items multiline trailing]) ++ groupingsAll items
def groupingsAll : List Layout → List Layout
  | [] => []
  | part :: parts => groupings part ++ groupingsAll parts
end

end Layout

namespace Expr

def parens (e : Expr) : List Expr := e.preorder.filter fun n => n.shape.isParen

theorem parens_eq (e : Expr) :
    e.parens = (if e.shape.isParen then [e] else []) ++ e.children.flatMap parens := by
  unfold parens
  rw [preorder_eq, List.filter_cons, List.filter_flatMap]
  split <;> rfl

/-- Each of the layouts is what the node in its place is laid out as. -/
def LaidOut : List Layout → List Expr → Prop :=
  List.Forall₂ fun layout n => Layout.ofExpr n = .ok layout

/-- The tree is laid out like this, and the groupings are its parentheses and nothing else. -/
def GroupsAlike (e : Expr) (layout : Layout) : Prop :=
  Layout.ofExpr e = .ok layout ∧ LaidOut layout.groupings e.parens

/-- A tree that is printed without a parenthesis of the printer's own. -/
structure Canonical (e : Expr) : Prop where
  legible : e.Legible
  grouped : e.Grouped
  layout : ∃ layout, e.GroupsAlike layout

theorem groupsAlike_all {xs : List Expr} (h : ∀ x ∈ xs, ∃ layout, x.GroupsAlike layout) :
    ∃ layouts, Layout.ofExprs xs = .ok layouts ∧
      LaidOut (Layout.groupingsAll layouts) (xs.flatMap parens) := by
  induction xs with
  | nil => exact ⟨[], rfl, .nil⟩
  | cons x xs ih =>
    obtain ⟨⟨layout, hx, halike⟩, hxs⟩ := List.forall_mem_cons.1 h
    obtain ⟨layouts, hoks, halikes⟩ := ih hxs
    refine ⟨layout :: layouts, ?_, ?_⟩
    · rw [Layout.ofExprs, hx, hoks]
      rfl
    · rw [Layout.groupingsAll, List.flatMap_cons]
      exact List.rel_append halike halikes

/-- An operand that needs no parenthesis is laid out as it is. -/
theorem Grouped.bare {e x : Expr} {i : Nat} (h : e.Grouped) (hx : e.child? i = some x)
    (layout : Layout) : Layout.parenthesizedIf (e.shape.wraps i x) layout = layout := by
  rw [(grouped_iff.1 h i x hx).1]
  rfl

theorem parens_of_not_paren {e : Expr} (h : e.shape.isParen = false) :
    e.parens = e.children.flatMap parens := by
  rw [parens_eq, h]
  rfl

theorem parens_of_leaf {e : Expr} (h : e.children = []) : e.parens = [] := by
  have hparen : e.shape.isParen = false := by
    unfold children at h
    cases hshape : e.shape with
    | paren x =>
      rw [hshape] at h
      cases h
    | _ => rfl
  rw [parens_of_not_paren hparen, h]
  rfl

theorem GroupsAlike.paren {x : Expr} {body : Layout} (h : x.GroupsAlike body) (s : Option Span) :
    ∃ layout, GroupsAlike ⟨s, .paren x⟩ layout := by
  obtain ⟨hx, halike⟩ := h
  have hparens : parens ⟨s, .paren x⟩ = ⟨s, .paren x⟩ :: x.parens := by
    rw [parens_eq]
    show _ :: (x.parens ++ []) = _
    rw [List.append_nil]
  cases hlines : (Expr.node s (.paren x)).isMultiline with
  | true =>
    have hself : Layout.ofExpr ⟨s, .paren x⟩ = .ok (.sequence .round [body] true false) := by
      rw [Layout.ofExpr, hx, hlines]
      rfl
    refine ⟨_, hself, ?_⟩
    rw [hparens]
    show LaidOut (_ :: (body.groupings ++ [])) _
    rw [List.append_nil]
    exact .cons hself halike
  | false =>
    have hself : Layout.ofExpr ⟨s, .paren x⟩ = .ok (.wrapped .round body) := by
      rw [Layout.ofExpr, hx, hlines]
      rfl
    refine ⟨_, hself, ?_⟩
    rw [hparens, Layout.groupings]
    exact .cons hself halike

/-- Where no operand needs a parenthesis, laying out keeps to the groupings of the tree. -/
theorem exists_groupsAlike {e : Expr} (hlexical : e.Lexical) (hgrouped : e.Grouped) :
    ∃ layout, e.GroupsAlike layout := by
  induction e using induct with
  | step e ih =>
    obtain ⟨hnode, hbelow⟩ := every_iff.1 hlexical
    have ih (c : Expr) (hc : c ∈ e.children) : ∃ layout, c.GroupsAlike layout :=
      ih c hc (hbelow c hc) ((every_iff.1 hgrouped).2 c hc)
    obtain ⟨s, shape⟩ := e
    cases shape with
    | literal t => exact ⟨_, rfl, .nil⟩
    | string v => exact ⟨_, rfl, .nil⟩
    | ident n => exact ⟨_, rfl, .nil⟩
    | binary op l r =>
      obtain ⟨left, hl, hleft⟩ := ih l (by simp [children, Shape.children])
      obtain ⟨right, hr, hright⟩ := ih r (by simp [children, Shape.children])
      refine ⟨.binary op.symbol left right, ?_, ?_⟩
      · rw [Layout.ofExpr, hl, hr]
        exact congrArg Except.ok (congrArg₂ (Layout.binary op.symbol)
          (hgrouped.bare (i := 0) rfl left) (hgrouped.bare (i := 1) rfl right))
      · rw [parens_of_not_paren rfl, Layout.groupings]
        show LaidOut _ (l.parens ++ (r.parens ++ []))
        rw [List.append_nil]
        exact List.rel_append hleft hright
    | unary op x =>
      obtain ⟨operand, hx, halike⟩ := ih x (by simp [children, Shape.children])
      refine ⟨.unary (Layout.signText op) operand, ?_, ?_⟩
      · rw [Layout.ofExpr, hx]
        exact congrArg Except.ok (congrArg (Layout.unary (Layout.signText op))
          (hgrouped.bare (i := 0) rfl operand))
      · rw [parens_of_not_paren rfl, Layout.groupings]
        show LaidOut _ (x.parens ++ [])
        rwa [List.append_nil]
    | paren x =>
      obtain ⟨body, halike⟩ := ih x (by simp [children, Shape.children])
      exact halike.paren s
    | list xs =>
      have hall : ∀ x ∈ xs, ∃ layout, x.GroupsAlike layout := ih
      obtain ⟨items, hxs, halike⟩ := groupsAlike_all hall
      refine ⟨_, by rw [Layout.ofExpr, hxs]; rfl, ?_⟩
      rw [parens_of_not_paren rfl]
      exact halike
    | call f xs =>
      obtain ⟨callee, hf, hcallee⟩ := ih f (by simp [children, Shape.children])
      obtain ⟨args, hxs, hargs⟩ := groupsAlike_all fun x hx =>
        ih x (List.mem_cons_of_mem f hx)
      refine ⟨.joined [callee, .sequence .round args (node s (.call f xs)).isMultiline true],
        ?_, ?_⟩
      · rw [Layout.ofExpr, hf, hxs]
        exact congrArg (fun receiver => Except.ok (Layout.joined [receiver, _]))
          (hgrouped.bare (i := 0) rfl callee)
      · rw [parens_of_not_paren rfl]
        show LaidOut (callee.groupings ++ (Layout.groupingsAll args ++ [])) (f.parens ++ _)
        rw [List.append_nil]
        exact List.rel_append hcallee hargs
    | dot x n =>
      obtain ⟨receiver, hx, halike⟩ := ih x (by simp [children, Shape.children])
      refine ⟨.joined [receiver, .token ".", .token n], ?_, ?_⟩
      · rw [Layout.ofExpr, hx]
        exact congrArg (fun receiver => Except.ok (Layout.joined [receiver, _, _]))
          (hgrouped.bare (i := 0) rfl receiver)
      · rw [parens_of_not_paren rfl]
        show LaidOut (receiver.groupings ++ []) (x.parens ++ [])
        rwa [List.append_nil, List.append_nil]
    | load m bs => cases hnode

theorem groupings_ofBindings {bs : List (Binding Expr)} (h : ∀ b ∈ bs, b.isWritable = true) :
    ∃ names, bs.mapM Layout.ofBinding = .ok names ∧ Layout.groupingsAll names = [] := by
  induction bs with
  | nil => exact ⟨[], rfl, rfl⟩
  | cons b bs ih =>
    obtain ⟨hb, hbs⟩ := List.forall_mem_cons.1 h
    obtain ⟨names, hoks, hnone⟩ := ih hbs
    obtain ⟨source, target, hs, ht, -⟩ := isWritable_iff.1 hb
    have hname : ∃ name, Layout.ofBinding b = .ok name ∧ name.groupings = [] := by
      unfold Layout.ofBinding
      rw [ident?_eq_some.2 hs, ident?_eq_some.2 ht]
      exact ⟨_, rfl, by split <;> rfl⟩
    obtain ⟨name, hok, hgroupings⟩ := hname
    refine ⟨name :: names, ?_, ?_⟩
    · rw [List.mapM_cons, hok, hoks]
      rfl
    · rw [Layout.groupingsAll, hgroupings, hnone]
      rfl

theorem exists_groupsAlike_of_isLoad {e : Expr} (h : e.isLoad = true) :
    ∃ layout, e.GroupsAlike layout := by
  have hparens : e.parens = [] := by
    have hnone : e.shape.isParen = false := by
      obtain ⟨_, _, _, hshape, -⟩ := isLoad_iff.1 h
      rw [hshape]
      rfl
    rw [parens_of_not_paren hnone, List.flatMap_eq_nil_iff]
    intro c hc
    exact parens_of_leaf (isLoad_children h c hc)
  obtain ⟨origin, value, bindings, hshape, hvalue, hall⟩ := isLoad_iff.1 h
  obtain ⟨s, shape⟩ := e
  obtain rfl : shape = .load origin bindings := hshape
  obtain ⟨names, hok, hnone⟩ := groupings_ofBindings hall
  refine ⟨.joined [.token "load", .sequence .round
    (.token (String.ofList (quote value.toList)) :: names)
    (Expr.node s (.load origin bindings)).isMultiline true], ?_, ?_⟩
  · rw [Layout.ofExpr, Layout.ofLoad, string?_eq_some.2 hvalue]
    show (bindings.mapM Layout.ofBinding >>= _) = _
    rw [hok]
    rfl
  · rw [hparens]
    show LaidOut (Layout.groupingsAll names ++ []) []
    rw [hnone]
    exact .nil

end Expr

/-- Whatever was read is made of the words of the language, with load statements as statements of
their own, and is laid out with the groupings that it has. -/
theorem canonical_of_parse (source : String) :
    (∀ s, Script.parse source = .ok s → ∀ e ∈ s.statements, e.Canonical) ∧
      ∀ e, Expr.parse source = .ok e → e.Lexical ∧ e.Canonical := by
  constructor
  · intro s h e he
    obtain ⟨-, -, c, d, -, hread⟩ := Script.parse_eq_ok.1 h
    have hlegible : e.Legible := hread.forall (fun _ _ _ => ReadsStatement.legible) e he
    have hgrouped : e.Grouped := hread.forall (fun _ _ _ => ReadsStatement.grouped) e he
    refine ⟨hlegible, hgrouped, ?_⟩
    rcases hlegible with hload | hlexical
    · exact Expr.exists_groupsAlike_of_isLoad hload
    · exact Expr.exists_groupsAlike hlexical hgrouped
  · intro e h
    obtain ⟨hgrouped, c, d, d', -, hread, -⟩ := Expr.parse_eq_ok.1 h
    exact ⟨hread.lexical, .inr hread.lexical, hgrouped,
      Expr.exists_groupsAlike hread.lexical hgrouped⟩

def summedFactor : Script where
  path := none
  statements := [⟨some ⟨⟨1, 1, 0⟩, ⟨1, 12, 11⟩⟩, .binary .mul
    ⟨some ⟨⟨1, 1, 0⟩, ⟨1, 8, 7⟩⟩, .paren ⟨some ⟨⟨1, 2, 1⟩, ⟨1, 7, 6⟩⟩, .binary .add
      ⟨some ⟨⟨1, 2, 1⟩, ⟨1, 3, 2⟩⟩, .ident "a"⟩ ⟨some ⟨⟨1, 6, 5⟩, ⟨1, 7, 6⟩⟩, .ident "b"⟩⟩⟩
    ⟨some ⟨⟨1, 11, 10⟩, ⟨1, 12, 11⟩⟩, .ident "c"⟩⟩]
  comments := []

theorem canonical_of_parse_summedFactor :
    Script.parse "(a + b) * c\n" = .ok summedFactor ∧
      ∀ e ∈ summedFactor.statements, e.Canonical := by
  have hparse : Script.parse "(a + b) * c\n" = .ok summedFactor := by cbv
  exact ⟨hparse, (canonical_of_parse _).1 _ hparse⟩

end BuildScript
