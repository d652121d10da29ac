import BuildScript.Layout.Print
import BuildScript.Proofs.Expr.Grouped

/-!
The text of a tree as it stands, without a layout in between: nothing is put around operands.
Printing a tree means grouping it and then spelling it out (`print_ofExpr`), and what passes from
the texts of the parts of a tree to the text of the tree holds of all these texts
(`Composes.legible`), also where it relates the texts with two indentations (`Relates.legible`).
-/
namespace BuildScript

namespace Layout
variable (indent : Indentation)

def inlineText : List (List Char) → List Char
  | [] => []
  | text :: texts => text ++ (if texts.isEmpty then [] else ',' :: ' ' :: inlineText texts)

def linesText (level : Nat) (trailing : Bool) (texts : List (List Char)) : List Char :=
  texts.flatMap fun text =>
    '\n' :: indent.margin level ++ text ++ (if trailing then [','] else [])

def bracketText (bracket : Bracket) (items : List (Nat → List Char)) (broken trailing : Bool)
    (level : Nat) : List Char :=
  bracket.opening ::
    (if broken && !items.isEmpty then
      linesText indent (level + 1) trailing (items.map fun item => item (level + 1))
        ++ '\n' :: indent.margin level
    else inlineText (items.map fun item => item level))
  ++ [bracket.closing]

theorem inlineText_cons (first : List Char) (others : List (List Char)) :
    inlineText (first :: others) = first ++ others.flatMap fun text => ',' :: ' ' :: text := by
  induction others generalizing first with
  | nil => simp [inlineText]
  | cons next others ih =>
    rw [inlineText, ih, List.flatMap_cons]
    simp

theorem linesText_cons (level : Nat) (first : List Char) (others : List (List Char)) :
    linesText indent level true (first :: others) = '\n' :: indent.margin level ++ first ++
      (others.flatMap fun text => ',' :: '\n' :: indent.margin level ++ text) ++ [','] := by
  induction others generalizing first with
  | nil => simp [linesText]
  | cons next others ih =>
    have hsplit : linesText indent level true (first :: next :: others) =
        '\n' :: indent.margin level ++ first ++
          ',' :: linesText indent level true (next :: others) := by
      simp [linesText]
    rw [hsplit, ih, List.flatMap_cons]
    simp

theorem isBlank_margin {level : Nat} {x : Char} (h : x ∈ '\n' :: indent.margin level) :
    isBlank x = true := by
  rcases List.mem_cons.1 h with rfl | h
  · decide
  · cases indent <;> obtain rfl := List.eq_of_mem_replicate h <;> decide

/-- The two forms of a bracket differ in blanks, in the level of the items and in the comma behind
the last one. -/
theorem bracketText_form (bracket : Bracket) (first : Nat → List Char)
    (others : List (Nat → List Char)) (broken : Bool) (level : Nat) :
    ∃ lead between tail inner, (∀ x ∈ lead, isBlank x = true) ∧ (∀ x ∈ between, isBlank x = true) ∧
      (tail = [] ∨ ∃ w, tail = ',' :: w ∧ ∀ x ∈ w, isBlank x = true) ∧
      bracketText indent bracket (first :: others) broken true level =
        bracket.opening :: (lead ++ (first inner ++
          ((others.flatMap fun item => ',' :: (between ++ item inner)) ++
            (tail ++ [bracket.closing])))) := by
  cases broken with
  | true =>
    refine ⟨'\n' :: indent.margin (level + 1), '\n' :: indent.margin (level + 1),
      ',' :: '\n' :: indent.margin level, level + 1, fun _ => isBlank_margin indent,
      fun _ => isBlank_margin indent, .inr ⟨_, rfl, fun _ => isBlank_margin indent⟩, ?_⟩
    simp [bracketText, linesText_cons, List.flatMap_map]
  | false =>
    refine ⟨[], [' '], [], level, by simp, by simp; decide, .inl rfl, ?_⟩
    simp [bracketText, inlineText_cons, List.flatMap_map]

theorem bracketText_single (bracket : Bracket) (item : Nat → List Char) (broken : Bool)
    (level : Nat) : ∃ lead tail inner, (∀ x ∈ lead, isBlank x = true) ∧
      (∀ x ∈ tail, isBlank x = true) ∧ (∀ x ∈ tail.head?, x = '\n') ∧
      bracketText indent bracket [item] broken false level =
        bracket.opening :: (lead ++ (item inner ++ (tail ++ [bracket.closing]))) := by
  cases broken with
  | true =>
    refine ⟨'\n' :: indent.margin (level + 1), '\n' :: indent.margin level, level + 1,
      fun _ => isBlank_margin indent, fun _ => isBlank_margin indent, by simp, ?_⟩
    simp [bracketText, linesText]
  | false => exact ⟨[], [], level, by simp, by simp, by simp, by simp [bracketText, inlineText]⟩

theorem printInline_eq (level : Nat) (items : List Layout) :
    printInline indent level items = inlineText (items.map (print indent level)) := by
  induction items with
  | nil => rfl
  | cons item items ih =>
    rw [printInline, ih, List.map_cons, inlineText, List.isEmpty_map]

theorem printLines_eq (level : Nat) (trailing : Bool) (items : List Layout) :
    printLines indent level trailing items =
      linesText indent level trailing (items.map (print indent level)) := by
  induction items with
  | nil => rfl
  | cons item items ih =>
    rw [printLines, ih, List.map_cons, linesText, linesText, List.flatMap_cons]

theorem print_sequence (bracket : Bracket) (items : List Layout) (broken trailing : Bool)
    (level : Nat) : print indent level (sequence bracket items broken trailing) =
      bracketText indent bracket (items.map fun item level => print indent level item) broken
        trailing level := by
  rw [print, printInline_eq, printLines_eq, bracketText]
  simp only [List.map_map, Function.comp_def, List.isEmpty_map]

end Layout

def bindingText (b : Binding Expr) : List Char :=
  match b.source.ident?, b.target.ident? with
  | some source, some target =>
    if source = target then quote source.toList
    else target.toList ++ ' ' :: '=' :: ' ' :: quote source.toList
  | _, _ => []

namespace Expr
variable (indent : Indentation)

def spelled : Expr → Nat → List Char :=
  fold fun e below level =>
    match below with
    | .literal t => t.toList
    | .string v => quote v.toList
    | .ident n => n.toList
    | .binary op l r => l level ++ ' ' :: op.symbol.toList ++ ' ' :: r level
    | .unary op x => (Layout.signText op).toList ++ x level
    | .paren x => Layout.bracketText indent .round [x] e.isMultiline false level
    | .list xs => Layout.bracketText indent .square xs e.isMultiline true level
    | .call f xs => f level ++ Layout.bracketText indent .round xs e.isMultiline true level
    | .dot x n => x level ++ '.' :: n.toList
    | .load _ _ =>
      match e.shape with
      | .load m bs => "load".toList ++ Layout.bracketText indent .round
        ((fun _ => quote (m.string?.getD "").toList) :: bs.map fun b _ => bindingText b)
        e.isMultiline true level
      | _ => []

section Constructors
variable {s : Option Span} {level : Nat}

theorem spelled_literal {t : String} : spelled indent ⟨s, .literal t⟩ level = t.toList := rfl

theorem spelled_string {v : String} : spelled indent ⟨s, .string v⟩ level = quote v.toList := rfl

theorem spelled_ident {n : String} : spelled indent ⟨s, .ident n⟩ level = n.toList := rfl

theorem spelled_binary {op : BinaryOp} {l r : Expr} : spelled indent ⟨s, .binary op l r⟩ level =
    l.spelled indent level ++ ' ' :: op.symbol.toList ++ ' ' :: r.spelled indent level := rfl

theorem spelled_unary {op : UnaryOp} {x : Expr} : spelled indent ⟨s, .unary op x⟩ level =
    (Layout.signText op).toList ++ x.spelled indent level := rfl

theorem spelled_paren {x : Expr} : spelled indent ⟨s, .paren x⟩ level =
    Layout.bracketText indent .round [x.spelled indent] (Expr.node s (.paren x)).isMultiline false
      level := rfl

theorem spelled_list {xs : List Expr} : spelled indent ⟨s, .list xs⟩ level =
    Layout.bracketText indent .square (xs.map (spelled indent))
      (Expr.node s (.list xs)).isMultiline true level := by
  unfold spelled
  rw [fold_eq]
  rfl

theorem spelled_call {f : Expr} {xs : List Expr} : spelled indent ⟨s, .call f xs⟩ level =
    f.spelled indent level ++ Layout.bracketText indent .round (xs.map (spelled indent))
      (Expr.node s (.call f xs)).isMultiline true level := by
  unfold spelled
  rw [fold_eq]
  rfl

theorem spelled_dot {x : Expr} {n : String} : spelled indent ⟨s, .dot x n⟩ level =
    x.spelled indent level ++ '.' :: n.toList := rfl

theorem spelled_load {m : Expr} {bs : List (Binding Expr)} : spelled indent ⟨s, .load m bs⟩ level =
    "load".toList ++ Layout.bracketText indent .round
      ((fun _ => quote (m.string?.getD "").toList) :: bs.map fun b _ => bindingText b)
      (Expr.node s (.load m bs)).isMultiline true level := rfl

end Constructors

theorem spelled_map {f : Expr → Expr} {e : Expr} (h : e.shape.isLexical = true)
    (hf : ∀ c ∈ e.children, (f c).spelled indent = c.spelled indent) (level : Nat) :
    spelled indent ⟨e.span, e.shape.map f⟩ level = e.spelled indent level := by
  have hbelow : (e.shape.map f).map (spelled indent) = e.shape.map (spelled indent) := by
    rw [Shape.map_map]
    exact Shape.map_congr hf
  unfold spelled at hbelow ⊢
  rw [fold_eq, fold_eq _ e, hbelow]
  obtain ⟨s, shape⟩ := e
  cases shape with
  | load m bs => cases h
  | _ => rfl

theorem print_parenthesizedIf {needed : Bool} {layout : Layout} {e : Expr} {level : Nat}
    (h : layout.print indent level = e.spelled indent level) :
    (Layout.parenthesizedIf needed layout).print indent level =
      (wrappedIf needed e).spelled indent level := by
  cases needed with
  | false => exact h
  | true =>
    show '(' :: layout.print indent level ++ [')'] = '(' :: (e.spelled indent level ++ []) ++ [')']
    rw [h, List.append_nil]

/-- The tree can be laid out, and what is printed for it is the grouped tree, spelled out. -/
def PrintsGrouped (e : Expr) : Prop :=
  ∃ layout, Layout.ofExpr e = .ok layout ∧
    ∀ level, layout.print indent level = e.grouped.spelled indent level

theorem printsGrouped_all {xs : List Expr} (h : ∀ x ∈ xs, x.PrintsGrouped indent) :
    ∃ layouts, Layout.ofExprs xs = .ok layouts ∧
      (layouts.map fun layout level => layout.print indent level) =
        (xs.map grouped).map (spelled indent) := by
  induction xs with
  | nil => exact ⟨[], rfl, rfl⟩
  | cons x xs ih =>
    obtain ⟨hx, hxs⟩ := List.forall_mem_cons.1 h
    obtain ⟨layout, hok, hprint⟩ := hx
    obtain ⟨layouts, hoks, hprints⟩ := ih hxs
    refine ⟨layout :: layouts, ?_, ?_⟩
    · rw [Layout.ofExprs, hok, hoks]
      rfl
    · rw [List.map_cons, List.map_cons, List.map_cons, hprints, funext hprint]

/-- Printing is grouping and spelling out. -/
theorem print_ofExpr {e : Expr} (h : e.Lexical) : e.PrintsGrouped indent := by
  induction e using induct with
  | step e ih =>
    obtain ⟨hnode, hbelow⟩ := every_iff.1 h
    have ih (c : Expr) (hc : c ∈ e.children) : c.PrintsGrouped indent := ih c hc (hbelow c hc)
    obtain ⟨s, shape⟩ := e
    cases shape with
    | literal t => exact ⟨_, rfl, fun _ => rfl⟩
    | string v => exact ⟨_, rfl, fun level => String.toList_ofList⟩
    | ident n => exact ⟨_, rfl, fun _ => rfl⟩
    | binary op l r =>
      obtain ⟨left, hl, hleft⟩ := ih l (by simp [children, Shape.children])
      obtain ⟨right, hr, hright⟩ := ih r (by simp [children, Shape.children])
      refine ⟨_, by rw [Layout.ofExpr, hl, hr]; rfl, fun level => ?_⟩
      rw [Layout.print, print_parenthesizedIf indent (hleft level),
        print_parenthesizedIf indent (hright level), grouped_eq_binary]
      rfl
    | unary op x =>
      obtain ⟨operand, hx, hprint⟩ := ih x (by simp [children, Shape.children])
      refine ⟨_, by rw [Layout.ofExpr, hx]; rfl, fun level => ?_⟩
      rw [Layout.print, print_parenthesizedIf indent (hprint level), grouped_eq_unary]
      rfl
    | paren x =>
      obtain ⟨body, hx, hprint⟩ := ih x (by simp [children, Shape.children])
      refine ⟨_, by rw [Layout.ofExpr, hx]; rfl, fun level => ?_⟩
      have hbody : (fun level => body.print indent level) = x.grouped.spelled indent :=
        funext hprint
      have hlines : (Expr.node s (.paren x.grouped)).isMultiline =
          (Expr.node s (.paren x)).isMultiline := rfl
      rw [grouped_eq_paren, spelled_paren, hlines]
      cases (Expr.node s (.paren x)).isMultiline with
      | true =>
        rw [if_pos rfl, Layout.print_sequence, List.map_singleton, hbody]
      | false =>
        rw [if_neg (by decide), Layout.print, hprint]
        show _ = '(' :: (x.grouped.spelled indent level ++ []) ++ [')']
        rw [List.append_nil]
        rfl
    | list xs =>
      obtain ⟨items, hxs, hprint⟩ :=
        printsGrouped_all indent fun x hx => ih x (by simpa [children, Shape.children] using hx)
      refine ⟨_, by rw [Layout.ofExpr, hxs]; rfl, fun level => ?_⟩
      rw [Layout.print_sequence, hprint, grouped_eq_list, spelled_list]
      rfl
    | call f xs =>
      obtain ⟨callee, hf, hcallee⟩ := ih f (by simp [children, Shape.children])
      have hall : ∀ x ∈ xs, x.PrintsGrouped indent := fun x hx => ih x (List.mem_cons_of_mem f hx)
      obtain ⟨args, hxs, hargs⟩ := printsGrouped_all indent hall
      refine ⟨_, by rw [Layout.ofExpr, hf, hxs]; rfl, fun level => ?_⟩
      rw [Layout.print, Layout.printAll, Layout.printAll, Layout.printAll, List.append_nil,
        print_parenthesizedIf indent (hcallee level), Layout.print_sequence, hargs, grouped_eq_call,
        spelled_call]
      rfl
    | dot x n =>
      obtain ⟨receiver, hx, hprint⟩ := ih x (by simp [children, Shape.children])
      refine ⟨_, by rw [Layout.ofExpr, hx]; rfl, fun level => ?_⟩
      rw [Layout.print, Layout.printAll, Layout.printAll, Layout.printAll, Layout.printAll,
        List.append_nil, print_parenthesizedIf indent (hprint level), grouped_eq_dot]
      rfl
    | load m bs => cases hnode

theorem print_ofBinding {b : Binding Expr} (h : b.isWritable = true) :
    ∃ layout, Layout.ofBinding b = .ok layout ∧
      ∀ level, layout.print indent level = bindingText b := by
  obtain ⟨source, target, hs, ht, -⟩ := isWritable_iff.1 h
  unfold Layout.ofBinding bindingText
  rw [ident?_eq_some.2 hs, ident?_eq_some.2 ht]
  refine ⟨_, rfl, fun level => ?_⟩
  dsimp only
  split
  · exact String.toList_ofList
  · show target.toList ++ [' ', '='] ++ ' ' :: (String.ofList _).toList = _
    rw [List.append_assoc, String.toList_ofList]
    rfl

theorem print_ofBindings {bs : List (Binding Expr)} (h : ∀ b ∈ bs, b.isWritable = true) :
    ∃ layouts, bs.mapM Layout.ofBinding = .ok layouts ∧
      (layouts.map fun layout level => layout.print indent level) =
        bs.map fun b _ => bindingText b := by
  induction bs with
  | nil => exact ⟨[], rfl, rfl⟩
  | cons b bs ih =>
    obtain ⟨hb, hbs⟩ := List.forall_mem_cons.1 h
    obtain ⟨layout, hok, hprint⟩ := print_ofBinding indent hb
    obtain ⟨layouts, hoks, hprints⟩ := ih hbs
    refine ⟨layout :: layouts, ?_, ?_⟩
    · rw [List.mapM_cons, hok, hoks]
      rfl
    · rw [List.map_cons, hprints, funext hprint]
      rfl

theorem print_ofLoad {e : Expr} (h : e.isLoad = true) : e.PrintsGrouped indent := by
  unfold PrintsGrouped
  rw [(grouped_of_isLoad h).grouped_eq_self]
  obtain ⟨origin, value, bindings, hshape, hvalue, hall⟩ := isLoad_iff.1 h
  obtain ⟨s, shape⟩ := e
  obtain rfl : shape = .load origin bindings := hshape
  obtain ⟨names, hok, hprint⟩ := print_ofBindings indent hall
  have horigin := string?_eq_some.2 hvalue
  refine ⟨.joined [.token "load", .sequence .round
    (.token (String.ofList (quote value.toList)) :: names)
    (Expr.node s (.load origin bindings)).isMultiline true], ?_, fun level => ?_⟩
  · rw [Layout.ofExpr, Layout.ofLoad, horigin]
    show (bindings.mapM Layout.ofBinding >>= _) = _
    rw [hok]
    rfl
  · rw [Layout.print, Layout.printAll, Layout.printAll, Layout.printAll, List.append_nil,
      Layout.print_sequence, List.map_cons, hprint, spelled_load, horigin]
    have hfirst : (fun level => (Layout.token (String.ofList (quote value.toList))).print indent
        level) = fun _ => quote value.toList := by
      funext level
      rw [Layout.print, String.toList_ofList]
    rw [hfirst]
    rfl

theorem Legible.printsGrouped {e : Expr} (h : e.Legible) : e.PrintsGrouped indent := by
  rcases h with h | h
  · exact print_ofLoad indent h
  · exact print_ofExpr indent h

def layout (e : Expr) : Layout :=
  match Layout.ofExpr e with
  | .ok layout => layout
  | .error _ => .joined []

theorem Legible.ofExpr_eq {e : Expr} (h : e.Legible) : Layout.ofExpr e = .ok e.layout := by
  obtain ⟨layout, hlayout, -⟩ := h.printsGrouped .tabs
  rw [Expr.layout, hlayout]

theorem Legible.print_layout {e : Expr} (h : e.Legible) (level : Nat) :
    e.layout.print indent level = e.grouped.spelled indent level := by
  obtain ⟨layout, hlayout, hprint⟩ := h.printsGrouped indent
  rw [Expr.layout, hlayout]
  exact hprint level

end Expr

namespace Layout

/-- A relation between the texts of a tree, printed with two indentations, that holds if it holds
between the texts of its parts. -/
structure Relates (a b : Indentation) (R : List Char → List Char → Prop) : Prop where
  number : ∀ {t : String}, Lexeme.isNumber t = true → R t.toList t.toList
  word : ∀ {w : String}, Lexeme.isWord w = true → R w.toList w.toList
  quote : ∀ value : List Char, R (quote value) (quote value)
  append : ∀ {u u' v v' : List Char}, R u u' → R v v' → R (u ++ v) (u' ++ v')
  /-- Signs, operators and the blanks around them may stand in front. -/
  signs : ∀ {w u u' : List Char}, '\n' ∉ w → '\t' ∉ w →
    (w.all fun x => x != '#' && x != '"' && x != '\'') = true → R u u' → R (w ++ u) (w ++ u')
  bracket : ∀ (bracket : Bracket) (items : List ((Nat → List Char) × (Nat → List Char))),
    (∀ item ∈ items, ∀ level, R (item.1 level) (item.2 level)) →
    ∀ (broken trailing : Bool) (level : Nat),
    R (bracketText a bracket (items.map Prod.fst) broken trailing level)
      (bracketText b bracket (items.map Prod.snd) broken trailing level)

namespace Relates
variable {a b : Indentation} {R : List Char → List Char → Prop}

theorem bracket_map (h : Relates a b R) (bracket : Bracket) {xs : List Expr}
    (hxs : ∀ x ∈ xs, ∀ level, R (x.spelled a level) (x.spelled b level)) (broken trailing : Bool)
    (level : Nat) : R (bracketText a bracket (xs.map (Expr.spelled a)) broken trailing level)
      (bracketText b bracket (xs.map (Expr.spelled b)) broken trailing level) := by
  have key := h.bracket bracket (xs.map fun x => (x.spelled a, x.spelled b))
    (List.forall_mem_map.2 hxs) broken trailing level
  rwa [List.map_map, List.map_map] at key

theorem bracket_self (h : Relates a b R) (bracket : Bracket) {items : List (Nat → List Char)}
    (hitems : ∀ item ∈ items, ∀ level, R (item level) (item level)) (broken trailing : Bool)
    (level : Nat) : R (bracketText a bracket items broken trailing level)
      (bracketText b bracket items broken trailing level) := by
  have key := h.bracket bracket (items.map fun item => (item, item))
    (List.forall_mem_map.2 hitems) broken trailing level
  rwa [List.map_map, List.map_map, Function.comp_def, Function.comp_def, List.map_id'] at key

theorem spelled (h : Relates a b R) {e : Expr} (he : e.Lexical) (level : Nat) :
    R (e.spelled a level) (e.spelled b level) := by
  induction e using Expr.induct generalizing level with
  | step e ih =>
    obtain ⟨hnode, hbelow⟩ := Expr.every_iff.1 he
    have ih (c : Expr) (hc : c ∈ e.children) (level : Nat) :
        R (c.spelled a level) (c.spelled b level) :=
      ih c hc (hbelow c hc) level
    obtain ⟨s, shape⟩ := e
    cases shape with
    | literal t => exact h.number hnode
    | string v => exact h.quote v.toList
    | ident n => exact h.word (Lexeme.isName_iff.1 hnode).1
    | binary op l r =>
      have hl := ih l (by simp [Expr.children, Shape.children]) level
      have hr := ih r (by simp [Expr.children, Shape.children]) level
      have hop := h.signs (w := ' ' :: op.symbol.toList ++ [' ']) (by cases op <;> decide)
        (by cases op <;> decide) (by cases op <;> decide) hr
      rw [Expr.spelled_binary, Expr.spelled_binary]
      simpa using h.append hl hop
    | unary op x =>
      have hx := ih x (by simp [Expr.children, Shape.children]) level
      rw [Expr.spelled_unary, Expr.spelled_unary]
      exact h.signs (by cases op <;> decide) (by cases op <;> decide) (by cases op <;> decide) hx
    | paren x =>
      rw [Expr.spelled_paren, Expr.spelled_paren]
      exact h.bracket_map _ (List.forall_mem_singleton.2 (ih x (.head _))) _ _ _
    | list xs =>
      rw [Expr.spelled_list, Expr.spelled_list]
      exact h.bracket_map _ ih _ _ _
    | call f xs =>
      rw [Expr.spelled_call, Expr.spelled_call]
      exact h.append (ih f (by simp [Expr.children, Shape.children]) level)
        (h.bracket_map _ (fun x hx => ih x (List.mem_cons_of_mem f hx)) _ _ _)
    | dot x n =>
      have hname := h.word (Lexeme.isName_iff.1 hnode).1
      rw [Expr.spelled_dot, Expr.spelled_dot]
      exact h.append (ih x (by simp [Expr.children, Shape.children]) level)
        (h.signs (w := ['.']) (by decide) (by decide) (by decide) hname)
    | load m bs => cases hnode

theorem bindingText (h : Relates a b R) {d : Binding Expr} (hd : d.isWritable = true) :
    R (bindingText d) (bindingText d) := by
  obtain ⟨source, target, hs, ht, hname⟩ := Expr.isWritable_iff.1 hd
  unfold BuildScript.bindingText
  rw [Expr.ident?_eq_some.2 hs, Expr.ident?_eq_some.2 ht]
  dsimp only
  split
  · exact h.quote source.toList
  next hne =>
    have htarget := h.word (Lexeme.isName_iff.1 (hname.resolve_left hne)).1
    exact h.append htarget (h.signs (w := [' ', '=', ' ']) (by decide) (by decide) (by decide)
      (h.quote source.toList))

theorem load (h : Relates a b R) {e : Expr} (he : e.isLoad = true) (level : Nat) :
    R (e.spelled a level) (e.spelled b level) := by
  obtain ⟨origin, value, bindings, hshape, -, hall⟩ := Expr.isLoad_iff.1 he
  obtain ⟨s, shape⟩ := e
  obtain rfl : shape = .load origin bindings := hshape
  rw [Expr.spelled_load, Expr.spelled_load]
  refine h.append (h.word (by decide)) (h.bracket_self _ (fun item hitem level => ?_) _ _ _)
  rcases List.mem_cons.1 hitem with rfl | hitem
  · exact h.quote _
  · obtain ⟨d, hd, rfl⟩ := List.mem_map.1 hitem
    exact h.bindingText (hall d hd)

theorem legible (h : Relates a b R) {e : Expr} (he : e.Legible) (level : Nat) :
    R (e.spelled a level) (e.spelled b level) := by
  rcases he with he | he
  · exact h.load he level
  · exact h.spelled he level

end Relates

variable (indent : Indentation)

structure Composes (P : List Char → Prop) : Prop where
  number : ∀ {t : String}, Lexeme.isNumber t = true → P t.toList
  word : ∀ {w : String}, Lexeme.isWord w = true → P w.toList
  quote : ∀ value : List Char, P (quote value)
  append : ∀ {u v : List Char}, P u → P v → P (u ++ v)
  /-- Signs, operators and the blanks around them may stand in front. -/
  signs : ∀ {w u : List Char}, '\n' ∉ w →
    (w.all fun x => x != '#' && x != '"' && x != '\'') = true → P u → P (w ++ u)
  bracket : ∀ (bracket : Bracket) {items : List (Nat → List Char)},
    (∀ item ∈ items, ∀ level, P (item level)) → ∀ (broken trailing : Bool) (level : Nat),
    P (bracketText indent bracket items broken trailing level)

namespace Composes
variable {indent : Indentation} {P : List Char → Prop}

theorem relates (h : Composes indent P) : Relates indent indent fun u _ => P u where
  number := h.number
  word := h.word
  quote := h.quote
  append := h.append
  signs hw _ hplain hu := h.signs hw hplain hu
  bracket bracket _ hitems := h.bracket bracket (List.forall_mem_map.2 hitems)

theorem legible (h : Composes indent P) {e : Expr} (he : e.Legible) (level : Nat) :
    P (e.spelled indent level) :=
  h.relates.legible he level

end Composes
end Layout
end BuildScript
