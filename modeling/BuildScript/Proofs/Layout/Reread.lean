import BuildScript.Proofs.Layout.Lines
import BuildScript.Proofs.Parse.Load

/-!
The text of a grouped tree holds that tree: what is spelled out can be read, word by word, and
brackets that were broken are seen to be (`reads_spelled`). Words do not run into each other, since
what follows the text of an operand is never a character that could go on with its last word.
-/
namespace BuildScript
open BuildScript.Parser Lexeme Grammar

theorem Span.isMultiline_after {p : Position} (hp : 0 < p.line) (w : List Char) :
    (Span.mk p (p.after w)).isMultiline = decide ('\n' ∈ w) := by
  have hne : (p.line == 0) = false := by simp; omega
  simp only [isMultiline, isEmpty, hne, Bool.false_and, Bool.not_false, Bool.true_and,
    Position.line_after]
  by_cases h : '\n' ∈ w
  · have := List.count_pos_iff.2 h
    simp [h]
    omega
  · simp [h, List.count_eq_zero_of_not_mem h]

namespace Mode.Skips
variable {m : Mode} {p : Position} {rest : List Char}

theorem space (h : m.Skips ⟨p.next ' ', rest⟩ ⟨p.next ' ', rest⟩) :
    m.Skips ⟨p, ' ' :: rest⟩ ⟨p.next ' ', rest⟩ :=
  blanks (w := [' ']) (List.forall_mem_singleton.2 (by cases m <;> decide)) h

theorem at_cons {x : Char} (h : m.opens x = false) :
    m.Skips ⟨p, x :: rest⟩ ⟨p, x :: rest⟩ :=
  of_stops (by rw [stops_cons]; exact h)

end Mode.Skips

namespace Expr
variable (indent : Indentation)

/-- Characters that would go on with the last word of a tree. Only a number takes in a dot. -/
def goesOn (e : Expr) : Char → Bool :=
  if e.precedence = .primary ∧ e.shape.isLiteral = false then isNameChar else isNumberChar

theorem goesOn_le {e : Expr} {x : Char} (h : e.goesOn x = true) : isNumberChar x = true := by
  unfold goesOn at h
  split at h
  · exact isNumberChar_of_nameChar h
  · exact h

theorem stops_goesOn {e : Expr} {x : Char} {rest : List Char} (h : isNumberChar x = false) :
    Stops e.goesOn (x :: rest) :=
  Stops.mono (fun _ hx => goesOn_le hx) (stops_cons.2 h)

/-- The text of the tree holds a tree that differs from it in nothing but spans, and these say where
the text has lines. -/
def Rereads (e : Expr) : Prop :=
  ∀ (m : Mode) (level : Nat) (p : Position) (rest : List Char), 0 < p.line → Stops e.goesOn rest →
    ∃ e', Reads m e' ⟨p, e.spelled indent level ++ rest⟩ ⟨p.after (e.spelled indent level), rest⟩ ∧
      e'.onLines = e.drawn

variable {indent}

theorem onLines_node {e : Expr} (h : e.Writable) {p : Position} (hp : 0 < p.line) (level : Nat)
    {shape : Shape Expr} (hshape : shape.map onLines = e.shape.map drawn) :
    onLines ⟨some ⟨p, p.after (e.spelled indent level)⟩, shape⟩ = e.drawn := by
  rw [onLines_eq, drawn_eq]
  simp only [Option.any_some, Span.isMultiline_after hp, h.newline_spelled indent level,
    Bool.decide_eq_true, hshape]

theorem line_pos_after {p : Position} (hp : 0 < p.line) (w : List Char) :
    0 < (p.after w).line := by
  rw [Position.line_after]
  omega

section Items
variable {xs : List Expr}

theorem readsItems_between {between tail : List Char} (hb : ∀ x ∈ between, isBlank x = true)
    (ht : tail = [] ∨ ∃ w, tail = ',' :: w ∧ ∀ x ∈ w, isBlank x = true) {close : Char}
    (hclose : close = ')' ∨ close = ']') (level : Nat) (rest : List Char) {x : Expr}
    (h : ∀ y ∈ x :: xs, y.Rereads indent) (p : Position) (hp : 0 < p.line) :
    ∃ xs' text, text = x.spelled indent level ++
          ((xs.flatMap fun y => ',' :: (between ++ y.spelled indent level)) ++ tail) ∧
      Mode.free.Skips ⟨p, text ++ close :: rest⟩ ⟨p, text ++ close :: rest⟩ ∧
      ReadsItems xs' ⟨p, text ++ close :: rest⟩ ⟨p.after text, close :: rest⟩ ∧
      xs'.map onLines = (x :: xs).map drawn := by
  have hstop : isNumberChar close = false ∧ Mode.free.opens close = false := by
    rcases hclose with rfl | rfl <;> decide
  induction xs generalizing x p with
  | nil =>
    have hx := h x (by simp)
    rcases ht with rfl | ⟨w, rfl, hw⟩
    · obtain ⟨x', hread, hlines⟩ := hx .free level p (close :: rest) hp (stops_goesOn hstop.1)
      refine ⟨[x'], _, rfl, ?_, ?_, by simp [hlines]⟩
      · simp only [List.flatMap_nil, List.append_nil]
        exact hread.no_gap .free
      · simp only [List.flatMap_nil, List.append_nil]
        exact .last hread (.at_cons hstop.2)
    · obtain ⟨x', hread, hlines⟩ := hx .free level p (',' :: (w ++ close :: rest)) hp
        (stops_goesOn (by decide))
      refine ⟨[x'], _, rfl, ?_, ?_, by simp [hlines]⟩
      · simp only [List.flatMap_nil, List.nil_append, List.append_assoc]
        exact hread.no_gap .free
      · simp only [List.flatMap_nil, List.nil_append, List.append_assoc, Position.after_append]
        exact .comma hread (.at_cons (by decide)) (.intro (.blanks hw (.at_cons hstop.2)))
  | cons y ys ih =>
    obtain ⟨hx, hys⟩ := List.forall_mem_cons.1 h
    obtain ⟨ys', text, htext, hskip, hitems, hlines'⟩ := ih hys
      (((p.after (x.spelled indent level)).next ',').after between)
      (line_pos_after (line_pos_after (line_pos_after hp _) [',']) _)
    obtain ⟨x', hread, hlines⟩ := hx .free level p
      (',' :: (between ++ (text ++ close :: rest))) hp (stops_goesOn (by decide))
    obtain ⟨y', ys', rfl⟩ : ∃ y' zs, ys' = y' :: zs := by
      cases ys' with
      | nil => simp at hlines'
      | cons y' zs => exact ⟨y', zs, rfl⟩
    have hwhole : x.spelled indent level ++ (((y :: ys).flatMap fun y =>
        ',' :: (between ++ y.spelled indent level)) ++ tail) =
          x.spelled indent level ++ ',' :: (between ++ text) := by
      simp only [htext, List.flatMap_cons, List.cons_append, List.append_assoc]
    refine ⟨x' :: y' :: ys', _, hwhole.symm, ?_, ?_, ?_⟩
    · simp only [List.append_assoc, List.cons_append]
      exact hread.no_gap .free
    · simp only [List.append_assoc, List.cons_append, Position.after_append, Position.after_cons]
      exact .cons hread (.at_cons (by decide)) (.intro (.blanks hb hskip)) hitems
    · rw [List.map_cons, hlines, hlines']
      rfl

/-- A bracket with its items, in either form. -/
theorem reads_bracketText (h : ∀ x ∈ xs, x.Rereads indent) (bracket : Bracket) (broken : Bool)
    (level : Nat) (p : Position) (hp : 0 < p.line) (rest : List Char) :
    ∃ xs' c d text, text = Layout.bracketText indent bracket (xs.map (spelled indent)) broken true
        level ∧ Opens bracket.opening ⟨p, text ++ rest⟩ c ∧ ReadsItems xs' c d ∧
      d.Passes [bracket.closing] ⟨p.after text, rest⟩ ∧ xs'.map onLines = xs.map drawn := by
  have hclose : bracket.closing = ')' ∨ bracket.closing = ']' := by cases bracket <;> decide
  have hstop : Mode.free.opens bracket.closing = false := by cases bracket <;> decide
  cases xs with
  | nil =>
    have htext : Layout.bracketText indent bracket (([] : List Expr).map (spelled indent)) broken
        true level = [bracket.opening] ++ [bracket.closing] := by
      cases broken <;> rfl
    refine ⟨[], ⟨p.next bracket.opening, bracket.closing :: rest⟩, _, _, rfl, ?_, .nil, ?_, rfl⟩
    · rw [htext]
      exact .intro (.at_cons hstop)
    · rw [htext]
      exact ⟨rfl, rfl⟩
  | cons x xs =>
    obtain ⟨lead, between, tail, inner, hlead, hbetween, htail, htext⟩ :=
      Layout.bracketText_form indent bracket (x.spelled indent) (xs.map (spelled indent)) broken
        level
    obtain ⟨xs', text, heq, hskip, hitems, hlines⟩ := readsItems_between hbetween htail hclose inner
      rest h ((p.next bracket.opening).after lead)
      (line_pos_after (line_pos_after hp [bracket.opening]) lead)
    have hwhole : Layout.bracketText indent bracket ((x :: xs).map (spelled indent)) broken true
        level = bracket.opening :: (lead ++ (text ++ [bracket.closing])) := by
      rw [List.map_cons, htext, heq, List.flatMap_map]
      simp only [List.append_assoc]
    refine ⟨xs', _, _, _, hwhole.symm, ?_, hitems, ?_, hlines⟩
    · simp only [List.cons_append, List.append_assoc]
      exact .intro (.blanks hlead hskip)
    · simp only [Position.after_cons, Position.after_append]
      exact ⟨rfl, rfl⟩

end Items

theorem reads_parenText {x : Expr} (h : x.Rereads indent) (broken : Bool) (level : Nat)
    (p : Position) (hp : 0 < p.line) (rest : List Char) :
    ∃ x' c d d' text, text = Layout.bracketText indent .round [x.spelled indent] broken false
        level ∧ Opens '(' ⟨p, text ++ rest⟩ c ∧ Reads .free x' c d ∧ Mode.free.Skips d d' ∧
      d'.Passes [')'] ⟨p.after text, rest⟩ ∧ x'.onLines = x.drawn := by
  obtain ⟨lead, tail, inner, hlead, htail, hfirst, htext⟩ :=
    Layout.bracketText_single indent .round (x.spelled indent) broken level
  have hstop : Stops isNumberChar (tail ++ ')' :: rest) := by
    cases tail with
    | nil => exact stops_cons.2 (by decide)
    | cons y tail =>
      obtain rfl := hfirst y rfl
      exact stops_cons.2 (by decide)
  obtain ⟨x', hread, hlines⟩ := h .free inner ((p.next '(').after lead) (tail ++ ')' :: rest)
    (line_pos_after (line_pos_after hp ['(']) lead) (Stops.mono (fun _ hx => goesOn_le hx) hstop)
  refine ⟨x', _, _, _, _, rfl, ?_, hread, .blanks htail (.at_cons (by decide)), ?_, hlines⟩
  · rw [htext]
    simp only [List.cons_append, List.append_assoc]
    exact .intro (.blanks hlead (hread.no_gap .free))
  · rw [htext]
    simp only [Position.after_cons, Position.after_append]
    exact ⟨rfl, rfl⟩

theorem reads_node {e : Expr} (h : e.Writable) {m : Mode} {level : Nat} {p : Position}
    (hp : 0 < p.line) {rest : List Char} (shape : Shape Expr)
    (hshape : shape.map onLines = e.shape.map drawn)
    (hread : Reads m ⟨some ⟨p, p.after (e.spelled indent level)⟩, shape⟩
      ⟨p, e.spelled indent level ++ rest⟩ ⟨p.after (e.spelled indent level), rest⟩) :
    ∃ e', Reads m e' ⟨p, e.spelled indent level ++ rest⟩ ⟨p.after (e.spelled indent level), rest⟩ ∧
      e'.onLines = e.drawn :=
  ⟨_, hread, onLines_node h hp level hshape⟩

theorem result?_number_text {t : String} (h : isNumber t = true) (p : Position)
    {rest : List Char} (hr : Stops isNumberChar rest) :
    result? number ⟨p, t.toList ++ rest⟩ = some (t, ⟨p.after t.toList, rest⟩) :=
  result?_number.2 ⟨h, ⟨rfl, rfl⟩, hr⟩

theorem result?_name_text {n : String} (h : isName n = true) (p : Position) {rest : List Char}
    (hr : Stops isNameChar rest) :
    result? name ⟨p, n.toList ++ rest⟩ = some (n, ⟨p.after n.toList, rest⟩) :=
  result?_name.2 ⟨h, ⟨rfl, rfl⟩, hr⟩

theorem readsSign_symbol (op : UnaryOp) (p : Position) {text : List Char}
    (h : op = .not → Stops isNameChar text) :
    ReadsSign op ⟨p, op.symbol.toList ++ text⟩ ⟨p.after op.symbol.toList, text⟩ :=
  ⟨⟨rfl, rfl⟩, h⟩

namespace Rereads
variable {s : Option Span}

theorem binary {op : BinaryOp} {l r : Expr} (hw : Writable ⟨s, .binary op l r⟩)
    (hl : l.Rereads indent) (hr : r.Rereads indent) :
    Rereads indent ⟨s, .binary op l r⟩ := by
  intro m level p rest hp hrest
  have hrest : Stops isNumberChar rest := by
    cases op <;> exact hrest
  obtain ⟨l', hreadl, hlinesl⟩ := hl m level p
    (' ' :: (op.symbol.toList ++ ' ' :: (r.spelled indent level ++ rest))) hp
    (stops_goesOn (by decide))
  obtain ⟨r', hreadr, hlinesr⟩ := hr m level
    ((((p.after (l.spelled indent level)).next ' ').after op.symbol.toList).next ' ') rest
    (line_pos_after (line_pos_after (line_pos_after (line_pos_after hp _) [' ']) _) [' '])
    (Stops.mono (fun x hx => goesOn_le hx) hrest)
  have hbehind : Stops isNameChar (' ' :: (r.spelled indent level ++ rest)) :=
    stops_cons.2 (by decide)
  have hop := readsSymbol_symbol op ((p.after (l.spelled indent level)).next ' ') hbehind
  have hfirst : Stops m.opens (op.symbol.toList ++ ' ' :: (r.spelled indent level ++ rest)) := by
    cases op <;> cases m <;> exact stops_cons.2 (by decide)
  refine reads_node hw hp (.binary op l' r') ?_ ?_
  · rw [Shape.map, Shape.map, hlinesl, hlinesr]
  · rw [spelled_binary]
    simp only [List.append_assoc, List.cons_append, Position.after_append, Position.after_cons]
    exact .binary hreadl (.space (.of_stops hfirst)) hop (.space (hreadr.no_gap m)) hreadr

theorem unary {op : UnaryOp} {x : Expr} (hw : Writable ⟨s, .unary op x⟩)
    (h : x.Rereads indent) : Rereads indent ⟨s, .unary op x⟩ := by
  intro m level p rest hp hrest
  have hrest : Stops isNumberChar rest := by
    cases op <;> exact hrest
  obtain ⟨x', hread, hlines⟩ := h m level (p.after (Layout.signText op).toList) rest
    (line_pos_after hp _) (Stops.mono (fun x hx => goesOn_le hx) hrest)
  apply reads_node hw hp (.unary op x') (congrArg (Shape.unary op) hlines)
  rw [spelled_unary]
  simp only [List.append_assoc, Position.after_append]
  cases op with
  | not =>
    have hbehind : Stops isNameChar (' ' :: (x.spelled indent level ++ rest)) :=
      stops_cons.2 (by decide)
    exact .unary (readsSign_symbol .not p fun _ => hbehind) (.space (hread.no_gap m)) hread
  | neg => exact .unary (readsSign_symbol .neg p (by simp)) (hread.no_gap m) hread
  | pos => exact .unary (readsSign_symbol .pos p (by simp)) (hread.no_gap m) hread
  | inv => exact .unary (readsSign_symbol .inv p (by simp)) (hread.no_gap m) hread

theorem paren {x : Expr} (hw : Writable ⟨s, .paren x⟩) (h : x.Rereads indent) :
    Rereads indent ⟨s, .paren x⟩ := by
  intro m level p rest hp _
  obtain ⟨x', c, d, d', text, htext, ho, hread, hskip, hc, hlines⟩ :=
    reads_parenText h (Expr.node s (.paren x)).isMultiline level p hp rest
  apply reads_node hw hp (.paren x') (congrArg Shape.paren hlines)
  rw [spelled_paren, ← htext]
  exact .paren ho hread hskip hc

theorem list {xs : List Expr} (hw : Writable ⟨s, .list xs⟩)
    (h : ∀ x ∈ xs, x.Rereads indent) : Rereads indent ⟨s, .list xs⟩ := by
  intro m level p rest hp _
  obtain ⟨xs', c, d, text, htext, ho, hread, hc, hlines⟩ :=
    reads_bracketText h .square (Expr.node s (.list xs)).isMultiline level p hp rest
  apply reads_node hw hp (.list xs') (congrArg Shape.list hlines)
  rw [spelled_list, ← htext]
  exact .list ho hread hc

theorem call {f : Expr} {xs : List Expr} (hw : Writable ⟨s, .call f xs⟩)
    (hf : f.Rereads indent) (h : ∀ x ∈ xs, x.Rereads indent) :
    Rereads indent ⟨s, .call f xs⟩ := by
  intro m level p rest hp _
  obtain ⟨xs', c, d, text, htext, ho, hread, hc, hlines⟩ := reads_bracketText h .round
    (Expr.node s (.call f xs)).isMultiline level (p.after (f.spelled indent level))
    (line_pos_after hp _) rest
  obtain ⟨w, hpass⟩ := ho.passes
  have hopen : ∃ text', text ++ rest = '(' :: text' := ⟨_, hpass.1⟩
  obtain ⟨text', htext'⟩ := hopen
  obtain ⟨f', hreadf, hlinesf⟩ := hf m level p (text ++ rest) hp
    (htext' ▸ stops_goesOn (by decide))
  refine reads_node hw hp (.call f' xs') ?_ ?_
  · rw [Shape.map, Shape.map, hlines, hlinesf]
  · rw [spelled_call, ← htext, List.append_assoc, Position.after_append]
    refine .call hreadf (.of_stops ?_) ho hread hc
    rw [htext', stops_cons]
    cases m <;> decide

theorem dot {x : Expr} {n : String} (hw : Writable ⟨s, .dot x n⟩)
    (hprimary : x.precedence = .primary) (hliteral : x.shape.isLiteral = false)
    (hname : isName n = true) (h : x.Rereads indent) : Rereads indent ⟨s, .dot x n⟩ := by
  intro m level p rest hp hrest
  have hstop : Stops x.goesOn ('.' :: (n.toList ++ rest)) := by
    rw [stops_cons, goesOn, if_pos ⟨hprimary, hliteral⟩]
    decide
  obtain ⟨x', hread, hlines⟩ := h m level p ('.' :: (n.toList ++ rest)) hp hstop
  have hend := result?_name_text hname ((p.after (x.spelled indent level)).next '.') hrest
  obtain ⟨y, ys, hn, hstart, -⟩ := isWord_iff.1 (isName_iff.1 hname).1
  have hfirst : Stops m.opens (n.toList ++ rest) := by
    rw [hn, List.cons_append, stops_cons]
    exact not_opens_of_beginsOperand (by simp [beginsOperand, hstart]) m
  apply reads_node hw hp (.dot x' n) (congrArg (Shape.dot · n) hlines)
  rw [spelled_dot]
  simp only [List.append_assoc, List.cons_append, Position.after_append, Position.after_cons]
  exact .dot hread (.at_cons (by cases m <;> decide)) ⟨rfl, rfl⟩ (.of_stops hfirst) hend

end Rereads

/-- Grouping and the distance between words keep everything apart that has to be. -/
theorem reads_spelled (indent : Indentation) {e : Expr} (hl : e.Lexical) (hs : e.Separated)
    (hg : e.Grouped) : e.Rereads indent := by
  induction e using induct with
  | step e ih =>
    obtain ⟨hnode, hbelow⟩ := every_iff.1 hl
    obtain ⟨hapart, hbelow'⟩ := every_iff.1 hs
    have ih (c : Expr) (hc : c ∈ e.children) (hgc : c.Grouped) : c.Rereads indent :=
      ih c hc (hbelow c hc) (hbelow' c hc) hgc
    have hw : e.Writable := .inr ⟨hl, hs⟩
    obtain ⟨s, shape⟩ := e
    cases shape with
    | literal t =>
      intro m level p rest hp hrest
      exact reads_node hw hp (.literal t) rfl (.literal (result?_number_text hnode p hrest))
    | string v =>
      intro m level p rest hp _
      exact reads_node hw hp (.string v) rfl (.string (result?_string_quote v p rest))
    | ident n =>
      intro m level p rest hp hrest
      exact reads_node hw hp (.ident n) rfl (.ident (result?_name_text hnode p hrest))
    | binary op l r =>
      obtain ⟨-, -, hlg, hrg⟩ := grouped_binary.1 hg
      exact .binary hw (ih l (by simp [children, Shape.children]) hlg)
        (ih r (by simp [children, Shape.children]) hrg)
    | unary op x =>
      exact .unary hw (ih x (by simp [children, Shape.children]) (grouped_unary.1 hg).2)
    | paren x =>
      exact .paren hw (ih x (by simp [children, Shape.children]) (grouped_paren.1 hg))
    | list xs =>
      exact .list hw fun x hx =>
        ih x (by simpa [children, Shape.children] using hx) (grouped_list.1 hg x hx)
    | call f xs =>
      obtain ⟨-, hfg, hxg⟩ := grouped_call.1 hg
      exact .call hw (ih f (by simp [children, Shape.children]) hfg) fun x hx =>
        ih x (by simp [children, Shape.children, hx]) (hxg x hx)
    | dot x n =>
      obtain ⟨hprimary, hxg⟩ := grouped_dot.1 hg
      exact .dot hw hprimary (by simpa [Shape.isSeparated] using hapart) hnode
        (ih x (by simp [children, Shape.children]) hxg)
    | load m bs => cases hnode

theorem onLines_ident {n : String} {span : Span} (h : span.isMultiline = false) :
    onLines ⟨some span, .ident n⟩ = ⟨none, .ident n⟩ := by
  rw [onLines_eq]
  simp [h, lineSpan, Shape.map]

theorem drawn_ident {n : String} {s : Option Span} : drawn ⟨s, .ident n⟩ = ⟨none, .ident n⟩ := by
  rw [drawn_eq, spreads_of_leaf rfl]
  rfl

theorem result?_binding_text {b : Binding Expr} (h : b.isWritable = true) (p : Position)
    (hp : 0 < p.line) (rest : List Char) :
    Stops Mode.free.opens (bindingText b ++ rest) ∧ ∃ b',
      result? binding ⟨p, bindingText b ++ rest⟩ = some (b', ⟨p.after (bindingText b), rest⟩) ∧
      b'.source.onLines = b.source.drawn ∧ b'.target.onLines = b.target.drawn := by
  obtain ⟨source, target, hs, ht, hname⟩ := isWritable_iff.1 h
  have hsource : b.source.drawn = ⟨none, .ident source⟩ := by
    obtain ⟨⟨s, shape⟩, _⟩ := b
    obtain rfl : shape = .ident source := hs
    exact drawn_ident
  have htarget : b.target.drawn = ⟨none, .ident target⟩ := by
    obtain ⟨_, ⟨s, shape⟩⟩ := b
    obtain rfl : shape = .ident target := ht
    exact drawn_ident
  have hquote (q : Position) (hq : 0 < q.line) :
      (Span.mk q (q.after (quote source.toList))).isMultiline = false := by
    rw [Span.isMultiline_after hq, decide_eq_false (not_mem_quote (.inl rfl) _)]
  have htext : bindingText b = if source = target then quote source.toList
      else target.toList ++ ' ' :: '=' :: ' ' :: quote source.toList := by
    unfold bindingText
    rw [ident?_eq_some.2 hs, ident?_eq_some.2 ht]
  rw [hsource, htarget]
  by_cases heq : source = target
  · subst heq
    rw [htext, if_pos rfl]
    exact ⟨stops_cons.2 (by decide), _,
      result?_binding.2 (.inr ⟨source, result?_string_quote _ _ _, rfl⟩),
      onLines_ident (hquote p hp), onLines_ident (hquote p hp)⟩
  · have hname := hname.resolve_left heq
    obtain ⟨x, xs, hx, hstart, -⟩ := isWord_iff.1 (isName_iff.1 hname).1
    rw [htext, if_neg heq]
    simp only [List.append_assoc, List.cons_append, Position.after_append, Position.after_cons]
    refine ⟨?_, ?_⟩
    · rw [hx, List.cons_append, stops_cons]
      exact not_opens_of_beginsOperand (by simp [beginsOperand, hstart]) .free
    · have hq := line_pos_after (line_pos_after hp target.toList) [' ', '=', ' ']
      have hn : result? name ⟨p, target.toList ++ ' ' :: '=' :: ' ' ::
          (quote source.toList ++ rest)⟩ = some (target, ⟨p.after target.toList,
            ' ' :: '=' :: ' ' :: (quote source.toList ++ rest)⟩) :=
        result?_name_text hname p (stops_cons.2 (by decide))
      have hstring := result?_string_quote source
        ((((p.after target.toList).next ' ').next '=').next ' ') rest
      have hline : (Span.mk p (p.after target.toList)).isMultiline = false := by
        rw [Span.isMultiline_after hp,
          decide_eq_false (newline_not_mem_word (isName_iff.1 hname).1)]
      exact ⟨_, result?_binding.2 (.inl ⟨target, source, _, _, _, _, hn,
        .space (.at_cons (by decide)), ⟨rfl, rfl⟩, .space (.at_cons (by decide)), hstring, rfl⟩),
        onLines_ident (hquote _ hq), onLines_ident hline⟩

theorem run_bindings {between tail : List Char} (hb : ∀ x ∈ between, isBlank x = true)
    (ht : tail = [] ∨ ∃ w, tail = ',' :: w ∧ ∀ x ∈ w, isBlank x = true) (rest : List Char)
    {bs : List (Binding Expr)} (h : ∀ b ∈ bs, b.isWritable = true) (p : Position)
    (hp : 0 < p.line) :
    ∃ bs' c text, text = (bs.flatMap fun b => ',' :: (between ++ bindingText b)) ++ tail ∧
      Stops Mode.free.opens (text ++ ')' :: rest) ∧
      Run (comma *> binding <* gap) ⟨p, text ++ ')' :: rest⟩ bs' c ∧
      ((result? comma c).map Prod.snd).getD c = ⟨p.after text, ')' :: rest⟩ ∧
      (bs'.map fun b => (⟨b.source.onLines, b.target.onLines⟩ : Binding Expr)) =
        bs.map fun b => ⟨b.source.drawn, b.target.drawn⟩ := by
  induction bs generalizing p with
  | nil =>
    rcases ht with rfl | ⟨w, rfl, hw⟩
    · have hcomma (p : Position) : result? comma ⟨p, ')' :: rest⟩ = none :=
        result?_comma_none (by simp)
      refine ⟨[], ⟨p, ')' :: rest⟩, _, rfl, stops_cons.2 (by decide), .stop ?_, ?_, rfl⟩
      · simp only [List.flatMap_nil, List.nil_append, result?_seqLeft, result?_seqRight, hcomma,
          Option.bind_none]
      · rw [hcomma]
        rfl
    · have hcomma : result? comma ⟨p, ',' :: (w ++ ')' :: rest)⟩ =
          some ((), ⟨(p.next ',').after w, ')' :: rest⟩) :=
        result?_opening.2 (.intro (.blanks hw (.at_cons (by decide))))
      have hclosed : Cursor.Passes ⟨(p.next ',').after w, ')' :: rest⟩ [')']
          ⟨((p.next ',').after w).next ')', rest⟩ := ⟨rfl, rfl⟩
      refine ⟨[], ⟨p, ',' :: (w ++ ')' :: rest)⟩, _, rfl, stops_cons.2 (by decide), .stop ?_, ?_,
        rfl⟩
      · simp only [List.flatMap_nil, List.nil_append, List.cons_append, result?_seqLeft,
          result?_seqRight, hcomma, Option.bind_some, result?_binding_of_closed hclosed,
          Option.bind_none]
      · rw [hcomma]
        rfl
  | cons b bs ih =>
    obtain ⟨hwritable, hbs⟩ := List.forall_mem_cons.1 h
    have hline := line_pos_after (line_pos_after hp [',']) between
    obtain ⟨bs', c, text, htext, hstop, hrun, hend, hlines⟩ := ih hbs
      (((p.next ',').after between).after (bindingText b)) (line_pos_after hline _)
    obtain ⟨hfirst, b', hb', hsource, htarget⟩ := result?_binding_text hwritable
      ((p.next ',').after between) hline (text ++ ')' :: rest)
    have hwhole : ((b :: bs).flatMap fun b => ',' :: (between ++ bindingText b)) ++ tail =
        ',' :: (between ++ (bindingText b ++ text)) := by
      simp only [htext, List.flatMap_cons, List.cons_append, List.append_assoc]
    have hcomma : result? comma ⟨p, ',' :: (between ++ (bindingText b ++ (text ++ ')' :: rest)))⟩ =
        some ((), ⟨(p.next ',').after between, bindingText b ++ (text ++ ')' :: rest)⟩) :=
      result?_opening.2 (.intro (.blanks hb (.of_stops hfirst)))
    refine ⟨b' :: bs', c, _, hwhole.symm, stops_cons.2 (by decide), .step ?_ hrun, ?_, ?_⟩
    · have hgap : result? gap ⟨((p.next ',').after between).after (bindingText b),
          text ++ ')' :: rest⟩ = some ((), _) := Mode.Skips.of_stops (m := .free) hstop
      simp only [List.cons_append, List.append_assoc, result?_seqLeft, result?_seqRight, hcomma,
        Option.bind_some, hb', hgap, Option.map_some]
    · rw [hend]
      simp only [Position.after_cons, Position.after_append]
    · simp only [List.map_cons, hsource, htarget, hlines]

theorem result?_load_text (indent : Indentation) {e : Expr} (h : e.isLoad = true) (level : Nat)
    (p : Position) (hp : 0 < p.line) (rest : List Char) :
    ∃ e', result? load ⟨p, e.spelled indent level ++ rest⟩ =
        some (e', ⟨p.after (e.spelled indent level), rest⟩) ∧ e'.onLines = e.drawn := by
  have hw : e.Writable := .inl h
  obtain ⟨origin, value, bindings, hshape, hvalue, hall⟩ := isLoad_iff.1 h
  obtain ⟨s, shape⟩ := e
  obtain rfl : shape = .load origin bindings := hshape
  obtain ⟨lead, between, tail, inner, hlead, hbetween, htail, htext⟩ :=
    Layout.bracketText_form indent .round (fun _ => quote value.toList)
      (bindings.map fun b _ => bindingText b) (Expr.node s (.load origin bindings)).isMultiline
      level
  have hstart : 0 < (((p.after "load".toList).next '(').after lead).line :=
    line_pos_after (line_pos_after hp "load".toList) ('(' :: lead)
  obtain ⟨bs', c, text, heq, hstop, hrun, hend, hlines⟩ := run_bindings hbetween htail rest hall
    ((((p.after "load".toList).next '(').after lead).after (quote value.toList))
    (line_pos_after hstart _)
  have hwhole : spelled indent ⟨s, .load origin bindings⟩ level =
      "load".toList ++ '(' :: (lead ++ (quote value.toList ++ (text ++ [')']))) := by
    rw [spelled_load, string?_eq_some.2 hvalue, Option.getD_some, htext, heq, List.flatMap_map]
    simp only [Bracket.opening, Bracket.closing, List.append_assoc]
  have hstring := result?_string_quote value (((p.after "load".toList).next '(').after lead)
    (text ++ ')' :: rest)
  have hquote : (Span.mk (((p.after "load".toList).next '(').after lead)
      ((((p.after "load".toList).next '(').after lead).after (quote value.toList))).isMultiline =
        false := by
    rw [Span.isMultiline_after hstart, decide_eq_false (not_mem_quote (.inl rfl) _)]
  have horigin : origin.drawn = ⟨none, .string value⟩ := by
    obtain ⟨s, shape⟩ := origin
    obtain rfl : shape = .string value := hvalue
    rw [drawn_eq, spreads_of_leaf rfl]
    rfl
  refine ⟨_, result?_load.2 ⟨value, Span.mk (((p.after "load".toList).next '(').after lead)
    ((((p.after "load".toList).next '(').after lead).after (quote value.toList)), bs', ?_, rfl⟩,
    onLines_node hw hp level ?_⟩
  · rw [hwhole]
    simp only [List.append_assoc, List.cons_append, Position.after_append, Position.after_cons]
    exact ⟨_, _, _, _, _, c, _, ⟨rfl, rfl⟩, stops_cons.2 (by decide), .at_cons (by decide),
      .intro (.blanks hlead (.at_cons (by decide))), hstring, rfl, .of_stops hstop, hrun, hend,
      ⟨rfl, rfl⟩⟩
  · rw [Shape.map, Shape.map, hlines, horigin, onLines_eq]
    simp only [nodeAt, Option.any_some, hquote]
    rfl

end Expr
end BuildScript
