import BuildScript.Proofs.Expr.Balance
import BuildScript.Proofs.Expr.Strip
import BuildScript.Proofs.Parse.Symbol

/-!
The marks of a tree. They show where it has its parentheses, once it is known what the tree is
without them (`distinct_of_lexical`). They do not show how its words are divided: `-1.x` and
`-(1 .x)` differ in round brackets only.
-/
namespace BuildScript
open Mark Lexeme

def Shape.marks : Shape (List Mark) → List Mark
  | literal t | ident t => ofWord t.toList
  | string v => [.text v]
  | binary op l r => l ++ (ofWord op.symbol.toList ++ r)
  | unary op x => ofWord op.symbol.toList ++ x
  | paren x => .char '(' :: (x ++ [.char ')'])
  | list xs => .char '[' :: (commas xs ++ [.char ']'])
  | call f xs => f ++ .char '(' :: (commas xs ++ [.char ')'])
  | dot x n => x ++ .char '.' :: ofWord n.toList
  | load _ _ => []

theorem Shape.core_marks (s : Shape (List Mark)) : core (s.map core).marks = core s.marks := by
  cases s with
  | binary op l r => simp only [map, marks, core_append, core_core]
  | unary op x => simp only [map, marks, core_append, core_core]
  | paren x => simp only [map, marks, core_cons _ (_ ++ _), core_append, core_core]
  | list xs => simp only [map, marks, core_cons _ (_ ++ _), core_append, core_commas]
  | call f xs =>
    simp only [map, marks, core_append, core_cons _ (_ ++ _), core_core, core_commas]
  | dot x n => simp only [map, marks, core_append, core_core]
  | _ => rfl

def Mark.begins : Mark → Bool
  | char x => beginsOperand x
  | text _ => true

theorem ofWord_begins {x : Char} (h : beginsOperand x = true) (w : List Char) :
    ofWord (x :: w) = .char x :: ofWord w := by
  have hopens := not_opens_of_beginsOperand h .free
  simp only [Mode.opens, Bool.or_eq_false_iff] at hopens
  exact ofWord_cons hopens.1.1 w

theorem ofWord_plain {w : List Char} (h : ∀ x ∈ w, isNumberChar x = true) :
    ∀ m ∈ ofWord w, m.isRound = false := by
  intro m hm
  obtain ⟨x, hx, rfl⟩ := List.mem_map.1 hm
  have hx := h x (List.mem_filter.1 hx).1
  have hopen : x ≠ '(' := by
    rintro rfl
    exact absurd hx (by decide)
  have hclose : x ≠ ')' := by
    rintro rfl
    exact absurd hx (by decide)
  simp [isRound, hopen, hclose]

theorem ofWord_lexeme {t : String} (h : isNumber t = true ∨ isName t = true) :
    (∃ x w, ofWord t.toList = .char x :: w ∧ beginsOperand x = true) ∧
      ∀ m ∈ ofWord t.toList, m.isRound = false := by
  rcases h with h | h
  · obtain ⟨x, w, ht, hx, hw⟩ := isNumber_iff.1 h
    have hb : beginsOperand x = true := by simp [beginsOperand, hx]
    rw [ht]
    exact ⟨⟨x, _, ofWord_begins hb w, hb⟩,
      ofWord_plain (List.forall_mem_cons.2 ⟨isNumberChar_of_digit hx, hw⟩)⟩
  · obtain ⟨x, w, ht, hx, hw⟩ := isWord_iff.1 (isName_iff.1 h).1
    have hb : beginsOperand x = true := by simp [beginsOperand, hx]
    rw [ht]
    exact ⟨⟨x, _, ofWord_begins hb w, hb⟩, ofWord_plain (List.forall_mem_cons.2
      ⟨isNumberChar_of_nameChar (isNameChar_of_start hx),
        fun y hy => isNumberChar_of_nameChar (hw y hy)⟩)⟩

theorem ofWord_symbol (op : BinaryOp) :
    ∃ m ms, ofWord op.symbol.toList = m :: ms ∧ ∀ k ∈ m :: ms, k.isRound = false := by
  cases op <;> exact ⟨_, _, rfl, by decide⟩

theorem ofWord_sign (op : UnaryOp) : ∃ m ms, ofWord op.symbol.toList = m :: ms ∧
    m.begins = true ∧ ∀ k ∈ m :: ms, k.isRound = false := by
  cases op <;> exact ⟨_, _, rfl, by decide, by decide⟩

namespace Expr

def marks : Expr → List Mark := fold fun _ below => below.marks

theorem marks_eq (e : Expr) : e.marks = (e.shape.map marks).marks := fold_eq _ e

section Constructors
variable {s : Option Span}

theorem marks_binary {op : BinaryOp} {l r : Expr} : marks ⟨s, .binary op l r⟩ =
    l.marks ++ (ofWord op.symbol.toList ++ r.marks) := rfl

theorem marks_unary {op : UnaryOp} {x : Expr} : marks ⟨s, .unary op x⟩ =
    ofWord op.symbol.toList ++ x.marks := rfl

theorem marks_paren {x : Expr} : marks ⟨s, .paren x⟩ = .char '(' :: (x.marks ++ [.char ')']) := rfl

theorem marks_list {xs : List Expr} : marks ⟨s, .list xs⟩ =
    .char '[' :: (commas (xs.map marks) ++ [.char ']']) := marks_eq _

theorem marks_call {f : Expr} {xs : List Expr} : marks ⟨s, .call f xs⟩ =
    f.marks ++ .char '(' :: (commas (xs.map marks) ++ [.char ')']) := marks_eq _

theorem marks_dot {x : Expr} {n : String} : marks ⟨s, .dot x n⟩ =
    x.marks ++ .char '.' :: ofWord n.toList := rfl

end Constructors

theorem marks_eraseSpans (e : Expr) : e.eraseSpans.marks = e.marks := by
  induction e using induct with
  | step e ih =>
    rw [marks_eq, eraseSpans_eq, marks_eq e, Shape.map_map]
    exact congrArg _ (Shape.map_congr ih)

theorem core_marks_strip (e : Expr) : core e.strip.marks = core e.marks := by
  induction e using induct with
  | step e ih =>
    rcases paren_or_strip e with ⟨s, x, rfl⟩ | ⟨-, hstrip⟩
    · have hx := ih x (by simp [children, Shape.children])
      show core x.strip.marks = core (.char '(' :: (x.marks ++ [.char ')']))
      rw [hx, core_cons, core_append]
      exact (List.append_nil _).symm
    · rw [hstrip, marks_eq, marks_eq e, Shape.map_map, ← Shape.core_marks,
        ← Shape.core_marks (e.shape.map marks), Shape.map_map, Shape.map_map]
      exact congrArg _ (congrArg _ (Shape.map_congr ih))

theorem core_marks_congr {a b : Expr} (h : a.strip.eraseSpans = b.strip.eraseSpans) :
    core a.marks = core b.marks := by
  rw [← core_marks_strip, ← core_marks_strip b, ← marks_eraseSpans, h, marks_eraseSpans]

theorem balanced_marks {e : Expr} (h : e.Lexical) : Balanced e.marks := by
  induction e using induct with
  | step e ih =>
    obtain ⟨hnode, hbelow⟩ := every_iff.1 h
    have ih (c : Expr) (hc : c ∈ e.children) : Balanced c.marks := ih c hc (hbelow c hc)
    obtain ⟨s, shape⟩ := e
    rw [marks_eq]
    cases shape with
    | literal t => exact .of_plain (ofWord_lexeme (.inl hnode)).2
    | string v => exact .of_plain (List.forall_mem_singleton.2 rfl)
    | ident n => exact .of_plain (ofWord_lexeme (.inr hnode)).2
    | binary op l r =>
      obtain ⟨m, ms, hop, hplain⟩ := ofWord_symbol op
      exact (ih l (by simp [children, Shape.children])).append
        (.append (.of_plain (hop ▸ hplain)) (ih r (by simp [children, Shape.children])))
    | unary op x =>
      obtain ⟨m, ms, hop, -, hplain⟩ := ofWord_sign op
      exact .append (.of_plain (hop ▸ hplain)) (ih x (by simp [children, Shape.children]))
    | paren x => exact (ih x (by simp [children, Shape.children])).wrap
    | list xs =>
      refine .cons rfl (.append (.commas fun item hitem => ?_) (.of_plain (by decide)))
      obtain ⟨x, hx, rfl⟩ := List.mem_map.1 hitem
      exact ih x hx
    | call f xs =>
      refine (ih f (by simp [children, Shape.children])).append
        (.wrap (.commas fun item hitem => ?_))
      obtain ⟨x, hx, rfl⟩ := List.mem_map.1 hitem
      exact ih x (by simp [children, Shape.children, hx])
    | dot x n =>
      exact (ih x (by simp [children, Shape.children])).append
        (.cons rfl (.of_plain (ofWord_lexeme (.inr hnode)).2))
    | load m bs => cases hnode

theorem marks_begins {e : Expr} (h : e.Lexical) : ∃ m ms, e.marks = m :: ms ∧ m.begins = true := by
  induction e using induct with
  | step e ih =>
    obtain ⟨hnode, hbelow⟩ := every_iff.1 h
    have ih (c : Expr) (hc : c ∈ e.children) (ks : List Mark) :
        ∃ m ms, c.marks ++ ks = m :: ms ∧ m.begins = true := by
      obtain ⟨m, ms, hms, hm⟩ := ih c hc (hbelow c hc)
      exact ⟨m, ms ++ ks, by rw [hms, List.cons_append], hm⟩
    obtain ⟨s, shape⟩ := e
    rw [marks_eq]
    cases shape with
    | literal t =>
      obtain ⟨⟨x, w, ht, hx⟩, -⟩ := ofWord_lexeme (.inl hnode)
      exact ⟨_, _, ht, hx⟩
    | string v => exact ⟨_, _, rfl, rfl⟩
    | ident n =>
      obtain ⟨⟨x, w, hn, hx⟩, -⟩ := ofWord_lexeme (.inr hnode)
      exact ⟨_, _, hn, hx⟩
    | binary op l r => exact ih l (by simp [children, Shape.children]) _
    | unary op x =>
      obtain ⟨m, ms, hop, hm, -⟩ := ofWord_sign op
      exact ⟨m, ms ++ x.marks, congrArg (· ++ x.marks) hop, hm⟩
    | paren x => exact ⟨_, _, rfl, by decide⟩
    | list xs => exact ⟨_, _, rfl, by decide⟩
    | call f xs => exact ih f (by simp [children, Shape.children]) _
    | dot x n => exact ih x (by simp [children, Shape.children]) _
    | load m bs => cases hnode

theorem commas_begins {x : Expr} (h : x.Lexical) (xs : List Expr) :
    ∃ m ms, commas ((x :: xs).map marks) = m :: ms ∧ m.begins = true := by
  obtain ⟨m, ms, hms, hm⟩ := marks_begins h
  rw [List.map_cons, commas, hms]
  exact ⟨m, _, rfl, hm⟩

theorem marks_ne_nil {e : Expr} (h : e.Lexical) : e.marks ≠ [] := by
  obtain ⟨m, ms, hms, -⟩ := marks_begins h
  rw [hms]
  exact List.cons_ne_nil _ _

theorem marks_ne_wrapped {e : Expr} (h : e.Lexical) (hp : e.shape.isParen = false) {ms : List Mark}
    (hms : Balanced ms) : e.marks ≠ .char '(' :: (ms ++ [.char ')']) := by
  obtain ⟨hnode, hbelow⟩ := every_iff.1 h
  -- A first child leaves a balanced row of marks, with more marks behind it.
  have first {c : Expr} (hc : c ∈ e.children) {m : Mark} {ks : List Mark} :
      c.marks ++ m :: ks ≠ .char '(' :: (ms ++ [.char ')']) := by
    intro heq
    have := hms.wrap_open (marks_ne_nil (hbelow c hc)) (List.cons_ne_nil m ks) heq.symm
    have := (balanced_marks (hbelow c hc)).total
    omega
  have plain {m : Mark} {ks : List Mark} (hm : m.isRound = false) :
      m :: ks ≠ .char '(' :: (ms ++ [.char ')']) := by
    intro heq
    obtain ⟨rfl, -⟩ := List.cons.inj heq
    cases hm
  obtain ⟨s, shape⟩ := e
  rw [marks_eq]
  cases shape with
  | literal t =>
    obtain ⟨⟨x, w, ht, -⟩, hplain⟩ := ofWord_lexeme (.inl hnode)
    show ofWord t.toList ≠ _
    rw [ht] at hplain ⊢
    exact plain (hplain _ (List.mem_cons_self ..))
  | string v => exact plain rfl
  | ident n =>
    obtain ⟨⟨x, w, hn, -⟩, hplain⟩ := ofWord_lexeme (.inr hnode)
    show ofWord n.toList ≠ _
    rw [hn] at hplain ⊢
    exact plain (hplain _ (List.mem_cons_self ..))
  | binary op l r =>
    obtain ⟨m, ks, hop, -⟩ := ofWord_symbol op
    show l.marks ++ (ofWord op.symbol.toList ++ r.marks) ≠ _
    rw [hop, List.cons_append]
    exact first (by simp [children, Shape.children])
  | unary op x =>
    obtain ⟨m, ks, hop, -, hplain⟩ := ofWord_sign op
    show ofWord op.symbol.toList ++ x.marks ≠ _
    rw [hop, List.cons_append]
    exact plain (hplain _ (List.mem_cons_self ..))
  | paren x => cases hp
  | list xs => exact plain rfl
  | call f xs => exact first (by simp [children, Shape.children])
  | dot x n => exact first (by simp [children, Shape.children])
  | load m bs => cases hnode

/-- The tree is told by its marks from all that differ from it in parentheses alone. -/
def Distinct (x : Expr) : Prop :=
  ∀ y : Expr, y.Lexical → x.strip.eraseSpans = y.strip.eraseSpans → x.marks = y.marks →
    x.eraseSpans = y.eraseSpans

theorem items_of_marks_eq {xs ys : List Expr} (hx : ∀ x ∈ xs, x.Distinct)
    (hy : ∀ y ∈ ys, y.Lexical)
    (hstrip : (xs.map fun x => x.strip.eraseSpans) = ys.map fun y => y.strip.eraseSpans)
    (hmarks : commas (xs.map marks) = commas (ys.map marks)) :
    xs.map eraseSpans = ys.map eraseSpans := by
  induction xs generalizing ys with
  | nil =>
    obtain rfl := List.map_eq_nil_iff.1 hstrip.symm
    rfl
  | cons x xs ih =>
    cases ys with
    | nil => cases hstrip
    | cons y ys =>
      obtain ⟨hx, hxs⟩ := List.forall_mem_cons.1 hx
      obtain ⟨hy, hys⟩ := List.forall_mem_cons.1 hy
      rw [List.map_cons, List.map_cons, List.cons.injEq] at hstrip
      obtain ⟨hstrip, hstrips⟩ := hstrip
      have hsplit : x.marks = y.marks ∧ commas (xs.map marks) = commas (ys.map marks) := by
        cases xs with
        | nil =>
          obtain rfl := List.map_eq_nil_iff.1 hstrips.symm
          simpa [commas] using hmarks
        | cons x' xs =>
          cases ys with
          | nil => cases hstrips
          | cons y' ys =>
            simp only [List.map_cons, commas_cons_cons] at hmarks ⊢
            have hfirst := append_cons_inj rfl (core_marks_congr hstrip) hmarks
            rw [hfirst, List.append_cancel_left_eq] at hmarks
            exact ⟨hfirst, (List.cons.inj hmarks).2⟩
      rw [List.map_cons, List.map_cons, hx y hy hstrip hsplit.1, ih hxs hys hstrips hsplit.2]

theorem shape_of_marks_eq {s t : Shape Expr} (hl : s.isLexical = true) (hp : s.isParen = false)
    (hs : ∀ x ∈ s.children, x.Lexical) (hx : ∀ x ∈ s.children, x.Distinct)
    (ht : ∀ y ∈ t.children, y.Lexical)
    (hstrip : (s.map fun x => x.strip.eraseSpans) = t.map fun y => y.strip.eraseSpans)
    (hmarks : (s.map marks).marks = (t.map marks).marks) :
    s.map eraseSpans = t.map eraseSpans := by
  cases s with
  | literal k => cases t <;> simp_all [Shape.map]
  | string v => cases t <;> simp_all [Shape.map]
  | ident n => cases t <;> simp_all [Shape.map]
  | binary op l r =>
    cases t <;> simp only [Shape.map, reduceCtorEq, Shape.binary.injEq] at hstrip
    case binary op' l' r' =>
      simp only [Shape.children, List.forall_mem_cons] at hx ht
      obtain ⟨rfl, hl, hr⟩ := hstrip
      obtain ⟨m, ms, hop, hplain⟩ := ofWord_symbol op
      simp only [Shape.map, Shape.marks, hop, List.cons_append] at hmarks
      have hleft := append_cons_inj (hplain m (List.mem_cons_self ..)) (core_marks_congr hl) hmarks
      rw [hleft, List.append_cancel_left_eq, List.cons.injEq, List.append_cancel_left_eq] at hmarks
      rw [Shape.map, Shape.map, hx.1 l' ht.1 hl hleft, hx.2.1 r' ht.2.1 hr hmarks.2]
  | unary op x =>
    cases t <;> simp only [Shape.map, reduceCtorEq, Shape.unary.injEq] at hstrip
    case unary op' x' =>
      simp only [Shape.children, List.forall_mem_singleton] at hx ht
      obtain ⟨rfl, hstrip⟩ := hstrip
      simp only [Shape.map, Shape.marks, List.append_cancel_left_eq] at hmarks
      rw [Shape.map, Shape.map, hx x' ht hstrip hmarks]
  | paren x => cases hp
  | list xs =>
    cases t <;> simp only [Shape.map, reduceCtorEq, Shape.list.injEq] at hstrip
    case list ys =>
      simp only [Shape.map, Shape.marks, List.cons.injEq, List.append_cancel_right_eq,
        true_and] at hmarks
      exact congrArg Shape.list (items_of_marks_eq hx ht hstrip hmarks)
  | call f xs =>
    cases t <;> simp only [Shape.map, reduceCtorEq, Shape.call.injEq] at hstrip
    case call g ys =>
      simp only [Shape.children, List.forall_mem_cons] at hs hx ht
      obtain ⟨hf, hargs⟩ := hstrip
      have items {zs : List Expr} (hz : ∀ z ∈ zs, z.Lexical) :
          Balanced (commas (zs.map marks)) := by
        refine .commas fun item hitem => ?_
        obtain ⟨z, hmem, rfl⟩ := List.mem_map.1 hitem
        exact balanced_marks (hz z hmem)
      simp only [Shape.map, Shape.marks] at hmarks
      have hcallee := Balanced.append_wrap_inj (balanced_marks hs.1) (balanced_marks ht.1)
        (items hs.2) (items ht.2) hmarks
      rw [hcallee, List.append_cancel_left_eq, List.cons.injEq, List.append_cancel_right_eq]
        at hmarks
      rw [Shape.map, Shape.map, hx.1 g ht.1 hf hcallee,
        items_of_marks_eq hx.2 ht.2 hargs hmarks.2]
  | dot x n =>
    cases t <;> simp only [Shape.map, reduceCtorEq, Shape.dot.injEq] at hstrip
    case dot x' n' =>
      simp only [Shape.children, List.forall_mem_singleton] at hx ht
      obtain ⟨hstrip, rfl⟩ := hstrip
      simp only [Shape.map, Shape.marks, List.append_cancel_right_eq] at hmarks
      rw [Shape.map, Shape.map, hx x' ht hstrip hmarks]
  | load m bs => cases hl

/-- A tree is known from what it is without parentheses, and its marks. -/
theorem distinct_of_lexical {a : Expr} (ha : a.Lexical) : a.Distinct := by
  induction a using induct with
  | step a ih =>
    intro b hb hstrip hmarks
    obtain ⟨hnode, hbelow⟩ := every_iff.1 ha
    rcases paren_or_strip a with ⟨s, x, rfl⟩ | ⟨hpa, hself⟩
    · have hx : x.Lexical := hbelow x (by simp [children, Shape.children])
      rcases paren_or_strip b with ⟨s', y, rfl⟩ | ⟨hpb, -⟩
      · have hy : y.Lexical := (every_paren.1 hb).2
        rw [marks_eq, marks_eq ⟨s', .paren y⟩] at hmarks
        have hinner : x.marks = y.marks :=
          List.append_cancel_right (List.cons.inj hmarks).2
        rw [eraseSpans_eq, eraseSpans_eq ⟨s', .paren y⟩]
        exact congrArg (fun z => (⟨none, .paren z⟩ : Expr))
          (ih x (by simp [children, Shape.children]) hx y hy hstrip hinner)
      · exact absurd hmarks.symm (marks_ne_wrapped hb hpb (balanced_marks hx))
    · rcases paren_or_strip b with ⟨s', y, rfl⟩ | ⟨hpb, hself'⟩
      · exact absurd hmarks (marks_ne_wrapped ha hpa (balanced_marks (every_paren.1 hb).2))
      · have hshape : (a.shape.map fun x => x.strip.eraseSpans) =
            b.shape.map fun y => y.strip.eraseSpans := by
          rw [hself, hself', eraseSpans_eq, eraseSpans_eq ⟨b.span, _⟩, Shape.map_map,
            Shape.map_map] at hstrip
          exact congrArg Expr.shape hstrip
        rw [marks_eq, marks_eq b] at hmarks
        rw [eraseSpans_eq, eraseSpans_eq b, shape_of_marks_eq hnode hpa hbelow
          (fun c hc => ih c hc (hbelow c hc)) (every_iff.1 hb).2 hshape hmarks]

end Expr
end BuildScript
