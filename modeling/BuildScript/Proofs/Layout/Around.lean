import BuildScript.Proofs.Expr.Place
import BuildScript.Proofs.Layout.Spelled

/-!
The text around a node. What is put in a place is spelled out at a level that the place alone
decides, between two texts that do not depend on it either (`spelled_put?`).
-/
namespace BuildScript

namespace Layout
variable (indent : Indentation)

theorem inlineText_around (as bs : List (List Char)) : ∃ before after,
    ∀ text, inlineText (as ++ text :: bs) = before ++ text ++ after := by
  cases as with
  | nil => exact ⟨[], _, fun text => by rw [List.nil_append, inlineText_cons, List.nil_append]⟩
  | cons a as =>
    refine ⟨a ++ (as.flatMap fun text => ',' :: ' ' :: text) ++ [',', ' '],
      bs.flatMap fun text => ',' :: ' ' :: text, fun text => ?_⟩
    rw [List.cons_append, inlineText_cons, List.flatMap_append, List.flatMap_cons]
    simp only [List.append_assoc, List.cons_append, List.nil_append]

theorem bracketText_around (bracket : Bracket) (as bs : List (Nat → List Char))
    (broken trailing : Bool) (level : Nat) : ∃ before after inner, ∀ item : Nat → List Char,
      bracketText indent bracket (as ++ item :: bs) broken trailing level =
        before ++ item inner ++ after := by
  cases broken with
  | true =>
    refine ⟨bracket.opening :: linesText indent (level + 1) trailing
        (as.map fun item => item (level + 1)) ++ '\n' :: indent.margin (level + 1),
      (if trailing then [','] else []) ++ linesText indent (level + 1) trailing
        (bs.map fun item => item (level + 1)) ++ '\n' :: indent.margin level ++ [bracket.closing],
      level + 1, fun item => ?_⟩
    have hne : (as ++ item :: bs).isEmpty = false := by cases as <;> rfl
    rw [bracketText, hne, if_pos (by decide), linesText, List.map_append, List.map_cons,
      List.flatMap_append, List.flatMap_cons]
    simp only [linesText, List.append_assoc, List.cons_append]
  | false =>
    obtain ⟨before, after, h⟩ := inlineText_around (as.map fun item => item level)
      (bs.map fun item => item level)
    refine ⟨bracket.opening :: before, after ++ [bracket.closing], level, fun item => ?_⟩
    rw [bracketText, if_neg (by simp), List.map_append, List.map_cons, h]
    simp only [List.append_assoc, List.cons_append]

end Layout

namespace Expr
variable (indent : Indentation)

theorem bracketText_put {xs : List Expr} {c : Expr} {i : Nat} (h : xs[i]? = some c)
    (bracket : Bracket) (broken : Bool) (level : Nat) : ∃ before after inner, ∀ y,
      Layout.bracketText indent bracket
        ((xs.mapIdx fun j z => if j = i then y else z).map (spelled indent)) broken true level =
          before ++ y.spelled indent inner ++ after := by
  obtain ⟨before, after, inner, htext⟩ := Layout.bracketText_around indent bracket
    ((xs.take i).map (spelled indent)) ((xs.drop (i + 1)).map (spelled indent)) broken true level
  refine ⟨before, after, inner, fun y => ?_⟩
  have hset : (xs.mapIdx fun j z => if j = i then y else z) =
      xs.take i ++ y :: xs.drop (i + 1) := by
    rw [← Shape.set_eq_mapIdx (f := fun _ => y) h rfl,
      List.set_eq_take_append_cons_drop, if_pos (List.getElem?_eq_some_iff.1 h).1]
  rw [hset, List.map_append, List.map_cons, htext]

theorem spelled_withChild {e c : Expr} (h : e.shape.isLexical = true) {i : Nat}
    (hc : e.child? i = some c) (level : Nat) : ∃ before after inner, ∀ y,
      (e.withChild i y).spelled indent level = before ++ y.spelled indent inner ++ after := by
  obtain ⟨s, shape⟩ := e
  cases shape with
  | literal t => cases hc
  | string v => cases hc
  | ident n => cases hc
  | binary op l r =>
    rcases i with _ | _ | i
    · exact ⟨[], ' ' :: op.symbol.toList ++ ' ' :: r.spelled indent level, level, fun y => by
        show spelled indent ⟨s, .binary op y r⟩ level = _
        rw [spelled_binary, List.nil_append, List.append_assoc]⟩
    · refine ⟨l.spelled indent level ++ ' ' :: op.symbol.toList ++ [' '], [], level, fun y => ?_⟩
      show spelled indent ⟨s, .binary op l y⟩ level = _
      rw [spelled_binary]
      simp only [List.append_assoc, List.cons_append, List.nil_append, List.append_nil]
    · cases hc
  | unary op x =>
    cases i with
    | zero =>
      refine ⟨(Layout.signText op).toList, [], level, fun y => ?_⟩
      rw [List.append_nil]
      rfl
    | succ i => cases hc
  | paren x =>
    cases i with
    | zero =>
      obtain ⟨before, after, inner, htext⟩ := Layout.bracketText_around indent .round [] []
        (Expr.node s (.paren x)).isMultiline false level
      exact ⟨before, after, inner, fun y => htext (y.spelled indent)⟩
    | succ i => cases hc
  | list xs =>
    obtain ⟨before, after, inner, htext⟩ := bracketText_put indent hc .square
      (Expr.node s (.list xs)).isMultiline level
    refine ⟨before, after, inner, fun y => ?_⟩
    rw [← htext y]
    exact spelled_list indent
  | call f xs =>
    cases i with
    | zero =>
      refine ⟨[], Layout.bracketText indent .round (xs.map (spelled indent))
        (Expr.node s (.call f xs)).isMultiline true level, level, fun y => ?_⟩
      have hargs : (xs.mapIdx fun j z => if j + 1 = 0 then y else z) = xs := by
        simp [List.mapIdx_eq_zipIdx_map]
      show spelled indent ⟨s, .call y (xs.mapIdx fun j z => if j + 1 = 0 then y else z)⟩ level = _
      rw [hargs, spelled_call]
      rfl
    | succ i =>
      obtain ⟨before, after, inner, htext⟩ := bracketText_put indent (i := i) hc .round
        (Expr.node s (.call f xs)).isMultiline level
      refine ⟨f.spelled indent level ++ before, after, inner, fun y => ?_⟩
      rw [List.append_assoc, List.append_assoc, ← List.append_assoc before, ← htext y]
      show spelled indent ⟨s, .call f (xs.mapIdx fun j z => if j + 1 = i + 1 then y else z)⟩ level
        = _
      simp only [Nat.add_right_cancel_iff]
      exact spelled_call indent
  | dot x n =>
    cases i with
    | zero => exact ⟨[], '.' :: n.toList, level, fun y => rfl⟩
    | succ i => cases hc
  | load m bs => cases h

theorem spelled_put? {e x : Expr} {path : Path} (h : e.Lexical) (hx : e.at? path = some x)
    (level : Nat) : ∃ before after inner, ∀ y t, e.put? path y = some t →
      t.spelled indent level = before ++ y.spelled indent inner ++ after := by
  induction path generalizing e level with
  | nil =>
    refine ⟨[], [], level, fun y t ht => ?_⟩
    cases ht
    rw [List.append_nil]
    rfl
  | cons i path ih =>
    rw [at?_cons, Option.bind_eq_some_iff] at hx
    obtain ⟨c, hc, hx⟩ := hx
    obtain ⟨hnode, hbelow⟩ := every_iff.1 h
    obtain ⟨before, after, inner, htext⟩ := spelled_withChild indent hnode hc level
    obtain ⟨before', after', inner', htext'⟩ :=
      ih (hbelow c (Shape.mem_children.2 ⟨i, hc⟩)) hx inner
    refine ⟨before ++ before', after' ++ after, inner', fun y t ht => ?_⟩
    obtain ⟨c₁, c', hc₁, hput, rfl⟩ := put?_cons_eq_some.1 ht
    obtain rfl := Option.some.inj (hc.symm.trans hc₁)
    rw [htext, htext' y c' hput]
    simp only [List.append_assoc]

end Expr
end BuildScript
