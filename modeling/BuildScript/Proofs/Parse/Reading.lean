import BuildScript.Parse.Grammar
import BuildScript.Proofs.Parse.Quoted
import BuildScript.Proofs.Parse.Symbol

/-!
What it means that an expression stands in a text: the grammar without its levels. A node reaches
from its first character to its last one, gaps lie between its words, and inside of brackets lines
do not matter. How operands have to be grouped is no part of this.
-/
namespace BuildScript.Grammar
open BuildScript.Parser Lexeme

def Opens (x : Char) (c d : Cursor) : Prop :=
  ∃ e, c.Passes [x] e ∧ Mode.free.Skips e d

def ReadsSign (op : UnaryOp) (c d : Cursor) : Prop :=
  c.Passes op.symbol.toList d ∧ (op = .not → Stops isNameChar d.rest)

mutual
/-- The expression stands in the text from the one cursor to the other, read in the given mode. -/
inductive Reads : Mode → Expr → Cursor → Cursor → Prop
  | literal {m : Mode} {t : String} {c d : Cursor} (h : result? number c = some (t, d)) :
    Reads m ⟨some (c.span d), .literal t⟩ c d
  | string {m : Mode} {v : String} {c d : Cursor} (h : result? Lexeme.string c = some (v, d)) :
    Reads m ⟨some (c.span d), .string v⟩ c d
  | ident {m : Mode} {n : String} {c d : Cursor} (h : result? name c = some (n, d)) :
    Reads m ⟨some (c.span d), .ident n⟩ c d
  | paren {m : Mode} {x : Expr} {c c₁ c₂ c₃ d : Cursor} (ho : Opens '(' c c₁)
    (hx : Reads .free x c₁ c₂) (hg : Mode.free.Skips c₂ c₃) (hc : c₃.Passes [')'] d) :
    Reads m ⟨some (c.span d), .paren x⟩ c d
  | list {m : Mode} {xs : List Expr} {c c₁ c₂ d : Cursor} (ho : Opens '[' c c₁)
    (hx : ReadsItems xs c₁ c₂) (hc : c₂.Passes [']'] d) :
    Reads m ⟨some (c.span d), .list xs⟩ c d
  | call {m : Mode} {f : Expr} {xs : List Expr} {c c₁ c₂ c₃ c₄ d : Cursor} (hf : Reads m f c c₁)
    (hg : m.Skips c₁ c₂) (ho : Opens '(' c₂ c₃) (hx : ReadsItems xs c₃ c₄)
    (hc : c₄.Passes [')'] d) : Reads m ⟨some (c.span d), .call f xs⟩ c d
  | dot {m : Mode} {x : Expr} {n : String} {c c₁ c₂ c₃ c₄ d : Cursor} (hx : Reads m x c c₁)
    (hg : m.Skips c₁ c₂) (hd : c₂.Passes ['.'] c₃) (hg' : m.Skips c₃ c₄)
    (hn : result? name c₄ = some (n, d)) : Reads m ⟨some (c.span d), .dot x n⟩ c d
  | unary {m : Mode} {op : UnaryOp} {x : Expr} {c c₁ c₂ d : Cursor} (hs : ReadsSign op c c₁)
    (hg : m.Skips c₁ c₂) (hx : Reads m x c₂ d) : Reads m ⟨some (c.span d), .unary op x⟩ c d
  | binary {m : Mode} {op : BinaryOp} {l r : Expr} {c c₁ c₂ c₃ c₄ d : Cursor}
    (hl : Reads m l c c₁) (hg : m.Skips c₁ c₂) (hs : ReadsSymbol op c₂ c₃)
    (hg' : m.Skips c₃ c₄) (hr : Reads m r c₄ d) :
    Reads m ⟨some (c.span d), .binary op l r⟩ c d

inductive ReadsItems : List Expr → Cursor → Cursor → Prop
  | nil {c : Cursor} : ReadsItems [] c c
  | last {x : Expr} {c c₁ d : Cursor} (hx : Reads .free x c c₁) (hg : Mode.free.Skips c₁ d) :
    ReadsItems [x] c d
  | comma {x : Expr} {c c₁ c₂ d : Cursor} (hx : Reads .free x c c₁)
    (hg : Mode.free.Skips c₁ c₂) (hc : Opens ',' c₂ d) : ReadsItems [x] c d
  | cons {x y : Expr} {ys : List Expr} {c c₁ c₂ c₃ d : Cursor} (hx : Reads .free x c c₁)
    (hg : Mode.free.Skips c₁ c₂) (hc : Opens ',' c₂ c₃) (h : ReadsItems (y :: ys) c₃ d) :
    ReadsItems (x :: y :: ys) c d
end

theorem Reads.span_eq {m : Mode} {e : Expr} {c d : Cursor} (h : Reads m e c d) :
    e.span = some (c.span d) := by
  cases h <;> rfl

theorem result?_opening {x : Char} {c d : Cursor} :
    result? (opening x) c = some ((), d) ↔ Opens x c d := by
  unfold opening Opens
  rw [result?_bind, Option.bind_eq_some_iff]
  constructor
  · rintro ⟨⟨y, e⟩, hx, h⟩
    exact ⟨e, (result?_char_eq_some.1 hx).2, h⟩
  · rintro ⟨e, hx, h⟩
    exact ⟨(x, e), result?_char_eq_some.2 ⟨rfl, hx⟩, h⟩

theorem Opens.intro {x : Char} {p : Position} {rest : List Char} {d : Cursor}
    (h : Mode.free.Skips ⟨p.next x, rest⟩ d) : Opens x ⟨p, x :: rest⟩ d :=
  ⟨_, ⟨rfl, rfl⟩, h⟩

theorem Opens.passes {x : Char} {c d : Cursor} (h : Opens x c d) : ∃ w, c.Passes (x :: w) d := by
  obtain ⟨e, hx, hg⟩ := h
  obtain ⟨w, hw⟩ := hg.passes
  exact ⟨w, hx.trans hw⟩

theorem Opens.length_lt {x : Char} {c d : Cursor} (h : Opens x c d) :
    d.rest.length < c.rest.length := by
  obtain ⟨w, hw⟩ := h.passes
  exact hw.length_lt

theorem result?_sign {op : UnaryOp} {c d : Cursor} :
    result? sign c = some (op, d) ↔ op ≠ .not ∧ ReadsSign op c d := by
  have key : result? sign c =
      (((result? (char '-') c).map fun r => (UnaryOp.neg, r.2)).or
        (((result? (char '+') c).map fun r => (UnaryOp.pos, r.2)).or
          ((result? (char '~') c).map fun r => (UnaryOp.inv, r.2)))) := by
    unfold sign
    simp only [result?_choice, List.findSome?_cons, List.findSome?_nil, result?_seqRight,
      result?_pure]
    cases result? (char '-') c <;> cases result? (char '+') c <;>
      cases result? (char '~') c <;> rfl
  rw [key]
  constructor
  · intro h
    rcases Option.or_eq_some_iff.1 h with h | ⟨-, h⟩
    · obtain ⟨⟨x, e⟩, hx, heq⟩ := Option.map_eq_some_iff.1 h
      cases heq
      exact ⟨by decide, (result?_char_eq_some.1 hx).2, by simp⟩
    rcases Option.or_eq_some_iff.1 h with h | ⟨-, h⟩
    · obtain ⟨⟨x, e⟩, hx, heq⟩ := Option.map_eq_some_iff.1 h
      cases heq
      exact ⟨by decide, (result?_char_eq_some.1 hx).2, by simp⟩
    · obtain ⟨⟨x, e⟩, hx, heq⟩ := Option.map_eq_some_iff.1 h
      cases heq
      exact ⟨by decide, (result?_char_eq_some.1 hx).2, by simp⟩
  · rintro ⟨hop, hpass, -⟩
    obtain ⟨p, rest, rfl, rfl⟩ := hpass.split
    cases op with
    | not => exact absurd rfl hop
    | neg => rfl
    | pos => rfl
    | inv => rfl

theorem result?_negation {op : UnaryOp} {c d : Cursor} :
    result? (keyword "not" *> pure UnaryOp.not) c = some (op, d) ↔
      op = .not ∧ ReadsSign op c d := by
  rw [result?_seqRight, Option.bind_eq_some_iff]
  constructor
  · rintro ⟨⟨⟨⟩, e⟩, h, heq⟩
    cases heq
    obtain ⟨hpass, hstop⟩ := (result?_keyword (by decide)).1 h
    exact ⟨rfl, hpass, fun _ => hstop⟩
  · rintro ⟨rfl, hpass, hstop⟩
    exact ⟨((), d), (result?_keyword (by decide)).2 ⟨hpass, hstop rfl⟩, rfl⟩

mutual
theorem Reads.passes {m : Mode} {e : Expr} {c d : Cursor} (h : Reads m e c d) :
    ∃ x w, beginsOperand x = true ∧ c.Passes (x :: w) d := by
  match h with
  | .literal h =>
    obtain ⟨hn, hpass, -⟩ := result?_number.1 h
    obtain ⟨x, xs, hx, hd, -⟩ := isNumber_iff.1 hn
    exact ⟨x, xs, by simp [beginsOperand, hd], hx ▸ hpass⟩
  | .string h =>
    obtain ⟨q, w, hq, -, hpass⟩ := result?_string.1 h
    exact ⟨q, w ++ [q], by rcases hq with rfl | rfl <;> decide, hpass⟩
  | .ident h =>
    obtain ⟨hn, hpass, -⟩ := result?_name.1 h
    obtain ⟨x, xs, hx, hs, -⟩ := isWord_iff.1 (isName_iff.1 hn).1
    exact ⟨x, xs, by simp [beginsOperand, hs], hx ▸ hpass⟩
  | .paren ho hx hg hc =>
    obtain ⟨v, hv⟩ := ho.passes
    obtain ⟨_, _, -, hw⟩ := hx.passes
    obtain ⟨u, hu⟩ := hg.passes
    exact ⟨'(', _, by decide, ((hv.trans hw).trans hu).trans hc⟩
  | .list ho hx hc =>
    obtain ⟨v, hv⟩ := ho.passes
    obtain ⟨w, hw⟩ := hx.passes
    exact ⟨'[', _, by decide, (hv.trans hw).trans hc⟩
  | .call hf hg ho hx hc =>
    obtain ⟨x, w, hb, hw⟩ := hf.passes
    obtain ⟨u, hu⟩ := hg.passes
    obtain ⟨v, hv⟩ := ho.passes
    obtain ⟨t, ht⟩ := hx.passes
    exact ⟨x, _, hb, (((hw.trans hu).trans hv).trans ht).trans hc⟩
  | .dot hx hg hd hg' hn =>
    obtain ⟨x, w, hb, hw⟩ := hx.passes
    obtain ⟨u, hu⟩ := hg.passes
    obtain ⟨v, hv⟩ := hg'.passes
    exact ⟨x, _, hb, (((hw.trans hu).trans hd).trans hv).trans (result?_name.1 hn).2.1⟩
  | @Reads.unary _ op _ _ _ _ _ hs hg hx =>
    obtain ⟨u, hu⟩ := hg.passes
    obtain ⟨_, _, -, hw⟩ := hx.passes
    have hop : ∃ x w, op.symbol.toList = x :: w ∧ beginsOperand x = true := by
      cases op <;> exact ⟨_, _, rfl, by decide⟩
    obtain ⟨x, v, hv, hb⟩ := hop
    exact ⟨x, _, hb, ((hv ▸ hs.1).trans hu).trans hw⟩
  | .binary hl hg hs hg' hr =>
    obtain ⟨x, w, hb, hw⟩ := hl.passes
    obtain ⟨u, hu⟩ := hg.passes
    obtain ⟨v, hv⟩ := forward_symbol _ _ _ _ hs
    obtain ⟨t, ht⟩ := hg'.passes
    obtain ⟨_, _, -, hz⟩ := hr.passes
    exact ⟨x, _, hb, (((hw.trans hu).trans hv).trans ht).trans hz⟩

theorem ReadsItems.passes {xs : List Expr} {c d : Cursor} (h : ReadsItems xs c d) :
    ∃ w, c.Passes w d := by
  match h with
  | .nil => exact ⟨[], .refl _⟩
  | .last hx hg =>
    obtain ⟨_, _, -, hw⟩ := hx.passes
    obtain ⟨u, hu⟩ := hg.passes
    exact ⟨_, hw.trans hu⟩
  | .comma hx hg hc =>
    obtain ⟨_, _, -, hw⟩ := hx.passes
    obtain ⟨u, hu⟩ := hg.passes
    obtain ⟨v, hv⟩ := hc.passes
    exact ⟨_, (hw.trans hu).trans hv⟩
  | .cons hx hg hc h =>
    obtain ⟨_, _, -, hw⟩ := hx.passes
    obtain ⟨u, hu⟩ := hg.passes
    obtain ⟨v, hv⟩ := hc.passes
    obtain ⟨t, ht⟩ := h.passes
    exact ⟨_, ((hw.trans hu).trans hv).trans ht⟩
end

/-- The first word of an expression is no word that the language keeps, but for `not`. -/
theorem Reads.first_word {m : Mode} {e : Expr} {c d d' : Cursor} {w : String} (h : Reads m e c d)
    (hw : result? word c = some (w, d')) : w = "not" ∨ w ∉ keywords := by
  have none_of {x : Char} {v : List Char} {d : Cursor} (hpass : c.Passes (x :: v) d)
      (hx : isNameStart x = false) : False := by
    have hnone : result? word c = none := by
      apply result?_word_of_stops
      rw [hpass.1, List.cons_append, stops_cons]
      exact hx
    rw [hnone] at hw
    cases hw
  match h with
  | .literal h =>
    obtain ⟨hn, hpass, -⟩ := result?_number.1 h
    obtain ⟨x, xs, hx, hd, -⟩ := isNumber_iff.1 hn
    exact (none_of (hx ▸ hpass) (not_isNameStart_of_digit hd)).elim
  | .string h =>
    obtain ⟨q, v, hq, -, hpass⟩ := result?_string.1 h
    exact (none_of hpass (by rcases hq with rfl | rfl <;> decide)).elim
  | .ident h =>
    obtain ⟨hn, hpass⟩ := result?_name.1 h
    obtain ⟨hword, hk⟩ := isName_iff.1 hn
    cases (result?_word.2 ⟨hword, hpass⟩).symm.trans hw
    exact .inr hk
  | .paren ho hx hg hc =>
    obtain ⟨v, hv⟩ := ho.passes
    exact (none_of hv (by decide)).elim
  | .list ho hx hc =>
    obtain ⟨v, hv⟩ := ho.passes
    exact (none_of hv (by decide)).elim
  | .call hf hg ho hx hc => exact hf.first_word hw
  | .dot hx hg hd hg' hn => exact hx.first_word hw
  | @Reads.unary _ op _ _ _ _ _ hs hg hx =>
    cases op with
    | not =>
      have hnot : result? word c = some ("not", _) := result?_word.2 ⟨by decide, hs.1, hs.2 rfl⟩
      cases hnot.symm.trans hw
      exact .inl rfl
    | neg => exact (none_of (x := '-') (v := []) hs.1 (by decide)).elim
    | pos => exact (none_of (x := '+') (v := []) hs.1 (by decide)).elim
    | inv => exact (none_of (x := '~') (v := []) hs.1 (by decide)).elim
  | .binary hl hg hs hg' hr => exact hl.first_word hw

theorem Reads.ahead {m : Mode} {e : Expr} {c d : Cursor} (h : Reads m e c d) (m' : Mode) :
    Stops m'.opens c.rest := by
  obtain ⟨x, w, hx, hw⟩ := h.passes
  rw [hw.1, List.cons_append, stops_cons]
  exact not_opens_of_beginsOperand hx m'

theorem Reads.no_gap {m : Mode} {e : Expr} {c d : Cursor} (h : Reads m e c d) (m' : Mode) :
    m'.Skips c c :=
  .of_stops (h.ahead m')

end BuildScript.Grammar
