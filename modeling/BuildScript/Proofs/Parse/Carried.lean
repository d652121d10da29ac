import BuildScript.Proofs.Expr.Spans
import BuildScript.Proofs.Parse.Load
import BuildScript.Proofs.Parse.Scan
import BuildScript.Proofs.Parse.Statement

/-!
Two texts that keep step. If the words of the one stand in the other too, and gaps where there are
gaps, then what is read in the one is read in the other (`Carries.reads`). What is asked of the
texts is asked of words and gaps alone, so the grammar is gone through once for all pairs of texts.
-/
namespace BuildScript
open BuildScript.Parser Lexeme

def Span.moved (f : Position → Position) (s : Span) : Span := ⟨f s.start, f s.stop⟩

def Expr.moved (f : Position → Position) (e : Expr) : Expr := e.mapSpans (Option.map (Span.moved f))

theorem Expr.moved_eq (f : Position → Position) (e : Expr) :
    e.moved f = ⟨e.span.map (Span.moved f), e.shape.map (Expr.moved f)⟩ :=
  mapSpans_eq _ e

theorem Expr.moved_id (e : Expr) : e.moved id = e := by
  induction e using induct with
  | step e ih =>
    rw [moved_eq, Shape.map_congr ih, Shape.map_id]
    obtain ⟨span, shape⟩ := e
    cases span <;> rfl

theorem map_moved_id (es : List Expr) : es.map (Expr.moved id) = es := by
  rw [List.map_congr_left fun e _ => e.moved_id, List.map_id']

theorem Expr.grouped_moved (f : Position → Position) {e : Expr} (h : e.Grouped) :
    (e.moved f).Grouped := by
  rw [← grouped_eraseSpans_iff, Expr.moved, eraseSpans_mapSpans, grouped_eraseSpans_iff]
  exact h

def Comment.moved (f : Position → Position) (c : Comment) : Comment := ⟨c.span.moved f, c.content⟩

namespace Grammar

def Solid (w : List Char) : Prop := (∀ x ∈ w, Plain x) ∧ '\n' ∉ w

theorem solid_of_numberChars {w : List Char} (h : ∀ x ∈ w, isNumberChar x = true) : Solid w :=
  ⟨fun x hx => plain_numberChar (h x hx), fun hn => absurd (h _ hn) (by decide)⟩

theorem solid_number {t : String} (h : isNumber t = true) : Solid t.toList := by
  obtain ⟨d, ds, ht, hd, hds⟩ := isNumber_iff.1 h
  rw [ht]
  exact solid_of_numberChars (List.forall_mem_cons.2 ⟨isNumberChar_of_digit hd, hds⟩)

theorem solid_word {w : String} (h : isWord w = true) : Solid w.toList := by
  obtain ⟨c, cs, hw, hc, hcs⟩ := isWord_iff.1 h
  rw [hw]
  exact solid_of_numberChars (List.forall_mem_cons.2
    ⟨isNumberChar_of_nameChar (isNameChar_of_start hc),
      fun x hx => isNumberChar_of_nameChar (hcs x hx)⟩)

theorem solid_symbol {op : BinaryOp} {w : List Char} (h : op.Spelled w) : Solid w := by
  refine ⟨plain_symbol h, ?_⟩
  cases h with
  | plain _ => cases op <;> decide
  | @notMem v _ hw =>
    have hn : '\n' ∉ v := fun hn => by rcases hw _ hn with h | h <;> exact absurd h (by decide)
    simpa using hn

theorem solid_sign (op : UnaryOp) : Solid op.symbol.toList :=
  ⟨plain_sign op, by cases op <;> decide⟩

theorem solid_char {x : Char} (hx : Plain x) (hn : x ≠ '\n') : Solid [x] :=
  ⟨List.forall_mem_singleton.2 hx, by simpa using hn.symm⟩

end Grammar

theorem Grammar.ReadsBindings.passes {bs : List (Binding Expr)} {c d : Cursor}
    (h : ReadsBindings bs c d) : ∃ w, c.Passes w d := by
  induction h with
  | nil => exact ⟨[], .refl _⟩
  | comma h =>
    obtain ⟨_, hc⟩ := h.passes
    exact ⟨_, hc⟩
  | cons hc hb hg _ ih =>
    obtain ⟨_, hc⟩ := hc.passes
    obtain ⟨_, hb⟩ := forward_binding _ _ _ hb
    obtain ⟨_, hg⟩ := hg.passes
    obtain ⟨_, hw⟩ := ih
    exact ⟨_, ((hc.trans hb).trans hg).trans hw⟩

section Bars
variable {Q : Cursor → Prop} {c d : Cursor}

/-- What stands at the cursor ends every gap before it, and `Q` holds behind that. -/
def Bars (Q : Cursor → Prop) (d : Cursor) : Prop :=
  ∃ x w e, (∀ m : Mode, m.opens x = false) ∧ d.Passes (x :: w) e ∧ Q e

theorem Bars.stops (h : Bars Q d) (m : Mode) : Stops m.opens d.rest := by
  obtain ⟨x, w, e, hx, hpass, -⟩ := h
  rw [hpass.1, List.cons_append, stops_cons]
  exact hx m

theorem Cursor.Passes.bars {x : Char} {w : List Char} (h : c.Passes (x :: w) d) (hd : Q d)
    (hx : Mode.line.opens x = false ∧ Mode.free.opens x = false) : Bars Q c :=
  ⟨x, w, d, fun m => by cases m <;> simp [hx], h, hd⟩

namespace Grammar

theorem Reads.bars {m : Mode} {e : Expr} (h : Reads m e c d) (hd : Q d) : Bars Q c := by
  obtain ⟨x, w, hx, hpass⟩ := h.passes
  exact hpass.bars hd ⟨not_opens_of_beginsOperand hx _, not_opens_of_beginsOperand hx _⟩

theorem bars_of_string {v : String} (h : result? Lexeme.string c = some (v, d)) (hd : Q d) :
    Bars Q c :=
  (Reads.string (m := .free) h).bars hd

theorem bars_of_name {n : String} (h : result? name c = some (n, d)) (hd : Q d) : Bars Q c :=
  (Reads.ident (m := .free) h).bars hd

theorem bars_of_symbol {op : BinaryOp} (h : ReadsSymbol op c d) (hd : Q d) : Bars Q c := by
  obtain ⟨w, hw, hpass, -⟩ := readsSymbol_iff.1 h
  have hhead : ∃ x v, w = x :: v ∧ Mode.line.opens x = false ∧ Mode.free.opens x = false := by
    cases hw with
    | plain _ => cases op <;> exact ⟨_, _, rfl, by decide⟩
    | notMem _ _ => exact ⟨'n', _, rfl, by decide⟩
  obtain ⟨x, v, rfl, hx⟩ := hhead
  exact hpass.bars hd hx

theorem bars_of_binding {b : Binding Expr} (h : result? binding c = some (b, d)) (hd : Q d)
    (hback : ∀ {a : Cursor} {w : List Char}, a.Passes w d → Q a) : Bars Q c := by
  rcases result?_binding.1 h with ⟨_, _, _, _, _, _, hn, hg, heq, hg', hs, -⟩ | ⟨_, hs, -⟩
  · obtain ⟨_, hg⟩ := hg.passes
    obtain ⟨_, hg'⟩ := hg'.passes
    obtain ⟨_, hs⟩ := forward_string _ _ _ hs
    exact bars_of_name hn (hback (((hg.trans heq).trans hg').trans hs))
  · exact bars_of_string hs hd

theorem Opens.bars {x : Char} (h : Opens x c d)
    (hx : Mode.line.opens x = false ∧ Mode.free.opens x = false) (hd : Q d) : Bars Q c := by
  obtain ⟨w, hpass⟩ := h.passes
  exact hpass.bars hd hx

end Grammar
end Bars

/-- Cursors of two texts that belong together, as `R` says, go on together through words and gaps
as long as `Q` holds. -/
structure Carries (f : Position → Position) (R : Cursor → Cursor → Prop) (Q : Cursor → Prop) :
    Prop where
  position {c c' : Cursor} (r : R c c') : c'.position = f c.position
  back {c d : Cursor} {w : List Char} (h : c.Passes w d) (hd : Q d) : Q c
  word {c c' d : Cursor} {w : List Char} (r : R c c') (hw : Grammar.Solid w) (h : c.Passes w d)
    (hd : Q d) : ∃ d', c'.Passes w d' ∧ R d d'
  string {c c' d : Cursor} {v : String} (r : R c c') (h : result? Lexeme.string c = some (v, d))
    (hd : Q d) : ∃ d', result? Lexeme.string c' = some (v, d') ∧ R d d'
  gap {m : Mode} {c c' d : Cursor} (r : R c c') (h : m.Skips c d) (hd : Bars Q d) :
    ∃ d', m.Skips c' d' ∧ R d d'
  stops {c c' : Cursor} {test : Char → Bool} (r : R c c') (hc : Q c)
    (htest : ∀ x, test x = true → isNumberChar x = true) (h : Stops test c.rest) :
    Stops test c'.rest

namespace Carries
open Grammar
variable {f : Position → Position} {R : Cursor → Cursor → Prop} {Q : Cursor → Prop}
  {c c' d d' : Cursor} (k : Carries f R Q)
include k

theorem span_eq (r : R c c') (r' : R d d') : (c.span d).moved f = c'.span d' := by
  rw [Cursor.span, Cursor.span, k.position r, k.position r']
  rfl

theorem back_of_bars (h : Bars Q d) : Q d := by
  obtain ⟨x, w, e, -, hpass, he⟩ := h
  exact k.back hpass he

theorem back_of_skips {m : Mode} (h : m.Skips c d) (hd : Bars Q d) : Q c := by
  obtain ⟨w, hw⟩ := h.passes
  exact k.back hw (k.back_of_bars hd)

theorem char {x : Char} (r : R c c') (h : c.Passes [x] d) (hd : Q d) (hx : Plain x)
    (hn : x ≠ '\n') : ∃ d', c'.Passes [x] d' ∧ R d d' :=
  k.word r (solid_char hx hn) h hd

theorem opens {x : Char} (r : R c c') (h : Opens x c d) (hd : Bars Q d) (hx : Plain x)
    (hn : x ≠ '\n') : ∃ d', Opens x c' d' ∧ R d d' := by
  obtain ⟨e, hpass, hskip⟩ := h
  obtain ⟨e', hpass', r₁⟩ := k.char r hpass (k.back_of_skips hskip hd) hx hn
  obtain ⟨d', hskip', r₂⟩ := k.gap r₁ hskip hd
  exact ⟨d', ⟨e', hpass', hskip'⟩, r₂⟩

theorem number {t : String} (r : R c c') (h : result? Lexeme.number c = some (t, d)) (hd : Q d) :
    ∃ d', result? Lexeme.number c' = some (t, d') ∧ R d d' := by
  obtain ⟨hn, hpass, hstop⟩ := result?_number.1 h
  obtain ⟨d', hpass', r'⟩ := k.word r (solid_number hn) hpass hd
  exact ⟨d', result?_number.2 ⟨hn, hpass', k.stops r' hd (fun _ => id) hstop⟩, r'⟩

theorem name {n : String} (r : R c c') (h : result? Lexeme.name c = some (n, d)) (hd : Q d) :
    ∃ d', result? Lexeme.name c' = some (n, d') ∧ R d d' := by
  obtain ⟨hn, hpass, hstop⟩ := result?_name.1 h
  obtain ⟨d', hpass', r'⟩ := k.word r (solid_word (isName_iff.1 hn).1) hpass hd
  exact ⟨d', result?_name.2
    ⟨hn, hpass', k.stops r' hd (fun _ => isNumberChar_of_nameChar) hstop⟩, r'⟩

theorem symbol {op : BinaryOp} (r : R c c') (h : ReadsSymbol op c d) (hd : Q d) :
    ∃ d', ReadsSymbol op c' d' ∧ R d d' := by
  obtain ⟨w, hw, hpass, hstop⟩ := readsSymbol_iff.1 h
  obtain ⟨d', hpass', r'⟩ := k.word r (solid_symbol hw) hpass hd
  exact ⟨d', readsSymbol_iff.2 ⟨w, hw, hpass',
    fun hop => k.stops r' hd (fun _ => isNumberChar_of_nameChar) (hstop hop)⟩, r'⟩

theorem sign {op : UnaryOp} (r : R c c') (h : ReadsSign op c d) (hd : Q d) :
    ∃ d', ReadsSign op c' d' ∧ R d d' := by
  obtain ⟨d', hpass', r'⟩ := k.word r (solid_sign op) h.1 hd
  exact ⟨d', ⟨hpass',
    fun hop => k.stops r' hd (fun _ => isNumberChar_of_nameChar) (h.2 hop)⟩, r'⟩

theorem bars_of_items {xs : List Expr} (h : ReadsItems xs c d) (hd : Bars Q d) : Bars Q c := by
  have hstart {x : Expr} {a : Cursor} {w : List Char} (hx : Reads .free x c a)
      (hw : a.Passes w d) : Bars Q c := hx.bars (k.back hw (k.back_of_bars hd))
  cases h with
  | nil => exact hd
  | last hx hg =>
    obtain ⟨_, hg⟩ := hg.passes
    exact hstart hx hg
  | comma hx hg hc =>
    obtain ⟨_, hg⟩ := hg.passes
    obtain ⟨_, hc⟩ := hc.passes
    exact hstart hx (hg.trans hc)
  | cons hx hg hc h =>
    obtain ⟨_, hg⟩ := hg.passes
    obtain ⟨_, hc⟩ := hc.passes
    obtain ⟨_, hw⟩ := h.passes
    exact hstart hx ((hg.trans hc).trans hw)

mutual
theorem reads {m : Mode} {e : Expr} {c c' d : Cursor} (r : R c c') (h : Reads m e c d) (hd : Q d) :
    ∃ d', Reads m (e.moved f) c' d' ∧ R d d' := by
  rw [Expr.moved_eq, h.span_eq, Option.map_some]
  match h with
  | .literal h =>
    obtain ⟨d', h', r'⟩ := k.number r h hd
    exact ⟨d', k.span_eq r r' ▸ .literal h', r'⟩
  | .string h =>
    obtain ⟨d', h', r'⟩ := k.string r h hd
    exact ⟨d', k.span_eq r r' ▸ .string h', r'⟩
  | .ident h =>
    obtain ⟨d', h', r'⟩ := k.name r h hd
    exact ⟨d', k.span_eq r r' ▸ .ident h', r'⟩
  | .paren ho hx hg hc =>
    have b₃ := hc.bars hd (by decide)
    have q₂ := k.back_of_skips hg b₃
    obtain ⟨_, ho', r₁⟩ := k.opens r ho (hx.bars q₂) (by decide) (by decide)
    obtain ⟨_, hx', r₂⟩ := reads r₁ hx q₂
    obtain ⟨_, hg', r₃⟩ := k.gap r₂ hg b₃
    obtain ⟨d', hc', r'⟩ := k.char r₃ hc hd (by decide) (by decide)
    exact ⟨d', k.span_eq r r' ▸ .paren ho' hx' hg' hc', r'⟩
  | .list ho hx hc =>
    have b₂ := hc.bars hd (by decide)
    obtain ⟨_, ho', r₁⟩ := k.opens r ho (k.bars_of_items hx b₂) (by decide) (by decide)
    obtain ⟨_, hx', r₂⟩ := items r₁ hx b₂
    obtain ⟨d', hc', r'⟩ := k.char r₂ hc hd (by decide) (by decide)
    exact ⟨d', k.span_eq r r' ▸ .list ho' hx' hc', r'⟩
  | .call hf hg ho hx hc =>
    have b₄ := hc.bars hd (by decide)
    have b₃ := k.bars_of_items hx b₄
    have b₂ := ho.bars (by decide) (k.back_of_bars b₃)
    obtain ⟨_, hf', r₁⟩ := reads r hf (k.back_of_skips hg b₂)
    obtain ⟨_, hg', r₂⟩ := k.gap r₁ hg b₂
    obtain ⟨_, ho', r₃⟩ := k.opens r₂ ho b₃ (by decide) (by decide)
    obtain ⟨_, hx', r₄⟩ := items r₃ hx b₄
    obtain ⟨d', hc', r'⟩ := k.char r₄ hc hd (by decide) (by decide)
    exact ⟨d', k.span_eq r r' ▸ .call hf' hg' ho' hx' hc', r'⟩
  | .dot hx hg hp hg' hn =>
    have b₄ := bars_of_name hn hd
    have q₃ := k.back_of_skips hg' b₄
    have b₂ := hp.bars q₃ (by decide)
    obtain ⟨_, hx', r₁⟩ := reads r hx (k.back_of_skips hg b₂)
    obtain ⟨_, hg₁, r₂⟩ := k.gap r₁ hg b₂
    obtain ⟨_, hp', r₃⟩ := k.char r₂ hp q₃ (by decide) (by decide)
    obtain ⟨_, hg₂, r₄⟩ := k.gap r₃ hg' b₄
    obtain ⟨d', hn', r'⟩ := k.name r₄ hn hd
    exact ⟨d', k.span_eq r r' ▸ .dot hx' hg₁ hp' hg₂ hn', r'⟩
  | .unary hs hg hx =>
    have b₂ := hx.bars hd
    obtain ⟨_, hs', r₁⟩ := k.sign r hs (k.back_of_skips hg b₂)
    obtain ⟨_, hg', r₂⟩ := k.gap r₁ hg b₂
    obtain ⟨d', hx', r'⟩ := reads r₂ hx hd
    exact ⟨d', k.span_eq r r' ▸ .unary hs' hg' hx', r'⟩
  | .binary hl hg hs hg' hr =>
    have b₄ := hr.bars hd
    have q₃ := k.back_of_skips hg' b₄
    have b₂ := bars_of_symbol hs q₃
    obtain ⟨_, hl', r₁⟩ := reads r hl (k.back_of_skips hg b₂)
    obtain ⟨_, hg₁, r₂⟩ := k.gap r₁ hg b₂
    obtain ⟨_, hs', r₃⟩ := k.symbol r₂ hs q₃
    obtain ⟨_, hg₂, r₄⟩ := k.gap r₃ hg' b₄
    obtain ⟨d', hr', r'⟩ := reads r₄ hr hd
    exact ⟨d', k.span_eq r r' ▸ .binary hl' hg₁ hs' hg₂ hr', r'⟩

theorem items {xs : List Expr} {c c' d : Cursor} (r : R c c') (h : ReadsItems xs c d)
    (hd : Bars Q d) : ∃ d', ReadsItems (xs.map (Expr.moved f)) c' d' ∧ R d d' := by
  match h with
  | .nil => exact ⟨c', .nil, r⟩
  | .last hx hg =>
    obtain ⟨_, hx', r₁⟩ := reads r hx (k.back_of_skips hg hd)
    obtain ⟨d', hg', r'⟩ := k.gap r₁ hg hd
    exact ⟨d', .last hx' hg', r'⟩
  | .comma hx hg hc =>
    have b₂ := hc.bars (by decide) (k.back_of_bars hd)
    obtain ⟨_, hx', r₁⟩ := reads r hx (k.back_of_skips hg b₂)
    obtain ⟨_, hg', r₂⟩ := k.gap r₁ hg b₂
    obtain ⟨d', hc', r'⟩ := k.opens r₂ hc hd (by decide) (by decide)
    exact ⟨d', .comma hx' hg' hc', r'⟩
  | .cons hx hg hc h =>
    have b₃ := k.bars_of_items h hd
    have b₂ := hc.bars (by decide) (k.back_of_bars b₃)
    obtain ⟨_, hx', r₁⟩ := reads r hx (k.back_of_skips hg b₂)
    obtain ⟨_, hg', r₂⟩ := k.gap r₁ hg b₂
    obtain ⟨_, hc', r₃⟩ := k.opens r₂ hc b₃ (by decide) (by decide)
    obtain ⟨d', h', r'⟩ := items r₃ h hd
    exact ⟨d', .cons hx' hg' hc' h', r'⟩
end

theorem binding {b : Binding Expr} (r : R c c') (h : result? binding c = some (b, d)) (hd : Q d) :
    ∃ d', result? Grammar.binding c' = some (⟨b.source.moved f, b.target.moved f⟩, d') ∧
      R d d' := by
  rcases result?_binding.1 h with ⟨target, source, c₁, c₂, c₃, c₄, hn, hg, heq, hg', hs, rfl⟩ |
    ⟨both, hs, rfl⟩
  · have b₄ := bars_of_string hs hd
    have q₃ := k.back_of_skips hg' b₄
    have b₂ := heq.bars q₃ (by decide)
    obtain ⟨c₁', hn', r₁⟩ := k.name r hn (k.back_of_skips hg b₂)
    obtain ⟨c₂', hg₁, r₂⟩ := k.gap r₁ hg b₂
    obtain ⟨c₃', heq', r₃⟩ := k.char r₂ heq q₃ (by decide) (by decide)
    obtain ⟨c₄', hg₂, r₄⟩ := k.gap r₃ hg' b₄
    obtain ⟨d', hs', r'⟩ := k.string r₄ hs hd
    refine ⟨d', result?_binding.2 (.inl ⟨target, source, c₁', c₂', c₃', c₄', hn', hg₁, heq', hg₂,
      hs', ?_⟩), r'⟩
    rw [Expr.moved_eq, Expr.moved_eq, ← k.span_eq r₄ r', ← k.span_eq r r₁]
    rfl
  · obtain ⟨d', hs', r'⟩ := k.string r hs hd
    refine ⟨d', result?_binding.2 (.inr ⟨both, hs', ?_⟩), r'⟩
    rw [Expr.moved_eq, ← k.span_eq r r']
    rfl

theorem bars_of_bindings {bs : List (Binding Expr)} (h : ReadsBindings bs c d) (hd : Bars Q d) :
    Bars Q c := by
  have hstart {a : Cursor} {w : List Char} (hc : Opens ',' c a) (hw : a.Passes w d) : Bars Q c :=
    hc.bars (by decide) (k.back hw (k.back_of_bars hd))
  cases h with
  | nil => exact hd
  | comma hc => exact hstart hc (.refl d)
  | cons hc hb hg h =>
    obtain ⟨_, hb⟩ := forward_binding _ _ _ hb
    obtain ⟨_, hg⟩ := hg.passes
    obtain ⟨_, hw⟩ := h.passes
    exact hstart hc ((hb.trans hg).trans hw)

theorem bindings {bs : List (Binding Expr)} (r : R c c') (h : ReadsBindings bs c d)
    (hd : Bars Q d) :
    ∃ d', ReadsBindings (bs.map fun b => ⟨b.source.moved f, b.target.moved f⟩) c' d' ∧ R d d' := by
  induction h generalizing c' with
  | nil => exact ⟨c', .nil, r⟩
  | comma hc =>
    obtain ⟨d', hc', r'⟩ := k.opens r hc hd (by decide) (by decide)
    exact ⟨d', .comma hc', r'⟩
  | cons hc hb hg h ih =>
    have b₃ := k.bars_of_bindings h hd
    have q₂ := k.back_of_skips hg b₃
    obtain ⟨_, hc', r₁⟩ := k.opens r hc (bars_of_binding hb q₂ fun h => k.back h q₂) (by decide) (by decide)
    obtain ⟨_, hb', r₂⟩ := k.binding r₁ hb q₂
    obtain ⟨_, hg', r₃⟩ := k.gap r₂ hg b₃
    obtain ⟨d', h', r'⟩ := ih r₃ hd
    exact ⟨d', .cons hc' hb' hg' h', r'⟩

theorem load {e : Expr} (r : R c c') (h : result? load c = some (e, d)) (hd : Q d) :
    ∃ d', result? Grammar.load c' = some (e.moved f, d') ∧ R d d' := by
  obtain ⟨origin, os, bindings, hreads, rfl⟩ := result?_load.1 h
  obtain ⟨c₁, c₂, c₃, c₄, c₅, c₆, hload, hstop, hg, ho, hm, rfl, hg', hb, hc⟩ :=
    readsLoad_iff.1 hreads
  have b₆ := hc.bars hd (by decide)
  have b₅ := k.bars_of_bindings hb b₆
  have q₄ := k.back_of_skips hg' b₅
  have b₃ := bars_of_string hm q₄
  have b₂ := ho.bars (by decide) (k.back_of_bars b₃)
  have q₁ := k.back_of_skips hg b₂
  obtain ⟨c₁', hload', r₁⟩ := k.word r ⟨forall_plain (by decide), by decide⟩ hload q₁
  obtain ⟨c₂', hg₁, r₂⟩ := k.gap r₁ hg b₂
  obtain ⟨c₃', ho', r₃⟩ := k.opens r₂ ho b₃ (by decide) (by decide)
  obtain ⟨c₄', hm', r₄⟩ := k.string r₃ hm q₄
  obtain ⟨c₅', hg₂, r₅⟩ := k.gap r₄ hg' b₅
  obtain ⟨c₆', hb', r₆⟩ := k.bindings r₅ hb b₆
  obtain ⟨d', hc', r'⟩ := k.char r₆ hc hd (by decide) (by decide)
  refine ⟨d', result?_load.2 ⟨origin, c₃'.span c₄', _, readsLoad_iff.2 ⟨c₁', c₂', c₃', c₄', c₅', c₆',
    hload', k.stops r₁ q₁ (fun _ => isNumberChar_of_nameChar) hstop, hg₁, ho', hm', rfl, hg₂, hb',
    hc'⟩, ?_⟩, r'⟩
  rw [Expr.moved_eq, ← k.span_eq r r', ← k.span_eq r₃ r₄]
  simp only [Shape.map]
  rw [Expr.moved_eq]
  rfl

/-- A statement of the one text is one of the other. -/
theorem statement {e : Expr} (r : R c c') (h : ReadsStatement e c d) (hd : Q d) :
    ∃ d', ReadsStatement (e.moved f) c' d' ∧ R d d' := by
  rcases h with h | ⟨h, hgrouped⟩
  · obtain ⟨d', h', r'⟩ := k.load r h hd
    exact ⟨d', .inl h', r'⟩
  · obtain ⟨d', h', r'⟩ := k.reads r h hd
    exact ⟨d', .inr ⟨h', Expr.grouped_moved f hgrouped⟩, r'⟩

theorem lines {es : List Expr} (hQ : ∀ d, Q d)
    (hline : ∀ {a a' b e : Cursor}, R a a' → Mode.line.Skips a b → EndsLine b e →
      ∃ b' e', Mode.line.Skips a' b' ∧ EndsLine b' e' ∧ R e e')
    (hfree : ∀ {a a' b : Cursor}, R a a' → Mode.free.Skips a b →
      ∃ b', Mode.free.Skips a' b' ∧ R b b')
    (hend : ∀ {a a' : Cursor}, R a a' → a.rest = [] → a'.rest = [])
    (r : R c c') (h : ReadsLines es c d) :
    ∃ d', ReadsLines (es.map (Expr.moved f)) c' d' ∧ R d d' := by
  induction h generalizing c' with
  | nil hc => exact ⟨c', .nil (hend r hc), r⟩
  | cons he hg hl hg' _ ih =>
    obtain ⟨_, he', r₁⟩ := k.statement r he (hQ _)
    obtain ⟨_, _, hg₁, hl', r₃⟩ := hline r₁ hg hl
    obtain ⟨_, hg₂, r₄⟩ := hfree r₃ hg'
    obtain ⟨d', h', r'⟩ := ih r₄
    exact ⟨d', .cons he' hg₁ hl' hg₂ h', r'⟩

end Carries
end BuildScript
