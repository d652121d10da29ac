import BuildScript.Proofs.Parse.Moved

/-!
Expressions in parentheses. The text of a single expression and the text in brackets are read alike:
a source is accepted as an expression exactly if, in parentheses of their own, it is a script of one
statement, the parenthesis around that expression (`parse_enclosed`). The closing parenthesis stands
on a line of its own, so that a comment may end the source.
-/
namespace BuildScript
open BuildScript.Parser Lexeme Grammar

namespace Position

/-- The place `p` of a text when one more character stands in front of the text. -/
def inside (p : Position) : Position where
  line := p.line
  column := if p.line = 1 then p.column + 1 else p.column
  offset := p.offset + 1

def outside (p : Position) : Position where
  line := p.line
  column := if p.line = 1 then p.column - 1 else p.column
  offset := p.offset - 1

theorem outside_inside (p : Position) : p.inside.outside = p := by
  obtain ⟨line, column, offset⟩ := p
  by_cases h : line = 1 <;> simp [inside, outside, h]

theorem inside_after {p : Position} (hp : 0 < p.line) (w : List Char) :
    (p.after w).inside = p.inside.after w := by
  induction w generalizing p with
  | nil => rfl
  | cons x w ih =>
    have hnext : (p.next x).inside = p.inside.next x := by
      unfold next inside
      split
      next =>
        have hline : p.line + 1 ≠ 1 := by omega
        simp only [hline, if_false]
      next => split <;> rfl
    have hline : 0 < (p.next x).line := by
      unfold next
      split
      · exact Nat.succ_pos _
      · exact hp
    rw [after_cons, after_cons, ih hline, hnext]

theorem steady_inside : Steady inside start := inside_after Nat.one_pos

theorem steady_outside : Steady outside start.inside := by
  intro w
  rw [← steady_inside, outside_inside, outside_inside]

end Position

theorem Expr.moved_moved {f g : Position → Position} (h : ∀ p, g (f p) = p) (e : Expr) :
    (e.moved f).moved g = e := by
  have hspan : (fun s : Option Span => (s.map (Span.moved f)).map (Span.moved g)) =
      Option.map (Span.moved id) := by
    funext s
    cases s with
    | none => rfl
    | some s => simp [Span.moved, h]
  rw [Expr.moved, Expr.moved, mapSpans_mapSpans, hspan]
  exact e.moved_id

theorem Cursor.Passes.last {c d : Cursor} {w : List Char} (h : c.Passes w d) (hw : '\n' ∉ w)
    (hne : w ≠ []) : ∃ v y, c.Passes (v ++ [y]) d ∧ y ≠ '\n' := by
  refine ⟨w.dropLast, w.getLast hne, ?_, fun hy => hw (hy ▸ List.getLast_mem hne)⟩
  rwa [List.dropLast_append_getLast hne]

namespace Grammar

theorem last_of_name {n : String} {c d : Cursor} (h : result? name c = some (n, d)) :
    ∃ w y, c.Passes (w ++ [y]) d ∧ y ≠ '\n' := by
  obtain ⟨hn, hpass, -⟩ := result?_name.1 h
  obtain ⟨x, xs, ht, -⟩ := isWord_iff.1 (isName_iff.1 hn).1
  exact hpass.last (solid_word (isName_iff.1 hn).1).2 (by simp [ht])

theorem Reads.last {m : Mode} {e : Expr} {c d : Cursor} (h : Reads m e c d) :
    ∃ w y, c.Passes (w ++ [y]) d ∧ y ≠ '\n' := by
  induction e using Expr.induct generalizing c with
  | step e ih =>
    -- Only the right operand of an operator can be the end of another expression.
    have behind {b : Cursor} {v : List Char} (hv : c.Passes v b)
        (hb : ∃ w y, b.Passes (w ++ [y]) d ∧ y ≠ '\n') :
        ∃ w y, c.Passes (w ++ [y]) d ∧ y ≠ '\n' := by
      obtain ⟨w, y, hpass, hy⟩ := hb
      exact ⟨v ++ w, y, by rw [List.append_assoc]; exact hv.trans hpass, hy⟩
    cases h with
    | literal h =>
      obtain ⟨hn, hpass, -⟩ := result?_number.1 h
      obtain ⟨x, xs, ht, -⟩ := isNumber_iff.1 hn
      exact hpass.last (solid_number hn).2 (by simp [ht])
    | string h =>
      obtain ⟨q, w, hq, -, hpass⟩ := result?_string.1 h
      exact ⟨q :: w, q, hpass, by rcases hq with rfl | rfl <;> decide⟩
    | ident h => exact last_of_name h
    | paren ho hx hg hc =>
      obtain ⟨_, ho⟩ := ho.passes
      obtain ⟨_, _, -, hx⟩ := hx.passes
      obtain ⟨_, hg⟩ := hg.passes
      exact behind ((ho.trans hx).trans hg) ⟨[], _, hc, by decide⟩
    | list ho hx hc =>
      obtain ⟨_, ho⟩ := ho.passes
      obtain ⟨_, hx⟩ := hx.passes
      exact behind (ho.trans hx) ⟨[], _, hc, by decide⟩
    | call hf hg ho hx hc =>
      obtain ⟨_, _, -, hf⟩ := hf.passes
      obtain ⟨_, hg⟩ := hg.passes
      obtain ⟨_, ho⟩ := ho.passes
      obtain ⟨_, hx⟩ := hx.passes
      exact behind (((hf.trans hg).trans ho).trans hx) ⟨[], _, hc, by decide⟩
    | dot hx hg hd hg' hn =>
      obtain ⟨_, _, -, hx⟩ := hx.passes
      obtain ⟨_, hg⟩ := hg.passes
      obtain ⟨_, hg'⟩ := hg'.passes
      exact behind (((hx.trans hg).trans hd).trans hg') (last_of_name hn)
    | unary hs hg hx =>
      obtain ⟨_, hg⟩ := hg.passes
      exact behind (hs.1.trans hg) (ih _ (by simp [Expr.children, Shape.children]) hx)
    | binary hl hg hs hg' hr =>
      obtain ⟨_, _, -, hl⟩ := hl.passes
      obtain ⟨_, hg⟩ := hg.passes
      obtain ⟨_, hs⟩ := forward_symbol _ _ _ _ hs
      obtain ⟨_, hg'⟩ := hg'.passes
      exact behind (((hl.trans hg).trans hs).trans hg')
        (ih _ (by simp [Expr.children, Shape.children]) hr)

/-- Where the text ends with a line end and one more character, of which something is left behind a
word that ends no line, the line end is left too. -/
theorem suffix_of_last {v w rest : List Char} {x y z : Char} (hy : y ≠ x)
    (h : v ++ [x, z] = w ++ [y] ++ (rest ++ [z])) : [x, z] <:+ rest ++ [z] := by
  have hsplit : v ++ [x] = w ++ [y] ++ rest := by
    rw [List.append_cons v x [z], ← List.append_assoc] at h
    exact List.append_cancel_right h
  rcases List.eq_nil_or_concat rest with rfl | ⟨u, last, rfl⟩
  · simp only [List.append_nil] at hsplit
    exact absurd (List.append_inj_right' hsplit rfl) (by simpa using hy.symm)
  · rw [List.concat_eq_append, ← List.append_assoc] at hsplit
    obtain rfl : x = last := by simpa using List.append_inj_right' hsplit rfl
    exact ⟨u, by simp⟩

theorem suffix_of_not_mem {x : Char} {rest w v : List Char} (h : x :: rest <:+ w ++ v)
    (hw : x ∉ w) : x :: rest <:+ v := by
  induction w with
  | nil => exact h
  | cons y w ih =>
    rw [List.mem_cons, not_or] at hw
    rcases List.suffix_cons_iff.1 h with heq | h
    · exact absurd (List.cons.inj heq).1 hw.1
    · exact ih h hw.2

/-- A gap inside of brackets may be cut off where one of its lines ends. -/
theorem skips_cut {f : Position → Position} {rest : List Char} {c d : Cursor}
    (h : Mode.free.Skips c d) (hf : Steady f c.position) (hc : '\n' :: rest <:+ c.rest)
    (hd : d.rest.length ≤ rest.length) :
    ∃ e, e.rest = [] ∧ Mode.free.Skips (c.moved f ('\n' :: rest) []) e := by
  refine h.induct (motive := fun c => Steady f c.position → '\n' :: rest <:+ c.rest →
    ∃ e, e.rest = [] ∧ Mode.free.Skips (c.moved f ('\n' :: rest) []) e) ?_ ?_ hf hc
  · intro _ hlast
    have := hlast.length_le
    rw [List.length_cons] at this
    omega
  · intro a b hab ih hf ha
    -- Behind a piece that passes `w` the cut is still to come.
    have further {w : List Char} (hpass : a.Passes w b) (hb : '\n' :: rest <:+ b.rest)
        (hpiece : (a.moved f ('\n' :: rest) []).Passes w (b.moved f ('\n' :: rest) []) →
          result? Mode.free.piece (a.moved f ('\n' :: rest) []) =
            some ((), b.moved f ('\n' :: rest) [])) :
        ∃ e, e.rest = [] ∧ Mode.free.Skips (a.moved f ('\n' :: rest) []) e := by
      obtain ⟨e, he, hskip⟩ := ih (hf.passes hpass) hb
      exact ⟨e, he, .step (hpiece (hpass.moved hf hb)) hskip⟩
    rcases Mode.result?_piece.1 hab with ⟨x, hx, hpass⟩ | ⟨⟨⟩, -⟩ | ⟨body, hn, hpass, hstop⟩
    · have hrest : a.rest = x :: b.rest := hpass.1
      rcases List.suffix_cons_iff.1 (hrest ▸ ha) with heq | hb
      · have hmoved : (a.moved f ('\n' :: rest) []).rest = [] := by
          rw [Cursor.moved_of_rest (w := []) (hrest.trans heq.symm)]
          rfl
        refine ⟨_, hmoved, .of_stops ?_⟩
        rw [hmoved]
        exact stops_nil _
      · exact further hpass hb fun hmoved => Mode.result?_piece.2 (.inl ⟨x, hx, hmoved⟩)
    · have hb : '\n' :: rest <:+ b.rest := suffix_of_not_mem (hpass.1 ▸ ha) (by simpa using hn)
      have hstop' : Stops (· != '\n') (b.moved f ('\n' :: rest) []).rest :=
        hstop.moved hb (.inr fun _ => stops_nil _)
      exact further hpass hb fun hmoved =>
        Mode.result?_piece.2 (.inr (.inr ⟨body, hn, hmoved, hstop'⟩))

end Grammar

namespace Script

/-- A source in parentheses, of which the closing one stands on a line of its own. -/
def enclosed (source : String) : String := "(" ++ source ++ "\n)"

theorem passes_source (source : String) : (Cursor.ofText (enclosed source).toList).Passes ['(']
    ((Cursor.ofText source.toList).moved Position.inside [] ['\n', ')']) := by
  have htext : (enclosed source).toList = '(' :: (source.toList ++ ['\n', ')']) := by
    simp [enclosed]
  rw [Cursor.moved_of_rest (w := source.toList) (List.append_nil _).symm, htext]
  exact ⟨rfl, rfl⟩

/-- A single expression is read in parentheses too. -/
theorem reads_enclosed {source : String} {e : Expr} (h : Expr.parse source = .ok e) :
    ∃ d, d.rest = [] ∧ (e.moved Position.inside).Grouped ∧
      Reads .line ⟨some ((Cursor.ofText (enclosed source).toList).span d),
        .paren (e.moved Position.inside)⟩ (.ofText (enclosed source).toList) d := by
  obtain ⟨hgrouped, a, b, d, ha, hread, hd, hend⟩ := Expr.parse_eq_ok.1 h
  obtain ⟨_, hv⟩ := ha.passes
  obtain ⟨_, _, -, hw⟩ := hread.passes
  have hfirst := Position.steady_inside
  have hline : Stops (· != '\n') ['\n', ')'] := stops_cons.2 (by decide)
  have hlast : Mode.free.Skips (d.moved Position.inside [] ['\n', ')'])
      ⟨d.position.inside.next '\n', [')']⟩ := by
    rw [Cursor.moved_of_rest (w := []) hend]
    exact .blanks (w := ['\n']) (List.forall_mem_singleton.2 (by decide))
      (.of_stops (stops_cons.2 (by decide)))
  have hread' : Reads .free (e.moved Position.inside) (a.moved Position.inside [] ['\n', ')'])
      (b.moved Position.inside [] ['\n', ')']) :=
    hread.moved (fun x hx hword => by cases hx; exact absurd hword (by decide)) (hfirst.passes hv)
      List.nil_suffix
  obtain ⟨ho, -⟩ := ha.moved_trans hfirst List.nil_suffix (.inr hline) (hread'.no_gap .free)
  obtain ⟨hg, -⟩ := hd.moved_trans ((hfirst.passes hv).passes hw) List.nil_suffix (.inr hline) hlast
  refine ⟨⟨(d.position.inside.next '\n').next ')', []⟩, rfl, Expr.grouped_moved _ hgrouped, ?_⟩
  exact .paren ⟨_, passes_source source, ho⟩ hread' hg ⟨rfl, rfl⟩

theorem parse_of_reads {source : String} {e : Expr} {s : Option Span} {d : Cursor}
    (h : Reads .line ⟨s, .paren (e.moved Position.inside)⟩ (.ofText (enclosed source).toList) d)
    (hs : s = some ⟨.start, Position.start.after (enclosed source).toList⟩)
    (hgrouped : Expr.Grouped ⟨s, .paren (e.moved Position.inside)⟩) :
    Expr.parse source = .ok e := by
  have hd : d.rest = [] := by
    obtain ⟨x, w, -, hw⟩ := h.passes
    have hstop : d.position = Position.start.after (enclosed source).toList :=
      congrArg Span.stop (Option.some.inj (h.span_eq.symm.trans hs))
    have hoffset := hw.offset_eq
    have hlength := hw.length_eq
    rw [hstop, Position.offset_after] at hoffset
    exact List.length_eq_zero_iff.1 (by simp only [Cursor.ofText] at hoffset hlength; omega)
  cases h with
  | @paren _ _ _ c₁ c₂ c₃ _ ho hx hg hc =>
    obtain ⟨c₀, ho, hskip⟩ := ho
    obtain rfl := ho.right_unique (passes_source source)
    have hrest : ((Cursor.ofText source.toList).moved Position.inside [] ['\n', ')']).rest =
        source.toList ++ ['\n', ')'] := by
      rw [Cursor.moved_of_rest (w := source.toList) (List.append_nil _).symm]
    obtain ⟨v, hv⟩ := hskip.passes
    obtain ⟨w, y, hw, hy⟩ := hx.last
    obtain ⟨u, hu⟩ := hg.passes
    have hc₃ : c₃.rest = [')'] := by rw [hc.1, hd, List.append_nil]
    have hcut : ['\n', ')'] <:+ c₂.rest := by
      have hlast : source.toList ++ ['\n', ')'] = v ++ w ++ [y] ++ (u ++ [')']) := by
        rw [← hrest, hv.1, hw.1, hu.1, hc₃]
        simp
      rw [hu.1, hc₃]
      exact suffix_of_last hy hlast
    have hbegin : ((Cursor.ofText source.toList).moved Position.inside [] ['\n', ')']).moved
        Position.outside ['\n', ')'] [] = .ofText source.toList := by
      rw [Cursor.moved_of_rest hrest, List.append_nil]
      exact congrArg (Cursor.mk · source.toList) (Position.outside_inside _)
    have hsteady := Position.steady_outside
    have hmoved := Expr.moved_moved Position.outside_inside e
    have hlt : 2 < c₁.rest.length := by
      have := hw.length_eq
      have := hcut.length_le
      simp only [List.length_append, List.length_cons, List.length_nil] at *
      omega
    have hread : Reads .free ((e.moved Position.inside).moved Position.outside)
        (c₁.moved Position.outside ['\n', ')'] []) (c₂.moved Position.outside ['\n', ')'] []) :=
      hx.moved (fun _ hx => absurd hx (Option.not_mem_none _)) (hsteady.passes hv) hcut
    obtain ⟨hskip', -⟩ := hskip.moved_trans hsteady (hw.suffix hcut) (.inl hlt) (hread.no_gap .free)
    obtain ⟨b, hb, hg'⟩ := skips_cut hg ((hsteady.passes hv).passes hw) hcut (by rw [hc₃])
    rw [hbegin] at hskip'
    rw [hmoved] at hread
    refine Expr.parse_eq_ok.2 ⟨?_, _, _, b, hskip', hread, hg', hb⟩
    rw [← hmoved]
    exact Expr.grouped_moved _ (Expr.grouped_paren.1 hgrouped)

/-- A source is a single expression exactly if, in parentheses, it is a script of one statement that
is the parenthesis around this expression and nothing else. -/
theorem parse_enclosed (source : String) (e : Expr) : Expr.parse source = .ok e ↔
    (parse (enclosed source)).map Script.statements = .ok
      [⟨some ⟨.start, Position.start.after (enclosed source).toList⟩,
        .paren (e.moved Position.inside)⟩] := by
  have hskip : Mode.free.Skips (.ofText (enclosed source).toList)
      (.ofText (enclosed source).toList) := by
    apply Mode.Skips.of_stops
    rw [(passes_source source).1]
    exact stops_cons.2 (by decide)
  constructor
  · intro h
    obtain ⟨d, hd, hgrouped, hread⟩ := reads_enclosed h
    obtain ⟨x, w, -, hw⟩ := hread.passes
    have htext : (enclosed source).toList = x :: w := by
      have := hw.1
      rwa [hd, List.append_nil] at this
    have hspan : (Cursor.ofText (enclosed source).toList).span d =
        ⟨.start, Position.start.after (enclosed source).toList⟩ := by
      rw [htext]
      exact congrArg (Span.mk Position.start) hw.2
    have hstops (m : Mode) : m.Skips d d := .of_stops (by rw [hd]; exact stops_nil _)
    rw [hspan] at hread
    have hparse : parse (enclosed source) = .ok ⟨none, _, commentsOf (enclosed source).toList⟩ :=
      parse_eq_ok.2 ⟨rfl, rfl, _, _, hskip,
        .cons (.inr ⟨hread, Expr.grouped_paren.2 hgrouped⟩) (hstops .line) (.inr ⟨hd, rfl⟩)
          (hstops .free) (.nil hd)⟩
    rw [hparse]
    rfl
  · intro h
    obtain ⟨s, hs, hstatements⟩ : ∃ s, parse (enclosed source) = .ok s ∧ s.statements = _ := by
      cases hparse : parse (enclosed source) with
      | error _ =>
        rw [hparse] at h
        cases h
      | ok s =>
        rw [hparse] at h
        exact ⟨s, rfl, Except.ok.inj h⟩
    obtain ⟨-, -, c, d, hskip', hlines⟩ := parse_eq_ok.1 hs
    obtain rfl := hskip.unique hskip'
    rw [hstatements] at hlines
    cases hlines with
    | cons he _ _ _ _ =>
      rcases he with he | ⟨hread, hgrouped⟩
      · obtain ⟨_, _, _, -, heq⟩ := result?_load.1 he
        cases congrArg Expr.kind heq
      · exact parse_of_reads hread rfl hgrouped

end Script
end BuildScript
