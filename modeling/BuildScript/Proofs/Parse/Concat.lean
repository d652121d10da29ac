import BuildScript.Proofs.Parse.Moved
import BuildScript.Proofs.Parse.Places

/-!
Texts one below the other. Nothing of the first reaches into the second: two texts with a line end
between them are read as each is by itself, with the places of the second one moved down
(`parse_append`).
-/
namespace BuildScript
open BuildScript.Parser Lexeme Grammar

namespace Grammar

def ReadsAll (es : List Expr) (c d : Cursor) : Prop :=
  ∃ c', Mode.free.Skips c c' ∧ ReadsLines es c' d

variable {c c₁ c₂ c₃ d : Cursor} {e : Expr} {es : List Expr}

theorem EndsLine.unique (h : EndsLine c d) (h' : EndsLine c c₁) : d = c₁ := by
  have := (result?_lineEnd.2 h).symm.trans (result?_lineEnd.2 h')
  simpa using this

theorem EndsLine.skips (h : EndsLine c d) (k : Mode.free.Skips d c₁) : Mode.free.Skips c c₁ := by
  rcases h with h | ⟨-, rfl⟩
  · exact .step (Mode.result?_piece.2 (.inl ⟨'\n', by decide, h⟩)) k
  · exact k

theorem ReadsAll.rest_eq_nil (h : ReadsAll es c d) : d.rest = [] := by
  obtain ⟨_, -, h⟩ := h
  exact h.rest_eq_nil

theorem ReadsAll.passes (h : ReadsAll es c d) : ∃ w, c.Passes w d := by
  obtain ⟨_, hskip, h⟩ := h
  obtain ⟨_, hv⟩ := hskip.passes
  obtain ⟨_, hscan⟩ := h.scanned
  obtain ⟨_, hw⟩ := hscan.passes
  exact ⟨_, hv.trans hw⟩

theorem readsAll_end (hc : c.rest = []) : ReadsAll es c d ↔ es = [] ∧ d = c := by
  have hskip : Mode.free.Skips c c := .of_stops (by rw [hc]; exact stops_nil _)
  constructor
  · rintro ⟨c', hskip', hread⟩
    obtain rfl := hskip.unique hskip'
    cases hread with
    | nil _ => exact ⟨rfl, rfl⟩
    | cons he _ _ _ _ =>
      obtain ⟨x, w, -, hpass⟩ := he.passes
      simp [hpass.1] at hc
  · rintro ⟨rfl, rfl⟩
    exact ⟨_, hskip, .nil hc⟩

theorem readsLines_cons_iff (he : ReadsStatement e c c₁) (hg : Mode.line.Skips c₁ c₂)
    (hend : EndsLine c₂ c₃) :
    ReadsLines es c d ↔ ∃ us, es = e :: us ∧ ReadsAll us c₃ d := by
  constructor
  · intro h
    cases h with
    | nil hc =>
      obtain ⟨x, w, -, hpass⟩ := he.passes
      simp [hpass.1] at hc
    | cons he' hg' hend' hskip h =>
      have hb : c.rest.length ≤ c.rest.length + 1 := Nat.le_succ _
      have hsame := (statement_complete he hg hend.ends hb).symm.trans
        (statement_complete he' hg' hend'.ends hb)
      simp only [Option.some.injEq, Prod.mk.injEq] at hsame
      obtain ⟨rfl, rfl⟩ := hsame
      obtain rfl := hend.unique hend'
      exact ⟨_, rfl, _, hskip, h⟩
  · rintro ⟨us, rfl, c', hskip, h⟩
    exact .cons he hg hend hskip h

section Moved
variable {f : Position → Position} {rest' : List Char}

theorem EndsLine.stops (h : EndsLine c d) : Stops Mode.line.opens c.rest := by
  rcases h with h | ⟨h, -⟩
  · rw [h.1]
    exact stops_cons.2 (by decide)
  · rw [h]
    exact stops_nil _

theorem ReadsStatement.moved_line {c₀ : Cursor} (hnew : ∀ x ∈ rest'.head?, x = '\n')
    (hf : Steady f c₀.position) (hskip : Mode.free.Skips c₀ c) (he : ReadsStatement e c c₁)
    (hg : Mode.line.Skips c₁ c₂) (hend : EndsLine c₂ c₃) :
    Steady f c₂.position ∧ Mode.free.Skips (c₀.moved f [] rest') (c.moved f [] rest') ∧
      ReadsStatement (e.moved f) (c.moved f [] rest') (c₁.moved f [] rest') ∧
      Mode.line.Skips (c₁.moved f [] rest') (c₂.moved f [] rest') ∧
      ∃ cs, Scanned c₀ cs c₂ ∧
        Scanned (c₀.moved f [] rest') (cs.map (Comment.moved f)) (c₂.moved f [] rest') := by
  have hstop {test : Char → Bool} (htest : test '\n' = false) : Stops test rest' := fun x hx =>
    hnew x hx ▸ htest
  have hr : Resembles [] rest' := fun x hx hword => by
    rw [hnew x hx] at hword
    exact absurd hword (by decide)
  obtain ⟨x, v, hx, hpass⟩ := he.passes
  obtain ⟨_, hw⟩ := hskip.passes
  obtain ⟨_, hu⟩ := hg.passes
  have hfirst : Stops Mode.free.opens (c.moved f [] rest').rest := by
    refine Stops.moved ?_ List.nil_suffix (.inl ?_)
    · rw [hpass.1, List.cons_append, stops_cons]
      exact not_opens_of_beginsOperand hx _
    · simp [hpass.1]
  have hlast : Stops Mode.line.opens (c₂.moved f [] rest').rest :=
    hend.stops.moved List.nil_suffix (.inr fun _ => hstop (by decide))
  obtain ⟨hskip', cs, hscan, hscan'⟩ := hskip.moved_trans hf List.nil_suffix
    (.inr (hstop (by decide))) (.of_stops hfirst)
  obtain ⟨_, he', h₁, rfl, as, hscan₁, hscan₁'⟩ :=
    (carries_moved hr _ _).statement (.refl (hf.passes hw)) he List.nil_suffix
  obtain ⟨hg', bs, hscan₂, hscan₂'⟩ := hg.moved_trans h₁ List.nil_suffix
    (.inr (hstop (by decide))) (.of_stops hlast)
  refine ⟨h₁.passes hu, hskip', he', hg', cs ++ (as ++ bs), hscan.trans (hscan₁.trans hscan₂), ?_⟩
  rw [List.map_append, List.map_append]
  exact hscan'.trans (hscan₁'.trans hscan₂')

/-- With another text behind that begins on a new line, first the same is read, and then what
stands in the other text. -/
theorem ReadsAll.moved {c₀ d₀ : Cursor} (h : ReadsAll es c₀ d) (hf : Steady f c₀.position)
    (hend : EndsLine (d.moved f [] rest') d₀) :
    (∃ cs, Scanned c₀ cs d ∧
      Scanned (c₀.moved f [] rest') (cs.map (Comment.moved f)) (d.moved f [] rest')) ∧
    ∀ ts D, ReadsAll ts (c₀.moved f [] rest') D ↔
      ∃ us, ts = es.map (Expr.moved f) ++ us ∧ ReadsAll us d₀ D := by
  obtain ⟨c, hskip, h⟩ := h
  have hnew : ∀ x ∈ rest'.head?, x = '\n' := by
    have hrest : (d.moved f [] rest').rest = rest' := by
      rw [Cursor.moved_of_rest (w := []) h.rest_eq_nil]
      rfl
    rw [← hrest]
    rcases hend with hend | ⟨hend, -⟩
    · simp [hend.1]
    · simp [hend]
  induction h generalizing c₀ with
  | @nil c hc =>
    have hcomment : Stops (· != '\n') rest' := fun x hx => by simp [hnew x hx]
    obtain ⟨e, hlast⟩ := Mode.exists_skips .free d₀
    obtain ⟨hskip', hscan⟩ := hskip.moved_trans hf List.nil_suffix (.inr hcomment)
      (hend.skips hlast)
    refine ⟨hscan, fun ts D => ⟨?_, ?_⟩⟩
    · rintro ⟨c', hc', h⟩
      exact ⟨ts, rfl, e, hlast, hskip'.unique hc' ▸ h⟩
    · rintro ⟨us, rfl, c', hc', h⟩
      exact ⟨e, hskip', hlast.unique hc' ▸ h⟩
  | @cons e es c c₁ c₂ c₃ c₄ d he hg hline hfree h ih =>
    obtain ⟨h₂, hskip', he', hg', as, hscan, hscan'⟩ := he.moved_line hnew hf hskip hg hline
    have hnext : ∃ c₃', EndsLine (c₂.moved f [] rest') c₃' ∧
        (∃ cs, Scanned c₂ cs d ∧
          Scanned (c₂.moved f [] rest') (cs.map (Comment.moved f)) (d.moved f [] rest')) ∧
        ∀ ts D, ReadsAll ts c₃' D ↔
          ∃ us, ts = es.map (Expr.moved f) ++ us ∧ ReadsAll us d₀ D := by
      rcases hline with hn | ⟨hc₂, rfl⟩
      · have hn' : (c₂.moved f [] rest').Passes ['\n'] (c₃.moved f [] rest') :=
          hn.moved h₂ List.nil_suffix
        obtain ⟨⟨cs, hscan, hscan'⟩, hall⟩ := ih (h₂.passes hn) hend hfree
        exact ⟨_, .inl hn', ⟨cs, (Scanned.word (forall_plain (by decide)) hn).trans hscan,
          (Scanned.word (forall_plain (by decide)) hn').trans hscan'⟩, hall⟩
      · -- The last line of the text ends where the other text begins.
        obtain ⟨rfl, rfl⟩ := (readsAll_end hc₂).1 ⟨c₄, hfree, h⟩
        exact ⟨d₀, hend, ⟨[], .refl, .refl⟩, by simp⟩
    obtain ⟨c₃', hline', ⟨bs, hrest, hrest'⟩, hall⟩ := hnext
    refine ⟨⟨as ++ bs, hscan.trans hrest, ?_⟩, fun ts D => ?_⟩
    · rw [List.map_append]
      exact hscan'.trans hrest'
    have hlines : ReadsLines ts (c.moved f [] rest') D ↔
        ∃ us, ts = e.moved f :: us ∧ ReadsAll us c₃' D := readsLines_cons_iff he' hg' hline'
    constructor
    · rintro ⟨c', hc', hread⟩
      obtain rfl := hskip'.unique hc'
      obtain ⟨us, rfl, hlater⟩ := hlines.1 hread
      obtain ⟨vs, rfl, hother⟩ := (hall _ _).1 hlater
      exact ⟨vs, rfl, hother⟩
    · rintro ⟨vs, rfl, hread⟩
      exact ⟨_, hskip', hlines.2 ⟨_, rfl, (hall _ _).2 ⟨vs, rfl, hread⟩⟩⟩

theorem Cursor.moved_end (hd : d.rest = []) : d.moved f [] rest' = ⟨f d.position, rest'⟩ :=
  Cursor.moved_of_rest (w := []) hd

theorem readsAll_moved_iff {g : Position → Position} (hf : ∀ p, Steady f p)
    (hg : ∀ p, g (f p) = p) {us : List Expr} {D : Cursor} :
    ReadsAll us (c.moved f [] []) D ↔
      ∃ es d, ReadsAll es c d ∧ us = es.map (Expr.moved f) ∧ D = d.moved f [] [] := by
  have hmoved {es : List Expr} {d : Cursor} (h : ReadsAll es c d) (ts : List Expr) (D : Cursor) :
      ReadsAll ts (c.moved f [] []) D ↔ ts = es.map (Expr.moved f) ∧ D = d.moved f [] [] := by
    have hend : (d.moved f [] []).rest = [] := by rw [Cursor.moved_end h.rest_eq_nil]
    rw [(h.moved (hf _) (.inr ⟨hend, rfl⟩)).2]
    simp [readsAll_end hend]
  constructor
  · intro h
    have hback : Steady g (c.moved f [] []).position := fun w => by
      show g ((f c.position).after w) = (g (f c.position)).after w
      rw [← hf, hg, hg]
    have hsame : (c.moved f [] []).moved g [] [] = c := by
      simp [Cursor.moved, hg]
    have hend : (D.moved g [] []).rest = [] := by rw [Cursor.moved_end h.rest_eq_nil]
    have horigin : ReadsAll (us.map (Expr.moved g)) c (D.moved g [] []) := by
      have hline : EndsLine (D.moved g [] []) (D.moved g [] []) := .inr ⟨hend, rfl⟩
      have := ((h.moved hback hline).2 (us.map (Expr.moved g)) _).2
        ⟨[], by simp, (readsAll_end hend).2 ⟨rfl, rfl⟩⟩
      rwa [hsame] at this
    obtain ⟨hus, hD⟩ := (hmoved horigin us D).1 h
    exact ⟨_, _, horigin, hus, hD⟩
  · rintro ⟨es, d, h, rfl, rfl⟩
    exact (hmoved h _ _).2 ⟨rfl, rfl⟩

end Moved
end Grammar

namespace Position

/-- The place `p` of a text, when the text stands below another one. -/
def below (above : List Char) (p : Position) : Position where
  line := p.line + (above.count '\n' + 1)
  column := p.column
  offset := p.offset + (above.length + 1)

theorem steady_below (above : List Char) (p : Position) : Steady (below above) p := by
  intro w
  induction w generalizing p with
  | nil => rfl
  | cons x w ih =>
    rw [after_cons, after_cons, ih]
    have hnext : (p.next x).below above = (p.below above).next x := by
      by_cases hx : x = '\n'
      · simp [next, below, hx]
        omega
      · simp [next, below, hx]
        omega
    rw [hnext]

def raised (above : List Char) (p : Position) : Position where
  line := p.line - (above.count '\n' + 1)
  column := p.column
  offset := p.offset - (above.length + 1)

theorem raised_below (above : List Char) (p : Position) :
    (p.below above).raised above = p := by
  simp [below, raised]

theorem next_after_start (above : List Char) :
    (start.after above).next '\n' = start.below above := by
  have hline := line_after start above
  have hoffset := offset_after start above
  unfold next below
  simp only [if_true, mk.injEq, hline, hoffset]
  exact ⟨Nat.add_assoc .., rfl, Nat.add_assoc ..⟩

end Position

theorem Grammar.ReadsAll.passes_below {above : List Char} {es : List Expr} {d : Cursor}
    (h : ReadsAll es (.ofText above) d) (text : List Char) :
    (d.moved id [] ('\n' :: text)).Passes ['\n']
      ((Cursor.ofText text).moved (Position.below above) [] []) := by
  obtain ⟨w, hw⟩ := h.passes
  have hrest : above = w := by simpa [Cursor.ofText, h.rest_eq_nil] using hw.1
  have hposition : d.position = Position.start.after above := hrest ▸ hw.2
  rw [Cursor.moved_end h.rest_eq_nil, Cursor.moved_of_rest (w := text) (List.append_nil _).symm]
  refine ⟨by simp, ?_⟩
  show Position.start.below above = (id d.position).next '\n'
  rw [hposition]
  exact (Position.next_after_start above).symm

namespace Script
variable {source a b : String} {s t : Script}

theorem parse_eq_ok_iff_readsAll : parse source = .ok s ↔
    s = ⟨none, s.statements, commentsOf source.toList⟩ ∧
      ∃ d, ReadsAll s.statements (.ofText source.toList) d := by
  obtain ⟨path, es, comments⟩ := s
  rw [parse_eq_ok, mk.injEq]
  constructor
  · rintro ⟨hpath, hcomments, c, d, h⟩
    exact ⟨⟨hpath, rfl, hcomments⟩, d, c, h⟩
  · rintro ⟨⟨hpath, -, hcomments⟩, d, c, h⟩
    exact ⟨hpath, hcomments, c, d, h⟩

/-- Below a text that is accepted, another one is accepted exactly if it is by itself. Then the
statements and comments are those of the first text and, moved down, those of the second one. -/
theorem parse_append (h : parse a = .ok s) (b : String) (t : Script) :
    parse (a ++ "\n" ++ b) = .ok t ↔ ∃ u, parse b = .ok u ∧
      t = ⟨none, s.statements ++ u.statements.map (Expr.moved (Position.below a.toList)),
        s.comments ++ u.comments.map (Comment.moved (Position.below a.toList))⟩ := by
  obtain ⟨hs, d, hread⟩ := parse_eq_ok_iff_readsAll.1 h
  have hd := hread.rest_eq_nil
  have htext : (a ++ "\n" ++ b).toList = a.toList ++ '\n' :: b.toList := by simp
  have hstart : (Cursor.ofText a.toList).moved id [] ('\n' :: b.toList) =
      .ofText (a ++ "\n" ++ b).toList := by
    rw [htext]
    exact Cursor.moved_of_rest (w := a.toList) (List.append_nil _).symm
  have hbelow := hread.passes_below b.toList
  obtain ⟨⟨as, hscan, hscan'⟩, hall⟩ := hread.moved (fun _ => rfl) (.inl hbelow)
  rw [hstart] at hscan' hall
  have hraised := Position.raised_below a.toList
  have hsteady := Position.steady_below a.toList
  -- The comments of both, one after the other.
  have hcomments {us : List Expr} {e : Cursor} (hus : ReadsAll us (.ofText b.toList) e) :
      commentsOf (a ++ "\n" ++ b).toList = commentsOf a.toList ++
        (commentsOf b.toList).map (Comment.moved (Position.below a.toList)) := by
    have hend : (e.moved (Position.below a.toList) [] []).rest = [] := by
      rw [Cursor.moved_end hus.rest_eq_nil]
    obtain ⟨⟨bs, hscan₂, hscan₂'⟩, -⟩ := hus.moved (hsteady _) (.inr ⟨hend, rfl⟩)
    have hall := (hscan'.trans (.word (forall_plain (by decide)) hbelow)).trans hscan₂'
    rw [hall.commentsOf_eq hend, hscan.commentsOf_eq hd, hscan₂.commentsOf_eq hus.rest_eq_nil,
      List.append_nil]
    exact congrArg (· ++ _) (List.map_id as)
  rw [parse_eq_ok_iff_readsAll]
  simp only [hall, map_moved_id, readsAll_moved_iff hsteady hraised]
  constructor
  · rintro ⟨ht, D, us, hus, es, e, hes, rfl, rfl⟩
    refine ⟨⟨none, es, commentsOf b.toList⟩, parse_eq_ok_iff_readsAll.2 ⟨rfl, e, hes⟩, ?_⟩
    rw [ht, hus, hcomments hes, hs]
  · rintro ⟨u, hu, rfl⟩
    obtain ⟨hu, e, hes⟩ := parse_eq_ok_iff_readsAll.1 hu
    refine ⟨?_, _, _, rfl, _, _, hes, rfl, rfl⟩
    rw [hcomments hes, hs, hu]

def nameAndComment : Script where
  path := none
  statements := [⟨some ⟨⟨1, 1, 0⟩, ⟨1, 2, 1⟩⟩, .ident "a"⟩]
  comments := [⟨⟨⟨1, 3, 2⟩, ⟨1, 6, 5⟩⟩, "# b"⟩]

theorem parse_nameAndComment : parse "a # b" = .ok nameAndComment := by cbv

/-- The comment does not take in the line below it. -/
theorem parse_append_nameAndComment : parse "a # b" = .ok nameAndComment ∧
    ∀ t, parse ("a # b" ++ "\n" ++ "c") = .ok t ↔ ∃ u, parse "c" = .ok u ∧
      t = ⟨none, nameAndComment.statements ++
          u.statements.map (Expr.moved (Position.below "a # b".toList)),
        nameAndComment.comments ++
          u.comments.map (Comment.moved (Position.below "a # b".toList))⟩ :=
  ⟨parse_nameAndComment, parse_append parse_nameAndComment "c"⟩

end Script
end BuildScript
