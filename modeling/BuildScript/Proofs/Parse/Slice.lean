import BuildScript.Proofs.Parse.Moved
import BuildScript.Proofs.Parse.Places

/-!
Slices of a source. The span of a node covers the text of that node and nothing else: cut out and
read by itself, the text gives the same node, counted from its own beginning (`parse_slice`). A
node by itself is read as in brackets, where no line is carried over its end by a backslash, so the
text must not do that.
-/
namespace BuildScript
open BuildScript.Parser Lexeme Grammar

namespace Grammar

def Straight (c d : Cursor) : Prop :=
  ∀ a b as bs, Scanned c as a → a.Passes ['\\', '\n'] b → ¬ Scanned b bs d

theorem Straight.mono {c c' d' d : Cursor} {as bs : List Comment} (h : Straight c d)
    (hc : Scanned c as c') (hd : Scanned d' bs d) : Straight c' d' :=
  fun _ _ _ _ ha hab hb => h _ _ _ _ (hc.trans ha) hab (hb.trans hd)

theorem Straight.gap {m : Mode} {c d : Cursor} (hs : Straight c d) (h : m.Skips c d)
    (hd : Bars (fun _ => True) d) : Mode.free.Skips c d := by
  have key : Straight c d → Mode.free.Skips c d ∧ ∃ bs, Scanned c bs d := by
    refine h.induct (motive := fun c => Straight c d → Mode.free.Skips c d ∧ ∃ bs, Scanned c bs d)
      ?_ ?_
    · exact fun _ => ⟨.of_stops (hd.stops _), [], .refl⟩
    · intro a b hab ih hs
      rcases Mode.result?_piece.1 hab with ⟨x, hx, hpass⟩ | ⟨-, hpass⟩ | ⟨body, hn, hpass, hstop⟩
      · have hscan := Scanned.word (List.forall_mem_singleton.2 (plain_blank hx)) hpass
        obtain ⟨ih, _, hb⟩ := ih (hs.mono hscan .refl)
        have hblank : Mode.free.blank x = true := by
          cases m with
          | free => exact hx
          | line =>
            simp only [Mode.blank, Bool.or_eq_true, beq_iff_eq] at hx
            rcases hx with (rfl | rfl) | rfl <;> decide
        exact ⟨.step (Mode.result?_piece.2 (.inl ⟨x, hblank, hpass⟩)) ih, _, hscan.trans hb⟩
      · have hscan := Scanned.word (forall_plain (by decide)) hpass
        obtain ⟨-, _, hb⟩ := ih (hs.mono hscan .refl)
        exact absurd hb (hs _ _ _ _ .refl hpass)
      · have hscan := Scanned.comment hn hpass hstop
        obtain ⟨ih, _, hb⟩ := ih (hs.mono hscan .refl)
        exact ⟨.step (Mode.result?_piece.2 (.inr (.inr ⟨body, hn, hpass, hstop⟩))) ih, _,
          hscan.trans hb⟩
  exact (key hs).1

theorem Reads.free {m : Mode} {e : Expr} {c d : Cursor} (h : Reads m e c d) (hs : Straight c d) :
    Reads .free e c d := by
  match h, hs with
  | .literal h, hs => exact .literal h
  | .string h, hs => exact .string h
  | .ident h, hs => exact .ident h
  | .paren ho hx hg hc, hs => exact .paren ho hx hg hc
  | .list ho hx hc, hs => exact .list ho hx hc
  | .call hf hg ho hx hc, hs =>
    obtain ⟨_, hf'⟩ := hf.scanned
    obtain ⟨_, hg'⟩ := Scanned.gap hg
    obtain ⟨_, ho'⟩ := ho.scanned (by decide)
    obtain ⟨_, hx'⟩ := hx.scanned
    have hargs := (ho'.trans hx').trans (.char (by decide) hc)
    exact .call (hf.free (hs.mono .refl (hg'.trans hargs)))
      ((hs.mono hf' hargs).gap hg (ho.bars (by decide) trivial)) ho hx hc
  | .dot hx hg hd hg' hn, hs =>
    obtain ⟨_, hx'⟩ := hx.scanned
    obtain ⟨_, hu⟩ := Scanned.gap hg
    obtain ⟨_, hv⟩ := Scanned.gap hg'
    have hdot := Scanned.char (by decide) hd
    have hname := (hdot.trans hv).trans (.name hn)
    exact .dot (hx.free (hs.mono .refl (hu.trans hname)))
      ((hs.mono hx' hname).gap hg (hd.bars trivial (by decide))) hd
      ((hs.mono ((hx'.trans hu).trans hdot) (.name hn)).gap hg' (bars_of_name hn trivial)) hn
  | .unary hsign hg hx, hs =>
    obtain ⟨_, hu⟩ := Scanned.gap hg
    obtain ⟨_, hx'⟩ := hx.scanned
    have hsign' := Scanned.sign hsign
    exact .unary hsign ((hs.mono hsign' hx').gap hg (hx.bars trivial))
      (hx.free (hs.mono (hsign'.trans hu) .refl))
  | .binary hl hg hop hg' hr, hs =>
    obtain ⟨_, hl'⟩ := hl.scanned
    obtain ⟨_, hu⟩ := Scanned.gap hg
    obtain ⟨_, hv⟩ := Scanned.gap hg'
    obtain ⟨_, hr'⟩ := hr.scanned
    have hop' := Scanned.symbol hop
    exact .binary (hl.free (hs.mono .refl (((hu.trans hop').trans hv).trans hr')))
      ((hs.mono hl' ((hop'.trans hv).trans hr')).gap hg (bars_of_symbol hop trivial)) hop
      ((hs.mono ((hl'.trans hu).trans hop') hr').gap hg' (hr.bars trivial))
      (hr.free (hs.mono (((hl'.trans hu).trans hop').trans hv) .refl))

end Grammar

namespace Position

def since (p q : Position) : Position where
  line := q.line - p.line + 1
  column := if q.line = p.line then q.column - p.column + 1 else q.column
  offset := q.offset - p.offset

theorem column_le_after (p : Position) (w : List Char) (h : (p.after w).line = p.line) :
    p.column ≤ (p.after w).column := by
  induction w using List.reverseRecOn with
  | nil => exact Nat.le_refl _
  | append_singleton w x ih =>
    rw [after_append, after_cons, after_nil, next] at h ⊢
    have hle : p.line ≤ (p.after w).line := by
      rw [line_after]
      exact Nat.le_add_right _ _
    split at h
    next => simp only at h; omega
    next hx =>
      rw [if_neg hx]
      exact Nat.le_succ_of_le (ih h)

theorem since_after (p : Position) (w : List Char) : p.since (p.after w) = start.after w := by
  induction w using List.reverseRecOn with
  | nil => simp [since, start]
  | append_singleton w x ih =>
    have hle : p.line ≤ (p.after w).line := by
      rw [line_after]
      exact Nat.le_add_right _ _
    have hoffset : p.offset ≤ (p.after w).offset := by
      rw [offset_after]
      exact Nat.le_add_right _ _
    rw [after_append, after_append, ← ih, after_cons, after_cons, after_nil, after_nil]
    unfold next
    split
    next =>
      have hne : (p.after w).line + 1 ≠ p.line := by omega
      simp only [since, hne, if_false, mk.injEq, true_and]
      omega
    next =>
      have hcolumn := column_le_after p w
      simp only [since, mk.injEq, true_and]
      refine ⟨?_, by omega⟩
      split
      next h =>
        have := hcolumn h
        omega
      · rfl

theorem steady_since (p : Position) : Steady p.since p := by
  intro w
  have hstart : p.since p = start := since_after p []
  rw [since_after, hstart]

end Position

namespace Span

/-- The part of the text that the span covers. -/
def slice (text : List Char) (s : Span) : List Char :=
  (text.drop s.start.offset).take (s.stop.offset - s.start.offset)

/-- In the part of the text that the span covers, no backslash stands before a line end, but in
comments. -/
def Straight (text : List Char) (s : Span) : Prop :=
  ∀ i, s.start.offset ≤ i → i + 1 < s.stop.offset → text[i]? = some '\\' →
    text[i + 1]? = some '\n' →
      ∃ c ∈ Script.commentsOf text, c.span.start.offset ≤ i ∧ i < c.span.stop.offset

theorem straight_of_notMem {text : List Char} (h : '\\' ∉ text) (s : Span) : s.Straight text :=
  fun _ _ _ hback _ => absurd (List.mem_of_getElem? hback) h

theorem slice_span {text v w : List Char} {a b : Cursor} (ha : (Cursor.ofText text).Passes v a)
    (hab : a.Passes w b) : (a.span b).slice text = w := by
  have hstart : a.position.offset = v.length := by
    rw [ha.offset_eq]
    exact Nat.zero_add _
  have hlength : (a.span b).stop.offset - (a.span b).start.offset = w.length := by
    show b.position.offset - a.position.offset = _
    rw [hab.offset_eq]
    omega
  have htext : text = v ++ (w ++ b.rest) := ha.1.trans (congrArg (v ++ ·) hab.1)
  rw [slice, hlength]
  show (text.drop a.position.offset).take _ = w
  rw [hstart, htext, List.drop_left, List.take_left]

end Span

namespace Grammar

theorem straight_of_span {text : List Char} {as bs : List Comment} {a b d : Cursor}
    (ha : Scanned (.ofText text) as a) (hb : Scanned b bs d) (hd : d.rest = [])
    (h : (a.span b).Straight text) : Straight a b := by
  intro a' b' _ _ ha' hab hb'
  obtain ⟨v, hv⟩ := (ha.trans ha').passes
  obtain ⟨_, hva⟩ := ha'.passes
  obtain ⟨_, hvb⟩ := hb'.passes
  have hi : a'.position.offset = v.length := by
    rw [hv.offset_eq]
    exact Nat.zero_add _
  have hlow := hva.offset_eq
  have hmid := hab.offset_eq
  have hhigh := hvb.offset_eq
  have htext : text = v ++ '\\' :: '\n' :: b'.rest := hv.1.trans (congrArg (v ++ ·) hab.1)
  simp only [List.length_cons, List.length_nil] at hmid
  obtain ⟨c, hc, hstart, hstop⟩ := h v.length (by show a.position.offset ≤ _; omega)
    (by show _ < b.position.offset; omega) (by simp [htext]) (by simp [htext])
  have hscan := Scanned.word (forall_plain (by decide)) hab
  rcases (ha.trans ha').apart hscan (hb'.trans hb) hd c hc with hle | hle <;> omega

end Grammar

namespace Expr

/-- Read by itself, the text of the node is the node, if no line of it is carried over its end. -/
def Sliced (text : List Char) (n : Expr) : Prop :=
  ∃ s, n.span = some s ∧ (s.Straight text →
    Expr.parse (String.ofList (s.slice text)) = .ok (n.moved s.start.since))

end Expr

theorem Cursor.moved_slice {a b : Cursor} {w : List Char} (hab : a.Passes w b) :
    a.moved a.position.since b.rest [] = .ofText w ∧
      (b.moved a.position.since b.rest []).rest = [] := by
  refine ⟨?_, ?_⟩
  · rw [Cursor.moved_of_rest hab.1, List.append_nil]
    exact congrArg (Cursor.mk · w) (Position.since_after a.position [])
  · rw [Cursor.moved_of_rest (w := []) rfl]
    rfl

theorem resembles_nil (rest : List Char) : Resembles rest [] := nofun

theorem Grammar.Within.sliced {text : List Char} {n : Expr} {d : Cursor}
    (h : Within (.ofText text) d n) (hd : d.rest = []) (hgrouped : n.Grouped) : n.Sliced text := by
  obtain ⟨m, a, b, _, _, ha, hread, hb⟩ := h
  refine ⟨_, hread.span_eq, fun hs => ?_⟩
  obtain ⟨v, hv⟩ := ha.passes
  obtain ⟨x, w, -, hw⟩ := hread.passes
  have hfree := hread.free (straight_of_span ha hb hd hs)
  have hmoved := hfree.moved (resembles_nil b.rest) (Position.steady_since _) (List.suffix_refl _)
  obtain ⟨hstart, hstop⟩ := Cursor.moved_slice hw
  rw [Span.slice_span hv hw]
  rw [hstart] at hmoved
  refine Expr.parse_eq_ok.2 ⟨Expr.grouped_moved _ hgrouped, _, _, _, ?_, hmoved, ?_, hstop⟩
  · rw [String.toList_ofList]
    exact hmoved.no_gap .free
  · apply Mode.Skips.of_stops
    rw [hstop]
    exact stops_nil _

theorem load_sliced {text : List Char} {e : Expr} {v : List Char} {a b : Cursor}
    (ha : (Cursor.ofText text).Passes v a) (h : result? load a = some (e, b)) :
    (Script.parse (String.ofList ((a.span b).slice text))).map Script.statements =
      .ok [e.moved a.position.since] := by
  obtain ⟨x, w, hx, hw⟩ := (ReadsStatement.passes (.inl h) : ∃ x w, _)
  have hmoved := load_moved (resembles_nil b.rest) h (Position.steady_since _) (List.suffix_refl _)
  obtain ⟨hstart, hstop⟩ := Cursor.moved_slice hw
  rw [hstart] at hmoved
  have hstops (m : Mode) : Stops m.opens (b.moved a.position.since b.rest []).rest := by
    rw [hstop]
    exact stops_nil _
  have hparse : Script.parse (String.ofList (x :: w)) =
      .ok ⟨none, [e.moved a.position.since], Script.commentsOf (x :: w)⟩ := by
    rw [Script.parse_eq_ok, String.toList_ofList]
    refine ⟨rfl, rfl, _, _, .of_stops ?_, .cons (.inl hmoved) (.of_stops (hstops .line))
      (.inr ⟨hstop, rfl⟩) (.of_stops (hstops .free)) (.nil hstop)⟩
    exact stops_cons.2 (not_opens_of_beginsOperand hx .free)
  rw [Span.slice_span ha hw, hparse]
  rfl

/-- The span of a node slices out that node: of an expression every node, and of a script every load
statement and all nodes of other statements. -/
theorem parse_slice (source : String) :
    (∀ e, Expr.parse source = .ok e → e.Every (Expr.Sliced source.toList)) ∧
      ∀ s, Script.parse source = .ok s → ∀ e ∈ s.statements,
        (e.kind ≠ .load → e.Every (Expr.Sliced source.toList)) ∧
        (e.kind = .load → ∃ sp, e.span = some sp ∧
          (Script.parse (String.ofList (sp.slice source.toList))).map Script.statements =
            .ok [e.moved sp.start.since]) := by
  refine ⟨fun e h n hn => ?_, fun s h e he => ?_⟩
  · obtain ⟨hgrouped, c, d, d', hskip, hread, hskip', hd⟩ := Expr.parse_eq_ok.1 h
    obtain ⟨_, hskip⟩ := Scanned.gap hskip
    obtain ⟨_, hskip'⟩ := Scanned.gap hskip'
    exact (every_within hread.within hskip hskip' n hn).sliced hd (hgrouped.below n hn)
  · obtain ⟨-, -, c, d, hskip, hread⟩ := Script.parse_eq_ok.1 h
    obtain ⟨_, hskip⟩ := Scanned.gap hskip
    obtain ⟨a, b, _, _, ha, hstatement, hb⟩ := hread.within e he
    have ha := hskip.trans ha
    rcases hstatement with hload | ⟨hexpr, hgrouped⟩
    · obtain ⟨_, hv⟩ := ha.passes
      obtain ⟨_, _, _, -, rfl⟩ := result?_load.1 hload
      exact ⟨fun hkind => absurd rfl hkind, fun _ => ⟨_, rfl, load_sliced hv hload⟩⟩
    · have hkind : e.kind ≠ .load := by
        cases hexpr <;> exact nofun
      refine ⟨fun _ n hn => ?_, fun hload => absurd hload hkind⟩
      exact (every_within hexpr.within ha hb n hn).sliced hread.rest_eq_nil (hgrouped.below n hn)

def sumsAndLoad : Script where
  path := none
  statements := [
    ⟨some ⟨⟨1, 1, 0⟩, ⟨1, 8, 7⟩⟩, .binary .lt ⟨some ⟨⟨1, 1, 0⟩, ⟨1, 2, 1⟩⟩, .ident "a"⟩
      ⟨some ⟨⟨1, 3, 2⟩, ⟨1, 8, 7⟩⟩, .binary .add ⟨some ⟨⟨1, 3, 2⟩, ⟨1, 4, 3⟩⟩, .ident "b"⟩
        ⟨some ⟨⟨1, 7, 6⟩, ⟨1, 8, 7⟩⟩, .literal "1"⟩⟩⟩,
    ⟨some ⟨⟨2, 1, 8⟩, ⟨2, 10, 17⟩⟩, .load ⟨some ⟨⟨2, 6, 13⟩, ⟨2, 9, 16⟩⟩, .string "m"⟩ []⟩]
  comments := []

theorem parse_slice_sumsAndLoad : Script.parse "a<b + 1\nload('m')" = .ok sumsAndLoad ∧
    Expr.parse "b + 1" = .ok ⟨some ⟨⟨1, 1, 0⟩, ⟨1, 6, 5⟩⟩, .binary .add
      ⟨some ⟨⟨1, 1, 0⟩, ⟨1, 2, 1⟩⟩, .ident "b"⟩ ⟨some ⟨⟨1, 5, 4⟩, ⟨1, 6, 5⟩⟩, .literal "1"⟩⟩ ∧
    (Script.parse "load('m')").map Script.statements = .ok [⟨some ⟨⟨1, 1, 0⟩, ⟨1, 10, 9⟩⟩,
      .load ⟨some ⟨⟨1, 6, 5⟩, ⟨1, 9, 8⟩⟩, .string "m"⟩ []⟩] := by
  have hparse : Script.parse "a<b + 1\nload('m')" = .ok sumsAndLoad := by cbv
  have hslices := (parse_slice "a<b + 1\nload('m')").2 _ hparse
  obtain ⟨hsum, hload⟩ := List.forall_mem_cons.1 hslices
  refine ⟨hparse, ?_, ?_⟩
  · obtain ⟨-, -, hright⟩ := Expr.every_binary.1 (hsum.1 (by decide))
    obtain ⟨_, ⟨⟩, hsum⟩ := (Expr.every_iff.1 hright).1
    exact hsum (Span.straight_of_notMem (by decide) _)
  · obtain ⟨_, ⟨⟩, hload⟩ := (hload _ (.head _)).2 rfl
    exact hload

end BuildScript
