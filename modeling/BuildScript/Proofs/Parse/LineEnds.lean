import BuildScript.Proofs.Parse.Blanked
import BuildScript.Proofs.Parse.Slice

/-!
Line ends of two characters. With a carriage return in front of every line end a source is read as
before, line by line, unless a backslash carries a line over its end: between the backslash and the
line end there is no place for another character (`carries_crlf`).
-/
namespace BuildScript
open BuildScript.Parser Lexeme Grammar

def crlf (text : List Char) : List Char :=
  text.flatMap fun x => if x = '\n' then ['\r', '\n'] else [x]

theorem crlf_append (v w : List Char) : crlf (v ++ w) = crlf v ++ crlf w :=
  List.flatMap_append

theorem crlf_newline (rest : List Char) : crlf ('\n' :: rest) = '\r' :: '\n' :: crlf rest := rfl

theorem crlf_cons {x : Char} (hx : x ≠ '\n') (rest : List Char) :
    crlf (x :: rest) = x :: crlf rest := by
  rw [crlf, List.flatMap_cons, if_neg hx]
  rfl

theorem head?_crlf_ne (rest : List Char) : (crlf rest).head? ≠ some '\n' := by
  cases rest with
  | nil => exact nofun
  | cons x rest =>
    by_cases hx : x = '\n'
    · rw [hx, crlf_newline]
      simp
    · rw [crlf_cons hx]
      simpa using hx

theorem crlf_of_head? {x : Char} {rest rest' : List Char} (hn : rest.head? ≠ some '\n')
    (h : crlf rest = x :: rest') : ∃ v, rest = x :: v ∧ rest' = crlf v := by
  cases rest with
  | nil => cases h
  | cons y rest =>
    rw [crlf_cons (by simpa using hn)] at h
    obtain ⟨rfl, rfl⟩ := List.cons.inj h
    exact ⟨rest, rfl, rfl⟩

theorem crlf_of_notMem {w : List Char} (h : '\n' ∉ w) : crlf w = w := by
  induction w with
  | nil => rfl
  | cons x w ih =>
    rw [List.mem_cons, not_or] at h
    rw [crlf_cons (Ne.symm h.1), ih h.2]

theorem Lexeme.Spells.newline_notMem {q : Char} {w v : List Char} (h : Spells q w v) :
    '\n' ∉ w := by
  induction h with
  | nil => exact List.not_mem_nil
  | plain _ _ hn _ ih => exact List.not_mem_cons_of_ne_of_not_mem (Ne.symm hn) ih
  | @escaped e x w v he _ ih =>
    have hn : ∀ p ∈ escapes, '\n' ≠ p.1 := by decide
    exact List.not_mem_cons_of_ne_of_not_mem (by decide)
      (List.not_mem_cons_of_ne_of_not_mem (hn _ he) ih)

namespace Position

def crlf (p : Position) : Position where
  line := p.line
  column := p.column
  offset := p.offset + (p.line - 1)

theorem crlf_after {p : Position} {w : List Char} (h : '\n' ∉ w) :
    (p.after w).crlf = p.crlf.after w := by
  rw [after_eq h, after_eq h]
  simp only [crlf, mk.injEq, true_and]
  omega

theorem crlf_next {p : Position} (h : 0 < p.line) :
    (p.next '\n').crlf = (p.crlf.next '\r').next '\n' := by
  have hoffset : p.offset + 1 + p.line = p.offset + (p.line - 1) + 1 + 1 := by omega
  simp [crlf, next, hoffset]

end Position

def Cursor.crlf (c : Cursor) : Cursor := ⟨c.position.crlf, BuildScript.crlf c.rest⟩

/-- The comment, with the line where it ends in place of the column. -/
def Comment.onLine (c : Comment) : String × Position × Nat :=
  (c.content, c.span.start, c.span.stop.line)

section Crlf
variable {text : List Char} {c c' d e : Cursor} {m : Mode}

theorem Cursor.Passes.crlf {w : List Char} (h : c.Passes w d) (hw : '\n' ∉ w) :
    c.crlf.Passes w d.crlf := by
  refine ⟨?_, ?_⟩
  · rw [Cursor.crlf, h.1, crlf_append, crlf_of_notMem hw]
    rfl
  · rw [Cursor.crlf, Cursor.crlf, h.2]
    exact Position.crlf_after hw

theorem Cursor.Passes.crlf_newline (h : c.Passes ['\n'] d) (hc : 0 < c.position.line) :
    ∃ b, c.crlf.Passes ['\r'] b ∧ b.Passes ['\n'] d.crlf := by
  obtain ⟨p, rest, rfl, rfl⟩ := h.split
  exact ⟨⟨p.crlf.next '\r', '\n' :: BuildScript.crlf rest⟩, ⟨rfl, rfl⟩, rfl, Position.crlf_next hc⟩

structure Alike (text : List Char) (c c' : Cursor) : Prop where
  line_pos : 0 < c.position.line
  before : ∃ as as', Scanned (.ofText text) as c ∧ Scanned (.ofText (crlf text)) as' c' ∧
    as'.map Comment.onLine = as.map fun a => (a.moved Position.crlf).onLine

structure Crlf (text : List Char) (c c' : Cursor) : Prop extends Alike text c c' where
  eq : c' = c.crlf

/-- The same line end in both texts; in the second one the carriage return is passed. -/
def CrlfEnd (text : List Char) (c c' : Cursor) : Prop :=
  ∃ d, c.Passes ['\n'] d ∧ c'.Passes ['\n'] d.crlf ∧ Crlf text d d.crlf

theorem Alike.extend {as as' : List Comment} {d' : Cursor} (r : Alike text c c')
    (h : Scanned c as d) (h' : Scanned c' as' d')
    (hsame : as'.map Comment.onLine = as.map fun a => (a.moved Position.crlf).onLine) :
    Alike text d d' := by
  obtain ⟨hline, bs, bs', hb, hb', hbs⟩ := r
  obtain ⟨_, hpass⟩ := h.passes
  exact ⟨Nat.lt_of_lt_of_le hline hpass.line_le, _, _, hb.trans h, hb'.trans h', by
    rw [List.map_append, List.map_append, hbs, hsame]⟩

theorem Crlf.word {w : List Char} (r : Crlf text c c') (hw : Solid w) (h : c.Passes w d) :
    ∃ d', c'.Passes w d' ∧ Crlf text d d' := by
  obtain ⟨r, rfl⟩ := r
  have hpass := h.crlf hw.2
  exact ⟨_, hpass, r.extend (.word hw.1 h) (.word hw.1 hpass) rfl, rfl⟩

def Straightened (text : List Char) : Prop :=
  ∀ as a b, Scanned (.ofText text) as a → ¬ a.Passes ['\\', '\n'] b

theorem Alike.newline {d' : Cursor} (r : Alike text c c') (h : c.Passes ['\n'] d)
    (h' : c'.Passes ['\n'] d') : Alike text d d' :=
  r.extend (.word (forall_plain (by decide)) h) (.word (forall_plain (by decide)) h') rfl

theorem Crlf.newline (r : Crlf text c c') (h : c.Passes ['\n'] d) :
    ∃ b, c'.Passes ['\r'] b ∧ CrlfEnd text c b := by
  obtain ⟨r, rfl⟩ := r
  obtain ⟨b, hreturn, hnewline⟩ := h.crlf_newline r.line_pos
  have hb : Alike text c b :=
    r.extend .refl (.word (forall_plain (by decide)) hreturn) rfl
  exact ⟨b, hreturn, d, h, hnewline, hb.newline h hnewline, rfl⟩

theorem CrlfEnd.head? (r : CrlfEnd text c c') : c.rest.head? = some '\n' := by
  obtain ⟨d, h, -⟩ := r
  rw [h.1]
  rfl

theorem CrlfEnd.unique (r : CrlfEnd text c c') (h : c.Passes ['\n'] d) :
    c'.Passes ['\n'] d.crlf ∧ Crlf text d d.crlf := by
  obtain ⟨e, he, hnewline, r⟩ := r
  obtain rfl := h.right_unique he
  exact ⟨hnewline, r⟩

/-- A comment reaches over the carriage return, which is trimmed again. -/
theorem Crlf.comment {body : List Char} (r : Crlf text c c') (hn : '\n' ∉ body)
    (h : c.Passes ('#' :: body) d) (hstop : Stops (· != '\n') d.rest) :
    ∃ body' d', '\n' ∉ body' ∧ c'.Passes ('#' :: body') d' ∧ Stops (· != '\n') d'.rest ∧
      (Crlf text d d' ∨ CrlfEnd text d d') := by
  obtain ⟨r, rfl⟩ := r
  have hhash : '\n' ∉ '#' :: body := by simpa using hn
  have hpass := h.crlf hhash
  have hscan := Scanned.comment hn h hstop
  rcases hd : d.rest with _ | ⟨x, rest⟩
  · have hstop' : Stops (· != '\n') d.crlf.rest := by
      rw [Cursor.crlf, hd]
      exact stops_nil _
    exact ⟨body, d.crlf, hn, hpass, hstop', .inl
      ⟨r.extend hscan (.comment hn hpass hstop') rfl, rfl⟩⟩
  · obtain rfl : x = '\n' := by
      rw [hd, stops_cons] at hstop
      simpa using hstop
    have hnewline : d.Passes ['\n'] ⟨d.position.next '\n', rest⟩ := ⟨hd, rfl⟩
    have hline : 0 < d.position.line := Nat.lt_of_lt_of_le r.line_pos h.line_le
    obtain ⟨b, hreturn, hnewline'⟩ := hnewline.crlf_newline hline
    have hn' : '\n' ∉ body ++ ['\r'] := by simpa using hn
    have hpass' : c.crlf.Passes ('#' :: (body ++ ['\r'])) b := hpass.trans hreturn
    have hstop' : Stops (· != '\n') b.rest := by
      rw [hnewline'.1]
      exact stops_cons.2 (by decide)
    have hb : Alike text d b := r.extend hscan (.comment hn' hpass' hstop') (by
      have hcontent : trimEnd ('#' :: body ++ ['\r']) = trimEnd ('#' :: body) :=
        trimEnd_append_blank (List.forall_mem_singleton.2 (by decide))
      have hstop : b.position.line = d.position.line := by
        rw [hreturn.2]
        rfl
      simp only [List.map_cons, List.map_nil, Comment.onLine, Comment.moved, Span.moved,
        Cursor.span, ← List.cons_append, hcontent, hstop]
      rfl)
    exact ⟨_, b, hn', hpass', hstop',
      .inr ⟨_, hnewline, hnewline', hb.newline hnewline hnewline', rfl⟩⟩

/-- Where a gap ends: at the same place in both texts, or both times before a line end. -/
def CrlfStop (text : List Char) (d d' : Cursor) : Prop :=
  Crlf text d d' ∧ d.rest.head? ≠ some '\n' ∨ CrlfEnd text d d'

/-- If no line ends there, a gap that ends in the one text ends in the other one. -/
theorem Crlf.settled (r : Crlf text c c') (hn : c.rest.head? ≠ some '\n')
    (h : result? m.piece c = none) : result? m.piece c' = none := by
  obtain ⟨-, rfl⟩ := r
  obtain ⟨p, rest⟩ := c
  refine result?_eq_none fun _ e he => ?_
  rcases Mode.result?_piece.1 he with ⟨x, hx, hpass⟩ | ⟨rfl, hpass⟩ | ⟨body, -, hpass, -⟩
  · obtain ⟨v, rfl, -⟩ := crlf_of_head? hn hpass.1
    have hblank : Cursor.Passes ⟨p, x :: v⟩ [x] ⟨p.next x, v⟩ := ⟨rfl, rfl⟩
    cases h.symm.trans (Mode.result?_piece.2 (.inl ⟨x, hx, hblank⟩))
  · obtain ⟨v, -, hv⟩ := crlf_of_head? hn hpass.1
    exact head?_crlf_ne v (by rw [← hv]; rfl)
  · obtain ⟨v, rfl, -⟩ := crlf_of_head? hn hpass.1
    obtain ⟨body, d, hbody, hcomment, hstop⟩ := exists_comment (c := ⟨p, '#' :: v⟩) rfl
    cases h.symm.trans (Mode.result?_piece.2 (.inr (.inr ⟨body, hbody, hcomment, hstop⟩)))

theorem CrlfEnd.settled (r : CrlfEnd text c c') (h : result? m.piece c = none) :
    result? m.piece c' = none := by
  obtain ⟨d, hpass, hpass', -⟩ := r
  cases m with
  | free => cases h.symm.trans (Mode.result?_piece.2 (.inl ⟨'\n', by decide, hpass⟩))
  | line =>
    obtain ⟨p, rest, rfl, -⟩ := hpass'.split
    exact (Mode.Skips.of_stops (stops_cons.2 (by decide))).settled

/-- The gap ends at the same place in both texts, or both times before a line end. -/
theorem Crlf.gap (hs : Straightened text) (r : Crlf text c c') (h : m.Skips c d) :
    ∃ d', m.Skips c' d' ∧ CrlfStop text d d' := by
  -- Behind a comment the carriage return has been passed already.
  have key : (∀ c', Crlf text c c' → ∃ d', m.Skips c' d' ∧ CrlfStop text d d') ∧
      ∀ c', CrlfEnd text c c' → ∃ d', m.Skips c' d' ∧ CrlfStop text d d' := by
    refine h.induct (motive := fun c =>
      (∀ c', Crlf text c c' → ∃ d', m.Skips c' d' ∧ CrlfStop text d d') ∧
        ∀ c', CrlfEnd text c c' → ∃ d', m.Skips c' d' ∧ CrlfStop text d d') ⟨?_, ?_⟩ ?_
    · intro d' r
      by_cases hn : d.rest.head? = some '\n'
      · obtain ⟨b, hreturn, hb⟩ := r.newline (d := ⟨d.position.next '\n', d.rest.tail⟩)
          ⟨(List.head?_eq_some_iff.1 hn).elim fun v hv => by rw [hv]; rfl, rfl⟩
        exact ⟨b, .step (Mode.result?_piece.2 (.inl ⟨'\r', by cases m <;> decide, hreturn⟩))
          (.of_settled (hb.settled h.settled)), .inr hb⟩
      · exact ⟨d', .of_settled (r.settled hn h.settled), .inl ⟨r, hn⟩⟩
    · exact fun d' r => ⟨d', .of_settled (r.settled h.settled), .inr r⟩
    · intro a b hab ⟨ih, ihend⟩
      refine ⟨fun a' r => ?_, fun a' r => ?_⟩
      · rcases Mode.result?_piece.1 hab with ⟨x, hx, hpass⟩ | ⟨-, hpass⟩ | ⟨body, hn, hpass, hstop⟩
        · by_cases hn : x = '\n'
          · subst hn
            obtain ⟨b', hreturn, hb⟩ := r.newline hpass
            obtain ⟨hnewline, hb⟩ := hb.unique hpass
            obtain ⟨d', hskip, hd⟩ := ih _ hb
            have hm : m.blank '\r' = true := by cases m <;> decide
            exact ⟨d', .step (Mode.result?_piece.2 (.inl ⟨'\r', hm, hreturn⟩))
              (.step (Mode.result?_piece.2 (.inl ⟨'\n', hx, hnewline⟩)) hskip), hd⟩
          · obtain ⟨b', hpass', hb⟩ := r.word (solid_char (plain_blank hx) hn) hpass
            obtain ⟨d', hskip, hd⟩ := ih b' hb
            exact ⟨d', .step (Mode.result?_piece.2 (.inl ⟨x, hx, hpass'⟩)) hskip, hd⟩
        · obtain ⟨as, as', hbefore, -⟩ := r.before
          exact absurd hpass (hs _ _ _ hbefore)
        · obtain ⟨body', b', hn', hpass', hstop', hb⟩ := r.comment hn hpass hstop
          obtain ⟨d', hskip, hd⟩ := hb.elim (ih b') (ihend b')
          exact ⟨d', .step (Mode.result?_piece.2 (.inr (.inr ⟨body', hn', hpass', hstop'⟩))) hskip,
            hd⟩
      · have hhead := r.head?
        rcases Mode.result?_piece.1 hab with ⟨x, hx, hpass⟩ | ⟨-, hpass⟩ | ⟨body, -, hpass, -⟩
        · obtain rfl : x = '\n' := by
            rw [hpass.1] at hhead
            simpa using hhead
          obtain ⟨hnewline, hb⟩ := r.unique hpass
          obtain ⟨d', hskip, hd⟩ := ih _ hb
          exact ⟨d', .step (Mode.result?_piece.2 (.inl ⟨'\n', hx, hnewline⟩)) hskip, hd⟩
        all_goals
          rw [hpass.1] at hhead
          simp at hhead
  exact key.1 c' r

theorem carries_crlf (hs : Straightened text) :
    Carries Position.crlf (Crlf text) fun _ => True where
  position r := r.eq ▸ rfl
  back _ _ := trivial
  word r hw h _ := r.word hw h
  string := by
    rintro c _ d v ⟨r, rfl⟩ h -
    obtain ⟨q, w, hq, hw, hpass⟩ := result?_string.1 h
    have hn : '\n' ∉ q :: w ++ [q] := by
      have hquote : '\n' ≠ q := by rcases hq with rfl | rfl <;> decide
      simpa [hquote] using hw.newline_notMem
    have hstring := result?_string.2 ⟨q, w, hq, hw, hpass.crlf hn⟩
    exact ⟨_, hstring, r.extend (.string h) (.string hstring) rfl, rfl⟩
  gap {m} _ _ d r h hd := by
    obtain ⟨d', hskip, ⟨r', -⟩ | r'⟩ := r.gap hs h
    · exact ⟨d', hskip, r'⟩
    · exact absurd (hd.stops .free '\n' r'.head?) (by decide)
  stops := by
    rintro c _ test ⟨-, rfl⟩ - htest h x hx
    by_cases hn : c.rest.head? = some '\n'
    · obtain ⟨rest, hrest⟩ := List.head?_eq_some_iff.1 hn
      rw [Cursor.crlf, hrest, crlf_newline] at hx
      obtain rfl : '\r' = x := by simpa using hx
      rw [← Bool.not_eq_true]
      exact fun hreturn => absurd (htest _ hreturn) (by decide)
    · obtain ⟨rest', hrest'⟩ := List.head?_eq_some_iff.1 hx
      obtain ⟨rest, hrest, -⟩ := crlf_of_head? hn hrest'
      exact h x (by rw [hrest]; rfl)

theorem Crlf.endsLine (hs : Straightened text) {b : Cursor} (r : Crlf text c c')
    (hg : Mode.line.Skips c b) (hl : EndsLine b d) :
    ∃ b' d', Mode.line.Skips c' b' ∧ EndsLine b' d' ∧ Crlf text d d' := by
  obtain ⟨b', hskip, ⟨r', hn⟩ | r'⟩ := r.gap hs hg
  · rcases hl with hl | ⟨hend, rfl⟩
    · exact absurd (by rw [hl.1]; rfl) hn
    · have hend' : b'.rest = [] := by
        rw [r'.eq, Cursor.crlf, hend]
        rfl
      exact ⟨b', b', hskip, .inr ⟨hend', rfl⟩, r'⟩
  · rcases hl with hl | ⟨hend, -⟩
    · obtain ⟨hnewline, hd⟩ := r'.unique hl
      exact ⟨b', _, hskip, .inl hnewline, hd⟩
    · have hhead := r'.head?
      rw [hend] at hhead
      cases hhead

theorem Crlf.free (hs : Straightened text) (r : Crlf text c c') (h : Mode.free.Skips c d) :
    ∃ d', Mode.free.Skips c' d' ∧ Crlf text d d' := by
  obtain ⟨d', hskip, ⟨r', -⟩ | ⟨e, hnewline, -⟩⟩ := r.gap hs h
  · exact ⟨d', hskip, r'⟩
  · cases h.settled.symm.trans (Mode.result?_piece.2 (.inl ⟨'\n', by decide, hnewline⟩))

end Crlf

/-- In the text no backslash stands before a line end, but in comments. -/
def Script.Straight (source : String) : Prop :=
  (Span.mk .start (Position.start.after source.toList)).Straight source.toList

theorem Script.Straight.straightened {source : String} (h : Script.Straight source) :
    Straightened source.toList := by
  intro as a b ha hab
  obtain ⟨bs, d, hlast, hend⟩ := exists_scanned b
  obtain ⟨v, hv⟩ := ha.passes
  obtain ⟨w, hw⟩ := hlast.passes
  have hd : d = ⟨Position.start.after source.toList, []⟩ := by
    have hpass := (hv.trans hab).trans hw
    have htext := hpass.1
    rw [hend, List.append_nil] at htext
    rw [hpass.right_eq, hend, ← htext]
    rfl
  have hspan : ((Cursor.ofText source.toList).span d).Straight source.toList := by
    rw [hd]
    exact h
  have hstart : Scanned (.ofText source.toList) [] (.ofText source.toList) := .refl
  exact straight_of_span hstart .refl hend hspan _ _ _ _ ha hab hlast

namespace Script
variable {source : String} {s : Script}

theorem Straight.exists_parse (hs : Straight source) (h : parse source = .ok s) :
    ∃ s', parse (String.ofList (crlf source.toList)) = .ok s' ∧ s'.path = s.path ∧
      s'.statements = s.statements.map (Expr.moved Position.crlf) ∧
      s'.comments.map Comment.onLine =
        s.comments.map fun c => (c.moved Position.crlf).onLine := by
  obtain ⟨hpath, hcomments, c, d, hskip, hread⟩ := parse_eq_ok.1 h
  have hstart : Crlf source.toList (.ofText source.toList) (.ofText (crlf source.toList)) :=
    ⟨⟨Nat.one_pos, [], [], .refl, .refl, rfl⟩, rfl⟩
  obtain ⟨c', hskip', r⟩ := hstart.free hs.straightened hskip
  have hend {a a' : Cursor} (r : Crlf source.toList a a') (ha : a.rest = []) : a'.rest = [] := by
    rw [r.eq, Cursor.crlf, ha]
    rfl
  obtain ⟨d', hread', r'⟩ := (carries_crlf hs.straightened).lines (fun _ => trivial)
    (fun r hg hl => r.endsLine hs.straightened hg hl) (fun r h => r.free hs.straightened h)
    hend r hread
  obtain ⟨as, as', hscan, hscan', hsame⟩ := r'.before
  refine ⟨⟨none, s.statements.map (Expr.moved Position.crlf), commentsOf (crlf source.toList)⟩,
    parse_eq_ok.2 ⟨rfl, by rw [String.toList_ofList], c', d', ?_, hread'⟩, hpath.symm, rfl, ?_⟩
  · rw [String.toList_ofList]
    exact hskip'
  · rw [hcomments, hscan.commentsOf_eq hread.rest_eq_nil,
      hscan'.commentsOf_eq hread'.rest_eq_nil]
    exact hsame

end Script
end BuildScript
