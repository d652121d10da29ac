import BuildScript.Proofs.Parse.Carried
import BuildScript.Proofs.Parse.Places

/-!
Comments as white space. The search for comments and the grammar agree on what a comment is: with a
blank in place of every character of a comment, a source is read as before, and no comment is found
in it any more (`parse_blanked`).
-/
namespace BuildScript
open BuildScript.Parser Lexeme Grammar

def Comment.covers (c : Comment) (offset : Nat) : Bool :=
  c.span.start.offset ≤ offset && offset < c.span.stop.offset

/-- The text from the cursor on, with a blank for each character at an offset that is `hidden`. -/
def Cursor.blanked (hidden : Nat → Bool) (c : Cursor) : Cursor :=
  ⟨c.position, c.rest.mapIdx fun i x => if hidden (c.position.offset + i) then ' ' else x⟩

def Script.blanked (source : String) (comments : List Comment) : String :=
  String.ofList (source.toList.mapIdx fun i x => if comments.any (·.covers i) then ' ' else x)

theorem Position.after_eq {p : Position} {w : List Char} (h : '\n' ∉ w) :
    p.after w = ⟨p.line, p.column + w.length, p.offset + w.length⟩ := by
  induction w generalizing p with
  | nil => rfl
  | cons x w ih =>
    rw [List.mem_cons, not_or] at h
    rw [after_cons, ih h.2, next, if_neg (Ne.symm h.1), List.length_cons]
    simp only [mk.injEq, true_and]
    omega

section Blanked
variable {hidden : Nat → Bool} {c d : Cursor} {w : List Char}

def Shown (hidden : Nat → Bool) (c d : Cursor) : Prop :=
  ∀ i, c.position.offset ≤ i → i < d.position.offset → hidden i = false

theorem Cursor.Passes.blanked (h : c.Passes w d) : (c.blanked hidden).rest =
    (w.mapIdx fun i x => if hidden (c.position.offset + i) then ' ' else x) ++
      (d.blanked hidden).rest := by
  rw [Cursor.blanked, h.1, List.mapIdx_append]
  simp only [Cursor.blanked, h.offset_eq, Nat.add_assoc, Nat.add_comm w.length]

/-- What is not hidden stays. -/
theorem Cursor.Passes.blanked_shown (h : c.Passes w d) (hshown : Shown hidden c d) :
    (c.blanked hidden).Passes w (d.blanked hidden) := by
  refine ⟨?_, h.2⟩
  rw [h.blanked]
  congr 1
  refine List.ext_getElem (List.length_mapIdx ..) fun i hi hw => ?_
  have hlt : c.position.offset + i < d.position.offset := by
    rw [h.offset_eq]
    omega
  rw [List.getElem_mapIdx, hshown _ (Nat.le_add_right ..) hlt]
  rfl

theorem Cursor.Passes.blanked_hidden (h : c.Passes w d) (hn : '\n' ∉ w)
    (hhidden : ∀ i, c.position.offset ≤ i → i < d.position.offset → hidden i = true) :
    (c.blanked hidden).Passes (List.replicate w.length ' ') (d.blanked hidden) := by
  refine ⟨?_, ?_⟩
  · rw [h.blanked]
    congr 1
    refine List.ext_getElem (by simp) fun i hi hw => ?_
    have hlt : c.position.offset + i < d.position.offset := by
      rw [h.offset_eq]
      simp at hi
      omega
    rw [List.getElem_mapIdx, hhidden _ (Nat.le_add_right ..) hlt, List.getElem_replicate]
    rfl
  · show d.position = c.position.after _
    rw [h.2, Position.after_eq hn, Position.after_eq (by simp), List.length_replicate]

theorem Cursor.head?_blanked (hidden : Nat → Bool) (c : Cursor) : (c.blanked hidden).rest.head? =
    c.rest.head?.map fun x => if hidden c.position.offset then ' ' else x := by
  obtain ⟨p, rest⟩ := c
  cases rest <;> simp [blanked]

theorem Stops.blanked {test : Char → Bool} (hblank : test ' ' = false) (h : Stops test c.rest) :
    Stops test (c.blanked hidden).rest := by
  intro x hx
  rw [Cursor.head?_blanked] at hx
  obtain ⟨y, hy, rfl⟩ := Option.map_eq_some_iff.1 hx
  split
  · exact hblank
  · exact h y hy

end Blanked

namespace Grammar

theorem exists_comment {c : Cursor} (h : c.rest.head? = some '#') :
    ∃ body d, '\n' ∉ body ∧ c.Passes ('#' :: body) d ∧ Stops (· != '\n') d.rest := by
  obtain ⟨p, rest⟩ := c
  cases rest with
  | nil => cases h
  | cons x rest =>
    cases h
    refine ⟨rest.takeWhile (· != '\n'), ⟨_, rest.dropWhile (· != '\n')⟩, ?_, ⟨?_, rfl⟩, ?_⟩
    · exact fun hn => by simpa using List.mem_takeWhile_imp hn
    · exact congrArg _ List.takeWhile_append_dropWhile.symm
    · intro y hy
      have := List.head?_dropWhile_not (· != '\n') rest
      rw [Option.mem_def.1 hy] at this
      exact this

theorem exists_commentOrOther {c : Cursor} (h : c.rest ≠ []) :
    ∃ found d, result? commentOrOther c = some (found, d) := by
  by_cases hhash : c.rest.head? = some '#'
  · obtain ⟨body, d, hn, hpass, hstop⟩ := exists_comment hhash
    exact ⟨_, d, result?_commentOrOther_some.2
      ⟨_, result?_comment.2 ⟨body, rfl, hn, hpass, hstop⟩, rfl⟩⟩
  · obtain ⟨p, rest⟩ := c
    cases rest with
    | nil => exact absurd rfl h
    | cons x rest =>
      rw [result?_commentOrOther_none hhash, result?_charWhere_cons, if_pos rfl]
      cases result? string ⟨p, x :: rest⟩ <;> exact ⟨_, _, rfl⟩

theorem exists_scanned (c : Cursor) : ∃ cs d, Scanned c cs d ∧ d.rest = [] := by
  obtain ⟨out, d, hmany⟩ : ∃ out d, result? (many commentOrOther) c = some (out, d) :=
    ⟨_, _, rfl⟩
  have hrun := (result?_many_eq_some consumes_commentOrOther).1 hmany
  refine ⟨_, d, .of_run hrun, ?_⟩
  clear hmany
  induction hrun with
  | stop h =>
    by_contra hne
    obtain ⟨found, d, hd⟩ := exists_commentOrOther hne
    cases h.symm.trans hd
  | step _ _ ih => exact ih

end Grammar

section Hidden
variable {text : List Char} {as cs : List Comment} {c d : Cursor} {m : Mode}

def hiddenIn (text : List Char) (offset : Nat) : Bool :=
  (Script.commentsOf text).any (·.covers offset)

theorem Grammar.Scanned.shown (h : Scanned (.ofText text) as c) (hcd : Scanned c [] d) :
    Shown (hiddenIn text) c d := by
  obtain ⟨bs, e, hlast, hend⟩ := exists_scanned d
  intro i hc hd
  rw [hiddenIn, List.any_eq_false]
  intro cm hmem
  have hapart := h.apart hcd hlast hend cm hmem
  simp only [Comment.covers, Bool.and_eq_true, decide_eq_true_eq]
  omega

theorem Grammar.Scanned.hidden {body : List Char} (h : Scanned (.ofText text) as c)
    (hn : '\n' ∉ body) (hpass : c.Passes ('#' :: body) d) (hstop : Stops (· != '\n') d.rest) {i : Nat}
    (hc : c.position.offset ≤ i) (hd : i < d.position.offset) : hiddenIn text i = true := by
  obtain ⟨bs, e, hlast, hend⟩ := exists_scanned d
  rw [hiddenIn, ((h.trans (.comment hn hpass hstop)).trans hlast).commentsOf_eq hend,
    List.any_eq_true]
  exact ⟨_, List.mem_append_left _ (List.mem_append_right _ (.head _)), by
    simp only [Comment.covers, Bool.and_eq_true, decide_eq_true_eq]
    exact ⟨hc, hd⟩⟩

structure Blanks (text : List Char) (c c' : Cursor) : Prop where
  eq : c' = c.blanked (hiddenIn text)
  before : ∃ as, Scanned (.ofText text) as c
  silent : Scanned ((Cursor.ofText text).blanked (hiddenIn text)) [] c'

theorem Blanks.passes {c' : Cursor} {w : List Char} (r : Blanks text c c') (hpass : c.Passes w d)
    (hscan : Scanned c [] d) : c'.Passes w (d.blanked (hiddenIn text)) := by
  obtain ⟨rfl, ⟨as, hbefore⟩, -⟩ := r
  exact hpass.blanked_shown (hbefore.shown hscan)

theorem Blanks.extend {c' d' : Cursor} (r : Blanks text c c') (hd : d' = d.blanked (hiddenIn text))
    (h : Scanned c cs d) (h' : Scanned c' [] d') : Blanks text d d' := by
  obtain ⟨-, ⟨as, hbefore⟩, hsilent⟩ := r
  exact ⟨hd, ⟨_, hbefore.trans h⟩, hsilent.trans h'⟩

theorem Blanks.word {c' : Cursor} {w : List Char} (r : Blanks text c c') (hw : ∀ x ∈ w, Plain x)
    (h : c.Passes w d) : ∃ d', c'.Passes w d' ∧ Blanks text d d' := by
  have hpass := r.passes h (.word hw h)
  exact ⟨_, hpass, r.extend rfl (.word hw h) (.word hw hpass)⟩

theorem Blanks.comment {c' : Cursor} {body : List Char} (r : Blanks text c c') (hn : '\n' ∉ body)
    (h : c.Passes ('#' :: body) d) (hstop : Stops (· != '\n') d.rest) :
    ∃ d', c'.Passes (List.replicate (body.length + 1) ' ') d' ∧ Blanks text d d' := by
  obtain ⟨rfl, ⟨as, hbefore⟩, -⟩ := id r
  have hpass := h.blanked_hidden (by simpa using hn) fun i => hbefore.hidden hn h hstop
  have hplain : ∀ x ∈ List.replicate (body.length + 1) ' ', Plain x := fun x hx => by
    rw [List.eq_of_mem_replicate hx]
    decide
  exact ⟨_, hpass, r.extend rfl (.comment hn h hstop) (.word hplain hpass)⟩

/-- A character where the search comes by is hidden only if a comment begins with it. -/
theorem Blanks.head?_eq {c' : Cursor} (r : Blanks text c c') (hhash : c.rest.head? ≠ some '#') :
    c'.rest.head? = c.rest.head? := by
  obtain ⟨rfl, ⟨as, hbefore⟩, -⟩ := r
  rw [Cursor.head?_blanked]
  by_cases hne : c.rest = []
  · rw [hne]
    rfl
  obtain ⟨found, d, hd⟩ := exists_commentOrOther hne
  obtain ⟨x, w, hpass⟩ : ∃ x w, c.Passes (x :: w) d ∧ found = none := by
    rcases result?_commentOrOther hd with ⟨body, -, hpass, -⟩ | ⟨rfl, ⟨v, h⟩ | ⟨x, hpass⟩⟩
    · exact absurd (by rw [hpass.1]; rfl) hhash
    · obtain ⟨q, w, -, -, hpass⟩ := result?_string.1 h
      exact ⟨q, _, hpass, rfl⟩
    · exact ⟨x, [], hpass, rfl⟩
  obtain ⟨hpass, rfl⟩ := hpass
  have hshown := hbefore.shown (.other hd .refl) _ (Nat.le_refl _) (by
    rw [hpass.offset_eq, List.length_cons]
    omega)
  simp [hshown]

/-- Where a gap ends, it ends as well when the comments are blanked out. -/
theorem Blanks.settled {c' : Cursor} (r : Blanks text c c') (h : result? m.piece c = none) :
    result? m.piece c' = none := by
  have hhash : c.rest.head? ≠ some '#' := fun hhash => by
    obtain ⟨body, d, hn, hpass, hstop⟩ := exists_comment hhash
    cases h.symm.trans (Mode.result?_piece.2 (.inr (.inr ⟨body, hn, hpass, hstop⟩)))
  have hsame := r.head?_eq hhash
  refine result?_eq_none fun _ e he => ?_
  obtain ⟨p, rest⟩ := c
  rcases Mode.result?_piece.1 he with ⟨x, hx, hpass⟩ | ⟨rfl, hpass⟩ | ⟨body, -, hpass, -⟩
  · rw [hpass.1] at hsame
    obtain ⟨rest, rfl⟩ := List.head?_eq_some_iff.1 hsame.symm
    have hblank : Cursor.Passes ⟨p, x :: rest⟩ [x] ⟨p.next x, rest⟩ := ⟨rfl, rfl⟩
    cases h.symm.trans (Mode.result?_piece.2 (.inl ⟨x, hx, hblank⟩))
  · rw [hpass.1] at hsame
    obtain ⟨rest, rfl⟩ := List.head?_eq_some_iff.1 hsame.symm
    have hfirst : Cursor.Passes ⟨p, '\\' :: rest⟩ ['\\'] ⟨p.next '\\', rest⟩ := ⟨rfl, rfl⟩
    -- No blank is a line end, so the line end behind the backslash was there before.
    have hnext : rest.head? = some '\n' := by
      have hrest := @Cursor.Passes.blanked (hiddenIn text) _ _ _ hfirst
      rw [← r.eq, hpass.1] at hrest
      have hhead : some '\n' =
          (Cursor.blanked (hiddenIn text) ⟨p.next '\\', rest⟩).rest.head? :=
        congrArg List.head? (List.cons.inj hrest).2
      rw [Cursor.head?_blanked] at hhead
      obtain ⟨y, hy, hshown⟩ := Option.map_eq_some_iff.1 hhead.symm
      split at hshown
      · cases hshown
      · exact hshown ▸ hy
    obtain ⟨rest, rfl⟩ := List.head?_eq_some_iff.1 hnext
    have hfold : Cursor.Passes ⟨p, '\\' :: '\n' :: rest⟩ ['\\', '\n']
        ⟨p.after ['\\', '\n'], rest⟩ := ⟨rfl, rfl⟩
    cases h.symm.trans (Mode.result?_piece.2 (.inr (.inl ⟨rfl, hfold⟩)))
  · rw [hpass.1] at hsame
    exact hhash hsame.symm

theorem Blanks.gap {c' : Cursor} (r : Blanks text c c') (h : m.Skips c d) :
    ∃ d', m.Skips c' d' ∧ Blanks text d d' := by
  refine h.induct (motive := fun c => ∀ c', Blanks text c c' →
    ∃ d', m.Skips c' d' ∧ Blanks text d d') ?_ ?_ c' r
  · exact fun c' r => ⟨c', .of_settled (r.settled h.settled), r⟩
  · intro a b hab ih a' r
    rcases Mode.result?_piece.1 hab with ⟨x, hx, hpass⟩ | ⟨hm, hpass⟩ | ⟨body, hn, hpass, hstop⟩
    · obtain ⟨b', hpass', r'⟩ := r.word (List.forall_mem_singleton.2 (plain_blank hx)) hpass
      obtain ⟨d', hskip, hd⟩ := ih b' r'
      exact ⟨d', .step (Mode.result?_piece.2 (.inl ⟨x, hx, hpass'⟩)) hskip, hd⟩
    · obtain ⟨b', hpass', r'⟩ := r.word (forall_plain (by decide)) hpass
      obtain ⟨d', hskip, hd⟩ := ih b' r'
      exact ⟨d', .step (Mode.result?_piece.2 (.inr (.inl ⟨hm, hpass'⟩))) hskip, hd⟩
    · obtain ⟨b', hpass', r'⟩ := r.comment hn hpass hstop
      obtain ⟨d', hskip, hd⟩ := ih b' r'
      obtain ⟨p, rest, rfl, rfl⟩ := hpass'.split
      exact ⟨d', .blanks (fun x hx => by
        rw [List.eq_of_mem_replicate hx]
        cases m <;> decide) hskip, hd⟩

theorem carries_blanks (text : List Char) : Carries id (Blanks text) fun _ => True where
  position r := r.eq ▸ rfl
  back _ _ := trivial
  word r hw h _ := r.word hw.1 h
  string r h _ := by
    obtain ⟨q, w, hq, hw, hpass⟩ := result?_string.1 h
    have hpass' := r.passes hpass (.string h)
    have hstring := result?_string.2 ⟨q, w, hq, hw, hpass'⟩
    exact ⟨_, hstring, r.extend rfl (.string h) (.string hstring)⟩
  gap r h _ := r.gap h
  stops r _ htest h := by
    rw [r.eq]
    exact h.blanked (by
      rw [← Bool.not_eq_true]
      intro h
      exact absurd (htest _ h) (by decide))

end Hidden

namespace Script
variable {source : String} {s : Script}

theorem blanked_eq (source : String) :
    (Cursor.ofText source.toList).blanked (hiddenIn source.toList) =
      .ofText (blanked source (commentsOf source.toList)).toList := by
  rw [blanked, String.toList_ofList]
  simp [Cursor.blanked, Cursor.ofText, Position.start, hiddenIn]

/-- With blanks for its comments a source is accepted, with the statements in their places and
without comments. -/
theorem parse_blanked (h : parse source = .ok s) :
    parse (blanked source s.comments) = .ok { s with comments := [] } := by
  obtain ⟨hpath, hcomments, c, d, hskip, hread⟩ := parse_eq_ok.1 h
  have hstart : Blanks source.toList (.ofText source.toList)
      (.ofText (blanked source s.comments).toList) := by
    rw [hcomments, ← blanked_eq]
    exact ⟨rfl, ⟨[], .refl⟩, .refl⟩
  obtain ⟨c', hskip', r⟩ := hstart.gap hskip
  have hend {a a' : Cursor} (r : Blanks source.toList a a') (ha : a.rest = []) : a'.rest = [] := by
    rw [r.eq, Cursor.blanked, ha]
    rfl
  obtain ⟨d', hread', r'⟩ := (carries_blanks source.toList).lines (fun _ => trivial)
    (fun r hg hl => by
      obtain ⟨b', hg', r⟩ := r.gap hg
      rcases hl with hn | ⟨hl, rfl⟩
      · obtain ⟨e', hn', r⟩ := r.word (forall_plain (by decide)) hn
        exact ⟨b', e', hg', .inl hn', r⟩
      · exact ⟨b', b', hg', .inr ⟨hend r hl, rfl⟩, r⟩)
    (fun r h => r.gap h) hend r hread
  rw [map_moved_id] at hread'
  refine parse_eq_ok.2 ⟨hpath, ?_, c', d', hskip', hread'⟩
  have hsilent := r'.silent
  rw [blanked_eq, ← hcomments] at hsilent
  exact (hsilent.commentsOf_eq (hend r' hread.rest_eq_nil)).symm

def quotedSign : Script where
  path := none
  statements := [⟨some ⟨⟨1, 1, 0⟩, ⟨1, 4, 3⟩⟩, .string "#"⟩]
  comments := [⟨⟨⟨1, 5, 4⟩, ⟨1, 8, 7⟩⟩, "# '"⟩]

theorem parse_quotedSign : parse "'#' # '\n" = .ok quotedSign := by cbv

theorem parse_blanked_quotedSign : parse "'#' # '\n" = .ok quotedSign ∧
    parse (blanked "'#' # '\n" quotedSign.comments) = .ok { quotedSign with comments := [] } :=
  ⟨parse_quotedSign, parse_blanked parse_quotedSign⟩

end Script
end BuildScript
