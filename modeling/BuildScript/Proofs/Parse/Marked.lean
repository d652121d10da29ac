import BuildScript.Proofs.Expr.Marks
import BuildScript.Proofs.Parse.Nodes

/-!
The marks of a text. Gaps leave none, and neither does a comma in front of a closing bracket. A text
has one row of marks (`Marked.unique`), and an expression that is read from it leaves its own
(`Reads.marked`).
-/
namespace BuildScript
open BuildScript.Parser Lexeme Grammar

namespace Mark

inductive Start where
  | gap | comma | quote | sign
deriving DecidableEq

def startOf (x : Char) : Start :=
  if Mode.free.opens x then .gap
  else if x = ',' then .comma
  else if x = '"' ∨ x = '\'' then .quote
  else .sign

def isWritten (x : Char) : Bool := isBlank x || startOf x == .sign

def withComma : List Mark → List Mark
  | char ')' :: ms => char ')' :: ms
  | char ']' :: ms => char ']' :: ms
  | ms => char ',' :: ms

theorem withComma_begins {m : Mark} (h : m.begins = true) (ms : List Mark) :
    withComma (m :: ms) = char ',' :: m :: ms := by
  unfold withComma
  split
  next heq =>
    obtain ⟨rfl, -⟩ := List.cons.inj heq
    exact absurd h (by decide)
  next heq =>
    obtain ⟨rfl, -⟩ := List.cons.inj heq
    exact absurd h (by decide)
  · rfl

end Mark

open Mark

/-- The marks of the text from the cursor on. -/
inductive Marked : Cursor → List Mark → Prop
  | stop {c : Cursor} (h : c.rest = []) : Marked c []
  | gap {c d : Cursor} {ms : List Mark} (h : result? Mode.free.piece c = some ((), d))
    (k : Marked d ms) : Marked c ms
  | comma {c d : Cursor} {ms : List Mark} (h : c.Passes [','] d) (k : Marked d ms) :
    Marked c (withComma ms)
  | text {c d : Cursor} {v : String} {ms : List Mark} (h : result? Lexeme.string c = some (v, d))
    (k : Marked d ms) : Marked c (.text v :: ms)
  | sign {c d : Cursor} {x : Char} {ms : List Mark} (hx : startOf x = .sign) (h : c.Passes [x] d)
    (k : Marked d ms) : Marked c (.char x :: ms)

namespace Marked
variable {c d : Cursor} {ms ks : List Mark}

theorem start_gap (h : result? Mode.free.piece c = some ((), d)) :
    c.rest.head?.map startOf = some .gap := by
  obtain ⟨x, w, hx, hpass⟩ := Mode.piece_passes h
  rw [hpass.1]
  show some (startOf x) = _
  rw [startOf, if_pos hx]

theorem start_text {v : String} (h : result? Lexeme.string c = some (v, d)) :
    c.rest.head?.map startOf = some .quote := by
  obtain ⟨q, w, hq, -, hpass⟩ := result?_string.1 h
  rw [hpass.1]
  show some (startOf q) = _
  rcases hq with rfl | rfl <;> decide

theorem start_passes {x : Char} (h : c.Passes [x] d) :
    c.rest.head?.map startOf = some (startOf x) := by
  rw [h.1]
  rfl

theorem passes_unique {x y : Char} {e : Cursor} (h : c.Passes [x] d) (k : c.Passes [y] e) :
    x = y ∧ d = e := by
  obtain ⟨p, rest, rfl, rfl⟩ := h.split
  obtain ⟨q, rest', heq, rfl⟩ := k.split
  cases heq
  exact ⟨rfl, rfl⟩

/-- What a text begins with tells where its first mark comes from. -/
theorem inv (k : Marked c ks) :
    match c.rest.head?.map startOf with
    | none => ks = []
    | some .gap => ∃ d, result? Mode.free.piece c = some ((), d) ∧ Marked d ks
    | some .comma => ∃ d ms, c.Passes [','] d ∧ Marked d ms ∧ ks = withComma ms
    | some .quote => ∃ v d ms, result? Lexeme.string c = some (v, d) ∧ Marked d ms ∧
        ks = .text v :: ms
    | some .sign => ∃ x d ms, c.Passes [x] d ∧ Marked d ms ∧ ks = .char x :: ms := by
  cases k with
  | stop h =>
    rw [h]
    rfl
  | gap h k =>
    rw [start_gap h]
    exact ⟨_, h, k⟩
  | comma h k =>
    rw [start_passes h, show startOf ',' = .comma by decide]
    exact ⟨_, _, h, k, rfl⟩
  | text h k =>
    rw [start_text h]
    exact ⟨_, _, _, h, k, rfl⟩
  | sign hx h k =>
    rw [start_passes h, hx]
    exact ⟨_, _, _, h, k, rfl⟩

theorem unique (h : Marked c ms) (k : Marked c ks) : ms = ks := by
  induction h generalizing ks with
  | stop h =>
    have hk := k.inv
    rw [h] at hk
    exact hk.symm
  | gap h _ ih =>
    have hk := k.inv
    rw [start_gap h] at hk
    obtain ⟨e, he, hk⟩ := hk
    cases h.symm.trans he
    exact ih hk
  | comma h _ ih =>
    have hk := k.inv
    rw [start_passes h, show startOf ',' = .comma by decide] at hk
    obtain ⟨e, ls, he, hk, rfl⟩ := hk
    obtain ⟨-, rfl⟩ := passes_unique h he
    rw [ih hk]
  | text h _ ih =>
    have hk := k.inv
    rw [start_text h] at hk
    obtain ⟨v, e, ls, he, hk, rfl⟩ := hk
    cases h.symm.trans he
    rw [ih hk]
  | sign hx h _ ih =>
    have hk := k.inv
    rw [start_passes h, hx] at hk
    obtain ⟨y, e, ls, he, hk, rfl⟩ := hk
    obtain ⟨rfl, rfl⟩ := passes_unique h he
    rw [ih hk]

theorem skips (h : Mode.free.Skips c d) (k : Marked d ms) : Marked c ms :=
  h.induct (motive := fun c => Marked c ms) k fun _ _ hab ih => .gap hab ih

theorem blanks {w : List Char} (hw : ∀ x ∈ w, isBlank x = true) (h : c.Passes w d)
    (k : Marked d ms) : Marked c ms := by
  induction w generalizing c with
  | nil =>
    obtain ⟨p, rest, rfl, rfl⟩ := h.split
    exact k
  | cons x w ih =>
    obtain ⟨hx, hw⟩ := List.forall_mem_cons.1 hw
    obtain ⟨e, hfirst, h⟩ := h.append (v := [x])
    exact .gap (Mode.result?_piece.2 (.inl ⟨x, hx, hfirst⟩)) (ih hw h)

theorem word {w : List Char} (hw : ∀ x ∈ w, isWritten x = true)
    (h : c.Passes w d) (k : Marked d ms) : Marked c (ofWord w ++ ms) := by
  induction w generalizing c with
  | nil =>
    obtain ⟨p, rest, rfl, rfl⟩ := h.split
    exact k
  | cons x w ih =>
    obtain ⟨hx, hw⟩ := List.forall_mem_cons.1 hw
    obtain ⟨e, hfirst, h⟩ := h.append (v := [x])
    cases hb : isBlank x with
    | true =>
      rw [ofWord, List.filter_cons_of_neg (by simp [hb])]
      exact .gap (Mode.result?_piece.2 (.inl ⟨x, hb, hfirst⟩)) (ih hw h)
    | false =>
      rw [isWritten, hb, Bool.false_or] at hx
      rw [ofWord_cons hb]
      exact .sign (eq_of_beq hx) hfirst (ih hw h)

theorem between {m : Mark} (hm : m.begins = true) (h : c.Passes [','] d) (k : Marked d (m :: ms)) :
    Marked c (.char ',' :: m :: ms) :=
  withComma_begins hm ms ▸ .comma h k

theorem behind {m : Mark} (hm : m = .char ')' ∨ m = .char ']') (h : c.Passes [','] d)
    (k : Marked d (m :: ms)) : Marked c (m :: ms) := by
  rcases hm with rfl | rfl <;> exact .comma h k

end Marked

theorem isWritten_numberChar {x : Char} (h : isNumberChar x = true) : isWritten x = true := by
  have hne : x ≠ '#' ∧ x ≠ ',' ∧ ¬(x = '"' ∨ x = '\'') := by
    refine ⟨?_, ?_, ?_⟩
    · rintro rfl
      exact absurd h (by decide)
    · rintro rfl
      exact absurd h (by decide)
    · rintro (rfl | rfl) <;> exact absurd h (by decide)
  unfold isWritten
  cases hb : isBlank x with
  | true => rfl
  | false =>
    have hopens : Mode.free.opens x = false := by simp [Mode.opens, Mode.blank, hb, hne.1]
    have hsign : startOf x = .sign := by
      rw [startOf, hopens]
      simp [hne.2.1, hne.2.2]
    rw [hsign]
    rfl

theorem isWritten_lexeme {t : String} (h : isNumber t = true ∨ isName t = true) :
    ∀ x ∈ t.toList, isWritten x = true := by
  rcases h with h | h
  · obtain ⟨x, w, ht, hx, hw⟩ := isNumber_iff.1 h
    rw [ht]
    exact List.forall_mem_cons.2 ⟨isWritten_numberChar (isNumberChar_of_digit hx),
      fun y hy => isWritten_numberChar (hw y hy)⟩
  · obtain ⟨x, w, ht, hx, hw⟩ := isWord_iff.1 (isName_iff.1 h).1
    rw [ht]
    exact List.forall_mem_cons.2
      ⟨isWritten_numberChar (isNumberChar_of_nameChar (isNameChar_of_start hx)),
        fun y hy => isWritten_numberChar (isNumberChar_of_nameChar (hw y hy))⟩

theorem isWritten_symbol (op : BinaryOp) : ∀ x ∈ op.symbol.toList, isWritten x = true :=
  List.all_eq_true.1 (by cases op <;> decide)

theorem isWritten_sign (op : UnaryOp) : ∀ x ∈ op.symbol.toList, isWritten x = true :=
  List.all_eq_true.1 (by cases op <;> decide)

namespace Lexeme

theorem ReadsSymbol.marked {op : BinaryOp} {c d : Cursor} {ms : List Mark}
    (h : ReadsSymbol op c d) (k : Marked d ms) : Marked c (ofWord op.symbol.toList ++ ms) := by
  obtain ⟨_, ⟨⟩ | ⟨-, hw⟩, hpass, -⟩ := readsSymbol_iff.1 h
  · exact .word (isWritten_symbol _) hpass k
  · obtain ⟨c₁, hnot, hpass⟩ := hpass.append
    obtain ⟨c₂, hblanks, hin⟩ := hpass.append
    have hblank : ∀ x ∈ [' ', '\t'], isBlank x = true := List.all_eq_true.1 (by decide)
    have k := k.word (w := "in".toList) (List.all_eq_true.1 (by decide)) hin
    have k := Marked.blanks (fun x hx => hblank x (by simpa using hw x hx)) hblanks k
    exact k.word (w := "not".toList) (List.all_eq_true.1 (by decide)) hnot

end Lexeme

namespace Grammar

theorem Opens.marked {x : Char} {c d : Cursor} {ms : List Mark} (hx : startOf x = .sign)
    (h : Opens x c d) (k : Marked d ms) : Marked c (.char x :: ms) := by
  obtain ⟨e, hpass, hskip⟩ := h
  exact .sign hx hpass (.skips hskip k)

mutual
/-- What is read leaves its own marks, however it was laid out. -/
theorem Reads.marked {e : Expr} {c d : Cursor} {ms : List Mark} (h : Reads .free e c d)
    (k : Marked d ms) : Marked c (e.marks ++ ms) := by
  match h with
  | .literal h =>
    obtain ⟨hn, hpass, -⟩ := result?_number.1 h
    exact .word (isWritten_lexeme (.inl hn)) hpass k
  | .string h => exact .text h k
  | .ident h =>
    obtain ⟨hn, hpass, -⟩ := result?_name.1 h
    exact .word (isWritten_lexeme (.inr hn)) hpass k
  | .paren ho hx hg hc =>
    have hclose : Marked _ (.char ')' :: ms) := .skips hg (.sign (by decide) hc k)
    rw [Expr.marks_paren, List.cons_append, List.append_assoc]
    exact ho.marked (by decide) (hx.marked hclose)
  | .list ho hx hc =>
    have hclose : Marked _ (.char ']' :: ms) := .sign (by decide) hc k
    rw [Expr.marks_list, List.cons_append, List.append_assoc]
    exact ho.marked (by decide) (hx.marked (.inr rfl) hclose)
  | .call hf hg ho hx hc =>
    have hclose : Marked _ (.char ')' :: ms) := .sign (by decide) hc k
    rw [Expr.marks_call, List.append_assoc, List.cons_append, List.append_assoc]
    exact hf.marked (.skips hg (ho.marked (by decide) (hx.marked (.inl rfl) hclose)))
  | .dot hx hg hd hg' hn =>
    obtain ⟨hname, hpass, -⟩ := result?_name.1 hn
    rw [Expr.marks_dot, List.append_assoc, List.cons_append]
    exact hx.marked (.skips hg (.sign (by decide) hd
      (.skips hg' (.word (isWritten_lexeme (.inr hname)) hpass k))))
  | .unary hs hg hx =>
    rw [Expr.marks_unary, List.append_assoc]
    exact .word (isWritten_sign _) hs.1 (.skips hg (hx.marked k))
  | .binary hl hg hs hg' hr =>
    rw [Expr.marks_binary, List.append_assoc, List.append_assoc]
    exact hl.marked (.skips hg (hs.marked (.skips hg' (hr.marked k))))

theorem ReadsItems.marked {xs : List Expr} {c d : Cursor} {m : Mark} {ms : List Mark}
    (h : ReadsItems xs c d) (hm : m = .char ')' ∨ m = .char ']') (k : Marked d (m :: ms)) :
    Marked c (commas (xs.map Expr.marks) ++ m :: ms) := by
  match h with
  | .nil => exact k
  | .last hx hg =>
    rw [List.map_singleton, commas_singleton]
    exact hx.marked (.skips hg k)
  | .comma hx hg hc =>
    obtain ⟨_, hcomma, hskip⟩ := hc
    rw [List.map_singleton, commas_singleton]
    exact hx.marked (.skips hg (.behind hm hcomma (.skips hskip k)))
  | .cons hx hg hc h =>
    obtain ⟨_, hcomma, hskip⟩ := hc
    obtain ⟨m', ms', hbegins, hm'⟩ := Expr.commas_begins (h.lexical _ (.head _)) _
    have hrest := h.marked hm k
    rw [hbegins, List.cons_append] at hrest
    rw [List.map_cons, List.map_cons, commas_cons_cons, ← List.map_cons, hbegins,
      List.append_assoc, List.cons_append, List.cons_append]
    exact hx.marked (.skips hg (.between hm' hcomma (.skips hskip hrest)))
end

end Grammar
end BuildScript
