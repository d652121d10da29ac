import BuildScript.Layout.Tree
import BuildScript.Proofs.Parse.Reading

/-!
Texts as tokens with gaps between them. A gap is any row of white space and comments, and it may be
missing where the next token cannot be taken for a part of the one before. Wherever a token stands
in such a text, nothing behind it goes on with it (`Ahead.take`).
-/
namespace BuildScript
open BuildScript.Parser Lexeme Grammar

inductive Pads : List Char → Prop
  | nil : Pads []
  | blank {x : Char} {w : List Char} (hx : isBlank x = true) (h : Pads w) : Pads (x :: w)
  | comment {body w : List Char} (hn : '\n' ∉ body) (h : Pads w) :
    Pads ('#' :: body ++ '\n' :: w)

theorem Pads.skips {w : List Char} (h : Pads w) {p : Position} {rest : List Char} {d : Cursor}
    (hd : Mode.free.Skips ⟨p.after w, rest⟩ d) : Mode.free.Skips ⟨p, w ++ rest⟩ d := by
  induction h generalizing p with
  | nil => exact hd
  | @blank x w hx _ ih => exact .blanks (w := [x]) (List.forall_mem_singleton.2 hx) (ih hd)
  | comment hn _ ih =>
    rw [List.append_assoc]
    refine .comment hn (stops_cons.2 (by decide)) ?_
    rw [Position.after_append] at hd
    exact .blanks (w := ['\n']) (List.forall_mem_singleton.2 (by decide)) (ih hd)

theorem not_isNumberChar_of_opens {x : Char} (h : Mode.free.opens x = true) :
    isNumberChar x = false := by
  rw [← Bool.not_eq_true]
  intro hx
  have hbegins : beginsOperand x = true ∨ x = '.' := by
    simp only [isNumberChar, Char.isAlphanum, Bool.or_eq_true, beq_iff_eq] at hx
    simp only [beginsOperand, isNameStart, Bool.or_eq_true, beq_iff_eq]
    tauto
  rcases hbegins with hbegins | rfl
  · rw [not_opens_of_beginsOperand hbegins] at h
    cases h
  · exact absurd h (by decide)

theorem Pads.stops {w : List Char} (h : Pads w) (hne : w ≠ []) (rest : List Char) :
    Stops isNumberChar (w ++ rest) := by
  cases h with
  | nil => exact absurd rfl hne
  | blank hx _ =>
    refine stops_cons.2 (not_isNumberChar_of_opens ?_)
    simp [Mode.opens, Mode.blank, hx]
  | comment _ _ => exact stops_cons.2 (by decide)

inductive Token where
  | number (text : String)
  | name (text : String)
  | string (value : String)
  | operator (op : BinaryOp)
  | sign (op : UnaryOp)
  | opening (bracket : Bracket)
  | closing (bracket : Bracket)
  | comma
  | dot

namespace Token

def isWord : Token → Bool
  | number _ | name _ => true
  | operator op => op.word?.isSome
  | sign op => op == .not
  | _ => false

def runsInto : Token → Token → Bool
  | number _, dot => true
  | t, next => t.isWord && next.isWord

/-- The token is written like this. The quotes and the spelling of a string are free, and so are the
blanks between the two words of an operator. -/
inductive Spelled : Token → List Char → Prop
  | number (text : String) : Spelled (number text) text.toList
  | name (text : String) : Spelled (name text) text.toList
  | string {value : String} {q : Char} {w : List Char} (hq : q = '"' ∨ q = '\'')
    (h : Spells q w value.toList) : Spelled (string value) (q :: w ++ [q])
  | operator {op : BinaryOp} (h : op ≠ .notMem) : Spelled (operator op) op.symbol.toList
  | notMem {w : List Char} (hne : w ≠ []) (hw : ∀ x ∈ w, x = ' ' ∨ x = '\t') :
    Spelled (operator .notMem) ("not".toList ++ (w ++ "in".toList))
  | sign (op : UnaryOp) : Spelled (sign op) op.symbol.toList
  | opening (bracket : Bracket) : Spelled (opening bracket) [bracket.opening]
  | closing (bracket : Bracket) : Spelled (closing bracket) [bracket.closing]
  | comma : Spelled comma [',']
  | dot : Spelled dot ['.']

def Valid : Token → Prop
  | number t => Lexeme.isNumber t = true
  | name n => isName n = true
  | _ => True

def goesOn : Token → Char → Bool
  | number _ => isNumberChar
  | t => fun x => t.isWord && isNameChar x

theorem goesOn_le {t : Token} {x : Char} (h : t.goesOn x = true) :
    t.isWord = true ∧ isNumberChar x = true := by
  cases t with
  | number _ => exact ⟨rfl, h⟩
  | _ =>
    simp only [goesOn, Bool.and_eq_true] at h
    exact h.imp_right isNumberChar_of_nameChar

theorem runsInto_of_goesOn {t u : Token} {x : Char} (h : t.goesOn x = true)
    (hu : u.isWord = true ∨ u = .dot ∧ x = '.') : t.runsInto u = true := by
  have ht := (goesOn_le h).1
  rcases hu with hu | ⟨rfl, rfl⟩
  · cases t <;> cases u <;> simp_all [runsInto]
  · cases t with
    | number _ => rfl
    | _ => simp [goesOn, isNameChar] at h

theorem symbol_head (op : BinaryOp) : ∃ x w, op.symbol.toList = x :: w ∧
    Mode.free.opens x = false ∧ (isNumberChar x = true → op.word?.isSome = true) := by
  cases op <;> exact ⟨_, _, rfl, by decide, by decide⟩

/-- What a token begins with is no gap, and goes on with a number or a word at most if the token is
a word or the dot. -/
theorem Spelled.head {u : Token} {w : List Char} (h : u.Spelled w) (hv : u.Valid) :
    ∃ x w', w = x :: w' ∧ Mode.free.opens x = false ∧
      (isNumberChar x = true → u.isWord = true ∨ u = .dot ∧ x = '.') := by
  cases h with
  | number t =>
    obtain ⟨x, xs, ht, hx, -⟩ := isNumber_iff.1 hv
    exact ⟨x, xs, ht, not_opens_of_beginsOperand (by simp [beginsOperand, hx]) _,
      fun _ => .inl rfl⟩
  | name n =>
    obtain ⟨x, xs, hn, hx, -⟩ := isWord_iff.1 (isName_iff.1 hv).1
    exact ⟨x, xs, hn, not_opens_of_beginsOperand (by simp [beginsOperand, hx]) _,
      fun _ => .inl rfl⟩
  | string hq _ =>
    rcases hq with rfl | rfl
    · exact ⟨_, _, rfl, by decide, fun h => absurd h (by decide)⟩
    · exact ⟨_, _, rfl, by decide, fun h => absurd h (by decide)⟩
  | @operator op _ =>
    obtain ⟨x, w, hw, hopens, hword⟩ := symbol_head op
    exact ⟨x, w, hw, hopens, fun h => .inl (hword h)⟩
  | notMem _ _ => exact ⟨'n', _, rfl, by decide, fun _ => .inl rfl⟩
  | sign op =>
    cases op with
    | not => exact ⟨_, _, rfl, by decide, fun _ => .inl rfl⟩
    | _ => exact ⟨_, _, rfl, by decide, fun h => absurd h (by decide)⟩
  | opening b => cases b <;> exact ⟨_, _, rfl, by decide, fun h => absurd h (by decide)⟩
  | closing b => cases b <;> exact ⟨_, _, rfl, by decide, fun h => absurd h (by decide)⟩
  | comma => exact ⟨_, _, rfl, by decide, fun h => absurd h (by decide)⟩
  | dot => exact ⟨_, _, rfl, by decide, fun _ => .inr ⟨rfl, rfl⟩⟩

end Token

/-- The text has these tokens, each with a gap behind it. -/
inductive Written : List Token → List Char → Prop
  | nil : Written [] []
  | cons {t : Token} {ts : List Token} {w pad rest : List Char} (ht : t.Spelled w) (hp : Pads pad)
    (hapart : pad = [] → ∀ u ∈ ts.head?, t.runsInto u = false) (h : Written ts rest) :
    Written (t :: ts) (w ++ (pad ++ rest))

structure Ahead (ts : List Token) (c : Cursor) : Prop where
  written : Written ts c.rest
  valid : ∀ t ∈ ts, t.Valid

namespace Ahead
variable {t : Token} {ts : List Token} {c : Cursor}

theorem no_gap (h : Ahead ts c) : Mode.free.Skips c c := by
  obtain ⟨hw, hv⟩ := h
  apply Mode.Skips.of_stops
  generalize c.rest = text at hw
  cases hw with
  | nil => exact stops_nil _
  | @cons t _ _ _ _ ht _ _ _ =>
    obtain ⟨x, w, rfl, hx, -⟩ := ht.head (hv t (List.mem_cons_self ..))
    exact stops_cons.2 hx

theorem take (h : Ahead (t :: ts) c) : ∃ w d d', c.Passes w d ∧ t.Spelled w ∧
    Stops t.goesOn d.rest ∧ Mode.free.Skips d d' ∧ Ahead ts d' := by
  obtain ⟨p, text⟩ := c
  obtain ⟨hw, hv⟩ := h
  cases hw with
  | @cons _ _ w pad rest ht hp hapart hrest =>
    obtain ⟨-, hv⟩ := List.forall_mem_cons.1 hv
    have hnext : Ahead ts ⟨(p.after w).after pad, rest⟩ := ⟨hrest, hv⟩
    refine ⟨w, ⟨p.after w, pad ++ rest⟩, _, ⟨rfl, rfl⟩, ht, ?_, hp.skips hnext.no_gap, hnext⟩
    by_cases hpad : pad = []
    · subst hpad
      cases hrest with
      | nil => exact stops_nil _
      | @cons u _ _ _ _ hu _ _ _ =>
        obtain ⟨x, w', rfl, -, hhead⟩ := hu.head (hv u (List.mem_cons_self ..))
        rw [List.nil_append, List.cons_append, stops_cons, ← Bool.not_eq_true]
        intro hx
        have hapart := hapart rfl u rfl
        rw [Token.runsInto_of_goesOn hx (hhead (Token.goesOn_le hx).2)] at hapart
        cases hapart
    · exact Stops.mono (fun x hx => (Token.goesOn_le hx).2) (hp.stops hpad rest)

theorem number {text : String} (h : Ahead (.number text :: ts) c) :
    ∃ d d', result? Lexeme.number c = some (text, d) ∧ Mode.free.Skips d d' ∧ Ahead ts d' := by
  obtain ⟨w, d, d', hpass, ⟨⟩, hstop, hskip, hrest⟩ := h.take
  have hnumber : Lexeme.isNumber text = true := h.valid _ (List.mem_cons_self ..)
  exact ⟨d, d', result?_number.2 ⟨hnumber, hpass, hstop⟩, hskip, hrest⟩

theorem name {text : String} (h : Ahead (.name text :: ts) c) :
    ∃ d d', result? Lexeme.name c = some (text, d) ∧ Mode.free.Skips d d' ∧ Ahead ts d' := by
  obtain ⟨w, d, d', hpass, ⟨⟩, hstop, hskip, hrest⟩ := h.take
  have hname : isName text = true := h.valid _ (List.mem_cons_self ..)
  exact ⟨d, d', result?_name.2 ⟨hname, hpass, hstop⟩, hskip, hrest⟩

theorem string {value : String} (h : Ahead (.string value :: ts) c) :
    ∃ d d', result? Lexeme.string c = some (value, d) ∧ Mode.free.Skips d d' ∧ Ahead ts d' := by
  obtain ⟨w, d, d', hpass, hspelled, -, hskip, hrest⟩ := h.take
  cases hspelled with
  | string hq hw => exact ⟨d, d', result?_string.2 ⟨_, _, hq, hw, hpass⟩, hskip, hrest⟩

theorem operator {op : BinaryOp} (h : Ahead (.operator op :: ts) c) :
    ∃ d d', ReadsSymbol op c d ∧ Mode.free.Skips d d' ∧ Ahead ts d' := by
  obtain ⟨w, d, d', hpass, hspelled, hstop, hskip, hrest⟩ := h.take
  refine ⟨d, d', ?_, hskip, hrest⟩
  cases hspelled with
  | operator hne =>
    cases hop : op.word?.isSome with
    | false =>
      exact (readsSymbol_of_symbolic (Option.not_isSome_iff_eq_none.1 (by simp [hop]))).2 hpass
    | true =>
      obtain ⟨hkeyword, hword⟩ := symbol_of_word hop hne
      rw [ReadsSymbol, hkeyword]
      refine (result?_keyword hword).2 ⟨hpass, Stops.mono (fun x hx => ?_) hstop⟩
      simp [Token.goesOn, Token.isWord, hop, hx]
  | notMem hne hw => exact readsSymbol_notMem_iff.2 ⟨_, hne, hw, hpass, hstop⟩

theorem sign {op : UnaryOp} (h : Ahead (.sign op :: ts) c) :
    ∃ d d', ReadsSign op c d ∧ Mode.free.Skips d d' ∧ Ahead ts d' := by
  obtain ⟨w, d, d', hpass, ⟨⟩, hstop, hskip, hrest⟩ := h.take
  refine ⟨d, d', ⟨hpass, ?_⟩, hskip, hrest⟩
  rintro rfl
  exact hstop

theorem opening {b : Bracket} (h : Ahead (.opening b :: ts) c) :
    ∃ d, Opens b.opening c d ∧ Ahead ts d := by
  obtain ⟨w, d, d', hpass, ⟨⟩, -, hskip, hrest⟩ := h.take
  exact ⟨d', ⟨d, hpass, hskip⟩, hrest⟩

theorem comma (h : Ahead (.comma :: ts) c) : ∃ d, Opens ',' c d ∧ Ahead ts d := by
  obtain ⟨w, d, d', hpass, ⟨⟩, -, hskip, hrest⟩ := h.take
  exact ⟨d', ⟨d, hpass, hskip⟩, hrest⟩

theorem closing {b : Bracket} (h : Ahead (.closing b :: ts) c) :
    ∃ d d', c.Passes [b.closing] d ∧ Mode.free.Skips d d' ∧ Ahead ts d' := by
  obtain ⟨w, d, d', hpass, ⟨⟩, -, hskip, hrest⟩ := h.take
  exact ⟨d, d', hpass, hskip, hrest⟩

theorem dot (h : Ahead (.dot :: ts) c) :
    ∃ d d', c.Passes ['.'] d ∧ Mode.free.Skips d d' ∧ Ahead ts d' := by
  obtain ⟨w, d, d', hpass, ⟨⟩, -, hskip, hrest⟩ := h.take
  exact ⟨d, d', hpass, hskip, hrest⟩

end Ahead
end BuildScript
