import BuildScript.Parse.Lexeme
import BuildScript.Proofs.Parse.Progress

/-!
Words and numbers: what each of their parsers takes. All of them take as much as they can, so the
text behind a word does not go on with a character of it.
-/
namespace BuildScript

def Stops (test : Char → Bool) (rest : List Char) : Prop :=
  ∀ x ∈ rest.head?, test x = false

theorem stops_nil (test : Char → Bool) : Stops test [] := by
  simp [Stops]

@[simp] theorem stops_cons {test : Char → Bool} {x : Char} {rest : List Char} :
    Stops test (x :: rest) ↔ test x = false := by
  simp [Stops]

theorem Stops.mono {test other : Char → Bool} (h : ∀ x, other x = true → test x = true)
    {rest : List Char} (hs : Stops test rest) : Stops other rest := by
  intro x hx
  have := hs x hx
  have := h x
  cases ho : other x <;> simp_all

theorem Cursor.Passes.not_stops {test : Char → Bool} {x : Char} {w : List Char} {c d : Cursor}
    (h : c.Passes (x :: w) d) (hx : test x = true) : ¬ Stops test c.rest := by
  rw [h.1, List.cons_append, stops_cons, hx]
  exact Bool.noConfusion

namespace Parser

/-- A parser of what begins with certain characters takes nothing where none of them stands. -/
theorem result?_of_stops {α : Type} {p : Parser α} {test : Char → Bool} {c : Cursor}
    (h : Stops test c.rest) (hp : ∀ a d, result? p c = some (a, d) →
      ∃ x w e, test x = true ∧ c.Passes (x :: w) e) : result? p c = none := by
  refine result?_eq_none fun a d hr => ?_
  obtain ⟨x, w, e, hx, hpass⟩ := hp a d hr
  exact hpass.not_stops hx h

theorem result?_charWhere_cons (test : Char → Bool) (p : Position) (x : Char)
    (rest : List Char) : result? (charWhere test) ⟨p, x :: rest⟩ =
      if test x then some (x, ⟨p.next x, rest⟩) else none :=
  result?_satisfy _ _ _

theorem result?_charWhere_eq_some {test : Char → Bool} {x : Char} {c d : Cursor} :
    result? (charWhere test) c = some (x, d) ↔ test x = true ∧ c.Passes [x] d :=
  result?_satisfy_eq_some

theorem result?_satisfy_eq_none {test : Char → Bool} {expected : List Expectation} {c : Cursor} :
    result? (satisfy test expected) c = none ↔ Stops test c.rest := by
  obtain ⟨p, text⟩ := c
  rw [result?_satisfy]
  cases text with
  | nil => simp [stops_nil]
  | cons x rest => simp [stops_cons]

theorem result?_charWhere_eq_none {test : Char → Bool} {c : Cursor} :
    result? (charWhere test) c = none ↔ Stops test c.rest :=
  result?_satisfy_eq_none

theorem result?_char_eq_some {x y : Char} {c d : Cursor} :
    result? (char x) c = some (y, d) ↔ y = x ∧ c.Passes [x] d := by
  unfold char
  rw [result?_satisfy_eq_some, beq_iff_eq]
  exact and_congr_right fun h => by rw [h]

theorem result?_char_cons (x : Char) (p : Position) (rest : List Char) :
    result? (char x) ⟨p, x :: rest⟩ = some (x, ⟨p.next x, rest⟩) :=
  result?_char_eq_some.2 ⟨rfl, rfl, rfl⟩

theorem result?_char_of_head {x : Char} {c : Cursor} (h : c.rest.head? ≠ some x) :
    result? (char x) c = none := by
  refine result?_satisfy_eq_none.2 fun y hy => ?_
  rw [beq_eq_false_iff_ne]
  rintro rfl
  exact h hy

theorem result?_many_satisfy {test : Char → Bool} {expected : List Expectation} {c d : Cursor}
    {w : List Char} : result? (many (satisfy test expected)) c = some (w, d) ↔
      (∀ x ∈ w, test x = true) ∧ c.Passes w d ∧ Stops test d.rest := by
  have hc : Consumes (satisfy test expected) := .satisfy test expected
  rw [result?_many_eq_some hc]
  constructor
  · intro h
    induction h with
    | @stop c h =>
      exact ⟨nofun, .refl c, result?_satisfy_eq_none.1 h⟩
    | @step c d e x w h rest ih =>
      obtain ⟨hx, hpass⟩ := result?_satisfy_eq_some.1 h
      exact ⟨List.forall_mem_cons.2 ⟨hx, ih.1⟩, hpass.trans ih.2.1, ih.2.2⟩
  · rintro ⟨hw, hp, hs⟩
    induction w generalizing c with
    | nil =>
      obtain ⟨p, rest, rfl, rfl⟩ := hp.split
      exact .stop (result?_satisfy_eq_none.2 hs)
    | cons x w ih =>
      obtain ⟨hx, hw⟩ := List.forall_mem_cons.1 hw
      obtain ⟨e, hfirst, hp⟩ := hp.append (v := [x])
      exact .step (result?_satisfy_eq_some.2 ⟨hx, hfirst⟩) (ih hw hp)

theorem result?_many_charWhere {test : Char → Bool} {c d : Cursor} {w : List Char} :
    result? (many (charWhere test)) c = some (w, d) ↔
      (∀ x ∈ w, test x = true) ∧ c.Passes w d ∧ Stops test d.rest :=
  result?_many_satisfy

end Parser

namespace Lexeme
open BuildScript.Parser

def isNumber (t : String) : Bool :=
  match t.toList with
  | [] => false
  | d :: ds => d.isDigit && ds.all isNumberChar

def isWord (w : String) : Bool :=
  match w.toList with
  | [] => false
  | c :: cs => isNameStart c && cs.all isNameChar

def isName (n : String) : Bool :=
  isWord n && !keywords.contains n

theorem isNumber_iff {t : String} : isNumber t = true ↔
    ∃ d ds, t.toList = d :: ds ∧ d.isDigit = true ∧ ∀ x ∈ ds, isNumberChar x = true := by
  unfold isNumber
  cases t.toList <;> simp [and_assoc]

theorem isWord_iff {w : String} : isWord w = true ↔
    ∃ c cs, w.toList = c :: cs ∧ isNameStart c = true ∧ ∀ x ∈ cs, isNameChar x = true := by
  unfold isWord
  cases w.toList <;> simp [and_assoc]

theorem isName_iff {n : String} : isName n = true ↔ isWord n = true ∧ n ∉ keywords := by
  simp [isName]

theorem not_isNameStart_of_digit {x : Char} (h : x.isDigit = true) : isNameStart x = false := by
  simp only [Char.isDigit, isNameStart, Char.isAlpha, Char.isUpper, Char.isLower, Bool.and_eq_true,
    decide_eq_true_eq] at h ⊢
  rw [← Bool.not_eq_true]
  simp only [Bool.or_eq_true, Bool.and_eq_true, decide_eq_true_eq, beq_iff_eq]
  rintro ((⟨h₁, -⟩ | ⟨h₁, -⟩) | rfl)
  · exact absurd (UInt32.le_trans h₁ h.2) (by decide)
  · exact absurd (UInt32.le_trans h₁ h.2) (by decide)
  · exact absurd h (by decide)

theorem isNameChar_of_start {x : Char} (h : isNameStart x = true) : isNameChar x = true := by
  simp only [isNameStart, isNameChar, Char.isAlphanum, Bool.or_eq_true] at h ⊢
  rcases h with h | h <;> simp [h]

theorem isNumberChar_of_nameChar {x : Char} (h : isNameChar x = true) :
    isNumberChar x = true := by
  simp only [isNumberChar, isNameChar, Bool.or_eq_true] at h ⊢
  rcases h with h | h <;> simp [h]

theorem isNumberChar_of_digit {x : Char} (h : x.isDigit = true) : isNumberChar x = true := by
  simp [isNumberChar, Char.isAlphanum, h]

theorem result?_run {first others : Char → Bool} {c d : Cursor} {t : String} :
    result? (do
        let x ← charWhere first
        let xs ← many (charWhere others)
        pure (String.ofList (x :: xs))) c = some (t, d) ↔
      (∃ x xs, t.toList = x :: xs ∧ first x = true ∧ ∀ y ∈ xs, others y = true) ∧
        c.Passes t.toList d ∧ Stops others d.rest := by
  simp only [result?_bind, result?_pure]
  constructor
  · intro h
    obtain ⟨⟨x, c₁⟩, hx, h⟩ := Option.bind_eq_some_iff.1 h
    obtain ⟨⟨xs, c₂⟩, hxs, h⟩ := Option.bind_eq_some_iff.1 h
    cases h
    obtain ⟨hall, hpass, hstop⟩ := result?_many_charWhere.1 hxs
    obtain ⟨hx, hfirst⟩ := result?_charWhere_eq_some.1 hx
    rw [String.toList_ofList]
    exact ⟨⟨x, xs, rfl, hx, hall⟩, hfirst.trans hpass, hstop⟩
  · rintro ⟨⟨x, xs, ht, hx, hall⟩, hpass, hstop⟩
    rw [ht] at hpass
    obtain ⟨e, hfirst, hothers⟩ := hpass.append (v := [x])
    rw [result?_charWhere_eq_some.2 ⟨hx, hfirst⟩, Option.bind_some,
      result?_many_charWhere.2 ⟨hall, hothers, hstop⟩, Option.bind_some, ← ht, String.ofList_toList]

theorem result?_number {c d : Cursor} {t : String} : result? number c = some (t, d) ↔
    isNumber t = true ∧ c.Passes t.toList d ∧ Stops isNumberChar d.rest := by
  unfold number
  rw [result?_about, result?_run, isNumber_iff]

theorem result?_word {c d : Cursor} {w : String} : result? word c = some (w, d) ↔
    isWord w = true ∧ c.Passes w.toList d ∧ Stops isNameChar d.rest := by
  unfold word
  rw [result?_run, isWord_iff]

theorem result?_name {c d : Cursor} {n : String} : result? name c = some (n, d) ↔
    isName n = true ∧ c.Passes n.toList d ∧ Stops isNameChar d.rest := by
  unfold name
  rw [result?_about, result?_filterMap, Option.bind_eq_some_iff, isName_iff]
  constructor
  · rintro ⟨⟨w, e⟩, hw, h⟩
    obtain ⟨hword, hpass⟩ := result?_word.1 hw
    dsimp only at h
    split at h
    · cases h
    next hk =>
      cases h
      exact ⟨⟨hword, by simpa using hk⟩, hpass⟩
  · rintro ⟨⟨hword, hk⟩, hpass⟩
    refine ⟨(n, d), result?_word.2 ⟨hword, hpass⟩, ?_⟩
    simp [hk, Except.toOption]

theorem result?_keyword {k : String} (hk : isWord k = true) {c d : Cursor} :
    result? (keyword k) c = some ((), d) ↔ c.Passes k.toList d ∧ Stops isNameChar d.rest := by
  unfold keyword
  rw [result?_filterMap, Option.bind_eq_some_iff]
  constructor
  · rintro ⟨⟨w, e⟩, hw, h⟩
    obtain ⟨-, hpass⟩ := result?_word.1 hw
    dsimp only at h
    split at h
    next heq =>
      cases h
      obtain rfl := eq_of_beq heq
      exact hpass
    · cases h
  · rintro hpass
    refine ⟨(k, d), result?_word.2 ⟨hk, hpass⟩, ?_⟩
    simp [Except.toOption]

theorem result?_keyword_of_word {k w : String} {c d : Cursor} (h : result? word c = some (w, d))
    (hne : w ≠ k) : result? (keyword k) c = none := by
  unfold keyword
  rw [result?_filterMap, h]
  simp [hne, Except.toOption]

theorem result?_word_of_stops {c : Cursor} (h : Stops isNameStart c.rest) :
    result? word c = none := by
  obtain ⟨p, text⟩ := c
  unfold word
  rw [result?_bind]
  cases text with
  | nil => rfl
  | cons x rest =>
    rw [stops_cons] at h
    simp [result?_charWhere_cons, h]

end Lexeme
end BuildScript
