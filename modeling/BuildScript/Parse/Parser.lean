import BuildScript.Parse.Failure

/-!
Parsers over a text with places. A reply that succeeds also carries the furthest failure met on the
way, which matters only if the parse fails later. `Parser.result?` forgets the failures, and each
combinator has an equation through it: what a parse accepts and returns depends on results alone.
-/
namespace BuildScript

structure Cursor where
  position : Position
  rest : List Char
deriving Repr, DecidableEq

namespace Cursor

def ofText (text : List Char) : Cursor := ⟨.start, text⟩

def span (c d : Cursor) : Span := ⟨c.position, d.position⟩

/-- The next character as a stretch; at the end of the text nothing is left to cover. -/
def nextSpan (c : Cursor) : Span :=
  match c.rest with
  | [] => ⟨c.position, c.position⟩
  | x :: _ => ⟨c.position, c.position.next x⟩

end Cursor

inductive Reply (α : Type) where
  | success (value : α) (rest : Cursor) (met : Option Failure)
  | failure (failure : Failure)

def Reply.result? {α : Type} : Reply α → Option (α × Cursor)
  | .success a d _ => some (a, d)
  | .failure _ => none

def Parser (α : Type) : Type := Cursor → Reply α

namespace Parser
variable {α β : Type}

def result? (p : Parser α) (c : Cursor) : Option (α × Cursor) := (p c).result?

protected def pure (a : α) : Parser α := fun c => .success a c none

/-- One parser after the other. If the second fails, the failure that the first one met may still
have got further. -/
protected def bind (p : Parser α) (f : α → Parser β) : Parser β := fun c =>
  match p c with
  | .failure e => .failure e
  | .success a d met =>
    match f a d with
    | .failure e => .failure (met.elim e e.furthest)
    | .success b d' met' => .success b d' (Failure.join met met')

instance : Monad Parser where
  pure := Parser.pure
  bind := Parser.bind

@[simp] theorem result?_pure (a : α) (c : Cursor) :
    result? (pure a : Parser α) c = some (a, c) := rfl

@[simp] theorem result?_bind (p : Parser α) (f : α → Parser β) (c : Cursor) :
    result? (p >>= f) c = (result? p c).bind fun r => result? (f r.1) r.2 := by
  show result? (Parser.bind p f) c = _
  simp only [result?, Parser.bind]
  cases p c with
  | failure e => rfl
  | success a d met =>
    simp only [Reply.result?, Option.bind_some]
    cases f a d <;> rfl

@[simp] theorem result?_map (g : α → β) (p : Parser α) (c : Cursor) :
    result? (g <$> p) c = (result? p c).map fun r => (g r.1, r.2) := by
  show result? (p >>= fun a => pure (g a)) c = _
  rw [result?_bind]
  cases result? p c <;> rfl

@[simp] theorem result?_seqLeft (p : Parser α) (q : Parser β) (c : Cursor) :
    result? (p <* q) c =
      (result? p c).bind fun r => (result? q r.2).map fun s => (r.1, s.2) := by
  show result? (p >>= fun a => q >>= fun _ => pure a) c = _
  simp only [result?_bind, result?_pure]
  cases result? p c with
  | none => rfl
  | some r => cases h : result? q r.2 <;> simp [h]

@[simp] theorem result?_seqRight (p : Parser α) (q : Parser β) (c : Cursor) :
    result? (p *> q) c = (result? p c).bind fun r => result? q r.2 := by
  show result? (p >>= fun _ => q) c = _
  rw [result?_bind]

def failureAt (expected : List Expectation) (c : Cursor) : Failure :=
  ⟨c.position.offset, c.nextSpan, .unexpected, expected, .none⟩

def fail : Parser α := fun c => .failure (failureAt [] c)

def satisfy (test : Char → Bool) (expected : List Expectation) : Parser Char := fun c =>
  match c.rest with
  | [] => .failure (failureAt expected c)
  | x :: rest =>
    if test x then .success x ⟨c.position.next x, rest⟩ none else .failure (failureAt expected c)

theorem result?_satisfy (test : Char → Bool) (expected : List Expectation) (c : Cursor) :
    result? (satisfy test expected) c =
      match c.rest with
      | [] => none
      | x :: rest => if test x then some (x, ⟨c.position.next x, rest⟩) else none := by
  simp only [result?, satisfy]
  cases c.rest with
  | nil => rfl
  | cons x rest => by_cases h : test x <;> simp [h, Reply.result?]

/-- A character of which a failure says nothing. -/
def charWhere (test : Char → Bool) : Parser Char := satisfy test []

def char (x : Char) : Parser Char := satisfy (· == x) [.char x]

def oneOf (xs : List Char) : Parser Char := satisfy xs.contains (xs.map .char)

def chars : List Char → Parser Unit
  | [] => pure ()
  | x :: xs => do
    let _ ← char x
    chars xs

def endOfInput : Parser Unit := fun c =>
  match c.rest with
  | [] => .success () c none
  | _ :: _ => .failure (failureAt [.endOfInput] c)

theorem result?_endOfInput (c : Cursor) :
    result? endOfInput c = if c.rest = [] then some ((), c) else none := by
  simp only [result?, endOfInput]
  cases h : c.rest <;> simp [Reply.result?]

/-- The first parser that succeeds. Two failures are joined with the first one leading. -/
protected def orElse (p q : Parser α) : Parser α := fun c =>
  match p c with
  | .success a d met => .success a d met
  | .failure e =>
    match q c with
    | .success a d met => .success a d met
    | .failure e' => .failure (e.furthest e')

instance : OrElse (Parser α) := ⟨fun p q => Parser.orElse p (q ())⟩

@[simp] theorem result?_orElse (p q : Parser α) (c : Cursor) :
    result? (p <|> q) c = (result? p c).or (result? q c) := by
  show result? (Parser.orElse p q) c = _
  simp only [result?, Parser.orElse]
  cases p c with
  | success a d met => rfl
  | failure e => cases q c <;> rfl

/-- The first parser of a list that succeeds. Failures are joined with the last one leading; `met`
is what earlier parsers have met. -/
def choiceAfter (met : Option Failure) : List (Parser α) → Parser α
  | [], c => .failure (met.getD (failureAt [] c))
  | p :: ps, c =>
    match p c with
    | .success a d met => .success a d met
    | .failure e => choiceAfter (Failure.join met (some e)) ps c

def choice (ps : List (Parser α)) : Parser α := choiceAfter none ps

@[simp] theorem result?_choice (ps : List (Parser α)) (c : Cursor) :
    result? (choice ps) c = ps.findSome? fun p => result? p c := by
  suffices ∀ met, result? (choiceAfter met ps) c = ps.findSome? fun p => result? p c from this none
  induction ps with
  | nil => intro met; rfl
  | cons p ps ih =>
    intro met
    simp only [result?, choiceAfter, List.findSome?_cons] at ih ⊢
    cases p c with
    | success a d met => rfl
    | failure e => exact ih _

/-- Runs `p` as long as it succeeds, once for each character of `bound` and once more. -/
def runWithin (p : Parser α) : List Char → Cursor → List α × Cursor × Option Failure
  | [], c =>
    match p c with
    | .failure e => ([], c, some e)
    | .success a d met => ([a], d, met)
  | _ :: bound, c =>
    match p c with
    | .failure e => ([], c, some e)
    | .success a d met =>
      let (as, d', met') := runWithin p bound d
      (a :: as, d', Failure.join met met')

/-- Repeats `p` as long as it succeeds. A parser that takes a character each time comes to its end
within the text that is left. -/
def many (p : Parser α) : Parser (List α) := fun c =>
  let (as, d, met) := runWithin p c.rest c
  .success as d met

def Consumes (p : Parser α) : Prop :=
  ∀ c a d, result? p c = some (a, d) → d.rest.length < c.rest.length

theorem Consumes.lt {p : Parser α} (h : Consumes p) {c d : Cursor} {a : α} {met : Option Failure}
    (hp : p c = .success a d met) : d.rest.length < c.rest.length :=
  h c a d (by simp [result?, hp, Reply.result?])

/-- A bound that is as long as the text does not bound anything. -/
theorem runWithin_eq {p : Parser α} (h : Consumes p) {b b' : List Char} {c : Cursor}
    (hb : c.rest.length ≤ b.length) (hb' : c.rest.length ≤ b'.length) :
    runWithin p b c = runWithin p b' c := by
  induction b generalizing b' c with
  | nil =>
    have hc : c.rest.length = 0 := Nat.le_zero.1 hb
    cases hp : p c with
    | failure e => cases b' <;> simp [runWithin, hp]
    | success a d met => have := h.lt hp; omega
  | cons x b ih =>
    cases hp : p c with
    | failure e => cases b' <;> simp [runWithin, hp]
    | success a d met =>
      have hlt := h.lt hp
      cases b' with
      | nil => have hc : c.rest.length = 0 := Nat.le_zero.1 hb'; omega
      | cons x' b' =>
        rw [List.length_cons] at hb hb'
        have hd : runWithin p b d = runWithin p b' d := ih (by omega) (by omega)
        simp [runWithin, hp, hd]

theorem result?_many {p : Parser α} (h : Consumes p) (c : Cursor) :
    result? (many p) c =
      match result? p c with
      | none => some ([], c)
      | some (a, d) => (result? (many p) d).map fun r => (a :: r.1, r.2) := by
  simp only [result?, many]
  cases hp : p c with
  | failure e => cases c.rest <;> simp [runWithin, hp, Reply.result?]
  | success a d met =>
    have hlt := h.lt hp
    match hr : c.rest with
    | [] => simp [hr] at hlt
    | x :: rest =>
      have hd : d.rest.length ≤ rest.length := by simp [hr] at hlt; omega
      simp [runWithin, hp, runWithin_eq h hd (Nat.le_refl _), Reply.result?]

def many₁ (p : Parser α) : Parser (List α) := do
  let a ← p
  let as ← many p
  pure (a :: as)

protected def optional (p : Parser α) : Parser (Option α) := fun c =>
  match p c with
  | .success a d met => .success (some a) d met
  | .failure e => .success none c (some e)

@[simp] theorem result?_optional (p : Parser α) (c : Cursor) :
    result? (Parser.optional p) c =
      some (((result? p c).map Prod.fst), ((result? p c).map Prod.snd).getD c) := by
  simp only [result?, Parser.optional]
  cases p c <;> rfl

/-- Items between separators; one more separator may follow the last item. -/
def separated (item : Parser α) (separator : Parser β) : Parser (List α) := do
  let items ← Parser.optional do
    let first ← item
    let others ← many (do
      let _ ← separator
      item)
    let _ ← Parser.optional separator
    pure (first :: others)
  pure (items.getD [])

def spanned (p : Parser α) : Parser (α × Span) := fun c =>
  match p c with
  | .success a d met => .success (a, c.span d) d met
  | .failure e => .failure e

@[simp] theorem result?_spanned (p : Parser α) (c : Cursor) :
    result? (spanned p) c = (result? p c).map fun r => ((r.1, c.span r.2), r.2) := by
  simp only [result?, spanned]
  cases p c <;> rfl

/-- Accepts what `check` lets pass. A refusal covers all that was read. -/
def filterMap (p : Parser α) (check : α → Except Reason β) : Parser β := fun c =>
  match p c with
  | .failure e => .failure e
  | .success a d met =>
    match check a with
    | .ok b => .success b d met
    | .error reason => .failure ⟨d.position.offset, c.span d, reason, [], .none⟩

@[simp] theorem result?_filterMap (p : Parser α) (check : α → Except Reason β) (c : Cursor) :
    result? (filterMap p check) c =
      (result? p c).bind fun r => (check r.1).toOption.map fun b => (b, r.2) := by
  simp only [result?, filterMap]
  cases p c with
  | failure e => rfl
  | success a d met =>
    simp only [Reply.result?, Option.bind_some]
    cases check a <;> rfl

def about (name : String) (p : Parser α) : Parser α := fun c =>
  match p c with
  | .success a d met => .success a d (met.map (·.about name))
  | .failure e => .failure (e.about name)

@[simp] theorem result?_about (name : String) (p : Parser α) (c : Cursor) :
    result? (about name p) c = result? p c := by
  simp only [result?, about]
  cases p c <;> rfl

end Parser
end BuildScript
