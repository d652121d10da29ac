import BuildScript.Proofs.Expr.Grouped
import BuildScript.Proofs.Parse.Reading

/-!
Soundness of the grammar: what the parser of a level takes is an expression that stands in the text,
with the gap behind it, grouped as it has to be and bound at least as tightly as the level asks
(`sound_expression`).
-/
namespace BuildScript.Grammar
open BuildScript.Parser Lexeme

def Sound (m : Mode) (rank : Nat) (p : Parser Expr) : Prop :=
  ∀ c e d, result? p c = some (e, d) →
    ∃ d₀, Reads m e c d₀ ∧ m.Skips d₀ d ∧ e.Grouped ∧ rank ≤ e.precedence.rank

theorem forward_gap (m : Mode) : Forward m.gap := by
  intro c u d h
  exact Mode.Skips.passes h

theorem forward_opening (x : Char) : Forward (opening x) :=
  (Forward.satisfy _ _).bind fun _ => forward_gap .free

theorem consumes_opening (x : Char) : Consumes (opening x) :=
  (Consumes.satisfy _ _).bind fun _ => forward_gap .free

theorem consumes_operator (m : Mode) (level : Precedence) : Consumes (operator m.gap level) := by
  intro c op d h
  rw [result?_operator, Option.bind_eq_some_iff] at h
  obtain ⟨⟨t, e⟩, ht, h⟩ := h
  obtain ⟨⟨⟨⟩, e'⟩, he, h⟩ := Option.map_eq_some_iff.1 h
  cases h
  have hlt := consumes_symbol _ _ _ _ (firstSymbol?_eq_some ht).2
  exact Nat.lt_of_le_of_lt (Mode.Skips.length_le he) hlt

theorem operator_sound {m : Mode} {level : Precedence} {c d : Cursor} {op : BinaryOp}
    (h : result? (operator m.gap level) c = some (op, d)) :
    op.precedence = level ∧ ∃ e, ReadsSymbol op c e ∧ m.Skips e d := by
  rw [result?_operator, Option.bind_eq_some_iff] at h
  obtain ⟨⟨t, e⟩, ht, h⟩ := h
  obtain ⟨⟨⟨⟩, e'⟩, he, h⟩ := Option.map_eq_some_iff.1 h
  cases h
  obtain ⟨hmem, hs⟩ := firstSymbol?_eq_some ht
  exact ⟨BinaryOp.mem_longestFirst.1 hmem, e, hs, he⟩

namespace Sound
variable {m : Mode} {rank : Nat} {p : Parser Expr}

theorem forward (h : Sound m rank p) : Forward p := by
  intro c e d hp
  obtain ⟨d₀, hr, hg, -⟩ := h c e d hp
  obtain ⟨_, v, -, hv⟩ := hr.passes
  obtain ⟨w, hw⟩ := hg.passes
  exact ⟨_, hv.trans hw⟩

theorem none_of_stops (h : Sound m rank p) {c : Cursor} (hc : Stops beginsOperand c.rest) :
    result? p c = none := by
  refine result?_of_stops hc fun e d he => ?_
  obtain ⟨d₀, hr, -⟩ := h c e d he
  obtain ⟨x, w, hx, hw⟩ := hr.passes
  exact ⟨x, w, d₀, hx, hw⟩

theorem mono (h : Sound m rank p) {rank' : Nat} (hr : rank' ≤ rank) : Sound m rank' p := by
  intro c e d hp
  obtain ⟨d₀, hr₀, hg, he, hk⟩ := h c e d hp
  exact ⟨d₀, hr₀, hg, he, Nat.le_trans hr hk⟩

end Sound

section Steps
variable {m : Mode} {p : Parser Expr}

def step (m : Mode) (p : Parser Expr) (level : Precedence) : Parser (BinaryOp × Expr) := do
  let op ← operator m.gap level
  let right ← p
  pure (op, right)

theorem result?_leftChain (level : Precedence) (c : Cursor) :
    result? (leftChain m.gap p level) c = (result? p c).bind fun first =>
      (result? (many (step m p level)) first.2).map fun others =>
        (others.1.foldl (fun l r => joined l r.1 r.2) first.1, others.2) := by
  unfold leftChain
  rw [result?_bind]
  rfl

theorem result?_single (level : Precedence) (c : Cursor) :
    result? (single m.gap p level) c = (result? p c).map fun left =>
      ((result? (step m p level) left.2).map fun other =>
        (joined left.1 other.1.1 other.1.2, other.2)).getD left := by
  unfold single
  rw [result?_bind, Option.map_eq_bind]
  congr 1
  funext left
  rw [result?_bind, result?_optional, Option.bind_some, Function.comp_apply]
  unfold step
  cases hstep : result? (step m p level) left.2 <;>
  · unfold step at hstep
    rw [hstep]
    rfl

theorem consumes_step (hp : Forward p) (level : Precedence) : Consumes (step m p level) :=
  (consumes_operator m level).bind fun _ => hp.bind fun _ => .pure _

theorem step_sound {rank : Nat} (hp : Sound m rank p) {level : Precedence} {c d : Cursor}
    {op : BinaryOp} {r : Expr} (h : result? (step m p level) c = some ((op, r), d)) :
    op.precedence = level ∧ r.Grouped ∧ rank ≤ r.precedence.rank ∧
      ∃ c₁ c₂ d₀, ReadsSymbol op c c₁ ∧ m.Skips c₁ c₂ ∧ Reads m r c₂ d₀ ∧ m.Skips d₀ d := by
  unfold step at h
  rw [result?_bind, Option.bind_eq_some_iff] at h
  obtain ⟨⟨op', c₂⟩, hop, h⟩ := h
  rw [result?_bind, Option.bind_eq_some_iff] at h
  obtain ⟨⟨r', d'⟩, hr, h⟩ := h
  cases h
  obtain ⟨hlevel, c₁, hs, hg⟩ := operator_sound hop
  obtain ⟨d₀, hread, hgap, hgrouped, hrank⟩ := hp _ _ _ hr
  exact ⟨hlevel, hgrouped, hrank, c₁, c₂, d₀, hs, hg, hread, hgap⟩

theorem Reads.joined_eq {l r : Expr} {op : BinaryOp} {c c₁ c₂ c₃ c₄ d : Cursor}
    (hl : Reads m l c c₁) (_ : m.Skips c₁ c₂) (_ : ReadsSymbol op c₂ c₃) (_ : m.Skips c₃ c₄)
    (hr : Reads m r c₄ d) : joined l op r = ⟨some (c.span d), .binary op l r⟩ := by
  unfold joined
  rw [hl.span_eq, hr.span_eq]
  rfl

theorem Reads.joined {l r : Expr} {op : BinaryOp} {c c₁ c₂ c₃ c₄ d : Cursor} (hl : Reads m l c c₁)
    (hg : m.Skips c₁ c₂) (hs : ReadsSymbol op c₂ c₃) (hg' : m.Skips c₃ c₄)
    (hr : Reads m r c₄ d) : Reads m (joined l op r) c d :=
  hl.joined_eq hg hs hg' hr ▸ .binary hl hg hs hg' hr

/-- A chain groups from the left, as the operators of its level do. -/
theorem sound_leftChain (level : Precedence) (hp : Sound m (level.rank + 1) p)
    (hassoc : ∀ op : BinaryOp, op.precedence = level → op.assoc = .left) :
    Sound m level.rank (leftChain m.gap p level) := by
  intro c e d h
  rw [result?_leftChain, Option.bind_eq_some_iff] at h
  obtain ⟨⟨first, c₁⟩, hfirst, h⟩ := h
  rw [Option.map_eq_some_iff] at h
  obtain ⟨⟨others, d'⟩, hothers, h⟩ := h
  cases h
  have hrun := (result?_many_eq_some (consumes_step hp.forward level)).1 hothers
  obtain ⟨d₀, hr, hg, hgrouped, hrank⟩ := hp.mono (Nat.le_succ _) _ _ _ hfirst
  clear hfirst hothers
  dsimp only at hrun ⊢
  induction hrun generalizing first d₀ with
  | stop _ => exact ⟨d₀, hr, hg, hgrouped, hrank⟩
  | @step c₁ c₂ _ r others hstep _ ih =>
    obtain ⟨hlevel, hrg, hrr, c₃, c₄, d₁, hs, hg', hr', hg''⟩ := step_sound hp hstep
    have hleft := hassoc _ hlevel
    refine ih _ d₁ (hr.joined hg hs hg' hr') hg'' ?_ ?_
    · refine Expr.grouped_binary.2 ⟨⟨hlevel ▸ hrank, ?_⟩, ?_, hgrouped, hrg⟩
      · simp [hleft]
      · rw [hlevel]
        exact hrr
    · exact Nat.le_of_eq (congrArg _ hlevel.symm)

theorem sound_single (level : Precedence) (hp : Sound m (level.rank + 1) p) :
    Sound m level.rank (single m.gap p level) := by
  intro c e d h
  rw [result?_single] at h
  obtain ⟨⟨left, c₁⟩, hleft, h⟩ := Option.map_eq_some_iff.1 h
  obtain ⟨d₀, hr, hg, hgrouped, hrank⟩ := hp _ _ _ hleft
  dsimp only at h
  cases hstep : result? (step m p level) c₁ with
  | some other =>
    obtain ⟨⟨op, r⟩, d'⟩ := other
    rw [hstep, Option.map_some, Option.getD_some] at h
    cases h
    dsimp only
    obtain ⟨rfl, hrg, hrr, c₃, c₄, d₁, hs, hg', hr', hg''⟩ := step_sound hp hstep
    refine ⟨d₁, hr.joined hg hs hg' hr', hg'', ?_, Nat.le_refl _⟩
    exact Expr.grouped_binary.2 ⟨⟨by omega, fun _ => hrank⟩, hrr, hgrouped, hrg⟩
  | none =>
    rw [hstep] at h
    cases h
    exact ⟨d₀, hr, hg, hgrouped, Nat.le_of_succ_le hrank⟩

end Steps

def SignsOf (level : Precedence) (sign : Parser UnaryOp) : Prop :=
  ∀ {c op d}, result? sign c = some (op, d) ↔ op.precedence = level ∧ ReadsSign op c d

theorem signsOf_sign : SignsOf .unary sign := by
  intro c op d
  rw [result?_sign]
  apply and_congr_left
  intro _
  cases op <;> decide

theorem signsOf_negation : SignsOf .not (keyword "not" *> pure .not) := by
  intro c op d
  rw [result?_negation]
  apply and_congr_left
  intro _
  cases op <;> decide

section Signs
variable {m : Mode} {p : Parser Expr} {level : Precedence} {sign : Parser UnaryOp}

theorem SignsOf.consumes (hs : SignsOf level sign) : Consumes sign := by
  intro c op d h
  have := (hs.1 h).2.1.length_eq
  have hlen : 0 < op.symbol.toList.length := by
    cases op <;> decide
  omega

theorem consumes_signed (hs : SignsOf level sign) : Consumes (spanned sign <* m.gap) :=
  hs.consumes.spanned.seqLeft (forward_gap m)

theorem result?_signed {c d : Cursor} {op : UnaryOp} {s : Span} (hs : SignsOf level sign) :
    result? (spanned sign <* m.gap) c = some ((op, s), d) ↔
      op.precedence = level ∧ ∃ e, ReadsSign op c e ∧ s = c.span e ∧ m.Skips e d := by
  rw [result?_seqLeft, result?_spanned, Option.bind_eq_some_iff]
  constructor
  · rintro ⟨⟨⟨op', s'⟩, e⟩, h, hg⟩
    rw [Option.map_eq_some_iff] at h hg
    obtain ⟨⟨op'', e'⟩, h, heq⟩ := h
    obtain ⟨⟨⟨⟩, d'⟩, hg, heq'⟩ := hg
    cases heq
    cases heq'
    obtain ⟨hl, hr⟩ := hs.1 h
    exact ⟨hl, e', hr, rfl, hg⟩
  · rintro ⟨hl, e, hr, rfl, hg⟩
    refine ⟨((op, c.span e), e), ?_, ?_⟩
    · rw [hs.2 ⟨hl, hr⟩]
      rfl
    · rw [show result? m.gap e = some ((), d) from hg]
      rfl

theorem result?_signs (c : Cursor) :
    result? (signs m.gap sign p) c = (result? (many (spanned sign <* m.gap)) c).bind fun found =>
      (result? p found.2).map fun x =>
        (found.1.foldr (fun s x => signed s.1 s.2 x) x.1, x.2) := by
  unfold signs
  rw [result?_bind]
  congr 1
  funext found
  rw [result?_bind, Option.map_eq_bind]
  rfl

theorem Reads.signed_eq {op : UnaryOp} {x : Expr} {c c₁ c₂ d : Cursor} (_ : ReadsSign op c c₁)
    (_ : m.Skips c₁ c₂) (hx : Reads m x c₂ d) :
    signed op (c.span c₁) x = ⟨some (c.span d), .unary op x⟩ := by
  unfold signed
  rw [hx.span_eq]
  rfl

theorem Reads.signed {op : UnaryOp} {x : Expr} {c c₁ c₂ d : Cursor} (hs : ReadsSign op c c₁)
    (hg : m.Skips c₁ c₂) (hx : Reads m x c₂ d) : Reads m (signed op (c.span c₁) x) c d :=
  Reads.signed_eq hs hg hx ▸ .unary hs hg hx

theorem sound_signs (hs : SignsOf level sign) (hp : Sound m (level.rank + 1) p) :
    Sound m level.rank (signs m.gap sign p) := by
  intro c e d h
  rw [result?_signs, Option.bind_eq_some_iff] at h
  obtain ⟨⟨found, c₁⟩, hfound, h⟩ := h
  rw [Option.map_eq_some_iff] at h
  obtain ⟨⟨x, d'⟩, hx, h⟩ := h
  cases h
  have hrun := (result?_many_eq_some (consumes_signed hs)).1 hfound
  clear hfound
  dsimp only at hrun hx ⊢
  induction hrun with
  | stop _ => exact hp.mono (Nat.le_succ _) _ _ _ hx
  | @step c c₂ _ s found hsign _ ih =>
    obtain ⟨d₀, hr, hg, hgrouped, hrank⟩ := ih hx
    obtain ⟨hl, c₃, hread, hspan, hskip⟩ := (result?_signed hs).1 hsign
    rw [List.foldr_cons, hspan]
    refine ⟨d₀, hr.signed hread hskip, hg, ?_, ?_⟩
    · exact Expr.grouped_unary.2 ⟨hl ▸ hrank, hgrouped⟩
    · exact Nat.le_of_eq (congrArg _ hl.symm)

end Signs

section Operands
variable {m : Mode} {n : Parser Expr}

theorem forward_comma : Forward comma := forward_opening ','

theorem consumes_item (hn : Forward n) : Consumes (do let _ ← comma; n) :=
  (consumes_opening ',').bind fun _ => hn

theorem forward_items (hn : Forward n) : Forward (items n) :=
  hn.separated forward_comma

theorem result?_items (c : Cursor) : result? (items n) c =
    some (match result? n c with
      | none => ([], c)
      | some (x, d) =>
        match result? (many (do let _ ← comma; n)) d with
        | none => ([], c)
        | some (xs, e) => (x :: xs, ((result? comma e).map Prod.snd).getD e)) := by
  unfold items separated
  rw [result?_bind, result?_optional, Option.bind_some, result?_bind]
  cases hx : result? n c with
  | none => rfl
  | some r =>
    obtain ⟨x, d⟩ := r
    rw [Option.bind_some, result?_bind]
    dsimp only
    cases hxs : result? (many (do let _ ← comma; n)) d with
    | none => rfl
    | some s =>
      obtain ⟨xs, e⟩ := s
      rw [Option.bind_some, result?_bind, result?_optional, Option.bind_some]
      rfl

theorem result?_enclosed {α : Type} {p : Parser α} {o x : Char} {c d : Cursor} {a : α} :
    result? (opening o *> p <* char x) c = some (a, d) ↔
      ∃ c₁ c₂, Opens o c c₁ ∧ result? p c₁ = some (a, c₂) ∧ c₂.Passes [x] d := by
  rw [result?_seqLeft, result?_seqRight, Option.bind_eq_some_iff]
  constructor
  · rintro ⟨⟨b, c₂⟩, h, hx⟩
    rw [Option.bind_eq_some_iff] at h
    rw [Option.map_eq_some_iff] at hx
    obtain ⟨⟨⟨⟩, c₁⟩, ho, hp⟩ := h
    obtain ⟨⟨y, d'⟩, hx, heq⟩ := hx
    cases heq
    exact ⟨c₁, c₂, result?_opening.1 ho, hp, (result?_char_eq_some.1 hx).2⟩
  · rintro ⟨c₁, c₂, ho, hp, hx⟩
    refine ⟨(a, c₂), ?_, ?_⟩
    · rw [result?_opening.2 ho]
      exact hp
    · rw [result?_char_eq_some.2 ⟨rfl, hx⟩]
      rfl

theorem readsItems_of_run (hn : Sound .free 0 n) {x : Expr} {xs : List Expr}
    {c c₀ c₁ c₂ : Cursor} (hx : Reads .free x c c₀) (hg : Mode.free.Skips c₀ c₁)
    (hrun : Run (do let _ ← comma; n) c₁ xs c₂) :
    ReadsItems (x :: xs) c c₂ ∧ (∀ d, Opens ',' c₂ d → ReadsItems (x :: xs) c d) ∧
      ∀ y ∈ xs, y.Grouped := by
  induction hrun generalizing x c c₀ with
  | stop _ => exact ⟨.last hx hg, fun d hd => .comma hx hg hd, by simp⟩
  | @step c₁ c₂ c₃ y ys hitem _ ih =>
    rw [result?_bind, Option.bind_eq_some_iff] at hitem
    obtain ⟨⟨⟨⟩, c₄⟩, hcomma, hy⟩ := hitem
    obtain ⟨d₀, hr, hg', hgrouped, -⟩ := hn _ _ _ hy
    obtain ⟨hlast, hmore, hall⟩ := ih hr hg'
    have hopen := result?_opening.1 hcomma
    exact ⟨.cons hx hg hopen hlast, fun d hd => .cons hx hg hopen (hmore d hd),
      List.forall_mem_cons.2 ⟨hgrouped, hall⟩⟩

theorem items_sound (hn : Sound .free 0 n) {xs : List Expr} {c d : Cursor}
    (h : result? (items n) c = some (xs, d)) : ReadsItems xs c d ∧ ∀ x ∈ xs, x.Grouped := by
  rw [result?_items] at h
  cases hx : result? n c with
  | none =>
    rw [hx] at h
    cases h
    exact ⟨.nil, by simp⟩
  | some r =>
    obtain ⟨x, c₁⟩ := r
    obtain ⟨d₀, hr, hg, hgrouped, -⟩ := hn _ _ _ hx
    rw [hx] at h
    dsimp only at h
    cases hxs : result? (many (do let _ ← comma; n)) c₁ with
    | none =>
      rw [hxs] at h
      cases h
      exact ⟨.nil, by simp⟩
    | some s =>
      obtain ⟨ys, c₂⟩ := s
      have hrun := (result?_many_eq_some (consumes_item hn.forward)).1 hxs
      obtain ⟨hlast, hmore, hall⟩ := readsItems_of_run hn hr hg hrun
      rw [hxs] at h
      dsimp only at h
      cases hc : result? comma c₂ with
      | none =>
        rw [hc] at h
        cases h
        exact ⟨hlast, List.forall_mem_cons.2 ⟨hgrouped, hall⟩⟩
      | some t =>
        rw [hc] at h
        cases h
        exact ⟨hmore _ (result?_opening.1 hc), List.forall_mem_cons.2 ⟨hgrouped, hall⟩⟩

theorem atom_sound (hn : Sound .free 0 n) {e : Expr} {c d : Cursor}
    (h : result? (atom m.gap n) c = some (e, d)) :
    ∃ d₀, Reads m e c d₀ ∧ m.Skips d₀ d ∧ e.Grouped ∧ e.precedence = .primary := by
  unfold atom at h
  rw [result?_bind, result?_spanned, Option.bind_eq_some_iff] at h
  obtain ⟨⟨⟨shape, s⟩, c₁⟩, hshape, h⟩ := h
  rw [Option.map_eq_some_iff] at hshape
  obtain ⟨⟨shape', c₂⟩, hshape, heq⟩ := hshape
  cases heq
  rw [result?_bind, Option.bind_eq_some_iff] at h
  obtain ⟨⟨⟨⟩, c₃⟩, hg, h⟩ := h
  cases h
  refine ⟨c₂, ?_⟩
  rw [result?_choice] at hshape
  obtain ⟨p, hp, hp'⟩ := List.exists_of_findSome?_eq_some hshape
  simp only [List.mem_cons, List.not_mem_nil, or_false] at hp
  rcases hp with rfl | rfl | rfl
  · unfold leaf at hp'
    rw [result?_choice] at hp'
    obtain ⟨q, hq, hq'⟩ := List.exists_of_findSome?_eq_some hp'
    simp only [List.mem_cons, List.not_mem_nil, or_false] at hq
    rcases hq with rfl | rfl | rfl
    all_goals
      rw [result?_map, Option.map_eq_some_iff] at hq'
      obtain ⟨⟨t, c₄⟩, ht, heq⟩ := hq'
      cases heq
    · exact ⟨.literal ht, hg, Expr.grouped_leaf rfl, rfl⟩
    · exact ⟨.string ht, hg, Expr.grouped_leaf rfl, rfl⟩
    · exact ⟨.ident ht, hg, Expr.grouped_leaf rfl, rfl⟩
  · unfold parenthesized at hp'
    rw [result?_map, Option.map_eq_some_iff] at hp'
    obtain ⟨⟨x, c₄⟩, hx, heq⟩ := hp'
    cases heq
    obtain ⟨c₅, c₆, ho, hx, hc⟩ := result?_enclosed.1 hx
    obtain ⟨d₀, hr, hg', hgrouped, -⟩ := hn _ _ _ hx
    exact ⟨.paren ho hr hg' hc, hg, Expr.grouped_paren.2 hgrouped, rfl⟩
  · unfold bracketed at hp'
    rw [result?_map, Option.map_eq_some_iff] at hp'
    obtain ⟨⟨xs, c₄⟩, hx, heq⟩ := hp'
    cases heq
    obtain ⟨c₅, c₆, ho, hx, hc⟩ := result?_enclosed.1 hx
    obtain ⟨hitems, hall⟩ := items_sound hn hx
    exact ⟨.list ho hitems hc, hg, Expr.grouped_list.2 hall, rfl⟩

theorem result?_callSuffix {s : Suffix} {c d : Cursor} :
    result? (callSuffix n) c = some (s, d) ↔ ∃ xs c₁ c₂, s = .call xs ∧ Opens '(' c c₁ ∧
      result? (items n) c₁ = some (xs, c₂) ∧ c₂.Passes [')'] d := by
  unfold callSuffix
  rw [result?_map, Option.map_eq_some_iff]
  constructor
  · rintro ⟨⟨xs, d'⟩, h, heq⟩
    cases heq
    obtain ⟨c₁, c₂, h⟩ := result?_enclosed.1 h
    exact ⟨xs, c₁, c₂, rfl, h⟩
  · rintro ⟨xs, c₁, c₂, rfl, h⟩
    exact ⟨(xs, d), result?_enclosed.2 ⟨c₁, c₂, h⟩, rfl⟩

theorem result?_dotSuffix {s : Suffix} {c d : Cursor} :
    result? (dotSuffix m.gap) c = some (s, d) ↔ ∃ x c₁ c₂, s = .dot x ∧ c.Passes ['.'] c₁ ∧
      m.Skips c₁ c₂ ∧ result? name c₂ = some (x, d) := by
  unfold dotSuffix
  rw [result?_bind, Option.bind_eq_some_iff]
  constructor
  · rintro ⟨⟨y, c₁⟩, hdot, h⟩
    rw [result?_bind, Option.bind_eq_some_iff] at h
    obtain ⟨⟨⟨⟩, c₂⟩, hg, h⟩ := h
    rw [result?_map, Option.map_eq_some_iff] at h
    obtain ⟨⟨x, d'⟩, hx, heq⟩ := h
    cases heq
    exact ⟨x, c₁, c₂, rfl, (result?_char_eq_some.1 hdot).2, hg, hx⟩
  · rintro ⟨x, c₁, c₂, rfl, hdot, hg, hx⟩
    refine ⟨('.', c₁), result?_char_eq_some.2 ⟨rfl, hdot⟩, ?_⟩
    rw [result?_bind, show result? m.gap c₁ = some ((), c₂) from hg, Option.bind_some, result?_map,
      hx]
    rfl

def suffix (m : Mode) (n : Parser Expr) : Parser (Suffix × Span) :=
  spanned (callSuffix n <|> dotSuffix m.gap) <* m.gap

theorem consumes_suffix (hn : Forward n) : Consumes (suffix m n) := by
  have hcall : Consumes (callSuffix n) :=
    (((consumes_opening '(').seqRight (forward_items hn)).seqLeft (.satisfy _ _)).map _
  have hname : Forward name := (forward_word.filterMap _).about _
  have hdot : Consumes (dotSuffix m.gap) :=
    (Consumes.satisfy _ _).bind fun _ => (forward_gap m).bind fun _ => hname.map _
  exact (hcall.orElse hdot).spanned.seqLeft (forward_gap m)

theorem result?_suffix {s : Suffix} {span : Span} {c d : Cursor} :
    result? (suffix m n) c = some ((s, span), d) ↔
      ∃ e, span = c.span e ∧ m.Skips e d ∧ (result? (callSuffix n) c = some (s, e) ∨
        (result? (callSuffix n) c = none ∧ result? (dotSuffix m.gap) c = some (s, e))) := by
  unfold suffix
  rw [result?_seqLeft, result?_spanned, result?_orElse, Option.bind_eq_some_iff]
  constructor
  · rintro ⟨⟨⟨s', span'⟩, e⟩, h, hg⟩
    rw [Option.map_eq_some_iff] at h hg
    obtain ⟨⟨s'', e'⟩, h, heq⟩ := h
    obtain ⟨⟨⟨⟩, d'⟩, hg, heq'⟩ := hg
    cases heq
    cases heq'
    exact ⟨e', rfl, hg, Option.or_eq_some_iff.1 h⟩
  · rintro ⟨e, rfl, hg, h⟩
    refine ⟨((s, c.span e), e), ?_, ?_⟩
    · rw [Option.or_eq_some_iff.2 h]
      rfl
    · rw [show result? m.gap e = some ((), d) from hg]
      rfl

theorem result?_operand (c : Cursor) : result? (operand m.gap n) c =
    (result? (atom m.gap n) c).bind fun first => (result? (many (suffix m n)) first.2).map
      fun suffixes => (suffixes.1.foldl suffixed first.1, suffixes.2) := by
  unfold operand
  rw [result?_bind]
  rfl

theorem Reads.suffixed_eq {x : Expr} {s : Suffix} {c c₁ c₂ d : Cursor} (hx : Reads m x c c₁) :
    suffixed x (s, c₂.span d) = ⟨some (c.span d), match s with
      | .call xs => .call x xs
      | .dot y => .dot x y⟩ := by
  unfold suffixed
  rw [hx.span_eq]
  rfl

theorem Reads.suffixed_call {x : Expr} {xs : List Expr} {c c₁ c₂ c₃ c₄ d : Cursor}
    (hx : Reads m x c c₁) (hg : m.Skips c₁ c₂) (ho : Opens '(' c₂ c₃) (hxs : ReadsItems xs c₃ c₄)
    (hc : c₄.Passes [')'] d) : Reads m (suffixed x (.call xs, c₂.span d)) c d :=
  hx.suffixed_eq (s := .call xs) ▸ .call hx hg ho hxs hc

theorem Reads.suffixed_dot {x : Expr} {y : String} {c c₁ c₂ c₃ c₄ d : Cursor}
    (hx : Reads m x c c₁) (hg : m.Skips c₁ c₂) (hd : c₂.Passes ['.'] c₃) (hg' : m.Skips c₃ c₄)
    (hy : result? name c₄ = some (y, d)) : Reads m (suffixed x (.dot y, c₂.span d)) c d :=
  hx.suffixed_eq (s := .dot y) ▸ .dot hx hg hd hg' hy

theorem sound_operand (hn : Sound .free 0 n) :
    Sound m Precedence.primary.rank (operand m.gap n) := by
  intro c e d h
  rw [result?_operand, Option.bind_eq_some_iff] at h
  obtain ⟨⟨first, c₁⟩, hfirst, h⟩ := h
  rw [Option.map_eq_some_iff] at h
  obtain ⟨⟨suffixes, d'⟩, hsuffixes, h⟩ := h
  cases h
  have hrun := (result?_many_eq_some (consumes_suffix hn.forward)).1 hsuffixes
  obtain ⟨d₀, hr, hg, hgrouped, hprimary⟩ := atom_sound hn hfirst
  clear hfirst hsuffixes
  dsimp only at hrun ⊢
  induction hrun generalizing first d₀ with
  | stop _ => exact ⟨d₀, hr, hg, hgrouped, Nat.le_of_eq (congrArg _ hprimary.symm)⟩
  | @step c₁ c₂ _ s suffixes hs _ ih =>
    obtain ⟨s, span⟩ := s
    obtain ⟨e, rfl, hg', hs | ⟨-, hs⟩⟩ := result?_suffix.1 hs
    · obtain ⟨xs, c₃, c₄, rfl, ho, hxs, hc⟩ := result?_callSuffix.1 hs
      obtain ⟨hitems, hall⟩ := items_sound hn hxs
      exact ih _ e (hr.suffixed_call hg ho hitems hc) hg'
        (Expr.grouped_call.2 ⟨hprimary, hgrouped, hall⟩) rfl
    · obtain ⟨y, c₃, c₄, rfl, hd, hg'', hy⟩ := result?_dotSuffix.1 hs
      exact ih _ e (hr.suffixed_dot hg hd hg'' hy) hg'
        (Expr.grouped_dot.2 ⟨hprimary, hgrouped⟩) rfl

end Operands
section Levels
variable {m : Mode} {n : Parser Expr}

theorem arithmetic_induct {motive : Nat → Parser Expr → Prop} {p : Parser Expr}
    (first : motive Precedence.unary.rank p)
    (step : ∀ level ∈ arithmeticLevels, ∀ p, motive (level.rank + 1) p →
      motive level.rank (leftChain m.gap p level)) :
    motive Precedence.bitOr.rank (arithmeticLevels.foldl (leftChain m.gap) p) := by
  have hmultiply := step .multiply (by decide) p first
  have hadd := step .add (by decide) _ hmultiply
  have hshift := step .shift (by decide) _ hadd
  have hbitAnd := step .bitAnd (by decide) _ hshift
  have hbitXor := step .bitXor (by decide) _ hbitAnd
  exact step .bitOr (by decide) _ hbitXor

theorem assoc_of_mem_arithmeticLevels {op : BinaryOp} (h : op.precedence ∈ arithmeticLevels) :
    op.assoc = .left := by
  revert h
  cases op <;> decide

theorem sound_arithmetic (hn : Sound .free 0 n) :
    Sound m Precedence.bitOr.rank (arithmetic m.gap n) := by
  apply arithmetic_induct (sound_signs signsOf_sign (sound_operand (m := m) hn))
  intro level hl p hp
  apply sound_leftChain level hp
  rintro op rfl
  exact assoc_of_mem_arithmeticLevels hl

theorem sound_negation (hn : Sound .free 0 n) :
    Sound m Precedence.not.rank (negation m.gap n) :=
  sound_signs signsOf_negation (sound_single .compare (sound_arithmetic hn))

theorem sound_expression (hn : Sound .free 0 n) : Sound m 0 (expression m.gap n) := by
  have hand := sound_leftChain .and (sound_negation (m := m) hn)
    (by intro op h; cases op <;> first | rfl | cases h)
  have hor := sound_leftChain .or hand
    (by intro op h; cases op <;> first | rfl | cases h)
  exact sound_single .assign hor

/-- What is read between brackets is an expression too, however deep they are nested. -/
theorem sound_nested (depth : Nat) : Sound .free 0 (nested depth) := by
  induction depth with
  | zero =>
    intro c e d h
    cases h
  | succ depth ih => exact sound_expression (m := .free) ih

end Levels
end BuildScript.Grammar
