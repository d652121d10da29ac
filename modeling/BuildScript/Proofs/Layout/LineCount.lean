import BuildScript.Proofs.Layout.Meaning

/-!
How many lines a printed source takes. Each item of a bracket that breaks adds one line end, and
that is no more than the source has characters for; so if the characters of a source can be
counted with 63 bits, the lines of its text can be counted with 64 (`Plan.Sound.count_newline_lt`).
-/
namespace BuildScript
open BuildScript.Parser Lexeme Grammar

def Shape.ownLineEnds {α : Type} : Shape α → Nat
  | paren _ => 2
  | list xs | call _ xs => if xs.isEmpty then 0 else xs.length + 1
  | load _ bs => bs.length + 2
  | _ => 0

theorem Shape.ownLineEnds_mapIdx {α β : Type} (f : Nat → α → β) (s : Shape α) :
    (s.mapIdx f).ownLineEnds = s.ownLineEnds := by
  cases s with
  | list xs | call f xs => cases xs <;> simp [mapIdx, ownLineEnds]
  | load m bs => simp [mapIdx, ownLineEnds]
  | _ => rfl

theorem Shape.ownLineEnds_map {α β : Type} (f : α → β) (s : Shape α) :
    (s.map f).ownLineEnds = s.ownLineEnds := by
  cases s <;> simp [map, ownLineEnds]

namespace Layout

theorem count_newline_inlineText {texts : List (List Char)} :
    (inlineText texts).count '\n' = (texts.map (List.count '\n')).sum := by
  induction texts with
  | nil => rfl
  | cons text texts ih =>
    rw [inlineText, List.count_append]
    cases texts with
    | nil => simp
    | cons next texts =>
      rw [if_neg (by simp), List.count_cons_of_ne (by decide), List.count_cons_of_ne (by decide),
        ih]
      rfl

theorem count_newline_linesText {indent : Indentation} {level : Nat} {trailing : Bool}
    {texts : List (List Char)} : (linesText indent level trailing texts).count '\n' =
      (texts.map (List.count '\n')).sum + texts.length := by
  induction texts with
  | nil => rfl
  | cons text texts ih =>
    have hmargin := List.count_eq_zero_of_not_mem (newline_not_mem_margin indent level)
    have hcomma : (if trailing then [','] else []).count '\n' = 0 := by cases trailing <;> rfl
    have hsplit : linesText indent level trailing (text :: texts) = '\n' :: indent.margin level ++
        text ++ (if trailing then [','] else []) ++ linesText indent level trailing texts := rfl
    rw [hsplit, List.count_append, List.count_append, List.count_append, List.count_cons_self, ih,
      hmargin, hcomma, List.map_cons, List.sum_cons, List.length_cons]
    omega

theorem count_newline_bracketText (indent : Indentation) (bracket : Bracket) {α : Type}
    {xs : List α} (text : α → Nat → List Char) (lines : α → Nat)
    (h : ∀ x ∈ xs, ∀ level, (text x level).count '\n' = lines x) (broken trailing : Bool)
    (level : Nat) :
    (bracketText indent bracket (xs.map text) broken trailing level).count '\n' =
      (xs.map lines).sum + if broken && !xs.isEmpty then xs.length + 1 else 0 := by
  have hopen : bracket.opening ≠ '\n' := by cases bracket <;> decide
  have hclose : [bracket.closing].count '\n' = 0 := by cases bracket <;> rfl
  have hsum (level : Nat) : (((xs.map text).map fun item => item level).map
      (List.count '\n')).sum = (xs.map lines).sum := by
    rw [List.map_map, List.map_map]
    exact congrArg List.sum (List.map_congr_left fun x hx => h x hx level)
  unfold bracketText
  rw [List.count_append, List.count_cons_of_ne hopen, hclose, List.isEmpty_map]
  split
  · rw [List.count_append, List.count_cons_self, count_newline_linesText, hsum,
      List.count_eq_zero_of_not_mem (newline_not_mem_margin indent level), List.length_map,
      List.length_map]
    omega
  · rw [count_newline_inlineText, hsum]

end Layout

namespace Expr

def lineEnds : Expr → Nat := fold fun _ below => below.children.sum + below.ownLineEnds

theorem lineEnds_eq (e : Expr) :
    e.lineEnds = (e.children.map lineEnds).sum + e.shape.ownLineEnds := by
  unfold lineEnds
  rw [fold_eq, Shape.children_map, Shape.ownLineEnds_map]
  rfl

theorem lineEnds_leaf {e : Expr} (h : e.children = []) : e.lineEnds = 0 := by
  rw [lineEnds_eq, h]
  obtain ⟨s, shape⟩ := e
  cases shape <;> simp_all [children, Shape.children, Shape.ownLineEnds]

theorem lineEnds_strip_le (e : Expr) : e.strip.lineEnds ≤ e.lineEnds := by
  induction e using induct with
  | step e ih =>
    rcases paren_or_strip e with ⟨s, x, rfl⟩ | ⟨-, hstrip⟩
    · have hx := ih x (by simp [children, Shape.children])
      rw [lineEnds_eq ⟨s, .paren x⟩]
      simp only [children, Shape.children, List.map_cons, List.map_nil, List.sum_cons,
        List.sum_nil, strip_paren]
      omega
    · rw [hstrip, lineEnds_eq, lineEnds_eq e, Shape.ownLineEnds_map, children, Shape.children_map,
        List.map_map]
      exact Nat.add_le_add_right (List.sum_le_sum ih) _

theorem lineEnds_prepared_le (stripping : Bool) (e : Expr) :
    (e.prepared stripping).lineEnds ≤ e.lineEnds := by
  cases stripping with
  | false => exact Nat.le_refl _
  | true => exact lineEnds_strip_le e

variable {indent : Indentation}

def lineBreaks : Expr → Nat :=
  fold fun e below => below.children.sum + if e.isBroken then below.ownLineEnds else 0

theorem lineBreaks_eq (e : Expr) : e.lineBreaks =
    (e.children.map lineBreaks).sum + if e.isBroken then e.shape.ownLineEnds else 0 := by
  unfold lineBreaks
  rw [fold_eq, Shape.children_map, Shape.ownLineEnds_map]
  rfl

theorem count_newline_spelled (indent : Indentation) {e : Expr} (h : e.Lexical) (level : Nat) :
    (e.spelled indent level).count '\n' = e.lineBreaks := by
  induction e using induct generalizing level with
  | step e ih =>
    obtain ⟨hnode, hbelow⟩ := every_iff.1 h
    have ih (c : Expr) (hc : c ∈ e.children) (level : Nat) := ih c hc (hbelow c hc) level
    rw [lineBreaks_eq]
    obtain ⟨s, shape⟩ := e
    cases shape with
    | literal t =>
      rw [spelled_literal, List.count_eq_zero_of_not_mem (newline_not_mem_number hnode)]
      simp [children, Shape.children, Shape.ownLineEnds]
    | string v =>
      rw [spelled_string, List.count_eq_zero_of_not_mem (not_mem_quote (.inl rfl) _)]
      simp [children, Shape.children, Shape.ownLineEnds]
    | ident n =>
      rw [spelled_ident, List.count_eq_zero_of_not_mem
        (newline_not_mem_word (isName_iff.1 hnode).1)]
      simp [children, Shape.children, Shape.ownLineEnds]
    | binary op l r =>
      have hl := ih l (by simp [children, Shape.children]) level
      have hr := ih r (by simp [children, Shape.children]) level
      have hop : op.symbol.toList.count '\n' = 0 := by cases op <;> decide
      rw [spelled_binary]
      simp [hl, hr, hop, children, Shape.children, Shape.ownLineEnds]
    | unary op x =>
      have hx := ih x (by simp [children, Shape.children]) level
      have hop : (Layout.signText op).toList.count '\n' = 0 := by cases op <;> decide
      rw [spelled_unary, List.count_append, hop, hx]
      simp [children, Shape.children, Shape.ownLineEnds]
    | paren x =>
      rw [spelled_paren]
      have hone := Layout.count_newline_bracketText indent .round (spelled indent) lineBreaks ih
      exact hone _ _ _
    | list xs =>
      have hitems : ∀ x ∈ xs, ∀ level, (spelled indent x level).count '\n' = x.lineBreaks := ih
      rw [spelled_list, Layout.count_newline_bracketText indent .square (spelled indent) lineBreaks
        hitems]
      cases xs <;> simp [isBroken, Shape.breaks, children, Shape.children, Shape.ownLineEnds]
    | call f xs =>
      have hf := ih f (by simp [children, Shape.children]) level
      rw [spelled_call, List.count_append, hf, Layout.count_newline_bracketText indent .round
        (spelled indent) lineBreaks fun x hx => ih x (List.mem_cons_of_mem f hx)]
      cases xs <;> simp [isBroken, Shape.breaks, children, Shape.children, Shape.ownLineEnds,
        Nat.add_assoc]
    | dot x n =>
      have hx := ih x (by simp [children, Shape.children]) level
      have hn := List.count_eq_zero_of_not_mem (newline_not_mem_word (isName_iff.1 hnode).1)
      rw [spelled_dot, List.count_append, List.count_cons_of_ne (by decide), hn, hx]
      simp [children, Shape.children, Shape.ownLineEnds]
    | load m bs => cases hnode

theorem lineBreaks_wrappedIf (needed : Bool) (e : Expr) :
    (wrappedIf needed e).lineBreaks = e.lineBreaks := by
  cases needed with
  | false => rfl
  | true =>
    rw [lineBreaks_eq]
    simp [wrappedIf, paren, ofShape, children, Shape.children, isBroken, isMultiline_eq]

theorem lineBreaks_grouped_le (e : Expr) : e.grouped.lineBreaks ≤ e.lineEnds := by
  induction e using induct with
  | step e ih =>
    have hbelow : e.grouped.children.map lineBreaks =
        e.children.map fun x => x.grouped.lineBreaks := by
      rw [grouped_eq, children, Shape.children_mapIdx]
      apply List.ext_getElem?
      intro i
      simp only [List.getElem?_map, List.getElem?_mapIdx, Option.map_map, Function.comp_def,
        lineBreaks_wrappedIf, children]
    have hown : e.grouped.shape.ownLineEnds = e.shape.ownLineEnds := by
      rw [grouped_eq, Shape.ownLineEnds_mapIdx]
    rw [lineBreaks_eq, lineEnds_eq, hbelow, hown]
    refine Nat.add_le_add (List.sum_le_sum ih) ?_
    split
    · exact Nat.le_refl _
    · exact Nat.zero_le _

theorem count_newline_grouped_le {e : Expr} (h : e.Lexical) (level : Nat) :
    (e.grouped.spelled indent level).count '\n' ≤ e.lineEnds :=
  Nat.le_trans (Nat.le_of_eq (count_newline_spelled indent h.grouped level))
    (lineBreaks_grouped_le e)

theorem lineEnds_of_isLoad {e : Expr} (h : e.isLoad = true) :
    e.lineEnds = e.shape.ownLineEnds := by
  rw [lineEnds_eq, Nat.add_eq_right]
  have hbelow := isLoad_children h
  generalize e.children = cs at hbelow
  induction cs with
  | nil => rfl
  | cons c cs ih =>
    obtain ⟨hc, hcs⟩ := List.forall_mem_cons.1 hbelow
    rw [List.map_cons, List.sum_cons, lineEnds_leaf hc, ih hcs]

theorem Legible.count_newline_le {e : Expr} (h : e.Legible) (level : Nat) :
    (e.grouped.spelled indent level).count '\n' ≤ e.lineEnds := by
  rcases h with h | h
  · rw [(grouped_of_isLoad h).grouped_eq_self, lineEnds_of_isLoad h]
    obtain ⟨origin, value, bindings, hshape, -, hall⟩ := isLoad_iff.1 h
    obtain ⟨s, shape⟩ := e
    obtain rfl : shape = .load origin bindings := hshape
    have hword : "load".toList.count '\n' = 0 := by decide
    have hitems : ∀ item ∈ (fun _ => quote (origin.string?.getD "").toList) ::
        bindings.map fun b _ => bindingText b, ∀ level : Nat, (item level).count '\n' = 0 := by
      refine List.forall_mem_cons.2 ⟨fun _ => ?_, List.forall_mem_map.2 fun b hb _ => ?_⟩
      · exact List.count_eq_zero_of_not_mem (not_mem_quote (.inl rfl) _)
      · exact List.count_eq_zero_of_not_mem (newline_not_mem_bindingText (hall b hb))
    have hbracket := Layout.count_newline_bracketText indent .round id (fun _ => 0) hitems
      (Expr.node s (.load origin bindings)).isMultiline true level
    rw [List.map_id, List.map_const', List.sum_replicate_nat, Nat.mul_zero, Nat.zero_add,
      List.length_cons, List.length_map] at hbracket
    rw [spelled_load, List.count_append, hword, Nat.zero_add, hbracket]
    simp only [Shape.ownLineEnds]
    split
    · exact Nat.le_refl _
    · exact Nat.zero_le _
  · exact count_newline_grouped_le h level

end Expr

namespace Grammar

mutual
theorem Reads.lineEnds_lt {m : Mode} {e : Expr} {c d : Cursor} (h : Reads m e c d) :
    e.lineEnds + 1 + d.rest.length ≤ c.rest.length := by
  rw [Expr.lineEnds_eq]
  match h with
  | .literal h =>
    obtain ⟨_, _, -, hw⟩ := (Reads.literal (m := m) h).passes
    simpa [Expr.children, Shape.children, Shape.ownLineEnds, Nat.add_comm] using hw.length_lt
  | .string h =>
    obtain ⟨_, _, -, hw⟩ := (Reads.string (m := m) h).passes
    simpa [Expr.children, Shape.children, Shape.ownLineEnds, Nat.add_comm] using hw.length_lt
  | .ident h =>
    obtain ⟨_, _, -, hw⟩ := (Reads.ident (m := m) h).passes
    simpa [Expr.children, Shape.children, Shape.ownLineEnds, Nat.add_comm] using hw.length_lt
  | .paren ho hx hg hc =>
    have h₁ := ho.length_lt
    have h₂ := hx.lineEnds_lt
    have h₃ := hg.length_le
    have h₄ := hc.length_lt
    simp only [Expr.children, Shape.children, Shape.ownLineEnds, List.map_cons, List.map_nil,
      List.sum_cons, List.sum_nil]
    omega
  | @Reads.list _ xs _ _ _ _ ho hx hc =>
    have h₁ := ho.length_lt
    have h₂ := hx.lineEnds_lt
    have h₃ := hc.length_lt
    simp only [Expr.children, Shape.children, Shape.ownLineEnds]
    cases xs with
    | nil =>
      simp only [List.map_nil, List.sum_nil, List.length_nil, List.isEmpty_nil, if_true] at h₂ ⊢
      omega
    | cons x xs =>
      simp only [List.length_cons, List.isEmpty_cons, Bool.false_eq_true, if_false] at h₂ ⊢
      omega
  | @Reads.call _ _ xs _ _ _ _ _ _ hf hg ho hx hc =>
    have h₀ := hf.lineEnds_lt
    have h₁ := hg.length_le
    have h₂ := ho.length_lt
    have h₃ := hx.lineEnds_lt
    have h₄ := hc.length_lt
    simp only [Expr.children, Shape.children, Shape.ownLineEnds, List.map_cons, List.sum_cons]
    cases xs with
    | nil =>
      simp only [List.map_nil, List.sum_nil, List.length_nil, List.isEmpty_nil, if_true] at h₃ ⊢
      omega
    | cons x xs =>
      simp only [List.length_cons, List.isEmpty_cons, Bool.false_eq_true, if_false] at h₃ ⊢
      omega
  | .dot hx hg hd hg' hn =>
    obtain ⟨_, hname⟩ := forward_name _ _ _ hn
    have h₁ := hx.lineEnds_lt
    have h₂ := hg.length_le
    have h₃ := hd.length_lt
    have h₄ := hg'.length_le
    have h₅ := hname.length_eq
    simp only [Expr.children, Shape.children, Shape.ownLineEnds, List.map_cons, List.map_nil,
      List.sum_cons, List.sum_nil]
    omega
  | .unary hs hg hx =>
    have h₁ := hs.1.length_eq
    have h₂ := hg.length_le
    have h₃ := hx.lineEnds_lt
    simp only [Expr.children, Shape.children, Shape.ownLineEnds, List.map_cons, List.map_nil,
      List.sum_cons, List.sum_nil]
    omega
  | .binary hl hg hs hg' hr =>
    obtain ⟨_, hs⟩ := forward_symbol _ _ _ _ hs
    have h₁ := hl.lineEnds_lt
    have h₂ := hg.length_le
    have h₃ := hs.length_eq
    have h₄ := hg'.length_le
    have h₅ := hr.lineEnds_lt
    simp only [Expr.children, Shape.children, Shape.ownLineEnds, List.map_cons, List.map_nil,
      List.sum_cons, List.sum_nil]
    omega

theorem ReadsItems.lineEnds_lt {xs : List Expr} {c d : Cursor} (h : ReadsItems xs c d) :
    (xs.map Expr.lineEnds).sum + 2 * xs.length + d.rest.length ≤
      c.rest.length + if xs.isEmpty then 0 else 1 := by
  match h with
  | .nil => simp
  | .last hx hg =>
    have h₁ := hx.lineEnds_lt
    have h₂ := hg.length_le
    simp only [List.map_cons, List.map_nil, List.sum_cons, List.sum_nil, List.length_cons,
      List.length_nil, List.isEmpty_cons, Bool.false_eq_true, if_false]
    omega
  | .comma hx hg hc =>
    have h₁ := hx.lineEnds_lt
    have h₂ := hg.length_le
    have h₃ := hc.length_lt
    simp only [List.map_cons, List.map_nil, List.sum_cons, List.sum_nil, List.length_cons,
      List.length_nil, List.isEmpty_cons, Bool.false_eq_true, if_false]
    omega
  | .cons hx hg hc hr =>
    have h₁ := hx.lineEnds_lt
    have h₂ := hg.length_le
    have h₃ := hc.length_lt
    have h₄ := hr.lineEnds_lt
    simp only [List.map_cons, List.sum_cons, List.length_cons, List.isEmpty_cons,
      Bool.false_eq_true, if_false] at h₄ ⊢
    omega
end

theorem Run.length_le {α : Type} {p : Parser α} (hp : Consumes p) {c d : Cursor} {as : List α}
    (h : Run p c as d) : as.length + d.rest.length ≤ c.rest.length := by
  induction h with
  | stop _ => simp
  | step h _ ih =>
    have := hp _ _ _ h
    rw [List.length_cons]
    omega

theorem ReadsStatement.lineEnds_lt {e : Expr} {c d : Cursor} (h : ReadsStatement e c d) :
    e.lineEnds + 1 + d.rest.length ≤ c.rest.length := by
  rcases h with h | ⟨h, -⟩
  · rw [Expr.lineEnds_of_isLoad (isLoad_of_load h)]
    obtain ⟨origin, s, bindings, ⟨c₁, c₂, c₃, c₄, c₅, c₆, c₇, hload, -, hg, ho, hm, -, hg', hb, hc,
      hy⟩, rfl⟩ := result?_load.1 h
    obtain ⟨_, ho⟩ := ho.passes
    obtain ⟨_, hm⟩ := forward_string _ _ _ hm
    obtain ⟨_, hc⟩ := (forward_opening ',').optional _ _ _ (hc ▸ result?_optional comma c₆)
    have h₁ := hload.length_eq
    have h₂ := hg.length_le
    have h₃ := ho.length_eq
    have h₄ := hm.length_eq
    have h₅ := hg'.length_le
    have h₆ := Run.length_le consumes_bindings hb
    have h₇ := hc.length_eq
    have h₈ := hy.length_eq
    have hword : "load".toList.length = 4 := by decide
    simp only [Shape.ownLineEnds, List.length_cons, List.length_nil] at h₃ h₈ ⊢
    omega
  · exact h.lineEnds_lt

/-- Together with the ends of their lines, and a blank line before each, statements have no more
line ends than characters. -/
theorem ReadsLines.lineEnds_le {es : List Expr} {c d : Cursor} (h : ReadsLines es c d) :
    (es.map fun e => e.lineEnds + 2).sum ≤ c.rest.length + 1 := by
  induction h with
  | nil _ => exact Nat.zero_le _
  | @cons e es c c₁ c₂ c₃ c₄ d he hg hend hg' hrest ih =>
    have h₁ := he.lineEnds_lt
    have h₂ := hg.length_le
    have h₄ := hg'.length_le
    rw [List.map_cons, List.sum_cons]
    rcases hend with hend | ⟨hend, rfl⟩
    · have h₃ := hend.length_eq
      rw [List.length_singleton] at h₃
      omega
    · -- Behind the last line end no statement can stand.
      have hnil : es = [] := by
        cases hrest with
        | nil _ => rfl
        | cons he _ _ _ _ =>
          have := he.lineEnds_lt
          rw [hend, List.length_nil] at h₄
          omega
      subst hnil
      simp only [List.map_nil, List.sum_nil]
      omega

end Grammar

theorem Script.length_commentsOf (text : List Char) :
    2 * (commentsOf text).length ≤ text.length + 1 := by
  obtain ⟨out, d, hmany⟩ : ∃ out d, result? (many commentOrOther) (.ofText text) = some (out, d) :=
    ⟨_, _, rfl⟩
  have hrun := (result?_many_eq_some consumes_commentOrOther).1 hmany
  rw [commentsOf_eq ⟨out, hrun, rfl⟩]
  suffices h : 2 * (out.filterMap id).length ≤ (Cursor.ofText text).rest.length +
      if (Cursor.ofText text).rest.head? = some '#' then 1 else 0 by
    refine Nat.le_trans h (Nat.add_le_add_left ?_ _)
    split <;> omega
  clear hmany
  generalize Cursor.ofText text = c at hrun
  induction hrun with
  | stop _ => exact Nat.zero_le _
  | @step c c' d o out h _ ih =>
    cases o with
    | none =>
      have := consumes_commentOrOther _ _ _ h
      apply Nat.le_trans ih
      split <;> split <;> omega
    | some cm =>
      obtain ⟨text, hc, rfl⟩ := result?_commentOrOther_some.1 h
      obtain ⟨body, rfl, -, hpass, hstop⟩ := result?_comment.1 hc
      have hlength := hpass.length_eq
      have hhead : c.rest.head? = some '#' := by rw [hpass.1]; rfl
      have hnot : c'.rest.head? ≠ some '#' := by
        intro hhash
        obtain ⟨rest, hrest⟩ := List.head?_eq_some_iff.1 hhash
        rw [hrest, stops_cons] at hstop
        cases hstop
      rw [if_neg hnot] at ih
      rw [if_pos hhead]
      have hfound (c : Comment) : (some c :: out).filterMap id = c :: out.filterMap id := rfl
      rw [List.length_cons] at hlength
      rw [hfound, List.length_cons]
      omega

namespace Plan
variable {indent : Indentation} {plan : Plan}

/-- The line ends of the statements of a plan, with two more for each statement and each comment. -/
def lineBound (indent : Indentation) (plan : Plan) : Nat :=
  (plan.statements.map fun s => (s.1.grouped.spelled indent 0).count '\n' + 2).sum +
    2 * plan.comments.length

theorem Sound.tail {b : Block (Expr × Layout) × Option (Nat × Nat)}
    (h : Sound indent (b :: plan)) : plan.Sound indent := by
  obtain ⟨hstatements, hcomments⟩ := h
  obtain ⟨b, lines⟩ := b
  cases b with
  | comment c => exact ⟨hstatements, fun c hc => hcomments c (List.mem_cons_of_mem _ hc)⟩
  | statement s trailing =>
    exact ⟨fun s hs => hstatements s (List.mem_cons_of_mem _ hs),
      fun c hc => hcomments c (List.mem_append_right _ hc)⟩

theorem Sound.count_newline_entry {b : Block (Expr × Layout)} {lines : Option (Nat × Nat)}
    (h : Sound indent ((b, lines) :: plan)) :
    ((b.placed lines).entry.print indent).count '\n' + 2 + plan.lineBound indent ≤
      lineBound indent ((b, lines) :: plan) := by
  obtain ⟨hstatements, hcomments⟩ := h
  cases b with
  | comment c =>
    have hc := hcomments c (List.mem_cons_self)
    show c.content.toList.count '\n' + 2 + plan.lineBound indent ≤
      (plan.statements.map _).sum + 2 * (c :: plan.comments).length
    rw [List.count_eq_zero_of_not_mem hc.2.1, List.length_cons, lineBound]
    omega
  | statement s trailing =>
    obtain ⟨⟨-, hprint⟩, -⟩ := List.forall_mem_cons.1 hstatements
    have htext : ((Entry.statement s.2 trailing).print indent).count '\n' =
        (s.1.grouped.spelled indent 0).count '\n' := by
      cases trailing with
      | none => exact congrArg _ hprint
      | some c =>
        have hc := hcomments c (List.mem_cons_self)
        rw [Entry.print, List.count_append, hprint, List.count_cons_of_ne (by decide),
          List.count_cons_of_ne (by decide), List.count_eq_zero_of_not_mem hc.2.1, Nat.add_zero]
    show ((Entry.statement s.2 trailing).print indent).count '\n' + 2 + plan.lineBound indent ≤
      ((s :: plan.statements).map _).sum + 2 * (trailing.toList ++ plan.comments).length
    rw [htext, List.map_cons, List.sum_cons, List.length_append, lineBound]
    omega

/-- An entry takes the lines of its text, and perhaps a blank line before it. -/
theorem Sound.count_newline_cons {b : Block (Expr × Layout)} {lines : Option (Nat × Nat)}
    (h : Sound indent ((b, lines) :: plan)) (last : Option Nat) :
    (printEntries indent last (entries ((b, lines) :: plan))).count '\n' + 1 +
        plan.lineBound indent ≤
      gapLines last lines + lineBound indent ((b, lines) :: plan) +
        (printEntries indent (lines.map Prod.snd) plan.entries).count '\n' := by
  have hgap : (if gapBetween last lines then ['\n'] else []).count '\n' = gapLines last lines := by
    unfold gapLines
    split <;> rfl
  have hlines : (b.placed lines).lines = lines := by cases b <;> rfl
  have hentry := h.count_newline_entry
  show (printEntries indent last (b.placed lines :: plan.entries)).count '\n' + 1 + _ ≤ _
  rw [printEntries, List.count_append, List.count_append, hlines, hgap, List.count_cons_self]
  omega

theorem Sound.count_newline_le (h : plan.Sound indent) (last : Option Nat) :
    (printEntries indent last plan.entries).count '\n' ≤ plan.lineBound indent := by
  induction plan generalizing last with
  | nil => exact Nat.zero_le _
  | cons b plan ih =>
    obtain ⟨b, lines⟩ := b
    have hcons := h.count_newline_cons last
    have hrest := ih h.tail (lines.map Prod.snd)
    have hgap : gapLines last lines ≤ 1 := by
      unfold gapLines
      split <;> decide
    omega

theorem Sound.count_newline_lt (h : plan.Sound indent) :
    (printEntries indent none plan.entries).count '\n' = 0 ∨
      (printEntries indent none plan.entries).count '\n' < plan.lineBound indent := by
  cases plan with
  | nil => exact .inl rfl
  | cons b plan =>
    obtain ⟨b, lines⟩ := b
    have hcons := h.count_newline_cons none
    have hrest := h.tail.count_newline_le (lines.map Prod.snd)
    have hgap : gapLines none lines = 0 := rfl
    right
    omega

end Plan
end BuildScript
