import BuildScript.Proofs.Parse.Fork

/-!
The parsers of the language in two texts that begin alike. Which of them has looked at what differs
shows in what they tell of, word by word and level by level (`Fork.statements`).
-/
namespace BuildScript
open BuildScript.Parser Lexeme Grammar

namespace Fork
variable {F : Fork} {B : Cursor → Prop} {c c' d : Cursor}

theorem plain_comment : F.Plain comment :=
  (Plain.satisfy _ _).bind fun _ => ((Plain.satisfy _ _).many (.satisfy _ _)).bind fun _ => .pure _

theorem plain_piece (m : Mode) : F.Plain m.piece := by
  have hblank {m : Mode} : Begins m.blank (skip (charWhere m.blank)) := (Begins.satisfy _ _).skip
  have hcomment : Begins (· == '#') (skip comment) := begins_comment.skip
  have hfold : Begins (· == '\\') (skip (do let _ ← char '\\'; char '\n')) :=
    (Begins.bind (.char '\\')).skip
  cases m with
  | free =>
    refine (Plain.satisfy _ _).skip.orElse plain_comment.skip (hblank.apart hcomment ?_)
    intro x hx
    rw [beq_eq_false_iff_ne]
    rintro rfl
    exact absurd hx (by decide)
  | line =>
    have hfolds : F.Plain (skip (do let _ ← char '\\'; char '\n')) :=
      Plain.skip ((Plain.satisfy _ _).bind fun _ => .satisfy _ _)
    have hbehind : Begins (fun x => x == '\\' || x == '#')
        (skip (do let _ ← char '\\'; char '\n') <|> skip comment) :=
      (hfold.mono (by simp +contextual)).orElse (hcomment.mono (by simp +contextual))
    refine (Plain.satisfy _ _).skip.orElse (hfolds.orElse plain_comment.skip
      (hfold.apart hcomment fun x hx => ?_)) (hblank.apart hbehind fun x hx => ?_)
    · rw [eq_of_beq hx]
      decide
    · simp only [Mode.blank, Bool.or_eq_true, beq_iff_eq] at hx
      rcases hx with (rfl | rfl) | rfl <;> decide

theorem plain_gap (m : Mode) : F.Plain m.gap :=
  m.gap_eq ▸ ((plain_piece m).many (Mode.consumes_piece m)).skip

theorem tight_gap (m : Mode) : F.Tight m.gap := by
  intro hw c c' d _ q r hmeets hr ht hshown
  obtain ⟨us, hrun⟩ := Mode.skips_iff.1 (show m.Skips c d from hr)
  rw [m.gap_eq] at ht
  obtain ⟨_, e, hsteps, ht⟩ := ht.skip.many
  obtain ⟨cs, hrun⟩ := hsteps.run hrun
  obtain ⟨rfl, v, b, hpass, rfl, hv⟩ := Mode.tells_piece ht
  have hplace := hshown.le
  have honward : Onward m.piece := (plain_piece (F := F) m).onward
  have hed := honward.steps_le hrun.steps
  rcases hv with rfl | ⟨-, rfl⟩ | ⟨-, hcomment⟩
  · rw [hpass.offset_eq] at hplace
    exact Nat.le_trans hplace hed
  · rw [hpass.offset_eq, List.length_singleton] at hplace
    cases hrun with
    | stop _ =>
      by_contra hlt
      obtain ⟨w, hskip⟩ := Mode.Skips.passes hr
      obtain ⟨_, -, hmeets'⟩ := hmeets.passes hskip (Nat.lt_of_not_le hlt)
      have := hmeets'.last hw hplace '\\' (by rw [hpass.1]; rfl)
      exact absurd this (by decide)
    | step hstep hrun =>
      obtain ⟨x, w, -, hstep⟩ := Mode.piece_passes hstep
      have := hstep.offset_eq
      have := honward.steps_le hrun.steps
      rw [List.length_cons] at *
      omega
  · cases hrun with
    | stop hnone =>
      rw [hnone] at hcomment
      cases hcomment
    | step hstep hrun =>
      cases hstep.symm.trans hcomment
      exact Nat.le_trans hplace (honward.steps_le hrun.steps)

theorem plain_run {first others : Char → Bool} : F.Plain (do
    let x ← charWhere first
    let xs ← many (charWhere others)
    pure (String.ofList (x :: xs))) :=
  (Plain.satisfy _ _).bind fun _ => ((Plain.satisfy _ _).many (.satisfy _ _)).bind fun _ => .pure _

theorem settles_run {first others : Char → Bool} : Settles (do
    let x ← charWhere first
    let xs ← many (charWhere others)
    pure (String.ofList (x :: xs))) := by
  refine (Settles.satisfy _ _).bind (fun _ => ?_) fun _ => ?_
  · exact (Settles.many_satisfy _ _).bind (fun _ => .pure _) fun _ => (Tracks.pure _).onward
  · exact (Onward.satisfy _ _).many.bind fun _ => (Tracks.pure _).onward

theorem plain_number : F.Plain number := plain_run.about _

theorem tight_number : F.Tight number := .of_settles (settles_run.about _)

theorem plain_escape : F.Plain escape := by
  refine (Plain.satisfy _ _).bind fun _ => .choice (fun p hp => ?_) ?_
  · obtain ⟨e, -, rfl⟩ := List.mem_map.1 hp
    exact (Plain.satisfy _ _).bind fun _ => .pure _
  · have hdistinct : escapes.Pairwise fun e e' => e.1 ≠ e'.1 := by decide
    refine List.pairwise_map.2 (hdistinct.imp fun {e e'} hne => ?_)
    exact (Begins.char e.1).bind.apart (Begins.char e'.1).bind fun x hx => by
      rw [eq_of_beq hx, beq_eq_false_iff_ne]
      exact hne

theorem plain_quotedBy (x : Char) : F.Plain (quotedBy x) := by
  refine (Plain.satisfy _ _).bind fun _ => Plain.bind (.many (.orElse (.satisfy _ _) plain_escape
    ?_) (consumes_piece x)) fun _ => (Plain.satisfy _ _).bind fun _ => .pure _
  have hescape : Begins (· == '\\') escape := .bind (.char _)
  refine (Begins.satisfy _ _).apart hescape fun y hy => ?_
  simp only [Bool.and_eq_true, bne_iff_ne] at hy
  simpa using hy.1.2

theorem plain_string : F.Plain string := by
  refine (Plain.map (.orElse (plain_quotedBy _) (plain_quotedBy _) ?_) _).about _
  exact (begins_quotedBy '"').apart (begins_quotedBy '\'') fun x hx => by
    rw [eq_of_beq hx]
    decide

theorem settles_string : Settles string := by
  refine ⟨fun {c d s q r} hr ht => ?_⟩
  obtain ⟨x, w, hx, hw, hpass⟩ := result?_string.1 hr
  obtain ⟨rfl, rfl | ⟨v, t, b, -, hv, rfl, hall⟩⟩ := tells_string ht
  · rw [hpass.offset_eq]
    exact Nat.le_add_right _ _
  rw [hv.offset_eq, hpass.offset_eq]
  by_contra hlt
  -- What was read for the failure is longer than the string, and yet no whole string.
  rcases List.append_eq_append_iff.1 (hv.1.symm.trans hpass.1) with ⟨u, hu, -⟩ | ⟨u, hu, -⟩
  · rw [hu, List.length_append] at hlt
    omega
  obtain ⟨s', d', hs', hd'⟩ := hall c.position []
  have hs : result? string ⟨c.position, v ++ (t ++ [])⟩ =
      some (s, ⟨c.position.after (x :: w ++ [x]), u ++ (t ++ [])⟩) :=
    result?_string.2 ⟨x, w, hx, hw, by rw [hu, List.append_assoc], rfl⟩
  cases hs.symm.trans hs'
  have hnil : u = [] := (List.append_eq_nil_iff.1 hd').1
  rw [hu, hnil, List.length_append] at hlt
  exact hlt (Nat.le_refl _)

theorem tight_string : F.Tight string := .of_settles settles_string

theorem tight_char (x : Char) : F.Tight (char x) := .of_settles (.satisfy _ _)

theorem plain_opening (x : Char) : F.Plain (opening x) :=
  (Plain.satisfy _ _).bind fun _ => plain_gap .free

theorem tight_opening (x : Char) : F.Tight (opening x) :=
  (tight_char x).bind (.satisfy _ _) (fun _ => tight_gap .free) fun _ =>
    (plain_gap (F := F) .free).onward

theorem plain_lineEnd : F.Plain lineEnd := by
  refine ((Plain.satisfy _ _).skip.orElse .endOfInput fun c => ?_).about _
  cases hr : c.rest with
  | nil => exact .inl ((Begins.char '\n').skip.shy (hr ▸ stops_nil _))
  | cons x rest =>
    refine .inr ⟨?_, fun ht => ht.endOfInput.2⟩
    rw [result?_endOfInput, hr]
    rfl

theorem plain_chars (w : List Char) : F.Plain (chars w) := by
  induction w with
  | nil => exact .pure ()
  | cons x w ih => exact (Plain.satisfy _ _).bind fun _ => ih

theorem settles_chars (w : List Char) : Settles (chars w) := by
  induction w with
  | nil => exact .pure ()
  | cons x w ih =>
    refine (Settles.satisfy _ _).bind (fun _ => ih) fun _ => ⟨fun c u d h => ?_, fun h => ?_⟩
    · exact ⟨_, result?_chars.1 h⟩
    · obtain ⟨rfl, u, v, b, -, -, hpass, rfl⟩ := tells_chars h
      rw [hpass.offset_eq]
      exact ⟨Nat.le_add_right _ _, Nat.le_refl _⟩

theorem alike_symbol (h : F.Meets c c') (op : BinaryOp) :
    F.Alike B (symbol op c) (symbol op c') := by
  cases hop : op.word? with
  | none =>
    rw [symbol_of_symbolic hop]
    exact (plain_chars _).alike_of_tight (.of_settles (settles_chars _)) h
  | some w =>
    cases op with
    | and | or | mem => exact Alike.checked h _
    | notMem =>
      have hblank : F.Plain (many₁ (oneOf [' ', '\t'])) :=
        (Plain.satisfy _ _).bind fun _ => ((Plain.satisfy _ _).many (.satisfy _ _)).bind fun _ =>
          .pure _
      have hsettles : Settles (many₁ (oneOf [' ', '\t'])) := by
        refine (Settles.satisfy _ _).bind (fun _ => ?_) fun _ => ?_
        · exact (Settles.many_satisfy _ _).bind (fun _ => .pure _) fun _ => (Tracks.pure _).onward
        · exact (Onward.satisfy _ _).many.bind fun _ => (Tracks.pure _).onward
      refine Alike.bind (B := fun _ => False) (Alike.checked h _) (fun _ h => ?_)
        (fun _ => hblank.onward.bind fun _ => (tracks_keyword _).onward) fun _ _ _ _ _ h => h.elim
      exact Alike.bind (B := fun _ => False) (hblank.alike_of_tight (.of_settles hsettles) h)
        (fun _ h => Alike.checked h _) (fun _ => (tracks_keyword _).onward) fun _ _ _ _ _ h => h.elim
    | _ => cases hop

/-- Where an operator in words was read up to behind a letter that no letter follows, a word of it
ends there. -/
theorem keyword_of_spelled {op : BinaryOp} {u s : List Char} (hword : op.word?.isSome = true)
    (hop : op.Spelled (u ++ s)) (hs : Stops isNameChar s) {x : Char} (hx : x ∈ u.getLast?)
    (hname : isNameChar x = true) : op = .or ∨ ∃ v k, u = v ++ k ∧
      (∀ y ∈ v.getLast?, isNameChar y = false) ∧ k ∈ ["and".toList, "in".toList, "not".toList] := by
  have hnil {k a : List Char} (hk : ∀ y ∈ k, isNameChar y = true) (h : a ++ s = k) : s = [] := by
    cases s with
    | nil => rfl
    | cons y s =>
      rw [stops_cons, hk y (by simp [← h])] at hs
      cases hs
  by_cases hor : op = .or
  · exact .inl hor
  refine .inr ?_
  generalize hw : u ++ s = w at hop
  cases hop with
  | plain hne =>
    obtain rfl := hnil (isNameChar_of_mem (symbol_of_word hword hne).2) hw
    have table : ∀ op ∈ BinaryOp.all, op.word?.isSome = true → op ≠ .notMem → op ≠ .or →
        op.symbol.toList ∈ ["and".toList, "in".toList, "not".toList] := by
      decide
    rw [List.append_nil] at hw
    exact ⟨[], u, rfl, nofun, hw ▸ table op (BinaryOp.mem_all op) hword hne hor⟩
  | @notMem w hne hblank =>
    have hblanks : ∀ y ∈ w, isNameChar y = false := by
      intro y hy
      rcases hblank y hy with rfl | rfl <;> decide
    -- Either `u` ends within the first word, or within the blanks, or within the second word.
    rcases List.append_eq_append_iff.1 hw with ⟨a, ha, hrest⟩ | ⟨a, rfl, hrest⟩
    · cases a with
      | nil =>
        rw [List.append_nil] at ha
        exact ⟨[], u, rfl, nofun, by rw [← ha]; decide⟩
      | cons y a =>
        have hy := isNameChar_of_mem (w := "not") (by decide) y (by rw [ha]; simp)
        rw [hrest, List.cons_append, stops_cons, hy] at hs
        cases hs
    rcases List.append_eq_append_iff.1 hrest with ⟨a', rfl, hin⟩ | ⟨a', rfl, -⟩
    · obtain rfl := hnil (isNameChar_of_mem (w := "in") (by decide)) hin.symm
      rw [List.append_nil] at hin
      refine ⟨"not".toList ++ w, a', (List.append_assoc _ _ _).symm, fun y hy => ?_,
        hin ▸ by decide⟩
      rw [List.getLast?_append_of_ne_nil _ hne] at hy
      exact hblanks y (List.mem_of_getLast? hy)
    · rcases eq_or_ne a [] with rfl | ha
      · exact ⟨[], "not".toList, List.append_nil _, nofun, by decide⟩
      · rw [List.getLast?_append_of_ne_nil _ ha] at hx
        rw [hblanks x (List.mem_append_left _ (List.mem_of_getLast? hx))] at hname
        cases hname

/-- Where the texts part behind a word, the word ends no operator but `or`, nor a part of one. -/
theorem or_of_spelled (hw : F.word = true) (hc : F.Edge c) {op : BinaryOp} {v t : List Char}
    {b : Cursor} (hop : op.Spelled (v ++ t)) (ht : op.word?.isSome = true → Edges v t)
    (hpass : c.Passes v b) (hb : F.place ≤ b.position.offset) : op = .or := by
  obtain @⟨v₀, u, hbefore, hu, hedge⟩ := hc
  obtain ⟨x, hx, hname⟩ := last_of_append hw hbefore hu
  have hplace : u.length ≤ v.length := by
    rw [hpass.offset_eq, place, hbefore, List.length_append] at hb
    simp only [offset_start_after] at hb
    omega
  obtain ⟨v', rfl, hleft⟩ : ∃ v', v = u ++ v' ∧ F.left = v' ++ b.rest := by
    rcases List.append_eq_append_iff.1 (show u ++ F.left = v ++ b.rest from hpass.1) with
      ⟨a, rfl, ha⟩ | ⟨a, rfl, ha⟩
    · exact ⟨a, rfl, ha⟩
    · rw [List.length_append] at hplace
      obtain rfl : a = [] := List.eq_nil_of_length_eq_zero (by omega)
      exact ⟨[], by simp, by simpa using ha.symm⟩
  cases hword : op.word? with
  | none =>
    have hmem : x ∈ op.symbol.toList := by
      generalize hs : u ++ v' ++ t = s at hop
      cases hop with
      | plain _ =>
        rw [← hs, List.append_assoc]
        exact List.mem_append_left _ (List.mem_of_getLast? hx)
      | notMem _ _ => cases hword
    rw [not_isNameChar_of_symbolic hword x hmem] at hname
    cases hname
  | some w =>
    have hword : op.word?.isSome = true := by rw [hword]; rfl
    -- No letter follows behind `u`, neither in the text nor in the operator.
    have hstop : Stops isNameChar (v' ++ t) := by
      cases v' with
      | nil =>
        rw [List.append_nil] at ht
        exact ht hword x hx hname
      | cons y v' =>
        have := F.stops_left hw
        rw [hleft, List.cons_append, stops_cons] at this
        exact stops_cons.2 this
    rw [List.append_assoc] at hop
    refine (keyword_of_spelled hword hop hstop hx hname).resolve_right ?_
    rintro ⟨v₁, k, rfl, hblank, hk⟩
    refine F.unlike hw (v₀ ++ v₁) k (by rw [hbefore, List.append_assoc]) ?_ hk
    rcases eq_or_ne v₁ [] with rfl | hv₁
    · rwa [List.append_nil]
    · intro y hy hname'
      rw [List.getLast?_append_of_ne_nil _ hv₁] at hy
      rw [hblank y hy] at hname'
      cases hname'

theorem or_of_shown (hw : F.word = true) (hc : F.Edge c) {op : BinaryOp} {q : Position} {r : Nat}
    (h : Tells (symbol op) c q r) (hshown : F.Shown q r) : op = .or := by
  obtain ⟨v, b, hpass, rfl, hv, hr⟩ := tells_symbol h
  by_cases hb : F.place ≤ b.position.offset
  · rcases hv with rfl | ⟨t, hop, ht⟩
    · have := hc.lt
      rw [hpass.offset_eq, List.length_nil] at hb
      omega
    · exact or_of_spelled hw hc hop ht hpass hb
  exfalso
  rcases hr with rfl | ⟨-, w, d, hword, rfl⟩
  · exact hb hshown.le
  · obtain ⟨c', hmeets⟩ := hc.meets
    obtain ⟨b', -, hmeets⟩ := hmeets.passes hpass (Nat.lt_of_not_le hb)
    have := hmeets.word_le hw hword
    rcases hshown with hlt | ⟨-, heq⟩
    · omega
    · have := heq hw
      omega

theorem not_shown_of_refused {β : Type} (hw : F.word = true) (h : F.Meets c c')
    {check : String → Except Reason β} (hnone : result? (filterMap Lexeme.word check) c = none)
    {q : Position} {r : Nat} (ht : Tells (filterMap Lexeme.word check) c q r) : ¬ F.Shown q r := by
  intro hshown
  have hlt := h.lt
  have hplace := hshown.le
  rcases tells_checked ht with ⟨rfl, -, rfl | ⟨w, d, hword, rfl⟩⟩ | ⟨a, d, hread, -⟩
  · omega
  · have := h.word_le hw hword
    rcases hshown with hlt' | ⟨-, heq⟩
    · omega
    · have := heq hw
      omega
  · cases hnone.symm.trans hread

theorem not_shown_of_none (hw : F.word = true) (hc : F.Edge c) {op : BinaryOp} {q : Position}
    {r : Nat} (hnone : result? (symbol op) c = none) (h : Tells (symbol op) c q r) :
    ¬ F.Shown q r := by
  intro hshown
  obtain rfl := or_of_shown hw hc h hshown
  obtain ⟨c', hmeets⟩ := hc.meets
  exact not_shown_of_refused hw hmeets hnone h hshown

theorem not_isNameStart_of_symbolic {op : BinaryOp} (h : op.word? = none)
    (hs : ReadsSymbol op c d) : Stops isNameStart c.rest := by
  intro x hx
  rw [hs.head] at hx
  have := not_isNameChar_of_symbolic h x (List.mem_of_mem_head? hx)
  rw [← Bool.not_eq_true] at this ⊢
  exact fun hstart => this (isNameChar_of_start hstart)

/-- Two symbols of a level differ in one character at most, if the one begins like the other. -/
theorem symbolic_failure_le {op t : BinaryOp} (hlevel : op.precedence = t.precedence)
    (hop : op.word? = none) (hsym : t.word? = none) {q : Position} {r : Nat}
    (h : Tells (symbol op) c q r) (ht : ReadsSymbol t c d) : r ≤ d.position.offset := by
  have hpass := (readsSymbol_of_symbolic hsym).1 ht
  rw [symbol_of_symbolic hop] at h
  obtain ⟨rfl, u, v, b, hsplit, hv, hu, rfl⟩ := tells_chars h
  rw [hu.offset_eq, hpass.offset_eq]
  by_contra hlt
  rcases List.append_eq_append_iff.1 (hu.1.symm.trans hpass.1) with ⟨a, ha, -⟩ | ⟨a, ha, -⟩
  · rw [ha, List.length_append] at hlt
    omega
  have table : ∀ s ∈ BinaryOp.all, ∀ t ∈ BinaryOp.all, s.precedence = t.precedence →
      t.symbol.toList.isPrefixOf s.symbol.toList = true →
        s.symbol.toList.length ≤ t.symbol.toList.length + 1 := by
    decide
  have hlen := table op (BinaryOp.mem_all op) t (BinaryOp.mem_all t) hlevel (by
    rw [List.isPrefixOf_iff_prefix, hsplit, ha, List.append_assoc]
    exact List.prefix_append _ _)
  have := List.length_pos_iff.2 hv
  rw [hsplit, List.length_append] at hlen
  rw [ha, List.length_append] at hlen hlt
  omega

theorem keyword_failure_le {k k' : String} {e : Cursor} {q : Position} {r : Nat}
    (hword : result? Lexeme.word c = some (k', e)) (hne : k' ≠ k) (h : Tells (keyword k) c q r) :
    r ≤ e.position.offset := by
  rcases tells_checked h with ⟨-, -, rfl | ⟨_, e', hword', rfl⟩⟩ | ⟨a, d', hread, -⟩
  · rw [(result?_word.1 hword).2.1.offset_eq]
    exact Nat.le_add_right _ _
  · cases hword.symm.trans hword'
    exact Nat.le_refl _
  · cases (result?_keyword_of_word hword hne).symm.trans hread

/-- Of the operators in words only `in` and `not in` share a level. -/
theorem worded_failure_le {op t : BinaryOp} (hlevel : op.precedence = t.precedence)
    (hop : op.word?.isSome = true) (hword : t.word?.isSome = true) (hne : op ≠ t) {q : Position}
    {r : Nat} (h : Tells (symbol op) c q r) (ht : ReadsSymbol t c d) : r ≤ d.position.offset := by
  have table : ∀ s ∈ BinaryOp.all, ∀ t ∈ BinaryOp.all, s.word?.isSome = true →
      t.word?.isSome = true → s.precedence = t.precedence → s ≠ t →
        s = .mem ∧ t = .notMem ∨ s = .notMem ∧ t = .mem := by
    decide
  obtain ⟨w, hspelled, hpass, -⟩ := readsSymbol_iff.1 ht
  rcases table op (BinaryOp.mem_all op) t (BinaryOp.mem_all t) hop hword hlevel hne with
    ⟨rfl, rfl⟩ | ⟨rfl, rfl⟩
  · obtain ⟨e, hword⟩ := ht.word (w := "not") rfl
    refine Nat.le_trans (keyword_failure_le hword (by decide) h) ?_
    cases hspelled with
    | plain hne => exact absurd rfl hne
    | notMem _ _ =>
      rw [(result?_word.1 hword).2.1.offset_eq, hpass.offset_eq, List.length_append]
      omega
  · have hword : result? Lexeme.word c = some ("in", d) :=
      result?_word.2 ⟨by decide, (result?_keyword (k := "in") (by decide)).1 ht⟩
    rcases Tells.bind h with h | ⟨⟨⟩, e, hnot, -⟩
    · exact keyword_failure_le hword (by decide) h
    · rw [result?_keyword_of_word hword (by decide)] at hnot
      cases hnot

theorem symbol_failure_le {op t : BinaryOp} (hlevel : op.precedence = t.precedence)
    (hnone : result? (symbol op) c = none) {q : Position} {r : Nat} (h : Tells (symbol op) c q r)
    (ht : ReadsSymbol t c d) : r ≤ d.position.offset := by
  -- Where `op` cannot begin nothing has been read.
  have shy (hshy : Shy (symbol op) c) : r ≤ d.position.offset := by
    obtain ⟨w, -, hpass, -⟩ := readsSymbol_iff.1 ht
    rw [(hshy.2 h).2, hpass.offset_eq]
    exact Nat.le_add_right _ _
  cases hop : op.word? with
  | none =>
    cases hword : t.word? with
    | none => exact symbolic_failure_le hlevel hop hword h ht
    | some k =>
      obtain ⟨_, hk⟩ := ht.word hword
      refine shy ((begins_symbol_of_symbolic hop).shy fun x hx => beq_eq_false_iff_ne.2 ?_)
      intro hhead
      have hname := not_isNameChar_of_symbolic hop x (List.mem_of_mem_head? hhead)
      rw [isNameChar_of_start (word_head hk x hx)] at hname
      cases hname
  | some k =>
    have hop : op.word?.isSome = true := by rw [hop]; rfl
    cases hword : t.word? with
    | none => exact shy ((begins_symbol_of_word hop).shy (not_isNameStart_of_symbolic hword ht))
    | some k' =>
      refine worded_failure_le hlevel hop (by rw [hword]; rfl) ?_ h ht
      rintro rfl
      rw [show result? (symbol op) c = some ((), d) from ht] at hnone
      cases hnone

def symbols (ops : List BinaryOp) : Parser BinaryOp :=
  ops.foldr (fun op others => (do symbol op; pure op) <|> others) fail

theorem result?_symbols (ops : List BinaryOp) : result? (symbols ops) c = firstSymbol? ops c := by
  induction ops with
  | nil => rfl
  | cons op ops ih =>
    change result? ((do symbol op; pure op) <|> symbols ops) c = _
    rw [result?_orElse, ih]
    unfold firstSymbol?
    rw [List.findSome?_cons, result?_bind]
    cases result? (symbol op) c <;> rfl

theorem tells_symbols {ops : List BinaryOp} {q : Position} {r : Nat}
    (h : Tells (symbols ops) c q r) : (∃ op ∈ ops, Tells (symbol op) c q r ∧
      (result? (symbols ops) c = none → result? (symbol op) c = none)) ∨
        q = c.position ∧ r = c.position.offset := by
  induction ops with
  | nil => exact .inr h.fail
  | cons op ops ih =>
    have hnone (hall : result? (symbols (op :: ops)) c = none) :
        result? (symbol op) c = none ∧ result? (symbols ops) c = none := by
      change result? ((do symbol op; pure op) <|> symbols ops) c = none at hall
      rw [result?_orElse, Option.or_eq_none_iff, result?_bind] at hall
      refine ⟨?_, hall.2⟩
      cases hop : result? (symbol op) c with
      | none => rfl
      | some s =>
        rw [hop] at hall
        cases hall.1
    change Tells ((do symbol op; pure op) <|> symbols ops) c q r at h
    rcases h.orElse with ⟨h, -⟩ | ⟨-, h⟩
    · rcases h.bind with h | ⟨_, _, _, h⟩
      · exact .inl ⟨op, .head _, h, fun hall => (hnone hall).1⟩
      · exact absurd h (Tells.not_pure _)
    · rcases ih h with ⟨t, ht, h, himp⟩ | h
      · exact .inl ⟨t, .tail _ ht, h, fun hall => himp (hnone hall).2⟩
      · exact .inr h

theorem alike_symbols {level : Precedence} {ops : List BinaryOp} (hc : F.Edge c)
    (h : F.Meets c c') (hops : ∀ op ∈ ops, op.precedence = level) :
    F.Alike B (symbols ops c) (symbols ops c') := by
  induction ops with
  | nil => exact .inr trivial
  | cons op ops ih =>
    obtain ⟨hop, hops⟩ := List.forall_mem_cons.1 hops
    -- A failure of the first symbol, as a failure of the operator.
    have first {e : Failure} (he : (do symbol op; pure op : Parser BinaryOp) c = .failure e) :
        result? (symbol op) c = none ∧ Tells (symbol op) c e.span.start e.reach := by
      rcases (symbol op).reply_cases c with ⟨f, hf, hnone⟩ | ⟨_, d, met, hs, -⟩
      · cases (bind_failure hf).symm.trans he
        exact ⟨hnone, tells_of_failure hf⟩
      · cases (bind_success hs).symm.trans he
    refine Alike.orElse (p := do symbol op; pure op) (q := symbols ops)
      ((alike_symbol h op).map fun _ => op) (ih hops) (fun {e} he hshown => ?_)
      fun {e e'} he he' hshown => ?_
    · obtain ⟨hnone, ht⟩ := first he
      rcases (symbols ops).reply_cases c with ⟨e', he', -⟩ | ⟨t, d, met, hd, hr⟩
      · exact .inr ⟨e', he'⟩
      · left
        rw [hd]
        rw [result?_symbols] at hr
        obtain ⟨hmem, hread⟩ := firstSymbol?_eq_some hr
        exact .inl (Nat.le_trans hshown.le
          (symbol_failure_le (hop.trans (hops t hmem).symm) hnone ht hread))
    · by_cases hw : F.word = true
      · rcases tells_symbols (tells_of_failure he') with ⟨t, -, ht, himp⟩ | ⟨-, hr⟩
        · exact absurd hshown
            (not_shown_of_none hw hc (himp (result?_of_failure he')) ht)
        · have := hc.lt
          have := hshown.le
          omega
      · rw [Bool.not_eq_true] at hw
        rcases Nat.lt_or_ge e.reach e'.reach with hlt | hge
        · exact .inr hlt
        · exact .inl (shown_of_not_word hw (Nat.le_trans hshown.le hge))

theorem alike_operator (m : Mode) (level : Precedence) (hc : F.Edge c) (h : F.Meets c c') :
    F.Alike B (operator m.gap level c) (operator m.gap level c') := by
  refine Alike.bind (p := symbols (BinaryOp.longestFirst level)) (B := fun _ => False)
    (alike_symbols hc h fun op hop => BinaryOp.mem_longestFirst.1 hop) (fun {op _ _} _ h => ?_)
    (fun op => ((plain_gap (F := F) m).bind fun _ => .pure op).onward) fun _ _ _ _ _ h => h.elim
  exact ((plain_gap m).bind fun _ => .pure op).alike_of_tight ((tight_gap m).bind (forward_gap m)
    (fun _ => .of_settles (.pure _)) fun _ => (Tracks.pure _).onward) h

section Steps
variable {m : Mode} {p p' : Parser Expr} {level : Precedence} {rank n : Nat}

variable (F) in
/-- What stands at the cursor closes nothing, and no operator looser than the rank goes on there. -/
def Exit (rank : Nat) (c : Cursor) : Prop :=
  Stops closes c.rest ∧ ∀ level : Precedence, level.rank < rank →
    (∀ q, Tells (symbols (BinaryOp.longestFirst level)) c q F.place → F.place ≤ q.offset) ∧
    ∀ op d, firstSymbol? (BinaryOp.longestFirst level) c = some (op, d) → ¬ Stops lengthens d.rest

theorem Exit.mono {rank' : Nat} (h : F.Exit rank c) (hr : rank' ≤ rank) : F.Exit rank' c :=
  ⟨h.1, fun level hl => h.2 level (Nat.lt_of_lt_of_le hl hr)⟩

theorem stops_of_lengthens (h : ¬ Stops lengthens c.rest) (m : Mode) :
    m.Skips c c ∧ Stops beginsOperand c.rest := by
  simp only [Stops, Classical.not_forall, Bool.not_eq_false] at h
  obtain ⟨x, hx, hl⟩ := h
  refine ⟨.of_stops fun y hy => ?_, fun y hy => ?_⟩
  · obtain rfl := Option.mem_unique hx hy
    exact not_opens_of_lengthens hl m
  · obtain rfl := Option.mem_unique hx hy
    exact not_beginsOperand_of_lengthens hl

theorem tells_step {q : Position} {r : Nat} (h : Tells (step m p level) c q r) :
    Tells (symbols (BinaryOp.longestFirst level)) c q r ∨
      ∃ op d, firstSymbol? (BinaryOp.longestFirst level) c = some (op, d) ∧
        (Tells m.gap d q r ∨ ∃ e, m.Skips d e ∧ Tells p e q r) := by
  rcases h.bind with h | ⟨op, e, he, h⟩
  · rcases Tells.seqLeft (p := symbols (BinaryOp.longestFirst level)) h with h | ⟨op, d, hd, h⟩
    · exact .inl h
    · rw [result?_symbols] at hd
      exact .inr ⟨op, d, hd, .inl h⟩
  · rw [result?_operator, Option.bind_eq_some_iff] at he
    obtain ⟨⟨t, d⟩, hd, he⟩ := he
    obtain ⟨⟨⟨⟩, e'⟩, hg, heq⟩ := Option.map_eq_some_iff.1 he
    cases heq
    rcases h.bind with h | ⟨_, _, _, h⟩
    · exact .inr ⟨_, d, hd, .inr ⟨_, hg, h⟩⟩
    · exact absurd h (Tells.not_pure _)

theorem Exit.step_none (h : F.Exit rank c) (hl : level.rank < rank)
    (hp : Begins beginsOperand p) : result? (step m p level) c = none := by
  unfold step
  rw [result?_bind, result?_operator]
  cases hop : firstSymbol? (BinaryOp.longestFirst level) c with
  | none => rfl
  | some s =>
    obtain ⟨hskip, hstop⟩ := stops_of_lengthens ((h.2 level hl).2 s.1 s.2 hop) m
    rw [Option.bind_some, show result? m.gap s.2 = some ((), s.2) from hskip, Option.map_some,
      Option.bind_some, result?_bind, (hp.shy hstop).1]
    rfl

theorem Exit.tells_step (h : F.Exit rank c) (hl : level.rank < rank)
    (hp : Begins beginsOperand p) {q : Position} (ht : Tells (step m p level) c q F.place) :
    F.place ≤ q.offset := by
  obtain ⟨hsymbols, hfirst⟩ := h.2 level hl
  rcases Fork.tells_step ht with ht | ⟨op, d, hd, ht | ⟨e, hg, ht⟩⟩
  · exact hsymbols q ht
  · exact Nat.le_of_eq ((plain_gap (F := F) m).char ht)
  · obtain ⟨hskip, hstop⟩ := stops_of_lengthens (hfirst op d hd) m
    obtain rfl := hg.unique hskip
    obtain ⟨rfl, hr⟩ := (hp.shy hstop).2 ht
    exact Nat.le_of_eq hr

/-- Where an operator of a tighter level has been given up, no step of a looser one is made. -/
theorem Exit.quiet (h : F.Exit (level.rank + 1) c) (hp : Begins beginsOperand p) :
    F.Quiet (F.Exit level.rank) (many (step m p level)) c := by
  have hnone : result? (step m p level) c = none := h.step_none (Nat.lt_succ_self _) hp
  refine ⟨fun ht => ?_, fun hr _ => ?_⟩
  · obtain ⟨as, d, hsteps, ht⟩ := ht.many
    cases hsteps with
    | refl => exact h.tells_step (Nat.lt_succ_self _) hp ht
    | step hstep _ =>
      rw [hnone] at hstep
      cases hstep
  · obtain ⟨e, he⟩ := exists_failure hnone
    cases (result?_of_success (many_failure he)).symm.trans hr
    exact h.mono (Nat.le_succ _)

theorem Edge.unlike (hc : F.Edge c) (hw : F.word = true) {k : List Char} (hk : c.Passes k d)
    (hd : d.position.offset = F.place) : k ∉ ["and".toList, "in".toList, "not".toList] := by
  obtain @⟨v, u, hb, hu, hedge⟩ := hc
  have hlen : u.length = k.length := by
    rw [hk.offset_eq, place, hb, List.length_append] at hd
    simp only [offset_start_after] at hd
    omega
  exact (List.append_inj hk.1 hlen).1 ▸ F.unlike hw v u hb hedge

theorem place_le_of_looser (hw : F.word = true) (hc : F.Edge c) {op : BinaryOp}
    (hs : ReadsSymbol op c d) {t : BinaryOp} (ht : t.precedence.rank < op.precedence.rank)
    {q : Position} (h : Tells (symbol t) c q F.place) : F.place ≤ q.offset := by
  have hlt := hc.lt
  cases htw : t.word?.isSome with
  | false =>
    have htw' : t.word? = none := Option.not_isSome_iff_eq_none.1 (by simp [htw])
    rw [symbol_of_symbolic htw'] at h
    exact Nat.le_of_eq (tells_chars h).1
  | true =>
    cases hop : op.word?.isSome with
    | false =>
      have hop' : op.word? = none := Option.not_isSome_iff_eq_none.1 (by simp [hop])
      obtain ⟨-, hr⟩ := ((begins_symbol_of_word htw).shy (not_isNameStart_of_symbolic hop' hs)).2 h
      omega
    | true =>
      have table : ∀ s ∈ BinaryOp.all, ∀ t ∈ BinaryOp.all, s.word?.isSome = true →
          t.word?.isSome = true → t.precedence.rank < s.precedence.rank →
            t ≠ .notMem ∧ s ≠ .or ∧
              ∀ w ∈ s.word?, w.toList ∈ ["and".toList, "in".toList, "not".toList] := by
        decide
      obtain ⟨hnot, -, hunlike⟩ := table op (BinaryOp.mem_all op) t (BinaryOp.mem_all t) hop htw ht
      obtain ⟨hsymbol, hkeyword⟩ := symbol_of_word htw hnot
      rw [hsymbol] at h
      rcases tells_keyword hkeyword h with ⟨rfl, -, hr | ⟨w, e, hword, hr⟩⟩ | ⟨e, -, -, rfl, hr⟩
      · omega
      · -- The word that is refused is the one of the operator.
        exfalso
        obtain ⟨k, hk⟩ := Option.isSome_iff_exists.1 hop
        obtain ⟨e', hword'⟩ := hs.word hk
        cases hword.symm.trans hword'
        exact hc.unlike hw (result?_word.1 hword).2.1 hr.symm (hunlike w hk)
      · exact Nat.le_of_eq hr

theorem exit_of_step (hw : F.word = true) (hc : F.Edge c) (hp : Begins beginsOperand p)
    {q : Position} {r : Nat} (ht : Tells (step m p level) c q r) (hshown : F.Shown q r) :
    F.Exit level.rank c := by
  have hlt := hc.lt
  obtain ⟨c', hmeets⟩ := hc.meets
  have hplace := hshown.le
  -- Which operator it is: one that has been read, and `or` if nothing is known of what follows.
  obtain ⟨op, d, hlevel, hs, hop⟩ : ∃ op d, op.precedence = level ∧ ReadsSymbol op c d ∧
      (op = .or ∨ Stops lengthens d.rest) := by
    rcases tells_step ht with ht | ⟨op, d, hd, ht⟩
    · rcases tells_symbols ht with ⟨op, hmem, ht, -⟩ | ⟨-, hr⟩
      · cases hs : result? (symbol op) c with
        | none => exact absurd hshown (not_shown_of_none hw hc hs ht)
        | some s =>
          exact ⟨op, s.2, BinaryOp.mem_longestFirst.1 hmem, hs, .inl (or_of_shown hw hc ht hshown)⟩
      · omega
    · obtain ⟨hmem, hs⟩ := firstSymbol?_eq_some hd
      refine ⟨op, d, BinaryOp.mem_longestFirst.1 hmem, hs, ?_⟩
      obtain ⟨v, hv, hpass, -⟩ := readsSymbol_iff.1 hs
      by_cases hd' : F.place ≤ d.position.offset
      · exact .inl (or_of_spelled hw hc (by rwa [List.append_nil])
          (fun _ _ _ _ => stops_nil _) hpass hd')
      · by_contra hnot
        obtain ⟨hskip, hstop⟩ := stops_of_lengthens (not_or.1 hnot).2 m
        obtain ⟨d', -, hmeets'⟩ := hmeets.passes hpass (Nat.lt_of_not_le hd')
        rcases ht with ht | ⟨e, hg, ht⟩
        · exact hd' (tight_gap m hw hmeets' hskip ht hshown)
        · obtain rfl := hg.unique hskip
          have := ((hp.shy hstop).2 ht).2
          omega
  subst hlevel
  refine ⟨fun x hx => (symbol_head op x (hs.head ▸ hx)).1, fun level hl => ⟨fun q ht => ?_, ?_⟩⟩
  · rcases tells_symbols ht with ⟨t, hmem, ht, -⟩ | ⟨-, hr⟩
    · refine place_le_of_looser hw hc hs ?_ ht
      rwa [BinaryOp.mem_longestFirst.1 hmem]
    · omega
  · intro t e hte
    rcases hop with rfl | hop
    · obtain ⟨hmem, hread⟩ := firstSymbol?_eq_some hte
      have hword := Option.isSome_iff_ne_none.2 (hs.word?_ne_none rfl hread)
      have table : ∀ t ∈ BinaryOp.all, t.word?.isSome = true →
          Precedence.or.rank ≤ t.precedence.rank := by
        decide
      have := table t (BinaryOp.mem_all t) hword
      rw [BinaryOp.mem_longestFirst.1 hmem] at this
      exact absurd hl (Nat.not_lt.2 this)
    · have hne : op.precedence ≠ level := by
        rintro rfl
        exact Nat.lt_irrefl _ hl
      rcases hs.first_of_other hop hne with hnone | ⟨t', e', hte', hlong⟩
      · rw [hnone] at hte
        cases hte
      · cases hte.symm.trans hte'
        exact hlong

end Steps

end Fork
end BuildScript
