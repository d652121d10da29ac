import BuildScript.Proofs.Parse.ForkTokens

/-!
The levels of the grammar in two texts that begin alike. Where the texts part behind a word, a
parser may have gone back before that word; then what stands there lets no later operator refuse the
word, so the failure that was met first still leads. The nesting bounds of the two texts may differ.
-/
namespace BuildScript
open BuildScript.Parser Lexeme Grammar

namespace Fork
variable {F : Fork} {α β : Type} {B B' : Cursor → Prop} {c c' d : Cursor} {n : Nat}

theorem Quiet.bind {p : Parser α} {f : α → Parser β} (h : F.Quiet B p c)
    (hf : ∀ {a d}, result? p c = some (a, d) → d.position.offset < F.place → B d →
      F.Quiet B' (f a) d) (hon : ∀ a, Onward (f a)) : F.Quiet B' (p >>= f) c := by
  constructor
  · intro q ht
    rcases ht.bind with ht | ⟨a, d, hr, ht⟩
    · exact h.1 ht
    · by_cases hd : d.position.offset < F.place
      · exact (hf hr hd (h.2 hr hd)).1 ht
      · exact Nat.le_trans (Nat.le_of_not_lt hd) ((hon a).lies ht).1
  · intro b e hr he
    rw [result?_bind] at hr
    obtain ⟨⟨a, d⟩, ha, hb⟩ := Option.bind_eq_some_iff.1 hr
    have hd := Nat.lt_of_le_of_lt ((hon a).le hb) he
    exact (hf ha hd (h.2 ha hd)).2 hb he

theorem Quiet.map {p : Parser α} (h : F.Quiet B p c) (g : α → β) :
    F.Quiet B (p >>= fun a => pure (g a)) c := by
  refine h.bind (fun _ _ hB => ⟨fun ht => absurd ht (Tells.not_pure _), fun hr _ => ?_⟩)
    fun _ => (Tracks.pure _).onward
  cases hr
  exact hB

theorem quiet_of_shy {p : Parser α} (h : Shy p c) (hc : c.position.offset < F.place) :
    F.Quiet B p c := by
  refine ⟨fun ht => ?_, fun hr => ?_⟩
  · have := (h.2 ht).2
    omega
  · rw [h.1] at hr
    cases hr

theorem quiet_many {p : Parser α} (h : Shy p c) (hc : c.position.offset < F.place) (hB : B c) :
    F.Quiet B (Parser.many p) c := by
  refine ⟨fun ht => ?_, fun hr _ => ?_⟩
  · obtain ⟨as, d, hsteps, ht⟩ := ht.many
    cases hsteps with
    | refl => exact (quiet_of_shy (B := B) h hc).1 ht
    | step hstep _ =>
      rw [h.1] at hstep
      cases hstep
  · obtain ⟨e, he⟩ := exists_failure h.1
    cases (result?_of_success (many_failure he)).symm.trans hr
    exact hB

variable (F) in
/-- From the end of a word on, at most `n` characters before the texts part, both parsers reply
alike. -/
structure Follows (n : Nat) (B : Cursor → Prop) (p p' : Parser α) : Prop where
  tracks : Tracks p
  alike {c c' : Cursor} (hc : F.Edge c) (h : F.Meets c c') (hn : F.place ≤ c.position.offset + n) :
    F.Alike B (p c) (p' c')

variable (F) in
def Never (_ : Cursor) : Prop := False

theorem Edge.next {p : Parser α} {a : α} (h : F.Edge c) (tp : Tracks p)
    (hr : result? p c = some (a, d)) (hd : d.position.offset < F.place) : F.Edge d := by
  obtain ⟨w, hw, he⟩ := tp.edges hr
  exact h.passes hw he hd

namespace Follows
variable {p p' : Parser α} {f f' : α → Parser β}

theorem mono (h : F.Follows n B p p') (hB : ∀ d, B d → B' d) : F.Follows n B' p p' :=
  ⟨h.tracks, fun hc hm hn => (h.alike hc hm hn).mono hB⟩

theorem of_plain (h : F.Plain p) (ht : F.Tight p) (tp : Tracks p) : F.Follows n B p p :=
  ⟨tp, fun _ hm _ => h.alike_of_tight ht hm⟩

theorem bind (hp : F.Follows n B p p') (hf : ∀ a, F.Follows n B' (f a) (f' a))
    (hquiet : F.word = true → ∀ {a d}, F.Edge d → B d → F.Quiet B' (f a) d) :
    F.Follows n B' (p >>= f) (p' >>= f') where
  tracks := hp.tracks.bind fun a => (hf a).tracks
  alike {c c'} hc hm hn := by
    refine (hp.alike hc hm hn).bind (fun {a d d'} hr hm' => ?_) (fun a => (hf a).tracks.onward)
      fun hw {a d} hr hd hB => hquiet hw (hc.next hp.tracks hr hd) hB
    have := hp.tracks.onward.le hr
    exact (hf a).alike (hc.next hp.tracks hr hm'.lt) hm' (by omega)

theorem next (hp : F.Follows n Never p p') (hf : ∀ a, F.Follows n B' (f a) (f' a)) :
    F.Follows n B' (p >>= f) (p' >>= f') :=
  hp.bind hf fun _ _ _ _ h => h.elim

theorem map (hp : F.Follows n B p p') (g : α → β) : F.Follows n B (g <$> p) (g <$> p') :=
  ⟨hp.tracks.map g, fun hc hm hn => (hp.alike hc hm hn).map g⟩

theorem done (hp : F.Follows n B p p') (g : α → β) :
    F.Follows n B (p >>= fun a => Pure.pure (g a)) (p' >>= fun a => Pure.pure (g a)) :=
  hp.map g

theorem spanned (hp : F.Follows n B p p') :
    F.Follows n B (Parser.spanned p) (Parser.spanned p') :=
  ⟨hp.tracks.spanned, fun hc hm hn => (hp.alike hc hm hn).spanned hm⟩

theorem about (hp : F.Follows n B p p') (name : String) :
    F.Follows n B (Parser.about name p) (Parser.about name p') :=
  ⟨hp.tracks.about name, fun hc hm hn => (hp.alike hc hm hn).about name⟩

theorem orElse {q q' : Parser α} (hp : F.Follows n B p p') (hq : F.Follows n B q q')
    (hshy : ∀ c, Shy p c ∨ Shy q c) : F.Follows n B (p <|> q) (p' <|> q') :=
  ⟨hp.tracks.orElse hq.tracks, fun hc hm hn =>
    .orElse_of_shy hm (hp.alike hc hm hn) (hq.alike hc hm hn) (hshy _)⟩

theorem choice {ps ps' : List (Parser α)} (hps : List.Forall₂ (F.Follows n B) ps ps')
    (hshy : ps.Pairwise fun p q => ∀ c, Shy p c ∨ Shy q c) :
    F.Follows n B (Parser.choice ps) (Parser.choice ps') where
  tracks := by
    refine .choice fun p hp => ?_
    clear hshy
    induction hps with
    | nil => cases hp
    | cons h _ ih =>
      rcases List.mem_cons.1 hp with rfl | hp
      · exact h.tracks
      · exact ih hp
  alike hc hm hn := .choice hm (hps.imp fun _ _ h => h.alike hc hm hn) (hshy.imp fun h => h _)

theorem checked (check : String → Except Reason β) :
    F.Follows n B (filterMap Lexeme.word check) (filterMap Lexeme.word check) :=
  ⟨.checked check, fun _ hm _ => .checked hm check⟩

theorem optional (hp : F.Follows n B p p') (hstop : F.word = true → ∀ {c q r}, F.Edge c →
    result? p c = none → Tells p c q r → F.Shown q r → B c) :
    F.Follows n B (Parser.optional p) (Parser.optional p') :=
  ⟨hp.tracks.optional, fun hc hm hn => .optional hm (hp.alike hc hm hn) fun hw _ he hshown =>
    hstop hw hc (result?_of_failure he) (tells_of_failure he) hshown⟩

theorem many (hp : F.Follows n B p p') (hc : Consumes p) (hc' : Consumes p')
    (hquiet : F.word = true → ∀ {d}, F.Edge d → B d → F.Quiet B' (Parser.many p) d)
    (hstop : F.word = true → ∀ {c q r}, F.Edge c → result? p c = none → Tells p c q r →
      F.Shown q r → B' c) : F.Follows n B' (Parser.many p) (Parser.many p') where
  tracks := hp.tracks.many hc
  alike {c c'} hce hm hn := by
    have tp := hp.tracks
    refine .many hc hc' tp.onward (E := fun c => F.Edge c ∧ F.place ≤ c.position.offset + n)
      (fun {c a d} hE hr hd => ⟨hE.1.next tp hr hd, ?_⟩) (fun hE hm => hp.alike hE.1 hm hE.2)
      (fun hw {c a d} hE hr hd hB => hquiet hw (hE.1.next tp hr hd) hB)
      (fun hw {c e} hE he _ hshown =>
        hstop hw hE.1 (result?_of_failure he) (tells_of_failure he) hshown) ⟨hce, hn⟩ hm
    have := tp.onward.le hr
    have := hE.2
    omega

end Follows

theorem follows_gap (m : Mode) : F.Follows n B m.gap m.gap :=
  .of_plain (plain_gap m) (tight_gap m) (Mode.tracks_gap m)

theorem follows_char {x : Char} (hx : isNameChar x = false) : F.Follows n B (char x) (char x) :=
  .of_plain (.satisfy _ _) (tight_char x) (.char hx)

theorem follows_opening {x : Char} (hx : isNameChar x = false) :
    F.Follows n B (opening x) (opening x) :=
  .of_plain (plain_opening x) (tight_opening x) (tracks_opening hx)

section Levels
variable {m : Mode} {p p' : Parser Expr} {level : Precedence}

theorem follows_step (hp : F.Follows n B p p') :
    F.Follows n B (step m p level) (step m p' level) :=
  Follows.next ⟨tracks_operator m level, fun hc hm _ => alike_operator m level hc hm⟩
    fun op => hp.done fun right => (op, right)

theorem follows_leftChain (hp : F.Follows n (F.Exit (level.rank + 1)) p p') (fp : Forward p')
    (bp : Begins beginsOperand p) :
    F.Follows n (F.Exit level.rank) (leftChain m.gap p level) (leftChain m.gap p' level) := by
  have hsteps : F.Follows n (F.Exit level.rank) (many (step m p level)) (many (step m p' level)) :=
    (follows_step hp).many (consumes_step hp.tracks.forward level) (consumes_step fp level)
      (fun _ _ _ hexit => hexit.quiet bp) fun hw _ _ _ hc _ ht hshown =>
        exit_of_step hw hc bp ht hshown
  exact hp.bind (fun first => hsteps.done _) fun _ _ _ _ hexit => (hexit.quiet bp).map _

theorem Exit.quiet_optional (h : F.Exit (level.rank + 1) c) (hp : Begins beginsOperand p) :
    F.Quiet (F.Exit level.rank) (Parser.optional (step m p level)) c := by
  refine ⟨fun ht => h.tells_step (Nat.lt_succ_self _) hp ht.optional, fun hr _ => ?_⟩
  have hnone : result? (step m p level) c = none := h.step_none (Nat.lt_succ_self _) hp
  rw [result?_optional, hnone] at hr
  cases hr
  exact h.mono (Nat.le_succ _)

theorem follows_single (hp : F.Follows n (F.Exit (level.rank + 1)) p p')
    (bp : Begins beginsOperand p) :
    F.Follows n (F.Exit level.rank) (single m.gap p level) (single m.gap p' level) := by
  have hstep : F.Follows n (F.Exit level.rank) (step m p level) (step m p' level) :=
    (follows_step hp).mono fun _ h => h.mono (Nat.le_succ _)
  have hoption : F.Follows n (F.Exit level.rank) (Parser.optional (step m p level))
      (Parser.optional (step m p' level)) :=
    hstep.optional fun hw _ _ _ hc _ ht hshown => exit_of_step hw hc bp ht hshown
  exact hp.bind (fun left => hoption.done _) fun _ _ _ _ hexit => (hexit.quiet_optional bp).map _

theorem follows_signs {sign : Parser UnaryOp} {rank : Nat} (hs : SignsOf level sign)
    (hsign : F.Follows n Never sign sign)
    (hstop : F.word = true → ∀ {c q r}, F.Edge c → result? sign c = none → Tells sign c q r →
      ¬ F.Shown q r) (hp : F.Follows n (F.Exit rank) p p') :
    F.Follows n (F.Exit rank) (signs m.gap sign p) (signs m.gap sign p') := by
  have hsigned : F.Follows n Never (spanned sign <* m.gap) (spanned sign <* m.gap) :=
    hsign.spanned.next fun s => (follows_gap m).done _
  have hmany : F.Follows n Never (many (spanned sign <* m.gap)) (many (spanned sign <* m.gap)) := by
    refine hsigned.many (consumes_signed hs) (consumes_signed hs)
      (fun _ _ _ h => h.elim) fun hw c q r hc hnone ht hshown => ?_
    rw [result?_seqLeft, result?_spanned] at hnone
    cases hsc : result? sign c with
    | none =>
      rcases Tells.seqLeft ht with ht | ⟨_, _, hr, -⟩
      · exact hstop hw hc hsc ht.spanned hshown
      · rw [result?_spanned, hsc] at hr
        cases hr
    | some s =>
      obtain ⟨d, hd⟩ := Mode.exists_skips m s.2
      rw [hsc, Option.map_some, Option.bind_some,
        show result? m.gap s.2 = some ((), d) from hd] at hnone
      cases hnone
  exact hmany.next fun found => hp.done _

theorem tells_sign {q : Position} {r : Nat} (h : Tells sign c q r) : r = c.position.offset := by
  rcases h.choice with ⟨p, hp, h, -⟩ | h
  · simp only [List.mem_cons, List.not_mem_nil, or_false] at hp
    rcases hp with rfl | rfl | rfl
    all_goals
      rcases h.seqRight with h | ⟨_, _, _, h⟩
      · exact h.char.2.2
      · exact absurd h (Tells.not_pure _)
  · exact h.2

theorem follows_sign : F.Follows n Never sign sign := by
  refine .of_plain (.choice (fun p hp => ?_) ?_) (.of_settles ?_) tracks_sign
  · simp only [List.mem_cons, List.not_mem_nil, or_false] at hp
    rcases hp with rfl | rfl | rfl <;> exact (Plain.satisfy _ _).seqRight (.pure _)
  · have apart {x y : Char} {op op' : UnaryOp} (hxy : x ≠ y) (c : Cursor) :
        Shy (char x *> pure op) c ∨ Shy (char y *> pure op') c :=
      (Begins.char x).seqRight.apart (Begins.char y).seqRight (fun z hz => by
        rw [eq_of_beq hz, beq_eq_false_iff_ne]
        exact hxy) c
    simp only [List.pairwise_cons, List.mem_cons, List.not_mem_nil, or_false, forall_eq_or_imp,
      forall_eq, false_implies, implies_true, List.Pairwise.nil, and_true]
    exact ⟨⟨apart (by decide), apart (by decide)⟩, apart (by decide)⟩
  · exact ⟨fun hr ht => tells_sign ht ▸ tracks_sign.onward.le hr⟩

theorem follows_negationSign :
    F.Follows n Never (keyword "not" *> pure UnaryOp.not) (keyword "not" *> pure UnaryOp.not) :=
  (Follows.checked _).done fun _ => UnaryOp.not

theorem negationSign_not_shown (hw : F.word = true) (hc : F.Edge c)
    (hnone : result? (keyword "not" *> pure UnaryOp.not) c = none) {q : Position} {r : Nat}
    (ht : Tells (keyword "not" *> pure UnaryOp.not) c q r) : ¬ F.Shown q r := by
  obtain ⟨c', hm⟩ := hc.meets
  rcases ht.seqRight with ht | ⟨_, _, _, ht⟩
  · refine not_shown_of_refused hw hm ?_ ht
    cases hk : result? (keyword "not") c with
    | none => exact hk
    | some s =>
      rw [result?_seqRight, hk] at hnone
      cases hnone
  · exact absurd ht (Tells.not_pure _)

def Unclosed (c : Cursor) : Prop := Stops closes c.rest

theorem Unclosed.shy {y : Char} (h : Unclosed c) (hy : closes y = true) : Shy (char y) c :=
  (Begins.char y).shy (h.mono fun z hz => by rwa [eq_of_beq hz])

theorem unclosed_of_not_shy {p : Parser α} {test : Char → Bool} (bp : Begins test p)
    (htest : ∀ x, closes x = true → test x = false) (h : ¬ Shy p c) : Unclosed c := by
  intro x hx
  by_contra hclose
  refine h (bp.shy fun y hy => ?_)
  obtain rfl := Option.mem_unique hx hy
  exact htest _ (by simpa using hclose)

theorem not_shy_of_shown {p : Parser α} (hc : c.position.offset < F.place) {q : Position} {r : Nat}
    (ht : Tells p c q r) (hshown : F.Shown q r) : ¬ Shy p c := by
  intro hshy
  have := (hshy.2 ht).2
  have := hshown.le
  omega

theorem not_beginsOperand_of_closes (x : Char) (h : closes x = true) : beginsOperand x = false := by
  simp only [closes, Bool.or_eq_true, beq_iff_eq] at h
  rcases h with ((rfl | rfl) | rfl) | rfl <;> decide

theorem unclosed_of_begins {p : Parser α} (bp : Begins beginsOperand p)
    (hc : c.position.offset < F.place) {q : Position} {r : Nat} (ht : Tells p c q r)
    (hshown : F.Shown q r) : Unclosed c :=
  unclosed_of_not_shy bp not_beginsOperand_of_closes (not_shy_of_shown hc ht hshown)

/-- What stands between brackets is read to its end, or not at all. -/
theorem follows_enclosed {q q' : Parser α} {x y : Char} (hx : isNameChar x = false)
    (hy : closes y = true) (hq : F.Follows n Unclosed q q') :
    F.Follows (n + 1) B (opening x *> q <* char y) (opening x *> q' <* char y) where
  tracks := by
    refine tracks_enclosed hq.tracks hx ?_
    simp only [closes, Bool.or_eq_true, beq_iff_eq] at hy
    rcases hy with ((rfl | rfl) | rfl) | rfl <;> decide
  alike {c c'} hc hm hn := by
    have hinner : F.Alike Unclosed ((opening x *> q) c) ((opening x *> q') c') := by
      refine ((follows_opening (n := n + 1) (B := Never) hx).alike hc hm hn).bind
        (fun {_ d d'} hr hm' => hq.alike (hc.next (tracks_opening hx) hr hm'.lt) hm' ?_)
        (fun _ => hq.tracks.onward) fun _ _ _ _ _ h => h.elim
      obtain ⟨w, hw⟩ := (result?_opening.1 hr).passes
      rw [hw.offset_eq, List.length_cons]
      omega
    refine hinner.bind (f := fun a => char y >>= fun _ => pure a) (fun {a d d'} _ hm' => ?_)
      (fun a => (Onward.satisfy _ _).bind fun _ => (Tracks.pure a).onward)
      fun _ {a d} _ hd hunclosed => quiet_of_shy (hunclosed.shy hy).bind hd
    refine ((Plain.satisfy _ _).bind fun _ => .pure a).alike_of_tight (.of_settles ?_) hm'
    exact (Settles.satisfy _ _).bind (fun _ => .pure a) fun _ => (Tracks.pure a).onward

def Trailing (F : Fork) (c : Cursor) : Prop :=
  ∀ d, ((result? comma c).map Prod.snd).getD c = d → d.position.offset < F.place → Unclosed d

theorem Unclosed.trailing (h : Unclosed c) : Trailing F c := by
  rintro d rfl -
  have hnone : result? comma c = none := ((h.shy (y := ',') (by decide)).bind).1
  rw [hnone]
  exact h

theorem Unclosed.shy_item {item : Parser α} (h : Unclosed c) (bi : Begins (· == ',') item) :
    Shy item c :=
  bi.shy (h.mono fun z hz => by rw [eq_of_beq hz]; decide)

theorem follows_others {item item' : Parser α} (hi : F.Follows n Unclosed item item')
    (ci : Consumes item) (ci' : Consumes item') (bi : Begins (· == ',') item)
    (hopen : F.word = true → ∀ {c d q r}, F.Edge c → Tells item c q r → F.Shown q r →
      result? comma c = some ((), d) → d.position.offset < F.place → Unclosed d) :
    F.Follows n (Trailing F) (many item) (many item') := by
  refine hi.many ci ci' (fun _ d hd hunclosed => ?_) fun hw c q r hc _ ht hshown => ?_
  · exact quiet_many (hunclosed.shy_item bi) hd.lt hunclosed.trailing
  · rintro d hd hplace
    cases hcomma : result? comma c with
    | some s =>
      rw [hcomma] at hd
      obtain rfl : s.2 = d := hd
      exact hopen hw hc ht hshown hcomma hplace
    | none =>
      -- Without a comma there is no item, so nothing could be shown.
      exfalso
      have hstop : Stops (· == ',') c.rest := by
        intro x hx
        by_contra hx'
        obtain ⟨e, he⟩ : ∃ e, c.Passes [x] e := by
          obtain ⟨p, text⟩ := c
          cases text with
          | nil => cases hx
          | cons y rest =>
            obtain rfl : y = x := by simpa using hx
            exact ⟨⟨p.next y, rest⟩, rfl, rfl⟩
        obtain rfl : x = ',' := by simpa using hx'
        obtain ⟨f, hf⟩ := Mode.exists_skips .free e
        rw [show result? comma c = some ((), f) from result?_opening.2 ⟨e, he, hf⟩] at hcomma
        cases hcomma
      have := ((bi.shy hstop).2 ht).2
      have := hshown.le
      have := hc.lt
      omega

theorem tells_lastComma {q : Position} {r : Nat} (h : Tells (Parser.optional comma) c q r) :
    r = q.offset := by
  rcases Tells.bind (p := char ',') (f := fun _ => gap) h.optional with h | ⟨_, e, -, h⟩
  · obtain ⟨-, rfl, rfl⟩ := h.char
    rfl
  · exact (Mode.tells_gap (m := .free) h).1

theorem follows_lastComma :
    F.Follows n Unclosed (Parser.optional comma) (Parser.optional comma) := by
  refine (follows_opening (by decide)).optional fun _ c q r hc hnone ht hshown => ?_
  rcases Tells.bind (p := char ',') (f := fun _ => gap) ht with ht | ⟨_, e, he, -⟩
  · have := ht.char.2.2
    have := hshown.le
    have := hc.lt
    omega
  · obtain ⟨f, hf⟩ := Mode.exists_skips .free e
    rw [result?_opening.2 ⟨e, (result?_char_eq_some.1 he).2, hf⟩] at hnone
    cases hnone

theorem Trailing.quiet (h : Trailing F c) : F.Quiet Unclosed (Parser.optional comma) c := by
  refine ⟨fun ht => Nat.le_of_eq (tells_lastComma ht), fun hr hd => ?_⟩
  rw [result?_optional] at hr
  cases hr
  exact h _ rfl hd

theorem follows_items (hp : F.Follows n (F.Exit 0) p p') (fp : Forward p')
    (bp : Begins beginsOperand p) : F.Follows n Unclosed (items p) (items p') := by
  have bitem : Begins (· == ',') (do let _ ← comma; p) := begins_comma.bind
  have hp' : F.Follows n Unclosed p p' := hp.mono fun _ h => h.1
  have hothers : F.Follows n (Trailing F) (many (do let _ ← comma; p))
      (many (do let _ ← comma; p')) := by
    refine follows_others ((follows_opening (by decide)).next fun _ => hp')
      (consumes_item hp.tracks.forward) (consumes_item fp) bitem
      fun hw {c d q r} hc ht hshown hr hd => ?_
    obtain ⟨c', hm⟩ := hc.meets
    rcases Tells.bind (p := comma) (f := fun _ => p) ht with ht | ⟨_, e, he, ht⟩
    · exact absurd hd (Nat.not_lt.2 (tight_opening ',' hw hm hr ht hshown))
    · cases hr.symm.trans he
      exact unclosed_of_begins bp hd ht hshown
  have hrest (first : Expr) := hothers.bind (fun others => follows_lastComma.done fun _ =>
    first :: others) fun _ _ _ _ h => h.quiet.map _
  have hlist := hp'.bind hrest fun _ first d hd h =>
    (quiet_many (h.shy_item bitem) hd.lt h.trailing).bind (fun _ _ h => h.quiet.map _)
      fun others => (follows_lastComma (F := F) (n := n) |>.done fun _ =>
        first :: others).tracks.onward
  exact (hlist.optional fun _ _ _ _ hc _ ht hshown =>
    unclosed_of_begins bp.bind hc.lt ht hshown).done fun found => found.getD []

end Levels

end Fork
end BuildScript
