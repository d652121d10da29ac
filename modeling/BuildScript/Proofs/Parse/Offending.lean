import BuildScript.Parse.Source
import BuildScript.Proofs.Parse.ForkStatements

/-!
The word at which a source is refused. Whatever stands behind it, no text that begins like the
source up to this word is accepted (`parse_refuses_token`). Left out are `and`, `in` and `not`: their
operators read a word to its end before they refuse it, and may so get as far as the failure that
lies behind it.
-/
namespace BuildScript
open BuildScript.Parser Lexeme Grammar

theorem isWordChar_of_nameChar {x : Char} (h : isNameChar x = true) : isWordChar x = true := by
  have hrange {first last : Nat} (hmem : (first, last) ∈ alphanumericRanges)
      (hx : first ≤ x.toNat ∧ x.toNat ≤ last) : isWordChar x = true := by
    rw [isWordChar, isAlphanumeric, Ranges.has_iff.2 ⟨_, hmem, hx⟩, Bool.true_or]
  simp only [isNameChar, Char.isAlphanum, Char.isAlpha, Char.isUpper, Char.isLower, Char.isDigit,
    Bool.or_eq_true, Bool.and_eq_true, decide_eq_true_eq, beq_iff_eq] at h
  rcases h with ((h | h) | h) | rfl
  · exact hrange (.tail _ (.head _)) h
  · exact hrange (.tail _ (.tail _ (.head _))) h
  · exact hrange (.head _) h
  · exact Bool.or_true _

theorem token_cases {text token : List Char} (h : tokenOf? text = some token) :
    token ≠ [] ∧ ∃ rest, text = token ++ rest ∧
      ((∀ x ∈ token, isWordChar x = true) ∧ Stops isWordChar rest ∨
        ∃ x, token = [x] ∧ isWordChar x = false) := by
  cases text with
  | nil => cases h
  | cons c text =>
    obtain rfl := Option.some.inj h
    split
    next hc =>
      refine ⟨List.cons_ne_nil _ _, text.dropWhile isWordChar, ?_, .inl ⟨?_, ?_⟩⟩
      · rw [List.cons_append, List.takeWhile_append_dropWhile]
      · exact List.forall_mem_cons.2 ⟨hc, fun x hx => List.mem_takeWhile_imp hx⟩
      · intro x hx
        have hhead := List.head?_dropWhile_not isWordChar text
        rw [hx] at hhead
        simpa using hhead
    next hc => exact ⟨List.cons_ne_nil _ _, text, rfl, .inr ⟨c, rfl, by simpa using hc⟩⟩

theorem split_at_token {text token : List Char} {p : Nat}
    (h : tokenOf? (text.drop p) = some token) : p = (text.take p).length ∧
      ∃ left, text = text.take p ++ (token ++ left) ∧ tokenOf? (token ++ left) = some token := by
  obtain ⟨hne, left, hleft, -⟩ := token_cases h
  refine ⟨?_, left, ?_, hleft ▸ h⟩
  · have hdrop := congrArg List.length hleft
    have hpos := List.length_pos_iff.2 hne
    rw [List.length_drop, List.length_append] at hdrop
    rw [List.length_take]
    omega
  · rw [← hleft, List.take_append_drop]

theorem not_edges {v u w : List Char} (hu : u ≠ []) (hw : w ≠ [])
    (hus : ∀ x ∈ u, isNameChar x = true) (hws : ∀ x ∈ w, isNameChar x = true) :
    ¬Edges (v ++ u) w := by
  intro h
  have hlast : u.getLast hu ∈ (v ++ u).getLast? := by
    rw [List.getLast?_append_of_ne_nil _ hu]
    exact List.getLast_mem_getLast? hu
  have hstop := h _ hlast (hus _ (List.getLast_mem hu))
  obtain ⟨x, w, rfl⟩ := List.exists_cons_of_ne_nil hw
  rw [stops_cons, hws x (.head _)] at hstop
  cases hstop

theorem eq_of_edges {before token v k : List Char} (h : before ++ token = v ++ k)
    (hne : token ≠ []) (hname : ∀ x ∈ token, isNameChar x = true) (hedges : Edges before token)
    (hk : k ≠ []) (hks : ∀ x ∈ k, isNameChar x = true) (hv : Edges v k) : k = token := by
  rcases List.append_eq_append_iff.1 h with ⟨u, rfl, rfl⟩ | ⟨u, rfl, rfl⟩
  · rcases eq_or_ne u [] with rfl | hu
    · rfl
    · exact absurd hv (not_edges hu hk (fun x hx => hname x (List.mem_append_left _ hx)) hks)
  · rcases eq_or_ne u [] with rfl | hu
    · rfl
    · exact absurd hedges (not_edges hu hne (fun x hx => hks x (List.mem_append_left _ hx)) hname)

theorem names_of_word {w : String} (h : isWord w = true) :
    w.toList ≠ [] ∧ ∀ x ∈ w.toList, isNameChar x = true := by
  obtain ⟨c, cs, hw, hc, hcs⟩ := isWord_iff.1 h
  rw [hw]
  exact ⟨List.cons_ne_nil c cs, List.forall_mem_cons.2 ⟨isNameChar_of_start hc, hcs⟩⟩

section Token
variable {token rest : List Char}

theorem stops_of_token (h : tokenOf? (token ++ rest) = some token) {x : Char} (hx : x ∈ token)
    (hname : isNameChar x = true) : Stops isWordChar rest := by
  obtain ⟨-, rest', hrest, hcases⟩ := token_cases h
  obtain rfl := List.append_cancel_left hrest
  rcases hcases with ⟨-, hstop⟩ | ⟨y, rfl, hy⟩
  · exact hstop
  · obtain rfl := List.mem_singleton.1 hx
    rw [isWordChar_of_nameChar hname] at hy
    cases hy

theorem length_lt_of_token (h : tokenOf? (token ++ rest) = some token) {w : String}
    (hw : isWord w = true) {behind : List Char} (hsplit : token ++ rest = w.toList ++ behind)
    (hne : w.toList ≠ token) : w.toList.length < token.length := by
  obtain ⟨-, hnames⟩ := names_of_word hw
  rcases List.append_eq_append_iff.1 hsplit with ⟨u, hu, rfl⟩ | ⟨u, rfl, -⟩
  · obtain ⟨x, hx⟩ := List.exists_mem_of_ne_nil token (token_cases h).1
    have hstop := stops_of_token h hx (hnames x (hu ▸ List.mem_append_left u hx))
    cases u with
    | nil => exact absurd (hu.trans (List.append_nil token)) hne
    | cons y u =>
      have hy := hnames y (hu ▸ List.mem_append_right token (.head u))
      rw [List.cons_append, stops_cons, isWordChar_of_nameChar hy] at hstop
      cases hstop
  · have hu : u ≠ [] := fun h => hne (by rw [h, List.append_nil])
    rw [List.length_append]
    exact Nat.lt_add_of_pos_right (List.length_pos_iff.2 hu)

end Token

namespace Fork
variable {before token left right : List Char} {q : Position} {r : Nat}

theorem place_le_nestingBound (F : Fork) (rest : List Char) :
    F.place ≤ nestingBound (F.before ++ rest) + 1 := by
  rw [nestingBound, List.length_append, place]
  omega

theorem exists_of_lt (hr : r < (before ++ token).length) :
    ∃ F : Fork, F.before = before ++ token ∧ F.left = left ∧ F.right = right ∧ ¬ F.Shown q r := by
  refine ⟨⟨before ++ token, left, right, false, nofun, nofun, nofun, nofun⟩, rfl, rfl, rfl, ?_⟩
  intro h
  exact absurd h.le (Nat.not_le_of_lt hr)

/-- Where a word was refused at its beginning, read to its end and no further, the texts may part
behind it. -/
theorem exists_of_word {w : String} (hw : isWord w = true) (hedges : Edges before w.toList)
    (hkeyword : w.toList ∉ ["and".toList, "in".toList, "not".toList])
    (hleft : tokenOf? (w.toList ++ left) = some w.toList)
    (hright : tokenOf? (w.toList ++ right) = some w.toList) (hq : q.offset = before.length)
    (hr : r = before.length + w.toList.length) : ∃ F : Fork, F.before = before ++ w.toList ∧
      F.left = left ∧ F.right = right ∧ ¬ F.Shown q r := by
  obtain ⟨hne, hnames⟩ := names_of_word hw
  have hstops {rest : List Char} (h : tokenOf? (w.toList ++ rest) = some w.toList) :
      Stops isNameChar rest :=
    (stops_of_token h (List.getLast_mem hne) (hnames _ (List.getLast_mem hne))).mono
      fun _ => isWordChar_of_nameChar
  refine ⟨⟨before ++ w.toList, left, right, true, fun _ => hstops hleft, fun _ => hstops hright,
    fun _ => ?_, fun _ v k hvk hk hkey => ?_⟩, rfl, rfl, rfl, ?_⟩
  · refine ⟨w.toList.getLast hne, ?_, hnames _ (List.getLast_mem hne)⟩
    rw [List.getLast?_append_of_ne_nil _ hne]
    exact List.getLast_mem_getLast? hne
  · have ⟨hknil, hknames⟩ : k ≠ [] ∧ ∀ x ∈ k, isNameChar x = true := by
      simp only [List.mem_cons, List.not_mem_nil, or_false] at hkey
      rcases hkey with rfl | rfl | rfl <;> exact names_of_word (by decide)
    exact hkeyword (eq_of_edges hvk hne hnames hedges hknil hknames hk ▸ hkey)
  · have hlength := List.length_pos_iff.2 hne
    rintro (hlt | ⟨-, hplace⟩)
    · rw [hr, place, List.length_append] at hlt
      exact Nat.lt_irrefl _ hlt
    · have := hplace rfl
      rw [hq, place, List.length_append] at this
      omega

end Fork

theorem exists_fork {before token left right : List Char} {q : Position} {r : Nat}
    (h : Lies (.ofText (before ++ (token ++ left))) q r) (hq : q.offset = before.length)
    (hleft : tokenOf? (token ++ left) = some token)
    (hright : tokenOf? (token ++ right) = some token)
    (hkeyword : token ∉ ["and".toList, "in".toList, "not".toList]) :
    ∃ F : Fork, F.before = before ++ token ∧ F.left = left ∧ F.right = right ∧ ¬ F.Shown q r := by
  obtain ⟨v, b, hv, rfl, hr⟩ := h
  rw [hv.2, Cursor.ofText, Fork.offset_start_after] at hq
  obtain ⟨rfl, hb⟩ := List.append_inj hv.1 hq.symm
  have hplace : b.position.offset = before.length := by
    rw [hv.2, Cursor.ofText, Fork.offset_start_after]
  rcases hr with rfl | ⟨hedges, w, d, hw, rfl⟩
  · refine Fork.exists_of_lt ?_
    rw [List.length_append, hplace]
    exact Nat.lt_add_of_pos_right (List.length_pos_iff.2 (token_cases hleft).1)
  obtain ⟨hword, hpass, -⟩ := result?_word.1 hw
  have hend : d.position.offset = before.length + w.toList.length := by
    rw [hpass.offset_eq, hplace]
  by_cases heq : w.toList = token
  · -- The word is refused at its end, where the texts part.
    subst heq
    have hedges' : Edges before w.toList := by
      intro x hx hname y hy
      refine hedges x hx hname y ?_
      rw [← hb, Option.mem_def, List.head?_append, hy]
      rfl
    exact Fork.exists_of_word hword hedges' hkeyword hleft hright hplace hend
  · refine Fork.exists_of_lt ?_
    rw [hend, List.length_append]
    exact Nat.add_lt_add_left (length_lt_of_token hleft hword (hb.trans hpass.1) heq) _

namespace Script
variable {source : String}

theorem exists_failure_of_parse {d : Diagnostic ParseError} (h : parse source = .error d) :
    ∃ f, Grammar.statements (nestingBound source.toList) (.ofText source.toList) = .failure f ∧
      d = f.diagnostic source.toList := by
  unfold parse Parser.run at h
  dsimp only at h
  cases hreply : Grammar.statements (nestingBound source.toList) (.ofText source.toList) with
  | success es c met =>
    rw [hreply] at h
    cases h
  | failure f =>
    rw [hreply] at h
    exact ⟨f, rfl, (Except.error.inj h).symm⟩

theorem result?_of_parse {s : Script} (h : parse source = .ok s) : ∃ d,
    result? (Grammar.statements (nestingBound source.toList)) (.ofText source.toList) =
      some (s.statements, d) := by
  obtain ⟨-, -, c, d, hskip, hread⟩ := parse_eq_ok.1 h
  have hb : (Cursor.ofText source.toList).rest.length ≤ nestingBound source.toList + 1 := by
    show source.toList.length ≤ source.toList.length + 1 + 1
    omega
  exact ⟨d, (result?_statements hb).2 ⟨c, hskip, hread⟩⟩

/-- Whatever stands behind the token at which a source was refused, the text is refused. -/
theorem parse_refuses_token {d : Diagnostic ParseError} (h : parse source = .error d) {s : Span}
    (hspan : d.span = some s) {token : List Char}
    (htoken : tokenOf? (source.toList.drop s.start.offset) = some token)
    (hkeyword : token ∉ ["and".toList, "in".toList, "not".toList]) {rest : List Char}
    (hrest : tokenOf? (token ++ rest) = some token) :
    ∃ d', parse (String.ofList (source.toList.take s.start.offset ++ token ++ rest)) =
      .error d' := by
  obtain ⟨f, hf, rfl⟩ := exists_failure_of_parse h
  obtain rfl : f.span = s := Option.some.inj hspan
  obtain ⟨hlength, left, htext, hleft⟩ := split_at_token htoken
  have hne := (token_cases hleft).1
  generalize source.toList.take f.span.start.offset = before at *
  have hlies := (tracks_statements _).lies (tells_of_failure hf)
  rw [htext] at hlies hf
  obtain ⟨F, hbefore, rfl, rfl, hshown⟩ := exists_fork hlies hlength hleft hrest hkeyword
  have hnone : result? (Grammar.statements (nestingBound (F.before ++ F.right)))
      (.ofText (F.before ++ F.right)) = none := by
    rw [← List.append_assoc, ← hbefore] at hf
    have hbefore_ne : F.before ≠ [] := hbefore ▸ fun h => hne (List.append_eq_nil_iff.1 h).2
    exact Fork.statements_none hbefore_ne (F.place_le_nestingBound _) (F.place_le_nestingBound _) hf
      hshown
  cases hparse : parse (String.ofList (before ++ token ++ F.right)) with
  | error d' => exact ⟨d', rfl⟩
  | ok t =>
    obtain ⟨c, hresult⟩ := result?_of_parse hparse
    rw [String.toList_ofList, ← hbefore, hnone] at hresult
    cases hresult

set_option maxRecDepth 4000 in
/-- The second word in a list without a comma is refused, also where the list goes on with one. -/
theorem parse_refuses_token_missingComma :
    (∃ labels, parse "[a b]" =
      .error ⟨.unexpected [] (some ['b']), some ⟨⟨1, 4, 3⟩, ⟨1, 5, 4⟩⟩, none, labels⟩) ∧
    tokenOf? (['b'] ++ ", c]".toList) = some ['b'] ∧ ∃ d, parse "[a b, c]" = .error d := by
  let place : Span := ⟨⟨1, 4, 3⟩, ⟨1, 5, 4⟩⟩
  have hparse : parse "[a b]" =
      .error ⟨.unexpected [] (some ['b']), some place, none, [(place, "Here")]⟩ := by cbv
  have hrest : tokenOf? (['b'] ++ ", c]".toList) = some ['b'] := by decide
  have hrefused := parse_refuses_token hparse rfl (by decide) (by decide) hrest
  exact ⟨⟨_, hparse⟩, hrest, hrefused⟩

set_option maxRecDepth 4000 in
/-- `in` gets the blame here for the failure behind it, and may well stand where it does. -/
theorem keyword_blamed :
    (∃ labels, parse "a in)" =
      .error ⟨.keyword "in", some ⟨⟨1, 3, 2⟩, ⟨1, 5, 4⟩⟩, none, labels⟩) ∧
    (parse "a in b").isOk :=
  ⟨⟨[(⟨⟨1, 3, 2⟩, ⟨1, 5, 4⟩⟩, "Here")], by cbv⟩, by cbv⟩

end Script
end BuildScript
