import BuildScript.Proofs.Parse.Word

/-!
Strings: what stands between two quotes spells a value, and the parser takes a string exactly where
some spelling stands (`result?_string`). The quoted form that is printed is one of the spellings, so
reading takes back what quoting did (`string_requoted`).
-/
namespace BuildScript.Lexeme
open BuildScript.Parser

/-- Between two quotes `q`, the text spells the value: a character by itself, or behind a backslash
the one that stands for it. -/
inductive Spells (q : Char) : List Char → List Char → Prop
  | nil : Spells q [] []
  | plain {x : Char} {w v : List Char} (hq : x ≠ q) (hb : x ≠ '\\') (hn : x ≠ '\n')
      (h : Spells q w v) : Spells q (x :: w) (x :: v)
  | escaped {e x : Char} {w v : List Char} (he : (e, x) ∈ escapes)
      (h : Spells q w v) : Spells q ('\\' :: e :: w) (x :: v)

theorem result?_escape {c d : Cursor} {x : Char} :
    result? escape c = some (x, d) ↔ ∃ e, (e, x) ∈ escapes ∧ c.Passes ['\\', e] d := by
  unfold escape
  rw [result?_bind, Option.bind_eq_some_iff]
  constructor
  · rintro ⟨⟨b, c₁⟩, hb, h⟩
    obtain ⟨rfl, hpass⟩ := result?_char_eq_some.1 hb
    rw [result?_choice] at h
    obtain ⟨p, hp, h⟩ := List.exists_of_findSome?_eq_some h
    obtain ⟨⟨e, y⟩, he, rfl⟩ := List.mem_map.1 hp
    rw [result?_bind, Option.bind_eq_some_iff] at h
    obtain ⟨⟨z, c₂⟩, hz, h⟩ := h
    cases h
    obtain ⟨rfl, hnext⟩ := result?_char_eq_some.1 hz
    exact ⟨z, he, hpass.trans hnext⟩
  · rintro ⟨e, he, hpass⟩
    obtain ⟨p, rest, rfl, rfl⟩ := hpass.split
    refine ⟨('\\', ⟨p.next '\\', e :: rest⟩), result?_char_cons _ _ _, ?_⟩
    rw [result?_choice]
    -- No character is escaped in two ways, so the first entry that fits is the only one.
    simp only [escapes, List.mem_cons, Prod.mk.injEq, List.not_mem_nil, or_false] at he
    rcases he with ⟨rfl, rfl⟩ | ⟨rfl, rfl⟩ | ⟨rfl, rfl⟩ | ⟨rfl, rfl⟩ | ⟨rfl, rfl⟩ | ⟨rfl, rfl⟩ <;>
      rfl

theorem result?_piece {q : Char} {c d : Cursor} {x : Char} :
    result? (charWhere (fun c => c != q && c != '\\' && c != '\n') <|> escape) c = some (x, d) ↔
      (x ≠ q ∧ x ≠ '\\' ∧ x ≠ '\n' ∧ c.Passes [x] d) ∨
        ∃ e, (e, x) ∈ escapes ∧ c.Passes ['\\', e] d := by
  rw [result?_orElse, Option.or_eq_some_iff, result?_escape, result?_charWhere_eq_some]
  simp only [Bool.and_eq_true, bne_iff_ne, ne_eq, and_assoc]
  -- Where a backslash stands, no character stands for itself.
  refine or_congr_right ⟨And.right, fun h => ⟨result?_charWhere_eq_none.2 ?_, h⟩⟩
  obtain ⟨e, -, hpass⟩ := h
  rw [hpass.1, List.cons_append, stops_cons]
  simp

theorem consumes_piece (q : Char) :
    Consumes (charWhere (fun c => c != q && c != '\\' && c != '\n') <|> escape) := by
  intro c x d h
  rcases result?_piece.1 h with ⟨-, -, -, h⟩ | ⟨e, -, h⟩
  · exact h.length_lt
  · exact h.length_lt

theorem Spells.run {q : Char} (hq : q ≠ '\\') {w v : List Char} (h : Spells q w v) (p : Position)
    (rest : List Char) :
    Run (charWhere (fun c => c != q && c != '\\' && c != '\n') <|> escape)
      ⟨p, w ++ q :: rest⟩ v ⟨p.after w, q :: rest⟩ := by
  induction h generalizing p with
  | nil =>
    refine .stop (result?_eq_none fun x d h => ?_)
    rcases result?_piece.1 h with ⟨hx, -, -, h⟩ | ⟨e, -, h⟩
    · exact hx (List.cons.inj h.1).1.symm
    · exact hq (List.cons.inj h.1).1
  | plain hx hb hn h ih =>
    exact .step (result?_piece.2 (.inl ⟨hx, hb, hn, rfl, rfl⟩)) (ih _)
  | escaped he h ih =>
    exact .step (result?_piece.2 (.inr ⟨_, he, rfl, rfl⟩)) (ih _)

theorem exists_spells_of_run {q : Char} {c d : Cursor} {v : List Char}
    (h : Run (charWhere (fun c => c != q && c != '\\' && c != '\n') <|> escape) c v d) :
    ∃ w, Spells q w v ∧ c.Passes w d := by
  induction h with
  | @stop c h => exact ⟨[], .nil, .refl c⟩
  | step h rest ih =>
    obtain ⟨w, hw, hpass⟩ := ih
    rcases result?_piece.1 h with ⟨hx, hb, hn, h⟩ | ⟨e, he, h⟩
    · exact ⟨_, .plain hx hb hn hw, h.trans hpass⟩
    · exact ⟨_, .escaped he hw, h.trans hpass⟩

theorem result?_quotedBy {q : Char} (hq : q ≠ '\\') {c d : Cursor} {v : List Char} :
    result? (quotedBy q) c = some (v, d) ↔
      ∃ w, Spells q w v ∧ c.Passes (q :: w ++ [q]) d := by
  unfold quotedBy
  rw [result?_bind, Option.bind_eq_some_iff]
  constructor
  · rintro ⟨⟨x, c₁⟩, hx, h⟩
    rw [result?_bind, Option.bind_eq_some_iff] at h
    obtain ⟨⟨cs, c₂⟩, hcs, h⟩ := h
    rw [result?_bind, Option.bind_eq_some_iff] at h
    obtain ⟨⟨y, c₃⟩, hy, h⟩ := h
    cases h
    obtain ⟨rfl, hx⟩ := result?_char_eq_some.1 hx
    obtain ⟨rfl, hy⟩ := result?_char_eq_some.1 hy
    obtain ⟨w, hw, hpass⟩ :=
      exists_spells_of_run ((result?_many_eq_some (consumes_piece _)).1 hcs)
    exact ⟨w, hw, (hx.trans hpass).trans hy⟩
  · rintro ⟨w, hw, hpass⟩
    obtain ⟨p, rest, rfl, rfl⟩ := hpass.split
    refine ⟨(q, ⟨p.next q, w ++ q :: rest⟩), ?_, ?_⟩
    · simpa using result?_char_cons q p (w ++ q :: rest)
    rw [result?_bind, (result?_many_eq_some (consumes_piece q)).2 (hw.run hq _ rest),
      Option.bind_some, result?_bind, result?_char_cons]
    simp [Position.after_append]

theorem result?_string {c d : Cursor} {v : String} : result? string c = some (v, d) ↔
    ∃ q w, (q = '"' ∨ q = '\'') ∧ Spells q w v.toList ∧ c.Passes (q :: w ++ [q]) d := by
  unfold string
  rw [result?_about, result?_map, Option.map_eq_some_iff]
  simp only [result?_orElse, Option.or_eq_some_iff]
  constructor
  · rintro ⟨⟨cs, e⟩, h | ⟨-, h⟩, heq⟩
    all_goals
      cases heq
      obtain ⟨w, hw, hpass⟩ := (result?_quotedBy (by decide)).1 h
      exact ⟨_, w, by simp, by simpa using hw, hpass⟩
  · rintro ⟨q, w, rfl | rfl, hw, hpass⟩
    · exact ⟨(v.toList, d), .inl ((result?_quotedBy (by decide)).2 ⟨w, hw, hpass⟩), by simp⟩
    · refine ⟨(v.toList, d), .inr ⟨?_, (result?_quotedBy (by decide)).2 ⟨w, hw, hpass⟩⟩, by simp⟩
      refine result?_eq_none fun u e h => ?_
      obtain ⟨w', -, hpass'⟩ := (result?_quotedBy (by decide)).1 h
      exact absurd (hpass.head_eq hpass') (by decide)

theorem Spells.quoteChar {w v : List Char} (h : Spells '"' w v) (x : Char) :
    Spells '"' (quoteChar x ++ w) (x :: v) := by
  rcases quoteChar_cases x with ⟨hx, hb, hq, hn, -, -⟩ | ⟨e, he, hx⟩
  · rw [hx]
    exact .plain hq hb hn h
  · rw [hx]
    exact .escaped he h

theorem spells_quote (v : List Char) : Spells '"' (v.flatMap quoteChar) v := by
  induction v with
  | nil => exact .nil
  | cons x v ih => exact ih.quoteChar x

theorem result?_string_quote (v : String) (p : Position) (rest : List Char) :
    result? string ⟨p, quote v.toList ++ rest⟩ =
      some (v, ⟨p.after (quote v.toList), rest⟩) :=
  result?_string.2 ⟨'"', v.toList.flatMap quoteChar, .inl rfl, spells_quote v.toList, rfl, rfl⟩

theorem result?_string_of_stops {c : Cursor}
    (h : Stops (fun x => x == '"' || x == '\'') c.rest) : result? string c = none := by
  refine result?_of_stops h fun v d hv => ?_
  obtain ⟨q, w, hq, -, hpass⟩ := result?_string.1 hv
  exact ⟨q, w ++ [q], d, by simpa using hq, hpass⟩

/-- Reading takes back what quoting did, whatever follows: neither does an escaped quotation mark end
the string, nor does the string go on behind its end. Hence a string that was read, in quotation marks
of either kind and with any escapes, may have its value quoted anew in its place. -/
theorem string_requoted (v : String) :
    ('\n' ∉ quote v.toList ∧ '\t' ∉ quote v.toList ∧ '\r' ∉ quote v.toList) ∧
    (∀ (p : Position) (rest : List Char), result? string ⟨p, quote v.toList ++ rest⟩ =
      some (v, ⟨p.after (quote v.toList), rest⟩)) ∧
    ∀ c d : Cursor, result? string c = some (v, d) →
      (∃ q w, (q = '"' ∨ q = '\'') ∧ Spells q w v.toList ∧ c.Passes (q :: w ++ [q]) d) ∧
      result? string ⟨c.position, quote v.toList ++ d.rest⟩ =
        some (v, ⟨c.position.after (quote v.toList), d.rest⟩) := by
  refine ⟨⟨?_, ?_, ?_⟩, result?_string_quote v, fun c d h => ⟨result?_string.1 h, ?_⟩⟩
  · exact not_mem_quote (.inl rfl) v.toList
  · exact not_mem_quote (.inr (.inl rfl)) v.toList
  · exact not_mem_quote (.inr (.inr rfl)) v.toList
  · exact result?_string_quote v c.position d.rest

/-- In single quotes a double one and a tab may stand as they are, and a single one is escaped. -/
theorem string_requoted_singleQuotes :
    result? string ⟨.start, "'\"\t\\'\\n' + x".toList⟩ =
      some ("\"\t'\n", ⟨⟨1, 9, 8⟩, " + x".toList⟩) ∧
    result? string ⟨.start, "\"\\\"\\t'\\n\" + x".toList⟩ =
      some ("\"\t'\n", ⟨⟨1, 10, 9⟩, " + x".toList⟩) := by
  have h : result? string ⟨.start, "'\"\t\\'\\n' + x".toList⟩ =
      some ("\"\t'\n", ⟨⟨1, 9, 8⟩, " + x".toList⟩) := by cbv
  exact ⟨h, ((string_requoted "\"\t'\n").2.2 _ _ h).2⟩

end BuildScript.Lexeme
