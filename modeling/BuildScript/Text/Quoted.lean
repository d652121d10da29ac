/-!
String literals as they are written: in double quotes, with the characters that cannot stand between
them verbatim escaped by a backslash.
-/
namespace BuildScript

def quoteChar (c : Char) : List Char :=
  if c = '\\' then ['\\', '\\']
  else if c = '"' then ['\\', '"']
  else if c = '\n' then ['\\', 'n']
  else if c = '\t' then ['\\', 't']
  else if c = '\r' then ['\\', 'r']
  else [c]

def quote (value : List Char) : List Char :=
  ['"'] ++ value.flatMap quoteChar ++ ['"']

/-- The characters that a backslash may stand before in a string, with what the two mean. -/
def escapes : List (Char × Char) :=
  [('\\', '\\'), ('"', '"'), ('\'', '\''), ('n', '\n'), ('t', '\t'), ('r', '\r')]

theorem quoteChar_cases (c : Char) :
    (quoteChar c = [c] ∧ c ≠ '\\' ∧ c ≠ '"' ∧ c ≠ '\n' ∧ c ≠ '\t' ∧ c ≠ '\r') ∨
      ∃ e, (e, c) ∈ escapes ∧ quoteChar c = ['\\', e] := by
  by_cases hc : c ∈ ['\\', '"', '\n', '\t', '\r']
  · right
    simp only [List.mem_cons, List.not_mem_nil, or_false] at hc
    rcases hc with rfl | rfl | rfl | rfl | rfl
    · exact ⟨'\\', by decide, rfl⟩
    · exact ⟨'"', by decide, rfl⟩
    · exact ⟨'n', by decide, rfl⟩
    · exact ⟨'t', by decide, rfl⟩
    · exact ⟨'r', by decide, rfl⟩
  · left
    simp only [List.mem_cons, List.not_mem_nil, or_false, not_or] at hc
    exact ⟨by simp [quoteChar, hc], hc⟩

theorem not_mem_quote {c : Char} (h : c = '\n' ∨ c = '\t' ∨ c = '\r') (value : List Char) :
    c ∉ quote value := by
  have hmarks : c ≠ '"' ∧ c ≠ '\\' := by rcases h with rfl | rfl | rfl <;> decide
  have hescapes : ∀ e ∈ escapes, c ≠ e.1 := by rcases h with rfl | rfl | rfl <;> decide
  have hpiece (x : Char) : c ∉ quoteChar x := by
    rcases quoteChar_cases x with ⟨hx, -, -, hn, ht, hr⟩ | ⟨e, he, hx⟩
    · rw [hx, List.mem_singleton]
      rintro rfl
      rcases h with rfl | rfl | rfl <;> contradiction
    · rw [hx]
      simp [hmarks, hescapes _ he]
  simp [quote, hmarks, hpiece]

end BuildScript
