import BuildScript.Proofs.Json.Reordered
import BuildScript.Proofs.Parse.Places

/-!
The JSON form of a script loses nothing. Each reader gives back what its writer was given, from the
shape of one node to trees and to the script (`Script.ofJson?_toJson`); the depth of the value is
enough for all trees, since every child stands deeper in the value than its parent. The numbers of
a place have 64 bits; what is read from a text that is not longer than this allows has such numbers
(`Script.sized_of_parse`).
-/
namespace BuildScript
namespace Shape
variable {α : Type} {write : α → Json} {child : Json → Option α}

open Json

theorem depth_lt_of_mem_children {s : Shape Json} {x : Json} (h : x ∈ s.children) :
    x.depth < s.toJson.depth := by
  cases s with
  | literal _ | string _ | ident _ => nomatch h
  | list xs =>
    have hx : x.depth < (array xs).depth := depth_lt_of_mem (v := array xs) h
    simp only [toJson, depth, depthFields] at hx ⊢
    omega
  | call f xs =>
    rcases List.mem_cons.1 h with rfl | h
    · simp only [toJson, depth, depthFields]
      omega
    · have hx : x.depth < (array xs).depth := depth_lt_of_mem (v := array xs) h
      simp only [toJson, depth, depthFields] at hx ⊢
      omega
  | load m bs =>
    rcases List.mem_cons.1 h with rfl | h
    · simp only [toJson, depth, depthFields]
      omega
    · obtain ⟨b, hb, hx⟩ := List.mem_flatMap.1 h
      have hbinding := depth_lt_of_mem (v := array (bs.map fun b =>
        object [("from", b.source), ("to", b.target)])) (List.mem_map_of_mem hb)
      simp only [List.mem_cons, List.not_mem_nil, or_false] at hx
      rcases hx with rfl | rfl
      all_goals
        simp only [toJson, depth, depthFields] at hbinding ⊢
        omega
  | _ =>
    simp only [children, List.mem_cons, List.not_mem_nil, or_false] at h
    rcases h with rfl | rfl
    all_goals
      simp only [toJson, depth, depthFields]
      omega

theorem recovers_binding {b : Binding α} (hs : Recovers write child b.source)
    (ht : Recovers write child b.target) :
    Recovers (fun b : Binding α => .object [("from", write b.source), ("to", write b.target)])
      (fun b => do
        let [source, target] ← b.record? [⟨"from", false⟩, ⟨"to", false⟩] | none
        pure ⟨← child source, ← child target⟩) b := by
  intro v hv
  obtain ⟨_, hvalues, -, hread⟩ := hv.record? [⟨"from", false⟩, ⟨"to", false⟩] rfl (by decide)
  obtain _ | ⟨hx, _ | ⟨hy, _ | _⟩⟩ := hvalues
  simp [hread, hs _ hx, ht _ hy]

theorem recovers {s : Shape α} (h : ∀ c ∈ s.children, Recovers write child c) :
    Recovers (fun s => (s.map write).toJson) (Shape.ofJson? child) s := by
  intro v hv
  cases s with
  | literal token =>
    obtain ⟨content, rfl, hcontent⟩ := hv.of_tagged
    obtain ⟨_, hvalues, -, hread⟩ := hcontent.record? [⟨"token", false⟩] rfl (by decide)
    obtain _ | ⟨hx, _ | _⟩ := hvalues
    simp [Shape.ofJson?, hread, recovers_string _ _ hx]
  | string value =>
    obtain ⟨content, rfl, hcontent⟩ := hv.of_tagged
    obtain ⟨_, hvalues, -, hread⟩ := hcontent.record? [⟨"value", false⟩] rfl (by decide)
    obtain _ | ⟨hx, _ | _⟩ := hvalues
    simp [Shape.ofJson?, hread, recovers_string _ _ hx]
  | ident name =>
    obtain ⟨content, rfl, hcontent⟩ := hv.of_tagged
    simp [Shape.ofJson?, recovers_string _ _ hcontent]
  | binary op l r =>
    obtain ⟨content, rfl, hcontent⟩ := hv.of_tagged
    obtain ⟨_, hvalues, hread, -⟩ := hcontent.record?
      [⟨"left", false⟩, ⟨"op", false⟩, ⟨"right", false⟩] rfl (by decide)
    obtain _ | ⟨hl, _ | ⟨hop, _ | ⟨hr, _ | _⟩⟩⟩ := hvalues
    simp only [children, List.forall_mem_cons] at h
    simp [Shape.ofJson?, hread, h.1 _ hl, hop.of_string, variantName?, BinaryOp.ofName?_name,
      h.2.1 _ hr]
  | unary op x =>
    obtain ⟨content, rfl, hcontent⟩ := hv.of_tagged
    obtain ⟨_, hvalues, hread, -⟩ := hcontent.record?
      [⟨"op", false⟩, ⟨"operand", false⟩] rfl (by decide)
    obtain _ | ⟨hop, _ | ⟨hx, _ | _⟩⟩ := hvalues
    simp only [children, List.forall_mem_cons] at h
    simp [Shape.ofJson?, hread, hop.of_string, variantName?, UnaryOp.ofName?_name, h.1 _ hx]
  | paren x =>
    obtain ⟨content, rfl, hcontent⟩ := hv.of_tagged
    simp only [children, List.forall_mem_cons] at h
    simp [Shape.ofJson?, h.1 _ hcontent]
  | list xs =>
    obtain ⟨content, rfl, hcontent⟩ := hv.of_tagged
    simp only [children] at h
    obtain ⟨items, rfl, hitems⟩ := recovers_array h hcontent
    simp [Shape.ofJson?, array?, hitems]
  | call f xs =>
    obtain ⟨content, rfl, hcontent⟩ := hv.of_tagged
    obtain ⟨_, hvalues, hread, -⟩ := hcontent.record?
      [⟨"callee", false⟩, ⟨"args", false⟩] rfl (by decide)
    obtain _ | ⟨hf, _ | ⟨hxs, _ | _⟩⟩ := hvalues
    simp only [children, List.forall_mem_cons] at h
    obtain ⟨items, rfl, hitems⟩ := recovers_array h.2 hxs
    simp [Shape.ofJson?, hread, h.1 _ hf, array?, hitems]
  | dot x name =>
    obtain ⟨content, rfl, hcontent⟩ := hv.of_tagged
    obtain ⟨_, hvalues, hread, -⟩ := hcontent.record?
      [⟨"receiver", false⟩, ⟨"name", false⟩] rfl (by decide)
    obtain _ | ⟨hx, _ | ⟨hname, _ | _⟩⟩ := hvalues
    simp only [children, List.forall_mem_cons] at h
    simp [Shape.ofJson?, hread, h.1 _ hx, recovers_string _ _ hname]
  | load m bs =>
    obtain ⟨content, rfl, hcontent⟩ := hv.of_tagged
    obtain ⟨_, hvalues, -, hread⟩ := hcontent.record?
      [⟨"module", false⟩, ⟨"args", false⟩] rfl (by decide)
    obtain _ | ⟨hm, _ | ⟨hbs, _ | _⟩⟩ := hvalues
    simp only [children, List.forall_mem_cons, List.forall_mem_flatMap, List.not_mem_nil] at h
    have hbindings := fun b hb => recovers_binding (h.2 b hb).1 (h.2 b hb).2.1
    rw [List.map_map] at hbs
    obtain ⟨items, rfl, hitems⟩ := recovers_array hbindings hbs
    simp only [Shape.ofJson?, hread, h.1 _ hm, array?, Option.bind_eq_bind, Option.bind_some]
    exact congrArg (fun r => r.bind fun bs => some (load m bs)) hitems

end Shape

namespace Span

def Sized (s : Span) : Prop :=
  ∀ n ∈ [s.start.line, s.start.column, s.start.offset, s.stop.line, s.stop.column, s.stop.offset],
    n < 0x1_0000_0000_0000_0000

instance (s : Span) : Decidable s.Sized :=
  inferInstanceAs (Decidable (∀ n ∈ [_, _, _, _, _, _], n < _))

theorem LiesIn.sized {text : List Char} {s : Span} (h : s.LiesIn text)
    (hlength : text.length + 1 < 0x1_0000_0000_0000_0000) : s.Sized := by
  have hstart := h.nonempty
  have hstop := h.bounded
  have hline := placeAt_line_le_length text
  have hcolumn := placeAt_column_le_length text
  simp only [Sized, List.forall_mem_cons]
  refine ⟨?_, ?_, by omega, ?_, ?_, by omega, by simp⟩
  · exact h.start_eq ▸ Nat.lt_of_le_of_lt (hline _) hlength
  · exact h.start_eq ▸ Nat.lt_of_le_of_lt (hcolumn _) hlength
  · exact h.stop_eq ▸ Nat.lt_of_le_of_lt (hline _) hlength
  · exact h.stop_eq ▸ Nat.lt_of_le_of_lt (hcolumn _) hlength

theorem place_recovers {line column : Nat} (hl : line < 0x1_0000_0000_0000_0000)
    (hc : column < 0x1_0000_0000_0000_0000) {v : Json}
    (hv : Json.Reordered (.array [.ofNat line, .ofNat column]) v) :
    placeOfJson? v = some (line, column) := by
  cases hv with
  | array items =>
    obtain _ | ⟨hx, _ | ⟨hy, _ | _⟩⟩ := items
    simp [placeOfJson?, Json.array?, Json.recovers_natural hl _ hx, Json.recovers_natural hc _ hy]

theorem recovers {s : Span} (h : s.Sized) : Json.Recovers toJson ofJson? s := by
  intro v hv
  obtain ⟨_, hvalues, -, hread⟩ := hv.record?
    [⟨"from", false⟩, ⟨"to", false⟩, ⟨"char_start", false⟩, ⟨"char_end", false⟩] rfl (by decide)
  obtain _ | ⟨hfrom, _ | ⟨hto, _ | ⟨hfirst, _ | ⟨hlast, _ | _⟩⟩⟩⟩ := hvalues
  simp only [Sized, List.forall_mem_cons] at h
  obtain ⟨hl, hc, ho, hl', hc', ho', -⟩ := h
  simp [ofJson?, hread, place_recovers hl hc hfrom, place_recovers hl' hc' hto,
    Json.recovers_natural ho _ hfirst, Json.recovers_natural ho' _ hlast]

end Span

theorem Comment.recovers {c : Comment} (h : c.span.Sized) : Json.Recovers toJson ofJson? c := by
  intro v hv
  obtain ⟨_, hvalues, -, hread⟩ := hv.record?
    [⟨"span", false⟩, ⟨"content", false⟩] rfl (by decide)
  obtain _ | ⟨hspan, _ | ⟨hcontent, _ | _⟩⟩ := hvalues
  simp [ofJson?, hread, Span.recovers h _ hspan, Json.recovers_string _ _ hcontent]

namespace Expr

def Sized (e : Expr) : Prop := ∀ s ∈ e.span, s.Sized

instance (e : Expr) : Decidable e.Sized := inferInstanceAs (Decidable (∀ s ∈ e.span, s.Sized))

theorem depth_lt_of_mem {e c : Expr} (h : c ∈ e.children) :
    c.toJson.depth + 1 < e.toJson.depth := by
  have hc : c.toJson ∈ (e.shape.map toJson).children := by
    rw [Shape.children_map]
    exact List.mem_map_of_mem h
  have hdepth := Shape.depth_lt_of_mem_children hc
  rw [toJson_eq e]
  simp only [Json.depth, Json.depthFields]
  omega

theorem recovers {e : Expr} (h : e.Every Sized) {height : Nat} (hheight : e.toJson.depth ≤ height) :
    Json.Recovers toJson (ofJson? height) e := by
  induction e using induct generalizing height with
  | step e ih =>
    intro v hv
    obtain ⟨hspan, hbelow⟩ := every_iff.1 h
    cases height with
    | zero =>
      rw [Json.depth_eq] at hheight
      omega
    | succ height =>
      rw [toJson_eq] at hv
      obtain ⟨_, hvalues, -, hread⟩ := hv.record?
        [⟨"span", true⟩, ⟨"expr_ty", false⟩] rfl (by decide)
      obtain _ | ⟨hs, _ | ⟨hshape, _ | _⟩⟩ := hvalues
      have hchildren : ∀ c ∈ e.shape.children, Json.Recovers toJson (ofJson? height) c := by
        intro c hc
        have hdepth := depth_lt_of_mem hc
        exact ih c hc (hbelow c hc) (by omega)
      have hspan : Json.nullable? Span.ofJson? _ = some e.span :=
        Json.recovers_nullable rfl (fun s hs => Span.recovers (hspan s hs)) _ hs
      cases e
      simp [ofJson?, hread, hspan, Shape.recovers hchildren _ hshape]

end Expr

namespace Script

/-- All numbers in the spans of the script fit into the 64 bits that a number of a place has. -/
structure Sized (s : Script) : Prop where
  nodes : ∀ e ∈ s.statements, e.Every Expr.Sized
  comments : ∀ c ∈ s.comments, c.span.Sized

/-- What is read from a text has numbers up to the length of the text. -/
theorem sized_of_parse {source : String} {s : Script} (h : parse source = .ok s)
    (hlength : source.toList.length + 1 < 0x1_0000_0000_0000_0000) : s.Sized where
  nodes e he n hn := by
    obtain ⟨t, ht, hlies, -⟩ := (fits_of_parse h e he n hn).span
    intro span hspan
    cases ht.symm.trans hspan
    exact hlies.sized hlength
  comments c hc := (comments_lieIn h c hc).sized hlength

theorem sized_of_parse_signedName :
    ∃ s, parse "-x # y" = .ok s ∧
      "-x # y".toList.length + 1 < 0x1_0000_0000_0000_0000 ∧ s.Sized := by
  have hparse : parse "-x # y" = .ok
      ⟨none, [⟨some ⟨⟨1, 1, 0⟩, ⟨1, 3, 2⟩⟩,
        .unary .neg ⟨some ⟨⟨1, 2, 1⟩, ⟨1, 3, 2⟩⟩, .ident "x"⟩⟩],
        [⟨⟨⟨1, 4, 3⟩, ⟨1, 7, 6⟩⟩, "# y"⟩]⟩ := by cbv
  exact ⟨_, hparse, by decide, sized_of_parse hparse (by decide)⟩

theorem recovers {s : Script} (h : s.Sized) : Json.Recovers toJson ofJson? s := by
  intro value hvalue
  have hdepth : ∀ e ∈ s.statements, e.toJson.depth ≤ value.depth := by
    intro e he
    have hdepth := Json.depth_lt_of_mem (v := .array (s.statements.map Expr.toJson))
      (List.mem_map_of_mem he)
    rw [hvalue.depth_eq]
    simp only [toJson, Json.depth, Json.depthFields] at hdepth ⊢
    omega
  obtain ⟨_, hvalues, -, hread⟩ := hvalue.record?
    [⟨"path", true⟩, ⟨"stmts", false⟩, ⟨"comments", false⟩] rfl (by decide)
  obtain _ | ⟨hpath, _ | ⟨hstmts, _ | ⟨hnotes, _ | _⟩⟩⟩ := hvalues
  have hpath : Json.nullable? Json.string? _ = some s.path :=
    Json.recovers_nullable rfl (fun path _ => Json.recovers_string path) _ hpath
  obtain ⟨statements, rfl, hstatements⟩ := Json.recovers_array
    (fun e he => Expr.recovers (h.nodes e he) (hdepth e he)) hstmts
  obtain ⟨comments, rfl, hcomments⟩ := Json.recovers_array
    (fun c hc => Comment.recovers (h.comments c hc)) hnotes
  simp [ofJson?, hread, hpath, Json.array?, hstatements, hcomments]

/-- A script is read back from its JSON form, and from every value that has the same fields in
another order. -/
theorem ofJson?_toJson {s : Script} (h : s.Sized) :
    ofJson? s.toJson = some s ∧
      ∀ value, Json.Reordered s.toJson value → ofJson? value = some s :=
  ⟨recovers h _ (.refl _), recovers h⟩

def negation : Script where
  path := some "BUILD"
  statements := [
    ⟨some ⟨⟨1, 1, 0⟩, ⟨1, 3, 2⟩⟩, .unary .neg ⟨some ⟨⟨1, 2, 1⟩, ⟨1, 3, 2⟩⟩, .ident "x"⟩⟩,
    .ofShape (.load (.string ":m") [⟨.ident "a", .ident "b"⟩])]
  comments := [⟨⟨⟨1, 4, 3⟩, ⟨1, 7, 6⟩⟩, "# y"⟩]

theorem ofJson?_toJson_negation :
    negation.Sized ∧ ofJson? negation.toJson = some negation ∧
      ofJson? (.object [
        ("comments", .array (negation.comments.map Comment.toJson)),
        ("path", .string "BUILD"),
        ("stmts", .array (negation.statements.map Expr.toJson))]) = some negation := by
  have hsized : negation.Sized := ⟨by decide, by decide⟩
  obtain ⟨hread, hreordered⟩ := ofJson?_toJson hsized
  refine ⟨hsized, hread, hreordered _ (.object rfl (List.forall₂_same.2 fun x _ => .refl x) ?_)⟩
  exact @List.perm_append_comm _ [("path", _), ("stmts", _)] [("comments", _)]

end Script
end BuildScript
