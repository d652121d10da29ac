import BuildScript.Proofs.Expr.Every
import BuildScript.Proofs.Parse.Scan

/-!
The nodes of what was read: each of them stands itself in the text, somewhere between the two ends
of the whole (`Reads.nodes`). What is known of the text of a node is so known of all nodes of a
tree.
-/
namespace BuildScript.Grammar
open BuildScript.Parser Lexeme

def Between (c d : Cursor) (n : Expr) : Prop :=
  ∃ m c' d' v w, Reads m n c' d' ∧ c.Passes v c' ∧ d'.Passes w d

def Within (c d : Cursor) (n : Expr) : Prop :=
  ∃ m c' d' as bs, Scanned c as c' ∧ Reads m n c' d' ∧ Scanned d' bs d

theorem Within.between {n : Expr} {c d : Cursor} (h : Within c d n) : Between c d n := by
  obtain ⟨m, c', d', _, _, hc, hread, hd⟩ := h
  obtain ⟨v, hv⟩ := hc.passes
  obtain ⟨w, hw⟩ := hd.passes
  exact ⟨m, c', d', v, w, hread, hv, hw⟩

theorem Reads.self_within {m : Mode} {n : Expr} {c d : Cursor} (h : Reads m n c d) : Within c d n :=
  ⟨m, c, d, [], [], .refl, h, .refl⟩

theorem every_within {e : Expr} {c c' d' d : Cursor} {as bs : List Comment}
    (h : e.Every (Within c' d')) (hc : Scanned c as c') (hd : Scanned d' bs d) :
    e.Every (Within c d) := by
  intro n hn
  obtain ⟨m, a, b, _, _, ha, hread, hb⟩ := h n hn
  exact ⟨m, a, b, _, _, hc.trans ha, hread, hb.trans hd⟩

mutual
theorem Reads.within {m : Mode} {e : Expr} {c d : Cursor} (h : Reads m e c d) :
    e.Every (Within c d) := by
  match h, h.self_within with
  | .literal _, hself => exact Expr.every_literal.2 hself
  | .string _, hself => exact Expr.every_string.2 hself
  | .ident _, hself => exact Expr.every_ident.2 hself
  | .paren ho hx hg hc, hself =>
    obtain ⟨_, ho⟩ := ho.scanned (by decide)
    obtain ⟨_, hg⟩ := Scanned.gap hg
    exact Expr.every_paren.2 ⟨hself, every_within hx.within ho (hg.trans (.char (by decide) hc))⟩
  | .list ho hx hc, hself =>
    obtain ⟨_, ho⟩ := ho.scanned (by decide)
    exact Expr.every_list.2 ⟨hself, fun x hmem =>
      every_within (hx.within x hmem) ho (.char (by decide) hc)⟩
  | .call hf hg ho hx hc, hself =>
    obtain ⟨_, hf'⟩ := hf.scanned
    obtain ⟨_, hg⟩ := Scanned.gap hg
    obtain ⟨_, ho⟩ := ho.scanned (by decide)
    obtain ⟨_, hx'⟩ := hx.scanned
    have hclose := Scanned.char (by decide) hc
    exact Expr.every_call.2 ⟨hself, every_within hf.within .refl
      (((hg.trans ho).trans hx').trans hclose), fun x hmem =>
        every_within (hx.within x hmem) ((hf'.trans hg).trans ho) hclose⟩
  | .dot hx hg hd hg' hn, hself =>
    obtain ⟨_, hg⟩ := Scanned.gap hg
    obtain ⟨_, hg'⟩ := Scanned.gap hg'
    have hname := ((hg.trans (.char (by decide) hd)).trans hg').trans (.name hn)
    exact Expr.every_dot.2 ⟨hself, every_within hx.within .refl hname⟩
  | .unary hs hg hx, hself =>
    obtain ⟨_, hg⟩ := Scanned.gap hg
    exact Expr.every_unary.2 ⟨hself, every_within hx.within ((Scanned.sign hs).trans hg) .refl⟩
  | .binary hl hg hs hg' hr, hself =>
    obtain ⟨_, hl'⟩ := hl.scanned
    obtain ⟨_, hg⟩ := Scanned.gap hg
    obtain ⟨_, hg'⟩ := Scanned.gap hg'
    obtain ⟨_, hr'⟩ := hr.scanned
    have hsign := (hg.trans (.symbol hs)).trans hg'
    exact Expr.every_binary.2 ⟨hself, every_within hl.within .refl (hsign.trans hr'),
      every_within hr.within (hl'.trans hsign) .refl⟩

theorem ReadsItems.within {xs : List Expr} {c d : Cursor} (h : ReadsItems xs c d) :
    ∀ x ∈ xs, x.Every (Within c d) := by
  match h with
  | .nil => simp
  | .last hx hg =>
    obtain ⟨_, hg⟩ := Scanned.gap hg
    exact List.forall_mem_singleton.2 (every_within hx.within .refl hg)
  | .comma hx hg hc =>
    obtain ⟨_, hg⟩ := Scanned.gap hg
    obtain ⟨_, hc⟩ := hc.scanned (by decide)
    exact List.forall_mem_singleton.2 (every_within hx.within .refl (hg.trans hc))
  | .cons hx hg hc hr =>
    obtain ⟨_, hx'⟩ := hx.scanned
    obtain ⟨_, hg⟩ := Scanned.gap hg
    obtain ⟨_, hc⟩ := hc.scanned (by decide)
    obtain ⟨_, hr'⟩ := hr.scanned
    have hcomma := hg.trans hc
    exact List.forall_mem_cons.2 ⟨every_within hx.within .refl (hcomma.trans hr'),
      fun y hy => every_within (hr.within y hy) (hx'.trans hcomma) .refl⟩
end

theorem Reads.nodes {m : Mode} {e : Expr} {c d : Cursor} (h : Reads m e c d) :
    e.Every (Between c d) :=
  fun n hn => (h.within n hn).between

theorem ReadsItems.nodes {xs : List Expr} {c d : Cursor} (h : ReadsItems xs c d) :
    ∀ x ∈ xs, x.Every (Between c d) :=
  fun x hx n hn => (h.within x hx n hn).between

theorem Between.isLexical {n : Expr} {c d : Cursor} (h : Between c d n) :
    n.shape.isLexical = true := by
  obtain ⟨_, _, _, _, _, hread, -⟩ := h
  cases hread with
  | literal h => exact (result?_number.1 h).1
  | ident h => exact (result?_name.1 h).1
  | dot _ _ _ _ h => exact (result?_name.1 h).1
  | _ => rfl

theorem Reads.lexical {m : Mode} {e : Expr} {c d : Cursor} (h : Reads m e c d) : e.Lexical :=
  fun n hn => (h.nodes n hn).isLexical

theorem ReadsItems.lexical {xs : List Expr} {c d : Cursor} (h : ReadsItems xs c d) :
    ∀ x ∈ xs, x.Lexical :=
  fun x hx n hn => (h.nodes x hx n hn).isLexical

end BuildScript.Grammar
