import BuildScript.Proofs.Expr.Refused
import BuildScript.Proofs.Expr.Stripping

/-!
Edits that come to an end. An edit goes on with the children of what it was told, so it can go on for
ever; but if no answer is larger than what was offered, the nodes that are still to be offered get
fewer with every call. So there are no more calls than nodes, and no more nodes in the end
(`edit_terminates`).
-/
namespace BuildScript
variable {σ ε α β : Type}

inductive Reaches (offer : Callback σ ε) (s : σ) : σ → Prop where
  | here : Reaches offer s s
  | next {t t' : σ} {node : Expr} {above : List Expr} {answer : Option Expr}
      (before : Reaches offer s t) (call : (offer node above).run.run t = (.ok answer, t')) :
      Reaches offer s t'

/-- Started in `s`, the callback never answers with more nodes than it was offered. -/
def NeverGrows (offer : Callback σ ε) (s : σ) : Prop :=
  ∀ t node above x t', Reaches offer s t →
    (offer node above).run.run t = (.ok (some x), t') → x.size ≤ node.size

/-- From every state that the callback can come to, `p` makes no more than `k` calls, and then it
has been refused or has a result as described. -/
def Halts (offer : Callback σ ε) (s : σ) (p : EditM (σ × List (Call ε)) ε α) (k : Nat)
    (result : α → Prop) : Prop :=
  ∀ t calls, Reaches offer s t → ∃ reply t' more,
    p.run.run (t, calls) = (reply, t', calls ++ more) ∧ more.length ≤ k ∧
      ((∃ x, reply = .ok x ∧ result x ∧ Reaches offer s t') ∨
        ∃ error, reply = .error (.refused error))

namespace Halts
variable {offer : Callback σ ε} {s : σ} {p : EditM (σ × List (Call ε)) ε α} {j k : Nat}
  {P : α → Prop} {Q : β → Prop}

theorem pure {x : α} (h : P x) : Halts offer s (Pure.pure x) 0 P :=
  fun t calls ht => ⟨.ok x, t, [], by rw [List.append_nil]; rfl, Nat.le_refl 0,
    .inl ⟨x, rfl, h, ht⟩⟩

theorem imp {P' : α → Prop} (h : Halts offer s p j P) (hle : j ≤ k) (himp : ∀ x, P x → P' x) :
    Halts offer s p k P' := by
  intro t calls ht
  obtain ⟨reply, t', more, hrun, hmore, hreply⟩ := h t calls ht
  refine ⟨reply, t', more, hrun, Nat.le_trans hmore hle, hreply.imp_left ?_⟩
  rintro ⟨x, rfl, hx, ht'⟩
  exact ⟨x, rfl, himp x hx, ht'⟩

theorem bind {f : α → EditM (σ × List (Call ε)) ε β} (hp : Halts offer s p j P)
    (hf : ∀ x, P x → Halts offer s (f x) k Q) : Halts offer s (p >>= f) (j + k) Q := by
  intro t calls ht
  obtain ⟨reply, t₁, more, hrun, hmore, hreply⟩ := hp t calls ht
  rw [ExceptT.run_bind, StateT.run_bind, hrun]
  rcases hreply with ⟨x, rfl, hx, ht₁⟩ | ⟨error, rfl⟩
  · obtain ⟨reply, t', rest, hrun, hrest, hreply⟩ := hf x hx t₁ (calls ++ more) ht₁
    refine ⟨reply, t', more ++ rest, ?_, ?_, hreply⟩
    · rw [← List.append_assoc]
      exact hrun
    · rw [List.length_append]
      exact Nat.add_le_add hmore hrest
  · exact ⟨_, t₁, more, rfl, Nat.le_trans hmore (Nat.le_add_right j k), .inr ⟨error, rfl⟩⟩

theorem map {f : α → β} (hp : Halts offer s p k fun x => Q (f x)) :
    Halts offer s (f <$> p) k Q :=
  bind_pure_comp f p ▸ hp.bind fun _ hx => pure hx

end Halts

namespace Expr

theorem sum_set {ns : List Nat} {i k : Nat} (h : ns[i]? = some k) (n : Nat) :
    (ns.set i n).sum + k = ns.sum + n := by
  induction ns generalizing i with
  | nil => cases h
  | cons m ns ih =>
    cases i with
    | zero =>
      obtain rfl : m = k := Option.some.inj h
      simp only [List.set_cons_zero, List.sum_cons]
      omega
    | succ i =>
      have := ih h
      simp only [List.set_cons_succ, List.sum_cons]
      omega

theorem size_withChild {e c : Expr} {i : Nat} (h : e.child? i = some c) (y : Expr) :
    (e.withChild i y).size + c.size = e.size + y.size := by
  rw [child?, Shape.child?_eq] at h
  have hset : (e.withChild i y).children = e.children.set i y := by
    rw [children, withChild, Shape.children_mapIdx,
      ← Shape.set_eq_mapIdx (f := fun _ => y) h rfl]
    rfl
  have hsize : (e.children.map size)[i]? = some c.size := by
    rw [List.getElem?_map, children, h, Option.map_some]
  have hsum := sum_set hsize y.size
  rw [← List.map_set, ← hset] at hsum
  rw [size_eq, size_eq e]
  show (((e.withChild i y).children.map size).sum + 1) + c.size =
    ((e.children.map size).sum + 1) + y.size
  omega

section Shrinking
variable {offer : Callback σ ε} {s : σ}

theorem halts_offered (h : NeverGrows offer s) (above : List Expr) (e : Expr) :
    Halts offer s (offered (logged offer) above e) 1 fun x => x.size ≤ e.size := by
  refine Halts.map fun t calls ht => ?_
  rw [run_adapt, run_logged]
  rcases hcall : (offer e above).run.run t with ⟨error | answer, t'⟩
  · exact ⟨_, t', _, rfl, Nat.le_refl 1, .inr ⟨error, rfl⟩⟩
  · refine ⟨_, t', _, rfl, Nat.le_refl 1, .inl ⟨answer, rfl, ?_, ht.next hcall⟩⟩
    cases answer with
    | none => exact Nat.le_refl _
    | some x => exact h t e above x t' ht hcall

def sizeIn (e : Expr) (is : List Nat) : Nat := (is.map fun i => (e.child? i).elim 0 size).sum

theorem sizeIn_range (e : Expr) : e.sizeIn (List.range e.childCount) + 1 = e.size := by
  rw [sizeIn, map_range_child?, size_eq]
  rfl

/-- Slots that are edited one after the other take a call for each node in them at most, if each of
them does. -/
theorem halts_slots {go : (Expr → List Expr) → Expr → EditM (σ × List (Call ε)) ε Expr} {n : Nat}
    (hgo : ∀ c, c.size < n → ∀ above, Halts offer s (go above c) c.size fun x => x.size ≤ c.size)
    (above : Expr → List Expr) {is : List Nat} (hnodup : is.Nodup) {e : Expr} (hsize : e.size ≤ n)
    (hcount : ∀ i ∈ is, i < e.childCount) :
    Halts offer s (is.foldlM (inSlot go above) e) (e.sizeIn is) fun x => x.size ≤ e.size := by
  induction is generalizing e with
  | nil => exact .pure (Nat.le_refl _)
  | cons i is ih =>
    obtain ⟨hnot, hnodup⟩ := List.nodup_cons.1 hnodup
    obtain ⟨hi, his⟩ := List.forall_mem_cons.1 hcount
    obtain ⟨c, hc⟩ := Option.isSome_iff_exists.1 (child?_isSome.2 hi)
    have hlt := size_lt_of_mem (Shape.mem_children.2 ⟨i, hc⟩)
    have hslot : Halts offer s (inSlot go above e i) c.size
        fun x => ∃ y, x = e.withChild i y ∧ y.size ≤ c.size := by
      unfold inSlot
      rw [Shape.slot?_eq, show e.shape.child? i = some c from hc]
      exact Halts.map ((hgo c (by omega) _).imp (Nat.le_refl _) fun y hy => ⟨y, rfl, hy⟩)
    have hsum : e.sizeIn (i :: is) = c.size + e.sizeIn is := by
      rw [sizeIn, List.map_cons, List.sum_cons, hc]
      rfl
    rw [List.foldlM_cons, hsum]
    refine hslot.bind ?_
    rintro _ ⟨y, rfl, hy⟩
    have hwith := size_withChild hc y
    -- The slots that are still to come are as they were.
    have hothers : (e.withChild i y).sizeIn is = e.sizeIn is := by
      refine congrArg List.sum (List.map_congr_left fun j hj => ?_)
      have hne : j ≠ i := fun hji => hnot (hji ▸ hj)
      rw [child?_withChild_of_ne hne]
    have hrest := ih hnodup (e := e.withChild i y) (by omega) fun j hj =>
      Nat.lt_of_lt_of_eq (his j hj) (childCount_withChild e i y).symm
    exact hrest.imp (Nat.le_of_eq hothers) fun x hx => by omega

theorem halts_rewrite (h : NeverGrows offer s) {depth : Nat} {e : Expr} (hdepth : e.size ≤ depth)
    (above : Expr → List Expr) : Halts offer s (rewrite (logged offer) depth above e) e.size
      fun x => x.size ≤ e.size := by
  induction depth generalizing e above with
  | zero =>
    rw [size_eq] at hdepth
    omega
  | succ depth ih =>
    -- The call about the node itself, and then those about what stands below it.
    have hpos := size_eq e
    rw [rewrite, show e.size = 1 + (e.size - 1) by omega]
    refine (halts_offered h (above e) e).bind fun x hx => ?_
    have hbelow := x.sizeIn_range
    refine (halts_slots (n := depth + 1) (fun c hc above => ih (by omega) above) above
      List.nodup_range (by omega) fun i hi => List.mem_range.1 hi).imp (by omega) fun y hy => ?_
    omega

end Shrinking

/-- An edit that answers nothing larger than what it was offered comes to an end, however deep it
may go: it is refused, or it gives a tree with no more nodes than there were. It makes no more calls
than the tree had nodes. -/
theorem edit_terminates (offer : Callback σ ε) (s : σ) (h : NeverGrows offer s) (root : Expr) :
    ∃ calls reply s', calls.length ≤ root.size ∧
      (∀ depth, root.size ≤ depth →
        (edit offer depth root).run.run s = (reply, s') ∧
        (edit (logged offer) depth root).run.run (s, []) = (reply, s', calls)) ∧
      ((∃ root', reply = .ok root' ∧ root'.size ≤ root.size) ∨
        ∃ error, reply = .error (.refused error) ∧ ∃ call ∈ calls, call.reply = .error error) := by
  obtain ⟨d, hd⟩ := IsDialogue.edit root.size root
  dsimp only at hd
  obtain ⟨calls, reply, s', hheld⟩ := Held.exists_held offer d s
  have hplain : (edit offer root.size root).run.run s = (reply, s') := by
    rw [hd]
    exact hheld.run_eq
  have hlogged : (edit (logged offer) root.size root).run.run (s, []) = (reply, s', calls) := by
    rw [hd]
    exact hheld.logged_eq []
  obtain ⟨reply', _, more, hrun, hcalls, hreply⟩ :=
    halts_rewrite h (Nat.le_refl root.size) (fun _ => []) s [] .here
  rw [← edit_eq, hlogged] at hrun
  obtain rfl : reply = reply' := congrArg Prod.fst hrun
  obtain rfl : calls = more := congrArg (fun run => run.2.2) hrun
  have hends : reply ≠ .error .spent := by
    rcases hreply with ⟨root', rfl, -⟩ | ⟨error, rfl⟩ <;> exact nofun
  refine ⟨calls, reply, s', hcalls, fun depth hdepth => ⟨?_, ?_⟩, hreply.imp ?_ ?_⟩
  · rw [Continues.edit offer hdepth root s (by rw [hplain]; exact hends), hplain]
  · rw [Continues.edit (logged offer) hdepth root (s, []) (by rw [hlogged]; exact hends), hlogged]
  · rintro ⟨root', hroot, hle, -⟩
    exact ⟨root', hroot, hle⟩
  · rintro ⟨error, herror⟩
    exact ⟨error, herror, (hheld.refused_iff error).1 herror⟩

theorem neverGrows_stripCallback (removed : Nat) : NeverGrows stripCallback removed := by
  intro t node above x t' _ hcall
  change (Except.ok (if node.ungrouped.1 = 0 then none else some node.ungrouped.2), _) = _ at hcall
  have hanswer : (if node.ungrouped.1 = 0 then none else some node.ungrouped.2) = some x :=
    Except.ok.inj (congrArg Prod.fst hcall)
  split at hanswer
  · cases hanswer
  · cases hanswer
    exact (opened_ungrouped node).size_le

/-- Of the five nodes of a list with `a` in two parentheses and `b`, three are offered. -/
theorem edit_terminates_nested :
    let root := list [paren (paren (ident "a")), ident "b"]
    NeverGrows stripCallback 0 ∧ root.size = 5 ∧ ∃ calls,
      (edit (logged stripCallback) 5 root).run.run (0, []) =
        (.ok (list [ident "a", ident "b"]), 2, calls) ∧
      calls.length = 3 ∧ calls.length ≤ root.size := by
  intro root
  refine ⟨neverGrows_stripCallback 0, rfl, ?_⟩
  obtain ⟨calls, reply, s', hcalls, hruns, -⟩ :=
    edit_terminates stripCallback 0 (neverGrows_stripCallback 0) root
  have hrun := (hruns 5 (Nat.le_refl 5)).2
  cases hrun
  exact ⟨_, rfl, rfl, hcalls⟩

end Expr
end BuildScript
