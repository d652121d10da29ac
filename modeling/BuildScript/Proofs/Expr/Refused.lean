import BuildScript.Expr.Grouping
import BuildScript.Proofs.Expr.Offers

/-!
Callbacks that refuse. An edit asks one question after the other, and between two of them it looks at
the answers only: it is a `Dialogue`, whoever answers. So a refusal ends it at once, and up to then
it asks what it would ask anyone who gives the same answers (`edit_aborts`).
-/
namespace BuildScript
variable {σ τ ε α β : Type}

/-- A run that nobody has answered yet: it is at its end, or it shows a visit and goes on with what
it is told. -/
inductive Dialogue (α : Type) where
  | done (result : α)
  | spent
  | ask (visit : Visit) (next : Option Expr → Dialogue α)

structure Call (ε : Type) where
  visit : Visit
  reply : Except ε (Option Expr)

def logged (offer : Callback σ ε) : Callback (σ × List (Call ε)) ε :=
  fun node above => ExceptT.mk fun (s, calls) =>
    let (reply, s) := (offer node above).run.run s
    (reply, s, calls ++ [⟨⟨node, above⟩, reply⟩])

theorem run_logged (offer : Callback σ ε) (node : Expr) (above : List Expr) (s : σ)
    (calls : List (Call ε)) : (logged offer node above).run.run (s, calls) =
      (((offer node above).run.run s).1, ((offer node above).run.run s).2,
        calls ++ [⟨⟨node, above⟩, ((offer node above).run.run s).1⟩]) :=
  rfl

def answers (calls : List (Call ε)) : List (Option Expr) :=
  calls.filterMap fun call => call.reply.toOption

def replay (rest : Callback τ Empty) : Callback (List (Option Expr) × τ) Empty :=
  fun node above => ExceptT.mk fun
    | (answer :: later, t) => (.ok answer, later, t)
    | ([], t) =>
      let (reply, t) := (rest node above).run.run t
      (reply, [], t)

namespace Dialogue

def run (offer : Callback σ ε) : Dialogue α → EditM σ ε α
  | done x => pure x
  | spent => throw .spent
  | ask visit next => do
    let answer ← ExceptT.adapt Halt.refused (offer visit.node visit.ancestors)
    (next answer).run offer

def bind : Dialogue α → (α → Dialogue β) → Dialogue β
  | done x, f => f x
  | spent, _ => spent
  | ask visit next, f => ask visit fun answer => (next answer).bind f

theorem run_bind (offer : Callback σ ε) (d : Dialogue α) (f : α → Dialogue β) :
    (d.bind f).run offer = d.run offer >>= fun x => (f x).run offer := by
  induction d with
  | done x => exact (pure_bind x fun x => (f x).run offer).symm
  | spent => rfl
  | ask visit next ih =>
    simp only [bind, run, bind_assoc, ih]

end Dialogue

abbrev Edit (α : Type) := (σ ε : Type) → Callback σ ε → EditM σ ε α

/-- The edit is one dialogue, whatever the callback keeps and how it fails. -/
def IsDialogue (p : Edit α) : Prop := ∃ d : Dialogue α, ∀ σ ε offer, p σ ε offer = d.run offer

namespace IsDialogue

theorem pure (x : α) : IsDialogue fun _ _ _ => Pure.pure x := ⟨.done x, fun _ _ _ => rfl⟩

theorem bind {p : Edit α} {f : α → Edit β} (hp : IsDialogue p) (hf : ∀ x, IsDialogue (f x)) :
    IsDialogue fun σ ε offer => p σ ε offer >>= fun x => f x σ ε offer := by
  obtain ⟨d, hd⟩ := hp
  choose next hnext using hf
  refine ⟨d.bind next, fun σ ε offer => ?_⟩
  show p σ ε offer >>= _ = _
  rw [d.run_bind, hd]
  exact bind_congr fun x => hnext x σ ε offer

theorem map {p : Edit α} (f : α → β) (hp : IsDialogue p) :
    IsDialogue fun σ ε offer => f <$> p σ ε offer := by
  obtain ⟨d, hd⟩ := hp.bind fun x => pure (f x)
  exact ⟨d, fun σ ε offer => (bind_pure_comp f _).symm.trans (hd σ ε offer)⟩

theorem foldlM {f : α → Nat → Edit α} (h : ∀ x i, IsDialogue (f x i)) (is : List Nat) (x : α) :
    IsDialogue fun σ ε offer => is.foldlM (fun x i => f x i σ ε offer) x := by
  induction is generalizing x with
  | nil => exact pure x
  | cons i is ih => exact (h x i).bind ih

theorem mapM {f : α → Edit β} (h : ∀ x, IsDialogue (f x)) (xs : List α) :
    IsDialogue fun σ ε offer => xs.mapM fun x => f x σ ε offer := by
  induction xs with
  | nil => exact pure []
  | cons x xs ih =>
    simp only [List.mapM_cons]
    exact (h x).bind fun y => ih.bind fun ys => pure (y :: ys)

theorem rewrite (depth : Nat) (above : Expr → List Expr) (e : Expr) :
    IsDialogue fun _ _ offer => Expr.rewrite offer depth above e := by
  induction depth generalizing above e with
  | zero => exact ⟨.spent, fun _ _ _ => rfl⟩
  | succ depth ih =>
    have hcall : IsDialogue fun _ _ offer => ExceptT.adapt Halt.refused (offer e (above e)) :=
      ⟨.ask ⟨e, above e⟩ .done, fun _ _ _ => (bind_pure _).symm⟩
    have hoffered : IsDialogue fun _ _ offer => Expr.offered offer (above e) e :=
      hcall.map fun answer : Option Expr => answer.getD e
    refine hoffered.bind fun e => foldlM (fun e i => ?_) _ e
    unfold Expr.inSlot
    cases e.shape.slot? i with
    | none => exact pure e
    | some slot => exact (ih _ slot.content).map _

theorem edit (depth : Nat) (root : Expr) :
    IsDialogue fun _ _ offer => Expr.edit offer depth root := by
  simp only [Expr.edit_eq]
  exact rewrite depth _ root

theorem editScript (depth : Nat) (s : Script) :
    IsDialogue fun _ _ offer => s.edit offer depth :=
  (mapM (edit depth) s.statements).bind fun statements => pure { s with statements }

end IsDialogue

inductive Held (offer : Callback σ ε) :
    Dialogue α → σ → List (Call ε) → Except (Halt ε) α → σ → Prop where
  | done (x : α) (s : σ) : Held offer (.done x) s [] (.ok x) s
  | spent (s : σ) : Held offer .spent s [] (.error .spent) s
  | refused {visit : Visit} {next : Option Expr → Dialogue α} {s s' : σ} {error : ε}
      (call : (offer visit.node visit.ancestors).run.run s = (.error error, s')) :
      Held offer (.ask visit next) s [⟨visit, .error error⟩] (.error (.refused error)) s'
  | answered {visit : Visit} {next : Option Expr → Dialogue α} {s s₁ s' : σ}
      {answer : Option Expr} {calls : List (Call ε)} {result : Except (Halt ε) α}
      (call : (offer visit.node visit.ancestors).run.run s = (.ok answer, s₁))
      (later : Held offer (next answer) s₁ calls result s') :
      Held offer (.ask visit next) s (⟨visit, .ok answer⟩ :: calls) result s'

namespace Held
variable {offer : Callback σ ε} {d : Dialogue α} {s s' : σ} {calls : List (Call ε)}
  {result : Except (Halt ε) α}

theorem exists_held (offer : Callback σ ε) (d : Dialogue α) (s : σ) :
    ∃ calls result s', Held offer d s calls result s' := by
  induction d generalizing s with
  | done x => exact ⟨_, _, _, .done x s⟩
  | spent => exact ⟨_, _, _, .spent s⟩
  | ask visit next ih =>
    rcases hcall : (offer visit.node visit.ancestors).run.run s with ⟨error | answer, s₁⟩
    · exact ⟨_, _, _, .refused hcall⟩
    · obtain ⟨_, _, _, h⟩ := ih answer s₁
      exact ⟨_, _, _, .answered hcall h⟩

theorem run_eq (h : Held offer d s calls result s') : (d.run offer).run.run s = (result, s') := by
  induction h with
  | done | spent => rfl
  | refused call =>
    rw [Dialogue.run, ExceptT.run_bind, StateT.run_bind, Expr.run_adapt, call]
    rfl
  | answered call _ ih =>
    rw [Dialogue.run, ExceptT.run_bind, StateT.run_bind, Expr.run_adapt, call]
    exact ih

theorem logged_eq (h : Held offer d s calls result s') (before : List (Call ε)) :
    (d.run (logged offer)).run.run (s, before) = (result, s', before ++ calls) := by
  induction h generalizing before with
  | done | spent => rw [List.append_nil]; rfl
  | refused call =>
    rw [Dialogue.run, ExceptT.run_bind, StateT.run_bind, Expr.run_adapt, run_logged, call]
    rfl
  | answered call _ ih =>
    rw [Dialogue.run, ExceptT.run_bind, StateT.run_bind, Expr.run_adapt, run_logged, call]
    exact (ih _).trans (by rw [List.append_assoc]; rfl)

theorem refused_iff (h : Held offer d s calls result s') (error : ε) :
    result = .error (.refused error) ↔ ∃ call ∈ calls, call.reply = .error error := by
  induction h with
  | done | spent => simp
  | refused => simp
  | answered _ _ ih => simp [ih]

/-- Only the last call can have been refused. -/
theorem answered_dropLast (h : Held offer d s calls result s') :
    ∀ call ∈ calls.dropLast, ∃ answer, call.reply = .ok answer := by
  induction h with
  | done | spent | refused => simp
  | @answered _ _ _ _ _ answer calls _ _ _ ih =>
    cases calls with
    | nil => simp
    | cons call calls =>
      rw [List.dropLast_cons_of_ne_nil (List.cons_ne_nil _ _)]
      exact List.forall_mem_cons.2 ⟨⟨answer, rfl⟩, ih⟩

/-- Whoever gives the same answers is asked the same, up to the call that was refused. -/
theorem visits_prefix (h : Held offer d s calls result s') {rest : Callback τ Empty} {t : τ}
    {driven : List (Call Empty)} {result' : Except (Halt Empty) α}
    {left : List (Option Expr) × τ}
    (h' : Held (replay rest) d (answers calls, t) driven result' left) :
    calls.map Call.visit <+: driven.map Call.visit := by
  induction h generalizing driven with
  | done | spent => exact List.nil_prefix
  | refused =>
    cases h' with
    | refused => exact List.prefix_rfl
    | answered => exact List.prefix_cons_inj _ |>.2 List.nil_prefix
  | answered _ _ ih =>
    cases h' with
    | @refused _ _ _ _ error => exact nomatch error
    | answered call later =>
      cases call
      exact List.prefix_cons_inj _ |>.2 (ih later)

theorem exists_ok (h : Held offer d s calls result s') (hends : result ≠ .error .spent)
    (hall : ∀ call ∈ calls, ∃ answer, call.reply = .ok answer) : ∃ x, result = .ok x := by
  induction h with
  | done x => exact ⟨x, rfl⟩
  | spent => exact absurd rfl hends
  | refused =>
    obtain ⟨_, h⟩ := hall _ List.mem_cons_self
    cases h
  | answered _ _ ih => exact ih hends (List.forall_mem_cons.1 hall).2

theorem replayed {x : α} (h : Held offer d s calls (.ok x) s') (rest : Callback τ Empty) (t : τ) :
    ∃ driven, Held (replay rest) d (answers calls, t) driven (.ok x) ([], t) ∧
      driven.map Call.visit = calls.map Call.visit := by
  generalize hresult : (Except.ok x : Except (Halt ε) α) = result at h
  induction h with
  | done y =>
    cases hresult
    exact ⟨[], .done _ _, rfl⟩
  | spent | refused => cases hresult
  | answered _ _ ih =>
    obtain ⟨driven, hheld, hvisits⟩ := ih hresult
    exact ⟨_, .answered rfl hheld, congrArg (_ :: ·) hvisits⟩

end Held

/-- What is known of a run that may be refused, with its calls. -/
structure Aborts (p : Edit α) (offer : Callback σ ε) (s : σ) (calls : List (Call ε)) : Prop where
  /-- These are the calls of the run, and logging them changes nothing else. -/
  log : (p _ _ (logged offer)).run.run (s, []) =
    (((p _ _ offer).run.run s).1, ((p _ _ offer).run.run s).2, calls)
  /-- The run fails if and only if a call was refused, and with the error given there. -/
  refused_iff (error : ε) : ((p _ _ offer).run.run s).1 = .error (.refused error) ↔
    ∃ call ∈ calls, call.reply = .error error
  /-- Behind a call that was refused there is none. -/
  answered_dropLast : ∀ call ∈ calls.dropLast, ∃ answer, call.reply = .ok answer
  /-- A callback that gives the same answers and never refuses is shown the same visits, whatever
  it answers from the refused call on. -/
  visits_prefix {τ : Type} (rest : Callback τ Empty) (t : τ) : calls.map Call.visit <+:
    ((p _ _ (logged (replay rest))).run.run ((answers calls, t), [])).2.2.map Call.visit
  /-- If no call was refused, it gets the same result and is shown nothing else. -/
  replayed : (∀ call ∈ calls, ∃ answer, call.reply = .ok answer) →
    ∃ x, ((p _ _ offer).run.run s).1 = .ok x ∧
      ∀ {τ : Type} (rest : Callback τ Empty) (t : τ), ∃ driven,
        (p _ _ (logged (replay rest))).run.run ((answers calls, t), []) = (.ok x, ([], t), driven) ∧
        driven.map Call.visit = calls.map Call.visit

theorem IsDialogue.aborts {p : Edit α} (hp : IsDialogue p) {offer : Callback σ ε} {s : σ}
    (hends : ((p _ _ offer).run.run s).1 ≠ .error .spent) : ∃ calls, Aborts p offer s calls := by
  obtain ⟨d, hd⟩ := hp
  obtain ⟨calls, result, s', hheld⟩ := Held.exists_held offer d s
  have hrun : (p _ _ offer).run.run s = (result, s') := by
    rw [hd]
    exact hheld.run_eq
  rw [hrun] at hends
  refine ⟨calls, ?_, ?_, hheld.answered_dropLast, fun rest t => ?_, fun hall => ?_⟩
  · rw [hrun, hd]
    exact hheld.logged_eq []
  · rw [hrun]
    exact hheld.refused_iff
  · obtain ⟨driven, result', left, hdriven⟩ :=
      Held.exists_held (replay rest) d (answers calls, t)
    rw [hd, hdriven.logged_eq []]
    exact hheld.visits_prefix hdriven
  · obtain ⟨x, rfl⟩ := hheld.exists_ok hends hall
    refine ⟨x, by rw [hrun], fun rest t => ?_⟩
    obtain ⟨driven, hdriven, hvisits⟩ := hheld.replayed rest t
    exact ⟨driven, by rw [hd]; exact hdriven.logged_eq [], hvisits⟩

def Continues (p q : EditM σ ε α) : Prop :=
  ∀ s, (p.run.run s).1 ≠ .error .spent → q.run.run s = p.run.run s

namespace Continues

theorem refl (p : EditM σ ε α) : Continues p p := fun _ _ => rfl

theorem bind {p q : EditM σ ε α} {f g : α → EditM σ ε β} (hp : Continues p q)
    (hf : ∀ x, Continues (f x) (g x)) : Continues (p >>= f) (q >>= g) := by
  intro s hends
  rw [ExceptT.run_bind, StateT.run_bind] at hends
  rw [ExceptT.run_bind, StateT.run_bind, ExceptT.run_bind, StateT.run_bind]
  rcases hrun : p.run.run s with ⟨halt | x, s'⟩
  · have hhalt : halt ≠ .spent := fun h => hends (by rw [hrun, h]; rfl)
    rw [hp s (by rw [hrun]; simpa using hhalt), hrun]
    rfl
  · rw [hrun] at hends
    rw [hp s (by rw [hrun]; exact nofun), hrun]
    exact hf x s' hends

theorem map (f : α → β) {p q : EditM σ ε α} (hp : Continues p q) :
    Continues (f <$> p) (f <$> q) := by
  rw [← bind_pure_comp, ← bind_pure_comp]
  exact hp.bind fun x => refl _

theorem foldlM {f g : α → Nat → EditM σ ε α} (h : ∀ x i, Continues (f x i) (g x i))
    (is : List Nat) (x : α) : Continues (is.foldlM f x) (is.foldlM g x) := by
  induction is generalizing x with
  | nil => exact refl _
  | cons i is ih => exact (h x i).bind ih

theorem mapM {f g : α → EditM σ ε β} (h : ∀ x, Continues (f x) (g x)) (xs : List α) :
    Continues (xs.mapM f) (xs.mapM g) := by
  induction xs with
  | nil => exact refl _
  | cons x xs ih =>
    simp only [List.mapM_cons]
    exact (h x).bind fun y => ih.bind fun ys => refl _

theorem rewrite (offer : Callback σ ε) {depth deeper : Nat} (h : depth ≤ deeper)
    (above : Expr → List Expr) (e : Expr) :
    Continues (Expr.rewrite offer depth above e) (Expr.rewrite offer deeper above e) := by
  induction depth generalizing deeper above e with
  | zero => exact fun _ hends => absurd rfl hends
  | succ depth ih =>
    obtain ⟨deeper, rfl⟩ := Nat.exists_eq_add_of_le' (Nat.zero_lt_of_lt h)
    refine (refl _).bind fun e => foldlM (fun e i => ?_) _ e
    unfold Expr.inSlot
    cases e.shape.slot? i with
    | none => exact refl _
    | some slot => exact (ih (Nat.le_of_succ_le_succ h) _ slot.content).map _

theorem edit (offer : Callback σ ε) {depth deeper : Nat} (h : depth ≤ deeper) (root : Expr) :
    Continues (Expr.edit offer depth root) (Expr.edit offer deeper root) := by
  rw [Expr.edit_eq, Expr.edit_eq]
  exact rewrite offer h _ root

theorem editScript (offer : Callback σ ε) {depth deeper : Nat} (h : depth ≤ deeper) (s : Script) :
    Continues (s.edit offer depth) (s.edit offer deeper) :=
  (mapM (edit offer h) s.statements).bind fun _ => refl _

end Continues

inductive Threads (offer : Callback σ ε) (depth : Nat) : List Expr → σ → List Expr → σ → Prop where
  | nil (s : σ) : Threads offer depth [] s [] s
  | cons {e e' : Expr} {es es' : List Expr} {s s₁ s' : σ}
      (first : (Expr.edit offer depth e).run.run s = (.ok e', s₁))
      (others : Threads offer depth es s₁ es' s') : Threads offer depth (e :: es) s (e' :: es') s'

theorem threads_of_returns {offer : Callback σ ε} {depth : Nat} {es es' : List Expr} {s s' : σ}
    (h : Expr.Returns (es.mapM (Expr.edit offer depth)) s es' s') :
    Threads offer depth es s es' s' := by
  induction es generalizing es' s with
  | nil =>
    obtain ⟨rfl, rfl⟩ := Expr.returns_pure.1 h
    exact .nil s
  | cons e es ih =>
    rw [List.mapM_cons] at h
    obtain ⟨e', s₁, hfirst, h⟩ := Expr.returns_bind.1 h
    obtain ⟨others, s₂, hothers, h⟩ := Expr.returns_bind.1 h
    obtain ⟨rfl, rfl⟩ := Expr.returns_pure.1 h
    exact .cons hfirst (ih hothers)

/-- A refusal ends an edit at once. It fails if and only if a call was refused, no call comes after
that one, and up to it the visits are those of an edit with the same answers that cannot fail; an
edit without a refusal comes to the same result as that one. The same holds of the statements of a
script taken in order, whose path and comments stay. A bound that is enough changes nothing. -/
theorem edit_aborts (offer : Callback σ ε) (depth : Nat) (s : σ) :
    (∀ root, ((Expr.edit offer depth root).run.run s).1 ≠ .error .spent →
      (∃ calls, Aborts (fun _ _ offer => Expr.edit offer depth root) offer s calls) ∧
      ∀ deeper, depth ≤ deeper →
        (Expr.edit offer deeper root).run.run s = (Expr.edit offer depth root).run.run s) ∧
    ∀ script : Script, ((script.edit offer depth).run.run s).1 ≠ .error .spent →
      (∃ calls, Aborts (fun _ _ offer => script.edit offer depth) offer s calls) ∧
      (∀ deeper, depth ≤ deeper →
        (script.edit offer deeper).run.run s = (script.edit offer depth).run.run s) ∧
      ∀ edited s', (script.edit offer depth).run.run s = (.ok edited, s') →
        edited.path = script.path ∧ edited.comments = script.comments ∧
          Threads offer depth script.statements s edited.statements s' := by
  refine ⟨fun root hends => ⟨(IsDialogue.edit depth root).aborts hends,
    fun deeper h => Continues.edit offer h root s hends⟩, fun script hends =>
    ⟨(IsDialogue.editScript depth script).aborts hends,
      fun deeper h => Continues.editScript offer h script s hends, fun edited s' h => ?_⟩⟩
  obtain ⟨statements, s₁, hstatements, h⟩ := Expr.returns_bind.1 h
  obtain ⟨rfl, rfl⟩ := Expr.returns_pure.1 h
  exact ⟨rfl, rfl, threads_of_returns hstatements⟩

def thirdRefused : Callback Nat String := fun _ _ => do
  let calls ← getModify (· + 1)
  if calls = 2 then throw "enough" else pure none

/-- Of two lists with an item each, the second one is refused, and its item is not offered. -/
theorem edit_aborts_thirdRefused :
    let script : Script :=
      ⟨none, [.list [.ident "a"], .list [.ident "b"], .ident "c"], []⟩
    ∃ calls, Aborts (fun _ _ offer => script.edit offer 2) thirdRefused 0 calls ∧
      calls.map (fun call => call.visit.node) =
        [.list [.ident "a"], .ident "a", .list [.ident "b"]] := by
  intro script
  obtain ⟨-, hscript⟩ := edit_aborts thirdRefused 2 0
  obtain ⟨⟨calls, haborts⟩, -⟩ := hscript script nofun
  have hlog := haborts.log
  cases hlog
  exact ⟨_, haborts, rfl⟩

end BuildScript
