import BuildScript.Proofs.Expr.Positions
import BuildScript.Proofs.Expr.Rewrite

/-!
What an edit asks. A run is recorded call by call: the path, the visit shown there and the answer.
The calls go through the places of the tree that comes out, each shown its place in the tree as the
calls before it left it (`edit_topDown`).
-/
namespace BuildScript.Expr
variable {σ ε : Type}

/-- One call of the callback that was answered. -/
structure Offer where
  path : Path
  visit : Visit
  answer : Option Expr

def recorded (offer : Callback σ ε) (path : Path) : Callback (σ × List Offer) ε :=
  fun node above => ExceptT.mk fun (s, calls) =>
    match (offer node above).run.run s with
    | (.ok answer, s) => (.ok answer, s, calls ++ [⟨path, ⟨node, above⟩, answer⟩])
    | (.error error, s) => (.error error, s, calls)

def recordAt (offer : Callback σ ε) : Nat → Path → Expr → EditM (σ × List Offer) ε Expr
  | 0, _, _ => throw .spent
  | depth + 1, path, root => do
    let (count, root) ← offerAt (recorded offer path) path root
    (List.range count).foldlM (fun root i => recordAt offer depth (path ++ [i]) root) root

def record (offer : Callback σ ε) (depth : Nat) (root : Expr) : EditM (σ × List Offer) ε Expr :=
  recordAt offer depth [] root

theorem recordAt_succ (offer : Callback σ ε) (depth : Nat) (path : Path) (root : Expr) :
    recordAt offer (depth + 1) path root =
      offerAt (recorded offer path) path root >>= fun offered =>
        (List.range offered.1).foldlM (fun root i => recordAt offer depth (path ++ [i]) root)
          offered.2 :=
  rfl

theorem run_recorded (offer : Callback σ ε) (path : Path) (node : Expr) (above : List Expr)
    (s : σ) (calls : List Offer) : (recorded offer path node above).run.run (s, calls) =
      match (offer node above).run.run s with
      | (.ok answer, s) => (.ok answer, s, calls ++ [⟨path, ⟨node, above⟩, answer⟩])
      | (.error error, s) => (.error error, s, calls) :=
  rfl

theorem run_adapt {α : Type} (p : ExceptT ε (StateM σ) α) (s : σ) :
    (ExceptT.adapt Halt.refused p).run.run s =
      ((p.run.run s).1.mapError Halt.refused, (p.run.run s).2) :=
  rfl

/-- `p` does what `q` does and writes a record besides. -/
def Records {α : Type} (p : EditM (σ × List Offer) ε α) (q : EditM σ ε α) : Prop :=
  ∀ s calls, ∃ more, p.run.run (s, calls) =
    ((q.run.run s).1, (q.run.run s).2, calls ++ more)

namespace Records
variable {α β : Type}

theorem pure (x : α) : Records (σ := σ) (ε := ε) (Pure.pure x) (Pure.pure x) :=
  fun _ calls => ⟨[], by rw [List.append_nil]; rfl⟩

theorem throw (halt : Halt ε) : Records (σ := σ) (α := α) (throw halt) (throw halt) :=
  fun _ calls => ⟨[], by rw [List.append_nil]; rfl⟩

theorem bind {p : EditM (σ × List Offer) ε α} {q : EditM σ ε α}
    {f : α → EditM (σ × List Offer) ε β} {g : α → EditM σ ε β} (hp : Records p q)
    (hf : ∀ x, Records (f x) (g x)) : Records (p >>= f) (q >>= g) := by
  intro s calls
  obtain ⟨more, hp⟩ := hp s calls
  simp only [ExceptT.run_bind, StateT.run_bind, hp]
  rcases q.run.run s with ⟨error | x, s'⟩
  · exact ⟨more, rfl⟩
  · obtain ⟨rest, hf⟩ := hf x s' (calls ++ more)
    exact ⟨more ++ rest, by rw [← List.append_assoc]; exact hf⟩

theorem foldlM {f : α → Nat → EditM (σ × List Offer) ε α} {g : α → Nat → EditM σ ε α}
    (h : ∀ x i, Records (f x i) (g x i)) (is : List Nat) (x : α) :
    Records (is.foldlM f x) (is.foldlM g x) := by
  induction is generalizing x with
  | nil => exact .pure x
  | cons i is ih => exact (h x i).bind ih

end Records

theorem records_call (offer : Callback σ ε) (path : Path) (node : Expr) (above : List Expr) :
    Records (ExceptT.adapt Halt.refused (recorded offer path node above))
      (ExceptT.adapt Halt.refused (offer node above)) := by
  intro s calls
  simp only [run_adapt, run_recorded]
  rcases (offer node above).run.run s with ⟨error | answer, s'⟩
  · exact ⟨[], by rw [List.append_nil]⟩
  · exact ⟨[⟨path, ⟨node, above⟩, answer⟩], rfl⟩

theorem records_offerAt (offer : Callback σ ε) (path : Path) (root : Expr) :
    Records (offerAt (recorded offer path) path root) (offerAt offer path root) := by
  unfold offerAt
  cases root.visit? path with
  | none => exact .throw _
  | some visit =>
    refine (records_call offer path visit.node visit.ancestors).bind fun answer => ?_
    cases answer with
    | none => exact .pure _
    | some replacement =>
      dsimp only
      cases root.put? path replacement with
      | none => exact .throw _
      | some root => exact .pure _

theorem records_recordAt (offer : Callback σ ε) (depth : Nat) (path : Path) (root : Expr) :
    Records (recordAt offer depth path root) (editAt offer depth path root) := by
  induction depth generalizing path root with
  | zero => exact .throw _
  | succ depth ih =>
    rw [recordAt_succ, editAt_succ]
    exact (records_offerAt offer path root).bind fun offered =>
      .foldlM (fun root i => ih (path ++ [i]) root) _ _

def Returns {α : Type} (p : EditM σ ε α) (s : σ) (x : α) (s' : σ) : Prop :=
  p.run.run s = (.ok x, s')

section Returns
variable {α β : Type} {s s' : σ}

theorem returns_pure {x y : α} : Returns (ε := ε) (pure x) s y s' ↔ x = y ∧ s = s' := by
  show (Except.ok x, s) = (Except.ok y, s') ↔ _
  simp

theorem returns_bind {p : EditM σ ε α} {f : α → EditM σ ε β} {y : β} :
    Returns (p >>= f) s y s' ↔ ∃ x s₁, Returns p s x s₁ ∧ Returns (f x) s₁ y s' := by
  unfold Returns
  simp only [ExceptT.run_bind, StateT.run_bind]
  rcases p.run.run s with ⟨error | x, s₁⟩
  · refine ⟨fun h => ?_, ?_⟩
    · exact nomatch (show (Except.error error, s₁) = (Except.ok y, s') from h)
    · rintro ⟨_, _, h, -⟩
      cases h
  · refine ⟨fun h => ⟨x, s₁, rfl, h⟩, ?_⟩
    rintro ⟨_, _, h, hf⟩
    cases h
    exact hf

theorem returns_map {p : EditM σ ε α} {f : α → β} {y : β} :
    Returns (f <$> p) s y s' ↔ ∃ x, Returns p s x s' ∧ f x = y := by
  simp only [← bind_pure_comp, returns_bind, returns_pure]
  constructor
  · rintro ⟨x, _, hp, rfl, rfl⟩
    exact ⟨x, hp, rfl⟩
  · rintro ⟨x, hp, rfl⟩
    exact ⟨x, s', hp, rfl, rfl⟩

end Returns

theorem returns_offered {offer : Callback σ ε} {path : Path} {above : List Expr} {e x : Expr}
    {s : σ} {calls : List Offer} {t : σ × List Offer}
    (h : Returns (offered (recorded offer path) above e) (s, calls) x t) : ∃ answer s',
      (offer e above).run.run s = (.ok answer, s') ∧ x = answer.getD e ∧
        t = (s', calls ++ [⟨path, ⟨e, above⟩, answer⟩]) := by
  obtain ⟨answer, hcall, rfl⟩ := returns_map.1 h
  unfold Returns at hcall
  rw [run_adapt, run_recorded] at hcall
  rcases hoffer : (offer e above).run.run s with ⟨error | given, s'⟩
  · rw [hoffer] at hcall
    cases hcall
  · rw [hoffer] at hcall
    cases hcall
    exact ⟨answer, s', rfl, rfl, rfl⟩

def answered (root : Expr) (call : Offer) : Option Expr :=
  match call.answer with
  | none => some root
  | some x => root.put? call.path x

/-- Calls one after the other, from a tree and a state to a tree and a state. Each is shown what
stands at its path by then, and what it answers stands there from then on. -/
inductive Trace (offer : Callback σ ε) : Expr → σ → List Offer → Expr → σ → Prop
  | nil (root : Expr) (s : σ) : Trace offer root s [] root s
  | cons {root root₁ root' : Expr} {s s₁ s' : σ} {call : Offer} {calls : List Offer} :
    root.Shows call.path call.visit →
    (offer call.visit.node call.visit.ancestors).run.run s = (.ok call.answer, s₁) →
    root.answered call = some root₁ →
    Trace offer root₁ s₁ calls root' s' → Trace offer root s (call :: calls) root' s'

theorem Trace.append {offer : Callback σ ε} {a b c : Expr} {s t u : σ} {xs ys : List Offer}
    (h : Trace offer a s xs b t) (hrest : Trace offer b t ys c u) :
    Trace offer a s (xs ++ ys) c u := by
  induction h with
  | nil => exact hrest
  | cons hshown hcall hput _ ih => exact .cons hshown hcall hput (ih hrest)

section Runs
variable {offer : Callback σ ε} {path : Path} {fill : Expr → Expr} {above : Expr → List Expr}

theorem IsPlace.child (h : IsPlace path fill above) {e c : Expr} {i : Nat}
    (hc : e.child? i = some c) : IsPlace (path ++ [i]) (fun x => fill (e.withChild i x))
      fun x => above (e.withChild i x) ++ [e.withChild i x] := by
  unfold child? at hc
  have hslot : e.shape.slot? i =
      some ⟨c, fun y => e.shape.mapIdx fun j z => if j = i then y else z⟩ := by
    rw [Shape.slot?_eq, hc]
    rfl
  exact h.inSlot hslot

/-- The calls lead from `e` to `e'` in a place, through the positions of what stands there then. -/
structure Edits (offer : Callback σ ε) (path : Path) (fill : Expr → Expr) (e e' : Expr) (s s' : σ)
    (calls : List Offer) : Prop where
  trace : Trace offer (fill e) s calls (fill e') s'
  paths : calls.map Offer.path = e'.positions.map (path ++ ·)

structure EditsSlots (offer : Callback σ ε) (path : Path) (fill : Expr → Expr) (is : List Nat)
    (e e' : Expr) (s s' : σ) (calls : List Offer) : Prop where
  trace : Trace offer (fill e) s calls (fill e') s'
  count : e'.childCount = e.childCount
  others : ∀ j ∉ is, e'.child? j = e.child? j
  paths : calls.map Offer.path =
    is.flatMap fun i => (e'.positionsIn i).map fun p => path ++ i :: p

def EditsPlaces (offer : Callback σ ε) (go : Path → Expr → EditM (σ × List Offer) ε Expr) : Prop :=
  ∀ path fill above, IsPlace path fill above → ∀ e root' s s' calls calls',
    Returns (go path (fill e)) (s, calls) root' (s', calls') → ∃ e' more,
      root' = fill e' ∧ calls' = calls ++ more ∧ Edits offer path fill e e' s s' more

theorem returns_slots {go : Path → Expr → EditM (σ × List Offer) ε Expr}
    (hgo : EditsPlaces offer go) (h : IsPlace path fill above) {is : List Nat} (hnodup : is.Nodup)
    {e root' : Expr} (hcount : ∀ i ∈ is, i < e.childCount) {s s' : σ} {calls calls' : List Offer}
    (hrun : Returns (is.foldlM (fun root i => go (path ++ [i]) root) (fill e)) (s, calls) root'
      (s', calls')) : ∃ e' more, root' = fill e' ∧ calls' = calls ++ more ∧
        EditsSlots offer path fill is e e' s s' more := by
  induction is generalizing e s calls with
  | nil =>
    obtain ⟨rfl, h⟩ := returns_pure.1 hrun
    cases h
    exact ⟨e, [], rfl, (List.append_nil _).symm, ⟨.nil _ _, rfl, fun _ _ => rfl, rfl⟩⟩
  | cons i is ih =>
    obtain ⟨hnot, hnodup⟩ := List.nodup_cons.1 hnodup
    obtain ⟨hi, his⟩ := List.forall_mem_cons.1 hcount
    obtain ⟨c, hc⟩ := Option.isSome_iff_exists.1 (child?_isSome.2 hi)
    obtain ⟨root₁, ⟨s₁, calls₁⟩, hslot, hrest⟩ := returns_bind.1 hrun
    have hself := withChild_self hc
    rw [← hself] at hslot
    obtain ⟨c', more, rfl, rfl, hedits⟩ := hgo _ _ _ (h.child hc) _ _ _ _ _ _ hslot
    have htrace := hedits.trace
    rw [hself] at htrace
    obtain ⟨e', rest, rfl, rfl, hothers⟩ := ih hnodup
      (fun j hj => Nat.lt_of_lt_of_eq (his j hj) (childCount_withChild e i c').symm) hrest
    refine ⟨e', more ++ rest, rfl, by rw [List.append_assoc],
      ⟨htrace.append hothers.trace, hothers.count.trans (childCount_withChild e i c'), ?_, ?_⟩⟩
    · intro j hj
      rw [List.mem_cons, not_or] at hj
      rw [hothers.others j hj.2, child?_withChild_of_ne hj.1]
    · have hc' : e'.child? i = some c' := (hothers.others i hnot).trans (child?_withChild hc c')
      rw [List.map_append, List.flatMap_cons, hedits.paths, hothers.paths, positionsIn_eq hc']
      simp

theorem editsPlaces_recordAt (offer : Callback σ ε) (depth : Nat) :
    EditsPlaces offer (recordAt offer depth) := by
  induction depth with
  | zero =>
    intro path fill above _ e root' s s' calls calls' hrun
    cases hrun
  | succ depth ih =>
    intro path fill above h e root' s s' calls calls' hrun
    rw [recordAt_succ, offerAt_eq _ h, bind_map_left] at hrun
    obtain ⟨e₁, _, hoffered, hslots⟩ := returns_bind.1 hrun
    obtain ⟨answer, s₁, hcall, rfl, rfl⟩ := returns_offered hoffered
    obtain ⟨e', more, rfl, rfl, hedits⟩ := returns_slots ih h List.nodup_range
      (fun i hi => List.mem_range.1 hi) hslots
    have hput : (fill e).answered ⟨path, ⟨e, above e⟩, answer⟩ = some (fill (answer.getD e)) := by
      cases answer with
      | none => rfl
      | some x => exact h.put e x
    refine ⟨e', _ :: more, rfl, by rw [List.append_assoc, List.singleton_append],
      .cons (shows_of_visit? (h.visit e)) hcall hput hedits.trace, ?_⟩
    rw [List.map_cons, hedits.paths, positions_eq, List.map_cons, List.append_nil, hedits.count,
      List.map_flatMap]
    simp [Function.comp_def]

end Runs

def Found {α : Type} (p : EditM σ ε α) : Prop :=
  ∀ s path, (p.run.run s).1 ≠ .error (.lost path)

namespace Found
variable {α β : Type}

theorem pure (x : α) : Found (σ := σ) (ε := ε) (Pure.pure x) :=
  fun _ _ => nofun

theorem bind {p : EditM σ ε α} {f : α → EditM σ ε β} (hp : Found p) (hf : ∀ x, Found (f x)) :
    Found (p >>= f) := by
  intro s path
  rw [ExceptT.run_bind, StateT.run_bind]
  rcases hrun : p.run.run s with ⟨halt | x, s'⟩
  · intro h
    cases h
    exact hp s path (by rw [hrun])
  · exact hf x s' path

theorem map (f : α → β) {p : EditM σ ε α} (hp : Found p) : Found (f <$> p) :=
  bind_pure_comp f p ▸ hp.bind fun x => .pure (f x)

theorem foldlM {f : α → Nat → EditM σ ε α} (h : ∀ x i, Found (f x i)) (is : List Nat) (x : α) :
    Found (is.foldlM f x) := by
  induction is generalizing x with
  | nil => exact .pure x
  | cons i is ih => exact (h x i).bind ih

end Found

theorem found_rewrite (offer : Callback σ ε) (depth : Nat) (above : Expr → List Expr) (e : Expr) :
    Found (rewrite offer depth above e) := by
  induction depth generalizing above e with
  | zero => exact fun _ _ => nofun
  | succ depth ih =>
    have hoffered : Found (offered offer (above e) e) := by
      refine Found.map _ fun s path => ?_
      rw [run_adapt]
      rcases (offer e (above e)).run.run s with ⟨error | answer, s'⟩
      · exact nofun
      · exact nofun
    refine hoffered.bind fun e => .foldlM (fun e i => ?_) _ _
    unfold inSlot
    cases e.shape.slot? i with
    | none => exact .pure e
    | some slot => exact (ih _ slot.content).map _

def Keeps (offer : Callback σ ε) : Prop :=
  ∀ node above s x s', (offer node above).run.run s ≠ (.ok (some x), s')

def Answers (offer : Callback σ ε) : Prop :=
  ∀ node above s, ∃ answer s', (offer node above).run.run s = (.ok answer, s')

section Keeping
variable {offer : Callback σ ε}

theorem height_lt_of_mem {c e : Expr} (h : c ∈ e.children) : c.height < e.height := by
  rw [height_eq e]
  exact Nat.lt_succ_of_le (List.le_max_of_le' 0 (List.mem_map_of_mem h) (Nat.le_refl _))

theorem Keeps.returns_rewrite (h : Keeps offer) (hanswers : Answers offer) {depth : Nat} {e : Expr}
    (hdepth : e.height ≤ depth) (above : Expr → List Expr) (s : σ) :
    ∃ s', Returns (rewrite offer depth above e) s e s' := by
  induction depth generalizing above e s with
  | zero =>
    rw [height_eq] at hdepth
    omega
  | succ depth ih =>
    obtain ⟨s₁, hcall⟩ : ∃ s₁, (offer e (above e)).run.run s = (.ok none, s₁) := by
      obtain ⟨answer, s₁, hcall⟩ := hanswers e (above e) s
      cases answer with
      | none => exact ⟨s₁, hcall⟩
      | some x => exact absurd hcall (h _ _ _ _ _)
    have hoffered : Returns (offered offer (above e) e) s e s₁ :=
      returns_map.2 ⟨none, by rw [Returns, run_adapt, hcall]; rfl, rfl⟩
    have hslots (is : List Nat) (s : σ) :
        ∃ s', Returns (is.foldlM (inSlot (rewrite offer depth) above) e) s e s' := by
      induction is generalizing s with
      | nil => exact ⟨s, rfl⟩
      | cons i is ihis =>
        have hslot : ∃ s', Returns (inSlot (rewrite offer depth) above e i) s e s' := by
          unfold inSlot
          rw [Shape.slot?_eq]
          cases hc : e.shape.child? i with
          | none => exact ⟨s, rfl⟩
          | some c =>
            have hlt := height_lt_of_mem (Shape.mem_children.2 ⟨i, hc⟩)
            obtain ⟨s', hs'⟩ := ih (e := c) (by omega) _ s
            exact ⟨s', returns_map.2 ⟨c, hs', withChild_self hc⟩⟩
        obtain ⟨s', hs'⟩ := hslot
        obtain ⟨s'', hs''⟩ := ihis s'
        exact ⟨s'', returns_bind.2 ⟨e, s', hs', hs''⟩⟩
    obtain ⟨s', hs'⟩ := hslots (List.range e.childCount) s₁
    exact ⟨s', returns_bind.2 ⟨e, s₁, hoffered, hs'⟩⟩

theorem Keeps.unchanged (h : Keeps offer) {root root' : Expr} {s s' : σ} {calls : List Offer}
    (htrace : Trace offer root s calls root' s') : root' = root ∧
      ∀ call ∈ calls, root.visit? call.path = some call.visit := by
  induction htrace with
  | nil => simp
  | @cons root root₁ _ s s₁ _ call _ hshown hcall hput _ ih =>
    have hkept : root₁ = root := by
      unfold answered at hput
      cases hanswer : call.answer with
      | none =>
        rw [hanswer] at hput
        exact (Option.some.inj hput).symm
      | some x =>
        rw [hanswer] at hcall
        exact absurd hcall (h _ _ _ _ _)
    subst hkept
    exact ⟨ih.1, List.forall_mem_cons.2 ⟨hshown.visit?, ih.2⟩⟩

end Keeping

/-- An edit goes down the tree as `rewrite` does and never loses its way. Its calls go through the
places of the tree that comes out, once each, and every call is shown its place in the tree as it
is by then. Where nothing is replaced, they are the visits of a walk and the tree stays. -/
theorem edit_topDown (offer : Callback σ ε) (depth : Nat) (root : Expr) (s : σ) :
    edit offer depth root = rewrite offer depth (fun _ => []) root ∧
    (∀ path, ((edit offer depth root).run.run s).1 ≠ .error (.lost path)) ∧
    (∀ root' s', (edit offer depth root).run.run s = (.ok root', s') → ∃ calls,
      (record offer depth root).run.run (s, []) = (.ok root', s', calls) ∧
      Trace offer root s calls root' s' ∧
      calls.map Offer.path = root'.positions ∧ root'.positions.Nodup ∧
      (Keeps offer → root' = root ∧ calls.map Offer.visit = root.walk)) ∧
    (Keeps offer → Answers offer → root.height ≤ depth →
      ∃ s', (edit offer depth root).run.run s = (.ok root, s')) := by
  refine ⟨edit_eq offer depth root, ?_, fun root' s' h => ?_, fun hkeeps hanswers hdepth => ?_⟩
  · rw [edit_eq]
    exact found_rewrite offer depth _ root s
  · obtain ⟨calls, hcalls⟩ := records_recordAt offer depth [] root s []
    rw [show (editAt offer depth [] root).run.run s = _ from h] at hcalls
    obtain ⟨_, more, rfl, hmore, htrace, hpaths⟩ :=
      editsPlaces_recordAt offer depth _ _ _ isPlace_root _ _ _ _ _ _ hcalls
    cases hmore
    have hpaths : calls.map Offer.path = root'.positions := by
      rw [hpaths]
      simp
    refine ⟨calls, hcalls, htrace, hpaths, nodup_positions root', fun hkeeps => ?_⟩
    obtain ⟨hsame, hvisits⟩ :
        root' = root ∧ ∀ call ∈ calls, root.visit? call.path = some call.visit :=
      hkeeps.unchanged htrace
    subst hsame
    have hwalk : (calls.map Offer.visit).map some = root'.walk.map some := by
      rw [walk_eq, ← hpaths, List.map_map, List.map_map]
      exact List.map_congr_left fun call hcall => (hvisits call hcall).symm
    exact ⟨rfl, List.map_injective_iff.2 (Option.some_injective _) hwalk⟩
  · rw [edit_eq]
    exact hkeeps.returns_rewrite hanswers hdepth (fun _ => []) s

def secondSummed : Callback Nat Empty := fun _ _ => do
  let calls ← getModify (· + 1)
  pure (if calls = 1 then some (binary .add (literal "2") (literal "3")) else none)

def counted : Callback Nat Empty := fun _ _ => do
  modify (· + 1)
  pure none

theorem edit_topDown_pair :
    (∃ calls, (record secondSummed 3 (list [literal "1", literal "4"])).run.run (0, []) =
        (.ok (list [binary .add (literal "2") (literal "3"), literal "4"]), 5, calls) ∧
      calls.map Offer.path = [[], [0], [0, 0], [0, 1], [1]]) ∧
    ∃ n calls, (record counted 2 (list [literal "1", literal "4"])).run.run (0, []) =
        (.ok (list [literal "1", literal "4"]), n, calls) ∧
      calls.map Offer.visit = (list [literal "1", literal "4"]).walk := by
  constructor
  · obtain ⟨-, -, hreturns, -⟩ :=
      edit_topDown secondSummed 3 (list [literal "1", literal "4"]) 0
    obtain ⟨calls, hcalls, -, hpaths, -⟩ := hreturns _ _ rfl
    exact ⟨calls, hcalls, hpaths⟩
  · obtain ⟨-, -, hreturns, hkeeps⟩ :=
      edit_topDown counted 2 (list [literal "1", literal "4"]) 0
    have hcounted : Keeps counted := fun _ _ _ _ _ => nofun
    obtain ⟨n, hrun⟩ := hkeeps hcounted (fun _ _ n => ⟨none, n + 1, rfl⟩) (by decide)
    obtain ⟨calls, hcalls, -, -, -, hkept⟩ := hreturns _ _ hrun
    exact ⟨n, calls, hcalls, (hkept hcounted).2⟩

end BuildScript.Expr
