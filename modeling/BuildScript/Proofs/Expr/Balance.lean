import BuildScript.Text.Classes
import Mathlib

/-!
Marks: what is written in a text, without what is written for the eye. A row of marks is divided by
its round brackets: up to a mark that is none, if two rows differ in nothing else
(`append_cons_inj`), and in front of the last bracket (`Balanced.append_wrap_inj`).
-/
namespace BuildScript

/-- A character that is written, or a whole string. -/
inductive Mark where
  | char (x : Char)
  | text (value : String)
deriving DecidableEq

namespace Mark

def ofWord (w : List Char) : List Mark := (w.filter fun x => !isBlank x).map char

def commas : List (List Mark) → List Mark
  | [] => []
  | item :: items => item ++ items.flatMap fun item => char ',' :: item

def isRound : Mark → Bool
  | char x => x == '(' || x == ')'
  | text _ => false

/-- What is left without round brackets. -/
def core (ms : List Mark) : List Mark := ms.filter fun m => !m.isRound

theorem commas_singleton (item : List Mark) : commas [item] = item :=
  List.append_nil item

theorem commas_cons_cons (first next : List Mark) (others : List (List Mark)) :
    commas (first :: next :: others) = first ++ char ',' :: commas (next :: others) := by
  rw [commas, List.flatMap_cons, commas, List.cons_append]

theorem ofWord_cons {x : Char} (h : isBlank x = false) (w : List Char) :
    ofWord (x :: w) = char x :: ofWord w := by
  rw [ofWord, List.filter_cons_of_pos (by simp [h])]
  rfl

theorem core_append (us vs : List Mark) : core (us ++ vs) = core us ++ core vs :=
  List.filter_append ..

theorem core_cons (m : Mark) (ms : List Mark) : core (m :: ms) = core [m] ++ core ms :=
  core_append [m] ms

theorem core_core (ms : List Mark) : core (core ms) = core ms := by
  simp [core]

theorem core_commas (items : List (List Mark)) :
    core (commas (items.map core)) = core (commas items) := by
  induction items with
  | nil => rfl
  | cons first others ih =>
    cases others with
    | nil => rw [List.map_singleton, commas_singleton, commas_singleton, core_core]
    | cons next others =>
      rw [List.map_cons, List.map_cons, commas_cons_cons, commas_cons_cons, core_append, core_core,
        core_append, core_cons, core_cons _ (commas (next :: others)), ← ih, List.map_cons]

/-- Two ways to divide a list are one if neither can be the later one. -/
theorem append_inj_of {us us' vs vs' : List Mark} (h : us ++ vs = us' ++ vs')
    (hleft : ∀ ws, us' = us ++ ws → vs = ws ++ vs' → ws = [])
    (hright : ∀ ws, us = us' ++ ws → vs' = ws ++ vs → ws = []) : us = us' := by
  rcases List.append_eq_append_iff.1 h with ⟨ws, hus, hvs⟩ | ⟨ws, hus, hvs⟩
  · rw [hus, hleft ws hus hvs, List.append_nil]
  · rw [hus, hright ws hus hvs, List.append_nil]

theorem append_cons_inj {us us' vs vs' : List Mark} {m : Mark} (hm : m.isRound = false)
    (hcore : core us = core us') (h : us ++ m :: vs = us' ++ m :: vs') : us = us' := by
  have shorter {us us' ws vs vs' : List Mark} (hcore : core us = core us') (hus : us' = us ++ ws)
      (hvs : m :: vs = ws ++ vs') : ws = [] := by
    cases ws with
    | nil => rfl
    | cons w ws =>
      obtain ⟨rfl, -⟩ := List.cons.inj hvs
      rw [hus, core_append, List.self_eq_append_right, core_cons] at hcore
      simp [core, hm] at hcore
  exact append_inj_of h (fun ws => shorter hcore) fun ws => shorter hcore.symm

structure Balanced (ms : List Mark) : Prop where
  total : ms.count (char ')') = ms.count (char '(')
  sound : ∀ us vs, ms = us ++ vs → us.count (char ')') ≤ us.count (char '(')

namespace Balanced
variable {us vs ms : List Mark}

theorem of_plain (h : ∀ m ∈ ms, m.isRound = false) : Balanced ms := by
  have hzero {us : List Mark} (h : ∀ m ∈ us, m.isRound = false) :
      us.count (char ')') = 0 ∧ us.count (char '(') = 0 :=
    ⟨List.count_eq_zero.2 fun hm => absurd (h _ hm) (by decide),
      List.count_eq_zero.2 fun hm => absurd (h _ hm) (by decide)⟩
  constructor
  · rw [(hzero h).1, (hzero h).2]
  · rintro us vs rfl
    rw [(hzero fun m hm => h m (List.mem_append_left _ hm)).1]
    exact Nat.zero_le _

theorem nil : Balanced [] := of_plain (by simp)

theorem append (hu : Balanced us) (hv : Balanced vs) : Balanced (us ++ vs) := by
  constructor
  · rw [List.count_append, List.count_append, hu.total, hv.total]
  · intro as bs h
    rcases List.append_eq_append_iff.1 h with ⟨ws, rfl, hws⟩ | ⟨ws, hws, -⟩
    · have := hv.sound ws bs hws
      have := hu.total
      rw [List.count_append, List.count_append]
      omega
    · exact hu.sound as ws hws

theorem cons {m : Mark} (hm : m.isRound = false) (h : Balanced ms) : Balanced (m :: ms) := by
  have hfirst : Balanced [m] := of_plain (List.forall_mem_singleton.2 hm)
  exact hfirst.append h

theorem wrap_open (h : Balanced ms) (hu : us ≠ []) (hv : vs ≠ [])
    (heq : char '(' :: (ms ++ [char ')']) = us ++ vs) :
    us.count (char ')') < us.count (char '(') := by
  cases us with
  | nil => exact absurd rfl hu
  | cons u us =>
    rw [List.cons_append, List.cons.injEq] at heq
    obtain ⟨rfl, heq⟩ := heq
    have hinner : us.count (char ')') ≤ us.count (char '(') := by
      rcases List.append_eq_append_iff.1 heq with ⟨ws, hws, hlast⟩ | ⟨ws, hws, -⟩
      · cases ws with
        | nil =>
          rw [hws, List.append_nil]
          exact h.sound ms [] (List.append_nil _).symm
        | cons w ws =>
          have : vs = [] := by
            have := congrArg List.length hlast
            rw [List.length_singleton, List.length_append, List.length_cons] at this
            exact List.length_eq_zero_iff.1 (by omega)
          exact absurd this hv
      · exact h.sound us ws hws
    rw [List.count_cons_of_ne (by decide), List.count_cons_self]
    omega

theorem wrap (h : Balanced ms) : Balanced (char '(' :: (ms ++ [char ')'])) := by
  have htotal : (char '(' :: (ms ++ [char ')'])).count (char ')') =
      (char '(' :: (ms ++ [char ')'])).count (char '(') := by
    have := h.total
    simp only [List.count_append, List.count_cons, List.count_nil]
    simp
    omega
  refine ⟨htotal, fun us vs heq => ?_⟩
  by_cases hu : us = []
  · exact hu ▸ Nat.le_refl _
  · by_cases hv : vs = []
    · rw [hv, List.append_nil] at heq
      exact heq ▸ Nat.le_of_eq htotal
    · exact Nat.le_of_lt (h.wrap_open hu hv heq)

theorem commas {items : List (List Mark)} (h : ∀ item ∈ items, Balanced item) :
    Balanced (Mark.commas items) := by
  induction items with
  | nil => exact nil
  | cons first others ih =>
    obtain ⟨hfirst, hothers⟩ := List.forall_mem_cons.1 h
    cases others with
    | nil => simpa [Mark.commas] using hfirst
    | cons next others =>
      rw [commas_cons_cons]
      exact hfirst.append (cons rfl (ih hothers))

/-- What stands before a bracket that reaches to the end is known from the whole. -/
theorem append_wrap_inj {us' ms' : List Mark} (hu : Balanced us) (hu' : Balanced us')
    (hm : Balanced ms) (hm' : Balanced ms')
    (h : us ++ char '(' :: (ms ++ [char ')']) = us' ++ char '(' :: (ms' ++ [char ')'])) :
    us = us' := by
  have shorter {us us' ws ms vs : List Mark} (hu : Balanced us) (hu' : Balanced us')
      (hm : Balanced ms) (hus : us' = us ++ ws) (hv : vs ≠ [])
      (hvs : char '(' :: (ms ++ [char ')']) = ws ++ vs) : ws = [] := by
    have htotal := hu'.total
    rw [hus, List.count_append, List.count_append, hu.total] at htotal
    rw [← Classical.not_not (a := ws = [])]
    intro hw
    have := hm.wrap_open hw hv hvs
    omega
  exact append_inj_of h (fun ws hus => shorter hu hu' hm hus (by simp))
    fun ws hus => shorter hu' hu hm' hus (by simp)

end Balanced

end Mark
end BuildScript
