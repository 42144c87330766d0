import Stratify.Proofs.Constraint.Provenance

/-!
# The loop of propagation ends at the tightest bounds

Propagation takes one variable after the other off its queue, as long as there is one. Here this
loop is looked at without any bound on its steps: as a relation between the states before and after
a turn. Every turn uses up some of the budget, so no sequence of turns is longer than the budget of
the state it starts from; and as a turn leaves no choice, the loop has one end only. There every
bound is the tightest of those that the constraints imply, along cycles, loops and repeated
inequalities as along any others.
-/

namespace Stratify

namespace Progress

variable {n : Network} {p q : Progress}

/-- One turn of the loop: the first variable of the queue passes its bounds on. -/
def Turn (n : Network) (p q : Progress) : Prop :=
  ∃ i rest, p.queue = i :: rest ∧ q = { p with queue := rest }.visit n i

theorem Turn.size_eq (h : Turn n p q) : q.ranges.size = p.ranges.size := by
  obtain ⟨i, rest, -, rfl⟩ := h
  exact (visit_grows n { p with queue := rest } i).size_eq

theorem Turn.budget_lt (h : Turn n p q) (hbounds : InBounds n p.ranges.size) :
    q.budget < p.budget := by
  obtain ⟨i, rest, hqueue, rfl⟩ := h
  exact visit_budget_lt hbounds hqueue

theorem Turn.run_succ (h : Turn n p q) (fuel : Nat) : run n (fuel + 1) p = run n fuel q := by
  obtain ⟨i, rest, hqueue, rfl⟩ := h
  rw [run, hqueue]

theorem run_of_queue_eq_nil (h : p.queue = []) (fuel : Nat) : run n fuel p = p := by
  cases fuel with
  | zero => rfl
  | succ fuel => rw [run, h]

/-- The budget bounds the number of turns. -/
theorem length_turns_le {turns : List Progress} (h : (p :: turns).IsChain (Turn n))
    (hbounds : InBounds n p.ranges.size) : turns.length ≤ p.budget := by
  induction turns generalizing p with
  | nil => exact Nat.zero_le _
  | cons q turns ih =>
      obtain ⟨hturn, hrest⟩ := List.isChain_cons_cons.mp h
      have hle := ih hrest (hturn.size_eq ▸ hbounds)
      have hlt := hturn.budget_lt hbounds
      rw [List.length_cons]
      omega

theorem reflTransGen_turn_run (fuel : Nat) (p : Progress) :
    Relation.ReflTransGen (Turn n) p (run n fuel p) := by
  induction fuel generalizing p with
  | zero => exact .refl
  | succ fuel ih =>
      cases hqueue : p.queue with
      | nil =>
          rw [run_of_queue_eq_nil hqueue]
      | cons i rest =>
          have hturn : Turn n p ({ p with queue := rest }.visit n i) := ⟨i, rest, hqueue, rfl⟩
          rw [hturn.run_succ]
          exact .head hturn (ih _)

/-- Wherever the loop ends, that is where a run with enough fuel ends. -/
theorem eq_run_of_reflTransGen (h : Relation.ReflTransGen (Turn n) p q) (hq : q.queue = [])
    {fuel : Nat} (hbounds : InBounds n p.ranges.size) (hfuel : p.budget ≤ fuel) :
    q = run n fuel p := by
  induction h using Relation.ReflTransGen.head_induction_on generalizing fuel with
  | refl => exact (run_of_queue_eq_nil hq fuel).symm
  | head hturn _ ih =>
      have hlt := hturn.budget_lt hbounds
      obtain _ | fuel := fuel
      · omega
      · rw [hturn.run_succ]
        exact ih (hturn.size_eq ▸ hbounds) (by omega)

end Progress

namespace LevelSystem

/-- The state in which the loop starts: what the constants impose, and all variables queued. -/
def start (s : LevelSystem Level) : Progress :=
  ⟨s.imposed, List.range s.size⟩

/-- The loop can only end in the state that propagation returns. -/
theorem ends_iff {s : LevelSystem Level} {q : Progress} :
    (Relation.ReflTransGen (Progress.Turn s.network) s.start q ∧ q.queue = []) ↔
      q = Progress.run s.network (5 * s.size) s.start := by
  constructor
  · rintro ⟨hturns, hqueue⟩
    exact Progress.eq_run_of_reflTransGen hturns hqueue network_inBounds start_budget_le
  · rintro rfl
    exact ⟨Progress.reflTransGen_turn_run _ _,
      Progress.run_queue_eq_nil _ network_inBounds start_budget_le⟩

/-- However a system has been built, the loop of propagation comes to an end, after no more than
five turns for each variable. In the state at its end, the lower bound of a variable is the greatest
of `data` and of the constants imposed from below on variables from which there is a path of
inequalities to this one; its upper bound is the least of `genquant` and of the constants imposed
from above on variables to which there is a path from this one. -/
theorem propagation_ends_exact (ops : List Operation) :
    (∀ turns, ((built ops).start :: turns).IsChain (Progress.Turn (built ops).network) →
      turns.length ≤ 5 * (built ops).size) ∧
    ∃ last : Progress,
      (∀ q, (Relation.ReflTransGen (Progress.Turn (built ops).network) (built ops).start q ∧
        q.queue = []) ↔ q = last) ∧
      last.ranges = (built ops).propagated ∧
      ∀ i v, (built ops).vertices[i]? = some v →
        IsGreatest ((built ops).impliedLower v.key) (last.range i).lower.level ∧
          IsLeast ((built ops).impliedUpper v.key) (last.range i).upper.level := by
  have hproper := proper_built ops
  refine ⟨fun turns hturns ↦ ?_, _, fun _ ↦ ends_iff, rfl, fun i v hv ↦ ?_⟩
  · exact (Progress.length_turns_le hturns network_inBounds).trans start_budget_le
  · exact ⟨hproper.isGreatest_lower hv, hproper.isLeast_upper hv⟩

/-- Around a cycle, with a loop and a repeated inequality on it, all bounds are the same. -/
example :
    ((built [.flow "a" "b" "", .flow "b" "a" "", .flow "b" "b" "", .flow "a" "b" "",
        .flow "b" "c" "", .atLeast "a" .model "", .atMost "b" .model ""]).propagated.toList.map
      fun r ↦ (r.lower.level, r.upper.level)) =
    [(.model, .model), (.model, .model), (.model, .genquant)] := by
  decide

end LevelSystem

end Stratify
