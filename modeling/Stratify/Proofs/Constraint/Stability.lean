import Stratify.Proofs.Constraint.Building

/-!
# Constraints that a solution already satisfies

A solution gives every variable the cheapest level that it has in any satisfying assignment, so
constraints that the solution happens to satisfy can be added without changing it. They may well
raise lower bounds, but only up to the levels that have been picked.
-/

namespace Stratify

namespace Solution

theorem get?_cons (key key' : String) (l : Level) (sol : Solution) :
    get? ((key', l) :: sol) key = if key' = key then some l else get? sol key := by
  by_cases h : key' = key <;> simp [get?, h]

theorem get?_eq_none {sol : Solution} {key : String} (h : key ∉ sol.map Prod.fst) :
    sol.get? key = none := by
  rw [get?, Option.map_eq_none_iff, List.find?_eq_none]
  rintro e he heq
  exact h (List.mem_map.mpr ⟨e, he, of_decide_eq_true heq⟩)

/-- A solution is known from its keys and what it says of them. -/
theorem eq_of_get?_eq {sol sol' : Solution} (hkeys : sol'.map Prod.fst = sol.map Prod.fst)
    (hnodup : (sol.map Prod.fst).Nodup)
    (h : ∀ key ∈ sol.map Prod.fst, sol'.get? key = sol.get? key) : sol' = sol := by
  induction sol generalizing sol' with
  | nil => exact List.map_eq_nil_iff.mp hkeys
  | cons e sol ih =>
      obtain ⟨⟨key, l⟩, rest, rfl, rfl, hrest⟩ := List.map_eq_cons_iff.mp hkeys
      obtain ⟨hnotMem, hnodup⟩ := List.nodup_cons.mp hnodup
      rw [List.map_cons, List.forall_mem_cons] at h
      have hl : l = e.2 := by
        have hfirst := h.1
        rwa [get?_cons, if_pos rfl, get?_cons, if_pos rfl, Option.some.injEq] at hfirst
      have hsame : rest = sol := by
        refine ih hrest hnodup fun key hkey ↦ ?_
        have hne : e.1 ≠ key := fun heq ↦ hnotMem (heq ▸ hkey)
        have hlater := h.2 key hkey
        rwa [get?_cons, if_neg hne, get?_cons, if_neg hne] at hlater
      rw [hl, hsame]

end Solution

namespace LevelSystem

variable {s s' : LevelSystem Level} {sol : Solution}

theorem has_iff_mem_keys {key : String} : s.has key = true ↔ key ∈ s.vertices.map Vertex.key := by
  simp [has]

/-- A variable that is in no constraint gets the level of the best performance. -/
theorem level_eq_data_of_solve_eq_ok (hclosed : s.Closed) {key : String}
    (hkey : ∀ c ∈ s.constraints, c.lo ≠ .var key ∧ c.hi ≠ .var key) (h : s.solve = .ok sol) :
    sol.level key = .data := by
  obtain ⟨hsat, hbest⟩ := solve_ok_spec hclosed h
  by_cases hhas : s.has key = true
  · -- The solution stays one if the level of the variable becomes `data`.
    have hlevel (t : Term Level) (ht : t ≠ .var key) :
        t.level (Function.update sol.level key .data) = t.level sol.level := by
      cases t with
      | const l => rfl
      | var k => exact Function.update_of_ne (fun hk ↦ ht (congrArg Term.var hk)) ..
    have hsat' : s.SatisfiedBy (Function.update sol.level key .data) := by
      intro c hc
      rw [Constraint.Holds, hlevel _ (hkey c hc).1, hlevel _ (hkey c hc).2]
      exact hsat c hc
    have hrank := (hbest key hhas).2 _ hsat'
    rw [Function.update_self] at hrank
    exact Order.performance.rank_injective (Nat.le_zero.mp hrank)
  · rw [Solution.level, Solution.get?_eq_none, Option.getD_none]
    rwa [keys_of_solve_eq_ok hclosed h, ← has_iff_mem_keys]

/-- Constraints that a solution satisfies do not change it. -/
theorem Proper.solve_eq_ok_of_extends (hs : s.Proper) (hs' : s'.Closed)
    (hvertices : s'.vertices = s.vertices) (hextends : ∀ ρ, s'.SatisfiedBy ρ → s.SatisfiedBy ρ)
    (h : s.solve = .ok sol) (hsol : s'.SatisfiedBy sol.level) : s'.solve = .ok sol := by
  obtain ⟨sol', h'⟩ := (solve_isOk_iff hs').mpr ⟨_, hsol⟩
  have hkeys := keys_of_solve_eq_ok hs.closed h
  have hkeys' := keys_of_solve_eq_ok hs' h'
  rw [hvertices, ← hkeys] at hkeys'
  have hget : ∀ key ∈ sol.map Prod.fst, sol'.get? key = sol.get? key := by
    intro key hkey
    rw [hkeys, ← has_iff_mem_keys] at hkey
    have hkey' : s'.has key = true := by rwa [has, hvertices]
    obtain ⟨-, hbest⟩ := solve_ok_spec hs.closed h
    obtain ⟨hsat', hbest'⟩ := solve_ok_spec hs' h'
    -- Each of the two solutions is a solution for the other system, and so not the cheaper one.
    have hlevel : sol'.level key = sol.level key := by
      refine Order.performance.rank_injective (le_antisymm ?_ ?_)
      · exact (hbest' key hkey').2 _ hsol
      · exact (hbest key hkey).2 _ (hextends _ hsat')
    rw [(hbest key hkey).1, (hbest' key hkey').1, hlevel]
  rw [h', Solution.eq_of_get?_eq hkeys' (hkeys ▸ hs.nodup) hget]

end LevelSystem

end Stratify
