import Mathlib.Data.List.Sort
import Mathlib.Data.String.Basic
import Stratify.Calls.Size
import Stratify.Proofs.Inlining.Relation

/-!
# The order of the functions in a call graph

If no name is defined twice, then the order of the definitions does not matter to a call graph. Its
checks go through the functions in the order of their names, and look up calls by name, so they even
report the same problem.
-/

namespace Stratify

namespace CallGraph

variable {g g' : CallGraph}

/-- Two graphs cannot be told apart by listing the names of the functions or looking up calls. -/
structure SameCalls (g g' : CallGraph) : Prop where
  names : g'.names = g.names
  isUser : ∀ fn, g'.isUser fn = g.isUser fn
  userCalls : ∀ fn, g'.userCalls fn = g.userCalls fn

theorem eraseDups_of_nodup {names : List String} (h : names.Nodup) : names.eraseDups = names := by
  induction names with
  | nil => rfl
  | cons name names ih =>
      obtain ⟨hnotMem, hnodup⟩ := List.nodup_cons.mp h
      have hfilter : (names.filter fun b ↦ !b == name) = names := by
        refine List.filter_eq_self.mpr fun b hb ↦ ?_
        have hne : b ≠ name := fun heq ↦ hnotMem (heq ▸ hb)
        simpa using hne
      rw [List.eraseDups_cons, hfilter, ih hnodup]

theorem func?_of_perm (h : g'.funcs.Perm g.funcs) (hnodup : (g.funcs.map Func.name).Nodup)
    (fn : String) : g'.func? fn = g.func? fn := by
  have hnodup' : (g'.funcs.map Func.name).Nodup := (h.map Func.name).nodup_iff.mpr hnodup
  refine Option.ext fun f ↦ ?_
  rw [func?_eq_some_iff hnodup', func?_eq_some_iff hnodup, h.mem_iff]

theorem sameCalls_of_perm (h : g'.funcs.Perm g.funcs) (hnodup : (g.funcs.map Func.name).Nodup) :
    SameCalls g g' := by
  have hfunc := func?_of_perm h hnodup
  have hperm : (g'.funcs.map Func.name).Perm (g.funcs.map Func.name) := h.map Func.name
  have hnodup' : (g'.funcs.map Func.name).Nodup := hperm.nodup_iff.mpr hnodup
  refine ⟨?_, fun fn ↦ by simp only [isUser, hfunc], fun fn ↦ by
    simp only [userCalls, isUser, hfunc]⟩
  rw [names, names, eraseDups_of_nodup hnodup, eraseDups_of_nodup hnodup']
  refine List.Perm.eq_of_pairwise' (List.pairwise_mergeSort' (· ≤ ·) _)
    (List.pairwise_mergeSort' (· ≤ ·) _) ?_
  exact ((List.mergeSort_perm _ _).trans hperm).trans (List.mergeSort_perm _ _).symm

theorem SameCalls.visit (h : SameCalls g g') (limit : Int) (fuel : Nat) :
    g'.visit limit fuel = g.visit limit fuel := by
  induction fuel with
  | zero =>
      funext chain fn via ds
      rfl
  | succ fuel ih =>
      funext chain fn via ds
      simp only [CallGraph.visit, firstCalls, h.userCalls, ih]

theorem SameCalls.checkDepth (h : SameCalls g g') (limit : Int) :
    g'.checkDepth limit = g.checkDepth limit := by
  simp only [CallGraph.checkDepth, h.names, h.visit]

theorem SameCalls.sizesTo (h : SameCalls g g') (limit : Int64) (depth : Nat) :
    g'.sizesTo limit depth = g.sizesTo limit depth := by
  induction depth with
  | zero => rfl
  | succ depth ih => simp only [CallGraph.sizesTo, h.names, h.userCalls, ih]

theorem SameCalls.checkSize (h : SameCalls g g') (ss : List Stmt) (limit : Int) :
    g'.checkSize ss limit = g.checkSize ss limit := by
  simp only [CallGraph.checkSize, sizes, h.names, h.sizesTo, h.isUser]

end CallGraph

end Stratify
