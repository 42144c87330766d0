import Stratify.Constraint.Solution
import Stratify.Proofs.Constraint.Propagation

/-!
# The solver finds the cheapest solution

An assignment of levels to keys satisfies a system if all its inequalities hold. The solver
succeeds exactly when there is such an assignment; its solution is one of them, and no other gives
a variable a cheaper level. When it fails, it reports an inconsistency and never a violation of
its own.
-/

namespace Stratify

namespace Term

/-- The level of a term under an assignment. -/
def level (ρ : String → Level) : Term Level → Level
  | var key => ρ key
  | const l => l

end Term

namespace Constraint

def Holds (ρ : String → Level) (c : Constraint Level) : Prop :=
  c.lo.level ρ ≤ c.hi.level ρ

end Constraint

namespace LevelSystem

variable {s : LevelSystem Level}

def SatisfiedBy (s : LevelSystem Level) (ρ : String → Level) : Prop :=
  ∀ c ∈ s.constraints, c.Holds ρ

def Knows (s : LevelSystem Level) : Term Level → Prop
  | .var key => s.has key = true
  | .const _ => True

/-- Constraints are only about the variables of the system. -/
def Closed (s : LevelSystem Level) : Prop :=
  ∀ c ∈ s.constraints, s.Knows c.lo ∧ s.Knows c.hi

theorem exists_index?_of_has {key : String} (h : s.has key = true) :
    ∃ i, s.index? key = some i := by
  unfold has at h
  unfold index?
  rw [← Option.isSome_iff_exists, List.findIdx?_isSome]
  exact h

/-! ### Reading the picked levels -/

theorem get?_map_zip (key : String) (vs : List Vertex) (rs : List Range)
    (hlen : vs.length = rs.length) {i : Nat}
    (hi : (vs.findIdx? fun v ↦ v.key == key) = some i) :
    Solution.get? ((vs.zip rs).map fun p ↦ (p.1.key, p.2.interval.cheapest)) key =
      rs[i]?.map fun r ↦ r.interval.cheapest := by
  induction vs generalizing rs i with
  | nil => simp at hi
  | cons v vs ih =>
      cases rs with
      | nil => simp at hlen
      | cons r rs =>
          by_cases hv : v.key = key
          · have hi0 : i = 0 := by simpa [List.findIdx?_cons, hv] using hi.symm
            subst hi0
            simp [Solution.get?, hv]
          · obtain ⟨j, hj, rfl⟩ : ∃ j, (vs.findIdx? fun v ↦ v.key == key) = some j ∧ j + 1 = i := by
              simpa [List.findIdx?_cons, hv] using hi
            have hrest := ih rs (by simpa using hlen) hj
            simpa [Solution.get?, hv] using hrest

theorem get?_picked {rs : Array Range} (hsize : rs.size = s.size) {key : String} {i : Nat}
    (hi : s.index? key = some i) :
    (s.picked rs).get? key = some (rangeAt rs i).interval.cheapest := by
  have hlt : i < rs.size := hsize ▸ index?_lt hi
  rw [picked, get?_map_zip key s.vertices rs.toList (by simpa [size] using hsize.symm) hi]
  simp [rangeAt, hlt, Array.getD_eq_getD_getElem?]

theorem level_picked {rs : Array Range} (hsize : rs.size = s.size) {key : String} {i : Nat}
    (hi : s.index? key = some i) :
    (s.picked rs).level key = (rangeAt rs i).interval.cheapest := by
  rw [Solution.level, get?_picked hsize hi, Option.getD_some]

/-! ### The outcome of solving -/

theorem checkConstants_ok_iff (cs : List (Constraint Level)) :
    Constraint.checkConstants cs = .ok () ↔
      ∀ c ∈ cs, ∀ lo hi, c.lo = .const lo → c.hi = .const hi → lo ≤ hi := by
  induction cs with
  | nil => simp [Constraint.checkConstants]
  | cons c cs ih =>
      unfold Constraint.checkConstants
      split
      · next lo hi hlo hhi =>
          by_cases hlt : hi < lo
          · simp only [Order.less_correctness.mpr hlt, if_true]
            constructor
            · intro h
              cases h
            · intro h
              exact absurd (h c (List.mem_cons_self ..) lo hi hlo hhi) (not_le.mpr hlt)
          · rw [if_neg (by simpa using hlt), ih]
            constructor
            · rintro h d hd lo' hi' hlo' hhi'
              rcases List.mem_cons.mp hd with rfl | hmem
              · have hlo'' : lo = lo' := by simpa [hlo] using hlo'
                have hhi'' : hi = hi' := by simpa [hhi] using hhi'
                exact hlo'' ▸ hhi'' ▸ not_lt.mp hlt
              · exact h d hmem lo' hi' hlo' hhi'
            · intro h d hd
              exact h d (List.mem_cons_of_mem c hd)
      · next hnot =>
          rw [ih]
          constructor
          · rintro h d hd lo' hi' hlo' hhi'
            rcases List.mem_cons.mp hd with rfl | hmem
            · exact (hnot lo' hi' hlo' hhi').elim
            · exact h d hmem lo' hi' hlo' hhi'
          · intro h d hd
            exact h d (List.mem_cons_of_mem c hd)

theorem checkConstants_error {cs : List (Constraint Level)} {d : Diagnostic}
    (h : Constraint.checkConstants cs = .error d) :
    d.issue.kind = .inconsistentLevelConstraints := by
  induction cs with
  | nil => simp [Constraint.checkConstants] at h
  | cons c cs ih =>
      unfold Constraint.checkConstants at h
      split at h
      · split at h
        · cases h
          rfl
        · exact ih h
      · exact ih h

theorem firstEmpty?_eq_none_iff {rs : Array Range} (hsize : rs.size = s.size) :
    s.firstEmpty? rs = none ↔
      ∀ i < s.size, (rangeAt rs i).lower.level ≤ (rangeAt rs i).upper.level := by
  have hnone : s.firstEmpty? rs = none ↔ s.emptyVertices rs = [] := by
    unfold firstEmpty?
    rw [Option.or_eq_none_iff, List.head?_eq_none_iff]
    exact ⟨fun h ↦ h.2, fun h ↦ ⟨by simp [h], h⟩⟩
  rw [hnone, emptyVertices, List.filter_eq_nil_iff]
  have hlen : s.vertices.length = rs.toList.length := by simpa [size] using hsize.symm
  constructor
  · intro h i hi
    have hirs : i < rs.size := hsize ▸ hi
    have hmem : (s.vertices[i], rs[i]) ∈ s.vertices.zip rs.toList := by
      have hi' : i < (s.vertices.zip rs.toList).length := by
        rw [List.length_zip, ← hlen, Nat.min_self]
        exact hi
      exact List.mem_iff_getElem.mpr ⟨i, hi', List.getElem_zip⟩
    have hempty := h _ hmem
    rw [Interval.empty_iff, not_lt] at hempty
    simpa [rangeAt, Range.interval, Array.getD_eq_getD_getElem?, hirs] using hempty
  · rintro h ⟨v, r⟩ hp
    obtain ⟨i, hi, hget⟩ := List.mem_iff_getElem.mp hp
    have his : i < s.size := by
      have := List.length_zip ▸ hi
      unfold size
      omega
    have hirs : i < rs.size := hsize ▸ his
    have hr : rs[i] = r := by simpa using congrArg Prod.snd hget
    have hle := h i his
    rw [Interval.empty_iff, not_lt]
    simpa [rangeAt, Range.interval, Array.getD_eq_getD_getElem?, hirs, hr] using hle

theorem checkSolution_ok_iff (sol : Solution) (cs : List (Constraint Level)) :
    checkSolution sol cs = .ok () ↔ ∀ c ∈ cs, c.Holds sol.level := by
  have hsat (c : Constraint Level) : sol.satisfies c = true ↔ c.Holds sol.level := by
    have hvalue (t : Term Level) : sol.value t = t.level sol.level := by cases t <;> rfl
    rw [Solution.satisfies, Order.lessEq_correctness, hvalue, hvalue, Constraint.Holds]
  induction cs with
  | nil => simp [checkSolution]
  | cons c cs ih =>
      unfold checkSolution
      by_cases hc : sol.satisfies c = true
      · rw [if_pos hc, List.forall_mem_cons, ← hsat c]
        exact ⟨fun h ↦ ⟨hc, ih.mp h⟩, fun h ↦ ih.mpr h.2⟩
      · rw [if_neg hc, List.forall_mem_cons, ← hsat c]
        exact ⟨fun h ↦ (by cases h), fun h ↦ absurd h.1 hc⟩

/-- If no range is empty, the cheapest levels of the ranges satisfy all that does not compare
constants. -/
theorem picked_satisfies (hclosed : s.Closed)
    (hconst : ∀ c ∈ s.constraints, ∀ lo hi, c.lo = .const lo → c.hi = .const hi → lo ≤ hi)
    (hne : ∀ i < s.size,
      (rangeAt s.propagated i).lower.level ≤ (rangeAt s.propagated i).upper.level) :
    s.SatisfiedBy (s.picked s.propagated).level := by
  intro c hc
  obtain ⟨hlo, hhi⟩ := hclosed c hc
  unfold Constraint.Holds
  cases hcl : c.lo with
  | const lo =>
      cases hch : c.hi with
      | const hi => exact hconst c hc lo hi hcl hch
      | var key =>
          obtain ⟨i, hi⟩ : ∃ i, s.index? key = some i :=
            exists_index?_of_has (by rwa [hch] at hhi)
          change lo ≤ (s.picked s.propagated).level key
          rw [level_picked size_propagated hi]
          calc
            lo ≤ (rangeAt s.imposed i).lower.level := le_lower_imposed hc hcl hch hi
            _ ≤ (rangeAt s.propagated i).lower.level := (propagated_tightens i).lower_le
            _ ≤ (rangeAt s.propagated i).interval.cheapest :=
              (Interval.cheapest_mem (i := (rangeAt s.propagated i).interval)
                (hne i (index?_lt hi))).1
  | var key =>
      obtain ⟨i, hi⟩ : ∃ i, s.index? key = some i :=
        exists_index?_of_has (by rwa [hcl] at hlo)
      change (s.picked s.propagated).level key ≤ _
      rw [level_picked size_propagated hi]
      cases hch : c.hi with
      | const l =>
          change _ ≤ l
          calc
            (rangeAt s.propagated i).interval.cheapest ≤ (rangeAt s.propagated i).upper.level :=
              (Interval.cheapest_mem (i := (rangeAt s.propagated i).interval)
                (hne i (index?_lt hi))).2
            _ ≤ (rangeAt s.imposed i).upper.level := (propagated_tightens i).upper_le
            _ ≤ l := upper_imposed_le hc hcl hch hi
      | var key' =>
          obtain ⟨j, hj⟩ : ∃ j, s.index? key' = some j :=
            exists_index?_of_has (by rwa [hch] at hhi)
          change _ ≤ (s.picked s.propagated).level key'
          rw [level_picked size_propagated hj]
          have hedge := propagated_edge (mem_edges.mpr ⟨c, hc, key, key', hcl, hch, hi, hj⟩)
          exact Interval.cheapest_mono hedge.1 hedge.2 (hne i (index?_lt hi)) (hne j (index?_lt hj))

def keyAt (s : LevelSystem Level) (i : Nat) : String :=
  (s.vertices[i]?.map Vertex.key).getD ""

theorem keyAt_index? {key : String} {i : Nat} (h : s.index? key = some i) : s.keyAt i = key := by
  obtain ⟨hi, hkey, -⟩ := List.findIdx?_eq_some_iff_getElem.mp h
  simpa [keyAt, hi] using hkey

/-- The propagated bounds hold of every assignment that satisfies the system. -/
theorem SatisfiedBy.brackets {ρ : String → Level} (h : s.SatisfiedBy ρ) (i : Nat) :
    (rangeAt s.propagated i).lower.level ≤ ρ (s.keyAt i) ∧
      ρ (s.keyAt i) ≤ (rangeAt s.propagated i).upper.level := by
  have hedges : ∀ a b, (a, b) ∈ s.edges → ρ (s.keyAt a) ≤ ρ (s.keyAt b) := by
    intro a b he
    obtain ⟨c, hc, lo, hi, hlo, hhi, ha, hb⟩ := mem_edges.mp he
    have hholds := h c hc
    rw [Constraint.Holds, hlo, hhi] at hholds
    rwa [keyAt_index? ha, keyAt_index? hb]
  have hconst : s.ObeysConstants (fun i ↦ ρ (s.keyAt i)) (fun i ↦ ρ (s.keyAt i)) := by
    constructor
    · intro c hc l key i hlo hhi hi
      have hholds := h c hc
      rw [Constraint.Holds, hlo, hhi] at hholds
      rwa [keyAt_index? hi]
    · intro c hc l key i hlo hhi hi
      have hholds := h c hc
      rw [Constraint.Holds, hlo, hhi] at hholds
      rwa [keyAt_index? hi]
  exact propagated_brackets hconst hedges hedges i

/-- Solving either reports an inconsistency, and then nothing satisfies the system, or picks a
solution. -/
theorem solve_cases (hclosed : s.Closed) :
    (∃ d, s.solve = .error d ∧ d.issue.kind = .inconsistentLevelConstraints ∧
        ¬ ∃ ρ, s.SatisfiedBy ρ) ∨
      (s.solve = .ok (s.picked s.propagated) ∧
        s.SatisfiedBy (s.picked s.propagated).level) := by
  cases hcheck : Constraint.checkConstants s.constraints with
  | error d =>
      refine Or.inl ⟨d, by simp [solve, hcheck, bind, Except.bind], checkConstants_error hcheck, ?_⟩
      rintro ⟨ρ, hρ⟩
      have hok : Constraint.checkConstants s.constraints = .ok () := by
        refine (checkConstants_ok_iff _).mpr fun c hc lo hi hlo hhi ↦ ?_
        have hholds := hρ c hc
        rwa [Constraint.Holds, hlo, hhi] at hholds
      rw [hcheck] at hok
      cases hok
  | ok u =>
      have hconst := (checkConstants_ok_iff _).mp hcheck
      cases hempty : s.firstEmpty? s.propagated with
      | some p =>
          obtain ⟨v, r⟩ := p
          refine Or.inl ⟨⟨.inconsistent v.display r.lower.code r.upper.code, v.source⟩,
            by simp [solve, hcheck, hempty, bind, Except.bind, throw, throwThe,
              MonadExceptOf.throw],
            rfl, ?_⟩
          rintro ⟨ρ, hρ⟩
          have hnone : s.firstEmpty? s.propagated = none :=
            (firstEmpty?_eq_none_iff size_propagated).mpr fun i _ ↦
              (hρ.brackets i).1.trans (hρ.brackets i).2
          rw [hempty] at hnone
          cases hnone
      | none =>
          have hne := (firstEmpty?_eq_none_iff size_propagated).mp hempty
          have hsat := picked_satisfies hclosed hconst hne
          have hsol := (checkSolution_ok_iff (s.picked s.propagated) s.constraints).mpr hsat
          refine Or.inr ⟨?_, hsat⟩
          simp [solve, hcheck, hempty, hsol, bind, Except.bind, pure, Except.pure]

theorem solve_isOk_iff (hclosed : s.Closed) :
    (∃ sol, s.solve = .ok sol) ↔ ∃ ρ, s.SatisfiedBy ρ := by
  rcases solve_cases hclosed with ⟨d, hd, -, hnone⟩ | ⟨hok, hsat⟩
  · constructor
    · rintro ⟨sol, hsol⟩
      rw [hd] at hsol
      cases hsol
    · intro h
      exact absurd h hnone
  · exact ⟨fun _ ↦ ⟨_, hsat⟩, fun _ ↦ ⟨_, hok⟩⟩

theorem solve_error_kind (hclosed : s.Closed) {d : Diagnostic} (h : s.solve = .error d) :
    d.issue.kind = .inconsistentLevelConstraints := by
  rcases solve_cases hclosed with ⟨d', hd', hkind, -⟩ | ⟨hok, -⟩
  · rw [h] at hd'
    cases hd'
    exact hkind
  · rw [h] at hok
    cases hok

/-- The solution satisfies the system, has a level for each of its variables, and no satisfying
assignment is cheaper anywhere. -/
theorem solve_ok_spec (hclosed : s.Closed) {sol : Solution} (h : s.solve = .ok sol) :
    s.SatisfiedBy sol.level ∧
      ∀ key, s.has key = true → sol.get? key = some (sol.level key) ∧
        ∀ ρ, s.SatisfiedBy ρ →
          Order.performance.rank (sol.level key) ≤ Order.performance.rank (ρ key) := by
  rcases solve_cases hclosed with ⟨d, hd, -⟩ | ⟨hok, hsat⟩
  · rw [h] at hd
    cases hd
  · rw [h] at hok
    cases hok
    refine ⟨hsat, fun key hkey ↦ ?_⟩
    obtain ⟨i, hi⟩ := exists_index?_of_has hkey
    refine ⟨by rw [level_picked size_propagated hi, get?_picked size_propagated hi], ?_⟩
    intro ρ hρ
    have hbrackets := hρ.brackets i
    rw [keyAt_index? hi] at hbrackets
    rw [level_picked size_propagated hi]
    exact Interval.rank_cheapest_le hbrackets.1 hbrackets.2

end LevelSystem

end Stratify
