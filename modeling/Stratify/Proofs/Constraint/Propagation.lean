import Mathlib.Algebra.Order.BigOperators.Group.Finset
import Stratify.Constraint.Propagation
import Stratify.Proofs.Level.Order

/-!
# Propagation reaches a fixpoint

Working off the queue passes bounds along the edges of a network. Two facts carry the proofs. A
variable whose range changes is put back into the queue, so the edges at variables outside the
queue always hold; and whatever is put into the queue has lost one of its at most four levels of
slack, so the queue runs empty within the steps it is given. Bounds that hold of some assignment
at the start hold of it until the end.
-/

namespace Stratify

namespace Range

/-- How many times the bounds of a range can still improve. -/
def slack (r : Range) : Nat :=
  (2 - Order.correctness.rank r.lower.level) + Order.correctness.rank r.upper.level

theorem slack_le (r : Range) : r.slack ≤ 4 := by
  have hupper := Order.correctness.rank_le_top r.upper.level
  simp only [slack, Order.top, Order.rank] at *
  omega

theorem raise?_eq_some {r r' : Range} {b : Bound Level} (h : r.raise? b = some r') :
    r.lower.level < b.level ∧ r' = { r with lower := b } := by
  unfold raise? at h
  split at h
  · next hlt => exact ⟨Order.less_correctness.mp hlt, (Option.some.inj h).symm⟩
  · cases h

theorem raise?_eq_none {r : Range} {b : Bound Level} (h : r.raise? b = none) :
    b.level ≤ r.lower.level := by
  unfold raise? at h
  split at h
  · cases h
  · next hlt => exact not_lt.mp fun hlt' ↦ hlt (Order.less_correctness.mpr hlt')

theorem cap?_eq_some {r r' : Range} {b : Bound Level} (h : r.cap? b = some r') :
    b.level < r.upper.level ∧ r' = { r with upper := b } := by
  unfold cap? at h
  split at h
  · next hlt => exact ⟨Order.less_correctness.mp hlt, (Option.some.inj h).symm⟩
  · cases h

theorem cap?_eq_none {r : Range} {b : Bound Level} (h : r.cap? b = none) :
    r.upper.level ≤ b.level := by
  unfold cap? at h
  split at h
  · cases h
  · next hlt => exact not_lt.mp fun hlt' ↦ hlt (Order.less_correctness.mpr hlt')

/-- A range that is at least as tight as another one. -/
structure Tightens (r r' : Range) : Prop where
  lower_le : r.lower.level ≤ r'.lower.level
  upper_le : r'.upper.level ≤ r.upper.level

theorem Tightens.refl (r : Range) : r.Tightens r :=
  ⟨le_rfl, le_rfl⟩

theorem Tightens.trans {r₁ r₂ r₃ : Range} (h₁ : r₁.Tightens r₂) (h₂ : r₂.Tightens r₃) :
    r₁.Tightens r₃ :=
  ⟨h₁.lower_le.trans h₂.lower_le, h₂.upper_le.trans h₁.upper_le⟩

theorem raise?_tightens {r r' : Range} {b : Bound Level} (h : r.raise? b = some r') :
    r.Tightens r' ∧ r'.slack < r.slack := by
  obtain ⟨hlt, rfl⟩ := raise?_eq_some h
  refine ⟨⟨hlt.le, le_rfl⟩, ?_⟩
  have hrank := Level.lt_def.mp hlt
  have htop := Order.correctness.rank_le_top b.level
  simp only [slack, Order.top, Order.rank] at *
  omega

theorem cap?_tightens {r r' : Range} {b : Bound Level} (h : r.cap? b = some r') :
    r.Tightens r' ∧ r'.slack < r.slack := by
  obtain ⟨hlt, rfl⟩ := cap?_eq_some h
  refine ⟨⟨le_rfl, hlt.le⟩, ?_⟩
  have hrank := Level.lt_def.mp hlt
  simp only [slack] at *
  omega

end Range

namespace LevelSystem

theorem rangeAt_setIfInBounds (rs : Array Range) (i j : Nat) (r : Range) :
    rangeAt (rs.setIfInBounds i r) j =
      if i = j ∧ j < rs.size then r else rangeAt rs j := by
  unfold rangeAt
  rw [Array.getD_eq_getD_getElem?, Array.getD_eq_getD_getElem?, Array.getElem?_setIfInBounds]
  by_cases hij : i = j
  · subst hij
    by_cases hi : i < rs.size <;> simp [hi]
  · simp [hij]

end LevelSystem

namespace Progress

/-! ### One improvement -/

/-- What any number of improvements may do to the state. -/
structure Grows (p q : Progress) : Prop where
  size_eq : q.ranges.size = p.ranges.size
  tightens : ∀ i, (p.range i).Tightens (q.range i)
  queue_subset : ∀ i ∈ p.queue, i ∈ q.queue
  range_eq : ∀ i, i ∉ q.queue → q.range i = p.range i

theorem Grows.refl (p : Progress) : p.Grows p where
  size_eq := rfl
  tightens _ := Range.Tightens.refl _
  queue_subset _ h := h
  range_eq _ _ := rfl

theorem Grows.trans {p q r : Progress} (hpq : p.Grows q) (hqr : q.Grows r) : p.Grows r where
  size_eq := hqr.size_eq.trans hpq.size_eq
  tightens i := (hpq.tightens i).trans (hqr.tightens i)
  queue_subset i hi := hqr.queue_subset i (hpq.queue_subset i hi)
  range_eq i hi := by
    have hq : i ∉ q.queue := fun h ↦ hi (hqr.queue_subset i h)
    rw [hqr.range_eq i hi, hpq.range_eq i hq]

@[simp] theorem range_enqueue (p : Progress) (i j : Nat) : (p.enqueue i).range j = p.range j := by
  unfold enqueue
  split <;> rfl

@[simp] theorem ranges_enqueue (p : Progress) (i : Nat) : (p.enqueue i).ranges = p.ranges := by
  unfold enqueue
  split <;> rfl

theorem mem_queue_enqueue {p : Progress} {i j : Nat} :
    j ∈ (p.enqueue i).queue ↔ j ∈ p.queue ∨ j = i := by
  unfold enqueue
  split
  · next h => exact ⟨Or.inl, fun hj ↦ hj.elim id fun hji ↦ hji ▸ h⟩
  · simp

theorem length_queue_enqueue_le (p : Progress) (i : Nat) :
    (p.enqueue i).queue.length ≤ p.queue.length + 1 := by
  unfold enqueue
  split
  · exact Nat.le_succ _
  · simp

theorem range_improve_some (p : Progress) (i j : Nat) (r : Range) :
    (p.improve i (some r)).range j =
      if i = j ∧ j < p.ranges.size then r else p.range j := by
  rw [improve, range_enqueue]
  exact LevelSystem.rangeAt_setIfInBounds p.ranges i j r

theorem improve_grows {p : Progress} {i : Nat} {o : Option Range}
    (ho : ∀ r ∈ o, (p.range i).Tightens r) : p.Grows (p.improve i o) := by
  cases o with
  | none => exact Grows.refl p
  | some r =>
      refine ⟨by simp [improve], ?_, ?_, ?_⟩
      · intro j
        rw [range_improve_some]
        split
        · next h => exact h.1 ▸ ho r rfl
        · exact Range.Tightens.refl _
      · intro j hj
        exact mem_queue_enqueue.mpr (Or.inl hj)
      · intro j hj
        have hne : i ≠ j := fun h ↦ hj (mem_queue_enqueue.mpr (Or.inr h.symm))
        rw [range_improve_some, if_neg fun h ↦ hne h.1]

theorem raise_grows (b : Bound Level) (p : Progress) (i : Nat) : p.Grows (p.raise b i) :=
  improve_grows fun _ hr ↦ (Range.raise?_tightens hr).1

theorem cap_grows (b : Bound Level) (p : Progress) (i : Nat) : p.Grows (p.cap b i) :=
  improve_grows fun _ hr ↦ (Range.cap?_tightens hr).1

theorem le_lower_raise (b : Bound Level) {p : Progress} {i : Nat} (hi : i < p.ranges.size) :
    b.level ≤ ((p.raise b i).range i).lower.level := by
  unfold raise
  cases h : (p.range i).raise? b with
  | none => exact Range.raise?_eq_none h
  | some r =>
      obtain ⟨-, rfl⟩ := Range.raise?_eq_some h
      rw [range_improve_some, if_pos ⟨rfl, hi⟩]

theorem upper_cap_le (b : Bound Level) {p : Progress} {i : Nat} (hi : i < p.ranges.size) :
    ((p.cap b i).range i).upper.level ≤ b.level := by
  unfold cap
  cases h : (p.range i).cap? b with
  | none => exact Range.cap?_eq_none h
  | some r =>
      obtain ⟨-, rfl⟩ := Range.cap?_eq_some h
      rw [range_improve_some, if_pos ⟨rfl, hi⟩]

/-! ### One visit -/

theorem foldl_grows {f : Progress → Nat → Progress} (hf : ∀ (p : Progress) i, p.Grows (f p i))
    (is : List Nat) (p : Progress) : p.Grows (is.foldl f p) := by
  induction is generalizing p with
  | nil => exact Grows.refl p
  | cons i is ih => exact (hf p i).trans (ih (f p i))

theorem le_lower_foldl_raise (b : Bound Level) {is : List Nat} {p : Progress} {j : Nat}
    (hj : j ∈ is) (hsize : j < p.ranges.size) :
    b.level ≤ ((is.foldl (raise b) p).range j).lower.level := by
  induction is generalizing p with
  | nil => cases hj
  | cons i is ih =>
      have hgrows := raise_grows b p i
      rcases List.mem_cons.mp hj with rfl | hmem
      · have hrest := (foldl_grows (raise_grows b) is (raise b p j)).tightens j
        exact (le_lower_raise b hsize).trans hrest.lower_le
      · exact ih hmem (hgrows.size_eq ▸ hsize)

theorem upper_foldl_cap_le (b : Bound Level) {is : List Nat} {p : Progress} {j : Nat}
    (hj : j ∈ is) (hsize : j < p.ranges.size) :
    ((is.foldl (cap b) p).range j).upper.level ≤ b.level := by
  induction is generalizing p with
  | nil => cases hj
  | cons i is ih =>
      have hgrows := cap_grows b p i
      rcases List.mem_cons.mp hj with rfl | hmem
      · exact ((foldl_grows (cap_grows b) is _).tightens j).upper_le.trans (upper_cap_le b hsize)
      · exact ih hmem (hgrows.size_eq ▸ hsize)

@[simp] theorem level_along (b : Bound Level) (display : String) :
    (b.along display).level = b.level := by
  unfold Bound.along
  split <;> rfl

theorem mem_succ {n : Network} {i j : Nat} : j ∈ n.succ i ↔ (i, j) ∈ n.edges := by
  simp only [Network.succ, List.mem_filterMap, Option.ite_none_right_eq_some, Option.some.injEq]
  constructor
  · rintro ⟨⟨a, b⟩, he, rfl, rfl⟩
    exact he
  · intro he
    exact ⟨(i, j), he, rfl, rfl⟩

theorem mem_pred {n : Network} {i j : Nat} : j ∈ n.pred i ↔ (j, i) ∈ n.edges := by
  simp only [Network.pred, List.mem_filterMap, Option.ite_none_right_eq_some, Option.some.injEq]
  constructor
  · rintro ⟨⟨a, b⟩, he, rfl, rfl⟩
    exact he
  · intro he
    exact ⟨(j, i), he, rfl, rfl⟩

theorem visit_grows (n : Network) (p : Progress) (i : Nat) : p.Grows (p.visit n i) :=
  (foldl_grows (raise_grows _) _ p).trans (foldl_grows (cap_grows _) _ _)

theorem le_lower_visit {n : Network} {p : Progress} {i j : Nat} (he : (i, j) ∈ n.edges)
    (hj : j < p.ranges.size) :
    (p.range i).lower.level ≤ ((p.visit n i).range j).lower.level := by
  have hraised := le_lower_foldl_raise ((p.range i).lower.along (n.display i))
    (mem_succ.mpr he) hj
  rw [level_along] at hraised
  exact hraised.trans ((foldl_grows (cap_grows _) _ _).tightens j).lower_le

theorem upper_visit_le {n : Network} {p : Progress} {i j : Nat} (he : (j, i) ∈ n.edges)
    (hj : j < p.ranges.size) :
    ((p.visit n i).range j).upper.level ≤ (p.range i).upper.level := by
  have hsize := (foldl_grows (raise_grows ((p.range i).lower.along (n.display i)))
    (n.succ i) p).size_eq
  have hcapped := upper_foldl_cap_le ((p.range i).upper.along (n.display i))
    (mem_pred.mpr he) (hsize ▸ hj)
  rwa [level_along] at hcapped

/-! ### Whole runs -/

/-- The edges at variables outside the queue hold. -/
def Settled (n : Network) (p : Progress) : Prop :=
  ∀ i j, (i, j) ∈ n.edges →
    (i ∉ p.queue → (p.range i).lower.level ≤ (p.range j).lower.level) ∧
      (j ∉ p.queue → (p.range i).upper.level ≤ (p.range j).upper.level)

/-- The ends of every edge are variables. -/
def InBounds (n : Network) (size : Nat) : Prop :=
  ∀ i j, (i, j) ∈ n.edges → i < size ∧ j < size

theorem visit_settled {n : Network} {p : Progress} {i : Nat} {rest : List Nat}
    (hbounds : InBounds n p.ranges.size) (hqueue : p.queue = i :: rest) (hp : p.Settled n) :
    ({ p with queue := rest }.visit n i).Settled n := by
  have hgrows := visit_grows n { p with queue := rest } i
  intro a b he
  obtain ⟨ha, hb⟩ := hbounds a b he
  constructor
  · intro hnot
    rw [hgrows.range_eq a hnot]
    by_cases hai : a = i
    · subst hai
      exact le_lower_visit he hb
    · have hold : a ∉ p.queue := by
        rw [hqueue, List.mem_cons, not_or]
        exact ⟨hai, fun h ↦ hnot (hgrows.queue_subset a h)⟩
      exact ((hp a b he).1 hold).trans (hgrows.tightens b).lower_le
  · intro hnot
    rw [hgrows.range_eq b hnot]
    by_cases hbi : b = i
    · subst hbi
      exact upper_visit_le he ha
    · have hold : b ∉ p.queue := by
        rw [hqueue, List.mem_cons, not_or]
        exact ⟨hbi, fun h ↦ hnot (hgrows.queue_subset b h)⟩
      exact (hgrows.tightens a).upper_le.trans ((hp a b he).2 hold)

/-- The steps that are left: queued variables, and improvements that are still possible. -/
def budget (p : Progress) : Nat :=
  p.queue.length + ∑ i ∈ Finset.range p.ranges.size, (p.range i).slack

theorem improve_budget_le {p : Progress} {i : Nat} {o : Option Range} (hi : i < p.ranges.size)
    (ho : ∀ r ∈ o, r.slack < (p.range i).slack) : (p.improve i o).budget ≤ p.budget := by
  cases o with
  | none => exact le_rfl
  | some r =>
      have hsize : (p.improve i (some r)).ranges.size = p.ranges.size := by simp [improve]
      have hqueue := length_queue_enqueue_le { p with ranges := p.ranges.setIfInBounds i r } i
      have hsum : ∑ j ∈ Finset.range p.ranges.size, ((p.improve i (some r)).range j).slack <
          ∑ j ∈ Finset.range p.ranges.size, (p.range j).slack := by
        apply Finset.sum_lt_sum
        · intro j _
          rw [range_improve_some]
          split
          · next h => exact h.1 ▸ (ho r rfl).le
          · exact le_rfl
        · refine ⟨i, Finset.mem_range.mpr hi, ?_⟩
          rw [range_improve_some, if_pos ⟨rfl, hi⟩]
          exact ho r rfl
      unfold budget
      rw [hsize]
      exact Nat.le_of_lt_succ (by simp only [improve] at *; omega)

theorem raise_budget_le (b : Bound Level) {p : Progress} {i : Nat} (hi : i < p.ranges.size) :
    (p.raise b i).budget ≤ p.budget :=
  improve_budget_le hi fun _ hr ↦ (Range.raise?_tightens hr).2

theorem cap_budget_le (b : Bound Level) {p : Progress} {i : Nat} (hi : i < p.ranges.size) :
    (p.cap b i).budget ≤ p.budget :=
  improve_budget_le hi fun _ hr ↦ (Range.cap?_tightens hr).2

theorem foldl_budget_le {f : Progress → Nat → Progress} {size : Nat}
    (hgrows : ∀ (p : Progress) i, p.Grows (f p i))
    (hf : ∀ (p : Progress) i, i < p.ranges.size → (f p i).budget ≤ p.budget)
    {is : List Nat} (his : ∀ i ∈ is, i < size) (p : Progress) (hp : p.ranges.size = size) :
    (is.foldl f p).budget ≤ p.budget := by
  induction is generalizing p with
  | nil => exact le_rfl
  | cons i is ih =>
      have hi : i < p.ranges.size := hp ▸ his i (List.mem_cons_self ..)
      exact (ih (fun j hj ↦ his j (List.mem_cons_of_mem i hj)) (f p i)
        ((hgrows p i).size_eq.trans hp)).trans (hf p i hi)

theorem visit_budget_le {n : Network} {p : Progress} (hbounds : InBounds n p.ranges.size)
    (i : Nat) : (p.visit n i).budget ≤ p.budget := by
  have hsucc : ∀ j ∈ n.succ i, j < p.ranges.size :=
    fun j hj ↦ (hbounds i j (mem_succ.mp hj)).2
  have hpred : ∀ j ∈ n.pred i, j < p.ranges.size :=
    fun j hj ↦ (hbounds j i (mem_pred.mp hj)).1
  exact (foldl_budget_le (cap_grows _) (fun _ _ ↦ cap_budget_le _) hpred _
    (foldl_grows (raise_grows _) _ p).size_eq).trans
      (foldl_budget_le (raise_grows _) (fun _ _ ↦ raise_budget_le _) hsucc p rfl)

/-- The step that takes a variable off the queue is never given back by its visit. -/
theorem visit_budget_lt {n : Network} {p : Progress} {i : Nat} {rest : List Nat}
    (hbounds : InBounds n p.ranges.size) (hqueue : p.queue = i :: rest) :
    ({ p with queue := rest }.visit n i).budget < p.budget := by
  have hvisit := visit_budget_le (p := { p with queue := rest }) hbounds i
  have hpop : ({ p with queue := rest } : Progress).budget + 1 = p.budget := by
    unfold budget
    rw [hqueue, List.length_cons]
    simp only [range]
    omega
  omega

/-- What one visit keeps, a run keeps. -/
theorem run_induction {n : Network} {P : Progress → Prop}
    (hstep : ∀ (p : Progress) i rest, p.queue = i :: rest → P p →
      P ({ p with queue := rest }.visit n i))
    (fuel : Nat) {p : Progress} (hp : P p) : P (run n fuel p) := by
  induction fuel generalizing p with
  | zero => exact hp
  | succ fuel ih =>
      unfold run
      split
      · exact hp
      · next i rest hqueue => exact ih (hstep p i rest hqueue hp)

theorem run_queue_eq_nil {n : Network} (fuel : Nat) {p : Progress}
    (hbounds : InBounds n p.ranges.size) (hfuel : p.budget ≤ fuel) :
    (run n fuel p).queue = [] := by
  induction fuel generalizing p with
  | zero =>
      have hlen : p.queue.length = 0 := by
        have hle : p.queue.length ≤ p.budget := Nat.le_add_right _ _
        omega
      simpa [run] using List.length_eq_zero_iff.mp hlen
  | succ fuel ih =>
      unfold run
      split
      · next hqueue => exact hqueue
      · next i rest hqueue =>
          have hsize := (visit_grows n { p with queue := rest } i).size_eq
          have hlt := visit_budget_lt hbounds hqueue
          exact ih (hsize ▸ hbounds) (by omega)

theorem run_settled {n : Network} (fuel : Nat) {p : Progress}
    (hbounds : InBounds n p.ranges.size) (hp : p.Settled n) : (run n fuel p).Settled n := by
  refine (run_induction (P := fun q ↦ q.ranges.size = p.ranges.size ∧ q.Settled n)
    ?_ fuel ⟨rfl, hp⟩).2
  rintro q i rest hqueue ⟨hsize, hq⟩
  exact ⟨(visit_grows n _ i).size_eq.trans hsize, visit_settled (hsize ▸ hbounds) hqueue hq⟩

theorem run_tightens {n : Network} (fuel : Nat) (p : Progress) :
    (run n fuel p).ranges.size = p.ranges.size ∧
      ∀ i, (p.range i).Tightens ((run n fuel p).range i) := by
  refine run_induction (P := fun q ↦ q.ranges.size = p.ranges.size ∧
    ∀ i, (p.range i).Tightens (q.range i)) ?_ fuel ⟨rfl, fun i ↦ Range.Tightens.refl _⟩
  rintro q i rest - ⟨hsize, hq⟩
  have hgrows := visit_grows n { q with queue := rest } i
  exact ⟨hgrows.size_eq.trans hsize, fun j ↦ (hq j).trans (hgrows.tightens j)⟩

/-! ### What passing bounds on keeps -/

section Kept

variable {Q : Nat → Range → Prop}

theorem improve_forall {p : Progress} {i : Nat} {o : Option Range} (ho : ∀ r ∈ o, Q i r)
    (hp : ∀ j, Q j (p.range j)) (j : Nat) : Q j ((p.improve i o).range j) := by
  cases o with
  | none => exact hp j
  | some r =>
      rw [range_improve_some]
      split
      · next h => exact h.1 ▸ ho r rfl
      · exact hp j

theorem foldl_forall {f : Progress → Nat → Progress} {is : List Nat}
    (hf : ∀ (p : Progress), ∀ i ∈ is, (∀ j, Q j (p.range j)) → ∀ j, Q j ((f p i).range j))
    {p : Progress} (hp : ∀ j, Q j (p.range j)) (j : Nat) : Q j ((is.foldl f p).range j) := by
  induction is generalizing p with
  | nil => exact hp j
  | cons i is ih =>
      exact ih (fun q k hk ↦ hf q k (List.mem_cons_of_mem i hk))
        (hf p i (List.mem_cons_self ..) hp)

/-- A property of ranges that survives whenever a bound is passed along an edge. -/
structure Kept (n : Network) (Q : Nat → Range → Prop) : Prop where
  raise : ∀ i j r r', (i, j) ∈ n.edges → Q i r → Q j r' → r'.lower.level < r.lower.level →
    Q j { r' with lower := r.lower.along (n.display i) }
  cap : ∀ i j r r', (j, i) ∈ n.edges → Q i r → Q j r' → r.upper.level < r'.upper.level →
    Q j { r' with upper := r.upper.along (n.display i) }

theorem Kept.visit {n : Network} (h : Kept n Q) {p : Progress} (i : Nat)
    (hp : ∀ j, Q j (p.range j)) (j : Nat) : Q j ((p.visit n i).range j) := by
  refine foldl_forall ?_ (foldl_forall ?_ hp) j
  · intro q k hk hq
    refine improve_forall (fun r hr ↦ ?_) hq
    obtain ⟨hlt, rfl⟩ := Range.cap?_eq_some hr
    rw [level_along] at hlt
    exact h.cap i k _ _ (mem_pred.mp hk) (hp i) (hq k) hlt
  · intro q k hk hq
    refine improve_forall (fun r hr ↦ ?_) hq
    obtain ⟨hlt, rfl⟩ := Range.raise?_eq_some hr
    rw [level_along] at hlt
    exact h.raise i k _ _ (mem_succ.mp hk) (hp i) (hq k) hlt

theorem Kept.run {n : Network} (h : Kept n Q) (fuel : Nat) {p : Progress}
    (hp : ∀ j, Q j (p.range j)) : ∀ j, Q j ((run n fuel p).range j) :=
  run_induction (P := fun q ↦ ∀ j, Q j (q.range j)) (fun _ i _ _ hq ↦ h.visit i hq) fuel hp

end Kept

/-! ### Bounds that hold of an assignment -/

/-- No lower bound exceeds `ρ`, and no upper bound is below `σ`. -/
def Brackets (ρ σ : Nat → Level) (p : Progress) : Prop :=
  ∀ i, (p.range i).lower.level ≤ ρ i ∧ σ i ≤ (p.range i).upper.level

/-- Assignments that respect the edges bracket all that is propagated. -/
theorem run_brackets {ρ σ : Nat → Level} {n : Network}
    (hρ : ∀ i j, (i, j) ∈ n.edges → ρ i ≤ ρ j) (hσ : ∀ i j, (i, j) ∈ n.edges → σ i ≤ σ j)
    (fuel : Nat) {p : Progress} (hp : p.Brackets ρ σ) : (run n fuel p).Brackets ρ σ := by
  have hkept : Kept n fun i r ↦ r.lower.level ≤ ρ i ∧ σ i ≤ r.upper.level := by
    constructor
    · rintro i j r r' he hr hr' -
      rw [level_along]
      exact ⟨hr.1.trans (hρ i j he), hr'.2⟩
    · rintro i j r r' he hr hr' -
      rw [level_along]
      exact ⟨hr'.1, (hσ j i he).trans hr.2⟩
  exact hkept.run fuel hp

end Progress

namespace LevelSystem

variable {s : LevelSystem Level}

/-! ### The bounds of constants -/

theorem index?_lt {key : String} {i : Nat} (h : s.index? key = some i) : i < s.size := by
  unfold index? at h
  exact (List.findIdx?_eq_some_iff_getElem.mp h).1

@[simp] theorem size_impose (rs : Array Range) (c : Constraint Level) :
    (s.impose rs c).size = rs.size := by
  unfold impose
  split
  · split <;> simp
  · split <;> simp
  · rfl

theorem size_foldl_impose (cs : List (Constraint Level)) (rs : Array Range) :
    (cs.foldl s.impose rs).size = rs.size := by
  induction cs generalizing rs with
  | nil => rfl
  | cons c cs ih => rw [List.foldl_cons, ih, size_impose]

@[simp] theorem size_imposed : s.imposed.size = s.size := by
  rw [imposed, size_foldl_impose, Array.size_replicate]

theorem rangeAt_setIfInBounds_getD_forall {Q : Nat → Range → Prop} {rs : Array Range}
    {o : Option Range} {i : Nat} (ho : ∀ r ∈ o, Q i r) (hrs : ∀ j, Q j (rangeAt rs j)) (j : Nat) :
    Q j (rangeAt (rs.setIfInBounds i (o.getD (rangeAt rs i))) j) := by
  rw [rangeAt_setIfInBounds]
  split
  · next h =>
      rw [← h.1]
      cases o with
      | none => exact hrs i
      | some r => exact ho r rfl
  · exact hrs j

theorem impose_tightens (rs : Array Range) (c : Constraint Level) (j : Nat) :
    (rangeAt rs j).Tightens (rangeAt (s.impose rs c) j) := by
  have hset {o : Option Range} {i : Nat} (ho : ∀ r ∈ o, (rangeAt rs i).Tightens r) :
      (rangeAt rs j).Tightens (rangeAt (rs.setIfInBounds i (o.getD (rangeAt rs i))) j) :=
    rangeAt_setIfInBounds_getD_forall (Q := fun k r ↦ (rangeAt rs k).Tightens r) ho
      (fun _ ↦ Range.Tightens.refl _) j
  unfold impose
  split
  · split
    · exact hset fun r hr ↦ (Range.raise?_tightens hr).1
    · exact Range.Tightens.refl _
  · split
    · exact hset fun r hr ↦ (Range.cap?_tightens hr).1
    · exact Range.Tightens.refl _
  · exact Range.Tightens.refl _

theorem foldl_impose_tightens (cs : List (Constraint Level)) (rs : Array Range) (j : Nat) :
    (rangeAt rs j).Tightens (rangeAt (cs.foldl s.impose rs) j) := by
  induction cs generalizing rs with
  | nil => exact Range.Tightens.refl _
  | cons c cs ih => exact (impose_tightens rs c j).trans (ih _)

theorem le_lower_impose {rs : Array Range} {c : Constraint Level} {l : Level} {key : String}
    {i : Nat} (hlo : c.lo = .const l) (hhi : c.hi = .var key) (hi : s.index? key = some i)
    (hsize : i < rs.size) : l ≤ (rangeAt (s.impose rs c) i).lower.level := by
  simp only [impose, hlo, hhi, hi]
  rw [rangeAt_setIfInBounds, if_pos ⟨rfl, hsize⟩]
  cases h : (rangeAt rs i).raise? (.direct l c.rule) with
  | none => exact Range.raise?_eq_none h
  | some r =>
      obtain ⟨-, rfl⟩ := Range.raise?_eq_some h
      exact le_rfl

theorem upper_impose_le {rs : Array Range} {c : Constraint Level} {l : Level} {key : String}
    {i : Nat} (hlo : c.lo = .var key) (hhi : c.hi = .const l) (hi : s.index? key = some i)
    (hsize : i < rs.size) : (rangeAt (s.impose rs c) i).upper.level ≤ l := by
  simp only [impose, hlo, hhi, hi]
  rw [rangeAt_setIfInBounds, if_pos ⟨rfl, hsize⟩]
  cases h : (rangeAt rs i).cap? (.direct l c.rule) with
  | none => exact Range.cap?_eq_none h
  | some r =>
      obtain ⟨-, rfl⟩ := Range.cap?_eq_some h
      exact le_rfl

theorem foldl_impose_of_mem {cs : List (Constraint Level)} {c : Constraint Level} (hc : c ∈ cs)
    (rs : Array Range) (j : Nat) :
    ∃ rs' : Array Range, rs'.size = rs.size ∧
      (rangeAt (s.impose rs' c) j).Tightens (rangeAt (cs.foldl s.impose rs) j) := by
  induction cs generalizing rs with
  | nil => cases hc
  | cons d cs ih =>
      rcases List.mem_cons.mp hc with rfl | hmem
      · exact ⟨rs, rfl, foldl_impose_tightens cs _ j⟩
      · obtain ⟨rs', hsize, htight⟩ := ih hmem (s.impose rs d)
        exact ⟨rs', hsize.trans (size_impose rs d), htight⟩

/-- Every constant below a variable is a lower bound of it. -/
theorem le_lower_imposed {c : Constraint Level} {l : Level} {key : String} {i : Nat}
    (hc : c ∈ s.constraints) (hlo : c.lo = .const l) (hhi : c.hi = .var key)
    (hi : s.index? key = some i) : l ≤ (rangeAt s.imposed i).lower.level := by
  obtain ⟨rs', hsize, htight⟩ :=
    foldl_impose_of_mem (s := s) hc (Array.replicate s.size Range.full) i
  have hlt : i < rs'.size := by
    rw [hsize, Array.size_replicate]
    exact index?_lt hi
  exact (le_lower_impose hlo hhi hi hlt).trans htight.lower_le

/-- Every constant above a variable is an upper bound of it. -/
theorem upper_imposed_le {c : Constraint Level} {l : Level} {key : String} {i : Nat}
    (hc : c ∈ s.constraints) (hlo : c.lo = .var key) (hhi : c.hi = .const l)
    (hi : s.index? key = some i) : (rangeAt s.imposed i).upper.level ≤ l := by
  obtain ⟨rs', hsize, htight⟩ :=
    foldl_impose_of_mem (s := s) hc (Array.replicate s.size Range.full) i
  have hlt : i < rs'.size := by
    rw [hsize, Array.size_replicate]
    exact index?_lt hi
  exact htight.upper_le.trans (upper_impose_le hlo hhi hi hlt)

/-- The variables obey the constants they are compared with. -/
structure ObeysConstants (s : LevelSystem Level) (ρ σ : Nat → Level) : Prop where
  lower : ∀ c ∈ s.constraints, ∀ l key i, c.lo = .const l → c.hi = .var key →
    s.index? key = some i → l ≤ ρ i
  upper : ∀ c ∈ s.constraints, ∀ l key i, c.lo = .var key → c.hi = .const l →
    s.index? key = some i → σ i ≤ l

theorem rangeAt_full (size i : Nat) : rangeAt (Array.replicate size Range.full) i = Range.full := by
  rw [rangeAt, Array.getD_eq_getD_getElem?, Array.getElem?_replicate]
  split <;> rfl

/-- A property of ranges that holds as long as nothing is known, and survives whenever a constant
bounds a variable. -/
structure Starts (s : LevelSystem Level) (Q : Nat → Range → Prop) : Prop where
  full : ∀ i, Q i Range.full
  raise : ∀ c ∈ s.constraints, ∀ l key i r, c.lo = .const l → c.hi = .var key →
    s.index? key = some i → Q i r → Q i { r with lower := .direct l c.rule }
  cap : ∀ c ∈ s.constraints, ∀ l key i r, c.lo = .var key → c.hi = .const l →
    s.index? key = some i → Q i r → Q i { r with upper := .direct l c.rule }

theorem Starts.imposed {Q : Nat → Range → Prop} (h : s.Starts Q) (i : Nat) :
    Q i (rangeAt s.imposed i) := by
  unfold LevelSystem.imposed
  refine List.foldlRecOn s.constraints s.impose (motive := fun rs ↦ ∀ i, Q i (rangeAt rs i))
    (fun i ↦ ?_) (fun rs hrs c hc ↦ ?_) i
  · rw [rangeAt_full]
    exact h.full i
  · unfold impose
    split
    · next l key hlo hhi =>
        split
        · next i hi =>
            refine rangeAt_setIfInBounds_getD_forall (fun r hr ↦ ?_) hrs
            obtain ⟨-, rfl⟩ := Range.raise?_eq_some hr
            exact h.raise c hc l key i _ hlo hhi hi (hrs i)
        · exact hrs
    · next key l hlo hhi =>
        split
        · next i hi =>
            refine rangeAt_setIfInBounds_getD_forall (fun r hr ↦ ?_) hrs
            obtain ⟨-, rfl⟩ := Range.cap?_eq_some hr
            exact h.cap c hc l key i _ hlo hhi hi (hrs i)
        · exact hrs
    · exact hrs

theorem imposed_brackets {ρ σ : Nat → Level} (h : s.ObeysConstants ρ σ) (i : Nat) :
    (rangeAt s.imposed i).lower.level ≤ ρ i ∧ σ i ≤ (rangeAt s.imposed i).upper.level := by
  have hstarts : s.Starts fun i r ↦ r.lower.level ≤ ρ i ∧ σ i ≤ r.upper.level :=
    ⟨fun _ ↦ ⟨Level.data_le _, Level.le_genquant _⟩,
      fun c hc l key i _ hlo hhi hi hr ↦ ⟨h.lower c hc l key i hlo hhi hi, hr.2⟩,
      fun c hc l key i _ hlo hhi hi hr ↦ ⟨hr.1, h.upper c hc l key i hlo hhi hi⟩⟩
  exact hstarts.imposed i

/-! ### The outcome of propagation -/

theorem mem_edges {i j : Nat} : (i, j) ∈ s.edges ↔
    ∃ c ∈ s.constraints, ∃ lo hi, c.lo = .var lo ∧ c.hi = .var hi ∧
      s.index? lo = some i ∧ s.index? hi = some j := by
  unfold edges
  rw [List.mem_filterMap]
  constructor
  · rintro ⟨c, hc, h⟩
    refine ⟨c, hc, ?_⟩
    split at h
    · next lo hi hlo hhi =>
        refine ⟨lo, hi, hlo, hhi, ?_⟩
        simpa [Option.bind_eq_some_iff] using h
    · cases h
  · rintro ⟨c, hc, lo, hi, hlo, hhi, hi', hj'⟩
    exact ⟨c, hc, by simp [hlo, hhi, hi', hj']⟩

theorem network_inBounds : Progress.InBounds s.network s.imposed.size := by
  intro i j he
  obtain ⟨c, -, lo, hi, -, -, hi', hj'⟩ := mem_edges.mp he
  rw [size_imposed]
  exact ⟨index?_lt hi', index?_lt hj'⟩

theorem start_budget_le :
    (⟨s.imposed, List.range s.size⟩ : Progress).budget ≤ 5 * s.size := by
  have hsum : ∑ i ∈ Finset.range s.imposed.size, (rangeAt s.imposed i).slack ≤
      s.imposed.size * 4 := by
    simpa using Finset.sum_le_card_nsmul (Finset.range s.imposed.size) _ 4
      fun i _ ↦ Range.slack_le _
  simp only [Progress.budget, Progress.range, List.length_range, size_imposed] at *
  omega

@[simp] theorem size_propagated : s.propagated.size = s.size := by
  rw [propagated, (Progress.run_tightens _ _).1, size_imposed]

/-- All the inequalities between variables hold of the propagated bounds. -/
theorem propagated_edge {i j : Nat} (he : (i, j) ∈ s.edges) :
    (rangeAt s.propagated i).lower.level ≤ (rangeAt s.propagated j).lower.level ∧
      (rangeAt s.propagated i).upper.level ≤ (rangeAt s.propagated j).upper.level := by
  have hstart : (⟨s.imposed, List.range s.size⟩ : Progress).Settled s.network := by
    intro a b hab
    obtain ⟨ha, hb⟩ := network_inBounds a b hab
    rw [size_imposed] at ha hb
    exact ⟨fun h ↦ absurd (List.mem_range.mpr ha) h, fun h ↦ absurd (List.mem_range.mpr hb) h⟩
  have hempty := Progress.run_queue_eq_nil (5 * s.size) network_inBounds start_budget_le
  have hsettled := Progress.run_settled (5 * s.size) network_inBounds hstart i j he
  rw [hempty] at hsettled
  exact ⟨hsettled.1 List.not_mem_nil, hsettled.2 List.not_mem_nil⟩

theorem propagated_tightens (i : Nat) :
    (rangeAt s.imposed i).Tightens (rangeAt s.propagated i) :=
  (Progress.run_tightens (n := s.network) (5 * s.size) ⟨s.imposed, List.range s.size⟩).2 i

/-- Propagated bounds hold of all that obeys the constants and the inequalities. -/
theorem propagated_brackets {ρ σ : Nat → Level} (h : s.ObeysConstants ρ σ)
    (hρ : ∀ i j, (i, j) ∈ s.edges → ρ i ≤ ρ j) (hσ : ∀ i j, (i, j) ∈ s.edges → σ i ≤ σ j)
    (i : Nat) :
    (rangeAt s.propagated i).lower.level ≤ ρ i ∧ σ i ≤ (rangeAt s.propagated i).upper.level :=
  Progress.run_brackets (n := s.network) hρ hσ (5 * s.size)
    (p := ⟨s.imposed, List.range s.size⟩) (imposed_brackets h) i

end LevelSystem

end Stratify
