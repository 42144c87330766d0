import Mathlib.Order.Bounds.Basic
import Stratify.Proofs.Constraint.Solution

/-!
# Systems under construction

A system starts empty and grows by operations: variables are added and described, constraints are
added, and solutions may be asked for at any time. Whatever the operations are, no two variables
have the same key, constraints are only about the system's variables, and none of them is about the
empty key. So the solver decides every system that can be built, and finds its cheapest solution.
-/

namespace Stratify

namespace Term

theorem named_ne_var_empty (key : String) : (named key : Term Level) ≠ .var "" := by
  unfold named
  split
  · nofun
  · next h => simpa using h

theorem named_injective : Function.Injective (named : String → Term Level) := by
  intro a b h
  unfold named at h
  split at h <;> split at h
  · next ha hb => rw [ha, hb]
  · cases h
  · cases h
  · exact Term.var.inj h

/-- A term as it enters a system, where the empty key is no variable. -/
def entered : Term Level → Term Level
  | var key => named key
  | const l => const l

theorem entered_ne_var_empty (t : Term Level) : t.entered ≠ .var "" := by
  cases t with
  | var key => exact named_ne_var_empty key
  | const l => nofun

end Term

namespace LevelSystem

variable {s : LevelSystem Level} {ρ : String → Level}

@[simp] theorem constraints_addVar (key display : String) :
    (s.addVar key display).constraints = s.constraints := by
  unfold addVar
  split <;> rfl

theorem has_addVar {key display key' : String} :
    (s.addVar key display).has key' = true ↔ s.has key' = true ∨ key' = key := by
  unfold addVar
  split
  · next h => exact ⟨Or.inl, fun h' ↦ h'.elim id fun heq ↦ heq ▸ h⟩
  · simp only [has, List.any_append, List.any_cons, List.any_nil, Bool.or_false, Bool.or_eq_true,
      beq_iff_eq]
    exact or_congr_right eq_comm

@[simp] theorem constraints_modify (key : String) (f : Vertex → Vertex) :
    (s.modify key f).constraints = s.constraints :=
  rfl

theorem has_modify {key key' : String} {f : Vertex → Vertex} (hf : ∀ v, (f v).key = v.key) :
    (s.modify key f).has key' = s.has key' := by
  unfold has modify
  rw [List.any_map]
  congr 1
  funext v
  simp only [Function.comp]
  split <;> simp [hf]

theorem has_setSource {key key' : String} {source : Option Node} :
    (s.setSource key source).has key' = s.has key' :=
  has_modify fun _ ↦ rfl

theorem has_addExprVar {key display key' : String} :
    (s.addExprVar key display).has key' = true ↔ s.has key' = true ∨ key' = key := by
  rw [addExprVar, has_modify (fun v ↦ by rfl), has_addVar]

theorem has_mention {t : Term Level} {key : String} :
    (s.mention t).has key = true ↔ s.has key = true ∨ t = .var key := by
  cases t with
  | var key' =>
      rw [mention, has_addVar, Term.var.injEq]
      exact or_congr_right eq_comm
  | const l => simp [mention]

theorem has_add {c : Constraint Level} {key : String} :
    (s.add c).has key = true ↔ s.has key = true ∨ c.lo = .var key ∨ c.hi = .var key := by
  change ((s.mention c.lo).mention c.hi).has key = true ↔ _
  rw [has_mention, has_mention, or_assoc]

theorem constraints_add (c : Constraint Level) :
    (s.add c).constraints = s.constraints ++ [c] := by
  have hmention (t : LevelSystem Level) (u : Term Level) :
      (t.mention u).constraints = t.constraints := by
    cases u <;> simp [mention]
  simp [add, hmention]

theorem satisfiedBy_add {c : Constraint Level} :
    (s.add c).SatisfiedBy ρ ↔ s.SatisfiedBy ρ ∧ c.Holds ρ := by
  simp only [SatisfiedBy, constraints_add, List.mem_append, List.mem_singleton]
  exact ⟨fun h ↦ ⟨fun d hd ↦ h d (Or.inl hd), h c (Or.inr rfl)⟩,
    fun h d hd ↦ hd.elim (h.1 d) fun heq ↦ heq ▸ h.2⟩

/-- More variables do no harm. -/
theorem Closed.of_has {t : LevelSystem Level} (hs : s.Closed)
    (hconstraints : t.constraints = s.constraints)
    (hhas : ∀ key, s.has key = true → t.has key = true) : t.Closed := by
  have hknows (u : Term Level) (hu : s.Knows u) : t.Knows u := by
    cases u with
    | var key => exact hhas key hu
    | const l => trivial
  intro c hc
  obtain ⟨hlo, hhi⟩ := hs c (hconstraints ▸ hc)
  exact ⟨hknows _ hlo, hknows _ hhi⟩

theorem Closed.add (hs : s.Closed) (c : Constraint Level) : (s.add c).Closed := by
  have hknows (u : Term Level) (hu : s.Knows u ∨ c.lo = u ∨ c.hi = u) : (s.add c).Knows u := by
    cases u with
    | var key => exact has_add.mpr hu
    | const l => trivial
  intro d hd
  rw [constraints_add, List.mem_append, List.mem_singleton] at hd
  rcases hd with hd | rfl
  · obtain ⟨hlo, hhi⟩ := hs d hd
    exact ⟨hknows _ (Or.inl hlo), hknows _ (Or.inl hhi)⟩
  · exact ⟨hknows _ (Or.inr (Or.inl rfl)), hknows _ (Or.inr (Or.inr rfl))⟩

/-! ### Variables that stay -/

theorem mem_vertices_addVar {v : Vertex} (hv : v ∈ s.vertices) (key display : String) :
    v ∈ (s.addVar key display).vertices := by
  unfold addVar
  split
  · exact hv
  · exact List.mem_append_left _ hv

theorem exists_mem_vertices_addVar (s : LevelSystem Level) (key display : String) :
    ∃ v ∈ (s.addVar key display).vertices, v.key = key := by
  have hhas : (s.addVar key display).has key = true := has_addVar.mpr (Or.inr rfl)
  simpa [has] using hhas

theorem mem_vertices_add {v : Vertex} (hv : v ∈ s.vertices) (c : Constraint Level) :
    v ∈ (s.add c).vertices := by
  have hmention {s : LevelSystem Level} (hv : v ∈ s.vertices) (t : Term Level) :
      v ∈ (s.mention t).vertices := by
    cases t with
    | var key => exact mem_vertices_addVar hv key ""
    | const l => exact hv
  exact hmention (hmention hv c.lo) c.hi

theorem mem_vertices_modify_self {v : Vertex} (hv : v ∈ s.vertices) (f : Vertex → Vertex) :
    f v ∈ (s.modify v.key f).vertices :=
  List.mem_map.mpr ⟨v, hv, if_pos rfl⟩

theorem mem_vertices_modify_of_ne {v : Vertex} (hv : v ∈ s.vertices) {key : String}
    (hkey : v.key ≠ key) (f : Vertex → Vertex) : v ∈ (s.modify key f).vertices :=
  List.mem_map.mpr ⟨v, hv, if_neg hkey⟩

/-! ### Operations -/

/-- What can be done with a system. -/
inductive Operation
  | addVar (key display : String)
  | addExprVar (key display : String)
  | setSource (key : String) (source : Option Node)
  | add (lo hi : Term Level) (rule : String)
  | atLeast (key : String) (level : Level) (rule : String)
  | atMost (key : String) (level : Level) (rule : String)
  | equal (key : String) (level : Level) (rule : String)
  | flow (lo hi rule : String)
  | solve
deriving Repr

/-- Asking for a solution leaves the system as it is. The bounds found on the way are no part of a
system: the next solution starts from full ranges again, whatever these were. -/
def apply (s : LevelSystem Level) : Operation → LevelSystem Level
  | .addVar key display => s.addVar key display
  | .addExprVar key display => s.addExprVar key display
  | .setSource key source => s.setSource key source
  | .add lo hi rule => s.add ⟨lo.entered, hi.entered, rule⟩
  | .atLeast key level rule => s.atLeast key level rule
  | .atMost key level rule => s.atMost key level rule
  | .equal key level rule => s.equal key level rule
  | .flow lo hi rule => s.flow lo hi rule
  | .solve => s

/-- The system that some operations build. -/
def built (ops : List Operation) : LevelSystem Level :=
  ops.foldl apply empty

/-- What holds of every system that operations build. -/
structure Proper (s : LevelSystem Level) : Prop where
  nodup : (s.vertices.map Vertex.key).Nodup
  closed : s.Closed
  named : ∀ c ∈ s.constraints, c.lo ≠ .var "" ∧ c.hi ≠ .var ""
  displayed : ∀ v ∈ s.vertices, v.key ≠ "" → v.display ≠ ""

theorem proper_empty : (empty : LevelSystem Level).Proper where
  nodup := List.nodup_nil
  closed := fun _ hc ↦ absurd hc List.not_mem_nil
  named := fun _ hc ↦ absurd hc List.not_mem_nil
  displayed := fun _ hv ↦ absurd hv List.not_mem_nil

theorem Proper.addVar (h : s.Proper) (key display : String) : (s.addVar key display).Proper := by
  have hclosed : (s.addVar key display).Closed :=
    h.closed.of_has (constraints_addVar key display) fun _ hkey ↦ has_addVar.mpr (Or.inl hkey)
  unfold LevelSystem.addVar at hclosed ⊢
  split
  · exact h
  · next hnot =>
      rw [if_neg hnot] at hclosed
      have hnew : ∀ v ∈ s.vertices, v.key ≠ key := by
        intro v hv heq
        exact hnot (List.any_eq_true.mpr ⟨v, hv, beq_iff_eq.mpr heq⟩)
      refine ⟨?_, hclosed, h.named, ?_⟩
      · rw [List.map_append, List.nodup_append]
        refine ⟨h.nodup, List.nodup_singleton _, ?_⟩
        rintro _ ha _ hb rfl
        obtain ⟨v, hv, hkey⟩ := List.mem_map.mp ha
        exact hnew v hv (hkey.trans (List.mem_singleton.mp hb))
      · intro v hv hkey
        rcases List.mem_append.mp hv with hv | hv
        · exact h.displayed v hv hkey
        · cases List.mem_singleton.mp hv
          by_cases hdisplay : display = ""
          · simpa [hdisplay] using hkey
          · simp [hdisplay]

theorem Proper.modify (h : s.Proper) (key : String) {f : Vertex → Vertex}
    (hkey : ∀ v, (f v).key = v.key) (hdisplay : ∀ v, (f v).display = v.display) :
    (s.modify key f).Proper := by
  have hclosed : (s.modify key f).Closed :=
    h.closed.of_has (constraints_modify key f) fun _ hk ↦ (has_modify hkey).trans hk
  have hmap : ((s.modify key f).vertices.map Vertex.key) = s.vertices.map Vertex.key := by
    simp only [LevelSystem.modify, List.map_map]
    refine List.map_congr_left fun v _ ↦ ?_
    simp only [Function.comp]
    split <;> simp [hkey]
  refine ⟨hmap ▸ h.nodup, hclosed, h.named, fun v hv hne ↦ ?_⟩
  obtain ⟨w, hw, rfl⟩ := List.mem_map.mp hv
  by_cases hw' : w.key = key
  · simp only [hw', if_true, hkey, hdisplay] at hne ⊢
    exact h.displayed w hw (hw' ▸ hne)
  · simp only [hw', if_false] at hne ⊢
    exact h.displayed w hw hne

theorem Proper.mention (h : s.Proper) (t : Term Level) : (s.mention t).Proper := by
  cases t with
  | var key => exact h.addVar key ""
  | const l => exact h

theorem Proper.add (h : s.Proper) {c : Constraint Level} (hlo : c.lo ≠ .var "")
    (hhi : c.hi ≠ .var "") : (s.add c).Proper where
  nodup := ((h.mention c.lo).mention c.hi).nodup
  closed := h.closed.add c
  named := by
    intro d hd
    rw [constraints_add, List.mem_append, List.mem_singleton] at hd
    rcases hd with hd | rfl
    · exact h.named d hd
    · exact ⟨hlo, hhi⟩
  displayed := ((h.mention c.lo).mention c.hi).displayed

theorem Proper.atLeast (h : s.Proper) (key : String) (l : Level) (rule : String) :
    (s.atLeast key l rule).Proper :=
  h.add nofun (Term.named_ne_var_empty key)

theorem Proper.atMost (h : s.Proper) (key : String) (l : Level) (rule : String) :
    (s.atMost key l rule).Proper :=
  h.add (Term.named_ne_var_empty key) nofun

theorem Proper.apply (h : s.Proper) (op : Operation) : (s.apply op).Proper := by
  cases op with
  | addVar key display => exact h.addVar key display
  | addExprVar key display => exact (h.addVar key display).modify key (fun _ ↦ rfl) fun _ ↦ rfl
  | setSource key source => exact h.modify key (fun _ ↦ rfl) fun _ ↦ rfl
  | add lo hi rule => exact h.add (Term.entered_ne_var_empty lo) (Term.entered_ne_var_empty hi)
  | atLeast key l rule => exact h.atLeast key l rule
  | atMost key l rule => exact h.atMost key l rule
  | equal key l rule => exact (h.atLeast key l rule).atMost key l rule
  | flow lo hi rule => exact h.add (Term.named_ne_var_empty lo) (Term.named_ne_var_empty hi)
  | solve => exact h

theorem proper_built (ops : List Operation) : (built ops).Proper :=
  List.foldlRecOn ops apply proper_empty fun _ h op _ ↦ h.apply op

/-! ### Solving what has been built -/

theorem keys_picked {rs : Array Range} (hsize : rs.size = s.size) :
    (s.picked rs).map Prod.fst = s.vertices.map Vertex.key := by
  have hlen : s.vertices.length ≤ rs.toList.length := by
    simpa [size] using hsize.ge
  calc
    (s.picked rs).map Prod.fst = ((s.vertices.zip rs.toList).map Prod.fst).map Vertex.key := by
      rw [picked, List.map_map, List.map_map]
      rfl
    _ = s.vertices.map Vertex.key := by rw [List.map_fst_zip hlen]

theorem keys_of_solve_eq_ok (hclosed : s.Closed) {sol : Solution} (h : s.solve = .ok sol) :
    sol.map Prod.fst = s.vertices.map Vertex.key := by
  rcases solve_cases hclosed with ⟨d, hd, -⟩ | ⟨hok, -⟩
  · rw [h] at hd
    cases hd
  · rw [h] at hok
    cases hok
    exact keys_picked size_propagated

/-- The solver is sound, complete and optimal, however a system has been built. It succeeds exactly
if the constraints can be satisfied; its solution then is about the system's variables, satisfies
the constraints, and gives each variable the cheapest level that it has in any solution. Otherwise
it reports inconsistent constraints. -/
theorem solve_built_optimal (ops : List Operation) :
    ((∃ sol, (built ops).solve = .ok sol) ↔ ∃ ρ, (built ops).SatisfiedBy ρ) ∧
      (∀ sol, (built ops).solve = .ok sol →
        sol.map Prod.fst = (built ops).vertices.map Vertex.key ∧
        (sol.map Prod.fst).Nodup ∧
        (built ops).SatisfiedBy sol.level ∧
        ∀ key, (built ops).has key = true → sol.get? key = some (sol.level key) ∧
          IsLeast {r | ∃ ρ, (built ops).SatisfiedBy ρ ∧ Order.performance.rank (ρ key) = r}
            (Order.performance.rank (sol.level key))) ∧
      ∀ d, (built ops).solve = .error d → d.issue.kind = .inconsistentLevelConstraints := by
  have hproper := proper_built ops
  refine ⟨solve_isOk_iff hproper.closed, fun sol hsol ↦ ?_,
    fun d hd ↦ solve_error_kind hproper.closed hd⟩
  have hkeys := keys_of_solve_eq_ok hproper.closed hsol
  obtain ⟨hsat, hvars⟩ := solve_ok_spec hproper.closed hsol
  refine ⟨hkeys, hkeys ▸ hproper.nodup, hsat, fun key hkey ↦ ?_⟩
  obtain ⟨hget, hleast⟩ := hvars key hkey
  refine ⟨hget, ⟨sol.level, hsat, rfl⟩, ?_⟩
  rintro r ⟨ρ, hρ, rfl⟩
  exact hleast ρ hρ

end LevelSystem

end Stratify
