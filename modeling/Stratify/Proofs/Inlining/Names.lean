import Stratify.Inlining
import Stratify.Proofs.NameSupply

/-!
# Fresh names of inlined variables

A fresh name is never taken, so the variables of a copy get names that nothing else has. The names
of one copy are described by what the renaming does to the variables of the function.
-/

namespace Stratify

namespace Inlining

variable {fn : String} {call : Nat} {r : Renaming} {s : State}

/-! ### Several fresh names -/

theorem allocAll_append (xs ys : List String) :
    allocAll fn call (xs ++ ys) r s =
      ((allocAll fn call xs r s).1 ++ (allocAll fn call ys (allocAll fn call xs r s).2.1
          (allocAll fn call xs r s).2.2).1,
        (allocAll fn call ys (allocAll fn call xs r s).2.1 (allocAll fn call xs r s).2.2).2) := by
  induction xs generalizing r s with
  | nil => rfl
  | cons x xs ih => simp only [List.cons_append, allocAll, ih]

/-- What taking several names does to the state. -/
structure Allocates (fn : String) (call : Nat) (xs names : List String) (s s' : State) : Prop where
  length_eq : names.length = xs.length
  nodup : names.Nodup
  fresh : ∀ y ∈ names, y ∉ s.names.taken
  taken : ∀ y, y ∈ s'.names.taken ↔ y ∈ names ∨ y ∈ s.names.taken
  origins : s'.origins = s.origins ++ (xs.zip names).map fun e ↦ (e.2, ⟨fn, e.1, call⟩)
  calls : s'.calls = s.calls
  root : ∀ e ∈ xs.zip names, ∃ t, e.2 = e.1 ++ t
  drawn : s.names.freshAll xs = (names, s'.names)

theorem allocAll_allocates (fn : String) (call : Nat) (r : Renaming) (s : State)
    (xs : List String) :
    Allocates fn call xs (allocAll fn call xs r s).1 s (allocAll fn call xs r s).2.2 ∧
      (allocAll fn call xs r s).2.1 = (xs.zip (allocAll fn call xs r s).1).reverse ++ r := by
  induction xs generalizing r s with
  | nil =>
      simp only [allocAll]
      exact ⟨⟨rfl, List.nodup_nil, by simp, by simp, by simp, rfl, by simp, rfl⟩, by simp⟩
  | cons x xs ih =>
      have hfresh := s.names.fresh_notMem x
      have hroot := s.names.exists_fresh_eq x
      -- The state after the first name: that name is taken and recorded.
      obtain ⟨hrest, hrenaming⟩ :=
        ih ((x, (alloc fn call x s).1) :: r) (alloc fn call x s).2
      have htaken : (alloc fn call x s).2.names.taken = (alloc fn call x s).1 :: s.names.taken :=
        NameSupply.taken_fresh s.names x
      simp only [allocAll]
      refine ⟨⟨?_, ?_, ?_, ?_, ?_, hrest.calls, ?_, ?_⟩, ?_⟩
      · simp [hrest.length_eq]
      · refine List.nodup_cons.mpr ⟨fun hmem ↦ ?_, hrest.nodup⟩
        exact hrest.fresh _ hmem (htaken ▸ List.mem_cons_self ..)
      · intro y hy
        rcases List.mem_cons.mp hy with rfl | hy
        · exact hfresh
        · exact fun hmem ↦ hrest.fresh y hy (htaken ▸ List.mem_cons_of_mem _ hmem)
      · intro y
        rw [hrest.taken, htaken, List.mem_cons, List.mem_cons]
        tauto
      · rw [hrest.origins]
        simp [alloc]
      · intro e he
        rcases List.mem_cons.mp he with rfl | he
        · exact hroot
        · exact hrest.root e he
      · rw [NameSupply.freshAll]
        have hdrawn : (s.names.fresh x).2.freshAll xs = _ := hrest.drawn
        simp only [hdrawn]
        rfl
      · rw [hrenaming]
        simp

/-! ### The variables of a copy -/

/-- Entering a function: its variables `scope` are renamed by `r` to names that were free. -/
structure Enters (fn : String) (scope : List String) (r : String → String) (s s' : State) :
    Prop where
  nodup : scope.Nodup
  fresh : ∀ x ∈ scope, r x ∉ s.names.taken
  inj : ∀ x ∈ scope, ∀ y ∈ scope, r x = r y → x = y
  taken : ∀ y, y ∈ s'.names.taken ↔ y ∈ scope.map r ∨ y ∈ s.names.taken
  origins : s'.origins = s.origins ++ scope.map fun x ↦ (r x, ⟨fn, x, s.calls + 1⟩)
  calls : s'.calls = s.calls + 1
  root : ∀ x ∈ scope, ∃ t, r x = x ++ t
  /-- The names are the next ones of the supply. -/
  drawn : s.names.freshAll scope = (scope.map r, s'.names)

theorem map_apply_zip {xs names : List String} (hxs : xs.Nodup) (hlen : names.length = xs.length) :
    xs.map (Renaming.apply (xs.zip names).reverse) = names := by
  have hmap : (xs.zip names).map Prod.fst = xs := List.map_fst_zip hlen.ge
  refine List.ext_getElem (by simp [hlen]) fun i hi hi' ↦ ?_
  have hlt : i < (xs.zip names).length := by simpa [hlen] using hi
  -- The first entry of a name is its only one.
  have hsome : ((xs.zip names).reverse.find? fun e ↦ decide (e.1 = xs[i])).isSome = true := by
    refine List.find?_isSome.mpr ⟨(xs.zip names)[i], ?_, by simp⟩
    exact List.mem_reverse.mpr (List.getElem_mem hlt)
  obtain ⟨e, he⟩ := Option.isSome_iff_exists.mp hsome
  have hmem : e ∈ xs.zip names := List.mem_reverse.mp (List.mem_of_find?_eq_some he)
  have hfst : e.1 = (xs.zip names)[i].1 := by simpa using List.find?_some he
  have heq : e = (xs.zip names)[i] :=
    List.inj_on_of_nodup_map (hmap.symm ▸ hxs) hmem (List.getElem_mem hlt) hfst
  rw [List.getElem_map, Renaming.apply, he, heq]
  simp

theorem Allocates.enters {xs names : List String} {s s' : State}
    (h : Allocates fn (s.calls + 1) xs names { s with calls := s.calls + 1 } s') (hxs : xs.Nodup) :
    Enters fn xs (Renaming.apply (xs.zip names).reverse) s s' := by
  have hmap := map_apply_zip hxs h.length_eq
  generalize Renaming.apply (xs.zip names).reverse = r at hmap
  have hzip : xs.zip names = xs.map fun x ↦ (x, r x) := by
    rw [← hmap, List.map_prod_left_eq_zip]
  have hnodup : (xs.map r).Nodup := hmap ▸ h.nodup
  refine ⟨hxs, fun x hx ↦ ?_, fun x hx y hy hxy ↦ ?_, fun y ↦ ?_, ?_, h.calls, fun x hx ↦ ?_, ?_⟩
  · exact h.fresh _ (hmap ▸ List.mem_map_of_mem hx)
  · exact List.inj_on_of_nodup_map hnodup hx hy hxy
  · rw [h.taken, hmap]
  · rw [h.origins, hzip, List.map_map]
    rfl
  · exact h.root (x, r x) (hzip ▸ List.mem_map_of_mem hx)
  · rw [hmap]
    exact h.drawn

end Inlining

end Stratify
