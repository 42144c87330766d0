import Stratify.Proofs.Compile.Diagnostics
import Stratify.Proofs.Compile.Reordering
import Stratify.Proofs.Inlining.Blocks
import Stratify.Proofs.Typing.Blocks

/-!
# Blocks are transparent

Opening the blocks of a program, at the top level and in the bodies of its functions, does not
change what it compiles to, nor the issue with which compilation fails. The only condition is that
no block at the top level contains a function definition: hoisting finds those that stand at the top
level themselves, so the opened program would have functions which the program has not.
-/

namespace Stratify

/-! ### Hoisting -/

namespace Program

/-- No block at the top level contains a function definition. -/
def DefinesOutsideBlocks (p : Program) : Prop :=
  ∀ s ∈ p.stmts, s.isFlat = false → ∀ t ∈ s.flat, (topFunc? t).isNone = true

instance (p : Program) : Decidable p.DefinesOutsideBlocks :=
  inferInstanceAs
    (Decidable (∀ s ∈ p.stmts, s.isFlat = false → ∀ t ∈ s.flat, (topFunc? t).isNone = true))

theorem topFunc?_withOpenBody (s : Stmt) :
    topFunc? s.withOpenBody = (topFunc? s).map Func.opened := by
  cases s <;> rfl

theorem withOpenBody_of_isNone {s : Stmt} (h : (topFunc? s).isNone = true) :
    s.withOpenBody = s := by
  cases s with
  | func name params body result => cases h
  | _ => rfl

/-- A statement that is a function definition, or of which flattening leaves none. -/
theorem flat_cases {s : Stmt} (h : s.isFlat = false → ∀ t ∈ s.flat, (topFunc? t).isNone = true) :
    (∃ f, topFunc? s = some f ∧ s.flat = [s]) ∨
      topFunc? s = none ∧ ∀ t ∈ s.flat, (topFunc? t).isNone = true := by
  cases s with
  | func name params body result => exact Or.inl ⟨_, rfl, rfl⟩
  | block list => exact Or.inr ⟨rfl, h rfl⟩
  | _ => exact Or.inr ⟨rfl, fun t ht ↦ by rw [List.mem_singleton.mp ht]; rfl⟩

variable {p : Program}

theorem filterMap_topFunc?_flatten {ss : List Stmt}
    (h : ∀ s ∈ ss, s.isFlat = false → ∀ t ∈ s.flat, (topFunc? t).isNone = true) :
    (Stmt.flatten ss).filterMap topFunc? = ss.filterMap topFunc? := by
  induction ss with
  | nil => rfl
  | cons s ss ih =>
      rw [List.forall_mem_cons] at h
      rw [Stmt.flatten, List.filterMap_append, ih h.2]
      rcases flat_cases h.1 with ⟨f, hf, hflat⟩ | ⟨hnone, hflat⟩
      · rw [hflat, List.filterMap_cons_some hf, List.filterMap_cons_some hf]
        rfl
      · have hempty : s.flat.filterMap topFunc? = [] :=
          List.filterMap_eq_nil_iff.mpr fun t ht ↦ Option.isNone_iff_eq_none.mp (hflat t ht)
        rw [hempty, List.filterMap_cons_none hnone, List.nil_append]

theorem filter_isNone_flatten {ss : List Stmt}
    (h : ∀ s ∈ ss, s.isFlat = false → ∀ t ∈ s.flat, (topFunc? t).isNone = true) :
    (Stmt.flatten ss).filter (fun s ↦ (topFunc? s).isNone) =
      Stmt.flatten (ss.filter fun s ↦ (topFunc? s).isNone) := by
  induction ss with
  | nil => rfl
  | cons s ss ih =>
      rw [List.forall_mem_cons] at h
      rw [Stmt.flatten, List.filter_append, ih h.2]
      rcases flat_cases h.1 with ⟨f, hf, hflat⟩ | ⟨hnone, hflat⟩
      · simp [hflat, hf]
      · rw [List.filter_eq_self.mpr hflat, List.filter_cons_of_pos (by simp [hnone]), Stmt.flatten]

/-- Nothing that is hoisted comes out of a block. -/
theorem hoist_opened (h : p.DefinesOutsideBlocks) : p.opened.hoist = p.hoist.opened := by
  have hfuncs : (Stmt.openedAll p.stmts).filterMap topFunc? =
      (p.stmts.filterMap topFunc?).map Func.opened := by
    simp only [Stmt.openedAll_eq_map, List.filterMap_map, Function.comp_def,
      topFunc?_withOpenBody, ← filterMap_topFunc?_flatten h, List.map_filterMap]
  have hstmts : (Stmt.openedAll p.stmts).filter (fun s ↦ (topFunc? s).isNone) =
      Stmt.openedAll (p.stmts.filter fun s ↦ (topFunc? s).isNone) := by
    simp only [Stmt.openedAll_eq_map, List.filter_map, Function.comp_def, topFunc?_withOpenBody,
      Option.isNone_map, filter_isNone_flatten h]
  simp only [hoist, opened, hfuncs, hstmts, List.map_append]

theorem openedAll_hoist (h : p.DefinesOutsideBlocks) :
    Stmt.openedAll p.hoist.stmts = Stmt.flatten p.hoist.stmts := by
  rw [Stmt.openedAll_eq_map, hoist, ← filter_isNone_flatten h]
  refine (List.map_congr_left fun t ht ↦ ?_).trans (List.map_id _)
  exact withOpenBody_of_isNone (List.mem_filter.mp ht).2

end Program

namespace Compiler

variable {p : Program}

theorem concur_compile (c : Compiler) (h : p.DefinesOutsideBlocks) :
    Concur Output.Same (c.compile p) (c.compile p.opened) := by
  simp only [compile, Program.hoist_opened h,
    Elaborated.ofProgram_opened _ (Program.openedAll_hoist h)]
  refine (Typing.concur_infer _ p.hoist []).bind fun source source' hsource ↦ ?_
  -- the two sources differ only in nodes, so from here on both sides compute the same
  refine (Concur.refl _).bind ?_
  rintro e _ rfl
  have hagain : c.inferAgain source' e = c.inferAgain source e := by
    rw [inferAgain, Elaborated.seeds_congr hsource.signature?, inferAgain]
  rw [hagain]
  refine (Concur.refl _).bind ?_
  rintro levels _ rfl
  refine (Concur.refl _).bind ?_
  rintro layout _ rfl
  exact ⟨rfl, rfl, rfl, hsource.level?, hsource.signature?⟩

/-- Blocks are transparent. If no block at the top level contains a function definition, then a
program and the program with all its blocks opened both compile, to the same blocks and with the
same inlined program, levels and signatures, or both fail with the same issue, and so with the same
kind of error and the same offending name. -/
theorem compile_opened (c : Compiler) (hcomplete : p.complete = true)
    (hblocks : p.DefinesOutsideBlocks) :
    (∃ o o', c.compile p = .ok o ∧ c.compile p.opened = .ok o' ∧ o.Same o') ∨
      ∃ d d' : Diagnostic, c.compile p = .error (.report d) ∧
        c.compile p.opened = .error (.report d') ∧ d'.issue = d.issue := by
  have hconcur := c.concur_compile hblocks
  have hyields := c.yields_compile hcomplete
  cases h : c.compile p with
  | ok o =>
      cases h' : c.compile p.opened with
      | ok o' =>
          rw [h, h'] at hconcur
          exact Or.inl ⟨o, o', rfl, rfl, hconcur⟩
      | error _ =>
          rw [h, h'] at hconcur
          exact hconcur.elim
  | error f =>
      obtain ⟨d, rfl, -⟩ := (hyields.of_eq_error h).exists_message_iff
      cases h' : c.compile p.opened with
      | ok _ =>
          rw [h, h'] at hconcur
          exact hconcur.elim
      | error f' =>
          rw [h, h'] at hconcur
          cases f' with
          | report d' => exact Or.inr ⟨d, d', rfl, rfl, Option.some.inj hconcur⟩
          | undefined => cases hconcur

end Compiler

namespace Program

/-- The model with blocks, nested or empty, around its statements and in its functions. -/
def boxed : Program where
  funcs := shrinkage.funcs.map fun f ↦ { f with body := some [.block [], .block [.block f.stmts]] }
  stmts := [.block [.block (shrinkage.stmts.take 3), .block []], .block (shrinkage.stmts.drop 3)]

end Program

namespace Compiler

theorem compile_opened_boxed :
    ∃ o o', standard.compile Program.boxed = .ok o ∧
      standard.compile Program.boxed.opened = .ok o' ∧ o.Same o' := by
  have hopened : Program.boxed.opened = Program.shrinkage := rfl
  obtain ⟨source, e, hsource, he⟩ := Elaborated.exists_ofProgram_shrinkage
  have hhoist : Program.shrinkage.hoist = Program.shrinkage := rfl
  rw [← hhoist] at hsource he
  obtain ⟨o, ho⟩ := exists_finishes (c := standard) (by decide) (by decide) hsource he
  have hcompile := ho.compile_eq hsource he
  rcases compile_opened standard (p := .boxed) (by decide) (by decide) with
    hsame | ⟨d, d', -, herror, -⟩
  · exact hsame
  · rw [hopened, hcompile] at herror
    cases herror

end Compiler

end Stratify
