import Stratify.Proofs.Compile.Success
import Stratify.Proofs.Inlining.Uniqueness
import Stratify.Proofs.Typing.Reordering

/-!
# Where functions are defined

Functions may be listed apart from the statements or defined among them, in any order, and before or
after the calls. Two programs that differ only in this compile to the same blocks, or both fail.

After hoisting the programs have the same statements and the same functions. So the first inference
shows the same levels of both, the calls are unrolled in the same way, and from then on the two
compilations go through the same stages with the same input.
-/

namespace Stratify

namespace Program

/-- Two programs have the same statements in the same order, and the same function definitions, in
any order and wherever they stand. -/
structure SameDefinitions (p q : Program) : Prop where
  stmts : (q.stmts.filter fun s ↦ (topFunc? s).isNone) = p.stmts.filter fun s ↦ (topFunc? s).isNone
  funcs : (q.funcs ++ q.stmts.filterMap topFunc?).Perm (p.funcs ++ p.stmts.filterMap topFunc?)

variable {p q : Program}

theorem SameDefinitions.symm (h : p.SameDefinitions q) : q.SameDefinitions p :=
  ⟨h.stmts.symm, h.funcs.symm⟩

theorem SameDefinitions.hoist (h : p.SameDefinitions q) : p.hoist.SameFuncs q.hoist :=
  ⟨h.stmts, h.funcs⟩

end Program

namespace Elaborated

variable {prims : Primitives} {p q : Program} {l : Limits} {e : Elaborated}

/-- The order of the functions does not matter to elaboration. -/
theorem ofProgram_eq_ok_of_sameFuncs (h : p.WellScoped prims) (hcomplete : p.complete = true)
    (hcomplete' : q.complete = true) (hsame : p.SameFuncs q) (he : ofProgram l p = .ok e) :
    ofProgram l q = .ok e := by
  have hgraph := hsame.graph h.funcs_nodup
  have h' := hsame.wellScoped h
  obtain ⟨e', he'⟩ : ∃ e', ofProgram l q = .ok e' := by
    rw [exists_ofProgram_eq_ok_iff h' hcomplete', hgraph.checkDepth, hsame.stmts, hgraph.checkSize]
    exact (exists_ofProgram_eq_ok_iff h hcomplete).mp ⟨e, he⟩
  rw [he', eq_of_sameFuncs h hcomplete h' hcomplete' hsame.stmts (hsame.func? h.funcs_nodup)
    hsame.mentions he he']

theorem seeds_congr {t t' : Typing} (h : ∀ fn, t'.signature? fn = t.signature? fn) :
    e.seeds t' = e.seeds t := by
  simp only [seeds, originLevel, h]

end Elaborated

namespace Output

/-- Two compilations give the same blocks, the same inlined program and the same levels. -/
structure Same (o o' : Output) : Prop where
  layout : o'.layout = o.layout
  elaborated : o'.elaborated = o.elaborated
  levels : o'.levels = o.levels
  source : ∀ x, o'.source.level? x = o.source.level? x
  signatures : ∀ fn, o'.source.signature? fn = o.source.signature? fn

end Output

namespace Compiler

variable {c : Compiler} {p q : Program} {o : Output}

theorem exists_same_of_compile_eq_ok (hcomplete : p.complete = true)
    (hcomplete' : q.complete = true) (hnames : p.hoist.NamedByIdentifiers)
    (hnames' : q.hoist.NamedByIdentifiers) (hsame : p.SameDefinitions q)
    (h : c.compile p = .ok o) : ∃ o', c.compile q = .ok o' ∧ o.Same o' := by
  obtain ⟨hsource, he, hlevels, hlayout⟩ := compile_eq_ok_iff.mp h
  have hhoist := Program.complete_hoist hcomplete
  have hhoist' := Program.complete_hoist hcomplete'
  obtain ⟨⟨hscoped, A, hA⟩, hdescribes⟩ :=
    (Typing.infer_spec hhoist hnames.apart (Seeds.validFor_nil _)).of_eq_ok hsource
  have hspec : Decides _ _ (Typing.infer c.settings.primitives q.hoist []) :=
    Typing.infer_spec hhoist' hnames'.apart (Seeds.validFor_nil _)
  obtain ⟨source, hsource'⟩ := hspec.ok_iff.mpr
    ⟨hsame.hoist.wellScoped hscoped, A, hsame.hoist.fits hscoped.funcs_nodup hA⟩
  have hdescribes' := (hspec.of_eq_ok hsource').2
  have hsignatures := hdescribes.signature?_eq hdescribes' hsame.hoist hscoped.funcs_nodup
  have he' := Elaborated.ofProgram_eq_ok_of_sameFuncs hscoped hhoist hhoist' hsame.hoist he
  have hlevels' : c.inferAgain source o.elaborated = .ok o.levels := by
    rw [inferAgain, Elaborated.seeds_congr hsignatures]
    exact hlevels
  refine ⟨⟨o.layout, source, o.elaborated, o.levels⟩,
    compile_eq_ok_iff.mpr ⟨hsource', he', hlevels', hlayout⟩, rfl, rfl, rfl, ?_, hsignatures⟩
  exact hdescribes.level?_eq hdescribes' hsame.hoist hscoped.funcs_nodup

/-- The order and the place of function definitions do not matter: two programs that differ in
nothing else both compile or both fail, and if they compile, they do so to the same blocks, with the
same inlined program, levels and signatures. -/
theorem compile_of_sameDefinitions (c : Compiler) (hcomplete : p.complete = true)
    (hcomplete' : q.complete = true) (hnames : p.hoist.NamedByIdentifiers)
    (hnames' : q.hoist.NamedByIdentifiers) (hsame : p.SameDefinitions q) :
    ((∃ o, c.compile p = .ok o) ↔ ∃ o', c.compile q = .ok o') ∧
      ∀ o o', c.compile p = .ok o → c.compile q = .ok o' → o.Same o' := by
  refine ⟨⟨?_, ?_⟩, fun o o' h h' ↦ ?_⟩
  · rintro ⟨o, h⟩
    obtain ⟨o', h', -⟩ := exists_same_of_compile_eq_ok hcomplete hcomplete' hnames hnames' hsame h
    exact ⟨o', h'⟩
  · rintro ⟨o', h'⟩
    obtain ⟨o, h, -⟩ :=
      exists_same_of_compile_eq_ok hcomplete' hcomplete hnames' hnames hsame.symm h'
    exact ⟨o, h⟩
  · obtain ⟨o₁, h₁, hsame₁⟩ :=
      exists_same_of_compile_eq_ok hcomplete hcomplete' hnames hnames' hsame h
    obtain rfl : o₁ = o' := Except.ok.inj (h₁.symm.trans h')
    exact hsame₁

end Compiler

namespace Program

/-- The functions of the model, one listed last and one defined after its first call. -/
def scattered : Program where
  funcs := shrinkage.funcs.drop 1
  stmts := shrinkage.stmts.take 4 ++ (shrinkage.funcs.take 1).map Func.toStmt ++
    shrinkage.stmts.drop 4

end Program

namespace Compiler

theorem compile_of_sameDefinitions_scattered :
    ∃ o o', standard.compile Program.shrinkage = .ok o ∧
      standard.compile Program.scattered = .ok o' ∧ o.Same o' := by
  have hsame : Program.shrinkage.SameDefinitions Program.scattered :=
    ⟨rfl, List.Perm.swap _ _ []⟩
  obtain ⟨hiff, hall⟩ := compile_of_sameDefinitions standard (by decide) (by decide) (by decide)
    (by decide) hsame
  obtain ⟨source, e, hsource, he⟩ := Elaborated.exists_ofProgram_shrinkage
  have hhoist : Program.shrinkage.hoist = Program.shrinkage := rfl
  rw [← hhoist] at hsource he
  obtain ⟨o, ho⟩ := exists_finishes (c := standard) (by decide) (by decide) hsource he
  have hcompile := ho.compile_eq hsource he
  obtain ⟨o', hcompile'⟩ := hiff.mp ⟨o, hcompile⟩
  exact ⟨o, o', hcompile, hcompile', hall o o' hcompile hcompile'⟩

end Compiler

end Stratify
