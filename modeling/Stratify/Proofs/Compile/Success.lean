import Stratify.Proofs.Inlining.Levels
import Stratify.Proofs.Inlining.Meaning
import Stratify.Proofs.Target.Placement

/-!
# When compilation succeeds

The first inference and the two checks of the call graph are the only stages that can fail. After
them, the levels of the source are levels of the elaborated program, in which every fresh variable
has the level of its origin. So the signatures can be read, their levels are no obstacle to the
second inference, and the levels that this one finds suit every statement that has to be placed.
-/

namespace Stratify

/-! ### Hoisting -/

namespace Program

theorem complete_topFunc? {s : Stmt} {f : Func} (h : topFunc? s = some f)
    (hs : s.complete = true) : f.complete = true := by
  cases s with
  | func name params body result =>
      cases h
      exact hs
  | _ => cases h

theorem complete_hoist {p : Program} (h : p.complete = true) : p.hoist.complete = true := by
  simp only [complete, hoist, Bool.and_eq_true, List.all_eq_true] at h ⊢
  refine ⟨fun f hf ↦ ?_, fun s hs ↦ h.2 s (List.mem_filter.mp hs).1⟩
  rcases List.mem_append.mp hf with hf | hf
  · exact h.1 f hf
  · obtain ⟨s, hs, hf⟩ := List.mem_filterMap.mp hf
    exact complete_topFunc? hf (h.2 s hs)

end Program

/-! ### Names of the elaborated program -/

namespace Elaborated

variable {prims : Primitives} {p : Program} {l : Limits} {e : Elaborated}

theorem Inlined.flatten (he : Inlined l p e) (h : p.WellScoped prims) :
    Stmt.flatten e.program.stmts = e.stmts :=
  (he.elaborates h).flat

theorem Inlined.complete (he : Inlined l p e) : e.program.complete = true := by
  obtain ⟨s, hout, -⟩ := he
  simp only [Program.complete, Bool.and_eq_true, List.all_eq_true]
  exact ⟨fun _ hf ↦ (by cases hf), hout.complete⟩

/-- A fresh name starts like the name that it stands for. -/
theorem Inlined.visible (he : Inlined l p e) (h : p.WellScoped prims)
    (hnames : p.NamedByWords) {x : String} (hx : x ∈ Stmt.declNames e.stmts) :
    Draft.Visible x := by
  rcases (he.elaborates h).names x hx with hx | ⟨o, ho, rfl⟩
  · obtain ⟨c, hhead, hc⟩ := Text.exists_head?_of_isWord (hnames x (Program.var_mem_names hx))
    exact Draft.visible_of_head? hhead hc
  · obtain ⟨-, ⟨f, hf, hscope⟩, t, hroot⟩ := (he.elaborates h).traces o ho
    have hmem := Program.local_mem_names (Func.of_named?_eq_some hf).2 hscope
    obtain ⟨c, hhead, hc⟩ := Text.exists_head?_of_isWord (hnames _ hmem)
    refine Draft.visible_of_head? (c := c) ?_ hc
    rw [hroot, String.toList_append, List.head?_append, hhead, Option.some_or]

theorem Inlined.apart (he : Inlined l p e) (h : p.WellScoped prims)
    (hnames : p.NamedByWords) : e.program.Apart := by
  have hslot : ∀ s ∈ e.program.slots, ∃ x ∈ Stmt.declNames e.stmts, s = .var ⟨"", x⟩ := by
    intro s hs
    rcases Program.mem_slots.mp hs with ⟨x, hx, rfl⟩ | ⟨f, hf, -⟩
    · exact ⟨x, he.flatten h ▸ hx, rfl⟩
    · cases hf
  refine ⟨⟨fun s hs ↦ ?_, fun _ hf ↦ (by cases hf)⟩, fun s hs t ht hkey ↦ ?_⟩
  · obtain ⟨x, hx, rfl⟩ := hslot s hs
    exact he.visible h hnames hx
  · obtain ⟨x, -, rfl⟩ := hslot s hs
    obtain ⟨y, -, rfl⟩ := hslot t ht
    exact congrArg (fun z ↦ Slot.var ⟨"", z⟩) hkey

/-! ### Levels of the signatures -/

/-- The levels of the origins, as a typing of the source shows them. -/
def originLevels (A : Assignment) (e : Elaborated) : List (String × Level) :=
  e.origins.map fun o ↦ (o.1, A (.var ⟨o.2.func, o.2.name⟩))

theorem level?_of_mem {A : String → Level} {fn : String} {params : List Level} {result : Level}
    {scope : List String} {x : String} (hx : x ∈ scope) :
    Signature.level? ⟨fn, params, scope.map fun y ↦ (y, A y), result⟩ x = some (A x) := by
  have hsome : (scope.find? fun y ↦ decide (y = x)).isSome = true :=
    List.find?_isSome.mpr ⟨x, hx, by simp⟩
  obtain ⟨y, hy⟩ := Option.isSome_iff_exists.mp hsome
  have hyx : y = x := by simpa using List.find?_some hy
  simp only [Signature.level?, List.find?_map, Function.comp_def, hy, hyx, Option.map_some]

theorem originLevel_eq {t : Typing} {A : Assignment} (ht : t.Shows p A) {o : Origin} {f : Func}
    (hf : p.func? o.func = some f) (ho : o.name ∈ f.scope) :
    originLevel t o = .ok (A (.var ⟨o.func, o.name⟩)) := by
  obtain ⟨hname, hmem⟩ := Func.of_named?_eq_some hf
  have hsig := ht.signatures f hmem
  rw [hname] at hsig
  simp only [originLevel, hsig]
  rw [level?_of_mem (A := fun x ↦ A (.var ⟨o.func, x⟩)) ho]

theorem mapM_eq_ok {α β ε : Type} {f : α → Except ε β} {g : α → β} {as : List α}
    (h : ∀ a ∈ as, f a = .ok (g a)) : as.mapM f = .ok (as.map g) := by
  induction as with
  | nil => rfl
  | cons a as ih =>
      rw [List.forall_mem_cons] at h
      rw [List.mapM_cons, h.1, ih h.2]
      rfl

theorem Inlined.seeds_eq {t : Typing} {A : Assignment} (he : Inlined l p e)
    (h : p.WellScoped prims) (ht : t.Shows p A) : e.seeds t = .ok (e.originLevels A) := by
  refine mapM_eq_ok fun o ho ↦ ?_
  obtain ⟨f, hf, hscope⟩ := ((he.elaborates h).traces o ho).owner
  simp only [originLevel_eq ht hf hscope]
  rfl

theorem mem_ofLevels {A : Assignment} {x : String} {c : LevelCode}
    (h : (x, c) ∈ Seeds.ofLevels (e.originLevels A)) :
    ∃ o ∈ e.origins, x = o.1 ∧ c = (A (.var ⟨o.2.func, o.2.name⟩)).code := by
  obtain ⟨⟨y, k⟩, hmem, heq⟩ := List.mem_map.mp h
  obtain ⟨o, ho, hy⟩ := List.mem_map.mp hmem
  cases hy
  cases heq
  exact ⟨o, ho, rfl, rfl⟩

theorem Inlined.seeds_valid (he : Inlined l p e) (h : p.WellScoped prims) (A : Assignment) :
    (Seeds.ofLevels (e.originLevels A)).ValidFor e.program := by
  rintro ⟨x, c⟩ hx
  obtain ⟨o, ho, rfl, rfl⟩ := mem_ofLevels hx
  rw [he.flatten h]
  exact ⟨((he.elaborates h).traces o ho).declared, by simp⟩

theorem Inlined.seeds_hold (he : Inlined l p e) (h : p.WellScoped prims) (A : Assignment) :
    (Seeds.ofLevels (e.originLevels A)).Hold (A.elaborated e.origins) := by
  intro x c hx k hk
  obtain ⟨o, ho, rfl, rfl⟩ := mem_ofLevels hx
  rw [Level.level?_code] at hk
  cases hk
  rw [Assignment.elaborated_origin (he.elaborates h).origins_nodup ho]

/-! ### The later stages -/

/-- The levels of the source, carried over to the copies, are a solution of the second inference. -/
theorem Inlined.infer_again {A : Assignment} (he : Inlined l p e) (h : p.WellScoped prims)
    (hnames : p.NamedByWords) (hA : p.Fits prims [] A) :
    ∃ t, Typing.infer prims e.program (.ofLevels (e.originLevels A)) = .ok t ∧
      t.Describes prims e.program (.ofLevels (e.originLevels A)) := by
  have hspec : Decides _ _ (Typing.infer prims e.program (.ofLevels (e.originLevels A))) :=
    Typing.infer_spec he.complete (he.apart h hnames) (he.seeds_valid h A)
  have hfits := he.fits h hA (he.seeds_hold h A)
  obtain ⟨t, ht⟩ := hspec.ok_iff.mpr ⟨(he.elaborates h).wellScoped, _, hfits⟩
  exact ⟨t, ht, (hspec.of_eq_ok ht).2⟩

end Elaborated

namespace Typing

variable {prims : Primitives} {p : Program} {seeds : Seeds} {t : Typing}

/-- Levels that fit suit every statement that has to be placed. -/
theorem Describes.places (h : t.Describes prims p seeds) (hscoped : p.WellScoped prims)
    (hfuncs : p.funcs = []) {before after : List Stmt} {s : Stmt}
    (heq : Stmt.flatten p.stmts = before ++ s :: after) : t.Places (Stmt.declNames before) s := by
  have hmem : s ∈ Stmt.flatten p.stmts := heq ▸ List.mem_append_right _ (List.mem_cons_self ..)
  have hafter := hscoped.stmts.stmts before s after heq
  have hfits := h.fits.stmts.stmts s hmem
  have hbefore : ∀ x ∈ Stmt.declNames before, x ∈ Stmt.declNames (Stmt.flatten p.stmts) := by
    intro x hx
    rw [heq, Stmt.declNames_append]
    exact List.mem_append_left _ hx
  have hlevel {x : String} (hx : x ∈ Stmt.declNames (Stmt.flatten p.stmts)) :=
    (t.levelOf?_levelMap x).trans (h.shows.vars x hx)
  have hread {x : String} {l : Level} (hx : x ∈ Stmt.declNames before)
      (hle : Draft.levels t.levels.level (.var ⟨"", x⟩) ≤ l) : t.MayRead l x :=
    ⟨_, hlevel (hbefore x hx), hle⟩
  cases s with
  | decl type x data init =>
      have hx : x ∈ Stmt.declNames (Stmt.flatten p.stmts) :=
        List.mem_filterMap.mpr ⟨_, hmem, rfl⟩
      refine ⟨_, hlevel hx, fun y hy ↦ ?_⟩
      cases init with
      | none => cases hy
      | some e =>
          have hy' : y ∈ e.reads Deps.noUser := by simpa [Expr.readsAll] using hy
          exact hread ((hafter.2 e rfl).vars y hy') ((hfits e rfl).le hfuncs hy')
  | assign x e =>
      obtain ⟨hx, -, hscope⟩ := hafter
      exact ⟨hx, _, hlevel (hbefore x hx),
        fun y hy ↦ hread (hscope.vars y hy) (hfits.le hfuncs hy)⟩
  | sample x dist args =>
      obtain ⟨hx, -, hscope⟩ := hafter
      refine ⟨hx, fun y hy ↦ ?_⟩
      rcases List.mem_cons.mp hy with rfl | hy
      · exact hread hx hfits.1
      · obtain ⟨e, he, hy⟩ := Expr.mem_readsAll.mp hy
        exact hread ((hscope e he).vars y hy) ((hfits.2 e he).le hfuncs hy)
  | _ => exact hafter.elim

end Typing

namespace Compiler

variable {c : Compiler} {program : Program}

theorem calls_pos (c : Compiler) : 0 < c.settings.calls := by
  have hsound := c.sound
  simp only [Settings.problems, List.append_eq_nil_iff] at hsound
  by_contra hle
  rw [if_pos (Int.not_lt.mp hle)] at hsound
  cases hsound.1.1.2

/-- What the stages after elaboration make of a typing and an elaborated program. -/
structure Finishes (c : Compiler) (source : Typing) (e : Elaborated) (o : Output) : Prop where
  seeds : ∃ seeds, e.seeds source = .ok seeds ∧
    Typing.infer c.settings.primitives e.program (.ofLevels seeds) = .ok o.levels
  layout : Layout.ofProgram o.levels.levelMap e.program = .ok o.layout
  source_eq : o.source = source
  elaborated_eq : o.elaborated = e

theorem exists_finishes (hcomplete : program.complete = true)
    (hnames : program.hoist.NamedByIdentifiers) {source : Typing}
    (hsource : Typing.infer c.settings.primitives program.hoist [] = .ok source) {e : Elaborated}
    (he : Elaborated.ofProgram c.settings.limits program.hoist = .ok e) :
    ∃ o, c.Finishes source e o := by
  have hhoist := Program.complete_hoist hcomplete
  obtain ⟨⟨hscoped, -⟩, hdescribes⟩ :=
    (Typing.infer_spec hhoist hnames.apart (Seeds.validFor_nil _)).of_eq_ok hsource
  have hinlined := Elaborated.inlined_of_eq_ok hscoped hhoist he
  obtain ⟨levels, hlevels, hagain⟩ := hinlined.infer_again hscoped hnames.words hdescribes.fits
  refine ⟨⟨⟨(Stmt.flatten e.program.stmts).map fun s ↦ (levels.blockOf s, s)⟩, source, e, levels⟩,
    ⟨_, hinlined.seeds_eq hscoped hdescribes.shows, hlevels⟩, ?_, rfl, rfl⟩
  refine (Layout.ofProgram_eq_ok_iff rfl).mpr ⟨fun before s after heq ↦ ?_, rfl⟩
  exact hagain.places (hinlined.elaborates hscoped).wellScoped rfl heq

/-- What the stages of a compilation give. -/
theorem compile_eq_ok_iff {o : Output} : c.compile program = .ok o ↔
    Typing.infer c.settings.primitives program.hoist [] = .ok o.source ∧
      Elaborated.ofProgram c.settings.limits program.hoist = .ok o.elaborated ∧
      c.inferAgain o.source o.elaborated = .ok o.levels ∧
      Layout.ofProgram o.levels.levelMap o.elaborated.program = .ok o.layout := by
  simp only [compile, Fault.bind_eq_ok_iff, Fault.mapError_eq_ok_iff]
  constructor
  · rintro ⟨source, hsource, e, he, levels, hlevels, layout, hlayout, ho⟩
    cases ho
    exact ⟨hsource, he, hlevels, hlayout⟩
  · rintro ⟨hsource, he, hlevels, hlayout⟩
    exact ⟨_, hsource, _, he, _, hlevels, _, hlayout, rfl⟩

theorem Finishes.compile_eq {source : Typing} {e : Elaborated} {o : Output}
    (h : c.Finishes source e o)
    (hsource : Typing.infer c.settings.primitives program.hoist [] = .ok source)
    (he : Elaborated.ofProgram c.settings.limits program.hoist = .ok e) :
    c.compile program = .ok o := by
  obtain ⟨⟨seeds, hseeds, hlevels⟩, hlayout, rfl, rfl⟩ := h
  refine compile_eq_ok_iff.mpr ⟨hsource, he, ?_, hlayout⟩
  rw [inferAgain, hseeds]
  exact hlevels

theorem compile_eq_of_infer_error {fault : Fault}
    (h : Typing.infer c.settings.primitives program.hoist [] = .error fault) :
    c.compile program = .error fault := by
  simp only [compile, h, bind, Except.bind]

theorem compile_eq_of_elaborate_error {source : Typing} {d : Diagnostic}
    (hsource : Typing.infer c.settings.primitives program.hoist [] = .ok source)
    (he : Elaborated.ofProgram c.settings.limits program.hoist = .error d) :
    c.compile program = .error (.report d) := by
  simp only [compile, hsource, he, bind, Except.bind, Except.mapError]

/-- Compilation succeeds exactly if the first inference does and the limits allow to unroll the
calls. Nothing that follows the checks of the call graph can fail, so after the first inference
these checks are the only source of errors. -/
theorem compile_succeeds_iff (c : Compiler) (program : Program)
    (hcomplete : program.complete = true) (hnames : program.hoist.NamedByIdentifiers)
    (hcalls : c.settings.calls < 2 ^ 61) :
    ((∃ o, c.compile program = .ok o) ↔
      (∃ source, Typing.infer c.settings.primitives program.hoist [] = .ok source) ∧
        c.settings.limits.Allow program.hoist) ∧
    (∀ source, Typing.infer c.settings.primitives program.hoist [] = .ok source →
      (CallGraph.ofProgram program.hoist).checkDepth c.settings.depth = .ok () →
      (CallGraph.ofProgram program.hoist).checkSize program.hoist.stmts c.settings.calls =
        .ok () →
      ∃ e o, Elaborated.ofProgram c.settings.limits program.hoist = .ok e ∧
        c.Finishes source e o) ∧
    ∀ fault, c.compile program = .error fault → ∃ d : Diagnostic, fault = .report d ∧
      (Typing.infer c.settings.primitives program.hoist [] = .error fault ∧
          d.issue.kind ≠ .internalInvariantViolation ∨
        (∃ source, Typing.infer c.settings.primitives program.hoist [] = .ok source) ∧
          d.issue.kind = .nonTerminatingElaboration ∧
          ((CallGraph.ofProgram program.hoist).checkDepth c.settings.depth = .error d ∨
            (CallGraph.ofProgram program.hoist).checkSize program.hoist.stmts c.settings.calls =
              .error d)) := by
  have hhoist := Program.complete_hoist hcomplete
  have hspec : Decides _ _ (Typing.infer c.settings.primitives program.hoist []) :=
    Typing.infer_spec hhoist hnames.apart (Seeds.validFor_nil _)
  cases hsource : Typing.infer c.settings.primitives program.hoist [] with
  | error fault =>
      have hcompile := compile_eq_of_infer_error hsource
      obtain ⟨-, d, rfl, hkind⟩ := hspec.of_eq_error hsource
      simp only [hcompile]
      refine ⟨by simp, fun _ h ↦ (by cases h), ?_⟩
      rintro _ ⟨⟩
      exact ⟨d, rfl, Or.inl ⟨rfl, hkind⟩⟩
  | ok source =>
      have hscoped := (hspec.of_eq_ok hsource).1.1
      rcases Elaborated.ofProgram_cases (l := c.settings.limits) hscoped hhoist c.calls_pos.le
        hcalls with
        ⟨hallow, e, he⟩ | ⟨hallow, d, he, hkind, hcheck⟩
      · obtain ⟨o, ho⟩ := exists_finishes hcomplete hnames hsource he
        have hcompile := ho.compile_eq hsource he
        simp only [hcompile, he]
        refine ⟨by simpa using hallow, ?_, fun _ h ↦ (by cases h)⟩
        rintro _ ⟨⟩ - -
        exact ⟨e, o, rfl, ho⟩
      · have hcompile := compile_eq_of_elaborate_error hsource he
        simp only [hcompile]
        refine ⟨by simpa using hallow, fun _ _ hdepth hsize ↦ ?_, ?_⟩
        · rcases hcheck with hcheck | hcheck
          · cases hdepth.symm.trans hcheck
          · cases hsize.symm.trans hcheck
        · rintro _ ⟨⟩
          exact ⟨d, rfl, Or.inr ⟨⟨source, rfl⟩, hkind, hcheck⟩⟩

def standard : Compiler :=
  ⟨.default, by decide⟩

theorem compile_succeeds_shrinkage :
    (∃ o, standard.compile Program.shrinkage = .ok o) ∧
      Settings.default.limits.Allow Program.shrinkage.hoist := by
  have hspec := compile_succeeds_iff standard Program.shrinkage (by decide) (by decide) (by decide)
  obtain ⟨source, e, hsource, he⟩ := Elaborated.exists_ofProgram_shrinkage
  have hhoist : Program.shrinkage.hoist = Program.shrinkage := rfl
  have hsource' : Typing.infer standard.settings.primitives Program.shrinkage.hoist [] =
      .ok source := by
    rw [hhoist]
    exact hsource
  have he' : Elaborated.ofProgram standard.settings.limits Program.shrinkage.hoist = .ok e := by
    rw [hhoist]
    exact he
  obtain ⟨o, ho⟩ := exists_finishes (by decide) (by decide) hsource' he'
  have hcompile : ∃ o, standard.compile Program.shrinkage = .ok o :=
    ⟨o, ho.compile_eq hsource' he'⟩
  exact ⟨hcompile, (hspec.1.mp hcompile).2⟩

end Compiler

end Stratify
