import Stratify.Proofs.Calls.Reordering
import Stratify.Proofs.Inlining.Elaboration
import Stratify.Proofs.Typing.Principal

/-!
# The order of the functions in level inference

The rules of the language look up functions by name and otherwise speak of each of them alone. So
programs with the same functions in another order have the same fitting levels. Inference finds the
best of these, so it succeeds on both programs or on none, and shows the same levels.
-/

namespace Stratify

namespace Globals

/-- The same functions are found by their names. -/
structure SameFuncs (g g' : Globals) : Prop where
  prims : g'.prims = g.prims
  func? : ∀ fn, g'.func? fn = g.func? fn

variable {g g' : Globals}

theorem SameFuncs.symm (h : SameFuncs g g') : SameFuncs g' g :=
  ⟨h.prims.symm, fun fn ↦ (h.func? fn).symm⟩

theorem SameFuncs.admits (h : SameFuncs g g') {c : Call} (hc : g.Admits c) : g'.Admits c := by
  rwa [Admits, h.func?, h.prims]

end Globals

variable {g g' : Globals} {A : Assignment} {fn : String}

namespace Expr

theorem Scoped.of_sameFuncs {Γ : String → Prop} {e : Expr} (h : e.Scoped g Γ)
    (hg : g.SameFuncs g') : e.Scoped g' Γ :=
  ⟨h.vars, fun c hc ↦ hg.admits (h.calls c hc)⟩

mutual

theorem levelIn_of_sameFuncs (hg : g.SameFuncs g') :
    ∀ e : Expr, e.levelIn g' A fn = e.levelIn g A fn
  | hole => rfl
  | lit .. => rfl
  | var _ => rfl
  | unary _ x => by rw [levelIn, levelIn, levelIn_of_sameFuncs hg x]
  | binary _ x y => by
      rw [levelIn, levelIn, levelIn_of_sameFuncs hg x, levelIn_of_sameFuncs hg y]
  | index x indices => by
      rw [levelIn, levelIn, levelIn_of_sameFuncs hg x, levelInAll_of_sameFuncs hg indices]
  | call callee args => by
      rw [levelIn, levelIn, hg.func?, levelInAll_of_sameFuncs hg args]

theorem levelInAll_of_sameFuncs (hg : g.SameFuncs g') :
    ∀ es : List Expr, levelInAll g' A fn es = levelInAll g A fn es
  | [] => rfl
  | e :: es => by
      rw [levelInAll, levelInAll, levelIn_of_sameFuncs hg e, levelInAll_of_sameFuncs hg es]

end

theorem FlowsTo.of_sameFuncs {e : Expr} {l : Level} (h : e.FlowsTo g A fn l)
    (hg : g.SameFuncs g') : e.FlowsTo g' A fn l := by
  refine ⟨(levelIn_of_sameFuncs hg e).trans_le h.level_le, fun c hc f hf pa hpa ↦ ?_⟩
  rw [hg.func?] at hf
  rw [levelIn_of_sameFuncs hg]
  exact h.passes c hc f hf pa hpa

end Expr

namespace Stmt

theorem ScopedAfter.of_sameFuncs {params : List String} {before : List Stmt} {s : Stmt}
    (h : s.ScopedAfter g fn params before) (hg : g.SameFuncs g') :
    s.ScopedAfter g' fn params before := by
  cases s with
  | decl type x data init => exact ⟨h.1, fun e he ↦ (h.2 e he).of_sameFuncs hg⟩
  | assign x e => exact ⟨h.1, h.2.1, h.2.2.of_sameFuncs hg⟩
  | sample x dist args =>
      exact ⟨h.1, hg.prims.symm ▸ h.2.1, fun e he ↦ (h.2.2 e he).of_sameFuncs hg⟩
  | _ => exact h.elim

theorem ScopedIn.of_sameFuncs {params : List String} {ss : List Stmt}
    (h : ScopedIn g fn params ss) (hg : g.SameFuncs g') : ScopedIn g' fn params ss :=
  ⟨h.nodup, fun before s after heq ↦ (h.stmts before s after heq).of_sameFuncs hg⟩

theorem Fits.of_sameFuncs {s : Stmt} (h : s.Fits g A fn) (hg : g.SameFuncs g') :
    s.Fits g' A fn := by
  cases s with
  | decl type x data init => exact fun e he ↦ (h e he).of_sameFuncs hg
  | assign x e => exact Expr.FlowsTo.of_sameFuncs h hg
  | sample x dist args => exact ⟨h.1, fun e he ↦ (h.2 e he).of_sameFuncs hg⟩
  | _ => trivial

theorem FitIn.of_sameFuncs {ss : List Stmt} (h : FitIn g A fn ss) (hg : g.SameFuncs g') :
    FitIn g' A fn ss :=
  ⟨fun s hs ↦ (h.stmts s hs).of_sameFuncs hg, h.data, h.unassigned⟩

end Stmt

namespace Program

/-- Two programs have the same statements, and the same functions in any order. -/
structure SameFuncs (p q : Program) : Prop where
  stmts : q.stmts = p.stmts
  funcs : q.funcs.Perm p.funcs

variable {prims : Primitives} {p q : Program} {seeds : Seeds}

theorem SameFuncs.symm (h : p.SameFuncs q) : q.SameFuncs p :=
  ⟨h.stmts.symm, h.funcs.symm⟩

theorem SameFuncs.nodup (h : p.SameFuncs q) (hnodup : (p.funcs.map Func.name).Nodup) :
    (q.funcs.map Func.name).Nodup :=
  (h.funcs.map Func.name).nodup_iff.mpr hnodup

theorem SameFuncs.graph (h : p.SameFuncs q) (hnodup : (p.funcs.map Func.name).Nodup) :
    (CallGraph.ofProgram p).SameCalls (CallGraph.ofProgram q) :=
  CallGraph.sameCalls_of_perm h.funcs hnodup

theorem SameFuncs.func? (h : p.SameFuncs q) (hnodup : (p.funcs.map Func.name).Nodup)
    (fn : String) : q.func? fn = p.func? fn := by
  rw [CallGraph.func?_ofProgram hnodup, CallGraph.func?_ofProgram (h.nodup hnodup)]
  exact CallGraph.func?_of_perm h.funcs hnodup fn

theorem SameFuncs.globals (h : p.SameFuncs q) (hnodup : (p.funcs.map Func.name).Nodup) :
    (p.globals prims).SameFuncs (q.globals prims) :=
  ⟨rfl, h.func? hnodup⟩

theorem SameFuncs.wellScoped (h : p.SameFuncs q) (hp : p.WellScoped prims) :
    q.WellScoped prims := by
  have hg : (p.globals prims).SameFuncs (q.globals prims) := h.globals hp.funcs_nodup
  have hmem {f : Func} (hf : f ∈ q.funcs) : f ∈ p.funcs := h.funcs.mem_iff.mp hf
  refine ⟨h.nodup hp.funcs_nodup, fun f hf ↦ hp.not_primitive f (hmem hf),
    fun f hf ↦ (hp.bodies f (hmem hf)).of_sameFuncs hg, fun f hf ↦ ?_, ?_⟩
  · obtain ⟨e, he, hscoped⟩ := hp.results f (hmem hf)
    exact ⟨e, he, hscoped.of_sameFuncs hg⟩
  · rw [h.stmts]
    exact hp.stmts.of_sameFuncs hg

theorem SameFuncs.fits (h : p.SameFuncs q) (hnodup : (p.funcs.map Func.name).Nodup)
    (hA : p.Fits prims seeds A) : q.Fits prims seeds A := by
  have hg : (p.globals prims).SameFuncs (q.globals prims) := h.globals hnodup
  have hmem {f : Func} (hf : f ∈ q.funcs) : f ∈ p.funcs := h.funcs.mem_iff.mp hf
  refine ⟨fun f hf ↦ (hA.bodies f (hmem hf)).of_sameFuncs hg,
    fun f hf e he ↦ (hA.results f (hmem hf) e he).of_sameFuncs hg, ?_, hA.seeds⟩
  rw [h.stmts]
  exact hA.stmts.of_sameFuncs hg

theorem SameFuncs.slots (h : p.SameFuncs q) : q.slots.Perm p.slots := by
  rw [Program.slots, Program.slots, h.stmts]
  exact (h.funcs.flatMap_right _).append_left _

theorem SameFuncs.mentions (h : p.SameFuncs q) : q.mentions.Perm p.mentions := by
  rw [Program.mentions, Program.mentions, h.stmts]
  exact (h.funcs.flatMap_right _).append_right _

end Program

namespace Typing

variable {prims : Primitives} {p q : Program} {seeds : Seeds} {t t' : Typing}

/-- The best levels are the same, slot by slot. -/
theorem Describes.level_eq (h : t.Describes prims p seeds) (h' : t'.Describes prims q seeds)
    (hsame : p.SameFuncs q) (hnodup : (p.funcs.map Func.name).Nodup) {s : Slot}
    (hs : s ∈ p.slots) : t'.levels.level s.key = t.levels.level s.key := by
  have hfits := hsame.fits hnodup h.fits
  have hfits' := hsame.symm.fits (hsame.nodup hnodup) h'.fits
  exact h.level_eq_of_fits h' hs (hsame.slots.mem_iff.mpr hs) hfits' hfits rfl rfl

theorem Describes.level?_eq_none (h : t.Describes prims p seeds) {x : String}
    (hx : x ∉ Stmt.declNames (Stmt.flatten p.stmts)) : t.level? x = none := by
  have hnone : t.find? x = none := by
    rw [← Option.not_isSome_iff_eq_none, find?, Env.find?_isSome h.coherent, h.stmts,
      Stmt.names_scopeVars]
    exact hx
  rw [level?, hnone]

theorem Describes.signature?_eq_none (h : t.Describes prims p seeds) {fn : String}
    (hfn : fn ∉ p.funcs.map Func.name) : t.signature? fn = none := by
  rw [signature?, h.signatures, List.find?_eq_none]
  intro sig hsig heq
  obtain ⟨f, hf, rfl⟩ := List.mem_map.mp hsig
  exact hfn (List.mem_map.mpr ⟨f, hf, eq_of_beq heq⟩)

theorem Describes.level?_eq (h : t.Describes prims p seeds) (h' : t'.Describes prims q seeds)
    (hsame : p.SameFuncs q) (hnodup : (p.funcs.map Func.name).Nodup) (x : String) :
    t'.level? x = t.level? x := by
  by_cases hx : x ∈ Stmt.declNames (Stmt.flatten p.stmts)
  · rw [h.shows.vars x hx, h'.shows.vars x (hsame.stmts.symm ▸ hx), Option.some.injEq]
    exact h.level_eq h' hsame hnodup (Program.var_mem_slots hx)
  · rw [h.level?_eq_none hx, h'.level?_eq_none (hsame.stmts.symm ▸ hx)]

theorem Describes.signature?_eq (h : t.Describes prims p seeds) (h' : t'.Describes prims q seeds)
    (hsame : p.SameFuncs q) (hnodup : (p.funcs.map Func.name).Nodup) (fn : String) :
    t'.signature? fn = t.signature? fn := by
  have hmem := hsame.funcs.map Func.name |>.mem_iff (a := fn)
  by_cases hfn : fn ∈ p.funcs.map Func.name
  · obtain ⟨f, hf, rfl⟩ := List.mem_map.mp hfn
    rw [h.shows.signatures f hf, h'.shows.signatures f (hsame.funcs.mem_iff.mpr hf)]
    have hlocal (x : String) (hx : x ∈ f.scope) :
        Draft.levels t'.levels.level (.var ⟨f.name, x⟩) =
          Draft.levels t.levels.level (.var ⟨f.name, x⟩) :=
      h.level_eq h' hsame hnodup (Program.local_mem_slots hf hx)
    rw [Option.some.injEq, Signature.mk.injEq]
    refine ⟨rfl, List.map_congr_left fun x hx ↦ hlocal x (List.mem_append_left _ hx),
      List.map_congr_left fun x hx ↦ ?_, ?_⟩
    · rw [hlocal x hx]
    · exact h.level_eq h' hsame hnodup (Program.result_mem_slots hf)
  · rw [h.signature?_eq_none hfn, h'.signature?_eq_none (mt hmem.mp hfn)]

end Typing

end Stratify
