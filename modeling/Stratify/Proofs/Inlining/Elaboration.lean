import Stratify.Proofs.Calls.Size
import Stratify.Proofs.Inlining.Scoping

/-!
# Elaboration of well-scoped programs

Elaboration of a well-scoped program fails only if calls are nested too deeply or stand for too
many bodies. Otherwise it gives a well-scoped program without functions, which declares the
variables of the source and one fresh variable for each parameter and local of each copy.
-/

namespace Stratify

namespace Stmt

variable {g : Globals} {fn : String} {ps : List String}

theorem ScopedIn.scopedAfter {ss : List Stmt} (h : ScopedIn g fn ps ss) {s : Stmt} (hs : s ∈ ss) :
    ∃ before, s.ScopedAfter g fn ps before := by
  obtain ⟨before, after, heq⟩ := List.append_of_mem hs
  exact ⟨before, h.stmts before s after heq⟩

theorem ScopedAfter.admits {before : List Stmt} {s : Stmt} (h : s.ScopedAfter g fn ps before) :
    ∀ c ∈ s.calls, g.Admits c := by
  intro c hc
  cases s with
  | decl type x data init =>
      cases init with
      | none => cases hc
      | some e => exact (h.2 e rfl).calls c hc
  | assign x e => exact h.2.2.calls c hc
  | sample x dist args => exact (Expr.scopedAll_iff.mpr h.2.2).calls c hc
  | _ => exact h.elim

theorem ScopedAfter.isFlat {before : List Stmt} {s : Stmt} (h : s.ScopedAfter g fn ps before) :
    s.isFlat = true := by
  cases s with
  | block list => exact h.elim
  | _ => rfl

theorem ScopedAfter.ne_func {before : List Stmt} {s : Stmt} (h : s.ScopedAfter g fn ps before)
    (name : String) (params : List Param) (body : Option (List Stmt)) (result : Option Expr) :
    s ≠ .func name params body result := by
  rintro rfl
  exact h

end Stmt

namespace CallGraph

theorem func?_ofProgram {p : Program} (hnodup : (p.funcs.map Func.name).Nodup) (fn : String) :
    p.func? fn = (ofProgram p).func? fn := by
  refine Option.ext fun f ↦ ?_
  rw [Program.func?, Func.named?_eq_some_iff hnodup, func?_eq_some_iff hnodup]
  rfl

end CallGraph

namespace Program.WellScoped

variable {prims : Primitives} {p : Program}

theorem func?_eq (h : p.WellScoped prims) (fn : String) :
    p.func? fn = (CallGraph.ofProgram p).func? fn :=
  CallGraph.func?_ofProgram h.funcs_nodup fn

theorem arity (h : p.WellScoped prims) {c : Call} (hc : (p.globals prims).Admits c) {f : Func}
    (hf : (CallGraph.ofProgram p).func? c.fn = some f) : c.args.length = f.params.length := by
  have hfunc : (p.globals prims).func? c.fn = some f := (h.func?_eq c.fn).trans hf
  rwa [Globals.Admits, hfunc] at hc

theorem sound (h : p.WellScoped prims) : Inlining.Sound prims p (CallGraph.ofProgram p) where
  func? := h.func?_eq
  params _ f hf :=
    (List.nodup_append.mp (h.bodies f (Inlining.func?_name hf).2).nodup).1
  bodies _ f hf := (Stmt.scopedIn_iff.mp (h.bodies f (Inlining.func?_name hf).2)).2
  results _ f hf e he := by
    obtain ⟨e', he', hscoped⟩ := h.results f (Inlining.func?_name hf).2
    cases Option.some.inj (he.symm.trans he')
    exact hscoped

theorem ready (h : p.WellScoped prims) (hcomplete : p.complete = true) :
    ∀ f ∈ p.funcs, Inlining.Ready (CallGraph.ofProgram p) f := by
  intro f hf
  obtain ⟨e, he, hscoped⟩ := h.results f hf
  refine ⟨complete_func hcomplete hf, by simp [he], (h.bodies f hf).nodup, fun s hs ↦ ?_,
    fun c hc f' hf' ↦ h.arity ?_ hf'⟩
  · obtain ⟨before, hafter⟩ := (h.bodies f hf).scopedAfter hs
    exact hafter.ne_func
  · rw [Func.calls_eq, ← Stmt.callsAll_flatten, he] at hc
    rcases List.mem_append.mp hc with hc | hc
    · obtain ⟨s, hs, hc⟩ := Stmt.mem_callsAll.mp hc
      obtain ⟨before, hafter⟩ := (h.bodies f hf).scopedAfter hs
      exact hafter.admits c hc
    · exact hscoped.calls c hc

theorem stmtsReady (h : p.WellScoped prims) (hcomplete : p.complete = true) {room : Nat}
    (hnest : ∀ fn ∈ (CallGraph.ofProgram p).names, (CallGraph.ofProgram p).NestsWithin room fn) :
    Inlining.StmtsReady (CallGraph.ofProgram p) room (Stmt.flatten p.stmts) := by
  refine ⟨Stmt.isFlat_flatten _, Stmt.complete_flatten (complete_stmts hcomplete), fun s hs ↦ ?_,
    fun s hs c hc f hf ↦ ?_⟩
  all_goals obtain ⟨before, hafter⟩ := h.stmts.scopedAfter hs
  · exact hafter.ne_func
  · refine ⟨h.arity (hafter.admits c hc) hf, hnest c.fn (CallGraph.mem_names.mpr ?_)⟩
    simp [CallGraph.isUser, hf]

end Program.WellScoped

namespace Inlining

variable {prims : Primitives} {p : Program}

/-- What elaboration makes of a program. -/
structure Elaborates (prims : Primitives) (p : Program) (out : List Stmt)
    (origins : List (String × Origin)) : Prop where
  wellScoped : (Program.ofStmts out).WellScoped prims
  flat : Stmt.flatten out = out
  origins_nodup : (origins.map Prod.fst).Nodup
  traces : ∀ o ∈ origins, Traces p out o
  kept : ∀ x ∈ Stmt.declNames (Stmt.flatten p.stmts), x ∈ Stmt.declNames out
  not_origin : ∀ x ∈ Stmt.declNames (Stmt.flatten p.stmts), ∀ o ∈ origins, o.1 ≠ x
  names : ∀ y ∈ Stmt.declNames out,
    y ∈ Stmt.declNames (Stmt.flatten p.stmts) ∨ ∃ o ∈ origins, o.1 = y

theorem find?_origin {origins : List (String × Origin)} (hnodup : (origins.map Prod.fst).Nodup)
    {o : String × Origin} (ho : o ∈ origins) :
    (origins.find? fun o' ↦ decide (o'.1 = o.1)) = some o := by
  have hsome : (origins.find? fun o' ↦ decide (o'.1 = o.1)).isSome = true :=
    List.find?_isSome.mpr ⟨o, ho, by simp⟩
  obtain ⟨o', ho'⟩ := Option.isSome_iff_exists.mp hsome
  have hname : o'.1 = o.1 := by simpa using List.find?_some ho'
  rw [ho', List.inj_on_of_nodup_map hnodup (List.mem_of_find?_eq_some ho') ho hname]

theorem find?_not_origin {origins : List (String × Origin)} {x : String}
    (hx : ∀ o ∈ origins, o.1 ≠ x) : (origins.find? fun o ↦ decide (o.1 = x)) = none :=
  List.find?_eq_none.mpr fun o ho ↦ by simpa using hx o ho

theorem start_coherent (sep : String) (p : Program) : (start sep p).Coherent :=
  ⟨List.nodup_nil, by simp [start]⟩

theorem renames_start (sep : String) (p : Program) :
    Renames id (Stmt.declNames (Stmt.flatten p.stmts)) (start sep p) := by
  refine ⟨fun x hx ↦ ?_, fun _ _ _ _ h ↦ h⟩
  rw [start, NameSupply.taken_reserveAll]
  exact Or.inl (List.mem_append_right _ (Stmt.mem_mentions_of_mem_declNames hx))

theorem elaborates (h : p.WellScoped prims) {room : Nat} {sep : String} {out : List Stmt}
    {s : State} (hout : InlinesStmts (CallGraph.ofProgram p) room id (Stmt.flatten p.stmts)
      (start sep p) out s) : Elaborates prims p out s.origins := by
  have hrenames := renames_start sep p
  obtain ⟨hemits, hcovers⟩ := hout.scope h.sound "" [] [] _ [] (Stmt.scopedIn_iff.mp h.stmts).2
    (fun _ hx ↦ hx) hrenames ⟨fun _ _ ↦ Iff.rfl, fun _ _ _ _ hmem ↦ (by cases hmem)⟩
    (fun _ hy ↦ by cases hy)
  have hscoped : Stmt.ScopedIn (bare prims) "" [] out :=
    Stmt.scopedIn_iff.mpr ⟨List.nodup_nil, hemits.obeys⟩
  have hflat : Stmt.flatten out = out := Stmt.flatten_of_isFlat fun t ht ↦ by
    obtain ⟨before, hafter⟩ := hscoped.scopedAfter ht
    exact hafter.isFlat
  refine ⟨?_, hflat, (hout.grows.coherent (start_coherent sep p)).nodup, fun o ho ↦ ?_,
    fun x hx ↦ (hcovers.names x hx).mpr hx, fun x hx o ho heq ↦ ?_, fun y hy ↦ ?_⟩
  · refine ⟨List.nodup_nil, by simp [Program.ofStmts], by simp [Program.ofStmts],
      by simp [Program.ofStmts], ?_⟩
    change Stmt.ScopedIn (bare prims) "" [] (Stmt.flatten out)
    rwa [hflat]
  · exact (hemits.origins o ho).resolve_left List.not_mem_nil
  · exact (hout.grows.new o ho).elim List.not_mem_nil fun hfree ↦ hfree (heq ▸ hrenames.taken x hx)
  · rcases hemits.names y hy with hy | ⟨-, ho⟩
    · exact Or.inl (by simpa using hy)
    · exact Or.inr ho

theorem inlines_program (h : p.WellScoped prims) (hcomplete : p.complete = true) (l : Limits)
    (hnest : ∀ fn ∈ (CallGraph.ofProgram p).names,
      (CallGraph.ofProgram p).NestsWithin l.depth.toNat fn) :
    ∃ out s, stmts (CallGraph.ofProgram p)
        (handler (CallGraph.ofProgram p) l.depth l.depth.toNat []) p.stmts (start l.sep p) =
          .ok (out, s) ∧
      InlinesStmts (CallGraph.ofProgram p) l.depth.toNat id (Stmt.flatten p.stmts) (start l.sep p)
        out s :=
  stmts_inlines (handler_handles l.depth (h.ready hcomplete) l.depth.toNat [])
    (h.stmtsReady hcomplete hnest) _

theorem checkCallFree_eq_ok {g : CallGraph} {ss : List Stmt}
    (h : ∀ s ∈ ss, ∀ c ∈ s.calls, g.isUser c.fn = false) : checkCallFree g ss = .ok () := by
  induction ss with
  | nil => rfl
  | cons s ss ih =>
      rw [List.forall_mem_cons] at h
      have hnone : (s.calls.find? fun c ↦ g.isUser c.fn) = none :=
        List.find?_eq_none.mpr fun c hc ↦ by simp [h.1 c hc]
      rw [checkCallFree, hnone]
      exact ih h.2

/-- All the calls that are left are to functions of the target language. -/
theorem Elaborates.callFree (h : p.WellScoped prims) {out : List Stmt}
    {origins : List (String × Origin)} (hout : Elaborates prims p out origins) :
    ∀ t ∈ out, ∀ c ∈ t.calls, (CallGraph.ofProgram p).isUser c.fn = false := by
  intro t ht c hc
  have hmem : t ∈ Stmt.flatten out := hout.flat.symm ▸ ht
  obtain ⟨before, hafter⟩ := hout.wellScoped.stmts.scopedAfter hmem
  have hprim : prims.isFunc c.fn = true := hafter.admits c hc
  rw [CallGraph.isUser, ← h.func?_eq]
  cases hf : p.func? c.fn with
  | none => rfl
  | some f =>
      obtain ⟨hname, hmem⟩ := Func.of_named?_eq_some hf
      have hnot := (h.not_primitive f hmem).1
      rw [hname, hprim] at hnot
      cases hnot

end Inlining

namespace Limits

/-- The calls of a program can be unrolled within the limits. -/
structure Allow (l : Limits) (p : Program) : Prop where
  acyclic : (CallGraph.ofProgram p).Acyclic
  depth : (CallGraph.ofProgram p).ChainsWithin l.depth.toNat
  calls : ∃ n : Nat, (CallGraph.ofProgram p).Copies (Stmt.callsAll p.stmts) n ∧ n ≤ l.calls

end Limits

namespace Elaborated

variable {prims : Primitives} {p : Program} {l : Limits}

/-- The elaborated program is what inlining makes of the program. -/
def Inlined (l : Limits) (p : Program) (e : Elaborated) : Prop :=
  ∃ s : Inlining.State, Inlining.InlinesStmts (CallGraph.ofProgram p) l.depth.toNat id
    (Stmt.flatten p.stmts) (Inlining.start l.sep p) e.stmts s ∧ s.origins = e.origins

theorem Inlined.elaborates {e : Elaborated} (he : Inlined l p e) (h : p.WellScoped prims) :
    Inlining.Elaborates prims p e.stmts e.origins := by
  obtain ⟨s, hout, horigins⟩ := he
  exact horigins ▸ Inlining.elaborates h hout

/-- Once the two checks of the call graph have passed, nothing can fail. -/
theorem ofProgram_eq (h : p.WellScoped prims) (hcomplete : p.complete = true) (l : Limits) :
    ∃ e, ((CallGraph.ofProgram p).checkDepth l.depth = .ok () → Inlined l p e) ∧
      ofProgram l p = (do
        (CallGraph.ofProgram p).checkDepth l.depth
        (CallGraph.ofProgram p).checkSize p.stmts l.calls
        return e) := by
  rw [ofProgram]
  rcases (CallGraph.ofProgram p).checkDepth_unrolls l.depth with
    ⟨_, hdepth, hnest⟩ | ⟨-, d, hdepth, -⟩
  · obtain ⟨out, s, hstmts, hout⟩ := Inlining.inlines_program h hcomplete l hnest
    have hfree := Inlining.checkCallFree_eq_ok ((Inlining.elaborates h hout).callFree h)
    refine ⟨⟨out, s.origins, s.calls⟩, fun _ ↦ ⟨s, hout, rfl⟩, ?_⟩
    simp only [hdepth, hstmts, hfree, bind, Except.bind]
  · refine ⟨⟨[], [], 0⟩, fun hok ↦ ?_, by simp only [hdepth, bind, Except.bind]⟩
    rw [hdepth] at hok
    cases hok

theorem exists_ofProgram_eq_ok_iff (h : p.WellScoped prims) (hcomplete : p.complete = true) :
    (∃ e, ofProgram l p = .ok e) ↔ (CallGraph.ofProgram p).checkDepth l.depth = .ok () ∧
      (CallGraph.ofProgram p).checkSize p.stmts l.calls = .ok () := by
  obtain ⟨e, -, heq⟩ := ofProgram_eq h hcomplete l
  rw [heq]
  cases (CallGraph.ofProgram p).checkDepth l.depth with
  | error d => simp [bind, Except.bind]
  | ok _ =>
      cases (CallGraph.ofProgram p).checkSize p.stmts l.calls with
      | error d => simp [bind, Except.bind]
      | ok _ => simp [bind, Except.bind, pure, Except.pure]

theorem inlined_of_eq_ok (h : p.WellScoped prims) (hcomplete : p.complete = true) {e : Elaborated}
    (hok : ofProgram l p = .ok e) : Inlined l p e := by
  obtain ⟨e', hinlined, heq⟩ := ofProgram_eq h hcomplete l
  rw [heq] at hok
  cases hdepth : (CallGraph.ofProgram p).checkDepth l.depth with
  | error d =>
      rw [hdepth] at hok
      cases hok
  | ok _ =>
      cases hsize : (CallGraph.ofProgram p).checkSize p.stmts l.calls with
      | error d =>
          rw [hdepth, hsize] at hok
          cases hok
      | ok _ =>
          rw [hdepth, hsize] at hok
          cases hok
          exact hinlined hdepth

/-- Elaboration fails only by its checks of the call graph, and these fail exactly if the limits do
not allow to unroll the calls. -/
theorem ofProgram_cases (h : p.WellScoped prims) (hcomplete : p.complete = true)
    (hpos : 0 ≤ l.calls) (hlt : l.calls < 2 ^ 61) :
    (l.Allow p ∧ ∃ e, ofProgram l p = .ok e) ∨
      (¬ l.Allow p ∧ ∃ d : Diagnostic, ofProgram l p = .error d ∧
        d.issue.kind = .nonTerminatingElaboration ∧
        ((CallGraph.ofProgram p).checkDepth l.depth = .error d ∨
          (CallGraph.ofProgram p).checkSize p.stmts l.calls = .error d)) := by
  obtain ⟨calls, hcalls⟩ := Int.eq_ofNat_of_zero_le hpos
  have hlimit : calls < 2 ^ 61 := by omega
  obtain ⟨e, -, heq⟩ := ofProgram_eq h hcomplete l
  rw [heq, hcalls]
  rcases (CallGraph.ofProgram p).checkDepth_unrolls l.depth with
    ⟨_, hdepth, hnest⟩ | ⟨⟨fn, hfn, hdeep⟩, d, hdepth, hkind⟩
  · obtain ⟨hacyclic, hchains⟩ := CallGraph.forall_nestsWithin_iff.mp hnest
    rcases CallGraph.checkSize_unrolls hlimit hacyclic p.stmts with
      ⟨_, hsize, n, hcopies, hn⟩ | ⟨⟨n, hcopies, hn⟩, d, hsize, hkind⟩
    · rw [hdepth, hsize]
      exact Or.inl ⟨⟨hacyclic, hchains, n, hcopies, by omega⟩, e, rfl⟩
    · rw [hdepth, hsize]
      refine Or.inr ⟨fun hallow ↦ ?_, d, rfl, hkind, Or.inr rfl⟩
      obtain ⟨m, hm, hle⟩ := hallow.calls
      have hmn := hm.unique hcopies
      omega
  · rw [hdepth]
    refine Or.inr ⟨fun hallow ↦ ?_, d, rfl, hkind, Or.inl rfl⟩
    exact hdeep (CallGraph.forall_nestsWithin_iff.mpr ⟨hallow.acyclic, hallow.depth⟩ fn hfn)

end Elaborated

end Stratify
