import Stratify.Proofs.Compile.Success
import Stratify.Proofs.Inlining.Diagnostics
import Stratify.Proofs.Typing.Diagnostics

/-!
# Errors have a message

Whatever the compiler reports on a program without holes points at a tree without holes, and so has
a message. There is one exception: a function whose calls are nested too deeply, and which the
search of the call graph has entered by itself, is reported with a call that is missing. Such a
report has no message.
-/

namespace Stratify

/-! ### Placement -/

theorem Fault.Blames.grounded {s : Stmt} {f : Fault} (h : f.Blames s) (hs : s.complete = true) :
    f.Grounded := by
  obtain ⟨d, rfl, hkind, hnode⟩ := h
  refine ⟨fun n hn ↦ hnode n hn ▸ hs, ?_⟩
  rintro ⟨fn, depth, limit, hissue⟩
  rw [hissue] at hkind
  cases hkind

theorem Layout.yields_ofProgram (t : Typing) {p : Program} (hp : p.complete = true) :
    Yields Fault.Grounded (fun _ ↦ True) (ofProgram t.levelMap p) := by
  unfold ofProgram
  split
  · refine (Placement.yields_stmts t.valid_levelMap .empty [] _).imp ?_ fun _ h ↦ h
    rintro f ⟨s, hs, hf⟩
    exact hf.grounded (Stmt.complete_flatten (Program.complete_stmts hp) s hs)
  · exact Diagnostic.grounded_bare

/-! ### Compilation -/

theorem Elaborated.yields_seeds (e : Elaborated) (t : Typing) :
    Yields Diagnostic.Grounded (fun _ ↦ True) (e.seeds t) := by
  unfold seeds
  induction e.origins with
  | nil => exact trivial
  | cons o origins ih =>
      have hlevel : Yields Diagnostic.Grounded (fun _ ↦ True) (originLevel t o.2) := by
        unfold originLevel
        split
        · exact Diagnostic.grounded_bare
        split
        · exact Diagnostic.grounded_bare
        · exact trivial
      rw [List.mapM_cons]
      have hfirst : Yields Diagnostic.Grounded (fun _ ↦ True) (do
          let l ← originLevel t o.2
          return (o.1, l)) :=
        hlevel.bind fun _ _ ↦ trivial
      exact hfirst.bind fun _ _ ↦ ih.bind fun _ _ ↦ trivial

namespace Compiler

variable (c : Compiler) {p : Program}

theorem demand_logger : c.settings.logger.demand = .ok () := by
  have hsound := c.sound
  simp only [Settings.problems, List.append_eq_nil_iff] at hsound
  cases hlogger : c.settings.logger with
  | absent =>
      rw [if_pos hlogger] at hsound
      cases hsound.1.1.1.1
  | _ => rfl

theorem yields_compile (hp : p.complete = true) :
    Yields Fault.Accounted (fun _ ↦ True) (c.compile p) := by
  have haccounted {α : Type} {P : α → Prop} {r : Except Fault α} (h : Yields Fault.Grounded P r) :
      Yields Fault.Accounted P r :=
    h.imp (fun _ ↦ Fault.Grounded.accounted) fun _ ↦ id
  have hhoist := Program.complete_hoist hp
  refine (haccounted (Typing.yields_infer _ hhoist [])).bind fun source hresults ↦ ?_
  have helaborated := Elaborated.yields_ofProgram c.settings.limits hhoist
  refine (helaborated.mapError (f := Fault.report) (F := Fault.Accounted) fun _ h ↦ h).bind fun e he ↦ ?_
  have hcomplete := he hresults
  have hagain : Yields Fault.Grounded (fun _ ↦ True) (c.inferAgain source e) := by
    have hseeds := e.yields_seeds source
    refine (hseeds.mapError (f := Fault.report) (F := Fault.Grounded) fun _ h ↦ h).bind fun seeds _ ↦ ?_
    exact (Typing.yields_infer _ hcomplete _).imp (fun _ ↦ id) fun _ _ ↦ trivial
  refine (haccounted hagain).bind fun levels _ ↦ ?_
  exact (haccounted (Layout.yields_ofProgram levels hcomplete)).bind fun _ _ ↦ trivial

/-- On a complete program, every error of the compiler and of its stages is a report, and the report
has a message, unless it blames calls that are nested too deeply on a function which no call has led
to. Then it has none. -/
theorem error_rendered_iff (hp : p.complete = true) :
    (∀ f, c.compile p = .error f →
      ∃ d, f = .report d ∧ (d.message.isSome = true ↔ ¬ d.Uncalled)) ∧
    (∀ limit d, (CallGraph.ofProgram p).checkDepth limit = .error d →
      (d.message.isSome = true ↔ ¬ d.Uncalled)) ∧
    (∀ limit d, (CallGraph.ofProgram p).checkSize p.stmts limit = .error d →
      d.message.isSome = true) ∧
    (∀ f, c.settings.elaborate p = .error f →
      ∃ d, f = .report d ∧ (d.message.isSome = true ↔ ¬ d.Uncalled)) ∧
    ∀ seeds f, c.settings.infer p seeds = .error f →
      ∃ d, f = .report d ∧ d.message.isSome = true := by
  refine ⟨fun f hf ↦ ?_, fun limit d hd ↦ ?_, fun limit d hd ↦ ?_, fun f hf ↦ ?_,
    fun seeds f hf ↦ ?_⟩
  · exact ((c.yields_compile hp).of_eq_error hf).exists_message_iff
  · have hfuncs : ∀ f ∈ (CallGraph.ofProgram p).funcs, f.complete = true :=
      fun _ hf ↦ Program.complete_func hp hf
    exact ((CallGraph.yields_checkDepth hfuncs limit).of_eq_error hd).isSome_message_iff
  · exact ((CallGraph.yields_checkSize _ (Program.complete_stmts hp) limit).of_eq_error
      hd).isSome_message
  · have helaborate : Yields Fault.Accounted (fun _ ↦ True) (c.settings.elaborate p) := by
      have helaborated := Elaborated.yields_ofProgram c.settings.limits hp
      refine (helaborated.mapError (f := Fault.report) (F := Fault.Accounted) fun _ h ↦ h).bind fun _ _ ↦ ?_
      rw [c.demand_logger]
      exact trivial
    exact (helaborate.of_eq_error hf).exists_message_iff
  · have hinfer : Yields Fault.Grounded (fun _ ↦ True) (c.settings.infer p seeds) := by
      refine (Typing.yields_infer _ hp seeds).bind fun _ _ ↦ ?_
      rw [c.demand_logger]
      exact trivial
    exact (hinfer.of_eq_error hf).exists_message

end Compiler

namespace Program

/-- Functions without parameters that call one another in turn. -/
def relay : List String → Program
  | [] => ⟨[], []⟩
  | [fn] => ⟨[.define fn [] (some (.int 1)) []], []⟩
  | fn :: next :: fns =>
    ⟨.define fn [] (some (.call next [])) [] :: (relay (next :: fns)).funcs, []⟩

end Program

namespace Compiler

/-- No function may call another one. -/
def shallow : Compiler :=
  ⟨{ Settings.default with depth := 1 }, by decide⟩

theorem error_rendered_relay :
    Program.complete (.relay ["a", "b", "c"]) = true ∧
      ∃ d, shallow.compile (.relay ["a", "b", "c"]) = .error (.report d) ∧
        d.message.isSome = true := by
  have hcomplete : Program.complete (.relay ["a", "b", "c"]) = true := by decide
  have hinfer : ((Typing.infer shallow.settings.primitives
      (Program.hoist (.relay ["a", "b", "c"])) []).toOption.any fun _ ↦ true) = true := by
    decide +kernel
  have he : Elaborated.ofProgram shallow.settings.limits (Program.hoist (.relay ["a", "b", "c"])) =
      .error ⟨.tooDeep ["a", "b"] "b" 2 1, some (.expr (.call "b" []))⟩ := by cbv
  obtain ⟨source, hsource, -⟩ := exists_ok_of_any hinfer
  have herror := compile_eq_of_elaborate_error hsource he
  obtain ⟨d, hd, hmessage⟩ := (error_rendered_iff shallow hcomplete).1 _ herror
  cases hd
  refine ⟨hcomplete, _, herror, hmessage.mpr ?_⟩
  rintro ⟨fn, depth, limit, hissue⟩
  cases hissue

/-- A function that is reported without a call to it has no message. -/
theorem error_unrendered_relay :
    ∃ d, shallow.compile (.relay ["a", "b"]) = .error (.report d) ∧ d.message = none := by
  have hinfer : ((Typing.infer shallow.settings.primitives
      (Program.hoist (.relay ["a", "b"])) []).toOption.any fun _ ↦ true) = true := by
    decide +kernel
  have he : Elaborated.ofProgram shallow.settings.limits (Program.hoist (.relay ["a", "b"])) =
      .error ⟨.tooDeep ["a"] "a" 2 1, some (.expr .hole)⟩ := by cbv
  obtain ⟨source, hsource, -⟩ := exists_ok_of_any hinfer
  exact ⟨_, compile_eq_of_elaborate_error hsource he, rfl⟩

end Compiler

end Stratify
