import Stratify.Proofs.Compile.Success
import Stratify.Proofs.Inlining.Reflection

/-!
# How the second inference changes levels

The second inference gives a variable the level that the first one found for it, or for its origin,
with one exception: a variable of level `model` can become a generated quantity, if the call that
kept it in the model is now apart from the others. So nothing gets more expensive, and nothing gets
below the level that the source asks for.
-/

namespace Stratify

namespace Output

/-- The level that the source has for a variable of the inlined program: its own, or that of its
origin in the signature of the function. -/
def sourceLevel? (o : Output) (x : String) : Option Level :=
  match o.elaborated.origins.find? fun e ↦ decide (e.1 = x) with
  | some (_, origin) => (o.source.signature? origin.func).bind fun sig ↦ sig.level? origin.name
  | none => o.source.level? x

end Output

namespace Level

/-- The levels between which the second inference may choose, in both orders. -/
theorem between_iff {k l : Level} :
    k ≤ l ∧ Order.performance.rank l ≤ Order.performance.rank k ↔
      l = k ∨ l = .genquant ∧ k = .model := by
  cases k <;> cases l <;> decide

theorem eq_data_of_not_le {k l : Level}
    (hrank : Order.performance.rank l ≤ Order.performance.rank k) (hlt : ¬ k ≤ l) : l = .data := by
  revert hrank hlt
  cases k <;> cases l <;> decide

end Level

namespace Elaborated

variable {prims : Primitives} {p : Program} {l : Limits} {e : Elaborated} {t t' : Typing}
  {x : String}

/-- The levels that the first inference finds, and those that the second finds from them. -/
structure Reinfers (prims : Primitives) (l : Limits) (p : Program) (e : Elaborated)
    (t t' : Typing) : Prop where
  inlined : Inlined l p e
  wellScoped : p.WellScoped prims
  names : p.NamedByIdentifiers
  first : t.Describes prims p []
  second : t'.Describes prims e.program (.ofLevels (e.originLevels (Draft.levels t.levels.level)))

theorem Reinfers.slot_mem (h : Reinfers prims l p e t t') (hx : x ∈ Stmt.declNames e.stmts) :
    .var ⟨"", x⟩ ∈ e.program.slots :=
  Program.var_mem_slots ((h.inlined.flatten h.wellScoped).symm ▸ hx)

theorem Reinfers.le_of_origin (h : Reinfers prims l p e t t') :
    ∀ o ∈ e.origins, Draft.levels t.levels.level (.var ⟨o.2.func, o.2.name⟩) ≤
      Draft.levels t'.levels.level (.var ⟨"", o.1⟩) := by
  intro o ho
  refine h.second.fits.seeds o.1 _ ?_ _ (Level.level?_code _)
  exact List.mem_map.mpr ⟨_, List.mem_map.mpr ⟨o, ho, rfl⟩, rfl⟩

/-- A variable of the source that is `data` in the end was `data` before. -/
theorem Reinfers.eq_data (h : Reinfers prims l p e t t')
    (hx : x ∈ Stmt.declNames (Stmt.flatten p.stmts))
    (hdata : Draft.levels t'.levels.level (.var ⟨"", x⟩) = .data) :
    Draft.levels t.levels.level (.var ⟨"", x⟩) = .data := by
  have hreflective : Reflective prims p (Draft.levels t.levels.level)
      (Draft.levels t'.levels.level) :=
    ⟨fun _ hf ↦ h.names.words.func_ne hf,
      fun f hf v hv ↦ h.first.result_eq_data h.wellScoped hf hv⟩
  have hfits := h.inlined.fits_reflected h.wellScoped hreflective h.first.fits h.second.fits
    h.le_of_origin
  have hbest := h.first.best _ hfits _ (Program.var_mem_slots hx)
  rw [Assignment.reflected_data hdata] at hbest
  exact Typing.eq_data_of_rank_le hbest

theorem Reinfers.rank_le (h : Reinfers prims l p e t t') (hx : x ∈ Stmt.declNames e.stmts) :
    Order.performance.rank (Draft.levels t'.levels.level (.var ⟨"", x⟩)) ≤
      Order.performance.rank ((Draft.levels t.levels.level).elaborated e.origins
        (.var ⟨"", x⟩)) :=
  h.second.best _ (h.inlined.fits h.wellScoped h.first.fits (h.inlined.seeds_hold h.wellScoped _))
    _ (h.slot_mem hx)

theorem Reinfers.le (h : Reinfers prims l p e t t') (hx : x ∈ Stmt.declNames e.stmts) :
    (Draft.levels t.levels.level).elaborated e.origins (.var ⟨"", x⟩) ≤
      Draft.levels t'.levels.level (.var ⟨"", x⟩) := by
  have helaborates := h.inlined.elaborates h.wellScoped
  rcases helaborates.names x hx with htop | ⟨o, ho, rfl⟩
  · have hrank := h.rank_le hx
    rw [Assignment.elaborated_other (helaborates.not_origin x htop)] at hrank ⊢
    -- A level of a lower rank is a lower level only if it is `data`.
    by_contra hlt
    have hdata : Draft.levels t'.levels.level (.var ⟨"", x⟩) = .data :=
      Level.eq_data_of_not_le hrank hlt
    rw [hdata, h.eq_data htop hdata] at hlt
    exact hlt le_rfl
  · rw [Assignment.elaborated_origin helaborates.origins_nodup ho]
    exact h.le_of_origin o ho

end Elaborated

namespace Output

variable {prims : Primitives} {p : Program} {l : Limits} {o : Output} {x : String}

theorem sourceLevel?_eq (h : Elaborated.Reinfers prims l p o.elaborated o.source o.levels)
    (hx : x ∈ Stmt.declNames o.elaborated.stmts) :
    o.sourceLevel? x = some ((Draft.levels o.source.levels.level).elaborated o.elaborated.origins
      (.var ⟨"", x⟩)) := by
  have helaborates := h.inlined.elaborates h.wellScoped
  rcases helaborates.names x hx with htop | ⟨origin, ho, rfl⟩
  · have hnot := helaborates.not_origin x htop
    rw [Assignment.elaborated_other hnot, sourceLevel?, Inlining.find?_not_origin hnot]
    exact h.first.shows.vars x htop
  · rw [Assignment.elaborated_origin helaborates.origins_nodup ho, sourceLevel?,
      Inlining.find?_origin helaborates.origins_nodup ho]
    obtain ⟨f, hf, hscope⟩ := (helaborates.traces origin ho).owner
    have hlevel := Elaborated.originLevel_eq h.first.shows hf hscope
    unfold Elaborated.originLevel at hlevel
    split at hlevel
    · cases hlevel
    next sig hsig =>
      split at hlevel
      · cases hlevel
      next k hk =>
        cases hlevel
        simp only [hsig, Option.bind_some, hk]

end Output

namespace Compiler

variable {c : Compiler} {program : Program} {o : Output}

theorem reinfers_of_compile_eq_ok (hcomplete : program.complete = true)
    (hnames : program.hoist.NamedByIdentifiers) (h : c.compile program = .ok o) :
    Elaborated.Reinfers c.settings.primitives c.settings.limits program.hoist o.elaborated o.source
      o.levels := by
  obtain ⟨hsource, he, hlevels, -⟩ := compile_eq_ok_iff.mp h
  have hhoist := Program.complete_hoist hcomplete
  obtain ⟨⟨hscoped, -⟩, hfirst⟩ :=
    (Typing.infer_spec hhoist hnames.apart (Seeds.validFor_nil _)).of_eq_ok hsource
  have hinlined := Elaborated.inlined_of_eq_ok hscoped hhoist he
  obtain ⟨t, ht, hsecond⟩ := hinlined.infer_again hscoped hnames.words hfirst.fits
  have hagain : c.inferAgain o.source o.elaborated = .ok t := by
    rw [inferAgain, hinlined.seeds_eq hscoped hfirst.shows]
    exact ht
  obtain rfl : t = o.levels := Except.ok.inj (hagain.symm.trans hlevels)
  exact ⟨hinlined, hscoped, hnames, hfirst, hsecond⟩

/-- The final level of every variable is the one that the source has for it, unless the source has
`model` and the final level is `genquant`. So it is at least the level of the source under the
correctness order, and at most that under the performance order. -/
theorem reinference_moves_model_to_genquant (hcomplete : program.complete = true)
    (hnames : program.hoist.NamedByIdentifiers) (h : c.compile program = .ok o) {x : String}
    (hx : x ∈ Stmt.declNames (Stmt.flatten o.elaborated.stmts)) :
    ∃ k l, o.sourceLevel? x = some k ∧ o.levels.level? x = some l ∧
      (l = k ∨ l = .genquant ∧ k = .model) ∧
      k ≤ l ∧ Order.performance.rank l ≤ Order.performance.rank k := by
  have hreinfers := reinfers_of_compile_eq_ok hcomplete hnames h
  have hx' : x ∈ Stmt.declNames o.elaborated.stmts :=
    hreinfers.inlined.flatten hreinfers.wellScoped ▸ hx
  have hle := hreinfers.le hx'
  have hrank := hreinfers.rank_le hx'
  exact ⟨_, _, Output.sourceLevel?_eq hreinfers hx', hreinfers.second.shows.vars x hx,
    Level.between_iff.mp ⟨hle, hrank⟩, hle, hrank⟩

end Compiler

namespace Program

/-- A function of which one call is part of the model and the other one is a forecast. -/
def forecast : Program where
  funcs := [
    { name := "scaled"
      params := [⟨"real", "a"⟩]
      body := none
      result := some (.binary .mul (.var "a") (.lit .int "2")) }]
  stmts := [
    .decl "real" "obs" true none,
    .decl "real" "mu" false none,
    .sample "obs" "normal" [.call "scaled" [.var "mu"], .lit .int "1"],
    .decl "real" "half" false (some (.binary .div (.var "mu") (.lit .int "2"))),
    .decl "real" "next" false (some (.call "scaled" [.var "half"]))]

/-- The same without the function. Only the first copy is part of the model. -/
def forecastInlined : Elaborated where
  stmts := [
    .decl "real" "obs" true none,
    .decl "real" "mu" false none,
    .decl "real" "a_1" false (some (.var "mu")),
    .sample "obs" "normal" [.binary .mul (.var "a_1") (.lit .int "2"), .lit .int "1"],
    .decl "real" "half" false (some (.binary .div (.var "mu") (.lit .int "2"))),
    .decl "real" "a_2" false (some (.var "half")),
    .decl "real" "next" false (some (.binary .mul (.var "a_2") (.lit .int "2")))]
  origins := [("a_1", ⟨"scaled", "a", 1⟩), ("a_2", ⟨"scaled", "a", 2⟩)]
  calls := 2

end Program

namespace Compiler

theorem ofProgram_forecast :
    Elaborated.ofProgram standard.settings.limits Program.forecast = .ok Program.forecastInlined := by
  cbv

theorem exists_infer_forecast :
    ∃ source, Typing.infer standard.settings.primitives Program.forecast [] = .ok source ∧
      source.level? "half" = some .model ∧
      Program.forecastInlined.seeds source = .ok [("a_1", .model), ("a_2", .model)] := by
  have hok : ((Typing.infer standard.settings.primitives Program.forecast []).toOption.any
      fun source ↦ (Program.forecastInlined.seeds source).toOption.any fun seeds ↦
        decide (source.level? "half" = some .model ∧
          seeds = [("a_1", .model), ("a_2", .model)])) = true := by
    decide +kernel
  obtain ⟨source, hsource, hok⟩ := exists_ok_of_any hok
  obtain ⟨seeds, hseeds, hok⟩ := exists_ok_of_any hok
  obtain ⟨hlevel, rfl⟩ := of_decide_eq_true hok
  exact ⟨source, hsource, hlevel, hseeds⟩

theorem level_half_forecast {t : Typing}
    (h : Typing.infer standard.settings.primitives Program.forecastInlined.program
      (.ofLevels [("a_1", .model), ("a_2", .model)]) = .ok t) :
    t.level? "half" = some .genquant := by
  have hsorted : (Seeds.ofLevels [("a_1", .model), ("a_2", .model)]).sorted =
      [("a_1", Level.model.code), ("a_2", Level.model.code)] := by
    cbv
  have hok : ((Typing.infer standard.settings.primitives Program.forecastInlined.program
      (.ofLevels [("a_1", .model), ("a_2", .model)])).toOption.any fun t ↦
        decide (t.level? "half" = some .genquant)) = true := by
    rw [Typing.infer, hsorted]
    decide +kernel
  rw [h] at hok
  exact of_decide_eq_true hok

/-- The exception is real: once the calls are apart, a variable that only the forecast reads is no
longer part of the model. -/
theorem reinference_moves_model_to_genquant_forecast :
    ∃ o k l, standard.compile Program.forecast = .ok o ∧ o.sourceLevel? "half" = some k ∧
      o.levels.level? "half" = some l ∧ (l = k ∨ l = .genquant ∧ k = .model) ∧
      k ≤ l ∧ Order.performance.rank l ≤ Order.performance.rank k ∧ l ≠ k := by
  obtain ⟨source, hsource, hmodel, hseeds⟩ := exists_infer_forecast
  -- There is nothing to hoist.
  have hhoist : Program.forecast.hoist = Program.forecast := rfl
  have he := ofProgram_forecast
  rw [← hhoist] at hsource he
  obtain ⟨o, ho⟩ := exists_finishes (by decide) (by decide) hsource he
  have hcompile := ho.compile_eq hsource he
  obtain ⟨⟨seeds, hseeds', hlevels⟩, -, rfl, helaborated⟩ := ho
  cases hseeds.symm.trans hseeds'
  have hx : "half" ∈ Stmt.declNames (Stmt.flatten o.elaborated.stmts) := by
    rw [helaborated]
    decide
  obtain ⟨k, l, hk, hl, hbetween, hle, hrank⟩ :=
    reinference_moves_model_to_genquant (by decide) (by decide) hcompile hx
  have hlast : l = .genquant := Option.some.inj (hl.symm.trans (level_half_forecast hlevels))
  have hfirst : k = .model := by
    rw [Output.sourceLevel?, helaborated] at hk
    exact Option.some.inj (hk.symm.trans hmodel)
  exact ⟨o, k, l, hcompile, hk, hl, hbetween, hle, hrank, by rw [hlast, hfirst]; decide⟩

end Compiler

end Stratify
