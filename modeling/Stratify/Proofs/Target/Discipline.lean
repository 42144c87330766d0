import Stratify.Proofs.Target.Scoping
import Stratify.Proofs.Typing.Declarations

/-!
# What stands in which block

The blocks of a compiled program obey the rules of the target language: data is given and
parameters are found from outside, factors are only added in the model, transformed data depends on
data alone, and what is generated after a draw has no part in it.

Inference and placement each know some of this of a statement. It is collected once, and then every
rule is read off the block of a single statement.
-/

namespace Stratify

namespace Block

theorem place_eq_data_iff {l : Level} {assigned : Bool} :
    place l assigned = data ↔ l = .data ∧ assigned = false := by
  cases l <;> cases assigned <;> decide

theorem place_eq_parameters_iff {l : Level} {assigned : Bool} :
    place l assigned = parameters ↔ l = .model ∧ assigned = false := by
  cases l <;> cases assigned <;> decide

theorem place_eq_generatedQuantities_iff {l : Level} {assigned : Bool} :
    place l assigned = generatedQuantities ↔ l = .genquant := by
  cases l <;> cases assigned <;> decide

theorem eq_data_of_place_eq_transformedData {l : Level} {assigned : Bool}
    (h : place l assigned = transformedData) : l = .data := by
  revert h
  cases l <;> cases assigned <;> decide

theorem place_data (assigned : Bool) :
    place .data assigned = data ∨ place .data assigned = transformedData := by
  cases assigned <;> decide

end Block

namespace Stmt

/-- The declaration of a variable that is given from outside. -/
def isGiven : Stmt → Bool
  | decl _ _ data _ => data
  | _ => false

end Stmt

namespace Typing

/-- What inference and placement know of the statements that they accept. -/
structure Sorts (t : Typing) (ss : List Stmt) : Prop where
  runnable : Stmt.RunnableFrom [] ss
  places : ∀ s ∈ ss, ∃ declared, t.Places declared s
  assigned : ∀ s ∈ ss, ∀ x ∈ s.assignee?, t.assigned x = true
  confines : ∀ s ∈ ss, s.Confines t.levels.level
  declares : ∀ type x data init, .decl type x data init ∈ ss → t.Declares x data init

variable {prims : Primitives} {p : Program} {seeds : Seeds} {t : Typing} {l : Layout}
  {ss : List Stmt} {s : Stmt} {x : String}

theorem sorts_of_infer_eq_ok (hfuncs : p.funcs = []) (ht : infer prims p seeds = .ok t)
    (hl : Layout.ofProgram t.levelMap p = .ok l) : t.Sorts (Stmt.flatten p.stmts) := by
  obtain ⟨hrun, hassigned⟩ := tracks_of_infer_eq_ok hfuncs ht
  exact ⟨hrun, fun _ hs ↦ Layout.exists_places_of_mem hl hs, hassigned,
    confines_of_infer_eq_ok hfuncs ht,
    fun type x data init hdecl ↦ declares_of_infer_eq_ok hfuncs ht hdecl⟩

/-- A statement writes a variable, which then has a level, or it is a sample statement. -/
theorem Sorts.target_or_sample (h : t.Sorts ss) (hs : s ∈ ss) :
    (∃ y, s.target? = some y ∧ t.blockOf s = .place (t.levels.level y) (t.assigned y)) ∨
      s.isSample = true := by
  obtain ⟨declared, hplaces⟩ := h.places s hs
  have hwrites {y : String} {l : Level} (hl : t.levelMap.levelOf? y = some l) :
      t.home y = .place (t.levels.level y) (t.assigned y) := by
    rw [home_eq hl, level_of_levelOf? hl]
  cases s with
  | decl type y data init =>
      obtain ⟨l, hl, -⟩ := hplaces
      exact Or.inl ⟨y, rfl, hwrites hl⟩
  | assign y e =>
      obtain ⟨-, l, hl, -⟩ := hplaces
      exact Or.inl ⟨y, rfl, hwrites hl⟩
  | sample y dist args => exact Or.inr rfl
  | _ => exact hplaces.elim

theorem Sorts.blockOf_decl (h : t.Sorts ss) {type : String} {data : Bool} {init : Option Expr}
    (hs : .decl type x data init ∈ ss) :
    t.blockOf (.decl type x data init) = .place (t.levels.level x) (t.assigned x) := by
  obtain ⟨y, hy, hblock⟩ | hsample := h.target_or_sample hs
  · cases hy
    exact hblock
  · cases hsample

theorem Sorts.blockOf_assign (h : t.Sorts ss) {e : Expr} (hs : .assign x e ∈ ss) :
    t.blockOf (.assign x e) = .place (t.levels.level x) true := by
  obtain ⟨y, hy, hblock⟩ | hsample := h.target_or_sample hs
  · cases hy
    rw [hblock, h.assigned _ hs x rfl]
  · cases hsample

theorem Sorts.blockOf_eq_model_iff (h : t.Sorts ss) (hs : s ∈ ss) :
    t.blockOf s = .model ↔ s.isSample = true := by
  refine ⟨fun hmodel ↦ ?_, blockOf_of_isSample⟩
  obtain ⟨y, -, hblock⟩ | hsample := h.target_or_sample hs
  · exact absurd (hblock.symm.trans hmodel) (Block.place_ne_model _ _)
  · exact hsample

/-- A variable that no statement assigns is `data` only if it is given. -/
theorem Sorts.blockOf_eq_data_iff (h : t.Sorts ss) (hs : s ∈ ss) :
    t.blockOf s = .data ↔ s.isGiven = true := by
  cases s with
  | decl type x data init =>
      have hdeclares := h.declares type x data init hs
      rw [h.blockOf_decl hs, Block.place_eq_data_iff]
      constructor
      · rintro ⟨hlevel, hassigned⟩
        by_contra hdata
        have hle := hdeclares.unassigned (Bool.not_eq_true _ ▸ hdata) hassigned
        rw [hlevel] at hle
        exact absurd hle (by decide)
      · intro hdata
        exact ⟨(hdeclares.given hdata).1, (hdeclares.given hdata).2.1⟩
  | assign x e =>
      rw [h.blockOf_assign hs, Block.place_eq_data_iff]
      simp [Stmt.isGiven]
  | sample x dist args => exact iff_of_false nofun nofun
  | _ =>
      obtain ⟨declared, hplaces⟩ := h.places _ hs
      exact hplaces.elim

theorem Sorts.of_blockOf_eq_parameters (h : t.Sorts ss) (hs : s ∈ ss)
    (hblock : t.blockOf s = .parameters) :
    ∃ type x, s = .decl type x false none ∧ ∀ e, .assign x e ∉ ss := by
  cases s with
  | decl type x data init =>
      rw [h.blockOf_decl hs, Block.place_eq_parameters_iff] at hblock
      obtain ⟨hlevel, hassigned⟩ := hblock
      have hnot (u : Stmt) (hu : u ∈ ss) (hx : u.assignee? = some x) : False :=
        Bool.false_ne_true (hassigned.symm.trans (h.assigned u hu x hx))
      have hdata : data = false := by
        by_contra hdata
        have hgiven := (h.declares type x data init hs).given (Bool.not_eq_false _ ▸ hdata)
        cases hlevel.symm.trans hgiven.1
      have hinit : init = none := by
        cases init with
        | none => rfl
        | some e => exact (hnot _ hs rfl).elim
      exact ⟨type, x, by rw [hdata, hinit], fun e he ↦ hnot _ he rfl⟩
  | assign x e =>
      rw [h.blockOf_assign hs, Block.place_eq_parameters_iff] at hblock
      cases hblock.2
  | _ => cases hblock

/-- Only what is generated after a draw calls a generator. -/
theorem Sorts.blockOf_of_anyRng (h : t.Sorts ss) (hs : s ∈ ss)
    (hrng : Call.anyRng s.calls = true) : t.blockOf s = .generatedQuantities := by
  obtain ⟨x, hx, hlevel⟩ := h.confines s hs hrng
  obtain ⟨y, hy, hblock⟩ | hsample := h.target_or_sample hs
  · obtain rfl : x = y := Option.some.inj (hx.symm.trans hy)
    rw [hblock, Block.place_eq_generatedQuantities_iff]
    exact hlevel
  · cases s with
    | sample y dist args => cases hx
    | _ => cases hsample

theorem Sorts.home_eq_place (h : t.Sorts ss) (hx : x ∈ Stmt.declNames ss) :
    t.home x = .place (t.levels.level x) (t.assigned x) := by
  obtain ⟨s, hs, hdecl⟩ := List.mem_filterMap.mp hx
  cases s with
  | decl type y data init =>
      cases hdecl
      exact h.blockOf_decl hs
  | _ => cases hdecl

end Typing

namespace Layout

/-- The blocks obey the rules of the target language for the statements `ss`. -/
structure Disciplined (l : Layout) (ss : List Stmt) : Prop where
  data : l.block .data = ss.filter Stmt.isGiven
  /-- Parameters have no value of their own. -/
  parameters : ∀ s ∈ l.block .parameters,
    ∃ type x, s = .decl type x false none ∧ ∀ e, .assign x e ∉ ss
  assignments : ∀ x e, .assign x e ∉ l.block .data ∧ .assign x e ∉ l.block .parameters
  model : l.block .model = ss.filter Stmt.isSample
  samples : ∀ b, ∀ s ∈ l.block b, s.isSample = true → b = .model
  transformedData : ∀ s ∈ l.block .transformedData, ∀ x ∈ s.reads,
    x ∈ Stmt.declNames (l.block .data) ∨ x ∈ Stmt.declNames (l.block .transformedData)
  /-- Generated quantities are for themselves alone. -/
  generated : ∀ b, b ≠ .generatedQuantities → ∀ s ∈ l.block b, ∀ x ∈ s.uses,
    x ∉ Stmt.declNames (l.block .generatedQuantities)
  rng : ∀ b, ∀ s ∈ l.block b, ∀ call ∈ s.calls, Primitives.isRng call.fn = true →
    b = .generatedQuantities

variable {prims : Primitives} {p : Program} {seeds : Seeds} {t : Typing} {l : Layout}
  {ss : List Stmt}

theorem mem_declNames_block_iff (hl : l = ⟨ss.map fun s ↦ (t.blockOf s, s)⟩) {b : Block}
    {x : String} :
    x ∈ Stmt.declNames (l.block b) ↔ x ∈ Stmt.declNames ss ∧ t.home x = b := by
  simp only [block_eq_filter hl, Stmt.declNames, List.mem_filterMap, List.mem_filter,
    decide_eq_true_iff]
  constructor
  · rintro ⟨s, ⟨hs, hblock⟩, hx⟩
    exact ⟨⟨s, hs, hx⟩, (Typing.blockOf_of_target (Stmt.target?_of_declName? hx)).symm.trans hblock⟩
  · rintro ⟨⟨s, hs, hx⟩, hhome⟩
    exact ⟨s, ⟨hs, (Typing.blockOf_of_target (Stmt.target?_of_declName? hx)).trans hhome⟩, hx⟩

end Layout

namespace Typing

variable {t : Typing} {l : Layout} {ss : List Stmt} {s : Stmt} {x : String}

theorem Sorts.mem_declNames (h : t.Sorts ss) (hs : s ∈ ss) (hx : x ∈ s.uses) :
    x ∈ Stmt.declNames ss :=
  h.runnable.mem_declNames (List.mem_flatMap.mpr ⟨s, hs, Stmt.mem_occurring_iff.mpr (Or.inr hx)⟩)

/-- What a statement reads is at most of the level of the variable that it writes, and what a sample
statement reads is at most of level `model`. -/
theorem Sorts.le_of_reads (h : t.Sorts ss) (hs : s ∈ ss) (hx : x ∈ s.reads) :
    t.levels.level x ≤ (s.target?.map t.levels.level).getD .model := by
  obtain ⟨declared, hplaces⟩ := h.places s hs
  have hle {l : Level} (hread : t.MayRead l x) : t.levels.level x ≤ l := by
    obtain ⟨k, hk, hkl⟩ := hread
    rwa [level_of_levelOf? hk]
  cases s with
  | decl type y data init =>
      obtain ⟨l, hl, hreads⟩ := hplaces
      exact (hle (hreads x hx)).trans_eq (level_of_levelOf? hl).symm
  | assign y e =>
      obtain ⟨-, l, hl, hreads⟩ := hplaces
      exact (hle (hreads x hx)).trans_eq (level_of_levelOf? hl).symm
  | sample y dist args => exact hle (hplaces.2 x hx)
  | _ => exact hplaces.elim

theorem Sorts.home_of_reads (h : t.Sorts ss) (hs : s ∈ ss)
    (hblock : t.blockOf s = .transformedData) (hx : x ∈ s.reads) :
    t.home x = .data ∨ t.home x = .transformedData := by
  have hle := h.le_of_reads hs hx
  obtain ⟨y, hy, hplace⟩ | hsample := h.target_or_sample hs
  · rw [hplace] at hblock
    rw [hy, Option.map_some, Option.getD_some, Block.eq_data_of_place_eq_transformedData hblock]
      at hle
    rw [h.home_eq_place (h.mem_declNames hs (Stmt.mem_uses_of_mem_reads hx)), bot_unique hle]
    exact Block.place_data _
  · rw [blockOf_of_isSample hsample] at hblock
    cases hblock

/-- Nothing in another block uses a generated quantity. -/
theorem Sorts.blockOf_of_uses (h : t.Sorts ss) (hs : s ∈ ss) (hx : x ∈ s.uses)
    (hhome : t.home x = .generatedQuantities) : t.blockOf s = .generatedQuantities := by
  obtain ⟨declared, hplaces⟩ := h.places s hs
  have hnot := hplaces.not_before_home (h.assigned s hs) hx
  rw [hhome] at hnot
  revert hnot
  cases t.blockOf s <;> decide

theorem Sorts.disciplined (h : t.Sorts ss) (hl : l = ⟨ss.map fun s ↦ (t.blockOf s, s)⟩) :
    l.Disciplined ss := by
  have hmem {b : Block} {s : Stmt} (hs : s ∈ l.block b) : s ∈ ss ∧ t.blockOf s = b := by
    rw [Layout.block_eq_filter hl] at hs
    simpa using hs
  have hassign {x : String} {e : Expr} {b : Block} (hs : .assign x e ∈ l.block b) :
      Block.place (t.levels.level x) true = b :=
    (h.blockOf_assign (hmem hs).1).symm.trans (hmem hs).2
  constructor
  case data =>
    rw [Layout.block_eq_filter hl]
    refine List.filter_congr fun s hs ↦ ?_
    rw [Bool.eq_iff_iff, decide_eq_true_iff]
    exact h.blockOf_eq_data_iff hs
  case parameters =>
    intro s hs
    exact h.of_blockOf_eq_parameters (hmem hs).1 (hmem hs).2
  case assignments =>
    intro x e
    refine ⟨fun hs ↦ ?_, fun hs ↦ ?_⟩
    · cases (Block.place_eq_data_iff.mp (hassign hs)).2
    · cases (Block.place_eq_parameters_iff.mp (hassign hs)).2
  case model =>
    rw [Layout.block_eq_filter hl]
    refine List.filter_congr fun s hs ↦ ?_
    rw [Bool.eq_iff_iff, decide_eq_true_iff]
    exact h.blockOf_eq_model_iff hs
  case samples =>
    intro b s hs hsample
    exact (hmem hs).2.symm.trans (blockOf_of_isSample hsample)
  case transformedData =>
    intro s hs x hx
    have hdecl := h.mem_declNames (hmem hs).1 (Stmt.mem_uses_of_mem_reads hx)
    simp only [Layout.mem_declNames_block_iff hl, hdecl, true_and]
    exact h.home_of_reads (hmem hs).1 (hmem hs).2 hx
  case generated =>
    intro b hb s hs x hx hdecl
    apply hb
    rw [← (hmem hs).2]
    exact h.blockOf_of_uses (hmem hs).1 hx ((Layout.mem_declNames_block_iff hl).mp hdecl).2
  case rng =>
    intro b s hs call hcall hrng
    rw [← (hmem hs).2]
    exact h.blockOf_of_anyRng (hmem hs).1 (List.any_eq_true.mpr ⟨call, hcall, hrng⟩)

end Typing

namespace Compiler

variable {c : Compiler} {program : Program} {o : Output}

/-- The blocks of a compiled program obey the rules of the target language. -/
theorem layout_disciplined (h : c.compile program = .ok o) :
    o.layout.Disciplined (Stmt.flatten o.elaborated.stmts) := by
  obtain ⟨⟨seeds, hlevels⟩, hlayout⟩ := of_compile_eq_ok h
  have hl := ((Layout.ofProgram_eq_ok_iff rfl).mp hlayout).2
  exact (Typing.sorts_of_infer_eq_ok rfl hlevels hlayout).disciplined hl

theorem layout_disciplined_total :
    ∃ o, standard.compile Program.total = .ok o ∧
      o.layout.Disciplined (Stmt.flatten o.elaborated.stmts) ∧
      (Block.all.map fun b ↦ (o.layout.block b).length) = [1, 3, 1, 0, 2, 1] := by
  have hok : ((standard.compile Program.total).toOption.any fun o ↦
      decide ((Block.all.map fun b ↦ (o.layout.block b).length) = [1, 3, 1, 0, 2, 1])) = true := by
    decide +kernel
  obtain ⟨o, ho, hok⟩ := exists_ok_of_any hok
  exact ⟨o, ho, layout_disciplined ho, of_decide_eq_true hok⟩

end Compiler

end Stratify
