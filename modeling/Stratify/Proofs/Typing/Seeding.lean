import Stratify.Proofs.Constraint.Stability
import Stratify.Proofs.Typing.Blocks
import Stratify.Proofs.Typing.Formation
import Stratify.Proofs.Typing.Tracking

/-!
# Seeds below the inferred levels

Seeds bound the levels of a program's variables from below. If they ask for no more than the levels
that are inferred without them, then they change nothing. This holds of every program that is
accepted, and not only for the lower bounds that its constraints imply: where a variable is given a
level above its lower bound, a seed may raise that bound, also in the functions that the variable
flows into.
-/

namespace Stratify

namespace LevelSystem

variable {s : LevelSystem Level} {key : String}

/-- A bound on a known variable adds no other. -/
theorem vertices_atLeast (hkey : s.has key = true) (l : Level) (rule : String) :
    (s.atLeast key l rule).vertices = s.vertices := by
  have hmention : s.mention (.named key) = s := by
    unfold Term.named
    split
    · rfl
    · exact if_pos hkey
  change (s.mention (.named key)).vertices = s.vertices
  rw [hmention]

end LevelSystem

namespace Draft

variable {d d' : Draft} {ρ : String → Level}

/-- A draft with more constraints on the same level variables, which some levels still satisfy. -/
structure Bounds (ρ : String → Level) (d d' : Draft) : Prop where
  env : d'.env = d.env
  formed : d'.Formed
  vertices : d'.system.vertices = d.system.vertices
  satisfied : d'.system.SatisfiedBy ρ
  keeps : ∀ ρ', d'.system.SatisfiedBy ρ' → d.system.SatisfiedBy ρ'

theorem Bounds.refl (hd : d.Formed) (hρ : d.system.SatisfiedBy ρ) : Bounds ρ d d :=
  ⟨rfl, hd, rfl, hρ, fun _ h ↦ h⟩

theorem Bounds.trans {d₁ d₂ d₃ : Draft} (h : Bounds ρ d₁ d₂) (h' : Bounds ρ d₂ d₃) :
    Bounds ρ d₁ d₃ where
  env := h'.env.trans h.env
  formed := h'.formed
  vertices := h'.vertices.trans h.vertices
  satisfied := h'.satisfied
  keeps ρ' hρ' := h.keeps ρ' (h'.keeps ρ' hρ')

theorem Formed.key_eq (hd : d.Formed) {x : String} {v : Var} (hv : d.find? "" x = some v) :
    v.key = x := by
  rw [Var.key, hd.coherent _ v hv]
  rfl

theorem Formed.bounds_atLeast (hd : d.Formed) (hρ : d.system.SatisfiedBy ρ) {x : String} {v : Var}
    (hv : d.find? "" x = some v) {l : Level} (hl : l ≤ (Term.named x : Term Level).level ρ)
    (rule : Rule) : Bounds ρ d (d.atLeast v.key l rule) where
  env := rfl
  formed := (d.grows_atLeast _ _ _).formed hd
  vertices := LevelSystem.vertices_atLeast (hd.known "" x v hv) l rule.text
  satisfied := LevelSystem.satisfiedBy_add.mpr ⟨hρ, by rw [hd.key_eq hv]; exact hl⟩
  keeps _ hρ' := (LevelSystem.satisfiedBy_add.mp hρ').1

theorem exists_seed_eq_ok (hd : d.Formed) (hρ : d.system.SatisfiedBy ρ) {seeds : Seeds}
    (hseeds : ∀ e ∈ seeds, (d.find? "" e.1).isSome = true ∧
      ∃ l, e.2.level? = some l ∧ l ≤ (Term.named e.1 : Term Level).level ρ) :
    ∃ d', seed seeds d = .ok d' ∧ Bounds ρ d d' := by
  induction seeds generalizing d with
  | nil => exact ⟨d, rfl, .refl hd hρ⟩
  | cons e seeds ih =>
      obtain ⟨x, c⟩ := e
      obtain ⟨⟨hfind, l, hl, hle⟩, hrest⟩ := List.forall_mem_cons.mp hseeds
      obtain ⟨v, hv⟩ := Option.isSome_iff_exists.mp hfind
      have hstep := hd.bounds_atLeast hρ hv hle .signature
      obtain ⟨d', hd', hbounds⟩ := ih hstep.formed hstep.satisfied hrest
      refine ⟨d', ?_, hstep.trans hbounds⟩
      rw [seed, hv]
      dsimp only
      rw [hl]
      exact hd'

end Draft

namespace Seeds

/-- Seeds for declared variables that ask for no more than their levels. -/
def Below (t : Typing) (seeds : Seeds) : Prop :=
  ∀ e ∈ seeds, (t.find? e.1).isSome = true ∧ ∃ l, e.2.level? = some l ∧ ∀ m ∈ t.level? e.1, l ≤ m

end Seeds

namespace Typing

variable {prims : Primitives} {p : Program} {t : Typing}

/-- The levels of the program's variables as seeds. -/
def ownSeeds (t : Typing) : Seeds :=
  t.names.map fun x ↦ (x, ((t.level? x).getD .data).code)

theorem below_ownSeeds (h : Env.Coherent t.env) : t.ownSeeds.Below t := by
  intro e he
  obtain ⟨x, hx, rfl⟩ := List.mem_map.mp he
  rw [names, List.mem_mergeSort, List.mem_eraseDups] at hx
  refine ⟨(Env.find?_isSome h).mpr hx, _, Level.level?_code _, fun m hm ↦ ?_⟩
  rw [Option.mem_def.mp hm, Option.getD_some]

/-- The stages of inference without seeds. -/
theorem exists_formed_of_infer_eq_ok (h : infer prims p [] = .ok t) :
    ∃ d sol, Draft.ofProgram prims p = .ok d ∧ d.Formed ∧ d.system.solve = .ok sol ∧
      t = read p d sol := by
  obtain ⟨d, hdraft, h⟩ := Fault.bind_eq_ok_iff.mp h
  obtain ⟨d', hseed, h⟩ := Fault.bind_eq_ok_iff.mp h
  obtain ⟨sol, hsol, h⟩ := Fault.bind_eq_ok_iff.mp h
  rw [Seeds.sorted, List.mergeSort_nil] at hseed
  cases hseed
  cases h
  exact ⟨d, sol, hdraft, Draft.formed_of_ofProgram_eq_ok hdraft, Fault.mapError_eq_ok_iff.mp hsol,
    rfl⟩

theorem level?_read {d : Draft} (hd : d.Formed) {sol : Solution} (hsol : d.system.solve = .ok sol)
    {x : String} {v : Var} (hv : d.find? "" x = some v) :
    (read p d sol).level? x = some (sol.level x) := by
  have hfind : Env.find? d.env "" x = some v := hv
  have hhas : d.system.has x = true := hd.key_eq hv ▸ hd.known "" x v hv
  have hget := ((LevelSystem.solve_ok_spec hd.proper.closed hsol).2 x hhas).1
  simp only [level?, find?, read, hfind, hget]

theorem exists_sameLevels_of_below (h : infer prims p [] = .ok t) {seeds : Seeds}
    (hseeds : seeds.Below t) : ∃ t', infer prims p seeds = .ok t' ∧ t.SameLevels t' := by
  obtain ⟨d, sol, hdraft, hd, hsol, rfl⟩ := exists_formed_of_infer_eq_ok h
  have hsat := (LevelSystem.solve_ok_spec hd.proper.closed hsol).1
  have hbounded : ∀ e ∈ seeds.sorted, (d.find? "" e.1).isSome = true ∧
      ∃ l, e.2.level? = some l ∧ l ≤ (Term.named e.1 : Term Level).level sol.level := by
    intro e he
    obtain ⟨hfind, l, hl, hle⟩ := hseeds e (List.mem_mergeSort.mp he)
    obtain ⟨v, hv⟩ := Option.isSome_iff_exists.mp hfind
    have hlevel := hle _ (level?_read hd hsol hv)
    refine ⟨hfind, l, hl, ?_⟩
    unfold Term.named
    split
    · next hempty =>
        rw [hempty, LevelSystem.level_eq_data_of_solve_eq_ok hd.proper.closed hd.proper.named hsol]
          at hlevel
        exact hlevel
    · exact hlevel
  obtain ⟨d', hseed, hbounds⟩ := Draft.exists_seed_eq_ok hd hsat hbounded
  have hsol' : d'.system.solve = .ok sol := hd.proper.solve_eq_ok_of_extends
    hbounds.formed.proper.closed hbounds.vertices hbounds.keeps hsol hbounds.satisfied
  refine ⟨read p d' sol, ?_, hbounds.env, rfl, ?_⟩
  · simp only [infer, hdraft, hseed, hsol', bind, Except.bind, Except.mapError]
    rfl
  · simp only [read, hbounds.env]

/-- Seeds that ask for no more than the levels inferred without them are accepted, and change
neither the levels nor the signatures. The inferred levels themselves are such seeds. -/
theorem infer_stable_below (h : infer prims p [] = .ok t) :
    (∀ seeds : Seeds, seeds.Below t → ∃ t', infer prims p seeds = .ok t' ∧ t.SameLevels t') ∧
      ∃ t', infer prims p t.ownSeeds = .ok t' ∧ t.SameLevels t' := by
  have hbelow : t.ownSeeds.Below t := by
    obtain ⟨d, sol, -, hd, -, rfl⟩ := exists_formed_of_infer_eq_ok h
    exact below_ownSeeds hd.coherent
  exact ⟨fun _ hseeds ↦ exists_sameLevels_of_below h hseeds, exists_sameLevels_of_below h hbelow⟩

end Typing

namespace Program

/-- A variable that flows into a function, and that neither data nor the model determine. -/
def outlook : Program where
  funcs := [
    { name := "scaled"
      params := [⟨"real", "a"⟩]
      body := none
      result := some (.binary .mul (.var "a") (.lit .int "2")) }]
  stmts := [
    .decl "real" "rate" false none,
    .decl "real" "next" false (some (.call "scaled" [.var "rate"]))]

end Program

namespace Typing

/-- The seed raises a bound from `model` to `genquant`. -/
theorem infer_stable_below_outlook : ∃ t t', infer (.withExtra [] []) Program.outlook [] = .ok t ∧
    t.level? "rate" = some .genquant ∧
    infer (.withExtra [] []) Program.outlook [("rate", Level.genquant.code)] = .ok t' ∧
    t.SameLevels t' := by
  have hok : ((infer (.withExtra [] []) Program.outlook []).toOption.any fun t ↦
      decide ((t.find? "rate").isSome = true ∧ t.level? "rate" = some .genquant)) = true := by
    decide +kernel
  obtain ⟨t, ht, hlevel⟩ := exists_ok_of_any hok
  obtain ⟨hfind, hlevel⟩ := of_decide_eq_true hlevel
  have hbelow : Seeds.Below t [("rate", Level.genquant.code)] := by
    refine List.forall_mem_singleton.mpr ⟨hfind, .genquant, rfl, fun m hm ↦ ?_⟩
    cases hlevel.symm.trans hm
    exact le_rfl
  obtain ⟨t', ht', hsame⟩ := (infer_stable_below ht).1 _ hbelow
  exact ⟨t, t', ht, hlevel, ht', hsame⟩

end Typing

end Stratify
