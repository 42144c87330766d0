import Stratify.Proofs.Compile.Success
import Stratify.Proofs.Semantics.Reordering

/-!
# Placement preserves meaning

Placement moves a statement over others. It never moves a statement before one that writes what it
reads, since the levels only go up along a flow, and the block of an assigned variable comes after
the blocks of all variables of its level or lower ones that may flow into it. Nor are two writes of
one variable or two sample statements exchanged, since they share a block. What levels do not
exclude is that an assignment is moved before a statement that has to read the old value. Where
that does not happen either, the blocks run like the program.
-/

namespace Stratify

namespace Block

/-- A level that may flow into another one never puts a variable into a later block, provided that
the second variable is assigned. -/
theorem not_before_place {k l : Level} (h : k ≤ l) (assigned : Bool) :
    ¬ (place l true).Before (place k assigned) := by
  revert h
  cases k <;> cases l <;> cases assigned <;> decide

theorem not_model_before {k : Level} (h : k ≤ .model) (assigned : Bool) :
    ¬ model.Before (place k assigned) := by
  revert h
  cases k <;> cases assigned <;> decide

theorem place_ne_model (l : Level) (assigned : Bool) : place l assigned ≠ model := by
  cases l <;> cases assigned <;> decide

theorem not_before_self (b : Block) : ¬ b.Before b :=
  Nat.lt_irrefl _

end Block

namespace Layout

/-- Whenever a variable is assigned after another statement has read it, the two statements are in
one block. -/
def KeepsReads (l : Layout) : Prop :=
  l.placed.Pairwise fun a a' ↦ ∀ x ∈ a.2.reads, a'.2.assigns x = true → a.1 = a'.1

instance (l : Layout) : Decidable l.KeepsReads :=
  inferInstanceAs (Decidable (List.Pairwise _ _))

end Layout

namespace Typing

variable {t : Typing} {declared : List String} {s u : Stmt}

theorem blockOf_of_target {x : String} (h : x ∈ s.target?) : t.blockOf s = t.home x := by
  cases s with
  | decl type y data init =>
      cases h
      rfl
  | assign y e =>
      cases h
      rfl
  | _ => cases h

theorem blockOf_of_isSample (h : s.isSample = true) : t.blockOf s = .model := by
  cases s with
  | sample x dist args => rfl
  | _ => cases h

theorem home_ne_model (x : String) : t.home x ≠ .model := by
  rw [home, LevelMap.home, LevelMap.home?]
  cases t.levelMap.levelOf? x with
  | none =>
      intro h
      cases h
  | some l => exact Block.place_ne_model l _

/-- What a statement reads is written in its own block or in earlier ones. -/
theorem Places.not_before (h : t.Places declared s)
    (hassigned : ∀ x ∈ s.assignee?, t.assigned x = true) {x : String} (hx : x ∈ s.reads) :
    ¬ (t.blockOf s).Before (t.home x) := by
  cases s with
  | decl type y data init =>
      obtain ⟨l, hl, hreads⟩ := h
      cases init with
      | none => cases hx
      | some e =>
          obtain ⟨k, hk, hle⟩ := hreads x hx
          rw [blockOf_of_target (x := y) rfl, home_eq hl, home_eq hk, hassigned y rfl]
          exact Block.not_before_place hle _
  | assign y e =>
      obtain ⟨-, l, hl, hreads⟩ := h
      obtain ⟨k, hk, hle⟩ := hreads x hx
      rw [blockOf_of_target (x := y) rfl, home_eq hl, home_eq hk, hassigned y rfl]
      exact Block.not_before_place hle _
  | sample y dist args =>
      obtain ⟨k, hk, hle⟩ := h.2 x hx
      rw [blockOf_of_isSample rfl, home_eq hk]
      exact Block.not_model_before hle _
  | _ => exact h.elim

/-- A later statement that is moved before an earlier one is independent of it. -/
theorem independent_of_before (hs : s.Runnable declared)
    (hu : ∃ before, t.Places before u) (hassigned : ∀ x ∈ u.assignee?, t.assigned x = true)
    (hfresh : ∀ x ∈ u.declName?, x ∉ declared)
    (hkeeps : ∀ x ∈ s.reads, u.assigns x = true → t.blockOf s = t.blockOf u)
    (hbefore : (t.blockOf u).Before (t.blockOf s)) : s.Independent u := by
  have hne : t.blockOf s ≠ t.blockOf u := by
    intro heq
    rw [heq] at hbefore
    exact Block.not_before_self _ hbefore
  have htargets : ∀ x ∈ s.target?, x ∉ u.target? := fun x hx hx' ↦
    hne ((blockOf_of_target hx).trans (blockOf_of_target hx').symm)
  refine ⟨fun x hx hux ↦ ?_, fun x hx hsx ↦ ?_, htargets, fun hsample ↦ ?_⟩
  · obtain ⟨before, hu⟩ := hu
    rw [blockOf_of_target hx] at hbefore
    cases u with
    | assign y e =>
        rcases List.mem_cons.mp hux with rfl | hread
        · exact htargets x hx rfl
        · exact hu.not_before hassigned hread hbefore
    | _ => exact hu.not_before hassigned hux hbefore
  · cases u with
    | decl type y data init => exact hfresh x hx (hs.uses x hsx)
    | assign y e =>
        obtain rfl : y = x := Option.some.inj hx
        cases s with
        | assign z e' =>
            rcases List.mem_cons.mp hsx with rfl | hread
            · exact htargets y rfl rfl
            · exact hne (hkeeps y hread (by simp [Stmt.assigns]))
        | _ => exact hne (hkeeps y hsx (by simp [Stmt.assigns]))
    | _ => cases hx
  · by_contra hsample'
    rw [Bool.not_eq_false] at hsample'
    exact hne ((blockOf_of_isSample hsample).trans (blockOf_of_isSample hsample').symm)

theorem pairwise_independent {ss : List Stmt} (hrun : Stmt.RunnableFrom declared ss)
    (hplaces : ∀ s ∈ ss, ∃ before, t.Places before s)
    (hassigned : ∀ s ∈ ss, ∀ x ∈ s.assignee?, t.assigned x = true)
    (hkeeps : ss.Pairwise fun s u ↦
      ∀ x ∈ s.reads, u.assigns x = true → t.blockOf s = t.blockOf u) :
    ss.Pairwise fun s u ↦ (t.blockOf u).Before (t.blockOf s) → s.Independent u := by
  induction ss generalizing declared with
  | nil => exact .nil
  | cons s ss ih =>
      rw [List.forall_mem_cons] at hplaces hassigned
      rw [List.pairwise_cons] at hkeeps ⊢
      refine ⟨fun u hu ↦ ?_, ih hrun.2 hplaces.2 hassigned.2 hkeeps.2⟩
      refine independent_of_before hrun.1 (hplaces.2 u hu) (hassigned.2 u hu) (fun x hx hmem ↦ ?_)
        (hkeeps.1 u hu)
      exact hrun.2.notMem hu hx (List.mem_append_left _ hmem)

end Typing

variable {V : Type}

namespace Layout

def runBlocks (M : Meaning V) (given : Givens V) (l : Layout) :
    List Block → Store V × Effects V → Option (Store V × Effects V)
  | [], c => some c
  | b :: bs, c => do
    let p := Program.ofStmts l.stmts
    let c ← Stmt.execAll M p (nestedCalls M p given.inner 0) given.top (l.block b) c
    runBlocks M given l bs c

variable {M : Meaning V} {given : Givens V} {l : Layout}

theorem runBlocks_append (bs bs' : List Block) (c : Store V × Effects V) :
    l.runBlocks M given (bs ++ bs') c =
      l.runBlocks M given bs c >>= l.runBlocks M given bs' := by
  induction bs generalizing c with
  | nil => rfl
  | cons b bs ih => simp only [List.cons_append, runBlocks, ih, bind_assoc]

theorem runBlocks_eq_execAll (bs : List Block) (c : Store V × Effects V) :
    l.runBlocks M given bs c = Stmt.execAll M (.ofStmts l.stmts)
      (nestedCalls M (.ofStmts l.stmts) given.inner 0) given.top (bs.flatMap l.block) c := by
  induction bs generalizing c with
  | nil => rfl
  | cons b bs ih =>
      rw [List.flatMap_cons, Stmt.execAll_append, runBlocks]
      congr 1
      funext c'
      exact ih c'

/-- The statements of a program without functions, sorted by their blocks, run like the program. -/
theorem runBlocks_all {t : Typing} {prims : Primitives} {p : Program} {seeds : Seeds}
    (hfuncs : p.funcs = []) (ht : Typing.infer prims p seeds = .ok t)
    (hl : ofProgram t.levelMap p = .ok l) (hkeeps : l.KeepsReads) :
    l.runBlocks M given Block.all (.empty, ⟨0, []⟩) = p.run M given 0 := by
  obtain ⟨hrun, hassigned⟩ := Typing.tracks_of_infer_eq_ok hfuncs ht
  have hplaces := fun s hs ↦ exists_places_of_mem hl (s := s) hs
  obtain ⟨-, rfl⟩ := (ofProgram_eq_ok_iff hfuncs).mp hl
  have hpairs : (Stmt.flatten p.stmts).Pairwise fun s u ↦
      (t.blockOf u).Before (t.blockOf s) → s.Independent u :=
    Typing.pairwise_independent hrun hplaces hassigned (List.pairwise_map.mp hkeeps)
  rw [runBlocks_eq_execAll]
  change Stmt.execAll _ _ _ _ (stmts _) _ = _
  rw [execAll_stmts rfl (List.pairwise_map.mpr hpairs), List.map_map]
  change Stmt.execAll _ _ _ _ ((Stmt.flatten p.stmts).map id) _ = _
  rw [List.map_id, Program.run]
  exact Stmt.execAll_congr rfl hfuncs _ _

/-! ### The model block -/

variable {t : Typing} {ss : List Stmt}

theorem blockOf_of_mem_flatMap {bs : List Block} {s : Stmt}
    (h : s ∈ bs.flatMap (block ⟨ss.map fun s ↦ (t.blockOf s, s)⟩)) : t.blockOf s ∈ bs := by
  obtain ⟨b, hb, hmem⟩ := mem_flatMap_block h
  obtain ⟨u, -, heq⟩ := List.mem_map.mp hmem
  cases heq
  exact hb

theorem effects_of_runBlocks (hl : l = ⟨ss.map fun s ↦ (t.blockOf s, s)⟩) {bs : List Block}
    (hbs : .model ∉ bs) {c c' : Store V × Effects V}
    (hrun : l.runBlocks M given bs c = some c') : c'.2 = c.2 := by
  rw [runBlocks_eq_execAll] at hrun
  refine Stmt.effects_of_execAll rfl (fun s hs ↦ ?_) hrun
  subst hl
  by_contra hsample
  rw [Bool.not_eq_false] at hsample
  exact hbs (Typing.blockOf_of_isSample hsample ▸ blockOf_of_mem_flatMap hs)

theorem store_of_runBlocks (hl : l = ⟨ss.map fun s ↦ (t.blockOf s, s)⟩)
    {c c' : Store V × Effects V} (hrun : l.runBlocks M given [.model] c = some c') :
    c'.1 = c.1 := by
  rw [runBlocks_eq_execAll] at hrun
  refine Stmt.store_of_execAll rfl (fun s hs ↦ ?_) hrun
  subst hl
  have hmodel := List.mem_singleton.mp (blockOf_of_mem_flatMap hs)
  cases htarget : s.target? with
  | none => rfl
  | some x =>
      rw [Typing.blockOf_of_target htarget] at hmodel
      exact absurd hmodel (Typing.home_ne_model x)

end Layout

namespace Compiler

variable {c : Compiler} {program : Program} {o : Output}

theorem of_compile_eq_ok (h : c.compile program = .ok o) :
    (∃ seeds, Typing.infer c.settings.primitives o.elaborated.program seeds = .ok o.levels) ∧
      Layout.ofProgram o.levels.levelMap o.elaborated.program = .ok o.layout := by
  obtain ⟨-, -, hlevels, hlayout⟩ := compile_eq_ok_iff.mp h
  obtain ⟨seeds, -, hlevels⟩ := Fault.bind_eq_ok_iff.mp hlevels
  exact ⟨⟨_, hlevels⟩, hlayout⟩

/-- If no assignment is moved before a statement that has read the variable, the blocks give all
variables the values that the elaborated program gives them. The model block leaves the factors of
the program in their order, and no other block leaves any. -/
theorem runBlocks_compiled (h : c.compile program = .ok o) (hkeeps : o.layout.KeepsReads)
    (M : Meaning V) (given : Givens V) :
    ∃ σ τ trace, o.elaborated.program.run M given 0 = some (τ, ⟨0, trace⟩) ∧
      (∀ x ∈ Stmt.declNames (Stmt.flatten o.elaborated.stmts), ∃ v, τ x = some v) ∧
      o.layout.runBlocks M given Block.all (.empty, ⟨0, []⟩) = some (τ, ⟨0, trace⟩) ∧
      o.layout.runBlocks M given
        [.data, .transformedData, .parameters, .transformedParameters] (.empty, ⟨0, []⟩) =
          some (σ, ⟨0, []⟩) ∧
      o.layout.runBlocks M given [.model] (σ, ⟨0, []⟩) = some (σ, ⟨0, trace⟩) := by
  obtain ⟨⟨seeds, hlevels⟩, hlayout⟩ := of_compile_eq_ok h
  obtain ⟨hrunnable, -⟩ := Typing.tracks_of_infer_eq_ok rfl hlevels
  obtain ⟨-, hl⟩ := (Layout.ofProgram_eq_ok_iff rfl).mp hlayout
  obtain ⟨τ, trace, hrun, hdefined⟩ :
      ∃ τ trace, o.elaborated.program.run M given 0 = some (τ, ⟨0, trace⟩) ∧
        ∀ x ∈ [] ++ Stmt.declNames (Stmt.flatten o.elaborated.stmts), ∃ v, τ x = some v :=
    hrunnable.exists_execAll rfl (fun _ h ↦ (by cases h))
  have hall := (Layout.runBlocks_all rfl hlevels hlayout hkeeps).trans hrun
  -- The blocks before the model block, that block and the one after it.
  have hsplit := hall
  rw [show Block.all = [.data, .transformedData, .parameters, .transformedParameters] ++
      ([.model] ++ [.generatedQuantities]) from rfl, Layout.runBlocks_append,
    Option.bind_eq_bind, Option.bind_eq_some_iff] at hsplit
  obtain ⟨⟨σ, w⟩, hfront, hsplit⟩ := hsplit
  rw [Layout.runBlocks_append, Option.bind_eq_bind, Option.bind_eq_some_iff] at hsplit
  obtain ⟨⟨σ', w'⟩, hmodel, hback⟩ := hsplit
  obtain rfl : w = ⟨0, []⟩ := Layout.effects_of_runBlocks hl (by decide) hfront
  obtain rfl : σ' = σ := Layout.store_of_runBlocks hl hmodel
  obtain rfl : ⟨0, trace⟩ = w' := Layout.effects_of_runBlocks hl (by decide) hback
  exact ⟨σ', τ, trace, hrun, hdefined, hall, hfront, hmodel⟩

end Compiler

namespace Program

/-- A model that reads a total before it changes it, and that declares data after parameters. -/
def total : Program where
  funcs := []
  stmts := [
    .decl "real" "obs" true none,
    .decl "real" "mu" false none,
    .sample "mu" "normal" [.lit .int "0", .lit .int "1"],
    .decl "real" "sum" false (some (.var "obs")),
    .decl "real" "first" false (some (.var "sum")),
    .assign "sum" (.binary .add (.var "sum") (.lit .int "1")),
    .sample "obs" "normal" [.var "mu", .var "sum"],
    .decl "real" "draw" false (some (.call "normal_rng" [.var "mu", .var "first"]))]

end Program

namespace Compiler

theorem runBlocks_compiled_total :
    ∃ o σ τ trace, standard.compile Program.total = .ok o ∧ o.layout.KeepsReads ∧
      o.elaborated.program.run .written .written 0 = some (τ, ⟨0, trace⟩) ∧
      (∀ x ∈ Stmt.declNames (Stmt.flatten o.elaborated.stmts), ∃ v, τ x = some v) ∧
      o.layout.runBlocks .written .written Block.all (.empty, ⟨0, []⟩) = some (τ, ⟨0, trace⟩) ∧
      o.layout.runBlocks .written .written
        [.data, .transformedData, .parameters, .transformedParameters] (.empty, ⟨0, []⟩) =
          some (σ, ⟨0, []⟩) ∧
      o.layout.runBlocks .written .written [.model] (σ, ⟨0, []⟩) = some (σ, ⟨0, trace⟩) := by
  have hok : (match standard.compile Program.total with
      | .ok o => decide o.layout.KeepsReads
      | .error _ => false) = true := by
    decide +kernel
  cases ho : standard.compile Program.total with
  | error fault =>
      rw [ho] at hok
      cases hok
  | ok o =>
      rw [ho] at hok
      have hkeeps := of_decide_eq_true hok
      obtain ⟨σ, τ, trace, hrun⟩ := runBlocks_compiled ho hkeeps .written .written
      exact ⟨o, σ, τ, trace, rfl, hkeeps, hrun⟩

end Compiler

end Stratify
