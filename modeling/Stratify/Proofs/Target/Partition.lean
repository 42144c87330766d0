import Stratify.Proofs.Target.Scoping

/-!
# Placement is a stable partition

Whatever proper levels placement is given, it either splits the statements among the blocks, each
of them into its own block and in the order of the program, or reports a violated invariant. Which
of the two happens depends on nothing but the levels and the order of the statements.
-/

namespace Stratify

namespace Layout

variable {m : LevelMap}

theorem yields_violation_ofProgram (hm : m.Valid) (p : Program) :
    Yields (fun f ↦ ∃ d, f = .report d ∧ d.issue.kind = .internalInvariantViolation)
      (fun _ ↦ True) (ofProgram m p) := by
  unfold ofProgram
  split
  · refine (Placement.yields_stmts hm .empty [] _).imp ?_ fun _ h ↦ h
    rintro f ⟨s, -, d, hf, hkind, -⟩
    exact ⟨d, hf, hkind⟩
  · exact ⟨_, rfl, rfl⟩

/-- For any levels that are proper ones, placement succeeds exactly if there are no functions and
every statement is accepted after those before it; if it fails, then with a report that an invariant
is violated. On success, each block has the statements that belong to it in the order in which they
came, and all blocks together have every statement once. -/
theorem ofProgram_partitions (m : LevelMap) (hm : m.Valid) (p : Program) :
    ((∃ l, ofProgram m p = .ok l) ↔
      p.funcs = [] ∧ ∀ before s after, Stmt.flatten p.stmts = before ++ s :: after →
        m.Accepts (Stmt.declNames before) s) ∧
    (∀ f, ofProgram m p = .error f →
      ∃ d, f = .report d ∧ d.issue.kind = .internalInvariantViolation) ∧
    ∀ l, ofProgram m p = .ok l →
      (∀ b, l.block b = (Stmt.flatten p.stmts).filter fun s ↦ decide (m.block? s = some b)) ∧
      (∀ s ∈ Stmt.flatten p.stmts, ∃ b, m.block? s = some b) ∧
      l.stmts.Perm (Stmt.flatten p.stmts) := by
  refine ⟨⟨?_, fun h ↦ ⟨_, (ofProgram_eq_ok_iff_accepts hm).mpr ⟨h, rfl⟩⟩⟩, fun f hf ↦ ?_,
    fun l hl ↦ ?_⟩
  · rintro ⟨l, hl⟩
    exact ((ofProgram_eq_ok_iff_accepts hm).mp hl).1
  · exact (yields_violation_ofProgram hm p).of_eq_error hf
  · obtain ⟨-, hplaced⟩ := (ofProgram_eq_ok_iff_accepts hm).mp hl
    have hblock (s : Stmt) (hs : s ∈ Stmt.flatten p.stmts) : m.block? s = some (m.blockOf s) := by
      obtain ⟨declared, haccepts⟩ := exists_accepts_of_mem hm hl hs
      exact haccepts.block?_eq
    refine ⟨fun b ↦ ?_, fun s hs ↦ ⟨_, hblock s hs⟩, map_snd_placed hplaced ▸ l.perm_stmts⟩
    rw [block_eq_filter hplaced]
    refine List.filter_congr fun s hs ↦ ?_
    simp only [hblock s hs, Option.some.injEq]

end Layout

namespace LevelMap

/-- Levels that inference would not choose: what is given as data has a higher one. -/
def raised : LevelMap where
  level? x := if x = "n" ∨ x = "mu" then some Level.model.code
    else if x = "s" then some Level.genquant.code else none
  assigned x := x == "s"

end LevelMap

namespace Program

/-- A program with nested blocks in which one variable is declared twice. -/
def uneven : Program where
  funcs := []
  stmts := [
    .block [.decl "real" "n" true none, .block [.decl "real" "mu" false none]],
    .sample "mu" "normal" [.var "n", .lit .int "1"],
    .block [],
    .decl "real" "s" false (some (.call "exp" [.var "mu"])),
    .decl "real" "mu" false (some (.var "n")),
    .assign "s" (.binary .add (.var "s") (.var "mu"))]

end Program

namespace Layout

theorem ofProgram_partitions_uneven :
    LevelMap.raised.Valid ∧ ∃ l, ofProgram .raised .uneven = .ok l ∧
      (l.block .parameters).map Stmt.declName? = [some "n", some "mu", some "mu"] ∧
      (l.block .generatedQuantities).map Stmt.declName? = [some "s", none] ∧
      l.stmts.Perm (Stmt.flatten Program.uneven.stmts) := by
  have hvalid : LevelMap.raised.Valid := by
    intro x c hc
    simp only [LevelMap.raised] at hc
    split at hc
    · cases hc
      rfl
    · split at hc
      · cases hc
        rfl
      · cases hc
  have hok : ((ofProgram .raised .uneven).toOption.any fun _ ↦ true) = true := by decide
  obtain ⟨l, hl, -⟩ := exists_ok_of_any hok
  obtain ⟨hblocks, -, hperm⟩ := (ofProgram_partitions .raised hvalid .uneven).2.2 l hl
  refine ⟨hvalid, l, hl, ?_, ?_, hperm⟩
  · rw [hblocks]
    decide
  · rw [hblocks]
    decide

end Layout

end Stratify
