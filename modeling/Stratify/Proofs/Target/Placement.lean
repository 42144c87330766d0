import Stratify.Compile.Basic
import Stratify.Proofs.Target.Acceptance

/-!
# Placement by inferred levels

What placement accepts, and where it puts the statements, is known for any proper levels. Those that
have been inferred are proper, so this is what it does with them.
-/

namespace Stratify

namespace Typing

variable (t : Typing)

/-- The block of the statements that write a variable. -/
def home (x : String) : Block :=
  t.levelMap.home x

def blockOf (s : Stmt) : Block :=
  t.levelMap.blockOf s

/-- A variable may be read by something of a level. -/
def MayRead (l : Level) (x : String) : Prop :=
  t.levelMap.MayRead l x

/-- What placement asks of a statement after others that declare some variables. -/
def Places (declared : List String) (s : Stmt) : Prop :=
  t.levelMap.Accepts declared s

theorem levelOf?_levelMap (x : String) : t.levelMap.levelOf? x = t.level? x := by
  change ((t.level? x).map Level.code).bind LevelCode.level? = t.level? x
  cases t.level? x <;> simp

theorem valid_levelMap : t.levelMap.Valid := by
  intro x c h
  obtain ⟨l, -, rfl⟩ := Option.map_eq_some_iff.mp h
  rw [LevelCode.isValid, Level.level?_code]
  rfl

variable {t}

theorem home_eq {x : String} {l : Level} (h : t.levelMap.levelOf? x = some l) :
    t.home x = .place l (t.assigned x) :=
  LevelMap.home_eq h

theorem level_of_levelOf? {x : String} {k : Level} (h : t.levelMap.levelOf? x = some k) :
    t.levels.level x = k := by
  rw [levelOf?_levelMap, level?] at h
  split at h
  · cases h
  · rw [Solution.level, h, Option.getD_some]

end Typing

namespace Layout

theorem ofProgram_eq_ok_iff {t : Typing} {p : Program} (hfuncs : p.funcs = []) {l : Layout} :
    ofProgram t.levelMap p = .ok l ↔
      (∀ before s after, Stmt.flatten p.stmts = before ++ s :: after →
        t.Places (Stmt.declNames before) s) ∧
      l = ⟨(Stmt.flatten p.stmts).map fun s ↦ (t.blockOf s, s)⟩ := by
  rw [ofProgram_eq_ok_iff_accepts t.valid_levelMap, and_iff_right hfuncs]
  rfl

theorem exists_places_of_mem {t : Typing} {p : Program} {l : Layout}
    (hl : ofProgram t.levelMap p = .ok l) {s : Stmt} (hs : s ∈ Stmt.flatten p.stmts) :
    ∃ declared, t.Places declared s :=
  exists_accepts_of_mem t.valid_levelMap hl hs

end Layout

end Stratify
