import Stratify.Syntax.Printer
import Stratify.Target.Block

/-!
# Block-structured programs

A layout remembers for each statement the block it was put into, in the order in which the
statements came. The statements of one block keep that order.
-/

namespace Stratify

structure Layout where
  placed : List (Block × Stmt)
deriving Repr, Inhabited

namespace Stmt

def isDecl : Stmt → Bool
  | decl .. => true
  | _ => false

def declName? : Stmt → Option String
  | decl _ name _ _ => some name
  | _ => none

end Stmt

namespace Layout

def empty : Layout :=
  ⟨[]⟩

def append (l : Layout) (b : Block) (s : Stmt) : Layout :=
  ⟨l.placed ++ [(b, s)]⟩

def block (l : Layout) (b : Block) : List Stmt :=
  (l.placed.filter fun p ↦ decide (p.1 = b)).map Prod.snd

/-- All the blocks, also the empty ones. -/
def blocks (l : Layout) : List (Block × List Stmt) :=
  Block.all.map fun b ↦ (b, l.block b)

/-- All the statements, block after block. -/
def stmts (l : Layout) : List Stmt :=
  Block.all.flatMap l.block

def decls (l : Layout) : List Stmt :=
  l.stmts.filter Stmt.isDecl

def declNames (l : Layout) : List String :=
  l.stmts.filterMap Stmt.declName?

def size (l : Layout) : Nat :=
  l.stmts.length

/-- The text of a block: nothing if it is empty. -/
def blockText (b : Block) : List Stmt → Option String
  | [] => some ""
  | ss => do
    let ts ← Stmt.texts ss
    return b.text ++ " \x7b\n" ++ String.join (ts.map fun t ↦ Text.indented t ++ "\n") ++ "\x7d\n"

def text (l : Layout) : Option String := do
  return String.join (← l.blocks.mapM fun p ↦ blockText p.1 p.2)

@[simp] theorem block_append (l : Layout) (b c : Block) (s : Stmt) :
    (l.append b s).block c = if b = c then l.block c ++ [s] else l.block c := by
  unfold append block
  by_cases h : b = c <;> simp [h]

theorem foldl_append (place : Stmt → Block) (l : Layout) (ss : List Stmt) :
    ss.foldl (fun l s ↦ l.append (place s) s) l =
      ⟨l.placed ++ ss.map fun s ↦ (place s, s)⟩ := by
  induction ss generalizing l with
  | nil => simp
  | cons s ss ih =>
      rw [List.foldl_cons, ih]
      simp [append]

theorem block_eq_filter {l : Layout} {place : Stmt → Block} {ss : List Stmt}
    (hl : l = ⟨ss.map fun s ↦ (place s, s)⟩) (b : Block) :
    l.block b = ss.filter fun s ↦ decide (place s = b) := by
  rw [hl, block, List.filter_map, List.map_map]
  exact List.map_id _

theorem map_snd_placed {l : Layout} {place : Stmt → Block} {ss : List Stmt}
    (hl : l = ⟨ss.map fun s ↦ (place s, s)⟩) : l.placed.map Prod.snd = ss := by
  rw [hl, List.map_map]
  exact List.map_id _

theorem placed_getElem? {l : Layout} {place : Stmt → Block} {ss : List Stmt}
    (hl : l = ⟨ss.map fun s ↦ (place s, s)⟩) {i : Nat} {s : Stmt} (hs : ss[i]? = some s) :
    l.placed[i]? = some (place s, s) := by
  rw [hl, List.getElem?_map, hs]
  rfl

end Layout

end Stratify
