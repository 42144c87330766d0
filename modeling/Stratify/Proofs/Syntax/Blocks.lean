import Stratify.Proofs.Syntax.Complete
import Stratify.Syntax.Rename
import Stratify.Target.Layout

/-!
# Programs without blocks

Opening a program puts the statements of every block in the place of the block, at the top level and
in the bodies of functions, wherever these are defined. What is left at the top level, or in a body,
is what flattening gives, except that the functions which are defined there are opened as well.
-/

namespace Stratify

namespace Stmt

mutual

/-- A statement as a list in which blocks are opened up, also those in the bodies of functions. -/
def opened : Stmt → List Stmt
  | hole => [hole]
  | decl type name data init => [decl type name data init]
  | assign name value => [assign name value]
  | sample name dist args => [sample name dist args]
  | block list => openedAll list
  | func name params none result => [func name params none result]
  | func name params (some body) result => [func name params (some (openedAll body)) result]

def openedAll : List Stmt → List Stmt
  | [] => []
  | s :: ss => s.opened ++ openedAll ss

end

end Stmt

namespace Func

def opened (f : Func) : Func :=
  { f with body := f.body.map Stmt.openedAll }

@[simp] theorem name_opened (f : Func) : f.opened.name = f.name := rfl

@[simp] theorem params_opened (f : Func) : f.opened.params = f.params := rfl

@[simp] theorem paramNames_opened (f : Func) : f.opened.paramNames = f.paramNames := rfl

@[simp] theorem result_opened (f : Func) : f.opened.result = f.result := rfl

theorem stmts_opened (f : Func) : f.opened.stmts = Stmt.openedAll f.stmts := by
  obtain ⟨name, params, body, result⟩ := f
  cases body <;> rfl

theorem opened_toStmt (f : Func) : f.toStmt.opened = [f.opened.toStmt] := by
  obtain ⟨name, params, body, result⟩ := f
  cases body <;> rfl

end Func

namespace Program

def opened (p : Program) : Program where
  funcs := p.funcs.map Func.opened
  stmts := Stmt.openedAll p.stmts

end Program

namespace Stmt

/-- A function definition with an opened body. Other statements are left alone. -/
def withOpenBody : Stmt → Stmt
  | func name params body result => (Func.opened ⟨name, params, body, result⟩).toStmt
  | s => s

@[simp] theorem isFlat_withOpenBody (s : Stmt) : s.withOpenBody.isFlat = s.isFlat := by
  cases s <;> rfl

@[simp] theorem declName?_withOpenBody (s : Stmt) : s.withOpenBody.declName? = s.declName? := by
  cases s <;> rfl

/-- Function definitions cannot be renamed, and other statements are the same. -/
@[simp] theorem rename_withOpenBody (r : String → String) (s : Stmt) :
    s.withOpenBody.rename r = s.rename r := by
  cases s <;> rfl

mutual

theorem opened_eq_map : ∀ s : Stmt, s.opened = s.flat.map withOpenBody
  | hole => rfl
  | decl .. => rfl
  | assign .. => rfl
  | sample .. => rfl
  | block list => openedAll_eq_map list
  | func _ _ none _ => rfl
  | func _ _ (some _) _ => rfl

theorem openedAll_eq_map : ∀ ss : List Stmt, openedAll ss = (flatten ss).map withOpenBody
  | [] => rfl
  | s :: ss => by
      rw [openedAll, flatten, List.map_append, opened_eq_map s, openedAll_eq_map ss]

end

/-- Nothing is left to be flattened. -/
theorem flatten_openedAll (ss : List Stmt) :
    flatten (openedAll ss) = (flatten ss).map withOpenBody := by
  rw [openedAll_eq_map]
  refine flatten_of_isFlat fun t ht ↦ ?_
  obtain ⟨u, hu, rfl⟩ := List.mem_map.mp ht
  rw [isFlat_withOpenBody]
  exact isFlat_flatten ss u hu

end Stmt

end Stratify
