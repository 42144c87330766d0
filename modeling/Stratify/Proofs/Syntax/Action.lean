import Stratify.Proofs.Syntax.Renaming

/-!
# Renaming acts on trees

Renaming by the identity changes nothing, and renaming twice is renaming once by the composition. A
renamed tree has the shape of the original: each occurrence of a variable is renamed in its place,
whatever part the variable plays there, and functions and distributions occur as before. Opening up
the blocks of a tree and renaming it can be done in any order. Only missing statements and function
definitions cannot be renamed, and no statement that has one of them in its blocks.
-/

namespace Stratify

/-- A name and the part it plays in a node. -/
inductive Occurrence
  | read (x : String)
  | declared (x : String)
  | assigned (x : String)
  | sampled (x : String)
  | called (fn : String)
  | distribution (dist : String)
deriving DecidableEq, Repr

namespace Occurrence

/-- Variables are renamed; functions and distributions are not. -/
def rename (r : String → String) : Occurrence → Occurrence
  | read x => read (r x)
  | declared x => declared (r x)
  | assigned x => assigned (r x)
  | sampled x => sampled (r x)
  | called fn => called fn
  | distribution dist => distribution dist

end Occurrence

namespace Node

/-- The names that occur in a node by itself. -/
def occurrences : Node → List Occurrence
  | expr (.var x) => [.read x]
  | expr (.call fn _) => [.called fn]
  | stmt (.decl _ x _ _) => [.declared x]
  | stmt (.assign x _) => [.assigned x]
  | stmt (.sample x dist _) => [.sampled x, .distribution dist]
  | _ => []

end Node

/-! ### Expressions -/

namespace Expr

variable {r q : String → String}

mutual

theorem rename_rename (r q : String → String) :
    ∀ e : Expr, (e.rename r).rename q = e.rename (q ∘ r)
  | hole => rfl
  | lit .. => rfl
  | var _ => rfl
  | unary _ x => by rw [rename, rename, rename, rename_rename r q x]
  | binary _ x y => by rw [rename, rename, rename, rename_rename r q x, rename_rename r q y]
  | index x is => by rw [rename, rename, rename, rename_rename r q x, renameAll_renameAll r q is]
  | call _ args => by rw [rename, rename, rename, renameAll_renameAll r q args]

theorem renameAll_renameAll (r q : String → String) :
    ∀ es : List Expr, renameAll q (renameAll r es) = renameAll (q ∘ r) es
  | [] => rfl
  | e :: es => by
      rw [renameAll, renameAll, renameAll, rename_rename r q e, renameAll_renameAll r q es]

end

/-- The names that occur in an expression, in the order of a walk through it. -/
def occurrences (e : Expr) : List Occurrence :=
  (e.visited fun _ ↦ true).flatMap Node.occurrences

def occurrencesAll (es : List Expr) : List Occurrence :=
  (visitedAll (fun _ ↦ true) es).flatMap Node.occurrences

theorem occurrences_unary (op : Op) (x : Expr) : (unary op x).occurrences = x.occurrences := by
  simp [occurrences, visited, Node.withChildren, Node.occurrences]

theorem occurrences_binary (op : Op) (x y : Expr) :
    (binary op x y).occurrences = x.occurrences ++ y.occurrences := by
  simp [occurrences, visited, Node.withChildren, Node.occurrences]

theorem occurrences_index (x : Expr) (is : List Expr) :
    (index x is).occurrences = x.occurrences ++ occurrencesAll is := by
  simp [occurrences, occurrencesAll, visited, Node.withChildren, Node.occurrences]

theorem occurrences_call (fn : String) (args : List Expr) :
    (call fn args).occurrences = .called fn :: occurrencesAll args := by
  simp [occurrences, occurrencesAll, visited, Node.withChildren, Node.occurrences]

theorem occurrencesAll_cons (e : Expr) (es : List Expr) :
    occurrencesAll (e :: es) = e.occurrences ++ occurrencesAll es := by
  simp [occurrences, occurrencesAll, visitedAll]

mutual

theorem occurrences_rename (r : String → String) :
    ∀ e : Expr, (e.rename r).occurrences = e.occurrences.map (Occurrence.rename r)
  | hole => rfl
  | lit .. => rfl
  | var _ => rfl
  | unary _ x => by rw [rename, occurrences_unary, occurrences_unary, occurrences_rename r x]
  | binary _ x y => by
      rw [rename, occurrences_binary, occurrences_binary, List.map_append, occurrences_rename r x,
        occurrences_rename r y]
  | index x is => by
      rw [rename, occurrences_index, occurrences_index, List.map_append, occurrences_rename r x,
        occurrencesAll_renameAll r is]
  | call fn args => by
      rw [rename, occurrences_call, occurrences_call, List.map_cons,
        occurrencesAll_renameAll r args]
      rfl

theorem occurrencesAll_renameAll (r : String → String) :
    ∀ es : List Expr, occurrencesAll (renameAll r es) =
      (occurrencesAll es).map (Occurrence.rename r)
  | [] => rfl
  | e :: es => by
      rw [renameAll, occurrencesAll_cons, occurrencesAll_cons, List.map_append,
        occurrences_rename r e, occurrencesAll_renameAll r es]

end

end Expr

/-! ### Statements -/

namespace Stmt

variable {r q : String → String}

/-- The names that occur in a statement, in the order of a walk through it. -/
def occurrences (s : Stmt) : List Occurrence :=
  (s.visited fun _ ↦ true).flatMap Node.occurrences

theorem occurrences_decl (type x : String) (data : Bool) (e : Expr) :
    (decl type x data (some e)).occurrences = .declared x :: e.occurrences := by
  simp [occurrences, Expr.occurrences, visited, visitedInit, Node.withChildren, Node.occurrences]

theorem occurrences_assign (x : String) (e : Expr) :
    (assign x e).occurrences = .assigned x :: e.occurrences := by
  simp [occurrences, Expr.occurrences, visited, Node.withChildren, Node.occurrences]

theorem occurrences_sample (x dist : String) (args : List Expr) :
    (sample x dist args).occurrences =
      .sampled x :: .distribution dist :: Expr.occurrencesAll args := by
  simp [occurrences, Expr.occurrencesAll, visited, Node.withChildren, Node.occurrences]

theorem occurrences_block (list : List Stmt) :
    (block list).occurrences = list.flatMap occurrences := by
  have hall (ss : List Stmt) : (visitedAll (fun _ ↦ true) ss).flatMap Node.occurrences =
      ss.flatMap occurrences := by
    induction ss with
    | nil => rfl
    | cons s ss ih => simp [visitedAll, occurrences, ih]
  simp [occurrences, visited, Node.withChildren, Node.occurrences, hall]

theorem spans_occurrences (r : String → String) :
    Spans r fun s s' ↦ s'.occurrences = s.occurrences.map (Occurrence.rename r) where
  decl type x data init := by
    cases init with
    | none => rfl
    | some e =>
        rw [Option.map_some, occurrences_decl, occurrences_decl, Expr.occurrences_rename]
        rfl
  assign x e := by
    rw [occurrences_assign, occurrences_assign, Expr.occurrences_rename]
    rfl
  sample x dist args := by
    rw [occurrences_sample, occurrences_sample, Expr.occurrencesAll_renameAll]
    rfl
  block list list' h := by
    rw [occurrences_block, occurrences_block]
    induction h with
    | nil => rfl
    | cons hs _ ih => rw [List.flatMap_cons, List.flatMap_cons, List.map_append, hs, ih]

/-- A renamed statement can be renamed again, by the composition. -/
theorem spans_renamesTo (r q : String → String) :
    Spans r fun s s' ↦ s'.rename q = s.rename (q ∘ r) where
  decl type x data init := by
    cases init with
    | none => rfl
    | some e =>
        rw [rename, rename, Option.map_map, Option.map_some, Option.map_some, Function.comp,
          Expr.rename_rename]
        rfl
  assign x e := by
    rw [rename, rename, Expr.rename_rename]
    rfl
  sample x dist args := by
    rw [rename, rename, Expr.renameAll_renameAll]
    rfl
  block list list' h := by
    have hlist : renameAll q list' = renameAll (q ∘ r) list := by
      induction h with
      | nil => rfl
      | cons hs _ ih => rw [renameAll, renameAll, hs, ih]
    rw [rename, rename, hlist]

/-- Blocks are opened up in the same way before and after. -/
theorem spans_flat (r : String → String) :
    Spans r fun s s' ↦ List.Forall₂ (RenamesTo r) s.flat s'.flat where
  decl _ _ _ _ := .cons rfl .nil
  assign _ _ := .cons rfl .nil
  sample _ _ _ := .cons rfl .nil
  block list list' h := by
    change List.Forall₂ (RenamesTo r) (flatten list) (flatten list')
    induction h with
    | nil => exact .nil
    | cons hs _ ih => exact List.rel_append hs ih

/-! ### Statements that cannot be renamed -/

/-- One statement stands in another one: it is that statement, or stands in one of its block. -/
inductive Within (t : Stmt) : Stmt → Prop
  | refl : Within t t
  | block {s : Stmt} {list : List Stmt} : s ∈ list → Within t s → Within t (.block list)

/-- A statement that is missing, or a function definition. -/
def isStray : Stmt → Bool
  | hole => true
  | func .. => true
  | _ => false

/-- No statement is missing and no function is defined, however deep in the blocks. -/
def Renamable (s : Stmt) : Prop :=
  ∀ t, Within t s → t.isStray = false

theorem renamable_iff_of_not_block {s : Stmt} (h : ∀ list, s ≠ block list) :
    s.Renamable ↔ s.isStray = false := by
  refine ⟨fun hs ↦ hs s .refl, fun hs t ht ↦ ?_⟩
  cases ht with
  | refl => exact hs
  | block => exact absurd rfl (h _)

theorem renamable_block_iff {list : List Stmt} :
    (block list).Renamable ↔ ∀ s ∈ list, s.Renamable := by
  constructor
  · intro h s hs t ht
    exact h t (.block hs ht)
  · intro h t ht
    cases ht with
    | refl => rfl
    | block hs ht => exact h _ hs t ht

mutual

theorem renamable_iff_flat : ∀ {s : Stmt}, s.Renamable ↔ ∀ t ∈ s.flat, t.isStray = false
  | hole => by simp [renamable_iff_of_not_block, flat]
  | decl .. => by simp [renamable_iff_of_not_block, flat]
  | assign .. => by simp [renamable_iff_of_not_block, flat]
  | sample .. => by simp [renamable_iff_of_not_block, flat]
  | block list => renamable_block_iff.trans forall_renamable_iff_flatten
  | func .. => by simp [renamable_iff_of_not_block, flat]

theorem forall_renamable_iff_flatten :
    ∀ {ss : List Stmt}, (∀ s ∈ ss, s.Renamable) ↔ ∀ t ∈ flatten ss, t.isStray = false
  | [] => by simp [flatten]
  | s :: ss => by
      rw [List.forall_mem_cons, flatten, List.forall_mem_append, renamable_iff_flat,
        forall_renamable_iff_flatten]

end

instance (s : Stmt) : Decidable s.Renamable :=
  decidable_of_iff _ renamable_iff_flat.symm

mutual

theorem exists_renamesTo_iff (r : String → String) :
    ∀ {s : Stmt}, (∃ s', RenamesTo r s s') ↔ s.Renamable
  | hole => by simp [RenamesTo, rename, renamable_iff_of_not_block, isStray]
  | decl .. => by simp [RenamesTo, rename, renamable_iff_of_not_block, isStray]
  | assign .. => by simp [RenamesTo, rename, renamable_iff_of_not_block, isStray]
  | sample .. => by simp [RenamesTo, rename, renamable_iff_of_not_block, isStray]
  | block list => by
      rw [renamable_block_iff, ← exists_forall₂_renamesTo_iff r]
      simp [renamesTo_block_iff]
  | func .. => by simp [RenamesTo, rename, renamable_iff_of_not_block, isStray]

theorem exists_forall₂_renamesTo_iff (r : String → String) :
    ∀ {ss : List Stmt}, (∃ ss', List.Forall₂ (RenamesTo r) ss ss') ↔ ∀ s ∈ ss, s.Renamable
  | [] => by simp
  | s :: ss => by
      rw [List.forall_mem_cons, ← exists_renamesTo_iff r, ← exists_forall₂_renamesTo_iff r]
      simp [List.forall₂_cons_left_iff]

end

theorem exists_rename_eq_error_iff (r : String → String) {s : Stmt} :
    (∃ what, s.rename r = .error what) ↔ ∃ t, Within t s ∧ t.isStray = true := by
  have hnot : (∃ t, Within t s ∧ t.isStray = true) ↔ ¬ s.Renamable := by
    simp [Renamable]
  rw [hnot, ← exists_renamesTo_iff r]
  cases h : s.rename r with
  | ok s' => simp [RenamesTo, h]
  | error what => simp [RenamesTo, h]

/-- Renaming is an action of the maps of names on trees. By the identity it does nothing, and one
renaming after another is their composition. The occurrences of variables in a renamed tree are the
renamed ones, in order and in the same parts, while functions and distributions stay the same, also
in the order of evaluation. Opening up blocks commutes with it. On expressions it is defined
everywhere; on a statement it fails exactly if a function definition or a missing statement stands
somewhere in its blocks. -/
theorem rename_acts (r q : String → String) :
    (∀ e : Expr, e.rename id = e ∧ (e.rename r).rename q = e.rename (q ∘ r) ∧
      (e.rename r).occurrences = e.occurrences.map (Occurrence.rename r) ∧
      (e.rename r).calls.map Call.fn = e.calls.map Call.fn) ∧
    (∀ s : Stmt, s.Renamable → s.rename id = .ok s ∧ ∃ s', s.rename r = .ok s' ∧
      s'.rename q = s.rename (q ∘ r) ∧
      renameAll r s.flat = .ok s'.flat ∧
      s'.occurrences = s.occurrences.map (Occurrence.rename r) ∧
      s'.calls.map Call.fn = s.calls.map Call.fn) ∧
    ∀ s : Stmt, (∃ what, s.rename r = .error what) ↔ ∃ t, Within t s ∧ t.isStray = true := by
  refine ⟨fun e ↦ ?_, fun s hs ↦ ?_, fun s ↦ exists_rename_eq_error_iff r⟩
  · exact ⟨e.rename_id, e.rename_rename r q, e.occurrences_rename r, e.calls_rename r⟩
  · obtain ⟨t, ht⟩ := (exists_renamesTo_iff id).mpr hs
    obtain ⟨s', hs'⟩ := (exists_renamesTo_iff r).mpr hs
    have hid : s.rename id = .ok s := (spans_eq.of_renamesTo ht).symm ▸ ht
    refine ⟨hid, s', hs', (spans_renamesTo r q).of_renamesTo hs', ?_,
      (spans_occurrences r).of_renamesTo hs', (spans_calls r).of_renamesTo hs'⟩
    exact renameAll_eq_ok_iff.mpr ((spans_flat r).of_renamesTo hs')

/-- A block in a block, with a variable in each part. -/
def boxed : Stmt :=
  .block [
    .decl "real" "t" false (some (.call "exp" [.index (.var "s") [.var "i"]])),
    .block [
      .assign "t" (.unary .sub (.var "t")),
      .sample "r" "normal" [.var "t", .lit .int "1"]]]

theorem rename_acts_boxed : boxed.Renamable ∧ ∃ s', boxed.rename (· ++ "_1") = .ok s' ∧
    s'.rename (· ++ "_2") = boxed.rename ((· ++ "_2") ∘ (· ++ "_1")) ∧
    s'.occurrences = [.declared "t_1", .called "exp", .read "s_1", .read "i_1", .assigned "t_1",
      .read "t_1", .sampled "r_1", .distribution "normal", .read "t_1"] := by
  have hboxed : boxed.Renamable := by decide
  obtain ⟨-, s', hs', hagain, -, hoccurrences, -⟩ :=
    (rename_acts (· ++ "_1") (· ++ "_2")).2.1 boxed hboxed
  exact ⟨hboxed, s', hs', hagain, hoccurrences.trans (by decide)⟩

/-- A definition deep in the blocks cannot be renamed. -/
example : ¬ (block [block [.func "f" [] none none]]).Renamable := by decide

end Stmt

end Stratify
