import Mathlib.Data.List.Forall2
import Stratify.Proofs.Syntax.Complete
import Stratify.Syntax.Rename

/-!
# Renamed statements

Renaming can fail on statements, so it is used as a relation between a statement and a renamed one,
and statement by statement between lists of them. What a renamed statement has in common with the
original is shown form by form, for the statements in a block at once. Complete trees stay complete,
and the functions that are called stay the same.
-/

namespace Stratify

namespace Expr

mutual

theorem rename_id : ∀ e : Expr, e.rename id = e
  | hole => rfl
  | lit .. => rfl
  | var _ => rfl
  | unary _ x => by rw [rename, rename_id x]
  | binary _ x y => by rw [rename, rename_id x, rename_id y]
  | index x is => by rw [rename, rename_id x, renameAll_id is]
  | call _ args => by rw [rename, renameAll_id args]

theorem renameAll_id : ∀ es : List Expr, renameAll id es = es
  | [] => rfl
  | e :: es => by rw [renameAll, rename_id e, renameAll_id es]

end

mutual

theorem complete_rename (r : String → String) : ∀ e : Expr, (e.rename r).complete = e.complete
  | hole => rfl
  | lit .. => rfl
  | var _ => rfl
  | unary _ x => complete_rename r x
  | binary _ x y => by simp only [rename, complete, complete_rename r x, complete_rename r y]
  | index x is => by simp only [rename, complete, complete_rename r x, completeAll_renameAll r is]
  | call _ args => completeAll_renameAll r args

theorem completeAll_renameAll (r : String → String) :
    ∀ es : List Expr, completeAll (renameAll r es) = completeAll es
  | [] => rfl
  | e :: es => by
      simp only [renameAll, completeAll, complete_rename r e, completeAll_renameAll r es]

end

/-! ### Functions that are called -/

mutual

theorem calls_rename (r : String → String) :
    ∀ e : Expr, (e.rename r).calls.map Call.fn = e.calls.map Call.fn
  | hole => rfl
  | lit .. => rfl
  | var _ => rfl
  | unary _ x => calls_rename r x
  | binary _ x y => by
      simp only [rename, calls, List.map_append, calls_rename r x, calls_rename r y]
  | index x is => by
      simp only [rename, calls, List.map_append, calls_rename r x, callsAll_renameAll r is]
  | call fn args => by
      simp only [rename, calls, List.map_append, callsAll_renameAll r args, List.map_cons,
        List.map_nil]

theorem callsAll_renameAll (r : String → String) :
    ∀ es : List Expr, (callsAll (renameAll r es)).map Call.fn = (callsAll es).map Call.fn
  | [] => rfl
  | e :: es => by
      simp only [renameAll, callsAll, List.map_append, calls_rename r e, callsAll_renameAll r es]

end

end Expr

namespace Stmt

variable {π : String → String}

/-- One statement is another one with its variables renamed. -/
def RenamesTo (π : String → String) (s s' : Stmt) : Prop :=
  s.rename π = .ok s'

theorem renameAll_eq_ok_iff {ss ss' : List Stmt} :
    renameAll π ss = .ok ss' ↔ List.Forall₂ (RenamesTo π) ss ss' := by
  induction ss generalizing ss' with
  | nil => simp [renameAll, eq_comm]
  | cons s ss ih =>
      rw [renameAll, List.forall₂_cons_left_iff]
      cases hs : s.rename π with
      | error what => simp [RenamesTo, hs, bind, Except.bind]
      | ok t =>
          cases hss : renameAll π ss with
          | error what =>
              simp only [hss, reduceCtorEq, false_iff] at ih
              simp [bind, Except.bind, ih]
          | ok ts =>
              simp only [hss, Except.ok.injEq] at ih
              simp [RenamesTo, hs, bind, Except.bind, pure, Except.pure, ← ih, eq_comm]

theorem renamesTo_block_iff {list : List Stmt} {s' : Stmt} :
    RenamesTo π (block list) s' ↔
      ∃ list', List.Forall₂ (RenamesTo π) list list' ∧ s' = block list' := by
  simp only [← renameAll_eq_ok_iff]
  rw [RenamesTo, rename]
  cases renameAll π list with
  | error what => simp [bind, Except.bind]
  | ok list' => simp [bind, Except.bind, pure, Except.pure, eq_comm]

/-- A relation that holds between statements and renamed ones, since it does so for each form of
statements; for blocks, if it holds of the statements in them. -/
structure Spans (π : String → String) (R : Stmt → Stmt → Prop) : Prop where
  decl : ∀ type x data init,
    R (decl type x data init) (.decl type (π x) data (init.map (Expr.rename π)))
  assign : ∀ x e, R (assign x e) (.assign (π x) (e.rename π))
  sample : ∀ x dist args, R (sample x dist args) (.sample (π x) dist (Expr.renameAll π args))
  block : ∀ list list', List.Forall₂ R list list' → R (block list) (.block list')

mutual

theorem Spans.of_renamesTo {R : Stmt → Stmt → Prop} (hR : Spans π R) :
    ∀ {s s' : Stmt}, RenamesTo π s s' → R s s'
  | .hole, _, h => by cases h
  | .decl type x data init, _, h => by
      cases h
      exact hR.decl type x data init
  | .assign x e, _, h => by
      cases h
      exact hR.assign x e
  | .sample x dist args, _, h => by
      cases h
      exact hR.sample x dist args
  | .block list, _, h => by
      obtain ⟨list', hlist, rfl⟩ := renamesTo_block_iff.mp h
      exact hR.block list list' (hR.of_forall₂ hlist)
  | .func .., _, h => by cases h

theorem Spans.of_forall₂ {R : Stmt → Stmt → Prop} (hR : Spans π R) :
    ∀ {ss ss' : List Stmt}, List.Forall₂ (RenamesTo π) ss ss' → List.Forall₂ R ss ss'
  | [], _, h => by
      cases h
      exact .nil
  | _ :: _, _, h => by
      obtain ⟨s', ss', hs, hss, rfl⟩ := List.forall₂_cons_left_iff.mp h
      exact .cons (hR.of_renamesTo hs) (hR.of_forall₂ hss)

end

theorem spans_complete (π : String → String) :
    Spans π fun s s' ↦ s'.complete = s.complete where
  decl _ _ _ init := by
    cases init with
    | none => rfl
    | some e => exact Expr.complete_rename π e
  assign _ e := Expr.complete_rename π e
  sample _ _ args := Expr.completeAll_renameAll π args
  block list list' h := by
    change completeAll list' = completeAll list
    induction h with
    | nil => rfl
    | cons hs _ ih => rw [completeAll, completeAll, hs, ih]

theorem spans_calls (π : String → String) :
    Spans π fun s s' ↦ s'.calls.map Call.fn = s.calls.map Call.fn where
  decl _ _ _ init := by
    cases init with
    | none => rfl
    | some e => exact Expr.calls_rename π e
  assign _ e := Expr.calls_rename π e
  sample _ _ args := Expr.callsAll_renameAll π args
  block list list' h := by
    change (callsAll list').map Call.fn = (callsAll list).map Call.fn
    induction h with
    | nil => rfl
    | cons hs _ ih => rw [callsAll, callsAll, List.map_append, List.map_append, hs, ih]

section

variable {ss ss' : List Stmt}

theorem exists_renamesTo (h : List.Forall₂ (RenamesTo π) ss ss') {s : Stmt} (hs : s ∈ ss) :
    ∃ s' ∈ ss', RenamesTo π s s' := by
  induction h with
  | nil => cases hs
  | cons hrename _ ih =>
      rcases List.mem_cons.mp hs with rfl | hs
      · exact ⟨_, List.mem_cons_self .., hrename⟩
      · obtain ⟨s', hs', hrename'⟩ := ih hs
        exact ⟨s', List.mem_cons_of_mem _ hs', hrename'⟩

theorem exists_renamesTo_left (h : List.Forall₂ (RenamesTo π) ss ss') {s' : Stmt}
    (hs' : s' ∈ ss') : ∃ s ∈ ss, RenamesTo π s s' := by
  induction h with
  | nil => cases hs'
  | cons hrename _ ih =>
      rcases List.mem_cons.mp hs' with rfl | hs'
      · exact ⟨_, List.mem_cons_self .., hrename⟩
      · obtain ⟨s, hs, hrename'⟩ := ih hs'
        exact ⟨s, List.mem_cons_of_mem _ hs, hrename'⟩

end

theorem spans_eq : Spans id Eq where
  decl _ _ _ init := by
    cases init with
    | none => rfl
    | some e => rw [Option.map_some, Expr.rename_id, id]
  assign _ e := by rw [Expr.rename_id, id]
  sample _ _ args := by rw [Expr.renameAll_id, id]
  block list list' h := by
    rw [List.forall₂_eq_eq_eq] at h
    rw [h]

theorem eq_of_renamesTo_id {ss ss' : List Stmt} (h : List.Forall₂ (RenamesTo id) ss ss') :
    ss' = ss := by
  have heq := spans_eq.of_forall₂ h
  rw [List.forall₂_eq_eq_eq] at heq
  exact heq.symm

end Stmt

end Stratify
