import Stratify.Proofs.Inlining.Hygiene
import Stratify.Proofs.Typing.Tracking

/-!
# Levels of renamed programs

The rules of the language do not depend on what variables are called. If a program without functions
is renamed so that different variables stay different, every fitting assignment of the new program
is one of the old program, read through the renaming. The best levels are compared in both
directions, so a variable keeps its level under its new name.
-/

namespace Stratify

namespace Assignment

/-- The levels that variables have under their new names. -/
def renamed (π : String → String) (A : Assignment) : Assignment
  | .var id => A (.var ⟨id.func, π id.name⟩)
  | .result fn => A (.result fn)

end Assignment

variable {g : Globals} {A : Assignment} {fn : String} {π : String → String}

namespace Expr

mutual

theorem levelIn_rename : ∀ e : Expr, (e.rename π).levelIn g A fn = e.levelIn g (A.renamed π) fn
  | hole => rfl
  | lit .. => rfl
  | var _ => rfl
  | unary _ x => by rw [rename, levelIn, levelIn, levelIn_rename x]
  | binary _ x y => by rw [rename, levelIn, levelIn, levelIn_rename x, levelIn_rename y]
  | index x indices => by
      rw [rename, levelIn, levelIn, levelIn_rename x, levelInAll_rename indices]
  | call callee args => by
      rw [rename, levelIn, levelIn, levelInAll_rename args]
      rfl

theorem levelInAll_rename :
    ∀ es : List Expr, levelInAll g A fn (renameAll π es) = levelInAll g (A.renamed π) fn es
  | [] => rfl
  | e :: es => by rw [renameAll, levelInAll, levelInAll, levelIn_rename e, levelInAll_rename es]

end

theorem FlowsTo.of_rename (hfuncs : g.funcs = []) {e : Expr} {l : Level}
    (h : (e.rename π).FlowsTo g A fn l) : e.FlowsTo g (A.renamed π) fn l := by
  refine ⟨(levelIn_rename e).symm.trans_le h.level_le, fun c _ f hf ↦ ?_⟩
  rw [Globals.func?, hfuncs, Func.named?_nil] at hf
  cases hf

theorem rename_mem_renameAll {e : Expr} {es : List Expr} (h : e ∈ es) :
    e.rename π ∈ renameAll π es := by
  induction es with
  | nil => cases h
  | cons e' es ih =>
      rcases List.mem_cons.mp h with rfl | h
      · exact List.mem_cons_self ..
      · exact List.mem_cons_of_mem _ (ih h)

end Expr

namespace Stmt

variable {s s' : Stmt} {ss ss' : List Stmt}

theorem RenamesTo.fits (h : RenamesTo π s s') (hfuncs : g.funcs = []) (hfits : s'.Fits g A fn) :
    s.Fits g (A.renamed π) fn := by
  cases s with
  | decl type x data init =>
      cases h
      rintro e rfl
      exact (hfits (e.rename π) rfl).of_rename hfuncs
  | assign x e =>
      cases h
      exact Expr.FlowsTo.of_rename hfuncs hfits
  | sample x dist args =>
      cases h
      exact ⟨hfits.1, fun e he ↦ (hfits.2 _ (Expr.rename_mem_renameAll he)).of_rename hfuncs⟩
  | _ => trivial

theorem RenamesTo.declName? (h : RenamesTo π s s') (hflat : s.isFlat = true) :
    s'.declName? = s.declName?.map π := by
  cases s with
  | block list => cases hflat
  | decl type x data init =>
      cases h
      rfl
  | assign x e =>
      cases h
      rfl
  | sample x dist args =>
      cases h
      rfl
  | _ => cases h

theorem RenamesTo.assignee? (h : RenamesTo π s s') (hflat : s.isFlat = true) :
    s'.assignee? = s.assignee?.map π := by
  cases s with
  | block list => cases hflat
  | decl type x data init =>
      cases h
      cases init <;> rfl
  | assign x e =>
      cases h
      rfl
  | sample x dist args =>
      cases h
      rfl
  | _ => cases h

theorem assignee?_of_assigns {x : String} (h : s.assigns x = true) : s.assignee? = some x := by
  cases s with
  | assign y e =>
      obtain rfl : x = y := by simpa [assigns] using h
      rfl
  | _ => cases h

theorem mem_occurring_of_assignee? {x : String} (h : s.assignee? = some x) : x ∈ s.occurring := by
  cases s with
  | decl type y data init =>
      cases init with
      | none => cases h
      | some e =>
          cases h
          exact List.mem_cons_self ..
  | assign y e =>
      cases h
      exact List.mem_cons_self ..
  | _ => cases h

/-- Statements of one scope are renamed, and different variables stay different. -/
structure RenamedApart (π : String → String) (ss ss' : List Stmt) : Prop where
  stmts : List.Forall₂ (RenamesTo π) ss ss'
  flat : ∀ s ∈ ss, s.isFlat = true
  inj : ∀ x ∈ declNames ss, ∀ y ∈ declNames ss, π x = π y → x = y
  declared : ∀ s ∈ ss, ∀ x ∈ s.occurring, x ∈ declNames ss

theorem RenamedApart.declNames (h : RenamedApart π ss ss') :
    declNames ss' = (declNames ss).map π := by
  have hnames {ss ss' : List Stmt} (hstmts : List.Forall₂ (RenamesTo π) ss ss')
      (hflat : ∀ s ∈ ss, s.isFlat = true) : Stmt.declNames ss' = (Stmt.declNames ss).map π := by
    induction hstmts with
    | nil => rfl
    | @cons s s' ss ss' hs _ ih =>
        rw [List.forall_mem_cons] at hflat
        have hrest := ih hflat.2
        simp only [Stmt.declNames, List.filterMap_cons, hs.declName? hflat.1] at hrest ⊢
        rw [hrest]
        cases s.declName? <;> rfl
  exact hnames h.stmts h.flat

/-- A variable gets a value in the renamed statements if it gets one in the others. -/
theorem RenamedApart.exists_assignee_iff (h : RenamedApart π ss ss') {x : String}
    (hx : x ∈ Stmt.declNames ss) :
    (∃ s' ∈ ss', s'.assignee? = some (π x)) ↔ ∃ s ∈ ss, s.assignee? = some x := by
  constructor
  · rintro ⟨s', hs', hassignee⟩
    obtain ⟨s, hs, hrename⟩ := exists_renamesTo_left h.stmts hs'
    rw [hrename.assignee? (h.flat s hs), Option.map_eq_some_iff] at hassignee
    obtain ⟨y, hy, hxy⟩ := hassignee
    obtain rfl : y = x := h.inj y (h.declared s hs y (mem_occurring_of_assignee? hy)) x hx hxy
    exact ⟨s, hs, hy⟩
  · rintro ⟨s, hs, hassignee⟩
    obtain ⟨s', hs', hrename⟩ := exists_renamesTo h.stmts hs
    exact ⟨s', hs', by rw [hrename.assignee? (h.flat s hs), hassignee, Option.map_some]⟩

theorem FitIn.of_renamed (h : RenamedApart π ss ss') (hfuncs : g.funcs = [])
    (hfit : FitIn g A fn ss') : FitIn g (A.renamed π) fn ss where
  stmts s hs := by
    obtain ⟨s', hs', hrename⟩ := exists_renamesTo h.stmts hs
    exact hrename.fits hfuncs (hfit.stmts s' hs')
  data type x init hs := by
    obtain ⟨s', hs', hrename⟩ := exists_renamesTo h.stmts hs
    cases hrename
    exact hfit.data type (π x) _ hs'
  unassigned type x hs hnot := by
    obtain ⟨s', hs', hrename⟩ := exists_renamesTo h.stmts hs
    cases hrename
    refine hfit.unassigned type (π x) hs' fun e he ↦ ?_
    obtain ⟨t, ht, hrename⟩ := exists_renamesTo_left h.stmts he
    cases t with
    | assign y e' =>
        have hyx : π y = π x := (Stmt.assign.inj (Except.ok.inj hrename)).1
        have hy : y ∈ declNames ss := h.declared _ ht y (List.mem_cons_self ..)
        obtain rfl : y = x := h.inj y hy x (mem_declNames_of_mem hs) hyx
        exact hnot e' ht
    | block list => cases h.flat _ ht
    | _ => cases hrename

end Stmt

namespace Program

/-- A program without functions and the bounds of its variables are renamed, and different variables
stay different. -/
structure RenamedApart (π : String → String) (p p' : Program) (seeds seeds' : Seeds) : Prop where
  funcs : p.funcs = []
  funcs' : p'.funcs = []
  stmts : Stmt.RenamedApart π (Stmt.flatten p.stmts) (Stmt.flatten p'.stmts)
  seeds : ∀ e ∈ seeds, (π e.1, e.2) ∈ seeds'

variable {prims : Primitives} {p p' : Program} {seeds seeds' : Seeds}

theorem RenamedApart.fits (h : p.RenamedApart π p' seeds seeds') (hA : p'.Fits prims seeds' A) :
    p.Fits prims seeds (A.renamed π) := by
  have hglobals : p.globals prims = p'.globals prims := by
    rw [globals, globals, h.funcs, h.funcs']
  refine ⟨fun f hf ↦ ?_, fun f hf ↦ ?_, ?_, fun x c hx l hl ↦ ?_⟩
  · rw [h.funcs] at hf
    cases hf
  · rw [h.funcs] at hf
    cases hf
  · rw [hglobals]
    exact hA.stmts.of_renamed h.stmts h.funcs'
  · exact hA.seeds (π x) c (h.seeds (x, c) hx) l hl

end Program

namespace Typing

variable {prims : Primitives} {p p' : Program} {seeds seeds' seeds₁ seeds₂ : Seeds} {t t' : Typing}
  {π' : String → String} {x : String}

/-- A variable keeps its level under its new name, if the renaming can be undone. -/
theorem Describes.level?_renamed (h : t.Describes prims p seeds)
    (h' : t'.Describes prims p' seeds') (hπ : p.RenamedApart π p' seeds seeds')
    (hπ' : p'.RenamedApart π' p seeds' seeds) (hx : x ∈ Stmt.declNames (Stmt.flatten p.stmts))
    (hinv : π' (π x) = x) : t'.level? (π x) = t.level? x := by
  have hx' : π x ∈ Stmt.declNames (Stmt.flatten p'.stmts) := by
    rw [hπ.stmts.declNames]
    exact List.mem_map_of_mem hx
  have hback : (Draft.levels t.levels.level).renamed π' (.var ⟨"", π x⟩) = t.levels.level x :=
    congrArg t.levels.level hinv
  rw [h.shows.vars x hx, h'.shows.vars (π x) hx', Option.some.injEq]
  exact h.level_eq_of_fits h' (Program.var_mem_slots hx) (Program.var_mem_slots hx')
    (hπ.fits h'.fits) (hπ'.fits h.fits) rfl hback

/-- A variable counts as assigned if some statement gives it a value. -/
theorem Describes.assigned_iff (h : t.Describes prims p seeds) (hfuncs : p.funcs = [])
    (ht : infer prims p seeds₁ = .ok t) :
    t.assigned x = true ↔ ∃ s ∈ Stmt.flatten p.stmts, s.assignee? = some x := by
  constructor
  · intro hassigned
    unfold assigned at hassigned
    split at hassigned
    · cases hassigned
    next v hv =>
      obtain ⟨hmem, hname⟩ := (Env.find?_eq_some h.coherent).mp hv
      rw [h.stmts] at hmem
      obtain ⟨s, hs, hvar⟩ := List.mem_filterMap.mp (by simpa [Stmt.scopeVars] using hmem)
      cases s with
      | decl type y data init =>
          cases hvar
          obtain rfl : y = x := hname
          rcases Bool.or_eq_true _ _ ▸ hassigned with hinit | hany
          · obtain ⟨e, rfl⟩ := Option.isSome_iff_exists.mp hinit
            exact ⟨_, hs, rfl⟩
          · obtain ⟨w, hw, hassigns⟩ := List.any_eq_true.mp hany
            exact ⟨w, hw, Stmt.assignee?_of_assigns hassigns⟩
      | _ => cases hvar
  · rintro ⟨s, hs, hx⟩
    exact (tracks_of_infer_eq_ok hfuncs ht).2 s hs x hx

theorem Describes.assigned_renamed (h : t.Describes prims p seeds)
    (h' : t'.Describes prims p' seeds') (ht : infer prims p seeds₁ = .ok t)
    (ht' : infer prims p' seeds₂ = .ok t') (hπ : p.RenamedApart π p' seeds seeds')
    (hx : x ∈ Stmt.declNames (Stmt.flatten p.stmts)) : t'.assigned (π x) = t.assigned x := by
  rw [Bool.eq_iff_iff, h.assigned_iff hπ.funcs ht, h'.assigned_iff hπ.funcs' ht']
  exact hπ.stmts.exists_assignee_iff hx

/-- What a typing tells of the variables of the program, in declaration order. -/
def shown (t : Typing) : List (String × Option Level × Bool) :=
  t.vars.map fun v ↦ (v.id.name, t.level? v.id.name, t.assigned v.id.name)

theorem Describes.shown_eq (h : t.Describes prims p seeds) :
    t.shown = (Stmt.declNames (Stmt.flatten p.stmts)).map fun x ↦
      (x, t.level? x, t.assigned x) := by
  have hnames := Stmt.names_scopeVars "" [] (Stmt.flatten p.stmts)
  rw [← h.stmts, List.map_nil, List.nil_append] at hnames
  rw [shown, vars, ← hnames, List.map_map]
  rfl

end Typing

end Stratify
