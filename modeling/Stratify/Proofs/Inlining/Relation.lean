import Stratify.Proofs.Calls.Depth
import Stratify.Proofs.Inlining.Names
import Stratify.Proofs.Syntax.Renaming

/-!
# What inlining does

Inlining as a relation between source code and the code that takes its place. It speaks of the
source as it is written, and of the renaming that its variables are under, so that the same source
can be related to each of its copies. `room` bounds how deeply the calls of the source are nested.
-/

namespace Stratify

namespace Func

/-- The parameters and locals of a function. -/
abbrev scope (f : Func) : List String :=
  f.paramNames ++ Stmt.declNames (Stmt.flatten f.stmts)

end Func

namespace Stmt

theorem callsAll_append (ss ts : List Stmt) :
    callsAll (ss ++ ts) = callsAll ss ++ callsAll ts := by
  induction ss with
  | nil => rfl
  | cons s ss ih => simp only [List.cons_append, callsAll, ih, List.append_assoc]

mutual

theorem callsAll_flat : ∀ s : Stmt, callsAll s.flat = s.calls
  | hole => by simp [flat, callsAll, calls]
  | decl .. => by simp [flat, callsAll, calls]
  | assign .. => by simp [flat, callsAll, calls]
  | sample .. => by simp [flat, callsAll, calls]
  | block list => callsAll_flatten list
  | func .. => by simp [flat, callsAll]

theorem callsAll_flatten : ∀ ss : List Stmt, callsAll (flatten ss) = callsAll ss
  | [] => rfl
  | s :: ss => by rw [flatten, callsAll_append, callsAll_flat s, callsAll_flatten ss, callsAll]

end

theorem mem_callsAll {ss : List Stmt} {c : Call} : c ∈ callsAll ss ↔ ∃ s ∈ ss, c ∈ s.calls := by
  induction ss with
  | nil => simp [callsAll]
  | cons s ss ih => simp [callsAll, ih]

end Stmt

namespace Func

theorem calls_eq (f : Func) : f.calls = Stmt.callsAll f.stmts ++ Stmt.initCalls f.result := by
  obtain ⟨name, params, body, result⟩ := f
  cases body <;> rfl

theorem mem_calls_of_mem_flatten {f : Func} {t : Stmt} (ht : t ∈ Stmt.flatten f.stmts) {c : Call}
    (hc : c ∈ t.calls) : c ∈ f.calls := by
  rw [calls_eq, ← Stmt.callsAll_flatten]
  exact List.mem_append_left _ (Stmt.mem_callsAll.mpr ⟨t, ht, hc⟩)

theorem mem_calls_of_result {f : Func} {e : Expr} (he : f.result = some e) {c : Call}
    (hc : c ∈ e.calls) : c ∈ f.calls := by
  rw [calls_eq, he]
  exact List.mem_append_right _ hc

end Func

namespace Inlining

/-- The parameters of a copy, initialised by the arguments. -/
def inits (f : Func) (r : String → String) (values : List Expr) : List Stmt :=
  (f.params.zip values).map fun pv ↦ .decl pv.1.type (r pv.1.name) false (some pv.2)

mutual

/-- Under the renaming `r`, an expression turns into statements and an expression without calls. -/
inductive Inlines (g : CallGraph) :
    (room : Nat) → (r : String → String) → Expr → State → List Stmt → Expr → State → Prop
  | lit {room r kind value s} : Inlines g room r (.lit kind value) s [] (.lit kind value) s
  | var {room r x s} : Inlines g room r (.var x) s [] (.var (r x)) s
  | unary {room r op x x' pre s s'} :
      Inlines g room r x s pre x' s' →
      Inlines g room r (.unary op x) s pre (.unary op x') s'
  | binary {room r op x y x' y' preX preY s s₁ s'} :
      Inlines g room r x s preX x' s₁ →
      Inlines g room r y s₁ preY y' s' →
      Inlines g room r (.binary op x y) s (preX ++ preY) (.binary op x' y') s'
  | index {room r x x' is is' preX preI s s₁ s'} :
      Inlines g room r x s preX x' s₁ →
      InlinesAll g room r is s₁ preI is' s' →
      Inlines g room r (.index x is) s (preX ++ preI) (.index x' is') s'
  | prim {room r fn args args' pre s s'} :
      g.func? fn = none →
      InlinesAll g room r args s pre args' s' →
      Inlines g room r (.call fn args) s pre (.call fn args') s'
  | user {room r r' f fn args values e result pre body post s s₁ s₂ s₃ s'} :
      g.func? fn = some f →
      args.length = f.params.length →
      f.result = some e →
      InlinesAll g (room + 1) r args s pre values s₁ →
      Enters f.name f.scope r' s₁ s₂ →
      InlinesStmts g room r' (Stmt.flatten f.stmts) s₂ body s₃ →
      Inlines g room r' e s₃ post result s' →
      Inlines g (room + 1) r (.call fn args) s (pre ++ (inits f r' values ++ body ++ post)) result
        s'

inductive InlinesAll (g : CallGraph) :
    (room : Nat) → (r : String → String) → List Expr → State → List Stmt → List Expr → State → Prop
  | nil {room r s} : InlinesAll g room r [] s [] [] s
  | cons {room r e e' es es' pre more s s₁ s'} :
      Inlines g room r e s pre e' s₁ →
      InlinesAll g room r es s₁ more es' s' →
      InlinesAll g room r (e :: es) s (pre ++ more) (e' :: es') s'

inductive InlinesStmt (g : CallGraph) :
    (room : Nat) → (r : String → String) → Stmt → State → List Stmt → State → Prop
  | declare {room r type x data s} :
      InlinesStmt g room r (.decl type x data none) s [.decl type (r x) data none] s
  | define {room r type x data e e' pre s s'} :
      Inlines g room r e s pre e' s' →
      InlinesStmt g room r (.decl type x data (some e)) s
        (pre ++ [.decl type (r x) data (some e')]) s'
  | assign {room r x e e' pre s s'} :
      Inlines g room r e s pre e' s' →
      InlinesStmt g room r (.assign x e) s (pre ++ [.assign (r x) e']) s'
  | sample {room r x dist args args' pre s s'} :
      InlinesAll g room r args s pre args' s' →
      InlinesStmt g room r (.sample x dist args) s (pre ++ [.sample (r x) dist args']) s'

inductive InlinesStmts (g : CallGraph) :
    (room : Nat) → (r : String → String) → List Stmt → State → List Stmt → State → Prop
  | nil {room r s} : InlinesStmts g room r [] s [] s
  | cons {room r t ts out more s s₁ s'} :
      InlinesStmt g room r t s out s₁ →
      InlinesStmts g room r ts s₁ more s' →
      InlinesStmts g room r (t :: ts) s (out ++ more) s'

end

variable {g : CallGraph} {room : Nat} {r : String → String}

theorem InlinesAll.length_eq :
    ∀ {es es' : List Expr} {pre : List Stmt} {s s' : State},
      InlinesAll g room r es s pre es' s' → es'.length = es.length
  | _, _, _, _, _, .nil => rfl
  | _, _, _, _, _, .cons _ hes => congrArg (· + 1) hes.length_eq

theorem complete_inits {f : Func} {values : List Expr} (h : ∀ v ∈ values, v.complete = true) :
    ∀ t ∈ inits f r values, t.complete = true := by
  intro t ht
  obtain ⟨pv, hpv, rfl⟩ := List.mem_map.mp ht
  exact h pv.2 (List.of_mem_zip hpv).2

theorem forall_mem_concat {P : Stmt → Prop} {pre : List Stmt} {t : Stmt} (hpre : ∀ u ∈ pre, P u)
    (ht : P t) : ∀ u ∈ pre ++ [t], P u :=
  List.forall_mem_append.mpr ⟨hpre, List.forall_mem_singleton.mpr ht⟩

mutual

/-- Inlining never leaves a hole. -/
theorem Inlines.complete :
    ∀ {room : Nat} {r : String → String} {e e' : Expr} {pre : List Stmt} {s s' : State},
      Inlines g room r e s pre e' s' → e'.complete = true ∧ ∀ t ∈ pre, t.complete = true
  | _, _, _, _, _, _, _, .lit => ⟨rfl, fun _ h ↦ (by cases h)⟩
  | _, _, _, _, _, _, _, .var => ⟨rfl, fun _ h ↦ (by cases h)⟩
  | _, _, _, _, _, _, _, .unary hx => hx.complete
  | _, _, _, _, _, _, _, .binary hx hy =>
      ⟨by simp [Expr.complete, hx.complete.1, hy.complete.1],
        List.forall_mem_append.mpr ⟨hx.complete.2, hy.complete.2⟩⟩
  | _, _, _, _, _, _, _, .index hx hi =>
      ⟨by simp [Expr.complete, hx.complete.1, Expr.completeAll_iff.mpr hi.complete.1],
        List.forall_mem_append.mpr ⟨hx.complete.2, hi.complete.2⟩⟩
  | _, _, _, _, _, _, _, .prim _ hargs =>
      ⟨Expr.completeAll_iff.mpr hargs.complete.1, hargs.complete.2⟩
  | _, _, _, _, _, _, _, .user _ _ _ hargs _ hbody hpost =>
      ⟨hpost.complete.1, List.forall_mem_append.mpr ⟨hargs.complete.2,
        List.forall_mem_append.mpr ⟨List.forall_mem_append.mpr
          ⟨complete_inits hargs.complete.1, hbody.complete⟩, hpost.complete.2⟩⟩⟩

theorem InlinesAll.complete :
    ∀ {room : Nat} {r : String → String} {es es' : List Expr} {pre : List Stmt} {s s' : State},
      InlinesAll g room r es s pre es' s' →
        (∀ e ∈ es', e.complete = true) ∧ ∀ t ∈ pre, t.complete = true
  | _, _, _, _, _, _, _, .nil => ⟨fun _ h ↦ (by cases h), fun _ h ↦ (by cases h)⟩
  | _, _, _, _, _, _, _, .cons he hes =>
      ⟨List.forall_mem_cons.mpr ⟨he.complete.1, hes.complete.1⟩,
        List.forall_mem_append.mpr ⟨he.complete.2, hes.complete.2⟩⟩

theorem InlinesStmt.complete :
    ∀ {room : Nat} {r : String → String} {t : Stmt} {out : List Stmt} {s s' : State},
      InlinesStmt g room r t s out s' → ∀ t ∈ out, t.complete = true
  | _, _, _, _, _, _, .declare => List.forall_mem_singleton.mpr rfl
  | _, _, _, _, _, _, .define he => forall_mem_concat he.complete.2 he.complete.1
  | _, _, _, _, _, _, .assign he => forall_mem_concat he.complete.2 he.complete.1
  | _, _, _, _, _, _, .sample hargs =>
      forall_mem_concat hargs.complete.2 (Expr.completeAll_iff.mpr hargs.complete.1)

theorem InlinesStmts.complete :
    ∀ {room : Nat} {r : String → String} {ts out : List Stmt} {s s' : State},
      InlinesStmts g room r ts s out s' → ∀ t ∈ out, t.complete = true
  | _, _, _, _, _, _, .nil => fun _ h ↦ (by cases h)
  | _, _, _, _, _, _, .cons ht hts => List.forall_mem_append.mpr ⟨ht.complete, hts.complete⟩

end

theorem Inlines.ne_hole {e e' : Expr} {pre : List Stmt} {s s' : State}
    (h : Inlines g room r e s pre e' s') : e' ≠ .hole := by
  rintro rfl
  cases h.complete.1

theorem InlinesAll.ne_hole {es es' : List Expr} {pre : List Stmt} {s s' : State}
    (h : InlinesAll g room r es s pre es' s') : ∀ e ∈ es', e ≠ .hole := by
  rintro e he rfl
  cases h.complete.1 _ he

/-! ### States only grow -/

/-- Every fresh variable is recorded once, and its name is taken. -/
structure State.Coherent (s : State) : Prop where
  nodup : (s.origins.map Prod.fst).Nodup
  taken : ∀ o ∈ s.origins, o.1 ∈ s.names.taken

/-- Names stay taken, and origins stay recorded. New origins are those of names that were free. -/
structure State.Grows (s s' : State) : Prop where
  taken : ∀ y ∈ s.names.taken, y ∈ s'.names.taken
  origins : ∀ o ∈ s.origins, o ∈ s'.origins
  new : ∀ o ∈ s'.origins, o ∈ s.origins ∨ o.1 ∉ s.names.taken
  coherent : s.Coherent → s'.Coherent

theorem State.Grows.refl (s : State) : s.Grows s :=
  ⟨fun _ h ↦ h, fun _ h ↦ h, fun _ h ↦ Or.inl h, fun h ↦ h⟩

theorem State.Grows.trans {s₁ s₂ s₃ : State} (h₁ : s₁.Grows s₂) (h₂ : s₂.Grows s₃) :
    s₁.Grows s₃ where
  taken y hy := h₂.taken y (h₁.taken y hy)
  origins o ho := h₂.origins o (h₁.origins o ho)
  new o ho := by
    rcases h₂.new o ho with ho | hfree
    · exact h₁.new o ho
    · exact Or.inr fun htaken ↦ hfree (h₁.taken _ htaken)
  coherent h := h₂.coherent (h₁.coherent h)

theorem Enters.coherent {fn : String} {scope : List String} {s s' : State}
    (h : Enters fn scope r s s') (hs : s.Coherent) : s'.Coherent where
  nodup := by
    have hnew : (scope.map r).Nodup := h.nodup.map_on h.inj
    have hmap : s'.origins.map Prod.fst = s.origins.map Prod.fst ++ scope.map r := by
      rw [h.origins, List.map_append, List.map_map]
      rfl
    rw [hmap]
    refine hs.nodup.append hnew fun y hy hy' ↦ ?_
    obtain ⟨o, ho, rfl⟩ := List.mem_map.mp hy
    obtain ⟨x, hx, heq⟩ := List.mem_map.mp hy'
    exact h.fresh x hx (heq ▸ hs.taken o ho)
  taken o ho := by
    rw [h.origins] at ho
    refine (h.taken _).mpr ?_
    rcases List.mem_append.mp ho with ho | ho
    · exact Or.inr (hs.taken o ho)
    · obtain ⟨x, hx, rfl⟩ := List.mem_map.mp ho
      exact Or.inl (List.mem_map_of_mem hx)

theorem Enters.grows {fn : String} {scope : List String} {s s' : State}
    (h : Enters fn scope r s s') : s.Grows s' where
  taken y hy := (h.taken y).mpr (Or.inr hy)
  origins _ ho := h.origins.symm ▸ List.mem_append_left _ ho
  new o ho := by
    rw [h.origins] at ho
    rcases List.mem_append.mp ho with ho | ho
    · exact Or.inl ho
    · obtain ⟨x, hx, rfl⟩ := List.mem_map.mp ho
      exact Or.inr (h.fresh x hx)
  coherent := h.coherent

/-- A relation between states that composes and holds whenever a function is entered. -/
structure Follows (R : State → State → Prop) : Prop where
  refl : ∀ s, R s s
  trans : ∀ {s₁ s₂ s₃}, R s₁ s₂ → R s₂ s₃ → R s₁ s₃
  enters : ∀ {fn scope r s s'}, Enters fn scope r s s' → R s s'

mutual

theorem Inlines.follows {R : State → State → Prop} (hR : Follows R) :
    ∀ {room : Nat} {r : String → String} {e e' : Expr} {pre : List Stmt} {s s' : State},
      Inlines g room r e s pre e' s' → R s s'
  | _, _, _, _, _, _, _, .lit => hR.refl _
  | _, _, _, _, _, _, _, .var => hR.refl _
  | _, _, _, _, _, _, _, .unary hx => hx.follows hR
  | _, _, _, _, _, _, _, .binary hx hy => hR.trans (hx.follows hR) (hy.follows hR)
  | _, _, _, _, _, _, _, .index hx hi => hR.trans (hx.follows hR) (hi.follows hR)
  | _, _, _, _, _, _, _, .prim _ hargs => hargs.follows hR
  | _, _, _, _, _, _, _, .user _ _ _ hargs henters hbody hresult =>
      hR.trans (hargs.follows hR) (hR.trans (hR.enters henters)
        (hR.trans (hbody.follows hR) (hresult.follows hR)))

theorem InlinesAll.follows {R : State → State → Prop} (hR : Follows R) :
    ∀ {room : Nat} {r : String → String} {es es' : List Expr} {pre : List Stmt} {s s' : State},
      InlinesAll g room r es s pre es' s' → R s s'
  | _, _, _, _, _, _, _, .nil => hR.refl _
  | _, _, _, _, _, _, _, .cons he hes => hR.trans (he.follows hR) (hes.follows hR)

theorem InlinesStmt.follows {R : State → State → Prop} (hR : Follows R) :
    ∀ {room : Nat} {r : String → String} {t : Stmt} {out : List Stmt} {s s' : State},
      InlinesStmt g room r t s out s' → R s s'
  | _, _, _, _, _, _, .declare => hR.refl _
  | _, _, _, _, _, _, .define he => he.follows hR
  | _, _, _, _, _, _, .assign he => he.follows hR
  | _, _, _, _, _, _, .sample hargs => hargs.follows hR

theorem InlinesStmts.follows {R : State → State → Prop} (hR : Follows R) :
    ∀ {room : Nat} {r : String → String} {ts out : List Stmt} {s s' : State},
      InlinesStmts g room r ts s out s' → R s s'
  | _, _, _, _, _, _, .nil => hR.refl _
  | _, _, _, _, _, _, .cons ht hts => hR.trans (ht.follows hR) (hts.follows hR)

end

theorem State.Grows.follows : Follows State.Grows :=
  ⟨.refl, .trans, Enters.grows⟩

section

variable {s s' : State} {pre : List Stmt}

theorem Inlines.grows {e e' : Expr} (h : Inlines g room r e s pre e' s') : s.Grows s' :=
  h.follows State.Grows.follows

theorem InlinesAll.grows {es es' : List Expr} (h : InlinesAll g room r es s pre es' s') :
    s.Grows s' :=
  h.follows State.Grows.follows

theorem InlinesStmt.grows {t : Stmt} (h : InlinesStmt g room r t s pre s') : s.Grows s' :=
  h.follows State.Grows.follows

theorem InlinesStmts.grows {ts : List Stmt} (h : InlinesStmts g room r ts s pre s') : s.Grows s' :=
  h.follows State.Grows.follows

end

/-! ### When inlining succeeds -/

/-- A call that can be unrolled when `room` more may be nested. -/
def Unrollable (g : CallGraph) (room : Nat) (c : Call) : Prop :=
  ∀ f, g.func? c.fn = some f → c.args.length = f.params.length ∧ g.NestsWithin room c.fn

/-- What makes a function ready to be copied. -/
structure Ready (g : CallGraph) (f : Func) : Prop where
  complete : f.complete = true
  result : f.result.isSome = true
  scope : f.scope.Nodup
  stmts : ∀ s ∈ Stmt.flatten f.stmts, ∀ name params body result, s ≠ .func name params body result
  arity : ∀ c ∈ f.calls, ∀ f', g.func? c.fn = some f' → c.args.length = f'.params.length

theorem toInit_of_ne_hole {e : Expr} (h : e ≠ .hole) : e.toInit = some e := by
  cases e with
  | hole => exact absurd rfl h
  | _ => rfl

section Walk

variable {handle : CallHandler}

/-- A handler that copies the functions of the calls that can be unrolled. -/
def Handles (g : CallGraph) (room : Nat) (handle : CallHandler) : Prop :=
  ∀ f call values s, g.func? f.name = some f → g.NestsWithin room f.name →
    values.length = f.params.length → (∀ v ∈ values, v ≠ .hole) →
    ∃ n r' e body post result s₂ s₃ s', room = n + 1 ∧
      handle f call values s = .ok (inits f r' values ++ body ++ post, result, s') ∧
      f.result = some e ∧ Enters f.name f.scope r' s s₂ ∧
      InlinesStmts g n r' (Stmt.flatten f.stmts) s₂ body s₃ ∧ Inlines g n r' e s₃ post result s'

theorem func?_name {g : CallGraph} {fn : String} {f : Func} (h : g.func? fn = some f) :
    f.name = fn ∧ f ∈ g.funcs := by
  obtain ⟨hname, hmem⟩ := Func.of_named?_eq_some h
  exact ⟨hname, List.mem_reverse.mp hmem⟩

theorem call_inlines (hhandle : Handles g room handle) {fn : String} {args : List Expr}
    (hcall : Unrollable g room ⟨fn, args⟩) {s : State}
    (hargs : ∃ pre values s', exprs g handle (Expr.renameAll r args) s = .ok (pre, values, s') ∧
      InlinesAll g room r args s pre values s') :
    ∃ pre e' s', expr g handle ((Expr.call fn args).rename r) s = .ok (pre, e', s') ∧
      Inlines g room r (.call fn args) s pre e' s' := by
  obtain ⟨pre, values, s₁, hok, hinl⟩ := hargs
  cases hf : g.func? fn with
  | none =>
      refine ⟨pre, .call fn values, s₁, ?_, .prim hf hinl⟩
      simp only [Expr.rename, expr, hok, hf]
      rfl
  | some f =>
      obtain ⟨hlen, hnest⟩ := hcall f hf
      obtain ⟨hname, -⟩ := func?_name hf
      obtain ⟨n, r', e, body, post, result, s₂, s₃, s', rfl, hhandled, hresult, henters, hbody,
          hpost⟩ := hhandle f (.call fn (Expr.renameAll r args)) values s₁ (hname.symm ▸ hf)
        (hname.symm ▸ hnest) (hinl.length_eq.trans hlen) hinl.ne_hole
      refine ⟨_, result, s', ?_, .user hf hlen hresult hinl henters hbody hpost⟩
      simp only [Expr.rename, expr, hok, hf, bind, Except.bind, hhandled]
      rfl

mutual

theorem expr_inlines (hhandle : Handles g room handle) :
    ∀ {e : Expr} {s : State}, e.complete = true → (∀ c ∈ e.calls, Unrollable g room c) →
      ∃ pre e' s', expr g handle (e.rename r) s = .ok (pre, e', s') ∧
        Inlines g room r e s pre e' s'
  | .hole, _, h, _ => by simp [Expr.complete] at h
  | .lit .., s, _, _ => ⟨[], _, s, rfl, .lit⟩
  | .var _, s, _, _ => ⟨[], _, s, rfl, .var⟩
  | .unary op x, s, h, hcalls => by
      obtain ⟨pre, x', s', hok, hinl⟩ := expr_inlines hhandle (e := x) (s := s) h hcalls
      refine ⟨pre, .unary op x', s', ?_, .unary hinl⟩
      simp only [Expr.rename, expr, hok]
      rfl
  | .binary op x y, s, h, hcalls => by
      simp only [Expr.complete, Bool.and_eq_true] at h
      simp only [Expr.calls, List.mem_append, or_imp, forall_and] at hcalls
      obtain ⟨preX, x', s₁, hokx, hx⟩ := expr_inlines hhandle (s := s) h.1 hcalls.1
      obtain ⟨preY, y', s', hoky, hy⟩ := expr_inlines hhandle (s := s₁) h.2 hcalls.2
      refine ⟨preX ++ preY, .binary op x' y', s', ?_, .binary hx hy⟩
      simp only [Expr.rename, expr, hokx, bind, Except.bind, hoky]
      rfl
  | .index x is, s, h, hcalls => by
      simp only [Expr.complete, Bool.and_eq_true] at h
      simp only [Expr.calls, List.mem_append, or_imp, forall_and] at hcalls
      obtain ⟨preX, x', s₁, hokx, hx⟩ := expr_inlines hhandle (s := s) h.1 hcalls.1
      obtain ⟨preI, is', s', hoki, hi⟩ := exprs_inlines hhandle (s := s₁) h.2 hcalls.2
      refine ⟨preX ++ preI, .index x' is', s', ?_, .index hx hi⟩
      simp only [Expr.rename, expr, hokx, bind, Except.bind, hoki]
      rfl
  | .call fn args, s, h, hcalls => by
      simp only [Expr.calls, List.mem_append, List.mem_singleton, or_imp, forall_and,
        forall_eq] at hcalls
      exact call_inlines hhandle hcalls.2 (exprs_inlines hhandle h hcalls.1)

theorem exprs_inlines (hhandle : Handles g room handle) :
    ∀ {es : List Expr} {s : State}, Expr.completeAll es = true →
      (∀ c ∈ Expr.callsAll es, Unrollable g room c) →
      ∃ pre es' s', exprs g handle (Expr.renameAll r es) s = .ok (pre, es', s') ∧
        InlinesAll g room r es s pre es' s'
  | [], s, _, _ => ⟨[], [], s, rfl, .nil⟩
  | e :: es, s, h, hcalls => by
      simp only [Expr.completeAll, Bool.and_eq_true] at h
      simp only [Expr.callsAll, List.mem_append, or_imp, forall_and] at hcalls
      obtain ⟨pre, e', s₁, hok, he⟩ := expr_inlines hhandle (s := s) h.1 hcalls.1
      obtain ⟨more, es', s', hoks, hes⟩ := exprs_inlines hhandle (s := s₁) h.2 hcalls.2
      refine ⟨pre ++ more, e' :: es', s', ?_, .cons he hes⟩
      simp only [Expr.renameAll, exprs, hok, bind, Except.bind, hoks]
      rfl

end

theorem stmt_inlines (hhandle : Handles g room handle) {t : Stmt} (hflat : t.isFlat = true)
    (hcomplete : t.complete = true)
    (hfunc : ∀ name params body result, t ≠ .func name params body result)
    (hcalls : ∀ c ∈ t.calls, Unrollable g room c) (s : State) :
    ∃ t' out s', t.rename r = .ok t' ∧ stmt g handle t' s = .ok (out, s') ∧
      InlinesStmt g room r t s out s' := by
  cases t with
  | hole => cases hcomplete
  | decl type x data init =>
      cases init with
      | none => exact ⟨_, _, s, rfl, rfl, .declare⟩
      | some e =>
          obtain ⟨pre, e', s', hok, he⟩ := expr_inlines (r := r) hhandle (s := s) hcomplete hcalls
          refine ⟨_, _, s', rfl, ?_, .define he⟩
          simp only [Option.map_some, stmt, Expr.ofInit, hok, bind, Except.bind,
            toInit_of_ne_hole he.ne_hole]
          rfl
  | assign x e =>
      obtain ⟨pre, e', s', hok, he⟩ := expr_inlines (r := r) hhandle (s := s) hcomplete hcalls
      refine ⟨_, _, s', rfl, ?_, .assign he⟩
      simp only [stmt, hok, bind, Except.bind]
      rfl
  | sample x dist args =>
      obtain ⟨pre, args', s', hok, hargs⟩ :=
        exprs_inlines (r := r) hhandle (s := s) hcomplete hcalls
      refine ⟨_, _, s', rfl, ?_, .sample hargs⟩
      simp only [stmt, hok, bind, Except.bind]
      rfl
  | block list => cases hflat
  | func name params body result => exact absurd rfl (hfunc name params body result)

/-- Statements of a scope that can be unrolled. -/
structure StmtsReady (g : CallGraph) (room : Nat) (ts : List Stmt) : Prop where
  flat : ∀ t ∈ ts, t.isFlat = true
  complete : ∀ t ∈ ts, t.complete = true
  not_func : ∀ t ∈ ts, ∀ name params body result, t ≠ .func name params body result
  calls : ∀ t ∈ ts, ∀ c ∈ t.calls, Unrollable g room c

theorem renamedStmts_inlines (hhandle : Handles g room handle) {ts : List Stmt}
    (hts : StmtsReady g room ts) (s : State) :
    ∃ out s', renamedStmts g handle r ts s = .ok (out, s') ∧
      InlinesStmts g room r ts s out s' := by
  induction ts generalizing s with
  | nil => exact ⟨[], s, rfl, .nil⟩
  | cons t ts ih =>
      obtain ⟨hflat, hcomplete, hfunc, hcalls⟩ := hts
      rw [List.forall_mem_cons] at hflat hcomplete hfunc hcalls
      obtain ⟨t', out, s₁, hrename, hok, ht⟩ :=
        stmt_inlines hhandle hflat.1 hcomplete.1 hfunc.1 hcalls.1 s
      obtain ⟨more, s', hoks, hrest⟩ := ih ⟨hflat.2, hcomplete.2, hfunc.2, hcalls.2⟩ s₁
      refine ⟨out ++ more, s', ?_, .cons ht hrest⟩
      simp only [renamedStmts, hrename, hok, bind, Except.bind, hoks]
      rfl

/-! ### Copies of functions -/

theorem inits_eq {r' : String → String} (ps : List Param) {values : List Expr}
    (hvalues : ∀ v ∈ values, v ≠ .hole) :
    ((ps.zip (((ps.map Param.name).map r').zip values)).map fun (p, name, value) ↦
        Stmt.decl p.type name false value.toInit) =
      (ps.zip values).map fun pv ↦ .decl pv.1.type (r' pv.1.name) false (some pv.2) := by
  induction ps generalizing values with
  | nil => rfl
  | cons p ps ih =>
      cases values with
      | nil => rfl
      | cons v values =>
          rw [List.forall_mem_cons] at hvalues
          simp only [List.map_cons, List.zip_cons_cons, toInit_of_ne_hole hvalues.1]
          rw [ih hvalues.2]

theorem copy_enters (f : Func) (hscope : f.scope.Nodup) (s : State) :
    ∃ r : Renaming, ∃ s₁ s₂ : State, ∃ r₁ : Renaming, ∃ locals : List String,
      allocAll f.name (s.calls + 1) f.paramNames [] { s with calls := s.calls + 1 } =
        (f.paramNames.map r.apply, r₁, s₁) ∧
      allocAll f.name (s.calls + 1) (Stmt.declNames (Stmt.flatten f.stmts)) r₁ s₁ =
        (locals, r, s₂) ∧
      Enters f.name f.scope r.apply s s₂ := by
  obtain ⟨halloc, hrenaming⟩ := allocAll_allocates f.name (s.calls + 1) []
    { s with calls := s.calls + 1 } f.scope
  have hparams := (allocAll_allocates f.name (s.calls + 1) [] { s with calls := s.calls + 1 }
    f.paramNames).1.length_eq
  rw [List.append_nil] at hrenaming
  have hmap := map_apply_zip hscope halloc.length_eq
  have henters := halloc.enters hscope
  rw [← hrenaming] at hmap henters
  rw [allocAll_append] at hmap henters
  generalize allocAll f.name (s.calls + 1) f.paramNames [] { s with calls := s.calls + 1 } = a₁
    at hmap henters hparams
  obtain ⟨names, r₁, s₁⟩ := a₁
  generalize ha₂ : allocAll f.name (s.calls + 1) (Stmt.declNames (Stmt.flatten f.stmts)) r₁ s₁ = a₂
    at hmap henters
  obtain ⟨locals, r, s₂⟩ := a₂
  refine ⟨r, s₁, s₂, r₁, locals, ?_, ha₂, henters⟩
  rw [List.map_append] at hmap
  rw [(List.append_inj hmap (by simpa using hparams.symm)).1]

theorem copy_inlines {n : Nat} (hhandle : Handles g n handle) {f : Func} (hready : Ready g f)
    (hf : g.func? f.name = some f) (hnest : g.NestsWithin (n + 1) f.name) {values : List Expr}
    (hvalues : ∀ v ∈ values, v ≠ .hole) (s : State) :
    ∃ r' e body post result s₂ s₃ s',
      copy g handle f values s = .ok (inits f r' values ++ body ++ post, result, s') ∧
      f.result = some e ∧ Enters f.name f.scope r' s s₂ ∧
      InlinesStmts g n r' (Stmt.flatten f.stmts) s₂ body s₃ ∧
      Inlines g n r' e s₃ post result s' := by
  obtain ⟨e, he⟩ := Option.isSome_iff_exists.mp hready.result
  have hunroll (c : Call) (hc : c ∈ f.calls) : Unrollable g n c := by
    intro f' hf'
    refine ⟨hready.arity c hc f' hf', hnest c ?_⟩
    simp [CallGraph.userCalls, hf, hc, CallGraph.isUser, hf']
  have hbody : StmtsReady g n (Stmt.flatten f.stmts) := by
    refine ⟨Stmt.isFlat_flatten _, Stmt.complete_flatten (Func.complete_stmts hready.complete),
      hready.stmts, fun t ht c hc ↦ hunroll c (Func.mem_calls_of_mem_flatten ht hc)⟩
  obtain ⟨r, s₁, s₂, r₁, locals, hparams, hlocals, henters⟩ := copy_enters f hready.scope s
  obtain ⟨body, s₃, hokBody, hinlBody⟩ := renamedStmts_inlines (r := r.apply) hhandle hbody s₂
  obtain ⟨post, result, s', hokPost, hinlPost⟩ := expr_inlines (r := r.apply) hhandle (s := s₃)
    (Func.complete_result hready.complete he) fun c hc ↦ hunroll c (Func.mem_calls_of_result he hc)
  refine ⟨r.apply, e, body, post, result, s₂, s₃, s', ?_, he, henters, hinlBody, hinlPost⟩
  rw [Stmt.declNames] at hlocals
  simp only [copy, hparams, hlocals, he, Expr.ofInit, hokBody, hokPost, bind, Except.bind]
  rw [Func.paramNames, inits_eq f.params hvalues]
  rfl

theorem handler_handles (limit : Int) (hready : ∀ f ∈ g.funcs, Ready g f) (room : Nat)
    (chain : List String) : Handles g room (handler g limit room chain) := by
  induction room generalizing chain with
  | zero => exact fun f call values s hf hnest ↦ hnest.elim
  | succ n ih =>
      intro f call values s hf hnest hlen hvalues
      obtain ⟨-, hmem⟩ := func?_name hf
      obtain ⟨r', e, body, post, result, s₂, s₃, s', hok, hrest⟩ :=
        copy_inlines (ih (chain ++ [f.name])) (hready f hmem) hf hnest hvalues s
      refine ⟨n, r', e, body, post, result, s₂, s₃, s', rfl, ?_, hrest⟩
      rw [handler, if_neg (not_not_intro hlen)]
      exact hok

/-! ### Whole programs -/

theorem stmts_append (ss ts : List Stmt) (s : State) :
    stmts g handle (ss ++ ts) s = (do
      let (out, s) ← stmts g handle ss s
      let (more, s) ← stmts g handle ts s
      return (out ++ more, s)) := by
  induction ss generalizing s with
  | nil =>
      simp only [List.nil_append, stmts, bind, Except.bind]
      cases stmts g handle ts s <;> rfl
  | cons t ss ih =>
      simp only [List.cons_append, stmts, ih, bind_assoc, pure_bind, List.append_assoc]

theorem stmts_singleton (t : Stmt) (s : State) :
    stmts g handle [t] s = stmt g handle t s := by
  simp only [stmts, bind, Except.bind]
  cases stmt g handle t s with
  | error d => rfl
  | ok p => simp [pure, Except.pure]

mutual

theorem stmt_eq_stmts_flat : ∀ (t : Stmt) (s : State), stmt g handle t s = stmts g handle t.flat s
  | .hole, _ => rfl
  | .decl .., s => (stmts_singleton _ s).symm
  | .assign .., s => (stmts_singleton _ s).symm
  | .sample .., s => (stmts_singleton _ s).symm
  | .block list, s => stmts_flatten list s
  | .func .., _ => rfl

theorem stmts_flatten : ∀ (ts : List Stmt) (s : State),
    stmts g handle ts s = stmts g handle (Stmt.flatten ts) s
  | [], _ => rfl
  | t :: ts, s => by
      rw [stmts, Stmt.flatten, stmts_append, stmt_eq_stmts_flat t s]
      congr 1
      funext ⟨out, s'⟩
      simp only [stmts_flatten ts s']

end

theorem stmts_eq_renamedStmts {ts : List Stmt} (h : StmtsReady g room ts) (s : State) :
    stmts g handle ts s = renamedStmts g handle id ts s := by
  induction ts generalizing s with
  | nil => rfl
  | cons t ts ih =>
      obtain ⟨hflat, hcomplete, hfunc, hcalls⟩ := h
      rw [List.forall_mem_cons] at hflat hcomplete hfunc hcalls
      have hrename : t.rename id = .ok t := by
        cases t with
        | hole => cases hcomplete.1
        | decl type x data init => cases init <;> simp [Stmt.rename, Expr.rename_id]
        | assign x e => simp [Stmt.rename, Expr.rename_id]
        | sample x dist args => simp [Stmt.rename, Expr.renameAll_id]
        | block list => cases hflat.1
        | func name params body result => exact absurd rfl (hfunc.1 name params body result)
      rw [stmts, renamedStmts, hrename]
      simp only [ih ⟨hflat.2, hcomplete.2, hfunc.2, hcalls.2⟩]

/-- The statements of a program, which no renaming changes. -/
theorem stmts_inlines (hhandle : Handles g room handle) {ts : List Stmt}
    (hts : StmtsReady g room (Stmt.flatten ts)) (s : State) :
    ∃ out s', stmts g handle ts s = .ok (out, s') ∧
      InlinesStmts g room id (Stmt.flatten ts) s out s' := by
  rw [stmts_flatten, stmts_eq_renamedStmts hts]
  exact renamedStmts_inlines hhandle hts s

end Walk

end Inlining

end Stratify
