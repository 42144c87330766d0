import Stratify.Proofs.Inlining.Meaning

/-!
# Inlining is hygienic

Where every variable of an inlined program comes from. A variable that the source has at top level
keeps its name. In the copy for a call, a parameter or local of the function has a name of its own
in that call, which is recorded with the function and the number of the call, and which the source
uses nowhere. Calls are numbered in the order in which their bodies are entered.
-/

namespace Stratify

/-! ### The variables of the source -/

namespace Stmt

/-- The variables that a statement declares, assigns, samples or reads. -/
def occurring : Stmt → List String
  | decl _ x _ init => x :: Expr.readsAll Deps.noUser init.toList
  | assign x e => x :: e.reads Deps.noUser
  | sample x _ args => x :: Expr.readsAll Deps.noUser args
  | _ => []

end Stmt

namespace Func

/-- Parameters, and the variables of the body and of the result. -/
def occurring (f : Func) : List String :=
  f.paramNames ++ (Stmt.flatten f.stmts).flatMap Stmt.occurring ++
    Expr.readsAll Deps.noUser f.result.toList

end Func

namespace Program

/-- All the variables of a program, those of functions that nothing calls included. -/
def occurring (p : Program) : List String :=
  p.funcs.flatMap Func.occurring ++ (Stmt.flatten p.stmts).flatMap Stmt.occurring

end Program

namespace Expr

mutual

theorem mem_visited_of_mem_reads :
    ∀ {e : Expr} {x : String}, x ∈ e.reads Deps.noUser →
      x ∈ (e.visited fun _ ↦ true).filterMap Node.mentioned?
  | hole, _, h => by cases h
  | lit .., _, h => by cases h
  | var _, _, h => h
  | unary _ y, _, h => mem_visited_of_mem_reads (e := y) h
  | binary _ y z, x, h => by
      change x ∈ (y.visited _ ++ z.visited _).filterMap _
      rw [List.filterMap_append, List.mem_append]
      exact (List.mem_append.mp h).imp mem_visited_of_mem_reads mem_visited_of_mem_reads
  | index y indices, x, h => by
      change x ∈ (y.visited _ ++ visitedAll _ indices).filterMap _
      rw [List.filterMap_append, List.mem_append]
      exact (List.mem_append.mp h).imp mem_visited_of_mem_reads mem_visitedAll_of_mem_readsAll
  | call _ args, x, h => by
      change x ∈ (visitedAll _ args).filterMap _
      exact mem_visitedAll_of_mem_readsAll h

theorem mem_visitedAll_of_mem_readsAll :
    ∀ {es : List Expr} {x : String}, x ∈ readsAll Deps.noUser es →
      x ∈ (visitedAll (fun _ ↦ true) es).filterMap Node.mentioned?
  | [], _, h => by cases h
  | e :: es, x, h => by
      rw [visitedAll, List.filterMap_append, List.mem_append]
      exact (List.mem_append.mp h).imp mem_visited_of_mem_reads mem_visitedAll_of_mem_readsAll

end

end Expr

namespace Stmt

theorem mem_mentions_of_mem_occurring {s : Stmt} {x : String} (h : x ∈ s.occurring) :
    x ∈ s.mentions := by
  cases s with
  | decl type y data init =>
      refine (List.mem_cons.mp h).elim (fun hx ↦ List.mem_cons.mpr (Or.inl hx)) fun hx ↦ ?_
      cases init with
      | none => cases hx
      | some e =>
          have hx' : x ∈ e.reads Deps.noUser := by simpa [Expr.readsAll] using hx
          exact List.mem_cons_of_mem _ (Expr.mem_visited_of_mem_reads hx')
  | assign y e =>
      refine (List.mem_cons.mp h).elim (fun hx ↦ List.mem_cons.mpr (Or.inl hx)) fun hx ↦ ?_
      exact List.mem_cons_of_mem _ (Expr.mem_visited_of_mem_reads hx)
  | sample y dist args =>
      refine (List.mem_cons.mp h).elim (fun hx ↦ List.mem_cons.mpr (Or.inl hx)) fun hx ↦ ?_
      exact List.mem_cons_of_mem _ (Expr.mem_visitedAll_of_mem_readsAll hx)
  | _ => cases h

theorem mem_mentions_of_mem_flatMap_occurring {ss : List Stmt} {x : String}
    (h : x ∈ (flatten ss).flatMap occurring) : x ∈ ss.flatMap mentions := by
  obtain ⟨s, hs, hx⟩ := List.mem_flatMap.mp h
  exact mem_mentions_of_mem_flatten s hs x (mem_mentions_of_mem_occurring hx)

theorem mem_mentions_of_mem_result {f : Func} {x : String}
    (h : x ∈ Expr.readsAll Deps.noUser f.result.toList) : x ∈ f.toStmt.mentions := by
  obtain ⟨name, params, body, result⟩ := f
  cases result with
  | none => cases h
  | some e =>
      have hx : x ∈ e.reads Deps.noUser := by simpa [Expr.readsAll] using h
      have hmem := Expr.mem_visited_of_mem_reads hx
      cases body with
      | none => exact hmem
      | some body =>
          simp only [mentions, visited, Node.withChildren, Func.toStmt, if_true,
            List.filterMap_cons, Node.mentioned?_func, List.filterMap_append]
          exact List.mem_append_right _ hmem

/-- The statements of a scope only use its variables. -/
theorem ScopedFrom.mem_of_mem_occurring {g : Globals} {fn : String} {ps : List String}
    {ss : List Stmt} (h : ScopedFrom g fn ps [] ss) {s : Stmt} (hs : s ∈ ss) {x : String}
    (hx : x ∈ s.occurring) : x ∈ ps ++ declNames ss := by
  obtain ⟨front, after, rfl⟩ := List.append_of_mem hs
  have hafter := h.scopedAfter
  rw [List.nil_append] at hafter
  have hfront {y : String} (hy : y ∈ ps ++ declNames front) :
      y ∈ ps ++ declNames (front ++ s :: after) := by
    rw [declNames_append, ← List.append_assoc]
    exact List.mem_append_left _ hy
  cases s with
  | decl type y data init =>
      rcases List.mem_cons.mp hx with rfl | hx
      · exact List.mem_append_right _ (mem_declNames_of_mem hs)
      · obtain ⟨e, he, hx⟩ := Expr.mem_readsAll.mp hx
        exact hfront ((hafter.2 e (Option.mem_toList.mp he)).vars x hx)
  | assign y e =>
      rcases List.mem_cons.mp hx with rfl | hx
      · exact hfront hafter.1
      · exact hfront (hafter.2.2.vars x hx)
  | sample y dist args =>
      rcases List.mem_cons.mp hx with rfl | hx
      · exact hfront hafter.1
      · obtain ⟨e, he, hx⟩ := Expr.mem_readsAll.mp hx
        exact hfront ((hafter.2.2 e he).vars x hx)
  | _ => cases hx

end Stmt

namespace Program

/-- Every variable of the source is among the names that are taken from the start. -/
theorem mem_mentions_of_mem_occurring {p : Program} {x : String} (h : x ∈ p.occurring) :
    x ∈ p.mentions := by
  rcases List.mem_append.mp h with h | h
  · obtain ⟨f, hf, hx⟩ := List.mem_flatMap.mp h
    refine List.mem_append_left _ (List.mem_flatMap.mpr ⟨f, hf, ?_⟩)
    rcases List.mem_append.mp hx with hx | hx
    · rcases List.mem_append.mp hx with hx | hx
      · exact List.mem_append_left _ hx
      · exact List.mem_append_right _ (Stmt.flatMap_mentions_stmts_subset f x
          (Stmt.mem_mentions_of_mem_flatMap_occurring hx))
    · exact List.mem_append_right _ (Stmt.mem_mentions_of_mem_result hx)
  · exact List.mem_append_right _ (Stmt.mem_mentions_of_mem_flatMap_occurring h)

end Program

/-! ### Where variables come from -/

namespace Inlining

/-- Whose variables are meant: those of the program, or those of a function in one of its calls. -/
inductive Owner
  | top
  | copy (fn : String) (call : Nat)
deriving DecidableEq, Repr

namespace Owner

/-- The name that a variable of the source has in the inlined program. -/
def Names (origins : List (String × Origin)) : Owner → String → String → Prop
  | top, x, y => y = x
  | copy fn call, x, y => (y, ⟨fn, x, call⟩) ∈ origins

end Owner

/-- The parameters of a call, initialised by the arguments. -/
inductive Binds (origins : List (String × Origin)) (who : Owner) :
    List Param → List Expr → List Stmt → Prop
  | nil : Binds origins who [] [] []
  | cons {q ps v vs ss y} :
      who.Names origins q.name y →
      Binds origins who ps vs ss →
      Binds origins who (q :: ps) (v :: vs) (.decl q.type y false (some v) :: ss)

mutual

/-- After some calls have been inlined, an expression of an owner becomes statements and an
expression without user calls, and all its variables are named as they are the owner's. A call
itself is inlined after its arguments; its parameters, body and result are those of a new owner. -/
inductive Expands (p : Program) (origins : List (String × Origin)) :
    (who : Owner) → Expr → (calls : Nat) → List Stmt → Expr → (calls' : Nat) → Prop
  | lit {who kind value n} : Expands p origins who (.lit kind value) n [] (.lit kind value) n
  | var {who x y n} :
      who.Names origins x y →
      Expands p origins who (.var x) n [] (.var y) n
  | unary {who op x x' pre n n'} :
      Expands p origins who x n pre x' n' →
      Expands p origins who (.unary op x) n pre (.unary op x') n'
  | binary {who op x y x' y' preX preY n m n'} :
      Expands p origins who x n preX x' m →
      Expands p origins who y m preY y' n' →
      Expands p origins who (.binary op x y) n (preX ++ preY) (.binary op x' y') n'
  | index {who x x' is is' preX preI n m n'} :
      Expands p origins who x n preX x' m →
      ExpandsAll p origins who is m preI is' n' →
      Expands p origins who (.index x is) n (preX ++ preI) (.index x' is') n'
  | prim {who fn args args' pre n n'} :
      p.func? fn = none →
      ExpandsAll p origins who args n pre args' n' →
      Expands p origins who (.call fn args) n pre (.call fn args') n'
  | user {who f fn args values e result pre params body post n m m' n'} :
      p.func? fn = some f →
      f.result = some e →
      ExpandsAll p origins who args n pre values m →
      Binds origins (.copy fn (m + 1)) f.params values params →
      ExpandsStmts p origins (.copy fn (m + 1)) (Stmt.flatten f.stmts) (m + 1) body m' →
      Expands p origins (.copy fn (m + 1)) e m' post result n' →
      Expands p origins who (.call fn args) n (pre ++ (params ++ body ++ post)) result n'

inductive ExpandsAll (p : Program) (origins : List (String × Origin)) :
    (who : Owner) → List Expr → (calls : Nat) → List Stmt → List Expr → (calls' : Nat) → Prop
  | nil {who n} : ExpandsAll p origins who [] n [] [] n
  | cons {who e e' es es' pre more n m n'} :
      Expands p origins who e n pre e' m →
      ExpandsAll p origins who es m more es' n' →
      ExpandsAll p origins who (e :: es) n (pre ++ more) (e' :: es') n'

inductive ExpandsStmt (p : Program) (origins : List (String × Origin)) :
    (who : Owner) → Stmt → (calls : Nat) → List Stmt → (calls' : Nat) → Prop
  | declare {who type x y data n} :
      who.Names origins x y →
      ExpandsStmt p origins who (.decl type x data none) n [.decl type y data none] n
  | define {who type x y data e e' pre n n'} :
      who.Names origins x y →
      Expands p origins who e n pre e' n' →
      ExpandsStmt p origins who (.decl type x data (some e)) n
        (pre ++ [.decl type y data (some e')]) n'
  | assign {who x y e e' pre n n'} :
      who.Names origins x y →
      Expands p origins who e n pre e' n' →
      ExpandsStmt p origins who (.assign x e) n (pre ++ [.assign y e']) n'
  | sample {who x y dist args args' pre n n'} :
      who.Names origins x y →
      ExpandsAll p origins who args n pre args' n' →
      ExpandsStmt p origins who (.sample x dist args) n (pre ++ [.sample y dist args']) n'

inductive ExpandsStmts (p : Program) (origins : List (String × Origin)) :
    (who : Owner) → List Stmt → (calls : Nat) → List Stmt → (calls' : Nat) → Prop
  | nil {who n} : ExpandsStmts p origins who [] n [] n
  | cons {who t ts out more n m n'} :
      ExpandsStmt p origins who t n out m →
      ExpandsStmts p origins who ts m more n' →
      ExpandsStmts p origins who (t :: ts) n (out ++ more) n'

end

variable {prims : Primitives} {p : Program} {g : CallGraph} {origins : List (String × Origin)}

theorem binds_inits {who : Owner} {r : String → String} {ps : List Param} {values : List Expr}
    (hlen : values.length = ps.length) (h : ∀ q ∈ ps, who.Names origins q.name (r q.name)) :
    Binds origins who ps values ((ps.zip values).map fun pv ↦
      .decl pv.1.type (r pv.1.name) false (some pv.2)) := by
  induction ps generalizing values with
  | nil =>
      cases List.length_eq_zero_iff.mp hlen
      exact .nil
  | cons q ps ih =>
      cases values with
      | nil => cases hlen
      | cons v values =>
          rw [List.forall_mem_cons] at h
          exact .cons h.1 (ih (Nat.succ.inj hlen) h.2)

theorem Enters.names {fn : String} {scope : List String} {r : String → String} {s s' : State}
    (h : Enters fn scope r s s') (horigins : ∀ o ∈ s'.origins, o ∈ origins) {x : String}
    (hx : x ∈ scope) : (Owner.copy fn (s.calls + 1)).Names origins x (r x) := by
  refine horigins _ ?_
  rw [h.origins]
  exact List.mem_append_right _ (List.mem_map.mpr ⟨x, hx, rfl⟩)

mutual

theorem Inlines.expands (hg : Sound prims p g) :
    ∀ {room : Nat} {r : String → String} {e e' : Expr} {pre : List Stmt} {s s' : State},
      Inlines g room r e s pre e' s' → ∀ {who : Owner}, (∀ o ∈ s'.origins, o ∈ origins) →
        (∀ x ∈ e.reads Deps.noUser, who.Names origins x (r x)) →
        Expands p origins who e s.calls pre e' s'.calls
  | _, _, _, _, _, _, _, .lit, _, _, _ => .lit
  | _, _, _, _, _, _, _, .var, _, _, hnames => .var (hnames _ (List.mem_singleton_self _))
  | _, _, _, _, _, _, _, .unary hx, _, horigins, hnames => .unary (hx.expands hg horigins hnames)
  | _, _, _, _, _, _, _, .binary hx hy, _, horigins, hnames => by
      obtain ⟨hnamesX, hnamesY⟩ := List.forall_mem_append.mp hnames
      exact .binary (hx.expands hg (fun o ho ↦ horigins o (hy.grows.origins o ho)) hnamesX)
        (hy.expands hg horigins hnamesY)
  | _, _, _, _, _, _, _, .index hx hi, _, horigins, hnames => by
      obtain ⟨hnamesX, hnamesI⟩ := List.forall_mem_append.mp hnames
      exact .index (hx.expands hg (fun o ho ↦ horigins o (hi.grows.origins o ho)) hnamesX)
        (hi.expands hg horigins hnamesI)
  | _, _, _, _, _, _, _, .prim hfn hargs, _, horigins, hnames =>
      .prim ((hg.func? _).trans hfn) (hargs.expands hg horigins hnames)
  | _, _, .call callee _, _, _, _, _, .user hfn hlen hresult hargs henters hbody hpost, _,
      horigins, hnames => by
      have hname := (Inlining.func?_name hfn).1
      have horigins₃ := fun o ho ↦ horigins o (hpost.grows.origins o ho)
      have horigins₂ := fun o ho ↦ horigins₃ o (hbody.grows.origins o ho)
      have horigins₁ := fun o ho ↦ horigins₂ o (henters.grows.origins o ho)
      have hscope {x : String} := henters.names (x := x) horigins₂
      have hexpandsBody := hbody.expands hg horigins₃ fun t ht x hx ↦
        hscope ((hg.bodies _ _ hfn).mem_of_mem_occurring ht hx)
      have hexpandsPost := hpost.expands hg horigins fun x hx ↦
        hscope ((hg.results _ _ hfn _ hresult).vars x hx)
      have hbinds := binds_inits (hargs.length_eq.trans hlen) fun q hq ↦
        hscope (List.mem_append_left _ (List.mem_map_of_mem hq))
      rw [hname] at hexpandsBody hexpandsPost hbinds
      rw [henters.calls] at hexpandsBody
      exact .user ((hg.func? _).trans hfn) hresult (hargs.expands hg horigins₁ hnames) hbinds
        hexpandsBody hexpandsPost

theorem InlinesAll.expands (hg : Sound prims p g) :
    ∀ {room : Nat} {r : String → String} {es es' : List Expr} {pre : List Stmt} {s s' : State},
      InlinesAll g room r es s pre es' s' → ∀ {who : Owner}, (∀ o ∈ s'.origins, o ∈ origins) →
        (∀ x ∈ Expr.readsAll Deps.noUser es, who.Names origins x (r x)) →
        ExpandsAll p origins who es s.calls pre es' s'.calls
  | _, _, _, _, _, _, _, .nil, _, _, _ => .nil
  | _, _, _, _, _, _, _, .cons he hes, _, horigins, hnames => by
      obtain ⟨hnamesE, hnamesEs⟩ := List.forall_mem_append.mp hnames
      exact .cons (he.expands hg (fun o ho ↦ horigins o (hes.grows.origins o ho)) hnamesE)
        (hes.expands hg horigins hnamesEs)

theorem InlinesStmt.expands (hg : Sound prims p g) :
    ∀ {room : Nat} {r : String → String} {t : Stmt} {out : List Stmt} {s s' : State},
      InlinesStmt g room r t s out s' → ∀ {who : Owner}, (∀ o ∈ s'.origins, o ∈ origins) →
        (∀ x ∈ t.occurring, who.Names origins x (r x)) →
        ExpandsStmt p origins who t s.calls out s'.calls
  | _, _, _, _, _, _, .declare, _, _, hnames => .declare (hnames _ (List.mem_cons_self ..))
  | _, _, _, _, _, _, .define he, _, horigins, hnames => by
      refine .define (hnames _ (List.mem_cons_self ..)) (he.expands hg horigins fun x hx ↦ ?_)
      exact hnames x (List.mem_cons_of_mem _ (by simpa [Expr.readsAll] using hx))
  | _, _, _, _, _, _, .assign he, _, horigins, hnames =>
      .assign (hnames _ (List.mem_cons_self ..))
        (he.expands hg horigins fun x hx ↦ hnames x (List.mem_cons_of_mem _ hx))
  | _, _, _, _, _, _, .sample hargs, _, horigins, hnames =>
      .sample (hnames _ (List.mem_cons_self ..))
        (hargs.expands hg horigins fun x hx ↦ hnames x (List.mem_cons_of_mem _ hx))

theorem InlinesStmts.expands (hg : Sound prims p g) :
    ∀ {room : Nat} {r : String → String} {ts out : List Stmt} {s s' : State},
      InlinesStmts g room r ts s out s' → ∀ {who : Owner}, (∀ o ∈ s'.origins, o ∈ origins) →
        (∀ t ∈ ts, ∀ x ∈ t.occurring, who.Names origins x (r x)) →
        ExpandsStmts p origins who ts s.calls out s'.calls
  | _, _, _, _, _, _, .nil, _, _, _ => .nil
  | _, _, _, _, _, _, .cons ht hts, _, horigins, hnames => by
      rw [List.forall_mem_cons] at hnames
      exact .cons (ht.expands hg (fun o ho ↦ horigins o (hts.grows.origins o ho)) hnames.1)
        (hts.expands hg horigins hnames.2)

end

/-! ### One name for each variable of each call -/

/-- No two fresh variables have one origin, and calls are counted. -/
structure State.Numbered (s : State) : Prop where
  nodup : (s.origins.map Prod.snd).Nodup
  le_calls : ∀ o ∈ s.origins, o.2.call ≤ s.calls

theorem Enters.numbered {fn : String} {scope : List String} {r : String → String} {s s' : State}
    (h : Enters fn scope r s s') (hs : s.Numbered) : s'.Numbered where
  nodup := by
    have hmap : s'.origins.map Prod.snd =
        s.origins.map Prod.snd ++ scope.map fun x ↦ ⟨fn, x, s.calls + 1⟩ := by
      rw [h.origins, List.map_append, List.map_map]
      rfl
    rw [hmap]
    refine hs.nodup.append (h.nodup.map fun x y hxy ↦ congrArg Origin.name hxy) fun o ho ho' ↦ ?_
    obtain ⟨o', hmem, rfl⟩ := List.mem_map.mp ho
    obtain ⟨x, -, heq⟩ := List.mem_map.mp ho'
    have hle := hs.le_calls o' hmem
    rw [← heq] at hle
    exact Nat.not_succ_le_self _ hle
  le_calls o ho := by
    rw [h.calls]
    rw [h.origins] at ho
    rcases List.mem_append.mp ho with ho | ho
    · exact (hs.le_calls o ho).trans (Nat.le_succ _)
    · obtain ⟨x, -, rfl⟩ := List.mem_map.mp ho
      exact le_rfl

theorem State.Numbered.follows : Follows fun s s' ↦ s.Numbered → s'.Numbered :=
  ⟨fun _ h ↦ h, fun h₁ h₂ h ↦ h₂ (h₁ h), Enters.numbered⟩

theorem start_numbered (sep : String) (p : Program) : (start sep p).Numbered :=
  ⟨List.nodup_nil, by simp [start]⟩

end Inlining

/-! ### Whole programs -/

namespace Elaborated

variable {prims : Primitives} {p : Program} {l : Limits} {e : Elaborated} {t : Typing}

/-- No variable of the elaborated program is mistaken for another one. -/
structure Hygienic (p : Program) (e : Elaborated) : Prop where
  nodup : (Stmt.declNames (Stmt.flatten e.stmts)).Nodup
  declared : ∀ y, y ∈ Stmt.declNames (Stmt.flatten e.stmts) ↔
    y ∈ Stmt.declNames (Stmt.flatten p.stmts) ∨ y ∈ e.origins.map Prod.fst
  keys : (e.origins.map Prod.fst).Nodup
  values : (e.origins.map Prod.snd).Nodup
  /-- Fresh names are new to the whole source. -/
  fresh : ∀ y ∈ e.origins.map Prod.fst, y ∉ p.occurring
  /-- Variables have the names of their origins, and those of the top level their own. -/
  expands : Inlining.ExpandsStmts p e.origins .top (Stmt.flatten p.stmts) 0 e.stmts e.calls

/-- What a successful elaboration has gone through, with the calls it has counted. -/
theorem exists_inlinesStmts_of_eq_ok (h : p.WellScoped prims) (hcomplete : p.complete = true)
    (hok : ofProgram l p = .ok e) : ∃ s, Inlining.InlinesStmts (CallGraph.ofProgram p) l.depth.toNat
      id (Stmt.flatten p.stmts) (Inlining.start l.sep p) e.stmts s ∧ s.origins = e.origins ∧
        s.calls = e.calls := by
  rw [ofProgram] at hok
  rcases (CallGraph.ofProgram p).checkDepth_unrolls l.depth with
    ⟨_, hdepth, hnest⟩ | ⟨-, d, hdepth, -⟩
  · obtain ⟨out, s, hstmts, hout⟩ := Inlining.inlines_program h hcomplete l hnest
    have hfree := Inlining.checkCallFree_eq_ok ((Inlining.elaborates h hout).callFree h)
    simp only [hdepth, hstmts, hfree, bind, Except.bind] at hok
    split at hok
    · cases hok
    · cases hok
      exact ⟨s, hout, rfl, rfl⟩
  · simp only [hdepth, bind, Except.bind] at hok
    cases hok

/-- The elaborated program declares no variable twice. It declares the variables of the source and
the fresh ones, which the source uses nowhere. In the copy for a call, every variable is the fresh
one of its function, its name and the number of the call; outside of copies it keeps its name. -/
theorem hygienic_of_ofProgram_eq_ok (hcomplete : p.complete = true) (hnames : p.NamedByWords)
    (ht : Typing.infer prims p [] = .ok t) (he : ofProgram l p = .ok e) : Hygienic p e := by
  have hscoped : p.WellScoped prims :=
    Typing.wellScoped_of_infer_eq_ok hcomplete hnames.keysVisible ht
  obtain ⟨s, hout, horigins, hcalls⟩ := exists_inlinesStmts_of_eq_ok hscoped hcomplete he
  have helaborates := Inlining.elaborates hscoped hout
  rw [horigins] at helaborates
  refine ⟨helaborates.wellScoped.stmts.nodup, fun y ↦ ?_, helaborates.origins_nodup, ?_,
    fun y hy hmem ↦ ?_, ?_⟩
  · rw [helaborates.flat]
    constructor
    · exact fun hy ↦ (helaborates.names y hy).imp_right List.mem_map.mpr
    · rintro (hy | hy)
      · exact helaborates.kept y hy
      · obtain ⟨o, ho, rfl⟩ := List.mem_map.mp hy
        exact (helaborates.traces o ho).declared
  · rw [← horigins]
    exact (hout.follows Inlining.State.Numbered.follows (Inlining.start_numbered l.sep p)).nodup
  · obtain ⟨o, ho, rfl⟩ := List.mem_map.mp hy
    rw [← horigins] at ho
    refine ((hout.grows.new o ho).resolve_left List.not_mem_nil) ?_
    rw [Inlining.start, NameSupply.taken_reserveAll]
    exact Or.inl (Program.mem_mentions_of_mem_occurring hmem)
  · rw [← horigins, ← hcalls]
    exact hout.expands hscoped.sound (fun _ ho ↦ ho) fun _ _ _ _ ↦ rfl

end Elaborated

namespace Program

/-- Two calls of one function, one in the argument of the other, beside a variable whose name looks
like a fresh one. -/
def layered : Program where
  funcs := [
    { name := "scaled"
      params := [⟨"real", "a"⟩]
      body := some [.decl "real" "b" false (some (.binary .mul (.var "a") (.lit .int "2")))]
      result := some (.var "b") }]
  stmts := [
    .decl "real" "a_1" false none,
    .decl "real" "z" false (some (.call "scaled" [.call "scaled" [.var "a_1"]]))]

end Program

namespace Elaborated

theorem hygienic_layered :
    ∃ e, ofProgram ⟨64, 100000, "_"⟩ Program.layered = .ok e ∧
      e.origins = [("a_2", ⟨"scaled", "a", 1⟩), ("b_3", ⟨"scaled", "b", 1⟩),
        ("a_4", ⟨"scaled", "a", 2⟩), ("b_5", ⟨"scaled", "b", 2⟩)] ∧
      Hygienic Program.layered e := by
  have hinfer : ((Typing.infer (.withExtra [] []) Program.layered []).toOption.any
      fun _ ↦ true) = true := by
    decide +kernel
  have hok : ((ofProgram ⟨64, 100000, "_"⟩ Program.layered).toOption.any fun e ↦
      decide (e.origins = [("a_2", ⟨"scaled", "a", 1⟩), ("b_3", ⟨"scaled", "b", 1⟩),
        ("a_4", ⟨"scaled", "a", 2⟩), ("b_5", ⟨"scaled", "b", 2⟩)])) = true := by
    cbv
  obtain ⟨t, ht, -⟩ := exists_ok_of_any hinfer
  obtain ⟨e, he, horigins⟩ := exists_ok_of_any hok
  exact ⟨e, he, of_decide_eq_true horigins,
    hygienic_of_ofProgram_eq_ok (by decide) (by decide) ht he⟩

end Elaborated

end Stratify
