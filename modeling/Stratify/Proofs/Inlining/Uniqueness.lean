import Mathlib.Data.Set.Function
import Stratify.Proofs.Inlining.Hygiene

/-!
# Inlining is unique up to fresh names

Two inlinings of the same statements are compared. They may start with different supplies of names,
and their functions may be listed in another order. Both enter the same functions in the same order,
so they record the same origins; and once the fresh names are matched by their origins, the one
result is the other one with its fresh names replaced.
-/

namespace Stratify

namespace Inlining

/-! ### The states of two inlinings -/

/-- A relation between the states of two inlinings that is kept when both enter a function. -/
def FollowsBoth (R : State → State → Prop) : Prop :=
  ∀ {fn scope r₁ r₂ s₁ s₁' s₂ s₂'}, R s₁ s₂ → Enters fn scope r₁ s₁ s₁' →
    Enters fn scope r₂ s₂ s₂' → R s₁' s₂'

variable {g g' : CallGraph} {R : State → State → Prop}

mutual

theorem Inlines.both (hfunc : ∀ fn, g'.func? fn = g.func? fn) (hR : FollowsBoth R) :
    ∀ {room room' : Nat} {r r' : String → String} {e e₁ e₂ : Expr} {pre₁ pre₂ : List Stmt}
      {s₁ s₁' s₂ s₂' : State}, Inlines g room r e s₁ pre₁ e₁ s₁' →
      Inlines g' room' r' e s₂ pre₂ e₂ s₂' → R s₁ s₂ → R s₁' s₂'
  | _, _, _, _, _, _, _, _, _, _, _, _, _, .lit, .lit, h => h
  | _, _, _, _, _, _, _, _, _, _, _, _, _, .var, .var, h => h
  | _, _, _, _, _, _, _, _, _, _, _, _, _, .unary hx, .unary hx', h => hx.both hfunc hR hx' h
  | _, _, _, _, _, _, _, _, _, _, _, _, _, .binary hx hy, .binary hx' hy', h =>
      hy.both hfunc hR hy' (hx.both hfunc hR hx' h)
  | _, _, _, _, _, _, _, _, _, _, _, _, _, .index hx hi, .index hx' hi', h =>
      hi.both hfunc hR hi' (hx.both hfunc hR hx' h)
  | _, _, _, _, _, _, _, _, _, _, _, _, _, .prim _ hargs, .prim _ hargs', h =>
      hargs.both hfunc hR hargs' h
  -- A name is that of a function in both graphs or in none.
  | _, _, _, _, _, _, _, _, _, _, _, _, _, .prim hfn _, .user hfn' .., _ => by
      rw [hfunc, hfn] at hfn'
      cases hfn'
  | _, _, _, _, _, _, _, _, _, _, _, _, _, .user hfn .., .prim hfn' _, _ => by
      rw [hfunc, hfn] at hfn'
      cases hfn'
  | _, _, _, _, _, _, _, _, _, _, _, _, _, .user hfn _ hresult hargs henters hbody hpost,
      .user hfn' _ hresult' hargs' henters' hbody' hpost', h => by
      rw [hfunc, hfn] at hfn'
      cases hfn'
      cases hresult.symm.trans hresult'
      have hentered := hR (hargs.both hfunc hR hargs' h) henters henters'
      exact hpost.both hfunc hR hpost' (hbody.both hfunc hR hbody' hentered)

theorem InlinesAll.both (hfunc : ∀ fn, g'.func? fn = g.func? fn) (hR : FollowsBoth R) :
    ∀ {room room' : Nat} {r r' : String → String} {es es₁ es₂ : List Expr} {pre₁ pre₂ : List Stmt}
      {s₁ s₁' s₂ s₂' : State}, InlinesAll g room r es s₁ pre₁ es₁ s₁' →
      InlinesAll g' room' r' es s₂ pre₂ es₂ s₂' → R s₁ s₂ → R s₁' s₂'
  | _, _, _, _, _, _, _, _, _, _, _, _, _, .nil, .nil, h => h
  | _, _, _, _, _, _, _, _, _, _, _, _, _, .cons he hes, .cons he' hes', h =>
      hes.both hfunc hR hes' (he.both hfunc hR he' h)

theorem InlinesStmt.both (hfunc : ∀ fn, g'.func? fn = g.func? fn) (hR : FollowsBoth R) :
    ∀ {room room' : Nat} {r r' : String → String} {t : Stmt} {out₁ out₂ : List Stmt}
      {s₁ s₁' s₂ s₂' : State}, InlinesStmt g room r t s₁ out₁ s₁' →
      InlinesStmt g' room' r' t s₂ out₂ s₂' → R s₁ s₂ → R s₁' s₂'
  | _, _, _, _, _, _, _, _, _, _, _, .declare, .declare, h => h
  | _, _, _, _, _, _, _, _, _, _, _, .define he, .define he', h => he.both hfunc hR he' h
  | _, _, _, _, _, _, _, _, _, _, _, .assign he, .assign he', h => he.both hfunc hR he' h
  | _, _, _, _, _, _, _, _, _, _, _, .sample ha, .sample ha', h => ha.both hfunc hR ha' h

theorem InlinesStmts.both (hfunc : ∀ fn, g'.func? fn = g.func? fn) (hR : FollowsBoth R) :
    ∀ {room room' : Nat} {r r' : String → String} {ts out₁ out₂ : List Stmt}
      {s₁ s₁' s₂ s₂' : State}, InlinesStmts g room r ts s₁ out₁ s₁' →
      InlinesStmts g' room' r' ts s₂ out₂ s₂' → R s₁ s₂ → R s₁' s₂'
  | _, _, _, _, _, _, _, _, _, _, _, .nil, .nil, h => h
  | _, _, _, _, _, _, _, _, _, _, _, .cons ht hts, .cons ht' hts', h =>
      hts.both hfunc hR hts' (ht.both hfunc hR ht' h)

end

/-! ### The results of two inlinings -/

namespace Owner

/-- A renaming of fresh names leaves the variables of the program alone. -/
def Keeps (π : String → String) : Owner → String → Prop
  | top, x => π x = x
  | copy .., _ => True

end Owner

/-- Two programs have the same functions, and of two lists of origins one is the other with its
names replaced. -/
structure Corresponds (π : String → String) (p q : Program)
    (origins origins' : List (String × Origin)) : Prop where
  func? : ∀ fn, q.func? fn = p.func? fn
  origins_eq : origins' = origins.map fun e ↦ (π e.1, e.2)
  nodup : (origins.map Prod.snd).Nodup

variable {π : String → String} {p q : Program} {origins origins' : List (String × Origin)}

theorem Corresponds.name_eq (h : Corresponds π p q origins origins') {who : Owner} {x y y' : String}
    (hkeeps : who.Keeps π x) (hy : who.Names origins x y) (hy' : who.Names origins' x y') :
    y' = π y := by
  cases who with
  | top =>
      obtain rfl : y = x := hy
      obtain rfl : y' = y := hy'
      exact hkeeps.symm
  | copy fn call =>
      replace hy' : (y', ⟨fn, x, call⟩) ∈ origins' := hy'
      rw [h.origins_eq] at hy'
      obtain ⟨e, he, heq⟩ := List.mem_map.mp hy'
      have hsnd : e.2 = ⟨fn, x, call⟩ := congrArg Prod.snd heq
      obtain rfl : e = (y, ⟨fn, x, call⟩) := List.inj_on_of_nodup_map h.nodup he hy hsnd
      exact (congrArg Prod.fst heq).symm

theorem Corresponds.binds (h : Corresponds π p q origins origins') {fn : String} {call : Nat}
    {ps : List Param} {vs : List Expr} {out out' : List Stmt}
    (hbinds : Binds origins (.copy fn call) ps vs out)
    (hbinds' : Binds origins' (.copy fn call) ps (Expr.renameAll π vs) out') :
    List.Forall₂ (Stmt.RenamesTo π) out out' := by
  induction hbinds generalizing out' with
  | nil =>
      cases hbinds'
      exact .nil
  | cons hname _ ih =>
      cases hbinds' with
      | cons hname' hrest =>
          have hkeeps (x : String) : (Owner.copy fn call).Keeps π x := trivial
          rw [h.name_eq (hkeeps _) hname hname']
          exact .cons rfl (ih hrest)

mutual

theorem Expands.renamed (hπ : Corresponds π p q origins origins') :
    ∀ {who : Owner} {e e₁ e₂ : Expr} {pre₁ pre₂ : List Stmt} {n n₁ n₂ : Nat},
      Expands p origins who e n pre₁ e₁ n₁ → Expands q origins' who e n pre₂ e₂ n₂ →
      (∀ x ∈ e.reads Deps.noUser, who.Keeps π x) →
        n₁ = n₂ ∧ e₂ = e₁.rename π ∧ List.Forall₂ (Stmt.RenamesTo π) pre₁ pre₂
  | _, _, _, _, _, _, _, _, _, .lit, .lit, _ => ⟨rfl, rfl, .nil⟩
  | _, _, _, _, _, _, _, _, _, .var hname, .var hname', hkeeps => by
      rw [hπ.name_eq (hkeeps _ (List.mem_singleton_self _)) hname hname']
      exact ⟨rfl, rfl, .nil⟩
  | _, _, _, _, _, _, _, _, _, .unary hx, .unary hx', hkeeps => by
      obtain ⟨rfl, rfl, hpre⟩ := hx.renamed hπ hx' hkeeps
      exact ⟨rfl, rfl, hpre⟩
  | _, _, _, _, _, _, _, _, _, .binary hx hy, .binary hx' hy', hkeeps => by
      obtain ⟨hkeepsX, hkeepsY⟩ := List.forall_mem_append.mp hkeeps
      obtain ⟨rfl, rfl, hpreX⟩ := hx.renamed hπ hx' hkeepsX
      obtain ⟨rfl, rfl, hpreY⟩ := hy.renamed hπ hy' hkeepsY
      exact ⟨rfl, rfl, List.rel_append hpreX hpreY⟩
  | _, _, _, _, _, _, _, _, _, .index hx hi, .index hx' hi', hkeeps => by
      obtain ⟨hkeepsX, hkeepsI⟩ := List.forall_mem_append.mp hkeeps
      obtain ⟨rfl, rfl, hpreX⟩ := hx.renamed hπ hx' hkeepsX
      obtain ⟨rfl, rfl, hpreI⟩ := hi.renamed hπ hi' hkeepsI
      exact ⟨rfl, rfl, List.rel_append hpreX hpreI⟩
  | _, _, _, _, _, _, _, _, _, .prim _ hargs, .prim _ hargs', hkeeps => by
      obtain ⟨rfl, rfl, hpre⟩ := hargs.renamed hπ hargs' hkeeps
      exact ⟨rfl, rfl, hpre⟩
  | _, _, _, _, _, _, _, _, _, .prim hfn _, .user hfn' .., _ => by
      rw [hπ.func?, hfn] at hfn'
      cases hfn'
  | _, _, _, _, _, _, _, _, _, .user hfn .., .prim hfn' _, _ => by
      rw [hπ.func?, hfn] at hfn'
      cases hfn'
  | _, _, _, _, _, _, _, _, _, .user hfn hresult hargs hbinds hbody hpost,
      .user hfn' hresult' hargs' hbinds' hbody' hpost', hkeeps => by
      rw [hπ.func?, hfn] at hfn'
      cases hfn'
      cases hresult.symm.trans hresult'
      obtain ⟨rfl, rfl, hpre⟩ := hargs.renamed hπ hargs' hkeeps
      -- In a copy every variable is fresh, so there is nothing to keep.
      obtain ⟨rfl, hout⟩ := hbody.renamed hπ hbody' fun _ _ _ _ ↦ trivial
      obtain ⟨rfl, rfl, hpost⟩ := hpost.renamed hπ hpost' fun _ _ ↦ trivial
      refine ⟨rfl, rfl, List.rel_append hpre (List.rel_append (List.rel_append ?_ hout) hpost)⟩
      exact hπ.binds hbinds hbinds'

theorem ExpandsAll.renamed (hπ : Corresponds π p q origins origins') :
    ∀ {who : Owner} {es es₁ es₂ : List Expr} {pre₁ pre₂ : List Stmt} {n n₁ n₂ : Nat},
      ExpandsAll p origins who es n pre₁ es₁ n₁ → ExpandsAll q origins' who es n pre₂ es₂ n₂ →
      (∀ x ∈ Expr.readsAll Deps.noUser es, who.Keeps π x) →
        n₁ = n₂ ∧ es₂ = Expr.renameAll π es₁ ∧ List.Forall₂ (Stmt.RenamesTo π) pre₁ pre₂
  | _, _, _, _, _, _, _, _, _, .nil, .nil, _ => ⟨rfl, rfl, .nil⟩
  | _, _, _, _, _, _, _, _, _, .cons he hes, .cons he' hes', hkeeps => by
      obtain ⟨hkeepsE, hkeepsEs⟩ := List.forall_mem_append.mp hkeeps
      obtain ⟨rfl, rfl, hpre⟩ := he.renamed hπ he' hkeepsE
      obtain ⟨rfl, rfl, hmore⟩ := hes.renamed hπ hes' hkeepsEs
      exact ⟨rfl, rfl, List.rel_append hpre hmore⟩

theorem ExpandsStmt.renamed (hπ : Corresponds π p q origins origins') :
    ∀ {who : Owner} {t : Stmt} {out₁ out₂ : List Stmt} {n n₁ n₂ : Nat},
      ExpandsStmt p origins who t n out₁ n₁ → ExpandsStmt q origins' who t n out₂ n₂ →
      (∀ x ∈ t.occurring, who.Keeps π x) →
        n₁ = n₂ ∧ List.Forall₂ (Stmt.RenamesTo π) out₁ out₂
  | _, _, _, _, _, _, _, .declare hname, .declare hname', hkeeps => by
      rw [hπ.name_eq (hkeeps _ (List.mem_cons_self ..)) hname hname']
      exact ⟨rfl, .cons rfl .nil⟩
  | _, _, _, _, _, _, _, .define hname he, .define hname' he', hkeeps => by
      rw [hπ.name_eq (hkeeps _ (List.mem_cons_self ..)) hname hname']
      obtain ⟨rfl, rfl, hpre⟩ := he.renamed hπ he' fun x hx ↦
        hkeeps x (List.mem_cons_of_mem _ (by simpa [Expr.readsAll] using hx))
      exact ⟨rfl, List.rel_append hpre (.cons rfl .nil)⟩
  | _, _, _, _, _, _, _, .assign hname he, .assign hname' he', hkeeps => by
      rw [hπ.name_eq (hkeeps _ (List.mem_cons_self ..)) hname hname']
      obtain ⟨rfl, rfl, hpre⟩ := he.renamed hπ he' fun x hx ↦ hkeeps x (List.mem_cons_of_mem _ hx)
      exact ⟨rfl, List.rel_append hpre (.cons rfl .nil)⟩
  | _, _, _, _, _, _, _, .sample hname hargs, .sample hname' hargs', hkeeps => by
      rw [hπ.name_eq (hkeeps _ (List.mem_cons_self ..)) hname hname']
      obtain ⟨rfl, rfl, hpre⟩ := hargs.renamed hπ hargs' fun x hx ↦
        hkeeps x (List.mem_cons_of_mem _ hx)
      exact ⟨rfl, List.rel_append hpre (.cons rfl .nil)⟩

theorem ExpandsStmts.renamed (hπ : Corresponds π p q origins origins') :
    ∀ {who : Owner} {ts out₁ out₂ : List Stmt} {n n₁ n₂ : Nat},
      ExpandsStmts p origins who ts n out₁ n₁ → ExpandsStmts q origins' who ts n out₂ n₂ →
      (∀ t ∈ ts, ∀ x ∈ t.occurring, who.Keeps π x) →
        n₁ = n₂ ∧ List.Forall₂ (Stmt.RenamesTo π) out₁ out₂
  | _, _, _, _, _, _, _, .nil, .nil, _ => ⟨rfl, .nil⟩
  | _, _, _, _, _, _, _, .cons ht hts, .cons ht' hts', hkeeps => by
      rw [List.forall_mem_cons] at hkeeps
      obtain ⟨rfl, hout⟩ := ht.renamed hπ ht' hkeeps.1
      obtain ⟨rfl, hmore⟩ := hts.renamed hπ hts' hkeeps.2
      exact ⟨rfl, List.rel_append hout hmore⟩

end

/-! ### Origins and names -/

/-- As many calls have been counted, and the same origins recorded, under any names. -/
structure State.SameOrigins (s s' : State) : Prop where
  calls : s'.calls = s.calls
  origins : s'.origins.map Prod.snd = s.origins.map Prod.snd

theorem State.followsBoth_sameOrigins : FollowsBoth State.SameOrigins := by
  intro fn scope r₁ r₂ s₁ s₁' s₂ s₂' h h₁ h₂
  refine ⟨by rw [h₁.calls, h₂.calls, h.calls], ?_⟩
  rw [h₁.origins, h₂.origins, List.map_append, List.map_append, h.origins, h.calls, List.map_map,
    List.map_map]
  rfl

end Inlining

namespace NameSupply

variable {s s' : NameSupply}

/-- Two supplies give the same names: only the order of the taken ones may differ. -/
structure Alike (s s' : NameSupply) : Prop where
  sep : s'.sep = s.sep
  next : s'.next = s.next
  taken : s'.taken.Perm s.taken

theorem Alike.candidate (h : s.Alike s') (root : String) (n : Nat) :
    s'.candidate root n = s.candidate root n := by
  rw [NameSupply.candidate, NameSupply.candidate, h.sep]

theorem Alike.search (h : s.Alike s') (root : String) (fuel n : Nat) :
    s'.search root fuel n = s.search root fuel n := by
  induction fuel generalizing n with
  | zero => rfl
  | succ fuel ih =>
      have htaken : s'.isTaken (s.candidate root n) = s.isTaken (s.candidate root n) := by
        rw [isTaken, isTaken, Bool.eq_iff_iff, List.contains_iff_mem, List.contains_iff_mem,
          h.taken.mem_iff]
      rw [NameSupply.search, NameSupply.search, h.candidate, htaken, ih]

theorem Alike.fresh (h : s.Alike s') (root : String) :
    (s'.fresh root).1 = (s.fresh root).1 ∧ (s.fresh root).2.Alike (s'.fresh root).2 := by
  have hnumber : s'.number root = s.number root := by
    rw [number, number, h.search, h.taken.length_eq, h.next]
  have hname : (s'.fresh root).1 = (s.fresh root).1 := by
    simp only [NameSupply.fresh, hnumber, h.candidate]
  refine ⟨hname, h.sep, congrArg (· + 1) hnumber, ?_⟩
  rw [taken_fresh, taken_fresh, hname]
  exact h.taken.cons _

theorem Alike.freshAll (h : s.Alike s') (roots : List String) :
    (s'.freshAll roots).1 = (s.freshAll roots).1 ∧
      (s.freshAll roots).2.Alike (s'.freshAll roots).2 := by
  induction roots generalizing s s' with
  | nil => exact ⟨rfl, h⟩
  | cons root roots ih =>
      obtain ⟨hname, hrest⟩ := h.fresh root
      obtain ⟨hnames, hlast⟩ := ih hrest
      exact ⟨congrArg₂ List.cons hname hnames, hlast⟩

theorem nodup_reserveAll (names : List String) (h : s.taken.Nodup) :
    (s.reserveAll names).taken.Nodup := by
  induction names generalizing s with
  | nil => exact h
  | cons name names ih => exact ih (s := s.reserve name) h.insert

theorem alike_reserveAll (sep : String) {names names' : List String} (h : names'.Perm names) :
    ((new sep).reserveAll names).Alike ((new sep).reserveAll names') := by
  have hrest (names : List String) (s : NameSupply) :
      (s.reserveAll names).sep = s.sep ∧ (s.reserveAll names).next = s.next := by
    induction names generalizing s with
    | nil => exact ⟨rfl, rfl⟩
    | cons name names ih => exact ih (s.reserve name)
  refine ⟨(hrest names' _).1.trans (hrest names _).1.symm,
    (hrest names' _).2.trans (hrest names _).2.symm, ?_⟩
  refine (List.perm_ext_iff_of_nodup (nodup_reserveAll _ List.nodup_nil)
    (nodup_reserveAll _ List.nodup_nil)).mpr fun x ↦ ?_
  rw [taken_reserveAll, taken_reserveAll, h.mem_iff]

end NameSupply

namespace Inlining

variable {origins origins' : List (String × Origin)}

/-- The same fresh variables have been recorded, and the same names come next. -/
structure State.Alike (s s' : State) : Prop where
  calls : s'.calls = s.calls
  origins : s'.origins = s.origins
  names : s.names.Alike s'.names

theorem State.followsBoth_alike : FollowsBoth State.Alike := by
  intro fn scope r₁ r₂ s₁ s₁' s₂ s₂' h h₁ h₂
  obtain ⟨hnames, hsupply⟩ := h.names.freshAll scope
  rw [h₁.drawn, h₂.drawn] at hnames hsupply
  refine ⟨by rw [h₁.calls, h₂.calls, h.calls], ?_, hsupply⟩
  rw [h₁.origins, h₂.origins, h.origins, h.calls]
  refine congrArg (s₁.origins ++ ·) (List.map_congr_left fun x hx ↦ ?_)
  rw [List.map_inj_left.mp hnames x hx]

theorem alike_start (sep : String) {p q : Program} (h : q.mentions.Perm p.mentions) :
    (start sep p).Alike (start sep q) :=
  ⟨rfl, rfl, NameSupply.alike_reserveAll sep h⟩

/-! ### Matching the fresh names -/

/-- The renaming that takes the names of some origins to those of others, one by one. -/
def matching (origins origins' : List (String × Origin)) : String → String :=
  Renaming.apply ((origins.map Prod.fst).zip (origins'.map Prod.fst)).reverse

theorem matching_of_notMem {x : String} (h : x ∉ origins.map Prod.fst) :
    matching origins origins' x = x := by
  have hnone : (((origins.map Prod.fst).zip (origins'.map Prod.fst)).reverse.find? fun e ↦
      decide (e.1 = x)) = none := by
    refine List.find?_eq_none.mpr fun e he heq ↦ h ?_
    obtain rfl : e.1 = x := of_decide_eq_true heq
    exact (List.of_mem_zip (List.mem_reverse.mp he)).1
  rw [matching, Renaming.apply, hnone]
  rfl

theorem map_matching (hnodup : (origins.map Prod.fst).Nodup)
    (hlength : origins'.length = origins.length) :
    (origins.map Prod.fst).map (matching origins origins') = origins'.map Prod.fst :=
  map_apply_zip hnodup (by simpa using hlength)

theorem eq_map_matching (hnodup : (origins.map Prod.fst).Nodup)
    (hsnd : origins'.map Prod.snd = origins.map Prod.snd) :
    origins' = origins.map fun e ↦ (matching origins origins' e.1, e.2) := by
  have hlength : origins'.length = origins.length := by
    simpa using congrArg List.length hsnd
  have hfst := map_matching hnodup hlength
  rw [List.map_map] at hfst
  have hmapped : (origins.map fun e ↦ (matching origins origins' e.1, e.2)) =
      (origins'.map Prod.fst).zip (origins'.map Prod.snd) := by
    refine List.zip_of_prod ?_ ?_
    · rw [List.map_map, ← hfst]
      rfl
    · rw [List.map_map, hsnd]
      rfl
  rw [hmapped]
  exact List.zip_of_prod rfl rfl

theorem bijOn_matching (hnodup : (origins.map Prod.fst).Nodup)
    (hnodup' : (origins'.map Prod.fst).Nodup) (hlength : origins'.length = origins.length) :
    Set.BijOn (matching origins origins') {y | y ∈ origins.map Prod.fst}
      {y | y ∈ origins'.map Prod.fst} := by
  have hmap := map_matching hnodup hlength
  refine ⟨fun y hy ↦ ?_, fun y hy z hz hyz ↦ ?_, fun y hy ↦ ?_⟩
  · exact hmap ▸ List.mem_map_of_mem hy
  · rw [← hmap] at hnodup'
    exact List.inj_on_of_nodup_map hnodup' hy hz hyz
  · replace hy : y ∈ origins'.map Prod.fst := hy
    rw [← hmap] at hy
    obtain ⟨x, hx, rfl⟩ := List.mem_map.mp hy
    exact ⟨x, hx, rfl⟩

end Inlining

/-! ### Whole programs -/

namespace Elaborated

variable {prims : Primitives} {p q : Program} {l l' : Limits} {e e' : Elaborated}

/-- One elaborated program is another one with its fresh names replaced. -/
structure RenamedBy (π : String → String) (e e' : Elaborated) : Prop where
  bijOn : Set.BijOn π {y | y ∈ e.origins.map Prod.fst} {y | y ∈ e'.origins.map Prod.fst}
  other : ∀ x, x ∉ e.origins.map Prod.fst → π x = x
  origins : e'.origins = e.origins.map fun o ↦ (π o.1, o.2)
  calls : e'.calls = e.calls
  stmts : Stmt.renameAll π e.stmts = .ok e'.stmts

/-- What matters of an elaboration for a comparison with another one. -/
structure Recorded (prims : Primitives) (p : Program) (e : Elaborated) : Prop where
  elaborates : Inlining.Elaborates prims p e.stmts e.origins
  values : (e.origins.map Prod.snd).Nodup
  expands : Inlining.ExpandsStmts p e.origins .top (Stmt.flatten p.stmts) 0 e.stmts e.calls

theorem recorded_of_inlines (h : p.WellScoped prims) {s : Inlining.State}
    (hout : Inlining.InlinesStmts (CallGraph.ofProgram p) l.depth.toNat id (Stmt.flatten p.stmts)
      (Inlining.start l.sep p) e.stmts s) (horigins : s.origins = e.origins)
    (hcalls : s.calls = e.calls) : Recorded prims p e := by
  have helaborates := Inlining.elaborates h hout
  have hnumbered := hout.follows Inlining.State.Numbered.follows (Inlining.start_numbered l.sep p)
  refine ⟨horigins ▸ helaborates, horigins ▸ hnumbered.nodup, ?_⟩
  rw [← horigins, ← hcalls]
  exact hout.expands h.sound (fun _ ho ↦ ho) fun _ _ _ _ ↦ rfl

/-- Two elaborations of one program differ in the fresh names at most, whatever their limits and
separators are. -/
theorem exists_renamedBy (h : p.WellScoped prims) (hcomplete : p.complete = true)
    (he : ofProgram l p = .ok e) (he' : ofProgram l' p = .ok e') : ∃ π, RenamedBy π e e' := by
  obtain ⟨s, hout, horigins, hcalls⟩ := exists_inlinesStmts_of_eq_ok h hcomplete he
  obtain ⟨s', hout', horigins', hcalls'⟩ := exists_inlinesStmts_of_eq_ok h hcomplete he'
  have hsame := hout.both (fun _ ↦ rfl) Inlining.State.followsBoth_sameOrigins hout' ⟨rfl, rfl⟩
  have hrecorded := recorded_of_inlines h hout horigins hcalls
  have hrecorded' := recorded_of_inlines h hout' horigins' hcalls'
  have hsnd : e'.origins.map Prod.snd = e.origins.map Prod.snd :=
    horigins ▸ horigins' ▸ hsame.origins
  have hnodup := hrecorded.elaborates.origins_nodup
  have hcorresponds : Inlining.Corresponds (Inlining.matching e.origins e'.origins) p p e.origins
      e'.origins :=
    ⟨fun _ ↦ rfl, Inlining.eq_map_matching hnodup hsnd, hrecorded.values⟩
  have hkeeps : ∀ t ∈ Stmt.flatten p.stmts, ∀ x ∈ t.occurring,
      Inlining.Owner.top.Keeps (Inlining.matching e.origins e'.origins) x := by
    intro t ht x hx
    have hdecl := (Stmt.scopedIn_iff.mp h.stmts).2.mem_of_mem_occurring ht hx
    refine Inlining.matching_of_notMem fun hmem ↦ ?_
    obtain ⟨o, ho, hox⟩ := List.mem_map.mp hmem
    exact hrecorded.elaborates.not_origin x (by simpa using hdecl) o ho hox
  obtain ⟨hcount, hstmts⟩ := hrecorded.expands.renamed hcorresponds hrecorded'.expands hkeeps
  refine ⟨_, Inlining.bijOn_matching hnodup hrecorded'.elaborates.origins_nodup ?_,
    fun x hx ↦ Inlining.matching_of_notMem hx, hcorresponds.origins_eq, hcount.symm,
    Stmt.renameAll_eq_ok_iff.mpr hstmts⟩
  simpa using congrArg List.length hsnd

/-- Elaboration depends on the functions of a program, but not on their order. -/
theorem eq_of_sameFuncs (h : p.WellScoped prims) (hcomplete : p.complete = true)
    (h' : q.WellScoped prims) (hcomplete' : q.complete = true) (hstmts : q.stmts = p.stmts)
    (hfunc : ∀ fn, q.func? fn = p.func? fn) (hmentions : q.mentions.Perm p.mentions)
    (he : ofProgram l p = .ok e) (he' : ofProgram l q = .ok e') : e' = e := by
  obtain ⟨s, hout, horigins, hcalls⟩ := exists_inlinesStmts_of_eq_ok h hcomplete he
  obtain ⟨s', hout', horigins', hcalls'⟩ := exists_inlinesStmts_of_eq_ok h' hcomplete' he'
  have hrecorded := recorded_of_inlines h hout horigins hcalls
  have hrecorded' := recorded_of_inlines h' hout' horigins' hcalls'
  have hexpands := hrecorded'.expands
  rw [hstmts] at hout' hexpands
  have hgraph (fn : String) :
      (CallGraph.ofProgram q).func? fn = (CallGraph.ofProgram p).func? fn := by
    rw [← h.func?_eq, ← h'.func?_eq, hfunc]
  have halike := hout.both hgraph Inlining.State.followsBoth_alike hout'
    (Inlining.alike_start l.sep hmentions)
  have horigin : e'.origins = e.origins := horigins ▸ horigins' ▸ halike.origins
  have hcorresponds : Inlining.Corresponds id p q e.origins e'.origins :=
    ⟨hfunc, by rw [horigin]; exact (List.map_id _).symm, hrecorded.values⟩
  obtain ⟨hcount, hrenamed⟩ := hrecorded.expands.renamed hcorresponds hexpands
    fun _ _ _ _ ↦ rfl
  have hstmts' : e'.stmts = e.stmts := Stmt.eq_of_renamesTo_id hrenamed
  cases e
  cases e'
  cases hstmts'
  cases horigin
  cases hcount
  rfl

end Elaborated

end Stratify
