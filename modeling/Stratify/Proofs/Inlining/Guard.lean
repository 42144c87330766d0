import Stratify.Proofs.Inlining.Unrolling

/-!
# The depth check makes the guard of inlining superfluous

While a call is inlined, the functions whose copies are being made form a chain, and a guard stops
inlining if this chain grows longer than the limit. Here calls are resolved without the guard, by
rules that say nothing about a limit: a call has a result only if the calls of all copies come to an
end by themselves. If the depth check has passed, then every call has such a result, on the way to
it no chain is longer than the limit, and it is the result that inlining with the guard returns.
-/

namespace Stratify

namespace Inlining

/-! ### Calls without a guard -/

/-- What becomes of a call under a chain of others if nothing limits their number. To copy a
function, the functions that it calls have to be resolved, whatever their arguments, under a chain
that is longer by one; `Allowed` holds of all chains that come up. -/
inductive Resolves (g : CallGraph) (Allowed : List String → Prop) :
    List String → Func → Expr → List Expr → State →
      Except Diagnostic (List Stmt × Expr × State) → Prop
  | mismatch {chain f call args s} : args.length ≠ f.params.length →
      Resolves g Allowed chain f call args s
        (.error ⟨.arityMismatch f.name f.params.length args.length, some (.expr call)⟩)
  | copy {chain f call args s} (handle : CallHandler) : args.length = f.params.length →
      Allowed (chain ++ [f.name]) →
      (∀ c ∈ f.calls, ∀ f', g.func? c.fn = some f' → ∀ call' args' s',
        Resolves g Allowed (chain ++ [f.name]) f' call' args' s' (handle f' call' args' s')) →
      Resolves g Allowed chain f call args s (copy g handle f args s)

/-- What becomes of statements if all calls in them are resolved. -/
def ResolvesStmts (g : CallGraph) (Allowed : List String → Prop) (ts : List Stmt) (s : State)
    (r : Except Diagnostic (List Stmt × State)) : Prop :=
  ∃ handle : CallHandler,
    (∀ c ∈ Stmt.callsAll ts, ∀ f, g.func? c.fn = some f → ∀ call args s,
      Resolves g Allowed [] f call args s (handle f call args s)) ∧
    r = stmts g handle ts s

/-! ### Only the functions that are called matter -/

/-- Two computations end alike, and not because calls are nested too deeply. -/
def Alike {α : Type} (r r' : Except Diagnostic α) : Prop :=
  r = r' ∧ Yields (fun d ↦ ∀ chain limit, d.issue ≠ .nestedTooDeep chain limit) (fun _ ↦ True) r

namespace Alike

variable {α β : Type} {r r' : Except Diagnostic α}

theorem ok (a : α) : Alike (.ok a) (.ok a) :=
  ⟨rfl, trivial⟩

theorem error {d : Diagnostic} (h : ∀ chain limit, d.issue ≠ .nestedTooDeep chain limit) :
    Alike (α := α) (.error d) (.error d) :=
  ⟨rfl, h⟩

theorem bind {f f' : α → Except Diagnostic β} (h : Alike r r') (hf : ∀ a, Alike (f a) (f' a)) :
    Alike (r >>= f) (r' >>= f') := by
  obtain ⟨rfl, hr⟩ := h
  refine ⟨?_, hr.bind fun a _ ↦ (hf a).2⟩
  rw [funext fun a ↦ (hf a).1]

end Alike

variable {g : CallGraph} {handle handle' : CallHandler}

/-- Two handlers do alike with calls to some names. -/
def AlikeOn (g : CallGraph) (fns : List String) (handle handle' : CallHandler) : Prop :=
  ∀ fn ∈ fns, ∀ f, g.func? fn = some f → ∀ call args s,
    Alike (handle f call args s) (handle' f call args s)

theorem alikeOn_append {fns fns' : List String} :
    AlikeOn g (fns ++ fns') handle handle' ↔
      AlikeOn g fns handle handle' ∧ AlikeOn g fns' handle handle' :=
  List.forall_mem_append

theorem alikeOn_map {cs : List Call} (h : ∀ c ∈ cs, ∀ f, g.func? c.fn = some f →
    ∀ call args s, Alike (handle f call args s) (handle' f call args s)) :
    AlikeOn g (cs.map Call.fn) handle handle' :=
  List.forall_mem_map.mpr h

mutual

theorem alike_expr : ∀ (e : Expr) (s : State), AlikeOn g (e.calls.map Call.fn) handle handle' →
    Alike (expr g handle e s) (expr g handle' e s)
  | .hole, s, _ => .ok _
  | .lit .., s, _ => .ok _
  | .var _, s, _ => .ok _
  | .unary _ x, s, h => (alike_expr x s h).bind fun _ ↦ .ok _
  | .binary _ x y, s, h => by
      rw [Expr.calls, List.map_append, alikeOn_append] at h
      exact (alike_expr x s h.1).bind fun out ↦ (alike_expr y out.2.2 h.2).bind fun _ ↦ .ok _
  | .index x is, s, h => by
      rw [Expr.calls, List.map_append, alikeOn_append] at h
      exact (alike_expr x s h.1).bind fun out ↦ (alike_exprs is out.2.2 h.2).bind fun _ ↦ .ok _
  | .call fn args, s, h => by
      rw [Expr.calls, List.map_append, alikeOn_append] at h
      refine (alike_exprs args s h.1).bind fun out ↦ ?_
      dsimp only
      split
      · exact .ok _
      · next f hf =>
          exact (h.2 fn (List.mem_singleton_self fn) f hf _ out.2.1 out.2.2).bind fun _ ↦ .ok _

theorem alike_exprs : ∀ (es : List Expr) (s : State),
    AlikeOn g ((Expr.callsAll es).map Call.fn) handle handle' →
      Alike (exprs g handle es s) (exprs g handle' es s)
  | [], s, _ => .ok _
  | e :: es, s, h => by
      rw [Expr.callsAll, List.map_append, alikeOn_append] at h
      exact (alike_expr e s h.1).bind fun out ↦ (alike_exprs es out.2.2 h.2).bind fun _ ↦ .ok _

end

mutual

theorem alike_stmt : ∀ (t : Stmt) (s : State), AlikeOn g (t.calls.map Call.fn) handle handle' →
    Alike (stmt g handle t s) (stmt g handle' t s)
  | .hole, s, _ => .error nofun
  | .decl _ _ _ init, s, h => by
      rw [Stmt.calls, ← Expr.calls_ofInit] at h
      exact (alike_expr (.ofInit init) s h).bind fun _ ↦ .ok _
  | .assign _ value, s, h => (alike_expr value s h).bind fun _ ↦ .ok _
  | .sample _ _ args, s, h => (alike_exprs args s h).bind fun _ ↦ .ok _
  | .block list, s, h => alike_stmts list s h
  | .func .., s, _ => .error nofun

theorem alike_stmts : ∀ (ts : List Stmt) (s : State),
    AlikeOn g ((Stmt.callsAll ts).map Call.fn) handle handle' →
      Alike (stmts g handle ts s) (stmts g handle' ts s)
  | [], s, _ => .ok _
  | t :: ts, s, h => by
      rw [Stmt.callsAll, List.map_append, alikeOn_append] at h
      exact (alike_stmt t s h.1).bind fun out ↦ (alike_stmts ts out.2 h.2).bind fun _ ↦ .ok _

end

/-- Renaming changes variables only, so the functions that are called stay the same. -/
theorem alike_renamedStmts (r : String → String) {ts : List Stmt}
    (h : AlikeOn g ((Stmt.callsAll ts).map Call.fn) handle handle') (s : State) :
    Alike (renamedStmts g handle r ts s) (renamedStmts g handle' r ts s) := by
  induction ts generalizing s with
  | nil => exact .ok _
  | cons t ts ih =>
      rw [Stmt.callsAll, List.map_append, alikeOn_append] at h
      unfold renamedStmts
      split
      · exact .error nofun
      · next t' ht' =>
          have hcalls := (Stmt.spans_calls r).of_renamesTo ht'
          refine (alike_stmt t' s (hcalls ▸ h.1)).bind fun out ↦ ?_
          exact (ih h.2 out.2).bind fun _ ↦ .ok _

theorem alike_copy {f : Func} (h : AlikeOn g (f.calls.map Call.fn) handle handle')
    (args : List Expr) (s : State) : Alike (copy g handle f args s) (copy g handle' f args s) := by
  rw [Func.calls_eq, List.map_append, alikeOn_append, ← Stmt.callsAll_flatten,
    ← Expr.calls_ofInit] at h
  refine (alike_renamedStmts _ h.1 _).bind fun out ↦ ?_
  refine (alike_expr _ out.2 ?_).bind fun _ ↦ .ok _
  rw [Expr.calls_rename]
  exact h.2

/-! ### Results -/

variable {Allowed Allowed' : List String → Prop} {chain : List String} {f : Func} {call : Expr}
  {args : List Expr} {s : State}

/-- There is one result only, and it does not depend on which chains are allowed. -/
theorem Resolves.alike {r r' : Except Diagnostic (List Stmt × Expr × State)}
    (h : Resolves g Allowed chain f call args s r)
    (h' : Resolves g Allowed' chain f call args s r') : Alike r r' := by
  induction h generalizing r' with
  | mismatch harity =>
      cases h' with
      | mismatch => exact .error nofun
      | copy _ harity' => exact absurd harity' harity
  | copy handle harity _ _ ih =>
      cases h' with
      | mismatch harity' => exact absurd harity harity'
      | copy handle' _ _ hcalls' =>
          refine alike_copy (alikeOn_map fun c hc f' hf' call' args' s' ↦ ?_) _ _
          exact ih c hc f' hf' call' args' s' (hcalls' c hc f' hf' call' args' s')

theorem Resolves.mono {r : Except Diagnostic (List Stmt × Expr × State)}
    (h : Resolves g Allowed chain f call args s r) (hle : ∀ chain, Allowed chain → Allowed' chain) :
    Resolves g Allowed' chain f call args s r := by
  induction h with
  | mismatch harity => exact .mismatch harity
  | copy handle harity hchain _ ih => exact .copy handle harity (hle _ hchain) ih

theorem ResolvesStmts.mono {ts : List Stmt} {r : Except Diagnostic (List Stmt × State)}
    (h : ResolvesStmts g Allowed ts s r) (hle : ∀ chain, Allowed chain → Allowed' chain) :
    ResolvesStmts g Allowed' ts s r := by
  obtain ⟨handle, hcalls, rfl⟩ := h
  exact ⟨handle, fun c hc f hf call args s ↦ (hcalls c hc f hf call args s).mono hle, rfl⟩

theorem ResolvesStmts.alike {ts : List Stmt} {r r' : Except Diagnostic (List Stmt × State)}
    (h : ResolvesStmts g Allowed ts s r) (h' : ResolvesStmts g Allowed' ts s r') : Alike r r' := by
  obtain ⟨handle, hcalls, rfl⟩ := h
  obtain ⟨handle', hcalls', rfl⟩ := h'
  refine alike_stmts ts s (alikeOn_map fun c hc f hf call args s ↦ ?_)
  exact (hcalls c hc f hf call args s).alike (hcalls' c hc f hf call args s)

theorem mem_userCalls_of_mem_calls (hf : g.func? f.name = some f) {c : Call} (hc : c ∈ f.calls)
    {f' : Func} (hf' : g.func? c.fn = some f') : c ∈ g.userCalls f.name := by
  rw [CallGraph.userCalls, hf]
  refine List.mem_filter.mpr ⟨hc, ?_⟩
  rw [CallGraph.isUser, hf']
  rfl

/-- As long as there is room for the calls that are nested under a function, the guard lets them
pass. -/
theorem resolves_handler {limit : Int} {room : Nat} (hnest : g.NestsWithin room f.name)
    (hf : g.func? f.name = some f) (hroom : (chain.length + room : Int) ≤ limit)
    (call : Expr) (args : List Expr) (s : State) :
    Resolves g (fun chain ↦ (chain.length : Int) ≤ limit) chain f call args s
      (handler g limit room chain f call args s) := by
  induction room generalizing chain f call args s with
  | zero => exact hnest.elim
  | succ room ih =>
      unfold handler
      split
      · next harity => exact .mismatch harity
      · next harity =>
          have hlength : ((chain ++ [f.name]).length : Int) = chain.length + 1 := by
            rw [List.length_append, List.length_singleton, Nat.cast_add, Nat.cast_one]
          refine .copy _ (not_not.mp harity) ?_ fun c hc f' hf' call' args' s' ↦ ?_
          · omega
          · have hcall := mem_userCalls_of_mem_calls hf hc hf'
            have hname : f'.name = c.fn := (func?_name hf').1
            refine ih ?_ ?_ ?_ call' args' s'
            · exact hname ▸ hnest c hcall
            · exact hname ▸ hf'
            · omega

theorem handler_resolves_of_checkDepth {limit : Int} (hdepth : g.checkDepth limit = .ok ())
    {fn : String} (hf : g.func? fn = some f) (call : Expr) (args : List Expr) (s : State) :
    Resolves g (fun chain ↦ (chain.length : Int) ≤ limit) [] f call args s
      (handler g limit limit.toNat [] f call args s) := by
  rcases g.checkDepth_unrolls limit with ⟨_, -, hnest⟩ | ⟨-, d, hd, -⟩
  · obtain ⟨rfl, -⟩ := func?_name hf
    have hname : f.name ∈ g.names := by
      rw [CallGraph.mem_names, CallGraph.isUser, hf]
      rfl
    have hroom : limit.toNat ≠ 0 := fun hzero ↦ by
      have hnone := hnest f.name hname
      rw [hzero] at hnone
      exact hnone
    refine resolves_handler (hnest f.name hname) hf ?_ call args s
    rw [List.length_nil]
    omega
  · rw [hd] at hdepth
    cases hdepth

/-- If the depth check has passed, then inlining comes to the result that calls have without its
guard, and this is the only one. Nowhere on the way are more functions on the chain than the limit
allows, so the guard never reports anything. -/
theorem stmts_resolve_without_guard (p : Program) (limit : Int)
    (hdepth : (CallGraph.ofProgram p).checkDepth limit = .ok ()) (ts : List Stmt) (s : State) :
    let result := stmts (.ofProgram p) (handler (.ofProgram p) limit limit.toNat []) ts s
    ResolvesStmts (.ofProgram p) (fun chain ↦ (chain.length : Int) ≤ limit) ts s result ∧
      (∀ r, ResolvesStmts (.ofProgram p) (fun _ ↦ True) ts s r ↔ r = result) ∧
      ∀ d, result = .error d → ∀ chain limit', d.issue ≠ .nestedTooDeep chain limit' := by
  intro result
  have hresolves : ResolvesStmts (.ofProgram p) (fun chain ↦ (chain.length : Int) ≤ limit) ts s
      result :=
    ⟨_, fun _ _ _ hf ↦ handler_resolves_of_checkDepth hdepth hf, rfl⟩
  refine ⟨hresolves, fun r ↦ ⟨fun hr ↦ (hr.alike hresolves).1, ?_⟩, fun d hd ↦ ?_⟩
  · rintro rfl
    exact hresolves.mono fun _ _ ↦ trivial
  · exact (hresolves.alike hresolves).2.of_eq_error hd

end Inlining

namespace Program

/-- Two functions call each other, but for a later definition of one of them. -/
def redefined : Program where
  funcs := [
    { name := "half", params := [⟨"real", "x"⟩], body := none
      result := some (.call "twice" [.var "x"]) },
    { name := "twice", params := [⟨"real", "x"⟩]
      body := some [.block [.decl "real" "h" false (some (.call "half" [.var "x"]))]]
      result := some (.binary .add (.var "h") (.call "half" [.var "h"])) },
    { name := "half", params := [⟨"real", "x"⟩], body := some []
      result := some (.binary .div (.var "x") (.lit .int "2")) }]
  stmts := [.decl "real" "y" false (some (.call "twice" [.call "half" [.lit .int "3"]]))]

end Program

namespace Inlining

theorem stmts_resolve_without_guard_redefined :
    (CallGraph.ofProgram .redefined).checkDepth 2 = .ok () ∧
      ∃ out, ResolvesStmts (.ofProgram .redefined) (fun chain ↦ (chain.length : Int) ≤ 2)
          Program.redefined.stmts (start "_" .redefined) (.ok out) ∧
        ∀ r, ResolvesStmts (.ofProgram .redefined) (fun _ ↦ True) Program.redefined.stmts
          (start "_" .redefined) r ↔ r = .ok out := by
  have hdepth : (CallGraph.ofProgram .redefined).checkDepth 2 = .ok () := by cbv
  have hok : ((stmts (.ofProgram .redefined) (handler (.ofProgram .redefined) 2 (2 : Int).toNat [])
      Program.redefined.stmts (start "_" .redefined)).toOption.any fun _ ↦ true) = true := by
    cbv
  obtain ⟨out, hout, -⟩ := exists_ok_of_any hok
  obtain ⟨hresolves, honly, -⟩ := stmts_resolve_without_guard .redefined 2 hdepth _ _
  exact ⟨hdepth, out, hout ▸ hresolves, hout ▸ honly⟩

end Inlining

end Stratify
