import Mathlib.Order.Bounds.Basic
import Stratify.Proofs.Calls.Depth
import Stratify.Proofs.Diagnostic.Message

/-!
# What a failed depth check shows

The depth check passes exactly if there is no cycle and no function has a chain of calls below it
that is longer than the limit. If it fails, then the chain that it reports is the reason: either
the chain comes back to its first function, or it leads to a function with no cycle below it whose
longest chain is too long. Deeper functions are checked first, so that chain is too long by one.
-/

namespace Stratify

namespace CallGraph

variable {g : CallGraph} {limit : Int}

/-- The lengths of the chains of calls that start with a function. -/
def nestings (g : CallGraph) (fn : String) : Set Nat :=
  {n | ∃ chain, (fn :: chain).IsChain g.Calls ∧ (fn :: chain).length = n}

/-- A chain that comes back to its first function, and to no other one. -/
structure Returns (chain : List String) : Prop where
  length : 2 ≤ chain.length
  first_eq_last : chain.head? = chain.getLast?
  nodup : chain.dropLast.Nodup

/-- A chain to a function below which calls end, but are nested too deeply. -/
structure EndsTooDeep (g : CallGraph) (limit : Int) (chain : List String) : Prop where
  nodup : chain.Nodup
  deep : ∃ fn, chain.getLast? = some fn ∧
    (∀ x, Relation.ReflTransGen g.Calls fn x → ¬ Relation.TransGen g.Calls x x) ∧
    ∃ n : Nat, IsGreatest (g.nestings fn) n ∧ limit < n ∧ (0 ≤ limit → n = limit + 1)

/-- A chain of calls that shows why calls cannot be unrolled within a limit. -/
structure Refutes (g : CallGraph) (limit : Int) (chain : List String) : Prop where
  ne_nil : chain ≠ []
  mem_names : ∀ fn ∈ chain, fn ∈ g.names
  calls : chain.IsChain g.Calls
  reason : Returns chain ∨ g.EndsTooDeep limit chain

/-! ### The longest chain -/

theorem nestsWithin_iff_mem_upperBounds {n : Nat} {fn : String} :
    g.NestsWithin n fn ↔ n ∈ upperBounds (g.nestings fn) := by
  rw [nestsWithin_iff_chains]
  constructor
  · rintro h m ⟨chain, hchain, rfl⟩
    exact h chain hchain
  · exact fun h chain hchain ↦ h ⟨chain, hchain, rfl⟩

theorem isGreatest_nestings {fn : String} {depth : Nat}
    (h : ∀ n, g.NestsWithin n fn ↔ depth ≤ n) : IsGreatest (g.nestings fn) depth := by
  have hbound : depth ∈ upperBounds (g.nestings fn) :=
    nestsWithin_iff_mem_upperBounds.mp ((h depth).mpr le_rfl)
  refine ⟨?_, hbound⟩
  cases depth with
  | zero => exact ((h 0).mpr le_rfl).elim
  | succ n =>
      -- `n` is no bound, so there is a chain longer than `n`.
      have hnot : ¬ g.NestsWithin n fn := fun hn ↦ Nat.not_succ_le_self n ((h n).mp hn)
      rw [nestsWithin_iff_chains] at hnot
      push Not at hnot
      obtain ⟨chain, hchain, hlong⟩ := hnot
      exact ⟨chain, hchain, le_antisymm (hbound ⟨chain, hchain, rfl⟩) hlong⟩

theorem not_cycle_of_nestsWithin {n : Nat} {fn x : String} (h : g.NestsWithin n fn)
    (hpath : Relation.ReflTransGen g.Calls fn x) : ¬ Relation.TransGen g.Calls x x := by
  intro hcycle
  have hfn : Relation.TransGen g.Calls fn x := Relation.TransGen.trans_right hpath hcycle
  obtain ⟨m, -, hx⟩ := h.of_transGen hfn
  exact not_nestsWithin_of_cycle hcycle m hx

/-! ### Chains of the search -/

/-- A function that is entered again closes a cycle. -/
theorem Leads.refutes_of_mem {chain : List String} {fn : String} (h : g.Leads chain fn)
    (hfn : fn ∈ chain) :
    g.Refutes limit (chain.dropWhile (fun f ↦ decide (f ≠ fn)) ++ [fn]) := by
  obtain ⟨front, rest, rfl, hfront⟩ := List.eq_append_cons_of_mem hfn
  have hdrop : (front ++ fn :: rest).dropWhile (fun f ↦ decide (f ≠ fn)) = fn :: rest := by
    have hne : ∀ f ∈ front, decide (f ≠ fn) = true := by
      rintro f hf
      exact decide_eq_true fun heq ↦ hfront (heq ▸ hf)
    rw [List.dropWhile_append_of_pos hne, List.dropWhile_cons_of_neg (by simp)]
  rw [hdrop]
  have hmem := h.mem_names
  have hcalls := h.calls
  rw [List.append_assoc] at hmem hcalls
  refine ⟨by simp, (List.forall_mem_append.mp hmem).2, hcalls.right_of_append, Or.inl ?_⟩
  refine ⟨by simp, by rw [List.getLast?_concat]; rfl, ?_⟩
  rw [List.dropLast_concat]
  exact h.nodup.of_append_right

/-- A function whose callees are all nested within the limit exceeds it by one at most. -/
theorem Leads.refutes_of_deep {chain : List String} {fn : String} (h : g.Leads chain fn)
    (hnew : fn ∉ chain) {depth : Nat} (hdepth : ∀ n, g.NestsWithin n fn ↔ depth ≤ n)
    (hcalls : ∀ c ∈ g.firstCalls fn, g.NestsWithin limit.toNat c.fn) (hdeep : limit < depth) :
    g.Refutes limit (chain ++ [fn]) := by
  have hle : depth ≤ limit.toNat + 1 := (hdepth _).mp (nestsWithin_succ_iff.mpr hcalls)
  refine ⟨by simp, h.mem_names, h.calls, Or.inr ⟨h.nodup_concat hnew, fn, ?_, ?_, depth, ?_⟩⟩
  · exact List.getLast?_concat
  · exact fun x hpath ↦ not_cycle_of_nestsWithin ((hdepth depth).mpr le_rfl) hpath
  · exact ⟨isGreatest_nestings hdepth, hdeep, fun hpos ↦ by omega⟩

/-- A diagnostic about calls that cannot be unrolled, with a chain that shows it. -/
def Reports (g : CallGraph) (limit : Int) (d : Diagnostic) : Prop :=
  d.issue.kind = .nonTerminatingElaboration ∧ g.Refutes limit d.issue.chain

theorem yields_reports_visit {fuel : Nat} {chain : List String} {fn : String}
    (h : g.Leads chain fn) (hfuel : g.names.length < chain.length + fuel) (via : Expr)
    {ds : Depths} (hds : ds.Right g limit) :
    Yields (g.Reports limit) (fun ds' ↦ ds'.Right g limit)
      (g.visit limit fuel chain fn via ds) := by
  induction fuel generalizing chain fn via ds with
  | zero => exact hds
  | succ fuel ih =>
      rw [visit]
      split
      · next hcycle => exact ⟨rfl, h.refutes_of_mem hcycle⟩
      next hnew =>
      split
      · exact hds
      have hroom : g.names.length < (chain ++ [fn]).length + fuel := by
        rw [List.length_append, List.length_singleton]
        omega
      -- An error comes from a call that is visited, or from the depth after all of them.
      have herror : Yields (g.Reports limit) (fun acc : Depths × Nat ↦ acc.1.Right g limit)
          ((g.firstCalls fn).foldlM (fun (acc : Depths × Nat) call ↦ do
            let ds ← g.visit limit fuel (chain ++ [fn]) call.fn call.toExpr acc.1
            return (ds, max acc.2 (ds.depth call.fn + 1))) (ds, 1)) := by
        refine Yields.foldlM (fun c hc acc hacc ↦ ?_) hds
        exact (ih (h.step hnew hc) hroom c.toExpr hacc).bind fun _ hds' ↦ hds'
      have hcalls : ∀ c ∈ g.firstCalls fn, ∀ ds : Depths, ds.Right g limit →
          g.Visits limit c.fn ds (g.visit limit fuel (chain ++ [fn]) c.fn c.toExpr ds) :=
        fun c hc ds hds ↦ visit_visits (h.step hnew hc) hroom c.toExpr hds
      have hvisits := visits_all hcalls hds (Nat.le_refl 1)
      rcases hvisits with ⟨⟨ds', depth⟩, hok, hright, -, hpos, hmax, hwithin⟩ | ⟨-, d, hfail, -⟩
      · have hdepth := nestsWithin_iff_of_max hpos hmax
        rw [hok]
        change Yields _ _ (if limit < depth then _ else _)
        split
        · next hdeep => exact ⟨rfl, h.refutes_of_deep hnew hdepth hwithin hdeep⟩
        · next hdeep => exact hright.cons (by omega) hdepth
      · rw [hfail] at herror ⊢
        exact herror

theorem yields_reports_checkDepth (g : CallGraph) (limit : Int) :
    Yields (g.Reports limit) (fun _ ↦ True) (g.checkDepth limit) := by
  have hvisits : Yields (g.Reports limit) (fun ds ↦ ds.Right g limit)
      (g.names.foldlM (fun ds fn ↦ g.visit limit (g.names.length + 1) [] fn .hole ds) []) :=
    Yields.foldlM (fun fn hfn ds hds ↦ yields_reports_visit (leads_nil hfn) (by simp) .hole hds)
      fun fn d h ↦ by cases h
  exact hvisits.bind fun _ _ ↦ trivial

/-! ### The check -/

theorem forall_nestsWithin_iff_nestings :
    (∀ fn ∈ g.names, g.NestsWithin limit.toNat fn) ↔
      g.Acyclic ∧ ∀ fn ∈ g.names, ∀ n ∈ g.nestings fn, (n : Int) ≤ limit := by
  constructor
  · intro h
    refine ⟨(forall_nestsWithin_iff.mp h).1, fun fn hfn n hn ↦ ?_⟩
    have hle : n ≤ limit.toNat := nestsWithin_iff_mem_upperBounds.mp (h fn hfn) hn
    obtain ⟨chain, -, rfl⟩ := hn
    rw [List.length_cons] at hle ⊢
    omega
  · rintro ⟨-, h⟩ fn hfn
    refine nestsWithin_iff_mem_upperBounds.mpr fun n hn ↦ ?_
    have hle := h fn hfn n hn
    omega

/-- The depth check passes exactly if there is no cycle of calls and no function, called or not,
has a chain of calls that is longer than the limit. Otherwise it reports a chain of calls that shows
the cycle, or that leads to a function whose longest chain is too long. -/
theorem checkDepth_exact (p : Program) (limit : Int) :
    ((ofProgram p).checkDepth limit = .ok () ↔ (ofProgram p).Acyclic ∧
      ∀ fn ∈ (ofProgram p).names, ∀ n ∈ (ofProgram p).nestings fn, (n : Int) ≤ limit) ∧
    ∀ d, (ofProgram p).checkDepth limit = .error d →
      d.issue.kind = .nonTerminatingElaboration ∧ (ofProgram p).Refutes limit d.issue.chain := by
  refine ⟨?_, fun d hd ↦ (yields_reports_checkDepth _ limit).of_eq_error hd⟩
  rw [← forall_nestsWithin_iff_nestings]
  rcases (ofProgram p).checkDepth_unrolls limit with ⟨_, hok, hnest⟩ | ⟨⟨fn, hfn, hdeep⟩, d, hd, -⟩
  · exact ⟨fun _ ↦ hnest, fun _ ↦ hok⟩
  · exact ⟨fun hok ↦ (by rw [hd] at hok; cases hok), fun h ↦ absurd (h fn hfn) hdeep⟩

end CallGraph

end Stratify
