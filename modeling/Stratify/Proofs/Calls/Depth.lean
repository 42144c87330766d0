import Mathlib.Data.List.Chain
import Mathlib.Data.List.Nodup
import Mathlib.Data.List.Perm.Subperm
import Mathlib.Logic.Relation
import Stratify.Calls.Depth

/-!
# The depth check is exact

The check of a call graph passes if no chain of calls is longer than the limit, and only then. The
functions on the chain of the search all lead to the one that is entered, so finding one of them
again is a cycle; and the depth of a function that the search has left is the length of its longest
chain of calls.
-/

namespace Stratify

/-- A check either finds what it should, or reports that calls cannot be unrolled. -/
def Unrolls {α : Type} (bad : Prop) (P : α → Prop) (r : Except Diagnostic α) : Prop :=
  (∃ a, r = .ok a ∧ P a) ∨
    bad ∧ ∃ d, r = .error d ∧ d.issue.kind = .nonTerminatingElaboration

namespace Unrolls

variable {α β : Type} {bad : Prop} {P : α → Prop} {Q : β → Prop}

theorem of_ok {r : Except Diagnostic α} {a : α} (hr : r = .ok a) (ha : P a) : Unrolls bad P r :=
  Or.inl ⟨a, hr, ha⟩

theorem of_error {r : Except Diagnostic α} (hbad : bad) {d : Diagnostic} (hr : r = .error d)
    (hkind : d.issue.kind = .nonTerminatingElaboration) : Unrolls bad P r :=
  Or.inr ⟨hbad, d, hr, hkind⟩

theorem imp {P' : α → Prop} {r : Except Diagnostic α} (h : Unrolls bad P r)
    (hP : ∀ a, P a → P' a) : Unrolls bad P' r :=
  Or.imp_left (fun ⟨a, hr, ha⟩ ↦ ⟨a, hr, hP a ha⟩) h

theorem bind {r : Except Diagnostic α} {f : α → Except Diagnostic β} (h : Unrolls bad P r)
    (hf : ∀ a, P a → Unrolls bad Q (f a)) : Unrolls bad Q (r >>= f) := by
  rcases h with ⟨a, rfl, ha⟩ | ⟨hbad, d, rfl, hkind⟩
  · exact hf a ha
  · exact of_error hbad rfl hkind

end Unrolls

namespace CallGraph

variable {g : CallGraph}

def Calls (g : CallGraph) (fn callee : String) : Prop :=
  ∃ c ∈ g.userCalls fn, c.fn = callee

/-- No function calls itself, directly or through others. -/
def Acyclic (g : CallGraph) : Prop :=
  ∀ fn, ¬ Relation.TransGen g.Calls fn fn

/-- Calls under a function are nested at most `n` deep, the function itself counted. -/
def NestsWithin (g : CallGraph) : Nat → String → Prop
  | 0, _ => False
  | n + 1, fn => ∀ c ∈ g.userCalls fn, NestsWithin g n c.fn

theorem mem_names {fn : String} : fn ∈ g.names ↔ g.isUser fn = true := by
  rw [names, List.mem_mergeSort, List.mem_eraseDups, isUser, func?, Func.isSome_named?_iff]
  simp

theorem func?_eq_some_iff (hnodup : (g.funcs.map Func.name).Nodup) {fn : String} {f : Func} :
    g.func? fn = some f ↔ f ∈ g.funcs ∧ f.name = fn := by
  have hreverse : (g.funcs.reverse.map Func.name).Nodup := by
    rwa [List.map_reverse, List.nodup_reverse]
  rw [func?, Func.named?_eq_some_iff hreverse, List.mem_reverse]

theorem mem_names_of_mem_userCalls {fn : String} {c : Call} (h : c ∈ g.userCalls fn) :
    c.fn ∈ g.names := by
  unfold userCalls at h
  split at h
  · cases h
  · exact mem_names.mpr (List.mem_filter.mp h).2

theorem first_spec (cs : List Call) :
    (∀ c ∈ cs.eraseDupsBy fun a b ↦ a.fn == b.fn, c ∈ cs) ∧
      ∀ c ∈ cs, ∃ c' ∈ cs.eraseDupsBy fun a b ↦ a.fn == b.fn, c'.fn = c.fn := by
  match cs with
  | [] => simp
  | a :: cs =>
      obtain ⟨hsub, hfirst⟩ := first_spec (cs.filter fun b ↦ decide ((b.fn == a.fn) = false))
      rw [List.eraseDupsBy_cons]
      constructor
      · intro c hc
        rcases List.mem_cons.mp hc with rfl | hc
        · exact List.mem_cons_self ..
        · exact List.mem_cons_of_mem _ (List.mem_of_mem_filter (hsub c hc))
      · intro c hc
        by_cases heq : c.fn = a.fn
        · exact ⟨a, List.mem_cons_self .., heq.symm⟩
        · have hrest : c ∈ cs := (List.mem_cons.mp hc).resolve_left fun h ↦ heq (h ▸ rfl)
          obtain ⟨c', hc', hfn⟩ := hfirst c (List.mem_filter.mpr ⟨hrest, by simpa using heq⟩)
          exact ⟨c', List.mem_cons_of_mem _ hc', hfn⟩
termination_by cs.length
decreasing_by exact Nat.lt_succ_of_le (List.length_filter_le _ _)

theorem mem_userCalls_of_mem_firstCalls {fn : String} {c : Call} (h : c ∈ g.firstCalls fn) :
    c ∈ g.userCalls fn :=
  (first_spec _).1 c h

theorem nestsWithin_succ_iff {n : Nat} {fn : String} :
    g.NestsWithin (n + 1) fn ↔ ∀ c ∈ g.firstCalls fn, g.NestsWithin n c.fn := by
  constructor
  · exact fun h c hc ↦ h c (mem_userCalls_of_mem_firstCalls hc)
  · intro h c hc
    obtain ⟨c', hc', hfn⟩ := (first_spec _).2 c hc
    exact hfn ▸ h c' hc'

theorem NestsWithin.mono {m n : Nat} {fn : String} (h : g.NestsWithin m fn) (hmn : m ≤ n) :
    g.NestsWithin n fn := by
  induction m generalizing n fn with
  | zero => exact h.elim
  | succ m ih =>
      obtain _ | n := n
      · omega
      · exact fun c hc ↦ ih (h c hc) (Nat.le_of_succ_le_succ hmn)

/-! ### Cycles and chains -/

theorem length_le_of_mem_names {chain : List String} (hnodup : chain.Nodup)
    (hchain : ∀ x ∈ chain, x ∈ g.names) : chain.length ≤ g.names.length :=
  (hnodup.subperm hchain).length_le

theorem NestsWithin.of_transGen {n : Nat} {fn callee : String} (h : g.NestsWithin n fn)
    (hpath : Relation.TransGen g.Calls fn callee) : ∃ m < n, g.NestsWithin m callee := by
  have hstep {n : Nat} {fn callee : String} (h : g.NestsWithin n fn) (hcall : g.Calls fn callee) :
      ∃ m < n, g.NestsWithin m callee := by
    obtain ⟨c, hc, rfl⟩ := hcall
    obtain _ | n := n
    · exact h.elim
    · exact ⟨n, Nat.lt_succ_self n, h c hc⟩
  induction hpath with
  | single hcall => exact hstep h hcall
  | tail _ hcall ih =>
      obtain ⟨m, hm, hmid⟩ := ih
      obtain ⟨k, hk, hlast⟩ := hstep hmid hcall
      exact ⟨k, Nat.lt_trans hk hm, hlast⟩

/-- On a cycle the calls are nested without end. -/
theorem not_nestsWithin_of_cycle {fn : String} (hcycle : Relation.TransGen g.Calls fn fn)
    (n : Nat) : ¬ g.NestsWithin n fn := by
  induction n using Nat.strongRecOn with
  | ind n ih =>
      intro h
      obtain ⟨m, hm, hnest⟩ := h.of_transGen hcycle
      exact ih m hm hnest

theorem nestsWithin_iff_chains {n : Nat} {fn : String} :
    g.NestsWithin n fn ↔
      ∀ chain, (fn :: chain).IsChain g.Calls → (fn :: chain).length ≤ n := by
  induction n generalizing fn with
  | zero => exact ⟨fun h ↦ h.elim, fun h ↦ by simpa using h [] (.singleton fn)⟩
  | succ n ih =>
      constructor
      · intro h chain hchain
        cases chain with
        | nil => simp
        | cons callee chain =>
            obtain ⟨⟨c, hc, rfl⟩, hrest⟩ := List.isChain_cons_cons.mp hchain
            exact Nat.succ_le_succ (ih.mp (h c hc) chain hrest)
      · intro h c hc
        refine ih.mpr fun chain hchain ↦ ?_
        have hlong := h (c.fn :: chain) (List.isChain_cons_cons.mpr ⟨⟨c, hc, rfl⟩, hchain⟩)
        exact Nat.le_of_succ_le_succ hlong

theorem mem_names_of_isChain {fn : String} {chain : List String}
    (hchain : (fn :: chain).IsChain g.Calls) : ∀ x ∈ chain, x ∈ g.names := by
  induction chain generalizing fn with
  | nil => simp
  | cons callee chain ih =>
      obtain ⟨⟨c, hc, rfl⟩, hrest⟩ := List.isChain_cons_cons.mp hchain
      exact List.forall_mem_cons.mpr ⟨mem_names_of_mem_userCalls hc, ih hrest⟩

/-- Every chain of calls between functions has at most `n` of them. -/
def ChainsWithin (g : CallGraph) (n : Nat) : Prop :=
  ∀ chain : List String, (∀ fn ∈ chain, g.isUser fn = true) → chain.IsChain g.Calls →
    chain.length ≤ n

theorem forall_nestsWithin_iff {n : Nat} :
    (∀ fn ∈ g.names, g.NestsWithin n fn) ↔ g.Acyclic ∧ g.ChainsWithin n := by
  constructor
  · intro h
    refine ⟨fun fn hcycle ↦ ?_, fun chain huser hchain ↦ ?_⟩
    · obtain ⟨_, -, hcall⟩ := Relation.TransGen.tail'_iff.mp hcycle
      obtain ⟨c, hc, hfn⟩ := hcall
      exact not_nestsWithin_of_cycle hcycle n (h fn (hfn ▸ mem_names_of_mem_userCalls hc))
    · cases chain with
      | nil => exact Nat.zero_le n
      | cons fn chain =>
          have hfn : fn ∈ g.names := mem_names.mpr (huser fn (List.mem_cons_self ..))
          exact nestsWithin_iff_chains.mp (h fn hfn) chain hchain
  · rintro ⟨-, h⟩ fn hfn
    refine nestsWithin_iff_chains.mpr fun chain hchain ↦ h _ (fun x hx ↦ mem_names.mp ?_) hchain
    rcases List.mem_cons.mp hx with rfl | hx
    · exact hfn
    · exact mem_names_of_isChain hchain x hx

/-- Without cycles, calls are nested no deeper than there are functions. -/
theorem Acyclic.nestsWithin_names (h : g.Acyclic) {fn : String} (hfn : fn ∈ g.names) :
    g.NestsWithin g.names.length fn := by
  refine nestsWithin_iff_chains.mpr fun chain hchain ↦ ?_
  have hpaths : (fn :: chain).Pairwise (Relation.TransGen g.Calls) :=
    List.isChain_iff_pairwise.mp (hchain.imp fun _ _ hcall ↦ .single hcall)
  have hnodup : (fn :: chain).Nodup := by
    refine hpaths.imp fun {a b} hpath heq ↦ ?_
    subst heq
    exact h a hpath
  exact length_le_of_mem_names hnodup
    (List.forall_mem_cons.mpr ⟨hfn, mem_names_of_isChain hchain⟩)

end CallGraph

/-! ### The search -/

namespace Depths

variable {g : CallGraph} {limit : Int} {ds ds' : Depths}

/-- The depths that are known are within the limit, and no bound on the nesting is better. -/
def Right (g : CallGraph) (limit : Int) (ds : Depths) : Prop :=
  ∀ fn d, ds.get? fn = some d → d ≤ limit ∧ ∀ n, g.NestsWithin n fn ↔ d ≤ n

/-- What the search has left it never forgets. -/
def Within (ds ds' : Depths) : Prop :=
  ∀ fn, (ds.get? fn).isSome = true → (ds'.get? fn).isSome = true

theorem get?_cons (fn x : String) (d : Nat) :
    get? ((fn, d) :: ds) x = if fn = x then some d else ds.get? x := by
  unfold get?
  by_cases h : fn = x <;> simp [h]

theorem Right.cons (h : ds.Right g limit) {fn : String} {d : Nat} (hd : d ≤ limit)
    (hnest : ∀ n, g.NestsWithin n fn ↔ d ≤ n) : Right g limit ((fn, d) :: ds) := by
  intro x e he
  rw [get?_cons] at he
  split at he
  · next heq =>
      subst heq
      cases he
      exact ⟨hd, hnest⟩
  · exact h x e he

theorem Right.nestsWithin (h : ds.Right g limit) {fn : String}
    (hfn : (ds.get? fn).isSome = true) : g.NestsWithin limit.toNat fn := by
  obtain ⟨d, hd⟩ := Option.isSome_iff_exists.mp hfn
  obtain ⟨hle, hnest⟩ := h fn d hd
  exact (hnest _).mpr (by omega)

end Depths

namespace CallGraph

variable {g : CallGraph} {limit : Int}

def TooDeep (g : CallGraph) (limit : Int) : Prop :=
  ∃ fn ∈ g.names, ¬ g.NestsWithin limit.toNat fn

/-- What a visit of a function does to the depths that are known. -/
def Visits (g : CallGraph) (limit : Int) (fn : String) (ds : Depths)
    (r : Except Diagnostic Depths) : Prop :=
  Unrolls (g.TooDeep limit)
    (fun ds' ↦ ds'.Right g limit ∧ ds.Within ds' ∧ (ds'.get? fn).isSome = true) r

/-- The calls of a function are visited one after the other, and the largest depth is kept. -/
theorem visits_all {visit : Call → Depths → Except Diagnostic Depths} {cs : List Call}
    (hvisit : ∀ c ∈ cs, ∀ ds : Depths, ds.Right g limit → g.Visits limit c.fn ds (visit c ds))
    {ds : Depths} {depth : Nat} (hds : ds.Right g limit) (hdepth : 1 ≤ depth) :
    Unrolls (g.TooDeep limit)
      (fun acc : Depths × Nat ↦ acc.1.Right g limit ∧ ds.Within acc.1 ∧ 1 ≤ acc.2 ∧
        (∀ n, acc.2 ≤ n + 1 ↔ depth ≤ n + 1 ∧ ∀ c ∈ cs, g.NestsWithin n c.fn) ∧
        ∀ c ∈ cs, g.NestsWithin limit.toNat c.fn)
      (cs.foldlM (fun (acc : Depths × Nat) call ↦ do
        let ds ← visit call acc.1
        return (ds, max acc.2 (ds.depth call.fn + 1))) (ds, depth)) := by
  induction cs generalizing ds depth with
  | nil => exact .of_ok rfl ⟨hds, fun _ h ↦ h, hdepth, by simp, by simp⟩
  | cons c cs ih =>
      rw [List.forall_mem_cons] at hvisit
      rw [List.foldlM_cons, bind_assoc]
      refine (hvisit.1 ds hds).bind fun ds₁ ⟨hds₁, hwithin₁, hfn⟩ ↦ ?_
      obtain ⟨d, hd⟩ := Option.isSome_iff_exists.mp hfn
      have hnest := (hds₁ c.fn d hd).2
      rw [pure_bind, Depths.depth, hd, Option.getD_some]
      refine (ih hvisit.2 hds₁ (by omega)).imp ?_
      rintro acc ⟨hright, hwithin, hpos, hmax, hlimit⟩
      refine ⟨hright, fun x hx ↦ hwithin x (hwithin₁ x hx), hpos, fun n ↦ ?_,
        List.forall_mem_cons.mpr ⟨hds₁.nestsWithin hfn, hlimit⟩⟩
      rw [hmax n, List.forall_mem_cons, hnest n, Nat.max_le, Nat.add_le_add_iff_right, and_assoc]

/-- The chain of a search that enters a function: every function on it calls the next one, the last
of them the one that is entered, and none is there twice. -/
structure Leads (g : CallGraph) (chain : List String) (fn : String) : Prop where
  mem_names : ∀ x ∈ chain ++ [fn], x ∈ g.names
  calls : (chain ++ [fn]).IsChain g.Calls
  nodup : chain.Nodup

theorem leads_nil {fn : String} (hfn : fn ∈ g.names) : g.Leads [] fn :=
  ⟨by simpa using hfn, .singleton fn, List.nodup_nil⟩

theorem Leads.transGen {chain : List String} {fn : String} (h : g.Leads chain fn) {x : String}
    (hx : x ∈ chain) : Relation.TransGen g.Calls x fn := by
  have hpaths : (chain ++ [fn]).Pairwise (Relation.TransGen g.Calls) :=
    List.isChain_iff_pairwise.mp (h.calls.imp fun _ _ hcall ↦ .single hcall)
  exact (List.pairwise_append.mp hpaths).2.2 x hx fn (List.mem_singleton_self fn)

theorem Leads.nodup_concat {chain : List String} {fn : String} (h : g.Leads chain fn)
    (hnew : fn ∉ chain) : (chain ++ [fn]).Nodup := by
  rw [← List.concat_eq_append]
  exact h.nodup.concat hnew

theorem Leads.step {chain : List String} {fn : String} (h : g.Leads chain fn) (hnew : fn ∉ chain)
    {c : Call} (hc : c ∈ g.firstCalls fn) : g.Leads (chain ++ [fn]) c.fn where
  mem_names := List.forall_mem_append.mpr ⟨h.mem_names, List.forall_mem_singleton.mpr
    (mem_names_of_mem_userCalls (mem_userCalls_of_mem_firstCalls hc))⟩
  calls := by
    refine h.calls.append (.singleton c.fn) fun x hx y hy ↦ ?_
    rw [List.getLast?_concat, Option.mem_some_iff] at hx
    rw [List.head?_singleton, Option.mem_some_iff] at hy
    exact ⟨c, hx ▸ mem_userCalls_of_mem_firstCalls hc, hy⟩
  nodup := h.nodup_concat hnew

/-- The depth that the calls of a function give it is the best bound on its nesting. -/
theorem nestsWithin_iff_of_max {fn : String} {depth : Nat} (hpos : 1 ≤ depth)
    (hmax : ∀ n, depth ≤ n + 1 ↔ 1 ≤ n + 1 ∧ ∀ c ∈ g.firstCalls fn, g.NestsWithin n c.fn)
    (n : Nat) : g.NestsWithin n fn ↔ depth ≤ n := by
  cases n with
  | zero => exact ⟨fun h ↦ h.elim, fun h ↦ by omega⟩
  | succ n =>
      rw [nestsWithin_succ_iff, hmax n]
      exact ⟨fun h ↦ ⟨by omega, h⟩, fun h ↦ h.2⟩

theorem visit_visits {fuel : Nat} {chain : List String} {fn : String} (h : g.Leads chain fn)
    (hfuel : g.names.length < chain.length + fuel) (via : Expr) {ds : Depths}
    (hds : ds.Right g limit) :
    g.Visits limit fn ds (g.visit limit fuel chain fn via ds) := by
  have hfn : fn ∈ g.names := h.mem_names fn (by simp)
  induction fuel generalizing chain fn via ds with
  | zero =>
      have hle := length_le_of_mem_names h.nodup fun x hx ↦ h.mem_names x (by simp [hx])
      omega
  | succ fuel ih =>
      rw [visit]
      split
      · next hcycle =>
          exact .of_error ⟨fn, hfn, not_nestsWithin_of_cycle (h.transGen hcycle) _⟩ rfl rfl
      next hnew =>
      split
      · next hleft => exact .of_ok rfl ⟨hds, fun _ h ↦ h, hleft⟩
      have hcalls : ∀ c ∈ g.firstCalls fn, ∀ ds : Depths, ds.Right g limit →
          g.Visits limit c.fn ds (g.visit limit fuel (chain ++ [fn]) c.fn c.toExpr ds) := by
        intro c hc ds hds
        refine ih (h.step hnew hc) ?_ _ hds ((h.step hnew hc).mem_names _ (by simp))
        rw [List.length_append, List.length_singleton]
        omega
      refine (visits_all hcalls hds (Nat.le_refl 1)).bind ?_
      rintro ⟨ds', depth⟩ ⟨hright, hwithin, hpos, hmax, -⟩
      have hnest := nestsWithin_iff_of_max hpos hmax
      change Unrolls _ _ (if limit < depth then _ else _)
      split
      · next hdeep =>
          refine .of_error ⟨fn, hfn, fun h ↦ ?_⟩ rfl rfl
          have hle := (hnest _).mp h
          omega
      · next hdeep =>
          refine .of_ok rfl ⟨hright.cons (by omega) hnest, fun x hx ↦ ?_, ?_⟩
          · rw [Depths.get?_cons]
            split
            · rfl
            · exact hwithin x hx
          · rw [Depths.get?_cons, if_pos rfl]
            rfl

theorem checkDepth_unrolls (g : CallGraph) (limit : Int) :
    Unrolls (g.TooDeep limit) (fun _ ↦ ∀ fn ∈ g.names, g.NestsWithin limit.toNat fn)
      (g.checkDepth limit) := by
  -- Functions are entered in order, and those entered before keep their depths.
  have hfold (fns : List String) (hfns : ∀ fn ∈ fns, fn ∈ g.names) (ds : Depths)
      (hds : ds.Right g limit) :
      Unrolls (g.TooDeep limit)
        (fun ds' ↦ ds'.Right g limit ∧ ds.Within ds' ∧ ∀ fn ∈ fns, (ds'.get? fn).isSome = true)
        (fns.foldlM (fun ds fn ↦ g.visit limit (g.names.length + 1) [] fn .hole ds) ds) := by
    induction fns generalizing ds with
    | nil => exact .of_ok rfl ⟨hds, fun _ h ↦ h, by simp⟩
    | cons fn fns ih =>
        rw [List.forall_mem_cons] at hfns
        rw [List.foldlM_cons]
        have hvisit : g.Visits limit fn ds (g.visit limit (g.names.length + 1) [] fn .hole ds) :=
          visit_visits (leads_nil hfns.1) (by simp) _ hds
        refine hvisit.bind fun ds₁ ⟨hds₁, hwithin₁, hfn⟩ ↦ (ih hfns.2 ds₁ hds₁).imp ?_
        rintro ds' ⟨hright, hwithin, hall⟩
        exact ⟨hright, fun x hx ↦ hwithin x (hwithin₁ x hx),
          List.forall_mem_cons.mpr ⟨hwithin fn hfn, hall⟩⟩
  refine (hfold g.names (fun _ h ↦ h) [] (fun fn d h ↦ by cases h)).bind ?_
  rintro ds ⟨hright, -, hall⟩
  exact .of_ok rfl fun fn hfn ↦ hright.nestsWithin (hall fn hfn)

end CallGraph

end Stratify
