import Stratify.Proofs.Typing.Constraints
import Stratify.Proofs.Typing.Tracking

/-!
# Constraints that mirror dependencies

What an expression depends on is found out twice: once from the expression alone, as lists of
variables and calls, and once while constraints are generated, as flows into the level variable of
the expression. Both walks enter the calls to functions of the target language and stop at user
calls, but generation goes on with the arguments, each of them under a level variable of its own.

The constraints that an expression adds come one after the other, and belong to level variables
with different numbers. What the rest of an expression adds never flows into a level variable that
an earlier part has brought in, so the parts of an expression can be looked at one by one.
-/

namespace Stratify

namespace Constraint

/-- Some constraint lets information flow from one level variable to another. -/
def Flow (cs : List (Constraint Level)) (lo hi : String) : Prop :=
  ∃ rule, ⟨.named lo, .named hi, rule⟩ ∈ cs

variable {cs ds : List (Constraint Level)} {lo hi a b rule : String}

@[simp] theorem flow_nil : ¬ Flow [] lo hi := by
  simp [Flow]

@[simp] theorem flow_append : Flow (cs ++ ds) lo hi ↔ Flow cs lo hi ∨ Flow ds lo hi := by
  simp only [Flow, List.mem_append, exists_or]

@[simp] theorem flow_singleton :
    Flow [⟨.named a, .named b, rule⟩] lo hi ↔ lo = a ∧ hi = b := by
  simp only [Flow, List.mem_singleton, Constraint.mk.injEq, Term.named_injective.eq_iff]
  constructor
  · rintro ⟨_, hlo, hhi, -⟩
    exact ⟨hlo, hhi⟩
  · rintro ⟨hlo, hhi⟩
    exact ⟨rule, hlo, hhi, rfl⟩

/-- A bound by a constant is no flow, unless the constant is the lowest one. -/
theorem not_flow_const {l : Level} {t : Term Level} (hl : l ≠ .data) :
    ¬ Flow [⟨.const l, t, rule⟩] lo hi := by
  rintro ⟨r, hr⟩
  have hlo : (Term.named lo : Term Level) = .const l :=
    congrArg Constraint.lo (List.mem_singleton.mp hr)
  unfold Term.named at hlo
  split at hlo
  · exact hl (Term.const.inj hlo).symm
  · cases hlo

end Constraint

open Constraint (Flow)

/-! ### Dependencies -/

namespace Globals

def isUser (g : Globals) (fn : String) : Bool :=
  (g.func? fn).isSome

/-- What an expression depends on, in a program with these functions. -/
def deps (g : Globals) (e : Expr) : Deps :=
  Deps.ofExprs g.isUser [e]

theorem calls_deps (g : Globals) (e : Expr) : (g.deps e).calls = e.outerCalls g.isUser :=
  List.append_nil _

theorem vars_deps (g : Globals) (e : Expr) : (g.deps e).vars = (e.reads g.isUser).eraseDups :=
  congrArg List.eraseDups (List.append_nil _)

end Globals

namespace Deps

/-- The variables, which are those of a function, and the results of the calls. -/
def slots (fn : String) (D : Deps) : List Slot :=
  D.vars.map (fun x ↦ .var ⟨fn, x⟩) ++ D.calls.map fun c ↦ .result c.fn

end Deps

namespace Draft

/-! ### Constraints that mirror dependencies -/

section Mirroring

variable (prims : Primitives) (p : Program) (fn : String) (vs : List Vertex)
variable (cs : List (Constraint Level))

mutual

/-- The level variables with the numbers above `n` up to `m` are those of an expression of the
function `fn` and of the arguments in it. That of the expression itself is the first. The
constraints `cs` flow into it from the dependencies of the expression, and from nothing else. -/
inductive Mirrors : Nat → Nat → Expr → Prop
  | intro {n m : Nat} {e : Expr}
      (owner : ∃ v ∈ vs, v.key = exprKey (n + 1) ∧ v.isExpr = true ∧ v.source = some (.expr e))
      (sources : ∀ s, s ∈ p.slots ∧ Flow cs s.key (exprKey (n + 1)) ↔
        s ∈ ((p.globals prims).deps e).slots fn)
      (calls : MirrorsCalls (n + 1) m ((p.globals prims).deps e).calls) : Mirrors n m e

/-- The same for the arguments of several calls to user functions. -/
inductive MirrorsCalls : Nat → Nat → List Call → Prop
  | nil {n : Nat} : MirrorsCalls n n []
  | cons {n k m : Nat} {c : Call} {rest : List Call} {f : Func}
      (func : (p.globals prims).func? c.fn = some f)
      (args : MirrorsArgs f.name n k f.params c.args)
      (calls : MirrorsCalls k m rest) : MirrorsCalls n m (c :: rest)

/-- Every argument mirrors its own dependencies and flows into its parameter. -/
inductive MirrorsArgs : String → Nat → Nat → List Param → List Expr → Prop
  | nil {callee : String} {n : Nat} : MirrorsArgs callee n n [] []
  | cons {callee : String} {n k m : Nat} {q : Param} {qs : List Param} {e : Expr} {es : List Expr}
      (arg : Mirrors n k e)
      (passed : Flow cs (exprKey (n + 1)) (VarId.key ⟨callee, q.name⟩))
      (args : MirrorsArgs callee k m qs es) : MirrorsArgs callee n m (q :: qs) (e :: es)

end

end Mirroring

variable {prims : Primitives} {p : Program} {fn : String} {vs vs' : List Vertex}
variable {cs cs' : List (Constraint Level)}

mutual

theorem Mirrors.lt {n m : Nat} {e : Expr} : Mirrors prims p fn vs cs n m e → n < m
  | .intro _ _ calls => calls.le

theorem MirrorsCalls.le {n m : Nat} {calls : List Call} :
    MirrorsCalls prims p fn vs cs n m calls → n ≤ m
  | .nil => le_rfl
  | .cons _ args calls => args.le.trans calls.le

theorem MirrorsArgs.le {callee : String} {n m : Nat} {qs : List Param} {es : List Expr} :
    MirrorsArgs prims p fn vs cs callee n m qs es → n ≤ m
  | .nil => le_rfl
  | .cons arg _ args => arg.lt.le.trans args.le

end

/-- More level variables and more flows, but nothing new for the numbers above `n` up to `m`. -/
structure Spares (n m : Nat) (vs vs' : List Vertex) (cs cs' : List (Constraint Level)) : Prop where
  vertices : ∀ v ∈ vs, ∀ i, n < i → i ≤ m → v.key = exprKey i → v ∈ vs'
  keeps : ∀ lo hi, Flow cs lo hi → Flow cs' lo hi
  into : ∀ lo i, n < i → i ≤ m → Flow cs' lo (exprKey i) → Flow cs lo (exprKey i)

theorem Spares.mono {n n' m m' : Nat} (h : Spares n m vs vs' cs cs') (hn : n ≤ n') (hm : m' ≤ m) :
    Spares n' m' vs vs' cs cs' where
  vertices v hv i hi hi' := h.vertices v hv i (hn.trans_lt hi) (hi'.trans hm)
  keeps := h.keeps
  into lo i hi hi' := h.into lo i (hn.trans_lt hi) (hi'.trans hm)

mutual

theorem Mirrors.frame {n m : Nat} {e : Expr} :
    Mirrors prims p fn vs cs n m e → Spares n m vs vs' cs cs' → Mirrors prims p fn vs' cs' n m e
  | .intro ⟨v, hv, hkey, howner⟩ sources calls, h => by
      have hle := calls.le
      refine .intro ⟨v, h.vertices v hv _ (Nat.lt_succ_self n) hle hkey, hkey, howner⟩ ?_
        (calls.frame (h.mono (Nat.le_succ n) le_rfl))
      intro s
      rw [← sources s]
      exact and_congr_right fun _ ↦
        ⟨h.into s.key _ (Nat.lt_succ_self n) hle, h.keeps s.key _⟩

theorem MirrorsCalls.frame {n m : Nat} {calls : List Call} :
    MirrorsCalls prims p fn vs cs n m calls → Spares n m vs vs' cs cs' →
      MirrorsCalls prims p fn vs' cs' n m calls
  | .nil, _ => .nil
  | .cons func args calls, h =>
      .cons func (args.frame (h.mono le_rfl calls.le)) (calls.frame (h.mono args.le le_rfl))

theorem MirrorsArgs.frame {callee : String} {n m : Nat} {qs : List Param} {es : List Expr} :
    MirrorsArgs prims p fn vs cs callee n m qs es → Spares n m vs vs' cs cs' →
      MirrorsArgs prims p fn vs' cs' callee n m qs es
  | .nil, _ => .nil
  | .cons arg passed args, h =>
      .cons (arg.frame (h.mono le_rfl args.le)) (h.keeps _ _ passed)
        (args.frame (h.mono arg.lt.le le_rfl))

end

theorem MirrorsCalls.append {n k m : Nat} {calls rest : List Call} :
    MirrorsCalls prims p fn vs cs n k calls → MirrorsCalls prims p fn vs cs k m rest →
      MirrorsCalls prims p fn vs cs n m (calls ++ rest)
  | .nil, h => h
  | .cons func args calls, h => .cons func args (calls.append h)

/-! ### Steps of the generation -/

/-- The draft `d'` has some more constraints. Those that flow into level variables of expressions
do so for the one with the number `n`, where the sources are as listed, and for new ones. -/
structure Extends (p : Program) (n : Nat) (cs : List (Constraint Level)) (sources : List Slot)
    (d d' : Draft) : Prop where
  env : d'.env = d.env
  exprs_le : d.exprs ≤ d'.exprs
  constraints : d'.system.constraints = d.system.constraints ++ cs
  vertices : ∀ v ∈ d.system.vertices, ∀ i ≤ d.exprs, v.key = exprKey i → v ∈ d'.system.vertices
  into : ∀ lo i, Flow cs lo (exprKey i) → i = n ∨ d.exprs < i ∧ i ≤ d'.exprs
  sources : ∀ s, s ∈ p.slots ∧ Flow cs s.key (exprKey n) ↔ s ∈ sources

variable {d d' d₁ d₂ d₃ : Draft} {n : Nat} {sources sources' : List Slot}

theorem Extends.refl (p : Program) (n : Nat) (d : Draft) : Extends p n [] [] d d where
  env := rfl
  exprs_le := le_rfl
  constraints := (List.append_nil _).symm
  vertices _ hv _ _ _ := hv
  into _ _ h := absurd h Constraint.flow_nil
  sources s := by simp

theorem Extends.trans (h : Extends p n cs sources d₁ d₂) (h' : Extends p n cs' sources' d₂ d₃) :
    Extends p n (cs ++ cs') (sources ++ sources') d₁ d₃ where
  env := h'.env.trans h.env
  exprs_le := h.exprs_le.trans h'.exprs_le
  constraints := by rw [h'.constraints, h.constraints, List.append_assoc]
  vertices v hv i hi hkey :=
    h'.vertices v (h.vertices v hv i hi hkey) i (hi.trans h.exprs_le) hkey
  into lo i hflow := by
    have hle := h.exprs_le
    have hle' := h'.exprs_le
    rcases Constraint.flow_append.mp hflow with hflow | hflow
    · have hnum := h.into lo i hflow
      omega
    · have hnum := h'.into lo i hflow
      omega
  sources s := by
    rw [Constraint.flow_append, and_or_left, h.sources, h'.sources, List.mem_append]

theorem Extends.congr (h : Extends p n cs sources d d')
    (hsources : ∀ s, s ∈ sources ↔ s ∈ sources') : Extends p n cs sources' d d' :=
  { h with sources := fun s ↦ (h.sources s).trans (hsources s) }

/-- What is added later spares the level variables that are there. -/
theorem Extends.spares_old (h : Extends p n cs sources d d') {k : Nat} (hn : n ≤ k)
    (cs' : List (Constraint Level)) :
    Spares k d.exprs d.system.vertices d'.system.vertices cs' (cs' ++ cs) where
  vertices v hv i _ hi hkey := h.vertices v hv i hi hkey
  keeps _ _ hflow := Constraint.flow_append.mpr (Or.inl hflow)
  into lo i hi hi' hflow := by
    refine (Constraint.flow_append.mp hflow).resolve_right fun hnew ↦ ?_
    have hnum := h.into lo i hnew
    omega

/-- What has been added before has nothing to do with level variables that are new. -/
theorem Extends.spares_new (h : Extends p n cs sources d d') (hn : n ≤ d.exprs) {k : Nat}
    (vs : List Vertex) (cs' : List (Constraint Level)) :
    Spares d'.exprs k vs vs cs' (cs ++ cs') where
  vertices _ hv _ _ _ _ := hv
  keeps _ _ hflow := Constraint.flow_append.mpr (Or.inr hflow)
  into lo i hi _ hflow := by
    refine (Constraint.flow_append.mp hflow).resolve_left fun hold ↦ ?_
    have hle := h.exprs_le
    have hnum := h.into lo i hold
    omega

/-! ### Single constraints and level variables -/

theorem extends_add {c : Constraint Level}
    (hinto : ∀ lo i, Flow [c] lo (exprKey i) → i = n)
    (hsources : ∀ s, s ∈ p.slots ∧ Flow [c] s.key (exprKey n) ↔ s ∈ sources) :
    Extends p n [c] sources d { d with system := d.system.add c } where
  env := rfl
  exprs_le := le_rfl
  constraints := LevelSystem.constraints_add c
  vertices _ hv _ _ _ := LevelSystem.mem_vertices_add hv c
  into lo i hflow := Or.inl (hinto lo i hflow)
  sources := hsources

/-- A flow from something that has a level in the program. -/
theorem extends_flow (hp : p.Apart) {t : Slot} (ht : t ∈ p.slots) (rule : Rule) :
    Extends p n [⟨.named t.key, .named (exprKey n), rule.text⟩] [t] d
      (d.flow t.key (exprKey n) rule) := by
  refine extends_add (fun lo i hflow ↦ ?_) fun s ↦ ?_
  · exact exprKey_injective (Constraint.flow_singleton.mp hflow).2
  · rw [Constraint.flow_singleton, List.mem_singleton]
    constructor
    · rintro ⟨hs, hkey, -⟩
      exact hp.injective s hs t ht hkey
    · rintro rfl
      exact ⟨ht, rfl, rfl⟩

/-- A flow out of expressions. -/
theorem extends_flow_visible {hi : String} (hhi : Visible hi) (lo : String) (rule : Rule) :
    Extends p n [⟨.named lo, .named hi, rule.text⟩] [] d (d.flow lo hi rule) := by
  have hnot (lo' : String) (i : Nat) :
      ¬ Flow [⟨.named lo, .named hi, rule.text⟩] lo' (exprKey i) := fun hflow ↦
    hhi.2 i (Constraint.flow_singleton.mp hflow).2.symm
  refine extends_add (fun lo' i hflow ↦ absurd hflow (hnot lo' i)) fun s ↦ ?_
  exact iff_of_false (fun h ↦ hnot _ _ h.2) List.not_mem_nil

theorem exists_owner_of_addExpr {e : Expr} (h : d.addExpr e = .ok d') :
    (∃ v ∈ d'.system.vertices, v.key = exprKey (d.exprs + 1) ∧ v.isExpr = true ∧
      v.source = some (.expr e)) ∧ d'.exprs = d.exprs + 1 ∧ Extends p n [] [] d d' := by
  unfold addExpr at h
  split at h
  · cases h
  next t _ =>
  cases h
  refine ⟨?_, rfl, { Extends.refl p n d with
    exprs_le := Nat.le_succ _, constraints := ?_, vertices := ?_, into := ?_ }⟩
  · obtain ⟨v, hv, hkey⟩ := d.system.exists_mem_vertices_addVar d.nextKey ("`" ++ t ++ "`")
    have hexpr := LevelSystem.mem_vertices_modify_self hv fun v ↦ { v with isExpr := true }
    have hsource := LevelSystem.mem_vertices_modify_self hexpr fun v ↦
      { v with source := some (.expr e) }
    dsimp only at hsource
    rw [hkey] at hsource
    exact ⟨_, hsource, rfl, rfl, rfl⟩
  · exact (LevelSystem.constraints_addVar ..).trans (List.append_nil _).symm
  · intro v hv i hi hkey
    have hne : v.key ≠ d.nextKey := fun heq ↦ by
      have hnum := exprKey_injective (hkey.symm.trans heq)
      omega
    refine LevelSystem.mem_vertices_modify_of_ne ?_ hne _
    refine LevelSystem.mem_vertices_modify_of_ne ?_ hne _
    exact LevelSystem.mem_vertices_addVar hv _ _
  · exact fun lo i hflow ↦ absurd hflow Constraint.flow_nil

end Draft

namespace Env

/-- All the variables are variables of the program. -/
def Within (p : Program) (env : Env) : Prop :=
  ∀ id v, OrderedMap.get? env id = some v → v.id = id ∧ Slot.var id ∈ p.slots

end Env

namespace Draft

/-! ### Walking through an expression -/

/-- The draft `d'` has the constraints for variables that are read, and for calls. -/
def Gathers (prims : Primitives) (p : Program) (fn : String) (n : Nat) (vars : List String)
    (calls : List Call) (d d' : Draft) : Prop :=
  ∃ cs, Extends p n cs (Deps.slots fn ⟨vars, calls⟩) d d' ∧
    MirrorsCalls prims p fn d'.system.vertices cs d.exprs d'.exprs calls

variable {vars vars' : List String} {calls calls' : List Call}

theorem Gathers.refl (d : Draft) : Gathers prims p fn n [] [] d d :=
  ⟨[], .refl p n d, .nil⟩

theorem Gathers.env (h : Gathers prims p fn n vars calls d d') : d'.env = d.env := by
  obtain ⟨cs, hcs, -⟩ := h
  exact hcs.env

theorem Gathers.exprs_le (h : Gathers prims p fn n vars calls d d') : d.exprs ≤ d'.exprs := by
  obtain ⟨cs, hcs, -⟩ := h
  exact hcs.exprs_le

theorem Gathers.trans (hn : n ≤ d₁.exprs) (h : Gathers prims p fn n vars calls d₁ d₂)
    (h' : Gathers prims p fn n vars' calls' d₂ d₃) :
    Gathers prims p fn n (vars ++ vars') (calls ++ calls') d₁ d₃ := by
  obtain ⟨cs, hcs, hcalls⟩ := h
  obtain ⟨cs', hcs', hcalls'⟩ := h'
  refine ⟨cs ++ cs', (hcs.trans hcs').congr fun s ↦ ?_, ?_⟩
  · simp only [Deps.slots, List.map_append, List.mem_append]
    tauto
  · -- Each half is about numbers that the other half leaves alone.
    exact (hcalls.frame (hcs'.spares_old hn cs)).append (hcalls'.frame (hcs.spares_new hn _ cs'))

theorem gathers_var (hp : p.Apart) (hd : Env.Within p d.env) {x : String} {v : Var}
    (hv : d.find? fn x = some v) (rule : Rule) :
    Gathers prims p fn n [x] [] d (d.flow v.key (exprKey n) rule) := by
  obtain ⟨hid, hslot⟩ := hd ⟨fn, x⟩ v hv
  have hkey : v.key = (Slot.var ⟨fn, x⟩).key := congrArg VarId.key hid
  rw [hkey]
  exact ⟨_, extends_flow hp hslot rule, .nil⟩

/-- The bound for a random number generator is no flow. -/
theorem gathers_rng (prims : Primitives) (p : Program) (fn : String) (n : Nat) (d : Draft)
    (key callee : String) : Gathers prims p fn n [] [] d
      (if Primitives.isRng callee then d.atLeast key .genquant .rng else d) := by
  split
  · have hnot (lo hi : String) :
        ¬ Flow [⟨.const .genquant, .named key, Rule.rng.text⟩] lo hi :=
      Constraint.not_flow_const (by decide)
    refine ⟨_, extends_add (fun lo i hflow ↦ absurd hflow (hnot _ _)) fun s ↦ ?_, .nil⟩
    exact iff_of_false (fun h ↦ hnot _ _ h.2) List.not_mem_nil
  · exact .refl d

/-- A user call is not entered. It adds what its arguments add, and a flow from the result. -/
theorem gathers_user (hp : p.Apart) {callee : String} {args : List Expr} {f : Func}
    (hf : (p.globals prims).func? callee = some f) (hn : n ≤ d₁.exprs)
    (h : Extends p n cs [] d₁ d₂)
    (hargs : MirrorsArgs prims p fn d₂.system.vertices cs f.name d₁.exprs d₂.exprs f.params args) :
    Gathers prims p fn n [] [⟨callee, args⟩] d₁
      (d₂.flow (VarId.resultKey f.name) (exprKey n) .result) := by
  obtain ⟨hname, hmem⟩ := Func.of_named?_eq_some hf
  have hflow := extends_flow (d := d₂) (n := n) hp (Program.result_mem_slots hmem) .result
  refine ⟨_, (h.trans hflow).congr fun s ↦ ?_, ?_⟩
  · simp [Deps.slots, hname]
  · exact .cons hf (hargs.frame (hflow.spares_old hn cs)) .nil

/-- The level variable of an expression, once all of the expression has been read. -/
theorem exists_mirrors {e : Expr} (hadd : d.addExpr e = .ok d₁)
    (h : Gathers prims p fn (d.exprs + 1) (e.reads (p.globals prims).isUser)
      (e.outerCalls (p.globals prims).isUser) d₁ d₂) (hn : n ≤ d.exprs) :
    ∃ cs, Extends p n cs [] d d₂ ∧
      Mirrors prims p fn d₂.system.vertices cs d.exprs d₂.exprs e := by
  obtain ⟨cs, hcs, hcalls⟩ := h
  obtain ⟨⟨v, hv, hkey, howner⟩, hexprs, hnew⟩ := exists_owner_of_addExpr (p := p) (n := n) hadd
  have hle := hcs.exprs_le
  rw [hexprs] at hle hcalls
  have hinto (lo : String) (i : Nat) (hflow : Flow cs lo (exprKey i)) :
      d.exprs < i ∧ i ≤ d₂.exprs := by
    have hnum := hcs.into lo i hflow
    omega
  refine ⟨cs, ⟨hcs.env.trans hnew.env, by omega, ?_, ?_, fun lo i hflow ↦ ?_, fun s ↦ ?_⟩, ?_⟩
  · rw [hcs.constraints, hnew.constraints, List.append_nil]
  · intro w hw i hi hwkey
    exact hcs.vertices w (hnew.vertices w hw i hi hwkey) i (by omega) hwkey
  · exact Or.inr (hinto lo i hflow)
  · -- The level variable with the number `n` is an old one.
    refine iff_of_false (fun h ↦ ?_) List.not_mem_nil
    have hnum := hinto _ n h.2
    omega
  · refine .intro ⟨v, hcs.vertices v hv _ hexprs.ge hkey, hkey, howner⟩ (fun s ↦ ?_) ?_
    · rw [hcs.sources]
      simp only [Deps.slots, Globals.calls_deps, Globals.vars_deps, List.mem_append, List.mem_map,
        List.mem_eraseDups]
    · rw [Globals.calls_deps]
      exact hcalls

theorem exists_mirrors_of_expr {e : Expr} {rule : Rule} {key : String} (hd : Env.Within p d.env)
    (hn : n ≤ d.exprs)
    (hreads : ∀ {d₁ d₂ : Draft}, Env.Within p d₁.env → d.exprs + 1 ≤ d₁.exprs →
      reads (p.globals prims) fn e (exprKey (d.exprs + 1)) rule e d₁ = .ok d₂ →
      Gathers prims p fn (d.exprs + 1) (e.reads (p.globals prims).isUser)
        (e.outerCalls (p.globals prims).isUser) d₁ d₂)
    (h : expr (p.globals prims) fn e rule d = .ok (key, d')) :
    key = exprKey (d.exprs + 1) ∧ ∃ cs, Extends p n cs [] d d' ∧
      Mirrors prims p fn d'.system.vertices cs d.exprs d'.exprs e := by
  obtain ⟨d₁, hadd, h⟩ := Fault.bind_eq_ok_iff.mp h
  obtain ⟨d₂, hok, h⟩ := Fault.bind_eq_ok_iff.mp h
  cases h
  obtain ⟨-, hexprs, hopen⟩ := exists_owner_of_addExpr (p := p) (n := n) hadd
  exact ⟨rfl, exists_mirrors hadd (hreads (hopen.env ▸ hd) hexprs.ge hok) hn⟩

/-- An argument flows into its parameter before the next one is read. -/
theorem exists_mirrorsArgs_cons {callee : String} {q : Param} {qs : List Param} {e : Expr}
    {es : List Expr} (hn : n ≤ d₁.exprs) (hq : Visible (VarId.key ⟨callee, q.name⟩))
    (h : Extends p n cs [] d₁ d₂)
    (harg : Mirrors prims p fn d₂.system.vertices cs d₁.exprs d₂.exprs e)
    (h' : Extends p n cs' []
      (d₂.flow (exprKey (d₁.exprs + 1)) (VarId.key ⟨callee, q.name⟩) .argument) d₃)
    (hargs : MirrorsArgs prims p fn d₃.system.vertices cs' callee d₂.exprs d₃.exprs qs es) :
    ∃ cs, Extends p n cs [] d₁ d₃ ∧
      MirrorsArgs prims p fn d₃.system.vertices cs callee d₁.exprs d₃.exprs (q :: qs)
        (e :: es) := by
  have hflow := extends_flow_visible (p := p) (n := n) (d := d₂) hq (exprKey (d₁.exprs + 1))
    .argument
  have hfirst := h.trans hflow
  refine ⟨_, hfirst.trans h', .cons ?_ ?_ (hargs.frame (hfirst.spares_new hn _ cs'))⟩
  · exact (harg.frame (hflow.spares_old hn cs)).frame (h'.spares_old hn _)
  · refine Constraint.flow_append.mpr (Or.inl (Constraint.flow_append.mpr (Or.inr ?_)))
    exact Constraint.flow_singleton.mpr ⟨rfl, rfl⟩

mutual

theorem gathers_of_reads (hp : p.Apart) {whole : Expr} {rule : Rule} :
    ∀ {e : Expr} {n : Nat} {d d' : Draft}, Env.Within p d.env → n ≤ d.exprs →
      reads (p.globals prims) fn whole (exprKey n) rule e d = .ok d' →
      Gathers prims p fn n (e.reads (p.globals prims).isUser)
        (e.outerCalls (p.globals prims).isUser) d d'
  | .hole, n, d, d', _, _, h => by
      cases h
      exact .refl d
  | .lit .., n, d, d', _, _, h => by
      cases h
      exact .refl d
  | .var x, n, d, d', hd, _, h => by
      rw [reads] at h
      split at h
      · cases h
      · next v hv =>
          cases h
          exact gathers_var hp hd hv rule
  | .unary _ x, n, d, d', hd, hn, h => gathers_of_reads hp (e := x) hd hn h
  | .binary _ x y, n, d, d', hd, hn, h => by
      obtain ⟨d₁, hx, hy⟩ := Fault.bind_eq_ok_iff.mp h
      have hx' := gathers_of_reads hp hd hn hx
      exact hx'.trans hn (gathers_of_reads hp (hx'.env ▸ hd) (hn.trans hx'.exprs_le) hy)
  | .index x indices, n, d, d', hd, hn, h => by
      obtain ⟨d₁, hx, hi⟩ := Fault.bind_eq_ok_iff.mp h
      have hx' := gathers_of_reads hp hd hn hx
      exact hx'.trans hn (gathers_of_readsAll hp (hx'.env ▸ hd) (hn.trans hx'.exprs_le) hi)
  | .call callee args, n, d, d', hd, hn, h => by
      rw [reads] at h
      cases hf : (p.globals prims).func? callee with
      | none =>
          have huser : ¬ (p.globals prims).isUser callee = true := by simp [Globals.isUser, hf]
          rw [Expr.reads, if_neg huser, Expr.outerCalls, if_neg huser]
          simp only [hf] at h
          split at h
          · have hrng := gathers_rng prims p fn n d (exprKey n) callee
            exact hrng.trans hn
              (gathers_of_readsAll hp (hrng.env ▸ hd) (hn.trans hrng.exprs_le) h)
          · cases h
      | some f =>
          have huser : (p.globals prims).isUser callee = true := by simp [Globals.isUser, hf]
          rw [Expr.reads, if_pos huser, Expr.outerCalls, if_pos huser]
          simp only [hf] at h
          split at h
          · next hlen =>
              obtain ⟨d₁, hpasses, h⟩ := Fault.bind_eq_ok_iff.mp h
              cases h
              have hvisible := (hp.calleesVisible prims f (Func.of_named?_eq_some hf).2).2
              obtain ⟨cs, hcs, hargs⟩ := exists_mirrorsArgs hp hlen hvisible hd hn hpasses
              exact gathers_user hp hf hn hcs hargs
          · cases h

theorem gathers_of_readsAll (hp : p.Apart) {whole : Expr} {rule : Rule} :
    ∀ {es : List Expr} {n : Nat} {d d' : Draft}, Env.Within p d.env → n ≤ d.exprs →
      readsAll (p.globals prims) fn whole (exprKey n) rule es d = .ok d' →
      Gathers prims p fn n (Expr.readsAll (p.globals prims).isUser es)
        (Expr.outerCallsAll (p.globals prims).isUser es) d d'
  | [], n, d, d', _, _, h => by
      cases h
      exact .refl d
  | e :: es, n, d, d', hd, hn, h => by
      obtain ⟨d₁, he, hes⟩ := Fault.bind_eq_ok_iff.mp h
      have he' := gathers_of_reads hp hd hn he
      exact he'.trans hn (gathers_of_readsAll hp (he'.env ▸ hd) (hn.trans he'.exprs_le) hes)

theorem exists_mirrorsArgs (hp : p.Apart) {callee : String} :
    ∀ {qs : List Param} {es : List Expr} {n : Nat} {d d' : Draft}, es.length = qs.length →
      (∀ q ∈ qs, Visible (VarId.key ⟨callee, q.name⟩)) → Env.Within p d.env → n ≤ d.exprs →
      passes (p.globals prims) fn callee qs es d = .ok d' →
      ∃ cs, Extends p n cs [] d d' ∧
        MirrorsArgs prims p fn d'.system.vertices cs callee d.exprs d'.exprs qs es
  | [], [], n, d, d', _, _, _, _, h => by
      cases h
      exact ⟨[], .refl p n d, .nil⟩
  | q :: qs, e :: es, n, d, d', hlen, hqs, hd, hn, h => by
      rw [List.forall_mem_cons] at hqs
      rw [passes_cons] at h
      obtain ⟨⟨key, d₁⟩, hexpr, h⟩ := Fault.bind_eq_ok_iff.mp h
      obtain ⟨rfl, cs, hcs, harg⟩ := exists_mirrors_of_expr hd hn (gathers_of_reads hp) hexpr
      have hd₁ : Env.Within p d₁.env := hcs.env ▸ hd
      obtain ⟨cs', hcs', hargs⟩ := exists_mirrorsArgs hp (Nat.succ.inj hlen) hqs.2
        (d := d₁.flow _ _ _) hd₁ (hn.trans hcs.exprs_le) h
      exact exists_mirrorsArgs_cons hn hqs.1 hcs harg hcs' hargs

end

end Draft

end Stratify
