import Stratify.Placement
import Stratify.Proofs.Typing.Mirroring
import Stratify.Proofs.Typing.Principal

/-!
# Dependencies of the expressions of a program

If all names of a program are identifiers, then whatever expression is accepted in one of its
scopes, the constraints for it mirror its dependencies. A scope is an environment that comes up
while the program is checked; it only has variables of the program, whose keys are different.
-/

namespace Stratify

namespace Expr

mutual

/-- Without user calls, nothing that an expression reads is left to a call. -/
theorem reads_of_callFree {isUser : String → Bool} :
    ∀ {e : Expr}, (∀ c ∈ e.calls, isUser c.fn = false) →
      e.reads isUser = e.reads Deps.noUser ∧ e.outerCalls isUser = []
  | hole, _ => ⟨rfl, rfl⟩
  | lit .., _ => ⟨rfl, rfl⟩
  | var _, _ => ⟨rfl, rfl⟩
  | unary _ x, h => reads_of_callFree (e := x) h
  | binary _ x y, h => by
      rw [calls, List.forall_mem_append] at h
      obtain ⟨hx, hx'⟩ := reads_of_callFree h.1
      obtain ⟨hy, hy'⟩ := reads_of_callFree h.2
      exact ⟨congrArg₂ (· ++ ·) hx hy, by rw [outerCalls, hx', hy', List.append_nil]⟩
  | index x indices, h => by
      rw [calls, List.forall_mem_append] at h
      obtain ⟨hx, hx'⟩ := reads_of_callFree h.1
      obtain ⟨hi, hi'⟩ := readsAll_of_callFree h.2
      exact ⟨congrArg₂ (· ++ ·) hx hi, by rw [outerCalls, hx', hi', List.append_nil]⟩
  | call callee args, h => by
      rw [calls, List.forall_mem_append, List.forall_mem_singleton] at h
      obtain ⟨hargs, hargs'⟩ := readsAll_of_callFree h.1
      have hcallee : ¬ isUser callee = true := Bool.eq_false_iff.mp h.2
      rw [reads, if_neg hcallee, outerCalls, if_neg hcallee]
      exact ⟨hargs, hargs'⟩

theorem readsAll_of_callFree {isUser : String → Bool} :
    ∀ {es : List Expr}, (∀ c ∈ callsAll es, isUser c.fn = false) →
      readsAll isUser es = readsAll Deps.noUser es ∧ outerCallsAll isUser es = []
  | [], _ => ⟨rfl, rfl⟩
  | e :: es, h => by
      rw [callsAll, List.forall_mem_append] at h
      obtain ⟨he, he'⟩ := reads_of_callFree h.1
      obtain ⟨hes, hes'⟩ := readsAll_of_callFree h.2
      exact ⟨congrArg₂ (· ++ ·) he hes, by rw [outerCallsAll, he', hes', List.append_nil]⟩

end

end Expr

/-! ### Scopes of a program -/

namespace Program

/-- The names of the functions with their statements; the program itself has the empty name. -/
def scopes (p : Program) : List (String × List Stmt) :=
  ("", p.stmts) :: p.funcs.map fun f ↦ (f.name, f.stmts)

theorem var_mem_slots_of_mem_scopes {p : Program} {fn x : String} {ss : List Stmt}
    (h : (fn, ss) ∈ p.scopes) (hx : x ∈ Stmt.declNames (Stmt.flatten ss)) :
    Slot.var ⟨fn, x⟩ ∈ p.slots := by
  rcases List.mem_cons.mp h with heq | hmem
  · cases heq
    exact var_mem_slots hx
  · obtain ⟨f, hf, heq⟩ := List.mem_map.mp hmem
    cases heq
    exact local_mem_slots hf (List.mem_append_right _ hx)

end Program

namespace Env

/-- Environments that come up while a program is checked: that with the parameters of all the
functions, and then whatever statements of the program make of it. -/
inductive Reached (prims : Primitives) (p : Program) : Env → Prop
  | headers {d : Draft} (h : Draft.headers p.funcs .empty = .ok d) : Reached prims p d.env
  | stmt {fn : String} {ss : List Stmt} {s : Stmt} {d d' : Draft} (hd : Reached prims p d.env)
      (hscope : (fn, ss) ∈ p.scopes) (hs : s ∈ Stmt.flatten ss)
      (h : Draft.stmt (p.globals prims) fn s d = .ok d') : Reached prims p d'.env

variable {p : Program} {env env' : Env}

theorem Within.declare? (h : Within p env) {v : Var} (hv : Slot.var v.id ∈ p.slots)
    (hdeclare : Env.declare? env v = some env') : Within p env' := by
  rintro ⟨fn, x⟩ w hw
  have hfind : Env.find? env' fn x = some w := hw
  rw [find?_declare? hdeclare] at hfind
  split at hfind
  · next heq =>
      cases hfind
      exact ⟨heq.symm, heq ▸ hv⟩
  · exact h _ w hfind

theorem Within.markAssigned (h : Within p env) {id : VarId} {v : Var}
    (hv : OrderedMap.get? env id = some v) : Within p (Env.markAssigned env v) := by
  rintro ⟨fn, x⟩ w hw
  have hfind : Env.find? (Env.markAssigned env v) fn x = some w := hw
  rw [find?_markAssigned] at hfind
  split at hfind
  · next heq =>
      cases hfind
      obtain ⟨hid, hslot⟩ := h id v hv
      exact ⟨heq.symm, by rwa [heq, hid]⟩
  · exact h _ w hfind

end Env

namespace Draft

variable {prims : Primitives} {p : Program} {fn : String} {d d' : Draft}

theorem within_of_params {f : Func} (hf : f ∈ p.funcs) {qs : List Param}
    (hqs : ∀ q ∈ qs, q ∈ f.params) (hd : Env.Within p d.env) (h : params f qs d = .ok d') :
    Env.Within p d'.env := by
  induction qs generalizing d with
  | nil =>
      cases h
      exact hd
  | cons q qs ih =>
      rw [List.forall_mem_cons] at hqs
      rw [params] at h
      split at h
      · cases h
      · next env henv =>
          have hslot : Slot.var ⟨f.name, q.name⟩ ∈ p.slots :=
            Program.local_mem_slots hf (List.mem_append_left _ (List.mem_map_of_mem hqs.1))
          exact ih hqs.2 (hd.declare? hslot henv) h

theorem within_of_headers {fs : List Func} (hfs : ∀ f ∈ fs, f ∈ p.funcs)
    (hd : Env.Within p d.env) (h : headers fs d = .ok d') : Env.Within p d'.env := by
  induction fs generalizing d with
  | nil =>
      cases h
      exact hd
  | cons f fs ih =>
      rw [List.forall_mem_cons] at hfs
      obtain ⟨d₁, hheader, h⟩ := Fault.bind_eq_ok_iff.mp h
      obtain ⟨d₂, hparams, hheader⟩ := Fault.bind_eq_ok_iff.mp hheader
      cases hheader
      have hd₂ := within_of_params hfs.1 (fun _ hq ↦ hq) hd hparams
      exact ih (d := d₂.addVar _ _ _) hfs.2 hd₂ h

theorem env_of_expr (hp : p.Apart) (hd : Env.Within p d.env) {e : Expr} {rule : Rule}
    {key : String} (h : expr (p.globals prims) fn e rule d = .ok (key, d')) : d'.env = d.env := by
  obtain ⟨-, cs, hcs, -⟩ := exists_mirrors_of_expr hd le_rfl (gathers_of_reads hp) h
  exact hcs.env

theorem env_of_sampleArgs (hp : p.Apart) (hd : Env.Within p d.env) {es : List Expr}
    (h : sampleArgs (p.globals prims) fn es d = .ok d') : d'.env = d.env := by
  induction es generalizing d with
  | nil =>
      cases h
      rfl
  | cons e es ih =>
      obtain ⟨⟨key, d₁⟩, hexpr, h⟩ := Fault.bind_eq_ok_iff.mp h
      have henv := env_of_expr hp hd hexpr
      have hd₁ : Env.Within p d₁.env := henv ▸ hd
      exact (ih (d := d₁.atMost _ _ _) hd₁ h).trans henv

theorem within_of_declare (hd : Env.Within p d.env) {s : Stmt} {v : Var}
    (hv : Slot.var v.id ∈ p.slots) (h : declare s v d = .ok d') : Env.Within p d'.env := by
  unfold declare at h
  split at h
  · cases h
  · next env henv =>
      cases h
      exact hd.declare? hv henv

theorem within_of_decl (hp : p.Apart) (hd : Env.Within p d.env) {type x : String} {data : Bool}
    {init : Option Expr} (hslot : Slot.var ⟨fn, x⟩ ∈ p.slots)
    (h : decl (p.globals prims) fn type x data init d = .ok d') : Env.Within p d'.env := by
  unfold decl at h
  split at h
  · cases h
  split at h
  · cases h
  cases init with
  | none => exact within_of_declare hd hslot h
  | some e =>
      obtain ⟨⟨key, d₁⟩, hexpr, h⟩ := Fault.bind_eq_ok_iff.mp h
      obtain ⟨d₂, hdeclare, h⟩ := Fault.bind_eq_ok_iff.mp h
      cases h
      have hd₁ : Env.Within p d₁.env := env_of_expr hp hd hexpr ▸ hd
      change Env.Within p d₂.env
      exact within_of_declare hd₁ hslot hdeclare

theorem within_of_stmt (hp : p.Apart) (hd : Env.Within p d.env) {s : Stmt}
    (hflat : s.isFlat = true) (hslot : ∀ x ∈ s.declName?, Slot.var ⟨fn, x⟩ ∈ p.slots)
    (h : stmt (p.globals prims) fn s d = .ok d') : Env.Within p d'.env := by
  cases s with
  | hole => cases h
  | block list => cases hflat
  | func name qs body result => cases h
  | decl type x data init => exact within_of_decl hp hd (hslot x rfl) h
  | assign x e =>
      rw [stmt, assign] at h
      split at h
      · cases h
      next v hv =>
      split at h
      · cases h
      obtain ⟨⟨key, d₁⟩, hexpr, h⟩ := Fault.bind_eq_ok_iff.mp h
      cases h
      have henv := env_of_expr hp hd hexpr
      have hd₁ : Env.Within p d₁.env := henv ▸ hd
      have hv₁ : OrderedMap.get? d₁.env ⟨fn, x⟩ = some v := henv ▸ hv
      exact hd₁.markAssigned hv₁
  | sample x dist args =>
      rw [stmt, sample] at h
      split at h
      · cases h
      next v hv =>
      split at h
      · have henv := env_of_sampleArgs (d := d.atMost _ _ _) hp hd h
        exact henv ▸ hd
      · cases h

end Draft

namespace Env

variable {prims : Primitives} {p : Program} {env : Env}

theorem Reached.within (hp : p.Apart) (h : Reached prims p env) : Within p env := by
  induction h with
  | headers h =>
      exact Draft.within_of_headers (fun _ hf ↦ hf) (fun _ _ hv ↦ (by cases hv)) h
  | stmt _ hscope hs h ih =>
      refine Draft.within_of_stmt hp ih (Stmt.isFlat_flatten _ _ hs) (fun x hx ↦ ?_) h
      exact Program.var_mem_slots_of_mem_scopes hscope (List.mem_filterMap.mpr ⟨_, hs, hx⟩)

theorem Reached.stmts {fn : String} {ss ts : List Stmt} {d d' : Draft}
    (hd : Reached prims p d.env) (hscope : (fn, ss) ∈ p.scopes)
    (hts : ∀ t ∈ ts, t ∈ Stmt.flatten ss)
    (h : Draft.stmts (p.globals prims) fn ts d = .ok d') : Reached prims p d'.env := by
  induction ts generalizing d with
  | nil =>
      cases h
      exact hd
  | cons t ts ih =>
      rw [List.forall_mem_cons] at hts
      obtain ⟨d₁, ht, h⟩ := Fault.bind_eq_ok_iff.mp h
      exact ih (.stmt hd hscope hts.1 ht) hts.2 h

theorem Reached.scope {fn : String} {ss : List Stmt} {d d' : Draft} (hd : Reached prims p d.env)
    (hscope : (fn, ss) ∈ p.scopes) (h : Draft.stmts (p.globals prims) fn ss d = .ok d') :
    Reached prims p d'.env := by
  rw [Draft.stmts_flatten] at h
  exact hd.stmts hscope (fun _ ht ↦ ht) h

theorem Reached.bodies (hp : p.Apart) {fs : List Func} (hfs : ∀ f ∈ fs, f ∈ p.funcs)
    {d d' : Draft} (hd : Reached prims p d.env)
    (h : Draft.bodies (p.globals prims) fs d = .ok d') : Reached prims p d'.env := by
  induction fs generalizing d with
  | nil =>
      cases h
      exact hd
  | cons f fs ih =>
      rw [List.forall_mem_cons] at hfs
      obtain ⟨d₁, hbody, h⟩ := Fault.bind_eq_ok_iff.mp h
      obtain ⟨d₂, hstmts, hbody⟩ := Fault.bind_eq_ok_iff.mp hbody
      obtain ⟨⟨key, d₃⟩, hresult, hbody⟩ := Fault.bind_eq_ok_iff.mp hbody
      cases hbody
      have hscope : (f.name, f.stmts) ∈ p.scopes :=
        List.mem_cons_of_mem _ (List.mem_map_of_mem hfs.1)
      have hd₂ := hd.scope hscope hstmts
      have hd₃ : Reached prims p d₃.env := Draft.env_of_expr hp (hd₂.within hp) hresult ▸ hd₂
      exact ih (d := d₃.flow _ _ _) hfs.2 hd₃ h

/-- The environment of an accepted program is the last one that comes up. -/
theorem reached_ofProgram (hp : p.Apart) {d : Draft} (h : Draft.ofProgram prims p = .ok d) :
    Reached prims p d.env := by
  obtain ⟨_, -, h⟩ := Fault.bind_eq_ok_iff.mp h
  obtain ⟨d₁, hheaders, h⟩ := Fault.bind_eq_ok_iff.mp h
  obtain ⟨d₂, hbodies, h⟩ := Fault.bind_eq_ok_iff.mp h
  obtain ⟨d₃, hstmts, h⟩ := Fault.bind_eq_ok_iff.mp h
  cases h
  have hd₂ := (Reached.headers hheaders).bodies hp (fun _ hf ↦ hf) hbodies
  have hd₃ := hd₂.scope (List.mem_cons_self ..) hstmts
  have henv (fs : List Func) (d : Draft) :
      (fs.foldl (fun d f ↦ d.varRules f.name) d).env = d.env := by
    induction fs generalizing d with
    | nil => rfl
    | cons f fs ih => exact (ih _).trans (Draft.env_varRules f.name)
  rw [henv, Draft.env_varRules]
  exact hd₃

end Env

namespace Draft

variable {prims : Primitives} {p : Program} {fn : String} {d d' : Draft}

/-- Type checking and the collection of dependencies agree. If names are identifiers, an expression
that is accepted anywhere in a program gets a level variable into which information flows exactly
from the variables and the results that the expression depends on. The same holds of every argument
of the calls it depends on and of the arguments in these, and each of them flows into its parameter.
Without user calls, the variables are those that placement checks again. -/
theorem expr_mirrors_deps (hp : p.NamedByIdentifiers) (hd : Env.Reached prims p d.env) {e : Expr}
    {rule : Rule} {key : String} (h : expr (p.globals prims) fn e rule d = .ok (key, d')) :
    key = exprKey (d.exprs + 1) ∧
      (∃ cs, d'.system.constraints = d.system.constraints ++ cs ∧
        Mirrors prims p fn d'.system.vertices cs d.exprs d'.exprs e) ∧
      ((∀ c ∈ e.calls, (p.globals prims).isUser c.fn = false) →
        ((p.globals prims).deps e).calls = [] ∧ ((p.globals prims).deps e).vars = e.idents ∧
          ∀ m target l node, Placement.checkReads m target l node [e] =
            Placement.checkFlows m target l node ((p.globals prims).deps e).vars) := by
  obtain ⟨hkey, cs, hcs, hmirrors⟩ := exists_mirrors_of_expr (hd.within hp.apart) le_rfl
    (gathers_of_reads hp.apart) h
  refine ⟨hkey, ⟨cs, hcs.constraints, hmirrors⟩, fun hcalls ↦ ?_⟩
  obtain ⟨hreads, houter⟩ := Expr.reads_of_callFree hcalls
  have hvars : ((p.globals prims).deps e).vars = e.idents := by
    rw [Globals.vars_deps, hreads, Expr.idents, Deps.ofExprs, Expr.readsAll, Expr.readsAll,
      List.append_nil]
  refine ⟨(Globals.calls_deps _ e).trans houter, hvars, fun m target l node ↦ ?_⟩
  rw [hvars]
  rfl

/-- A call in which an argument is a call as well. -/
def shiftedTwice : Expr :=
  .binary .add (.var "theta")
    (.call "shifted" [.call "twice" [.var "mu"], .call "exp" [.var "obs"]])

theorem expr_mirrors_deps_shiftedTwice :
    ∃ d key d', ofProgram (.withExtra [] []) Program.shrinkage = .ok d ∧
      expr (Program.shrinkage.globals (.withExtra [] [])) "" shiftedTwice .assignment d =
        .ok (key, d') ∧
      key = exprKey (d.exprs + 1) ∧
      ∃ cs, d'.system.constraints = d.system.constraints ++ cs ∧
        Mirrors (.withExtra [] []) Program.shrinkage "" d'.system.vertices cs d.exprs d'.exprs
          shiftedTwice := by
  have hok : (ofProgram (.withExtra [] []) Program.shrinkage >>=
      expr (Program.shrinkage.globals (.withExtra [] [])) "" shiftedTwice .assignment).toBool =
        true := by
    decide +kernel
  cases hr : ofProgram (.withExtra [] []) Program.shrinkage >>=
      expr (Program.shrinkage.globals (.withExtra [] [])) "" shiftedTwice .assignment with
  | error fault =>
      rw [hr] at hok
      cases hok
  | ok r =>
      obtain ⟨d, hd, hexpr⟩ := Fault.bind_eq_ok_iff.mp hr
      have hp : Program.shrinkage.NamedByIdentifiers := by decide
      obtain ⟨hkey, hmirrors, -⟩ :=
        expr_mirrors_deps hp (Env.reached_ofProgram hp.apart hd) hexpr
      exact ⟨d, r.1, r.2, hd, hexpr, hkey, hmirrors⟩

/-- The variables in the arguments are not among the dependencies. -/
example : ((Program.shrinkage.globals (.withExtra [] [])).deps shiftedTwice).slots "" =
    [.var ⟨"", "theta"⟩, .result "shifted"] := by
  decide +kernel

end Draft

end Stratify
