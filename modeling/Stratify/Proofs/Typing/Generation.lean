import Stratify.Proofs.Constraint.Building
import Stratify.Proofs.Typing.Flow
import Stratify.Proofs.Typing.Keys

/-!
# The constraints of expressions

Generating constraints succeeds exactly on what is well scoped. An assignment of levels to keys
that satisfies the constraints obeys the rules of the language, and one that obeys them can be
extended to the keys of the expressions, which no rule mentions, so that it satisfies all
constraints. Each step of the generation is described by what it adds.
-/

namespace Stratify

/-- A computation whose result has passed a test has a result. -/
theorem exists_ok_of_any {α ε : Type} {r : Except ε α} {P : α → Bool}
    (h : r.toOption.any P = true) : ∃ a, r = .ok a ∧ P a = true := by
  cases r with
  | error e => cases h
  | ok a => exact ⟨a, rfl, h⟩

/-- A check that succeeds exactly under a condition, with a result as described. Its failures are
the program's fault. -/
def Decides {α : Type} (ok : Prop) (P : α → Prop) (r : Except Fault α) : Prop :=
  (ok ∧ ∃ a, r = .ok a ∧ P a) ∨
    (¬ ok ∧ ∃ d, r = .error (.report d) ∧ d.issue.kind ≠ .internalInvariantViolation)

namespace Decides

variable {α β : Type} {ok ok' : Prop} {P Q : α → Prop} {R : β → Prop}

theorem of_ok {r : Except Fault α} (hok : ok) {a : α} (hr : r = .ok a) (ha : P a) :
    Decides ok P r :=
  Or.inl ⟨hok, a, hr, ha⟩

theorem of_error {r : Except Fault α} (hok : ¬ ok) {d : Diagnostic} (hr : r = .error (.report d))
    (hkind : d.issue.kind ≠ .internalInvariantViolation) : Decides ok P r :=
  Or.inr ⟨hok, d, hr, hkind⟩

theorem congr {r : Except Fault α} (h : Decides ok P r) (hok : ok ↔ ok')
    (hP : ok → ∀ a, P a → Q a) : Decides ok' Q r := by
  rcases h with ⟨hk, a, hr, ha⟩ | ⟨hk, herr⟩
  · exact Or.inl ⟨hok.mp hk, a, hr, hP hk a ha⟩
  · exact Or.inr ⟨fun h ↦ hk (hok.mpr h), herr⟩

theorem bind {r : Except Fault α} {f : α → Except Fault β} (h : Decides ok P r)
    (hf : ok → ∀ a, P a → Decides ok' R (f a)) : Decides (ok ∧ ok') R (r >>= f) := by
  rcases h with ⟨hk, a, rfl, ha⟩ | ⟨hk, d, rfl, hkind⟩
  · rcases hf hk a ha with ⟨hk', b, hb, hR⟩ | ⟨hk', d, hd, hkind⟩
    · exact Or.inl ⟨⟨hk, hk'⟩, b, hb, hR⟩
    · exact Or.inr ⟨fun h ↦ hk' h.2, d, hd, hkind⟩
  · exact Or.inr ⟨fun h ↦ hk h.1, d, rfl, hkind⟩

/-- A last step that cannot fail. -/
theorem bind_ok {r : Except Fault α} {f : α → Except Fault β} (h : Decides ok P r)
    (hf : ok → ∀ a, P a → ∃ b, f a = .ok b ∧ R b) : Decides ok R (r >>= f) := by
  refine (h.bind fun hk a ha ↦ ?_).congr (iff_of_eq (and_true ok)) fun _ _ hb ↦ hb
  obtain ⟨b, hb, hR⟩ := hf hk a ha
  exact of_ok trivial hb hR

theorem ok_iff {r : Except Fault α} (h : Decides ok P r) : (∃ a, r = .ok a) ↔ ok := by
  rcases h with ⟨hk, a, rfl, -⟩ | ⟨hk, d, rfl, -⟩
  · exact ⟨fun _ ↦ hk, fun _ ↦ ⟨a, rfl⟩⟩
  · exact ⟨fun ⟨a, ha⟩ ↦ (by cases ha), fun h ↦ absurd h hk⟩

theorem of_eq_ok {r : Except Fault α} (h : Decides ok P r) {a : α} (hr : r = .ok a) :
    ok ∧ P a := by
  rcases h with ⟨hk, b, rfl, hb⟩ | ⟨-, d, rfl, -⟩
  · cases hr
    exact ⟨hk, hb⟩
  · cases hr

theorem of_bind_eq_ok {r : Except Fault α} {f : α → Except Fault β} (h : Decides ok P r) {b : β}
    (hr : r >>= f = .ok b) : ok := by
  rcases h with ⟨hk, -⟩ | ⟨-, d, rfl, -⟩
  · exact hk
  · cases hr

theorem of_eq_error {r : Except Fault α} (h : Decides ok P r) {e : Fault} (hr : r = .error e) :
    ¬ ok ∧ ∃ d, e = .report d ∧ d.issue.kind ≠ .internalInvariantViolation := by
  rcases h with ⟨-, a, rfl, -⟩ | ⟨hk, d, rfl, hkind⟩
  · cases hr
  · cases hr
    exact ⟨hk, d, rfl, hkind⟩

end Decides

namespace Draft

variable {d d' : Draft} {ρ ρ' : String → Level}

def levels (ρ : String → Level) : Assignment :=
  fun s ↦ ρ s.key

/-- Assignments that may only differ on expressions with a number above `n`. -/
def Agree (n : Nat) (ρ ρ' : String → Level) : Prop :=
  ∀ key, (∀ m, n < m → key ≠ exprKey m) → ρ' key = ρ key

theorem Agree.refl (n : Nat) (ρ : String → Level) : Agree n ρ ρ :=
  fun _ _ ↦ rfl

theorem Agree.trans {m n : Nat} {ρ₁ ρ₂ ρ₃ : String → Level} (h₁ : Agree m ρ₁ ρ₂)
    (h₂ : Agree n ρ₂ ρ₃) (hmn : m ≤ n) : Agree m ρ₁ ρ₃ := by
  intro key hkey
  rw [h₂ key fun k hk ↦ hkey k (hmn.trans_lt hk), h₁ key hkey]

/-- A key that constraints may mention. -/
def Known (d : Draft) (key : String) : Prop :=
  key ≠ "" ∧ ∀ n, key = exprKey n → n ≤ d.exprs

theorem Visible.known {key : String} (h : Visible key) : d.Known key :=
  ⟨h.1, fun n hn ↦ absurd hn (h.2 n)⟩

theorem known_exprKey {n : Nat} (h : n ≤ d.exprs) : d.Known (exprKey n) :=
  ⟨exprKey_ne_empty n, fun _ hm ↦ exprKey_injective hm ▸ h⟩

theorem Agree.known {key : String} (h : Agree d.exprs ρ ρ') (hkey : d.Known key) :
    ρ' key = ρ key :=
  h key fun m hm heq ↦ absurd (hkey.2 m heq) (Nat.not_le.mpr hm)

theorem Agree.visible {n : Nat} {key : String} (h : Agree n ρ ρ') (hkey : Visible key) :
    ρ' key = ρ key :=
  h key fun m _ heq ↦ hkey.2 m heq

/-- What holds of all drafts: constraints are about known keys, and every variable has a level
variable of its own. -/
structure Good (d : Draft) : Prop where
  closed : d.system.Closed
  known : ∀ c ∈ d.system.constraints, ∀ key, c.lo = .var key ∨ c.hi = .var key → d.Known key
  vars : ∀ id v, OrderedMap.get? d.env id = some v →
    v.id = id ∧ Visible id.key ∧ d.system.has id.key = true

theorem Good.satisfiedBy_congr (hd : d.Good) (h : Agree d.exprs ρ ρ') :
    d.system.SatisfiedBy ρ' ↔ d.system.SatisfiedBy ρ := by
  have hlevel (c : Constraint Level) (hc : c ∈ d.system.constraints) (t : Term Level)
      (ht : c.lo = t ∨ c.hi = t) : t.level ρ' = t.level ρ := by
    cases t with
    | var key => exact h.known (hd.known c hc key ht)
    | const l => rfl
  refine forall₂_congr fun c hc ↦ ?_
  rw [Constraint.Holds, Constraint.Holds, hlevel c hc _ (Or.inl rfl), hlevel c hc _ (Or.inr rfl)]

/-- A draft with more constraints, which together say `C`. The levels of further expressions can
always be found. -/
structure Adds (d d' : Draft) (C : (String → Level) → Prop) : Prop where
  good : d'.Good
  exprs_le : d.exprs ≤ d'.exprs
  has : ∀ key, d.system.has key = true → d'.system.has key = true
  sound : ∀ ρ, d'.system.SatisfiedBy ρ → d.system.SatisfiedBy ρ ∧ C ρ
  complete : ∀ ρ, d.system.SatisfiedBy ρ → C ρ →
    ∃ ρ', Agree d.exprs ρ ρ' ∧ d'.system.SatisfiedBy ρ'

theorem Adds.trans {d₁ d₂ d₃ : Draft} {C₁ C₂ C₃ : (String → Level) → Prop} (h₁ : d₁.Adds d₂ C₁)
    (h₂ : d₂.Adds d₃ C₂) (hlocal : ∀ ρ ρ', Agree d₁.exprs ρ ρ' → C₂ ρ → C₂ ρ')
    (hC : ∀ ρ, C₃ ρ ↔ C₁ ρ ∧ C₂ ρ) : d₁.Adds d₃ C₃ where
  good := h₂.good
  exprs_le := h₁.exprs_le.trans h₂.exprs_le
  has key h := h₂.has key (h₁.has key h)
  sound ρ hρ := by
    obtain ⟨hsat, hC₂⟩ := h₂.sound ρ hρ
    obtain ⟨hsat', hC₁⟩ := h₁.sound ρ hsat
    exact ⟨hsat', (hC ρ).mpr ⟨hC₁, hC₂⟩⟩
  complete ρ hρ hC₃ := by
    obtain ⟨hC₁, hC₂⟩ := (hC ρ).mp hC₃
    obtain ⟨ρ₁, hagree₁, hsat₁⟩ := h₁.complete ρ hρ hC₁
    obtain ⟨ρ₂, hagree₂, hsat₂⟩ := h₂.complete ρ₁ hsat₁ (hlocal ρ ρ₁ hagree₁ hC₂)
    exact ⟨ρ₂, hagree₁.trans hagree₂ h₁.exprs_le, hsat₂⟩

theorem Adds.refl (hd : d.Good) : d.Adds d fun _ ↦ True where
  good := hd
  exprs_le := le_rfl
  has _ h := h
  sound _ hρ := ⟨hρ, trivial⟩
  complete ρ hρ _ := ⟨ρ, Agree.refl _ ρ, hρ⟩

theorem Adds.congr {C C' : (String → Level) → Prop} (h : d.Adds d' C) (hC : ∀ ρ, C ρ ↔ C' ρ) :
    d.Adds d' C' where
  good := h.good
  exprs_le := h.exprs_le
  has := h.has
  sound ρ hρ := ⟨(h.sound ρ hρ).1, (hC ρ).mp (h.sound ρ hρ).2⟩
  complete ρ hρ hC' := h.complete ρ hρ ((hC ρ).mpr hC')

/-! ### Single constraints -/

theorem named_of_ne {key : String} (h : key ≠ "") : (Term.named key : Term Level) = .var key :=
  if_neg h

theorem adds_add (hd : d.Good) {c : Constraint Level}
    (hc : ∀ key, c.lo = .var key ∨ c.hi = .var key → d.Known key) :
    d.Adds { d with system := d.system.add c } fun ρ ↦ c.Holds ρ where
  good := {
    closed := hd.closed.add c
    known := by
      intro b hb key hkey
      rw [LevelSystem.constraints_add, List.mem_append, List.mem_singleton] at hb
      rcases hb with hb | rfl
      · exact hd.known b hb key hkey
      · exact hc key hkey
    vars := fun id v hv ↦ by
      obtain ⟨hid, hvisible, hhas⟩ := hd.vars id v hv
      exact ⟨hid, hvisible, LevelSystem.has_add.mpr (Or.inl hhas)⟩ }
  exprs_le := le_rfl
  has _ h := LevelSystem.has_add.mpr (Or.inl h)
  sound ρ hρ := LevelSystem.satisfiedBy_add.mp hρ
  complete ρ hρ hholds := ⟨ρ, Agree.refl _ ρ, LevelSystem.satisfiedBy_add.mpr ⟨hρ, hholds⟩⟩

theorem adds_flow (hd : d.Good) {lo hi : String} (hlo : d.Known lo) (hhi : d.Known hi)
    (rule : Rule) : d.Adds (d.flow lo hi rule) fun ρ ↦ ρ lo ≤ ρ hi := by
  simp only [flow, LevelSystem.flow, named_of_ne hlo.1, named_of_ne hhi.1]
  refine adds_add hd fun key hkey ↦ ?_
  rcases hkey with hkey | hkey <;> cases hkey <;> assumption

theorem adds_atLeast (hd : d.Good) {key : String} (hkey : d.Known key) (l : Level) (rule : Rule) :
    d.Adds (d.atLeast key l rule) fun ρ ↦ l ≤ ρ key := by
  simp only [atLeast, LevelSystem.atLeast, named_of_ne hkey.1]
  refine adds_add hd fun key' hkey' ↦ ?_
  rcases hkey' with hkey' | hkey' <;> cases hkey'
  exact hkey

theorem adds_atMost (hd : d.Good) {key : String} (hkey : d.Known key) (l : Level) (rule : Rule) :
    d.Adds (d.atMost key l rule) fun ρ ↦ ρ key ≤ l := by
  simp only [atMost, LevelSystem.atMost, named_of_ne hkey.1]
  refine adds_add hd fun key' hkey' ↦ ?_
  rcases hkey' with hkey' | hkey' <;> cases hkey'
  exact hkey

/-! ### Reading an expression -/

section Expressions

variable {g : Globals} {fn : String}

def InScope (d : Draft) (fn x : String) : Prop :=
  (d.find? fn x).isSome = true

/-- The levels that callers refer to have keys of their own. -/
def CalleesVisible (g : Globals) : Prop :=
  ∀ f ∈ g.funcs, Visible (VarId.resultKey f.name) ∧
    ∀ p ∈ f.params, Visible (VarId.key ⟨f.name, p.name⟩)

theorem Good.visible_of_inScope (hd : d.Good) {x : String} (h : d.InScope fn x) :
    Visible (VarId.key ⟨fn, x⟩) := by
  obtain ⟨v, hv⟩ := Option.isSome_iff_exists.mp h
  exact (hd.vars ⟨fn, x⟩ v hv).2.1

/-- The levels of further expressions do not matter for what an expression reads. -/
theorem flowsTo_agree_of_visible (hg : CalleesVisible g) {Γ : String → Prop}
    (hΓ : ∀ x, Γ x → Visible (VarId.key ⟨fn, x⟩)) {n : Nat} (h : Agree n ρ ρ') {e : Expr}
    (he : e.Scoped g Γ) {l : Level} :
    e.FlowsTo g (levels ρ') fn l ↔ e.FlowsTo g (levels ρ) fn l :=
  Expr.flowsTo_congr (fun f hf ↦ h.visible (hg f hf).1)
    (fun f hf p hp ↦ h.visible ((hg f hf).2 p hp))
    (fun x hx ↦ h.visible (hΓ x (he.vars x hx)))

theorem flowsTo_agree (hg : CalleesVisible g) (hd : d.Good) {n : Nat} (h : Agree n ρ ρ')
    {e : Expr} (he : e.Scoped g (d.InScope fn)) {l : Level} :
    e.FlowsTo g (levels ρ') fn l ↔ e.FlowsTo g (levels ρ) fn l :=
  flowsTo_agree_of_visible hg (fun _ ↦ hd.visible_of_inScope) h he

/-- Making the level variable with the number `n` at least what `e` reads. -/
def ReadsSpec (g : Globals) (fn : String) (e : Expr) : Prop :=
  ∀ (whole : Expr) (n : Nat) (rule : Rule) (d : Draft), d.Good → n ≤ d.exprs →
    Decides (e.Scoped g (d.InScope fn))
      (fun d' ↦ d'.env = d.env ∧
        d.Adds d' fun ρ ↦ e.FlowsTo g (levels ρ) fn (ρ (exprKey n)))
      (reads g fn whole (exprKey n) rule e d)

def ReadsAllSpec (g : Globals) (fn : String) (es : List Expr) : Prop :=
  ∀ (whole : Expr) (n : Nat) (rule : Rule) (d : Draft), d.Good → n ≤ d.exprs →
    Decides (Expr.ScopedAll g (d.InScope fn) es)
      (fun d' ↦ d'.env = d.env ∧
        d.Adds d' fun ρ ↦ Expr.AllFlowTo g (levels ρ) fn es (ρ (exprKey n)))
      (readsAll g fn whole (exprKey n) rule es d)

theorem inScope_congr (h : d'.env = d.env) : d'.InScope fn = d.InScope fn := by
  funext x
  unfold InScope find?
  rw [h]

theorem inScope_flow {lo hi : String} {rule : Rule} :
    (d.flow lo hi rule).InScope fn = d.InScope fn :=
  rfl

theorem inScope_atMost {key : String} {l : Level} {rule : Rule} :
    (d.atMost key l rule).InScope fn = d.InScope fn :=
  rfl

theorem agree_exprKey {n : Nat} (hn : n ≤ d.exprs) (h : Agree d.exprs ρ ρ') :
    ρ' (exprKey n) = ρ (exprKey n) :=
  h.known (known_exprKey hn)

theorem readsAllSpec (hg : CalleesVisible g) {es : List Expr} (hes : ∀ e ∈ es, ReadsSpec g fn e) :
    ReadsAllSpec g fn es := by
  induction es with
  | nil =>
      intro whole n rule d hd _
      refine Decides.of_ok Expr.scopedAll_nil rfl ⟨rfl, (Adds.refl hd).congr fun ρ ↦ ?_⟩
      simp [Expr.AllFlowTo]
  | cons e es ih =>
      intro whole n rule d hd hn
      rw [List.forall_mem_cons] at hes
      rw [Expr.scopedAll_cons]
      refine (hes.1 whole n rule d hd hn).bind ?_
      rintro - d₁ ⟨henv, hadds⟩
      have hrest := ih hes.2 whole n rule d₁ hadds.good (hn.trans hadds.exprs_le)
      rw [inScope_congr henv] at hrest
      refine hrest.congr Iff.rfl ?_
      rintro hok d₂ ⟨henv₂, hadds₂⟩
      refine ⟨henv₂.trans henv, hadds.trans hadds₂ ?_ fun ρ ↦ List.forall_mem_cons⟩
      intro ρ ρ' hagree hall a ha
      rw [agree_exprKey hn hagree]
      exact (flowsTo_agree hg hd hagree (Expr.scopedAll_iff.mp hok a ha)).mpr (hall a ha)

theorem readsSpec_binary (hg : CalleesVisible g) {op : Op} {x y : Expr} (hx : ReadsSpec g fn x)
    (hy : ReadsSpec g fn y) : ReadsSpec g fn (.binary op x y) := by
  intro whole n rule d hd hn
  rw [Expr.scoped_binary, reads]
  refine (hx whole n rule d hd hn).bind ?_
  rintro - d₁ ⟨henv, hadds⟩
  have hrest := hy whole n rule d₁ hadds.good (hn.trans hadds.exprs_le)
  rw [inScope_congr henv] at hrest
  refine hrest.congr Iff.rfl ?_
  rintro hok d₂ ⟨henv₂, hadds₂⟩
  refine ⟨henv₂.trans henv, hadds.trans hadds₂ ?_ fun ρ ↦ Expr.flowsTo_binary⟩
  intro ρ ρ' hagree hflow
  rw [agree_exprKey hn hagree]
  exact (flowsTo_agree hg hd hagree hok).mpr hflow

theorem readsSpec_index (hg : CalleesVisible g) {x : Expr} {indices : List Expr}
    (hx : ReadsSpec g fn x) (hi : ReadsAllSpec g fn indices) :
    ReadsSpec g fn (.index x indices) := by
  intro whole n rule d hd hn
  rw [Expr.scoped_index, reads]
  refine (hx whole n rule d hd hn).bind ?_
  rintro - d₁ ⟨henv, hadds⟩
  have hrest := hi whole n rule d₁ hadds.good (hn.trans hadds.exprs_le)
  rw [inScope_congr henv] at hrest
  refine hrest.congr Iff.rfl ?_
  rintro hok d₂ ⟨henv₂, hadds₂⟩
  refine ⟨henv₂.trans henv, hadds.trans hadds₂ ?_ fun ρ ↦ Expr.flowsTo_index⟩
  intro ρ ρ' hagree hall a ha
  rw [agree_exprKey hn hagree]
  exact (flowsTo_agree hg hd hagree (Expr.scopedAll_iff.mp hok a ha)).mpr (hall a ha)

theorem readsSpec_var {x : String} : ReadsSpec g fn (.var x) := by
  intro whole n rule d hd hn
  have hscoped : (Expr.var x).Scoped g (d.InScope fn) ↔ d.InScope fn x := by
    refine ⟨fun h ↦ h.vars x (List.mem_singleton_self x), fun h ↦ ⟨?_, by simp [Expr.calls]⟩⟩
    intro y hy
    exact List.mem_singleton.mp hy ▸ h
  rw [hscoped, reads]
  cases hfind : d.find? fn x with
  | none => exact Decides.of_error (by simp [InScope, hfind]) rfl (by simp [Issue.kind])
  | some v =>
      obtain ⟨hid, hvisible, -⟩ := hd.vars ⟨fn, x⟩ v hfind
      have hkey : v.key = VarId.key ⟨fn, x⟩ := congrArg VarId.key hid
      refine Decides.of_ok (by simp [InScope, hfind]) rfl ⟨rfl, ?_⟩
      rw [hkey]
      refine (adds_flow hd hvisible.known (known_exprKey hn) rule).congr fun ρ ↦ ?_
      rw [Expr.flowsTo_var]
      rfl

/-- A call to a function of the target language is at least what it reads, and a generated
quantity if it draws random numbers. -/
theorem readsSpec_prim (hg : CalleesVisible g) {callee : String} {args : List Expr}
    (hargs : ReadsAllSpec g fn args) (hfunc : g.func? callee = none) :
    ReadsSpec g fn (.call callee args) := by
  intro whole n rule d hd hn
  have hadmits : g.Admits ⟨callee, args⟩ ↔ g.prims.isFunc callee = true := by
    simp [Globals.Admits, hfunc]
  rw [Expr.scoped_call, hadmits, and_comm, reads]
  simp only [hfunc]
  by_cases hprim : g.prims.isFunc callee = true
  · rw [if_pos hprim]
    simp only [hprim, true_and]
    have hrng : d.Adds (if Primitives.isRng callee then d.atLeast (exprKey n) .genquant .rng else d)
        fun ρ ↦ Primitives.callLevel callee ≤ ρ (exprKey n) := by
      unfold Primitives.callLevel
      split
      · exact adds_atLeast hd (known_exprKey hn) .genquant .rng
      · exact (Adds.refl hd).congr fun ρ ↦ by simp
    have henv : (if Primitives.isRng callee then d.atLeast (exprKey n) .genquant .rng else d).env =
        d.env := by
      split <;> rfl
    have hrest := hargs whole n rule _ hrng.good (hn.trans hrng.exprs_le)
    rw [inScope_congr henv] at hrest
    refine hrest.congr Iff.rfl ?_
    rintro hok d₂ ⟨henv₂, hadds₂⟩
    refine ⟨henv₂.trans henv, hrng.trans hadds₂ ?_ fun ρ ↦ Expr.flowsTo_prim hfunc⟩
    intro ρ ρ' hagree hall a ha
    rw [agree_exprKey hn hagree]
    exact (flowsTo_agree hg hd hagree (Expr.scopedAll_iff.mp hok a ha)).mpr (hall a ha)
  · rw [if_neg hprim]
    exact Decides.of_error (fun h ↦ hprim h.1) rfl (by simp [Issue.kind])

theorem readsSpec_lit {kind : LitKind} {value : String} : ReadsSpec g fn (.lit kind value) := by
  intro whole n rule d hd _
  refine Decides.of_ok ⟨by simp [Expr.reads], by simp [Expr.calls]⟩ rfl ⟨rfl, ?_⟩
  exact (Adds.refl hd).congr fun ρ ↦ iff_of_true trivial Expr.flowsTo_lit

theorem readsSpec_unary {op : Op} {x : Expr} (hx : ReadsSpec g fn x) :
    ReadsSpec g fn (.unary op x) := by
  intro whole n rule d hd hn
  rw [Expr.scoped_unary, reads]
  refine (hx whole n rule d hd hn).congr Iff.rfl ?_
  rintro - d' ⟨henv, hadds⟩
  exact ⟨henv, hadds.congr fun ρ ↦ Expr.flowsTo_unary.symm⟩

/-! ### Level variables of expressions -/

structure Opens (d d' : Draft) : Prop where
  good : d'.Good
  env : d'.env = d.env
  has : ∀ key, d.system.has key = true → d'.system.has key = true
  constraints : d'.system.constraints = d.system.constraints
  exprs : d'.exprs = d.exprs + 1

theorem addExpr_opens (hd : d.Good) {e : Expr} (he : e.complete = true) :
    ∃ d', d.addExpr e = .ok d' ∧ d.Opens d' := by
  obtain ⟨t, ht⟩ := Expr.exists_text_of_complete he
  let system := (d.system.addExprVar d.nextKey ("`" ++ t ++ "`")).setSource d.nextKey
    (some (.expr e))
  have hhas (key : String) (hkey : d.system.has key = true) : system.has key = true := by
    rw [LevelSystem.has_setSource, LevelSystem.has_addExprVar]
    exact Or.inl hkey
  have hconstraints : system.constraints = d.system.constraints :=
    LevelSystem.constraints_addVar ..
  have hadd : d.addExpr e = .ok ⟨d.env, system, d.exprs + 1⟩ := by
    simp only [addExpr, ht]
    rfl
  refine ⟨_, hadd, ?_, rfl, hhas, hconstraints, rfl⟩
  constructor
  · exact hd.closed.of_has hconstraints hhas
  · intro c hc key hkey
    obtain ⟨hne, hle⟩ := hd.known c (hconstraints ▸ hc) key hkey
    exact ⟨hne, fun n hn ↦ (hle n hn).trans (Nat.le_succ _)⟩
  · intro id v hv
    obtain ⟨hid, hvisible, hkey⟩ := hd.vars id v hv
    exact ⟨hid, hvisible, hhas _ hkey⟩

/-- A level that no expression with a number above `n` has a part in. -/
def Settled (n : Nat) (l : (String → Level) → Level) : Prop :=
  ∀ ρ ρ', Agree n ρ ρ' → l ρ' = l ρ

/-- The draft `d'` has a new level variable for `e`. What it is then made to stay below, `e` stays
below. -/
structure Reads (g : Globals) (fn : String) (e : Expr) (d d' : Draft) : Prop where
  good : d'.Good
  env : d'.env = d.env
  exprs_lt : d.exprs < d'.exprs
  below : ∀ d'' l, Settled d.exprs l → d'.Adds d'' (fun ρ ↦ ρ (exprKey (d.exprs + 1)) ≤ l ρ) →
    d.Adds d'' fun ρ ↦ e.FlowsTo g (levels ρ) fn (l ρ)

/-- The level variable may get the level of what the expression reads, which is the least one. -/
theorem Opens.reads (hg : CalleesVisible g) (hd : d.Good) {d₁ d₂ : Draft} {e : Expr}
    (he : e.Scoped g (d.InScope fn)) (h₁ : d.Opens d₁) (henv : d₂.env = d₁.env)
    (h₂ : d₁.Adds d₂ fun ρ ↦ e.FlowsTo g (levels ρ) fn (ρ (exprKey (d.exprs + 1)))) :
    Reads g fn e d d₂ where
  good := h₂.good
  env := henv.trans h₁.env
  exprs_lt := h₁.exprs.ge.trans h₂.exprs_le
  below d₃ l hl h₃ := by
    have hsat (ρ : String → Level) : d₁.system.SatisfiedBy ρ ↔ d.system.SatisfiedBy ρ := by
      rw [LevelSystem.SatisfiedBy, LevelSystem.SatisfiedBy, h₁.constraints]
    have hle : d.exprs ≤ d₁.exprs := h₁.exprs ▸ Nat.le_succ _
    refine ⟨h₃.good, hle.trans (h₂.exprs_le.trans h₃.exprs_le),
      fun key h ↦ h₃.has key (h₂.has key (h₁.has key h)), fun ρ hρ ↦ ?_, fun ρ hρ hflow ↦ ?_⟩
    · obtain ⟨hρ₂, hbelow⟩ := h₃.sound ρ hρ
      obtain ⟨hρ₁, hflow⟩ := h₂.sound ρ hρ₂
      exact ⟨(hsat ρ).mp hρ₁, hflow.level_le.trans hbelow, hflow.passes⟩
    · have hlevel := hflow.level_le
      generalize hm : e.levelIn g (levels ρ) fn = m at hlevel
      have hagree : Agree d.exprs ρ (Function.update ρ (exprKey (d.exprs + 1)) m) :=
        fun key hkey ↦ Function.update_of_ne (hkey _ (Nat.lt_succ_self _)) m ρ
      have hself : Function.update ρ (exprKey (d.exprs + 1)) m (exprKey (d.exprs + 1)) = m :=
        Function.update_self ..
      generalize Function.update ρ (exprKey (d.exprs + 1)) m = ρ₁ at hagree hself
      have hρ₁ : d₁.system.SatisfiedBy ρ₁ := (hsat ρ₁).mpr ((hd.satisfiedBy_congr hagree).mpr hρ)
      have hflow₁ : e.FlowsTo g (levels ρ₁) fn (ρ₁ (exprKey (d.exprs + 1))) :=
        (flowsTo_agree hg hd hagree he).mpr ⟨(hm.trans hself.symm).le, hflow.passes⟩
      obtain ⟨ρ₂, hagree₂, hρ₂⟩ := h₂.complete ρ₁ hρ₁ hflow₁
      have hagree' : Agree d.exprs ρ ρ₂ := hagree.trans hagree₂ hle
      have hbelow : ρ₂ (exprKey (d.exprs + 1)) ≤ l ρ₂ := by
        rw [agree_exprKey h₁.exprs.ge hagree₂, hself, hl ρ ρ₂ hagree']
        exact hlevel
      obtain ⟨ρ₃, hagree₃, hρ₃⟩ := h₃.complete ρ₂ hρ₂ hbelow
      exact ⟨ρ₃, hagree'.trans hagree₃ (hle.trans h₂.exprs_le), hρ₃⟩

theorem expr_spec_of_readsSpec (hg : CalleesVisible g) (hd : d.Good) {e : Expr}
    (he : e.complete = true) (hreads : ReadsSpec g fn e) (rule : Rule) :
    Decides (e.Scoped g (d.InScope fn))
      (fun r ↦ r.1 = exprKey (d.exprs + 1) ∧ Reads g fn e d r.2) (expr g fn e rule d) := by
  obtain ⟨d₁, hd₁, hopens⟩ := addExpr_opens hd he
  have hdecides := hreads e (d.exprs + 1) rule d₁ hopens.good hopens.exprs.ge
  rw [inScope_congr hopens.env] at hdecides
  simp only [expr, hd₁]
  refine hdecides.bind_ok ?_
  rintro hscoped d₂ ⟨henv, hadds⟩
  exact ⟨_, rfl, rfl, hopens.reads hg hd hscoped henv hadds⟩

/-! ### User calls -/

theorem passes_cons {callee : String} {p : Param} {ps : List Param} {e : Expr} {es : List Expr} :
    passes g fn callee (p :: ps) (e :: es) d =
      expr g fn e .argument d >>= fun r ↦
        passes g fn callee ps es (r.2.flow r.1 (VarId.key ⟨callee, p.name⟩) .argument) := by
  simp only [passes, expr, bind_assoc, pure_bind]

theorem settled_of_visible {key : String} (h : Visible key) (n : Nat) : Settled n fun ρ ↦ ρ key :=
  fun _ _ hagree ↦ hagree.visible h

theorem passes_spec (hg : CalleesVisible g) {callee : String} :
    ∀ {ps : List Param} {es : List Expr} {d : Draft}, es.length = ps.length →
      (∀ p ∈ ps, Visible (VarId.key ⟨callee, p.name⟩)) →
      (∀ e ∈ es, e.complete = true ∧ ReadsSpec g fn e) → d.Good →
      Decides (Expr.ScopedAll g (d.InScope fn) es)
        (fun d' ↦ d'.env = d.env ∧ d.Adds d' fun ρ ↦ ∀ pa ∈ ps.zip es,
          pa.2.FlowsTo g (levels ρ) fn (levels ρ (.var ⟨callee, pa.1.name⟩)))
        (passes g fn callee ps es d)
  | [], [], d, _, _, _, hd =>
      Decides.of_ok Expr.scopedAll_nil rfl ⟨rfl, (Adds.refl hd).congr fun ρ ↦ by simp⟩
  | p :: ps, e :: es, d, hlen, hvisible, hes, hd => by
      rw [List.forall_mem_cons] at hvisible hes
      rw [Expr.scopedAll_cons, passes_cons]
      refine (expr_spec_of_readsSpec hg hd hes.1.1 hes.1.2 .argument).bind ?_
      rintro hscoped ⟨key, d₁⟩ ⟨hkey, hreads⟩
      dsimp only at hkey hreads ⊢
      rw [hkey]
      have hflow := adds_flow hreads.good (known_exprKey hreads.exprs_lt) hvisible.1.known .argument
      have hadds := hreads.below _ _ (settled_of_visible hvisible.1 _) hflow
      have hrest := passes_spec hg (Nat.succ.inj hlen) hvisible.2 hes.2 hadds.good
      rw [inScope_flow, inScope_congr hreads.env] at hrest
      refine hrest.congr Iff.rfl ?_
      rintro hok d₂ ⟨henv, hadds₂⟩
      refine ⟨henv.trans hreads.env, hadds.trans hadds₂ ?_ fun ρ ↦ List.forall_mem_cons⟩
      intro ρ ρ' hagree hall pa hpa
      obtain ⟨hp, ha⟩ := List.of_mem_zip (show (pa.1, pa.2) ∈ ps.zip es from hpa)
      have hparam : levels ρ' (.var ⟨callee, pa.1.name⟩) = levels ρ (.var ⟨callee, pa.1.name⟩) :=
        hagree.visible (hvisible.2 pa.1 hp)
      rw [flowsTo_agree hg hd hagree (Expr.scopedAll_iff.mp hok pa.2 ha), hparam]
      exact hall pa hpa

/-- A call to a user function is at least the function's result. -/
theorem readsSpec_user (hg : CalleesVisible g) {callee : String} {args : List Expr} {f : Func}
    (hargs : ∀ e ∈ args, e.complete = true ∧ ReadsSpec g fn e)
    (hfunc : g.func? callee = some f) : ReadsSpec g fn (.call callee args) := by
  intro whole n rule d hd hn
  obtain ⟨hname, hf⟩ := Func.of_named?_eq_some hfunc
  have hadmits : g.Admits ⟨callee, args⟩ ↔ args.length = f.params.length := by
    simp [Globals.Admits, hfunc]
  rw [Expr.scoped_call, hadmits, reads]
  simp only [hfunc]
  by_cases hlen : args.length = f.params.length
  · rw [if_pos hlen]
    refine (passes_spec hg hlen (hg f hf).2 hargs hd).bind ?_
    rintro hscoped d₁ ⟨henv, hadds⟩
    have hresult := (hg f hf).1
    have hflow := adds_flow hadds.good hresult.known
      (known_exprKey (hn.trans hadds.exprs_le)) .result
    refine Decides.of_ok hlen rfl ⟨henv, hadds.trans hflow ?_ fun ρ ↦ ?_⟩
    · intro ρ ρ' hagree hle
      rw [agree_exprKey hn hagree, hagree.visible hresult]
      exact hle
    · rw [Expr.flowsTo_user hfunc hlen, and_comm, ← hname]
      rfl
  · rw [if_neg hlen]
    exact Decides.of_error (fun h ↦ hlen h.2) rfl (by simp [Issue.kind])

mutual

/-- Reading a complete expression. -/
theorem readsSpec (hg : CalleesVisible g) :
    ∀ {e : Expr}, e.complete = true → ReadsSpec g fn e
  | .hole, h => by simp [Expr.complete] at h
  | .lit .., _ => readsSpec_lit
  | .var _, _ => readsSpec_var
  | .unary _ x, h => readsSpec_unary (readsSpec hg (e := x) h)
  | .binary _ x y, h => by
      simp only [Expr.complete, Bool.and_eq_true] at h
      exact readsSpec_binary hg (readsSpec hg h.1) (readsSpec hg h.2)
  | .index x indices, h => by
      simp only [Expr.complete, Bool.and_eq_true] at h
      exact readsSpec_index hg (readsSpec hg h.1)
        (readsAllSpec hg fun e he ↦ (readsSpec_of_mem hg h.2 e he).2)
  | .call callee args, h => by
      have hargs : ∀ e ∈ args, e.complete = true ∧ ReadsSpec g fn e := readsSpec_of_mem hg h
      cases hfunc : g.func? callee with
      | none => exact readsSpec_prim hg (readsAllSpec hg fun e he ↦ (hargs e he).2) hfunc
      | some f => exact readsSpec_user hg hargs hfunc

theorem readsSpec_of_mem (hg : CalleesVisible g) :
    ∀ {es : List Expr}, Expr.completeAll es = true →
      ∀ e ∈ es, e.complete = true ∧ ReadsSpec g fn e
  | [], _ => by simp
  | e :: es, h => by
      simp only [Expr.completeAll, Bool.and_eq_true] at h
      exact List.forall_mem_cons.mpr ⟨⟨h.1, readsSpec hg h.1⟩, readsSpec_of_mem hg h.2⟩

end

theorem expr_spec (hg : CalleesVisible g) (hd : d.Good) {e : Expr} (he : e.complete = true)
    (rule : Rule) :
    Decides (e.Scoped g (d.InScope fn))
      (fun r ↦ r.1 = exprKey (d.exprs + 1) ∧ Reads g fn e d r.2) (expr g fn e rule d) :=
  expr_spec_of_readsSpec hg hd he (readsSpec hg he) rule

end Expressions

end Draft

end Stratify
