import Stratify.Proofs.Target.Meaning
import Stratify.Proofs.Typing.Randomness

/-!
# Noninterference

Two runs of the inlined program are compared. They may be given different values for variables of
higher levels, and their random number generators may be different functions. As long as both are
given the same values for the variables up to a level, all variables up to that level end with the
same values; and if that level is `model`, the runs leave the same factors.

The relation between the two runs is equality up to the level. It is kept by every statement: one
that writes a variable up to the level reads only such variables and calls no generator, and one
that writes another variable does not touch them.
-/

namespace Stratify

variable {V : Type} {M M' : Meaning V} {σ σ' : Store V}

namespace Meaning

/-- Two meanings differ at most in the random number generators. -/
structure SameButRng (M M' : Meaning V) : Prop where
  lit : M'.lit = M.lit
  unary : M'.unary = M.unary
  binary : M'.binary = M.binary
  index : M'.index = M.index
  call : ∀ fn, Primitives.isRng fn = false → M'.call fn = M.call fn

end Meaning

namespace Expr

mutual

theorem value_of_sameButRng (hM : M.SameButRng M') :
    ∀ {e : Expr}, Call.anyRng e.calls = false → e.value M' σ = e.value M σ
  | hole, _ => rfl
  | lit .., _ => by rw [value, value, hM.lit]
  | var _, _ => rfl
  | unary op x, h => by rw [value, value, value_of_sameButRng hM (e := x) h, hM.unary]
  | binary op x y, h => by
      rw [calls, Call.anyRng_append, Bool.or_eq_false_iff] at h
      rw [value, value, value_of_sameButRng hM h.1, value_of_sameButRng hM h.2, hM.binary]
  | index x indices, h => by
      rw [calls, Call.anyRng_append, Bool.or_eq_false_iff] at h
      rw [value, value, value_of_sameButRng hM h.1, values_of_sameButRng hM h.2, hM.index]
  | .call fn args, h => by
      rw [calls, Call.anyRng_append, Bool.or_eq_false_iff, Call.anyRng_singleton] at h
      rw [value, value, values_of_sameButRng hM h.1, hM.call fn h.2]

theorem values_of_sameButRng (hM : M.SameButRng M') :
    ∀ {es : List Expr}, Call.anyRng (callsAll es) = false → values M' σ es = values M σ es
  | [], _ => rfl
  | e :: es, h => by
      rw [callsAll, Call.anyRng_append, Bool.or_eq_false_iff] at h
      rw [values, values, value_of_sameButRng hM h.1, values_of_sameButRng hM h.2]

end

end Expr

namespace Stmt

variable {given given' : String → V} {s : Stmt}

/-- A statement that calls no generator makes the same change under both meanings, if what it uses
and what it is given are the same. -/
theorem change_of_sameButRng (hM : M.SameButRng M') (hrng : Call.anyRng s.calls = false)
    (hgiven : ∀ type x data, s = .decl type x data none → given' x = given x)
    (huses : ∀ x ∈ s.uses, σ' x = σ x) : s.change M' given' σ' = s.change M given σ := by
  rw [← change_congr huses]
  cases s with
  | decl type x data init =>
      cases init with
      | none => rw [change, change, hgiven type x data rfl]
      | some e => rw [change, change, Expr.value_of_sameButRng hM hrng]
  | assign x e => rw [change, change, Expr.value_of_sameButRng hM hrng]
  | sample x dist args => rw [change, change, Expr.values_of_sameButRng hM hrng]
  | _ => rfl

end Stmt

namespace Typing

variable {t : Typing} {l : Level} {c c' : Store V × Effects V} {s : Stmt}

/-- Two states are equal up to a level. Only the factors that are computed from all variables up to
`model` count. -/
structure Agree (t : Typing) (l : Level) (c c' : Store V × Effects V) : Prop where
  store : ∀ x, t.MayRead l x → c'.1 x = c.1 x
  effects : l = .model → c'.2 = c.2

/-- A statement changes something that counts up to a level. -/
def Touches (t : Typing) (l : Level) (s : Stmt) : Prop :=
  (∃ x ∈ s.target?, t.MayRead l x) ∨ s.isSample = true ∧ l = .model

theorem Touches.mayRead_of_target (h : t.Touches l s) {x : String} (hx : s.target? = some x) :
    t.MayRead l x := by
  obtain ⟨y, hy, hread⟩ | ⟨hsample, -⟩ := h
  · obtain rfl : x = y := Option.some.inj (hx.symm.trans hy)
    exact hread
  · cases s with
    | sample y dist args => cases hx
    | _ => cases hsample

theorem Agree.apply (h : t.Agree l c c') (ch : Change V) :
    t.Agree l (ch.apply c) (ch.apply c') := by
  cases ch with
  | set x v =>
      refine ⟨fun y hy ↦ ?_, h.effects⟩
      by_cases hyx : y = x
      · rw [hyx]
        exact (Store.set_self ..).trans (Store.set_self ..).symm
      · exact (Store.set_of_ne _ hyx _).trans ((h.store y hy).trans (Store.set_of_ne _ hyx _).symm)
  | emit factor =>
      obtain ⟨σ, w⟩ := c
      obtain ⟨σ', w'⟩ := c'
      refine ⟨h.store, fun hl ↦ ?_⟩
      obtain rfl : w' = w := h.effects hl
      rfl

/-- Other changes are not noticed, even if they differ. -/
theorem Agree.frame (h : t.Agree l c c') {ch ch' : Change V} (hch : ch.Of s) (hch' : ch'.Of s)
    (hs : ¬ t.Touches l s) : t.Agree l (ch.apply c) (ch'.apply c') := by
  refine ⟨fun x hx ↦ ?_, fun hl ↦ ?_⟩
  · have hnot : x ∉ s.target? := fun hmem ↦ hs (Or.inl ⟨x, hmem, hx⟩)
    rw [hch.frame hnot, hch'.frame hnot]
    exact h.store x hx
  · cases ch with
    | set x v =>
        cases ch' with
        | set x' v' => exact h.effects hl
        | emit factor' => exact absurd (Or.inr ⟨hch', hl⟩) hs
    | emit factor => exact absurd (Or.inr ⟨hch, hl⟩) hs

theorem Touches.mayRead_of_uses {declared : List String} (h : t.Touches l s)
    (hplaces : t.Places declared s) : ∀ x ∈ s.uses, t.MayRead l x := by
  intro x hx
  cases s with
  | decl type y data init =>
      obtain ⟨k, hk, hreads⟩ := hplaces
      obtain ⟨m, hm, hml⟩ := h.mayRead_of_target rfl
      obtain rfl : k = m := Option.some.inj (hk.symm.trans hm)
      exact (hreads x hx).mono hml
  | assign y e =>
      obtain ⟨-, k, hk, hreads⟩ := hplaces
      have hread : t.MayRead l y := h.mayRead_of_target rfl
      rcases List.mem_cons.mp hx with rfl | hx
      · exact hread
      · obtain ⟨m, hm, hml⟩ := hread
        obtain rfl : k = m := Option.some.inj (hk.symm.trans hm)
        exact (hreads x hx).mono hml
  | sample y dist args =>
      obtain ⟨z, hz, -⟩ | ⟨-, rfl⟩ := h
      · cases hz
      · exact hplaces.2 x hx
  | _ => exact hplaces.elim

theorem Touches.anyRng_eq_false (h : t.Touches l s) (hl : l ≤ .model)
    (hconfines : s.Confines t.levels.level) : Call.anyRng s.calls = false := by
  rw [← Bool.not_eq_true]
  intro hrng
  obtain ⟨x, hx, hlevel⟩ := hconfines hrng
  obtain ⟨k, hk, hkl⟩ := h.mayRead_of_target hx
  rw [level_of_levelOf? hk] at hlevel
  rw [hlevel] at hkl
  exact absurd (hkl.trans hl) (by decide)

/-- What the run of a statement of an accepted program rests on. -/
structure Flows (t : Typing) (s : Stmt) : Prop where
  places : ∃ declared, t.Places declared s
  confines : s.Confines t.levels.level

variable {given given' : String → V} {p : Program} {call call' : CallMeaning V}

theorem Flows.agree_exec (h : t.Flows s) (hl : l ≤ .model) (hM : M.SameButRng M')
    (hgiven : ∀ type x data, s = .decl type x data none → t.MayRead l x → given' x = given x)
    (hfuncs : p.funcs = []) (hagree : t.Agree l c c') {r r' : Store V × Effects V}
    (hr : s.exec M p call given c = some r) (hr' : s.exec M' p call' given' c' = some r') :
    t.Agree l r r' := by
  rw [Stmt.exec_eq_change hfuncs, Option.map_eq_some_iff] at hr hr'
  obtain ⟨ch, hch, rfl⟩ := hr
  obtain ⟨ch', hch', rfl⟩ := hr'
  obtain ⟨declared, hplaces⟩ := h.places
  by_cases htouches : t.Touches l s
  · have hsame : s.change M' given' c'.1 = s.change M given c.1 := by
      refine Stmt.change_of_sameButRng hM (htouches.anyRng_eq_false hl h.confines) ?_ fun x hx ↦
        hagree.store x (htouches.mayRead_of_uses hplaces x hx)
      rintro type x data rfl
      exact hgiven type x data rfl (htouches.mayRead_of_target rfl)
    rw [hch, hch', Option.some.injEq] at hsame
    rw [hsame]
    exact hagree.apply ch
  · exact hagree.frame (Stmt.change_of hch) (Stmt.change_of hch') htouches

theorem agree_execAll {ss : List Stmt} (h : ∀ s ∈ ss, t.Flows s) (hl : l ≤ .model)
    (hM : M.SameButRng M')
    (hgiven : ∀ type x data, .decl type x data none ∈ ss → t.MayRead l x → given' x = given x)
    (hfuncs : p.funcs = []) (hagree : t.Agree l c c') {r r' : Store V × Effects V}
    (hr : Stmt.execAll M p call given ss c = some r)
    (hr' : Stmt.execAll M' p call' given' ss c' = some r') : t.Agree l r r' := by
  induction ss generalizing c c' with
  | nil =>
      cases hr
      cases hr'
      exact hagree
  | cons s ss ih =>
      rw [List.forall_mem_cons] at h
      rw [Stmt.execAll, Option.bind_eq_bind, Option.bind_eq_some_iff] at hr hr'
      obtain ⟨c₁, hc₁, hr⟩ := hr
      obtain ⟨c₁', hc₁', hr'⟩ := hr'
      refine ih h.2 (fun type x data hmem ↦ hgiven type x data (List.mem_cons_of_mem _ hmem))
        (h.1.agree_exec hl hM (fun type x data hs ↦ hgiven type x data ?_) hfuncs hagree hc₁ hc₁')
        hr hr'
      exact hs ▸ List.mem_cons_self ..

end Typing

namespace Compiler

variable {c : Compiler} {program : Program} {o : Output}

theorem flows_of_compile_eq_ok (h : c.compile program = .ok o) :
    ∀ s ∈ Stmt.flatten o.elaborated.stmts, o.levels.Flows s := by
  intro s hs
  obtain ⟨⟨seeds, hlevels⟩, hlayout⟩ := of_compile_eq_ok h
  exact ⟨Layout.exists_places_of_mem hlayout hs, Typing.confines_of_infer_eq_ok rfl hlevels s hs⟩

/-- Let two runs of the inlined program be given the same values for the variables up to a level
that is no higher than `model`, and let them differ in random number generators at most. Both come
to their end, with the same values of all variables up to that level. If the level is `model`, they
also leave the same factors. -/
theorem run_noninterference (h : c.compile program = .ok o) {l : Level} (hl : l ≤ .model)
    (hM : M.SameButRng M') {given given' : Givens V}
    (hgiven : ∀ type x data, .decl type x data none ∈ Stmt.flatten o.elaborated.stmts →
      o.levels.MayRead l x → given'.top x = given.top x) :
    ∃ τ τ' trace trace', o.elaborated.program.run M given 0 = some (τ, ⟨0, trace⟩) ∧
      o.elaborated.program.run M' given' 0 = some (τ', ⟨0, trace'⟩) ∧
      (∀ x ∈ Stmt.declNames (Stmt.flatten o.elaborated.stmts), o.levels.MayRead l x →
        ∃ v, τ x = some v ∧ τ' x = some v) ∧
      (l = .model → trace' = trace) := by
  obtain ⟨⟨seeds, hlevels⟩, -⟩ := of_compile_eq_ok h
  obtain ⟨hrunnable, -⟩ := Typing.tracks_of_infer_eq_ok rfl hlevels
  have hrun (M : Meaning V) (given : Givens V) :
      ∃ τ trace, o.elaborated.program.run M given 0 = some (τ, ⟨0, trace⟩) ∧
        ∀ x ∈ [] ++ Stmt.declNames (Stmt.flatten o.elaborated.stmts), ∃ v, τ x = some v :=
    hrunnable.exists_execAll rfl fun _ h ↦ (by cases h)
  obtain ⟨τ, trace, hτ, hdefined⟩ := hrun M given
  obtain ⟨τ', trace', hτ', -⟩ := hrun M' given'
  have hagree : o.levels.Agree l (τ, ⟨0, trace⟩) (τ', ⟨0, trace'⟩) :=
    Typing.agree_execAll (flows_of_compile_eq_ok h) hl hM hgiven rfl
      ⟨fun _ _ ↦ rfl, fun _ ↦ rfl⟩ hτ hτ'
  refine ⟨τ, τ', trace, trace', hτ, hτ', fun x hx hread ↦ ?_, fun hmodel ↦ ?_⟩
  · obtain ⟨v, hv⟩ := hdefined x hx
    exact ⟨v, hv, (hagree.store x hread).trans hv⟩
  · exact congrArg Effects.trace (hagree.effects hmodel)

end Compiler

/-- Values as texts, with generators that ignore their arguments. -/
def Meaning.drawn : Meaning String :=
  { Meaning.written with
    call fn vs := if Primitives.isRng fn then "draw" else Meaning.written.call fn vs }

/-- Values named after their variables, except that of one parameter. -/
def Givens.moved : Givens String :=
  { Givens.written with top x := if x = "mu" then "shift" else x }

namespace Compiler

theorem run_noninterference_total :
    ∃ o, standard.compile Program.total = .ok o ∧
      (∃ τ τ' trace trace', o.elaborated.program.run .written .written 0 = some (τ, ⟨0, trace⟩) ∧
        o.elaborated.program.run .drawn .moved 0 = some (τ', ⟨0, trace'⟩) ∧
        (∀ x ∈ Stmt.declNames (Stmt.flatten o.elaborated.stmts), o.levels.MayRead .data x →
          ∃ v, τ x = some v ∧ τ' x = some v) ∧
        (Level.data = .model → trace' = trace)) ∧
      ∃ τ τ' trace trace', o.elaborated.program.run .written .written 0 = some (τ, ⟨0, trace⟩) ∧
        o.elaborated.program.run .drawn .written 0 = some (τ', ⟨0, trace'⟩) ∧
        (∀ x ∈ Stmt.declNames (Stmt.flatten o.elaborated.stmts), o.levels.MayRead .model x →
          ∃ v, τ x = some v ∧ τ' x = some v) ∧
        (Level.model = .model → trace' = trace) := by
  have hM : Meaning.written.SameButRng .drawn := by
    refine ⟨rfl, rfl, rfl, rfl, fun fn hfn ↦ ?_⟩
    funext vs
    exact if_neg (by rw [hfn]; decide)
  have hok : ((standard.compile Program.total).toOption.any fun o ↦
      decide (o.levels.level? "mu" = some .model)) = true := by
    decide +kernel
  obtain ⟨o, ho, hok⟩ := exists_ok_of_any hok
  refine ⟨o, ho, ?_, run_noninterference ho le_rfl hM fun _ _ _ _ _ ↦ rfl⟩
  refine run_noninterference ho (by decide) hM fun type x data _ hread ↦ if_neg ?_
  rintro rfl
  obtain ⟨k, hk, hle⟩ := hread
  rw [Typing.levelOf?_levelMap] at hk
  obtain rfl : k = .model := Option.some.inj (hk.symm.trans (of_decide_eq_true hok))
  exact absurd hle (by decide)

end Compiler

end Stratify
