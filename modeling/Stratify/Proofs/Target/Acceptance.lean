import Stratify.Placement
import Stratify.Proofs.Diagnostic.Message
import Stratify.Proofs.Level.Order
import Stratify.Proofs.Typing.Tracking

/-!
# What placement accepts

Placement takes the levels of variables from a map, wherever this map comes from. If all the levels
it gives are proper ones, then placement succeeds exactly on statements that only read variables
whose levels may flow into their targets, and that assign or sample variables after declaring them.
It puts each statement into the block of the variable that the statement writes, and sample
statements into the model block. Everything else it reports as a violated invariant.
-/

namespace Stratify

theorem LevelCode.eq_code_of_level? {c : LevelCode} {l : Level} (h : c.level? = some l) :
    c = l.code := by
  obtain ⟨n⟩ := c
  unfold level? at h
  split at h <;> cases h <;> next hn => exact congrArg mk hn

namespace LevelMap

variable (m : LevelMap)

/-- Every number that is known for a variable is a level. -/
def Valid : Prop :=
  ∀ x c, m.level? x = some c → c.isValid = true

def levelOf? (x : String) : Option Level :=
  (m.level? x).bind LevelCode.level?

/-- The block of the statements that write a variable. -/
def home? (x : String) : Option Block :=
  (m.levelOf? x).map fun l ↦ .place l (m.assigned x)

def block? : Stmt → Option Block
  | .decl _ x _ _ => m.home? x
  | .assign x _ => m.home? x
  | .sample .. => some .model
  | _ => none

/-- The block of the statements that write a variable; of no use if the variable has no level. -/
def home (x : String) : Block :=
  (m.home? x).getD .data

/-- The block of a statement; of no use if it has none. -/
def blockOf (s : Stmt) : Block :=
  (m.block? s).getD .data

/-- A variable may be read by something of a level. -/
def MayRead (l : Level) (x : String) : Prop :=
  ∃ k, m.levelOf? x = some k ∧ k ≤ l

/-- What placement asks of a statement after others that declare some variables. -/
def Accepts (declared : List String) : Stmt → Prop
  | .decl _ x _ init => ∃ l, m.levelOf? x = some l ∧
    ∀ y ∈ Expr.readsAll Deps.noUser init.toList, m.MayRead l y
  | .assign x e => x ∈ declared ∧ ∃ l, m.levelOf? x = some l ∧
    ∀ y ∈ e.reads Deps.noUser, m.MayRead l y
  | .sample x _ args => x ∈ declared ∧
    ∀ y ∈ x :: Expr.readsAll Deps.noUser args, m.MayRead .model y
  | _ => False

variable {m}

theorem Valid.level?_eq_some_iff (hm : m.Valid) {x : String} {c : LevelCode} :
    m.level? x = some c ↔ ∃ l, m.levelOf? x = some l ∧ c = l.code := by
  constructor
  · intro h
    obtain ⟨l, hl⟩ := Option.isSome_iff_exists.mp (hm x c h)
    exact ⟨l, by rw [levelOf?, h, Option.bind_some, hl], LevelCode.eq_code_of_level? hl⟩
  · rintro ⟨l, hl, rfl⟩
    obtain ⟨c, hc, hcl⟩ := Option.bind_eq_some_iff.mp hl
    rw [hc, LevelCode.eq_code_of_level? hcl]

theorem home?_eq_some {x : String} {l : Level} (h : m.levelOf? x = some l) :
    m.home? x = some (.place l (m.assigned x)) := by
  rw [home?, h, Option.map_some]

theorem home_eq {x : String} {l : Level} (h : m.levelOf? x = some l) :
    m.home x = .place l (m.assigned x) := by
  rw [home, home?_eq_some h, Option.getD_some]

theorem MayRead.mono {k l : Level} {x : String} (h : m.MayRead k x) (hkl : k ≤ l) :
    m.MayRead l x := by
  obtain ⟨j, hj, hjk⟩ := h
  exact ⟨j, hj, hjk.trans hkl⟩

theorem Accepts.block?_eq {declared : List String} {s : Stmt} (h : m.Accepts declared s) :
    m.block? s = some (m.blockOf s) := by
  have hsome {x : String} {l : Level} (hl : m.levelOf? x = some l) :
      m.home? x = some (m.home x) := by
    rw [home_eq hl, home?_eq_some hl]
  cases s with
  | decl type x data init =>
      obtain ⟨l, hl, -⟩ := h
      exact hsome hl
  | assign x e =>
      obtain ⟨-, l, hl, -⟩ := h
      exact hsome hl
  | sample x dist args => rfl
  | _ => exact h.elim

end LevelMap

namespace Placement

variable {m : LevelMap} {ds : Declared} {declared : List String}

/-! ### Success -/

theorem level_eq_ok_iff (hm : m.Valid) {x : String} {node : Node} {c : LevelCode} :
    level m x node = .ok c ↔ ∃ l, m.levelOf? x = some l ∧ c = l.code := by
  rw [← hm.level?_eq_some_iff]
  cases h : m.level? x <;> simp [level, h]

theorem lessEq?_code (k l : Level) :
    Order.correctness.lessEq? k.code l.code = some (Order.correctness.lessEq k l) := by
  simp [Order.lessEq?]

theorem place?_code (l : Level) (assigned : Bool) :
    Block.place? l.code assigned = some (.place l assigned) := by
  simp [Block.place?]

theorem checkFlows_eq_ok_iff (hm : m.Valid) {target : String} {l : Level} {node : Node}
    {deps : List String} :
    checkFlows m target l.code node deps = .ok () ↔ ∀ x ∈ deps, m.MayRead l x := by
  induction deps with
  | nil => simp [checkFlows]
  | cons x deps ih =>
      rw [checkFlows, Fault.bind_eq_ok_iff, List.forall_mem_cons, ← ih, LevelMap.MayRead]
      constructor
      · rintro ⟨c, hc, hrest⟩
        obtain ⟨k, hk, rfl⟩ := (level_eq_ok_iff hm).mp hc
        rw [lessEq?_code] at hrest
        cases hle : Order.correctness.lessEq k l with
        | false =>
            rw [hle] at hrest
            cases hrest
        | true =>
            rw [hle] at hrest
            exact ⟨⟨k, hk, Order.lessEq_correctness.mp hle⟩, hrest⟩
      · rintro ⟨⟨k, hk, hle⟩, hrest⟩
        refine ⟨k.code, (level_eq_ok_iff hm).mpr ⟨k, hk, rfl⟩, ?_⟩
        rw [lessEq?_code, Order.lessEq_correctness.mpr hle]
        exact hrest

theorem checkReads_eq_ok_iff (hm : m.Valid) {target : String} {l : Level} {node : Node}
    {es : List Expr} {u : Unit} : checkReads m target l.code node es = .ok u ↔
      ∀ x ∈ Expr.readsAll Deps.noUser es, m.MayRead l x := by
  cases u
  simp only [checkReads, checkFlows_eq_ok_iff hm, Deps.ofExprs, List.mem_eraseDups]

/-- The variables declared so far are known with their blocks. -/
def Tracks (m : LevelMap) (declared : List String) (ds : Declared) : Prop :=
  (∀ x ∈ declared, (m.home? x).isSome = true) ∧
    ∀ x, ds.get? x = if x ∈ declared then m.home? x else none

theorem Tracks.nil (m : LevelMap) : Tracks m [] [] :=
  ⟨by simp, fun x ↦ by simp [Declared.get?]⟩

theorem blockOf_eq_ok_iff (hm : m.Valid) (hds : Tracks m declared ds) {s : Stmt} {b : Block} :
    blockOf m ds s = .ok b ↔ m.Accepts declared s ∧ m.block? s = some b := by
  cases s with
  | decl type x data init =>
      simp only [blockOf, Fault.bind_eq_ok_iff, level_eq_ok_iff hm, LevelMap.Accepts,
        LevelMap.block?]
      constructor
      · rintro ⟨c, ⟨l, hl, rfl⟩, h⟩
        simp only [place?_code, Fault.bind_eq_ok_iff, checkReads_eq_ok_iff hm] at h
        obtain ⟨-, hreads, hb⟩ := h
        cases hb
        exact ⟨⟨l, hl, hreads⟩, LevelMap.home?_eq_some hl⟩
      · rintro ⟨⟨l, hl, hreads⟩, hb⟩
        refine ⟨l.code, ⟨l, hl, rfl⟩, ?_⟩
        simp only [place?_code, Fault.bind_eq_ok_iff, checkReads_eq_ok_iff hm]
        have heq := (LevelMap.home?_eq_some hl).symm.trans hb
        exact ⟨(), hreads, congrArg Except.ok (Option.some.inj heq)⟩
  | assign x e =>
      simp only [blockOf, hds.2 x, LevelMap.Accepts, LevelMap.block?]
      by_cases hx : x ∈ declared
      · obtain ⟨b', hb'⟩ := Option.isSome_iff_exists.mp (hds.1 x hx)
        simp only [if_pos hx, hb', Fault.bind_eq_ok_iff, level_eq_ok_iff hm]
        constructor
        · rintro ⟨c, ⟨l, hl, rfl⟩, _, hreads, hb⟩
          cases hb
          rw [checkReads_eq_ok_iff hm] at hreads
          exact ⟨⟨hx, l, hl, by simpa [Expr.readsAll] using hreads⟩, rfl⟩
        · rintro ⟨⟨-, l, hl, hreads⟩, hb⟩
          cases hb
          refine ⟨l.code, ⟨l, hl, rfl⟩, (), (checkReads_eq_ok_iff hm).mpr ?_, rfl⟩
          simpa [Expr.readsAll] using hreads
      · simp [hx]
  | sample x dist args =>
      simp only [blockOf, hds.2 x, LevelMap.Accepts, LevelMap.block?]
      by_cases hx : x ∈ declared
      · obtain ⟨b', hb'⟩ := Option.isSome_iff_exists.mp (hds.1 x hx)
        simp only [if_pos hx, hb']
        rw [Fault.bind_eq_ok_iff]
        constructor
        · rintro ⟨_, hreads, hb⟩
          cases hb
          rw [checkReads_eq_ok_iff hm] at hreads
          exact ⟨⟨hx, by simpa [Expr.readsAll, Expr.reads] using hreads⟩, rfl⟩
        · rintro ⟨⟨-, hreads⟩, hb⟩
          cases hb
          refine ⟨(), (checkReads_eq_ok_iff hm).mpr ?_, rfl⟩
          simpa [Expr.readsAll, Expr.reads] using hreads
      · simp [hx]
  | _ => simp [blockOf, LevelMap.Accepts]

theorem Tracks.declare (hds : Tracks m declared ds) {s : Stmt} {b : Block}
    (hs : m.block? s = some b) :
    Tracks m (declared ++ Stmt.declNames [s]) (declare ds b s) := by
  cases s with
  | decl type y data init =>
      have hnames : Stmt.declNames [.decl type y data init] = [y] := rfl
      have hy : m.home? y = some b := hs
      rw [hnames, Placement.declare, Stmt.declName?]
      constructor
      · refine List.forall_mem_append.mpr ⟨hds.1, List.forall_mem_singleton.mpr ?_⟩
        rw [hy]
        rfl
      · intro x
        have hrest := hds.2 x
        rw [Declared.get?] at hrest ⊢
        by_cases hxy : y = x
        · subst hxy
          simp [hy]
        · simp [hxy, Ne.symm hxy, hrest]
  | _ => exact (List.append_nil declared).symm ▸ hds

/-- Each statement is accepted after those before it, and appended to its block. -/
theorem stmts_eq_ok_iff (hm : m.Valid) (hds : Tracks m declared ds) {ss : List Stmt}
    {l l' : Layout} :
    stmts m l ds ss = .ok l' ↔
      (∀ before s after, ss = before ++ s :: after →
        m.Accepts (declared ++ Stmt.declNames before) s) ∧
      l' = ss.foldl (fun l s ↦ l.append (m.blockOf s) s) l := by
  induction ss generalizing ds declared l with
  | nil => simp [stmts, eq_comm]
  | cons s ss ih =>
      simp only [stmts, Fault.bind_eq_ok_iff, blockOf_eq_ok_iff hm hds, List.foldl_cons]
      constructor
      · rintro ⟨b, ⟨hs, hb⟩, hrest⟩
        obtain rfl : m.blockOf s = b := Option.some.inj (hs.block?_eq.symm.trans hb)
        obtain ⟨hall, hl'⟩ := (ih (hds.declare hb)).mp hrest
        refine ⟨fun before u after heq ↦ ?_, hl'⟩
        cases before with
        | nil =>
            cases heq
            simpa [Stmt.declNames] using hs
        | cons v before =>
            cases heq
            have haccepts := hall before u after rfl
            rwa [List.append_assoc, ← Stmt.declNames_append] at haccepts
      · rintro ⟨hall, hl'⟩
        have hs : m.Accepts declared s := by simpa [Stmt.declNames] using hall [] s ss rfl
        refine ⟨m.blockOf s, ⟨hs, hs.block?_eq⟩, (ih (hds.declare hs.block?_eq)).mpr ⟨?_, hl'⟩⟩
        rintro before v after rfl
        rw [List.append_assoc, ← Stmt.declNames_append]
        exact hall (s :: before) v after rfl

end Placement

theorem Layout.ofProgram_eq_ok_iff_accepts {m : LevelMap} (hm : m.Valid) {p : Program}
    {l : Layout} :
    ofProgram m p = .ok l ↔
      (p.funcs = [] ∧ ∀ before s after, Stmt.flatten p.stmts = before ++ s :: after →
        m.Accepts (Stmt.declNames before) s) ∧
      l = ⟨(Stmt.flatten p.stmts).map fun s ↦ (m.blockOf s, s)⟩ := by
  unfold ofProgram
  split
  · next hfuncs =>
      rw [List.isEmpty_iff] at hfuncs
      simp only [Placement.stmts_eq_ok_iff hm (.nil m), foldl_append, empty, List.nil_append,
        hfuncs, true_and]
  · next hfuncs =>
      rw [List.isEmpty_iff] at hfuncs
      simp [hfuncs]

theorem Layout.exists_accepts_of_mem {m : LevelMap} (hm : m.Valid) {p : Program} {l : Layout}
    (hl : ofProgram m p = .ok l) {s : Stmt} (hs : s ∈ Stmt.flatten p.stmts) :
    ∃ declared, m.Accepts declared s := by
  obtain ⟨⟨-, haccepts⟩, -⟩ := (ofProgram_eq_ok_iff_accepts hm).mp hl
  obtain ⟨before, after, heq⟩ := List.append_of_mem hs
  exact ⟨_, haccepts before s after heq⟩

/-! ### Failure -/

/-- A report that an invariant is violated, which points at nothing but a statement. -/
def Fault.Blames (s : Stmt) (f : Fault) : Prop :=
  ∃ d, f = .report d ∧ d.issue.kind = .internalInvariantViolation ∧ ∀ n ∈ d.node, n = .stmt s

namespace Placement

variable {m : LevelMap}

theorem blames_about {s : Stmt} {i : Issue} (hi : i.kind = .internalInvariantViolation) :
    Fault.Blames s (.about (.stmt s) i) :=
  ⟨_, rfl, hi, fun _ hn ↦ (Option.some.inj hn).symm⟩

theorem yields_level (hm : m.Valid) (x : String) (s : Stmt) :
    Yields (Fault.Blames s) (fun c ↦ ∃ l : Level, c = l.code) (level m x (.stmt s)) := by
  cases h : level m x (.stmt s) with
  | ok c =>
      obtain ⟨l, -, hc⟩ := (level_eq_ok_iff hm).mp h
      exact ⟨l, hc⟩
  | error f =>
      unfold level at h
      split at h
      · cases h
        exact blames_about rfl
      · cases h

theorem yields_checkFlows (hm : m.Valid) (target : String) (l : Level) (s : Stmt)
    (deps : List String) :
    Yields (Fault.Blames s) (fun _ ↦ True) (checkFlows m target l.code (.stmt s) deps) := by
  induction deps with
  | nil => trivial
  | cons x deps ih =>
      refine (yields_level hm x s).bind ?_
      rintro _ ⟨k, rfl⟩
      rw [lessEq?_code]
      cases Order.correctness.lessEq k l with
      | false => exact blames_about rfl
      | true => exact ih

theorem yields_blockOf (hm : m.Valid) (ds : Declared) (s : Stmt) :
    Yields (Fault.Blames s) (fun _ ↦ True) (blockOf m ds s) := by
  cases s with
  | hole => exact ⟨_, rfl, rfl, nofun⟩
  | decl type x data init =>
      refine (yields_level hm x _).bind ?_
      rintro _ ⟨l, rfl⟩
      rw [place?_code]
      exact (yields_checkFlows hm ..).bind fun _ _ ↦ trivial
  | assign x value =>
      unfold blockOf
      dsimp only
      split
      · exact blames_about rfl
      · refine (yields_level hm x _).bind ?_
        rintro _ ⟨l, rfl⟩
        exact (yields_checkFlows hm ..).bind fun _ _ ↦ trivial
  | sample x dist args =>
      unfold blockOf
      dsimp only
      split
      · exact blames_about rfl
      · exact (yields_checkFlows hm ..).bind fun _ _ ↦ trivial
  | block list => exact blames_about rfl
  | func name params body result => exact blames_about rfl

theorem yields_stmts (hm : m.Valid) (l : Layout) (ds : Declared) (ss : List Stmt) :
    Yields (fun f ↦ ∃ s ∈ ss, f.Blames s) (fun _ ↦ True) (stmts m l ds ss) := by
  induction ss generalizing l ds with
  | nil => trivial
  | cons s ss ih =>
      have hs : Yields (fun f ↦ ∃ s' ∈ s :: ss, f.Blames s') (fun _ ↦ True) (blockOf m ds s) :=
        (yields_blockOf hm ds s).imp (fun f hf ↦ ⟨s, List.mem_cons_self .., hf⟩) fun _ h ↦ h
      refine hs.bind fun b _ ↦ (ih _ _).imp ?_ fun _ h ↦ h
      rintro f ⟨s', hs', hf⟩
      exact ⟨s', List.mem_cons_of_mem s hs', hf⟩

end Placement

end Stratify
