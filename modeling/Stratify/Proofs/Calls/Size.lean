import Mathlib.Algebra.Order.BigOperators.Group.List
import Mathlib.Algebra.Order.Ring.Nat
import Mathlib.Algebra.Ring.Int.Defs
import Stratify.Calls.Size
import Stratify.Proofs.Calls.Depth

/-!
# The size check is exact

In a graph without cycles the counts are the numbers of function bodies that inlining copies, cut
off just above the limit. They are right as long as no sum of two counts overflows. This is so if
the number of all bodies is itself in range, and for any number of bodies if the limit stops every
count in the lower half of the range.
-/

namespace Stratify

namespace CallGraph

variable {g : CallGraph}

/-- How many bodies it takes to unroll some calls: one for each call to a user function, and those
of the calls in its body. -/
inductive Copies (g : CallGraph) : List Call → Nat → Prop
  | nil : Copies g [] 0
  | prim {c cs n} : g.func? c.fn = none → Copies g cs n → Copies g (c :: cs) n
  | user {c cs f m n} :
      g.func? c.fn = some f → Copies g f.calls m → Copies g cs n → Copies g (c :: cs) (m + 1 + n)

theorem Copies.unique {cs : List Call} {m n : Nat} (hm : g.Copies cs m) (hn : g.Copies cs n) :
    m = n := by
  induction hm generalizing n with
  | nil =>
      cases hn
      rfl
  | prim hnone _ ih =>
      cases hn with
      | prim _ hrest => exact ih hrest
      | user hsome => cases hnone.symm.trans hsome
  | user hsome _ _ ihBody ih =>
      cases hn with
      | prim hnone => cases hnone.symm.trans hsome
      | user hsome' hbody hrest =>
          cases Option.some.inj (hsome.symm.trans hsome')
          rw [ihBody hbody, ih hrest]

/-- The number of bodies of one call, if calls are nested up to a depth. -/
def bodies (g : CallGraph) : (depth : Nat) → String → Nat
  | 0, _ => 0
  | depth + 1, fn => 1 + ((g.userCalls fn).map fun c ↦ g.bodies depth c.fn).sum

theorem copies_bodies {n : Nat} {cs : List Call}
    (h : ∀ c ∈ cs, g.isUser c.fn = true → g.NestsWithin n c.fn) :
    g.Copies cs ((cs.filter fun c ↦ g.isUser c.fn).map fun c ↦ g.bodies n c.fn).sum := by
  induction n generalizing cs with
  | zero =>
      induction cs with
      | nil => exact .nil
      | cons c cs ih =>
          rw [List.forall_mem_cons] at h
          have hprim : g.isUser c.fn = false := Bool.eq_false_iff.mpr fun huser ↦ h.1 huser
          rw [List.filter_cons_of_neg (by simp [hprim])]
          exact .prim (Option.isNone_iff_eq_none.mp (by simpa [isUser] using hprim)) (ih h.2)
  | succ n ihBody =>
      induction cs with
      | nil => exact .nil
      | cons c cs ih =>
          rw [List.forall_mem_cons] at h
          cases hf : g.func? c.fn with
          | none =>
              have hprim : g.isUser c.fn = false := by simp [isUser, hf]
              rw [List.filter_cons_of_neg (by simp [hprim])]
              exact .prim hf (ih h.2)
          | some f =>
              have huser : g.isUser c.fn = true := by simp [isUser, hf]
              have hcalls : g.userCalls c.fn = f.calls.filter fun c ↦ g.isUser c.fn := by
                rw [userCalls, hf]
              have hbody : g.Copies f.calls _ := ihBody fun d hd huser' ↦ h.1 huser d
                (hcalls ▸ List.mem_filter.mpr ⟨hd, huser'⟩)
              rw [List.filter_cons_of_pos (by simpa using huser), List.map_cons, List.sum_cons,
                bodies, hcalls, Nat.add_comm 1]
              exact .user hf hbody (ih h.2)

theorem Acyclic.exists_copies (h : g.Acyclic) (cs : List Call) : ∃ n, g.Copies cs n :=
  ⟨_, copies_bodies fun _ _ huser ↦ h.nestsWithin_names (mem_names.mpr huser)⟩

end CallGraph

/-! ### Counts that stop above the limit -/

namespace Sizes

variable {limit : Nat}

/-- A number as a count that never exceeds the limit by more than one. -/
def capped (limit n : Nat) : Int64 :=
  .ofNat (min n (limit + 1))

/-- No two counts that add up to `n` overflow: their sum does not, or each of them is stopped before
it has taken half of the range. -/
structure Room (limit n : Nat) : Prop where
  limit_lt : limit + 1 < 2 ^ 63
  sum_lt : n < 2 ^ 63 ∨ limit + 1 < 2 ^ 62

theorem room_of_lt (h : limit + 1 < 2 ^ 62) (n : Nat) : Room limit n :=
  ⟨by omega, Or.inr h⟩

theorem Room.mono {m n : Nat} (h : Room limit n) (hmn : m ≤ n) : Room limit m :=
  ⟨h.limit_lt, h.sum_lt.imp_left fun hn ↦ by omega⟩

theorem toInt_capped (h : limit + 1 < 2 ^ 63) (n : Nat) :
    (capped limit n).toInt = min n (limit + 1) :=
  Int64.toInt_ofNat_of_lt (by omega)

theorem min_ofNat {a b : Nat} (ha : a < 2 ^ 63) (hb : b < 2 ^ 63) :
    min (Int64.ofNat a) (Int64.ofNat b) = Int64.ofNat (min a b) := by
  have hle : Int64.ofNat a ≤ Int64.ofNat b ↔ a ≤ b := by
    rw [Int64.le_iff_toInt_le, Int64.toInt_ofNat_of_lt ha, Int64.toInt_ofNat_of_lt hb, Int.ofNat_le]
  change (if _ then _ else _) = _
  by_cases h : a ≤ b
  · rw [if_pos (hle.mpr h), Nat.min_eq_left h]
  · rw [if_neg (fun h' ↦ h (hle.mp h')), Nat.min_eq_right (Nat.le_of_not_le h)]

theorem ofInt_add_one (limit : Nat) : Int64.ofInt limit + 1 = Int64.ofNat (limit + 1) := by
  rw [Int64.ofInt_eq_ofNat, Int64.ofNat_add]
  rfl

theorem addCall_capped {ss : Sizes} {c : Call} {a b : Nat} (h : Room limit (a + b))
    (hc : ss.size c.fn = capped limit b) :
    ss.addCall (.ofInt limit) (capped limit a) c = capped limit (a + b) := by
  obtain ⟨hlimit, hsum⟩ := h
  rw [addCall, hc, ofInt_add_one, capped, capped, ← Int64.ofNat_add,
    min_ofNat (by omega) (by omega), capped]
  congr 1
  omega

theorem foldl_addCall_capped {ss : Sizes} {size : String → Nat} {cs : List Call} {a : Nat}
    (h : Room limit (a + (cs.map fun c ↦ size c.fn).sum))
    (hcs : ∀ c ∈ cs, ss.size c.fn = capped limit (size c.fn)) :
    cs.foldl (ss.addCall (.ofInt limit)) (capped limit a) =
      capped limit (a + (cs.map fun c ↦ size c.fn).sum) := by
  induction cs generalizing a with
  | nil => rfl
  | cons c cs ih =>
      rw [List.forall_mem_cons] at hcs
      rw [List.map_cons, List.sum_cons, ← Nat.add_assoc] at h ⊢
      rw [List.foldl_cons, addCall_capped (h.mono (Nat.le_add_right ..)) hcs.1, ih h hcs.2]

theorem size_map {names : List String} (f : String → Int64) {fn : String} (hfn : fn ∈ names) :
    size (names.map fun name ↦ (name, f name)) fn = f fn := by
  unfold size
  induction names with
  | nil => cases hfn
  | cons name names ih =>
      rw [List.map_cons, List.find?_cons]
      by_cases heq : name = fn
      · simp [heq]
      · simpa [heq] using ih ((List.mem_cons.mp hfn).resolve_left fun h ↦ heq h.symm)

end Sizes

namespace CallGraph

variable {g : CallGraph} {limit : Nat}

theorem size_sizesTo {n : Nat} {fn : String} (hfn : fn ∈ g.names)
    (h : Sizes.Room limit (g.bodies n fn)) :
    (g.sizesTo (.ofInt limit) n).size fn = Sizes.capped limit (g.bodies n fn) := by
  induction n generalizing fn with
  | zero =>
      rw [bodies, Sizes.capped, Nat.zero_min]
      rfl
  | succ n ih =>
      have hone : (1 : Int64) = Sizes.capped limit 1 := by
        rw [Sizes.capped, Nat.min_eq_left (by omega)]
        rfl
      rw [bodies] at h ⊢
      rw [sizesTo, Sizes.size_map _ hfn, hone]
      refine Sizes.foldl_addCall_capped h fun c hc ↦ ih (mem_names_of_mem_userCalls hc) (h.mono ?_)
      exact Nat.le_add_left_of_le (List.le_sum_of_mem (List.mem_map.mpr ⟨c, hc, rfl⟩))

/-- The running total exceeds the limit at some call if the whole sum does. -/
theorem checkCalls_cases {ss : Sizes} {size : String → Nat} {cs : List Call} {total : Nat}
    (h : Sizes.Room limit (total + (cs.map fun c ↦ size c.fn).sum))
    (hcs : ∀ c ∈ cs, ss.size c.fn = Sizes.capped limit (size c.fn)) (htotal : total ≤ limit) :
    (total + (cs.map fun c ↦ size c.fn).sum ≤ limit ∧
        checkCalls ss limit cs (Sizes.capped limit total) = .ok ()) ∨
      ∃ before c after, cs = before ++ c :: after ∧
        total + (before.map fun c ↦ size c.fn).sum ≤ limit ∧
        limit < total + ((before ++ [c]).map fun c ↦ size c.fn).sum ∧
        checkCalls ss limit cs (Sizes.capped limit total) =
          .error ⟨.tooManyBodies c.fn limit, some (.expr c.toExpr)⟩ := by
  induction cs generalizing total with
  | nil => exact Or.inl ⟨htotal, rfl⟩
  | cons c cs ih =>
      rw [List.forall_mem_cons] at hcs
      rw [List.map_cons, List.sum_cons, ← Nat.add_assoc] at h ⊢
      rw [checkCalls, Sizes.addCall_capped (h.mono (Nat.le_add_right ..)) hcs.1]
      have hlt : Int64.ofInt limit < Sizes.capped limit (total + size c.fn) ↔
          limit < total + size c.fn := by
        have hlimit := h.limit_lt
        rw [Int64.lt_iff_toInt_lt, Sizes.toInt_capped hlimit, Int64.ofInt_eq_ofNat,
          Int64.toInt_ofNat_of_lt (by omega)]
        omega
      by_cases hover : limit < total + size c.fn
      · rw [if_pos (hlt.mpr hover)]
        exact Or.inr ⟨[], c, cs, rfl, htotal, by simpa using hover, rfl⟩
      · rw [if_neg (fun h ↦ hover (hlt.mp h))]
        rcases ih h hcs.2 (Nat.le_of_not_lt hover) with
          hok | ⟨before, c', after, rfl, hle, hgt, herr⟩
        · exact Or.inl hok
        · refine Or.inr ⟨c :: before, c', after, rfl, ?_, ?_, herr⟩
          · rwa [List.map_cons, List.sum_cons, ← Nat.add_assoc]
          · rwa [List.cons_append, List.map_cons, List.sum_cons, ← Nat.add_assoc]

/-- The first call at which the bodies of some calls are more than a limit allows. -/
def ExceedsAt (g : CallGraph) (limit : Nat) (cs : List Call) (c : Call) : Prop :=
  ∃ before after m n, cs = before ++ c :: after ∧
    g.Copies before m ∧ m ≤ limit ∧ g.Copies (before ++ [c]) n ∧ limit < n

/-- A sum over the user calls among some calls is exceeded at one of the user calls. -/
theorem exceedsAt_of_filter {size : String → Nat} {cs : List Call}
    (hsize : ∀ cs : List Call,
      g.Copies cs ((cs.filter fun c ↦ g.isUser c.fn).map fun c ↦ size c.fn).sum)
    {before after : List Call} {c : Call}
    (hcs : (cs.filter fun c ↦ g.isUser c.fn) = before ++ c :: after)
    (hle : (before.map fun c ↦ size c.fn).sum ≤ limit)
    (hlt : limit < ((before ++ [c]).map fun c ↦ size c.fn).sum) : g.ExceedsAt limit cs c := by
  obtain ⟨front, rest, rfl, rfl, hrest⟩ := List.filter_eq_append_iff.mp hcs
  obtain ⟨prims, back, rfl, hprims, hc, rfl⟩ := List.filter_eq_cons_iff.mp hrest
  have hfilter : ((front ++ prims).filter fun c ↦ g.isUser c.fn) =
      front.filter fun c ↦ g.isUser c.fn := by
    rw [List.filter_append, List.filter_eq_nil_iff.mpr hprims, List.append_nil]
  refine ⟨front ++ prims, back, _, _, by simp, hsize _, ?_, hsize _, ?_⟩
  · rwa [hfilter]
  · have hlast : ([c].filter fun c ↦ g.isUser c.fn) = [c] := by simpa using hc
    rwa [List.filter_append, hfilter, hlast]

theorem checkSize_cases (hacyclic : g.Acyclic) {ss : List Stmt} {n : Nat}
    (hn : g.Copies (Stmt.callsAll ss) n) (h : Sizes.Room limit n) :
    (n ≤ limit ∧ g.checkSize ss limit = .ok ()) ∨
      limit < n ∧ ∃ c, g.ExceedsAt limit (Stmt.callsAll ss) c ∧
        g.checkSize ss limit = .error ⟨.tooManyBodies c.fn limit, some (.expr c.toExpr)⟩ := by
  have hcopies (cs : List Call) : g.Copies cs _ := copies_bodies (n := g.names.length)
    fun c _ huser ↦ hacyclic.nestsWithin_names (mem_names.mpr huser)
  cases hn.unique (hcopies _)
  have hsizes : ∀ c ∈ (Stmt.callsAll ss).filter fun c ↦ g.isUser c.fn,
      (g.sizes (.ofInt limit)).size c.fn = Sizes.capped limit (g.bodies g.names.length c.fn) := by
    intro c hc
    refine size_sizesTo (mem_names.mpr (List.mem_filter.mp hc).2) (h.mono ?_)
    exact List.le_sum_of_mem (List.mem_map.mpr ⟨c, hc, rfl⟩)
  have hzero : (0 : Int64) = Sizes.capped limit 0 := by
    rw [Sizes.capped, Nat.zero_min]
    rfl
  rw [checkSize, hzero]
  rw [← Nat.zero_add (List.sum _)] at h
  rcases checkCalls_cases h hsizes (Nat.zero_le limit) with
    ⟨hle, hok⟩ | ⟨before, c, after, hcs, hle, hlt, herr⟩
  · exact Or.inl ⟨by rwa [Nat.zero_add] at hle, hok⟩
  · rw [Nat.zero_add] at hle hlt
    refine Or.inr ⟨?_, c, exceedsAt_of_filter hcopies hcs hle hlt, herr⟩
    rw [hcs, List.append_cons, List.map_append, List.sum_append]
    exact hlt.trans_le (Nat.le_add_right ..)

theorem checkSize_unrolls (hlimit : limit < 2 ^ 61) (hacyclic : g.Acyclic) (ss : List Stmt) :
    Unrolls (∃ n, g.Copies (Stmt.callsAll ss) n ∧ limit < n)
      (fun _ ↦ ∃ n, g.Copies (Stmt.callsAll ss) n ∧ n ≤ limit) (g.checkSize ss limit) := by
  obtain ⟨n, hn⟩ := hacyclic.exists_copies (Stmt.callsAll ss)
  have hroom : Sizes.Room limit n := Sizes.room_of_lt (by omega) n
  rcases checkSize_cases hacyclic hn hroom with
    ⟨hle, hok⟩ | ⟨hlt, c, -, herr⟩
  · exact .of_ok hok ⟨n, hn, hle⟩
  · exact .of_error ⟨n, hn, hlt⟩ herr rfl

end CallGraph

end Stratify
