import Stratify.Proofs.Calls.Reordering
import Stratify.Proofs.Calls.Size
import Stratify.Proofs.Typing.Keys
import Stratify.Syntax.Build

/-!
# Limits that let the size check overflow

The size check is exact if the number of all bodies is in the range of 64-bit integers, whatever the
limit. Beyond that range it is exact as long as the limit is below `2 ^ 62 - 1`. A larger limit does
not stop the counts before their sum becomes negative, and at the largest one there is no number
that exceeds it: programs whose calls double at every level then pass, however many bodies they
stand for.
-/

namespace Stratify

namespace CallGraph

variable {g : CallGraph} {limit : Nat}

/-- The check passes if and only if the number of bodies is within the limit, and otherwise names
the function of the first call at which it is not. -/
def SizeExact (g : CallGraph) (limit : Nat) (ss : List Stmt) : Prop :=
  ∃ n, g.Copies (Stmt.callsAll ss) n ∧ (g.checkSize ss limit = .ok () ↔ n ≤ limit) ∧
    ∀ d, g.checkSize ss limit = .error d →
      d.issue.kind = .nonTerminatingElaboration ∧
        ∃ c, g.ExceedsAt limit (Stmt.callsAll ss) c ∧ d.issue.chain = [c.fn]

theorem sizeExact_of_ok {ss : List Stmt} {n : Nat} (hn : g.Copies (Stmt.callsAll ss) n)
    (hle : n ≤ limit) (hok : g.checkSize ss limit = .ok ()) : g.SizeExact limit ss := by
  refine ⟨n, hn, ⟨fun _ ↦ hle, fun _ ↦ hok⟩, fun d hd ↦ ?_⟩
  cases hok.symm.trans hd

theorem sizeExact_of_room (hacyclic : g.Acyclic) {ss : List Stmt} {n : Nat}
    (hn : g.Copies (Stmt.callsAll ss) n) (h : Sizes.Room limit n) : g.SizeExact limit ss := by
  rcases checkSize_cases hacyclic hn h with ⟨hle, hok⟩ | ⟨hlt, c, hc, herr⟩
  · exact sizeExact_of_ok hn hle hok
  · refine ⟨n, hn, ⟨fun hok ↦ ?_, fun hle ↦ by omega⟩, fun d hd ↦ ?_⟩
    · cases herr.symm.trans hok
    · cases herr.symm.trans hd
      exact ⟨rfl, c, hc, rfl⟩

/-- A program that passes with more bodies than the limit allows. -/
theorem not_sizeExact_of_ok {ss : List Stmt} {n : Nat} (hn : g.Copies (Stmt.callsAll ss) n)
    (hlt : limit < n) (hok : g.checkSize ss limit = .ok ()) : ¬ g.SizeExact limit ss := by
  rintro ⟨m, hm, hiff, -⟩
  have hle := hiff.mp hok
  rw [hm.unique hn] at hle
  omega

/-! ### The largest limit -/

theorem checkCalls_of_max (ss : Sizes) (cs : List Call) (total : Int64) :
    checkCalls ss (2 ^ 63 - 1 : Nat) cs total = .ok () := by
  induction cs generalizing total with
  | nil => rfl
  | cons c cs ih =>
      rw [checkCalls]
      have hmax : ¬ Int64.ofInt (2 ^ 63 - 1 : Nat) <
          ss.addCall (.ofInt (2 ^ 63 - 1 : Nat)) total c := by
        have hlt := (ss.addCall (.ofInt (2 ^ 63 - 1 : Nat)) total c).toInt_lt
        rw [Int64.lt_iff_toInt_lt, Int64.toInt_ofInt_of_le (by decide) (by decide)]
        omega
      rw [if_neg hmax, ih]

theorem checkSize_of_max (g : CallGraph) (ss : List Stmt) :
    g.checkSize ss (2 ^ 63 - 1 : Nat) = .ok () :=
  checkCalls_of_max ..

theorem sizeExact_of_lt (hacyclic : g.Acyclic) (hlimit : limit < 2 ^ 63) {ss : List Stmt} {n : Nat}
    (hn : g.Copies (Stmt.callsAll ss) n) (h : n < 2 ^ 63) : g.SizeExact limit ss := by
  by_cases hmax : limit = 2 ^ 63 - 1
  · subst hmax
    exact sizeExact_of_ok hn (by omega) (g.checkSize_of_max ss)
  · exact sizeExact_of_room hacyclic hn ⟨by omega, Or.inl h⟩

end CallGraph

/-! ### Calls that double at every level -/

namespace Program

def doublerName (k : Nat) : String :=
  "f" ++ toString k

def doublerCall (k : Nat) : Call :=
  ⟨doublerName k, []⟩

/-- Each function calls the one before it twice. -/
def doubler : Nat → Func
  | 0 => .define (doublerName 0) [] (some (.int 1)) []
  | k + 1 => .define (doublerName (k + 1)) []
      (some (.add (doublerCall k).toExpr (doublerCall k).toExpr)) []

def doubling (n : Nat) : Program :=
  ⟨(List.range (n + 1)).map doubler, [.define "x" (some (doublerCall n).toExpr)]⟩

theorem doubler_name (k : Nat) : (doubler k).name = doublerName k := by
  cases k <;> rfl

theorem doublerName_injective : Function.Injective doublerName := by
  intro k l h
  exact Text.toString_nat_injective ((String.append_right_inj "f").mp h)

theorem doubler_calls_succ (k : Nat) : (doubler (k + 1)).calls = [doublerCall k, doublerCall k] :=
  rfl

theorem doubling_names (n : Nat) :
    (doubling n).funcs.map Func.name = (List.range (n + 1)).map doublerName := by
  rw [doubling, List.map_map]
  exact List.map_congr_left fun k _ ↦ doubler_name k

theorem nodup_doubling_names (n : Nat) : ((doubling n).funcs.map Func.name).Nodup := by
  rw [doubling_names]
  exact List.nodup_range.map doublerName_injective

end Program

namespace Sizes

theorem toInt_min (a b : Int64) : (min a b).toInt = min a.toInt b.toInt := by
  change Int64.toInt (if a ≤ b then a else b) = _
  split
  · next h => exact (min_eq_left (Int64.le_iff_toInt_le.mp h)).symm
  · next h => exact (min_eq_right (by rw [Int64.le_iff_toInt_le] at h; omega)).symm

theorem toInt_add_cases (a b : Int64) (hb : 0 ≤ b.toInt) :
    (a + b).toInt = a.toInt + b.toInt ∧ a.toInt + b.toInt < 2 ^ 63 ∨
      (a + b).toInt = a.toInt + b.toInt - 2 ^ 64 ∧ 2 ^ 63 ≤ a.toInt + b.toInt := by
  have ha : - 2 ^ 63 ≤ a.toInt := a.le_toInt
  have ha' : a.toInt < 2 ^ 63 := a.toInt_lt
  have hb' : b.toInt < 2 ^ 63 := b.toInt_lt
  rw [Int64.toInt_add, Int.bmod_def]
  split <;> omega

/-- A function has called twice a function whose count is stopped in the upper half of the range. -/
theorem overflow_of_half {w : Int64} (h : 2 ^ 62 ≤ w.toInt) : min (min (1 + w) w + w) w < 0 := by
  have hone : (1 : Int64).toInt = 1 := rfl
  have hlt : w.toInt < 2 ^ 63 := w.toInt_lt
  have hfirst := toInt_add_cases 1 w (by omega)
  have hsecond := toInt_add_cases (min (1 + w) w) w (by omega)
  rw [toInt_min] at hsecond
  rw [Int64.lt_iff_toInt_lt, Int64.toInt_zero, toInt_min]
  omega

end Sizes

namespace CallGraph

open Program

variable {limit n k : Nat}

theorem func?_doubling (hk : k ≤ n) :
    (ofProgram (doubling n)).func? (doublerName k) = some (doubler k) :=
  (func?_eq_some_iff (nodup_doubling_names n)).mpr
    ⟨List.mem_map.mpr ⟨k, List.mem_range.mpr (by omega), rfl⟩, doubler_name k⟩

theorem isUser_doubling (hk : k ≤ n) : (ofProgram (doubling n)).isUser (doublerName k) = true := by
  rw [isUser, func?_doubling hk]
  rfl

theorem mem_names_doubling {fn : String} :
    fn ∈ (ofProgram (doubling n)).names ↔ ∃ k ≤ n, doublerName k = fn := by
  rw [names, List.mem_mergeSort, List.mem_eraseDups, ofProgram, doubling_names]
  simp only [List.mem_map, List.mem_range, Nat.lt_succ_iff]

theorem length_names_doubling (n : Nat) : (ofProgram (doubling n)).names.length = n + 1 := by
  rw [names, List.length_mergeSort, ofProgram, eraseDups_of_nodup (nodup_doubling_names n),
    doubling_names, List.length_map, List.length_range]

theorem userCalls_doubling_zero (n : Nat) :
    (ofProgram (doubling n)).userCalls (doublerName 0) = [] := by
  rw [userCalls, func?_doubling (Nat.zero_le n)]
  rfl

theorem userCalls_doubling_succ (hk : k < n) :
    (ofProgram (doubling n)).userCalls (doublerName (k + 1)) = [doublerCall k, doublerCall k] := by
  have huser : (ofProgram (doubling n)).isUser (doublerCall k).fn = true :=
    isUser_doubling (Nat.le_of_lt hk)
  rw [userCalls, func?_doubling hk]
  simp only [doubler_calls_succ, List.filter_cons, huser, List.filter_nil, if_true]

theorem nestsWithin_doubling (hk : k ≤ n) :
    (ofProgram (doubling n)).NestsWithin (k + 1) (doublerName k) := by
  induction k with
  | zero => simp [NestsWithin, userCalls_doubling_zero]
  | succ k ih =>
      intro c hc
      rw [userCalls_doubling_succ hk] at hc
      have hck : c = doublerCall k := by simpa using hc
      exact hck ▸ ih (Nat.le_of_succ_le hk)

theorem acyclic_doubling (n : Nat) : (ofProgram (doubling n)).Acyclic := by
  have hnest : ∀ fn ∈ (ofProgram (doubling n)).names,
      (ofProgram (doubling n)).NestsWithin (n + 1) fn := by
    intro fn hfn
    obtain ⟨k, hk, rfl⟩ := mem_names_doubling.mp hfn
    exact (nestsWithin_doubling hk).mono (Nat.succ_le_succ hk)
  exact (forall_nestsWithin_iff.mp hnest).1

theorem bodies_doubling {depth : Nat} (hk : k ≤ n) (hdepth : k < depth) :
    (ofProgram (doubling n)).bodies depth (doublerName k) = 2 ^ (k + 1) - 1 := by
  induction k generalizing depth with
  | zero =>
      obtain _ | depth := depth
      · omega
      · rw [bodies, userCalls_doubling_zero]
        rfl
  | succ k ih =>
      obtain _ | depth := depth
      · omega
      · have hbodies : (ofProgram (doubling n)).bodies depth (doublerCall k).fn = 2 ^ (k + 1) - 1 :=
          ih (Nat.le_of_succ_le hk) (Nat.lt_of_succ_lt_succ hdepth)
        have hpos : 0 < 2 ^ (k + 1) := Nat.two_pow_pos (k + 1)
        rw [bodies, userCalls_doubling_succ hk, List.map_cons, List.map_cons, hbodies]
        simp only [List.map_nil, List.sum_cons, List.sum_nil]
        omega

theorem userCalls_doubling_stmts (n : Nat) :
    ((Stmt.callsAll (doubling n).stmts).filter fun c ↦ (ofProgram (doubling n)).isUser c.fn) =
      [doublerCall n] := by
  have huser : (ofProgram (doubling n)).isUser (doublerCall n).fn = true := isUser_doubling le_rfl
  have hcalls : Stmt.callsAll (doubling n).stmts = [doublerCall n] := rfl
  rw [hcalls, List.filter_cons, if_pos huser, List.filter_nil]

theorem copies_doubling (n : Nat) :
    (ofProgram (doubling n)).Copies (Stmt.callsAll (doubling n).stmts) (2 ^ (n + 1) - 1) := by
  have hnest : ∀ c ∈ Stmt.callsAll (doubling n).stmts,
      (ofProgram (doubling n)).isUser c.fn = true →
        (ofProgram (doubling n)).NestsWithin (n + 1) c.fn := by
    intro c hc huser
    have hmem : c ∈ [doublerCall n] := userCalls_doubling_stmts n ▸ List.mem_filter.mpr ⟨hc, huser⟩
    rw [List.mem_singleton.mp hmem]
    exact nestsWithin_doubling le_rfl
  have hcopies := copies_bodies hnest
  rw [userCalls_doubling_stmts] at hcopies
  simpa [doublerCall, bodies_doubling] using hcopies

/-- The limit stops the counts of both calls of the last function, but not before their sum has
become negative. -/
theorem size_doubling_neg (hlow : 2 ^ 62 ≤ limit + 1) (hhigh : limit + 1 < 2 ^ 63) :
    ((ofProgram (doubling 63)).sizes (.ofInt limit)).size (doublerName 63) < 0 := by
  have hbodies : (ofProgram (doubling 63)).bodies 63 (doublerName 62) = 2 ^ 63 - 1 :=
    bodies_doubling (by decide) (by decide)
  have hroom : Sizes.Room limit ((ofProgram (doubling 63)).bodies 63 (doublerName 62)) :=
    ⟨hhigh, Or.inl (by rw [hbodies]; decide)⟩
  have hsize : ((ofProgram (doubling 63)).sizesTo (.ofInt limit) 63).size (doublerCall 62).fn =
      Int64.ofNat (limit + 1) := by
    rw [doublerCall, size_sizesTo (mem_names_doubling.mpr ⟨62, by decide, rfl⟩) hroom, hbodies,
      Sizes.capped, Nat.min_eq_right (by omega)]
  rw [sizes, length_names_doubling, sizesTo,
    Sizes.size_map _ (mem_names_doubling.mpr ⟨63, by decide, rfl⟩),
    userCalls_doubling_succ (by decide)]
  simp only [List.foldl_cons, List.foldl_nil, Sizes.addCall, hsize, Sizes.ofInt_add_one]
  refine Sizes.overflow_of_half ?_
  rw [Int64.toInt_ofNat_of_lt hhigh]
  omega

theorem checkSize_doubling (hlow : 2 ^ 62 ≤ limit + 1) (hlimit : limit < 2 ^ 63) :
    (ofProgram (doubling 63)).checkSize (doubling 63).stmts limit = .ok () := by
  by_cases hmax : limit = 2 ^ 63 - 1
  · subst hmax
    exact checkSize_of_max ..
  have hneg : Sizes.size _ (doublerCall 63).fn < 0 := size_doubling_neg hlow (by omega)
  have hpass : ¬ Int64.ofInt limit < ((ofProgram (doubling 63)).sizes (.ofInt limit)).addCall
      (.ofInt limit) 0 (doublerCall 63) := by
    have hvalue : (Int64.ofInt limit).toInt = limit := by
      rw [Int64.ofInt_eq_ofNat, Int64.toInt_ofNat_of_lt hlimit]
    rw [Int64.lt_iff_toInt_lt, Int64.toInt_zero] at hneg
    rw [Sizes.addCall, Int64.zero_add, Int64.lt_iff_toInt_lt, Sizes.toInt_min, hvalue]
    omega
  rw [checkSize, userCalls_doubling_stmts, checkCalls, if_neg hpass]
  rfl

/-- The size check is exact for all statements with fewer than `2 ^ 63` bodies. It is exact for all
statements only with a limit that stops the counts below `2 ^ 62`. -/
theorem sizeExact_iff_limit_lt {limit : Nat} (hlimit : limit < 2 ^ 63) :
    (∀ p : Program, (ofProgram p).Acyclic → ∀ ss n, (ofProgram p).Copies (Stmt.callsAll ss) n →
      n < 2 ^ 63 → (ofProgram p).SizeExact limit ss) ∧
    ((∀ p : Program, (ofProgram p).Acyclic → ∀ ss, (ofProgram p).SizeExact limit ss) ↔
      limit + 1 < 2 ^ 62) := by
  refine ⟨fun p hacyclic ss n hn h ↦ sizeExact_of_lt hacyclic hlimit hn h, ?_, ?_⟩
  · intro hexact
    by_contra hhalf
    have hok := checkSize_doubling (Nat.le_of_not_lt hhalf) hlimit
    exact not_sizeExact_of_ok (copies_doubling 63) (by omega) hok
      (hexact _ (acyclic_doubling 63) (doubling 63).stmts)
  · intro hroom p hacyclic ss
    obtain ⟨n, hn⟩ := hacyclic.exists_copies (Stmt.callsAll ss)
    exact sizeExact_of_room hacyclic hn (Sizes.room_of_lt hroom n)

/-- The largest limit for which the check is exact, and a program that is far beyond it. -/
theorem sizeExact_doubling : 2 ^ 62 - 2 < 2 ^ 63 ∧ (ofProgram (doubling 63)).Acyclic ∧
    (ofProgram (doubling 63)).SizeExact (2 ^ 62 - 2) (doubling 63).stmts :=
  ⟨by decide, acyclic_doubling 63,
    (sizeExact_iff_limit_lt (by decide)).2.mpr (by decide) _ (acyclic_doubling 63) _⟩

/-- With the largest limit there is, a program passes that stands for more bodies than it allows. -/
theorem not_sizeExact_doubling : (ofProgram (doubling 63)).Acyclic ∧
    (ofProgram (doubling 63)).Copies (Stmt.callsAll (doubling 63).stmts) (2 ^ 64 - 1) ∧
    (ofProgram (doubling 63)).checkSize (doubling 63).stmts (2 ^ 63 - 1 : Nat) = .ok () ∧
    ¬ (ofProgram (doubling 63)).SizeExact (2 ^ 63 - 1) (doubling 63).stmts :=
  ⟨acyclic_doubling 63, copies_doubling 63, checkSize_of_max ..,
    not_sizeExact_of_ok (copies_doubling 63) (by decide) (checkSize_of_max ..)⟩

end CallGraph

end Stratify
