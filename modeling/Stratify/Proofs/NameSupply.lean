import Mathlib.Data.List.Nodup
import Mathlib.Data.List.Perm.Subperm
import Mathlib.Logic.Relation
import Mathlib.Order.Bounds.Basic
import Stratify.NameSupply
import Stratify.Proofs.Typing.Keys

/-!
# A supply gives no name twice

Fresh names are glued together from a root, a separator and a number, so names of different roots,
and names that were reserved, may well read the same. What keeps them apart is that a taken name is
passed over. The numbers of one root give different names, and only finitely many of them are taken:
the search for a free one comes to an end, at the least number that has not been used or passed over
and gives a name that is not taken. This is so after any sequence of requests.
-/

namespace Stratify

namespace NameSupply

variable {s s' : NameSupply} {root : String}

theorem candidate_injective {m n : Nat} (h : s.candidate root m = s.candidate root n) : m = n :=
  Text.toString_nat_injective ((String.append_right_inj (root ++ s.sep)).mp h)

/-- As many names as there are numbers. -/
theorem le_length_of_candidates_mem {names : List String} {n k : Nat}
    (h : ∀ i < k, s.candidate root (n + i) ∈ names) : k ≤ names.length := by
  have hnodup : ((List.range k).map fun i ↦ s.candidate root (n + i)).Nodup := by
    refine List.Nodup.map (fun i j hij ↦ ?_) List.nodup_range
    exact Nat.add_left_cancel (candidate_injective hij)
  have hsubset : ((List.range k).map fun i ↦ s.candidate root (n + i)) ⊆ names := by
    intro name hname
    obtain ⟨i, hi, rfl⟩ := List.mem_map.mp hname
    exact h i (List.mem_range.mp hi)
  have hle := (hnodup.subperm hsubset).length_le
  rwa [List.length_map, List.length_range] at hle

/-! ### The search for a number -/

theorem le_search (s : NameSupply) (root : String) (fuel n : Nat) : n ≤ s.search root fuel n := by
  induction fuel generalizing n with
  | zero => exact le_rfl
  | succ fuel ih =>
      rw [search]
      split
      · exact (Nat.le_succ n).trans (ih (n + 1))
      · exact le_rfl

/-- The search only passes over numbers that give taken names. -/
theorem mem_taken_of_lt_search {fuel n m : Nat} (hle : n ≤ m) (hlt : m < s.search root fuel n) :
    s.candidate root m ∈ s.taken := by
  induction fuel generalizing n with
  | zero =>
      rw [search] at hlt
      omega
  | succ fuel ih =>
      rw [search] at hlt
      split at hlt
      · next htaken =>
          rcases Nat.eq_or_lt_of_le hle with rfl | hlt'
          · simpa [isTaken] using htaken
          · exact ih hlt' hlt
      · omega

/-- If the search stops at a taken name, it has run out of fuel. -/
theorem search_eq_of_mem_taken {fuel n : Nat}
    (h : s.candidate root (s.search root fuel n) ∈ s.taken) : s.search root fuel n = n + fuel := by
  induction fuel generalizing n with
  | zero => rfl
  | succ fuel ih =>
      rw [search] at h ⊢
      split at h
      · next htaken =>
          rw [if_pos htaken, ih h]
          omega
      · next hfree => exact absurd h (by simpa [isTaken] using hfree)

/-- There are more candidates than taken names. -/
theorem fresh_notMem (s : NameSupply) (root : String) : (s.fresh root).1 ∉ s.taken := by
  intro h
  have hstop : s.number root = s.next + s.taken.length := search_eq_of_mem_taken h
  have hall : ∀ i < s.taken.length + 1, s.candidate root (s.next + i) ∈ s.taken := by
    intro i hi
    rcases Nat.eq_or_lt_of_le (Nat.lt_succ_iff.mp hi) with rfl | hlt
    · rw [← hstop]
      exact h
    · apply mem_taken_of_lt_search (Nat.le_add_right _ _)
      exact hstop ▸ Nat.add_lt_add_left hlt _
  have hle := le_length_of_candidates_mem hall
  omega

/-- The number of a fresh name is the first that gives a free name. -/
theorem isLeast_number (s : NameSupply) (root : String) :
    IsLeast {n | s.next ≤ n ∧ s.candidate root n ∉ s.taken} (s.number root) := by
  refine ⟨⟨s.le_search root _ _, s.fresh_notMem root⟩, ?_⟩
  rintro n ⟨hle, hfree⟩
  by_contra hlt
  exact hfree (mem_taken_of_lt_search hle (Nat.not_le.mp hlt))

theorem taken_fresh (s : NameSupply) (root : String) :
    (s.fresh root).2.taken = (s.fresh root).1 :: s.taken :=
  rfl

theorem exists_fresh_eq (s : NameSupply) (root : String) : ∃ t, (s.fresh root).1 = root ++ t :=
  ⟨s.sep ++ toString (s.number root), by simp [fresh, candidate, String.append_assoc]⟩

/-! ### The loop behind the search -/

/-- A turn of the loop in vain: the next name of the root is taken, and its number is passed
over. -/
def Skips (root : String) (s s' : NameSupply) : Prop :=
  s.candidate root s.next ∈ s.taken ∧ s' = { s with next := s.next + 1 }

/-- The last turn of the loop: the next name of the root is free, and is given away. -/
def Gives (root : String) (s : NameSupply) (name : String) (s' : NameSupply) : Prop :=
  s.candidate root s.next ∉ s.taken ∧ name = s.candidate root s.next ∧
    s' = { s with next := s.next + 1, taken := name :: s.taken }

/-- The loop comes to its last turn, which gives away a name. -/
def Ends (root : String) (s : NameSupply) (name : String) (s' : NameSupply) : Prop :=
  ∃ t, Relation.ReflTransGen (Skips root) s t ∧ t.Gives root name s'

theorem reflTransGen_skips_iff {t : NameSupply} : Relation.ReflTransGen (Skips root) s t ↔
    ∃ n, s.next ≤ n ∧ (∀ m, s.next ≤ m → m < n → s.candidate root m ∈ s.taken) ∧
      t = { s with next := n } := by
  constructor
  · intro h
    induction h with
    | refl => exact ⟨s.next, le_rfl, fun m hle hlt ↦ absurd hle (Nat.not_le.mpr hlt), rfl⟩
    | tail _ hskip ih =>
        obtain ⟨n, hn, hall, rfl⟩ := ih
        obtain ⟨htaken, rfl⟩ := hskip
        refine ⟨n + 1, hn.trans (Nat.le_succ n), fun m hle hlt ↦ ?_, rfl⟩
        rcases Nat.eq_or_lt_of_le (Nat.lt_succ_iff.mp hlt) with rfl | hlt
        · exact htaken
        · exact hall m hle hlt
  · rintro ⟨n, hn, hall, rfl⟩
    induction n, hn using Nat.le_induction with
    | base => exact .refl
    | succ n hn ih =>
        have hskips := ih fun m hle hlt ↦ hall m hle (hlt.trans (Nat.lt_succ_self n))
        exact hskips.tail ⟨hall n hn (Nat.lt_succ_self n), rfl⟩

/-- No more turns are in vain than there are taken names. -/
theorem length_skips_le {turns : List NameSupply} (h : (s :: turns).IsChain (Skips root))
    {names : List String} (hnames : ∀ x ∈ s.taken, x ∈ names) : turns.length ≤ names.length := by
  -- The turn with the number `i` passes over the candidate with the number `s.next + i`.
  have hpassed : ∀ i < turns.length, s.candidate root (s.next + i) ∈ s.taken := by
    induction turns generalizing s with
    | nil =>
        intro i hi
        cases hi
    | cons t turns ih =>
        obtain ⟨⟨htaken, rfl⟩, hrest⟩ := List.isChain_cons_cons.mp h
        intro i hi
        cases i with
        | zero => exact htaken
        | succ i =>
            have hmem := ih hrest hnames i (Nat.lt_of_succ_lt_succ hi)
            have hadd : s.next + 1 + i = s.next + (i + 1) := by omega
            exact hadd ▸ hmem
  exact le_length_of_candidates_mem fun i hi ↦ hnames _ (hpassed i hi)

/-- The loop has one end only: what the search finds. -/
theorem ends_iff {name : String} : s.Ends root name s' ↔ (name, s') = s.fresh root := by
  have hleast := s.isLeast_number root
  constructor
  · rintro ⟨t, hskips, hfree, rfl, rfl⟩
    obtain ⟨n, hn, hall, rfl⟩ := reflTransGen_skips_iff.mp hskips
    have heq : n = s.number root := by
      refine le_antisymm ?_ (hleast.2 ⟨hn, hfree⟩)
      by_contra hlt
      exact hleast.1.2 (hall _ hleast.1.1 (Nat.not_le.mp hlt))
    rw [heq]
    rfl
  · intro h
    cases h
    refine ⟨{ s with next := s.number root }, ?_, hleast.1.2, rfl, rfl⟩
    refine reflTransGen_skips_iff.mpr ⟨s.number root, hleast.1.1, fun m hle hlt ↦ ?_, rfl⟩
    exact mem_taken_of_lt_search hle hlt

/-! ### Reserved names -/

theorem taken_reserveAll (names : List String) :
    ∀ x, x ∈ (s.reserveAll names).taken ↔ x ∈ names ∨ x ∈ s.taken := by
  induction names generalizing s with
  | nil => simp [reserveAll]
  | cons name names ih =>
      intro x
      have hstep := ih (s := s.reserve name) x
      simp only [reserveAll, List.foldl_cons] at hstep ⊢
      rw [hstep]
      simp only [reserve, List.mem_insert_iff, List.mem_cons]
      tauto

theorem sep_reserveAll (s : NameSupply) (names : List String) :
    (s.reserveAll names).sep = s.sep := by
  induction names generalizing s with
  | nil => rfl
  | cons name names ih => exact ih (s.reserve name)

theorem next_reserveAll (s : NameSupply) (names : List String) :
    (s.reserveAll names).next = s.next := by
  induction names generalizing s with
  | nil => rfl
  | cons name names ih => exact ih (s.reserve name)

/-- Fresh names for several roots, one after the other. -/
def freshAll : List String → NameSupply → List String × NameSupply
  | [], s => ([], s)
  | root :: roots, s =>
    let (name, s) := s.fresh root
    let (names, s) := freshAll roots s
    (name :: names, s)

/-! ### Any sequence of requests -/

/-- What can be asked of a supply. -/
inductive Request
  | reserve (names : List String)
  | fresh (root : String)
deriving Repr

namespace Request

/-- The names that some requests reserve. -/
def reserved : List Request → List String
  | [] => []
  | reserve names :: rs => names ++ reserved rs
  | fresh _ :: rs => reserved rs

/-- The roots for which some requests want fresh names. -/
def roots : List Request → List String
  | [] => []
  | reserve _ :: rs => roots rs
  | fresh root :: rs => root :: roots rs

end Request

/-- The fresh names that some requests get, and the supply after them. -/
def serve : List Request → NameSupply → List String × NameSupply
  | [], s => ([], s)
  | .reserve names :: rs, s => serve rs (s.reserveAll names)
  | .fresh root :: rs, s =>
    let (name, s) := s.fresh root
    let (names, s) := serve rs s
    (name :: names, s)

/-- What requests do to a supply. The numbers of the names they get are drawn one after the
other. -/
structure Serves (s : NameSupply) (rs : List Request) (given : List String) (ns : List Nat)
    (s' : NameSupply) : Prop where
  sep : s'.sep = s.sep
  next_le : s.next ≤ s'.next
  taken : ∀ x, x ∈ s'.taken ↔ x ∈ Request.reserved rs ++ given ∨ x ∈ s.taken
  fresh : ∀ x ∈ given, x ∉ s.taken
  nodup : given.Nodup
  length_eq : ns.length = (Request.roots rs).length
  named : given = List.zipWith s.candidate (Request.roots rs) ns
  increasing : ns.Pairwise (· < ·)
  le_of_mem : ∀ n ∈ ns, s.next ≤ n
  count : s'.count = ns.getLast?.getD s.count

theorem Serves.reserve {names given : List String} {rs : List Request} {ns : List Nat}
    (h : (s.reserveAll names).Serves rs given ns s') :
    s.Serves (.reserve names :: rs) given ns s' where
  sep := h.sep.trans (sep_reserveAll s names)
  next_le := next_reserveAll s names ▸ h.next_le
  taken x := by
    rw [h.taken, taken_reserveAll, Request.reserved]
    simp only [List.mem_append]
    tauto
  fresh x hx hmem := h.fresh x hx ((taken_reserveAll names x).mpr (Or.inr hmem))
  nodup := h.nodup
  length_eq := h.length_eq
  named := by
    have hcandidate : (s.reserveAll names).candidate = s.candidate := by
      funext root n
      rw [candidate, candidate, sep_reserveAll]
    rw [h.named, hcandidate]
    rfl
  increasing := h.increasing
  le_of_mem n hn := next_reserveAll s names ▸ h.le_of_mem n hn
  count := by
    rw [h.count, NameSupply.count, NameSupply.count, next_reserveAll]

theorem Serves.fresh_cons {given : List String} {rs : List Request} {ns : List Nat}
    (h : (s.fresh root).2.Serves rs given ns s') :
    s.Serves (.fresh root :: rs) ((s.fresh root).1 :: given) (s.number root :: ns) s' where
  sep := h.sep
  next_le := (s.le_search root _ _).trans (Nat.le_of_succ_le h.next_le)
  taken x := by
    rw [h.taken, taken_fresh, Request.reserved]
    simp only [List.mem_append, List.mem_cons]
    tauto
  fresh := by
    rw [List.forall_mem_cons]
    refine ⟨s.fresh_notMem root, fun x hx hmem ↦ ?_⟩
    exact h.fresh x hx (List.mem_cons_of_mem _ hmem)
  nodup := by
    -- The names that come later are free when this one is taken.
    refine List.nodup_cons.mpr ⟨fun hmem ↦ ?_, h.nodup⟩
    exact h.fresh _ hmem (List.mem_cons_self ..)
  length_eq := by rw [List.length_cons, h.length_eq, Request.roots, List.length_cons]
  named := by
    rw [h.named]
    rfl
  increasing := List.pairwise_cons.mpr ⟨h.le_of_mem, h.increasing⟩
  le_of_mem := by
    have hle : s.next ≤ s.number root := s.le_search root _ _
    rw [List.forall_mem_cons]
    exact ⟨hle, fun n hn ↦ hle.trans (Nat.le_of_succ_le (h.le_of_mem n hn))⟩
  count := by
    rw [h.count, List.getLast?_cons]
    rfl

theorem exists_serves (s : NameSupply) (rs : List Request) :
    ∃ ns, s.Serves rs (serve rs s).1 ns (serve rs s).2 := by
  induction rs generalizing s with
  | nil =>
      refine ⟨[], rfl, le_rfl, fun x ↦ ?_, by simp [serve], List.nodup_nil, rfl, rfl, .nil, by simp,
        rfl⟩
      simp [serve, Request.reserved]
  | cons r rs ih =>
      cases r with
      | reserve names =>
          obtain ⟨ns, h⟩ := ih (s.reserveAll names)
          exact ⟨ns, h.reserve⟩
      | fresh root =>
          obtain ⟨ns, h⟩ := ih (s.fresh root).2
          exact ⟨s.number root :: ns, h.fresh_cons⟩

/-- Whatever has been asked of a new supply, the names that it gave are pairwise different and were
made with ever greater numbers, the last of which is its count. And for every root it finds one more
name. The loop that looks for it takes no more turns in vain than names are gone, so it ends, and in
one way only: with the root, the separator and the least number above the count that give a name
which was neither reserved nor given before. That number is the count from then on. -/
theorem names_never_repeat (sep : String) (past : List Request) :
    (∃ ns : List Nat, ns.Pairwise (· < ·) ∧
      ns.length = (Request.roots past).length ∧
      (serve past (new sep)).1 = List.zipWith
        (fun root n ↦ root ++ (new sep).sep ++ toString n) (Request.roots past) ns ∧
      (serve past (new sep)).2.count = ns.getLast?.getD 0) ∧
    (serve past (new sep)).1.Nodup ∧
    ∀ root : String,
      (∀ turns, ((serve past (new sep)).2 :: turns).IsChain (Skips root) →
        turns.length ≤ (Request.reserved past ++ (serve past (new sep)).1).length) ∧
      ∃ (n : Nat) (s' : NameSupply),
        IsLeast {m | (serve past (new sep)).2.count < m ∧ root ++ (new sep).sep ++ toString m ∉
          Request.reserved past ++ (serve past (new sep)).1} n ∧
        (serve past (new sep)).2.fresh root = (root ++ (new sep).sep ++ toString n, s') ∧
        (∀ name t, (serve past (new sep)).2.Ends root name t ↔
          name = root ++ (new sep).sep ++ toString n ∧ t = s') ∧
        s'.count = n := by
  obtain ⟨ns, h⟩ := exists_serves (new sep) past
  generalize (serve past (new sep)).1 = given at h ⊢
  generalize (serve past (new sep)).2 = s at h ⊢
  have hgone : ∀ x, x ∈ s.taken ↔ x ∈ Request.reserved past ++ given := by
    intro x
    rw [h.taken]
    exact or_iff_left List.not_mem_nil
  have hcount (m : Nat) : s.count < m ↔ s.next ≤ m := by
    have hpos : 1 ≤ s.next := h.next_le
    rw [count]
    omega
  refine ⟨⟨ns, h.increasing, h.length_eq, h.named, h.count⟩, h.nodup, fun root ↦ ⟨?_, ?_⟩⟩
  · intro turns hturns
    exact length_skips_le hturns fun x hx ↦ (hgone x).mp hx
  · have hcandidate (n : Nat) : s.candidate root n = root ++ (new sep).sep ++ toString n := by
      rw [candidate, h.sep]
    have hleast := s.isLeast_number root
    refine ⟨s.number root, (s.fresh root).2, ?_, ?_, ?_, rfl⟩
    · simp only [hcandidate, hgone] at hleast
      simpa only [hcount] using hleast
    · rw [← hcandidate]
      rfl
    · intro name t
      rw [ends_iff, ← hcandidate]
      exact Prod.ext_iff

/-- Names that look like fresh ones are passed over, also if the separator is a digit. -/
example : (serve [.fresh "a", .reserve ["a12", "a13"], .fresh "a"] (new "1")).1 = ["a11", "a14"] := by
  decide +kernel

end NameSupply

end Stratify
