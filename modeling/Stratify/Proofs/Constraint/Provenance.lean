import Mathlib.Logic.Relation
import Stratify.Proofs.Constraint.Building

/-!
# Why a system is rejected

A variable is bounded by the constants that are imposed on it, and by those imposed on the variables
that it can be compared with along inequalities. Propagation finds the tightest of these bounds, and
each bound that it keeps can be traced back: to a constraint that imposes it, and to a path from the
variable of that constraint. The report of the solver therefore states two bounds that really
contradict each other, with the rules and the variables they come from, and it is about the first
variable for which there are such bounds.
-/

namespace Stratify

namespace Vertex

/-- How a bound of `v` names the variable `w` it comes from: not at all if that is `v` itself. -/
def seenFrom (w v : Vertex) : String :=
  if w.key = v.key then "" else w.display

end Vertex

namespace LevelSystem

/-! ### Bounds that the constraints imply -/

section Implied

variable (s : LevelSystem Level)

/-- An inequality between two variables. -/
def Below (lo hi : String) : Prop :=
  ∃ rule, (⟨.var lo, .var hi, rule⟩ : Constraint Level) ∈ s.constraints

/-- A path of such inequalities. -/
def Reaches : String → String → Prop :=
  Relation.ReflTransGen s.Below

/-- A rule imposes a lower bound on a variable. -/
def Floor (l : Level) (rule key : String) : Prop :=
  (⟨.const l, .var key, rule⟩ : Constraint Level) ∈ s.constraints

/-- A rule imposes an upper bound on a variable. -/
def Ceiling (l : Level) (rule key : String) : Prop :=
  (⟨.var key, .const l, rule⟩ : Constraint Level) ∈ s.constraints

/-- What a variable is at least: `data`, and all that is imposed on variables below it. -/
def impliedLower (key : String) : Set Level :=
  {l | l = .data ∨ ∃ rule w, s.Floor l rule w ∧ s.Reaches w key}

/-- What a variable is at most: `genquant`, and all that is imposed on variables above it. -/
def impliedUpper (key : String) : Set Level :=
  {l | l = .genquant ∨ ∃ rule w, s.Ceiling l rule w ∧ s.Reaches key w}

/-- No level obeys all the bounds of a variable. -/
def Contradictory (key : String) : Prop :=
  ∃ l ∈ s.impliedLower key, ∃ u ∈ s.impliedUpper key, u < l

/-- A lower bound of `v` is imposed on some variable from which there is a path to `v`. -/
def ExplainsLower (v : Vertex) (b : Bound Level) : Prop :=
  ∃ w ∈ s.vertices, s.Floor b.level b.rule w.key ∧ s.Reaches w.key v.key ∧ b.via = w.seenFrom v

/-- An upper bound of `v` is imposed on some variable to which there is a path from `v`. -/
def ExplainsUpper (v : Vertex) (b : Bound Level) : Prop :=
  ∃ w ∈ s.vertices, s.Ceiling b.level b.rule w.key ∧ s.Reaches v.key w.key ∧ b.via = w.seenFrom v

/-- The variable at a place is the first contradictory one. Variables of expressions do not count
unless there are no others. -/
structure Blames (i : Nat) (v : Vertex) : Prop where
  place : s.vertices[i]? = some v
  contradictory : s.Contradictory v.key
  first : ∀ j < i, ∀ w, s.vertices[j]? = some w → s.Contradictory w.key →
    w.isExpr = true ∧ v.isExpr = false
  expr : v.isExpr = true → ∀ w ∈ s.vertices, s.Contradictory w.key → w.isExpr = true

end Implied

variable {s : LevelSystem Level}

/-! ### Places of variables -/

theorem keyAt_eq {i : Nat} {v : Vertex} (hv : s.vertices[i]? = some v) : s.keyAt i = v.key := by
  simp [keyAt, hv]

theorem display_network {i : Nat} {v : Vertex} (hv : s.vertices[i]? = some v) :
    s.network.display i = v.display := by
  simp [Network.display, network, Array.getD_eq_getD_getElem?, hv]

theorem exists_vertex_of_index? {key : String} {i : Nat} (h : s.index? key = some i) :
    ∃ v, s.vertices[i]? = some v ∧ v.key = key := by
  obtain ⟨hi, hkey, -⟩ := List.findIdx?_eq_some_iff_getElem.mp h
  exact ⟨_, List.getElem?_eq_getElem hi, by simpa using hkey⟩

theorem Proper.index?_eq (hs : s.Proper) {i : Nat} {v : Vertex} (hv : s.vertices[i]? = some v) :
    s.index? v.key = some i := by
  obtain ⟨hi, rfl⟩ := List.getElem?_eq_some_iff.mp hv
  refine List.findIdx?_eq_some_iff_getElem.mpr ⟨hi, beq_self_eq_true _, fun j hj hkey ↦ ?_⟩
  have heq : (s.vertices.map Vertex.key)[j]? = (s.vertices.map Vertex.key)[i]? := by
    simpa [hi, hj.trans hi] using hkey
  exact hj.ne ((List.getElem?_inj (by simpa using hj.trans hi) hs.nodup).mp heq)

theorem Proper.eq_of_key (hs : s.Proper) {v w : Vertex} (hv : v ∈ s.vertices)
    (hw : w ∈ s.vertices) (hkey : w.key = v.key) : w = v :=
  List.inj_on_of_nodup_map hs.nodup hw hv hkey

theorem exists_of_mem_edges {i j : Nat} (he : (i, j) ∈ s.network.edges) :
    ∃ v w, s.vertices[i]? = some v ∧ s.vertices[j]? = some w ∧ s.Below v.key w.key := by
  obtain ⟨⟨lo, hi, rule⟩, hc, x, y, rfl, rfl, hx, hy⟩ := mem_edges.mp he
  obtain ⟨v, hv, rfl⟩ := exists_vertex_of_index? hx
  obtain ⟨w, hw, rfl⟩ := exists_vertex_of_index? hy
  exact ⟨v, w, hv, hw, rule, hc⟩

/-! ### Where bounds come from -/

/-- A bound of the variable at a place, traced to a variable on which it is imposed. Either this is
the variable itself, or the bound is named after another one; it then improves on what is imposed
on the variable itself. -/
def Traced (s : LevelSystem Level) (imposes : Level → String → String → Prop)
    (leads : String → Prop) (improves : Level → Prop) (i : Nat) (b : Bound Level) : Prop :=
  ∃ w ∈ s.vertices, imposes b.level b.rule w.key ∧ leads w.key ∧
    (b.via = "" ∧ w.key = s.keyAt i ∨ b.via = w.display ∧ improves b.level)

section Traced

variable {imposes : Level → String → String → Prop} {leads leads' : String → Prop}
  {improves improves' : Level → Prop} {i j : Nat} {b : Bound Level}

theorem Traced.imp (h : s.Traced imposes leads improves i b)
    (himp : ∀ l, improves l → improves' l) : s.Traced imposes leads improves' i b := by
  obtain ⟨w, hw, himposes, hleads, hvia⟩ := h
  exact ⟨w, hw, himposes, hleads, hvia.imp_right fun hvia ↦ ⟨hvia.1, himp _ hvia.2⟩⟩

theorem traced_direct {l : Level} {rule key : String} (hi : s.index? key = some i)
    (himposes : imposes l rule key) (hleads : leads key) :
    s.Traced imposes leads improves i (.direct l rule) := by
  obtain ⟨v, hv, rfl⟩ := exists_vertex_of_index? hi
  exact ⟨v, List.mem_of_getElem? hv, himposes, hleads, Or.inl ⟨rfl, (keyAt_eq hv).symm⟩⟩

/-- A bound that is passed on takes its trace along. -/
theorem Traced.along (h : s.Traced imposes leads improves i b) (hs : s.Proper) {v : Vertex}
    (hv : s.vertices[i]? = some v) (hnamed : ∀ l rule key, imposes l rule key → key ≠ "")
    (hleads : ∀ key, leads key → leads' key) (himproves : improves' b.level) :
    s.Traced imposes leads' improves' j (b.along v.display) := by
  obtain ⟨w, hw, himposes, hlead, ⟨hvia, hkey⟩ | ⟨hvia, -⟩⟩ := h
  · have hwv : w = v := hs.eq_of_key (List.mem_of_getElem? hv) hw (hkey.trans (keyAt_eq hv))
    have halong : b.along v.display = ⟨b.level, v.display, b.rule⟩ := if_pos hvia
    rw [halong, ← hwv]
    exact ⟨w, hw, himposes, hleads _ hlead, Or.inr ⟨rfl, himproves⟩⟩
  · have hne : b.via ≠ "" := hvia ▸ hs.displayed w hw (hnamed _ _ _ himposes)
    have halong : b.along v.display = b := if_neg hne
    rw [halong]
    exact ⟨w, hw, himposes, hleads _ hlead, Or.inr ⟨hvia, himproves⟩⟩

theorem Traced.exists_seenFrom (h : s.Traced imposes leads improves i b) {v : Vertex}
    (hv : s.vertices[i]? = some v)
    (hself : ∀ l rule, imposes l rule v.key → ¬ improves l) :
    ∃ w ∈ s.vertices, imposes b.level b.rule w.key ∧ leads w.key ∧ b.via = w.seenFrom v := by
  obtain ⟨w, hw, himposes, hleads, hvia⟩ := h
  refine ⟨w, hw, himposes, hleads, ?_⟩
  rcases hvia with ⟨hvia, hkey⟩ | ⟨hvia, himproves⟩
  · rw [hvia, Vertex.seenFrom, if_pos (hkey.trans (keyAt_eq hv))]
  · have hne : w.key ≠ v.key := fun hkey ↦ hself _ _ (hkey ▸ himposes) himproves
    rw [hvia, Vertex.seenFrom, if_neg hne]

end Traced

/-- The lower bound in a range is that of every variable, or it has been traced. -/
def LowerTraced (s : LevelSystem Level) (improves : Level → Prop) (i : Nat) (b : Bound Level) :
    Prop :=
  b = .direct .data "" ∨ s.Traced s.Floor (fun key ↦ s.Reaches key (s.keyAt i)) improves i b

/-- The upper bound in a range is that of every variable, or it has been traced. -/
def UpperTraced (s : LevelSystem Level) (improves : Level → Prop) (i : Nat) (b : Bound Level) :
    Prop :=
  b = .direct .genquant "" ∨ s.Traced s.Ceiling (fun key ↦ s.Reaches (s.keyAt i) key) improves i b

theorem imposed_traced (i : Nat) :
    s.LowerTraced (fun _ ↦ False) i (rangeAt s.imposed i).lower ∧
      s.UpperTraced (fun _ ↦ False) i (rangeAt s.imposed i).upper := by
  have hstarts : s.Starts fun i r ↦
      s.LowerTraced (fun _ ↦ False) i r.lower ∧ s.UpperTraced (fun _ ↦ False) i r.upper := by
    refine ⟨fun i ↦ ⟨Or.inl rfl, Or.inl rfl⟩, ?_, ?_⟩
    · rintro ⟨lo, hi, rule⟩ hc l key i r rfl rfl hi hr
      refine ⟨Or.inr (traced_direct hi hc ?_), hr.2⟩
      rw [keyAt_index? hi]
      exact Relation.ReflTransGen.refl
    · rintro ⟨lo, hi, rule⟩ hc l key i r rfl rfl hi hr
      refine ⟨hr.1, Or.inr (traced_direct hi hc ?_)⟩
      rw [keyAt_index? hi]
      exact Relation.ReflTransGen.refl
  exact hstarts.imposed i

/-- What propagation keeps: bounds are traced, and are no worse than what is imposed. -/
structure Sourced (s : LevelSystem Level) (i : Nat) (r : Range) : Prop where
  lower : s.LowerTraced (fun l ↦ (rangeAt s.imposed i).lower.level < l) i r.lower
  upper : s.UpperTraced (fun l ↦ l < (rangeAt s.imposed i).upper.level) i r.upper
  tightens : (rangeAt s.imposed i).Tightens r

theorem Proper.sourced_kept (hs : s.Proper) : Progress.Kept s.network s.Sourced := by
  constructor
  · intro i j r r' he hr hr' hlt
    obtain ⟨v, w, hv, hw, hbelow⟩ := exists_of_mem_edges he
    have himproves : (rangeAt s.imposed j).lower.level < r.lower.level :=
      hr'.tightens.lower_le.trans_lt hlt
    refine ⟨Or.inr ?_, hr'.upper, ⟨?_, hr'.tightens.upper_le⟩⟩
    · rcases hr.lower with hnone | htraced
      · rw [hnone] at hlt
        exact absurd hlt (Level.data_le _).not_gt
      · rw [display_network hv]
        refine htraced.along hs hv (fun l rule key hc ↦ ?_) (fun key hkey ↦ ?_) himproves
        · rintro rfl
          exact (hs.named _ hc).2 rfl
        · rw [keyAt_eq hv] at hkey
          rw [keyAt_eq hw]
          exact hkey.tail hbelow
    · rw [Progress.level_along]
      exact himproves.le
  · intro i j r r' he hr hr' hlt
    obtain ⟨w, v, hw, hv, hbelow⟩ := exists_of_mem_edges he
    have himproves : r.upper.level < (rangeAt s.imposed j).upper.level :=
      hlt.trans_le hr'.tightens.upper_le
    refine ⟨hr'.lower, Or.inr ?_, ⟨hr'.tightens.lower_le, ?_⟩⟩
    · rcases hr.upper with hnone | htraced
      · rw [hnone] at hlt
        exact absurd hlt (Level.le_genquant _).not_gt
      · rw [display_network hv]
        refine htraced.along hs hv (fun l rule key hc ↦ ?_) (fun key hkey ↦ ?_) himproves
        · rintro rfl
          exact (hs.named _ hc).1 rfl
        · rw [keyAt_eq hv] at hkey
          rw [keyAt_eq hw]
          exact hkey.head hbelow
    · rw [Progress.level_along]
      exact himproves.le

theorem Proper.propagated_sourced (hs : s.Proper) (i : Nat) :
    s.Sourced i (rangeAt s.propagated i) := by
  refine hs.sourced_kept.run (5 * s.size) (p := ⟨s.imposed, List.range s.size⟩) (fun j ↦ ?_) i
  obtain ⟨hlower, hupper⟩ := imposed_traced (s := s) j
  exact ⟨hlower.imp_right fun h ↦ h.imp fun _ ↦ False.elim,
    hupper.imp_right fun h ↦ h.imp fun _ ↦ False.elim, Range.Tightens.refl _⟩

/-! ### Propagation finds the tightest bounds -/

theorem Closed.exists_index?_of_below (hs : s.Closed) {lo hi : String} (h : s.Below lo hi) :
    ∃ i j, s.index? lo = some i ∧ s.index? hi = some j ∧ (i, j) ∈ s.edges := by
  obtain ⟨rule, hc⟩ := h
  obtain ⟨hlo, hhi⟩ := hs _ hc
  obtain ⟨i, hi'⟩ := exists_index?_of_has hlo
  obtain ⟨j, hj⟩ := exists_index?_of_has hhi
  exact ⟨i, j, hi', hj, mem_edges.mpr ⟨_, hc, lo, hi, rfl, rfl, hi', hj⟩⟩

/-- Propagated bounds respect paths. -/
theorem Closed.propagated_reaches (hs : s.Closed) {x y : String} (h : s.Reaches x y) {i j : Nat}
    (hi : s.index? x = some i) (hj : s.index? y = some j) :
    (rangeAt s.propagated i).lower.level ≤ (rangeAt s.propagated j).lower.level ∧
      (rangeAt s.propagated i).upper.level ≤ (rangeAt s.propagated j).upper.level := by
  induction h generalizing j with
  | refl =>
      cases Option.some.inj (hi.symm.trans hj)
      exact ⟨le_rfl, le_rfl⟩
  | tail _ hbelow ih =>
      obtain ⟨k, j', hk, hj', he⟩ := hs.exists_index?_of_below hbelow
      cases Option.some.inj (hj.symm.trans hj')
      have hedge := propagated_edge he
      exact ⟨(ih hk).1.trans hedge.1, (ih hk).2.trans hedge.2⟩

theorem Proper.isGreatest_lower (hs : s.Proper) {i : Nat} {v : Vertex}
    (hv : s.vertices[i]? = some v) :
    IsGreatest (s.impliedLower v.key) (rangeAt s.propagated i).lower.level := by
  constructor
  · rcases (hs.propagated_sourced i).lower with hnone | ⟨w, -, hfloor, hreaches, -⟩
    · exact Or.inl (congrArg Bound.level hnone)
    · exact Or.inr ⟨_, w.key, hfloor, keyAt_eq hv ▸ hreaches⟩
  · rintro l (rfl | ⟨rule, key, hfloor, hreaches⟩)
    · exact Level.data_le _
    · obtain ⟨k, hk⟩ := exists_index?_of_has (hs.closed _ hfloor).2
      calc
        l ≤ (rangeAt s.imposed k).lower.level := le_lower_imposed hfloor rfl rfl hk
        _ ≤ (rangeAt s.propagated k).lower.level := (propagated_tightens k).lower_le
        _ ≤ (rangeAt s.propagated i).lower.level :=
          (hs.closed.propagated_reaches hreaches hk (hs.index?_eq hv)).1

theorem Proper.isLeast_upper (hs : s.Proper) {i : Nat} {v : Vertex}
    (hv : s.vertices[i]? = some v) :
    IsLeast (s.impliedUpper v.key) (rangeAt s.propagated i).upper.level := by
  constructor
  · rcases (hs.propagated_sourced i).upper with hnone | ⟨w, -, hceiling, hreaches, -⟩
    · exact Or.inl (congrArg Bound.level hnone)
    · exact Or.inr ⟨_, w.key, hceiling, keyAt_eq hv ▸ hreaches⟩
  · rintro l (rfl | ⟨rule, key, hceiling, hreaches⟩)
    · exact Level.le_genquant _
    · obtain ⟨k, hk⟩ := exists_index?_of_has (hs.closed _ hceiling).1
      calc
        (rangeAt s.propagated i).upper.level ≤ (rangeAt s.propagated k).upper.level :=
          (hs.closed.propagated_reaches hreaches (hs.index?_eq hv) hk).2
        _ ≤ (rangeAt s.imposed k).upper.level := (propagated_tightens k).upper_le
        _ ≤ l := upper_imposed_le hceiling rfl rfl hk

theorem Proper.contradictory_iff (hs : s.Proper) {i : Nat} {v : Vertex}
    (hv : s.vertices[i]? = some v) :
    s.Contradictory v.key ↔
      (rangeAt s.propagated i).upper.level < (rangeAt s.propagated i).lower.level := by
  have hlower := hs.isGreatest_lower hv
  have hupper := hs.isLeast_upper hv
  constructor
  · rintro ⟨l, hl, u, hu, hlt⟩
    exact (hupper.2 hu).trans_lt (hlt.trans_le (hlower.2 hl))
  · intro hlt
    exact ⟨_, hlower.1, _, hupper.1, hlt⟩

/-! ### The report -/

/-- A lower bound above an upper bound is not that of every variable, so it has been traced. -/
theorem Proper.explainsLower (hs : s.Proper) {i : Nat} {v : Vertex} (hv : s.vertices[i]? = some v)
    (hlt : (rangeAt s.propagated i).upper.level < (rangeAt s.propagated i).lower.level) :
    s.ExplainsLower v (rangeAt s.propagated i).lower := by
  rcases (hs.propagated_sourced i).lower with hnone | htraced
  · rw [hnone] at hlt
    exact absurd hlt (Level.data_le _).not_gt
  · rw [keyAt_eq hv] at htraced
    refine htraced.exists_seenFrom hv fun l rule hfloor ↦ not_lt.mpr ?_
    exact le_lower_imposed hfloor rfl rfl (hs.index?_eq hv)

theorem Proper.explainsUpper (hs : s.Proper) {i : Nat} {v : Vertex} (hv : s.vertices[i]? = some v)
    (hlt : (rangeAt s.propagated i).upper.level < (rangeAt s.propagated i).lower.level) :
    s.ExplainsUpper v (rangeAt s.propagated i).upper := by
  rcases (hs.propagated_sourced i).upper with hnone | htraced
  · rw [hnone] at hlt
    exact absurd hlt (Level.le_genquant _).not_gt
  · rw [keyAt_eq hv] at htraced
    refine htraced.exists_seenFrom hv fun l rule hceiling ↦ not_lt.mpr ?_
    exact upper_imposed_le hceiling rfl rfl (hs.index?_eq hv)

theorem getElem?_zip {rs : Array Range} (hsize : rs.size = s.size) {i : Nat} {p : Vertex × Range} :
    (s.vertices.zip rs.toList)[i]? = some p ↔
      s.vertices[i]? = some p.1 ∧ p.2 = rangeAt rs i := by
  rw [List.getElem?_zip_eq_some]
  refine and_congr_right fun hv ↦ ?_
  have hi : i < rs.size := hsize ▸ (List.getElem?_eq_some_iff.mp hv).1
  rw [Array.getElem?_toList, Array.getElem?_eq_getElem hi, Option.some.injEq, rangeAt,
    Array.getD_eq_getD_getElem?, Array.getElem?_eq_getElem hi, Option.getD_some]
  exact eq_comm

/-- A search among the variables and their ranges. -/
theorem find?_zip_eq_some {rs : Array Range} (hsize : rs.size = s.size)
    {p : Vertex × Range → Bool} {v : Vertex} {r : Range}
    (h : (s.vertices.zip rs.toList).find? p = some (v, r)) :
    ∃ i, s.vertices[i]? = some v ∧ r = rangeAt rs i ∧ p (v, r) = true ∧
      ∀ j < i, ∀ w, s.vertices[j]? = some w → p (w, rangeAt rs j) = false := by
  obtain ⟨hp, i, hi, hget, hbefore⟩ := List.find?_eq_some_iff_getElem.mp h
  obtain ⟨hv, hr⟩ := (getElem?_zip hsize).mp (List.getElem?_eq_some_iff.mpr ⟨hi, hget⟩)
  refine ⟨i, hv, hr, hp, fun j hj w hw ↦ ?_⟩
  obtain ⟨hj', hget'⟩ := List.getElem?_eq_some_iff.mp
    ((getElem?_zip (p := (w, rangeAt rs j)) hsize).mpr ⟨hw, rfl⟩)
  simpa [hget'] using hbefore j hj

theorem find?_zip_eq_none {rs : Array Range} (hsize : rs.size = s.size)
    {p : Vertex × Range → Bool} (h : (s.vertices.zip rs.toList).find? p = none) {j : Nat}
    {w : Vertex} (hw : s.vertices[j]? = some w) : p (w, rangeAt rs j) = false := by
  have hmem : (w, rangeAt rs j) ∈ s.vertices.zip rs.toList :=
    List.mem_of_getElem? ((getElem?_zip hsize).mpr ⟨hw, rfl⟩)
  simpa using List.find?_eq_none.mp h _ hmem

theorem firstEmpty?_eq (rs : Array Range) :
    s.firstEmpty? rs =
      ((s.vertices.zip rs.toList).find? fun p ↦ p.2.interval.empty && !p.1.isExpr).or
        ((s.vertices.zip rs.toList).find? fun p ↦ p.2.interval.empty) := by
  simp only [firstEmpty?, emptyVertices, List.find?_filter, List.head?_filter, Bool.decide_and,
    Bool.decide_eq_true]

theorem Proper.empty_iff (hs : s.Proper) {i : Nat} {v : Vertex} (hv : s.vertices[i]? = some v) :
    (rangeAt s.propagated i).interval.empty = true ↔ s.Contradictory v.key := by
  rw [Interval.empty_iff, hs.contradictory_iff hv]
  rfl

/-- The solver blames the right variable. -/
theorem Proper.blames_of_firstEmpty? (hs : s.Proper) {v : Vertex} {r : Range}
    (h : s.firstEmpty? s.propagated = some (v, r)) :
    ∃ i, s.Blames i v ∧ r = rangeAt s.propagated i := by
  rw [firstEmpty?_eq, Option.or_eq_some_iff] at h
  rcases h with h | ⟨hnone, h⟩
  · obtain ⟨i, hv, rfl, hp, hbefore⟩ := find?_zip_eq_some size_propagated h
    simp only [Bool.and_eq_true, Bool.not_eq_true', hs.empty_iff hv] at hp
    refine ⟨i, ⟨hv, hp.1, fun j hj w hw hcontra ↦ ?_, fun hexpr ↦ ?_⟩, rfl⟩
    · have hw' := hbefore j hj w hw
      simp only [(hs.empty_iff hw).mpr hcontra, Bool.true_and, Bool.not_eq_false'] at hw'
      exact ⟨hw', hp.2⟩
    · rw [hp.2] at hexpr
      cases hexpr
  · obtain ⟨i, hv, rfl, hp, hbefore⟩ := find?_zip_eq_some size_propagated h
    rw [hs.empty_iff hv] at hp
    have hexprs {j : Nat} {w : Vertex} (hw : s.vertices[j]? = some w)
        (hcontra : s.Contradictory w.key) : w.isExpr = true := by
      have hw' := find?_zip_eq_none size_propagated hnone hw
      simpa only [(hs.empty_iff hw).mpr hcontra, Bool.true_and, Bool.not_eq_false'] using hw'
    refine ⟨i, ⟨hv, hp, fun j hj w hw hcontra ↦ ?_, fun _ w hw hcontra ↦ ?_⟩, rfl⟩
    · have hw' := hbefore j hj w hw
      rw [(hs.empty_iff hw).mpr hcontra] at hw'
      cases hw'
    · obtain ⟨j, hj⟩ := List.mem_iff_getElem?.mp hw
      exact hexprs hj hcontra

/-- The report on a system whose constants do not contradict each other. -/
theorem eq_of_solve_eq_error (hclosed : s.Closed)
    (hconst : ∀ c ∈ s.constraints, ∀ lo hi, c.lo = .const lo → c.hi = .const hi → lo ≤ hi)
    {d : Diagnostic} (h : s.solve = .error d) :
    ∃ v r, s.firstEmpty? s.propagated = some (v, r) ∧
      d = ⟨.inconsistent v.display r.lower.code r.upper.code, v.source⟩ := by
  have hcheck := (checkConstants_ok_iff s.constraints).mpr hconst
  cases hempty : s.firstEmpty? s.propagated with
  | none =>
      have hne := (firstEmpty?_eq_none_iff size_propagated).mp hempty
      obtain ⟨sol, hsol⟩ := (solve_isOk_iff hclosed).mpr ⟨_, picked_satisfies hclosed hconst hne⟩
      rw [hsol] at h
      cases h
  | some p =>
      obtain ⟨v, r⟩ := p
      refine ⟨v, r, rfl, ?_⟩
      simp only [solve, hcheck, hempty, bind, Except.bind] at h
      cases h
      rfl

/-- A rejection carries a genuine explanation: it states two bounds of a variable that contradict
each other, the tightest there are, each with the rule that imposes it and the variable it comes
from. The variable is the first one with such bounds, and one of the program's if there is any. -/
theorem solve_error_explained (ops : List Operation)
    (hconst : ∀ c ∈ (built ops).constraints, ∀ lo hi, c.lo = .const lo → c.hi = .const hi → lo ≤ hi)
    {d : Diagnostic} (h : (built ops).solve = .error d) :
    ∃ i v lower upper,
      d = ⟨.inconsistent v.display (Bound.code lower) (Bound.code upper), v.source⟩ ∧
      upper.level < lower.level ∧
      (built ops).ExplainsLower v lower ∧ (built ops).ExplainsUpper v upper ∧
      IsGreatest ((built ops).impliedLower v.key) lower.level ∧
      IsLeast ((built ops).impliedUpper v.key) upper.level ∧
      (built ops).Blames i v := by
  have hs := proper_built ops
  obtain ⟨v, r, hempty, rfl⟩ := eq_of_solve_eq_error hs.closed hconst h
  obtain ⟨i, hblames, rfl⟩ := hs.blames_of_firstEmpty? hempty
  have hlt := (hs.contradictory_iff hblames.place).mp hblames.contradictory
  exact ⟨i, v, _, _, rfl, hlt, hs.explainsLower hblames.place hlt,
    hs.explainsUpper hblames.place hlt, hs.isGreatest_lower hblames.place,
    hs.isLeast_upper hblames.place, hblames⟩

/-- A random number that a sample statement must not see, passed on through a cycle. -/
def leak : List Operation := [
  .addExprVar "$1" "draw()",
  .atLeast "$1" .genquant "random number generator",
  .flow "$1" "mean" "assignment",
  .solve,
  .flow "mean" "scale" "assignment",
  .flow "scale" "mean" "assignment",
  .atMost "scale" .model "sample"]

theorem solve_error_explained_leak :
    (built leak).solve = .error ⟨.inconsistent "mean"
      ⟨Level.genquant.code, "draw()", "random number generator"⟩
      ⟨Level.model.code, "scale", "sample"⟩, none⟩ ∧
    ∃ i v lower upper,
      v.display = "mean" ∧
      upper.level < lower.level ∧
      (built leak).ExplainsLower v lower ∧ (built leak).ExplainsUpper v upper ∧
      IsGreatest ((built leak).impliedLower v.key) lower.level ∧
      IsLeast ((built leak).impliedUpper v.key) upper.level ∧
      (built leak).Blames i v := by
  have hsolve : (built leak).solve = .error ⟨.inconsistent "mean"
      ⟨Level.genquant.code, "draw()", "random number generator"⟩
      ⟨Level.model.code, "scale", "sample"⟩, none⟩ := by
    rfl
  have hconst : Constraint.checkConstants (built leak).constraints = .ok () := by
    rfl
  obtain ⟨i, v, lower, upper, hd, hrest⟩ :=
    solve_error_explained leak ((checkConstants_ok_iff _).mp hconst) hsolve
  have hdisplay : v.display = "mean" := (congrArg (fun d : Diagnostic ↦ d.issue.name) hd).symm
  exact ⟨hsolve, i, v, lower, upper, hdisplay, hrest⟩

end LevelSystem

end Stratify
