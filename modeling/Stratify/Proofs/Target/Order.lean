import Stratify.Proofs.Target.Meaning

/-!
# The order of statements in the blocks

Statements are numbered as they stand in the program, and each number has one place in the sequence
of the blocks. A statement comes before another one if its block does, or if they share a block and
it came first in the program.

An assignment goes to the block of its variable, whatever stands before it. So it keeps its place
after a statement that has read the variable only if that statement writes a variable of the same
level. A sample statement never does: the assignment is moved before it, and the factor is computed
from the new value.
-/

namespace Stratify

namespace Block

theorem pairwise_all : all.Pairwise Before := by
  decide

theorem place_true_inj {k l : Level} : place k true = place l true ↔ k = l := by
  cases k <;> cases l <;> decide

end Block

namespace Layout

/-- The numbers of the statements, block after block. -/
def order (l : Layout) : List Nat :=
  Block.all.flatMap fun b ↦ (l.placed.zipIdx.filter fun a ↦ decide (a.1.1 = b)).map Prod.snd

/-- One statement comes before another one in the sequence of the blocks. -/
def Precedes (l : Layout) (i j : Nat) : Prop :=
  l.order.idxOf i < l.order.idxOf j

instance (l : Layout) (i j : Nat) : Decidable (l.Precedes i j) :=
  inferInstanceAs (Decidable (_ < _))

variable {l : Layout} {i j : Nat} {a a' : Block × Stmt}

theorem mem_order_iff {b : Block} :
    i ∈ (l.placed.zipIdx.filter fun a ↦ decide (a.1.1 = b)).map Prod.snd ↔
      ∃ s, l.placed[i]? = some (b, s) := by
  simp only [List.mem_map, List.mem_filter, decide_eq_true_iff]
  constructor
  · rintro ⟨⟨⟨b', s⟩, i'⟩, ⟨hmem, rfl⟩, rfl⟩
    exact ⟨s, List.mem_zipIdx_iff_getElem?.mp hmem⟩
  · rintro ⟨s, hs⟩
    exact ⟨((b, s), i), ⟨List.mem_zipIdx_iff_getElem?.mpr hs, rfl⟩, rfl⟩

theorem mem_order (h : l.placed[i]? = some a) : i ∈ l.order :=
  List.mem_flatMap.mpr ⟨a.1, Block.mem_all a.1, mem_order_iff.mpr ⟨a.2, h⟩⟩

/-- The numbers list the statements of the blocks. -/
theorem map_order : l.order.map (fun i ↦ (l.placed.map Prod.snd)[i]?) = l.stmts.map some := by
  rw [order, stmts, List.map_flatMap, List.map_flatMap]
  refine List.flatMap_congr fun b _ ↦ ?_
  have hfst : (l.placed.zipIdx.filter fun a ↦ decide (a.1.1 = b)).map Prod.fst =
      l.placed.filter fun p ↦ decide (p.1 = b) := by
    conv_rhs => rw [← List.zipIdx_map_fst 0 l.placed, List.filter_map]
    rfl
  rw [block, ← hfst, List.map_map, List.map_map, List.map_map]
  refine List.map_congr_left fun a ha ↦ ?_
  have hget := List.mem_zipIdx_iff_getElem?.mp (List.mem_filter.mp ha).1
  simp [hget]

/-- Blocks come one after the other, and each keeps the order of the program. -/
theorem pairwise_order : l.order.Pairwise fun i j ↦ ∀ a a', l.placed[i]? = some a →
    l.placed[j]? = some a' → a.1.Before a'.1 ∨ a.1 = a'.1 ∧ i < j := by
  have hblock {b : Block} {i : Nat} {a : Block × Stmt}
      (hi : i ∈ (l.placed.zipIdx.filter fun a ↦ decide (a.1.1 = b)).map Prod.snd)
      (ha : l.placed[i]? = some a) : a.1 = b := by
    obtain ⟨s, hs⟩ := mem_order_iff.mp hi
    rw [Option.some.inj (ha.symm.trans hs)]
  refine List.pairwise_flatMap.mpr ⟨fun b _ ↦ ?_, Block.pairwise_all.imp fun {b b'} hbb' ↦ ?_⟩
  · have hlt : (l.placed.zipIdx.map Prod.snd).Pairwise (· < ·) := by
      rw [List.zipIdx_map_snd]
      exact List.pairwise_lt_range'
    have hsub := hlt.sublist ((List.filter_sublist (p := fun a ↦ decide (a.1.1 = b))).map Prod.snd)
    refine hsub.imp_of_mem fun {i j} hi hj hij a a' ha ha' ↦ Or.inr ⟨?_, hij⟩
    exact (hblock hi ha).trans (hblock hj ha').symm
  · intro i hi j hj a a' ha ha'
    rw [hblock hi ha, hblock hj ha']
    exact Or.inl hbb'

/-- Of two different statements one comes first. -/
theorem not_precedes_iff (hi : l.placed[i]? = some a) (hij : i ≠ j) :
    ¬ l.Precedes i j ↔ l.Precedes j i := by
  have hne : l.order.idxOf i ≠ l.order.idxOf j := fun heq ↦
    hij ((List.idxOf_inj (mem_order hi)).mp heq)
  unfold Precedes
  omega

theorem block_of_precedes (hi : l.placed[i]? = some a) (hj : l.placed[j]? = some a')
    (h : l.Precedes i j) : a.1.Before a'.1 ∨ a.1 = a'.1 ∧ i < j := by
  have hlt (k : Nat) (hk : k ∈ l.order) : l.order.idxOf k < l.order.length :=
    List.idxOf_lt_length_iff.mpr hk
  have hpair := List.pairwise_iff_getElem.mp l.pairwise_order _ _ (hlt i (mem_order hi))
    (hlt j (mem_order hj)) h
  simp only [List.getElem_idxOf] at hpair
  exact hpair a a' hi hj

theorem precedes_iff (hi : l.placed[i]? = some a) (hj : l.placed[j]? = some a') :
    l.Precedes i j ↔ a.1.Before a'.1 ∨ a.1 = a'.1 ∧ i < j := by
  refine ⟨block_of_precedes hi hj, fun h ↦ ?_⟩
  by_contra hnot
  have hij : i ≠ j := by
    rintro rfl
    rw [Option.some.inj (hi.symm.trans hj)] at h
    exact h.elim (Block.not_before_self _) fun hlt ↦ Nat.lt_irrefl i hlt.2
  have hji := block_of_precedes hj hi ((not_precedes_iff hi hij).mp hnot)
  unfold Block.Before at h hji
  rcases h with h | ⟨hblock, h⟩
  · rcases hji with hji | ⟨hblock, -⟩
    · omega
    · rw [hblock] at h
      exact Nat.lt_irrefl _ h
  · rw [hblock] at hji
    omega

end Layout

namespace Typing

variable {t : Typing} {declared : List String} {s w : Stmt} {x : String}

theorem blockOf_of_assigns (h : w.assigns x = true) : t.blockOf w = t.home x := by
  cases w with
  | assign y e =>
      obtain rfl : x = y := by simpa [Stmt.assigns] using h
      rfl
  | _ => cases h

/-- A statement that reads an assigned variable stands in the block of that variable exactly if it
writes a variable of the same level. -/
theorem Places.blockOf_eq_home_iff (h : t.Places declared s)
    (hassigned : ∀ y ∈ s.assignee?, t.assigned y = true) (hx : x ∈ s.reads)
    (hxassigned : t.assigned x = true) :
    t.blockOf s = t.home x ↔ ∃ y, s.target? = some y ∧ t.level? y = t.level? x := by
  have hwrites {y : String} {k l : Level} (hk : t.levelMap.levelOf? x = some k)
      (hl : t.levelMap.levelOf? y = some l) (hy : t.assigned y = true) :
      t.home y = t.home x ↔ t.level? y = t.level? x := by
    rw [← levelOf?_levelMap, ← levelOf?_levelMap, home_eq hl, home_eq hk, hy, hxassigned,
      Block.place_true_inj, hk, hl, Option.some.injEq]
  cases s with
  | decl type y data init =>
      obtain ⟨l, hl, hreads⟩ := h
      cases init with
      | none => cases hx
      | some e =>
          obtain ⟨k, hk, -⟩ := hreads x hx
          rw [blockOf_of_target (x := y) rfl]
          simpa [Stmt.target?] using hwrites hk hl (hassigned y rfl)
  | assign y e =>
      obtain ⟨-, l, hl, hreads⟩ := h
      obtain ⟨k, hk, -⟩ := hreads x hx
      rw [blockOf_of_target (x := y) rfl]
      simpa [Stmt.target?] using hwrites hk hl (hassigned y rfl)
  | sample y dist args =>
      refine iff_of_false (fun heq ↦ ?_) (by simp [Stmt.target?])
      exact home_ne_model x heq.symm
  | _ => exact h.elim

end Typing

namespace Compiler

variable {c : Compiler} {program : Program} {o : Output}

/-- In the sequence of the blocks, an assignment keeps its place after a statement that has read the
variable exactly if that statement writes a variable of the same level. Otherwise the assignment
comes first. -/
theorem assignment_follows_read_iff (h : c.compile program = .ok o) {i j : Nat} {s w : Stmt}
    (hs : (Stmt.flatten o.elaborated.stmts)[i]? = some s)
    (hw : (Stmt.flatten o.elaborated.stmts)[j]? = some w) (hij : i < j) {x : String}
    (hread : x ∈ s.reads) (hassigns : w.assigns x = true) :
    o.layout.order.map (fun k ↦ (Stmt.flatten o.elaborated.stmts)[k]?) =
      o.layout.stmts.map some ∧
    (o.layout.Precedes i j ↔
      ∃ y, s.target? = some y ∧ o.levels.level? y = o.levels.level? x) ∧
    (¬ o.layout.Precedes i j ↔ o.layout.Precedes j i) := by
  obtain ⟨⟨seeds, hlevels⟩, hlayout⟩ := of_compile_eq_ok h
  obtain ⟨-, hassigned⟩ := Typing.tracks_of_infer_eq_ok rfl hlevels
  obtain ⟨-, hl⟩ := (Layout.ofProgram_eq_ok_iff rfl).mp hlayout
  have hsplaced := Layout.placed_getElem? hl hs
  have hwplaced := Layout.placed_getElem? hl hw
  have hsmem : s ∈ Stmt.flatten o.elaborated.stmts := List.mem_of_getElem? hs
  obtain ⟨declared, hsplaces⟩ := Layout.exists_places_of_mem hlayout hsmem
  have hxassigned : o.levels.assigned x = true := by
    refine hassigned w (List.mem_of_getElem? hw) x ?_
    cases w with
    | assign y e =>
        obtain rfl : x = y := by simpa [Stmt.assigns] using hassigns
        rfl
    | _ => cases hassigns
  have hhome := hsplaces.blockOf_eq_home_iff (hassigned s hsmem) hread hxassigned
  have hnot := hsplaces.not_before (hassigned s hsmem) hread
  have hstmts : o.layout.placed.map Prod.snd = Stmt.flatten o.elaborated.stmts :=
    Layout.map_snd_placed hl
  refine ⟨hstmts ▸ Layout.map_order, ?_, Layout.not_precedes_iff hsplaced hij.ne⟩
  -- A read is never before the block of what it reads, so only that block is left.
  rw [Layout.precedes_iff hsplaced hwplaced, Typing.blockOf_of_assigns hassigns, ← hhome,
    or_iff_right hnot, and_iff_left hij]

theorem assignment_follows_read_total :
    ∃ o s w, standard.compile Program.total = .ok o ∧
      (Stmt.flatten o.elaborated.stmts)[4]? = some s ∧
      (Stmt.flatten o.elaborated.stmts)[5]? = some w ∧ "sum" ∈ s.reads ∧ w.assigns "sum" = true ∧
      o.layout.order.map (fun k ↦ (Stmt.flatten o.elaborated.stmts)[k]?) =
        o.layout.stmts.map some ∧
      (o.layout.Precedes 4 5 ↔
        ∃ y, s.target? = some y ∧ o.levels.level? y = o.levels.level? "sum") ∧
      (¬ o.layout.Precedes 4 5 ↔ o.layout.Precedes 5 4) := by
  have hok : ((standard.compile Program.total).toOption.any fun o ↦
      (Stmt.flatten o.elaborated.stmts)[4]?.any fun s ↦
        (Stmt.flatten o.elaborated.stmts)[5]?.any fun w ↦
          decide ("sum" ∈ s.reads ∧ w.assigns "sum" = true)) = true := by
    decide +kernel
  obtain ⟨o, ho, hok⟩ := exists_ok_of_any hok
  obtain ⟨s, hs, hok⟩ := (Option.any_eq_true _ _).mp hok
  obtain ⟨w, hw, hok⟩ := (Option.any_eq_true _ _).mp hok
  obtain ⟨hread, hassigns⟩ := of_decide_eq_true hok
  exact ⟨o, s, w, ho, hs, hw, hread, hassigns,
    assignment_follows_read_iff ho hs hw (by decide) hread hassigns⟩

end Compiler

namespace Program

/-- A model that changes the scale after it has been used. -/
def rescaled : Program where
  funcs := []
  stmts := [
    .decl "real" "y" true none,
    .decl "real" "scale" false (some (.lit .int "1")),
    .sample "y" "normal" [.lit .int "0", .var "scale"],
    .assign "scale" (.lit .int "2")]

end Program

namespace Compiler

/-- A compiled program may compute a factor from a value that is assigned only later. -/
theorem assignment_moved_rescaled :
    ∃ o s w, standard.compile Program.rescaled = .ok o ∧
      (Stmt.flatten o.elaborated.stmts)[2]? = some s ∧
      (Stmt.flatten o.elaborated.stmts)[3]? = some w ∧
      "scale" ∈ s.reads ∧ w.assigns "scale" = true ∧ ¬ o.layout.Precedes 2 3 ∧
      (o.elaborated.program.run .written .written 0).map (fun c ↦ c.2.trace) =
        some [⟨"normal", "y", ["0", "1"]⟩] ∧
      (o.layout.runBlocks .written .written Block.all (.empty, ⟨0, []⟩)).map (fun c ↦ c.2.trace) =
        some [⟨"normal", "y", ["0", "2"]⟩] := by
  have hok : ((standard.compile Program.rescaled).toOption.any fun o ↦
      (Stmt.flatten o.elaborated.stmts)[2]?.any fun s ↦
        (Stmt.flatten o.elaborated.stmts)[3]?.any fun w ↦
          decide ("scale" ∈ s.reads ∧ w.assigns "scale" = true ∧ ¬ o.layout.Precedes 2 3 ∧
            (o.elaborated.program.run .written .written 0).map (fun c ↦ c.2.trace) =
              some [⟨"normal", "y", ["0", "1"]⟩] ∧
            (o.layout.runBlocks .written .written Block.all (.empty, ⟨0, []⟩)).map
              (fun c ↦ c.2.trace) = some [⟨"normal", "y", ["0", "2"]⟩])) = true := by
    decide +kernel
  obtain ⟨o, ho, hok⟩ := exists_ok_of_any hok
  obtain ⟨s, hs, hok⟩ := (Option.any_eq_true _ _).mp hok
  obtain ⟨w, hw, hok⟩ := (Option.any_eq_true _ _).mp hok
  exact ⟨o, s, w, ho, hs, hw, of_decide_eq_true hok⟩

end Compiler

end Stratify
