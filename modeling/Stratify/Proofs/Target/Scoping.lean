import Stratify.Proofs.Inlining.Hygiene
import Stratify.Proofs.Target.Order

/-!
# Scopes in the sequence of the blocks

Read one after the other, the blocks declare every variable once, before anything else that
mentions it. A statement that writes a variable also stays before every statement that comes later
and uses that variable: it stands in the block of the variable, and no use is in an earlier block.
Only an assignment that comes after a use can change its place with respect to it.
-/

namespace Stratify

namespace Block

theorem before_or_eq_of_not_before {b b' : Block} (h : ¬ b.Before b') : b'.Before b ∨ b' = b := by
  revert h
  cases b <;> cases b' <;> decide

end Block

namespace Stmt

variable {declared : List String} {ss : List Stmt} {x : String}

theorem mem_uses_of_mem_reads {s : Stmt} (h : x ∈ s.reads) : x ∈ s.uses := by
  cases s with
  | assign y e => exact List.mem_cons_of_mem _ h
  | _ => exact h

theorem target?_of_declName? {s : Stmt} (h : s.declName? = some x) : s.target? = some x := by
  cases s with
  | decl type y data init => exact h
  | _ => cases h

theorem target?_of_assignee? {s : Stmt} (h : s.assignee? = some x) : s.target? = some x := by
  cases s with
  | decl type y data init =>
      cases init with
      | none => cases h
      | some e => exact h
  | assign y e => exact h
  | _ => cases h

/-- A statement uses the variables that it mentions, except one that it declares. -/
theorem mem_occurring_iff {s : Stmt} : x ∈ s.occurring ↔ s.declName? = some x ∨ x ∈ s.uses := by
  cases s with
  | decl type y data init =>
      rw [occurring, List.mem_cons, declName?, Option.some.injEq, eq_comm]
      exact Iff.rfl
  | _ => simp [occurring, declName?, uses, reads]

theorem mem_declNames_take {j : Nat} :
    x ∈ declNames (ss.take j) ↔ ∃ i < j, ∃ s, ss[i]? = some s ∧ s.declName? = some x := by
  simp only [declNames, List.mem_filterMap, List.mem_take_iff_getElem, Nat.lt_min]
  constructor
  · rintro ⟨s, ⟨i, hi, rfl⟩, hx⟩
    exact ⟨i, hi.1, _, List.getElem?_eq_getElem hi.2, hx⟩
  · rintro ⟨i, hij, s, hs, hx⟩
    obtain ⟨hi, rfl⟩ := List.getElem?_eq_some_iff.mp hs
    exact ⟨_, ⟨i, ⟨hij, hi⟩, rfl⟩, hx⟩

/-- Each statement can run after those before it. -/
theorem RunnableFrom.getElem? (h : RunnableFrom declared ss) {j : Nat} {s : Stmt}
    (hs : ss[j]? = some s) : s.Runnable (declared ++ declNames (ss.take j)) := by
  induction ss generalizing declared j with
  | nil => cases hs
  | cons t ss ih =>
      cases j with
      | zero =>
          cases hs
          simpa [declNames] using h.1
      | succ j =>
          have hrest := ih h.2 hs
          rwa [List.append_assoc, ← declNames_append, List.singleton_append,
            ← List.take_succ_cons] at hrest

theorem RunnableFrom.nodup (h : RunnableFrom declared ss) (hdeclared : declared.Nodup) :
    (declared ++ declNames ss).Nodup := by
  induction ss generalizing declared with
  | nil => simpa [declNames] using hdeclared
  | cons s ss ih =>
      have hconcat : (declared ++ declNames [s]).Nodup := by
        have hiff : (declared ++ declNames ([] ++ [s])).Nodup ↔
            ∀ x ∈ s.declName?, x ∉ declared ++ declNames [] :=
          nodup_declNames_concat (by simpa [declNames] using hdeclared)
        exact hiff.mpr (by simpa [declNames] using h.1.fresh)
      have hrest := ih h.2 hconcat
      rwa [List.append_assoc, ← declNames_append] at hrest

/-- Two statements that declare one variable are the same. -/
theorem RunnableFrom.index_eq (h : RunnableFrom declared ss) {i j : Nat} {s t : Stmt}
    (hs : ss[i]? = some s) (ht : ss[j]? = some t) (hsx : s.declName? = some x)
    (htx : t.declName? = some x) : i = j := by
  have hle {i j : Nat} {s t : Stmt} (hs : ss[i]? = some s) (ht : ss[j]? = some t)
      (hsx : s.declName? = some x) (htx : t.declName? = some x) : j ≤ i := by
    by_contra hlt
    refine (h.getElem? ht).fresh x htx (List.mem_append_right _ ?_)
    exact mem_declNames_take.mpr ⟨i, Nat.lt_of_not_le hlt, s, hs, hsx⟩
  exact Nat.le_antisymm (hle ht hs htx hsx) (hle hs ht hsx htx)

/-- What a statement of a program uses is declared by an earlier one. -/
theorem RunnableFrom.exists_decl (h : RunnableFrom [] ss) {j : Nat} {t : Stmt}
    (ht : ss[j]? = some t) (hx : x ∈ t.uses) :
    ∃ i < j, ∃ s, ss[i]? = some s ∧ s.declName? = some x :=
  mem_declNames_take.mp (by simpa using (h.getElem? ht).uses x hx)

theorem RunnableFrom.mem_declNames (h : RunnableFrom [] ss) (hx : x ∈ ss.flatMap occurring) :
    x ∈ declNames ss := by
  obtain ⟨t, ht, hx⟩ := List.mem_flatMap.mp hx
  rcases mem_occurring_iff.mp hx with hdecl | huse
  · exact List.mem_filterMap.mpr ⟨t, ht, hdecl⟩
  · obtain ⟨j, hj⟩ := List.getElem?_of_mem ht
    obtain ⟨i, -, s, hs, hdecl⟩ := h.exists_decl hj huse
    exact List.mem_filterMap.mpr ⟨s, List.mem_of_getElem? hs, hdecl⟩

end Stmt

namespace Layout

/-- Every number has one place. -/
theorem perm_order (l : Layout) : l.order.Perm (List.range l.placed.length) := by
  have hmem (i : Nat) : i ∈ l.order ↔ i ∈ List.range l.placed.length := by
    rw [List.mem_range]
    constructor
    · intro hi
      obtain ⟨b, -, hi⟩ := List.mem_flatMap.mp hi
      obtain ⟨s, hs⟩ := mem_order_iff.mp hi
      exact (List.getElem?_eq_some_iff.mp hs).1
    · exact fun hi ↦ mem_order (List.getElem?_eq_getElem hi)
  have hnodup : l.order.Nodup := by
    refine l.pairwise_order.imp_of_mem fun {i j} hi _ hpair hij ↦ ?_
    subst hij
    have ha := List.getElem?_eq_getElem (List.mem_range.mp ((hmem i).mp hi))
    rcases hpair _ _ ha ha with hbefore | ⟨-, hlt⟩
    · exact Block.not_before_self _ hbefore
    · exact Nat.lt_irrefl i hlt
  exact (List.perm_ext_iff_of_nodup hnodup List.nodup_range).mpr hmem

/-- The sequence of the blocks has the statements of the program, in another order. -/
theorem perm_stmts (l : Layout) : l.stmts.Perm (l.placed.map Prod.snd) := by
  have hperm := l.perm_order.map fun i ↦ (l.placed.map Prod.snd)[i]?
  have hrange : (List.range l.placed.length).map (fun i ↦ (l.placed.map Prod.snd)[i]?) =
      (l.placed.map Prod.snd).map some := by
    refine List.ext_getElem (by simp) fun i hi hi' ↦ ?_
    simp only [List.length_map, List.length_range] at hi
    simp [hi]
  rw [map_order, hrange] at hperm
  exact (List.map_perm_map_iff (Option.some_injective Stmt)).mp hperm

/-- The blocks keep the scopes of the statements `ss`, which are known by their numbers. -/
structure KeepsScopes (l : Layout) (ss : List Stmt) : Prop where
  /-- The sequence of the blocks has each of the statements once. -/
  perm : l.order.Perm (List.range ss.length)
  stmts : l.order.map (fun i ↦ ss[i]?) = l.stmts.map some
  declared : ∀ x ∈ ss.flatMap Stmt.occurring, l.declNames.count x = 1
  /-- The declaration of a variable comes before all else that mentions it. -/
  decl_first : ∀ i j s t x, ss[i]? = some s → ss[j]? = some t → s.declName? = some x →
    x ∈ t.occurring → i ≠ j → l.Precedes i j
  /-- No read comes before a statement that gave the variable its value. -/
  write_first : ∀ i j w s x, ss[i]? = some w → ss[j]? = some s → i < j → w.assignee? = some x →
    x ∈ s.reads → l.Precedes i j

end Layout

namespace Typing

variable {t : Typing} {declared : List String} {s : Stmt} {x : String}

/-- What a statement uses is written in its own block or in earlier ones. -/
theorem Places.not_before_home (h : t.Places declared s)
    (hassigned : ∀ y ∈ s.assignee?, t.assigned y = true) (hx : x ∈ s.uses) :
    ¬ (t.blockOf s).Before (t.home x) := by
  cases s with
  | assign y e =>
      rcases List.mem_cons.mp hx with rfl | hx
      · exact Block.not_before_self _
      · exact h.not_before hassigned hx
  | _ => exact h.not_before hassigned hx

end Typing

namespace Layout

variable {prims : Primitives} {p : Program} {seeds : Seeds} {t : Typing} {l : Layout}

/-- A statement that writes a variable stays before the later ones that use it. -/
theorem precedes_of_uses (hfuncs : p.funcs = []) (ht : Typing.infer prims p seeds = .ok t)
    (hl : ofProgram t.levelMap p = .ok l) {i j : Nat} {w s : Stmt}
    (hw : (Stmt.flatten p.stmts)[i]? = some w) (hs : (Stmt.flatten p.stmts)[j]? = some s)
    (hij : i < j) {x : String} (htarget : w.target? = some x) (huses : x ∈ s.uses) :
    l.Precedes i j := by
  obtain ⟨-, hassigned⟩ := Typing.tracks_of_infer_eq_ok hfuncs ht
  obtain ⟨-, hplaced⟩ := (ofProgram_eq_ok_iff hfuncs).mp hl
  have hmem : s ∈ Stmt.flatten p.stmts := List.mem_of_getElem? hs
  obtain ⟨declared, hplaces⟩ := exists_places_of_mem hl hmem
  have hnot := hplaces.not_before_home (hassigned s hmem) huses
  rw [precedes_iff (placed_getElem? hplaced hw) (placed_getElem? hplaced hs),
    Typing.blockOf_of_target htarget]
  exact (Block.before_or_eq_of_not_before hnot).imp_right fun hblock ↦ ⟨hblock, hij⟩

theorem keepsScopes (hfuncs : p.funcs = []) (ht : Typing.infer prims p seeds = .ok t)
    (hl : ofProgram t.levelMap p = .ok l) : l.KeepsScopes (Stmt.flatten p.stmts) := by
  obtain ⟨hrun, -⟩ := Typing.tracks_of_infer_eq_ok hfuncs ht
  have hstmts : l.placed.map Prod.snd = Stmt.flatten p.stmts :=
    map_snd_placed ((ofProgram_eq_ok_iff hfuncs).mp hl).2
  have hlength : l.placed.length = (Stmt.flatten p.stmts).length := by
    rw [← hstmts, List.length_map]
  refine ⟨hlength ▸ l.perm_order, hstmts ▸ l.map_order, fun x hx ↦ ?_, ?_, ?_⟩
  · have hperm : l.declNames.Perm (Stmt.declNames (Stmt.flatten p.stmts)) :=
      hstmts ▸ l.perm_stmts.filterMap Stmt.declName?
    rw [hperm.count_eq]
    exact List.count_eq_one_of_mem (hrun.nodup List.nodup_nil) (hrun.mem_declNames hx)
  · intro i j s u x hs hu hdecl hx hij
    rcases Stmt.mem_occurring_iff.mp hx with hdecl' | huses
    · exact absurd (hrun.index_eq hs hu hdecl hdecl') hij
    · obtain ⟨k, hkj, s', hs', hdecl'⟩ := hrun.exists_decl hu huses
      obtain rfl : i = k := hrun.index_eq hs hs' hdecl hdecl'
      exact precedes_of_uses hfuncs ht hl hs hu hkj (Stmt.target?_of_declName? hdecl) huses
  · intro i j w s x hw hs hij hassignee hread
    exact precedes_of_uses hfuncs ht hl hw hs hij (Stmt.target?_of_assignee? hassignee)
      (Stmt.mem_uses_of_mem_reads hread)

end Layout

namespace Compiler

variable {c : Compiler} {program : Program} {o : Output}

/-- In the sequence of the blocks of a compiled program, every variable is declared exactly once,
before all other statements that mention it, and every statement still comes after the initialisers
and assignments that came before it and wrote what it reads. -/
theorem layout_keepsScopes (h : c.compile program = .ok o) :
    o.layout.KeepsScopes (Stmt.flatten o.elaborated.stmts) := by
  obtain ⟨⟨seeds, hlevels⟩, hlayout⟩ := of_compile_eq_ok h
  exact Layout.keepsScopes rfl hlevels hlayout

theorem layout_keepsScopes_total :
    ∃ o, standard.compile Program.total = .ok o ∧
      o.layout.KeepsScopes (Stmt.flatten o.elaborated.stmts) ∧
      o.layout.order = [0, 3, 4, 5, 1, 2, 6, 7] := by
  have hok : ((standard.compile Program.total).toOption.any fun o ↦
      decide (o.layout.order = [0, 3, 4, 5, 1, 2, 6, 7])) = true := by
    decide +kernel
  obtain ⟨o, ho, hok⟩ := exists_ok_of_any hok
  exact ⟨o, ho, layout_keepsScopes ho, of_decide_eq_true hok⟩

end Compiler

end Stratify
