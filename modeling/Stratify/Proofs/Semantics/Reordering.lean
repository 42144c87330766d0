import Stratify.Proofs.Semantics.Footprint
import Stratify.Proofs.Typing.Environment

/-!
# Sorting statements into blocks

A run does not change when the statements are sorted by their blocks, if any two statements that
change places are independent. And a run of statements that only use what is declared before them
always comes to its end.
-/

namespace Stratify

namespace Block

def Before (b b' : Block) : Prop :=
  all.idxOf b < all.idxOf b'

instance (b b' : Block) : Decidable (b.Before b') :=
  inferInstanceAs (Decidable (_ < _))

theorem before_of_append {b b' : Block} {front back : List Block}
    (h : all = front ++ b' :: back) (hb : b ∈ front) : b.Before b' := by
  have hnodup : (front ++ b' :: back).Nodup := h ▸ by decide
  have hnot : b' ∉ front := fun hmem ↦
    (List.nodup_append.mp hnodup).2.2 b' hmem b' (List.mem_cons_self ..) rfl
  rw [Before, h, List.idxOf_append_of_mem hb, List.idxOf_append_of_notMem hnot,
    List.idxOf_cons_self]
  have hlt := List.idxOf_lt_length_iff.mpr hb
  omega

end Block

variable {V : Type}

namespace Stmt

variable {M : Meaning V} {p : Program} {call : CallMeaning V} {given : String → V}

theorem exec_comm (hfuncs : p.funcs = []) {s t : Stmt} (h : s.Independent t)
    (c : Store V × Effects V) :
    (s.exec M p call given c >>= t.exec M p call given) =
      (t.exec M p call given c >>= s.exec M p call given) := by
  rw [exec_eq_change hfuncs, exec_eq_change hfuncs]
  have hs {ch : Change V} (hch : ch.Of t) :
      s.change M given (ch.apply c).1 = s.change M given c.1 :=
    change_congr fun x hx ↦ hch.frame fun hmem ↦ h.right x hmem hx
  have ht {ch : Change V} (hch : ch.Of s) :
      t.change M given (ch.apply c).1 = t.change M given c.1 :=
    change_congr fun x hx ↦ hch.frame fun hmem ↦ h.left x hmem hx
  cases hsc : s.change M given c.1 with
  | none =>
      cases htc : t.change M given c.1 with
      | none => rfl
      | some ch' => simp [exec_eq_change hfuncs, hs (change_of htc), hsc]
  | some ch =>
      have hof := change_of hsc
      cases htc : t.change M given c.1 with
      | none => simp [exec_eq_change hfuncs, ht hof, htc]
      | some ch' =>
          have hof' := change_of htc
          simp only [Option.map_some, Option.bind_eq_bind, Option.bind_some,
            exec_eq_change hfuncs, hs hof', ht hof, hsc, htc]
          rw [Change.apply_comm hof hof' h]

/-- Statements without user calls run alike in all programs without functions. -/
theorem execAll_congr {p p' : Program} {call call' : CallMeaning V} (hfuncs : p.funcs = [])
    (hfuncs' : p'.funcs = []) (ss : List Stmt) (c : Store V × Effects V) :
    execAll M p call given ss c = execAll M p' call' given ss c := by
  induction ss generalizing c with
  | nil => rfl
  | cons s ss ih =>
      rw [execAll, execAll, exec_eq_change hfuncs, exec_eq_change hfuncs']
      congr 1
      funext c'
      exact ih c'

/-- A statement can wait until other statements have run. -/
theorem execAll_move (hfuncs : p.funcs = []) {s : Stmt} {ts : List Stmt}
    (h : ∀ t ∈ ts, s.Independent t) (us : List Stmt) (c : Store V × Effects V) :
    execAll M p call given (s :: (ts ++ us)) c = execAll M p call given (ts ++ s :: us) c := by
  induction ts generalizing c with
  | nil => rfl
  | cons t ts ih =>
      rw [List.forall_mem_cons] at h
      calc
        execAll M p call given (s :: t :: (ts ++ us)) c =
            ((s.exec M p call given c >>= t.exec M p call given) >>=
              execAll M p call given (ts ++ us)) := by
          simp only [execAll, bind_assoc]
        _ = ((t.exec M p call given c >>= s.exec M p call given) >>=
              execAll M p call given (ts ++ us)) := by
          rw [exec_comm hfuncs h.1]
        _ = (t.exec M p call given c >>= execAll M p call given (s :: (ts ++ us))) := by
          simp only [execAll, bind_assoc]
        _ = execAll M p call given (t :: (ts ++ s :: us)) c := by
          rw [execAll]
          congr 1
          funext c'
          exact ih h.2 c'

/-- A run of statements that use only what is declared before them comes to its end. -/
theorem RunnableFrom.exists_execAll (hfuncs : p.funcs = []) {declared : List String}
    {ss : List Stmt} (h : RunnableFrom declared ss) {σ : Store V} {w : Effects V}
    (hσ : ∀ x ∈ declared, ∃ v, σ x = some v) :
    ∃ τ trace, execAll M p call given ss (σ, w) = some (τ, ⟨w.calls, trace⟩) ∧
      ∀ x ∈ declared ++ declNames ss, ∃ v, τ x = some v := by
  induction ss generalizing declared σ w with
  | nil => exact ⟨σ, w.trace, rfl, by simpa [declNames] using hσ⟩
  | cons s ss ih =>
      obtain ⟨ch, hch⟩ := h.1.exists_change M given hσ
      have hcalls : (ch.apply (σ, w)).2.calls = w.calls := by
        cases ch <;> rfl
      obtain ⟨τ, trace, hrun, hdefined⟩ := ih (w := (ch.apply (σ, w)).2) h.2
        (defined_of_change hch hσ w)
      refine ⟨τ, trace, ?_, fun x hx ↦ hdefined x ?_⟩
      · rw [execAll, exec_eq_change hfuncs, hch, ← hcalls, ← hrun]
        rfl
      · rwa [List.append_assoc, ← declNames_append, List.singleton_append]

/-- What the changes of some statements preserve, their run preserves. -/
theorem execAll_invariant (hfuncs : p.funcs = []) {P : Store V × Effects V → Prop}
    {ss : List Stmt} (h : ∀ s ∈ ss, ∀ ch : Change V, ch.Of s → ∀ c, P c → P (ch.apply c))
    {c c' : Store V × Effects V} (hc : P c) (hrun : execAll M p call given ss c = some c') :
    P c' := by
  induction ss generalizing c with
  | nil =>
      cases hrun
      exact hc
  | cons s ss ih =>
      rw [List.forall_mem_cons] at h
      rw [execAll, exec_eq_change hfuncs] at hrun
      cases hch : s.change M given c.1 with
      | none =>
          rw [hch] at hrun
          cases hrun
      | some ch =>
          rw [hch] at hrun
          exact ih h.2 (h.1 ch (change_of hch) c hc) hrun

theorem effects_of_execAll (hfuncs : p.funcs = []) {ss : List Stmt}
    (h : ∀ s ∈ ss, s.isSample = false) {c c' : Store V × Effects V}
    (hrun : execAll M p call given ss c = some c') : c'.2 = c.2 := by
  refine execAll_invariant (P := fun c' ↦ c'.2 = c.2) hfuncs (fun s hs ch hch d hd ↦ ?_) rfl hrun
  cases ch with
  | set x v => exact hd
  | emit factor => cases (h s hs).symm.trans hch

theorem store_of_execAll (hfuncs : p.funcs = []) {ss : List Stmt}
    (h : ∀ s ∈ ss, s.target? = none) {c c' : Store V × Effects V}
    (hrun : execAll M p call given ss c = some c') : c'.1 = c.1 := by
  refine execAll_invariant (P := fun c' ↦ c'.1 = c.1) hfuncs (fun s hs ch hch d hd ↦ ?_) rfl hrun
  cases ch with
  | set x v => cases (h s hs).symm.trans hch
  | emit factor => exact hd

end Stmt

namespace Layout

variable {M : Meaning V} {p : Program} {call : CallMeaning V} {given : String → V}

theorem block_cons (b c : Block) (s : Stmt) (placed : List (Block × Stmt)) :
    block ⟨(b, s) :: placed⟩ c = if b = c then s :: block ⟨placed⟩ c else block ⟨placed⟩ c := by
  by_cases h : b = c <;> simp [block, h]

/-- Only the block of a statement notices that statement. -/
theorem flatMap_block_cons {b : Block} {s : Stmt} {placed : List (Block × Stmt)}
    {bs : List Block} (h : b ∉ bs) :
    bs.flatMap (block ⟨(b, s) :: placed⟩) = bs.flatMap (block ⟨placed⟩) := by
  refine List.flatMap_congr fun c hc ↦ ?_
  rw [block_cons, if_neg]
  rintro rfl
  exact h hc

theorem mem_flatMap_block {placed : List (Block × Stmt)} {bs : List Block} {t : Stmt}
    (h : t ∈ bs.flatMap (block ⟨placed⟩)) : ∃ b ∈ bs, (b, t) ∈ placed := by
  obtain ⟨b, hb, ht⟩ := List.mem_flatMap.mp h
  obtain ⟨⟨b', t'⟩, hmem, rfl⟩ := List.mem_map.mp ht
  obtain ⟨hplaced, heq⟩ := List.mem_filter.mp hmem
  obtain rfl : b' = b := by simpa using heq
  exact ⟨b', hb, hplaced⟩

theorem execAll_stmts (hfuncs : p.funcs = []) {placed : List (Block × Stmt)}
    (h : placed.Pairwise fun a a' ↦ a'.1.Before a.1 → a.2.Independent a'.2)
    (c : Store V × Effects V) :
    Stmt.execAll M p call given (stmts ⟨placed⟩) c =
      Stmt.execAll M p call given (placed.map Prod.snd) c := by
  induction placed generalizing c with
  | nil => rfl
  | cons a placed ih =>
      obtain ⟨b, s⟩ := a
      rw [List.pairwise_cons] at h
      obtain ⟨front, back, hall⟩ := List.append_of_mem (Block.mem_all b)
      have hnodup : (front ++ b :: back).Nodup := hall ▸ by decide
      obtain ⟨-, hback, hdisjoint⟩ := List.nodup_append.mp hnodup
      have hfront : b ∉ front := fun hmem ↦ hdisjoint b hmem b (List.mem_cons_self ..) rfl
      have hsplit (l : Layout) :
          l.stmts = front.flatMap l.block ++ (l.block b ++ back.flatMap l.block) := by
        rw [stmts, hall, List.flatMap_append, List.flatMap_cons]
      -- The statement has to wait for those that come later but stand in earlier blocks.
      have hwait : ∀ t ∈ front.flatMap (block ⟨placed⟩), s.Independent t := by
        intro t ht
        obtain ⟨b', hb', hmem⟩ := mem_flatMap_block ht
        exact h.1 (b', t) hmem (Block.before_of_append hall hb')
      calc
        Stmt.execAll M p call given (stmts ⟨(b, s) :: placed⟩) c =
            Stmt.execAll M p call given (front.flatMap (block ⟨placed⟩) ++
              s :: (block ⟨placed⟩ b ++ back.flatMap (block ⟨placed⟩))) c := by
          rw [hsplit, flatMap_block_cons hfront, flatMap_block_cons (List.nodup_cons.mp hback).1,
            block_cons, if_pos rfl, List.cons_append]
        _ = Stmt.execAll M p call given (s :: stmts ⟨placed⟩) c := by
          rw [← Stmt.execAll_move hfuncs hwait, ← hsplit]
        _ = Stmt.execAll M p call given (s :: placed.map Prod.snd) c := by
          rw [Stmt.execAll, Stmt.execAll]
          congr 1
          funext c'
          exact ih h.2 c'

end Layout

end Stratify
