import Stratify.Syntax.Printer
import Stratify.Syntax.Reads
import Stratify.Syntax.Traversal

/-!
# Complete trees

A tree is complete if no required child is missing. Complete trees have a text, their calls are
complete, and opening up blocks keeps statements complete. What an initialiser or a result may leave
out is not missing.
-/

namespace Stratify

namespace Expr

mutual

def complete : Expr → Bool
  | hole => false
  | lit .. => true
  | var _ => true
  | unary _ x => x.complete
  | binary _ x y => x.complete && y.complete
  | index x indices => x.complete && completeAll indices
  | call _ args => completeAll args

def completeAll : List Expr → Bool
  | [] => true
  | e :: es => e.complete && completeAll es

end

theorem completeAll_iff {es : List Expr} : completeAll es = true ↔ ∀ e ∈ es, e.complete = true := by
  induction es with
  | nil => simp [completeAll]
  | cons e es ih => simp [completeAll, ih]

mutual

theorem exists_text_of_complete : ∀ {e : Expr}, e.complete = true → ∃ t, e.text = some t
  | hole, h => by simp [complete] at h
  | lit .., _ => ⟨_, rfl⟩
  | var _, _ => ⟨_, rfl⟩
  | unary op x, h => by
      obtain ⟨t, ht⟩ := exists_text_of_complete (e := x) (by simpa [complete] using h)
      exact ⟨_, by rw [text, ht]; rfl⟩
  | binary op x y, h => by
      simp only [complete, Bool.and_eq_true] at h
      obtain ⟨t, ht⟩ := exists_text_of_complete h.1
      obtain ⟨u, hu⟩ := exists_text_of_complete h.2
      exact ⟨_, by rw [text, ht, hu]; rfl⟩
  | index x indices, h => by
      simp only [complete, Bool.and_eq_true] at h
      obtain ⟨t, ht⟩ := exists_text_of_complete h.1
      obtain ⟨ts, hts⟩ := exists_texts_of_completeAll h.2
      exact ⟨_, by rw [text, ht, hts]; rfl⟩
  | call fn args, h => by
      obtain ⟨ts, hts⟩ : ∃ ts, texts args = some ts :=
        exists_texts_of_completeAll (by simpa [complete] using h)
      exact ⟨_, by rw [text, hts]; rfl⟩

theorem exists_texts_of_completeAll :
    ∀ {es : List Expr}, completeAll es = true → ∃ ts, texts es = some ts
  | [], _ => ⟨_, rfl⟩
  | e :: es, h => by
      simp only [completeAll, Bool.and_eq_true] at h
      obtain ⟨t, ht⟩ := exists_text_of_complete h.1
      obtain ⟨ts, hts⟩ := exists_texts_of_completeAll h.2
      exact ⟨_, by rw [texts, ht, hts]; rfl⟩

end

mutual

theorem complete_of_text : ∀ {e : Expr} {t : String}, e.text = some t → e.complete = true
  | hole, _, h => by cases h
  | lit .., _, _ => rfl
  | var _, _, _ => rfl
  | unary op x, t, h => by
      obtain ⟨u, hu, -⟩ := Option.map_eq_some_iff.mp h
      exact complete_of_text (e := x) hu
  | binary op x y, t, h => by
      simp only [text, Option.bind_eq_bind, Option.bind_eq_some_iff] at h
      obtain ⟨u, hu, v, hv, -⟩ := h
      simp [complete, complete_of_text hu, complete_of_text hv]
  | index x indices, t, h => by
      simp only [text, Option.bind_eq_bind, Option.bind_eq_some_iff] at h
      obtain ⟨u, hu, vs, hvs, -⟩ := h
      simp [complete, complete_of_text hu, completeAll_of_texts hvs]
  | call fn args, t, h => by
      simp only [text, Option.bind_eq_bind, Option.bind_eq_some_iff] at h
      obtain ⟨vs, hvs, -⟩ := h
      simp [complete, completeAll_of_texts hvs]

theorem completeAll_of_texts :
    ∀ {es : List Expr} {ts : List String}, texts es = some ts → completeAll es = true
  | [], _, _ => rfl
  | e :: es, ts, h => by
      simp only [texts, Option.bind_eq_bind, Option.bind_eq_some_iff] at h
      obtain ⟨u, hu, vs, hvs, -⟩ := h
      simp [completeAll, complete_of_text hu, completeAll_of_texts hvs]

end

mutual

theorem complete_of_mem_calls :
    ∀ {e : Expr} {c : Call}, e.complete = true → c ∈ e.calls → c.toExpr.complete = true
  | hole, _, _, hc => by cases hc
  | lit .., _, _, hc => by cases hc
  | var _, _, _, hc => by cases hc
  | unary _ x, _, h, hc => complete_of_mem_calls (e := x) h hc
  | binary _ x y, _, h, hc => by
      simp only [complete, Bool.and_eq_true] at h
      rcases List.mem_append.mp hc with hc | hc
      · exact complete_of_mem_calls h.1 hc
      · exact complete_of_mem_calls h.2 hc
  | index x indices, _, h, hc => by
      simp only [complete, Bool.and_eq_true] at h
      rcases List.mem_append.mp hc with hc | hc
      · exact complete_of_mem_calls h.1 hc
      · exact complete_of_mem_callsAll h.2 hc
  | call fn args, _, h, hc => by
      rcases List.mem_append.mp hc with hc | hc
      · exact complete_of_mem_callsAll h hc
      · exact List.mem_singleton.mp hc ▸ h

theorem complete_of_mem_callsAll :
    ∀ {es : List Expr} {c : Call}, completeAll es = true → c ∈ callsAll es →
      c.toExpr.complete = true
  | [], _, _, hc => by cases hc
  | e :: es, _, h, hc => by
      simp only [completeAll, Bool.and_eq_true] at h
      rcases List.mem_append.mp hc with hc | hc
      · exact complete_of_mem_calls h.1 hc
      · exact complete_of_mem_callsAll h.2 hc

end

end Expr

namespace Stmt

def completeInit : Option Expr → Bool
  | none => true
  | some e => e.complete

mutual

def complete : Stmt → Bool
  | hole => false
  | decl _ _ _ init => completeInit init
  | assign _ value => value.complete
  | sample _ _ args => Expr.completeAll args
  | block list => completeAll list
  | func _ _ none result => completeInit result
  | func _ _ (some body) result => completeAll body && completeInit result

def completeAll : List Stmt → Bool
  | [] => true
  | s :: ss => s.complete && completeAll ss

end

theorem completeAll_iff {ss : List Stmt} : completeAll ss = true ↔ ∀ s ∈ ss, s.complete = true := by
  induction ss with
  | nil => simp [completeAll]
  | cons s ss ih => simp [completeAll, ih]

mutual

theorem complete_flat : ∀ {s : Stmt}, s.complete = true → ∀ t ∈ s.flat, t.complete = true
  | hole, h, t, ht => by simp [complete] at h
  | decl .., h, t, ht => by simpa [flat] using (List.mem_singleton.mp ht) ▸ h
  | assign .., h, t, ht => by simpa [flat] using (List.mem_singleton.mp ht) ▸ h
  | sample .., h, t, ht => by simpa [flat] using (List.mem_singleton.mp ht) ▸ h
  | block list, h, t, ht => complete_flatten (by simpa [complete] using h) t ht
  | func .., h, t, ht => by simpa [flat] using (List.mem_singleton.mp ht) ▸ h

theorem complete_flatten :
    ∀ {ss : List Stmt}, completeAll ss = true → ∀ t ∈ flatten ss, t.complete = true
  | [], _, t, ht => by simp [flatten] at ht
  | s :: ss, h, t, ht => by
      simp only [completeAll, Bool.and_eq_true] at h
      rcases List.mem_append.mp ht with hs | hss
      · exact complete_flat h.1 t hs
      · exact complete_flatten h.2 t hss

end

theorem exists_initText {init : Option Expr} (h : completeInit init = true) :
    ∃ t, initText init = some t := by
  cases init with
  | none => exact ⟨_, rfl⟩
  | some e =>
      obtain ⟨t, ht⟩ := Expr.exists_text_of_complete h
      exact ⟨_, by rw [initText, ht, Option.map_some]⟩

theorem exists_resultText {result : Option Expr} (h : completeInit result = true) :
    ∃ t, resultText result = some t := by
  cases result with
  | none => exact ⟨_, rfl⟩
  | some e =>
      obtain ⟨t, ht⟩ := Expr.exists_text_of_complete h
      exact ⟨_, by rw [resultText, ht, Option.map_some]⟩

mutual

theorem exists_text_of_complete : ∀ {s : Stmt}, s.complete = true → ∃ t, s.text = some t
  | hole, h => by cases h
  | decl type name data init, h => by
      obtain ⟨t, ht⟩ := exists_initText (show completeInit init = true from h)
      exact ⟨_, by rw [text, ht]; rfl⟩
  | assign name value, h => by
      obtain ⟨t, ht⟩ := Expr.exists_text_of_complete (e := value) h
      exact ⟨_, by rw [text, ht]; rfl⟩
  | sample name dist args, h => by
      obtain ⟨ts, hts⟩ := Expr.exists_texts_of_completeAll
        (show Expr.completeAll args = true from h)
      exact ⟨_, by rw [text, hts]; rfl⟩
  | block list, h => by
      obtain ⟨ts, hts⟩ := exists_texts_of_completeAll (show completeAll list = true from h)
      exact ⟨_, by rw [text, hts]; rfl⟩
  | func name params none result, h => by
      obtain ⟨r, hr⟩ := exists_resultText (show completeInit result = true from h)
      exact ⟨_, by rw [text, hr]; rfl⟩
  | func name params (some body) result, h => by
      simp only [complete, Bool.and_eq_true] at h
      obtain ⟨ts, hts⟩ := exists_texts_of_completeAll h.1
      obtain ⟨r, hr⟩ := exists_resultText h.2
      exact ⟨_, by rw [text, hts, hr]; rfl⟩

theorem exists_texts_of_completeAll :
    ∀ {ss : List Stmt}, completeAll ss = true → ∃ ts, texts ss = some ts
  | [], _ => ⟨_, rfl⟩
  | s :: ss, h => by
      simp only [completeAll, Bool.and_eq_true] at h
      obtain ⟨t, ht⟩ := exists_text_of_complete h.1
      obtain ⟨ts, hts⟩ := exists_texts_of_completeAll h.2
      exact ⟨_, by rw [texts, ht, hts]; rfl⟩

end

theorem complete_of_mem_initCalls {init : Option Expr} {c : Call} (h : completeInit init = true)
    (hc : c ∈ initCalls init) : c.toExpr.complete = true := by
  cases init with
  | none => cases hc
  | some e => exact Expr.complete_of_mem_calls h hc

mutual

theorem complete_of_mem_calls :
    ∀ {s : Stmt} {c : Call}, s.complete = true → c ∈ s.calls → c.toExpr.complete = true
  | hole, _, _, hc => by cases hc
  | decl .., _, h, hc => complete_of_mem_initCalls h hc
  | assign .., _, h, hc => Expr.complete_of_mem_calls h hc
  | sample .., _, h, hc => Expr.complete_of_mem_callsAll h hc
  | block list, _, h, hc => complete_of_mem_callsAll (show completeAll list = true from h) hc
  | func _ _ none result, _, h, hc =>
      complete_of_mem_initCalls (show completeInit result = true from h) hc
  | func _ _ (some body) result, _, h, hc => by
      simp only [complete, Bool.and_eq_true] at h
      rcases List.mem_append.mp hc with hc | hc
      · exact complete_of_mem_callsAll h.1 hc
      · exact complete_of_mem_initCalls h.2 hc

theorem complete_of_mem_callsAll :
    ∀ {ss : List Stmt} {c : Call}, completeAll ss = true → c ∈ callsAll ss →
      c.toExpr.complete = true
  | [], _, _, hc => by cases hc
  | s :: ss, _, h, hc => by
      simp only [completeAll, Bool.and_eq_true] at h
      rcases List.mem_append.mp hc with hc | hc
      · exact complete_of_mem_calls h.1 hc
      · exact complete_of_mem_callsAll h.2 hc

end

/-- A statement that is no block. -/
def isFlat : Stmt → Bool
  | block _ => false
  | _ => true

mutual

theorem isFlat_flat : ∀ (s : Stmt), ∀ t ∈ s.flat, t.isFlat = true
  | hole, t, ht => by rw [List.mem_singleton.mp ht]; rfl
  | decl .., t, ht => by rw [List.mem_singleton.mp ht]; rfl
  | assign .., t, ht => by rw [List.mem_singleton.mp ht]; rfl
  | sample .., t, ht => by rw [List.mem_singleton.mp ht]; rfl
  | block list, t, ht => isFlat_flatten list t ht
  | func .., t, ht => by rw [List.mem_singleton.mp ht]; rfl

theorem isFlat_flatten : ∀ (ss : List Stmt), ∀ t ∈ flatten ss, t.isFlat = true
  | [], t, ht => by simp [flatten] at ht
  | s :: ss, t, ht => by
      rcases List.mem_append.mp ht with hs | hss
      · exact isFlat_flat s t hs
      · exact isFlat_flatten ss t hss

end

theorem flat_of_isFlat {s : Stmt} (h : s.isFlat = true) : s.flat = [s] := by
  cases s with
  | block list => simp [isFlat] at h
  | _ => rfl

theorem flatten_of_isFlat {ss : List Stmt} (h : ∀ s ∈ ss, s.isFlat = true) : flatten ss = ss := by
  induction ss with
  | nil => rfl
  | cons s ss ih =>
      have hs : s.flat = [s] := flat_of_isFlat (h s (List.mem_cons_self ..))
      have hss : flatten ss = ss := ih fun t ht ↦ h t (List.mem_cons_of_mem s ht)
      rw [flatten, hs, hss, List.singleton_append]

end Stmt

namespace Func

def complete (f : Func) : Bool :=
  f.toStmt.complete

theorem complete_stmts {f : Func} (h : f.complete = true) :
    Stmt.completeAll f.stmts = true := by
  obtain ⟨name, params, body, result⟩ := f
  cases body with
  | none => rfl
  | some body =>
      simp only [complete, toStmt, Stmt.complete, Bool.and_eq_true] at h
      exact h.1

theorem complete_result {f : Func} (h : f.complete = true) {e : Expr} (he : f.result = some e) :
    e.complete = true := by
  obtain ⟨name, params, body, result⟩ := f
  subst he
  cases body with
  | none => simpa [complete, toStmt, Stmt.complete, Stmt.completeInit] using h
  | some body =>
      simp only [complete, toStmt, Stmt.complete, Bool.and_eq_true, Stmt.completeInit] at h
      exact h.2

end Func

namespace Program

/-- No required node is missing anywhere in the program. -/
def complete (p : Program) : Bool :=
  p.funcs.all Func.complete && p.stmts.all Stmt.complete

theorem complete_func {p : Program} (h : p.complete = true) {f : Func} (hf : f ∈ p.funcs) :
    f.complete = true := by
  simp only [complete, Bool.and_eq_true, List.all_eq_true] at h
  exact h.1 f hf

theorem complete_stmts {p : Program} (h : p.complete = true) :
    Stmt.completeAll p.stmts = true := by
  simp only [complete, Bool.and_eq_true, List.all_eq_true] at h
  exact Stmt.completeAll_iff.mpr h.2

end Program

namespace Node

def complete : Node → Bool
  | expr e => e.complete
  | stmt s => s.complete
  | param _ => true

theorem exists_text_of_complete {n : Node} (h : n.complete = true) : ∃ t, n.text = some t := by
  cases n with
  | expr e => exact Expr.exists_text_of_complete h
  | stmt s => exact Stmt.exists_text_of_complete h
  | param p => exact ⟨_, rfl⟩

end Node

end Stratify
