import Stratify.Diagnostic.Basic
import Stratify.Proofs.Syntax.Complete

/-!
# Diagnostics that have a message

A message ends with the text of the node that the diagnostic points at, and only a tree without
holes has a text. A diagnostic that points at nothing or at a complete tree is grounded, and has a
message. The one kind that may fail to be so is the report that calls are nested too deeply in a
function which the search has entered by itself: there is no call to point at.
-/

namespace Stratify

namespace Issue

def isTooDeep : Issue → Bool
  | tooDeep .. => true
  | _ => false

end Issue

namespace Diagnostic

/-- The search has found calls nested too deeply in a function that no call has led to. -/
def Uncalled (d : Diagnostic) : Prop :=
  ∃ fn depth limit, d.issue = .tooDeep [fn] fn depth limit

/-- Whatever the diagnostic points at is a tree without holes, and the function it blames, if any,
is one that a call has led to. -/
structure Grounded (d : Diagnostic) : Prop where
  complete : ∀ n ∈ d.node, n.complete = true
  called : ¬ d.Uncalled

theorem isSome_message_iff {d : Diagnostic} :
    d.message.isSome = true ↔ (nodeText d.node).isSome = true := by
  unfold message
  cases nodeText d.node <;> simp

theorem Grounded.isSome_message {d : Diagnostic} (h : d.Grounded) : d.message.isSome = true := by
  rw [isSome_message_iff]
  cases hnode : d.node with
  | none => rfl
  | some n =>
      obtain ⟨t, ht⟩ := Node.exists_text_of_complete (h.complete n hnode)
      rw [nodeText, ht]
      rfl

theorem not_uncalled {d : Diagnostic} (h : d.issue.isTooDeep = false) : ¬ d.Uncalled := by
  rintro ⟨fn, depth, limit, hissue⟩
  rw [hissue] at h
  cases h

theorem grounded_about {i : Issue} {n : Node} (hn : n.complete = true)
    (hi : i.isTooDeep = false := by rfl) : Grounded ⟨i, some n⟩ where
  complete _ hm := Option.some.inj hm ▸ hn
  called := not_uncalled hi

theorem grounded_bare {i : Issue} (hi : i.isTooDeep = false := by rfl) : Grounded ⟨i, none⟩ where
  complete _ hm := by cases hm
  called := not_uncalled hi

/-- A diagnostic that is grounded, unless it is about a function that no call has led to. Then it
points at a call that is missing. -/
def Accounted (d : Diagnostic) : Prop :=
  d.Grounded ∨ d.Uncalled ∧ d.node = some (.expr .hole)

theorem Accounted.isSome_message_iff {d : Diagnostic} (h : d.Accounted) :
    d.message.isSome = true ↔ ¬ d.Uncalled := by
  rcases h with h | ⟨huncalled, hnode⟩
  · exact ⟨fun _ ↦ h.called, fun _ ↦ h.isSome_message⟩
  · rw [Diagnostic.isSome_message_iff, hnode]
    exact ⟨fun h ↦ (by cases h), fun h ↦ absurd huncalled h⟩

end Diagnostic

namespace Fault

/-- The result is not undefined, and the report that stands for it is grounded. -/
def Grounded : Fault → Prop
  | report d => d.Grounded
  | undefined => False

/-- The result is not undefined, and the report that stands for it is accounted for. -/
def Accounted : Fault → Prop
  | report d => d.Accounted
  | undefined => False

theorem Grounded.accounted {f : Fault} (h : f.Grounded) : f.Accounted := by
  cases f with
  | report d => exact Or.inl h
  | undefined => exact h

theorem Grounded.exists_message {f : Fault} (h : f.Grounded) :
    ∃ d, f = .report d ∧ d.message.isSome = true := by
  cases f with
  | report d => exact ⟨d, rfl, Diagnostic.Grounded.isSome_message h⟩
  | undefined => exact h.elim

theorem Accounted.exists_message_iff {f : Fault} (h : f.Accounted) :
    ∃ d, f = .report d ∧ (d.message.isSome = true ↔ ¬ d.Uncalled) := by
  cases f with
  | report d => exact ⟨d, rfl, Diagnostic.Accounted.isSome_message_iff h⟩
  | undefined => exact h.elim

end Fault

/-! ### Computations with errors -/

/-- Results are as described, and so are errors. -/
def Yields {ε α : Type} (E : ε → Prop) (P : α → Prop) : Except ε α → Prop
  | .ok a => P a
  | .error e => E e

namespace Yields

variable {ε ε' α β : Type} {E E' : ε → Prop} {P Q : α → Prop} {R : β → Prop} {r : Except ε α}

theorem imp (h : Yields E P r) (hE : ∀ e, E e → E' e) (hP : ∀ a, P a → Q a) : Yields E' Q r := by
  cases r with
  | ok a => exact hP a h
  | error e => exact hE e h

theorem bind {f : α → Except ε β} (h : Yields E P r) (hf : ∀ a, P a → Yields E R (f a)) :
    Yields E R (r >>= f) := by
  cases r with
  | ok a => exact hf a h
  | error e => exact h

theorem mapError {f : ε → ε'} {F : ε' → Prop} (h : Yields E P r) (hf : ∀ e, E e → F (f e)) :
    Yields F P (r.mapError f) := by
  cases r with
  | ok a => exact h
  | error e => exact hf e h

theorem of_eq_ok (h : Yields E P r) {a : α} (hr : r = .ok a) : P a := by
  rwa [hr] at h

theorem of_eq_error (h : Yields E P r) {e : ε} (hr : r = .error e) : E e := by
  rwa [hr] at h

/-- What each step of a loop keeps, the loop keeps. -/
theorem foldlM {f : β → α → Except ε β} {as : List α}
    (hf : ∀ a ∈ as, ∀ b, R b → Yields E R (f b a)) {b : β} (hb : R b) :
    Yields E R (as.foldlM f b) := by
  induction as generalizing b with
  | nil => exact hb
  | cons a as ih =>
      rw [List.forall_mem_cons] at hf
      rw [List.foldlM_cons]
      exact (hf.1 b hb).bind fun b' hb' ↦ ih hf.2 hb'

end Yields

end Stratify
