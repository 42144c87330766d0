import Mathlib.Data.List.Basic
import Stratify.Inlining
import Stratify.Proofs.Typing.Judgement

/-!
# Keys of level variables

Level variables are known by keys, which are plain text: the name of a variable, with that of its
function in front, and numbered keys for expressions. If all names are words, then the marks that
keys are made up of occur in no name, so no variable has the key of an expression. If no name is
reserved either, then different variables have different keys.
-/

namespace Stratify

namespace Text

/-- Letters, digits and the underscore. Characters beyond the first 128 all count as letters. -/
def isNameChar (c : Char) : Bool :=
  c.isAlphanum || c == '_' || decide (128 ≤ c.toNat)

/-- A word of letters, digits and underscores. -/
def isWord (s : String) : Bool :=
  s != "" && s.toList.all isNameChar

/-- A word that the language does not reserve. -/
def isIdentifier (s : String) : Bool :=
  isWord s && s != "return"

/-- A number can be read off its digits. -/
theorem toString_nat_injective {m n : Nat} (h : toString m = toString n) : m = n := by
  have hdigits : (Nat.repr m).toList = (Nat.repr n).toList := congrArg String.toList h
  rw [Nat.toList_repr, Nat.toList_repr] at hdigits
  have hvalue := congrArg (fun cs ↦ Nat.ofDigitChars 10 cs 0) hdigits
  simpa using hvalue

end Text

namespace Program

/-- The names of all functions and variables. -/
def names (p : Program) : List String :=
  p.funcs.map Func.name ++ p.mentions

def NamedByWords (p : Program) : Prop :=
  ∀ x ∈ p.names, Text.isWord x = true

instance (p : Program) : Decidable p.NamedByWords :=
  inferInstanceAs (Decidable (∀ x ∈ _, _))

def NamedByIdentifiers (p : Program) : Prop :=
  ∀ x ∈ p.names, Text.isIdentifier x = true

instance (p : Program) : Decidable p.NamedByIdentifiers :=
  inferInstanceAs (Decidable (∀ x ∈ _, _))

end Program

namespace Slot

def key : Slot → String
  | var id => id.key
  | result fn => VarId.resultKey fn

end Slot

namespace Draft

/-- The key of the level variable of the expression with a number. -/
def exprKey (n : Nat) : String :=
  "$" ++ toString n

/-- A key that no expression has, and that does stand for a variable. -/
def Visible (key : String) : Prop :=
  key ≠ "" ∧ ∀ n, key ≠ exprKey n

theorem exprKey_injective {m n : Nat} (h : exprKey m = exprKey n) : m = n :=
  Text.toString_nat_injective ((String.append_right_inj "$").mp h)

theorem exprKey_ne_empty (n : Nat) : exprKey n ≠ "" := by
  intro h
  have hlist := congrArg String.toList h
  simp [exprKey] at hlist

theorem visible_of_head? {key : String} {c : Char} (hhead : key.toList.head? = some c)
    (hc : c ≠ '$') : Visible key := by
  constructor
  · rintro rfl
    simp at hhead
  · rintro n rfl
    simp only [exprKey, String.toList_append] at hhead
    exact hc (Option.some.inj hhead).symm

end Draft

namespace Program

/-- Level variables are not taken for expressions, nor functions for the top level. -/
structure KeysVisible (p : Program) : Prop where
  visible : ∀ s ∈ p.slots, Draft.Visible s.key
  func_ne : ∀ f ∈ p.funcs, f.name ≠ ""

/-- Moreover, different level variables have different keys. -/
structure Apart (p : Program) : Prop extends p.KeysVisible where
  injective : ∀ s ∈ p.slots, ∀ t ∈ p.slots, s.key = t.key → s = t

end Program

namespace Text

theorem isWord_iff {s : String} :
    isWord s = true ↔ s ≠ "" ∧ ∀ c ∈ s.toList, isNameChar c = true := by
  simp [isWord]

theorem isIdentifier_iff {s : String} :
    isIdentifier s = true ↔ isWord s = true ∧ s ≠ "return" := by
  simp [isIdentifier]

theorem notMem_of_isWord {s : String} (h : isWord s = true) {c : Char}
    (hc : isNameChar c = false) : c ∉ s.toList := by
  intro hmem
  rw [(isWord_iff.mp h).2 c hmem] at hc
  cases hc

theorem exists_head?_of_isWord {s : String} (h : isWord s = true) :
    ∃ c, s.toList.head? = some c ∧ c ≠ '$' := by
  cases hlist : s.toList with
  | nil => exact absurd (String.toList_eq_nil_iff.mp hlist) (isWord_iff.mp h).1
  | cons c cs =>
      refine ⟨c, rfl, ?_⟩
      rintro rfl
      exact notMem_of_isWord h (by decide) (hlist ▸ List.mem_cons_self ..)

theorem notMem_dot {s : String} (h : isWord s = true) : '.' ∉ s.toList :=
  notMem_of_isWord h (by decide)

/-- The dot in a key is the only one, so the two names can be read off. -/
theorem append_dot_inj {a b c d : String} (ha : '.' ∉ a.toList) (hb : '.' ∉ b.toList)
    (h : a ++ "." ++ b = c ++ "." ++ d) : a = c ∧ b = d := by
  have hlist : a.toList ++ '.' :: b.toList = c.toList ++ '.' :: d.toList := by
    simpa using congrArg String.toList h
  obtain ⟨hac, -, hbd⟩ := (List.append_cons_inj_of_notMem ha hb).mp hlist
  exact ⟨String.toList_inj.mp hac, String.toList_inj.mp hbd⟩

theorem ne_append_dot {a b c : String} (hc : '.' ∉ c.toList) : c ≠ a ++ "." ++ b := by
  rintro rfl
  simp at hc

end Text

/-! ### The variables that a program mentions -/

namespace Node

@[simp] theorem mentioned?_block (list : List Stmt) : mentioned? (.stmt (.block list)) = none :=
  rfl

@[simp] theorem mentioned?_func (name : String) (params : List Param) (body : Option (List Stmt))
    (result : Option Expr) : mentioned? (.stmt (.func name params body result)) = none :=
  rfl

end Node

namespace Stmt

theorem mentions_block (list : List Stmt) : (block list).mentions = list.flatMap mentions := by
  have hall (ss : List Stmt) : (visitedAll (fun _ ↦ true) ss).filterMap Node.mentioned? =
      ss.flatMap mentions := by
    induction ss with
    | nil => rfl
    | cons s ss ih => simp [visitedAll, mentions, ih]
  simp [mentions, visited, Node.withChildren, List.filterMap_cons, hall]

theorem flatMap_mentions_stmts_subset (f : Func) :
    ∀ x ∈ f.stmts.flatMap mentions, x ∈ f.toStmt.mentions := by
  obtain ⟨name, params, body, result⟩ := f
  cases body with
  | none => simp [Func.stmts]
  | some body =>
      intro x hx
      have hbody : x ∈ (block body).mentions := mentions_block body ▸ hx
      simp only [mentions, visited, Node.withChildren, Func.toStmt, if_true, List.filterMap_cons,
        Node.mentioned?_func, List.filterMap_append] at hbody ⊢
      exact List.mem_append_left _ hbody

mutual

theorem mem_mentions_of_mem_flat :
    ∀ {s : Stmt}, ∀ t ∈ s.flat, ∀ x ∈ t.mentions, x ∈ s.mentions
  | hole, t, ht, x, hx => List.mem_singleton.mp ht ▸ hx
  | decl .., t, ht, x, hx => List.mem_singleton.mp ht ▸ hx
  | assign .., t, ht, x, hx => List.mem_singleton.mp ht ▸ hx
  | sample .., t, ht, x, hx => List.mem_singleton.mp ht ▸ hx
  | block list, t, ht, x, hx => by
      rw [mentions_block]
      exact mem_mentions_of_mem_flatten t ht x hx
  | func .., t, ht, x, hx => List.mem_singleton.mp ht ▸ hx

theorem mem_mentions_of_mem_flatten :
    ∀ {ss : List Stmt}, ∀ t ∈ flatten ss, ∀ x ∈ t.mentions, x ∈ ss.flatMap mentions
  | [], t, ht, x, hx => by simp [flatten] at ht
  | s :: ss, t, ht, x, hx => by
      rw [List.flatMap_cons, List.mem_append]
      rcases List.mem_append.mp ht with hs | hss
      · exact Or.inl (mem_mentions_of_mem_flat t hs x hx)
      · exact Or.inr (mem_mentions_of_mem_flatten t hss x hx)

end

theorem mem_mentions_of_declName? {s : Stmt} {x : String} (h : s.declName? = some x) :
    x ∈ s.mentions := by
  cases s with
  | decl type name data init =>
      cases h
      simp [mentions, visited, Node.withChildren, Node.mentioned?]
  | _ => cases h

theorem mem_mentions_of_mem_declNames {ss : List Stmt} {x : String}
    (h : x ∈ declNames (flatten ss)) : x ∈ ss.flatMap mentions := by
  obtain ⟨t, ht, hx⟩ := List.mem_filterMap.mp h
  exact mem_mentions_of_mem_flatten t ht x (mem_mentions_of_declName? hx)

end Stmt

namespace Program

variable {p : Program}

theorem func_mem_names {f : Func} (hf : f ∈ p.funcs) : f.name ∈ p.names :=
  List.mem_append_left _ (List.mem_map_of_mem hf)

theorem var_mem_names {x : String} (hx : x ∈ Stmt.declNames (Stmt.flatten p.stmts)) :
    x ∈ p.names :=
  List.mem_append_right _ (List.mem_append_right _ (Stmt.mem_mentions_of_mem_declNames hx))

theorem local_mem_names {f : Func} (hf : f ∈ p.funcs) {x : String}
    (hx : x ∈ f.paramNames ++ Stmt.declNames (Stmt.flatten f.stmts)) : x ∈ p.names := by
  have hmem : x ∈ f.paramNames ++ f.toStmt.mentions := by
    rcases List.mem_append.mp hx with hparam | hlocal
    · exact List.mem_append_left _ hparam
    · exact List.mem_append_right _ (Stmt.flatMap_mentions_stmts_subset f x
        (Stmt.mem_mentions_of_mem_declNames hlocal))
  exact List.mem_append_right _ (List.mem_append_left _ (List.mem_flatMap.mpr ⟨f, hf, hmem⟩))

theorem NamedByIdentifiers.words (h : p.NamedByIdentifiers) : p.NamedByWords :=
  fun x hx ↦ (Text.isIdentifier_iff.mp (h x hx)).1

theorem mem_slots {s : Slot} : s ∈ p.slots ↔
    (∃ x ∈ Stmt.declNames (Stmt.flatten p.stmts), s = .var ⟨"", x⟩) ∨
      ∃ f ∈ p.funcs, s = .result f.name ∨
        ∃ x ∈ f.paramNames ++ Stmt.declNames (Stmt.flatten f.stmts), s = .var ⟨f.name, x⟩ := by
  simp only [slots, List.mem_append, List.mem_map, List.mem_flatMap, List.mem_cons, eq_comm]

theorem var_mem_slots {x : String} (h : x ∈ Stmt.declNames (Stmt.flatten p.stmts)) :
    .var ⟨"", x⟩ ∈ p.slots :=
  mem_slots.mpr (Or.inl ⟨x, h, rfl⟩)

theorem result_mem_slots {f : Func} (hf : f ∈ p.funcs) : .result f.name ∈ p.slots :=
  mem_slots.mpr (Or.inr ⟨f, hf, Or.inl rfl⟩)

theorem local_mem_slots {f : Func} (hf : f ∈ p.funcs) {x : String}
    (h : x ∈ f.paramNames ++ Stmt.declNames (Stmt.flatten f.stmts)) :
    .var ⟨f.name, x⟩ ∈ p.slots :=
  mem_slots.mpr (Or.inr ⟨f, hf, Or.inr ⟨x, h, rfl⟩⟩)

theorem NamedByWords.func_ne (h : p.NamedByWords) {f : Func} (hf : f ∈ p.funcs) : f.name ≠ "" :=
  (Text.isWord_iff.mp (h f.name (func_mem_names hf))).1

/-- What a key is made of when names are words. -/
theorem NamedByWords.slot_cases (h : p.NamedByWords) {s : Slot} (hs : s ∈ p.slots) :
    (∃ x ∈ p.names, s = .var ⟨"", x⟩ ∧ s.key = x) ∨
      ∃ fn ∈ p.names, ∃ x, s.key = fn ++ "." ++ x ∧ '.' ∉ x.toList ∧
        (s = .result fn ∧ x = "return" ∨ s = .var ⟨fn, x⟩ ∧ x ∈ p.names) := by
  rcases mem_slots.mp hs with ⟨x, hx, rfl⟩ | ⟨f, hf, rfl | ⟨x, hx, rfl⟩⟩
  · exact Or.inl ⟨x, var_mem_names hx, rfl, rfl⟩
  · refine Or.inr ⟨f.name, func_mem_names hf, "return", ?_, by decide, Or.inl ⟨rfl, rfl⟩⟩
    simp [Slot.key, VarId.resultKey, VarId.key, h.func_ne hf]
  · have hx' := local_mem_names hf hx
    refine Or.inr ⟨f.name, func_mem_names hf, x, ?_, Text.notMem_dot (h x hx'), Or.inr ⟨rfl, hx'⟩⟩
    simp [Slot.key, VarId.key, h.func_ne hf]

theorem NamedByWords.keysVisible (h : p.NamedByWords) : p.KeysVisible where
  visible s hs := by
    rcases h.slot_cases hs with ⟨x, hx, -, hkey⟩ | ⟨fn, hfn, x, hkey, -⟩
    · obtain ⟨c, hhead, hc⟩ := Text.exists_head?_of_isWord (h x hx)
      exact Draft.visible_of_head? (hkey ▸ hhead) hc
    · obtain ⟨c, hhead, hc⟩ := Text.exists_head?_of_isWord (h fn hfn)
      refine Draft.visible_of_head? ?_ hc
      rw [hkey, String.append_assoc, String.toList_append, List.head?_append, hhead, Option.some_or]
  func_ne _ hf := h.func_ne hf

theorem NamedByIdentifiers.notMem_return (h : p.NamedByIdentifiers) : "return" ∉ p.names :=
  fun hmem ↦ (Text.isIdentifier_iff.mp (h _ hmem)).2 rfl

theorem NamedByIdentifiers.apart (h : p.NamedByIdentifiers) : p.Apart where
  toKeysVisible := h.words.keysVisible
  injective s hs t ht hkey := by
    have hdot {x : String} (hx : x ∈ p.names) := Text.notMem_dot (h.words x hx)
    rcases h.words.slot_cases hs with ⟨x, hx, rfl, hkx⟩ | ⟨fn, hfn, x, hkx, hx, hs'⟩ <;>
      rcases h.words.slot_cases ht with ⟨y, hy, rfl, hky⟩ | ⟨gn, hgn, y, hky, hy, ht'⟩
    · exact congrArg (fun z ↦ Slot.var ⟨"", z⟩) (hkx.symm.trans (hkey.trans hky))
    · exact absurd (hkx.symm.trans (hkey.trans hky)) (Text.ne_append_dot (hdot hx))
    · exact absurd (hky.symm.trans (hkey.symm.trans hkx)) (Text.ne_append_dot (hdot hy))
    · obtain ⟨rfl, rfl⟩ := Text.append_dot_inj (hdot hfn) hx (hkx.symm.trans (hkey.trans hky))
      rcases hs' with ⟨rfl, rfl⟩ | ⟨rfl, hmem⟩ <;> rcases ht' with ⟨rfl, heq⟩ | ⟨rfl, hmem'⟩
      · rfl
      · exact absurd hmem' h.notMem_return
      · exact absurd (heq ▸ hmem) h.notMem_return
      · rfl

end Program

end Stratify
