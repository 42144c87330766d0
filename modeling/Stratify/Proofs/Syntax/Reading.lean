import Stratify.Proofs.Syntax.Pieces

/-!
# Reading expressions back

Parentheses tell where a binary operand begins and ends. Nothing tells how far a unary operator
reaches, nor where one unary operator ends and the next one begins. A reader takes it that unary
operators stand in front of the smallest operand, and that they are as short as possible. The
expressions that are built this way can be read back from their texts, whatever they are made of;
other ones may share their text with a different expression.
-/

namespace Stratify

open Text (Piece)

namespace Op

/-- The text is also that of two operators, one after the other. -/
def isCompound (op : Op) : Bool :=
  all.any fun a ↦ all.any fun b ↦ op.text == a.text ++ b.text

def ofChars? (cs : List Char) : Option Op :=
  ofText? (.ofList cs)

theorem ofChars?_text (op : Op) : ofChars? op.text.toList = some op := by
  cases op <;> decide

/-- Apart from compound ones, an operator has two characters only if it ends with an equals sign. -/
theorem text_of_not_isCompound (op : Op) (h : op.isCompound = false) :
    (∃ c, c ≠ '=' ∧ op.text.toList = [c]) ∨ ∃ d, op.text.toList = [d, '='] := by
  cases op <;> first
    | exact Or.inl ⟨_, by decide, rfl⟩
    | exact Or.inr ⟨_, rfl⟩
    | exact absurd h (by decide)

end Op

namespace Expr

def isUnary : Expr → Bool
  | unary .. => true
  | _ => false

mutual

/-- Unary operators stand in front of the smallest operand, and are not compound. -/
def tight : Expr → Bool
  | hole => true
  | lit .. => true
  | var _ => true
  | unary op x => !op.isCompound && !x.isBinary && x.tight
  | binary _ x y => x.tight && y.tight
  | index x indices => !x.isUnary && x.tight && tightAll indices
  | call _ args => tightAll args

def tightAll : List Expr → Bool
  | [] => true
  | e :: es => e.tight && tightAll es

end

/-- Puts unary operators in front of an expression. Their characters come from the last one to the
first: an equals sign ends an operator of two characters, and any other one is an operator. -/
def signed : List Char → Expr → Option Expr
  | [], x => some x
  | c :: cs, x =>
    if c = '=' then
      match cs with
      | [] => none
      | d :: cs => (Op.ofChars? [d, c]).bind fun op ↦ signed cs (unary op x)
    else (Op.ofChars? [c]).bind fun op ↦ signed cs (unary op x)

/-- A name or a number. -/
def ofWord (w : List Char) : Expr :=
  if w.head?.any Char.isDigit then lit .int (.ofList w) else var (.ofList w)

/-- What the unary operators in front of an expression are applied to. -/
def core : Expr → Expr
  | unary _ x => x.core
  | e => e

/-- The characters of the unary operators in front of an expression, from the last one to the
first. -/
def signs : Expr → List Char
  | unary op x => x.signs ++ op.text.toList.reverse
  | _ => []

end Expr

namespace Reading

/-- What has been read of an expression. -/
structure Phrase where
  /-- The left operand and, once it has been read, the operator after it. -/
  left : Option (Expr × Option Op)
  /-- Characters of operators, the last one first. -/
  marks : List Char
  /-- The operand that comes after these characters. -/
  atom : Option Expr

inductive Bracket
  | group
  | call (fn : String)
  | index (x : Expr)

/-- What stands before a bracket that is still open, and the items read since. -/
structure Frame where
  bracket : Bracket
  outer : Phrase
  items : List Expr

structure State where
  frames : List Frame
  phrase : Phrase

namespace Phrase

def empty : Phrase :=
  ⟨none, [], none⟩

def expr? : Phrase → Option Expr
  | ⟨none, ms, some x⟩ => x.signed ms
  | ⟨some (x, some op), ms, some y⟩ => (y.signed ms).map (.binary op x)
  | _ => none

/-- A blank ends the left operand, or its operator, or stands behind a comma. -/
def blank : Phrase → Option Phrase
  | ⟨none, ms, some x⟩ => (x.signed ms).map fun x ↦ ⟨some (x, none), [], none⟩
  | ⟨some (x, none), ms, none⟩ =>
    (Op.ofChars? ms.reverse).map fun op ↦ ⟨some (x, some op), [], none⟩
  | ⟨none, [], none⟩ => some empty
  | _ => none

end Phrase

namespace Bracket

def closing : Bracket → Char
  | index _ => ']'
  | _ => ')'

def expr? : Bracket → List Expr → Option Expr
  | group, [e] => some e
  | group, _ => none
  | call fn, es => some (.call fn es)
  | index x, es => some (.index x es)

end Bracket

namespace Frame

/-- What comes after the last comma is an item too, unless there is nothing in the brackets. -/
def allItems (f : Frame) (ph : Phrase) : Option (List Expr) :=
  if f.items.isEmpty && ph.atom.isNone then some [] else ph.expr?.map (f.items ++ [·])

end Frame

namespace State

def enter (s : State) (b : Bracket) : State :=
  ⟨⟨b, { s.phrase with atom := none }, []⟩ :: s.frames, .empty⟩

def leave (c : Char) : State → Option State
  | ⟨[], _⟩ => none
  | ⟨f :: fs, ph⟩ =>
    if f.bracket.closing = c then
      ((f.allItems ph).bind f.bracket.expr?).map fun e ↦ ⟨fs, { f.outer with atom := some e }⟩
    else none

def next : State → Option State
  | ⟨[], _⟩ => none
  | ⟨f :: fs, ph⟩ => ph.expr?.map fun e ↦ ⟨{ f with items := f.items ++ [e] } :: fs, .empty⟩

def mark (s : State) : Char → Option State
  | '(' =>
    match s.phrase.atom with
    | none => some (s.enter .group)
    | some (.var fn) => some (s.enter (.call fn))
    | some _ => none
  | '[' => s.phrase.atom.map fun x ↦ s.enter (.index x)
  | ')' => s.leave ')'
  | ']' => s.leave ']'
  | ',' => s.next
  | ' ' => s.phrase.blank.map fun ph ↦ ⟨s.frames, ph⟩
  | c =>
    match s.phrase with
    | ⟨left, ms, none⟩ => some ⟨s.frames, ⟨left, c :: ms, none⟩⟩
    | _ => none

def step (s : State) : Piece → Option State
  | .word w =>
    match s.phrase with
    | ⟨left, ms, none⟩ => some ⟨s.frames, ⟨left, ms, some (.ofWord w)⟩⟩
    | _ => none
  | .mark c => s.mark c

def run (s : State) (ps : List Piece) : Option State :=
  ps.foldlM step s

theorem run_append (s : State) (ps qs : List Piece) :
    s.run (ps ++ qs) = (s.run ps).bind fun s ↦ s.run qs :=
  List.foldlM_append

theorem run_mark (s : State) (c : Char) : s.run [.mark c] = s.mark c := by
  unfold run
  simp [step]

theorem run_word (fs : List Frame) (left : Option (Expr × Option Op)) (ms w : List Char) :
    run ⟨fs, ⟨left, ms, none⟩⟩ [.word w] = some ⟨fs, ⟨left, ms, some (.ofWord w)⟩⟩ :=
  rfl

theorem run_marks (fs : List Frame) (left : Option (Expr × Option Op)) (ms : List Char) (op : Op) :
    run ⟨fs, ⟨left, ms, none⟩⟩ op.marks =
      some ⟨fs, ⟨left, op.text.toList.reverse ++ ms, none⟩⟩ := by
  cases op <;> rfl

theorem mark_blank (s : State) :
    s.mark ' ' = s.phrase.blank.map fun ph ↦ ⟨s.frames, ph⟩ :=
  rfl

theorem mark_closing (s : State) (b : Bracket) : s.mark b.closing = s.leave b.closing := by
  cases b <;> rfl

end State

/-- The expression that is read back. -/
def expr? (t : String) : Option Expr :=
  match State.run ⟨[], .empty⟩ (Text.cut t.toList) with
  | some ⟨[], ph⟩ => ph.expr?
  | _ => none

end Reading

/-! ### Unary operators -/

namespace Expr

theorem signed_text {op : Op} (h : op.isCompound = false) (cs : List Char) (x : Expr) :
    signed (op.text.toList.reverse ++ cs) x = signed cs (unary op x) := by
  have hop := op.ofChars?_text
  rcases op.text_of_not_isCompound h with ⟨c, hc, htext⟩ | ⟨d, htext⟩
  · rw [htext] at hop ⊢
    rw [List.reverse_singleton, List.singleton_append, signed.eq_def]
    dsimp only
    rw [if_neg hc, hop, Option.bind_some]
  · rw [htext] at hop ⊢
    have hreverse : [d, '='].reverse ++ cs = '=' :: d :: cs := rfl
    rw [hreverse, signed, if_pos rfl, hop, Option.bind_some]

theorem signed_signs : ∀ {e : Expr}, e.tight = true → ∀ cs, signed (e.signs ++ cs) e.core =
    signed cs e
  | hole, _, _ => rfl
  | lit .., _, _ => rfl
  | var _, _, _ => rfl
  | unary op x, h, cs => by
      simp only [tight, Bool.and_eq_true, Bool.not_eq_true'] at h
      rw [signs, core, List.append_assoc, signed_signs h.2, signed_text h.1.1]
  | binary .., _, _ => rfl
  | index .., _, _ => rfl
  | call .., _, _ => rfl

theorem ofWord_of_isName {s : String} (h : isName s = true) : ofWord s.toList = var s := by
  unfold isName at h
  split at h
  · cases h
  · next c cs hs =>
      simp only [Bool.and_eq_true, Bool.not_eq_true'] at h
      rw [ofWord, hs, List.head?_cons, Option.any_some, h.1, if_neg Bool.false_ne_true, ← hs,
        String.ofList_toList]

theorem ofWord_of_isNumber {s : String} (h : isNumber s = true) : ofWord s.toList = lit .int s := by
  simp only [isNumber, Bool.and_eq_true, List.all_eq_true, Bool.not_eq_true',
    List.isEmpty_eq_false_iff] at h
  obtain ⟨c, cs, hs⟩ := List.exists_cons_of_ne_nil h.1
  have hc : c.isDigit = true := h.2 c (hs ▸ List.mem_cons_self ..)
  rw [ofWord, hs, List.head?_cons, Option.any_some, hc, if_pos rfl, ← hs, String.ofList_toList]

theorem signs_of_not_isUnary {e : Expr} (h : e.isUnary = false) : e.signs = [] := by
  cases e with
  | unary op x => cases h
  | _ => rfl

theorem core_of_not_isUnary {e : Expr} (h : e.isUnary = false) : e.core = e := by
  cases e with
  | unary op x => cases h
  | _ => rfl

end Expr

/-! ### Expressions are read back -/

namespace Reading

open State

/-- Read on its own, the expression is found again. -/
def Whole (e : Expr) : Prop :=
  ∃ ph : Phrase, ph.expr? = some e ∧ ∀ fs, run ⟨fs, .empty⟩ e.pieces = some ⟨fs, ph⟩

/-- Read as an operand, the expression is known up to the unary operators in front of it. -/
def Operand (e : Expr) : Prop :=
  ∀ fs left ms, run ⟨fs, ⟨left, ms, none⟩⟩ (e.enclose e.pieces) =
    some ⟨fs, ⟨left, e.signs ++ ms, some e.core⟩⟩

variable {e x y : Expr}

theorem isNone_atom_of_expr? {ph : Phrase} (h : ph.expr? = some e) : ph.atom.isNone = false := by
  obtain ⟨left, ms, _ | x⟩ := ph
  · obtain _ | ⟨x, _ | op⟩ := left <;> cases h
  · rfl

theorem enclose_of_not_isBinary (h : e.isBinary = false) (ps : List Piece) :
    e.enclose ps = ps := by
  rw [Expr.enclose, h, if_neg Bool.false_ne_true]

theorem allItems_of_expr? {ph : Phrase} (h : ph.expr? = some e) (f : Frame) :
    f.allItems ph = some (f.items ++ [e]) := by
  rw [Frame.allItems, isNone_atom_of_expr? h, Bool.and_false, if_neg Bool.false_ne_true, h,
    Option.map_some]

/-- The items of a list are collected up to the closing bracket. -/
theorem run_items {es : List Expr} (hes : ∀ e ∈ es, Whole e) (hne : es ≠ []) (fs : List Frame)
    (b : Bracket) (outer : Phrase) (items : List Expr) :
    run ⟨⟨b, outer, items⟩ :: fs, .empty⟩
        (Expr.comma.intercalate (es.map Expr.pieces) ++ [.mark b.closing]) =
      (b.expr? (items ++ es)).map fun e ↦ ⟨fs, { outer with atom := some e }⟩ := by
  induction es generalizing items with
  | nil => exact absurd rfl hne
  | cons e es ih =>
      obtain ⟨⟨ph, hph, hread⟩, hes⟩ := List.forall_mem_cons.mp hes
      cases es with
      | nil =>
          rw [List.map_singleton, List.intercalate_singleton, run_append, hread, Option.bind_some,
            run_mark, mark_closing, leave, if_pos rfl, allItems_of_expr? hph, Option.bind_some]
      | cons e' es =>
          have hcomma : run ⟨⟨b, outer, items⟩ :: fs, ph⟩ Expr.comma =
              some ⟨⟨b, outer, items ++ [e]⟩ :: fs, .empty⟩ := by
            change (Option.map _ ph.expr?).bind _ = _
            rw [hph]
            rfl
          rw [List.map_cons, List.map_cons, List.intercalate_cons_cons, List.append_assoc,
            List.append_assoc, run_append, hread, Option.bind_some, run_append, hcomma,
            Option.bind_some]
          have hrest := ih hes (List.cons_ne_nil e' es) (items ++ [e])
          rwa [List.map_cons, List.append_assoc, List.singleton_append] at hrest

theorem run_list {es : List Expr} (hes : ∀ e ∈ es, Whole e) (fs : List Frame) (b : Bracket)
    (outer : Phrase) :
    run ⟨⟨b, outer, []⟩ :: fs, .empty⟩
        (Expr.comma.intercalate (Expr.piecesAll es) ++ [.mark b.closing]) =
      (b.expr? es).map fun e ↦ ⟨fs, { outer with atom := some e }⟩ := by
  rw [Expr.piecesAll_eq_map]
  cases es with
  | nil =>
      rw [List.map_nil, List.intercalate_nil, List.nil_append, run_mark, mark_closing, leave,
        if_pos rfl]
      rfl
  | cons e es => exact run_items hes (List.cons_ne_nil e es) fs b outer []

theorem operand_word {w : List Char} (hpieces : e.pieces = [.word w]) (hword : Expr.ofWord w = e)
    (hbinary : e.isBinary = false) (hunary : e.isUnary = false) : Operand e := by
  intro fs left ms
  rw [enclose_of_not_isBinary hbinary, hpieces, Expr.signs_of_not_isUnary hunary,
    Expr.core_of_not_isUnary hunary, run_word, hword, List.nil_append]

theorem operand_unary {op : Op} (hx : Operand x) (hbinary : x.isBinary = false) :
    Operand (.unary op x) := by
  intro fs left ms
  rw [enclose_of_not_isBinary rfl, Expr.pieces, run_append, run_marks, Option.bind_some]
  have hread := hx fs left (op.text.toList.reverse ++ ms)
  rwa [enclose_of_not_isBinary hbinary, ← List.append_assoc] at hread

theorem whole_binary {op : Op} (hx : Operand x) (hy : Operand y) (htx : x.tight = true)
    (hty : y.tight = true) : Whole (.binary op x y) := by
  refine ⟨⟨some (x, some op), y.signs ++ [], some y.core⟩, ?_, fun fs ↦ ?_⟩
  · rw [Phrase.expr?, Expr.signed_signs hty]
    rfl
  -- A blank ends the left operand, and another one the operator.
  · have hleft : run ⟨fs, ⟨none, x.signs ++ [], some x.core⟩⟩ [.mark ' '] =
        some ⟨fs, ⟨some (x, none), [], none⟩⟩ := by
      rw [run_mark, mark_blank, Phrase.blank, Expr.signed_signs htx]
      rfl
    have hop : run ⟨fs, ⟨some (x, none), op.text.toList.reverse ++ [], none⟩⟩ [.mark ' '] =
        some ⟨fs, ⟨some (x, some op), [], none⟩⟩ := by
      rw [run_mark, mark_blank, Phrase.blank, List.append_nil, List.reverse_reverse,
        op.ofChars?_text]
      rfl
    simp only [Expr.pieces, run_append, Phrase.empty, hx fs, hleft, run_marks, hop, hy fs,
      Option.bind_some]

theorem Whole.operand_binary {op : Op} (h : Whole (.binary op x y)) :
    Operand (.binary op x y) := by
  intro fs left ms
  have hread := run_items (List.forall_mem_singleton.mpr h) (List.cons_ne_nil _ _) fs .group
    ⟨left, ms, none⟩ []
  rw [List.map_singleton, List.intercalate_singleton] at hread
  exact hread

theorem operand_index {is : List Expr} (hx : Operand x) (hunary : x.isUnary = false)
    (his : ∀ i ∈ is, Whole i) : Operand (.index x is) := by
  intro fs left ms
  have hread := hx fs left ms
  rw [Expr.signs_of_not_isUnary hunary, Expr.core_of_not_isUnary hunary] at hread
  rw [enclose_of_not_isBinary rfl, Expr.pieces, List.append_assoc, List.append_assoc, run_append,
    hread, Option.bind_some, run_append]
  exact run_list his fs (.index x) ⟨left, ms, none⟩

theorem operand_call {fn : String} {args : List Expr} (hfn : Expr.isName fn = true)
    (hargs : ∀ a ∈ args, Whole a) : Operand (.call fn args) := by
  intro fs left ms
  have hopen : run ⟨fs, ⟨left, ms, none⟩⟩ ([.word fn.toList] ++ [.mark '(']) =
      some ⟨⟨.call fn, ⟨left, ms, none⟩, []⟩ :: fs, .empty⟩ := by
    rw [run_append, run_word, Option.bind_some, run_mark, Expr.ofWord_of_isName hfn]
    rfl
  rw [enclose_of_not_isBinary rfl, Expr.pieces, List.append_assoc, run_append, hopen,
    Option.bind_some]
  exact run_list hargs fs (.call fn) ⟨left, ms, none⟩

/-- An expression that is found again, on its own and as an operand. -/
structure Readable (e : Expr) : Prop where
  whole : Whole e
  operand : Operand e

theorem Operand.readable (h : Operand e) (hbinary : e.isBinary = false) (htight : e.tight = true) :
    Readable e where
  whole := by
    refine ⟨⟨none, e.signs ++ [], some e.core⟩, Expr.signed_signs htight [], fun fs ↦ ?_⟩
    have hread := h fs none []
    rwa [enclose_of_not_isBinary hbinary] at hread
  operand := h

mutual

theorem readable_of_tight : ∀ {e : Expr}, e.plain = true → e.tight = true → Readable e
  | .hole, h, _ => by cases h
  | .lit kind value, h, ht => by
      simp only [Expr.plain, Bool.and_eq_true, decide_eq_true_iff] at h
      obtain ⟨rfl, h⟩ := h
      exact (operand_word rfl (Expr.ofWord_of_isNumber h) rfl rfl).readable rfl ht
  | .var name, h, ht => (operand_word rfl (Expr.ofWord_of_isName h) rfl rfl).readable rfl ht
  | .unary op x, h, ht => by
      have hparts := ht
      simp only [Expr.tight, Bool.and_eq_true, Bool.not_eq_true'] at hparts
      have hx : Readable x := readable_of_tight h hparts.2
      exact (operand_unary hx.operand hparts.1.2).readable rfl ht
  | .binary op x y, h, ht => by
      simp only [Expr.plain, Bool.and_eq_true] at h
      simp only [Expr.tight, Bool.and_eq_true] at ht
      have hwhole : Whole (.binary op x y) := whole_binary (readable_of_tight h.1 ht.1).operand
        (readable_of_tight h.2 ht.2).operand ht.1 ht.2
      exact ⟨hwhole, hwhole.operand_binary⟩
  | .index x is, h, ht => by
      have hparts := ht
      simp only [Expr.plain, Bool.and_eq_true] at h
      simp only [Expr.tight, Bool.and_eq_true, Bool.not_eq_true'] at hparts
      have hx : Readable x := readable_of_tight h.1 hparts.1.2
      have his := readable_of_tightAll h.2 hparts.2
      exact (operand_index hx.operand hparts.1.1 fun i hi ↦ (his i hi).whole).readable rfl ht
  | .call fn args, h, ht => by
      simp only [Expr.plain, Bool.and_eq_true] at h
      have hargs := readable_of_tightAll h.2 ht
      exact (operand_call h.1 fun a ha ↦ (hargs a ha).whole).readable rfl ht

theorem readable_of_tightAll : ∀ {es : List Expr}, Expr.plainAll es = true →
    Expr.tightAll es = true → ∀ e ∈ es, Readable e
  | [], _, _ => by simp
  | e :: es, h, ht => by
      simp only [Expr.plainAll, Bool.and_eq_true] at h
      simp only [Expr.tightAll, Bool.and_eq_true] at ht
      exact List.forall_mem_cons.mpr ⟨readable_of_tight h.1 ht.1, readable_of_tightAll h.2 ht.2⟩

end

theorem expr?_text {t : String} (h : e.plain = true) (htight : e.tight = true)
    (ht : e.text = some t) : expr? t = some e := by
  obtain ⟨ph, hph, hread⟩ := (readable_of_tight h htight).whole
  rw [expr?, Expr.cut_text h ht, hread]
  exact hph

end Reading

namespace Expr

/-- Two expressions have the same text exactly if they have the same words and marks in the same
order. If in both of them unary operators stand in front of the smallest operand and are not
compound, then two expressions with the same text are equal. -/
theorem text_determines (e e' : Expr) (h : e.plain = true) (h' : e'.plain = true) :
    (e.text = e'.text ↔ e.pieces = e'.pieces) ∧
      (e.tight = true → e'.tight = true → e.text = e'.text → e = e') := by
  refine ⟨text_eq_text_iff h h', fun htight htight' heq ↦ ?_⟩
  have htext := text_eq_spell h
  have hread := Reading.expr?_text h htight htext
  rw [Reading.expr?_text h' htight' (heq ▸ htext)] at hread
  exact (Option.some.inj hread).symm

/-- Every form of expression, with unary operators in the places where they may stand. -/
def everyForm : Expr :=
  .index
    (.binary .add (.unary .sub (.var "x"))
      (.index (.call "f" [.lit .int "2", .unary .not (.unary .eq (.var "y"))]) [.var "i"]))
    [.lit .int "3", .unary .bitAnd (.unary .bitAnd (.call "g" []))]

theorem text_determines_everyForm :
    everyForm.text = some "(-x + f(2, !==y)[i])[3, &&g()]" ∧
      ∀ e, e.plain = true → e.tight = true → e.text = some "(-x + f(2, !==y)[i])[3, &&g()]" →
        e = everyForm := by
  have htext : everyForm.text = some "(-x + f(2, !==y)[i])[3, &&g()]" := by decide
  refine ⟨htext, fun e h htight he ↦ ?_⟩
  exact (text_determines e everyForm h (by decide)).2 htight (by decide) (he.trans htext.symm)

/-! ### Texts that expressions share -/

/-- Nothing tells whether a unary operator applies to a binary expression or to its left operand. -/
theorem text_unary_binary (op op' : Op) {x : Expr} (hx : x.isBinary = false) (y : Expr) :
    (unary op (binary op' x y)).text = (binary op' (unary op x) y).text := by
  have hunary : (unary op x).isBinary = false := rfl
  simp only [text, wrap, hx, hunary, Bool.false_eq_true, if_false]
  cases x.text <;> cases y.text <;> simp [String.append_assoc]

/-- Nothing tells whether a unary operator is applied before or after an index. -/
theorem text_index_unary (op : Op) {x : Expr} (hx : x.isBinary = false) (is : List Expr) :
    (index (unary op x) is).text = (unary op (index x is)).text := by
  have hunary : (unary op x).isBinary = false := rfl
  simp only [text, wrap, hx, hunary, Bool.false_eq_true, if_false]
  cases x.text <;> cases texts is <;> simp [String.append_assoc]

/-- Nothing sets two unary operators apart. -/
theorem text_unary_unary {op a b : Op} (h : op.text = a.text ++ b.text) (x : Expr) :
    (unary op x).text = (unary a (unary b x)).text := by
  rw [text, text, text, h]
  cases x.text <;> simp [String.append_assoc]

/-- Different expressions with the same text, in spite of plain names and literals. -/
def Homonyms (e e' : Expr) : Prop :=
  e.plain = true ∧ e'.plain = true ∧ e.text = e'.text ∧ e ≠ e'

/-- A unary operator that reaches further than the smallest operand, in two ways, and one that is
compound. -/
theorem homonyms_unary :
    Homonyms (unary .sub (binary .add (var "x") (var "y")))
        (binary .add (unary .sub (var "x")) (var "y")) ∧
      Homonyms (index (unary .sub (var "x")) [var "i"]) (unary .sub (index (var "x") [var "i"])) ∧
      Homonyms (unary .both (var "x")) (unary .bitAnd (unary .bitAnd (var "x"))) := by
  refine ⟨⟨by decide, by decide, ?_, nofun⟩, ⟨by decide, by decide, ?_, nofun⟩,
    ⟨by decide, by decide, ?_, nofun⟩⟩
  · exact text_unary_binary .sub .add rfl (var "y")
  · exact text_index_unary .sub rfl [var "i"]
  · exact text_unary_unary (by decide) (var "x")

end Expr

end Stratify
