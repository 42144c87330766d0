import Mathlib.Data.List.Chain
import Stratify.Syntax.Printer

/-!
# Words and marks

The text of an expression consists of words, which are names and numbers, and of marks between them:
blanks, brackets, commas and the characters of operators. No two words stand side by side, so the
text can be cut into its words and marks again. Two expressions have the same text exactly if they
have the same words and marks in the same order.
-/

namespace Stratify

namespace Text

def markChars : List Char :=
  [' ', '(', ')', '[', ']', ',', '+', '-', '*', '/', '%', '^', '!', '=', '<', '>', '&', '|']

def isMark (c : Char) : Bool :=
  markChars.contains c

inductive Piece
  | word (w : List Char)
  | mark (c : Char)
deriving DecidableEq, Repr

namespace Piece

def chars : Piece → List Char
  | word w => w
  | mark c => [c]

/-- A word is not empty, and has no marks in it. -/
def Proper : Piece → Prop
  | word w => w ≠ [] ∧ ∀ c ∈ w, isMark c = false
  | mark c => isMark c = true

/-- Two words may not be neighbours. -/
def Apart : Piece → Piece → Prop
  | word _, word _ => False
  | _, _ => True

end Piece

/-- The text that consists of some pieces. -/
def spell (ps : List Piece) : String :=
  .ofList (ps.flatMap Piece.chars)

theorem spell_append (ps qs : List Piece) : spell (ps ++ qs) = spell ps ++ spell qs := by
  rw [spell, List.flatMap_append, String.ofList_append]
  rfl

theorem spell_intercalate (sep : List Piece) (pss : List (List Piece)) :
    spell (sep.intercalate pss) = (spell sep).intercalate (pss.map spell) := by
  induction pss with
  | nil => rfl
  | cons ps pss ih =>
      cases pss with
      | nil => simp
      | cons qs pss =>
          rw [List.intercalate_cons_cons, spell_append, spell_append, ih, List.map_cons,
            List.map_cons, List.map_cons, String.intercalate_cons_cons]

/-- Cuts a text at its marks. -/
def cut : List Char → List Piece
  | [] => []
  | c :: cs =>
    if isMark c then .mark c :: cut cs
    else match cut cs with
      | .word w :: ps => .word (c :: w) :: ps
      | ps => .word [c] :: ps

/-- A word ends where no other word begins. -/
theorem cut_word_append {w cs : List Char} (hw : (Piece.word w).Proper)
    (hcs : ∀ v ps, cut cs ≠ .word v :: ps) : cut (w ++ cs) = .word w :: cut cs := by
  induction w with
  | nil => exact absurd rfl hw.1
  | cons c w ih =>
      obtain ⟨hc, hw⟩ := List.forall_mem_cons.mp hw.2
      rw [List.cons_append, cut, if_neg (by rw [hc]; exact Bool.false_ne_true)]
      cases w with
      | nil =>
          rw [List.nil_append]
          split
          · next v ps hcut => exact absurd hcut (hcs v ps)
          · rfl
      | cons d w => rw [ih ⟨List.cons_ne_nil d w, hw⟩]

/-- Pieces as they come from cutting a text. -/
structure WellCut (ps : List Piece) : Prop where
  proper : ∀ p ∈ ps, p.Proper
  apart : ps.IsChain Piece.Apart

theorem cut_spell {ps : List Piece} (h : WellCut ps) : cut (spell ps).toList = ps := by
  rw [spell, String.toList_ofList]
  obtain ⟨hproper, hapart⟩ := h
  induction ps with
  | nil => rfl
  | cons p ps ih =>
      obtain ⟨hp, hps⟩ := List.forall_mem_cons.mp hproper
      obtain ⟨hhead, htail⟩ := List.isChain_cons.mp hapart
      have hrest := ih hps htail
      rw [List.flatMap_cons]
      cases p with
      | word w =>
          have hend : ∀ v qs, cut (ps.flatMap Piece.chars) ≠ .word v :: qs := by
            rintro v qs heq
            rw [hrest] at heq
            exact hhead (.word v) (by rw [heq]; rfl)
          rw [Piece.chars, cut_word_append hp hend, hrest]
      | mark c =>
          have hc : isMark c = true := hp
          rw [Piece.chars, List.singleton_append, cut, if_pos hc, hrest]

namespace WellCut

variable {ps qs : List Piece}

theorem nil : WellCut [] :=
  ⟨by simp, .nil⟩

theorem word {w : List Char} (hw : (Piece.word w).Proper) : WellCut [.word w] :=
  ⟨by simpa using hw, .singleton _⟩

/-- Whatever stands on its two sides, a mark keeps it apart. -/
theorem append_mark (hps : WellCut ps) {c : Char} (hc : isMark c = true) (hqs : WellCut qs) :
    WellCut (ps ++ .mark c :: qs) := by
  constructor
  · exact List.forall_mem_append.mpr ⟨hps.proper, List.forall_mem_cons.mpr ⟨hc, hqs.proper⟩⟩
  · refine List.isChain_append.mpr ⟨hps.apart, List.isChain_cons.mpr ⟨?_, hqs.apart⟩, ?_⟩
    · exact fun _ _ ↦ trivial
    · intro p _ q hq
      obtain rfl : Piece.mark c = q := Option.some.inj hq
      cases p <;> trivial

theorem cons_mark {c : Char} (hc : isMark c = true) (hps : WellCut ps) :
    WellCut (.mark c :: ps) :=
  nil.append_mark hc hps

theorem marks_append {cs : List Char} (hcs : ∀ c ∈ cs, isMark c = true) (hps : WellCut ps) :
    WellCut (cs.map .mark ++ ps) := by
  induction cs with
  | nil => exact hps
  | cons c cs ih =>
      obtain ⟨hc, hcs⟩ := List.forall_mem_cons.mp hcs
      exact (ih hcs).cons_mark hc

end WellCut

end Text

/-! ### Expressions as pieces -/

open Text (Piece WellCut spell)

namespace Op

def marks (op : Op) : List Piece :=
  op.text.toList.map .mark

theorem spell_marks (op : Op) : spell op.marks = op.text := by
  cases op <;> rfl

theorem isMark_of_mem_text (op : Op) : ∀ c ∈ op.text.toList, Text.isMark c = true := by
  rw [← List.all_eq_true]
  cases op <;> rfl

end Op

namespace Expr

/-- Parentheses stand around binary operands. -/
def enclose (e : Expr) (ps : List Piece) : List Piece :=
  if e.isBinary then [.mark '('] ++ ps ++ [.mark ')'] else ps

/-- How the items of a list are set apart. -/
def comma : List Piece :=
  [.mark ',', .mark ' ']

mutual

def pieces : Expr → List Piece
  | hole => []
  | lit _ value => [.word value.toList]
  | var name => [.word name.toList]
  | unary op x => op.marks ++ x.pieces
  | binary op x y =>
    x.enclose x.pieces ++ [.mark ' '] ++ op.marks ++ [.mark ' '] ++ y.enclose y.pieces
  | index x indices =>
    x.enclose x.pieces ++ [.mark '['] ++ comma.intercalate (piecesAll indices) ++ [.mark ']']
  | call fn args =>
    [.word fn.toList] ++ [.mark '('] ++ comma.intercalate (piecesAll args) ++ [.mark ')']

def piecesAll : List Expr → List (List Piece)
  | [] => []
  | e :: es => e.pieces :: piecesAll es

end

theorem piecesAll_eq_map (es : List Expr) : piecesAll es = es.map pieces := by
  induction es with
  | nil => rfl
  | cons e es ih => rw [piecesAll, ih, List.map_cons]

/-- An identifier, of whatever script: it does not start like a number. -/
def isName (s : String) : Bool :=
  match s.toList with
  | [] => false
  | c :: cs => !c.isDigit && (c :: cs).all fun d ↦ !Text.isMark d

def isNumber (s : String) : Bool :=
  !s.toList.isEmpty && s.toList.all Char.isDigit

mutual

/-- All names are identifiers, all literals are decimal integers, and nothing is missing. -/
def plain : Expr → Bool
  | hole => false
  | lit kind value => decide (kind = .int) && isNumber value
  | var name => isName name
  | unary _ x => x.plain
  | binary _ x y => x.plain && y.plain
  | index x indices => x.plain && plainAll indices
  | call fn args => isName fn && plainAll args

def plainAll : List Expr → Bool
  | [] => true
  | e :: es => e.plain && plainAll es

end

theorem proper_of_isName {s : String} (h : isName s = true) : (Piece.word s.toList).Proper := by
  unfold isName at h
  split at h
  · cases h
  · next c cs hs =>
      simp only [Bool.and_eq_true, List.all_eq_true, Bool.not_eq_true'] at h
      rw [hs]
      exact ⟨List.cons_ne_nil c cs, h.2⟩

theorem isMark_of_isDigit {c : Char} (hc : c.isDigit = true) : Text.isMark c = false := by
  have hmarks : (Text.markChars.all fun d ↦ !d.isDigit) = true := rfl
  refine Bool.eq_false_iff.mpr fun hmark ↦ ?_
  have hdigit := List.all_eq_true.mp hmarks c (List.contains_iff_mem.mp hmark)
  rw [hc] at hdigit
  cases hdigit

theorem proper_of_isNumber {s : String} (h : isNumber s = true) :
    (Piece.word s.toList).Proper := by
  simp only [isNumber, Bool.and_eq_true, List.all_eq_true, Bool.not_eq_true',
    List.isEmpty_eq_false_iff] at h
  exact ⟨h.1, fun c hc ↦ isMark_of_isDigit (h.2 c hc)⟩

/-! ### The text is that of the pieces -/

theorem wrap_spell (e : Expr) (ps : List Piece) : e.wrap (spell ps) = spell (e.enclose ps) := by
  unfold wrap enclose
  split
  · rw [Text.spell_append, Text.spell_append]
    rfl
  · rfl

theorem spell_comma (pss : List (List Piece)) :
    spell (comma.intercalate pss) = ", ".intercalate (pss.map spell) :=
  Text.spell_intercalate comma pss

mutual

theorem text_eq_spell : ∀ {e : Expr}, e.plain = true → e.text = some (spell e.pieces)
  | hole, h => by cases h
  | lit kind value, h => by
      simp only [plain, Bool.and_eq_true, decide_eq_true_iff] at h
      obtain ⟨rfl, -⟩ := h
      simp [text, LitKind.render, pieces, spell, Piece.chars]
  | var name, _ => by simp [text, pieces, spell, Piece.chars]
  | unary op x, h => by
      rw [text, text_eq_spell (e := x) h, pieces, Text.spell_append, op.spell_marks]
      rfl
  | binary op x y, h => by
      simp only [plain, Bool.and_eq_true] at h
      simp only [text, text_eq_spell h.1, text_eq_spell h.2, Option.bind_eq_bind, Option.bind_some,
        wrap_spell, pieces, Text.spell_append, op.spell_marks]
      rfl
  | index x indices, h => by
      simp only [plain, Bool.and_eq_true] at h
      simp only [text, text_eq_spell h.1, texts_eq_spell h.2, Option.bind_eq_bind,
        Option.bind_some, wrap_spell, pieces, Text.spell_append, spell_comma]
      rfl
  | call fn args, h => by
      simp only [plain, Bool.and_eq_true] at h
      have hfn : spell [.word fn.toList] = fn := by simp [spell, Piece.chars]
      simp only [text, texts_eq_spell h.2, pieces, Text.spell_append, spell_comma, hfn]
      rfl

theorem texts_eq_spell : ∀ {es : List Expr}, plainAll es = true →
    texts es = some ((piecesAll es).map spell)
  | [], _ => rfl
  | e :: es, h => by
      simp only [plainAll, Bool.and_eq_true] at h
      simp only [texts, text_eq_spell h.1, texts_eq_spell h.2, piecesAll, List.map_cons]
      rfl

end

theorem wellCut_enclose {e : Expr} {ps : List Piece} (hps : WellCut ps) :
    WellCut (e.enclose ps) := by
  unfold Expr.enclose
  split
  · rw [List.append_assoc, List.singleton_append]
    exact (hps.append_mark rfl .nil).cons_mark rfl
  · exact hps

theorem wellCut_intercalate {pss : List (List Piece)} (h : ∀ ps ∈ pss, WellCut ps) :
    WellCut (comma.intercalate pss) := by
  induction pss with
  | nil => exact .nil
  | cons ps pss ih =>
      obtain ⟨hps, hpss⟩ := List.forall_mem_cons.mp h
      cases pss with
      | nil => simpa using hps
      | cons qs pss =>
          rw [List.intercalate_cons_cons, comma, List.append_assoc, List.cons_append,
            List.singleton_append]
          exact hps.append_mark rfl ((ih hpss).cons_mark rfl)

mutual

theorem wellCut_pieces : ∀ {e : Expr}, e.plain = true → WellCut e.pieces
  | hole, h => by cases h
  | lit kind value, h => by
      simp only [plain, Bool.and_eq_true] at h
      exact .word (proper_of_isNumber h.2)
  | var name, h => .word (proper_of_isName h)
  | unary op x, h => (wellCut_pieces (e := x) h).marks_append op.isMark_of_mem_text
  | binary op x y, h => by
      simp only [plain, Bool.and_eq_true] at h
      simp only [pieces, List.append_assoc, List.singleton_append]
      refine (wellCut_enclose (wellCut_pieces h.1)).append_mark rfl ?_
      refine .marks_append op.isMark_of_mem_text (.cons_mark rfl ?_)
      exact wellCut_enclose (wellCut_pieces h.2)
  | index x indices, h => by
      simp only [plain, Bool.and_eq_true] at h
      simp only [pieces, List.append_assoc, List.singleton_append]
      refine (wellCut_enclose (wellCut_pieces h.1)).append_mark rfl ?_
      exact (wellCut_intercalate (wellCut_piecesAll h.2)).append_mark rfl .nil
  | call fn args, h => by
      simp only [plain, Bool.and_eq_true] at h
      simp only [pieces, List.append_assoc]
      refine (WellCut.word (proper_of_isName h.1)).append_mark rfl ?_
      exact (wellCut_intercalate (wellCut_piecesAll h.2)).append_mark rfl .nil

theorem wellCut_piecesAll : ∀ {es : List Expr}, plainAll es = true →
    ∀ ps ∈ piecesAll es, WellCut ps
  | [], _ => by simp [piecesAll]
  | e :: es, h => by
      simp only [plainAll, Bool.and_eq_true] at h
      exact List.forall_mem_cons.mpr ⟨wellCut_pieces h.1, wellCut_piecesAll h.2⟩

end

/-- The text can be cut into its pieces again. -/
theorem cut_text {e : Expr} (h : e.plain = true) {t : String} (ht : e.text = some t) :
    Text.cut t.toList = e.pieces := by
  obtain rfl := Option.some.inj ((text_eq_spell h).symm.trans ht)
  exact Text.cut_spell (wellCut_pieces h)

theorem text_eq_text_iff {e e' : Expr} (h : e.plain = true) (h' : e'.plain = true) :
    e.text = e'.text ↔ e.pieces = e'.pieces := by
  rw [text_eq_spell h, text_eq_spell h', Option.some.injEq]
  constructor
  · intro heq
    rw [← Text.cut_spell (wellCut_pieces h), heq, Text.cut_spell (wellCut_pieces h')]
  · exact congrArg spell

end Expr

end Stratify
