/-!
# Lines of a text

A line ends with its line feed, or with the text. Numbering and indenting write something in front
of every line and leave the lines themselves alone.
-/

namespace Stratify.Text

/-- Cuts after every line feed. The feeds stay with their lines, and no text means no line. -/
def splitLines : List Char → List (List Char)
  | [] => []
  | c :: cs =>
    if c = '\n' then [c] :: splitLines cs
    else match splitLines cs with
      | [] => [[c]]
      | l :: ls => (c :: l) :: ls

/-- No character is lost or moved by cutting. -/
@[simp] theorem flatten_splitLines (cs : List Char) : (splitLines cs).flatten = cs := by
  induction cs with
  | nil => rfl
  | cons c cs ih =>
      unfold splitLines
      split
      · simp [ih]
      · split
        · next h => simp [h] at ih; simp [← ih]
        · next h => simp [h] at ih; simp [← ih]

def lines (s : String) : List String :=
  (splitLines s.toList).map String.ofList

/-- Decimal digits with zeros in front, up to a width. -/
def zeroPadded (width n : Nat) : String :=
  let digits := toString n
  String.ofList (List.replicate (width - digits.length) '0') ++ digits

/-- Writes its number in front of every line. All numbers are as wide as the greatest. -/
def numbered (s : String) : String :=
  let ls := lines s
  let width := (toString ls.length).length
  String.join ((ls.zipIdx 1).map fun p ↦ zeroPadded width p.2 ++ " " ++ p.1)

def indented (s : String) : String :=
  String.join ((lines s).map ("\t" ++ ·))

end Stratify.Text
