/-!
Finding one text in another.
-/

namespace ClassEdit

/-- The occurrences of a text that begins with `c` and goes on with `cs`, counted from the left
so that no two overlap. -/
def countFrom (c : Char) (cs : List Char) : List Char → Nat
  | [] => 0
  | d :: ds =>
    if (c :: cs).isPrefixOf (d :: ds) then countFrom c cs (ds.drop cs.length) + 1
      else countFrom c cs ds
termination_by text => text.length
decreasing_by all_goals (simp_wf; try omega)

/-- The occurrences of a text, from the left and without overlap. The empty text stands before every
character and at the end. -/
def occurrences (needle text : String) : Nat :=
  match needle.toList with
  | [] => text.length + 1
  | c :: cs => countFrom c cs text.toList

def occursIn (needle text : String) : Bool :=
  0 < occurrences needle text

/-- ASCII letters are compared without their case, all else as it is. -/
def sameWord (a b : String) : Bool :=
  a.toList.map Char.toLower == b.toList.map Char.toLower

end ClassEdit
