/-!
String literals. In single quotes only the quote and the backslash are written with a backslash
before them; in double quotes a few letters too. `encode` writes a literal in single quotes. Main
statement: the value of what `encode` writes is the text it was given.
-/

namespace ClassEdit.Quoted

/-- A letter that can begin a name. All that is not ASCII can. -/
def isNameStart (c : Char) : Bool :=
  c == '_' || c.isAlpha || 128 ≤ c.toNat

/-- The value of a text between single quotes. A backslash before anything else stands for
itself. -/
def singleValue : List Char → List Char
  | '\\' :: c :: r =>
    if c = '\\' || c = '\x27' then c :: singleValue r else '\\' :: singleValue (c :: r)
  | c :: r => c :: singleValue r
  | [] => []

/-- What a backslash and a character stand for between double quotes or backquotes. -/
def escaped (quote c : Char) : List Char :=
  match c with
  | 'n' => ['\n']
  | 't' => ['\t']
  | 'r' => ['\r']
  | 'v' => ['\x0b']
  | 'e' => ['\x1b']
  | 'f' => ['\x0c']
  | '0' => ['\x00']
  | '\\' => ['\\']
  | '$' => ['$']
  | c => if c = quote then [c] else ['\\', c]

/-- The value of a text between double quotes or backquotes, with the variables in it left as they
are. -/
def doubleValue (quote : Char) : List Char → List Char
  | '\\' :: c :: r => escaped quote c ++ doubleValue quote r
  | c :: r => c :: doubleValue quote r
  | [] => []

def body (literal : List Char) : List Char :=
  literal.tail.dropLast

/-- The value of a literal that stands between quotes. -/
def value (literal : List Char) : List Char :=
  match literal.head? with
  | some '\x27' => singleValue (body literal)
  | some quote => doubleValue quote (body literal)
  | none => []

/-- Whether a text between double quotes holds a variable or the opening of an expression. -/
def holdsVariable : List Char → Bool
  | '\\' :: _ :: r => holdsVariable r
  | '$' :: c :: r => isNameStart c || c == '\x7b' || holdsVariable (c :: r)
  | '\x7b' :: '$' :: _ => true
  | _ :: r => holdsVariable r
  | [] => false

/-- Whether the value of the literal is known only when the program runs. What stands in backquotes
is a command and always is. -/
def isInterpolated (literal : List Char) : Bool :=
  match literal.head? with
  | some '\x22' => holdsVariable (body literal)
  | some '\x60' => true
  | _ => false

def escapeAll : List Char → List Char
  | [] => []
  | c :: r => if c = '\\' || c = '\x27' then '\\' :: c :: escapeAll r else c :: escapeAll r

/-- The literal in single quotes that has the text for its value. -/
def encode (text : String) : String :=
  String.ofList ('\x27' :: escapeAll text.toList ++ ['\x27'])

theorem singleValue_escapeAll (cs : List Char) : singleValue (escapeAll cs) = cs := by
  induction cs with
  | nil => rfl
  | cons c r ih =>
    by_cases h : c = '\\' ∨ c = '\x27'
    · simp [escapeAll, h, singleValue, ih]
    · have hb : c ≠ '\\' := fun e => h (.inl e)
      rw [escapeAll, if_neg (by simpa using h), singleValue, ih]
      exact fun _ _ e => absurd e hb

/-- A literal that was written is read back. -/
theorem value_encode (text : String) : value (encode text).toList = text.toList := by
  simp [value, encode, body, singleValue_escapeAll]

end ClassEdit.Quoted
