import ClassEdit.Layout
import ClassEdit.Text.Shown

/-!
Values written out with their structure, for messages about them. Names of records and variants
stand as they are, texts between quotes with everything escaped that does not show.
-/

namespace ClassEdit

/-- Types whose values can be written out. -/
class Inspect (α : Type) where
  inspect : α → String

export Inspect (inspect)

namespace Inspect

/-- A character between quotes. One that does not show is written with its code point. -/
def escape : Char → List Char
  | '\x00' => ['\\', '0']
  | '\t' => ['\\', 't']
  | '\n' => ['\\', 'n']
  | '\r' => ['\\', 'r']
  | '"' => ['\\', '"']
  | '\\' => ['\\', '\\']
  | c => if isShown c then [c] else "\\u\x7b".toList ++ Nat.toDigits 16 c.toNat ++ ['}']

def quoted (s : String) : String :=
  String.ofList ('"' :: s.toList.flatMap escape ++ ['"'])

def variant (name : String) (args : List String) : String :=
  name ++ "(" ++ commaList args ++ ")"

def record (name : String) (fields : List (String × String)) : String :=
  name ++ " \x7b " ++ commaList (fields.map fun f => f.1 ++ ": " ++ f.2) ++ " \x7d"

def list (items : List String) : String :=
  "[" ++ commaList items ++ "]"

def map (entries : List (String × String)) : String :=
  "\x7b" ++ commaList (entries.map fun e => quoted e.1 ++ ": " ++ e.2) ++ "\x7d"

end Inspect

open Inspect

instance : Inspect String := ⟨quoted⟩

instance : Inspect Nat := ⟨toString⟩

instance : Inspect Bool := ⟨fun b => if b then "true" else "false"⟩

instance {α : Type} [Inspect α] : Inspect (Option α) :=
  ⟨fun x => x.elim "None" fun a => variant "Some" [inspect a]⟩

instance {α : Type} [Inspect α] : Inspect (List α) := ⟨fun xs => list (xs.map inspect)⟩

instance {α β : Type} [Inspect α] [Inspect β] : Inspect (α × β) :=
  ⟨fun p => variant "" [inspect p.1, inspect p.2]⟩

end ClassEdit
