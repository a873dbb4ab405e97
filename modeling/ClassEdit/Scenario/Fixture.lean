import ClassEdit.Text.Capital
import ClassEdit.Text.Parts

/-!
Sources to try edits on, known by name.
-/

namespace ClassEdit.Fixture

def ofLines (lines : List String) : String :=
  String.join (lines.map (· ++ "\n"))

/-- A model with an import, a field that holds a list, two typed fields and a routine. -/
def testClass : String :=
  ofLines
    ["<?php", "", "namespace App\\Models;", "",
      "use Illuminate\\Foundation\\Auth\\User as Authenticatable;", "",
      "class TestClass extends Authenticatable", "\x7b", "    protected $fillable = [",
      "        \"name\",", "        \"email\",", "    ];", "", "    protected int $id = 1;",
      "    protected string $name = \"test\";", "", "    public function getName()", "    \x7b",
      "        return $this->name;", "    \x7d", "\x7d"]

/-- A class outside of any namespace, behind a declaration. -/
def plainClass : String :=
  ofLines
    ["<?php", "", "declare(strict_types=1);", "", "final class Invoice", "\x7b",
      "    public const CURRENCY = 'EUR';", "", "    private array $lines = [];", "",
      "    public function total(): int", "    \x7b", "        return array_sum($this->lines);",
      "    \x7d", "\x7d"]

def noClass : String :=
  ofLines
    ["<?php", "", "function helper()", "\x7b", "    return 1;", "\x7d"]

def source? : String → Option String
  | "test_class" => some testClass
  | "plain_class" => some plainClass
  | "no_class" => some noClass
  | _ => none

def fileName (name : String) : String :=
  String.ofList ((parts '_' name.toList).flatMap capitalized) ++ ".php"

end ClassEdit.Fixture
