import ClassEdit.Session.Report
import ClassEdit.Text.Search

/-!
Checks of what a step of edits came to. A check that expects an error looks at nothing
else; any other looks at the reports first and then at the output, and its first complaint
is the one that is told.
-/

namespace ClassEdit

/-- What a step came to: a report for each edit, and the file as it is printed after them. -/
structure StepResult where
  reports : List Report
  output : String

namespace StepResult

def count (r : StepResult) (outcome : Outcome) : Nat :=
  r.reports.countP (·.outcome == outcome)

end StepResult

/-- What is expected of a step; what is none is not looked at. -/
structure Check where
  applied : Option Nat
  duplicates : Option Nat
  notFound : Option Nat
  contains : List String
  absent : List String
  /-- Texts, and how often the output must have each. -/
  occurs : List (String × Nat)
  exactly : Option String
  /-- The step must fail with a message that has this text in it. -/
  error : Option String
  accepts : Option (StepResult → Bool)

/-- What is wrong with a step. -/
inductive Complaint where
  | failed (message : String)
  | otherError (wanted message : String)
  | noError (wanted : String)
  | notAccepted
  | count (outcome : Outcome) (wanted found : Nat) (reports : List Report)
  | mismatch (wanted output : String)
  | lacks (text output : String)
  | holds (text output : String)
  | occurs (text : String) (wanted found : Nat) (output : String)

namespace Complaint

def label : Outcome → String
  | .applied => "applied"
  | .skipped .duplicate => "duplicate"
  | .skipped .notFound => "not found"

def message : Complaint → String
  | failed message => "step failed: " ++ message
  | otherError wanted message => "expected error containing '" ++ wanted ++ "', got: " ++ message
  | noError wanted => "expected error containing '" ++ wanted ++ "', but step succeeded"
  | notAccepted => "custom assertion failed"
  | count outcome wanted found reports =>
    "expected " ++ toString wanted ++ " " ++ label outcome ++ ", got " ++ toString found ++
      "\n  reports: " ++ inspect reports
  | mismatch wanted output =>
    "output mismatch:\n--- expected\n" ++ wanted ++ "\n--- actual\n" ++ output
  | lacks text output => "expected output to contain " ++ inspect text ++ "\n" ++ output
  | holds text output => "expected output not to contain " ++ inspect text ++ "\n" ++ output
  | occurs text wanted found output =>
    "expected " ++ inspect text ++ " " ++ toString wanted ++ " time(s), found " ++ toString found ++
      "\n" ++ output

end Complaint

namespace Check

def trivial : Check := ⟨none, none, none, [], [], [], none, none, none⟩

def countComplaint (r : StepResult) (outcome : Outcome) (wanted : Option Nat) : Option Complaint :=
  wanted.bind fun n =>
    if r.count outcome = n then none else some (.count outcome n (r.count outcome) r.reports)

/-- All complaints about a step that succeeded, in the order in which they are looked for. -/
def complaints (c : Check) (r : StepResult) : List Complaint :=
  (if c.accepts.all (· r) then [] else [.notAccepted]) ++
  (countComplaint r .applied c.applied).toList ++
  (countComplaint r (.skipped .duplicate) c.duplicates).toList ++
  (countComplaint r (.skipped .notFound) c.notFound).toList ++
  ((c.exactly.filter (· != r.output)).map (.mismatch · r.output)).toList ++
  (c.contains.filter (!occursIn · r.output)).map (.lacks · r.output) ++
  (c.absent.filter (occursIn · r.output)).map (.holds · r.output) ++
  (c.occurs.filter fun e => occurrences e.1 r.output != e.2).map fun e =>
    .occurs e.1 e.2 (occurrences e.1 r.output) r.output

/-- Looks at a step that came to a result or failed with a message. -/
def verify (c : Check) (result : Except String StepResult) : Except Complaint Unit :=
  match c.error, result with
  | some wanted, .error message =>
    if occursIn wanted message then .ok () else .error (.otherError wanted message)
  | some wanted, .ok _ => .error (.noError wanted)
  | none, .error message => .error (.failed message)
  | none, .ok r =>
    match c.complaints r with
    | [] => .ok ()
    | complaint :: _ => .error complaint

end Check

/-- A check written out. No check has a pattern, and of a function nothing is shown but that it is
there. -/
instance : Inspect Check where
  inspect c :=
    Inspect.record "Assertion"
      [("applied", inspect c.applied), ("duplicates", inspect c.duplicates),
        ("not_found", inspect c.notFound), ("contains", inspect c.contains),
        ("absent", inspect c.absent), ("occurrences", inspect c.occurs),
        ("pattern", inspect (none : Option String)), ("exactly", inspect c.exactly.isSome),
        ("error", inspect c.error), ("custom", inspect (c.accepts.map fun _ => "<fn>"))]

end ClassEdit
