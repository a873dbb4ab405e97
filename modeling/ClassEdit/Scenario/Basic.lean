import ClassEdit.Scenario.Check
import ClassEdit.Scenario.Fixture
import ClassEdit.Scenario.Kinds
import ClassEdit.Session.Edits

/-!
Scenarios: edits of a fixture in steps, with a check after each. The first check that complains ends
a scenario; an error in the edits of a step does not, if its check expects it.
-/

namespace ClassEdit

structure ScenarioStep where
  name : String
  /-- Queues the edits of the step. -/
  edits : Session → Session
  check : Check

structure Scenario where
  name : String
  fixture : String
  steps : List ScenarioStep

/-- Why a scenario did not run to its end. -/
inductive ScenarioError where
  | unknownFixture (name : String)
  | fixtureNotWritten (path : String) (cause : StorageError)
  | notOpened (scenario : String) (cause : SessionError)
  | rejected (step : String) (complaint : Complaint)

namespace ScenarioError

def message : ScenarioError → String
  | unknownFixture name => "unknown fixture '" ++ name ++ "'"
  | fixtureNotWritten path cause => "failed to write fixture " ++ path ++ ": " ++ cause.message
  | notOpened scenario cause =>
    "failed to open session for scenario '" ++ scenario ++ "': " ++ cause.message
  | rejected step complaint => "step '" ++ step ++ "' failed: " ++ complaint.message

end ScenarioError

namespace ScenarioStep

/-- Queues the edits, drains the queue and prints the file. -/
def run (step : ScenarioStep) (s : Session) : Session × Except String StepResult :=
  match (step.edits s).applyPending with
  | (s', .ok reports) => (s', .ok ⟨reports, s'.text⟩)
  | (s', .error e) => (s', .error (SessionError.edit e).message)

def runAll : List ScenarioStep → Session → Except ScenarioError Unit
  | [], _ => .ok ()
  | step :: steps, s =>
    match step.run s with
    | (s', result) =>
      match step.check.verify result with
      | .ok () => runAll steps s'
      | .error complaint => .error (.rejected step.name complaint)

end ScenarioStep

namespace Scenario

def standardFixture : String := "test_class"

/-- Writes the fixture to a storage, opens a session on it and runs the steps. -/
def run {σ : Type} [Storage σ] (sc : Scenario) (storage : σ) : Except ScenarioError Unit :=
  match Fixture.source? sc.fixture with
  | none => .error (.unknownFixture sc.fixture)
  | some source =>
    let path := Fixture.fileName sc.fixture
    match Storage.write storage path source with
    | .error e => .error (.fixtureNotWritten path e)
    | .ok storage =>
      match Session.load storage path .standard with
      | .error e => .error (.notOpened sc.name (.load e))
      | .ok s => ScenarioStep.runAll sc.steps s

end Scenario

instance : Inspect ScenarioStep where
  inspect s := Inspect.record "Step" [("name", inspect s.name), ("assertion", inspect s.check)]

instance : Inspect Scenario where
  inspect s :=
    Inspect.record "Scenario"
      [("name", inspect s.name), ("fixture", inspect s.fixture), ("steps", inspect s.steps)]

end ClassEdit
