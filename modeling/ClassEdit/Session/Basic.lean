import ClassEdit.File.Parser
import ClassEdit.File.Printer
import ClassEdit.Session.Config
import ClassEdit.Session.Error
import ClassEdit.Session.Report

/-!
Editing one file. A session is opened on a source; edits are queued and applied only when the queue
is drained, which rendering and persisting do first. Main statements: draining empties the queue and
adds its reports to the history, and rendering twice renders the same.
-/

namespace ClassEdit

structure Session where
  file : SourceFile
  /-- The text that the session was opened on. -/
  source : String
  /-- Where the source was loaded from. -/
  path : Option String
  /-- The edits that wait, in the order in which they were asked for. -/
  pending : List Descriptor
  /-- The reports of all drains. -/
  history : List Report
  config : SessionConfig

namespace Session

def ofSource (source : String) (config : SessionConfig) : Except LoadError Session :=
  match SourceFile.ofSource source with
  | .ok file => .ok ⟨file, source, none, [], [], config.forSource source⟩
  | .error e => .error (.unparsable e)

def load {σ : Type} [Storage σ] (storage : σ) (path : String) (config : SessionConfig) :
    Except LoadError Session :=
  match Storage.read storage path with
  | .ok source => (ofSource source config).map fun s => { s with path := some path }
  | .error e => .error (.ofStorage path e)

variable (s : Session)

def className : Option String :=
  s.file.firstClass.map (·.name)

/-- The file as it would be printed now, without the edits that wait. -/
def text : String :=
  s.file.text s.config.layout

def enqueue (d : Descriptor) : Session :=
  { s with pending := s.pending ++ [d] }

def register (kind : String) (c : Constructor) : Session :=
  { s with config := s.config.withRegistry (s.config.registry.register kind c) }

/-- Applies the edits that wait. Whether it succeeds or fails, none is left. -/
def applyPending : Session × Except EditError (List Report) :=
  let d := drain s.config.registry s.pending s.file
  ({ s with file := d.file, pending := [], history := s.history ++ d.reports },
    match d.error with
    | some e => .error e
    | none => .ok d.reports)

/-- Applies the edits that wait and prints the file. -/
def render : Session × Except EditError String :=
  let (s', result) := s.applyPending
  (s', result.map fun _ => s'.text)

/-- Renders to a path, or else to the one that the session was loaded from, and tells which. Nothing
happens if there is none, and nothing is written if an edit cannot be built. -/
def persist {σ : Type} [Storage σ] (storage : σ) (path : Option String) :
    Session × σ × Except SessionError String :=
  match path.or s.path with
  | none => (s, storage, .error .noPath)
  | some target =>
    match s.render with
    | (s', .error e) => (s', storage, .error (.edit e))
    | (s', .ok text) =>
      match Storage.write storage target text with
      | .ok storage' => (s', storage', .ok target)
      | .error e => (s', storage, .error (.write target e))

/-- Writes the text that the session was opened on. -/
def snapshot {σ : Type} [Storage σ] (storage : σ) (path : String) : Except SessionError σ :=
  (Storage.write storage path s.source).mapError (.write path)

/-- A session without edits that wait stays as it is. -/
theorem applyPending_of_empty {s : Session} (h : s.pending = []) :
    s.applyPending = (s, .ok []) := by
  obtain ⟨file, source, path, pending, history, config⟩ := s
  cases h
  simp [applyPending, drain]

theorem render_of_empty {s : Session} (h : s.pending = []) : s.render = (s, .ok s.text) := by
  rw [render, applyPending_of_empty h]
  rfl

theorem pending_applyPending : s.applyPending.1.pending = [] := rfl

theorem pending_render : s.render.1.pending = [] := rfl

/-- What was rendered is rendered again, from the same session. -/
theorem render_render {text : String} (h : s.render.2 = .ok text) :
    s.render.1.render = (s.render.1, .ok text) := by
  rw [render_of_empty s.pending_render, ← h]
  have e : s.render.2 = s.applyPending.2.map fun _ => s.render.1.text := rfl
  cases hr : s.applyPending.2 with
  | error => rw [e, hr, Except.map] at h; exact absurd h nofun
  | ok => rw [e, hr, Except.map]

end Session

end ClassEdit
