import ClassEdit.Storage.Basic
import ClassEdit.Text.Parts

/-!
Files and directories in memory. A path is read from the top directory on; `.` and `..` in it
stand for a directory itself and the one above it, and a slash at its end asks for a directory. A
name takes at most 255 bytes and a path 4095, none of them zero. Main statement: what was written
under a path is read there.
-/

namespace ClassEdit

abbrev Route := List String

inductive DiskEntry where
  | file (bytes : ByteArray)
  | directory

structure Disk where
  entries : List (Route × DiskEntry)

namespace Disk

def empty : Disk := ⟨[]⟩

def get? (d : Disk) (route : Route) : Option DiskEntry :=
  (d.entries.find? (·.1 == route)).map (·.2)

/-- The disk with an entry in front of an earlier one of the same route. -/
def put (d : Disk) (route : Route) (x : DiskEntry) : Disk :=
  ⟨(route, x) :: d.entries⟩

def names (path : String) : List String :=
  ((parts '/' path.toList).filter (!·.isEmpty)).map String.ofList

def endsInSlash (path : String) : Bool :=
  path.toList.getLast? == some '/'

def isTooLong (name : String) : Bool :=
  255 < name.utf8ByteSize

/-- Why a directory has no entry of a name. -/
def absence (name : String) : StorageError :=
  if isTooLong name then .nameTooLong else .missing

/-- The directory that names lead to from another one. -/
def walk (d : Disk) : List String → Route → Except StorageError Route
  | [], dir => .ok dir
  | name :: r, dir =>
    if name = "." then d.walk r dir
    else if name = ".." then d.walk r dir.dropLast
    else
      match d.get? (dir ++ [name]) with
      | some .directory => d.walk r (dir ++ [name])
      | some (.file _) => .error .notDirectory
      | none => .error (absence name)

/-- The route of the entry that a path names; none if it names a directory by its dots or its slash
alone. -/
def target (d : Disk) (path : String) : Except StorageError (Option Route) :=
  if '\x00' ∈ path.toList then .error .zeroInPath
  else if 4095 < path.utf8ByteSize then .error .nameTooLong
  else
    match (names path).getLast? with
    | none => if path.isEmpty then .error .missing else .ok none
    | some name =>
      (d.walk (names path).dropLast []).map fun dir =>
        if name = "." ∨ name = ".." then none else some (dir ++ [name])

def read (d : Disk) (path : String) : Except StorageError String :=
  match d.target path with
  | .error e => .error e
  | .ok none => .error .isDirectory
  | .ok (some route) =>
    match d.get? route with
    | none => .error (absence (route.getLast?.getD ""))
    | some .directory => .error .isDirectory
    | some (.file bytes) =>
      if endsInSlash path then .error .notDirectory
      else
        match String.fromUTF8? bytes with
        | some text => .ok text
        | none => .error .notText

def write (d : Disk) (path text : String) : Except StorageError Disk :=
  match d.target path with
  | .error e => .error e
  | .ok none => .error .isDirectory
  | .ok (some route) =>
    match d.get? route with
    | some .directory => .error .isDirectory
    | _ =>
      if endsInSlash path then .error .isDirectory
      else if isTooLong (route.getLast?.getD "") then .error .nameTooLong
      else .ok (d.put route (.file text.toUTF8))

instance : Storage Disk := ⟨read, write⟩

def add (d : Disk) (path : String) (x : DiskEntry) : Disk :=
  let names := names path
  let above := (List.range names.length).filterMap fun n =>
    if n = 0 ∨ (d.get? (names.take n)).isSome then none else some (names.take n)
  (above.foldl (·.put · .directory) d).put names x

theorem get?_put (d : Disk) (route other : Route) (x : DiskEntry) :
    (d.put route x).get? other = if route = other then some x else d.get? other := by
  by_cases h : route = other <;> simp [put, get?, h]

/-- A new file is in the way of no path that led through directories. -/
theorem walk_put {d : Disk} {route : Route} {bytes : ByteArray}
    (hr : d.get? route ≠ some .directory) {names : List String} {dir dest : Route}
    (h : d.walk names dir = .ok dest) :
    (d.put route (.file bytes)).walk names dir = .ok dest := by
  induction names generalizing dir with
  | nil => exact h
  | cons name r ih =>
    unfold walk at h ⊢
    by_cases h₁ : name = "."
    · rw [if_pos h₁] at h ⊢
      exact ih h
    · rw [if_neg h₁] at h ⊢
      by_cases h₂ : name = ".."
      · rw [if_pos h₂] at h ⊢
        exact ih h
      · rw [if_neg h₂] at h ⊢
        split at h
        next hd =>
          have hne : route ≠ dir ++ [name] := fun e => hr (e ▸ hd)
          rw [get?_put, if_neg hne, hd]
          exact ih h
        next => cases h
        next => cases h

/-- A write does not change where a path leads, since it puts a file only where no directory is. -/
theorem target_put {d : Disk} {route : Route} {bytes : ByteArray}
    (hr : d.get? route ≠ some .directory) {path : String} {dest : Option Route}
    (h : d.target path = .ok dest) :
    (d.put route (.file bytes)).target path = .ok dest := by
  unfold target at h ⊢
  split at h
  · cases h
  next h₁ =>
    split at h
    · cases h
    next h₂ =>
      rw [if_neg h₁, if_neg h₂]
      split at h
      · exact h
      · cases hw : d.walk (names path).dropLast [] with
        | error e => rw [hw] at h; cases h
        | ok dir => rw [walk_put hr hw]; rw [hw] at h; exact h

/-- What was written to a path is read from it. -/
theorem read_write {d d' : Disk} {path text : String} (h : d.write path text = .ok d') :
    d'.read path = .ok text := by
  unfold write at h
  split at h
  next => cases h
  next => cases h
  next route ht =>
    split at h
    next => cases h
    next hr =>
      split at h
      next => cases h
      next hs =>
        split at h
        next => cases h
        next =>
          cases h
          have hu : String.fromUTF8? text.toUTF8 = some text := by
            simp [String.fromUTF8?, String.toUTF8, text.isValidUTF8, String.fromUTF8]
          simp only [read, target_put (fun e => hr e) ht, get?_put, if_true, hu, if_neg hs]

end Disk

end ClassEdit
