import AutomatonCheck.Command.Run

/-!
# A host in memory

A volume is a tree of folders and files under one root. A machine has a volume, a home
folder in it and standard streams, and as a host it runs the command without any
outside effect: the machine after the run shows all that the command did.

A path consists of components between slashes. It is read from the root if it starts
with a slash, and from the home folder otherwise. Each component but the last must lead
to a folder, and so must the last if a slash follows it. Components and paths are of
limited length.
-/
namespace AutomatonCheck

inductive Entry where
  | folder
  /-- A file with its bytes, how reading ends after them, and whether it may be written. -/
  | file (bytes : List UInt8) (ending : Ending) (writable : Bool)
  deriving DecidableEq

/-- A place in a volume: the components of its path from the root. -/
abbrev Place := List String

structure Volume where
  entries : List (Place × Entry)
  deriving DecidableEq

namespace Volume

/-- The largest number of bytes in the name of a file or folder. -/
def nameLimit : Nat := 255

/-- The largest number of bytes in a path. -/
def pathLimit : Nat := 4095

def components (path : String) : List String := (path.toList.splitOn '/').map String.ofList

/-- What is at a place. The root is a folder. -/
def entryAt? (volume : Volume) (place : Place) : Option Entry :=
  if place = [] then some .folder else volume.entries.lookup place

/-- Follow the components of a path from a place. Above the root there is the root again. -/
def follow (volume : Volume) (place : Place) : List String → Option Place
  | [] => some place
  | component :: rest =>
    if volume.entryAt? place = some .folder then
      if component = "" ∨ component = "." then volume.follow place rest
      else if component = ".." then volume.follow place.dropLast rest
      else if nameLimit < component.utf8ByteSize then none
      else volume.follow (place ++ [component]) rest
    else none

/-- The place that a path names for a user of the home folder. -/
def placeOf? (volume : Volume) (home : Place) (path : String) : Option Place :=
  if path = "" ∨ pathLimit < path.utf8ByteSize then none
  else volume.follow (if path.front = '/' then [] else home) (components path)

/-- The bytes of a file as a source. -/
def sourceAt? (volume : Volume) (place : Place) : Option Source :=
  match volume.entryAt? place with
  | some (.file bytes ending _) => some ⟨[bytes], ending⟩
  | _ => none

/-- Whether a file can be created or emptied at a place. -/
def canCreate (volume : Volume) (place : Place) : Bool :=
  match volume.entryAt? place with
  | none => volume.entryAt? place.dropLast == some .folder
  | some .folder => false
  | some (.file _ _ writable) => writable

/-- Put a file with the given bytes at a place. -/
def store (volume : Volume) (place : Place) (bytes : List UInt8) : Volume :=
  ⟨(place, .file bytes .finished true) :: volume.entries.filter fun entry => entry.1 != place⟩

/-- The bytes of a file, none if there is no file. -/
def bytesAt (volume : Volume) (place : Place) : List UInt8 :=
  match volume.entryAt? place with
  | some (.file bytes _ _) => bytes
  | _ => []

/-- The folders that lead to a place. -/
def foldersAbove (place : Place) : List (Place × Entry) :=
  (List.range place.length).map fun depth => (place.take depth, .folder)

/-- The volume with a home folder and files and folders in it, and the folders that lead there. -/
def furnished (home : Place) (files : List (String × List UInt8)) (folders : List String) :
    Volume :=
  let files := files.map fun (path, bytes) => (home ++ components path, bytes)
  let folders := home :: folders.map fun path => home ++ components path
  ⟨files.map (fun (place, bytes) => (place, .file bytes .finished true)) ++
    folders.map (fun place => (place, .folder)) ++
    (files.map Prod.fst ++ folders).flatMap foldersAbove⟩

/-- The files right in a folder that another volume does not have with the same bytes. -/
def changedSince (volume earlier : Volume) (folder : Place) : List (String × List UInt8) :=
  volume.entries.filterMap fun (place, entry) =>
    match entry with
    | .folder => none
    | .file bytes _ _ =>
      if place.dropLast = folder then
        match earlier.entryAt? place with
        | some (.file old _ _) =>
          if old = bytes then none else place.getLast?.map fun name => (name, bytes)
        | _ => place.getLast?.map fun name => (name, bytes)
      else none

end Volume

structure Machine where
  volume : Volume
  home : Place
  input : Source
  output : List UInt8
  notes : List String
  deriving DecidableEq

namespace Machine

/-- An output that was created: the standard output, or the file at a place. -/
inductive Sink where
  | standard
  | file (place : Place)
  deriving DecidableEq

def openInput (machine : Machine) : Endpoint → Option Source
  | .standard => some machine.input
  | .file path => (machine.volume.placeOf? machine.home path).bind machine.volume.sourceAt?

/-- The place of a file that can be created or emptied under a path. -/
def creatable? (machine : Machine) (path : String) : Option Place :=
  (machine.volume.placeOf? machine.home path).filter machine.volume.canCreate

def createOutput (machine : Machine) : Endpoint → Option Sink × Machine
  | .standard => (some .standard, machine)
  | .file path =>
    match machine.creatable? path with
    | none => (none, machine)
    | some place => (some (.file place), { machine with volume := machine.volume.store place [] })

def append (machine : Machine) (sink : Sink) (text : String) : Machine :=
  let bytes := Utf8.encode text.toList
  match sink with
  | .standard => { machine with output := machine.output ++ bytes }
  | .file place =>
    { machine with volume := machine.volume.store place (machine.volume.bytesAt place ++ bytes) }

/-- The machine as a host. -/
def host : Host (StateM Machine) Sink where
  openInput endpoint := return (← get).openInput endpoint
  createOutput endpoint := modifyGet (·.createOutput endpoint)
  append sink text := modifyGet fun machine => (true, machine.append sink text)
  note text := modify fun machine => { machine with notes := machine.notes ++ [text] }

/-- Run the command on a machine. -/
def run (machine : Machine) (arguments : List String) : Exit × Machine :=
  runCommand host arguments machine

end Machine

end AutomatonCheck
