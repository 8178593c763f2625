/-!
# Folders

A **`Folder`** is a working folder as a value, so that the text behind a path is known without a file system.

* **`ReadError`** — why a text could not be read.
* **`Folder.read`** — the text behind a path.
-/

namespace Bluespec

/-- Why a text could not be read. -/
inductive ReadError
  /-- Nothing has that name. -/
  | notFound
  /-- The path names a folder. -/
  | isFolder
  /-- A name is looked up in something that is no folder. -/
  | notFolder
  /-- The bytes are no text. -/
  | notText
  /-- Anything else. -/
  | other (message : String)
deriving DecidableEq, Repr

/-- What is said about a text that could not be read. -/
def ReadError.message : ReadError → String
  | notFound => "No such file or directory (os error 2)"
  | isFolder => "Is a directory (os error 21)"
  | notFolder => "Not a directory (os error 20)"
  | notText => "stream did not contain valid UTF-8"
  | other message => message

/-- The text that bytes encode. -/
def decodeText (bytes : ByteArray) : Except ReadError String :=
  match String.fromUTF8? bytes with
  | some text => .ok text
  | none => .error .notText

/-! ## Paths -/

/-- The names between the slashes of a path. -/
def pathNames (path : String) : List String := path.splitOn "/"

/-- Whether a name of a path leads nowhere else: between two slashes there may be nothing, or a dot. -/
def staysHere (name : String) : Bool := name == "" || name == "."

/-- The names on the way from the working folder to a file or folder. -/
abbrev Route := List String

/-- The route that a path without a way back spells out. -/
def Route.ofPath (path : String) : Route := (pathNames path).filter fun name => !staysHere name

/-! ## Folders -/

/-- A working folder: the files in it, and the folders below it.  Every folder on the route to one of them is
there too. -/
structure Folder where
  /-- The files with their bytes. -/
  files : List (Route × ByteArray)
  /-- The folders. -/
  folders : List Route

namespace Folder

/-- Where a path leads: to a route below the working folder, or out of it. -/
abbrev Destination := Option Route

/-- Whether a folder is at a route. -/
def hasFolder (f : Folder) (route : Route) : Bool :=
  route.isEmpty || f.folders.any route.isPrefixOf ||
    f.files.any fun entry => route.isPrefixOf entry.1 && route != entry.1

/-- Whether a folder is at a destination; outside there are no files. -/
def isFolder (f : Folder) : Destination → Bool
  | none => true
  | some route => f.hasFolder route

/-- The bytes of the file at a route. -/
def file? (f : Folder) (route : Route) : Option ByteArray :=
  (f.files.find? fun entry => entry.1 == route).map Prod.snd

/-- One name further, from a folder. -/
def enter (f : Folder) (name : String) : Destination → Except ReadError Destination
  | none => if staysHere name || name == ".." then .ok none else .error .notFound
  | some route =>
    if staysHere name then .ok (some route)
    else if name = ".." then .ok (if route.isEmpty then none else some route.dropLast)
    else
      let next := route ++ [name]
      if f.hasFolder next ∨ (f.file? next).isSome then .ok (some next) else .error .notFound

/-- Follows names, each of which has to stand in a folder. -/
def follow (f : Folder) : List String → Destination → Except ReadError Destination
  | [], here => .ok here
  | name :: names, here =>
    if f.isFolder here then do f.follow names (← f.enter name here) else .error .notFolder

/-- Where a path leads.  One that starts with a slash does not start in the working folder. -/
def resolve (f : Folder) (path : String) : Except ReadError Destination :=
  if path = "" then .error .notFound
  else f.follow (pathNames path) (if path.startsWith "/" then none else some [])

/-- The text behind a path. -/
def read (f : Folder) (path : String) : Except ReadError String := do
  match ← f.resolve path with
  | none => .error .isFolder
  | some route =>
    match f.file? route with
    | some bytes => decodeText bytes
    | none => .error .isFolder

end Folder

end Bluespec
