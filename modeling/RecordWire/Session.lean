import RecordWire.Host

/-!
A machine in memory, for runs without a disk.  A path is walked one component at a time: `.` stays,
`..` goes up, and any other component but the last has to be a directory.  Standard output can be
one that takes only so much, and standard error one that takes nothing.
-/

namespace RecordWire

/-! ## Files -/

/-- Directories and files by the names that lead to them from the root.  Relative paths start at
`base`. -/
structure FileStore where
  base : List String := ["work"]
  directories : List (List String) := [[], ["work"]]
  files : List (List String × ByteArray) := []

namespace FileStore

/-- Goes one component further, into a directory. -/
def enter (s : FileStore) (location : List String) (component : String) :
    Except FileError (List String) :=
  if component = "." then .ok location
  else if component = ".." then .ok location.dropLast
  else if 255 < component.utf8ByteSize then .error .nameTooLong
  else
    let next := location ++ [component]
    if s.directories.contains next then .ok next
    else if (s.files.lookup next).isSome then .error .notDirectory
    else .error .notFound

def walk (s : FileStore) : List String → List String → Except FileError (List String)
  | location, [] => .ok location
  | location, component :: rest =>
    match s.enter location component with
    | .ok next => s.walk next rest
    | .error e => .error e

/-- The directory that holds the last component, and that component if it is a name. -/
def locate (s : FileStore) (text : String) : Except FileError (List String × Option String) :=
  let path := Path.ofText text
  let start := if path.absolute then [] else s.base
  if text.toList.contains '\x00' then .error .nulInName
  else if text.isEmpty then .error .notFound
  else if 4096 ≤ text.utf8ByteSize then .error .nameTooLong
  else
    match s.walk start path.components.dropLast with
    | .error e => .error e
    | .ok location =>
      match path.components.getLast? with
      | none => .ok (location, none)
      | some name =>
        if name = "." || name = ".." then .ok (location, none)
        else if 255 < name.utf8ByteSize then .error .nameTooLong
        else .ok (location, some name)

def read (s : FileStore) (text : String) : Except FileError ByteArray :=
  match s.locate text with
  | .error e => .error e
  | .ok (_, none) => .error .isDirectory
  | .ok (location, some name) =>
    let target := location ++ [name]
    if s.directories.contains target then .error .isDirectory
    else
      match s.files.lookup target with
      | some content =>
        if (Path.ofText text).trailingSlash then .error .notDirectory else .ok content
      | none => .error .notFound

def setFile (s : FileStore) (target : List String) (content : ByteArray) : FileStore :=
  { s with files := (target, content) :: s.files.filter (·.1 ≠ target) }

def write (s : FileStore) (text : String) (content : ByteArray) : Except FileError FileStore :=
  match s.locate text with
  | .error e => .error e
  | .ok (_, none) => .error .isDirectory
  | .ok (location, some name) =>
    let target := location ++ [name]
    if (Path.ofText text).trailingSlash || s.directories.contains target then
      .error .isDirectory
    else
      .ok (s.setFile target content)

/-- A store as the files of a program.  A path that cannot be opened leaves it as it is. -/
def calls : Files (StateM FileStore) where
  read path := modifyGet fun s => (s.read path, s)
  write path content := modifyGet fun s =>
    match s.write path content with
    | .ok s' => (.ok (), s')
    | .error e => (.error e, s)

/-- Makes the directories on the way from `location`, and gives the place they lead to. -/
def makeDirectories (s : FileStore) (location : List String) :
    List String → FileStore × List String
  | [] => (s, location)
  | component :: rest =>
    if component = "." then s.makeDirectories location rest
    else if component = ".." then s.makeDirectories location.dropLast rest
    else
      let next := location ++ [component]
      let s' :=
        if s.directories.contains next then s
        else { s with directories := next :: s.directories }
      s'.makeDirectories next rest

/-- Puts a file in place, together with the directories on the way to it. -/
def place (s : FileStore) (text : String) (content : ByteArray) : FileStore :=
  let path := Path.ofText text
  let (s', location) := s.makeDirectories s.base path.components.dropLast
  s'.setFile (location ++ path.components.getLast?.toList) content

end FileStore

/-! ## Streams -/

structure Session where
  store : FileStore := {}
  input : Except FileError ByteArray := .ok .empty
  printed : ByteArray := .empty
  /-- How much more standard output takes, if there is a limit. -/
  room : Option Nat := none
  /-- What has been written to standard error, unless that is closed. -/
  messages : Option String := some ""
  logged : List Event := []

namespace Session

def onStore {α : Type} (call : StateM FileStore α) : StateM Session α :=
  modifyGet fun s => ((call.run s.store).1, { s with store := (call.run s.store).2 })

/-- Prints what there is room for. -/
def print (s : Session) (bytes : ByteArray) : Except FileError Unit × Session :=
  match s.room with
  | none => (.ok (), { s with printed := s.printed ++ bytes })
  | some room =>
    if bytes.size ≤ room then
      (.ok (), { s with printed := s.printed ++ bytes, room := some (room - bytes.size) })
    else
      (.error (.other "No space left on device (os error 28)"),
        { s with printed := s.printed ++ bytes.extract 0 room, room := some 0 })

def host : Host (StateM Session) where
  read path := onStore (FileStore.calls.read path)
  write path content := onStore (FileStore.calls.write path content)
  readInput := modifyGet fun s => (s.input, s)
  print bytes := modifyGet (·.print bytes)
  report message := modifyGet fun s =>
    (s.messages.isSome, { s with messages := s.messages.map (· ++ message) })
  log event := modifyGet fun s => (true, { s with logged := s.logged ++ [event] })

end Session
end RecordWire
