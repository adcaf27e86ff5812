import Fluent.Store.Error
import Fluent.Table

/-!
# Sources of resources

A source answers with the text of a resource for a locale and a namespace. It has no resource for
some pairs, which is not an error. `MemorySource` keeps texts; `Directory` holds files, one resource
in each, at `locale/namespace.ftl`.
-/

namespace Fluent

/-- The text of the resource for a locale and a namespace, if there is one. -/
abbrev Source : Type := String → String → Except StoreError (Option String)

/-- Texts by locale and namespace, both as they were given. -/
structure MemorySource where
  texts : Table (Table String)

namespace MemorySource

/-- No text at all. -/
def empty : MemorySource := ⟨∅⟩

/-- The text kept for a locale and a namespace. -/
def text? (source : MemorySource) (locale space : String) : Option String :=
  source.texts[locale]?.bind fun texts => texts[space]?

/-- The source with one more text; it takes the place of one kept for the same pair. -/
def insert (source : MemorySource) (locale space text : String) : MemorySource :=
  ⟨source.texts.insert locale ((source.texts[locale]?.getD ∅).insert space text)⟩

/-- The source as others use it. -/
def toSource (source : MemorySource) : Source := fun locale space => .ok (source.text? locale space)

end MemorySource

/-- Whether a name can be one step of a path: it is neither empty nor made of one or two points, and
holds no slash in either direction. -/
def isPathSegment (name : String) : Bool :=
  name != "" && name != "." && name != ".." && !name.toList.any fun c => c == '/' || c == '\\'

/-- The most bytes in the name of a file. -/
def longestFileName : Nat := 255

/-- The most bytes in a path. -/
def longestPath : Nat := 4095

/-- Files by their paths below a root, step by step. A path that leads to a file is a directory up
to there. -/
structure Directory where
  files : List (List String × ByteArray)

namespace Directory

/-- No file at all. -/
def empty : Directory := ⟨[]⟩

/-- The directory with one more file; it takes the place of one at the same path. -/
def write (directory : Directory) (path : List String) (bytes : ByteArray) : Directory :=
  ⟨(path, bytes) :: directory.files.filter fun file => file.1 != path⟩

/-- Whether a path names a directory. -/
def isDirectory (directory : Directory) (path : List String) : Bool :=
  directory.files.any fun file => path.isPrefixOf file.1 && path.length < file.1.length

/-- The bytes of the file at a path. -/
def bytes? (directory : Directory) (path : List String) : Option ByteArray :=
  directory.files.lookup path

/-- The bytes of the file of a name in a folder of the root. -/
def readBytes (directory : Directory) (folder name : String) : Except FileError ByteArray :=
  if folder.toList.contains '\x00' || name.toList.contains '\x00' then .error .invalidInput
  else if longestPath < folder.utf8ByteSize + 1 + name.utf8ByteSize then .error .invalidFilename
  else if longestFileName < folder.utf8ByteSize then .error .invalidFilename
  else if (directory.bytes? [folder]).isSome then .error .notADirectory
  else if !directory.isDirectory [folder] then .error .notFound
  else if longestFileName < name.utf8ByteSize then .error .invalidFilename
  else
    match directory.bytes? [folder, name] with
    | some bytes => .ok bytes
    | none => .error (if directory.isDirectory [folder, name] then .isADirectory else .notFound)

/-- The text of a file. -/
def readText (directory : Directory) (folder name : String) : Except FileError String := do
  match String.fromUTF8? (← directory.readBytes folder name) with
  | some text => return text
  | none => throw .invalidData

/-- The directory as a source. A locale or namespace that cannot be a step of a path is refused, the
locale first. -/
def toSource (directory : Directory) : Source := fun locale space =>
  if !isPathSegment locale then .error (.invalidLocale locale)
  else if !isPathSegment space then .error (.file .invalidInput)
  else
    match directory.readText locale (space ++ ".ftl") with
    | .ok text => .ok (some text)
    | .error .notFound => .ok none
    | .error error => .error (.file error)

end Directory

end Fluent
