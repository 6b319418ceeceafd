import RowStore.Assoc
import RowStore.Failure
import RowStore.FileContent

/-!
# The disk

The files below the store's directory and the folders they may stand in.
A file's name is brought into canonical form on the way to it: empty parts and parts that mean
"here" are dropped, and a part that means "up" leaves the folder again.

The system sets limits to the length of a name, of each of its parts, and of a file; what goes
beyond one of them is refused and changes nothing.

An opened file is used by a handle, a new one every time it is opened.  An operation that stops in
the middle spoils the handle it was using, and no other.
-/

namespace RowStore

/-- Folders and files, by canonical path, and the handles to opened files. -/
structure Disk where
  folders : List Path := []
  files : List (Path × FileContent) := []
  /-- How many handles were ever given out. -/
  opened : Nat := 0
  /-- The handles that were spoiled. -/
  spoiled : List Nat := []
  deriving DecidableEq, Repr

namespace Disk

/-! ## 1. Content -/

/-- The file at a path; a file that is not there counts as empty. -/
def file (d : Disk) (path : Path) : FileContent := (Assoc.find? path d.files).getD {}

/-- The bytes of a file. -/
def content (d : Disk) (path : Path) : List UInt8 := (d.file path).toList

/-- The length of a file in bytes. -/
def length (d : Disk) (path : Path) : Nat := (d.file path).length

/-- The `size` bytes of a file from an offset on. -/
def read (d : Disk) (path : Path) (offset size : Nat) : List UInt8 :=
  (d.file path).slice offset size

/-- Give a path a new file. -/
def putFile (d : Disk) (path : Path) (c : FileContent) : Disk :=
  { d with files := Assoc.set path c d.files }

/-- Give a file a new content, creating it if need be. -/
def put (d : Disk) (path : Path) (bytes : List UInt8) : Disk := d.putFile path (.ofList bytes)

/-- The disk after bytes were written into a file at an offset. -/
def writeAt (d : Disk) (path : Path) (offset : Nat) (bytes : List UInt8) : Disk :=
  d.putFile path ((d.file path).writeAt offset bytes)

/-- How many positions there are in a file: all that a signed number of 64 bits can count. -/
def positions : Nat := 0x8000000000000000

/-- **Write into a file at an offset.**  The end of what is written has to be a position too. -/
def write (d : Disk) (path : Path) (offset : Nat) (bytes : List UInt8) : Except FileFault Disk :=
  if offset + bytes.length < positions then .ok (d.writeAt path offset bytes)
  else .error .badPosition

/-! ## 2. Names -/

/-- Whether a path is a folder; the store's own directory is one. -/
def isFolder (d : Disk) (path : Path) : Bool := path.names.isEmpty || d.folders.contains path

/-- Whether a path is a file. -/
def isFile (d : Disk) (path : Path) : Bool := (Assoc.find? path d.files).isSome

/-- **Cut a file or fill it up with zeros** to a length.  A file that is not there is not made, and
no file gets longer than there are positions. -/
def setLength (d : Disk) (path : Path) (len : Nat) : Option Disk :=
  if d.isFile path ∧ len < positions then some (d.putFile path ((d.file path).resize len)) else none

/-- The bytes that one part of a name may take. -/
def maxPartSize : Nat := 255

/-- The bytes that a name may take.  A whole path may take 4095; of these, 40 are set aside for the
store's directory. -/
def maxNameSize : Nat := 4055

/-- Whether the last part of a path takes more bytes than a part may. -/
def isTooLong (path : Path) : Bool :=
  path.names.getLast?.any fun part => maxPartSize < part.utf8ByteSize

/-- Why nothing can be looked for below a path that is no folder. -/
def obstacle (d : Disk) (path : Path) : FileFault :=
  if isTooLong path then .nameTooLong
  else if d.isFile path then .notDirectory
  else .missing

/-- Follow the parts of a name from a folder on.  Every part but the last has to lead to a
folder. -/
def walk (d : Disk) (here : Path) : List String → Except FileFault Path
  | [] => .ok here
  | part :: rest =>
    if d.isFolder here then
      if part = "" ∨ part = "." then walk d here rest
      else if part = ".." then walk d ⟨here.names.dropLast⟩ rest
      else walk d ⟨here.names ++ [part]⟩ rest
    else .error (d.obstacle here)

/-- The parts of a name between its slashes; slashes at the end add none. -/
def parts (name : String) : List String :=
  ((name.splitOn "/").reverse.dropWhile (· = "")).reverse

/-- The canonical path that a name leads to. -/
def resolve (d : Disk) (name : String) : Except FileFault Path :=
  if name.toList.contains '\x00' then .error .nulInName
  else if maxNameSize < name.utf8ByteSize then .error .nameTooLong
  else d.walk ⟨[]⟩ (parts name)

/-- **Opening a file creates it** if it is not there.  A name with a slash at its end is a folder's
and never a file's, however long its last part is. -/
def openFile (d : Disk) (name : String) : Except FileFault (Disk × Path) :=
  match d.resolve name with
  | .error fault => .error fault
  | .ok path =>
    if d.isFolder path ∨ name.toList.getLast? = some '/' then .error .isDirectory
    else if isTooLong path then .error .nameTooLong
    else if d.isFile path then .ok (d, path)
    else .ok (d.put path [], path)

/-- Make a folder. -/
def makeFolder (d : Disk) (name : String) : Except FileFault Disk :=
  match d.resolve name with
  | .error fault => .error fault
  | .ok path =>
    if isTooLong path then .error .nameTooLong
    else .ok (if d.isFolder path then d else { d with folders := d.folders ++ [path] })

/-! ## 3. Handles -/

/-- Give out a new handle. -/
def newHandle (d : Disk) : Disk × Nat := ({ d with opened := d.opened + 1 }, d.opened)

/-- Whether a handle can be used. -/
def isUsable (d : Disk) (handle : Nat) : Bool := !d.spoiled.contains handle

/-- Spoil a handle. -/
def spoil (d : Disk) (handle : Nat) : Disk := { d with spoiled := handle :: d.spoiled }

end Disk

end RowStore
