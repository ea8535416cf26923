/-
Files. A folder holds files, and a path leads to a file, to a folder or nowhere. A path is walked part by part: a dot
stays, two dots leave, and nothing leads on from a file.
-/
import Scriptlet.Bytes

namespace Scriptlet

inductive FileFault where
  | notFound
  | denied
  | notDirectory
  | isDirectory
  | nameTooLong
  deriving DecidableEq

namespace FileFault

/-- what failed: a folder can be opened but not read -/
def action : FileFault → String
  | .isDirectory => "read"
  | _ => "open"

/-- the reason, as the system words it -/
def reason : FileFault → String
  | .notFound => "No such file or directory (os error 2)"
  | .denied => "Permission denied (os error 13)"
  | .notDirectory => "Not a directory (os error 20)"
  | .isDirectory => "Is a directory (os error 21)"
  | .nameTooLong => "File name too long (os error 36)"

end FileFault

/-- files by path, as seen from the folder -/
structure Folder where
  files : List (String × Bytes)

namespace Folder

/-- where a walk has led to: a folder inside, by the names that lead to it, a folder outside, or a file -/
inductive Place where
  | inside (names : List String)
  | outside
  | file (content : Bytes)

/-- the longest name of a file, in bytes -/
def maxName : Nat := 255

/-- the length from which on a path is refused, in bytes -/
def maxPath : Nat := 4096

def parts (path : String) : List String := path.splitOn "/"

/-- what stands where the given names lead to: a file, or a folder that a file stands in -/
def lookup (folder : Folder) (names : List String) : Except FileFault Place :=
  match folder.files.find? fun entry => parts entry.1 = names with
  | some (_, content) => .ok (.file content)
  | none =>
    if folder.files.any fun entry => names.isPrefixOf (parts entry.1) then .ok (.inside names) else .error .notFound

def step (folder : Folder) (place : Place) (part : String) : Except FileFault Place :=
  match place with
  | .file _ => .error .notDirectory
  | .outside =>
    if part = "" || part = "." || part = ".." then .ok .outside
    else if maxName < part.utf8ByteSize then .error .nameTooLong
    else .error .notFound
  | .inside names =>
    if part = "" || part = "." then .ok (.inside names)
    else if part = ".." then .ok (if names = [] then .outside else .inside names.dropLast)
    else if maxName < part.utf8ByteSize then .error .nameTooLong
    else folder.lookup (names ++ [part])

def walk (folder : Folder) : Place → List String → Except FileFault Place
  | place, [] => .ok place
  | place, part :: rest =>
    match folder.step place part with
    | .ok next => walk folder next rest
    | .error fault => .error fault

def read (folder : Folder) (path : String) : Except FileFault Bytes :=
  if maxPath ≤ path.utf8ByteSize then .error .nameTooLong
  else
    match folder.walk (if path.startsWith "/" then .outside else .inside []) (parts path) with
    | .ok (.file content) => .ok content
    | .ok _ => .error .isDirectory
    | .error fault => .error fault

end Folder

end Scriptlet
