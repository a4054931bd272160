import Reshape.Document.Format
import Reshape.Text.Utf8

/-!
# File trees

A file tree holds files under a working directory. Every directory on the way to a file exists, and
so do the directories around the working directory, of which nothing else is known.
-/

namespace Reshape

structure FileTree where
  files : List (List (List Char) × ByteArray)

namespace FileTree

def ofFiles (files : List (String × ByteArray)) : FileTree :=
  ⟨files.map fun (path, content) => (Format.pathParts path.toList, content)⟩

inductive Place where
  | outside
  | directory (path : List (List Char))
  | file (content : ByteArray)

def entry? (tree : FileTree) (path : List (List Char)) : Option Place :=
  match tree.files.find? (·.1 == path) with
  | some (_, content) => some (.file content)
  | none =>
    if tree.files.any fun (file, _) => path.isPrefixOf file then some (.directory path) else none

/-- One part of a path: a name, one dot or two dots; an empty part stays in the directory. -/
def enter (tree : FileTree) (place : Place) (part : List Char) : Except ReadFault Place :=
  match place with
  | .file _ => .error .notDirectory
  | .outside =>
    if part = [] ∨ part = ['.'] ∨ part = ['.', '.'] then .ok .outside else .error .notFound
  | .directory path =>
    if part = [] ∨ part = ['.'] then .ok place
    else if part = ['.', '.'] then
      .ok (if path = [] then .outside else .directory path.dropLast)
    else if 255 < Text.byteCount part then .error .nameTooLong
    else match tree.entry? (path ++ [part]) with
      | some place => .ok place
      | none => .error .notFound

def read (tree : FileTree) (path : String) : Except ReadFault ByteArray := do
  if path.toList.contains '\x00' then .error .nameWithZero
  else if path = "" then .error .notFound
  else if 4096 ≤ path.utf8ByteSize then .error .nameTooLong
  else
    let start := if path.toList.head? = some '/' then Place.outside else .directory []
    match ← (Format.pathParts path.toList).foldlM tree.enter start with
    | .file content => .ok content
    | _ => .error .isDirectory

end FileTree

end Reshape
