import QueuePair.Buffer
import QueuePair.Path

namespace QueuePair

abbrev FileId := Nat

structure File where
  written : Bytes
  length : Nat
deriving DecidableEq, Repr

namespace File

def empty : File := ⟨[], 0⟩

def read (f : File) (offset count : Nat) : Bytes :=
  let bytes := (f.written.drop offset).take count
  bytes ++ List.replicate (count - bytes.length) 0

def write (f : File) (offset : Nat) (bytes : Bytes) : File :=
  let front := f.written.take offset
  { f with written := front ++ List.replicate (offset - front.length) 0 ++ bytes ++
      f.written.drop (offset + bytes.length) }

def resize (f : File) (length : Nat) : File :=
  ⟨f.written.take length, length⟩

end File

inductive Node
  | directory
  | file (id : FileId)
deriving DecidableEq, Repr

structure FileTree where
  nodes : List (List String × Node)
  files : List File
deriving DecidableEq, Repr

namespace FileTree

def empty : FileTree := ⟨[], []⟩

def nameMax : Nat := 255

def node? (t : FileTree) (parts : List String) : Option Node :=
  (t.nodes.find? (·.1 = parts)).map (·.2)

/-- Follows a path part by part. All but the last must be directories; the answer says whether the
last is there. -/
def follow (t : FileTree) (above : List String) : List String →
    Except SystemError (Option Node)
  | [] => .ok (some .directory)
  | part :: rest =>
    if part.utf8ByteSize > nameMax then .error .nameTooLong
    else
      let here := above ++ [part]
      match rest with
      | [] => .ok (if part = "/" ∧ above = [] then some .directory else t.node? here)
      | _ :: _ =>
        if part = "/" ∧ above = [] then t.follow here rest
        else match t.node? here with
          | none => .error .noEntry
          | some (.file _) => .error .notDirectory
          | some .directory => t.follow here rest

def lookup (t : FileTree) (p : Path) : Except SystemError (Option Node) :=
  t.follow [] p.parts

def file? (t : FileTree) (id : FileId) : Option File :=
  t.files[id]?

def modify (t : FileTree) (id : FileId) (f : File → File) : FileTree :=
  { t with files := t.files.modify id f }

/-- Opens a file for reading and writing, making an empty one if asked to. -/
def openFile (t : FileTree) (p : Path) (create : Bool) : FileTree × Except SystemError FileId :=
  match t.lookup p with
  | .error e => (t, .error e)
  | .ok (some .directory) => (t, .error .isDirectory)
  | .ok (some (.file id)) => (t, .ok id)
  | .ok none =>
    if create then
      (⟨t.nodes ++ [(p.parts, .file t.files.length)], t.files ++ [.empty]⟩, .ok t.files.length)
    else (t, .error .noEntry)

def setLength (t : FileTree) (limit : Nat) (id : FileId) (length : Nat) :
    FileTree × Except SystemError Unit :=
  if length ≤ limit then (t.modify id (·.resize length), .ok ()) else (t, .error .fileTooLarge)

def unlink (t : FileTree) (p : Path) : FileTree × Except SystemError Unit :=
  match t.lookup p with
  | .error e => (t, .error e)
  | .ok none => (t, .error .noEntry)
  | .ok (some .directory) => (t, .error .isDirectory)
  | .ok (some (.file _)) =>
    ({ t with nodes := t.nodes.filter (·.1 ≠ p.parts) }, .ok ())

def makeDirectory (t : FileTree) (p : Path) : FileTree × Except SystemError Unit :=
  match t.lookup p with
  | .error e => (t, .error e)
  | .ok (some _) => (t, .error .exists)
  | .ok none => ({ t with nodes := t.nodes ++ [(p.parts, .directory)] }, .ok ())

inductive Stat
  | absent
  | directory
  | file (length : Nat)
deriving DecidableEq, Repr

def stat (t : FileTree) (p : Path) : Stat :=
  match t.lookup p with
  | .ok (some (.file id)) => .file ((t.file? id).elim 0 (·.length))
  | .ok (some .directory) => .directory
  | _ => .absent

end FileTree

end QueuePair
