import SqlLayout.FileTree
import SqlLayout.Path

/-! A disk: a tree of files with a current directory, where paths are looked up. -/

namespace SqlLayout
set_option autoImplicit false

structure Disk where
  root : FileTree
  cwd : List String := []

namespace Disk

def at? (d : Disk) (place : List String) : Option FileTree := d.root.at? place

def isDirAt (d : Disk) (place : List String) : Bool := (d.at? place).any FileTree.isDir

/-- The place that components lead to, from a place that is given backwards. Every place but the
last must be a directory, and nothing lies above the top. -/
def follow (d : Disk) (backwards : List String) : List Component → Option (List String)
  | [] => if (d.at? backwards.reverse).isSome then some backwards.reverse else none
  | c :: cs =>
    if d.isDirAt backwards.reverse then
      match c with
      | .root => d.follow [] cs
      | .current => d.follow backwards cs
      | .parent => d.follow backwards.tail cs
      | .name n => d.follow (n :: backwards) cs
    else none

def locate? (d : Disk) (cs : List Component) : Option (List String) := d.follow d.cwd.reverse cs

def resolve? (d : Disk) (p : Path) : Option (List String) :=
  if p.spelling = "" then none
  else (d.locate? p.components).filter fun place => !p.asksForDirectory || d.isDirAt place

def find? (d : Disk) (p : Path) : Option FileTree := (d.resolve? p).bind fun place => d.at? place

def read? (d : Disk) (p : Path) : Option ByteArray :=
  match d.find? p with
  | some (.file bytes) => some bytes
  | _ => none

def write (d : Disk) (p : Path) (bytes : ByteArray) : Disk :=
  match d.resolve? p with
  | some place => { d with root := d.root.put place (.file bytes) }
  | none => d

end Disk
end SqlLayout
