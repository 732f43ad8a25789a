import Ext4.Volume.Directory

/-! Paths and their resolution.
A path is cut at its slashes once; `lookupPathFrom` then walks the components. Between two
symlinks the walk consumes a component at each step, and at most `maxSymlinks` symlinks are
followed. -/

namespace Ext4.Volume
open Octets Alloc Store

/-- `strings.Split(path, "/")`. -/
def components : Path → List Name
  | [] => [[]]
  | c :: rest =>
      if c = '/' then [] :: components rest
      else match components rest with
        | [] => [[c]]
        | name :: names => (c :: name) :: names

def trimSlash : List Name → List Name
  | [] :: name :: rest => name :: rest
  | names => names

def rootIno : Nat := 2

def maxSymlinks : Nat := 40

section
variable (v : Shape) (s : FS)

def FS.readSymlink (x : Inode) : Except Err Path :=
  match x.mapping with
  | .target path => .ok path
  | mapping => do
      let extents ← s.parseExtents mapping
      match (blocksOf extents).head?.map fun b => s.image (.block b) with
      | some (.target path) => .ok path
      | _ => .error .badExtentMagic

inductive Walk where
  | found (ino : Nat)
  /-- A symlink in directory `dir`, and the components behind it. -/
  | link (dir : Nat) (target : Path) (rest : List Name)
  | failed (e : Err)

def FS.entryIn (dir : Nat) (name : Name) : Except Err (Nat × Inode) := do
  let cur ← s.readInode v dir
  if cur.kind ≠ .dir then throw .notDir
  let entries ← s.readDir cur
  match entries.find? fun e => e.name = name with
  | none => throw .notExist
  | some e => do
      let child ← s.readInode v e.ino
      return (e.ino, child)

/-- `lookupPathFrom` up to the next symlink. A leading slash of what is left is dropped at each
step, and nothing left is the directory itself. -/
def FS.walk : Nat → List Name → Walk
  | cur, [] => .found cur
  | cur, [[]] => .found cur
  | cur, [[], []] => .found cur
  | cur, [] :: name :: rest => step cur name rest (fun i => FS.walk i rest)
  | cur, name :: rest => step cur name rest (fun i => FS.walk i rest)
where
  step (cur : Nat) (name : Name) (rest : List Name) (next : Nat → Walk) : Walk :=
    match s.entryIn v cur name with
    | .error e => .failed e
    | .ok (i, child) =>
        if child.kind = .symlink then
          match s.readSymlink child with
          | .error e => .failed e
          | .ok target => .link cur target rest
        else if rest = [] then .found i else next i

/-- `lookupPathFrom`: a target that starts with a slash is resolved from the root, any other from
the directory of the symlink. -/
def FS.lookupFrom : Nat → Nat → List Name → Except Err Nat
  | hops, cur, names =>
    match s.walk v cur names with
    | .found i => .ok i
    | .failed e => .error e
    | .link dir target rest =>
        match hops with
        | 0 => .error .symlinkLoop
        | left + 1 =>
            let next := components target ++ rest
            FS.lookupFrom left (if next.head? = some [] ∧ 1 < next.length then rootIno else dir) next

def FS.lookupPath (names : List Name) : Except Err (Nat × Inode) := do
  let i ← s.lookupFrom v maxSymlinks rootIno names
  let x ← s.readInode v i
  return (i, x)

def FS.lookupParent (path : Path) : Except Err (Nat × Inode × Name) := do
  let parts := trimSlash (components path)
  if parts = [[]] then throw .invalidPath
  let name := parts.getLastD []
  if name = [] then throw .trailingSlash
  let dirs := parts.dropLast
  let (i, dir) ← if dirs = [] ∨ dirs = [[]] then do
      let x ← s.readInode v rootIno
      pure (rootIno, x)
    else s.lookupPath v ([] :: dirs)
  if dir.kind ≠ .dir then throw .notDir
  return (i, dir, name)

end

end Ext4.Volume
