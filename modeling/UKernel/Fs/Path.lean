import UKernel.Fs.Format

/-! # Paths

`path_parse` takes a path apart, and `search_file` follows its components from the root
directory, opening each directory on the way and closing the one before it. It leaves the
directory at which it stopped open in its record, for its caller to close.
-/

namespace UKernel.Fs

open UKernel.Library

variable {part : Partition}

/-! ## Taking paths apart -/

/-- A string, without its final zero byte. -/
structure CString where
  chars : List Byte
  clean : 0 ∉ chars

/-- The character `/`. -/
def slash : Byte := 0x2f

/-- `path_parse`: the first component of a path, stored into a buffer of `MAX_FILE_NAME_LEN`
bytes that was zero before, and the rest of the path; `none` is the result `NULL`. -/
def pathParse (pathname : List Byte) : Except Fault (List Byte × Option (List Byte)) := do
  let component := pathname.dropWhile (· = slash)
  let nameStore := component.takeWhile (· ≠ slash)
  let rest := component.dropWhile (· ≠ slash)
  if maxFileNameLen < nameStore.length then
    throw .outOfBounds
  return (nameStore, if rest = [] then none else some rest)

/-- The next component of a path, where there is a rest of it. -/
def pathNext : Option (List Byte) → Except Fault (List Byte × Option (List Byte))
  | none => return ([], none)
  | some subPath => pathParse subPath

/-- The loop of `path_depth_cnt`. -/
def depthLoop : Nat → List Byte → Option (List Byte) → Nat → Except Fault Nat
  | 0, _, _, _ => throw .diverges
  | fuel + 1, name, p, depth =>
      if name = [] then return depth
      else do
        let (name, p) ← pathNext p
        depthLoop fuel name p (depth + 1)

/-- `path_depth_cnt`, of a path that has a component; `name` is read before it is written
otherwise. -/
def pathDepthCnt (pathname : List Byte) : Except Fault Nat := do
  let (name, p) ← pathParse pathname
  depthLoop (pathname.length + 2) name p 0

/-- `strrchr(pathname, '/') + 1`. -/
def afterLastSlash (pathname : List Byte) : Except Fault (List Byte) :=
  if slash ∈ pathname then
    return (pathname.reverse.takeWhile (· ≠ slash)).reverse
  else
    throw .badPointer

/-! ## Directories that are open -/

/-- `struct dir`: `root_dir`, or an object with the given `inode`. -/
inductive Dir where
  | root
  | heap (inode : Ptr)
  deriving DecidableEq, Repr

/-- `dir->inode`. -/
def FsState.dirInode (s : FsState part) : Dir → Ptr
  | .root => s.rootDir
  | .heap inode => inode

/-- `dir_open`. -/
def dirOpen (inodeNo : Word) : FsCall part Dir := do
  let inode ← inodeOpen inodeNo
  return .heap inode

/-- `dir_close`. -/
def dirClose : Dir → FsCall part Unit
  | .root => return ()
  | .heap inode => inodeClose inode

/-! ## Searching -/

/-- `MAX_PATH_LEN`. -/
abbrev maxPathLen : Nat := 512

/-- The result `-1`. -/
def notFound : Word := 0xffffffff

/-- `struct path_search_record`. -/
structure PathSearchRecord where
  searchedPath : List Byte
  parentDir : Dir
  fileType : Word

/-- The variables of the loop of `search_file`; of `dir_e` only the inode number is read after
the round that found it. -/
structure Search where
  name : List Byte
  subPath : Option (List Byte)
  inodeNo : Word
  parentInodeNo : Word
  record : PathSearchRecord

/-- The loop of `search_file`. A component that fills the buffer has no end as a string. -/
def searchLoop : Nat → Search → FsCall part (Word × PathSearchRecord)
  | 0, _ => throw .diverges
  | fuel + 1, v =>
      if v.name = [] then do
        dirClose v.record.parentDir
        let parentDir ← dirOpen v.parentInodeNo
        return (v.inodeNo, { v.record with parentDir := parentDir, fileType := ftDirectory })
      else if v.name.length = maxFileNameLen then throw .outOfBounds
      else do
        require (v.record.searchedPath.length < maxPathLen)
        let record := { v.record with searchedPath := v.record.searchedPath ++ slash :: v.name }
        let s ← get
        match ← searchDirEntry (s.dirInode record.parentDir) v.name with
        | none => return (notFound, record)
        | some dirE => do
            let (name, subPath) ← pathNext v.subPath
            if dirE.fType = ftDirectory then
              let parent ← deref (s.dirInode record.parentDir)
              dirClose record.parentDir
              let parentDir ← dirOpen dirE.iNo
              searchLoop fuel {
                name := name
                subPath := subPath
                inodeNo := dirE.iNo
                parentInodeNo := parent.iNo
                record := { record with parentDir := parentDir } }
            else if dirE.fType = ftRegular then
              return (dirE.iNo, { record with fileType := ftRegular })
            else
              searchLoop fuel {
                name := name
                subPath := subPath
                inodeNo := dirE.iNo
                parentInodeNo := v.parentInodeNo
                record := record }

/-- The paths that name the root directory. -/
def rootPaths : List (List Byte) :=
  [[slash], slash :: dot, slash :: dotdot]

/-- `search_file`; `junk` is what `dir_e.i_no` holds before it is written. -/
def searchFile (junk : Word) (pathname : List Byte) : FsCall part (Word × PathSearchRecord) :=
  if pathname ∈ rootPaths then
    return (0, { searchedPath := [], parentDir := .root, fileType := ftDirectory })
  else do
    require (pathname.head? = some slash ∧ 1 < pathname.length ∧ pathname.length < maxPathLen)
    let (name, subPath) ← pathParse pathname
    searchLoop (pathname.length + 2) {
      name := name
      subPath := subPath
      inodeNo := junk
      parentInodeNo := 0
      record := { searchedPath := [], parentDir := .root, fileType := ftUnknown } }

end UKernel.Fs
