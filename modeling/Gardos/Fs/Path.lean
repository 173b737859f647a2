import Gardos.Fs.Dir

/-!
# Paths (`fs/fs.c`, first part)

A path is its bytes, without the terminating NUL. `pathParse` splits off the first component,
`searchFile` walks a path from the root directory, closing each directory when it enters the next.

Two local variables are read before they are written: `name` in `path_depth_cnt`, when the path
has no component, and `dir_e` in `search_file`, when the path consists of slashes. Their values
are a parameter (`Uninit`). The buffer `name` has 16 bytes; a component that does not fit runs over
it, which is a fault here.
-/

namespace Gardos.Fs

open Bytes Outcome

/-- What the source finds in variables it has not initialised. -/
structure Uninit where
  /-- `dir_e.i_no` in `search_file`. -/
  iNo : ℕ
  /-- Whether `name[0]` in `path_depth_cnt` differs from 0. -/
  name0 : Bool

/-- `'/'`. -/
def slash : UInt8 := 47

/-- `path_parse`: the first component, and the rest of the path unless it is empty. -/
def pathParse (pathname : List UInt8) : List UInt8 × Option (List UInt8) :=
  let pathname := pathname.dropWhile (· = slash)
  let rest := pathname.dropWhile (· ≠ slash)
  (pathname.takeWhile (· ≠ slash), if rest = [] then none else some rest)

/-- The loop of `path_depth_cnt`, entered with a component in `name` and the rest of the path in
`p`. -/
def depthLoop : (fuel : ℕ) → (p : Option (List UInt8)) → Outcome ℕ
  | 0, _ => throw .hang
  | _ + 1, none => return 1
  | fuel + 1, some p => do
    let (name, p) := pathParse p
    access (name.length ≤ 16)
    if name = [] then
      return 1
    return (← depthLoop fuel p) + 1

/-- `path_depth_cnt`. -/
def pathDepthCnt (uninit : Uninit) (pathname : List UInt8) : Outcome ℕ := do
  let (name, p) := pathParse pathname
  access (name.length ≤ 16)
  if name = [] ∧ uninit.name0 = false then
    return 0
  depthLoop (pathname.length + 1) p

/-- `struct path_search_record`. -/
structure PathSearchRecord where
  searchedPath : List UInt8
  parentDir : DirPtr
  fileType : FileTypes

/-- An inode number as the `int` that `search_file` returns, with `none` for `-1`. -/
def retNo (iNo : ℕ) : Option ℕ := if iNo = 4294967295 then none else some iNo

/-- The next component, if there is a rest to parse. -/
def nextName : Option (List UInt8) → List UInt8 × Option (List UInt8)
  | none => ([], none)
  | some p => pathParse p

/-- The loop of `search_file`, and what follows it when the whole path has been walked. The
counter `fuel` bounds the rounds; each consumes a byte of the path. -/
def searchLoop : (fuel : ℕ) → FileSys → (name : List UInt8) → (subPath : Option (List UInt8)) →
    PathSearchRecord → (parentInodeNo iNo : ℕ) → Outcome (Option ℕ × PathSearchRecord × FileSys)
  | 0, _, _, _, _, _, _ => throw .hang
  | fuel + 1, s, name, subPath, record, parentInodeNo, iNo => do
    if name = [] then
      let (parentDir, s) ← dirOpen (dirClose s record.parentDir) parentInodeNo
      return (retNo iNo, { record with parentDir := parentDir, fileType := .directory }, s)
    assert (record.searchedPath.length < 512)
    let record := { record with searchedPath := record.searchedPath ++ slash :: name }
    let dirInode := s.inodes (s.dirInode record.parentDir)
    match searchDirEntry s.part.disk dirInode name with
    | none => return (none, record, s)
    | some dirE =>
      let (name, subPath) := nextName subPath
      access (name.length < 16)
      if dirE.fType = FileTypes.directory.code then
        let (parentDir, s) ← dirOpen (dirClose s record.parentDir) dirE.iNo
        searchLoop fuel s name subPath { record with parentDir := parentDir } dirInode.iNo dirE.iNo
      else if dirE.fType = FileTypes.regular.code then
        return (retNo dirE.iNo, { record with fileType := .regular }, s)
      else
        searchLoop fuel s name subPath record parentInodeNo dirE.iNo

/-- The paths `"/"`, `"/."` and `"/.."`. -/
def isRootPath (pathname : List UInt8) : Bool :=
  pathname = [slash] || pathname = slash :: dot || pathname = slash :: dotDot

/-- `search_file`: the inode number, or `none` for `-1`. -/
def searchFile (s : FileSys) (uninit : Uninit) (pathname : List UInt8) :
    Outcome (Option ℕ × PathSearchRecord × FileSys) := do
  if isRootPath pathname then
    return (some 0, { searchedPath := [], parentDir := .rootDir, fileType := .directory }, s)
  assert (pathname.head? = some slash ∧ 1 < pathname.length ∧ pathname.length < 512)
  let (name, subPath) := pathParse pathname
  access (name.length < 16)
  searchLoop (pathname.length + 1) s name subPath
    { searchedPath := [], parentDir := .rootDir, fileType := .unknown } 0 uninit.iNo

end Gardos.Fs
