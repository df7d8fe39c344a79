import OpenV.FileServer.Memory

/- The archive that the system starts from, as the kernel and the file server read it:
   `kernel_initrd_lookup` (`src/initrd.rs`), which goes through the headers for every
   file it loads, and `scan_initrd` (`user/vfs-server/src/main.rs`), which goes through
   them once and enters what it finds in the tree of the first namespace. -/
namespace OpenV.FileServer
open OpenV.Vfs (parentAndName fromUtf8 nameBytes divCeil)

/-! ## Headers -/

/-- The 512 bytes of a header. -/
abbrev Header := Nat → BitVec 8

/-- The header at an offset. -/
def headerAt (a : Vfs.Bytes) (offset : Nat) : Header := fun i => a.get (offset + i)

/-- `header.iter().all(|&b| b == 0)` -/
def Header.isZero (h : Header) : Bool := (List.range 512).all fun i => h i = 0#8

/-- The name up to the first zero, at most 100 bytes. -/
def Header.name (h : Header) : List (BitVec 8) := ((List.range 100).map h).takeWhile (· ≠ 0#8)

def Header.typeFlag (h : Header) : BitVec 8 := h 156

def isOctal (b : BitVec 8) : Bool := 0x30#8 ≤ b && b ≤ 0x37#8

/-- The size as the kernel reads it, from 11 bytes. -/
def Header.kernelSize (h : Header) : Nat :=
  ((List.range 11).map fun i => h (124 + i)).foldl (fun size b => if isOctal b then size * 8 + (b.toNat - 0x30) else size) 0

/-- `octal_to_usize`. -/
def octalToUsize (bytes : List (BitVec 8)) : Nat :=
  (bytes.takeWhile fun b => b ≠ 0#8 && b ≠ 0x20#8).foldl
    (fun v b => if isOctal b then v * 8 + (b.toNat - 0x30) else v) 0

/-- The size as the file server reads it, from 12 bytes. -/
def Header.size (h : Header) : Nat := octalToUsize ((List.range 12).map fun i => h (124 + i))

/-- A regular file, by its type. -/
def Header.isRegular (h : Header) : Bool := h.typeFlag = 0x30#8 || h.typeFlag = 0#8

/-- The next header, behind the data. -/
def nextHeader (offset size : Nat) : Nat := offset + 512 + divCeil size 512 * 512

/-- `rsplit('/').next()`. -/
def baseName (cs : List Char) : List Char := (cs.reverse.takeWhile (· ≠ '/')).reverse

/-- `trim_end_matches('/')`. -/
def trimEnd (cs : List Char) : List Char := (cs.reverse.dropWhile (· = '/')).reverse

/-! ## The kernel -/

/-- `trim_start_matches("./")`. -/
def trimDotSlash : List Char → List Char
  | '.' :: '/' :: cs => trimDotSlash cs
  | cs => cs

/-- The name without `./` and `/` in front. -/
def cleanName (cs : List Char) : List Char := (trimDotSlash cs).dropWhile (· = '/')

/-- A part of the archive. -/
structure Extent where
  offset : Nat
  size : Nat
  deriving DecidableEq, Repr

/-- The loop of `kernel_initrd_lookup` from `offset` on. -/
def kernelScan (a : Vfs.Bytes) (target : List Char) : Nat → Nat → Option Extent
  | 0, _ => none
  | fuel + 1, offset =>
    if a.len < offset + 512 then none
    else
      let h := headerAt a offset
      if h.isZero then none
      else
        let clean := cleanName ((fromUtf8 h.name).getD "").toList
        if h.isRegular ∧ ['.', '_'].isPrefixOf (baseName clean) = false ∧ clean = target then
          if a.len < offset + 512 + h.kernelSize then none else some ⟨offset + 512, h.kernelSize⟩
        else kernelScan a target fuel (nextHeader offset h.kernelSize)

/-- `kernel_initrd_lookup`: where the contents are. -/
def kernelInitrdLookup (a : Vfs.Bytes) (path : String) : Option Extent :=
  kernelScan a (path.toList.dropWhile (· = '/')) (a.len / 512) 0

/-! ## The file server -/

/-- `initrd_read`, with `sys_initrd_data`: how many bytes are copied. -/
def initrdRead (a : Vfs.Bytes) (len offset : Nat) : Nat :=
  if a.len ≤ offset then 0 else min (min len (a.len - offset)) 4096

/-- `tar_name_to_path`. -/
def tarNameToPath (cs : List Char) : List Char :=
  let name := trimEnd cs
  let name := if ['.', '/'].isPrefixOf name then name.drop 2 else name
  let name := if name = ['.'] then [] else name
  if name = [] then ['/']
  else if name.head? = some '/' then name
  else '/' :: name

/-- `insert_tar_file`. -/
def Vfs.insertTarFile (v : Vfs) (path : String) (tarOffset size : Nat) : Vfs :=
  match v.entry (normalizePath path) with
  | some (parent, name) =>
    let v' := if (v.nodes (normalizePath path)).isSome then v else v.push parent name
    v'.insert (normalizePath path) (.tarFile tarOffset size)
  | none => v

namespace Server
variable {β : Type}

/-- The part of a path before its last slash, unless that is at the front. -/
def parentPath (path : String) : Option String :=
  let before := ((path.toList.reverse.dropWhile (· ≠ '/')).drop 1).reverse
  if before = [] then none else some (String.ofList before)

/-- `mkdir_all`. -/
def mkdirAll (F : BlockFs β) (nsId : BitVec 32) : Nat → String → Cmd (Server β) Unit
  | 0, _ => pure ()
  | fuel + 1, path => do
    let v ← nsVfs nsId
    if path = "/" then pure ()
    else if ← pathExists F v path then pure ()
    else do
      Cmd.forSome (parentPath path) (mkdirAll F nsId fuel)
      let v ← nsVfs nsId
      if ← pathExists F v path then pure ()
      else do
        let _ ← mkdir F nsId path
        pure ()

/-- What the entry of a header is for the file server. -/
inductive TarEntry where
  /-- the header is passed over, and its data is taken for the next one -/
  | headerOnly
  | ignored
  | dir (path : String)
  | file (path : String)
  deriving DecidableEq

/-- The tests of `scan_initrd` on a header. -/
def tarEntry (h : Header) : TarEntry :=
  match fromUtf8 h.name with
  | none => .headerOnly
  | some name =>
    let cs := name.toList
    if cs = [] then .headerOnly
    else if ['.', '_'].isPrefixOf (baseName (trimEnd cs)) then .ignored
    else
      let path := tarNameToPath cs
      if path = ['/'] then .headerOnly
      else if path = "/proc".toList ∨ "/proc/".toList.isPrefixOf path ∨ path = "/dev".toList ∨
          "/dev/".toList.isPrefixOf path then .ignored
      else if h.typeFlag = 0x35#8 ∨ (h.isRegular ∧ h.size = 0 ∧ cs.getLast? = some '/') then .dir (String.ofList path)
      else if h.isRegular ∧ cs.getLast? ≠ some '/' then .file (String.ofList path)
      else .ignored

/-- The entry of a header goes into the tree of the first namespace. -/
def enter (F : BlockFs β) (h : Header) (offset : Nat) : Cmd (Server β) Unit :=
  match tarEntry h with
  | .dir path => mkdirAll F 1 path.length path
  | .file path => do
    mkdirAll F 1 path.length ((parentPath path).getD "/")
    let v ← nsVfs 1
    setNs 1 (v.insertTarFile path (offset + 512) h.size)
  | _ => pure ()

/-- The loop of `scan_initrd` from `offset` on, after a zero block if `empty` is set. -/
def scanFrom (F : BlockFs β) (a : Vfs.Bytes) : Nat → Nat → Bool → Cmd (Server β) Unit
  | 0, _, _ => pure ()
  | fuel + 1, offset, empty =>
    if initrdRead a 512 offset < 512 then pure ()
    else
      let h := headerAt a offset
      if h.isZero then
        if empty then pure () else scanFrom F a fuel (offset + 512) true
      else do
        enter F h offset
        scanFrom F a fuel (if tarEntry h = .headerOnly then offset + 512 else nextHeader offset h.size) false

/-- `scan_initrd`. -/
def scanInitrd (F : BlockFs β) (a : Vfs.Bytes) : Cmd (Server β) Unit := scanFrom F a (a.len / 512) 0 false

/-- A name that the root directory is given if it does not have it. -/
def addBuiltin (name : String) (v : Vfs) : Vfs :=
  match v.children "/" with
  | some children => if name ∈ children then v else v.push "/" name
  | none => v

/-- What `main` does before it takes requests. -/
def boot (F : BlockFs β) (a : Vfs.Bytes) : Cmd (Server β) Unit := do
  scanInitrd F a
  mkdirAll F 1 4 "/tmp"
  mkdirAll F 1 11 "/home/guest"
  let v ← nsVfs 1
  setNs 1 (addBuiltin "dev" (addBuiltin "proc" v))

end Server
end OpenV.FileServer
