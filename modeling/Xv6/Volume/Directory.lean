import Xv6.Volume.Contents

namespace Xv6.Volume

open Data

/-! Directories: files of entries with a number and a name. -/

def DIRSIZ : Nat := 14

/-- Whether strncmp returns 0; a string ends at its first 0. -/
def strncmp : Nat → List UInt8 → List UInt8 → Bool
  | 0, _, _ => true
  | n + 1, p, q =>
    if p.headD 0 ≠ 0 ∧ p.headD 0 = q.headD 0 then strncmp n p.tail q.tail else p.headD 0 = q.headD 0

def namecmp (s t : List UInt8) : Bool := strncmp DIRSIZ s t

/-- `de.name` after strncpy. -/
def nameField (name : List UInt8) : List UInt8 := (name ++ List.replicate DIRSIZ 0).take DIRSIZ

/-- The bytes of a struct dirent. -/
def dirent (inum : Nat) (name : List UInt8) : List UInt8 := word 2 inum ++ nameField name

/-- `sizeof(de)`. -/
def DIRENT : Nat := 16

variable {sb : Superblock}

/-- The loop of dirlookup: the number and the offset of the entry. -/
def dirlookupLoop (dp : Fin sb.ninodes) (name : List UInt8) : Nat → Nat → Kernel sb (Option (Nat × Nat))
  | 0, _ => pure none
  | fuel + 1, off => do
    let v ← get
    if off < (v.inode dp).size.toNat then do
      let reply ← readi dp (.ofNat off) (.ofNat DIRENT)
      match reply with
      | .data de =>
        if de.length ≠ DIRENT then throw .dirlookupRead
        else if value (de.take 2) = 0 then dirlookupLoop dp name fuel (off + DIRENT)
        else if namecmp name (de.drop 2) = true then pure (some (value (de.take 2), off))
        else dirlookupLoop dp name fuel (off + DIRENT)
      | _ => throw .dirlookupRead
    else pure none

/-- Look for a directory entry in a directory. -/
def dirlookup (dp : Fin sb.ninodes) (name : List UInt8) : Kernel sb (Option (Nat × Nat)) := do
  let v ← get
  if (v.inode dp).type = T_DIR then dirlookupLoop dp name ((v.inode dp).size.toNat / DIRENT + 1) 0
  else throw .dirlookup

end Xv6.Volume
