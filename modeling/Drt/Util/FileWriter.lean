import Mathlib.Data.List.Basic

/-!
# Files and their writers

The files of a file system, by their names, and the writer of the generators: it keeps what
is printed in pieces, and writes all of them with the first flush.
-/

open Function

namespace Drt

/-- The names of the files, and their contents. A file that is renamed or removed keeps its
content for those who have it open. -/
structure FileSystem where
  names : String → Option Nat
  data : Nat → List UInt8
  /-- The number of files that have been made. -/
  inodes : Nat
  named_lt : ∀ p i, names p = some i → i < inodes

namespace FileSystem

/-- The content under a name. -/
def read (fs : FileSystem) (p : String) : Option (List UInt8) := (fs.names p).map fs.data

/-- Open for writing: an existing file is truncated. -/
def openTruncate (fs : FileSystem) (p : String) : FileSystem × Nat :=
  match h : fs.names p with
  | some i => ({ fs with data := Function.update fs.data i [] }, i)
  | none =>
    ({ names := Function.update fs.names p (some fs.inodes)
       data := Function.update fs.data fs.inodes []
       inodes := fs.inodes + 1
       named_lt := by
        intro q i hq
        by_cases hqp : q = p
        · rw [hqp, Function.update_self] at hq
          exact Option.some.inj hq ▸ Nat.lt_succ_self fs.inodes
        · rw [Function.update_of_ne hqp] at hq
          exact Nat.lt_succ_of_lt (fs.named_lt q i hq) }, fs.inodes)

/-- Write at an offset; a hole before it is filled with zeros. -/
def write (fs : FileSystem) (i offset : Nat) (content : List UInt8) : FileSystem :=
  let old := fs.data i ++ List.replicate (offset - (fs.data i).length) 0
  { fs with
    data := Function.update fs.data i
      (old.take offset ++ content ++ old.drop (offset + content.length)) }

def unlink (fs : FileSystem) (p : String) : FileSystem :=
  { fs with
    names := Function.update fs.names p none
    named_lt := by
      intro q i hq
      by_cases hqp : q = p
      · simp [hqp] at hq
      · rw [Function.update_of_ne hqp] at hq
        exact fs.named_lt q i hq }

/-- `rename`; without the file nothing happens. -/
def rename (fs : FileSystem) (p q : String) : FileSystem :=
  match h : fs.names p with
  | none => fs
  | some i =>
    { fs with
      names := Function.update (Function.update fs.names p none) q (some i)
      named_lt := by
        intro r j hr
        by_cases hrq : r = q
        · rw [hrq, Function.update_self] at hr
          exact Option.some.inj hr ▸ fs.named_lt p i h
        · rw [Function.update_of_ne hrq] at hr
          by_cases hrp : r = p
          · simp [hrp] at hr
          · rw [Function.update_of_ne hrp] at hr
            exact fs.named_lt r j hr }

section

variable (fs : FileSystem)
include fs

@[simp] theorem names_write (i offset : Nat) (content : List UInt8) :
    (fs.write i offset content).names = fs.names := rfl

@[simp] theorem inodes_write (i offset : Nat) (content : List UInt8) :
    (fs.write i offset content).inodes = fs.inodes := rfl

theorem data_write_of_ne {i j : Nat} (h : j ≠ i) (offset : Nat) (content : List UInt8) :
    (fs.write i offset content).data j = fs.data j :=
  update_of_ne h ..

@[simp] theorem data_unlink (p : String) : (fs.unlink p).data = fs.data := rfl

@[simp] theorem data_rename (p q : String) : (fs.rename p q).data = fs.data := by
  unfold rename
  split <;> rfl

@[simp] theorem inodes_rename (p q : String) : (fs.rename p q).inodes = fs.inodes := by
  unfold rename
  split <;> rfl

theorem names_rename_old {p q : String} (h : p ≠ q) : (fs.rename p q).names p = none := by
  unfold rename
  split
  · assumption
  · simp only [update_of_ne h, update_self]

theorem names_rename_of_ne {p q r : String} (hp : r ≠ p) (hq : r ≠ q) :
    (fs.rename p q).names r = fs.names r := by
  unfold rename
  split
  · rfl
  · simp only [update_of_ne hp, update_of_ne hq]

/-- The file under the new name is the renamed one, or the one that was there. -/
theorem names_rename_new (p q : String) :
    (fs.rename p q).names q = fs.names p ∨ (fs.rename p q).names q = fs.names q := by
  unfold rename
  split
  · exact .inr rfl
  · next i h => exact .inl (by simp only [update_self, h])

theorem names_openTruncate_of_ne {p q : String} (h : q ≠ p) :
    (fs.openTruncate p).1.names q = fs.names q := by
  unfold openTruncate
  split
  · rfl
  · simp only [update_of_ne h]

theorem names_openTruncate (p : String) :
    (fs.openTruncate p).1.names p = some (fs.openTruncate p).2 := by
  unfold openTruncate
  split
  · assumption
  · simp only [update_self]

/-- The file that is opened is the one of that name, or a new one. -/
theorem openTruncate_inode (p : String) :
    fs.names p = some (fs.openTruncate p).2 ∨ (fs.openTruncate p).2 = fs.inodes := by
  unfold openTruncate
  split
  · exact .inl (by assumption)
  · exact .inr rfl

theorem data_openTruncate_of_ne (p : String) {i : Nat} (h : i ≠ (fs.openTruncate p).2) :
    (fs.openTruncate p).1.data i = fs.data i := by
  unfold openTruncate at h ⊢
  split at h
  · exact update_of_ne h ..
  · exact update_of_ne h ..

theorem inodes_openTruncate (p : String) : fs.inodes ≤ (fs.openTruncate p).1.inodes := by
  unfold openTruncate
  split
  · exact Nat.le_refl _
  · exact Nat.le_succ _

end

end FileSystem

/-- Where a writer writes: to an open file at an offset, or to a string. -/
inductive RealFd where
  | file (inode offset : Nat)
  | string (content : List UInt8)
  deriving DecidableEq, Repr

/-- The piece that is printed last: the last one of the list, one that is on no list, or
undefined. -/
inductive Current where
  | last
  | loose
  | undef
  deriving DecidableEq, Repr

/-- `FileWriter`. -/
structure FileWriter where
  realfd : RealFd
  pieces : List (List UInt8)
  current : Current
  deriving DecidableEq, Repr

namespace FileWriter

def new (realfd : RealFd) : FileWriter := ⟨realfd, [[]], .last⟩

/-- `print`. After a flush the new piece is on no list. -/
def print (w : FileWriter) (content : List UInt8) : FileWriter :=
  match w.current with
  | .last => { w with pieces := w.pieces ++ [content] }
  | .loose | .undef => { w with current := .loose }

/-- What the contexts of a writer do: they change its pieces. -/
def edit (w : FileWriter) (pieces : List (List UInt8)) : FileWriter := { w with pieces := pieces }

/-- `flush`: all pieces are written, also those of an earlier flush. -/
def flush (w : FileWriter) (fs : FileSystem) : FileSystem × FileWriter :=
  if w.current = .undef then (fs, w)
  else
    match w.realfd with
    | .file i offset =>
      (fs.write i offset w.pieces.flatten,
        { w with realfd := .file i (offset + w.pieces.flatten.length), current := .undef })
    | .string content =>
      (fs, { w with realfd := .string (content ++ w.pieces.flatten), current := .undef })

/-- All of a string, after `seek` to its start. -/
def content (w : FileWriter) : List UInt8 :=
  match w.realfd with
  | .file _ _ => []
  | .string content => content

/-- The file that a writer has open. -/
def inode (w : FileWriter) : Option Nat :=
  match w.realfd with
  | .file i _ => some i
  | .string _ => none

section

variable (w : FileWriter)
include w

@[simp] theorem inode_print (content : List UInt8) : (w.print content).inode = w.inode := by
  unfold print
  split <;> rfl

@[simp] theorem inode_edit (pieces : List (List UInt8)) : (w.edit pieces).inode = w.inode := rfl

@[simp] theorem inode_flush (fs : FileSystem) : (w.flush fs).2.inode = w.inode := by
  unfold flush
  split
  · rfl
  · split <;> simp [inode, *]

@[simp] theorem names_flush (fs : FileSystem) : (w.flush fs).1.names = fs.names := by
  unfold flush
  split
  · rfl
  · split <;> rfl

@[simp] theorem inodes_flush (fs : FileSystem) : (w.flush fs).1.inodes = fs.inodes := by
  unfold flush
  split
  · rfl
  · split <;> rfl

theorem data_flush (fs : FileSystem) {i : Nat} (h : w.inode ≠ some i) :
    (w.flush fs).1.data i = fs.data i := by
  unfold flush
  split
  · rfl
  · split
    · next j offset hfd =>
      refine fs.data_write_of_ne (fun hij => h ?_) _ _
      rw [inode, hfd, hij]
    · rfl

end

end FileWriter

end Drt
