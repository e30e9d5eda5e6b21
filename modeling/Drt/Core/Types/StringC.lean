import Drt.Core.Types.StrData
import Mathlib.Tactic.Ring

/-!
# Strings that share their data

The operations of `String_c`. A string points to data that it may share with others; what
changes characters works in place where no other string has the data and there is room, and on
a copy elsewhere. Data are numbered as they are allocated, and the numbers of freed ones are
not used again.
-/

namespace Drt

/-- The data that have been allocated, as long as they are not freed, and the strings that have
been constructed, with their data until they are destroyed. -/
structure Strings (c : CharSize) where
  cells : List (Option (StrData c))
  strs : List (Option Nat)

/-- The number of `StrData_c::null`. -/
def nullData : Nat := 0

/-- The number of `StrData_c::zero`. -/
def zeroData : Nat := 1

namespace Strings

variable {c : CharSize}

/-- Before any string is constructed. -/
def initial (c : CharSize) : Strings c := ⟨[some .null, some .zero], []⟩

/-- The live data with a number. -/
def cell (s : Strings c) (a : Nat) : Option (StrData c) := s.cells[a]?.join

def load (s : Strings c) (a : Nat) : Call (StrData c) := Outcome.ofOption (s.cell a)

def put (s : Strings c) (a : Nat) (x : Option (StrData c)) : Strings c :=
  { s with cells := s.cells.set a x }

/-- The member `d` of a string. -/
def data (s : Strings c) (x : Nat) : Call Nat := Outcome.ofOption s.strs[x]?.join

def setData (s : Strings c) (x a : Nat) : Strings c := { s with strs := s.strs.set x (some a) }

/-- A new string with these data: `String_c(Data *)`. -/
def push (s : Strings c) (a : Nat) : Strings c := { s with strs := s.strs ++ [some a] }

def refDg (a : Nat) (s : Strings c) : Call (Strings c) := do
  let d ← s.load a
  .ok (s.put a (some { d with refcnt := d.refcnt + 1 }))

/-- `unrefDg`, with `Atomic::decr` and `freeDg`. -/
def unrefDg (a : Nat) (s : Strings c) : Call (Strings c) := do
  let d ← s.load a
  if 0 < d.refcnt then .ok (s.put a (some { d with refcnt := d.refcnt - 1 }))
  else if 0 < d.al then .ok (s.put a none)
  else .fault

def i_setDoref (x a : Nat) (s : Strings c) : Call (Strings c) := do
  let d ← s.data x
  let s ← s.refDg a
  let s ← s.unrefDg d
  .ok (s.setData x a)

def i_setNoref (x a : Nat) (s : Strings c) : Call (Strings c) := do
  let d ← s.data x
  let s ← s.unrefDg d
  .ok (s.setData x a)

/-- `String_c()` and `String_c(const Null &)`, `String_c(const String_c &)`: a new string with
data that are there. -/
def initD (a : Nat) (s : Strings c) : Call (Strings c) := do
  let s ← s.refDg a
  .ok (s.push a)

def initS (y : Nat) (s : Strings c) : Call (Strings c) := do
  let d ← s.data y
  s.initD d

/-- `~String_c`. -/
def destroy (x : Nat) (s : Strings c) : Call (Strings c) := do
  let d ← s.data x
  let s ← s.unrefDg d
  .ok { s with strs := s.strs.set x none }

/-- `operator=`, `copyS`. -/
def copyS (x y : Nat) (s : Strings c) : Call (Strings c) := do
  let d ← s.data y
  s.i_setDoref x d

def setNull (x : Nat) (s : Strings c) : Call (Strings c) := s.i_setDoref x nullData

def setEmpty (x : Nat) (s : Strings c) : Call (Strings c) := s.i_setDoref x zeroData

/-- A size as a `ssize_t`. -/
def ssize (n : Nat) : Int := (BitVec.ofNat 64 n).toInt

/-- `reallocSelf` leaves the data as they are: no other string has them, and there is room for so
many characters and a zero. -/
def fits (d : StrData c) (newcsize : Nat) : Prop :=
  d.refcnt = 0 ∧ newcsize < (BitVec.ofInt 64 d.al).toNat

instance (d : StrData c) (newcsize : Nat) : Decidable (fits d newcsize) :=
  inferInstanceAs (Decidable (_ ∧ _))

/-- Data for `size` characters and a zero have room for the longs of `count` ones and a zero. -/
def holds (c : CharSize) (size count : Nat) : Prop :=
  StrData.roundsize c (count + 1) ≤ StrData.roundsize c (size + 1)

instance (c : CharSize) (size count : Nat) : Decidable (holds c size count) :=
  inferInstanceAs (Decidable (_ ≤ _))

/-- The hash value of data is computed if it was not. -/
def rehash (a : Nat) (s : Strings c) : Call (Strings c) := do
  let d ← s.load a
  if d.hash < 0 then .ok (s.put a (some d.updateHash)) else .ok s

def getHash (x : Nat) (s : Strings c) : Call (Int × Strings c) := do
  let a ← s.data x
  let s ← s.rehash a
  let d ← s.load a
  .ok (d.hash, s)

def beq (x y : Nat) (s : Strings c) : Call (Bool × Strings c) := do
  let fd ← s.data x
  let sd ← s.data y
  let s ← s.rehash fd
  let s ← s.rehash sd
  let f ← s.load fd
  let t ← s.load sd
  .ok (decide (f.hash = t.hash ∧ (fd = sd ∨ f.size = t.size ∧ f.content = t.content)), s)

/-- The caller of `lock` writes a character. -/
def write (x i : Nat) (ch : StrChar c) (s : Strings c) : Call (Strings c) := do
  let a ← s.data x
  let d ← s.load a
  if i < d.al then .ok (s.put a (some { d with mem := Function.update d.mem i ch })) else .fault

/-- `unlock()`. -/
def unlockSame (x : Nat) (s : Strings c) : Call (Strings c) := do
  let a ← s.data x
  let d ← s.load a
  if d.refcnt = 0 then .ok s else .fault

/-- What the other `unlock` functions do when the size changes to another one than zero. -/
def resize (d : StrData c) (size : Nat) : StrData c :=
  (StrData.padzeroes { d with size := size }).changed

/-- The common part of `unlock(size)` and `unlockZ`. -/
def unlockTo (x size : Nat) (s : Strings c) : Call (Strings c) := do
  let a ← s.data x
  let d ← s.load a
  if d.size = size then .ok s
  else if size = 0 then (s.put a (some { d with size := 0 })).i_setDoref x zeroData
  else .ok (s.put a (some (resize d size)))

def unlock (x size : Nat) (s : Strings c) : Call (Strings c) := do
  let a ← s.data x
  let d ← s.load a
  if d.refcnt = 0 ∧ size < d.al then s.unlockTo x size else .fault

def unlockAppend (x size : Nat) (s : Strings c) : Call (Strings c) := do
  let a ← s.data x
  let d ← s.load a
  if d.refcnt = 0 ∧ (d.size + size : Nat) < d.al then
    if size = 0 then .ok s else .ok (s.put a (some (resize d (d.size + size))))
  else .fault

/-- `zlen` of the memory of data. -/
def zlen (d : StrData c) : Option Nat :=
  (List.range (StrData.roundsize c d.al.toNat)).find? fun i => d.mem i = 0

def unlockZ (x : Nat) (s : Strings c) : Call (Strings c) := do
  let a ← s.data x
  let d ← s.load a
  if d.refcnt = 0 then do
    let size ← Outcome.ofOption (zlen d)
    s.unlockTo x size
  else .fault

section Allocating

-- What the memory that is allocated for the data with a number holds before.
variable (garbage : Nat → Nat → StrChar c)

/-- New data, and what is written into their memory. -/
def newData (al size : Nat) (fill : (Nat → StrChar c) → Nat → StrChar c) (s : Strings c) :
    Call (Nat × Strings c) :=
  let n := StrData.allocDg (garbage s.cells.length) al size
  .ok (s.cells.length, { s with cells := s.cells ++ [some { n with mem := fill n.mem }] })

/-- `createDgLen`: data with the characters `src[start..start+size]`. -/
def createDgLen (src : Nat → StrChar c) (start size : Nat) (s : Strings c) :
    Call (Nat × Strings c) :=
  if size = 0 then do
    let s ← s.refDg zeroData
    .ok (zeroData, s)
  else s.newData garbage (size + 1) size fun mem => StrData.pcopy mem 0 src start size

/-- A new string with these characters: `initLen`, and the strings that are returned. -/
def initSub (src : Nat → StrChar c) (start size : Nat) (s : Strings c) : Call (Strings c) := do
  let (a, s) ← s.createDgLen garbage src start size
  .ok (s.push a)

def initLen (l : List (StrChar c)) (s : Strings c) : Call (Strings c) :=
  s.initSub garbage (StrData.charsOf l) 0 l.length

/-- `initZ`, of the characters before the zero. -/
def initZ (l : List (StrChar c)) (s : Strings c) : Call (Strings c) :=
  s.initLen garbage (l.takeWhile (· ≠ 0))

/-- A string gets these characters: `copyLen`, and the functions that remove some. -/
def copySub (x : Nat) (src : Nat → StrChar c) (start size : Nat) (s : Strings c) :
    Call (Strings c) := do
  let (a, s) ← s.createDgLen garbage src start size
  s.i_setNoref x a

def copyLen (x : Nat) (l : List (StrChar c)) (s : Strings c) : Call (Strings c) :=
  s.copySub garbage x (StrData.charsOf l) 0 l.length

def copyZ (x : Nat) (l : List (StrChar c)) (s : Strings c) : Call (Strings c) :=
  s.copyLen garbage x (l.takeWhile (· ≠ 0))

/-- `reallocSelfDo`. The size it would like to have reserved comes after the allocation. -/
def reallocSelfDo (x newcsize : Nat) (s : Strings c) : Call (Strings c) := do
  let a ← s.data x
  let d ← s.load a
  let (cr, s) ← s.newData garbage (newcsize + 1) d.size fun mem =>
    StrData.pcopy mem 0 d.mem 0 d.size
  s.i_setNoref x cr

def reallocSelf (x newcsize : Nat) (s : Strings c) : Call (Strings c) := do
  let a ← s.data x
  let d ← s.load a
  if fits d newcsize then .ok s else s.reallocSelfDo garbage x newcsize

/-- `append(const String_c &)`. The data of the other string are read after `reallocSelf`. -/
def append (x y : Nat) (s : Strings c) : Call (Strings c) := do
  let sd ← s.data y
  let a ← s.data x
  let n ← s.load sd
  let d ← s.load a
  if n.size = 0 then .ok s
  else if d.size = 0 then s.i_setDoref x sd
  else do
    let s ← s.reallocSelf garbage x (d.size + n.size)
    let a ← s.data x
    let n ← s.load sd
    let d ← s.load a
    .ok (s.put a (some (d.appendMem n.mem n.size)))

/-- `append(const TC *, size_t)`. -/
def appendLen (x : Nat) (l : List (StrChar c)) (s : Strings c) : Call (Strings c) :=
  if l = [] then .ok s
  else do
    let a ← s.data x
    let d ← s.load a
    let s ← s.reallocSelf garbage x (d.size + l.length)
    let a ← s.data x
    let d ← s.load a
    .ok (s.put a (some (d.appendMem (StrData.charsOf l) l.length)))

/-- `appendAscii`: a character of type `char` is signed. -/
def appendAscii (x : Nat) (l : List UInt8) (s : Strings c) : Call (Strings c) :=
  s.appendLen garbage x (l.map fun ch => ch.toBitVec.signExtend c.bits)

def appendReverse (x : Nat) (l : List (StrChar c)) (s : Strings c) : Call (Strings c) :=
  if l = [] then .ok s
  else do
    let a ← s.data x
    let d ← s.load a
    let (out, s) ← s.newData garbage (d.size + l.length + 1) (d.size + l.length) fun mem =>
      Function.update (StrData.pcopy (StrData.pcopy mem 0 d.mem 0 d.size) d.size
        (StrData.charsOf l.reverse) 0 l.length) (d.size + l.length) 0
    s.i_setNoref x out

/-- The copy that `lock` and `lockKeep` make. All of the former data is copied, a `long` at a
time. -/
def lockCopy (x size newSize : Nat) (d : StrData c) (s : Strings c) : Call (Strings c) :=
  if holds c size d.size then do
    let (n, s) ← s.newData garbage (size + 1) newSize fun mem =>
      StrData.pcopy mem 0 d.mem 0 (StrData.roundsize c (d.size + 1))
    s.i_setNoref x n
  else .fault

/-- `lock`. The `long` at the former size is written to. -/
def lock (x size : Nat) (s : Strings c) : Call (Strings c) := do
  let a ← s.data x
  let d ← s.load a
  if 0 < d.refcnt ∨ d.al ≤ ssize size then s.lockCopy garbage x size size d
  else if d.size = size then .ok s
  else if d.size < StrData.roundsize c d.al.toNat then
    .ok (s.put a (some { d.padzeroes with size := size }))
  else .fault

def lockKeep (x size : Nat) (s : Strings c) : Call (Strings c) := do
  let a ← s.data x
  let d ← s.load a
  if 0 < d.refcnt ∨ d.al ≤ ssize size then s.lockCopy garbage x size d.size d else .ok s

/-- `operator+`. -/
def plus (x y : Nat) (s : Strings c) : Call (Strings c) := do
  let fd ← s.data x
  let sd ← s.data y
  let f ← s.load fd
  let n ← s.load sd
  if f.size = 0 then s.initD sd
  else if n.size = 0 then s.initD fd
  else do
    let (out, s) ← s.newData garbage (f.size + n.size + 1) (f.size + n.size) fun mem =>
      Function.update (StrData.pcopy (StrData.pcopy mem 0 f.mem 0 f.size) f.size n.mem 0 n.size)
        (f.size + n.size) 0
    .ok (s.push out)

def left (x length : Nat) (s : Strings c) : Call (Strings c) := do
  let a ← s.data x
  let d ← s.load a
  if d.size < length then s.initD a else s.initSub garbage d.mem 0 length

/-- `mid(pos)`. -/
def mid (x pos : Nat) (s : Strings c) : Call (Strings c) := do
  let a ← s.data x
  let d ← s.load a
  if d.size ≤ pos then s.initD zeroData else s.initSub garbage d.mem pos (d.size - pos)

/-- `mid(pos, length)`. -/
def midLen (x pos length : Nat) (s : Strings c) : Call (Strings c) := do
  let a ← s.data x
  let d ← s.load a
  if d.size ≤ pos then s.initD zeroData
  else s.initSub garbage d.mem pos (min length (d.size - pos))

def right (x size : Nat) (s : Strings c) : Call (Strings c) := do
  let a ← s.data x
  let d ← s.load a
  if d.size ≤ size then s.initD a else s.initSub garbage d.mem (d.size - size) size

def cleanGet (x : Nat) (s : Strings c) : Call (Strings c) := do
  let a ← s.data x
  let s ← s.refDg zeroData
  .ok ((s.setData x zeroData).push a)

def removeLeft (x size : Nat) (s : Strings c) : Call (Strings c) :=
  if size = 0 then .ok s
  else do
    let a ← s.data x
    let d ← s.load a
    s.copySub garbage x d.mem (min size d.size) (d.size - min size d.size)

/-- `removeMid(pos)`. -/
def removeFrom (x pos : Nat) (s : Strings c) : Call (Strings c) := do
  let a ← s.data x
  let d ← s.load a
  s.copySub garbage x d.mem 0 (min pos d.size)

/-- `removeMid(pos, size)`. -/
def removeMid (x pos size : Nat) (s : Strings c) : Call (Strings c) := do
  let a ← s.data x
  let d ← s.load a
  let pos := min pos d.size
  let size := min size (d.size - pos)
  let (out, s) ← s.newData garbage (d.size - size + 1) (d.size - size) fun mem =>
    StrData.zeroLong (StrData.pcopy (StrData.pcopy mem 0 d.mem 0 pos) pos d.mem (pos + size)
      (d.size - (pos + size))) (d.size - size)
  s.i_setNoref x out

def removeRight (x size : Nat) (s : Strings c) : Call (Strings c) := do
  let a ← s.data x
  let d ← s.load a
  s.copySub garbage x d.mem 0 (d.size - size)

end Allocating

end Strings

/-- The operations. -/
inductive StringOp (c : CharSize) where
  | new
  | newNull
  | newCopy (y : Nat)
  | newLen (l : List (StrChar c))
  | newZ (l : List (StrChar c))
  | destroy (x : Nat)
  | copyS (x y : Nat)
  | copyLen (x : Nat) (l : List (StrChar c))
  | copyZ (x : Nat) (l : List (StrChar c))
  | setNull (x : Nat)
  | setEmpty (x : Nat)
  | append (x y : Nat)
  | appendLen (x : Nat) (l : List (StrChar c))
  | appendAscii (x : Nat) (l : List UInt8)
  | appendReverse (x : Nat) (l : List (StrChar c))
  | lock (x size : Nat)
  | lockKeep (x size : Nat)
  | write (x i : Nat) (ch : StrChar c)
  | unlockSame (x : Nat)
  | unlock (x size : Nat)
  | unlockAppend (x size : Nat)
  | unlockZ (x : Nat)
  | getHash (x : Nat)
  | beq (x y : Nat)
  | plus (x y : Nat)
  | left (x length : Nat)
  | mid (x pos : Nat)
  | midLen (x pos length : Nat)
  | right (x size : Nat)
  | cleanGet (x : Nat)
  | removeLeft (x size : Nat)
  | removeFrom (x pos : Nat)
  | removeMid (x pos size : Nat)
  | removeRight (x size : Nat)

/-- The string whose data an operation locks, writes to or unlocks. -/
def StringOp.locking {c : CharSize} : StringOp c → Option Nat
  | .lock x _ => some x
  | .lockKeep x _ => some x
  | .write x _ _ => some x
  | .unlockSame x => some x
  | .unlock x _ => some x
  | .unlockAppend x _ => some x
  | .unlockZ x => some x
  | _ => none

/-- The size that a lock is asked for. -/
def StringOp.lockSize {c : CharSize} : StringOp c → Nat
  | .lock _ size => size
  | .lockKeep _ size => size
  | _ => 0

/-- Locks are asked for sizes that memory can have. -/
def StringOp.Sized {c : CharSize} (op : StringOp c) : Prop := op.lockSize < 2 ^ 63

instance {c : CharSize} (op : StringOp c) : Decidable op.Sized :=
  inferInstanceAs (Decidable (_ < _))

/-- An operation on the strings; the strings it returns are new ones. -/
def Strings.apply {c : CharSize} (garbage : Nat → Nat → StrChar c) (s : Strings c) :
    StringOp c → Call (Strings c)
  | .new => s.initD zeroData
  | .newNull => s.initD nullData
  | .newCopy y => s.initS y
  | .newLen l => s.initLen garbage l
  | .newZ l => s.initZ garbage l
  | .destroy x => s.destroy x
  | .copyS x y => s.copyS x y
  | .copyLen x l => s.copyLen garbage x l
  | .copyZ x l => s.copyZ garbage x l
  | .setNull x => s.setNull x
  | .setEmpty x => s.setEmpty x
  | .append x y => s.append garbage x y
  | .appendLen x l => s.appendLen garbage x l
  | .appendAscii x l => s.appendAscii garbage x l
  | .appendReverse x l => s.appendReverse garbage x l
  | .lock x size => s.lock garbage x size
  | .lockKeep x size => s.lockKeep garbage x size
  | .write x i ch => s.write x i ch
  | .unlockSame x => s.unlockSame x
  | .unlock x size => s.unlock x size
  | .unlockAppend x size => s.unlockAppend x size
  | .unlockZ x => s.unlockZ x
  | .getHash x => do
    let (_, s) ← s.getHash x
    .ok s
  | .beq x y => do
    let (_, s) ← s.beq x y
    .ok s
  | .plus x y => s.plus garbage x y
  | .left x length => s.left garbage x length
  | .mid x pos => s.mid garbage x pos
  | .midLen x pos length => s.midLen garbage x pos length
  | .right x size => s.right garbage x size
  | .cleanGet x => s.cleanGet x
  | .removeLeft x size => s.removeLeft garbage x size
  | .removeFrom x pos => s.removeFrom garbage x pos
  | .removeMid x pos size => s.removeMid garbage x pos size
  | .removeRight x size => s.removeRight garbage x size

end Drt
