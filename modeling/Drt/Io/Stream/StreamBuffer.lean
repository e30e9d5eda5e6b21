import Drt.Core.Base.Exception
import Drt.Io.Base.Handle

/-!
# Buffered streams

`StreamBuffer`: the cache holds what was read ahead. A call that throws leaves the
buffer as it is at that point. The bound on loop passes is handed to every loop of a
call.
-/

namespace Drt

/-- The fields of `StreamBuffer`. -/
structure StreamBuffer where
  handle : Handle
  cache : BString
  cache_suggest : Nat
  /-- Whether `time_limit` is set. -/
  time_limit : Bool

/-- A call on a buffer. An exception comes with the buffer it leaves. -/
abbrev StreamCall (α : Type) := Outcome (Exception × StreamBuffer) α

namespace StreamBuffer

/-- `StreamBuffer(handle)`. -/
def new (handle : Handle) : StreamBuffer := ⟨handle, .zero, 4096, false⟩

def setTimeLimit (s : StreamBuffer) (abs_time : Bool) : StreamBuffer :=
  { s with time_limit := abs_time }

def setCacheSize (s : StreamBuffer) (suggested_size : Nat) : StreamBuffer :=
  { s with cache_suggest := suggested_size }

/-- `shrinkCache`, and `ptrCache()->removeLeft`. -/
def shrinkCache (s : StreamBuffer) (size : Nat) : StreamBuffer :=
  { s with cache := s.cache.removeLeft size }

/-- `ptrCache()->cleanGet`. -/
def cleanGet (s : StreamBuffer) : Blob × StreamBuffer := (s.cache.octets, { s with cache := .zero })

/-- The wait in front of each read of the handle. -/
def waitLimit (s : StreamBuffer) : StreamCall StreamBuffer :=
  if s.time_limit then
    let (found, handle) := s.handle.waitData
    if found then .ok { s with handle := handle }
    else .raise (.timeoutException, { s with handle := handle })
  else .ok s

/-- The number of octets that are read ahead, for a cache of `cur` octets. -/
def toread (s : StreamBuffer) (cur : Nat) : Nat :=
  if cur < s.cache_suggest then s.cache_suggest - cur else if cur > 2048 then 4096 else cur * 2

/-- `extendCache`. At the end of the data the cache is left with the size it was locked for; its
octets behind the old ones have any value, zero here. -/
def extendCache (s : StreamBuffer) (min_size : Nat) : StreamCall StreamBuffer :=
  if s.cache.getSize < min_size then do
    let s ← s.waitLimit
    let cur := s.cache.octets
    let (data, handle) := s.handle.read (s.toread cur.length)
    if data = [] then
      .raise (.endOfDataException "byte" "stream",
        { s with handle := handle, cache := .own (cur ++ List.replicate (s.toread cur.length) 0) })
    else
      .ok { s with
        handle := handle
        cache := BString.unlock (cur.length + s.toread cur.length) (cur ++ data) }
  else .ok s

def extendCacheAdd (s : StreamBuffer) (add_size : Nat) : StreamCall StreamBuffer :=
  s.extendCache (s.cache.getSize + add_size)

def tryExtendCache : Nat → StreamBuffer → Nat → StreamCall (Nat × StreamBuffer)
  | 0, _, _ => .outOfFuel
  | fuel + 1, s, min_size =>
    if s.cache.getSize < min_size then do
      let s ← s.waitLimit
      let cur := s.cache.octets
      let (data, handle) := s.handle.read (s.toread cur.length)
      let s := { s with handle := handle, cache := BString.unlock cur.length (cur ++ data) }
      if data = [] then .ok (s.cache.getSize, s) else tryExtendCache fuel s min_size
    else .ok (s.cache.getSize, s)

def tryExtendCacheAdd (fuel : Nat) (s : StreamBuffer) (add_size : Nat) : StreamCall (Nat × StreamBuffer) := do
  let orig_size := s.cache.getSize
  let (size, s) ← tryExtendCache fuel s (orig_size + add_size)
  .ok (size - orig_size, s)

/-- `readLine`, from the place `req` on. -/
def readLine : Nat → StreamBuffer → Nat → StreamCall ((Option Blob) × StreamBuffer)
  | 0, _, _ => .outOfFuel
  | fuel + 1, s, req => do
    let s ← s.extendCache req
    if s.cache.getSize < req then
      if s.cache.getSize = 0 then .ok (none, s)
      else
        let (data, s) := s.cleanGet
        .ok (some data, s)
    else
      match BString.findChar s.cache.octets 10 (req - 1) with
      | some p => .ok (some (s.cache.octets.take (p + 1)), s.shrinkCache (p + 1))
      | none => readLine fuel s (s.cache.getSize + 1)

/-- `tryReadUntilChar`, from the place `p` on; `none` is the place -1. -/
def tryReadUntilChar : Nat → StreamBuffer → UInt8 → Nat → StreamCall ((Option Nat) × StreamBuffer)
  | 0, _, _, _ => .outOfFuel
  | fuel + 1, s, search, p =>
    match BString.findChar s.cache.octets search p with
    | some n => .ok (some n, s)
    | none => do
      let p := s.cache.getSize
      let (added, s) ← tryExtendCacheAdd fuel s 1
      if added = 0 then .ok (none, s) else tryReadUntilChar fuel s search p

def tryReadLine (fuel : Nat) (s : StreamBuffer) : StreamCall ((Option Blob) × StreamBuffer) := do
  match ← tryReadUntilChar fuel s 10 0 with
  | (none, s) =>
    if s.cache.getSize > 0 then
      let (data, s) := s.cleanGet
      .ok (some data, s)
    else .ok (none, s)
  | (some p, s) => .ok (some (s.cache.octets.take (p + 1)), s.shrinkCache (p + 1))

/-- `readUntilChar`, from the place `p` on. -/
def readUntilChar : Nat → StreamBuffer → UInt8 → Nat → StreamCall (Nat × StreamBuffer)
  | 0, _, _, _ => .outOfFuel
  | fuel + 1, s, search, p =>
    match BString.findChar s.cache.octets search p with
    | some n => .ok (n, s)
    | none => do
      let p := s.cache.getSize
      let s ← s.extendCacheAdd 256
      readUntilChar fuel s search p

/-- What `read` and `readExtendAdd` have in common: the octets they hand over. -/
def readData (s : StreamBuffer) (maxsize : Nat) : StreamCall (Blob × StreamBuffer) :=
  if s.cache.isNullEmpty then
    if s.cache.isNull then .raise (.endOfDataException "byte" "stream", s)
    else do
      let s ← s.waitLimit
      let (data, handle) := s.handle.read maxsize
      let s := { s with handle := handle }
      if data = [] then .ok (data, { s with cache := .null }) else .ok (data, s)
  else if maxsize < s.cache.getSize then
    .ok (s.cache.octets.take maxsize, s.shrinkCache maxsize)
  else
    let (data, s) := s.cleanGet
    .ok (data, s)

/-- `read`: the new content of `data`. -/
def read (s : StreamBuffer) (maxsize : Nat) : StreamCall (Blob × StreamBuffer) := s.readData maxsize

/-- `readExtendAdd`: the new content of `data`, and the number of octets added. -/
def readExtendAdd (s : StreamBuffer) (data : Blob) (add_size : Nat) : StreamCall ((Blob × Nat) × StreamBuffer) := do
  let (add, s) ← s.readData add_size
  .ok ((data ++ add, add.length), s)

/-- The loop of `readFull`. -/
def readFullFrom : Nat → StreamBuffer → Blob → Nat → StreamCall (Blob × StreamBuffer)
  | 0, _, _, _ => .outOfFuel
  | fuel + 1, s, data, size =>
    if data.length < size then do
      let ((data, _), s) ← s.readExtendAdd data (size - data.length)
      readFullFrom fuel s data size
    else .ok (data, s)

/-- `readFull`: the new content of `data`. -/
def readFull (fuel : Nat) (s : StreamBuffer) (size : Nat) : StreamCall (Blob × StreamBuffer) :=
  if size = 0 then .ok ([], s)
  else do
    let (data, s) ← s.read size
    readFullFrom fuel s data size

/-- The loop of `writeFull` over the octets that are left. -/
def writeFull : Nat → StreamBuffer → Blob → StreamCall StreamBuffer
  | 0, _, _ => .outOfFuel
  | fuel + 1, s, b =>
    if b = [] then .ok s
    else
      let (n, handle) := s.handle.write b
      writeFull fuel { s with handle := handle } (b.drop n)

end StreamBuffer

end Drt
