import Drt.Net.Rpc.FastRpcSafety
import Drt.Lib.Machine

/-!
# Sequences of FastRPC operations

Any operations of `FastRpcDecoder` follow each other on one buffer, also after exceptions. As long
as the octets are there that the sizes in the data ask for, all stay inside the buffer.
-/

namespace Drt

/-- The operations of `FastRpcDecoder`. -/
inductive FastRpcOp where
  | readHeader
  | readCheckType
  | readSkip
  | readMethodName
  | readMethodResponse
  | readFaultResponse
  | readInt32
  | readInt64
  | readBool
  | readDouble
  | readString
  | readBinary
  | readTime
  | readStructLength
  | readArrayLength
  | readMemberName
  | checkArrayNext (count : Int64)
  | checkStructNext (count : Int64)
  deriving DecidableEq, Repr

namespace FastRpcOp

open FastRpcDecoder Extent Keeping

/-- An operation, for what it does to the decoder. -/
def perform (time : RpcTime) (fuel : Nat) : FastRpcOp → Decoding Unit
  | readHeader => Decoding.readHeader >>= fun _ => pure ()
  | readCheckType => Decoding.readCheckType >>= fun _ => pure ()
  | readSkip => Decoding.readSkip time fuel
  | readMethodName => Decoding.readMethodName >>= fun _ => pure ()
  | readMethodResponse => Decoding.readMethodResponse
  | readFaultResponse => Decoding.readFaultResponse >>= fun _ => pure ()
  | readInt32 => Decoding.readInt32 >>= fun _ => pure ()
  | readInt64 => Decoding.readInt64 >>= fun _ => pure ()
  | readBool => Decoding.readBool >>= fun _ => pure ()
  | readDouble => Decoding.readDouble >>= fun _ => pure ()
  | readString => Decoding.readString >>= fun _ => pure ()
  | readBinary => Decoding.readBinary >>= fun _ => pure ()
  | readTime => Decoding.readTime time >>= fun _ => pure ()
  | readStructLength => Decoding.readStructLength >>= fun _ => pure ()
  | readArrayLength => Decoding.readArrayLength >>= fun _ => pure ()
  | readMemberName => Decoding.readMemberName >>= fun _ => pure ()
  | checkArrayNext count | checkStructNext count => do
    let _ := Decoding.checkNext count
    pure ()

/-- How an operation goes over the octets from `pos` on, but for the header. -/
def extent (add : Nat) (l : Blob) : FastRpcOp → Extent
  | readHeader | readCheckType | checkArrayNext _ | checkStructNext _ => go 0
  | readSkip => skip add (2 * l.length + 2) l
  | readMethodName => methodName l
  | readMethodResponse => methodResponse l
  | readFaultResponse => faultResponse add l
  | readInt32 => int true add l
  | readInt64 => int false add l
  | readBool => bool l
  | readDouble => double l
  | readString => octets 0x20 add l
  | readBinary => octets 0x30 add l
  | readTime => time l
  | readStructLength => count 0x50 add l
  | readArrayLength => count 0x58 add l
  | readMemberName => memberName l

/-- What an operation reads is there. -/
def Fits (d : FastRpcDecoder) (op : FastRpcOp) : Prop :=
  (op.extent d.length_add d.rest).Fits d.rest.length ∧
    (op = readHeader → Decoding.headerNeed d.rest ≤ d.rest.length)

instance (d : FastRpcDecoder) (op : FastRpcOp) : Decidable (op.Fits d) :=
  inferInstanceAs (Decidable (_ ∧ _))

variable {d : FastRpcDecoder}

/-- One operation. -/
theorem stays_perform (time : RpcTime) {fuel : Nat} (op : FastRpcOp) (hin : d.Inside)
    (hfuel : 2 * d.content.length + 1 ≤ fuel) (hfits : op.Fits d) :
    (op.perform time fuel).Stays Inside d := by
  have hlength := d.length_rest
  have hle : d.rest.length ≤ d.content.length := by
    rw [hlength]
    exact Nat.sub_le _ _
  obtain ⟨hextent, hheader⟩ := hfits
  cases op with
  | readHeader => exact (Decoding.stays_readHeader hin (hheader rfl)).map _
  | readCheckType => exact (Decoding.stays_readCheckType hin).map _
  | readSkip =>
    exact ((Decoding.runs_skip time fuel).1 _ d hin (by omega) hextent).stays hin hextent
  | readMethodName => exact ((Decoding.runs_readMethodName hin hextent).stays hin hextent).map _
  | readMethodResponse => exact (Decoding.runs_readMethodResponse hin hextent).stays hin hextent
  | readFaultResponse => exact ((Decoding.runs_readFaultResponse hin hextent).stays hin hextent).map _
  | readInt32 => exact ((Decoding.runs_readInt32 hin hextent).stays hin hextent).map _
  | readInt64 => exact ((Decoding.runs_readInt64 hin hextent).stays hin hextent).map _
  | readBool => exact ((Decoding.runs_readBool hin hextent).stays hin hextent).map _
  | readDouble => exact ((Decoding.runs_readDouble hin hextent).stays hin hextent).map _
  | readString => exact ((Decoding.runs_readString hin hextent).stays hin hextent).map _
  | readBinary => exact ((Decoding.runs_readOctets hin hextent).stays hin hextent).map _
  | readTime => exact ((Decoding.runs_readTime time hin hextent).stays hin hextent).map _
  | readStructLength | readArrayLength =>
    exact ((Decoding.runs_readCount _ hin hextent).stays hin hextent).map _
  | readMemberName => exact ((Decoding.runs_readMemberName hin hextent).stays hin hextent).map _
  | checkArrayNext count | checkStructNext count => exact ⟨d, hin, .inl ⟨(), rfl⟩⟩

end FastRpcOp

/-- A decoder at work, and whether an operation has read outside the buffer or done something
else that is undefined. -/
structure FastRpcSession where
  decoder : FastRpcDecoder
  outside : Bool

namespace FastRpcSession

/-- The session after an operation. -/
def after (s : FastRpcSession) : Outcome Exception Unit × FastRpcDecoder → FastRpcSession
  | (.ok _, d) | (.raise _, d) => { s with decoder := d }
  | (_, d) => { decoder := d, outside := true }

/-- The operations on a buffer in any order. A label is an operation and a bound on the loop
passes of `readSkip` that is large enough; `length_add` is not initialized before `readHeader`,
and nothing follows what is undefined. -/
def machine (time : RpcTime) : Machine FastRpcSession (FastRpcOp × Nat) where
  init s := s.decoder.pos = 0 ∧ s.outside = false
  step s a :=
    if s.outside = false ∧ 2 * s.decoder.content.length + 1 ≤ a.2 then
      some (s.after (a.1.perform time a.2 s.decoder))
    else none

variable {time : RpcTime}

/-- Inside so far. -/
def Safe (s : FastRpcSession) : Prop := s.outside = false ∧ s.decoder.Inside

theorem Safe.step {s s' : FastRpcSession} {a : FastRpcOp × Nat} (h : s.Safe)
    (hfits : a.1.Fits s.decoder) (hstep : (machine time).step s a = some s') : s'.Safe := by
  obtain ⟨hinside, hin⟩ := h
  change (if _ then _ else _) = _ at hstep
  split at hstep
  · rename_i henabled
    cases hstep
    obtain ⟨d', hin', ⟨u, hperform⟩ | ⟨ex, hperform⟩⟩ :=
      FastRpcOp.stays_perform time a.1 hin henabled.2 hfits
    · rw [hperform]
      exact ⟨hinside, hin'⟩
    · rw [hperform]
      exact ⟨hinside, hin'⟩
  · cases hstep

/-- In every run whose operations find the octets that the sizes in the data ask for, each of
them succeeds within the buffer or raises an exception. -/
theorem safe_of_fits (time : RpcTime) {s : FastRpcSession}
    (h : (machine time).ReachableWith (fun s a => a.1.Fits s.decoder) s) : s.Safe := by
  refine h.invariant Safe ?_ ?_
  · intro s hinit
    refine ⟨hinit.2, ?_⟩
    unfold FastRpcDecoder.Inside
    rw [hinit.1]
    exact Nat.zero_le _
  · intro s a s' hsafe hfits hstep
    exact hsafe.step hfits hstep

/-- A buffer with the header and the mark of a response. -/
def response : FastRpcSession := { decoder := ⟨[0xca, 0x11, 2, 0, 0x70], 0, 0⟩, outside := false }

/-- A clock that stands still. -/
def noTime : RpcTime := { convertUtcTime := fun _ _ _ _ _ _ _ => 0, fromSeconds := id }

theorem safe_of_fits_response : ∃ s : FastRpcSession, s.decoder.pos = 5 ∧ s.Safe := by
  obtain ⟨s, hs⟩ : ∃ s, ((machine noTime).executeWith (fun s a => a.1.Fits s.decoder) response
      [(.readHeader, 11), (.readCheckType, 11), (.readMethodResponse, 11)]) = some s :=
    ⟨_, rfl⟩
  refine ⟨s, ?_, safe_of_fits noTime ⟨response, _, ⟨rfl, rfl⟩, Machine.run_of_executeWith hs⟩⟩
  cases hs
  rfl

/-- An empty buffer. -/
def empty : FastRpcSession := { decoder := ⟨[], 0, 0⟩, outside := false }

/-- Not every run stays inside: `readMethodResponse` reads an octet of an empty buffer. -/
theorem not_safe : ¬ ∀ (time : RpcTime) (s : FastRpcSession),
    (machine time).Reachable s → s.outside = false := by
  intro h
  have hrun : (machine noTime).execute empty [(.readMethodResponse, 1)] =
      some { decoder := ⟨[], 0, 0⟩, outside := true } := rfl
  have houtside := h noTime _ ⟨empty, _, ⟨rfl, rfl⟩, Machine.run_of_execute hrun⟩
  exact Bool.noConfusion houtside

end FastRpcSession

end Drt
