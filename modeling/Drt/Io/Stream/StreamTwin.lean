import Drt.Io.Stream.StreamAhead

/-!
# Buffers that cannot be told apart

Two buffers with the same cache, on handles that go on in the same way: what was read
and written before makes no difference to any call.
-/

namespace Drt

open StreamBuffer

open Outcome

/-- Handles with the same octets to come, in the same portions. -/
structure Handle.Twin (h h' : Handle) : Prop where
  size : ∀ i, h.schedule.size (h.turn + i) = h'.schedule.size (h'.turn + i)
  ready : ∀ i, h.schedule.ready (h.turn + i) = h'.schedule.ready (h'.turn + i)
  pending : h.pending = h'.pending

namespace Handle.Twin

variable {h h' : Handle}

/-- One call later the handles still go on in the same way. -/
theorem next (ht : h.Twin h') {pending pending' delivered delivered' : Blob}
    (hp : pending = pending') :
    Handle.Twin { h with turn := h.turn + 1, pending := pending, delivered := delivered }
      { h' with turn := h'.turn + 1, pending := pending', delivered := delivered' } := by
  refine ⟨fun i => ?_, fun i => ?_, hp⟩
  · have hsize := ht.size (1 + i)
    rwa [← Nat.add_assoc, ← Nat.add_assoc] at hsize
  · have hready := ht.ready (1 + i)
    rwa [← Nat.add_assoc, ← Nat.add_assoc] at hready

theorem read (ht : h.Twin h') (size : Nat) :
    (h.read size).1 = (h'.read size).1 ∧ (h.read size).2.Twin (h'.read size).2 := by
  have hsize : h.readSize size = h'.readSize size := congrArg (min size) (ht.size 0)
  refine ⟨?_, ht.next ?_⟩
  · simp only [Handle.read, hsize, ht.pending]
  · rw [hsize, ht.pending]

theorem waitData (ht : h.Twin h') :
    h.waitData.1 = h'.waitData.1 ∧ h.waitData.2.Twin h'.waitData.2 :=
  ⟨ht.ready 0, ht.next ht.pending⟩

end Handle.Twin

namespace StreamBuffer

/-- Buffers with everything but the handle the same, and handles that go on in the same way. -/
inductive Twin (s : StreamBuffer) : StreamBuffer → Prop
  | intro {handle : Handle} (h : s.handle.Twin handle) : Twin s { s with handle := handle }

/-- The same exception, and buffers that cannot be told apart. -/
def TwinRaise (e e' : Exception × StreamBuffer) : Prop := e.1 = e'.1 ∧ e.2.Twin e'.2

/-- Calls that leave buffers that cannot be told apart. -/
abbrev TwinCall (x x' : StreamCall StreamBuffer) : Prop := Alike TwinRaise Twin x x'

/-- The same result with buffers that cannot be told apart. -/
inductive TwinPair {α : Type} : α × StreamBuffer → α × StreamBuffer → Prop
  | intro {s s' : StreamBuffer} (a : α) (h : s.Twin s') : TwinPair (a, s) (a, s')

/-- Calls with the same result that leave buffers that cannot be told apart. -/
abbrev TwinResult {α : Type} (x x' : StreamCall (α × StreamBuffer)) : Prop :=
  Alike TwinRaise TwinPair x x'

namespace Twin

variable {s s' : StreamBuffer}

theorem cache (h : s.Twin s') : s'.cache = s.cache := by
  cases h with
  | intro h => rfl

theorem of_eq (hhandle : s.handle.Twin s'.handle) (hcache : s'.cache = s.cache)
    (hsuggest : s'.cache_suggest = s.cache_suggest) (hlimit : s'.time_limit = s.time_limit) :
    s.Twin s' := by
  obtain ⟨handle, cache, suggest, limit⟩ := s
  obtain ⟨handle', cache', suggest', limit'⟩ := s'
  obtain rfl : cache' = cache := hcache
  obtain rfl : suggest' = suggest := hsuggest
  obtain rfl : limit' = limit := hlimit
  exact .intro hhandle

theorem holds (h : s.Twin s') {octets : Blob} (hholds : s.Holds octets) : s'.Holds octets := by
  cases h with
  | intro h =>
    refine ⟨hholds.unlimited, hholds.suggest, hholds.cache, ?_⟩
    rw [ahead, ← h.pending]
    exact hholds.ahead

theorem withCache (h : s.Twin s') (cache : BString) :
    Twin { s with cache := cache } { s' with cache := cache } := by
  cases h with
  | intro h => exact .intro h

theorem shrinkCache (h : s.Twin s') (size : Nat) : (s.shrinkCache size).Twin (s'.shrinkCache size) := by
  rw [StreamBuffer.shrinkCache, StreamBuffer.shrinkCache, h.cache]
  exact h.withCache _

theorem waitLimit (h : s.Twin s') : TwinCall s.waitLimit s'.waitLimit := by
  cases h with
  | intro h =>
    obtain ⟨hfound, hwait⟩ := h.waitData
    simp only [waitLimit]
    rw [← hfound]
    split_ifs
    · exact .ok (.intro hwait)
    · exact .raise ⟨rfl, .intro hwait⟩
    · exact .ok (.intro h)

theorem read (h : s.Twin s') (size : Nat) :
    ∃ data handle handle', s.handle.read size = (data, handle) ∧
      s'.handle.read size = (data, handle') ∧ ∀ cache,
        Twin { s with handle := handle, cache := cache } { s' with handle := handle', cache := cache } := by
  cases h with
  | @intro handle h =>
    obtain ⟨hdata, hread⟩ := h.read size
    exact ⟨(s.handle.read size).1, (s.handle.read size).2, (handle.read size).2, rfl,
      Prod.ext hdata.symm rfl, fun cache => .intro hread⟩

theorem toread (h : s.Twin s') (cur : Nat) : s'.toread cur = s.toread cur := by
  cases h with
  | intro h => rfl

theorem extendCache (h : s.Twin s') (min_size : Nat) :
    TwinCall (s.extendCache min_size) (s'.extendCache min_size) := by
  rw [StreamBuffer.extendCache, StreamBuffer.extendCache, h.cache]
  split_ifs
  · refine h.waitLimit.bind fun s s' h => ?_
    obtain ⟨data, handle, handle', hread, hread', hnext⟩ :=
      h.read (s.toread s.cache.octets.length)
    simp only [h.cache, h.toread, hread, hread']
    split_ifs
    · exact .raise ⟨rfl, hnext _⟩
    · exact .ok (hnext _)
  · exact .ok h

theorem tryExtendCache (h : s.Twin s') (fuel min_size : Nat) :
    TwinResult (s.tryExtendCache fuel min_size) (s'.tryExtendCache fuel min_size) := by
  induction fuel generalizing s s' with
  | zero => exact .outOfFuel
  | succ fuel ih =>
    rw [tryExtendCache, tryExtendCache, h.cache]
    split_ifs
    · refine h.waitLimit.bind fun s s' h => ?_
      obtain ⟨data, handle, handle', hread, hread', hnext⟩ :=
        h.read (s.toread s.cache.octets.length)
      simp only [h.cache, h.toread, hread, hread']
      split_ifs
      · exact .ok (.intro _ (hnext _))
      · exact ih (hnext _)
    · exact .ok (.intro _ h)

theorem tryExtendCacheAdd (h : s.Twin s') (fuel add_size : Nat) :
    TwinResult (s.tryExtendCacheAdd fuel add_size) (s'.tryExtendCacheAdd fuel add_size) := by
  rw [StreamBuffer.tryExtendCacheAdd, StreamBuffer.tryExtendCacheAdd, h.cache]
  refine (h.tryExtendCache fuel _).bind ?_
  rintro _ _ ⟨size, h⟩
  exact .ok (.intro _ h)

theorem tryReadUntilChar (h : s.Twin s') (fuel : Nat) (search : UInt8) (p : Nat) :
    TwinResult (s.tryReadUntilChar fuel search p) (s'.tryReadUntilChar fuel search p) := by
  induction fuel generalizing s s' p with
  | zero => exact .outOfFuel
  | succ fuel ih =>
    rw [tryReadUntilChar, tryReadUntilChar, h.cache]
    cases BString.findChar s.cache.octets search p with
    | some n => exact .ok (.intro _ h)
    | none =>
      refine (h.tryExtendCacheAdd fuel 1).bind ?_
      rintro _ _ ⟨added, h⟩
      dsimp only
      split_ifs
      · exact .ok (.intro _ h)
      · exact ih h _

theorem readUntilChar (h : s.Twin s') (fuel : Nat) (search : UInt8) (p : Nat) :
    TwinResult (s.readUntilChar fuel search p) (s'.readUntilChar fuel search p) := by
  induction fuel generalizing s s' p with
  | zero => exact .outOfFuel
  | succ fuel ih =>
    rw [readUntilChar, readUntilChar, h.cache]
    cases BString.findChar s.cache.octets search p with
    | some n => exact .ok (.intro _ h)
    | none =>
      refine .bind (R := Twin) ?_ fun s s' h => ih h _
      rw [extendCacheAdd, extendCacheAdd, h.cache]
      exact h.extendCache _

theorem readData (h : s.Twin s') (maxsize : Nat) :
    TwinResult (s.readData maxsize) (s'.readData maxsize) := by
  rw [StreamBuffer.readData, StreamBuffer.readData, h.cache]
  split_ifs
  · exact .raise ⟨rfl, h⟩
  · refine h.waitLimit.bind fun s s' h => ?_
    obtain ⟨data, handle, handle', hread, hread', hnext⟩ := h.read maxsize
    simp only [hread, hread']
    split_ifs
    · exact .ok (.intro _ (hnext _))
    · simp only [h.cache]
      exact .ok (.intro _ (hnext _))
  · exact .ok (.intro _ (h.shrinkCache _))
  · simp only [cleanGet, h.cache]
    exact .ok (.intro _ (h.withCache _))

theorem readExtendAdd (h : s.Twin s') (data : Blob) (add_size : Nat) :
    TwinResult (s.readExtendAdd data add_size) (s'.readExtendAdd data add_size) := by
  refine (h.readData add_size).bind ?_
  rintro _ _ ⟨add, h⟩
  exact .ok (.intro _ h)

end Twin

end StreamBuffer

end Drt
