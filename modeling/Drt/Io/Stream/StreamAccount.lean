import Drt.Io.Stream.StreamBuffer

/-!
# No octet is lost or doubled

Every call moves octets from the front of what lies ahead, which is the cache and
then what the handle still has to deliver, to its caller. The octets of the stream
are split between the caller, the cache and the handle all the time.
-/

open List Outcome

namespace Drt

open BString

namespace StreamBuffer

/-- What is still to be handed over. -/
def ahead (s : StreamBuffer) : Blob := s.cache.octets ++ s.handle.pending

/-- A step that hands over these octets. -/
structure Moves (s : StreamBuffer) (out : Blob) (s' : StreamBuffer) : Prop where
  ahead : s.ahead = out ++ s'.ahead
  whole : s'.handle.delivered ++ s'.handle.pending = s.handle.delivered ++ s.handle.pending

namespace Moves

variable {s s' s'' : StreamBuffer} {out out' : Blob}

theorem refl (s : StreamBuffer) : Moves s [] s := ⟨rfl, rfl⟩

theorem trans (h : Moves s out s') (h' : Moves s' out' s'') : Moves s (out ++ out') s'' where
  ahead := by rw [h.ahead, h'.ahead, append_assoc]
  whole := h'.whole.trans h.whole

theorem after (h : Moves s [] s') (h' : Moves s' out s'') : Moves s out s'' :=
  h.trans h'

theorem of_cache {cache : BString} (h : s.cache.octets = out ++ cache.octets) :
    Moves s out { s with cache := cache } where
  ahead := by rw [StreamBuffer.ahead, h, append_assoc, StreamBuffer.ahead]
  whole := rfl

theorem of_read (s : StreamBuffer) (size : Nat) {cache : BString}
    (h : s.cache.octets ++ (s.handle.read size).1 = out ++ cache.octets) :
    Moves s out { s with handle := (s.handle.read size).2, cache := cache } where
  ahead := by
    rw [StreamBuffer.ahead, StreamBuffer.ahead, ← (s.handle.read_pending size).1,
      ← append_assoc, h, append_assoc]
  whole := by
    rw [← (s.handle.read_pending size).1, (s.handle.read_pending size).2, append_assoc]

end Moves

/-- The cache is what was delivered, less what was handed over. -/
def Accounted (handed : Blob) (s : StreamBuffer) : Prop :=
  handed ++ s.cache.octets = s.handle.delivered

variable {s s' : StreamBuffer}

theorem Accounted.moves {handed out : Blob} (h : Accounted handed s) (hmoves : Moves s out s') :
    Accounted (handed ++ out) s' := by
  have hwhole : handed ++ s.ahead = s.handle.delivered ++ s.handle.pending := by
    rw [ahead, ← append_assoc, h]
  rw [hmoves.ahead, ← hmoves.whole, ahead, ← append_assoc, ← append_assoc] at hwhole
  exact append_cancel_right hwhole

section Calls

variable {s s' : StreamBuffer}

theorem waitLimit_eq (h : s.waitLimit = .ok s') :
    ∃ turn, s' = { s with handle := { s.handle with turn := turn } } := by
  by_cases hlimit : s.time_limit
  · by_cases hready : s.handle.schedule.ready s.handle.turn
    · rw [waitLimit, if_pos hlimit] at h
      simp only [Handle.waitData, hready, if_true] at h
      exact ⟨_, (ok.inj h).symm⟩
    · simp [waitLimit, hlimit, Handle.waitData, hready] at h
  · rw [waitLimit, if_neg hlimit] at h
    exact ⟨s.handle.turn, (ok.inj h).symm⟩

theorem waitLimit_moves (h : s.waitLimit = .ok s') : Moves s [] s' := by
  obtain ⟨turn, rfl⟩ := waitLimit_eq h
  exact ⟨rfl, rfl⟩

variable {fuel min_size n p size : Nat} {data data' : Blob}

theorem extendCache_moves (h : s.extendCache min_size = .ok s') : Moves s [] s' := by
  unfold extendCache at h
  split_ifs at h
  · obtain ⟨s₁, hwait, h⟩ := bind_eq_ok.mp h
    refine (waitLimit_moves hwait).after ?_
    simp only at h
    split_ifs at h
    obtain rfl := (ok.inj h).symm
    exact .of_read s₁ _ (octets_unlock _ _).symm
  · obtain rfl := (ok.inj h).symm
    exact .refl _

/-- `tryExtendCache` hands over nothing. -/
theorem tryExtendCache_moves (h : tryExtendCache fuel s min_size = .ok (size, s')) :
    Moves s [] s' := by
  induction fuel generalizing s with
  | zero => cases h
  | succ fuel ih =>
    unfold tryExtendCache at h
    split_ifs at h
    · obtain ⟨s₁, hwait, h⟩ := bind_eq_ok.mp h
      have hnone : [] ++ (unlock s₁.cache.octets.length (s₁.cache.octets ++
          (s₁.handle.read (s₁.toread s₁.cache.octets.length)).1)).octets =
          s₁.cache.octets ++ (s₁.handle.read (s₁.toread s₁.cache.octets.length)).1 :=
        octets_unlock s₁.cache.octets.length _
      have hread := Moves.of_read s₁ (s₁.toread s₁.cache.octets.length) hnone.symm
      refine (waitLimit_moves hwait).after (hread.after ?_)
      simp only at h
      split_ifs at h
      · obtain ⟨-, rfl⟩ := Prod.mk.inj (ok.inj h)
        exact .refl _
      · exact ih h
    · obtain ⟨-, rfl⟩ := Prod.mk.inj (ok.inj h)
      exact .refl s

theorem shrinkCache_moves (s : StreamBuffer) (size : Nat) :
    Moves s (s.cache.octets.take size) (s.shrinkCache size) := by
  refine .of_cache ?_
  rw [octets_removeLeft, take_append_drop]

theorem cleanGet_moves (s : StreamBuffer) : Moves s s.cleanGet.1 s.cleanGet.2 :=
  .of_cache (append_nil _).symm

/-- `readLine` hands over the line, with its terminator. -/
theorem readLine_moves {req : Nat} {line : Option Blob} (h : readLine fuel s req = .ok (line, s')) :
    Moves s (line.getD []) s' := by
  induction fuel generalizing s req with
  | zero => cases h
  | succ fuel ih =>
    rw [readLine] at h
    obtain ⟨s₁, hextend, h⟩ := bind_eq_ok.mp h
    refine (extendCache_moves hextend).after ?_
    split_ifs at h
    · obtain ⟨rfl, rfl⟩ := Prod.mk.inj (ok.inj h)
      exact .refl _
    · obtain ⟨rfl, rfl⟩ := Prod.mk.inj (ok.inj h)
      exact cleanGet_moves s₁
    · cases hfind : findChar s₁.cache.octets 10 (req - 1) with
      | some p =>
        rw [hfind] at h
        obtain ⟨rfl, rfl⟩ := Prod.mk.inj (ok.inj h)
        exact shrinkCache_moves s₁ (p + 1)
      | none =>
        rw [hfind] at h
        exact ih h

/-- `tryReadUntilChar` hands over nothing. -/
theorem tryReadUntilChar_moves {search : UInt8} {n : Option Nat}
    (h : tryReadUntilChar fuel s search p = .ok (n, s')) : Moves s [] s' := by
  induction fuel generalizing s p with
  | zero => cases h
  | succ fuel ih =>
    rw [tryReadUntilChar] at h
    cases hfind : findChar s.cache.octets search p with
    | some q =>
      rw [hfind] at h
      obtain ⟨-, rfl⟩ := Prod.mk.inj (ok.inj h)
      exact .refl _
    | none =>
      rw [hfind] at h
      obtain ⟨⟨added, s₁⟩, hextend, h⟩ := bind_eq_ok.mp h
      obtain ⟨⟨size, s₂⟩, htry, hextend⟩ := bind_eq_ok.mp hextend
      obtain ⟨-, rfl⟩ := Prod.mk.inj (ok.inj hextend)
      refine (tryExtendCache_moves htry).after ?_
      simp only at h
      split_ifs at h
      · obtain ⟨-, rfl⟩ := Prod.mk.inj (ok.inj h)
        exact .refl _
      · exact ih h

/-- `tryReadLine` hands over the line, with its terminator if it has one. -/
theorem tryReadLine_moves {line : Option Blob} (h : tryReadLine fuel s = .ok (line, s')) :
    Moves s (line.getD []) s' := by
  obtain ⟨⟨n, s₁⟩, htry, h⟩ := bind_eq_ok.mp h
  refine (tryReadUntilChar_moves htry).after ?_
  cases n with
  | none =>
    simp only at h
    split_ifs at h
    · obtain ⟨rfl, rfl⟩ := Prod.mk.inj (ok.inj h)
      exact cleanGet_moves s₁
    · obtain ⟨rfl, rfl⟩ := Prod.mk.inj (ok.inj h)
      exact .refl _
  | some p =>
    obtain ⟨rfl, rfl⟩ := Prod.mk.inj (ok.inj h)
    exact shrinkCache_moves s₁ (p + 1)

theorem readUntilChar_moves {search : UInt8} (h : readUntilChar fuel s search p = .ok (n, s')) :
    Moves s [] s' := by
  induction fuel generalizing s p with
  | zero => cases h
  | succ fuel ih =>
    rw [readUntilChar] at h
    cases hfind : findChar s.cache.octets search p with
    | some q =>
      rw [hfind] at h
      obtain ⟨-, rfl⟩ := Prod.mk.inj (ok.inj h)
      exact .refl _
    | none =>
      rw [hfind] at h
      obtain ⟨s₁, hextend, h⟩ := bind_eq_ok.mp h
      exact (extendCache_moves hextend).after (ih h)

/-- `read` hands over what is read. -/
theorem readData_moves {maxsize : Nat} (h : s.readData maxsize = .ok (data, s')) :
    Moves s data s' := by
  unfold readData at h
  split_ifs at h with hempty
  · obtain ⟨s₁, hwait, h⟩ := bind_eq_ok.mp h
    refine (waitLimit_moves hwait).after ?_
    obtain ⟨turn, rfl⟩ := waitLimit_eq hwait
    have hcache := octets_of_isNullEmpty hempty
    simp only at h
    split_ifs at h with hdata
    · obtain ⟨rfl, rfl⟩ := Prod.mk.inj (ok.inj h)
      exact .of_read _ maxsize (by simp [hcache])
    · obtain ⟨rfl, rfl⟩ := Prod.mk.inj (ok.inj h)
      exact .of_read _ maxsize (by simp [hcache])
  · obtain ⟨rfl, rfl⟩ := Prod.mk.inj (ok.inj h)
    exact shrinkCache_moves s maxsize
  · obtain ⟨rfl, rfl⟩ := Prod.mk.inj (ok.inj h)
    exact cleanGet_moves s

theorem readExtendAdd_moves {add_size : Nat}
    (h : s.readExtendAdd data add_size = .ok ((data', n), s')) :
    ∃ add, data' = data ++ add ∧ Moves s add s' := by
  obtain ⟨⟨add, s₁⟩, hread, h⟩ := bind_eq_ok.mp h
  obtain ⟨hdata, rfl⟩ := Prod.mk.inj (ok.inj h)
  exact ⟨add, (Prod.mk.inj hdata).1.symm, readData_moves hread⟩

/-- The loop of `readFull` hands over what it appends. -/
theorem readFullFrom_moves (h : readFullFrom fuel s data size = .ok (data', s')) :
    ∃ add, data' = data ++ add ∧ Moves s add s' := by
  induction fuel generalizing s data with
  | zero => cases h
  | succ fuel ih =>
    rw [readFullFrom] at h
    split_ifs at h
    · obtain ⟨⟨⟨data₁, n⟩, s₁⟩, hread, h⟩ := bind_eq_ok.mp h
      obtain ⟨add, rfl, hmoves⟩ := readExtendAdd_moves hread
      obtain ⟨add', rfl, hmoves'⟩ := ih h
      exact ⟨add ++ add', append_assoc _ _ _, hmoves.trans hmoves'⟩
    · obtain ⟨rfl, rfl⟩ := Prod.mk.inj (ok.inj h)
      exact ⟨[], (append_nil _).symm, .refl _⟩

theorem readFull_moves (h : readFull fuel s size = .ok (data, s')) : Moves s data s' := by
  unfold readFull at h
  split_ifs at h
  · obtain ⟨rfl, rfl⟩ := Prod.mk.inj (ok.inj h)
    exact .refl _
  · obtain ⟨⟨data₁, s₁⟩, hread, h⟩ := bind_eq_ok.mp h
    obtain ⟨add, rfl, hmoves⟩ := readFullFrom_moves h
    exact (readData_moves hread).trans hmoves

end Calls

/-- A call of a buffer's owner. -/
inductive Op where
  | read (maxsize : Nat)
  /-- With the content of `data` before the call. -/
  | readExtendAdd (data : Blob) (add_size : Nat)
  | readFull (fullsize : Nat)
  | readLine
  | tryReadLine
  | readUntilChar (search : UInt8)
  | shrinkCache (size : Nat)
  | setTimeLimit (abs_time : Bool)
  | setCacheSize (suggested_size : Nat)

/-- A call, with the octets it hands over. -/
def Op.run (fuel : Nat) (s : StreamBuffer) : Op → StreamCall (Blob × StreamBuffer)
  | read maxsize => s.read maxsize
  | readExtendAdd data add_size => do
    let ((data', _), s) ← s.readExtendAdd data add_size
    .ok (data'.drop data.length, s)
  | readFull fullsize => StreamBuffer.readFull fuel s fullsize
  | readLine => do
    let (line, s) ← StreamBuffer.readLine fuel s 1
    .ok (line.getD [], s)
  | tryReadLine => do
    let (line, s) ← StreamBuffer.tryReadLine fuel s
    .ok (line.getD [], s)
  | readUntilChar search => do
    let (_, s) ← StreamBuffer.readUntilChar fuel s search 0
    .ok ([], s)
  | shrinkCache size => .ok (s.cache.octets.take size, s.shrinkCache size)
  | setTimeLimit abs_time => .ok ([], s.setTimeLimit abs_time)
  | setCacheSize suggested_size => .ok ([], s.setCacheSize suggested_size)

/-- Calls one after another, with all the octets they hand over. -/
def runAll (fuel : Nat) (s : StreamBuffer) : List Op → StreamCall (Blob × StreamBuffer)
  | [] => .ok ([], s)
  | op :: ops => do
    let (data, s) ← op.run fuel s
    let (rest, s) ← runAll fuel s ops
    .ok (data ++ rest, s)

/-- Every call that comes back moves octets to its caller. -/
theorem Op.moves {fuel : Nat} {data : Blob} (op : Op) (h : op.run fuel s = .ok (data, s')) :
    Moves s data s' := by
  cases op with
  | read maxsize => exact readData_moves h
  | readExtendAdd data add_size =>
    obtain ⟨⟨⟨data', n⟩, s₁⟩, hread, h⟩ := bind_eq_ok.mp h
    obtain ⟨add, rfl, hmoves⟩ := readExtendAdd_moves hread
    obtain ⟨rfl, rfl⟩ := Prod.mk.inj (ok.inj h)
    rwa [drop_left]
  | readFull fullsize => exact readFull_moves h
  | readLine =>
    obtain ⟨⟨line, s₁⟩, hread, h⟩ := bind_eq_ok.mp h
    obtain ⟨rfl, rfl⟩ := Prod.mk.inj (ok.inj h)
    exact readLine_moves hread
  | tryReadLine =>
    obtain ⟨⟨line, s₁⟩, hread, h⟩ := bind_eq_ok.mp h
    obtain ⟨rfl, rfl⟩ := Prod.mk.inj (ok.inj h)
    exact tryReadLine_moves hread
  | readUntilChar search =>
    obtain ⟨⟨n, s₁⟩, hread, h⟩ := bind_eq_ok.mp h
    obtain ⟨rfl, rfl⟩ := Prod.mk.inj (ok.inj h)
    exact readUntilChar_moves hread
  | shrinkCache size =>
    obtain ⟨rfl, rfl⟩ := Prod.mk.inj (ok.inj h)
    exact shrinkCache_moves s size
  | setTimeLimit abs_time | setCacheSize suggested_size =>
    obtain ⟨rfl, rfl⟩ := Prod.mk.inj (ok.inj h)
    exact ⟨rfl, rfl⟩

/-- Calls that all come back move octets to their callers. -/
theorem runAll_moves {fuel : Nat} {handed : Blob} {ops : List Op}
    (h : runAll fuel s ops = .ok (handed, s')) : Moves s handed s' := by
  induction ops generalizing s handed with
  | nil =>
    obtain ⟨rfl, rfl⟩ := Prod.mk.inj (ok.inj h)
    exact .refl _
  | cons op ops ih =>
    obtain ⟨⟨data, s₁⟩, hop, h⟩ := bind_eq_ok.mp h
    obtain ⟨⟨rest, s₂⟩, hrest, h⟩ := bind_eq_ok.mp h
    obtain ⟨rfl, rfl⟩ := Prod.mk.inj (ok.inj h)
    exact (op.moves hop).trans (ih hrest)

/-- Whatever calls were made on a new buffer, if none of them threw: what was handed over and then
the cache are what the handle has delivered. -/
theorem runAll_accounted {schedule : Schedule} {octets : Blob} {ops : List Op} {fuel : Nat}
    {handed : Blob} {s : StreamBuffer}
    (h : runAll fuel (new (Handle.fresh schedule octets)) ops = .ok (handed, s)) :
    handed ++ s.cache.octets = s.handle.delivered := by
  have hstart : Accounted [] (new (Handle.fresh schedule octets)) := rfl
  exact hstart.moves (runAll_moves h)

/-- A line that comes in two parts, and an octet of the next one. -/
theorem runAll_accounted_line :
    ∃ handed s, runAll 5 (new (Handle.fresh (.every 2 (by decide)) [65, 66, 10, 67]))
        [.readLine, .read 1] = .ok (handed, s) ∧
      handed ++ s.cache.octets = s.handle.delivered := by
  have hrun : ∃ handed s, runAll 5 (new (Handle.fresh (.every 2 (by decide)) [65, 66, 10, 67]))
      [.readLine, .read 1] = .ok (handed, s) := ⟨_, _, rfl⟩
  obtain ⟨handed, s, h⟩ := hrun
  exact ⟨handed, s, h, runAll_accounted h⟩

end StreamBuffer

end Drt
