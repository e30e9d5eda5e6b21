import Drt.Io.Stream.StreamAccount

/-!
# Streams whose handle fails

`extendCache` makes room in the cache for what it wants to read, and gives back what was
not filled only behind a read that found something. Here a read or a wait of the handle
may also raise an exception, and the room has any content.
-/

namespace Drt

open BString

namespace StreamBuffer

open Outcome

variable (failure : Nat → Option Exception) (garbage : Nat → Nat → UInt8)

/-- The wait in front of a read, which may fail in its turn. -/
def waitLimitOn (s : StreamBuffer) : StreamCall StreamBuffer :=
  match s.time_limit, failure s.handle.turn with
  | true, some e => .raise (e, { s with handle := { s.handle with turn := s.handle.turn + 1 } })
  | _, _ => s.waitLimit

/-- The cache behind `lock`: its octets, and room for `size` more with what the memory holds in this
turn. -/
def lockMore (s : StreamBuffer) (size : Nat) : BString :=
  .own (s.cache.octets ++ (List.range size).map (garbage s.handle.turn))

/-- `extendCache`, on a handle that fails in some turns. -/
def extendCacheOn (s : StreamBuffer) (min_size : Nat) : StreamCall StreamBuffer :=
  if s.cache.getSize < min_size then do
    let s ← s.waitLimitOn failure
    let cur := s.cache.octets
    let cache := s.lockMore garbage (s.toread cur.length)
    match failure s.handle.turn with
    | some e => .raise (e, { s with
        handle := { s.handle with turn := s.handle.turn + 1 }
        cache := cache })
    | none =>
      let (data, handle) := s.handle.read (s.toread cur.length)
      if data = [] then
        .raise (.endOfDataException "byte" "stream", { s with handle := handle, cache := cache })
      else
        .ok { s with
          handle := handle
          cache := BString.unlock (cur.length + s.toread cur.length) (cur ++ data) }
  else .ok s

/-- `readUntilChar`, on a handle that fails in some turns. -/
def readUntilCharOn : Nat → StreamBuffer → UInt8 → Nat → StreamCall (Nat × StreamBuffer)
  | 0, _, _, _ => .outOfFuel
  | fuel + 1, s, search, p =>
    match BString.findChar s.cache.octets search p with
    | some n => .ok (n, s)
    | none => do
      let p := s.cache.getSize
      let s ← s.extendCacheOn failure garbage (s.cache.getSize + 256)
      readUntilCharOn fuel s search p

/-- On a handle that never fails, in a memory of zeroes, these are `extendCache` and
`readUntilChar`. -/
theorem extendCacheOn_never (s : StreamBuffer) (min_size : Nat) :
    s.extendCacheOn (fun _ => none) (fun _ _ => 0) min_size = s.extendCache min_size := by
  have hwait : s.waitLimitOn (fun _ => none) = s.waitLimit := by
    unfold waitLimitOn
    cases s.time_limit <;> rfl
  have hroom : ∀ size, (List.range size).map (fun _ => (0 : UInt8)) = List.replicate size 0 :=
    fun size => by simp
  simp only [extendCacheOn, extendCache, hwait, lockMore, hroom]

theorem readUntilCharOn_never (fuel : Nat) (s : StreamBuffer) (search : UInt8) (p : Nat) :
    readUntilCharOn (fun _ => none) (fun _ _ => 0) fuel s search p =
      readUntilChar fuel s search p := by
  induction fuel generalizing s p with
  | zero => rfl
  | succ fuel ih =>
    rw [readUntilCharOn, readUntilChar, extendCacheOn_never]
    cases findChar s.cache.octets search p with
    | some n => rfl
    | none =>
      change s.extendCache _ >>= _ = s.extendCache _ >>= _
      simp only [ih]

/-- What was in the cache is there, with what the handle has delivered behind it, and nothing
else. -/
def Intact (s s' : StreamBuffer) : Prop :=
  ∃ chunk, s'.handle.delivered = s.handle.delivered ++ chunk ∧
    s'.cache.octets = s.cache.octets ++ chunk

/-- What was done leaves the cache as it is, since the exception comes before it is touched: from
the wait, or because no room is made in a cache that has nothing and suggests nothing. -/
def Untouched (s : StreamBuffer) : Prop :=
  (∃ r, s.waitLimitOn failure = .raise r) ∨ s.cache.octets = [] ∧ s.cache_suggest = 0

/-- One read after another. -/
inductive Extended : StreamBuffer → StreamBuffer → Prop
  | refl (s : StreamBuffer) : Extended s s
  | step {s s₁ s₂ : StreamBuffer}
      (h : s.extendCacheOn failure garbage (s.cache.getSize + 256) = .ok s₁)
      (hmore : Extended s₁ s₂) : Extended s s₂

theorem Intact.refl (s : StreamBuffer) : Intact s s :=
  ⟨[], (List.append_nil _).symm, (List.append_nil _).symm⟩

variable {s s' s₁ : StreamBuffer} {e : Exception}

/-- Behind intact steps, one that delivers nothing is intact exactly when it leaves the octets. -/
theorem Intact.iff_of_delivered (h : Intact s s₁)
    (hdelivered : s'.handle.delivered = s₁.handle.delivered) :
    Intact s s' ↔ s'.cache.octets = s₁.cache.octets := by
  obtain ⟨chunk, hchunk, hcache⟩ := h
  constructor
  · rintro ⟨chunk', hchunk', hcache'⟩
    obtain rfl : chunk' = chunk :=
      List.append_cancel_left (hchunk'.symm.trans (hdelivered.trans hchunk))
    exact hcache'.trans hcache.symm
  · intro hsame
    exact ⟨chunk, hdelivered.trans hchunk, hsame.trans hcache⟩

theorem Intact.trans (h : Intact s s₁) (h' : Intact s₁ s') : Intact s s' := by
  obtain ⟨chunk, hchunk, hcache⟩ := h
  obtain ⟨chunk', hchunk', hcache'⟩ := h'
  refine ⟨chunk ++ chunk', ?_, ?_⟩
  · rw [hchunk', hchunk, List.append_assoc]
  · rw [hcache', hcache, List.append_assoc]

theorem waitLimitOn_eq (h : s.waitLimitOn failure = .ok s') :
    ∃ turn, s' = { s with handle := { s.handle with turn := turn } } := by
  unfold waitLimitOn at h
  split at h
  · cases h
  · exact waitLimit_eq h

/-- A wait that raises delivers nothing, and leaves the cache. -/
theorem waitLimitOn_raise (h : s.waitLimitOn failure = .raise (e, s')) :
    s'.handle.delivered = s.handle.delivered ∧ s'.cache = s.cache := by
  unfold waitLimitOn at h
  split at h
  · obtain ⟨-, rfl⟩ := Prod.mk.inj (raise.inj h)
    exact ⟨rfl, rfl⟩
  · unfold waitLimit at h
    split_ifs at h
    · by_cases hready : s.handle.schedule.ready s.handle.turn
      · simp only [Handle.waitData, hready, if_true] at h
        cases h
      · simp only [Handle.waitData, hready] at h
        obtain ⟨-, rfl⟩ := Prod.mk.inj (raise.inj h)
        exact ⟨rfl, rfl⟩

theorem extendCacheOn_intact {min_size : Nat}
    (h : s.extendCacheOn failure garbage min_size = .ok s') : Intact s s' := by
  unfold extendCacheOn at h
  split_ifs at h
  · obtain ⟨s₁, hwait, h⟩ := bind_eq_ok.mp h
    obtain ⟨turn, rfl⟩ := waitLimitOn_eq failure hwait
    dsimp only at h
    split at h
    · cases h
    · split_ifs at h
      obtain rfl := ok.inj h
      exact ⟨_, rfl, octets_unlock _ _⟩
  · obtain rfl := ok.inj h
    exact .refl _

/-- The octets of a cache with room are those of the cache exactly without room. -/
theorem octets_lockMore (s : StreamBuffer) (size : Nat) :
    (s.lockMore garbage size).octets = s.cache.octets ↔ size = 0 := by
  rw [lockMore, octets_own, List.append_right_eq_self, List.map_eq_nil_iff,
    List.range_eq_nil]

/-- There is no room to make exactly for a cache without octets that suggests none. -/
theorem toread_eq_zero (s : StreamBuffer) :
    s.toread s.cache.octets.length = 0 ↔ s.cache.octets = [] ∧ s.cache_suggest = 0 := by
  rw [← List.length_eq_zero_iff, toread]
  split_ifs
  · omega
  · exact iff_of_false (by decide) (by omega)
  · omega

/-- A read that raises delivers nothing, and leaves the octets of the cache exactly when it did not
touch them. -/
theorem extendCacheOn_raise {min_size : Nat}
    (h : s.extendCacheOn failure garbage min_size = .raise (e, s')) :
    s'.handle.delivered = s.handle.delivered ∧
      (s'.cache.octets = s.cache.octets ↔ Untouched failure s) := by
  unfold extendCacheOn at h
  split_ifs at h
  cases hwait : s.waitLimitOn failure with
  | raise r =>
    rw [hwait, raise_bind] at h
    obtain rfl := raise.inj h
    obtain ⟨hdelivered, hcache⟩ := waitLimitOn_raise failure hwait
    exact ⟨hdelivered, iff_of_true (congrArg octets hcache) (Or.inl ⟨_, hwait⟩)⟩
  | ok s₁ =>
    obtain ⟨turn, rfl⟩ := waitLimitOn_eq failure hwait
    have hnot : Untouched failure s ↔ s.toread s.cache.octets.length = 0 := by
      rw [toread_eq_zero, Untouched]
      exact or_iff_right fun hraise => by
        obtain ⟨r, hraise⟩ := hraise
        rw [hraise] at hwait
        cases hwait
    rw [hwait, ok_bind] at h
    rw [hnot]
    dsimp only at h
    split at h
    · obtain ⟨-, rfl⟩ := Prod.mk.inj (raise.inj h)
      exact ⟨rfl, octets_lockMore garbage _ _⟩
    · split_ifs at h with hnone
      obtain ⟨-, rfl⟩ := Prod.mk.inj (raise.inj h)
      refine ⟨?_, octets_lockMore garbage _ _⟩
      dsimp only [Handle.read] at hnone ⊢
      rw [hnone, List.append_nil]
  | fault | outOfFuel =>
    rw [hwait] at h
    cases h

/-- A search that raises has made some reads, the next of which raises. -/
theorem readUntilCharOn_raise {fuel p : Nat} {search : UInt8}
    (h : readUntilCharOn failure garbage fuel s search p = .raise (e, s')) :
    ∃ s₁, Extended failure garbage s s₁ ∧ Intact s s₁ ∧
      s₁.extendCacheOn failure garbage (s₁.cache.getSize + 256) = .raise (e, s') := by
  induction fuel generalizing s p with
  | zero => cases h
  | succ fuel ih =>
    rw [readUntilCharOn] at h
    split at h
    · cases h
    · cases hextend : s.extendCacheOn failure garbage (s.cache.getSize + 256) with
      | ok s₂ =>
        dsimp only at h
        rw [hextend, ok_bind] at h
        obtain ⟨s₁, hmore, hintact, hlast⟩ := ih h
        exact ⟨s₁, .step hextend hmore,
          (extendCacheOn_intact failure garbage hextend).trans hintact, hlast⟩
      | raise r =>
        dsimp only at h
        rw [hextend, raise_bind] at h
        obtain rfl := raise.inj h
        exact ⟨s, .refl s, .refl s, hextend⟩
      | fault | outOfFuel =>
        dsimp only at h
        rw [hextend] at h
        cases h

/-- An exception of `extendCache` or `readUntilChar` leaves the cache with what was there and what
was read exactly when it comes before room is made: from the wait, or where there is none to
make. -/
theorem errors_intact_iff :
    (∀ (s s' : StreamBuffer) (min_size : Nat) (e : Exception),
      s.extendCacheOn failure garbage min_size = .raise (e, s') →
      (Intact s s' ↔ Untouched failure s)) ∧
    ∀ (s s' : StreamBuffer) (fuel p : Nat) (search : UInt8) (e : Exception),
      readUntilCharOn failure garbage fuel s search p = .raise (e, s') →
      ∃ s₁, Extended failure garbage s s₁ ∧
        s₁.extendCacheOn failure garbage (s₁.cache.getSize + 256) = .raise (e, s') ∧
        (Intact s s' ↔ Untouched failure s₁) := by
  refine ⟨fun s s' min_size e hraise => ?_, fun s s' fuel p search e hraise => ?_⟩
  · obtain ⟨hdelivered, hsame⟩ := extendCacheOn_raise failure garbage hraise
    exact ((Intact.refl s).iff_of_delivered hdelivered).trans hsame
  · obtain ⟨s₁, hextended, hintact, hlast⟩ := readUntilCharOn_raise failure garbage hraise
    obtain ⟨hdelivered, hsame⟩ := extendCacheOn_raise failure garbage hlast
    exact ⟨s₁, hextended, hlast, (hintact.iff_of_delivered hdelivered).trans hsame⟩

/-- A buffer that reads four octets ahead, on a handle with one. -/
def oneOctet : StreamBuffer := (new (.fresh (.every 8 (by decide)) [65])).setCacheSize 4

/-- What a memory holds. -/
def leftovers (_ i : Nat) : UInt8 := 200 + UInt8.ofNat i

/-- A search for the end of a line on a handle that ends without one: the search raises, and the
next read returns three octets that the handle has never delivered. -/
theorem not_intact_end :
    ∃ s' s'', readUntilCharOn (fun _ => none) leftovers 3 oneOctet 10 0 =
        .raise (.endOfDataException "byte" "stream", s') ∧ ¬ Intact oneOctet s' ∧
      s'.read 10 = .ok ([65, 200, 201, 202], s'') ∧ s''.handle.delivered = [65] := by
  let handle (turn : Nat) : Handle := ⟨.every 8 (by decide), turn, [], [65], []⟩
  have hfirst : oneOctet.extendCacheOn (fun _ => none) leftovers 256 =
      .ok ⟨handle 1, .own [65], 4, false⟩ := rfl
  have hsecond : extendCacheOn (fun _ => none) leftovers ⟨handle 1, .own [65], 4, false⟩ 257 =
      .raise (.endOfDataException "byte" "stream",
        ⟨handle 2, .own [65, 200, 201, 202], 4, false⟩) := rfl
  have hnone : findChar oneOctet.cache.octets 10 0 = none := rfl
  have hnone' : findChar [65] 10 oneOctet.cache.getSize = none := rfl
  refine ⟨⟨handle 2, .own [65, 200, 201, 202], 4, false⟩, ⟨handle 2, .zero, 4, false⟩, ?_, ?_, rfl,
    rfl⟩
  · rw [readUntilCharOn, hnone]
    dsimp only
    rw [show oneOctet.cache.getSize + 256 = 256 from rfl, hfirst, ok_bind, readUntilCharOn,
      octets_own, hnone']
    dsimp only
    rw [show getSize (.own [65]) + 256 = 257 from rfl, hsecond, raise_bind]
  · rintro ⟨chunk, hdelivered, hcache⟩
    exact absurd (hdelivered.trans hcache.symm) (by decide)

end StreamBuffer

end Drt
