import Drt.Io.Stream.StreamAccount

/-!
# What a call takes from what lies ahead

A buffer without a time limit, and what lies ahead of it: these decide what its calls
give, however the handle splits the stream into reads.
-/

open List

namespace Drt

open StreamBuffer BString

namespace BString

theorem findChar_eq {chr : UInt8} {pre more : Blob} (hpre : chr ∉ pre) {p : Nat}
    (hp : p ≤ pre.length) : findChar (pre ++ chr :: more) chr p = some pre.length := by
  have hnot : chr ∉ pre.drop p := fun hmem => hpre (mem_of_mem_drop hmem)
  have hfind : findChar (pre.take p ++ (pre.drop p ++ chr :: more)) chr (pre.take p).length = _ :=
    findChar_behind more hnot
  rw [← append_assoc, take_append_drop, length_take_of_le hp, length_drop,
    Nat.add_sub_cancel' hp] at hfind
  exact hfind

theorem findChar_none {chr : UInt8} {octets : Blob} (h : chr ∉ octets) (p : Nat) :
    findChar octets chr p = none := by
  rw [findChar, Option.map_eq_none_iff, List.findIdx?_eq_none_iff]
  intro x hx
  have hmem := mem_of_mem_drop hx
  exact decide_eq_false fun heq => h (heq ▸ hmem)

end BString

namespace StreamBuffer

/-- A buffer that never waits, with these octets ahead of it. Its cache is not at the end, and is
the shared empty data when it has no octets. -/
structure Holds (s : StreamBuffer) (ahead : Blob) : Prop where
  unlimited : s.time_limit = false
  suggest : 0 < s.cache_suggest
  cache : s.cache = .createDgLen s.cache.octets
  ahead : s.ahead = ahead

theorem holds_new (schedule : Schedule) (octets : Blob) :
    (new (Handle.fresh schedule octets)).Holds octets :=
  ⟨rfl, Nat.succ_pos 4095, rfl, rfl⟩

namespace Holds

variable {s : StreamBuffer} {octets : Blob}

theorem waitLimit (h : s.Holds octets) : s.waitLimit = .ok s := by
  rw [StreamBuffer.waitLimit, if_neg (by simp [h.unlimited])]

theorem isNull (h : s.Holds octets) : s.cache.isNull = false := by
  rw [h.cache, createDgLen]
  split_ifs <;> rfl

theorem toread_pos (h : s.Holds octets) : 0 < s.toread s.cache.octets.length := by
  have hsuggest := h.suggest
  unfold toread
  split_ifs <;> omega

/-- The octets in front are dropped. -/
theorem shrinkCache {pre rest : Blob} (h : s.Holds (pre ++ rest))
    (hcache : ∃ more, s.cache.octets = pre ++ more) :
    (s.shrinkCache pre.length).Holds rest := by
  obtain ⟨more, hmore⟩ := hcache
  refine ⟨h.unlimited, h.suggest, ?_, ?_⟩
  · simp only [StreamBuffer.shrinkCache, BString.removeLeft]
    split_ifs
    · exact h.cache
    · rw [BString.octets_createDgLen]
  · have hahead := h.ahead
    rw [StreamBuffer.ahead, hmore, append_assoc] at hahead
    rw [StreamBuffer.ahead, StreamBuffer.shrinkCache, BString.octets_removeLeft, hmore,
      drop_left]
    exact append_cancel_left hahead

/-- A character ahead is in the cache, or the cache ends before it. -/
theorem split {chr : UInt8} {pre rest : Blob} (h : s.Holds (pre ++ chr :: rest)) :
    (∃ more, s.cache.octets = pre ++ chr :: more) ∨
      (∃ pre', pre = s.cache.octets ++ pre' ∧ s.handle.pending = pre' ++ chr :: rest) := by
  rcases append_eq_append_iff.mp h.ahead with ⟨pre', hpre, hpending⟩ | ⟨more, hmore, hrest⟩
  · exact Or.inr ⟨pre', hpre, hpending⟩
  · cases more with
    | nil => exact Or.inr ⟨[], by simpa using hmore.symm, by simpa using hrest.symm⟩
    | cons c more =>
      obtain ⟨rfl, -⟩ := List.cons.inj hrest
      exact Or.inl ⟨more, hmore⟩

/-- The buffer after a read of the handle that found something. -/
theorem of_read (h : s.Holds octets) (old : Nat) {handle : Handle} {data : Blob}
    (hread : s.handle.read (s.toread s.cache.octets.length) = (data, handle)) (hdata : data ≠ []) :
    Holds { s with handle := handle, cache := BString.unlock old (s.cache.octets ++ data) }
      octets where
  unlimited := h.unlimited
  suggest := h.suggest
  cache := by
    have hne : s.cache.octets ++ data ≠ [] := by simp [hdata]
    rw [BString.octets_unlock, BString.unlock, BString.createDgLen, if_neg hne]
    split_ifs <;> rfl
  ahead := by
    have hpending := (s.handle.read_pending (s.toread s.cache.octets.length)).1
    rw [hread] at hpending
    rw [StreamBuffer.ahead, BString.octets_unlock, append_assoc, hpending]
    exact h.ahead

/-- A read of the handle takes at least one of the octets that it has. -/
theorem read_pending_lt (h : s.Holds octets) (hpending : s.handle.pending ≠ []) :
    ∃ data handle, s.handle.read (s.toread s.cache.octets.length) = (data, handle) ∧ data ≠ [] ∧
      handle.pending.length < s.handle.pending.length := by
  have hdata := Handle.read_ne_nil h.toread_pos hpending
  have hlength := congrArg List.length (s.handle.read_pending (s.toread s.cache.octets.length)).1
  rw [length_append] at hlength
  have hpos := length_pos_iff.mpr hdata
  refine ⟨_, _, rfl, hdata, ?_⟩
  simp only [Handle.read] at hlength hpos ⊢
  omega

/-- `extendCache` reads on, as long as there is something. -/
theorem extendCache (h : s.Holds octets) (hpending : s.handle.pending ≠ []) {min_size : Nat}
    (hmin : s.cache.getSize < min_size) :
    ∃ s', s.extendCache min_size = .ok s' ∧ s'.Holds octets ∧
      s'.handle.pending.length < s.handle.pending.length ∧
      ∃ data, s'.cache.octets = s.cache.octets ++ data := by
  obtain ⟨data, handle, hread, hdata, hlt⟩ := h.read_pending_lt hpending
  refine ⟨_, ?_, h.of_read (s.cache.octets.length + s.toread s.cache.octets.length) hread hdata,
    hlt, data, BString.octets_unlock _ _⟩
  rw [StreamBuffer.extendCache, if_pos hmin, h.waitLimit, Outcome.ok_bind]
  simp only [hread, if_neg hdata]

end Holds

variable {s : StreamBuffer} {octets pre rest : Blob}

/-- A character that lies ahead is found in the cache, or is still to be read. -/
theorem Holds.findChar_cases {chr : UInt8} (h : s.Holds (pre ++ chr :: rest)) (hpre : chr ∉ pre)
    {p : Nat} (hp : p ≤ pre.length) :
    (∃ more, s.cache.octets = pre ++ chr :: more) ∧
        findChar s.cache.octets chr p = some pre.length ∨
      findChar s.cache.octets chr p = none ∧ s.handle.pending ≠ [] ∧
        s.cache.getSize ≤ pre.length := by
  rcases h.split with ⟨more, hmore⟩ | ⟨pre', hpre', hpending⟩
  · exact .inl ⟨⟨more, hmore⟩, by rw [hmore, findChar_eq hpre hp]⟩
  · refine .inr ⟨findChar_none (fun hmem => hpre (hpre' ▸ mem_append_left _ hmem)) p,
      by simp [hpending], ?_⟩
    rw [hpre', length_append, getSize]
    omega

/-- `readUntilChar` finds a character that lies ahead, and has it in the cache then. -/
theorem readUntilChar_returns {chr : UInt8} (h : s.Holds (pre ++ chr :: rest)) (hpre : chr ∉ pre)
    {p : Nat} (hp : p ≤ pre.length) :
    ∃ s', Outcome.Returns (fun fuel => readUntilChar fuel s chr p) (pre.length, s') ∧
      s'.Holds (pre ++ chr :: rest) ∧ ∃ more, s'.cache.octets = pre ++ chr :: more := by
  induction hn : s.handle.pending.length using Nat.strongRecOn generalizing s p with
  | ind n ih =>
    rcases h.findChar_cases hpre hp with ⟨hmore, hsome⟩ | ⟨hnone, hne, hp₁⟩
    · refine ⟨s, .of_succ_ok fun fuel => ?_, h, hmore⟩
      rw [readUntilChar, hsome]
    · obtain ⟨s₁, hextend, h₁, hlt, -⟩ := h.extendCache hne
        (show s.cache.getSize < s.cache.getSize + 256 by omega)
      obtain ⟨s', hrun, hafter⟩ := ih _ (hn ▸ hlt) h₁ hp₁ rfl
      refine ⟨s', hrun.of_succ fun fuel => ?_, hafter⟩
      rw [readUntilChar, hnone]
      simp only [extendCacheAdd, hextend, Outcome.ok_bind]

/-- `tryExtendCacheAdd` reads on, as long as there is something. -/
theorem Holds.tryExtendCacheAdd (h : s.Holds octets) (hpending : s.handle.pending ≠ []) :
    ∃ n s', Outcome.Returns (fun fuel => tryExtendCacheAdd fuel s 1) (n, s') ∧ 0 < n ∧
      s'.Holds octets ∧ s'.handle.pending.length < s.handle.pending.length := by
  obtain ⟨data, handle, hread, hdata, hlt⟩ := h.read_pending_lt hpending
  have h' := h.of_read s.cache.octets.length hread hdata
  generalize hs' : ({ s with
    handle := handle
    cache := unlock s.cache.octets.length (s.cache.octets ++ data) } : StreamBuffer) = s'
    at h'
  have hsize : s'.cache.getSize = s.cache.getSize + data.length := by
    rw [← hs', getSize, octets_unlock, List.length_append, getSize]
  have hpos := List.length_pos_iff.mpr hdata
  have hlast : Outcome.Returns (fun fuel => tryExtendCache fuel s' (s.cache.getSize + 1))
      (s'.cache.getSize, s') :=
    .of_succ_ok fun fuel => by rw [tryExtendCache, if_neg (by omega)]
  have htry : Outcome.Returns (fun fuel => tryExtendCache fuel s (s.cache.getSize + 1))
      (s'.cache.getSize, s') := by
    refine hlast.of_succ fun fuel => ?_
    rw [tryExtendCache, if_pos (Nat.lt_add_one _), h.waitLimit, Outcome.ok_bind]
    simp only [hread, if_neg hdata, hs']
  refine ⟨s'.cache.getSize - s.cache.getSize, s', htry.bind (.ok _), by omega, h', ?_⟩
  rw [← hs']
  exact hlt

/-- `tryReadUntilChar` finds a character that lies ahead, and has it in the cache then. -/
theorem tryReadUntilChar_returns {chr : UInt8} (h : s.Holds (pre ++ chr :: rest)) (hpre : chr ∉ pre)
    {p : Nat} (hp : p ≤ pre.length) :
    ∃ s', Outcome.Returns (fun fuel => tryReadUntilChar fuel s chr p) (some pre.length, s') ∧
      s'.Holds (pre ++ chr :: rest) ∧ ∃ more, s'.cache.octets = pre ++ chr :: more := by
  induction hn : s.handle.pending.length using Nat.strongRecOn generalizing s p with
  | ind n ih =>
    rcases h.findChar_cases hpre hp with ⟨hmore, hsome⟩ | ⟨hnone, hne, hp₁⟩
    · refine ⟨s, .of_succ_ok fun fuel => ?_, h, hmore⟩
      rw [tryReadUntilChar, hsome]
    · obtain ⟨added, s₁, hextend, hadded, h₁, hlt⟩ := h.tryExtendCacheAdd hne
      obtain ⟨s', hrun, hafter⟩ := ih _ (hn ▸ hlt) h₁ hp₁ rfl
      have hnext : Outcome.Returns (fun fuel => tryExtendCacheAdd fuel s 1 >>= fun r =>
          if r.1 = 0 then .ok (none, r.2)
          else tryReadUntilChar fuel r.2 chr s.cache.getSize) (some pre.length, s') :=
        hextend.bind (hrun.congr fun fuel => if_neg (Nat.pos_iff_ne_zero.mp hadded))
      refine ⟨s', hnext.of_succ fun fuel => ?_, hafter⟩
      rw [tryReadUntilChar, hnone]

/-- A read takes some of the octets ahead, and no more than it was asked for. -/
theorem Holds.readData (h : s.Holds octets) (hne : octets ≠ []) {maxsize : Nat}
    (hpos : 0 < maxsize) :
    ∃ data rest s', s.readData maxsize = .ok (data, s') ∧ octets = data ++ rest ∧ data ≠ [] ∧
      data.length ≤ maxsize ∧ s'.Holds rest := by
  by_cases hempty : s.cache.isNullEmpty
  · have hcache := BString.octets_of_isNullEmpty hempty
    have hahead := h.ahead
    rw [StreamBuffer.ahead, hcache, List.nil_append] at hahead
    have hdata := Handle.read_ne_nil hpos (hahead ▸ hne)
    have hread := (s.handle.read_pending maxsize).1
    rw [hahead] at hread
    refine ⟨_, _, { s with handle := (s.handle.read maxsize).2 }, ?_, hread.symm, hdata,
      s.handle.length_read_le maxsize, h.unlimited, h.suggest, h.cache, ?_⟩
    · rw [StreamBuffer.readData, if_pos hempty, if_neg (by simp [h.isNull]), h.waitLimit,
        Outcome.ok_bind]
      simp only [if_neg hdata]
    · rw [StreamBuffer.ahead, hcache, List.nil_append]
  · have hcache : s.cache.octets ≠ [] := by
      intro hnil
      have hzero := h.cache
      rw [hnil, BString.createDgLen, if_pos rfl] at hzero
      exact hempty (by rw [hzero]; rfl)
    have hahead := h.ahead
    rw [StreamBuffer.ahead] at hahead
    rw [StreamBuffer.readData, if_neg hempty]
    by_cases hsize : maxsize < s.cache.getSize
    · have htake : (s.cache.octets.take maxsize).length = maxsize := by
        rw [List.length_take]
        exact Nat.min_eq_left (Nat.le_of_lt hsize)
      have hsplit := List.take_append_drop maxsize s.cache.octets
      have hrest : s.Holds (s.cache.octets.take maxsize ++
          (s.cache.octets.drop maxsize ++ s.handle.pending)) := by
        rw [← List.append_assoc, hsplit, hahead]
        exact h
      have hholds := hrest.shrinkCache ⟨_, hsplit.symm⟩
      rw [htake] at hholds
      refine ⟨_, _, _, if_pos hsize, ?_, ?_, Nat.le_of_eq htake, hholds⟩
      · rw [← List.append_assoc, hsplit, hahead]
      · rw [← List.length_pos_iff, htake]
        exact hpos
    · refine ⟨_, s.handle.pending, _, if_neg hsize, hahead.symm, hcache, Nat.le_of_not_lt hsize,
        h.unlimited, h.suggest, rfl, rfl⟩

end StreamBuffer

/-! ### The lines of a stream

What `tryReadLine` gives of what lies ahead: a line with its newline, the octets behind the
last newline, and null at the end. -/

open Outcome

namespace StreamBuffer

variable {s : StreamBuffer}

/-- A buffer with all that is left in its cache. -/
structure Drained (s : StreamBuffer) (octets : Blob) : Prop where
  unlimited : s.time_limit = false
  suggest : 0 < s.cache_suggest
  cache : s.cache.octets = octets
  pending : s.handle.pending = []

variable {line octets : Blob}

theorem Holds.drained (h : s.Holds octets) (hpending : s.handle.pending = []) :
    s.Drained octets := by
  have hahead := h.ahead
  rw [StreamBuffer.ahead, hpending, append_nil] at hahead
  exact ⟨h.unlimited, h.suggest, hahead, hpending⟩

/-- `tryExtendCacheAdd` adds nothing at the end of the data. -/
theorem tryExtendCacheAdd_end (h : s.Drained octets) :
    ∃ s', Returns (fun fuel => tryExtendCacheAdd fuel s 1) (0, s') ∧ s'.Drained octets := by
  have hread := (s.handle.read_pending (s.toread s.cache.octets.length)).1
  rw [h.pending] at hread
  obtain ⟨hdata, hrest⟩ := append_eq_nil_iff.mp hread
  have hwait : s.waitLimit = .ok s := by rw [waitLimit, if_neg (by simp [h.unlimited])]
  generalize hs' : ({ s with
    handle := (s.handle.read (s.toread s.cache.octets.length)).2
    cache := unlock s.cache.octets.length s.cache.octets } : StreamBuffer) = s'
  have hcache : s'.cache.octets = s.cache.octets := by rw [← hs', octets_unlock]
  have htry : Returns (fun fuel => tryExtendCache fuel s (s.cache.getSize + 1))
      (s.cache.getSize, s') := by
    refine Returns.of_succ_ok fun fuel => ?_
    rw [tryExtendCache, if_pos (Nat.lt_add_one _), hwait, ok_bind]
    simp only [hdata, append_nil, if_true, hs']
    rw [getSize, getSize, octets_unlock]
  refine ⟨s', htry.bind (.of_eq fun fuel => ?_), ?_⟩
  · simp only [Nat.sub_self]
  · refine ⟨?_, ?_, hcache.trans h.cache, ?_⟩
    · rw [← hs']
      exact h.unlimited
    · rw [← hs']
      exact h.suggest
    · rw [← hs']
      exact hrest

/-- `tryReadUntilChar` looks up to the end for a character that is not there. -/
theorem tryReadUntilChar_none {chr : UInt8} (h : s.Holds octets) (hchr : chr ∉ octets) (p : Nat) :
    ∃ s', Returns (fun fuel => tryReadUntilChar fuel s chr p) (none, s') ∧ s'.Drained octets := by
  induction hn : s.handle.pending.length using Nat.strongRecOn generalizing s p with
  | ind n ih =>
    have hnone : findChar s.cache.octets chr p = none :=
      findChar_none (fun hmem => hchr (h.ahead ▸ mem_append_left _ hmem)) p
    by_cases hpending : s.handle.pending = []
    · obtain ⟨s', hextend, hdrained⟩ := tryExtendCacheAdd_end (h.drained hpending)
      have hnext : Returns (fun fuel => tryExtendCacheAdd fuel s 1 >>= fun r =>
          if r.1 = 0 then .ok (none, r.2)
          else tryReadUntilChar fuel r.2 chr s.cache.getSize) (none, s') :=
        hextend.bind (.of_eq fun fuel => if_pos rfl)
      refine ⟨s', hnext.of_succ fun fuel => ?_, hdrained⟩
      rw [tryReadUntilChar, hnone]
    · obtain ⟨added, s₁, hextend, hadded, h₁, hlt⟩ := h.tryExtendCacheAdd hpending
      obtain ⟨s', hrun, hdrained⟩ := ih _ (hn ▸ hlt) h₁ s.cache.getSize rfl
      have hnext : Returns (fun fuel => tryExtendCacheAdd fuel s 1 >>= fun r =>
          if r.1 = 0 then .ok (none, r.2)
          else tryReadUntilChar fuel r.2 chr s.cache.getSize) (none, s') :=
        hextend.bind (hrun.congr fun fuel => if_neg (Nat.pos_iff_ne_zero.mp hadded))
      refine ⟨s', hnext.of_succ fun fuel => ?_, hdrained⟩
      rw [tryReadUntilChar, hnone]

/-- A line comes with its newline. -/
theorem tryReadLine_line {rest : Blob} (h : s.Holds (line ++ 10 :: rest)) (hline : 10 ∉ line) :
    ∃ s', Returns (fun fuel => tryReadLine fuel s) (some (line ++ [10]), s') ∧ s'.Holds rest := by
  obtain ⟨s₁, hfind, h₁, more, hmore⟩ := tryReadUntilChar_returns h hline (Nat.zero_le _)
  have hcache : s₁.cache.octets = (line ++ [10]) ++ more := by simp [hmore]
  have hahead : line ++ 10 :: rest = (line ++ [10]) ++ rest := by simp
  have hholds := (hahead ▸ h₁).shrinkCache ⟨more, hcache⟩
  refine ⟨s₁.shrinkCache (line ++ [10]).length, (hfind.bind (.of_eq fun fuel => ?_)), hholds⟩
  rw [length_append, length_singleton]
  simp only [hcache]
  rw [take_left' (by simp)]

theorem tryReadLine_last (h : s.Holds line) (hline : 10 ∉ line) (hne : line ≠ []) :
    ∃ s', Returns (fun fuel => tryReadLine fuel s) (some line, s') ∧ s'.Holds [] := by
  obtain ⟨s₁, hfind, h₁⟩ := tryReadUntilChar_none h hline 0
  have hsize : 0 < s₁.cache.getSize := by
    rw [getSize, h₁.cache]
    exact length_pos_iff.mpr hne
  refine ⟨s₁.cleanGet.2, hfind.bind (.of_eq fun fuel => ?_), h₁.unlimited, h₁.suggest, rfl, ?_⟩
  · simp only [if_pos hsize, cleanGet, h₁.cache]
  · rw [ahead, cleanGet, h₁.pending]
    rfl

theorem tryReadLine_end (h : s.Holds []) :
    ∃ s', Returns (fun fuel => tryReadLine fuel s) (none, s') := by
  obtain ⟨s₁, hfind, h₁⟩ := tryReadUntilChar_none h (not_mem_nil : (10 : UInt8) ∉ []) 0
  have hsize : ¬ 0 < s₁.cache.getSize := by
    rw [getSize, h₁.cache]
    exact Nat.lt_irrefl 0
  refine ⟨s₁, hfind.bind (.of_eq fun fuel => ?_)⟩
  simp only [if_neg hsize]

end StreamBuffer

end Drt
