import Drt.Net.Rpc.FastRpcLengths

/-!
# Times in FastRPC

Five octets hold the fields of a calendar across their bounds, and four more the seconds. The
decoder takes the calendar only where the seconds are zero. The calendar comes back whole; the
seconds are cut to four octets, and the calendar of a time before 1970 is not converted.
-/

namespace Drt

open Bytes FastRpc FastRpcDecoder

/-- The functions of `Time` for the encoders. A time without a calendar raises an exception before
anything is written. -/
def rpcFormat (lib : TimeLibrary) (sprintf : UInt64 → Blob) : RpcFormat where
  timeToUtcCalendar t :=
    match Time.timeToUtcCalendar lib t with
    | .ok cal => cal
    | _ => ⟨0, 0, 0, 0, 0, 0⟩
  toSeconds := Time.toSeconds
  sprintf := sprintf

/-- The functions of `Time` for the decoders. -/
def rpcTime (lib : TimeLibrary) : RpcTime := ⟨Time.convertUtcTime lib, Time.fromSeconds⟩

namespace FastRpcEncoder

/-- The octets of a calendar: months and days from one, years from 1600. -/
def calendarOctets (year mon day hour min sec : Nat) : Blob :=
  [.ofNat (7 + sec % 32 * 8), .ofNat (sec / 32 + min * 2 + hour % 2 * 128),
    .ofNat (hour / 2 + day % 16 * 16), .ofNat (day / 16 + mon * 2 + year % 8 * 32),
    .ofNat (year / 8)]

theorem octet_ofNat (n : Nat) : (Int32.ofNat n).toInt8.toUInt8 = UInt8.ofNat n := by
  apply UInt8.toNat_inj.mp
  simp

variable {day hour min mon sec year : Nat}

theorem field_sec (h : sec < 64) :
    (Int32.ofNat sec &&& 0x1f) <<< 3 = Int32.ofNat (sec % 32 * 8) ∧
      (Int32.ofNat sec &&& 0x20) >>> 5 = Int32.ofNat (sec / 32) := by
  revert sec
  decide

theorem field_min (h : min < 64) : (Int32.ofNat min &&& 0x3f) <<< 1 = Int32.ofNat (min * 2) := by
  revert min
  decide

theorem field_hour (h : hour < 32) :
    (Int32.ofNat hour &&& 0x01) <<< 7 = Int32.ofNat (hour % 2 * 128) ∧
      (Int32.ofNat hour &&& 0x1e) >>> 1 = Int32.ofNat (hour / 2) := by
  revert hour
  decide

theorem field_day (h : day < 32) :
    (Int32.ofNat day &&& 0x0f) <<< 4 = Int32.ofNat (day % 16 * 16) ∧
      (Int32.ofNat day &&& 0x1f) >>> 4 = Int32.ofNat (day / 16) := by
  revert day
  decide

theorem field_mon (h : mon < 16) : (Int32.ofNat mon &&& 0x0f) <<< 1 = Int32.ofNat (mon * 2) := by
  revert mon
  decide

theorem ofNat_and (m n : Nat) : Int32.ofNat m &&& Int32.ofNat n = Int32.ofNat (m &&& n) := by
  apply Int32.toBitVec_inj.mp
  exact BitVec.ofNat_and.symm

/-- The high bits of a year. -/
theorem and_yearMask (h : year < 2048) : year &&& 0x7f8 = year / 8 * 8 := by
  have hmask : (0x7f8 : Nat) = (2 ^ 8 - 1) * 2 ^ 3 := rfl
  have hyear : year / 8 * 8 = year / 2 ^ 3 * 2 ^ 3 := rfl
  apply Nat.eq_of_testBit_eq
  intro i
  rw [hmask, hyear, Nat.testBit_and, Nat.testBit_mul_two_pow, Nat.testBit_mul_two_pow,
    Nat.testBit_two_pow_sub_one, Nat.testBit_div_two_pow]
  by_cases hi : 3 ≤ i
  · by_cases hbit : i < 11
    · have hbit' : i - 3 < 8 := by omega
      simp [hi, hbit']
    · have hpow : 2 ^ 11 ≤ 2 ^ i := Nat.pow_le_pow_right (by decide) (by omega)
      have hfalse : year.testBit i = false := Nat.testBit_lt_two_pow (Nat.lt_of_lt_of_le h hpow)
      simp [hi, hfalse]
  · simp [hi]

theorem field_year (h : year < 2048) :
    (Int32.ofNat year &&& 0x07) <<< 5 = Int32.ofNat (year % 8 * 32) ∧
      (Int32.ofNat year &&& 0x7f8) >>> 3 = Int32.ofNat (year / 8) := by
  have hleft : ∀ low < 8, Int32.ofNat low <<< 5 = Int32.ofNat (low * 32) := by decide
  have hright : ∀ high < 256, Int32.ofNat (high * 8) >>> 3 = Int32.ofNat high := by decide +kernel
  constructor
  · have hand : Int32.ofNat year &&& 0x07 = Int32.ofNat (year &&& 0x07) := ofNat_and year 0x07
    rw [hand, Nat.and_two_pow_sub_one_eq_mod year 3]
    exact hleft _ (Nat.mod_lt year (by decide))
  · have hand : Int32.ofNat year &&& 0x7f8 = Int32.ofNat (year &&& 0x7f8) := ofNat_and year 0x7f8
    rw [hand, and_yearMask h]
    exact hright _ (by omega)

theorem toNat_lowOctet (x : Int64) : (x.toInt8.toUInt8.toNat : Int) = x.toInt % 256 := by
  have hsign (b : BitVec 8) : (b.toNat : Int) = b.toInt % 256 := by
    rw [BitVec.toInt_eq_toNat_bmod]
    have hmod : (b.toNat : Int).bmod (2 ^ 8) % ((2 ^ 8 : Nat) : Int) = _ := Int.bmod_emod
    have hlt := b.isLt
    omega
  have hlow := hsign x.toInt8.toBitVec
  have hcut : x.toInt8.toBitVec.toInt = x.toInt.bmod (2 ^ 8) := Int64.toInt_toInt8 x
  have hmod : x.toInt.bmod (2 ^ 8) % ((2 ^ 8 : Nat) : Int) = _ := Int.bmod_emod
  rw [hcut] at hlow
  exact hlow.trans hmod

theorem toInt_shiftRight (s : Int64) :
    (s >>> 8).toInt = s.toInt / 256 ∧ (s >>> 16).toInt = s.toInt / 65536 ∧
      (s >>> 24).toInt = s.toInt / 16777216 := by
  have hshift (n : Nat) : (s.toBitVec.sshiftRight n).toInt = s.toInt / ((2 ^ n : Nat) : Int) := by
    rw [BitVec.toInt_sshiftRight, Int.shiftRight_eq_div_pow]
    rfl
  exact ⟨hshift 8, hshift 16, hshift 24⟩

/-- The seconds are written as the low octets of their word. -/
theorem secondsOctets (s : Int64) :
    [s.toInt8.toUInt8, (s >>> 8).toInt8.toUInt8, (s >>> 16).toInt8.toUInt8,
      (s >>> 24).toInt8.toUInt8] = leBytes 4 (s.toInt % 2 ^ 32).toNat := by
  obtain ⟨h8, h16, h24⟩ := toInt_shiftRight s
  have hoctet {x : Int64} (v : Nat) (h : x.toInt % 256 = v % 256) :
      x.toInt8.toUInt8 = UInt8.ofNat v := by
    have hlow := toNat_lowOctet x
    apply UInt8.toNat_inj.mp
    rw [UInt8.toNat_ofNat']
    omega
  simp only [leBytes]
  rw [hoctet (s.toInt % 2 ^ 32).toNat (by omega),
    hoctet ((s.toInt % 2 ^ 32).toNat / 256) (by omega),
    hoctet ((s.toInt % 2 ^ 32).toNat / 256 / 256) (by omega),
    hoctet ((s.toInt % 2 ^ 32).toNat / 256 / 256 / 256) (by omega)]

/-- What is written for a time whose calendar fits into the octets. -/
theorem timeOctets_eq {format : RpcFormat} {t : Int64} (hyear : year < 2048) (hmon : mon < 16)
    (hday : day < 32) (hhour : hour < 32) (hmin : min < 64) (hsec : sec < 64)
    (hcal : format.timeToUtcCalendar t = ⟨.ofNat year + 1600, .ofNat mon - 1, .ofNat day - 1,
      .ofNat hour, .ofNat min, .ofNat sec⟩) :
    timeOctets format t = 0x28 :: 0 :: (leBytes 4 ((format.toSeconds t).toInt % 2 ^ 32).toNat ++
      calendarOctets year mon day hour min sec) := by
  have hback (a b : Int32) : a + b - b = a := Int32.add_sub_cancel ..
  have hback' (a b : Int32) : a - b + b = a := Int32.sub_add_cancel ..
  obtain ⟨hsec, hsec'⟩ := field_sec hsec
  obtain ⟨hhour, hhour'⟩ := field_hour hhour
  obtain ⟨hday, hday'⟩ := field_day hday
  obtain ⟨hyear, hyear'⟩ := field_year hyear
  have hseven (n : Nat) : 7 + Int32.ofNat n = Int32.ofNat (7 + n) := (Int32.ofNat_add 7 n).symm
  unfold timeOctets
  simp only [hcal, hback, hback', hsec, hsec', field_min hmin, hhour, hhour', hday, hday',
    field_mon hmon, hyear, hyear', hseven, ← Int32.ofNat_add, octet_ofNat]
  rw [← secondsOctets]
  rfl

end FastRpcEncoder

namespace FastRpcDecoder

open FastRpcEncoder

/-- The fields are taken from their places in the octets. -/
theorem fields_octet {x : Nat} (h : x < 256) :
    (x &&& 0xf8) >>> 3 = x / 8 ∧ (x &&& 0x7e) >>> 1 = x / 2 % 64 ∧
      (x &&& 0x1e) >>> 1 = x / 2 % 16 := by
  have hfield (mask k j : Nat) (hmask : mask >>> k = 2 ^ j - 1) :
      (x &&& mask) >>> k = x / 2 ^ k % 2 ^ j := by
    rw [Nat.shiftRight_and_distrib, hmask, Nat.and_two_pow_sub_one_eq_mod,
      Nat.shiftRight_eq_div_pow]
  refine ⟨?_, hfield 0x7e 1 6 rfl, hfield 0x1e 1 4 rfl⟩
  rw [hfield 0xf8 3 5 rfl]
  omega

/-- A field across two octets: its low bits are the high ones of the first. -/
theorem joined (high low k : Nat) (h : low < 2 ^ k) : high <<< k ||| low = high * 2 ^ k + low := by
  rw [← Nat.shiftLeft_add_eq_or_of_lt h, Nat.shiftLeft_eq]

variable {day hour min mon sec year : Nat}

/-- The fields come back from the octets of a calendar. -/
theorem fields_calendarOctets (hyear : year < 2048) (hmon : mon < 16) (hday : day < 32)
    (hhour : hour < 32) (hmin : min < 64) (hsec : sec < 64) :
    let p (i : Nat) : Nat := ((calendarOctets year mon day hour min sec).getD i 0).toNat
    (p 4 <<< 3 ||| p 3 >>> 5 = year ∧ (p 3 &&& 0x1e) >>> 1 = mon ∧
      (p 3 &&& 1) <<< 4 ||| p 2 >>> 4 = day) ∧ (p 2 &&& 0xf) <<< 1 ||| p 1 >>> 7 = hour ∧
      (p 1 &&& 0x7e) >>> 1 = min ∧ (p 1 &&& 1) <<< 5 ||| (p 0 &&& 0xf8) >>> 3 = sec := by
  have hoctet {n : Nat} (h : n < 256) : (UInt8.ofNat n).toNat = n := by
    rw [UInt8.toNat_ofNat']
    exact Nat.mod_eq_of_lt h
  have hfirst := hoctet (n := 7 + sec % 32 * 8) (by omega)
  have hsecond := hoctet (n := sec / 32 + min * 2 + hour % 2 * 128) (by omega)
  have hthird := hoctet (n := hour / 2 + day % 16 * 16) (by omega)
  have hfourth := hoctet (n := day / 16 + mon * 2 + year % 8 * 32) (by omega)
  have hfifth := hoctet (n := year / 8) (by omega)
  obtain ⟨hhigh, -, -⟩ := fields_octet (x := 7 + sec % 32 * 8) (by omega)
  obtain ⟨-, hmiddle, -⟩ := fields_octet (x := sec / 32 + min * 2 + hour % 2 * 128) (by omega)
  obtain ⟨-, -, hlow⟩ := fields_octet (x := day / 16 + mon * 2 + year % 8 * 32) (by omega)
  have hbit (n : Nat) : n &&& 1 = n % 2 := Nat.and_one_is_mod n
  have hfour (n : Nat) : n &&& 0xf = n % 16 := Nat.and_two_pow_sub_one_eq_mod n 4
  simp only [calendarOctets, List.getD_cons_zero, List.getD_cons_succ, hfirst, hsecond, hthird,
    hfourth, hfifth, hhigh, hmiddle, hlow, hbit, hfour, Nat.shiftRight_eq_div_pow]
  rw [joined _ _ 3 (by omega), joined _ _ 4 (by omega), joined _ _ 1 (by omega),
    joined _ _ 5 (by omega)]
  clear hfirst hsecond hthird hfourth hfifth hhigh hmiddle hlow
  refine ⟨⟨?_, ?_, ?_⟩, ?_, ?_, ?_⟩
  · omega
  · omega
  · omega
  · omega
  · omega
  · omega

/-- The decoder takes the calendar where the seconds are zero, and the seconds elsewhere. -/
theorem readTime_octets (time : RpcTime) (length_add : Nat) (behind ahead : Blob) {low : Nat}
    (hyear : year < 2048) (hmon : mon < 16) (hday : day < 32) (hhour : hour < 32) (hmin : min < 64)
    (hsec : sec < 64) (hlow : low < 2 ^ 32) :
    readTime time (amid length_add behind (0x28 :: 0 :: (leBytes 4 low ++
        calendarOctets year mon day hour min sec) ++ ahead)) =
      .ok (if low = 0 then time.convertUtcTime (1600 + (year : Nat)) ((mon : Nat) - 1)
          ((day : Nat) - 1) (hour : Nat) (min : Nat) (sec : Nat) 0
        else time.fromSeconds (.ofNat low),
        amid length_add (behind ++ (0x28 :: 0 :: (leBytes 4 low ++
          calendarOctets year mon day hour min sec))) ahead) := by
  have hlength : (0 :: (leBytes 4 low ++ calendarOctets year mon day hour min sec)).length = 10 :=
    rfl
  have hvalue : leValue (leBytes 4 low) = low := leValue_leBytes hlow
  have hend : ¬ (amid length_add (behind ++ [0x28])
      (0 :: (leBytes 4 low ++ calendarOctets year mon day hour min sec) ++ ahead)).pos >
        (amid length_add (behind ++ [0x28])
          (0 :: (leBytes 4 low ++ calendarOctets year mon day hour min sec) ++ ahead)).theEnd + 10 := by
    simp only [amid, theEnd, List.length_append]
    omega
  obtain ⟨⟨hyear, hmon, hday⟩, hhour, hmin, hsec⟩ :=
    fields_calendarOctets hyear hmon hday hhour hmin hsec
  have htail : List.drop 1 (0 :: (leBytes 4 low ++ calendarOctets year mon day hour min sec)) =
      leBytes 4 low ++ calendarOctets year mon day hour min sec := rfl
  have htake : List.take 4 (leBytes 4 low ++ calendarOctets year mon day hour min sec) =
      leBytes 4 low := rfl
  have hplace (i : Nat) : (0 :: (leBytes 4 low ++ calendarOctets year mon day hour min sec)).getD
      (5 + i) 0 = (calendarOctets year mon day hour min sec).getD i 0 := by
    rw [Nat.add_comm]
    rfl
  have hmove : behind ++ [0x28] ++ 0 :: (leBytes 4 low ++ calendarOctets year mon day hour min sec) =
      behind ++ 0x28 :: 0 :: (leBytes 4 low ++ calendarOctets year mon day hour min sec) := by simp
  rw [readTime, List.cons_append, if_neg (not_at_end_amid _ _ _ _), next_amid, Outcome.ok_bind]
  simp only [ne_eq, not_true_eq_false, if_false]
  rw [if_neg hend, take_amid _ _ _ hlength, Outcome.ok_bind, hmove]
  simp only [htail, htake, hvalue, hplace 0, hplace 1, hplace 2, hplace 3, hplace 4]
  simp only at hyear hmon hday hhour hmin hsec
  simp only [hyear, hmon, hday, hhour, hmin, hsec]
  split_ifs
  · rfl
  · rfl

end FastRpcDecoder

/-- What the decoder makes of the octets for these seconds and their calendar. -/
def timeValue (seconds : Int64) : Int64 :=
  if seconds.toInt % 2 ^ 32 = 0 then if seconds < 0 then seconds else seconds * Time.secBase
  else Time.fromSeconds (.ofInt (seconds.toInt % 2 ^ 32))

/-- What the decoder makes of the seconds is the time without its thousandths exactly for a time
from 1970 on whose seconds are those of four octets, or leave these zero. -/
theorem timeValue_iff (t : Int64) :
    (timeValue (Time.toSeconds t)).toInt = t.toInt / 1000 * 1000 ↔
      0 ≤ t.toInt ∧ (t.toInt / 1000 < 2 ^ 32 ∨ (2 ^ 32 : Int) ∣ t.toInt / 1000) := by
  have hlow := t.le_toInt
  have hhigh := t.toInt_lt
  have hbase : Time.secBase.toInt = 1000 := by decide
  unfold timeValue
  generalize hs : Time.toSeconds t = s
  have hoctets (h : ¬ s.toInt % 2 ^ 32 = 0) :
      (Time.fromSeconds (.ofInt (s.toInt % 2 ^ 32))).toInt = s.toInt % 2 ^ 32 * 1000 := by
    have hword : (Int64.ofInt (s.toInt % 2 ^ 32)).toInt = s.toInt % 2 ^ 32 :=
      Int64.toInt_ofInt_of_le (by omega) (by omega)
    rw [Time.toInt_fromSeconds (by omega) (by omega), hword]
  have hneg : s < 0 ↔ s.toInt < 0 := Int64.lt_iff_toInt_lt
  by_cases hinval : t = Time.invalTime
  · -- the invalid time is read back, but it is not a second
    subst hinval
    obtain rfl : Time.invalTime = s := hs
    decide
  rw [← Int64.toInt_inj] at hs
  rw [Time.toInt_toSeconds hinval] at hs
  by_cases ht : 0 ≤ t.toInt
  · rw [Int.tdiv_eq_ediv_of_nonneg ht] at hs
    by_cases hzero : s.toInt % 2 ^ 32 = 0
    · rw [if_pos hzero, if_neg (by rw [hneg]; omega), Int64.toInt_mul, hbase,
        Int.bmod_eq_of_le (by omega) (by omega), hs]
      refine iff_of_true rfl ⟨ht, .inr ?_⟩
      exact Int.dvd_of_emod_eq_zero (hs ▸ hzero)
    · rw [if_neg hzero, hoctets hzero, hs]
      have hnonneg : 0 ≤ s.toInt := hs ▸ Int.ediv_nonneg ht (by decide)
      have hnot : ¬ (2 ^ 32 : Int) ∣ s.toInt := fun h => hzero (Int.emod_eq_zero_of_dvd h)
      rw [or_iff_left hnot, and_iff_right ht]
      constructor
      · intro h
        have hlt := Int.emod_lt_of_pos s.toInt (b := 2 ^ 32) (by decide)
        omega
      · intro h
        rw [Int.emod_eq_of_lt hnonneg h]
  · have hbelow : t.toInt / 1000 < 0 := Int.ediv_neg_of_neg_of_pos (by omega) (by decide)
    have hs' : s.toInt = -(-t.toInt / 1000) := by
      rw [← hs, ← Int.neg_neg t.toInt, Int.neg_tdiv, Int.tdiv_eq_ediv_of_nonneg (by omega),
        Int.neg_neg]
    refine iff_of_false ?_ (fun h => ht h.1)
    by_cases hzero : s.toInt % 2 ^ 32 = 0
    · rw [if_pos hzero]
      split_ifs with hsign
      · -- the seconds are those after the time
        have hafter : t.toInt / 1000 ≤ s.toInt := by
          clear hs hneg hoctets hzero hsign
          omega
        clear hs hs' hneg hoctets hzero hsign
        omega
      · rw [hneg] at hsign
        have hnull : s.toInt = 0 := by omega
        rw [Int64.toInt_mul, hnull, Int.zero_mul]
        simp only [Int.zero_bmod]
        omega
    · rw [if_neg hzero, hoctets hzero]
      omega

section Times

variable {lib : TimeLibrary} (hlib : lib.Exact) {t : Int64} {cal : Calendar}
  (hcal : Time.timeToUtcCalendar lib t = .ok cal)
  (hyear : 1600 ≤ cal.year.toInt ∧ cal.year.toInt ≤ 3647)
include hlib hcal hyear

/-- A time is read back as its calendar, where the low octets of its seconds are zero, and as these
octets elsewhere. -/
theorem readTime_written (sprintf : UInt64 → Blob) (length_add : Nat) :
    ∃ octets, (∀ behind, ((FastRpcEncoder.mk behind length_add).writeTime (rpcFormat lib sprintf)
        t).content = behind ++ octets) ∧
      ∀ behind ahead, readTime (rpcTime lib) (amid length_add behind (octets ++ ahead)) =
        .ok (timeValue (Time.toSeconds t), amid length_add (behind ++ octets) ahead) := by
  obtain ⟨hmon, hmday, hhour, hmin, hsec⟩ := Time.calendar_inRange hlib hcal
  have hfield (v : Int32) (h : 0 ≤ v.toInt) : ∃ n : Nat, v = .ofNat n ∧ v.toInt = n := by
    obtain ⟨n, hn⟩ := Int.eq_ofNat_of_zero_le h
    refine ⟨n, ?_, hn⟩
    rw [← Int32.ofInt_toInt v, hn, Int32.ofInt_eq_ofNat]
  have hone : (1 : Int32).toInt = 1 := by decide
  have hbase : (1600 : Int32).toInt = 1600 := by decide
  have hyear' : (cal.year - 1600).toInt = cal.year.toInt - 1600 := by
    rw [Int32.toInt_sub, hbase]
    exact Int.bmod_eq_of_le (by omega) (by omega)
  have hmon' : (cal.mon + 1).toInt = cal.mon.toInt + 1 := by
    rw [Int32.toInt_add, hone]
    exact Int.bmod_eq_of_le (by omega) (by omega)
  have hmday' : (cal.mday + 1).toInt = cal.mday.toInt + 1 := by
    rw [Int32.toInt_add, hone]
    exact Int.bmod_eq_of_le (by omega) (by omega)
  obtain ⟨year, hyear, hyearN⟩ := hfield (cal.year - 1600) (by omega)
  obtain ⟨mon, hmon, hmonN⟩ := hfield (cal.mon + 1) (by omega)
  obtain ⟨day, hday, hdayN⟩ := hfield (cal.mday + 1) (by omega)
  obtain ⟨hour, hhour, hhourN⟩ := hfield cal.hour hhour.1
  obtain ⟨min, hmin, hminN⟩ := hfield cal.min hmin.1
  obtain ⟨sec, hsec, hsecN⟩ := hfield cal.sec hsec.1
  have hfields : (rpcFormat lib sprintf).timeToUtcCalendar t = ⟨.ofNat year + 1600, .ofNat mon - 1,
      .ofNat day - 1, .ofNat hour, .ofNat min, .ofNat sec⟩ := by
    rw [← hyear, ← hmon, ← hday, ← hhour, ← hmin, ← hsec, Int32.sub_add_cancel,
      Int32.add_sub_cancel, Int32.add_sub_cancel]
    simp only [rpcFormat, hcal]
  generalize hs : Time.toSeconds t = s
  have hlow : (s.toInt % 2 ^ 32).toNat < 2 ^ 32 := by omega
  refine ⟨_, fun behind => congrArg (behind ++ ·) (FastRpcEncoder.timeOctets_eq (by omega)
    (by omega) (by omega) (by omega) (by omega) (by omega) hfields), fun behind ahead => ?_⟩
  have hseconds : (rpcFormat lib sprintf).toSeconds t = s := hs
  rw [hseconds, readTime_octets (rpcTime lib) length_add behind ahead (by omega) (by omega) (by omega)
    (by omega) (by omega) (by omega) hlow]
  have hcalendar := Time.convertUtcTime_calendar hlib hcal
  rw [hs] at hcalendar
  have hyear'' : (1600 : Int) + year = cal.year.toInt := by omega
  have hmon'' : (mon : Int) - 1 = cal.mon.toInt := by omega
  have hday'' : (day : Int) - 1 = cal.mday.toInt := by omega
  rw [hyear'', hmon'', hday'', ← hhourN, ← hminN, ← hsecN]
  have hzero : (s.toInt % 2 ^ 32).toNat = 0 ↔ s.toInt % 2 ^ 32 = 0 := by omega
  have hword : Int64.ofNat (s.toInt % 2 ^ 32).toNat = .ofInt (s.toInt % 2 ^ 32) := by
    rw [← Int64.ofInt_eq_ofNat, Int.toNat_of_nonneg (by omega)]
  simp only [hzero, hword]
  rw [timeValue, ← hcalendar]
  rfl

/-- A time with a calendar that the octets can hold is read back, in whole seconds, exactly if it is
not before 1970 and its seconds are those of four octets, or leave these zero. -/
theorem readsAs_time_iff (sprintf : UInt64 → Blob) (length_add : Nat) :
    (∃ value,
        ReadsAs length_add (·.writeTime (rpcFormat lib sprintf) t) (readTime (rpcTime lib)) value ∧
          value.toInt = t.toInt / 1000 * 1000) ↔
      0 ≤ t.toInt ∧ (t.toInt / 1000 < 2 ^ 32 ∨ (2 ^ 32 : Int) ∣ t.toInt / 1000) := by
  obtain ⟨octets, hwrite, hread⟩ := readTime_written hlib hcal hyear sprintf length_add
  rw [← timeValue_iff t]
  constructor
  · rintro ⟨value, hvalue, hsecond⟩
    obtain rfl := (readsAs_iff hwrite hread).mp hvalue
    exact hsecond
  · intro hsecond
    exact ⟨_, (readsAs_iff hwrite hread).mpr rfl, hsecond⟩

end Times

/-- A time of 2023 is read back without its thousandths. -/
theorem readsAs_time_iff_2023 :
    (∃ value, ReadsAs 1
        (·.writeTime (rpcFormat Time.gregorian fun _ => []) 1700000000500)
        (readTime (rpcTime Time.gregorian)) value ∧
        value.toInt = (1700000000500 : Int64).toInt / 1000 * 1000) ↔
      0 ≤ (1700000000500 : Int64).toInt ∧
        ((1700000000500 : Int64).toInt / 1000 < 2 ^ 32 ∨
          (2 ^ 32 : Int) ∣ (1700000000500 : Int64).toInt / 1000) :=
  have hcal :
      Time.timeToUtcCalendar Time.gregorian 1700000000500 = .ok ⟨2023, 10, 13, 22, 13, 20⟩ :=
    rfl
  readsAs_time_iff Time.exact_gregorian hcal (by decide) (fun _ => []) 1

/-- The last second of 1969 is read as one of 2106. -/
theorem readsAs_time_1969 :
    (∃ cal, Time.timeToUtcCalendar Time.gregorian (-1000) = .ok cal ∧ 1600 ≤ cal.year.toInt ∧
        cal.year.toInt ≤ 3647) ∧
      ReadsAs 1 (·.writeTime (rpcFormat Time.gregorian fun _ => []) (-1000))
        (readTime (rpcTime Time.gregorian)) 4294967295000 ∧
      ¬ ∃ value, ReadsAs 1 (·.writeTime (rpcFormat Time.gregorian fun _ => []) (-1000))
        (readTime (rpcTime Time.gregorian)) value ∧
          value.toInt = (-1000 : Int64).toInt / 1000 * 1000 := by
  have hcal : Time.timeToUtcCalendar Time.gregorian (-1000) = .ok ⟨1969, 11, 30, 23, 59, 59⟩ := rfl
  obtain ⟨octets, hwrite, hread⟩ :=
    readTime_written Time.exact_gregorian hcal (by decide) (fun _ => []) 1
  have hvalue : timeValue (Time.toSeconds (-1000)) = 4294967295000 := by decide
  rw [hvalue] at hread
  refine ⟨⟨_, hcal, by decide⟩, (readsAs_iff hwrite hread).mpr rfl, ?_⟩
  rintro ⟨value, hback, hsecond⟩
  obtain rfl := (readsAs_iff hwrite hread).mp hback
  exact absurd hsecond (by decide)

end Drt
