import Drt.Core.Mem.MMDefault

/-!
# Requests that the memory manager can not meet

Sizes near `2 ^ 64` wrap when the word for the size, the guards and the alignment are added. The
failure of `malloc` is found for small blocks only, since the pointer to a large one is moved before
it is tested.
-/

open List Option

namespace Drt

namespace FreeList

theorem size_add_le_alloc : ∀ q : FreeList, q.size + 8 ≤ q.alloc := by decide

/-- What is left of a chunk fits into the list that it goes to. -/
theorem remainList_fits (q : FreeList) : (q.alloc - 8) % q.size = 0 ∨
    ∃ q', remainList ((q.alloc - 8) % q.size) = some q' ∧
      q'.size ≤ (q.alloc - 8) % q.size ∧ (q.alloc - 8) % q.size ≤ 4096 := by
  have hany : ∀ q : FreeList, (q.alloc - 8) % q.size = 0 ∨
      (remainList ((q.alloc - 8) % q.size)).any (fun q' =>
        decide (q'.size ≤ (q.alloc - 8) % q.size ∧ (q.alloc - 8) % q.size ≤ 4096)) = true := by
    decide
  refine (hany q).imp_right fun h => ?_
  obtain ⟨q', hq', hfits⟩ := (any_eq_true _ _).mp h
  exact ⟨q', hq', of_decide_eq_true hfits⟩

end FreeList

theorem carve_remain (q : FreeList) {cur fin : Nat} (h : cur ≤ fin) :
    (carve q cur fin).2.size = (fin - cur) % q.size := by
  fun_induction carve q cur fin with
  | case1 cur next hnext r ih =>
    have hstep : fin - cur = fin - next + q.size := by omega
    rw [ih hnext, hstep, Nat.add_mod_right]
  | case2 cur next hnext =>
    have hless : fin - cur < q.size := by omega
    exact (Nat.mod_eq_of_lt hless).symm

theorem carve_ne_nil (q : FreeList) {cur fin : Nat} (h : cur + q.size ≤ fin) :
    (carve q cur fin).1 ≠ [] := by
  unfold carve
  rw [if_pos h]
  exact cons_ne_nil _ _

/-- Its blocks and the remainder lie behind one another, up to the end of the chunk. -/
theorem carve_apart (q : FreeList) {cur fin : Nat} (h : cur ≤ fin) :
    (∀ b ∈ (carve q cur fin).1, cur ≤ b.val.addr ∧
      b.val.addr + b.val.size ≤ (carve q cur fin).2.addr) ∧
    (carve q cur fin).1.Pairwise (fun b b' => b.val.addr + b.val.size ≤ b'.val.addr) ∧
    cur ≤ (carve q cur fin).2.addr ∧
    (carve q cur fin).2.addr + (carve q cur fin).2.size = fin := by
  fun_induction carve q cur fin with
  | case1 cur next hnext r ih =>
    obtain ⟨hinside, hpairwise, hbehind, hfin⟩ := ih hnext
    have hnextle : cur ≤ next := Nat.le_add_right cur q.size
    refine ⟨?_, pairwise_cons.mpr ⟨fun b hb => (hinside b hb).1, hpairwise⟩,
      Nat.le_trans hnextle hbehind, hfin⟩
    intro b hb
    rcases mem_cons.mp hb with rfl | hb
    · exact ⟨Nat.le_refl cur, hbehind⟩
    · exact ⟨Nat.le_trans hnextle (hinside b hb).1, (hinside b hb).2⟩
  | case2 cur next hnext =>
    refine ⟨fun b hb => ?_, List.Pairwise.nil, Nat.le_refl cur, Nat.add_sub_cancel' h⟩
    cases hb

namespace MMDefault

variable {o : MMOptions} {w : MMWorld} {q : FreeList} {s : MMDefault}

theorem keepRemain_ne_none (s : MMDefault) {remain : Block}
    (h : remain.size = (q.alloc - 8) % q.size) : s.keepRemain remain ≠ none := by
  unfold keepRemain
  rw [h]
  by_cases hzero : (q.alloc - 8) % q.size = 0
  · rw [if_pos hzero]
    exact some_ne_none s
  · obtain ⟨q', hq', hfits⟩ := q.remainList_fits.resolve_left hzero
    have hremain : q'.Fits remain := by
      rw [FreeList.Fits, h]
      exact hfits
    rw [if_neg hzero, hq']
    dsimp only
    rw [dif_pos hremain]
    exact some_ne_none _

theorem goAlloc_none (h : w.malloc q.alloc = none) :
    goAlloc w q s = ⟨some q.alloc, .raise .memException_instance, s⟩ := by
  unfold goAlloc
  rw [h]

/-- A chunk gives a block. -/
theorem goAlloc_some {add : Nat} (h : w.malloc q.alloc = some add) :
    (goAlloc w q s).asked = some q.alloc ∧ ∃ b, (goAlloc w q s).result = .ok b := by
  have hroom := q.size_add_le_alloc
  obtain ⟨b, l, hcarve⟩ : ∃ b l, (carve q (add + 8) (add + q.alloc)).1 = b :: l :=
    exists_cons_of_ne_nil (carve_ne_nil q (by omega))
  have hremain : (carve q (add + 8) (add + q.alloc)).2.size = (q.alloc - 8) % q.size := by
    rw [carve_remain q (by omega), Nat.add_sub_add_left]
  unfold goAlloc
  rw [h]
  dsimp only
  cases hqueue : (w.others .added s).queue q with
  | cons b' l' => exact ⟨rfl, b', rfl⟩
  | nil =>
    rw [hcarve]
    dsimp only
    obtain ⟨t, ht⟩ := ne_none_iff_exists'.mp
      (keepRemain_ne_none (w.others .unlocked ((w.others .added s).setQueue q l)) hremain)
    rw [ht]
    exact ⟨rfl, b, rfl⟩

/-- The instance's list is found empty, at the test or when it is locked, and `malloc` fails. -/
def Starved (w : MMWorld) (q : FreeList) (s : MMDefault) : Prop :=
  (s.queue q = [] ∨ (w.others .looked s).queue q = []) ∧ w.malloc q.alloc = none

/-- Either `malloc` is called and fails, or there is a block. -/
theorem takeBlock_cases (w : MMWorld) (q : FreeList) (s : MMDefault) :
    (Starved w q s ∧ takeBlock w q s =
      ⟨some q.alloc, .raise .memException_instance, w.others .looked s⟩) ∨
    (¬ Starved w q s ∧ (∃ b, (takeBlock w q s).result = .ok b) ∧
      ∀ n, (takeBlock w q s).asked = some n → w.malloc n ≠ none) := by
  have hempty (h : s.queue q = [] ∨ (w.others .looked s).queue q = []) :
      takeBlock w q s = goAlloc w q (w.others .looked s) := by
    unfold takeBlock
    dsimp only
    cases hlooked : s.queue q with
    | nil => rfl
    | cons b l =>
      rw [h.resolve_left (by rw [hlooked]; exact cons_ne_nil b l)]
  by_cases h : s.queue q = [] ∨ (w.others .looked s).queue q = []
  · rw [hempty h]
    cases hmalloc : w.malloc q.alloc with
    | none => exact .inl ⟨⟨h, hmalloc⟩, goAlloc_none hmalloc⟩
    | some add =>
      obtain ⟨hasked, hblock⟩ := goAlloc_some (s := w.others .looked s) hmalloc
      refine .inr ⟨fun hstarved => ?_, hblock, fun n hn => ?_⟩
      · rw [hstarved.2] at hmalloc
        cases hmalloc
      · rw [hasked] at hn
        obtain rfl := Option.some.inj hn
        rw [hmalloc]
        exact some_ne_none add
  · refine .inr ⟨fun hstarved => h hstarved.1, ?_⟩
    obtain ⟨hlooked, hlocked⟩ := not_or.mp h
    obtain ⟨b, l, hb⟩ := exists_cons_of_ne_nil hlooked
    obtain ⟨b', l', hb'⟩ := exists_cons_of_ne_nil hlocked
    unfold takeBlock
    dsimp only
    rw [hb, hb']
    refine ⟨⟨b', rfl⟩, fun n hn => ?_⟩
    cases hn

section Requests

variable {thread : Nat} {size_ : UInt64} {out : Block}

/-- The required size covers the guard in front and the word for the size. -/
theorem le_requiredSize (o : MMOptions) (size_ : UInt64) :
    size_.toNat + o.guard + 8 ≤ requiredSize o size_ := by
  unfold requiredSize MMOptions.guard
  dsimp only
  split <;> omega

/-- A block of the required size holds the caller's octets. -/
theorem hasOut_holds
    (fits : blockSize o size_ ≤ 1024 → (freeList (blockSize o size_)).Fits out) (s : MMDefault)
    (h : requiredSize o size_ ≤ out.size) :
    ∃ m, (hasOut o size_ out fits s).1 = .ok m ∧ size_.toNat ≤ m.room := by
  have hle := le_requiredSize o size_
  have hroom : ¬ out.size < o.guard + 8 := by omega
  refine ⟨⟨out, size_, fits⟩, ?_, ?_⟩
  · unfold hasOut
    dsimp only
    rw [if_neg hroom]
  · change size_.toNat ≤ out.size - o.guard - 8
    omega

theorem hasOut_lacks
    (fits : blockSize o size_ ≤ 1024 → (freeList (blockSize o size_)).Fits out) (s : MMDefault)
    (h : out.size < size_.toNat) : (hasOut o size_ out fits s).1 = .fault ∨
    ∃ m, (hasOut o size_ out fits s).1 = .ok m ∧ m.room < size_.toNat := by
  unfold hasOut
  dsimp only
  by_cases hroom : out.size < o.guard + 8
  · rw [if_pos hroom]
    exact .inl rfl
  · rw [if_neg hroom]
    refine .inr ⟨⟨out, size_, fits⟩, rfl, ?_⟩
    change out.size - o.guard - 8 < size_.toNat
    omega

/-- A request that gets its block from the instance's list or a new chunk. -/
theorem finish_takeBlock (w : MMWorld) (s : MMDefault)
    (hq : blockSize o size_ ≤ 1024 → freeList (blockSize o size_) = q) :
    (Starved w q s ∧ finish o size_ hq (takeBlock w q s) =
      ⟨some q.alloc, .raise .memException_instance, w.others .looked s⟩) ∨
    (¬ Starved w q s ∧
      (∃ out fits t, q.Fits out ∧
        (finish o size_ hq (takeBlock w q s)).result = (hasOut o size_ out fits t).1) ∧
      ∀ n, (finish o size_ hq (takeBlock w q s)).asked = some n → w.malloc n ≠ none) := by
  rcases takeBlock_cases w q s with ⟨hstarved, hraise⟩ | ⟨hstarved, ⟨b, hb⟩, hasked⟩
  · left
    rw [hraise]
    exact ⟨hstarved, rfl⟩
  · right
    have hfinish : (finish o size_ hq (takeBlock w q s)).asked = (takeBlock w q s).asked ∧
        (finish o size_ hq (takeBlock w q s)).result =
          (hasOut o size_ b.val (fun h => hq h ▸ b.property) (takeBlock w q s).state).1 := by
      unfold finish
      rw [hb]
      exact ⟨rfl, rfl⟩
    rw [hfinish.1, hfinish.2]
    exact ⟨hstarved, ⟨b.val, _, _, b.property, rfl⟩, hasked⟩

/-- No list that the call looks at has a block, and `malloc` fails. -/
def Refused (o : MMOptions) (w : MMWorld) (thread : Nat) (size_ : UInt64) (s : MMDefault) : Prop :=
  let q := allocList (blockSize o size_)
  (o.thread = true → s.thr_queue thread q = []) ∧ Starved w q s

/-- A small request: the exception, or a block of its list. -/
theorem implAlloc_small (w : MMWorld) (thread : Nat) (s : MMDefault)
    (hsmall : blockSize o size_ ≤ 1024) :
    (Refused o w thread size_ s ∧ ∃ n, implAlloc o w thread size_ s =
      ⟨some n, .raise .memException_instance, w.others .looked s⟩) ∨
    (¬ Refused o w thread size_ s ∧
      (∃ out fits t, (allocList (blockSize o size_)).Fits out ∧
        (implAlloc o w thread size_ s).result = (hasOut o size_ out fits t).1) ∧
      ∀ n, (implAlloc o w thread size_ s).asked = some n → w.malloc n ≠ none) := by
  have hlarge : ¬ 1024 < blockSize o size_ := UInt64.not_lt.mpr hsmall
  unfold implAlloc Refused
  dsimp only
  rw [dif_neg hlarge]
  by_cases hthread : o.thread = true
  · rw [if_pos hthread]
    cases hcache : s.thr_queue thread (allocList (blockSize o size_)) with
    | cons b l =>
      refine .inr ⟨fun h => ?_, ⟨b.val, _, _, b.property, rfl⟩, fun n hn => ?_⟩
      · exact cons_ne_nil b l (h.1 hthread)
      · cases hn
    | nil =>
      have hsame := allocList_size (allocList (blockSize o size_))
      rcases finish_takeBlock w s (q := allocList (.ofNat (allocList (blockSize o size_)).size))
        (fun h => (freeList_eq_allocList h).trans hsame.symm) with
        ⟨hstarved, hraise⟩ | ⟨hstarved, ⟨out, fits, t, hfits, hresult⟩, hasked⟩
      · rw [hsame] at hstarved
        exact .inl ⟨⟨fun _ => rfl, hstarved⟩, _, hraise⟩
      · rw [hsame] at hstarved hfits
        exact .inr ⟨fun h => hstarved h.2, ⟨out, fits, t, hfits, hresult⟩, hasked⟩
  · rw [if_neg hthread]
    rcases finish_takeBlock w s (@freeList_eq_allocList (blockSize o size_)) with
      ⟨hstarved, hraise⟩ | ⟨hstarved, hblock, hasked⟩
    · exact .inl ⟨⟨fun h => absurd h hthread, hstarved⟩, _, hraise⟩
    · exact .inr ⟨fun h => hstarved h.2, hblock, hasked⟩

/-- A large request: a fault if `malloc` fails. -/
theorem implAlloc_large (w : MMWorld) (thread : Nat) (s : MMDefault)
    (hlarge : 1024 < blockSize o size_) :
    (implAlloc o w thread size_ s).asked = some (blockSize o size_ + 16).toNat ∧
    ((w.malloc (blockSize o size_ + 16).toNat = none ∧
        (implAlloc o w thread size_ s).result = .fault) ∨
      ∃ out fits, w.malloc (blockSize o size_ + 16).toNat ≠ none ∧
        out.size = (blockSize o size_ + 16).toNat - 8 ∧
        (implAlloc o w thread size_ s).result = (hasOut o size_ out fits s).1) := by
  have hne (m : Option Nat) : ¬ m.getD 0 + 16 - 8 = 0 := by omega
  unfold implAlloc
  dsimp only
  rw [dif_pos hlarge, if_neg (hne _)]
  cases hmalloc : w.malloc (blockSize o size_ + 16).toNat with
  | none => exact ⟨rfl, .inl ⟨rfl, rfl⟩⟩
  | some a => exact ⟨rfl, .inr ⟨_, _, some_ne_none a, rfl, rfl⟩⟩

/-- What a request for a size comes to. -/
structure Right (w : MMWorld) (s : MMDefault) (size : UInt64) (c : MMCall (Allocated o)) :
    Prop where
  /-- Where `malloc` fails, the exception is thrown, and lists and counter are as the other threads
  left them. -/
  fails : ∀ n, c.asked = some n → w.malloc n = none →
    c.result = .raise .memException_instance ∧ c.state = w.others .looked s
  /-- A block that is returned has so many octets. -/
  holds : ∀ m, c.result = .ok m → size.toNat ≤ m.room
  /-- No octets outside of blocks are written. -/
  safe : c.result ≠ .fault

variable {c : MMCall (Allocated o)} {m : Allocated o}

theorem right_iff_of_ok (hok : c.result = .ok m) : Right w s size_ c ↔
    size_.toNat ≤ m.room ∧ ∀ n, c.asked = some n → w.malloc n ≠ none := by
  constructor
  · refine fun h => ⟨h.holds m hok, fun n hn hnone => ?_⟩
    have hraise := (h.fails n hn hnone).1
    rw [hok] at hraise
    cases hraise
  · rintro ⟨hroom, hasked⟩
    refine ⟨fun n hn hnone => absurd hnone (hasked n hn), fun m' hm' => ?_, ?_⟩
    · rw [hok] at hm'
      obtain rfl := Outcome.ok.inj hm'
      exact hroom
    · rw [hok]
      intro h
      cases h

theorem right_raise (n : Nat) : Right w s size_
    (⟨some n, .raise .memException_instance, w.others .looked s⟩ : MMCall (Allocated o)) := by
  refine ⟨fun _ _ _ => ⟨rfl, rfl⟩, fun m hm => ?_, fun h => ?_⟩
  · cases hm
  · cases h

theorem not_right_of_lacks (h : c.result = .fault ∨ ∃ m, c.result = .ok m ∧ m.room < size_.toNat) :
    ¬ Right w s size_ c := by
  intro hright
  rcases h with hfault | ⟨m, hok, hlacks⟩
  · exact hright.safe hfault
  · exact Nat.not_lt.mpr (hright.holds m hok) hlacks

/-- The condition. A size that wraps is served if no block is returned at all. -/
def Served (o : MMOptions) (w : MMWorld) (thread : Nat) (size_ : UInt64) (s : MMDefault) : Prop :=
  requiredSize o size_ ≤ 1024 ∨
  (requiredSize o size_ + 16 < 2 ^ 64 ∧ w.malloc (requiredSize o size_ + 16) ≠ none) ∨
  (2 ^ 64 ≤ requiredSize o size_ ∧ Refused o w thread size_ s)

theorem requiredSize_le (o : MMOptions) (size_ : UInt64) :
    requiredSize o size_ ≤ size_.toNat + 87 := by
  unfold requiredSize
  dsimp only
  split <;> omega

/-- Small sizes are served right. -/
theorem implAlloc_right (h : requiredSize o size_ ≤ 1024) :
    Right w s size_ (implAlloc o w thread size_ s) := by
  have hsize := blockSize_toNat o size_
  rw [Nat.mod_eq_of_lt (by omega)] at hsize
  have hsmall : blockSize o size_ ≤ 1024 := UInt64.le_iff_toNat_le.mpr (hsize.symm ▸ h)
  rcases implAlloc_small w thread s hsmall with
    ⟨-, n, hraise⟩ | ⟨-, ⟨out, fits, t, hfits, hresult⟩, hasked⟩
  · rw [hraise]
    exact right_raise n
  · have hroom : requiredSize o size_ ≤ out.size := by
      rw [← hsize]
      exact Nat.le_trans (le_size_allocList hsmall) hfits.1
    obtain ⟨m, hm, hholds⟩ := hasOut_holds fits t hroom
    exact (right_iff_of_ok (hresult.trans hm)).mpr ⟨hholds, hasked⟩

/-- Large ones are if `malloc` does not fail. -/
theorem implAlloc_right_iff_of_large (hlarge : 1024 < requiredSize o size_)
    (hwhole : requiredSize o size_ < 2 ^ 64) : Right w s size_ (implAlloc o w thread size_ s) ↔
    requiredSize o size_ + 16 < 2 ^ 64 ∧ w.malloc (requiredSize o size_ + 16) ≠ none := by
  have hsize := blockSize_toNat o size_
  have hle := requiredSize_le o size_
  rw [Nat.mod_eq_of_lt hwhole] at hsize
  obtain ⟨hasked, hcases⟩ := implAlloc_large w thread s
    (UInt64.lt_iff_toNat_lt.mpr (hsize.symm ▸ hlarge))
  have hn : (blockSize o size_ + 16).toNat = (requiredSize o size_ + 16) % 2 ^ 64 := by
    rw [UInt64.toNat_add, hsize]
    rfl
  rw [hn] at hasked hcases
  rcases hcases with ⟨hnone, hfault⟩ | ⟨out, fits, hmalloc, hout, hresult⟩
  · refine iff_of_false (not_right_of_lacks (.inl hfault)) ?_
    rintro ⟨hfits, hmalloc⟩
    rw [Nat.mod_eq_of_lt hfits] at hnone
    exact hmalloc hnone
  · rcases Nat.lt_or_ge (requiredSize o size_ + 16) (2 ^ 64) with hfits | hwrap
    · rw [Nat.mod_eq_of_lt hfits] at hasked hmalloc hout
      refine iff_of_true ?_ ⟨hfits, hmalloc⟩
      obtain ⟨m, hm, hholds⟩ := hasOut_holds fits s (by omega)
      refine (right_iff_of_ok (hresult.trans hm)).mpr ⟨hholds, fun n hn => ?_⟩
      obtain rfl := Option.some.inj (hasked.symm.trans hn)
      exact hmalloc
    · refine iff_of_false (not_right_of_lacks ?_) (fun h => Nat.not_lt.mpr hwrap h.1)
      rw [hresult]
      exact hasOut_lacks fits _ (by omega)

/-- Sizes that wrap are if no block is returned. -/
theorem implAlloc_right_iff_of_wrap (hwrap : 2 ^ 64 ≤ requiredSize o size_) :
    Right w s size_ (implAlloc o w thread size_ s) ↔ Refused o w thread size_ s := by
  have hsize := blockSize_toNat o size_
  have hle := requiredSize_le o size_
  have hlt := size_.toNat_lt
  have hsmall : blockSize o size_ ≤ 1024 := by
    rw [UInt64.le_iff_toNat_le, hsize]
    change requiredSize o size_ % 2 ^ 64 ≤ 1024
    omega
  rcases implAlloc_small w thread s hsmall with
    ⟨hrefused, n, hraise⟩ | ⟨hrefused, ⟨out, fits, t, hfits, hresult⟩, -⟩
  · rw [hraise]
    exact iff_of_true (right_raise n) hrefused
  · refine iff_of_false (not_right_of_lacks ?_) hrefused
    rw [hresult]
    have hpart := hfits.2
    exact hasOut_lacks fits _ (by omega)

/-- Exactly the requests of the condition are served right. -/
theorem implAlloc_right_iff : Right w s size_ (implAlloc o w thread size_ s) ↔
    Served o w thread size_ s := by
  unfold Served
  rcases Nat.lt_or_ge (requiredSize o size_) (2 ^ 64) with hwhole | hwrap
  · have hnowrap : ¬ (2 ^ 64 ≤ requiredSize o size_ ∧ Refused o w thread size_ s) :=
      fun h => Nat.not_le.mpr hwhole h.1
    rw [or_iff_left hnowrap]
    rcases Nat.lt_or_ge 1024 (requiredSize o size_) with hlarge | hsmall
    · rw [implAlloc_right_iff_of_large hlarge hwhole, or_iff_right (Nat.not_le.mpr hlarge)]
    · exact iff_of_true (implAlloc_right hsmall) (.inl hsmall)
  · have hlarge : ¬ requiredSize o size_ ≤ 1024 := by omega
    have hnofit : ¬ (requiredSize o size_ + 16 < 2 ^ 64 ∧
        w.malloc (requiredSize o size_ + 16) ≠ none) :=
      fun h => Nat.not_le.mpr h.1 (Nat.le_add_right_of_le hwrap)
    rw [implAlloc_right_iff_of_wrap hwrap, or_iff_right hlarge, or_iff_right hnofit,
      and_iff_right hwrap]

/-- `impl_regrow` serves a greater size right exactly if `impl_alloc` does. -/
theorem implRegrow_right_iff {newsize : UInt64} (hgrow : ¬ newsize ≤ m.size_) :
    Right w s newsize (implRegrow o w thread m newsize s) ↔
      Right w s newsize (implAlloc o w thread newsize s) := by
  unfold implRegrow
  rw [if_neg hgrow]
  dsimp only
  cases hresult : (implAlloc o w thread newsize s).result with
  | ok nm =>
    dsimp only
    rw [UInt64.le_iff_toNat_le] at hgrow
    by_cases hroom : nm.room < m.size_.toNat
    · rw [if_pos hroom]
      exact iff_of_false (not_right_of_lacks (.inl rfl))
        (not_right_of_lacks (.inr ⟨nm, hresult, by omega⟩))
    · rw [if_neg hroom, right_iff_of_ok hresult, right_iff_of_ok rfl]
  | _ => exact Iff.rfl

end Requests

end MMDefault

/-- A block that has the octets its size says. -/
abbrev Held (o : MMOptions) := { m : Allocated o // m.size_.toNat ≤ m.room }

/-- What callers ask for. -/
inductive MMRequest (o : MMOptions) where
  | alloc (size : UInt64)
  | regrow (m : Held o) (size : UInt64)

namespace MMRequest

open MMDefault

variable {o : MMOptions}

/-- The size that is asked for. -/
def size : MMRequest o → UInt64
  | alloc size => size
  | regrow _ size => size

/-- The call. -/
def run (w : MMWorld) (thread : Nat) (s : MMDefault) : MMRequest o → MMCall (Allocated o)
  | alloc size => implAlloc o w thread size s
  | regrow m size => implRegrow o w thread m.val size s

/-- The condition: a size that is smaller than before is always served. -/
def Served (w : MMWorld) (thread : Nat) (s : MMDefault) : MMRequest o → Prop
  | alloc size => MMDefault.Served o w thread size s
  | regrow m size => size ≤ m.val.size_ ∨ MMDefault.Served o w thread size s

/-- In every state, exactly the requests of the condition are served right. -/
theorem right_iff_served (w : MMWorld) (thread : Nat) (s : MMDefault) (r : MMRequest o) :
    Right w s r.size (r.run w thread s) ↔ r.Served w thread s := by
  cases r with
  | alloc size => exact implAlloc_right_iff
  | regrow m size =>
    change Right w s size (implRegrow o w thread m.val size s) ↔ _ ∨ _
    by_cases hgrow : size ≤ m.val.size_
    · have hkept : implRegrow o w thread m.val size s = ⟨none, .ok m.val, s⟩ := if_pos hgrow
      refine iff_of_true ?_ (.inl hgrow)
      rw [hkept, right_iff_of_ok rfl]
      refine ⟨Nat.le_trans (UInt64.le_iff_toNat_le.mp hgrow) m.property, fun n hn => ?_⟩
      cases hn
    · rw [implRegrow_right_iff hgrow, implAlloc_right_iff, or_iff_right hgrow]

/-- `malloc` fails for a request of 2000 octets; one of `2 ^ 64 - 1` gets a block that has none. -/
theorem not_right_failed :
    let o : MMOptions := ⟨false, false, false⟩
    let w (m : Option Nat) : MMWorld := ⟨fun _ => m, fun _ s => s⟩
    let s : MMDefault := ⟨fun _ => [], fun _ _ => [], 0⟩
    let r (size : UInt64) : MMRequest o := .alloc size
    ¬ Right (w none) s 2000 ((r 2000).run (w none) 0 s) ∧
      ¬ Right (w (some 4096)) s 0xFFFFFFFFFFFFFFFF
        ((r 0xFFFFFFFFFFFFFFFF).run (w (some 4096)) 0 s) := by
  intro o w s r
  constructor
  · exact fun h => h.safe rfl
  · intro h
    have hwrap : 2 ^ 64 ≤ requiredSize o 0xFFFFFFFFFFFFFFFF := by decide
    have hrefused : Refused o (w (some 4096)) 0 0xFFFFFFFFFFFFFFFF s :=
      (implAlloc_right_iff_of_wrap hwrap).mp h
    exact absurd hrefused.2.2 (some_ne_none 4096)

end MMRequest

end Drt
