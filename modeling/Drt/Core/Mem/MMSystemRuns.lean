import Drt.Core.Mem.MMSystemSteps

/-!
# Runs of the memory manager

In every run the blocks are where they have to be: what the program has is its own, and nothing is
lost.
-/

open List Option

namespace Drt

namespace MMSystem

open MMHeap

variable {thread : Bool} {s s' : MMSystem} {t : Nat} {f : Blocks} {size_ : UInt64} {q : FreeList}
  {m : Pointer}

/-- One of the blocks of the program, and the others. -/
theorem forall₂_erase {ms : List Pointer} {l : List Block} {m : Pointer}
    (h : List.Forall₂ s.Held ms l) (hm : m ∈ ms) :
    ∃ b rest, l.Perm (b :: rest) ∧ s.Held m b ∧ List.Forall₂ s.Held (ms.erase m) rest := by
  induction h with
  | nil => cases hm
  | @cons m' b ms l hmb htail ih =>
    by_cases heq : m' = m
    · subst heq
      refine ⟨b, l, List.Perm.refl _, hmb, ?_⟩
      rwa [erase_cons_head]
    · have hne : ¬ (m' == m) = true := by simpa using heq
      obtain ⟨c, rest, hperm, hmc, hrest⟩ := ih ((mem_cons.mp hm).resolve_left (Ne.symm heq))
      refine ⟨c, b :: rest, ?_, hmc, ?_⟩
      · exact (hperm.cons b).trans (List.Perm.swap c b rest)
      · rw [erase_cons_tail hne]
        exact .cons hmb hrest

/-- `impl_alloc` from the beginning. -/
theorem Sound.begin_alloc (h : s.Sound f) (hpc : (s.threads t).pc = .impl_alloc size_) :
    Advances s (s.implAlloc t thread size_) f := by
  have hproper : Proper size_ := h.asked hpc
  have hhand := h.hand hpc
  have hchunk := h.chunk hpc
  have hlook : ∀ q, SmallFor q size_ → Advances s (s.goto t (.look size_ q)) f := fun q hq =>
    h.goto_same (hpc ▸ rfl) hhand hchunk ⟨hproper, hq⟩
  unfold implAlloc
  dsimp only
  by_cases hlarge : 1024 < size_ + 8
  · rw [if_pos hlarge]
    exact h.goto_same (hpc ▸ rfl) hhand hchunk ⟨hproper, hlarge⟩
  · rw [if_neg hlarge]
    have hsmall : SmallFor (allocList (size_ + 8)) size_ :=
      ⟨UInt64.not_lt.mp hlarge, (freeList_eq_allocList (UInt64.not_lt.mp hlarge)).symm⟩
    cases thread with
    | false => exact hlook _ hsmall
    | true =>
      rw [if_pos rfl, allocList_size]
      by_cases hne : ((s.threads t).thr_queue (allocList (size_ + 8))).1 ≠ 0
      · rw [if_pos hne]
        exact h.popCache hpc hsmall hne
      · rw [if_neg hne]
        exact hlook _ hsmall

theorem Sound.take_out {add : Option (Nat × Block)} {out : Nat} (h : s.Sound f)
    (hpc : (s.threads t).pc = .locked size_ q add out) :
    Advances s (s.takeOut t size_ q add out) f := by
  cases out with
  | zero =>
    cases add with
    | none => exact h.empty hpc
    | some add => exact h.publish hpc
  | succ out =>
    have hpop := h.popList hpc (Nat.succ_ne_zero out)
    cases add with
    | none => exact hpop
    | some add => exact hpop

/-- The remainder, if there is one, gets a list. -/
theorem Sound.keep_remain {r : Block} {out : Nat} {add : Option Nat} (h : s.Sound f)
    (hpc : (s.threads t).pc = .remain size_ r out)
    (hstep : s.next t thread add (.remain size_ r out) = some s') : Advances s s' f := by
  have hhand := h.hand hpc
  obtain ⟨hchunk, hlist⟩ := h.chunk hpc
  unfold next at hstep
  dsimp only at hstep
  by_cases hzero : r.size = 0
  · rw [if_pos hzero] at hstep hchunk
    obtain rfl := Option.some.inj hstep
    exact h.goto_same (hpc ▸ rfl) hhand hchunk trivial
  · rw [if_neg hzero] at hstep hchunk
    obtain ⟨q, hq, hfits⟩ := hlist.resolve_left hzero
    rw [hq] at hstep
    exact h.lock_same hstep (fun _ => rfl) (fun _ => hhand) (fun _ => ⟨hchunk, hfits⟩)
      fun _ => trivial

/-- `impl_free` from the beginning. -/
theorem Sound.begin_free {m : Nat} (h : s.Sound f) (hpc : (s.threads t).pc = .impl_free m)
    (hstep : s.implFree t thread m = some s') : Advances s s' f := by
  obtain ⟨b, size_, hb, hheld⟩ := h.hand hpc
  have hchunk := h.chunk hpc
  have hmem : b ∈ f (.hand t) := hb ▸ mem_cons_self
  have hadd : b.addr + 8 = m := hheld.addr
  have haddr : m - 8 = b.addr := by omega
  have hload : s.load (m - 8) = some size_.toNat := by
    rw [haddr, h.load_eq hmem, hheld.size_]
  unfold implFree at hstep
  rw [hload] at hstep
  dsimp only at hstep
  rw [UInt64.ofNat_toNat] at hstep
  by_cases hlarge : 1024 < size_ + 8
  · rw [if_pos hlarge] at hstep
    obtain ⟨c, hc, rfl⟩ := hheld.serves.large hlarge
    have hstart : m - 8 + 8 - 16 = c.addr := by
      unfold Block.usable at hadd
      dsimp only at hadd
      omega
    rw [hstart] at hstep
    obtain rfl := Option.some.inj hstep
    exact h.freeLarge hpc hc hb
  · rw [if_neg hlarge] at hstep
    have hfits : (freeList (size_ + 8)).size ≤ b.size :=
      hheld.serves.small (UInt64.not_lt.mp hlarge)
    generalize freeList (size_ + 8) = q at hstep hfits
    cases thread with
    | true =>
      rw [if_pos rfl, haddr] at hstep
      obtain rfl := Option.some.inj hstep
      exact h.pushCache hpc hb hfits
    | false =>
      rw [if_neg Bool.false_ne_true] at hstep
      exact h.lock_same hstep (fun _ => rfl) (fun _ => ⟨b, hb, haddr.symm, hfits⟩)
        (fun _ => hchunk) fun _ => trivial

/-- `insertGlobalCache` of the next list. -/
theorem Sound.flush {qs : List FreeList} (h : s.Sound f) (hpc : (s.threads t).pc = .closing qs)
    (hstep : s.closing t qs = some s') : Advances s s' f := by
  have hhand := h.hand hpc
  have hchunk := h.chunk hpc
  have hbefore := h.asked hpc
  cases qs with
  | nil =>
    obtain rfl := Option.some.inj hstep
    exact h.goto_same (hpc ▸ rfl) hhand hchunk trivial
  | cons q qs =>
    unfold closing at hstep
    dsimp only at hstep
    by_cases hne : ((s.threads t).thr_queue q).1 ≠ 0
    · rw [if_pos hne] at hstep
      exact h.lock_same hstep (fun _ => rfl) (fun _ => hhand) (fun _ => hchunk)
        fun _ => ⟨hne, hbefore⟩
    · -- an empty list stays as it is
      rw [if_neg hne] at hstep
      obtain rfl := Option.some.inj hstep
      have hzero := not_not.mp hne
      obtain ⟨hlinked, hlast⟩ := h.holds (.cache t q)
      refine h.proceed (i := some (.cache t q)) (.inr ⟨q, _, rfl, rfl⟩) (.inl rfl) rfl (hpc ▸ rfl)
        h.stored (fun _ _ => rfl) (fun p _ => h.keeps p) hhand hchunk ?_ ?_
      · rintro p hp
        obtain rfl := Option.some.inj hp
        rw [At, goto_thr_queue, setThrQueue_self, ← hzero]
        exact ⟨hlinked, hlast⟩
      · intro q' hq'
        by_cases hqq : q' = q
        · rw [hqq, setThrQueue_self]
        · rw [setThrQueue_of_ne hqq]
          exact hbefore q' fun hmem => (mem_cons.mp hmem).elim hqq hq'

/-- A thread goes on. -/
theorem Sound.next {add : Option Nat} (h : s.Sound f)
    (hserved : add = none → (s.threads t).pc.asksLarge = false)
    (hstep : s.next t thread add (s.threads t).pc = some s') : Advances s s' f := by
  generalize hpc : (s.threads t).pc = pc at hserved hstep
  have hasks := h.asked hpc
  have hhand := h.hand hpc
  have hchunk := h.chunk hpc
  cases pc with
  | outside => cases hstep
  | fault => cases hstep
  | impl_alloc size_ => exact Option.some.inj hstep ▸ h.begin_alloc hpc
  | large size_ =>
    obtain ⟨hgives, heq⟩ := ite_none_right_eq_some.mp hstep
    cases add with
    | none => cases hserved rfl
    | some add => exact Option.some.inj heq ▸ h.takeLarge hpc hgives
  | look size_ q =>
    obtain rfl := Option.some.inj hstep
    split
    · exact h.goto_same (hpc ▸ rfl) hhand hchunk hasks
    · exact h.goto_same (hpc ▸ rfl) hhand hchunk hasks
  | go_alloc size_ q =>
    obtain ⟨hgives, heq⟩ := ite_none_right_eq_some.mp hstep
    obtain rfl := Option.some.inj heq
    cases add with
    | none => exact h.goto_same (hpc ▸ rfl) hhand hchunk trivial
    | some add => exact h.go_alloc hpc hgives
  | lock size_ q chunk =>
    refine h.lock_same hstep (fun _ => rfl) (fun _ => hhand) (fun _ => ?_) fun _ => hasks
    cases chunk with
    | none => exact hchunk
    | some chunk => exact hchunk
  | locked size_ q chunk out => exact Option.some.inj hstep ▸ h.take_out hpc
  | giveBack size_ q chunk out => exact Option.some.inj hstep ▸ h.giveBack hpc
  | remain size_ r out => exact h.keep_remain hpc hstep
  | remainLocked size_ q r prev out => exact Option.some.inj hstep ▸ h.unlockRemain hpc
  | has_out size_ out => exact Option.some.inj hstep ▸ h.return_out hpc
  | impl_free m => exact h.begin_free hpc hstep
  | freeLocked m q prev => exact Option.some.inj hstep ▸ h.unlockFree hpc
  | closing qs => exact h.flush hpc hstep
  | closingLocked q prev qs => exact Option.some.inj hstep ▸ h.unlockFlush hpc

/-- The program passes a block to `impl_free`. -/
theorem Sound.give (h : s.Sound f) (hpc : (s.threads t).pc = .outside) (hm : m ∈ s.live) :
    ∃ f', Sound ({ s with live := s.live.erase m }.goto t (.impl_free m.1)) f' := by
  have hnone : f (.hand t) = [] := h.hand hpc
  have hchunk := h.chunk hpc
  obtain ⟨b, rest, hperm, hheld, hrest⟩ := forall₂_erase (h.holds .live) hm
  obtain ⟨f', hstored, hlive, hhand, hother⟩ := h.stored.exists_move (i := .live) (j := .hand t)
    (l := [b]) nofun hperm
  refine ⟨f', h.arrange (i := some .live) (.inl rfl) (.inl rfl) rfl (hpc ▸ rfl) hstored
    (fun p hp => hother p (fun hc => hp.2.2.1 (hc ▸ rfl)) hp.1) (fun p _ => h.keeps p) ?_ ?_ ?_
    trivial⟩
  · rw [hhand, hnone]
    exact ⟨b, m.2, rfl, hheld⟩
  · rw [hother (.chunk t) nofun nofun]
    exact hchunk
  · rintro p hp
    obtain rfl := Option.some.inj hp
    rw [hlive]
    exact hrest

/-- The program writes into a block. -/
theorem Sound.write {i : Nat} {v : UInt8} (h : s.Sound f) (hm : m ∈ s.live)
    (hi : i < m.2.toNat) : Sound { s with memory := s.memory.store (m.1 + i) [v] } f := by
  obtain ⟨b, hb, hheld⟩ := exists_held (h.holds .live) hm
  have hroom := hheld.serves.room
  have haddr := hheld.addr
  -- in front of each block of the program there is still the size
  have hheads : ∀ c ∈ f .live,
      Memory.Agree s.memory (s.memory.store (m.1 + i) [v]) c.addr 8 := by
    intro c hc
    apply Memory.agree_store
    rw [length_singleton]
    by_cases heq : c = b
    · subst heq
      omega
    · have hapart : c.Apart b := by
        have : Std.Symm Block.Apart := ⟨fun _ _ => Block.Apart.symm⟩
        exact (h.stored.apart.within .live).forall hc hb heq
      have hsize := (h.stored.inside .live c hc).1
      unfold Block.Apart at hapart
      omega
  have hkeep : ∀ p, p ≠ .live →
      Keeps s.toMMHeap ⟨s.memory.store (m.1 + i) [v], s.chunks⟩ (f p) := by
    refine fun p hp => ⟨fun c hc => (h.stored.inside p c hc).1, fun c hc => ?_,
      fun _ _ _ hd _ => hd⟩
    apply Memory.agree_store
    rw [length_singleton]
    have hapart := h.stored.apart_of_ne hp hc hb
    unfold Block.Apart at hapart
    omega
  refine ⟨h.stored, fun p => ?_, h.locks, h.asks⟩
  cases p with
  | live => exact forall₂_held (h.holds .live) hheads fun _ _ _ hd _ => hd
  | list q => exact (h.holds (.list q)).congr (fun _ hv => hv) (hkeep _ nofun)
  | cache t q => exact (h.holds (.cache t q)).congr rfl (hkeep _ nofun)
  | hand t => exact (h.holds (.hand t)).congr rfl (hkeep _ nofun)
  | chunk t => exact (h.holds (.chunk t)).congr rfl (hkeep _ nofun)

/-- A step in which the program touches no block. -/
theorem Sound.advances {e : MMEvent} (h : s.Sound f) (hordinary : s.Ordinary e)
    (hfree : ∀ t m, e ≠ .free t m) (hwrite : ∀ m i v, e ≠ .write m i v)
    (hstep : MMSystem.step thread s e = some s') : Advances s s' f := by
  cases e with
  | alloc t size_ =>
    obtain ⟨hpc, heq⟩ := ite_none_right_eq_some.mp hstep
    obtain rfl := Option.some.inj heq
    have hhand := h.hand hpc
    have hchunk := h.chunk hpc
    exact h.goto_same (hpc ▸ rfl) hhand hchunk hordinary
  | free t m => exact absurd rfl (hfree t m)
  | closingThread t =>
    obtain ⟨hpc, heq⟩ := ite_none_right_eq_some.mp hstep
    obtain rfl := Option.some.inj heq
    have hhand := h.hand hpc
    have hchunk := h.chunk hpc
    exact h.goto_same (hpc ▸ rfl) hhand hchunk fun q hq => absurd q.mem_all hq
  | write m i v => exact absurd rfl (hwrite m i v)
  | next t add =>
    refine h.next (fun hnone => ?_) hstep
    subst hnone
    exact hordinary

theorem Sound.step {e : MMEvent} (h : s.Sound f) (hordinary : s.Ordinary e)
    (hstep : MMSystem.step thread s e = some s') : ∃ f', s'.Sound f' := by
  cases e with
  | free t m =>
    obtain ⟨⟨hpc, hm⟩, heq⟩ := ite_none_right_eq_some.mp hstep
    exact Option.some.inj heq ▸ h.give hpc hm
  | write m i v =>
    obtain ⟨⟨hm, hi⟩, heq⟩ := ite_none_right_eq_some.mp hstep
    exact ⟨f, Option.some.inj heq ▸ h.write hm hi⟩
  | _ => exact (h.advances hordinary nofun nofun hstep).sound

/-- The size and the octets that the program may use. -/
def extent (m : Pointer) : Block := ⟨m.1 - 8, m.2.toNat + 8⟩

theorem within_of_held {b : Block} (h : s.Held m b) : (extent m).Within b := by
  have haddr := h.addr
  have hroom := h.serves.room
  unfold extent Block.Within
  dsimp only
  omega

theorem pairwise_extent {ms : List Pointer} {l : List Block} (h : List.Forall₂ s.Held ms l)
    (hapart : l.Pairwise Block.Apart) :
    ms.Pairwise fun m m' => (extent m).Apart (extent m') := by
  induction h with
  | nil => exact List.Pairwise.nil
  | @cons m b ms l hmb htail ih =>
    obtain ⟨hfirst, hrest⟩ := pairwise_cons.mp hapart
    refine pairwise_cons.mpr ⟨fun m' hm' => ?_, ih hrest⟩
    obtain ⟨c, hc, hheld⟩ := exists_held htail hm'
    exact (within_of_held hmb).apart ((within_of_held hheld).apart (hfirst c hc).symm).symm

/-- A state in which nothing has happened. -/
def start : MMSystem :=
  ⟨⟨fun _ => 0, []⟩, fun _ => some 0, fun _ => ⟨fun _ => (0, 0), .outside⟩, []⟩

/-- The blocks of a state: every octet behind the first word of a chunk is in exactly one block at
exactly one place. -/
structure Kept (s : MMSystem) (f : Blocks) : Prop where
  stored : Stored s.chunks f
  live : List.Forall₂ s.Held s.live (f .live)
  /-- The lists that are not locked. -/
  list : ∀ q v, s.queue q = some v → s.Linked q v (f (.list q))
  /-- A thread's list ends with the block that it remembers as the last one. -/
  cache : ∀ t q, s.Linked q ((s.threads t).thr_queue q).1 (f (.cache t q)) ∧
    ∀ b ∈ (f (.cache t q)).getLast?, b.addr = ((s.threads t).thr_queue q).2
  /-- A thread outside of the calls holds nothing. -/
  outside : ∀ t, (s.threads t).pc = .outside →
    f (.hand t) = [] ∧ f (.chunk t) = []
  /-- A thread that has gone through its lists has nothing on them. -/
  closed : ∀ t, (s.threads t).pc = .closing [] → ∀ q, f (.cache t q) = []

end MMSystem

end Drt
