import Drt.Core.Mem.MMSystemSound

/-!
# Steps of the memory manager

Each step takes the blocks from the places where they have to be to the places where they have to
be afterwards.
-/

open List Function Option

namespace Drt

open Memory

/-! ### Lists -/

namespace MMHeap.Linked

variable {g : MMHeap} {l : List Block} {b : Block} {q : FreeList} {v : Nat}

theorem nil (h : g.Linked q 0 l) : l = [] :=
  map_eq_nil_iff.mp (Chain.none_iff.mp h.chain)

theorem pop (h : g.Linked q v l) (hv : v ≠ 0) : ∃ b l', l = b :: l' ∧ b.addr = v ∧
    q.size ≤ b.size ∧ g.Linked q (g.memory.loadWord v) l' := by
  obtain ⟨addrs, haddrs, htail⟩ := chain_pos h.chain (Nat.pos_of_ne_zero hv)
  obtain ⟨b, l', rfl, rfl, rfl⟩ := map_eq_cons_iff.mp haddrs
  exact ⟨b, l', rfl, rfl, h.fits b mem_cons_self,
    fun c hc => h.fits c (mem_cons_of_mem b hc), htail⟩

theorem push (h : g.Linked q v l) (hfits : q.size ≤ b.size) (hpos : 0 < b.addr)
    (hlink : g.memory.link b.addr = pointer v) : g.Linked q b.addr (b :: l) := by
  refine ⟨forall_mem_cons.mpr ⟨hfits, h.fits⟩, ?_⟩
  rw [pointer_of_pos hpos]
  exact Chain.push h.chain hlink

end MMHeap.Linked

namespace MMSystem

open MMHeap

variable {s s₁ : MMSystem} {t : Nat} {f f' : Blocks} {p p' : MMPlace} {i j : Option MMPlace}
  {l : List Block} {b : Block} {size_ : UInt64} {q : FreeList} {v v' : Nat} {pc : MMPc}

/-! ### Blocks that are touched -/

theorem Sound.covers (h : s.Sound f) (hb : b ∈ f p) {a n : Nat} (hle : b.addr ≤ a)
    (hfin : a + n ≤ b.addr + b.size) : s.Covers a n := by
  obtain ⟨-, c, hc, hwithin⟩ := h.stored.inside p b hb
  have hsize := (h.stored.chunk c hc).2.1
  unfold Block.Within Block.usable at hwithin
  dsimp only at hwithin
  exact ⟨c, hc, by omega, by omega⟩

theorem Sound.load_eq (h : s.Sound f) (hb : b ∈ f p) : s.load b.addr =
    some (s.memory.loadWord b.addr) :=
  if_pos (h.covers hb (Nat.le_refl _) (Nat.add_le_add_left (h.stored.inside p b hb).1 _))

theorem Sound.store_eq (h : s.Sound f) (hb : b ∈ f p) : s.store b.addr v =
    some { s with memory := s.memory.storeWord b.addr v } :=
  if_pos (h.covers hb (Nat.le_refl _) (Nat.add_le_add_left (h.stored.inside p b hb).1 _))

theorem Sound.keeps (h : s.Sound f) (p : MMPlace) : Keeps s.toMMHeap s.toMMHeap (f p) :=
  ⟨fun b hb => (h.stored.inside p b hb).1, fun _ _ => Agree.refl _ _ _, fun _ _ _ hc _ => hc⟩

/-- One that writes into a block keeps the blocks at other places. -/
theorem Sound.keeps_store (h : s.Sound f) (hb : b ∈ f p) (hp : p' ≠ p) :
    Keeps s.toMMHeap ⟨s.memory.storeWord b.addr v, s.chunks⟩ (f p') := by
  refine ⟨fun c hc => (h.stored.inside p' c hc).1, fun c hc => ?_, fun _ _ _ hd _ => hd⟩
  apply agree_storeWord
  have hapart := h.stored.apart_of_ne hp hc hb
  have hsize := (h.stored.inside p b hb).1
  unfold Block.Apart at hapart
  omega

/-- One that gives back a chunk keeps the blocks of the others. -/
theorem Sound.keeps_release {c : Block} (h : s.Sound f) (hc : c ∈ s.chunks)
    (hi : c.usable ∈ f p) (hp : p' ≠ p) :
    Keeps s.toMMHeap ⟨s.memory, s.chunks.filter (·.addr ≠ c.addr)⟩ (f p') := by
  refine ⟨fun b hb => (h.stored.inside p' b hb).1, fun _ _ => Agree.refl _ _ _, ?_⟩
  intro b hb d hd hwithin
  refine (h.stored.mem_filter_addr hc).mpr ⟨hd, ?_⟩
  rintro rfl
  have hapart := h.stored.apart_of_ne hp hb hi
  have hsize := (h.stored.inside p' b hb).1
  unfold Block.Within at hwithin
  unfold Block.Apart at hapart
  omega

/-! ### What a step of a thread changes -/

/-- What the step `s` to `s'` of a thread does: it keeps the blocks in order, and those of the
program are kept and may get another one. -/
structure Advances (s s' : MMSystem) (f : Blocks) : Prop where
  sound : ∃ f', s'.Sound f'
  live : s'.live = s.live ∨ ∃ m, s'.live = m :: s.live
  keep : Keeps s.toMMHeap s'.toMMHeap (f .live)

/-- The places that a step of a thread leaves alone. -/
def Elsewhere (t : Nat) (i j : Option MMPlace) (p : MMPlace) : Prop :=
  p ≠ .hand t ∧ p ≠ .chunk t ∧ i ≠ some p ∧ j ≠ some p

/-- The lists of threads after a step: one of the thread's own may have changed. -/
def SameLists (s s₁ : MMSystem) (t : Nat) (i : Option MMPlace) : Prop :=
  s₁.threads = s.threads ∨
    ∃ q e, i = some (.cache t q) ∧ s₁.threads = (s.setThrQueue t q e).threads

theorem SameLists.threads (h : SameLists s s₁ t i) {t' : Nat} (ht : t' ≠ t) :
    s₁.threads t' = s.threads t' := by
  rcases h with h | ⟨q, e, -, h⟩
  · rw [h]
  · rw [h, setThrQueue_threads_of_ne ht]

theorem SameLists.cache (h : SameLists s s₁ t i) (q : FreeList) : i = some (.cache t q) ∨
    (s₁.threads t).thr_queue q = (s.threads t).thr_queue q := by
  rcases h with h | ⟨q', e, rfl, h⟩
  · rw [h]
    exact .inr rfl
  · by_cases hq : q = q'
    · exact .inl (hq ▸ rfl)
    · rw [h, setThrQueue_of_ne hq]
      exact .inr rfl

theorem SameLists.taken_goto (h : SameLists s s₁ t i) :
    (s₁.goto t pc).taken = update s.taken t pc.holds := by
  funext t'
  by_cases ht : t' = t
  · subst ht
    rw [update_self, taken, goto_pc_self]
  · rw [update_of_ne ht, taken, goto_pc_of_ne ht, h.threads ht]
    rfl

/-- A step is looked at only for the places that it changes: those of the thread and two others. -/
theorem Sound.touch (h : s.Sound f) (hlists : SameLists s s₁ t i)
    (hlive : i = some .live ∨ s₁.live = s.live)
    (hheads : ∀ q, j = some (.list q) ∨ ∀ v, (s₁.goto t pc).Heads q v → s.Heads q v)
    (locks : Locks s₁.queue (s₁.goto t pc).taken) (stored : Stored s₁.chunks f')
    (same : ∀ p, Elsewhere t i j p → f' p = f p)
    (keep : ∀ p, Elsewhere t i j p → Keeps s.toMMHeap s₁.toMMHeap (f p))
    (hand : s₁.HandAt pc (f' (.hand t))) (chunk : s₁.ChunkAt pc (f' (.chunk t)))
    (hi : ∀ p, i = some p → (s₁.goto t pc).At p (f' p))
    (hj : ∀ p, j = some p → (s₁.goto t pc).At p (f' p))
    (asks : Asks (s₁.threads t).thr_queue pc) : (s₁.goto t pc).Sound f' := by
  have hsame : ∀ p, Elsewhere t i j p → SameAt s (s₁.goto t pc) p := by
    rintro p ⟨hhand, hchunk, hpi, hpj⟩
    cases p with
    | live => exact hlive.resolve_left hpi
    | list q => exact (hheads q).resolve_left hpj
    | cache t' q =>
      rw [SameAt, goto_thr_queue]
      by_cases ht : t' = t
      · subst ht
        exact (hlists.cache q).resolve_left hpi
      · rw [hlists.threads ht]
    | hand t' =>
      have ht : t' ≠ t := fun hc => hhand (hc ▸ rfl)
      rw [SameAt, goto_pc_of_ne ht, hlists.threads ht]
    | chunk t' =>
      have ht : t' ≠ t := fun hc => hchunk (hc ▸ rfl)
      rw [SameAt, goto_pc_of_ne ht, hlists.threads ht]
  refine ⟨stored, fun p => ?_, locks, fun t' => ?_⟩
  · -- each place is one of the thread's own, one of the two, or left alone
    by_cases hp : Elsewhere t i j p
    · rw [same p hp]
      exact (h.holds p).congr (hsame p hp) (keep p hp)
    · by_cases hhand : p = .hand t
      · subst hhand
        rw [At, goto_pc_self]
        exact hand
      · by_cases hchunk : p = .chunk t
        · subst hchunk
          rw [At, goto_pc_self]
          exact chunk
        · by_cases hip : i = some p
          · exact hi p hip
          · exact hj p (not_not.mp fun hjp => hp ⟨hhand, hchunk, hip, hjp⟩)
  · rw [goto_thr_queue]
    by_cases ht : t' = t
    · subst ht
      rwa [goto_pc_self]
    · rw [goto_pc_of_ne ht, hlists.threads ht]
      exact h.asks t'

/-- A step that locks nothing and unlocks nothing. -/
theorem Sound.arrange (h : s.Sound f) (hlists : SameLists s s₁ t i)
    (hlive : i = some .live ∨ s₁.live = s.live) (hqueue : s₁.queue = s.queue)
    (hholds : (s.threads t).pc.holds = pc.holds) (stored : Stored s₁.chunks f')
    (same : ∀ p, Elsewhere t i none p → f' p = f p)
    (keep : ∀ p, Elsewhere t i none p → Keeps s.toMMHeap s₁.toMMHeap (f p))
    (hand : s₁.HandAt pc (f' (.hand t))) (chunk : s₁.ChunkAt pc (f' (.chunk t)))
    (hi : ∀ p, i = some p → (s₁.goto t pc).At p (f' p))
    (asks : Asks (s₁.threads t).thr_queue pc) : (s₁.goto t pc).Sound f' := by
  have htaken : (s₁.goto t pc).taken = s.taken := by
    rw [hlists.taken_goto, ← hholds]
    exact update_eq_self t s.taken
  refine h.touch hlists hlive (fun q => .inr fun v hv => ?_) ?_ stored same keep hand chunk hi
    nofun asks
  · unfold Heads at hv
    rwa [htaken, show (s₁.goto t pc).queue = s₁.queue from rfl, hqueue] at hv
  · rw [htaken, hqueue]
    exact h.locks

/-- A step of a thread that locks nothing and unlocks nothing. -/
theorem Sound.proceed (h : s.Sound f) (hlists : SameLists s s₁ t i)
    (hlive : s₁.live = s.live ∨ i = some .live ∧ ∃ m, s₁.live = m :: s.live)
    (hqueue : s₁.queue = s.queue) (hholds : (s.threads t).pc.holds = pc.holds)
    (stored : Stored s₁.chunks f') (same : ∀ p, Elsewhere t i none p → f' p = f p)
    (keep : ∀ p, Elsewhere t i none p ∨ p = .live → Keeps s.toMMHeap s₁.toMMHeap (f p))
    (hand : s₁.HandAt pc (f' (.hand t))) (chunk : s₁.ChunkAt pc (f' (.chunk t)))
    (hi : ∀ p, i = some p → (s₁.goto t pc).At p (f' p))
    (asks : Asks (s₁.threads t).thr_queue pc) : Advances s (s₁.goto t pc) f :=
  ⟨⟨f', h.arrange hlists (hlive.symm.imp_left And.left) hqueue hholds stored same
    (fun p hp => keep p (.inl hp)) hand chunk hi asks⟩, hlive.imp_right And.right,
    keep .live (.inr rfl)⟩

theorem Sound.linked (h : s.Sound f) (ht : (s.threads t).pc.holds = some (q, v)) :
    s.Linked q v (f (.list q)) :=
  (h.holds (.list q)).2 v (.inr ⟨t, ht⟩)

/-- A step that puts back a list, and may change the blocks on it. -/
theorem Sound.unlock (h : s.Sound f) (ht : (s.threads t).pc.holds = some (q, v))
    (hlists : SameLists s s₁ t i) (hlive : s₁.live = s.live)
    (hqueue : s₁.queue = update s.queue q (some v')) (hholds : pc.holds = none)
    (stored : Stored s₁.chunks f') (same : ∀ p, Elsewhere t i (some (.list q)) p → f' p = f p)
    (keep : ∀ p, Elsewhere t i (some (.list q)) p ∨ p = .live →
      Keeps s.toMMHeap s₁.toMMHeap (f p))
    (hand : s₁.HandAt pc (f' (.hand t))) (chunk : s₁.ChunkAt pc (f' (.chunk t)))
    (hi : ∀ p, i = some p → (s₁.goto t pc).At p (f' p)) (linked : s₁.Linked q v' (f' (.list q)))
    (asks : Asks (s₁.threads t).thr_queue pc) : Advances s (s₁.goto t pc) f := by
  have htaken : (s₁.goto t pc).taken = update s.taken t none := by
    rw [hlists.taken_goto, hholds]
  have hheads : ∀ q' u, (s₁.goto t pc).Heads q' u → q' = q ∧ u = v' ∨ q' ≠ q ∧ s.Heads q' u := by
    intro q' u hu
    unfold Heads at hu
    rw [htaken, show (s₁.goto t pc).queue = s₁.queue from rfl, hqueue] at hu
    exact h.locks.value_of_put ht hu
  refine ⟨⟨f', h.touch hlists (.inr hlive) (fun q' => ?_) ?_ stored same
    (fun p hp => keep p (.inl hp)) hand chunk hi ?_ asks⟩, .inl hlive, keep .live (.inr rfl)⟩
  · by_cases hq : q' = q
    · exact .inl (hq ▸ rfl)
    · exact .inr fun u hu => ((hheads q' u hu).resolve_left fun hc => hq hc.1).2
  · rw [htaken, hqueue]
    exact h.locks.put ht v'
  · rintro p hp
    obtain rfl := Option.some.inj hp
    refine ⟨linked.fits, fun u hu => ?_⟩
    rcases hheads q u hu with ⟨-, rfl⟩ | ⟨hne, -⟩
    · exact linked
    · exact absurd rfl hne

theorem Sound.hand (h : s.Sound f) (hpc : (s.threads t).pc = pc) : s.HandAt pc (f (.hand t)) :=
  hpc ▸ h.holds (.hand t)

theorem Sound.chunk (h : s.Sound f) (hpc : (s.threads t).pc = pc) : s.ChunkAt pc (f (.chunk t)) :=
  hpc ▸ h.holds (.chunk t)

theorem Sound.asked (h : s.Sound f) (hpc : (s.threads t).pc = pc) :
    Asks (s.threads t).thr_queue pc :=
  hpc ▸ h.asks t

/-! ### Steps that leave all blocks -/

theorem Sound.goto_same (h : s.Sound f) (hholds : (s.threads t).pc.holds = pc.holds)
    (hand : s.HandAt pc (f (.hand t))) (chunk : s.ChunkAt pc (f (.chunk t)))
    (asks : Asks (s.threads t).thr_queue pc) : Advances s (s.goto t pc) f :=
  h.proceed (i := none) (.inl rfl) (.inl rfl) rfl hholds h.stored (fun _ _ => rfl)
    (fun p _ => h.keeps p) hand chunk nofun asks

/-- The thread locks a list with what it has. -/
theorem Sound.lock_same {s' : MMSystem} {k : Nat → MMPc} (h : s.Sound f)
    (hstep : s.i_lock t q k = some s') (hholds : ∀ v, (k v).holds = some (q, v))
    (hand : ∀ v, s.HandAt (k v) (f (.hand t))) (chunk : ∀ v, s.ChunkAt (k v) (f (.chunk t)))
    (asks : ∀ v, Asks (s.threads t).thr_queue (k v)) : Advances s s' f := by
  obtain ⟨v, hv, rfl⟩ := map_eq_some_iff.mp hstep
  have hlists : SameLists s (s.setQueue q none) t none := .inl rfl
  have htaken : ((s.setQueue q none).goto t (k v)).taken =
      update s.taken t (some (q, v)) := by
    rw [hlists.taken_goto, hholds]
  refine ⟨⟨f, h.touch (j := none) hlists (.inr rfl) (fun q' => .inr fun u hu => ?_) ?_ h.stored
    (fun _ _ => rfl) (fun p _ => h.keeps p) (hand v) (chunk v) nofun nofun (asks v)⟩, .inl rfl,
    h.keeps .live⟩
  · unfold Heads at hu
    rw [htaken] at hu
    exact Locks.value_of_take hv hu
  · rw [htaken]
    exact h.locks.take hv

@[simp] theorem settle_some {s' : MMSystem} : s.settle t (some s') = s' := rfl

theorem serves_of_small (hw : Proper size_) (h : SmallFor q size_) (hfits : q.size ≤ b.size) :
    s.Serves size_ b := by
  obtain ⟨hsmall, rfl⟩ := h
  refine ⟨?_, fun _ => hfits, fun hlarge => absurd hlarge (UInt64.not_lt.mpr hsmall)⟩
  have hsize := le_size_allocList hsmall
  rw [freeList_eq_allocList hsmall] at hfits
  have hadd : (size_ + 8).toNat = size_.toNat + 8 := by
    rw [UInt64.toNat_add]
    exact Nat.mod_eq_of_lt (by unfold Proper at hw; change size_.toNat + 8 < _; omega)
  omega

/-! ### Blocks come from a list -/

/-- The thread takes a block of its own list. -/
theorem Sound.popCache (h : s.Sound f) (hpc : (s.threads t).pc = .impl_alloc size_)
    (hsmall : SmallFor q size_) (hne : ((s.threads t).thr_queue q).1 ≠ 0) :
    Advances s (s.settle t ((s.load ((s.threads t).thr_queue q).1).map fun next =>
      (s.setThrQueue t q (next, ((s.threads t).thr_queue q).2)).goto t
        (.has_out size_ ((s.threads t).thr_queue q).1))) f := by
  obtain ⟨hlinked, hlast⟩ := h.holds (.cache t q)
  obtain ⟨b, l, hl, hb, hfits, htail⟩ := hlinked.pop hne
  have hmem : b ∈ f (.cache t q) := hl ▸ mem_cons_self
  have hhand : f (.hand t) = [] := h.hand hpc
  have hchunk := h.chunk hpc
  obtain ⟨f', hstored, hcache, hhand', hother⟩ := h.stored.exists_move (l := [b]) (j := .hand t)
    (nofun : MMPlace.cache t q ≠ .hand t) (List.Perm.of_eq hl)
  rw [← hb, h.load_eq hmem, map_some, settle_some]
  refine h.proceed (i := some (.cache t q)) (.inr ⟨q, _, rfl, rfl⟩) (.inl rfl) rfl (hpc ▸ rfl)
    hstored (fun p hp => hother p (fun hc => hp.2.2.1 (hc ▸ rfl)) hp.1) (fun p _ => h.keeps p)
    ?_ ?_ ?_ trivial
  · rw [hhand', hhand]
    exact ⟨b, rfl, rfl, serves_of_small (h.asked hpc) hsmall hfits⟩
  · rw [hother (.chunk t) nofun nofun]
    exact hchunk
  · rintro p hp
    obtain rfl := Option.some.inj hp
    rw [hcache, At, goto_thr_queue, setThrQueue_self]
    refine ⟨hb ▸ htail, fun c hc => hlast c ?_⟩
    rw [hl]
    cases l with
    | nil => cases hc
    | cons d l => exact hc

theorem Sound.empty (h : s.Sound f) (hpc : (s.threads t).pc = .locked size_ q none 0) :
    Advances s ((s.setQueue q (some 0)).goto t (.go_alloc size_ q)) f := by
  have ht : (s.threads t).pc.holds = some (q, 0) := hpc ▸ rfl
  have hhand := h.hand hpc
  have hchunk := h.chunk hpc
  have hasks := h.asked hpc
  exact h.unlock (i := none) ht (.inl rfl) rfl rfl rfl h.stored (fun _ _ => rfl)
    (fun p _ => h.keeps p) hhand hchunk nofun (h.linked ht) hasks

/-- Where a thread goes with a block of the list. -/
def gotOut (size_ : UInt64) (q : FreeList) (add : Option (Nat × Block)) (out : Nat) : MMPc :=
  match add with
  | none => .has_out size_ out
  | some (add, _) => .giveBack size_ q add out

/-- It takes the first block of the list. -/
theorem Sound.popList {add : Option (Nat × Block)} {out : Nat} (h : s.Sound f)
    (hpc : (s.threads t).pc = .locked size_ q add out) (hne : out ≠ 0) :
    Advances s (s.settle t ((s.load out).map fun next =>
      (s.setQueue q (some next)).goto t (gotOut size_ q add out))) f := by
  have ht : (s.threads t).pc.holds = some (q, out) := hpc ▸ rfl
  obtain ⟨b, l, hl, rfl, hfits, htail⟩ := (h.linked ht).pop hne
  have hasks := h.asked hpc
  have hmem : b ∈ f (.list q) := hl ▸ mem_cons_self
  have hhand : f (.hand t) = [] := h.hand hpc
  have hchunk := h.chunk hpc
  have hserves : s.Serves size_ b := serves_of_small hasks.1 hasks.2 hfits
  obtain ⟨f', hstored, hlist, hhand', hother⟩ := h.stored.exists_move (l := [b]) (j := .hand t)
    (nofun : MMPlace.list q ≠ .hand t) (List.Perm.of_eq hl)
  rw [h.load_eq hmem, map_some, settle_some]
  refine h.unlock (i := none) ht (.inl rfl) rfl rfl (by cases add <;> rfl) hstored
    (fun p hp => hother p (fun hc => hp.2.2.2 (hc ▸ rfl)) hp.1) (fun p _ => h.keeps p)
    ?_ ?_ nofun ?_ (by cases add <;> trivial)
  · rw [hhand', hhand]
    cases add <;> exact ⟨b, rfl, rfl, hserves⟩
  · rw [hother (.chunk t) nofun nofun]
    cases add with
    | none => exact hchunk
    | some add => exact ⟨hchunk.1, hchunk.2.mem⟩
  · rw [hlist]
    exact htail

/-! ### A chunk -/

/-- Every octet of a chunk is in one of the blocks or in the remainder. -/
theorem carve_covers (q : FreeList) {cur fin x : Nat} (h : cur ≤ x) (hfin : x < fin) :
    (∃ b ∈ (carve q cur fin).1, b.val.Has x) ∨ (carve q cur fin).2.Has x := by
  fun_induction carve q cur fin with
  | case1 cur next hnext r ih =>
    rcases Nat.lt_or_ge x next with hlt | hge
    · exact .inl ⟨_, mem_cons_self, h, hlt⟩
    · refine (ih hge).imp_left ?_
      rintro ⟨b, hb, hx⟩
      exact ⟨b, mem_cons_of_mem _ hb, hx⟩
  | case2 cur next hnext =>
    refine .inr ⟨h, ?_⟩
    change x < cur + (fin - cur)
    omega

/-- The remainder as a list of blocks. -/
def remainBlocks (r : Block) : List Block := if r.size = 0 then [] else [r]

theorem mem_remainBlocks {r : Block} : b ∈ remainBlocks r ↔ b = r ∧ r.size ≠ 0 := by
  unfold remainBlocks
  by_cases h : r.size = 0 <;> simp [h]

/-- The parts of a chunk, the first block in front. -/
def parts (b : Room q) (l : List (Room q)) (r : Block) : List Block :=
  b.val :: (remainBlocks r ++ l.map (·.val))

section Carve

variable {add : Nat} {r : Room q} {rs : List (Room q)} {rest : Block}

/-- What is left of a chunk is nothing, or a block for some list. -/
theorem carve_rest (hcarve : carve q (add + 8) (add + q.alloc) = (rs, rest)) :
    rest.size = 0 ∨ ∃ q', remainList rest.size = some q' ∧ q'.size ≤ rest.size := by
  have hroom := q.size_add_le_alloc
  have hle : add + 8 ≤ add + q.alloc := by omega
  have hsize := carve_remain q hle
  rw [hcarve, Nat.add_sub_add_left] at hsize
  change rest.size = _ at hsize
  rw [hsize]
  exact q.remainList_fits.imp_right fun ⟨q', hq', hle, _⟩ => ⟨q', hq', hle⟩

/-- They are parts of it. -/
theorem parts_within (hcarve : carve q (add + 8) (add + q.alloc) = (r :: rs, rest)) :
    ∀ c ∈ parts r rs rest, 8 ≤ c.size ∧ c.Within ⟨add + 8, q.alloc - 8⟩ := by
  have hroom := q.size_add_le_alloc
  have hle : add + 8 ≤ add + q.alloc := by omega
  obtain ⟨hinside, -, hcur, hfin⟩ := carve_apart q hle
  rw [hcarve] at hinside hcur hfin
  dsimp only at hinside hcur hfin
  have hblock : ∀ c ∈ r :: rs, 8 ≤ c.val.size ∧ c.val.Within ⟨add + 8, q.alloc - 8⟩ := by
    intro c hc
    have hin := hinside c hc
    have hsize := q.size_ge
    have hfits := c.property.1
    exact ⟨by omega, hin.1, by dsimp only; omega⟩
  intro c hc
  rcases mem_cons.mp hc with rfl | hc
  · exact hblock r mem_cons_self
  · rcases mem_append.mp hc with hc | hc
    · obtain ⟨rfl, hne⟩ := mem_remainBlocks.mp hc
      obtain ⟨q', -, hle⟩ := (carve_rest hcarve).resolve_left hne
      have hsize := q'.size_ge
      exact ⟨by omega, hcur, by dsimp only; omega⟩
    · obtain ⟨d, hd, rfl⟩ := mem_map.mp hc
      exact hblock d (mem_cons_of_mem r hd)

/-- They are apart. -/
theorem parts_apart (hcarve : carve q (add + 8) (add + q.alloc) = (r :: rs, rest)) :
    (parts r rs rest).Pairwise Block.Apart := by
  have hroom := q.size_add_le_alloc
  have hle : add + 8 ≤ add + q.alloc := by omega
  obtain ⟨hinside, hpairwise, -, -⟩ := carve_apart q hle
  rw [hcarve] at hinside hpairwise
  have hbefore := pairwise_cons.mp hpairwise
  refine pairwise_cons.mpr ⟨fun c hc => ?_, pairwise_append.mpr ⟨?_, ?_, ?_⟩⟩
  · rcases mem_append.mp hc with hc | hc
    · obtain ⟨rfl, -⟩ := mem_remainBlocks.mp hc
      exact .inl (hinside r mem_cons_self).2
    · obtain ⟨d, hd, rfl⟩ := mem_map.mp hc
      exact .inl (hbefore.1 d hd)
  · unfold remainBlocks
    split
    · exact List.Pairwise.nil
    · exact pairwise_singleton _ _
  · exact pairwise_map.mpr (hbefore.2.imp fun hlt => .inl hlt)
  · intro c hc d hd
    obtain ⟨rfl, -⟩ := mem_remainBlocks.mp hc
    obtain ⟨e, he, rfl⟩ := mem_map.mp hd
    exact .inr (hinside e (mem_cons_of_mem r he)).2

/-- Nothing is left out. -/
theorem parts_cover (hcarve : carve q (add + 8) (add + q.alloc) = (r :: rs, rest)) {x : Nat}
    (hx : (⟨add + 8, q.alloc - 8⟩ : Block).Has x) : ∃ c ∈ parts r rs rest, c.Has x := by
  have hroom := q.size_add_le_alloc
  have hlt : x < add + q.alloc := by
    have hbelow := hx.2
    dsimp only at hbelow
    omega
  have hcovers := carve_covers q hx.1 hlt
  rw [hcarve] at hcovers
  rcases hcovers with ⟨c, hc, hcx⟩ | hrest
  · rcases mem_cons.mp hc with rfl | hc
    · exact ⟨_, mem_cons_self, hcx⟩
    · exact ⟨c.val, mem_cons_of_mem _ (mem_append_right _ (mem_map_of_mem hc)), hcx⟩
  · have hne : rest.size ≠ 0 := by
      intro hzero
      obtain ⟨hle, hbelow⟩ := hrest
      dsimp only at hle hbelow
      omega
    exact ⟨rest, mem_cons_of_mem _ (mem_append_left _ (mem_remainBlocks.mpr ⟨rfl, hne⟩)),
      hrest⟩

end Carve

/-- The first block of a chunk goes to the thread, the others to the list. -/
theorem Sound.publish {add : Nat} {rest : Block} (h : s.Sound f)
    (hpc : (s.threads t).pc = .locked size_ q (some (add, rest)) 0) :
    Advances s (s.settle t ((s.load (add + 8)).map fun next =>
      (s.setQueue q (some next)).goto t (.remain size_ rest (add + 8)))) f := by
  have ht : (s.threads t).pc.holds = some (q, 0) := hpc ▸ rfl
  have hempty : f (.list q) = [] := (h.linked ht).nil
  have hasks := h.asked hpc
  obtain ⟨hwhole, hcut⟩ := h.chunk hpc
  have hhand : f (.hand t) = [] := h.hand hpc
  have hmem : (⟨add + 8, q.alloc - 8⟩ : Block) ∈ f (.chunk t) := hwhole ▸ List.mem_cons_self
  have hroom := q.size_add_le_alloc
  have hfirst : add + 8 + q.size ≤ add + q.alloc := by omega
  obtain ⟨r, rs, hblocks⟩ := List.exists_cons_of_ne_nil (carve_ne_nil q hfirst)
  have hcarve : carve q (add + 8) (add + q.alloc) = (r :: rs, rest) :=
    Prod.ext hblocks hcut.remain.symm
  obtain ⟨haddr, hchain⟩ := hblocks ▸ hcut.chain
  obtain haddr : add + 8 = r.val.addr := Option.some.inj haddr
  -- through the list, the first block goes on to the thread and the remainder back to it
  obtain ⟨f₁, hstored₁, hchunk₁, hlist₁, hother₁⟩ := h.stored.exists_divide (i := .chunk t)
    (j := .list q) nofun (List.Perm.of_eq (hwhole.trans (List.append_nil _).symm))
    (parts_apart hcarve)
    (fun c hc => ⟨(parts_within hcarve c hc).1, _, List.mem_singleton_self _,
      (parts_within hcarve c hc).2⟩)
    (fun a ha x hx => parts_cover hcarve (List.mem_singleton.mp ha ▸ hx))
  rw [hempty, List.append_nil] at hlist₁
  obtain ⟨f₂, hstored₂, hlist₂, hhand₂, hother₂⟩ := hstored₁.exists_move (i := .list q)
    (j := .hand t) (l := [r.val]) nofun (List.Perm.of_eq hlist₁)
  obtain ⟨f₃, hstored₃, hlist₃, hchunk₃, hother₃⟩ := hstored₂.exists_move (i := .list q)
    (j := .chunk t) nofun (List.Perm.of_eq hlist₂)
  rw [hother₁ (.hand t) nofun nofun, hhand, List.append_nil] at hhand₂
  rw [hother₂ (.chunk t) nofun nofun, hchunk₁, List.append_nil] at hchunk₃
  rw [h.load_eq hmem, Option.map_some, settle_some]
  refine h.unlock (i := none) ht (.inl rfl) rfl rfl rfl hstored₃ ?_ (fun p _ => h.keeps p) ?_ ?_
    nofun ⟨?_, ?_⟩ trivial
  · rintro p ⟨hnot, hnot', -, hlist⟩
    have hp : p ≠ .list q := fun hc => hlist (hc ▸ rfl)
    rw [hother₃ p hp hnot', hother₂ p hp hnot, hother₁ p hnot' hp]
  · rw [hother₃ (.hand t) nofun nofun, hhand₂]
    exact ⟨r.val, rfl, haddr.symm, serves_of_small hasks.1 hasks.2 r.property.1⟩
  · rw [hchunk₃]
    exact ⟨rfl, carve_rest hcarve⟩
  · rw [hlist₃]
    intro c hc
    obtain ⟨d, -, rfl⟩ := List.mem_map.mp hc
    exact d.property.1
  · rw [hlist₃, List.map_map]
    have hnext : pointer (s.memory.loadWord (add + 8)) = s.memory.link r.val.addr := by
      rw [haddr]
      rfl
    rw [hnext]
    exact hchain

/-! ### Chunks come and go -/

/-- The loop links the blocks of a chunk, and touches nothing else. -/
theorem carveLinks_spec (q : FreeList) {cur fin : Nat} (s : MMSystem) (hroom : cur + q.size ≤ fin)
    (hpos : 0 < cur) (hfin : fin ≤ 2 ^ 63)
    (hcovers : ∀ a, cur ≤ a → a + 8 ≤ fin → ∃ c ∈ s.chunks, c.addr ≤ a ∧ a + 8 ≤ c.addr + c.size) :
    ∃ m, carveLinks q cur fin s = some ({ s with memory := m }, (carve q cur fin).2) ∧
      Chain (Memory.link m) (some cur) ((carve q cur fin).1.map (·.val.addr)) ∧
      ∀ x, x < cur ∨ fin ≤ x → m x = s.memory x := by
  fun_induction carve q cur fin generalizing s with
  | case1 cur next hnext r ih =>
    have hsize := q.size_ge
    have hstore : s.store cur next = some { s with memory := s.memory.storeWord cur next } :=
      if_pos (hcovers cur (Nat.le_refl _) (by omega))
    have hlink : (s.memory.storeWord cur next).link cur = some next := by
      rw [Memory.link_storeWord _ _ (by omega), Memory.pointer_of_pos (by omega)]
    have hkept : ∀ x, x < cur ∨ next ≤ x → s.memory.storeWord cur next x = s.memory x :=
      fun x hx => Memory.agree_storeWord (n := 1) (by omega) x (Nat.le_refl _) (Nat.lt_succ_self _)
    unfold carveLinks
    dsimp only
    rw [if_pos hnext, hstore, bind_some]
    rcases Nat.lt_or_ge fin (next + q.size) with hlast | hmore
    · -- this is the last block: its link is set to the next one first, and then to nothing
      have hstop : ¬ next + q.size ≤ fin := by omega
      have hback : next - q.size = cur := by omega
      have hr : r = ([], ⟨next, fin - next⟩) := by
        change carve q next fin = _
        unfold carve
        rw [if_neg hstop]
      unfold carveLinks
      dsimp only
      rw [if_neg hstop, hback]
      have hstore' : ({ s with memory := s.memory.storeWord cur next } : MMSystem).store cur 0 =
          some { s with memory := (s.memory.storeWord cur next).storeWord cur 0 } :=
        if_pos (hcovers cur (Nat.le_refl _) (by omega))
      rw [hstore', map_some, hr]
      refine ⟨_, rfl, ⟨rfl, ?_⟩, fun x hx => ?_⟩
      · exact Memory.link_storeWord _ _ (by omega)
      · have houtside : x < cur ∨ next ≤ x := by omega
        exact (Memory.agree_storeWord (n := 1) (by omega) x (Nat.le_refl _)
          (Nat.lt_succ_self _)).trans (hkept x houtside)
    · obtain ⟨m, hm, hchain, hrest⟩ := ih { s with memory := s.memory.storeWord cur next } hmore
        (by omega) fun a hle => hcovers a (by omega)
      refine ⟨m, hm, ⟨rfl, ?_⟩, fun x hx => ?_⟩
      · have hsame : Memory.Agree (s.memory.storeWord cur next) m cur 8 :=
          fun x _ hlt => hrest x (.inl (by omega))
        rw [hsame.link_eq, hlink]
        exact hchain
      · exact (hrest x (by omega)).trans (hkept x (by omega))
  | case2 cur next hnext => exact absurd hroom hnext

/-- A thread gets a new chunk and cuts it; no block is touched. -/
theorem Sound.go_alloc {add : Nat} (h : s.Sound f) (hpc : (s.threads t).pc = .go_alloc size_ q)
    (hgives : s.Gives q.alloc (some add)) : Advances s (s.goAlloc t size_ q (some add)) f := by
  have hchunk : f (.chunk t) = [] := h.chunk hpc
  have hhand : f (.hand t) = [] := h.hand hpc
  have hasks := h.asked hpc
  have hroom := q.size_add_le_alloc
  have hsize := q.size_ge
  obtain ⟨hpos, hfin, hnew⟩ := hgives
  have hcur : add + 8 + q.size ≤ add + q.alloc := by omega
  obtain ⟨m, hm, hchain, hrest⟩ := carveLinks_spec q (s.obtain q.alloc (some add)) hcur
    (by omega) hfin
    (fun a hle hend => ⟨⟨add, q.alloc⟩, mem_cons_self, by dsimp only; omega, hend⟩)
  have hagree : ∀ p, ∀ b ∈ f p, Agree s.memory m b.addr b.size := by
    intro p b hb x hle hlt
    obtain ⟨-, c, hc, hwithin⟩ := h.stored.inside p b hb
    have hcsize := (h.stored.chunk c hc).2.1
    have hapart := hnew c hc
    unfold Block.Within Block.usable at hwithin
    dsimp only at hwithin
    exact hrest x (by omega)
  obtain ⟨f', hstored, hchunk', hother⟩ := h.stored.exists_obtain (c := ⟨add, q.alloc⟩) (.chunk t)
    hpos (by dsimp only; omega) hfin fun d hd => (hnew d hd).symm
  rw [goAlloc, hm, map_some, settle_some]
  refine h.proceed (i := none) (.inl rfl) (.inl rfl) rfl (hpc ▸ rfl) hstored
    (fun p hp => hother p hp.2.1) (fun p _ => ⟨fun b hb => (h.stored.inside p b hb).1, hagree p,
      fun _ _ d hd _ => mem_cons_of_mem _ hd⟩) ?_ ?_ nofun hasks
  · rw [hother (.hand t) nofun]
    exact hhand
  · rw [hchunk', hchunk]
    exact ⟨rfl, mem_cons_self, hchain, rfl⟩

/-- A large block is a chunk of its own. -/
theorem Sound.takeLarge {add : Nat} (h : s.Sound f) (hpc : (s.threads t).pc = .large size_)
    (hgives : s.Gives (size_ + 8 + 16).toNat (some add)) :
    Advances s (s.takeLarge t size_ (some add)) f := by
  obtain ⟨hproper, hlarge⟩ := h.asked hpc
  have hhand : f (.hand t) = [] := h.hand hpc
  have hchunk := h.chunk hpc
  obtain ⟨hpos, hfin, hnew⟩ := hgives
  have hsize : (size_ + 8 + 16).toNat = size_.toNat + 24 := by
    unfold Proper at hproper
    rw [UInt64.toNat_add, UInt64.toNat_add]
    change (((size_.toNat + 8) % _) + 16) % _ = _
    omega
  rw [hsize] at hfin hnew
  obtain ⟨f', hstored, hhand', hother⟩ := h.stored.exists_obtain (c := ⟨add, size_.toNat + 24⟩)
    (.hand t) hpos (by dsimp only; omega) hfin fun d hd => (hnew d hd).symm
  have hout : add + 16 - 8 = add + 8 := by omega
  unfold MMSystem.takeLarge
  dsimp only
  rw [getD_some, hout, if_neg (by omega), hsize]
  refine h.proceed (i := none) (.inl rfl) (.inl rfl) rfl (hpc ▸ rfl) hstored
    (fun p hp => hother p hp.1) (fun p _ => ⟨fun b hb => (h.stored.inside p b hb).1,
      fun _ _ => Agree.refl _ _ _, fun _ _ d hd _ => mem_cons_of_mem _ hd⟩) ?_ ?_ nofun trivial
  · rw [hhand', hhand]
    refine ⟨_, rfl, rfl, ?_, fun hsmall => absurd hlarge (UInt64.not_lt.mpr hsmall),
      fun _ => ⟨_, mem_cons_self, rfl⟩⟩
    change size_.toNat + 8 ≤ size_.toNat + 24 - 8
    omega
  · rw [hother (.chunk t) nofun]
    exact hchunk

/-- A chunk that is not needed any more is given back. -/
theorem Sound.giveBack {add out : Nat} (h : s.Sound f)
    (hpc : (s.threads t).pc = .giveBack size_ q add out) :
    Advances s (s.settle t ((s.release add).map fun s => s.goto t (.has_out size_ out))) f := by
  obtain ⟨hwhole, hmem⟩ := h.chunk hpc
  obtain ⟨b, hb, hout, hserves⟩ := h.hand hpc
  have hrelease : s.release add = some { s with chunks := s.chunks.filter (·.addr ≠ add) } :=
    if_pos ⟨_, hmem, rfl⟩
  obtain ⟨f', hstored, hnone, hother⟩ := h.stored.exists_release hmem hwhole
  have hkeep : ∀ p, p ≠ .chunk t → Keeps s.toMMHeap _ (f p) :=
    fun p hp => h.keeps_release hmem (hwhole ▸ mem_cons_self) hp
  rw [hrelease, map_some, settle_some]
  refine h.proceed (i := none) (.inl rfl) (.inl rfl) rfl (hpc ▸ rfl) hstored
    (fun p hp => hother p hp.2.1) (fun p hp => hkeep p ?_) ?_ hnone nofun trivial
  · rcases hp with hp | rfl
    · exact hp.2.1
    · nofun
  · rw [hother (.hand t) nofun, hb]
    exact ⟨b, rfl, hout, hserves.congr ((hkeep (.hand t) nofun).chunks b (hb ▸ mem_cons_self))⟩

/-! ### Blocks come back to a list -/

theorem Sound.head_lt (h : s.Sound f) (hlinked : s.Linked q v (f p)) : v < 2 ^ 64 := by
  by_cases hv : v = 0
  · omega
  · obtain ⟨b, l, hl, rfl, -, -⟩ := hlinked.pop hv
    have hpos := h.stored.addr_pos (hl ▸ mem_cons_self : b ∈ f p)
    omega

theorem Sound.linked_push (h : s.Sound f) (hb : b ∈ f p) (hp : p' ≠ p) (hfits : q.size ≤ b.size)
    (hlinked : s.Linked q v (f p')) :
    MMHeap.Linked ⟨s.memory.storeWord b.addr v, s.chunks⟩ q b.addr (b :: f p') := by
  have hpos := (h.stored.addr_pos hb).1
  exact (hlinked.congr (h.keeps_store hb hp)).push hfits (by omega)
    (link_storeWord _ _ (h.head_lt hlinked))

/-- The blocks of one list are put in front of those of another. -/
theorem Sound.linked_splice {last : Block} {first prev : Nat} (h : s.Sound f)
    (hlinked : s.Linked q first (f p)) (hlast : last ∈ (f p).getLast?) (hp : p' ≠ p)
    (hlinked' : s.Linked q prev (f p')) :
    MMHeap.Linked ⟨s.memory.storeWord last.addr prev, s.chunks⟩ q first (f p ++ f p') := by
  obtain ⟨l, hl⟩ := List.getLast?_eq_some_iff.mp hlast
  have hwithin := pairwise_append.mp (hl ▸ h.stored.apart.within p)
  have hchain := hlinked.chain
  rw [hl, map_append] at hchain
  refine ⟨fun b hb => (mem_append.mp hb).elim (hlinked.fits b) (hlinked'.fits b), ?_⟩
  rw [hl, map_append, map_append, append_assoc]
  -- the last block is apart from all others
  have hother : ∀ b ∈ l ++ f p', 8 ≤ b.size ∧ b.Apart last := by
    intro b hb
    rcases mem_append.mp hb with hb | hb
    · have hbp : b ∈ f p := hl ▸ mem_append_left _ hb
      exact ⟨(h.stored.inside p b hbp).1, hwithin.2.2 b hb last (mem_singleton_self _)⟩
    · exact ⟨(h.stored.inside p' b hb).1,
        h.stored.apart_of_ne hp hb (mem_of_getLast? hlast)⟩
  have hsize := (h.stored.inside p last (mem_of_getLast? hlast)).1
  refine chain_storeWord hchain hlinked'.chain (h.head_lt hlinked') fun c hc => ?_
  obtain ⟨b, hb, rfl⟩ := mem_map.mp ((map_append (f := Block.addr)).symm ▸ hc :
    c ∈ (l ++ f p').map Block.addr)
  obtain ⟨hlarge, hapart⟩ := hother b hb
  unfold Block.Apart at hapart
  omega

/-- The remainder goes to a list. -/
theorem Sound.unlockRemain {rest : Block} {prev out : Nat} (h : s.Sound f)
    (hpc : (s.threads t).pc = .remainLocked size_ q rest prev out) :
    Advances s (s.i_unlockTo t q rest.addr rest.addr prev
      fun s => s.goto t (.has_out size_ out)) f := by
  have ht : (s.threads t).pc.holds = some (q, prev) := hpc ▸ rfl
  obtain ⟨hchunk, hfits⟩ := h.chunk hpc
  have hhand := h.hand hpc
  have hmem : rest ∈ f (.chunk t) := hchunk ▸ mem_cons_self
  obtain ⟨f', hstored, hnone, hlist, hother⟩ := h.stored.exists_move (i := .chunk t)
    (j := .list q) (l := [rest]) nofun (List.Perm.of_eq hchunk)
  rw [i_unlockTo, h.store_eq hmem, map_some, settle_some]
  refine h.unlock (i := none) ht (.inl rfl) rfl rfl rfl hstored
    (fun p hp => hother p hp.2.1 fun hc => hp.2.2.2 (hc ▸ rfl))
    (fun p hp => h.keeps_store hmem ?_) ?_ hnone nofun ?_ trivial
  · rcases hp with hp | rfl
    · exact hp.2.1
    · nofun
  · rw [hother (.hand t) nofun nofun]
    exact HandAt.congr hhand (h.keeps_store hmem nofun)
  · rw [hlist]
    exact h.linked_push hmem nofun hfits (h.linked ht)

/-! ### Blocks come to the program and back -/

theorem exists_held {ms : List Pointer} {m : Pointer} (h : List.Forall₂ s.Held ms l)
    (hm : m ∈ ms) : ∃ b ∈ l, s.Held m b := by
  obtain ⟨i, hi, rfl⟩ := getElem_of_mem hm
  have hi' : i < l.length := h.length_eq ▸ hi
  exact ⟨l[i], getElem_mem hi', (List.forall₂_iff_get.mp h).2 i hi hi'⟩

/-- A block that has got its size comes to the program. -/
theorem Sound.return_out {out : Nat} (h : s.Sound f)
    (hpc : (s.threads t).pc = .has_out size_ out) : Advances s (s.hasOut t size_ out) f := by
  obtain ⟨b, hb, rfl, hserves⟩ := h.hand hpc
  have hchunk := h.chunk hpc
  have hmem : b ∈ f (.hand t) := hb ▸ mem_cons_self
  have hkeep : ∀ p, p ≠ .hand t → Keeps s.toMMHeap
      ⟨s.memory.storeWord b.addr size_.toNat, s.chunks⟩ (f p) := fun p => h.keeps_store hmem
  obtain ⟨f', hstored, hhand, hlive, hother⟩ := h.stored.exists_move (i := .hand t) (j := .live)
    (l := [b]) nofun (List.Perm.of_eq hb)
  rw [hasOut, h.store_eq hmem, map_some, settle_some]
  change Advances s (MMSystem.goto ⟨⟨s.memory.storeWord b.addr size_.toNat, s.chunks⟩, s.queue,
    s.threads, (b.addr + 8, size_) :: s.live⟩ t .outside) f
  refine h.proceed (i := some .live) (.inl rfl) (.inr ⟨rfl, _, rfl⟩) rfl (hpc ▸ rfl) hstored
    (fun p hp => hother p hp.1 fun hc => hp.2.2.1 (hc ▸ rfl)) (fun p hp => hkeep p ?_) hhand ?_ ?_
    trivial
  · rcases hp with hp | rfl
    · exact hp.1
    · nofun
  · rw [hother (.chunk t) nofun nofun]
    exact hchunk
  · rintro p hp
    obtain rfl := Option.some.inj hp
    rw [hlive]
    refine .cons ⟨rfl, loadWord_storeWord _ _ size_.toNat_lt, hserves.congr fun _ hc _ => hc⟩ ?_
    exact forall₂_held (h.holds .live) (fun b hb => (hkeep .live nofun).agree_word hb)
      (hkeep .live nofun).chunks

/-- A large block is given back. -/
theorem Sound.freeLarge {m : Nat} {c : Block} (h : s.Sound f)
    (hpc : (s.threads t).pc = .impl_free m) (hc : c ∈ s.chunks) (hb : f (.hand t) = [c.usable]) :
    Advances s (s.settle t ((s.release c.addr).map fun s => s.goto t .outside)) f := by
  have hchunk := h.chunk hpc
  have hrelease : s.release c.addr = some { s with chunks := s.chunks.filter (·.addr ≠ c.addr) } :=
    if_pos ⟨c, hc, rfl⟩
  obtain ⟨f', hstored, hnone, hother⟩ := h.stored.exists_release hc hb
  rw [hrelease, map_some, settle_some]
  refine h.proceed (i := none) (.inl rfl) (.inl rfl) rfl (hpc ▸ rfl) hstored
    (fun p hp => hother p hp.1)
    (fun p hp => h.keeps_release hc (hb ▸ mem_cons_self : c.usable ∈ f (.hand t)) ?_) hnone ?_
    nofun trivial
  · rcases hp with hp | rfl
    · exact hp.1
    · nofun
  · rw [hother (.chunk t) nofun]
    exact hchunk

/-- A block goes to the thread's own list. -/
theorem Sound.pushCache {m : Nat} (h : s.Sound f) (hpc : (s.threads t).pc = .impl_free m)
    (hb : f (.hand t) = [b]) (hfits : q.size ≤ b.size) :
    Advances s (s.settle t ((s.store b.addr ((s.threads t).thr_queue q).1).map fun s' =>
      (s'.setThrQueue t q (b.addr, if ((s.threads t).thr_queue q).1 = 0 then b.addr else
        ((s.threads t).thr_queue q).2)).goto t .outside)) f := by
  have hchunk := h.chunk hpc
  have hmem : b ∈ f (.hand t) := hb ▸ mem_cons_self
  obtain ⟨hlinked, hlast⟩ := h.holds (.cache t q)
  obtain ⟨f', hstored, hnone, hcache, hother⟩ := h.stored.exists_move (i := .hand t)
    (j := .cache t q) (l := [b]) nofun (List.Perm.of_eq hb)
  rw [h.store_eq hmem, map_some, settle_some]
  refine h.proceed (i := some (.cache t q)) (.inr ⟨q, _, rfl, rfl⟩) (.inl rfl) rfl (hpc ▸ rfl)
    hstored (fun p hp => hother p hp.1 fun hc => hp.2.2.1 (hc ▸ rfl))
    (fun p hp => h.keeps_store hmem ?_) hnone ?_ ?_ trivial
  · rcases hp with hp | rfl
    · exact hp.1
    · nofun
  · rw [hother (.chunk t) nofun nofun]
    exact hchunk
  · rintro p hp
    obtain rfl := Option.some.inj hp
    rw [hcache, At, goto_thr_queue, setThrQueue_self]
    refine ⟨h.linked_push hmem (by simp) hfits hlinked, fun c hc => ?_⟩
    by_cases hzero : ((s.threads t).thr_queue q).1 = 0
    · rw [hzero] at hlinked
      rw [hlinked.nil] at hc
      obtain rfl : b = c := Option.some.inj hc
      exact (if_pos hzero).symm
    · obtain ⟨d, l, hl, -, -, -⟩ := hlinked.pop hzero
      rw [if_neg hzero]
      rw [hl] at hc
      exact hlast c (hl ▸ hc)

/-- A block goes to the list of the instance. -/
theorem Sound.unlockFree {m prev : Nat} (h : s.Sound f)
    (hpc : (s.threads t).pc = .freeLocked m q prev) :
    Advances s (s.i_unlockTo t q (m - 8) (m - 8) prev fun s => s.goto t .outside) f := by
  have ht : (s.threads t).pc.holds = some (q, prev) := hpc ▸ rfl
  obtain ⟨b, hb, haddr, hfits⟩ := h.hand hpc
  have hchunk := h.chunk hpc
  have hmem : b ∈ f (.hand t) := hb ▸ mem_cons_self
  obtain ⟨f', hstored, hnone, hlist, hother⟩ := h.stored.exists_move (i := .hand t)
    (j := .list q) (l := [b]) nofun (List.Perm.of_eq hb)
  rw [i_unlockTo, ← haddr, h.store_eq hmem, map_some, settle_some]
  refine h.unlock (i := none) ht (.inl rfl) rfl rfl rfl hstored
    (fun p hp => hother p hp.1 fun hc => hp.2.2.2 (hc ▸ rfl))
    (fun p hp => h.keeps_store hmem ?_) hnone ?_ nofun ?_ trivial
  · rcases hp with hp | rfl
    · exact hp.1
    · nofun
  · rw [hother (.chunk t) nofun nofun]
    exact hchunk
  · rw [hlist]
    exact h.linked_push hmem nofun hfits (h.linked ht)

/-- All blocks of a thread's own list go to the list of the instance. -/
theorem Sound.unlockFlush {prev : Nat} {qs : List FreeList} (h : s.Sound f)
    (hpc : (s.threads t).pc = .closingLocked q prev qs) :
    let queue := (s.threads t).thr_queue q
    Advances s (s.i_unlockTo t q queue.1 queue.2 prev
      fun s' => (s'.setThrQueue t q (0, queue.2)).goto t (.closing qs)) f := by
  intro queue
  have ht : (s.threads t).pc.holds = some (q, prev) := hpc ▸ rfl
  obtain ⟨hne, hbefore⟩ := h.asked hpc
  have hhand := h.hand hpc
  have hchunk := h.chunk hpc
  obtain ⟨hlinked, hlast⟩ := h.holds (.cache t q)
  obtain ⟨b, l, hl, -, -, -⟩ := hlinked.pop hne
  have hlast_mem : (b :: l).getLast (cons_ne_nil b l) ∈ (f (.cache t q)).getLast? := by
    rw [hl]
    exact List.getLast?_eq_some_getLast (cons_ne_nil b l)
  generalize (b :: l).getLast (cons_ne_nil b l) = last at hlast_mem
  have hmem : last ∈ f (.cache t q) := mem_of_getLast? hlast_mem
  obtain ⟨f', hstored, hcache, hlist, hother⟩ := h.stored.exists_move (i := .cache t q)
    (j := .list q) nofun (List.Perm.of_eq (append_nil (f (.cache t q))).symm)
  rw [i_unlockTo, ← hlast last hlast_mem, h.store_eq hmem, map_some, settle_some]
  have hkeep : ∀ p, p ≠ .cache t q → Keeps s.toMMHeap
      ⟨s.memory.storeWord last.addr prev, s.chunks⟩ (f p) := fun p => h.keeps_store hmem
  refine h.unlock (i := some (.cache t q)) ht (.inr ⟨q, _, rfl, rfl⟩) rfl rfl rfl hstored
    (fun p hp => hother p (fun hc => hp.2.2.1 (hc ▸ rfl)) fun hc => hp.2.2.2 (hc ▸ rfl))
    (fun p hp => hkeep p ?_) ?_ ?_ ?_ ?_ ?_
  · rcases hp with hp | rfl
    · exact fun hc => hp.2.2.1 (hc ▸ rfl)
    · nofun
  · rw [hother (.hand t) nofun nofun]
    exact hhand
  · rw [hother (.chunk t) nofun nofun]
    exact hchunk
  · rintro p hp
    obtain rfl := Option.some.inj hp
    rw [hcache, At, goto_thr_queue, setThrQueue_self]
    exact ⟨⟨by simp, rfl⟩, by simp⟩
  · rw [hlist]
    exact h.linked_splice hlinked hlast_mem (by simp) (h.linked ht)
  · intro q' hq'
    by_cases hqq : q' = q
    · rw [hqq, setThrQueue_self]
    · rw [setThrQueue_of_ne hqq]
      exact hbefore q' fun hmem => (mem_cons.mp hmem).elim hqq hq'

end MMSystem

end Drt
