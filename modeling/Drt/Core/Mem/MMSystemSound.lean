import Drt.Core.Mem.MMSystem

/-!
# Where the blocks are

Every octet of a chunk is in one block, and every block is at one place: it is live, on a list of
the instance or of a thread, or in the hands of a thread. What the memory holds at the blocks of a
place is said for each place by itself, so that a step has to be looked at only for the places that
it touches.
-/

open List Function

namespace Drt

theorem FreeList.size_ge : ∀ q : FreeList, 8 ≤ q.size := by decide

namespace Block

/-- One of the blocks is behind the other. -/
def Apart (b c : Block) : Prop := b.addr + b.size ≤ c.addr ∨ c.addr + c.size ≤ b.addr

theorem Apart.symm {b c : Block} (h : b.Apart c) : c.Apart b := Or.symm h

/-- The block is a part of the other one. -/
def Within (b c : Block) : Prop := c.addr ≤ b.addr ∧ b.addr + b.size ≤ c.addr + c.size

/-- The address is in the block. -/
def Has (b : Block) (x : Nat) : Prop := b.addr ≤ x ∧ x < b.addr + b.size

/-- What is used of a chunk. -/
def usable (c : Block) : Block := ⟨c.addr + 8, c.size - 8⟩

theorem Within.trans {a b c : Block} (h : a.Within b) (h' : b.Within c) : a.Within c :=
  ⟨h'.1.trans h.1, h.2.trans h'.2⟩

theorem Within.apart {a b c : Block} (h : a.Within b) (hbc : b.Apart c) : a.Apart c := by
  unfold Within at h
  unfold Apart at hbc ⊢
  omega

end Block

/-- Where a block may be. -/
inductive MMPlace where
  | live
  | list (q : FreeList)
  | cache (t : Nat) (q : FreeList)
  /-- The block that a thread has got, or frees. -/
  | hand (t : Nat)
  /-- The chunk that a thread has cut, or the remainder of it. -/
  | chunk (t : Nat)
  deriving DecidableEq, Repr

/-- Blocks at places. -/
abbrev Blocks := MMPlace → List Block

/-- A block has room for a link, and is a part of a chunk. -/
def Block.Inside (chunks : List Block) (b : Block) : Prop :=
  8 ≤ b.size ∧ ∃ c ∈ chunks, b.Within c.usable

/-- The blocks are parts of the chunks, apart from one another, and nothing is left out. -/
structure Stored (chunks : List Block) (f : Blocks) : Prop where
  apart : Apart Block.Apart f
  inside : ∀ p, ∀ b ∈ f p, b.Inside chunks
  chunks_apart : chunks.Pairwise Block.Apart
  chunk : ∀ c ∈ chunks, 0 < c.addr ∧ 16 ≤ c.size ∧ c.addr + c.size ≤ 2 ^ 63
  covered : ∀ c ∈ chunks, ∀ x, c.usable.Has x → ∃ p, ∃ b ∈ f p, b.Has x

namespace Stored

variable {chunks : List Block} {f : Blocks} {i j : MMPlace} {l l' rest new : List Block}
  {b c : Block}

theorem apart_of_ne (h : Stored chunks f) (hij : i ≠ j) (hb : b ∈ f i) (hc : c ∈ f j) :
    b.Apart c :=
  h.apart.across i j hij b hb c hc

theorem addr_pos (h : Stored chunks f) (hb : b ∈ f i) : 8 < b.addr ∧ b.addr + b.size ≤ 2 ^ 63 := by
  obtain ⟨hsize, c, hc, hwithin⟩ := h.inside i b hb
  obtain ⟨hpos, hlarge, hfin⟩ := h.chunk c hc
  unfold Block.Within Block.usable at hwithin
  dsimp only at hwithin
  omega

theorem chunks_apart_of_ne (h : Stored chunks f) {d : Block} (hc : c ∈ chunks) (hd : d ∈ chunks)
    (hne : c ≠ d) : c.Apart d := by
  have : Std.Symm Block.Apart := ⟨fun _ _ => Block.Apart.symm⟩
  exact h.chunks_apart.forall hc hd hne

/-- Blocks go from one place to another, and may be divided on the way. -/
theorem exists_divide (h : Stored chunks f) (hij : i ≠ j) (hi : (f i).Perm (l ++ rest))
    (hl' : l'.Pairwise Block.Apart) (hparts : ∀ b ∈ l', 8 ≤ b.size ∧ ∃ a ∈ l, b.Within a)
    (hcover : ∀ a ∈ l, ∀ x, a.Has x → ∃ b ∈ l', b.Has x) :
    ∃ f', Stored chunks f' ∧ f' i = rest ∧ f' j = l' ++ f j ∧
      ∀ p, p ≠ i → p ≠ j → f' p = f p := by
  have hmem : ∀ a ∈ l, a ∈ f i := fun a ha => hi.mem_iff.mpr (mem_append_left rest ha)
  have hat_i : update (update f i rest) j (l' ++ f j) i = rest := by
    rw [update_of_ne hij, update_self]
  have hat_j : update (update f i rest) j (l' ++ f j) j = l' ++ f j :=
    update_self ..
  have hother : ∀ p, p ≠ i → p ≠ j →
      update (update f i rest) j (l' ++ f j) p = f p := by
    intro p hpi hpj
    rw [update_of_ne hpj, update_of_ne hpi]
  refine ⟨_, ⟨?_, ?_, h.chunks_apart, h.chunk, ?_⟩, hat_i, hat_j, hother⟩
  · refine h.apart.move Block.Apart.symm hij hi hl' ?_ (List.Perm.refl _)
    intro y hy b hb
    obtain ⟨-, a, ha, hwithin⟩ := hparts b hb
    exact hwithin.apart (hy a ha)
  · intro p b hb
    by_cases hpj : p = j
    · subst hpj
      rw [hat_j] at hb
      rcases mem_append.mp hb with hb | hb
      · obtain ⟨hsize, a, ha, hwithin⟩ := hparts b hb
        obtain ⟨-, c, hc, hac⟩ := h.inside i a (hmem a ha)
        exact ⟨hsize, c, hc, hwithin.trans hac⟩
      · exact h.inside p b hb
    · by_cases hpi : p = i
      · subst hpi
        rw [hat_i] at hb
        exact h.inside p b (hi.mem_iff.mpr (mem_append_right l hb))
      · rw [hother p hpi hpj] at hb
        exact h.inside p b hb
  · intro c hc x hx
    obtain ⟨p, b, hb, hbx⟩ := h.covered c hc x hx
    by_cases hpj : p = j
    · subst hpj
      exact ⟨p, b, hat_j.symm ▸ mem_append_right _ hb, hbx⟩
    · by_cases hpi : p = i
      · subst hpi
        rcases mem_append.mp (hi.mem_iff.mp hb) with hb | hb
        · obtain ⟨b', hb', hbx'⟩ := hcover b hb x hbx
          exact ⟨j, b', hat_j.symm ▸ mem_append_left _ hb', hbx'⟩
        · exact ⟨p, b, hat_i.symm ▸ hb, hbx⟩
      · exact ⟨p, b, (hother p hpi hpj).symm ▸ hb, hbx⟩

theorem exists_move (h : Stored chunks f) (hij : i ≠ j) (hi : (f i).Perm (l ++ rest)) :
    ∃ f', Stored chunks f' ∧ f' i = rest ∧ f' j = l ++ f j ∧
      ∀ p, p ≠ i → p ≠ j → f' p = f p := by
  have hmem : ∀ a ∈ l, a ∈ f i := fun a ha => hi.mem_iff.mpr (mem_append_left rest ha)
  have hboth := (hi.pairwise_iff Block.Apart.symm).mp (h.apart.within i)
  exact h.exists_divide hij hi (pairwise_append.mp hboth).1
    (fun b hb => ⟨(h.inside i b (hmem b hb)).1, b, hb, Nat.le_refl _, Nat.le_refl _⟩)
    (fun a ha x hx => ⟨a, ha, hx⟩)

/-- A new chunk, which is one block. -/
theorem exists_obtain (h : Stored chunks f) (i : MMPlace) (hpos : 0 < c.addr) (hlarge : 16 ≤ c.size)
    (hfin : c.addr + c.size ≤ 2 ^ 63) (hnew : ∀ d ∈ chunks, c.Apart d) :
    ∃ f', Stored (c :: chunks) f' ∧ f' i = c.usable :: f i ∧ ∀ p, p ≠ i → f' p = f p := by
  have hothers : ∀ k, ∀ b ∈ f k, c.usable.Apart b := by
    intro k b hb
    obtain ⟨-, d, hd, hwithin⟩ := h.inside k b hb
    have hapart := hnew d hd
    have hsize := (h.chunk d hd).2.1
    unfold Block.Apart Block.usable at *
    unfold Block.Within at hwithin
    dsimp only at *
    omega
  have hold : ∀ b : Block, b.Inside chunks → b.Inside (c :: chunks) :=
    fun b ⟨hsize, d, hd, hwithin⟩ => ⟨hsize, d, mem_cons_of_mem c hd, hwithin⟩
  refine ⟨update f i (c.usable :: f i), ⟨?_, ?_, ?_, ?_, ?_⟩, update_self ..,
    fun _ hp => update_of_ne hp _ _⟩
  · refine h.apart.bring (l := [c.usable]) Block.Apart.symm (pairwise_singleton _ _) ?_
      (List.Perm.refl _)
    intro b hb k y hy
    obtain rfl := mem_singleton.mp hb
    exact hothers k y hy
  · refine forall_mem_update (P := fun _ (b : Block) => b.Inside (c :: chunks))
      (fun k _ b hb => hold b (h.inside k b hb)) ?_
    refine forall_mem_cons.mpr ⟨?_, fun b hb => hold b (h.inside i b hb)⟩
    refine ⟨?_, c, mem_cons_self, Nat.le_refl _, Nat.le_refl _⟩
    change 8 ≤ c.size - 8
    omega
  · exact pairwise_cons.mpr ⟨hnew, h.chunks_apart⟩
  · exact forall_mem_cons.mpr ⟨⟨hpos, hlarge, hfin⟩, h.chunk⟩
  · intro d hd x hx
    rcases mem_cons.mp hd with rfl | hd
    · refine ⟨i, d.usable, ?_, hx⟩
      rw [update_self]
      exact mem_cons_self
    · obtain ⟨p, b, hb, hbx⟩ := h.covered d hd x hx
      refine ⟨p, b, ?_, hbx⟩
      by_cases hp : p = i
      · subst hp
        rw [update_self]
        exact mem_cons_of_mem _ hb
      · rwa [update_of_ne hp]

theorem mem_filter_addr (h : Stored chunks f) (hc : c ∈ chunks) {d : Block} :
    d ∈ chunks.filter (·.addr ≠ c.addr) ↔ d ∈ chunks ∧ d ≠ c := by
  rw [mem_filter, decide_eq_true_iff]
  refine and_congr_right fun hd => not_congr ⟨fun haddr => ?_, fun heq => heq ▸ rfl⟩
  by_contra hne
  have hapart := h.chunks_apart_of_ne hd hc hne
  have hsize := (h.chunk d hd).2.1
  have hsize' := (h.chunk c hc).2.1
  unfold Block.Apart at hapart
  omega

/-- A chunk that is one block is given back. -/
theorem exists_release (h : Stored chunks f) (hc : c ∈ chunks) (hi : f i = [c.usable]) :
    ∃ f', Stored (chunks.filter (·.addr ≠ c.addr)) f' ∧ f' i = [] ∧ ∀ p, p ≠ i → f' p = f p := by
  have hwhole : c.usable ∈ f i := hi ▸ mem_singleton_self _
  refine ⟨update f i [], ⟨?_, ?_, ?_, ?_, ?_⟩, update_self ..,
    fun _ hp => update_of_ne hp _ _⟩
  · exact h.apart.drop (l := [c.usable]) Block.Apart.symm (List.Perm.of_eq hi)
  · refine forall_mem_update
      (P := fun _ (b : Block) => b.Inside (chunks.filter (·.addr ≠ c.addr))) ?_ nofun
    intro k hk b hb
    obtain ⟨hsize, d, hd, hwithin⟩ := h.inside k b hb
    refine ⟨hsize, d, (h.mem_filter_addr hc).mpr ⟨hd, ?_⟩, hwithin⟩
    -- a block that is apart from it is not in this chunk
    rintro rfl
    have hapart := h.apart_of_ne (Ne.symm hk) hwhole hb
    unfold Block.Apart at hapart
    unfold Block.Within at hwithin
    omega
  · exact h.chunks_apart.filter _
  · exact fun d hd => h.chunk d (mem_of_mem_filter hd)
  · intro d hd x hx
    obtain ⟨hd, hne⟩ := (h.mem_filter_addr hc).mp hd
    obtain ⟨p, b, hb, hbx⟩ := h.covered d hd x hx
    refine ⟨p, b, ?_, hbx⟩
    by_cases hp : p = i
    · subst hp
      rw [hi] at hb
      obtain rfl := mem_singleton.mp hb
      have hapart := h.chunks_apart_of_ne hd hc hne
      have hsize := (h.chunk c hc).2.1
      have hsize' := (h.chunk d hd).2.1
      unfold Block.Apart at hapart
      unfold Block.Has Block.usable at hx hbx
      dsimp only at hx hbx
      omega
    · rwa [update_of_ne hp]

end Stored

/-! ### What the memory holds -/

/-- A size that does not wrap. -/
def Proper (size_ : UInt64) : Prop := size_.toNat + 24 < 2 ^ 64

/-- The list is that of the size. -/
def SmallFor (q : FreeList) (size_ : UInt64) : Prop :=
  size_ + 8 ≤ 1024 ∧ q = freeList (size_ + 8)

/-- The list that a thread has locked, with the block that was first. -/
def MMPc.holds : MMPc → Option (FreeList × Nat)
  | locked _ q _ out => some (q, out)
  | remainLocked _ q _ prev _ => some (q, prev)
  | freeLocked _ q prev => some (q, prev)
  | closingLocked q prev _ => some (q, prev)
  | _ => none

namespace MMHeap

variable {g g' : MMHeap} {l : List Block} {b : Block} {size_ : UInt64} {m : Pointer} {q : FreeList}
  {v : Nat} {pc : MMPc}

/-- Free blocks that are large enough for their list, linked from the first one to the last. -/
structure Linked (g : MMHeap) (q : FreeList) (v : Nat) (l : List Block) : Prop where
  fits : ∀ b ∈ l, q.size ≤ b.size
  chain : Chain g.memory.link (Memory.pointer v) (l.map Block.addr)

/-- The block is large enough for a size, and goes back to where it belongs. -/
structure Serves (g : MMHeap) (size_ : UInt64) (b : Block) : Prop where
  room : size_.toNat + 8 ≤ b.size
  small : size_ + 8 ≤ 1024 → (freeList (size_ + 8)).size ≤ b.size
  large : 1024 < size_ + 8 → ∃ c ∈ g.chunks, b = c.usable

/-- The block behind a pointer of the program, with the size in front. -/
structure Held (g : MMHeap) (m : Pointer) (b : Block) : Prop where
  addr : b.addr + 8 = m.1
  size_ : g.memory.loadWord b.addr = m.2.toNat
  serves : g.Serves m.2 b

/-- A chunk that has been cut for a list, before anybody else sees it. -/
structure Cut (g : MMHeap) (q : FreeList) (add : Nat) (r : Block) : Prop where
  mem : ⟨add, q.alloc⟩ ∈ g.chunks
  chain : Chain g.memory.link (some (add + 8))
    ((carve q (add + 8) (add + q.alloc)).1.map (·.val.addr))
  remain : r = (carve q (add + 8) (add + q.alloc)).2

/-- The block that a thread has got, or frees. -/
def HandAt (g : MMHeap) (pc : MMPc) (l : List Block) : Prop :=
  match pc with
  | .giveBack size_ _ _ out | .remain size_ _ out | .remainLocked size_ _ _ _ out
  | .has_out size_ out => ∃ b, l = [b] ∧ b.addr = out ∧ g.Serves size_ b
  | .impl_free m => ∃ b size_, l = [b] ∧ g.Held (m, size_) b
  | .freeLocked m q _ => ∃ b, l = [b] ∧ b.addr = m - 8 ∧ q.size ≤ b.size
  | _ => l = []

/-- A new chunk, or what is left of it. -/
def ChunkAt (g : MMHeap) (pc : MMPc) (l : List Block) : Prop :=
  match pc with
  | .lock _ q (some (add, r)) | .locked _ q (some (add, r)) _ =>
    l = [⟨add + 8, q.alloc - 8⟩] ∧ g.Cut q add r
  | .giveBack _ q add _ => l = [⟨add + 8, q.alloc - 8⟩] ∧ ⟨add, q.alloc⟩ ∈ g.chunks
  | .remain _ r _ => l = (if r.size = 0 then [] else [r]) ∧
    (r.size = 0 ∨ ∃ q, remainList r.size = some q ∧ q.size ≤ r.size)
  | .remainLocked _ q r _ _ => l = [r] ∧ q.size ≤ r.size
  | _ => l = []

/-- Blocks that keep their octets and their chunks. -/
structure Keeps (g g' : MMHeap) (l : List Block) : Prop where
  size : ∀ b ∈ l, 8 ≤ b.size
  agree : ∀ b ∈ l, Memory.Agree g.memory g'.memory b.addr b.size
  chunks : ∀ b ∈ l, ∀ c ∈ g.chunks, b.Within c.usable → c ∈ g'.chunks

theorem Keeps.agree_word (h : Keeps g g' l) (hb : b ∈ l) :
    Memory.Agree g.memory g'.memory b.addr 8 :=
  (h.agree b hb).mono (Nat.le_refl _) (Nat.add_le_add_left (h.size b hb) _)

theorem Serves.congr (h : g.Serves size_ b)
    (hchunks : ∀ c ∈ g.chunks, b.Within c.usable → c ∈ g'.chunks) : g'.Serves size_ b := by
  refine ⟨h.room, h.small, fun hlarge => ?_⟩
  obtain ⟨c, hc, rfl⟩ := h.large hlarge
  exact ⟨c, hchunks c hc ⟨Nat.le_refl _, Nat.le_refl _⟩, rfl⟩

theorem Held.congr (h : g.Held m b) (hmem : Memory.Agree g.memory g'.memory b.addr 8)
    (hchunks : ∀ c ∈ g.chunks, b.Within c.usable → c ∈ g'.chunks) : g'.Held m b := by
  refine ⟨h.addr, ?_, h.serves.congr hchunks⟩
  rw [hmem.loadWord_eq]
  exact h.size_

theorem forall₂_held {ms : List Pointer} (hheld : List.Forall₂ g.Held ms l)
    (hmem : ∀ b ∈ l, Memory.Agree g.memory g'.memory b.addr 8)
    (hchunks : ∀ b ∈ l, ∀ c ∈ g.chunks, b.Within c.usable → c ∈ g'.chunks) :
    List.Forall₂ g'.Held ms l := by
  induction hheld with
  | nil => exact .nil
  | cons hmb _ ih =>
    obtain ⟨hfirst, hmem⟩ := forall_mem_cons.mp hmem
    obtain ⟨hfirst', hchunks⟩ := forall_mem_cons.mp hchunks
    exact .cons (hmb.congr hfirst hfirst') (ih hmem hchunks)

theorem Linked.congr (h : g.Linked q v l) (hkeep : Keeps g g' l) : g'.Linked q v l := by
  refine ⟨h.fits, Memory.chain_congr h.chain fun a ha => ?_⟩
  obtain ⟨b, hb, rfl⟩ := mem_map.mp ha
  exact hkeep.agree_word hb

theorem HandAt.congr (h : g.HandAt pc l) (hkeep : Keeps g g' l) : g'.HandAt pc l := by
  have hblock : ∀ w out, (∃ b, l = [b] ∧ b.addr = out ∧ g.Serves w b) →
      ∃ b, l = [b] ∧ b.addr = out ∧ g'.Serves w b := by
    rintro w out ⟨b, rfl, hout, hserves⟩
    exact ⟨b, rfl, hout, hserves.congr (hkeep.chunks b mem_cons_self)⟩
  unfold HandAt at h ⊢
  split at h
  · exact hblock _ _ h
  · exact hblock _ _ h
  · exact hblock _ _ h
  · exact hblock _ _ h
  · obtain ⟨b, size_, rfl, hheld⟩ := h
    exact ⟨b, size_, rfl, hheld.congr (hkeep.agree_word mem_cons_self)
      (hkeep.chunks b mem_cons_self)⟩
  · exact h
  · exact h

/-- The cells of a chunk that has been cut are in it. -/
theorem Cut.congr {add : Nat} {r : Block} (h : g.Cut q add r)
    (hkeep : Keeps g g' [⟨add + 8, q.alloc - 8⟩]) : g'.Cut q add r := by
  have hmem := hkeep.agree _ mem_cons_self
  have halloc := q.size_add_le_alloc
  have hroom : add + 8 ≤ add + q.alloc := by omega
  obtain ⟨hinside, -, -, hfin⟩ := carve_apart q hroom
  refine ⟨hkeep.chunks _ mem_cons_self _ h.mem ⟨Nat.le_refl _, Nat.le_refl _⟩, ?_, h.remain⟩
  refine Memory.chain_congr h.chain fun a ha => ?_
  obtain ⟨b, hb, rfl⟩ := mem_map.mp ha
  obtain ⟨hle, hend⟩ := hinside b hb
  have hsize := q.size_ge
  have hfits := b.property.1
  exact hmem.mono hle (by dsimp only; omega)

theorem ChunkAt.congr (h : g.ChunkAt pc l) (hkeep : Keeps g g' l) : g'.ChunkAt pc l := by
  unfold ChunkAt at h ⊢
  split at h
  · obtain ⟨rfl, hcut⟩ := h
    exact ⟨rfl, hcut.congr hkeep⟩
  · obtain ⟨rfl, hcut⟩ := h
    exact ⟨rfl, hcut.congr hkeep⟩
  · obtain ⟨rfl, hmem⟩ := h
    exact ⟨rfl, hkeep.chunks _ mem_cons_self _ hmem ⟨Nat.le_refl _, Nat.le_refl _⟩⟩
  · exact h
  · exact h
  · exact h

end MMHeap

namespace MMSystem

open MMHeap

variable {s s' : MMSystem} {t : Nat} {f : Blocks} {p : MMPlace} {l : List Block} {b : Block}

/-- What the threads have locked. -/
def taken (s : MMSystem) : Nat → Option (FreeList × Nat) := fun t => (s.threads t).pc.holds

/-- The list starts with this block; nobody else sees it while the list is locked. -/
def Heads (s : MMSystem) : FreeList → Nat → Prop := Locks.Value s.queue s.taken

/-- What is known of the blocks at a place. -/
def At (s : MMSystem) : MMPlace → List Block → Prop
  | .live, l => List.Forall₂ s.Held s.live l
  | .list q, l => (∀ b ∈ l, q.size ≤ b.size) ∧ ∀ v, s.Heads q v → s.Linked q v l
  | .cache t q, l => s.Linked q ((s.threads t).thr_queue q).1 l ∧
      ∀ b ∈ l.getLast?, b.addr = ((s.threads t).thr_queue q).2
  | .hand t, l => s.HandAt (s.threads t).pc l
  | .chunk t, l => s.ChunkAt (s.threads t).pc l

/-- What a thread knows of the request that it works on, and of its own lists while it ends: it has
locked a list for blocks that it has, and has none for the lists before that. -/
def Asks (thr_queue : FreeList → Nat × Nat) : MMPc → Prop
  | .large size_ => Proper size_ ∧ 1024 < size_ + 8
  | .look size_ q | .go_alloc size_ q | .lock size_ q _ | .locked size_ q _ _ =>
    Proper size_ ∧ SmallFor q size_
  | .impl_alloc size_ => Proper size_
  | .closing qs => ∀ q, q ∉ qs → (thr_queue q).1 = 0
  | .closingLocked q _ qs =>
    (thr_queue q).1 ≠ 0 ∧ ∀ q', q' ∉ q :: qs → (thr_queue q').1 = 0
  | .fault => False
  | _ => True

/-- The blocks are where they have to be. -/
structure Sound (s : MMSystem) (f : Blocks) : Prop where
  stored : Stored s.chunks f
  holds : ∀ p, s.At p (f p)
  locks : Locks s.queue s.taken
  asks : ∀ t, Asks (s.threads t).thr_queue (s.threads t).pc

/-- What decides on the blocks of a place is the same. -/
def SameAt (s s' : MMSystem) : MMPlace → Prop
  | .live => s'.live = s.live
  | .list q => ∀ v, s'.Heads q v → s.Heads q v
  | .cache t q => (s'.threads t).thr_queue q = (s.threads t).thr_queue q
  | .hand t | .chunk t => (s'.threads t).pc = (s.threads t).pc

theorem At.congr (h : s.At p l) (hsame : SameAt s s' p)
    (hkeep : Keeps s.toMMHeap s'.toMMHeap l) : s'.At p l := by
  cases p with
  | live =>
    rw [At, hsame]
    exact forall₂_held h (fun b hb => hkeep.agree_word hb) hkeep.chunks
  | list q => exact ⟨h.1, fun v hv => (h.2 v (hsame v hv)).congr hkeep⟩
  | cache t q =>
    rw [At, hsame]
    exact ⟨h.1.congr hkeep, h.2⟩
  | hand t =>
    rw [At, hsame]
    exact HandAt.congr h hkeep
  | chunk t =>
    rw [At, hsame]
    exact ChunkAt.congr h hkeep

/-! ### The parts of a state -/

section Parts

variable {pc : MMPc} {q : FreeList} {v : Option Nat} {e : Nat × Nat} {t' : Nat}

@[simp] theorem goto_pc_self : ((s.goto t pc).threads t).pc = pc := by
  simp [goto]

theorem goto_pc_of_ne (h : t' ≠ t) : ((s.goto t pc).threads t').pc = (s.threads t').pc := by
  simp [goto, h]

@[simp] theorem goto_thr_queue :
    ((s.goto t pc).threads t').thr_queue = (s.threads t').thr_queue := by
  by_cases h : t' = t
  · subst h
    simp [goto]
  · simp [goto, h]

theorem setThrQueue_threads_of_ne (h : t' ≠ t) :
    (s.setThrQueue t q e).threads t' = s.threads t' :=
  update_of_ne h _ _

@[simp] theorem setThrQueue_self : ((s.setThrQueue t q e).threads t).thr_queue q = e := by
  simp [setThrQueue]

theorem setThrQueue_of_ne {q' : FreeList} (h : q' ≠ q) :
    ((s.setThrQueue t q e).threads t).thr_queue q' = (s.threads t).thr_queue q' := by
  simp [setThrQueue, h]

end Parts

end MMSystem

end Drt
