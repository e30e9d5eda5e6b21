import Drt.Lib.Heap
import Mathlib.Data.List.Nodup
import Mathlib.Data.List.Perm.Basic

/-!
# Pieces of a heap

A heap is looked at as a list of pieces that share no address: single nodes, and whole structures
of them. Code that writes inside one piece leaves all the others as they are, and nodes may be
taken out of a piece or put together to another one as long as the addresses are the same.
-/

open List Function

universe u

/-- A part of a heap. -/
structure Piece (α : Type u) where
  /-- The addresses that belong to it. -/
  addrs : List Addr
  /-- What is to be found there. -/
  Holds : (Addr → Option α) → Prop
  /-- No other address matters. -/
  congr : ∀ {cell cell'}, (∀ a ∈ addrs, cell' a = cell a) → Holds cell → Holds cell'
  /-- There is something at each of them. -/
  live : ∀ {cell}, Holds cell → ∀ a ∈ addrs, (cell a).isSome

namespace Piece

variable {α : Type u}

/-- A single node. -/
def node (a : Addr) (x : α) : Piece α where
  addrs := [a]
  Holds cell := cell a = some x
  congr hsame h := (hsame a List.mem_cons_self).trans h
  live h b hb := by
    obtain rfl := List.mem_singleton.mp hb
    rw [h]
    rfl

@[simp] theorem addrs_node (a : Addr) (x : α) : (node a x).addrs = [a] := rfl

end Piece

/-- The heap consists of these pieces. -/
structure Pieces {α : Type u} (cell : Addr → Option α) (ps : List (Piece α)) : Prop where
  /-- The pieces are as they say. -/
  holds : ∀ p ∈ ps, p.Holds cell
  /-- No address belongs to two of them. -/
  nodup : (ps.flatMap Piece.addrs).Nodup
  /-- There is nothing else. -/
  all : ∀ a, (cell a).isSome → a ∈ ps.flatMap Piece.addrs

namespace Pieces

variable {α : Type u} {cell cell' : Addr → Option α} {ps qs : List (Piece α)} {p q : Piece α}
  {i : Nat} {a : Addr} {x y : α}

theorem get (h : Pieces cell ps) (hi : ps[i]? = some p) : p.Holds cell :=
  h.holds p (mem_of_getElem? hi)

theorem nodup_get (h : Pieces cell ps) (hi : ps[i]? = some p) : p.addrs.Nodup :=
  (nodup_flatMap.mp h.nodup).1 p (mem_of_getElem? hi)

theorem regroup (h : Pieces cell ps) (hholds : ∀ q ∈ qs, q.Holds cell)
    (hperm : (qs.flatMap Piece.addrs).Perm (ps.flatMap Piece.addrs)) : Pieces cell qs :=
  ⟨hholds, hperm.nodup_iff.mpr h.nodup, fun a ha => hperm.mem_iff.mpr (h.all a ha)⟩

theorem regroup_iff (hholds : (∀ p ∈ ps, p.Holds cell) ↔ ∀ q ∈ qs, q.Holds cell)
    (hcount : ∀ a, (ps.flatMap Piece.addrs).count a = (qs.flatMap Piece.addrs).count a) :
    Pieces cell ps ↔ Pieces cell qs := by
  have hperm := perm_iff_count.mpr hcount
  exact ⟨fun h => h.regroup (hholds.mp h.holds) hperm.symm,
    fun h => h.regroup (hholds.mpr h.holds) hperm⟩

theorem perm (h : Pieces cell ps) (hperm : qs.Perm ps) : Pieces cell qs :=
  h.regroup (fun q hq => h.holds q (hperm.mem_iff.mp hq)) (hperm.flatMap_right _)

/-- The first pieces in another order, by their numbers. -/
theorem perm_pick {is : List Nat} (his : is.Perm (List.range is.length)) (ps : List (Piece α)) :
    (is.filterMap (ps[·]?) ++ ps.drop is.length).Perm ps := by
  have htake : ∀ n, (List.range n).filterMap (ps[·]?) = ps.take n := by
    intro n
    induction n with
    | zero => rfl
    | succ n ih =>
      rw [range_succ, filterMap_append, ih, take_add_one]
      cases hn : ps[n]? <;> simp [hn]
  refine ((his.filterMap _).append_right _).trans ?_
  rw [htake, take_append_drop]

theorem flatMap_set (hi : ps[i]? = some p) (haddrs : q.addrs = p.addrs) :
    (ps.set i q).flatMap Piece.addrs = ps.flatMap Piece.addrs := by
  induction ps generalizing i with
  | nil => simp at hi
  | cons r ps ih =>
    cases i with
    | zero =>
      obtain rfl : r = p := by simpa using hi
      simp [haddrs]
    | succ i =>
      have hi' : ps[i]? = some p := by simpa using hi
      simp [ih hi']

/-- Addresses outside a piece belong to the others. -/
theorem disjoint_of_nodup (hnodup : (ps.flatMap Piece.addrs).Nodup) (hi : ps[i]? = some p)
    {r : Piece α} (hr : r ∈ ps.set i q) : r = q ∨ (r ∈ ps ∧ ∀ a ∈ r.addrs, a ∉ p.addrs) := by
  induction ps generalizing i with
  | nil => simp at hi
  | cons s ps ih =>
    rw [flatMap_cons, nodup_append'] at hnodup
    obtain ⟨hs, hps, hdisj⟩ := hnodup
    cases i with
    | zero =>
      obtain rfl : s = p := by simpa using hi
      rw [set_cons_zero, mem_cons] at hr
      refine hr.imp_right fun hr => ⟨mem_cons_of_mem s hr, fun a ha hap => ?_⟩
      exact hdisj hap (mem_flatMap.mpr ⟨r, hr, ha⟩)
    | succ i =>
      have hi' : ps[i]? = some p := by simpa using hi
      rw [set_cons_succ, mem_cons] at hr
      obtain rfl | hr := hr
      · refine .inr ⟨mem_cons_self, fun a ha hap => ?_⟩
        exact hdisj ha (mem_flatMap.mpr ⟨p, mem_of_getElem? hi', hap⟩)
      · exact (ih hps hi' hr).imp_right fun h => ⟨mem_cons_of_mem s h.1, h.2⟩

theorem replace (h : Pieces cell ps) (hi : ps[i]? = some p) (haddrs : q.addrs = p.addrs)
    (hother : ∀ a, a ∉ p.addrs → cell' a = cell a) (hq : q.Holds cell') :
    Pieces cell' (ps.set i q) := by
  refine ⟨fun r hr => ?_, (flatMap_set hi haddrs).symm ▸ h.nodup, fun a ha => ?_⟩
  · obtain rfl | ⟨hr, hdisj⟩ := disjoint_of_nodup h.nodup hi hr
    · exact hq
    · exact r.congr (fun a ha => hother a (hdisj a ha)) (h.holds r hr)
  · rw [flatMap_set hi haddrs]
    by_cases hap : a ∈ p.addrs
    · exact mem_flatMap.mpr ⟨p, mem_of_getElem? hi, hap⟩
    · exact h.all a (hother a hap ▸ ha)

theorem put (h : Pieces cell ps) (hi : ps[i]? = some (.node a x)) (y : α) :
    Pieces (update cell a (some y)) (ps.set i (.node a y)) := by
  refine h.replace hi rfl (fun b hb => update_of_ne (by simpa using hb) ..) ?_
  exact update_self ..

/-- A new node. -/
theorem alloc (h : Pieces cell ps) (ha : cell a = none) (x : α) :
    Pieces (update cell a (some x)) (.node a x :: ps) := by
  have hfree : a ∉ ps.flatMap Piece.addrs := by
    intro hmem
    obtain ⟨r, hr, har⟩ := mem_flatMap.mp hmem
    have hlive := r.live (h.holds r hr) a har
    simp [ha] at hlive
  have hother : ∀ r ∈ ps, ∀ b ∈ r.addrs, b ≠ a := by
    rintro r hr b hb rfl
    exact hfree (mem_flatMap.mpr ⟨r, hr, hb⟩)
  refine ⟨?_, ?_, fun b hb => ?_⟩
  · intro r hr
    obtain rfl | hr := mem_cons.mp hr
    · exact update_self ..
    · exact r.congr (fun b hb => update_of_ne (hother r hr b hb) ..) (h.holds r hr)
  · rw [flatMap_cons]
    exact nodup_cons.mpr ⟨hfree, h.nodup⟩
  · by_cases hba : b = a
    · subst hba
      exact mem_cons_self
    · rw [update_of_ne hba] at hb
      exact mem_cons_of_mem a (h.all b hb)

theorem free (h : Pieces cell (.node a x :: ps)) : Pieces (update cell a none) ps := by
  have hnodup := h.nodup
  rw [flatMap_cons, Piece.addrs_node, singleton_append, nodup_cons] at hnodup
  refine ⟨fun r hr => ?_, hnodup.2, fun b hb => ?_⟩
  · refine r.congr (fun b hb => update_of_ne ?_ ..) (h.holds r (mem_cons_of_mem _ hr))
    rintro rfl
    exact hnodup.1 (mem_flatMap.mpr ⟨r, hr, hb⟩)
  · have hba : b ≠ a := by
      rintro rfl
      simp at hb
    rw [update_of_ne hba] at hb
    simpa [hba] using h.all b hb

end Pieces
